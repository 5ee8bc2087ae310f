import Dom0.Lib.Runs
import Dom0.Theorems.SocketLoops

/-! Whole blocks. Whatever pieces the system calls move, `receiveData` and `sendData` return the size exactly where the
whole block has been moved, in order and each byte once, and a call that gives nothing ends them at once. -/

namespace Dom0
namespace BlockCall

section
variable {w : Word} {α : Type} {move : Transfer w → α → Nat → α} {P : α → Nat → Prop} {size : SizeT w}
    {s s' : BlockCall w α}
  {r : SocketResult} {rs : List SocketResult} {k n : Nat}

/-- `k` bytes have been moved, which left `P`. -/
structure At (P : α → Nat → Prop) (size : SizeT w) (s : BlockCall w α) (k : Nat) : Prop where
  sized : s.transfer.size = size
  moved : P s.moved k
  inside : ∀ p ∈ s.windows, p.1 + p.2 ≤ size.toNat
  running : s.ret = none → s.transfer.At k
  returned : ∀ x, s.ret = some x → x = size ∧ k = size.toNat ∨ x.toInt < 1 ∧ k < size.toNat

/-- A `read` or `write` at position `k` moves on to the next position. -/
def Moves (P : α → Nat → Prop) (size : SizeT w) (move : Transfer w → α → Nat → α) : Prop :=
  ∀ t a k n, t.At k → t.size = size → k + n ≤ size.toNat → P a k → P (move t a n) (k + n)

/-- How many calls a block can still take. -/
def left (s : BlockCall w α) (size : SizeT w) (k : Nat) : Nat := if s.ret = none then size.toNat - k else 0

theorem at_start (errno : NetErrno) {a : α} (hsize : 0 < size.toNat) (ha : P a 0) :
    At P size (start size errno a) 0 where
  sized := rfl
  moved := ha
  inside := by simp [start]
  running _ := .start hsize
  returned x hx := by cases hx

theorem step_none {x : SSizeT w} (hx : s.ret = some x) : s.step move r = none :=
  if_neg fun h => Option.some_ne_none x (hx.symm.trans h.1)

theorem next_of_fails (hfails : r.Fails) (t : Transfer w) (errno : NetErrno) :
    ∃ e x, r.toExcept errno = .error e ∧ t.next (.error e) = .returned x ∧ x.toInt < 1 := by
  cases r with
  | failed e =>
    obtain ⟨x, hx, hlt⟩ := t.next_error e
    exact ⟨e, x, rfl, hx, hlt⟩
  | nothing =>
    obtain ⟨x, hx, hlt⟩ := t.next_error errno
    exact ⟨errno, x, rfl, hx, hlt⟩
  | count n => exact hfails.elim

/-- The bytes that a `read` or `write` asks for end with the block. -/
theorem At.window (h : At P size s k) (hret : s.ret = none) :
    ∀ p ∈ s.windows ++ [(s.transfer.position.toNat, s.transfer.left)], p.1 + p.2 ≤ size.toNat := by
  have hat := h.running hret
  have hlt := hat.lt
  rw [h.sized] at hlt
  intro p hp
  rcases List.mem_append.mp hp with hold | hnew
  · exact h.inside p hold
  · obtain rfl := List.mem_singleton.mp hnew
    simp only [hat.left, hat.position, h.sized]
    omega

/-- One round: a call that gives nothing ends the loop, any other one moves some bytes. -/
theorem At.step (h : At P size s k) (hmoves : Moves P size move) (hstep : s.step move r = some s') :
    s.ret = none ∧ (r.Fails ∧ At P size s' k ∧ (∃ x, s'.ret = some x ∧ x.toInt < 1) ∨
      ¬r.Fails ∧ ∃ n, 1 ≤ n ∧ At P size s' (k + n)) := by
  simp only [BlockCall.step, Option.ite_none_right_eq_some] at hstep
  obtain ⟨⟨hret, hpossible⟩, hstep⟩ := hstep
  have hat := h.running hret
  have hlt := hat.lt
  have hwindow := h.window hret
  refine ⟨hret, ?_⟩
  by_cases hfails : r.Fails
  · obtain ⟨e, x, hres, hnext, hx⟩ := next_of_fails hfails s.transfer s.errno
    rw [hres, hnext] at hstep
    cases hstep
    rw [h.sized] at hlt
    -- The loop ends before its size is reached.
    refine Or.inl ⟨hfails, ⟨h.sized, h.moved, hwindow, fun hnone => ?_, fun y hy => ?_⟩, x, rfl, hx⟩
    · cases hnone
    · cases hy
      exact Or.inr ⟨hx, hlt⟩
  · cases r with
    | failed e => exact absurd trivial hfails
    | nothing => exact absurd trivial hfails
    | count n =>
      obtain ⟨hpos, hle⟩ : 1 ≤ n ∧ n ≤ s.transfer.left := hpossible
      rw [hat.left] at hle
      have hmoved : P (move s.transfer s.moved n) (k + n) :=
        hmoves _ _ _ _ hat h.sized (by rw [← h.sized]; omega) h.moved
      simp only [SocketResult.toExcept] at hstep
      refine Or.inr ⟨hfails, n, hpos, ?_⟩
      rcases Nat.lt_or_ge (k + n) s.transfer.size.toNat with hmore | hdone
      · obtain ⟨t, hnext, hsize, hnew⟩ := hat.next_again hmore
        rw [hnext] at hstep
        cases hstep
        refine ⟨hsize.trans h.sized, hmoved, hwindow, fun _ => hnew, fun x hx => ?_⟩
        rw [show s.ret = some x from hx] at hret
        cases hret
      · -- The last piece of the block.
        have heq : k + n = s.transfer.size.toNat := by omega
        rw [hat.next_returned heq] at hstep
        cases hstep
        refine ⟨h.sized, hmoved, hwindow, fun hnone => ?_, fun x hx => ?_⟩
        · cases hnone
        · cases hx
          exact Or.inl ⟨h.sized, by rw [heq, h.sized]⟩

/-- A run: how far it gets, and how many calls it takes. -/
theorem At.run (hmoves : Moves P size move) (h : At P size s k)
    (hrun : Run (BlockCall.step move) (fun _ _ => True) s rs s') :
    ∃ k', At P size s' k' ∧ rs.length + s'.left size k' ≤ s.left size k := by
  induction hrun generalizing k with
  | nil s => exact ⟨k, h, by simp⟩
  | @cons s middle last r rs allowed accepted tail ih =>
    obtain ⟨hret, hcases⟩ := h.step hmoves accepted
    have hat := h.running hret
    have hlt := hat.lt
    rw [h.sized] at hlt
    have hfull : s.left size k = size.toNat - k := if_pos hret
    rcases hcases with ⟨-, hmiddle, x, hx, -⟩ | ⟨-, n, hpos, hmiddle⟩
    · obtain ⟨k', hlast, hle⟩ := ih hmiddle
      have hzero : middle.left size k = 0 := if_neg (by rw [hx]; exact Option.some_ne_none x)
      refine ⟨k', hlast, ?_⟩
      simp only [List.length_cons]
      omega
    · obtain ⟨k', hlast, hle⟩ := ih hmiddle
      have hless : middle.left size (k + n) ≤ size.toNat - (k + n) := by
        unfold left
        split <;> omega
      refine ⟨k', hlast, ?_⟩
      simp only [List.length_cons]
      omega

/-- A call that gives nothing is the last one of its run, and what is then returned is below 1. -/
theorem At.run_fails (hmoves : Moves P size move) (h : At P size s k) {before after : List SocketResult}
    (hfails : r.Fails) (hrun : Run (BlockCall.step move) (fun _ _ => True) s (before ++ r :: after) s') :
    after = [] ∧ ∃ x, s'.ret = some x ∧ x.toInt < 1 := by
  induction before generalizing s k with
  | nil =>
    cases hrun with
    | cons _ accepted tail =>
      obtain ⟨-, ⟨-, -, x, hx, hlt⟩ | ⟨hno, -⟩⟩ := h.step hmoves accepted
      · obtain ⟨rfl, rfl⟩ := tail.of_stuck fun _ => step_none hx
        exact ⟨rfl, x, hx, hlt⟩
      · exact absurd hfails hno
  | cons r' before ih =>
    cases hrun with
    | cons _ accepted tail =>
      obtain ⟨-, ⟨-, hmiddle, -⟩ | ⟨-, n, -, hmiddle⟩⟩ := h.step hmoves accepted
      · exact ih hmiddle tail
      · exact ih hmiddle tail

/-- What `receiveData` and `sendData` promise, whatever the system calls give: `P` tells how much has been moved, in
    order and each byte once, and `s` is the state that the results `rs` lead to. -/
structure Whole (move : Transfer w → α → Nat → α) (P : α → Nat → Prop) (size : SizeT w) (rs : List SocketResult)
    (s : BlockCall w α) : Prop where
  bounded : rs.length ≤ size.toNat
  inside : ∀ p ∈ s.windows, p.1 + p.2 ≤ size.toNat
  moved : ∃ k ≤ size.toNat, P s.moved k
  returns_size : s.ret = some size ↔ P s.moved size.toNat
  returns : ∀ x, s.ret = some x → x = size ∨ x.toInt < 1
  stops : ∀ before r after, rs = before ++ r :: after → r.Fails → after = [] ∧ ∃ x, s.ret = some x ∧ x.toInt < 1
  goes_on : s.ret = none → 1 ≤ s.transfer.left ∧ ∀ r, r.Possible s.transfer.left → (s.step move r).isSome

theorem step_isSome (hret : s.ret = none) (hpossible : r.Possible s.transfer.left) : (s.step move r).isSome := by
  simp only [BlockCall.step, if_pos (And.intro hret hpossible)]
  split <;> rfl

theorem At.le (h : At P size s k) : k ≤ size.toNat := by
  cases hret : s.ret with
  | none =>
    have hlt := (h.running hret).lt
    rw [h.sized] at hlt
    exact Nat.le_of_lt hlt
  | some x =>
    rcases h.returned x hret with ⟨-, hk⟩ | ⟨-, hk⟩
    · exact Nat.le_of_eq hk
    · exact Nat.le_of_lt hk

theorem At.returns_size (h : At P size s k) (hsize : 1 ≤ size.toInt) (hfun : ∀ a k k', P a k → P a k' → k = k') :
    s.ret = some size ↔ P s.moved size.toNat := by
  constructor
  · intro hret
    rcases h.returned size hret with ⟨-, hk⟩ | ⟨hlt, -⟩
    · exact hk ▸ h.moved
    · omega
  · intro hall
    obtain rfl : k = size.toNat := hfun _ _ _ h.moved hall
    cases hret : s.ret with
    | none =>
      have hlt := (h.running hret).lt
      rw [h.sized] at hlt
      exact absurd hlt (Nat.lt_irrefl _)
    | some x =>
      rcases h.returned x hret with ⟨rfl, -⟩ | ⟨-, hlt⟩
      · rfl
      · exact absurd hlt (Nat.lt_irrefl _)

/-- A loop whose calls move on from position to position moves whole blocks. -/
theorem whole {errno : NetErrno} {a : α} (hsize : 1 ≤ size.toInt) (ha : P a 0) (hmoves : Moves P size move)
    (hfun : ∀ a k k', P a k → P a k' → k = k')
    (hrun : Run (BlockCall.step move) (fun _ _ => True) (start size errno a) rs s) : Whole move P size rs s := by
  have hstart := at_start errno (Transfer.toNat_pos_of_toInt hsize) ha
  obtain ⟨k, hat, hcount⟩ := hstart.run hmoves hrun
  have hleft : (start size errno a).left size 0 = size.toNat := by simp [left, start]
  refine ⟨by omega, hat.inside, ⟨k, hat.le, hat.moved⟩, hat.returns_size hsize hfun, ?_, ?_, ?_⟩
  · intro x hx
    rcases hat.returned x hx with ⟨h, -⟩ | ⟨h, -⟩
    · exact Or.inl h
    · exact Or.inr h
  · rintro before r after rfl hfails
    exact hstart.run_fails hmoves hfails hrun
  · intro hret
    have hrunning := hat.running hret
    have hlt := hrunning.lt
    have hrest := hrunning.left
    exact ⟨by omega, fun r hr => step_isSome hret hr⟩

end

/-! ## Receiving and sending -/

section
variable {w : Word} {stream data : Mem} {size : SizeT w}

/-- The first `k` bytes of the stream, and no others, have been consumed, and stored from the start of the block on. -/
structure Received (stream data : Mem) (b : ReceivedBlock) (k : Nat) : Prop where
  consumed : b.consumed = k
  stored : b.data.read 0 k = stream.read 0 k
  beyond : ∀ i, k ≤ i → b.data i = data i

end

end BlockCall
end Dom0
