import Dom0.Net.NetworkBinary
import Dom0.Theorems.SocketLoops

/-! What `receiveNetworkBinary` makes of failures. It returns the size in any case, and takes the negative results of
`receiveData` and `write` for numbers of bytes: it does what it should exactly where no `write` fails, and a `read`
fails only with error number 0 and where nothing of the chunk has arrived yet. -/

namespace Dom0
namespace Reception

/-! ## What is asked of it -/

section
variable {w : Word}

/-- It returns; it passes on each byte once and in order; it returns the size exactly where all bytes were received and
    written, and less than 1 otherwise. -/
def Right (o : ByteOrder) (A : Answers) (h : BinaryHandler w) (size : SizeT w) : Prop :=
  ∃ n result, (run o A (start h size) n).result = some result ∧ (run o A (start h size) n).inOrder = true ∧
    (result = size ↔ (run o A (start h size) n).received = size.toNat ∧ (run o A (start h size) n).taken = size.toNat) ∧
    (¬((run o A (start h size) n).received = size.toNat ∧ (run o A (start h size) n).taken = size.toNat) →
      result.toInt < 1)

/-- The next call is answered so that nothing is lost. -/
def Good (A : Answers) (s : Reception w) : Prop :=
  match s.handler.pc with
  | .receive _ t => ∀ e, A.read s.calls = .error e → e.1 = 0 ∧ t.position = 0
  | .write _ _ _ => A.write s.calls ≠ none
  | _ => True

/-- The next call is answered with some bytes, or there is none. -/
def Advances (A : Answers) (s : Reception w) : Prop :=
  match s.handler.pc with
  | .receive _ _ => ∃ k, A.read s.calls = .ok k
  | .write _ _ _ => ∃ k, A.write s.calls = some (k + 1)
  | _ => True

/-- Every call that is made is answered well, and not without bytes for ever. -/
def AnsweredWell (o : ByteOrder) (A : Answers) (h : BinaryHandler w) (size : SizeT w) : Prop :=
  (∀ n, Good A (run o A (start h size) n)) ∧ ∀ n, ∃ m ≥ n, Advances A (run o A (start h size) m)

end

/-! ## What a call does -/

section
variable {w : Word} {o : ByteOrder} {A : Answers} {s s' : Reception w} {left received written : SizeT w}
  {t t' : Transfer w} {p j : Nat}

/-- The loop of `receiveData` stands at `p` in a chunk of which the first `p` bytes lie in `rwBuffer`. -/
structure AtRead (s : Reception w) (left : SizeT w) (t : Transfer w) (p : Nat) : Prop where
  pc : s.handler.pc = .receive left t
  at_ : t.At p
  size : t.size.toNat = min maxRwBufferSize left.toNat
  le : p ≤ s.received
  stored : ∀ i < p, s.origin i = some (s.received - p + i)

/-- `while (leftToReceive > 0)` is evaluated. -/
def Looped (s : Reception w) (left : SizeT w) : Prop :=
  (∃ t, AtRead s left t 0) ∨ left.toNat = 0 ∧ s.result = some s.handler.size

/-- What is the same in every state: no byte lies behind the end of `rwBuffer`. -/
structure Base (s : Reception w) : Prop where
  inside : ∀ i, maxRwBufferSize ≤ i → s.origin i = none
  reading : ∀ left t, s.handler.pc = .receive left t → ∃ p, AtRead s left t p
  writing : ∀ left received written, s.handler.pc = .write left received written → written.toNat < received.toNat

end

section
variable {w : Word}

/-- Everything that the next call can do. -/
inductive Next (A : Answers) (s s' : Reception w) : Prop
  | done (hs : s.result ≠ none) (heq : s' = s)
  | more {left : SizeT w} {t t' : Transfer w} {p j : Nat} (hs : AtRead s left t p) (hread : ∃ k, A.read s.calls = .ok k)
      (hj : 0 < j) (hs' : AtRead s' left t' (p + j)) (hreceived : s'.received = s.received + j)
      (htaken : s'.taken = s.taken) (horder : s'.inOrder = s.inOrder)
  | whole {left : SizeT w} {t : Transfer w} {p j : Nat} (hs : AtRead s left t p) (hread : ∃ k, A.read s.calls = .ok k)
      (hj : 0 < j) (hp : p + j = t.size.toNat) (hs' : s'.handler.pc = .write (left - t.size) t.size 0)
      (hstored : ∀ i < t.size.toNat, s'.origin i = some (s'.received - t.size.toNat + i))
      (hreceived : s'.received = s.received + j) (htaken : s'.taken = s.taken) (horder : s'.inOrder = s.inOrder)
  | again {left : SizeT w} {t t' : Transfer w} {p : Nat} {e : NetErrno} (hs : AtRead s left t p)
      (hread : A.read s.calls = .error e) (he : e.1 = 0) (hs' : AtRead s' left t' 0)
      (hreceived : s'.received = s.received) (htaken : s'.taken = s.taken) (horder : s'.inOrder = s.inOrder)
  | wild {left left' n : SizeT w} {t : Transfer w} {p : Nat} {e : NetErrno} (hs : AtRead s left t p)
      (hread : A.read s.calls = .error e) (he : e.1 ≠ 0) (hs' : s'.handler.pc = .write left' n 0)
      (hlong : maxRwBufferSize < n.toNat) (hreceived : s'.received = s.received) (htaken : s'.taken = s.taken)
  | wrote {left received written : SizeT w} {j k : Nat} (hs : s.handler.pc = .write left received written)
      (hwrite : A.write s.calls = some k) (hj : j = min k (received.toNat - written.toNat))
      (hs' : (∃ written', s'.handler.pc = .write left received written' ∧ written'.toNat = written.toNat + j ∧
        written'.toNat < received.toNat) ∨ written.toNat + j = received.toNat ∧ Looped s' left)
      (horigin : s'.origin = s.origin) (hreceived : s'.received = s.received) (htaken : s'.taken = s.taken + j)
      (horder : s'.inOrder = (s.inOrder && decide (s.PassesNext written.toNat (received.toNat - written.toNat))))
  | failed {left received written : SizeT w} (hs : s.handler.pc = .write left received written)
      (hwrite : A.write s.calls = none)
      (hs' : (∃ written', s'.handler.pc = .write left received written' ∧ written'.toNat + 1 = written.toNat) ∨
        written.toNat = 0 ∧ Looped s' left)
      (horigin : s'.origin = s.origin) (hreceived : s'.received = s.received) (htaken : s'.taken = s.taken)
      (horder : s'.inOrder = (s.inOrder && decide (s.PassesNext written.toNat (received.toNat - written.toNat))))

end

section
variable {w : Word} {o : ByteOrder} {A : Answers} {s s' : Reception w} {left received written : SizeT w}
  {t t' : Transfer w} {p j : Nat}

theorem loop_result (h : BinaryHandler w) (hleft : ¬0 < left.toNat) (hs : s.handler = h.loop left) :
    s.result = some s.handler.size := by
  have hpc : s.handler.pc = .nameSize .int32 ∨ s.handler.pc = .close := by
    rw [hs, BinaryHandler.loop, if_neg hleft]
    unfold netcheckLoop
    split
    · exact Or.inr rfl
    · exact Or.inl rfl
  rcases hpc with hpc | hpc <;> rw [result, hpc]

theorem looped {h : BinaryHandler w} (hs : s.handler = h.loop left) : Looped s left := by
  by_cases hleft : 0 < left.toNat
  · obtain ⟨size, hloop, hsize, hpos⟩ := h.loop_more hleft
    exact Or.inl ⟨_, by rw [hs, hloop], .start hpos, hsize, Nat.zero_le _, fun i hi => absurd hi (Nat.not_lt_zero i)⟩
  · exact Or.inr ⟨by omega, loop_result h hleft hs⟩

theorem AtRead.next_ok {k : Nat} (h : AtRead s left t p) (hread : A.read s.calls = .ok k) :
    Next A s (s.step o A) := by
  obtain ⟨j, hj⟩ : ∃ j, max 1 (min k t.left) = j := ⟨_, rfl⟩
  have hleft := h.at_.left
  have hlt := h.at_.lt
  have hle : p + j ≤ t.size.toNat := by omega
  have hpos : 0 < j := by omega
  obtain ⟨bs, hbs, hlen⟩ : ∃ bs, (List.range j).map (fun i => A.stream (s.received + i)) = bs ∧ bs.length = j :=
    ⟨_, rfl, by simp⟩
  have hstep : s.step o A = { s with
      handler := s.handler.onRead o (.ok bs)
      calls := s.calls + 1
      origin := fun i => if p ≤ i ∧ i < p + j then some (s.received + (i - p)) else s.origin i
      received := s.received + j } := by
    simp only [step, h.pc, hread, h.at_.position, hj, hbs]
  -- What lies in the buffer after the `read`.
  have hstored : ∀ i < p + j, (s.step o A).origin i = some ((s.step o A).received - (p + j) + i) := by
    intro i hi
    have hge := h.le
    rw [hstep]
    by_cases hnew : p ≤ i
    · simp only [if_pos (And.intro hnew hi)]
      congr 1
      omega
    · simp only [if_neg (show ¬(p ≤ i ∧ i < p + j) by omega)]
      rw [h.stored i (by omega)]
      congr 1
      omega
  have hreceived : (s.step o A).received = s.received + j := by rw [hstep]
  rcases Nat.lt_or_ge (p + j) t.size.toNat with hmore | hdone
  · obtain ⟨t', hnext, hsize, hat⟩ := h.at_.next_again hmore
    have hpc : (s.step o A).handler.pc = .receive left t' := by
      simp only [hstep, BinaryHandler.onRead, h.pc, Except.map, hlen, hnext]
    have hge := h.le
    exact .more h ⟨k, hread⟩ hpos ⟨hpc, hat, by rw [hsize, h.size], by rw [hreceived]; omega, hstored⟩ hreceived
      (by rw [hstep]) (by rw [hstep])
  · have heq : p + j = t.size.toNat := Nat.le_antisymm hle hdone
    have hpc : (s.step o A).handler.pc = .write (left - t.size) t.size 0 := by
      simp only [hstep, BinaryHandler.onRead, h.pc, Except.map, hlen, h.at_.next_returned heq]
      rw [if_pos (by omega)]
    exact .whole h ⟨k, hread⟩ hpos heq hpc (heq ▸ hstored) hreceived (by rw [hstep]) (by rw [hstep])

theorem toNat_errno {e : NetErrno} : ((-e.1).signExtend (8 * w.bytes)).toNat = 0 ∧ e.1 = 0 ∨
    maxRwBufferSize < ((-e.1).signExtend (8 * w.bytes)).toNat ∧ e.1 ≠ 0 := by
  by_cases he : e.1 = 0
  · exact Or.inl ⟨by rw [he]; cases w <;> rfl, he⟩
  · refine Or.inr ⟨?_, he⟩
    have hnonneg := e.2
    have hpos : 0 < e.1.toNat := Nat.pos_of_ne_zero fun hzero => he (BitVec.eq_of_toNat_eq (by simpa using hzero))
    have hlt := e.1.isLt
    -- As a number of the width of the error it is at least 2 ^ 31.
    have hneg : (-e.1).toInt = -(e.1.toNat : Int) := by
      rw [BitVec.toInt_eq_toNat_cond] at hnonneg ⊢
      rw [BitVec.toNat_neg]
      split at hnonneg <;> split <;> omega
    have hle := w.le_bits
    have hext : ((-e.1).signExtend (8 * w.bytes)).toInt = -(e.1.toNat : Int) := by
      rw [BitVec.toInt_signExtend_of_le hle, hneg]
    have hsmall : e.1.toNat < 2 ^ 31 := by
      rw [BitVec.toInt_eq_toNat_cond] at hnonneg
      split at hnonneg <;> omega
    have hwide := w.two_pow_le
    have hmax : maxRwBufferSize < 2 ^ 31 := by decide
    rw [BitVec.toInt_eq_toNat_cond] at hext
    split at hext <;> omega

theorem AtRead.next_error {e : NetErrno} (h : AtRead s left t p) (hread : A.read s.calls = .error e) :
    Next A s (s.step o A) := by
  have hstep : s.step o A = { s with handler := s.handler.onRead o (.error e), calls := s.calls + 1 } := by
    simp only [step, h.pc, hread]
  have hnext : t.next (.error e) = .returned ((-e.1).signExtend _) := rfl
  rcases toNat_errno (w := w) (e := e) with ⟨hzero, he⟩ | ⟨hlong, he⟩
  · have hx : (-e.1).signExtend (8 * w.bytes) = 0 := BitVec.eq_of_toNat_eq (by simpa using hzero)
    have hhandler : (s.step o A).handler =
        BinaryHandler.loop { s.handler with rwBuffer := t.store s.handler.rwBuffer (.error e) } left := by
      simp only [hstep, BinaryHandler.onRead, h.pc, Except.map, hnext, hx]
      rw [if_neg (by simp)]
      simp
    have hpos : left.toNat ≠ 0 := by
      have hlt := h.at_.lt
      have hsize := h.size
      omega
    rcases looped hhandler with ⟨t', hat⟩ | ⟨hzero', -⟩
    · exact .again h hread he hat (by rw [hstep]) (by rw [hstep]) (by rw [hstep])
    · exact absurd hzero' hpos
  · have hpc : (s.step o A).handler.pc = .write (left - (-e.1).signExtend _) ((-e.1).signExtend _) 0 := by
      simp only [hstep, BinaryHandler.onRead, h.pc, Except.map, hnext]
      rw [if_pos (by omega)]
    exact .wild h hread he hpc hlong (by rw [hstep]) (by rw [hstep])

theorem next_wrote {k : Nat} (hpc : s.handler.pc = .write left received written) (hlt : written.toNat < received.toNat)
    (hwrite : A.write s.calls = some k) : Next A s (s.step o A) := by
  have hn : (received - written).toNat = received.toNat - written.toNat :=
    BitVec.toNat_sub_of_le (by rw [BitVec.le_def]; omega)
  have hbound := received.isLt
  obtain ⟨j, hj⟩ : ∃ j, min k (received.toNat - written.toNat) = j := ⟨_, rfl⟩
  have hadd : (written + BitVec.ofInt (8 * w.bytes) (j : Nat)).toNat = written.toNat + j := by
    rw [BitVec.ofInt_natCast, BitVec.toNat_add, BitVec.toNat_ofNat, Nat.add_mod_mod, Nat.mod_eq_of_lt (by omega)]
  have hstep : s.step o A = { s with
      handler := s.handler.onOp (j : Nat)
      calls := s.calls + 1
      taken := s.taken + j
      inOrder := s.inOrder && decide (s.PassesNext written.toNat (received.toNat - written.toNat)) } := by
    simp only [step, hpc, hwrite, hn, hj]
  refine .wrote hpc hwrite hj.symm ?_ (by rw [hstep]) (by rw [hstep]) (by rw [hstep]) (by rw [hstep])
  by_cases hmore : written.toNat + j < received.toNat
  · refine Or.inl ⟨written + BitVec.ofInt _ (j : Nat), ?_, hadd, by omega⟩
    simp only [hstep, BinaryHandler.onOp, hpc, hadd, if_pos hmore]
  · refine Or.inr ⟨by omega, looped (h := s.handler) ?_⟩
    simp only [hstep, BinaryHandler.onOp, hpc, hadd, if_neg hmore]

theorem next_failed (hpc : s.handler.pc = .write left received written) (hlt : written.toNat < received.toNat)
    (hwrite : A.write s.calls = none) : Next A s (s.step o A) := by
  have hn : (received - written).toNat = received.toNat - written.toNat :=
    BitVec.toNat_sub_of_le (by rw [BitVec.le_def]; omega)
  have hbound := received.isLt
  have hone : (BitVec.ofInt (8 * w.bytes) (-1)).toNat = 2 ^ (8 * w.bytes) - 1 := by cases w <;> rfl
  have hstep : s.step o A = { s with
      handler := s.handler.onOp (-1)
      calls := s.calls + 1
      inOrder := s.inOrder && decide (s.PassesNext written.toNat (received.toNat - written.toNat)) } := by
    simp only [step, hpc, hwrite, hn]
  refine .failed hpc hwrite ?_ (by rw [hstep]) (by rw [hstep]) (by rw [hstep]) (by rw [hstep])
  rcases Nat.eq_zero_or_pos written.toNat with hzero | hpos
  · -- `written` wraps to the greatest number, which ends the inner loop.
    have hadd : (written + BitVec.ofInt (8 * w.bytes) (-1)).toNat = 2 ^ (8 * w.bytes) - 1 := by
      rw [BitVec.toNat_add, hone, hzero, Nat.zero_add, Nat.mod_eq_of_lt (by omega)]
    refine Or.inr ⟨hzero, looped (h := s.handler) ?_⟩
    simp only [hstep, BinaryHandler.onOp, hpc, hadd]
    rw [if_neg (by omega)]
  · have hadd : (written + BitVec.ofInt (8 * w.bytes) (-1)).toNat = written.toNat - 1 := by
      have hwrap : written.toNat + (2 ^ (8 * w.bytes) - 1) = written.toNat - 1 + 2 ^ (8 * w.bytes) := by omega
      rw [BitVec.toNat_add, hone, hwrap, Nat.add_mod_right, Nat.mod_eq_of_lt (by omega)]
    refine Or.inl ⟨written + BitVec.ofInt _ (-1), ?_, by omega⟩
    simp only [hstep, BinaryHandler.onOp, hpc, hadd]
    rw [if_pos (by omega)]

theorem Base.next (h : Base s) : Next A s (s.step o A) := by
  cases hpc : s.handler.pc with
  | receive left t =>
    obtain ⟨p, hat⟩ := h.reading left t hpc
    cases hread : A.read s.calls with
    | ok k => exact hat.next_ok hread
    | error e => exact hat.next_error hread
  | write left received written =>
    have hlt := h.writing left received written hpc
    cases hwrite : A.write s.calls with
    | some k => exact next_wrote hpc hlt hwrite
    | none => exact next_failed hpc hlt hwrite
  | nameSize | name | «open» | size | go | malloc | faulted | close | returned =>
    exact .done (by simp [result, hpc]) (by simp [step, hpc])

/-- A `read` stores nothing behind the end of `rwBuffer`. -/
theorem Base.origin_step (h : Base s) {i : Nat} (hi : maxRwBufferSize ≤ i) : (s.step o A).origin i = s.origin i := by
  cases hpc : s.handler.pc with
  | receive left t =>
    obtain ⟨p, hat⟩ := h.reading left t hpc
    cases hread : A.read s.calls with
    | ok k =>
      have hsize := hat.size
      have hlt := hat.at_.lt
      have hleft := hat.at_.left
      simp only [step, hpc, hread, hat.at_.position]
      rw [if_neg (by omega)]
    | error e => simp only [step, hpc, hread]
  | write => simp only [step, hpc]; split <;> rfl
  | nameSize | name | «open» | size | go | malloc | faulted | close | returned => simp only [step, hpc]

theorem Looped.base (h : Looped s left) (hinside : ∀ i, maxRwBufferSize ≤ i → s.origin i = none) : Base s := by
  rcases h with ⟨t, hat⟩ | ⟨-, hresult⟩
  · refine ⟨hinside, fun left' t' hpc => ?_, fun _ _ _ hpc => ?_⟩
    · cases hat.pc.symm.trans hpc
      exact ⟨0, hat⟩
    · cases hat.pc.symm.trans hpc
  · refine ⟨hinside, fun _ _ hpc => ?_, fun _ _ _ hpc => ?_⟩ <;> simp [result, hpc] at hresult

theorem AtRead.base (h : AtRead s left t p) (hinside : ∀ i, maxRwBufferSize ≤ i → s.origin i = none) : Base s := by
  refine ⟨hinside, fun left' t' hpc => ?_, fun _ _ _ hpc => ?_⟩
  · cases h.pc.symm.trans hpc
    exact ⟨p, h⟩
  · cases h.pc.symm.trans hpc

theorem base_of_write (hpc : s.handler.pc = .write left received written) (hlt : written.toNat < received.toNat)
    (hinside : ∀ i, maxRwBufferSize ≤ i → s.origin i = none) : Base s := by
  refine ⟨hinside, fun _ _ hpc' => ?_, fun _ _ _ hpc' => ?_⟩
  · cases hpc.symm.trans hpc'
  · cases hpc.symm.trans hpc'
    exact hlt

theorem Base.step (h : Base s) : Base (s.step o A) := by
  have hinside : ∀ i, maxRwBufferSize ≤ i → (s.step o A).origin i = none := fun i hi => by
    rw [h.origin_step hi, h.inside i hi]
  cases h.next (o := o) (A := A) with
  | done _ heq => rwa [heq]
  | more _ _ _ hs' => exact hs'.base hinside
  | whole hs _ _ _ hs' =>
    have hlt := hs.at_.lt
    exact base_of_write hs' (by simp; omega) hinside
  | again _ _ _ hs' => exact hs'.base hinside
  | wild _ _ _ hs' hlong => exact base_of_write hs' (by simp; omega) hinside
  | wrote _ _ _ hs' =>
    rcases hs' with ⟨written', hpc, -, hlt⟩ | ⟨-, hloop⟩
    · exact base_of_write hpc hlt hinside
    · exact hloop.base hinside
  | failed hs _ hs' =>
    rcases hs' with ⟨written', hpc, hsucc⟩ | ⟨-, hloop⟩
    · have hlt := h.writing _ _ _ hs
      exact base_of_write hpc (by omega) hinside
    · exact hloop.base hinside

theorem Base.start (h : BinaryHandler w) (size : SizeT w) : Base (start h size) :=
  (looped (s := Reception.start h size) rfl).base fun _ _ => rfl

theorem Base.run (h : Base s) (n : Nat) : Base (run o A s n) := by
  induction n with
  | zero => exact h
  | succ n ih => exact ih.step

end

/-! ## Nothing is lost -/

section
variable {w : Word}

/-- Where nothing was lost so far: what was received is in the file, or lies in `rwBuffer` and comes next. -/
inductive Intact (s : Reception w) (size : SizeT w) : Prop
  | reading {left : SizeT w} {t : Transfer w} {p : Nat} (hs : AtRead s left t p) (htaken : s.taken + p = s.received)
      (hleft : s.taken + left.toNat = size.toNat) (horder : s.inOrder = true)
  | writing {left received written : SizeT w} (hs : s.handler.pc = .write left received written)
      (hlt : written.toNat < received.toNat)
      (hstored : ∀ i < received.toNat, s.origin i = some (s.received - received.toNat + i))
      (hle : received.toNat ≤ s.received) (htaken : s.taken + received.toNat = s.received + written.toNat)
      (hleft : s.received + left.toNat = size.toNat) (horder : s.inOrder = true)
  | returned (hs : s.result ≠ none) (hreceived : s.received = size.toNat) (htaken : s.taken = size.toNat)
      (horder : s.inOrder = true)

/-- Where it can no longer do what it should. -/
inductive Doomed (s : Reception w) : Prop
  | order (horder : s.inOrder = false)
  | reading {left : SizeT w} {t : Transfer w} {p : Nat} (hs : AtRead s left t p) (hlost : s.taken + p < s.received)
  | writing {left received written : SizeT w} (hs : s.handler.pc = .write left received written)
      (hlost : ¬s.PassesNext written.toNat (received.toNat - written.toNat))
  | returned (hs : s.result ≠ none) (hlost : s.taken < s.received)

end

section
variable {w : Word} {o : ByteOrder} {A : Answers} {s s' : Reception w} {left received written size : SizeT w}
  {t t' : Transfer w} {p j : Nat}

theorem result_read (h : s.handler.pc = .receive left t) : s.result = none := by rw [result, h]

theorem result_write (h : s.handler.pc = .write left received written) : s.result = none := by rw [result, h]

theorem Looped.intact (h : Looped s left) (htaken : s.taken = s.received) (hleft : s.taken + left.toNat = size.toNat)
    (horder : s.inOrder = true) : Intact s size := by
  rcases h with ⟨t, hat⟩ | ⟨hzero, hresult⟩
  · exact .reading hat htaken hleft horder
  · exact .returned (by rw [hresult]; exact Option.some_ne_none _) (by omega) (by omega) horder

theorem Looped.doomed (h : Looped s left) (hlost : s.taken < s.received) : Doomed s := by
  rcases h with ⟨t, hat⟩ | ⟨-, hresult⟩
  · exact .reading hat hlost
  · exact .returned (by rw [hresult]; exact Option.some_ne_none _) hlost

theorem doomed_of_write (hpc : s.handler.pc = .write left received written) (hlt : written.toNat < received.toNat)
    (horigin : s.origin written.toNat ≠ some s.taken) : Doomed s := by
  refine .writing hpc fun hall => horigin ?_
  have hfirst := hall 0 (by omega)
  rwa [Nat.add_zero, Nat.add_zero] at hfirst

theorem Intact.at_read (h : Intact s size) (hs : AtRead s left t p) :
    s.taken + p = s.received ∧ s.taken + left.toNat = size.toNat ∧ s.inOrder = true := by
  cases h with
  | reading hat htaken hleft horder =>
    cases hs.pc.symm.trans hat.pc
    cases hs.at_.position.symm.trans hat.at_.position
    exact ⟨htaken, hleft, horder⟩
  | writing hpc => cases hs.pc.symm.trans hpc
  | returned hres => exact absurd (result_read hs.pc) hres

theorem Intact.at_write (h : Intact s size) (hs : s.handler.pc = .write left received written) :
    (∀ i < received.toNat, s.origin i = some (s.received - received.toNat + i)) ∧ received.toNat ≤ s.received ∧
      s.taken + received.toNat = s.received + written.toNat ∧ s.received + left.toNat = size.toNat ∧
      s.inOrder = true := by
  cases h with
  | reading hat => cases hs.symm.trans hat.pc
  | writing hpc _ hstored hle htaken hleft horder =>
    cases hs.symm.trans hpc
    exact ⟨hstored, hle, htaken, hleft, horder⟩
  | returned hres => exact absurd (result_write hs) hres

/-- A call that is answered well loses nothing. -/
theorem Intact.step (h : Intact s size) (hbase : Base s) (hgood : Good A s) : Intact (s.step o A) size := by
  cases hbase.next (o := o) (A := A) with
  | done _ heq => rwa [heq]
  | more hs _ _ hs' hreceived htaken horder' =>
    obtain ⟨ht, hl, horder⟩ := h.at_read hs
    exact .reading hs' (by omega) (by omega) (horder'.trans horder)
  | @whole left t p j hs _ hj hp hs' hstored hreceived htaken horder' =>
    obtain ⟨ht, hl, horder⟩ := h.at_read hs
    have hsize := hs.size
    have hle := hs.le
    have hlt := hs.at_.lt
    have hleft : (left - t.size).toNat = left.toNat - t.size.toNat :=
      BitVec.toNat_sub_of_le (by rw [BitVec.le_def]; omega)
    have hzero : (0 : SizeT w).toNat = 0 := by simp
    exact .writing hs' (by omega) hstored (by omega) (by omega) (by omega) (horder'.trans horder)
  | @again left t t' p e hs hread _ hs' hreceived htaken horder' =>
    obtain ⟨ht, hl, horder⟩ := h.at_read hs
    simp only [Good, hs.pc] at hgood
    -- The chunk begins again, and nothing of it had come.
    have hp : 0 = p := by
      rw [← hs.at_.position, (hgood e hread).2]
      simp
    exact .reading hs' (by omega) (by omega) (horder'.trans horder)
  | wild hs hread he =>
    simp only [Good, hs.pc] at hgood
    exact absurd (hgood _ hread).1 he
  | @wrote left received written j k hs _ hj hs' horigin hreceived htaken horder' =>
    obtain ⟨hstored, hle, ht, hl, horder⟩ := h.at_write hs
    -- What is written comes next in the order, as it is stored where the count says.
    have hpasses : s.PassesNext written.toNat (received.toNat - written.toNat) := fun i hi => by
      rw [hstored _ (by omega)]
      congr 1
      omega
    have hall : (s.step o A).inOrder = true := by rw [horder', horder, decide_eq_true hpasses]; rfl
    rcases hs' with ⟨written', hpc', heq, hlt'⟩ | ⟨heq, hloop⟩
    · exact .writing hpc' hlt' (by rwa [horigin, hreceived]) (by omega) (by omega) (by omega) hall
    · exact hloop.intact (by omega) (by omega) hall
  | failed hs hwrite =>
    simp only [Good, hs] at hgood
    exact absurd hwrite hgood

theorem Base.doomed_of_long (h : Base s) (hpc : s.handler.pc = .write left received 0)
    (hlong : maxRwBufferSize < received.toNat) : Doomed s := by
  refine .writing hpc fun hall => ?_
  have hlast := hall maxRwBufferSize (by simpa using hlong)
  rw [h.inside _ (by omega)] at hlast
  cases hlast

/-- A call that is not answered well loses something. -/
theorem Intact.doomed (h : Intact s size) (hbase : Base s) (hbad : ¬Good A s) : Doomed (s.step o A) := by
  have hbase' : Base (s.step o A) := hbase.step
  cases hbase.next (o := o) (A := A) with
  | done hres =>
    refine absurd ?_ hbad
    unfold Good
    split
    · next hpc => exact absurd (result_read hpc) hres
    · next hpc => exact absurd (result_write hpc) hres
    · trivial
  | more hs hread =>
    obtain ⟨k, hread⟩ := hread
    exact absurd (by simp [Good, hs.pc, hread]) hbad
  | whole hs hread =>
    obtain ⟨k, hread⟩ := hread
    exact absurd (by simp [Good, hs.pc, hread]) hbad
  | @again left t t' p e hs hread he hs' hreceived htaken =>
    obtain ⟨ht, hl, horder⟩ := h.at_read hs
    -- The chunk begins again, and the bytes of it that had come are lost.
    have hp : p ≠ 0 := fun hzero => hbad <| by
      simp only [Good, hs.pc]
      intro e' he'
      cases hread.symm.trans he'
      exact ⟨he, BitVec.eq_of_toNat_eq (by simpa [hzero] using hs.at_.position)⟩
    exact .reading hs' (by omega)
  | wild hs _ _ hs' hlong => exact hbase'.doomed_of_long hs' hlong
  | wrote hs hwrite => exact absurd (by simp [Good, hs, hwrite]) hbad
  | @failed left received written hs _ hs' horigin hreceived htaken =>
    obtain ⟨hstored, hle, ht, hl, horder⟩ := h.at_write hs
    have hlt := hbase.writing _ _ _ hs
    rcases hs' with ⟨written', hpc', hsucc⟩ | ⟨hzero, hloop⟩
    · -- The last byte that was written comes once more.
      refine doomed_of_write hpc' (by omega) ?_
      rw [horigin, hstored _ (by omega), htaken]
      intro heq
      have hsome := Option.some.inj heq
      omega
    · exact hloop.doomed (by omega)

theorem Doomed.at_read (h : Doomed s) (hs : AtRead s left t p) : s.inOrder = false ∨ s.taken + p < s.received := by
  cases h with
  | order horder => exact Or.inl horder
  | reading hat hlost =>
    cases hs.pc.symm.trans hat.pc
    cases hs.at_.position.symm.trans hat.at_.position
    exact Or.inr hlost
  | writing hpc => cases hs.pc.symm.trans hpc
  | returned hres => exact absurd (result_read hs.pc) hres

theorem Doomed.at_write (h : Doomed s) (hs : s.handler.pc = .write left received written) :
    (s.inOrder && decide (s.PassesNext written.toNat (received.toNat - written.toNat))) = false := by
  cases h with
  | order horder => rw [horder, Bool.false_and]
  | reading hat => cases hs.symm.trans hat.pc
  | writing hpc hlost =>
    cases hs.symm.trans hpc
    rw [decide_eq_false hlost, Bool.and_false]
  | returned hres => exact absurd (result_write hs) hres

/-- Something that was lost stays lost. -/
theorem Doomed.step (h : Doomed s) (hbase : Base s) : Doomed (s.step o A) := by
  cases hbase.next (o := o) (A := A) with
  | done _ heq => rwa [heq]
  | more hs _ _ hs' hreceived htaken horder' =>
    rcases h.at_read hs with horder | hlost
    · exact .order (horder'.trans horder)
    · exact .reading hs' (by omega)
  | @whole left t p j hs _ hj hp hs' hstored hreceived htaken horder' =>
    rcases h.at_read hs with horder | hlost
    · exact .order (horder'.trans horder)
    · have hlt := hs.at_.lt
      have hzero : (0 : SizeT w).toNat = 0 := by simp
      refine doomed_of_write hs' (by omega) ?_
      rw [hstored _ (by omega), htaken]
      intro heq
      have hsome := Option.some.inj heq
      omega
  | again hs _ _ hs' hreceived htaken horder' =>
    rcases h.at_read hs with horder | hlost
    · exact .order (horder'.trans horder)
    · exact .reading hs' (by omega)
  | wild _ _ _ hs' hlong => exact (hbase.step (o := o) (A := A)).doomed_of_long hs' hlong
  | wrote hs _ _ _ _ _ _ horder' => exact .order (horder'.trans (h.at_write hs))
  | failed hs _ _ _ _ _ horder' => exact .order (horder'.trans (h.at_write hs))

/-! ## The whole call -/

theorem step_of_result (h : s.result ≠ none) : s.step o A = s := by
  cases hpc : s.handler.pc with
  | receive => exact absurd (result_read hpc) h
  | write => exact absurd (result_write hpc) h
  | nameSize | name | «open» | size | go | malloc | faulted | close | returned => simp only [step, hpc]

theorem run_of_result {n m : Nat} (h : (run o A s n).result ≠ none) (hle : n ≤ m) : run o A s m = run o A s n := by
  induction m, hle using Nat.le_induction with
  | base => rfl
  | succ m hle ih => rw [run, ih, step_of_result h]

theorem Doomed.run {n m : Nat} (h : Doomed (run o A s n)) (hbase : Base s) (hle : n ≤ m) : Doomed (run o A s m) := by
  induction m, hle using Nat.le_induction with
  | base => exact h
  | succ m hle ih => exact ih.step (hbase.run m)

theorem size_loop (h : BinaryHandler w) : (h.loop left).size = h.size := by
  unfold BinaryHandler.loop
  split <;> rfl

theorem size_step : (s.step o A).handler.size = s.handler.size := by
  cases hpc : s.handler.pc with
  | receive left t =>
    have hread (res : Except NetErrno (List UInt8)) : (s.handler.onRead o res).size = s.handler.size := by
      simp only [BinaryHandler.onRead, hpc]
      split
      · rfl
      · split
        · rfl
        · exact size_loop _
    simp only [step, hpc]
    split <;> exact hread _
  | write left received written =>
    have hwrite (a : Int) : (s.handler.onOp a).size = s.handler.size := by
      simp only [BinaryHandler.onOp, hpc]
      split
      · rfl
      · exact size_loop _
    simp only [step, hpc]
    split <;> exact hwrite _
  | nameSize | name | «open» | size | go | malloc | faulted | close | returned => simp only [step, hpc]

theorem size_run (h : BinaryHandler w) (n : Nat) : (run o A (start h size) n).handler.size = size := by
  induction n with
  | zero => exact size_loop _
  | succ n ih => rw [run, size_step, ih]

theorem result_eq (h : s.result = some size) : size = s.handler.size := by
  unfold result at h
  split at h
  · cases h
  · cases h
  · exact (Option.some.inj h).symm

theorem Intact.start (h : BinaryHandler w) : Intact (start h size) size :=
  (looped (s := Reception.start h size) rfl).intact rfl (Nat.zero_add _) rfl

theorem Intact.run (h : Intact s size) (hbase : Base s) (hgood : ∀ n, Good A (run o A s n)) (n : Nat) :
    Intact (run o A s n) size := by
  induction n with
  | zero => exact h
  | succ n ih => exact ih.step (hbase.run n) (hgood n)

/-- What moved so far. -/
def moved (s : Reception w) : Nat := s.received + s.taken

theorem Base.moved_le (h : Base s) : s.moved ≤ (s.step o A).moved := by
  unfold moved
  cases h.next (o := o) (A := A) with
  | done _ heq => rw [heq]
  | more _ _ _ _ hreceived htaken => omega
  | whole _ _ _ _ _ _ hreceived htaken => omega
  | again _ _ _ _ hreceived htaken => omega
  | wild _ _ _ _ _ hreceived htaken => omega
  | wrote _ _ _ _ _ hreceived htaken => omega
  | failed _ _ _ _ hreceived htaken => omega

/-- A call that is answered with bytes moves some. -/
theorem Base.moved_lt (h : Base s) (hmoves : Advances A s) (hres : s.result = none) : s.moved < (s.step o A).moved := by
  unfold moved
  cases h.next (o := o) (A := A) with
  | done hres' => exact absurd hres hres'
  | more _ _ hj _ hreceived htaken => omega
  | whole _ _ hj _ _ _ hreceived htaken => omega
  | again hs hread =>
    simp only [Advances, hs.pc] at hmoves
    obtain ⟨k, hk⟩ := hmoves
    cases hread.symm.trans hk
  | wild hs hread =>
    simp only [Advances, hs.pc] at hmoves
    obtain ⟨k, hk⟩ := hmoves
    cases hread.symm.trans hk
  | wrote hs hwrite hj _ _ hreceived htaken =>
    simp only [Advances, hs] at hmoves
    obtain ⟨k, hk⟩ := hmoves
    cases hwrite.symm.trans hk
    have hlt := h.writing _ _ _ hs
    omega
  | failed hs hwrite =>
    simp only [Advances, hs] at hmoves
    obtain ⟨k, hk⟩ := hmoves
    cases hwrite.symm.trans hk

theorem Intact.moved_le (h : Intact s size) : s.moved ≤ 2 * size.toNat := by
  unfold moved
  cases h with
  | @reading left t p hs htaken hleft horder =>
    have hlt := hs.at_.lt
    have hsize := hs.size
    omega
  | writing hs hlt hstored hle htaken hleft horder => omega
  | returned hs hreceived htaken horder => omega

theorem moved_run (hbase : Base s) : Monotone fun n => (run o A s n).moved :=
  monotone_nat_of_le_succ fun n => (hbase.run n).moved_le

/-- What is answered with bytes again and again comes to its end. -/
theorem returns (hbase : Base s) (hintact : ∀ n, Intact (run o A s n) size)
    (hmoves : ∀ n, ∃ m ≥ n, Advances A (run o A s m)) : ∃ n, (run o A s n).result ≠ none := by
  -- By induction on what is left to move.
  suffices h : ∀ left n, 2 * size.toNat - (run o A s n).moved = left → ∃ n, (run o A s n).result ≠ none from h _ 0 rfl
  intro left
  induction left using Nat.strong_induction_on with
  | _ left ih =>
    intro n hleft
    obtain ⟨m, hle, hadvances⟩ := hmoves n
    by_cases hres : (run o A s m).result = none
    · have hlt : (run o A s m).moved < (run o A s (m + 1)).moved := (hbase.run m).moved_lt hadvances hres
      have hmono : (run o A s n).moved ≤ (run o A s m).moved := moved_run hbase hle
      have hmax := (hintact (m + 1)).moved_le
      exact ih _ (by omega) (m + 1) rfl
    · exact ⟨m, hres⟩

/-- A call that does what it should is answered well from its start to its end. -/
theorem answeredWell_of_right {h : BinaryHandler w} (hright : Right o A h size) : AnsweredWell o A h size := by
  obtain ⟨n, result, hresult, horder, hwhole, -⟩ := hright
  have hbase := Base.start h size
  have hreturned : (run o A (start h size) n).result ≠ none := by rw [hresult]; exact Option.some_ne_none _
  obtain ⟨hreceived, htaken⟩ := hwhole.mp ((result_eq hresult).trans (size_run h n))
  -- Nothing can have been lost before, or it would be lost now.
  have hnever (m : Nat) : ¬Doomed (run o A (start h size) m) := by
    intro hdoomed
    have hlater := hdoomed.run hbase (Nat.le_max_right n m)
    rw [run_of_result hreturned (Nat.le_max_left n m)] at hlater
    cases hlater with
    | order hfalse => rw [horder] at hfalse; cases hfalse
    | reading hs => exact hreturned (result_read hs.pc)
    | writing hs => exact hreturned (result_write hs)
    | returned hs hlost => omega
  have hgood (m : Nat) (hm : Intact (run o A (start h size) m) size) : Good A (run o A (start h size) m) := by
    by_contra hbad
    exact hnever (m + 1) (hm.doomed (hbase.run m) hbad)
  have hall (m : Nat) : Intact (run o A (start h size) m) size := by
    induction m with
    | zero => exact Intact.start h
    | succ m ih => exact ih.step (hbase.run m) (hgood m ih)
  refine ⟨fun m => hgood m (hall m), fun m => ⟨max n m, Nat.le_max_right n m, ?_⟩⟩
  rw [run_of_result hreturned (Nat.le_max_left n m)]
  unfold Advances
  split
  · next hpc => exact absurd (result_read hpc) hreturned
  · next hpc => exact absurd (result_write hpc) hreturned
  · trivial

/-- Where it is answered well, it comes to its end with everything received and written. -/
theorem AnsweredWell.right {h : BinaryHandler w} (hwell : AnsweredWell o A h size) : Right o A h size := by
  obtain ⟨hgood, hmoves⟩ := hwell
  have hbase := Base.start h size
  have hall := (Intact.start h).run hbase hgood
  obtain ⟨n, hreturned⟩ := returns hbase hall hmoves
  obtain ⟨result, hresult⟩ := Option.ne_none_iff_exists'.mp hreturned
  have hsize : result = size := (result_eq hresult).trans (size_run h n)
  cases hall n with
  | reading hs => exact absurd (result_read hs.pc) hreturned
  | writing hs => exact absurd (result_write hs) hreturned
  | returned hs hreceived htaken horder =>
    exact ⟨n, result, hresult, horder, ⟨fun _ => ⟨hreceived, htaken⟩, fun _ => hsize⟩,
      fun hnot => absurd ⟨hreceived, htaken⟩ hnot⟩

/-- What lies in `rwBuffer` is what the stream has at its origin. -/
def Stored (A : Answers) (s : Reception w) : Prop := ∀ i k, s.origin i = some k → s.handler.rwBuffer i = A.stream k

theorem rwBuffer_loop (h : BinaryHandler w) : (h.loop left).rwBuffer = h.rwBuffer := by
  unfold BinaryHandler.loop
  split <;> rfl

theorem rwBuffer_onRead {h : BinaryHandler w} (hpc : h.pc = .receive left t) (res : Except NetErrno (List UInt8)) :
    (h.onRead o res).rwBuffer = t.store h.rwBuffer res := by
  simp only [BinaryHandler.onRead, hpc]
  split
  · rfl
  · split
    · rfl
    · exact rwBuffer_loop _

theorem rwBuffer_onOp {h : BinaryHandler w} (hpc : h.pc = .write left received written) (a : Int) :
    (h.onOp a).rwBuffer = h.rwBuffer := by
  simp only [BinaryHandler.onOp, hpc]
  split
  · rfl
  · exact rwBuffer_loop _

theorem Stored.step (h : Stored A s) : Stored A (s.step o A) := by
  intro i k hsome
  cases hpc : s.handler.pc with
  | receive left t =>
    cases hread : A.read s.calls with
    | error e =>
      simp only [Reception.step, hpc, hread] at hsome ⊢
      rw [rwBuffer_onRead hpc]
      exact h i k hsome
    | ok n =>
      simp only [Reception.step, hpc, hread] at hsome ⊢
      rw [rwBuffer_onRead hpc]
      obtain ⟨j, hj⟩ : ∃ j, max 1 (min n t.left) = j := ⟨_, rfl⟩
      rw [hj] at hsome ⊢
      simp only [Transfer.store, Mem.write, List.length_map, List.length_range]
      -- A byte is one of the piece that has just arrived, or was there before.
      split at hsome
      · next hin =>
        obtain rfl := Option.some.inj hsome
        rw [if_pos hin, List.getD_eq_getElem _ _ (by simp; omega), List.getElem_map, List.getElem_range]
      · next hout =>
        rw [if_neg hout]
        exact h i k hsome
  | write left received written =>
    simp only [Reception.step, hpc] at hsome ⊢
    split at hsome
    · rw [rwBuffer_onOp hpc]
      exact h i k hsome
    · rw [rwBuffer_onOp hpc]
      exact h i k hsome
  | nameSize | name | «open» | size | go | malloc | faulted | close | returned =>
    simp only [Reception.step, hpc] at hsome ⊢
    exact h i k hsome

theorem Stored.run (h : BinaryHandler w) (n : Nat) : Stored A (run o A (start h size) n) := by
  induction n with
  | zero => exact fun i k hsome => by cases hsome
  | succ n ih => exact ih.step

theorem PassesNext.bytes {n m offset : Nat} {h : BinaryHandler w}
    (hpasses : (Reception.run o A (Reception.start h size) n).PassesNext offset m) :
    (Reception.run o A (Reception.start h size) n).handler.rwBuffer.read offset m =
      (List.range m).map fun i => A.stream ((Reception.run o A (Reception.start h size) n).taken + i) := by
  refine List.map_congr_left fun i hi => ?_
  exact Stored.run h n _ _ (hpasses i (List.mem_range.mp hi))

end

/-! ## The whole function -/

/-- It does what it should if and only if every call that it makes is answered well, and not without bytes for ever. -/
theorem right_iff_answeredWell {w : Word} (o : ByteOrder) (A : Answers) (h : BinaryHandler w) (size : SizeT w) :
    Right o A h size ↔ AnsweredWell o A h size :=
  ⟨answeredWell_of_right, AnsweredWell.right⟩

/-- A byte arrives and its only `write` fails: the size is returned all the same. -/
theorem failed_write_returns_size :
    (run .little ⟨fun _ => 65, fun _ => .ok 1, fun _ => none⟩
        (start (BinaryHandler.start (w := .w32) .little 3 (fun _ => 0) 0 0 (fun _ => 0)) 1) 2).result = some 1 ∧
      (run .little ⟨fun _ => 65, fun _ => .ok 1, fun _ => none⟩
        (start (BinaryHandler.start (w := .w32) .little 3 (fun _ => 0) 0 0 (fun _ => 0)) 1) 2).taken = 0 ∧
      ¬Right .little ⟨fun _ => 65, fun _ => .ok 1, fun _ => none⟩
        (BinaryHandler.start (w := .w32) .little 3 (fun _ => 0) 0 0 (fun _ => 0)) 1 := by
  refine ⟨rfl, rfl, fun hright => ?_⟩
  exact (answeredWell_of_right hright).1 1 rfl

end Reception

end Dom0
