import Mathlib.Algebra.Ring.Nat
import Mathlib.Data.List.Basic
import Mathlib.Logic.Relation

/-! # Programs on byte streams

A program runs from one system call to the next. `Duplex` joins two of them by a stream in each direction,
`Fed` runs one of them on a stream that is given. Both deliver a stream in pieces of any size. -/

universe u

/-- What a program asks for: to read up to `n` elements to offset `off` of one of its objects, to write, or
    something of the rest of the system. -/
inductive Syscall (ρ β Op : Type u)
  | read (into : ρ) (off n : Nat)
  | write (bs : List β)
  | op (o : Op)
  | exit

/-- A program, and how it goes on after each answer. A `read` or `write` that gives less than one element ends
    in an error of type `ε`. -/
structure Program (σ ρ β Op ε : Type u) where
  call : σ → Syscall ρ β Op
  onRead : σ → Except ε (List β) → σ
  onWrite : σ → Except ε Nat → σ
  onOp : σ → Int → σ

variable {σ τ ρ ρ' β Op Op' ε ε' ω υ : Type u}

/-- A call that goes through: the program, its world and what has arrived for it change, and something may be
    sent. -/
inductive Program.Moves (P : Program σ ρ β Op ε) (serve : ω → Op → Int → ω → Prop) :
    σ → ω → List β → σ → ω → List β → List β → Prop
  | read {s : σ} {x : ω} {into : ρ} {off n : Nat} {bs inbox : List β} (hcall : P.call s = .read into off n)
      (hne : bs ≠ []) (hle : bs.length ≤ n) : Moves P serve s x (bs ++ inbox) (P.onRead s (.ok bs)) x inbox []
  | write {s : σ} {x : ω} {bs inbox : List β} {k : Nat} (hcall : P.call s = .write bs) (hpos : 0 < k)
      (hle : k ≤ bs.length) : Moves P serve s x inbox (P.onWrite s (.ok k)) x inbox (bs.take k)
  | op {s : σ} {x x' : ω} {o : Op} {a : Int} {inbox : List β} (hcall : P.call s = .op o) (served : serve x o a x') :
      Moves P serve s x inbox (P.onOp s a) x' inbox []

/-- The next call of the program can go through. -/
def Program.CanMove (P : Program σ ρ β Op ε) (serve : ω → Op → Int → ω → Prop) (s : σ) (x : ω) (inbox : List β) :
    Prop :=
  ∃ s' x' inbox' sent, P.Moves serve s x inbox s' x' inbox' sent

/-- The program waits in a `read`. -/
def Program.Waits (P : Program σ ρ β Op ε) (s : σ) : Prop := ∃ into off n, P.call s = .read into off n ∧ 0 < n

/-- A script of a program: in state `s`, with world `x`, it is to read `r`, to write `w` and to make at most `m`
    other calls. Whatever pieces the script is played in, the program keeps to it. -/
structure Program.Script (P : Program σ ρ β Op ε) (serve : ω → Op → Int → ω → Prop)
    (R : σ → ω → List β → List β → Nat → Prop) : Prop where
  read {s : σ} {x : ω} {bs r w : List β} {m : Nat} {into : ρ} {off n : Nat} (hR : R s x (bs ++ r) w m)
    (hcall : P.call s = .read into off n) (hne : bs ≠ []) (hle : bs.length ≤ n) : R (P.onRead s (.ok bs)) x r w m
  write {s : σ} {x : ω} {bs r w : List β} {m k : Nat} (hR : R s x r w m) (hcall : P.call s = .write bs) (hpos : 0 < k)
    (hle : k ≤ bs.length) : ∃ w', w = bs.take k ++ w' ∧ R (P.onWrite s (.ok k)) x r w' m
  op {s : σ} {x x' : ω} {r w : List β} {m : Nat} {o : Op} {a : Int} (hR : R s x r w m) (hcall : P.call s = .op o)
    (served : serve x o a x') : ∃ m' < m, R (P.onOp s a) x' r w m'

namespace Program
variable {P : Program σ ρ β Op ε} {serve : ω → Op → Int → ω → Prop} {R : σ → ω → List β → List β → Nat → Prop}
  {s s' : σ} {x x' : ω} {inbox inbox' sent later w : List β} {m : Nat}

/-- Every move uses up some of the script. -/
theorem Script.moves (h : P.Script serve R) (hR : R s x (inbox ++ later) w m)
    (hmove : P.Moves serve s x inbox s' x' inbox' sent) :
    ∃ w' m', w = sent ++ w' ∧ R s' x' (inbox' ++ later) w' m' ∧
      (inbox' ++ later).length + w'.length + m' < (inbox ++ later).length + w.length + m := by
  cases hmove with
  | @read into off n bs inbox hcall hne hle =>
    rw [List.append_assoc] at hR
    have hpos := List.length_pos_iff.mpr hne
    refine ⟨w, m, rfl, h.read hR hcall hne hle, ?_⟩
    simp only [List.length_append]
    omega
  | @write bs inbox k hcall hpos hle =>
    obtain ⟨w', rfl, hR'⟩ := h.write hR hcall hpos hle
    refine ⟨w', m, rfl, hR', ?_⟩
    simp only [List.length_append, List.length_take]
    omega
  | op hcall served =>
    obtain ⟨m', hm', hR'⟩ := h.op hR hcall served
    exact ⟨w, m', rfl, hR', by omega⟩

/-- A script for a world is a script for one that gives fewer answers. -/
theorem Script.mono {serve' : ω → Op → Int → ω → Prop} (h : P.Script serve R)
    (hle : ∀ x o a x', serve' x o a x' → serve x o a x') : P.Script serve' R where
  read hR hcall hne hbs := h.read hR hcall hne hbs
  write hR hcall hpos hk := h.write hR hcall hpos hk
  op hR hcall served := h.op hR hcall (hle _ _ _ _ served)

/-- A fact about the world that its answers keep can be added to a script. -/
theorem Script.and {I : ω → Prop} (h : P.Script serve R) (hI : ∀ x o a x', I x → serve x o a x' → I x') :
    P.Script serve fun s x r w m => R s x r w m ∧ I x where
  read hR hcall hne hbs := ⟨h.read hR.1 hcall hne hbs, hR.2⟩
  write hR hcall hpos hk := by
    obtain ⟨w', hw', hR'⟩ := h.write hR.1 hcall hpos hk
    exact ⟨w', hw', hR', hR.2⟩
  op hR hcall served := by
    obtain ⟨m', hm', hR'⟩ := h.op hR.1 hcall served
    exact ⟨m', hm', hR', hI _ _ _ _ hR.2 served⟩

theorem Waits.canMove (h : P.Waits s) (hne : inbox ≠ []) : P.CanMove serve s x inbox := by
  obtain ⟨into, off, n, hcall, hn⟩ := h
  obtain ⟨b, rest, rfl⟩ := List.exists_cons_of_ne_nil hne
  exact ⟨_, _, _, _, .read hcall (List.cons_ne_nil b []) hn⟩

theorem Waits.not_canMove (h : P.Waits s) : ¬P.CanMove serve s x [] := by
  rintro ⟨s', x', inbox', sent, move⟩
  obtain ⟨into, off, n, hcall, -⟩ := h
  generalize hinbox : ([] : List β) = inbox at move
  cases move with
  | read _ hne _ => exact hne (List.append_eq_nil_iff.mp hinbox.symm).1
  | write hcall' _ _ => cases hcall.symm.trans hcall'
  | op hcall' _ => cases hcall.symm.trans hcall'

theorem canMove_of_write {bs : List β} (hcall : P.call s = .write bs) (hne : bs ≠ []) : P.CanMove serve s x inbox :=
  ⟨_, _, _, _, .write hcall Nat.one_pos (List.length_pos_iff.mpr hne)⟩

theorem canMove_of_op {o : Op} {a : Int} (hcall : P.call s = .op o) (served : serve x o a x') :
    P.CanMove serve s x inbox :=
  ⟨_, _, _, _, .op hcall served⟩

end Program

/-! ## Two programs joined -/

/-- Two programs, each with its world, and what is on its way to each. -/
structure Duplex (σ τ ω υ β : Type u) where
  left : σ
  leftWorld : ω
  right : τ
  rightWorld : υ
  toLeft : List β
  toRight : List β

namespace Duplex

section
variable (P : Program σ ρ β Op ε) (serve : ω → Op → Int → ω → Prop) (Q : Program τ ρ' β Op' ε')
  (serve' : υ → Op' → Int → υ → Prop)

/-- One of the two moves. -/
inductive Step (d : Duplex σ τ ω υ β) : Duplex σ τ ω υ β → Prop
  | left {s : σ} {x : ω} {inbox sent : List β} (move : P.Moves serve d.left d.leftWorld d.toLeft s x inbox sent) :
      Step d { d with left := s, leftWorld := x, toLeft := inbox, toRight := d.toRight ++ sent }
  | right {s : τ} {x : υ} {inbox sent : List β} (move : Q.Moves serve' d.right d.rightWorld d.toRight s x inbox sent) :
      Step d { d with right := s, rightWorld := x, toRight := inbox, toLeft := d.toLeft ++ sent }

/-- A run of `n` steps. -/
inductive Run (d : Duplex σ τ ω υ β) : Nat → Duplex σ τ ω υ β → Prop
  | refl : Run d 0 d
  | step {n : Nat} {middle last : Duplex σ τ ω υ β} (head : Run d n middle) (step : Step P serve Q serve' middle last) :
      Run d (n + 1) last

/-- Both programs wait and nothing is on its way. -/
def Deadlocked (d : Duplex σ τ ω υ β) : Prop := P.Waits d.left ∧ Q.Waits d.right ∧ d.toLeft = [] ∧ d.toRight = []

/-- Neither program can move. -/
def Stuck (d : Duplex σ τ ω υ β) : Prop := ∀ d', ¬Step P serve Q serve' d d'

end

/-- The two scripts fit: each program is to read what is on its way to it and then what the other one is to
    write. At most `n` elements and calls are left. -/
def Meets (R : σ → ω → List β → List β → Nat → Prop) (S : τ → υ → List β → List β → Nat → Prop) (n : Nat)
    (d : Duplex σ τ ω υ β) : Prop :=
  ∃ w m w' m', R d.left d.leftWorld (d.toLeft ++ w') w m ∧ S d.right d.rightWorld (d.toRight ++ w) w' m' ∧
    (d.toLeft ++ w').length + w.length + m + ((d.toRight ++ w).length + w'.length + m') ≤ n

variable {P : Program σ ρ β Op ε} {serve : ω → Op → Int → ω → Prop} {Q : Program τ ρ' β Op' ε'}
  {serve' : υ → Op' → Int → υ → Prop} {R : σ → ω → List β → List β → Nat → Prop}
  {S : τ → υ → List β → List β → Nat → Prop} {d d' : Duplex σ τ ω υ β} {n total : Nat}

theorem Step.meets (hP : P.Script serve R) (hQ : Q.Script serve' S) (h : d.Meets R S n)
    (hstep : Step P serve Q serve' d d') :
    ∃ n' < n, d'.Meets R S n' := by
  obtain ⟨w, m, w', m', hR, hS, hn⟩ := h
  cases hstep with
  | left move =>
    obtain ⟨rest, k, rfl, hR', hlt⟩ := hP.moves hR move
    refine ⟨n - 1, by omega, rest, k, w', m', hR', by rwa [List.append_assoc], ?_⟩
    simp only [List.length_append] at hlt hn ⊢
    omega
  | right move =>
    obtain ⟨rest, k, rfl, hS', hlt⟩ := hQ.moves hS move
    refine ⟨n - 1, by omega, w, m, rest, k, by rwa [List.append_assoc], hS', ?_⟩
    simp only [List.length_append] at hlt hn ⊢
    omega

/-- Scripts that fit go on fitting, and no run is longer than they are. -/
theorem Run.meets (hP : P.Script serve R) (hQ : Q.Script serve' S) (h : d.Meets R S total)
    (hrun : Run P serve Q serve' d n d') : ∃ left, left + n ≤ total ∧ d'.Meets R S left := by
  induction hrun with
  | refl => exact ⟨total, Nat.le_refl _, h⟩
  | step head hstep ih =>
    obtain ⟨left, hle, hmeets⟩ := ih
    obtain ⟨left', hlt, hmeets'⟩ := hstep.meets hP hQ hmeets
    exact ⟨left', by omega, hmeets'⟩

theorem Stuck.left (h : d.Stuck P serve Q serve') : ¬P.CanMove serve d.left d.leftWorld d.toLeft :=
  fun ⟨_, _, _, _, move⟩ => h _ (.left move)

theorem Stuck.right (h : d.Stuck P serve Q serve') : ¬Q.CanMove serve' d.right d.rightWorld d.toRight :=
  fun ⟨_, _, _, _, move⟩ => h _ (.right move)

/-- Where both programs wait, nothing but a deadlock stops them. -/
theorem Stuck.deadlocked (h : d.Stuck P serve Q serve') (hP : P.Waits d.left) (hQ : Q.Waits d.right) :
    d.Deadlocked P Q :=
  ⟨hP, hQ, by_contra fun hne => h.left (hP.canMove hne), by_contra fun hne => h.right (hQ.canMove hne)⟩

/-- Where no run goes on for ever, one comes to its end. -/
theorem exists_stuck (limit : Nat) (hlimit : ∀ n d', Run P serve Q serve' d n d' → n ≤ limit) :
    ∃ n d', Run P serve Q serve' d n d' ∧ d'.Stuck P serve Q serve' := by
  by_contra hnone
  have hlonger : ∀ n, ∃ d', Run P serve Q serve' d n d' := by
    intro n
    induction n with
    | zero => exact ⟨d, .refl⟩
    | succ n ih =>
      obtain ⟨middle, hrun⟩ := ih
      by_contra hend
      exact hnone ⟨n, middle, hrun, fun d' hstep => hend ⟨d', .step hrun hstep⟩⟩
  obtain ⟨d', hrun⟩ := hlonger (limit + 1)
  exact absurd (hlimit _ _ hrun) (Nat.not_succ_le_self limit)

end Duplex

/-! ## One program among others -/

/-- A program and its world, which sees what the program writes and which others change as well. -/
structure Hosted (σ ω : Type u) where
  program : σ
  world : ω

/-- What happens next: a `read` or a `write` of the program gives its result, another call of it is answered, or
    somebody else does something. -/
inductive Hosted.Action (ε β κ : Type u)
  | got (res : Except ε (List β))
  | put (res : Except ε Nat)
  | answered (a : Int)
  | other (e : κ)

namespace Hosted
variable {κ : Type u} {P : Program σ ρ β Op ε} {serve : ω → Op → Int → Option ω} {wrote : ω → List β → ω}
  {change : ω → κ → Option ω} {h h' : Hosted σ ω} {a : Action ε β κ}

/-- One step. A `read` and a `write` fail, or move at least one element and no more than they were asked to. -/
def step (P : Program σ ρ β Op ε) (serve : ω → Op → Int → Option ω) (wrote : ω → List β → ω) (change : ω → κ → Option ω)
    (h : Hosted σ ω) : Action ε β κ → Option (Hosted σ ω)
  | .got res =>
    match P.call h.program with
    | .read _ _ n =>
      match res with
      | .ok bs => if 0 < bs.length ∧ bs.length ≤ n then some { h with program := P.onRead h.program res } else none
      | .error _ => some { h with program := P.onRead h.program res }
    | _ => none
  | .put res =>
    match P.call h.program with
    | .write bs =>
      match res with
      | .ok k => if 0 < k ∧ k ≤ bs.length then some ⟨P.onWrite h.program res, wrote h.world (bs.take k)⟩ else none
      | .error _ => some { h with program := P.onWrite h.program res }
    | _ => none
  | .answered r =>
    match P.call h.program with
    | .op o => (serve h.world o r).map fun x => ⟨P.onOp h.program r, x⟩
    | _ => none
  | .other e => (change h.world e).map fun x => { h with world := x }

/-- Everything that a step can do. -/
theorem step_cases (hstep : h.step P serve wrote change a = some h') :
    (∃ into off n res, P.call h.program = .read into off n ∧ a = .got res ∧
      (∀ bs, res = .ok bs → 0 < bs.length ∧ bs.length ≤ n) ∧ h' = { h with program := P.onRead h.program res }) ∨
    (∃ bs k, P.call h.program = .write bs ∧ a = .put (.ok k) ∧ (0 < k ∧ k ≤ bs.length) ∧
      h' = ⟨P.onWrite h.program (.ok k), wrote h.world (bs.take k)⟩) ∨
    (∃ bs e, P.call h.program = .write bs ∧ a = .put (.error e) ∧
    h' = { h with program := P.onWrite h.program (.error e) }) ∨
    (∃ o r x, P.call h.program = .op o ∧ a = .answered r ∧ serve h.world o r = some x ∧
      h' = ⟨P.onOp h.program r, x⟩) ∨
    (∃ e x, a = .other e ∧ change h.world e = some x ∧ h' = { h with world := x }) := by
  cases a with
  | got res =>
    simp only [step] at hstep
    split at hstep
    · next into off n hcall =>
      refine Or.inl ⟨into, off, n, res, hcall, rfl, ?_⟩
      cases res with
      | ok bs =>
        rw [Option.ite_none_right_eq_some] at hstep
        refine ⟨fun bs' heq => ?_, (Option.some.inj hstep.2).symm⟩
        cases heq
        exact hstep.1
      | error e => exact ⟨fun bs' heq => (by cases heq), (Option.some.inj hstep).symm⟩
    · cases hstep
  | put res =>
    simp only [step] at hstep
    split at hstep
    · next bs hcall =>
      cases res with
      | ok k =>
        rw [Option.ite_none_right_eq_some] at hstep
        exact Or.inr (Or.inl ⟨bs, k, hcall, rfl, hstep.1, (Option.some.inj hstep.2).symm⟩)
      | error e => exact Or.inr (Or.inr (Or.inl ⟨bs, e, hcall, rfl, (Option.some.inj hstep).symm⟩))
    · cases hstep
  | answered r =>
    simp only [step] at hstep
    split at hstep
    · next o hcall =>
      obtain ⟨x, hx, rfl⟩ := Option.map_eq_some_iff.mp hstep
      exact Or.inr (Or.inr (Or.inr (Or.inl ⟨o, r, x, hcall, rfl, hx, rfl⟩)))
    · cases hstep
  | other e =>
    obtain ⟨x, hx, rfl⟩ := Option.map_eq_some_iff.mp hstep
    exact Or.inr (Or.inr (Or.inr (Or.inr ⟨e, x, rfl, hx, rfl⟩)))

theorem step_put {bs : List β} {k : Nat} (hcall : P.call h.program = .write bs) (hk : 0 < k ∧ k ≤ bs.length) :
    h.step P serve wrote change (.put (.ok k)) = some ⟨P.onWrite h.program (.ok k), wrote h.world (bs.take k)⟩ := by
  simp only [step, hcall, if_pos hk]

end Hosted

/-! ## Runs that are computed -/

/-- The next call of the program, answered with `a`: the number of elements, or what another call returns. -/
def Program.move (P : Program σ ρ β Op ε) (serve : ω → Op → Int → Option ω) (s : σ) (x : ω) (inbox : List β) (a : Int) :
    Option (σ × ω × List β × List β) :=
  match P.call s with
  | .read _ _ n =>
    if 0 < a ∧ a ≤ n ∧ a ≤ inbox.length then some (P.onRead s (.ok (inbox.take a.toNat)), x, inbox.drop a.toNat, [])
    else none
  | .write bs => if 0 < a ∧ a ≤ bs.length then some (P.onWrite s (.ok a.toNat), x, inbox, bs.take a.toNat) else none
  | .op o => (serve x o a).map fun x' => (P.onOp s a, x', inbox, [])
  | .exit => none

/-- One step, of the left program or of the right one. -/
def Duplex.turn (P : Program σ ρ β Op ε) (serve : ω → Op → Int → Option ω) (Q : Program τ ρ' β Op' ε')
    (serve' : υ → Op' → Int → Option υ) (d : Duplex σ τ ω υ β) : Int ⊕ Int → Option (Duplex σ τ ω υ β)
  | .inl a => (P.move serve d.left d.leftWorld d.toLeft a).map fun (s, x, inbox, sent) =>
    { d with left := s, leftWorld := x, toLeft := inbox, toRight := d.toRight ++ sent }
  | .inr a => (Q.move serve' d.right d.rightWorld d.toRight a).map fun (s, x, inbox, sent) =>
    { d with right := s, rightWorld := x, toRight := inbox, toLeft := d.toLeft ++ sent }

instance Program.decidableWaits (P : Program σ ρ β Op ε) (s : σ) : Decidable (P.Waits s) :=
  match hcall : P.call s with
  | .read into off n =>
    if hn : 0 < n then isTrue ⟨into, off, n, hcall, hn⟩
    else isFalse fun ⟨_, _, _, hcall', hn'⟩ => by cases hcall.symm.trans hcall'; exact hn hn'
  | .write _ | .op _ | .exit => isFalse fun ⟨_, _, _, hcall', _⟩ => by cases hcall.symm.trans hcall'

section
variable {P : Program σ ρ β Op ε} {f : ω → Op → Int → Option ω} {serve : ω → Op → Int → ω → Prop}
    {Q : Program τ ρ' β Op' ε'}
  {g : υ → Op' → Int → Option υ} {serve' : υ → Op' → Int → υ → Prop} {s s' : σ} {x x' : ω} {inbox inbox' sent : List β}
  {a : Int} {d middle d' : Duplex σ τ ω υ β} {t : Int ⊕ Int} {n : Nat}

theorem Program.moves_of_move (hserve : ∀ x o a x', f x o a = some x' → serve x o a x')
    (h : P.move f s x inbox a = some (s', x', inbox', sent)) : P.Moves serve s x inbox s' x' inbox' sent := by
  unfold Program.move at h
  split at h
  · next into off n hcall =>
    split at h
    · next ha =>
      cases h
      have hlen : (inbox.take a.toNat).length = a.toNat := List.length_take_of_le (by omega)
      have hmove : P.Moves serve s x (inbox.take a.toNat ++ inbox.drop a.toNat) _ x (inbox.drop a.toNat) [] :=
        .read hcall (List.ne_nil_of_length_pos (by omega)) (by omega)
      rwa [List.take_append_drop] at hmove
    · cases h
  · next bs hcall =>
    split at h
    · next ha =>
      cases h
      exact .write hcall (by omega) (by omega)
    · cases h
  · next o hcall =>
    obtain ⟨x'', hx, heq⟩ := Option.map_eq_some_iff.mp h
    cases heq
    exact .op hcall (hserve _ _ _ _ hx)
  · cases h

namespace Duplex

theorem step_of_turn (hserve : ∀ x o a x', f x o a = some x' → serve x o a x')
    (hserve' : ∀ x o a x', g x o a = some x' → serve' x o a x') (h : d.turn P f Q g t = some d') :
    Step P serve Q serve' d d' := by
  cases t with
  | inl a =>
    obtain ⟨⟨s, x, inbox, sent⟩, hmove, rfl⟩ := Option.map_eq_some_iff.mp h
    exact .left (P.moves_of_move hserve hmove)
  | inr a =>
    obtain ⟨⟨s, x, inbox, sent⟩, hmove, rfl⟩ := Option.map_eq_some_iff.mp h
    exact .right (Q.moves_of_move hserve' hmove)

/-- Turns that are computed one after the other are a run. -/
theorem Run.turns {ts : List (Int ⊕ Int)} (hserve : ∀ x o a x', f x o a = some x' → serve x o a x')
    (hserve' : ∀ x o a x', g x o a = some x' → serve' x o a x') (head : Run P serve Q serve' d n middle)
    (h : ts.foldlM (turn P f Q g) middle = some d') : Run P serve Q serve' d (n + ts.length) d' := by
  induction ts generalizing n middle with
  | nil =>
    cases h
    exact head
  | cons t ts ih =>
    rw [List.foldlM_cons, Option.bind_eq_bind, Option.bind_eq_some_iff] at h
    obtain ⟨next, hturn, htail⟩ := h
    have hrun := ih (.step head (step_of_turn hserve hserve' hturn)) htail
    rwa [Nat.add_assoc, Nat.add_comm 1] at hrun

end Duplex

end

/-! ## One program on a given stream -/

/-- What a program is seen to do: to store what it read, or to get an answer. -/
inductive Event (ρ β Op : Type u)
  | stored (into : ρ) (off : Nat) (bs : List β)
  | did (o : Op) (a : Int)

/-- A program, the rest of the stream it reads, and its world. -/
structure Fed (σ ω β : Type u) where
  program : σ
  rest : List β
  world : ω

/-- What the system answers: `k` elements taken from the stream, `k` elements accepted, an error, or the answer to
    another call. -/
inductive Fed.Action (ε : Type u)
  | took (k : Nat)
  | cut (e : ε)
  | accepted (k : Nat)
  | refused (e : ε)
  | answered (a : Int)

namespace Fed

section
variable (P : Program σ ρ β Op ε) (watch : σ → Event ρ β Op → σ → ω → Option ω)

/-- One step. The world is told what the program is seen to do, and may refuse it. A `read` gets at least one
    element, or fails where none is asked for or none is left. -/
def step (f : Fed σ ω β) : Action ε → Option (Fed σ ω β)
  | .took k =>
    match P.call f.program with
    | .read into off n =>
      if 0 < k ∧ k ≤ n ∧ k ≤ f.rest.length then
        let s := P.onRead f.program (.ok (f.rest.take k))
        (watch f.program (.stored into off (f.rest.take k)) s f.world).map fun x => ⟨s, f.rest.drop k, x⟩
      else none
    | _ => none
  | .cut e =>
    match P.call f.program with
    | .read _ _ n => if n = 0 ∨ f.rest = [] then some { f with program := P.onRead f.program (.error e) } else none
    | _ => none
  | .accepted k =>
    match P.call f.program with
    | .write bs => if 0 < k ∧ k ≤ bs.length then some { f with program := P.onWrite f.program (.ok k) } else none
    | _ => none
  | .refused e =>
    match P.call f.program with
    | .write _ => some { f with program := P.onWrite f.program (.error e) }
    | _ => none
  | .answered a =>
    match P.call f.program with
    | .op o =>
      let s := P.onOp f.program a
      (watch f.program (.did o a) s f.world).map fun x => { f with program := s, world := x }
    | _ => none

def Step (f f' : Fed σ ω β) : Prop := ∃ a, f.step P watch a = some f'

/-- What a program comes to, whatever the system answers. -/
abbrev Reaches : Fed σ ω β → Fed σ ω β → Prop := Relation.ReflTransGen (Step P watch)

end

variable {P : Program σ ρ β Op ε} {watch : σ → Event ρ β Op → σ → ω → Option ω} {f f' : Fed σ ω β} {a : Action ε}

/-- Everything that a step can do. -/
theorem step_cases (h : f.step P watch a = some f') :
    (∃ into off n bs rest x, P.call f.program = .read into off n ∧ f.rest = bs ++ rest ∧ bs ≠ [] ∧ bs.length ≤ n ∧
      watch f.program (.stored into off bs) (P.onRead f.program (.ok bs)) f.world = some x ∧ a = .took bs.length ∧
      f' = ⟨P.onRead f.program (.ok bs), rest, x⟩) ∨
    (∃ into off n e, P.call f.program = .read into off n ∧ (n = 0 ∨ f.rest = []) ∧ a = .cut e ∧
      f' = { f with program := P.onRead f.program (.error e) }) ∨
    (∃ bs res, P.call f.program = .write bs ∧ (∀ k, res = .ok k → 0 < k ∧ k ≤ bs.length) ∧
      (∀ e, res = .error e → a = .refused e) ∧ f' = { f with program := P.onWrite f.program res }) ∨
    (∃ o r x, P.call f.program = .op o ∧ watch f.program (.did o r) (P.onOp f.program r) f.world = some x ∧
      a = .answered r ∧ f' = { f with program := P.onOp f.program r, world := x }) := by
  cases a with
  | took k =>
    simp only [step] at h
    split at h
    · next into off n hcall =>
      split at h
      · next hk =>
        obtain ⟨x, hx, rfl⟩ := Option.map_eq_some_iff.mp h
        have hlen : (f.rest.take k).length = k := List.length_take_of_le hk.2.2
        exact Or.inl ⟨into, off, n, f.rest.take k, f.rest.drop k, x, hcall, (List.take_append_drop k _).symm,
          List.ne_nil_of_length_pos (by omega), by omega, hx, by rw [hlen], rfl⟩
      · cases h
    · cases h
  | cut e =>
    simp only [step] at h
    split at h
    · next into off n hcall =>
      split at h
      · next hend =>
        cases h
        exact Or.inr (Or.inl ⟨into, off, n, e, hcall, hend, rfl, rfl⟩)
      · cases h
    · cases h
  | accepted k =>
    simp only [step] at h
    split at h
    · next bs hcall =>
      split at h
      · next hk =>
        cases h
        exact Or.inr (Or.inr (Or.inl ⟨bs, .ok k, hcall, fun _ heq => by cases heq; exact hk,
          fun _ heq => (by cases heq), rfl⟩))
      · cases h
    · cases h
  | refused e =>
    simp only [step] at h
    split at h
    · next bs hcall =>
      cases h
      exact Or.inr (Or.inr (Or.inl ⟨bs, .error e, hcall, fun _ heq => (by cases heq),
        fun _ heq => by cases heq; rfl, rfl⟩))
    · cases h
  | answered r =>
    simp only [step] at h
    split at h
    · next o hcall =>
      obtain ⟨x, hx, rfl⟩ := Option.map_eq_some_iff.mp h
      exact Or.inr (Or.inr (Or.inr ⟨o, r, x, hcall, hx, rfl, rfl⟩))
    · cases h

theorem Step.took {into : ρ} {off n : Nat} {rest : List β} {x : ω} (bs : List β)
    (hcall : P.call f.program = .read into off n)
    (hrest : f.rest = bs ++ rest) (hne : bs ≠ []) (hle : bs.length ≤ n)
    (hx : watch f.program (.stored into off bs) (P.onRead f.program (.ok bs)) f.world = some x) :
    Step P watch f ⟨P.onRead f.program (.ok bs), rest, x⟩ := by
  refine ⟨.took bs.length, ?_⟩
  have hlen := List.length_pos_iff.mpr hne
  have htake : f.rest.take bs.length = bs := by rw [hrest, List.take_left' rfl]
  have hdrop : f.rest.drop bs.length = rest := by rw [hrest, List.drop_left' rfl]
  have hk : 0 < bs.length ∧ bs.length ≤ n ∧ bs.length ≤ f.rest.length :=
    ⟨hlen, hle, by rw [hrest, List.length_append]; omega⟩
  simp only [step, hcall, if_pos hk, htake, hdrop, hx, Option.map_some]

theorem Step.accepted {bs : List β} {k : Nat} (hcall : P.call f.program = .write bs) (hpos : 0 < k)
    (hle : k ≤ bs.length) :
    Step P watch f { f with program := P.onWrite f.program (.ok k) } := by
  refine ⟨.accepted k, ?_⟩
  simp only [step, hcall, if_pos (And.intro hpos hle)]

theorem Step.answered {o : Op} {r : Int} {x : ω} (hcall : P.call f.program = .op o)
    (hx : watch f.program (.did o r) (P.onOp f.program r) f.world = some x) :
    Step P watch f { f with program := P.onOp f.program r, world := x } := by
  refine ⟨.answered r, ?_⟩
  simp only [step, hcall, hx, Option.map_some]

/-- A property that every step keeps holds of all that is reached. -/
theorem Reaches.keeps {I : Fed σ ω β → Prop} (hstep : ∀ f f', I f → Step P watch f f' → I f') (h : I f)
    (hreach : Reaches P watch f f') : I f' := by
  induction hreach with
  | refl => exact h
  | tail _ hs ih => exact hstep _ _ ih hs

end Fed
