import Dom0.Lib.Program
import Mathlib.Algebra.BigOperators.Group.Finset.Piecewise
import Mathlib.Data.Fintype.Basic

/-! # Pairs of programs that share a world

Pairs of programs, each joined by streams of its own; the right programs call one world, which keeps the order of the
calls. Seen from one pair, the others are only the answers that its own calls get, so a run of all is a run of each pair
with the answers settled beforehand. -/

universe u

variable {ι σ τ ρ ρ' β Op Op' ε ε' ω κ : Type u}

/-- The pairs, the world that the right programs call, and the calls so far, each with its pair and its answer. -/
structure Hub (ι σ τ ω κ β Op : Type u) where
  left : ι → σ
  leftWorld : ι → ω
  right : ι → τ
  toLeft : ι → List β
  toRight : ι → List β
  world : κ
  history : List (ι × Op × Int)

/-- A call of pair `i` that the world answers. -/
def Recorded (serve : κ → Op → Int → κ → Prop) (i : ι) (x : κ × List (ι × Op × Int)) (o : Op) (a : Int)
    (x' : κ × List (ι × Op × Int)) : Prop :=
  serve x.1 o a x'.1 ∧ x'.2 = x.2 ++ [(i, o, a)]

/-- The next call of one program, where the answers are settled beforehand. -/
def Settled (outcome : Nat → Int) (log : List (Op × Int)) (o : Op) (a : Int) (log' : List (Op × Int)) : Prop :=
  log' = log ++ [(o, a)] ∧ a = outcome log.length

/-- Every call of a log is answered as `served` says. -/
def Serves (served : List (Op × Int) → Op → Int → List (Op × Int) → Prop) (log : List (Op × Int)) : Prop :=
  ∀ before o a rest, log = before ++ (o, a) :: rest → served before o a (before ++ [(o, a)])

theorem Serves.of_shorter {served : List (Op × Int) → Op → Int → List (Op × Int) → Prop} {log log' : List (Op × Int)}
    (h : Serves served log') (hpre : log <+: log') : Serves served log := by
  obtain ⟨later, rfl⟩ := hpre
  rintro before o a rest rfl
  exact h before o a (rest ++ later) (by rw [List.append_assoc, List.cons_append])

/-- What was settled is what was answered. -/
def Settles (outcome : Nat → Int) (log : List (Op × Int)) : Prop := ∀ j c, log[j]? = some c → outcome j = c.2

theorem settles_getD (log : List (Op × Int)) : Settles (fun j => (log[j]?.map Prod.snd).getD 0) log := by
  intro j c hc
  simp only [hc, Option.map_some, Option.getD_some]

theorem Settles.serves {outcome : Nat → Int} {log : List (Op × Int)} (h : Settles outcome log) :
    Serves (Settled outcome) log := by
  rintro before o a rest rfl
  refine ⟨rfl, (h before.length (o, a) ?_).symm⟩
  rw [List.getElem?_append_right (Nat.le_refl _), Nat.sub_self, List.getElem?_cons_zero]

namespace Hub

section
variable [DecidableEq ι]

/-- The calls of one pair. -/
def callsOf (history : List (ι × Op × Int)) (i : ι) : List (Op × Int) :=
  history.filterMap fun c => if c.1 = i then some c.2 else none

def calls (h : Hub ι σ τ ω κ β Op) (i : ι) : List (Op × Int) := callsOf h.history i

/-- One pair, with its own calls for a world. -/
def pair (h : Hub ι σ τ ω κ β Op) (i : ι) : Duplex σ τ ω (List (Op × Int)) β :=
  ⟨h.left i, h.leftWorld i, h.right i, h.calls i, h.toLeft i, h.toRight i⟩

variable (P : Program σ ρ β Op ε) (serve : ω → Op → Int → ω → Prop) (Q : Program τ ρ' β Op' ε')
  (serve' : κ → Op' → Int → κ → Prop)

/-- One program of one pair moves. -/
inductive Step (h : Hub ι σ τ ω κ β Op') : Hub ι σ τ ω κ β Op' → Prop
  | left (i : ι) {s : σ} {x : ω} {inbox sent : List β}
      (move : P.Moves serve (h.left i) (h.leftWorld i) (h.toLeft i) s x inbox sent) :
      Step h { h with
        left := Function.update h.left i s, leftWorld := Function.update h.leftWorld i x,
        toLeft := Function.update h.toLeft i inbox, toRight := Function.update h.toRight i (h.toRight i ++ sent) }
  | right (i : ι) {s : τ} {x : κ × List (ι × Op' × Int)} {inbox sent : List β}
      (move : Q.Moves (Recorded serve' i) (h.right i) (h.world, h.history) (h.toRight i) s x inbox sent) :
      Step h { h with
        right := Function.update h.right i s, world := x.1, history := x.2,
        toRight := Function.update h.toRight i inbox, toLeft := Function.update h.toLeft i (h.toLeft i ++ sent) }

/-- A run of `n` steps. -/
inductive Run (h : Hub ι σ τ ω κ β Op') : Nat → Hub ι σ τ ω κ β Op' → Prop
  | refl : Run h 0 h
  | step {n : Nat} {middle last : Hub ι σ τ ω κ β Op'} (head : Run h n middle)
      (step : Step P serve Q serve' middle last) :
      Run h (n + 1) last

/-- No program can move. -/
def Stuck (h : Hub ι σ τ ω κ β Op') : Prop := ∀ h', ¬Step P serve Q serve' h h'

end

variable {P : Program σ ρ β Op ε} {serve : ω → Op → Int → ω → Prop} {Q : Program τ ρ' β Op' ε'}
  {serve' : κ → Op' → Int → κ → Prop} {h h' : Hub ι σ τ ω κ β Op'} {i : ι} {n : Nat}

/-- A move of a right program leaves the history, or adds its call. -/
theorem moves_history {s s' : τ} {x x' : κ × List (ι × Op' × Int)} {inbox inbox' sent : List β}
    (move : Q.Moves (Recorded serve' i) s x inbox s' x' inbox' sent) :
    x' = x ∨ ∃ o a, serve' x.1 o a x'.1 ∧ x'.2 = x.2 ++ [(i, o, a)] := by
  cases move with
  | read | write => exact Or.inl rfl
  | op _ served => exact Or.inr ⟨_, _, served⟩

/-- A program that can move in one world can move in another that answers the same call. -/
theorem canMove_of_moves {υ υ' : Type u} {serve₁ : υ → Op' → Int → υ → Prop} {serve₂ : υ' → Op' → Int → υ' → Prop}
    {s s' : τ} {x x' : υ} {y : υ'} {inbox inbox' sent : List β} (move : Q.Moves serve₁ s x inbox s' x' inbox' sent)
    (hserve : ∀ o a x', Q.call s = .op o → serve₁ x o a x' → ∃ a y', serve₂ y o a y') : Q.CanMove serve₂ s y inbox := by
  cases move with
  | read hcall hne hle => exact ⟨_, _, _, _, .read hcall hne hle⟩
  | write hcall hpos hle => exact ⟨_, _, _, _, .write hcall hpos hle⟩
  | op hcall served =>
    obtain ⟨a, y', hserved⟩ := hserve _ _ _ hcall served
    exact Program.canMove_of_op hcall hserved

section
variable [DecidableEq ι]

/-- The world and the calls, over a step. -/
theorem Step.world (hstep : Step P serve Q serve' h h') :
    h'.world = h.world ∧ h'.history = h.history ∨
      ∃ i o a, serve' h.world o a h'.world ∧ h'.history = h.history ++ [(i, o, a)] := by
  cases hstep with
  | left => exact Or.inl ⟨rfl, rfl⟩
  | right i move =>
    rcases moves_history move with rfl | ⟨o, a, hserved, hhistory⟩
    · exact Or.inl ⟨rfl, rfl⟩
    · exact Or.inr ⟨i, o, a, hserved, hhistory⟩

/-- What the world keeps, together with the calls that it answered. -/
theorem Run.keeps {I : κ → List (ι × Op' × Int) → Prop}
    (hserve : ∀ x history i o a x', I x history → serve' x o a x' → I x' (history ++ [(i, o, a)]))
    (hI : I h.world h.history) (hrun : Run P serve Q serve' h n h') : I h'.world h'.history := by
  induction hrun with
  | refl => exact hI
  | step head hstep ih =>
    rcases hstep.world with ⟨hworld, hhistory⟩ | ⟨i, o, a, hserved, hhistory⟩
    · rwa [hworld, hhistory]
    · rw [hhistory]
      exact hserve _ _ i o a _ ih hserved

theorem Step.history_mono (hstep : Step P serve Q serve' h h') : h.history <+: h'.history := by
  rcases hstep.world with ⟨-, hhistory⟩ | ⟨i, o, a, -, hhistory⟩
  · exact hhistory ▸ List.prefix_refl _
  · exact ⟨[(i, o, a)], hhistory.symm⟩

theorem calls_mono (hpre : h.history <+: h'.history) : h.calls i <+: h'.calls i := hpre.filterMap _

/-- The calls of the pair that calls, and of the others. -/
theorem callsOf_concat {history : List (ι × Op' × Int)} {j : ι} {o : Op'} {a : Int} :
    callsOf (history ++ [(j, o, a)]) i = if j = i then callsOf history i ++ [(o, a)] else callsOf history i := by
  rw [callsOf, callsOf, List.filterMap_append]
  by_cases heq : j = i
  · simp only [List.filterMap_cons, List.filterMap_nil, if_pos heq]
  · simp only [List.filterMap_cons, List.filterMap_nil, if_neg heq, List.append_nil]

theorem callsOf_nil : callsOf ([] : List (ι × Op' × Int)) i = [] := rfl

theorem mem_callsOf {history : List (ι × Op' × Int)} {c : Op' × Int} : c ∈ callsOf history i ↔ (i, c) ∈ history := by
  rw [callsOf, List.mem_filterMap]
  constructor
  · rintro ⟨⟨j, c'⟩, hmem, hc⟩
    obtain ⟨rfl, rfl⟩ : j = i ∧ c' = c := by simpa using hc
    exact hmem
  · exact fun hmem => ⟨(i, c), hmem, if_pos rfl⟩

/-- The calls of all pairs are counted pair by pair. -/
theorem countP_eq_sum [Fintype ι] (p : Op' × Int → Bool) (history : List (ι × Op' × Int)) :
    history.countP (fun c => p c.2) = ∑ i, (callsOf history i).countP p := by
  induction history using List.reverseRecOn with
  | nil => simp [callsOf_nil]
  | append_singleton history c ih =>
    obtain ⟨j, o, a⟩ := c
    have hsum : ∀ i, (callsOf (history ++ [(j, o, a)]) i).countP p =
        (callsOf history i).countP p + if j = i then [(o, a)].countP p else 0 := by
      intro i
      rw [callsOf_concat]
      split
      · rw [List.countP_append]
      · rw [Nat.add_zero]
    rw [List.countP_append, ih, Finset.sum_congr rfl fun i _ => hsum i, Finset.sum_add_distrib, Finset.sum_ite_eq,
      if_pos (Finset.mem_univ j)]
    simp only [List.countP_cons, List.countP_nil]

/-- A call that goes through in the shared world goes through for a pair that answers it alike. -/
theorem moves_pair {served : List (Op' × Int) → Op' → Int → List (Op' × Int) → Prop} {s s' : τ}
    {x' : κ × List (ι × Op' × Int)}
    {inbox inbox' sent : List β} (move : Q.Moves (Recorded serve' i) s (h.world, h.history) inbox s' x' inbox' sent)
    (hserved : Serves served (callsOf x'.2 i)) :
    Q.Moves served s (h.calls i) inbox s' (callsOf x'.2 i) inbox' sent := by
  cases move with
  | read hcall hne hle => exact .read hcall hne hle
  | write hcall hpos hle => exact .write hcall hpos hle
  | op hcall recorded =>
    rename_i o a
    rw [recorded.2, callsOf_concat, if_pos rfl] at hserved ⊢
    exact .op hcall (hserved _ o a [] rfl)

/-- A step is a step of one pair, with whatever answers its calls in the same way. -/
theorem Step.pair (hstep : Step P serve Q serve' h h') :
    ∃ i, (∀ j, j ≠ i → h'.pair j = h.pair j) ∧
      ∀ served, Serves served (h'.calls i) → Duplex.Step P serve Q served (h.pair i) (h'.pair i) := by
  cases hstep with
  | left i move =>
    refine ⟨i, fun j hj => ?_, fun served _ => ?_⟩
    · simp only [Hub.pair, calls, Function.update_of_ne hj]
    · have hd : Duplex.Step P serve Q served (h.pair i) _ := .left move
      simpa only [Hub.pair, calls, Function.update_self] using hd
  | @right i s x inbox sent move =>
    refine ⟨i, fun j hj => ?_, fun served hserved => ?_⟩
    · have hcalls : callsOf x.2 j = callsOf h.history j := by
        rcases moves_history move with rfl | ⟨o, a, -, hhistory⟩
        · rfl
        · rw [hhistory, callsOf_concat, if_neg (Ne.symm hj)]
      simp only [Hub.pair, calls, Function.update_of_ne hj, hcalls]
    · have hd : Duplex.Step P serve Q served (h.pair i) _ := .right (moves_pair move hserved)
      simpa only [Hub.pair, calls, Function.update_self] using hd

/-- A run of all the pairs is a run of each of them. -/
theorem Run.pairs [Fintype ι] {served : ι → List (Op' × Int) → Op' → Int → List (Op' × Int) → Prop}
    (hrun : Run P serve Q serve' h n h') (hserved : ∀ i, Serves (served i) (h'.calls i)) :
    ∃ steps : ι → Nat, (∀ i, Duplex.Run P serve Q (served i) (h.pair i) (steps i) (h'.pair i)) ∧ ∑ i, steps i = n := by
  induction hrun with
  | refl => exact ⟨fun _ => 0, fun i => .refl, by simp⟩
  | @step n middle last head hstep ih =>
    obtain ⟨steps, hsteps, rfl⟩ := ih fun i => (hserved i).of_shorter (calls_mono hstep.history_mono)
    obtain ⟨i, hothers, hi⟩ := hstep.pair
    refine ⟨steps + Pi.single i 1, fun j => ?_, ?_⟩
    · by_cases hj : j = i
      · subst hj
        simpa using Duplex.Run.step (hsteps j) (hi _ (hserved j))
      · rw [hothers j hj]
        simpa [Pi.single_eq_of_ne hj] using hsteps j
    · simp only [Pi.add_apply, Finset.sum_add_distrib, Fintype.sum_pi_single']

/-- Once all are stuck so is a pair, if the world answers what is answered for the pair alone. -/
theorem Stuck.pair {served : List (Op' × Int) → Op' → Int → List (Op' × Int) → Prop} (hstuck : h.Stuck P serve Q serve')
    (hserve : ∀ o a log, Q.call (h.right i) = .op o → served (h.calls i) o a log → ∃ a x', serve' h.world o a x') :
    (h.pair i).Stuck P serve Q served := by
  intro d hstep
  cases hstep with
  | left move => exact hstuck _ (.left i move)
  | right move =>
    obtain ⟨_, _, _, _, hmove⟩ : Q.CanMove (Recorded serve' i) (h.right i) (h.world, h.history) (h.toRight i) := by
      refine canMove_of_moves move fun o a log hcall hanswer => ?_
      obtain ⟨a, x, hserved⟩ := hserve o a log hcall hanswer
      exact ⟨a, (x, h.history ++ [(i, o, a)]), hserved, rfl⟩
    exact hstuck _ (.right i hmove)

/-! ## Runs that are computed -/

/-- The world, with a call of pair `i` that it answers. -/
def record (serve' : κ → Op' → Int → Option κ) (i : ι) (x : κ × List (ι × Op' × Int)) (o : Op') (a : Int) :
    Option (κ × List (ι × Op' × Int)) :=
  (serve' x.1 o a).map fun y => (y, x.2 ++ [(i, o, a)])

section
variable (P : Program σ ρ β Op ε) (serve : ω → Op → Int → Option ω) (Q : Program τ ρ' β Op' ε')
    (serve' : κ → Op' → Int → Option κ)

/-- The next call of one program of pair `i`, answered with `a`. -/
def turn (h : Hub ι σ τ ω κ β Op') : ι × (Int ⊕ Int) → Option (Hub ι σ τ ω κ β Op')
  | (i, .inl a) => (P.move serve (h.left i) (h.leftWorld i) (h.toLeft i) a).map fun (s, x, inbox, sent) =>
    { h with
      left := Function.update h.left i s, leftWorld := Function.update h.leftWorld i x,
      toLeft := Function.update h.toLeft i inbox, toRight := Function.update h.toRight i (h.toRight i ++ sent) }
  | (i, .inr a) =>
    (Q.move (record serve' i) (h.right i) (h.world, h.history) (h.toRight i) a).map fun (s, x, inbox, sent) =>
      { h with
        right := Function.update h.right i s, world := x.1, history := x.2,
        toRight := Function.update h.toRight i inbox, toLeft := Function.update h.toLeft i (h.toLeft i ++ sent) }

end

section
variable {f : ω → Op → Int → Option ω} {g : κ → Op' → Int → Option κ} {middle : Hub ι σ τ ω κ β Op'}
    {t : ι × (Int ⊕ Int)}

theorem step_of_turn (hserve : ∀ x o a x', f x o a = some x' → serve x o a x')
    (hserve' : ∀ x o a x', g x o a = some x' → serve' x o a x') (hturn : h.turn P f Q g t = some h') :
    Step P serve Q serve' h h' := by
  obtain ⟨i, a | a⟩ := t
  · obtain ⟨⟨s, x, inbox, sent⟩, hmove, rfl⟩ := Option.map_eq_some_iff.mp hturn
    exact .left i (P.moves_of_move hserve hmove)
  · obtain ⟨⟨s, x, inbox, sent⟩, hmove, rfl⟩ := Option.map_eq_some_iff.mp hturn
    refine .right i (Q.moves_of_move (fun x o a x' hx => ?_) hmove)
    obtain ⟨y, hy, rfl⟩ := Option.map_eq_some_iff.mp hx
    exact ⟨hserve' _ _ _ _ hy, rfl⟩

/-- Turns that are computed one after the other are a run. -/
theorem Run.turns {ts : List (ι × (Int ⊕ Int))} (hserve : ∀ x o a x', f x o a = some x' → serve x o a x')
    (hserve' : ∀ x o a x', g x o a = some x' → serve' x o a x') (head : Run P serve Q serve' h n middle)
    (hturns : ts.foldlM (turn P f Q g) middle = some h') : Run P serve Q serve' h (n + ts.length) h' := by
  induction ts generalizing n middle with
  | nil =>
    cases hturns
    exact head
  | cons t ts ih =>
    rw [List.foldlM_cons, Option.bind_eq_bind, Option.bind_eq_some_iff] at hturns
    obtain ⟨next, hturn, htail⟩ := hturns
    have hrun := ih (.step head (step_of_turn hserve hserve' hturn)) htail
    rwa [Nat.add_assoc, Nat.add_comm 1] at hrun

end

end

end Hub
