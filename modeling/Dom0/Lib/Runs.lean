import Mathlib.Logic.Function.Basic

/-! # Runs of a step function

A system is a step function on a state; an action that is not possible has no result. A run lists its actions, and
each of its steps meets a condition on the state before it and the action. -/

universe u v

/-- A run all of whose steps are allowed. -/
inductive Run {σ : Type u} {α : Type v} (step : σ → α → Option σ) (allows : σ → α → Prop) : σ → List α → σ → Prop
  | nil (s : σ) : Run step allows s [] s
  | cons {s middle last : σ} {a : α} {actions : List α} (allowed : allows s a) (accepted : step s a = some middle)
      (tail : Run step allows middle actions last) : Run step allows s (a :: actions) last

namespace Run
variable {σ : Type u} {α : Type v} {step : σ → α → Option σ} {allows : σ → α → Prop} {s last : σ} {actions : List α}

/-- A property that every allowed step keeps holds at the end of a run. -/
theorem keeps {I : σ → Prop} (hstep : ∀ s a s', I s → allows s a → step s a = some s' → I s') (h : I s)
    (hrun : Run step allows s actions last) : I last := by
  induction hrun with
  | nil => exact h
  | cons allowed accepted tail ih => exact ih (hstep _ _ _ h allowed accepted)

theorem append {middle : σ} {after : List α} (hrun : Run step allows s actions middle)
    (hafter : Run step allows middle after last) : Run step allows s (actions ++ after) last := by
  induction hrun with
  | nil => exact hafter
  | cons allowed accepted _ ih => exact .cons allowed accepted (ih hafter)

/-- A run of a system in which everything is allowed, by its actions. -/
theorem of_foldlM (h : actions.foldlM step s = some last) : Run step (fun _ _ => True) s actions last := by
  induction actions generalizing s with
  | nil =>
    obtain rfl : s = last := by simpa using h
    exact .nil s
  | cons a actions ih =>
    rw [List.foldlM_cons, Option.bind_eq_bind, Option.bind_eq_some_iff] at h
    obtain ⟨middle, haccepted, htail⟩ := h
    exact .cons trivial haccepted (ih htail)

/-- What allows all actions of a run allows the run. -/
theorem mono {allows' : σ → α → Prop} (hallows : ∀ s, ∀ a ∈ actions, allows s a → allows' s a)
    (hrun : Run step allows s actions last) : Run step allows' s actions last := by
  induction hrun with
  | nil s => exact .nil s
  | cons allowed accepted _ ih =>
    exact .cons (hallows _ _ List.mem_cons_self allowed) accepted
      (ih fun s a ha => hallows s a (List.mem_cons_of_mem _ ha))

/-- From a state in which nothing is possible there is no run but the empty one. -/
theorem of_stuck (h : ∀ a, step s a = none) (hrun : Run step allows s actions last) : actions = [] ∧ last = s := by
  cases hrun with
  | nil => exact ⟨rfl, rfl⟩
  | cons _ accepted _ =>
    rw [h] at accepted
    cases accepted

/-! ### What a run shows -/

universe x y

theorem isSome_iff_of_rel {τ : Type x} {R : σ → τ → Prop} {o : Option σ} {o' : Option τ} (h : Option.Rel R o o') :
    o.isSome ↔ o'.isSome := by
  cases h with
  | some => simp
  | none => simp

theorem exists_of_rel {τ : Type x} {R : σ → τ → Prop} {o : Option σ} {o' : Option τ} (h : Option.Rel R o o')
    (ho : o = some s) :
    ∃ t, o' = some t ∧ R s t := by
  cases h with
  | some hR =>
    cases ho
    exact ⟨_, rfl, hR⟩
  | none => cases ho

/-- Where two systems do the same actions, each allowed one or neither of them, a run of one is a run of the other. -/
theorem refines {τ : Type x} {step' : τ → α → Option τ} {R : σ → τ → Prop} {t : τ}
    (hstep : ∀ s t a, R s t → allows s a → Option.Rel R (step s a) (step' t a)) (h : R s t)
    (hrun : Run step allows s actions last) :
    ∃ t', Run step' (fun _ _ => True) t actions t' ∧ R last t' ∧
      ∀ a, allows last a → ((step last a).isSome ↔ (step' t' a).isSome) := by
  induction hrun generalizing t with
  | nil s => exact ⟨t, .nil t, h, fun a allowed => isSome_iff_of_rel (hstep s t a h allowed)⟩
  | cons allowed accepted tail ih =>
    obtain ⟨middle, haccepted, hmiddle⟩ := exists_of_rel (hstep _ _ _ h allowed) accepted
    obtain ⟨t', htail, hlast⟩ := ih hmiddle
    exact ⟨t', .cons trivial haccepted htail, hlast⟩

/-! ### What every step of a run does -/

/-- Every step that these actions make from `s` on has the property. -/
def Along (step : σ → α → Option σ) (P : σ → α → σ → Prop) : σ → List α → Prop
  | _, [] => True
  | s, a :: actions => ∀ s', step s a = some s' → P s a s' ∧ Along step P s' actions

theorem along_cons {P : σ → α → σ → Prop} {s' : σ} {a : α} (accepted : step s a = some s') :
    Along step P s (a :: actions) ↔ P s a s' ∧ Along step P s' actions := by
  constructor
  · intro hall
    exact hall s' accepted
  · intro hall s'' hstep
    obtain rfl := Option.some.inj (accepted.symm.trans hstep)
    exact hall

/-- Two properties that agree on every step from a state with the invariant, which such steps keep, hold along the same
    runs. -/
theorem along_congr {P Q : σ → α → σ → Prop} {I : σ → Prop} (hiff : ∀ s a s', I s → step s a = some s' →
    (P s a s' ↔ Q s a s'))
    (hkeep : ∀ s a s', I s → step s a = some s' → Q s a s' → I s') (h : I s) : Along step P s actions ↔
    Along step Q s actions := by
  induction actions generalizing s with
  | nil => exact Iff.rfl
  | cons a actions ih =>
    constructor
    · intro hP s' hstep
      obtain ⟨hp, hrest⟩ := hP s' hstep
      have hq := (hiff s a s' h hstep).mp hp
      exact ⟨hq, (ih (hkeep s a s' h hstep hq)).mp hrest⟩
    · intro hQ s' hstep
      obtain ⟨hq, hrest⟩ := hQ s' hstep
      exact ⟨(hiff s a s' h hstep).mpr hq, (ih (hkeep s a s' h hstep hq)).mpr hrest⟩

end Run
