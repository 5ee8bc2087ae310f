import Mathlib.Logic.Function.Basic

/-! # Cells and their owners

Cells of a heap that are owned by one owner at a time. Owners get cells that were free, write to them, hand them on and
give them back. -/

universe u

variable {ω κ ν : Type u}

/-- A cell has at most one owner, and what is owned is there. -/
structure Exclusive (own : ω → Option κ) (heap : κ → Option ν) : Prop where
  one {o o' : ω} {p : κ} : own o = some p → own o' = some p → o = o'
  live {o : ω} {p : κ} : own o = some p → (heap p).isSome

namespace Exclusive
variable {own : ω → Option κ} {heap : κ → Option ν} {o o' : ω} {p q : κ} {v : ν}

theorem ne_of_free (h : Exclusive own heap) (hfree : heap p = none) (ho : own o = some q) : q ≠ p := by
  rintro rfl
  have hlive := h.live ho
  rw [hfree] at hlive
  cases hlive

theorem ne_of_ne (h : Exclusive own heap) (hp : own o = some p) (hq : own o' = some q) (hne : o' ≠ o) : q ≠ p := by
  rintro rfl
  exact hne (h.one hq hp)

theorem acquire [DecidableEq ω] [DecidableEq κ] (h : Exclusive own heap) (hfree : heap p = none) (o : ω) (v : ν) :
    Exclusive (Function.update own o (some p)) (Function.update heap p (some v)) where
  one {o₁ o₂ q} h₁ h₂ := by
    rw [Function.update_apply] at h₁ h₂
    split at h₁ <;> split at h₂
    · next heq₁ heq₂ => exact heq₁.trans heq₂.symm
    · exact absurd (Option.some.inj h₁).symm (h.ne_of_free hfree h₂)
    · exact absurd (Option.some.inj h₂).symm (h.ne_of_free hfree h₁)
    · exact h.one h₁ h₂
  live {o₁ q} h₁ := by
    rw [Function.update_apply] at h₁ ⊢
    split
    · rfl
    · next hne =>
      split at h₁
      · exact absurd (Option.some.inj h₁).symm hne
      · exact h.live h₁

theorem write [DecidableEq κ] (h : Exclusive own heap) (p : κ) (v : ν) :
    Exclusive own (Function.update heap p (some v)) where
  one := h.one
  live {o₁ q} h₁ := by
    rw [Function.update_apply]
    split
    · rfl
    · exact h.live h₁

/-- An owner gives its cell back. -/
theorem release [DecidableEq ω] [DecidableEq κ] (h : Exclusive own heap) (ho : own o = some p) :
    Exclusive (Function.update own o none) (Function.update heap p none) where
  one {o₁ o₂ q} h₁ h₂ := by
    rw [Function.update_apply] at h₁ h₂
    split at h₁
    · cases h₁
    · split at h₂
      · cases h₂
      · exact h.one h₁ h₂
  live {o₁ q} h₁ := by
    rw [Function.update_apply] at h₁
    split at h₁
    · cases h₁
    · next hne =>
      rw [Function.update_of_ne (h.ne_of_ne ho h₁ hne)]
      exact h.live h₁

/-- An owner hands its cell to another one, which had none. -/
theorem hand [DecidableEq ω] (h : Exclusive own heap) (ho : own o = some p) (o' : ω) :
    Exclusive (Function.update (Function.update own o none) o' (some p)) heap where
  one {o₁ o₂ q} h₁ h₂ := by
    simp only [Function.update_apply] at h₁ h₂
    split at h₁ <;> split at h₂
    · next heq₁ heq₂ => exact heq₁.trans heq₂.symm
    · split at h₂
      · cases h₂
      · next hne => exact absurd (Option.some.inj h₁).symm (h.ne_of_ne ho h₂ hne)
    · split at h₁
      · cases h₁
      · next hne => exact absurd (Option.some.inj h₂).symm (h.ne_of_ne ho h₁ hne)
    · split at h₁
      · cases h₁
      · split at h₂
        · cases h₂
        · exact h.one h₁ h₂
  live {o₁ q} h₁ := by
    simp only [Function.update_apply] at h₁
    split at h₁
    · rw [← Option.some.inj h₁]
      exact h.live ho
    · split at h₁
      · cases h₁
      · exact h.live h₁

/-- An owner forgets its cell. -/
theorem forget [DecidableEq ω] (h : Exclusive own heap) (o : ω) : Exclusive (Function.update own o none) heap where
  one {o₁ o₂ q} h₁ h₂ := by
    rw [Function.update_apply] at h₁ h₂
    split at h₁
    · cases h₁
    · split at h₂
      · cases h₂
      · exact h.one h₁ h₂
  live {o₁ q} h₁ := by
    rw [Function.update_apply] at h₁
    split at h₁
    · cases h₁
    · exact h.live h₁

end Exclusive
