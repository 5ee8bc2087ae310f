import Mathlib.Data.Finset.Card

/-! # Counted references

An object that counts the references to it: it counts one more with each reference that is taken, and goes with the
last one that is dropped. Its count is a number while it is there, and `none` once it is gone. -/

namespace Refs

/-- One more reference. -/
def take (n : Option Int) : Option Int := n.map (· + 1)

/-- One reference less; at 0 the object goes. -/
def drop (n : Option Int) : Option Int := n.bind fun n => if n - 1 = 0 then none else some (n - 1)

variable {ι : Type} [DecidableEq ι] {holders holders' : Finset ι} {n : Option Int} {i : ι}

/-- The count is the number of those that hold a reference, and the object is gone where nobody does. -/
def Balanced (holders : Finset ι) (n : Option Int) : Prop := n = if holders = ∅ then none else some (holders.card : Int)

namespace Balanced

theorem eq_none_iff (h : Balanced holders n) : n = none ↔ holders = ∅ := by
  rw [h]
  split
  · next hempty => simp [hempty]
  · next hne => simp [hne]

theorem of_mem (h : Balanced holders n) (hi : i ∈ holders) : n = some (holders.card : Int) := by
  rw [h, if_neg (Finset.ne_empty_of_mem hi)]

/-- A new object, once its first reference is taken. -/
theorem new (i : ι) : Balanced {i} (take (some 0)) := by
  rw [Balanced, if_neg (Finset.singleton_ne_empty i)]
  simp [Refs.take]

theorem take (h : Balanced holders n) (hne : holders ≠ ∅) (hi : i ∉ holders) :
    Balanced (insert i holders) (take n) := by
  rw [h, if_neg hne, Balanced, if_neg (Finset.insert_ne_empty i holders), Finset.card_insert_of_notMem hi]
  simp [Refs.take]

theorem drop (h : Balanced holders n) (hi : i ∈ holders) : Balanced (holders.erase i) (drop n) := by
  have hcard := Finset.card_erase_of_mem hi
  have hpos := Finset.card_pos.mpr ⟨i, hi⟩
  rw [h.of_mem hi, Balanced, Refs.drop, Option.bind_some]
  by_cases hlast : holders.erase i = ∅
  · have hzero : (holders.erase i).card = 0 := by rw [hlast, Finset.card_empty]
    rw [if_pos (by omega), if_pos hlast]
  · have hne : (holders.erase i).card ≠ 0 := Finset.card_ne_zero.mpr (Finset.nonempty_iff_ne_empty.mpr hlast)
    rw [if_neg (by omega), if_neg hlast]
    congr 1
    omega

end Balanced

end Refs
