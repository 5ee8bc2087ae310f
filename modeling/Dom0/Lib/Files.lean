import Dom0.Lib.Contents
import Mathlib.Logic.Function.Basic

/-! # Files and descriptors

Files by name, and descriptors that write to them at an offset which goes on with each write. -/

/-- The content of each file that is there, and for each open descriptor its file and its offset. -/
structure Files (ν δ α : Type) where
  content : ν → Option (List α)
  opened : δ → Option (ν × Nat)

namespace Files
variable {ν δ α : Type} [DecidableEq ν] [DecidableEq δ]

/-- Opens a file as `fd`, and makes it or empties it as asked. -/
def «open» (f : Files ν δ α) (name : ν) (create trunc : Bool) (fd : δ) : Option (Files ν δ α) :=
  match f.content name with
  | none =>
    if create then some ⟨Function.update f.content name (some []), Function.update f.opened fd (some (name, 0))⟩
    else none
  | some old =>
    some ⟨Function.update f.content name (some (if trunc then [] else old)),
      Function.update f.opened fd (some (name, 0))⟩

/-- Writes at the offset. -/
def write [Inhabited α] (f : Files ν δ α) (fd : δ) (bs : List α) : Option (Files ν δ α) :=
  (f.opened fd).map fun r =>
    ⟨Function.update f.content r.1 (some (Contents.overwrite ((f.content r.1).getD []) r.2 bs)),
      Function.update f.opened fd (some (r.1, r.2 + bs.length))⟩

def close (f : Files ν δ α) (fd : δ) : Files ν δ α := { f with opened := Function.update f.opened fd none }

section
variable {f f' opened : Files ν δ α} {name : ν} {fd : δ} {xs ys bs : List α} {create trunc : Bool}

theorem opened_open (h : f.open name create trunc fd = some f') : f'.opened fd = some (name, 0) := by
  unfold Files.open at h
  split at h
  · split at h
    · cases h
      exact Function.update_self ..
    · cases h
  · cases h
    exact Function.update_self ..

theorem content_open (h : f.open name create trunc fd = some f') :
    f'.content = Function.update f.content name (some (if trunc then [] else (f.content name).getD [])) := by
  unfold Files.open at h
  split at h
  · next hnone =>
    split at h
    · cases h
      simp [hnone]
    · cases h
  · next old hsome =>
    cases h
    simp [hsome]

theorem opened_open_of_ne (h : f.open name create trunc fd = some f') {fd' : δ} (hne : fd' ≠ fd) :
    f'.opened fd' = f.opened fd' := by
  unfold Files.open at h
  split at h
  · split at h
    · cases h
      exact Function.update_of_ne hne ..
    · cases h
  · cases h
    exact Function.update_of_ne hne ..

/-- A file that may be made can always be opened. -/
theorem exists_open (f : Files ν δ α) (name : ν) (trunc : Bool) (fd : δ) :
    ∃ f', f.open name true trunc fd = some f' := by
  unfold Files.open
  split
  · exact ⟨_, if_pos rfl⟩
  · exact ⟨_, rfl⟩

variable [Inhabited α]

theorem write_of_opened {off : Nat} (h : f.opened fd = some (name, off)) (bs : List α) :
    f.write fd bs = some ⟨Function.update f.content name (some (Contents.overwrite ((f.content name).getD []) off bs)),
      Function.update f.opened fd (some (name, off + bs.length))⟩ := by
  rw [write, h, Option.map_some]

/-- Two writes, one after the other, are one. -/
theorem write_write (h : f.write fd xs = some f') : f'.write fd ys = f.write fd (xs ++ ys) := by
  obtain ⟨⟨name, off⟩, hopened, rfl⟩ := Option.map_eq_some_iff.mp h
  simp only [write, hopened, Option.map_some, Function.update_self, Option.getD_some, Function.update_idem,
    Contents.overwrite_append, List.length_append, Nat.add_assoc]

/-- An empty write right after the file is opened changes nothing. -/
theorem write_nil_open (h : f.open name create trunc fd = some f') : f'.write fd [] = some f' := by
  have hopened := opened_open h
  obtain ⟨old, hold⟩ : ∃ old, f'.content name = some old := ⟨_, by rw [content_open h, Function.update_self]⟩
  simp only [write, hopened, Option.map_some, hold, Option.getD_some, Contents.overwrite_nil, List.length_nil,
    Nat.add_zero]
  rw [← hold, Function.update_eq_self, ← hopened, Function.update_eq_self]

/-- A file that is opened and written from its start keeps what lies behind the new bytes. -/
theorem content_write_open (h : f.open name create trunc fd = some opened) (hwrite : opened.write fd bs = some f') :
    f'.content = Function.update f.content name
      (some (bs ++ (if trunc then [] else (f.content name).getD []).drop bs.length)) := by
  obtain ⟨⟨name', off⟩, hopened, rfl⟩ := Option.map_eq_some_iff.mp hwrite
  cases (opened_open h).symm.trans hopened
  simp only [content_open h, Function.update_self, Option.getD_some, Function.update_idem, Contents.overwrite_start]

end

end Files
