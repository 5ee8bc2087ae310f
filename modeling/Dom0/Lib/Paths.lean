import Mathlib.Data.List.Basic
import Mathlib.Data.UInt

/-! # Paths

Absolute paths and the objects that they name. An empty component and `.` stay where they are, `..` goes to the
parent, which the root is of itself, and any other component goes down to the entry of that name. -/

namespace Paths

/-- A component between two separators. -/
abbrev Component := List UInt8

def components (path : List UInt8) : List Component := path.splitOn 47

/-- Where a component leads from an object, which is given by the names of the way down to it, the last one first. -/
def go (at_ : List Component) (c : Component) : List Component :=
  if c = [] ∨ c = [46] then at_
  else if c = [46, 46] then at_.tail
  else c :: at_

/-- The names of the way down to the object that an absolute path names. -/
def resolve (path : List UInt8) : List Component := ((components path).foldl go []).reverse

/-- The path names an object at or below the entry `d` of the root. -/
def AtOrBelow (d : Component) (path : List UInt8) : Prop := [d] <+: resolve path

/-! ## One directory of the root -/

/-- Where a walk is, as seen from one directory of the root: so far below it, at the root, or so far below another
    entry of the root. -/
inductive Place
  | below (depth : Nat)
  | root
  | elsewhere (depth : Nat)
deriving DecidableEq, Repr

namespace Place

/-- The place after a component, where the directory is called `d`. -/
def next (d : Component) (p : Place) (c : Component) : Place :=
  if c = [] ∨ c = [46] then p
  else if c = [46, 46] then
    match p with
    | .below (n + 1) => .below n
    | .elsewhere (n + 1) => .elsewhere n
    | .below 0 | .elsewhere 0 | .root => .root
  else
    match p with
    | .below n => .below (n + 1)
    | .elsewhere n => .elsewhere (n + 1)
    | .root => if c = d then .below 0 else .elsewhere 0

end Place

/-- A walk that starts in the directory `d` of the root ends at or below it: it never leaves it, or comes back to it
    after it last was at the root. -/
def Stays (d : Component) (cs : List Component) : Prop := ∃ n, cs.foldl (Place.next d) (.below 0) = .below n

/-- The place of an object. -/
def place (d : Component) : List Component → Place
  | [] => .root
  | c :: cs => if (c :: cs).getLast? = some d then .below cs.length else .elsewhere cs.length

section
variable {d c : Component} {at_ : List Component} {cs : List Component} {path : List UInt8}

theorem place_cons (h : at_ ≠ []) (d c : Component) :
    place d (c :: at_) = if at_.getLast? = some d then .below at_.length else .elsewhere at_.length := by
  rw [place, List.getLast?_cons_of_ne_nil h]

theorem place_go : place d (go at_ c) = (place d at_).next d c := by
  unfold go Place.next
  by_cases hstay : c = [] ∨ c = [46]
  · rw [if_pos hstay, if_pos hstay]
  rw [if_neg hstay, if_neg hstay]
  by_cases hparent : c = [46, 46]
  · rw [if_pos hparent, if_pos hparent]
    cases at_ with
    | nil => rfl
    | cons a rest =>
      cases rest with
      | nil =>
        rw [List.tail_cons, place, place]
        by_cases ha : [a].getLast? = some d
        · rw [if_pos ha]
          rfl
        · rw [if_neg ha]
          rfl
      | cons b rest =>
        rw [List.tail_cons, place_cons (List.cons_ne_nil b rest), place]
        split <;> rfl
  · rw [if_neg hparent, if_neg hparent]
    cases at_ with
    | nil => simp [place]
    | cons a rest =>
      rw [place_cons (List.cons_ne_nil a rest), place]
      split <;> rfl

theorem place_foldl : place d (cs.foldl go at_) = cs.foldl (Place.next d) (place d at_) := by
  induction cs generalizing at_ with
  | nil => rfl
  | cons c cs ih => rw [List.foldl_cons, List.foldl_cons, ih, place_go]

theorem prefix_reverse_iff : [d] <+: at_.reverse ↔ ∃ n, place d at_ = .below n := by
  cases at_ with
  | nil => simp [place]
  | cons a rest =>
    rw [List.singleton_prefix_iff_head?_eq_some, List.head?_reverse, place]
    split
    · next h => exact iff_of_true h ⟨_, rfl⟩
    · next h =>
      refine iff_of_false h ?_
      rintro ⟨n, hn⟩
      cases hn

/-- A path into an ordinary directory of the root names an object at or below it exactly when the rest of the path
    stays. -/
theorem atOrBelow_iff_stays (hd : (47 : UInt8) ∉ d) (hname : d ≠ [] ∧ d ≠ [46] ∧ d ≠ [46, 46]) :
    AtOrBelow d (47 :: d ++ 47 :: path) ↔ Stays d (components path) := by
  have hsplit : components (47 :: d ++ 47 :: path) = [] :: d :: components path := by
    rw [components, List.cons_append, List.splitOn_cons_eq_if_modifyHead, if_pos (by decide),
      List.splitOn_append_cons_self_of_not_mem hd]
    rfl
  have hin : go [] d = [d] := by
    simp [go, hname]
  rw [AtOrBelow, resolve, prefix_reverse_iff, hsplit, List.foldl_cons, List.foldl_cons, show go [] [] = [] from rfl,
    hin, place_foldl]
  simp [place, Stays]

end

end Paths
