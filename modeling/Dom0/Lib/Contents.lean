import Mathlib.Algebra.Ring.Nat
import Mathlib.Data.List.Basic
import Mathlib.Logic.Nontrivial.Basic

/-! # File contents

Reads and writes at an offset of a sequence, and transfers that are split over a list of buffers. A transfer
of several pieces one after the other is one transfer of all of them. -/

namespace Contents
variable {α : Type*}

/-- The sequence after `bs` is written at offset `off`. A gap before the offset is filled; where nothing is
    written nothing changes. -/
def overwrite [Inhabited α] (c : List α) (off : Nat) (bs : List α) : List α :=
  if bs = [] then c else c.take off ++ List.replicate (off - c.length) default ++ bs ++ c.drop (off + bs.length)

/-- The `n` elements at offset `off`, or as many as there are. -/
def readAt (c : List α) (off n : Nat) : List α := (c.drop off).take n

/-- The room in a list of buffers. -/
def room (iov : List (List α)) : Nat := (iov.map List.length).sum

/-- Buffers filled one after the other; what the data does not reach stays as it was. -/
def scatter : List (List α) → List α → List (List α)
  | [], _ => []
  | buf :: rest, bs => (bs.take buf.length ++ buf.drop bs.length) :: scatter rest (bs.drop buf.length)

/-! ## Writes -/

section Writes
variable [Inhabited α] {c xs ys : List α} {off : Nat}

@[simp] theorem overwrite_nil : overwrite c off [] = c := if_pos rfl

theorem overwrite_start : overwrite c 0 xs = xs ++ c.drop xs.length := by
  by_cases h : xs = []
  · simp [h]
  · simp [overwrite, h]

/-- Two writes, the second where the first one ended, are one. -/
theorem overwrite_append : overwrite (overwrite c off xs) (off + xs.length) ys = overwrite c off (xs ++ ys) := by
  by_cases hx : xs = []
  · simp [hx]
  by_cases hy : ys = []
  · simp [hy]
  -- What lies before the data, a gap included, has length `off`.
  obtain ⟨front, hfront, hlen⟩ : ∃ front, c.take off ++ List.replicate (off - c.length) default = front ∧
      front.length = off := ⟨_, rfl, by simp; omega⟩
  have hone : overwrite c off xs = (front ++ xs) ++ c.drop (off + xs.length) := by
    simp [overwrite, hx, ← hfront]
  have hreach : (front ++ xs).length = off + xs.length := by simp [hlen]
  have hpad : off + xs.length - ((front ++ xs) ++ c.drop (off + xs.length)).length = 0 := by
    simp only [List.length_append, hlen]
    omega
  have hdrop : ((front ++ xs) ++ c.drop (off + xs.length)).drop (off + xs.length + ys.length) =
      c.drop (off + (xs ++ ys).length) := by
    rw [← List.drop_drop, List.drop_left' hreach, List.drop_drop, List.length_append, Nat.add_assoc]
  have hboth : overwrite c off (xs ++ ys) = front ++ (xs ++ ys) ++ c.drop (off + (xs ++ ys).length) := by
    simp [overwrite, hx, ← hfront]
  rw [hone, hboth, overwrite, if_neg hy, List.take_left' hreach, hpad, hdrop, List.replicate_zero, List.append_nil,
    List.append_assoc front]

end Writes

/-! ## Reads -/

section Reads
variable {c buf : List α} {rest : List (List α)} {off n m : Nat}

theorem length_readAt_le : (readAt c off n).length ≤ n := by
  simp only [readAt, List.length_take]
  exact Nat.min_le_left _ _

theorem readAt_length : readAt c off (readAt c off n).length = readAt c off n := by
  simp only [readAt, List.length_take]
  rw [← List.take_eq_take_min]

theorem readAt_add : readAt c off (n + m) = readAt c off n ++ readAt c (off + n) m := by
  simp only [readAt, List.take_add, List.drop_drop]

/-- A read that goes on where the last one stopped finds the same as one that goes on where the last one was
    meant to stop: it stopped early at the end only. -/
theorem readAt_after : readAt c (off + (readAt c off n).length) m = readAt c (off + n) m := by
  rcases Nat.lt_or_ge (c.length - off) n with hlt | hge
  · have hlen : (readAt c off n).length = c.length - off := by
      simp only [readAt, List.length_take, List.length_drop]
      omega
    simp only [readAt] at hlen ⊢
    rw [List.drop_eq_nil_of_le (by omega), List.drop_eq_nil_of_le (by omega)]
  · have hlen : (readAt c off n).length = n := by
      simp only [readAt, List.length_take, List.length_drop]
      omega
    rw [hlen]

@[simp] theorem room_nil : room ([] : List (List α)) = 0 := rfl

@[simp] theorem room_cons : room (buf :: rest) = buf.length + room rest := by simp [room]

theorem length_flatten_eq_room (iov : List (List α)) : iov.flatten.length = room iov := List.length_flatten

/-- A read into several buffers fills the first one and goes on with the rest from where it stopped. -/
theorem scatter_readAt :
    scatter (buf :: rest) (readAt c off (room (buf :: rest))) =
      (readAt c off buf.length ++ buf.drop (readAt c off buf.length).length) ::
        scatter rest (readAt c (off + (readAt c off buf.length).length) (room rest)) := by
  rw [room_cons, readAt_after, readAt_add]
  rcases Nat.lt_or_ge (c.length - off) buf.length with hlt | hge
  · -- The end comes before the first buffer is full.
    have hend : readAt c (off + buf.length) (room rest) = [] := by
      simp only [readAt]
      rw [List.drop_eq_nil_of_le (by omega), List.take_nil]
    rw [hend, List.append_nil, scatter, List.take_of_length_le length_readAt_le,
      List.drop_eq_nil_of_le length_readAt_le]
  · have hlen : (readAt c off buf.length).length = buf.length := by
      simp only [readAt, List.length_take, List.length_drop]
      omega
    rw [scatter, List.take_left' hlen, List.drop_left' hlen, List.drop_eq_nil_of_le (by simp [hlen]),
      List.drop_eq_nil_of_le (by simp [hlen])]

/-- Reads of so many elements each, one where the last one stopped. -/
def pieces (c : List α) : Nat → List Nat → List (List α)
  | _, [] => []
  | off, n :: ns => readAt c off n :: pieces c (off + n) ns

theorem flatten_pieces {ns : List Nat} : (pieces c off ns).flatten = readAt c off ns.sum := by
  induction ns generalizing off with
  | nil => simp [pieces, readAt]
  | cons n ns ih => rw [pieces, List.flatten_cons, ih, List.sum_cons, readAt_add]

/-- Where all of them together reach no end, none of them does. -/
theorem map_length_pieces {ns : List Nat} (h : (readAt c off ns.sum).length = ns.sum) :
    (pieces c off ns).map List.length = ns := by
  induction ns generalizing off with
  | nil => rfl
  | cons n ns ih =>
    have hhead : (readAt c off n).length ≤ n := length_readAt_le
    have htail : (readAt c (off + n) ns.sum).length ≤ ns.sum := length_readAt_le
    rw [List.sum_cons, readAt_add, List.length_append] at h
    rw [pieces, List.map_cons, ih (by omega), show (readAt c off n).length = n by omega]

/-- The same buffers, each filled from its start with a piece of its own. -/
def fillEach : List (List α) → List (List α) → List (List α)
  | buf :: rest, piece :: pieces => (piece ++ buf.drop piece.length) :: fillEach rest pieces
  | iov, [] => iov
  | [], _ => []

/-- Lengths of pieces for buffers of these lengths: after one that leaves room in its buffer, all are empty. -/
def Consecutive : List Nat → List Nat → Prop
  | l :: ls, n :: ns => (n < l → ns.sum = 0) ∧ Consecutive ls ns
  | _, _ => True

instance instDecidableConsecutive : ∀ ls ns : List Nat, Decidable (Consecutive ls ns)
  | _ :: ls, _ :: ns => @instDecidableAnd _ _ _ (instDecidableConsecutive ls ns)
  | [], _ | _ :: _, [] => isTrue trivial

theorem scatter_nil : ∀ iov : List (List α), scatter iov [] = iov
  | [] => rfl
  | buf :: rest => by simp [scatter, scatter_nil rest]

theorem fillEach_of_empty : ∀ {iov pieces : List (List α)}, pieces.flatten = [] → fillEach iov pieces = iov
  | iov, [], _ => by cases iov <;> rfl
  | [], _ :: _, _ => rfl
  | buf :: rest, piece :: pieces, h => by
    rw [List.flatten_cons, List.append_eq_nil_iff] at h
    obtain ⟨rfl, htail⟩ := h
    rw [fillEach, List.nil_append, List.length_nil, List.drop_zero, fillEach_of_empty htail]

theorem consecutive_of_sum_eq_zero : ∀ {ls ns : List Nat}, ns.sum = 0 → Consecutive ls ns
  | [], _, _ | _ :: _, [], _ => trivial
  | l :: ls, n :: ns, h => by
    have htail : ns.sum = 0 := by simp only [List.sum_cons] at h; omega
    exact ⟨fun _ => htail, consecutive_of_sum_eq_zero htail⟩

/-- Pieces that leave no gap fill the buffers one after the other. -/
theorem fillEach_eq_scatter : ∀ {iov pieces : List (List α)},
    List.Forall₂ (fun buf piece => piece.length ≤ buf.length) iov pieces →
    Consecutive (iov.map List.length) (pieces.map List.length) → fillEach iov pieces = scatter iov pieces.flatten
  | [], [], _, _ => rfl
  | buf :: rest, piece :: pieces, .cons hle hrest, ⟨hgap, hcons⟩ => by
    rw [fillEach, scatter, List.flatten_cons]
    rcases Nat.lt_or_eq_of_le hle with hlt | heq
    · have hnone : pieces.flatten = [] := by
        rw [← List.length_eq_zero_iff, List.length_flatten]
        exact hgap hlt
      rw [hnone, List.append_nil, List.take_of_length_le hle, List.drop_of_length_le hle, scatter_nil,
        fillEach_of_empty hnone]
    · rw [List.take_left' heq, List.drop_left' heq, fillEach_eq_scatter hrest hcons, List.length_append,
        List.drop_of_length_le (Nat.le_of_eq heq.symm), List.drop_of_length_le (by omega)]

/-- Nothing else does, for whatever the buffers held before. -/
theorem consecutive_of_fillEach [Nontrivial α] : ∀ {ls : List Nat} {pieces : List (List α)} {bs : List α},
    List.Forall₂ (fun l piece => piece.length ≤ l) ls pieces → bs.length ≤ pieces.flatten.length →
    (∀ iov, iov.map List.length = ls → fillEach iov pieces = scatter iov bs) →
    bs.length = pieces.flatten.length ∧ Consecutive ls (pieces.map List.length)
  | [], [], bs, _, hbs, _ => ⟨Nat.le_antisymm hbs (Nat.zero_le _), trivial⟩
  | l :: ls, piece :: pieces, bs, .cons hle hrest, hbs, h => by
    rw [List.flatten_cons, List.length_append] at hbs ⊢
    have hhead : ∀ buf : List α, buf.length = l → piece ++ buf.drop piece.length = bs.take l ++ buf.drop bs.length := by
      intro buf hbuf
      have hall := h (buf :: ls.map fun n => List.replicate n (Classical.arbitrary α))
        (by simp [hbuf, Function.comp_def])
      rw [fillEach, scatter, hbuf] at hall
      exact (List.cons.inj hall).1
    have htail : ∀ iov : List (List α), iov.map List.length = ls → fillEach iov pieces = scatter iov (bs.drop l) := by
      intro iov hiov
      have hall := h (List.replicate l (Classical.arbitrary α) :: iov) (by simp [hiov])
      rw [fillEach, scatter, List.length_replicate] at hall
      exact (List.cons.inj hall).2
    -- The piece is not longer than what is put into its buffer: the byte behind that is still the buffer's own.
    have hreach : piece.length ≤ bs.length := by
      by_contra hshort
      have hlt : bs.length < piece.length := by omega
      obtain ⟨b, hb⟩ := exists_ne piece[bs.length]
      have hat := congrArg (·[bs.length]?) (hhead (List.replicate l b) List.length_replicate)
      simp only [List.take_of_length_le (show bs.length ≤ l by omega)] at hat
      rw [List.getElem?_append_left hlt, List.getElem?_append_right (Nat.le_refl _),
        List.getElem?_eq_getElem hlt] at hat
      simp only [Nat.sub_self, List.drop_replicate, List.getElem?_replicate] at hat
      rw [if_pos (by omega)] at hat
      exact hb (Option.some.inj hat).symm
    obtain ⟨hlen, hcons⟩ := consecutive_of_fillEach hrest (by rw [List.length_drop]; omega) htail
    rw [List.length_drop] at hlen
    refine ⟨by omega, fun hlt => ?_, hcons⟩
    rw [← List.length_flatten]
    omega

end Reads

end Contents
