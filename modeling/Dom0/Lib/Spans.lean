import Mathlib.Data.List.Pairwise
import Mathlib.Order.Interval.Finset.Nat

/-! # What lies at an address

Spans of addresses, each of which shows a part of an object from some offset on. Where no two of them overlap, an
address belongs to one span at most, whatever their order. -/

universe u

/-- The addresses from `start` on, at which `object` is seen from `offset` on. -/
structure Span (δ : Type u) where
  start : Nat
  size : Nat
  object : δ
  offset : Nat

namespace Span
variable {δ : Type u}

def Contains (r : Span δ) (a : Nat) : Prop := r.start ≤ a ∧ a < r.start + r.size

instance (r : Span δ) (a : Nat) : Decidable (r.Contains a) := inferInstanceAs (Decidable (_ ∧ _))

/-- Neither of two spans reaches into the other. -/
def Apart (r r' : Span δ) : Prop := r.start + r.size ≤ r'.start ∨ r'.start + r'.size ≤ r.start

instance (r r' : Span δ) : Decidable (r.Apart r') := inferInstanceAs (Decidable (_ ∨ _))

/-- The span of an address. -/
def find (rs : List (Span δ)) (a : Nat) : Option (Span δ) := rs.find? fun r => r.Contains a

/-- What is seen at an address: an object, and where in it. -/
def seen (rs : List (Span δ)) (a : Nat) : Option (δ × Nat) :=
  (find rs a).map fun r => (r.object, r.offset + (a - r.start))

/-- The span of an address is taken away. -/
def remove (rs : List (Span δ)) (a : Nat) : List (Span δ) := rs.eraseP fun r => r.Contains a

variable {r r' : Span δ} {rs before after : List (Span δ)} {a : Nat}

theorem Apart.not_contains (h : r.Apart r') (ha : r.Contains a) : ¬r'.Contains a := by
  rintro ⟨hstart, hend⟩
  rcases h with h | h
  · exact absurd (Nat.lt_of_lt_of_le ha.2 (Nat.le_trans h hstart)) (Nat.lt_irrefl a)
  · exact absurd (Nat.lt_of_lt_of_le hend (Nat.le_trans h ha.1)) (Nat.lt_irrefl a)

theorem Apart.symm (h : r.Apart r') : r'.Apart r := Or.symm h

theorem find_cons_of_contains (ha : r.Contains a) : find (r :: rs) a = some r := by
  rw [find, List.find?_cons_of_pos (by simpa using ha)]

theorem find_cons_of_not (ha : ¬r.Contains a) : find (r :: rs) a = find rs a := by
  rw [find, List.find?_cons_of_neg (by simpa using ha), find]

theorem find_eq_none (h : ∀ r ∈ rs, ¬r.Contains a) : find rs a = none := by
  rw [find, List.find?_eq_none]
  intro r hr
  simpa using h r hr

/-- No span in front of one of its addresses has it as well. -/
theorem not_contains_of_pairwise (h : (before ++ r :: after).Pairwise Apart) (ha : r.Contains a) :
    ∀ r' ∈ before, ¬r'.Contains a := by
  intro r' hr'
  have hapart := (List.pairwise_append.mp h).2.2 r' hr' r List.mem_cons_self
  exact hapart.symm.not_contains ha

theorem find_append (h : ∀ r ∈ before, ¬r.Contains a) : find (before ++ after) a = find after a := by
  rw [find, List.find?_append, ← find, find_eq_none h, Option.none_or, find]

theorem find_of_mem (h : rs.Pairwise Apart) (hr : r ∈ rs) (ha : r.Contains a) : find rs a = some r := by
  obtain ⟨before, after, rfl⟩ := List.append_of_mem hr
  rw [find_append (not_contains_of_pairwise h ha), find_cons_of_contains ha]

theorem remove_append_cons (h : (before ++ r :: after).Pairwise Apart) (ha : r.Contains a) :
    remove (before ++ r :: after) a = before ++ after := by
  have hbefore := not_contains_of_pairwise h ha
  rw [remove, List.eraseP_append_right _ (by simpa using hbefore), List.eraseP_cons_of_pos (by simpa using ha)]

/-- Elsewhere nothing changes when a span is taken away. -/
theorem seen_removed (ha : ¬r.Contains a) : seen (before ++ after) a = seen (before ++ r :: after) a := by
  by_cases hbefore : ∀ r' ∈ before, ¬r'.Contains a
  · rw [seen, seen, find_append hbefore, find_append hbefore, find_cons_of_not ha]
  · rw [seen, seen, find, find, List.find?_append, List.find?_append]
    cases hfind : before.find? fun r => decide (r.Contains a) with
    | none =>
      rw [List.find?_eq_none] at hfind
      exact absurd (fun r' hr' => by simpa using hfind r' hr') hbefore
    | some r' => rfl

/-! ## How many there can be -/

/-- The addresses of some spans. -/
def addresses : List (Span δ) → Finset Nat
  | [] => ∅
  | r :: rs => Finset.Ico r.start (r.start + r.size) ∪ addresses rs

theorem mem_addresses : a ∈ addresses rs ↔ ∃ r ∈ rs, r.Contains a := by
  induction rs with
  | nil => simp [addresses]
  | cons r rs ih =>
    rw [addresses, Finset.mem_union, Finset.mem_Ico, ih]
    simp [Contains]

theorem le_card_addresses {size : Nat} (h : rs.Pairwise Apart) (hsize : ∀ r ∈ rs, size ≤ r.size) :
    rs.length * size ≤ (addresses rs).card := by
  induction rs with
  | nil =>
    rw [List.length_nil, Nat.zero_mul]
    exact Nat.zero_le _
  | cons r rs ih =>
    obtain ⟨hr, hrs⟩ := List.pairwise_cons.mp h
    have hdisjoint : Disjoint (Finset.Ico r.start (r.start + r.size)) (addresses rs) := by
      rw [Finset.disjoint_left]
      intro a ha hmem
      obtain ⟨r', hr', ha'⟩ := mem_addresses.mp hmem
      exact (hr r' hr').not_contains (Finset.mem_Ico.mp ha) ha'
    rw [addresses, Finset.card_union_of_disjoint hdisjoint, Nat.card_Ico, Nat.add_sub_cancel_left, List.length_cons,
      Nat.succ_mul, Nat.add_comm]
    exact Nat.add_le_add (hsize r List.mem_cons_self) (ih hrs fun r' hr' => hsize r' (List.mem_cons_of_mem r hr'))

/-- Spans that are apart take up no more addresses than there are. -/
theorem length_mul_le {lo hi size : Nat} (h : rs.Pairwise Apart) (hsize : ∀ r ∈ rs, size ≤ r.size)
    (hin : ∀ r ∈ rs, lo ≤ r.start ∧ r.start + r.size ≤ hi) : rs.length * size ≤ hi - lo := by
  refine (le_card_addresses h hsize).trans ?_
  rw [← Nat.card_Ico]
  refine Finset.card_le_card fun a ha => ?_
  obtain ⟨r, hr, hstart, hend⟩ := mem_addresses.mp ha
  obtain ⟨hlo, hhi⟩ := hin r hr
  exact Finset.mem_Ico.mpr ⟨hlo.trans hstart, hend.trans_le hhi⟩

end Span
