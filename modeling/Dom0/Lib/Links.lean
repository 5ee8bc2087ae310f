import Mathlib.Data.List.Nodup

/-! # Doubly linked lists

Nodes with a pointer to the next one and a pointer to the one before. A segment is a part of such a list: between the
node before it and the node behind it. -/

universe u

variable {α : Type u}

/-- The nodes `l` lie in a row from `first` on, behind `before`; `last` is the last of them, or `before` where there are
    none, and `after` is what follows. -/
def Segment (prev next : α → Option α) : Option α → Option α → List α → Option α → Option α → Prop
  | before, first, [], last, after => first = after ∧ last = before
  | before, first, a :: l, last, after => first = some a ∧ prev a = before ∧
      Segment prev next (some a) (next a) l last after

/-- A whole list. -/
def Linked (prev next : α → Option α) (first : Option α) (l : List α) : Prop :=
  ∃ last, Segment prev next none first l last none

section
variable {prev prev' next next' : α → Option α} {before before' first last after after' : Option α} {a : α}
    {l l₁ l₂ : List α}

theorem Segment.append : ∀ {l₁ : List α} {before first : Option α}, Segment prev next before first
    (l₁ ++ l₂) last after ↔
    ∃ m x, Segment prev next before first l₁ m x ∧ Segment prev next m x l₂ last after
  | [], before, first => by
    constructor
    · intro h
      exact ⟨before, first, ⟨rfl, rfl⟩, h⟩
    · rintro ⟨m, x, ⟨rfl, rfl⟩, h⟩
      exact h
  | a :: l₁, before, first => by
    constructor
    · rintro ⟨hfirst, hprev, hrest⟩
      obtain ⟨m, x, hl, hr⟩ := append.mp hrest
      exact ⟨m, x, ⟨hfirst, hprev, hl⟩, hr⟩
    · rintro ⟨m, x, ⟨hfirst, hprev, hl⟩, hr⟩
      exact ⟨hfirst, hprev, append.mpr ⟨m, x, hl, hr⟩⟩

theorem Segment.last_eq : ∀ {l : List α} {before first : Option α}, Segment prev next before first l last after →
    last = l.getLast?.or before
  | [], _, _, h => h.2
  | [a], _, _, h => h.2.2.2
  | a :: b :: l, _, _, h => by
    rw [h.2.2.last_eq, List.getLast?_cons_cons]
    cases hlast : (b :: l).getLast? with
    | none => simp at hlast
    | some c => rfl

theorem Segment.first_eq (h : Segment prev next before first l last after) : first = l.head?.or after := by
  cases l with
  | nil => exact h.1
  | cons a l => exact h.1

/-- A segment depends on its nodes only. -/
theorem Segment.congr : ∀ {l : List α} {before first : Option α}, (∀ a ∈ l, prev' a = prev a) →
    (∀ a ∈ l, next' a = next a) →
    Segment prev next before first l last after → Segment prev' next' before first l last after
  | [], _, _, _, _, h => h
  | a :: l, _, _, hprev, hnext, ⟨hfirst, hbefore, hrest⟩ => by
    refine ⟨hfirst, (hprev a List.mem_cons_self).trans hbefore, ?_⟩
    rw [hnext a List.mem_cons_self]
    exact hrest.congr (fun b hb => hprev b (List.mem_cons_of_mem a hb)) fun b hb => hnext b (List.mem_cons_of_mem a hb)

/-- The pointer that leaves a segment is turned elsewhere: the one of its last node, or the one to the segment if it is
    empty. -/
theorem Segment.turn_next [DecidableEq α] : ∀ {l : List α} {before first : Option α}, l.Nodup →
    (∀ a ∈ l, prev' a = prev a) →
    (∀ a ∈ l, next' a = if some a = last then after' else next a) → Segment prev next before first l last after →
    Segment prev' next' before (if l = [] then after' else first) l last after'
  | [], _, _, _, _, _, ⟨_, hlast⟩ => ⟨if_pos rfl, hlast⟩
  | a :: l, _, _, hnodup, hprev, hnext, ⟨hfirst, hbefore, hrest⟩ => by
    rw [List.nodup_cons] at hnodup
    refine ⟨(if_neg (List.cons_ne_nil a l)).trans hfirst, (hprev a List.mem_cons_self).trans hbefore, ?_⟩
    have hlater := hrest.turn_next hnodup.2 (fun b hb => hprev b (List.mem_cons_of_mem a hb))
      fun b hb => hnext b (List.mem_cons_of_mem a hb)
    have hlast := hrest.last_eq
    rw [hnext a List.mem_cons_self]
    cases l with
    | nil =>
      obtain rfl : last = some a := hlast
      rw [if_pos rfl]
      rwa [if_pos rfl] at hlater
    | cons b l =>
      rw [if_neg (List.cons_ne_nil b l)] at hlater
      have hne : some a ≠ last := by
        intro heq
        rw [← heq] at hlast
        obtain ⟨c, hc⟩ : ∃ c, (b :: l).getLast? = some c := ⟨_, List.getLast?_eq_some_getLast (List.cons_ne_nil b l)⟩
        rw [hc, Option.some_or] at hlast
        exact hnodup.1 (Option.some.inj hlast ▸ List.mem_of_getLast? hc)
      rwa [if_neg hne]

/-- The pointer back out of a segment is turned elsewhere. -/
theorem Segment.turn_prev [DecidableEq α] (hnodup : l.Nodup)
    (hprev : ∀ a ∈ l, prev' a = if some a = first then before' else prev a)
    (hnext : ∀ a ∈ l, next' a = next a) (h : Segment prev next before first l last after) :
    Segment prev' next' before' first l (if l = [] then before' else last) after := by
  cases l with
  | nil => exact ⟨h.1, if_pos rfl⟩
  | cons a l =>
    obtain ⟨rfl, -, hrest⟩ := h
    rw [List.nodup_cons] at hnodup
    refine ⟨rfl, (hprev a List.mem_cons_self).trans (if_pos rfl), ?_⟩
    rw [hnext a List.mem_cons_self, if_neg (List.cons_ne_nil a l)]
    refine hrest.congr (fun b hb => (hprev b (List.mem_cons_of_mem a hb)).trans (if_neg fun heq => ?_))
      fun b hb => hnext b (List.mem_cons_of_mem a hb)
    exact hnodup.1 (Option.some.inj heq ▸ hb)

/-! ## Whole lists -/

theorem Linked.nil : Linked prev next none [] := ⟨none, rfl, rfl⟩

theorem Linked.first_eq (h : Linked prev next first l) : first = l.head? := by
  obtain ⟨last, h⟩ := h
  rw [h.first_eq, Option.or_none]

theorem Linked.congr (h : Linked prev next first l) (hprev : ∀ a ∈ l, prev' a = prev a)
    (hnext : ∀ a ∈ l, next' a = next a) : Linked prev' next' first l := by
  obtain ⟨last, h⟩ := h
  exact ⟨last, h.congr hprev hnext⟩

variable [DecidableEq α] {o : α}

/-- A node is put in front. -/
theorem Linked.push (h : Linked prev next first l) (hnodup : l.Nodup) (hprevo : prev' o = none)
    (hnexto : next' o = first) (hprev : ∀ a ∈ l, prev' a = if some a = first then some o else prev a)
    (hnext : ∀ a ∈ l, next' a = next a) : Linked prev' next' (some o) (o :: l) := by
  obtain ⟨last, h⟩ := h
  have hl := h.turn_prev  hnodup hprev hnext
  rw [← hnexto] at hl
  exact ⟨_, rfl, hprevo, hl⟩

omit [DecidableEq α] in
/-- The neighbours of a node. -/
theorem Linked.around (h : Linked prev next first (l₁ ++ o :: l₂)) : prev o = l₁.getLast? ∧ next o = l₂.head? := by
  obtain ⟨last, h⟩ := h
  obtain ⟨m, x, hleft, rfl, rfl, hright⟩ := Segment.append.mp h
  rw [← Option.or_none (o := l₁.getLast?), ← Option.or_none (o := l₂.head?)]
  exact ⟨hleft.last_eq, hright.first_eq⟩

/-- A node is taken out. -/
theorem Linked.remove (h : Linked prev next first (l₁ ++ o :: l₂)) (hnodup : (l₁ ++ o :: l₂).Nodup)
    (hprev : ∀ a ∈ l₁ ++ l₂, prev' a = if some a = next o then prev o else prev a)
    (hnext : ∀ a ∈ l₁ ++ l₂, next' a = if some a = prev o then next o else next a) :
    Linked prev' next' (if prev o = none then next o else first) (l₁ ++ l₂) := by
  obtain ⟨hprevo, hnexto⟩ := h.around
  obtain ⟨last, h⟩ := h
  obtain ⟨m, x, hleft, rfl, rfl, hright⟩ := Segment.append.mp h
  obtain ⟨hnodup₁, hnodup₂, hdisjoint⟩ := List.nodup_append.mp hnodup
  rw [List.nodup_cons] at hnodup₂
  have hnone : prev o = none ↔ l₁ = [] := by rw [hprevo, List.getLast?_eq_none_iff]
  have hbehind : ∀ a ∈ l₁, some a ≠ next o := by
    intro a ha heq
    rw [hnexto] at heq
    exact hdisjoint a ha a (List.mem_cons_of_mem o (List.mem_of_mem_head? (Option.mem_def.mpr heq.symm))) rfl
  have hbefore : ∀ a ∈ l₂, some a ≠ prev o := by
    intro a ha heq
    rw [hprevo] at heq
    exact hdisjoint a (List.mem_of_getLast? heq.symm) a (List.mem_cons_of_mem o ha) rfl
  have hleft' : Segment prev' next' none (if l₁ = [] then next o else first) l₁ (prev o) (next o) :=
    hleft.turn_next hnodup₁ (fun a ha => (hprev a (List.mem_append_left l₂ ha)).trans (if_neg (hbehind a ha)))
      fun a ha => hnext a (List.mem_append_left l₂ ha)
  have hright' : Segment prev' next' (prev o) (next o) l₂ (if l₂ = [] then prev o else last) none :=
    hright.turn_prev hnodup₂.2 (fun a ha => hprev a (List.mem_append_right l₁ ha))
      fun a ha => (hnext a (List.mem_append_right l₁ ha)).trans (if_neg (hbefore a ha))
  simp only [hnone]
  exact ⟨_, Segment.append.mpr ⟨_, _, hleft', hright'⟩⟩

end
