import Dom0.Lib.Links
import Dom0.Lib.Runs
import Dom0.Ned.ServerObject

/-! The lists of server objects are lists: what threads do with them, step by step, is what they would do with a list of
objects for every `List`, as long as no thread begins to add an object that another one is adding or letting go of. -/

namespace Dom0

/-! ## Lists of objects -/

namespace ObjectLists
variable {α κ : Type} [DecidableEq α] [DecidableEq κ]

/-- The objects `xs` are linked, from `f` on, or for a destructor that has come to `o` from there on. -/
def Chain (s : ObjectLists α κ) (f : Option α) (xs : List α) : Option (Option α) → Prop
  | none => Linked (fun o => (s.object o).p) (fun o => (s.object o).n) f xs
  | some o => ∃ before last, Segment (fun o => (s.object o).p) (fun o => (s.object o).n) before o xs last none

/-- The pointers hold the lists `m`, and each object of them knows its list. Where `walk` is given a destructor has come
    to that object. -/
structure Holds (s : ObjectLists α κ) (m : κ → Option (List α)) (walk : κ → Option (Option α)) : Prop where
  linked : ∀ l xs, m l = some xs → ∃ f, s.f l = some f ∧ s.Chain f xs (walk l) ∧ xs.Nodup
  gone : ∀ l, m l = none → s.f l = none
  owner : ∀ o l, (s.object o).l = some l ↔ ∃ xs, m l = some xs ∧ o ∈ xs

variable {s s' : ObjectLists α κ} {m : κ → Option (List α)} {walk walk' : κ → Option (Option α)} {l : κ} {o : α}
    {f : Option α} {xs ys : List α} {a : α} {x : Option α}

omit [DecidableEq α] [DecidableEq κ] in
theorem holds_start : (start : ObjectLists α κ).Holds (fun _ => none) walk where
  linked _ _ h := by cases h
  gone _ _ := rfl
  owner _ _ := by simp [start]

section
omit [DecidableEq κ]

theorem setP_object (s : ObjectLists α κ) (b x : Option α) (a : α) :
    (s.setP b x).object a = if some a = b then { s.object a with p := x } else s.object a := by
  cases b with
  | none => rfl
  | some b =>
    by_cases hb : a = b
    · subst hb
      simp [setP]
    · simp [setP, hb]

theorem setN_object (s : ObjectLists α κ) (b x : Option α) (a : α) :
    (s.setN b x).object a = if some a = b then { s.object a with n := x } else s.object a := by
  cases b with
  | none => rfl
  | some b =>
    by_cases hb : a = b
    · subst hb
      simp [setN]
    · simp [setN, hb]

@[simp] theorem setP_f {b : Option α} : (s.setP b x).f = s.f := by cases b <;> rfl

@[simp] theorem setN_f {b : Option α} : (s.setN b x).f = s.f := by cases b <;> rfl

end

theorem add_f : (s.add l f o).f = Function.update s.f l (some (some o)) := by
  simp only [add, setF, setP_f]

theorem add_object (hne : some o ≠ f) (a : α) : (s.add l f o).object a =
    if a = o then ⟨none, f, some l⟩ else if some a = f then { s.object a with p := some o } else s.object a := by
  simp only [add, setF, setP_object]
  by_cases ha : a = o
  · subst ha
    rw [if_neg hne, Function.update_self, if_pos rfl]
  · rw [Function.update_of_ne ha, if_neg ha]

theorem unlink_f : (s.unlink l o).f =
    if (s.object o).p = none then Function.update s.f l (some (s.object o).n) else s.f := by
  simp only [unlink, letGo, setP_f]
  split
  · rfl
  · exact setN_f

theorem unlink_self : ((s.unlink l o).object o).l = none := by simp [unlink, letGo]

/-- The other objects after one is taken out. -/
theorem unlink_object (ha : a ≠ o) : (s.unlink l o).object a =
    ⟨if some a = (s.object o).n then (s.object o).p else (s.object a).p,
      if some a = (s.object o).p then (s.object o).n else (s.object a).n, (s.object a).l⟩ := by
  simp only [unlink, letGo, Function.update_of_ne ha, setP_object]
  cases hp : (s.object o).p with
  | none =>
    simp only [setF, if_pos, hp, reduceCtorEq, if_false]
    split <;> rfl
  | some b =>
    simp only [reduceCtorEq, if_false, setN_object]
    by_cases hb : some a = some b <;> by_cases hob : some o = some b <;> simp only [hb, hob, if_true, if_false, hp] <;>
      split <;> rfl

section
omit [DecidableEq κ]

theorem letGo_self : ((s.letGo o).object o).l = none := by simp [letGo]

theorem letGo_of_ne (ha : a ≠ o) : (s.letGo o).object a = s.object a := Function.update_of_ne ha ..

theorem clear_l : ((s.clear o).object a).l = (s.object a).l := by
  by_cases ha : a = o
  · subst ha
    simp [clear]
  · simp [clear, ha]

theorem clear_self (ho : (s.object o).l = none) : (s.clear o).object o = ⟨none, none, none⟩ := by simp [clear, ho]

theorem clear_of_ne (ha : a ≠ o) : (s.clear o).object a = s.object a := Function.update_of_ne ha ..

end

/-! ### What the operations keep -/

section
omit [DecidableEq α] [DecidableEq κ]

theorem Holds.owner_iff (h : s.Holds m walk) (hxs : m l = some xs) (a : α) : (s.object a).l = some l ↔ a ∈ xs := by
  rw [h.owner, hxs]
  simp

theorem Holds.notMem_of_free (h : s.Holds m walk) (ho : (s.object o).l = none) (hxs : m l = some xs) : o ∉ xs := by
  intro hmem
  cases ho.symm.trans ((h.owner o l).mpr ⟨xs, hxs, hmem⟩)

theorem Holds.head (h : s.Holds m walk) (hf : s.f l = some f) (hxs : m l = some xs) (hwalk : walk l = none) :
    f = xs.head? := by
  obtain ⟨f', hf', hchain, -⟩ := h.linked l xs hxs
  obtain rfl := Option.some.inj (hf'.symm.trans hf)
  rw [hwalk] at hchain
  exact Linked.first_eq hchain

theorem Holds.mem_head (h : s.Holds m walk) (hf : s.f l = some f) (hxs : m l = some xs) (hwalk : walk l = none)
    (ha : some a = f) : a ∈ xs := by
  rw [h.head hf hxs hwalk] at ha
  exact List.mem_of_mem_head? (Option.mem_def.mpr ha.symm)

end

omit [DecidableEq α] [DecidableEq κ] in
theorem Chain.congr {w : Option (Option α)} (h : s.Chain f xs w) (hsame : ∀ a ∈ xs, s'.object a = s.object a) :
    s'.Chain f xs w := by
  cases w with
  | none => exact Linked.congr h (fun a ha => by rw [hsame a ha]) fun a ha => by rw [hsame a ha]
  | some o =>
    obtain ⟨before, last, hseg⟩ := h
    exact ⟨before, last, hseg.congr (fun a ha => by rw [hsame a ha]) fun a ha => by rw [hsame a ha]⟩

omit [DecidableEq α] [DecidableEq κ] in
/-- What happens to objects outside the lists changes nothing in them. -/
theorem Holds.outside (h : s.Holds m walk) (hf : s'.f = s.f) (hl : ∀ a, (s'.object a).l = (s.object a).l)
    (hsame : ∀ a, (s.object a).l ≠ none → s'.object a = s.object a) : s'.Holds m walk := by
  refine ⟨fun l xs hxs => ?_, fun l hgone => ?_, fun a l => ?_⟩
  · obtain ⟨f, hf', hchain, hnodup⟩ := h.linked l xs hxs
    refine ⟨f, by rw [hf, hf'], hchain.congr fun a ha => hsame a fun hnone => ?_, hnodup⟩
    cases hnone.symm.trans ((h.owner a l).mpr ⟨xs, hxs, ha⟩)
  · rw [hf, h.gone l hgone]
  · rw [hl, h.owner]

omit [DecidableEq κ] in
theorem Holds.clear (h : s.Holds m walk) (ho : (s.object o).l = none) : (s.clear o).Holds m walk :=
  h.outside rfl (fun _ => clear_l) fun _ hlisted => clear_of_ne fun heq => hlisted (heq ▸ ho)

omit [DecidableEq α] [DecidableEq κ] in
/-- A destructor that begins at the first object, or none. -/
theorem Holds.rewalk (h : s.Holds m walk)
    (hwalk : ∀ l f, s.f l = some f → walk' l = walk l ∨ walk l = none ∧ walk' l = some f) : s.Holds m walk' := by
  refine ⟨fun l xs hxs => ?_, h.gone, h.owner⟩
  obtain ⟨f, hf, hchain, hnodup⟩ := h.linked l xs hxs
  refine ⟨f, hf, ?_, hnodup⟩
  rcases hwalk l f hf with hsame | ⟨hbefore, hafter⟩
  · rw [hsame]
    exact hchain
  · rw [hbefore] at hchain
    obtain ⟨last, hseg⟩ := hchain
    rw [hafter]
    exact ⟨none, last, hseg⟩

omit [DecidableEq α] in
/-- What becomes of one list changes nothing in the others, if its objects come from nowhere else and go nowhere
    else. -/
theorem Holds.replace {list : Option (List α)} (h : s.Holds m walk) (hwalk : ∀ l', l' ≠ l → walk' l' = walk l')
    (hf : ∀ l', l' ≠ l → s'.f l' = s.f l') (hgone : list = none → s'.f l = none)
    (hlinked : ∀ ys, list = some ys → ∃ f, s'.f l = some f ∧ s'.Chain f ys (walk' l) ∧ ys.Nodup)
    (hin : ∀ a ∈ list.getD [], (s'.object a).l = some l ∧ ((s.object a).l = none ∨ (s.object a).l = some l))
    (hout : ∀ a, a ∉ list.getD [] →
      if (s.object a).l = some l then (s'.object a).l = none else s'.object a = s.object a) :
    s'.Holds (Function.update m l list) walk' := by
  -- An object of another list is as it was.
  have hother : ∀ a l', (s.object a).l = some l' → l' ≠ l → s'.object a = s.object a := by
    intro a l' ha hne
    have hnot : (s.object a).l ≠ some l := fun heq => hne (Option.some.inj (ha.symm.trans heq))
    have hnotMem : a ∉ list.getD [] := by
      intro hmem
      rcases (hin a hmem).2 with hnone | hsame
      · cases ha.symm.trans hnone
      · exact hnot hsame
    have ha' := hout a hnotMem
    rwa [if_neg hnot] at ha'
  refine ⟨fun l' ys hys => ?_, fun l' hl' => ?_, fun a l' => ?_⟩
  · by_cases hl' : l' = l
    · subst hl'
      rw [Function.update_self] at hys
      exact hlinked ys hys
    · rw [Function.update_of_ne hl'] at hys
      obtain ⟨f, hf', hchain, hnodup⟩ := h.linked l' ys hys
      refine ⟨f, (hf l' hl').trans hf', ?_, hnodup⟩
      rw [hwalk l' hl']
      exact hchain.congr fun a ha => hother a l' ((h.owner a l').mpr ⟨ys, hys, ha⟩) hl'
  · by_cases hll : l' = l
    · subst hll
      rw [Function.update_self] at hl'
      exact hgone hl'
    · rw [Function.update_of_ne hll] at hl'
      exact (hf l' hll).trans (h.gone l' hl')
  · by_cases hmem : a ∈ list.getD []
    · rw [(hin a hmem).1]
      constructor
      · intro heq
        obtain rfl := Option.some.inj heq
        cases hlist : list with
        | none => simp [hlist] at hmem
        | some ys => exact ⟨ys, Function.update_self .., by simpa [hlist] using hmem⟩
      · rintro ⟨ys, hys, ha⟩
        by_cases hll : l' = l
        · rw [hll]
        · rw [Function.update_of_ne hll] at hys
          have hl' := (h.owner a l').mpr ⟨ys, hys, ha⟩
          rcases (hin a hmem).2 with hnone | hsame
          · cases hl'.symm.trans hnone
          · exact hl'.symm.trans hsame ▸ rfl
    · have ha' := hout a hmem
      by_cases hl : (s.object a).l = some l
      · -- The list lets go of the object.
        rw [if_pos hl] at ha'
        rw [ha']
        refine ⟨fun heq => (by cases heq), ?_⟩
        rintro ⟨ys, hys, ha⟩
        by_cases hll : l' = l
        · subst hll
          rw [Function.update_self] at hys
          exact absurd (by simpa [hys] using ha) hmem
        · rw [Function.update_of_ne hll] at hys
          exact absurd (Option.some.inj (((h.owner a l').mpr ⟨ys, hys, ha⟩).symm.trans hl)) hll
      · rw [if_neg hl] at ha'
        rw [ha']
        by_cases hll : l' = l
        · subst hll
          rw [Function.update_self]
          refine ⟨fun heq => absurd heq hl, ?_⟩
          rintro ⟨ys, rfl, ha⟩
          exact absurd ha hmem
        · rw [Function.update_of_ne hll]
          exact h.owner a l'

omit [DecidableEq α] in
theorem Holds.construct (h : s.Holds m walk) (hgone : m l = none) (hwalk : walk l = none) :
    (s.setF l none).Holds (Function.update m l (some [])) walk := by
  refine h.replace (fun _ _ => rfl) (fun l' hl' => Function.update_of_ne hl' ..) (fun hnone => by cases hnone)
    (fun ys hys => ?_) (fun a ha => by simp at ha) fun a _ => ?_
  · obtain rfl := Option.some.inj hys
    refine ⟨none, Function.update_self .., ?_, List.nodup_nil⟩
    rw [hwalk]
    exact Linked.nil
  · split
    · next hl =>
      obtain ⟨xs, hxs, -⟩ := (h.owner a l).mp hl
      cases hgone.symm.trans hxs
    · rfl

theorem Holds.add (h : s.Holds m walk) (hf : s.f l = some f) (hxs : m l = some xs) (hwalk : walk l = none)
    (ho : (s.object o).l = none) : (s.add l f o).Holds (Function.update m l (some (o :: xs))) walk := by
  have hoxs := h.notMem_of_free ho hxs
  have hobject := add_object (s := s) (l := l) (o := o) (f := f) fun heq => hoxs (h.mem_head hf hxs hwalk heq)
  refine h.replace (fun _ _ => rfl) (fun l' hl' => by rw [add_f, Function.update_of_ne hl'])
    (fun hnone => by cases hnone) (fun ys hys => ?_) (fun a ha => ?_) fun a ha => ?_
  · obtain rfl := Option.some.inj hys
    obtain ⟨f', hf', hchain, hnodup⟩ := h.linked l xs hxs
    obtain rfl := Option.some.inj (hf'.symm.trans hf)
    refine ⟨some o, by rw [add_f, Function.update_self], ?_, List.nodup_cons.mpr ⟨hoxs, hnodup⟩⟩
    rw [hwalk] at hchain ⊢
    refine Linked.push hchain hnodup ?_ ?_ (fun a ha => ?_) fun a ha => ?_
    · simp only [hobject, if_true]
    · simp only [hobject, if_true]
    · simp only [hobject, if_neg fun heq : a = o => hoxs (heq ▸ ha)]
      split <;> rfl
    · simp only [hobject, if_neg fun heq : a = o => hoxs (heq ▸ ha)]
      split <;> rfl
  · rcases List.mem_cons.mp ha with rfl | ha
    · exact ⟨by rw [hobject, if_pos rfl], Or.inl ho⟩
    · have hl := (h.owner_iff hxs a).mpr ha
      refine ⟨?_, Or.inr hl⟩
      rw [hobject, if_neg fun heq : a = o => hoxs (heq ▸ ha)]
      split
      · exact hl
      · exact hl
  · obtain ⟨hao, haxs⟩ : a ≠ o ∧ a ∉ xs := by simpa [not_or] using ha
    rw [if_neg fun hl => haxs ((h.owner_iff hxs a).mp hl), hobject, if_neg hao,
      if_neg fun heq => haxs (h.mem_head hf hxs hwalk heq)]

/-- What is not in the list is no neighbour of what is taken out of it. -/
theorem Holds.unlink_of_notMem (h : s.Holds m walk) (hxs : m l = some xs) (hwalk : walk l = none) (ho : o ∈ xs)
    (ha : a ∉ xs) :
    (s.unlink l o).object a = s.object a := by
  obtain ⟨f, -, hlinked, -⟩ := h.linked l xs hxs
  rw [hwalk] at hlinked
  have hao : a ≠ o := fun heq => ha (heq ▸ ho)
  obtain ⟨l₁, l₂, rfl⟩ := List.append_of_mem ho
  obtain ⟨hp, hn⟩ := Linked.around hlinked
  have hnotNext : some a ≠ (s.object o).n := fun heq =>
    ha (List.mem_append_right l₁ (List.mem_cons_of_mem o
      (List.mem_of_mem_head? (Option.mem_def.mpr (heq.trans hn).symm))))
  have hnotPrev : some a ≠ (s.object o).p := fun heq =>
    ha (List.mem_append_left _ (List.mem_of_getLast? (heq.trans hp).symm))
  rw [unlink_object hao, if_neg hnotNext, if_neg hnotPrev]

/-- An object that is taken out of its list. -/
theorem Holds.unlink (h : s.Holds m walk) (hxs : m l = some xs) (hwalk : walk l = none)
    (hwalk' : ∀ l', walk' l' = walk l')
    (ho : o ∈ xs) : (s.unlink l o).Holds (Function.update m l (some (xs.erase o))) walk' := by
  obtain ⟨f, hf, hlinked, hnodup⟩ := h.linked l xs hxs
  rw [hwalk] at hlinked
  refine h.replace (fun l' _ => hwalk' l') (fun l' hl' => ?_) (fun hnone => by cases hnone) (fun ys hys => ?_)
    (fun a ha => ?_) fun a ha => ?_
  · rw [unlink_f]
    split
    · exact Function.update_of_ne hl' ..
    · rfl
  · obtain rfl := Option.some.inj hys
    obtain ⟨l₁, l₂, rfl⟩ := List.append_of_mem ho
    have hnotMem : o ∉ l₁ := fun hmem => List.disjoint_of_nodup_append hnodup hmem List.mem_cons_self
    have herase : (l₁ ++ o :: l₂).erase o = l₁ ++ l₂ := by rw [List.erase_append_right _ hnotMem, List.erase_cons_head]
    have hne : ∀ a ∈ l₁ ++ l₂, a ≠ o := fun a ha => (hnodup.mem_erase_iff.mp (herase ▸ ha)).1
    refine ⟨if (s.object o).p = none then (s.object o).n else f, ?_, ?_, hnodup.erase o⟩
    · rw [unlink_f]
      split
      · exact Function.update_self ..
      · exact hf
    · rw [herase, hwalk', hwalk]
      refine Linked.remove hlinked hnodup (fun a ha => ?_) fun a ha => ?_
      · simp only [unlink_object (hne a ha)]
      · simp only [unlink_object (hne a ha)]
  · obtain ⟨hne, hmem⟩ := hnodup.mem_erase_iff.mp ha
    have hl := (h.owner_iff hxs a).mpr hmem
    exact ⟨by rw [unlink_object hne, hl], Or.inr hl⟩
  · by_cases hao : a = o
    · subst hao
      rw [if_pos ((h.owner_iff hxs a).mpr ho)]
      exact unlink_self
    · have haxs : a ∉ xs := fun hmem => ha (hnodup.mem_erase_iff.mpr ⟨hao, hmem⟩)
      rw [if_neg fun hl => haxs ((h.owner_iff hxs a).mp hl), h.unlink_of_notMem hxs hwalk ho haxs]

/-- `remove` takes an object out, the first one if none is given, or does nothing. -/
theorem Holds.remove (h : s.Holds m walk) (hf : s.f l = some f) (hxs : m l = some xs) (hwalk : walk l = none)
    {b : Option α} :
    ((b.or xs.head?).filter (· ∈ xs) = none ∧ s.remove l f b = (s, none)) ∨
      ∃ o, (b.or xs.head?).filter (· ∈ xs) = some o ∧ o ∈ xs ∧ s.remove l f b = (s.unlink l o, some o) := by
  simp only [ObjectLists.remove, h.head hf hxs hwalk]
  cases hb : b.or xs.head? with
  | none => exact Or.inl ⟨rfl, rfl⟩
  | some o =>
    by_cases ho : o ∈ xs
    · refine Or.inr ⟨o, by simp [Option.filter, ho], ho, ?_⟩
      simp only [h.owner_iff hxs, ho, if_true]
    · refine Or.inl ⟨by simp [Option.filter, ho], ?_⟩
      simp only [h.owner_iff hxs, ho, if_false]

omit [DecidableEq α] [DecidableEq κ] in
theorem Holds.walked (h : s.Holds m walk) (hxs : m l = some xs) {first : Option α} (hwalk : walk l = some first) :
    first = xs.head? := by
  obtain ⟨f, -, hchain, -⟩ := h.linked l xs hxs
  rw [hwalk] at hchain
  obtain ⟨before, last, hseg⟩ := hchain
  rw [hseg.first_eq, Option.or_none]

/-- A destructor lets go of the first object. -/
theorem Holds.letGo (h : s.Holds m walk) (hxs : m l = some (o :: xs)) (hwalk : walk l = some (some o))
    (hnext : walk' l = some (s.object o).n) (hothers : ∀ l', l' ≠ l → walk' l' = walk l') :
    (s.letGo o).Holds (Function.update m l (some xs)) walk' := by
  obtain ⟨f, hf, hchain, hnodup⟩ := h.linked l _ hxs
  obtain ⟨ho, hnodup'⟩ := List.nodup_cons.mp hnodup
  have hne : ∀ a ∈ xs, a ≠ o := fun a ha heq => ho (heq ▸ ha)
  rw [hwalk] at hchain
  obtain ⟨before, last, -, -, hrest⟩ := hchain
  refine h.replace hothers (fun _ _ => rfl) (fun hnone => by cases hnone) (fun ys hys => ?_) (fun a ha => ?_)
    fun a ha => ?_
  · obtain rfl := Option.some.inj hys
    refine ⟨f, hf, ?_, hnodup'⟩
    have hchain : s.Chain f xs (walk' l) := by
      rw [hnext]
      exact ⟨some o, last, hrest⟩
    exact hchain.congr fun a ha => letGo_of_ne (hne a ha)
  · have hl := (h.owner_iff hxs a).mpr (List.mem_cons_of_mem o ha)
    rw [letGo_of_ne (hne a ha)]
    exact ⟨hl, Or.inr hl⟩
  · by_cases hao : a = o
    · subst hao
      rw [if_pos ((h.owner_iff hxs a).mpr List.mem_cons_self)]
      exact letGo_self
    · rw [if_neg, letGo_of_ne hao]
      intro hl
      rcases List.mem_cons.mp ((h.owner_iff hxs a).mp hl) with heq | hmem
      · exact hao heq
      · exact ha hmem

omit [DecidableEq α] in
theorem Holds.destroy (h : s.Holds m walk) (hxs : m l = some []) (hothers : ∀ l', l' ≠ l → walk' l' = walk l') :
    Holds { s with f := Function.update s.f l none } (Function.update m l none) walk' := by
  refine h.replace hothers (fun l' hl' => Function.update_of_ne hl' ..) (fun _ => Function.update_self ..)
    (fun ys hys => by cases hys) (fun a ha => by simp at ha) fun a _ => ?_
  rw [if_neg]
  intro hl
  exact absurd ((h.owner_iff hxs a).mp hl) List.not_mem_nil

end ObjectLists

/-! ## What threads see -/

namespace ListPc
variable {α κ : Type}

/-- The thread has the lock of this list. -/
def Locks : ListPc α κ → κ → Prop
  | .removing l' _, l | .destroying l' _, l | .clearing l' _ _, l => l' = l
  | .idle, _ | .adding _ _, _ => False

/-- The thread is about to add the object, or is letting go of it. -/
def Claims : ListPc α κ → α → Prop
  | .adding _ o', o | .removing _ o', o | .clearing _ o' _, o => o' = o
  | .idle, _ | .destroying _ _, _ => False

/-- Where a destructor goes on in its list. -/
def walk : ListPc α κ → Option (Option α)
  | .destroying _ o => some o
  | .clearing _ _ n => some n
  | .idle | .adding _ _ | .removing _ _ => none

end ListPc

/-- Where a thread stands, without what only pointers need. -/
inductive PlainPc (α κ : Type)
  | idle
  | adding (l : κ) (o : α)
  | removing (l : κ) (o : α)
  | destroying (l : κ)
  | clearing (l : κ)

def ListPc.plain {α κ : Type} : ListPc α κ → PlainPc α κ
  | .idle => .idle
  | .adding l o => .adding l o
  | .removing l o => .removing l o
  | .destroying l _ => .destroying l
  | .clearing l _ _ => .clearing l

/-- Lists of objects, as they are meant: a list of objects for every `List` that is there, and its lock. -/
structure PlainLists (τ α κ : Type) where
  lists : κ → Option (List α)
  lock : κ → Option τ
  pc : τ → PlainPc α κ
  returned : List (Option α)

namespace PlainLists
variable {τ α κ : Type} [DecidableEq τ] [DecidableEq α] [DecidableEq κ]

def start : PlainLists τ α κ := ⟨fun _ => none, fun _ => none, fun _ => .idle, []⟩

/-- The object is in a list. -/
def Listed (s : PlainLists τ α κ) (o : α) : Prop := ∃ l xs, s.lists l = some xs ∧ o ∈ xs

def goto (s : PlainLists τ α κ) (t : τ) (pc : PlainPc α κ) : PlainLists τ α κ :=
  { s with pc := Function.update s.pc t pc }

def setList (s : PlainLists τ α κ) (l : κ) (list : Option (List α)) : PlainLists τ α κ :=
  { s with lists := Function.update s.lists l list }

omit [DecidableEq τ] [DecidableEq α] in
theorem lists_of_setList (s : PlainLists τ α κ) {l l' : κ} {xs : List α}
    (hnone : (s.setList l (some xs)).lists l' = none) :
    l' ≠ l ∧ s.lists l' = none := by
  by_cases hl : l' = l
  · subst hl
    simp [setList] at hnone
  · exact ⟨hl, (Function.update_of_ne hl ..).symm.trans hnone⟩

def setLock (s : PlainLists τ α κ) (l : κ) (t : Option τ) : PlainLists τ α κ :=
  { s with lock := Function.update s.lock l t }

def go (s : PlainLists τ α κ) (t : τ) : Option (PlainLists τ α κ) :=
  match s.pc t with
  | .idle => none
  | .adding l o =>
    match s.lists l, s.lock l with
    | some xs, none => some ((s.setList l (some (o :: xs))).goto t .idle)
    | _, _ => none
  | .removing l o => some (({ s with returned := s.returned ++ [some o] }.setLock l none).goto t .idle)
  | .destroying l =>
    match s.lists l with
    | none => none
    | some [] => some (((s.setList l none).setLock l none).goto t .idle)
    | some (_ :: xs) => some ((s.setList l (some xs)).goto t (.clearing l))
  | .clearing l => some (s.goto t (.destroying l))

open Classical in
/-- One step. An object that is in a list already is not added, one that is not in the list is not taken out, and
    without an object the first one is. -/
noncomputable def step (s : PlainLists τ α κ) : ListAction τ α κ → Option (PlainLists τ α κ)
  | .construct l => if s.lists l = none then some (s.setList l (some [])) else none
  | .destroy t l =>
    match s.pc t, s.lists l, s.lock l with
    | .idle, some _, none => some ((s.setLock l (some t)).goto t (.destroying l))
    | _, _, _ => none
  | .add t l o =>
    match s.pc t, s.lists l with
    | .idle, some _ => if s.Listed o then some s else some (s.goto t (.adding l o))
    | _, _ => none
  | .remove t l o =>
    match s.pc t, s.lists l, s.lock l with
    | .idle, some xs, none =>
      match (o.or xs.head?).filter (· ∈ xs) with
      | none => some { s with returned := s.returned ++ [none] }
      | some o => some (((s.setList l (some (xs.erase o))).setLock l (some t)).goto t (.removing l o))
    | _, _, _ => none
  | .go t => s.go t

end PlainLists

namespace ListUsers
variable {τ α κ : Type}

/-- Where a destructor goes on in this list, if one is at it. -/
def walk (s : ListUsers τ α κ) (l : κ) : Option (Option α) := (s.lock l).bind fun t => (s.pc t).walk

/-- No thread is about to add the object that this one begins to add, and none is letting go of it. -/
def AddsAlone (s : ListUsers τ α κ) : ListAction τ α κ → Prop
  | .add _ _ o => ∀ t, ¬(s.pc t).Claims o
  | .construct _ | .destroy _ _ | .remove _ _ _ | .go _ => True

/-- The lists are what they are meant to be, and what threads are about to add or let go of is in no list. -/
structure Represents (s : ListUsers τ α κ) (a : PlainLists τ α κ) : Prop where
  holds : s.lists.Holds a.lists s.walk
  pc : ∀ t, a.pc t = (s.pc t).plain
  lock : a.lock = s.lock
  owns : ∀ l t, s.lock l = some t ↔ (s.pc t).Locks l
  there : ∀ l t, s.lock l = some t → a.lists l ≠ none
  claimed : ∀ t o, (s.pc t).Claims o → (s.lists.object o).l = none
  alone : ∀ t t' o, (s.pc t).Claims o → (s.pc t').Claims o → t = t'
  /-- What no list and no thread has anything to do with holds no pointer. -/
  free : ∀ o, (s.lists.object o).l = none → (∀ t, ¬(s.pc t).Claims o) → s.lists.object o = ⟨none, none, none⟩
  returned : s.returned = a.returned
  /-- The destructor never finds an object of another list. -/
  notThrown : s.threw = false

variable [DecidableEq τ] {s s' : ListUsers τ α κ} {a a' : PlainLists τ α κ} {act : ListAction τ α κ} {t : τ}
    {pc : ListPc α κ} {l : κ} {o : α}

omit [DecidableEq τ] in
theorem represents_start : (start : ListUsers τ α κ).Represents .start where
  holds := ObjectLists.holds_start
  pc _ := rfl
  lock := rfl
  owns l t := ⟨fun h => (by cases h), False.elim⟩
  there l t h := by cases h
  claimed _ _ h := h.elim
  alone _ _ _ h := h.elim
  free _ _ _ := rfl
  returned := rfl
  notThrown := rfl

/-! ### A thread that goes on -/

/-- A thread has gone to `place`, with the locks that it has there and no others. -/
structure Moved (s s' : ListUsers τ α κ) (t : τ) (place : ListPc α κ) : Prop where
  pc : s'.pc = Function.update s.pc t place
  locks : ∀ l, place.Locks l → s'.lock l = some t ∧ (s.lock l = none ∨ s.lock l = some t)
  others : ∀ l, ¬place.Locks l → s'.lock l = if s.lock l = some t then none else s.lock l

/-- The locks stay with the threads that have them. -/
theorem Represents.moved_keep (h : s.Represents a) (hpc : s'.pc = Function.update s.pc t pc) (hlock : s'.lock = s.lock)
    (hsame : ∀ l, pc.Locks l ↔ (s.pc t).Locks l) : Moved s s' t pc where
  pc := hpc
  locks l hl := by
    have ht := (h.owns l t).mpr ((hsame l).mp hl)
    exact ⟨by rw [hlock, ht], Or.inr ht⟩
  others l hl := by
    rw [hlock, if_neg fun ht => hl ((hsame l).mpr ((h.owns l t).mp ht))]

theorem Represents.moved_lock [DecidableEq κ] (h : s.Represents a) (hpc : s'.pc = Function.update s.pc t pc)
    (hlock : s'.lock = Function.update s.lock l (some t)) (hfree : s.lock l = none) (hbefore : ∀ l', ¬(s.pc t).Locks l')
    (hafter : ∀ l', pc.Locks l' ↔ l = l') : Moved s s' t pc where
  pc := hpc
  locks l' hl' := by
    obtain rfl := (hafter l').mp hl'
    exact ⟨by rw [hlock, Function.update_self], Or.inl hfree⟩
  others l' hl' := by
    have hne : l' ≠ l := fun heq => hl' ((hafter l').mpr heq.symm)
    rw [hlock, Function.update_of_ne hne, if_neg fun ht => hbefore l' ((h.owns l' t).mp ht)]

theorem Represents.moved_unlock [DecidableEq κ] (h : s.Represents a) (hpc : s'.pc = Function.update s.pc t pc)
    (hlock : s'.lock = Function.update s.lock l none) (hbefore : ∀ l', (s.pc t).Locks l' ↔ l = l')
    (hafter : ∀ l', ¬pc.Locks l') : Moved s s' t pc where
  pc := hpc
  locks l' hl' := absurd hl' (hafter l')
  others l' _ := by
    rw [hlock]
    by_cases hl' : l' = l
    · subst hl'
      rw [Function.update_self, if_pos ((h.owns l' t).mpr ((hbefore l').mpr rfl))]
    · rw [Function.update_of_ne hl', if_neg fun ht => hl' ((hbefore l').mp ((h.owns l' t).mp ht)).symm]

theorem Moved.pc_self (hmoved : Moved s s' t pc) : s'.pc t = pc := by rw [hmoved.pc, Function.update_self]

theorem Moved.pc_other (hmoved : Moved s s' t pc) {t' : τ} (hne : t' ≠ t) : s'.pc t' = s.pc t' := by
  rw [hmoved.pc, Function.update_of_ne hne]

theorem Moved.walk_self (hmoved : Moved s s' t pc) (hl : pc.Locks l) : s'.walk l = pc.walk := by
  simp only [walk, (hmoved.locks l hl).1, Option.bind_some, hmoved.pc_self]

/-- Lists whose lock the thread has neither had nor got are walked as before. -/
theorem Moved.walk_other (hmoved : Moved s s' t pc) (hl : ¬pc.Locks l) (hbefore : s.lock l ≠ some t) :
    s'.walk l = s.walk l := by
  have hlock := hmoved.others l hl
  rw [if_neg hbefore] at hlock
  simp only [walk, hlock]
  cases ht : s.lock l with
  | none => rfl
  | some t' =>
    have hne : t' ≠ t := fun heq => hbefore (by rw [ht, heq])
    simp only [Option.bind_some, hmoved.pc_other hne]

/-- Every lock is still with the thread that stands where it has it. -/
theorem Represents.owns_next (h : s.Represents a) (hmoved : Moved s s' t pc) (l : κ) (t' : τ) :
    s'.lock l = some t' ↔ (s'.pc t').Locks l := by
  by_cases hlocks : pc.Locks l
  · -- A lock that the thread has now was free before, or its own.
    obtain ⟨hnow, hbefore⟩ := hmoved.locks l hlocks
    rw [hnow]
    by_cases hne : t' = t
    · subst hne
      rw [hmoved.pc_self]
      exact ⟨fun _ => hlocks, fun _ => rfl⟩
    · rw [hmoved.pc_other hne, ← h.owns]
      rcases hbefore with hfree | hown
      · rw [hfree]
        exact ⟨fun heq => absurd (Option.some.inj heq).symm hne, fun heq => by cases heq⟩
      · rw [hown]
  · rw [hmoved.others l hlocks]
    by_cases hne : t' = t
    · subst hne
      rw [hmoved.pc_self]
      refine ⟨fun heq => ?_, fun heq => absurd heq hlocks⟩
      split at heq
      · cases heq
      · next hnot => exact absurd heq hnot
    · rw [hmoved.pc_other hne, ← h.owns]
      split
      · next hown =>
        rw [hown]
        exact ⟨fun heq => (by cases heq), fun heq => absurd (Option.some.inj heq).symm hne⟩
      · exact Iff.rfl

/-- No object is claimed twice, as long as no other thread claims what this one claims now. -/
theorem Represents.alone_next (h : s.Represents a) (hmoved : Moved s s' t pc)
    (hclaims : ∀ o, pc.Claims o → ∀ t', (s.pc t').Claims o → t' = t) (t' t'' : τ) (o : α)
    (hclaim : (s'.pc t').Claims o) (hclaim' : (s'.pc t'').Claims o) : t' = t'' := by
  by_cases hne : t' = t <;> by_cases hne' : t'' = t
  · rw [hne, hne']
  · subst hne
    rw [hmoved.pc_self] at hclaim
    rw [hmoved.pc_other hne'] at hclaim'
    exact (hclaims o hclaim t'' hclaim').symm
  · subst hne'
    rw [hmoved.pc_other hne] at hclaim
    rw [hmoved.pc_self] at hclaim'
    exact hclaims o hclaim' t' hclaim
  · rw [hmoved.pc_other hne] at hclaim
    rw [hmoved.pc_other hne'] at hclaim'
    exact h.alone t' t'' o hclaim hclaim'

/-- A thread has gone on. What it claims now no other thread claims, what it does not claim any more is in a list or
    cleared, and of the objects that it never claimed it has changed only those in lists. -/
theorem Represents.next (h : s.Represents a) (hmoved : Moved s s' t pc) (hpc : a'.pc = Function.update a.pc t pc.plain)
    (hlock : a'.lock = s'.lock) (hholds : s'.lists.Holds a'.lists s'.walk)
    (hthere : ∀ l, a'.lists l = none → ¬pc.Locks l ∧ (a.lists l = none ∨ s.lock l = some t))
    (hclaims : ∀ o, pc.Claims o → (s'.lists.object o).l = none ∧ ∀ t', (s.pc t').Claims o → t' = t)
    (hdone : ∀ o, ¬pc.Claims o → (s.pc t).Claims o →
      (s'.lists.object o).l = none → s'.lists.object o = ⟨none, none, none⟩)
    (hothers : ∀ o, ¬pc.Claims o → ¬(s.pc t).Claims o →
      if (s.lists.object o).l = none then s'.lists.object o = s.lists.object o else (s'.lists.object o).l ≠ none)
    (hreturned : s'.returned = a'.returned) (hthrew : s'.threw = s.threw) : s'.Represents a' := by
  -- What another thread claims is in no list, and this thread has never claimed it.
  have hkept : ∀ t' o, t' ≠ t → (s.pc t').Claims o → s'.lists.object o = s.lists.object o := by
    intro t' o hne hclaim
    have hnotNow : ¬pc.Claims o := fun hnow => hne ((hclaims o hnow).2 t' hclaim)
    have hnotBefore : ¬(s.pc t).Claims o := fun hbefore => hne (h.alone t' t o hclaim hbefore)
    have hsame := hothers o hnotNow hnotBefore
    rwa [if_pos (h.claimed t' o hclaim)] at hsame
  refine ⟨hholds, fun t' => ?_, hlock, h.owns_next hmoved, fun l t' ht' hnone => ?_, fun t' o hclaim => ?_,
    h.alone_next hmoved fun o hclaim => (hclaims o hclaim).2, fun o hl hunclaimed => ?_, hreturned,
    hthrew.trans h.notThrown⟩
  · by_cases hne : t' = t
    · subst hne
      rw [hpc, Function.update_self, hmoved.pc_self]
    · rw [hpc, Function.update_of_ne hne, h.pc, hmoved.pc_other hne]
  · -- The list of a thread that has its lock does not go.
    obtain ⟨hnot, hgone | hown⟩ := hthere l hnone
    · rw [hmoved.others l hnot] at ht'
      split at ht'
      · cases ht'
      · exact h.there l t' ht' hgone
    · rw [hmoved.others l hnot, if_pos hown] at ht'
      cases ht'
  · by_cases hne : t' = t
    · subst hne
      rw [hmoved.pc_self] at hclaim
      exact (hclaims o hclaim).1
    · rw [hmoved.pc_other hne] at hclaim
      rw [hkept t' o hne hclaim]
      exact h.claimed t' o hclaim
  · -- An object that nobody claims is either one that this thread has cleared, or as it was.
    have hnotNow : ¬pc.Claims o := hmoved.pc_self ▸ hunclaimed t
    by_cases hbefore : (s.pc t).Claims o
    · exact hdone o hnotNow hbefore hl
    · have hsame := hothers o hnotNow hbefore
      split at hsame
      · next hfree =>
        rw [hsame]
        refine h.free o hfree fun t' hclaim => ?_
        by_cases hne : t' = t
        · exact hbefore (hne ▸ hclaim)
        · exact hunclaimed t' (by rwa [hmoved.pc_other hne])
      · exact absurd hl hsame

/-! ### Every step -/

omit [DecidableEq τ] in
theorem Represents.f_of_lists {xs : List α} (h : s.Represents a) (hxs : a.lists l = some xs) :
    ∃ f, s.lists.f l = some f := by
  obtain ⟨f, hf, -⟩ := h.holds.linked l xs hxs
  exact ⟨f, hf⟩

omit [DecidableEq τ] in
theorem walk_of_free (hlock : s.lock l = none) : s.walk l = none := by simp only [walk, hlock, Option.bind_none]

omit [DecidableEq τ] in
theorem Represents.walk_of_locks (h : s.Represents a) (hl : (s.pc t).Locks l) : s.walk l = (s.pc t).walk := by
  simp only [walk, (h.owns l t).mpr hl, Option.bind_some]

omit [DecidableEq τ] in
theorem Represents.lock_ne (h : s.Represents a) (hnot : ¬(s.pc t).Locks l) : s.lock l ≠ some t :=
  fun ht => hnot ((h.owns l t).mp ht)

variable [DecidableEq α] [DecidableEq κ]

/-- Both systems do the step, or neither does. -/
theorem Represents.construct (h : s.Represents a) :
    Option.Rel Represents (s.step (.construct l)) (a.step (.construct l)) := by
  cases hxs : a.lists l with
  | some xs =>
    obtain ⟨f, hf⟩ := h.f_of_lists hxs
    simp only [step, PlainLists.step, hf, hxs, reduceCtorEq, if_false]
    exact .none
  | none =>
    simp only [step, PlainLists.step, h.holds.gone l hxs, hxs, if_true]
    have hfree : s.lock l = none := by
      cases ht : s.lock l with
      | none => rfl
      | some t => exact absurd hxs (h.there l t ht)
    refine .some { h with holds := h.holds.construct hxs (walk_of_free hfree), there := fun l' t ht hnone => ?_ }
    exact h.there l' t ht (a.lists_of_setList hnone).2

theorem Represents.destroy (h : s.Represents a) :
    Option.Rel Represents (s.step (.destroy t l)) (a.step (.destroy t l)) := by
  simp only [step, PlainLists.step, h.pc, h.lock]
  cases hpc : s.pc t with
  | adding | removing | destroying | clearing => exact .none
  | idle =>
    cases hxs : a.lists l with
    | none =>
      simp only [h.holds.gone l hxs]
      exact .none
    | some xs =>
      obtain ⟨f, hf⟩ := h.f_of_lists hxs
      simp only [hf]
      cases hlock : s.lock l with
      | some t' => exact .none
      | none =>
        have hmoved : Moved s ((s.setLock l (some t)).goto t (.destroying l f)) t (.destroying l f) :=
          h.moved_lock rfl rfl hlock (fun l' => by rw [hpc]; exact id) fun l' => Iff.rfl
        refine .some (h.next hmoved rfl ?_ (h.holds.rewalk fun l' f' hf' => ?_) (fun l' hnone => ⟨?_, Or.inl hnone⟩)
          (fun o ho => ho.elim) (fun o _ ho => ?_) (fun o _ _ => ?_) h.returned rfl)
        · exact congrArg (Function.update · l (some t)) h.lock
        · by_cases hl : l' = l
          · subst hl
            obtain rfl := Option.some.inj (hf'.symm.trans hf)
            exact Or.inr ⟨walk_of_free hlock, hmoved.walk_self rfl⟩
          · exact Or.inl (hmoved.walk_other (fun heq => hl heq.symm) (h.lock_ne (by rw [hpc]; exact id)))
        · rintro rfl
          cases hxs.symm.trans hnone
        · rw [hpc] at ho
          exact ho.elim
        · split
          · rfl
          · assumption

theorem Represents.add (h : s.Represents a) (halone : ∀ t, ¬(s.pc t).Claims o) :
    Option.Rel Represents (s.step (.add t l o)) (a.step (.add t l o)) := by
  simp only [step, PlainLists.step, h.pc]
  cases hpc : s.pc t with
  | adding | removing | destroying | clearing => exact .none
  | idle =>
    cases hxs : a.lists l with
    | none =>
      simp only [h.holds.gone l hxs]
      exact .none
    | some xs =>
      obtain ⟨f, hf⟩ := h.f_of_lists hxs
      simp only [hf]
      have hlisted : a.Listed o ↔ (s.lists.object o).l ≠ none := by
        rw [Option.ne_none_iff_exists']
        exact exists_congr fun l => (h.holds.owner o l).symm
      simp only [ListPc.plain, hlisted]
      by_cases hfree : (s.lists.object o).l = none
      · rw [if_pos hfree, if_neg (not_not.mpr hfree)]
        have hmoved : Moved s (s.goto t (.adding l o)) t (.adding l o) :=
          h.moved_keep rfl rfl fun l' => by rw [hpc]; exact Iff.rfl
        refine .some (h.next hmoved rfl h.lock (h.holds.rewalk fun l' f' _ => Or.inl ?_)
          (fun l' hnone => ⟨id, Or.inl hnone⟩)
          (fun o' ho' => ?_) (fun o' _ ho' => ?_) (fun o' _ _ => ?_) h.returned rfl)
        · exact hmoved.walk_other id (h.lock_ne (by rw [hpc]; exact id))
        · obtain rfl : o = o' := ho'
          exact ⟨hfree, fun t' ht' => absurd ht' (halone t')⟩
        · rw [hpc] at ho'
          exact ho'.elim
        · split
          · rfl
          · assumption
      · rw [if_neg hfree, if_pos hfree]
        exact .some h

theorem Represents.remove {b : Option α} (h : s.Represents a) :
    Option.Rel Represents (s.step (.remove t l b)) (a.step (.remove t l b)) := by
  simp only [step, PlainLists.step, h.pc, h.lock]
  cases hpc : s.pc t with
  | adding | removing | destroying | clearing => exact .none
  | idle =>
    cases hxs : a.lists l with
    | none =>
      simp only [h.holds.gone l hxs]
      exact .none
    | some xs =>
      obtain ⟨f, hf⟩ := h.f_of_lists hxs
      simp only [hf]
      cases hlock : s.lock l with
      | some t' => exact .none
      | none =>
        have hwalk := walk_of_free hlock
        -- Nothing is found, or an object that is unlinked and from now on claimed by this thread.
        rcases h.holds.remove hf hxs hwalk (b := b) with ⟨hresult, hremove⟩ | ⟨o, hresult, ho, hremove⟩
        · simp only [ListPc.plain, hremove, hresult]
          exact .some { h with lock := rfl, returned := congrArg (· ++ [none]) h.returned }
        · simp only [ListPc.plain, hremove, hresult]
          have hmoved : Moved s (({ s with lists := s.lists.unlink l o }.setLock l (some t)).goto t (.removing l o)) t
              (.removing l o) :=
            h.moved_lock rfl rfl hlock (fun l' => by rw [hpc]; exact id) fun l' => Iff.rfl
          refine .some (h.next hmoved rfl ?_ (h.holds.unlink hxs hwalk (fun l' => ?_) ho) (fun l' hnone => ?_)
            (fun o' ho' => ?_) (fun o' _ ho' => ?_) (fun o' hne _ => ?_) h.returned rfl)
          · exact congrArg (Function.update · l (some t)) h.lock
          · by_cases hl : l' = l
            · subst hl
              rw [hmoved.walk_self rfl, hwalk]
              rfl
            · exact hmoved.walk_other (fun heq => hl heq.symm) (h.lock_ne (by rw [hpc]; exact id))
          · obtain ⟨hl, hgone⟩ := a.lists_of_setList hnone
            exact ⟨fun heq => hl heq.symm, Or.inl hgone⟩
          · obtain rfl : o = o' := ho'
            refine ⟨ObjectLists.unlink_self, fun t' ht' => ?_⟩
            exact absurd ho (h.holds.notMem_of_free (h.claimed t' o ht') hxs)
          · rw [hpc] at ho'
            exact ho'.elim
          · have hne' : o' ≠ o := fun heq => hne heq.symm
            split
            · next hfree => exact h.holds.unlink_of_notMem hxs hwalk ho (h.holds.notMem_of_free hfree hxs)
            · next hlisted =>
              show ((s.lists.unlink l o).object o').l ≠ none
              rw [ObjectLists.unlink_object hne']
              exact hlisted

theorem Represents.go_adding (h : s.Represents a) (hpc : s.pc t = .adding l o) :
    Option.Rel Represents (s.go t) (a.go t) := by
  have hfree : (s.lists.object o).l = none := h.claimed t o (by rw [hpc]; rfl)
  simp only [go, PlainLists.go, h.pc, hpc, ListPc.plain, h.lock]
  cases hxs : a.lists l with
  | none =>
    simp only [h.holds.gone l hxs]
    exact .none
  | some xs =>
    obtain ⟨f, hf⟩ := h.f_of_lists hxs
    simp only [hf]
    cases hlock : s.lock l with
    | some t' => exact .none
    | none =>
      have hwalk := walk_of_free hlock
      have hne : some o ≠ f := fun heq => h.holds.notMem_of_free hfree hxs (h.holds.mem_head hf hxs hwalk heq)
      have hmoved : Moved s (({ s with lists := s.lists.add l f o } : ListUsers τ α κ).goto t .idle) t .idle :=
        h.moved_keep rfl rfl fun l' => by rw [hpc]; exact Iff.rfl
      refine .some (h.next hmoved rfl h.lock ((h.holds.add hf hxs hwalk hfree).rewalk fun l' _ _ => Or.inl ?_)
        (fun l' hnone => ?_)
        (fun o' ho' => ho'.elim) (fun o' _ ho' hl => ?_) (fun o' _ hnot => ?_) h.returned rfl)
      · exact hmoved.walk_other id (h.lock_ne (by rw [hpc]; exact id))
      · exact ⟨id, Or.inl (a.lists_of_setList hnone).2⟩
      · -- The object is in the list now.
        rw [hpc] at ho'
        obtain rfl : o = o' := ho'
        simp only [goto, ObjectLists.add_object hne, if_true] at hl
        cases hl
      · have hne' : o' ≠ o := fun heq => hnot (by rw [hpc]; exact heq.symm)
        split
        · next hfree' =>
          have hnotFirst : some o' ≠ f := fun heq => h.holds.notMem_of_free hfree' hxs
            (h.holds.mem_head hf hxs hwalk heq)
          simp only [goto, ObjectLists.add_object hne, if_neg hne', if_neg hnotFirst]
        · next hlisted =>
          simp only [goto, ObjectLists.add_object hne, if_neg hne']
          split
          · exact hlisted
          · exact hlisted

theorem Represents.go_removing (h : s.Represents a) (hpc : s.pc t = .removing l o) :
    Option.Rel Represents (s.go t) (a.go t) := by
  have hfree : (s.lists.object o).l = none := h.claimed t o (by rw [hpc]; rfl)
  have hlock : s.lock l = some t := (h.owns l t).mpr (by rw [hpc]; rfl)
  simp only [go, PlainLists.go, h.pc, hpc, ListPc.plain]
  let cleared : ListUsers τ α κ := { s with lists := s.lists.clear o, returned := s.returned ++ [some o] }
  have hmoved : Moved s ((cleared.setLock l none).goto t .idle) t .idle :=
    h.moved_unlock rfl rfl (fun l' => by rw [hpc]; exact Iff.rfl) fun _ => id
  refine .some (h.next hmoved rfl ?_ ((h.holds.clear hfree).rewalk fun l' _ _ => Or.inl ?_)
    (fun l' hnone => ⟨id, Or.inl hnone⟩)
    (fun o' ho' => ho'.elim) (fun o' _ ho' _ => ?_) (fun o' _ hnot => ?_) (congrArg (· ++ [some o]) h.returned) rfl)
  · exact congrArg (Function.update · l none) h.lock
  · by_cases hl : l' = l
    · subst hl
      rw [h.walk_of_locks (by rw [hpc]; rfl), hpc]
      exact walk_of_free (Function.update_self ..)
    · exact hmoved.walk_other id (h.lock_ne (by rw [hpc]; exact fun heq => hl heq.symm))
  · rw [hpc] at ho'
    obtain rfl : o = o' := ho'
    exact ObjectLists.clear_self hfree
  · have hne : o' ≠ o := fun heq => hnot (by rw [hpc]; exact heq.symm)
    split
    · exact ObjectLists.clear_of_ne hne
    · next hlisted =>
      show ((s.lists.clear o).object o').l ≠ none
      rwa [ObjectLists.clear_l]

/-- A destructor lets go of the first object, or is done. -/
theorem Represents.go_destroying {b : Option α} (h : s.Represents a) (hpc : s.pc t = .destroying l b) :
    Option.Rel Represents (s.go t) (a.go t) := by
  have hlocks : (s.pc t).Locks l := by rw [hpc]; rfl
  have hlock := (h.owns l t).mpr hlocks
  have hwalk : s.walk l = some b := by rw [h.walk_of_locks hlocks, hpc]; rfl
  have hother : ∀ {l'}, l' ≠ l → s.lock l' ≠ some t := fun hl => h.lock_ne (by rw [hpc]; exact fun heq => hl heq.symm)
  have hclaimless : ∀ o, ¬(s.pc t).Claims o := fun o => by rw [hpc]; exact id
  simp only [go, PlainLists.go, h.pc, hpc, ListPc.plain]
  cases hxs : a.lists l with
  | none => exact absurd hxs (h.there l t hlock)
  | some xs =>
    obtain rfl := h.holds.walked hxs hwalk
    cases xs with
    | nil =>
      -- The list is empty. It goes, and gives its lock back.
      let gone : ListUsers τ α κ := { s with lists := { s.lists with f := Function.update s.lists.f l none } }
      have hmoved : Moved s ((gone.setLock l none).goto t .idle) t .idle :=
        h.moved_unlock rfl rfl (fun l' => by rw [hpc]; exact Iff.rfl) fun _ => id
      refine .some (h.next hmoved rfl ?_ (h.holds.destroy hxs fun l' hl => ?_) (fun l' hnone => ⟨id, ?_⟩)
        (fun o ho => ho.elim) (fun o _ ho => absurd ho (hclaimless o)) (fun o _ _ => ?_) h.returned rfl)
      · exact congrArg (Function.update · l none) h.lock
      · exact hmoved.walk_other id (hother hl)
      · by_cases hl : l' = l
        · exact Or.inr (hl ▸ hlock)
        · exact Or.inl ((Function.update_of_ne hl ..).symm.trans hnone)
      · split
        · rfl
        · assumption
    | cons o xs =>
      -- The first object was in the list until now, so no other thread claims it.
      have ho : (s.lists.object o).l = some l := (h.holds.owner_iff hxs o).mpr List.mem_cons_self
      simp only [List.head?_cons, ho, ne_eq, not_true, if_false]
      let place : ListPc α κ := .clearing l o (s.lists.object o).n
      have hmoved : Moved s (({ s with lists := s.lists.letGo o } : ListUsers τ α κ).goto t place) t place :=
        h.moved_keep rfl rfl fun l' => by rw [hpc]; exact Iff.rfl
      refine .some (h.next hmoved rfl h.lock (h.holds.letGo hxs hwalk (hmoved.walk_self rfl) fun l' hl => ?_)
        (fun l' hnone => ?_)
        (fun o' ho' => ?_) (fun o' _ ho' => absurd ho' (hclaimless o')) (fun o' hnot _ => ?_) h.returned rfl)
      · exact hmoved.walk_other (fun heq => hl heq.symm) (hother hl)
      · obtain ⟨hl, hgone⟩ := a.lists_of_setList hnone
        exact ⟨fun heq => hl heq.symm, Or.inl hgone⟩
      · obtain rfl : o = o' := ho'
        refine ⟨ObjectLists.letGo_self, fun t' ht' => ?_⟩
        cases ho.symm.trans (h.claimed t' o ht')
      · have hsame : (s.lists.letGo o).object o' = s.lists.object o' := ObjectLists.letGo_of_ne fun heq => hnot heq.symm
        split
        · exact hsame
        · next hlisted =>
          show ((s.lists.letGo o).object o').l ≠ none
          rwa [hsame]

theorem Represents.go_clearing {b : Option α} (h : s.Represents a) (hpc : s.pc t = .clearing l o b) :
    Option.Rel Represents (s.go t) (a.go t) := by
  have hfree : (s.lists.object o).l = none := h.claimed t o (by rw [hpc]; rfl)
  have hlocks : (s.pc t).Locks l := by rw [hpc]; rfl
  simp only [go, PlainLists.go, h.pc, hpc, ListPc.plain]
  have hmoved : Moved s (({ s with lists := s.lists.clear o } : ListUsers τ α κ).goto t (.destroying l b)) t
      (.destroying l b) :=
    h.moved_keep rfl rfl fun l' => by rw [hpc]; exact Iff.rfl
  refine .some (h.next hmoved rfl h.lock ((h.holds.clear hfree).rewalk fun l' _ _ => Or.inl ?_)
    (fun l' hnone => ⟨?_, Or.inl hnone⟩)
    (fun o' ho' => ho'.elim) (fun o' _ ho' _ => ?_) (fun o' _ hnot => ?_) h.returned rfl)
  · by_cases hl : l' = l
    · subst hl
      rw [hmoved.walk_self rfl, h.walk_of_locks hlocks, hpc]
      rfl
    · exact hmoved.walk_other (fun heq => hl heq.symm) (h.lock_ne (by rw [hpc]; exact fun heq => hl heq.symm))
  · rintro rfl
    exact h.there l t ((h.owns l t).mpr hlocks) hnone
  · rw [hpc] at ho'
    obtain rfl : o = o' := ho'
    exact ObjectLists.clear_self hfree
  · have hne : o' ≠ o := fun heq => hnot (by rw [hpc]; exact heq.symm)
    split
    · exact ObjectLists.clear_of_ne hne
    · next hlisted =>
      show ((s.lists.clear o).object o').l ≠ none
      rwa [ObjectLists.clear_l]

theorem Represents.go (h : s.Represents a) : Option.Rel Represents (s.go t) (a.go t) := by
  cases hpc : s.pc t with
  | idle =>
    simp only [ListUsers.go, PlainLists.go, h.pc, hpc, ListPc.plain]
    exact .none
  | adding l o => exact h.go_adding hpc
  | removing l o => exact h.go_removing hpc
  | destroying l b => exact h.go_destroying hpc
  | clearing l o b => exact h.go_clearing hpc

theorem Represents.step (h : s.Represents a) (halone : s.AddsAlone act) :
    Option.Rel Represents (s.step act) (a.step act) := by
  cases act with
  | construct => exact h.construct
  | destroy => exact h.destroy
  | add => exact h.add halone
  | remove => exact h.remove
  | go => exact h.go

/-- Whatever threads do with lists, in whatever order, as long as none of them begins to add an object that another one
    is about to add or is letting go of: the pointers hold the lists that they are meant to hold, every `remove` returns
    what it is meant to return, a destructor never throws, and each step is possible exactly where it is meant to be. -/
theorem lists_refine {actions : List (ListAction τ α κ)} (hrun : Run ListUsers.step AddsAlone start actions s) :
    ∃ a, Run PlainLists.step (fun _ _ => True) .start actions a ∧ s.Represents a ∧
      ∀ act, s.AddsAlone act → ((s.step act).isSome ↔ (a.step act).isSome) :=
  hrun.refines (fun _ _ _ hrep halone => hrep.step halone) represents_start

end ListUsers

/-- Two lists. While a thread lets go of the object 0 of the first list, the other one adds 2 to the second; then it
    adds 0 there too, and the first list goes with what it has left. -/
def twoLists : List (ListAction Bool Nat Bool) :=
  [.construct false, .construct true, .add true false 0, .go true, .add true false 1, .go true,
    .remove false false (some 0),
    .add true true 2, .go true, .go false, .add true true 0, .go true, .destroy true false, .go true, .go true,
    .go true]

theorem lists_refine_twoLists : ∃ s : ListUsers Bool Nat Bool, s.returned = [some 0] ∧ s.lists.f false = none ∧
    s.lists.f true = some (some 0) ∧ s.lists.object 0 = ⟨none, some 2, some true⟩ ∧
    s.lists.object 1 = ⟨none, none, none⟩ ∧
    ∃ a, Run PlainLists.step (fun _ _ => True) .start twoLists a ∧ s.Represents a ∧
      ∀ act, s.AddsAlone act → ((s.step act).isSome ↔ (a.step act).isSome) := by
  have hrun : Run ListUsers.step ListUsers.AddsAlone .start twoLists _ :=
    .cons trivial rfl (.cons trivial rfl (.cons (fun | false => id | true => id) rfl (.cons trivial rfl
      (.cons (fun | false => id | true => id) rfl (.cons trivial rfl (.cons trivial rfl
      (.cons (fun | false => fun h => by cases h | true => id) rfl (.cons trivial rfl (.cons trivial rfl
      (.cons (fun | false => id | true => id) rfl
      (.cons trivial rfl (.cons trivial rfl (.cons trivial rfl (.cons trivial rfl
      (.cons trivial rfl (.nil _))))))))))))))))
  exact ⟨_, rfl, rfl, rfl, rfl, rfl, ListUsers.lists_refine hrun⟩

end Dom0
