import Dom0.Ned.LuaLibs

/-! Whatever the order in which the parts of the Lua interface are constructed, each is initialized once, those with
types of capabilities before those of the environment, and among equals the one constructed last is the first. -/

namespace Dom0
namespace LuaLibs
variable {α ℓ : Type}

/-- The order on constructed parts that their priorities give. -/
def before (x y : α × LibPrio) : Prop := x.2 ≤ y.2

instance : DecidableRel (before (α := α)) := fun x y => inferInstanceAs (Decidable (x.2 ≤ y.2))

instance : Std.Total (before (α := α)) := ⟨fun x y => le_total x.2 y.2⟩

instance : IsTrans (α × LibPrio) before := ⟨fun _ _ _ => le_trans⟩

/-- The parts as they stand on the list, the last one constructed first. -/
def listed (built : List (α × LibPrio)) : List (α × LibPrio) := built.insertionSort before

theorem listed_perm (built : List (α × LibPrio)) : (listed built).Perm built := List.perm_insertionSort before built

theorem listed_cons (x : α × LibPrio) (built : List (α × LibPrio)) :
    listed (x :: built) =
      (listed built).takeWhile (fun y => y.2 < x.2) ++ x :: (listed built).dropWhile (fun y => y.2 < x.2) := by
  have hpast : (fun y => decide ¬before x y) = fun y : α × LibPrio => decide (y.2 < x.2) :=
    funext fun y => decide_eq_decide.2 not_le
  rw [listed, List.insertionSort_cons, List.orderedInsert_eq_take_drop, hpast]
  rfl

theorem listed_filter (built : List (α × LibPrio)) (p : LibPrio) :
    (listed built).filter (fun x => x.2 = p) = built.filter fun x => x.2 = p := by
  have hsorted : (built.filter fun x => x.2 = p).Pairwise before := by
    refine List.pairwise_of_forall_mem_list fun x hx y hy => ?_
    have hxp : x.2 = p := of_decide_eq_true (List.mem_filter.1 hx).2
    have hyp : y.2 = p := of_decide_eq_true (List.mem_filter.1 hy).2
    exact (hxp.trans hyp.symm).le
  have hsub : (built.filter fun x => x.2 = p).Sublist (listed built) :=
    List.sublist_insertionSort hsorted List.filter_sublist
  have hsub' : (built.filter fun x => x.2 = p).Sublist ((listed built).filter fun x => x.2 = p) := by
    simpa only [List.filter_filter, Bool.and_self] using hsub.filter fun x => decide (x.2 = p)
  exact (hsub'.eq_of_length ((listed_perm built).filter _).length_eq.symm).symm

theorem takeWhile_congr {xs : List α} {p q : α → Bool} (h : ∀ x ∈ xs, p x = q x) : xs.takeWhile p = xs.takeWhile q := by
  induction xs with
  | nil => rfl
  | cons x xs ih =>
    rw [List.takeWhile_cons, List.takeWhile_cons, h x List.mem_cons_self,
      ih fun y hy => h y (List.mem_cons_of_mem x hy)]

theorem dropWhile_congr {xs : List α} {p q : α → Bool} (h : ∀ x ∈ xs, p x = q x) : xs.dropWhile p = xs.dropWhile q := by
  induction xs with
  | nil => rfl
  | cons x xs ih =>
    rw [List.dropWhile_cons, List.dropWhile_cons, h x List.mem_cons_self,
      ih fun y hy => h y (List.mem_cons_of_mem x hy)]

variable {s : LuaLibs α} {init : α → ℓ → ℓ} {built order : List (α × LibPrio)} {rounds : Nat} {l : ℓ}

/-- The list holds these parts, each with its priority. -/
structure Built (s : LuaLibs α) (built : List (α × LibPrio)) : Prop where
  parts : s.parts.Holds .head ((listed built).map Prod.fst)
  prio : ∀ x ∈ built, s.prio x.1 = x.2

theorem built_zeroed : (zeroed : LuaLibs α).Built [] := ⟨rfl, fun _ h => absurd h List.not_mem_nil⟩

theorem Built.construct [DecidableEq α] (h : s.Built built) (this : α) (prio : LibPrio)
    (hnodup : (((this, prio) :: built).map Prod.fst).Nodup) (hrounds : built.length < rounds) :
    ∃ s', s.construct rounds this prio = some s' ∧ s'.Built ((this, prio) :: built) := by
  obtain ⟨hthis, hbuilt⟩ := List.nodup_cons.1 hnodup
  have hperm : ((listed built).map Prod.fst).Perm (built.map Prod.fst) := (listed_perm built).map _
  have hnew : this ∉ (listed built).map Prod.fst := fun hm => hthis (hperm.mem_iff.1 hm)
  have hprio : ∀ x ∈ built, Function.update s.prio this prio x.1 = x.2 := by
    intro x hx
    have hne : x.1 ≠ this := fun heq => hthis (List.mem_map.2 ⟨x, hx, heq⟩)
    rw [Function.update_of_ne hne]
    exact h.prio x hx
  have hparts : (s.parts.put (.next this) none).Holds .head ((listed built).map Prod.fst) := by
    refine h.parts.congr (Chain.get_put_of_ne nofun) fun m hm => ?_
    exact Chain.get_put_of_ne fun heq => hnew (Chain.Place.next.inj heq ▸ hm)
  obtain ⟨f, hfind, -, hlinked⟩ := hparts.link (fun c => Function.update s.prio this prio c < prio)
    (hperm.nodup_iff.2 hbuilt) (fun _ _ => nofun) hnew nofun
    (by simpa [(listed_perm built).length_eq] using hrounds)
  refine ⟨_, by rw [LuaLibs.construct, hfind]; rfl, ?_, ?_⟩
  · -- The loop looks at the priority of a part on the list, which is that of the part as it was constructed.
    have hpast : ∀ x ∈ listed built,
        ((fun c => decide (Function.update s.prio this prio c < prio)) ∘ Prod.fst) x = decide (x.2 < prio) := by
      intro x hx
      exact congrArg (fun p => decide (p < prio)) (hprio x ((listed_perm built).mem_iff.1 hx))
    rw [List.takeWhile_map, List.dropWhile_map, takeWhile_congr hpast, dropWhile_congr hpast] at hlinked
    rw [listed_cons, List.map_append, List.map_cons]
    exact hlinked
  · intro x hx
    rcases List.mem_cons.1 hx with rfl | hx
    · exact Function.update_self ..
    · exact hprio x hx

theorem Built.constructAll [DecidableEq α] (h : s.Built built) (hnodup : ((order.reverse ++ built).map Prod.fst).Nodup)
    (hrounds : order.length + built.length ≤ rounds) :
    ∃ s', s.constructAll rounds order = some s' ∧ s'.Built (order.reverse ++ built) := by
  induction order generalizing s built with
  | nil => exact ⟨s, rfl, h⟩
  | cons x order ih =>
    obtain ⟨this, prio⟩ := x
    have hsplit : ((this, prio) :: order).reverse ++ built = order.reverse ++ (this, prio) :: built := by
      rw [List.reverse_cons, List.append_assoc, List.singleton_append]
    rw [List.length_cons] at hrounds
    rw [hsplit] at hnodup ⊢
    have hfirst : (((this, prio) :: built).map Prod.fst).Nodup := by
      rw [List.map_append] at hnodup
      exact hnodup.of_append_right
    have hroom : built.length < rounds := by omega
    obtain ⟨s₁, hs₁, hbuilt⟩ := h.construct this prio hfirst hroom
    have hrest : order.length + ((this, prio) :: built).length ≤ rounds := by
      rw [List.length_cons]
      omega
    obtain ⟨s', hs', hall⟩ := ih hbuilt hnodup hrest
    exact ⟨s', by rw [LuaLibs.constructAll, hs₁]; exact hs', hall⟩

theorem runInitFrom_of_walk {p : Option α} {parts : List α} (h : s.parts.walk rounds p = some parts) :
    s.runInitFrom init rounds p l = some (parts.foldl (fun l c => init c l) l) := by
  induction rounds generalizing p parts l with
  | zero => cases h
  | succ rounds ih =>
    cases p with
    | none =>
      cases h
      rfl
    | some c =>
      obtain ⟨rest, hrest, rfl⟩ := Option.map_eq_some_iff.1 h
      exact ih hrest

/-- Parts that are constructed once each, in any order, end up on a list that `run_init` follows to its end: it has each
    part once, in the order of priorities, and the parts of one priority in reverse. -/
theorem runInit_order [DecidableEq α] (hnodup : (order.map Prod.fst).Nodup) (hrounds : order.length < rounds) :
    ∃ (s : LuaLibs α) (parts : List α), zeroed.constructAll rounds order = some s ∧
      (∀ (ℓ : Type) (init : α → ℓ → ℓ) l, s.runInit init rounds l = some (parts.foldl (fun l c => init c l) l)) ∧
      parts.Perm (order.map Prod.fst) ∧ parts.Pairwise (fun a b => s.prio a ≤ s.prio b) ∧
      ∀ p, parts.filter (fun c => s.prio c = p) = ((order.filter fun x => x.2 = p).map Prod.fst).reverse := by
  have hreverse : ((order.reverse ++ []).map Prod.fst).Nodup := by simpa [List.map_reverse] using hnodup
  obtain ⟨s, hs, hbuilt⟩ := built_zeroed.constructAll hreverse hrounds.le
  rw [List.append_nil] at hbuilt
  have hperm : (listed order.reverse).Perm order := (listed_perm _).trans order.reverse_perm
  have hprio : ∀ x ∈ listed order.reverse, s.prio x.1 = x.2 := fun x hx => hbuilt.prio x ((listed_perm _).mem_iff.1 hx)
  refine ⟨s, (listed order.reverse).map Prod.fst, hs, fun ℓ init l => ?_, hperm.map _, ?_, fun p => ?_⟩
  · exact runInitFrom_of_walk (hbuilt.parts.walk (by simpa [hperm.length_eq] using hrounds))
  · refine List.pairwise_map.2 ((List.pairwise_insertionSort before order.reverse).imp_of_mem fun hx hy hle => ?_)
    rw [hprio _ hx, hprio _ hy]
    exact hle
  · have hfilter : (listed order.reverse).filter (fun x => s.prio x.1 = p) =
        (listed order.reverse).filter fun x => x.2 = p :=
      List.filter_congr fun x hx => by rw [hprio x hx]
    rw [List.filter_map, ← List.map_reverse, ← List.filter_reverse, ← listed_filter]
    exact congrArg (List.map Prod.fst) hfilter

theorem runInit_order_three :
    ([(0, LibPrio.env), (1, .capType), (2, .env)].map Prod.fst).Nodup ∧
      ∃ (s : LuaLibs ℕ) (parts : List ℕ), zeroed.constructAll 4 [(0, LibPrio.env), (1, .capType), (2, .env)] = some s ∧
        (∀ (ℓ : Type) (init : ℕ → ℓ → ℓ) l, s.runInit init 4 l = some (parts.foldl (fun l c => init c l) l)) ∧
        parts.Perm ([(0, LibPrio.env), (1, .capType), (2, .env)].map Prod.fst) ∧
        parts.Pairwise (fun a b => s.prio a ≤ s.prio b) ∧
        ∀ p, parts.filter (fun c => s.prio c = p) =
          (([(0, LibPrio.env), (1, .capType), (2, .env)].filter fun x => x.2 = p).map Prod.fst).reverse :=
  ⟨by decide, runInit_order (by decide) (by decide)⟩

end LuaLibs
end Dom0
