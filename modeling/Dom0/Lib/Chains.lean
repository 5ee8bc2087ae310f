import Mathlib.Data.List.Sort
import Mathlib.Logic.Function.Basic

/-! # Singly linked lists

A list of nodes in memory, with a pointer to its first node and one in each node to the next. A node is inserted through
a pointer to the pointer that is changed, as `for (f = &head; *f && ..; f = &(*f)->next)` finds it. -/

universe u

/-- The pointers of a list. -/
structure Chain (ν : Type u) where
  head : Option ν
  next : ν → Option ν

/-- A pointer to one of these pointers. -/
inductive Chain.Place (ν : Type u)
  | head
  | next (n : ν)
deriving DecidableEq

namespace Chain
variable {ν : Type u}

def get (s : Chain ν) : Place ν → Option ν
  | .head => s.head
  | .next n => s.next n

/-- These nodes follow each other from a place on. -/
def Holds (s : Chain ν) : Place ν → List ν → Prop
  | f, [] => s.get f = none
  | f, n :: ns => s.get f = some n ∧ Holds s (.next n) ns

/-- The first place whose node the loop does not go past, for so many rounds at most. -/
def find (s : Chain ν) (past : ν → Bool) : Nat → Place ν → Option (Place ν)
  | 0, _ => none
  | rounds + 1, f =>
    match s.get f with
    | some n => if past n then find s past rounds (.next n) else some f
    | none => some f

/-- The nodes from a pointer on, for so many rounds at most. -/
def walk (s : Chain ν) : Nat → Option ν → Option (List ν)
  | 0, _ => none
  | _ + 1, none => some []
  | rounds + 1, some n => (walk s rounds (s.next n)).map (n :: ·)

theorem Holds.walk {s : Chain ν} {f : Place ν} {ns : List ν} {rounds : Nat} (h : s.Holds f ns)
    (hrounds : ns.length < rounds) :
    s.walk rounds (s.get f) = some ns := by
  induction ns generalizing f rounds with
  | nil =>
    obtain ⟨rounds, rfl⟩ := Nat.exists_eq_add_of_lt hrounds
    rw [show s.get f = none from h, Chain.walk]
  | cons n ns ih =>
    cases rounds with
    | zero => exact absurd hrounds (Nat.not_lt_zero _)
    | succ rounds =>
      have htail : s.walk rounds (s.next n) = some ns := ih h.2 (Nat.lt_of_succ_lt_succ hrounds)
      rw [h.1, Chain.walk, htail]
      rfl

theorem Holds.congr {s s' : Chain ν} {f : Place ν} {ns : List ν} (h : s.Holds f ns) (hf : s'.get f = s.get f)
    (hnext : ∀ n ∈ ns, s'.get (.next n) = s.get (.next n)) : s'.Holds f ns := by
  induction ns generalizing f with
  | nil => exact hf.trans h
  | cons n ns ih =>
    exact ⟨hf.trans h.1, ih h.2 (hnext n List.mem_cons_self) fun m hm => hnext m (List.mem_cons_of_mem n hm)⟩

variable [DecidableEq ν]

def put (s : Chain ν) : Place ν → Option ν → Chain ν
  | .head, p => { s with head := p }
  | .next n, p => { s with next := Function.update s.next n p }

/-- A node is linked in at a place. -/
def link (s : Chain ν) (f : Place ν) (n : ν) : Chain ν := (s.put (.next n) (s.get f)).put f (some n)

variable {s : Chain ν} {f g : Place ν} {p : Option ν} {n : ν} {ns : List ν} {rounds : Nat}

@[simp] theorem get_put_self : (s.put f p).get f = p := by
  cases f with
  | head => rfl
  | next n => exact Function.update_self ..

theorem get_put_of_ne (hne : g ≠ f) : (s.put f p).get g = s.get g := by
  cases f with
  | head =>
    cases g with
    | head => exact absurd rfl hne
    | next => rfl
  | next n =>
    cases g with
    | head => rfl
    | next m => exact Function.update_of_ne (fun heq => hne (congrArg Place.next heq)) ..

theorem get_link_self : (s.link f n).get f = some n := get_put_self

theorem get_link_next (hne : f ≠ .next n) : (s.link f n).get (.next n) = s.get f := by
  rw [link, get_put_of_ne hne.symm, get_put_self]

theorem get_link_of_ne (hf : g ≠ f) (hn : g ≠ .next n) : (s.link f n).get g = s.get g := by
  rw [link, get_put_of_ne hf, get_put_of_ne hn]

/-- A node is inserted ahead of the first node that the loop does not go past. -/
theorem Holds.link (h : s.Holds f ns) (past : ν → Bool) (hnodup : ns.Nodup) (hf : ∀ m ∈ ns, f ≠ .next m) (hn : n ∉ ns)
    (hfn : f ≠ .next n) (hrounds : ns.length < rounds) :
    ∃ g, s.find past rounds f = some g ∧ (g = f ∨ ∃ m ∈ ns, g = .next m) ∧
      (s.link g n).Holds f (ns.takeWhile past ++ n :: ns.dropWhile past) := by
  induction ns generalizing f rounds with
  | nil =>
    cases rounds with
    | zero => exact absurd hrounds (Nat.not_lt_zero _)
    | succ rounds =>
      have hget : s.get f = none := h
      exact ⟨f, by rw [find, hget], Or.inl rfl, get_link_self, (get_link_next hfn).trans hget⟩
  | cons a ns ih =>
    obtain ⟨hget, htail⟩ := h
    obtain ⟨ha, hnodup⟩ := List.nodup_cons.mp hnodup
    have hna : n ≠ a := fun heq => hn (heq ▸ List.mem_cons_self)
    have hn : n ∉ ns := fun hm => hn (List.mem_cons_of_mem a hm)
    cases rounds with
    | zero => exact absurd hrounds (Nat.not_lt_zero _)
    | succ rounds =>
      cases hpast : past a with
      | true =>
        obtain ⟨g, hfind, hg, hholds⟩ := ih htail hnodup (fun m hm heq => ha (Place.next.inj heq ▸ hm)) hn
          (fun heq => hna (Place.next.inj heq).symm) (Nat.lt_of_succ_lt_succ hrounds)
        have hg' : ∃ m ∈ a :: ns, g = .next m := by
          rcases hg with rfl | ⟨m, hm, rfl⟩
          · exact ⟨a, List.mem_cons_self, rfl⟩
          · exact ⟨m, List.mem_cons_of_mem a hm, rfl⟩
        have hne : f ≠ g := by
          obtain ⟨m, hm, rfl⟩ := hg'
          exact hf m hm
        refine ⟨g, by rw [find, hget]; simpa only [hpast, if_true] using hfind, Or.inr hg', ?_⟩
        rw [List.takeWhile_cons_of_pos hpast, List.dropWhile_cons_of_pos hpast]
        exact ⟨(get_link_of_ne hne hfn).trans hget, hholds⟩
      | false =>
        refine ⟨f, by rw [find, hget]; simp only [hpast, Bool.false_eq_true, if_false], Or.inl rfl, ?_⟩
        rw [List.takeWhile_cons_of_neg (by simp [hpast]), List.dropWhile_cons_of_neg (by simp [hpast])]
        refine ⟨get_link_self, (get_link_next hfn).trans hget, htail.congr ?_ fun m hm => ?_⟩
        · exact get_link_of_ne (hf a List.mem_cons_self).symm fun heq => hna (Place.next.inj heq).symm
        · refine get_link_of_ne (hf m (List.mem_cons_of_mem a hm)).symm fun heq => hn (Place.next.inj heq ▸ hm)

end Chain
