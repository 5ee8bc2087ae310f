import Mathlib.Data.List.Basic

/-! # Lists that are read in pieces

A list in ascending order is got in pieces: each call asks for what lies at a cursor or behind it, and gets the first
few elements of it. The cursor then goes behind the last element that was got. -/

universe u

variable {α κ σ ε : Type u}

section
variable (pos : κ → Nat) (start : α → Nat) (next : α → κ)

/-- The elements at the cursor or behind it. -/
def behind (all : List α) (c : κ) : List α := all.filter fun x => pos c ≤ start x

/-- What a call gets: the first elements at the cursor or behind it, at least one if there is one. -/
structure Pieces (all : List α) (get : κ → List α) : Prop where
  initial (c : κ) : get c <+: behind pos start all c
  progress (c : κ) : get c = [] → behind pos start all c = []

/-- The elements follow each other and do not overlap. -/
structure Ascending (all : List α) : Prop where
  apart : all.Pairwise fun x y => pos (next x) ≤ start y
  proper : ∀ x ∈ all, start x < pos (next x)

/-- Visits elements one after the other. The cursor goes behind each of them. -/
def visit (f : σ → α → Except ε σ) (s : σ) (c : κ) : List α → Except ε (σ × κ)
  | [] => .ok (s, c)
  | x :: xs =>
    match f s x with
    | .ok s' => visit f s' (next x) xs
    | .error e => .error e

/-- Gets and visits elements until there are none left, for so many rounds at most. -/
def visitPieces (get : κ → List α) (f : σ → α → Except ε σ) : Nat → σ → κ → Option (Except ε (σ × κ))
  | 0, _, _ => none
  | rounds + 1, s, c =>
    match get c with
    | [] => some (.ok (s, c))
    | x :: xs =>
      match visit next f s c (x :: xs) with
      | .ok (s', c') => visitPieces get f rounds s' c'
      | .error e => some (.error e)

end

variable {pos : κ → Nat} {start : α → Nat} {next : α → κ} {all xs ys : List α} {get : κ → List α}
    {f : σ → α → Except ε σ}
  {s : σ} {c : κ} {x : α} {rounds : Nat}

/-- Each call gets up to `n + 1` elements. -/
theorem pieces_take (n : Nat) : Pieces pos start all fun c => (behind pos start all c).take (n + 1) where
  initial _ := List.take_prefix ..
  progress c h := by simpa using h

theorem visit_append : visit next f s c (xs ++ ys) = (visit next f s c xs).bind fun r => visit next f r.1 r.2 ys := by
  induction xs generalizing s c with
  | nil => rfl
  | cons x xs ih =>
    rw [List.cons_append, visit, visit]
    cases f s x with
    | ok s' => exact ih
    | error e => rfl

/-- A visit is a fold, with the cursor behind the last element. -/
theorem visit_eq : visit next f s c xs = (xs.foldlM f s).map fun s' => (s', (xs.getLast?.map next).getD c) := by
  induction xs generalizing s c with
  | nil => rfl
  | cons x xs ih =>
    rw [visit, List.foldlM_cons]
    cases f s x with
    | error e => rfl
    | ok s' =>
      have hlast : (xs.getLast?.map next).getD (next x) = ((x :: xs).getLast?.map next).getD c := by
        rw [List.getLast?_cons]
        cases xs.getLast? <;> rfl
      exact ih.trans (by rw [hlast]; rfl)

/-- The cursor lies behind the last element. -/
theorem visit_cursor {r : σ × κ} (h : visit next f s c (xs ++ [x]) = .ok r) : r.2 = next x := by
  rw [visit_append] at h
  cases hxs : visit next f s c xs with
  | error e =>
    rw [hxs] at h
    cases h
  | ok r' =>
    rw [hxs] at h
    simp only [Except.bind, visit] at h
    cases hx : f r'.1 x with
    | error e =>
      rw [hx] at h
      cases h
    | ok s' =>
      rw [hx] at h
      cases h
      rfl

/-- What lies behind the last element of a piece is the rest of what the piece was taken from. -/
theorem behind_next (hapart : all.Pairwise fun x y => pos (next x) ≤ start y)
    (hproper : ∀ y ∈ xs ++ [x], start y < pos (next y))
    (hbehind : behind pos start all c = xs ++ x :: ys) : behind pos start all (next x) = ys := by
  have hsub : (xs ++ x :: ys).Sublist all := hbehind ▸ List.filter_sublist
  obtain ⟨-, hright, hcross⟩ := List.pairwise_append.mp (hapart.sublist hsub)
  rw [List.pairwise_cons] at hright
  have hx := hproper x (List.mem_append_right _ List.mem_cons_self)
  have hc : pos c ≤ start x := by
    have hmem : x ∈ behind pos start all c := hbehind ▸ List.mem_append_right _ List.mem_cons_self
    exact of_decide_eq_true (List.mem_filter.mp hmem).2
  have hfilter : behind pos start all (next x) = (behind pos start all c).filter fun y => pos (next x) ≤ start y := by
    rw [behind, behind, List.filter_filter]
    refine List.filter_congr fun y _ => ?_
    by_cases hy : pos (next x) ≤ start y
    · have hcy : pos c ≤ start y := by omega
      simp [hy, hcy]
    · simp [hy]
  have hbefore : xs.filter (fun y => pos (next x) ≤ start y) = [] := by
    refine List.filter_eq_nil_iff.mpr fun y hy => ?_
    have hyx := hcross y hy x List.mem_cons_self
    have hyy := hproper y (List.mem_append_left _ hy)
    simp only [decide_eq_true_eq]
    omega
  have hafter : ys.filter (fun y => pos (next x) ≤ start y) = ys :=
    List.filter_eq_self.mpr fun y hy => decide_eq_true (hright.1 y hy)
  rw [hfilter, hbehind, List.filter_append, hbefore, List.nil_append, List.filter_cons_of_neg (by simp; omega), hafter]

theorem visitPieces_piece (hpiece : get c = xs) (hne : xs ≠ []) : visitPieces next get f (rounds + 1) s c =
    match visit next f s c xs with
    | .ok (s', c') => visitPieces next get f rounds s' c'
    | .error e => some (.error e) := by
  obtain ⟨x, xs, rfl⟩ := List.exists_cons_of_ne_nil hne
  rw [visitPieces, hpiece]

/-- Pieces of any size come to the same as the whole. -/
theorem visitPieces_eq (hget : Pieces pos start all get) (h : Ascending pos start next all)
    (hrounds : (behind pos start all c).length < rounds) :
    visitPieces next get f rounds s c = some (visit next f s c (behind pos start all c)) := by
  induction rounds generalizing s c with
  | zero => exact absurd hrounds (Nat.not_lt_zero _)
  | succ rounds ih =>
    rcases List.eq_nil_or_concat' (get c) with hpiece | ⟨front, last, hpiece⟩
    · rw [visitPieces, hpiece, hget.progress c hpiece, visit]
    · obtain ⟨rest, hrest⟩ := hget.initial c
      rw [hpiece] at hrest
      have hsplit : behind pos start all c = front ++ last :: rest := by
        rw [← hrest, List.append_assoc, List.singleton_append]
      have hbehind : behind pos start all (next last) = rest := by
        refine behind_next h.apart (fun y hy => h.proper y ?_) hsplit
        exact (List.mem_filter.mp ((hget.initial c).subset (hpiece ▸ hy))).1
      have happend : visit next f s c ((front ++ [last]) ++ rest) =
          (visit next f s c (front ++ [last])).bind fun r => visit next f r.1 r.2 rest := visit_append
      rw [visitPieces_piece hpiece (List.append_ne_nil_of_right_ne_nil _ (List.cons_ne_nil last [])), ← hrest, happend]
      cases hvisit : visit next f s c (front ++ [last]) with
      | error e => rfl
      | ok r =>
        obtain ⟨s', c'⟩ := r
        obtain rfl : c' = next last := visit_cursor hvisit
        have hlen := congrArg List.length hrest
        simp only [List.length_append, List.length_singleton] at hlen
        simp only [Except.bind]
        rw [ih (by rw [hbehind]; omega), hbehind]

/-! ### Where the cursor goes back to the first element -/

theorem visitPieces_mono {r : Except ε (σ × κ)} (h : visitPieces next get f rounds s c = some r) (more : Nat) :
    visitPieces next get f (rounds + more) s c = some r := by
  induction rounds generalizing s c with
  | zero => cases h
  | succ rounds ih =>
    rw [Nat.add_right_comm, visitPieces]
    rw [visitPieces] at h
    split at h
    · exact h
    · cases hvisit : visit next f s c _ with
      | error e =>
        rw [hvisit] at h
        exact h
      | ok r =>
        rw [hvisit] at h
        exact ih h

/-- Everything at the cursor or behind it is visited in so many rounds. -/
theorem visitPieces_turn (hget : Pieces pos start all get) (hapart : all.Pairwise fun x y => pos (next x) ≤ start y)
    (hproper : ∀ y ∈ (behind pos start all c).dropLast, start y < pos (next y)) (hne : behind pos start all c ≠ []) :
    ∃ n, 0 < n ∧ n ≤ (behind pos start all c).length ∧ ∀ rounds s, visitPieces next get f (n + rounds) s c =
      match visit next f s c (behind pos start all c) with
      | .ok (s', c') => visitPieces next get f rounds s' c'
      | .error e => some (.error e) := by
  induction hlen : (behind pos start all c).length using Nat.strongRecOn generalizing c with
  | ind len ih =>
    rcases List.eq_nil_or_concat' (get c) with hpiece | ⟨front, last, hpiece⟩
    · exact absurd (hget.progress c hpiece) hne
    obtain ⟨rest, hrest⟩ := hget.initial c
    rw [hpiece] at hrest
    have hround : ∀ rounds s, visitPieces next get f (rounds + 1) s c = match visit next f s c (front ++ [last]) with
        | .ok (s', c') => visitPieces next get f rounds s' c'
        | .error e => some (.error e) :=
      fun rounds s => visitPieces_piece hpiece (List.append_ne_nil_of_right_ne_nil _ (List.cons_ne_nil last []))
    rw [← hrest, List.length_append, List.length_append, List.length_singleton] at hlen
    by_cases hempty : rest = []
    · -- The piece is all that there is.
      refine ⟨1, Nat.one_pos, by omega, fun rounds s => ?_⟩
      rw [Nat.add_comm, hround, ← hrest, hempty, List.append_nil]
    · have hsplit : behind pos start all c = front ++ last :: rest := by
        rw [← hrest, List.append_assoc, List.singleton_append]
      rw [← hrest, List.dropLast_append_of_ne_nil hempty] at hproper
      have hbehind : behind pos start all (next last) = rest :=
        behind_next hapart (fun y hy => hproper y (List.mem_append_left _ hy)) hsplit
      obtain ⟨n, hpos, hle, hturn⟩ := ih rest.length (by omega) (c := next last)
        (by rw [hbehind]; exact fun y hy => hproper y (List.mem_append_right _ hy)) (by rwa [hbehind]) (by rw [hbehind])
      refine ⟨n + 1, Nat.succ_pos n, by omega, fun rounds s => ?_⟩
      have happend : visit next f s c ((front ++ [last]) ++ rest) =
          (visit next f s c (front ++ [last])).bind fun r => visit next f r.1 r.2 rest := visit_append
      rw [Nat.add_right_comm, hround, ← hrest, happend]
      cases hvisit : visit next f s c (front ++ [last]) with
      | error e => rfl
      | ok r =>
        obtain ⟨s', c'⟩ := r
        obtain rfl : c' = next last := visit_cursor hvisit
        rw [hbehind] at hturn
        exact hturn rounds s'

/-- Where the last element leads back to the cursor, everything is visited again and again. -/
theorem visitPieces_turns (hget : Pieces pos start all get) (hapart : all.Pairwise fun x y => pos (next x) ≤ start y)
    (hproper : ∀ y ∈ all.dropLast, start y < pos (next y)) (hall : behind pos start all c = all)
    (hlast : all.getLast?.map next = some c) :
    ∃ n, 0 < n ∧ n ≤ all.length ∧ ∀ k rounds s, visitPieces next get f (k * n + rounds) s c =
      match (List.replicate k all).flatten.foldlM f s with
      | .ok s' => visitPieces next get f rounds s' c
      | .error e => some (.error e) := by
  have hne : all ≠ [] := by
    rintro rfl
    cases hlast
  obtain ⟨n, hpos, hle, hturn⟩ := visitPieces_turn (f := f) (c := c) hget hapart (by rwa [hall]) (by rwa [hall])
  rw [hall] at hle hturn
  refine ⟨n, hpos, hle, fun k rounds s => ?_⟩
  induction k generalizing s with
  | zero =>
    rw [Nat.zero_mul, Nat.zero_add]
    rfl
  | succ k ih =>
    rw [show (k + 1) * n + rounds = n + (k * n + rounds) by rw [Nat.succ_mul]; omega, hturn, visit_eq, hlast,
      List.replicate_succ, List.flatten_cons, List.foldlM_append]
    cases all.foldlM f s with
    | error e => rfl
    | ok s' => exact ih s'

/-- A loop that goes through `first` and then through `again` for ever: it ends exactly if something is refused. -/
structure Endless {τ : Type u} (result : Nat → Option (Except ε τ)) (f : σ → α → Except ε σ) (s : σ)
    (first again : List α) : Prop where
  refused (k : Nat) (e : ε) (h : (first ++ (List.replicate k again).flatten).foldlM f s = .error e) :
    ∃ enough, ∀ rounds, enough ≤ rounds → result rounds = some (.error e)
  endless (h : ∀ k, ∃ s', (first ++ (List.replicate k again).flatten).foldlM f s = .ok s') (rounds : Nat) :
    result rounds = none

/-- Of elements in ascending order, what lies behind a cursor ends with the last one. -/
theorem behind_getLast (hapart : all.Pairwise fun x y => pos (next x) ≤ start y)
    (hproper : ∀ y ∈ all.dropLast, start y < pos (next y)) (hne : behind pos start all c ≠ []) :
    ∃ front x, behind pos start all c = front ++ [x] ∧ all.getLast? = some x ∧ front.Sublist all.dropLast := by
  rcases List.eq_nil_or_concat' all with rfl | ⟨front, x, rfl⟩
  · exact absurd rfl hne
  rw [List.dropLast_concat] at hproper ⊢
  have hx : pos c ≤ start x := by
    obtain ⟨y, hy⟩ := List.exists_mem_of_ne_nil _ hne
    obtain ⟨hmem, hcy⟩ := List.mem_filter.mp hy
    have hcy := of_decide_eq_true hcy
    rcases List.mem_append.mp hmem with hfront | hlast
    · have hnext := (List.pairwise_append.mp hapart).2.2 y hfront x List.mem_cons_self
      have hstart := hproper y hfront
      omega
    · rwa [List.mem_singleton.mp hlast] at hcy
  refine ⟨front.filter fun y => pos c ≤ start y, x, ?_, List.getLast?_concat .., List.filter_sublist⟩
  rw [behind, List.filter_append, List.filter_cons_of_pos (by simpa using hx), List.filter_nil]

theorem visitPieces_endless {c₀ : κ} (hget : Pieces pos start all get)
    (hapart : all.Pairwise fun x y => pos (next x) ≤ start y)
    (hproper : ∀ y ∈ all.dropLast, start y < pos (next y)) (hall : behind pos start all c₀ = all)
    (hlast : all.getLast?.map next = some c₀) (hne : behind pos start all c ≠ []) :
    Endless (fun rounds => visitPieces next get f rounds s c) f s (behind pos start all c) all := by
  obtain ⟨front, x, hbehind, hx, hsub⟩ := behind_getLast hapart hproper hne
  have hnext : (behind pos start all c).getLast?.map next = some c₀ := by
    rw [hx] at hlast
    rw [hbehind, List.getLast?_concat]
    exact hlast
  obtain ⟨n, hpos, -, hturn⟩ := visitPieces_turn (f := f) hget hapart
    (by rw [hbehind, List.dropLast_concat]; exact fun y hy => hproper y (hsub.subset hy)) hne
  obtain ⟨n', hpos', -, hturns⟩ := visitPieces_turns (f := f) hget hapart hproper hall hlast
  have hrounds : ∀ k rounds, visitPieces next get f (n + (k * n' + rounds)) s c =
      match (behind pos start all c ++ (List.replicate k all).flatten).foldlM f s with
      | .ok s' => visitPieces next get f rounds s' c₀
      | .error e => some (.error e) := by
    intro k rounds
    rw [hturn, visit_eq, hnext, List.foldlM_append]
    cases (behind pos start all c).foldlM f s with
    | error e => rfl
    | ok s' => exact hturns k rounds s'
  constructor
  · intro k e herror
    refine ⟨n + k * n', fun rounds hle => ?_⟩
    obtain ⟨more, rfl⟩ := Nat.exists_eq_add_of_le hle
    show visitPieces next get f (n + k * n' + more) s c = _
    rw [Nat.add_assoc, hrounds, herror]
  · intro hok rounds
    -- If it ended after these rounds, so it would after as many turns.
    cases hend : visitPieces next get f rounds s c with
    | none => rfl
    | some r =>
      obtain ⟨s', hs'⟩ := hok rounds
      have hnone := hrounds rounds 0
      rw [hs'] at hnone
      obtain ⟨more, hmore⟩ := Nat.exists_eq_add_of_le (show rounds ≤ n + (rounds * n' + 0) by
        have := Nat.le_mul_of_pos_right rounds hpos'
        omega)
      rw [hmore, visitPieces_mono hend] at hnone
      cases hnone
