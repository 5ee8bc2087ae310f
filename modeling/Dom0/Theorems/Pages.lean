import Dom0.Kernel.Pages
import Dom0.Lib.Runs
import Dom0.Lib.Words
import Mathlib.Data.List.Perm.Subperm
import Mathlib.Data.List.Range

/-! Whoever takes pages of the heap of l4re_kernel, and whoever frees them: no page is held twice, all of them lie in
the heap, and a request fails exactly where the arguments of `mmap` are not those of one page or all pages are held. -/

namespace Dom0

/-- What an `Item_alloc` of `count` items is documented to do; `taken` are the items that it gave out. -/
structure ItemAlloc.Keeps {σ : Type} (A : ItemAlloc σ) (count : Nat) (taken : σ → Nat → Prop) : Prop where
  alloc_item : ∀ s, 0 ≤ (A.alloc s).2 → (A.alloc s).2 < count ∧ ¬taken s (A.alloc s).2.toNat ∧
    ∀ n, taken (A.alloc s).1 n ↔ taken s n ∨ n = (A.alloc s).2.toNat
  alloc_none : ∀ s, (A.alloc s).2 < 0 → (∀ n < count, taken s n) ∧ ∀ n, taken (A.alloc s).1 n ↔ taken s n
  free : ∀ s n, n < count → ∀ k, taken (A.free s n) k ↔ taken s k ∧ k ≠ n

section
variable {w : Word} {σ : Type} {A : ItemAlloc σ} {taken : σ → Nat → Prop} {s s' : Pages σ w} {h : σ} {i j : Nat}
    {p : ULong w}
  {length : SizeT w} {flags : CInt} {offset : SSizeT w} {a : PageAction w}

/-- The `i`-th page. -/
def page (i : Nat) : ULong w := BitVec.ofNat _ (heapBase + l4Pagesize * i)

theorem toNat_page (hi : i < heapPages) : (page i : ULong w).toNat = heapBase + l4Pagesize * i := by
  have hpow := w.two_pow_le
  simp only [heapPages, heapMax, l4Pagesize] at hi
  rw [page, BitVec.toNat_ofNat, Nat.mod_eq_of_lt]
  simp only [heapBase, l4Pagesize]
  omega

theorem page_inj (hi : i < heapPages) (hj : j < heapPages) (h : (page i : ULong w) = page j) : i = j := by
  have htoNat := congrArg BitVec.toNat h
  rw [toNat_page hi, toNat_page hj] at htoNat
  simp only [l4Pagesize] at htoNat
  omega

theorem page_ne_zero (hi : i < heapPages) : (page i : ULong w) ≠ 0 := by
  intro h
  have htoNat := congrArg BitVec.toNat h
  rw [toNat_page hi] at htoNat
  simp [heapBase] at htoNat

theorem pageAlloc_of_nonneg (hA : A.Keeps heapPages taken) (hpos : 0 ≤ (A.alloc h).2) :
    (pageAlloc A h : σ × ULong w) = ((A.alloc h).1, page (A.alloc h).2.toNat) := by
  obtain ⟨hlt, -⟩ := hA.alloc_item h hpos
  obtain ⟨n, hn⟩ := Int.eq_ofNat_of_zero_le hpos
  rw [pageAlloc, if_neg (by omega), page, hn]
  congr 1
  rw [Int.toNat_natCast, BitVec.ofNat_add, ← Int.natCast_mul, BitVec.ofInt_natCast, Nat.mul_comm n]

theorem pageAlloc_of_neg (hneg : (A.alloc h).2 < 0) : (pageAlloc A h : σ × ULong w) = ((A.alloc h).1, 0) := by
  rw [pageAlloc, if_pos hneg]

theorem pageFree_page (hi : i < heapPages) : pageFree A h (page i : ULong w) = A.free h i := by
  have hpow := w.two_pow_le
  have hsub : (page i : ULong w) - BitVec.ofNat _ heapBase = BitVec.ofNat _ (l4Pagesize * i) := by
    rw [page, BitVec.ofNat_add, BitVec.add_comm, BitVec.add_sub_cancel]
  have hi' := hi
  simp only [heapPages, heapMax, l4Pagesize] at hi'
  rw [pageFree, hsub, BitVec.toNat_udiv, BitVec.toNat_ofNat, BitVec.toNat_ofNat, Nat.mod_eq_of_lt, Nat.mod_eq_of_lt,
    Nat.mul_div_cancel_left]
  · decide
  · simp only [l4Pagesize]
    omega
  · simp only [l4Pagesize]
    omega

/-- The lengths that are rounded up to one page. -/
theorem rounds_to_page_iff : (length + BitVec.ofNat _ (l4Pagesize - 1)) &&& ~~~BitVec.ofNat _ (l4Pagesize - 1) =
    BitVec.ofNat _ l4Pagesize ↔ 1 ≤ length.toNat ∧ length.toNat ≤ l4Pagesize := by
  have hpow := w.two_pow_le
  have hmask : (~~~BitVec.ofNat (8 * w.bytes) (l4Pagesize - 1)) = BitVec.allOnes _ <<< 12 := by cases w <;> decide
  have hlow : (BitVec.ofNat (8 * w.bytes) (l4Pagesize - 1)).toNat = 4095 := by cases w <;> rfl
  have hpage : (BitVec.ofNat (8 * w.bytes) l4Pagesize).toNat = 4096 := by cases w <;> rfl
  have hlt := length.isLt
  rw [hmask, ← BitVec.toNat_inj, BitVec.toNat_and_shiftLeft_allOnes, BitVec.toNat_add, hlow, hpage, l4Pagesize]
  by_cases hwrap : length.toNat + 4095 < 2 ^ (8 * w.bytes)
  · rw [Nat.mod_eq_of_lt hwrap]
    omega
  · rw [Nat.mod_eq_sub_mod (by omega), Nat.mod_eq_of_lt (by omega)]
    omega

/-! ## All users -/

namespace Pages

/-- What is held is what the allocator gave out. -/
structure Sound (taken : σ → Nat → Prop) (s : Pages σ w) : Prop where
  nodup : s.held.Nodup
  mem_iff : ∀ p, p ∈ s.held ↔ ∃ i < heapPages, p = page i ∧ taken s.heap i

/-- A page that is freed is held. -/
def FreesHeld (s : Pages σ w) : PageAction w → Prop
  | .free p => p ∈ s.held
  | .alloc | .mmap _ _ _ => True

theorem Sound.taken_iff (hs : s.Sound taken) (hi : i < heapPages) : taken s.heap i ↔ page i ∈ s.held := by
  rw [hs.mem_iff]
  constructor
  · intro ht
    exact ⟨i, hi, rfl, ht⟩
  · rintro ⟨j, hj, heq, ht⟩
    rwa [page_inj hi hj heq]

/-- A page that is given out was not held. -/
theorem Sound.pageAlloc (hA : A.Keeps heapPages taken) (hs : s.Sound taken) :
    let r : σ × ULong w := Dom0.pageAlloc A s.heap
    if r.2 = 0 then Sound taken ⟨r.1, s.held⟩ ∧ ∀ i < heapPages, page i ∈ s.held
    else Sound taken ⟨r.1, r.2 :: s.held⟩ ∧ r.2 ∉ s.held := by
  by_cases hneg : (A.alloc s.heap).2 < 0
  · obtain ⟨hall, hsame⟩ := hA.alloc_none s.heap hneg
    simp only [pageAlloc_of_neg hneg, if_true]
    refine ⟨⟨hs.nodup, fun p => ?_⟩, fun i hi => (hs.taken_iff hi).mp (hall i hi)⟩
    simp only [hsame, hs.mem_iff]
  · obtain ⟨hlt, hfresh, htaken⟩ := hA.alloc_item s.heap (Int.not_lt.mp hneg)
    have hi : (A.alloc s.heap).2.toNat < heapPages := by omega
    have hnotMem : page (A.alloc s.heap).2.toNat ∉ s.held := fun hmem => hfresh ((hs.taken_iff hi).mpr hmem)
    simp only [pageAlloc_of_nonneg hA (Int.not_lt.mp hneg), page_ne_zero hi, if_false]
    refine ⟨⟨List.nodup_cons.mpr ⟨hnotMem, hs.nodup⟩, fun p => ?_⟩, hnotMem⟩
    simp only [List.mem_cons, hs.mem_iff, htaken]
    constructor
    · rintro (rfl | ⟨j, hj, rfl, ht⟩)
      · exact ⟨_, hi, rfl, Or.inr rfl⟩
      · exact ⟨j, hj, rfl, Or.inl ht⟩
    · rintro ⟨j, hj, rfl, ht | rfl⟩
      · exact Or.inr ⟨j, hj, rfl, ht⟩
      · exact Or.inl rfl

/-- The arguments of an `mmap` that takes a page. -/
def OnePage (length : SizeT w) (flags : CInt) (offset : SSizeT w) : Prop :=
  0 ≤ offset.toInt ∧ flags &&& mapAnon ≠ 0 ∧ 1 ≤ length.toNat ∧ length.toNat ≤ l4Pagesize

theorem mmap_of_not (h : ¬OnePage length flags offset) : ∃ e, mmap A s.heap length flags offset =
    (s.heap, .error e) := by
  simp only [mmap]
  split
  · exact ⟨_, rfl⟩
  split
  · exact ⟨_, rfl⟩
  split
  · exact ⟨_, rfl⟩
  · next hoffset hflags hlength =>
    exact absurd ⟨Int.not_lt.mp hoffset, hflags, rounds_to_page_iff.mp (not_not.mp hlength)⟩ h

theorem mmap_of_onePage (h : OnePage length flags offset) : mmap A s.heap length flags offset =
    ((Dom0.pageAlloc A s.heap : σ × ULong w).1,
      if (Dom0.pageAlloc A s.heap : σ × ULong w).2 = 0 then .error enomem
      else .ok (Dom0.pageAlloc A s.heap : σ × ULong w).2) := by
  obtain ⟨hoffset, hflags, hlength⟩ := h
  simp only [mmap]
  rw [if_neg (Int.not_lt.mpr hoffset), if_neg hflags, if_neg (not_not.mpr (rounds_to_page_iff.mpr hlength))]

theorem Sound.step (hA : A.Keeps heapPages taken) (hs : s.Sound taken) (hfrees : s.FreesHeld a)
    (hstep : s.step A a = some s') :
    s'.Sound taken := by
  cases a with
  | alloc =>
    obtain rfl := Option.some.inj hstep
    have hnew := hs.pageAlloc hA
    dsimp only at hnew ⊢
    split at hnew
    · next hzero =>
      rw [if_pos hzero]
      exact hnew.1
    · next hzero =>
      rw [if_neg hzero]
      exact hnew.1
  | free p =>
    obtain rfl := Option.some.inj hstep
    obtain ⟨i, hi, rfl, ht⟩ := (hs.mem_iff p).mp hfrees
    rw [pageFree_page hi]
    -- A page has one number, so no other page is given back.
    refine ⟨hs.nodup.erase _, fun q => ?_⟩
    simp only [hs.nodup.mem_erase_iff, hs.mem_iff, hA.free s.heap i hi]
    constructor
    · rintro ⟨hne, j, hj, rfl, htj⟩
      exact ⟨j, hj, rfl, htj, fun heq => hne (heq ▸ rfl)⟩
    · rintro ⟨j, hj, rfl, htj, hne⟩
      exact ⟨fun heq => hne (page_inj hj hi heq), j, hj, rfl, htj⟩
  | mmap length flags offset =>
    obtain rfl := Option.some.inj hstep
    by_cases hone : OnePage length flags offset
    · have hnew := hs.pageAlloc hA
      dsimp only at hnew ⊢
      rw [mmap_of_onePage hone]
      split at hnew
      · next hzero =>
        rw [if_pos hzero]
        exact hnew.1
      · next hzero =>
        rw [if_neg hzero]
        exact hnew.1
    · obtain ⟨e, he⟩ := mmap_of_not (A := A) (s := s) hone
      rw [he]
      exact hs

/-- All pages. -/
def all : List (ULong w) := (List.range heapPages).map page

theorem nodup_all : (all : List (ULong w)).Nodup := by
  refine List.Nodup.map_on (fun i hi j hj heq => ?_) List.nodup_range
  exact page_inj (List.mem_range.mp hi) (List.mem_range.mp hj) heq

theorem Sound.subset_all (hs : s.Sound taken) : s.held ⊆ all := by
  intro p hp
  obtain ⟨i, hi, rfl, -⟩ := (hs.mem_iff p).mp hp
  exact List.mem_map.mpr ⟨i, List.mem_range.mpr hi, rfl⟩

theorem Sound.length_le (hs : s.Sound taken) : s.held.length ≤ heapPages := by
  have hle := (hs.nodup.subperm hs.subset_all).length_le
  rwa [all, List.length_map, List.length_range] at hle

/-- All pages are held exactly if as many are held as there are. -/
theorem Sound.all_held_iff (hs : s.Sound taken) : (∀ i < heapPages, page i ∈ s.held) ↔ heapPages ≤ s.held.length := by
  have hlen : (all : List (ULong w)).length = heapPages := by rw [all, List.length_map, List.length_range]
  constructor
  · intro hall
    rw [← hlen]
    refine (nodup_all.subperm fun p hp => ?_).length_le
    obtain ⟨i, hi, rfl⟩ := List.mem_map.mp hp
    exact hall i (List.mem_range.mp hi)
  · intro hle i hi
    have hperm := (hs.nodup.subperm hs.subset_all).perm_of_length_le (by rwa [hlen])
    exact hperm.mem_iff.mpr (List.mem_map.mpr ⟨i, List.mem_range.mpr hi, rfl⟩)

/-- What holds of the pages that are held, whoever took them and freed them. -/
structure Apart (A : ItemAlloc σ) (s : Pages σ w) : Prop where
  inHeap : ∀ p ∈ s.held, heapBase ≤ p.toNat ∧ p.toNat + l4Pagesize ≤ heapBase + heapMax ∧
    l4Pagesize ∣ p.toNat - heapBase
  disjoint : s.held.Pairwise fun p q => p.toNat + l4Pagesize ≤ q.toNat ∨ q.toNat + l4Pagesize ≤ p.toNat
  /-- `mmap` gives a page exactly if it is asked for one and one is left. -/
  mmap_iff : ∀ (length : SizeT w) flags (offset : SSizeT w),
    (∃ p : ULong w, (mmap A s.heap length flags offset).2 = .ok p) ↔
    OnePage length flags offset ∧ s.held.length < heapPages
  mmap_fresh : ∀ (length : SizeT w) flags (offset : SSizeT w) (p : ULong w),
    (mmap A s.heap length flags offset).2 = .ok p → p ∉ s.held

theorem Sound.apart (hA : A.Keeps heapPages taken) (hs : s.Sound taken) : s.Apart A := by
  have hmmap : ∀ (length : SizeT w) flags (offset : SSizeT w),
      (∃ p : ULong w, (mmap A s.heap length flags offset).2 = .ok p ∧ p ∉ s.held) ∧
      OnePage length flags offset ∧ s.held.length < heapPages ∨
      (∀ p : ULong w, (mmap A s.heap length flags offset).2 ≠ .ok p) ∧
          ¬(OnePage length flags offset ∧ s.held.length < heapPages) := by
    intro length flags offset
    by_cases hone : OnePage length flags offset
    · have hnew := hs.pageAlloc hA
      dsimp only at hnew
      rw [mmap_of_onePage hone]
      split at hnew
      · next hzero =>
        have hfull := hs.all_held_iff.mp hnew.2
        rw [if_pos hzero]
        exact Or.inr ⟨fun p heq => (by cases heq), fun hboth => absurd hboth.2 (Nat.not_lt.mpr hfull)⟩
      · next hzero =>
        rw [if_neg hzero]
        have hle := hnew.1.length_le
        exact Or.inl ⟨⟨_, rfl, hnew.2⟩, hone, hle⟩
    · obtain ⟨e, he⟩ := mmap_of_not (A := A) (s := s) hone
      rw [he]
      exact Or.inr ⟨fun p heq => (by cases heq), fun hboth => hone hboth.1⟩
  refine ⟨fun p hp => ?_, ?_, fun length flags offset => ?_, fun length flags offset p hp => ?_⟩
  · obtain ⟨i, hi, rfl, -⟩ := (hs.mem_iff p).mp hp
    rw [toNat_page hi]
    simp only [heapPages, heapMax, l4Pagesize] at hi ⊢
    exact ⟨by omega, by omega, ⟨i, by omega⟩⟩
  · refine hs.nodup.imp_of_mem fun {p q} hp hq hne => ?_
    obtain ⟨i, hi, rfl, -⟩ := (hs.mem_iff p).mp hp
    obtain ⟨j, hj, rfl, -⟩ := (hs.mem_iff q).mp hq
    have hij : i ≠ j := fun heq => hne (heq ▸ rfl)
    rw [toNat_page hi, toNat_page hj]
    simp only [l4Pagesize]
    omega
  · rcases hmmap length flags offset with ⟨hok, hboth⟩ | ⟨hno, hnot⟩
    · exact ⟨fun _ => hboth, fun _ => hok.imp fun _ hp => hp.1⟩
    · exact ⟨fun ⟨p, hp⟩ => absurd hp (hno p), fun hboth => absurd hboth hnot⟩
  · rcases hmmap length flags offset with ⟨⟨q, hq, hfresh⟩, -⟩ | ⟨hno, -⟩
    · cases hp.symm.trans hq
      exact hfresh
    · exact absurd hp (hno p)

/-- However pages are taken, by slabs or by `mmap`, and however those that are held are freed: the pages that are held
    lie in the heap, apart from each other, and `mmap` gives a new one exactly if its arguments ask for one page and one
    is left. -/
theorem pages_apart (hA : A.Keeps heapPages taken) {start : σ} (hstart : ∀ n, ¬taken start n)
    {actions : List (PageAction w)} (hrun : Run (step A) FreesHeld ⟨start, []⟩ actions s) : s.Apart A := by
  refine (hrun.keeps (I := Sound taken) (fun _ _ _ h hfrees hstep => h.step hA hfrees hstep)
    ⟨List.nodup_nil, fun p => ?_⟩).apart hA
  constructor
  · intro hp
    cases hp
  · rintro ⟨i, -, -, ht⟩
    exact absurd ht (hstart i)

/-- An `Item_alloc` that gives the first free item, as a list of those that it gave out. -/
def firstFree : ItemAlloc (List Nat) where
  alloc s := match (List.range heapPages).find? fun i => i ∉ s with
    | some i => (i :: s, i)
    | none => (s, -1)
  free s i := s.filter (· ≠ i)

theorem firstFree_keeps : firstFree.Keeps heapPages fun s i => i ∈ s := by
  refine ⟨fun s hpos => ?_, fun s hneg => ?_, fun s n _ k => ?_⟩
  · cases hfind : (List.range heapPages).find? fun i => i ∉ s with
    | none =>
      simp only [firstFree, hfind] at hpos
      omega
    | some i =>
      have hfree : i ∉ s := by simpa using List.find?_some hfind
      have hi := List.mem_range.mp (List.mem_of_find?_eq_some hfind)
      simp only [firstFree, hfind, Int.toNat_natCast, List.mem_cons]
      exact ⟨by omega, hfree, fun n => or_comm⟩
  · cases hfind : (List.range heapPages).find? fun i => i ∉ s with
    | none =>
      have hall := List.find?_eq_none.mp hfind
      simp only [firstFree, hfind]
      exact ⟨fun n hn => by simpa using hall n (List.mem_range.mpr hn), fun _ => trivial⟩
    | some i =>
      simp only [firstFree, hfind] at hneg
      omega
  · simp [firstFree]

/-- One page is taken by `mmap`, one by a slab, which frees it. -/
theorem pages_apart_firstFree : ∃ s : Pages (List Nat) .w32, s.held = [page 0] ∧ s.Apart firstFree := by
  have hrun : Run (step firstFree) FreesHeld (⟨[], []⟩ : Pages (List Nat) .w32)
      [.mmap 100 mapAnon 0, .alloc, .free (page 1)] _ :=
    .cons trivial rfl (.cons trivial rfl (.cons List.mem_cons_self rfl (.nil _)))
  exact ⟨_, rfl, pages_apart firstFree_keeps (fun _ h => by cases h) hrun⟩

end Pages

end

end Dom0
