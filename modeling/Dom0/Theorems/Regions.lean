import Dom0.Kernel.Regions

/-! What `insert_regions` attaches. However many regions each call gives, all of them are attached once and in order; of
the areas only those behind the last region are, since the address is not set back between the loops. A region or an
area at the end of the address space makes the address 0 again, and its loop begins from the start and ends only if it
is refused something. -/

namespace Dom0
open Rm.Region

section
variable {w : Word} {μ : Type} {all : List (Rm.Region w)} {rm : RemoteRm w} {L : LocalRm w μ} {m : μ} {rounds : Nat}
  {r : Rm.Region w}

namespace Rm.Region

/-- Behind a region that does not lie at the end of the address space. -/
theorem toNat_next (h : r.next ≠ 0) : r.next.toNat = r.end_.toNat + 1 := by
  have hone : (1 : ULong w).toNat = 1 := by cases w <;> rfl
  have hlt := r.end_.isLt
  rw [next, BitVec.toNat_add, hone]
  refine Nat.mod_eq_of_lt (Nat.lt_of_le_of_ne hlt fun heq => h ?_)
  refine BitVec.eq_of_toNat_eq ?_
  rw [next, BitVec.toNat_add, hone, show r.end_.toNat + 1 = _ from heq, Nat.mod_self]
  rfl

theorem Sorted.next_le (h : Sorted all) : all.Pairwise fun r r' => r.next.toNat ≤ r'.start.toNat := by
  refine h.apart.imp fun {r r'} hlt => ?_
  by_cases htop : r.next = 0
  · rw [htop]
    exact Nat.zero_le _
  · rw [toNat_next htop]
    exact hlt

theorem Sorted.start_lt (h : Sorted all) (hr : r ∈ all) (htop : r.next ≠ 0) : r.start.toNat < r.next.toNat := by
  have hproper := h.proper r hr
  rw [toNat_next htop]
  omega

theorem Sorted.ascending (h : Sorted all) (htop : ∀ r ∈ all, r.next ≠ 0) :
    Ascending BitVec.toNat (fun r : Rm.Region w => r.start.toNat) next all :=
  ⟨h.next_le, fun r hr => h.start_lt hr (htop r hr)⟩

theorem from_zero : from_ all 0 = all := List.filter_eq_self.mpr fun _ _ => decide_eq_true (Nat.zero_le _)

theorem end_of_next (h : r.next = 0) : r.end_.toNat + 1 = 2 ^ (8 * w.bytes) := by
  have hone : (1 : ULong w).toNat = 1 := by cases w <;> rfl
  have hzero := congrArg BitVec.toNat h
  rw [next, BitVec.toNat_add, hone] at hzero
  have hlt := r.end_.isLt
  by_contra hne
  rw [Nat.mod_eq_of_lt (by omega)] at hzero
  cases hzero

/-- Only the last region lies at the end of the address space. -/
theorem Sorted.next_ne_zero (h : Sorted all) : ∀ r ∈ all.dropLast, r.next ≠ 0 := by
  rcases List.eq_nil_or_concat' all with rfl | ⟨front, last, rfl⟩
  · intro r hr
    cases hr
  · rw [List.dropLast_concat]
    intro r hr htop
    have hlt := (List.pairwise_append.mp h.apart).2.2 r hr last List.mem_cons_self
    have hend := end_of_next htop
    have hstart := last.start.isLt
    omega

theorem Sorted.dropLast_proper (h : Sorted all) : ∀ r ∈ all.dropLast, r.start.toNat < r.next.toNat :=
  fun r hr => h.start_lt (List.dropLast_subset all hr) (h.next_ne_zero r hr)

theorem Sorted.getLast_of_next (h : Sorted all) (hr : r ∈ all) (htop : r.next = 0) : all.getLast? = some r := by
  rcases List.eq_nil_or_concat' all with rfl | ⟨front, last, rfl⟩
  · cases hr
  · have hdrop := h.next_ne_zero
    rw [List.dropLast_concat] at hdrop
    rcases List.mem_append.mp hr with hfront | hlast
    · exact absurd htop (hdrop r hfront)
    · rw [List.getLast?_concat, List.mem_singleton.mp hlast]

theorem Sorted.endless {get : ULong w → List (Rm.Region w)} {f : μ → Rm.Region w → Except CInt μ} {addr : ULong w}
    (h : Sorted all) (hget : Pieces BitVec.toNat (fun r : Rm.Region w => r.start.toNat) all get)
    (hr : r ∈ from_ all addr)
    (htop : r.next = 0) : Endless (fun rounds => visitPieces next get f rounds m addr) f m (from_ all addr) all := by
  have hlast := h.getLast_of_next (List.mem_filter.mp hr).1 htop
  exact visitPieces_endless hget h.next_le h.dropLast_proper from_zero (by rw [hlast, Option.map_some, htop])
    (List.ne_nil_of_mem hr)

/-- A loop over regions none of which lies at the end of the address space, at the address or behind it. -/
theorem Sorted.visited {get : ULong w → List (Rm.Region w)} {f : μ → Rm.Region w → Except CInt μ} {addr : ULong w}
    (h : Sorted all) (hget : Pieces BitVec.toNat (fun r : Rm.Region w => r.start.toNat) all get)
    (htop : ∀ r ∈ from_ all addr, r.next ≠ 0) (hrounds : all.length < rounds) :
    visitPieces next get f rounds m addr = some (visit next f m addr (from_ all addr)) := by
  by_cases hempty : from_ all addr = []
  · obtain ⟨rounds, rfl⟩ := Nat.exists_eq_succ_of_ne_zero (Nat.ne_of_gt (Nat.zero_lt_of_lt hrounds))
    have hnil := hget.initial addr
    rw [show behind BitVec.toNat (fun r : Rm.Region w => r.start.toNat) all addr = [] from hempty,
      List.prefix_nil] at hnil
    rw [visitPieces, hnil, hempty, visit]
  · -- The region at the end of the address space is the last one, so that it would lie behind the address too.
    obtain ⟨front, last, hbehind, hlast, -⟩ := behind_getLast h.next_le h.dropLast_proper hempty
    have hnone : ∀ r ∈ all, r.next ≠ 0 := by
      intro r hr htop'
      obtain rfl := Option.some.inj (hlast.symm.trans (h.getLast_of_next hr htop'))
      refine htop last ?_ htop'
      rw [show from_ all addr = front ++ [last] from hbehind]
      exact List.mem_append_right front List.mem_cons_self
    exact visitPieces_eq hget (h.ascending hnone) (Nat.lt_of_le_of_lt (List.length_filter_le _ _) hrounds)

end Rm.Region

/-- Where the address stands after the first loop: behind the last region. -/
def RemoteRm.behindRegions (rm : RemoteRm w) : ULong w := (rm.regions.getLast?.map next).getD 0

/-- A region lies at the end of the address space. -/
def RemoteRm.RegionAtTop (rm : RemoteRm w) : Prop := ∃ r ∈ rm.regions, r.next = 0

instance (rm : RemoteRm w) : Decidable rm.RegionAtTop := inferInstanceAs (Decidable (∃ r ∈ rm.regions, r.next = 0))

/-- An area behind the last region does. -/
def RemoteRm.AreaAtTop (rm : RemoteRm w) : Prop := ∃ r ∈ from_ rm.areas rm.behindRegions, r.next = 0

instance (rm : RemoteRm w) : Decidable rm.AreaAtTop :=
  inferInstanceAs (Decidable (∃ r ∈ from_ rm.areas rm.behindRegions, r.next = 0))

theorem RemoteRm.visit_regions (rm : RemoteRm w) (htop : ¬rm.RegionAtTop) (hrounds : rm.regions.length < rounds) :
    visitPieces next rm.getRegions L.insertRegion rounds m 0 =
      some ((rm.regions.foldlM L.insertRegion m).map fun m' => (m', rm.behindRegions)) := by
  have hnone : ∀ r ∈ from_ rm.regions 0, r.next ≠ 0 := fun r hr heq => htop ⟨r, (List.mem_filter.mp hr).1, heq⟩
  have hvisited := rm.sorted_regions.visited (f := L.insertRegion) (m := m) rm.pieces_regions hnone hrounds
  rwa [from_zero, visit_eq] at hvisited

/-- `insert_regions` attaches all regions and then the areas behind the last of them, once each and in order, up to the
    first that it is refused, and returns. Where the last region lies at the end of the address space, or the last area
    behind them, its loop goes through all regions or all areas again and again, and ends only if it is refused one. -/
theorem insertRegions_eq (rm : RemoteRm w) (L : LocalRm w μ) (m : μ) :
    (¬rm.RegionAtTop → ¬rm.AreaAtTop → ∀ rounds, rm.regions.length < rounds → rm.areas.length < rounds →
      insertRegions rm L rounds m =
        some (rm.regions.foldlM L.insertRegion m >>= fun m' =>
        (from_ rm.areas rm.behindRegions).foldlM L.insertArea m')) ∧
    (rm.RegionAtTop → Endless (fun rounds => insertRegions rm L rounds m) L.insertRegion m rm.regions rm.regions) ∧
    (¬rm.RegionAtTop → rm.AreaAtTop →
      (∀ e, rm.regions.foldlM L.insertRegion m = .error e → ∀ rounds, rm.regions.length < rounds →
        insertRegions rm L rounds m = some (.error e)) ∧
      ∀ m', rm.regions.foldlM L.insertRegion m = .ok m' →
        Endless (fun rounds => insertRegions rm L rounds m) L.insertArea m' (from_ rm.areas rm.behindRegions)
          rm.areas) := by
  refine ⟨fun hregions hareas rounds hrounds hrounds' => ?_, ?_,
    fun hregions hareas => ⟨fun e herror rounds hrounds => ?_, fun m' hm' => ?_⟩⟩
  · have hnone : ∀ r ∈ from_ rm.areas rm.behindRegions, r.next ≠ 0 := fun r hr heq => hareas ⟨r, hr, heq⟩
    rw [insertRegions, rm.visit_regions hregions hrounds]
    cases rm.regions.foldlM L.insertRegion m with
    | error e => rfl
    | ok m' =>
      have hsecond := rm.sorted_areas.visited (f := L.insertArea) (m := m') rm.pieces_areas hnone hrounds'
      simp only [Except.map, hsecond, Option.map_some, visit_eq]
      show _ = some ((from_ rm.areas rm.behindRegions).foldlM L.insertArea m')
      cases (from_ rm.areas rm.behindRegions).foldlM L.insertArea m' <;> rfl
  · -- The first loop starts again at address 0 and does not come to the areas.
    rintro ⟨r, hr, htop⟩
    have hmem : r ∈ from_ rm.regions 0 := by rwa [from_zero]
    have hendless := rm.sorted_regions.endless (f := L.insertRegion) (m := m) rm.pieces_regions hmem htop
    rw [from_zero] at hendless
    refine ⟨fun k e herror => ?_, fun hok rounds => ?_⟩
    · obtain ⟨enough, henough⟩ := hendless.refused k e herror
      exact ⟨enough, fun rounds hle => by rw [insertRegions, henough rounds hle]⟩
    · rw [insertRegions, hendless.endless hok rounds]
  · rw [insertRegions, rm.visit_regions hregions hrounds, herror]
    rfl
  · -- The second loop begins behind the last region, and goes through all areas after that.
    obtain ⟨r, hr, htop⟩ := hareas
    have hendless := rm.sorted_areas.endless (f := L.insertArea) (m := m') rm.pieces_areas hr htop
    have hfirst : ∀ rounds, rm.regions.length < rounds →
        visitPieces next rm.getRegions L.insertRegion rounds m 0 = some (.ok (m', rm.behindRegions)) := by
      intro rounds hrounds
      rw [rm.visit_regions hregions hrounds, hm']
      rfl
    refine ⟨fun k e herror => ?_, fun hok rounds => ?_⟩
    · obtain ⟨enough, henough⟩ := hendless.refused k e herror
      refine ⟨max enough (rm.regions.length + 1), fun rounds hle => ?_⟩
      rw [insertRegions, hfirst rounds (by omega)]
      simp only [henough rounds (by omega), Option.map_some, Except.map]
    · -- With too few rounds the first loop is not done yet.
      rw [insertRegions]
      cases hvisit : visitPieces next rm.getRegions L.insertRegion rounds m 0 with
      | none => rfl
      | some res =>
        have hmore := hfirst (rounds + (rm.regions.length + 1)) (by omega)
        rw [visitPieces_mono hvisit] at hmore
        obtain rfl := Option.some.inj hmore
        simp only [hendless.endless hok rounds, Option.map_none]

end

/-- A region map whose calls get one region and one area each. -/
def oneByOne (regions areas : List (Rm.Region .w32)) (hregions : Sorted regions) (hareas : Sorted areas) :
    RemoteRm .w32 where
  regions := regions
  areas := areas
  getRegions addr := (from_ regions addr).take 1
  getAreas addr := (from_ areas addr).take 1
  sorted_regions := hregions
  sorted_areas := hareas
  pieces_regions := pieces_take 0
  pieces_areas := pieces_take 0

/-- Two regions, and an area on each side of the second one. -/
def twoRegions : RemoteRm .w32 :=
  oneByOne [⟨0x1000, 0x1fff⟩, ⟨0x3000, 0x4fff⟩] [⟨0x2000, 0x20ff⟩, ⟨0x8000, 0x8fff⟩] ⟨by decide, by decide⟩
    ⟨by decide, by decide⟩

/-- The second region ends with the address space. -/
def regionAtTop : RemoteRm .w32 :=
  oneByOne [⟨0x1000, 0x1fff⟩, ⟨0xfffff000, 0xffffffff⟩] [] ⟨by decide, by decide⟩ ⟨by decide, by decide⟩

/-- The area behind the region ends with the address space. -/
def areaAtTop : RemoteRm .w32 :=
  oneByOne [⟨0x1000, 0x1fff⟩] [⟨0x1000, 0x1fff⟩, ⟨0x8000, 0xffffffff⟩] ⟨by decide, by decide⟩ ⟨by decide, by decide⟩

/-- A region map that attaches everything, and notes it. -/
def noting : LocalRm .w32 (List (ULong .w32 × ULong .w32)) :=
  ⟨fun m start size => (m ++ [(start, size)], start), fun m start size => (m ++ [(start, size)], start)⟩

/-- One that refuses what it has. -/
def attachingOnce : LocalRm .w32 (List (ULong .w32)) :=
  ⟨fun m start _ => if start ∈ m then (m, 0) else (m ++ [start], start),
    fun m start _ => if start ∈ m then (m, 0) else (m ++ [start], start)⟩

theorem noting_ok {f : List (ULong .w32 × ULong .w32) → Rm.Region .w32 → Except CInt (List (ULong .w32 × ULong .w32))}
    (hf : f = noting.insertRegion ∨ f = noting.insertArea) {all : List (Rm.Region .w32)}
    (hall : ∀ r ∈ all, r.start ≠ 0) :
    ∀ m, ∃ m', all.foldlM f m = .ok m' := by
  induction all with
  | nil => exact fun m => ⟨m, rfl⟩
  | cons r all ih =>
    intro m
    have hstep : f m r = .ok (m ++ [(r.start, r.size)]) := by
      rcases hf with rfl | rfl
      · exact if_neg (hall r List.mem_cons_self)
      · exact if_neg (hall r List.mem_cons_self)
    rw [List.foldlM_cons, hstep]
    exact ih (fun r' hr' => hall r' (List.mem_cons_of_mem r hr')) _

/-- The area before the second region is left out; a region or an area at the end of the address space is attached
    again, and so for ever, or until the second time is refused. -/
theorem insertRegions_eq_twoRegions :
    insertRegions twoRegions noting 3 [] = some (.ok [(0x1000, 0x1000), (0x3000, 0x2000), (0x8000, 0x1000)]) ∧
    (∀ rounds, insertRegions regionAtTop noting rounds [] = none) ∧
    (∃ enough, ∀ rounds, enough ≤ rounds → insertRegions regionAtTop attachingOnce rounds [] = some (.error 1)) ∧
    (∀ rounds, insertRegions areaAtTop noting rounds [] = none) ∧
    ∃ enough, ∀ rounds, enough ≤ rounds → insertRegions areaAtTop attachingOnce rounds [] = some (.error 1) := by
  have hmem : ∀ {k : Nat} {all : List (Rm.Region .w32)} {r : Rm.Region .w32}, r ∈ (List.replicate k all).flatten →
      r ∈ all := by
    intro k all r hr
    obtain ⟨l, hl, hr⟩ := List.mem_flatten.mp hr
    rwa [List.eq_of_mem_replicate hl] at hr
  have hregion : regionAtTop.RegionAtTop := by decide
  have hnoRegion : ¬areaAtTop.RegionAtTop := by decide
  have harea : areaAtTop.AreaAtTop := by decide
  have hregionsStart : ∀ r ∈ regionAtTop.regions, r.start ≠ 0 := by decide
  have hareasStart : ∀ r ∈ areaAtTop.areas, r.start ≠ 0 := by decide
  refine ⟨?_, ?_, ?_, ?_, ?_⟩
  · have hnoRegion' : ¬twoRegions.RegionAtTop := by decide
    have hnoArea : ¬twoRegions.AreaAtTop := by decide
    rw [(insertRegions_eq twoRegions noting []).1 hnoRegion' hnoArea 3 (by decide) (by decide)]
    rfl
  · refine ((insertRegions_eq regionAtTop noting []).2.1 hregion).endless fun k =>
      noting_ok (Or.inl rfl) (fun r hr => ?_) []
    rcases List.mem_append.mp hr with hr | hr
    · exact hregionsStart r hr
    · exact hregionsStart r (hmem hr)
  · exact ((insertRegions_eq regionAtTop attachingOnce []).2.1 hregion).refused 1 1 rfl
  · refine (((insertRegions_eq areaAtTop noting []).2.2 hnoRegion harea).2 _ rfl).endless fun k =>
      noting_ok (Or.inr rfl) (fun r hr => ?_) _
    rcases List.mem_append.mp hr with hr | hr
    · exact hareasStart r (List.mem_filter.mp hr).1
    · exact hareasStart r (hmem hr)
  · exact (((insertRegions_eq areaAtTop attachingOnce []).2.2 hnoRegion harea).2 _ rfl).refused 1 1 rfl

end Dom0
