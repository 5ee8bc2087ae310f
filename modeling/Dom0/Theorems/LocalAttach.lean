import Dom0.Lib.Runs
import Dom0.Ned.LocalAttach
import Dom0.Theorems.RemoteMem

/-! # What a loader sees of a file

A window shows what was asked for, although whole pages are attached from another offset on, and `local_detach_ds` finds
the region of a window by its address alone. -/

namespace Dom0

section
variable {w : Word} {δ : Type} {x : Window w δ} {p : ULong w × Window w δ} {s s' : LoaderWindows w δ}
    {initial : List (Span δ)}
  {action : LoaderAction w δ} {actions : List (LoaderAction w δ)} {a i : Nat}

theorem Window.toNat_inPgOffset (x : Window w δ) : x.inPgOffset.toNat = x.offset.toNat % 4096 := by
  have htrunc : x.pgOffset.toNat = x.offset.toNat / 4096 * 4096 := toNat_truncPage
  have hle : x.pgOffset ≤ x.offset := by
    rw [BitVec.le_def]
    omega
  rw [Window.inPgOffset, BitVec.toNat_sub_of_le hle]
  omega

theorem Window.toNat_pgSize (h : x.offset.toNat + x.size.toNat + 4096 ≤ 2 ^ (8 * w.bytes)) :
    x.pgSize.toNat = (x.size.toNat + x.offset.toNat % 4096 + 4095) / 4096 * 4096 := by
  have hin := x.toNat_inPgOffset
  have hsum : (x.size + x.inPgOffset).toNat = x.size.toNat + x.inPgOffset.toNat := BitVec.toNat_add_of_lt (by omega)
  rw [Window.pgSize, toNat_roundPage (by omega), hsum, hin]

/-- The region of a window that is at an address. -/
def Window.region (p : ULong w × Window w δ) : Span δ := p.2.span (p.1 - p.2.inPgOffset)

/-- A window is at an address that `local_attach_ds` can have given. -/
structure Window.Placed (p : ULong w × Window w δ) : Prop where
  pos : 0 < p.2.size.toNat
  inside : p.2.offset.toNat + p.2.size.toNat + 4096 ≤ 2 ^ (8 * w.bytes)
  aligned : (Window.region p).start % 4096 = 0
  fits : (Window.region p).start + (Window.region p).size ≤ 2 ^ (8 * w.bytes)

namespace Window.Placed

theorem size (h : Window.Placed p) :
    (Window.region p).size = (p.2.size.toNat + p.2.offset.toNat % 4096 + 4095) / 4096 * 4096 :=
  Window.toNat_pgSize h.inside

/-- The address lies as far behind the beginning of its region as the offset behind the beginning of its page. -/
theorem addr (h : Window.Placed p) : p.1.toNat = (Window.region p).start + p.2.offset.toNat % 4096 := by
  have hsize := h.size
  have hfits := h.fits
  have hpos := h.pos
  have hin := p.2.toNat_inPgOffset
  have hstart : (Window.region p).start = (p.1 - p.2.inPgOffset).toNat := rfl
  have hsum : p.1 - p.2.inPgOffset + p.2.inPgOffset = p.1 := BitVec.sub_add_cancel _ _
  calc p.1.toNat = (p.1 - p.2.inPgOffset + p.2.inPgOffset).toNat := by rw [hsum]
    _ = (p.1 - p.2.inPgOffset).toNat + p.2.inPgOffset.toNat := BitVec.toNat_add_of_lt (by omega)
    _ = (Window.region p).start + p.2.offset.toNat % 4096 := by rw [hin, hstart]

theorem truncPage (h : Window.Placed p) : (l4TruncPage p.1).toNat = (Window.region p).start := by
  have haligned := h.aligned
  rw [toNat_truncPage, h.addr]
  omega

theorem contains (h : Window.Placed p) (hi : i < p.2.size.toNat) : (Window.region p).Contains (p.1.toNat + i) := by
  have hsize := h.size
  rw [h.addr]
  exact ⟨by omega, by omega⟩

theorem contains_page (h : Window.Placed p) : (Window.region p).Contains (l4TruncPage p.1).toNat := by
  have hsize := h.size
  have hpos := h.pos
  rw [h.truncPage]
  exact ⟨Nat.le_refl _, by omega⟩

theorem offset (h : Window.Placed p) :
    (Window.region p).offset + (p.1.toNat + i - (Window.region p).start) = p.2.offset.toNat + i := by
  have htrunc : (Window.region p).offset = p.2.offset.toNat / 4096 * 4096 := toNat_truncPage
  rw [h.addr, htrunc]
  omega

end Window.Placed

namespace LoaderWindows

/-- The regions are those of the windows and those from before, and none of them overlap. -/
structure Inv (initial : List (Span δ)) (s : LoaderWindows w δ) : Prop where
  regions : s.regions = s.windows.map Window.region ++ initial
  apart : s.regions.Pairwise Span.Apart
  placed : ∀ p ∈ s.windows, Window.Placed p

theorem inv_start (h : initial.Pairwise Span.Apart) : (start initial : LoaderWindows w δ).Inv initial := ⟨rfl, h, nofun⟩

theorem Inv.attach (h : s.Inv initial) (x : Window w δ) (vaddr : ULong w) (hpos : 0 < x.size.toNat)
    (hinside : x.offset.toNat + x.size.toNat + 4096 ≤ 2 ^ (8 * w.bytes)) (hfits : x.Fits s.regions vaddr) :
    Inv initial { s with regions := x.span vaddr :: s.regions, windows := (vaddr + x.inPgOffset, x) :: s.windows } := by
  obtain ⟨haligned, hroom, hapart⟩ := hfits
  have hregion : Window.region (vaddr + x.inPgOffset, x) = x.span vaddr :=
    congrArg x.span (BitVec.add_sub_cancel vaddr x.inPgOffset)
  refine ⟨?_, List.pairwise_cons.mpr ⟨hapart, h.apart⟩, ?_⟩
  · show _ = Window.region _ :: s.windows.map Window.region ++ initial
    rw [hregion, List.cons_append, ← h.regions]
  · intro p hp
    rcases List.mem_cons.mp hp with rfl | hp
    · exact ⟨hpos, hinside, hregion ▸ haligned, hregion ▸ hroom⟩
    · exact h.placed p hp

/-- The window at an address, among the others. -/
theorem Inv.detach_split (h : s.Inv initial) (hp : p ∈ s.windows) : ∃ before after,
    s.regions = before.map Window.region ++ Window.region p :: (after.map Window.region ++ initial) ∧
      s.windows = before ++ p :: after ∧ (s.windows.eraseP fun q => q.1 = p.1) = before ++ after := by
  obtain ⟨before, after, hwindows⟩ := List.append_of_mem hp
  have hregions : s.regions = before.map Window.region ++ Window.region p :: (after.map Window.region ++ initial) := by
    rw [h.regions, hwindows, List.map_append, List.map_cons, List.append_assoc, List.cons_append]
  refine ⟨before, after, hregions, hwindows, ?_⟩
  -- two windows at one address would overlap
  have hbefore : ∀ q ∈ before, ¬(decide (q.1 = p.1)) = true := by
    intro q hq hsame
    have hqmem : q ∈ s.windows := hwindows ▸ List.mem_append_left _ hq
    have hapart := h.apart
    rw [hregions] at hapart
    refine Span.not_contains_of_pairwise hapart (h.placed p hp).contains_page _ (List.mem_map_of_mem hq) ?_
    rw [← of_decide_eq_true hsame]
    exact (h.placed q hqmem).contains_page
  rw [hwindows, List.eraseP_append_right _ hbefore, List.eraseP_cons_of_pos (by simp)]

/-- A window that is there can be detached, and nothing else goes. -/
theorem Inv.detach (h : s.Inv initial) (hp : p ∈ s.windows) (error : CInt) : ∃ s',
    s.step (.detach p.1 error) = some s' ∧ s'.thrown = s.thrown ∧ s'.Inv initial ∧
      s'.windows = s.windows.eraseP (fun q => q.1 = p.1) ∧
      ∀ a, ¬(Window.region p).Contains a → Span.seen s'.regions a = Span.seen s.regions a := by
  obtain ⟨before, after, hregions, hwindows, herase⟩ := h.detach_split hp
  have hapart := h.apart
  rw [hregions] at hapart
  have hpage := (h.placed p hp).contains_page
  have hfind : Span.find s.regions (l4TruncPage p.1).toNat = some (Window.region p) := by
    rw [hregions]
    exact Span.find_of_mem hapart (List.mem_append_right _ List.mem_cons_self) hpage
  have hremove : Span.remove s.regions (l4TruncPage p.1).toNat =
      before.map Window.region ++ (after.map Window.region ++ initial) := by
    rw [hregions]
    exact Span.remove_append_cons hapart hpage
  have hdetach : localDetachDs s.regions p.1 error =
      .ok (before.map Window.region ++ (after.map Window.region ++ initial)) := by
    rw [localDetachDs, hfind, hremove]
    rfl
  let regions := before.map Window.region ++ (after.map Window.region ++ initial)
  refine ⟨{ s with regions := regions, windows := before ++ after },
    ?_, rfl, ⟨?_, ?_, fun q hq => ?_⟩, herase.symm, fun a ha => ?_⟩
  · rw [step, hdetach, herase]
  · rw [List.map_append, List.append_assoc]
  · exact hapart.sublist (List.Sublist.append_left (List.sublist_cons_self _ _) _)
  · refine h.placed q ?_
    rw [hwindows]
    rcases List.mem_append.mp hq with hq | hq
    · exact List.mem_append_left _ hq
    · exact List.mem_append_right _ (List.mem_cons_of_mem p hq)
  · rw [hregions]
    exact Span.seen_removed ha

theorem Inv.step (h : s.Inv initial) (hallowed : s.Allowed action) (hstep : s.step action = some s') :
    s'.Inv initial := by
  cases action with
  | attach x vaddr =>
    obtain ⟨hpos, hinside, hfits⟩ := hallowed
    cases vaddr with
    | error e =>
      obtain rfl := Option.some.inj hstep
      exact ⟨h.regions, h.apart, h.placed⟩
    | ok vaddr =>
      obtain rfl := Option.some.inj hstep
      exact h.attach x vaddr hpos hinside (hfits vaddr rfl)
  | detach addr error =>
    obtain ⟨x, hx⟩ := hallowed
    obtain ⟨after, hafter, -, hinv, -⟩ := h.detach hx error
    obtain rfl := Option.some.inj (hafter.symm.trans hstep)
    exact hinv

theorem Inv.seen_window (h : s.Inv initial) (hp : p ∈ s.windows) (hi : i < p.2.size.toNat) :
    Span.seen s.regions (p.1.toNat + i) = some (p.2.ds, p.2.offset.toNat + i) := by
  have hmem : Window.region p ∈ s.regions := by
    rw [h.regions]
    exact List.mem_append_left _ (List.mem_map_of_mem hp)
  have hplaced := h.placed p hp
  rw [Span.seen, Span.find_of_mem h.apart hmem (hplaced.contains hi), Option.map_some, hplaced.offset]
  rfl

theorem Inv.seen_initial (h : s.Inv initial) {r : Span δ} (hr : r ∈ initial) (ha : r.Contains a) :
    Span.seen s.regions a = Span.seen initial a := by
  have hapart := h.apart
  rw [h.regions] at hapart ⊢
  rw [Span.seen, Span.seen, Span.find_of_mem hapart (List.mem_append_right _ hr) ha,
    Span.find_of_mem (List.pairwise_append.mp hapart).2.1 hr ha]

/-- Whatever a loader attaches and detaches in whatever order, and whatever fails: a window shows, from its address on,
    the bytes that were asked for; what was attached before stays in sight; to detach a window never fails, and takes
    nothing else away; and when all windows are detached, the regions are what they were. -/
theorem run_windows (hinitial : initial.Pairwise Span.Apart)
    (hrun : Run step Allowed (.start initial : LoaderWindows w δ) actions s) :
    (∀ p ∈ s.windows, ∀ i < p.2.size.toNat, Span.seen s.regions (p.1.toNat + i) = some (p.2.ds, p.2.offset.toNat + i)) ∧
      (∀ a, ∀ r ∈ initial, r.Contains a → Span.seen s.regions a = Span.seen initial a) ∧
      (∀ p ∈ s.windows, ∀ error, ∃ s', s.step (.detach p.1 error) = some s' ∧ s'.thrown = s.thrown ∧
        s'.windows = s.windows.eraseP (fun q => q.1 = p.1) ∧
        ∀ a, ¬(Window.region p).Contains a → Span.seen s'.regions a = Span.seen s.regions a) ∧
      (s.windows = [] → s.regions = initial) := by
  have h : s.Inv initial := hrun.keeps (fun _ _ _ h hallowed hstep => h.step hallowed hstep) (inv_start hinitial)
  refine ⟨fun p hp i hi => h.seen_window hp hi, fun a r hr ha => h.seen_initial hr ha, fun p hp error => ?_,
    fun hempty => ?_⟩
  · obtain ⟨s', hs', hthrown, -, hwindows, hseen⟩ := h.detach hp error
    exact ⟨s', hs', hthrown, hwindows, hseen⟩
  · rw [h.regions, hempty]
    rfl

def header : Window .w32 Nat := ⟨7, 16, 0x1010⟩

/-- More than a page, from near the end of a page on. -/
def section_ : Window .w32 Nat := ⟨8, 0x1020, 0x2ff0⟩

/-- A header and a section are attached, and a third time nothing is; the header is detached. -/
def headerActions : List (LoaderAction .w32 Nat) :=
  [.attach header (.ok 0x2000), .attach section_ (.ok 0x4000), .attach header (.error (-12)), .detach 0x2010 (-2)]

theorem fits_of_ok {regions : List (Span Nat)} {x : Window .w32 Nat} {vaddr : ULong .w32} (h : x.Fits regions vaddr) :
    ∀ at_, (Except.ok vaddr : Except CInt (ULong .w32)) = .ok at_ → x.Fits regions at_ := by
  intro at_ hat
  obtain rfl := Except.ok.inj hat
  exact h

/-- The section is seen behind the beginning of its first page and on the page after, the header is not seen any more;
    when the section is detached too, the regions are those of the beginning. -/
theorem run_windows_header : ∃ s s' : LoaderWindows .w32 Nat,
    Run step Allowed (.start [⟨0, 4096, 1, 0⟩]) headerActions s ∧
      Span.seen s.regions 0x4ff0 = some (8, 0x2ff0) ∧ Span.seen s.regions 0x5010 = some (8, 0x3010) ∧
      Span.seen s.regions 0x2013 = none ∧ s.thrown = [-12] ∧
      s.step (.detach 0x4ff0 (-2)) = some s' ∧ s'.windows = [] ∧ s'.regions = [⟨0, 4096, 1, 0⟩] := by
  have hheader : header.Fits [⟨0, 4096, 1, 0⟩] 0x2000 := ⟨by decide, by decide, by decide⟩
  have hsection : section_.Fits [header.span 0x2000, ⟨0, 4096, 1, 0⟩] 0x4000 := ⟨by decide, by decide, by decide⟩
  have hrun : Run step Allowed (.start [⟨0, 4096, 1, 0⟩]) headerActions _ :=
    .cons ⟨by decide, by decide, fits_of_ok hheader⟩ rfl (.cons ⟨by decide, by decide, fits_of_ok hsection⟩ rfl
      (.cons ⟨by decide, by decide, fun _ h => (by cases h)⟩ rfl
      (.cons ⟨header, List.mem_cons_of_mem _ List.mem_cons_self⟩ rfl (.nil _))))
  obtain ⟨hseen, -, hdetach, -⟩ := run_windows (List.pairwise_singleton _ _) hrun
  have hmem : ((0x4ff0 : ULong .w32), section_) ∈ [((0x4ff0 : ULong .w32), section_)] := List.mem_singleton_self _
  obtain ⟨s', hs', -, hwindows, -⟩ := hdetach _ hmem (-2)
  have hempty : s'.windows = [] := hwindows
  have hlonger : Run step Allowed (.start [⟨0, 4096, 1, 0⟩]) (headerActions ++ [.detach 0x4ff0 (-2)]) s' :=
    hrun.append (.cons ⟨section_, hmem⟩ hs' (.nil s'))
  refine ⟨_, s', hrun, hseen _ hmem 0 (by decide), hseen _ hmem 0x20 (by decide), rfl, rfl, hs', hempty, ?_⟩
  exact (run_windows (List.pairwise_singleton _ _) hlonger).2.2.2 hempty

end LoaderWindows

end

end Dom0
