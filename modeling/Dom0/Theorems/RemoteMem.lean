import Dom0.Lib.Runs
import Dom0.Ned.RemoteMem

/-! Only allocated pages of a stack are written to. `check_access` remembers just the page of the last write, and
allocates nothing for a write that begins on it; that is enough since the writes go down. -/

namespace Dom0
open StackBase

section
variable {w : Word} {vma size addr : ULong w} {sz : SizeT w} {ret : CInt} {s s' : StackUse w} {b b' : StackBase w}
  {a : StackAccess w} {x off : Nat}

theorem toNat_truncPage : (l4TruncPage addr).toNat = addr.toNat / 4096 * 4096 := by
  have hlt := addr.isLt
  rw [l4TruncPage, BitVec.toNat_ofNat, Nat.mod_eq_of_lt (by omega)]

theorem toNat_roundPage (h : addr.toNat + 4096 ≤ 2 ^ (8 * w.bytes)) :
    (l4RoundPage addr).toNat = (addr.toNat + 4095) / 4096 * 4096 := by
  rw [l4RoundPage, BitVec.toNat_ofNat, Nat.mod_eq_of_lt (by omega)]

/-- A write begins on the page of the last one, or its pages are allocated. -/
theorem checkAccess_cases (h : b.checkAccess addr sz ret = .ok b') :
    b.lastChecked = l4TruncPage addr ∧ b' = b ∨
      b' = ⟨b.vma, l4TruncPage addr, (l4TruncPage (addr - b.vma),
        l4RoundPage (addr + sz - b.vma) - l4TruncPage (addr - b.vma)) :: b.stackDs⟩ := by
  rw [checkAccess] at h
  split at h
  · simp only at h
    split at h
    · cases h
    · exact Or.inr (Except.ok.inj h).symm
  · next hsame => exact Or.inl ⟨not_not.mp hsame, (Except.ok.inj h).symm⟩

/-- What a write that lies in the stack has allocated for it: all of it, and the page below its beginning. -/
theorem allocated_new (hvma : vma.toNat % 4096 = 0) (hpos : 0 < vma.toNat) (hinside : vma.toNat ≤ addr.toNat)
    (hfits : addr.toNat + sz.toNat < 2 ^ (8 * w.bytes)) (hpage : addr.toNat / 4096 * 4096 ≤ x)
    (hx : x < addr.toNat + sz.toNat ∨ x < addr.toNat) :
    (l4TruncPage (addr - vma)).toNat ≤ x - vma.toNat ∧ x - vma.toNat < (l4TruncPage (addr - vma)).toNat +
      (l4RoundPage (addr + sz - vma) - l4TruncPage (addr - vma)).toNat := by
  have hoff : (addr - vma).toNat = addr.toNat - vma.toNat := BitVec.toNat_sub_of_le hinside
  have hsum : (addr + sz).toNat = addr.toNat + sz.toNat := by rw [BitVec.toNat_add, Nat.mod_eq_of_lt hfits]
  have hend : (addr + sz - vma).toNat = addr.toNat + sz.toNat - vma.toNat := by
    rw [BitVec.toNat_sub_of_le (by rw [BitVec.le_def]; omega), hsum]
  have htrunc : (l4TruncPage (addr - vma)).toNat =
    (addr.toNat - vma.toNat) / 4096 * 4096 := by rw [toNat_truncPage, hoff]
  have hround : (l4RoundPage (addr + sz - vma)).toNat = (addr.toNat + sz.toNat - vma.toNat + 4095) / 4096 * 4096 := by
    rw [toNat_roundPage (by omega), hend]
  have hsize : (l4RoundPage (addr + sz - vma) - l4TruncPage (addr - vma)).toNat =
      (addr.toNat + sz.toNat - vma.toNat + 4095) / 4096 * 4096 - (addr.toNat - vma.toNat) / 4096 * 4096 := by
    rw [BitVec.toNat_sub_of_le (by rw [BitVec.le_def]; omega), hround, htrunc]
  rw [hsize, htrunc]
  omega

/-- The page that was checked last is that of the last write, and is allocated up to where that write begins; and all
    that was written is allocated. -/
structure StackUse.Checked (vma size : ULong w) (s : StackUse w) : Prop where
  vma_eq : s.base.vma = vma
  lowest_le : s.lowest.toNat ≤ vma.toNat + size.toNat
  page : s.base.lastChecked = 0 ∨ s.base.lastChecked = l4TruncPage s.lowest ∧
    ∀ x, s.lowest.toNat / 4096 * 4096 ≤ x → x < s.lowest.toNat → s.base.Allocated (x - vma.toNat)
  written : ∀ a ∈ s.written, ∀ x, a.addr.toNat ≤ x → x < a.addr.toNat + a.sz.toNat → s.base.Allocated (x - vma.toNat)

theorem checked_start (h : vma.toNat + size.toNat < 2 ^ (8 * w.bytes)) :
    (StackUse.start vma size).Checked vma size where
  vma_eq := rfl
  lowest_le := by
    rw [StackUse.start, BitVec.toNat_add, Nat.mod_eq_of_lt h]
  page := Or.inl rfl
  written _ ha := by cases ha

theorem StackBase.Allocated.mono (h : b.Allocated off) {r : ULong w × ULong w} {vma last : ULong w} :
    (⟨vma, last, r :: b.stackDs⟩ : StackBase w).Allocated off := by
  obtain ⟨r', hr', hoff⟩ := h
  exact ⟨r', List.mem_cons_of_mem r hr', hoff⟩

theorem StackUse.Checked.step (h : s.Checked vma size) (hvma : vma.toNat % 4096 = 0) (hpos : 0 < vma.toNat)
    (hdescends : s.Descends a) (hstep : s.step a = some s') :
    s'.Checked vma size := by
  obtain ⟨b', hcheck, rfl⟩ := Option.map_eq_some_iff.mp hstep
  obtain ⟨hinside, hbelow⟩ := hdescends
  rw [h.vma_eq] at hinside
  have hle := h.lowest_le
  have hcheck : s.base.checkAccess a.addr a.sz a.ret = .ok b' := by
    cases hres : s.base.checkAccess a.addr a.sz a.ret with
    | error e =>
      rw [hres] at hcheck
      cases hcheck
    | ok b =>
      rw [hres] at hcheck
      exact congrArg Except.ok (Option.some.inj hcheck)
  rcases checkAccess_cases hcheck with ⟨hsame, rfl⟩ | rfl
  · -- the write begins on the page that was checked, and ends on it
    have htrunc : (l4TruncPage a.addr).toNat = a.addr.toNat / 4096 * 4096 := toNat_truncPage
    rcases h.page with hzero | ⟨hlast, hpage⟩
    · rw [← hsame, hzero] at htrunc
      have hzero' : (0 : ULong w).toNat = 0 := rfl
      omega
    · have hlowest : (l4TruncPage s.lowest).toNat = s.lowest.toNat / 4096 * 4096 := toNat_truncPage
      rw [← hlast, hsame, htrunc] at hlowest
      refine ⟨h.vma_eq, by simp only; omega, Or.inr ⟨hsame, fun x hx hlt => ?_⟩, fun a' ha' x hx hlt => ?_⟩
      · have hx : a.addr.toNat / 4096 * 4096 ≤ x := hx
        have hlt : x < a.addr.toNat := hlt
        exact hpage x (hlowest ▸ hx) (by omega)
      · rcases List.mem_cons.mp ha' with rfl | ha'
        · exact hpage x (by omega) (by omega)
        · exact h.written a' ha' x hx hlt
  · -- the pages of the write are allocated, up to the one on which it ends
    have hfits : a.addr.toNat + a.sz.toNat < 2 ^ (8 * w.bytes) := by omega
    have hnew {x : Nat} := allocated_new (x := x) hvma hpos hinside hfits
    rw [← h.vma_eq] at hnew
    refine ⟨h.vma_eq, by simp only; omega, Or.inr ⟨rfl, fun x hx hlt => ?_⟩, fun a' ha' x hx hlt => ?_⟩
    · rw [← h.vma_eq]
      exact ⟨_, List.mem_cons_self, hnew hx (Or.inr hlt)⟩
    · rcases List.mem_cons.mp ha' with rfl | ha'
      · rw [← h.vma_eq]
        exact ⟨_, List.mem_cons_self, hnew (by omega) (Or.inl hlt)⟩
      · exact (h.written a' ha' x hx hlt).mono

/-- In every run of writes that go down a stack, all that is written was allocated before. -/
theorem written_allocated {accesses : List (StackAccess w)} (hvma : vma.toNat % 4096 = 0) (hpos : 0 < vma.toNat)
    (hfits : vma.toNat + size.toNat < 2 ^ (8 * w.bytes))
    (hrun : Run StackUse.step StackUse.Descends (.start vma size) accesses s) :
    ∀ a ∈ s.written, ∀ x, a.addr.toNat ≤ x → x < a.addr.toNat + a.sz.toNat → s.base.Allocated (x - vma.toNat) :=
  (hrun.keeps (fun _ _ _ h hd hstep => h.step hvma hpos hd hstep) (checked_start hfits)).written

end

/-- Two writes on one page, and a third one over two pages. -/
theorem written_allocated_three : ∃ s : StackUse .w32,
    s.base.stackDs = [(0x2000, 0x2000), (0x3000, 0x1000)] ∧ s.written.length = 3 ∧
      ∀ a ∈ s.written, ∀ x, a.addr.toNat ≤ x → x < a.addr.toNat + a.sz.toNat →
      s.base.Allocated (x - (0x10000 : ULong .w32).toNat) := by
  have hrun : Run StackUse.step StackUse.Descends (.start (0x10000 : ULong .w32) 0x4000)
      [⟨0x13ff0, 16, 0⟩, ⟨0x13f00, 32, 0⟩, ⟨0x12f00, 0x200, 0⟩] _ :=
    .cons ⟨by decide, by decide⟩ rfl (.cons ⟨by decide, by decide⟩ rfl (.cons ⟨by decide, by decide⟩ rfl (.nil _)))
  exact ⟨_, by decide, rfl, written_allocated (by decide) (by decide) (by decide) hrun⟩

end Dom0
