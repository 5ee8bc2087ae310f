import Dom0.Lib.Runs
import Dom0.Libfs.Session

/-! When a session ends. `remove_ref` hands back the count from before, so that the last reference that is dropped finds
1 and not 0: the `Svr` stays, with its capability and its mapping. -/

namespace Dom0
namespace SvrSession

section
variable {w : Word}

/-- The `Svr` is gone exactly where nobody refers to it. -/
def Right (s : SvrSession w) : Prop := s.svr = none ↔ s.holders = ∅

/-- A reference is dropped only where another one is left, and where their number is none at which `_ref` wraps. -/
def Orderly (s : SvrSession w) : SessionAction → Prop
  | .mountDir _ | .getEntry _ _ => True
  | .mountEnds | .destroy _ => 1 < s.holders.card ∧ ¬2 ^ (8 * w.bytes) ∣ s.holders.card

/-- `_ref` counts those that refer to it. -/
structure Counted (s : SvrSession w) : Prop where
  svr : s.svr = some ⟨BitVec.ofNat _ s.holders.card⟩
  held : s.holders ≠ ∅

variable {s s' : SvrSession w} {i j : SvrHolder} {a : SessionAction}

theorem counted_start : Counted (start : SvrSession w) := by
  refine ⟨?_, Finset.singleton_ne_empty _⟩
  simp [start, Svr.new, Svr.addRef]

theorem Counted.right (h : s.Counted) : s.Right := by
  rw [Right, h.svr]
  exact ⟨fun hnone => absurd hnone (Option.some_ne_none _), fun hempty => absurd hempty h.held⟩

theorem Counted.copy (h : s.Counted) (hstep : s.copy i j = some s') : s'.Counted := by
  simp only [SvrSession.copy, Option.ite_none_right_eq_some, h.svr, Option.map_some, Option.some.injEq] at hstep
  obtain ⟨⟨-, hj⟩, rfl⟩ := hstep
  refine ⟨?_, Finset.insert_ne_empty _ _⟩
  simp only [Svr.addRef, Finset.card_insert_of_notMem hj, BitVec.ofNat_add]
  rfl

theorem ofNat_eq_zero_iff {n : Nat} : BitVec.ofNat (8 * w.bytes) n = 0 ↔ 2 ^ (8 * w.bytes) ∣ n := by
  rw [Nat.dvd_iff_mod_eq_zero, ← BitVec.toNat_inj, BitVec.toNat_ofNat]
  simp

/-- What dropping a reference does. -/
theorem Counted.drop_cases (h : s.Counted) (hstep : s.drop i = some s') :
    i ∈ s.holders ∧ s'.holders = s.holders.erase i ∧
      s'.svr = if 2 ^ (8 * w.bytes) ∣ s.holders.card then none else some ⟨BitVec.ofNat _ (s.holders.card - 1)⟩ := by
  simp only [SvrSession.drop, Option.ite_none_right_eq_some, h.svr, Option.map_some, Option.some.injEq] at hstep
  obtain ⟨hi, rfl⟩ := hstep
  refine ⟨hi, rfl, ?_⟩
  have hpos := Finset.card_pos.mpr ⟨i, hi⟩
  have hless : (BitVec.ofNat (8 * w.bytes) s.holders.card - 1) = BitVec.ofNat _ (s.holders.card - 1) := by
    obtain ⟨n, hn⟩ := Nat.exists_eq_add_of_lt hpos
    rw [hn, Nat.zero_add, Nat.add_sub_cancel, BitVec.ofNat_add]
    exact BitVec.add_sub_cancel _ _
  simp only [Svr.release, Svr.removeRef, ofNat_eq_zero_iff, hless]

/-- A reference is dropped as it should be exactly where the drop is orderly, which leaves the count in order. -/
theorem Counted.drop_right_iff (h : s.Counted) (hstep : s.drop i = some s') :
    (s'.Right ↔ 1 < s.holders.card ∧ ¬2 ^ (8 * w.bytes) ∣ s.holders.card) ∧ (s'.Right → s'.Counted) := by
  obtain ⟨hi, hholders, hsvr⟩ := h.drop_cases hstep
  have hcard : s'.holders.card = s.holders.card - 1 := by rw [hholders, Finset.card_erase_of_mem hi]
  have hpos := Finset.card_pos.mpr ⟨i, hi⟩
  have hempty : s'.holders = ∅ ↔ s.holders.card = 1 := by
    rw [← Finset.card_eq_zero, hcard]
    omega
  by_cases hwraps : 2 ^ (8 * w.bytes) ∣ s.holders.card
  · have hlarge : s.holders.card ≠ 1 := by
      have hle := Nat.le_of_dvd hpos hwraps
      have hword := w.two_pow_le
      omega
    rw [if_pos hwraps] at hsvr
    have hwrong : ¬s'.Right := fun hright => hlarge (hempty.mp (hright.mp hsvr))
    exact ⟨⟨fun hright => absurd hright hwrong, fun horderly => absurd hwraps horderly.2⟩,
      fun hright => absurd hright hwrong⟩
  · rw [if_neg hwraps, ← hcard] at hsvr
    have hright : s'.Right ↔ s'.holders ≠ ∅ := by
      rw [Right, hsvr]
      exact ⟨fun hiff hnone => absurd (hiff.mpr hnone) (Option.some_ne_none _),
        fun hne => ⟨fun hnone => absurd hnone (Option.some_ne_none _), fun hnone => absurd hnone hne⟩⟩
    refine ⟨?_, fun hkept => ⟨hsvr, hright.mp hkept⟩⟩
    rw [hright, ne_eq, hempty]
    exact ⟨fun hne => ⟨by omega, hwraps⟩, fun horderly => by omega⟩

theorem Counted.step_iff (h : s.Counted) (hstep : s.step a = some s') :
    (s'.Right ↔ s.Orderly a) ∧ (s.Orderly a → s'.Counted) := by
  cases a with
  | mountDir addr =>
    have hcounted := h.copy hstep
    exact ⟨⟨fun _ => trivial, fun _ => hcounted.right⟩, fun _ => hcounted⟩
  | getEntry dir addr =>
    have hcounted := h.copy hstep
    exact ⟨⟨fun _ => trivial, fun _ => hcounted.right⟩, fun _ => hcounted⟩
  | mountEnds =>
    obtain ⟨hiff, hkeeps⟩ := h.drop_right_iff hstep
    exact ⟨hiff, fun horderly => hkeeps (hiff.mpr horderly)⟩
  | destroy addr =>
    obtain ⟨hiff, hkeeps⟩ := h.drop_right_iff hstep
    exact ⟨hiff, fun horderly => hkeeps (hiff.mpr horderly)⟩

/-- In a run from `mount` on, the session is there exactly as long as it is referred to, exactly where every drop is
    orderly. -/
theorem along_right_iff (w : Word) (actions : List SessionAction) :
    Run.Along step (fun _ _ s' => s'.Right) (start : SvrSession w) actions ↔
      Run.Along step (fun s a _ => s.Orderly a) (start : SvrSession w) actions :=
  Run.along_congr (I := Counted) (fun _ _ _ h hstep => (h.step_iff hstep).1) (fun _ _ _ h hstep => (h.step_iff hstep).2)
    counted_start

end

/-- A mount whose directory is destroyed again: nobody refers to the `Svr` any more, and it is still there. -/
theorem unmounted_not_right :
    let actions : List SessionAction := [.mountDir 0, .mountEnds, .destroy 0]
    actions.foldlM step (start : SvrSession .w32) = some ⟨some ⟨0⟩, ∅⟩ ∧
      ¬Run.Along step (fun _ _ s' => s'.Right) (start : SvrSession .w32) actions := by
  refine ⟨by decide, fun hall => ?_⟩
  have hright : Right (⟨some ⟨0⟩, ∅⟩ : SvrSession .w32) := ((((hall _ rfl).2 _ rfl).2) _ rfl).1
  exact absurd (hright.mpr rfl) (Option.some_ne_none _)

end SvrSession
end Dom0
