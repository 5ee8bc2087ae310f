import Dom0.Lib.Runs
import Dom0.Theorems.Refinement
import Mathlib.Data.BitVec

/-! Positions in a directory. `lseek64` adds the offset to what `size` returns, and looks at the sign of the sum only:
an error of `fstat64` becomes a position where the offset outweighs it. -/

namespace Dom0

/-- A call on an `L4fs_dir` that works with its `_pos`. -/
inductive DirCall {w : Word} (E : Ipc w)
  | lseek64 (offset : Off64T) (whence : CInt) (st : Stat64 E)
  | getdents (buf : List UInt8)

/-- `_pos`. -/
def File.pos : File → Off64T
  | .dir _ pos => pos
  | .file _ => 0

section
variable {w : Word} {E : Ipc w} {σ : Type}

namespace DirCall
variable (h : L4fsSvr E (Server σ)) (stSize : Stat64 E → Off64T) (fh : CInt)

/-- What the call returns, and `_pos` behind it. -/
def run (W : World E (Server σ)) (pos : Off64T) : DirCall E → Int × Off64T
  | .lseek64 offset whence st =>
    let r := L4fsDir.lseek64 h stSize W fh pos offset whence st
    (r.2.1.toInt, r.2.2.pos)
  | .getdents buf =>
    let r := L4fsDir.getdents h W fh pos buf
    (r.2.1.toInt, r.2.2.1.pos)

/-- Where `lseek64` is meant to go, if anywhere. -/
def target (W : World E (Server σ)) (pos offset : Off64T) (whence : CInt) (st : Stat64 E) : Option Int :=
  if whence = seekSet then some offset.toInt
  else if whence = seekCur then some (pos.toInt + offset.toInt)
  else if whence = seekEnd then
    let r := L4fs.fstat64 h W fh st
    if r.2.1 = 0 then some ((stSize r.2.2).toInt + offset.toInt) else none
  else none

/-- `_pos` is not negative, and `lseek64` goes where it is meant to go or says that it does not. -/
def Exact (W : World E (Server σ)) (pos : Off64T) (c : DirCall E) : Prop :=
  let r := c.run h stSize fh W pos
  0 ≤ r.2.toInt ∧
    match c with
    | .lseek64 offset whence st =>
      target h stSize fh W pos offset whence st = some r.1 ∧ r.2.toInt = r.1 ∨ r.1 < 0 ∧ r.2 = pos
    | .getdents _ => True

/-- A size that can be had and is not so far below zero that the sum wraps, or an error that the offset does not
    outweigh; and entries that the position can count. -/
def Safe (W : World E (Server σ)) (pos : Off64T) : DirCall E → Prop
  | .lseek64 offset whence st =>
    let r := L4fs.fstat64 h W fh st
    whence ≠ seekEnd ∨ r.2.1 = 0 ∧ -2 ^ 63 ≤ (stSize r.2.2).toInt + offset.toInt ∨
      r.2.1 ≠ 0 ∧ (r.2.1.signExtend 64 + offset).toInt < 0
  | .getdents buf =>
    let r := L4fs.pgetdents h W fh (BitVec.ofNat _ buf.length) pos
    r.2.1 = 0 ∧ r.2.2 ≤ BitVec.ofNat _ buf.length → pos.toInt + r.2.2.toNat < 2 ^ 63

/-- A call leaves its `_pos` to the next one, which finds the server and the shared buffer in any state. -/
def step (pos : Off64T) (call : World E (Server σ) × DirCall E) : Option Off64T :=
  some (call.2.run h stSize fh call.1 pos).2

variable {h : L4fsSvr E (Server σ)} {stSize : Stat64 E → Off64T} {fh : CInt} {W : World E (Server σ)} {pos : Off64T}
  {c : DirCall E}

theorem toInt_add_cases (x y : Off64T) :
    -2 ^ 63 ≤ x.toInt + y.toInt ∧ x.toInt + y.toInt < 2 ^ 63 ∧ (x + y).toInt = x.toInt + y.toInt ∨
      2 ^ 63 ≤ x.toInt + y.toInt ∧ (x + y).toInt < 0 ∨ x.toInt + y.toInt < -2 ^ 63 ∧ 0 ≤ (x + y).toInt := by
  have hx := BitVec.two_mul_toInt_lt (x := x)
  have hx' := BitVec.le_two_mul_toInt (x := x)
  have hy := BitVec.two_mul_toInt_lt (x := y)
  have hy' := BitVec.le_two_mul_toInt (x := y)
  rw [BitVec.toInt_add, Int.bmod_def]
  omega

section Seek
variable {offset r : Off64T} {whence : CInt} {st : Stat64 E}

theorem lseek64_run :
    (DirCall.lseek64 offset whence st).run h stSize fh W pos =
      match (L4fsDir.seekTarget h stSize W fh pos offset whence st).2 with
      | none => (-22, pos)
      | some r => if r.toInt < 0 then (-22, pos) else (r.toInt, r) := by
  simp only [run, L4fsDir.lseek64]
  cases (L4fsDir.seekTarget h stSize W fh pos offset whence st).2 with
  | none => rfl
  | some r =>
    by_cases hr : r.toInt < 0
    · simp only [if_pos hr]
      rfl
    · simp only [if_neg hr]
      rfl

/-- It is right where a number that is not negative is the one that was meant. -/
theorem exact_iff_of_some (hpos : 0 ≤ pos.toInt)
    (hr : (L4fsDir.seekTarget h stSize W fh pos offset whence st).2 = some r) :
    (DirCall.lseek64 offset whence st).Exact h stSize fh W pos ↔
      (0 ≤ r.toInt → target h stSize fh W pos offset whence st = some r.toInt) := by
  simp only [Exact, lseek64_run, hr]
  by_cases hneg : r.toInt < 0
  · simp only [if_pos hneg]
    exact ⟨fun _ hnonneg => absurd hneg (Int.not_lt.mpr hnonneg), fun _ => ⟨hpos, Or.inr ⟨by omega, trivial⟩⟩⟩
  · simp only [if_neg hneg]
    have hnonneg : 0 ≤ r.toInt := Int.not_lt.mp hneg
    constructor
    · rintro ⟨-, ⟨hmeant, -⟩ | ⟨hlt, -⟩⟩ _
      · exact hmeant
      · exact absurd hlt hneg
    · exact fun hmeant => ⟨hnonneg, Or.inl ⟨hmeant hnonneg, trivial⟩⟩

theorem exact_of_none (hpos : 0 ≤ pos.toInt) (hr : (L4fsDir.seekTarget h stSize W fh pos offset whence st).2 = none) :
    (DirCall.lseek64 offset whence st).Exact h stSize fh W pos := by
  simp only [Exact, lseek64_run, hr]
  exact ⟨hpos, Or.inr ⟨by omega, trivial⟩⟩

theorem lseek64_exact_iff (hpos : 0 ≤ pos.toInt) :
    (DirCall.lseek64 offset whence st).Exact h stSize fh W pos ↔
      (DirCall.lseek64 offset whence st).Safe h stSize fh W pos := by
  by_cases hset : whence = seekSet
  · subst hset
    rw [exact_iff_of_some (r := offset) hpos (by simp [L4fsDir.seekTarget])]
    exact ⟨fun _ => Or.inl (by decide), fun _ _ => if_pos rfl⟩
  by_cases hcur : whence = seekCur
  · subst hcur
    rw [exact_iff_of_some (r := pos + offset) hpos (by simp [L4fsDir.seekTarget, hset])]
    refine ⟨fun _ => Or.inl (by decide), fun _ hnonneg => ?_⟩
    have hlow := BitVec.le_two_mul_toInt (x := offset)
    rcases toInt_add_cases pos offset with ⟨-, -, heq⟩ | ⟨-, hneg⟩ | ⟨hwrap, -⟩
    · rw [target, if_neg hset, if_pos rfl, heq]
    · omega
    · omega
  by_cases hend : whence = seekEnd
  · subst hend
    rw [exact_iff_of_some hpos (by rw [L4fsDir.seekTarget, if_neg hset, if_neg hcur, if_pos rfl])]
    simp only [Safe, target, if_neg hset, if_neg hcur, if_pos, L4fsFileBase.size, ne_eq, not_true_eq_false, false_or]
    generalize L4fs.fstat64 h W fh st = a
    by_cases hok : a.2.1 = 0
    · simp only [hok, if_true, Option.some.injEq, true_and, not_true_eq_false, false_and, or_false]
      rcases toInt_add_cases (stSize a.2.2) offset with ⟨hlow, -, heq⟩ | ⟨hhigh, hneg⟩ | ⟨hlow, hnonneg⟩
      · exact ⟨fun _ => hlow, fun _ _ => heq.symm⟩
      · exact ⟨fun _ => by omega, fun _ hnonneg => absurd hneg (Int.not_lt.mpr hnonneg)⟩
      · refine ⟨fun hmeant => ?_, fun hle => absurd hlow (Int.not_lt.mpr hle)⟩
        have := hmeant hnonneg
        omega
    · simp only [hok, if_false, reduceCtorEq, imp_false, Int.not_le, false_and, not_false_eq_true, true_and, false_or]
  · refine ⟨fun _ => Or.inl hend, fun _ => exact_of_none hpos ?_⟩
    rw [L4fsDir.seekTarget, if_neg hset, if_neg hcur, if_neg hend]

end Seek

section Entries
variable {size : SizeT w}

theorem le_of_pgetdents (h : L4fsSvr E (Server σ)) (W : World E (Server σ)) (fh : CInt) (size : SizeT w) (pos : Off64T)
    (hok : (L4fs.pgetdents h W fh size pos).2.1 = 0) : size.toNat ≤ maxRwBufferSize := by
  by_contra hbig
  have htooBig : L4fs.tooBig size = true := decide_eq_true (Nat.lt_of_not_le hbig)
  rw [L4fs.pgetdents, L4fs.callTransfer, if_pos htooBig] at hok
  exact absurd (show -l4Enomem = 0 from hok) (by decide)

theorem toInt_add_size (hpos : 0 ≤ pos.toInt) (hsize : size.toNat ≤ maxRwBufferSize) :
    0 ≤ (pos + size.setWidth 64).toInt ↔ pos.toInt + size.toNat < 2 ^ 63 := by
  have hmax : maxRwBufferSize = 1048576 := rfl
  have hlow := BitVec.toInt_pos_iff.mp hpos
  have hint := BitVec.toInt_eq_toNat_cond pos
  rw [if_pos hlow] at hint
  have hsum : (pos + size.setWidth 64).toNat = pos.toNat + size.toNat := by
    rw [BitVec.toNat_add, BitVec.toNat_setWidth, Nat.mod_eq_of_lt (a := size.toNat) (by omega),
      Nat.mod_eq_of_lt (by omega)]
  rw [BitVec.toInt_pos_iff, hsum, hint]
  omega

theorem getdents_exact_iff {buf : List UInt8} (hpos : 0 ≤ pos.toInt) :
    (DirCall.getdents buf : DirCall E).Exact h stSize fh W pos ↔ (DirCall.getdents buf).Safe h stSize fh W pos := by
  have hbound := le_of_pgetdents h W fh (BitVec.ofNat _ buf.length) pos
  have hlt := BitVec.two_mul_toInt_lt (x := pos)
  simp only [Exact, Safe, run, L4fsDir.getdents, and_true]
  generalize L4fs.pgetdents h W fh _ pos = r at hbound
  by_cases hmoves : r.2.1 = 0 ∧ r.2.2 ≤ BitVec.ofNat (8 * w.bytes) buf.length
  · have hsize : r.2.2.toNat ≤ maxRwBufferSize := hmoves.2.trans (hbound hmoves.1)
    rw [← toInt_add_size hpos hsize]
    by_cases hsome : 0 < r.2.2
    · rw [if_pos ⟨hmoves.1, hsome, hmoves.2⟩]
      exact ⟨fun hnonneg _ => hnonneg, fun hnonneg => hnonneg hmoves⟩
    · have hnone : r.2.2 = 0 := BitVec.eq_of_toNat_eq (Nat.eq_zero_of_not_pos hsome)
      have hstays : pos + (0 : SizeT w).setWidth 64 = pos := by simp
      rw [if_neg fun hall => hsome hall.2.1, hnone, hstays]
      exact ⟨fun _ _ => hpos, fun _ => hpos⟩
  · rw [if_neg fun hall => hmoves ⟨hall.1, hall.2.2⟩]
    exact ⟨fun _ hall => absurd hall hmoves, fun _ => hpos⟩

end Entries

theorem exact_iff (hpos : 0 ≤ pos.toInt) : c.Exact h stSize fh W pos ↔ c.Safe h stSize fh W pos := by
  cases c with
  | lseek64 offset whence st => exact lseek64_exact_iff hpos
  | getdents buf => exact getdents_exact_iff hpos

/-- A run on a directory object goes as it should exactly where all of its calls are safe. -/
theorem along_exact_iff (h : L4fsSvr E (Server σ)) (stSize : Stat64 E → Off64T) (fh : CInt)
    (calls : List (World E (Server σ) × DirCall E)) :
    Run.Along (step h stSize fh) (fun pos call _ => call.2.Exact h stSize fh call.1 pos) 0 calls ↔
      Run.Along (step h stSize fh) (fun pos call _ => call.2.Safe h stSize fh call.1 pos) 0 calls := by
  refine Run.along_congr (I := fun pos => 0 ≤ pos.toInt) (fun pos call _ hpos _ => exact_iff hpos) ?_ (by decide)
  rintro pos call _ hpos ⟨rfl⟩ hsafe
  exact ((exact_iff hpos).mpr hsafe).1

end DirCall
end

/-! ### A directory without a size -/

/-- On a server whose `fstat64` fails with -1, a seek to five bytes behind the end of the directory ends at 4. -/
theorem DirCall.seek_failed_size :
    let h := oneFileSvr
    let c : DirCall Ipc.x86 := .lseek64 5 seekEnd (zeroStat Ipc.x86)
    c.run h (fun _ => 0) 3 oneFileClients.world 0 = (4, 4) ∧
      ¬Run.Along (step h (fun _ => 0) 3) (fun pos call _ => call.2.Exact h (fun _ => 0) 3 call.1 pos) 0
        [(oneFileClients.world, c)] := by
  have hfstat : (L4fs.fstat64 oneFileSvr oneFileClients.world 3 (zeroStat Ipc.x86)).2 = (-1, zeroStat Ipc.x86) :=
    (L4fs.fstat64_eq 3 (zeroStat Ipc.x86)).2
  have hrun : (DirCall.lseek64 5 seekEnd (zeroStat Ipc.x86)).run oneFileSvr (fun _ => 0) 3 oneFileClients.world 0 =
      (4, 4) := by
    rw [lseek64_run, L4fsDir.seekTarget, if_neg (by decide), if_neg (by decide), if_pos rfl]
    simp only [L4fsFileBase.size, hfstat]
    decide
  refine ⟨hrun, fun hall => ?_⟩
  have hexact := (hall _ rfl).1.2
  rw [hrun] at hexact
  rcases hexact with ⟨hmeant, -⟩ | ⟨hneg, -⟩
  · rw [target, if_neg (by decide), if_neg (by decide), if_pos rfl] at hmeant
    simp only [hfstat] at hmeant
    exact absurd hmeant (by decide)
  · exact absurd hneg (by decide)

end Dom0
