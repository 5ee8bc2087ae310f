import Dom0.Theorems.SharedBuffer

/-! The copies of the clients. Each of the calls that move data through the shared buffer copies at a place of its own:
the paths are checked before they are copied, directory entries after the server has answered, a write is checked only
when its bytes were copied already, and the count that comes back from a read is not checked at all. -/

namespace Dom0

/-- A call that moves data through the shared buffer. -/
inductive BufferCall (w : Word)
  | preadv (fh : CInt) (iov : List (Entry w)) (p : Off64T)
  | pwritev (fh : CInt) (iov : List (Entry w)) (p : Off64T)
  | getdents (fh : CInt) (pos : Off64T) (buf : Entry w)
  | readlink (o : File) (buf : Entry w)
  | rename («from» dst : CString)
  | link (srcPath dstPath : CString)
  | symlink (srcPath dstPath : CString)

section
variable {w : Word} {E : Ipc w} {σ : Type} (h : L4fsSvr E (Server σ))

/-- What the call leaves behind. -/
def BufferCall.run (W : World E (Server σ)) : BufferCall w → World E (Server σ)
  | .preadv fh iov p => (L4fsFile.preadv h W fh (iov.map Subtype.val) p).1
  | .pwritev fh iov p => (L4fsFile.pwritev h W fh (iov.map Subtype.val) p).1
  | .getdents fh pos buf => (L4fsDir.getdents h W fh pos buf.1).1
  | .readlink o buf => (L4fsFileBase.readlink h W o buf.1).1
  | .rename «from» dst => (L4fsDir.rename h W «from» dst).1
  | .link srcPath dstPath => (L4fsFileBase.link h W srcPath dstPath).1
  | .symlink srcPath dstPath => (L4fsFileBase.symlink h W srcPath dstPath).1

/-- The requests of a read, each with the length of its entry and with what the stub hands back for it. -/
def preadAnswers (fh : CInt) : World E (Server σ) → List Nat → Off64T → List (Nat × CInt × SizeT w)
  | _, [], _ => []
  | W, l :: ls, p =>
    let r := L4fs.pread h W fh (BitVec.ofNat _ l) p
    (l, r.2) :: if r.2.1.toInt < 0 then [] else preadAnswers fh r.1 ls (p + r.2.2.setWidth 64)

/-- The entries of a write that it comes to: those behind one that the server wrote whole. -/
def pwriteEntries (fh : CInt) : World E (Server σ) → List (List UInt8) → Off64T → List (List UInt8)
  | _, [], _ => []
  | W, buf :: rest, p =>
    let r := L4fs.pwrite h (W.copyIn buf) fh (BitVec.ofNat _ buf.length) p
    buf :: if r.2.1.toInt < 0 ∨ r.2.2 ≠ BitVec.ofNat _ buf.length then []
      else pwriteEntries fh r.1 rest (p + r.2.2.setWidth 64)

/-- What keeps the copies of a call in bounds: of a read the counts that the server answers, of a write the lengths of
    its entries, and of a `readlink` that succeeds the caller's length. -/
def BufferCall.Bounded (W : World E (Server σ)) : BufferCall w → Prop
  | .preadv fh iov p =>
    ∀ a ∈ preadAnswers h fh W ((iov.map Subtype.val).map List.length) p, a.2.1 = 0 → a.2.2.toNat ≤ a.1
  | .pwritev fh iov p => ∀ buf ∈ pwriteEntries h fh W (iov.map Subtype.val) p, buf.length ≤ maxRwBufferSize
  | .readlink o buf => 0 ≤ (L4fs.readlink h W o.fh buf.len).2.1.toInt → buf.1.length ≤ maxRwBufferSize
  | .getdents _ _ _ | .rename _ _ | .link _ _ | .symlink _ _ => True

end

section
variable {w : Word} {E : Ipc w} {σ : Type} {h : L4fsSvr E (Server σ)} {W : World E (Server σ)} {fh : CInt} {p : Off64T}

/-- All copies that were made so far stayed inside their buffers. -/
def World.Inside (W : World E (Server σ)) : Prop := ∀ c ∈ W.copies, c.Inside

theorem inside_copyIn {bs : List UInt8} : (W.copyIn bs).Inside ↔ W.Inside ∧ bs.length ≤ maxRwBufferSize := by
  simp only [World.Inside, World.copyIn, List.forall_mem_append, List.forall_mem_singleton]
  exact Iff.rfl

theorem inside_copyOut {buf : List UInt8} {n : Nat} :
    (W.copyOut buf n).1.Inside ↔ W.Inside ∧ n ≤ maxRwBufferSize ∧ n ≤ buf.length := by
  simp only [World.Inside, World.copyOut, List.forall_mem_append, List.forall_mem_cons, List.not_mem_nil, false_implies,
    implies_true, and_true]
  exact Iff.rfl

theorem inside_call {request : List Marshal.Field} : (W.call h request).1.Inside ↔ W.Inside := Iff.rfl

theorem inside_callTransfer {o : Opcode} {size : SizeT w} :
    (L4fs.callTransfer h W o fh size p).1.Inside ↔ W.Inside := by
  unfold L4fs.callTransfer
  by_cases hbig : L4fs.tooBig size = true
  · rw [if_pos hbig]
  · rw [if_neg hbig, inside_call]

theorem inside_callName {o : Opcode} {name : CString} : (L4fs.callName h W o name).1.Inside ↔ W.Inside := by
  unfold L4fs.callName
  by_cases hlong : L4fs.tooLong w name = true
  · rw [if_pos hlong]
  · rw [if_neg hlong, inside_call]

theorem le_of_callTransfer {o : Opcode} (e : Entry w) (h0 : (L4fs.callTransfer h W o fh e.len p).2.1 = 0) :
    e.1.length ≤ maxRwBufferSize := by
  by_contra hbig
  have hrefused : L4fs.tooBig e.len = true := by rw [tooBig_len]; exact decide_eq_true (Nat.lt_of_not_le hbig)
  rw [L4fs.callTransfer, if_pos hrefused] at h0
  change -l4Enomem = (0 : CInt) at h0
  exact absurd h0 (by decide)

/-- A path that is copied was checked. -/
theorem inside_path (run : World E (Server σ) → World E (Server σ) × CInt) {dst : CString}
    (hrun : ∀ W, (run W).1.Inside ↔ W.Inside) (hW : W.Inside) :
    (if L4fs.tooLong w dst then (W, -l4Enametoolong) else run (W.copyIn dst.c_str)).1.Inside := by
  by_cases hdst : dst.strlen + 1 ≤ maxPathSize w
  · rw [L4fs.tooLong_of_fits hdst, if_neg Bool.false_ne_true, hrun, inside_copyIn, CString.length_c_str]
    exact ⟨hW, hdst.trans maxPathSize_le⟩
  · rw [L4fs.tooLong_of_not_fits hdst, if_pos rfl]
    exact hW

theorem preadAnswers_copies {cs : List Copy} {ls : List Nat} :
    preadAnswers h fh { W with copies := cs } ls p = preadAnswers h fh W ls p := by
  induction ls generalizing W p with
  | nil => rfl
  | cons l ls ih => simp only [preadAnswers, L4fs.pread_copies, ih]

theorem mem_preadAnswers {l : Nat} {ls : List Nat} :
    (l, (L4fs.pread h W fh (BitVec.ofNat _ l) p).2) ∈ preadAnswers h fh W (l :: ls) p := by
  rw [preadAnswers]
  exact List.mem_cons_self

theorem inside_preadvLoop {iov : List (Entry w)} {k : SSizeT w} :
    (L4fsFile.preadvLoop h fh W (iov.map Subtype.val) p k).1.Inside ↔
      W.Inside ∧ ∀ a ∈ preadAnswers h fh W ((iov.map Subtype.val).map List.length) p, a.2.1 = 0 →
      a.2.2.toNat ≤ a.1 := by
  induction iov generalizing W p k with
  | nil => simp [L4fsFile.preadvLoop, preadAnswers]
  | cons e rest ih =>
    have hkeeps : (L4fs.pread h W fh e.len p).1.Inside ↔ W.Inside := inside_callTransfer
    have hroom : (L4fs.pread h W fh e.len p).2.1 = 0 → e.1.length ≤ maxRwBufferSize := le_of_callTransfer e
    simp only [List.map_cons, L4fsFile.preadvLoop, preadAnswers, List.forall_mem_cons]
    generalize hr : L4fs.pread h W fh e.len p = r at hkeeps hroom
    rw [show L4fs.pread h W fh (BitVec.ofNat _ e.1.length) p = r from hr]
    by_cases hneg : r.2.1.toInt < 0
    · have hne : r.2.1 ≠ 0 := by
        intro h0
        rw [h0] at hneg
        exact absurd hneg (by decide)
      rw [if_pos hneg, if_pos hneg, hkeeps]
      exact ⟨fun hin => ⟨hin, fun h0 => absurd h0 hne, fun a ha => absurd ha List.not_mem_nil⟩, And.left⟩
    rw [if_neg hneg, if_neg hneg]
    -- Where bytes are copied, the count decides; and only the record of the copies changes.
    obtain ⟨cs, buf, hcopied, hcount⟩ : ∃ cs buf,
        (if r.2.1 = 0 ∧ r.2.2 ≠ 0 then r.1.copyOut e.1 r.2.2.toNat else (r.1, e.1)) = ({ r.1 with copies := cs }, buf) ∧
          (World.Inside { r.1 with copies := cs } ↔ W.Inside ∧ (r.2.1 = 0 → r.2.2.toNat ≤ e.1.length)) := by
      by_cases hdone : r.2.1 = 0 ∧ r.2.2 ≠ 0
      · refine ⟨_, _, if_pos hdone, ?_⟩
        have hmax := hroom hdone.1
        refine inside_copyOut.trans ⟨?_, ?_⟩
        · rintro ⟨hin, -, hle⟩
          exact ⟨hkeeps.mp hin, fun _ => hle⟩
        · rintro ⟨hin, hle⟩
          exact ⟨hkeeps.mpr hin, (hle hdone.1).trans hmax, hle hdone.1⟩
      · refine ⟨r.1.copies, e.1, if_neg hdone, hkeeps.trans ⟨fun hin => ⟨hin, fun h0 => ?_⟩, And.left⟩⟩
        have hnone : r.2.2 = 0 := by
          by_contra hne
          exact hdone ⟨h0, hne⟩
        rw [hnone]
        exact Nat.zero_le _
    rw [hcopied, ih, hcount, preadAnswers_copies, and_assoc]

theorem mem_pwriteEntries {buf : List UInt8} {rest : List (List UInt8)} :
    buf ∈ pwriteEntries h fh W (buf :: rest) p := by
  rw [pwriteEntries]
  exact List.mem_cons_self

theorem inside_pwritevLoop {iov : List (List UInt8)} {k : SSizeT w} :
    (L4fsFile.pwritevLoop h fh W iov p k).1.Inside ↔
      W.Inside ∧ ∀ buf ∈ pwriteEntries h fh W iov p, buf.length ≤ maxRwBufferSize := by
  induction iov generalizing W p k with
  | nil => simp [L4fsFile.pwritevLoop, pwriteEntries]
  | cons buf rest ih =>
    have hkeeps : (L4fs.pwrite h (W.copyIn buf) fh (BitVec.ofNat _ buf.length) p).1.Inside ↔
        W.Inside ∧ buf.length ≤ maxRwBufferSize := inside_callTransfer.trans inside_copyIn
    simp only [L4fsFile.pwritevLoop, pwriteEntries, List.forall_mem_cons]
    generalize L4fs.pwrite h (W.copyIn buf) fh _ p = r at hkeeps
    by_cases hneg : r.2.1.toInt < 0
    · rw [if_pos hneg, if_pos (Or.inl hneg), hkeeps]
      simp
    by_cases hshort : r.2.2 ≠ BitVec.ofNat _ buf.length
    · rw [if_neg hneg, if_pos hshort, if_pos (Or.inr hshort), hkeeps]
      simp
    · rw [if_neg hneg, if_neg hshort, if_neg (not_or.mpr ⟨hneg, hshort⟩), ih, hkeeps, and_assoc]

theorem inside_getdents {pos : Off64T} {e : Entry w} (hW : W.Inside) : (L4fsDir.getdents h W fh pos e.1).1.Inside := by
  have hkeeps : (L4fs.pgetdents h W fh e.len pos).1.Inside ↔ W.Inside := inside_callTransfer
  have hroom : (L4fs.pgetdents h W fh e.len pos).2.1 = 0 → e.1.length ≤ maxRwBufferSize := le_of_callTransfer e
  have hlen : e.len.toNat = e.1.length := by simp only [Entry.len, BitVec.toNat_ofNat, Nat.mod_eq_of_lt e.2]
  simp only [L4fsDir.getdents]
  generalize hr : L4fs.pgetdents h W fh e.len pos = r at hkeeps hroom
  rw [show L4fs.pgetdents h W fh (BitVec.ofNat _ e.1.length) pos = r from hr]
  by_cases hdone : r.2.1 = 0 ∧ 0 < r.2.2 ∧ r.2.2 ≤ BitVec.ofNat _ e.1.length
  · -- The count was compared with what was asked for, and that with the shared buffer.
    have hle : r.2.2.toNat ≤ e.1.length := hlen ▸ BitVec.le_def.mp hdone.2.2
    rw [if_pos hdone]
    exact inside_copyOut.mpr ⟨hkeeps.mpr hW, hle.trans (hroom hdone.1), hle⟩
  · rw [if_neg hdone]
    exact hkeeps.mpr hW

theorem inside_readlink {o : File} {e : Entry w} : (L4fsFileBase.readlink h W o e.1).1.Inside ↔
    W.Inside ∧ (0 ≤ (L4fs.readlink h W o.fh e.len).2.1.toInt → e.1.length ≤ maxRwBufferSize) := by
  have hkeeps : (L4fs.readlink h W o.fh e.len).1.Inside ↔ W.Inside := inside_call
  simp only [L4fsFileBase.readlink]
  generalize hr : L4fs.readlink h W o.fh e.len = r at hkeeps
  rw [show L4fs.readlink h W o.fh (BitVec.ofNat _ e.1.length) = r from hr]
  by_cases hneg : r.2.1.toInt < 0
  · rw [if_pos hneg, hkeeps]
    exact ⟨fun hin => ⟨hin, fun h0 => absurd hneg (Int.not_lt.mpr h0)⟩, And.left⟩
  · rw [if_neg hneg, inside_copyOut, hkeeps]
    constructor
    · rintro ⟨hin, hle, -⟩
      exact ⟨hin, fun _ => hle⟩
    · rintro ⟨hin, hle⟩
      exact ⟨hin, hle (Int.not_lt.mp hneg), Nat.le_refl _⟩

theorem length_of_pwritev {e : Entry w} (hin : ((BufferCall.pwritev fh [e] p).run h W).Inside) :
    e.1.length ≤ maxRwBufferSize :=
  (inside_pwritevLoop.mp hin).2 _ mem_pwriteEntries

theorem length_of_readlink {o : File} {e : Entry w} (hin : ((BufferCall.readlink o e).run h W).Inside)
    (hok : 0 ≤ (L4fs.readlink h W o.fh e.len).2.1.toInt) : e.1.length ≤ maxRwBufferSize :=
  (inside_readlink.mp hin).2 hok

theorem count_of_preadv {e : Entry w} (hin : ((BufferCall.preadv fh [e] p).run h W).Inside)
    (hok : (L4fs.pread h W fh e.len p).2.1 = 0) : (L4fs.pread h W fh e.len p).2.2.toNat ≤ e.1.length :=
  (inside_preadvLoop.mp hin).2 _ mem_preadAnswers hok

/-- The copies that a call makes stay inside the shared buffer and inside the caller's buffers exactly where the call is
    bounded. -/
theorem BufferCall.inside_iff_bounded (h : L4fsSvr E (Server σ)) (svr : SvrState (Server σ)) (stale : Nat → Stale E)
    (c : BufferCall w) : (∀ copy ∈ (c.run h ⟨svr, stale, []⟩).copies, copy.Inside) ↔ c.Bounded h ⟨svr, stale, []⟩ := by
  have hnone : World.Inside (⟨svr, stale, []⟩ : World E (Server σ)) := fun copy hcopy => absurd hcopy List.not_mem_nil
  change World.Inside (c.run h ⟨svr, stale, []⟩) ↔ _
  generalize (⟨svr, stale, []⟩ : World E (Server σ)) = W at hnone ⊢
  cases c with
  | preadv fh iov p =>
    rw [BufferCall.run, L4fsFile.preadv, inside_preadvLoop, BufferCall.Bounded]
    exact and_iff_right hnone
  | pwritev fh iov p =>
    rw [BufferCall.run, L4fsFile.pwritev, inside_pwritevLoop, BufferCall.Bounded]
    exact and_iff_right hnone
  | readlink o buf =>
    rw [BufferCall.run, inside_readlink, BufferCall.Bounded]
    exact and_iff_right hnone
  | getdents fh pos buf => exact iff_of_true (inside_getdents hnone) trivial
  | rename «from» dst =>
    exact iff_of_true (inside_path (fun W => L4fs.rename h W «from») (fun _ => inside_callName) hnone) trivial
  | link srcPath dstPath =>
    exact iff_of_true (inside_path (fun W => L4fs.link h W srcPath) (fun _ => inside_callName) hnone) trivial
  | symlink srcPath dstPath =>
    exact iff_of_true (inside_path (fun W => L4fs.symlink h W srcPath) (fun _ => inside_callName) hnone) trivial

end

/-! ### Three calls that are not bounded -/

/-- A server that gives two bytes for every read, and an empty target for every link. -/
def generousSvr : L4fsSvr Ipc.x86 (Server Unit) where
  pread s _ _ _ := (s, 2)
  readlink s _ _ := (s, 0)

/-- One byte more than the shared buffer has. -/
def oversized : Entry .w32 := ⟨List.replicate (maxRwBufferSize + 1) 0, by rw [List.length_replicate]; decide⟩

theorem length_oversized : ¬oversized.1.length ≤ maxRwBufferSize := by
  rw [oversized, List.length_replicate]
  exact Nat.not_succ_le_self _

theorem BufferCall.not_inside :
    (¬∀ copy ∈ ((BufferCall.pwritev 3 [oversized] 0).run generousSvr quietWorld).copies, copy.Inside) ∧
      (¬∀ copy ∈ ((BufferCall.readlink (.file 3) oversized).run generousSvr quietWorld).copies, copy.Inside) ∧
      ¬∀ copy ∈ ((BufferCall.preadv 3 [entryA] 0).run generousSvr quietWorld).copies, copy.Inside := by
  refine ⟨fun hin => length_oversized (length_of_pwritev hin), fun hin => ?_, fun hin => ?_⟩
  · obtain ⟨-, herr, -⟩ := L4fs.readlink_eq (h := generousSvr) (W := quietWorld) 3 oversized.len
    refine length_oversized (length_of_readlink hin ?_)
    rw [File.fh, herr]
    decide
  · obtain ⟨-, herr, hcount⟩ := L4fs.pread_eq (h := generousSvr) (W := quietWorld) 3 entryA.len 0 (by decide)
    have hle := count_of_preadv hin (herr.trans rfl)
    rw [hcount] at hle
    exact absurd hle (by decide)

end Dom0
