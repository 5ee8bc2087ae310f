import Dom0.FsSrv.Server
import Dom0.Theorems.NameBuffer

/-! # The copies of the server

Which messages keep every copy of the server inside its buffer. The checks stand in the client stubs only:
the server copies the path of a request, the destination of a rename, which any client can write, and as
many bytes as a read or write asks for, without looking at their lengths. -/

namespace Dom0
open Marshal

section
variable {w : Word} (E : Ipc w)

/-- A name fits `PATH_LEN` bytes behind `tmpDir`, with its terminating zero. -/
def PathFits (name : CString) : Prop := tmpDir.length + name.strlen + 1 ≤ pathLen

/-- What a message must be like for the server's copies, with `nameBuf` in the name buffer and `rw` in the
    shared buffer. -/
def CopyBounds (nameBuf rw : Mem) (m : In) : Prop :=
  (∀ ios, nameStream w m = some ios → Opcode.ofInt? (readInt m).1 ≠ some .link →
    Opcode.ofInt? (readInt m).1 ≠ some .symlink → PathFits (readName E nameBuf ios).1) ∧
  (Opcode.ofInt? (readInt m).1 = some .rename → PathFits (CString.ofMem rw 0 maxRwBufferSize)) ∧
  (Opcode.ofInt? (readInt m).1 = some .pread ∨ Opcode.ofInt? (readInt m).1 = some .pwrite →
    (readSizeT w (readInt (readInt m).2).2).1.toNat ≤ maxRwBufferSize)

/-- Whatever the backing file system does, every copy that the server makes for the message is inside its
    buffer. -/
def CopiesInside (nameBuf rw : Mem) (stack : Stat64 E) (m : In) : Prop :=
  ∀ (σ : Type) (B : Backing E σ) (dataspace : σ → CInt → σ × CInt × Bool) (s : Server σ), s.rwBuf = rw → s.copies = [] →
    ∀ c ∈ (dispatch E (Server.handler B dataspace) ⟨nameBuf, s⟩ stack m).1.obj.copies, c.Inside

/-- A file system that reads zeros without end and takes every write. -/
def zeros : Backing E Unit where
  «open» _ _ _ _ := ((), .ok 0)
  mkdir _ _ _ := ((), .ok ())
  rename _ _ _ := ((), .ok ())
  unlink _ _ := ((), .ok ())
  rmdir _ _ := ((), .ok ())
  close _ _ := ((), .ok ())
  pread64 _ _ n _ := .ok (List.replicate n 0)
  pwrite64 _ _ bs _ := ((), .ok bs.length)
  fstat64 _ _ := .error 5
  open_nonneg h := by cases h; decide
  pread64_le h := by cases h; simp
  pwrite64_le h := by cases h; exact Nat.le_refl _

end

section
variable {w : Word} {E : Ipc w} {σ : Type} {nameBuf rw : Mem} {stack : Stat64 E} {m : In}

namespace Server
variable {B : Backing E σ} {s : Server σ}

@[simp] theorem copies_open {name : CString} {flags : CInt} {mode : ModeT} :
    (Server.open B s name flags mode).1.copies =
      s.copies ++ [⟨pathLen, tmpDir.length + name.strlen + 1⟩, ⟨pathLen, tmpDir.length + name.strlen + 1⟩] := by
  simp [Server.open]

@[simp] theorem copies_mkdir {name : CString} {mode : ModeT} :
    (Server.mkdir B s name mode).1.copies = s.copies ++ [⟨pathLen, tmpDir.length + name.strlen + 1⟩] := by
  simp [Server.mkdir]

@[simp] theorem copies_unlink {name : CString} :
    (Server.unlink B s name).1.copies = s.copies ++ [⟨pathLen, tmpDir.length + name.strlen + 1⟩] := by
  simp [Server.unlink]

@[simp] theorem copies_rmdir {name : CString} :
    (Server.rmdir B s name).1.copies = s.copies ++ [⟨pathLen, tmpDir.length + name.strlen + 1⟩] := by
  simp [Server.rmdir]

@[simp] theorem copies_rename {name : CString} :
    (Server.rename B s name).1.copies =
      s.copies ++ [⟨pathLen, tmpDir.length + (CString.ofMem s.rwBuf 0 maxRwBufferSize).strlen + 1⟩,
        ⟨pathLen, tmpDir.length + name.strlen + 1⟩, ⟨pathLen, tmpDir.length + name.strlen + 1⟩] := by
  simp [Server.rename]

@[simp] theorem copies_close {fd : CInt} : (Server.close B s fd).1.copies = s.copies := by
  simp [Server.close]

@[simp] theorem copies_fstat64 {fh : CInt} {st : Stat64 E} : (Server.fstat64 B s fh st).1.copies = s.copies := by
  unfold Server.fstat64
  split <;> rfl

/-- A read stores at most the bytes that were asked for. -/
theorem copies_pread {fh : CInt} {size : SizeT w} {offset : Off64T} :
    ∀ c ∈ (Server.pread B s fh size offset).1.copies,
      c ∈ s.copies ∨ (c.room = maxRwBufferSize ∧ c.len ≤ size.toNat) := by
  unfold Server.pread
  split
  · next bs hbs =>
    intro c hc
    rw [copied_copies, List.mem_append, List.mem_singleton] at hc
    rcases hc with hc | rfl
    · exact Or.inl hc
    · exact Or.inr ⟨rfl, B.pread64_le hbs⟩
  · exact fun c hc => Or.inl hc

/-- A write takes at most the bytes that were asked for. -/
theorem copies_pwrite {fh : CInt} {size : SizeT w} {offset : Off64T} :
    ∀ c ∈ (Server.pwrite B s fh size offset).1.copies,
      c ∈ s.copies ∨ (c.room = maxRwBufferSize ∧ c.len ≤ size.toNat) := by
  intro c
  simp only [Server.pwrite]
  split
  · next n hn =>
    intro hc
    rw [copied_copies, List.mem_append, List.mem_singleton] at hc
    rcases hc with hc | rfl
    · exact Or.inl hc
    · have hle := B.pwrite64_le (Prod.ext rfl hn)
      exact Or.inr ⟨rfl, by simpa using hle⟩
  · exact fun hc => Or.inl hc

end Server

theorem inside_of_pathFits {name : CString} (h : PathFits name) :
    (⟨pathLen, tmpDir.length + name.strlen + 1⟩ : Copy).Inside := h

theorem copiesInside_of_bounds (h : CopyBounds E nameBuf rw m) : CopiesInside E nameBuf rw stack m := by
  intro σ B dataspace s hrw hs c
  obtain ⟨hname, hdst, hsize⟩ := h
  simp only [nameStream] at hname
  simp only [dispatch]
  generalize hop : Opcode.ofInt? (readInt m).1 = op at hname hdst hsize ⊢
  -- A transfer copies into the shared buffer, and no more than its size.
  have transfer : c ∈ s.copies ∨ (c.room = maxRwBufferSize ∧
      c.len ≤ (readSizeT w (readInt (readInt m).2).2).1.toNat) → op = some .pread ∨ op = some .pwrite → c.Inside := by
    rintro (hc | ⟨hroom, hlen⟩) ho
    · simp [hs] at hc
    · rw [Copy.Inside, hroom]
      exact hlen.trans (hsize ho)
  cases op with
  | none => simp [hs]
  | some o =>
    cases o with
    | «open» | mkdir | unlink | rmdir =>
      intro hc
      simp only [dispatchName, Server.handler, Server.copies_open, Server.copies_mkdir, Server.copies_unlink,
        Server.copies_rmdir, hs, List.nil_append, List.mem_cons, List.not_mem_nil, or_false, or_self] at hc
      rw [hc]
      exact inside_of_pathFits (hname _ rfl (by simp) (by simp))
    | rename =>
      intro hc
      simp only [dispatchName, Server.handler, Server.copies_rename, hs, hrw, List.nil_append, List.mem_cons,
        List.not_mem_nil, or_false, or_self] at hc
      rcases hc with rfl | rfl
      · exact inside_of_pathFits (hdst rfl)
      · exact inside_of_pathFits (hname _ rfl (by simp) (by simp))
    | pread => exact fun hc => transfer (Server.copies_pread c hc) (Or.inl rfl)
    | pwrite => exact fun hc => transfer (Server.copies_pwrite c hc) (Or.inr rfl)
    | close => simp [dispatchHandle, Server.handler, hs]
    | fstat64 => simp [Server.handler, hs]
    | init => simp [Server.handler, Server.init, hs]
    | _ => simp [dispatchHandle, dispatchName, dispatchTransfer, Server.handler, hs]

/-- On a file system that moves every byte it is asked for, the copies of a message show its lengths. -/
theorem bounds_of_copiesInside (h : CopiesInside E nameBuf rw stack m) : CopyBounds E nameBuf rw m := by
  have hall := h Unit (zeros E) (fun _ _ => ((), 0, false)) (.start () rw) rfl rfl
  simp only [dispatch] at hall
  unfold CopyBounds nameStream
  simp only
  generalize hop : Opcode.ofInt? (readInt m).1 = op at hall ⊢
  cases op with
  | none => simp
  | some o =>
    cases o with
    | «open» | mkdir | unlink | rmdir =>
      refine ⟨?_, by simp, by simp⟩
      rintro ios ⟨⟩ - -
      refine hall ⟨pathLen, _⟩ ?_
      simp [dispatchName, Server.handler]
    | rename =>
      refine ⟨?_, fun _ => hall ⟨pathLen, _⟩ ?_, by simp⟩
      · rintro ios ⟨⟩ - -
        refine hall ⟨pathLen, _⟩ ?_
        simp [dispatchName, Server.handler]
      · simp [dispatchName, Server.handler, Server.start]
    | pread =>
      refine ⟨by simp, by simp, fun _ => hall ⟨maxRwBufferSize, _⟩ ?_⟩
      simp [dispatchTransfer, Server.handler, Server.pread, zeros, Server.start, Server.copied]
    | pwrite =>
      refine ⟨by simp, by simp, fun _ => hall ⟨maxRwBufferSize, _⟩ ?_⟩
      simp [dispatchTransfer, Server.handler, Server.pwrite, zeros, Server.start, Server.copied]
    | _ => simp

/-- The server's copies for a message are inside their buffers exactly when the message is within bounds. -/
theorem copiesInside_iff_bounds (E : Ipc w) (nameBuf rw : Mem) (stack : Stat64 E) (m : In) :
    CopiesInside E nameBuf rw stack m ↔ CopyBounds E nameBuf rw m :=
  ⟨bounds_of_copiesInside, copiesInside_of_bounds⟩

/-- On the 4-byte build a name that `dispatch` passes on always fits: `Max_path_size` is below `PATH_LEN`. -/
theorem pathFits_readName {E : Ipc .w32} (nameBuf : Mem) (ios : In) : PathFits (readName E nameBuf ios).1 := by
  have hlast : (readName E nameBuf ios).2 (0 + (maxPathSize .w32 - 1)) = 0 := by
    rw [readName_buf, if_pos (Nat.zero_add _)]
  have hle : (readName E nameBuf ios).1.strlen ≤ maxPathSize .w32 - 1 :=
    Mem.length_cstr_le_of_zero (n := maxPathSize .w32) hlast
  simp only [PathFits, tmpDir, pathLen, maxPathSize, Word.bytes, l4UtcbGenericDataSize, List.length_cons,
    List.length_nil] at hle ⊢
  omega

/-- A read of one byte more than the shared buffer has. -/
def oversizedPread : In :=
  deliver .w32 (L4fs.transferRequest .w32 .pread 3 (BitVec.ofNat _ (maxRwBufferSize + 1)) 0) (fun _ => 0) (fun _ => 0)

theorem oversizedPread_not_inside :
    ¬CopiesInside Ipc.x86 (fun _ => 0) (fun _ => 0) (zeroStat Ipc.x86) oversizedPread := by
  intro hin
  have hhas : oversizedPread.Has _ := has_deliver _ _ (L4fs.fits_transferRequest .pread 3 _ 0)
  have hfh := has_readInt (has_readInt hhas).2
  have hle := (bounds_of_copiesInside hin).2.2 (Or.inl (ofInt?_readInt hhas))
  rw [(has_readSizeT hfh.2).1] at hle
  exact absurd hle (by decide)

end

end Dom0
