import Dom0.Libfs.L4fs

/-! # Remote calls are direct calls

A stub, the transfer of its message and `dispatch` together do what a direct call of the handler does:
the request fits the message registers, is decoded into the arguments that were passed, and the reply is
decoded into the handler's results. The one stub that differs is `open`, whose flags are written as `int`
and read as `unsigned long`: on the 8-byte build every later field is read from the wrong place. -/

namespace Dom0
open Marshal

/-! ## Calls and outcomes -/

/-- A call of the `L4fs` interface. -/
inductive Call (w : Word)
  | init
  | «open» (name : CString) (flags : CInt) (mode : ModeT)
  | mkdir (name : CString) (mode : ModeT)
  | rmdir (name : CString)
  | rename («from» : CString)
  | unlink (name : CString)
  | umount
  | sync
  | pread (fh : CInt) (size : SizeT w) (offset : Off64T)
  | pwrite (fh : CInt) (size : SizeT w) (offset : Off64T)
  | pgetdents (fh : CInt) (size : SizeT w) (offset : Off64T)
  | close (fh : CInt)
  | symlink («from» : CString)
  | link («from» : CString)
  | readlink (fh : CInt) (bufsize : SizeT w)
  | fstat64 (fh : CInt)
  | fsync (fh : CInt)
  | ftruncate64 (fh : CInt) (offset : Off64T)
  | dataspace (fh : CInt)

/-- What a call gives its caller: a return value, the parameters passed by reference, and whether a
    capability that was handed out is valid. -/
structure Outcome (w : Word) where
  ret : Int
  size : Option (SizeT w) := none
  mode : Option ModeT := none
  st : Option (List UInt8) := none
  cap : Bool := false

/-- A `ssize_t` result: the count, or the error it stands for. -/
def Outcome.counted {w : Word} (ret : SSizeT w) : Outcome w :=
  ⟨if ret.toInt < 0 then ret.toInt else 0, some ret, none, none, false⟩

namespace Call
variable {w : Word} {E : Ipc w} {σ : Type}

/-- The arguments pass the checks of the stub. -/
def Accepted : Call w → Prop
  | .open name _ _ | .mkdir name _ | .rmdir name | .rename name | .unlink name | .symlink name | .link name =>
    name.strlen + 1 ≤ maxPathSize w
  | .pread _ size _ | .pwrite _ size _ | .pgetdents _ size _ => size.toNat ≤ maxRwBufferSize
  | _ => True

/-- The message that the stub writes. -/
def request : Call w → List Field
  | .init => L4fs.plainRequest .init
  | .open name flags mode => L4fs.openRequest w name flags mode
  | .mkdir name mode => L4fs.mkdirRequest w name mode
  | .rmdir name => L4fs.nameRequest w .rmdir name
  | .rename name => L4fs.nameRequest w .rename name
  | .unlink name => L4fs.nameRequest w .unlink name
  | .umount => L4fs.plainRequest .umount
  | .sync => L4fs.plainRequest .sync
  | .pread fh size offset => L4fs.transferRequest w .pread fh size offset
  | .pwrite fh size offset => L4fs.transferRequest w .pwrite fh size offset
  | .pgetdents fh size offset => L4fs.transferRequest w .pgetdents fh size offset
  | .close fh => L4fs.handleRequest .close fh
  | .symlink name => L4fs.nameRequest w .symlink name
  | .link name => L4fs.nameRequest w .link name
  | .readlink fh bufsize => L4fs.readlinkRequest w fh bufsize
  | .fstat64 fh => L4fs.handleRequest .fstat64 fh
  | .fsync fh => L4fs.handleRequest .fsync fh
  | .ftruncate64 fh offset => L4fs.ftruncate64Request fh offset
  | .dataspace fh => L4fs.handleRequest .getDataspace fh

/-- The handler's method called in place, with what the stack of the server holds. -/
def direct (h : L4fsSvr E σ) (s : σ) (stack : Stat64 E) : Call w → σ × Outcome w
  | .init => let r := h.init s; (r.1, { ret := r.2.1.toInt, cap := r.2.2 })
  | .open name flags mode => let r := h.open s name flags mode; (r.1, { ret := r.2.1.toInt, mode := some r.2.2 })
  | .mkdir name mode => let r := h.mkdir s name mode; (r.1, { ret := r.2.toInt })
  | .rmdir name => let r := h.rmdir s name; (r.1, { ret := r.2.toInt })
  | .rename name => let r := h.rename s name; (r.1, { ret := r.2.toInt })
  | .unlink name => let r := h.unlink s name; (r.1, { ret := r.2.toInt })
  | .umount => let r := h.umount s; (r.1, { ret := r.2.toInt })
  | .sync => let r := h.sync s; (r.1, { ret := r.2.toInt })
  | .pread fh size offset => let r := h.pread s fh size offset; (r.1, .counted r.2)
  | .pwrite fh size offset => let r := h.pwrite s fh size offset; (r.1, .counted r.2)
  | .pgetdents fh size offset => let r := h.pgetdents s fh size offset; (r.1, .counted r.2)
  | .close fh => let r := h.close s fh; (r.1, { ret := r.2.toInt })
  | .symlink name => let r := h.symlink s name; (r.1, { ret := r.2.toInt })
  | .link name => let r := h.link s name; (r.1, { ret := r.2.toInt })
  | .readlink fh bufsize => let r := h.readlink s fh bufsize; (r.1, .counted (r.2.signExtend _))
  | .fstat64 fh => let r := h.fstat64 s fh stack; (r.1, { ret := r.2.1.toInt, st := some r.2.2.1 })
  | .fsync fh => let r := h.fsync s fh; (r.1, { ret := r.2.toInt })
  | .ftruncate64 fh offset => let r := h.ftruncate64 s fh offset; (r.1, { ret := r.2.toInt })
  | .dataspace fh => let r := h.dataspace s fh; (r.1, { ret := r.2.1.toInt, cap := r.2.2 })

/-- The stub of the call, against a server with handler `h`. The `struct stat64` of an `fstat64` holds
    `st` before. -/
def remote (h : L4fsSvr E σ) (W : World E σ) (st : Stat64 E) : Call w → World E σ × Outcome w
  | .init => let r := L4fs.init h W; (r.1, { ret := r.2.1.toInt, cap := r.2.2 })
  | .open name flags mode => let r := L4fs.open h W name flags mode; (r.1, { ret := r.2.1.toInt, mode := some r.2.2 })
  | .mkdir name mode => let r := L4fs.mkdir h W name mode; (r.1, { ret := r.2.toInt })
  | .rmdir name => let r := L4fs.rmdir h W name; (r.1, { ret := r.2.toInt })
  | .rename name => let r := L4fs.rename h W name; (r.1, { ret := r.2.toInt })
  | .unlink name => let r := L4fs.unlink h W name; (r.1, { ret := r.2.toInt })
  | .umount => let r := L4fs.umount h W; (r.1, { ret := r.2.toInt })
  | .sync => let r := L4fs.sync h W; (r.1, { ret := r.2.toInt })
  | .pread fh size offset =>
    let r := L4fs.pread h W fh size offset; (r.1, { ret := r.2.1.toInt, size := some r.2.2 })
  | .pwrite fh size offset =>
    let r := L4fs.pwrite h W fh size offset; (r.1, { ret := r.2.1.toInt, size := some r.2.2 })
  | .pgetdents fh size offset =>
    let r := L4fs.pgetdents h W fh size offset; (r.1, { ret := r.2.1.toInt, size := some r.2.2 })
  | .close fh => let r := L4fs.close h W fh; (r.1, { ret := r.2.toInt })
  | .symlink name => let r := L4fs.symlink h W name; (r.1, { ret := r.2.toInt })
  | .link name => let r := L4fs.link h W name; (r.1, { ret := r.2.toInt })
  | .readlink fh bufsize => let r := L4fs.readlink h W fh bufsize; (r.1, { ret := r.2.1.toInt, size := some r.2.2 })
  | .fstat64 fh => let r := L4fs.fstat64 h W fh st; (r.1, { ret := r.2.1.toInt, st := some r.2.2.1 })
  | .fsync fh => let r := L4fs.fsync h W fh; (r.1, { ret := r.2.toInt })
  | .ftruncate64 fh offset => let r := L4fs.ftruncate64 h W fh offset; (r.1, { ret := r.2.toInt })
  | .dataspace fh => let r := L4fs.dataspace h W fh; (r.1, { ret := r.2.1.toInt, cap := r.2.2 })

end Call

/-! ## Requests fit -/

namespace L4fs
variable {w : Word}

theorem fits_plainRequest (o : Opcode) : Fits w (plainRequest o) := by
  cases w <;> simp [Fits, plainRequest, endPos, scalar, align, Word.registers, Word.bytes, l4UtcbGenericDataSize]

theorem fits_handleRequest (o : Opcode) (fh : CInt) : Fits w (handleRequest o fh) := by
  cases w <;> simp [Fits, handleRequest, endPos, scalar, align, Word.registers, Word.bytes, l4UtcbGenericDataSize]

theorem fits_transferRequest (o : Opcode) (fh : CInt) (size : SizeT w) (offset : Off64T) :
    Fits w (transferRequest w o fh size offset) := by
  cases w <;> simp [Fits, transferRequest, endPos, scalar, align, Word.registers, Word.bytes, l4UtcbGenericDataSize]

theorem fits_readlinkRequest (fh : CInt) (bufsize : SizeT w) : Fits w (readlinkRequest w fh bufsize) := by
  cases w <;> simp [Fits, readlinkRequest, endPos, scalar, align, Word.registers, Word.bytes, l4UtcbGenericDataSize]

theorem fits_ftruncate64Request (fh : CInt) (offset : Off64T) : Fits w (ftruncate64Request fh offset) := by
  cases w <;> simp [Fits, ftruncate64Request, endPos, scalar, align, Word.registers, Word.bytes, l4UtcbGenericDataSize]

section Names
variable {name : CString}

theorem fits_nameRequest (hn : name.strlen + 1 ≤ maxPathSize w) (o : Opcode) : Fits w (nameRequest w o name) := by
  cases w <;>
    simp [Fits, nameRequest, str, Marshal.counted, endPos, scalar, align, Word.registers, Word.bytes, maxPathSize,
      l4UtcbGenericDataSize] at hn ⊢ <;> omega

theorem fits_mkdirRequest (hn : name.strlen + 1 ≤ maxPathSize w) (mode : ModeT) :
    Fits w (mkdirRequest w name mode) := by
  cases w <;>
    simp [Fits, mkdirRequest, str, Marshal.counted, endPos, scalar, align, Word.registers, Word.bytes, maxPathSize,
      l4UtcbGenericDataSize] at hn ⊢ <;> omega

theorem fits_openRequest (hn : name.strlen + 1 ≤ maxPathSize w) (flags : CInt) (mode : ModeT) :
    Fits w (openRequest w name flags mode) := by
  cases w <;>
    simp [Fits, openRequest, str, Marshal.counted, endPos, scalar, align, Word.registers, Word.bytes, maxPathSize,
      l4UtcbGenericDataSize] at hn ⊢ <;> omega

end Names
end L4fs

theorem Call.fits_request {w : Word} {c : Call w} (hc : c.Accepted) : Fits w c.request := by
  cases c with
  | init | umount | sync => exact L4fs.fits_plainRequest _
  | «open» name flags mode => exact L4fs.fits_openRequest hc _ _
  | mkdir name mode => exact L4fs.fits_mkdirRequest hc _
  | rmdir name | rename name | unlink name | symlink name | link name => exact L4fs.fits_nameRequest hc _
  | pread fh size offset | pwrite fh size offset | pgetdents fh size offset => exact L4fs.fits_transferRequest _ _ _ _
  | close fh | fstat64 fh | fsync fh | dataspace fh => exact L4fs.fits_handleRequest _ _
  | readlink fh bufsize => exact L4fs.fits_readlinkRequest _ _
  | ftruncate64 fh offset => exact L4fs.fits_ftruncate64Request _ _

/-! ## Reading what was written -/

section Read
variable {w : Word} {E : Ipc w} {ios : In} {fs : List Field}

theorem has_readInt {v : CInt} (h : ios.Has (int v :: fs)) : (readInt ios).1 = v ∧ (readInt ios).2.Has fs :=
  has_readScalar (n := 4) h

theorem has_readModeT {v : ModeT} (h : ios.Has (modeT v :: fs)) : (readModeT ios).1 = v ∧ (readModeT ios).2.Has fs :=
  has_readScalar (n := 4) h

theorem has_readOff64T {v : Off64T} (h : ios.Has (off64T v :: fs)) :
    (readOff64T ios).1 = v ∧ (readOff64T ios).2.Has fs :=
  has_readScalar (n := 8) h

theorem has_readULong_w32 {v : CInt} (h : ios.Has (int v :: fs)) :
    (readULong .w32 ios).1.setWidth 32 = v ∧ (readULong .w32 ios).2.Has fs := by
  obtain ⟨hv, hrest⟩ := has_readScalar (n := 4) h
  exact ⟨(BitVec.setWidth_eq _).trans hv, hrest⟩

theorem has_readSizeT {v : SizeT w} (h : ios.Has (sizeT w v :: fs)) :
    (readSizeT w ios).1 = v ∧ (readSizeT w ios).2.Has fs :=
  has_readScalar h

/-- The name buffer of a name that fills it has its last byte already zero. -/
theorem name_write_last {m : Mem} {n : Nat} {s : CString} (h : m.read 0 (s.strlen + 1) = s.c_str)
    (hn : s.strlen + 1 ≤ n) : (m.write (n - 1) [0]).read 0 (s.strlen + 1) = s.c_str := by
  rcases Nat.lt_or_ge (s.strlen + 1) n with hlt | hge
  · rw [Mem.read_write_below (by omega), h]
  · obtain rfl : n = s.strlen + 1 := by omega
    have hlast : m.read s.strlen 1 = [0] := by
      rw [Mem.read_add, Nat.zero_add] at h
      exact (List.append_inj h (by simp [CString.strlen])).2
    rw [Nat.add_sub_cancel, Mem.write_read_self (by simpa using hlast.symm), h]

/-- A name that fits the name buffer is read back. -/
theorem has_readName (nameBuf : Mem) {name : CString} (h : ios.Has (str w name))
    (hn : name.strlen + 1 ≤ maxPathSize w) : (readName E nameBuf ios).1 = name := by
  have hcount : name.strlen + 1 < 256 ^ w.bytes := by
    have : maxPathSize w < 256 ^ w.bytes := by cases w <;> decide
    omega
  have hcopied := ((List.append_nil (str w name) ▸ h).getBuf E.bufCpIn Nat.one_pos (by simp)
    hcount hn).1
  refine CString.ofMem_of_read (name_write_last ?_ hn) (by omega)
  rw [hcopied, ← CString.length_c_str, Mem.read_write]

theorem has_stat64 {st : Stat64 E} (h : ios.Has (stat64 E st)) :
    (ios.getBuf E.bufCpIn w.bytes E.statSize 1).1 = st.1 := by
  have hone : 1 < 256 ^ w.bytes := by cases w <;> decide
  have h' : ios.Has (Marshal.counted w.bytes 1 st.1 ++ []) := (List.append_nil (stat64 E st)).symm ▸ h
  exact (h'.getBuf E.bufCpIn E.stat_pos (by rw [st.2, Nat.one_mul]) hone (Nat.le_refl 1)).1

end Read

/-! ## Calls of the stubs -/

section Stubs
variable {w : Word} {E : Ipc w} {σ : Type} {h : L4fsSvr E σ} {W : World E σ}

theorem has_request {request : List Field} (hf : Fits w request) :
    (deliver w request (W.stale 0).caller (W.stale 0).server).Has request := has_deliver _ _ hf

theorem ofInt?_readInt {ios : In} {o : Opcode} {fs : List Field} (hi : ios.Has (opcode o :: fs)) :
    Opcode.ofInt? (readInt ios).1 = some o := by
  rw [(has_readInt hi).1, Opcode.ofInt?_toInt]

theorem callPlain_eq {o : Opcode} {run : σ → σ × CInt}
    (hrun : ∀ S stack ios, Opcode.ofInt? (readInt ios).1 = some o →
      dispatch E h S stack ios = ({ S with obj := (run S.obj).1 }, Reply.plain (run S.obj).2)) :
    (L4fs.callPlain h W o).1.svr.obj = (run W.svr.obj).1 ∧ (L4fs.callPlain h W o).2 = (run W.svr.obj).2 := by
  have hi := has_request (W := W) (L4fs.fits_plainRequest o)
  have hd := hrun W.svr (W.stale 0).stack _ (ofInt?_readInt hi)
  simp only [L4fs.callPlain, World.call, ipcCall, L4fs.l4Error, hd, Reply.plain, and_self]

theorem callName_eq {o : Opcode} {run : σ → CString → σ × CInt} {name : CString}
    (hn : name.strlen + 1 ≤ maxPathSize w) (hrun : ∀ S stack ios, Opcode.ofInt? (readInt ios).1 = some o →
      dispatch E h S stack ios = dispatchName E S (readInt ios).2 run) :
    (L4fs.callName h W o name).1.svr.obj = (run W.svr.obj name).1 ∧
      (L4fs.callName h W o name).2 = (run W.svr.obj name).2 := by
  have hi := has_request (W := W) (L4fs.fits_nameRequest hn o)
  have hd := hrun W.svr (W.stale 0).stack _ (ofInt?_readInt hi)
  have hname := has_readName (E := E) W.svr.nameBuf (has_readInt hi).2 hn
  have hok : L4fs.tooLong w name = false := L4fs.tooLong_of_fits hn
  simp only [L4fs.callName, hok, Bool.false_eq_true, ↓reduceIte, World.call, ipcCall, L4fs.l4Error, hd, dispatchName,
    hname, Reply.plain, and_self]

theorem callHandle_eq {o : Opcode} {run : σ → CInt → σ × CInt} {fh : CInt}
    (hrun : ∀ S stack ios, Opcode.ofInt? (readInt ios).1 = some o →
      dispatch E h S stack ios = dispatchHandle S (readInt ios).2 run) :
    (L4fs.callHandle h W o fh).1.svr.obj = (run W.svr.obj fh).1 ∧
      (L4fs.callHandle h W o fh).2 = (run W.svr.obj fh).2 := by
  have hi := has_request (W := W) (L4fs.fits_handleRequest o fh)
  have hd := hrun W.svr (W.stale 0).stack _ (ofInt?_readInt hi)
  have hfh := (has_readInt (has_readInt hi).2).1
  simp only [L4fs.callHandle, World.call, ipcCall, L4fs.l4Error, hd, dispatchHandle, hfh, Reply.plain, and_self]

/-- A `ssize_t` result comes back in the payload, with the label that `dispatch` derives from it. -/
theorem callTransfer_eq {o : Opcode} {run : σ → CInt → SizeT w → Off64T → σ × SSizeT w} (more : Off64T → List Field)
    (fh : CInt) {size : SizeT w} (offset : Off64T) (hsize : size.toNat ≤ maxRwBufferSize)
    (hmore : Fits w (scalar w.bytes (run W.svr.obj fh size offset).2 :: more offset))
    (hrun : ∀ S stack ios, Opcode.ofInt? (readInt ios).1 = some o →
      dispatch E h S stack ios = dispatchTransfer S (readInt ios).2 run more) :
    (L4fs.callTransfer h W o fh size offset).1.svr.obj = (run W.svr.obj fh size offset).1 ∧
      (L4fs.callTransfer h W o fh size offset).2.1 = (Reply.counted (run W.svr.obj fh size offset).2 []).label ∧
      (L4fs.callTransfer h W o fh size offset).2.2 = (run W.svr.obj fh size offset).2 := by
  have hi := has_request (W := W) (L4fs.fits_transferRequest o fh size offset)
  have hd := hrun W.svr (W.stale 0).stack _ (ofInt?_readInt hi)
  have hfh := has_readInt (has_readInt hi).2
  have hsz := has_readSizeT hfh.2
  have hoff := (has_readOff64T hsz.2).1
  have hok : L4fs.tooBig size = false := by simp [L4fs.tooBig, hsize]
  simp only [L4fs.callTransfer, hok, Bool.false_eq_true, ↓reduceIte, World.call, ipcCall, L4fs.l4Error, hd,
    dispatchTransfer, hfh.1, hsz.1, hoff, Reply.counted, true_and]
  exact (has_readSizeT (has_deliver _ _ hmore)).1

theorem fits_count (v : SSizeT w) : Fits w [scalar w.bytes v] := by
  cases w <;> simp [Fits, endPos, scalar, align, Word.registers, Word.bytes, l4UtcbGenericDataSize]

theorem fits_count_offset (v : SSizeT w) (offset : Off64T) : Fits w [scalar w.bytes v, off64T offset] := by
  cases w <;> simp [Fits, endPos, scalar, align, Word.registers, Word.bytes, l4UtcbGenericDataSize]

theorem fits_stat64 (st : Stat64 E) : Fits w (stat64 E st) := by
  have := E.stat_fits
  have hst := st.2
  cases w <;> simp_all [Fits, stat64, Marshal.counted, endPos, align, Word.bytes]

namespace L4fs

theorem rmdir_eq {name : CString} (hn : name.strlen + 1 ≤ maxPathSize w) :
    (rmdir h W name).1.svr.obj = (h.rmdir W.svr.obj name).1 ∧ (rmdir h W name).2 = (h.rmdir W.svr.obj name).2 :=
  callName_eq hn fun _ _ _ hop => by simp only [dispatch, hop]

theorem rename_eq {name : CString} (hn : name.strlen + 1 ≤ maxPathSize w) :
    (rename h W name).1.svr.obj = (h.rename W.svr.obj name).1 ∧ (rename h W name).2 = (h.rename W.svr.obj name).2 :=
  callName_eq hn fun _ _ _ hop => by simp only [dispatch, hop]

theorem unlink_eq {name : CString} (hn : name.strlen + 1 ≤ maxPathSize w) :
    (unlink h W name).1.svr.obj = (h.unlink W.svr.obj name).1 ∧ (unlink h W name).2 = (h.unlink W.svr.obj name).2 :=
  callName_eq hn fun _ _ _ hop => by simp only [dispatch, hop]

theorem link_eq {name : CString} (hn : name.strlen + 1 ≤ maxPathSize w) :
    (link h W name).1.svr.obj = (h.link W.svr.obj name).1 ∧ (link h W name).2 = (h.link W.svr.obj name).2 :=
  callName_eq hn fun _ _ _ hop => by simp only [dispatch, hop]

theorem symlink_eq {name : CString} (hn : name.strlen + 1 ≤ maxPathSize w) :
    (symlink h W name).1.svr.obj = (h.symlink W.svr.obj name).1 ∧
      (symlink h W name).2 = (h.symlink W.svr.obj name).2 :=
  callName_eq hn fun _ _ _ hop => by simp only [dispatch, hop]

theorem mkdir_eq {name : CString} (mode : ModeT) (hn : name.strlen + 1 ≤ maxPathSize w) :
    (mkdir h W name mode).1.svr.obj = (h.mkdir W.svr.obj name mode).1 ∧
      (mkdir h W name mode).2 = (h.mkdir W.svr.obj name mode).2 := by
  have hi := has_request (W := W) (fits_mkdirRequest hn mode)
  have hop := ofInt?_readInt hi
  have hm := has_readModeT (has_readInt hi).2
  have hname := has_readName (E := E) W.svr.nameBuf hm.2 hn
  have hok : tooLong w name = false := tooLong_of_fits hn
  simp only [mkdir, hok, Bool.false_eq_true, ↓reduceIte, World.call, ipcCall, l4Error, dispatch, hop, hm.1, hname,
    Reply.plain, and_self]

theorem umount_eq : (umount h W).1.svr.obj = (h.umount W.svr.obj).1 ∧ (umount h W).2 = (h.umount W.svr.obj).2 :=
  callPlain_eq fun _ _ _ hop => by simp only [dispatch, hop]

theorem sync_eq : (sync h W).1.svr.obj = (h.sync W.svr.obj).1 ∧ (sync h W).2 = (h.sync W.svr.obj).2 :=
  callPlain_eq fun _ _ _ hop => by simp only [dispatch, hop]

theorem close_eq (fh : CInt) :
    (close h W fh).1.svr.obj = (h.close W.svr.obj fh).1 ∧ (close h W fh).2 = (h.close W.svr.obj fh).2 :=
  callHandle_eq fun _ _ _ hop => by simp only [dispatch, hop]

theorem fsync_eq (fh : CInt) :
    (fsync h W fh).1.svr.obj = (h.fsync W.svr.obj fh).1 ∧ (fsync h W fh).2 = (h.fsync W.svr.obj fh).2 :=
  callHandle_eq fun _ _ _ hop => by simp only [dispatch, hop]

theorem pread_eq (fh : CInt) (size : SizeT w) (offset : Off64T) (hsize : size.toNat ≤ maxRwBufferSize) :
    (pread h W fh size offset).1.svr.obj = (h.pread W.svr.obj fh size offset).1 ∧
      (pread h W fh size offset).2.1 = (Reply.counted (h.pread W.svr.obj fh size offset).2 []).label ∧
      (pread h W fh size offset).2.2 = (h.pread W.svr.obj fh size offset).2 :=
  callTransfer_eq (fun _ => []) fh offset hsize (fits_count _) fun _ _ _ hop => by simp only [dispatch, hop]

theorem pread_copies (cs : List Copy) (fh : CInt) (size : SizeT w) (offset : Off64T) :
    pread h { W with copies := cs } fh size offset =
      ({ (pread h W fh size offset).1 with copies := cs }, (pread h W fh size offset).2) := by
  simp only [pread, callTransfer, World.call]
  by_cases hbig : tooBig size = true
  · rw [if_pos hbig, if_pos hbig]
  · rw [if_neg hbig, if_neg hbig]

theorem pwrite_eq (fh : CInt) (size : SizeT w) (offset : Off64T) (hsize : size.toNat ≤ maxRwBufferSize) :
    (pwrite h W fh size offset).1.svr.obj = (h.pwrite W.svr.obj fh size offset).1 ∧
      (pwrite h W fh size offset).2.1 = (Reply.counted (h.pwrite W.svr.obj fh size offset).2 []).label ∧
      (pwrite h W fh size offset).2.2 = (h.pwrite W.svr.obj fh size offset).2 :=
  callTransfer_eq (fun _ => []) fh offset hsize (fits_count _) fun _ _ _ hop => by simp only [dispatch, hop]

theorem pgetdents_eq (fh : CInt) {size : SizeT w} (offset : Off64T) (hsize : size.toNat ≤ maxRwBufferSize) :
    (pgetdents h W fh size offset).1.svr.obj = (h.pgetdents W.svr.obj fh size offset).1 ∧
      (pgetdents h W fh size offset).2.1 = (Reply.counted (h.pgetdents W.svr.obj fh size offset).2 []).label ∧
      (pgetdents h W fh size offset).2.2 = (h.pgetdents W.svr.obj fh size offset).2 :=
  callTransfer_eq (fun offset => [off64T offset]) fh offset hsize (fits_count_offset _ _) fun _ _ _ hop => by
    simp only [dispatch, hop]

theorem readlink_eq (fh : CInt) (bufsize : SizeT w) :
    (readlink h W fh bufsize).1.svr.obj = (h.readlink W.svr.obj fh bufsize).1 ∧
      (readlink h W fh bufsize).2.1 =
        (Reply.counted (w := w) ((h.readlink W.svr.obj fh bufsize).2.signExtend _) []).label ∧
      (readlink h W fh bufsize).2.2 = (h.readlink W.svr.obj fh bufsize).2.signExtend _ := by
  have hi := has_request (W := W) (fits_readlinkRequest fh bufsize)
  have hop := ofInt?_readInt hi
  have hfh := has_readInt (has_readInt hi).2
  have hsz := (has_readSizeT hfh.2).1
  simp only [readlink, World.call, ipcCall, l4Error, dispatch, hop, hfh.1, hsz, Reply.counted, true_and]
  exact (has_readSizeT (has_deliver _ _ (fits_count _))).1

theorem ftruncate64_eq (fh : CInt) (offset : Off64T) :
    (ftruncate64 h W fh offset).1.svr.obj = (h.ftruncate64 W.svr.obj fh offset).1 ∧
      (ftruncate64 h W fh offset).2 = (h.ftruncate64 W.svr.obj fh offset).2 := by
  have hi := has_request (W := W) (fits_ftruncate64Request fh offset)
  have hop := ofInt?_readInt hi
  have hfh := has_readInt (has_readInt hi).2
  have hoff := (has_readOff64T hfh.2).1
  simp only [ftruncate64, World.call, ipcCall, l4Error, dispatch, hop, hfh.1, hoff, Reply.plain, and_self]

theorem dataspace_eq (fh : CInt) :
    (dataspace h W fh).1.svr.obj = (h.dataspace W.svr.obj fh).1 ∧
    (dataspace h W fh).2 = (h.dataspace W.svr.obj fh).2 := by
  have hi := has_request (W := W) (fits_handleRequest .getDataspace fh)
  have hop := ofInt?_readInt hi
  have hfh := (has_readInt (has_readInt hi).2).1
  simp only [dataspace, World.call, ipcCall, l4Error, dispatch, hop, hfh, and_self]

theorem init_eq :
    (init h W).1.svr.obj = (h.init W.svr.obj).1 ∧
      (init h W).2 = (if (h.init W.svr.obj).2.2 then 0 else -l4Enomem, (h.init W.svr.obj).2.2) := by
  have hi := has_request (W := W) (fits_plainRequest .init)
  have hop := ofInt?_readInt hi
  simp only [init, World.call, ipcCall, l4Error, dispatch, hop, and_self]

theorem fstat64_eq (fh : CInt) (st : Stat64 E) :
    (fstat64 h W fh st).1.svr.obj = (h.fstat64 W.svr.obj fh (W.stale 0).stack).1 ∧
      (fstat64 h W fh st).2 = (h.fstat64 W.svr.obj fh (W.stale 0).stack).2 := by
  have hi := has_request (W := W) (fits_handleRequest .fstat64 fh)
  have hop := ofInt?_readInt hi
  have hfh := (has_readInt (has_readInt hi).2).1
  have hst := has_stat64 (has_deliver (deliver w (handleRequest .fstat64 fh) (W.stale 0).caller
    (W.stale 0).server).mem (W.stale 0).caller (fits_stat64 (h.fstat64 W.svr.obj fh (W.stale 0).stack).2.2))
  simp only [fstat64, World.call, ipcCall, l4Error, dispatch, hop, hfh, hst, true_and]
  simp [(h.fstat64 W.svr.obj fh (W.stale 0).stack).2.2.2]

/-- What the server reads out of a request to open something. -/
def openArrives (W : World E σ) (name : CString) (flags : CInt) (mode : ModeT) : CString × CInt × ModeT :=
  let m := deliver w (openRequest w name flags mode) (W.stale 0).caller (W.stale 0).server
  ((readName E W.svr.nameBuf (readModeT (readULong w (readInt m).2).2).2).1,
    (readULong w (readInt m).2).1.setWidth 32, (readModeT (readULong w (readInt m).2).2).1)

/-- On the 4-byte build the flags are as wide on both sides, so it is asked for what was passed. -/
theorem openArrives_w32 {E : Ipc .w32} {W : World E σ} {name : CString} (flags : CInt) (mode : ModeT)
    (hn : name.strlen + 1 ≤ maxPathSize .w32) : openArrives W name flags mode = (name, flags, mode) := by
  have hi := has_request (W := W) (fits_openRequest hn flags mode)
  simp only [openArrives]
  generalize deliver .w32 (openRequest .w32 name flags mode) (W.stale 0).caller (W.stale 0).server = m at hi
  have hflags := has_readULong_w32 (has_readInt hi).2
  have hmode := has_readModeT hflags.2
  rw [has_readName W.svr.nameBuf hmode.2 hn, hflags.1, hmode.1]

/-- The server is asked once to open something, and its answer comes back. -/
theorem open_eq_arriving {name : CString} (flags : CInt) (mode : ModeT) (hn : name.strlen + 1 ≤ maxPathSize w) :
    ((«open» h W name flags mode).1.svr.obj, («open» h W name flags mode).2) =
      h.open W.svr.obj (openArrives W name flags mode).1 (openArrives W name flags mode).2.1
        (openArrives W name flags mode).2.2 := by
  have hi := has_request (W := W) (fits_openRequest hn flags mode)
  have hop := ofInt?_readInt hi
  have hok : tooLong w name = false := tooLong_of_fits hn
  have hfits : ∀ (fh : CInt) (mode : ModeT), Fits w [int fh, modeT mode] := fun fh mode => by
    cases w <;> simp [Fits, endPos, scalar, align, Word.registers, Word.bytes, l4UtcbGenericDataSize]
  generalize hm : deliver w (openRequest w name flags mode) (W.stale 0).caller (W.stale 0).server = m at hi hop
  simp only [openArrives, «open», hok, Bool.false_eq_true, ↓reduceIte, World.call, ipcCall, hm, l4Error, dispatch, hop,
    ne_eq, not_true_eq_false]
  generalize h.open W.svr.obj _ _ _ = r
  have hr := has_readInt (has_deliver m.mem (W.stale 0).caller (hfits r.2.1 r.2.2))
  exact Prod.ext rfl (Prod.ext hr.1 (has_readModeT hr.2).1)

theorem open_eq_decoded {name : CString} (flags : CInt) (mode : ModeT) (hn : name.strlen + 1 ≤ maxPathSize w) :
    ∃ name' flags' mode', (w = .w32 → name' = name ∧ flags' = flags ∧ mode' = mode) ∧
      («open» h W name flags mode).1.svr.obj = (h.open W.svr.obj name' flags' mode').1 ∧
      («open» h W name flags mode).2 = (h.open W.svr.obj name' flags' mode').2 := by
  have hopen := open_eq_arriving (h := h) (W := W) flags mode hn
  refine ⟨_, _, _, ?_, congrArg Prod.fst hopen, congrArg Prod.snd hopen⟩
  rintro rfl
  rw [openArrives_w32 flags mode hn]
  exact ⟨rfl, rfl, rfl⟩

theorem open_eq {E : Ipc .w32} {h : L4fsSvr E σ} {W : World E σ} {name : CString} (flags : CInt) (mode : ModeT)
    (hn : name.strlen + 1 ≤ maxPathSize .w32) :
    («open» h W name flags mode).1.svr.obj = (h.open W.svr.obj name flags mode).1 ∧
      («open» h W name flags mode).2 = (h.open W.svr.obj name flags mode).2 := by
  obtain ⟨name', flags', mode', hsame, hres⟩ := open_eq_decoded (h := h) (W := W) flags mode hn
  obtain ⟨rfl, rfl, rfl⟩ := hsame rfl
  exact hres

end L4fs
end Stubs

/-! ## Exactness -/

section Exactness
variable {w : Word} {E : Ipc w} {σ : Type}

/-- The request fits the message registers, and for every handler that answers the call with the outcome
    `r`, whatever the registers and the name buffer hold, the handler ends in the state that the direct call
    leaves and the caller gets `r`. -/
def Call.Exact (E : Ipc w) (c : Call w) (r : Outcome w) : Prop :=
  Fits w c.request ∧
    ∀ (σ : Type) (h : L4fsSvr E σ) (W : World E σ) (st : Stat64 E), (c.direct h W.svr.obj (W.stale 0).stack).2 = r →
      (c.remote h W st).1.svr.obj = (c.direct h W.svr.obj (W.stale 0).stack).1 ∧ (c.remote h W st).2 = r

/-- What a call and its outcome must be like to survive the way: flags of `open` as wide as a machine word,
    an error of a `ssize_t` method that is an `int`, and an `init` whose return value says what its
    capability says. -/
def Call.Encodable (c : Call w) (r : Outcome w) : Prop :=
  match c with
  | .open _ _ _ => w = .w32
  | .pread _ _ _ | .pwrite _ _ _ | .pgetdents _ _ _ => -2 ^ 31 ≤ r.ret
  | .init => r.ret = if r.cap then 0 else (-l4Enomem).toInt
  | _ => True

/-- `return (ret < 0) ? ret : 0` keeps a `ssize_t` error when it is an `int`. -/
theorem counted_label_eq_iff {v : SSizeT w} :
    (Reply.counted v []).label.toInt = (Outcome.counted v).ret ↔ -2 ^ 31 ≤ (Outcome.counted v).ret := by
  simp only [Reply.counted, Outcome.counted]
  split
  · next hneg =>
    rw [BitVec.toInt_setWidth]
    cases w <;> simp only [Word.bytes] at hneg ⊢ <;> have := v.isLt <;> simp only [Word.bytes] at this <;>
      grind [Int.bmod_def]
  · simp

theorem toInt_signExtend_int {v : CInt} : (v.signExtend (8 * w.bytes)).toInt = v.toInt :=
  BitVec.toInt_signExtend_of_le (by cases w <;> decide)

theorem counted_signExtend {v : CInt} : -2 ^ 31 ≤ (Outcome.counted (w := w) (v.signExtend _)).ret := by
  have hw := w.le_bits
  have hv := BitVec.le_toInt v
  simp only [Outcome.counted, BitVec.toInt_signExtend_of_le hw]
  split <;> omega

theorem counted_label_neg {e : CInt} (he : e.toInt < 0) :
    (Reply.counted (e.signExtend (8 * w.bytes)) []).label.toInt < 0 := by
  rw [counted_label_eq_iff.mpr counted_signExtend]
  simp only [Outcome.counted, toInt_signExtend_int]
  rw [if_pos he]
  exact he

theorem transfer_outcome {v : SSizeT w} {r : CInt × SizeT w} (h₁ : r.1 = (Reply.counted v []).label) (h₂ : r.2 = v)
    (hv : -2 ^ 31 ≤ (Outcome.counted v).ret) :
    ({ ret := r.1.toInt, size := some r.2 } : Outcome w) = Outcome.counted v := by
  have hret := counted_label_eq_iff.mpr hv
  rw [h₁, h₂, hret]
  simp only [Outcome.counted]

theorem Call.exact_of_encodable {c : Call w} {r : Outcome w} (hc : c.Accepted) (hr : c.Encodable r) : c.Exact E r := by
  refine ⟨fits_request hc, fun σ h W st hres => ?_⟩
  subst hres
  cases c with
  | init =>
    obtain ⟨hs, hret⟩ := L4fs.init_eq (h := h) (W := W)
    refine ⟨hs, ?_⟩
    have hr : (h.init W.svr.obj).2.1.toInt = if (h.init W.svr.obj).2.2 then 0 else (-l4Enomem).toInt := hr
    simp only [remote, direct, hret, hr]
    split <;> simp_all
  | «open» name flags mode =>
    obtain rfl : w = .w32 := hr
    obtain ⟨hs, hret⟩ := L4fs.open_eq (h := h) (W := W) flags mode hc
    exact ⟨hs, by simp only [remote, direct, hret]⟩
  | mkdir name mode =>
    obtain ⟨hs, hret⟩ := L4fs.mkdir_eq (h := h) (W := W) mode hc
    exact ⟨hs, by simp only [remote, direct, hret]⟩
  | rmdir name =>
    obtain ⟨hs, hret⟩ := L4fs.rmdir_eq (h := h) (W := W) hc
    exact ⟨hs, by simp only [remote, direct, hret]⟩
  | rename name =>
    obtain ⟨hs, hret⟩ := L4fs.rename_eq (h := h) (W := W) hc
    exact ⟨hs, by simp only [remote, direct, hret]⟩
  | unlink name =>
    obtain ⟨hs, hret⟩ := L4fs.unlink_eq (h := h) (W := W) hc
    exact ⟨hs, by simp only [remote, direct, hret]⟩
  | umount =>
    obtain ⟨hs, hret⟩ := L4fs.umount_eq (h := h) (W := W)
    exact ⟨hs, by simp only [remote, direct, hret]⟩
  | sync =>
    obtain ⟨hs, hret⟩ := L4fs.sync_eq (h := h) (W := W)
    exact ⟨hs, by simp only [remote, direct, hret]⟩
  | pread fh size offset =>
    obtain ⟨hs, hlabel, hsize⟩ := L4fs.pread_eq (h := h) (W := W) fh size offset hc
    exact ⟨hs, transfer_outcome hlabel hsize hr⟩
  | pwrite fh size offset =>
    obtain ⟨hs, hlabel, hsize⟩ := L4fs.pwrite_eq (h := h) (W := W) fh size offset hc
    exact ⟨hs, transfer_outcome hlabel hsize hr⟩
  | pgetdents fh size offset =>
    obtain ⟨hs, hlabel, hsize⟩ := L4fs.pgetdents_eq (h := h) (W := W) fh offset hc
    exact ⟨hs, transfer_outcome hlabel hsize hr⟩
  | close fh =>
    obtain ⟨hs, hret⟩ := L4fs.close_eq (h := h) (W := W) fh
    exact ⟨hs, by simp only [remote, direct, hret]⟩
  | symlink name =>
    obtain ⟨hs, hret⟩ := L4fs.symlink_eq (h := h) (W := W) hc
    exact ⟨hs, by simp only [remote, direct, hret]⟩
  | link name =>
    obtain ⟨hs, hret⟩ := L4fs.link_eq (h := h) (W := W) hc
    exact ⟨hs, by simp only [remote, direct, hret]⟩
  | readlink fh bufsize =>
    obtain ⟨hs, hlabel, hsize⟩ := L4fs.readlink_eq (h := h) (W := W) fh bufsize
    exact ⟨hs, transfer_outcome hlabel hsize counted_signExtend⟩
  | fstat64 fh =>
    obtain ⟨hs, hret⟩ := L4fs.fstat64_eq (h := h) (W := W) fh st
    exact ⟨hs, by simp only [remote, direct, hret]⟩
  | fsync fh =>
    obtain ⟨hs, hret⟩ := L4fs.fsync_eq (h := h) (W := W) fh
    exact ⟨hs, by simp only [remote, direct, hret]⟩
  | ftruncate64 fh offset =>
    obtain ⟨hs, hret⟩ := L4fs.ftruncate64_eq (h := h) (W := W) fh offset
    exact ⟨hs, by simp only [remote, direct, hret]⟩
  | dataspace fh =>
    obtain ⟨hs, hret⟩ := L4fs.dataspace_eq (h := h) (W := W) fh
    exact ⟨hs, by simp only [remote, direct, hret]⟩

/-! ### `open` on the 8-byte build -/

/-- A handler that keeps the name it is opened with. -/
def nameKeeper (E : Ipc w) (fh : CInt) (mode : ModeT) : L4fsSvr E (Option CString) where
  «open» _ name _ _ := (some name, fh, mode)

/-- An 8-byte build lays the name of an `open` out at offset 24. -/
theorem openRequest_w64_layout {name : CString} (flags : CInt) (mode : ModeT) (hn : name.strlen + 1 ≤ maxPathSize .w64)
    (sent own : Mem) :
    (deliver .w64 (L4fs.openRequest .w64 name flags mode) sent own).len = align 8 (24 + (name.strlen + 1)) ∧
      (deliver .w64 (L4fs.openRequest .w64 name flags mode) sent own).mem.read 24 (name.strlen + 1) = name.c_str := by
  have hfits := L4fs.fits_openRequest hn flags mode
  have hend : endPos 0 (L4fs.openRequest .w64 name flags mode) = 24 + (name.strlen + 1) := by
    simp [L4fs.openRequest, str, Marshal.counted, endPos, scalar, align, Word.bytes]
  obtain ⟨hpos, -, -⟩ := Out.putAll_carries (o := ⟨sent, 0⟩) hfits
  obtain ⟨-, -, -, -, hname, -⟩ := (has_deliver sent own hfits).1
  refine ⟨by simp only [deliver, hpos, hend, Word.bytes], ?_⟩
  simpa [deliver, scalar, align, Word.bytes] using hname

/-- The server takes the name length from the first bytes of the name, so for every name some contents of
    the name buffer make it hand on another name. -/
theorem exists_readName_ne {E : Ipc .w64} {name : CString} (flags : CInt) (mode : ModeT)
    (hn : name.strlen + 1 ≤ maxPathSize .w64) (sent own : Mem) :
    ∃ nameBuf : Mem, (readName E nameBuf
      (readModeT (readULong .w64 (readInt (deliver .w64 (L4fs.openRequest .w64 name flags mode) sent own)).2).2).2).1 ≠
        name := by
  obtain ⟨hlen, hread⟩ := openRequest_w64_layout flags mode hn sent own
  generalize hm : deliver .w64 (L4fs.openRequest .w64 name flags mode) sent own = m at hlen hread
  have hios : (readModeT (readULong .w64 (readInt m).2).2).2 = ⟨m.mem, m.len, 20⟩ := by
    have h0 : m.pos = 0 := by rw [← hm]; rfl
    simp [readScalar, In.get, align, Word.bytes, h0]
  rw [hios]
  -- What the server copies starts eight bytes into the name and stays inside the message.
  obtain ⟨n, hcarried, hcopied⟩ : ∃ n ≤ m.len - 32,
      (In.getBuf E.bufCpIn 8 1 (maxPathSize .w64) ⟨m.mem, m.len, 20⟩).1 = m.mem.read 32 n := by
    exact ⟨E.bufCpIn.copied (Bytes.toNat (m.mem.read 24 8)) (maxPathSize .w64) (m.len - 32),
      E.bufCpIn.le_carried _ _ _, by simp [In.getBuf, In.get, align]⟩
  have hterm : m.mem (24 + name.strlen) = 0 := by
    rw [Mem.read_add] at hread
    have hlast := (List.append_inj hread (by simp [CString.strlen])).2
    simpa [Mem.read] using hlast
  have hname : name.bytes.length = name.strlen := rfl
  rcases Nat.eq_zero_or_pos name.strlen with h0 | hpos
  · refine ⟨fun _ => 1, fun heq => ?_⟩
    have hn0 : n = 0 := by
      have : m.len = 32 := by rw [hlen, h0]; rfl
      omega
    have hbytes := congrArg CString.bytes heq
    rw [List.length_eq_zero_iff.mp (hname.trans h0)] at hbytes
    simp only [readName, Word.bytes, hcopied, hn0, Mem.read_zero, Mem.write_nil, CString.ofMem] at hbytes
    exact Mem.cstr_ne_nil (by simp [Mem.write, maxPathSize, l4UtcbGenericDataSize, Word.bytes]) (by decide) hbytes
  · refine ⟨fun _ => 0, fun heq => ?_⟩
    -- The first zero of the buffer: the name's own, eight bytes early, or the end of what was copied.
    have hzero : (Mem.write (Mem.write (fun _ => 0) 0 (m.mem.read 32 n)) (maxPathSize .w64 - 1) [0])
        (0 + min n (name.strlen - 8)) = 0 := by
      have hshort : name.strlen < 8 → n = 0 := fun hlt => by
        have : align 8 (24 + (name.strlen + 1)) = 32 := by
          simp only [align]
          omega
        omega
      have hget : name.strlen - 8 < n → (m.mem.read 32 n).getD (name.strlen - 8) 0 = 0 := fun hlt => by
        rw [List.getD_eq_getElem _ _ (by simpa using hlt)]
        simp only [Mem.read, List.getElem_map, List.getElem_range]
        rw [← hterm]
        congr 1
        omega
      simp only [Mem.write, List.length_singleton, Mem.length_read]
      split
      · simp
      · split
        · next h => simpa [Nat.min_eq_right (by omega : name.strlen - 8 ≤ n)] using hget (by omega)
        · rfl
    have hle := Mem.length_cstr_le_of_zero (n := maxPathSize .w64) hzero
    have hbytes := congrArg (fun s => s.bytes.length) heq
    simp only [readName, Word.bytes, hcopied, CString.ofMem] at hbytes
    omega

theorem not_exact_open_w64 {E : Ipc .w64} {name : CString} {flags : CInt} {mode mode' : ModeT} {fh : CInt}
    (hn : name.strlen + 1 ≤ maxPathSize .w64) :
    ¬(Call.open name flags mode).Exact E { ret := fh.toInt, mode := some mode' } := by
  rintro ⟨-, hex⟩
  let stale : Stale E := ⟨fun _ => 0, fun _ => 0, zeroStat E⟩
  obtain ⟨nameBuf, hne⟩ := exists_readName_ne (E := E) flags mode hn stale.caller stale.server
  have hs := (hex _ (nameKeeper E fh mode') ⟨⟨nameBuf, none⟩, fun _ => stale, []⟩ (zeroStat E) rfl).1
  have hi := has_deliver stale.caller stale.server (L4fs.fits_openRequest hn flags mode)
  have hop := ofInt?_readInt hi
  have hok : L4fs.tooLong .w64 name = false := L4fs.tooLong_of_fits hn
  simp only [Call.remote, L4fs.open, hok, Bool.false_eq_true, ↓reduceIte, World.call, ipcCall, L4fs.l4Error, dispatch,
    hop, nameKeeper, Call.direct, ne_eq, not_true_eq_false] at hs
  exact hne (Option.some.inj hs)

/-! ### The exact condition -/

/-- A call that its stub accepts is exact for an outcome of a handler if and only if the two are encodable. -/
theorem Call.exact_iff_encodable (E : Ipc w) (c : Call w) (hc : c.Accepted) (h : L4fsSvr E σ) (s : σ)
    (stack : Stat64 E) :
    c.Exact E (c.direct h s stack).2 ↔ c.Encodable (c.direct h s stack).2 := by
  refine ⟨fun hex => ?_, exact_of_encodable hc⟩
  have hself := hex.2 σ h ⟨⟨fun _ => 0, s⟩, fun _ => ⟨fun _ => 0, fun _ => 0, stack⟩, []⟩ stack rfl
  cases c with
  | «open» name flags mode =>
    cases w with
    | w32 => rfl
    | w64 => exact absurd hex (not_exact_open_w64 hc)
  | init =>
    have hret := congrArg Outcome.ret hself.2
    simp only [remote, direct, (L4fs.init_eq (h := h)).2] at hret
    simp only [Encodable, direct, ← hret]
    split <;> simp_all
  | pread fh size offset =>
    have hret := congrArg Outcome.ret hself.2
    simp only [remote, direct, (L4fs.pread_eq (h := h) fh size offset hc).2.1] at hret
    exact counted_label_eq_iff.mp hret
  | pwrite fh size offset =>
    have hret := congrArg Outcome.ret hself.2
    simp only [remote, direct, (L4fs.pwrite_eq (h := h) fh size offset hc).2.1] at hret
    exact counted_label_eq_iff.mp hret
  | pgetdents fh size offset =>
    have hret := congrArg Outcome.ret hself.2
    simp only [remote, direct, (L4fs.pgetdents_eq (h := h) fh offset hc).2.1] at hret
    exact counted_label_eq_iff.mp hret
  | _ => trivial

theorem Call.exact_open_x86 :
    (Call.open ⟨[102], by decide⟩ 0 0).Exact Ipc.x86 { ret := (-l4Enosys).toInt, mode := some 0 } ↔
      (Call.open ⟨[102], by decide⟩ 0 0).Encodable (w := .w32) { ret := (-l4Enosys).toInt, mode := some 0 } :=
  Call.exact_iff_encodable Ipc.x86 (.open ⟨[102], by decide⟩ 0 0) (show _ ≤ _ by decide) {} ()
    (zeroStat Ipc.x86)

/-- `open("f", O_RDONLY, 0)` on the 8-byte build: a server that opens it as descriptor 3 is asked for another
    name. -/
theorem Call.not_exact_open_amd64 :
    ¬(Call.open ⟨[102], by decide⟩ 0 0).Exact Ipc.amd64 { ret := (3 : CInt).toInt, mode := some 0 } :=
  not_exact_open_w64 (by decide)

end Exactness

end Dom0
