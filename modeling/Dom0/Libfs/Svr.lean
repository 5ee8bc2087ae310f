import Dom0.Ipc

/-! # The server side of the file system protocol

The opcodes of `l4fs-sys.h`, the handler class of `svr.h` with the defaults of `svr.cc`, and
`L4fs_svr::dispatch`, which decodes a request, calls the handler of its opcode and writes the reply. -/

namespace Dom0
open Marshal

/-- `Max_path_size`. -/
def maxPathSize (w : Word) : Nat := (l4UtcbGenericDataSize - 5) * w.bytes

/-- `Max_rw_buffer_size`. -/
def maxRwBufferSize : Nat := 1024 * 1024

/-! ## Opcodes -/

/-- The enumerators of `Svr_`. -/
inductive Opcode
  | init | «open» | close | pread | pwrite | pgetdents | fstat64 | ftruncate64
  | rename | unlink | rmdir | mkdir | fsync | getDataspace | umount | sync | symlink | link | readlink
deriving DecidableEq, Repr

namespace Opcode

/-- The enumerators in order. -/
def all : List Opcode :=
  [.init, .open, .close, .pread, .pwrite, .pgetdents, .fstat64, .ftruncate64,
    .rename, .unlink, .rmdir, .mkdir, .fsync, .getDataspace, .umount, .sync, .symlink, .link, .readlink]

/-- The value of an enumerator. -/
def toInt (o : Opcode) : CInt := BitVec.ofNat 32 (all.idxOf o)

/-- The enumerator with a value. -/
def ofInt? (v : CInt) : Option Opcode := all[v.toNat]?

@[simp] theorem ofInt?_toInt (o : Opcode) : ofInt? o.toInt = some o := by
  cases o <;> rfl

end Opcode

/-- `L4::Opcode(o)` in a request. -/
abbrev opcode (o : Opcode) : Field := int o.toInt

/-! ## The handler class -/

/-- The virtual methods of `L4fs_fs`, `L4fs_file` and `L4fs_ds` on an object with state `σ`. A method that an
    object does not override answers `-L4_ENOSYS`. An `init` also says whether the capability it hands out
    is valid, and `dataspace` likewise. -/
structure L4fsSvr {w : Word} (E : Ipc w) (σ : Type) where
  init : σ → σ × CInt × Bool := fun s => (s, -l4Enosys, false)
  «open» : σ → CString → CInt → ModeT → σ × CInt × ModeT := fun s _ _ mode => (s, -l4Enosys, mode)
  mkdir : σ → CString → ModeT → σ × CInt := fun s _ _ => (s, -l4Enosys)
  rename : σ → CString → σ × CInt := fun s _ => (s, -l4Enosys)
  link : σ → CString → σ × CInt := fun s _ => (s, -l4Enosys)
  symlink : σ → CString → σ × CInt := fun s _ => (s, -l4Enosys)
  unlink : σ → CString → σ × CInt := fun s _ => (s, -l4Enosys)
  rmdir : σ → CString → σ × CInt := fun s _ => (s, -l4Enosys)
  umount : σ → σ × CInt := fun s => (s, -l4Enosys)
  sync : σ → σ × CInt := fun s => (s, -l4Enosys)
  readlink : σ → CInt → SizeT w → σ × CInt := fun s _ _ => (s, -l4Enosys)
  pread : σ → CInt → SizeT w → Off64T → σ × SSizeT w := fun s _ _ _ => (s, BitVec.ofInt _ (-l4Enosys.toInt))
  pwrite : σ → CInt → SizeT w → Off64T → σ × SSizeT w := fun s _ _ _ => (s, BitVec.ofInt _ (-l4Enosys.toInt))
  pgetdents : σ → CInt → SizeT w → Off64T → σ × SSizeT w := fun s _ _ _ => (s, BitVec.ofInt _ (-l4Enosys.toInt))
  close : σ → CInt → σ × CInt := fun s _ => (s, -l4Enosys)
  fstat64 : σ → CInt → Stat64 E → σ × CInt × Stat64 E := fun s _ st => (s, -l4Enosys, st)
  fsync : σ → CInt → σ × CInt := fun s _ => (s, -l4Enosys)
  ftruncate64 : σ → CInt → Off64T → σ × CInt := fun s _ _ => (s, -l4Enosys)
  dataspace : σ → CInt → σ × CInt × Bool := fun s _ => (s, -l4Enosys, false)

/-- What a server keeps between requests: the static `name_buf` of `operator >>`, and the handler object. -/
structure SvrState (σ : Type) where
  nameBuf : Mem
  obj : σ

/-- The state of a server that has handled nothing: `name_buf` is static, hence zero. -/
def SvrState.start {σ : Type} (s : σ) : SvrState σ := ⟨fun _ => 0, s⟩

/-! ## Dispatch -/

section
variable {w : Word} (E : Ipc w) {σ : Type}

/-- `operator >> (Istream &, char *&)`: the name lands in `name_buf`, whose last byte is set to zero. -/
def readName (nameBuf : Mem) (ios : In) : CString × Mem :=
  let copied := (ios.getBuf E.bufCpIn w.bytes 1 (maxPathSize w)).1
  let nameBuf := (nameBuf.write 0 copied).write (maxPathSize w - 1) [0]
  (CString.ofMem nameBuf 0 (maxPathSize w), nameBuf)

/-- A reply without values. -/
def Reply.plain (ret : CInt) : Reply := ⟨ret, [], false⟩

/-- `ios << ret` and `return (ret < 0) ? ret : 0` for a `ssize_t` result, with what else is written. -/
def Reply.counted (ret : SSizeT w) (more : List Field) : Reply :=
  ⟨if ret.toInt < 0 then ret.setWidth 32 else 0, scalar w.bytes ret :: more, false⟩

/-- The cases that read a name and return what the handler returns. -/
def dispatchName (S : SvrState σ) (ios : In) (run : σ → CString → σ × CInt) : SvrState σ × Reply :=
  let name := readName E S.nameBuf ios
  let r := run S.obj name.1
  (⟨name.2, r.1⟩, .plain r.2)

/-- The cases that read `fh` and return what the handler returns. -/
def dispatchHandle (S : SvrState σ) (ios : In) (run : σ → CInt → σ × CInt) : SvrState σ × Reply :=
  let r := run S.obj (readInt ios).1
  ({ S with obj := r.1 }, .plain r.2)

/-- The cases that read `fh`, `size` and `offset` and write the handler's count. -/
def dispatchTransfer (S : SvrState σ) (ios : In) (run : σ → CInt → SizeT w → Off64T → σ × SSizeT w)
    (more : Off64T → List Field) : SvrState σ × Reply :=
  let fh := readInt ios
  let size := readSizeT w fh.2
  let offset := readOff64T size.2
  let r := run S.obj fh.1 size.1 offset.1
  ({ S with obj := r.1 }, .counted r.2 (more offset.1))

/-- `L4fs_svr::dispatch`. The local `st` of the `Fstat64` case starts with what the stack holds. -/
def dispatch (h : L4fsSvr E σ) (S : SvrState σ) (stack : Stat64 E) (ios : In) : SvrState σ × Reply :=
  let op := readInt ios
  let ios := op.2
  match Opcode.ofInt? op.1 with
  | some .open =>
    -- `flags` is read as `unsigned long` and handed to a parameter of type `int`.
    let flags := readULong w ios
    let mode := readModeT flags.2
    let name := readName E S.nameBuf mode.2
    let r := h.open S.obj name.1 (flags.1.setWidth 32) mode.1
    (⟨name.2, r.1⟩, ⟨0, [int r.2.1, modeT r.2.2], false⟩)
  | some .readlink =>
    let fh := readInt ios
    let size := readSizeT w fh.2
    let r := h.readlink S.obj fh.1 size.1
    ({ S with obj := r.1 }, .counted (w := w) (r.2.signExtend _) [])
  | some .pread => dispatchTransfer S ios h.pread fun _ => []
  | some .pwrite => dispatchTransfer S ios h.pwrite fun _ => []
  | some .pgetdents => dispatchTransfer S ios h.pgetdents fun offset => [off64T offset]
  | some .close => dispatchHandle S ios h.close
  | some .symlink => dispatchName E S ios h.symlink
  | some .link => dispatchName E S ios h.link
  | some .fstat64 =>
    let fh := readInt ios
    let r := h.fstat64 S.obj fh.1 stack
    ({ S with obj := r.1 }, ⟨r.2.1, stat64 E r.2.2, false⟩)
  | some .fsync => dispatchHandle S ios h.fsync
  | some .ftruncate64 =>
    let fh := readInt ios
    let offset := readOff64T fh.2
    let r := h.ftruncate64 S.obj fh.1 offset.1
    ({ S with obj := r.1 }, .plain r.2)
  | some .getDataspace =>
    let fh := readInt ios
    let r := h.dataspace S.obj fh.1
    ({ S with obj := r.1 }, ⟨r.2.1, [], r.2.2⟩)
  | some .rename => dispatchName E S ios h.rename
  | some .unlink => dispatchName E S ios h.unlink
  | some .rmdir => dispatchName E S ios h.rmdir
  | some .mkdir =>
    let mode := readModeT ios
    let name := readName E S.nameBuf mode.2
    let r := h.mkdir S.obj name.1 mode.1
    (⟨name.2, r.1⟩, .plain r.2)
  | some .init =>
    -- The return value of `init` is not used: the capability alone decides.
    let r := h.init S.obj
    ({ S with obj := r.1 }, ⟨if r.2.2 then 0 else -l4Enomem, [], r.2.2⟩)
  | some .umount =>
    let r := h.umount S.obj
    ({ S with obj := r.1 }, .plain r.2)
  | some .sync =>
    let r := h.sync S.obj
    ({ S with obj := r.1 }, .plain r.2)
  | none => (S, .plain (-l4Enosys))

end

end Dom0
