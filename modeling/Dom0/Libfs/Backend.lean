import Dom0.FsSrv.Server
import Dom0.Libfs.L4fs

/-! # The client side of the file system

The VFS backend of `libc_backend/l4fs.cc`: the file and directory objects that a client holds, their methods
over the stubs, and `mount`. The shared buffer is the server's `rw_buf`; a copy that runs past its end
leaves the rest to whatever is mapped behind it. -/

namespace Dom0
open Marshal

/-- `O_DIRECTORY`. -/
def oDirectory : CInt := 0o200000

def seekSet : CInt := 0
def seekCur : CInt := 1
def seekEnd : CInt := 2

/-- `S_ISDIR(mode)`. -/
def sIsdir (mode : ModeT) : Bool := mode &&& 0o170000 == 0o040000

/-- An object that the client holds: an `L4fs_dir` with its `_fh` and `_pos`, or an `L4fs_file` with its
    `_fh`. -/
inductive File
  | dir (fh : CInt) (pos : Off64T)
  | file (fh : CInt)
deriving DecidableEq, Repr

/-- The member `_fh`. -/
def File.fh : File → CInt
  | .dir fh _ => fh
  | .file fh => fh

/-- The object with another `_fh`. -/
def File.setFh (fh : CInt) : File → File
  | .dir _ pos => .dir fh pos
  | .file _ => .file fh

@[simp] theorem File.fh_setFh (fh : CInt) (o : File) : (o.setFh fh).fh = fh := by
  cases o <;> rfl

/-- How the allocation of an object in `mount` ends. -/
inductive Alloc
  | object
  | null
  | exception
deriving DecidableEq, Repr

/-- The code of a `Runtime_error`: a negative error number. -/
abbrev ErrNo := { e : CInt // e.toInt < 0 }

/-- What else can go wrong in `mount`: the errors that the set-up of the session throws before and after the
    `init` call, and the allocation of the directory object. -/
structure MountEnv where
  query : Option ErrNo
  attach : Option ErrNo
  alloc : Alloc

section
variable {w : Word} {E : Ipc w} {σ : Type} (h : L4fsSvr E (Server σ))

/-- The state of the file system below the server. -/
def World.fs (W : World E (Server σ)) : σ := W.svr.obj.fs

/-- What the shared buffer holds. -/
def World.rwBuf (W : World E (Server σ)) : Mem := W.svr.obj.rwBuf

/-- `memcpy(rw_buffer, bs, size)`. -/
def World.copyIn (W : World E (Server σ)) (bs : List UInt8) : World E (Server σ) :=
  { W with
    svr := { W.svr with obj := { W.svr.obj with rwBuf := W.rwBuf.write 0 (bs.take maxRwBufferSize) } }
    copies := W.copies ++ [⟨maxRwBufferSize, bs.length⟩] }

/-- `memcpy(buf, rw_buffer, n)`. -/
def World.copyOut (W : World E (Server σ)) (buf : List UInt8) (n : Nat) : World E (Server σ) × List UInt8 :=
  ({ W with copies := W.copies ++ [⟨maxRwBufferSize, n⟩, ⟨buf.length, n⟩] }, W.rwBuf.read 0 n ++ buf.drop n)

namespace L4fsFileBase

/-- `L4fs_file_base::close`, which the destructor calls too. -/
def close (W : World E (Server σ)) (o : File) : World E (Server σ) × CInt × File :=
  if 0 ≤ o.fh.toInt then
    let r := L4fs.close h W o.fh
    (r.1, r.2, o.setFh (-1))
  else (W, -ebadf, o.setFh (-1))

def fstat64 (W : World E (Server σ)) (o : File) (buf : Stat64 E) : World E (Server σ) × CInt × Stat64 E :=
  L4fs.fstat64 h W o.fh buf

/-- `L4fs_file_base::size`, which returns an error in the place of a size. `stSize` is the member `st_size`, and `st`
    is what the stack holds where `size` has its `struct stat64`. -/
def size (stSize : Stat64 E → Off64T) (W : World E (Server σ)) (fh : CInt) (st : Stat64 E) :
    World E (Server σ) × Off64T :=
  let r := L4fs.fstat64 h W fh st
  (r.1, if r.2.1 = 0 then stSize r.2.2 else r.2.1.signExtend _)

/-- `L4fs_file_base::link`: the destination travels through the shared buffer. -/
def link (W : World E (Server σ)) (srcPath dstPath : CString) : World E (Server σ) × CInt :=
  if L4fs.tooLong w dstPath then (W, -l4Enametoolong)
  else L4fs.link h (W.copyIn dstPath.c_str) srcPath

def symlink (W : World E (Server σ)) (srcPath dstPath : CString) : World E (Server σ) × CInt :=
  if L4fs.tooLong w dstPath then (W, -l4Enametoolong)
  else L4fs.symlink h (W.copyIn dstPath.c_str) srcPath

/-- `L4fs_file_base::readlink`: it copies as much as the caller's buffer has, and returns what the server said. -/
def readlink (W : World E (Server σ)) (o : File) (buf : List UInt8) : World E (Server σ) × CInt × List UInt8 :=
  let clientSize := buf.length
  let r := L4fs.readlink h W o.fh (BitVec.ofNat _ clientSize)
  let res := r.2.1
  let size := r.2.2
  if res.toInt < 0 then (r.1, res, buf)
  else
    let c := r.1.copyOut buf clientSize
    (c.1, size.setWidth 32, c.2)

end L4fsFileBase

namespace L4fsDir

/-- The `switch` of `lseek64`: the local `r`, or nothing for another value of `whence`. -/
def seekTarget (stSize : Stat64 E → Off64T) (W : World E (Server σ)) (fh : CInt) (pos offset : Off64T) (whence : CInt)
    (st : Stat64 E) : World E (Server σ) × Option Off64T :=
  if whence = seekSet then (W, some offset)
  else if whence = seekCur then (W, some (pos + offset))
  else if whence = seekEnd then
    let size := L4fsFileBase.size h stSize W fh st
    (size.1, some (size.2 + offset))
  else (W, none)

/-- `L4fs_dir::lseek64` on a directory object with `_fh` and `_pos`. -/
def lseek64 (stSize : Stat64 E → Off64T) (W : World E (Server σ)) (fh : CInt) (pos offset : Off64T) (whence : CInt)
    (st : Stat64 E) : World E (Server σ) × Off64T × File :=
  let r := seekTarget h stSize W fh pos offset whence st
  match r.2 with
  | none => (r.1, (-einval).signExtend _, .dir fh pos)
  | some target => if target.toInt < 0 then (r.1, (-einval).signExtend _, .dir fh pos)
      else (r.1, target, .dir fh target)

/-- `L4fs_dir::getdents` on a directory object with `_fh` and `_pos`, which comes back as the call leaves it. -/
def getdents (W : World E (Server σ)) (fh : CInt) (pos : Off64T) (buf : List UInt8) :
    World E (Server σ) × SSizeT w × File × List UInt8 :=
  let maxSize : SizeT w := BitVec.ofNat _ buf.length
  let r := L4fs.pgetdents h W fh maxSize pos
  let err := r.2.1
  let size := r.2.2
  if err = 0 ∧ 0 < size ∧ size ≤ maxSize then
    let c := r.1.copyOut buf size.toNat
    (c.1, size, .dir fh (pos + size.setWidth 64), c.2)
  else (r.1, err.signExtend _, .dir fh pos, buf)

/-- `L4fs_dir::get_entry`: the class of the new object is read off the mode that `open` hands back. -/
def getEntry (W : World E (Server σ)) (alloc : Bool) (name : CString) (flags : CInt) (mode : ModeT) :
    World E (Server σ) × CInt × Option File :=
  let flags := if name.bytes = [] then flags ||| oDirectory else flags
  let r := L4fs.open h W name flags mode
  if r.2.1.toInt < 0 then (r.1, r.2.1, none)
  else if alloc then (r.1, 0, some (if sIsdir r.2.2 then .dir r.2.1 0 else .file r.2.1))
  else (r.1, -l4Enomem, none)

def mkdir (W : World E (Server σ)) (name : CString) (mode : ModeT) : World E (Server σ) × CInt :=
  L4fs.mkdir h W name mode

def rmdir (W : World E (Server σ)) (name : CString) : World E (Server σ) × CInt := L4fs.rmdir h W name

/-- `L4fs_dir::rename`: the destination travels through the shared buffer. -/
def rename (W : World E (Server σ)) («from» dst : CString) : World E (Server σ) × CInt :=
  if L4fs.tooLong w dst then (W, -l4Enametoolong)
  else L4fs.rename h (W.copyIn dst.c_str) «from»

def unlink (W : World E (Server σ)) (name : CString) : World E (Server σ) × CInt := L4fs.unlink h W name

end L4fsDir

namespace L4fsFile

/-- The loop of `L4fs_file::preadv` over the entries that are left, with `p` and `read_bytes` so far. An entry
    is the caller's buffer. -/
def preadvLoop (fh : CInt) :
    World E (Server σ) → List (List UInt8) → Off64T → SSizeT w → World E (Server σ) × SSizeT w × List (List UInt8)
  | W, [], _, readBytes => (W, readBytes, [])
  | W, buf :: rest, p, readBytes =>
    let r := L4fs.pread h W fh (BitVec.ofNat _ buf.length) p
    let err := r.2.1
    let len := r.2.2
    if err.toInt < 0 then (r.1, err.signExtend _, buf :: rest)
    else
      let c := if err = 0 ∧ len ≠ 0 then r.1.copyOut buf len.toNat else (r.1, buf)
      let t := preadvLoop fh c.1 rest (p + len.setWidth 64) (readBytes + len)
      (t.1, t.2.1, c.2 :: t.2.2)

/-- `L4fs_file::preadv`; the caller's buffers come back as the call leaves them. -/
def preadv (W : World E (Server σ)) (fh : CInt) (iov : List (List UInt8)) (p : Off64T) :
    World E (Server σ) × SSizeT w × List (List UInt8) :=
  preadvLoop h fh W iov p 0

/-- The loop of `L4fs_file::pwritev`. -/
def pwritevLoop (fh : CInt) :
    World E (Server σ) → List (List UInt8) → Off64T → SSizeT w → World E (Server σ) × SSizeT w
  | W, [], _, writtenBytes => (W, writtenBytes)
  | W, buf :: rest, p, writtenBytes =>
    let r := L4fs.pwrite h (W.copyIn buf) fh (BitVec.ofNat _ buf.length) p
    let err := r.2.1
    let len := r.2.2
    if err.toInt < 0 then (r.1, err.signExtend _)
    else if len ≠ BitVec.ofNat _ buf.length then (r.1, writtenBytes + len)
    else pwritevLoop fh r.1 rest (p + len.setWidth 64) (writtenBytes + len)

/-- `L4fs_file::pwritev`. -/
def pwritev (W : World E (Server σ)) (fh : CInt) (iov : List (List UInt8)) (p : Off64T) :
    World E (Server σ) × SSizeT w :=
  pwritevLoop h fh W iov p 0

end L4fsFile

/-- `L4fs_file_system::mount`. The check after the allocation tests the parameter `dir`, not the object. -/
def mount (W : World E (Server σ)) (env : MountEnv) (source : CString) : World E (Server σ) × CInt × Option File :=
  match env.query with
  | some e => (W, e.1, none)
  | none =>
    let i := L4fs.init h W
    if i.2.1.toInt < 0 then (i.1, i.2.1, none)
    else
      match env.attach with
      | some e => (i.1, e.1, none)
      | none =>
        let r := L4fs.open h i.1 source oDirectory 0
        if r.2.1.toInt < 0 then (r.1, r.2.1, none)
        else
          match env.alloc with
          | .object => (r.1, 0, some (.dir r.2.1 0))
          | .null => (r.1, 0, none)
          | .exception => (r.1, -einval, none)

end

end Dom0
