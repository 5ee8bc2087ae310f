import Dom0.Libfs.Svr

/-! # The client stubs

The methods of class `L4fs` in `libfs/lib/src/l4fs.cc`: each checks its arguments, writes a request, calls
the server and reads the reply. A parameter that the C++ stub takes by reference comes back in the result. -/

namespace Dom0
open Marshal

/-- A server, what the next calls to it find in place, and the copies that its clients made between the
    shared buffer and their callers' buffers. -/
structure World {w : Word} (E : Ipc w) (σ : Type) where
  svr : SvrState σ
  stale : Nat → Stale E
  copies : List Copy := []

section
variable {w : Word} {E : Ipc w} {σ : Type}

/-- A call of the server with handler `h`. -/
def World.call (h : L4fsSvr E σ) (W : World E σ) (request : List Field) : World E σ × Answer :=
  let r := ipcCall (W.stale 0) (dispatch E h W.svr) request
  ({ W with svr := r.1, stale := fun n => W.stale (n + 1) }, r.2)

namespace L4fs

/-- `l4_error(tag)`: the label of the reply. -/
def l4Error (a : Answer) : CInt := a.label

/-- `strlen(name) + 1 > Max_path_size`. -/
def tooLong (w : Word) (name : CString) : Bool := decide (maxPathSize w < name.strlen + 1)

theorem tooLong_of_fits {name : CString} (hn : name.strlen + 1 ≤ maxPathSize w) : tooLong w name = false :=
  decide_eq_false (Nat.not_lt.mpr hn)

theorem tooLong_of_not_fits {name : CString} (hn : ¬name.strlen + 1 ≤ maxPathSize w) : tooLong w name = true :=
  decide_eq_true (Nat.lt_of_not_le hn)

/-- `size > Max_rw_buffer_size`. -/
def tooBig (size : SizeT w) : Bool := decide (maxRwBufferSize < size.toNat)

/-! ### Requests

What the stubs write into the stream. -/

def plainRequest (o : Opcode) : List Field := [opcode o]

def nameRequest (w : Word) (o : Opcode) (name : CString) : List Field := opcode o :: str w name

def openRequest (w : Word) (name : CString) (flags : CInt) (mode : ModeT) : List Field :=
  [opcode .open, int flags, modeT mode] ++ str w name

def mkdirRequest (w : Word) (name : CString) (mode : ModeT) : List Field := [opcode .mkdir, modeT mode] ++ str w name

def handleRequest (o : Opcode) (fh : CInt) : List Field := [opcode o, int fh]

def transferRequest (w : Word) (o : Opcode) (fh : CInt) (size : SizeT w) (offset : Off64T) : List Field :=
  [opcode o, int fh, sizeT w size, off64T offset]

def readlinkRequest (w : Word) (fh : CInt) (bufsize : SizeT w) : List Field :=
  [opcode .readlink, int fh, sizeT w bufsize]

def ftruncate64Request (fh : CInt) (offset : Off64T) : List Field := [opcode .ftruncate64, int fh, off64T offset]

/-! ### Stubs -/

/-- The stubs that send an opcode only. -/
def callPlain (h : L4fsSvr E σ) (W : World E σ) (o : Opcode) : World E σ × CInt :=
  let r := W.call h (plainRequest o)
  (r.1, l4Error r.2)

/-- The stubs that send a name only. -/
def callName (h : L4fsSvr E σ) (W : World E σ) (o : Opcode) (name : CString) : World E σ × CInt :=
  if tooLong w name then (W, -l4Enametoolong)
  else
    let r := W.call h (nameRequest w o name)
    (r.1, l4Error r.2)

/-- The stubs that send a handle only and return the label. -/
def callHandle (h : L4fsSvr E σ) (W : World E σ) (o : Opcode) (fh : CInt) : World E σ × CInt :=
  let r := W.call h (handleRequest o fh)
  (r.1, l4Error r.2)

/-- The stubs that send a handle, a size and an offset, and read the size back. -/
def callTransfer (h : L4fsSvr E σ) (W : World E σ) (o : Opcode) (fh : CInt) (size : SizeT w) (offset : Off64T) :
    World E σ × CInt × SizeT w :=
  if tooBig size then (W, -l4Enomem, size)
  else
    let r := W.call h (transferRequest w o fh size offset)
    (r.1, l4Error r.2, (readSizeT w r.2.ios).1)

/-- The second component says whether the capability that comes with the reply is valid. -/
def init (h : L4fsSvr E σ) (W : World E σ) : World E σ × CInt × Bool :=
  let r := W.call h (plainRequest .init)
  (r.1, l4Error r.2, r.2.cap)

def «open» (h : L4fsSvr E σ) (W : World E σ) (name : CString) (flags : CInt) (mode : ModeT) :
    World E σ × CInt × ModeT :=
  if tooLong w name then (W, -l4Enametoolong, mode)
  else
    let r := W.call h (openRequest w name flags mode)
    let ret := l4Error r.2
    if ret ≠ 0 then (r.1, ret, mode)
    else
      let fh := readInt r.2.ios
      (r.1, fh.1, (readModeT fh.2).1)

def mkdir (h : L4fsSvr E σ) (W : World E σ) (name : CString) (mode : ModeT) : World E σ × CInt :=
  if tooLong w name then (W, -l4Enametoolong)
  else
    let r := W.call h (mkdirRequest w name mode)
    (r.1, l4Error r.2)

def rmdir (h : L4fsSvr E σ) (W : World E σ) (name : CString) : World E σ × CInt := callName h W .rmdir name

def rename (h : L4fsSvr E σ) (W : World E σ) («from» : CString) : World E σ × CInt := callName h W .rename «from»

def unlink (h : L4fsSvr E σ) (W : World E σ) (name : CString) : World E σ × CInt := callName h W .unlink name

def link (h : L4fsSvr E σ) (W : World E σ) («from» : CString) : World E σ × CInt := callName h W .link «from»

def symlink (h : L4fsSvr E σ) (W : World E σ) («from» : CString) : World E σ × CInt := callName h W .symlink «from»

def umount (h : L4fsSvr E σ) (W : World E σ) : World E σ × CInt := callPlain h W .umount

def sync (h : L4fsSvr E σ) (W : World E σ) : World E σ × CInt := callPlain h W .sync

def pread (h : L4fsSvr E σ) (W : World E σ) (fh : CInt) (size : SizeT w) (offset : Off64T) :
    World E σ × CInt × SizeT w :=
  callTransfer h W .pread fh size offset

def pwrite (h : L4fsSvr E σ) (W : World E σ) (fh : CInt) (size : SizeT w) (offset : Off64T) :
    World E σ × CInt × SizeT w :=
  callTransfer h W .pwrite fh size offset

def pgetdents (h : L4fsSvr E σ) (W : World E σ) (fh : CInt) (size : SizeT w) (offset : Off64T) :
    World E σ × CInt × SizeT w :=
  callTransfer h W .pgetdents fh size offset

def close (h : L4fsSvr E σ) (W : World E σ) (fh : CInt) : World E σ × CInt := callHandle h W .close fh

/-- Unlike the other stubs that take a size, this one has no bound on it. -/
def readlink (h : L4fsSvr E σ) (W : World E σ) (fh : CInt) (bufsize : SizeT w) : World E σ × CInt × SizeT w :=
  let r := W.call h (readlinkRequest w fh bufsize)
  (r.1, l4Error r.2, (readSizeT w r.2.ios).1)

/-- `buf_cp_in(st, size)` with `size = 1` fills `st` or leaves it as it was. -/
def fstat64 (h : L4fsSvr E σ) (W : World E σ) (fh : CInt) (st : Stat64 E) : World E σ × CInt × Stat64 E :=
  let r := W.call h (handleRequest .fstat64 fh)
  let copied := (r.2.ios.getBuf E.bufCpIn w.bytes E.statSize 1).1
  (r.1, l4Error r.2, if hn : copied.length = E.statSize then ⟨copied, hn⟩ else st)

def fsync (h : L4fsSvr E σ) (W : World E σ) (fh : CInt) : World E σ × CInt := callHandle h W .fsync fh

def ftruncate64 (h : L4fsSvr E σ) (W : World E σ) (fh : CInt) (offset : Off64T) : World E σ × CInt :=
  let r := W.call h (ftruncate64Request fh offset)
  (r.1, l4Error r.2)

def dataspace (h : L4fsSvr E σ) (W : World E σ) (fh : CInt) : World E σ × CInt × Bool :=
  let r := W.call h (handleRequest .getDataspace fh)
  (r.1, l4Error r.2, r.2.cap)

end L4fs
end

end Dom0
