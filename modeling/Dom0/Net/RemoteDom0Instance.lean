import Dom0.Net.TcpSocket

/-! # The client of a remote machine

`remote_dom0_instance.cc`: `sendElfBinaryFromMemory`, called for one binary after the other over one connection,
`sendElfBinaryFromRom`, which gets its binary from `loadFile`, and `executeLuaString`, called for one command after the
other over another connection. -/

namespace Dom0

/-- The arguments of one `sendElfBinaryFromMemory`. -/
structure Binary where
  remoteFilename : CString
  data : List UInt8
deriving DecidableEq, Repr

inductive RemoteDom0Instance.Pc (w : Word)
  | sendNameSize (t : Transfer w)
  | sendName (t : Transfer w)
  | sendSize (t : Transfer w)
  | waitGo (t : Transfer w)
  | sendData (t : Transfer w)

/-- A call in progress: where it stands, its arguments and its local `message`. -/
structure RemoteDom0Instance.Sending (w : Word) where
  pc : RemoteDom0Instance.Pc w
  binary : Binary
  message : Mem

/-- The call in progress, the ones still to come, what the ones before returned, and `errno`. -/
structure RemoteDom0Instance (w : Word) where
  sending : Option (RemoteDom0Instance.Sending w)
  binaries : List Binary
  results : List CInt
  errno : NetErrno

namespace RemoteDom0Instance
variable {w : Word} (o : ByteOrder)

/-- `size`, as a `size_t`. -/
def size (b : Binary) : SizeT w := BitVec.ofNat _ b.data.length

/-- The next call begins. -/
def next (s : RemoteDom0Instance w) : RemoteDom0Instance w :=
  match s.binaries with
  | [] => { s with sending := none }
  | b :: rest => { s with sending := some ⟨.sendNameSize .int32, b, fun _ => 0⟩, binaries := rest }

/-- The call in progress returns. -/
def ret (s : RemoteDom0Instance w) (result : CInt) : RemoteDom0Instance w :=
  next { s with results := s.results ++ [result] }

/-- The calls begin. Where the socket `isDisabled()`, each returns 0 at once. -/
def start (isDisabled : Bool) (binaries : List Binary) (errno : NetErrno) : RemoteDom0Instance w :=
  if isDisabled then ⟨none, [], binaries.map fun _ => 0, errno⟩ else next ⟨none, binaries, [], errno⟩

/-- The four blocks that a call sends. -/
def nameSizeBytes (b : Binary) : List UInt8 := o.bytes (BitVec.ofNat 32 b.remoteFilename.strlen + 1)
def nameBytes (b : Binary) : List UInt8 := b.remoteFilename.c_str
def sizeBytes (w : Word) (b : Binary) : List UInt8 := o.bytes ((size b : SizeT w).setWidth 32)

def call (s : RemoteDom0Instance w) : Syscall Unit UInt8 Empty :=
  match s.sending with
  | none => .exit
  | some ⟨.sendNameSize t, b, _⟩ => .write (t.window (nameSizeBytes o b))
  | some ⟨.sendName t, b, _⟩ => .write (t.window (nameBytes b))
  | some ⟨.sendSize t, b, _⟩ => .write (t.window (sizeBytes o w b))
  | some ⟨.waitGo t, _, _⟩ => .read () t.position.toNat t.left
  | some ⟨.sendData t, b, _⟩ => .write (t.window b.data)

/-- `if (x < 1) return -errno;`, and otherwise the call goes on to `pc`. -/
def check (s : RemoteDom0Instance w) (c : Sending w) (x : SSizeT w) (pc : Pc w) : RemoteDom0Instance w :=
  if x.toInt < 1 then s.ret (-s.errno.1) else { s with sending := some { c with pc } }

/-- A failed call leaves its error number in `errno`. -/
def setErrno {α : Type} (s : RemoteDom0Instance w) : Except NetErrno α → RemoteDom0Instance w
  | .error e => { s with errno := e }
  | .ok _ => s

def onRead (s : RemoteDom0Instance w) (res : Except NetErrno (List UInt8)) : RemoteDom0Instance w :=
  match s.sending with
  | some ⟨.waitGo t, b, message⟩ =>
    let c : Sending w := ⟨.waitGo t, b, t.store message res⟩
    match t.next (res.map List.length) with
    | .again t => { s with sending := some { c with pc := .waitGo t } }
    | .returned x => (s.setErrno res).check c x (.sendData (.start (((size b : SizeT w).setWidth 32).signExtend _)))
  | _ => s

def onWrite (s : RemoteDom0Instance w) (res : Except NetErrno Nat) : RemoteDom0Instance w :=
  match s.sending with
  | some ⟨.sendNameSize t, b, message⟩ =>
    match t.next res with
    | .again t => { s with sending := some ⟨.sendNameSize t, b, message⟩ }
    | .returned x =>
      (s.setErrno res).check ⟨.sendNameSize t, b, message⟩ x
        (.sendName (.start (BitVec.ofNat _ b.remoteFilename.strlen + 1)))
  | some ⟨.sendName t, b, message⟩ =>
    match t.next res with
    | .again t => { s with sending := some ⟨.sendName t, b, message⟩ }
    | .returned x => (s.setErrno res).check ⟨.sendName t, b, message⟩ x (.sendSize .int32)
  | some ⟨.sendSize t, b, message⟩ =>
    match t.next res with
    | .again t => { s with sending := some ⟨.sendSize t, b, message⟩ }
    | .returned x => (s.setErrno res).check ⟨.sendSize t, b, message⟩ x (.waitGo .int32)
  | some ⟨.sendData t, b, message⟩ =>
    match t.next res with
    | .again t => { s with sending := some ⟨.sendData t, b, message⟩ }
    | .returned x =>
      let s := s.setErrno res
      s.ret (if x.toInt < 1 then -s.errno.1 else (size b : SizeT w).setWidth 32)
  | _ => s

def program : Program (RemoteDom0Instance w) Unit UInt8 Empty NetErrno := ⟨call o, onRead, onWrite, fun s _ => s⟩

end RemoteDom0Instance

/-! ## sendElfBinaryFromRom -/

/-- A local file, and how the calls that load it go: its content, if there is one, whether it may be read, what `malloc`
    gives, and how many bytes `fread` can get. -/
structure LocalFile (w : Word) where
  content : Option (List UInt8)
  readable : Bool
  malloc : SizeT w → Option Mem
  fread : Nat

namespace LocalFile
variable {w : Word} (f : LocalFile w)

def fopen : Option (List UInt8) := if f.readable then f.content else none

/-- `ftell` at the end of a file. It fails where a `long` cannot hold the length. -/
def ftell (content : List UInt8) : SSizeT w :=
  if content.length < 2 ^ (8 * w.bytes - 1) then BitVec.ofNat _ content.length else -1

/-- What `loadFile` returns, and what it sets `buffer` to. -/
def loadFile : CInt × Option Mem :=
  match f.fopen with
  | none => (-1, none)
  | some content =>
    let size : SizeT w := ftell content
    match f.malloc size with
    | none => (-1, none)
    -- how much was read is compared with `size` for a message only
    | some buffer => (size.setWidth 32, some (buffer.write 0 (content.take (min f.fread size.toNat))))

/-- What `sendElfBinaryFromRom` passes to `sendElfBinaryFromMemory`. `null` is what lies where `data` points if it is
    still `NULL`. -/
def binary (null : Mem) (remoteFilename : CString) : Binary :=
  let size : SizeT w := f.loadFile.1.signExtend _
  ⟨remoteFilename, (f.loadFile.2.getD null).read 0 size.toNat⟩

end LocalFile

/-- The call of `sendElfBinaryFromRom`. -/
def RemoteDom0Instance.sendElfBinaryFromRom {w : Word} (isDisabled : Bool) (f : LocalFile w) (null : Mem)
    (remoteFilename : CString) (errno : NetErrno) : RemoteDom0Instance w :=
  .start isDisabled [f.binary null remoteFilename] errno

/-! ## executeLuaString -/

inductive LuaInstance.Pc (w : Word)
  | sendSize (t : Transfer w)
  | sendString (t : Transfer w)
  | waitAnswer (t : Transfer w)

/-- An `executeLuaString` in progress, with its local `result`. -/
structure LuaInstance.Executing (w : Word) where
  pc : LuaInstance.Pc w
  string : CString
  result : Mem

/-- A `RemoteDom0Instance` that calls `executeLuaString`: the call in progress, the commands still to come, what the
    calls before returned, and `errno`. -/
structure LuaInstance (w : Word) where
  executing : Option (LuaInstance.Executing w)
  strings : List CString
  results : List CInt
  errno : NetErrno

namespace LuaInstance
variable {w : Word} (o : ByteOrder)

/-- `strlen(string) + 1`, as the `int32_t` that it is passed as. -/
def size (s : CString) : CInt := BitVec.ofNat 32 (s.strlen + 1)

def next (s : LuaInstance w) : LuaInstance w :=
  match s.strings with
  | [] => { s with executing := none }
  | c :: rest => { s with executing := some ⟨.sendSize .int32, c, fun _ => 0⟩, strings := rest }

def ret (s : LuaInstance w) (result : CInt) : LuaInstance w := next { s with results := s.results ++ [result] }

def start (isDisabled : Bool) (strings : List CString) (errno : NetErrno) : LuaInstance w :=
  if isDisabled then ⟨none, [], strings.map fun _ => 0, errno⟩ else next ⟨none, strings, [], errno⟩

def call (s : LuaInstance w) : Syscall Unit UInt8 Empty :=
  match s.executing with
  | none => .exit
  | some ⟨.sendSize t, c, _⟩ => .write (t.window (o.bytes (size c)))
  | some ⟨.sendString t, c, _⟩ => .write (t.window c.c_str)
  | some ⟨.waitAnswer t, _, _⟩ => .read () t.position.toNat t.left

/-- A failed call leaves its error number in `errno`. -/
def setErrno {α : Type} (s : LuaInstance w) : Except NetErrno α → LuaInstance w
  | .error e => { s with errno := e }
  | .ok _ => s

/-- `if (x < 1) return -errno;`, and otherwise the call goes on. -/
def check (s : LuaInstance w) (x : SSizeT w) (go : LuaInstance w) : LuaInstance w :=
  if x.toInt < 1 then s.ret (-s.errno.1) else go

def onRead (s : LuaInstance w) (res : Except NetErrno (List UInt8)) : LuaInstance w :=
  match s.executing with
  | some ⟨.waitAnswer t, c, result⟩ =>
    let result := t.store result res
    match t.next (res.map List.length) with
    | .again t => { s with executing := some ⟨.waitAnswer t, c, result⟩ }
    | .returned x =>
      let s := s.setErrno res
      s.check x (s.ret (o.int32 (result.read 0 4)))
  | _ => s

def onWrite (s : LuaInstance w) (res : Except NetErrno Nat) : LuaInstance w :=
  match s.executing with
  | some ⟨.sendSize t, c, result⟩ =>
    match t.next res with
    | .again t => { s with executing := some ⟨.sendSize t, c, result⟩ }
    | .returned x =>
      let s := s.setErrno res
      s.check x { s with executing := some ⟨.sendString (.start ((size c).signExtend _)), c, result⟩ }
  | some ⟨.sendString t, c, result⟩ =>
    match t.next res with
    | .again t => { s with executing := some ⟨.sendString t, c, result⟩ }
    | .returned x =>
      let s := s.setErrno res
      s.check x { s with executing := some ⟨.waitAnswer .int32, c, result⟩ }
  | _ => s

def program : Program (LuaInstance w) Unit UInt8 Empty NetErrno := ⟨call o, onRead o, onWrite, fun s _ => s⟩

end LuaInstance

end Dom0
