import Dom0.Libfs.Svr
import Dom0.Net.TcpSocket

/-! # The connection handlers

`dom0_server.cc`: `luaConnectionHandler`, `binaryConnectionHandler` and `receiveNetworkBinary`, as programs that
stop at each system call. Local memory holds whatever it held when the handler starts. -/

namespace Dom0

/-- `BUF_LEN`. -/
def bufLen : Nat := 1024

def oWronly : CInt := 0o1
def oCreat : CInt := 0o100
def oTrunc : CInt := 0o1000

/-- The objects that a `read` on the socket stores into. -/
inductive Target
  | message
  | buffer
  | rwBuffer
deriving DecidableEq, Repr

/-- The calls that do not concern the socket. A string is passed as the memory that it starts in. -/
inductive ServerOp
  | «open» (path : Mem) (flags : CInt)
  | write (fd : CInt) (bs : List UInt8)
  | executeString (cmd : Mem)
  | close (fd : CInt)
  | malloc (size : Nat)

/-- The string that a call is handed. -/
def ServerOp.string : ServerOp → Option Mem
  | .open path _ => some path
  | .executeString cmd => some cmd
  | .write _ _ | .close _ | .malloc _ => none

section
variable {w : Word} (o : ByteOrder)

/-- `message`, where it is passed as a `size_t`. -/
def messageSize (message : Mem) : SizeT w := (o.int32 (message.read 0 4)).signExtend _

/-! ## luaConnectionHandler -/

inductive LuaHandler.Pc (w : Word)
  | size (t : Transfer w)
  | string (t : Transfer w)
  | execute
  | answer (t : Transfer w)
  | close
  | returned

/-- The locals of `luaConnectionHandler`, and where it stands. -/
structure LuaHandler (w : Word) where
  pc : LuaHandler.Pc w
  fd : CInt
  message : Mem
  buffer : Mem

namespace LuaHandler

def start (fd : CInt) (buffer : Mem) : LuaHandler w := ⟨.size .int32, fd, Mem.write (fun _ => 0) 0 (o.bytes 0), buffer⟩

def call (s : LuaHandler w) : Syscall Target UInt8 ServerOp :=
  match s.pc with
  | .size t => .read .message t.position.toNat t.left
  | .string t => .read .buffer t.position.toNat t.left
  | .execute => .op (.executeString s.buffer)
  | .answer t => .write (t.window (s.message.read 0 4))
  | .close => .op (.close s.fd)
  | .returned => .exit

def onRead (s : LuaHandler w) (res : Except NetErrno (List UInt8)) : LuaHandler w :=
  match s.pc with
  | .size t =>
    let s := { s with message := t.store s.message res }
    match t.next (res.map List.length) with
    | .again t => { s with pc := .size t }
    | .returned x => { s with pc := netcheckLoop x (.string (.start (messageSize o s.message))) .close }
  | .string t =>
    let s := { s with buffer := t.store s.buffer res }
    match t.next (res.map List.length) with
    | .again t => { s with pc := .string t }
    | .returned x => { s with pc := netcheckLoop x .execute .close }
  | _ => s

def onWrite (s : LuaHandler w) (res : Except NetErrno Nat) : LuaHandler w :=
  match s.pc with
  | .answer t =>
    match t.next res with
    | .again t => { s with pc := .answer t }
    | .returned x => { s with pc := netcheckLoop x (.size .int32) .close }
  | _ => s

def onOp (s : LuaHandler w) (a : Int) : LuaHandler w :=
  match s.pc with
  | .execute =>
    { s with message := s.message.write 0 (o.bytes (if a ≠ 0 then luaOk else luaError)), pc := .answer .int32 }
  | .close => { s with pc := .returned }
  | _ => s

def program : Program (LuaHandler w) Target UInt8 ServerOp NetErrno := ⟨call, onRead o, onWrite, onOp o⟩

theorem call_of_pc {o : ByteOrder} {s : LuaHandler w} {pc : Pc w} (hpc : s.pc = pc) :
    (program o).call s = call { s with pc } := by
  subst hpc
  rfl

end LuaHandler

/-! ## binaryConnectionHandler -/

inductive BinaryHandler.Pc (w : Word)
  | nameSize (t : Transfer w)
  | name (t : Transfer w)
  | «open»
  | size (t : Transfer w)
  | go (t : Transfer w)
  | malloc
  | receive (leftToReceive : SizeT w) (t : Transfer w)
  | write (leftToReceive received written : SizeT w)
  | faulted
  | close
  | returned

/-- The locals of `binaryConnectionHandler` and of the `receiveNetworkBinary` that it calls (`size` and what the block
    at `rwBuffer` holds), and where it stands. -/
structure BinaryHandler (w : Word) where
  pc : BinaryHandler.Pc w
  fd : CInt
  message : Mem
  buffer : Mem
  file : CInt
  size : SizeT w
  rwBuffer : Mem

namespace BinaryHandler

def start (fd : CInt) (buffer : Mem) (file : CInt) (size : SizeT w) (rwBuffer : Mem) : BinaryHandler w :=
  ⟨.nameSize .int32, fd, Mem.write (fun _ => 0) 0 (o.bytes 1), buffer, file, size, rwBuffer⟩

def call (s : BinaryHandler w) : Syscall Target UInt8 ServerOp :=
  match s.pc with
  | .nameSize t => .read .message t.position.toNat t.left
  | .name t => .read .buffer t.position.toNat t.left
  | .open => .op (.open s.buffer (oWronly ||| oCreat))
  | .size t => .read .message t.position.toNat t.left
  | .go t => .write (t.window (o.bytes goSend))
  | .malloc => .op (.malloc maxRwBufferSize)
  | .receive _ t => .read .rwBuffer t.position.toNat t.left
  | .write _ received written => .op (.write s.file (s.rwBuffer.read written.toNat (received - written).toNat))
  | .close => .op (.close s.fd)
  | .faulted | .returned => .exit

/-- `while (leftToReceive > 0)` of `receiveNetworkBinary`, and what its result leads to. -/
def loop (s : BinaryHandler w) (leftToReceive : SizeT w) : BinaryHandler w :=
  if 0 < leftToReceive.toNat then
    let maxSize : SizeT w := BitVec.ofNat _ maxRwBufferSize
    let size := if maxSize.toNat < leftToReceive.toNat then maxSize else leftToReceive
    { s with pc := .receive leftToReceive (.start size) }
  else { s with pc := netcheckLoop s.size (.nameSize .int32) .close }

def onRead (s : BinaryHandler w) (res : Except NetErrno (List UInt8)) : BinaryHandler w :=
  match s.pc with
  | .nameSize t =>
    let s := { s with message := t.store s.message res }
    match t.next (res.map List.length) with
    | .again t => { s with pc := .nameSize t }
    | .returned x => { s with pc := netcheckLoop x (.name (.start (messageSize o s.message))) .close }
  | .name t =>
    let s := { s with buffer := t.store s.buffer res }
    match t.next (res.map List.length) with
    | .again t => { s with pc := .name t }
    | .returned x => { s with pc := netcheckLoop x .open .close }
  | .size t =>
    let s := { s with message := t.store s.message res }
    match t.next (res.map List.length) with
    | .again t => { s with pc := .size t }
    | .returned x => { s with pc := netcheckLoop x (.go .int32) .close }
  | .receive leftToReceive t =>
    let s := { s with rwBuffer := t.store s.rwBuffer res }
    match t.next (res.map List.length) with
    | .again t => { s with pc := .receive leftToReceive t }
    | .returned received =>
      -- An error is taken for a number of bytes here, as in the source.
      if 0 < received.toNat then { s with pc := .write (leftToReceive - received) received 0 }
      else s.loop (leftToReceive - received)
  | _ => s

def onWrite (s : BinaryHandler w) (res : Except NetErrno Nat) : BinaryHandler w :=
  match s.pc with
  | .go t =>
    match t.next res with
    | .again t => { s with pc := .go t }
    | .returned x => netcheckLoop x { s with size := messageSize o s.message, pc := .malloc } { s with pc := .close }
  | _ => s

def onOp (s : BinaryHandler w) (a : Int) : BinaryHandler w :=
  match s.pc with
  | .open => { s with file := BitVec.ofInt _ a, pc := .size .int32 }
  | .malloc =>
    -- The result is not looked at, nor is a block ever freed: without one, the first byte that is received is stored
    -- through a null pointer, which is where the model stops.
    if a = 0 ∧ 0 < s.size.toNat then { s with pc := .faulted } else s.loop s.size
  | .write leftToReceive received written =>
    let written := written + BitVec.ofInt _ a
    if written.toNat < received.toNat then { s with pc := .write leftToReceive received written }
    else s.loop leftToReceive
  | .close => { s with pc := .returned }
  | _ => s

def program : Program (BinaryHandler w) Target UInt8 ServerOp NetErrno := ⟨call o, onRead o, onWrite o, onOp⟩

theorem call_of_pc {o : ByteOrder} {s : BinaryHandler w} {pc : Pc w} (hpc : s.pc = pc) :
    (program o).call s = call o { s with pc } := by
  subst hpc
  rfl

end BinaryHandler

end

end Dom0
