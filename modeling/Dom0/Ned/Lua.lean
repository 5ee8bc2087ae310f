import Dom0.Ipc

/-! # Commands for Lua

`Ned_server::dispatch` of `dom0-ned/server/src/lua.cc`, which takes a command over IPC and runs it, and
`LuaIpcClient`, which sends one. Lua itself and the console are not part of the repository; whatever they do may
call the kernel, so they act on the message registers of their thread as well. -/

namespace Dom0
open Marshal

/-- `Protocol::LuaDom0`. -/
def luaDom0 : Int := 0

/-- `Opcode::executeLuaLine`. -/
def executeLuaLine : CInt := 0

/-- `sizeof(buffer)`. -/
def sizeofBuffer : Nat := 256

/-- The messages that `dispatch` prints. -/
inductive NedText
  | incomplete
  | received (command : CString)
  | notParsed (command : CString) (error : List UInt8)
  | notExecuted (command : CString) (error : List UInt8)

/-- The calls of the Lua library on a state `ℓ`, and `printf`. -/
structure Lua (ℓ : Type) where
  loadbuffer : ℓ → Mem → List UInt8 → ℓ × Mem × CInt
  pcall : ℓ → Mem → ℓ × Mem × CInt
  gettop : ℓ → Nat
  pop : ℓ → Nat → ℓ
  string : ℓ → List UInt8
  printf : NedText → Mem → Mem

/-- A call that loads or runs something, with what it was given and what it returned. -/
inductive Lua.Call
  | loadbuffer (chunk : List UInt8) (result : CInt)
  | pcall (result : CInt)

/-- `L`, with the calls so far that loaded or ran something in it. -/
structure Lua.State (ℓ : Type) where
  lua : ℓ
  calls : List Lua.Call

section
variable {w : Word} {ℓ : Type}

/-- `luaL_loadbuffer(L, chunk, ...)`. -/
def Lua.load (P : Lua ℓ) (L : Lua.State ℓ) (regs : Mem) (chunk : List UInt8) : Lua.State ℓ × Mem × CInt :=
  let r := P.loadbuffer L.lua regs chunk
  (⟨r.1, L.calls ++ [.loadbuffer chunk r.2.2]⟩, r.2)

/-- `lua_pcall(L, 0, 1, 0)`. -/
def Lua.execute (P : Lua ℓ) (L : Lua.State ℓ) (regs : Mem) : Lua.State ℓ × Mem × CInt :=
  let r := P.pcall L.lua regs
  (⟨r.1, L.calls ++ [.pcall r.2.2]⟩, r.2)

/-- What `dispatch` does with a complete command, once it has written its answer. -/
def Lua.run (P : Lua ℓ) (L : Lua.State ℓ) (regs : Mem) (command : CString) : Lua.State ℓ × Mem :=
  let load := P.load L (P.printf (.received command) regs) command.bytes
  if load.2.2 ≠ 0 then
    ({ load.1 with lua := P.pop load.1.lua 1 }, P.printf (.notParsed command (P.string load.1.lua)) load.2.1)
  else
    let call := P.execute load.1 load.2.1
    if call.2.2 ≠ 0 then
      ({ call.1 with lua := P.pop call.1.lua 1 }, P.printf (.notExecuted command (P.string call.1.lua)) call.2.1)
    else ({ call.1 with lua := P.pop call.1.lua (P.gettop call.1.lua) }, call.2.1)

/-- A `Ned_server`, with the state `L` that it uses. -/
structure NedServer (ℓ : Type) where
  buffer : Mem
  L : Lua.State ℓ

/-- What `dispatch` leaves: the value that it wrote with `ios <<`, the message registers behind `ios`, and what it
    returned. -/
structure Served (ℓ : Type) where
  server : NedServer ℓ
  answer : Option CInt
  out : Out
  ret : CInt

namespace NedServer

/-- The buffer starts with zeros; behind it lies what the stack holds. -/
def start (lua : ℓ) (stack : Mem) : NedServer ℓ := ⟨fun i => if i < sizeofBuffer then 0 else stack i, ⟨lua, []⟩⟩

/-- What is copied into the buffer. The length in front of it is read as one byte and not used. -/
def received (E : Ipc w) (ios : In) : List UInt8 :=
  ((readScalar 1 ios).2.getBuf E.bufCpIn w.bytes 1 sizeofBuffer).1

/-- `Ned_server::dispatch`. -/
def dispatch (E : Ipc w) (P : Lua ℓ) (s : NedServer ℓ) (label : Int) (ios : In) : Served ℓ :=
  if label ≠ luaDom0 then ⟨s, none, ⟨ios.mem, 0⟩, -l4Ebadproto⟩
  else
    let opcode := readInt ios
    if opcode.1 = executeLuaLine then
      let copied := received E opcode.2
      let buffer := s.buffer.write 0 copied
      let string := CString.ofMem buffer 0 (2 ^ (8 * w.bytes))
      if string.strlen + 1 ≠ copied.length then
        ⟨{ s with buffer }, some luaError, (Out.mk (P.printf .incomplete ios.mem) 0).put w.registers (int luaError), 0⟩
      else
        let out := (Out.mk ios.mem 0).put w.registers (int luaOk)
        let run := P.run s.L out.mem string
        ⟨⟨buffer, run.1⟩, some luaOk, { out with mem := run.2 }, 0⟩
    else ⟨s, none, ⟨ios.mem, 0⟩, -l4Enosys⟩

end NedServer

/-- A message on its way to the server. -/
structure NedMessage (w : Word) where
  label : Int
  regs : Mem
  words : Nat
  fits : words ≤ l4UtcbGenericDataSize

def NedMessage.ios (m : NedMessage w) : In := ⟨m.regs, m.words * w.bytes, 0⟩

/-- The server after the messages of any senders. -/
def NedServer.serve (E : Ipc w) (P : Lua ℓ) (s : NedServer ℓ) (ms : List (NedMessage w)) : NedServer ℓ :=
  ms.foldl (fun s m => (s.dispatch E P m.label m.ios).server) s

namespace LuaIpcClient

/-- `s << L4::Opcode(Opcode::executeLuaLine) << length << cmd`. -/
def request (w : Word) (cmd : CString) (length : SizeT w) : List Field :=
  [int executeLuaLine, sizeT w length] ++ str w cmd

/-- The answer as it arrives. -/
def reply (w : Word) (r : Served ℓ) (own : Mem) : In :=
  ⟨transfer (align w.bytes r.out.pos) r.out.mem own, align w.bytes r.out.pos, 0⟩

/-- `LuaIpcClient::executeString(cmd, length)`. -/
def executeLength (E : Ipc w) (P : Lua ℓ) (s : NedServer ℓ) (caller server : Mem) (cmd : CString) (length : SizeT w) :
    NedServer ℓ × Bool :=
  let r := s.dispatch E P luaDom0 (deliver w (request w cmd length) caller server)
  (r.server, if r.ret ≠ 0 then false else decide ((readInt (reply w r caller)).1 = luaOk))

/-- `LuaIpcClient::executeString(cmd)`. -/
def executeString (E : Ipc w) (P : Lua ℓ) (s : NedServer ℓ) (caller server : Mem) (cmd : CString) :
    NedServer ℓ × Bool :=
  executeLength E P s caller server cmd (BitVec.ofNat _ (cmd.strlen + 1))

end LuaIpcClient

end

end Dom0
