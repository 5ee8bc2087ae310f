import Dom0.Lib.Hub
import Dom0.Ned.Lua
import Dom0.Net.Dom0Server
import Dom0.Net.RemoteDom0Instance

/-! # Connections for commands

`serverCombined` of `dom0_server.cc` starts a thread with `luaConnectionHandler` for each connection that it accepts.
All of them hand their commands to one Ned, with the `luaIpc` that they share; its server thread takes one message after
the other. -/

namespace Dom0

/-- What `luaIpc->executeString(buffer)` does and returns. The registers of both threads hold what is left from before.
    The other calls of a handler do not concern Ned. -/
def NedServer.Serves {ℓ : Type} (E : Ipc .w32) (P : Lua ℓ) (s : NedServer ℓ) (op : ServerOp) (a : Int)
    (s' : NedServer ℓ) : Prop :=
  match op with
  | .executeString cmd => ∃ caller server : Mem, ∃ ok : Bool,
    LuaIpcClient.executeString E P s caller server (CString.ofMem cmd 0 (2 ^ (8 * Word.w32.bytes))) = (s', ok) ∧
      a = if ok then 1 else 0
  | .open _ _ | .write _ _ | .close _ | .malloc _ => s' = s

/-- The connections, each with its client, its handler and what is on its way, and Ned. -/
abbrev LuaConnections (ι : Type) (w : Word) (ℓ : Type) :=
  Hub ι (LuaInstance w) (LuaHandler .w32) Unit (NedServer ℓ) UInt8 ServerOp

namespace LuaConnections
variable {ι ℓ : Type} {w : Word}

/-- The clients of the connections call `executeLuaString` for their commands; each handler has just been started, with
    its socket and what its stack holds. -/
def start (o : ByteOrder) (cs : ι → List CString) (errno : ι → NetErrno) (fd : ι → CInt) (buffer : ι → Mem)
    (ned : NedServer ℓ) :
    LuaConnections ι w ℓ where
  left i := LuaInstance.start false (cs i) (errno i)
  leftWorld _ := ()
  right i := LuaHandler.start o (fd i) (buffer i)
  toLeft _ := []
  toRight _ := []
  world := ned
  history := []

end LuaConnections

end Dom0
