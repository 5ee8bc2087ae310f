import Dom0.Net.TcpSocket
import Mathlib.Logic.Function.Basic

/-! # Client sockets and their descriptors

`tcp_client_socket.cc`, and `connect`, `disconnect` and the destructor of `RemoteDom0Instance`, in a process whose
descriptors other code uses as well. A method of `RemoteDom0Instance` calls its two sockets one after the other, and
anything may happen between the two calls. -/

namespace Dom0

/-- A `TcpClientSocket`: its port as a 16-bit number, and the members that it has from `TcpSocket`. -/
structure TcpClientSocket where
  port : BitVec 16
  connected : Bool
  targetSocket : CInt

namespace TcpClientSocket

/-- The constructor leaves `targetSocket` as it finds it. -/
def new (port targetSocket : CInt) : TcpClientSocket := ⟨port.setWidth 16, false, targetSocket⟩

def isDisabled (s : TcpClientSocket) : Bool := s.port = 0

/-- `TcpClientSocket::connect`, where `socket()` gives `fd` and `::connect` succeeds or fails. -/
def connect (s : TcpClientSocket) (fd : CInt) (res : Except NetErrno Unit) : TcpClientSocket × CInt :=
  if s.isDisabled then (s, 1)
  else
    match res with
    | .ok () => ({ s with targetSocket := fd, connected := true }, 1)
    | .error e => ({ s with targetSocket := fd }, -e.1)

def disconnect (s : TcpClientSocket) : TcpClientSocket × CInt :=
  if s.isDisabled then (s, 1) else ({ s with connected := false }, 1)

section
variable {s : TcpClientSocket} {fd : CInt} {res : Except NetErrno Unit}

@[simp]
theorem connect_of_isDisabled (h : s.isDisabled = true) : s.connect fd res = (s, 1) := if_pos h

@[simp]
theorem disconnect_of_isDisabled (h : s.isDisabled = true) : s.disconnect = (s, 1) := if_pos h

@[simp]
theorem connect_isDisabled : (s.connect fd res).1.isDisabled = s.isDisabled := by
  unfold connect
  split
  · rfl
  · cases res <;> rfl

@[simp]
theorem disconnect_isDisabled : s.disconnect.1.isDisabled = s.isDisabled := by
  unfold disconnect
  split <;> rfl

theorem connect_targetSocket (h : s.isDisabled = false) : (s.connect fd res).1.targetSocket = fd := by
  unfold connect
  rw [if_neg (by simp [h])]
  cases res <;> rfl

end

end TcpClientSocket

/-- The two sockets of a `RemoteDom0Instance`. -/
inductive Member
  | lua
  | binary
deriving DecidableEq, Repr

/-- A call of one of them. -/
inductive SocketCall
  | connect (m : Member)
  | disconnect (m : Member)
deriving DecidableEq, Repr

/-- The sockets of a `RemoteDom0Instance`, with the calls that its method in progress is still to make and the `&` of
    what the calls before returned. -/
structure RemoteSockets where
  lua : TcpClientSocket
  binary : TcpClientSocket
  calls : List SocketCall
  result : CInt
  destroyed : Bool

namespace RemoteSockets

def get (o : RemoteSockets) : Member → TcpClientSocket
  | .lua => o.lua
  | .binary => o.binary

def set (o : RemoteSockets) (s : TcpClientSocket) : Member → RemoteSockets
  | .lua => { o with lua := s }
  | .binary => { o with binary := s }

def new (lua binary : TcpClientSocket) : RemoteSockets := ⟨lua, binary, [], 1, false⟩

/-- `RemoteDom0Instance::connect`, with what `socket()` and `::connect` give to each of the two sockets. -/
def connect (o : RemoteSockets) (luaFd binaryFd : CInt) (luaRes binaryRes : Except NetErrno Unit) : CInt :=
  (o.lua.connect luaFd luaRes).2 &&& (o.binary.connect binaryFd binaryRes).2

/-- `remoteServerLuaSocket.connect() & remoteServerBinarySocket.connect()`, in either order. -/
def connectCalls : Bool → List SocketCall
  | true => [.connect .lua, .connect .binary]
  | false => [.connect .binary, .connect .lua]

/-- `remoteServerBinarySocket.disconnect() & remoteServerBinarySocket.disconnect()`. -/
def disconnectCalls : List SocketCall := [.disconnect .binary, .disconnect .binary]

/-- The destructors of the members. -/
def destroyCalls : List SocketCall := [.disconnect .binary, .disconnect .lua]

/-- A method begins, where none is in progress and the object is still there. -/
def begin (o : RemoteSockets) (calls : List SocketCall) (destroyed : Bool) : Option RemoteSockets :=
  if o.calls = [] ∧ o.destroyed = false then some { o with calls, result := -1, destroyed } else none

end RemoteSockets

/-- A socket of an object. -/
abbrev SocketId := Nat × Member

/-- A process. Every descriptor that is opened gets a number of its own, so that one that is closed and opened again
    can be told apart; what the sockets made and what they closed is noted. -/
structure Process where
  table : CInt → Option Nat
  next : Nat
  objects : Nat → Option RemoteSockets
  made : List (SocketId × Nat)
  closes : List (SocketId × Option Nat)

inductive ProcessAction
  | create (id : Nat) (luaPort binaryPort luaSocket binarySocket : CInt)
  | connect (id : Nat) (luaFirst : Bool)
  | disconnect (id : Nat)
  | destroy (id : Nat)
  | call (id : Nat) (fd : CInt) (res : Except NetErrno Unit)
  | otherOpen (fd : CInt)
  | otherClose (fd : CInt)

namespace Process

/-- Nothing was done yet; `table` has the descriptors that are open. -/
def start (table : CInt → Option Nat) (next : Nat) : Process := ⟨table, next, fun _ => none, [], []⟩

def setObject (s : Process) (id : Nat) (o : RemoteSockets) : Process :=
  { s with objects := Function.update s.objects id (some o) }

/-- A descriptor is opened where there is none. -/
def opened (s : Process) (fd : CInt) : Process :=
  { s with table := Function.update s.table fd (some s.next), next := s.next + 1 }

/-- `close(fd)`. -/
def closed (s : Process) (fd : CInt) : Process := { s with table := Function.update s.table fd none }

/-- `socket()` gives an unused descriptor, or fails with `-1`. -/
def socket (s : Process) (m : SocketId) (fd : CInt) : Option Process :=
  if fd = -1 then some s
  else if 0 ≤ fd.toInt ∧ s.table fd = none then some { s.opened fd with made := s.made ++ [(m, s.next)] }
  else none

def begin (s : Process) (id : Nat) (calls : List SocketCall) (destroyed : Bool) : Option Process :=
  (s.objects id).bind fun o => (o.begin calls destroyed).map (s.setObject id)

/-- A call of a socket of object `id`, of which `rest` are then still to come. -/
def call (s : Process) (id : Nat) (o : RemoteSockets) (rest : List SocketCall) (fd : CInt)
    (res : Except NetErrno Unit) :
    SocketCall → Option Process
  | .connect m =>
    let r := (o.get m).connect fd res
    (if (o.get m).isDisabled then some s else s.socket (id, m) fd).map
      (·.setObject id { o.set r.1 m with calls := rest, result := o.result &&& r.2 })
  | .disconnect m =>
    let r := (o.get m).disconnect
    let fd := (o.get m).targetSocket
    let s := if (o.get m).isDisabled then s else { s.closed fd with closes := s.closes ++ [((id, m), s.table fd)] }
    some (s.setObject id { o.set r.1 m with calls := rest, result := o.result &&& r.2 })

def step (s : Process) : ProcessAction → Option Process
  | .create id luaPort binaryPort luaSocket binarySocket =>
    if s.objects id = none then some (s.setObject id (.new (.new luaPort luaSocket) (.new binaryPort binarySocket)))
    else none
  | .connect id luaFirst => s.begin id (RemoteSockets.connectCalls luaFirst) false
  | .disconnect id => s.begin id RemoteSockets.disconnectCalls false
  | .destroy id => s.begin id RemoteSockets.destroyCalls true
  | .call id fd res =>
    match s.objects id with
    | some o =>
      match o.calls with
      | c :: rest => s.call id o rest fd res c
      | [] => none
    | none => none
  | .otherOpen fd => if 0 ≤ fd.toInt ∧ s.table fd = none then some (s.opened fd) else none
  | .otherClose fd =>
    -- Other code closes only what it opened itself.
    match s.table fd with
    | some k => if k ∉ s.made.map Prod.snd then some (s.closed fd) else none
    | none => none

end Process

end Dom0
