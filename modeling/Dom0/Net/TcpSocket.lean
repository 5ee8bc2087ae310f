import Dom0.Ipc
import Dom0.Lib.Program

/-! # TCP sockets

`tcp_socket.cc`: the loops that receive and send a whole block over a connection, whose `read` and `write` may
move less than was asked for, and the numbers that go over it in the byte order of the machine. -/

namespace Dom0

/-- How a machine lays out an `int32_t`. -/
inductive ByteOrder
  | little
  | big
deriving DecidableEq, Repr

/-- The bytes of an `int32_t` in memory. -/
def ByteOrder.bytes (o : ByteOrder) (v : CInt) : List UInt8 :=
  match o with
  | .little => Bytes.le 4 v.toNat
  | .big => (Bytes.le 4 v.toNat).reverse

/-- The `int32_t` that bytes in memory make up. -/
def ByteOrder.int32 (o : ByteOrder) (bs : List UInt8) : CInt :=
  BitVec.ofNat 32 (Bytes.toNat (match o with | .little => bs | .big => bs.reverse))

@[simp] theorem ByteOrder.length_bytes {o : ByteOrder} {v : CInt} : (o.bytes v).length = 4 := by
  cases o <;> simp [bytes]

theorem ByteOrder.int32_bytes (o : ByteOrder) (v : CInt) : o.int32 (o.bytes v) = v := by
  have hv : Bytes.toNat (Bytes.le 4 v.toNat) = v.toNat := by
    rw [Bytes.toNat_le]
    exact Nat.mod_eq_of_lt v.isLt
  cases o <;> simp [bytes, int32, hv]

/-- An error number, which is never negative. -/
abbrev NetErrno := { e : CInt // 0 ≤ e.toInt }

/-- The locals of `receiveData` and `sendData`: the size of the block, and how much of it is done. -/
structure Transfer (w : Word) where
  size : SizeT w
  position : SSizeT w

/-- After one `read` or `write`: the loop goes on, or the function returns. -/
inductive Transfer.Next (w : Word)
  | again (t : Transfer w)
  | returned (result : SSizeT w)

section
variable {w : Word}

/-- A transfer at its start. `receiveInt32_t` and `sendInt32_t` have `size = sizeof(int32_t)`. -/
def Transfer.start (size : SizeT w) : Transfer w := ⟨size, 0⟩

def Transfer.int32 : Transfer w := .start 4

/-- `size - position`, which the next `read` or `write` asks for. -/
def Transfer.left (t : Transfer w) : Nat := (t.size - t.position).toNat

/-- The loop body after `read` or `write`: an error returns `-errno`. -/
def Transfer.next (t : Transfer w) : Except NetErrno Nat → Transfer.Next w
  | .error e => .returned ((-e.1).signExtend _)
  | .ok result =>
    let position := t.position + BitVec.ofNat _ result
    if position.toNat < t.size.toNat then .again { t with position } else .returned position

/-- What `read` stores: at `data + position`. -/
def Transfer.store (t : Transfer w) (data : Mem) : Except NetErrno (List UInt8) → Mem
  | .error _ => data
  | .ok bs => data.write t.position.toNat bs

/-- What `write` is given: `size - position` bytes from `data + position`. -/
def Transfer.window (t : Transfer w) (data : List UInt8) : List UInt8 := (data.drop t.position.toNat).take t.left

/-- `NETCHECK_LOOP(x)`, which leaves the loop where `x < 1`. -/
def netcheckLoop {α : Type} (x : SSizeT w) (go stop : α) : α := if x.toInt < 1 then stop else go

end

/-! ## Whole calls

`receiveData` and `sendData` from their first `read` or `write` to their return. -/

/-- What one `read` or `write` returns: -1, where it sets `errno`, 0, or a count. -/
inductive SocketResult
  | failed (errno : NetErrno)
  | nothing
  | count (n : Nat)

/-- The result is -1 or 0. -/
def SocketResult.Fails : SocketResult → Prop
  | .failed _ | .nothing => True
  | .count _ => False

/-- The result is one that a call for `left` bytes can have. -/
def SocketResult.Possible (left : Nat) : SocketResult → Prop
  | .failed _ | .nothing => True
  | .count n => 1 ≤ n ∧ n ≤ left

instance (left : Nat) : ∀ r : SocketResult, Decidable (r.Possible left)
  | .failed _ | .nothing => instDecidableTrue
  | .count _ => instDecidableAnd

/-- What the loop goes by: the count, or `errno`, which a result of 0 leaves as it is. -/
def SocketResult.toExcept (errno : NetErrno) : SocketResult → Except NetErrno Nat
  | .failed e => .error e
  | .nothing => .error errno
  | .count n => .ok n

/-- A call of `receiveData` or `sendData`: its locals, `errno`, what it has moved, where in its block each `read` or
    `write` began and for how many bytes it asked, and what it returned, once it did. -/
structure BlockCall (w : Word) (α : Type) where
  transfer : Transfer w
  errno : NetErrno
  moved : α
  windows : List (Nat × Nat)
  ret : Option (SSizeT w)

namespace BlockCall
variable {w : Word} {α : Type}

def start (size : SizeT w) (errno : NetErrno) (moved : α) : BlockCall w α := ⟨.start size, errno, moved, [], none⟩

/-- One round of the loop, where `move` is what a `read` or `write` of so many bytes does. -/
def step (move : Transfer w → α → Nat → α) (s : BlockCall w α) (r : SocketResult) : Option (BlockCall w α) :=
  if s.ret = none ∧ r.Possible s.transfer.left then
    let res := r.toExcept s.errno
    let s' : BlockCall w α :=
      { s with
        windows := s.windows ++ [(s.transfer.position.toNat, s.transfer.left)]
        errno := match res with
          | .ok _ => s.errno
          | .error e => e
        moved := match res with
          | .ok n => move s.transfer s.moved n
          | .error _ => s.moved }
    match s.transfer.next res with
    | .again transfer => some { s' with transfer }
    | .returned x => some { s' with ret := some x }
  else none

end BlockCall

/-- The block that `receiveData` fills, and how much of the stream it has consumed. -/
structure ReceivedBlock where
  data : Mem
  consumed : Nat

section
variable {w : Word}

/-- A `read` of `n` bytes at `data + position`, on a connection over which `stream` arrives. -/
def receiveData.move (stream : Mem) (t : Transfer w) (b : ReceivedBlock) (n : Nat) : ReceivedBlock :=
  ⟨t.store b.data (.ok (stream.read b.consumed n)), b.consumed + n⟩

/-- A `write` of `n` bytes at `data + position`, after what has been put on the connection. -/
def sendData.move (data : Mem) (t : Transfer w) (sent : List UInt8) (n : Nat) : List UInt8 :=
  sent ++ data.read t.position.toNat n

def sendData (data : Mem) : BlockCall w (List UInt8) → SocketResult → Option (BlockCall w (List UInt8)) :=
  BlockCall.step (sendData.move data)

end

end Dom0
