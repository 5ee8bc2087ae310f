import Dom0.Net.Dom0Server

/-! # One received binary

`receiveNetworkBinary` on its own, from its call to its return, with a block at `rwBuffer` and whatever the system
answers to its calls of `read` and `write`. It is told what becomes of every byte: where it was stored, and whether it
was passed on. -/

namespace Dom0

/-- What the system answers: the bytes that arrive, and the result of the `n`-th call, where that is a `read` or a
    `write`. A `read` that gives nothing leaves an error number, 0 included; the others give at least one byte, and no
    call gives or takes more than it was asked to. -/
structure Answers where
  stream : Nat → UInt8
  read : Nat → Except NetErrno Nat
  write : Nat → Option Nat

/-- `receiveNetworkBinary` at work: the calls so far; for the offsets of `rwBuffer` which byte of the stream was stored
    there last; how many bytes were received, and how many the file took; and whether each `write` was passed the bytes
    that were received behind those. -/
structure Reception (w : Word) where
  handler : BinaryHandler w
  calls : Nat
  origin : Nat → Option Nat
  received : Nat
  taken : Nat
  inOrder : Bool

namespace Reception
variable {w : Word}

/-- The call `receiveNetworkBinary(fd, size, targetSocket)`, where `malloc` gives it a block. -/
def start (h : BinaryHandler w) (size : SizeT w) : Reception w :=
  ⟨BinaryHandler.loop { h with size } size, 0, fun _ => none, 0, 0, true⟩

/-- `n` bytes from an offset of `rwBuffer` are those that were received behind the ones that the file took. -/
def PassesNext (s : Reception w) (offset n : Nat) : Prop := ∀ i < n, s.origin (offset + i) = some (s.taken + i)

instance (s : Reception w) (offset n : Nat) : Decidable (s.PassesNext offset n) :=
  inferInstanceAs (Decidable (∀ _ < _, _))

/-- The next call. -/
def step (o : ByteOrder) (A : Answers) (s : Reception w) : Reception w :=
  match s.handler.pc with
  | .receive _ t =>
    match A.read s.calls with
    | .error e => { s with handler := s.handler.onRead o (.error e), calls := s.calls + 1 }
    | .ok k =>
      let p := t.position.toNat
      let k := max 1 (min k t.left)
      { s with
        handler := s.handler.onRead o (.ok ((List.range k).map fun i => A.stream (s.received + i)))
        calls := s.calls + 1
        origin := fun i => if p ≤ i ∧ i < p + k then some (s.received + (i - p)) else s.origin i
        received := s.received + k }
  | .write _ received written =>
    let n := (received - written).toNat
    let inOrder := s.inOrder && decide (s.PassesNext written.toNat n)
    match A.write s.calls with
    | none => { s with handler := s.handler.onOp (-1), calls := s.calls + 1, inOrder }
    | some k =>
      { s with handler := s.handler.onOp (min k n : Nat), calls := s.calls + 1, taken := s.taken + min k n, inOrder }
  | _ => s

def run (o : ByteOrder) (A : Answers) (s : Reception w) : Nat → Reception w
  | 0 => s
  | n + 1 => (run o A s n).step o A

/-- The result, where it has returned. -/
def result (s : Reception w) : Option (SSizeT w) :=
  match s.handler.pc with
  | .receive _ _ | .write _ _ _ => none
  | _ => some s.handler.size

end Reception

end Dom0
