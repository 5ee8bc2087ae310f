import Dom0.FsSrv.Server

/-! # A dataspace for a file

`Server::dataspace`, which copies a file into a new dataspace. Its loop need not end, so it is a state that goes from
one `pread64` to the next. -/

namespace Dom0

/-- One call `dataspace(fh, ds)`: the content of the file, if `fh` is open; whether `fstat` succeeds, and what `buf`
    holds if it does not; the memory of the new dataspace, if it is allocated and attached, and what `addr` points to if
    it is not; and what `pread64` answers, call by call. -/
structure DataspaceCall where
  file : Option (List UInt8)
  fstat : Bool
  buf : CInt
  fresh : Option Mem
  addr : Mem
  pread64 : Nat → Except Errno Nat

/-- The local `read` of `dataspace`, the memory at `addr`, and the number of calls of `pread64`. -/
structure Copying (w : Word) where
  read : SizeT w
  memory : Mem
  calls : Nat

namespace DataspaceCall
variable {w : Word} (d : DataspaceCall)

/-- `int size = buf.st_size`. -/
def size : CInt :=
  match d.file with
  | some content => if d.fstat then BitVec.ofNat 32 content.length else d.buf
  | none => d.buf

/-- `size`, where it is compared with `read` or passed to `pread64`. -/
def sizeT (w : Word) : SizeT w := d.size.signExtend _

/-- `pread64(fh, addr + read, size, read)`. It gives no more than is asked for, and no more than the file has. -/
def pread (s : Copying w) : Except Errno (List UInt8) :=
  match d.file with
  | some content => (d.pread64 s.calls).map fun n => (content.drop s.read.toNat).take (min n (d.sizeT w).toNat)
  | none => .error 9

/-- `while (read < size)` with its body: an error is added as `-1`. -/
def step (s : Copying w) : Copying w :=
  if s.read.toNat < (d.sizeT w).toNat then
    match d.pread s with
    | .ok bs => ⟨s.read + BitVec.ofNat _ bs.length, s.memory.write s.read.toNat bs, s.calls + 1⟩
    | .error _ => ⟨s.read + Server.failed, s.memory, s.calls + 1⟩
  else s

def start : Copying w := ⟨0, d.fresh.getD d.addr, 0⟩

def run (d : DataspaceCall) : Nat → Copying w
  | 0 => d.start
  | n + 1 => d.step (run d n)

/-- The result, once the loop has ended. -/
def result (s : Copying w) : Option CInt := if s.read.toNat < (d.sizeT w).toNat then none else some 0

end DataspaceCall

end Dom0
