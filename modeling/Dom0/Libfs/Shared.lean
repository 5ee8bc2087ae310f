import Dom0.Libfs.Backend
import Mathlib.Logic.Function.Basic

/-! # Calls step by step

The calls of several clients on files of one server, taken apart at the points at which another client can
come between: the copy into the shared buffer, the request, its handling by the server, the reply, and the
copy out of the shared buffer. -/

namespace Dom0
open Marshal

/-- A buffer of a caller: its length is a `size_t`. -/
abbrev Entry (w : Word) := { bs : List UInt8 // bs.length < 2 ^ (8 * w.bytes) }

/-- `iov_len`. -/
def Entry.len {w : Word} (e : Entry w) : SizeT w := BitVec.ofNat _ e.1.length

/-- `L4fs_file::preadv` in a round of its loop: the buffers that are done, the entry of the round, the entries
    behind it, and the locals `p` and `read_bytes`. -/
structure Reading (w : Word) where
  fh : CInt
  filled : List (List UInt8)
  buf : Entry w
  rest : List (Entry w)
  p : Off64T
  readBytes : SSizeT w

/-- `L4fs_file::pwritev` in a round of its loop. -/
structure Writing (w : Word) where
  fh : CInt
  buf : Entry w
  rest : List (Entry w)
  p : Off64T
  writtenBytes : SSizeT w

/-- A call in progress. -/
inductive Job (w : Word)
  | read (r : Reading w)
  | write (x : Writing w)
  | rename («from» dst : CString)

/-- Where a client is in its call: `enter` before the copy into the shared buffer, `ready` before the call of
    the stub, `sent` with a request in flight, `answered` with a reply in flight, `arrived` before the copy out
    of the shared buffer. The last two keep the bytes that the server has read for the request. -/
inductive Phase (w : Word)
  | returned (ret : Int) (bufs : List (List UInt8))
  | enter (j : Job w)
  | ready (j : Job w)
  | sent (j : Job w)
  | answered (j : Job w) (a : Answer) (served : List UInt8)
  | arrived (r : Reading w) (len : SizeT w) (served : List UInt8)

section
variable {w : Word} {E : Ipc w} {σ : Type}

/-- The head of the loop in `preadv`. -/
def Phase.preadv (fh : CInt) (filled : List (List UInt8)) (iov : List (Entry w)) (p : Off64T) (readBytes : SSizeT w) :
    Phase w :=
  match iov with
  | [] => .returned readBytes.toInt filled
  | buf :: rest => .ready (.read ⟨fh, filled, buf, rest, p, readBytes⟩)

/-- The head of the loop in `pwritev`. -/
def Phase.pwritev (fh : CInt) (iov : List (Entry w)) (p : Off64T) (writtenBytes : SSizeT w) : Phase w :=
  match iov with
  | [] => .returned writtenBytes.toInt []
  | buf :: rest => .enter (.write ⟨fh, buf, rest, p, writtenBytes⟩)

/-- `len` bytes were read: the next round. -/
def Reading.next (r : Reading w) (buf : List UInt8) (len : SizeT w) : Phase w :=
  Phase.preadv r.fh (r.filled ++ [buf]) r.rest (r.p + len.setWidth 64) (r.readBytes + len)

/-- `len` bytes were written: the next round, if these were all. -/
def Writing.next (x : Writing w) (len : SizeT w) : Phase w :=
  if len ≠ x.buf.len then .returned (x.writtenBytes + len).toInt []
  else Phase.pwritev x.fh x.rest (x.p + len.setWidth 64) (x.writtenBytes + len)

/-- The message that the stub sends. -/
def Job.request : Job w → List Field
  | .read r => L4fs.transferRequest w .pread r.fh r.buf.len r.p
  | .write x => L4fs.transferRequest w .pwrite x.fh x.buf.len x.p
  | .rename «from» _ => L4fs.nameRequest w .rename «from»

/-- The stub refuses its arguments: what the call then returns. -/
def Job.refused : Job w → Option (Phase w)
  | .read r =>
    if L4fs.tooBig r.buf.len then
      some (.returned (-l4Enomem).toInt (r.filled ++ r.buf.1 :: r.rest.map Subtype.val))
    else none
  | .write x => if L4fs.tooBig x.buf.len then some (.returned (-l4Enomem).toInt []) else none
  | .rename «from» _ => if L4fs.tooLong w «from» then some (.returned (-l4Enametoolong).toInt []) else none

/-- The reply has arrived. -/
def Phase.arrive (j : Job w) (a : Answer) (served : List UInt8) : Phase w :=
  let err := L4fs.l4Error a
  let len := (readSizeT w a.ios).1
  match j with
  | .read r =>
    if err.toInt < 0 then .returned err.toInt (r.filled ++ r.buf.1 :: r.rest.map Subtype.val)
    else if err = 0 ∧ len ≠ 0 then .arrived r len served
    else r.next r.buf.1 len
  | .write x => if err.toInt < 0 then .returned err.toInt [] else x.next len
  | .rename _ _ => .returned err.toInt []

/-- The server and all its clients, each in a call of its own. -/
structure Shared {w : Word} (E : Ipc w) (σ : Type) where
  world : World E (Server σ)
  phase : Nat → Phase w

/-- No client is in a call. -/
def Shared.start (W : World E (Server σ)) : Shared E σ := ⟨W, fun _ => .returned 0 []⟩

/-- What happens next: client `c` begins a call, or its call goes on. -/
inductive Action (w : Word)
  | preadv (c : Nat) (fh : CInt) (iov : List (Entry w)) (p : Off64T)
  | pwritev (c : Nat) (fh : CInt) (iov : List (Entry w)) (p : Off64T)
  | rename (c : Nat) («from» dst : CString)
  | go (c : Nat)

def Action.client : Action w → Nat
  | .preadv c _ _ _ | .pwritev c _ _ _ | .rename c _ _ | .go c => c

/-- Client `c` comes to a phase, and the rest of the world to a state. -/
def Shared.set (s : Shared E σ) (W : World E (Server σ)) (c : Nat) (ph : Phase w) : Shared E σ :=
  ⟨W, Function.update s.phase c ph⟩

/-- A call begins where none is in progress. -/
def Shared.begin (s : Shared E σ) (c : Nat) (ph : Phase w) : Option (Shared E σ) :=
  match s.phase c with
  | .returned _ _ => some (s.set s.world c ph)
  | _ => none

/-- The bytes that the server reads for a request. -/
def Job.served (B : Backing E σ) (fs : σ) : Job w → List UInt8
  | .read r =>
    match B.pread64 fs r.fh r.buf.len.toNat r.p with
    | .ok bs => bs
    | .error _ => []
  | _ => []

/-- One step, on a server with the backing file system `B`. -/
def Shared.step (B : Backing E σ) (d : σ → CInt → σ × CInt × Bool) (s : Shared E σ) : Action w → Option (Shared E σ)
  | .preadv c fh iov p => s.begin c (Phase.preadv fh [] iov p 0)
  | .pwritev c fh iov p => s.begin c (Phase.pwritev fh iov p 0)
  | .rename c «from» dst =>
    s.begin c (if L4fs.tooLong w dst then .returned (-l4Enametoolong).toInt [] else .enter (.rename «from» dst))
  | .go c =>
    match s.phase c with
    | .returned _ _ => none
    | .enter (.write x) => some (s.set (s.world.copyIn x.buf.1) c (.ready (.write x)))
    | .enter (.rename «from» dst) => some (s.set (s.world.copyIn dst.c_str) c (.ready (.rename «from» dst)))
    | .enter (.read r) => some (s.set s.world c (.ready (.read r)))
    | .ready j => some (s.set s.world c (j.refused.getD (.sent j)))
    | .sent j =>
      let r := s.world.call (Server.handler B d) j.request
      some (s.set r.1 c (.answered j r.2 (j.served B s.world.fs)))
    | .answered j a served => some (s.set s.world c (Phase.arrive j a served))
    | .arrived r len _ =>
      let o := s.world.copyOut r.buf.1 len.toNat
      some (s.set o.1 c (r.next o.2 len))

/-- A run whose steps are all allowed. -/
inductive Shared.Run (B : Backing E σ) (d : σ → CInt → σ × CInt × Bool) (allows : Shared E σ → Action w → Prop) :
    Shared E σ → List (Action w) → Shared E σ → Prop
  | nil (s : Shared E σ) : Run B d allows s [] s
  | cons {s middle last : Shared E σ} {a : Action w} {actions : List (Action w)} (allowed : allows s a)
      (accepted : s.step B d a = some middle) (tail : Run B d allows middle actions last) :
      Run B d allows s (a :: actions) last

end

end Dom0
