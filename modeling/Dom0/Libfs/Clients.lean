import Dom0.Libfs.Backend
import Mathlib.Logic.Function.Basic

/-! # Clients

Several clients of one server, each with the objects it holds, and the calls that they make. -/

namespace Dom0

/-- Where an object lives: in which client, and at which address. -/
structure ObjId where
  client : Nat
  addr : Nat
deriving DecidableEq, Repr

/-- The server and the live objects of all its clients. -/
structure Clients {w : Word} (E : Ipc w) (σ : Type) where
  world : World E (Server σ)
  objects : ObjId → Option File

/-- What a client does. A new object is put at an address at which no object lives. -/
inductive ClientOp
  | mount (client : Nat) (env : MountEnv) (source : CString) (addr : Nat)
  | getEntry (dir : ObjId) (alloc : Bool) (name : CString) (flags : CInt) (mode : ModeT) (addr : Nat)
  | close (o : ObjId)
  | destroy (o : ObjId)

section
variable {w : Word} {E : Ipc w} {σ : Type}

/-- One step and the value that the client gets, or nothing where the client has no object for the step. -/
def Clients.step (h : L4fsSvr E (Server σ)) (s : Clients E σ) : ClientOp → Option (Clients E σ × CInt)
  | .mount client env source addr =>
    if s.objects ⟨client, addr⟩ = none then
      let r := Dom0.mount h s.world env source
      some (⟨r.1, Function.update s.objects ⟨client, addr⟩ r.2.2⟩, r.2.1)
    else none
  | .getEntry dir alloc name flags mode addr =>
    match s.objects dir with
    | some (.dir _ _) =>
      if s.objects ⟨dir.client, addr⟩ = none then
        let r := L4fsDir.getEntry h s.world alloc name flags mode
        some (⟨r.1, Function.update s.objects ⟨dir.client, addr⟩ r.2.2⟩, r.2.1)
      else none
    | _ => none
  | .close o =>
    (s.objects o).map fun f =>
      let r := L4fsFileBase.close h s.world f
      (⟨r.1, Function.update s.objects o (some r.2.2)⟩, r.2.1)
  | .destroy o =>
    (s.objects o).map fun f => (⟨(L4fsFileBase.close h s.world f).1, Function.update s.objects o none⟩, 0)

/-- A run of the clients. -/
inductive Clients.Run (h : L4fsSvr E (Server σ)) : Clients E σ → List ClientOp → Clients E σ → Prop
  | nil (s : Clients E σ) : Run h s [] s
  | cons {s middle last : Clients E σ} {op : ClientOp} {ops : List ClientOp} {ret : CInt}
      (accepted : s.step h op = some (middle, ret)) (tail : Run h middle ops last) : Run h s (op :: ops) last

/-- No client has anything yet. -/
def Clients.start (W : World E (Server σ)) : Clients E σ := ⟨W, fun _ => none⟩

/-! ## File calls -/

/-- A call on a mounted file system. The object that a `getEntry` makes is put at `o`; the calls on paths are
    the same from every directory. -/
inductive FsCall
  | getEntry (o : ObjId) (name : CString) (flags : CInt) (mode : ModeT)
  | preadv (o : ObjId) (iov : List (List UInt8)) (p : Off64T)
  | pwritev (o : ObjId) (iov : List (List UInt8)) (p : Off64T)
  | close (o : ObjId)
  | mkdir (name : CString) (mode : ModeT)
  | rmdir (name : CString)
  | unlink (name : CString)
  | rename («from» dst : CString)

/-- What `preadv` and `pwritev` of `Be_file` answer: `L4fs_dir` does not override them. -/
structure BeFile where
  preadv : ErrNo
  pwritev : ErrNo

/-- A call with an allocation that succeeds: the value it returns, and the caller's buffers as it leaves
    them. -/
def Clients.call (h : L4fsSvr E (Server σ)) (be : BeFile) (s : Clients E σ) :
    FsCall → Option (Clients E σ × Int × List (List UInt8))
  | .getEntry o name flags mode =>
    if s.objects o = none then
      let r := L4fsDir.getEntry h s.world true name flags mode
      some (⟨r.1, Function.update s.objects o r.2.2⟩, r.2.1.toInt, [])
    else none
  | .preadv o iov p =>
    (s.objects o).map fun
      | .dir _ _ => (s, be.preadv.1.toInt, iov)
      | .file fh => let r := L4fsFile.preadv h s.world fh iov p; ({ s with world := r.1 }, r.2.1.toInt, r.2.2)
  | .pwritev o iov p =>
    (s.objects o).map fun
      | .dir _ _ => (s, be.pwritev.1.toInt, [])
      | .file fh => let r := L4fsFile.pwritev h s.world fh iov p; ({ s with world := r.1 }, r.2.toInt, [])
  | .close o =>
    (s.objects o).map fun f =>
      let r := L4fsFileBase.close h s.world f
      (⟨r.1, Function.update s.objects o (some r.2.2)⟩, r.2.1.toInt, [])
  | .mkdir name mode => let r := L4fsDir.mkdir h s.world name mode; some ({ s with world := r.1 }, r.2.toInt, [])
  | .rmdir name => let r := L4fsDir.rmdir h s.world name; some ({ s with world := r.1 }, r.2.toInt, [])
  | .unlink name => let r := L4fsDir.unlink h s.world name; some ({ s with world := r.1 }, r.2.toInt, [])
  | .rename «from» dst =>
    let r := L4fsDir.rename h s.world «from» dst
    some ({ s with world := r.1 }, r.2.toInt, [])

end

end Dom0
