import Dom0.Ipc
import Mathlib.Data.Finset.Card

/-! # References to a session

Class `Svr` of `libc_backend/l4fs.cc`, which counts the `Ref_ptr`s that refer to it, and who holds them: the local of
`mount`, and every object that the client made on the file system. -/

namespace Dom0

/-- A `Svr`, by its `_ref`. -/
structure Svr (w : Word) where
  ref : ULong w
deriving DecidableEq

namespace Svr
variable {w : Word}

def new : Svr w := ⟨0⟩

def addRef (s : Svr w) : Svr w := ⟨s.ref + 1⟩

/-- `_ref--` gives the count from before. -/
def removeRef (s : Svr w) : Svr w × ULong w := (⟨s.ref - 1⟩, s.ref)

/-- A `Ref_ptr` goes. It deletes the object where `remove_ref` returns 0. -/
def release (s : Svr w) : Option (Svr w) := if s.removeRef.2 = 0 then none else some s.removeRef.1

end Svr

/-- Who has a `Ref_ptr<Svr>`: the local `svr` of `mount`, or an `L4fs_dir` or `L4fs_file` in its `_svr`. -/
inductive SvrHolder
  | mount
  | object (addr : Nat)
deriving DecidableEq, Repr

/-- A session: its `Svr`, unless that is deleted, and those that refer to it. -/
structure SvrSession (w : Word) where
  svr : Option (Svr w)
  holders : Finset SvrHolder
deriving DecidableEq

/-- What makes and drops references: `mount` makes an `L4fs_dir` and returns, `get_entry` on a directory makes an
    object, and an object is destroyed. -/
inductive SessionAction
  | mountDir (addr : Nat)
  | mountEnds
  | getEntry (dir addr : Nat)
  | destroy (addr : Nat)
deriving DecidableEq, Repr

namespace SvrSession
variable {w : Word}

/-- `Ref_ptr<Svr> svr(new Svr(..))` in `mount`. -/
def start : SvrSession w := ⟨some Svr.new.addRef, {.mount}⟩

/-- A `Ref_ptr` is copied. Where the object is deleted, the code says nothing more, and there is no step. -/
def copy (s : SvrSession w) (i j : SvrHolder) : Option (SvrSession w) :=
  if i ∈ s.holders ∧ j ∉ s.holders then s.svr.map fun v => ⟨some v.addRef, insert j s.holders⟩ else none

def drop (s : SvrSession w) (i : SvrHolder) : Option (SvrSession w) :=
  if i ∈ s.holders then s.svr.map fun v => ⟨v.release, s.holders.erase i⟩ else none

def step (s : SvrSession w) : SessionAction → Option (SvrSession w)
  | .mountDir addr => s.copy .mount (.object addr)
  | .mountEnds => s.drop .mount
  | .getEntry dir addr => s.copy (.object dir) (.object addr)
  | .destroy addr => s.drop (.object addr)

end SvrSession

end Dom0
