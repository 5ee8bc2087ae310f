import Mathlib.Logic.Function.Basic

/-! # Lists of server objects

`Server_object::List` of `dom0-ned/server/src/server.cc`. An object holds its neighbours and its list; `add` looks at
that before it takes the lock of the list, `remove` and the destructor work under it. They let go of an object in two
steps: an `add` may look at it in between, and may go on with another list. -/

namespace Dom0

/-- A `Server_object`: `_p`, `_n` and `_l`. -/
structure ServerObject (α κ : Type) where
  p : Option α
  n : Option α
  l : Option κ
deriving DecidableEq

/-- All objects, and `_f` of every list that is there. -/
structure ObjectLists (α κ : Type) where
  object : α → ServerObject α κ
  f : κ → Option (Option α)

namespace ObjectLists
variable {α κ : Type} [DecidableEq α] [DecidableEq κ]

def start : ObjectLists α κ := ⟨fun _ => ⟨none, none, none⟩, fun _ => none⟩

/-- `if (a) a->_p = x;` -/
def setP (s : ObjectLists α κ) (a x : Option α) : ObjectLists α κ :=
  match a with
  | none => s
  | some a => { s with object := Function.update s.object a { s.object a with p := x } }

/-- `if (a) a->_n = x;` -/
def setN (s : ObjectLists α κ) (a x : Option α) : ObjectLists α κ :=
  match a with
  | none => s
  | some a => { s with object := Function.update s.object a { s.object a with n := x } }

def setF (s : ObjectLists α κ) (l : κ) (x : Option α) : ObjectLists α κ :=
  { s with f := Function.update s.f l (some x) }

/-- The part of `add` under the lock. -/
def add (s : ObjectLists α κ) (l : κ) (f : Option α) (o : α) : ObjectLists α κ :=
  let s := { s with object := Function.update s.object o ⟨none, f, some l⟩ }
  (s.setP f (some o)).setF l (some o)

/-- `o->_l = 0;` -/
def letGo (s : ObjectLists α κ) (o : α) : ObjectLists α κ :=
  { s with object := Function.update s.object o { s.object o with l := none } }

/-- `o->_n = 0; o->_p = 0;` -/
def clear (s : ObjectLists α κ) (o : α) : ObjectLists α κ :=
  { s with object := Function.update s.object o { s.object o with p := none, n := none } }

/-- The object is taken out of its list, and let go. -/
def unlink (s : ObjectLists α κ) (l : κ) (o : α) : ObjectLists α κ :=
  let s := if (s.object o).p = none then s.setF l (s.object o).n else s.setN (s.object o).p (s.object o).n
  let s := s.setP (s.object o).n (s.object o).p
  s.letGo o

/-- `remove` up to where it has let go of the object, if it is one of the list. -/
def remove (s : ObjectLists α κ) (l : κ) (f o : Option α) : ObjectLists α κ × Option α :=
  match o.or f with
  | none => (s, none)
  | some o => if (s.object o).l = some l then (s.unlink l o, some o) else (s, none)

end ObjectLists

/-- Where a thread stands: outside, in an `add` in front of the lock, in a `remove` or in a destructor behind
    `o->_l = 0;`, or in a destructor where its loop begins again. -/
inductive ListPc (α κ : Type)
  | idle
  | adding (l : κ) (o : α)
  | removing (l : κ) (o : α)
  | destroying (l : κ) (o : Option α)
  | clearing (l : κ) (o : α) (n : Option α)

/-- What threads do with lists. A thread in the middle of a call goes on with `go`. -/
inductive ListAction (τ α κ : Type)
  | construct (l : κ)
  | destroy (t : τ) (l : κ)
  | add (t : τ) (l : κ) (o : α)
  | remove (t : τ) (l : κ) (o : Option α)
  | go (t : τ)

/-- The lists with their locks, where the threads stand, and what `remove` returned so far. -/
structure ListUsers (τ α κ : Type) where
  lists : ObjectLists α κ
  lock : κ → Option τ
  pc : τ → ListPc α κ
  returned : List (Option α)
  threw : Bool

namespace ListUsers
variable {τ α κ : Type} [DecidableEq τ] [DecidableEq α] [DecidableEq κ]

def start : ListUsers τ α κ := ⟨.start, fun _ => none, fun _ => .idle, [], false⟩

def goto (s : ListUsers τ α κ) (t : τ) (pc : ListPc α κ) : ListUsers τ α κ := { s with pc := Function.update s.pc t pc }

def setLock (s : ListUsers τ α κ) (l : κ) (t : Option τ) : ListUsers τ α κ :=
  { s with lock := Function.update s.lock l t }

/-- The next step of a thread that is in the middle of a call. -/
def go (s : ListUsers τ α κ) (t : τ) : Option (ListUsers τ α κ) :=
  match s.pc t with
  | .idle => none
  | .adding l o =>
    match s.lists.f l, s.lock l with
    | some f, none => some ({ s with lists := s.lists.add l f o }.goto t .idle)
    | _, _ => none
  | .removing l o =>
    some (({ s with lists := s.lists.clear o, returned := s.returned ++ [some o] }.setLock l none).goto t .idle)
  | .destroying l none =>
    some (({ s with lists := { s.lists with f := Function.update s.lists.f l none } }.setLock l none).goto t .idle)
  | .destroying l (some o) =>
    if (s.lists.object o).l ≠ some l then some { s with threw := true }
    else some ({ s with lists := s.lists.letGo o }.goto t (.clearing l o (s.lists.object o).n))
  | .clearing l o n => some ({ s with lists := s.lists.clear o }.goto t (.destroying l n))

/-- One step. Where a list that is not there is used, the code says nothing more, and there is no step; nor is there one
    where a lock is taken that another thread holds. -/
def step (s : ListUsers τ α κ) : ListAction τ α κ → Option (ListUsers τ α κ)
  | .construct l =>
    match s.lists.f l with
    | none => some { s with lists := s.lists.setF l none }
    | some _ => none
  | .destroy t l =>
    match s.pc t, s.lists.f l, s.lock l with
    | .idle, some f, none => some ((s.setLock l (some t)).goto t (.destroying l f))
    | _, _, _ => none
  | .add t l o =>
    match s.pc t, s.lists.f l with
    | .idle, some _ => if (s.lists.object o).l = none then some (s.goto t (.adding l o)) else some s
    | _, _ => none
  | .remove t l o =>
    match s.pc t, s.lists.f l, s.lock l with
    | .idle, some f, none =>
      match s.lists.remove l f o with
      | (_, none) => some { s with returned := s.returned ++ [none] }
      | (lists, some o) => some (({ s with lists }.setLock l (some t)).goto t (.removing l o))
    | _, _, _ => none
  | .go t => s.go t

end ListUsers

end Dom0
