import Dom0.Ipc
import Mathlib.Logic.Function.Basic

/-! # The listeners of dom0

`serverCombined` of `dom0_server.cc`, which `dom0Server` starts twice, and the beginning of the handlers that it starts.
A listener passes the socket of a connection to its handler in a cell of the heap, which the handler frees; the cell for
the `pthread_t` nobody frees. -/

namespace Dom0

/-- `ListenerArgs::Type`. -/
inductive ListenerType
  | binary
  | lua
deriving DecidableEq, Repr

/-- What a cell of the heap holds: what was left there, an `int` or a `pthread_t`. -/
inductive Cell
  | junk
  | int (v : CInt)
  | thread (id : Nat)
deriving DecidableEq

/-- Where the loop of `serverCombined` stands, with `newfd`, `new_sock` and `sniffer_thread`. -/
inductive ListenerPc
  | accept
  | malloc (newfd : CInt)
  | store (newfd : CInt) (newSock : Nat)
  | calloc (newfd : CInt) (newSock : Nat)
  | create (newfd : CInt) (newSock snifferThread : Nat)
deriving DecidableEq

/-- Where a handler stands: ahead of `fd = *(int*) socket_desc`, ahead of `free(socket_desc)`, or behind it. -/
inductive HandlerPc
  | read (socketDesc : Nat)
  | free (fd : CInt) (socketDesc : Nat)
  | running (fd : CInt)
deriving DecidableEq

/-- A listener and its handlers. What `accept` returned, for how many connections `pthread_create` failed, and the cells
    of the threads are kept beside them. -/
structure Listener where
  pc : ListenerPc
  handlers : List HandlerPc
  accepted : List CInt
  lost : Nat
  threads : List Nat

/-- The heap, the listeners, and whether a cell that is not there was touched. -/
structure Listeners where
  heap : Nat → Option Cell
  listener : ListenerType → Listener
  faulted : Bool

/-- What happens next: a listener gets to its next call, with what it returns, or a handler goes on. -/
inductive ListenAction
  | accept (newfd : CInt)
  | malloc (p : Nat)
  | store
  | calloc (p : Nat)
  | create (id : Option Nat)
  | read (k : Nat)
  | free (k : Nat)

namespace Listeners

/-- Both listeners before their first `accept`. -/
def start (heap : Nat → Option Cell) : Listeners := ⟨heap, fun _ => ⟨.accept, [], [], 0, []⟩, false⟩

def set (s : Listeners) (t : ListenerType) (l : Listener) : Listeners :=
  { s with listener := Function.update s.listener t l }

def setHeap (s : Listeners) (p : Nat) (c : Option Cell) : Listeners := { s with heap := Function.update s.heap p c }

def fault (s : Listeners) : Listeners := { s with faulted := true }

/-- One step. `malloc` and `calloc` give a cell that is free. -/
def step (s : Listeners) (x : ListenerType × ListenAction) : Option Listeners :=
  let l := s.listener x.1
  match x.2, l.pc with
  | .accept newfd, .accept => some (s.set x.1 { l with pc := .malloc newfd, accepted := l.accepted ++ [newfd] })
  | .malloc p, .malloc newfd =>
    if s.heap p = none then some ((s.setHeap p (some .junk)).set x.1 { l with pc := .store newfd p }) else none
  | .store, .store newfd newSock =>
    if s.heap newSock = none then some s.fault
    else some ((s.setHeap newSock (some (.int newfd))).set x.1 { l with pc := .calloc newfd newSock })
  | .calloc p, .calloc newfd newSock =>
    if s.heap p = none then
      some ((s.setHeap p (some (.thread 0))).set x.1
        { l with pc := .create newfd newSock p, threads := l.threads ++ [p] })
    else none
  -- the result of `pthread_create` is not looked at
  | .create none, .create _ _ _ => some (s.set x.1 { l with pc := .accept, lost := l.lost + 1 })
  | .create (some id), .create _ newSock snifferThread =>
    if s.heap snifferThread = none then some s.fault
    else some ((s.setHeap snifferThread (some (.thread id))).set x.1
      { l with pc := .accept, handlers := l.handlers ++ [.read newSock] })
  | .read k, _ =>
    match l.handlers[k]? with
    | some (.read socketDesc) =>
      match s.heap socketDesc with
      | some (.int v) => some (s.set x.1 { l with handlers := l.handlers.set k (.free v socketDesc) })
      | _ => some s.fault
    | _ => none
  | .free k, _ =>
    match l.handlers[k]? with
    | some (.free fd socketDesc) =>
      if s.heap socketDesc = none then some s.fault
      else some ((s.setHeap socketDesc none).set x.1 { l with handlers := l.handlers.set k (.running fd) })
    | _ => none
  | _, _ => none

end Listeners

end Dom0
