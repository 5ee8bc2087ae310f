import Dom0.Ipc
import Dom0.Lib.Refs
import Mathlib.Logic.Function.Basic

/-! # Programs that Lua starts

`App_task` of `dom0-ned/server/src/app_task.cc`, and what `lua_exec.cc` does with it: `exec` creates one and starts its
program, the server thread handles the messages of the program and the requests to wait for it, and Lua holds an
`App_ptr` in the userdata that `exec` returns. -/

namespace Dom0

def l4Enoreply : CInt := 1000

/-- `App_task::State`. -/
inductive AppTaskState
  | initializing
  | running
  | zombie
deriving DecidableEq, Repr

/-- An `App_task`: whether it is in the registry and has its `_task`, `_thread` and `_rm` is one flag each. -/
structure AppTask (w : Word) where
  refCnt : Int
  state : AppTaskState
  exitCode : ULong w
  observer : ULong w
  registered : Bool
  caps : Bool
deriving DecidableEq

/-- A message to the gate of an `App_task`, by what is looked at. -/
inductive ParentMessage (w : Word)
  | otherLabel
  | otherOpcode
  | signal (sig val : ULong w)

/-- `Signal` with `sig` 0. -/
def ParentMessage.isExit {w : Word} : ParentMessage w → Bool
  | .signal sig _ => sig = 0
  | .otherLabel | .otherOpcode => false

/-- What a `dispatch` leaves: the object, unless it deleted itself, the thread that it sent a message to, and what it
    returned. -/
structure AppTask.Dispatched (w : Word) where
  task : Option (AppTask w)
  sent : Option (ULong w)
  ret : CInt

namespace AppTask
variable {w : Word}

/-- The constructor leaves `_exit_code` as it finds it. -/
def new (exitCode : ULong w) : AppTask w := ⟨0, .initializing, exitCode, 0, true, true⟩

def addRef (t : AppTask w) : AppTask w := { t with refCnt := t.refCnt + 1 }

/-- `remove_ref() == 0` deletes the object, in `dispatch` and in an `App_ptr` alike. -/
def removeRef (t : AppTask w) : Option (AppTask w) :=
  if t.refCnt - 1 = 0 then none else some { t with refCnt := t.refCnt - 1 }

def running (t : AppTask w) : AppTask w := addRef { t with state := .running }

def terminate (t : AppTask w) : AppTask w := { t with caps := false, registered := false }

/-- `App_task::dispatch`. -/
def dispatch (t : AppTask w) : ParentMessage w → Dispatched w
  | .otherLabel => ⟨some t, none, -l4Ebadproto⟩
  | .otherOpcode => ⟨some t, none, -l4Enosys⟩
  | .signal sig val =>
    if sig = 0 then
      match (terminate { t with state := .zombie, exitCode := val }).removeRef with
      | none => ⟨none, none, -l4Enoreply⟩
      | some t => if t.observer ≠ 0 then ⟨some { t with observer := 0 }, some t.observer, -l4Enoreply⟩
          else ⟨some t, none, -l4Enoreply⟩
    else ⟨some t, none, 0⟩

/-- `Observer::dispatch`, with the thread that waits. -/
def observe (t : AppTask w) (thread : ULong w) : Dispatched w :=
  if t.state = .zombie then ⟨some t, none, 0⟩ else ⟨some { t with observer := thread }, none, -l4Enoreply⟩

end AppTask

/-- What a method of the userdata leaves on the stack of Lua. -/
inductive TaskResult (w : Word)
  | nil
  | exitCode (v : ULong w)
  | killed

/-- Where a call of `exec` stands, by what it did last. -/
inductive ExecPc
  | created
  | launched
  | ran
  | stored
  | returned
  | failed
deriving DecidableEq, Repr

/-- The program of an `App_task`. -/
inductive AppProgress
  | absent
  | started
  | exited
  | killed
deriving DecidableEq, Repr

/-- A call of `exec` and what came of it: the object, unless it is deleted; the `App_ptr` in the userdata, once there is
    one, as whether it refers to the object. The local `app_task` refers to it up to the end of `exec`. -/
structure ExecCall (w : Word) where
  task : Option (AppTask w)
  pc : ExecPc
  userdata : Option Bool
  program : AppProgress

/-- Where the thread of Lua stands: at a call of the observer in `wait`, or behind it. -/
inductive LuaThread
  | runs
  | waits (id : Nat)
  | answered (id : Nat)
deriving DecidableEq, Repr

/-- The server thread sends it a message. -/
def LuaThread.wake : LuaThread → LuaThread
  | .waits id => .answered id
  | .runs => .runs
  | .answered id => .answered id

/-- What the server thread and Lua do: the steps of `exec`, with what the memory of a new `_exit_code` holds; a message
    of a program; and the methods of the userdata, where `wait` ends with a step of its own. -/
inductive TaskAction (w : Word)
  | create (id : Nat) (exitCode : ULong w)
  | launch (id : Nat)
  | fail (id : Nat)
  | running (id : Nat)
  | store (id : Nat)
  | ret (id : Nat)
  | message (id : Nat) (m : ParentMessage w)
  | wait (id : Nat)
  | waited (id : Nat)
  | kill (id : Nat)
  | gc (id : Nat)

namespace ExecCall
variable {w : Word}

/-- An `App_ptr` that refers to the object goes. -/
def drop (c : ExecCall w) : Option (ExecCall w) := c.task.map fun t => { c with task := t.removeRef }

def create (exitCode : ULong w) : ExecCall w := ⟨some (AppTask.new exitCode).addRef, .created, none, .absent⟩

def launch (c : ExecCall w) : Option (ExecCall w) :=
  if c.pc = .created then some { c with pc := .launched, program := .started } else none

/-- `launch` throws, and the handler of `exec` takes the place of its return. -/
def fail (c : ExecCall w) : Option (ExecCall w) :=
  if c.pc = .created then ({ c with pc := .failed } : ExecCall w).drop else none

def running (c : ExecCall w) : Option (ExecCall w) :=
  if c.pc = .launched then c.task.map fun t => { c with task := some t.running, pc := .ran } else none

/-- `*at = app_task`. -/
def store (c : ExecCall w) : Option (ExecCall w) :=
  if c.pc = .ran then c.task.map fun t => { c with task := some t.addRef, pc := .stored, userdata := some true }
  else none

def ret (c : ExecCall w) : Option (ExecCall w) :=
  if c.pc = .stored then ({ c with pc := .returned } : ExecCall w).drop else none

/-- `t = 0` on the `App_ptr` of the userdata. -/
def zap (c : ExecCall w) : Option (ExecCall w) := ({ c with userdata := some false } : ExecCall w).drop

/-- A message of the program, while its gate is there. -/
def message (c : ExecCall w) (m : ParentMessage w) : Option (ExecCall w × Option (ULong w)) :=
  match c.task with
  | none => none
  | some t =>
    if c.program = .started ∧ t.registered = true then
      some ({ c with task := (t.dispatch m).task, program := if m.isExit then .exited else .started },
        (t.dispatch m).sent)
    else none

/-- `__task_wait` up to the answer of the observer, which it does not ask where there is no task. -/
def wait (c : ExecCall w) (thread : ULong w) : Option (ExecCall w × Option CInt) :=
  match c.userdata, c.task with
  | some false, _ => some (c, none)
  | some true, some t => some ({ c with task := (t.observe thread).task }, some (t.observe thread).ret)
  | _, _ => none

/-- The rest of `__task_wait`. -/
def waited (c : ExecCall w) : Option (ExecCall w × TaskResult w) :=
  match c.userdata, c.task with
  | some true, some t => c.zap.map (·, .exitCode t.exitCode)
  | _, _ => none

/-- `__task_kill`. -/
def kill (c : ExecCall w) : Option (ExecCall w × TaskResult w) :=
  match c.userdata, c.task with
  | some false, _ => some (c, .nil)
  | some true, some t =>
    if t.state = .zombie then c.zap.map (·, .exitCode t.exitCode)
    else ({ c with task := some t.terminate, program := .killed } : ExecCall w).zap.map (·, .killed)
  | _, _ => none

/-- `__task_gc`. -/
def gc (c : ExecCall w) : Option (ExecCall w) :=
  match c.userdata with
  | some true => c.zap
  | some false => some c
  | none => none

end ExecCall

/-- All calls of `exec`, and the thread of Lua, with what the methods left on its stack so far. -/
structure Tasks (w : Word) where
  calls : Nat → Option (ExecCall w)
  lua : LuaThread
  results : List (Nat × TaskResult w)

namespace Tasks
variable {w : Word}

def start : Tasks w := ⟨fun _ => none, .runs, []⟩

def set (s : Tasks w) (id : Nat) (c : ExecCall w) : Tasks w := { s with calls := Function.update s.calls id (some c) }

/-- A step of Lua's thread on one call, while the thread runs. -/
def onCall (s : Tasks w) (id : Nat) (f : ExecCall w → Option (ExecCall w)) : Option (Tasks w) :=
  if s.lua = .runs then ((s.calls id).bind f).map (s.set id) else none

/-- One step. `thread` is what `pthread_getl4cap(pthread_self())` gives in Lua's thread. Where a step uses an object
    that is deleted, the code says nothing more, and there is no step. -/
def step (thread : ULong w) (s : Tasks w) : TaskAction w → Option (Tasks w)
  | .create id exitCode => if s.lua = .runs ∧ (s.calls id).isNone then some (s.set id (.create exitCode)) else none
  | .launch id => s.onCall id ExecCall.launch
  | .fail id => s.onCall id ExecCall.fail
  | .running id => s.onCall id ExecCall.running
  | .store id => s.onCall id ExecCall.store
  | .ret id => s.onCall id ExecCall.ret
  | .message id m =>
    ((s.calls id).bind (·.message m)).map fun r =>
      { s.set id r.1 with lua := if r.2 = some thread then s.lua.wake else s.lua }
  | .wait id =>
    if s.lua = .runs then
      ((s.calls id).bind (·.wait thread)).map fun r =>
        match r.2 with
        | none => { s.set id r.1 with results := s.results ++ [(id, .nil)] }
        | some ret => { s.set id r.1 with lua := if ret = 0 then .answered id else .waits id }
    else none
  | .waited id =>
    if s.lua = .answered id then
      ((s.calls id).bind ExecCall.waited).map fun r =>
        { s.set id r.1 with lua := .runs, results := s.results ++ [(id, r.2)] }
    else none
  | .kill id =>
    if s.lua = .runs then
      ((s.calls id).bind ExecCall.kill).map fun r => { s.set id r.1 with results := s.results ++ [(id, r.2)] }
    else none
  | .gc id => s.onCall id ExecCall.gc

end Tasks

end Dom0
