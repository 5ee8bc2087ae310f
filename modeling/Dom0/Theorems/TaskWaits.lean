import Dom0.Theorems.TaskReferences

/-! Waiting for a program. The wake-up of Lua's thread comes from the observer, where the program has exited before, and
from the handler of its exit otherwise: a wait is woken once, and returns what the program signalled. -/

namespace Dom0

/-! ## What waiting is -/

/-- What is seen of it: a program signals its exit, Lua's thread asks to be told of it, and is sent a message; `wait`
    returns, or refuses to wait for a task that is zapped. -/
inductive WaitEvent (w : Word)
  | exited (id : Nat) (val : ULong w)
  | asked (id : Nat)
  | woken (id : Nat)
  | returned (id : Nat) (r : TaskResult w)
  | refused (id : Nat)

/-- What the programs have signalled, the wait that goes on and whether it has been woken, and the waits that are
    over. -/
structure Waiting (w : Word) where
  exits : Nat → Option (ULong w)
  waiter : Option (Nat × Bool)
  ended : Nat → Bool

namespace Waiting
variable {w : Word}

def start : Waiting w := ⟨fun _ => none, none, fun _ => false⟩

/-- A program exits once; one wait goes on at a time; it is woken once, after the exit; it returns after that, with what
    was signalled. -/
def accept (a : Waiting w) : WaitEvent w → Option (Waiting w)
  | .exited id val => if a.exits id = none then some { a with exits := Function.update a.exits id (some val) } else none
  | .asked id => if a.waiter = none ∧ a.ended id = false then some { a with waiter := some (id, false) } else none
  | .woken id =>
    if a.waiter = some (id, false) ∧ (a.exits id).isSome then some { a with waiter := some (id, true) } else none
  | .returned id r =>
    match a.waiter, a.exits id, r with
    | some (id', true), some val, .exitCode val' =>
      if id' = id ∧ val' = val then some { a with waiter := none, ended := Function.update a.ended id true } else none
    | _, _, _ => none
  | .refused id => if a.waiter = none ∧ a.ended id = true then some a else none

end Waiting

section
variable {w : Word}

/-- Exits are signalled, and waits are requested, after `exec` has returned the handle, and it is not used for anything
    else. -/
def Tasks.Undisturbed (s : Tasks w) : TaskAction w → Prop
  | .message id m => m.isExit = true → ∀ c, s.calls id = some c → c.pc = .returned
  | .wait id => ∀ c, s.calls id = some c → c.pc = .returned
  | .kill _ | .gc _ => False
  | _ => True

def ParentMessage.events (id : Nat) : ParentMessage w → List (WaitEvent w)
  | .signal sig val => if sig = 0 then [.exited id val] else []
  | .otherLabel | .otherOpcode => []

/-- What a step shows. The answer 0 of the observer is the message that wakes Lua's thread. -/
def Tasks.events (thread : ULong w) (s : Tasks w) : TaskAction w → List (WaitEvent w)
  | .message id m =>
    match (s.calls id).bind (·.message m) with
    | some (_, sent) => m.events id ++ if sent = some thread then [.woken id] else []
    | none => []
  | .wait id =>
    match (s.calls id).bind (·.wait thread) with
    | some (_, some ret) => .asked id :: if ret = 0 then [.woken id] else []
    | some (_, none) => [.refused id]
    | none => []
  | .waited id =>
    match (s.calls id).bind ExecCall.waited with
    | some (_, r) => [.returned id r]
    | none => []
  | _ => []

/-- The wait that goes on, as Lua's thread has it. -/
def LuaThread.waiter : LuaThread → Option (Nat × Bool)
  | .runs => none
  | .waits id => some (id, false)
  | .answered id => some (id, true)

end

/-! ## What a call is seen to have done -/

/-- The state of a call, by what was seen. -/
structure Waiting.Matches {w : Word} (thread : ULong w) (lua : LuaThread) (a : Waiting w) (id : Nat) (c : ExecCall w) :
    Prop where
  kept : c.Kept
  exited : c.program = .exited ↔ (a.exits id).isSome
  code : ∀ t val, c.task = some t → a.exits id = some val → t.exitCode = val
  observer : ∀ t, c.task = some t → t.observer = if lua = .waits id then thread else 0
  waiting : lua = .waits id → c.userdata = some true ∧ c.program = .started
  answered : lua = .answered id → c.userdata = some true ∧ c.program = .exited
  ended : c.userdata = some false ↔ a.ended id = true

/-- The tasks and Lua's thread, by what was seen. -/
structure Waiting.Follows {w : Word} (thread : ULong w) (s : Tasks w) (a : Waiting w) : Prop where
  calls : ∀ id c, s.calls id = some c → a.Matches thread s.lua id c
  absent : ∀ id, s.calls id = none → a.exits id = none ∧ a.ended id = false ∧ s.lua ≠ .waits id ∧ s.lua ≠ .answered id
  waiter : a.waiter = s.lua.waiter

namespace Waiting

section
variable {w : Word} {thread : ULong w} {lua lua' : LuaThread} {a a' : Waiting w} {id : Nat} {c c' : ExecCall w}
    {s s' : Tasks w}

/-- What concerns another call leaves this one alone. -/
theorem Matches.frame (h : a.Matches thread lua id c) (hwaits : lua' = .waits id ↔ lua = .waits id)
    (hanswered : lua' = .answered id ↔ lua = .answered id) (hexits : a'.exits id = a.exits id)
    (hended : a'.ended id = a.ended id) : a'.Matches thread lua' id c where
  kept := h.kept
  exited := by rw [hexits]; exact h.exited
  code := by rw [hexits]; exact h.code
  observer t ht := by simp only [hwaits]; exact h.observer t ht
  waiting hlua := h.waiting (hwaits.mp hlua)
  answered hlua := h.answered (hanswered.mp hlua)
  ended := by rw [hended]; exact h.ended

/-- A step that shows nothing: the program, the observer and the exit code stay as they are. -/
theorem Matches.quiet (h : a.Matches thread .runs id c) (hkept : c'.Kept)
    (hprogram : c'.program = .exited ↔ c.program = .exited)
    (htask : ∀ t', c'.task = some t' → ∃ t, c.task = some t ∧ t'.observer = t.observer ∧ t'.exitCode = t.exitCode)
    (hended : c'.userdata = some false ↔ c.userdata = some false) : a.Matches thread .runs id c' where
  kept := hkept
  exited := hprogram.trans h.exited
  code t' val ht' hval := by
    obtain ⟨t, ht, -, hcode⟩ := htask t' ht'
    exact hcode.trans (h.code t val ht hval)
  observer t' ht' := by
    obtain ⟨t, ht, hobserver, -⟩ := htask t' ht'
    exact hobserver.trans (h.observer t ht)
  waiting hlua := by cases hlua
  answered hlua := by cases hlua
  ended := hended.trans h.ended

theorem removeRef_fields {t t' : AppTask w} (h : t.removeRef = some t') :
    t'.observer = t.observer ∧ t'.exitCode = t.exitCode := by
  unfold AppTask.removeRef at h
  split at h
  · cases h
  · cases h
    exact ⟨rfl, rfl⟩

/-- The steps of `exec` show nothing. -/
theorem Matches.exec {action : TaskAction w} (h : a.Matches thread .runs id c)
    (hstep : ExecCall.Step thread action c c')
    (hexec : (∃ i, action = .launch i) ∨ (∃ i, action = .fail i) ∨ (∃ i, action = .running i) ∨
    (∃ i, action = .store i) ∨
      ∃ i, action = .ret i) : a.Matches thread .runs id c' := by
  cases hstep with
  | launch hlaunch =>
    have hkept := h.kept.launch hlaunch
    simp only [ExecCall.launch, Option.ite_none_right_eq_some] at hlaunch
    obtain ⟨hpc, heq⟩ := hlaunch
    cases heq
    refine h.quiet hkept ?_ (fun t' ht' => ⟨t', ht', rfl, rfl⟩) Iff.rfl
    obtain ⟨task, pc, userdata, program⟩ := c
    obtain rfl : pc = .created := hpc
    cases h.kept.phase
    exact ⟨nofun, nofun⟩
  | fail hfail =>
    have hkept := h.kept.fail hfail
    simp only [ExecCall.fail, Option.ite_none_right_eq_some] at hfail
    obtain ⟨t, ht, rfl⟩ := ExecCall.drop_cases hfail.2
    exact h.quiet hkept Iff.rfl (fun t' ht' => ⟨t, ht, removeRef_fields ht'⟩) Iff.rfl
  | running hrunning =>
    have hkept := h.kept.running hrunning
    simp only [ExecCall.running, Option.ite_none_right_eq_some] at hrunning
    obtain ⟨t, ht, rfl⟩ := Option.map_eq_some_iff.mp hrunning.2
    refine h.quiet hkept Iff.rfl (fun t' ht' => ⟨t, ht, ?_⟩) Iff.rfl
    cases ht'
    exact ⟨rfl, rfl⟩
  | store hstore =>
    have hkept := h.kept.store hstore
    simp only [ExecCall.store, Option.ite_none_right_eq_some] at hstore
    obtain ⟨t, ht, rfl⟩ := Option.map_eq_some_iff.mp hstore.2
    refine h.quiet hkept Iff.rfl (fun t' ht' => ⟨t, ht, ?_⟩) ?_
    · cases ht'
      exact ⟨rfl, rfl⟩
    · obtain ⟨task, pc, userdata, program⟩ := c
      obtain rfl : pc = .ran := hstore.1
      cases h.kept.phase
      exact ⟨nofun, nofun⟩
  | ret hret =>
    have hkept := h.kept.ret hret
    simp only [ExecCall.ret, Option.ite_none_right_eq_some] at hret
    obtain ⟨t, ht, rfl⟩ := ExecCall.drop_cases hret.2
    exact h.quiet hkept Iff.rfl (fun t' ht' => ⟨t, ht, removeRef_fields ht'⟩) Iff.rfl
  | message | wait | waited | kill | gc => simp at hexec

/-! ## All calls -/

/-- A step changes one call, and what was seen of it. -/
theorem Follows.update (h : a.Follows thread s) (hcalls : s'.calls = Function.update s.calls id (some c'))
    (hc' : a'.Matches thread s'.lua id c') (hwaits : ∀ i, i ≠ id → (s'.lua = .waits i ↔ s.lua = .waits i))
    (hanswered : ∀ i, i ≠ id → (s'.lua = .answered i ↔ s.lua = .answered i))
    (hexits : ∀ i, i ≠ id → a'.exits i = a.exits i) (hended : ∀ i, i ≠ id → a'.ended i = a.ended i)
    (hwaiter : a'.waiter = s'.lua.waiter) : a'.Follows thread s' where
  calls i c hc := by
    rw [hcalls] at hc
    by_cases hi : i = id
    · subst hi
      rw [Function.update_self] at hc
      cases hc
      exact hc'
    · rw [Function.update_of_ne hi] at hc
      exact (h.calls i c hc).frame (hwaits i hi) (hanswered i hi) (hexits i hi) (hended i hi)
  absent i hnone := by
    rw [hcalls] at hnone
    by_cases hi : i = id
    · subst hi
      rw [Function.update_self] at hnone
      cases hnone
    · rw [Function.update_of_ne hi] at hnone
      obtain ⟨hno, hgoing, hnw, hna⟩ := h.absent i hnone
      exact ⟨(hexits i hi).trans hno, (hended i hi).trans hgoing, fun hlua => hnw ((hwaits i hi).mp hlua),
        fun hlua => hna ((hanswered i hi).mp hlua)⟩
  waiter := hwaiter

theorem Follows.quiet (h : a.Follows thread s) (hcalls : s'.calls = Function.update s.calls id (some c'))
    (hlua : s'.lua = s.lua) (hc' : a.Matches thread s.lua id c') : a.Follows thread s' :=
  h.update hcalls (hlua ▸ hc') (fun _ _ => by rw [hlua]) (fun _ _ => by rw [hlua]) (fun _ _ => rfl) (fun _ _ => rfl)
    (hlua ▸ h.waiter)

theorem Follows.start : (Waiting.start : Waiting w).Follows thread Tasks.start where
  calls id c hc := by cases hc
  absent id _ := ⟨rfl, rfl, LuaThread.noConfusion, LuaThread.noConfusion⟩
  waiter := rfl

/-! ## Messages of the program -/

/-- What the handler of the exit leaves, and whom it sends a message to. -/
theorem dispatch_exit (t : AppTask w) (val : ULong w) :
    (t.dispatch (.signal 0 val)).task = none ∧ (t.dispatch (.signal 0 val)).sent = none ∨
      ∃ t', (t.dispatch (.signal 0 val)).task = some t' ∧ t'.exitCode = val ∧ t'.observer = 0 ∧
        (t.dispatch (.signal 0 val)).sent = if t.observer = 0 then none else some t.observer := by
  rw [AppTask.dispatch, if_pos rfl]
  split
  · exact Or.inl ⟨rfl, rfl⟩
  · next t' hleft =>
    obtain ⟨hobserver, hcode⟩ := removeRef_fields hleft
    have hsame : t'.observer = t.observer := hobserver
    rw [hsame]
    by_cases hzero : t.observer = 0
    · rw [if_neg (not_not.mpr hzero), if_pos hzero]
      exact Or.inr ⟨t', rfl, hcode, hsame.trans hzero, rfl⟩
    · rw [if_pos hzero, if_neg hzero]
      exact Or.inr ⟨_, rfl, hcode, rfl, rfl⟩

theorem message_of_not_isExit (id : Nat) {m : ParentMessage w} {sent : Option (ULong w)} (hm : ¬m.isExit = true)
    (hstep : c.message m = some (c', sent)) : c' = c ∧ sent = none ∧ m.events id = [] := by
  obtain ⟨task, pc, userdata, program⟩ := c
  obtain _ | t := task
  · cases hstep
  simp only [ExecCall.message, Option.ite_none_right_eq_some, Option.some.injEq, Prod.mk.injEq] at hstep
  obtain ⟨⟨rfl, -⟩, rfl, rfl⟩ := hstep
  rw [if_neg hm, ExecCall.dispatch_task_of_not_isExit hm]
  cases m with
  | otherLabel | otherOpcode => exact ⟨rfl, rfl, rfl⟩
  | signal sig val =>
    have hsig : sig ≠ 0 := fun hzero => hm (decide_eq_true hzero)
    rw [AppTask.dispatch, if_neg hsig, ParentMessage.events, if_neg hsig]
    exact ⟨rfl, rfl, rfl⟩

/-- The exit of a program that Lua's thread waits for wakes it. -/
theorem Matches.exit_awaited {val : ULong w} {sent : Option (ULong w)} (h : a.Matches thread (.waits id) id c)
    (hthread : thread ≠ 0) (hpc : c.pc = .returned) (hstep : c.message (.signal 0 val) = some (c', sent)) :
    sent = some thread ∧ Matches thread (.answered id)
      { a with exits := Function.update a.exits id (some val), waiter := some (id, true) } id c' := by
  obtain ⟨huser, hprogram⟩ := h.waiting rfl
  have hkept := h.kept.message (fun _ => by rw [hpc]; exact ExecPc.noConfusion) hstep
  obtain ⟨task, pc, userdata, program⟩ := c
  obtain _ | t := task
  · cases hstep
  simp only [ExecCall.message, Option.ite_none_right_eq_some, Option.some.injEq, Prod.mk.injEq] at hstep
  obtain ⟨⟨rfl, -⟩, rfl, rfl⟩ := hstep
  have hobserver := h.observer t rfl
  rw [if_pos rfl] at hobserver
  rcases dispatch_exit t val with ⟨hgone, -⟩ | ⟨t', htask, hcode, hzero, hsent⟩
  · exact absurd hgone (hkept.sound.kept (Or.inr huser))
  · rw [hobserver, if_neg hthread] at hsent
    refine ⟨hsent, hkept, ?_, ?_, ?_, ?_, ?_, h.ended⟩
    · simp [ParentMessage.isExit]
    · intro t'' val' ht'' hval'
      cases (Function.update_self id (some val) a.exits).symm.trans hval'
      cases htask.symm.trans ht''
      exact hcode
    · intro t'' ht''
      cases htask.symm.trans ht''
      exact hzero
    · exact fun hwaits => LuaThread.noConfusion hwaits
    · intro _
      exact ⟨huser, rfl⟩

/-- The exit of another program wakes nobody. -/
theorem Matches.exit_other {val : ULong w} {sent : Option (ULong w)} (h : a.Matches thread lua id c)
    (hlua : lua ≠ .waits id) (hpc : c.pc = .returned) (hstep : c.message (.signal 0 val) = some (c', sent)) :
    sent = none ∧ Matches thread lua { a with exits := Function.update a.exits id (some val) } id c' := by
  have hkept := h.kept.message (fun _ => by rw [hpc]; exact ExecPc.noConfusion) hstep
  obtain ⟨task, pc, userdata, program⟩ := c
  obtain _ | t := task
  · cases hstep
  simp only [ExecCall.message, Option.ite_none_right_eq_some, Option.some.injEq, Prod.mk.injEq] at hstep
  obtain ⟨⟨rfl, -⟩, rfl, rfl⟩ := hstep
  have hobserver := h.observer t rfl
  rw [if_neg hlua] at hobserver
  have hanswered : lua ≠ .answered id := fun hanswered => by cases (h.answered hanswered).2
  have hnobody : (t.dispatch (.signal 0 val)).sent = none := by
    rcases dispatch_exit t val with ⟨-, hnone⟩ | ⟨_, -, -, -, hsent⟩
    · exact hnone
    · rw [hsent, if_pos hobserver]
  refine ⟨hnobody, hkept, ?_, ?_, ?_, fun hw => absurd hw hlua, fun ha => absurd ha hanswered, h.ended⟩
  · simp [ParentMessage.isExit]
  · intro t' val' ht' hval'
    cases (Function.update_self id (some val) a.exits).symm.trans hval'
    rcases dispatch_exit t val with ⟨hgone, -⟩ | ⟨t'', htask, hcode, -, -⟩
    · cases hgone.symm.trans ht'
    · cases htask.symm.trans ht'
      exact hcode
  · intro t' ht'
    rw [if_neg hlua]
    rcases dispatch_exit t val with ⟨hgone, -⟩ | ⟨t'', htask, -, hzero, -⟩
    · cases hgone.symm.trans ht'
    · cases htask.symm.trans ht'
      exact hzero

/-! ## Steps -/

theorem Follows.message {m : ParentMessage w} (h : a.Follows thread s) (hthread : thread ≠ 0)
    (hallowed : s.Undisturbed (.message id m)) (hstep : s.step thread (.message id m) = some s') :
    ∃ a', (s.events thread (.message id m)).foldlM accept a = some a' ∧ a'.Follows thread s' := by
  obtain ⟨⟨c', sent⟩, hr, rfl⟩ := Option.map_eq_some_iff.mp hstep
  obtain ⟨c, hc, hm⟩ := Option.bind_eq_some_iff.mp hr
  have hcall := h.calls id c hc
  simp only [Tasks.events, hr]
  by_cases hexit : m.isExit = true
  · cases m with
    | otherLabel | otherOpcode => cases hexit
    | signal sig val =>
      obtain rfl : sig = 0 := of_decide_eq_true hexit
      have hpc := hallowed rfl c hc
      have hnone : a.exits id = none := by
        obtain ⟨task, pc, userdata, program⟩ := c
        obtain _ | t := task
        · cases hm
        simp only [ExecCall.message, Option.ite_none_right_eq_some] at hm
        obtain ⟨⟨rfl, -⟩, -⟩ := hm
        rw [← Option.not_isSome_iff_eq_none, ← hcall.exited]
        exact AppProgress.noConfusion
      -- Only Lua's thread can be the observer that the exit wakes.
      by_cases hlua : s.lua = .waits id
      · rw [hlua] at hcall
        obtain ⟨rfl, hc'⟩ := hcall.exit_awaited hthread hpc hm
        have hwaiter := h.waiter
        rw [hlua, LuaThread.waiter] at hwaiter
        refine ⟨{ a with exits := Function.update a.exits id (some val), waiter := some (id, true) }, ?_, ?_⟩
        · simp [ParentMessage.events, accept, hnone, hwaiter]
        · simp only [hlua, if_pos, LuaThread.wake]
          refine h.update rfl hc' (fun i hi => ?_) (fun i hi => ?_) (fun i hi => Function.update_of_ne hi _ _)
            (fun _ _ => rfl) rfl
          · simp [hlua, Ne.symm hi]
          · simp [hlua, Ne.symm hi]
      · obtain ⟨rfl, hc'⟩ := hcall.exit_other hlua hpc hm
        refine ⟨{ a with exits := Function.update a.exits id (some val) }, ?_, ?_⟩
        · simp [ParentMessage.events, accept, hnone]
        · exact h.update rfl hc' (fun _ _ => Iff.rfl) (fun _ _ => Iff.rfl) (fun i hi => Function.update_of_ne hi _ _)
            (fun _ _ => rfl) h.waiter
  · obtain ⟨rfl, rfl, hevents⟩ := message_of_not_isExit id hexit hm
    rw [hevents]
    exact ⟨a, rfl, h.quiet rfl rfl hcall⟩

theorem Matches.observed_exited {t : AppTask w} (h : a.Matches thread .runs id c) (huser : c.userdata = some true)
    (htask : c.task = some t) (hzombie : t.state = .zombie) :
    Matches thread (.answered id) { a with waiter := some (id, true) } id c := by
  have hexited := (h.kept.state t htask).mp hzombie
  refine ⟨h.kept, h.exited, h.code, ?_, fun hwaits => LuaThread.noConfusion hwaits, fun _ => ⟨huser, hexited⟩, h.ended⟩
  intro t' ht'
  exact (h.observer t' ht').trans rfl

/-- The observer keeps Lua's thread waiting where the program has not exited. -/
theorem Matches.observed_running {t : AppTask w} (h : a.Matches thread .runs id c) (huser : c.userdata = some true)
    (htask : c.task = some t) (hpc : c.pc = .returned) (hrunning : t.state ≠ .zombie)
    (hkept : ExecCall.Kept { c with task := some { t with observer := thread } }) :
    Matches thread (.waits id) { a with waiter := some (id, false) } id
      { c with task := some { t with observer := thread } } := by
  have hprogram : c.program = .started := by
    obtain ⟨task, pc, userdata, program⟩ := c
    obtain rfl : pc = .returned := hpc
    cases h.kept.phase with
    | returned hp => exact hp.resolve_right fun hexited => hrunning ((h.kept.state t htask).mpr hexited)
  refine ⟨hkept, h.exited, ?_, ?_, fun _ => ⟨huser, hprogram⟩,
    fun hanswered => LuaThread.noConfusion hanswered, h.ended⟩
  · intro t' val ht' hval
    cases ht'
    exact h.code t val htask hval
  · intro t' ht'
    cases ht'
    exact (if_pos rfl).symm

theorem Follows.wait (h : a.Follows thread s) (hallowed : s.Undisturbed (.wait id))
    (hstep : s.step thread (.wait id) = some s') :
    ∃ a', (s.events thread (.wait id)).foldlM accept a = some a' ∧ a'.Follows thread s' := by
  simp only [Tasks.step, Option.ite_none_right_eq_some] at hstep
  obtain ⟨hlua, hstep⟩ := hstep
  obtain ⟨⟨c', ret⟩, hr, rfl⟩ := Option.map_eq_some_iff.mp hstep
  obtain ⟨c, hc, hw⟩ := Option.bind_eq_some_iff.mp hr
  have hcall := h.calls id c hc
  have hkept := hcall.kept.wait hw
  have hpc := hallowed c hc
  have hwaiter := h.waiter
  rw [hlua, LuaThread.waiter] at hwaiter
  simp only [Tasks.events, hr]
  unfold ExecCall.wait at hw
  split at hw
  · next huser =>
    -- A wait for this program, or a kill, has returned before.
    cases hw
    have hended := hcall.ended.mp huser
    refine ⟨a, ?_, h.quiet rfl rfl hcall⟩
    simp [accept, hwaiter, hended]
  · next t huser htask =>
    have hended : a.ended id = false := by
      rw [← Bool.not_eq_true, ← hcall.ended, huser]
      simp
    rw [hlua] at hcall
    -- The wait is answered at once exactly if the program has signalled its exit.
    by_cases hzombie : t.state = .zombie
    · have hobserve : t.observe thread = ⟨some t, none, 0⟩ := if_pos hzombie
      have hc' := hcall.observed_exited huser htask hzombie
      rw [hobserve, ← htask] at hw
      cases hw
      have hexited := hcall.exited.mp ((hcall.kept.state t htask).mp hzombie)
      refine ⟨{ a with waiter := some (id, true) }, ?_, ?_⟩
      · simp [accept, hwaiter, hended, hexited]
      · refine h.update rfl hc' (fun i hi => ?_) (fun i hi => ?_) (fun _ _ => rfl) (fun _ _ => rfl) rfl
        · simp [hlua]
        · simp [hlua, Ne.symm hi]
    · have hobserve : t.observe thread = ⟨some { t with observer := thread }, none, -l4Enoreply⟩ := if_neg hzombie
      rw [hobserve] at hw
      cases hw
      have hc' := hcall.observed_running huser htask hpc hzombie hkept
      have hlater : ¬-l4Enoreply = 0 := by decide
      refine ⟨{ a with waiter := some (id, false) }, ?_, ?_⟩
      · simp only [if_neg hlater]
        simp [accept, hwaiter, hended]
      · simp only [if_neg hlater]
        refine h.update rfl hc' (fun i hi => ?_) (fun i hi => ?_) (fun _ _ => rfl) (fun _ _ => rfl) rfl
        · simp [hlua, Ne.symm hi]
        · simp [hlua]
  · cases hw

/-- The handle is zapped when the wait returns. -/
theorem Matches.zapped {t : AppTask w} (h : a.Matches thread (.answered id) id c) (htask : c.task = some t)
    (hkept : ExecCall.Kept { c with task := t.removeRef, userdata := some false }) :
    Matches thread .runs { a with waiter := none, ended := Function.update a.ended id true } id
      { c with task := t.removeRef, userdata := some false } where
  kept := hkept
  exited := h.exited
  code t' val ht' hval := by
    rw [(removeRef_fields ht').2]
    exact h.code t val htask hval
  observer t' ht' := by
    rw [(removeRef_fields ht').1, h.observer t htask]
    rfl
  waiting hwaits := by cases hwaits
  answered hanswered := by cases hanswered
  ended := by simp

theorem Follows.waited (h : a.Follows thread s) (hstep : s.step thread (.waited id) = some s') :
    ∃ a', (s.events thread (.waited id)).foldlM accept a = some a' ∧ a'.Follows thread s' := by
  simp only [Tasks.step, Option.ite_none_right_eq_some] at hstep
  obtain ⟨hlua, hstep⟩ := hstep
  obtain ⟨⟨c', r⟩, hr, rfl⟩ := Option.map_eq_some_iff.mp hstep
  obtain ⟨c, hc, hw⟩ := Option.bind_eq_some_iff.mp hr
  have hcall := h.calls id c hc
  have hkept := hcall.kept.waited hw
  have hwaiter := h.waiter
  rw [hlua, LuaThread.waiter] at hwaiter
  rw [hlua] at hcall
  obtain ⟨val, hval⟩ := Option.isSome_iff_exists.mp (hcall.exited.mp (hcall.answered rfl).2)
  simp only [Tasks.events, hr]
  unfold ExecCall.waited at hw
  split at hw
  on_goal 2 => cases hw
  next t _ htask =>
  obtain ⟨c'', hzap, heq⟩ := Option.map_eq_some_iff.mp hw
  cases heq
  have hcode := hcall.code t val htask hval
  obtain ⟨t', ht', rfl⟩ := ExecCall.drop_cases hzap
  obtain rfl : t' = t := Option.some.inj (ht'.symm.trans htask)
  refine ⟨{ a with waiter := none, ended := Function.update a.ended id true }, ?_, ?_⟩
  · simp [accept, hwaiter, hval, hcode]
  · refine h.update rfl (hcall.zapped htask hkept) (fun i hi => ?_) (fun i hi => ?_) (fun _ _ => rfl)
      (fun i hi => Function.update_of_ne hi _ _) rfl
    · simp [hlua]
    · simp [hlua, Ne.symm hi]

theorem Follows.step {action : TaskAction w} (h : a.Follows thread s) (hthread : thread ≠ 0)
    (hallowed : s.Undisturbed action) (hstep : s.step thread action = some s') :
    ∃ a', (s.events thread action).foldlM accept a = some a' ∧ a'.Follows thread s' := by
  have hexec {i : Nat} {f : ExecCall w → Option (ExecCall w)} (hf : s.onCall i f = some s')
      (hcall : ∀ c c', f c = some c' → ExecCall.Step thread action c c')
      (hkind : (∃ i, action = .launch i) ∨ (∃ i, action = .fail i) ∨ (∃ i, action = .running i) ∨
        (∃ i, action = .store i) ∨
        ∃ i, action = .ret i) : a.Follows thread s' := by
    unfold Tasks.onCall at hf
    split at hf
    · next hlua =>
      obtain ⟨c', hbind, rfl⟩ := Option.map_eq_some_iff.mp hf
      obtain ⟨c, hc, hfc⟩ := Option.bind_eq_some_iff.mp hbind
      have hmatches := h.calls i c hc
      rw [hlua] at hmatches
      refine h.quiet rfl rfl ?_
      rw [hlua]
      exact hmatches.exec (hcall c c' hfc) hkind
    · cases hf
  cases action with
  | create i exitCode =>
    simp only [Tasks.step, Option.ite_none_right_eq_some, Option.some.injEq] at hstep
    obtain ⟨⟨hlua, hnone⟩, rfl⟩ := hstep
    obtain ⟨hexits, hended, -, -⟩ := h.absent i (Option.isNone_iff_eq_none.mp hnone)
    refine ⟨a, rfl, h.quiet rfl rfl ?_⟩
    rw [hlua]
    refine ⟨.create exitCode, by simp [ExecCall.create, hexits], ?_, ?_, fun hwaits => LuaThread.noConfusion hwaits,
      fun hanswered => LuaThread.noConfusion hanswered, by simp [ExecCall.create, hended]⟩
    · intro t val _ hval
      cases hexits.symm.trans hval
    · intro t ht
      cases ht
      rfl
  | launch i => exact ⟨a, rfl, hexec hstep (fun _ _ => .launch) (by simp)⟩
  | fail i => exact ⟨a, rfl, hexec hstep (fun _ _ => .fail) (by simp)⟩
  | running i => exact ⟨a, rfl, hexec hstep (fun _ _ => .running) (by simp)⟩
  | store i => exact ⟨a, rfl, hexec hstep (fun _ _ => .store) (by simp)⟩
  | ret i => exact ⟨a, rfl, hexec hstep (fun _ _ => .ret) (by simp)⟩
  | message i m => exact h.message hthread hallowed hstep
  | wait i => exact h.wait hallowed hstep
  | waited i => exact h.waited hstep
  | kill i => exact hallowed.elim
  | gc i => exact hallowed.elim

theorem Follows.zombie {t : AppTask w} (h : a.Follows thread s) (hc : s.calls id = some c) (ht : c.task = some t)
    (hzombie : t.state = .zombie) : t.observer = 0 := by
  have hcall := h.calls id c hc
  have hexited := (hcall.kept.state t ht).mp hzombie
  have hlua : s.lua ≠ .waits id := fun hwaits => by
    have hstarted := (hcall.waiting hwaits).2
    rw [hexited] at hstarted
    cases hstarted
  rw [hcall.observer t ht, if_neg hlua]

end

end Waiting

end Dom0
