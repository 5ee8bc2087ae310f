import Dom0.Lib.Runs
import Dom0.Ned.AppTask

/-! Who holds an `App_task`. The local of `exec`, the userdata and the running program hold a reference each, but the
program takes its own only in `running()`, which may come after its exit, and `kill` does not give it back: tasks are
kept and freed as they should be where neither happens. -/

namespace Dom0

/-! ## What is asked -/

section
variable {w : Word}

/-- The local `app_task` of `exec`, up to its end. -/
def ExecCall.appTask (c : ExecCall w) : Bool :=
  match c.pc with
  | .created | .launched | .ran | .stored => true
  | .returned | .failed => false

/-- An `App_ptr` refers to the object. -/
def ExecCall.Referred (c : ExecCall w) : Prop := c.appTask = true ∨ c.userdata = some true

/-- The program has exited, or has been killed. -/
def ExecCall.Ended (c : ExecCall w) : Prop := c.program = .exited ∨ c.program = .killed

/-- An object that is referred to is there; one that is not, and whose program has ended, is deleted. -/
structure ExecCall.Sound (c : ExecCall w) : Prop where
  kept : c.Referred → c.task ≠ none
  freed : ¬c.Referred → c.Ended → c.task = none

def Tasks.Sound (s : Tasks w) : Prop := ∀ id c, s.calls id = some c → c.Sound

/-- No exit is handled between `launch` and `running()`, and no program is killed that has not exited. -/
def ExecCall.Orderly (c : ExecCall w) : TaskAction w → Prop
  | .message _ m => m.isExit = true → c.pc ≠ .launched
  | .kill _ => c.userdata = some true → c.program = .exited
  | _ => True

def TaskAction.id : TaskAction w → Nat
  | .create id _ | .launch id | .fail id | .running id | .store id | .ret id | .message id _ | .wait id | .waited id
  | .kill id | .gc id => id

def Tasks.Orderly (s : Tasks w) (a : TaskAction w) : Prop := ∀ c, s.calls a.id = some c → c.Orderly a

end

/-! ## One call of `exec` -/

section
variable {w : Word}

/-- Everything that a step does to a call. -/
inductive ExecCall.Step (thread : ULong w) : TaskAction w → ExecCall w → ExecCall w → Prop
  | launch {id : Nat} {c c' : ExecCall w} (h : c.launch = some c') : Step thread (.launch id) c c'
  | fail {id : Nat} {c c' : ExecCall w} (h : c.fail = some c') : Step thread (.fail id) c c'
  | running {id : Nat} {c c' : ExecCall w} (h : c.running = some c') : Step thread (.running id) c c'
  | store {id : Nat} {c c' : ExecCall w} (h : c.store = some c') : Step thread (.store id) c c'
  | ret {id : Nat} {c c' : ExecCall w} (h : c.ret = some c') : Step thread (.ret id) c c'
  | message {id : Nat} {m : ParentMessage w} {c c' : ExecCall w} {sent : Option (ULong w)}
      (h : c.message m = some (c', sent)) :
      Step thread (.message id m) c c'
  | wait {id : Nat} {c c' : ExecCall w} {ret : Option CInt} (h : c.wait thread = some (c', ret)) :
      Step thread (.wait id) c c'
  | waited {id : Nat} {c c' : ExecCall w} {r : TaskResult w} (h : c.waited = some (c', r)) :
      Step thread (.waited id) c c'
  | kill {id : Nat} {c c' : ExecCall w} {r : TaskResult w} (h : c.kill = some (c', r)) : Step thread (.kill id) c c'
  | gc {id : Nat} {c c' : ExecCall w} (h : c.gc = some c') : Step thread (.gc id) c c'

variable {thread : ULong w} {s s' : Tasks w} {a : TaskAction w}

theorem Tasks.onCall_cases {id : Nat} {f : ExecCall w → Option (ExecCall w)} (h : s.onCall id f = some s') :
    ∃ c c', s.calls id = some c ∧ f c = some c' ∧ s'.calls = Function.update s.calls id (some c') := by
  unfold Tasks.onCall at h
  split at h
  · obtain ⟨c', hc', rfl⟩ := Option.map_eq_some_iff.mp h
    obtain ⟨c, hc, hf⟩ := Option.bind_eq_some_iff.mp hc'
    exact ⟨c, c', hc, hf, rfl⟩
  · cases h

/-- A step makes a call, or changes one. -/
theorem Tasks.step_cases (h : s.step thread a = some s') :
    ∃ c', s'.calls = Function.update s.calls a.id (some c') ∧
      ((∃ exitCode, s.calls a.id = none ∧ c' = .create exitCode) ∨ ∃ c, s.calls a.id = some c ∧
      ExecCall.Step thread a c c') := by
  have hcall {id : Nat} {f : ExecCall w → Option (ExecCall w)} (hf : s.onCall id f = some s')
      (hstep : ∀ c c', f c = some c' → ExecCall.Step thread a c c') (hid : a.id = id) :
      ∃ c', s'.calls = Function.update s.calls a.id (some c') ∧
        ((∃ exitCode, s.calls a.id = none ∧ c' = .create exitCode) ∨
          ∃ c, s.calls a.id = some c ∧ ExecCall.Step thread a c c') := by
    obtain ⟨c, c', hc, hfc, hs'⟩ := onCall_cases hf
    rw [hid]
    exact ⟨c', hs', Or.inr ⟨c, hc, hstep c c' hfc⟩⟩
  cases a with
  | create id exitCode =>
    simp only [step, Option.ite_none_right_eq_some, Option.some.injEq] at h
    obtain ⟨⟨-, hnone⟩, rfl⟩ := h
    exact ⟨_, rfl, Or.inl ⟨exitCode, Option.isNone_iff_eq_none.mp hnone, rfl⟩⟩
  | launch id => exact hcall h (fun _ _ hf => .launch hf) rfl
  | fail id => exact hcall h (fun _ _ hf => .fail hf) rfl
  | running id => exact hcall h (fun _ _ hf => .running hf) rfl
  | store id => exact hcall h (fun _ _ hf => .store hf) rfl
  | ret id => exact hcall h (fun _ _ hf => .ret hf) rfl
  | gc id => exact hcall h (fun _ _ hf => .gc hf) rfl
  | message id m =>
    obtain ⟨⟨c', sent⟩, hr, rfl⟩ := Option.map_eq_some_iff.mp h
    obtain ⟨c, hc, hm⟩ := Option.bind_eq_some_iff.mp hr
    exact ⟨c', rfl, Or.inr ⟨c, hc, .message hm⟩⟩
  | wait id =>
    simp only [step, Option.ite_none_right_eq_some] at h
    obtain ⟨⟨c', ret⟩, hr, rfl⟩ := Option.map_eq_some_iff.mp h.2
    obtain ⟨c, hc, hm⟩ := Option.bind_eq_some_iff.mp hr
    refine ⟨c', ?_, Or.inr ⟨c, hc, .wait hm⟩⟩
    cases ret <;> rfl
  | waited id =>
    simp only [step, Option.ite_none_right_eq_some] at h
    obtain ⟨⟨c', r⟩, hr, rfl⟩ := Option.map_eq_some_iff.mp h.2
    obtain ⟨c, hc, hm⟩ := Option.bind_eq_some_iff.mp hr
    exact ⟨c', rfl, Or.inr ⟨c, hc, .waited hm⟩⟩
  | kill id =>
    simp only [step, Option.ite_none_right_eq_some] at h
    obtain ⟨⟨c', r⟩, hr, rfl⟩ := Option.map_eq_some_iff.mp h.2
    obtain ⟨c, hc, hm⟩ := Option.bind_eq_some_iff.mp hr
    exact ⟨c', rfl, Or.inr ⟨c, hc, .kill hm⟩⟩

end

/-! ## Who counts -/

/-- Those that `_ref_cnt` counts. -/
inductive Holder
  | appTask
  | userdata
  | program
deriving DecidableEq

instance : Fintype Holder := ⟨{.appTask, .userdata, .program}, fun i => by cases i <;> decide⟩

section
variable {w : Word}

/-- The program counts from `running()` on, until its exit is handled. -/
def ExecCall.counts (c : ExecCall w) : Holder → Bool
  | .appTask => c.appTask
  | .userdata => c.userdata = some true
  | .program => (c.pc = .ran ∨ c.pc = .stored ∨ c.pc = .returned) ∧ c.program = .started

def ExecCall.holders (c : ExecCall w) : Finset Holder := Finset.univ.filter (c.counts · = true)

/-- The count of the object, while it is there. -/
def ExecCall.count (c : ExecCall w) : Option Int := c.task.map AppTask.refCnt

/-- How far `exec` and the program are. -/
inductive ExecCall.Phase : ExecPc → Option Bool → AppProgress → Prop
  | created : Phase .created none .absent
  | launched : Phase .launched none .started
  | ran {program : AppProgress} (hp : program = .started ∨ program = .exited) : Phase .ran none program
  | stored {b : Bool} {program : AppProgress} (hp : program = .started ∨ program = .exited) :
      Phase .stored (some b) program
  | returned {b : Bool} {program : AppProgress} (hp : program = .started ∨ program = .exited) :
      Phase .returned (some b) program
  | failed : Phase .failed none .absent

/-- The invariant of an orderly run. -/
structure ExecCall.Kept (c : ExecCall w) : Prop where
  balanced : Refs.Balanced c.holders c.count
  phase : Phase c.pc c.userdata c.program
  state : ∀ t, c.task = some t → (t.state = .zombie ↔ c.program = .exited)

end

namespace ExecCall
variable {w : Word} {c c' : ExecCall w} {t : AppTask w} {thread : ULong w} {a : TaskAction w} {i : Holder}

theorem mem_holders : i ∈ c.holders ↔ c.counts i = true := by simp [holders]

theorem holders_insert (h : ∀ j, c'.counts j = true ↔ j = i ∨ c.counts j = true) : c'.holders = insert i c.holders := by
  ext j
  rw [Finset.mem_insert, mem_holders, mem_holders, h]

theorem holders_erase (h : ∀ j, c'.counts j = true ↔ j ≠ i ∧ c.counts j = true) : c'.holders = c.holders.erase i := by
  ext j
  rw [Finset.mem_erase, mem_holders, mem_holders, h]

theorem refCnt_removeRef (t : AppTask w) : t.removeRef.map AppTask.refCnt = Refs.drop (some t.refCnt) := by
  simp only [AppTask.removeRef, Refs.drop, Option.bind_some]
  split <;> rfl

theorem drop_cases (h : c.drop = some c') : ∃ t, c.task = some t ∧ c' = { c with task := t.removeRef } := by
  obtain ⟨t, ht, rfl⟩ := Option.map_eq_some_iff.mp h
  exact ⟨t, ht, rfl⟩

theorem Kept.balanced_drop (h : Kept c) (hi : c.counts i = true) (hcount : c'.count = Refs.drop c.count)
    (hcounts : ∀ j, c'.counts j = true ↔ j ≠ i ∧ c.counts j = true) : Refs.Balanced c'.holders c'.count := by
  rw [holders_erase hcounts, hcount]
  exact h.balanced.drop (mem_holders.mpr hi)

theorem Kept.balanced_take (h : Kept c) {j : Holder} (hj : c.counts j = true) (hi : ¬c.counts i = true)
    (hcount : c'.count = Refs.take c.count) (hcounts : ∀ j, c'.counts j = true ↔ j = i ∨ c.counts j = true) :
    Refs.Balanced c'.holders c'.count := by
  rw [holders_insert hcounts, hcount]
  exact h.balanced.take (Finset.ne_empty_of_mem (mem_holders.mpr hj)) fun hmem => hi (mem_holders.mp hmem)

theorem Kept.create (exitCode : ULong w) : Kept (create exitCode) where
  balanced := by
    have hholders : (ExecCall.create exitCode).holders = {Holder.appTask} := by
      ext j
      rw [Finset.mem_singleton, mem_holders]
      cases j <;> simp [counts, ExecCall.create, appTask]
    rw [hholders]
    exact .new _
  phase := .created
  state := fun _ ht => by cases ht; simp [ExecCall.create, AppTask.new, AppTask.addRef]

theorem Kept.launch (h : Kept c) (hstep : c.launch = some c') : Kept c' := by
  obtain ⟨task, pc, userdata, program⟩ := c
  obtain ⟨hbalanced, hphase, hstate⟩ := h
  cases hphase with
  | created =>
    cases hstep
    have hholders : (⟨task, .launched, none, .started⟩ : ExecCall w).holders =
        holders ⟨task, .created, none, .absent⟩ := by
      ext j
      rw [mem_holders, mem_holders]
      cases j <;> simp [counts, appTask]
    exact ⟨by rw [hholders]; exact hbalanced, .launched, fun t ht => by simpa using hstate t ht⟩
  | launched | ran | stored | returned | failed => cases hstep

theorem state_removeRef {t' : AppTask w} (h : t.removeRef = some t') : t'.state = t.state := by
  unfold AppTask.removeRef at h
  split at h
  · cases h
  · cases h
    rfl

theorem Kept.state_drop (h : Kept c) (ht : c.task = some t) (hprogram : c'.program = c.program)
    (ht' : c'.task = t.removeRef) : ∀ t', c'.task = some t' → (t'.state = .zombie ↔ c'.program = .exited) := by
  intro t' h'
  rw [state_removeRef (ht'.symm.trans h'), hprogram]
  exact h.state t ht

theorem Kept.fail (h : Kept c) (hstep : c.fail = some c') : Kept c' := by
  obtain ⟨task, pc, userdata, program⟩ := c
  cases h.phase with
  | created =>
    obtain ⟨t, rfl, rfl⟩ := drop_cases hstep
    refine ⟨h.balanced_drop (i := .appTask) rfl (refCnt_removeRef t) fun j => ?_, .failed, h.state_drop rfl rfl rfl⟩
    cases j <;> simp [counts, appTask]
  | launched | ran | stored | returned | failed => cases hstep

theorem Kept.running (h : Kept c) (hstep : c.running = some c') : Kept c' := by
  obtain ⟨task, pc, userdata, program⟩ := c
  cases h.phase with
  | launched =>
    obtain ⟨t, rfl, rfl⟩ := Option.map_eq_some_iff.mp hstep
    refine ⟨h.balanced_take (i := .program) (j := .appTask) rfl (by simp [counts]) rfl fun j => ?_,
      .ran (Or.inl rfl), fun t' ht' => ?_⟩
    · cases j <;> simp [counts, appTask]
    · cases ht'
      simp [AppTask.running, AppTask.addRef]
  | created | ran | stored | returned | failed => cases hstep

theorem Kept.store (h : Kept c) (hstep : c.store = some c') : Kept c' := by
  obtain ⟨task, pc, userdata, program⟩ := c
  cases h.phase with
  | ran hp =>
    obtain ⟨t, rfl, rfl⟩ := Option.map_eq_some_iff.mp hstep
    refine ⟨h.balanced_take (i := .userdata) (j := .appTask) rfl (by simp [counts]) rfl fun j => ?_, .stored hp,
      fun t' ht' => ?_⟩
    · cases j <;> simp [counts, appTask]
    · cases ht'
      exact h.state t rfl
  | created | launched | stored | returned | failed => cases hstep

theorem Kept.ret (h : Kept c) (hstep : c.ret = some c') : Kept c' := by
  obtain ⟨task, pc, userdata, program⟩ := c
  cases h.phase with
  | stored hp =>
    obtain ⟨t, rfl, rfl⟩ := drop_cases hstep
    refine ⟨h.balanced_drop (i := .appTask) rfl (refCnt_removeRef t) fun j => ?_, .returned hp,
      h.state_drop rfl rfl rfl⟩
    cases j <;> simp [counts, appTask]
  | created | launched | ran | returned | failed => cases hstep

theorem Kept.zap (h : Kept c) (huser : c.userdata = some true) (hstep : c.zap = some c') : Kept c' := by
  obtain ⟨task, pc, userdata, program⟩ := c
  obtain ⟨t, rfl, rfl⟩ := drop_cases hstep
  obtain rfl : userdata = some true := huser
  refine ⟨h.balanced_drop (i := .userdata) rfl (refCnt_removeRef t) fun j => ?_, ?_, h.state_drop rfl rfl rfl⟩
  · cases j <;> simp [counts, appTask]
  · cases h.phase with
    | stored hp => exact .stored hp
    | returned hp => exact .returned hp

theorem dispatch_task_of_not_isExit {m : ParentMessage w} (hm : ¬m.isExit = true) : (t.dispatch m).task = some t := by
  cases m with
  | otherLabel | otherOpcode => rfl
  | signal sig val =>
    have hsig : sig ≠ 0 := fun hzero => hm (decide_eq_true hzero)
    rw [AppTask.dispatch, if_neg hsig]

/-- The handler of the exit drops the reference of the program. -/
theorem refCnt_dispatch {m : ParentMessage w} (hm : m.isExit = true) :
    (t.dispatch m).task.map AppTask.refCnt = Refs.drop (some t.refCnt) := by
  cases m with
  | otherLabel | otherOpcode => cases hm
  | signal sig val =>
    have hdrop : (AppTask.terminate { t with state := .zombie, exitCode := val }).removeRef.map AppTask.refCnt =
        Refs.drop (some t.refCnt) := refCnt_removeRef _
    rw [AppTask.dispatch, if_pos (of_decide_eq_true hm), ← hdrop]
    split
    · next hgone => rw [hgone]
    · next t' hleft =>
      rw [hleft]
      split <;> rfl

theorem state_dispatch {m : ParentMessage w} {t' : AppTask w} (hm : m.isExit = true)
    (h : (t.dispatch m).task = some t') :
    t'.state = .zombie := by
  cases m with
  | otherLabel | otherOpcode => cases hm
  | signal sig val =>
    rw [AppTask.dispatch, if_pos (of_decide_eq_true hm)] at h
    split at h
    · cases h
    · next t'' hleft =>
      have hstate : t''.state = .zombie := state_removeRef hleft
      split at h <;> cases h <;> exact hstate

theorem Kept.message {m : ParentMessage w} {sent : Option (ULong w)} (h : Kept c)
    (horderly : m.isExit = true → c.pc ≠ .launched) (hstep : c.message m = some (c', sent)) : Kept c' := by
  obtain ⟨task, pc, userdata, program⟩ := c
  obtain _ | t := task
  · cases hstep
  simp only [ExecCall.message, Option.ite_none_right_eq_some, Option.some.injEq, Prod.mk.injEq] at hstep
  obtain ⟨⟨rfl, -⟩, rfl, -⟩ := hstep
  by_cases hm : m.isExit = true
  · have hphase : (pc = .ran ∨ pc = .stored ∨ pc = .returned) ∧ Phase pc userdata .exited := by
      cases h.phase with
      | launched => exact absurd rfl (horderly hm)
      | ran => exact ⟨Or.inl rfl, .ran (Or.inr rfl)⟩
      | stored => exact ⟨Or.inr (Or.inl rfl), .stored (Or.inr rfl)⟩
      | returned => exact ⟨Or.inr (Or.inr rfl), .returned (Or.inr rfl)⟩
    rw [if_pos hm]
    refine ⟨h.balanced_drop (i := .program) (by simp [counts, hphase.1]) (refCnt_dispatch hm) fun j => ?_, hphase.2,
      fun t' ht' => ?_⟩
    · cases j <;> simp [counts, appTask]
    · simp [state_dispatch hm ht']
  · rw [if_neg hm, dispatch_task_of_not_isExit hm]
    exact h

theorem observe_task (t : AppTask w) (thread : ULong w) :
    ∃ t', (t.observe thread).task = some t' ∧ t'.refCnt = t.refCnt ∧ t'.state = t.state := by
  unfold AppTask.observe
  split
  · exact ⟨t, rfl, rfl, rfl⟩
  · exact ⟨{ t with observer := thread }, rfl, rfl, rfl⟩

theorem Kept.wait {ret : Option CInt} (h : Kept c) (hstep : c.wait thread = some (c', ret)) : Kept c' := by
  obtain ⟨task, pc, userdata, program⟩ := c
  unfold ExecCall.wait at hstep
  split at hstep
  · cases hstep
    exact h
  · next t huser htask =>
    cases hstep
    obtain rfl : task = some t := htask
    obtain ⟨t', htask', hcnt, hstate⟩ := observe_task t thread
    have hcount : (⟨some t', pc, userdata, program⟩ : ExecCall w).count = count ⟨some t, pc, userdata, program⟩ := by
      rw [count, count, Option.map_some, Option.map_some, hcnt]
    have hbalanced := h.balanced
    rw [← hcount] at hbalanced
    simp only [htask']
    refine ⟨hbalanced, h.phase, fun t'' ht'' => ?_⟩
    cases ht''
    rw [hstate]
    exact h.state t rfl
  · cases hstep

theorem Kept.waited {r : TaskResult w} (h : Kept c) (hstep : c.waited = some (c', r)) : Kept c' := by
  unfold ExecCall.waited at hstep
  split at hstep
  · next t huser htask =>
    obtain ⟨c'', hzap, heq⟩ := Option.map_eq_some_iff.mp hstep
    cases heq
    exact h.zap huser hzap
  · cases hstep

theorem Kept.kill {r : TaskResult w} (h : Kept c)
    (horderly : c.userdata = some true → c.program = .exited) (hstep : c.kill = some (c', r)) : Kept c' := by
  unfold ExecCall.kill at hstep
  split at hstep
  · cases hstep
    exact h
  · next t huser htask =>
    rw [if_pos ((h.state t htask).mpr (horderly huser))] at hstep
    obtain ⟨c'', hzap, heq⟩ := Option.map_eq_some_iff.mp hstep
    cases heq
    exact h.zap huser hzap
  · cases hstep

theorem Kept.gc (h : Kept c) (hstep : c.gc = some c') : Kept c' := by
  unfold ExecCall.gc at hstep
  split at hstep
  · next huser => exact h.zap huser hstep
  · cases hstep
    exact h
  · cases hstep

theorem Kept.step (h : Kept c) (horderly : c.Orderly a) (hstep : Step thread a c c') : Kept c' := by
  cases hstep with
  | launch hstep => exact h.launch hstep
  | fail hstep => exact h.fail hstep
  | running hstep => exact h.running hstep
  | store hstep => exact h.store hstep
  | ret hstep => exact h.ret hstep
  | message hstep => exact h.message horderly hstep
  | wait hstep => exact h.wait hstep
  | waited hstep => exact h.waited hstep
  | kill hstep => exact h.kill horderly hstep
  | gc hstep => exact h.gc hstep

/-- An exit before `running()` deletes the object under the local of `exec`. -/
theorem Kept.not_sound_message {m : ParentMessage w} {sent : Option (ULong w)} (h : Kept c) (hm : m.isExit = true)
    (hpc : c.pc = .launched) (hstep : c.message m = some (c', sent)) : ¬c'.Sound := by
  obtain ⟨task, pc, userdata, program⟩ := c
  obtain _ | t := task
  · cases hstep
  obtain rfl : pc = .launched := hpc
  simp only [ExecCall.message, Option.ite_none_right_eq_some, Option.some.injEq, Prod.mk.injEq] at hstep
  obtain ⟨-, rfl, -⟩ := hstep
  have honly : (⟨some t, .launched, userdata, program⟩ : ExecCall w).holders = {Holder.appTask} := by
    ext j
    rw [Finset.mem_singleton, mem_holders]
    cases h.phase
    cases j <;> simp [counts, appTask]
  have hcnt : some t.refCnt = some (1 : Int) := by
    have hcount := h.balanced.of_mem (i := Holder.appTask) (by rw [honly]; exact Finset.mem_singleton_self _)
    rwa [honly, Finset.card_singleton] at hcount
  have hgone : (t.dispatch m).task.map AppTask.refCnt = none := by
    rw [refCnt_dispatch hm, hcnt]
    rfl
  exact fun hsound => hsound.kept (Or.inl rfl) (Option.map_eq_none_iff.mp hgone)

/-- The reference of a running program outlives its `kill`, after which nobody drops it. -/
theorem Kept.not_sound_kill {r : TaskResult w} (h : Kept c) (huser : c.userdata = some true)
    (hprogram : c.program ≠ .exited)
    (hstep : c.kill = some (c', r)) : ¬c'.Sound ∨ c'.pc = .stored ∧ ∀ c'', c'.ret = some c'' → ¬c''.Sound := by
  obtain ⟨task, pc, userdata, program⟩ := c
  obtain rfl : userdata = some true := huser
  obtain _ | t := task
  · cases hstep
  have hrunning : t.state ≠ .zombie := fun hzombie => hprogram ((h.state t rfl).mp hzombie)
  simp only [ExecCall.kill, if_neg hrunning] at hstep
  obtain ⟨c₁, hzap, heq⟩ := Option.map_eq_some_iff.mp hstep
  cases heq
  obtain ⟨t', ht', rfl⟩ := drop_cases hzap
  cases ht'
  have hdrop : (t.terminate.removeRef).map AppTask.refCnt = Refs.drop (some t.refCnt) := refCnt_removeRef _
  cases h.phase with
  | returned hp =>
    obtain rfl : program = .started := hp.resolve_right hprogram
    refine Or.inl fun hsound => ?_
    have hleft := (h.balanced.drop (i := .userdata) (by simp [holders, counts])).of_mem (i := .program)
      (by simp [holders, counts])
    have hnone : t.terminate.removeRef = none := hsound.freed (by simp [Referred, appTask]) (Or.inr rfl)
    rw [hnone] at hdrop
    exact absurd (hdrop.trans hleft) (by simp)
  | stored hp =>
    obtain rfl : program = .started := hp.resolve_right hprogram
    refine Or.inr ⟨rfl, fun c'' hret hsound => ?_⟩
    obtain ⟨t'', ht'', rfl⟩ := drop_cases hret
    have hlater : t.terminate.removeRef = some t'' := ht''
    have hleft := ((h.balanced.drop (i := .userdata) (by simp [holders, counts])).drop (i := .appTask)
      (by simp [holders, counts, appTask])).of_mem (i := .program) (by simp [holders, counts])
    have hnone : t''.removeRef = none := hsound.freed (by simp [Referred, appTask]) (Or.inr rfl)
    have hlast := refCnt_removeRef t''
    rw [hnone] at hlast
    rw [hlater] at hdrop
    have hcount : count ⟨some t, .stored, some true, .started⟩ = some t.refCnt := rfl
    rw [hcount, ← hdrop, Option.map_some, ← hlast] at hleft
    cases hleft

/-- A step that is not orderly breaks what is asked, at once or with the end of `exec`. -/
theorem Kept.not_sound (h : Kept c) (hdisorder : ¬c.Orderly a) (hstep : Step thread a c c') :
    ¬c'.Sound ∨ c'.pc = .stored ∧ ∀ c'', c'.ret = some c'' → ¬c''.Sound := by
  cases hstep with
  | message hstep =>
    simp only [Orderly, not_forall, not_not] at hdisorder
    obtain ⟨hm, hpc⟩ := hdisorder
    exact Or.inl (h.not_sound_message hm hpc hstep)
  | kill hstep =>
    simp only [Orderly, not_forall] at hdisorder
    obtain ⟨huser, hprogram⟩ := hdisorder
    exact h.not_sound_kill huser hprogram hstep
  | launch | fail | running | store | ret | wait | waited | gc => exact absurd trivial hdisorder

theorem Kept.sound (h : Kept c) : c.Sound where
  kept := by
    rintro hreferred hnone
    have hempty : c.holders = ∅ := h.balanced.eq_none_iff.mp (by rw [count, hnone]; rfl)
    have hnot (i : Holder) : ¬c.counts i = true := fun hi => by
      have hmem := mem_holders.mpr hi
      rw [hempty] at hmem
      exact Finset.notMem_empty i hmem
    rcases hreferred with happ | huser
    · exact hnot .appTask happ
    · exact hnot .userdata (decide_eq_true huser)
  freed := by
    rintro hreferred hended
    have hempty : c.holders = ∅ := by
      refine Finset.eq_empty_of_forall_notMem fun i hi => ?_
      have hcounts := mem_holders.mp hi
      cases i with
      | appTask => exact hreferred (Or.inl hcounts)
      | userdata => exact hreferred (Or.inr (of_decide_eq_true hcounts))
      | program =>
        have hstarted := (of_decide_eq_true hcounts).2
        rcases hended with hp | hp <;> rw [hstarted] at hp <;> cases hp
    exact Option.map_eq_none_iff.mp (h.balanced.eq_none_iff.mpr hempty)

end ExecCall

/-! ## All calls -/

namespace Tasks
variable {w : Word} {s s' last : Tasks w} {a : TaskAction w} {actions : List (TaskAction w)} {thread : ULong w}

/-- The invariant of all calls. -/
def Kept (s : Tasks w) : Prop := ∀ id c, s.calls id = some c → c.Kept

theorem Kept.step (h : Kept s) (horderly : s.Orderly a) (hstep : s.step thread a = some s') : Kept s' := by
  intro id c hc
  obtain ⟨c', hcalls, hcase⟩ := step_cases hstep
  rw [hcalls] at hc
  by_cases hid : id = a.id
  · subst hid
    rw [Function.update_self] at hc
    cases hc
    rcases hcase with ⟨exitCode, -, rfl⟩ | ⟨c₀, hc₀, hstep₀⟩
    · exact .create exitCode
    · exact (h _ c₀ hc₀).step (horderly c₀ hc₀) hstep₀
  · rw [Function.update_of_ne hid] at hc
    exact h id c hc

theorem Kept.start : Kept (start : Tasks w) := fun _ _ hc => by cases hc

theorem Kept.sound (h : Kept s) : s.Sound := fun id c hc => (h id c hc).sound

/-- The first step that is not orderly ends that, at once or with the end of `exec`. -/
theorem not_sound_of_not_orderly (hrun : Run (step thread) Orderly start actions s) (hdisorder : ¬s.Orderly a)
    (hstep : s.step thread a = some s') :
    ¬s'.Sound ∨ ∃ c, s'.calls a.id = some c ∧ ∀ c', c.ret = some c' → ¬c'.Sound := by
  have hkept : Kept s := Run.keeps (fun _ _ _ h => h.step) .start hrun
  simp only [Orderly, not_forall] at hdisorder
  obtain ⟨c, hc, hdisorder⟩ := hdisorder
  obtain ⟨c', hcalls, ⟨exitCode, hnone, -⟩ | ⟨c₀, hc₀, hstep₀⟩⟩ := step_cases hstep
  · cases hnone.symm.trans hc
  · cases hc₀.symm.trans hc
    have hc' : s'.calls a.id = some c' := by rw [hcalls, Function.update_self]
    rcases (hkept _ c hc).not_sound hdisorder hstep₀ with hnot | ⟨-, hlater⟩
    · exact Or.inl fun hsound => hnot (hsound _ c' hc')
    · exact Or.inr ⟨c', hc', hlater⟩

/-- In a run in which no exit is handled before `running()` and no running program is killed, every `App_task` is there
    as long as an `App_ptr` refers to it, and is deleted once none does and its program has ended. -/
theorem sound_of_orderly {w : Word} {thread : ULong w} {actions : List (TaskAction w)} {s : Tasks w}
    (hrun : Run (step thread) Orderly start actions s) : s.Sound :=
  (Run.keeps (I := Kept) (fun _ _ _ h => h.step) .start hrun).sound

/-- A program that exits while it is waited for: the object goes with the userdata. -/
theorem sound_after_wait : ∃ s : Tasks .w32, s.calls 0 = some ⟨none, .returned, some false, .exited⟩ ∧
    s.results = [(0, .exitCode 7)] ∧ s.Sound := by
  have hexit : ∀ c : ExecCall .w32, c.pc = .returned → c.Orderly (.message 0 (.signal 0 7)) :=
      fun c hpc _ hlaunched => by
    rw [hpc] at hlaunched
    cases hlaunched
  have hrun : ∃ s : Tasks .w32, Run (step 5) Orderly start
      [.create 0 0, .launch 0, .running 0, .store 0, .ret 0, .wait 0, .message 0 (.signal 0 7), .waited 0] s ∧
        s.calls 0 = some ⟨none, .returned, some false, .exited⟩ ∧ s.results = [(0, .exitCode 7)] :=
    ⟨_, .cons (fun _ _ => trivial) rfl <| .cons (fun _ _ => trivial) rfl <| .cons (fun _ _ => trivial) rfl <|
      .cons (fun _ _ => trivial) rfl <| .cons (fun _ _ => trivial) rfl <| .cons (fun _ _ => trivial) rfl <|
      .cons (fun c hc => hexit c (by cases hc; rfl)) rfl <| .cons (fun _ _ => trivial) rfl <| .nil _, rfl, rfl⟩
  obtain ⟨s, hrun, hcall, hresults⟩ := hrun
  exact ⟨s, hcall, hresults, sound_of_orderly hrun⟩

/-- An exit right after `launch` deletes the object that `exec` goes on with, and a `kill` leaves one that nobody refers
    to. -/
theorem not_sound_of_early_exit_or_kill :
    (∃ s : Tasks .w32, Run (step 5) (fun _ _ => True) start
        [.create 0 0, .launch 0, .message 0 (.signal 0 1)] s ∧ ¬s.Sound) ∧
      ∃ s : Tasks .w32, Run (step 5) (fun _ _ => True) start
        [.create 0 0, .launch 0, .running 0, .store 0, .ret 0, .kill 0] s ∧ ¬s.Sound := by
  constructor
  · refine ⟨_, .of_foldlM rfl, fun hsound => ?_⟩
    exact (hsound 0 _ rfl).kept (Or.inl rfl) rfl
  · refine ⟨_, .of_foldlM rfl, fun hsound => ?_⟩
    have hgone := (hsound 0 _ rfl).freed (by simp [ExecCall.Referred, ExecCall.appTask]) (Or.inr rfl)
    cases hgone

end Tasks

end Dom0
