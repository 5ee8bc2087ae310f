import Dom0.Net.LuaConnections
import Dom0.Theorems.LuaCommands
import Dom0.Theorems.LuaSession
import Mathlib.Algebra.Order.BigOperators.Group.Finset

/-! Commands from several machines at once reach Lua. Each handler is in the middle of a session of its own, whose
answers are those that Ned gave; what Ned runs is an interleaving of the sessions, without the commands that are too
long for a message. -/

namespace Dom0
open LuaIpcClient

/-- The command fits a message to Ned. -/
def FitsMessage (c : CString) : Prop := Fits .w32 (request .w32 c (BitVec.ofNat _ (c.strlen + 1)))

instance (c : CString) : Decidable (FitsMessage c) := inferInstanceAs (Decidable (Fits _ _))

/-- The work of no command touches the answer. -/
def Lua.KeepsAnswers {ℓ : Type} (P : Lua ℓ) : Prop := ∀ L regs cmd, P.KeepsAnswer L regs cmd

/-- The string that `executeString` sends. -/
def ServerOp.sent : ServerOp → Option CString
  | .executeString cmd => some (CString.ofMem cmd 0 (2 ^ (8 * Word.w32.bytes)))
  | .open _ _ | .write _ _ | .close _ | .malloc _ => none

namespace LuaConnections
variable {ι ℓ : Type} {w : Word}

/-- The commands that the handlers passed on, each with its connection. -/
def commands (h : LuaConnections ι w ℓ) : List (ι × CString) := h.history.filterMap fun c => c.2.1.executed.map (c.1, ·)

/-- The commands of one connection. -/
def commandsOf [DecidableEq ι] (h : LuaConnections ι w ℓ) (i : ι) : List CString :=
  h.commands.filterMap fun c => if c.1 = i then some c.2 else none

end LuaConnections

section
variable {ι ℓ : Type} {w : Word} {E : Ipc .w32} {P : Lua ℓ} {s s' : NedServer ℓ} {op : ServerOp} {a : Int} {c : CString}

/-! ## One call -/

/-- A call for a command hands it to Lua, if it fits; and only then the answer may be that it was. -/
theorem NedServer.Serves.sent (h : s.Serves E P op a s') (hop : op.sent = some c) :
    (FitsMessage c → P.Ran s.L c.bytes s'.L) ∧ (¬FitsMessage c → s'.L = s.L) ∧ (a ≠ 0 → FitsMessage c) ∧
      (P.KeepsAnswers → FitsMessage c → a ≠ 0) := by
  cases op with
  | executeString cmd =>
    obtain ⟨caller, server, ok, hexec, rfl⟩ := h
    obtain rfl := Option.some.inj hop
    generalize CString.ofMem cmd 0 (2 ^ (8 * Word.w32.bytes)) = c at hexec ⊢
    by_cases hfits : FitsMessage c
    · obtain ⟨hran, hanswer⟩ : P.Ran _ _ (executeLength E P s caller server c _).1.L ∧ _ := executeLength_fits hfits
      rw [executeString] at hexec
      rw [hexec] at hran hanswer
      refine ⟨fun _ => hran, fun hno => absurd hfits hno, fun _ => hfits, fun hkeeps _ => ?_⟩
      rw [show ok = true from hanswer.mpr (hkeeps _ _ _)]
      simp
    · obtain ⟨hlua, hfalse⟩ : (executeLength E P s caller server c _).1.L = _ ∧ _ := executeLength_not_fits hfits
      rw [executeString] at hexec
      rw [hexec] at hlua hfalse
      refine ⟨fun hyes => absurd hyes hfits, fun _ => hlua, fun hne => ?_, fun _ hyes => absurd hyes hfits⟩
      rw [show ok = false from hfalse] at hne
      exact absurd rfl hne
  | «open» | write | close | malloc => cases hop

theorem NedServer.Serves.eq_of_none (h : s.Serves E P op a s') (hop : op.sent = none) : s' = s := by
  cases op with
  | executeString => cases hop
  | «open» | write | close | malloc => exact h

theorem NedServer.exists_serves (E : Ipc .w32) (P : Lua ℓ) (s : NedServer ℓ) (op : ServerOp) :
    ∃ a s', s.Serves E P op a s' := by
  cases op with
  | executeString => exact ⟨_, _, fun _ => 0, fun _ => 0, _, rfl, rfl⟩
  | «open» | write | close | malloc => exact ⟨0, s, rfl⟩

/-! ## All calls -/

/-- What Ned ran, and what it answered, call by call. -/
structure Passed (P : Lua ℓ) (ned s : NedServer ℓ) (history : List (ι × ServerOp × Int)) : Prop where
  ran : P.RanAll ned.L (history.flatMap fun c => (c.2.1.sent.filter FitsMessage).toList.map CString.bytes) s.L
  answered : ∀ c ∈ history, ∀ cmd, c.2.1.sent = some cmd →
    (c.2.2 ≠ 0 → FitsMessage cmd) ∧ (P.KeepsAnswers → FitsMessage cmd → c.2.2 ≠ 0)

theorem passed_start (P : Lua ℓ) (ned : NedServer ℓ) : Passed P ned ned ([] : List (ι × ServerOp × Int)) :=
  ⟨.nil, fun _ hc => by cases hc⟩

theorem Passed.serves {ned : NedServer ℓ} {history : List (ι × ServerOp × Int)} {i : ι} (h : Passed P ned s history)
    (hs : s.Serves E P op a s') : Passed P ned s' (history ++ [(i, op, a)]) := by
  cases hop : op.sent with
  | none =>
    obtain rfl := hs.eq_of_none hop
    refine ⟨?_, fun c hc cmd hcmd => ?_⟩
    · rw [List.flatMap_append]
      simpa [hop] using h.ran
    · rcases List.mem_append.mp hc with hc | hc
      · exact h.answered c hc cmd hcmd
      · obtain rfl := List.mem_singleton.mp hc
        cases hop.symm.trans hcmd
  | some c =>
    obtain ⟨hran, hleft, hanswer⟩ := hs.sent hop
    refine ⟨?_, fun d hd cmd hcmd => ?_⟩
    · rw [List.flatMap_append]
      by_cases hfits : FitsMessage c
      · simpa [hop, hfits, Option.filter] using h.ran.concat (hran hfits)
      · simpa [hop, hfits, Option.filter, hleft hfits] using h.ran
    · rcases List.mem_append.mp hd with hd | hd
      · exact h.answered d hd cmd hcmd
      · obtain rfl := List.mem_singleton.mp hd
        obtain rfl := Option.some.inj (hop.symm.trans hcmd)
        exact hanswer

theorem ServerOp.sent_of_executed (h : op.executed = some c) (hfits : FitsBuffer c) : op.sent = some c := by
  cases op with
  | executeString cmd =>
    obtain rfl := Option.some.inj h
    exact congrArg some (CString.ofMem_of_strlen_lt hfits (by decide))
  | «open» | write | close | malloc => cases h

theorem CallLog.Executed.filterMap {log : CallLog} {cs : List CString} (h : log.Executed cs) :
    log.filterMap (fun c => c.1.executed) = cs := by
  have hmap : log.filterMap (fun c => c.1.executed) = (log.map fun c => c.1.executed).filterMap id := by
    rw [List.filterMap_map]
    rfl
  rw [hmap, h, List.filterMap_map]
  exact List.filterMap_some

theorem CallLog.Executed.getElem {log : CallLog} {cs : List CString} {j : Nat} {call : ServerOp × Int}
    (h : log.Executed cs)
    (hcall : log[j]? = some call) : ∃ c, cs[j]? = some c ∧ call.1.executed = some c := by
  have hj := congrArg (fun l => l[j]?) h
  simp only [List.getElem?_map, hcall, Option.map_some] at hj
  obtain ⟨c, hc, heq⟩ := Option.map_eq_some_iff.mp hj.symm
  exact ⟨c, hc, heq.symm⟩

end

/-! ## All connections -/

namespace LuaConnections
variable {ι ℓ : Type} [DecidableEq ι] {w : Word} {o : ByteOrder} {E : Ipc .w32} {P : Lua ℓ} {ned : NedServer ℓ}
  {h h' : LuaConnections ι w ℓ} {cs : ι → List CString} {i : ι} {n : Nat}

/-- A run of `n` steps of the clients, the handlers and Ned. -/
abbrev Run (o : ByteOrder) (E : Ipc .w32) (P : Lua ℓ) (h : LuaConnections ι w ℓ) (n : Nat) (h' : LuaConnections ι w ℓ) :
    Prop :=
  Hub.Run (LuaInstance.program o) noOps (LuaHandler.program o) (NedServer.Serves E P) h n h'

/-- Nothing can go on. -/
abbrev Stuck (o : ByteOrder) (E : Ipc .w32) (P : Lua ℓ) (h : LuaConnections ι w ℓ) : Prop :=
  Hub.Stuck (LuaInstance.program o) noOps (LuaHandler.program o) (NedServer.Serves E P) h

theorem commandsOf_eq (h : LuaConnections ι w ℓ) (i : ι) : h.commandsOf i = (h.calls i).filterMap fun c =>
    c.1.executed := by
  rw [commandsOf, commands, Hub.calls, Hub.callsOf, List.filterMap_filterMap, List.filterMap_filterMap]
  refine List.filterMap_congr fun c _ => ?_
  by_cases hi : c.1 = i
  · cases hexec : c.2.1.executed <;> simp [hi, hexec]
  · cases hexec : c.2.1.executed <;> simp [hi]

/-- A result that a client got: what it says of its command. -/
structure Answers (P : Lua ℓ) (c : CString) (r : CInt) : Prop where
  two : r = luaOk ∨ r = luaError
  ok : r = luaOk → FitsMessage c
  error : P.KeepsAnswers → r = luaError → ¬FitsMessage c

/-- What holds of all connections in every state they can come to, where the clients have the commands `cs` and Ned was
    `ned` before. -/
structure Service (o : ByteOrder) (E : Ipc .w32) (P : Lua ℓ) (cs : ι → List CString) (ned : NedServer ℓ)
    (h : LuaConnections ι w ℓ) : Prop where
  /-- The commands of a connection are passed on once each and in order. -/
  inOrder : ∀ i, h.commandsOf i <+: cs i
  /-- Lua is handed what is passed on, in the same order, without what does not fit a message, and this is all that
      happens to it. -/
  handed : h.world.handed = ned.handed ++ (h.commands.filter fun c => FitsMessage c.2).map fun c => c.2.bytes
  ran : P.RanAll ned.L ((h.commands.filter fun c => FitsMessage c.2).map fun c => c.2.bytes) h.world.L
  /-- The results of a client are the answers to its own commands, which were passed on before. -/
  answered : ∀ (i : ι) (j : Nat) (r : CInt), (h.left i).results[j]? = some r → ∃ c, (h.commandsOf i)[j]? = some c ∧
    Answers P c r
  no_deadlock : ∀ i, ¬(h.pair i).Deadlocked (LuaInstance.program o) (LuaHandler.program o)
  complete : h.Stuck o E P →
    ∀ i, (h.left i).executing = none ∧ h.commandsOf i = cs i ∧ (h.left i).results.length = (cs i).length

theorem answers_of_passed {call : ServerOp × Int} {c : CString} (h : (call.2 ≠ 0 → FitsMessage c) ∧
    (P.KeepsAnswers → FitsMessage c → call.2 ≠ 0)) : Answers P c (answerOf call.2) := by
  have hne : luaOk ≠ luaError := by decide
  by_cases hzero : call.2 = 0
  · have hanswer : answerOf call.2 = luaError := if_neg fun hne => hne hzero
    rw [hanswer]
    exact ⟨Or.inr rfl, fun heq => absurd heq.symm hne, fun hkeeps _ hfits => h.2 hkeeps hfits hzero⟩
  · have hanswer : answerOf call.2 = luaOk := if_pos hzero
    rw [hanswer]
    exact ⟨Or.inl rfl, fun _ => h.1 hzero, fun _ heq => absurd heq hne⟩

/-- Every call of a handler is for one of its own commands. -/
theorem executed_of_session (hsession : ∀ i, ∃ done, done <+: cs i ∧ CallLog.Executed (h.calls i) done)
    (hfits : ∀ i, ∀ c ∈ cs i, FitsBuffer c) {call : ι × ServerOp × Int} (hcall : call ∈ h.history) :
    ∃ c, call.2.1.executed = some c ∧ call.2.1.sent = some c := by
  obtain ⟨done, hdone, hexec⟩ := hsession call.1
  have hmem : call.2 ∈ h.calls call.1 := List.mem_filterMap.mpr ⟨call, hcall, if_pos rfl⟩
  obtain ⟨j, hj⟩ := List.getElem?_of_mem hmem
  obtain ⟨c, hc, hexecuted⟩ := hexec.getElem hj
  exact ⟨c, hexecuted, ServerOp.sent_of_executed hexecuted (hfits _ _ (hdone.subset (List.mem_of_getElem? hc)))⟩

omit [DecidableEq ι] in
/-- What Ned was handed call by call, command by command. -/
theorem handed_eq {history : List (ι × ServerOp × Int)}
    (hexec : ∀ call ∈ history, ∃ c, call.2.1.executed = some c ∧ call.2.1.sent = some c) :
    (history.flatMap fun c => (c.2.1.sent.filter FitsMessage).toList.map CString.bytes) =
      ((history.filterMap fun c => c.2.1.executed.map (c.1, ·)).filter fun c => FitsMessage c.2).map
        fun c => c.2.bytes := by
  induction history with
  | nil => rfl
  | cons call history ih =>
    obtain ⟨c, hexecuted, hsent⟩ := hexec call List.mem_cons_self
    rw [List.flatMap_cons, ih fun call hcall => hexec call (List.mem_cons_of_mem _ hcall)]
    by_cases hfits : FitsMessage c
    · simp [hexecuted, hsent, hfits, Option.filter]
    · simp [hexecuted, hsent, hfits, Option.filter]

theorem service_of_sessions (hfits : ∀ i, ∀ c ∈ cs i, FitsBuffer c) (hpassed : Passed P ned h.world h.history)
    {outcome : ι → Nat → Int} (hsettles : ∀ i, Settles (outcome i) (h.calls i))
    (hsession : ∀ i, Session o (outcome i) (cs i) (h.pair i)) : Service o E P cs ned h := by
  have hbegun : ∀ i, ∃ done, done <+: cs i ∧ CallLog.Executed (h.calls i) done := fun i => (hsession i).executed
  have hexec : ∀ call ∈ h.history, ∃ c, call.2.1.executed = some c ∧ call.2.1.sent = some c :=
    fun call hcall => executed_of_session hbegun hfits hcall
  have hran : P.RanAll ned.L ((h.commands.filter fun c => FitsMessage c.2).map fun c => c.2.bytes) h.world.L :=
    handed_eq hexec ▸ hpassed.ran
  refine ⟨fun i => ?_, hran.chunks, hran, fun i j r hr => ?_, fun i => (hsession i).no_deadlock, fun hstuck i => ?_⟩
  · obtain ⟨done, hdone, hexecuted⟩ := hbegun i
    rw [commandsOf_eq, hexecuted.filterMap]
    exact hdone
  · obtain ⟨k, hk, hresults⟩ := (hsession i).answered
    obtain ⟨done, -, hexecuted⟩ := hbegun i
    have hjk : j < k := by
      have hlt := (List.getElem?_eq_some_iff.mp hr).1
      rwa [show (h.left i).results.length = k from hresults.length] at hlt
    obtain ⟨call, hcall⟩ : ∃ call, (h.calls i)[j]? = some call :=
      ⟨_, List.getElem?_eq_getElem (Nat.lt_of_lt_of_le hjk hk)⟩
    obtain ⟨c, hc, hexecuted'⟩ := hexecuted.getElem hcall
    have hmem : (i, call) ∈ h.history := by
      obtain ⟨call', hmem, heq⟩ := List.mem_filterMap.mp (List.mem_of_getElem? hcall)
      split at heq
      · next hi =>
        rw [← Option.some.inj heq, ← hi]
        exact hmem
      · cases heq
    obtain ⟨c', hc', hsent⟩ := hexec _ hmem
    obtain rfl := Option.some.inj (hexecuted'.symm.trans hc')
    have hr' : r = answerOf call.2 := by
      rw [show (h.left i).results = _ from hresults, List.getElem?_map, List.getElem?_range hjk, Option.map_some] at hr
      rw [← hsettles i j _ hcall, Option.some.inj hr]
    refine ⟨c, ?_, hr' ▸ answers_of_passed (hpassed.answered _ hmem c hsent)⟩
    rw [commandsOf_eq, hexecuted.filterMap]
    exact hc
  · obtain ⟨hnone, hall, hresults⟩ := (hsession i).complete
      (hstuck.pair fun op _ _ _ _ => NedServer.exists_serves E P h.world op)
    refine ⟨hnone, ?_, hresults.length⟩
    rw [commandsOf_eq]
    exact hall.filterMap

/-- However many machines send commands over connections of their own, however the streams are cut into pieces and
    however the handlers take turns: the commands of each are passed to Ned once each and in order, Ned runs exactly
    those that fit a message, and each client gets the answers to its own commands; and no run goes on for ever. -/
theorem commands_reach_lua [Fintype ι] (o : ByteOrder) (E : Ipc .w32) (P : Lua ℓ) (cs : ι → List CString)
    (hfits : ∀ i, ∀ c ∈ cs i, FitsBuffer c) (errno : ι → NetErrno) (fd : ι → CInt) (buffer : ι → Mem)
    (ned : NedServer ℓ) (hrun : Run o E P (start (w := w) o cs errno fd buffer ned) n h) :
    Service o E P cs ned h ∧ n ≤ ∑ i, sessionSteps o (cs i) := by
  have hpassed : Passed P ned h.world h.history :=
    Hub.Run.keeps (fun _ _ _ _ _ _ hp hs => hp.serves hs) (passed_start P ned) hrun
  obtain ⟨outcome, hsettles⟩ : ∃ outcome : ι → Nat → Int, ∀ i, Settles (outcome i) (h.calls i) :=
    ⟨_, fun i => settles_getD (h.calls i)⟩
  obtain ⟨steps, hpairs, rfl⟩ := hrun.pairs fun i => (hsettles i).serves
  have hpairs : ∀ i, SessionRun o (outcome i) (luaConnected (cs i) (errno i) (LuaHandler.start o (fd i) (buffer i)))
    (steps i)
    (h.pair i) := hpairs
  have hmeets i := (hpairs i).meets (client_script (hfits i)) (lua_script (hfits i))
    (luaConnected_meets (errno i) (fd i) (buffer i))
  refine ⟨service_of_sessions hfits hpassed hsettles fun i => ?_, Finset.sum_le_sum fun i _ => ?_⟩
  · obtain ⟨left, -, hmeets⟩ := hmeets i
    exact session_of_meets hmeets
  · obtain ⟨left, hle, -⟩ := hmeets i
    omega

/-- A machine that sends the command `x`, and one that sends `y`. -/
def twoMachines : Bool → List CString
  | true => [⟨[120], by decide⟩]
  | false => [⟨[121], by decide⟩]

/-- Lua, where no command touches the message registers. -/
def quietLua : Lua Unit := { startsTask with pcall := fun lua regs => (lua, regs, 0) }

/-- Both connections before the first step. -/
def twoStart : LuaConnections Bool .w32 Unit :=
  start .little twoMachines (fun _ => ⟨32, by decide⟩) (fun _ => 3) (fun _ _ => 0) (.start () fun _ => 0)

/-- What Ned answers, with zeros in the registers of both threads. -/
def serve (E : Ipc .w32) (P : Lua ℓ) (s : NedServer ℓ) (op : ServerOp) (a : Int) : Option (NedServer ℓ) :=
  match op with
  | .executeString cmd =>
    let r := LuaIpcClient.executeString E P s (fun _ => 0) (fun _ => 0) (CString.ofMem cmd 0 (2 ^ (8 * Word.w32.bytes)))
    if a = if r.2 then 1 else 0 then some r.1 else none
  | .open _ _ | .write _ _ | .close _ | .malloc _ => some s

theorem serves_of_serve {s s' : NedServer ℓ} {op : ServerOp} {a : Int} (h : serve E P s op a = some s') :
    s.Serves E P op a s' := by
  cases op with
  | executeString cmd =>
    simp only [serve, Option.ite_none_right_eq_some] at h
    refine ⟨fun _ => 0, fun _ => 0, ?_⟩
    generalize LuaIpcClient.executeString E P s _ _ _ = r at h ⊢
    exact ⟨r.2, Prod.ext (Option.some.inj h.2) rfl, h.1⟩
  | «open» | write | close | malloc => exact (Option.some.inj h).symm

/-- The two handlers take turns; the command of the second machine comes to Ned first. -/
def twoMachinesTurns : List (Bool × (Int ⊕ Int)) :=
  [(true, .inl 4), (false, .inl 4), (true, .inr 2), (false, .inl 2), (false, .inr 4), (true, .inl 2), (true, .inr 2),
    (false, .inr 2), (true, .inr 2), (false, .inr 1), (true, .inr 1), (false, .inr 4), (true, .inr 4), (true, .inl 4),
    (false, .inl 4)]

/-- Both commands are played to their ends. -/
theorem commands_reach_lua_twoMachines :
    ∃ h, Run .little .x86 quietLua twoStart 15 h ∧ h.world.handed = [[121], [120]] ∧ (h.left true).results = [luaOk] ∧
      (h.left false).results = [luaOk] ∧ Service .little .x86 quietLua twoMachines (.start () fun _ => 0) h ∧
      15 ≤ ∑ i, sessionSteps .little (twoMachines i) := by
  have hfits : ∀ i, ∀ c ∈ twoMachines i, FitsBuffer c := by
    intro i c hc
    cases i <;> obtain rfl := List.mem_singleton.mp hc <;> exact (by decide : 1 + 1 ≤ 1024)
  have hplay : (twoMachinesTurns.foldlM (Hub.turn (LuaInstance.program .little) (fun _ _ _ => none)
      (LuaHandler.program .little) (serve .x86 quietLua)) twoStart).any fun h =>
        h.world.handed = [[121], [120]] ∧ (h.left true).results = [luaOk] ∧ (h.left false).results = [luaOk] := by
    decide +kernel
  obtain ⟨h, hh, hlast⟩ := (Option.any_eq_true _ _).mp hplay
  obtain ⟨hhanded, htrue, hfalse⟩ := of_decide_eq_true hlast
  have hrun : Run .little .x86 quietLua twoStart 15 h :=
    .turns (fun _ _ _ _ hnone => by cases hnone) (fun _ _ _ _ => serves_of_serve) .refl hh
  exact ⟨h, hrun, hhanded, htrue, hfalse, commands_reach_lua .little .x86 quietLua twoMachines hfits _ _ _ _ hrun⟩

end LuaConnections

end Dom0
