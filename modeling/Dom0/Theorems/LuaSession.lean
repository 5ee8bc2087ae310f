import Dom0.Net.RemoteDom0Instance
import Dom0.Theorems.SocketLoops

/-! Commands sent one after the other over one connection reach the Lua server once each and in order, and each call
returns the answer to its own command. As for binaries, each end follows a script of what it is still to read and to
write; how each command turns out is settled beforehand. -/

namespace Dom0
open LuaInstance

/-! ## What is sent and what is executed -/

/-- The command fits the buffer of the handler. -/
def FitsBuffer (c : CString) : Prop := c.strlen + 1 ≤ bufLen

/-- What the handler answers, from what `executeString` returned. -/
def answerOf (a : Int) : CInt := if a ≠ 0 then luaOk else luaError

/-- What the calls send. -/
def luaWire (o : ByteOrder) (cs : List CString) : List UInt8 := cs.flatMap fun c => o.bytes (size c) ++ c.c_str

/-- The answers to commands, of which `i` have been answered before. -/
def luaAnswers (o : ByteOrder) (outcome : Nat → Int) : Nat → List CString → List UInt8
  | _, [] => []
  | i, _ :: cs => o.bytes (answerOf (outcome i)) ++ luaAnswers o outcome (i + 1) cs

/-- The string of an `executeString`. -/
def ServerOp.executed : ServerOp → Option CString
  | .executeString cmd => some (CString.ofMem cmd 0 bufLen)
  | .open _ _ | .write _ _ | .close _ | .malloc _ => none

/-- The calls that the handler made, with what they returned. -/
abbrev CallLog := List (ServerOp × Int)

/-- The calls are `executeString` with these commands. -/
def CallLog.Executed (log : CallLog) (cs : List CString) : Prop := log.map (fun c => c.1.executed) = cs.map some

/-- The next call is made, and turns out as settled. -/
def CallLog.Settled (outcome : Nat → Int) (log : CallLog) (op : ServerOp) (a : Int) (log' : CallLog) : Prop :=
  log' = log ++ [(op, a)] ∧ a = outcome log.length

/-- The calls returned the answers to their commands, and `i` of them have returned. -/
def AnswersTo (outcome : Nat → Int) (results : List CInt) (i : Nat) : Prop :=
  results = (List.range i).map fun j => answerOf (outcome j)

section
variable {w : Word} {o : ByteOrder} {outcome : Nat → Int} {c : CString} {cs rest : List CString} {log : CallLog}
    {i : Nat}

theorem FitsBuffer.toNat_size (h : FitsBuffer c) : (size c).toNat = c.strlen + 1 := by
  simp only [FitsBuffer, bufLen] at h
  rw [size, BitVec.toNat_ofNat, Nat.mod_eq_of_lt (by omega)]

theorem FitsBuffer.toNat_signExtend (h : FitsBuffer c) :
    ((size c).signExtend (8 * w.bytes)).toNat = c.c_str.length := by
  have hsize := h.toNat_size
  simp only [FitsBuffer, bufLen] at h
  rw [toNat_signExtend_of_lt (by omega), hsize, CString.length_c_str]

theorem c_str_ne_nil : c.c_str ≠ [] := List.ne_nil_of_length_pos (by simp)

theorem luaWire_cons : luaWire o (c :: rest) = o.bytes (size c) ++ (c.c_str ++ luaWire o rest) := by simp [luaWire]

theorem length_luaAnswers : (luaAnswers o outcome i cs).length = 4 * cs.length := by
  induction cs generalizing i with
  | nil => rfl
  | cons c rest ih =>
    rw [luaAnswers, List.length_append, ByteOrder.length_bytes, ih, List.length_cons]
    omega

theorem CallLog.Executed.add {cmd : Mem} {a : Int} (h : log.Executed cs) (hcmd : CString.ofMem cmd 0 bufLen = c) :
    CallLog.Executed (log ++ [(.executeString cmd, a)]) (cs ++ [c]) := by
  rw [CallLog.Executed, List.map_append, h, List.map_append]
  simp [ServerOp.executed, hcmd]

theorem CallLog.Executed.length (h : log.Executed cs) : log.length = cs.length := by
  simpa using congrArg List.length h

theorem AnswersTo.length {results : List CInt} (h : AnswersTo outcome results i) : results.length = i := by
  rw [h, List.length_map, List.length_range]

theorem AnswersTo.add {results : List CInt} (h : AnswersTo outcome results i) :
    AnswersTo outcome (results ++ [answerOf (outcome i)]) (i + 1) := by
  rw [AnswersTo, h, List.range_succ, List.map_append, List.map_singleton]

end

/-! ## The client -/

/-- The script of the client: the command that it sends, how far it is, and what it still reads and writes. -/
inductive ClientScript {w : Word} (o : ByteOrder) (outcome : Nat → Int) (cs : List CString) :
    LuaInstance w → Unit → List UInt8 → List UInt8 → Nat → Prop
  | size {t : Transfer w} {c : CString} {done rest : List CString} {left : List UInt8} {result : Mem}
      {results : List CInt} {e : NetErrno} (hcs : cs = done ++ c :: rest) (hres : AnswersTo outcome results done.length)
      (ht : t.Sends (o.bytes (size c)) left) :
      ClientScript o outcome cs ⟨some ⟨.sendSize t, c, result⟩, rest, results, e⟩ ()
        (luaAnswers o outcome done.length (c :: rest)) (left ++ (c.c_str ++ luaWire o rest)) 0
  | string {t : Transfer w} {c : CString} {done rest : List CString} {left : List UInt8} {result : Mem}
      {results : List CInt} {e : NetErrno} (hcs : cs = done ++ c :: rest) (hres : AnswersTo outcome results done.length)
      (ht : t.Sends c.c_str left) :
      ClientScript o outcome cs ⟨some ⟨.sendString t, c, result⟩, rest, results, e⟩ ()
        (luaAnswers o outcome done.length (c :: rest)) (left ++ luaWire o rest) 0
  | waitAnswer {t : Transfer w} {c : CString} {done rest : List CString} {left : List UInt8} {result : Mem}
      {results : List CInt} {e : NetErrno} (hcs : cs = done ++ c :: rest) (hres : AnswersTo outcome results done.length)
      (ht : t.Receives result (o.bytes (answerOf (outcome done.length))) left) :
      ClientScript o outcome cs ⟨some ⟨.waitAnswer t, c, result⟩, rest, results, e⟩ ()
        (left ++ luaAnswers o outcome (done.length + 1) rest) (luaWire o rest) 0
  | finished {results : List CInt} {e : NetErrno} (hres : AnswersTo outcome results cs.length) :
      ClientScript o outcome cs ⟨none, [], results, e⟩ () [] [] 0

section
variable {w : Word} {o : ByteOrder} {outcome : Nat → Int} {cs done rest : List CString} {results : List CInt}
    {e : NetErrno}

/-- Between two calls, or after the last one. -/
theorem ClientScript.next {executing : Option (Executing w)} (hcs : cs = done ++ rest)
    (hres : AnswersTo outcome results done.length) :
    ClientScript o outcome cs (LuaInstance.next ⟨executing, rest, results, e⟩) ()
    (luaAnswers o outcome done.length rest)
      (luaWire o rest) 0 := by
  cases rest with
  | nil =>
    rw [List.append_nil] at hcs
    subst hcs
    exact .finished hres
  | cons c rest =>
    rw [luaWire_cons]
    exact .size hcs hres (.int32 ByteOrder.length_bytes)

/-- The client makes no calls but those on its socket. -/
def noOps (_ : Unit) (_ : Empty) (_ : Int) (_ : Unit) : Prop := False

/-- The answer that the client waits for arrives. -/
theorem client_read {s : LuaInstance w} {piece r wr : List UInt8} {m off n : Nat} {into : Unit}
    (hR : ClientScript o outcome cs s () (piece ++ r) wr m) (hcall : (LuaInstance.program o).call s = .read into off n)
    (hle : piece.length ≤ n) : ClientScript o outcome cs ((LuaInstance.program o).onRead s (.ok piece)) () r wr m := by
  generalize hreads : piece ++ r = reads at hR
  cases hR with
  | @waitAnswer t c done rest left result results e hcs hres ht =>
    cases hcall
    rcases ht.next hle hreads with ⟨t', left', hnext, ht', rfl⟩ | ⟨hnext, hread, rfl⟩
    · simp only [program, onRead, Except.map, hnext]
      exact .waitAnswer hcs hres ht'
    · have hsize := ht.size
      rw [ByteOrder.length_bytes] at hsize hread
      simp only [program, onRead, Except.map, hnext, setErrno, check]
      rw [if_neg (Transfer.not_toInt_lt_one (by omega) (by omega)), hread, o.int32_bytes]
      have hlen : done.length + 1 = (done ++ [c]).length := by simp
      have hres' := hres.add
      rw [hlen] at hres' ⊢
      exact .next (by simp [hcs]) hres'
  | size | string | finished => cases hcall

/-- One piece of what the client sends. -/
theorem client_write {s : LuaInstance w} {piece r wr : List UInt8} {m k : Nat} (hfits : ∀ c ∈ cs, FitsBuffer c)
    (hR : ClientScript o outcome cs s () r wr m) (hcall : (LuaInstance.program o).call s = .write piece)
    (hle : k ≤ piece.length) :
    ∃ wr', wr = piece.take k ++ wr' ∧
      ClientScript o outcome cs ((LuaInstance.program o).onWrite s (.ok k)) () r wr' m := by
  cases hR with
  | size hcs hres ht =>
    cases hcall
    have hc := hfits _ (hcs ▸ List.mem_append_right _ List.mem_cons_self)
    have hsize := ht.size
    rw [ByteOrder.length_bytes] at hsize
    rw [ht.window] at hle ⊢
    rcases ht.next hle with ⟨t', hnext, ht'⟩ | ⟨hnext, hdrop⟩
    · refine ⟨_, (take_drop_append k).symm, ?_⟩
      simp only [program, onWrite, hnext]
      exact .size hcs hres ht'
    · -- The length is out, and the string comes next.
      refine ⟨_, (take_append_of_drop hdrop).symm, ?_⟩
      simp only [program, onWrite, hnext, setErrno, check]
      rw [if_neg (Transfer.not_toInt_lt_one (by omega) (by omega))]
      exact .string hcs hres (.start hc.toNat_signExtend c_str_ne_nil)
  | string hcs hres ht =>
    cases hcall
    have hc := hfits _ (hcs ▸ List.mem_append_right _ List.mem_cons_self)
    have hsize := ht.size
    rw [CString.length_c_str] at hsize
    simp only [FitsBuffer, bufLen] at hc
    rw [ht.window] at hle ⊢
    rcases ht.next hle with ⟨t', hnext, ht'⟩ | ⟨hnext, hdrop⟩
    · refine ⟨_, (take_drop_append k).symm, ?_⟩
      simp only [program, onWrite, hnext]
      exact .string hcs hres ht'
    · -- The string is out, and the client waits for the answer.
      refine ⟨_, (take_append_of_drop hdrop).symm, ?_⟩
      simp only [program, onWrite, hnext, setErrno, check]
      rw [if_neg (Transfer.not_toInt_lt_one (by omega) (by omega))]
      exact .waitAnswer hcs hres (.int32 _ ByteOrder.length_bytes)
  | waitAnswer | finished => cases hcall

theorem client_script (hfits : ∀ c ∈ cs, FitsBuffer c) :
    (LuaInstance.program o : Program (LuaInstance w) Unit UInt8 Empty NetErrno).Script noOps
    (ClientScript o outcome cs) where
  read hR hcall _ hle := client_read hR hcall hle
  write hR hcall _ hle := client_write hfits hR hcall hle
  op _ _ served := served.elim

end

/-! ## The handler -/

/-- The script of the handler: the command that it takes, after `done`, how far it is, and what it still reads,
    writes and executes. -/
inductive LuaScript {w : Word} (o : ByteOrder) (outcome : Nat → Int) (cs : List CString) :
    LuaHandler w → CallLog → List UInt8 → List UInt8 → Nat → Prop
  | idle {s : LuaHandler w} {log : CallLog} (hpc : s.pc = .size .int32) (hlog : log.Executed cs) :
      LuaScript o outcome cs s log [] [] 0
  | size {s : LuaHandler w} {log : CallLog} {t : Transfer w} {done rest : List CString} {c : CString}
      {left : List UInt8} (hpc : s.pc = .size t) (hcs : cs = done ++ c :: rest) (hlog : log.Executed done)
      (ht : t.Receives s.message (o.bytes (LuaInstance.size c)) left) :
      LuaScript o outcome cs s log (left ++ (c.c_str ++ luaWire o rest)) (luaAnswers o outcome done.length (c :: rest))
        (rest.length + 1)
  | string {s : LuaHandler w} {log : CallLog} {t : Transfer w} {done rest : List CString} {c : CString}
      {left : List UInt8} (hpc : s.pc = .string t) (hcs : cs = done ++ c :: rest) (hlog : log.Executed done)
      (ht : t.Receives s.buffer c.c_str left) :
      LuaScript o outcome cs s log (left ++ luaWire o rest) (luaAnswers o outcome done.length (c :: rest))
        (rest.length + 1)
  | execute {s : LuaHandler w} {log : CallLog} {done rest : List CString} {c : CString} (hpc : s.pc = .execute)
      (hcs : cs = done ++ c :: rest) (hlog : log.Executed done) (hread : s.buffer.read 0 c.c_str.length = c.c_str) :
      LuaScript o outcome cs s log (luaWire o rest) (luaAnswers o outcome done.length (c :: rest)) (rest.length + 1)
  | answer {s : LuaHandler w} {log : CallLog} {t : Transfer w} {done rest : List CString} {c : CString}
      {left : List UInt8} (hpc : s.pc = .answer t) (hcs : cs = done ++ c :: rest) (hlog : log.Executed (done ++ [c]))
      (hread : s.message.read 0 4 = o.bytes (answerOf (outcome done.length)))
      (ht : t.Sends (o.bytes (answerOf (outcome done.length))) left) :
      LuaScript o outcome cs s log (luaWire o rest) (left ++ luaAnswers o outcome (done.length + 1) rest) rest.length

section
variable {w : Word} {o : ByteOrder} {outcome : Nat → Int} {cs done rest : List CString} {c : CString} {s : LuaHandler w}
  {log : CallLog}

theorem LuaScript.top (hpc : s.pc = .size .int32) (hcs : cs = done ++ rest) (hlog : log.Executed done) :
    LuaScript o outcome cs s log (luaWire o rest) (luaAnswers o outcome done.length rest) rest.length := by
  cases rest with
  | nil =>
    rw [List.append_nil] at hcs
    exact .idle hpc (hcs ▸ hlog)
  | cons c rest =>
    rw [luaWire_cons]
    exact .size hpc hcs hlog (.int32 _ ByteOrder.length_bytes)

/-- What arrives takes the handler on. -/
theorem lua_read {s : LuaHandler w} {log : CallLog} {piece r wr : List UInt8} {m off n : Nat} {into : Target}
    (hfits : ∀ c ∈ cs, FitsBuffer c) (hR : LuaScript o outcome cs s log (piece ++ r) wr m)
    (hcall : (LuaHandler.program o).call s = .read into off n) (hne : piece ≠ []) (hle : piece.length ≤ n) :
    LuaScript o outcome cs ((LuaHandler.program o).onRead s (.ok piece)) log r wr m := by
  generalize hreads : piece ++ r = reads at hR
  cases hR with
  | idle hpc hlog =>
    rw [List.append_eq_nil_iff] at hreads
    exact absurd hreads.1 hne
  | size hpc hcs hlog ht =>
    have hc := hfits _ (hcs ▸ List.mem_append_right _ List.mem_cons_self)
    have hsize := ht.size
    rw [ByteOrder.length_bytes] at hsize
    cases (LuaHandler.call_of_pc hpc).symm.trans hcall
    rcases ht.next hle hreads with ⟨t', left', hnext, ht', rfl⟩ | ⟨hnext, hread, rfl⟩
    · simp only [LuaHandler.program, LuaHandler.onRead, hpc, Except.map, hnext]
      exact .size rfl hcs hlog ht'
    · rw [ByteOrder.length_bytes] at hread
      simp only [LuaHandler.program, LuaHandler.onRead, hpc, Except.map, hnext]
      rw [Transfer.netcheckLoop_go (by omega) (by omega)]
      -- The next loop gets the length that the client has sent.
      refine .string rfl hcs hlog (.start _ ?_ c_str_ne_nil)
      rw [messageSize_eq hread, hc.toNat_signExtend]
  | string hpc hcs hlog ht =>
    have hc := hfits _ (hcs ▸ List.mem_append_right _ List.mem_cons_self)
    have hsize := ht.size
    rw [CString.length_c_str] at hsize
    simp only [FitsBuffer, bufLen] at hc
    cases (LuaHandler.call_of_pc hpc).symm.trans hcall
    rcases ht.next hle hreads with ⟨t', left', hnext, ht', rfl⟩ | ⟨hnext, hread, rfl⟩
    · -- The whole string is in the buffer, with its terminator.
      simp only [LuaHandler.program, LuaHandler.onRead, hpc, Except.map, hnext]
      exact .string rfl hcs hlog ht'
    · simp only [LuaHandler.program, LuaHandler.onRead, hpc, Except.map, hnext]
      rw [Transfer.netcheckLoop_go (by omega) (by omega)]
      exact .execute rfl hcs hlog hread
  | execute hpc | answer hpc => cases (LuaHandler.call_of_pc hpc).symm.trans hcall

/-- One piece of the answer to a command. -/
theorem lua_write {s : LuaHandler w} {log : CallLog} {bs r wr : List UInt8} {m k : Nat}
    (hR : LuaScript o outcome cs s log r wr m) (hcall : (LuaHandler.program o).call s = .write bs)
    (hle : k ≤ bs.length) :
    ∃ wr', wr = bs.take k ++ wr' ∧ LuaScript o outcome cs ((LuaHandler.program o).onWrite s (.ok k)) log r wr' m := by
  cases hR with
  | @answer t done rest c left hpc hcs hlog hread ht =>
    have hsize := ht.size
    rw [ByteOrder.length_bytes] at hsize
    cases (LuaHandler.call_of_pc hpc).symm.trans hcall
    rw [hread, ht.window] at hle ⊢
    rcases ht.next hle with ⟨t', hnext, ht'⟩ | ⟨hnext, hdrop⟩
    · refine ⟨_, (take_drop_append k).symm, ?_⟩
      simp only [LuaHandler.program, LuaHandler.onWrite, hpc, hnext]
      exact .answer rfl hcs hlog hread ht'
    · refine ⟨_, (take_append_of_drop hdrop).symm, ?_⟩
      simp only [LuaHandler.program, LuaHandler.onWrite, hpc, hnext]
      rw [Transfer.netcheckLoop_go (by omega) (by omega)]
      have hlen : done.length + 1 = (done ++ [c]).length := by simp
      rw [hlen]
      exact .top rfl (by simp [hcs]) hlog
  | idle hpc | size hpc | string hpc | execute hpc => cases (LuaHandler.call_of_pc hpc).symm.trans hcall

/-- A command is executed. -/
theorem lua_op {s : LuaHandler w} {log log' : CallLog} {r wr : List UInt8} {m : Nat} {op : ServerOp} {a : Int}
    (hfits : ∀ c ∈ cs, FitsBuffer c) (hR : LuaScript o outcome cs s log r wr m)
    (hcall : (LuaHandler.program o).call s = .op op) (served : CallLog.Settled outcome log op a log') :
    ∃ m' < m, LuaScript o outcome cs ((LuaHandler.program o).onOp s a) log' r wr m' := by
  cases hR with
  | @execute done rest c hpc hcs hlog hread =>
    have hc := hfits _ (hcs ▸ List.mem_append_right _ List.mem_cons_self)
    have hstring : CString.ofMem s.buffer 0 bufLen = c := by
      rw [CString.length_c_str] at hread
      exact CString.ofMem_of_read hread (Nat.lt_of_succ_le hc)
    cases (LuaHandler.call_of_pc hpc).symm.trans hcall
    obtain ⟨rfl, rfl⟩ := served
    refine ⟨rest.length, Nat.lt_succ_self _, ?_⟩
    have hsame : (if outcome log.length ≠ 0 then luaOk else luaError) = answerOf (outcome done.length) := by
      rw [hlog.length, answerOf]
    have hlen : (o.bytes (answerOf (outcome done.length))).length = 4 := ByteOrder.length_bytes
    simp only [LuaHandler.program, LuaHandler.onOp, hpc, hsame]
    refine .answer rfl hcs (hlog.add hstring) ?_ (.int32 hlen)
    have hwrite : (s.message.write 0 (o.bytes (answerOf (outcome done.length)))).read 0
        (o.bytes (answerOf (outcome done.length))).length = o.bytes (answerOf (outcome done.length)) := Mem.read_write
    rwa [hlen] at hwrite
  | idle hpc | size hpc | string hpc | answer hpc => cases (LuaHandler.call_of_pc hpc).symm.trans hcall

theorem lua_script (hfits : ∀ c ∈ cs, FitsBuffer c) :
    (LuaHandler.program o : Program (LuaHandler w) Target UInt8 ServerOp NetErrno).Script (CallLog.Settled outcome)
      (LuaScript o outcome cs) where
  read hR hcall hne hle := lua_read hfits hR hcall hne hle
  write hR hcall _ hle := lua_write hR hcall hle
  op hR hcall served := lua_op hfits hR hcall served

end

/-! ## Both ends -/

section
variable {w w' : Word} {o : ByteOrder} {outcome : Nat → Int} {cs : List CString}
  {d : Duplex (LuaInstance w) (LuaHandler w') Unit CallLog UInt8} {s : LuaInstance w} {s' : LuaHandler w'}
    {log : CallLog}
  {r wr inbox : List UInt8} {m n : Nat}

/-- The client can go on, waits for an answer, or is done. -/
theorem ClientScript.canMove_or_waits (h : ClientScript o outcome cs s () r wr m) :
    (LuaInstance.program o).CanMove noOps s () inbox ∨
      (∃ done c rest left, cs = done ++ c :: rest ∧ r = left ++ luaAnswers o outcome (done.length + 1) rest ∧
        wr = luaWire o rest ∧ left ≠ [] ∧ left.length ≤ 4 ∧ (LuaInstance.program o).Waits s) ∨
      (s.executing = none ∧ AnswersTo outcome s.results cs.length ∧ r = [] ∧ wr = []) := by
  cases h with
  | size _ _ ht | string _ _ ht =>
    exact Or.inl (Program.canMove_of_write rfl (by rw [ht.window]; exact ht.ne_nil))
  | @waitAnswer t c done rest left _ _ _ hcs _ ht =>
    obtain ⟨got, hanswer, -⟩ := ht.rest
    have hlen := congrArg List.length hanswer
    rw [ByteOrder.length_bytes, List.length_append] at hlen
    exact Or.inr (Or.inl ⟨done, c, rest, left, hcs, rfl, rfl, ht.ne_nil, by omega, (), _, _, rfl, ht.left_pos⟩)
  | finished hres => exact Or.inr (Or.inr ⟨rfl, hres, rfl, rfl⟩)

/-- The handler can go on, or it waits: for a command it is not to get, or for bytes of one. -/
theorem LuaScript.canMove_or_waits (h : LuaScript o outcome cs s' log r wr m) :
    (LuaHandler.program o).CanMove (CallLog.Settled outcome) s' log inbox ∨
      (LuaHandler.program o).Waits s' ∧
        ((r = [] ∧ wr = [] ∧ log.Executed cs) ∨
          (∃ done c rest left, cs = done ++ c :: rest ∧ left ≠ [] ∧ r = left ++ luaWire o rest ∧
            wr = luaAnswers o outcome done.length (c :: rest))) := by
  cases h with
  | idle hpc hlog =>
    have hwait : 0 < (Transfer.int32 : Transfer w').left := by
      rw [Transfer.At.int32.left, Transfer.toNat_int32]
      decide
    exact Or.inr ⟨⟨_, _, _, LuaHandler.call_of_pc hpc, hwait⟩, Or.inl ⟨rfl, rfl, hlog⟩⟩
  | @size t done rest c left hpc hcs hlog ht =>
    refine Or.inr ⟨⟨_, _, _, LuaHandler.call_of_pc hpc, ht.left_pos⟩, Or.inr
      ⟨done, c, rest, left ++ c.c_str, hcs, ?_, by simp only [List.append_assoc], rfl⟩⟩
    exact List.append_ne_nil_of_left_ne_nil ht.ne_nil _
  | @string t done rest c left hpc hcs hlog ht =>
    exact Or.inr ⟨⟨_, _, _, LuaHandler.call_of_pc hpc, ht.left_pos⟩,
      Or.inr ⟨done, c, rest, left, hcs, ht.ne_nil, rfl, rfl⟩⟩
  | execute hpc => exact Or.inl (Program.canMove_of_op (LuaHandler.call_of_pc hpc) ⟨rfl, rfl⟩)
  | answer hpc hcs hlog hread ht =>
    refine Or.inl (Program.canMove_of_write (LuaHandler.call_of_pc hpc) ?_)
    rw [hread, ht.window]
    exact ht.ne_nil

/-- Where the client waits for an answer, the handler has not got all of the command, or has sent the answer. -/
theorem session_not_deadlocked (h : d.Meets (ClientScript o outcome cs) (LuaScript o outcome cs) n) :
    ¬d.Deadlocked (LuaInstance.program o) (LuaHandler.program o) := by
  rintro ⟨hwait, hwait', hleft, hright⟩
  obtain ⟨wl, ml, wr, mr, hclient, hhandler, -⟩ := h
  rw [hleft, List.nil_append] at hclient
  rw [hright, List.nil_append] at hhandler
  rcases hclient.canMove_or_waits with hmove | ⟨done, c, rest, left, hcs, hread, hwrite, hne, hle, -⟩ | ⟨hnone, -⟩
  · exact hwait.not_canMove hmove
  · have hpos := List.length_pos_iff.mpr hne
    have hlen := congrArg List.length hread
    rw [List.length_append, length_luaAnswers] at hlen
    rcases hhandler.canMove_or_waits with hmove | ⟨-,
      ⟨-, hnil, -⟩ | ⟨done', c', rest', left', hcs', hne', hread', hwrite'⟩⟩
    · exact hwait'.not_canMove hmove
    · rw [hnil, List.length_nil] at hlen
      omega
    · -- The handler is at the same command, and misses bytes that were sent for it.
      rw [hwrite', length_luaAnswers, List.length_cons] at hlen
      obtain ⟨-, heq⟩ := List.append_inj' (hcs.symm.trans hcs') (by simp only [List.length_cons]; omega)
      cases heq
      have hlen' := congrArg List.length (hwrite.symm.trans hread')
      have hpos' := List.length_pos_iff.mpr hne'
      rw [List.length_append] at hlen'
      omega
  · obtain ⟨into, off, n, hcall, -⟩ := hwait
    simp only [program, LuaInstance.call, hnone] at hcall
    cases hcall

theorem ClientScript.answered (h : ClientScript o outcome cs s () r wr m) :
    AnswersTo outcome s.results s.results.length := by
  obtain ⟨i, hres⟩ : ∃ i, AnswersTo outcome s.results i := by
    cases h with
    | size _ hres _ | string _ hres _ | waitAnswer _ hres _ | finished hres => exact ⟨_, hres⟩
  rwa [hres.length]

theorem LuaScript.executed (h : LuaScript o outcome cs s' log r wr m) : ∃ done, done <+: cs ∧ log.Executed done := by
  cases h with
  | idle _ hlog => exact ⟨cs, List.prefix_refl cs, hlog⟩
  | size _ hcs hlog _ | string _ hcs hlog _ | execute _ hcs hlog _ => exact ⟨_, ⟨_, hcs.symm⟩, hlog⟩
  | @answer _ done rest c _ _ hcs hlog _ _ =>
    refine ⟨_, ⟨rest, ?_⟩, hlog⟩
    rw [List.append_assoc, List.singleton_append, hcs]

theorem ClientScript.length_read_le (h : ClientScript o outcome cs s () r wr m) :
    r.length + 4 * s.results.length ≤ 4 * cs.length := by
  cases h with
  | size hcs hres _ | string hcs hres _ =>
    rw [length_luaAnswers, hres.length, hcs, List.length_append]
    omega
  | waitAnswer hcs hres ht =>
    obtain ⟨got, hanswer, -⟩ := ht.rest
    have hlen := congrArg List.length hanswer
    rw [ByteOrder.length_bytes, List.length_append] at hlen
    rw [List.length_append, length_luaAnswers, hres.length, hcs, List.length_append, List.length_cons]
    omega
  | finished hres =>
    rw [hres.length, List.length_nil]
    omega

theorem LuaScript.le_length_write (h : LuaScript o outcome cs s' log r wr m) :
    4 * cs.length ≤ wr.length + 4 * log.length := by
  cases h with
  | idle _ hlog =>
    rw [hlog.length]
    omega
  | size _ hcs hlog _ | string _ hcs hlog _ | execute _ hcs hlog _ =>
    rw [length_luaAnswers, hlog.length, hcs, List.length_append]
    omega
  | answer _ hcs hlog _ _ =>
    rw [List.length_append, length_luaAnswers, hlog.length, hcs]
    simp only [List.length_append, List.length_cons, List.length_nil]
    omega

/-- What holds of the two ends in every state they can come to: the commands so far were executed once each and in
    order, and the calls that returned gave the answers to theirs, which were executed before; the two never wait for
    each other; and where nothing can go on, all is done. -/
structure Session (o : ByteOrder) (outcome : Nat → Int) (cs : List CString)
    (d : Duplex (LuaInstance w) (LuaHandler w') Unit CallLog UInt8) : Prop where
  executed : ∃ done, done <+: cs ∧ d.rightWorld.Executed done
  answered : ∃ i ≤ d.rightWorld.length, AnswersTo outcome d.left.results i
  no_deadlock : ¬d.Deadlocked (LuaInstance.program o) (LuaHandler.program o)
  complete : d.Stuck (LuaInstance.program o) noOps (LuaHandler.program o) (CallLog.Settled outcome) →
    d.left.executing = none ∧ d.rightWorld.Executed cs ∧ AnswersTo outcome d.left.results cs.length

theorem session_of_meets (h : d.Meets (ClientScript o outcome cs) (LuaScript o outcome cs) n) :
    Session o outcome cs d := by
  have hfree := session_not_deadlocked h
  obtain ⟨wl, ml, wr, mr, hclient, hhandler, -⟩ := h
  have hahead : d.left.results.length ≤ d.rightWorld.length := by
    have hread := hclient.length_read_le
    have hwritten := hhandler.le_length_write
    rw [List.length_append] at hread
    omega
  refine ⟨hhandler.executed, ⟨_, hahead, hclient.answered⟩, hfree, fun hstuck => ?_⟩
  rcases hhandler.canMove_or_waits with hmove | ⟨hwait', hcases⟩
  · exact absurd hmove hstuck.right
  rcases hclient.canMove_or_waits with hmove | ⟨_, _, _, _, -, -, -, -, -, hwait⟩ | ⟨hnone, hres, hread, hwrite⟩
  · exact absurd hmove hstuck.left
  · exact absurd (hstuck.deadlocked hwait hwait') hfree
  · -- The client is done, so nothing is left to read for the handler either.
    have hempty : d.toRight ++ wl = [] := by
      rw [hwrite, List.append_nil]
      exact by_contra fun hne => hstuck.right (hwait'.canMove hne)
    rcases hcases with ⟨-, -, hlog⟩ | ⟨_, _, _, _, -, hne, hread', -⟩
    · exact ⟨hnone, hlog, hres⟩
    · exact absurd (List.append_eq_nil_iff.mp (hread'.symm.trans hempty)).1 hne

/-- Both ends at the start of a connection. -/
def luaConnected (cs : List CString) (errno : NetErrno) (handler : LuaHandler w') :
    Duplex (LuaInstance w) (LuaHandler w') Unit CallLog UInt8 :=
  ⟨LuaInstance.start false cs errno, (), handler, [], [], []⟩

/-- A run of `n` steps of the two ends. -/
abbrev SessionRun (o : ByteOrder) (outcome : Nat → Int) (d : Duplex (LuaInstance w) (LuaHandler w') Unit CallLog UInt8)
    (n : Nat) (d' : Duplex (LuaInstance w) (LuaHandler w') Unit CallLog UInt8) : Prop :=
  Duplex.Run (LuaInstance.program o) noOps (LuaHandler.program o) (CallLog.Settled outcome) d n d'

/-- How many bytes are sent, each written once and read once, and how many commands are executed. -/
def sessionSteps (o : ByteOrder) (cs : List CString) : Nat := 2 * ((luaWire o cs).length + 4 * cs.length) + cs.length

theorem luaConnected_meets (errno : NetErrno) (fd : CInt) (buffer : Mem) :
    (luaConnected cs errno (LuaHandler.start o fd buffer)).Meets (ClientScript (w := w) o outcome cs)
      (LuaScript (w := w') o outcome cs) (sessionSteps o cs) := by
  have hclient : ClientScript (w := w) o outcome cs (LuaInstance.start false cs errno) () (luaAnswers o outcome 0 cs)
      (luaWire o cs) 0 := .next (List.nil_append cs).symm rfl
  refine ⟨luaWire o cs, 0, luaAnswers o outcome 0 cs, cs.length, hclient, .top rfl (List.nil_append cs).symm rfl, ?_⟩
  simp only [luaConnected, List.nil_append, sessionSteps, length_luaAnswers]
  omega

/-- Commands that are sent one after the other are executed once each, in order and as they were sent, and each call
    returns the answer to its own command, however the two streams are cut into pieces and however the commands turn
    out; and no run goes on for ever. -/
theorem commands_arrive (o : ByteOrder) (outcome : Nat → Int) (cs : List CString) (hfits : ∀ c ∈ cs, FitsBuffer c)
    (errno : NetErrno) (fd : CInt) (buffer : Mem)
    (hrun : SessionRun o outcome (luaConnected cs errno (LuaHandler.start o fd buffer)) n d) :
    Session o outcome cs d ∧ n ≤ sessionSteps o cs := by
  obtain ⟨left, hle, hmeets⟩ := hrun.meets (client_script hfits) (lua_script hfits) (luaConnected_meets errno fd buffer)
  exact ⟨session_of_meets hmeets, by omega⟩

end

/-- The commands `xy` and `z`, the second one shorter than what the first one leaves in the buffer. -/
def twoCommands : List CString := [⟨[120, 121], by decide⟩, ⟨[122], by decide⟩]

/-- Both ends before the first step. -/
def sessionStart : Duplex (LuaInstance .w32) (LuaHandler .w32) Unit CallLog UInt8 :=
  luaConnected twoCommands ⟨104, by decide⟩ (.start .little 3 (fun _ => 0))

/-- The sizes, the strings and the answers come in pieces. The first command turns out as 0, the second one as 1. -/
def twoCommandsTurns : List (Int ⊕ Int) :=
  [.inl 3, .inr 2, .inl 1, .inr 2, .inl 3, .inr 3, .inr 0, .inr 4, .inl 1, .inl 3, .inl 4, .inl 2, .inr 4, .inr 2,
    .inr 1, .inr 4, .inl 4]

/-- Both commands are played to their ends. -/
theorem commands_arrive_twoCommands :
    ∃ d, SessionRun .little (fun i => i) sessionStart 17 d ∧ d.left.results = [luaError, luaOk] ∧
      d.rightWorld.filterMap (fun c => c.1.executed.map CString.bytes) = [[120, 121], [122]] ∧
      Session .little (fun i => i) twoCommands d ∧ 17 ≤ sessionSteps .little twoCommands := by
  have hfits : ∀ c ∈ twoCommands, FitsBuffer c := by
    intro c hc
    rcases List.mem_cons.mp hc with rfl | hc
    · exact (by decide : 2 + 1 ≤ 1024)
    · obtain rfl := List.mem_singleton.mp hc
      exact (by decide : 1 + 1 ≤ 1024)
  have hplay : (twoCommandsTurns.foldlM (Duplex.turn (LuaInstance.program .little) (fun _ _ _ => none)
      (LuaHandler.program .little) fun log op a => if a = log.length then some (log ++ [(op, a)]) else none)
      sessionStart).any
        fun d => d.left.results = [luaError, luaOk] ∧
          d.rightWorld.filterMap (fun c => c.1.executed.map CString.bytes) = [[120, 121], [122]] := by
    decide +kernel
  obtain ⟨d, hd, hlast⟩ := (Option.any_eq_true _ _).mp hplay
  obtain ⟨hresults, hexecuted⟩ := of_decide_eq_true hlast
  have hrun : SessionRun .little (fun i => i) sessionStart 17 d := by
    refine .turns (fun _ _ _ _ hnone => by cases hnone) (fun log op a log' hserved => ?_) .refl hd
    rw [Option.ite_none_right_eq_some] at hserved
    exact ⟨(Option.some.inj hserved.2).symm, hserved.1⟩
  exact ⟨d, hrun, hresults, hexecuted,
    commands_arrive .little (fun i => i) twoCommands hfits ⟨104, by decide⟩ 3 (fun _ => 0) hrun⟩

end Dom0
