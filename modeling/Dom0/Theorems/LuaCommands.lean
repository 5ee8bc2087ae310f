import Dom0.Ned.Lua

/-! The commands that reach Lua. The server takes a message for complete exactly when the bytes that it copied are
one terminated string, whatever its buffer held before; the client learns of it as long as the work that the command
does leaves the answer alone, which lies in the message registers before that work begins. -/

namespace Dom0
open Marshal NedServer

section
variable {w : Word} {ℓ : Type} {E : Ipc w} {P : Lua ℓ} {s : NedServer ℓ} {ios : In} {buffer : Mem} {bs : List UInt8}
  {cmd : CString}

/-! ## What Lua is given -/

/-- What a chunk does to Lua: it is loaded, and run if it could be loaded, and what these calls leave on the stack is
    taken off. -/
inductive Lua.Ran (P : Lua ℓ) (L : Lua.State ℓ) (chunk : List UInt8) : Lua.State ℓ → Prop
  | refused {regs regs' : Mem} {loaded : ℓ} {r : CInt} (hload : P.loadbuffer L.lua regs chunk = (loaded, regs', r))
      (hr : r ≠ 0) : Ran P L chunk ⟨P.pop loaded 1, L.calls ++ [.loadbuffer chunk r]⟩
  | ran {regs regs' regs'' : Mem} {loaded done : ℓ} {r : CInt}
      (hload : P.loadbuffer L.lua regs chunk = (loaded, regs', 0)) (hcall : P.pcall loaded regs' = (done, regs'', r)) :
      Ran P L chunk ⟨P.pop done (if r ≠ 0 then 1 else P.gettop done), L.calls ++ [.loadbuffer chunk 0, .pcall r]⟩

/-- Chunks that were loaded and run one after the other, and nothing else. -/
inductive Lua.RanAll (P : Lua ℓ) (L : Lua.State ℓ) : List (List UInt8) → Lua.State ℓ → Prop
  | nil : RanAll P L [] L
  | concat {chunks : List (List UInt8)} {chunk : List UInt8} {M N : Lua.State ℓ} (all : RanAll P L chunks M)
      (last : P.Ran M chunk N) : RanAll P L (chunks ++ [chunk]) N

def Lua.Call.chunk : Lua.Call → Option (List UInt8)
  | .loadbuffer chunk _ => some chunk
  | .pcall _ => none

/-- The chunks that `luaL_loadbuffer` was given. -/
def NedServer.handed (s : NedServer ℓ) : List (List UInt8) := s.L.calls.filterMap Lua.Call.chunk

theorem Lua.run_ran (P : Lua ℓ) (L : Lua.State ℓ) (regs : Mem) (cmd : CString) :
    P.Ran L cmd.bytes (P.run L regs cmd).1 := by
  rcases hload : P.loadbuffer L.lua (P.printf (.received cmd) regs) cmd.bytes with ⟨loaded, regs', r⟩
  simp only [Lua.run, Lua.load, hload]
  by_cases hr : r = 0
  · subst hr
    rcases hcall : P.pcall loaded regs' with ⟨done, regs'', r⟩
    have hran := Lua.Ran.ran hload hcall
    simp only [Lua.execute, hcall, ne_eq, not_true, if_false, List.append_assoc, List.singleton_append]
    split
    · next hfailed => rwa [if_pos hfailed] at hran
    · next hdone => rwa [if_neg hdone] at hran
  · rw [if_pos hr]
    exact .refused hload hr

theorem Lua.Ran.chunks {L L' : Lua.State ℓ} {chunk : List UInt8} (h : P.Ran L chunk L') :
    L'.calls.filterMap Call.chunk = L.calls.filterMap Call.chunk ++ [chunk] := by
  cases h with
  | refused | ran => exact List.filterMap_append

theorem Lua.Ran.ne {L L' : Lua.State ℓ} {chunk : List UInt8} (h : P.Ran L chunk L') : L' ≠ L := by
  rintro rfl
  exact absurd h.chunks (by simp)

theorem Lua.RanAll.chunks {L L' : Lua.State ℓ} {chunks : List (List UInt8)} (h : P.RanAll L chunks L') :
    L'.calls.filterMap Call.chunk = L.calls.filterMap Call.chunk ++ chunks := by
  induction h with
  | nil => exact (List.append_nil _).symm
  | concat _ last ih => rw [last.chunks, ih, List.append_assoc]

/-! ## One message -/

/-- `strlen(buffer) + 1` is the number of bytes that were copied exactly when they are one terminated string. -/
theorem strlen_eq_iff {n : Nat} (hn : bs.length ≤ n) :
    (CString.ofMem (buffer.write 0 bs) 0 n).strlen + 1 = bs.length ↔ ∃ cmd : CString, bs = cmd.c_str := by
  constructor
  · intro h
    have hlt : ((buffer.write 0 bs).cstr 0 n).length < n := Nat.lt_of_lt_of_le (Nat.lt_of_succ_le (Nat.le_of_eq h)) hn
    have hread := Mem.read_of_length_cstr hlt
    rw [show ((buffer.write 0 bs).cstr 0 n).length + 1 = bs.length from h, Mem.read_write] at hread
    exact ⟨CString.ofMem (buffer.write 0 bs) 0 n, hread⟩
  · rintro ⟨cmd, rfl⟩
    rw [CString.length_c_str] at hn
    have hread : (buffer.write 0 cmd.c_str).read 0 (cmd.strlen + 1) = cmd.c_str := by
      rw [← CString.length_c_str, Mem.read_write]
    rw [CString.ofMem_of_read hread hn, CString.length_c_str]

theorem ofMem_write {n : Nat} (hn : cmd.strlen < n) : CString.ofMem (buffer.write 0 cmd.c_str) 0 n = cmd :=
  CString.ofMem_of_read (by rw [← CString.length_c_str, Mem.read_write]) hn

theorem length_received_le : (received E ios).length ≤ sizeofBuffer := by
  have h : (received E ios).length ≤ sizeofBuffer * 1 := In.length_getBuf_le
  rwa [Nat.mul_one] at h

theorem sizeofBuffer_lt : sizeofBuffer < 2 ^ (8 * w.bytes) := by cases w <;> decide

/-- The registers when the command starts: the answer is in them already. -/
def withAnswer (regs : Mem) : Mem := regs.write 0 (Bytes.le 4 luaOk.toNat)

theorem put_answer {regs : Mem} {v : CInt} :
    (Out.mk regs 0).put w.registers (int v) = ⟨regs.write 0 (Bytes.le 4 v.toNat), 4⟩ := by
  have hfits : align 4 0 + (Bytes.le 4 v.toNat).length ≤ w.registers := by
    rw [Bytes.length_le]
    cases w <;> decide
  have hput : (Out.mk regs 0).put w.registers (int v) =
      ⟨regs.write (align 4 0) (Bytes.le 4 v.toNat), align 4 0 + (Bytes.le 4 v.toNat).length⟩ := Out.put_of_fits hfits
  rw [hput, Bytes.length_le]
  rfl

/-- A complete command is handed to Lua. -/
theorem dispatch_complete (hop : (readInt ios).1 = executeLuaLine) (h : received E (readInt ios).2 = cmd.c_str) :
    s.dispatch E P luaDom0 ios =
      ⟨⟨s.buffer.write 0 cmd.c_str, (P.run s.L (withAnswer ios.mem) cmd).1⟩, some luaOk,
        ⟨(P.run s.L (withAnswer ios.mem) cmd).2, 4⟩, 0⟩ := by
  have hle : cmd.c_str.length ≤ sizeofBuffer := h ▸ length_received_le
  have hlt : cmd.strlen < 2 ^ (8 * w.bytes) := by
    rw [CString.length_c_str] at hle
    exact Nat.lt_trans hle sizeofBuffer_lt
  simp only [NedServer.dispatch, hop, h, ofMem_write hlt, CString.length_c_str, put_answer, withAnswer, ne_eq, not_true,
    if_false, if_true]

theorem dispatch_ran (hop : (readInt ios).1 = executeLuaLine) (h : received E (readInt ios).2 = cmd.c_str) :
    P.Ran s.L cmd.bytes (s.dispatch E P luaDom0 ios).server.L := by
  rw [dispatch_complete hop h]
  exact P.run_ran s.L (withAnswer ios.mem) cmd

/-- Anything else is not. -/
theorem dispatch_incomplete (hop : (readInt ios).1 = executeLuaLine)
    (h : ¬∃ cmd : CString, received E (readInt ios).2 = cmd.c_str) :
    s.dispatch E P luaDom0 ios =
      ⟨{ s with buffer := s.buffer.write 0 (received E (readInt ios).2) }, some luaError,
        ⟨(P.printf .incomplete ios.mem).write 0 (Bytes.le 4 luaError.toNat), 4⟩, 0⟩ := by
  have hle : (received E (readInt ios).2).length ≤ 2 ^ (8 * w.bytes) :=
    Nat.le_of_lt (Nat.lt_of_le_of_lt length_received_le sizeofBuffer_lt)
  have hne : (CString.ofMem (s.buffer.write 0 (received E (readInt ios).2)) 0 (2 ^ (8 * w.bytes))).strlen + 1 ≠
      (received E (readInt ios).2).length := fun heq => h ((strlen_eq_iff hle).mp heq)
  simp only [NedServer.dispatch, hop, if_pos hne, put_answer, ne_eq, not_true, if_false, if_true]

/-- The buffer after a message. -/
theorem dispatch_buffer {label : Int} :
    (s.dispatch E P label ios).server.buffer = s.buffer ∨
      (s.dispatch E P label ios).server.buffer = s.buffer.write 0 (received E (readInt ios).2) := by
  simp only [NedServer.dispatch]
  split
  · exact Or.inl rfl
  · split
    · split
      · exact Or.inr rfl
      · exact Or.inr rfl
    · exact Or.inl rfl

end

/-! ## Any messages

A message of the 32-bit build has room for 240 bytes behind the three words in front of the string, so the last bytes
of the buffer keep the zeros that it starts with. -/

section
variable {ℓ : Type} {E : Ipc .w32} {P : Lua ℓ} {s : NedServer ℓ} {bs : List UInt8}

/-- The bytes of the buffer that no message reaches. -/
def TailZero (buffer : Mem) : Prop := ∀ i, 240 ≤ i → i < sizeofBuffer → buffer i = 0

theorem length_received_le_tail (m : NedMessage .w32) : (received E (readInt m.ios).2).length ≤ 240 := by
  have hle : (received E (readInt m.ios).2).length ≤ _ := In.length_getBuf_le_carried
  have hpos : ((readScalar 1 (readInt m.ios).2).2.get Word.w32.bytes).2.pos = 12 := by
    simp only [readScalar, In.get, NedMessage.ios, Word.bytes]
    decide
  have hlen : (readScalar 1 (readInt m.ios).2).2.len = m.words * 4 := rfl
  rw [hpos, hlen] at hle
  have hwords := m.fits
  simp only [l4UtcbGenericDataSize] at hwords
  omega

theorem TailZero.write {buffer : Mem} (h : TailZero buffer) (hbs : bs.length ≤ 240) : TailZero (buffer.write 0 bs) := by
  intro i hi hlt
  simp only [Mem.write]
  rw [if_neg (by omega)]
  exact h i hi hlt

theorem TailZero.dispatch (h : TailZero s.buffer) (m : NedMessage .w32) :
    TailZero (s.dispatch E P m.label m.ios).server.buffer := by
  rcases dispatch_buffer with heq | heq
  · rwa [heq]
  · rw [heq]
    exact h.write (length_received_le_tail m)

theorem TailZero.serve (h : TailZero s.buffer) (ms : List (NedMessage .w32)) : TailZero (s.serve E P ms).buffer := by
  induction ms generalizing s with
  | nil => exact h
  | cons m ms ih => exact ih (h.dispatch m)

/-- What the server makes of a message that copies `bs`. -/
structure Handles (P : Lua ℓ) (s : NedServer ℓ) (bs : List UInt8) (r : Served ℓ) : Prop where
  accepts : (r.answer = some luaOk ∧ ∃ chunk, P.Ran s.L chunk r.server.L) ↔ ∃ cmd : CString, bs = cmd.c_str
  chunk : ∀ cmd : CString, bs = cmd.c_str → P.Ran s.L cmd.bytes r.server.L
  rejects : (¬∃ cmd : CString, bs = cmd.c_str) → r.answer = some luaError ∧ r.server.L = s.L
  /-- The string that `strlen` looks at ends inside the buffer. -/
  terminated : ∃ i < sizeofBuffer, r.server.buffer i = 0

theorem TailZero.handles (h : TailZero s.buffer) (m : NedMessage .w32) (hlabel : m.label = luaDom0)
    (hop : (readInt m.ios).1 = executeLuaLine) :
    Handles P s (received E (readInt m.ios).2) (s.dispatch E P m.label m.ios) := by
  have hzero := (h.dispatch (E := E) (P := P) m) 240 (Nat.le_refl _) (by decide)
  rw [hlabel] at hzero ⊢
  by_cases hcmd : ∃ cmd : CString, received E (readInt m.ios).2 = cmd.c_str
  · obtain ⟨cmd, hbs⟩ := hcmd
    have hran : P.Ran s.L cmd.bytes (s.dispatch E P luaDom0 m.ios).server.L := dispatch_ran hop hbs
    have hanswer : (s.dispatch E P luaDom0 m.ios).answer = some luaOk := by rw [dispatch_complete hop hbs]
    refine ⟨⟨fun _ => ⟨cmd, hbs⟩, fun _ => ⟨hanswer, _, hran⟩⟩, ?_, fun hno => absurd ⟨cmd, hbs⟩ hno, 240, by decide,
      hzero⟩
    intro cmd' hbs'
    have hsame : cmd.bytes = cmd'.bytes := List.append_cancel_right (hbs.symm.trans hbs')
    rwa [← hsame]
  · have hd := dispatch_incomplete (s := s) (P := P) hop hcmd
    refine ⟨⟨?_, fun hyes => absurd hyes hcmd⟩, fun cmd hbs => absurd ⟨cmd, hbs⟩ hcmd,
      fun _ => ?_, 240, by decide, hzero⟩
    · rintro ⟨hok, -⟩
      rw [hd] at hok
      exact absurd (Option.some.inj hok) (by decide)
    · rw [hd]
      exact ⟨rfl, rfl⟩

end

/-! ## The answer

The client sends a command and reads the answer back. -/

section
variable {ℓ : Type} {E : Ipc .w32} {P : Lua ℓ} {s : NedServer ℓ} {cmd : CString} {length : SizeT .w32}
    {caller server : Mem}

open LuaIpcClient

theorem fits_request_iff : Fits .w32 (request .w32 cmd length) ↔ cmd.strlen + 13 ≤ Word.w32.registers := by
  have hend : endPos 0 (request .w32 cmd length) = 12 + (cmd.strlen + 1) := by
    simp only [request, str, counted, scalar, List.cons_append, List.nil_append, endPos, Bytes.length_le, Word.bytes,
      align_one, CString.length_c_str]
    have hhead : align 4 (align 4 (align 4 0 + 4) + 4) + 4 = 12 := by decide
    rw [hhead]
  rw [Fits, hend]
  omega

theorem received_of_aligned {ios : In} (hpos : ios.pos = 4) :
    received E ios = ((readSizeT .w32 ios).2.getBuf E.bufCpIn 4 1 sizeofBuffer).1 := by
  have hone : align 4 (align 1 4 + 1) = 8 := by decide
  have hfour : align 4 (align 4 4 + 4) = 8 := by decide
  simp only [received, readScalar, In.getBuf, In.get, hpos, Word.bytes, hone, hfour]

theorem pos_readInt {ios : In} (h : ios.pos = 0) : (readInt ios).2.pos = 4 := by
  simp only [readScalar, In.get, h]
  decide

/-- A command that fits the message is copied whole. -/
theorem received_fits (caller server : Mem) (h : Fits .w32 (request .w32 cmd length)) :
    (readInt (deliver .w32 (request .w32 cmd length) caller server)).1 = executeLuaLine ∧
      received E (readInt (deliver .w32 (request .w32 cmd length) caller server)).2 = cmd.c_str := by
  have hhas := has_deliver (w := .w32) caller server h
  obtain ⟨hop, hrest⟩ := has_readScalar hhas
  obtain ⟨-, hcounted⟩ := has_readScalar hrest
  have hlen := fits_request_iff.mp h
  simp only [Word.registers, Word.bytes, l4UtcbGenericDataSize] at hlen
  refine ⟨hop, ?_⟩
  rw [received_of_aligned (pos_readInt rfl)]
  have hstr := hcounted
  rw [← List.append_nil (str .w32 cmd)] at hstr
  refine (In.Has.getBuf hstr E.bufCpIn Nat.one_pos ?_ ?_ ?_).1
  · rw [CString.length_c_str, Nat.mul_one]
  · have hword : 256 ^ Word.w32.bytes = 4294967296 := by decide
    omega
  · simp only [sizeofBuffer]
    omega

/-- The three words in front of the string. -/
def head (cmd : CString) (length : SizeT .w32) : List Field :=
  [int executeLuaLine, sizeT .w32 length, ⟨4, Bytes.le 4 (cmd.strlen + 1)⟩]

theorem endPos_head : endPos 0 (head cmd length) = 12 := by
  simp only [head, scalar, endPos, Bytes.length_le, Word.bytes]
  decide

theorem fits_head : Fits .w32 (head cmd length) := by
  rw [Fits, endPos_head]
  decide

/-- A string that does not fit is not sent, so the message ends where it would begin. -/
theorem deliver_not_fits (caller server : Mem) (h : ¬Fits .w32 (request .w32 cmd length)) :
    deliver .w32 (request .w32 cmd length) caller server = deliver .w32 (head cmd length) caller server ∧
      (deliver .w32 (head cmd length) caller server).len = 12 := by
  have hsplit : request .w32 cmd length = head cmd length ++ [⟨1, cmd.c_str⟩] := rfl
  have hpos : ((Out.mk caller 0).putAll Word.w32.registers (head cmd length)).pos = 12 :=
    (Out.putAll_carries fits_head).1.trans endPos_head
  have hlong : Word.w32.registers < 12 + cmd.c_str.length := by
    rw [fits_request_iff] at h
    rw [CString.length_c_str]
    omega
  constructor
  · simp only [deliver, hsplit, Out.putAll_concat]
    rw [Out.put_of_not_fits (by rw [hpos, align_one]; exact hlong)]
  · simp only [deliver, hpos]
    decide

theorem received_not_fits (caller server : Mem) (h : ¬Fits .w32 (request .w32 cmd length)) :
    (readInt (deliver .w32 (request .w32 cmd length) caller server)).1 = executeLuaLine ∧
      received E (readInt (deliver .w32 (request .w32 cmd length) caller server)).2 = [] := by
  obtain ⟨hdeliver, hlen⟩ := deliver_not_fits caller server h
  rw [hdeliver]
  refine ⟨(has_readScalar (has_deliver caller server fits_head)).1, List.length_eq_zero_iff.mp (Nat.le_zero.mp ?_)⟩
  rw [received_of_aligned (pos_readInt rfl)]
  have hle := @In.length_getBuf_le_carried (readSizeT .w32 (readInt (deliver .w32 (head cmd length) caller server)).2).2
    E.bufCpIn 4 sizeofBuffer
  have hpos : ((readSizeT .w32 (readInt (deliver .w32 (head cmd length) caller server)).2).2.get 4).2.pos = 12 := by
    simp only [readScalar, In.get, deliver, Word.bytes]
    decide
  have hlen' : (readSizeT .w32 (readInt (deliver .w32 (head cmd length) caller server)).2).2.len = 12 := hlen
  rw [hpos, hlen'] at hle
  exact hle

/-- The client reads the answer off the first word that the server leaves in its message registers. -/
theorem readInt_reply {r : Served ℓ} {own : Mem} {v : CInt} (hpos : r.out.pos = 4) :
    (readInt (reply .w32 r own)).1 = v ↔ r.out.mem.read 0 4 = Bytes.le 4 v.toNat := by
  have hwhole : align 4 4 = 4 := by decide
  have hfirst : (transfer 4 r.out.mem own).read 0 4 = r.out.mem.read 0 4 :=
    ((transfer_below 4 r.out.mem own).read (Nat.le_refl 4)).symm
  have hread : (readInt (reply .w32 r own)).1 = BitVec.ofNat 32 (Bytes.toNat (r.out.mem.read 0 4)) := by
    have hzero : align 4 0 = 0 := by decide
    simp only [readScalar, In.get, reply, hpos, Word.bytes, hwhole, hzero, hfirst]
  have hback : Bytes.le 4 (Bytes.toNat (r.out.mem.read 0 4)) = r.out.mem.read 0 4 := by
    have hbytes := Bytes.le_toNat (r.out.mem.read 0 4)
    rwa [Mem.length_read] at hbytes
  have hlt : Bytes.toNat (r.out.mem.read 0 4) < 2 ^ 32 := by
    have hbytes := Bytes.toNat_lt (r.out.mem.read 0 4)
    rwa [Mem.length_read] at hbytes
  rw [hread]
  constructor
  · rintro rfl
    rw [BitVec.toNat_ofNat, Nat.mod_eq_of_lt hlt, hback]
  · intro h
    have hv : v.toNat < 256 ^ 4 := v.isLt
    rw [h, Bytes.toNat_le, Nat.mod_eq_of_lt hv, BitVec.ofNat_toNat, BitVec.setWidth_eq]

/-- The work that a command does leaves the first word of the message registers, the answer, as it finds it. -/
def Lua.KeepsAnswer (P : Lua ℓ) (L : Lua.State ℓ) (regs : Mem) (cmd : CString) : Prop :=
  (P.run L (withAnswer regs) cmd).2.read 0 4 = (withAnswer regs).read 0 4

/-- `true` for a command that was handed to Lua complete; otherwise `false`, and nothing happened to Lua. -/
structure Reported (P : Lua ℓ) (s : NedServer ℓ) (cmd : CString) (r : NedServer ℓ × Bool) : Prop where
  ran_iff : r.2 = true ↔ P.Ran s.L cmd.bytes r.1.L
  untouched : ¬P.Ran s.L cmd.bytes r.1.L → r.1.L = s.L

/-- The server after the call is the one that answered the message. -/
theorem executeLength_server : (executeLength E P s caller server cmd length).1 =
    (s.dispatch E P luaDom0 (deliver .w32 (request .w32 cmd length) caller server)).server := by
  simp only [executeLength]

theorem executeLength_fits (h : Fits .w32 (request .w32 cmd length)) :
    P.Ran s.L cmd.bytes (executeLength E P s caller server cmd length).1.L ∧
      ((executeLength E P s caller server cmd length).2 = true ↔
        P.KeepsAnswer s.L (deliver .w32 (request .w32 cmd length) caller server).mem cmd) := by
  obtain ⟨hop, hreceived⟩ := received_fits (E := E) caller server h
  have hd := dispatch_complete (s := s) (P := P) hop hreceived
  have hran := dispatch_ran (s := s) (P := P) hop hreceived
  have hanswer : (withAnswer (deliver .w32 (request .w32 cmd length) caller server).mem).read 0 4 =
      Bytes.le 4 luaOk.toNat := by
    rw [withAnswer]
    exact Mem.read_write
  refine ⟨by rwa [executeLength_server], ?_⟩
  simp only [executeLength, hd, ne_eq, not_true, if_false, decide_eq_true_eq, Lua.KeepsAnswer, hanswer]
  exact readInt_reply rfl

theorem executeLength_not_fits (h : ¬Fits .w32 (request .w32 cmd length)) :
    (executeLength E P s caller server cmd length).1.L = s.L ∧
      (executeLength E P s caller server cmd length).2 = false := by
  obtain ⟨hop, hreceived⟩ := received_not_fits (E := E) caller server h
  have hnone : ¬∃ cmd' : CString, received E (readInt (deliver .w32 (request .w32 cmd length) caller server)).2 =
      cmd'.c_str := by
    rintro ⟨cmd', heq⟩
    rw [hreceived] at heq
    simpa using congrArg List.length heq
  have hd := dispatch_incomplete (s := s) (P := P) hop hnone
  simp only [executeLength, hd, ne_eq, not_true, if_false, decide_eq_false_iff_not]
  refine ⟨trivial, fun hok => ?_⟩
  have hbytes := (readInt_reply rfl).mp hok
  have herror : ((P.printf .incomplete (deliver .w32 (request .w32 cmd length) caller server).mem).write 0
      (Bytes.le 4 luaError.toNat)).read 0 4 = Bytes.le 4 luaError.toNat := Mem.read_write
  rw [herror] at hbytes
  exact absurd hbytes (by decide)

end

/-- Whatever the server held before and whatever the command does, `executeString` tells whether the command reached
    Lua if and only if the command is too long for the message or leaves the answer alone. -/
theorem executeString_reports_iff {ℓ : Type} (E : Ipc .w32) (P : Lua ℓ) (s : NedServer ℓ) (caller server : Mem)
    (cmd : CString) (length : SizeT .w32) :
    Reported P s cmd (LuaIpcClient.executeLength E P s caller server cmd length) ↔
      (Fits .w32 (LuaIpcClient.request .w32 cmd length) →
        P.KeepsAnswer s.L (deliver .w32 (LuaIpcClient.request .w32 cmd length) caller server).mem cmd) := by
  constructor
  · intro h hfits
    obtain ⟨hran, hanswer⟩ := executeLength_fits hfits
    exact hanswer.mp (h.ran_iff.mpr hran)
  · intro hkeeps
    by_cases hfits : Fits .w32 (LuaIpcClient.request .w32 cmd length)
    · obtain ⟨hran, hanswer⟩ := executeLength_fits hfits
      exact ⟨⟨fun _ => hran, fun _ => hanswer.mpr (hkeeps hfits)⟩, fun hnot => absurd hran hnot⟩
    · obtain ⟨hlua, hfalse⟩ := executeLength_not_fits hfits
      refine ⟨⟨fun htrue => ?_, fun hran => ?_⟩, fun _ => hlua⟩
      · exact absurd (hfalse.symm.trans htrue) Bool.false_ne_true
      · exact absurd hlua hran.ne

/-- Lua with a command that starts a task: the calls that this takes leave zeros in the message registers. -/
def startsTask : Lua Unit where
  loadbuffer lua regs _ := (lua, regs, 0)
  pcall lua _ := (lua, fun _ => 0, 0)
  gettop _ := 1
  pop lua _ := lua
  string _ := []
  printf _ regs := regs

/-- Such a command reaches Lua, and `executeString` says that it did not. -/
theorem executeString_not_reports :
    ¬Reported startsTask (.start () fun _ => 0) ⟨[120], by decide⟩
      (LuaIpcClient.executeString .x86 startsTask (.start () fun _ => 0) (fun _ => 0) (fun _ => 0)
      ⟨[120], by decide⟩) := by
  intro h
  have hfits : Fits .w32 (LuaIpcClient.request .w32 ⟨[120], by decide⟩ (BitVec.ofNat _ 2)) := by
    rw [fits_request_iff]
    decide
  obtain ⟨hran, hanswer⟩ := executeLength_fits hfits
  have hkeeps := hanswer.mp (h.ran_iff.mpr hran)
  have hzero : [0, 0, 0, 0] = Bytes.le 4 luaOk.toNat := hkeeps.trans Mem.read_write
  exact absurd hzero (by decide)

end Dom0
