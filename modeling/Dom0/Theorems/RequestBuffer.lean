import Dom0.Net.Dom0Server
import Dom0.Theorems.SocketLoops

/-! The buffer of a connection handler, on whatever stream a peer sends. The handlers take the length of a string
as it comes and do not look for its end: they stay inside the buffer and inside the request if and only if the
stream keeps each string short and terminated. -/

namespace Dom0

/-! ## What the peer sends -/

/-- A size as it stands in the stream, where it is passed as a `size_t`. -/
def streamSize (o : ByteOrder) (w : Word) (bs : List UInt8) : SizeT w := (o.int32 bs).signExtend _

/-- Each string of the stream, after requests that are `Whole`, has at most `BUF_LEN` bytes to store, and a zero
    byte if all of it is there. -/
def Framed (o : ByteOrder) (w : Word) (Whole : List UInt8 → Prop) (s : List UInt8) : Prop :=
  ∀ before size rest, s = before ++ (size ++ rest) → Whole before → size.length = 4 →
    min (streamSize o w size).toNat rest.length ≤ bufLen ∧
      (0 < (streamSize o w size).toNat → (streamSize o w size).toNat ≤ rest.length →
        (0 : UInt8) ∈ rest.take (streamSize o w size).toNat)

/-- Whole requests on the Lua port: each is a positive size and a string of that size. -/
inductive LuaRequests (o : ByteOrder) (w : Word) : List UInt8 → Prop
  | nil : LuaRequests o w []
  | cons {size string rest : List UInt8} (hsize : size.length = 4) (hpos : 1 ≤ (streamSize o w size).toInt)
      (hstring : string.length = (streamSize o w size).toNat) (tail : LuaRequests o w rest) :
      LuaRequests o w (size ++ (string ++ rest))

/-- Whole requests on the binary port: a name and a content, each after its size. -/
inductive BinaryRequests (o : ByteOrder) (w : Word) : List UInt8 → Prop
  | nil : BinaryRequests o w []
  | cons {nameSize name size content rest : List UInt8} (hnameSize : nameSize.length = 4)
      (hnamePos : 1 ≤ (streamSize o w nameSize).toInt) (hname : name.length = (streamSize o w nameSize).toNat)
      (hsize : size.length = 4) (hpos : 1 ≤ (streamSize o w size).toInt)
      (hcontent : content.length = (streamSize o w size).toNat) (tail : BinaryRequests o w rest) :
      BinaryRequests o w (nameSize ++ (name ++ (size ++ (content ++ rest))))

/-! ## What the handler does with it -/

/-- The bytes of the current request that went to the buffer, and how far into the buffer anything was stored. -/
structure Request where
  bytes : List UInt8
  extent : Nat

def Request.none : Request := ⟨[], 0⟩

/-- A size starts a request; what is stored in the buffer then belongs to it. -/
def Request.watch {σ : Type} (_ : σ) (event : Event Target UInt8 ServerOp) (_ : σ) (q : Request) : Option Request :=
  match event with
  | .stored .message _ _ => some { q with bytes := [] }
  | .stored .buffer off bs => some ⟨q.bytes ++ bs, max q.extent (off + bs.length)⟩
  | .stored .rwBuffer _ _ | .did _ _ => some q

/-- The string at the start of the buffer, with its terminating zero, consists of bytes of the request. -/
def MadeOf (buffer : Mem) (bytes : List UInt8) : Prop :=
  ∃ k < bytes.length, buffer k = 0 ∧ ∀ i ≤ k, bytes[i]? = some (buffer i)

/-- Nothing was stored beyond the buffer, and a string that is about to be handed out comes from the request. -/
def Safe {σ : Type} (P : Program σ Target UInt8 ServerOp NetErrno) (f : Fed σ Request UInt8) : Prop :=
  f.world.extent ≤ bufLen ∧
    ∀ op buffer, P.call f.program = .op op → op.string = some buffer → MadeOf buffer f.world.bytes

section
variable {buffer : Mem} {bytes : List UInt8}

theorem getElem?_of_read (h : buffer.read 0 bytes.length = bytes) {i : Nat} (hi : i < bytes.length) :
    bytes[i]? = some (buffer i) := by
  rw [← h]
  simp [Mem.read, hi]

/-- Where the buffer starts with the request, the string is part of it if it ends there. -/
theorem madeOf_iff (h : buffer.read 0 bytes.length = bytes) : MadeOf buffer bytes ↔ (0 : UInt8) ∈ bytes := by
  constructor
  · rintro ⟨k, hk, hzero, hsame⟩
    exact List.mem_of_getElem? (hzero ▸ hsame k (Nat.le_refl k))
  · intro hmem
    obtain ⟨k, hk, hget⟩ := List.mem_iff_getElem.mp hmem
    refine ⟨k, hk, ?_, fun i hi => getElem?_of_read h (by omega)⟩
    have hsome := getElem?_of_read h hk
    rw [List.getElem?_eq_getElem hk, hget] at hsome
    exact (Option.some.inj hsome).symm

end

/-! ## A string on its way -/

/-- A string of size `n` and what follows it, of which `s` has come or is still to come. -/
structure StringAhead {w : Word} (n : SizeT w) (s : List UInt8) (Tail : List UInt8 → Prop) : Prop where
  fits : min n.toNat s.length ≤ bufLen
  zero : 0 < n.toNat → n.toNat ≤ s.length → (0 : UInt8) ∈ s.take n.toNat
  tail : 1 ≤ n.toInt → n.toNat ≤ s.length → Tail (s.drop n.toNat)

section
variable {o : ByteOrder} {w : Word} {n : SizeT w} {Whole Tail : List UInt8 → Prop} {s size string rest : List UInt8}

theorem Framed.ahead (h : Framed o w Whole (size ++ rest)) (hnil : Whole []) (hsize : size.length = 4)
    (htail : 1 ≤ (streamSize o w size).toInt → (streamSize o w size).toNat ≤ rest.length →
      Tail (rest.drop (streamSize o w size).toNat)) :
    StringAhead (streamSize o w size) rest Tail :=
  have hfirst := h [] size rest rfl hnil hsize
  ⟨hfirst.1, hfirst.2, htail⟩

theorem StringAhead.le_bufLen (h : StringAhead n (string ++ rest) Tail) (hle : string.length ≤ n.toNat) :
    string.length ≤ bufLen := by
  have hfits := h.fits
  rw [List.length_append] at hfits
  omega

theorem StringAhead.toInt_pos (h : StringAhead n (string ++ rest) Tail) (hlen : string.length = n.toNat)
    (hpos : 0 < n.toNat) :
    n.toNat < 2 ^ 31 ∧ 1 ≤ n.toInt := by
  have hle := h.le_bufLen (Nat.le_of_eq hlen)
  simp only [bufLen] at hle
  have hint := Transfer.not_toInt_lt_one hpos (by omega)
  exact ⟨by omega, by omega⟩

/-- Another piece of it stays inside the buffer. -/
theorem StringAhead.extent_le {t : Transfer w} {buffer : Mem} {got bs : List UInt8} {extent : Nat}
    (h : StringAhead t.size ((got ++ bs) ++ rest) Tail) (hgot : t.Receiving buffer got) (hle : bs.length ≤ t.left)
    (hextent : extent ≤ bufLen) : max extent (t.position.toNat + bs.length) ≤ bufLen := by
  have hlt := hgot.lt
  rw [hgot.toAt.left] at hle
  have hfits := h.le_bufLen (by rw [List.length_append]; omega)
  rw [List.length_append] at hfits
  rw [hgot.position]
  omega

/-- A string that has come in full is terminated. -/
theorem StringAhead.whole (h : StringAhead n (string ++ rest) Tail) (hlen : string.length = n.toNat)
    (hpos : 0 < n.toNat) :
    (0 : UInt8) ∈ string ∧ Tail rest := by
  have hzero := h.zero hpos (by rw [List.length_append]; omega)
  have htail := h.tail (h.toInt_pos hlen hpos).2 (by rw [List.length_append]; omega)
  rw [List.take_left' hlen] at hzero
  rw [List.drop_left' hlen] at htail
  exact ⟨hzero, htail⟩

/-- What follows a whole request is framed as well. -/
theorem Framed.lua_tail (h : Framed o w (LuaRequests o w) (size ++ rest)) (hsize : size.length = 4)
    (hpos : 1 ≤ (streamSize o w size).toInt) (hle : (streamSize o w size).toNat ≤ rest.length) :
    Framed o w (LuaRequests o w) (rest.drop (streamSize o w size).toNat) := by
  intro before size' rest' heq hwhole hsize'
  have hsplit := List.take_append_drop (streamSize o w size).toNat rest
  refine h (size ++ (rest.take (streamSize o w size).toNat ++ before)) size' rest' ?_
    (.cons hsize hpos (List.length_take_of_le hle) hwhole) hsize'
  simp only [List.append_assoc]
  rw [← heq, hsplit]

theorem messageSize_of_read {message : Mem} (h : message.read 0 4 = size) :
    (messageSize o message : SizeT w) = streamSize o w size := by rw [messageSize, streamSize, h]

theorem Transfer.start_left_or_receiving (n : SizeT w) (data : Mem) :
    (Transfer.start n).left = 0 ∨ (Transfer.start n).Receiving data [] := by
  rcases Nat.eq_zero_or_pos n.toNat with hzero | hpos
  · exact Or.inl (by simp [Transfer.left, Transfer.start, hzero])
  · exact Or.inr (.start data hpos)

theorem framed_nil : Framed o w Whole [] := by
  intro before size rest h _ hsize
  have hlen := congrArg List.length h
  simp only [List.length_append, List.length_nil] at hlen
  omega

end

/-- A handler that is safe whatever happens next has been sent a string that keeps to the buffer. -/
theorem string_of_safe {σ : Type} {P : Program σ Target UInt8 ServerOp NetErrno} {f : Fed σ Request UInt8} {w : Word}
    {n : SizeT w} (hcall : P.call f.program = .read .buffer 0 n.toNat) (hbytes : f.world.bytes = [])
    (hhands : ∀ string, string.length = n.toNat → 1 ≤ n.toInt → ∃ op buffer,
      P.call (P.onRead f.program (.ok string)) = .op op ∧ op.string = some buffer ∧
      buffer.read 0 string.length = string)
    (hsafe : ∀ f', Fed.Reaches P Request.watch f f' → Safe P f') :
    min n.toNat f.rest.length ≤ bufLen ∧ (0 < n.toNat → n.toNat ≤ f.rest.length →
    (0 : UInt8) ∈ f.rest.take n.toNat) := by
  have hfits : min n.toNat f.rest.length ≤ bufLen := by
    refine Nat.le_of_not_lt fun hlt => ?_
    -- One byte too many is read at once.
    have hlen : (f.rest.take (bufLen + 1)).length = bufLen + 1 := List.length_take_of_le (by omega)
    have hstep : Fed.Step P Request.watch f _ := .took (f.rest.take (bufLen + 1)) hcall
      (List.take_append_drop _ _).symm (List.ne_nil_of_length_pos (by omega)) (by omega) rfl
    have hextent := (hsafe _ (.single hstep)).1
    simp only [hlen] at hextent
    omega
  refine ⟨hfits, fun hpos hle => ?_⟩
  have hlen : (f.rest.take n.toNat).length = n.toNat := List.length_take_of_le hle
  have hint : 1 ≤ n.toInt := by
    simp only [bufLen] at hfits
    have := Transfer.not_toInt_lt_one hpos (by omega)
    omega
  obtain ⟨op, buffer, hop, hstring, hread⟩ := hhands _ hlen hint
  have hstep : Fed.Step P Request.watch f _ := .took (f.rest.take n.toNat) hcall
    (List.take_append_drop _ _).symm (List.ne_nil_of_length_pos (by omega)) (by omega) rfl
  have hmade := (hsafe _ (.single hstep)).2 op buffer hop hstring
  simp only [hbytes, List.nil_append] at hmade
  exact (madeOf_iff hread).mp hmade

/-! ## luaConnectionHandler -/

theorem LuaHandler.onRead_error {w : Word} {o : ByteOrder} {s : LuaHandler w} {t : Transfer w}
    (hpc : s.pc = .size t ∨ s.pc = .string t) (e : NetErrno) :
    ((LuaHandler.program o).onRead s (.error e)).pc = .close := by
  obtain ⟨x, hnext, hx⟩ := t.next_error e
  rcases hpc with hpc | hpc <;>
  · simp only [program, onRead, hpc, Except.map, hnext]
    exact Transfer.netcheckLoop_stop hx

/-- What holds at each point of the handler while the strings keep to the buffer. -/
inductive LuaInv {w : Word} (o : ByteOrder) : Fed (LuaHandler w) Request UInt8 → Prop
  | size {s : LuaHandler w} {rest got : List UInt8} {q : Request} {t : Transfer w} (hpc : s.pc = .size t)
      (hfour : t.size.toNat = 4) (hgot : t.Receiving s.message got) (hs : Framed o w (LuaRequests o w) (got ++ rest))
      (hq : q.extent ≤ bufLen) : LuaInv o ⟨s, rest, q⟩
  | string {s : LuaHandler w} {rest : List UInt8} {q : Request} {t : Transfer w} (hpc : s.pc = .string t)
      (hgot : t.left = 0 ∨ t.Receiving s.buffer q.bytes)
      (hs : StringAhead t.size (q.bytes ++ rest) (Framed o w (LuaRequests o w))) (hq : q.extent ≤ bufLen) :
      LuaInv o ⟨s, rest, q⟩
  | execute {s : LuaHandler w} {rest : List UInt8} {q : Request} (hpc : s.pc = .execute)
      (hread : s.buffer.read 0 q.bytes.length = q.bytes) (hzero : (0 : UInt8) ∈ q.bytes)
      (hs : Framed o w (LuaRequests o w) rest) (hq : q.extent ≤ bufLen) : LuaInv o ⟨s, rest, q⟩
  | answer {s : LuaHandler w} {rest : List UInt8} {q : Request} {t : Transfer w} (hpc : s.pc = .answer t)
      (hs : Framed o w (LuaRequests o w) rest) (hq : q.extent ≤ bufLen) : LuaInv o ⟨s, rest, q⟩
  | closing {s : LuaHandler w} {rest : List UInt8} {q : Request} (hpc : s.pc = .close ∨ s.pc = .returned)
      (hq : q.extent ≤ bufLen) : LuaInv o ⟨s, rest, q⟩

namespace LuaInv
variable {w : Word} {o : ByteOrder} {s : LuaHandler w} {rest bs : List UInt8} {q q' : Request} {into : Target}
    {off n : Nat}
  {f f' : Fed (LuaHandler w) Request UInt8}

theorem top (hpc : s.pc = .size .int32) (hs : Framed o w (LuaRequests o w) rest) (hq : q.extent ≤ bufLen) :
    LuaInv o ⟨s, rest, q⟩ :=
  .size hpc Transfer.toNat_int32 (.int32 _) hs hq

theorem read (h : LuaInv o ⟨s, bs ++ rest, q⟩) (hcall : (LuaHandler.program o).call s = .read into off n)
    (hne : bs ≠ []) (hle : bs.length ≤ n)
    (hq' : Request.watch s (.stored into off bs) ((LuaHandler.program o).onRead s (.ok bs)) q = some q') :
    LuaInv o ⟨(LuaHandler.program o).onRead s (.ok bs), rest, q'⟩ := by
  generalize hreads : bs ++ rest = reads at h
  cases h with
  | size hpc hfour hgot hs hq =>
    cases (LuaHandler.call_of_pc hpc).symm.trans hcall
    cases hq'
    subst hreads
    rw [← List.append_assoc] at hs
    rcases hgot.next hle with ⟨t', hnext, hsize, hgot'⟩ | ⟨hnext, hlen, hread⟩
    · simp only [LuaHandler.program, LuaHandler.onRead, hpc, Except.map, hnext]
      exact .size rfl (hsize ▸ hfour) hgot' hs hq
    · rw [hlen, hfour] at hread
      simp only [LuaHandler.program, LuaHandler.onRead, hpc, Except.map, hnext]
      rw [Transfer.netcheckLoop_go (by omega) (by omega), messageSize_of_read hread]
      exact .string rfl (Transfer.start_left_or_receiving _ _)
        (hs.ahead .nil (hlen.trans hfour) (hs.lua_tail (hlen.trans hfour))) hq
  | string hpc hgot hs hq =>
    cases (LuaHandler.call_of_pc hpc).symm.trans hcall
    cases hq'
    subst hreads
    have hpos := List.length_pos_iff.mpr hne
    rw [← List.append_assoc] at hs
    rcases hgot with hzero | hgot
    · omega
    have hextent := hs.extent_le hgot hle hq
    rcases hgot.next hle with ⟨t', hnext, hsize, hgot'⟩ | ⟨hnext, hlen, hread⟩
    · simp only [LuaHandler.program, LuaHandler.onRead, hpc, Except.map, hnext]
      exact .string rfl (Or.inr hgot') (hsize ▸ hs) hextent
    · have hsize := Nat.zero_lt_of_lt hgot.lt
      obtain ⟨hzero, htail⟩ := hs.whole hlen hsize
      simp only [LuaHandler.program, LuaHandler.onRead, hpc, Except.map, hnext]
      rw [Transfer.netcheckLoop_go hsize (hs.toInt_pos hlen hsize).1]
      exact .execute rfl hread hzero htail hextent
  | execute hpc | answer hpc => cases (LuaHandler.call_of_pc hpc).symm.trans hcall
  | closing hpc => rcases hpc with hpc | hpc <;> cases (LuaHandler.call_of_pc hpc).symm.trans hcall

theorem step (h : LuaInv o f) (hstep : Fed.Step (LuaHandler.program o) Request.watch f f') : LuaInv o f' := by
  obtain ⟨a, ha⟩ := hstep
  obtain ⟨s, reads, q⟩ := f
  rcases Fed.step_cases ha with ⟨into, off, n, bs, rest, q', hcall, hrest, hne, hle, hq', -, rfl⟩ |
    ⟨into, off, n, e, hcall, -, -, rfl⟩ | ⟨bs, res, hcall, -, -, rfl⟩ | ⟨op, r, q', hcall, hq', -, rfl⟩
  · obtain rfl : reads = bs ++ rest := hrest
    exact h.read hcall hne hle hq'
  · -- A failed `read` leaves the loop.
    cases h with
    | size hpc _ _ _ hq => exact .closing (Or.inl (LuaHandler.onRead_error (Or.inl hpc) e)) hq
    | string hpc _ _ hq => exact .closing (Or.inl (LuaHandler.onRead_error (Or.inr hpc) e)) hq
    | execute hpc | answer hpc => cases (LuaHandler.call_of_pc hpc).symm.trans hcall
    | closing hpc => rcases hpc with hpc | hpc <;> cases (LuaHandler.call_of_pc hpc).symm.trans hcall
  · cases h with
    | @answer _ _ _ t hpc hs hq =>
      cases hnext : t.next res with
      | again t' =>
        simp only [LuaHandler.program, LuaHandler.onWrite, hpc, hnext]
        exact .answer rfl hs hq
      | returned x =>
        simp only [LuaHandler.program, LuaHandler.onWrite, hpc, hnext, netcheckLoop]
        split
        · exact .closing (Or.inl rfl) hq
        · exact .top rfl hs hq
    | size hpc | string hpc | execute hpc => cases (LuaHandler.call_of_pc hpc).symm.trans hcall
    | closing hpc => rcases hpc with hpc | hpc <;> cases (LuaHandler.call_of_pc hpc).symm.trans hcall
  · cases hq'
    cases h with
    | execute hpc _ _ hs hq =>
      simp only [LuaHandler.program, LuaHandler.onOp, hpc]
      exact .answer rfl hs hq
    | closing hpc hq =>
      rcases hpc with hpc | hpc
      · simp only [LuaHandler.program, LuaHandler.onOp, hpc]
        exact .closing (Or.inr rfl) hq
      · cases (LuaHandler.call_of_pc hpc).symm.trans hcall
    | size hpc | string hpc | answer hpc => cases (LuaHandler.call_of_pc hpc).symm.trans hcall

theorem safe (h : LuaInv o f) : Safe (LuaHandler.program o) f := by
  cases h with
  | execute hpc hread hzero hs hq =>
    refine ⟨hq, fun op buffer hcall hstring => ?_⟩
    cases (LuaHandler.call_of_pc hpc).symm.trans hcall
    cases hstring
    exact (madeOf_iff hread).mpr hzero
  | closing hpc hq =>
    refine ⟨hq, fun op buffer hcall hstring => ?_⟩
    rcases hpc with hpc | hpc <;> cases (LuaHandler.call_of_pc hpc).symm.trans hcall
    cases hstring
  | size hpc _ _ _ hq | string hpc _ _ hq | answer hpc _ hq =>
    exact ⟨hq, fun op buffer hcall _ => by cases (LuaHandler.call_of_pc hpc).symm.trans hcall⟩

end LuaInv

namespace LuaHandler
variable {w : Word} {o : ByteOrder} {s : LuaHandler w} {size string rest before : List UInt8} {n : SizeT w}
  {f : Fed (LuaHandler w) Request UInt8}

theorem step_size (hpc : f.program.pc = .size .int32) (hrest : f.rest = size ++ rest) (hsize : size.length = 4) :
    ∃ f', Fed.Step (LuaHandler.program o) Request.watch f f' ∧ f'.program.pc = .string (.start (streamSize o w size)) ∧
      f'.rest = rest ∧ f'.world.bytes = [] := by
  obtain ⟨hle, hnext, hread⟩ := Transfer.whole_int32 (w := w) f.program.message hsize
  refine ⟨_, .took size (call_of_pc hpc) hrest (List.ne_nil_of_length_pos (by omega)) hle rfl, ?_, rfl, rfl⟩
  simp only [program, onRead, hpc, Except.map, hsize, hnext]
  rw [Transfer.netcheckLoop_int32, messageSize_of_read hread]

theorem onRead_string (hpc : s.pc = .string (.start n)) (hlen : string.length = n.toNat) (hpos : 1 ≤ n.toInt) :
    ((LuaHandler.program o).onRead s (.ok string)).pc = .execute ∧
      ((LuaHandler.program o).onRead s (.ok string)).buffer.read 0 string.length = string := by
  obtain ⟨hnext, hread⟩ := (Transfer.Receiving.start s.buffer (Transfer.toNat_pos_of_toInt hpos)).whole hlen
  simp only [program, onRead, hpc, Except.map, hnext]
  refine ⟨if_neg ?_, hread⟩
  simp only [Transfer.start]
  omega

theorem step_string (hpc : f.program.pc = .string (.start n)) (hrest : f.rest = string ++ rest)
    (hlen : string.length = n.toNat) (hpos : 1 ≤ n.toInt) :
    ∃ f', Fed.Step (LuaHandler.program o) Request.watch f f' ∧ f'.program.pc = .execute ∧ f'.rest = rest := by
  have hne := Transfer.toNat_pos_of_toInt hpos
  refine ⟨_, .took string (call_of_pc hpc) hrest (List.ne_nil_of_length_pos (by omega)) ?_ rfl,
    (onRead_string hpc hlen hpos).1, rfl⟩
  rw [Transfer.left_start, hlen]

theorem step_execute (hpc : f.program.pc = .execute) :
    ∃ f', Fed.Step (LuaHandler.program o) Request.watch f f' ∧ f'.program.pc = .answer .int32 ∧ f'.rest = f.rest := by
  refine ⟨_, .answered (r := 0) (call_of_pc hpc) rfl, ?_, rfl⟩
  simp only [program, onOp, hpc]

theorem step_answer (hpc : f.program.pc = .answer .int32) :
    ∃ f', Fed.Step (LuaHandler.program o) Request.watch f f' ∧ f'.program.pc = .size .int32 ∧ f'.rest = f.rest := by
  have hsends : (Transfer.int32 : Transfer w).Sends (f.program.message.read 0 4) (f.program.message.read 0 4) :=
    .int32 Mem.length_read
  refine ⟨_, .accepted (k := 4) (call_of_pc hpc) (by omega) ?_, ?_, rfl⟩
  · simp only
    rw [hsends.window, Mem.length_read]
  · simp only [program, onWrite, hpc, Transfer.next_int32]
    exact Transfer.netcheckLoop_int32

/-- Whole requests are read, executed and answered one after the other. -/
theorem reaches_next (hwhole : LuaRequests o w before) (hpc : f.program.pc = .size .int32)
    (hrest : f.rest = before ++ rest) :
    ∃ f', Fed.Reaches (LuaHandler.program o) Request.watch f f' ∧ f'.program.pc = .size .int32 ∧ f'.rest = rest := by
  induction hwhole generalizing f with
  | nil => exact ⟨f, .refl, hpc, hrest⟩
  | @cons size string before hsize hpos hstring tail ih =>
    simp only [List.append_assoc] at hrest
    obtain ⟨f₁, hstep₁, hpc₁, hrest₁, -⟩ := step_size (o := o) hpc hrest hsize
    obtain ⟨f₂, hstep₂, hpc₂, hrest₂⟩ := step_string (o := o) hpc₁ hrest₁ hstring hpos
    obtain ⟨f₃, hstep₃, hpc₃, hrest₃⟩ := step_execute (o := o) hpc₂
    obtain ⟨f₄, hstep₄, hpc₄, hrest₄⟩ := step_answer (o := o) hpc₃
    obtain ⟨f', hreach, hpc', hrest'⟩ := ih hpc₄ (by rw [hrest₄, hrest₃, hrest₂])
    exact ⟨f', .head hstep₁ (.head hstep₂ (.head hstep₃ (.head hstep₄ hreach))), hpc', hrest'⟩

/-- The handler is safe on a stream if and only if the stream keeps its strings short and terminated. -/
theorem safe_iff_framed (hpc : f.program.pc = .size .int32) (hextent : f.world.extent ≤ bufLen) :
    (∀ f', Fed.Reaches (LuaHandler.program o) Request.watch f f' → Safe (LuaHandler.program o) f') ↔
      Framed o w (LuaRequests o w) f.rest := by
  constructor
  · intro hsafe before size rest heq hwhole hsize
    obtain ⟨f₁, hreach, hpc₁, hrest₁⟩ := reaches_next hwhole hpc heq
    obtain ⟨f₂, hstep, hpc₂, hrest₂, hbytes⟩ := step_size (o := o) hpc₁ hrest₁ hsize
    rw [← hrest₂]
    refine string_of_safe ((call_of_pc hpc₂).trans (by simp [call])) hbytes ?_ fun f' h =>
      hsafe f' (hreach.trans (.head hstep h))
    intro string hlen hpos
    obtain ⟨hpc₃, hread⟩ := onRead_string (o := o) hpc₂ hlen hpos
    exact ⟨_, _, call_of_pc hpc₃, rfl, hread⟩
  · intro hframed f' hreach
    exact (Fed.Reaches.keeps (fun _ _ => LuaInv.step) (LuaInv.top hpc hframed hextent) hreach).safe

end LuaHandler

/-! ## binaryConnectionHandler -/

/-- What comes after a name: a size, a content of that size, and further requests. -/
def AfterName (o : ByteOrder) (w : Word) (s : List UInt8) : Prop :=
  ∀ size rest, s = size ++ rest → size.length = 4 → 1 ≤ (streamSize o w size).toInt →
    (streamSize o w size).toNat ≤ rest.length → Framed o w (BinaryRequests o w) (rest.drop (streamSize o w size).toNat)

/-- What comes after a size `n`: `left` bytes of content, and further requests if the handler takes any. -/
def BodyAhead (o : ByteOrder) {w : Word} (n : SizeT w) (left : Nat) (s : List UInt8) : Prop :=
  1 ≤ n.toInt → left ≤ s.length → Framed o w (BinaryRequests o w) (s.drop left)

section
variable {o : ByteOrder} {w : Word} {n : SizeT w} {size bs rest : List UInt8} {left : Nat}

theorem Framed.afterName (h : Framed o w (BinaryRequests o w) (size ++ rest)) (hsize : size.length = 4)
    (hpos : 1 ≤ (streamSize o w size).toInt) (hle : (streamSize o w size).toNat ≤ rest.length) :
    AfterName o w (rest.drop (streamSize o w size).toNat) := by
  intro size' rest' heq hsize' hpos' hle' before size'' rest'' heq' hwhole hsize''
  have hsplit := List.take_append_drop (streamSize o w size).toNat rest
  have hsplit' := List.take_append_drop (streamSize o w size').toNat rest'
  refine h (size ++ (rest.take (streamSize o w size).toNat ++
    (size' ++ (rest'.take (streamSize o w size').toNat ++ before))))
    size'' rest'' ?_ (.cons hsize hpos (List.length_take_of_le hle) hsize' hpos' (List.length_take_of_le hle') hwhole)
      hsize''
  simp only [List.append_assoc]
  rw [← heq', hsplit', ← heq, hsplit]

theorem AfterName.body (h : AfterName o w (size ++ rest)) (hsize : size.length = 4) :
    BodyAhead o (streamSize o w size) (streamSize o w size).toNat rest :=
  h size rest rfl hsize

theorem BodyAhead.arrive (h : BodyAhead o n left (bs ++ rest)) (hle : bs.length ≤ left) :
    BodyAhead o n (left - bs.length) rest := by
  intro hpos hrest
  have hframed := h hpos (by rw [List.length_append]; omega)
  obtain ⟨k, rfl⟩ := Nat.exists_eq_add_of_le hle
  rwa [← List.drop_drop, List.drop_left' rfl, ← Nat.add_sub_cancel_left bs.length k] at hframed

end

theorem BinaryHandler.onRead_error {w : Word} {o : ByteOrder} {s : BinaryHandler w} {t : Transfer w}
    (hpc : s.pc = .nameSize t ∨ s.pc = .name t ∨ s.pc = .size t) (e : NetErrno) :
    ((BinaryHandler.program o).onRead s (.error e)).pc = .close := by
  obtain ⟨x, hnext, hx⟩ := t.next_error e
  rcases hpc with hpc | hpc | hpc <;>
  · simp only [program, onRead, hpc, Except.map, hnext]
    exact Transfer.netcheckLoop_stop hx

/-- What holds at each point of the handler while the strings keep to the buffer. Once a content is cut short
    nothing more can be read. -/
inductive BinaryInv {w : Word} (o : ByteOrder) : Fed (BinaryHandler w) Request UInt8 → Prop
  | nameSize {s : BinaryHandler w} {rest got : List UInt8} {q : Request} {t : Transfer w} (hpc : s.pc = .nameSize t)
      (hfour : t.size.toNat = 4) (hgot : t.Receiving s.message got) (hs : Framed o w (BinaryRequests o w) (got ++ rest))
      (hq : q.extent ≤ bufLen) : BinaryInv o ⟨s, rest, q⟩
  | name {s : BinaryHandler w} {rest : List UInt8} {q : Request} {t : Transfer w} (hpc : s.pc = .name t)
      (hgot : t.left = 0 ∨ t.Receiving s.buffer q.bytes) (hs : StringAhead t.size (q.bytes ++ rest) (AfterName o w))
      (hq : q.extent ≤ bufLen) : BinaryInv o ⟨s, rest, q⟩
  | «open» {s : BinaryHandler w} {rest : List UInt8} {q : Request} (hpc : s.pc = .open)
      (hread : s.buffer.read 0 q.bytes.length = q.bytes) (hzero : (0 : UInt8) ∈ q.bytes) (hs : AfterName o w rest)
      (hq : q.extent ≤ bufLen) : BinaryInv o ⟨s, rest, q⟩
  | size {s : BinaryHandler w} {rest got : List UInt8} {q : Request} {t : Transfer w} (hpc : s.pc = .size t)
      (hfour : t.size.toNat = 4) (hgot : t.Receiving s.message got) (hs : AfterName o w (got ++ rest))
      (hq : q.extent ≤ bufLen) : BinaryInv o ⟨s, rest, q⟩
  | go {s : BinaryHandler w} {rest : List UInt8} {q : Request} {t : Transfer w} (hpc : s.pc = .go t)
      (hs : BodyAhead o (messageSize o s.message : SizeT w) (messageSize o s.message : SizeT w).toNat rest)
      (hq : q.extent ≤ bufLen) : BinaryInv o ⟨s, rest, q⟩
  | receive {s : BinaryHandler w} {rest : List UInt8} {q : Request} {leftToReceive : SizeT w} {t : Transfer w}
      (hpc : s.pc = .receive leftToReceive t)
      (hs : rest = [] ∨ ∃ got, t.Receiving s.rwBuffer got ∧ t.size.toNat ≤ leftToReceive.toNat ∧
        BodyAhead o s.size (leftToReceive.toNat - got.length) rest) (hq : q.extent ≤ bufLen) : BinaryInv o ⟨s, rest, q⟩
  | write {s : BinaryHandler w} {rest : List UInt8} {q : Request} {leftToReceive received written : SizeT w}
      (hpc : s.pc = .write leftToReceive received written)
      (hs : rest = [] ∨ BodyAhead o s.size leftToReceive.toNat rest)
      (hq : q.extent ≤ bufLen) : BinaryInv o ⟨s, rest, q⟩
  | malloc {s : BinaryHandler w} {rest : List UInt8} {q : Request} (hpc : s.pc = .malloc)
      (hs : BodyAhead o s.size s.size.toNat rest) (hq : q.extent ≤ bufLen) : BinaryInv o ⟨s, rest, q⟩
  | closing {s : BinaryHandler w} {rest : List UInt8} {q : Request}
      (hpc : s.pc = .close ∨ s.pc = .returned ∨ s.pc = .faulted)
      (hq : q.extent ≤ bufLen) : BinaryInv o ⟨s, rest, q⟩

namespace BinaryInv
variable {w : Word} {o : ByteOrder} {s : BinaryHandler w} {rest bs : List UInt8} {q q' : Request} {into : Target}
    {off n : Nat}
  {f f' : Fed (BinaryHandler w) Request UInt8}

theorem top (hpc : s.pc = .nameSize .int32) (hs : Framed o w (BinaryRequests o w) rest) (hq : q.extent ≤ bufLen) :
    BinaryInv o ⟨s, rest, q⟩ :=
  .nameSize hpc Transfer.toNat_int32 (.int32 _) hs hq

theorem loop {leftToReceive : SizeT w} (hs : rest = [] ∨ BodyAhead o s.size leftToReceive.toNat rest)
    (hq : q.extent ≤ bufLen) : BinaryInv o ⟨s.loop leftToReceive, rest, q⟩ := by
  by_cases hmore : 0 < leftToReceive.toNat
  · obtain ⟨size, hloop, hsize, hpos⟩ := s.loop_more hmore
    rw [hloop]
    refine .receive rfl (hs.imp_right fun hbody => ⟨[], .start _ hpos, ?_, hbody⟩) hq
    simp only [Transfer.start]
    omega
  · rw [BinaryHandler.loop, if_neg hmore, netcheckLoop]
    split
    · exact .closing (Or.inl rfl) hq
    · next hgo =>
      refine .top rfl ?_ hq
      rcases hs with rfl | hbody
      · exact framed_nil
      · have hframed := hbody (by omega) (by omega)
        rwa [show leftToReceive.toNat = 0 by omega] at hframed

theorem read (h : BinaryInv o ⟨s, bs ++ rest, q⟩) (hcall : (BinaryHandler.program o).call s = .read into off n)
    (hne : bs ≠ []) (hle : bs.length ≤ n)
    (hq' : Request.watch s (.stored into off bs) ((BinaryHandler.program o).onRead s (.ok bs)) q = some q') :
    BinaryInv o ⟨(BinaryHandler.program o).onRead s (.ok bs), rest, q'⟩ := by
  generalize hreads : bs ++ rest = reads at h
  cases h with
  | nameSize hpc hfour hgot hs hq =>
    cases (BinaryHandler.call_of_pc hpc).symm.trans hcall
    cases hq'
    subst hreads
    rw [← List.append_assoc] at hs
    rcases hgot.next hle with ⟨t', hnext, hsize, hgot'⟩ | ⟨hnext, hlen, hread⟩
    · simp only [BinaryHandler.program, BinaryHandler.onRead, hpc, Except.map, hnext]
      exact .nameSize rfl (hsize ▸ hfour) hgot' hs hq
    · rw [hlen, hfour] at hread
      simp only [BinaryHandler.program, BinaryHandler.onRead, hpc, Except.map, hnext]
      rw [Transfer.netcheckLoop_go (by omega) (by omega), messageSize_of_read hread]
      exact .name rfl (Transfer.start_left_or_receiving _ _)
        (hs.ahead .nil (hlen.trans hfour) (hs.afterName (hlen.trans hfour))) hq
  | name hpc hgot hs hq =>
    cases (BinaryHandler.call_of_pc hpc).symm.trans hcall
    cases hq'
    subst hreads
    have hpos := List.length_pos_iff.mpr hne
    rw [← List.append_assoc] at hs
    rcases hgot with hzero | hgot
    · omega
    -- The bytes that arrive are of a string that fits the buffer, so they are stored inside it.
    have hextent := hs.extent_le hgot hle hq
    rcases hgot.next hle with ⟨t', hnext, hsize, hgot'⟩ | ⟨hnext, hlen, hread⟩
    · simp only [BinaryHandler.program, BinaryHandler.onRead, hpc, Except.map, hnext]
      exact .name rfl (Or.inr hgot') (hsize ▸ hs) hextent
    · -- The string ends with its terminator, inside what was stored.
      have hsize := Nat.zero_lt_of_lt hgot.lt
      obtain ⟨hzero, htail⟩ := hs.whole hlen hsize
      simp only [BinaryHandler.program, BinaryHandler.onRead, hpc, Except.map, hnext]
      rw [Transfer.netcheckLoop_go hsize (hs.toInt_pos hlen hsize).1]
      exact .open rfl hread hzero htail hextent
  | size hpc hfour hgot hs hq =>
    cases (BinaryHandler.call_of_pc hpc).symm.trans hcall
    cases hq'
    subst hreads
    rw [← List.append_assoc] at hs
    rcases hgot.next hle with ⟨t', hnext, hsize, hgot'⟩ | ⟨hnext, hlen, hread⟩
    · simp only [BinaryHandler.program, BinaryHandler.onRead, hpc, Except.map, hnext]
      exact .size rfl (hsize ▸ hfour) hgot' hs hq
    · rw [hlen, hfour] at hread
      simp only [BinaryHandler.program, BinaryHandler.onRead, hpc, Except.map, hnext]
      rw [Transfer.netcheckLoop_go (by omega) (by omega)]
      refine .go rfl ?_ hq
      rw [messageSize_of_read hread]
      exact hs.body (hlen.trans hfour)
  | @receive _ _ _ leftToReceive t hpc hs hq =>
    cases (BinaryHandler.call_of_pc hpc).symm.trans hcall
    cases hq'
    subst hreads
    -- Bytes arrive, so the stream is not at its end and what follows the chunk is known.
    obtain ⟨got, hgot, hsize, hbody⟩ := hs.resolve_left (List.append_ne_nil_of_left_ne_nil hne _)
    have hlt := hgot.lt
    have hleft := hgot.toAt.left
    have hbody' := hbody.arrive (by omega)
    rw [Nat.sub_sub, ← List.length_append] at hbody'
    rcases hgot.next hle with ⟨t', hnext, hsize', hgot'⟩ | ⟨hnext, hlen, -⟩
    · simp only [BinaryHandler.program, BinaryHandler.onRead, hpc, Except.map, hnext]
      exact .receive rfl (Or.inr ⟨_, hgot', by rw [hsize']; exact hsize, hbody'⟩) hq
    · simp only [BinaryHandler.program, BinaryHandler.onRead, hpc, Except.map, hnext]
      rw [if_pos (by omega)]
      refine .write rfl (Or.inr ?_) hq
      rwa [BitVec.toNat_sub_of_le (by rwa [BitVec.le_def]), ← hlen]
  | «open» hpc | go hpc | malloc hpc | write hpc => cases (BinaryHandler.call_of_pc hpc).symm.trans hcall
  | closing hpc => rcases hpc with hpc | hpc | hpc <;> cases (BinaryHandler.call_of_pc hpc).symm.trans hcall

theorem cut (h : BinaryInv o ⟨s, rest, q⟩) (hcall : (BinaryHandler.program o).call s = .read into off n)
    (hend : n = 0 ∨ rest = []) (e : NetErrno) :
    BinaryInv o ⟨(BinaryHandler.program o).onRead s (.error e), rest, q⟩ := by
  cases h with
  | nameSize hpc _ _ _ hq => exact .closing (Or.inl (BinaryHandler.onRead_error (Or.inl hpc) e)) hq
  | name hpc _ _ hq => exact .closing (Or.inl (BinaryHandler.onRead_error (Or.inr (Or.inl hpc)) e)) hq
  | size hpc _ _ _ hq => exact .closing (Or.inl (BinaryHandler.onRead_error (Or.inr (Or.inr hpc)) e)) hq
  | receive hpc hs hq =>
    cases (BinaryHandler.call_of_pc hpc).symm.trans hcall
    -- A chunk asks for at least one byte, so the stream has ended.
    have hnil : rest = [] := by
      rcases hs with hnil | ⟨got, hgot, -⟩
      · exact hnil
      · have hlt := hgot.lt
        have hleft := hgot.toAt.left
        exact hend.resolve_left (by omega)
    simp only [BinaryHandler.program, BinaryHandler.onRead, hpc, Except.map]
    split
    · exact .receive rfl (Or.inl hnil) hq
    · split
      · exact .write rfl (Or.inl hnil) hq
      · exact .loop (Or.inl hnil) hq
  | «open» hpc | go hpc | malloc hpc | write hpc => cases (BinaryHandler.call_of_pc hpc).symm.trans hcall
  | closing hpc => rcases hpc with hpc | hpc | hpc <;> cases (BinaryHandler.call_of_pc hpc).symm.trans hcall

theorem step (h : BinaryInv o f) (hstep : Fed.Step (BinaryHandler.program o) Request.watch f f') : BinaryInv o f' := by
  obtain ⟨a, ha⟩ := hstep
  obtain ⟨s, reads, q⟩ := f
  rcases Fed.step_cases ha with ⟨into, off, n, bs, rest, q', hcall, hrest, hne, hle, hq', -, rfl⟩ |
    ⟨into, off, n, e, hcall, hend, -, rfl⟩ | ⟨bs, res, hcall, -, -, rfl⟩ | ⟨op, r, q', hcall, hq', -, rfl⟩
  · obtain rfl : reads = bs ++ rest := hrest
    exact h.read hcall hne hle hq'
  · exact h.cut hcall hend e
  · cases h with
    | @go _ _ _ t hpc hs hq =>
      cases hnext : t.next res with
      | again t' =>
        simp only [BinaryHandler.program, BinaryHandler.onWrite, hpc, hnext]
        exact .go rfl hs hq
      | returned x =>
        simp only [BinaryHandler.program, BinaryHandler.onWrite, hpc, hnext, netcheckLoop]
        split
        · exact .closing (Or.inl rfl) hq
        · exact .malloc rfl hs hq
    | nameSize hpc | name hpc | «open» hpc | size hpc | malloc hpc | receive hpc | write hpc =>
      cases (BinaryHandler.call_of_pc hpc).symm.trans hcall
    | closing hpc => rcases hpc with hpc | hpc | hpc <;> cases (BinaryHandler.call_of_pc hpc).symm.trans hcall
  · cases hq'
    cases h with
    | «open» hpc _ _ hs hq =>
      simp only [BinaryHandler.program, BinaryHandler.onOp, hpc]
      exact .size rfl Transfer.toNat_int32 (.int32 _) hs hq
    | malloc hpc hs hq =>
      simp only [BinaryHandler.program, BinaryHandler.onOp, hpc]
      split
      · exact .closing (Or.inr (Or.inr rfl)) hq
      · exact .loop (Or.inr hs) hq
    | write hpc hs hq =>
      simp only [BinaryHandler.program, BinaryHandler.onOp, hpc]
      split
      · exact .write rfl hs hq
      · exact .loop hs hq
    | closing hpc hq =>
      rcases hpc with hpc | hpc | hpc
      · simp only [BinaryHandler.program, BinaryHandler.onOp, hpc]
        exact .closing (Or.inr (Or.inl rfl)) hq
      · cases (BinaryHandler.call_of_pc hpc).symm.trans hcall
      · cases (BinaryHandler.call_of_pc hpc).symm.trans hcall
    | nameSize hpc | name hpc | size hpc | go hpc | receive hpc =>
      cases (BinaryHandler.call_of_pc hpc).symm.trans hcall

theorem safe (h : BinaryInv o f) : Safe (BinaryHandler.program o) f := by
  cases h with
  | «open» hpc hread hzero hs hq =>
    refine ⟨hq, fun op buffer hcall hstring => ?_⟩
    cases (BinaryHandler.call_of_pc hpc).symm.trans hcall
    cases hstring
    exact (madeOf_iff hread).mpr hzero
  | malloc hpc _ hq | write hpc _ hq =>
    refine ⟨hq, fun op buffer hcall hstring => ?_⟩
    cases (BinaryHandler.call_of_pc hpc).symm.trans hcall
    cases hstring
  | closing hpc hq =>
    refine ⟨hq, fun op buffer hcall hstring => ?_⟩
    rcases hpc with hpc | hpc | hpc <;> cases (BinaryHandler.call_of_pc hpc).symm.trans hcall
    cases hstring
  | nameSize hpc _ _ _ hq | name hpc _ _ hq | size hpc _ _ _ hq | go hpc _ hq | receive hpc _ hq =>
    exact ⟨hq, fun op buffer hcall _ => by cases (BinaryHandler.call_of_pc hpc).symm.trans hcall⟩

end BinaryInv

namespace BinaryHandler
variable {w : Word} {o : ByteOrder} {s : BinaryHandler w} {size name rest before : List UInt8} {n : SizeT w}
  {f : Fed (BinaryHandler w) Request UInt8}

theorem step_nameSize (hpc : f.program.pc = .nameSize .int32) (hrest : f.rest = size ++ rest)
    (hsize : size.length = 4) :
    ∃ f', Fed.Step (BinaryHandler.program o) Request.watch f f' ∧ f'.program.pc = .name (.start (streamSize o w size)) ∧
      f'.rest = rest ∧ f'.world.bytes = [] := by
  obtain ⟨hle, hnext, hread⟩ := Transfer.whole_int32 (w := w) f.program.message hsize
  refine ⟨_, .took size (call_of_pc hpc) hrest (List.ne_nil_of_length_pos (by omega)) hle rfl, ?_, rfl, rfl⟩
  simp only [program, onRead, hpc, Except.map, hsize, hnext]
  rw [Transfer.netcheckLoop_int32, messageSize_of_read hread]

theorem onRead_name (hpc : s.pc = .name (.start n)) (hlen : name.length = n.toNat) (hpos : 1 ≤ n.toInt) :
    ((BinaryHandler.program o).onRead s (.ok name)).pc = .open ∧
      ((BinaryHandler.program o).onRead s (.ok name)).buffer.read 0 name.length = name := by
  obtain ⟨hnext, hread⟩ := (Transfer.Receiving.start s.buffer (Transfer.toNat_pos_of_toInt hpos)).whole hlen
  simp only [program, onRead, hpc, Except.map, hnext]
  refine ⟨if_neg ?_, hread⟩
  simp only [Transfer.start]
  omega

theorem step_name (hpc : f.program.pc = .name (.start n)) (hrest : f.rest = name ++ rest) (hlen : name.length = n.toNat)
    (hpos : 1 ≤ n.toInt) :
    ∃ f', Fed.Step (BinaryHandler.program o) Request.watch f f' ∧ f'.program.pc = .open ∧ f'.rest = rest := by
  have hne := Transfer.toNat_pos_of_toInt hpos
  refine ⟨_, .took name (call_of_pc hpc) hrest (List.ne_nil_of_length_pos (by omega)) ?_ rfl,
    (onRead_name hpc hlen hpos).1, rfl⟩
  rw [Transfer.left_start, hlen]

theorem step_open (hpc : f.program.pc = .open) :
    ∃ f', Fed.Step (BinaryHandler.program o) Request.watch f f' ∧ f'.program.pc = .size .int32 ∧ f'.rest = f.rest := by
  refine ⟨_, .answered (r := 0) (call_of_pc hpc) rfl, ?_, rfl⟩
  simp only [program, onOp, hpc]

theorem step_size (hpc : f.program.pc = .size .int32) (hrest : f.rest = size ++ rest) (hsize : size.length = 4) :
    ∃ f', Fed.Step (BinaryHandler.program o) Request.watch f f' ∧ f'.program.pc = .go .int32 ∧
      (messageSize o f'.program.message : SizeT w) = streamSize o w size ∧ f'.rest = rest := by
  obtain ⟨hle, hnext, hread⟩ := Transfer.whole_int32 (w := w) f.program.message hsize
  refine ⟨_, .took size (call_of_pc hpc) hrest (List.ne_nil_of_length_pos (by omega)) hle rfl, ?_, ?_, rfl⟩
  · simp only [program, onRead, hpc, Except.map, hsize, hnext]
    exact Transfer.netcheckLoop_int32
  · simp only [program, onRead, hpc, Except.map, hsize, hnext]
    exact messageSize_of_read hread

theorem step_go (hpc : f.program.pc = .go .int32) :
    ∃ f', Fed.Step (BinaryHandler.program o) Request.watch f f' ∧ f'.program.pc = .malloc ∧
      f'.program.size = messageSize o f.program.message ∧ f'.rest = f.rest := by
  have hsends : (Transfer.int32 : Transfer w).Sends (o.bytes goSend) (o.bytes goSend) :=
    .int32 ByteOrder.length_bytes
  refine ⟨_, .accepted (k := 4) (call_of_pc hpc) (by omega) ?_, ?_, ?_, rfl⟩
  · rw [hsends.window, ByteOrder.length_bytes]
  · simp only [program, onWrite, hpc, Transfer.next_int32]
    rw [Transfer.netcheckLoop_int32]
  · simp only [program, onWrite, hpc, Transfer.next_int32]
    rw [Transfer.netcheckLoop_int32]

theorem step_malloc (hpc : f.program.pc = .malloc) :
    ∃ f', Fed.Step (BinaryHandler.program o) Request.watch f f' ∧ f'.program = f.program.loop f.program.size ∧
      f'.rest = f.rest := by
  refine ⟨_, .answered (r := 1) (call_of_pc hpc) rfl, ?_, rfl⟩
  simp only [program, onOp, hpc]
  exact if_neg fun hnull => Int.one_ne_zero hnull.1

theorem step_receive {leftToReceive c : SizeT w} {chunk : List UInt8}
    (hpc : f.program.pc = .receive leftToReceive (.start c))
    (hpos : 0 < c.toNat) (hlen : chunk.length = c.toNat) (hrest : f.rest = chunk ++ rest) :
    ∃ f', Fed.Step (BinaryHandler.program o) Request.watch f f' ∧ f'.program.pc = .write (leftToReceive - c) c 0 ∧
      f'.program.size = f.program.size ∧ f'.rest = rest := by
  have hnext := ((Transfer.Receiving.start f.program.rwBuffer hpos).whole hlen).1
  have hsize : (Transfer.start c).size = c := rfl
  refine ⟨_, .took chunk (call_of_pc hpc) hrest (List.ne_nil_of_length_pos (by omega)) ?_ rfl, ?_, ?_, rfl⟩
  · rw [Transfer.left_start, hlen]
  · simp only [program, onRead, hpc, Except.map, hnext, hsize]
    rw [if_pos hpos]
  · simp only [program, onRead, hpc, Except.map, hnext, hsize]
    rw [if_pos hpos]

theorem step_write {leftToReceive c : SizeT w} (hpc : f.program.pc = .write leftToReceive c 0) :
    ∃ f', Fed.Step (BinaryHandler.program o) Request.watch f f' ∧ f'.program = f.program.loop leftToReceive ∧
      f'.rest = f.rest := by
  have hall : ((0 : SizeT w) + BitVec.ofInt _ (c.toNat : Int)).toNat = c.toNat := by
    have hzero : (0 : SizeT w).toNat = 0 := by simp
    rw [BitVec.toNat_add, hzero, Nat.zero_add, BitVec.ofInt_natCast, BitVec.toNat_ofNat, Nat.mod_mod,
      Nat.mod_eq_of_lt c.isLt]
  refine ⟨_, .answered (r := c.toNat) (call_of_pc hpc) rfl, ?_, rfl⟩
  simp only [program, onOp, hpc, hall, Nat.lt_irrefl, if_false]

/-- A content that is there is received to its end, chunk by chunk. -/
theorem reaches_loop {content : List UInt8} {leftToReceive : SizeT w} (hlen : content.length = leftToReceive.toNat)
    (hpos : 1 ≤ s.size.toInt) (hloop : f.program = s.loop leftToReceive) (hrest : f.rest = content ++ rest) :
    ∃ f', Fed.Reaches (BinaryHandler.program o) Request.watch f f' ∧ f'.program.pc = .nameSize .int32 ∧
    f'.rest = rest := by
  induction hn : content.length using Nat.strong_induction_on generalizing content leftToReceive s f with
  | _ n ih =>
    rcases Nat.eq_zero_or_pos leftToReceive.toNat with hzero | hmore
    · obtain rfl : content = [] := List.length_eq_zero_iff.mp (by omega)
      refine ⟨f, .refl, ?_, hrest⟩
      rw [hloop, loop, if_neg (by omega)]
      exact if_neg (by omega)
    · obtain ⟨c, hchunkLoop, hmin, hc⟩ := s.loop_more hmore
      have hle : c.toNat ≤ leftToReceive.toNat := hmin.trans_le (Nat.min_le_right _ _)
      have hpc₁ : f.program.pc = .receive leftToReceive (.start c) := by rw [hloop, hchunkLoop]
      have hsize₁ : f.program.size = s.size := by rw [hloop, hchunkLoop]
      have hchunk : (content.take c.toNat).length = c.toNat := List.length_take_of_le (by omega)
      have hsplit : f.rest = content.take c.toNat ++ (content.drop c.toNat ++ rest) := by
        rw [← List.append_assoc, List.take_append_drop, hrest]
      have hleft : (leftToReceive - c).toNat = leftToReceive.toNat - c.toNat :=
        BitVec.toNat_sub_of_le (by rwa [BitVec.le_def])
      have hdrop : (content.drop c.toNat).length = (leftToReceive - c).toNat := by
        rw [List.length_drop, hleft, hlen]
      obtain ⟨f₂, hstep₂, hpc₂, hsize₂, hrest₂⟩ := step_receive (o := o) hpc₁ hc hchunk hsplit
      obtain ⟨f₃, hstep₃, hloop₃, hrest₃⟩ := step_write (o := o) hpc₂
      obtain ⟨f', hreach, hpc', hrest'⟩ :=
        ih _ (by omega) hdrop (by rwa [hsize₂, hsize₁]) hloop₃ (hrest₃.trans hrest₂) rfl
      exact ⟨f', .head hstep₂ (.head hstep₃ hreach), hpc', hrest'⟩

/-- Whole requests are received one after the other. -/
theorem reaches_next (hwhole : BinaryRequests o w before) (hpc : f.program.pc = .nameSize .int32)
    (hrest : f.rest = before ++ rest) :
    ∃ f', Fed.Reaches (BinaryHandler.program o) Request.watch f f' ∧ f'.program.pc = .nameSize .int32 ∧
    f'.rest = rest := by
  induction hwhole generalizing f with
  | nil => exact ⟨f, .refl, hpc, hrest⟩
  | @cons nameSize name size content before hnameSize hnamePos hname hsize hpos hcontent tail ih =>
    simp only [List.append_assoc] at hrest
    obtain ⟨f₁, hstep₁, hpc₁, hrest₁, -⟩ := step_nameSize (o := o) hpc hrest hnameSize
    obtain ⟨f₂, hstep₂, hpc₂, hrest₂⟩ := step_name (o := o) hpc₁ hrest₁ hname hnamePos
    obtain ⟨f₃, hstep₃, hpc₃, hrest₃⟩ := step_open (o := o) hpc₂
    obtain ⟨f₄, hstep₄, hpc₄, hmessage, hrest₄⟩ := step_size (o := o) hpc₃ (hrest₃.trans hrest₂) hsize
    obtain ⟨f₅, hstep₅, hpc₅, hs, hrest₅⟩ := step_go (o := o) hpc₄
    obtain ⟨f₆, hstep₆, hloop, hrest₆⟩ := step_malloc (o := o) hpc₅
    rw [hmessage] at hs
    rw [hs] at hloop
    obtain ⟨f₇, hreach₇, hpc₇, hrest₇⟩ := reaches_loop (o := o) hcontent (by rwa [hs]) hloop
      (hrest₆.trans (hrest₅.trans hrest₄))
    obtain ⟨f', hreach, hpc', hrest'⟩ := ih hpc₇ hrest₇
    refine ⟨f', .head hstep₁ (.head hstep₂ (.head hstep₃ (.head hstep₄ (.head hstep₅ (.head hstep₆ ?_))))), hpc',
      hrest'⟩
    exact hreach₇.trans hreach

/-- The handler is safe on a stream if and only if the stream keeps its names short and terminated. -/
theorem safe_iff_framed (hpc : f.program.pc = .nameSize .int32) (hextent : f.world.extent ≤ bufLen) :
    (∀ f', Fed.Reaches (BinaryHandler.program o) Request.watch f f' → Safe (BinaryHandler.program o) f') ↔
      Framed o w (BinaryRequests o w) f.rest := by
  constructor
  · intro hsafe before size rest heq hwhole hsize
    obtain ⟨f₁, hreach, hpc₁, hrest₁⟩ := reaches_next hwhole hpc heq
    obtain ⟨f₂, hstep, hpc₂, hrest₂, hbytes⟩ := step_nameSize (o := o) hpc₁ hrest₁ hsize
    rw [← hrest₂]
    refine string_of_safe ((call_of_pc hpc₂).trans (by simp [call])) hbytes ?_ fun f' h =>
      hsafe f' (hreach.trans (.head hstep h))
    intro string hlen hpos
    obtain ⟨hpc₃, hread⟩ := onRead_name (o := o) hpc₂ hlen hpos
    exact ⟨_, _, call_of_pc hpc₃, rfl, hread⟩
  · intro hframed f' hreach
    exact (Fed.Reaches.keeps (fun _ _ => BinaryInv.step) (BinaryInv.top hpc hframed hextent) hreach).safe

end BinaryHandler

/-! ## Both ports -/

/-- Whatever stream a peer sends, however it is cut into pieces and whatever the other calls return, a handler is
    safe from its start on if and only if each string of the stream fits the buffer and ends. -/
theorem requests_safe_iff (o : ByteOrder) (w : Word) (fd : CInt) (buffer : Mem) (file : CInt) (size : SizeT w)
    (rwBuffer : Mem) (stream : List UInt8) :
    ((∀ f, Fed.Reaches (LuaHandler.program o) Request.watch ⟨LuaHandler.start (w := w) o fd buffer, stream, .none⟩ f →
        Safe (LuaHandler.program o) f) ↔ Framed o w (LuaRequests o w) stream) ∧
      ((∀ f, Fed.Reaches (BinaryHandler.program o) Request.watch
          ⟨BinaryHandler.start o fd buffer file size rwBuffer, stream, .none⟩ f → Safe (BinaryHandler.program o) f) ↔
        Framed o w (BinaryRequests o w) stream) :=
  ⟨LuaHandler.safe_iff_framed rfl (Nat.zero_le _), BinaryHandler.safe_iff_framed rfl (Nat.zero_le _)⟩

/-- The string `A` without a terminating zero on the Lua port, and a name of one byte more than the buffer holds on
    the binary port. -/
theorem requests_not_safe :
    ¬(∀ f, Fed.Reaches (LuaHandler.program .little) Request.watch
        ⟨LuaHandler.start (w := .w32) .little 3 (fun _ => 0), [1, 0, 0, 0, 65], .none⟩ f →
          Safe (LuaHandler.program .little) f) ∧
      ¬(∀ f, Fed.Reaches (BinaryHandler.program .little) Request.watch
        ⟨BinaryHandler.start (w := .w32) .little 3 (fun _ => 0) 0 0 (fun _ => 0),
        [1, 4, 0, 0] ++ List.replicate 1025 65,
          .none⟩ f → Safe (BinaryHandler.program .little) f) := by
  rw [LuaHandler.safe_iff_framed rfl (Nat.zero_le _), BinaryHandler.safe_iff_framed rfl (Nat.zero_le _)]
  constructor
  · intro h
    have hzero := (h [] [1, 0, 0, 0] [65] rfl .nil rfl).2 (by decide) (by decide)
    revert hzero
    decide
  · intro h
    have hfits := (h [] [1, 4, 0, 0] (List.replicate 1025 65) rfl .nil rfl).1
    rw [List.length_replicate] at hfits
    revert hfits
    decide

end Dom0
