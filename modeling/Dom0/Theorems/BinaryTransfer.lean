import Dom0.Lib.Spans
import Dom0.Net.Dom0Server
import Dom0.Net.RemoteDom0Instance
import Dom0.Theorems.SocketLoops

/-! Binaries sent one after the other over one connection arrive as they were sent. Each end follows a script of
what it is still to read and to write, and the two scripts fit: what one end will read is what is on its way and
then what the other end will write. -/

namespace Dom0
open RemoteDom0Instance

/-! ## What is sent and what is decoded -/

/-- A name that fits the buffer of the handler, and a size that an `int32_t` holds. -/
structure Binary.Fits (b : Binary) : Prop where
  name : b.remoteFilename.strlen + 1 ≤ bufLen
  pos : 1 ≤ b.data.length
  small : b.data.length < 2 ^ 31

/-- What the calls send, and the answers that they wait for. -/
def wire (o : ByteOrder) (w : Word) (bs : List Binary) : List UInt8 :=
  bs.flatMap fun b => nameSizeBytes o b ++ (nameBytes b ++ (sizeBytes o w b ++ b.data))

def answers (o : ByteOrder) (bs : List Binary) : List UInt8 := bs.flatMap fun _ => o.bytes goSend

/-- The most calls that the handler makes for the files: to open them, for a block of memory, and to write them. -/
def fileCalls (bs : List Binary) : Nat := (bs.map fun b => 2 + b.data.length).sum

/-- The calls of the handler that do not concern the socket, with what they returned. -/
abbrev Log := List (ServerOp × Int)

/-- The next call is noted. A `write` stores at least one byte, and not more than it was given. -/
def Log.Notes (log : Log) (op : ServerOp) (a : Int) (log' : Log) : Prop :=
  log' = log ++ [(op, a)] ∧ ∀ fd bs, op = .write fd bs → 1 ≤ a ∧ a ≤ bs.length

/-- What `malloc` gave, call by call; 0 where it had no block. -/
def Log.blocks (log : Log) : List Int :=
  log.filterMap fun c => match c.1 with
    | .malloc _ => some c.2
    | .open _ _ | .write _ _ | .executeString _ | .close _ => none

/-- Every `malloc` gave a block. -/
def Log.Allocated (log : Log) : Prop := 0 ∉ log.blocks

/-- `malloc` gave a block each time, and has been called `n` times. -/
def Log.Gave (log : Log) (n : Nat) : Prop := log.blocks.length = n ∧ log.Allocated

/-- A block of `receiveNetworkBinary`. -/
def block (a : Int) : Span Unit := ⟨a.toNat, maxRwBufferSize, (), 0⟩

/-- What `malloc` may give: 0, or a block of the address space that reaches into no other; none has been freed. -/
def Log.Gives (w : Word) (log : Log) (a : Int) : Prop :=
  a = 0 ∨ 0 < a ∧ a.toNat + maxRwBufferSize ≤ 2 ^ (8 * w.bytes) ∧ ∀ b ∈ log.blocks, b ≠ 0 → (block a).Apart (block b)

/-- The next call is noted, with an answer that it can have. -/
def Log.Serves (w : Word) (log : Log) (op : ServerOp) (a : Int) (log' : Log) : Prop :=
  log.Notes op a log' ∧ ∀ n, op = .malloc n → log.Gives w a

/-- The blocks that `malloc` gave, the last one first. -/
def Log.spans (log : Log) : List (Span Unit) := (log.blocks.reverse.filter (· ≠ 0)).map block

/-- The blocks are in the address space, and none reaches into another. -/
def Log.Apart (w : Word) (log : Log) : Prop :=
  log.spans.Pairwise Span.Apart ∧ ∀ r ∈ log.spans, 1 ≤ r.start ∧ r.start + r.size ≤ 2 ^ (8 * w.bytes)

/-- A file that the handler opened, and what it wrote to it so far. -/
structure Received where
  path : List UInt8
  file : CInt
  bytes : List UInt8
deriving DecidableEq

/-- The files after one more call. Bytes for another descriptor than the last one count as a file of their own. -/
def Received.note (files : List Received) : ServerOp × Int → List Received
  | (.open path _, a) => files ++ [⟨path.cstr 0 bufLen, BitVec.ofInt _ a, []⟩]
  | (.write fd bs, a) =>
    match files.getLast? with
    | some f =>
      if f.file = fd then files.dropLast ++ [{ f with bytes := f.bytes ++ bs.take a.toNat }]
      else files ++ [⟨[], fd, bs.take a.toNat⟩]
    | none => [⟨[], fd, bs.take a.toNat⟩]
  | _ => files

def Log.received (log : Log) : List Received := log.foldl Received.note []

/-- The files are these binaries, under their names and in their order. -/
def Decoded (files : List Received) (bs : List Binary) : Prop :=
  files.map (fun f => (f.path, f.bytes)) = bs.map fun b => (b.remoteFilename.bytes, b.data)

/-- The files are the first of these binaries, the last one perhaps only in part. -/
def DecodedSoFar (files : List Received) (bs : List Binary) : Prop :=
  ∃ done rest, bs = done ++ rest ∧
    (Decoded files done ∨ ∃ before f b rest', files = before ++ [f] ∧ Decoded before done ∧ rest = b :: rest' ∧
      f.path = b.remoteFilename.bytes ∧ f.bytes <+: b.data)

/-- The calls that returned did so with the sizes of their binaries. -/
def Returned (bs : List Binary) (results : List CInt) (rest : List Binary) : Prop :=
  ∃ done, bs = done ++ rest ∧ results.map BitVec.toInt = done.map fun b => (b.data.length : Int)

section
variable {w : Word} {b : Binary} {v : CInt} {log : Log} {files : List Received} {done : List Binary}

/-! ## Sizes -/

theorem Binary.Fits.toNat_nameSize (h : b.Fits) :
    (BitVec.ofNat 32 b.remoteFilename.strlen + 1).toNat = b.remoteFilename.strlen + 1 := by
  have hname := h.name
  simp only [bufLen] at hname
  have hone : (1 : CInt).toNat = 1 := rfl
  rw [BitVec.toNat_add, BitVec.toNat_ofNat, hone]
  omega

theorem Binary.Fits.toNat_size (h : b.Fits) : (size b : SizeT w).toNat = b.data.length := by
  have hw := w.two_pow_le
  have hsmall := h.small
  rw [size, BitVec.toNat_ofNat, Nat.mod_eq_of_lt (by omega)]

theorem Binary.Fits.toNat_int32 (h : b.Fits) : ((size b : SizeT w).setWidth 32).toNat = b.data.length := by
  have hsmall := h.small
  rw [BitVec.toNat_setWidth, h.toNat_size, Nat.mod_eq_of_lt (by omega)]

theorem Binary.Fits.toInt_size (h : b.Fits) : ((size b : SizeT w).setWidth 32).toInt = b.data.length := by
  have hsmall := h.small
  rw [BitVec.toInt_eq_toNat_of_lt (by rw [h.toNat_int32]; omega), h.toNat_int32]

/-! ## The log -/

theorem Log.received_open {path : Mem} {flags : CInt} {a : Int} :
    Log.received (log ++ [(.open path flags, a)]) = log.received ++ [⟨path.cstr 0 bufLen, BitVec.ofInt _ a, []⟩] := by
  simp [Log.received, List.foldl_append, Received.note]

theorem Log.received_write {fd : CInt} {path bytes : List UInt8} (h : log.received = files ++ [⟨path, fd, bytes⟩])
    (bs : List UInt8) (a : Int) :
    Log.received (log ++ [(.write fd bs, a)]) = files ++ [⟨path, fd, bytes ++ bs.take a.toNat⟩] := by
  have hfold : Log.received (log ++ [(.write fd bs, a)]) = Received.note log.received (.write fd bs, a) := by
    simp [Log.received, List.foldl_append]
  rw [hfold, h]
  simp [Received.note]

theorem Log.received_malloc {n : Nat} {a : Int} : Log.received (log ++ [(.malloc n, a)]) = log.received := by
  simp [Log.received, List.foldl_append, Received.note]

theorem Log.blocks_malloc {n : Nat} {a : Int} : Log.blocks (log ++ [(.malloc n, a)]) = log.blocks ++ [a] := by
  simp [Log.blocks]

theorem Log.blocks_concat {op : ServerOp} {a : Int} (hop : ∀ n, op ≠ .malloc n) :
    Log.blocks (log ++ [(op, a)]) = log.blocks := by
  cases op with
  | malloc n => exact absurd rfl (hop n)
  | «open» | write | executeString | close => simp [Log.blocks]

/-- Blocks stay apart, as `malloc` gives no byte twice. -/
theorem Log.Serves.apart {op : ServerOp} {a : Int} {log' : Log} (h : log.Serves w op a log') (hapart : log.Apart w) :
    log'.Apart w := by
  obtain ⟨⟨rfl, -⟩, hgives⟩ := h
  by_cases hop : ∀ n, op ≠ .malloc n
  · rwa [Log.Apart, Log.spans, Log.blocks_concat hop]
  obtain ⟨n, hop⟩ := not_forall.mp hop
  obtain rfl := not_not.mp hop
  rcases hgives n rfl with rfl | ⟨hpos, hin, hothers⟩
  · rwa [Log.Apart, Log.spans, Log.blocks_malloc, List.reverse_append, List.reverse_singleton, List.singleton_append,
      List.filter_cons_of_neg (by simp)]
  · have hspans : Log.spans (log ++ [(.malloc n, a)]) = block a :: log.spans := by
      rw [Log.spans, Log.blocks_malloc, List.reverse_append, List.reverse_singleton, List.singleton_append,
        List.filter_cons_of_pos (by simpa using (Int.ne_of_gt hpos)), List.map_cons, Log.spans]
    refine ⟨?_, fun r hr => ?_⟩
    · rw [hspans, List.pairwise_cons]
      refine ⟨fun r hr => ?_, hapart.1⟩
      obtain ⟨b, hb, rfl⟩ := List.mem_map.mp hr
      rw [List.mem_filter, List.mem_reverse] at hb
      exact hothers b hb.1 (by simpa using hb.2)
    · rw [hspans] at hr
      rcases List.mem_cons.mp hr with rfl | hr
      · refine ⟨?_, hin⟩
        show 1 ≤ a.toNat
        omega
      · exact hapart.2 r hr

/-- There are less than `2 ^ 32 / 2 ^ 20` blocks on the 32-bit build. -/
theorem Log.Gave.lt_of_apart {n : Nat} (h : log.Gave n) (hapart : log.Apart w) :
    n * maxRwBufferSize < 2 ^ (8 * w.bytes) := by
  have hall : log.blocks.reverse.filter (· ≠ 0) = log.blocks.reverse := by
    rw [List.filter_eq_self]
    intro a ha
    rw [List.mem_reverse] at ha
    exact decide_eq_true fun ha0 => h.2 (ha0 ▸ ha)
  have hlen : log.spans.length = n := by rw [Log.spans, hall, List.length_map, List.length_reverse, h.1]
  have hsize : ∀ r ∈ log.spans, maxRwBufferSize ≤ r.size := by
    intro r hr
    obtain ⟨a, -, rfl⟩ := List.mem_map.mp hr
    exact Nat.le_refl _
  have hle := Span.length_mul_le hapart.1 hsize hapart.2
  have hpos : 0 < 2 ^ (8 * w.bytes) := Nat.two_pow_pos _
  rw [hlen] at hle
  omega

theorem Log.blocks_open {path : Mem} {flags : CInt} {a : Int} :
    Log.blocks (log ++ [(.open path flags, a)]) = log.blocks := by
  simp [Log.blocks]

theorem Log.blocks_write {fd : CInt} {bytes : List UInt8} {a : Int} :
    Log.blocks (log ++ [(.write fd bytes, a)]) = log.blocks := by
  simp [Log.blocks]

theorem Log.Gave.open {path : Mem} {flags : CInt} {a : Int} {n : Nat} (h : log.Gave n) :
    Log.Gave (log ++ [(.open path flags, a)]) n := by
  rwa [Log.Gave, Log.Allocated, Log.blocks_open]

theorem Log.Gave.write {fd : CInt} {bytes : List UInt8} {a : Int} {n : Nat} (h : log.Gave n) :
    Log.Gave (log ++ [(.write fd bytes, a)]) n := by
  rwa [Log.Gave, Log.Allocated, Log.blocks_write]

theorem Log.Gave.malloc {size : Nat} {a : Int} {n : Nat} (h : log.Gave n) (ha : a ≠ 0) :
    Log.Gave (log ++ [(.malloc size, a)]) (n + 1) := by
  rw [Log.Gave, Log.Allocated, Log.blocks_malloc]
  refine ⟨by rw [List.length_append, h.1, List.length_singleton], fun hmem => ?_⟩
  rcases List.mem_append.mp hmem with hmem | hmem
  · exact h.2 hmem
  · exact ha (List.mem_singleton.mp hmem).symm

theorem Decoded.add (h : Decoded files done) {fd : CInt} :
    Decoded (files ++ [⟨b.remoteFilename.bytes, fd, b.data⟩]) (done ++ [b]) := by
  simpa [Decoded] using h

theorem Returned.add {bs rest : List Binary} {results : List CInt} (h : Returned bs results (b :: rest))
    (hv : v.toInt = b.data.length) : Returned bs (results ++ [v]) rest := by
  obtain ⟨done, hbs, hres⟩ := h
  exact ⟨done ++ [b], by simp [hbs], by simp [hres, hv]⟩

end

/-! ## The sender -/

/-- The script of the sender: the binary that it sends, how far it is, and what it still reads and writes. -/
inductive SenderScript {w : Word} (o : ByteOrder) (bs : List Binary) :
    RemoteDom0Instance w → Unit → List UInt8 → List UInt8 → Nat → Prop
  | nameSize {t : Transfer w} {b : Binary} {rest : List Binary} {left : List UInt8} {message : Mem}
      {results : List CInt}
      {e : NetErrno} (hret : Returned bs results (b :: rest)) (ht : t.Sends (nameSizeBytes o b) left) :
      SenderScript o bs ⟨some ⟨.sendNameSize t, b, message⟩, rest, results, e⟩ () (o.bytes goSend ++ answers o rest)
        (left ++ (nameBytes b ++ (sizeBytes o w b ++ (b.data ++ wire o w rest)))) 0
  | name {t : Transfer w} {b : Binary} {rest : List Binary} {left : List UInt8} {message : Mem} {results : List CInt}
      {e : NetErrno} (hret : Returned bs results (b :: rest)) (ht : t.Sends (nameBytes b) left) :
      SenderScript o bs ⟨some ⟨.sendName t, b, message⟩, rest, results, e⟩ () (o.bytes goSend ++ answers o rest)
        (left ++ (sizeBytes o w b ++ (b.data ++ wire o w rest))) 0
  | size {t : Transfer w} {b : Binary} {rest : List Binary} {left : List UInt8} {message : Mem} {results : List CInt}
      {e : NetErrno} (hret : Returned bs results (b :: rest)) (ht : t.Sends (sizeBytes o w b) left) :
      SenderScript o bs ⟨some ⟨.sendSize t, b, message⟩, rest, results, e⟩ () (o.bytes goSend ++ answers o rest)
        (left ++ (b.data ++ wire o w rest)) 0
  | waitGo {t : Transfer w} {b : Binary} {rest : List Binary} {left : List UInt8} {message : Mem} {results : List CInt}
      {e : NetErrno} (hret : Returned bs results (b :: rest)) (ht : t.Receives message (o.bytes goSend) left) :
      SenderScript o bs ⟨some ⟨.waitGo t, b, message⟩, rest, results, e⟩ () (left ++ answers o rest)
        (b.data ++ wire o w rest) 0
  | data {t : Transfer w} {b : Binary} {rest : List Binary} {left : List UInt8} {message : Mem} {results : List CInt}
      {e : NetErrno} (hret : Returned bs results (b :: rest)) (ht : t.Sends b.data left) :
      SenderScript o bs ⟨some ⟨.sendData t, b, message⟩, rest, results, e⟩ () (answers o rest) (left ++ wire o w rest) 0
  | finished {results : List CInt} {e : NetErrno} (hret : Returned bs results []) :
      SenderScript o bs ⟨none, [], results, e⟩ () [] [] 0

section
variable {w : Word} {o : ByteOrder} {bs rest : List Binary} {b : Binary} {results : List CInt} {e : NetErrno}

/-- Between two calls, or after the last one. -/
theorem SenderScript.next {sending : Option (Sending w)} (hret : Returned bs results rest) :
    SenderScript o bs (RemoteDom0Instance.next ⟨sending, rest, results, e⟩) () (answers o rest) (wire o w rest) 0 := by
  cases rest with
  | nil => exact .finished hret
  | cons b rest =>
    have hwire : wire o w (b :: rest) =
        nameSizeBytes o b ++ (nameBytes b ++ (sizeBytes o w b ++ (b.data ++ wire o w rest))) := by
      simp [wire]
    rw [hwire]
    exact .nameSize hret (.int32 ByteOrder.length_bytes)

theorem check_go {s : RemoteDom0Instance w} {c : Sending w} {x : SSizeT w} {pc : RemoteDom0Instance.Pc w}
    (hpos : 0 < x.toNat)
    (hlt : x.toNat < 2 ^ 31) : s.check c x pc = { s with sending := some { c with pc } } :=
  Transfer.netcheckLoop_go hpos hlt

theorem nameBytes_ne_nil : nameBytes b ≠ [] := List.ne_nil_of_length_pos (by simp [nameBytes])

theorem toNat_nameLength (h : b.remoteFilename.strlen + 1 < 2 ^ (8 * w.bytes)) :
    (BitVec.ofNat (8 * w.bytes) b.remoteFilename.strlen + 1 : SizeT w).toNat = (nameBytes b).length := by
  have hone : (1 : SizeT w).toNat = 1 := by cases w <;> rfl
  rw [BitVec.toNat_add, BitVec.toNat_ofNat, hone, nameBytes, CString.length_c_str, Nat.mod_add_mod, Nat.mod_eq_of_lt h]

theorem Binary.Fits.toNat_nameLength (h : b.Fits) :
    (BitVec.ofNat (8 * w.bytes) b.remoteFilename.strlen + 1 : SizeT w).toNat = (nameBytes b).length := by
  have hw := w.two_pow_le
  have hname := h.name
  simp only [bufLen] at hname
  exact Dom0.toNat_nameLength (by omega)

theorem Returned.fits (h : Returned bs results (b :: rest)) (hbs : ∀ b ∈ bs, b.Fits) : b.Fits := by
  obtain ⟨done, rfl, -⟩ := h
  exact hbs b (by simp)

/-- The sender makes no calls but those on its socket. -/
def noCalls (_ : Unit) (_ : Empty) (_ : Int) (_ : Unit) : Prop := False

/-- The answer that the sender waits for arrives. -/
theorem sender_read {s : RemoteDom0Instance w} {piece r wr : List UInt8} {m off n : Nat} {into : Unit}
    (hbs : ∀ b ∈ bs, b.Fits) (hR : SenderScript o bs s () (piece ++ r) wr m)
    (hcall : (RemoteDom0Instance.program o).call s = .read into off n) (hle : piece.length ≤ n) :
    SenderScript o bs ((RemoteDom0Instance.program o).onRead s (.ok piece)) () r wr m := by
  generalize hreads : piece ++ r = reads at hR
  cases hR with
  | waitGo hret ht =>
    cases hcall
    have hfits := hret.fits hbs
    have hpos := hfits.pos
    rcases ht.next hle hreads with ⟨t', left', hnext, ht', rfl⟩ | ⟨hnext, -, rfl⟩
    · simp only [program, onRead, Except.map, hnext]
      exact .waitGo hret ht'
    · -- The answer is complete, and the content comes next.
      have hsize := ht.size
      rw [ByteOrder.length_bytes] at hsize
      simp only [program, onRead, Except.map, hnext, setErrno]
      rw [check_go (by omega) (by omega)]
      refine .data hret (.start ?_ (List.ne_nil_of_length_pos hpos))
      rw [toNat_signExtend_of_lt (by rw [hfits.toNat_int32]; exact hfits.small), hfits.toNat_int32]
  | nameSize | name | size | data | finished => cases hcall

/-- One piece of what the sender sends. -/
theorem sender_write {s : RemoteDom0Instance w} {piece r wr : List UInt8} {m k : Nat} (hbs : ∀ b ∈ bs, b.Fits)
    (hR : SenderScript o bs s () r wr m) (hcall : (RemoteDom0Instance.program o).call s = .write piece)
    (hle : k ≤ piece.length) :
    ∃ wr', wr = piece.take k ++ wr' ∧
      SenderScript o bs ((RemoteDom0Instance.program o).onWrite s (.ok k)) () r wr' m := by
  cases hR with
  | nameSize hret ht =>
    cases hcall
    rw [ht.window] at hle ⊢
    have hfits := hret.fits hbs
    have hsize := ht.size
    rw [nameSizeBytes, ByteOrder.length_bytes] at hsize
    rcases ht.next hle with ⟨t', hnext, ht'⟩ | ⟨hnext, hdrop⟩
    · refine ⟨_, (take_drop_append k).symm, ?_⟩
      simp only [program, onWrite, hnext]
      exact .nameSize hret ht'
    · -- The length is out, and the name comes next.
      refine ⟨_, (take_append_of_drop hdrop).symm, ?_⟩
      simp only [program, onWrite, hnext, setErrno]
      rw [check_go (by omega) (by omega)]
      exact .name hret (.start hfits.toNat_nameLength nameBytes_ne_nil)
  | name hret ht =>
    cases hcall
    rw [ht.window] at hle ⊢
    have hfits := hret.fits hbs
    have hsize := ht.size
    have hname := hfits.name
    rw [nameBytes, CString.length_c_str] at hsize
    simp only [bufLen] at hname
    rcases ht.next hle with ⟨t', hnext, ht'⟩ | ⟨hnext, hdrop⟩
    · refine ⟨_, (take_drop_append k).symm, ?_⟩
      simp only [program, onWrite, hnext]
      exact .name hret ht'
    · refine ⟨_, (take_append_of_drop hdrop).symm, ?_⟩
      simp only [program, onWrite, hnext, setErrno]
      rw [check_go (by omega) (by omega)]
      exact .size hret (.int32 ByteOrder.length_bytes)
  | size hret ht =>
    cases hcall
    rw [ht.window] at hle ⊢
    have hsize := ht.size
    rw [sizeBytes, ByteOrder.length_bytes] at hsize
    rcases ht.next hle with ⟨t', hnext, ht'⟩ | ⟨hnext, hdrop⟩
    · refine ⟨_, (take_drop_append k).symm, ?_⟩
      simp only [program, onWrite, hnext]
      exact .size hret ht'
    · -- Behind the size the sender waits for an answer.
      refine ⟨_, (take_append_of_drop hdrop).symm, ?_⟩
      simp only [program, onWrite, hnext, setErrno]
      rw [check_go (by omega) (by omega)]
      exact .waitGo hret (.int32 _ ByteOrder.length_bytes)
  | data hret ht =>
    cases hcall
    rw [ht.window] at hle ⊢
    have hfits := hret.fits hbs
    have hsize := ht.size
    have hpos' := hfits.pos
    have hsmall := hfits.small
    rcases ht.next hle with ⟨t', hnext, ht'⟩ | ⟨hnext, hdrop⟩
    · refine ⟨_, (take_drop_append k).symm, ?_⟩
      simp only [program, onWrite, hnext]
      exact .data hret ht'
    · -- The content is out: the call returns its size, and the next one begins.
      refine ⟨_, (take_append_of_drop hdrop).symm, ?_⟩
      simp only [program, onWrite, hnext, setErrno, ret]
      rw [if_neg (Transfer.not_toInt_lt_one (by omega) (by omega))]
      exact .next (hret.add hfits.toInt_size)
  | waitGo | finished => cases hcall

theorem sender_script (hbs : ∀ b ∈ bs, b.Fits) :
    (RemoteDom0Instance.program o : Program (RemoteDom0Instance w) Unit UInt8 Empty NetErrno).Script noCalls
      (SenderScript o bs) where
  read hR hcall _ hle := sender_read hbs hR hcall hle
  write hR hcall _ hle := sender_write hbs hR hcall hle
  op _ _ served := served.elim

end

/-! ## The handler -/

/-- The script of the handler: the binary that it receives, after `done`, how far it is, and what it still reads,
    writes and calls. -/
inductive HandlerScript {w : Word} (o : ByteOrder) (w' : Word) (bs : List Binary) :
    BinaryHandler w → Log → List UInt8 → List UInt8 → Nat → Prop
  | idle {s : BinaryHandler w} {log : Log} (hpc : s.pc = .nameSize .int32) (hlog : Decoded log.received bs)
      (hgave : log.Gave bs.length) :
      HandlerScript o w' bs s log [] [] 0
  | nameSize {s : BinaryHandler w} {log : Log} {t : Transfer w} {done rest : List Binary} {b : Binary}
      {left : List UInt8}
      (hpc : s.pc = .nameSize t) (hbs : bs = done ++ b :: rest) (hlog : Decoded log.received done)
      (hgave : log.Gave done.length) (ht : t.Receives s.message (nameSizeBytes o b) left) :
      HandlerScript o w' bs s log (left ++ (nameBytes b ++ (sizeBytes o w' b ++ (b.data ++ wire o w' rest))))
        (o.bytes goSend ++ answers o rest) (2 + b.data.length + fileCalls rest)
  | name {s : BinaryHandler w} {log : Log} {t : Transfer w} {done rest : List Binary} {b : Binary} {left : List UInt8}
      (hpc : s.pc = .name t) (hbs : bs = done ++ b :: rest) (hlog : Decoded log.received done)
      (hgave : log.Gave done.length) (ht : t.Receives s.buffer (nameBytes b) left) :
      HandlerScript o w' bs s log (left ++ (sizeBytes o w' b ++ (b.data ++ wire o w' rest)))
        (o.bytes goSend ++ answers o rest) (2 + b.data.length + fileCalls rest)
  | «open» {s : BinaryHandler w} {log : Log} {done rest : List Binary} {b : Binary} (hpc : s.pc = .open)
      (hbs : bs = done ++ b :: rest) (hlog : Decoded log.received done)
      (hgave : log.Gave done.length) (hname : s.buffer.read 0 (nameBytes b).length = nameBytes b) :
      HandlerScript o w' bs s log (sizeBytes o w' b ++ (b.data ++ wire o w' rest))
        (o.bytes goSend ++ answers o rest) (2 + b.data.length + fileCalls rest)
  | size {s : BinaryHandler w} {log : Log} {t : Transfer w} {done rest : List Binary} {b : Binary} {left : List UInt8}
      {files : List Received} (hpc : s.pc = .size t) (hbs : bs = done ++ b :: rest) (hfiles : Decoded files done)
      (hlog : log.received = files ++ [⟨b.remoteFilename.bytes, s.file, []⟩]) (hgave : log.Gave done.length)
      (ht : t.Receives s.message (sizeBytes o w' b) left) :
      HandlerScript o w' bs s log (left ++ (b.data ++ wire o w' rest)) (o.bytes goSend ++ answers o rest)
        (1 + b.data.length + fileCalls rest)
  | go {s : BinaryHandler w} {log : Log} {t : Transfer w} {done rest : List Binary} {b : Binary} {left : List UInt8}
      {files : List Received} (hpc : s.pc = .go t) (hbs : bs = done ++ b :: rest) (hfiles : Decoded files done)
      (hlog : log.received = files ++ [⟨b.remoteFilename.bytes, s.file, []⟩]) (hgave : log.Gave done.length)
      (hsize : (messageSize o s.message : SizeT w).toNat = b.data.length) (ht : t.Sends (o.bytes goSend) left) :
      HandlerScript o w' bs s log (b.data ++ wire o w' rest) (left ++ answers o rest)
      (1 + b.data.length + fileCalls rest)
  | malloc {s : BinaryHandler w} {log : Log} {done rest : List Binary} {b : Binary} {files : List Received}
      (hpc : s.pc = .malloc) (hbs : bs = done ++ b :: rest) (hfiles : Decoded files done)
      (hlog : log.received = files ++ [⟨b.remoteFilename.bytes, s.file, []⟩]) (hgave : log.Gave done.length)
      (hsize : s.size.toNat = b.data.length) :
      HandlerScript o w' bs s log (b.data ++ wire o w' rest) (answers o rest) (1 + b.data.length + fileCalls rest)
  | receive {s : BinaryHandler w} {log : Log} {t : Transfer w} {done rest : List Binary} {b : Binary}
      {left before chunk after : List UInt8} {files : List Received} {leftToReceive : SizeT w}
      (hpc : s.pc = .receive leftToReceive t) (hbs : bs = done ++ b :: rest) (hfiles : Decoded files done)
      (hdata : b.data = before ++ (chunk ++ after)) (hleft : leftToReceive.toNat = chunk.length + after.length)
      (hsize : s.size.toNat = b.data.length)
      (hlog : log.received = files ++ [⟨b.remoteFilename.bytes, s.file, before⟩]) (hgave : log.Gave (done.length + 1))
      (ht : t.Receives s.rwBuffer chunk left) :
      HandlerScript o w' bs s log (left ++ (after ++ wire o w' rest)) (answers o rest)
        (chunk.length + after.length + fileCalls rest)
  | write {s : BinaryHandler w} {log : Log} {done rest : List Binary} {b : Binary}
      {before chunk after : List UInt8} {files : List Received} {leftToReceive received written : SizeT w}
      (hpc : s.pc = .write leftToReceive received written) (hbs : bs = done ++ b :: rest) (hfiles : Decoded files done)
      (hdata : b.data = before ++ (chunk ++ after)) (hleft : leftToReceive.toNat = after.length)
      (hsize : s.size.toNat = b.data.length) (hchunk : s.rwBuffer.read 0 chunk.length = chunk)
      (hreceived : received.toNat = chunk.length) (hwritten : written.toNat < chunk.length)
      (hlog : log.received = files ++ [⟨b.remoteFilename.bytes, s.file, before ++ chunk.take written.toNat⟩])
      (hgave : log.Gave (done.length + 1)) :
      HandlerScript o w' bs s log (after ++ wire o w' rest) (answers o rest)
        (chunk.length - written.toNat + after.length + fileCalls rest)
  | faulted {s : BinaryHandler w} {log : Log} {done rest : List Binary} {b : Binary} {files : List Received}
      (hpc : s.pc = .faulted) (hbs : bs = done ++ b :: rest) (hfiles : Decoded files done)
      (hlog : log.received = files ++ [⟨b.remoteFilename.bytes, s.file, []⟩]) (hfailed : ¬log.Allocated) :
      HandlerScript o w' bs s log (b.data ++ wire o w' rest) (answers o rest) (b.data.length + fileCalls rest)

namespace HandlerScript
variable {w w' : Word} {o : ByteOrder} {bs done rest : List Binary} {b : Binary} {s : BinaryHandler w} {log : Log}

theorem top (hpc : s.pc = .nameSize .int32) (hbs : bs = done ++ rest) (hlog : Decoded log.received done)
    (hgave : log.Gave done.length) :
    HandlerScript o w' bs s log (wire o w' rest) (answers o rest) (fileCalls rest) := by
  cases rest with
  | nil =>
    rw [List.append_nil] at hbs
    exact .idle hpc (hbs ▸ hlog) (hbs ▸ hgave)
  | cons b rest =>
    have hwire : wire o w' (b :: rest) =
        nameSizeBytes o b ++ (nameBytes b ++ (sizeBytes o w' b ++ (b.data ++ wire o w' rest))) := by
      simp [wire]
    have hcalls : fileCalls (b :: rest) = 2 + b.data.length + fileCalls rest := by simp [fileCalls]
    rw [hwire, hcalls]
    exact .nameSize hpc hbs hlog hgave (.int32 _ ByteOrder.length_bytes)

/-- `receiveNetworkBinary` goes on with the next chunk, or returns when there is none. -/
theorem loop {before after : List UInt8} {files : List Received} {leftToReceive : SizeT w} (hfits : b.Fits)
    (hbs : bs = done ++ b :: rest) (hfiles : Decoded files done) (hdata : b.data = before ++ after)
    (hleft : leftToReceive.toNat = after.length) (hsize : s.size.toNat = b.data.length)
    (hlog : log.received = files ++ [⟨b.remoteFilename.bytes, s.file, before⟩]) (hgave : log.Gave (done.length + 1)) :
    HandlerScript o w' bs (s.loop leftToReceive) log (after ++ wire o w' rest) (answers o rest)
      (after.length + fileCalls rest) := by
  have hpos := hfits.pos
  have hsmall := hfits.small
  by_cases hmore : 0 < leftToReceive.toNat
  · obtain ⟨size, hloop, hmin, hsizePos⟩ := s.loop_more hmore
    have hchunk : size.toNat = (after.take maxRwBufferSize).length := by rw [hmin, hleft, List.length_take]
    have hne : after.take maxRwBufferSize ≠ [] := List.ne_nil_of_length_pos (hchunk ▸ hsizePos)
    have hsplit := List.take_append_drop maxRwBufferSize after
    have hlen : after.length = (after.take maxRwBufferSize).length + (after.drop maxRwBufferSize).length := by
      rw [← List.length_append, hsplit]
    have hscript : HandlerScript o w' bs (s.loop leftToReceive) log
        (after.take maxRwBufferSize ++ (after.drop maxRwBufferSize ++ wire o w' rest)) (answers o rest)
        ((after.take maxRwBufferSize).length + (after.drop maxRwBufferSize).length + fileCalls rest) := by
      rw [hloop]
      exact .receive rfl hbs hfiles (by rw [hsplit]; exact hdata) (by rw [hleft, ← hlen]) hsize hlog hgave
        (.start _ hchunk hne)
    rwa [← List.append_assoc, hsplit, ← hlen] at hscript
  · have hnil : after = [] := List.length_eq_zero_iff.mp (by omega)
    subst hnil
    rw [List.append_nil] at hdata
    rw [BinaryHandler.loop, if_neg hmore, Transfer.netcheckLoop_go (by omega) (by omega)]
    simp only [List.nil_append, List.length_nil, Nat.zero_add]
    have hbs' : bs = (done ++ [b]) ++ rest := by simp [hbs]
    exact top rfl hbs' (by rw [hlog, ← hdata]; exact hfiles.add) (by rwa [List.length_append])

end HandlerScript

section
variable {w w' : Word} {o : ByteOrder} {bs : List Binary}

/-- What arrives takes the handler on. -/
theorem handler_read {s : BinaryHandler w} {log : Log} {piece r wr : List UInt8} {m off n : Nat} {into : Target}
    (hbs : ∀ b ∈ bs, b.Fits) (hR : HandlerScript o w' bs s log (piece ++ r) wr m)
    (hcall : (BinaryHandler.program o).call s = .read into off n) (hne : piece ≠ []) (hle : piece.length ≤ n) :
    HandlerScript o w' bs ((BinaryHandler.program o).onRead s (.ok piece)) log r wr m := by
  generalize hreads : piece ++ r = reads at hR
  cases hR with
  | idle hpc hlog hgave =>
    rw [List.append_eq_nil_iff] at hreads
    exact absurd hreads.1 hne
  | nameSize hpc hdone hlog hgave ht =>
    have hfits := hbs _ (hdone ▸ List.mem_append_right _ List.mem_cons_self)
    have hsize := ht.size
    rw [nameSizeBytes, ByteOrder.length_bytes] at hsize
    cases (BinaryHandler.call_of_pc hpc).symm.trans hcall
    rcases ht.next hle hreads with ⟨t', left', hnext, ht', rfl⟩ | ⟨hnext, hread, rfl⟩
    · simp only [BinaryHandler.program, BinaryHandler.onRead, hpc, Except.map, hnext]
      exact .nameSize rfl hdone hlog hgave ht'
    · rw [nameSizeBytes, ByteOrder.length_bytes] at hread
      simp only [BinaryHandler.program, BinaryHandler.onRead, hpc, Except.map, hnext]
      rw [Transfer.netcheckLoop_go (by omega) (by omega)]
      refine .name rfl hdone hlog hgave (.start _ ?_ nameBytes_ne_nil)
      rw [messageSize_eq hread, toNat_signExtend_of_lt, hfits.toNat_nameSize, nameBytes, CString.length_c_str]
      have hname := hfits.name
      simp only [bufLen] at hname
      rw [hfits.toNat_nameSize]
      omega
  | name hpc hdone hlog hgave ht =>
    have hfits := hbs _ (hdone ▸ List.mem_append_right _ List.mem_cons_self)
    have hsize := ht.size
    have hname := hfits.name
    rw [nameBytes, CString.length_c_str] at hsize
    simp only [bufLen] at hname
    cases (BinaryHandler.call_of_pc hpc).symm.trans hcall
    rcases ht.next hle hreads with ⟨t', left', hnext, ht', rfl⟩ | ⟨hnext, hread, rfl⟩
    · simp only [BinaryHandler.program, BinaryHandler.onRead, hpc, Except.map, hnext]
      exact .name rfl hdone hlog hgave ht'
    · simp only [BinaryHandler.program, BinaryHandler.onRead, hpc, Except.map, hnext]
      rw [Transfer.netcheckLoop_go (by omega) (by omega)]
      exact .open rfl hdone hlog hgave hread
  | «open» hpc | go hpc | malloc hpc | write hpc | faulted hpc =>
    cases (BinaryHandler.call_of_pc hpc).symm.trans hcall
  | size hpc hdone hfiles hlog hgave ht =>
    have hfits := hbs _ (hdone ▸ List.mem_append_right _ List.mem_cons_self)
    have hsize := ht.size
    rw [sizeBytes, ByteOrder.length_bytes] at hsize
    cases (BinaryHandler.call_of_pc hpc).symm.trans hcall
    rcases ht.next hle hreads with ⟨t', left', hnext, ht', rfl⟩ | ⟨hnext, hread, rfl⟩
    · -- The terminator came with the name, so `open` gets the whole path.
      simp only [BinaryHandler.program, BinaryHandler.onRead, hpc, Except.map, hnext]
      exact .size rfl hdone hfiles hlog hgave ht'
    · rw [sizeBytes, ByteOrder.length_bytes] at hread
      simp only [BinaryHandler.program, BinaryHandler.onRead, hpc, Except.map, hnext]
      rw [Transfer.netcheckLoop_go (by omega) (by omega)]
      refine .go rfl hdone hfiles hlog hgave ?_ (.int32 ByteOrder.length_bytes)
      rw [messageSize_eq hread, toNat_signExtend_of_lt (by rw [hfits.toNat_int32]; exact hfits.small),
        hfits.toNat_int32]
  | @receive t done rest b left before chunk after files leftToReceive hpc hdone hfiles hdata hleft hsize hlog hgave
        ht =>
    have hfits := hbs _ (hdone ▸ List.mem_append_right _ List.mem_cons_self)
    have hlen := ht.size
    have hpos : 0 < chunk.length := by
      obtain ⟨got, rfl, -⟩ := ht.rest
      have := List.length_pos_iff.mpr ht.ne_nil
      simp only [List.length_append]
      omega
    cases (BinaryHandler.call_of_pc hpc).symm.trans hcall
    rcases ht.next hle hreads with ⟨t', left', hnext, ht', rfl⟩ | ⟨hnext, hread, rfl⟩
    · simp only [BinaryHandler.program, BinaryHandler.onRead, hpc, Except.map, hnext]
      exact .receive rfl hdone hfiles hdata hleft hsize hlog hgave ht'
    · -- The chunk is complete. What is left to receive is what comes after it.
      have hafter : (leftToReceive - t.size).toNat = after.length := by
        have hle : t.size ≤ leftToReceive := by
          rw [BitVec.le_def]
          omega
        rw [BitVec.toNat_sub_of_le hle]
        omega
      simp only [BinaryHandler.program, BinaryHandler.onRead, hpc, Except.map, hnext]
      rw [if_pos (by omega)]
      have hzero : chunk.length = chunk.length - (0 : SizeT w).toNat := by simp
      rw [hzero]
      exact .write rfl hdone hfiles hdata hafter hsize hread hlen hpos (by simpa using hlog) hgave

/-- The answer before the content is sent. -/
theorem handler_write {s : BinaryHandler w} {log : Log} {r wr sent : List UInt8} {m k : Nat} (hbs : ∀ b ∈ bs, b.Fits)
    (hR : HandlerScript o w' bs s log r wr m) (hcall : (BinaryHandler.program o).call s = .write sent)
    (hle : k ≤ sent.length) :
    ∃ wr', wr = sent.take k ++ wr' ∧
      HandlerScript o w' bs ((BinaryHandler.program o).onWrite s (.ok k)) log r wr' m := by
  cases hR with
  | go hpc hdone hfiles hlog hgave hsize ht =>
    have hfits := hbs _ (hdone ▸ List.mem_append_right _ List.mem_cons_self)
    have hlen := ht.size
    rw [ByteOrder.length_bytes] at hlen
    cases (BinaryHandler.call_of_pc hpc).symm.trans hcall
    rw [ht.window] at hle ⊢
    rcases ht.next hle with ⟨t', hnext, ht'⟩ | ⟨hnext, hdrop⟩
    · refine ⟨_, (take_drop_append k).symm, ?_⟩
      simp only [BinaryHandler.program, BinaryHandler.onWrite, hpc, hnext]
      exact .go rfl hdone hfiles hlog hgave hsize ht'
    · -- The answer is out, and only now the buffer of the content is allocated.
      refine ⟨_, (take_append_of_drop hdrop).symm, ?_⟩
      simp only [BinaryHandler.program, BinaryHandler.onWrite, hpc, hnext]
      rw [Transfer.netcheckLoop_go (by omega) (by omega)]
      exact .malloc rfl hdone hfiles hlog hgave hsize
  | idle hpc | nameSize hpc | name hpc | «open» hpc | size hpc | malloc hpc | receive hpc | write hpc | faulted hpc =>
    cases (BinaryHandler.call_of_pc hpc).symm.trans hcall

/-- The next bytes of a chunk are stored in the file. -/
theorem handler_stored {s : BinaryHandler w} {log : Log} {done rest : List Binary} {b : Binary}
    {before chunk after : List UInt8} {files : List Received} {leftToReceive received written : SizeT w} {k : Nat}
    (hfits : b.Fits) (hpc : s.pc = .write leftToReceive received written) (hdone : bs = done ++ b :: rest)
    (hfiles : Decoded files done) (hdata : b.data = before ++ (chunk ++ after))
    (hleft : leftToReceive.toNat = after.length)
    (hsize : s.size.toNat = b.data.length) (hchunk : s.rwBuffer.read 0 chunk.length = chunk)
    (hreceived : received.toNat = chunk.length) (hwritten : written.toNat < chunk.length)
    (hlog : log.received = files ++ [⟨b.remoteFilename.bytes, s.file, before ++ chunk.take written.toNat⟩])
    (hgave : log.Gave (done.length + 1)) (hpos : 1 ≤ k)
    (hle : k ≤ (received - written).toNat) :
    ∃ m < chunk.length - written.toNat + after.length + fileCalls rest,
      HandlerScript o w' bs ((BinaryHandler.program o).onOp s k)
        (log ++ [(.write s.file (s.rwBuffer.read written.toNat (received - written).toNat), (k : Int))])
        (after ++ wire o w' rest) (answers o rest) m := by
  have hrest : (received - written).toNat = chunk.length - written.toNat := by
    have hle : written ≤ received := by
      rw [BitVec.le_def]
      omega
    rw [BitVec.toNat_sub_of_le hle, hreceived]
  have hbytes : s.rwBuffer.read written.toNat (received - written).toNat = chunk.drop written.toNat := by
    rw [hrest, ← hchunk, Mem.length_read, Mem.drop_read (Nat.le_of_lt hwritten), Nat.zero_add]
  have hwritten' : (written + BitVec.ofInt (8 * w.bytes) k).toNat = written.toNat + k := by
    have hlt := received.isLt
    rw [BitVec.ofInt_natCast, BitVec.toNat_add, BitVec.toNat_ofNat, Nat.add_mod_mod, Nat.mod_eq_of_lt (by omega)]
  have hlog' := Log.received_write hlog (chunk.drop written.toNat) k
  rw [Int.toNat_natCast, List.append_assoc, ← List.take_add] at hlog'
  simp only [BinaryHandler.program, BinaryHandler.onOp, hpc]
  rw [hbytes]
  split
  · next hmore =>
    -- A short write: the rest of the chunk is written next.
    rw [hwritten'] at hmore
    refine ⟨chunk.length - (written.toNat + k) + after.length + fileCalls rest, by omega, ?_⟩
    rw [← hwritten']
    exact .write rfl hdone hfiles hdata hleft hsize hchunk hreceived (by omega) (by rw [hlog', hwritten']) hgave.write
  · next hall =>
    -- The chunk is in the file, and the loop goes on with what is left to receive.
    rw [hwritten'] at hall
    refine ⟨after.length + fileCalls rest, by omega, ?_⟩
    rw [List.take_of_length_le (by omega)] at hlog'
    exact .loop hfits hdone hfiles (by rw [hdata, List.append_assoc]) hleft hsize hlog' hgave.write

/-- A file is opened, or written. -/
theorem handler_op {s : BinaryHandler w} {log log' : Log} {r wr : List UInt8} {m : Nat} {op : ServerOp} {a : Int}
    (hbs : ∀ b ∈ bs, b.Fits) (hR : HandlerScript o w' bs s log r wr m)
    (hcall : (BinaryHandler.program o).call s = .op op) (served : Log.Notes log op a log') :
    ∃ m' < m, HandlerScript o w' bs ((BinaryHandler.program o).onOp s a) log' r wr m' := by
  cases hR with
  | @«open» done rest b hpc hdone hlog hgave hname =>
    have hfits := hbs _ (hdone ▸ List.mem_append_right _ List.mem_cons_self)
    have hpath : s.buffer.cstr 0 bufLen = b.remoteFilename.bytes := by
      rw [nameBytes, CString.length_c_str] at hname
      exact Mem.cstr_of_read hname b.remoteFilename.nul_free (Nat.lt_of_succ_le hfits.name)
    cases (BinaryHandler.call_of_pc hpc).symm.trans hcall
    obtain ⟨rfl, -⟩ := served
    refine ⟨1 + b.data.length + fileCalls rest, by omega, ?_⟩
    simp only [BinaryHandler.program, BinaryHandler.onOp, hpc]
    exact .size rfl hdone hlog (by rw [Log.received_open, hpath]) hgave.open (.int32 _ ByteOrder.length_bytes)
  | @malloc done rest b files hpc hdone hfiles hlog hgave hsize =>
    have hfits := hbs _ (hdone ▸ List.mem_append_right _ List.mem_cons_self)
    have hpos := hfits.pos
    cases (BinaryHandler.call_of_pc hpc).symm.trans hcall
    obtain ⟨rfl, -⟩ := served
    refine ⟨b.data.length + fileCalls rest, by omega, ?_⟩
    simp only [BinaryHandler.program, BinaryHandler.onOp, hpc]
    split
    · -- No block: the content has at least one byte, and that byte is where the handler ends.
      next hnull =>
      refine .faulted rfl hdone hfiles (by rw [Log.received_malloc]; exact hlog) fun hall => hall ?_
      rw [Log.blocks_malloc, hnull.1]
      exact List.mem_append_right _ (List.mem_singleton.mpr rfl)
    · next hblock =>
      have ha : a ≠ 0 := fun ha => hblock ⟨ha, by omega⟩
      exact .loop hfits hdone hfiles rfl hsize hsize (by rw [Log.received_malloc]; exact hlog) (hgave.malloc ha)
  | @write done rest b before chunk after files leftToReceive received written hpc hdone hfiles hdata hleft hsize hchunk
      hreceived hwritten hlog hgave =>
    have hfits := hbs _ (hdone ▸ List.mem_append_right _ List.mem_cons_self)
    cases (BinaryHandler.call_of_pc hpc).symm.trans hcall
    obtain ⟨rfl, hstored⟩ := served
    obtain ⟨hpos, hle⟩ := hstored _ _ rfl
    obtain ⟨k, rfl⟩ := Int.eq_ofNat_of_zero_le (by omega : 0 ≤ a)
    rw [Mem.length_read] at hle
    exact handler_stored hfits hpc hdone hfiles hdata hleft hsize hchunk hreceived hwritten hlog hgave
      (Int.ofNat_le.mp hpos)
      (Int.ofNat_le.mp hle)
  | idle hpc | nameSize hpc | name hpc | size hpc | go hpc | receive hpc | faulted hpc =>
    cases (BinaryHandler.call_of_pc hpc).symm.trans hcall

theorem handler_script (hbs : ∀ b ∈ bs, b.Fits) :
    (BinaryHandler.program o : Program (BinaryHandler w) Target UInt8 ServerOp NetErrno).Script Log.Notes
      (HandlerScript o w' bs) where
  read hR hcall hne hle := handler_read hbs hR hcall hne hle
  write hR hcall _ hle := handler_write hbs hR hcall hle
  op hR hcall served := handler_op hbs hR hcall served

end

/-! ## Both ends -/

section
variable {w w' : Word} {o : ByteOrder} {bs : List Binary}
    {d : Duplex (RemoteDom0Instance w) (BinaryHandler w') Unit Log UInt8}
  {s : RemoteDom0Instance w} {s' : BinaryHandler w'} {log log' : Log} {op : ServerOp} {a : Int}
    {r wr inbox : List UInt8} {m n : Nat}

/-- The sender can go on, waits for the answer of the handler, or is done. -/
theorem SenderScript.canMove_or_waits (h : SenderScript o bs s () r wr m) :
    (RemoteDom0Instance.program o).CanMove noCalls s () inbox ∨
      (∃ done b rest left, bs = done ++ b :: rest ∧ r = left ++ answers o rest ∧ wr = b.data ++ wire o w rest ∧
      left ≠ [] ∧
        left.length ≤ 4 ∧ (RemoteDom0Instance.program o).Waits s) ∨
      (s.sending = none ∧ Returned bs s.results [] ∧ r = [] ∧ wr = []) := by
  cases h with
  | nameSize _ ht | name _ ht | size _ ht | data _ ht =>
    exact Or.inl (Program.canMove_of_write rfl (by rw [ht.window]; exact ht.ne_nil))
  | @waitGo t b rest left _ _ _ hret ht =>
    obtain ⟨done, hbs, -⟩ := hret
    obtain ⟨got, hgo, -⟩ := ht.rest
    have hlen := congrArg List.length hgo
    rw [ByteOrder.length_bytes, List.length_append] at hlen
    exact Or.inr (Or.inl ⟨done, b, rest, left, hbs, rfl, rfl, ht.ne_nil, by omega, (), _, _, rfl, ht.left_pos⟩)
  | finished hret => exact Or.inr (Or.inr ⟨rfl, hret, rfl, rfl⟩)

/-- With a block for each content the handler can go on, or it waits: for the first byte of a name it is not to get, for
    bytes ahead of a content, or for bytes of a content itself. -/
theorem HandlerScript.canMove_or_waits (h : HandlerScript o w bs s' log r wr m) (hpc : s'.pc ≠ .faulted) :
    (BinaryHandler.program o).CanMove (Log.Serves w') s' log inbox ∨
      (BinaryHandler.program o).Waits s' ∧
        ((r = [] ∧ wr = [] ∧ Decoded log.received bs ∧ log.Gave bs.length) ∨
          (∃ done b rest left, bs = done ++ b :: rest ∧ left ≠ [] ∧ r = left ++ (b.data ++ wire o w rest) ∧
            wr = answers o (b :: rest)) ∨
          (∃ done b rest left, bs = done ++ b :: rest ∧ left ≠ [] ∧ r = left ++ wire o w rest ∧
          wr = answers o rest)) := by
  cases h with
  | idle hpc hlog hgave =>
    have hwait : 0 < (Transfer.int32 : Transfer w').left := by
      rw [Transfer.At.int32.left, Transfer.toNat_int32]
      decide
    exact Or.inr ⟨⟨_, _, _, BinaryHandler.call_of_pc hpc, hwait⟩, Or.inl ⟨rfl, rfl, hlog, hgave⟩⟩
  | @nameSize t done rest b left hpc hbs hlog hgave ht =>
    refine Or.inr ⟨⟨_, _, _, BinaryHandler.call_of_pc hpc, ht.left_pos⟩, Or.inr (Or.inl
      ⟨done, b, rest, left ++ (nameBytes b ++ sizeBytes o w b), hbs,
      ?_, by simp only [List.append_assoc], by simp [answers]⟩)⟩
    exact List.append_ne_nil_of_left_ne_nil ht.ne_nil _
  | @name t done rest b left hpc hbs hlog hgave ht =>
    refine Or.inr ⟨⟨_, _, _, BinaryHandler.call_of_pc hpc, ht.left_pos⟩, Or.inr (Or.inl
      ⟨done, b, rest, left ++ sizeBytes o w b, hbs, ?_, by simp only [List.append_assoc], by simp [answers]⟩)⟩
    exact List.append_ne_nil_of_left_ne_nil ht.ne_nil _
  | @size t done rest b left files hpc hbs hfiles hlog hgave ht =>
    exact Or.inr ⟨⟨_, _, _, BinaryHandler.call_of_pc hpc, ht.left_pos⟩, Or.inr (Or.inl
      ⟨done, b, rest, left, hbs, ht.ne_nil, rfl, by simp [answers]⟩)⟩
  | @receive t done rest b left before chunk after files leftToReceive hpc hbs hfiles hdata hleft hsize hlog hgave ht =>
    refine Or.inr ⟨⟨_, _, _, BinaryHandler.call_of_pc hpc, ht.left_pos⟩, Or.inr (Or.inr
      ⟨done, b, rest, left ++ after, hbs, ?_, by simp only [List.append_assoc], rfl⟩)⟩
    exact List.append_ne_nil_of_left_ne_nil ht.ne_nil _
  | «open» hpc =>
    refine Or.inl (Program.canMove_of_op (a := 0) (BinaryHandler.call_of_pc hpc) ⟨⟨rfl, ?_⟩, fun _ _ => Or.inl rfl⟩)
    rintro _ _ ⟨⟩
  | malloc hpc =>
    -- there may be no block, but `malloc` returns
    refine Or.inl (Program.canMove_of_op (a := 0) (BinaryHandler.call_of_pc hpc) ⟨⟨rfl, ?_⟩, fun _ _ => Or.inl rfl⟩)
    rintro _ _ ⟨⟩
  | faulted hpc' => exact absurd hpc' hpc
  | go hpc hbs hfiles hlog hgave hsize ht =>
    refine Or.inl (Program.canMove_of_write (BinaryHandler.call_of_pc hpc) ?_)
    rw [ht.window]
    exact ht.ne_nil
  | write hpc hbs hfiles hdata hleft hsize hchunk hreceived hwritten hlog hgave =>
    refine Or.inl (Program.canMove_of_op (a := 1) (BinaryHandler.call_of_pc hpc) ⟨⟨rfl, ?_⟩, ?_⟩)
    · rintro _ _ ⟨⟩
      rw [Mem.length_read, BitVec.toNat_sub_of_le (by rw [BitVec.le_def]; omega)]
      omega
    · rintro _ ⟨⟩

theorem not_waits_of_faulted (hpc : s'.pc = .faulted) : ¬(BinaryHandler.program o).Waits s' := by
  rintro ⟨into, off, n, hcall, -⟩
  cases (BinaryHandler.call_of_pc hpc).symm.trans hcall

theorem HandlerScript.not_faulted (h : HandlerScript o w bs s' log r wr m) (hall : log.Allocated) :
    s'.pc ≠ .faulted := by
  intro hpc'
  cases h with
  | faulted _ _ _ _ hfailed => exact hfailed hall
  | idle hpc | nameSize hpc | name hpc | «open» hpc | size hpc | go hpc | malloc hpc | receive hpc | write hpc =>
    cases hpc.symm.trans hpc'

/-- Without a block for a content, that content is missing and stays so. -/
theorem HandlerScript.not_decoded (h : HandlerScript o w bs s' log r wr m) (hbs : ∀ b ∈ bs, b.Fits)
    (hfailed : ¬log.Allocated) : ¬Decoded log.received bs := by
  intro hdecoded
  cases h with
  | @faulted done rest b files hpc hdone hfiles hlog _ =>
    have hpos := (hbs b (hdone ▸ List.mem_append_right _ List.mem_cons_self)).pos
    have hall : files.map (fun f => (f.path, f.bytes)) ++ [(b.remoteFilename.bytes, [])] =
        done.map (fun b => (b.remoteFilename.bytes, b.data)) ++ (b.remoteFilename.bytes, b.data) ::
          rest.map fun b => (b.remoteFilename.bytes, b.data) := by
      rw [Decoded, hlog, hdone] at hdecoded
      simpa only [List.map_append, List.map_cons, List.map_nil] using hdecoded
    rw [hfiles, List.append_cancel_left_eq, List.cons.injEq, Prod.mk.injEq] at hall
    rw [← hall.1.2] at hpos
    exact absurd hpos (by decide)
  | idle _ _ hgave | nameSize _ _ _ hgave | name _ _ _ hgave | «open» _ _ _ hgave | size _ _ _ _ hgave
  | go _ _ _ _ hgave | malloc _ _ _ _ hgave | receive _ _ _ _ _ _ _ hgave | write _ _ _ _ _ _ _ _ _ _ hgave =>
    exact hfailed hgave.2

theorem length_answers : (answers o bs).length = 4 * bs.length := by
  induction bs with
  | nil => rfl
  | cons b rest ih =>
    rw [answers, List.flatMap_cons, List.length_append, ByteOrder.length_bytes, ← answers, ih, List.length_cons]
    omega

/-- The two ends are never both waiting with nothing on its way: where the sender waits for an answer, the handler
    has not got all that comes ahead of it, or has sent it. -/
theorem not_deadlocked (h : d.Meets (SenderScript o bs) (HandlerScript o w bs) n) :
    ¬d.Deadlocked (RemoteDom0Instance.program o) (BinaryHandler.program o) := by
  rintro ⟨hwait, hwait', hleft, hright⟩
  obtain ⟨wl, ml, wr, mr, hsender, hhandler, -⟩ := h
  rw [hleft, List.nil_append] at hsender
  rw [hright, List.nil_append] at hhandler
  have hpc : d.right.pc ≠ .faulted := fun hpc => not_waits_of_faulted hpc hwait'
  rcases hsender.canMove_or_waits with
    hmove | ⟨done, b, rest, left, hbs, hread, hwrite, hne, hle, -⟩ | ⟨hnone, -⟩
  · exact hwait.not_canMove hmove
  · have hpos := List.length_pos_iff.mpr hne
    have hlen := congrArg List.length hread
    rw [List.length_append, length_answers] at hlen
    rcases hhandler.canMove_or_waits hpc with
      hmove | ⟨-, ⟨-, hnil, -, -⟩ | ⟨done', b', rest', left', hbs', hne', hread', hwrite'⟩ |
        ⟨done', b', rest', left', hbs', hne', hread', hwrite'⟩⟩
    · exact hwait'.not_canMove hmove
    · rw [hnil, List.length_nil] at hlen
      omega
    · -- The handler is at the same binary, and misses bytes that were sent before the content.
      rw [hwrite', length_answers, List.length_cons] at hlen
      obtain ⟨-, heq⟩ := List.append_inj' (hbs.symm.trans hbs') (by simp only [List.length_cons]; omega)
      cases heq
      have hlen' := congrArg List.length (hwrite.symm.trans hread')
      have hpos' := List.length_pos_iff.mpr hne'
      simp only [List.length_append] at hlen'
      omega
    · -- The handler is at the binary before, and misses the name of this one.
      rw [hwrite', length_answers] at hlen
      have hsame : (b :: rest).length = rest'.length := by
        rw [List.length_cons]
        omega
      rw [List.append_cons] at hbs'
      obtain ⟨-, rfl⟩ := List.append_inj' (hbs.symm.trans hbs') hsame
      have hlen' := congrArg List.length (hwrite.symm.trans hread')
      have hpos' := List.length_pos_iff.mpr hne'
      simp only [wire, List.flatMap_cons, List.length_append] at hlen'
      omega
  · obtain ⟨into, off, n, hcall, -⟩ := hwait
    simp only [program, RemoteDom0Instance.call, hnone] at hcall
    cases hcall

theorem SenderScript.returned (h : SenderScript o bs s () r wr m) :
    s.results.map BitVec.toInt <+: bs.map fun b => (b.data.length : Int) := by
  obtain ⟨rest, done, rfl, hres⟩ : ∃ rest, Returned bs s.results rest := by
    cases h with
    | nameSize hret _ | name hret _ | size hret _ | waitGo hret _ | data hret _ | finished hret => exact ⟨_, hret⟩
  rw [hres, List.map_append]
  exact List.prefix_append _ _

theorem HandlerScript.decodedSoFar (h : HandlerScript o w bs s' log r wr m) : DecodedSoFar log.received bs := by
  cases h with
  | idle _ hlog _ => exact ⟨bs, [], (List.append_nil bs).symm, Or.inl hlog⟩
  | nameSize _ hbs hlog | name _ hbs hlog | «open» _ hbs hlog => exact ⟨_, _, hbs, Or.inl hlog⟩
  | size _ hbs hfiles hlog | go _ hbs hfiles hlog | malloc _ hbs hfiles hlog | faulted _ hbs hfiles hlog =>
    exact ⟨_, _, hbs, Or.inr ⟨_, _, _, _, hlog, hfiles, rfl, rfl, List.nil_prefix⟩⟩
  | receive _ hbs hfiles hdata _ _ hlog =>
    exact ⟨_, _, hbs, Or.inr ⟨_, _, _, _, hlog, hfiles, rfl, rfl, _, hdata.symm⟩⟩
  | write _ hbs hfiles hdata _ _ _ _ _ hlog =>
    refine ⟨_, _, hbs, Or.inr ⟨_, _, _, _, hlog, hfiles, rfl, rfl, ?_⟩⟩
    rw [hdata, ← List.append_assoc]
    exact ((List.prefix_append_right_inj _).mpr (List.take_prefix _ _)).trans (List.prefix_append _ _)

/-- What the sender was to send has been sent, and the handler decoded it. -/
structure Finished (bs : List Binary) (d : Duplex (RemoteDom0Instance w) (BinaryHandler w') Unit Log UInt8) : Prop where
  sent : d.left.sending = none
  returned : d.left.results.map BitVec.toInt = bs.map fun b => (b.data.length : Int)
  decoded : Decoded d.rightWorld.received bs

/-- What holds of the two ends in every state they can come to: the handler decoded what was sent, in order and
    with the same contents, and the calls of the sender returned the sizes; the two never wait for each other; and
    where nothing can go on, all is done. -/
structure Arrived (o : ByteOrder) (bs : List Binary)
    (d : Duplex (RemoteDom0Instance w) (BinaryHandler w') Unit Log UInt8) : Prop where
  decoded : DecodedSoFar d.rightWorld.received bs
  returned : d.left.results.map BitVec.toInt <+: bs.map fun b => (b.data.length : Int)
  no_deadlock : ¬d.Deadlocked (RemoteDom0Instance.program o) (BinaryHandler.program o)
  complete : d.Stuck (RemoteDom0Instance.program o) noCalls (BinaryHandler.program o) (Log.Serves w') → Finished bs d

/-- Where nothing can go on and there was a block for each content, all is done. -/
theorem finished_of_meets (h : d.Meets (SenderScript o bs) (HandlerScript o w bs) n) (hall : d.rightWorld.Allocated)
    (hstuck : d.Stuck (RemoteDom0Instance.program o) noCalls (BinaryHandler.program o) (Log.Serves w')) :
    Finished bs d ∧ d.rightWorld.Gave bs.length := by
  have hfree := not_deadlocked h
  obtain ⟨wl, ml, wr, mr, hsender, hhandler, -⟩ := h
  rcases hhandler.canMove_or_waits (hhandler.not_faulted hall) with hmove | ⟨hwait', hcases⟩
  · exact absurd hmove hstuck.right
  rcases hsender.canMove_or_waits with
    hmove | ⟨_, _, _, _, -, -, -, -, -, hwait⟩ | ⟨hnone, ⟨done, hbs, hres⟩, hread, hwrite⟩
  · exact absurd hmove hstuck.left
  · exact absurd (hstuck.deadlocked hwait hwait') hfree
  · -- The sender is done, so nothing is left to read for the handler either.
    rw [List.append_nil] at hbs
    subst hbs
    have hempty : d.toRight ++ wl = [] := by
      rw [hwrite, List.append_nil]
      exact by_contra fun hne => hstuck.right (hwait'.canMove hne)
    rcases hcases with ⟨-, -, hdecoded, hgave⟩ | ⟨_, _, _, _, -, hne, hread', -⟩ | ⟨_, _, _, _, -, hne, hread', -⟩
    · exact ⟨⟨hnone, hres, hdecoded⟩, hgave⟩
    · exact absurd (List.append_eq_nil_iff.mp (hread'.symm.trans hempty)).1 hne
    · exact absurd (List.append_eq_nil_iff.mp (hread'.symm.trans hempty)).1 hne

theorem arrived_of_meets (h : d.Meets (SenderScript o bs) (HandlerScript o w bs) n) (hall : d.rightWorld.Allocated) :
    Arrived o bs d := by
  have hfree := not_deadlocked h
  have hfinished := finished_of_meets h hall
  obtain ⟨wl, ml, wr, mr, hsender, hhandler, -⟩ := h
  exact ⟨hhandler.decodedSoFar, hsender.returned, hfree, fun hstuck => (hfinished hstuck).1⟩

/-- Both ends at the start of a connection. -/
def connected (bs : List Binary) (errno : NetErrno) (handler : BinaryHandler w') :
    Duplex (RemoteDom0Instance w) (BinaryHandler w') Unit Log UInt8 :=
  ⟨RemoteDom0Instance.start false bs errno, (), handler, [], [], []⟩

/-- A run of `n` steps of the two ends. -/
abbrev ConnectionRun (o : ByteOrder) (d : Duplex (RemoteDom0Instance w) (BinaryHandler w') Unit Log UInt8) (n : Nat)
    (d' : Duplex (RemoteDom0Instance w) (BinaryHandler w') Unit Log UInt8) : Prop :=
  Duplex.Run (RemoteDom0Instance.program o) noCalls (BinaryHandler.program o) (Log.Serves w') d n d'

/-- How many bytes are sent, each written once and read once, and how many calls the files take. -/
def steps (o : ByteOrder) (w : Word) (bs : List Binary) : Nat :=
  2 * ((wire o w bs).length + (answers o bs).length) + fileCalls bs

theorem connected_meets (errno : NetErrno) (fd : CInt) (buffer : Mem) (file : CInt) (size : SizeT w') (rwBuffer : Mem) :
    (connected bs errno (BinaryHandler.start o fd buffer file size rwBuffer)).Meets (SenderScript (w := w) o bs)
      (HandlerScript o w bs) (steps o w bs) := by
  refine ⟨wire o w bs, 0, answers o bs, fileCalls bs, .next ⟨[], rfl, rfl⟩, .top rfl (List.nil_append bs).symm rfl ?_,
    ?_⟩
  · exact ⟨rfl, List.not_mem_nil⟩
  · simp only [connected, List.nil_append, steps]
    omega

theorem meets_of_run (hbs : ∀ b ∈ bs, b.Fits) {errno : NetErrno} {fd : CInt} {buffer : Mem} {file : CInt}
    {size : SizeT w'} {rwBuffer : Mem}
    (hrun : ConnectionRun o (connected bs errno (BinaryHandler.start o fd buffer file size rwBuffer)) n d) :
    ∃ left, left + n ≤ steps o w bs ∧ d.Meets (SenderScript o bs) (HandlerScript o w bs) left ∧
      d.rightWorld.Apart w' := by
  have hscript : (BinaryHandler.program o : Program (BinaryHandler w') Target UInt8 ServerOp NetErrno).Script
      (Log.Serves w')
      fun s log r wr m => HandlerScript o w bs s log r wr m ∧ log.Apart w' :=
    ((handler_script hbs).mono fun _ _ _ _ h => h.1).and fun _ _ _ _ hapart h => h.apart hapart
  obtain ⟨wl, ml, wr, mr, hsender, hhandler, hle⟩ : (connected bs errno (.start o fd buffer file size rwBuffer)).Meets
      (SenderScript (w := w) o bs) (HandlerScript o w bs) (steps o w bs) :=
        connected_meets errno fd buffer file size rwBuffer
  have hempty : Log.Apart w' [] := ⟨.nil, fun _ hr => absurd hr List.not_mem_nil⟩
  obtain ⟨left, hleft, wl, ml, wr, mr, hsender, ⟨hhandler, hapart⟩, hle⟩ :=
    hrun.meets (sender_script hbs) hscript ⟨wl, ml, wr, mr, hsender, ⟨hhandler, hempty⟩, hle⟩
  exact ⟨left, hleft, ⟨wl, ml, wr, mr, hsender, hhandler, hle⟩, hapart⟩

theorem allocated_of_arrived (hbs : ∀ b ∈ bs, b.Fits) (hmeets : d.Meets (SenderScript o bs) (HandlerScript o w bs) n)
    (hstuck : d.Stuck (RemoteDom0Instance.program o) noCalls (BinaryHandler.program o) (Log.Serves w'))
    (harrived : Arrived o bs d) : d.rightWorld.Allocated := by
  obtain ⟨_, _, _, _, -, hhandler, -⟩ := hmeets
  exact by_contra fun hfailed => hhandler.not_decoded hbs hfailed (harrived.complete hstuck).decoded

/-- However the two streams are cut into pieces and however short the writes to the files are, no run goes on for ever;
    binaries that are sent one after the other arrive as they were sent as long as `malloc` gives a block each time, and
    a run in which all has arrived at the end is one in which it did. -/
theorem binaries_arrive_iff_allocated (o : ByteOrder) (bs : List Binary) (hbs : ∀ b ∈ bs, b.Fits) (errno : NetErrno)
    (fd : CInt) (buffer : Mem) (file : CInt) (size : SizeT w') (rwBuffer : Mem)
    (hrun : ConnectionRun o (connected bs errno (BinaryHandler.start o fd buffer file size rwBuffer)) n d) :
    n ≤ steps o w bs ∧ (d.rightWorld.Allocated → Arrived o bs d) ∧
      (d.Stuck (RemoteDom0Instance.program o) noCalls (BinaryHandler.program o) (Log.Serves w') →
        (Arrived o bs d ↔ d.rightWorld.Allocated)) := by
  obtain ⟨left, hle, hmeets, -⟩ := meets_of_run hbs hrun
  exact ⟨by omega, arrived_of_meets hmeets,
    fun hstuck => ⟨allocated_of_arrived hbs hmeets hstuck, arrived_of_meets hmeets⟩⟩

/-- As no block is freed, there is none for some content of a long list: it never arrives. -/
theorem not_arrived_of_many (hbs : ∀ b ∈ bs, b.Fits) (hmany : 2 ^ (8 * w'.bytes) ≤ bs.length * maxRwBufferSize)
    {errno : NetErrno} {fd : CInt} {buffer : Mem} {file : CInt} {size : SizeT w'} {rwBuffer : Mem}
    (hrun : ConnectionRun o (connected bs errno (BinaryHandler.start o fd buffer file size rwBuffer)) n d)
    (hstuck : d.Stuck (RemoteDom0Instance.program o) noCalls (BinaryHandler.program o) (Log.Serves w')) :
    ¬Arrived o bs d := by
  intro harrived
  obtain ⟨left, -, hmeets, hapart⟩ := meets_of_run hbs hrun
  have hall := allocated_of_arrived hbs hmeets hstuck harrived
  have hlt := (finished_of_meets hmeets hall hstuck).2.lt_of_apart hapart
  omega

end

/-! ## One binary, and many -/

/-- What `malloc` may give can be checked. -/
instance (w : Word) (log : Log) (a : Int) : Decidable (log.Gives w a) := inferInstanceAs (Decidable (_ ∨ _ ∧ _ ∧ _))

/-- The answer `a` to a call, if it can be one. -/
def Log.serve (w : Word) (log : Log) (op : ServerOp) (a : Int) : Option Log :=
  match op with
  | .write _ bs => if 1 ≤ a ∧ a ≤ bs.length then some (log ++ [(op, a)]) else none
  | .malloc _ => if log.Gives w a then some (log ++ [(op, a)]) else none
  | .open _ _ | .executeString _ | .close _ => some (log ++ [(op, a)])

theorem Log.serves_of_serve {w : Word} {log log' : Log} {op : ServerOp} {a : Int} (h : log.serve w op a = some log') :
    log.Serves w op a log' := by
  cases op with
  | write fd bs =>
    simp only [Log.serve, Option.ite_none_right_eq_some] at h
    refine ⟨⟨(Option.some.inj h.2).symm, ?_⟩, fun n hn => (by cases hn)⟩
    rintro _ _ ⟨⟩
    exact h.1
  | malloc size =>
    simp only [Log.serve, Option.ite_none_right_eq_some] at h
    exact ⟨⟨(Option.some.inj h.2).symm, fun _ _ hop => (by cases hop)⟩, fun _ _ => h.1⟩
  | «open» | executeString | close =>
    exact ⟨⟨(Option.some.inj h).symm, fun _ _ hop => (by cases hop)⟩, fun _ hop => (by cases hop)⟩

/-- One binary, `b`, of two bytes. -/
def twoBytes : List Binary := [⟨⟨[98], by decide⟩, [1, 2]⟩]

/-- Both ends before the first step, the handler with zeros in its memory. -/
def atStart (bs : List Binary) : Duplex (RemoteDom0Instance .w32) (BinaryHandler .w32) Unit Log UInt8 :=
  connected bs ⟨0, by decide⟩ (.start .little 3 (fun _ => 0) 0 0 (fun _ => 0))

/-- The size of the name comes in two pieces, and the content is written in two; the file is descriptor 4, and the block
    at 4096. -/
def twoBytesTurns : List (Int ⊕ Int) :=
  [.inl 3, .inr 2, .inl 1, .inr 2, .inl 2, .inl 4, .inr 2, .inr 4, .inr 4, .inr 4, .inr 4096, .inl 4, .inl 2, .inr 2,
    .inr 1, .inr 1]

/-- The transfer is played to its end. -/
theorem binaries_arrive_iff_allocated_twoBytes :
    ∃ d, ConnectionRun .little (atStart twoBytes) 16 d ∧ d.left.results = [2] ∧ d.rightWorld.blocks = [4096] ∧
      d.rightWorld.received = [⟨[98], 4, [1, 2]⟩] ∧ Arrived .little twoBytes d ∧ 16 ≤ steps .little .w32 twoBytes := by
  have hfits : ∀ b ∈ twoBytes, b.Fits := fun b hb => by
    cases List.mem_singleton.mp hb
    exact ⟨by decide, by decide, by decide⟩
  have hplay : (twoBytesTurns.foldlM (Duplex.turn (RemoteDom0Instance.program .little) (fun _ _ _ => none)
      (BinaryHandler.program .little) (Log.serve .w32)) (atStart twoBytes)).any fun d =>
        d.left.results = [2] ∧ d.rightWorld.blocks = [4096] ∧ d.rightWorld.received = [⟨[98], 4, [1, 2]⟩] := by
    decide +kernel
  obtain ⟨d, hd, hlast⟩ := (Option.any_eq_true _ _).mp hplay
  obtain ⟨hresults, hblocks, hreceived⟩ := of_decide_eq_true hlast
  have hrun : ConnectionRun .little (atStart twoBytes) 16 d :=
    .turns (fun _ _ _ _ hnone => by cases hnone) (fun _ _ _ _ => Log.serves_of_serve) .refl hd
  have hall : d.rightWorld.Allocated := by
    rw [Log.Allocated, hblocks]
    decide
  obtain ⟨hle, harrived, -⟩ := binaries_arrive_iff_allocated .little twoBytes hfits ⟨0, by decide⟩ 3 (fun _ => 0) 0 0
    (fun _ => 0) hrun
  exact ⟨d, hrun, hresults, hblocks, hreceived, harrived hall, hle⟩

/-- The same binary, 4096 times. -/
def manyBinaries : List Binary := List.replicate 4096 ⟨⟨[98], by decide⟩, [1, 2]⟩

/-- On the 32-bit build they do not arrive, whatever the run: its end is reached without them. -/
theorem manyBinaries_not_arrived :
    (∃ n d, ConnectionRun .little (atStart manyBinaries) n d ∧
      d.Stuck (RemoteDom0Instance.program .little) noCalls (BinaryHandler.program .little) (Log.Serves .w32)) ∧
    ∀ n d, ConnectionRun .little (atStart manyBinaries) n d →
      d.Stuck (RemoteDom0Instance.program .little) noCalls (BinaryHandler.program .little) (Log.Serves .w32) →
      ¬Arrived .little manyBinaries d := by
  have hfits : ∀ b ∈ manyBinaries, b.Fits := fun b hb => by
    cases List.eq_of_mem_replicate hb
    exact ⟨by decide, by decide, by decide⟩
  refine ⟨Duplex.exists_stuck (steps .little .w32 manyBinaries) fun n d hrun => ?_,
    fun n d hrun hstuck => not_arrived_of_many hfits ?_ hrun hstuck⟩
  · obtain ⟨left, hle, -⟩ := meets_of_run hfits hrun
    exact Nat.le_trans (Nat.le_add_left n left) hle
  · rw [manyBinaries, List.length_replicate]
    decide

end Dom0
