import Dom0.Lib.Runs
import Dom0.Theorems.BinaryTransfer

/-! Binaries from local files. `sendElfBinaryFromRom` passes on what `loadFile` returns, be it a length or -1: the wire
gets the file behind its length where the file was loaded as a whole and an `int32_t` holds the length. -/

namespace Dom0
open RemoteDom0Instance

/-- A call, with what it has put on the wire. -/
abbrev RomCall (w : Word) := Hosted (RemoteDom0Instance w) (List UInt8)

abbrev RomAction := Hosted.Action NetErrno UInt8 Empty

section
variable {w : Word}

def RomCall.step (o : ByteOrder) : RomCall w → RomAction → Option (RomCall w) :=
  Hosted.step (program o) (fun _ _ _ => none) (· ++ ·) (fun _ _ => none)

/-- The call still has something to send. -/
def RemoteDom0Instance.Unsent (s : RemoteDom0Instance w) : Prop :=
  match s.sending with
  | some ⟨.waitGo _, b, _⟩ | some ⟨.sendData _, b, _⟩ => b.data ≠ []
  | some _ => True
  | none => False

/-- The connection fails while there is something to send. -/
def RomCall.CutShort (h : RomCall w) (a : RomAction) : Prop :=
  (∃ e, a = .got (.error e) ∨ a = .put (.error e)) ∧ h.program.Unsent

/-- The wire has a size that is the length of the file, followed by the file; or nothing was sent, and the result is
    negative. -/
def RomCall.Delivers (o : ByteOrder) (f : LocalFile w) (remoteFilename : CString) (h : RomCall w) : Prop :=
  (∃ content size, f.content = some content ∧ BitVec.toInt size = content.length ∧
    h.world = o.bytes (BitVec.ofNat 32 remoteFilename.strlen + 1) ++
    (remoteFilename.c_str ++ (o.bytes size ++ content))) ∨
  h.world = [] ∧ ∃ x, h.program.results = [x] ∧ x.toInt < 0

/-- The whole file gets into memory, and its length into an `int32_t`. What `fread` leaves out was there before. -/
def LocalFile.Loads (f : LocalFile w) : Prop :=
  ∃ content buffer, f.fopen = some content ∧ content.length < 2 ^ 31 ∧
    f.malloc (BitVec.ofNat _ content.length) = some buffer ∧
    buffer.read f.fread (content.length - f.fread) = content.drop f.fread

/-- `sendData` can return the length of the name. -/
def NameSendable (w : Word) (remoteFilename : CString) : Prop := remoteFilename.strlen + 1 < 2 ^ (8 * w.bytes - 1)

end

/-! ## One call -/

namespace RomCall

section
variable {w : Word} {o : ByteOrder} {b : Binary} {h h' last : RomCall w} {a : RomAction} {actions : List RomAction}

/-- All that a call is to send. -/
def block (o : ByteOrder) (w : Word) (b : Binary) : List UInt8 :=
  nameSizeBytes o b ++ (nameBytes b ++ (sizeBytes o w b ++ b.data))

/-- Where a call stands, and what it has sent by then. -/
inductive Progress (o : ByteOrder) (b : Binary) : RomCall w → Prop
  | nameSize {t : Transfer w} {message : Mem} {e : NetErrno} {left wire : List UInt8}
      (ht : t.Sends (nameSizeBytes o b) left)
      (hwire : wire ++ left = nameSizeBytes o b) : Progress o b ⟨⟨some ⟨.sendNameSize t, b, message⟩, [], [], e⟩, wire⟩
  | name {t : Transfer w} {message : Mem} {e : NetErrno} {left wire : List UInt8} (ht : t.Sends (nameBytes b) left)
      (hwire : wire ++ left = nameSizeBytes o b ++ nameBytes b) :
      Progress o b ⟨⟨some ⟨.sendName t, b, message⟩, [], [], e⟩, wire⟩
  | size {t : Transfer w} {message : Mem} {e : NetErrno} {left wire : List UInt8}
      (hname : NameSendable w b.remoteFilename)
      (ht : t.Sends (sizeBytes o w b) left)
      (hwire : wire ++ left = nameSizeBytes o b ++ (nameBytes b ++ sizeBytes o w b)) :
      Progress o b ⟨⟨some ⟨.sendSize t, b, message⟩, [], [], e⟩, wire⟩
  | waitGo {t : Transfer w} {message : Mem} {e : NetErrno} {k : Nat} (hname : NameSendable w b.remoteFilename)
      (ht : t.At k) (hsize : t.size = 4) :
      Progress o b ⟨⟨some ⟨.waitGo t, b, message⟩, [], [], e⟩, nameSizeBytes o b ++ (nameBytes b ++ sizeBytes o w b)⟩
  | data {t : Transfer w} {message : Mem} {e : NetErrno} {left wire : List UInt8}
      (hname : NameSendable w b.remoteFilename)
      (ht : t.Sends b.data left) (hwire : wire ++ left = block o w b) :
      Progress o b ⟨⟨some ⟨.sendData t, b, message⟩, [], [], e⟩, wire⟩
  | empty {message : Mem} {e : NetErrno} (hname : NameSendable w b.remoteFilename) (hdata : b.data = []) :
      Progress o b ⟨⟨some ⟨.sendData (.start 0), b, message⟩, [], [], e⟩, block o w b⟩

/-- How a call ends where the connection does not fail: `sendData` takes a name that is too long for an error. -/
def Ended (o : ByteOrder) (b : Binary) (h : RomCall w) : Prop :=
  h.program.sending = none ∧ (NameSendable w b.remoteFilename ∧ h.world = block o w b ∨
    ¬NameSendable w b.remoteFilename ∧ h.world = nameSizeBytes o b ++ nameBytes b)

theorem step_cases (hstep : h.step o a = some h') :
    (∃ into off n res, call o h.program = .read into off n ∧ a = .got res ∧
      (∀ bs, res = .ok bs → 0 < bs.length ∧ bs.length ≤ n) ∧ h' = { h with program := h.program.onRead res }) ∨
    (∃ bs k, call o h.program = .write bs ∧ a = .put (.ok k) ∧ (0 < k ∧ k ≤ bs.length) ∧
      h' = ⟨h.program.onWrite (.ok k), h.world ++ bs.take k⟩) ∨
    (∃ bs e, call o h.program = .write bs ∧ a = .put (.error e) ∧
    h' = { h with program := h.program.onWrite (.error e) }) := by
  rcases Hosted.step_cases hstep with hread | hput | hfailed | ⟨op, _, _, _, _, hserve, _⟩ | ⟨_, _, _, hchange, _⟩
  · exact Or.inl hread
  · exact Or.inr (Or.inl hput)
  · exact Or.inr (Or.inr hfailed)
  · cases hserve
  · cases hchange

theorem check_stop {s : RemoteDom0Instance w} {c : Sending w} {x : SSizeT w} {pc : Pc w} (hx : x.toInt < 1) :
    s.check c x pc = s.ret (-s.errno.1) :=
  if_pos hx

theorem check_goes {s : RemoteDom0Instance w} {c : Sending w} {x : SSizeT w} {pc : Pc w} (hx : ¬x.toInt < 1) :
    s.check c x pc = { s with sending := some { c with pc } } :=
  if_neg hx

theorem toInt_lt_one_iff {x : SSizeT w} (hpos : 0 < x.toNat) : x.toInt < 1 ↔ ¬x.toNat < 2 ^ (8 * w.bytes - 1) := by
  have hx := x.isLt
  have hhalf := w.two_pow_eq
  rw [BitVec.toInt_eq_toNat_cond]
  split <;> omega

theorem ret_last {c : Option (Sending w)} {e : NetErrno} (x : CInt) :
    RemoteDom0Instance.ret ⟨c, [], [], e⟩ x = ⟨none, [], [x], e⟩ := rfl

theorem piece_sent {wire left block : List UInt8} {k : Nat} (hwire : wire ++ left = block) :
    (wire ++ left.take k) ++ left.drop k = block := by
  rw [List.append_assoc, List.take_append_drop, hwire]

theorem all_sent {wire left block : List UInt8} {k : Nat} (hwire : wire ++ left = block) (hdrop : left.drop k = []) :
    wire ++ left.take k = block := by
  have hpiece := piece_sent (k := k) hwire
  rwa [hdrop, List.append_nil] at hpiece

theorem not_cutShort (hok : ∀ e, a ≠ .got (.error e) ∧ a ≠ .put (.error e)) : ¬h.CutShort a := by
  rintro ⟨⟨e, hgot | hput⟩, -⟩
  · exact (hok e).1 hgot
  · exact (hok e).2 hput

theorem Progress.put_error (hp : Progress o b h) {piece : List UInt8} {e : NetErrno}
    (hcall : call o h.program = .write piece) :
    (h.program.onWrite (.error e)).sending = none ∧
      (h.CutShort (.put (.error e)) ∧ (∃ left, left ≠ [] ∧ h.world ++ left = block o w b) ∨
        ¬h.CutShort (.put (.error e)) ∧ NameSendable w b.remoteFilename ∧ h.world = block o w b) := by
  have hfails : ∃ e', (.put (.error e) : RomAction) = .got (.error e') ∨
      (.put (.error e) : RomAction) = .put (.error e') :=
    ⟨e, Or.inr rfl⟩
  cases hp with
  | @nameSize t message e' left wire ht hwire =>
    obtain ⟨x, hnext, hx⟩ := t.next_error e
    -- The loop ends with the error. What it had left and all that follows is missing.
    refine ⟨?_, Or.inl ⟨⟨hfails, trivial⟩, left ++ (nameBytes b ++ (sizeBytes o w b ++ b.data)), ?_, ?_⟩⟩
    · simp only [onWrite, hnext, setErrno, check_stop hx, ret_last]
    · exact List.append_ne_nil_of_left_ne_nil ht.ne_nil _
    · rw [← List.append_assoc, hwire, block]
  | @name t message e' left wire ht hwire =>
    obtain ⟨x, hnext, hx⟩ := t.next_error e
    refine ⟨?_, Or.inl ⟨⟨hfails, trivial⟩, left ++ (sizeBytes o w b ++ b.data), ?_, ?_⟩⟩
    · simp only [onWrite, hnext, setErrno, check_stop hx, ret_last]
    · exact List.append_ne_nil_of_left_ne_nil ht.ne_nil _
    · rw [← List.append_assoc, hwire, block, List.append_assoc]
  | @size t message e' left wire hname ht hwire =>
    obtain ⟨x, hnext, hx⟩ := t.next_error e
    refine ⟨?_, Or.inl ⟨⟨hfails, trivial⟩, left ++ b.data, ?_, ?_⟩⟩
    · simp only [onWrite, hnext, setErrno, check_stop hx, ret_last]
    · exact List.append_ne_nil_of_left_ne_nil ht.ne_nil _
    · rw [← List.append_assoc, hwire, block, List.append_assoc, List.append_assoc]
  | waitGo => cases hcall
  | @data t message e' left wire hname ht hwire =>
    obtain ⟨x, hnext, hx⟩ := t.next_error e
    have hne : b.data ≠ [] := by
      obtain ⟨sent, hrest⟩ := ht.rest
      rw [hrest]
      exact List.append_ne_nil_of_right_ne_nil _ ht.ne_nil
    refine ⟨?_, Or.inl ⟨⟨hfails, hne⟩, left, ht.ne_nil, hwire⟩⟩
    simp only [onWrite, hnext, setErrno, ret_last]
  | empty hname hdata =>
    obtain ⟨x, hnext, hx⟩ := (Transfer.start (0 : SizeT w)).next_error e
    -- A file without content is out already, so this failure cuts nothing off.
    refine ⟨?_, Or.inr ⟨fun hcut => hcut.2 hdata, hname, rfl⟩⟩
    simp only [onWrite, hnext, setErrno, ret_last]

theorem Progress.put_ok (hp : Progress o b h) (hlong : b.remoteFilename.strlen + 1 < 2 ^ (8 * w.bytes))
    {piece : List UInt8} {k : Nat} (hcall : call o h.program = .write piece) (hk : 0 < k ∧ k ≤ piece.length) :
    Progress o b ⟨h.program.onWrite (.ok k), h.world ++ piece.take k⟩ ∨
      Ended o b ⟨h.program.onWrite (.ok k), h.world ++ piece.take k⟩ := by
  cases hp with
  | @nameSize t message e left wire ht hwire =>
    cases hcall
    simp only [ht.window] at hk ⊢
    have hsize := ht.size
    rw [nameSizeBytes, ByteOrder.length_bytes] at hsize
    rcases ht.next hk.2 with ⟨t', hnext, ht'⟩ | ⟨hnext, hdrop⟩
    · simp only [onWrite, hnext]
      exact Or.inl (.nameSize ht' (piece_sent hwire))
    · have hgo : ¬t.size.toInt < 1 := Transfer.not_toInt_lt_one (by omega) (by omega)
      simp only [onWrite, hnext, setErrno, check_goes hgo]
      exact Or.inl (.name (.start (toNat_nameLength hlong) nameBytes_ne_nil) (by rw [all_sent hwire hdrop]))
  | @name t message e left wire ht hwire =>
    cases hcall
    simp only [ht.window] at hk ⊢
    have hsize := ht.size
    rw [nameBytes, CString.length_c_str] at hsize
    rcases ht.next hk.2 with ⟨t', hnext, ht'⟩ | ⟨hnext, hdrop⟩
    · simp only [onWrite, hnext]
      exact Or.inl (.name ht' (piece_sent hwire))
    · -- The caller reads the length that was sent as a signed number, and ends the call where that is negative.
      have hfits := toInt_lt_one_iff (x := t.size) (by omega)
      rw [hsize] at hfits
      by_cases hx : t.size.toInt < 1
      · simp only [onWrite, hnext, setErrno, check_stop hx, ret_last]
        exact Or.inr ⟨rfl, Or.inr ⟨hfits.mp hx, all_sent hwire hdrop⟩⟩
      · have hname : NameSendable w b.remoteFilename := by
          by_contra hno
          exact hx (hfits.mpr hno)
        simp only [onWrite, hnext, setErrno, check_goes hx]
        exact Or.inl (.size hname (.int32 ByteOrder.length_bytes) (by rw [all_sent hwire hdrop, List.append_assoc]))
  | @size t message e left wire hname ht hwire =>
    cases hcall
    simp only [ht.window] at hk ⊢
    have hsize := ht.size
    rw [sizeBytes, ByteOrder.length_bytes] at hsize
    rcases ht.next hk.2 with ⟨t', hnext, ht'⟩ | ⟨hnext, hdrop⟩
    · simp only [onWrite, hnext]
      exact Or.inl (.size hname ht' (piece_sent hwire))
    · have hgo : ¬t.size.toInt < 1 := Transfer.not_toInt_lt_one (by omega) (by omega)
      simp only [onWrite, hnext, setErrno, check_goes hgo, all_sent hwire hdrop]
      exact Or.inl (.waitGo hname .int32 rfl)
  | waitGo => cases hcall
  | @data t message e left wire hname ht hwire =>
    cases hcall
    simp only [ht.window] at hk ⊢
    rcases ht.next hk.2 with ⟨t', hnext, ht'⟩ | ⟨hnext, hdrop⟩
    · simp only [onWrite, hnext]
      exact Or.inl (.data hname ht' (piece_sent hwire))
    · simp only [onWrite, hnext, setErrno, ret_last]
      exact Or.inr ⟨rfl, Or.inl ⟨hname, all_sent hwire hdrop⟩⟩
  | empty hname hdata =>
    cases hcall
    -- There is no byte that `write` could take.
    simp [hdata, Transfer.window] at hk
    omega

/-- The answer of the other side arrives, or the connection fails while it is waited for. -/
theorem Progress.got (hp : Progress o b h)
    (hdata : (((RemoteDom0Instance.size b : SizeT w).setWidth 32).signExtend (8 * w.bytes)).toNat = b.data.length)
    {into : Unit}
    {off n : Nat} (hcall : call o h.program = .read into off n) {res : Except NetErrno (List UInt8)}
    (hbounds : ∀ bs, res = .ok bs → 0 < bs.length ∧ bs.length ≤ n) :
    h.CutShort (.got res) ∧ (h.program.onRead res).sending = none ∧
    (∃ left, left ≠ [] ∧ h.world ++ left = block o w b) ∨
      ¬h.CutShort (.got res) ∧ (Progress o b ⟨h.program.onRead res, h.world⟩ ∨
      Ended o b ⟨h.program.onRead res, h.world⟩) := by
  cases hp with
  | @waitGo t message e' k hname ht hsize =>
    cases hcall
    cases res with
    | error e =>
      obtain ⟨x, hnext, hx⟩ := t.next_error e
      have hends : (onRead ⟨some ⟨.waitGo t, b, message⟩, [], [], e'⟩ (.error e)).sending = none := by
        simp only [onRead, Except.map, hnext, setErrno, check_stop hx, ret_last]
      -- The failure is seen, but a file without content has nothing left to send.
      by_cases hempty : b.data = []
      · refine Or.inr ⟨fun hcut => hcut.2 hempty, Or.inr ⟨hends, Or.inl ⟨hname, ?_⟩⟩⟩
        rw [block, hempty, List.append_nil]
      · refine Or.inl ⟨⟨⟨e, Or.inl rfl⟩, hempty⟩, hends, b.data, hempty, ?_⟩
        rw [block, List.append_assoc, List.append_assoc]
    | ok bs =>
      obtain ⟨hpos, hle⟩ := hbounds bs rfl
      have hgoes : ∀ e, (.got (.ok bs) : RomAction) ≠ .got (.error e) ∧
        (.got (.ok bs) : RomAction) ≠ .put (.error e) := by simp
      refine Or.inr ⟨not_cutShort hgoes, Or.inl ?_⟩
      rw [ht.left] at hle
      have hlt := ht.lt
      rcases Nat.lt_or_ge (k + bs.length) t.size.toNat with hmore | hdone
      · obtain ⟨t', hnext, hsize', ht'⟩ := ht.next_again hmore
        simp only [onRead, Except.map, hnext]
        exact .waitGo hname ht' (hsize'.trans hsize)
      · have hnext := ht.next_returned (k := bs.length) (by omega)
        have hgo : ¬t.size.toInt < 1 := by
          rw [hsize]
          cases w <;> decide
        simp only [onRead, Except.map, hnext, setErrno, check_goes hgo]
        -- The answer is complete. Without content the last loop calls `write` with no bytes.
        by_cases hempty : b.data = []
        · have hzero : ((RemoteDom0Instance.size b : SizeT w).setWidth 32).signExtend (8 * w.bytes) = 0 :=
            BitVec.eq_of_toNat_eq (by rw [hdata, hempty]; simp)
          have hwire : nameSizeBytes o b ++ (nameBytes b ++ sizeBytes o w b) = block o w b := by
            rw [block, hempty, List.append_nil]
          rw [hzero, hwire]
          exact .empty hname hempty
        · refine .data hname (.start hdata hempty) ?_
          rw [block, List.append_assoc, List.append_assoc]
  | nameSize | name | size | data | empty => cases hcall

/-- What one step does: the connection is cut, the call goes on, or it ends. -/
theorem Progress.step (hp : Progress o b h) (hlong : b.remoteFilename.strlen + 1 < 2 ^ (8 * w.bytes))
    (hdata : (((RemoteDom0Instance.size b : SizeT w).setWidth 32).signExtend (8 * w.bytes)).toNat = b.data.length)
    (hstep : h.step o a = some h') :
    h.CutShort a ∧ h'.program.sending = none ∧ h'.world = h.world ∧
    (∃ left, left ≠ [] ∧ h.world ++ left = block o w b) ∨
      ¬h.CutShort a ∧ (Progress o b h' ∨ Ended o b h') := by
  rcases step_cases hstep with ⟨into, off, n, res, hcall, rfl, hbounds, rfl⟩ | ⟨piece, k, hcall, rfl, hk, rfl⟩ |
    ⟨piece, e, hcall, rfl, rfl⟩
  · rcases hp.got hdata hcall hbounds with ⟨hcut, hends, hleft⟩ | hgoes
    · exact Or.inl ⟨hcut, hends, rfl, hleft⟩
    · exact Or.inr hgoes
  · have hgoes : ∀ e, (.put (.ok k) : RomAction) ≠ .got (.error e) ∧
      (.put (.ok k) : RomAction) ≠ .put (.error e) := by simp
    exact Or.inr ⟨not_cutShort hgoes, hp.put_ok hlong hcall hk⟩
  · obtain ⟨hends, ⟨hcut, hleft⟩ | ⟨hgoes, hname, hwire⟩⟩ := hp.put_error (e := e) hcall
    · exact Or.inl ⟨hcut, hends, rfl, hleft⟩
    · exact Or.inr ⟨hgoes, Or.inr ⟨hends, Or.inl ⟨hname, hwire⟩⟩⟩

theorem step_of_ended (hends : h.program.sending = none) (a : RomAction) : h.step o a = none := by
  have hexit : call o h.program = .exit := by simp [call, hends]
  by_contra hsome
  obtain ⟨h', hstep⟩ := Option.ne_none_iff_exists'.mp hsome
  rcases step_cases hstep with ⟨_, _, _, _, hcall, _⟩ | ⟨_, _, hcall, _⟩ | ⟨_, _, hcall, _⟩ <;>
    cases hexit.symm.trans hcall

/-- How a call ends: without the whole block on the wire if the connection is cut before, and otherwise as the length of
    the name has it. -/
theorem Progress.run (hp : Progress o b h) (hlong : b.remoteFilename.strlen + 1 < 2 ^ (8 * w.bytes))
    (hdata : (((RemoteDom0Instance.size b : SizeT w).setWidth 32).signExtend (8 * w.bytes)).toNat = b.data.length)
    (hrun : Run (RomCall.step o) (fun _ _ => True) h actions last) (hends : last.program.sending = none) :
    ¬Run.Along (RomCall.step o) (fun h a _ => ¬h.CutShort a) h actions ∧
        (∃ left, left ≠ [] ∧ last.world ++ left = block o w b) ∨
      Run.Along (RomCall.step o) (fun h a _ => ¬h.CutShort a) h actions ∧ Ended o b last := by
  induction hrun with
  | nil h =>
    cases hp with
    | nameSize | name | size | waitGo | data | empty => cases hends
  | @cons h middle last a actions allowed accepted tail ih =>
    rcases hp.step hlong hdata accepted with ⟨hcut, hstops, hsame, hleft⟩ | ⟨hgoes, hmiddle | hmiddle⟩
    · obtain ⟨rfl, rfl⟩ := tail.of_stuck (step_of_ended hstops)
      rw [← hsame] at hleft
      exact Or.inl ⟨fun hall => ((Run.along_cons accepted).mp hall).1 hcut, hleft⟩
    · rcases ih hmiddle hends with ⟨hcut, hleft⟩ | ⟨hnever, hended⟩
      · exact Or.inl ⟨fun hall => hcut ((Run.along_cons accepted).mp hall).2, hleft⟩
      · exact Or.inr ⟨(Run.along_cons accepted).mpr ⟨hgoes, hnever⟩, hended⟩
    · obtain ⟨rfl, rfl⟩ := tail.of_stuck (step_of_ended hmiddle.1)
      exact Or.inr ⟨(Run.along_cons accepted).mpr ⟨hgoes, trivial⟩, hmiddle⟩

/-! ## What was loaded -/

theorem setWidth_signExtend (v : CInt) : (v.signExtend (8 * w.bytes)).setWidth 32 = v := by
  have hw := w.le_bits
  ext i hi
  have hlt : i < 8 * w.bytes := by omega
  simp [BitVec.getElem_signExtend, hlt, hi]

variable {f : LocalFile w} {null : Mem} {remoteFilename : CString} {content : List UInt8}

theorem size_binary : ((RemoteDom0Instance.size (f.binary null remoteFilename) : SizeT w).setWidth 32) =
    f.loadFile.1 := by
  have hsize : (RemoteDom0Instance.size (f.binary null remoteFilename) : SizeT w) = f.loadFile.1.signExtend _ := by
    simp only [RemoteDom0Instance.size, LocalFile.binary, Mem.length_read, BitVec.ofNat_toNat, BitVec.setWidth_eq]
  rw [hsize, setWidth_signExtend]

theorem length_binary : (f.loadFile.1.signExtend (8 * w.bytes)).toNat = (f.binary null remoteFilename).data.length := by
  simp [LocalFile.binary]

theorem length_binary_of_toInt (null : Mem) (remoteFilename : CString) {n : Nat} (h : f.loadFile.1.toInt = n) :
    (f.binary null remoteFilename).data.length = n := by
  have hlt := f.loadFile.1.isLt
  rw [BitVec.toInt_eq_toNat_cond] at h
  split at h
  · rw [← length_binary, toNat_signExtend_of_lt (by omega)]
    omega
  · omega

theorem fopen_eq_some : f.fopen = some content ↔ f.readable = true ∧ f.content = some content := by
  rw [LocalFile.fopen, Option.ite_none_right_eq_some]

theorem loadFile_cases (f : LocalFile w) : f.loadFile = (-1, none) ∨ ∃ content buffer, f.fopen = some content ∧
    f.malloc (LocalFile.ftell content) = some buffer ∧ f.loadFile = ((LocalFile.ftell content : SizeT w).setWidth 32,
      some (buffer.write 0 (content.take (min f.fread (LocalFile.ftell content : SizeT w).toNat)))) := by
  unfold LocalFile.loadFile
  split
  · exact Or.inl rfl
  · next content hopen =>
    dsimp only
    split
    · exact Or.inl rfl
    · next buffer hbuffer => exact Or.inr ⟨content, buffer, hopen, hbuffer, rfl⟩

theorem ftell_of_lt (h : content.length < 2 ^ 31) :
    (LocalFile.ftell content : SizeT w) = BitVec.ofNat _ content.length := by
  have hw : 2 ^ 31 ≤ 2 ^ (8 * w.bytes - 1) := by cases w <;> decide
  exact if_pos (by omega)

theorem data_binary {buffer : Mem} (h : content.length < 2 ^ 31) (hload : f.loadFile =
      ((LocalFile.ftell content : SizeT w).setWidth 32,
        some (buffer.write 0 (content.take (min f.fread (LocalFile.ftell content : SizeT w).toNat))))) :
    f.loadFile.1.toInt = content.length ∧
      (f.binary null remoteFilename).data = (buffer.write 0 (content.take f.fread)).read 0 content.length := by
  have hw := w.two_pow_le
  have hsize : (BitVec.ofNat (8 * w.bytes) content.length).toNat = content.length := by
    rw [BitVec.toNat_ofNat, Nat.mod_eq_of_lt (by omega)]
  rw [ftell_of_lt h, hsize] at hload
  have hint : f.loadFile.1.toInt = content.length := by
    rw [hload, BitVec.toInt_eq_toNat_cond, BitVec.toNat_setWidth, hsize, Nat.mod_eq_of_lt (by omega), if_pos (by omega)]
  have hlength := length_binary_of_toInt null remoteFilename hint
  rw [← length_binary] at hlength
  refine ⟨hint, ?_⟩
  rw [LocalFile.binary, hlength, hload, Option.getD_some, List.take_eq_take_min (i := f.fread)]

/-- `loadFile` returns the length of the file and leaves its bytes in memory if and only if it loads the file. -/
theorem loads_iff (null : Mem) (remoteFilename : CString) : f.Loads ↔ ∃ content, f.content = some content ∧
    f.loadFile.1.toInt = content.length ∧ (f.binary null remoteFilename).data = content := by
  constructor
  · rintro ⟨content, buffer, hopen, hlt, hbuffer, hrest⟩
    rw [← ftell_of_lt hlt] at hbuffer
    have hload : f.loadFile = ((LocalFile.ftell content : SizeT w).setWidth 32,
        some (buffer.write 0 (content.take (min f.fread (LocalFile.ftell content : SizeT w).toNat)))) := by
      simp only [LocalFile.loadFile, hopen, hbuffer]
    obtain ⟨hint, hdata⟩ := data_binary hlt hload
    exact ⟨content, (fopen_eq_some.mp hopen).2, hint, hdata.trans (Mem.read_write_take_eq.mpr hrest)⟩
  · rintro ⟨content, hcontent, hint, hall⟩
    have hlt := BitVec.toInt_lt (x := f.loadFile.1)
    rw [hint] at hlt
    have hsmall : content.length < 2 ^ 31 := by omega
    rcases loadFile_cases f with hfailed | ⟨content', buffer, hopen, hbuffer, hload⟩
    · rw [hfailed] at hint
      have hminus : (-1 : CInt).toInt = -1 := rfl
      rw [hminus] at hint
      omega
    · obtain rfl : content' = content := Option.some.inj ((fopen_eq_some.mp hopen).2.symm.trans hcontent)
      have hdata := (data_binary hsmall hload).2.symm.trans hall
      rw [ftell_of_lt hsmall] at hbuffer
      exact ⟨content', buffer, hopen, hsmall, hbuffer, Mem.read_write_take_eq.mp hdata⟩

/-! ## The wire -/

/-- A wire that has the file behind its length has the whole block, and the block is that of a loaded file. -/
theorem loads_of_wire {wire left : List UInt8} {size : CInt}
    (hleft : wire ++ left = block o w (f.binary null remoteFilename))
    (hcontent : f.content = some content) (hsize : size.toInt = content.length)
    (hwire : wire = o.bytes (BitVec.ofNat 32 remoteFilename.strlen + 1) ++
    (remoteFilename.c_str ++ (o.bytes size ++ content))) :
    left = [] ∧ f.Loads := by
  have hname : (f.binary null remoteFilename).remoteFilename = remoteFilename := rfl
  rw [hwire, block, nameSizeBytes, nameBytes, sizeBytes, hname, size_binary, List.append_assoc, List.append_assoc,
    List.append_assoc, List.append_right_inj, List.append_right_inj] at hleft
  obtain ⟨hbytes, hdata⟩ := List.append_inj hleft (by rw [ByteOrder.length_bytes, ByteOrder.length_bytes])
  obtain rfl : size = f.loadFile.1 := by rw [← o.int32_bytes size, hbytes, o.int32_bytes]
  have hlength := length_binary_of_toInt null remoteFilename hsize
  rw [← hdata, List.length_append] at hlength
  obtain rfl : left = [] := List.eq_nil_of_length_eq_zero (by omega)
  rw [List.append_nil] at hdata
  exact ⟨rfl, (loads_iff null remoteFilename).mpr ⟨content, hcontent, hsize, hdata.symm⟩⟩

/-- The block of a file that was loaded is the file behind its length. -/
theorem wire_of_loads (hloads : f.Loads) : ∃ content size, f.content = some content ∧
    BitVec.toInt size = content.length ∧
    block o w (f.binary null remoteFilename) =
      o.bytes (BitVec.ofNat 32 remoteFilename.strlen + 1) ++ (remoteFilename.c_str ++ (o.bytes size ++ content)) := by
  obtain ⟨content, hcontent, hint, hdata⟩ := (loads_iff null remoteFilename).mp hloads
  have hname : (f.binary null remoteFilename).remoteFilename = remoteFilename := rfl
  refine ⟨content, f.loadFile.1, hcontent, hint, ?_⟩
  rw [block, nameSizeBytes, nameBytes, sizeBytes, hname, size_binary, hdata]

theorem run_prefix (hrun : Run (RomCall.step o) (fun _ _ => True) h actions last) : h.world <+: last.world := by
  induction hrun with
  | nil => exact List.prefix_rfl
  | cons _ accepted tail ih =>
    rcases step_cases accepted with ⟨_, _, _, _, _, _, _, rfl⟩ | ⟨_, _, _, _, _, rfl⟩ | ⟨_, _, _, _, rfl⟩
    · exact ih
    · exact (List.prefix_append _ _).trans ih
    · exact ih

theorem toInt_neg_lt_zero {e : NetErrno} : (-e.1).toInt < 0 ↔ 0 < e.1.toInt := by
  have he := e.2
  have hlt := e.1.isLt
  rw [BitVec.toInt_eq_toNat_cond] at he ⊢
  rw [BitVec.toInt_eq_toNat_cond, BitVec.toNat_neg]
  split at he <;> split <;> omega

/-- Nothing is sent, and the result is negative, exactly where the first `write` fails with an error number. -/
theorem nothing_sent_iff {message : Mem} {e : NetErrno}
    (hrun : Run (RomCall.step o) (fun _ _ => True) ⟨⟨some ⟨.sendNameSize .int32, b, message⟩, [], [], e⟩, []⟩
      actions last) (hends : last.program.sending = none) :
    (last.world = [] ∧ ∃ x, last.program.results = [x] ∧ x.toInt < 0) ↔
      ∃ e, actions = [.put (.error e)] ∧ 0 < e.1.toInt := by
  cases hrun with
  | nil => cases hends
  | @cons _ middle _ a actions _ accepted tail =>
    rcases step_cases accepted with ⟨_, _, _, _, hcall, _⟩ | ⟨piece, k, hcall, rfl, ⟨hpos, hle⟩, rfl⟩ |
      ⟨piece, e', hcall, rfl, rfl⟩
    · cases hcall
    · constructor
      · rintro ⟨hnil, -⟩
        have hgrows : piece.take k <+: last.world := run_prefix tail
        rw [hnil, List.prefix_nil] at hgrows
        have hlen := List.length_take_of_le hle
        rw [hgrows] at hlen
        exact absurd hlen (Nat.ne_of_lt hpos)
      · rintro ⟨e', heq, -⟩
        cases heq
    · obtain ⟨x, hnext, hx⟩ := (Transfer.int32 (w := w)).next_error e'
      have hprogram : onWrite ⟨some ⟨.sendNameSize .int32, b, message⟩, [], [], e⟩ (.error e') =
          (⟨none, [], [-e'.1], e'⟩ : RemoteDom0Instance w) := by
        simp only [onWrite, hnext, setErrno, check_stop hx, ret_last]
      rw [hprogram] at tail
      obtain ⟨rfl, rfl⟩ := tail.of_stuck (step_of_ended rfl)
      constructor
      · rintro ⟨-, x, hresults, hneg⟩
        cases hresults
        exact ⟨e', rfl, toInt_neg_lt_zero.mp hneg⟩
      · rintro ⟨e'', heq, hpos⟩
        cases heq
        exact ⟨rfl, _, rfl, toInt_neg_lt_zero.mpr hpos⟩

end

/-- What a call delivers, exactly: the file behind its length, where the file is loaded, the name can be sent and the
    connection is not cut; or nothing, where the very first `write` fails. -/
theorem delivers_iff {w : Word} (o : ByteOrder) (f : LocalFile w) (null : Mem) (remoteFilename : CString)
    (errno : NetErrno)
    (isDisabled : Bool) (hlong : remoteFilename.strlen + 1 < 2 ^ (8 * w.bytes)) {actions : List RomAction}
    {last : RomCall w}
    (hrun : Run (RomCall.step o) (fun _ _ => True) ⟨sendElfBinaryFromRom isDisabled f null remoteFilename errno, []⟩
      actions last) (hends : last.program.sending = none) :
    last.Delivers o f remoteFilename ↔ isDisabled = false ∧
      (f.Loads ∧ NameSendable w remoteFilename ∧ Run.Along (RomCall.step o) (fun h a _ => ¬h.CutShort a)
          ⟨sendElfBinaryFromRom isDisabled f null remoteFilename errno, []⟩ actions ∨
        ∃ e, actions = [.put (.error e)] ∧ 0 < e.1.toInt) := by
  cases isDisabled with
  | true =>
    obtain ⟨-, rfl⟩ := hrun.of_stuck (step_of_ended rfl)
    refine ⟨?_, fun h => (by cases h.1)⟩
    rintro (⟨content, size, -, -, hwire⟩ | ⟨-, x, hresults, hneg⟩)
    · have hlength := congrArg List.length hwire
      simp at hlength
      omega
    · cases hresults
      exact absurd hneg (Int.lt_irrefl 0)
  | false =>
    have hstart : Progress o (f.binary null remoteFilename)
        ⟨sendElfBinaryFromRom false f null remoteFilename errno, []⟩ :=
      .nameSize (.int32 ByteOrder.length_bytes) rfl
    have hdata : (((RemoteDom0Instance.size (f.binary null remoteFilename) : SizeT w).setWidth 32).signExtend
        (8 * w.bytes)).toNat = (f.binary null remoteFilename).data.length := by
      rw [size_binary, length_binary]
    have hnothing := nothing_sent_iff hrun hends
    have hrunning := hstart.run hlong hdata hrun hends
    rw [Delivers, hnothing, eq_self, true_and]
    refine or_congr_left ⟨?_, ?_⟩
    · rintro ⟨content, size, hcontent, hsize, hwire⟩
      -- What is on the wire is the file only if nothing was cut off and the name was sent.
      rcases hrunning with ⟨-, left, hne, hleft⟩ | ⟨halong, -, ⟨hname, hfull⟩ | ⟨-, hshort⟩⟩
      · exact absurd (loads_of_wire hleft hcontent hsize hwire).1 hne
      · have hleft := (List.append_nil last.world).trans hfull
        exact ⟨(loads_of_wire hleft hcontent hsize hwire).2, hname, halong⟩
      · have hlength := congrArg List.length (hshort.symm.trans hwire)
        simp [nameSizeBytes, nameBytes, LocalFile.binary] at hlength
    · rintro ⟨hloads, hname, halong⟩
      rcases hrunning with ⟨hcut, -⟩ | ⟨-, -, ⟨-, hfull⟩ | ⟨hno, -⟩⟩
      · exact absurd halong hcut
      · rw [hfull]
        exact wire_of_loads hloads
      · exact absurd hname hno

/-! ## Two files -/

theorem along_of_unfailing {w : Word} {o : ByteOrder} {h : RomCall w} {actions : List RomAction}
    (hall : ∀ a ∈ actions, ∀ e, a ≠ .got (.error e) ∧ a ≠ .put (.error e)) :
    Run.Along (RomCall.step o) (fun h a _ => ¬h.CutShort a) h actions := by
  induction actions generalizing h with
  | nil => trivial
  | cons a actions ih =>
    exact fun s' _ => ⟨not_cutShort (hall a List.mem_cons_self),
      ih fun a' hmem => hall a' (List.mem_cons_of_mem a hmem)⟩

/-- A file with the one byte 7. -/
def fileOfSeven : LocalFile .w32 := ⟨some [7], true, fun _ => some fun _ => 0, 1⟩

def noFile : LocalFile .w32 := ⟨none, true, fun _ => some fun _ => 0, 0⟩

def nameG : CString := ⟨[103], by decide⟩

/-- The name goes out. -/
def nameSent : List RomAction := [.put (.ok 4), .put (.ok 2)]

/-- The name and the size go out, the other side answers, and then `last` happens. -/
def headerThen (last : RomAction) : List RomAction := nameSent ++ .put (.ok 4) :: [.got (.ok [0, 0, 0, 0]), last]

theorem delivers_iff_seven : ∃ last, Run (RomCall.step .little) (fun _ _ => True)
    ⟨sendElfBinaryFromRom false fileOfSeven (fun _ => 0) nameG ⟨14, by decide⟩, []⟩ (headerThen (.put (.ok 1))) last ∧
      last.world = [2, 0, 0, 0, 103, 0, 1, 0, 0, 0, 7] ∧ last.Delivers .little fileOfSeven nameG := by
  obtain ⟨last, hrun, hends, hwire⟩ : ∃ last, Run (RomCall.step .little) (fun _ _ => True)
      ⟨sendElfBinaryFromRom false fileOfSeven (fun _ => 0) nameG ⟨14, by decide⟩, []⟩ (headerThen (.put (.ok 1))) last ∧
        last.program.sending = none ∧ last.world = [2, 0, 0, 0, 103, 0, 1, 0, 0, 0, 7] :=
    ⟨_, .of_foldlM rfl, rfl, rfl⟩
  have hloads : fileOfSeven.Loads := ⟨[7], fun _ => 0, rfl, by decide, rfl, rfl⟩
  refine ⟨last, hrun, hwire, (delivers_iff .little fileOfSeven _ nameG _ false (by decide) hrun hends).mpr
    ⟨rfl, Or.inl ⟨hloads, Nat.lt_of_lt_of_le (by decide) (Nat.le_refl (2 ^ 31)),
      along_of_unfailing fun a hmem e => ?_⟩⟩⟩
  simp only [headerThen, nameSent, List.cons_append, List.nil_append, List.mem_cons, List.not_mem_nil, or_false] at hmem
  rcases hmem with rfl | rfl | rfl | rfl | rfl <;> exact ⟨nofun, nofun⟩

/-- What is passed on of a file that is not there. -/
def missing : Binary := noFile.binary (fun _ => 0) nameG

def sendingMissing (pc : Pc .w32) (wire : List UInt8) : RomCall .w32 :=
  ⟨⟨some ⟨pc, missing, fun _ => 0⟩, [], [], ⟨14, by decide⟩⟩, wire⟩

theorem sizeBytes_missing : sizeBytes .little .w32 missing = [255, 255, 255, 255] := by
  rw [sizeBytes, missing, size_binary]
  rfl

theorem missing_size_sent : RomCall.step .little (sendingMissing (.sendSize .int32) [2, 0, 0, 0, 103, 0])
    (.put (.ok 4)) =
    some (sendingMissing (.waitGo .int32) [2, 0, 0, 0, 103, 0, 255, 255, 255, 255]) := by
  have hwindow : (Transfer.int32 : Transfer .w32).window (sizeBytes .little .w32 missing) = [255, 255, 255, 255] := by
    rw [sizeBytes_missing]
    rfl
  exact (Hosted.step_put (congrArg Syscall.write hwindow) (by decide)).trans rfl

/-- Of a file that is not there, the size -1 is sent. -/
theorem not_delivers_missing : ∃ last, Run (RomCall.step .little) (fun _ _ => True)
    ⟨sendElfBinaryFromRom false noFile (fun _ => 0) nameG ⟨14, by decide⟩, []⟩
    (headerThen (.put (.error ⟨14, by decide⟩))) last ∧
      last.program.sending = none ∧ last.world = [2, 0, 0, 0, 103, 0, 255, 255, 255, 255] ∧
        ¬last.Delivers .little noFile nameG := by
  have hname : nameSent.foldlM (RomCall.step .little)
      ⟨sendElfBinaryFromRom false noFile (fun _ => 0) nameG ⟨14, by decide⟩, []⟩ =
        some (sendingMissing (.sendSize .int32) [2, 0, 0, 0, 103, 0]) := rfl
  have hend : [.got (.ok [0, 0, 0, 0]), .put (.error ⟨14, by decide⟩)].foldlM (RomCall.step .little)
      (sendingMissing (.waitGo .int32) [2, 0, 0, 0, 103, 0, 255, 255, 255, 255]) =
        some ⟨⟨none, [], [-14], ⟨14, by decide⟩⟩, [2, 0, 0, 0, 103, 0, 255, 255, 255, 255]⟩ := rfl
  have hall : (headerThen (.put (.error ⟨14, by decide⟩))).foldlM (RomCall.step .little)
      ⟨sendElfBinaryFromRom false noFile (fun _ => 0) nameG ⟨14, by decide⟩, []⟩ =
        some ⟨⟨none, [], [-14], ⟨14, by decide⟩⟩, [2, 0, 0, 0, 103, 0, 255, 255, 255, 255]⟩ := by
    rw [headerThen, List.foldlM_append, hname, Option.bind_eq_bind, Option.bind_some, List.foldlM_cons,
      missing_size_sent, Option.bind_eq_bind, Option.bind_some, hend]
  refine ⟨_, .of_foldlM hall, rfl, rfl, ?_⟩
  rintro (⟨content, size, hcontent, -⟩ | ⟨hnil, -⟩)
  · cases hcontent
  · cases hnil

end RomCall

end Dom0
