import Dom0.Lib.Files
import Dom0.Theorems.BinaryTransfer

/-! The files that binaries leave. The handler opens a file without emptying it, so what an older content has beyond the
new one stays: the files hold what was sent where no binary is shorter than the content that it takes the place of. -/

namespace Dom0

/-! ## The file system -/

/-- The contents of files, by name. -/
abbrev FileContents := List UInt8 → Option (List UInt8)

/-- The file system of the receiving machine, and what the files held each time a file was opened. A name stands for the
    file that it opens: names of one file, such as `f` and `./f`, count as one. -/
structure Disk where
  files : Files (List UInt8) CInt UInt8
  befores : List FileContents

/-- A call that succeeds: `open` gives a descriptor that is free, and `write` takes at least one byte. -/
def Disk.serve (d : Disk) (op : ServerOp) (a : Int) : Option Disk :=
  match op with
  | .open path flags =>
    if 0 ≤ a ∧ a < 2 ^ 31 ∧ (d.files.opened (BitVec.ofInt _ a)).isNone then
      (d.files.open (path.cstr 0 bufLen) (flags &&& oCreat ≠ 0) (flags &&& oTrunc ≠ 0) (BitVec.ofInt _ a)).map
        fun files => ⟨files, d.befores ++ [d.files.content]⟩
    else none
  | .write fd bs =>
    if 1 ≤ a ∧ a ≤ bs.length then (d.files.write fd (bs.take a.toNat)).map fun files => { d with files } else none
  | .close fd => some { d with files := d.files.close fd }
  | .executeString _ | .malloc _ => some d

def Disk.Serves (d : Disk) (op : ServerOp) (a : Int) (d' : Disk) : Prop := d.serve op a = some d'

/-! ## What is asked -/

/-- What the files held before the first transfer, and after each of them. -/
def Disk.stages (d : Disk) : List FileContents := d.befores ++ [d.files.content]

/-- After each transfer the file of that name holds what was sent, and every other file what it held before. -/
def Exact (bs : List Binary) (stages : List FileContents) : Prop :=
  ∀ i b, bs[i]? = some b → ∃ before after : FileContents, stages[i]? = some before ∧ stages[i + 1]? = some after ∧
    after = Function.update before b.remoteFilename.bytes (some b.data)

/-- No binary is shorter than the content that its file has. -/
def NeverShrinks (c : FileContents) : List Binary → Prop
  | [] => True
  | b :: bs => (∀ old, c b.remoteFilename.bytes = some old → old.length ≤ b.data.length) ∧
    NeverShrinks (Function.update c b.remoteFilename.bytes (some b.data)) bs

section
variable {w w' : Word}

/-- The two ends of a connection, with the file system behind the handler. -/
abbrev FileConnection (w w' : Word) := Duplex (RemoteDom0Instance w) (BinaryHandler w') Unit Disk UInt8

/-- The calls of the sender have returned, and the handler has read all of it and waits for more. -/
structure FileConnection.Completed (o : ByteOrder) (c : FileConnection w w') : Prop where
  sent : c.left.sending = none
  arrived : c.toRight = []
  waits : (BinaryHandler.program o).Waits c.right

/-- Connections one after the other, each with the binaries that are sent over it, each up to its end. -/
inductive Connections (o : ByteOrder) (w w' : Word) : Disk → List (List Binary) → Disk → Prop
  | nil (d : Disk) : Connections o w w' d [] d
  | cons {d d' : Disk} {bs : List Binary} {bss : List (List Binary)} {errno : NetErrno} {fd file : CInt}
      {buffer rwBuffer : Mem} {size : SizeT w'} {n : Nat} {c : FileConnection w w'}
      (run : Duplex.Run (RemoteDom0Instance.program o) noCalls (BinaryHandler.program o) Disk.Serves
        ⟨RemoteDom0Instance.start false bs errno, (), BinaryHandler.start o fd buffer file size rwBuffer, d, [], []⟩
        n c)
      (completed : c.Completed o) (tail : Connections o w w' c.rightWorld bss d') : Connections o w w' d (bs :: bss) d'

end

/-! ## What the calls of the handler do -/

/-- A file that is opened and written. -/
def Disk.receive (d : Disk) (r : Received) : Option Disk :=
  (d.files.open r.path true false r.file).bind fun opened =>
    (opened.write r.file r.bytes).map fun files => ⟨files, d.befores ++ [d.files.content]⟩

/-- The file system is what the calls have made of it. -/
def Disk.Follows (d₀ : Disk) (log : Log) (d : Disk) : Prop := log.received.foldlM Disk.receive d₀ = some d

namespace Disk
variable {d₀ d d' : Disk} {log : Log} {path : Mem} {a : Int} {fd : CInt} {bs bytes name : List UInt8}
    {files : List Received}

theorem Follows.open (h : Follows d₀ log d) (served : d.Serves (.open path (oWronly ||| oCreat)) a d') :
    Follows d₀ (log ++ [(.open path (oWronly ||| oCreat), a)]) d' := by
  simp only [Serves, serve, Option.ite_none_right_eq_some] at served
  obtain ⟨-, served⟩ := served
  obtain ⟨opened, hopen, rfl⟩ := Option.map_eq_some_iff.mp served
  have hopen' : d.files.open (path.cstr 0 bufLen) true false (BitVec.ofInt 32 a) = some opened := hopen
  rw [Follows, Log.received_open, List.foldlM_append, h]
  simp [receive, hopen', Files.write_nil_open hopen']

theorem Follows.write (h : Follows d₀ log d) (hlog : log.received = files ++ [⟨name, fd, bytes⟩])
    (served : d.Serves (.write fd bs) a d') : Follows d₀ (log ++ [(.write fd bs, a)]) d' := by
  simp only [Serves, serve, Option.ite_none_right_eq_some] at served
  obtain ⟨-, served⟩ := served
  obtain ⟨written, hwrite, rfl⟩ := Option.map_eq_some_iff.mp served
  rw [Follows, hlog, List.foldlM_append] at h
  obtain ⟨before, hbefore, hlast⟩ := Option.bind_eq_some_iff.mp h
  have hlast' : before.receive ⟨name, fd, bytes⟩ = some d := by simpa using hlast
  obtain ⟨opened, hopen, hreceive⟩ := Option.bind_eq_some_iff.mp hlast'
  obtain ⟨files', hfiles, rfl⟩ := Option.map_eq_some_iff.mp hreceive
  have hboth : opened.write fd (bytes ++ bs.take a.toNat) = some written := (Files.write_write hfiles).symm.trans hwrite
  have hlater : before.receive ⟨name, fd, bytes ++ bs.take a.toNat⟩ =
      some ⟨written, before.befores ++ [before.files.content]⟩ := by
    simp [receive, hopen, hboth]
  rw [Follows, Log.received_write hlog, List.foldlM_append, hbefore]
  simpa using hlater

theorem Follows.malloc {n : Nat} (h : Follows d₀ log d) (served : d.Serves (.malloc n) a d') :
    Follows d₀ (log ++ [(.malloc n, a)]) d' := by
  obtain rfl : d = d' := Option.some.inj served
  rwa [Follows, Log.received_malloc]

/-! ## The files after each transfer -/

/-- What a name and a content make of the files. -/
def put (c : FileContents) (name data : List UInt8) : FileContents :=
  Function.update c name (some (data ++ ((c name).getD []).drop data.length))

/-- The files before the first of these, and after each of them. -/
def puts (c : FileContents) : List (List UInt8 × List UInt8) → List FileContents
  | [] => [c]
  | r :: rest => c :: puts (put c r.1 r.2) rest

theorem receive_cases {r : Received} (h : d.receive r = some d') :
    d'.files.content = put d.files.content r.path r.bytes ∧ d'.befores = d.befores ++ [d.files.content] := by
  obtain ⟨opened, hopen, hreceive⟩ := Option.bind_eq_some_iff.mp h
  obtain ⟨written, hwrite, rfl⟩ := Option.map_eq_some_iff.mp hreceive
  have hcontent := Files.content_write_open hopen hwrite
  exact ⟨by simpa [put] using hcontent, rfl⟩

theorem stages_of_receives {rs : List Received} (h : rs.foldlM receive d₀ = some d) :
    d.stages = d₀.befores ++ puts d₀.files.content (rs.map fun r => (r.path, r.bytes)) := by
  induction rs generalizing d₀ with
  | nil =>
    obtain rfl : d₀ = d := by simpa using h
    rfl
  | cons r rs ih =>
    rw [List.foldlM_cons, Option.bind_eq_bind, Option.bind_eq_some_iff] at h
    obtain ⟨d₁, hreceive, htail⟩ := h
    obtain ⟨hcontent, hbefores⟩ := receive_cases hreceive
    rw [ih htail, hbefores, hcontent, List.append_assoc]
    rfl

theorem puts_append {c c' : FileContents} {before last : List FileContents} {xs ys : List (List UInt8 × List UInt8)}
    (h : last ++ [c'] = before ++ puts c xs) : before ++ puts c (xs ++ ys) = last ++ puts c' ys := by
  induction xs generalizing before c with
  | nil =>
    obtain ⟨rfl, hc⟩ := List.append_inj' h rfl
    cases hc
    rfl
  | cons x xs ih =>
    have hcons : last ++ [c'] = (before ++ [c]) ++ puts (put c x.1 x.2) xs := by rw [h, List.append_assoc]; rfl
    have htail := ih hcons
    rw [← htail, List.append_assoc]
    rfl

end Disk

/-! ## One connection -/

/-- The script of the handler, with the file system that its calls have made. -/
def DiskScript {w : Word} (o : ByteOrder) (w' : Word) (bs : List Binary) (d₀ : Disk) (s : BinaryHandler w) (d : Disk)
    (r wr : List UInt8) (m : Nat) : Prop :=
  ∃ log, HandlerScript o w' bs s log r wr m ∧ Disk.Follows d₀ log d

section
variable {w w' : Word} {o : ByteOrder} {bs : List Binary} {d₀ d d' : Disk} {s : BinaryHandler w} {log : Log}
    {op : ServerOp}
  {r wr : List UInt8} {m : Nat} {a : Int}

/-- The other calls that the handler makes: it opens a file, asks for a block, or writes to the file that it opened
    last. -/
theorem HandlerScript.op_cases (h : HandlerScript o w' bs s log r wr m)
    (hcall : (BinaryHandler.program o).call s = .op op) :
    (∃ path, op = .open path (oWronly ||| oCreat)) ∨ (∃ n, op = .malloc n) ∨
      ∃ fd data files name bytes, op = .write fd data ∧ log.received = files ++ [⟨name, fd, bytes⟩] := by
  cases h with
  | «open» hpc =>
    cases (BinaryHandler.call_of_pc hpc).symm.trans hcall
    exact Or.inl ⟨_, rfl⟩
  | malloc hpc =>
    cases (BinaryHandler.call_of_pc hpc).symm.trans hcall
    exact Or.inr (Or.inl ⟨_, rfl⟩)
  | write hpc _ _ _ _ _ _ _ _ hlog =>
    cases (BinaryHandler.call_of_pc hpc).symm.trans hcall
    exact Or.inr (Or.inr ⟨_, _, _, _, _, rfl, hlog⟩)
  | idle hpc | nameSize hpc | name hpc | size hpc | go hpc | receive hpc | faulted hpc =>
    cases (BinaryHandler.call_of_pc hpc).symm.trans hcall

theorem Disk.Serves.notes (h : d.Serves op a d') : Log.Notes log op a (log ++ [(op, a)]) := by
  refine ⟨rfl, ?_⟩
  rintro fd bs rfl
  simp only [Disk.Serves, Disk.serve, Option.ite_none_right_eq_some] at h
  exact h.1

theorem disk_script (hbs : ∀ b ∈ bs, b.Fits) :
    (BinaryHandler.program o : Program (BinaryHandler w) Target UInt8 ServerOp NetErrno).Script Disk.Serves
      (DiskScript o w' bs d₀) where
  read hR hcall hne hle := by
    obtain ⟨log, hscript, hfollows⟩ := hR
    exact ⟨log, (handler_script hbs).read hscript hcall hne hle, hfollows⟩
  write hR hcall hpos hle := by
    obtain ⟨log, hscript, hfollows⟩ := hR
    obtain ⟨w', hw', hscript'⟩ := (handler_script hbs).write hscript hcall hpos hle
    exact ⟨w', hw', log, hscript', hfollows⟩
  op hR hcall served := by
    obtain ⟨log, hscript, hfollows⟩ := hR
    obtain ⟨m', hlt, hscript'⟩ := (handler_script hbs).op hscript hcall served.notes
    refine ⟨m', hlt, _, hscript', ?_⟩
    rcases hscript.op_cases hcall with ⟨path, rfl⟩ | ⟨n, rfl⟩ | ⟨fd, data, files, name, bytes, rfl, hlog⟩
    · exact hfollows.open served
    · exact hfollows.malloc served
    · exact hfollows.write hlog served

theorem SenderScript.nothing_left {s : RemoteDom0Instance w} (h : SenderScript o bs s () r wr m)
    (hsent : s.sending = none) :
    wr = [] := by
  cases h with
  | finished => rfl
  | nameSize | name | size | waitGo | data => cases hsent

/-- What a connection leaves once it has come to its end. -/
theorem stages_of_completed {errno : NetErrno} {fd file : CInt} {buffer rwBuffer : Mem} {size : SizeT w'} {n : Nat}
    {c : FileConnection w w'} (hbs : ∀ b ∈ bs, b.Fits)
    (hrun : Duplex.Run (RemoteDom0Instance.program o) noCalls (BinaryHandler.program o) Disk.Serves
      ⟨RemoteDom0Instance.start false bs errno, (), BinaryHandler.start o fd buffer file size rwBuffer, d₀, [], []⟩ n c)
    (hdone : c.Completed o) :
    c.rightWorld.stages = d₀.befores ++ Disk.puts d₀.files.content
    (bs.map fun b => (b.remoteFilename.bytes, b.data)) := by
  have hstart : Duplex.Meets (SenderScript (w := w) o bs) (DiskScript (w := w') o w bs d₀) (steps o w bs)
      ⟨RemoteDom0Instance.start false bs errno, (), BinaryHandler.start o fd buffer file size rwBuffer, d₀, [],
          []⟩ := by
    refine ⟨wire o w bs, 0, answers o bs, fileCalls bs, .next ⟨[], rfl, rfl⟩,
      ⟨[], .top rfl (List.nil_append bs).symm rfl ⟨rfl, List.not_mem_nil⟩, rfl⟩, ?_⟩
    simp only [List.nil_append, steps]
    omega
  obtain ⟨left, -, wl, ml, wr, mr, hsender, ⟨log, hhandler, hfollows⟩, -⟩ :=
    hrun.meets (sender_script hbs) (disk_script hbs) hstart
  -- Both ends wait and nothing is on its way, so the handler has read all that was sent.
  have hempty : c.toRight ++ wl = [] := by rw [hsender.nothing_left hdone.sent, List.append_nil, hdone.arrived]
  rw [hempty] at hhandler
  have hdecoded : Decoded log.received bs := by
    have hnone : ¬(BinaryHandler.program o).CanMove (Log.Serves w') c.right log [] := hdone.waits.not_canMove
    have hpc : c.right.pc ≠ .faulted := fun hpc => not_waits_of_faulted hpc hdone.waits
    -- A handler that waits with nothing to come stands in front of a next transfer.
    rcases hhandler.canMove_or_waits hpc with hmove | ⟨-, ⟨-, -, hall, -⟩ | ⟨_, _, _, _, -, hne, hread, -⟩ |
      ⟨_, _, _, _, -, hne, hread, -⟩⟩
    · exact absurd hmove hnone
    · exact hall
    · exact absurd (List.append_eq_nil_iff.mp hread.symm).1 hne
    · exact absurd (List.append_eq_nil_iff.mp hread.symm).1 hne
  rw [← hdecoded]
  exact Disk.stages_of_receives hfollows

/-! ## All connections -/

/-- What connections leave, one after the other. -/
theorem Connections.stages {bss : List (List Binary)} (hbss : ∀ bs ∈ bss, ∀ b ∈ bs, b.Fits)
    (hrun : Connections o w w' d₀ bss d) :
    d.stages = d₀.befores ++ Disk.puts d₀.files.content
    (bss.flatten.map fun b => (b.remoteFilename.bytes, b.data)) := by
  induction hrun with
  | nil d => rfl
  | @cons d d' bs bss _ _ _ _ _ _ _ c run completed tail ih =>
    have hfirst := stages_of_completed (hbss bs List.mem_cons_self) run completed
    rw [List.flatten_cons, List.map_append, Disk.puts_append hfirst]
    exact ih fun bs' hmem => hbss bs' (List.mem_cons_of_mem bs hmem)

end

section
variable {c c' : FileContents} {name data : List UInt8} {b : Binary} {bs : List Binary} {rest : List FileContents}

theorem put_eq_iff : Disk.put c name data = Function.update c name (some data) ↔
    ∀ old, c name = some old → old.length ≤ data.length := by
  constructor
  · intro h old hold
    have hname := congrFun h name
    rw [Disk.put, Function.update_self, Function.update_self, hold, Option.getD_some] at hname
    exact List.drop_eq_nil_iff.mp (List.append_right_eq_self.mp (Option.some.inj hname))
  · intro h
    have hdrop : ((c name).getD []).drop data.length = [] := by
      cases hold : c name with
      | none => exact List.drop_nil
      | some old => exact List.drop_eq_nil_of_le (h old hold)
    rw [Disk.put, hdrop, List.append_nil]

theorem puts_eq_cons (l : List (List UInt8 × List UInt8)) : ∃ rest, Disk.puts c l = c :: rest := by
  cases l with
  | nil => exact ⟨[], rfl⟩
  | cons r l => exact ⟨_, rfl⟩

theorem exact_cons : Exact (b :: bs) (c :: c' :: rest) ↔
    c' = Function.update c b.remoteFilename.bytes (some b.data) ∧ Exact bs (c' :: rest) := by
  constructor
  · intro h
    refine ⟨?_, fun i b' hb' => h (i + 1) b' hb'⟩
    obtain ⟨before, after, hbefore, hafter, heq⟩ := h 0 b rfl
    cases hbefore
    cases hafter
    exact heq
  · rintro ⟨heq, htail⟩ i b' hb'
    cases i with
    | zero =>
      cases hb'
      exact ⟨c, c', rfl, rfl, heq⟩
    | succ i => exact htail i b' hb'

/-- The files are exact from the first transfer to the last if and only if no content shrinks. -/
theorem exact_iff (c : FileContents) (bs : List Binary) :
    Exact bs (Disk.puts c (bs.map fun b => (b.remoteFilename.bytes, b.data))) ↔ NeverShrinks c bs := by
  induction bs generalizing c with
  | nil => exact ⟨fun _ => trivial, fun _ i b hb => by cases hb⟩
  | cons b bs ih =>
    obtain ⟨rest, hrest⟩ := puts_eq_cons (c := Disk.put c b.remoteFilename.bytes b.data)
      (bs.map fun b => (b.remoteFilename.bytes, b.data))
    rw [List.map_cons, Disk.puts, hrest, exact_cons, put_eq_iff, NeverShrinks, ← hrest]
    refine and_congr_right fun hlonger => ?_
    rw [put_eq_iff.mpr hlonger]
    exact ih _

end

/-- After every transfer the files are exactly what was sent if and only if no binary is shorter than the content that
    its file has. -/
theorem files_exact_iff_neverShrinks {w w' : Word} (o : ByteOrder) {bss : List (List Binary)} {d : Disk}
    (files : Files (List UInt8) CInt UInt8) (hbss : ∀ bs ∈ bss, ∀ b ∈ bs, b.Fits)
    (hrun : Connections o w w' ⟨files, []⟩ bss d) : Exact bss.flatten d.stages ↔
    NeverShrinks files.content bss.flatten := by
  rw [hrun.stages hbss]
  exact exact_iff files.content bss.flatten

/-! ## Runs on an empty disk -/

instance {w w' : Word} (o : ByteOrder) (c : FileConnection w w') : Decidable (c.Completed o) :=
  decidable_of_iff (c.left.sending.isNone ∧ c.toRight = [] ∧ (BinaryHandler.program o).Waits c.right)
    ⟨fun ⟨hsent, harrived, hwaits⟩ => ⟨Option.isNone_iff_eq_none.mp hsent, harrived, hwaits⟩,
      fun h => ⟨Option.isNone_iff_eq_none.mpr h.sent, h.arrived, h.waits⟩⟩

def noFiles : Files (List UInt8) CInt UInt8 := ⟨fun _ => none, fun _ => none⟩

/-- The content `data` for the file `f`. -/
def fileF (data : List UInt8) : Binary := ⟨⟨[102], by decide⟩, data⟩

/-- The sender sends the size of the name, the name and the size of the content. The handler reads the first two, opens
    the file as `fd`, reads the size, answers and gets a block; then the content is sent, read and written. -/
def fileTurns (n fd : Int) : List (Int ⊕ Int) :=
  [.inl 4, .inl 2, .inl 4, .inr 4, .inr 2, .inr fd, .inr 4, .inr 4, .inr 4096, .inl 4, .inl n, .inr n, .inr n]

def connectionF (data : List UInt8) (d : Disk) : FileConnection .w32 .w32 :=
  ⟨RemoteDom0Instance.start false [fileF data] ⟨11, by decide⟩, (), .start .little 3 (fun _ => 0) 0 0 (fun _ => 0), d,
    [], []⟩

def playF (data : List UInt8) (fd : Int) (d : Disk) : Option (FileConnection .w32 .w32) :=
  (fileTurns data.length fd).foldlM (Duplex.turn (RemoteDom0Instance.program .little) (fun _ _ _ => none)
    (BinaryHandler.program .little) Disk.serve) (connectionF data d)

theorem run_of_playF {data : List UInt8} {fd : Int} {d : Disk} {c : FileConnection .w32 .w32}
    (h : playF data fd d = some c) :
    Duplex.Run (RemoteDom0Instance.program .little) noCalls (BinaryHandler.program .little) Disk.Serves
      (connectionF data d) 13 c :=
  Duplex.Run.turns (fun _ _ _ _ hnone => by cases hnone) (fun _ _ _ _ hserved => hserved) .refl h

/-- `f` is made with the one byte 3, and over the next connection it is sent again with the bytes 1 and 2. -/
theorem files_exact_iff_neverShrinks_grown :
    ∃ d, Connections .little .w32 .w32 ⟨noFiles, []⟩ [[fileF [3]], [fileF [1, 2]]] d ∧
      d.files.content [102] = some [1, 2] ∧ Exact [fileF [3], fileF [1, 2]] d.stages := by
  have hplay : (playF [3] 4 ⟨noFiles, []⟩).any fun c => c.Completed .little ∧
      (playF [1, 2] 5 c.rightWorld).any fun c' => c'.Completed .little ∧
          c'.rightWorld.files.content [102] = some [1, 2] := by
    decide +kernel
  obtain ⟨c, hc, hthen⟩ := (Option.any_eq_true _ _).mp hplay
  obtain ⟨hdone, hthen⟩ := of_decide_eq_true hthen
  obtain ⟨c', hc', hlast⟩ := (Option.any_eq_true _ _).mp hthen
  obtain ⟨hdone', hcontent⟩ := of_decide_eq_true hlast
  have hrun : Connections .little .w32 .w32 ⟨noFiles, []⟩ [[fileF [3]], [fileF [1, 2]]] c'.rightWorld :=
    .cons (run_of_playF hc) hdone (.cons (run_of_playF hc') hdone' (.nil _))
  have hfits : ∀ bs ∈ [[fileF [3]], [fileF [1, 2]]], ∀ b ∈ bs, b.Fits := by
    intro bs hbs b hb
    rcases List.mem_cons.mp hbs with rfl | hbs
    · obtain rfl := List.mem_singleton.mp hb
      exact ⟨by decide, by decide, by decide⟩
    · obtain rfl := List.mem_singleton.mp hbs
      obtain rfl := List.mem_singleton.mp hb
      exact ⟨by decide, by decide, by decide⟩
  have hgrows : NeverShrinks noFiles.content [fileF [3], fileF [1, 2]] := by
    refine ⟨fun _ hold => (by cases hold), fun old hold => ?_, trivial⟩
    rw [show (fileF [1, 2]).remoteFilename.bytes = (fileF [3]).remoteFilename.bytes from rfl,
      Function.update_self] at hold
    obtain rfl := Option.some.inj hold
    decide
  exact ⟨_, hrun, hcontent, (files_exact_iff_neverShrinks .little noFiles hfits hrun).mpr hgrows⟩

/-- `f` is made with the bytes 1 and 2, and over the next connection it is sent again with the one byte 3: it then holds
    3 and 2. -/
theorem files_not_exact : ∃ d, Connections .little .w32 .w32 ⟨noFiles, []⟩ [[fileF [1, 2]], [fileF [3]]] d ∧
    d.files.content [102] = some [3, 2] ∧ ¬Exact [fileF [1, 2], fileF [3]] d.stages := by
  have hplay : (playF [1, 2] 4 ⟨noFiles, []⟩).any fun c => c.Completed .little ∧
      (playF [3] 5 c.rightWorld).any fun c' => c'.Completed .little ∧ c'.rightWorld.files.content [102] = some [3, 2] ∧
        c'.rightWorld.befores.length = 2 := by
    decide +kernel
  obtain ⟨c, hc, hthen⟩ := (Option.any_eq_true _ _).mp hplay
  obtain ⟨hdone, hthen⟩ := of_decide_eq_true hthen
  obtain ⟨c', hc', hlast⟩ := (Option.any_eq_true _ _).mp hthen
  obtain ⟨hdone', hcontent, hlength⟩ := of_decide_eq_true hlast
  refine ⟨_, .cons (run_of_playF hc) hdone (.cons (run_of_playF hc') hdone' (.nil _)), hcontent, fun hexact => ?_⟩
  -- the second transfer is the last one, so what it leaves is the file system at the end
  obtain ⟨before, after, -, hafter, rfl⟩ := hexact 1 (fileF [3]) rfl
  rw [Disk.stages, List.getElem?_append_right (Nat.le_of_eq hlength), hlength] at hafter
  have heq : c'.rightWorld.files.content = Function.update before [102] (some [3]) := Option.some.inj hafter
  rw [heq, Function.update_self] at hcontent
  cases hcontent

end Dom0
