import Dom0.Lib.Hub
import Dom0.Theorems.ReceivedFiles
import Mathlib.Algebra.Order.BigOperators.Group.Finset

/-! Binaries from several machines at once. All handlers of `serverCombined` share the file system and its descriptors;
where no two machines send a file of the same name, each finds its files as if the others were not there. No handler
closes a file, so all of them need as many free descriptors as binaries are sent. -/

namespace Dom0

/-- The connections, each with its sender, its handler and what is on its way, and the file system. -/
abbrev BinaryConnections (ι : Type) (w w' : Word) :=
  Hub ι (RemoteDom0Instance w) (BinaryHandler w') Unit Disk UInt8 ServerOp

/-- What files leave that are written one after the other. -/
def leave (c : FileContents) (files : List (List UInt8 × List UInt8)) : FileContents :=
  files.foldl (fun c r => Disk.put c r.1 r.2) c

/-- At least `n` descriptors are free. -/
def Disk.HasFree (d : Disk) (n : Nat) : Prop :=
  ∃ free : Finset CInt, n ≤ free.card ∧ ∀ fd ∈ free, 0 ≤ fd.toInt ∧ d.files.opened fd = none

def names (bs : List Binary) : List (List UInt8) := bs.map fun b => b.remoteFilename.bytes

def Received.entry (r : Received) : List UInt8 × List UInt8 := (r.path, r.bytes)

/-! ## The calls of one handler -/

/-- Calls as a handler makes them: it opens files of these names, asks for blocks, and writes to the file that it opened
    last. -/
inductive Log.Files (names : List (List UInt8)) : Log → Prop
  | nil : Files names []
  | «open» {log : Log} {path : Mem} {a : Int} (head : Files names log) (hname : path.cstr 0 bufLen ∈ names) :
      Files names (log ++ [(.open path (oWronly ||| oCreat), a)])
  | malloc {log : Log} {n : Nat} {a : Int} (head : Files names log) : Files names (log ++ [(.malloc n, a)])
  | write {log : Log} {files : List Received} {r : Received} {bytes : List UInt8} {a : Int} (head : Files names log)
      (hlast : log.received = files ++ [r]) (hstored : 1 ≤ a ∧ a ≤ bytes.length) :
      Files names (log ++ [(.write r.file bytes, a)])

/-- The script of a handler, together with its calls. -/
def FilesScript {w : Word} (o : ByteOrder) (w' : Word) (bs : List Binary) (s : BinaryHandler w) (log : Log)
    (r wr : List UInt8) (m : Nat) : Prop :=
  HandlerScript o w' bs s log r wr m ∧ log.Files (names bs)

section
variable {w w' : Word} {o : ByteOrder} {bs : List Binary} {s : BinaryHandler w} {log : Log} {c : ServerOp × Int}
  {r wr : List UInt8} {m : Nat} {ns : List (List UInt8)}

theorem Log.Files.of_concat (h : Log.Files ns (log ++ [c])) :
    log.Files ns ∧ ((∃ path a, c = (.open path (oWronly ||| oCreat), a) ∧ path.cstr 0 bufLen ∈ ns) ∨
      (∃ n a, c = (.malloc n, a)) ∨
      ∃ files r bytes a, c = (.write r.file bytes, a) ∧ log.received = files ++ [r] ∧ 1 ≤ a ∧ a ≤ bytes.length) := by
  generalize hlog : log ++ [c] = log' at h
  cases h with
  | nil => exact absurd hlog (List.append_ne_nil_of_right_ne_nil _ (List.cons_ne_nil c []))
  | «open» head hname =>
    obtain ⟨rfl, hc⟩ := List.append_inj' hlog rfl
    exact ⟨head, Or.inl ⟨_, _, List.head_eq_of_cons_eq hc, hname⟩⟩
  | malloc head =>
    obtain ⟨rfl, hc⟩ := List.append_inj' hlog rfl
    exact ⟨head, Or.inr (Or.inl ⟨_, _, List.head_eq_of_cons_eq hc⟩)⟩
  | write head hlast hstored =>
    obtain ⟨rfl, hc⟩ := List.append_inj' hlog rfl
    exact ⟨head, Or.inr (Or.inr ⟨_, _, _, _, List.head_eq_of_cons_eq hc, hlast, hstored⟩)⟩

theorem DecodedSoFar.length_le {files : List Received} (h : DecodedSoFar files bs) : files.length ≤ bs.length := by
  obtain ⟨done, rest, rfl, hdecoded | ⟨before, f, b, rest', rfl, hdecoded, rfl, -⟩⟩ := h
  · have hlen := congrArg List.length hdecoded
    simp only [List.length_map] at hlen
    simp only [List.length_append]
    omega
  · have hlen := congrArg List.length hdecoded
    simp only [List.length_map] at hlen
    simp only [List.length_append, List.length_cons, List.length_nil]
    omega

theorem DecodedSoFar.path_mem {files : List Received} {f : Received} (h : DecodedSoFar (files ++ [f]) bs) :
    f.path ∈ names bs := by
  obtain ⟨done, rest, rfl, hdecoded | ⟨before, f', b, rest', hfiles, -, rfl, hpath, -⟩⟩ := h
  · have hmem : (f.path, f.bytes) ∈ done.map fun b => (b.remoteFilename.bytes, b.data) := by
      rw [← hdecoded, List.map_append]
      exact List.mem_append_right _ (List.mem_singleton.mpr rfl)
    obtain ⟨b, hb, heq⟩ := List.mem_map.mp hmem
    rw [Prod.mk.injEq] at heq
    exact List.mem_map.mpr ⟨b, List.mem_append_left _ hb, heq.1⟩
  · obtain ⟨-, hf⟩ := List.append_inj' hfiles rfl
    obtain rfl := List.head_eq_of_cons_eq hf
    exact List.mem_map.mpr ⟨b, List.mem_append_right _ List.mem_cons_self, hpath.symm⟩

theorem files_script (hbs : ∀ b ∈ bs, b.Fits) :
    (BinaryHandler.program o : Program (BinaryHandler w) Target UInt8 ServerOp NetErrno).Script Log.Notes
      (FilesScript o w' bs) where
  read hR hcall hne hle := ⟨(handler_script hbs).read hR.1 hcall hne hle, hR.2⟩
  write hR hcall hpos hle := by
    obtain ⟨wr', hwr', hscript⟩ := (handler_script hbs).write hR.1 hcall hpos hle
    exact ⟨wr', hwr', hscript, hR.2⟩
  op hR hcall served := by
    obtain ⟨hscript, hfiles⟩ := hR
    obtain ⟨m', hlt, hscript'⟩ := (handler_script hbs).op hscript hcall served
    refine ⟨m', hlt, hscript', ?_⟩
    obtain ⟨rfl, hstored⟩ := served
    rcases hscript.op_cases hcall with ⟨path, rfl⟩ | ⟨n, rfl⟩ | ⟨fd, data, files, name, bytes, rfl, hlog⟩
    · have hdecoded := hscript'.decodedSoFar
      rw [Log.received_open] at hdecoded
      exact .open hfiles hdecoded.path_mem
    · exact .malloc hfiles
    · exact .write (r := ⟨name, fd, bytes⟩) hfiles hlog (hstored _ _ rfl)

end

/-! ## The file system that all share -/

section
variable {ι : Type} [DecidableEq ι] {d₀ d d' : Disk} {ns : ι → List (List UInt8)} {history : List (ι × ServerOp × Int)}
    {i j : ι}
  {c : FileContents} {name data xs : List UInt8} {files : List Received} {r : Received} {op : ServerOp} {a : Int}

theorem leave_concat (l : List (List UInt8 × List UInt8)) (name data : List UInt8) :
    leave c (l ++ [(name, data)]) = Disk.put (leave c l) name data := by
  rw [leave, List.foldl_append]
  rfl

theorem Disk.put_self : Disk.put c name data name = some (Contents.overwrite ((c name).getD []) 0 data) := by
  rw [Disk.put, Function.update_self, Contents.overwrite_start]

theorem Disk.put_of_ne {name' : List UInt8} (hne : name' ≠ name) : Disk.put c name data name' = c name' :=
  Function.update_of_ne hne ..

theorem Log.received_store (r : Received) (h : Log.received log = files ++ [r]) (bytes : List UInt8) (a : Int) :
    Log.received (log ++ [(.write r.file bytes, a)]) = files ++ [⟨r.path, r.file, r.bytes ++ bytes.take a.toNat⟩] :=
  Log.received_write h bytes a

theorem Log.Files.path_mem {log : Log} {ns : List (List UInt8)} (h : log.Files ns) :
    ∀ r ∈ log.received, r.path ∈ ns := by
  induction h with
  | nil => exact fun r hr => by cases hr
  | «open» head hname ih =>
    intro r hr
    rw [Log.received_open] at hr
    rcases List.mem_append.mp hr with hr | hr
    · exact ih r hr
    · obtain rfl := List.mem_singleton.mp hr
      exact hname
  | malloc head ih =>
    rw [Log.received_malloc]
    exact ih
  | @write log files last bytes a head hlast hstored ih =>
    intro r hr
    rw [Log.received_store _ hlast] at hr
    rw [hlast] at ih
    rcases List.mem_append.mp hr with hr | hr
    · exact ih r (List.mem_append_left _ hr)
    · obtain rfl := List.mem_singleton.mp hr
      exact ih last (List.mem_append_right _ List.mem_cons_self)

/-- The file system has answered these calls, in this order. -/
def Disk.Answered (d₀ : Disk) (history : List (ι × ServerOp × Int)) (d : Disk) : Prop :=
  history.foldlM (fun d c => d.serve c.2.1 c.2.2) d₀ = some d

/-- What the calls of all handlers have made of the file system: each last file is open at its end, and the files that a
    handler may name are as its own calls leave them. -/
structure SharedFiles (d₀ : Disk) (ns : ι → List (List UInt8)) (history : List (ι × ServerOp × Int)) (d : Disk) :
    Prop where
  opened : ∀ i files r, Log.received (Hub.callsOf history i) = files ++ [r] →
    d.files.opened r.file = some (r.path, r.bytes.length)
  content : ∀ i, ∀ name ∈ ns i, d.files.content name =
    leave d₀.files.content ((Log.received (Hub.callsOf history i)).map Received.entry) name
  others : ∀ name, (∀ i, name ∉ ns i) → d.files.content name = d₀.files.content name

theorem sharedFiles_start (d₀ : Disk) (ns : ι → List (List UInt8)) : SharedFiles d₀ ns [] d₀ :=
  ⟨fun _ _ r h => absurd h.symm (List.append_ne_nil_of_right_ne_nil _ (List.cons_ne_nil r [])), fun _ _ _ => rfl,
    fun _ _ => rfl⟩

/-- A handler opens a file. -/
theorem SharedFiles.open {path : Mem} (h : SharedFiles d₀ ns history d)
    (hdisjoint : ∀ i j, i ≠ j → List.Disjoint (ns i) (ns j))
    (hname : path.cstr 0 bufLen ∈ ns i) (hserve : d.serve (.open path (oWronly ||| oCreat)) a = some d') :
    SharedFiles d₀ ns (history ++ [(i, .open path (oWronly ||| oCreat), a)]) d' := by
  simp only [Disk.serve, Option.ite_none_right_eq_some] at hserve
  obtain ⟨⟨-, -, hfree⟩, hserve⟩ := hserve
  obtain ⟨files', hopen, rfl⟩ := Option.map_eq_some_iff.mp hserve
  have hopen : d.files.open (path.cstr 0 bufLen) true false (BitVec.ofInt 32 a) = some files' := hopen
  have hcontent : files'.content = Disk.put d.files.content (path.cstr 0 bufLen) [] := Files.content_open hopen
  refine ⟨fun j files r hr => ?_, fun j name hmem => ?_, fun name hother => ?_⟩
  · rw [Hub.callsOf_concat] at hr
    split at hr
    · rw [Log.received_open] at hr
      obtain rfl := List.head_eq_of_cons_eq (List.append_inj' hr rfl).2
      exact Files.opened_open hopen
    · -- The descriptor is a free one, so what other handlers have open stays open.
      have hbefore := h.opened j files r hr
      have hne : r.file ≠ BitVec.ofInt 32 a := by
        intro heq
        rw [← heq, hbefore] at hfree
        cases hfree
      exact (Files.opened_open_of_ne hopen hne).trans hbefore
  · rw [hcontent, Hub.callsOf_concat]
    split
    · next hij =>
      subst hij
      rw [Log.received_open, List.map_append, List.map_singleton, Received.entry, leave_concat]
      by_cases heq : name = path.cstr 0 bufLen
      · rw [heq, Disk.put_self, Disk.put_self, h.content i _ hname]
      · rw [Disk.put_of_ne heq, Disk.put_of_ne heq, h.content i name hmem]
    · next hij =>
      -- The name belongs to this connection, so the files of the others are as they were.
      have hne : name ≠ path.cstr 0 bufLen := fun heq => hdisjoint i j hij hname (heq ▸ hmem)
      rw [Disk.put_of_ne hne, h.content j name hmem]
  · have hne : name ≠ path.cstr 0 bufLen := by
      rintro rfl
      exact hother i hname
    rw [hcontent, Disk.put_of_ne hne, h.others name hother]

/-- A handler asks for a block, which no file notices. -/
theorem SharedFiles.malloc {n : Nat} (h : SharedFiles d₀ ns history d) (hserve : d.serve (.malloc n) a = some d') :
    SharedFiles d₀ ns (history ++ [(i, .malloc n, a)]) d' := by
  obtain rfl : d = d' := Option.some.inj hserve
  have hreceived : ∀ j, Log.received (Hub.callsOf (history ++ [(i, ServerOp.malloc n, a)]) j) =
      Log.received (Hub.callsOf history j) := by
    intro j
    rw [Hub.callsOf_concat]
    split
    · exact Log.received_malloc
    · rfl
  refine ⟨fun j files r hr => ?_, fun j name hmem => ?_, h.others⟩
  · rw [hreceived j] at hr
    exact h.opened j files r hr
  · rw [hreceived j]
    exact h.content j name hmem

/-- A handler writes to the file that it opened last. -/
theorem SharedFiles.write {bytes : List UInt8} (h : SharedFiles d₀ ns history d)
    (hdisjoint : ∀ i j, i ≠ j → List.Disjoint (ns i) (ns j))
    (hfiles : ∀ j, Log.Files (ns j) (Hub.callsOf history j))
    (hlast : Log.received (Hub.callsOf history i) = files ++ [r]) (hserve : d.serve (.write r.file bytes) a = some d') :
    SharedFiles d₀ ns (history ++ [(i, .write r.file bytes, a)]) d' := by
  simp only [Disk.serve, Option.ite_none_right_eq_some] at hserve
  obtain ⟨-, hserve⟩ := hserve
  obtain ⟨files', hwrite, rfl⟩ := Option.map_eq_some_iff.mp hserve
  have hname : r.path ∈ ns i := (hfiles i).path_mem r (hlast ▸ List.mem_append_right _ List.mem_cons_self)
  have hopened := h.opened i files r hlast
  rw [Files.write_of_opened hopened] at hwrite
  obtain rfl := Option.some.inj hwrite
  have hleave := h.content i r.path hname
  rw [hlast, List.map_append, List.map_singleton, Received.entry, leave_concat] at hleave
  refine ⟨fun j files' r' hr => ?_, fun j name hmem => ?_, fun name hother => ?_⟩
  · rw [Hub.callsOf_concat] at hr
    split at hr
    · next hij =>
      subst hij
      rw [Log.received_store r hlast] at hr
      obtain rfl := List.head_eq_of_cons_eq (List.append_inj' hr rfl).2
      simp only [Function.update_self, List.length_append]
    · next hij =>
      have hbefore := h.opened j files' r' hr
      have hname' : r'.path ∈ ns j := (hfiles j).path_mem r' (hr ▸ List.mem_append_right _ List.mem_cons_self)
      have hne : r'.file ≠ r.file := by
        intro heq
        rw [heq, hopened] at hbefore
        obtain ⟨heq, -⟩ := Prod.mk.inj (Option.some.inj hbefore)
        exact hdisjoint i j hij hname (heq ▸ hname')
      exact (Function.update_of_ne hne ..).trans hbefore
  · rw [Hub.callsOf_concat]
    split
    · next hij =>
      subst hij
      rw [Log.received_store r hlast, List.map_append, List.map_singleton, Received.entry, leave_concat]
      by_cases heq : name = r.path
      · subst heq
        -- the write goes on where the one before it ended
        show Function.update _ _ _ _ = _
        rw [Function.update_self, hleave, Disk.put_self, Disk.put_self, Option.getD_some, ← Nat.zero_add r.bytes.length,
          Contents.overwrite_append]
      · have hcontent := h.content i name hmem
        rw [hlast, List.map_append, List.map_singleton, Received.entry, leave_concat, Disk.put_of_ne heq] at hcontent
        exact (Function.update_of_ne heq ..).trans (hcontent.trans (Disk.put_of_ne heq).symm)
    · next hij =>
      have hne : name ≠ r.path := fun heq => hdisjoint i j hij hname (heq ▸ hmem)
      exact (Function.update_of_ne hne ..).trans (h.content j name hmem)
  · have hne : name ≠ r.path := by
      rintro rfl
      exact hother i hname
    exact (Function.update_of_ne hne ..).trans (h.others name hother)

omit [DecidableEq ι] in
theorem Disk.answered_concat {i : ι} : Disk.Answered d₀ (history ++ [(i, op, a)]) d' ↔
    ∃ d, Disk.Answered d₀ history d ∧ d.serve op a = some d' := by
  rw [Disk.Answered, List.foldlM_append, Option.bind_eq_bind, Option.bind_eq_some_iff]
  simp only [List.foldlM_cons, List.foldlM_nil, Option.pure_def, Option.bind_eq_bind, Option.bind_fun_some]
  rfl

omit [DecidableEq ι] in
theorem Disk.served_of_answered (h : Disk.Answered d₀ history d) {call : ι × ServerOp × Int} (hcall : call ∈ history) :
    ∃ d d' : Disk, d.Serves call.2.1 call.2.2 d' := by
  induction history using List.reverseRecOn generalizing d with
  | nil => cases hcall
  | append_singleton history last ih =>
    obtain ⟨middle, hbefore, hserve⟩ := Disk.answered_concat.mp h
    rcases List.mem_append.mp hcall with hcall | hcall
    · exact ih hbefore hcall
    · obtain rfl := List.mem_singleton.mp hcall
      exact ⟨middle, d, hserve⟩

theorem files_of_concat {i j : ι} (h : Log.Files (ns j) (Hub.callsOf (history ++ [(i, op, a)]) j)) :
    Log.Files (ns j) (Hub.callsOf history j) := by
  rw [Hub.callsOf_concat] at h
  split at h
  · exact h.of_concat.1
  · exact h

theorem sharedFiles_of_answered (hdisjoint : ∀ i j, i ≠ j → List.Disjoint (ns i) (ns j))
    (hfiles : ∀ i, Log.Files (ns i) (Hub.callsOf history i)) (h : Disk.Answered d₀ history d) :
    SharedFiles d₀ ns history d := by
  induction history using List.reverseRecOn generalizing d with
  | nil =>
    obtain rfl := Option.some.inj h
    exact sharedFiles_start d₀ ns
  | append_singleton history call ih =>
    obtain ⟨i, op, a⟩ := call
    obtain ⟨middle, hbefore, hserve⟩ := Disk.answered_concat.mp h
    have hfiles' : ∀ j, Log.Files (ns j) (Hub.callsOf history j) := fun j => files_of_concat (hfiles j)
    have hshared := ih hfiles' hbefore
    have hcall := hfiles i
    rw [Hub.callsOf_concat, if_pos rfl] at hcall
    rcases hcall.of_concat.2 with ⟨path, a', hcall, hname⟩ | ⟨n, a', hcall⟩ | ⟨files, r, bytes, a', hcall, hlast, -⟩
    · cases hcall
      exact hshared.open hdisjoint hname hserve
    · cases hcall
      exact hshared.malloc hserve
    · cases hcall
      exact hshared.write hdisjoint hfiles' hlast hserve

/-! ## Free descriptors -/

def ServerOp.isOpen : ServerOp → Bool
  | .open _ _ => true
  | .write _ _ | .executeString _ | .close _ | .malloc _ => false

theorem Disk.HasFree.open {path : Mem} {flags : CInt} {n : Nat} (h : d.HasFree (n + 1))
    (hserve : d.serve (.open path flags) a = some d') : d'.HasFree n := by
  obtain ⟨free, hcard, hfree⟩ := h
  simp only [Disk.serve, Option.ite_none_right_eq_some] at hserve
  obtain ⟨files', hopen, rfl⟩ := Option.map_eq_some_iff.mp hserve.2
  refine ⟨free.erase (BitVec.ofInt 32 a), ?_, fun fd hfd => ?_⟩
  · have herase := Finset.pred_card_le_card_erase (s := free) (a := BitVec.ofInt 32 a)
    omega
  · obtain ⟨hne, hmem⟩ := Finset.mem_erase.mp hfd
    exact ⟨(hfree fd hmem).1, (Files.opened_open_of_ne hopen hne).trans (hfree fd hmem).2⟩

theorem Disk.HasFree.write {fd : CInt} {bytes : List UInt8} {n : Nat} (h : d.HasFree n)
    (hserve : d.serve (.write fd bytes) a = some d') : d'.HasFree n := by
  obtain ⟨free, hcard, hfree⟩ := h
  simp only [Disk.serve, Option.ite_none_right_eq_some] at hserve
  obtain ⟨files', hwrite, rfl⟩ := Option.map_eq_some_iff.mp hserve.2
  obtain ⟨r, hopened, rfl⟩ := Option.map_eq_some_iff.mp hwrite
  refine ⟨free, hcard, fun fd' hfd' => ⟨(hfree fd' hfd').1, ?_⟩⟩
  have hne : fd' ≠ fd := by
    rintro rfl
    rw [(hfree fd' hfd').2] at hopened
    cases hopened
  exact (Function.update_of_ne hne ..).trans (hfree fd' hfd').2

theorem hasFree_of_answered {n : Nat} (hfiles : ∀ i, Log.Files (ns i) (Hub.callsOf history i))
    (h : Disk.Answered d₀ history d)
    (hfree : d₀.HasFree (history.countP (fun c => c.2.1.isOpen) + n)) : d.HasFree n := by
  induction history using List.reverseRecOn generalizing d n with
  | nil =>
    obtain rfl := Option.some.inj h
    rwa [List.countP_nil, Nat.zero_add] at hfree
  | append_singleton history call ih =>
    obtain ⟨i, op, a⟩ := call
    obtain ⟨middle, hbefore, hserve⟩ := Disk.answered_concat.mp h
    have hcall := hfiles i
    rw [Hub.callsOf_concat, if_pos rfl] at hcall
    have ih {n} := ih (n := n) (fun j => files_of_concat (hfiles j)) hbefore
    rw [List.countP_append, List.countP_singleton, Nat.add_assoc] at hfree
    rcases hcall.of_concat.2 with ⟨path, a', hcall, hname⟩ | ⟨size, a', hcall⟩ | ⟨files, r, bytes, a', hcall, hlast, -⟩
    · cases hcall
      simp only [ServerOp.isOpen, ↓reduceIte, Nat.add_comm 1 n] at hfree
      exact (ih hfree).open hserve
    · cases hcall
      simp only [ServerOp.isOpen, Bool.false_eq_true, ↓reduceIte, Nat.zero_add] at hfree
      obtain rfl : middle = d := Option.some.inj hserve
      exact ih hfree
    · cases hcall
      simp only [ServerOp.isOpen, Bool.false_eq_true, ↓reduceIte, Nat.zero_add] at hfree
      exact (ih hfree).write hserve

/-- A handler has opened as many files as it has received. -/
theorem Log.Files.countP_isOpen {log : Log} {ns : List (List UInt8)} (h : log.Files ns) :
    log.countP (fun c => c.1.isOpen) = log.received.length := by
  induction h with
  | nil => rfl
  | «open» head hname ih =>
    rw [List.countP_append, ih, Log.received_open, List.length_append]
    rfl
  | malloc head ih =>
    rw [List.countP_append, ih, Log.received_malloc]
    rfl
  | write head hlast hstored ih =>
    rw [List.countP_append, ih, Log.received_store _ hlast, hlast, List.length_append, List.length_append]
    rfl

end

/-! ## All connections -/

namespace BinaryConnections
variable {ι : Type} {w w' : Word}

/-- The senders of the connections call `sendElfBinaryFromMemory` for their binaries; each handler has just been
    started, with its socket and what its stack holds. -/
def start (bs : ι → List Binary) (errno : ι → NetErrno) (handler : ι → BinaryHandler w') (disk : Disk) :
    BinaryConnections ι w w' where
  left i := RemoteDom0Instance.start false (bs i) (errno i)
  leftWorld _ := ()
  right := handler
  toLeft _ := []
  toRight _ := []
  world := disk
  history := []

/-- A handler that has just been started. -/
def Started (o : ByteOrder) (s : BinaryHandler w') : Prop :=
  ∃ fd buffer file size rwBuffer, s = BinaryHandler.start o fd buffer file size rwBuffer

variable [DecidableEq ι] {o : ByteOrder} {bs : ι → List Binary} {disk : Disk} {h : BinaryConnections ι w w'} {i : ι}
    {n : Nat}

/-- A run of `n` steps of the senders, the handlers and the file system. -/
abbrev Run (o : ByteOrder) (h : BinaryConnections ι w w') (n : Nat) (h' : BinaryConnections ι w w') : Prop :=
  Hub.Run (RemoteDom0Instance.program o) noCalls (BinaryHandler.program o) Disk.Serves h n h'

/-- Nothing can go on. -/
abbrev Stuck (o : ByteOrder) (h : BinaryConnections ι w w') : Prop :=
  Hub.Stuck (RemoteDom0Instance.program o) noCalls (BinaryHandler.program o) Disk.Serves h

/-- What a connection has received so far. -/
def received (h : BinaryConnections ι w w') (i : ι) : List Received := Log.received (h.calls i)

/-- What holds of all connections in every state they can come to, where the binaries `bs` are sent and the file system
    was `disk` before. -/
structure Delivered [Fintype ι] (o : ByteOrder) (bs : ι → List Binary) (disk : Disk) (h : BinaryConnections ι w w') :
    Prop where
  decoded : ∀ i, DecodedSoFar (h.received i) (bs i)
  returned : ∀ i, (h.left i).results.map BitVec.toInt <+: (bs i).map fun b => (b.data.length : Int)
  /-- The files of a connection are as it has received them so far, whatever the others do. -/
  files : ∀ i, ∀ name ∈ names (bs i),
    h.world.files.content name = leave disk.files.content ((h.received i).map Received.entry) name
  others : ∀ name, (∀ i, name ∉ names (bs i)) → h.world.files.content name = disk.files.content name
  no_deadlock : ∀ i, ¬(h.pair i).Deadlocked (RemoteDom0Instance.program o) (BinaryHandler.program o)
  complete : disk.HasFree (∑ i, (bs i).length) → (∀ i, Log.Allocated (h.calls i)) → h.Stuck o →
    ∀ i, (h.left i).sending = none ∧ (h.left i).results.map BitVec.toInt = (bs i).map (fun b => (b.data.length : Int)) ∧
      ∀ name ∈ names (bs i), h.world.files.content name =
        leave disk.files.content ((bs i).map fun b => (b.remoteFilename.bytes, b.data)) name

/-- The file system answers what a handler asks for next, if a descriptor is free. -/
theorem exists_serves {ns : ι → List (List UInt8)} (hshared : SharedFiles disk ns h.history h.world) {bs : List Binary}
    {r wr : List UInt8} {m : Nat} {op : ServerOp} {a : Int} {log : Log}
    (hscript : HandlerScript o w bs (h.right i) (h.calls i) r wr m)
    (hcall : (BinaryHandler.program o).call (h.right i) = .op op)
    (hnotes : Log.Notes (h.calls i) op a log) (hfree : (h.received i).length < bs.length → h.world.HasFree 1)
    (hbs : ∀ b ∈ bs, b.Fits) : ∃ a d, h.world.Serves op a d := by
  rcases hscript.op_cases hcall with ⟨path, rfl⟩ | ⟨n, rfl⟩ | ⟨fd, data, files, name, bytes, rfl, hlog⟩
  · obtain ⟨_, -, hnext⟩ := (handler_script hbs).op hscript hcall hnotes
    have hlen := hnext.decodedSoFar.length_le
    rw [hnotes.1, Log.received_open, List.length_append, List.length_singleton] at hlen
    obtain ⟨free, hcard, hmem⟩ := hfree hlen
    obtain ⟨fd, hfd⟩ := Finset.card_pos.mp hcard
    obtain ⟨hnonneg, hnone⟩ := hmem fd hfd
    obtain ⟨files', hopen⟩ := h.world.files.exists_open (path.cstr 0 bufLen) false fd
    refine ⟨fd.toInt, ⟨files', h.world.befores ++ [h.world.files.content]⟩, ?_⟩
    have hlt : fd.toInt < 2 ^ 31 := BitVec.toInt_lt
    have hisNone : (h.world.files.opened (BitVec.ofInt 32 fd.toInt)).isNone := by
      rw [BitVec.ofInt_toInt, hnone]
      rfl
    rw [Disk.Serves, Disk.serve, if_pos ⟨hnonneg, hlt, hisNone⟩, BitVec.ofInt_toInt]
    exact congrArg (Option.map _) hopen
  · exact ⟨0, h.world, rfl⟩
  · have hopened := hshared.opened i files ⟨name, fd, bytes⟩ hlog
    refine ⟨a, ?_⟩
    simp only [Disk.Serves, Disk.serve, if_pos (hnotes.2 fd data rfl), Files.write_of_opened hopened, Option.map_some]
    exact ⟨_, rfl⟩

theorem delivered_of_meets [Fintype ι] (hbs : ∀ i, ∀ b ∈ bs i, b.Fits)
    (hdisjoint : ∀ i j, i ≠ j → List.Disjoint (names (bs i)) (names (bs j)))
    (hanswered : disk.Answered h.history h.world)
    (hmeets : ∀ i, ∃ left, (h.pair i).Meets (SenderScript o (bs i)) (FilesScript o w (bs i)) left) :
    Delivered o bs disk h := by
  have hscripts : ∀ i, ∃ r wr m, HandlerScript o w (bs i) (h.right i) (h.calls i) r wr m ∧
      Log.Files (names (bs i)) (h.calls i) := by
    intro i
    obtain ⟨_, _, _, _, _, -, hhandler, -⟩ := hmeets i
    exact ⟨_, _, _, hhandler⟩
  have hfiles : ∀ i, Log.Files (names (bs i)) (h.calls i) := fun i => by
    obtain ⟨_, _, _, -, hfiles⟩ := hscripts i
    exact hfiles
  have hpairs : ∀ i, ∃ n, (h.pair i).Meets (SenderScript o (bs i)) (HandlerScript o w (bs i)) n := fun i => by
    obtain ⟨left, wl, ml, wr, mr, hsender, hhandler, hle⟩ := hmeets i
    exact ⟨left, wl, ml, wr, mr, hsender, hhandler.1, hle⟩
  have hdecoded : ∀ i, DecodedSoFar (h.received i) (bs i) := fun i => by
    obtain ⟨_, _, _, hscript, -⟩ := hscripts i
    exact hscript.decodedSoFar
  have hreturned : ∀ i, (h.left i).results.map BitVec.toInt <+: (bs i).map fun b => (b.data.length : Int) := fun i => by
    obtain ⟨_, _, _, _, _, hsender, -⟩ := hmeets i
    exact hsender.returned
  have hshared : SharedFiles disk (fun i => names (bs i)) h.history h.world :=
    sharedFiles_of_answered hdisjoint hfiles hanswered
  refine ⟨hdecoded, hreturned, fun i => hshared.content i, hshared.others, fun i => ?_, fun hfree hall hstuck i => ?_⟩
  · obtain ⟨_, hpair⟩ := hpairs i
    exact not_deadlocked hpair
  have hopens : h.history.countP (fun c => c.2.1.isOpen) = ∑ i, (h.received i).length := by
    rw [Hub.countP_eq_sum (fun c => c.1.isOpen) h.history]
    exact Finset.sum_congr rfl fun i _ => (hfiles i).countP_isOpen
  have hle : ∀ i, (h.received i).length ≤ (bs i).length := fun i => (hdecoded i).length_le
  have hpair : (h.pair i).Stuck (RemoteDom0Instance.program o) noCalls (BinaryHandler.program o) (Log.Serves w') := by
    refine hstuck.pair fun op a log hcall hserves => ?_
    obtain ⟨_, _, _, hscript, -⟩ := hscripts i
    refine exists_serves hshared hscript hcall hserves.1 (fun hlt => ?_) (hbs i)
    -- one file of this connection is still to be opened, so not all descriptors are taken
    have hless : ∑ i, (h.received i).length < ∑ i, (bs i).length :=
      Finset.sum_lt_sum (fun j _ => hle j) ⟨i, Finset.mem_univ i, hlt⟩
    refine hasFree_of_answered hfiles hanswered ?_
    obtain ⟨free, hcard, hmem⟩ := hfree
    exact ⟨free, by omega, hmem⟩
  obtain ⟨_, hmeet⟩ := hpairs i
  obtain ⟨hnone, hresults, hlast⟩ := (finished_of_meets hmeet (hall i) hpair).1
  refine ⟨hnone, hresults, fun name hname => ?_⟩
  rw [hshared.content i name hname, ← hlast]
  rfl

theorem answered_of_run {h' : BinaryConnections ι w w'} (hrun : Run o h n h') (hstart : h.history = []) :
    Disk.Answered h.world h'.history h'.world := by
  refine Hub.Run.keeps (I := fun d history => Disk.Answered h.world history d)
    (fun d history i op a d' hd hserved => ?_) ?_ hrun
  · exact Disk.answered_concat.mpr ⟨d, hd, hserved⟩
  · rw [hstart]
    rfl

/-- However many machines send binaries over connections of their own, however the streams are cut into pieces, however
    the handlers take turns and however short their writes are: where no two machines send files of the same name, the
    files of each hold what it has sent, as if it were alone, and all other files what they held before; no run goes on
    for ever, and all is sent once nothing can go on, if there are as many free descriptors as binaries. -/
theorem binaries_reach_files [Fintype ι] (o : ByteOrder) (bs : ι → List Binary) (hbs : ∀ i, ∀ b ∈ bs i, b.Fits)
    (hdisjoint : ∀ i j, i ≠ j → List.Disjoint (names (bs i)) (names (bs j))) (errno : ι → NetErrno)
    (handler : ι → BinaryHandler w') (hhandler : ∀ i, Started o (handler i)) (disk : Disk)
    (hrun : Run o (start (w := w) bs errno handler disk) n h) :
    Delivered o bs disk h ∧ n ≤ ∑ i, steps o w (bs i) := by
  have hanswered : Disk.Answered disk h.history h.world := answered_of_run hrun rfl
  have hstart : ∀ i, ((start (w := w) bs errno handler disk).pair i).Meets (SenderScript o (bs i))
    (FilesScript o w (bs i)) (steps o w (bs i)) := by
    intro i
    obtain ⟨fd, buffer, file, size, rwBuffer, hs⟩ := hhandler i
    obtain ⟨wl, ml, wr, mr, hsender, hhandler, hle⟩ :
      (connected (bs i) (errno i) (handler i)).Meets (SenderScript (w := w) o (bs i))
        (HandlerScript o w (bs i)) (steps o w (bs i)) := hs ▸ connected_meets (errno i) fd buffer file size rwBuffer
    exact ⟨wl, ml, wr, mr, hsender, ⟨hhandler, .nil⟩, hle⟩
  have hserves : ∀ i, Serves Log.Notes (h.calls i) := by
    intro i before op a rest hcalls
    have hmem : (op, a) ∈ h.calls i := hcalls ▸ List.mem_append_right _ List.mem_cons_self
    obtain ⟨d, d', hserved⟩ := Disk.served_of_answered hanswered (Hub.mem_callsOf.mp hmem)
    exact hserved.notes
  obtain ⟨steps', hpairs, rfl⟩ := hrun.pairs hserves
  have hmeets i := (hpairs i).meets (sender_script (hbs i)) (files_script (hbs i)) (hstart i)
  refine ⟨delivered_of_meets hbs hdisjoint hanswered fun i => ?_, Finset.sum_le_sum fun i _ => ?_⟩
  · obtain ⟨left, -, hmeets⟩ := hmeets i
    exact ⟨left, hmeets⟩
  · obtain ⟨left, hle, -⟩ := hmeets i
    omega

/-- A machine that sends the file `d`, of two bytes, and one that sends the file `e`, of one. -/
def twoFiles : Bool → List Binary
  | true => [⟨⟨[100], by decide⟩, [1, 2]⟩]
  | false => [⟨⟨[101], by decide⟩, [3]⟩]

def twoConnections : BinaryConnections Bool .w32 .w32 :=
  start twoFiles (fun _ => ⟨12, by decide⟩) (fun _ => .start .little 3 (fun _ => 0) 0 0 (fun _ => 0)) ⟨noFiles, []⟩

/-- The two transfers take turns at every call. Their files are descriptors 4 and 5. -/
def twoFilesTurns : List (Bool × (Int ⊕ Int)) :=
  [(true, .inl 4), (false, .inl 4), (true, .inl 2), (false, .inl 2), (true, .inl 4), (false, .inl 4), (true, .inr 4),
    (false, .inr 4), (true, .inr 2), (false, .inr 2), (true, .inr 4), (false, .inr 5), (true, .inr 4), (false, .inr 4),
    (true, .inr 4), (false, .inr 4), (true, .inr 4096), (false, .inr 1052672), (true, .inl 4), (false, .inl 4),
    (true, .inl 2), (false, .inl 1), (true, .inr 2), (false, .inr 1), (true, .inr 1), (false, .inr 1), (true, .inr 1)]

/-- Both files are played to their ends. -/
theorem binaries_reach_files_twoFiles :
    ∃ h, Run .little twoConnections 27 h ∧ h.world.files.content [100] = some [1, 2] ∧
      h.world.files.content [101] = some [3] ∧ (h.left true).results = [2] ∧ (h.left false).results = [1] ∧
      Delivered .little twoFiles ⟨noFiles, []⟩ h ∧ 27 ≤ ∑ i, steps .little .w32 (twoFiles i) := by
  have hfits : ∀ i, ∀ b ∈ twoFiles i, b.Fits := by
    intro i b hb
    cases i <;> obtain rfl := List.mem_singleton.mp hb <;> exact ⟨by decide, by decide, by decide⟩
  have hdisjoint : ∀ i j, i ≠ j → List.Disjoint (names (twoFiles i)) (names (twoFiles j)) := by
    intro i j hij name hi hj
    cases i <;> cases j
    · exact hij rfl
    · cases (List.mem_singleton.mp hi).symm.trans (List.mem_singleton.mp hj)
    · cases (List.mem_singleton.mp hi).symm.trans (List.mem_singleton.mp hj)
    · exact hij rfl
  have hplay : (twoFilesTurns.foldlM (Hub.turn (RemoteDom0Instance.program .little) (fun _ _ _ => none)
      (BinaryHandler.program .little) Disk.serve) twoConnections).any fun h =>
        h.world.files.content [100] = some [1, 2] ∧ h.world.files.content [101] = some [3] ∧
          (h.left true).results = [2] ∧ (h.left false).results = [1] := by
    decide +kernel
  obtain ⟨h, hh, hlast⟩ := (Option.any_eq_true _ _).mp hplay
  obtain ⟨hd, he, htrue, hfalse⟩ := of_decide_eq_true hlast
  have hrun : Run .little twoConnections 27 h :=
    .turns (fun _ _ _ _ hnone => by cases hnone) (fun _ _ _ _ hserved => hserved) .refl hh
  exact ⟨h, hrun, hd, he, htrue, hfalse,
    binaries_reach_files .little twoFiles hfits hdisjoint _ _ (fun _ => ⟨_, _, _, _, _, rfl⟩) _ hrun⟩

end BinaryConnections

end Dom0
