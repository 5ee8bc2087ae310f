import Dom0.Lib.Runs
import Dom0.Net.Dom0Server

/-! The descriptors of a connection. `binaryConnectionHandler` closes the connection's own descriptor when it returns,
and never the file of a transfer: all of them are closed where no file could be opened. -/

namespace Dom0

/-- The descriptors of the process. Every one that is opened gets a number of its own, by which `own` tells which belong
    to the handler and `closed` which ones it closed. -/
structure HandlerDescriptors where
  table : CInt → Option Nat
  next : Nat
  own : List Nat
  closed : List (Option Nat)

/-- What other code does. -/
inductive HandlerDescriptors.Other
  | opens (fd : CInt)
  | closes (fd : CInt)

namespace HandlerDescriptors

/-- The table once `fd` is opened. -/
def opening (d : HandlerDescriptors) (fd : CInt) : HandlerDescriptors :=
  { d with table := Function.update d.table fd (some d.next), next := d.next + 1 }

/-- What the calls of the handler do: `open` fails or gives a descriptor that is not in use. -/
def serve (d : HandlerDescriptors) (op : ServerOp) (a : Int) : Option HandlerDescriptors :=
  match op with
  | .open _ _ =>
    if a = -1 then some d
    else if 0 ≤ (BitVec.ofInt 32 a).toInt ∧ d.table (BitVec.ofInt _ a) = none then
      some { d.opening (BitVec.ofInt _ a) with own := d.own ++ [d.next] }
    else none
  | .close fd => some { d with table := Function.update d.table fd none, closed := d.closed ++ [d.table fd] }
  | .write _ _ | .executeString _ | .malloc _ => some d

/-- Other code closes only what it opened itself. -/
def change (d : HandlerDescriptors) : Other → Option HandlerDescriptors
  | .opens fd => if 0 ≤ fd.toInt ∧ d.table fd = none then some (d.opening fd) else none
  | .closes fd =>
    match d.table fd with
    | some k => if k ∉ d.own then some { d with table := Function.update d.table fd none } else none
    | none => none

/-- The handler of `fd` starts. Where `accept` failed, `fd` is negative. -/
structure Starts (d : HandlerDescriptors) (fd : CInt) : Prop where
  accepted : 0 ≤ fd.toInt → (d.table fd).isSome
  numbered : ∀ fd k, d.table fd = some k → k < d.next
  own : d.own = (d.table fd).toList
  closed : d.closed = []

section
variable {d d' : HandlerDescriptors} {path : Mem} {flags : CInt} {a : Int} {e : Other}

theorem serve_open (h : d.serve (.open path flags) a = some d') : a = -1 ∧ d' = d ∨
    a ≠ -1 ∧ ∃ fd, 0 ≤ fd.toInt ∧ d.table fd = none ∧ d' = { d.opening fd with own := d.own ++ [d.next] } := by
  simp only [serve] at h
  split at h
  · next hfailed => exact Or.inl ⟨hfailed, (Option.some.inj h).symm⟩
  · next hgave =>
    rw [Option.ite_none_right_eq_some] at h
    obtain ⟨⟨hpos, hfree⟩, heq⟩ := h
    exact Or.inr ⟨hgave, _, hpos, hfree, (Option.some.inj heq).symm⟩

theorem change_cases (h : d.change e = some d') : (∃ fd, 0 ≤ fd.toInt ∧ d.table fd = none ∧ d' = d.opening fd) ∨
    ∃ fd k, d.table fd = some k ∧ k ∉ d.own ∧ d' = { d with table := Function.update d.table fd none } := by
  cases e with
  | opens fd =>
    simp only [change, Option.ite_none_right_eq_some] at h
    obtain ⟨⟨hpos, hfree⟩, heq⟩ := h
    exact Or.inl ⟨fd, hpos, hfree, (Option.some.inj heq).symm⟩
  | closes fd =>
    simp only [change] at h
    split at h
    · next k hopen =>
      rw [Option.ite_none_right_eq_some] at h
      exact Or.inr ⟨fd, k, hopen, h.1, (Option.some.inj h.2).symm⟩
    · cases h

end

/-- Every descriptor of the handler has been closed exactly once. -/
def ClosedOnce (d : HandlerDescriptors) : Prop := ∀ k ∈ d.own, d.closed.count (some k) = 1

instance (d : HandlerDescriptors) : Decidable d.ClosedOnce := inferInstanceAs (Decidable (∀ _ ∈ _, _))

end HandlerDescriptors

section
variable {w : Word}

/-- The handler with the descriptors of its process. -/
abbrev HostedHandler (w : Word) := Hosted (BinaryHandler w) HandlerDescriptors

abbrev HandlerAction := Hosted.Action NetErrno UInt8 HandlerDescriptors.Other

def HostedHandler.step (o : ByteOrder) : HostedHandler w → HandlerAction → Option (HostedHandler w) :=
  Hosted.step (BinaryHandler.program o) HandlerDescriptors.serve (fun d _ => d) HandlerDescriptors.change

/-- The step is not an `open` that gives a descriptor. -/
def HostedHandler.OpensNothing (o : ByteOrder) (h : HostedHandler w) (a : HandlerAction) : Prop :=
  ∀ path flags r, BinaryHandler.call o h.program = .op (.open path flags) → a = .answered r → r = -1

end

/-! ## The handler -/

namespace BinaryHandler

section
variable {w : Word} {o : ByteOrder} {s : BinaryHandler w} {n : SizeT w}

/-- What a step of the handler leaves alone while it goes on. -/
def Continues (s s' : BinaryHandler w) : Prop := s'.fd = s.fd ∧ s'.pc ≠ .returned

theorem continues_loop : Continues s (s.loop n) := by
  unfold loop netcheckLoop
  split
  · exact ⟨rfl, nofun⟩
  · split <;> exact ⟨rfl, nofun⟩

theorem continues_onRead {res : Except NetErrno (List UInt8)} (h : s.pc ≠ .returned) :
    Continues s (s.onRead o res) := by
  unfold onRead netcheckLoop
  split
  · split
    · exact ⟨rfl, nofun⟩
    · split <;> exact ⟨rfl, nofun⟩
  · split
    · exact ⟨rfl, nofun⟩
    · split <;> exact ⟨rfl, nofun⟩
  · split
    · exact ⟨rfl, nofun⟩
    · split <;> exact ⟨rfl, nofun⟩
  · split
    · exact ⟨rfl, nofun⟩
    · split
      · exact ⟨rfl, nofun⟩
      · exact continues_loop
  · exact ⟨rfl, h⟩

theorem continues_onWrite {res : Except NetErrno Nat} (h : s.pc ≠ .returned) : Continues s (s.onWrite o res) := by
  unfold onWrite netcheckLoop
  split
  · split
    · exact ⟨rfl, nofun⟩
    · split <;> exact ⟨rfl, nofun⟩
  · exact ⟨rfl, h⟩

theorem onOp_fd {a : Int} : (s.onOp a).fd = s.fd := by
  unfold onOp
  split
  · rfl
  · split
    · rfl
    · exact continues_loop.1
  · dsimp only
    split
    · rfl
    · exact continues_loop.1
  · rfl
  · rfl

/-- The other calls that the handler makes, and where they lead. -/
theorem op_cases {op : ServerOp} (hcall : call o s = .op op) :
    (∃ path flags, op = .open path flags ∧ ∀ a, Continues s (s.onOp a)) ∨
    (((∃ fd bs, op = .write fd bs) ∨ ∃ n, op = .malloc n) ∧ ∀ a, Continues s (s.onOp a)) ∨
      op = .close s.fd ∧ ∀ a, (s.onOp a).pc = .returned := by
  cases hpc : s.pc with
  | «open» =>
    simp only [call, hpc, Syscall.op.injEq] at hcall
    refine Or.inl ⟨_, _, hcall.symm, fun a => ?_⟩
    simp only [onOp, hpc]
    exact ⟨rfl, nofun⟩
  | write leftToReceive received written =>
    simp only [call, hpc, Syscall.op.injEq] at hcall
    refine Or.inr (Or.inl ⟨Or.inl ⟨_, _, hcall.symm⟩, fun a => ?_⟩)
    simp only [onOp, hpc]
    split
    · exact ⟨rfl, nofun⟩
    · exact continues_loop
  | malloc =>
    simp only [call, hpc, Syscall.op.injEq] at hcall
    refine Or.inr (Or.inl ⟨Or.inr ⟨_, hcall.symm⟩, fun a => ?_⟩)
    simp only [onOp, hpc]
    split
    · exact ⟨rfl, nofun⟩
    · exact continues_loop
  | close =>
    simp only [call, hpc, Syscall.op.injEq] at hcall
    exact Or.inr (Or.inr ⟨hcall.symm, fun a => by simp [onOp, hpc]⟩)
  | nameSize | name | size | go | receive | faulted | returned =>
    simp only [call, hpc] at hcall
    cases hcall

theorem call_of_returned (h : s.pc = .returned) : call o s = .exit := by simp [call, h]

end

end BinaryHandler

/-! ## The accounting -/

namespace HostedHandler

section
variable {w : Word} {o : ByteOrder} {h h' last : HostedHandler w} {a : HandlerAction} {actions : List HandlerAction}
    {fd fd' : CInt}
  {c : Option Nat}

/-- `c` is what `fd` stood for when the handler started. It does so until the handler returns, which is when it closes
    `fd`. -/
structure Keeps (fd : CInt) (c : Option Nat) (h : HostedHandler w) : Prop where
  fd_eq : h.program.fd = fd
  valid : 0 ≤ fd.toInt → c.isSome
  numbered : ∀ fd k, h.world.table fd = some k → k < h.world.next
  own_lt : ∀ k ∈ h.world.own, k < h.world.next
  nodup : h.world.own.Nodup
  connection : ∀ k, c = some k → k ∈ h.world.own
  running : h.program.pc ≠ .returned → h.world.table fd = c ∧ h.world.closed = []
  returned : h.program.pc = .returned → h.world.closed = [c]

theorem running_of_call {call : Syscall Target UInt8 ServerOp} (hcall : BinaryHandler.call o h.program = call)
    (hne : call ≠ .exit) : h.program.pc ≠ .returned :=
  fun hpc => hne (hcall.symm.trans (BinaryHandler.call_of_returned hpc))

namespace Keeps

theorem continues (hk : Keeps fd c h) (hpc : h.program.pc ≠ .returned) {s : BinaryHandler w}
    (hs : BinaryHandler.Continues h.program s) : Keeps fd c { h with program := s } where
  fd_eq := hs.1.trans hk.fd_eq
  valid := hk.valid
  numbered := hk.numbered
  own_lt := hk.own_lt
  nodup := hk.nodup
  connection := hk.connection
  running _ := hk.running hpc
  returned hret := absurd hret hs.2

/-- A descriptor that was not in use is not the connection's. -/
theorem table_opening (hk : Keeps fd c h) (hpc : h.program.pc ≠ .returned) (hpos : 0 ≤ fd'.toInt)
    (hfree : h.world.table fd' = none) : (h.world.opening fd').table fd = c := by
  have htable := (hk.running hpc).1
  have hne : fd ≠ fd' := by
    rintro rfl
    have hsome := hk.valid hpos
    rw [← htable, hfree] at hsome
    cases hsome
  exact (Function.update_of_ne hne _ _).trans htable

theorem numbered_opening (hk : Keeps fd c h) (f : CInt) (k : Nat) (hf : (h.world.opening fd').table f = some k) :
    k < (h.world.opening fd').next := by
  simp only [HandlerDescriptors.opening, Function.update_apply] at hf ⊢
  split at hf
  · cases hf
    exact Nat.lt_succ_self _
  · exact Nat.lt_succ_of_lt (hk.numbered f k hf)

theorem numbered_closing (hk : Keeps fd c h) (f : CInt) (k : Nat)
    (hf : Function.update h.world.table fd' none f = some k) : k < h.world.next := by
  rw [Function.update_apply] at hf
  split at hf
  · cases hf
  · exact hk.numbered f k hf

theorem opened (hk : Keeps fd c h) (hpos : 0 ≤ fd'.toInt) (hfree : h.world.table fd' = none) :
    Keeps fd c { h with world := h.world.opening fd' } where
  fd_eq := hk.fd_eq
  valid := hk.valid
  numbered := hk.numbered_opening
  own_lt k hmem := Nat.lt_succ_of_lt (hk.own_lt k hmem)
  nodup := hk.nodup
  connection := hk.connection
  running hpc := ⟨hk.table_opening hpc hpos hfree, (hk.running hpc).2⟩
  returned := hk.returned

theorem opened_own (hk : Keeps fd c h) (hpc : h.program.pc ≠ .returned) (hpos : 0 ≤ fd'.toInt)
    (hfree : h.world.table fd' = none) :
    Keeps fd c { h with world := { h.world.opening fd' with own := h.world.own ++ [h.world.next] } } where
  fd_eq := hk.fd_eq
  valid := hk.valid
  numbered := hk.numbered_opening
  own_lt k hmem := by
    rcases List.mem_append.mp hmem with hold | hnew
    · exact Nat.lt_succ_of_lt (hk.own_lt k hold)
    · obtain rfl := List.mem_singleton.mp hnew
      exact Nat.lt_succ_self _
  nodup := by
    refine List.nodup_append.mpr ⟨hk.nodup, List.nodup_singleton _, fun k hmem k' hmem' heq => ?_⟩
    obtain rfl := List.mem_singleton.mp hmem'
    have hlt := hk.own_lt k hmem
    omega
  connection k hc := List.mem_append_left _ (hk.connection k hc)
  running _ := ⟨hk.table_opening hpc hpos hfree, (hk.running hpc).2⟩
  returned hret := absurd hret hpc

theorem closed_other (hk : Keeps fd c h) {k : Nat} (hopen : h.world.table fd' = some k) (hother : k ∉ h.world.own) :
    Keeps fd c { h with world := { h.world with table := Function.update h.world.table fd' none } } where
  fd_eq := hk.fd_eq
  valid := hk.valid
  numbered := hk.numbered_closing
  own_lt := hk.own_lt
  nodup := hk.nodup
  connection := hk.connection
  running hpc := by
    obtain ⟨htable, hclosed⟩ := hk.running hpc
    have hne : fd ≠ fd' := by
      rintro rfl
      exact hother (hk.connection k (htable.symm.trans hopen))
    exact ⟨(Function.update_of_ne hne _ _).trans htable, hclosed⟩
  returned := hk.returned

theorem closed_own (hk : Keeps fd c h) (hpc : h.program.pc ≠ .returned) {s : BinaryHandler w} (hs : s.fd = h.program.fd)
    (hret : s.pc = .returned) :
    Keeps fd c ⟨s, { h.world with
      table := Function.update h.world.table h.program.fd none
      closed := h.world.closed ++ [h.world.table h.program.fd] }⟩ where
  fd_eq := hs.trans hk.fd_eq
  valid := hk.valid
  numbered := hk.numbered_closing
  own_lt := hk.own_lt
  nodup := hk.nodup
  connection := hk.connection
  running hne := absurd hret hne
  returned _ := by
    obtain ⟨htable, hclosed⟩ := hk.running hpc
    rw [hclosed, hk.fd_eq, htable, List.nil_append]

/-- What one step does to the accounting: it stays right, and nothing becomes the handler's own but what an `open`
    gives. -/
theorem step (hk : Keeps fd c h) (hstep : h.step o a = some h') :
    Keeps fd c h' ∧ ∃ more, h'.world.own = h.world.own ++ more ∧ (more = [] ↔ OpensNothing o h a) := by
  rcases Hosted.step_cases hstep with ⟨into, off, n, res, hcall, rfl, -, rfl⟩ | ⟨bs, k, hcall, rfl, -, rfl⟩ |
    ⟨bs, e, hcall, rfl, rfl⟩ | ⟨op, r, x, hcall, rfl, hserve, rfl⟩ | ⟨e, x, rfl, hchange, rfl⟩
  · have hpc := running_of_call hcall nofun
    exact ⟨hk.continues hpc (BinaryHandler.continues_onRead hpc), [], (List.append_nil _).symm,
      fun _ _ _ _ _ heq => (by cases heq), fun _ => rfl⟩
  · have hpc := running_of_call hcall nofun
    exact ⟨hk.continues hpc (BinaryHandler.continues_onWrite hpc), [], (List.append_nil _).symm,
      fun _ _ _ _ _ heq => (by cases heq), fun _ => rfl⟩
  · have hpc := running_of_call hcall nofun
    exact ⟨hk.continues hpc (BinaryHandler.continues_onWrite hpc), [], (List.append_nil _).symm,
      fun _ _ _ _ _ heq => (by cases heq), fun _ => rfl⟩
  · have hpc := running_of_call hcall nofun
    -- Of the handler's own calls only `open` makes a descriptor and only the last one closes any.
    rcases BinaryHandler.op_cases hcall with ⟨path, flags, rfl, hgoes⟩ | ⟨hop, hgoes⟩ | ⟨rfl, hret⟩
    · rcases HandlerDescriptors.serve_open hserve with ⟨hfailed, rfl⟩ | ⟨hgave, f, hpos, hfree, rfl⟩
      · refine ⟨hk.continues hpc (hgoes r), [], (List.append_nil _).symm, fun _ _ _ _ _ heq => ?_, fun _ => rfl⟩
        cases heq
        exact hfailed
      · refine ⟨(hk.opened_own hpc hpos hfree).continues hpc (hgoes r), [h.world.next], rfl, ?_, fun hnothing => ?_⟩
        · intro hnil
          cases hnil
        · exact absurd (hnothing path flags r hcall rfl) hgave
    · rcases hop with ⟨f, bs, rfl⟩ | ⟨n, rfl⟩ <;> cases hserve
      · refine ⟨hk.continues hpc (hgoes r), [], (List.append_nil _).symm, fun _ _ _ _ hopen _ => ?_, fun _ => rfl⟩
        cases hopen.symm.trans hcall
      · refine ⟨hk.continues hpc (hgoes r), [], (List.append_nil _).symm, fun _ _ _ _ hopen _ => ?_, fun _ => rfl⟩
        cases hopen.symm.trans hcall
    · cases hserve
      refine ⟨hk.closed_own hpc (BinaryHandler.onOp_fd) (hret r), [], (List.append_nil _).symm,
        fun _ _ _ _ hopen _ => ?_, fun _ => rfl⟩
      cases hopen.symm.trans hcall
  · rcases HandlerDescriptors.change_cases hchange with ⟨f, hpos, hfree, rfl⟩ | ⟨f, k, hopen, hother, rfl⟩
    · exact ⟨hk.opened hpos hfree, [], (List.append_nil _).symm, fun _ _ _ _ _ heq => (by cases heq), fun _ => rfl⟩
    · exact ⟨hk.closed_other hopen hother, [], (List.append_nil _).symm, fun _ _ _ _ _ heq => (by cases heq),
        fun _ => rfl⟩

/-- A whole run: the handler's own are those from the start if and only if no `open` of the run gives a descriptor. -/
theorem run (hk : Keeps fd c h) (hrun : Run (HostedHandler.step o) (fun _ _ => True) h actions last) :
    Keeps fd c last ∧ ∃ more, last.world.own = h.world.own ++ more ∧
      (more = [] ↔ Run.Along (HostedHandler.step o) (fun h a _ => OpensNothing o h a) h actions) := by
  induction hrun with
  | nil h => exact ⟨hk, [], (List.append_nil _).symm, fun _ => trivial, fun _ => rfl⟩
  | @cons h middle last a actions allowed accepted tail ih =>
    obtain ⟨hmiddle, first, hfirst, hnothing⟩ := hk.step accepted
    obtain ⟨hlast, rest, hrest, halong⟩ := ih hmiddle
    refine ⟨hlast, first ++ rest, by rw [hrest, hfirst, List.append_assoc], ?_⟩
    rw [Run.along_cons accepted, List.append_eq_nil_iff, hnothing, halong]

end Keeps

theorem Keeps.start {d : HandlerDescriptors} {buffer rwBuffer : Mem} {file : CInt} {size : SizeT w} (hd : d.Starts fd) :
    Keeps fd (d.table fd) ⟨BinaryHandler.start o fd buffer file size rwBuffer, d⟩ where
  fd_eq := rfl
  valid := hd.accepted
  numbered := hd.numbered
  own_lt k hmem := by
    have hmem' : k ∈ d.own := hmem
    rw [hd.own, Option.mem_toList] at hmem'
    exact hd.numbered fd k hmem'
  nodup := by
    show d.own.Nodup
    rw [hd.own]
    cases d.table fd <;> simp
  connection k hc := by
    show k ∈ d.own
    rw [hd.own, hc]
    exact List.mem_singleton_self k
  running _ := ⟨rfl, hd.closed⟩
  returned hret := by cases hret

end

/-- When the handler returns, everything that it opened and its connection have been closed exactly once if and only if
    no `open` of the run gave a descriptor. -/
theorem closedOnce_iff_opensNothing {w : Word} (o : ByteOrder) {fd : CInt} {d : HandlerDescriptors} (hd : d.Starts fd)
    (buffer : Mem) (file : CInt) (size : SizeT w) (rwBuffer : Mem) {actions : List HandlerAction}
    {last : HostedHandler w}
    (hrun : Run (HostedHandler.step o) (fun _ _ => True) ⟨BinaryHandler.start o fd buffer file size rwBuffer, d⟩
      actions last)
    (hret : last.program.pc = .returned) :
    last.world.ClosedOnce ↔ Run.Along (HostedHandler.step o) (fun h a _ => h.OpensNothing o a)
      ⟨BinaryHandler.start o fd buffer file size rwBuffer, d⟩ actions := by
  obtain ⟨hlast, more, hown, halong⟩ := (Keeps.start hd).run hrun
  have hclosed := hlast.returned hret
  have hnodup := hlast.nodup
  have hsplit : last.world.own = (d.table fd).toList ++ more := hown.trans (congrArg (· ++ more) hd.own)
  rw [← halong, HandlerDescriptors.ClosedOnce, hclosed]
  constructor
  · intro hall
    cases more with
    | nil => rfl
    | cons k more =>
      have hmem : k ∈ last.world.own := by
        rw [hsplit]
        simp
      have hcount := hall k hmem
      rw [List.count_singleton] at hcount
      -- A file is closed only where it is the connection, which it is not.
      have hconnection : d.table fd = some k := by
        by_contra hne
        simp [hne] at hcount
      rw [hsplit, hconnection] at hnodup
      simp at hnodup
  · rintro rfl k hmem
    rw [hsplit, List.append_nil, Option.mem_toList] at hmem
    rw [Option.mem_def.mp hmem]
    simp

/-! ## One transfer -/

/-- Descriptor 3, of the connection, is the only one in use. -/
def oneConnection : HandlerDescriptors := ⟨fun fd => if fd = 3 then some 0 else none, 1, [0], []⟩

/-- The name `f` arrives, `open` gives `fd`, and the connection is lost. -/
def nameThenLost (fd : Int) : List HandlerAction :=
  [.got (.ok [2, 0, 0, 0]), .got (.ok [102, 0]), .answered fd, .got (.error ⟨103, by decide⟩), .answered 0]

def handlerOfThree : HostedHandler .w32 := ⟨BinaryHandler.start .little 3 (fun _ => 0) 0 0 (fun _ => 0), oneConnection⟩

/-- The file cannot be opened, and the connection's descriptor is closed. -/
theorem closedOnce_iff_opensNothing_failed : ∃ last,
    Run (HostedHandler.step .little) (fun _ _ => True) handlerOfThree (nameThenLost (-1)) last ∧
    last.world.closed = [some 0] ∧
      last.world.ClosedOnce := by
  have hd : oneConnection.Starts 3 := by
    refine ⟨fun _ => rfl, fun fd k hk => ?_, rfl, rfl⟩
    simp only [oneConnection, Option.ite_none_right_eq_some] at hk
    exact (Option.some.inj hk.2) ▸ Nat.one_pos
  obtain ⟨last, hrun, hret, hclosed⟩ : ∃ last, Run (HostedHandler.step .little) (fun _ _ => True) handlerOfThree
      (nameThenLost (-1)) last ∧ last.program.pc = .returned ∧ last.world.closed = [some 0] :=
    ⟨_, .of_foldlM rfl, rfl, rfl⟩
  refine ⟨last, hrun, hclosed, (closedOnce_iff_opensNothing .little hd _ 0 0 _ hrun hret).mpr ?_⟩
  rintro s₁ h₁
  refine ⟨fun _ _ _ _ heq => (by cases heq), ?_⟩
  rintro s₂ h₂
  refine ⟨fun _ _ _ _ heq => (by cases heq), ?_⟩
  rintro s₃ h₃
  refine ⟨fun _ _ _ _ heq => (by cases heq; rfl), ?_⟩
  rintro s₄ h₄
  refine ⟨fun _ _ _ _ heq => (by cases heq), ?_⟩
  rintro s₅ h₅
  refine ⟨fun _ _ _ hcall _ => ?_, trivial⟩
  -- the last answer is that of `close`
  cases h₁
  cases h₂
  cases h₃
  cases h₄
  cases hcall

/-- The file is opened as descriptor 4, and is not closed. -/
theorem not_closedOnce_opened : ∃ last,
    Run (HostedHandler.step .little) (fun _ _ => True) handlerOfThree (nameThenLost 4) last ∧
    last.program.pc = .returned ∧
      ¬last.world.ClosedOnce :=
  ⟨_, .of_foldlM rfl, rfl, by decide⟩

end HostedHandler

end Dom0
