import Dom0.Libfs.Clients
import Dom0.Theorems.RoundTrip
import Mathlib.Data.Set.Function

/-! # The descriptors of the server

Clients mount the file system, open entries, close and destroy the objects that they get. As long as no
allocation of such an object fails, the descriptors that the server has open for its clients are those of
the live objects, one for each. An allocation that fails behind a successful `open` leaves a descriptor that
nothing will ever close, and `mount` then even reports success. -/

namespace Dom0
open Marshal

/-- The allocation of the client's object succeeds, if it comes to that. -/
def ClientOp.Allocates : ClientOp → Prop
  | .mount _ env _ _ => env.alloc = .object
  | .getEntry _ alloc _ _ _ _ => alloc = true
  | _ => True

section
variable {w : Word} {E : Ipc w} {σ : Type}

/-- What the server's file system calls do to the descriptors of the server's process. -/
structure Descriptors (B : Backing E σ) where
  fds : σ → Set CInt
  open_ok : ∀ {s path flags mode s' fd}, B.open s path flags mode = (s', .ok fd) → fd ∉ fds s ∧
    fds s' = insert fd (fds s)
  open_error : ∀ {s path flags mode s' e}, B.open s path flags mode = (s', .error e) → fds s' = fds s
  close_fds : ∀ {s fd}, fd ∈ fds s → fds (B.close s fd).1 = fds s \ {fd}

/-! ## One to one -/

/-- The `_fh` of an object, and `-1` where there is none. -/
def Clients.fh (s : Clients E σ) (o : ObjId) : CInt := ((s.objects o).map File.fh).getD (-1)

/-- The objects that hold a descriptor. -/
def Clients.holders (s : Clients E σ) : Set ObjId := { o | 0 ≤ (s.fh o).toInt }

section Match
variable {B : Backing E σ} (D : Descriptors B)

/-- The descriptors of the server are those it had before, `base`, and one for each object that holds one. -/
structure Matched (base : Set CInt) (s : Clients E σ) : Prop where
  base_le : base ⊆ D.fds s.world.fs
  bijOn : Set.BijOn s.fh s.holders (D.fds s.world.fs \ base)

/-- What a step does and reports. An operation that makes an object and reports an error leaves the
    descriptors as they were; a `mount` that reports 0 has made a directory whose descriptor is open. A close
    or a destruction closes the descriptor of its own object, which is open and which no other object holds;
    an object that holds none closes none. -/
def Clean (s : Clients E σ) (op : ClientOp) (s' : Clients E σ) (ret : CInt) : Prop :=
  match op with
  | .mount client _ _ addr =>
    (ret ≠ 0 → D.fds s'.world.fs = D.fds s.world.fs) ∧
      (ret = 0 → ∃ fh pos, s'.objects ⟨client, addr⟩ = some (.dir fh pos) ∧ fh ∈ D.fds s'.world.fs)
  | .getEntry _ _ _ _ _ _ => ret ≠ 0 → D.fds s'.world.fs = D.fds s.world.fs
  | .close o | .destroy o =>
    (o ∈ s.holders → s.fh o ∈ D.fds s.world.fs ∧ (∀ o', s.fh o' = s.fh o → o' = o) ∧
        D.fds s'.world.fs = D.fds s.world.fs \ {s.fh o}) ∧
      (o ∉ s.holders → s'.world = s.world) ∧ o ∉ s'.holders

end Match

/-! ## What the stubs do to the descriptors -/

/-- A call has opened the descriptor `fd`. -/
structure Opens {B : Backing E σ} (D : Descriptors B) (s s' : σ) (fd : CInt) : Prop where
  nonneg : 0 ≤ fd.toInt
  fresh : fd ∉ D.fds s
  fds : D.fds s' = insert fd (D.fds s)

section Stubs
variable {B : Backing E σ} {D : Descriptors B} {d : σ → CInt → σ × CInt × Bool} {W : World E (Server σ)}

theorem Server.open_fds {s : Server σ} {name : CString} {flags : CInt} {mode : ModeT} :
    ((Server.open B s name flags mode).2.1 = -1 ∧ D.fds (Server.open B s name flags mode).1.fs = D.fds s.fs) ∨
      Opens D s.fs (Server.open B s name flags mode).1.fs (Server.open B s name flags mode).2.1 := by
  simp only [Server.open, Server.result_fs, Server.getActualPath_path, Server.getActualPath_fs]
  cases hopen : B.open s.fs (tmpDir ++ name.bytes) flags mode with
  | mk s' r =>
    cases r with
    | ok fd => exact Or.inr ⟨B.open_nonneg hopen, (D.open_ok hopen).1, (D.open_ok hopen).2⟩
    | error e => exact Or.inl ⟨rfl, D.open_error hopen⟩

theorem open_fds (name : CString) (flags : CInt) (mode : ModeT) :
    ((L4fs.open (Server.handler B d) W name flags mode).2.1.toInt < 0 ∧
        D.fds (L4fs.open (Server.handler B d) W name flags mode).1.fs = D.fds W.fs) ∨
      Opens D W.fs (L4fs.open (Server.handler B d) W name flags mode).1.fs
        (L4fs.open (Server.handler B d) W name flags mode).2.1 := by
  by_cases hn : name.strlen + 1 ≤ maxPathSize w
  · obtain ⟨_, _, _, -, hs, hret⟩ := L4fs.open_eq_decoded (h := Server.handler B d) (W := W) flags mode hn
    simp only [World.fs, hs, hret]
    refine Server.open_fds.imp_left fun h => ⟨?_, h.2⟩
    exact h.1 ▸ (by decide : (-1 : CInt).toInt < 0)
  · have hlong : L4fs.open (Server.handler B d) W name flags mode = (W, -l4Enametoolong, mode) := by
      simp [L4fs.open, L4fs.tooLong_of_not_fits hn]
    rw [hlong]
    exact Or.inl ⟨(by decide : (-l4Enametoolong : CInt).toInt < 0), rfl⟩

theorem close_fds {fd : CInt} (hfd : fd ∈ D.fds W.fs) :
    D.fds (L4fs.close (Server.handler B d) W fd).1.fs = D.fds W.fs \ {fd} := by
  simp only [World.fs, (L4fs.close_eq (h := Server.handler B d) (W := W) fd).1]
  simp only [Server.handler, Server.close, Server.result_fs]
  exact D.close_fds hfd

theorem init_fs : (L4fs.init (Server.handler B d) W).1.fs = W.fs := by
  simp only [World.fs, L4fs.init_eq.1]
  rfl

/-- With its allocation in order, `get_entry` opens a descriptor for the object it makes, or makes none. -/
theorem getEntry_fds (name : CString) (flags : CInt) (mode : ModeT) :
    let r := L4fsDir.getEntry (Server.handler B d) W true name flags mode
    (r.2.1 ≠ 0 ∧ r.2.2 = none ∧ D.fds r.1.fs = D.fds W.fs) ∨
      (r.2.1 = 0 ∧ ∃ f, r.2.2 = some f ∧ Opens D W.fs r.1.fs f.fh) := by
  have hopen := open_fds (D := D) (d := d) (W := W) name (if name.bytes = [] then flags ||| oDirectory else flags) mode
  simp only [L4fsDir.getEntry]
  generalize L4fs.open _ W name _ mode = r at hopen
  rcases hopen with ⟨hneg, hfds⟩ | hopens
  · rw [if_pos hneg]
    exact Or.inl ⟨fun h => by rw [h] at hneg; exact absurd hneg (by decide), rfl, hfds⟩
  · rw [if_neg (Int.not_lt.mpr hopens.nonneg), if_pos trivial]
    refine Or.inr ⟨rfl, _, rfl, ?_⟩
    split <;> exact hopens

theorem mount_fds (env : MountEnv) (source : CString) (halloc : env.alloc = .object) :
    let r := mount (Server.handler B d) W env source
    (r.2.1 ≠ 0 ∧ r.2.2 = none ∧ D.fds r.1.fs = D.fds W.fs) ∨
      (r.2.1 = 0 ∧ ∃ fh pos, r.2.2 = some (.dir fh pos) ∧ Opens D W.fs r.1.fs fh) := by
  have ne_zero : ∀ {v : CInt}, v.toInt < 0 → v ≠ 0 := fun h h0 => by rw [h0] at h; exact absurd h (by decide)
  have hopen := open_fds (D := D) (d := d) (W := (L4fs.init (Server.handler B d) W).1) source oDirectory 0
  have hinit : (L4fs.init (Server.handler B d) W).1.fs = W.fs := init_fs
  simp only [mount]
  cases env.query with
  | some e => exact Or.inl ⟨ne_zero e.2, rfl, rfl⟩
  | none =>
    simp only
    generalize L4fs.init _ W = i at hopen hinit
    rw [hinit] at hopen
    split
    · next hneg => exact Or.inl ⟨ne_zero hneg, rfl, by rw [hinit]⟩
    · cases env.attach with
      | some e => exact Or.inl ⟨ne_zero e.2, rfl, by rw [hinit]⟩
      | none =>
        simp only [halloc]
        generalize L4fs.open _ i.1 source _ _ = r at hopen
        rcases hopen with ⟨hneg, hfds⟩ | hopens
        · rw [if_pos hneg]
          exact Or.inl ⟨ne_zero hneg, rfl, hfds⟩
        · rw [if_neg (Int.not_lt.mpr hopens.nonneg)]
          exact Or.inr ⟨rfl, _, _, rfl, hopens⟩

end Stubs

/-! ## The steps of a run -/

section Steps
variable {B : Backing E σ} {D : Descriptors B} {d : σ → CInt → σ × CInt × Bool} {s s' : Clients E σ}
  {base : Set CInt} {o : ObjId} {f : File}

theorem Clients.fh_of_none (h : s.objects o = none) : s.fh o = -1 := by simp [fh, h]

theorem Clients.fh_of_some (h : s.objects o = some f) : s.fh o = f.fh := by simp [fh, h]

theorem Clients.not_holder (h : s.fh o = -1) : o ∉ s.holders := by
  change ¬0 ≤ (s.fh o).toInt
  rw [h]
  decide

/-- An object that nobody had holds the descriptor that was opened for it. -/
theorem Matched.add {W' : World E (Server σ)} (hm : Matched D base s) (hfree : s.objects o = none)
    (hopens : Opens D s.world.fs W'.fs f.fh) : Matched D base ⟨W', Function.update s.objects o (some f)⟩ := by
  have hnew : Clients.fh ⟨W', Function.update s.objects o (some f)⟩ o = f.fh := by simp [Clients.fh]
  have hold : Set.EqOn s.fh (Clients.fh ⟨W', Function.update s.objects o (some f)⟩) s.holders := fun o' ho' => by
    have hne : o' ≠ o := by
      rintro rfl
      exact Clients.not_holder (Clients.fh_of_none hfree) ho'
    simp [Clients.fh, hne]
  have hholders : Clients.holders ⟨W', Function.update s.objects o (some f)⟩ = insert o s.holders := by
    ext o'
    by_cases heq : o' = o
    · subst heq
      simp [Clients.holders, hnew, hopens.nonneg]
    · simp [Clients.holders, Clients.fh, heq]
  have hfresh : f.fh ∉ base := fun hb => hopens.fresh (hm.base_le hb)
  have hfds : D.fds W'.fs \ base = insert f.fh (D.fds s.world.fs \ base) := by
    rw [hopens.fds, Set.insert_sdiff_of_notMem _ hfresh]
  refine ⟨fun fd hfd => ?_, ?_⟩
  · rw [hopens.fds]
    exact Set.mem_insert_of_mem _ (hm.base_le hfd)
  · rw [hholders, hfds, ← hnew]
    exact (hm.bijOn.congr hold).insert fun h => hopens.fresh (hnew ▸ h.1)

theorem Matched.keep {W' : World E (Server σ)} (hm : Matched D base s) (hfree : s.objects o = none)
    (hfds : D.fds W'.fs = D.fds s.world.fs) : Matched D base ⟨W', Function.update s.objects o none⟩ := by
  have hobjects : Function.update s.objects o none = s.objects := by
    rw [← hfree, Function.update_eq_self]
  rw [hobjects]
  exact ⟨by rw [hfds]; exact hm.base_le, by rw [hfds]; exact hm.bijOn⟩

/-- An object that holds a descriptor gives it up when the descriptor is closed. -/
theorem Matched.remove {W' : World E (Server σ)} {new : Option File} (hm : Matched D base s) (ho : o ∈ s.holders)
    (hnew : Clients.fh ⟨W', Function.update s.objects o new⟩ o = -1)
    (hfds : D.fds W'.fs = D.fds s.world.fs \ {s.fh o}) : Matched D base ⟨W', Function.update s.objects o new⟩ := by
  have hholders : Clients.holders ⟨W', Function.update s.objects o new⟩ = s.holders \ {o} := by
    ext o'
    by_cases heq : o' = o
    · subst heq
      simp [Clients.not_holder hnew]
    · simp [Clients.holders, Clients.fh, heq]
  have hold : Set.EqOn s.fh (Clients.fh ⟨W', Function.update s.objects o new⟩) (s.holders \ {o}) := fun o' ho' => by
    simp [Clients.fh, show o' ≠ o from ho'.2]
  have hmem := hm.bijOn.mapsTo ho
  refine ⟨fun fd hfd => ?_, ?_⟩
  · rw [hfds]
    exact ⟨hm.base_le hfd, fun heq => hmem.2 (heq ▸ hfd)⟩
  · rw [hholders, hfds, sdiff_right_comm]
    exact (hm.bijOn.sdiff_singleton ho).congr hold

/-- `close` on the object at `o`, and what becomes of the descriptors. -/
theorem Matched.close_cases (hm : Matched D base s) (ho : s.objects o = some f) :
    let r := L4fsFileBase.close (Server.handler B d) s.world f
    (o ∈ s.holders → s.fh o ∈ D.fds s.world.fs ∧ D.fds r.1.fs = D.fds s.world.fs \ {s.fh o}) ∧
      (o ∉ s.holders → r.1 = s.world) ∧ r.2.2.fh = -1 := by
  have hfh : s.fh o = f.fh := Clients.fh_of_some ho
  by_cases hnonneg : 0 ≤ f.fh.toInt
  · have hholder : o ∈ s.holders := by
      change 0 ≤ (s.fh o).toInt
      rw [hfh]
      exact hnonneg
    have hopen : f.fh ∈ D.fds s.world.fs := hfh ▸ (hm.bijOn.mapsTo hholder).1
    simp only [L4fsFileBase.close, if_pos hnonneg, File.fh_setFh, hfh]
    exact ⟨fun _ => ⟨hopen, close_fds hopen⟩, fun h => absurd hholder h, trivial⟩
  · have hnot : o ∉ s.holders := by
      change ¬0 ≤ (s.fh o).toInt
      rw [hfh]
      exact hnonneg
    simp only [L4fsFileBase.close, if_neg hnonneg, File.fh_setFh]
    exact ⟨fun h => absurd h hnot, fun _ => trivial, trivial⟩

/-- Closing or destroying the object at `o` leaves `new` there, which holds no descriptor. -/
theorem Matched.step_close {new : Option File} (hm : Matched D base s) (ho : s.objects o = some f)
    (hnew :
      Clients.fh ⟨(L4fsFileBase.close (Server.handler B d) s.world f).1, Function.update s.objects o new⟩ o = -1) :
    let s' : Clients E σ := ⟨(L4fsFileBase.close (Server.handler B d) s.world f).1, Function.update s.objects o new⟩
    Matched D base s' ∧
      (o ∈ s.holders → s.fh o ∈ D.fds s.world.fs ∧ (∀ o', s.fh o' = s.fh o → o' = o) ∧
        D.fds s'.world.fs = D.fds s.world.fs \ {s.fh o}) ∧
      (o ∉ s.holders → s'.world = s.world) ∧ o ∉ s'.holders := by
  obtain ⟨hheld, hnone, -⟩ := hm.close_cases (d := d) ho
  refine ⟨?_, fun h => ⟨(hheld h).1, fun o' heq => ?_, (hheld h).2⟩, hnone, Clients.not_holder hnew⟩
  · by_cases h : o ∈ s.holders
    · exact hm.remove h hnew (hheld h).2
    · -- Nothing is closed, and the object holds as little as before.
      have hsame : Clients.holders ⟨(L4fsFileBase.close (Server.handler B d) s.world f).1,
          Function.update s.objects o new⟩ = s.holders := by
        ext o'
        by_cases heq : o' = o
        · subst heq
          simp [h, Clients.not_holder hnew]
        · simp [Clients.holders, Clients.fh, heq]
      refine ⟨by rw [hnone h]; exact hm.base_le, ?_⟩
      rw [hsame, hnone h]
      refine hm.bijOn.congr fun o' ho' => ?_
      have hne : o' ≠ o := fun heq => h (heq ▸ ho')
      simp [Clients.fh, hne]
  · refine hm.bijOn.injOn ?_ h heq
    change 0 ≤ (s.fh o').toInt
    rw [heq]
    exact h

/-- A step whose allocation succeeds keeps the descriptors matched, and is clean. -/
theorem Clients.step_matched {op : ClientOp} {ret : CInt} (hm : Matched D base s) (hop : op.Allocates)
    (accepted : s.step (Server.handler B d) op = some (s', ret)) : Matched D base s' ∧ Clean D s op s' ret := by
  cases op with
  | mount client env source addr =>
    simp only [step] at accepted
    split at accepted
    · next hfree =>
      cases accepted
      -- An open that fails gives no object and no descriptor, any other one of each.
      rcases mount_fds (D := D) (d := d) (W := s.world) env source hop with
        ⟨hret, hobj, hfds⟩ | ⟨hret, fh, pos, hobj, hopens⟩
      · rw [hobj]
        exact ⟨hm.keep hfree hfds, fun _ => hfds, fun h => absurd h hret⟩
      · rw [hobj]
        refine ⟨hm.add hfree hopens, fun h => absurd hret h, fun _ => ⟨fh, pos, by simp, ?_⟩⟩
        rw [hopens.fds]
        exact Set.mem_insert _ _
    · cases accepted
  | getEntry dir alloc name flags mode addr =>
    obtain rfl : alloc = true := hop
    simp only [step] at accepted
    split at accepted
    · split at accepted
      · next hfree =>
        cases accepted
        rcases getEntry_fds (D := D) (d := d) (W := s.world) name flags mode with
          ⟨hret, hobj, hfds⟩ | ⟨hret, f, hobj, hopens⟩
        · rw [hobj]
          exact ⟨hm.keep hfree hfds, fun _ => hfds⟩
        · rw [hobj]
          exact ⟨hm.add hfree hopens, fun h => absurd hret h⟩
      · cases accepted
    · cases accepted
  | close o =>
    obtain ⟨f, ho, hs⟩ := Option.map_eq_some_iff.mp accepted
    cases hs
    refine hm.step_close ho ?_
    simp [fh, (hm.close_cases (d := d) ho).2.2]
  | destroy o =>
    obtain ⟨f, ho, hs⟩ := Option.map_eq_some_iff.mp accepted
    cases hs
    refine hm.step_close ho ?_
    simp [fh]

/-- In every state that clients reach without a failed allocation, the descriptors that the server has open
    for them are matched one to one with the objects that hold one, no object sends a descriptor that another
    one holds, and every further such step is clean. -/
theorem Clients.run_matched (D : Descriptors B) (d : σ → CInt → σ × CInt × Bool) (W : World E (Server σ))
    (ops : List ClientOp) (s : Clients E σ) (run : Run (Server.handler B d) (.start W) ops s)
    (hops : ∀ op ∈ ops, op.Allocates) :
    Matched D (D.fds W.fs) s ∧ (∀ o, ∀ o' ∈ s.holders, s.fh o = s.fh o' → o = o') ∧
      ∀ op s' ret, op.Allocates → s.step (Server.handler B d) op = some (s', ret) → Clean D s op s' ret := by
  have hstart : Matched D (D.fds W.fs) (.start W : Clients E σ) := by
    have hnone : (Clients.start W : Clients E σ).holders = ∅ := Set.eq_empty_of_forall_notMem fun o =>
      not_holder (fh_of_none rfl)
    refine ⟨subset_rfl, ?_⟩
    rw [hnone, show D.fds (Clients.start W : Clients E σ).world.fs \ D.fds W.fs = ∅ from sdiff_self]
    exact Set.bijOn_empty _
  have hlast : Matched D (D.fds W.fs) s := by
    generalize Clients.start W = s₀ at run hstart
    induction run with
    | nil => exact hstart
    | cons accepted tail ih =>
      exact ih (fun op hop => hops op (List.mem_cons_of_mem _ hop))
        (step_matched hstart (hops _ List.mem_cons_self) accepted).1
  refine ⟨hlast, fun o o' ho' heq => hlast.bijOn.injOn ?_ ho' heq,
    fun op s' ret hop accepted => (step_matched hlast hop accepted).2⟩
  change 0 ≤ (s.fh o).toInt
  rw [heq]
  exact ho'

end Steps

/-! ### A file system with one descriptor -/

/-- A file system that has descriptor 3 to give away, and nothing else. -/
def singleFd (E : Ipc w) : Backing E Bool where
  «open» s _ _ _ := if s then (s, .error 24) else (true, .ok 3)
  mkdir s _ _ := (s, .error 1)
  rename s _ _ := (s, .error 1)
  unlink s _ := (s, .error 1)
  rmdir s _ := (s, .error 1)
  close s fd := if s ∧ fd = 3 then (false, .ok ()) else (s, .error 9)
  pread64 _ _ _ _ := .error 1
  pwrite64 s _ _ _ := (s, .error 1)
  fstat64 _ _ := .error 1
  open_nonneg := by
    intro s path flags mode s' fd h
    split at h <;> cases h
    decide
  pread64_le h := by cases h
  pwrite64_le h := by cases h

/-- Its descriptor is open or not. -/
def singleFdDescriptors (E : Ipc w) : Descriptors (singleFd E) where
  fds s := { fd | s = true ∧ fd = 3 }
  open_ok := by
    intro s path flags mode s' fd h
    simp only [singleFd] at h
    split at h <;> cases h
    next hs => exact ⟨fun hin => hs hin.1, by ext; simp [hs]⟩
  open_error := by
    intro s path flags mode s' e h
    simp only [singleFd] at h
    split at h <;> cases h
    rfl
  close_fds := by
    rintro s fd ⟨hs, rfl⟩
    ext
    simp [singleFd, hs]

/-- The server on that file system, for the 4-byte build. -/
def singleFdSvr : L4fsSvr Ipc.x86 (Server Bool) := Server.handler (singleFd Ipc.x86) fun s _ => (s, 0, false)

/-- Nothing was called yet. -/
def singleFdWorld : World Ipc.x86 (Server Bool) :=
  ⟨.start (.start false fun _ => 0), fun _ => ⟨fun _ => 0, fun _ => 0, zeroStat Ipc.x86⟩, []⟩

/-- The root directory. -/
def rootName : CString := ⟨[], List.not_mem_nil⟩

/-- The mount of client 0 opens descriptor 3, whatever becomes of the object. -/
theorem mount_singleFd (alloc : Alloc) :
    (mount singleFdSvr singleFdWorld ⟨none, none, alloc⟩ rootName).1.fs = true ∧
      (mount singleFdSvr singleFdWorld ⟨none, none, alloc⟩ rootName).2 =
        match alloc with
        | .object => (0, some (.dir 3 0))
        | .null => (0, none)
        | .exception => (-einval, none) := by
  obtain ⟨hinit, hlabel⟩ := L4fs.init_eq (h := singleFdSvr) (W := singleFdWorld)
  obtain ⟨hopen, hret⟩ := L4fs.open_eq (h := singleFdSvr) (W := (L4fs.init singleFdSvr singleFdWorld).1)
    oDirectory 0 (show rootName.strlen + 1 ≤ maxPathSize .w32 by decide)
  have hneg : ¬(L4fs.init singleFdSvr singleFdWorld).2.1.toInt < 0 := by
    rw [hlabel]
    decide
  rw [hinit] at hopen hret
  have hfd : ¬(L4fs.open singleFdSvr (L4fs.init singleFdSvr singleFdWorld).1 rootName oDirectory 0).2.1.toInt < 0 := by
    rw [hret]
    decide
  simp only [mount, if_neg hneg, if_neg hfd]
  cases alloc <;> simp only [World.fs, hopen, hret] <;> exact ⟨rfl, by trivial⟩

/-! ### Two clients -/

/-- A file system that has the descriptors 3, 4 and 5 to give away, the lowest one first. -/
def threeFds (E : Ipc w) : Backing E (List CInt) where
  «open» s _ _ _ :=
    match [3, 4, 5].find? (· ∉ s) with
    | some fd => (fd :: s, .ok fd)
    | none => (s, .error 24)
  mkdir s _ _ := (s, .error 1)
  rename s _ _ := (s, .error 1)
  unlink s _ := (s, .error 1)
  rmdir s _ := (s, .error 1)
  close s fd := if fd ∈ s then (s.filter (· ≠ fd), .ok ()) else (s, .error 9)
  pread64 _ _ _ _ := .error 1
  pwrite64 s _ _ _ := (s, .error 1)
  fstat64 _ _ := .error 1
  open_nonneg := by
    intro s path flags mode s' fd h
    split at h
    · next hfind =>
      cases h
      have hmem : fd = 3 ∨ fd = 4 ∨ fd = 5 := by simpa using List.mem_of_find?_eq_some hfind
      rcases hmem with rfl | rfl | rfl <;> decide
    · cases h
  pread64_le h := by cases h
  pwrite64_le h := by cases h

def threeFdsDescriptors (E : Ipc w) : Descriptors (threeFds E) where
  fds s := { fd | fd ∈ s }
  open_ok := by
    intro s path flags mode s' fd h
    simp only [threeFds] at h
    split at h
    · next hfind =>
      cases h
      have hfree : fd ∉ s := by simpa using List.find?_some hfind
      exact ⟨hfree, by ext; simp⟩
    · cases h
  open_error := by
    intro s path flags mode s' e h
    simp only [threeFds] at h
    split at h
    · cases h
    · cases h
      rfl
  close_fds := by
    intro s fd h
    ext
    simp [threeFds, show fd ∈ s from h]

def threeFdsSvr : L4fsSvr Ipc.x86 (Server (List CInt)) := Server.handler (threeFds Ipc.x86) fun s _ => (s, 0, false)

def threeFdsWorld : World Ipc.x86 (Server (List CInt)) :=
  ⟨.start (.start [] fun _ => 0), fun _ => ⟨fun _ => 0, fun _ => 0, zeroStat Ipc.x86⟩, []⟩

/-- Two clients mount the file system and open a file each, until no descriptor is left; then the second one gets the
    descriptor that the first one closed. -/
def twoClients : List ClientOp :=
  [.mount 0 ⟨none, none, .object⟩ rootName 0, .getEntry ⟨0, 0⟩ true rootName 0 0 1,
    .mount 1 ⟨none, none, .object⟩ rootName 0,
    .getEntry ⟨1, 0⟩ true rootName 0 0 1, .close ⟨0, 1⟩, .getEntry ⟨1, 0⟩ true rootName 0 0 2]

theorem Clients.Run.of_foldlM {h : L4fsSvr E (Server σ)} {s last : Clients E σ} {ops : List ClientOp}
    (hops : ops.foldlM (fun s op => (s.step h op).map Prod.fst) s = some last) : Run h s ops last := by
  induction ops generalizing s with
  | nil =>
    obtain rfl : s = last := by simpa using hops
    exact .nil s
  | cons op ops ih =>
    rw [List.foldlM_cons, Option.bind_eq_bind, Option.bind_eq_some_iff] at hops
    obtain ⟨middle, hmiddle, htail⟩ := hops
    obtain ⟨⟨s', ret⟩, hstep, rfl⟩ := Option.map_eq_some_iff.mp hmiddle
    exact .cons hstep (ih htail)

theorem twoClients_fhs :
    (twoClients.foldlM (fun s op => (Clients.step threeFdsSvr s op).map Prod.fst) (.start threeFdsWorld)).map
      (fun s : Clients Ipc.x86 (List CInt) =>
      (s.world.fs, [s.fh ⟨0, 0⟩, s.fh ⟨0, 1⟩, s.fh ⟨1, 0⟩, s.fh ⟨1, 1⟩, s.fh ⟨1, 2⟩])) =
      some ([4, 5, 3], [3, -1, 5, -1, 4]) := by decide +kernel

theorem Clients.run_matched_mount : ∃ s : Clients Ipc.x86 (List CInt),
    Run threeFdsSvr (.start threeFdsWorld) twoClients s ∧ s.world.fs = [4, 5, 3] ∧ s.fh ⟨0, 1⟩ = -1 ∧ s.fh ⟨1, 2⟩ = 4 ∧
      Matched (threeFdsDescriptors Ipc.x86) ((threeFdsDescriptors Ipc.x86).fds threeFdsWorld.fs) s ∧
      (∀ o, ∀ o' ∈ s.holders, s.fh o = s.fh o' → o = o') ∧
      ∀ op s' ret, op.Allocates → s.step threeFdsSvr op = some (s', ret) →
      Clean (threeFdsDescriptors Ipc.x86) s op s' ret := by
  obtain ⟨s, hs, hfhs⟩ := Option.map_eq_some_iff.mp twoClients_fhs
  have hrun : Run threeFdsSvr (.start threeFdsWorld) twoClients s := .of_foldlM hs
  simp only [Prod.mk.injEq, List.cons.injEq] at hfhs
  obtain ⟨hfs, -, hclosed, -, -, hagain, -⟩ := hfhs
  refine ⟨s, hrun, hfs, hclosed, hagain, Clients.run_matched (threeFdsDescriptors Ipc.x86) _ threeFdsWorld twoClients s
    hrun ?_⟩
  intro op hop
  simp only [twoClients, List.mem_cons, List.not_mem_nil, or_false] at hop
  rcases hop with rfl | rfl | rfl | rfl | rfl | rfl <;> trivial

/-- The allocation in `mount` returns null: the mount reports 0, no client has an object, and descriptor 3
    stays open. -/
theorem Clients.null_mount_not_matched :
    ∃ s, (Clients.start singleFdWorld).step singleFdSvr (.mount 0 ⟨none, none, .null⟩ rootName 0) = some (s, 0) ∧
      s.objects = (fun _ => none) ∧
      ¬Matched (singleFdDescriptors Ipc.x86) ((singleFdDescriptors Ipc.x86).fds singleFdWorld.fs) s := by
  obtain ⟨hfs, hret⟩ := mount_singleFd .null
  have hobjects : Function.update (fun _ : ObjId => (none : Option File)) ⟨0, 0⟩ none = fun _ => none :=
    Function.update_eq_self _ _
  refine ⟨⟨(mount singleFdSvr singleFdWorld ⟨none, none, .null⟩ rootName).1, fun _ => none⟩, ?_, rfl, fun hm => ?_⟩
  · simp only [step, start, hret, if_true, hobjects]
  · have hopen : (3 : CInt) ∈ (singleFdDescriptors Ipc.x86).fds
        (mount singleFdSvr singleFdWorld ⟨none, none, .null⟩ rootName).1.fs := ⟨hfs, rfl⟩
    obtain ⟨o, ho, -⟩ := hm.bijOn.surjOn ⟨hopen, fun h => Bool.noConfusion h.1⟩
    exact not_holder (fh_of_none rfl) ho

end

end Dom0
