import Dom0.Theorems.Descriptors

/-! Directories and files on the client's side. `get_entry` chooses the class of the new object by the mode that `open`
hands back, and `fs_srv` hands back the mode that it was sent: what was opened has no say in it. -/

namespace Dom0

section
variable {w : Word} {E : Ipc w} {σ : Type}

/-- A call of `open` on the file system below the server. -/
structure Opening where
  path : List UInt8
  flags : CInt
  mode : ModeT

/-- The call that a `get_entry` comes down to. -/
def L4fsDir.opening (W : World E (Server σ)) (name : CString) (flags : CInt) (mode : ModeT) : Opening :=
  let a := L4fs.openArrives W name (if name.bytes = [] then flags ||| oDirectory else flags) mode
  ⟨tmpDir ++ a.1.bytes, a.2.1, a.2.2⟩

/-- The object is an `L4fs_dir` where its descriptor is one of a directory, and an `L4fs_file` where it is not. -/
def File.Classified (isDir : σ → CInt → Bool) (fs : σ) : File → Prop
  | .dir fh _ => isDir fs fh = true
  | .file fh => isDir fs fh = false

/-- The class that `get_entry` chooses. -/
def File.ofMode (mode : ModeT) (fd : CInt) : File := if sIsdir mode then .dir fd 0 else .file fd

theorem File.classified_ofMode {isDir : σ → CInt → Bool} {fs : σ} {mode : ModeT} {fd : CInt} :
    (ofMode mode fd).Classified isDir fs ↔ isDir fs fd = sIsdir mode := by
  rw [ofMode]
  cases sIsdir mode <;> exact Iff.rfl

section
variable {B : Backing E σ} {d : σ → CInt → σ × CInt × Bool} {W : World E (Server σ)} {name : CString} {flags : CInt}
  {mode : ModeT}

theorem L4fsDir.opening_w32 {E : Ipc .w32} {W : World E (Server σ)} (hn : name.strlen + 1 ≤ maxPathSize .w32) :
    opening W name flags mode = ⟨tmpDir ++ name.bytes, if name.bytes = [] then flags ||| oDirectory else flags,
    mode⟩ := by
  rw [opening, L4fs.openArrives_w32 _ mode hn]

/-- The object that a `get_entry` makes is one for the descriptor that the file system opens, of the class that the mode
    says. -/
theorem L4fsDir.getEntry_eq (flags : CInt) (mode : ModeT) (hn : name.strlen + 1 ≤ maxPathSize w) :
    let o := opening W name flags mode
    let r := getEntry (Server.handler B d) W true name flags mode
    r.1.fs = (B.open W.fs o.path o.flags o.mode).1 ∧
      match (B.open W.fs o.path o.flags o.mode).2 with
      | .ok fd => r.2 = (0, some (File.ofMode o.mode fd))
      | .error _ => r.2 = (-1, none) := by
  obtain ⟨hobj, hret⟩ := Prod.ext_iff.mp (L4fs.open_eq_arriving (h := Server.handler B d) (W := W)
    (if name.bytes = [] then flags ||| oDirectory else flags) mode hn)
  simp only [opening, getEntry]
  generalize L4fs.openArrives W name _ mode = a at hobj hret
  generalize L4fs.open _ W name _ mode = r at hobj hret
  simp only [Server.handler_open, Server.open, Server.getActualPath_path, Server.getActualPath_fs] at hobj hret
  have hfs : r.1.fs = (B.open W.fs (tmpDir ++ a.1.bytes) a.2.1 a.2.2).1 := by
    rw [World.fs, hobj, Server.result_fs]
    rfl
  rw [show W.svr.obj.fs = W.fs from rfl] at hret
  cases hopen : B.open W.fs (tmpDir ++ a.1.bytes) a.2.1 a.2.2 with
  | mk fs res =>
    rw [hopen] at hfs hret
    cases res with
    | error e =>
      have hminus : r.2 = (-1, a.2.2) := hret
      rw [hminus, if_pos (show (-1 : CInt).toInt < 0 by decide)]
      exact ⟨hfs, rfl⟩
    | ok fd =>
      have hfd : r.2 = (fd, a.2.2) := hret
      rw [hfd, if_neg (Int.not_lt.mpr (B.open_nonneg hopen)), if_pos trivial]
      exact ⟨hfs, rfl⟩

/-- The objects that `get_entry` makes are of the right class exactly where the mode that reaches the server says what
    it opens. -/
theorem L4fsDir.getEntry_classified_iff (B : Backing E σ) (d : σ → CInt → σ × CInt × Bool) (isDir : σ → CInt → Bool)
    (W : World E (Server σ)) (name : CString) (flags : CInt) (mode : ModeT) :
    (∀ W' f, getEntry (Server.handler B d) W true name flags mode = (W', 0, some f) → f.Classified isDir W'.fs) ↔
      (name.strlen + 1 ≤ maxPathSize w → ∀ fs fd,
        B.open W.fs (opening W name flags mode).path (opening W name flags mode).flags
        (opening W name flags mode).mode =
          (fs, .ok fd) → isDir fs fd = sIsdir (opening W name flags mode).mode) := by
  by_cases hn : name.strlen + 1 ≤ maxPathSize w
  · obtain ⟨hfs, hres⟩ := getEntry_eq (B := B) (d := d) (W := W) flags mode hn
    simp only [hn, true_implies]
    generalize opening W name flags mode = o at hfs hres
    generalize getEntry _ W true name flags mode = r at hfs hres
    constructor
    · intro hall fs fd hopen
      rw [hopen] at hfs hres
      have hclass := hall r.1 _ (Prod.ext rfl hres)
      rw [hfs] at hclass
      exact File.classified_ofMode.mp hclass
    · rintro hmode W' f rfl
      cases hopen : B.open W.fs o.path o.flags o.mode with
      | mk fs res =>
        rw [hopen] at hfs hres
        cases res with
        | error e => cases hres
        | ok fd =>
          obtain ⟨-, hobject⟩ := Prod.ext_iff.mp hres
          obtain rfl := Option.some.inj hobject
          rw [hfs]
          exact File.classified_ofMode.mpr (hmode fs fd hopen)
  · have hlong : L4fs.open (Server.handler B d) W name (if name.bytes = [] then flags ||| oDirectory else flags) mode =
        (W, -l4Enametoolong, mode) := by
      simp [L4fs.open, L4fs.tooLong_of_not_fits hn]
    refine ⟨fun _ hfits => absurd hfits hn, fun _ W' f hmade => ?_⟩
    rw [getEntry, hlong] at hmade
    cases hmade

end

end

/-! ### Opening the root directory -/

/-- `get_entry("", O_RDONLY, 0)` on a file system that has nothing but directories: the root directory becomes an
    `L4fs_file`. -/
theorem L4fsDir.rootDir_not_classified :
    ∃ W' : World Ipc.x86 (Server Bool), getEntry singleFdSvr singleFdWorld true rootName 0 0 = (W', 0, some (.file 3)) ∧
      ¬(File.file 3).Classified (fun _ _ => true) W'.fs := by
  obtain ⟨-, hres⟩ := getEntry_eq (B := singleFd Ipc.x86) (d := fun s _ => (s, 0, false)) (W := singleFdWorld)
    0 0 (show rootName.strlen + 1 ≤ maxPathSize .w32 by decide)
  rw [opening_w32 (by decide)] at hres
  exact ⟨_, Prod.ext rfl hres, fun hclass => Bool.noConfusion (show true = false from hclass)⟩

/-- With `S_IFDIR` in the mode it becomes an `L4fs_dir`. -/
example : ∃ W' : World Ipc.x86 (Server Bool),
    L4fsDir.getEntry singleFdSvr singleFdWorld true rootName 0 0o040000 = (W', 0, some (.dir 3 0)) := by
  obtain ⟨-, hres⟩ := L4fsDir.getEntry_eq (B := singleFd Ipc.x86) (d := fun s _ => (s, 0, false)) (W := singleFdWorld)
    0 0o040000 (show rootName.strlen + 1 ≤ maxPathSize .w32 by decide)
  rw [L4fsDir.opening_w32 (by decide)] at hres
  exact ⟨_, Prod.ext rfl hres⟩

end Dom0
