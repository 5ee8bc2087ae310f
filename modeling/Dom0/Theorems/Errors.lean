import Dom0.Libfs.Backend
import Dom0.Theorems.RoundTrip

/-! # Errors of the backing file system

When a file system call of the server fails, the server returns the `-1` of the C library, and every route
from there to the client keeps that value. So a file operation never hides the failure, but it loses its
`errno`: what the client returns is the error code only when that is 1. -/

namespace Dom0
open Marshal

/-- A file operation of a mounted client, with all that it is called with: `alloc` says whether the object of
    a `get_entry` can be allocated, `o` and `fh` are the object it is made on and its `_fh`. -/
inductive FileCall {w : Word} (E : Ipc w)
  | getEntry (alloc : Bool) (name : CString) (flags : CInt) (mode : ModeT)
  | mkdir (name : CString) (mode : ModeT)
  | rmdir (name : CString)
  | unlink (name : CString)
  | rename («from» dst : CString)
  | preadv (fh : CInt) (iov : List (List UInt8)) (p : Off64T)
  | pwritev (fh : CInt) (iov : List (List UInt8)) (p : Off64T)
  | fstat64 (o : File) (buf : Stat64 E)
  | close (o : File)

/-- In the time in which the values of `errno` went from `es` to `es'`, no call failed, or one did and `P`
    holds. -/
def FailedOnce (es es' : List Errno) (P : Prop) : Prop := es' = es ∨ (∃ e, es' = es ++ [e]) ∧ P

theorem FailedOnce.imp {es es' : List Errno} {P Q : Prop} (h : FailedOnce es es' P) (hpq : P → Q) :
    FailedOnce es es' Q :=
  Or.imp_right (And.imp_right hpq) h

theorem FailedOnce.eq_of_not {es es' : List Errno} {P : Prop} (h : FailedOnce es es' P) (hp : ¬P) : es' = es :=
  Or.resolve_right h fun hf => hp hf.2

section
variable {w : Word} {E : Ipc w} {σ : Type}

/-- The values that `errno` was set to in the server. -/
def World.errnos (W : World E (Server σ)) : List Errno := W.svr.obj.errnos

/-- The operation and the value it returns. -/
def FileCall.run (h : L4fsSvr E (Server σ)) (W : World E (Server σ)) : FileCall E → World E (Server σ) × Int
  | .getEntry alloc name flags mode => let r := L4fsDir.getEntry h W alloc name flags mode; (r.1, r.2.1.toInt)
  | .mkdir name mode => let r := L4fsDir.mkdir h W name mode; (r.1, r.2.toInt)
  | .rmdir name => let r := L4fsDir.rmdir h W name; (r.1, r.2.toInt)
  | .unlink name => let r := L4fsDir.unlink h W name; (r.1, r.2.toInt)
  | .rename «from» dst => let r := L4fsDir.rename h W «from» dst; (r.1, r.2.toInt)
  | .preadv fh iov p => let r := L4fsFile.preadv h W fh iov p; (r.1, r.2.1.toInt)
  | .pwritev fh iov p => let r := L4fsFile.pwritev h W fh iov p; (r.1, r.2.toInt)
  | .fstat64 o buf => let r := L4fsFileBase.fstat64 h W o buf; (r.1, r.2.1.toInt)
  | .close o => let r := L4fsFileBase.close h W o; (r.1, r.2.1.toInt)

/-- A file system call failed with `e` in the course of the operation. -/
def FileCall.FailsWith (h : L4fsSvr E (Server σ)) (W : World E (Server σ)) (c : FileCall E) (e : Errno) : Prop :=
  ∃ es, (c.run h W).1.errnos = W.errnos ++ es ∧ e ∈ es

/-! ## The server -/

namespace Server
variable {B : Backing E σ} {s : Server σ} {fh : CInt} {name : CString} {mode : ModeT}

theorem result_errnos {s' : Server σ} {fs : σ} {α : Type} {r : Except Errno α} {ok : α → CInt}
    (h : s'.errnos = s.errnos) :
    FailedOnce s.errnos (s'.result fs r ok).1.errnos ((s'.result fs r ok).2 = -1) := by
  cases r with
  | ok => exact Or.inl h
  | error e => exact Or.inr ⟨⟨e, by rw [← h]; rfl⟩, rfl⟩

theorem open_errnos {flags : CInt} :
    FailedOnce s.errnos (Server.open B s name flags mode).1.errnos ((Server.open B s name flags mode).2.1 = -1) :=
  result_errnos rfl

theorem mkdir_errnos : FailedOnce s.errnos (Server.mkdir B s name mode).1.errnos
    ((Server.mkdir B s name mode).2 = -1) :=
  result_errnos rfl

theorem rename_errnos : FailedOnce s.errnos (Server.rename B s name).1.errnos ((Server.rename B s name).2 = -1) :=
  result_errnos rfl

theorem unlink_errnos : FailedOnce s.errnos (Server.unlink B s name).1.errnos ((Server.unlink B s name).2 = -1) :=
  result_errnos rfl

theorem rmdir_errnos : FailedOnce s.errnos (Server.rmdir B s name).1.errnos ((Server.rmdir B s name).2 = -1) :=
  result_errnos rfl

theorem close_errnos : FailedOnce s.errnos (Server.close B s fh).1.errnos ((Server.close B s fh).2 = -1) :=
  result_errnos rfl

theorem fstat64_errnos {st : Stat64 E} :
    FailedOnce s.errnos (Server.fstat64 B s fh st).1.errnos ((Server.fstat64 B s fh st).2.1 = -1) := by
  unfold Server.fstat64
  split
  · exact Or.inl rfl
  · exact Or.inr ⟨⟨_, rfl⟩, rfl⟩

theorem pread_errnos {size : SizeT w} {offset : Off64T} :
    FailedOnce s.errnos (Server.pread B s fh size offset).1.errnos ((Server.pread B s fh size offset).2 = failed) := by
  unfold Server.pread
  split
  · exact Or.inl rfl
  · exact Or.inr ⟨⟨_, rfl⟩, rfl⟩

theorem pwrite_errnos {size : SizeT w} {offset : Off64T} :
    FailedOnce s.errnos (Server.pwrite B s fh size offset).1.errnos
    ((Server.pwrite B s fh size offset).2 = failed) := by
  simp only [Server.pwrite]
  split
  · exact Or.inl rfl
  · exact Or.inr ⟨⟨_, rfl⟩, rfl⟩

end Server

theorem counted_failed_label : (Reply.counted (w := w) Server.failed []).label = -1 := by
  cases w <;> rfl

/-! ## The way to the client -/

section Calls
variable {B : Backing E σ} {D : σ → CInt → σ × CInt × Bool} {W : World E (Server σ)}

theorem callName_errnos {o : Opcode} (run : Server σ → CString → Server σ × CInt) (name : CString)
    (hrun : ∀ S stack ios, Opcode.ofInt? (readInt ios).1 = some o →
      dispatch E (Server.handler B D) S stack ios = dispatchName E S (readInt ios).2 run)
    (herr : ∀ s name, FailedOnce s.errnos (run s name).1.errnos ((run s name).2 = -1)) :
    FailedOnce W.errnos (L4fs.callName (Server.handler B D) W o name).1.errnos
      ((L4fs.callName (Server.handler B D) W o name).2 = -1) := by
  by_cases hn : name.strlen + 1 ≤ maxPathSize w
  · obtain ⟨hs, hret⟩ := callName_eq (W := W) hn hrun
    simp only [World.errnos, hs, hret]
    exact herr _ _
  · refine Or.inl ?_
    simp [L4fs.callName, L4fs.tooLong_of_not_fits hn]

theorem callTransfer_errnos {o : Opcode} (run : Server σ → CInt → SizeT w → Off64T → Server σ × SSizeT w)
    (fh : CInt) (size : SizeT w) (offset : Off64T)
    (hrun : ∀ S stack ios, Opcode.ofInt? (readInt ios).1 = some o →
      dispatch E (Server.handler B D) S stack ios = dispatchTransfer S (readInt ios).2 run fun _ => [])
    (herr : ∀ s fh size offset, FailedOnce s.errnos (run s fh size offset).1.errnos
      ((run s fh size offset).2 = Server.failed)) :
    FailedOnce W.errnos (L4fs.callTransfer (Server.handler B D) W o fh size offset).1.errnos
      ((L4fs.callTransfer (Server.handler B D) W o fh size offset).2.1 = -1) := by
  by_cases hsize : size.toNat ≤ maxRwBufferSize
  · obtain ⟨hs, hlabel, -⟩ := callTransfer_eq (W := W) (fun _ => []) fh offset hsize (fits_count _) hrun
    simp only [World.errnos, hs, hlabel]
    exact (herr W.svr.obj fh size offset).imp fun h => by rw [h, counted_failed_label]
  · refine Or.inl ?_
    simp [L4fs.callTransfer, L4fs.tooBig, Nat.lt_of_not_le hsize]

theorem open_errnos (name : CString) (flags : CInt) (mode : ModeT) :
    FailedOnce W.errnos (L4fs.open (Server.handler B D) W name flags mode).1.errnos
      ((L4fs.open (Server.handler B D) W name flags mode).2.1 = -1) := by
  by_cases hn : name.strlen + 1 ≤ maxPathSize w
  · obtain ⟨_, _, _, -, hs, hret⟩ := L4fs.open_eq_decoded (h := Server.handler B D) (W := W) flags mode hn
    simp only [World.errnos, hs, hret]
    exact Server.open_errnos
  · refine Or.inl ?_
    simp [L4fs.open, L4fs.tooLong_of_not_fits hn]

theorem mkdir_errnos (name : CString) (mode : ModeT) :
    FailedOnce W.errnos (L4fs.mkdir (Server.handler B D) W name mode).1.errnos
      ((L4fs.mkdir (Server.handler B D) W name mode).2 = -1) := by
  by_cases hn : name.strlen + 1 ≤ maxPathSize w
  · obtain ⟨hs, hret⟩ := L4fs.mkdir_eq (h := Server.handler B D) (W := W) mode hn
    simp only [World.errnos, hs, hret]
    exact Server.mkdir_errnos
  · refine Or.inl ?_
    simp [L4fs.mkdir, L4fs.tooLong_of_not_fits hn]

theorem pread_errnos (fh : CInt) (size : SizeT w) (offset : Off64T) :
    FailedOnce W.errnos (L4fs.pread (Server.handler B D) W fh size offset).1.errnos
      ((L4fs.pread (Server.handler B D) W fh size offset).2.1 = -1) :=
  callTransfer_errnos (Server.pread B) fh size offset (fun _ _ _ hop => by simp only [dispatch, hop, Server.handler])
    fun _ _ _ _ => Server.pread_errnos

theorem pwrite_errnos (fh : CInt) (size : SizeT w) (offset : Off64T) :
    FailedOnce W.errnos (L4fs.pwrite (Server.handler B D) W fh size offset).1.errnos
      ((L4fs.pwrite (Server.handler B D) W fh size offset).2.1 = -1) :=
  callTransfer_errnos (Server.pwrite B) fh size offset (fun _ _ _ hop => by simp only [dispatch, hop, Server.handler])
    fun _ _ _ _ => Server.pwrite_errnos

@[simp] theorem copyIn_errnos (bs : List UInt8) : (W.copyIn bs).errnos = W.errnos := rfl

theorem signExtend_neg_one : ((-1 : CInt).signExtend (8 * w.bytes)).toInt = -1 := by
  cases w <;> rfl

/-- The loop goes on only behind a request that did not fail. -/
theorem preadvLoop_errnos {fh : CInt} {iov : List (List UInt8)} {p : Off64T} {readBytes : SSizeT w} :
    FailedOnce W.errnos (L4fsFile.preadvLoop (Server.handler B D) fh W iov p readBytes).1.errnos
      ((L4fsFile.preadvLoop (Server.handler B D) fh W iov p readBytes).2.1.toInt = -1) := by
  induction iov generalizing W p readBytes with
  | nil => exact Or.inl rfl
  | cons buf rest ih =>
    have hone := pread_errnos (B := B) (D := D) (W := W) fh (BitVec.ofNat _ buf.length) p
    simp only [L4fsFile.preadvLoop]
    generalize L4fs.pread _ W fh _ p = r at hone
    split
    · exact hone.imp fun h => by rw [h, signExtend_neg_one]
    · next hok =>
      rw [← hone.eq_of_not fun h => hok (by rw [h]; decide)]
      split <;> exact ih

theorem pwritevLoop_errnos {fh : CInt} {iov : List (List UInt8)} {p : Off64T} {writtenBytes : SSizeT w} :
    FailedOnce W.errnos (L4fsFile.pwritevLoop (Server.handler B D) fh W iov p writtenBytes).1.errnos
      ((L4fsFile.pwritevLoop (Server.handler B D) fh W iov p writtenBytes).2.toInt = -1) := by
  induction iov generalizing W p writtenBytes with
  | nil => exact Or.inl rfl
  | cons buf rest ih =>
    have hone := pwrite_errnos (B := B) (D := D) (W := W.copyIn buf) fh (BitVec.ofNat _ buf.length) p
    rw [copyIn_errnos] at hone
    simp only [L4fsFile.pwritevLoop]
    generalize L4fs.pwrite _ (W.copyIn buf) fh _ p = r at hone
    split
    · exact hone.imp fun h => by rw [h, signExtend_neg_one]
    · next hok =>
      have hkept := hone.eq_of_not fun h => hok (by rw [h]; decide)
      split
      · exact Or.inl hkept
      · rw [← hkept]
        exact ih

/-- A file operation makes at most one file system call fail, and then it returns `-1`. -/
theorem FileCall.run_errnos (c : FileCall E) :
    FailedOnce W.errnos (c.run (Server.handler B D) W).1.errnos ((c.run (Server.handler B D) W).2 = -1) := by
  have toInt_eq : ∀ {v : CInt}, v = -1 → v.toInt = -1 := fun h => by rw [h]; rfl
  cases c with
  | getEntry alloc name flags mode =>
    have hone := open_errnos (B := B) (D := D) (W := W) name
      (if name.bytes = [] then flags ||| oDirectory else flags) mode
    simp only [FileCall.run, L4fsDir.getEntry]
    generalize L4fs.open _ W name _ mode = r at hone
    split
    · exact hone.imp toInt_eq
    · next hok =>
      have hkept := hone.eq_of_not fun h => hok (by rw [h]; decide)
      split <;> exact Or.inl hkept
  | mkdir name mode => exact (mkdir_errnos name mode).imp toInt_eq
  | rmdir name =>
    exact (callName_errnos (Server.rmdir B) name (fun _ _ _ hop => by simp only [dispatch, hop, Server.handler])
      fun _ _ => Server.rmdir_errnos).imp toInt_eq
  | unlink name =>
    exact (callName_errnos (Server.unlink B) name (fun _ _ _ hop => by simp only [dispatch, hop, Server.handler])
      fun _ _ => Server.unlink_errnos).imp toInt_eq
  | rename «from» dst =>
    simp only [FileCall.run, L4fsDir.rename]
    split
    · exact Or.inl rfl
    · rw [← copyIn_errnos dst.c_str]
      exact (callName_errnos (Server.rename B) «from» (fun _ _ _ hop => by simp only [dispatch, hop, Server.handler])
        fun _ _ => Server.rename_errnos).imp toInt_eq
  | preadv fh iov p => exact preadvLoop_errnos
  | pwritev fh iov p => exact pwritevLoop_errnos
  | fstat64 o buf =>
    obtain ⟨hs, hret⟩ := L4fs.fstat64_eq (h := Server.handler B D) (W := W) o.fh buf
    simp only [FileCall.run, L4fsFileBase.fstat64, World.errnos, hs, hret]
    exact Server.fstat64_errnos.imp toInt_eq
  | close o =>
    simp only [FileCall.run, L4fsFileBase.close]
    split
    · obtain ⟨hs, hret⟩ := L4fs.close_eq (h := Server.handler B D) (W := W) o.fh
      simp only [World.errnos, hs, hret]
      exact Server.close_errnos.imp toInt_eq
    · exact Or.inl rfl

/-- When a file system call of the server fails with `e` in the course of a file operation, the operation
    returns an error, and that error is `-e` only for `e = 1`. -/
theorem FileCall.failed_reports_iff (B : Backing E σ) (D : σ → CInt → σ × CInt × Bool) (W : World E (Server σ))
    (c : FileCall E) (e : Errno) (hfail : c.FailsWith (Server.handler B D) W e) :
    (c.run (Server.handler B D) W).2 < 0 ∧ ((c.run (Server.handler B D) W).2 = -(e : Int) ↔ e = 1) := by
  obtain ⟨es, hes, he⟩ := hfail
  have hret : (c.run (Server.handler B D) W).2 = -1 := by
    rcases c.run_errnos (B := B) (D := D) (W := W) with h | ⟨-, h⟩
    · rw [hes, List.append_right_eq_self] at h
      rw [h] at he
      exact absurd he List.not_mem_nil
    · exact h
  have neg_one_eq_iff : ∀ n : Nat, (-1 : Int) = -(n : Int) ↔ n = 1 := by omega
  rw [hret]
  exact ⟨by decide, neg_one_eq_iff e⟩

end Calls

/-! ### A file system on which every call fails -/

/-- A file system that answers every call with the error `e`. -/
def refusing (E : Ipc w) (e : Errno) : Backing E Unit where
  «open» _ _ _ _ := ((), .error e)
  mkdir _ _ _ := ((), .error e)
  rename _ _ _ := ((), .error e)
  unlink _ _ := ((), .error e)
  rmdir _ _ := ((), .error e)
  close _ _ := ((), .error e)
  pread64 _ _ _ _ := .error e
  pwrite64 _ _ _ _ := ((), .error e)
  fstat64 _ _ := .error e
  open_nonneg h := by cases h
  pread64_le h := by cases h
  pwrite64_le h := by cases h

/-- A client and a server that have not spoken yet. -/
def World.start (stack : Stat64 E) (s : Server σ) : World E (Server σ) where
  svr := .start s
  stale _ := ⟨fun _ => 0, fun _ => 0, stack⟩

/-- A world of the 4-byte build in which nothing was called yet. -/
def quietWorld : World Ipc.x86 (Server Unit) :=
  .start (zeroStat Ipc.x86) (.start () fun _ => 0)

/-- The name `a`. -/
def nameA : CString := ⟨[97], by decide⟩

theorem nameA_fits : nameA.strlen + 1 ≤ maxPathSize .w32 := by decide

/-- The server of that world, on a file system that refuses with `e`. -/
def refusingSvr (e : Errno) : L4fsSvr Ipc.x86 (Server Unit) :=
  Server.handler (refusing Ipc.x86 e) fun _ _ => ((), 0, false)

/-- `unlink("a")` fails with what the file system refuses with, and returns `-1`. -/
theorem unlink_refused (e : Errno) :
    (FileCall.unlink nameA).FailsWith (refusingSvr e) quietWorld e ∧
      ((FileCall.unlink nameA).run (refusingSvr e) quietWorld).2 = -1 := by
  obtain ⟨hs, hret⟩ := L4fs.unlink_eq (h := refusingSvr e) (W := quietWorld) nameA_fits
  refine ⟨⟨[e], ?_, List.mem_singleton_self e⟩, ?_⟩
  · simp only [FileCall.run, L4fsDir.unlink, World.errnos, hs]
    rfl
  · simp only [FileCall.run, L4fsDir.unlink, hret]
    rfl

theorem FileCall.failed_reports_unlink :
    ((FileCall.unlink nameA).run (refusingSvr 1) quietWorld).2 < 0 ∧
      (((FileCall.unlink nameA).run (refusingSvr 1) quietWorld).2 = -((1 : Errno) : Int) ↔ (1 : Errno) = 1) :=
  FileCall.failed_reports_iff _ _ _ _ _ (unlink_refused 1).1

/-- `unlink("a")` when the file does not exist: `ENOENT` is lost. -/
theorem FileCall.enoent_not_reported :
    (FileCall.unlink nameA).FailsWith (refusingSvr 2) quietWorld 2 ∧
      ((FileCall.unlink nameA).run (refusingSvr 2) quietWorld).2 ≠ -2 := by
  obtain ⟨herr, hret⟩ := unlink_refused 2
  exact ⟨herr, by rw [hret]; decide⟩

end

end Dom0
