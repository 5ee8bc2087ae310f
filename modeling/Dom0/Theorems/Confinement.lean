import Dom0.FsSrv.Server
import Dom0.Lib.Paths
import Dom0.Theorems.Errors
import Dom0.Theorems.NameBuffer

/-! The paths that the server passes on. It puts `/tmp/` before a name and looks at nothing in the name, so that a
name that climbs out of `/tmp/` names whatever lies beside it. -/

namespace Dom0
open Marshal Paths

section
variable {w : Word} {E : Ipc w} {σ : Type}

/-- The same file system, which keeps the paths that it is called with. -/
def Backing.recorded (B : Backing E σ) : Backing E (σ × List (List UInt8)) where
  «open» s path flags mode := let r := B.open s.1 path flags mode; ((r.1, s.2 ++ [path]), r.2)
  mkdir s path mode := let r := B.mkdir s.1 path mode; ((r.1, s.2 ++ [path]), r.2)
  rename s old new := let r := B.rename s.1 old new; ((r.1, s.2 ++ [old, new]), r.2)
  unlink s path := let r := B.unlink s.1 path; ((r.1, s.2 ++ [path]), r.2)
  rmdir s path := let r := B.rmdir s.1 path; ((r.1, s.2 ++ [path]), r.2)
  close s fd := let r := B.close s.1 fd; ((r.1, s.2), r.2)
  pread64 s fd n offset := B.pread64 s.1 fd n offset
  pwrite64 s fd bs offset := let r := B.pwrite64 s.1 fd bs offset; ((r.1, s.2), r.2)
  fstat64 s fd := B.fstat64 s.1 fd
  open_nonneg := by
    intro s path flags mode s' fd h
    have hfd : (B.open s.1 path flags mode).2 = .ok fd := congrArg Prod.snd h
    exact B.open_nonneg (Prod.ext rfl hfd)
  pread64_le h := B.pread64_le h
  pwrite64_le := by
    intro s fd bs offset s' n h
    have hn : (B.pwrite64 s.1 fd bs offset).2 = .ok n := congrArg Prod.snd h
    exact B.pwrite64_le (Prod.ext rfl hn)

/-- What `dataspace` does to it. -/
def recordedDataspace (d : σ → CInt → σ × CInt × Bool) (s : σ × List (List UInt8)) (fh : CInt) :
    (σ × List (List UInt8)) × CInt × Bool :=
  let r := d s.1 fh
  ((r.1, s.2), r.2)

/-- The server on that file system, which was not called yet. -/
def Server.recorded (s : Server σ) : Server (σ × List (List UInt8)) :=
  ⟨(s.fs, []), s.rwBufDs, s.rwBuf, s.actualPath, s.errnos, s.copies⟩

/-- The paths that the server passes to its file system for a message. -/
def pathsPassed (B : Backing E σ) (d : σ → CInt → σ × CInt × Bool) (nameBuf : Mem) (s : Server σ) (stack : Stat64 E)
    (m : In) : List (List UInt8) :=
  (dispatch E (Server.handler B.recorded (recordedDataspace d)) ⟨nameBuf, s.recorded⟩ stack m).1.obj.fs.2

/-- The names that a message makes into paths: its own, and that in the shared buffer for a rename. -/
def pathNames (E : Ipc w) (nameBuf rw : Mem) (m : In) : List CString :=
  let own := ((nameStream w m).map fun ios => (readName E nameBuf ios).1).toList
  match Opcode.ofInt? (readInt m).1 with
  | some .link | some .symlink => []
  | some .rename => own ++ [CString.ofMem rw 0 maxRwBufferSize]
  | _ => own

/-- `tmp`, the directory at which the file system is mounted. -/
def tmpComponent : Component := [116, 109, 112]

section
variable {B : Backing E σ} {s : Server (σ × List (List UInt8))} {fh : CInt} {size : SizeT w} {offset : Off64T}

@[simp] theorem pread_recorded : (Server.pread B.recorded s fh size offset).1.fs = s.fs := by
  unfold Server.pread
  split <;> rfl

@[simp] theorem pwrite_recorded : (Server.pwrite B.recorded s fh size offset).1.fs.2 = s.fs.2 := by
  simp only [Server.pwrite]
  split <;> rfl

@[simp] theorem fstat64_recorded {st : Stat64 E} : (Server.fstat64 B.recorded s fh st).1.fs = s.fs := by
  unfold Server.fstat64
  split <;> rfl

end

theorem pathsPassed_eq (B : Backing E σ) (d : σ → CInt → σ × CInt × Bool) (nameBuf : Mem) (s : Server σ)
    (stack : Stat64 E)
    (m : In) : pathsPassed B d nameBuf s stack m = (pathNames E nameBuf s.rwBuf m).map (tmpDir ++ ·.bytes) := by
  have hnew : s.recorded.fs.2 = [] := rfl
  have hrw : s.recorded.rwBuf = s.rwBuf := rfl
  simp only [pathsPassed, dispatch, pathNames, nameStream]
  generalize s.recorded = s' at hnew hrw
  cases Opcode.ofInt? (readInt m).1 with
  | none => simp [hnew]
  | some o =>
    cases o with
    | «open» => simp [Server.open, Backing.recorded, hnew]
    | mkdir => simp [Server.mkdir, Backing.recorded, hnew]
    | unlink => simp [dispatchName, Server.unlink, Backing.recorded, hnew]
    | rmdir => simp [dispatchName, Server.rmdir, Backing.recorded, hnew]
    | rename => simp [dispatchName, Server.rename, Backing.recorded, hnew, hrw]
    | close => simp [dispatchHandle, Server.close, Backing.recorded, hnew]
    | pread => simp [dispatchTransfer, hnew]
    | pwrite => simp [dispatchTransfer, hnew]
    | fstat64 => simp [Server.handler, hnew]
    | getDataspace => simp [Server.handler, recordedDataspace, hnew]
    | init => simp [Server.handler, Server.init, hnew]
    | _ => simp [dispatchHandle, dispatchName, dispatchTransfer, Server.handler, hnew]

theorem atOrBelow_tmpDir (name : List UInt8) : AtOrBelow tmpComponent (tmpDir ++ name) ↔
    Stays tmpComponent (components name) :=
  atOrBelow_iff_stays (by decide) (by decide)

/-- Every path that the server passes on for a message is confined exactly when each of its names is. -/
theorem pathsPassed_confined_iff (B : Backing E σ) (d : σ → CInt → σ × CInt × Bool) (nameBuf : Mem) (s : Server σ)
    (stack : Stat64 E) (m : In) :
    (∀ path ∈ pathsPassed B d nameBuf s stack m, AtOrBelow tmpComponent path) ↔
      ∀ name ∈ pathNames E nameBuf s.rwBuf m, Stays tmpComponent (components name.bytes) := by
  rw [pathsPassed_eq, List.forall_mem_map]
  exact forall₂_congr fun name _ => atOrBelow_tmpDir name.bytes

end

/-- The name `../x`. -/
def climbing : CString := ⟨[46, 46, 47, 120], by decide⟩

def climbingUnlink : In := deliver .w32 (L4fs.nameRequest .w32 .unlink climbing) (fun _ => 0) (fun _ => 0)

/-- `unlink("../x")` removes `/x`. -/
theorem climbingUnlink_not_confined :
    tmpDir ++ climbing.bytes ∈ pathsPassed (refusing Ipc.x86 1) (fun _ _ => ((), 0, false)) (fun _ => 0)
        (.start () fun _ => 0) (zeroStat Ipc.x86) climbingUnlink ∧
      resolve (tmpDir ++ climbing.bytes) = [[120]] ∧ ¬AtOrBelow tmpComponent (tmpDir ++ climbing.bytes) := by
  have hhas : climbingUnlink.Has _ := has_deliver _ _ (L4fs.fits_nameRequest (by decide) .unlink)
  have hname : (readName Ipc.x86 (fun _ => 0) (readInt climbingUnlink).2).1 = climbing :=
    has_readName _ (has_readInt hhas).2 (by decide)
  have hresolve : resolve (tmpDir ++ climbing.bytes) = [[120]] := by decide
  refine ⟨?_, hresolve, ?_⟩
  · rw [pathsPassed_eq]
    simp only [pathNames, nameStream, ofInt?_readInt hhas, Option.map_some, hname]
    exact List.mem_singleton_self _
  · rw [AtOrBelow, hresolve]
    decide

end Dom0
