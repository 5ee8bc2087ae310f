import Dom0.Libfs.Svr

/-! # The file system server

Class `Server` of `fs_srv`: it answers each request with a call of the file system that is mounted at
`/tmp/`. That file system and the C library are not part of the repository, so `Backing` takes their calls
as a parameter. Every copy into or out of one of the server's buffers is recorded with the room it had. -/

namespace Dom0
open Marshal

/-- The value that a failed call leaves in `errno`. -/
abbrev Errno := Nat

/-- The file system calls of the server, on a file system with state `σ`. -/
structure Backing {w : Word} (E : Ipc w) (σ : Type) where
  «open» : σ → List UInt8 → CInt → ModeT → σ × Except Errno CInt
  mkdir : σ → List UInt8 → ModeT → σ × Except Errno Unit
  rename : σ → List UInt8 → List UInt8 → σ × Except Errno Unit
  unlink : σ → List UInt8 → σ × Except Errno Unit
  rmdir : σ → List UInt8 → σ × Except Errno Unit
  close : σ → CInt → σ × Except Errno Unit
  pread64 : σ → CInt → Nat → Off64T → Except Errno (List UInt8)
  pwrite64 : σ → CInt → List UInt8 → Off64T → σ × Except Errno Nat
  fstat64 : σ → CInt → Except Errno (Stat64 E)
  open_nonneg : ∀ {s path flags mode s' fd}, «open» s path flags mode = (s', .ok fd) → 0 ≤ fd.toInt
  pread64_le : ∀ {s fd n offset bs}, pread64 s fd n offset = .ok bs → bs.length ≤ n
  pwrite64_le : ∀ {s fd bs offset s' n}, pwrite64 s fd bs offset = (s', .ok n) → n ≤ bs.length

/-- `PATH_LEN`. -/
def pathLen : Nat := 255

/-- `tmpDir`, the bytes of `/tmp/`. -/
def tmpDir : List UInt8 := [47, 116, 109, 112, 47]

/-- The member `actualPath`: it starts with `tmpDir`, which the constructor stores and nothing overwrites. -/
abbrev ActualPath := { m : Mem // m.read 0 tmpDir.length = tmpDir }

/-- A `Server` and its process. On the 8-byte build a name of 251 bytes or more runs over `actualPath` into the pointer
    `shortPath` behind it, and later calls write through what is then there. `copies` shows such a copy; what the
    process does after it is not modelled. -/
structure Server (σ : Type) where
  fs : σ
  /-- The validity of `_rw_buf_ds`. -/
  rwBufDs : Bool
  /-- The memory behind `rw_buf`, which is the dataspace that `init` hands to every client. -/
  rwBuf : Mem
  actualPath : ActualPath
  /-- The values that `errno` was set to. -/
  errnos : List Errno
  /-- The copies made so far. -/
  copies : List Copy

namespace Server
variable {w : Word} {E : Ipc w} {σ : Type}

/-- The server as its constructor leaves it, on a file system in state `fs` and with `rwBuf` in the dataspace. -/
def start (fs : σ) (rwBuf : Mem) : Server σ := ⟨fs, true, rwBuf, ⟨fun i => tmpDir.getD i 0, by decide⟩, [], []⟩

/-- Record a copy of `len` bytes that has `room` bytes. -/
def copied (s : Server σ) (room len : Nat) : Server σ := { s with copies := s.copies ++ [⟨room, len⟩] }

/-- The result of a file system call: a failure sets `errno` and is returned as `-1`. -/
def result {α : Type} (s : Server σ) (fs : σ) (r : Except Errno α) (ok : α → CInt) : Server σ × CInt :=
  match r with
  | .ok a => ({ s with fs := fs }, ok a)
  | .error e => ({ s with fs := fs, errnos := s.errnos ++ [e] }, -1)

/-- `strcpy(shortPath, src)` behind the stored `tmpDir`. -/
def setShortPath (p : ActualPath) (src : CString) : ActualPath :=
  ⟨p.1.write tmpDir.length src.c_str, by rw [Mem.read_write_below (by simp), p.2]⟩

/-- `getActualPath`. -/
def getActualPath (s : Server σ) (src : CString) : Server σ × List UInt8 :=
  let p := setShortPath s.actualPath src
  ({ s.copied pathLen (tmpDir.length + src.strlen + 1) with actualPath := p },
    p.1.cstr 0 (tmpDir.length + src.strlen + 1))

def init (s : Server σ) : Server σ × CInt × Bool := (s, 0, s.rwBufDs)

/-- The path is built twice: once for the message that is printed. -/
def «open» (B : Backing E σ) (s : Server σ) (name : CString) (flags : CInt) (mode : ModeT) : Server σ × CInt × ModeT :=
  let s := (s.getActualPath name).1
  let p := s.getActualPath name
  let r := B.open p.1.fs p.2 flags mode
  let s := p.1.result r.1 r.2 id
  (s.1, s.2, mode)

def mkdir (B : Backing E σ) (s : Server σ) (name : CString) (mode : ModeT) : Server σ × CInt :=
  let p := s.getActualPath name
  let r := B.mkdir p.1.fs p.2 mode
  p.1.result r.1 r.2 fun _ => 0

/-- The destination lies at the start of the shared buffer. It is copied into `PATH_LEN` bytes from the
    heap, behind `tmpDir`. -/
def rename (B : Backing E σ) (s : Server σ) («from» : CString) : Server σ × CInt :=
  let dst := CString.ofMem s.rwBuf 0 maxRwBufferSize
  let s := s.copied pathLen (tmpDir.length + dst.strlen + 1)
  let s := (s.getActualPath «from»).1
  let p := s.getActualPath «from»
  let r := B.rename p.1.fs p.2 (tmpDir ++ dst.bytes)
  p.1.result r.1 r.2 fun _ => 0

def unlink (B : Backing E σ) (s : Server σ) (name : CString) : Server σ × CInt :=
  let p := s.getActualPath name
  let r := B.unlink p.1.fs p.2
  p.1.result r.1 r.2 fun _ => 0

def rmdir (B : Backing E σ) (s : Server σ) (name : CString) : Server σ × CInt :=
  let p := s.getActualPath name
  let r := B.rmdir p.1.fs p.2
  p.1.result r.1 r.2 fun _ => 0

def close (B : Backing E σ) (s : Server σ) (fd : CInt) : Server σ × CInt :=
  let r := B.close s.fs fd
  s.result r.1 r.2 fun _ => 0

/-- `-1` as a `ssize_t`. -/
def failed : SSizeT w := BitVec.ofInt _ (-1)

def pread (B : Backing E σ) (s : Server σ) (fh : CInt) (size : SizeT w) (offset : Off64T) : Server σ × SSizeT w :=
  match B.pread64 s.fs fh size.toNat offset with
  | .ok bs => ({ s.copied maxRwBufferSize bs.length with rwBuf := s.rwBuf.write 0 bs }, BitVec.ofNat _ bs.length)
  | .error e => ({ s with errnos := s.errnos ++ [e] }, failed)

def pwrite (B : Backing E σ) (s : Server σ) (fh : CInt) (size : SizeT w) (offset : Off64T) : Server σ × SSizeT w :=
  let r := B.pwrite64 s.fs fh (s.rwBuf.read 0 size.toNat) offset
  match r.2 with
  | .ok n => ({ s.copied maxRwBufferSize n with fs := r.1 }, BitVec.ofNat _ n)
  | .error e => ({ s with fs := r.1, errnos := s.errnos ++ [e] }, failed)

def fstat64 (B : Backing E σ) (s : Server σ) (fh : CInt) (st : Stat64 E) : Server σ × CInt × Stat64 E :=
  match B.fstat64 s.fs fh with
  | .ok st => (s, 0, st)
  | .error e => ({ s with errnos := s.errnos ++ [e] }, -1, st)

/-- The handler object of `fs_srv`. The methods that it overrides with `-L4_ENOSYS` are the defaults. The loop
    of `Server::dataspace` need not end, so what that method does to the file system and answers is a
    parameter here. -/
def handler (B : Backing E σ) (dataspace : σ → CInt → σ × CInt × Bool) : L4fsSvr E (Server σ) where
  init := init
  «open» := Server.open B
  mkdir := mkdir B
  rename := rename B
  unlink := unlink B
  rmdir := rmdir B
  sync s := (s, 0)
  close := close B
  pread := pread B
  pwrite := pwrite B
  fstat64 := fstat64 B
  dataspace s fh := let r := dataspace s.fs fh; ({ s with fs := r.1 }, r.2)

section Handler
variable {B : Backing E σ} {d : σ → CInt → σ × CInt × Bool}

@[simp] theorem handler_open : (handler B d).open = Server.open B := rfl
@[simp] theorem handler_mkdir : (handler B d).mkdir = Server.mkdir B := rfl
@[simp] theorem handler_rename : (handler B d).rename = Server.rename B := rfl
@[simp] theorem handler_unlink : (handler B d).unlink = Server.unlink B := rfl
@[simp] theorem handler_rmdir : (handler B d).rmdir = Server.rmdir B := rfl
@[simp] theorem handler_close : (handler B d).close = Server.close B := rfl
@[simp] theorem handler_pread : (handler B d).pread = Server.pread B := rfl
@[simp] theorem handler_pwrite : (handler B d).pwrite = Server.pwrite B := rfl

end Handler

/-! ## Paths -/

section Paths
variable {s : Server σ} {src : CString}

/-- The path of a name is the name below `/tmp/`, whatever was asked for before. -/
@[simp] theorem getActualPath_path : (s.getActualPath src).2 = tmpDir ++ src.bytes := by
  have hread : (setShortPath s.actualPath src).1.read 0 (tmpDir.length + (src.strlen + 1)) = tmpDir ++ src.c_str := by
    rw [Mem.read_add, (setShortPath s.actualPath src).2, ← CString.length_c_str, Nat.zero_add]
    simp only [setShortPath, Mem.read_write]
  have hnul : (0 : UInt8) ∉ tmpDir ++ src.bytes := by
    rw [List.mem_append, not_or]
    exact ⟨by decide, src.nul_free⟩
  refine Mem.cstr_of_read ?_ hnul (by simp only [List.length_append]; exact Nat.lt_succ_self _)
  rw [List.length_append, Nat.add_assoc]
  simpa [CString.c_str, CString.strlen] using hread

@[simp] theorem getActualPath_fs : (s.getActualPath src).1.fs = s.fs := rfl

@[simp] theorem getActualPath_rwBuf : (s.getActualPath src).1.rwBuf = s.rwBuf := rfl

@[simp] theorem getActualPath_copies :
    (s.getActualPath src).1.copies = s.copies ++ [⟨pathLen, tmpDir.length + src.strlen + 1⟩] := rfl

end Paths

section Results
variable {s : Server σ} {fs : σ} {α : Type} {r : Except Errno α} {ok : α → CInt}

@[simp] theorem result_fs : (s.result fs r ok).1.fs = fs := by
  cases r <;> rfl

@[simp] theorem result_rwBuf : (s.result fs r ok).1.rwBuf = s.rwBuf := by
  cases r <;> rfl

@[simp] theorem result_copies : (s.result fs r ok).1.copies = s.copies := by
  cases r <;> rfl

@[simp] theorem copied_fs {room len : Nat} : (s.copied room len).fs = s.fs := rfl

@[simp] theorem copied_rwBuf {room len : Nat} : (s.copied room len).rwBuf = s.rwBuf := rfl

@[simp] theorem copied_copies {room len : Nat} : (s.copied room len).copies = s.copies ++ [⟨room, len⟩] := rfl

end Results

end Server

end Dom0
