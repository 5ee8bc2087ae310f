import Dom0.Lib.Contents
import Dom0.Libfs.Clients
import Dom0.Theorems.Errors

/-! # Remote files are local files

On the 4-byte build, the calls of any number of clients, made one after the other, do what the same calls do
on the backing file system below `/tmp/`: the client's loops, the stubs, the dispatch and the path
translation leave nothing of one call in the next, and a transfer that is split into requests composes back
to one transfer. The exception are reads and writes on an entry whose mode said `S_IFDIR`: the client then
holds a directory object, whose `preadv` and `pwritev` never reach the server. -/

namespace Dom0
open Marshal Contents

/-! ## Direct calls -/

/-- The backing file system and the descriptors that its callers hold. -/
structure Direct (σ : Type) where
  fs : σ
  handles : ObjId → Option CInt

/-- `SSIZE_MAX` of the 4-byte build. -/
def ssizeMax : Nat := 2 ^ 31 - 1

/-- What a direct call gives its caller: the byte count and the buffers, or an error. -/
abbrev Direct.Outcome := Except Errno (Nat × List (List UInt8))

section
variable {w : Word} {E : Ipc w} {σ : Type}

/-- `preadv` of the backing file system: one read into all buffers. -/
def Direct.preadv (B : Backing E σ) (s : σ) (fd : CInt) (iov : List (List UInt8)) (p : Off64T) : Direct.Outcome :=
  if ssizeMax < room iov then .error 22
  else (B.pread64 s fd (room iov) p).map fun bs => (bs.length, scatter iov bs)

/-- `pwritev` of the backing file system: one write of all buffers. -/
def Direct.pwritev (B : Backing E σ) (s : σ) (fd : CInt) (iov : List (List UInt8)) (p : Off64T) : σ × Direct.Outcome :=
  if ssizeMax < room iov then (s, .error 22)
  else
    let r := B.pwrite64 s fd iov.flatten p
    (r.1, r.2.map fun n => (n, []))

/-- A call on a path. -/
def Direct.path (d : Direct σ) (r : σ × Except Errno Unit) : Direct σ × Direct.Outcome :=
  ({ d with fs := r.1 }, r.2.map fun _ => (0, []))

/-- The call made on the backing file system, below `tmpDir`. A handle that was closed is `-1`. -/
def Direct.call (B : Backing E σ) (d : Direct σ) : FsCall → Option (Direct σ × Direct.Outcome)
  | .getEntry o name flags mode =>
    if d.handles o = none then
      let r := B.open d.fs (tmpDir ++ name.bytes) (if name.bytes = [] then flags ||| oDirectory else flags) mode
      match r.2 with
      | .ok fd => some (⟨r.1, Function.update d.handles o (some fd)⟩, .ok (0, []))
      | .error e => some ({ d with fs := r.1 }, .error e)
    else none
  | .preadv o iov p => (d.handles o).map fun fd => (d, Direct.preadv B d.fs fd iov p)
  | .pwritev o iov p =>
    (d.handles o).map fun fd =>
      let r := Direct.pwritev B d.fs fd iov p
      ({ d with fs := r.1 }, r.2)
  | .close o =>
    (d.handles o).map fun fd =>
      let r := B.close d.fs fd
      (⟨r.1, Function.update d.handles o (some (-1))⟩, r.2.map fun _ => (0, []))
  | .mkdir name mode => some (d.path (B.mkdir d.fs (tmpDir ++ name.bytes) mode))
  | .rmdir name => some (d.path (B.rmdir d.fs (tmpDir ++ name.bytes)))
  | .unlink name => some (d.path (B.unlink d.fs (tmpDir ++ name.bytes)))
  | .rename «from» dst => some (d.path (B.rename d.fs (tmpDir ++ «from».bytes) (tmpDir ++ dst.bytes)))

/-- A file system whose reads and writes transfer everything, except at the end of the file. A read or write
    fails on a descriptor that is not open for it and on a negative offset, and a negative number is no
    descriptor. -/
structure Positional (B : Backing E σ) where
  content : σ → CInt → List UInt8
  store : σ → CInt → List UInt8 → σ
  Readable : σ → CInt → Prop
  Writable : σ → CInt → Prop
  pread64_eq : ∀ {s fd n} {p : Off64T}, Readable s fd → 0 ≤ p.toInt →
    B.pread64 s fd n p = .ok (readAt (content s fd) p.toNat n)
  pread64_error : ∀ s fd n (p : Off64T), ¬(Readable s fd ∧ 0 ≤ p.toInt) → ∃ e, B.pread64 s fd n p = .error e
  pwrite64_eq : ∀ {s fd bs} {p : Off64T}, Writable s fd → 0 ≤ p.toInt →
    B.pwrite64 s fd bs p = (store s fd (overwrite (content s fd) p.toNat bs), .ok bs.length)
  pwrite64_error : ∀ s fd bs (p : Off64T), ¬(Writable s fd ∧ 0 ≤ p.toInt) → ∃ e, B.pwrite64 s fd bs p = (s, .error e)
  close_error : ∀ {s fd}, fd.toInt < 0 → ∃ e, B.close s fd = (s, .error e)
  content_store : ∀ {s fd c}, content (store s fd c) fd = c
  store_store : ∀ {s fd c c'}, store (store s fd c) fd c' = store s fd c'
  store_content : ∀ {s fd}, store s fd (content s fd) = s
  writable_store : ∀ {s fd c}, Writable s fd → Writable (store s fd c) fd

/-! ## What is compared -/

/-- A call of a client and the direct call succeed alike, with the same byte count and the same buffers. -/
def Agrees (r : Int × List (List UInt8)) : Direct.Outcome → Prop
  | .ok (n, bufs) => r = ((n : Int), bufs)
  | .error _ => r.1 < 0

/-- What direct callers have in the place of the clients: the file system, and the descriptors of the
    objects. -/
def Clients.direct (s : Clients E σ) : Direct σ := ⟨s.world.fs, Option.map File.fh ∘ s.objects⟩

/-- Names that the stubs accept, a list of buffers that is not empty and none of which is longer than the
    shared buffer, and an offset whose end is below 2^63. -/
def FsCall.InDomain : FsCall → Prop
  | .getEntry _ name _ _ | .mkdir name _ | .rmdir name | .unlink name => name.strlen + 1 ≤ maxPathSize .w32
  | .rename «from» dst => «from».strlen + 1 ≤ maxPathSize .w32 ∧ dst.strlen + 1 ≤ maxPathSize .w32
  | .preadv _ iov p | .pwritev _ iov p =>
    iov ≠ [] ∧ (∀ buf ∈ iov, buf.length ≤ maxRwBufferSize) ∧ p.toInt + room iov < 2 ^ 63
  | .close _ => True

/-- Reads and writes are made on an object that is not a directory object, and ask for no more than a
    `ssize_t` counts. -/
def FsCall.Served (s : Clients E σ) : FsCall → Prop
  | .preadv o iov _ | .pwritev o iov _ => (∀ fh pos, s.objects o ≠ some (.dir fh pos)) ∧ room iov ≤ ssizeMax
  | _ => True

/-- Calls of clients one after the other, each with what it returns. -/
inductive Clients.Calls (h : L4fsSvr E (Server σ)) (be : BeFile) (allows : Clients E σ → FsCall → Prop) :
    Clients E σ → List (FsCall × Int × List (List UInt8)) → Clients E σ → Prop
  | nil (s : Clients E σ) : Calls h be allows s [] s
  | cons {s middle last : Clients E σ} {c : FsCall} {r : Int × List (List UInt8)}
      {calls : List (FsCall × Int × List (List UInt8))} (allowed : allows s c)
      (accepted : s.call h be c = some (middle, r)) (tail : Calls h be allows middle calls last) :
      Calls h be allows s ((c, r) :: calls) last

/-- Direct calls one after the other. -/
inductive Direct.Calls (B : Backing E σ) : Direct σ → List (FsCall × Direct.Outcome) → Direct σ → Prop
  | nil (d : Direct σ) : Calls B d [] d
  | cons {d middle last : Direct σ} {c : FsCall} {out : Direct.Outcome} {calls : List (FsCall × Direct.Outcome)}
      (accepted : d.call B c = some (middle, out)) (tail : Calls B middle calls last) :
      Calls B d ((c, out) :: calls) last

end

/-! ## Single requests -/

section Requests
variable {w : Word} {E : Ipc w} {σ : Type} {B : Backing E σ} {P : Positional B} {d : σ → CInt → σ × CInt × Bool}
  {W : World E (Server σ)} {fh : CInt} {p : Off64T} {buf : List UInt8} {n : Nat}

theorem ssizeMax_lt : 2 * ssizeMax + 1 < 2 ^ (8 * w.bytes) := by
  cases w <;> decide

theorem toNat_count (h : n ≤ ssizeMax) : (BitVec.ofNat (8 * w.bytes) n).toNat = n := by
  have := ssizeMax_lt (w := w)
  rw [BitVec.toNat_ofNat, Nat.mod_eq_of_lt (by omega)]

theorem toInt_count {v : SSizeT w} (h : v.toNat ≤ ssizeMax) : v.toInt = v.toNat := by
  have := ssizeMax_lt (w := w)
  rw [BitVec.toInt_eq_toNat_of_lt (by omega)]

theorem maxRwBufferSize_le : maxRwBufferSize ≤ ssizeMax := by decide

theorem counted_label_count (h : n ≤ ssizeMax) : (Reply.counted (BitVec.ofNat (8 * w.bytes) n) []).label = 0 := by
  have hnonneg : ¬(BitVec.ofNat (8 * w.bytes) n).toInt < 0 := by
    rw [toInt_count (by rw [toNat_count h]; exact h)]
    omega
  exact if_neg hnonneg

theorem Server.pread_reads {s : Server σ} (hn : n ≤ ssizeMax) (hr : P.Readable s.fs fh) (hp : 0 ≤ p.toInt) :
    Server.pread B s fh (BitVec.ofNat _ n) p =
      let bs := readAt (P.content s.fs fh) p.toNat n
      ({ s.copied maxRwBufferSize bs.length with rwBuf := s.rwBuf.write 0 bs }, BitVec.ofNat _ bs.length) := by
  simp only [Server.pread, toNat_count hn, P.pread64_eq hr hp]

theorem pread_reads (hn : n ≤ maxRwBufferSize) (hr : P.Readable W.fs fh) (hp : 0 ≤ p.toInt) :
    let r := L4fs.pread (Server.handler B d) W fh (BitVec.ofNat _ n) p
    let bs := readAt (P.content W.fs fh) p.toNat n
    r.1.fs = W.fs ∧ r.1.rwBuf = W.rwBuf.write 0 bs ∧ r.2.1 = 0 ∧ r.2.2 = BitVec.ofNat _ bs.length := by
  have hmax := hn.trans maxRwBufferSize_le
  obtain ⟨hs, hlabel, hcount⟩ := L4fs.pread_eq (h := Server.handler B d) (W := W) fh (BitVec.ofNat _ n) p
    ((toNat_count (w := w) hmax).symm ▸ hn)
  rw [Server.handler_pread, Server.pread_reads hmax hr hp] at hs hlabel hcount
  refine ⟨by rw [World.fs, hs]; rfl, by rw [World.rwBuf, hs]; rfl, ?_, hcount⟩
  rw [hlabel]
  exact counted_label_count (length_readAt_le.trans hmax)

theorem pread_fails (hn : n ≤ maxRwBufferSize) (hr : ¬(P.Readable W.fs fh ∧ 0 ≤ p.toInt)) :
    let r := L4fs.pread (Server.handler B d) W fh (BitVec.ofNat _ n) p
    r.1.fs = W.fs ∧ r.2.1 = -1 := by
  have hmax := hn.trans maxRwBufferSize_le
  obtain ⟨hs, hlabel, -⟩ := L4fs.pread_eq (h := Server.handler B d) (W := W) fh (BitVec.ofNat _ n) p
    ((toNat_count (w := w) hmax).symm ▸ hn)
  obtain ⟨e, he⟩ := P.pread64_error W.svr.obj.fs fh n p hr
  have hserver : Server.pread B W.svr.obj fh (BitVec.ofNat _ n) p =
      ({ W.svr.obj with errnos := W.svr.obj.errnos ++ [e] }, Server.failed) := by
    simp only [Server.pread, toNat_count hmax]
    rw [show B.pread64 W.svr.obj.fs fh n p = .error e from he]
  rw [Server.handler_pread, hserver] at hs hlabel
  exact ⟨by rw [World.fs, hs]; rfl, by rw [hlabel]; exact counted_failed_label⟩

theorem read_copyIn (buf : List UInt8) (hn : buf.length ≤ maxRwBufferSize) :
    (W.copyIn buf).rwBuf.read 0 buf.length = buf := by
  change (W.rwBuf.write 0 (buf.take maxRwBufferSize)).read 0 buf.length = buf
  rw [List.take_of_length_le hn, Mem.read_write]

theorem pwrite_writes (hn : buf.length ≤ maxRwBufferSize) (hw : P.Writable W.fs fh) (hp : 0 ≤ p.toInt) :
    let r := L4fs.pwrite (Server.handler B d) (W.copyIn buf) fh (BitVec.ofNat _ buf.length) p
    r.1.fs = P.store W.fs fh (overwrite (P.content W.fs fh) p.toNat buf) ∧ r.2.1 = 0 ∧
      r.2.2 = BitVec.ofNat _ buf.length := by
  have hmax := hn.trans maxRwBufferSize_le
  obtain ⟨hs, hlabel, hcount⟩ := L4fs.pwrite_eq (h := Server.handler B d) (W := W.copyIn buf) fh
    (BitVec.ofNat _ buf.length) p
    ((toNat_count (w := w) hmax).symm ▸ hn)
  have hserver : Server.pwrite B (W.copyIn buf).svr.obj fh (BitVec.ofNat _ buf.length) p =
      ({ (W.copyIn buf).svr.obj.copied maxRwBufferSize buf.length with
          fs := P.store W.fs fh (overwrite (P.content W.fs fh) p.toNat buf) }, BitVec.ofNat _ buf.length) := by
    simp only [Server.pwrite, toNat_count hmax]
    rw [show (W.copyIn buf).svr.obj.rwBuf.read 0 buf.length = buf from read_copyIn buf hn,
      show (W.copyIn buf).svr.obj.fs = W.fs from rfl, P.pwrite64_eq hw hp]
  rw [Server.handler_pwrite, hserver] at hs hlabel hcount
  exact ⟨by rw [World.fs, hs], by rw [hlabel]; exact counted_label_count hmax, hcount⟩

theorem pwrite_fails (hn : buf.length ≤ maxRwBufferSize) (hw : ¬(P.Writable W.fs fh ∧ 0 ≤ p.toInt)) :
    let r := L4fs.pwrite (Server.handler B d) (W.copyIn buf) fh (BitVec.ofNat _ buf.length) p
    r.1.fs = W.fs ∧ r.2.1 = -1 := by
  have hmax := hn.trans maxRwBufferSize_le
  obtain ⟨hs, hlabel, -⟩ := L4fs.pwrite_eq (h := Server.handler B d) (W := W.copyIn buf) fh
    (BitVec.ofNat _ buf.length) p
    ((toNat_count (w := w) hmax).symm ▸ hn)
  obtain ⟨e, he⟩ := P.pwrite64_error (W.copyIn buf).svr.obj.fs fh ((W.copyIn buf).rwBuf.read 0 buf.length) p hw
  have hserver : Server.pwrite B (W.copyIn buf).svr.obj fh (BitVec.ofNat _ buf.length) p =
      ({ (W.copyIn buf).svr.obj with errnos := W.svr.obj.errnos ++ [e] }, Server.failed) := by
    simp only [Server.pwrite, toNat_count hmax]
    rw [show B.pwrite64 (W.copyIn buf).svr.obj.fs fh ((W.copyIn buf).svr.obj.rwBuf.read 0 buf.length) p = _ from he]
    rfl
  rw [Server.handler_pwrite, hserver] at hs hlabel
  exact ⟨by rw [World.fs, hs]; rfl, by rw [hlabel]; exact counted_failed_label⟩

end Requests

/-! ## Transfers -/

section Transfers
variable {w : Word} {E : Ipc w} {σ : Type} {B : Backing E σ} {P : Positional B} {d : σ → CInt → σ × CInt × Bool}
  {W : World E (Server σ)} {fh : CInt} {p : Off64T} {iov : List (List UInt8)} {k : SSizeT w}

theorem toInt_nonneg_of_lt {n : Nat} (h : p.toNat + n < 2 ^ 63) : 0 ≤ p.toInt := by
  rw [BitVec.toInt_eq_toNat_of_lt (by omega)]
  omega

theorem toNat_offset_add {n : Nat} (hn : n ≤ ssizeMax) (h : p.toNat + n < 2 ^ 63) :
    (p + (BitVec.ofNat (8 * w.bytes) n).setWidth 64).toNat = p.toNat + n := by
  rw [BitVec.toNat_add, BitVec.toNat_setWidth, toNat_count hn,
    Nat.mod_eq_of_lt (a := n) (by simp [ssizeMax] at hn; omega), Nat.mod_eq_of_lt (by omega)]

theorem toNat_count_add {n : Nat} (h : k.toNat + n ≤ ssizeMax) :
    (k + BitVec.ofNat (8 * w.bytes) n).toNat = k.toNat + n := by
  have := ssizeMax_lt (w := w)
  rw [BitVec.toNat_add, toNat_count (by omega), Nat.mod_eq_of_lt (by omega)]

/-- Reads of one buffer after the other are one read into all of them. -/
theorem preadvLoop_reads (hlen : ∀ buf ∈ iov, buf.length ≤ maxRwBufferSize) (hr : P.Readable W.fs fh)
    (hp : p.toNat + room iov < 2 ^ 63) (hcount : k.toNat + room iov ≤ ssizeMax) :
    let r := L4fsFile.preadvLoop (Server.handler B d) fh W iov p k
    let bs := readAt (P.content W.fs fh) p.toNat (room iov)
    r.1.fs = W.fs ∧ r.2.1.toNat = k.toNat + bs.length ∧ r.2.2 = scatter iov bs := by
  induction iov generalizing W p k with
  | nil => simp [L4fsFile.preadvLoop, readAt, scatter]
  | cons buf rest ih =>
    rw [room_cons] at hp hcount
    have hbuf := hlen buf List.mem_cons_self
    obtain ⟨hfs, hrw, herr, hn⟩ := pread_reads (d := d) hbuf hr (toInt_nonneg_of_lt hp)
    have hle : (readAt (P.content W.fs fh) p.toNat buf.length).length ≤ buf.length := length_readAt_le
    generalize hbs : readAt (P.content W.fs fh) p.toNat buf.length = bs at hrw hn hle
    simp only [L4fsFile.preadvLoop]
    generalize L4fs.pread _ W fh _ p = r at hfs hrw herr hn
    have hmax := hle.trans (hbuf.trans maxRwBufferSize_le)
    have hok : ¬r.2.1.toInt < 0 := by
      rw [herr]
      decide
    rw [if_neg hok, herr, hn, toNat_count hmax]
    -- The buffer gets what was read, and keeps the rest.
    obtain ⟨W', hW', hcopied⟩ : ∃ W', W'.fs = W.fs ∧
        (if (0 : CInt) = 0 ∧ BitVec.ofNat (8 * w.bytes) bs.length ≠ 0 then r.1.copyOut buf bs.length else (r.1, buf)) =
          (W', bs ++ buf.drop bs.length) := by
      by_cases hzero : bs = []
      · exact ⟨r.1, hfs, by simp [hzero]⟩
      · have hne : BitVec.ofNat (8 * w.bytes) bs.length ≠ 0 := fun h => by
          have := congrArg BitVec.toNat h
          rw [toNat_count hmax] at this
          exact hzero (List.length_eq_zero_iff.mp this)
        refine ⟨(r.1.copyOut buf bs.length).1, hfs, ?_⟩
        rw [if_pos ⟨rfl, hne⟩, World.copyOut, hrw, Mem.read_write]
    rw [hcopied]
    have hoffset : (p + (BitVec.ofNat (8 * w.bytes) bs.length).setWidth 64).toNat = p.toNat + bs.length :=
      toNat_offset_add hmax (by omega)
    have hsum : (k + BitVec.ofNat (8 * w.bytes) bs.length).toNat = k.toNat + bs.length :=
      toNat_count_add (by omega)
    obtain ⟨hfs', hcount', hbufs⟩ := ih (W := W') (p := p + (BitVec.ofNat (8 * w.bytes) bs.length).setWidth 64)
      (k := k + BitVec.ofNat (8 * w.bytes) bs.length) (fun buf hb => hlen buf (List.mem_cons_of_mem _ hb))
      (by rw [hW']; exact hr) (by rw [hoffset]; omega) (by rw [hsum]; omega)
    rw [hW', hoffset] at hcount' hbufs
    refine ⟨by rw [hfs', hW'], ?_, ?_⟩
    · rw [hcount', hsum, room_cons, readAt_add, ← readAt_after (n := buf.length), hbs, List.length_append,
        Nat.add_assoc]
    · rw [hbufs, scatter_readAt, hbs]

theorem preadv_fails (hiov : iov ≠ []) (hlen : ∀ buf ∈ iov, buf.length ≤ maxRwBufferSize)
    (hr : ¬(P.Readable W.fs fh ∧ 0 ≤ p.toInt)) :
    let r := L4fsFile.preadv (Server.handler B d) W fh iov p
    r.1.fs = W.fs ∧ r.2.1.toInt < 0 := by
  cases iov with
  | nil => exact absurd rfl hiov
  | cons buf rest =>
    obtain ⟨hfs, herr⟩ := pread_fails (d := d) (hlen buf List.mem_cons_self) hr
    simp only [L4fsFile.preadv, L4fsFile.preadvLoop]
    generalize L4fs.pread _ W fh _ p = r at hfs herr
    rw [if_pos (by rw [herr]; decide), herr]
    exact ⟨hfs, by rw [signExtend_neg_one]; decide⟩

/-- Writes of one buffer after the other are one write of all of them. -/
theorem pwritevLoop_writes (hlen : ∀ buf ∈ iov, buf.length ≤ maxRwBufferSize) (hw : P.Writable W.fs fh)
    (hp : p.toNat + room iov < 2 ^ 63) (hcount : k.toNat + room iov ≤ ssizeMax) :
    let r := L4fsFile.pwritevLoop (Server.handler B d) fh W iov p k
    r.1.fs = P.store W.fs fh (overwrite (P.content W.fs fh) p.toNat iov.flatten) ∧
      r.2.toNat = k.toNat + room iov := by
  induction iov generalizing W p k with
  | nil => simp [L4fsFile.pwritevLoop, P.store_content]
  | cons buf rest ih =>
    rw [room_cons] at hp hcount
    have hbuf := hlen buf List.mem_cons_self
    obtain ⟨hfs, herr, hn⟩ := pwrite_writes (d := d) hbuf hw (toInt_nonneg_of_lt hp)
    simp only [L4fsFile.pwritevLoop]
    generalize L4fs.pwrite _ (W.copyIn buf) fh _ p = r at hfs herr hn
    have hmax := hbuf.trans maxRwBufferSize_le
    have hok : ¬r.2.1.toInt < 0 := by
      rw [herr]
      decide
    rw [if_neg hok, hn, if_neg (not_not_intro rfl)]
    have hoffset : (p + (BitVec.ofNat (8 * w.bytes) buf.length).setWidth 64).toNat = p.toNat + buf.length :=
      toNat_offset_add hmax (by omega)
    have hsum : (k + BitVec.ofNat (8 * w.bytes) buf.length).toNat = k.toNat + buf.length :=
      toNat_count_add (by omega)
    obtain ⟨hfs', hcount'⟩ := ih (W := r.1) (p := p + (BitVec.ofNat (8 * w.bytes) buf.length).setWidth 64)
      (k := k + BitVec.ofNat (8 * w.bytes) buf.length) (fun buf hb => hlen buf (List.mem_cons_of_mem _ hb))
      (by rw [hfs]; exact P.writable_store hw) (by rw [hoffset]; omega) (by rw [hsum]; omega)
    refine ⟨?_, by rw [hcount', hsum, room_cons, Nat.add_assoc]⟩
    rw [hfs', hfs, hoffset, P.content_store, P.store_store, overwrite_append, List.flatten_cons]

theorem pwritev_fails (hiov : iov ≠ []) (hlen : ∀ buf ∈ iov, buf.length ≤ maxRwBufferSize)
    (hw : ¬(P.Writable W.fs fh ∧ 0 ≤ p.toInt)) :
    let r := L4fsFile.pwritev (Server.handler B d) W fh iov p
    r.1.fs = W.fs ∧ r.2.toInt < 0 := by
  cases iov with
  | nil => exact absurd rfl hiov
  | cons buf rest =>
    obtain ⟨hfs, herr⟩ := pwrite_fails (d := d) (hlen buf List.mem_cons_self) hw
    simp only [L4fsFile.pwritev, L4fsFile.pwritevLoop]
    generalize L4fs.pwrite _ (W.copyIn buf) fh _ p = r at hfs herr
    rw [if_pos (by rw [herr]; decide), herr]
    exact ⟨hfs, by rw [signExtend_neg_one]; decide⟩

end Transfers

/-! ## Simulation -/

section Simulation
variable {E : Ipc .w32} {σ : Type} {B : Backing E σ} {d : σ → CInt → σ × CInt × Bool} {be : BeFile}
  {s s' : Clients E σ} {W : World E (Server σ)}

/-- The result of a path call, on its way from the server to the client. -/
theorem agrees_result {srv : Server σ} {fs : σ} {r : Except Errno Unit} {ret : CInt}
    (hs : W.svr.obj = (srv.result fs r fun _ => 0).1) (hret : ret = (srv.result fs r fun _ => 0).2) :
    W.fs = fs ∧ Agrees (ret.toInt, []) (r.map fun _ => (0, [])) := by
  refine ⟨by rw [World.fs, hs, Server.result_fs], ?_⟩
  rw [hret]
  cases r with
  | ok => rfl
  | error e => exact (by decide : (-1 : CInt).toInt < 0)

theorem direct_path {r : σ × Except Errno Unit} (h : W.fs = r.1) :
    s.direct.path r = (Clients.direct { s with world := W }, r.2.map fun _ => (0, [])) := by
  simp only [Direct.path, Clients.direct, h]

theorem direct_update {o : ObjId} {f : Option File} :
    Clients.direct ⟨W, Function.update s.objects o f⟩ =
      ⟨W.fs, Function.update (Option.map File.fh ∘ s.objects) o (f.map File.fh)⟩ := by
  simp only [Clients.direct, Function.comp_update]

theorem ofMem_copyIn {dst : CString} (h : dst.strlen + 1 ≤ maxPathSize .w32) :
    CString.ofMem (W.copyIn dst.c_str).svr.obj.rwBuf 0 maxRwBufferSize = dst := by
  have hmax : maxPathSize .w32 ≤ maxRwBufferSize := by decide
  have hread := read_copyIn (W := W) dst.c_str (by rw [CString.length_c_str]; omega)
  rw [CString.length_c_str] at hread
  exact CString.ofMem_of_read hread (by omega)

theorem rename_simulates {«from» dst : CString} (hfrom : «from».strlen + 1 ≤ maxPathSize .w32)
    (hdst : dst.strlen + 1 ≤ maxPathSize .w32) :
    let r := L4fsDir.rename (Server.handler B d) W «from» dst
    let r' := B.rename W.fs (tmpDir ++ «from».bytes) (tmpDir ++ dst.bytes)
    r.1.fs = r'.1 ∧ Agrees (r.2.toInt, []) (r'.2.map fun _ => (0, [])) := by
  have hok : L4fs.tooLong .w32 dst = false := L4fs.tooLong_of_fits hdst
  obtain ⟨hs, hret⟩ := L4fs.rename_eq (h := Server.handler B d) (W := W.copyIn dst.c_str) hfrom
  rw [Server.handler_rename] at hs hret
  simp only [Server.rename, ofMem_copyIn hdst, Server.getActualPath_path, Server.getActualPath_fs,
    Server.copied_fs] at hs hret
  simp only [L4fsDir.rename, hok, Bool.false_eq_true, ↓reduceIte]
  exact agrees_result hs hret

theorem getEntry_simulates {o : ObjId} {name : CString} {flags : CInt} {mode : ModeT}
    (hn : name.strlen + 1 ≤ maxPathSize .w32) (hfree : s.objects o = none) :
    let r := L4fsDir.getEntry (Server.handler B d) s.world true name flags mode
    ∃ out, s.direct.call B (.getEntry o name flags mode) =
        some (Clients.direct ⟨r.1, Function.update s.objects o r.2.2⟩, out) ∧ Agrees (r.2.1.toInt, []) out := by
  have hfree' : s.direct.handles o = none := by simp [Clients.direct, hfree]
  obtain ⟨hs, hret⟩ := L4fs.open_eq (h := Server.handler B d) (W := s.world)
    (if name.bytes = [] then flags ||| oDirectory else flags) mode hn
  rw [Server.handler_open] at hs hret
  simp only [Server.open, Server.getActualPath_path, Server.getActualPath_fs] at hs hret
  simp only [L4fsDir.getEntry, Direct.call, if_pos hfree']
  generalize L4fs.open _ s.world name _ mode = r at hs hret
  rw [show s.direct.fs = s.world.svr.obj.fs from rfl]
  generalize hopen : B.open s.world.svr.obj.fs _ _ mode = res at hs hret
  obtain ⟨fs, res⟩ := res
  have hfs : r.1.fs = fs := by rw [World.fs, hs, Server.result_fs]
  cases res with
  | ok fd =>
    have hfd : ¬r.2.1.toInt < 0 := by
      rw [hret]
      exact Int.not_lt.mpr (B.open_nonneg hopen)
    rw [if_neg hfd, if_pos trivial]
    refine ⟨.ok (0, []), ?_, rfl⟩
    rw [direct_update, hfs]
    have hfh : (some (if sIsdir r.2.2 then File.dir r.2.1 0 else File.file r.2.1)).map File.fh = some fd := by
      rw [hret]
      split <;> rfl
    rw [hfh]
    rfl
  | error e =>
    have hneg : r.2.1.toInt < 0 := by
      rw [hret]
      exact (by decide : (-1 : CInt).toInt < 0)
    rw [if_pos hneg]
    refine ⟨.error e, ?_, hneg⟩
    rw [direct_update, hfs, Option.map_none, Function.update_eq_self_iff.mpr hfree'.symm]
    rfl

theorem toNat_eq_toInt {p : Off64T} (h : 0 ≤ p.toInt) : (p.toNat : Int) = p.toInt := by
  rw [BitVec.toInt_eq_toNat_cond] at h ⊢
  split at h
  · next hlt => rw [if_pos hlt]
  · omega

theorem toInt_eq_count {w : Word} {v : SSizeT w} {n : Nat} (hv : v.toNat = (0 : SSizeT w).toNat + n)
    (hn : n ≤ ssizeMax) : v.toInt = n := by
  have hnat : v.toNat = n := by simpa using hv
  rw [toInt_count (hnat.symm ▸ hn), hnat]

theorem preadv_simulates (P : Positional B) (fh : CInt) {iov : List (List UInt8)} {p : Off64T} (hiov : iov ≠ [])
    (hlen : ∀ buf ∈ iov, buf.length ≤ maxRwBufferSize) (hp : p.toInt + room iov < 2 ^ 63)
    (hroom : room iov ≤ ssizeMax) :
    let r := L4fsFile.preadv (Server.handler B d) W fh iov p
    r.1.fs = W.fs ∧ Agrees (r.2.1.toInt, r.2.2) (Direct.preadv B W.fs fh iov p) := by
  simp only [Direct.preadv, if_neg (Nat.not_lt.mpr hroom)]
  by_cases hr : P.Readable W.fs fh ∧ 0 ≤ p.toInt
  · have hnat := toNat_eq_toInt hr.2
    obtain ⟨hfs, hcount, hbufs⟩ := preadvLoop_reads (d := d) (W := W) (p := p) (w := .w32) hlen hr.1 (by omega)
      (show (0 : SSizeT .w32).toNat + _ ≤ _ by simpa using hroom)
    have hle : (readAt (P.content W.fs fh) p.toNat (room iov)).length ≤ room iov := length_readAt_le
    rw [P.pread64_eq hr.1 hr.2]
    exact ⟨hfs, Prod.ext (toInt_eq_count hcount (hle.trans hroom)) hbufs⟩
  · obtain ⟨hfs, hneg⟩ := preadv_fails (d := d) hiov hlen hr
    obtain ⟨e, he⟩ := P.pread64_error W.fs fh (room iov) p hr
    rw [he]
    exact ⟨hfs, hneg⟩

theorem pwritev_simulates (P : Positional B) (fh : CInt) {iov : List (List UInt8)} {p : Off64T} (hiov : iov ≠ [])
    (hlen : ∀ buf ∈ iov, buf.length ≤ maxRwBufferSize) (hp : p.toInt + room iov < 2 ^ 63)
    (hroom : room iov ≤ ssizeMax) :
    let r := L4fsFile.pwritev (Server.handler B d) W fh iov p
    let r' := Direct.pwritev B W.fs fh iov p
    r.1.fs = r'.1 ∧ Agrees (r.2.toInt, []) r'.2 := by
  simp only [Direct.pwritev, if_neg (Nat.not_lt.mpr hroom)]
  by_cases hw : P.Writable W.fs fh ∧ 0 ≤ p.toInt
  · have hnat := toNat_eq_toInt hw.2
    obtain ⟨hfs, hcount⟩ := pwritevLoop_writes (d := d) (W := W) (p := p) (w := .w32) hlen hw.1 (by omega)
      (show (0 : SSizeT .w32).toNat + _ ≤ _ by simpa using hroom)
    rw [P.pwrite64_eq hw.1 hw.2]
    rw [length_flatten_eq_room]
    exact ⟨hfs, Prod.ext (toInt_eq_count hcount hroom) rfl⟩
  · obtain ⟨hfs, hneg⟩ := pwritev_fails (d := d) hiov hlen hw
    obtain ⟨e, he⟩ := P.pwrite64_error W.fs fh iov.flatten p hw
    rw [he]
    exact ⟨hfs, hneg⟩

theorem close_simulates (P : Positional B) (f : File) :
    let r := L4fsFileBase.close (Server.handler B d) W f
    let r' := B.close W.fs f.fh
    r.1.fs = r'.1 ∧ Agrees (r.2.1.toInt, []) (r'.2.map fun _ => (0, [])) ∧ r.2.2.fh = -1 := by
  by_cases hopen : 0 ≤ f.fh.toInt
  · obtain ⟨hs, hret⟩ := L4fs.close_eq (h := Server.handler B d) (W := W) f.fh
    rw [Server.handler_close] at hs hret
    simp only [L4fsFileBase.close, if_pos hopen, File.fh_setFh]
    obtain ⟨hfs, hagrees⟩ := agrees_result hs hret
    exact ⟨hfs, hagrees, trivial⟩
  · -- Nothing is sent, and nothing would be closed.
    obtain ⟨e, he⟩ := P.close_error (s := W.fs) (Int.not_le.mp hopen)
    simp only [L4fsFileBase.close, if_neg hopen, File.fh_setFh, he]
    exact ⟨trivial, (by decide : (-ebadf : CInt).toInt < 0), trivial⟩

/-- A call of a client simulates the direct call. -/
theorem Clients.call_simulates (P : Positional B) {c : FsCall} {r : Int × List (List UInt8)} (hdom : c.InDomain)
    (hserved : c.Served s) (accepted : s.call (Server.handler B d) be c = some (s', r)) :
    ∃ out, s.direct.call B c = some (s'.direct, out) ∧ Agrees r out := by
  cases c with
  | getEntry o name flags mode =>
    simp only [call] at accepted
    split at accepted
    · next hfree =>
      cases accepted
      exact getEntry_simulates hdom hfree
    · cases accepted
  | preadv o iov p =>
    obtain ⟨f, ho, hs⟩ := Option.map_eq_some_iff.mp accepted
    obtain ⟨hiov, hlen, hp⟩ := hdom
    cases f with
    -- A call at a descriptor that was taken for a directory is left out.
    | dir fh pos => exact absurd ho (hserved.1 fh pos)
    | file fh =>
      cases hs
      obtain ⟨hfs, hagrees⟩ := preadv_simulates (d := d) (W := s.world) P fh hiov hlen hp hserved.2
      refine ⟨Direct.preadv B s.world.fs fh iov p, ?_, hagrees⟩
      simp [Direct.call, direct, ho, File.fh, hfs]
  | pwritev o iov p =>
    obtain ⟨f, ho, hs⟩ := Option.map_eq_some_iff.mp accepted
    obtain ⟨hiov, hlen, hp⟩ := hdom
    cases f with
    | dir fh pos => exact absurd ho (hserved.1 fh pos)
    | file fh =>
      cases hs
      obtain ⟨hfs, hagrees⟩ := pwritev_simulates (d := d) (W := s.world) P fh hiov hlen hp hserved.2
      refine ⟨(Direct.pwritev B s.world.fs fh iov p).2, ?_, hagrees⟩
      simp [Direct.call, direct, ho, File.fh, hfs]
  | close o =>
    obtain ⟨f, ho, hs⟩ := Option.map_eq_some_iff.mp accepted
    cases hs
    obtain ⟨hfs, hagrees, hfh⟩ := close_simulates (d := d) (W := s.world) P f
    refine ⟨_, ?_, hagrees⟩
    rw [direct_update, Option.map_some, hfh, hfs]
    simp [Direct.call, direct, ho]
  | mkdir name mode =>
    cases accepted
    obtain ⟨hs, hret⟩ := L4fs.mkdir_eq (h := Server.handler B d) (W := s.world) mode hdom
    rw [Server.handler_mkdir] at hs hret
    simp only [Server.mkdir, Server.getActualPath_path, Server.getActualPath_fs] at hs hret
    obtain ⟨hfs, hagrees⟩ := agrees_result hs hret
    exact ⟨_, congrArg some (direct_path hfs), hagrees⟩
  | rmdir name =>
    cases accepted
    obtain ⟨hs, hret⟩ := L4fs.rmdir_eq (h := Server.handler B d) (W := s.world) hdom
    rw [Server.handler_rmdir] at hs hret
    simp only [Server.rmdir, Server.getActualPath_path, Server.getActualPath_fs] at hs hret
    obtain ⟨hfs, hagrees⟩ := agrees_result hs hret
    exact ⟨_, congrArg some (direct_path hfs), hagrees⟩
  | unlink name =>
    cases accepted
    obtain ⟨hs, hret⟩ := L4fs.unlink_eq (h := Server.handler B d) (W := s.world) hdom
    rw [Server.handler_unlink] at hs hret
    simp only [Server.unlink, Server.getActualPath_path, Server.getActualPath_fs] at hs hret
    obtain ⟨hfs, hagrees⟩ := agrees_result hs hret
    exact ⟨_, congrArg some (direct_path hfs), hagrees⟩
  | rename «from» dst =>
    cases accepted
    obtain ⟨hfs, hagrees⟩ := rename_simulates (d := d) (W := s.world) hdom.1 hdom.2
    exact ⟨_, congrArg some (direct_path hfs), hagrees⟩

/-- Calls of any number of clients, made one after the other, simulate the same direct calls: each succeeds
    when the direct call does, with the same byte count and buffers, and they leave the same file system. -/
theorem Clients.calls_refine (P : Positional B) (d : σ → CInt → σ × CInt × Bool) (be : BeFile) (s s' : Clients E σ)
    (calls : List (FsCall × Int × List (List UInt8)))
    (run : Calls (Server.handler B d) be (fun s c => c.InDomain ∧ c.Served s) s calls s') :
    ∃ outs, Direct.Calls B s.direct outs s'.direct ∧
    List.Forall₂ (fun a b => a.1 = b.1 ∧ Agrees a.2 b.2) calls outs := by
  induction run with
  | nil s => exact ⟨[], .nil _, .nil⟩
  | @cons s middle last c r calls allowed accepted tail ih =>
    obtain ⟨outs, htail, hall⟩ := ih
    obtain ⟨out, hout, hagrees⟩ := call_simulates P allowed.1 allowed.2 accepted
    exact ⟨(c, out) :: outs, .cons hout htail, .cons ⟨rfl, hagrees⟩ hall⟩

end Simulation

/-! ### A file system with one file -/

/-- A file system with a single file, which descriptor 3 stands for: its state is the content of the file. -/
def oneFile (E : Ipc .w32) : Backing E (List UInt8) where
  «open» s _ _ _ := (s, .ok 3)
  mkdir s _ _ := (s, .error 17)
  rename s _ _ := (s, .error 2)
  unlink s _ := (s, .error 1)
  rmdir s _ := (s, .error 20)
  close s fd := if fd = 3 then (s, .ok ()) else (s, .error 9)
  pread64 s fd n p := if fd = 3 ∧ 0 ≤ p.toInt then .ok (readAt s p.toNat n) else .error 9
  pwrite64 s fd bs p := if fd = 3 ∧ 0 ≤ p.toInt then (overwrite s p.toNat bs, .ok bs.length) else (s, .error 9)
  fstat64 _ _ := .error 5
  open_nonneg h := by cases h; decide
  pread64_le := by
    intro s fd n p bs h
    split at h <;> cases h
    exact length_readAt_le
  pwrite64_le := by
    intro s fd bs p s' n h
    split at h <;> cases h
    exact Nat.le_refl _

def oneFilePositional (E : Ipc .w32) : Positional (oneFile E) where
  content s _ := s
  store _ _ c := c
  Readable _ fd := fd = 3
  Writable _ fd := fd = 3
  pread64_eq hr hp := if_pos ⟨hr, hp⟩
  pread64_error _ _ _ _ h := ⟨9, if_neg h⟩
  pwrite64_eq hw hp := if_pos ⟨hw, hp⟩
  pwrite64_error _ _ _ _ h := ⟨9, if_neg h⟩
  close_error := by
    intro s fd h
    refine ⟨9, if_neg ?_⟩
    rintro rfl
    exact absurd h (by decide)
  content_store := rfl
  store_store := rfl
  store_content := rfl
  writable_store h := h

section OneFile

/-- The server on that file system. -/
def oneFileSvr : L4fsSvr Ipc.x86 (Server (List UInt8)) := Server.handler (oneFile Ipc.x86) fun s _ => (s, 0, false)

/-- No client has opened anything yet. -/
def oneFileClients : Clients Ipc.x86 (List UInt8) :=
  .start (.start (zeroStat Ipc.x86) (.start [] fun _ => 0))

/-- What `Be_file` answers. -/
def beFile : BeFile := ⟨⟨-einval, by decide⟩, ⟨-einval, by decide⟩⟩

/-- `open("a", O_CREAT | O_RDWR, mode)` by client 0. -/
def openA (mode : ModeT) : FsCall := .getEntry ⟨0, 0⟩ nameA 0o102 mode

/-- The clients when the file is open. -/
def openedA (mode : ModeT) : Clients Ipc.x86 (List UInt8) :=
  let r := L4fsDir.getEntry oneFileSvr oneFileClients.world true nameA 0o102 mode
  ⟨r.1, Function.update oneFileClients.objects ⟨0, 0⟩ r.2.2⟩

theorem getEntry_openA (mode : ModeT) :
    (L4fsDir.getEntry oneFileSvr oneFileClients.world true nameA 0o102 mode).2 =
      (0, some (if sIsdir mode then .dir 3 0 else .file 3)) := by
  obtain ⟨-, hret⟩ := L4fs.open_eq (h := oneFileSvr) (W := oneFileClients.world) 0o102 mode nameA_fits
  have hopen : (L4fs.open oneFileSvr oneFileClients.world nameA 0o102 mode).2 = (3, mode) := hret
  have hname : nameA.bytes ≠ [] := by decide
  have hok : ¬(3 : CInt).toInt < 0 := by decide
  simp only [L4fsDir.getEntry, if_neg hname, hopen, if_neg hok, if_pos]

theorem call_openA (mode : ModeT) :
    oneFileClients.call oneFileSvr beFile (openA mode) = some (openedA mode, 0, []) := by
  have hfree : oneFileClients.objects ⟨0, 0⟩ = none := rfl
  simp only [openA, Clients.call, if_pos hfree, getEntry_openA, openedA]
  rfl

theorem objects_openedA (mode : ModeT) :
    (openedA mode).objects ⟨0, 0⟩ = some (if sIsdir mode then .dir 3 0 else .file 3) := by
  simp only [openedA, Function.update_self, getEntry_openA]

/-- A write of two buffers into that file. -/
def writeA : FsCall := .pwritev ⟨0, 0⟩ [[65], [66]] 0

theorem inDomain_writeA : writeA.InDomain := ⟨by decide, by decide, by decide⟩

/-- What the write of client 0 returns, where the object is a file object. -/
def writtenA : World Ipc.x86 (Server (List UInt8)) × SSizeT .w32 :=
  L4fsFile.pwritev oneFileSvr (openedA 0o644).world 3 [[65], [66]] 0

theorem Clients.calls_refine_writeA :
    ∃ outs, Direct.Calls (oneFile Ipc.x86) oneFileClients.direct outs
        (Clients.direct ⟨writtenA.1, (openedA 0o644).objects⟩) ∧
      List.Forall₂ (fun a b => a.1 = b.1 ∧ Agrees a.2 b.2)
        [(openA 0o644, 0, []), (writeA, writtenA.2.toInt, [])] outs := by
  have hfile : (openedA 0o644).objects ⟨0, 0⟩ = some (.file 3) := objects_openedA _
  have hwrite : (openedA 0o644).call oneFileSvr beFile writeA =
      some (⟨writtenA.1, (openedA 0o644).objects⟩, writtenA.2.toInt, []) := by
    simp only [writeA, call, hfile, Option.map_some, writtenA]
  have hserved : writeA.Served (openedA 0o644) := ⟨fun fh pos => by rw [hfile]; simp, by decide⟩
  exact Clients.calls_refine (oneFilePositional Ipc.x86) _ beFile _ _ _
    (.cons ⟨nameA_fits, trivial⟩ (call_openA _) (.cons ⟨inDomain_writeA, hserved⟩ hwrite (.nil _)))

/-- The mode of the open says `S_IFDIR`: the write fails, and the direct write does not. -/
theorem Clients.dirMode_write_not_agrees :
    oneFileClients.call oneFileSvr beFile (openA 0o40644) = some (openedA 0o40644, 0, []) ∧ writeA.InDomain ∧
      ∃ r d out, (openedA 0o40644).call oneFileSvr beFile writeA = some (openedA 0o40644, r) ∧
        (openedA 0o40644).direct.call (oneFile Ipc.x86) writeA = some (d, out) ∧ ¬Agrees r out := by
  have hdir : (openedA 0o40644).objects ⟨0, 0⟩ = some (.dir 3 0) := objects_openedA _
  refine ⟨call_openA _, inDomain_writeA, ((-einval : CInt).toInt, []),
    ⟨overwrite (openedA 0o40644).world.fs 0 [65, 66], Option.map File.fh ∘ (openedA 0o40644).objects⟩, .ok (2, []),
    ?_, ?_, ?_⟩
  · simp only [writeA, call, hdir, Option.map_some, beFile]
  · simp only [writeA, Direct.call, direct, Function.comp_apply, hdir, Option.map_some]
    rfl
  · exact fun h => absurd (congrArg Prod.fst h) (by decide)

end OneFile

end Dom0
