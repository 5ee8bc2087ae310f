import Dom0.Theorems.ShortReads

/-! Writes that fail half-way. `pwritev` hands every entry to the server in a request of its own: an error at a later
entry leaves those before it in the file, and what is returned is the error alone. -/

namespace Dom0
open Contents Marshal

section
variable {w : Word} {E : Ipc w} {σ : Type}

/-- A server whose `pwrite` of a file fails, or stores as many of the bytes that lie in the shared buffer as it likes,
    up to those that it was asked to. -/
structure WritesAny (h : L4fsSvr E (Server σ)) (fh : CInt) (content : σ → List UInt8) (I : σ → Prop) : Prop where
  keeps : ∀ {s size p}, I s.fs → I (h.pwrite s fh size p).1.fs
  pwrite : ∀ {s size p}, I s.fs → size.toNat ≤ maxRwBufferSize →
    (∃ e : CInt, e.toInt < 0 ∧ (h.pwrite s fh size p).2 = e.signExtend _ ∧
        content (h.pwrite s fh size p).1.fs = content s.fs) ∨
      ∃ n ≤ size.toNat, (h.pwrite s fh size p).2 = BitVec.ofNat _ n ∧ (0 < n → p.toNat + n < 2 ^ 63) ∧
        content (h.pwrite s fh size p).1.fs = overwrite (content s.fs) p.toNat (s.rwBuf.read 0 n)

namespace L4fsFile

/-- How many bytes the server stores for these entries, up to the first error or short write, and whether an error is
    what ends it. -/
def pwriteStored (h : L4fsSvr E (Server σ)) (fh : CInt) : World E (Server σ) → List (List UInt8) → Off64T → Nat × Bool
  | _, [], _ => (0, false)
  | W, buf :: rest, p =>
    let r := L4fs.pwrite h (W.copyIn buf) fh (BitVec.ofNat _ buf.length) p
    if r.2.1.toInt < 0 then (0, true)
    else if r.2.2.toNat < buf.length then (r.2.2.toNat, false)
    else
      let t := pwriteStored h fh r.1 rest (p + r.2.2.setWidth 64)
      (buf.length + t.1, t.2)

/-- How many of `n` stored bytes the result can speak of: none of them after an error, nor where a `ssize_t` with their
    number is negative. -/
def reported (w : Word) (n : Nat) (failed : Bool) : Nat :=
  if failed ∨ 2 ^ (8 * w.bytes - 1) ≤ n % 2 ^ (8 * w.bytes) then 0 else n % 2 ^ (8 * w.bytes)

/-- What is stored and not spoken of is what the file held there already. -/
def Accounted (w : Word) (c : List UInt8) (p : Nat) (bs : List UInt8) (n : Nat) (failed : Bool) : Prop :=
  overwrite c p (bs.take n) = overwrite c p (bs.take (reported w n failed))

instance (w : Word) (c : List UInt8) (p : Nat) (bs : List UInt8) (n : Nat) (failed : Bool) :
    Decidable (Accounted w c p bs n failed) := inferInstanceAs (Decidable (_ = _))

theorem accounted_of_reported {c bs : List UInt8} {p n : Nat} {failed : Bool} (hfailed : failed = true → n = 0)
    (hn : n < 2 ^ (8 * w.bytes - 1)) : Accounted w c p bs n failed := by
  have hfits : n % 2 ^ (8 * w.bytes) = n :=
    Nat.mod_eq_of_lt (hn.trans (Nat.pow_lt_pow_right (by decide) (by cases w <;> decide)))
  cases failed with
  | true => rw [Accounted, hfailed rfl]; rfl
  | false => rw [Accounted, reported, hfits, if_neg (by simpa using hn)]

/-- A result that is not negative counts the bytes that are stored, and with a negative one the file is as it was. -/
def WritesExactly (c : List UInt8) (p : Off64T) (iov : List (List UInt8)) (ret : SSizeT w) (c' : List UInt8) : Prop :=
  (0 ≤ ret.toInt → ret.toNat ≤ room iov ∧ c' = overwrite c p.toNat (iov.flatten.take ret.toNat)) ∧
    (ret.toInt < 0 → c' = c)

theorem writesExactly_of_neg {c c' : List UInt8} {p : Off64T} {iov : List (List UInt8)} {ret : SSizeT w}
    (hret : ret.toInt < 0) : WritesExactly c p iov ret c' ↔ c' = c :=
  ⟨fun hexact => hexact.2 hret, fun hsame => ⟨fun hnonneg => absurd hret (Int.not_lt.mpr hnonneg), fun _ => hsame⟩⟩

theorem writesExactly_of_nonneg {c c' : List UInt8} {p : Off64T} {iov : List (List UInt8)} {ret : SSizeT w}
    (hret : 0 ≤ ret.toInt) (hroom : ret.toNat ≤ room iov) :
    WritesExactly c p iov ret c' ↔ c' = overwrite c p.toNat (iov.flatten.take ret.toNat) :=
  ⟨fun hexact => (hexact.1 hret).2, fun hfile =>
    ⟨fun _ => ⟨hroom, hfile⟩, fun hneg => absurd hneg (Int.not_lt.mpr hret)⟩⟩

section
variable {h : L4fsSvr E (Server σ)} {fh : CInt} {content : σ → List UInt8} {I : σ → Prop} {W : World E (Server σ)}
  {p : Off64T} {iov : List (List UInt8)} {buf : List UInt8}

theorem pwrite_any (hw : WritesAny h fh content I) (hI : I W.fs) (hbuf : buf.length ≤ maxRwBufferSize) :
    let r := L4fs.pwrite h (W.copyIn buf) fh (BitVec.ofNat _ buf.length) p
    I r.1.fs ∧ (r.2.1.toInt < 0 ∧ content r.1.fs = content W.fs ∨
      r.2.1 = 0 ∧ ∃ n ≤ buf.length, r.2.2 = BitVec.ofNat _ n ∧ (0 < n → p.toNat + n < 2 ^ 63) ∧
        content r.1.fs = overwrite (content W.fs) p.toNat (buf.take n)) := by
  have hsize : (BitVec.ofNat (8 * w.bytes) buf.length).toNat = buf.length := toNat_count (hbuf.trans maxRwBufferSize_le)
  obtain ⟨hobj, herr, hcount⟩ := L4fs.pwrite_eq (h := h) (W := W.copyIn buf) fh (BitVec.ofNat _ buf.length) p
    (hsize.symm ▸ hbuf)
  have hfs : (L4fs.pwrite h (W.copyIn buf) fh (BitVec.ofNat _ buf.length) p).1.fs =
      (h.pwrite (W.copyIn buf).svr.obj fh (BitVec.ofNat _ buf.length) p).1.fs := by rw [World.fs, hobj]
  have hI' : I (W.copyIn buf).svr.obj.fs := hI
  refine ⟨hfs ▸ hw.keeps hI', ?_⟩
  rcases hw.pwrite (p := p) hI' (hsize.symm ▸ hbuf) with ⟨e, he, hret, hsame⟩ | ⟨n, hn, hret, hlt, hstored⟩
  · refine Or.inl ⟨?_, by rw [hfs, hsame]; rfl⟩
    rw [herr, hret]
    exact counted_label_neg he
  · rw [hsize] at hn
    refine Or.inr ⟨?_, n, hn, hcount.trans hret, hlt, ?_⟩
    · rw [herr, hret, counted_label_count (hn.trans (hbuf.trans maxRwBufferSize_le))]
    · have hread : (W.copyIn buf).rwBuf.read 0 n = buf.take n := by
        rw [← Mem.take_read hn, read_copyIn buf hbuf]
      rw [hfs, hstored]
      exact congrArg _ hread

/-- What the loop leaves in the file, and what it returns. -/
theorem pwritevLoop_stores (hw : WritesAny h fh content I) (hI : I W.fs)
    (hlen : ∀ buf ∈ iov, buf.length ≤ maxRwBufferSize)
    (k : SSizeT w) :
    let stored := pwriteStored h fh W iov p
    let r := pwritevLoop h fh W iov p k
    stored.1 ≤ room iov ∧ content r.1.fs = overwrite (content W.fs) p.toNat (iov.flatten.take stored.1) ∧
      if stored.2 then r.2.toInt < 0 else r.2 = k + BitVec.ofNat _ stored.1 := by
  induction iov generalizing W p k with
  | nil => exact ⟨Nat.le_refl _, by simp [pwritevLoop, pwriteStored], by simp [pwritevLoop, pwriteStored]⟩
  | cons buf rest ih =>
    have hbuf := hlen buf List.mem_cons_self
    obtain ⟨hI', hcases⟩ := pwrite_any hw hI hbuf (p := p)
    simp only [pwritevLoop, pwriteStored]
    generalize L4fs.pwrite h (W.copyIn buf) fh _ p = r at hI' hcases
    rw [room_cons, List.flatten_cons]
    rcases hcases with ⟨hneg, hsame⟩ | ⟨hzero, n, hn, hcount, hlt, hstored⟩
    · simp only [if_pos hneg, if_true]
      refine ⟨Nat.zero_le _, by rw [hsame]; simp, ?_⟩
      rw [toInt_signExtend_int]
      exact hneg
    have hmax : n ≤ ssizeMax := hn.trans (hbuf.trans maxRwBufferSize_le)
    have hok : ¬r.2.1.toInt < 0 := by
      rw [hzero]
      decide
    simp only [if_neg hok, hcount, toNat_count hmax]
    rcases Nat.lt_or_eq_of_le hn with hshort | rfl
    · -- A short write ends the loop.
      have hne : BitVec.ofNat (8 * w.bytes) n ≠ BitVec.ofNat (8 * w.bytes) buf.length := by
        intro heq
        have hnat := congrArg BitVec.toNat heq
        rw [toNat_count hmax, toNat_count (hbuf.trans maxRwBufferSize_le)] at hnat
        omega
      simp only [if_pos hshort, if_pos hne, Bool.false_eq_true, if_false]
      refine ⟨by omega, ?_, trivial⟩
      rw [hstored, List.take_append_of_le_length (Nat.le_of_lt hshort)]
    · rw [if_neg (Nat.lt_irrefl _), if_neg (not_not_intro rfl)]
      have hoffset : (p + (BitVec.ofNat (8 * w.bytes) buf.length).setWidth 64).toNat = p.toNat + buf.length := by
        rcases Nat.eq_zero_or_pos buf.length with hnone | hpos
        · simp [hnone]
        · exact toNat_offset_add hmax (hlt hpos)
      obtain ⟨hle, hrest, hret⟩ := ih (W := r.1) (p := p + (BitVec.ofNat (8 * w.bytes) buf.length).setWidth 64) hI'
        (fun buf hb => hlen buf (List.mem_cons_of_mem _ hb)) (k + BitVec.ofNat _ buf.length)
      refine ⟨Nat.add_le_add_left hle _, ?_, ?_⟩
      · rw [hrest, hoffset, hstored, List.take_length, overwrite_append, List.take_length_add_append]
      · rw [BitVec.ofNat_add, ← BitVec.add_assoc]
        exact hret

/-- `pwritev` does what it should exactly where the bytes that are stored without being reported are the file's own. -/
theorem pwritev_writesExactly_iff (hw : WritesAny h fh content I) (W : World E (Server σ)) (hI : I W.fs)
    (iov : List (List UInt8)) (hlen : ∀ buf ∈ iov, buf.length ≤ maxRwBufferSize) (p : Off64T) :
    WritesExactly (content W.fs) p iov (pwritev h W fh iov p).2 (content (pwritev h W fh iov p).1.fs) ↔
      Accounted w (content W.fs) p.toNat iov.flatten (pwriteStored h fh W iov p).1 (pwriteStored h fh W iov p).2 := by
  obtain ⟨hle, hfile, hret⟩ := pwritevLoop_stores hw hI hlen (p := p) 0
  simp only [pwritev]
  generalize pwriteStored h fh W iov p = stored at hle hfile hret
  generalize pwritevLoop h fh W iov p 0 = r at hfile hret
  obtain ⟨n, failed⟩ := stored
  rw [hfile]
  cases failed with
  | true =>
    have hneg : r.2.toInt < 0 := hret
    rw [writesExactly_of_neg hneg, Accounted, reported, if_pos (Or.inl rfl), List.take_zero, overwrite_nil]
  | false =>
    have hcount : r.2 = BitVec.ofNat _ n := by simpa using hret
    have hword := w.two_pow_eq
    have hnat : r.2.toNat = n % 2 ^ (8 * w.bytes) := by rw [hcount, BitVec.toNat_ofNat]
    have hint := BitVec.toInt_eq_toNat_cond r.2
    rw [hnat] at hint
    by_cases hbig : 2 ^ (8 * w.bytes - 1) ≤ n % 2 ^ (8 * w.bytes)
    · have hneg : r.2.toInt < 0 := by
        have hmod := Nat.mod_lt n (Nat.two_pow_pos (8 * w.bytes))
        rw [if_neg (by omega)] at hint
        omega
      rw [writesExactly_of_neg hneg, Accounted, reported, if_pos (Or.inr hbig), List.take_zero, overwrite_nil]
    · have hnonneg : 0 ≤ r.2.toInt := by
        rw [if_pos (by omega)] at hint
        omega
      have hroom : r.2.toNat ≤ room iov := hnat ▸ (Nat.mod_le _ _).trans hle
      rw [writesExactly_of_nonneg hnonneg hroom, Accounted, reported, if_neg (by simp [hbig]), hnat]

end

end L4fsFile

/-- `fs_srv` is such a server on every file system whose writes store bytes where they should. -/
theorem writesAny_of_backing {B : Backing E σ} {d : σ → CInt → σ × CInt × Bool} {fh : CInt} {content : σ → List UInt8}
    {I : σ → Prop} (hkeeps : ∀ fs bs (p : Off64T), I fs → I (B.pwrite64 fs fh bs p).1)
    (hB : ∀ fs bs (p : Off64T), I fs →
      (∃ e, (B.pwrite64 fs fh bs p).2 = .error e ∧ content (B.pwrite64 fs fh bs p).1 = content fs) ∨
        ∃ n, (B.pwrite64 fs fh bs p).2 = .ok n ∧ (0 < n → p.toNat + n < 2 ^ 63) ∧
          content (B.pwrite64 fs fh bs p).1 = overwrite (content fs) p.toNat (bs.take n)) :
    WritesAny (Server.handler B d) fh content I where
  keeps := by
    intro s size p hs
    simp only [Server.handler_pwrite, Server.pwrite]
    split <;> exact hkeeps _ _ _ hs
  pwrite := by
    intro s size p hs hsize
    simp only [Server.handler_pwrite, Server.pwrite]
    rcases hB s.fs (s.rwBuf.read 0 size.toNat) p hs with ⟨e, herror, hsame⟩ | ⟨n, hok, hlt, hstored⟩
    · rw [herror]
      refine Or.inl ⟨-1, by decide, ?_, hsame⟩
      cases w <;> rfl
    · have hn : n ≤ size.toNat := by
        have hle := B.pwrite64_le (Prod.ext rfl hok)
        rwa [Mem.length_read] at hle
      rw [Mem.take_read hn] at hstored
      rw [hok]
      exact Or.inr ⟨n, hn, rfl, hlt, hstored⟩

end

/-! ### A file system that is nearly full -/

/-- The file system with other writes. -/
def Backing.writing {w : Word} {E : Ipc w} {σ : Type} (B : Backing E σ)
    (pwrite64 : σ → CInt → List UInt8 → Off64T → σ × Except Errno Nat)
    (hle : ∀ {fs fd bs p fs' n}, pwrite64 fs fd bs p = (fs', .ok n) → n ≤ bs.length) : Backing E σ :=
  { B with pwrite64 := pwrite64, pwrite64_le := hle }

/-- The file system with one file, in which no file can have more than `capacity` bytes. A write stores what still
    fits. -/
def crammed (E : Ipc .w32) (capacity : Nat) : Backing E (List UInt8) :=
  (oneFile E).writing
    (fun fs fd bs p =>
      if p.toNat < capacity then (oneFile E).pwrite64 fs fd (bs.take (capacity - p.toNat)) p else (fs, .error 28)) <| by
      intro fs fd bs p fs' n h
      split at h
      · exact ((oneFile E).pwrite64_le h).trans (List.length_take_le' _ _)
      · cases h

def crammedSvr (capacity : Nat) : L4fsSvr Ipc.x86 (Server (List UInt8)) :=
  Server.handler (crammed Ipc.x86 capacity) fun s _ => (s, 0, false)

def noBytes : World Ipc.x86 (Server (List UInt8)) := .start (zeroStat Ipc.x86) (.start [] fun _ => 0)

theorem pwrite64_crammed {capacity : Nat} {fs bs : List UInt8} {p : Off64T} (hp : 0 ≤ p.toInt) :
    (crammed Ipc.x86 capacity).pwrite64 fs 3 bs p =
      if p.toNat < capacity then
        (overwrite fs p.toNat (bs.take (capacity - p.toNat)), .ok (bs.take (capacity - p.toNat)).length)
      else (fs, .error 28) := by
  have hfile (bs : List UInt8) : (oneFile Ipc.x86).pwrite64 fs 3 bs p = (overwrite fs p.toNat bs, .ok bs.length) :=
    if_pos ⟨rfl, hp⟩
  rw [← hfile]
  rfl

theorem writesAny_crammed {capacity : Nat} (hcap : capacity < 2 ^ 63) :
    WritesAny (crammedSvr capacity) 3 id fun _ => True := by
  refine writesAny_of_backing (fun _ _ _ _ => trivial) fun fs bs p _ => ?_
  by_cases hfits : p.toNat < capacity
  · rw [pwrite64_crammed (toInt_nonneg_of_lt (n := 0) (by omega)), if_pos hfits]
    have hlen : (bs.take (capacity - p.toNat)).length ≤ capacity - p.toNat := List.length_take_le _ _
    refine Or.inr ⟨_, rfl, fun _ => by omega, ?_⟩
    rw [List.length_take, ← List.take_eq_take_min]
    rfl
  · have hfull : (crammed Ipc.x86 capacity).pwrite64 fs 3 bs p = (fs, .error 28) := if_neg hfits
    rw [hfull]
    exact Or.inl ⟨28, rfl, rfl⟩

theorem pwrite_crammed (capacity : Nat) (W : World Ipc.x86 (Server (List UInt8))) {buf : List UInt8} {p : Off64T}
    (hbuf : buf.length ≤ maxRwBufferSize) (hp : 0 ≤ p.toInt) :
    (L4fs.pwrite (crammedSvr capacity) (W.copyIn buf) 3 (BitVec.ofNat _ buf.length) p).2 =
      if p.toNat < capacity then (0, BitVec.ofNat _ (buf.take (capacity - p.toNat)).length)
      else (-1, Server.failed) := by
  have hmax := hbuf.trans maxRwBufferSize_le
  have hstored : (buf.take (capacity - p.toNat)).length ≤ ssizeMax := (List.length_take_le' _ _).trans hmax
  obtain ⟨-, herr, hcount⟩ := L4fs.pwrite_eq (h := crammedSvr capacity) (W := W.copyIn buf) 3
    (BitVec.ofNat _ buf.length) p
    ((toNat_count (w := .w32) hmax).symm ▸ hbuf)
  have hret : ((crammedSvr capacity).pwrite (W.copyIn buf).svr.obj 3 (BitVec.ofNat _ buf.length) p).2 =
      if p.toNat < capacity then BitVec.ofNat _ (buf.take (capacity - p.toNat)).length else Server.failed := by
    simp only [crammedSvr, Server.handler_pwrite, Server.pwrite, toNat_count hmax]
    rw [show (W.copyIn buf).svr.obj.rwBuf.read 0 buf.length = buf from read_copyIn buf hbuf, pwrite64_crammed hp]
    by_cases hfits : p.toNat < capacity
    · rw [if_pos hfits, if_pos hfits]
    · rw [if_neg hfits, if_neg hfits]
  rw [hret] at herr hcount
  refine Prod.ext (herr.trans ?_) (hcount.trans ?_)
  · split
    · exact counted_label_count hstored
    · exact counted_failed_label
  · split <;> rfl

theorem pwriteStored_crammed : L4fsFile.pwriteStored (crammedSvr 1) 3 noBytes [[65], [66]] 0 = (1, true) := by
  have hfirst := pwrite_crammed 1 noBytes (p := 0) (show [65].length ≤ maxRwBufferSize by decide) (by decide)
  rw [if_pos (by decide)] at hfirst
  simp only [L4fsFile.pwriteStored]
  generalize L4fs.pwrite (crammedSvr 1) (noBytes.copyIn [65]) 3 _ 0 = r at hfirst
  have hsecond := pwrite_crammed 1 r.1 (p := 0 + r.2.2.setWidth 64) (show [66].length ≤ maxRwBufferSize by decide)
    (by rw [hfirst]; decide)
  rw [if_neg (by rw [hfirst]; decide)] at hsecond
  rw [hsecond, hfirst, if_neg (by decide), if_neg (by decide), if_pos (by decide)]
  rfl

/-- Of the second entry only the first byte still fits. -/
theorem pwriteStored_crammed_short : L4fsFile.pwriteStored (crammedSvr 2) 3 noBytes [[65], [66, 67]] 0 =
    (2, false) := by
  have hfirst := pwrite_crammed 2 noBytes (p := 0) (show [65].length ≤ maxRwBufferSize by decide) (by decide)
  rw [if_pos (by decide)] at hfirst
  simp only [L4fsFile.pwriteStored]
  generalize L4fs.pwrite (crammedSvr 2) (noBytes.copyIn [65]) 3 _ 0 = r at hfirst
  have hsecond := pwrite_crammed 2 r.1 (p := 0 + r.2.2.setWidth 64) (show [66, 67].length ≤ maxRwBufferSize by decide)
    (by rw [hfirst]; decide)
  rw [if_pos (by rw [hfirst]; decide)] at hsecond
  rw [hsecond, hfirst, if_neg (by decide), if_neg (by decide), if_neg (by decide), if_pos (by decide)]
  rfl

/-- Two entries, the second of which is cut short: the result counts two bytes, and these are in the file. -/
theorem L4fsFile.pwritev_writesExactly_fits :
    (pwritev (crammedSvr 2) noBytes 3 [[65], [66, 67]] 0).2 = 2 ∧
    (pwritev (crammedSvr 2) noBytes 3 [[65], [66, 67]] 0).1.fs = [65, 66] ∧
    WritesExactly [] 0 [[65], [66, 67]] (pwritev (crammedSvr 2) noBytes 3 [[65], [66, 67]] 0).2
      (pwritev (crammedSvr 2) noBytes 3 [[65], [66, 67]] 0).1.fs := by
  have hw : WritesAny (crammedSvr 2) 3 id fun _ => True := writesAny_crammed (by decide)
  have hlen : ∀ buf ∈ [[(65 : UInt8)], [66, 67]], buf.length ≤ maxRwBufferSize := by decide
  obtain ⟨-, hfile, hret⟩ := pwritevLoop_stores hw (W := noBytes) (p := 0) trivial hlen 0
  rw [pwriteStored_crammed_short] at hfile hret
  refine ⟨hret, hfile, (pwritev_writesExactly_iff hw noBytes trivial _ hlen 0).mpr ?_⟩
  rw [pwriteStored_crammed_short]
  exact accounted_of_reported (by decide) (by decide)

/-- Two entries of which the second does not fit: the result is an error, and the first one is in the file. -/
theorem L4fsFile.pwritev_not_writesExactly :
    WritesAny (crammedSvr 1) 3 id (fun _ => True) ∧
      (pwritev (crammedSvr 1) noBytes 3 [[65], [66]] 0).2.toInt < 0 ∧
      (pwritev (crammedSvr 1) noBytes 3 [[65], [66]] 0).1.fs = [65] ∧
      ¬WritesExactly [] 0 [[65], [66]] (pwritev (crammedSvr 1) noBytes 3 [[65], [66]] 0).2
        (pwritev (crammedSvr 1) noBytes 3 [[65], [66]] 0).1.fs := by
  have hw : WritesAny (crammedSvr 1) 3 id fun _ => True := writesAny_crammed (by decide)
  have hlen : ∀ buf ∈ [[(65 : UInt8)], [66]], buf.length ≤ maxRwBufferSize := by decide
  obtain ⟨-, hfile, hret⟩ := pwritevLoop_stores hw (W := noBytes) (p := 0) trivial hlen 0
  rw [pwriteStored_crammed] at hfile hret
  have hneg : (pwritev (crammedSvr 1) noBytes 3 [[65], [66]] 0).2.toInt < 0 := hret
  have hstored : (pwritev (crammedSvr 1) noBytes 3 [[65], [66]] 0).1.fs = [65] := hfile
  refine ⟨hw, hneg, hstored, fun hexact => ?_⟩
  have hsame := hexact.2 hneg
  rw [hstored] at hsame
  exact absurd hsame (by decide)

end Dom0
