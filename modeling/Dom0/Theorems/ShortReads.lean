import Dom0.Theorems.Refinement
import Mathlib.Algebra.Order.BigOperators.Group.List
import Mathlib.Algebra.Order.Group.Nat

/-! Reads that come short. `preadv` asks the server once for every entry and goes on with the next one whatever it
got, so that bytes that a short read left out of its entry are followed by those of the next read. -/

namespace Dom0
open Contents Marshal

section
variable {w : Word} {E : Ipc w} {σ : Type}

/-- A server whose `pread` of a file with content `c` fails, or puts as many bytes of it as it likes into the shared
    buffer, up to those that were asked for. -/
structure ReadsAny (h : L4fsSvr E (Server σ)) (fh : CInt) (c : List UInt8) (I : Server σ → Prop) : Prop where
  length_lt : c.length < 2 ^ 63
  keeps : ∀ {s size p}, I s → I (h.pread s fh size p).1
  pread : ∀ {s size p}, I s → size.toNat ≤ maxRwBufferSize →
    (∃ e : CInt, e.toInt < 0 ∧ (h.pread s fh size p).2 = e.signExtend _) ∨
      ∃ n ≤ size.toNat, (h.pread s fh size p).2 = BitVec.ofNat _ n ∧
        (h.pread s fh size p).1.rwBuf.read 0 n = readAt c p.toNat n ∧ (readAt c p.toNat n).length = n

namespace L4fsFile

/-- What the server gives for entries of these lengths, each time from where it stopped; nothing if it fails. -/
def preadCounts (h : L4fsSvr E (Server σ)) (fh : CInt) : World E (Server σ) → List Nat → Off64T → Option (List Nat)
  | _, [], _ => some []
  | W, l :: ls, p =>
    let r := L4fs.pread h W fh (BitVec.ofNat _ l) p
    if r.2.1.toInt < 0 then none
    else (preadCounts h fh r.1 ls (p + r.2.2.setWidth 64)).map (r.2.2.toNat :: ·)

/-- A result that is not negative counts the bytes of the file that are in the buffers, which hold nothing else new. -/
def ReadsExactly (c : List UInt8) (p : Off64T) (iov : List (List UInt8)) (ret : SSizeT w) (bufs : List (List UInt8)) :
    Prop :=
  0 ≤ ret.toInt → ret.toNat ≤ room iov ∧ (readAt c p.toNat ret.toNat).length = ret.toNat ∧
    bufs = scatter iov (readAt c p.toNat ret.toNat)

/-- After a read that left room in its entry the server gives nothing more, and the result counts all of its bytes. -/
def NoGap (w : Word) (ls ns : List Nat) : Prop :=
  0 ≤ (BitVec.ofNat (8 * w.bytes) ns.sum).toInt → ns.sum < 2 ^ (8 * w.bytes) ∧ Consecutive ls ns

instance (w : Word) (ls ns : List Nat) : Decidable (NoGap w ls ns) := inferInstanceAs (Decidable (_ → _))

section
variable {h : L4fsSvr E (Server σ)} {fh : CInt} {c : List UInt8} {I : Server σ → Prop} {W : World E (Server σ)}
  {p : Off64T} {l : Nat} {ls ns : List Nat} {iov : List (List UInt8)}

/-- One request. -/
theorem pread_any (hr : ReadsAny h fh c I) (hI : I W.svr.obj) (hl : l ≤ maxRwBufferSize) :
    let r := L4fs.pread h W fh (BitVec.ofNat _ l) p
    I r.1.svr.obj ∧ (r.2.1.toInt < 0 ∨ r.2.1 = 0 ∧ ∃ n ≤ l, r.2.2 = BitVec.ofNat _ n ∧
      r.1.rwBuf.read 0 n = readAt c p.toNat n ∧ (readAt c p.toNat n).length = n) := by
  have hsize : (BitVec.ofNat (8 * w.bytes) l).toNat = l := toNat_count (hl.trans maxRwBufferSize_le)
  obtain ⟨hobj, herr, hcount⟩ := L4fs.pread_eq (h := h) (W := W) fh (BitVec.ofNat _ l) p (hsize.symm ▸ hl)
  refine ⟨hobj ▸ hr.keeps hI, ?_⟩
  rcases hr.pread (p := p) hI (hsize.symm ▸ hl) with ⟨e, he, hret⟩ | ⟨n, hn, hret, hread, hlen⟩
  · refine Or.inl ?_
    rw [herr, hret]
    exact counted_label_neg he
  · rw [hsize] at hn
    refine Or.inr ⟨?_, n, hn, hcount.trans hret, ?_, hlen⟩
    · rw [herr, hret, counted_label_count (hn.trans (hl.trans maxRwBufferSize_le))]
    · rw [World.rwBuf, hobj, hread]

/-- What a client copies does not matter to the server. -/
theorem preadCounts_copies (cs : List Copy) :
    preadCounts h fh { W with copies := cs } ls p = preadCounts h fh W ls p := by
  induction ls generalizing W p with
  | nil => rfl
  | cons l ls ih =>
    simp only [preadCounts, L4fs.pread_copies]
    split
    · rfl
    · rw [ih]

/-- The loop puts the bytes that it gets for an entry to the start of that entry. -/
theorem preadvLoop_fills (hr : ReadsAny h fh c I) (hI : I W.svr.obj) (hlen : ∀ buf ∈ iov, buf.length ≤ maxRwBufferSize)
    (k : SSizeT w) :
    match preadCounts h fh W (iov.map List.length) p with
    | none => (preadvLoop h fh W iov p k).2.1.toInt < 0
    | some ns => List.Forall₂ (fun l n => n ≤ l) (iov.map List.length) ns ∧
        (readAt c p.toNat ns.sum).length = ns.sum ∧
        (preadvLoop h fh W iov p k).2 = (k + BitVec.ofNat _ ns.sum, fillEach iov (pieces c p.toNat ns)) := by
  induction iov generalizing W p k with
  | nil => exact ⟨.nil, by simp [readAt], by simp [preadvLoop, fillEach, pieces]⟩
  | cons buf rest ih =>
    obtain ⟨hI', hcases⟩ := pread_any hr hI (p := p) (hlen buf List.mem_cons_self)
    simp only [List.map_cons, preadCounts, preadvLoop]
    generalize L4fs.pread h W fh _ p = r at hI' hcases
    rcases hcases with hneg | ⟨hzero, n, hn, hcount, hread, hfull⟩
    · rw [if_pos hneg, if_pos hneg]
      simp only [toInt_signExtend_int]
      exact hneg
    have hmax : n ≤ ssizeMax := hn.trans ((hlen buf List.mem_cons_self).trans maxRwBufferSize_le)
    have hok : ¬r.2.1.toInt < 0 := by
      rw [hzero]
      decide
    rw [if_neg hok, if_neg hok, hzero, hcount, toNat_count hmax]
    -- The bytes land at the start of the entry, and only the record of the copies changes besides.
    obtain ⟨cs, hcopied⟩ : ∃ cs,
        (if (0 : CInt) = 0 ∧ BitVec.ofNat (8 * w.bytes) n ≠ 0 then r.1.copyOut buf n else (r.1, buf)) =
          ({ r.1 with copies := cs }, readAt c p.toNat n ++ buf.drop n) := by
      by_cases hnone : n = 0
      · exact ⟨r.1.copies, by simp [hnone, readAt]⟩
      · have hne : BitVec.ofNat (8 * w.bytes) n ≠ 0 := by
          intro h0
          have hnat := congrArg BitVec.toNat h0
          rw [toNat_count hmax] at hnat
          exact hnone hnat
        exact ⟨_, by rw [if_pos ⟨rfl, hne⟩, World.copyOut, hread]⟩
    rw [hcopied]
    have hoffset : (p + (BitVec.ofNat (8 * w.bytes) n).setWidth 64).toNat = p.toNat + n := by
      by_cases hnone : n = 0
      · simp [hnone]
      · have hle : n ≤ c.length - p.toNat := by
          rw [← hfull, readAt, List.length_take, List.length_drop]
          exact Nat.min_le_right _ _
        exact toNat_offset_add hmax (by have := hr.length_lt; omega)
    have hnext := ih (W := { r.1 with copies := cs }) (p := p + (BitVec.ofNat (8 * w.bytes) n).setWidth 64) hI'
      (fun buf hb => hlen buf (List.mem_cons_of_mem _ hb)) (k + BitVec.ofNat _ n)
    rw [preadCounts_copies] at hnext
    generalize preadCounts h fh r.1 _ _ = counts at hnext
    cases counts with
    | none => exact hnext
    | some ns =>
      obtain ⟨hle, hwhole, hloop⟩ := hnext
      rw [hoffset] at hwhole hloop
      refine ⟨.cons hn hle, ?_, ?_⟩
      · rw [List.sum_cons, readAt_add, List.length_append, hfull, hwhole]
      · simp only [hloop, List.sum_cons, pieces, fillEach, hfull, BitVec.ofNat_add, BitVec.add_assoc]

theorem preadv_fills (hr : ReadsAny h fh c I) (hI : I W.svr.obj) (hlen : ∀ buf ∈ iov, buf.length ≤ maxRwBufferSize)
    (hcounts : preadCounts h fh W (iov.map List.length) p = some ns) :
    List.Forall₂ (fun l n => n ≤ l) (iov.map List.length) ns ∧ (readAt c p.toNat ns.sum).length = ns.sum ∧
      (preadv h W fh iov p).2 = (BitVec.ofNat _ ns.sum, fillEach iov (pieces c p.toNat ns)) := by
  have hloop := preadvLoop_fills hr hI hlen (p := p) 0
  rw [hcounts] at hloop
  simpa only [preadv, BitVec.ofNat_eq_ofNat, BitVec.zero_add] using hloop

theorem preadv_fails_of_none (hr : ReadsAny h fh c I) (hI : I W.svr.obj)
    (hlen : ∀ buf ∈ iov, buf.length ≤ maxRwBufferSize)
    (hcounts : preadCounts h fh W (iov.map List.length) p = none) : (preadv h W fh iov p).2.1.toInt < 0 := by
  have hloop := preadvLoop_fills hr hI hlen (p := p) 0
  rw [hcounts] at hloop
  exact hloop

theorem readsExactly_of_noGap (hr : ReadsAny h fh c I) (hI : I W.svr.obj)
    (hlen : ∀ buf ∈ iov, buf.length ≤ maxRwBufferSize)
    (hgap : ∀ ns, preadCounts h fh W (iov.map List.length) p = some ns → NoGap w (iov.map List.length) ns) :
    ReadsExactly c p iov (preadv h W fh iov p).2.1 (preadv h W fh iov p).2.2 := by
  intro hret
  cases hcounts : preadCounts h fh W (iov.map List.length) p with
  | none => exact absurd (preadv_fails_of_none hr hI hlen hcounts) (Int.not_lt.mpr hret)
  | some ns =>
    obtain ⟨hle, hwhole, hresult⟩ := preadv_fills hr hI hlen hcounts
    rw [hresult] at hret ⊢
    obtain ⟨hlt, hcons⟩ := hgap ns hcounts hret
    have hsum : (BitVec.ofNat (8 * w.bytes) ns.sum).toNat = ns.sum := by
      rw [BitVec.toNat_ofNat, Nat.mod_eq_of_lt hlt]
    have hlengths := map_length_pieces hwhole
    have hroom : ns.sum ≤ room iov := List.Forall₂.sum_le_sum (List.Forall₂.flip hle)
    simp only [hsum]
    refine ⟨hroom, hwhole, ?_⟩
    rw [← flatten_pieces]
    refine fillEach_eq_scatter ?_ (hlengths.symm ▸ hcons)
    rw [← hlengths] at hle
    exact List.forall₂_map_left_iff.mp (List.forall₂_map_right_iff.mp hle)

theorem noGap_of_readsExactly {ns : List Nat} (hr : ReadsAny h fh c I) (hI : I W.svr.obj)
    (hls : ∀ l ∈ ls, l ≤ maxRwBufferSize) (hcounts : preadCounts h fh W ls p = some ns)
    (hall : ∀ iov, iov.map List.length = ls →
    ReadsExactly c p iov (preadv h W fh iov p).2.1 (preadv h W fh iov p).2.2) :
    NoGap w ls ns := by
  intro hret
  have hfills : ∀ iov : List (List UInt8), iov.map List.length = ls → List.Forall₂ (fun l n => n ≤ l) ls ns ∧
      (readAt c p.toNat ns.sum).length = ns.sum ∧
      (preadv h W fh iov p).2 = (BitVec.ofNat _ ns.sum, fillEach iov (pieces c p.toNat ns)) := by
    rintro iov rfl
    exact preadv_fills hr hI (fun buf hbuf => hls _ (List.mem_map_of_mem hbuf)) hcounts
  obtain ⟨hle, hwhole, -⟩ := hfills (ls.map fun l => List.replicate l 0) (by simp [Function.comp_def])
  have hlengths := map_length_pieces hwhole
  have hsum : (BitVec.ofNat (8 * w.bytes) ns.sum).toNat ≤ ns.sum := by
    rw [BitVec.toNat_ofNat]
    exact Nat.mod_le _ _
  have hpieces : List.Forall₂ (fun l piece => piece.length ≤ l) ls (pieces c p.toNat ns) := by
    rw [← hlengths] at hle
    exact List.forall₂_map_right_iff.mp hle
  have hshort : (readAt c p.toNat (BitVec.ofNat (8 * w.bytes) ns.sum).toNat).length =
      (BitVec.ofNat (8 * w.bytes) ns.sum).toNat := by
    simp only [readAt, List.length_take] at hwhole ⊢
    omega
  have : Nontrivial UInt8 := ⟨0, 1, by decide⟩
  have hbytes : (readAt c p.toNat (BitVec.ofNat (8 * w.bytes) ns.sum).toNat).length ≤
      (pieces c p.toNat ns).flatten.length := by
    rw [flatten_pieces, hshort, hwhole]
    exact hsum
  obtain ⟨heq, hcons⟩ := consecutive_of_fillEach hpieces hbytes fun iov hiov => by
    obtain ⟨-, -, hresult⟩ := hfills iov hiov
    have hexact := hall iov hiov
    rw [hresult] at hexact
    exact (hexact hret).2.2
  rw [hshort, flatten_pieces, hwhole] at heq
  rw [hlengths] at hcons
  refine ⟨?_, hcons⟩
  rw [← heq]
  exact BitVec.isLt _

/-- `preadv` does what it should, whatever the caller's buffers hold, exactly where the server leaves no gap. -/
theorem preadv_readsExactly_iff (hr : ReadsAny h fh c I) (W : World E (Server σ)) (hI : I W.svr.obj) (ls : List Nat)
    (hls : ∀ l ∈ ls, l ≤ maxRwBufferSize) (p : Off64T) :
    (∀ iov, iov.map List.length = ls → ReadsExactly c p iov (preadv h W fh iov p).2.1 (preadv h W fh iov p).2.2) ↔
      ∀ ns, preadCounts h fh W ls p = some ns → NoGap w ls ns := by
  constructor
  · exact fun hall ns hcounts => noGap_of_readsExactly hr hI hls hcounts hall
  · rintro hgap iov rfl
    exact readsExactly_of_noGap hr hI (fun buf hbuf => hls _ (List.mem_map_of_mem hbuf)) hgap

end

end L4fsFile

/-- `fs_srv` is such a server on every file system whose reads hand out bytes of the file. -/
theorem readsAny_of_backing {B : Backing E σ} {d : σ → CInt → σ × CInt × Bool} {fh : CInt} {c : List UInt8}
    {P : σ → Prop} (hc : c.length < 2 ^ 63) (hB : ∀ fs n (p : Off64T), P fs →
      (∃ m, B.pread64 fs fh n p = .ok (readAt c p.toNat m)) ∨ ∃ e, B.pread64 fs fh n p = .error e) :
    ReadsAny (Server.handler B d) fh c fun s => P s.fs where
  length_lt := hc
  keeps := by
    intro s size offset hs
    simp only [Server.handler_pread, Server.pread]
    split <;> exact hs
  pread := by
    intro s size offset hs hsize
    simp only [Server.handler_pread, Server.pread]
    rcases hB s.fs size.toNat offset hs with ⟨m, hok⟩ | ⟨e, herror⟩
    · rw [hok]
      exact Or.inr ⟨_, B.pread64_le hok, rfl, Mem.read_write.trans readAt_length.symm, by rw [readAt_length]⟩
    · rw [herror]
      refine Or.inl ⟨-1, by decide, ?_⟩
      cases w <;> rfl

end

/-! ### A file system that reads one byte at a time -/

/-- The file system with one file, on which no read gives more than one byte. -/
def trickle (E : Ipc .w32) : Backing E (List UInt8) :=
  { oneFile E with
    pread64 := fun fs fd n p => (oneFile E).pread64 fs fd (min n 1) p
    pread64_le := fun h => ((oneFile E).pread64_le h).trans (Nat.min_le_left _ _) }

def trickleSvr : L4fsSvr Ipc.x86 (Server (List UInt8)) := Server.handler (trickle Ipc.x86) fun s _ => (s, 0, false)

abbrev oneTwoThree : List UInt8 := [1, 2, 3]

def threeBytes : World Ipc.x86 (Server (List UInt8)) := .start (zeroStat Ipc.x86) (.start oneTwoThree fun _ => 0)

theorem readsAny_trickle : ReadsAny trickleSvr 3 oneTwoThree fun s => s.fs = oneTwoThree := by
  refine readsAny_of_backing (P := fun fs => fs = oneTwoThree) (by decide) ?_
  rintro fs n p rfl
  by_cases hp : (0 : Int) ≤ p.toInt
  · exact Or.inl ⟨min n 1, if_pos ⟨rfl, hp⟩⟩
  · exact Or.inr ⟨9, if_neg fun h => hp h.2⟩

theorem pread_trickle {W : World Ipc.x86 (Server (List UInt8))} {l : Nat} {p : Off64T} (hW : W.fs = oneTwoThree)
    (hl : l ≤ maxRwBufferSize) (hp : (0 : Int) ≤ p.toInt) :
    let r := L4fs.pread trickleSvr W 3 (BitVec.ofNat _ l) p
    r.1.fs = oneTwoThree ∧ r.2 = (0, BitVec.ofNat _ (readAt oneTwoThree p.toNat (min l 1)).length) := by
  have hmax := hl.trans maxRwBufferSize_le
  obtain ⟨hobj, herr, hcount⟩ := L4fs.pread_eq (h := trickleSvr) (W := W) 3 (BitVec.ofNat _ l) p
    ((toNat_count (w := .w32) hmax).symm ▸ hl)
  have hread : (trickle Ipc.x86).pread64 W.svr.obj.fs 3 l p = .ok (readAt oneTwoThree p.toNat (min l 1)) := by
    rw [show W.svr.obj.fs = oneTwoThree from hW]
    exact if_pos ⟨rfl, hp⟩
  simp only [trickleSvr, Server.handler_pread, Server.pread, toNat_count hmax, hread] at hobj herr hcount
  refine ⟨by rw [World.fs, trickleSvr, hobj]; exact hW, Prod.ext ?_ ?_⟩
  · rw [trickleSvr, herr]
    exact counted_label_count (length_readAt_le.trans ((Nat.min_le_left _ _).trans hmax))
  · simp only [trickleSvr, hcount]

/-- Every entry but an empty one gets one byte, as long as there are any. -/
theorem preadCounts_trickle {l l' : Nat} (hl : 0 < l ∧ l ≤ maxRwBufferSize) (hl' : 0 < l' ∧ l' ≤ maxRwBufferSize) :
    L4fsFile.preadCounts trickleSvr 3 threeBytes [l, l'] 0 = some [1, 1] := by
  obtain ⟨hfs, hfirst⟩ := pread_trickle (W := threeBytes) (p := 0) rfl hl.2 (by decide)
  obtain ⟨-, hsecond⟩ := pread_trickle (p := 1) hfs hl'.2 (by decide)
  have hone : (readAt oneTwoThree (0 : Off64T).toNat (min l 1)).length = 1 := by
    rw [Nat.min_eq_right hl.1]
    rfl
  have hone' : (readAt oneTwoThree (1 : Off64T).toNat (min l' 1)).length = 1 := by
    rw [Nat.min_eq_right hl'.1]
    rfl
  rw [hone] at hfirst
  rw [hone'] at hsecond
  simp only [L4fsFile.preadCounts, hfirst]
  rw [if_neg (by decide), show (0 : Off64T) + (BitVec.ofNat (8 * Word.bytes .w32) 1).setWidth 64 = 1 from rfl, hsecond,
    if_neg (by decide)]
  rfl

/-- A short read of the last entry. -/
theorem L4fsFile.preadv_readsExactly_lastShort :
    ReadsExactly oneTwoThree 0 [[0], [0, 0]] (preadv trickleSvr threeBytes 3 [[0], [0, 0]] 0).2.1
      (preadv trickleSvr threeBytes 3 [[0], [0, 0]] 0).2.2 := by
  refine (preadv_readsExactly_iff readsAny_trickle threeBytes rfl [1, 2] (by decide) 0).mpr (fun ns hns => ?_) _ rfl
  rw [preadCounts_trickle (by decide) (by decide)] at hns
  cases hns
  decide

/-- A short read of the first entry: its second byte is left as it was, and the result says that it was read. -/
theorem L4fsFile.preadv_not_readsExactly :
    ReadsAny trickleSvr 3 oneTwoThree (fun s => s.fs = oneTwoThree) ∧
      (preadv trickleSvr threeBytes 3 [[0, 0], [0, 0]] 0).2 = (2, [[1, 0], [2, 0]]) ∧
      ¬ReadsExactly oneTwoThree 0 [[0, 0], [0, 0]] (2 : SSizeT .w32) [[1, 0], [2, 0]] := by
  refine ⟨readsAny_trickle, ?_, fun h => absurd (h (by decide)).2.2 (by decide)⟩
  have hcounts : preadCounts trickleSvr 3 threeBytes (([[0, 0], [0, 0]] : List (List UInt8)).map List.length) 0 =
      some [1, 1] :=
    preadCounts_trickle (by decide) (by decide)
  obtain ⟨-, -, hresult⟩ := preadv_fills readsAny_trickle rfl (by decide) hcounts
  rw [hresult]
  rfl

end Dom0
