import Dom0.Libfs.Shared
import Dom0.Theorems.Refinement

/-! # One buffer for all clients

Every client maps the same shared buffer, and nothing keeps one client out of it while another one's data are
on their way through. A call between whose copy and whose request no other client changes these bytes does
what it should; a write between whose copy and whose handling another client copies stores the other one's
bytes. -/

namespace Dom0
open Marshal

section
variable {w : Word} {E : Ipc w} {σ : Type}

/-- The bytes that a client relies on at the start of the shared buffer: what it has copied in and the server
    has not handled yet, or what the server has read for it and it has not copied out yet. -/
def Phase.window : Phase w → List UInt8
  | .ready (.write x) | .sent (.write x) => x.buf.1.take maxRwBufferSize
  | .ready (.rename _ dst) | .sent (.rename _ dst) => dst.c_str
  | .answered (.read _) _ served => served
  | .arrived _ _ served => served
  | _ => []

/-- The bytes that a step puts at the start of the shared buffer. -/
def Shared.incoming (B : Backing E σ) (s : Shared E σ) : Action w → List UInt8
  | .go c =>
    match s.phase c with
    | .enter (.write x) => x.buf.1.take maxRwBufferSize
    | .enter (.rename _ dst) => dst.c_str.take maxRwBufferSize
    | .sent j => j.served B s.world.fs
    | _ => []
  | _ => []

/-- A step changes no byte of the shared buffer that another client relies on. -/
def Apart (B : Backing E σ) (s : Shared E σ) (a : Action w) : Prop :=
  ∀ c, c ≠ a.client → (s.world.rwBuf.write 0 (s.incoming B a)).read 0 (s.phase c).window.length =
    s.world.rwBuf.read 0 (s.phase c).window.length

/-- What a step does for its own client. The handling of a write stores the bytes that the caller passed, the
    handling of a rename uses the destination that the caller gave, and a copy out of the shared buffer gives
    the caller the bytes that the server has read for it. -/
def Faithful (B : Backing E σ) (s : Shared E σ) (a : Action w) (s' : Shared E σ) : Prop :=
  match a with
  | .go c =>
    match s.phase c with
    | .sent (.write x) => s'.world.fs = (B.pwrite64 s.world.fs x.fh x.buf.1 x.p).1
    | .sent (.rename «from» dst) => s'.world.fs = (B.rename s.world.fs (tmpDir ++ «from».bytes) (tmpDir ++ dst.bytes)).1
    | .arrived r len served => s'.phase c = r.next (served ++ r.buf.1.drop served.length) len
    | _ => True
  | _ => True

/-! ## What every client can rely on -/

/-- What the checks of the client side and the server's answer have settled. -/
def Phase.Checked : Phase w → Prop
  | .enter (.rename _ dst) | .ready (.rename _ dst) => dst.strlen + 1 ≤ maxPathSize w
  | .sent (.rename «from» dst) => «from».strlen + 1 ≤ maxPathSize w ∧ dst.strlen + 1 ≤ maxPathSize w
  | .sent (.read r) => r.buf.1.length ≤ maxRwBufferSize
  | .sent (.write x) => x.buf.1.length ≤ maxRwBufferSize
  | .answered (.read _) a served =>
    served.length ≤ maxRwBufferSize ∧ (L4fs.l4Error a = 0 → (readSizeT w a.ios).1 = BitVec.ofNat _ served.length)
  | .arrived _ len served => served.length ≤ maxRwBufferSize ∧ len = BitVec.ofNat _ served.length
  | _ => True

/-- The shared buffer holds what the client relies on. -/
structure Phase.Sound (rw : Mem) (ph : Phase w) : Prop where
  holds : rw.read 0 ph.window.length = ph.window
  checked : ph.Checked

/-- Every client can rely on its bytes. -/
def Shared.Inv (s : Shared E σ) : Prop := ∀ c, (s.phase c).Sound s.world.rwBuf

section Phases
variable {rw : Mem}

theorem Phase.sound_of_window_nil {ph : Phase w} (h : ph.window = []) (hc : ph.Checked) : ph.Sound rw :=
  ⟨by rw [h]; rfl, hc⟩

theorem Phase.sound_preadv {fh : CInt} {filled : List (List UInt8)} {iov : List (Entry w)} {p : Off64T} {n : SSizeT w} :
    (Phase.preadv fh filled iov p n).Sound rw := by
  cases iov <;> exact sound_of_window_nil rfl trivial

theorem Phase.sound_pwritev {fh : CInt} {iov : List (Entry w)} {p : Off64T} {n : SSizeT w} :
    (Phase.pwritev fh iov p n).Sound rw := by
  cases iov <;> exact sound_of_window_nil rfl trivial

theorem Phase.sound_writing_next {x : Writing w} {len : SizeT w} : (x.next len).Sound rw := by
  unfold Writing.next
  split
  · exact sound_of_window_nil rfl trivial
  · exact sound_pwritev

theorem tooBig_len {e : Entry w} : L4fs.tooBig e.len = decide (maxRwBufferSize < e.1.length) := by
  simp only [L4fs.tooBig, Entry.len, BitVec.toNat_ofNat, Nat.mod_eq_of_lt e.2]

theorem maxPathSize_le : maxPathSize w ≤ maxRwBufferSize := by
  cases w <;> decide

/-- The stub sends only what passes its check, and what it sends lies in the shared buffer still. -/
theorem Phase.Sound.send {j : Job w} (h : (Phase.ready j).Sound rw) : (j.refused.getD (.sent j)).Sound rw := by
  obtain ⟨hholds, hchecked⟩ := h
  cases j with
  | read r =>
    simp only [Job.refused, tooBig_len]
    split
    · exact sound_of_window_nil rfl trivial
    · next hok => exact sound_of_window_nil rfl (Nat.le_of_not_lt (by simpa using hok))
  | write x =>
    simp only [Job.refused, tooBig_len]
    split
    · exact sound_of_window_nil rfl trivial
    · next hok => exact ⟨hholds, Nat.le_of_not_lt (by simpa using hok)⟩
  | rename «from» dst =>
    by_cases hfrom : «from».strlen + 1 ≤ maxPathSize w
    · rw [show (Job.rename «from» dst : Job w).refused = none by
        simp [Job.refused, L4fs.tooLong_of_fits hfrom]]
      exact ⟨hholds, hfrom, hchecked⟩
    · rw [show (Job.rename «from» dst : Job w).refused = some (.returned (-l4Enametoolong).toInt []) by
        simp [Job.refused, L4fs.tooLong_of_not_fits hfrom]]
      exact sound_of_window_nil rfl trivial

/-- A reply that arrives leaves the bytes where they are until they are copied out. -/
theorem Phase.Sound.arrive {j : Job w} {a : Answer} {served : List UInt8} (h : (Phase.answered j a served).Sound rw) :
    (Phase.arrive j a served).Sound rw := by
  obtain ⟨hholds, hchecked⟩ := h
  cases j with
  | read r =>
    simp only [Phase.arrive]
    split
    · exact sound_of_window_nil rfl trivial
    · split
      · next hcopy => exact ⟨hholds, hchecked.1, hchecked.2 hcopy.1⟩
      · exact sound_preadv
  | write x =>
    simp only [Phase.arrive]
    split
    · exact sound_of_window_nil rfl trivial
    · exact sound_writing_next
  | rename «from» dst => exact sound_of_window_nil rfl trivial

end Phases

/-! ## The server's part -/

section Server
variable {B : Backing E σ} {d : σ → CInt → σ × CInt × Bool} {W : World E (Server σ)}

theorem toNat_len {e : Entry w} : e.len.toNat = e.1.length := by
  simp only [Entry.len, BitVec.toNat_ofNat, Nat.mod_eq_of_lt e.2]

theorem callTransfer_eq_call {h : L4fsSvr E (Server σ)} {o : Opcode} {fh : CInt} {e : Entry w} {p : Off64T}
    (hlen : e.1.length ≤ maxRwBufferSize) :
    let r := W.call h (L4fs.transferRequest w o fh e.len p)
    L4fs.callTransfer h W o fh e.len p = (r.1, L4fs.l4Error r.2, (readSizeT w r.2.ios).1) := by
  have hok : L4fs.tooBig e.len = false := by simp [tooBig_len, hlen]
  simp only [L4fs.callTransfer, hok, Bool.false_eq_true, ↓reduceIte]

theorem call_read {r : Reading w} (hlen : r.buf.1.length ≤ maxRwBufferSize) :
    let o := W.call (Server.handler B d) (Job.read r).request
    let served := (Job.read r).served B W.fs
    o.1.rwBuf = W.rwBuf.write 0 served ∧ (Phase.answered (.read r) o.2 served).Checked := by
  have hmax := hlen.trans maxRwBufferSize_le
  obtain ⟨hs, hlabel, hcount⟩ := L4fs.pread_eq (h := Server.handler B d) (W := W) r.fh _ r.p
    (toNat_len (e := r.buf) ▸ hlen)
  rw [Server.handler_pread] at hs hlabel hcount
  simp only [L4fs.pread, callTransfer_eq_call hlen] at hs hlabel hcount
  simp only [Job.request, Job.served, World.rwBuf, World.fs, hs, Phase.Checked, hlabel, hcount, Server.pread]
  cases hread : B.pread64 W.svr.obj.fs r.fh r.buf.len.toNat r.p with
  | ok bs =>
    have hbs := B.pread64_le hread
    rw [toNat_len] at hbs
    exact ⟨rfl, hbs.trans hlen, fun _ => rfl⟩
  | error e =>
    refine ⟨Mem.write_nil.symm, Nat.zero_le _, fun h => ?_⟩
    rw [counted_failed_label] at h
    exact absurd h (by decide)

/-- The server writes what it finds in the shared buffer. -/
theorem call_write {x : Writing w} (hlen : x.buf.1.length ≤ maxRwBufferSize) :
    let o := W.call (Server.handler B d) (Job.write x).request
    o.1.rwBuf = W.rwBuf ∧ o.1.fs = (B.pwrite64 W.fs x.fh (W.rwBuf.read 0 x.buf.1.length) x.p).1 := by
  obtain ⟨hs, -, -⟩ := L4fs.pwrite_eq (h := Server.handler B d) (W := W) x.fh _ x.p (toNat_len (e := x.buf) ▸ hlen)
  rw [Server.handler_pwrite] at hs
  simp only [L4fs.pwrite, callTransfer_eq_call hlen] at hs
  simp only [Job.request, World.rwBuf, World.fs, hs, Server.pwrite, toNat_len]
  split <;> exact ⟨rfl, rfl⟩

theorem call_rename {«from» dst : CString} (hfrom : «from».strlen + 1 ≤ maxPathSize w)
    (hdst : dst.strlen + 1 ≤ maxPathSize w) (hholds : W.rwBuf.read 0 dst.c_str.length = dst.c_str) :
    let o := W.call (Server.handler B d) (Job.rename «from» dst : Job w).request
    o.1.rwBuf = W.rwBuf ∧ o.1.fs = (B.rename W.fs (tmpDir ++ «from».bytes) (tmpDir ++ dst.bytes)).1 := by
  have hok : L4fs.tooLong w «from» = false := L4fs.tooLong_of_fits hfrom
  obtain ⟨hs, -⟩ := L4fs.rename_eq (h := Server.handler B d) (W := W) hfrom
  rw [Server.handler_rename] at hs
  simp only [L4fs.rename, L4fs.callName, hok, Bool.false_eq_true, ↓reduceIte] at hs
  have hmax := maxPathSize_le (w := w)
  have hname : CString.ofMem W.svr.obj.rwBuf 0 maxRwBufferSize = dst := by
    rw [CString.length_c_str] at hholds
    exact CString.ofMem_of_read hholds (by omega)
  simp only [Job.request, World.rwBuf, World.fs, hs, Server.rename, hname, Server.result_rwBuf, Server.result_fs,
    Server.getActualPath_path, Server.getActualPath_fs, Server.getActualPath_rwBuf, Server.copied_fs,
    Server.copied_rwBuf, and_self]

end Server

/-! ## Steps and runs -/

section Steps
variable {B : Backing E σ} {d : σ → CInt → σ × CInt × Bool} {s s' : Shared E σ} {a : Action w} {c : Nat} {ph : Phase w}
  {W : World E (Server σ)}

theorem Phase.Sound.frame {rw rw' : Mem} (h : ph.Sound rw)
    (hread : rw'.read 0 ph.window.length = rw.read 0 ph.window.length) :
    ph.Sound rw' :=
  ⟨hread.trans h.holds, h.checked⟩

/-- A step of client `c` that puts `bs` into the shared buffer, away from what the others rely on. -/
theorem Shared.Inv.set (hinv : s.Inv) (bs : List UInt8) (hrw : W.rwBuf = s.world.rwBuf.write 0 bs)
    (hapart : ∀ c', c' ≠ c → (s.world.rwBuf.write 0 bs).read 0 (s.phase c').window.length =
      s.world.rwBuf.read 0 (s.phase c').window.length)
    (hown : ph.Sound W.rwBuf) : (s.set W c ph).Inv := by
  intro c'
  by_cases hc : c' = c
  · subst hc
    simpa [Shared.set] using hown
  · have hother := (hinv c').frame (hapart c' hc)
    rw [← hrw] at hother
    simpa [Shared.set, hc] using hother

theorem Shared.Inv.set_same (hinv : s.Inv) (hrw : W.rwBuf = s.world.rwBuf) (hown : ph.Sound s.world.rwBuf) :
    (s.set W c ph).Inv :=
  hinv.set [] (by rw [hrw, Mem.write_nil]) (fun _ _ => by rw [Mem.write_nil]) (by rw [hrw]; exact hown)

theorem Shared.Inv.begin (hinv : s.Inv) (hown : ph.Sound s.world.rwBuf) (h : s.begin c ph = some s') : s'.Inv := by
  unfold Shared.begin at h
  split at h
  · cases h
    exact hinv.set_same rfl hown
  · cases h

theorem Shared.step_inv (hinv : s.Inv) (hapart : Apart B s a) (accepted : s.step B d a = some s') : s'.Inv := by
  cases a with
  | preadv c fh iov p => exact hinv.begin Phase.sound_preadv accepted
  | pwritev c fh iov p => exact hinv.begin Phase.sound_pwritev accepted
  | rename c «from» dst =>
    refine hinv.begin ?_ accepted
    by_cases hdst : dst.strlen + 1 ≤ maxPathSize w
    · rw [L4fs.tooLong_of_fits hdst]
      exact Phase.sound_of_window_nil rfl hdst
    · rw [L4fs.tooLong_of_not_fits hdst]
      exact Phase.sound_of_window_nil rfl trivial
  | go c =>
    have hown := hinv c
    simp only [Apart, incoming, Action.client] at hapart
    simp only [step] at accepted
    cases hph : s.phase c with
    | returned ret bufs =>
      simp only [hph] at accepted
      cases accepted
    | enter j =>
      rw [hph] at hown
      cases j with
      | read r =>
        simp only [hph] at accepted
        cases accepted
        exact hinv.set_same rfl (Phase.sound_of_window_nil rfl trivial)
      | write x =>
        simp only [hph] at accepted hapart
        cases accepted
        -- The client copies into the shared buffer, where by `hapart` nobody else relies on a byte.
        exact hinv.set _ rfl hapart ⟨Mem.read_write, trivial⟩
      | rename «from» dst =>
        simp only [hph] at accepted hapart
        cases accepted
        have hdst : dst.strlen + 1 ≤ maxPathSize w := hown.checked
        have hall : dst.c_str.take maxRwBufferSize = dst.c_str :=
          List.take_of_length_le (by rw [CString.length_c_str]; exact hdst.trans maxPathSize_le)
        refine hinv.set _ rfl hapart ⟨?_, hdst⟩
        change (s.world.rwBuf.write 0 (dst.c_str.take maxRwBufferSize)).read 0 dst.c_str.length = dst.c_str
        rw [hall, Mem.read_write]
    | ready j =>
      rw [hph] at hown
      simp only [hph] at accepted
      cases accepted
      exact hinv.set_same rfl hown.send
    | sent j =>
      rw [hph] at hown
      simp only [hph] at accepted hapart
      cases accepted
      cases j with
      | read r =>
        -- The answer lies in the shared buffer until the client copies it out.
        obtain ⟨hrw, hchecked⟩ := call_read (B := B) (d := d) (W := s.world) hown.checked
        refine hinv.set _ hrw hapart ⟨?_, hchecked⟩
        rw [hrw]
        exact Mem.read_write
      | write x =>
        exact hinv.set_same (call_write hown.checked).1 (Phase.sound_of_window_nil rfl trivial)
      | rename «from» dst =>
        obtain ⟨hfrom, hdst⟩ := hown.checked
        exact hinv.set_same (call_rename hfrom hdst hown.holds).1 (Phase.sound_of_window_nil rfl trivial)
    | answered j ans served =>
      rw [hph] at hown
      simp only [hph] at accepted
      cases accepted
      exact hinv.set_same rfl hown.arrive
    | arrived r len served =>
      simp only [hph] at accepted
      cases accepted
      exact hinv.set_same rfl Phase.sound_preadv

/-- Where every client can rely on its bytes, every step is faithful. -/
theorem Shared.Inv.faithful (hinv : s.Inv) (accepted : s.step B d a = some s') : Faithful B s a s' := by
  cases a with
  | go c =>
    have hown := hinv c
    simp only [Faithful]
    simp only [step] at accepted
    cases hph : s.phase c with
    | sent j =>
      rw [hph] at hown
      simp only [hph] at accepted
      cases accepted
      cases j with
      | read r => trivial
      | write x =>
        have hlen : x.buf.1.length ≤ maxRwBufferSize := hown.checked
        have hholds := hown.holds
        simp only [Phase.window, List.take_of_length_le hlen] at hholds
        have hstored := (call_write (B := B) (d := d) (W := s.world) hlen).2
        rw [hholds] at hstored
        exact hstored
      | rename «from» dst =>
        obtain ⟨hfrom, hdst⟩ := hown.checked
        exact (call_rename hfrom hdst hown.holds).2
    | arrived r len served =>
      rw [hph] at hown
      simp only [hph] at accepted
      cases accepted
      obtain ⟨hlen, rfl⟩ := hown.checked
      have hread : s.world.rwBuf.read 0 served.length = served := hown.holds
      simp only [Shared.set, Function.update_self, World.copyOut, toNat_count (hlen.trans maxRwBufferSize_le), hread]
    | enter j => cases j <;> trivial
    | _ => trivial
  | _ => trivial

/-- In every run in which no step touches what another client relies on, every step is faithful: writes store
    their own caller's bytes, reads hand over what the server read for their caller, and renames use the
    destination that their caller gave. -/
theorem Shared.run_faithful (B : Backing E σ) (d : σ → CInt → σ × CInt × Bool) (W : World E (Server σ))
    (actions : List (Action w)) (s : Shared E σ) (run : Run B d (Apart B) (.start W) actions s) (a : Action w)
    (s' : Shared E σ) (accepted : s.step B d a = some s') : Faithful B s a s' := by
  have hstart : (Shared.start W : Shared E σ).Inv := fun _ => Phase.sound_of_window_nil rfl trivial
  have hlast : s.Inv := by
    generalize Shared.start W = s₀ at run hstart
    induction run with
    | nil => exact hstart
    | cons allowed step tail ih => exact ih accepted (step_inv hstart allowed step)
  exact hlast.faithful accepted

end Steps

/-! ## A call that nothing interrupts -/

section Alone
variable {B : Backing E σ} {d : σ → CInt → σ × CInt × Bool} {c : Nat} {fh : CInt} {phases : Nat → Phase w}

/-- Client `c` goes on while the others rest. -/
def Shared.Alone (B : Backing E σ) (d : σ → CInt → σ × CInt × Bool) (c : Nat) : Shared E σ → Shared E σ → Prop :=
  Relation.ReflTransGen fun s s' => s.step B d (.go c) = some s'

theorem Shared.Alone.go {W : World E (Server σ)} {ph : Phase w} {s : Shared E σ} (W' : World E (Server σ))
    (ph' : Phase w) (h : Shared.step B d ⟨W, Function.update phases c ph⟩ (.go c) =
      some (Shared.set ⟨W, Function.update phases c ph⟩ W' c ph'))
    (hrest : Alone B d c ⟨W', Function.update phases c ph'⟩ s) : Alone B d c ⟨W, Function.update phases c ph⟩ s := by
  refine .head ?_ hrest
  rw [h, Shared.set, Function.update_idem]

/-- Steps of a `pwritev` that nobody interrupts come to what its loop comes to. -/
theorem Shared.alone_pwritev (W : World E (Server σ)) (iov : List (Entry w)) (p : Off64T) (n : SSizeT w) :
    let r := L4fsFile.pwritevLoop (Server.handler B d) fh W (iov.map Subtype.val) p n
    Alone B d c ⟨W, Function.update phases c (Phase.pwritev fh iov p n)⟩
      ⟨r.1, Function.update phases c (.returned r.2.toInt [])⟩ := by
  induction iov generalizing W p n with
  | nil => exact .refl
  | cons buf rest ih =>
    let x : Writing w := ⟨fh, buf, rest, p, n⟩
    have hlen : BitVec.ofNat (8 * w.bytes) buf.1.length = buf.len := rfl
    simp only [List.map_cons, L4fsFile.pwritevLoop, hlen, L4fs.pwrite, L4fs.callTransfer, Phase.pwritev]
    refine .go (W.copyIn buf.1) (.ready (.write x)) (by simp only [step, Function.update_self]; rfl) ?_
    -- The entry is copied first, and refused after that if the shared buffer cannot hold it.
    by_cases hbig : L4fs.tooBig buf.len = true
    · have hneg : (-l4Enomem : CInt).toInt < 0 := by decide
      simp only [if_pos hbig, if_pos hneg, toInt_signExtend_int]
      refine .go _ (.returned (-l4Enomem).toInt []) ?_ .refl
      simp only [step, Function.update_self, Job.refused, x, if_pos hbig]
      rfl
    · simp only [if_neg hbig]
      refine .go (W.copyIn buf.1) (.sent (.write x)) ?_ ?_
      · simp only [step, Function.update_self, Job.refused, x, if_neg hbig]
        rfl
      generalize ho : World.call _ (W.copyIn buf.1) (L4fs.transferRequest w .pwrite fh buf.len p) = o
      refine .go o.1 (.answered (.write x) o.2 []) ?_ ?_
      · simp only [step, Function.update_self, Job.request, Job.served, x, ho]
      refine .go o.1 (Phase.arrive (.write x) o.2 []) (by simp only [step, Function.update_self]) ?_
      simp only [Phase.arrive, Writing.next, x]
      split
      · simp only [toInt_signExtend_int]
        exact .refl
      · split
        · exact .refl
        · exact ih _ _ _

/-- Steps of a `preadv` that nobody interrupts come to what its loop comes to. -/
theorem Shared.alone_preadv (W : World E (Server σ)) (filled : List (List UInt8)) (iov : List (Entry w)) (p : Off64T)
    (n : SSizeT w) :
    let r := L4fsFile.preadvLoop (Server.handler B d) fh W (iov.map Subtype.val) p n
    Alone B d c ⟨W, Function.update phases c (Phase.preadv fh filled iov p n)⟩
      ⟨r.1, Function.update phases c (.returned r.2.1.toInt (filled ++ r.2.2))⟩ := by
  induction iov generalizing W filled p n with
  | nil =>
    simp only [List.map_nil, L4fsFile.preadvLoop, List.append_nil]
    exact .refl
  | cons buf rest ih =>
    let x : Reading w := ⟨fh, filled, buf, rest, p, n⟩
    have hlen : BitVec.ofNat (8 * w.bytes) buf.1.length = buf.len := rfl
    simp only [List.map_cons, L4fsFile.preadvLoop, hlen, L4fs.pread, L4fs.callTransfer, Phase.preadv]
    -- The stub refuses an entry that the shared buffer cannot hold, and sends nothing.
    by_cases hbig : L4fs.tooBig buf.len = true
    · have hneg : (-l4Enomem : CInt).toInt < 0 := by decide
      simp only [if_pos hbig, if_pos hneg, toInt_signExtend_int]
      refine .go _ (.returned (-l4Enomem).toInt (filled ++ buf.1 :: rest.map Subtype.val)) ?_ .refl
      simp only [step, Function.update_self, Job.refused, if_pos hbig]
      rfl
    · simp only [if_neg hbig]
      refine .go W (.sent (.read x)) ?_ ?_
      · simp only [step, Function.update_self, Job.refused, x, if_neg hbig]
        rfl
      generalize ho : World.call _ W (L4fs.transferRequest w .pread fh buf.len p) = o
      refine .go o.1 (.answered (.read x) o.2 ((Job.read x).served B W.fs)) ?_ ?_
      · simp only [step, Function.update_self, Job.request, x, ho]
      refine .go o.1 (Phase.arrive (.read x) o.2 ((Job.read x).served B W.fs))
        (by simp only [step, Function.update_self]) ?_
      simp only [Phase.arrive, x]
      split
      · simp only [toInt_signExtend_int]
        exact .refl
      · have hnext : ∀ buf' : List UInt8, ∀ l : List (List UInt8), filled ++ buf' :: l = (filled ++ [buf']) ++ l :=
            fun _ _ => by
          simp
        split
        · let copied := o.1.copyOut buf.1 (readSizeT w o.2.ios).1.toNat
          refine .go copied.1 (x.next copied.2 (readSizeT w o.2.ios).1)
            (by simp only [step, Function.update_self]; rfl) ?_
          rw [hnext]
          exact ih _ _ _ _
        · rw [hnext]
          exact ih _ _ _ _

end Alone

/-! ### Two writers -/

section TwoWriters

/-- The bytes `A` and `B`. -/
def entryA : Entry .w32 := ⟨[65], by decide⟩

def entryB : Entry .w32 := ⟨[66], by decide⟩

/-- Client 0 and then client 1 copy their bytes into the shared buffer, and client 0 sends its request. -/
def twoWriters : List (Action .w32) :=
  [.pwritev 0 3 [entryA] 0, .pwritev 1 3 [entryB] 0, .go 0, .go 1, .go 0]

/-- The clients when the request of client 0 is in flight. -/
def overwritten : Shared Ipc.x86 (List UInt8) :=
  let writing e : Job .w32 := .write ⟨3, e, [], 0, 0⟩
  ((((Shared.start oneFileClients.world).set oneFileClients.world 0 (.enter (writing entryA))).set
    oneFileClients.world 1 (.enter (writing entryB))).set (oneFileClients.world.copyIn [65]) 0
    (.ready (writing entryA))).set
    ((oneFileClients.world.copyIn [65]).copyIn [66]) 1 (.ready (writing entryB)) |>.set
    ((oneFileClients.world.copyIn [65]).copyIn [66]) 0 (.sent (writing entryA))

theorem run_twoWriters :
    Shared.Run (oneFile Ipc.x86) (fun s _ => (s, 0, false)) (fun _ _ => True) (.start oneFileClients.world) twoWriters
      overwritten :=
  .cons trivial rfl (.cons trivial rfl (.cons trivial rfl (.cons trivial rfl (.cons trivial rfl (.nil _)))))

/-- The handling of the request of client 0 stores the byte of client 1. -/
theorem Shared.twoWriters_not_faithful :
    Run (oneFile Ipc.x86) (fun s _ => (s, 0, false)) (fun _ _ => True) (.start oneFileClients.world) twoWriters
    overwritten ∧
      ∃ s', overwritten.step (oneFile Ipc.x86) (fun s _ => (s, 0, false)) (.go 0) = some s' ∧ s'.world.fs = [66] ∧
        ¬Faithful (oneFile Ipc.x86) overwritten (.go 0) s' := by
  refine ⟨run_twoWriters, _, rfl, ?_⟩
  have hstored := (call_write (B := oneFile Ipc.x86) (d := fun s _ => (s, 0, false))
    (W := (oneFileClients.world.copyIn [65]).copyIn [66]) (x := ⟨3, entryA, [], 0, 0⟩) (by decide)).2
  have hread : ((oneFileClients.world.copyIn [65]).copyIn [66]).rwBuf.read 0 1 = [66] := read_copyIn [66] (by decide)
  rw [show entryA.1.length = 1 from rfl, hread] at hstored
  refine ⟨hstored, fun h => ?_⟩
  change _ = [65] at h
  exact absurd (hstored.symm.trans h) (by decide)

theorem apart_of_idle {B : Backing E σ} {s : Shared E σ} {a : Action w}
    (h : ∀ c, c ≠ a.client → (s.phase c).window = []) : Apart B s a := fun c hc => by
  rw [h c hc]
  rfl

theorem apart_of_quiet {B : Backing E σ} {s : Shared E σ} {a : Action w} (h : s.incoming B a = []) : Apart B s a :=
    fun c _ => by
  rw [h, Mem.write_nil]

theorem Shared.Run.foldlM {B : Backing E σ} {d : σ → CInt → σ × CInt × Bool} {allows : Shared E σ → Action w → Prop}
    {s last : Shared E σ} {actions : List (Action w)} (hrun : Run B d allows s actions last) :
    actions.foldlM (Shared.step B d) s = some last := by
  induction hrun with
  | nil => rfl
  | cons allowed accepted tail ih => rw [List.foldlM_cons, accepted, ← ih]; rfl

/-- What a call has returned, and the buffers of its caller. -/
def Phase.returned? : Phase w → Option (Int × List (List UInt8))
  | .returned ret bufs => some (ret, bufs)
  | _ => none

/-- Client 0 writes a byte and client 1 reads it: each of them goes on while the other one's byte lies in the shared
    buffer. -/
def writerReader : List (Action .w32) :=
  [.pwritev 0 3 [entryA] 0, .preadv 1 3 [entryB] 0, .go 0, .go 1, .go 0, .go 0, .go 1, .go 0, .go 1]

theorem writerReader_returned :
    ((writerReader ++ [Action.go 1]).foldlM (Shared.step (oneFile Ipc.x86) fun s _ => (s, 0, false))
      (.start oneFileClients.world)).map (fun s : Shared Ipc.x86 (List UInt8) =>
      ((s.phase 0).returned?, (s.phase 1).returned?)) =
      some (some (1, []), some (1, [[65]])) := by decide +kernel

theorem Shared.run_faithful_writing : ∃ s s' : Shared Ipc.x86 (List UInt8),
    Run (oneFile Ipc.x86) (fun s _ => (s, 0, false)) (Apart (oneFile Ipc.x86))
    (.start oneFileClients.world) writerReader s ∧
      s.step (oneFile Ipc.x86) (fun s _ => (s, 0, false)) (.go 1) = some s' ∧ (s'.phase 0).returned? = some (1, []) ∧
      (s'.phase 1).returned? = some (1, [[65]]) ∧ Faithful (oneFile Ipc.x86) s (.go 1) s' := by
  obtain ⟨s, hrun⟩ : ∃ s, Run (oneFile Ipc.x86) (fun s _ => (s, 0, false)) (Apart (oneFile Ipc.x86))
      (.start oneFileClients.world) writerReader s := by
    refine ⟨_, .cons (apart_of_quiet rfl) rfl (.cons (apart_of_quiet rfl) rfl (.cons (apart_of_idle fun c hc => ?_) rfl
      (.cons (apart_of_quiet rfl) rfl (.cons (apart_of_quiet rfl) rfl (.cons (apart_of_quiet rfl) rfl
      (.cons (apart_of_idle fun c hc => ?_) rfl (.cons (apart_of_quiet rfl) rfl (.cons (apart_of_quiet rfl) rfl
      (.nil _)))))))))⟩
    · -- Client 0 copies its byte in; client 1 has only begun to read.
      have hc : c ≠ 0 := hc
      by_cases hother : c = 1
      · subst hother
        rfl
      · simp [Shared.set, Shared.start, hc, hother, Phase.window]
    · -- The server reads for client 1; the request of client 0 is handled.
      have hc : c ≠ 1 := hc
      by_cases hother : c = 0
      · subst hother
        rfl
      · simp [Shared.set, Shared.start, hc, hother, Phase.window]
  have hplayed := writerReader_returned
  rw [List.foldlM_append, hrun.foldlM] at hplayed
  obtain ⟨s', hs', hreturned⟩ := Option.map_eq_some_iff.mp hplayed
  have hstep : s.step (oneFile Ipc.x86) (fun s _ => (s, 0, false)) (.go 1) = some s' := by simpa using hs'
  obtain ⟨hzero, hone⟩ := Prod.mk.inj hreturned
  exact ⟨s, s', hrun, hstep, hzero, hone, Shared.run_faithful _ _ _ writerReader s hrun (.go 1) s' hstep⟩

end TwoWriters

end

end Dom0
