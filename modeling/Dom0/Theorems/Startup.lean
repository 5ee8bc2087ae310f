import Dom0.Kernel.Startup
import Dom0.Lib.Runs

/-! A program that l4re_kernel starts finds on its stack what l4re_kernel found on its own: the same arguments, and the
same environment, from the last string to the first. Pushing words grows the list of words that the stack holds; the
loops that push read the old stack, which lies elsewhere. -/

namespace Dom0
open Mem

section
variable {w : Word} {m m' : Mem} {p sp aux : ULong w} {i k rounds : Nat} {args env ws vs : List (ULong w)}
  {entries : List (ULong w × ULong w)}

theorem Word.bytes_pos (w : Word) : 0 < w.bytes := by
  cases w <;> decide

theorem toNat_wordPtr (h : p.toNat + w.bytes * i < 2 ^ (8 * w.bytes)) :
    (wordPtr p i).toNat = p.toNat + w.bytes * i := by
  rw [wordPtr, BitVec.toNat_add, BitVec.toNat_ofNat, Nat.add_mod_mod, Nat.mod_eq_of_lt h]

theorem toNat_wordPtr_of_lt (h : p.toNat + w.bytes * k ≤ 2 ^ (8 * w.bytes)) (hi : i < k) :
    (wordPtr p i).toNat = p.toNat + w.bytes * i :=
  toNat_wordPtr (Nat.lt_of_lt_of_le (Nat.add_lt_add_left (Nat.mul_lt_mul_of_pos_left hi w.bytes_pos) _) h)

theorem wordPtr_wordPtr : wordPtr (wordPtr p i) k = wordPtr p (i + k) := by
  rw [wordPtr, wordPtr, wordPtr, BitVec.add_assoc, ← BitVec.ofNat_add, ← Nat.mul_add]

theorem signExtend_ofNat (h : i < 2 ^ 31) : (BitVec.ofNat 32 i).signExtend (8 * w.bytes) = BitVec.ofNat _ i := by
  have hlt : i % 2 ^ 32 = i := Nat.mod_eq_of_lt (by omega)
  have hmsb : (BitVec.ofNat 32 i).msb = false :=
    BitVec.msb_eq_false_iff_two_mul_lt.mpr (by rw [BitVec.toNat_ofNat, hlt]; omega)
  rw [BitVec.signExtend_eq_setWidth_of_msb_false hmsb, BitVec.setWidth_ofNat_of_le_of_lt w.le_bits (by omega)]

/-! ## What a program finds -/

/-- The vector of auxiliary entries, with the zero that ends it. -/
def auxWords (entries : List (ULong w × ULong w)) : List (ULong w) := entries.flatMap (fun e => [e.1, e.2]) ++ [0]

/-- The words on the stack of a program that starts. -/
def startWords (args env : List (ULong w)) (entries : List (ULong w × ULong w)) : List (ULong w) :=
  BitVec.ofNat _ args.length :: (args ++ 0 :: (env ++ 0 :: auxWords entries))

/-- The value of the last entry with the key of `l4re_aux`, or what was there before. -/
def lastAux (aux : ULong w) (entries : List (ULong w × ULong w)) : ULong w :=
  entries.foldl (fun aux e => if e.1 = auxL4re then e.2 else aux) aux

/-- A program starts with these arguments, this environment and these entries. -/
structure StartsWith (m : Mem) (sp : ULong w) (args env : List (ULong w)) (entries : List (ULong w × ULong w)) :
    Prop where
  words : m.HoldsWords sp.toNat (startWords args env entries)
  fits : sp.toNat + w.bytes * (startWords args env entries).length ≤ 2 ^ (8 * w.bytes)
  args_lt : args.length < 2 ^ 31
  env_ne : 0 ∉ env
  keys_ne : ∀ e ∈ entries, e.1 ≠ 0

theorem length_auxWords : (auxWords entries).length = 2 * entries.length + 1 := by
  simp [auxWords, Nat.mul_comm]

theorem length_startWords :
    (startWords args env entries).length = args.length + env.length + 2 * entries.length + 4 := by
  simp only [startWords, List.length_append, List.length_cons, length_auxWords]
  omega

theorem findAux_of_holds (h : m.HoldsWords p.toNat (auxWords entries)) (hkeys : ∀ e ∈ entries, e.1 ≠ 0)
    (hfits : p.toNat + w.bytes * (auxWords entries).length ≤ 2 ^ (8 * w.bytes)) (hrounds : entries.length < rounds) :
    findAux m rounds p aux = lastAux aux entries := by
  induction entries generalizing p aux rounds with
  | nil =>
    cases rounds with
    | zero => simp at hrounds
    | succ rounds => simp only [findAux, show wordAt m p = 0 from h.1, if_true, lastAux, List.foldl_nil]
  | cons e entries ih =>
    cases rounds with
    | zero => simp at hrounds
    | succ rounds =>
      rw [length_auxWords, List.length_cons] at hfits
      have hone : (wordPtr p 1).toNat = p.toNat + w.bytes := by
        rw [toNat_wordPtr_of_lt hfits (by omega), Nat.mul_one]
      have htwo : (wordPtr p 2).toNat = p.toNat + w.bytes + w.bytes := by
        rw [toNat_wordPtr_of_lt hfits (by omega), Nat.mul_two, Nat.add_assoc]
      obtain ⟨hkey, hvalue, hrest⟩ := h
      have hkey : wordAt m p = e.1 := hkey
      have hvalue : wordAt m (wordPtr p 1) = e.2 := by rw [wordAt, hone, hvalue]
      have hrest : m.HoldsWords (wordPtr p 2).toNat (auxWords entries) := htwo ▸ hrest
      have hsplit : w.bytes * (2 * (entries.length + 1) + 1) = w.bytes + w.bytes + w.bytes *
          (2 * entries.length + 1) := by
        rw [show 2 * (entries.length + 1) + 1 = (2 * entries.length + 1) + 1 + 1 by omega, Nat.mul_succ, Nat.mul_succ]
        omega
      rw [findAux, hkey, if_neg (hkeys e List.mem_cons_self), hvalue,
        ih hrest (fun e' he' => hkeys e' (List.mem_cons_of_mem e he')) ?_ (Nat.lt_of_succ_lt_succ hrounds)]
      · rfl
      · rw [htwo, length_auxWords]
        omega

/-- Where the arguments, the environment and the entries lie. -/
theorem StartsWith.parts (h : StartsWith m sp args env entries) :
    wordAt m sp = BitVec.ofNat _ args.length ∧ m.HoldsWords (wordPtr sp 1).toNat (args ++ [0]) ∧
      m.HoldsWords (wordPtr sp (args.length + 2)).toNat (env ++ [0]) ∧
      m.HoldsWords (wordPtr sp (args.length + env.length + 3)).toNat (auxWords entries) := by
  have hfits := h.fits
  rw [length_startWords] at hfits
  have hwords : m.HoldsWords sp.toNat ([BitVec.ofNat _ args.length] ++
      ((args ++ [0]) ++ ((env ++ [0]) ++ auxWords entries))) := by
    have hwords := h.words
    rw [startWords] at hwords
    simpa only [List.append_assoc, List.cons_append, List.nil_append] using hwords
  obtain ⟨hargc, hrest⟩ := holdsWords_append.mp hwords
  obtain ⟨hargs, hrest⟩ := holdsWords_append.mp hrest
  obtain ⟨henv, haux⟩ := holdsWords_append.mp hrest
  rw [toNat_wordPtr_of_lt hfits (by omega), toNat_wordPtr_of_lt hfits (by omega), toNat_wordPtr_of_lt hfits (by omega)]
  simp only [List.length_append, List.length_cons, List.length_nil, Nat.zero_add,
    Nat.add_assoc, ← Nat.mul_add] at hargs henv haux
  rw [show 1 + (args.length + 1) = args.length + 2 by omega] at henv
  rw [show 1 + (args.length + (1 + (env.length + 1))) = args.length + (env.length + 3) by omega] at haux
  rw [Nat.add_assoc args.length]
  exact ⟨hargc.1, hargs, henv, haux⟩

/-- What `main` makes of it. -/
theorem StartsWith.start_eq (h : StartsWith m sp args env entries) (henv : env.length < rounds)
    (hentries : entries.length < rounds) :
    Global.start m rounds sp aux =
      ⟨BitVec.ofNat _ args.length, wordPtr sp 1, wordPtr sp (args.length + 2), lastAux aux entries⟩ := by
  obtain ⟨hargc, -, henvs, haux⟩ := h.parts
  have hfits := h.fits
  rw [length_startWords] at hfits
  have hargc' : (wordAt m sp).setWidth 32 = BitVec.ofNat 32 args.length := by
    rw [hargc, BitVec.setWidth_ofNat_of_le w.le_bits]
  have henvp : wordPtr (wordPtr sp 1 + BitVec.ofNat _ w.bytes * (BitVec.ofNat 32 args.length).signExtend _) 1 =
      wordPtr sp (args.length + 2) := by
    rw [signExtend_ofNat h.args_lt, ← BitVec.ofNat_mul, ← wordPtr, wordPtr_wordPtr, wordPtr_wordPtr]
    congr 1
    omega
  have hto0 : m.wordsTo0 w.bytes rounds (wordPtr sp (args.length + 2)).toNat = env :=
    Mem.wordsTo0_of_holds henvs h.env_ne henv
  have hauxp : wordPtr (wordPtr sp (args.length + 2)) (env.length + 1) = wordPtr sp (args.length + env.length + 3) := by
    rw [wordPtr_wordPtr]
    congr 1
    omega
  simp only [Global.start, Global.main, hargc', henvp, hto0, hauxp]
  rw [findAux_of_holds haux h.keys_ne ?_ hentries]
  rw [length_auxWords, toNat_wordPtr_of_lt hfits (by omega), Nat.add_assoc, ← Nat.mul_add]
  rwa [show args.length + env.length + 3 + (2 * entries.length + 1) =
    args.length + env.length + 2 * entries.length + 4 by omega]

/-! ## What pushing leaves -/

namespace L4ReStack

/-- The stack grew by the words `vs`, the last of them on top, and nothing else changed. -/
structure Pushed (s : L4ReStack w) (vs : List (ULong w)) (s' : L4ReStack w) : Prop where
  sp : s'.sp.toNat + w.bytes * vs.length = s.sp.toNat
  top : s'.mem.HoldsWords s'.sp.toNat vs.reverse
  frame : ∀ i, i < s'.sp.toNat ∨ s.sp.toNat ≤ i → s'.mem i = s.mem i

variable {s s' s'' : L4ReStack w} {v argv e : ULong w} {g : Global w}

theorem Pushed.refl (s : L4ReStack w) : s.Pushed [] s := ⟨rfl, trivial, fun _ _ => rfl⟩

theorem Pushed.trans (h : s.Pushed vs s') (h' : s'.Pushed ws s'') : s.Pushed (vs ++ ws) s'' := by
  have hsp := h.sp
  have hsp' := h'.sp
  refine ⟨?_, ?_, fun i hi => ?_⟩
  · rw [List.length_append, Nat.mul_add]
    omega
  · rw [List.reverse_append, holdsWords_append, List.length_reverse, hsp']
    exact ⟨h'.top, h.top.congr fun i hi _ => h'.frame i (Or.inr hi)⟩
  · rw [h'.frame i (by omega), h.frame i (by omega)]

theorem Pushed.above (h : s.Pushed vs s') {a : Nat} (ha : s.sp.toNat ≤ a) (hws : s.mem.HoldsWords a ws) :
    s'.mem.HoldsWords a ws :=
  hws.congr fun i hi _ => h.frame i (Or.inr (by omega))

theorem pushed_push (hroom : w.bytes ≤ s.sp.toNat) : s.Pushed [v] (s.push v) := by
  have hbytes : w.bytes < 2 ^ (8 * w.bytes) := by cases w <;> decide
  have hsp : (s.push v).sp.toNat = s.sp.toNat - w.bytes := by
    have hle : BitVec.ofNat (8 * w.bytes) w.bytes ≤ s.sp := by
      rw [BitVec.le_def, BitVec.toNat_ofNat, Nat.mod_eq_of_lt hbytes]
      exact hroom
    rw [push, pushObject, Bytes.length_le, BitVec.toNat_sub_of_le hle, BitVec.toNat_ofNat, Nat.mod_eq_of_lt hbytes]
  have hmem : (s.push v).mem = s.mem.write (s.push v).sp.toNat (Bytes.le w.bytes v.toNat) := rfl
  refine ⟨?_, ⟨?_, trivial⟩, fun i hi => ?_⟩
  · rw [hsp, List.length_singleton]
    omega
  · rw [hmem, word_write]
  · rw [hmem, Mem.write, Bytes.length_le, if_neg (by omega)]

/-- The words lie outside the part of the stack that still is to be written. -/
def Apart (s : L4ReStack w) (room a n : Nat) : Prop := s.sp.toNat ≤ a ∨ a + w.bytes * n ≤ s.sp.toNat - room

theorem Pushed.holds (h : s.Pushed vs s') {a : Nat} (room : Nat) (hroom : w.bytes * vs.length ≤ room)
    (hapart : s.Apart room a ws.length) (hws : s.mem.HoldsWords a ws) : s'.mem.HoldsWords a ws := by
  have hsp := h.sp
  simp only [Apart] at hapart
  exact hws.congr fun i hi hlt => h.frame i (by omega)

/-- The loop of `push_envp`. -/
theorem pushed_pushFrom (hroom : w.bytes * env.length ≤ s.sp.toNat) (henv : s.mem.HoldsWords e.toNat (env ++ [0]))
    (hne : 0 ∉ env)
    (hfits : e.toNat + w.bytes * (env.length + 1) ≤ 2 ^ (8 * w.bytes)) (hrounds : env.length ≤ rounds)
    (hapart : s.Apart (w.bytes * env.length) e.toNat (env.length + 1)) : s.Pushed env (s.pushFrom rounds e) := by
  induction env generalizing s e rounds with
  | nil =>
    cases rounds with
    | zero => exact .refl s
    | succ rounds =>
      rw [pushFrom, if_pos (show wordAt s.mem e = 0 from henv.1)]
      exact .refl s
  | cons v env ih =>
    cases rounds with
    | zero => simp at hrounds
    | succ rounds =>
      obtain ⟨hv, hrest⟩ := henv
      have hv : wordAt s.mem e = v := hv
      rw [List.mem_cons, not_or] at hne
      rw [List.length_cons] at hfits hrounds hroom hapart
      have hone : (wordPtr e 1).toNat = e.toNat + w.bytes := by rw [toNat_wordPtr_of_lt hfits (by omega), Nat.mul_one]
      rw [Nat.mul_succ] at hroom hapart
      rw [Nat.mul_succ] at hfits
      have hpush : s.Pushed [v] (s.push v) := pushed_push (by omega)
      have hsp := hpush.sp
      rw [List.length_singleton, Nat.mul_one] at hsp
      rw [pushFrom, hv, if_neg fun h0 => hne.1 h0.symm]
      refine hpush.trans (ih (by omega) ?_ hne.2 (by rw [hone]; omega) (by omega) ?_)
      · rw [hone]
        refine hpush.holds (w.bytes * env.length + w.bytes) (by rw [List.length_singleton]; omega) ?_ hrest
        simp only [Apart, List.length_append, List.length_singleton, Nat.mul_succ] at hapart ⊢
        omega
      · simp only [Apart, Nat.mul_succ] at hapart ⊢
        omega

/-- The loop of `push_argv`. -/
theorem pushed_pushArgs (hroom : w.bytes * args.length ≤ s.sp.toNat) (hargs : s.mem.HoldsWords argv.toNat args)
    (hfits : argv.toNat + w.bytes * args.length ≤ 2 ^ (8 * w.bytes))
    (hapart : s.Apart (w.bytes * args.length) argv.toNat args.length) :
    s.Pushed args.reverse (s.pushArgs argv args.length) := by
  induction args using List.reverseRecOn generalizing s with
  | nil => exact .refl s
  | append_singleton args v ih =>
    rw [List.length_append, List.length_singleton, Nat.mul_succ] at hroom hapart
    rw [List.length_append, List.length_singleton] at hfits
    obtain ⟨hinit, hv, -⟩ := holdsWords_append.mp hargs
    have hlast : wordAt s.mem (wordPtr argv args.length) = v := by
      rw [wordAt, toNat_wordPtr_of_lt hfits (Nat.lt_succ_self _)]
      exact hv
    rw [Nat.mul_succ] at hfits
    have hpush : s.Pushed [v] (s.push v) := pushed_push (by omega)
    have hsp := hpush.sp
    rw [List.length_singleton, Nat.mul_one] at hsp
    rw [List.length_append, List.length_singleton, pushArgs, hlast, List.reverse_concat]
    refine hpush.trans (ih (by omega) ?_ (by omega) ?_)
    · refine hpush.holds (w.bytes * args.length + w.bytes) (by rw [List.length_singleton]; omega) ?_ hinit
      simp only [Apart, Nat.mul_succ] at hapart ⊢
      omega
    · simp only [Apart, Nat.mul_succ] at hapart ⊢
      omega

/-- `push_envp` and `push_argv` after each other. -/
theorem pushed_envp_argv {sp : ULong w} (h : StartsWith s.mem sp args env entries) (hrounds : env.length < rounds)
    (hentries : entries.length < rounds) (hroom : w.bytes * (args.length + env.length + 3) ≤ s.sp.toNat)
    (hapart : s.Apart (w.bytes * (args.length + env.length + 3)) sp.toNat (startWords args env entries).length) :
    s.Pushed (0 :: env ++ (0 :: args.reverse ++ [BitVec.ofNat _ args.length]))
      ((s.pushEnvp rounds (Global.start s.mem rounds sp aux)).pushArgv (Global.start s.mem rounds sp aux)) := by
  obtain ⟨-, hargs, henv, -⟩ := h.parts
  have hfits := h.fits
  have hlt := h.args_lt
  rw [length_startWords] at hfits
  have hone : (wordPtr sp 1).toNat = sp.toNat + w.bytes := by rw [toNat_wordPtr_of_lt hfits (by omega), Nat.mul_one]
  have henvp : (wordPtr sp (args.length + 2)).toNat = sp.toNat + (w.bytes * args.length + w.bytes * 2) := by
    rw [toNat_wordPtr_of_lt hfits (by omega), Nat.mul_add]
  simp only [length_startWords, Apart, Nat.mul_add] at hapart hfits hroom
  have hargc : (BitVec.ofNat 32 args.length).toInt.toNat = args.length := by
    rw [BitVec.toInt_eq_toNat_of_lt, BitVec.toNat_ofNat, Nat.mod_eq_of_lt (by omega), Int.toNat_natCast]
    rw [BitVec.toNat_ofNat, Nat.mod_eq_of_lt (by omega)]
    omega
  simp only [h.start_eq hrounds hentries, pushEnvp, pushArgv, hargc, signExtend_ofNat hlt]
  -- The stack grows down, so the terminator of the environment goes first.
  have hfirst : s.Pushed [0] (s.push 0) := pushed_push (by omega)
  have hsp₁ := hfirst.sp
  rw [List.length_singleton] at hsp₁
  have hpushEnv : (s.push 0).Pushed env ((s.push 0).pushFrom rounds (wordPtr sp (args.length + 2))) := by
    refine pushed_pushFrom (by omega)
      (hfirst.holds (w.bytes * args.length + w.bytes * env.length + w.bytes * 3) ?_ ?_ henv) h.env_ne ?_
      (Nat.le_of_lt hrounds) ?_
    · rw [List.length_singleton]
      omega
    · simp only [Apart, List.length_append, List.length_singleton, Nat.mul_add]
      omega
    · rw [henvp, Nat.mul_add]
      omega
    · simp only [Apart, henvp, Nat.mul_add]
      omega
  have hthird := hfirst.trans hpushEnv
  have hsp₂ := hthird.sp
  rw [List.length_append, List.length_singleton, Nat.mul_add] at hsp₂
  generalize (s.push 0).pushFrom rounds (wordPtr sp (args.length + 2)) = s₂ at hthird hsp₂ ⊢
  -- Between the strings and the arguments there is another terminator.
  have hzero : s₂.Pushed [0] (s₂.push 0) := pushed_push (by omega)
  have hall := hthird.trans hzero
  have hsp₃ := hall.sp
  simp only [List.length_append, List.length_singleton, Nat.mul_add] at hsp₃
  generalize s₂.push 0 = s₃ at hall hsp₃ ⊢
  have hpushArgs : s₃.Pushed args.reverse (s₃.pushArgs (wordPtr sp 1) args.length) := by
    refine pushed_pushArgs (by omega) (hall.holds (w.bytes * args.length + w.bytes * env.length + w.bytes * 3) ?_ ?_
      (holdsWords_append.mp hargs).1) ?_ ?_
    · simp only [List.length_append, List.length_singleton, Nat.mul_add]
      omega
    · simp only [Apart]
      omega
    · omega
    · simp only [Apart]
      omega
  have hargs' := hall.trans hpushArgs
  have hsp₄ := hargs'.sp
  simp only [List.length_append, List.length_singleton, List.length_reverse, Nat.mul_add] at hsp₄
  -- The number of arguments goes last.
  have hlast := hargs'.trans (pushed_push (v := BitVec.ofNat _ args.length) (by omega))
  simpa only [List.append_assoc, List.cons_append, List.nil_append] using hlast

/-- A program that l4re_kernel starts finds the arguments that l4re_kernel was started with itself, its environment from
    the last string to the first, and the entries that lay on the stack before; and nothing outside the stack is
    written. -/
theorem startsWith_pushed (s : L4ReStack w) (rounds : Nat) (aux : ULong w) {sp : ULong w}
    {entries' : List (ULong w × ULong w)} (h : StartsWith s.mem sp args env entries)
    (hrounds : env.length < rounds) (hentries : entries.length < rounds)
    (haux : s.mem.HoldsWords s.sp.toNat (auxWords entries'))
    (hkeys : ∀ e ∈ entries', e.1 ≠ 0) (hfits : s.sp.toNat + w.bytes * (auxWords entries').length ≤ 2 ^ (8 * w.bytes))
    (hroom : w.bytes * (args.length + env.length + 3) ≤ s.sp.toNat)
    (hapart : s.Apart (w.bytes * (args.length + env.length + 3)) sp.toNat (startWords args env entries).length)
    (hs' : s' = (s.pushEnvp rounds (Global.start s.mem rounds sp aux)).pushArgv (Global.start s.mem rounds sp aux)) :
    StartsWith s'.mem s'.sp args env.reverse entries' ∧
      (∀ rounds aux, env.length < rounds → entries'.length < rounds → Global.start s'.mem rounds s'.sp aux =
        ⟨BitVec.ofNat _ args.length, wordPtr s'.sp 1, wordPtr s'.sp (args.length + 2), lastAux aux entries'⟩) ∧
      s'.sp.toNat + w.bytes * (args.length + env.length + 3) = s.sp.toNat ∧
      ∀ i, i < s'.sp.toNat ∨ s.sp.toNat ≤ i → s'.mem i = s.mem i := by
  subst hs'
  have hpushed : s.Pushed _ ((s.pushEnvp rounds (Global.start s.mem rounds sp aux)).pushArgv
      (Global.start s.mem rounds sp aux)) :=
    pushed_envp_argv h hrounds hentries hroom hapart
  generalize (s.pushEnvp rounds (Global.start s.mem rounds sp aux)).pushArgv (Global.start s.mem rounds sp aux) =
    s' at hpushed ⊢
  have hrev : (0 :: env ++ (0 :: args.reverse ++ [BitVec.ofNat (8 * w.bytes) args.length])).reverse =
      BitVec.ofNat _ args.length :: (args ++ 0 :: (env.reverse ++ [0])) := by simp
  have hlen : (BitVec.ofNat (8 * w.bytes) args.length :: (args ++ 0 :: (env.reverse ++ [0]))).length =
      args.length + env.length + 3 := by
    simp only [List.length_append, List.length_cons, List.length_reverse, List.length_nil]
    omega
  have hsp := hpushed.sp
  have htop := hpushed.top
  have habove := hpushed.above (Nat.le_refl _) haux
  rw [← List.length_reverse, hrev, hlen] at hsp
  rw [hrev] at htop
  -- Read upwards, the pushed words and the old entries above them are the start of a stack.
  have hstarts : StartsWith s'.mem s'.sp args env.reverse entries' := by
    refine ⟨?_, ?_, h.args_lt, fun hmem => h.env_ne (List.mem_reverse.mp hmem), hkeys⟩
    · rw [← hsp, ← hlen] at habove
      have hwords := holdsWords_append.mpr ⟨htop, habove⟩
      simpa only [startWords, List.append_assoc, List.cons_append, List.nil_append] using hwords
    · rw [length_startWords, List.length_reverse]
      rw [length_auxWords, ← hsp, Nat.add_assoc, ← Nat.mul_add] at hfits
      rwa [show args.length + env.length + 2 * entries'.length + 4 = args.length + env.length + 3 +
          (2 * entries'.length + 1) by
        omega]
  refine ⟨hstarts, fun rounds aux henv hentries => ?_, hsp, hpushed.frame⟩
  exact hstarts.start_eq (by rwa [List.length_reverse]) hentries

/-! ## Any objects -/

/-- The loop of `align` ends at the least power of two above the size. -/
theorem alignBits_spec {size : ULong w} {b : Nat} (hsize : size.toNat < 2 ^ (8 * w.bytes - 1))
    (hb : b + rounds = 8 * w.bytes) (hbelow : ∀ c < b, 2 ^ c ≤ size.toNat) :
    size.toNat < 2 ^ alignBits size rounds b ∧ ∀ c < alignBits size rounds b, 2 ^ c ≤ size.toNat := by
  have hpos := w.bytes_pos
  induction rounds generalizing b with
  | zero =>
    have hlast := hbelow (8 * w.bytes - 1) (by omega)
    omega
  | succ rounds ih =>
    have hpow : ((1 : ULong w) <<< b).toNat = 2 ^ b := by
      have hone : (1 : ULong w).toNat = 1 := by cases w <;> rfl
      rw [BitVec.toNat_shiftLeft, hone, Nat.shiftLeft_eq, Nat.one_mul]
      exact Nat.mod_eq_of_lt (Nat.pow_lt_pow_right (by decide) (by omega))
    rw [alignBits]
    split
    · next hle =>
      rw [BitVec.le_def, hpow] at hle
      refine ih (by omega) fun c hc => ?_
      rcases Nat.lt_succ_iff_lt_or_eq.mp hc with hlt | rfl
      · exact hbelow c hlt
      · exact hle
    · next hle =>
      rw [BitVec.le_def, hpow] at hle
      exact ⟨by omega, hbelow⟩

theorem align_spec {size : ULong w} (hsize : size.toNat < 2 ^ (8 * w.bytes - 1)) :
    ∃ b, size.toNat < 2 ^ b ∧ (∀ c < b, 2 ^ c ≤ size.toNat) ∧ (s.align size).sp.toNat = s.sp.toNat / 2 ^ b * 2 ^ b := by
  obtain ⟨habove, hbelow⟩ : size.toNat < 2 ^ alignBits size (8 * w.bytes) 0 ∧
      ∀ c < alignBits size (8 * w.bytes) 0, 2 ^ c ≤ size.toNat :=
    alignBits_spec hsize (Nat.zero_add _) fun c hc => by cases hc
  exact ⟨_, habove, hbelow, BitVec.toNat_and_shiftLeft_allOnes⟩

/-- There is room for what is pushed. -/
def Used.HasRoom (s : Used w) : Action w → Prop
  | .pushObject src => src.length ≤ s.stack.sp.toNat
  | .align _ => True

/-- The objects that were pushed lie below `top` and above the stack pointer, each below the ones before it. -/
structure Used.Intact (top : Nat) (before : Mem) (s : Used w) : Prop where
  objects : ∀ o ∈ s.objects, s.stack.mem.read o.1.toNat o.2.length = o.2 ∧ s.stack.sp.toNat ≤ o.1.toNat ∧
    o.1.toNat + o.2.length ≤ top
  ordered : s.objects.Pairwise fun o o' => o'.1.toNat + o'.2.length ≤ o.1.toNat
  frame : ∀ i, i < s.stack.sp.toNat ∨ top ≤ i → s.stack.mem i = before i
  sp : s.stack.sp.toNat ≤ top

variable {t t' : Used w} {top : Nat} {before : Mem} {a : Action w}

theorem Used.Intact.step (h : t.Intact top before) (hroom : t.HasRoom a) (hstep : t.step a = some t') :
    t'.Intact top before := by
  cases a with
  | pushObject src =>
    obtain rfl := Option.some.inj hstep
    have hlt := t.stack.sp.isLt
    have hsp : (t.stack.pushObject src).sp.toNat = t.stack.sp.toNat - src.length := by
      have hlen : src.length < 2 ^ (8 * w.bytes) := Nat.lt_of_le_of_lt hroom hlt
      have hle : BitVec.ofNat (8 * w.bytes) src.length ≤ t.stack.sp := by
        rw [BitVec.le_def, BitVec.toNat_ofNat, Nat.mod_eq_of_lt hlen]
        exact hroom
      rw [pushObject, BitVec.toNat_sub_of_le hle, BitVec.toNat_ofNat, Nat.mod_eq_of_lt hlen]
    have hmem : (t.stack.pushObject src).mem = t.stack.mem.write (t.stack.pushObject src).sp.toNat src := rfl
    have hbelow : (t.stack.pushObject src).sp.toNat + src.length = t.stack.sp.toNat := by
      simp only [HasRoom] at hroom
      omega
    have hsp' := h.sp
    refine ⟨fun o ho => ?_, ?_, fun i hi => ?_, by simp only; omega⟩
    · rcases List.mem_append.mp ho with ho | ho
      · obtain ⟨hread, habove, htop⟩ := h.objects o ho
        refine ⟨?_, by simp only; omega, htop⟩
        rw [hmem]
        refine (read_congr fun i hi _ => ?_).trans hread
        rw [Mem.write, if_neg (by omega)]
      · obtain rfl := List.mem_singleton.mp ho
        exact ⟨by rw [hmem, read_write], Nat.le_refl _, by simp only; omega⟩
    · refine List.pairwise_append.mpr ⟨h.ordered, List.pairwise_singleton _ _, fun o ho o' ho' => ?_⟩
      obtain rfl := List.mem_singleton.mp ho'
      have habove := (h.objects o ho).2.1
      simp only
      omega
    · rw [hmem, Mem.write, if_neg (by simp only at hi; omega)]
      exact h.frame i (by simp only at hi; omega)
  | align size =>
    rw [Used.step, Option.ite_none_right_eq_some] at hstep
    obtain ⟨hsize, hstep⟩ := hstep
    obtain rfl := Option.some.inj hstep
    obtain ⟨b, -, -, hsp⟩ := align_spec (s := t.stack) hsize
    have hle : (t.stack.align size).sp.toNat ≤ t.stack.sp.toNat := by
      rw [hsp]
      exact Nat.div_mul_le_self _ _
    have hsp' := h.sp
    refine ⟨fun o ho => ?_, h.ordered, fun i hi => h.frame i (by simp only at hi; omega), by simp only; omega⟩
    obtain ⟨hread, habove, htop⟩ := h.objects o ho
    exact ⟨hread, by simp only; omega, htop⟩

/-- Whatever is pushed and aligned, in whatever order: as long as there is room, every object that was pushed lies
    unchanged where its pointer says, below the ones before it, and nothing outside the stack is written; and `align`
    then goes down to the next multiple of the least power of two above its argument. -/
theorem objects_intact {mem : Mem} {addr size : ULong w} {actions : List (Action w)}
    (hfits : addr.toNat + size.toNat < 2 ^ (8 * w.bytes))
    (hrun : Run Used.step Used.HasRoom ⟨attached mem addr size, []⟩ actions t) :
    t.Intact (addr.toNat + size.toNat) mem ∧ ∀ n t', t.step (.align n) = some t' →
      ∃ b, n.toNat < 2 ^ b ∧ (∀ c < b, 2 ^ c ≤ n.toNat) ∧ t'.stack.sp.toNat = t.stack.sp.toNat / 2 ^ b * 2 ^ b := by
  have hsp : (attached mem addr size).sp.toNat = addr.toNat + size.toNat := by
    rw [attached, BitVec.toNat_add, Nat.mod_eq_of_lt hfits]
  refine ⟨hrun.keeps (fun _ _ _ h hroom hstep => h.step hroom hstep)
    ⟨fun o ho => (by cases ho), .nil, fun _ _ => rfl, ?_⟩, ?_⟩
  · exact Nat.le_of_eq hsp
  · intro n t' hstep
    rw [Used.step, Option.ite_none_right_eq_some] at hstep
    obtain ⟨hsize, hstep⟩ := hstep
    obtain rfl := Option.some.inj hstep
    exact align_spec hsize

/-- A stack of 64 bytes at 256, on which a string and an aligned word are pushed. -/
theorem objects_intact_string : ∃ t : Used .w32, t.objects = [(317, [104, 105, 0]), (308, [1, 0, 0, 0])] ∧
    t.Intact (256 + 64) (fun _ => 0) ∧ ∀ n t', t.step (.align n) = some t' →
      ∃ b, n.toNat < 2 ^ b ∧ (∀ c < b, 2 ^ c ≤ n.toNat) ∧ t'.stack.sp.toNat = t.stack.sp.toNat / 2 ^ b * 2 ^ b := by
  have hrun : Run Used.step Used.HasRoom ⟨(attached (fun _ => 0) 256 64 : L4ReStack .w32), []⟩
      [.pushObject [104, 105, 0], .align 4, .pushObject [1, 0, 0, 0]] _ :=
    .cons (by decide : 3 ≤ 320) rfl (.cons trivial rfl (.cons (by decide : 4 ≤ 312) rfl (.nil _)))
  exact ⟨_, rfl, objects_intact (by decide) hrun⟩

/-- The memory of l4re_kernel: at 512 its own stack, with one argument, two strings of the environment and the entry for
    `l4re_aux`; at 256 the entries for the program that it starts. -/
def kernelMem : Mem :=
  Mem.write (Mem.write (fun _ => 0) 512 ([1, 5, 0, 6, 7, 0, 0xf0, 9, 0].flatMap (Bytes.le 4)))
    256 ([0xf0, 3, 0].flatMap (Bytes.le 4))

theorem startsWith_pushed_kernelMem : ∃ s' : L4ReStack .w32, StartsWith s'.mem s'.sp [5] [7, 6] [(0xf0, 3)] ∧
    (∀ rounds aux, 2 < rounds → 1 < rounds →
      Global.start s'.mem rounds s'.sp aux = ⟨1, wordPtr s'.sp 1, wordPtr s'.sp 3, lastAux aux [(0xf0, 3)]⟩) ∧
    s'.sp.toNat + Word.w32.bytes * (1 + 2 + 3) = 256 ∧ ∀ i, i < s'.sp.toNat ∨ 256 ≤ i → s'.mem i = kernelMem i := by
  have hstart : StartsWith (w := .w32) kernelMem 512 [5] [6, 7] [(0xf0, 9)] :=
    ⟨by decide, by decide, by decide, by decide, List.forall_mem_singleton.2 (by decide)⟩
  exact ⟨_, startsWith_pushed ⟨128, 128, 256, kernelMem⟩ 8 0 hstart (by decide) (by decide) (by decide)
    (List.forall_mem_singleton.2 (by decide)) (by decide) (by decide) (Or.inl (by decide)) rfl⟩

end L4ReStack

end

end Dom0
