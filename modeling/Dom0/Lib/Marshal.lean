import Dom0.Lib.Memory

/-! # Aligned message streams

A writer puts each value at the next offset aligned for it and drops what does not fit; a reader takes
each value at the next offset aligned for it. A message carries a list of fields when the reader finds
every field of the list in turn. A counted buffer is its element count followed by the elements; how much
of one a reader copies is a parameter, bounded by the room in the target and by what the message carries. -/

namespace Marshal

/-- `n` rounded up to a multiple of `a`. -/
def align (a n : Nat) : Nat := n + (a - n % a) % a

theorem le_align (a n : Nat) : n ≤ align a n := Nat.le_add_right _ _

@[simp] theorem align_one (n : Nat) : align 1 n = n := by simp [align, Nat.mod_one]

/-- A value on its way into a message: the alignment of its type and its bytes. -/
structure Field where
  alignment : Nat
  bytes : List UInt8

/-- A message being written: its memory and the offset of its next free byte. -/
structure Out where
  mem : Mem
  pos : Nat

/-- A message being read: its memory, its length in bytes, and the offset of the next byte to read. -/
structure In where
  mem : Mem
  len : Nat
  pos : Nat

/-! ## Writing -/

/-- Put one value at the next offset aligned for it, or drop it if it would end past `cap`. -/
def Out.put (cap : Nat) (o : Out) (f : Field) : Out :=
  let p := align f.alignment o.pos
  if p + f.bytes.length ≤ cap then ⟨o.mem.write p f.bytes, p + f.bytes.length⟩ else o

/-- Put several values one after the other. -/
def Out.putAll (cap : Nat) (o : Out) (fs : List Field) : Out := fs.foldl (Out.put cap) o

/-- The offset at which a list of fields ends that is laid out from offset `p` on. -/
def endPos : Nat → List Field → Nat
  | p, [] => p
  | p, f :: fs => endPos (align f.alignment p + f.bytes.length) fs

/-- The memory holds the fields, laid out from offset `p` on. -/
def Carries (m : Mem) : Nat → List Field → Prop
  | _, [] => True
  | p, f :: fs =>
    m.read (align f.alignment p) f.bytes.length = f.bytes ∧ Carries m (align f.alignment p + f.bytes.length) fs

section Writing
variable {cap p : Nat} {m m' : Mem} {fs gs : List Field}

theorem le_endPos : ∀ (fs : List Field) (p : Nat), p ≤ endPos p fs
  | [], p => Nat.le_refl p
  | f :: fs, p => by
    have := le_align f.alignment p
    have := le_endPos fs (align f.alignment p + f.bytes.length)
    simp only [endPos]
    omega

/-- A message carries the same fields wherever its bytes are kept. -/
theorem Carries.congr (h : m.AgreeBelow (endPos p fs) m') (hc : Carries m p fs) : Carries m' p fs := by
  induction fs generalizing p with
  | nil => trivial
  | cons f fs ih =>
    refine ⟨?_, ih h hc.2⟩
    rw [← h.read (le_endPos fs _), hc.1]

theorem Out.put_of_fits {o : Out} {f : Field} (h : align f.alignment o.pos + f.bytes.length ≤ cap) :
    o.put cap f = ⟨o.mem.write (align f.alignment o.pos) f.bytes, align f.alignment o.pos + f.bytes.length⟩ := by
  simp [Out.put, h]

theorem Out.put_of_not_fits {o : Out} {f : Field} (h : cap < align f.alignment o.pos + f.bytes.length) :
    o.put cap f = o :=
  if_neg (Nat.not_le_of_lt h)

theorem Out.putAll_concat {o : Out} {f : Field} : o.putAll cap (fs ++ [f]) = (o.putAll cap fs).put cap f := by
  simp [Out.putAll]

/-- Fields that fit are all put: the message ends where their layout ends and carries every one of them. -/
theorem Out.putAll_carries {o : Out} (h : endPos o.pos fs ≤ cap) :
    (o.putAll cap fs).pos = endPos o.pos fs ∧ Carries (o.putAll cap fs).mem o.pos fs ∧
      (o.putAll cap fs).mem.AgreeBelow o.pos o.mem := by
  induction fs generalizing o with
  | nil => exact ⟨rfl, trivial, fun _ _ => rfl⟩
  | cons f fs ih =>
    have hput := Out.put_of_fits (Nat.le_trans (le_endPos fs _) h)
    have hpos : (o.put cap f).pos = align f.alignment o.pos + f.bytes.length := by rw [hput]
    have hmem : (o.put cap f).mem = o.mem.write (align f.alignment o.pos) f.bytes := by rw [hput]
    obtain ⟨hend, hc, hbelow⟩ := ih (o := o.put cap f) (by rw [hpos]; exact h)
    rw [hpos] at hend hc hbelow
    refine ⟨hend, ⟨?_, hc⟩, fun i hi => ?_⟩
    · change ((o.put cap f).putAll cap fs).mem.read _ _ = _
      rw [hbelow.read (Nat.le_refl _), hmem, Mem.read_write]
    · have hle := le_align f.alignment o.pos
      change ((o.put cap f).putAll cap fs).mem i = _
      rw [hbelow i (by omega), hmem, Mem.write_below hle i hi]

end Writing

/-! ## Transfer -/

/-- The memory of a receiver after the first `n` bytes of a sender's memory have been copied to it. -/
def transfer (n : Nat) (sent own : Mem) : Mem := fun i => if i < n then sent i else own i

theorem transfer_below (n : Nat) (sent own : Mem) : sent.AgreeBelow n (transfer n sent own) := fun i hi => by
  simp [transfer, hi]

/-! ## Reading -/

/-- Read a value of `n` bytes at the next offset aligned to its size. -/
def In.get (n : Nat) (s : In) : List UInt8 × In :=
  (s.mem.read (align n s.pos) n, { s with pos := align n s.pos + n })

/-- How many elements of a counted buffer a reader copies, from the count in the message, the room in the
    target and the number of elements that the message still carries. -/
structure CountedCopy where
  copied : (count room carried : Nat) → Nat
  le_room : ∀ c r k, copied c r k ≤ r
  le_carried : ∀ c r k, copied c r k ≤ k
  whole : ∀ c r k, c ≤ r → c ≤ k → copied c r k = c

/-- Read a counted buffer: a count of `word` bytes, then elements of `elem` bytes each. -/
def In.getBuf (cc : CountedCopy) (word elem room : Nat) (s : In) : List UInt8 × In :=
  let c := s.get word
  let n := cc.copied (Bytes.toNat c.1) room ((s.len - c.2.pos) / elem)
  (s.mem.read c.2.pos (n * elem), { s with pos := c.2.pos + n * elem })

/-- The fields of a counted buffer of `count` elements. -/
def counted (word count : Nat) (bs : List UInt8) : List Field := [⟨word, Bytes.le word count⟩, ⟨1, bs⟩]

section Reading
variable {s : In} {n : Nat} {bs : List UInt8} {fs : List Field}

/-- The reader finds the fields from its position on, and the message carries all of them. -/
def In.Has (s : In) (fs : List Field) : Prop := Carries s.mem s.pos fs ∧ endPos s.pos fs ≤ s.len

theorem In.Has.get (h : s.Has (⟨n, bs⟩ :: fs)) (hn : bs.length = n) :
    (s.get n).1 = bs ∧ (s.get n).2.Has fs := by
  obtain ⟨⟨hb, hc⟩, hend⟩ := h
  simp only [endPos, hn] at hb hc hend
  exact ⟨hb, hc, hend⟩

/-- A counted buffer that fits the target is read back whole. -/
theorem In.Has.getBuf {word elem room count : Nat} (h : s.Has (counted word count bs ++ fs)) (cc : CountedCopy)
    (helem : 0 < elem) (hlen : bs.length = count * elem) (hcount : count < 256 ^ word) (hroom : count ≤ room) :
    (s.getBuf cc word elem room).1 = bs ∧ (s.getBuf cc word elem room).2.Has fs := by
  obtain ⟨hc, hrest⟩ := In.Has.get h Bytes.length_le
  obtain ⟨⟨hb, hfs⟩, hend⟩ := hrest
  simp only [align_one] at hb hfs
  change endPos (align 1 (s.get word).2.pos + bs.length) fs ≤ s.len at hend
  rw [align_one] at hend
  have hval : Bytes.toNat (s.get word).1 = count := by
    rw [hc, Bytes.toNat_le, Nat.mod_eq_of_lt hcount]
  have hfit : count * elem ≤ s.len - (s.get word).2.pos := by
    have := le_endPos fs ((s.get word).2.pos + bs.length)
    omega
  have hcopied : cc.copied (Bytes.toNat (s.get word).1) room ((s.len - (s.get word).2.pos) / elem) = count := by
    rw [hval]
    exact cc.whole _ _ _ hroom ((Nat.le_div_iff_mul_le helem).mpr hfit)
  have hread : s.mem.read (s.get word).2.pos (count * elem) = bs := by rw [← hlen]; exact hb
  refine ⟨?_, ?_, ?_⟩
  · simp only [In.getBuf, hcopied, hread]
  · simp only [In.getBuf, hcopied, ← hlen]
    exact hfs
  · simp only [In.getBuf, hcopied, ← hlen]
    exact hend

/-- What a reader copies is never longer than the target. -/
theorem In.length_getBuf_le {cc : CountedCopy} {word elem room : Nat} :
    (s.getBuf cc word elem room).1.length ≤ room * elem := by
  simp only [In.getBuf, Mem.length_read]
  exact Nat.mul_le_mul_right _ (cc.le_room _ _ _)

/-- Nor is it longer than what follows the count in the message. -/
theorem In.length_getBuf_le_carried {cc : CountedCopy} {word room : Nat} :
    (s.getBuf cc word 1 room).1.length ≤ s.len - (s.get word).2.pos := by
  simp only [In.getBuf, Mem.length_read, Nat.mul_one, Nat.div_one]
  exact cc.le_carried _ _ _

end Reading

end Marshal
