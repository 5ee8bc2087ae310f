import Mathlib.Data.List.GetD
import Mathlib.Data.UInt

/-! # Byte memory

A memory is a byte for every address. Reading and writing a range, the little-endian bytes of a number,
and strings that end with a zero byte. Everything here is about bytes alone. -/

/-- A memory that is addressed byte by byte. -/
abbrev Mem := Nat → UInt8

namespace Mem

/-- The `n` bytes from address `p` on. -/
def read (m : Mem) (p n : Nat) : List UInt8 := (List.range n).map fun i => m (p + i)

/-- The memory with `bs` stored from address `p` on. -/
def write (m : Mem) (p : Nat) (bs : List UInt8) : Mem := fun i =>
  if p ≤ i ∧ i < p + bs.length then bs.getD (i - p) 0 else m i

/-- Two memories hold the same bytes below address `n`. -/
def AgreeBelow (n : Nat) (m m' : Mem) : Prop := ∀ i < n, m i = m' i

section Ranges
variable {m m' : Mem} {p q n k : Nat} {bs : List UInt8}

@[simp] theorem length_read : (m.read p n).length = n := by simp [read]

@[simp] theorem read_zero : m.read p 0 = [] := rfl

theorem read_congr (h : ∀ i, p ≤ i → i < p + n → m i = m' i) : m.read p n = m'.read p n := by
  unfold read
  refine List.map_congr_left fun i hi => h (p + i) (by omega) ?_
  have := List.mem_range.mp hi
  omega

/-- A range, byte by byte. -/
theorem read_eq_iff : m.read p n = bs ↔ bs.length = n ∧ ∀ i < n, m (p + i) = bs.getD i 0 := by
  constructor
  · rintro rfl
    refine ⟨length_read, fun i hi => ?_⟩
    rw [List.getD_eq_getElem _ _ (by rwa [length_read])]
    simp [read]
  · rintro ⟨rfl, hall⟩
    refine List.ext_getElem length_read fun i _ hi => ?_
    rw [← List.getD_eq_getElem bs 0 hi, ← hall i hi]
    simp [read]

theorem AgreeBelow.read (h : AgreeBelow k m m') (hk : p + n ≤ k) : m.read p n = m'.read p n :=
  read_congr fun i _ hi => h i (by omega)

theorem write_below (h : k ≤ p) : AgreeBelow k (m.write p bs) m := fun i hi => by
  simp only [write]
  rw [if_neg (by omega)]

@[simp] theorem read_write : (m.write p bs).read p bs.length = bs := by
  refine List.ext_getElem (by simp) fun i hi hi' => ?_
  simp only [read, write, List.getElem_map, List.getElem_range, Nat.add_sub_cancel_left]
  rw [if_pos (by omega), List.getD_eq_getElem _ _ hi']

theorem read_write_below (h : q + n ≤ p) : (m.write p bs).read q n = m.read q n :=
  (write_below (Nat.le_refl p)).read h

@[simp] theorem write_nil : m.write p [] = m := by
  funext i
  simp only [write, List.length_nil]
  rw [if_neg (by omega)]

/-- A longer range is a shorter one followed by the rest. -/
theorem read_add : m.read p (n + k) = m.read p n ++ m.read (p + n) k := by
  simp only [read, List.range_add, List.map_append, List.map_map]
  congr 1
  refine List.map_congr_left fun i _ => ?_
  rw [Function.comp_apply, Nat.add_assoc]

theorem take_read (h : k ≤ n) : (m.read p n).take k = m.read p k := by
  obtain ⟨j, rfl⟩ := Nat.exists_eq_add_of_le h
  rw [read_add, List.take_left' length_read]

theorem drop_read (h : k ≤ n) : (m.read p n).drop k = m.read (p + k) (n - k) := by
  obtain ⟨j, rfl⟩ := Nat.exists_eq_add_of_le h
  rw [read_add, List.drop_left' length_read, Nat.add_sub_cancel_left]

theorem read_write_take (h : n ≤ bs.length) : (m.write p bs).read p n = bs.take n := by
  rw [← take_read h, read_write]

/-- Storing a part of what a range already holds changes nothing in that range. -/
theorem write_read_self (h : bs = m.read p bs.length) : m.write p bs = m := by
  funext i
  simp only [write]
  split
  · next hi =>
    have hlt : i - p < bs.length := by omega
    rw [List.getD_eq_getElem _ _ hlt]
    have hget : bs[i - p]? = (m.read p bs.length)[i - p]? := by rw [← h]
    rw [List.getElem?_eq_getElem hlt] at hget
    simp only [read, List.getElem?_map, List.getElem?_range hlt, Option.map_some, Option.some.injEq] at hget
    rw [hget]
    congr 1
    omega
  · rfl

/-- Where only the start of a range is stored, the range holds all of it if the memory held the rest before. -/
theorem read_write_take_eq : (m.write 0 (bs.take k)).read 0 bs.length = bs ↔ m.read k (bs.length - k) = bs.drop k := by
  have hsplit : (m.write 0 (bs.take k)).read 0 bs.length = bs.take k ++ m.read k (bs.length - k) := by
    rcases Nat.le_total k bs.length with hle | hle
    · have hlen : (bs.take k).length = k := List.length_take_of_le hle
      have hfirst : (m.write 0 (bs.take k)).read 0 (bs.take k).length = bs.take k := read_write
      rw [hlen] at hfirst
      have hrest : (m.write 0 (bs.take k)).read k (bs.length - k) = m.read k (bs.length - k) := by
        refine read_congr fun i hi _ => ?_
        rw [write, if_neg (by omega)]
      conv_lhs => rw [← Nat.add_sub_cancel' hle, read_add, hfirst, Nat.zero_add, hrest]
    · rw [List.take_of_length_le hle, read_write, Nat.sub_eq_zero_of_le hle, read_zero, List.append_nil]
  rw [hsplit]
  conv_lhs => rhs; rw [← List.take_append_drop k bs]
  exact List.append_right_inj _

end Ranges

/-! ### Strings that end with a zero byte -/

/-- The bytes from address `p` up to the first zero byte, at most `n` of them. -/
def cstr (m : Mem) : Nat → Nat → List UInt8
  | _, 0 => []
  | p, n + 1 => if m p = 0 then [] else m p :: cstr m (p + 1) n

section Strings
variable {m m' : Mem} {p n k : Nat} {s : List UInt8}

theorem length_cstr_le : ∀ {n p : Nat}, (m.cstr p n).length ≤ n
  | 0, _ => Nat.le_refl 0
  | n + 1, p => by
    simp only [cstr]
    split
    · exact Nat.zero_le _
    · simpa using length_cstr_le

/-- A zero byte ends a string. -/
theorem length_cstr_le_of_zero : ∀ {n p k : Nat}, m (p + k) = 0 → (m.cstr p n).length ≤ k
  | 0, _, _, _ => Nat.zero_le _
  | n + 1, p, 0, h => by simp [cstr, show m p = 0 from h]
  | n + 1, p, k + 1, h => by
    simp only [cstr]
    split
    · exact Nat.zero_le _
    · simpa using length_cstr_le_of_zero (p := p + 1) (k := k) (by rw [← h]; congr 1; omega)

theorem cstr_ne_nil (h : m p ≠ 0) (hn : 0 < n) : m.cstr p n ≠ [] := by
  obtain ⟨k, rfl⟩ := Nat.exists_eq_succ_of_ne_zero (Nat.pos_iff_ne_zero.mp hn)
  simp [cstr, h]

theorem zero_notMem_cstr : ∀ {n p : Nat}, (0 : UInt8) ∉ m.cstr p n
  | 0, _ => List.not_mem_nil
  | n + 1, p => by
    simp only [cstr]
    split
    · exact List.not_mem_nil
    · next h => simpa using ⟨fun h0 => h h0.symm, zero_notMem_cstr⟩

theorem cstr_congr : ∀ {n p : Nat}, (∀ i, p ≤ i → i < p + n → m i = m' i) → m.cstr p n = m'.cstr p n
  | 0, _, _ => rfl
  | n + 1, p, h => by
    have h0 : m p = m' p := h p (Nat.le_refl p) (by omega)
    simp only [cstr, h0]
    rw [cstr_congr fun i hi hi' => h i (by omega) (by omega)]

theorem AgreeBelow.cstr (h : AgreeBelow k m m') (hk : p + n ≤ k) : m.cstr p n = m'.cstr p n :=
  cstr_congr fun i _ hi => h i (by omega)

/-- A range that holds a string and its zero byte reads back as that string. -/
theorem cstr_of_read : ∀ {s : List UInt8} {p n : Nat}, m.read p (s.length + 1) = s ++ [0] → (0 : UInt8) ∉ s →
    s.length < n → m.cstr p n = s
  | [], p, n + 1, hr, _, _ => by
    have h0 : m p = 0 := by simpa [Mem.read] using hr
    simp [Mem.cstr, h0]
  | b :: s, p, n + 1, hr, hs, hn => by
    have hsplit : m.read p (s.length + 1 + 1) = [m p] ++ m.read (p + 1) (s.length + 1) := by
      rw [Nat.add_comm (s.length + 1) 1, read_add]
      simp [Mem.read]
    rw [List.length_cons, hsplit, List.cons_append, List.nil_append, List.cons_append, List.cons.injEq] at hr
    obtain ⟨hb, hrest⟩ := hr
    simp only [List.mem_cons, not_or] at hs
    simp only [Mem.cstr, hb]
    rw [if_neg fun h => hs.1 h.symm, cstr_of_read hrest hs.2 (by simpa using hn)]
  | _, _, 0, _, _, hn => absurd hn (Nat.not_lt_zero _)

/-- A string that ends before its bound is followed by a zero byte. -/
theorem read_of_length_cstr : ∀ {n p : Nat}, (m.cstr p n).length < n →
    m.read p ((m.cstr p n).length + 1) = m.cstr p n ++ [0]
  | n + 1, p, h => by
    simp only [cstr] at h ⊢
    split
    · next h0 => simp [Mem.read, h0]
    · next h0 =>
      rw [if_neg h0] at h
      have hsplit : m.read p ((m.cstr (p + 1) n).length + 1 + 1) =
          m p :: m.read (p + 1) ((m.cstr (p + 1) n).length + 1) := by
        rw [Nat.add_comm _ 1, read_add]
        simp [Mem.read]
      rw [List.length_cons, hsplit, read_of_length_cstr (by simpa using h), List.cons_append]

/-- A range without a zero byte goes on with what follows it. -/
theorem cstr_add (h : (0 : UInt8) ∉ m.read p k) : m.cstr p (k + n) = m.read p k ++ m.cstr (p + k) n := by
  induction k generalizing p with
  | zero => simp
  | succ k ih =>
    have hsplit : m.read p (k + 1) = m p :: m.read (p + 1) k := by
      rw [Nat.add_comm k 1, read_add]
      simp [Mem.read]
    rw [hsplit, List.mem_cons, not_or] at h
    rw [hsplit, Nat.add_right_comm k 1 n]
    simp only [Mem.cstr]
    rw [if_neg fun h0 => h.1 h0.symm, ih h.2, List.cons_append, Nat.add_right_comm p 1 k, Nat.add_assoc]

/-- A range with a zero byte settles the string that starts with it. -/
theorem cstr_eq_of_zero_mem : ∀ {n p k : Nat}, (0 : UInt8) ∈ m.read p k → k ≤ n → m.read p k = m'.read p k →
    m.cstr p n = m'.cstr p n
  | 0, _, k, h, hk, _ => by
    obtain rfl : k = 0 := by omega
    simp at h
  | n + 1, p, 0, h, _, _ => by simp at h
  | n + 1, p, k + 1, h, hk, heq => by
    have hsplit : ∀ m : Mem, m.read p (k + 1) = m p :: m.read (p + 1) k := fun m => by
      rw [Nat.add_comm k 1, read_add]
      simp [Mem.read]
    rw [hsplit m, hsplit m', List.cons.injEq] at heq
    rw [hsplit m, List.mem_cons] at h
    simp only [Mem.cstr, heq.1]
    split
    · rfl
    · next h0 =>
      rcases h with h | h
      · exact absurd (heq.1 ▸ h.symm) h0
      · rw [cstr_eq_of_zero_mem h (by omega) heq.2]

end Strings

end Mem

/-! ## Little-endian numbers -/

namespace Bytes

/-- The `n` low bytes of `x`, least significant first. -/
def le : Nat → Nat → List UInt8
  | 0, _ => []
  | n + 1, x => UInt8.ofNat x :: le n (x / 256)

/-- The number whose bytes are `bs`, least significant first. -/
def toNat : List UInt8 → Nat
  | [] => 0
  | b :: bs => b.toNat + 256 * toNat bs

@[simp] theorem length_le : ∀ {n x : Nat}, (le n x).length = n
  | 0, _ => rfl
  | n + 1, x => by simp [le, length_le]

theorem toNat_le : ∀ n x : Nat, toNat (le n x) = x % 256 ^ n
  | 0, x => by simp [le, toNat, Nat.mod_one]
  | n + 1, x => by
    have hb : (UInt8.ofNat x).toNat = x % 256 := by simp
    simp only [le, toNat, toNat_le n, hb]
    rw [Nat.pow_succ', Nat.mod_mul]

theorem le_toNat : ∀ bs : List UInt8, le bs.length (toNat bs) = bs
  | [] => rfl
  | b :: bs => by
    have hb : b.toNat < 256 := b.toNat_lt
    have hlow : UInt8.ofNat (b.toNat + 256 * toNat bs) = b := by
      apply UInt8.toNat_inj.mp
      rw [UInt8.toNat_ofNat']
      omega
    have hhigh : (b.toNat + 256 * toNat bs) / 256 = toNat bs := by omega
    rw [List.length_cons, toNat, le, hlow, hhigh, le_toNat bs]

theorem toNat_lt : ∀ bs : List UInt8, toNat bs < 256 ^ bs.length
  | [] => by simp [toNat]
  | b :: bs => by
    have hb : b.toNat < 256 := b.toNat_lt
    have ih := toNat_lt bs
    simp only [toNat, List.length_cons, Nat.pow_succ]
    omega

end Bytes

/-! ## Strings without a zero byte -/

/-- The bytes of a C string before its terminating zero. -/
structure CString where
  bytes : List UInt8
  nul_free : (0 : UInt8) ∉ bytes
deriving DecidableEq, Repr

namespace CString

/-- The number of bytes before the terminating zero. -/
def strlen (s : CString) : Nat := s.bytes.length

/-- The bytes with the terminating zero, as they lie in memory. -/
def c_str (s : CString) : List UInt8 := s.bytes ++ [0]

/-- The string that starts at address `p` of a buffer that ends `n` bytes later. -/
def ofMem (m : Mem) (p n : Nat) : CString := ⟨m.cstr p n, Mem.zero_notMem_cstr⟩

@[ext] theorem ext_bytes {s t : CString} (h : s.bytes = t.bytes) : s = t := by
  cases s
  cases t
  cases h
  rfl

@[simp] theorem length_c_str (s : CString) : s.c_str.length = s.strlen + 1 := by simp [c_str, strlen]

theorem ofMem_of_read {m : Mem} {p n : Nat} {s : CString} (h : m.read p (s.strlen + 1) = s.c_str) (hn : s.strlen < n) :
    ofMem m p n = s :=
  ext_bytes (Mem.cstr_of_read h s.nul_free hn)

/-- Where a string ends inside a bound, a larger bound gives the same. -/
theorem ofMem_of_strlen_lt {m : Mem} {p n k : Nat} (h : (ofMem m p n).strlen < n) (hk : n ≤ k) :
    ofMem m p k = ofMem m p n :=
  ofMem_of_read (Mem.read_of_length_cstr h) (by omega)

end CString
