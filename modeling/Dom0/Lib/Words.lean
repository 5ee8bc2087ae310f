import Dom0.Lib.Memory
import Mathlib.Data.BitVec

/-! # Words in a byte memory

A word is `n` bytes, least significant first. Words that lie one after the other, and words up to the first zero. -/

namespace Mem
variable {n : Nat}

/-- The word at address `p`. -/
def word (m : Mem) (n p : Nat) : BitVec (8 * n) := BitVec.ofNat _ (Bytes.toNat (m.read p n))

/-- The words `ws` lie one after the other from address `p` on. -/
def HoldsWords (m : Mem) : Nat → List (BitVec (8 * n)) → Prop
  | _, [] => True
  | p, v :: ws => m.word n p = v ∧ HoldsWords m (p + n) ws

instance decidableHoldsWords (m : Mem) : ∀ (p : Nat) (ws : List (BitVec (8 * n))), Decidable (m.HoldsWords p ws)
  | _, [] => isTrue trivial
  | p, _ :: ws =>
    have := decidableHoldsWords m (p + n) ws
    inferInstanceAs (Decidable (_ ∧ _))

/-- The words from address `p` up to the first zero, at most `k` of them. -/
def wordsTo0 (m : Mem) (n : Nat) : Nat → Nat → List (BitVec (8 * n))
  | 0, _ => []
  | k + 1, p => if m.word n p = 0 then [] else m.word n p :: wordsTo0 m n k (p + n)

variable {m m' : Mem} {p q k : Nat} {v : BitVec (8 * n)} {ws ws' : List (BitVec (8 * n))}

theorem word_congr (h : ∀ i, p ≤ i → i < p + n → m' i = m i) : m'.word n p = m.word n p := by
  rw [word, word, read_congr h]

@[simp] theorem word_write : (m.write p (Bytes.le n v.toNat)).word n p = v := by
  have hread : (m.write p (Bytes.le n v.toNat)).read p (Bytes.le n v.toNat).length = Bytes.le n v.toNat := read_write
  rw [Bytes.length_le] at hread
  have hpow : 256 ^ n = 2 ^ (8 * n) := by rw [Nat.pow_mul]
  rw [word, hread, Bytes.toNat_le, hpow, Nat.mod_eq_of_lt v.isLt, BitVec.ofNat_toNat, BitVec.setWidth_eq]

theorem HoldsWords.congr (h : m.HoldsWords p ws) (hsame : ∀ i, p ≤ i → i < p + n * ws.length → m' i = m i) :
    m'.HoldsWords p ws := by
  induction ws generalizing p with
  | nil => trivial
  | cons v ws ih =>
    rw [List.length_cons, Nat.mul_succ] at hsame
    exact ⟨(word_congr fun i hi hlt => hsame i hi (by omega)).trans h.1,
      ih h.2 fun i hi hlt => hsame i (by omega) (by omega)⟩

theorem holdsWords_append : m.HoldsWords p (ws ++ ws') ↔ m.HoldsWords p ws ∧ m.HoldsWords (p + n * ws.length) ws' := by
  induction ws generalizing p with
  | nil => simp [HoldsWords]
  | cons v ws ih =>
    rw [List.cons_append, HoldsWords, HoldsWords, ih, and_assoc, List.length_cons, Nat.mul_succ, Nat.add_assoc,
      Nat.add_comm n]

theorem HoldsWords.getElem (h : m.HoldsWords p ws) (hk : k < ws.length) : m.word n (p + n * k) = ws[k] := by
  induction ws generalizing p k with
  | nil => simp at hk
  | cons v ws ih =>
    cases k with
    | zero => exact h.1
    | succ k =>
      rw [List.getElem_cons_succ, ← ih h.2 (Nat.lt_of_succ_lt_succ hk), Nat.mul_succ, Nat.add_assoc, Nat.add_comm n]

/-- A word that is put in front. -/
theorem HoldsWords.push (h : m.HoldsWords p ws) (hp : n ≤ p) :
    (m.write (p - n) (Bytes.le n v.toNat)).HoldsWords (p - n) (v :: ws) := by
  refine ⟨word_write, ?_⟩
  rw [Nat.sub_add_cancel hp]
  refine h.congr fun i hi _ => ?_
  rw [Mem.write, Bytes.length_le, if_neg (by omega)]

/-- Words that end with a zero, and hold no other one. -/
theorem wordsTo0_of_holds {rest : List (BitVec (8 * n))} (h : m.HoldsWords p (ws ++ 0 :: rest)) (hws : 0 ∉ ws)
    (hk : ws.length < k) : m.wordsTo0 n k p = ws := by
  induction ws generalizing p k with
  | nil =>
    cases k with
    | zero => simp at hk
    | succ k => simp [wordsTo0, h.1]
  | cons v ws ih =>
    cases k with
    | zero => simp at hk
    | succ k =>
      rw [List.mem_cons, not_or] at hws
      have hne : m.word n p ≠ 0 := fun h0 => hws.1 (h0.symm.trans h.1)
      simp only [wordsTo0, if_neg hne]
      rw [h.1, ih h.2 hws.2 (Nat.lt_of_succ_lt_succ hk)]

end Mem

/-- Clearing the low bits of a number rounds it down. -/
theorem BitVec.toNat_and_shiftLeft_allOnes {n b : Nat} {x : BitVec n} :
    (x &&& (BitVec.allOnes n <<< b)).toNat = x.toNat / 2 ^ b * 2 ^ b := by
  have hshift : x &&& (BitVec.allOnes n <<< b) = (x >>> b) <<< b := by
    ext i hi
    simp only [BitVec.getElem_and, BitVec.getElem_shiftLeft, BitVec.getElem_allOnes, BitVec.getElem_ushiftRight]
    by_cases hib : i < b
    · simp [hib]
    · simp [hib, Nat.add_sub_cancel' (Nat.le_of_not_lt hib), BitVec.getLsbD_eq_getElem hi]
  have hle : x.toNat / 2 ^ b * 2 ^ b ≤ x.toNat := Nat.div_mul_le_self _ _
  rw [hshift, BitVec.toNat_shiftLeft, BitVec.toNat_ushiftRight, Nat.shiftRight_eq_div_pow, Nat.shiftLeft_eq,
    Nat.mod_eq_of_lt (Nat.lt_of_le_of_lt hle x.isLt)]
