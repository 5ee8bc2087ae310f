import Mathlib.Data.List.Basic

/-! # Words behind their lengths

Words are put one behind the other, each behind its length in decimal. If no word begins with a digit, they can be told
apart again. -/

namespace LengthPrefixed

def encode (words : List (List Char)) : List Char := words.flatMap fun p => Nat.toDigits 10 p.length ++ p

/-- A word that does not begin with a digit. -/
def Plain (p : List Char) : Prop := (p.head?.any fun c => !c.isDigit) = true

instance (p : List Char) : Decidable (Plain p) := inferInstanceAs (Decidable (_ = true))

variable {p q : List Char} {ps qs : List (List Char)} {last : Char}

theorem Plain.cons (h : Plain p) : ∃ c rest, p = c :: rest ∧ c.isDigit = false := by
  cases p with
  | nil => cases h
  | cons c rest => exact ⟨c, rest, rfl, (Bool.not_eq_true' _).mp h⟩

/-- A number ends where the digits end. -/
theorem takeWhile_toDigits_append (n : Nat) (h : Plain p) (rest : List Char) :
    (Nat.toDigits 10 n ++ (p ++ rest)).takeWhile Char.isDigit = Nat.toDigits 10 n := by
  obtain ⟨c, tail, rfl, hc⟩ := h.cons
  have hdigits : ∀ d ∈ Nat.toDigits 10 n, d.isDigit = true :=
    fun d hd => Nat.isDigit_of_mem_toDigits (by decide) (by decide) hd
  rw [List.takeWhile_append_of_pos hdigits, List.cons_append, List.takeWhile_cons_of_neg (Bool.eq_false_iff.mp hc),
    List.append_nil]

theorem encode_cons (p : List Char) (ps : List (List Char)) :
    encode (p :: ps) ++ [last] = Nat.toDigits 10 p.length ++ (p ++ (encode ps ++ [last])) := by
  rw [encode, List.flatMap_cons, List.append_assoc, List.append_assoc]
  rfl

theorem encode_cons_ne (p : List Char) (ps : List (List Char)) :
    encode (p :: ps) ++ [last] ≠ [last] := by
  intro h
  rw [encode_cons] at h
  have hlength := congrArg List.length h
  have hpos : 0 < (Nat.toDigits 10 p.length).length := Nat.length_toDigits_pos
  rw [List.length_append, List.length_append, List.length_append, List.length_singleton] at hlength
  omega

/-- Words that are encoded alike are the same. -/
theorem encode_injective (hps : ∀ p ∈ ps, Plain p) (hqs : ∀ q ∈ qs, Plain q)
    (h : encode ps ++ [last] = encode qs ++ [last]) : ps = qs := by
  induction ps generalizing qs with
  | nil =>
    cases qs with
    | nil => rfl
    | cons q qs => exact absurd h.symm (encode_cons_ne q qs)
  | cons p ps ih =>
    cases qs with
    | nil => exact absurd h (encode_cons_ne p ps)
    | cons q qs =>
      rw [encode_cons, encode_cons] at h
      have hdigits : Nat.toDigits 10 p.length = Nat.toDigits 10 q.length := by
        rw [← takeWhile_toDigits_append _ (hps p List.mem_cons_self), h,
          takeWhile_toDigits_append _ (hqs q List.mem_cons_self)]
      have hlength : p.length = q.length := by
        rw [← Nat.ofDigitChars_ten_toDigits (n := p.length), hdigits, Nat.ofDigitChars_ten_toDigits]
      rw [hdigits] at h
      obtain ⟨rfl, htail⟩ := List.append_inj (List.append_cancel_left h) hlength
      rw [ih (fun p' hp' => hps p' (List.mem_cons_of_mem p hp')) (fun q' hq' => hqs q' (List.mem_cons_of_mem p hq'))
        htail]

end LengthPrefixed
