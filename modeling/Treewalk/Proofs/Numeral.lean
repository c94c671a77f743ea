/-
  Treewalk/Proofs/Numeral.lean
  ============================
  **Numerals and their values.**  The value of a run of digits is the number
  that it is the decimal notation of.  Reading a numeral drops the zeros in
  front and refuses what is too long before it converts anything; neither
  changes which numerals are accepted.
-/
import Mathlib.Algebra.Group.Nat.Defs
import Treewalk.Number

namespace Treewalk.Number

/-- The value of a run of digits of any length. -/
def decimal (digits : List Char) : Nat := Nat.ofDigitChars 10 digits 0

theorem decimal_cons (c : Char) (cs : List Char) :
    decimal (c :: cs) = 10 ^ cs.length * (c.toNat - '0'.toNat) + decimal cs := by
  rw [decimal, Nat.ofDigitChars_cons, Nat.ofDigitChars_eq_ofDigitChars_zero, Nat.mul_zero,
    Nat.zero_add]
  rfl

theorem decimal_significant (digits : List Char) :
    decimal (significant digits) = decimal digits := by
  have hdrop : decimal (digits.dropWhile (· == '0')) = decimal digits := by
    induction digits with
    | nil => rfl
    | cons c cs ih =>
      by_cases hc : c = '0'
      · subst hc
        rw [List.dropWhile_cons_of_pos (by rfl), ih, decimal_cons]
        simp
      · rw [List.dropWhile_cons_of_neg (by simpa using hc)]
  unfold significant
  split
  · next h =>
    rw [h] at hdrop
    exact hdrop
  · exact hdrop

/-- Digits without zeros in front have a value of their length. -/
theorem pow_le_decimal {c : Char} {cs : List Char} (hc : c.isDigit = true) (hne : c ≠ '0') :
    10 ^ cs.length ≤ decimal (c :: cs) := by
  have hpos : 1 ≤ c.toNat - '0'.toNat := by
    have hge : 48 ≤ c.toNat := (Char.isDigit_iff_toNat.mp hc).1
    have hzero : c.toNat ≠ 48 := fun h => hne (Char.toNat_inj.mp h)
    show 1 ≤ c.toNat - 48
    omega
  rw [decimal_cons]
  calc 10 ^ cs.length = 10 ^ cs.length * 1 := (Nat.mul_one _).symm
    _ ≤ 10 ^ cs.length * (c.toNat - '0'.toNat) := Nat.mul_le_mul_left _ hpos
    _ ≤ _ := Nat.le_add_right _ _

theorem digitLimit_eq : digitLimit = 19 := by
  decide

/-- More digits than the greatest number has do not start with a zero. -/
theorem significant_eq_cons {digits : List Char}
    (hlong : digitLimit < (significant digits).length) :
    ∃ c cs, significant digits = c :: cs ∧ c ∈ digits ∧ c ≠ '0' := by
  cases hrest : digits.dropWhile (· == '0') with
  | nil => simp [significant, hrest, digitLimit_eq] at hlong
  | cons c cs =>
    refine ⟨c, cs, by simp [significant, hrest], ?_, ?_⟩
    · have hsub := (List.dropWhile_sublist (fun x => x == '0') (l := digits)).subset
      exact hsub (by rw [hrest]; exact List.mem_cons_self)
    · have hhead := List.head?_dropWhile_not (fun x => x == '0') digits
      rw [hrest] at hhead
      simpa using hhead

/-- Digits that count and are longer than the greatest number are above it. -/
theorem greatest_lt_of_digitLimit_lt {digits : List Char} (hdigits : ∀ c ∈ digits, c.isDigit = true)
    (hlong : digitLimit < (significant digits).length) : greatest < decimal digits := by
  rw [← decimal_significant]
  obtain ⟨c, cs, hsig, hmem, hc⟩ := significant_eq_cons hlong
  rw [hsig] at hlong ⊢
  have hlength : 19 ≤ cs.length := by
    rw [digitLimit_eq, List.length_cons] at hlong
    omega
  have hpow : 10 ^ 19 ≤ 10 ^ cs.length := Nat.pow_le_pow_right (by omega) hlength
  have hle : 10 ^ cs.length ≤ decimal (c :: cs) := pow_le_decimal (hdigits c hmem) hc
  have hgreatest : greatest < (10 ^ 19 : Nat) := by decide
  omega

/-- A run of digits is accepted exactly when its value is at most the greatest number, and
    then for this value. -/
theorem ofNumeral?_eq_some_iff {digits : List Char} (hdigits : ∀ c ∈ digits, c.isDigit = true)
    (v : Int) : ofNumeral? digits = some v ↔ v = decimal digits ∧ v ≤ greatest := by
  unfold ofNumeral?
  split
  · next hshort =>
    have hvalue : valueOf (significant digits) hshort = decimal digits := by
      rw [← decimal_significant]
      rfl
    simp only [hvalue]
    split
    · next hle =>
      simp only [Option.some.injEq]
      constructor
      · rintro rfl
        exact ⟨rfl, hle⟩
      · rintro ⟨rfl, -⟩
        rfl
    · next hgt =>
      simp only [reduceCtorEq, false_iff, not_and]
      rintro rfl
      exact hgt
  · next hlong =>
    have habove := greatest_lt_of_digitLimit_lt hdigits (Nat.lt_of_not_le hlong)
    simp only [reduceCtorEq, false_iff, not_and]
    rintro rfl
    omega

end Treewalk.Number
