/-
# The digits that `itoa` writes

The loop of `itoa` finds the digits of the number from the last one on, and the second loop turns
them round (`itoa_eq`).  That is the number in the radix (`IsNumeral`), but for 0, which has no
digits in the loop: its text is empty (`isNumeral_itoa_iff`).
-/
import DmfServer.Utility
import Mathlib.Data.Nat.Digits.Lemmas

open CMem

/-- The character of a digit up to 35. -/
def digitChar (d : ℕ) : UInt8 := UInt8.ofNat (if d < 10 then 48 + d else 87 + d)

/-- A text of digits of the radix, the highest first and no 0 in front of others, for a number. -/
structure Numeral (radix n : ℕ) (text : List UInt8) (digits : List ℕ) : Prop where
  text_eq : text = digits.map digitChar
  ne_nil : digits ≠ []
  lt : ∀ d ∈ digits, d < radix
  head : digits.head? = some 0 → digits = [0]
  value : Nat.ofDigits radix digits.reverse = n

/-- The text is the number, written in the radix. -/
def IsNumeral (radix n : ℕ) (text : List UInt8) : Prop :=
  ∃ digits, Numeral radix n text digits

theorem zm_eq : ∀ d < 36, zm.getD d 0 = digitChar d := by decide

section
variable {radix : ℕ} (hradix : 2 ≤ radix) (hle : radix ≤ 36)
include hradix hle

/-- The loop finds the digits from the last one on. -/
theorem itoaLoop_eq (fuel : ℕ) {sum : ℕ} (h : sum < radix ^ fuel) :
    itoaLoop radix fuel sum = (Nat.digits radix sum).map digitChar := by
  induction fuel generalizing sum with
  | zero =>
      rw [pow_zero, Nat.lt_one_iff] at h
      rw [h, Nat.digits_zero]
      rfl
  | succ fuel ih =>
      rw [itoaLoop]
      split
      · next hpos =>
        have hmod : sum % radix < radix := Nat.mod_lt _ (by omega)
        have hrest : sum / radix < radix ^ fuel :=
          Nat.div_lt_of_lt_mul (by rwa [pow_succ'] at h)
        rw [Nat.digits_def' hradix hpos, List.map_cons, ih hrest, zm_eq _ (hmod.trans_le hle)]
      · next hzero =>
        rw [Nat.eq_zero_of_not_pos hzero, Nat.digits_zero]
        rfl

/-- An `int` has less than 100 digits in any radix. -/
theorem itoa_eq {value : ℤ} (string : List UInt8) (h0 : 0 ≤ value) (hint : value < 2 ^ 31) :
    itoa value string radix = (Nat.digits radix value.toNat).reverse.map digitChar := by
  have hlt : value.toNat < radix ^ 100 := by
    calc value.toNat < 2 ^ 100 := by omega
      _ ≤ radix ^ 100 := Nat.pow_le_pow_left hradix 100
  rw [itoa, if_neg (by omega), if_neg (by omega), Int.toNat_natCast,
    itoaLoop_eq hradix hle 100 hlt, List.map_reverse]

end

/-- The digits of a number that is not 0, the other way round. -/
theorem numeral_digits {radix n : ℕ} (hradix : 2 ≤ radix) (hn : n ≠ 0) :
    Numeral radix n ((Nat.digits radix n).reverse.map digitChar) (Nat.digits radix n).reverse where
  text_eq := rfl
  ne_nil := by
    rw [Ne, List.reverse_eq_nil_iff]
    exact Nat.digits_ne_nil_iff_ne_zero.mpr hn
  lt d hd := Nat.digits_lt_base hradix (List.mem_reverse.mp hd)
  head h := by
    rw [List.head?_reverse] at h
    have hlast := Nat.getLast_digit_ne_zero radix hn
    rw [List.getLast?_eq_some_getLast (Nat.digits_ne_nil_iff_ne_zero.mpr hn)] at h
    exact absurd (Option.some.inj h) hlast
  value := by rw [List.reverse_reverse, Nat.ofDigits_digits]

/-- `itoa` writes every `int` from 1 on in every radix, and not 0. -/
theorem isNumeral_itoa_iff {value radix : ℤ} (string : List UInt8) (h0 : 0 ≤ value)
    (hint : value < 2 ^ 31) (hradix : 2 ≤ radix) (hle : radix ≤ 36) :
    IsNumeral radix.toNat value.toNat (itoa value string radix) ↔ value ≠ 0 := by
  have htwo : 2 ≤ radix.toNat := by omega
  have heq := itoa_eq htwo (by omega) string h0 hint
  rw [Int.toNat_of_nonneg (by omega)] at heq
  rw [heq]
  constructor
  · rintro ⟨digits, hdigits⟩ rfl
    have htext := hdigits.text_eq
    rw [Int.toNat_zero, Nat.digits_zero] at htext
    exact hdigits.ne_nil (List.map_eq_nil_iff.mp htext.symm)
  · intro hne
    exact ⟨_, numeral_digits htwo (by omega)⟩

theorem isNumeral_itoa_iff_year :
    IsNumeral (10 : ℤ).toNat (2023 : ℤ).toNat (itoa 2023 [] 10) ↔ (2023 : ℤ) ≠ 0 :=
  isNumeral_itoa_iff [] (by decide) (by decide) (by decide) (by decide)

/-- The minute of a full hour. -/
theorem not_isNumeral_itoa_zero :
    ¬IsNumeral (10 : ℤ).toNat (0 : ℤ).toNat (itoa 0 [] 10) := by
  rintro ⟨digits, hdigits⟩
  have htext : itoa 0 [] 10 = [] := by decide
  exact hdigits.ne_nil (List.map_eq_nil_iff.mp (hdigits.text_eq.symm.trans htext))
