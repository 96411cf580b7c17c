/-
# Numbers as strings and back

`dm_str_toint` adds up the digits and puts the sign in front at the end.  Its arithmetic is that
of `int`, where a value out of range has no meaning (`intValue`).

From `dm_str_tostr` it reads every number again but the lowest one: the digits of that one are
above the highest `int` before the sign comes to them (`toint_tostr_iff`).
-/
import DmfServer.DmString

open CMem

/-- What the arithmetic of `int` gives; `none` is an overflow. -/
def intValue (x : ℤ) : Option ℤ := if -2 ^ 31 ≤ x ∧ x < 2 ^ 31 then some x else none

/-- `result * 10 + (s->str[i] - '0')`. -/
def pushDigit (result : ℤ) (c : UInt8) : Option ℤ := do
  let tens ← intValue (result * 10)
  intValue (tens + ((c.toNat : ℤ) - 48))

/-- The loop of `dm_str_toint`. -/
def tointLoop (s : DmString) (sign i result : ℤ) : Except Fault (Option ℤ) :=
  if i < s.len then do
    let c ← strAt s.str i
    if isDigit c then
      match pushDigit result c with
      | some result => tointLoop s sign (i + 1) result
      | none => .ok none
    else .ok (some 0)
  else .ok (intValue (sign * result))
termination_by (s.len - i).toNat
decreasing_by omega

/-- `dm_str_toint`; the answer is `none` when an operation leaves the range of `int`. -/
def dmStrToint (s : DmString) : Except Fault (Option ℤ) := do
  if (← strAt s.str 0) = Ascii.dash then tointLoop s (-1) 1 0 else tointLoop s 1 0 0

/-! ## The digits -/

theorem intValue_of_range {x : ℤ} (hlow : -2 ^ 31 ≤ x) (hhigh : x < 2 ^ 31) :
    intValue x = some x := if_pos ⟨hlow, hhigh⟩

theorem intValue_of_ge {x : ℤ} (h : 2 ^ 31 ≤ x) : intValue x = none :=
  if_neg fun hrange => absurd hrange.2 (not_lt.mpr h)

theorem isDigit_iff {c : UInt8} : isDigit c ↔ 48 ≤ c.toNat ∧ c.toNat ≤ 57 := by
  unfold isDigit
  rw [Bool.and_eq_true, decide_eq_true_iff, decide_eq_true_iff, UInt8.le_iff_toNat_le,
    UInt8.le_iff_toNat_le]
  rfl

/-- A digit more leaves the range when the number with it does. -/
theorem pushDigit_eq {result : ℤ} {c : UInt8} (h0 : 0 ≤ result) (hc : isDigit c) :
    pushDigit result c = intValue (result * 10 + ((c.toNat : ℤ) - 48)) := by
  obtain ⟨hlow, hhigh⟩ := isDigit_iff.mp hc
  unfold pushDigit
  by_cases hroom : result * 10 < 2 ^ 31
  · rw [intValue_of_range (by omega) hroom]
    rfl
  · rw [intValue_of_ge (by omega), intValue_of_ge (by omega)]
    rfl

theorem digitsValue_cons {acc : ℤ} {c : UInt8} {s : List UInt8} (hc : isDigit c) :
    digitsValue acc (c :: s) = digitsValue (acc * 10 + ((c.toNat : ℤ) - 48)) s := by
  rw [digitsValue, if_pos hc]

/-- The number does not get smaller from one digit to the next. -/
theorem le_digitsValue {acc : ℤ} (h0 : 0 ≤ acc) (s : List UInt8) : acc ≤ digitsValue acc s := by
  induction s generalizing acc with
  | nil => exact le_refl acc
  | cons c s ih =>
      by_cases hc : isDigit c
      · obtain ⟨hlow, -⟩ := isDigit_iff.mp hc
        have hmore : acc ≤ acc * 10 + ((c.toNat : ℤ) - 48) := by omega
        rw [digitsValue_cons hc]
        exact hmore.trans (ih (h0.trans hmore))
      · rw [digitsValue, if_neg hc]

/-- The last digit counts once, those before it ten times. -/
theorem digitsValue_concat {s : List UInt8} (hs : ∀ c ∈ s, isDigit c) {c : UInt8}
    (hc : isDigit c) (acc : ℤ) :
    digitsValue acc (s ++ [c]) = digitsValue acc s * 10 + ((c.toNat : ℤ) - 48) := by
  induction s generalizing acc with
  | nil => exact digitsValue_cons hc
  | cons b s ih =>
      have hb := hs b List.mem_cons_self
      rw [List.cons_append, digitsValue_cons hb, digitsValue_cons hb]
      exact ih (fun d hd => hs d (List.mem_cons_of_mem b hd)) _

/-! ## What `%d` writes -/

theorem toNat_digit : ∀ d < 10, isDigit (48 + UInt8.ofNat d) ∧
    (48 + UInt8.ofNat d).toNat = 48 + d := by decide

theorem isDigit_map {digits : List ℕ} (h : ∀ d ∈ digits, d < 10) :
    ∀ c ∈ digits.map (fun d => 48 + UInt8.ofNat d), isDigit c := by
  intro c hc
  obtain ⟨d, hd, rfl⟩ := List.mem_map.mp hc
  exact (toNat_digit d (h d hd)).1

/-- The digits of a number from the last one on, written the other way round. -/
theorem digitsValue_reverse {digits : List ℕ} (h : ∀ d ∈ digits, d < 10) :
    digitsValue 0 (digits.reverse.map fun d => 48 + UInt8.ofNat d)
      = (Nat.ofDigits 10 digits : ℕ) := by
  induction digits with
  | nil => rfl
  | cons d digits ih =>
      obtain ⟨hdigit, hvalue⟩ := toNat_digit d (h d List.mem_cons_self)
      have hrest : ∀ e ∈ digits, e < 10 := fun e he => h e (List.mem_cons_of_mem d he)
      have hfront := isDigit_map fun e he => hrest e (List.mem_reverse.mp he)
      rw [List.reverse_cons, List.map_append, List.map_singleton,
        digitsValue_concat hfront hdigit, ih hrest, hvalue, Nat.ofDigits_cons]
      push_cast
      ring

theorem decimal_spec (n : ℕ) :
    decimal n ≠ [] ∧ (∀ c ∈ decimal n, isDigit c) ∧ digitsValue 0 (decimal n) = n := by
  unfold decimal
  split
  · next hzero =>
    subst hzero
    exact ⟨by decide, by decide, by decide⟩
  · next hne =>
    have hlt : ∀ d ∈ Nat.digits 10 n, d < 10 := fun d hd => Nat.digits_lt_base (by decide) hd
    refine ⟨?_, isDigit_map fun d hd => hlt d (List.mem_reverse.mp hd), ?_⟩
    · rw [Ne, List.map_eq_nil_iff, List.reverse_eq_nil_iff]
      exact Nat.digits_ne_nil_iff_ne_zero.mpr hne
    · rw [digitsValue_reverse hlt, Nat.ofDigits_digits]

/-! ## The loop -/

section
variable {s : DmString} {text : List UInt8} (h : s.Holds text)
include h

/-- The loop over digits stops with the first overflow; the number of all of them has one then. -/
theorem DmString.Holds.tointLoop_eq (sign : ℤ) {digits : List UInt8}
    (hdigits : ∀ c ∈ digits, isDigit c) {i : ℕ} (hi : i ≤ text.length)
    (hdrop : text.drop i = digits) {result : ℤ} (h0 : 0 ≤ result) (hlt : result < 2 ^ 31) :
    tointLoop s sign i result
      = .ok ((intValue (digitsValue result digits)).bind fun n => intValue (sign * n)) := by
  induction digits generalizing i result with
  | nil =>
      have hlen := List.drop_eq_nil_iff.mp hdrop
      rw [tointLoop, h.len, if_neg (by omega), digitsValue, intValue_of_range (by omega) hlt]
      rfl
  | cons c digits ih =>
      have hc := hdigits c List.mem_cons_self
      have hget : text[i]? = some c := by
        rw [← List.head?_drop, hdrop]
        rfl
      have hin : i < text.length := (List.getElem?_eq_some_iff.mp hget).1
      have hat : strAt s.str (i : ℤ) = .ok c := h.strAt_eq (Int.natCast_nonneg i) hget
      obtain ⟨hlow, -⟩ := isDigit_iff.mp hc
      rw [tointLoop, h.len, if_pos (by omega), hat, ok_bind, if_pos hc, pushDigit_eq h0 hc,
        digitsValue_cons hc]
      by_cases hroom : result * 10 + ((c.toNat : ℤ) - 48) < 2 ^ 31
      · rw [intValue_of_range (by omega) hroom]
        have hrest : text.drop (i + 1) = digits := by
          rw [← List.tail_drop, hdrop]
          rfl
        exact ih (fun d hd => hdigits d (List.mem_cons_of_mem c hd)) hin hrest (by omega) hroom
      · have hnext : 0 ≤ result * 10 + ((c.toNat : ℤ) - 48) := by omega
        have hmore := le_digitsValue hnext digits
        rw [intValue_of_ge (by omega), intValue_of_ge (by omega)]
        rfl

/-- What `dm_str_toint` makes of the digits of a number. -/
theorem DmString.Holds.toint_decimal {num : ℤ} (htext : text = decimalInt num) :
    dmStrToint s = .ok (if num < 0 then (intValue (-num)).bind fun n => intValue (-1 * n)
      else intValue num) := by
  unfold decimalInt at htext
  unfold dmStrToint
  by_cases hneg : num < 0
  · rw [if_pos hneg] at htext
    obtain ⟨-, hdigits, hvalue⟩ := decimal_spec (-num).toNat
    have hat : strAt s.str 0 = .ok Ascii.dash := h.strAt_eq le_rfl (by rw [htext]; rfl)
    have hloop := h.tointLoop_eq (-1) hdigits (i := 1) (by rw [htext]; simp) (by rw [htext]; rfl)
      le_rfl (by decide)
    rw [hvalue, Int.toNat_of_nonneg (by omega)] at hloop
    rw [hat, ok_bind, if_pos rfl, if_pos hneg]
    exact hloop
  · rw [if_neg hneg] at htext
    obtain ⟨hne, hdigits, hvalue⟩ := decimal_spec num.toNat
    obtain ⟨c, rest, hcons⟩ := List.exists_cons_of_ne_nil hne
    have hat : strAt s.str 0 = .ok c := h.strAt_eq le_rfl (by rw [htext, hcons]; rfl)
    have hdash : c ≠ Ascii.dash := by
      rintro rfl
      exact absurd (hdigits Ascii.dash (by rw [hcons]; exact List.mem_cons_self)) (by decide)
    have hloop := h.tointLoop_eq 1 hdigits (i := 0) (Nat.zero_le _) htext le_rfl (by decide)
    rw [hvalue, Int.toNat_of_nonneg (by omega)] at hloop
    rw [hat, ok_bind, if_neg hdash, if_neg hneg]
    refine hloop.trans ?_
    by_cases hroom : num < 2 ^ 31
    · rw [intValue_of_range (by omega) hroom, Option.bind_some, one_mul,
        intValue_of_range (by omega) hroom]
    · rw [intValue_of_ge (by omega)]
      rfl

end

/-! ## There and back -/

/-- `dm_str_toint` reads what `dm_str_tostr` has written, without an overflow, but for the lowest
`int`. -/
theorem toint_tostr_iff (fresh : (n : ℕ) → Block n) {num : ℤ} (hlow : -2 ^ 31 ≤ num)
    (hhigh : num < 2 ^ 31) :
    (∃ s, dmStrTostr fresh num = .ok s ∧ dmStrToint s = .ok (some num)) ↔ num ≠ -2 ^ 31 := by
  obtain ⟨s, hrun, hholds⟩ := exists_dmStrTostr fresh hlow hhigh
  have hread := hholds.toint_decimal rfl
  constructor
  · rintro ⟨s', hrun', hback⟩ rfl
    obtain rfl : s = s' := Except.ok.inj (hrun.symm.trans hrun')
    rw [if_pos (by decide)] at hread
    exact absurd (hread.symm.trans hback) (by decide)
  · intro hne
    refine ⟨s, hrun, hread.trans ?_⟩
    by_cases hneg : num < 0
    · rw [if_pos hneg, intValue_of_range (by omega) (by omega), Option.bind_some,
        neg_mul_neg, one_mul, intValue_of_range hlow hhigh]
    · rw [if_neg hneg, intValue_of_range hlow hhigh]

theorem toint_tostr_iff_highest :
    (∃ s, dmStrTostr (fun n => Block.zero n) 2147483647 = .ok s ∧
      dmStrToint s = .ok (some 2147483647)) ↔ (2147483647 : ℤ) ≠ -2 ^ 31 :=
  toint_tostr_iff (fun n => Block.zero n) (by decide) (by decide)

/-- The lowest `int`. -/
theorem not_toint_tostr_lowest :
    ¬∃ s, dmStrTostr (fun n => Block.zero n) (-2147483648) = .ok s ∧
      dmStrToint s = .ok (some (-2147483648)) := by
  rintro ⟨s, hrun, hback⟩
  have hlow : (-2 ^ 31 : ℤ) ≤ -2147483648 := by decide
  obtain ⟨s', hrun', hholds⟩ := exists_dmStrTostr (fun n => Block.zero n) hlow (by decide)
  obtain rfl : s' = s := Except.ok.inj (hrun'.symm.trans hrun)
  have hread := hholds.toint_decimal rfl
  exact absurd (hread.symm.trans hback) (by decide)
