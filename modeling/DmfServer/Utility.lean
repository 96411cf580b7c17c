/-
# `itoa` and the date line

`itoa` writes the digits of a number, and nothing at all for 0; `server_time` puts the
local time together from such numbers.  What `localtime` returns is a `Tm`, with the
ranges of its fields; a year of five digits does not occur.
-/
import DmfServer.CMemory

open CMem

/-- The digits `itoa` writes with. -/
def zm : List UInt8 := bytes "0123456789abcdefghijklmnopqrstuvwxyz"

/-- The loop of `itoa` over `sum`, the digits in the order they are found; an `int` has
fewer than 100 of them. -/
def itoaLoop (radix : ℕ) : ℕ → ℕ → List UInt8
  | 0, _ => []
  | fuel + 1, sum =>
      if 0 < sum then zm.getD (sum % radix) 0 :: itoaLoop radix fuel (sum / radix) else []

/-- `itoa`, as the text it leaves in `string`. -/
def itoa (value : ℤ) (string : List UInt8) (radix : ℤ) : List UInt8 :=
  if radix < 2 ∨ 36 < radix then string
  else if value < 0 then string
  else (itoaLoop radix.toNat 100 value.toNat).reverse

/-- A number below a power of the radix has no more digits than the exponent. -/
theorem length_itoaLoop_le {radix k : ℕ} (fuel : ℕ) {sum : ℕ} (h : sum < radix ^ k) :
    (itoaLoop radix fuel sum).length ≤ k := by
  induction fuel generalizing k sum with
  | zero => exact Nat.zero_le k
  | succ fuel ih =>
      rw [itoaLoop]
      split
      · next hpos =>
        cases k with
        | zero =>
            rw [pow_zero] at h
            omega
        | succ k =>
            rw [List.length_cons]
            exact Nat.succ_le_succ (ih (Nat.div_lt_of_lt_mul (by rwa [pow_succ'] at h)))
      · exact Nat.zero_le k

theorem isText_itoaLoop {radix : ℕ} (hradix : 0 < radix) (hle : radix ≤ 36) (fuel sum : ℕ) :
    IsText (itoaLoop radix fuel sum) := by
  have hdigit : ∀ d < 36, zm.getD d 0 ≠ 0 := by decide
  induction fuel generalizing sum with
  | zero => simp [itoaLoop, IsText]
  | succ fuel ih =>
      rw [itoaLoop]
      split
      · intro hm
        rcases List.mem_cons.mp hm with h0 | hm
        · exact hdigit _ ((Nat.mod_lt _ hradix).trans_le hle) h0.symm
        · exact ih _ hm
      · simp [IsText]

/-- What is written of a number in decimal. -/
theorem isText_itoa (value : ℤ) : IsText (itoa value [] 10) := by
  rw [itoa, if_neg (by decide)]
  split
  · decide
  · exact fun hm => isText_itoaLoop (by decide) (by decide) _ _ (List.mem_reverse.mp hm)

theorem length_itoa_le {value : ℤ} {k : ℕ} (h : 0 ≤ value) (hlt : value < 10 ^ k) :
    (itoa value [] 10).length ≤ k := by
  rw [itoa, if_neg (by decide), if_neg (by omega), List.length_reverse]
  refine length_itoaLoop_le _ ?_
  show value.toNat < 10 ^ k
  zify
  rw [Int.toNat_of_nonneg h]
  exact_mod_cast hlt

/-! ## The local time -/

/-- `struct tm`, the fields `server_time` and `get_random_str` read. -/
structure Tm where
  tmYear : ℤ
  tmMon : ℤ
  tmMday : ℤ
  tmHour : ℤ
  tmMin : ℤ
  tmSec : ℤ
  year_range : 0 ≤ 1900 + tmYear ∧ 1900 + tmYear < 10 ^ 4
  mon_range : 0 ≤ tmMon ∧ tmMon < 12
  mday_range : 1 ≤ tmMday ∧ tmMday < 32
  hour_range : 0 ≤ tmHour ∧ tmHour < 24
  min_range : 0 ≤ tmMin ∧ tmMin < 60
  /-- 60 is a leap second. -/
  sec_range : 0 ≤ tmSec ∧ tmSec < 61

/-- `server_time`, appended to the empty string. -/
def serverTime (p : Tm) : List UInt8 :=
  itoa (1900 + p.tmYear) [] 10 ++ bytes "/" ++ itoa (1 + p.tmMon) [] 10 ++ bytes "/" ++
    itoa p.tmMday [] 10 ++ bytes " " ++ itoa p.tmHour [] 10 ++ bytes ":" ++
    itoa p.tmMin [] 10 ++ bytes ":" ++ itoa p.tmSec [] 10

theorem isText_serverTime (p : Tm) : IsText (serverTime p) := by
  have hslash : IsText (bytes "/") := by decide
  have hspace : IsText (bytes " ") := by decide
  have hcolon : IsText (bytes ":") := by decide
  simp only [serverTime, isText_append, isText_itoa, hslash, hspace, hcolon, and_self]

/-- The date has 19 characters at most. -/
theorem length_serverTime_le (p : Tm) : (serverTime p).length ≤ 19 := by
  have hyear : (itoa (1900 + p.tmYear) [] 10).length ≤ 4 :=
    length_itoa_le p.year_range.1 p.year_range.2
  have htwo : ∀ {v : ℤ}, 0 ≤ v → v < 100 → (itoa v [] 10).length ≤ 2 :=
    fun h hlt => length_itoa_le h (by omega)
  have hmon := htwo (v := 1 + p.tmMon) (by have := p.mon_range; omega)
    (by have := p.mon_range; omega)
  have hmday := htwo (v := p.tmMday) (by have := p.mday_range; omega)
    (by have := p.mday_range; omega)
  have hhour := htwo p.hour_range.1 (by have := p.hour_range; omega)
  have hmin := htwo p.min_range.1 (by have := p.min_range; omega)
  have hsec := htwo p.sec_range.1 (by have := p.sec_range; omega)
  have hone : (bytes "/").length = 1 ∧ (bytes " ").length = 1 ∧ (bytes ":").length = 1 := by
    decide
  simp only [serverTime, List.length_append]
  omega

/-- A date in 2023. -/
def summerDay : Tm where
  tmYear := 123
  tmMon := 6
  tmMday := 9
  tmHour := 12
  tmMin := 30
  tmSec := 5
  year_range := by decide
  mon_range := by decide
  mday_range := by decide
  hour_range := by decide
  min_range := by decide
  sec_range := by decide

example (p : Tm) (h : p.tmHour = 0) : itoa p.tmHour [] 10 = [] := by
  rw [h]
  decide
