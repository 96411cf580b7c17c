/-
# Hash values and table slots

`BKDRHash` is a polynomial of the characters in 131, which wraps round at 2 ^ 32 and loses its top
bit: the value of the polynomial over the integers, modulo 2 ^ 31 (`hashFunction_eq`).

`mdb_find` and `mdb_insert` reduce a hash from `MAX_ENTRIES` on, `ip_check_valid` one that is
greater than `MAX_IP_LIMIT_HANDLE`, so that it keeps the hash that is equal to it
(`slotsInside_iff`).
-/
import DmfServer.IpLimit
import DmfServer.MdbMemory

open CMem

/-- The polynomial of `BKDRHash` over the integers; a `char` is signed. -/
def textNumber (str : List UInt8) : ℤ := str.foldl (fun n c => n * 131 + c.toInt8.toInt) 0

/-- The index `ihash` of `mdb_find` and `mdb_insert`. -/
def mdbIndex (key : List UInt8) : ℕ :=
  if hashFunction key ≥ maxEntries then hashFunction key % maxEntries else hashFunction key

/-! ## The hash -/

/-- A character as an `unsigned int`. -/
theorem toNat_char (c : UInt8) :
    (c.toInt8.toInt32.toUInt32.toNat : ℤ) = c.toInt8.toInt % 2 ^ 32 := by
  have hint : c.toInt8.toInt32.toInt = (c.toInt8.toInt32.toUInt32.toNat : ℤ).bmod (2 ^ 32) :=
    BitVec.toInt_eq_toNat_bmod _
  have hlt := UInt32.toNat_lt c.toInt8.toInt32.toUInt32
  have hmod : (c.toInt8.toInt32.toUInt32.toNat : ℤ).bmod (2 ^ 32) % 2 ^ 32
      = (c.toInt8.toInt32.toUInt32.toNat : ℤ) % 2 ^ 32 := Int.bmod_emod
  rw [← Int8.toInt_toInt32, hint, hmod]
  exact (Int.emod_eq_of_lt (Int.natCast_nonneg _) (by exact_mod_cast hlt)).symm

/-- A round of the loop is one of the polynomial, modulo 2 ^ 32. -/
theorem toNat_round {hash : UInt32} {n : ℤ} (h : (hash.toNat : ℤ) = n % 2 ^ 32) (c : UInt8) :
    ((hash * 131 + c.toInt8.toInt32.toUInt32).toNat : ℤ)
      = (n * 131 + c.toInt8.toInt) % 2 ^ 32 := by
  rw [UInt32.toNat_add, UInt32.toNat_mul]
  push_cast
  rw [toNat_char, h]
  show (n % 2 ^ 32 * 131 % 2 ^ 32 + c.toInt8.toInt % 2 ^ 32) % 2 ^ 32 = _
  omega

theorem toNat_loop (str : List UInt8) :
    ((str.foldl (fun hash c => hash * 131 + c.toInt8.toInt32.toUInt32) (0 : UInt32)).toNat : ℤ)
      = textNumber str % 2 ^ 32 := by
  unfold textNumber
  induction str using List.reverseRecOn with
  | nil => rfl
  | append_singleton str c ih =>
      rw [List.foldl_concat, List.foldl_concat]
      exact toNat_round ih c

/-- The mask takes the top bit off. -/
theorem toNat_mask (hash : UInt32) : (hash &&& 0x7FFFFFFF).toNat = hash.toNat % 2 ^ 31 := by
  rw [UInt32.toNat_and]
  exact Nat.and_two_pow_sub_one_eq_mod hash.toNat 31

/-- `BKDRHash` is the polynomial modulo 2 ^ 31. -/
theorem hashFunction_eq (str : List UInt8) :
    (hashFunction str : ℤ) = textNumber str % 2 ^ 31 := by
  unfold hashFunction bkdrHash
  rw [toNat_mask]
  push_cast
  rw [toNat_loop]
  exact Int.emod_emod_of_dvd _ (by norm_num)

/-! ## The slots -/

/-- The slot of a key in the memory of the cache is at that index. -/
theorem mdbSlot_val (key : List UInt8) : (mdbSlot key : ℕ) = mdbIndex key := by
  unfold mdbSlot mdbIndex
  split
  · next hlt => rw [if_neg (Nat.not_le_of_lt hlt)]
  · next hge => rw [if_pos (Nat.le_of_not_lt hge)]

theorem mdbIndex_lt (key : List UInt8) : mdbIndex key < maxEntries := by
  rw [← mdbSlot_val]
  exact (mdbSlot key).isLt

/-- The slot of an IP is outside the table when the hash is the length of the table. -/
theorem ipHash_lt_iff (ip : List UInt8) :
    ipHash ip < maxIpLimitHandle ↔ hashFunction ip ≠ maxIpLimitHandle := by
  have hpos : 0 < maxIpLimitHandle := by decide
  unfold ipHash
  split
  · next hgt =>
    have hlt := Nat.mod_lt (hashFunction ip) hpos
    exact iff_of_true hlt (Nat.ne_of_gt hgt)
  · next hle =>
    exact Nat.lt_iff_le_and_ne.trans (and_iff_right (Nat.le_of_not_lt hle))

/-- A call of `ip_check_valid` with such a hash, and with no other, leaves the table. -/
theorem exists_ipCheckValid_iff (table : IpTable) {call : IpCall} (hview : call.view = true) :
    (∃ r, ipCheckValid table call = .ok r) ↔ hashFunction call.ip ≠ maxIpLimitHandle := by
  rw [← ipHash_lt_iff]
  constructor
  · rintro ⟨r, hr⟩
    by_contra hout
    rw [ipCheckValid_of_ge hview hout] at hr
    cases hr
  · intro hin
    exact ⟨_, ipCheckValid_of_lt hview hin⟩

/-- The slots of a string are inside the tables exactly when its polynomial is not 1024 modulo
2 ^ 31. -/
theorem slotsInside_iff (str : List UInt8) :
    (mdbIndex str < maxEntries ∧ ipHash str < maxIpLimitHandle) ↔
      textNumber str % 2 ^ 31 ≠ 1024 := by
  rw [and_iff_right (mdbIndex_lt str), ipHash_lt_iff, ← hashFunction_eq, Ne, Ne,
    show (1024 : ℤ) = ((maxIpLimitHandle : ℕ) : ℤ) from rfl, Nat.cast_inj]

/-- An IP whose slot is the one behind the table. -/
theorem not_slotsInside_address :
    ¬(mdbIndex (bytes "116.80.124.225") < maxEntries ∧
      ipHash (bytes "116.80.124.225") < maxIpLimitHandle) := by
  decide
