/-
# Base64

The standard encoding takes three bytes as 24 bits and writes them as four digits of six bits;
behind the last whole three, zero bits are added to one or two bytes and the digits are filled
up to four with `=`.

`base64_encode` encodes three bytes at a time, the last ones together with what stands behind
the text, and then puts the `=` over the digits that are none.  `base64_decode` writes three
bytes for every four digits, the padding included, so that behind the text it writes over its
own terminator, and once over the byte behind it (`base64Decode_bounds`).  Both count with an
`int` up to a `long`.
-/
import DmfServer.CMemory

open CMem

/-! ## The standard encoding -/

namespace Base64

/-- The digits, by their values. -/
def alphabet : List UInt8 :=
  bytes "ABCDEFGHIJKLMNOPQRSTUVWXYZabcdefghijklmnopqrstuvwxyz0123456789+/"

/-- The digit of a value below 64. -/
def digit (n : ℕ) : UInt8 := alphabet.getD n 0

/-- `=`. -/
abbrev pad : UInt8 := 61

/-- The encoding of three bytes after the other, of the last two, and of the last. -/
def encode : List UInt8 → List UInt8
  | [] => []
  | [a] =>
      let bits := a.toNat * 16
      [digit (bits / 64), digit (bits % 64), pad, pad]
  | [a, b] =>
      let bits := (a.toNat * 256 + b.toNat) * 4
      [digit (bits / 4096), digit (bits / 64 % 64), digit (bits % 64), pad]
  | a :: b :: c :: rest =>
      let bits := a.toNat * 65536 + b.toNat * 256 + c.toNat
      digit (bits / 262144) :: digit (bits / 4096 % 64) :: digit (bits / 64 % 64) ::
        digit (bits % 64) :: encode rest

/-- Three bytes, or what is left of them, for every four digits. -/
def groups (n : ℕ) : ℕ := (n + 2) / 3

theorem groups_singleton (a : UInt8) : groups [a].length = 1 := by simp [groups]

theorem groups_pair (a b : UInt8) : groups [a, b].length = 1 := by simp [groups]

theorem groups_three (a b c : UInt8) (rest : List UInt8) :
    groups (a :: b :: c :: rest).length = groups rest.length + 1 := by
  unfold groups
  simp only [List.length_cons]
  omega

theorem digit_ne_pad : ∀ n < 64, digit n ≠ pad := by decide

theorem digit_ne_zero : ∀ n < 64, digit n ≠ 0 := by decide

section
variable (a b c : UInt8)

/-- The six bits of the four digits. -/
theorem bits_three :
    (a.toNat * 65536 + b.toNat * 256 + c.toNat) / 262144 = a.toNat / 4 ∧
    (a.toNat * 65536 + b.toNat * 256 + c.toNat) / 4096 % 64 = a.toNat % 4 * 16 + b.toNat / 16 ∧
    (a.toNat * 65536 + b.toNat * 256 + c.toNat) / 64 % 64 = b.toNat % 16 * 4 + c.toNat / 64 ∧
    (a.toNat * 65536 + b.toNat * 256 + c.toNat) % 64 = c.toNat % 64 := by
  have ha := a.toNat_lt
  have hb := b.toNat_lt
  have hc := c.toNat_lt
  refine ⟨?_, ?_, ?_, ?_⟩
  · omega
  · omega
  · omega
  · omega

end

theorem encode_three (a b c : UInt8) (rest : List UInt8) :
    encode (a :: b :: c :: rest) = digit (a.toNat / 4) :: digit (a.toNat % 4 * 16 + b.toNat / 16) ::
      digit (b.toNat % 16 * 4 + c.toNat / 64) :: digit (c.toNat % 64) :: encode rest := by
  obtain ⟨h₀, h₁, h₂, h₃⟩ := bits_three a b c
  rw [encode, h₀, h₁, h₂, h₃]

theorem encode_two (a b : UInt8) :
    encode [a, b] = [digit (a.toNat / 4), digit (a.toNat % 4 * 16 + b.toNat / 16),
      digit (b.toNat % 16 * 4), pad] := by
  have ha := a.toNat_lt
  have hb := b.toNat_lt
  have h₀ : (a.toNat * 256 + b.toNat) * 4 / 4096 = a.toNat / 4 := by omega
  have h₁ : (a.toNat * 256 + b.toNat) * 4 / 64 % 64 = a.toNat % 4 * 16 + b.toNat / 16 := by omega
  have h₂ : (a.toNat * 256 + b.toNat) * 4 % 64 = b.toNat % 16 * 4 := by omega
  rw [encode, h₀, h₁, h₂]

theorem encode_one (a : UInt8) :
    encode [a] = [digit (a.toNat / 4), digit (a.toNat % 4 * 16), pad, pad] := by
  have ha := a.toNat_lt
  have h₀ : a.toNat * 16 / 64 = a.toNat / 4 := by omega
  have h₁ : a.toNat * 16 % 64 = a.toNat % 4 * 16 := by omega
  rw [encode, h₀, h₁]

theorem length_encode (s : List UInt8) : (encode s).length = 4 * groups s.length := by
  induction s using encode.induct with
  | case1 => rfl
  | case2 a => rw [encode_one, groups_singleton]; rfl
  | case3 a b => rw [encode_two, groups_pair]; rfl
  | case4 a b c rest ih =>
      rw [encode_three, groups_three]
      simp only [List.length_cons, ih]
      omega

/-- How many `=` stand at the end. -/
def padding (n : ℕ) : ℕ := 2 - (n + 2) % 3

/-- The digits, with the padding behind them. -/
theorem exists_encode (s : List UInt8) : ∃ digits, encode s = digits ++ List.replicate
    (padding s.length) pad ∧ pad ∉ digits ∧ (0 : UInt8) ∉ digits := by
  unfold padding
  induction s using encode.induct with
  | case1 => exact ⟨[], rfl, List.not_mem_nil, List.not_mem_nil⟩
  | case2 a =>
      have ha := a.toNat_lt
      refine ⟨[digit (a.toNat / 4), digit (a.toNat % 4 * 16)],
        by simp [encode_one, List.replicate], ?_, ?_⟩
      · simp only [List.mem_cons, List.not_mem_nil, or_false, not_or]
        exact ⟨(digit_ne_pad _ (by omega)).symm, (digit_ne_pad _ (by omega)).symm⟩
      · simp only [List.mem_cons, List.not_mem_nil, or_false, not_or]
        exact ⟨(digit_ne_zero _ (by omega)).symm, (digit_ne_zero _ (by omega)).symm⟩
  | case3 a b =>
      have ha := a.toNat_lt
      have hb := b.toNat_lt
      refine ⟨[digit (a.toNat / 4), digit (a.toNat % 4 * 16 + b.toNat / 16),
        digit (b.toNat % 16 * 4)],
        by simp [encode_two], ?_, ?_⟩
      · simp only [List.mem_cons, List.not_mem_nil, or_false, not_or]
        exact ⟨(digit_ne_pad _ (by omega)).symm, (digit_ne_pad _ (by omega)).symm,
          (digit_ne_pad _ (by omega)).symm⟩
      · simp only [List.mem_cons, List.not_mem_nil, or_false, not_or]
        exact ⟨(digit_ne_zero _ (by omega)).symm, (digit_ne_zero _ (by omega)).symm,
          (digit_ne_zero _ (by omega)).symm⟩
  | case4 a b c rest ih =>
      have ha := a.toNat_lt
      have hb := b.toNat_lt
      have hc := c.toNat_lt
      obtain ⟨digits, heq, hpad, hzero⟩ := ih
      refine ⟨digit (a.toNat / 4) :: digit (a.toNat % 4 * 16 + b.toNat / 16) ::
        digit (b.toNat % 16 * 4 + c.toNat / 64) :: digit (c.toNat % 64) :: digits, ?_, ?_, ?_⟩
      · have hrest : (rest.length + 1 + 1 + 1 + 2) % 3 = (rest.length + 2) % 3 := by omega
        rw [encode_three, heq]
        simp only [List.length_cons, hrest, List.cons_append]
      · simp only [List.mem_cons, not_or]
        exact ⟨(digit_ne_pad _ (by omega)).symm, (digit_ne_pad _ (by omega)).symm,
          (digit_ne_pad _ (by omega)).symm, (digit_ne_pad _ (by omega)).symm, hpad⟩
      · simp only [List.mem_cons, not_or]
        exact ⟨(digit_ne_zero _ (by omega)).symm, (digit_ne_zero _ (by omega)).symm,
          (digit_ne_zero _ (by omega)).symm, (digit_ne_zero _ (by omega)).symm, hzero⟩

theorem isText_encode (s : List UInt8) : IsText (encode s) := by
  obtain ⟨digits, heq, -, hzero⟩ := exists_encode s
  rw [heq]
  exact isText_append.mpr ⟨hzero, fun h0 => absurd (List.eq_of_mem_replicate h0) (by decide)⟩

/-- The value of a digit. -/
def value (c : UInt8) : ℕ := alphabet.idxOf c

/-- What a text encodes. -/
def decode : List UInt8 → List UInt8
  | w :: x :: y :: z :: rest =>
      if y = pad then [UInt8.ofNat (value w * 4 + value x / 16)]
      else if z = pad then [UInt8.ofNat (value w * 4 + value x / 16),
        UInt8.ofNat (value x % 16 * 16 + value y / 4)]
      else UInt8.ofNat (value w * 4 + value x / 16) ::
        UInt8.ofNat (value x % 16 * 16 + value y / 4) ::
        UInt8.ofNat (value y % 4 * 64 + value z) :: decode rest
  | _ => []

theorem value_digit : ∀ n < 64, value (digit n) = n := by decide +kernel

/-- A byte put together from its bits. -/
theorem byte_eq {n : ℕ} {c : UInt8} (h : n % 256 = c.toNat) : UInt8.ofNat n = c := by
  rw [← UInt8.toNat_inj, UInt8.toNat_ofNat', ← h]

theorem byte_zero {n : ℕ} (h : n % 256 = 0) : UInt8.ofNat n = 0 := byte_eq h

theorem decode_encode (s : List UInt8) : decode (encode s) = s := by
  induction s using encode.induct with
  | case1 => rfl
  | case2 a =>
      have ha := a.toNat_lt
      rw [encode_one, decode, if_pos rfl, value_digit _ (by omega), value_digit _ (by omega),
        byte_eq (c := a) (by omega)]
  | case3 a b =>
      have ha := a.toNat_lt
      have hb := b.toNat_lt
      rw [encode_two, decode, if_neg (digit_ne_pad _ (by omega)), if_pos rfl,
        value_digit _ (by omega), value_digit _ (by omega), value_digit _ (by omega),
        byte_eq (c := a) (by omega), byte_eq (c := b) (by omega)]
  | case4 a b c rest ih =>
      have ha := a.toNat_lt
      have hb := b.toNat_lt
      have hc := c.toNat_lt
      rw [encode_three, decode, if_neg (digit_ne_pad _ (by omega)),
        if_neg (digit_ne_pad _ (by omega)), value_digit _ (by omega), value_digit _ (by omega),
        value_digit _ (by omega), value_digit _ (by omega), byte_eq (c := a) (by omega),
        byte_eq (c := b) (by omega), byte_eq (c := c) (by omega), ih]

/-- Two texts of one encoding are the same. -/
theorem encode_injective : Function.Injective encode :=
  Function.LeftInverse.injective decode_encode

end Base64

/-! ## The two functions -/

/-- `base64_table`. -/
def base64Table : List UInt8 :=
  bytes "ABCDEFGHIJKLMNOPQRSTUVWXYZabcdefghijklmnopqrstuvwxyz0123456789+/"

/-- `res[i]` to `res[i+3]`, of `str[j]` to `str[j+2]`. -/
def base64EncodeGroup (a b c : UInt8) : List UInt8 :=
  [base64Table.getD (a.toNat >>> 2) 0,
    base64Table.getD ((a.toNat &&& 0x3) <<< 4 ||| (b.toNat >>> 4)) 0,
    base64Table.getD ((b.toNat &&& 0xf) <<< 2 ||| (c.toNat >>> 6)) 0,
    base64Table.getD (c.toNat &&& 0x3f) 0]

/-- The loop of `base64_encode` over the memory from `str + j` on: what it writes, and `i`
behind it. -/
def base64EncodeLoop (len : ℤ) : List UInt8 → ℤ → Except Fault (List UInt8 × ℤ)
  | a :: b :: c :: str, i =>
      if i < len - 2 then
        if i < 0 then .error .write -- `i` is an `int`, and has come round
        else do
          let (res, i) ← base64EncodeLoop len str (toInt (i + 4))
          .ok (base64EncodeGroup a b c ++ res, i)
      else .ok ([], i)
  | _, i => if i < len - 2 then .error .read else .ok ([], i)

/-- `base64_encode` for the memory from `str` on: the text in `res`. -/
def base64Encode (str : List UInt8) : Except Fault (List UInt8) :=
  if (0 : UInt8) ∉ str then .error .read
  else do
    let strLen := (cstr str).length
    let len := if strLen % 3 = 0 then strLen / 3 * 4 else (strLen / 3 + 1) * 4
    let (res, i) ← base64EncodeLoop len str 0
    match strLen % 3 with
    | 1 => .ok ((res.set (i - 2).toNat 61).set (i - 1).toNat 61)
    | 2 => .ok (res.set (i - 1).toNat 61)
    | _ => .ok res

/-- `table`. -/
def base64Values : List ℕ :=
  [0, 0, 0, 0, 0, 0, 0, 0, 0, 0, 0, 0,
    0, 0, 0, 0, 0, 0, 0, 0, 0, 0, 0, 0,
    0, 0, 0, 0, 0, 0, 0, 0, 0, 0, 0, 0,
    0, 0, 0, 0, 0, 0, 0, 62, 0, 0, 0,
    63, 52, 53, 54, 55, 56, 57, 58,
    59, 60, 61, 0, 0, 0, 0, 0, 0, 0, 0,
    1, 2, 3, 4, 5, 6, 7, 8, 9, 10, 11, 12,
    13, 14, 15, 16, 17, 18, 19, 20, 21,
    22, 23, 24, 25, 0, 0, 0, 0, 0, 0, 26,
    27, 28, 29, 30, 31, 32, 33, 34, 35,
    36, 37, 38, 39, 40, 41, 42, 43, 44,
    45, 46, 47, 48, 49, 50, 51]

/-- `table[c]`. -/
def base64Value (c : UInt8) : Except Fault ℕ :=
  match base64Values[c.toNat]? with
  | some v => .ok v
  | none => .error .read

/-- What `base64_decode` does to `res`: `str_len`, and its writes in their order. -/
structure Base64Decoding where
  strLen : ℤ
  writes : List (ℤ × UInt8)
  deriving DecidableEq

/-- The loop of `base64_decode` over the memory from `code + i` on. -/
def base64DecodeLoop (len : ℤ) : List UInt8 → ℤ → ℤ → Except Fault (List (ℤ × UInt8))
  | a :: b :: c :: d :: code, i, j =>
      if i < len - 2 then
        if i < 0 then .error .read -- `i` is an `int`, and has come round
        else do
          let a ← base64Value a
          let b ← base64Value b
          let c ← base64Value c
          let d ← base64Value d
          let rest ← base64DecodeLoop len code (toInt (i + 4)) (toInt (j + 3))
          .ok ((j, UInt8.ofNat (a <<< 2 ||| b >>> 4)) ::
            (j + 1, UInt8.ofNat (b <<< 4 ||| c >>> 2)) ::
            (j + 2, UInt8.ofNat (c <<< 6 ||| d)) :: rest)
      else .ok []
  | _, i, _ => if i < len - 2 then .error .read else .ok []

/-- `base64_decode` for the memory from `code` on. -/
def base64Decode (code : List UInt8) : Except Fault Base64Decoding :=
  if (0 : UInt8) ∉ code then .error .read
  else do
    let text := cstr code
    let len := text.length
    let strLen : ℤ :=
      if (strstr text (bytes "==")).isSome then (len / 4 * 3 : ℕ) - 2
      else if (strstr text (bytes "=")).isSome then (len / 4 * 3 : ℕ) - 1
      else (len / 4 * 3 : ℕ)
    let writes ← base64DecodeLoop len code 0 0
    .ok { strLen := strLen, writes := (strLen, 0) :: writes }

/-- The memory from `res` on behind the writes, of what was there before. -/
def Base64Decoding.memory (d : Base64Decoding) (res : List UInt8) : List UInt8 :=
  d.writes.foldl (fun res w => if 0 ≤ w.1 then res.set w.1.toNat w.2 else res) res

/-! ## The encoder -/

open Base64

/-- A sum of bits that do not meet. -/
theorem or_shiftLeft {x y k : ℕ} (h : y < 2 ^ k) : x <<< k ||| y = x * 2 ^ k + y := by
  rw [← Nat.shiftLeft_add_eq_or_of_lt h, Nat.shiftLeft_eq]

theorem base64EncodeGroup_eq (a b c : UInt8) :
    base64EncodeGroup a b c = [digit (a.toNat / 4), digit (a.toNat % 4 * 16 + b.toNat / 16),
      digit (b.toNat % 16 * 4 + c.toNat / 64), digit (c.toNat % 64)] := by
  have hb := b.toNat_lt
  have hc := c.toNat_lt
  have htwo : a.toNat &&& 0x3 = a.toNat % 4 := Nat.and_two_pow_sub_one_eq_mod _ 2
  have hfour : b.toNat &&& 0xf = b.toNat % 16 := Nat.and_two_pow_sub_one_eq_mod _ 4
  have hsix : c.toNat &&& 0x3f = c.toNat % 64 := Nat.and_two_pow_sub_one_eq_mod _ 6
  unfold base64EncodeGroup
  rw [htwo, hfour, hsix, Nat.shiftRight_eq_div_pow, Nat.shiftRight_eq_div_pow,
    Nat.shiftRight_eq_div_pow, or_shiftLeft (by omega), or_shiftLeft (by omega)]
  rfl

/-- What the loop writes for a text with a NUL and `c₀` behind it. -/
def rawDigits (c₀ : UInt8) : List UInt8 → List UInt8
  | [] => []
  | [a] => base64EncodeGroup a 0 c₀
  | [a, b] => base64EncodeGroup a b 0
  | a :: b :: c :: rest => base64EncodeGroup a b c ++ rawDigits c₀ rest

theorem base64EncodeLoop_stop {len i : ℤ} (h : ¬i < len - 2) (str : List UInt8) :
    base64EncodeLoop len str i = .ok ([], i) := by
  unfold base64EncodeLoop
  split
  · rw [if_neg h]
  · rw [if_neg h]

theorem base64EncodeLoop_cons {len i : ℤ} (h : i < len - 2) (h0 : 0 ≤ i) (a b c : UInt8)
    (str : List UInt8) :
    base64EncodeLoop len (a :: b :: c :: str) i
      = (base64EncodeLoop len str (toInt (i + 4))).map fun p =>
        (base64EncodeGroup a b c ++ p.1, p.2) := by
  rw [base64EncodeLoop, if_pos h, if_neg (by omega)]
  cases base64EncodeLoop len str (toInt (i + 4)) <;> rfl

/-- The loop goes over the text in threes; the last group reads on behind it. -/
theorem base64EncodeLoop_eq {s after : List UInt8} (hafter : s.length % 3 = 1 → after ≠ [])
    {i : ℤ} (h0 : 0 ≤ i) (hi : i + 4 * groups s.length < 2 ^ 31) :
    base64EncodeLoop (i + 4 * groups s.length) (s ++ 0 :: after) i
      = .ok (rawDigits (after.headD 0) s, i + 4 * groups s.length) := by
  have hnext : ∀ {x : ℤ}, 0 ≤ x → x < 2 ^ 31 → toInt x = x := fun hx hlt =>
    toInt_of_range (by omega) hlt
  induction s using encode.induct generalizing i with
  | case1 =>
      rw [base64EncodeLoop_stop (by simp [groups])]
      simp [groups, rawDigits]
  | case2 a =>
      obtain ⟨c₀, after, rfl⟩ := List.exists_cons_of_ne_nil (hafter (by simp))
      rw [groups_singleton] at hi ⊢
      rw [List.singleton_append, base64EncodeLoop_cons (by omega) h0,
        hnext (by omega) (by omega), base64EncodeLoop_stop (by omega)]
      simp [rawDigits, Except.map]
  | case3 a b =>
      rw [groups_pair] at hi ⊢
      rw [List.cons_append, List.singleton_append, base64EncodeLoop_cons (by omega) h0,
        hnext (by omega) (by omega), base64EncodeLoop_stop (by omega)]
      simp [rawDigits, Except.map]
  | case4 a b c rest ih =>
      have hlen : i + 4 * ((groups rest.length + 1 : ℕ) : ℤ) = i + 4 + 4 * groups rest.length := by
        push_cast
        ring
      rw [groups_three, hlen] at hi ⊢
      have hrest := ih (fun h => hafter (by simp only [List.length_cons]; omega))
        (show 0 ≤ i + 4 by omega) hi
      simp only [List.cons_append]
      rw [base64EncodeLoop_cons (by omega) h0, hnext (by omega) (by omega), hrest]
      rfl

/-- With the padding in its place this is the standard encoding. -/
theorem rawDigits_padded (c₀ : UInt8) (s : List UInt8) :
    (s.length % 3 = 0 → rawDigits c₀ s = encode s) ∧
    (s.length % 3 = 1 → ((rawDigits c₀ s).set (4 * groups s.length - 2) pad).set
      (4 * groups s.length - 1) pad = encode s) ∧
    (s.length % 3 = 2 → (rawDigits c₀ s).set (4 * groups s.length - 1) pad = encode s) := by
  induction s using encode.induct with
  | case1 => exact ⟨fun _ => rfl, nofun, nofun⟩
  | case2 a =>
      refine ⟨nofun, fun _ => ?_, nofun⟩
      rw [rawDigits, base64EncodeGroup_eq, encode_one, groups_singleton]
      simp
  | case3 a b =>
      refine ⟨nofun, nofun, fun _ => ?_⟩
      rw [rawDigits, base64EncodeGroup_eq, encode_two, groups_pair]
      simp
  | case4 a b c rest ih =>
      obtain ⟨hzero, hone, htwo⟩ := ih
      have hmod : (a :: b :: c :: rest).length % 3 = rest.length % 3 := by
        simp only [List.length_cons]
        omega
      rw [groups_three, hmod, rawDigits, base64EncodeGroup_eq, encode_three]
      refine ⟨fun h => by rw [hzero h]; rfl, fun h => ?_, fun h => ?_⟩
      · have hpos : 4 * (groups rest.length + 1) - 2 = 4 * groups rest.length - 2 + 4 := by
          unfold groups
          omega
        have hlast : 4 * (groups rest.length + 1) - 1 = 4 * groups rest.length - 1 + 4 := by
          unfold groups
          omega
        rw [hpos, hlast, ← hone h]
        rfl
      · have hlast : 4 * (groups rest.length + 1) - 1 = 4 * groups rest.length - 1 + 4 := by
          unfold groups
          omega
        rw [hlast, ← htwo h]
        rfl

/-- `len`. -/
theorem base64_len (n : ℕ) : (if n % 3 = 0 then n / 3 * 4 else (n / 3 + 1) * 4) = 4 * groups n := by
  unfold groups
  split_ifs with h
  · omega
  · omega

/-- A text is encoded as it should be, whatever follows its NUL, as long as an `int` can count
the digits. -/
theorem base64Encode_eq {s : List UInt8} (hs : IsText s) {after : List UInt8}
    (hafter : s.length % 3 = 1 → after ≠ []) (hlen : 4 * groups s.length < 2 ^ 31) :
    base64Encode (s ++ 0 :: after) = .ok (encode s) := by
  have hloop := base64EncodeLoop_eq hafter (i := 0) le_rfl (by omega)
  rw [zero_add] at hloop
  obtain ⟨hzero, hone, htwo⟩ := rawDigits_padded (after.headD 0) s
  have hback : ∀ k : ℕ, ((4 * groups s.length : ℤ) - k).toNat = 4 * groups s.length - k := by
    intro k
    omega
  unfold base64Encode
  rw [if_neg (by simp), cstr_append_zero hs]
  simp only [base64_len]
  push_cast
  rw [hloop, ok_bind]
  have hcases : s.length % 3 = 0 ∨ s.length % 3 = 1 ∨ s.length % 3 = 2 := by omega
  rcases hcases with h | h | h
  · rw [h, hzero h]
    rfl
  · have hsecond := hback 2
    have hfirst := hback 1
    push_cast at hsecond hfirst
    rw [h, ← hone h]
    simp only [hsecond, hfirst]
  · have hfirst := hback 1
    push_cast at hfirst
    rw [h, ← htwo h]
    simp only [hfirst]

/-- Where `i` has come round, the next group is written in front of the text. -/
theorem base64EncodeLoop_round {len j : ℤ} (hlen : 2 ≤ len) (hj : j < 0) (str : List UInt8) :
    ∃ e, base64EncodeLoop len str j = .error e := by
  unfold base64EncodeLoop
  split
  · rw [if_pos (by omega), if_pos hj]
    exact ⟨_, rfl⟩
  · rw [if_pos (by omega)]
    exact ⟨_, rfl⟩

/-- The loop faults where an `int` cannot count the digits, or one byte is left and nothing
follows its NUL. -/
theorem base64EncodeLoop_error {s : List UInt8} (after : List UInt8) {i len : ℤ} (h0 : 0 ≤ i)
    (h4 : i % 4 = 0) (hlt : i < 2 ^ 31) (hlen : i + 4 * groups s.length = len)
    (h : 2 ^ 31 ≤ len ∨ (s.length % 3 = 1 ∧ after = [])) :
    ∃ e, base64EncodeLoop len (s ++ 0 :: after) i = .error e := by
  have hnext : ∀ (x : ℤ) (str : List UInt8), x = 2 ^ 31 → 2 ≤ len →
      ∃ e, base64EncodeLoop len str (toInt x) = .error e := by
    rintro x str rfl hlen
    exact base64EncodeLoop_round hlen (by decide) str
  induction s using encode.induct generalizing i with
  | case1 =>
      simp only [groups, List.length_nil] at hlen h
      omega
  | case2 a =>
      rw [groups_singleton] at hlen
      cases after with
      | nil =>
          rw [List.singleton_append, base64EncodeLoop, if_pos (by omega)]
          · exact ⟨_, rfl⟩
          · simp
      | cons c₀ after =>
          have hfull : 2 ^ 31 ≤ len := h.resolve_right (by simp)
          obtain ⟨e, he⟩ := hnext (i + 4) after (by omega) (by omega)
          rw [List.singleton_append, base64EncodeLoop_cons (by omega) h0, he]
          exact ⟨e, rfl⟩
  | case3 a b =>
      rw [groups_pair] at hlen
      have hfull : 2 ^ 31 ≤ len := h.resolve_right (by simp)
      obtain ⟨e, he⟩ := hnext (i + 4) after (by omega) (by omega)
      rw [List.cons_append, List.singleton_append, base64EncodeLoop_cons (by omega) h0, he]
      exact ⟨e, rfl⟩
  | case4 a b c rest ih =>
      have hmod : (a :: b :: c :: rest).length % 3 = rest.length % 3 := by
        simp only [List.length_cons]
        omega
      have hpos : 2 ^ 31 ≤ len ∨ 1 ≤ groups rest.length := by
        refine h.imp id fun hone => ?_
        rw [hmod] at hone
        unfold groups
        omega
      rw [groups_three] at hlen
      rw [hmod] at h
      push_cast at hlen
      simp only [List.cons_append]
      rw [base64EncodeLoop_cons (by omega) h0]
      by_cases hi : i + 4 < 2 ^ 31
      · rw [toInt_of_range (by omega) hi]
        obtain ⟨e, he⟩ := ih (i := i + 4) (by omega) (by omega) hi (by omega) h
        rw [he]
        exact ⟨e, rfl⟩
      · obtain ⟨e, he⟩ := hnext (i + 4) (rest ++ 0 :: after) (by omega) (by omega)
        rw [he]
        exact ⟨e, rfl⟩

/-- Such a text is not encoded. -/
theorem base64Encode_error {s : List UInt8} (hs : IsText s) (after : List UInt8)
    (h : 2 ^ 31 ≤ 4 * groups s.length ∨ (s.length % 3 = 1 ∧ after = [])) :
    ∃ e, base64Encode (s ++ 0 :: after) = .error e := by
  have hlen : (0 : ℤ) + 4 * groups s.length = (4 * groups s.length : ℕ) := by
    push_cast
    ring
  obtain ⟨e, he⟩ := base64EncodeLoop_error (s := s) after le_rfl rfl (by norm_num) hlen
    (h.imp (fun hlong => by exact_mod_cast hlong) id)
  refine ⟨e, ?_⟩
  unfold base64Encode
  rw [if_neg (by simp), cstr_append_zero hs]
  simp only [base64_len]
  rw [he]
  rfl

/-- What is encoded is the text up to the first NUL. -/
theorem base64Encode_ok {str text : List UInt8} (h : base64Encode str = .ok text) :
    ∃ s after, IsText s ∧ str = s ++ 0 :: after ∧ text = encode s ∧
      4 * groups s.length < 2 ^ 31 := by
  by_cases hnul : (0 : UInt8) ∈ str
  · obtain ⟨after, hstr⟩ := exists_eq_cstr_append hnul
    have hs : IsText (cstr str) := isText_cstr str
    generalize cstr str = s at hstr hs
    subst hstr
    by_cases hbad : 2 ^ 31 ≤ 4 * groups s.length ∨ (s.length % 3 = 1 ∧ after = [])
    · obtain ⟨e, he⟩ := base64Encode_error hs after hbad
      rw [he] at h
      cases h
    · rw [not_or, not_and] at hbad
      rw [base64Encode_eq hs hbad.2 (Nat.not_le.mp hbad.1)] at h
      exact ⟨s, after, hs, rfl, (Except.ok.inj h).symm, Nat.not_le.mp hbad.1⟩
  · unfold base64Encode at h
    rw [if_pos hnul] at h
    cases h

/-! ## The decoder -/

theorem base64Value_digit : ∀ n < 64, base64Value (digit n) = .ok n := by decide +kernel

theorem base64Values_lt : ∀ v ∈ base64Values, v < 64 := by decide +kernel

/-- The table ends behind `z`. -/
theorem base64Value_cases (c : UInt8) :
    (c.toNat < 123 ∧ ∃ v < 64, base64Value c = .ok v) ∨
    (123 ≤ c.toNat ∧ base64Value c = .error .read) := by
  have hlen : base64Values.length = 123 := rfl
  unfold base64Value
  by_cases hc : c.toNat < 123
  · have hget := List.getElem?_eq_getElem (l := base64Values) (i := c.toNat) (by omega)
    rw [hget]
    exact Or.inl ⟨hc, _, base64Values_lt _ (List.getElem_mem _), rfl⟩
  · rw [List.getElem?_eq_none (by omega)]
    exact Or.inr ⟨by omega, rfl⟩

theorem base64DecodeLoop_stop {len i : ℤ} (h : ¬i < len - 2) (code : List UInt8) (j : ℤ) :
    base64DecodeLoop len code i j = .ok [] := by
  unfold base64DecodeLoop
  split
  · rw [if_neg h]
  · rw [if_neg h]

/-- Four digits are three bytes. -/
theorem base64DecodeLoop_cons {len i j : ℤ} (h : i < len - 2) (h0 : 0 ≤ i) {a b c d : UInt8}
    {w x y z : ℕ} (hw : base64Value a = .ok w) (hx : base64Value b = .ok x)
    (hy : base64Value c = .ok y) (hz : base64Value d = .ok z) (hxlt : x < 64) (hylt : y < 64)
    (hzlt : z < 64) (code : List UInt8) :
    base64DecodeLoop len (a :: b :: c :: d :: code) i j
      = (base64DecodeLoop len code (toInt (i + 4)) (toInt (j + 3))).map fun rest =>
        (j, UInt8.ofNat (w * 4 + x / 16)) :: (j + 1, UInt8.ofNat (x * 16 + y / 4)) ::
          (j + 2, UInt8.ofNat (y * 64 + z)) :: rest := by
  rw [base64DecodeLoop, if_pos h, if_neg (by omega), hw, hx, hy, hz]
  simp only [ok_bind]
  rw [Nat.shiftRight_eq_div_pow, Nat.shiftRight_eq_div_pow, or_shiftLeft (by omega),
    or_shiftLeft (by omega), or_shiftLeft (by omega)]
  cases base64DecodeLoop len code (toInt (i + 4)) (toInt (j + 3)) <;> rfl

/-- Writes one behind the other. -/
def indexed (j : ℤ) : List UInt8 → List (ℤ × UInt8)
  | [] => []
  | c :: text => (j, c) :: indexed (j + 1) text

/-- The bytes of the text are written, and a zero for every `=`. -/
theorem base64DecodeLoop_eq (s after : List UInt8) {i j : ℤ} (h0 : 0 ≤ i)
    (hi : i + 4 * groups s.length < 2 ^ 31) (hj0 : 0 ≤ j) (hji : j ≤ i) :
    base64DecodeLoop (i + 4 * groups s.length) (encode s ++ after) i j
      = .ok (indexed j (s ++ List.replicate (padding s.length) 0)) := by
  have hpad : base64Value pad = .ok 0 := rfl
  induction s using encode.induct generalizing i j with
  | case1 =>
      rw [base64DecodeLoop_stop (by simp [groups])]
      rfl
  | case2 a =>
      have ha := a.toNat_lt
      rw [groups_singleton] at hi ⊢
      rw [encode_one]
      simp only [List.cons_append]
      rw [base64DecodeLoop_cons (by omega) h0 (base64Value_digit _ (by omega))
        (base64Value_digit _ (by omega)) hpad hpad (by omega) (by omega) (by omega),
        toInt_of_range (by omega) (by omega), base64DecodeLoop_stop (by omega),
        byte_eq (c := a) (by omega), byte_zero (by omega), byte_zero (by omega)]
      simp [Except.map, indexed, padding, List.replicate, add_assoc]
  | case3 a b =>
      have ha := a.toNat_lt
      have hb := b.toNat_lt
      rw [groups_pair] at hi ⊢
      rw [encode_two]
      simp only [List.cons_append]
      rw [base64DecodeLoop_cons (by omega) h0 (base64Value_digit _ (by omega))
        (base64Value_digit _ (by omega)) (base64Value_digit _ (by omega)) hpad (by omega)
        (by omega) (by omega), toInt_of_range (by omega) (by omega),
        base64DecodeLoop_stop (by omega), byte_eq (c := a) (by omega),
        byte_eq (c := b) (by omega), byte_zero (by omega)]
      simp [Except.map, indexed, padding, add_assoc]
  | case4 a b c rest ih =>
      have ha := a.toNat_lt
      have hb := b.toNat_lt
      have hc := c.toNat_lt
      have hlen : i + 4 * ((groups rest.length + 1 : ℕ) : ℤ) = i + 4 + 4 * groups rest.length := by
        push_cast
        ring
      have hpadding : padding (a :: b :: c :: rest).length = padding rest.length := by
        unfold padding
        simp only [List.length_cons]
        omega
      rw [groups_three, hlen] at hi ⊢
      have hrest := ih (i := i + 4) (j := j + 3) (by omega) hi (by omega) (by omega)
      rw [encode_three, hpadding]
      simp only [List.cons_append]
      rw [base64DecodeLoop_cons (by omega) h0 (base64Value_digit _ (by omega))
        (base64Value_digit _ (by omega)) (base64Value_digit _ (by omega))
        (base64Value_digit _ (by omega)) (by omega) (by omega) (by omega),
        toInt_of_range (by omega) (by omega), toInt_of_range (by omega) (by omega), hrest,
        byte_eq (c := a) (by omega), byte_eq (c := b) (by omega), byte_eq (c := c) (by omega)]
      simp [Except.map, indexed, add_assoc]

/-! ## What is left of the text -/

theorem padding_cases (n : ℕ) : (n % 3 = 0 ∧ padding n = 0) ∨ (n % 3 = 1 ∧ padding n = 2) ∨
    (n % 3 = 2 ∧ padding n = 1) := by
  unfold padding
  omega

/-- The `=` at the end tell how long the text is. -/
theorem strLen_encode (s : List UInt8) :
    (if (strstr (encode s) (bytes "==")).isSome then
        (((encode s).length / 4 * 3 : ℕ) : ℤ) - 2
      else if (strstr (encode s) (bytes "=")).isSome then
        (((encode s).length / 4 * 3 : ℕ) : ℤ) - 1
      else (((encode s).length / 4 * 3 : ℕ) : ℤ)) = s.length := by
  obtain ⟨digits, heq, hpad, -⟩ := exists_encode s
  have hgroups : (encode s).length / 4 * 3 = 3 * groups s.length := by
    rw [length_encode]
    omega
  rw [hgroups, heq]
  unfold groups
  rcases padding_cases s.length with ⟨hmod, hpadding⟩ | ⟨hmod, hpadding⟩ | ⟨hmod, hpadding⟩
  · rw [hpadding, List.replicate_zero, List.append_nil]
    have hone : strstr digits (bytes "=") = none := strstr_singleton_eq_none hpad
    have htwo : strstr digits (bytes "==") = none := by
      cases hfind : strstr digits (bytes "==") with
      | none => rfl
      | some rest =>
          obtain ⟨text, rfl, hfirst⟩ := (strstr_eq_some_iff (by decide)).mp hfind
          exact absurd (List.mem_append_right text (hfirst.here.subset List.mem_cons_self)) hpad
    rw [htwo, hone, if_neg (by decide), if_neg (by decide)]
    omega
  · rw [hpadding]
    obtain ⟨front, rest, hfind, -⟩ :=
      exists_strstr (show bytes "==" ≠ [] by decide) digits []
    rw [List.append_nil] at hfind
    rw [show List.replicate 2 pad = bytes "==" from rfl, hfind]
    simp only [Option.isSome_some, if_true]
    omega
  · rw [hpadding]
    have hone : strstr (digits ++ [pad]) (bytes "=") = some [pad] := strstr_singleton hpad []
    have htwo : strstr (digits ++ [pad]) (bytes "==") = none := by
      cases hfind : strstr (digits ++ [pad]) (bytes "==") with
      | none => rfl
      | some rest =>
          -- the first of the two would be one of the digits
          obtain ⟨text, hsplit, hfirst⟩ := (strstr_eq_some_iff (by decide)).mp hfind
          obtain ⟨behind, rfl⟩ := hfirst.here
          have hlen := congrArg List.length hsplit
          have htwo : (bytes "==").length = 2 := rfl
          simp only [List.length_append, List.length_singleton, htwo] at hlen
          have hget := congrArg (fun l : List UInt8 => l[text.length]?) hsplit
          rw [List.getElem?_append_left (by omega), List.getElem?_append_right le_rfl,
            Nat.sub_self] at hget
          exact absurd (List.mem_of_getElem? hget) hpad
    rw [show List.replicate 1 pad = [pad] from rfl, htwo, hone, if_neg (by decide)]
    simp only [Option.isSome_some, if_true]
    omega

/-- The bytes the decoder writes for the encoding of a text. -/
def decodedBytes (s : List UInt8) : List UInt8 := s ++ List.replicate (padding s.length) 0

/-- The decoder on the encoding of a text: the terminator first, and then the bytes. -/
theorem base64Decode_encode (s : List UInt8) (h : 4 * groups s.length < 2 ^ 31) :
    base64Decode (encode s ++ [0])
      = .ok ⟨s.length, (s.length, 0) :: indexed 0 (decodedBytes s)⟩ := by
  have hloop := base64DecodeLoop_eq s [0] (i := 0) (j := 0) le_rfl (by omega) le_rfl le_rfl
  rw [zero_add] at hloop
  have hlen : ((encode s).length : ℤ) = 4 * groups s.length := by
    rw [length_encode]
    push_cast
    rfl
  unfold base64Decode
  rw [if_neg (by simp), cstr_append_zero (isText_encode s)]
  simp only [strLen_encode, hlen]
  rw [hloop]
  rfl

/-- Writes one behind the other leave the text where they begin. -/
theorem getElem?_foldl_indexed (text : List UInt8) (j : ℕ) (res : List UInt8) (k : ℕ) :
    ((indexed j text).foldl (fun res w => if 0 ≤ w.1 then res.set w.1.toNat w.2 else res) res)[k]?
      = if j ≤ k ∧ k < j + text.length ∧ k < res.length then text[k - j]? else res[k]? := by
  induction text generalizing j res with
  | nil =>
      rw [indexed, List.foldl_nil, if_neg]
      rw [List.length_nil]
      omega
  | cons c text ih =>
      have hnext := ih (j + 1) (res.set j c)
      push_cast at hnext
      rw [indexed, List.foldl_cons, if_pos (Int.natCast_nonneg j), Int.toNat_natCast, hnext,
        List.length_set, List.length_cons, List.getElem?_set]
      by_cases hj : j = k
      · subst hj
        rw [if_neg (by omega), if_pos rfl, Nat.sub_self, List.getElem?_cons_zero]
        by_cases hlt : j < res.length
        · rw [if_pos hlt, if_pos ⟨le_rfl, by omega, hlt⟩]
        · rw [if_neg hlt, if_neg (by omega), List.getElem?_eq_none (Nat.not_lt.mp hlt)]
      · rw [if_neg hj]
        by_cases hin : j + 1 ≤ k ∧ k < j + 1 + text.length ∧ k < res.length
        · have hback : k - j = k - (j + 1) + 1 := by omega
          rw [if_pos hin, if_pos (by omega), hback, List.getElem?_cons_succ]
        · rw [if_neg hin, if_neg (by omega)]

/-- What is read of the decoding of an encoding is the text. -/
theorem cstr_memory {s : List UInt8} (hs : IsText s) {res : List UInt8}
    (hres : s.length < res.length) : cstr (Base64Decoding.memory
      ⟨s.length, (s.length, 0) :: indexed 0 (decodedBytes s)⟩ res) = s := by
  have hget : ∀ k, (Base64Decoding.memory
      ⟨s.length, (s.length, 0) :: indexed 0 (decodedBytes s)⟩ res)[k]? =
      if k < s.length + padding s.length ∧ k < res.length then (decodedBytes s)[k]?
      else (res.set s.length 0)[k]? := by
    intro k
    have hfold := getElem?_foldl_indexed (decodedBytes s) 0 (res.set s.length 0) k
    rw [decodedBytes, List.length_append, List.length_replicate, List.length_set] at hfold
    unfold Base64Decoding.memory decodedBytes
    rw [List.foldl_cons, if_pos (Int.natCast_nonneg _), Int.toNat_natCast]
    refine hfold.trans ?_
    simp only [Nat.zero_le, true_and, Nat.zero_add, Nat.sub_zero]
  generalize Base64Decoding.memory _ res = mem at hget ⊢
  have htake : mem.take (s.length + 1) = s ++ [0] := by
    apply List.ext_getElem?
    intro k
    rw [List.getElem?_take]
    by_cases hk : k < s.length + 1
    · rw [if_pos hk, hget]
      obtain hlt | rfl : k < s.length ∨ k = s.length := by omega
      · rw [if_pos (by omega), decodedBytes, List.getElem?_append_left hlt,
          List.getElem?_append_left hlt]
      · -- the terminator, or the zero that was written over it
        rw [decodedBytes, List.getElem?_append_right le_rfl, Nat.sub_self,
          List.getElem?_append_right le_rfl, Nat.sub_self, List.getElem?_set_self hres,
          List.getElem?_replicate]
        split_ifs with hin hpos
        · rfl
        · omega
        · rfl
    · rw [if_neg hk, List.getElem?_eq_none]
      rw [List.length_append, List.length_singleton]
      omega
  rw [← List.take_append_drop (s.length + 1) mem, htake, List.append_assoc, List.singleton_append,
    cstr_append_zero hs]

/-- **Round trip.**  What is encoded is the standard encoding, and decodes to the text, exactly
for the texts an `int` can count the digits of. -/
theorem base64_roundTrip_iff {s : List UInt8} (hs : IsText s) (c : UInt8) (after : List UInt8) :
    (base64Encode (s ++ 0 :: c :: after) = .ok (encode s) ∧
      ∃ d, base64Decode (encode s ++ [0]) = .ok d ∧
        ∀ res : List UInt8, d.strLen < res.length → cstr (d.memory res) = s) ↔
      s.length ≤ 1610612733 := by
  constructor
  · rintro ⟨hencode, -⟩
    by_contra hlen
    obtain ⟨e, he⟩ := base64Encode_error hs (c :: after)
      (Or.inl (by unfold groups; omega))
    rw [he] at hencode
    cases hencode
  · intro hlen
    have hgroups : 4 * groups s.length < 2 ^ 31 := by
      unfold groups
      omega
    refine ⟨base64Encode_eq hs (fun _ => List.cons_ne_nil c after) hgroups, _,
      base64Decode_encode s hgroups, fun res hres => ?_⟩
    exact cstr_memory hs (Int.ofNat_lt.mp hres)

/-- Four bytes: the last group is encoded with the byte behind the NUL, and the terminator is
written over. -/
theorem base64_roundTrip_iff_four : base64Encode (bytes "hell" ++ [0, 7]) = .ok (bytes "aGVsbA==") ∧
    ∃ d, base64Decode (bytes "aGVsbA==" ++ [0]) = .ok d ∧
      ∀ res : List UInt8, d.strLen < res.length → cstr (d.memory res) = bytes "hell" :=
  (base64_roundTrip_iff (s := bytes "hell") (by decide) 7 []).mpr (by decide)

/-- A text of one byte more than an `int` can count the digits of. -/
theorem not_base64_roundTrip_long :
    ¬∀ s : List UInt8, IsText s → ∀ (c : UInt8) (after : List UInt8),
      base64Encode (s ++ 0 :: c :: after) = .ok (encode s) ∧
      ∃ d, base64Decode (encode s ++ [0]) = .ok d ∧
        ∀ res : List UInt8, d.strLen < res.length → cstr (d.memory res) = s := by
  intro h
  have htext : IsText (List.replicate 1610612734 65) := fun h0 =>
    absurd (List.eq_of_mem_replicate h0) (by decide)
  obtain ⟨e, he⟩ := base64Encode_error htext [0]
    (Or.inl (by rw [List.length_replicate]; unfold groups; omega))
  have hencode := (h _ htext 0 []).1
  rw [he] at hencode
  cases hencode

/-! ## The bounds of the decoder -/

theorem le_of_mem_indexed {text : List UInt8} {j : ℤ} {w : ℤ × UInt8} (h : w ∈ indexed j text) :
    j ≤ w.1 := by
  induction text generalizing j with
  | nil => exact absurd h List.not_mem_nil
  | cons c text ih =>
      rcases List.mem_cons.mp h with rfl | hlater
      · exact le_rfl
      · have := ih hlater
        omega

theorem forall_indexed {text : List UInt8} (htext : text ≠ []) {j n : ℤ} :
    (∀ w ∈ indexed j text, w.1 ≤ n) ↔ j + text.length ≤ n + 1 := by
  induction text generalizing j with
  | nil => exact absurd rfl htext
  | cons c text ih =>
      rw [indexed, List.forall_mem_cons, List.length_cons]
      push_cast
      by_cases hnil : text = []
      · subst hnil
        simp only [indexed, List.not_mem_nil, false_imp_iff, implies_true, and_true,
          List.length_nil, Nat.cast_zero]
        omega
      · have hpos : 0 < text.length := List.length_pos_of_ne_nil hnil
        rw [ih hnil]
        omega

/-- Every write is in the object, when no more than one `=` is decoded. -/
theorem forall_writes (s : List UInt8) :
    (∀ w ∈ ((s.length : ℤ), 0) :: indexed 0 (decodedBytes s), 0 ≤ w.1 ∧ w.1 ≤ s.length) ↔
      s.length % 3 ≠ 1 := by
  have hlen : (decodedBytes s).length = s.length + padding s.length := by
    rw [decodedBytes, List.length_append, List.length_replicate]
  rw [List.forall_mem_cons]
  constructor
  · rintro ⟨-, hall⟩ hone
    have hpad : padding s.length = 2 := by
      unfold padding
      omega
    have hne : decodedBytes s ≠ [] := by
      intro hnil
      rw [hnil, hpad] at hlen
      simp at hlen
    have := (forall_indexed hne).mp fun w hw => (hall w hw).2
    rw [hlen, hpad] at this
    push_cast at this
    omega
  · intro hone
    refine ⟨⟨Int.natCast_nonneg _, le_rfl⟩, fun w hw => ⟨le_of_mem_indexed hw, ?_⟩⟩
    have hne : decodedBytes s ≠ [] := by
      intro hnil
      rw [hnil] at hw
      exact absurd hw List.not_mem_nil
    refine (forall_indexed hne).mpr ?_ w hw
    rw [hlen]
    push_cast
    have : padding s.length ≤ 1 := by
      unfold padding
      omega
    omega

theorem lt_of_base64Value {c : UInt8} {v : ℕ} (h : base64Value c = .ok v) : c.toNat < 123 := by
  rcases base64Value_cases c with ⟨hlt, -⟩ | ⟨-, herror⟩
  · exact hlt
  · rw [herror] at h
    cases h

/-- A group of any four bytes. -/
theorem base64DecodeLoop_group {len i j : ℤ} (h : i < len - 2) (h0 : 0 ≤ i) {a b c d : UInt8}
    (code : List UInt8) :
    (∃ writes, base64DecodeLoop len (a :: b :: c :: d :: code) i j = .ok writes) ↔
      (∀ x ∈ [a, b, c, d], x.toNat < 123) ∧
        ∃ writes, base64DecodeLoop len code (toInt (i + 4)) (toInt (j + 3)) = .ok writes := by
  simp only [List.forall_mem_cons, List.not_mem_nil, false_imp_iff, implies_true, and_true]
  constructor
  · rintro ⟨writes, hrun⟩
    rw [base64DecodeLoop, if_pos h, if_neg (by omega)] at hrun
    obtain ⟨_, ha, hrun⟩ := exists_of_bind hrun
    obtain ⟨_, hb, hrun⟩ := exists_of_bind hrun
    obtain ⟨_, hc, hrun⟩ := exists_of_bind hrun
    obtain ⟨_, hd, hrun⟩ := exists_of_bind hrun
    obtain ⟨rest, hrest, -⟩ := exists_of_bind hrun
    exact ⟨⟨lt_of_base64Value ha, lt_of_base64Value hb, lt_of_base64Value hc,
      lt_of_base64Value hd⟩, rest, hrest⟩
  · rintro ⟨⟨ha, hb, hc, hd⟩, writes, hrest⟩
    have hvalue : ∀ x : UInt8, x.toNat < 123 → ∃ v < 64, base64Value x = .ok v := fun x hx =>
      (base64Value_cases x).elim And.right fun hbig => absurd hx (Nat.not_lt.mpr hbig.1)
    obtain ⟨w, -, hw⟩ := hvalue a ha
    obtain ⟨x, hxlt, hx⟩ := hvalue b hb
    obtain ⟨y, hylt, hy⟩ := hvalue c hc
    obtain ⟨z, hzlt, hz⟩ := hvalue d hd
    rw [base64DecodeLoop_cons h h0 hw hx hy hz hxlt hylt hzlt, hrest]
    exact ⟨_, rfl⟩

theorem base64DecodeLoop_round {len i : ℤ} (h : i < len - 2) (hi : i < 0) (code : List UInt8)
    (j : ℤ) : base64DecodeLoop len code i j = .error .read := by
  unfold base64DecodeLoop
  split
  · rw [if_pos h, if_pos hi]
  · rw [if_pos h]

/-- The loop over any text: it ends if the table has the bytes of all groups, and an `int` can
count them. -/
theorem base64DecodeLoop_ok_iff (code : List UInt8) {i : ℤ} (j : ℤ) (h0 : 0 ≤ i) (hi : i < 2 ^ 31)
    (h4 : i % 4 = 0) :
    (∃ writes, base64DecodeLoop (i + code.length) (code ++ [0]) i j = .ok writes) ↔
      (∀ c ∈ code.take ((code.length + 1) / 4 * 4), c.toNat < 123) ∧
        i + 4 * ((code.length + 1) / 4 : ℕ) < 2 ^ 31 := by
  induction hn : code.length using Nat.strong_induction_on generalizing code i j with
  | _ n ih =>
      subst hn
      match code with
      | [] =>
          rw [base64DecodeLoop_stop (by simp)]
          simpa using hi
      | [a] =>
          rw [base64DecodeLoop_stop (by simp)]
          simpa using hi
      | [a, b] =>
          rw [base64DecodeLoop_stop (by simp)]
          simpa using hi
      | [a, b, c] =>
          have hlen : (([a, b, c] : List UInt8).length : ℤ) = 3 := rfl
          have hfour : ([a, b, c].length + 1) / 4 = 1 := by simp
          rw [hlen, hfour]
          simp only [List.cons_append, List.nil_append]
          rw [base64DecodeLoop_group (by omega) h0]
          simp only [one_mul, List.take_succ_cons, List.take_nil, List.forall_mem_cons,
            List.not_mem_nil, false_imp_iff, implies_true, and_true]
          have hnul : (0 : UInt8).toNat < 123 := by decide
          rw [and_iff_left hnul]
          refine and_congr_right fun _ => ?_
          by_cases hround : i + 4 < 2 ^ 31
          · rw [toInt_of_range (by omega) hround, base64DecodeLoop_stop (by omega)]
            simpa using hround
          · have hneg : toInt (i + 4) = -2 ^ 31 := by
              rw [show i + 4 = 2 ^ 31 by omega]
              decide
            rw [hneg, base64DecodeLoop_round (by omega) (by decide)]
            simp only [reduceCtorEq, exists_false, false_iff]
            omega
      | a :: b :: c :: d :: rest =>
          have hlen : (a :: b :: c :: d :: rest).length = rest.length + 4 := rfl
          have hfour : (rest.length + 4 + 1) / 4 = (rest.length + 1) / 4 + 1 := by omega
          have htake : ((rest.length + 1) / 4 + 1) * 4 = (rest.length + 1) / 4 * 4 + 4 := by omega
          rw [hlen, hfour, htake]
          simp only [List.cons_append, List.take_succ_cons, List.forall_mem_cons]
          rw [base64DecodeLoop_group (by push_cast; omega) h0]
          simp only [List.forall_mem_cons, List.not_mem_nil, false_imp_iff, implies_true, and_true,
            and_assoc]
          refine and_congr_right fun _ => and_congr_right fun _ => and_congr_right fun _ =>
            and_congr_right fun _ => ?_
          push_cast
          by_cases hround : i + 4 < 2 ^ 31
          · have hrest := ih rest.length (by omega) rest (i := i + 4) (toInt (j + 3)) (by omega)
              hround (by omega) rfl
            rw [toInt_of_range (by omega) hround, show i + (rest.length + 4 : ℤ)
              = i + 4 + rest.length by ring, hrest]
            refine and_congr_right fun _ => ?_
            push_cast
            omega
          · have hneg : toInt (i + 4) = -2 ^ 31 := by
              rw [show i + 4 = 2 ^ 31 by omega]
              decide
            rw [hneg, base64DecodeLoop_round (by omega) (by decide)]
            simp only [reduceCtorEq, exists_false, false_iff, not_and]
            intro _
            omega

/-- **Bounds.**  The decoder stays in `res` exactly for the encodings that do not end in two `=`,
and in `table` exactly for the texts whose groups have no byte behind `z`. -/
theorem base64Decode_bounds {s : List UInt8} {c : UInt8} {after text code : List UInt8}
    (hs : IsText s) (hencode : base64Encode (s ++ 0 :: c :: after) = .ok text)
    (hcode : IsText code) :
    ((∃ d, base64Decode (text ++ [0]) = .ok d ∧ ∀ w ∈ d.writes, 0 ≤ w.1 ∧ w.1 ≤ d.strLen) ↔
        s.length % 3 ≠ 1) ∧
      ((∃ d, base64Decode (code ++ [0]) = .ok d) ↔
        (∀ c ∈ code.take ((code.length + 1) / 4 * 4), c.toNat < 123) ∧
          code.length ≤ 2147483646) := by
  constructor
  · obtain ⟨s', after', hs', heq, rfl, hgroups⟩ := base64Encode_ok hencode
    have hsame := congrArg cstr heq
    rw [cstr_append_zero hs, cstr_append_zero hs'] at hsame
    subst hsame
    rw [base64Decode_encode s hgroups, ← forall_writes s]
    constructor
    · rintro ⟨d, hd, hall⟩
      obtain rfl := Except.ok.inj hd
      exact hall
    · intro hall
      exact ⟨_, rfl, hall⟩
  · have hloop := base64DecodeLoop_ok_iff code 0 le_rfl (by norm_num) rfl
    rw [zero_add, zero_add] at hloop
    have hbound : 4 * (((code.length + 1) / 4 : ℕ) : ℤ) < 2 ^ 31 ↔ code.length ≤ 2147483646 := by
      omega
    rw [← hbound, ← hloop]
    unfold base64Decode
    rw [if_neg (by simp), cstr_append_zero hcode]
    constructor
    · rintro ⟨d, hd⟩
      obtain ⟨writes, hwrites, -⟩ := exists_of_bind hd
      exact ⟨writes, hwrites⟩
    · rintro ⟨writes, hwrites⟩
      dsimp only
      rw [hwrites]
      exact ⟨_, rfl⟩

/-- An encoding that ends in one `=`, and a text of digits. -/
theorem base64Decode_bounds_five :
    (∃ d, base64Decode (bytes "aGVsbG8=" ++ [0]) = .ok d ∧
      ∀ w ∈ d.writes, 0 ≤ w.1 ∧ w.1 ≤ d.strLen) ∧
    ∃ d, base64Decode (bytes "zzz" ++ [0]) = .ok d := by
  have hs : IsText (bytes "hello") := by decide
  have hencode : base64Encode (bytes "hello" ++ 0 :: 7 :: []) = .ok (bytes "aGVsbG8=") := rfl
  have hcode : IsText (bytes "zzz") := by decide
  obtain ⟨hres, htable⟩ := base64Decode_bounds hs hencode hcode
  exact ⟨hres.mpr (by decide), htable.mpr ⟨by decide, by decide⟩⟩

/-- `hell` is written over the end of `res`, and `\x7b` is behind the end of `table`. -/
theorem not_base64Decode_bounds_four :
    (¬∀ (s : List UInt8) (c : UInt8) (after text : List UInt8), IsText s →
      base64Encode (s ++ 0 :: c :: after) = .ok text →
      ∃ d, base64Decode (text ++ [0]) = .ok d ∧ ∀ w ∈ d.writes, 0 ≤ w.1 ∧ w.1 ≤ d.strLen) ∧
    ¬∀ code : List UInt8, IsText code → ∃ d, base64Decode (code ++ [0]) = .ok d := by
  constructor
  · intro h
    obtain ⟨d, hd, hall⟩ := h (bytes "hell") 7 [] (bytes "aGVsbA==") (by decide) rfl
    have hrun : base64Decode (bytes "aGVsbA==" ++ [0]) = .ok
        ⟨4, [(4, 0), (0, 104), (1, 101), (2, 108), (3, 108), (4, 0), (5, 0)]⟩ := by decide
    rw [hrun] at hd
    obtain rfl := Except.ok.inj hd
    exact absurd (hall (5, 0) (by decide)) (by decide)
  · intro h
    obtain ⟨d, hd⟩ := h (bytes "\x7b\x7b\x7b\x7b") (by decide)
    have hrun : base64Decode (bytes "\x7b\x7b\x7b\x7b" ++ [0]) = .error .read := by decide
    rw [hrun] at hd
    cases hd
