/-
# The WebSocket handshake

`upto_ws_prot` answers a key with the Base64 text of a SHA-1 digest: `sha1` writes the digest in
hexadecimal, `hexStringToByteArray` makes an array of bytes of that, and `base64_encode` takes
the array for a C string.  The digest itself is any 20 bytes here, and so is the memory behind
the array that `malloc` returned.
-/
import DmfServer.Block
import DmfServer.Base64

open CMem

/-! ## From the digest to the answer -/

/-- The digits of `%x`. -/
def hexDigits : List UInt8 := bytes "0123456789abcdef"

/-- `sprintf(temp, "%02x", c)`. -/
def hexText (c : UInt8) : List UInt8 :=
  [hexDigits.getD (c.toNat / 16) 0, hexDigits.getD (c.toNat % 16) 0]

/-- The end of `sha1`: the digest is appended to `shaed`. -/
def sha1Text (shaed : Block 128) (sSHA : List UInt8) : Except Fault (Block 128) :=
  sSHA.foldlM (fun shaed c => shaed.strcat 0 (hexText c)) shaed

/-- A round of `hex_to_Byte`. -/
def hexStep (byte c : UInt8) : UInt8 :=
  if 48 ≤ c ∧ c ≤ 57 then byte * 16 + (c - 48)
  else if 97 ≤ c ∧ c ≤ 102 then byte * 16 + (c - 97 + 10)
  else if 65 ≤ c ∧ c ≤ 70 then byte * 16 + (c - 65 + 10)
  else byte

/-- `hex_to_Byte`. -/
def hexToByte (a b : UInt8) : UInt8 := hexStep (hexStep 0 a) b

/-- The loop of `hexStringToByteArray`. -/
def hexPairs : List UInt8 → List UInt8
  | a :: b :: hexString => hexToByte a b :: hexPairs hexString
  | _ => []

/-- `hexStringToByteArray`. -/
def hexStringToByteArray (hexString : List UInt8) : Option (List UInt8) :=
  if hexString.length % 2 ≠ 0 then none else some (hexPairs hexString)

/-- The value of `Sec-WebSocket-Accept`: `sSHA` is the digest, and `after` what is in memory
behind `byteArray`. -/
def wsAccept (sSHA after : List UInt8) : Except Fault (List UInt8) := do
  let sha ← sha1Text (Block.zero 128) sSHA
  let text ← sha.readStr 0
  match hexStringToByteArray text with
  | none => .error .null
  | some byteArray => base64Encode (byteArray ++ after)

/-- The first lines of the answer. -/
def wsAnswerHead : List (List UInt8) :=
  [bytes "HTTP/1.1 101 Switching Protocols\r\n", bytes "Upgrade: websocket\r\n",
    bytes "Connection: Upgrade\r\n", bytes "Sec-WebSocket-Accept: "]

/-- What `upto_ws_prot` hands to `send`. -/
def wsAnswer (sSHA after : List UInt8) : Except Fault (List UInt8) := do
  let base64ed ← wsAccept sSHA after
  let res ← Block.catAll 4096 (wsAnswerHead ++ [base64ed, bytes "\r\n", bytes "\r\n"])
  res.readStr 0

/-! ## The array is the digest -/

theorem hexToByte_lt : ∀ n < 256,
    hexToByte (hexDigits.getD (n / 16) 0) (hexDigits.getD (n % 16) 0) = UInt8.ofNat n := by
  decide +kernel

theorem hexDigits_ne_zero : ∀ n < 16, hexDigits.getD n 0 ≠ 0 := by decide

theorem isText_hexText (c : UInt8) : IsText (hexText c) := by
  have hc := c.toNat_lt
  unfold IsText hexText
  simp only [List.mem_cons, List.not_mem_nil, or_false, not_or]
  exact ⟨(hexDigits_ne_zero _ (by omega)).symm, (hexDigits_ne_zero _ (by omega)).symm⟩

/-- Two characters stand for a byte, and are read back as that byte. -/
theorem hexPairs_hexText (sSHA : List UInt8) : hexPairs (sSHA.flatMap hexText) = sSHA := by
  induction sSHA with
  | nil => rfl
  | cons c sSHA ih =>
      have hbyte := hexToByte_lt c.toNat c.toNat_lt
      rw [UInt8.ofNat_toNat] at hbyte
      rw [List.flatMap_cons, hexText]
      simp only [List.cons_append, List.nil_append, hexPairs]
      rw [hbyte, ih]

theorem length_flatMap_hexText (sSHA : List UInt8) :
    (sSHA.flatMap hexText).length = 2 * sSHA.length := by
  induction sSHA with
  | nil => rfl
  | cons c sSHA ih =>
      rw [List.flatMap_cons, List.length_append, ih, List.length_cons, hexText]
      simp only [List.length_cons, List.length_nil]
      omega

/-- `base64_encode` gets the digest, and reads on behind it. -/
theorem wsAccept_eq {sSHA : List UInt8} (hlen : sSHA.length = 20) (after : List UInt8) :
    wsAccept sSHA after = base64Encode (sSHA ++ after) := by
  have htexts : ∀ t ∈ sSHA.map hexText, IsText t := by
    intro t ht
    obtain ⟨c, -, rfl⟩ := List.mem_map.mp ht
    exact isText_hexText c
  have hlong := length_flatMap_hexText sSHA
  obtain ⟨sha, hsha, hstr⟩ : ∃ b, Block.catAll 128 (sSHA.map hexText) = .ok b ∧
      b.str 0 = (sSHA.map hexText).flatten := by
    refine Block.catAll_eq htexts ?_
    rw [← List.flatMap_def]
    omega
  rw [← List.flatMap_def] at hstr
  have hrun : sha1Text (Block.zero 128) sSHA = .ok sha := by
    rw [← hsha, Block.catAll, List.foldlM_map]
    rfl
  have hread : sha.readStr 0 = .ok (sSHA.flatMap hexText) := by
    rw [← hstr]
    exact Block.readStr_eq (by rw [hstr]; omega)
  unfold wsAccept hexStringToByteArray
  rw [hrun, ok_bind, hread, ok_bind, if_neg (by omega), hexPairs_hexText]

/-- **The answer.**  It has the standard encoding of the digest exactly if the digest has no zero
byte, and a zero byte stands behind the array. -/
theorem wsAccept_iff {sSHA : List UInt8} (hlen : sSHA.length = 20) (after : List UInt8) :
    wsAccept sSHA after = .ok (Base64.encode sSHA) ↔
      (0 : UInt8) ∉ sSHA ∧ ∃ rest, after = 0 :: rest := by
  rw [wsAccept_eq hlen]
  constructor
  · intro h
    obtain ⟨s, rest, hs, hsplit, heq, -⟩ := base64Encode_ok h
    obtain rfl := Base64.encode_injective heq
    exact ⟨hs, rest, List.append_cancel_left hsplit⟩
  · rintro ⟨hs, rest, rfl⟩
    refine base64Encode_eq hs ?_ (by rw [hlen]; decide)
    intro hone
    rw [hlen] at hone
    exact absurd hone (by decide)

/-- A digest without a zero byte. -/
theorem wsAccept_iff_ones :
    wsAccept (List.replicate 20 1) [0] = .ok (bytes "AQEBAQEBAQEBAQEBAQEBAQEBAQE=") :=
  (wsAccept_iff (show (List.replicate 20 (1 : UInt8)).length = 20 from List.length_replicate)
    [0]).mpr ⟨by decide, [], rfl⟩

/-- A digest that begins with a zero byte is answered with no text at all. -/
theorem not_wsAccept_zero : ¬∀ sSHA after : List UInt8, sSHA.length = 20 →
    wsAccept sSHA after = .ok (Base64.encode sSHA) := by
  intro h
  have hzero := h (List.replicate 20 0) [0] List.length_replicate
  rw [wsAccept_eq List.length_replicate] at hzero
  have hempty : base64Encode (List.replicate 20 0 ++ [0]) = .ok [] := by decide
  rw [hempty] at hzero
  exact absurd (Except.ok.inj hzero) (by decide)

/-- Where the value is right, so is the whole answer. -/
theorem wsAnswer_eq {sSHA after : List UInt8}
    (h : wsAccept sSHA after = .ok (Base64.encode sSHA)) (hlen : sSHA.length = 20) :
    wsAnswer sSHA after
      = .ok (wsAnswerHead.flatten ++ Base64.encode sSHA ++ bytes "\r\n\r\n") := by
  have htexts : ∀ t ∈ wsAnswerHead ++ [Base64.encode sSHA, bytes "\r\n", bytes "\r\n"],
      IsText t := by
    have hhead : ∀ t ∈ wsAnswerHead, IsText t := by decide
    intro t ht
    rcases List.mem_append.mp ht with ht | ht
    · exact hhead t ht
    · simp only [List.mem_cons, List.not_mem_nil, or_false] at ht
      rcases ht with rfl | rfl | rfl
      · exact Base64.isText_encode sSHA
      · decide
      · decide
  have hflat : (wsAnswerHead ++ [Base64.encode sSHA, bytes "\r\n", bytes "\r\n"]).flatten
      = wsAnswerHead.flatten ++ Base64.encode sSHA ++ bytes "\r\n\r\n" := by
    rw [List.flatten_append]
    simp only [List.flatten_cons, List.flatten_nil, List.append_nil, List.append_assoc]
    rfl
  have hshort : (wsAnswerHead.flatten ++ Base64.encode sSHA ++ bytes "\r\n\r\n").length < 4096 := by
    have hhead : wsAnswerHead.flatten.length = 97 := by decide
    have hend : (bytes "\r\n\r\n").length = 4 := rfl
    rw [List.length_append, List.length_append, hhead, hend, Base64.length_encode, hlen]
    decide
  obtain ⟨res, hres, hstr⟩ : ∃ b : Block 4096, Block.catAll 4096
      (wsAnswerHead ++ [Base64.encode sSHA, bytes "\r\n", bytes "\r\n"]) = .ok b ∧ b.str 0 = _ :=
    Block.catAll_eq htexts (hflat ▸ hshort)
  unfold wsAnswer
  rw [h, ok_bind, hres, ok_bind, Block.readStr_eq (by rw [hstr, hflat]; omega), hstr, hflat]
