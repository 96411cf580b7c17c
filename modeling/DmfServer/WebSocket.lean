/-
# WebSocket frames

`sendWebSocketFrame` builds the frames the server sends, `parseWebSocketFrame` takes
the frames it receives apart.  The length of a payload has three formats: seven bits
in the second byte, or 126 there and sixteen bits behind it, or 127 and sixty-four
bits, which the decoder refuses.  `WsFrame.render` is the frame as the protocol has it,
with either of the first two formats and with or without a mask; the decoder reads it
back (`parseWebSocketFrame_render`).

The encoder always writes the low seven bits of the length, so its frames read back
exactly when the payload is short enough for that format (`wsAgrees_iff`).
-/
import DmfServer.CMemory

open CMem

/-! ## The two functions -/

/-- The size of `frame`. -/
def wsFrameSize : ℕ := 1024

/-- `sendWebSocketFrame`: the bytes handed to `send`. -/
def sendWebSocketFrame (data : List UInt8) : Except Fault (List UInt8) :=
  if 2 + data.length ≤ wsFrameSize then
    .ok (0x81 :: UInt8.ofNat (data.length &&& 0x7F) :: data)
  else .error .write

/-- `data[i]`. -/
def byteAt (data : List UInt8) (i : ℕ) : Except Fault UInt8 :=
  match data[i]? with
  | some c => .ok c
  | none => .error .read

/-- The `n` bytes from `data + off` on. -/
def bytesAt (data : List UInt8) (off n : ℕ) : Except Fault (List UInt8) :=
  if off + n ≤ data.length then .ok ((data.drop off).take n) else .error .read

/-- `payload[i] ^ masking_key[i % 4]`, for every `i`. -/
def wsMask (key payload : List UInt8) : List UInt8 :=
  payload.mapIdx fun i c => c ^^^ key.getD (i % 4) 0

/-- `total_frame_length`. -/
def wsTotalLength (header : ℕ) (mask : Bool) (payloadLen : ℕ) : ℕ :=
  header + (if mask then 4 else 0) + payloadLen

/-- The part of `parseWebSocketFrame` behind the length: `total_frame_length` is
compared with `data_length`, and the payload copied. -/
def wsPayload (data : List UInt8) (dataLength header : ℕ) (mask : Bool) (payloadLen : ℕ) :
    Except Fault (ℤ × Option (List UInt8)) :=
  if dataLength < wsTotalLength header mask payloadLen then .ok (-1, none)
  else do
    let first ← byteAt data 0
    if payloadLen = 2 ∧ first &&& 0x0F = 0x08 then .ok (-100, none)
    else if mask then
      let key ← bytesAt data header 4
      let payload ← bytesAt data (header + 4) payloadLen
      .ok (0, some (wsMask key payload))
    else
      let payload ← bytesAt data header payloadLen
      .ok (0, some payload)

/-- `parseWebSocketFrame` on the memory from `data` on: the returned value, and the
payload if one was made. -/
def parseWebSocketFrame (data : List UInt8) (dataLength : ℕ) :
    Except Fault (ℤ × Option (List UInt8)) :=
  if dataLength < 2 then .ok (-1, none)
  else do
    let second ← byteAt data 1
    let mask := decide ((second >>> 7) &&& 0x01 = 1)
    let payloadLen := (second &&& 0x7F).toNat
    if payloadLen = 126 then
      if dataLength < 4 then .ok (-1, none)
      else
        let high ← byteAt data 2
        let low ← byteAt data 3
        wsPayload data dataLength 4 mask (high.toNat * 256 + low.toNat)
    else if payloadLen = 127 then .ok (-1, none)
    else wsPayload data dataLength 2 mask payloadLen

/-! ## Frames of the protocol -/

/-- A frame with a payload that sixteen bits can count. -/
structure WsFrame where
  /-- The first byte: the flags and the opcode. -/
  first : UInt8
  /-- The masking key of a masked frame. -/
  key : Option (List UInt8)
  payload : List UInt8
  length_key : ∀ k ∈ key, k.length = 4
  length_payload : payload.length < 65536
  /-- It is not the close frame the decoder looks for. -/
  open_frame : ¬(payload.length = 2 ∧ first &&& 0x0F = 0x08)

namespace WsFrame

variable (f : WsFrame)

/-- The mask bit in its place. -/
def maskBit : ℕ := if f.key.isSome then 128 else 0

/-- The second byte, and the sixteen bits of a length it has no room for. -/
def lengthBytes : List UInt8 :=
  if f.payload.length < 126 then [UInt8.ofNat (f.maskBit + f.payload.length)]
  else [UInt8.ofNat (f.maskBit + 126), UInt8.ofNat (f.payload.length / 256),
    UInt8.ofNat (f.payload.length % 256)]

/-- What stands behind the length. -/
def tail : List UInt8 :=
  match f.key with
  | some k => k ++ wsMask k f.payload
  | none => f.payload

/-- The bytes of the frame. -/
def render : List UInt8 := f.first :: f.lengthBytes ++ f.tail

end WsFrame

/-! ## The decoder on frames of the protocol -/

@[simp] theorem length_wsMask (key payload : List UInt8) :
    (wsMask key payload).length = payload.length := by
  simp [wsMask]

/-- Masking twice is no masking. -/
theorem wsMask_wsMask (key payload : List UInt8) :
    wsMask key (wsMask key payload) = payload := by
  apply List.ext_getElem
  · simp
  · intro i h₁ h₂
    simp only [wsMask, List.getElem_mapIdx]
    rw [UInt8.xor_assoc, UInt8.xor_self, UInt8.xor_zero]

/-- The bytes behind a header are read from there. -/
theorem bytesAt_append {a b c : List UInt8} {off n : ℕ} (ha : a.length = off)
    (hb : b.length = n) : bytesAt (a ++ (b ++ c)) off n = .ok b := by
  subst ha hb
  unfold bytesAt
  rw [if_pos (by simp only [List.length_append]; omega), List.drop_left, List.take_left]

theorem WsFrame.length_tail (f : WsFrame) :
    f.tail.length = (if f.key.isSome then 4 else 0) + f.payload.length := by
  unfold tail
  cases hk : f.key with
  | none => simp
  | some k => simp [f.length_key k hk]

/-- Behind the right header the payload is found. -/
theorem wsPayload_render (f : WsFrame) {head : List UInt8} {header : ℕ}
    (hhead : head.length + 1 = header) :
    wsPayload (f.first :: head ++ f.tail) (f.first :: head ++ f.tail).length header
      f.key.isSome f.payload.length = .ok (0, some f.payload) := by
  have hlen : (f.first :: head ++ f.tail).length
      = wsTotalLength header f.key.isSome f.payload.length := by
    rw [List.length_append, f.length_tail, List.length_cons, hhead, wsTotalLength, Nat.add_assoc]
  have hfirst : byteAt (f.first :: head ++ f.tail) 0 = .ok f.first := rfl
  unfold wsPayload
  rw [hlen, if_neg (lt_irrefl _), hfirst, ok_bind, if_neg f.open_frame]
  cases hk : f.key with
  | none =>
      have htail : f.tail = f.payload ++ [] := by simp [WsFrame.tail, hk]
      have hpayload : bytesAt (f.first :: head ++ (f.payload ++ [])) header f.payload.length
          = .ok f.payload := bytesAt_append (by simpa using hhead) rfl
      rw [htail, hpayload]
      rfl
  | some k =>
      have htail : f.tail = k ++ (wsMask k f.payload ++ []) := by simp [WsFrame.tail, hk]
      have hk4 : k.length = 4 := f.length_key k hk
      have hpayload : bytesAt (f.first :: head ++ (k ++ (wsMask k f.payload ++ []))) (header + 4)
          f.payload.length = .ok (wsMask k f.payload) := by
        rw [← List.append_assoc]
        refine bytesAt_append ?_ (length_wsMask _ _)
        simp only [List.length_append, List.length_cons]
        omega
      rw [htail, bytesAt_append (by simpa using hhead) hk4, hpayload]
      simp only [Option.isSome_some, if_true, ok_bind, wsMask_wsMask]

/-- The low seven bits and the high bit of the second byte. -/
theorem second_low {b l : ℕ} (hb : b = 0 ∨ b = 128) (hl : l < 128) :
    (UInt8.ofNat (b + l) &&& 0x7F).toNat = l := by
  have hlow : (UInt8.ofNat (b + l) &&& 0x7F).toNat = (b + l) % 256 % 128 := by
    rw [UInt8.toNat_and, UInt8.toNat_ofNat']
    exact Nat.and_two_pow_sub_one_eq_mod _ 7
  rw [hlow]
  omega

@[inherit_doc second_low] theorem second_high {b l : ℕ} (hl : l < 128)
    (hb : b = 0 ∨ b = 128) :
    ((UInt8.ofNat (b + l) >>> 7) &&& 0x01 = 1) ↔ b = 128 := by
  have hhigh : ((UInt8.ofNat (b + l) >>> 7) &&& 0x01).toNat = (b + l) % 256 / 128 % 2 := by
    rw [UInt8.toNat_and, UInt8.toNat_shiftRight, UInt8.toNat_ofNat']
    show ((b + l) % 256) >>> 7 &&& (2 ^ 1 - 1) = _
    rw [Nat.and_two_pow_sub_one_eq_mod, Nat.shiftRight_eq_div_pow]
  rw [← UInt8.toNat_inj, hhigh]
  show (b + l) % 256 / 128 % 2 = 1 ↔ b = 128
  omega

theorem WsFrame.maskBit_cases (f : WsFrame) : f.maskBit = 0 ∨ f.maskBit = 128 := by
  unfold maskBit
  split <;> simp

theorem WsFrame.maskBit_eq (f : WsFrame) : f.maskBit = 128 ↔ f.key.isSome = true := by
  unfold maskBit
  split
  · next h => simp [h]
  · next h => simp [h]

/-- Every frame of the protocol is decoded to its payload. -/
theorem parseWebSocketFrame_render (f : WsFrame) :
    parseWebSocketFrame f.render f.render.length = .ok (0, some f.payload) := by
  by_cases hshort : f.payload.length < 126
  · have hrender : f.render
        = f.first :: [UInt8.ofNat (f.maskBit + f.payload.length)] ++ f.tail := by
      rw [WsFrame.render, WsFrame.lengthBytes, if_pos hshort]
    have hmask : decide ((UInt8.ofNat (f.maskBit + f.payload.length) >>> 7) &&& 0x01 = 1)
        = f.key.isSome := by
      rw [Bool.eq_iff_iff, decide_eq_true_iff, second_high (by omega) f.maskBit_cases,
        f.maskBit_eq]
    have htwo : ¬f.render.length < 2 := by rw [hrender]; simp
    have hsecond : byteAt f.render 1 = .ok (UInt8.ofNat (f.maskBit + f.payload.length)) := by
      rw [hrender]; rfl
    unfold parseWebSocketFrame
    rw [if_neg htwo, hsecond, ok_bind]
    simp only [second_low f.maskBit_cases (show f.payload.length < 128 by omega), hmask]
    rw [if_neg (by omega), if_neg (by omega), hrender]
    exact wsPayload_render f rfl
  · have hrender : f.render = f.first :: [UInt8.ofNat (f.maskBit + 126),
        UInt8.ofNat (f.payload.length / 256), UInt8.ofNat (f.payload.length % 256)] ++ f.tail := by
      rw [WsFrame.render, WsFrame.lengthBytes, if_neg hshort]
    have hmask : decide ((UInt8.ofNat (f.maskBit + 126) >>> 7) &&& 0x01 = 1)
        = f.key.isSome := by
      rw [Bool.eq_iff_iff, decide_eq_true_iff, second_high (by omega) f.maskBit_cases,
        f.maskBit_eq]
    have hfour : ¬f.render.length < 4 := by rw [hrender]; simp
    have hsecond : byteAt f.render 1 = .ok (UInt8.ofNat (f.maskBit + 126)) := by
      rw [hrender]; rfl
    have hhigh : byteAt f.render 2 = .ok (UInt8.ofNat (f.payload.length / 256)) := by
      rw [hrender]; rfl
    have hlow : byteAt f.render 3 = .ok (UInt8.ofNat (f.payload.length % 256)) := by
      rw [hrender]; rfl
    -- the two bytes are put together to the length they were made of
    have hlen : (UInt8.ofNat (f.payload.length / 256)).toNat * 256
        + (UInt8.ofNat (f.payload.length % 256)).toNat = f.payload.length := by
      have := f.length_payload
      rw [UInt8.toNat_ofNat', UInt8.toNat_ofNat']
      omega
    unfold parseWebSocketFrame
    rw [if_neg (by omega), hsecond, ok_bind]
    simp only [second_low f.maskBit_cases (show 126 < 128 by omega), hmask]
    simp only [if_true, if_neg hfour, hhigh, hlow, ok_bind, hlen]
    rw [hrender]
    exact wsPayload_render f rfl

/-! ## The encoder -/

/-- The decoder gives back what the encoder was given. -/
def WsAgrees (data : List UInt8) : Prop :=
  ∃ frame, sendWebSocketFrame data = .ok frame ∧
    parseWebSocketFrame frame frame.length = .ok (0, some data)

theorem length_of_bytesAt {data q : List UInt8} {off n : ℕ} (h : bytesAt data off n = .ok q) :
    q.length = n := by
  unfold bytesAt at h
  split at h
  · cases h
    rw [List.length_take, List.length_drop]
    omega
  · cases h

/-- A payload the decoder makes lies behind the header inside the frame. -/
theorem length_of_wsPayload {data p : List UInt8} {n header len : ℕ} {mask : Bool}
    (h : wsPayload data n header mask len = .ok (0, some p)) :
    p.length = len ∧ header + p.length ≤ n := by
  unfold wsPayload at h
  split at h
  · cases h
  · next hfit =>
      have hlen : p.length = len := by
        cases hfirst : byteAt data 0 with
        | error e => rw [hfirst] at h; cases h
        | ok first =>
            rw [hfirst, ok_bind] at h
            split at h
            · cases h
            · split at h
              · cases hkey : bytesAt data header 4 with
                | error e => rw [hkey] at h; cases h
                | ok key =>
                    cases hq : bytesAt data (header + 4) len with
                    | error e => rw [hkey, hq] at h; cases h
                    | ok q =>
                        rw [hkey, hq] at h
                        cases h
                        rw [length_wsMask, length_of_bytesAt hq]
              · cases hq : bytesAt data header len with
                | error e => rw [hq] at h; cases h
                | ok q =>
                    rw [hq] at h
                    cases h
                    exact length_of_bytesAt hq
      unfold wsTotalLength at hfit
      omega

/-- A frame of the encoder reads back only if its length fits seven bits and is not
one of the two marks. -/
theorem length_le_of_wsAgrees {data : List UInt8} (h : WsAgrees data) : data.length ≤ 125 := by
  obtain ⟨frame, hsend, hparse⟩ := h
  unfold sendWebSocketFrame at hsend
  split at hsend
  · cases hsend
    have hlow : (UInt8.ofNat (data.length &&& 0x7F) &&& 0x7F).toNat = data.length % 128 := by
      have hmod : data.length &&& 0x7F = data.length % 128 :=
        Nat.and_two_pow_sub_one_eq_mod _ 7
      have hlt : data.length % 128 < 128 := Nat.mod_lt _ (by norm_num)
      simpa [hmod] using second_low (Or.inl rfl) hlt
    unfold parseWebSocketFrame at hparse
    rw [if_neg (by simp)] at hparse
    simp only [byteAt, List.getElem?_cons_succ, List.getElem?_cons_zero, ok_bind, hlow]
      at hparse
    split at hparse
    · -- the mark of sixteen bits: the payload is short of the two bytes it takes
      split at hparse
      · cases hparse
      · cases h0 : data[0]? with
        | none => rw [h0] at hparse; cases hparse
        | some high =>
            cases h1 : data[1]? with
            | none => rw [h0, h1] at hparse; cases hparse
            | some low =>
                rw [h0, h1] at hparse
                have := (length_of_wsPayload hparse).2
                simp only [List.length_cons] at this
                omega
    · split at hparse
      · cases hparse
      · have := (length_of_wsPayload hparse).1
        omega
  · cases hsend

/-- The frame the encoder makes of a short payload. -/
def wsTextFrame (data : List UInt8) (h : data.length ≤ 125) : WsFrame where
  first := 0x81
  key := none
  payload := data
  length_key := by simp
  length_payload := by omega
  open_frame := by
    rintro ⟨-, hop⟩
    exact absurd hop (by decide)

theorem sendWebSocketFrame_eq {data : List UInt8} (h : data.length ≤ 125) :
    sendWebSocketFrame data = .ok (wsTextFrame data h).render := by
  have hmod : data.length &&& 0x7F = data.length :=
    (Nat.and_two_pow_sub_one_eq_mod _ 7).trans (Nat.mod_eq_of_lt (by omega))
  have hbytes : (wsTextFrame data h).lengthBytes = [UInt8.ofNat data.length] := by
    show (if data.length < 126 then _ else _) = _
    rw [if_pos (by omega)]
    show [UInt8.ofNat (0 + data.length)] = _
    rw [Nat.zero_add]
  unfold sendWebSocketFrame
  rw [if_pos (by unfold wsFrameSize; omega), hmod, WsFrame.render, hbytes]
  rfl

/-- Encoder and decoder agree on the payloads of at most 125 bytes, and on no others. -/
theorem wsAgrees_iff (data : List UInt8) : WsAgrees data ↔ data.length ≤ 125 := by
  constructor
  · exact length_le_of_wsAgrees
  · intro h
    exact ⟨_, sendWebSocketFrame_eq h, parseWebSocketFrame_render (wsTextFrame data h)⟩

/-- A message of 126 bytes: its length reads as the mark of the sixteen-bit format. -/
theorem not_wsAgrees_longMessage :
    ¬∀ data : List UInt8, data.length ≤ 1022 → WsAgrees data := by
  intro h
  have hlong := length_le_of_wsAgrees (h (List.replicate 126 65) (by simp))
  simp at hlong
