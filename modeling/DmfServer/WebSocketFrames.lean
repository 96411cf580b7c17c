/-
# Frames as clients code them

A client picks the opcode, the masking key and one of two formats for the length; a short
payload may have its length in sixteen bits too.  The decoder accepts exactly the complete
frames (`parseWebSocketFrame_exact`): no frame is the beginning of another
(`WireFrame.eq_of_prefix`), so what is cut off anywhere is turned down.  Of the close frames it
tells those with a status code and no reason (`wsClosed_iff`).
-/
import DmfServer.WebSocketLoop

open CMem

/-! ## Frames and what is in front of their end -/

/-- A frame that another begins with is that one. -/
theorem WireFrame.eq_of_prefix {f g : WireFrame} (h : g.render <+: f.render) :
    g.render = f.render := by
  obtain ⟨t, ht⟩ := h
  have hcons : g.first :: g.second :: (g.ext ++ (g.key ++ g.data) ++ t)
      = f.first :: f.second :: (f.ext ++ (f.key ++ f.data)) := ht
  rw [List.cons.injEq, List.cons.injEq] at hcons
  obtain ⟨-, hsecond, hbehind⟩ := hcons
  have hkey : g.key.length = f.key.length := by rw [g.length_key, f.length_key, hsecond]
  have hgdata := g.length_data
  rw [hsecond] at hgdata
  -- the second byte tells the format, and with the bytes behind it the length
  have hlen : g.ext.length = f.ext.length ∧ g.data.length = f.data.length := by
    rcases hgdata, f.length_data with
      ⟨⟨hg, hgshort, hgext⟩ | ⟨hg, gh, gl, hgext, hglen⟩,
        ⟨hf, hfshort, hfext⟩ | ⟨hf, fh, fl, hfext, hflen⟩⟩
    · exact ⟨by rw [hgext, hfext], by rw [← hg, ← hf]⟩
    · omega
    · omega
    · rw [hgext, hfext] at hbehind
      simp only [List.cons_append, List.nil_append, List.cons.injEq] at hbehind
      exact ⟨by rw [hgext, hfext]; rfl, by rw [hglen, hflen, hbehind.1, hbehind.2.1]⟩
  have hnil : t = [] := by
    have hsum := congrArg List.length hbehind
    simp only [List.length_append] at hsum
    exact List.eq_nil_of_length_eq_zero (by omega)
  rw [← ht, hnil, List.append_nil]

/-- What is cut off is turned down. -/
theorem parse_cut {f : WireFrame} {front : List UInt8} (hfront : front <+: f.render)
    (hcut : front ≠ f.render) : parseWebSocketFrame front front.length = .ok (-1, none) := by
  apply parse_none
  intro g hg
  have hwhole := WireFrame.eq_of_prefix (hg.trans hfront)
  exact hcut (List.IsPrefix.eq_of_length_le hfront (hwhole ▸ hg.length_le))

/-- The decoder never leaves the bytes it was given. -/
theorem exists_parse (data : List UInt8) :
    ∃ answer, parseWebSocketFrame data data.length = .ok answer := by
  rcases parse_cases data with ⟨f, rest, rfl⟩ | hnone
  · exact ⟨f.answer, parse_render f rest⟩
  · exact ⟨_, hnone⟩

/-! ## Frames of a client -/

/-- A frame as a client codes it. -/
structure ClientFrame where
  /-- The first byte: the flags and the opcode. -/
  first : UInt8
  /-- The masking key of a masked frame. -/
  key : Option (List UInt8)
  /-- The length is in the sixteen bits behind the second byte. -/
  wide : Bool
  payload : List UInt8
  length_key : ∀ k ∈ key, k.length = 4
  length_payload : payload.length ≤ 65535
  narrow : wide = false → payload.length < 126

namespace ClientFrame

variable (f : ClientFrame)

/-- The second byte: the mask bit, and the length or the mark of sixteen bits. -/
def second : UInt8 :=
  UInt8.ofNat ((if f.key.isSome then 128 else 0) + if f.wide then 126 else f.payload.length)

/-- The sixteen bits, the high byte first. -/
def ext : List UInt8 :=
  if f.wide then [UInt8.ofNat (f.payload.length / 256), UInt8.ofNat (f.payload.length % 256)]
  else []

/-- The payload as it is sent. -/
def masked : List UInt8 :=
  match f.key with
  | some k => wsMask k f.payload
  | none => f.payload

/-- The bytes of the frame. -/
def render : List UInt8 := f.first :: f.second :: (f.ext ++ (f.key.getD [] ++ f.masked))

/-- `opcode == 8`. -/
def Closing : Prop := f.first &&& 0x0F = 0x08

theorem length_masked : f.masked.length = f.payload.length := by
  unfold masked
  cases f.key with
  | none => rfl
  | some k => exact length_wsMask k f.payload

/-- The second byte as a number. -/
theorem toNat_second : f.second.toNat
    = (if f.key.isSome then 128 else 0) + if f.wide then 126 else f.payload.length := by
  unfold second
  rw [UInt8.toNat_ofNat']
  have := f.narrow
  split_ifs with hkey hwide hwide
  · rfl
  · have := f.narrow (Bool.eq_false_iff.mpr hwide)
    omega
  · rfl
  · have := f.narrow (Bool.eq_false_iff.mpr hwide)
    omega

/-- The mask bit is set for a masked frame. -/
theorem mask_iff : 128 ≤ f.second.toNat ↔ f.key.isSome = true := by
  rw [toNat_second]
  split_ifs with hkey hwide hwide
  · simp [hkey]
  · simp [hkey]
  · simp [hkey]
  · have := f.narrow (Bool.eq_false_iff.mpr hwide)
    simp only [hkey, Bool.false_eq_true, iff_false]
    omega

/-- The length is read where it was put. -/
theorem length_data : LengthBytes f.second f.ext f.masked.length := by
  rw [f.length_masked]
  have hlen := f.length_payload
  unfold LengthBytes ext
  rw [toNat_second]
  cases hwide : f.wide with
  | false =>
      have hshort := f.narrow hwide
      simp only [Bool.false_eq_true, if_false]
      refine Or.inl ⟨?_, hshort, trivial⟩
      split_ifs
      · omega
      · omega
  | true =>
      simp only [if_true]
      refine Or.inr ⟨by split_ifs <;> rfl, _, _, rfl, ?_⟩
      rw [UInt8.toNat_ofNat', UInt8.toNat_ofNat']
      omega

theorem length_getD_key : (f.key.getD []).length = if 128 ≤ f.second.toNat then 4 else 0 := by
  cases hkey : f.key with
  | none =>
      have hopen : ¬128 ≤ f.second.toNat := by rw [mask_iff, hkey]; decide
      rw [if_neg hopen]
      rfl
  | some k =>
      have hmask : 128 ≤ f.second.toNat := by rw [mask_iff, hkey]; rfl
      rw [if_pos hmask]
      exact f.length_key k hkey

/-- The frame as it is on the wire. -/
def wire : WireFrame where
  first := f.first
  second := f.second
  ext := f.ext
  key := f.key.getD []
  data := f.masked
  length_data := f.length_data
  length_key := f.length_getD_key

theorem payload_wire : f.wire.payload = f.payload := by
  show (if 128 ≤ f.second.toNat then wsMask (f.key.getD []) f.masked else f.masked) = _
  unfold masked
  cases hkey : f.key with
  | none =>
      have hopen : ¬128 ≤ f.second.toNat := by rw [mask_iff, hkey]; decide
      rw [if_neg hopen]
  | some k =>
      have hmask : 128 ≤ f.second.toNat := by rw [mask_iff, hkey]; rfl
      rw [if_pos hmask]
      exact wsMask_wsMask k f.payload

/-- The close frame the decoder looks for has a payload of two bytes. -/
theorem isClose_wire : f.wire.IsClose ↔ f.payload.length = 2 ∧ f.Closing := by
  unfold WireFrame.IsClose
  rw [show f.wire.data = f.masked from rfl, f.length_masked]
  rfl

end ClientFrame

/-- **Complete frames.**  The decoder makes the payload of every complete frame that does not
close, whatever follows it.  It turns down what is cut off, and every length of sixty-four bits,
and reads nothing but the bytes it was given. -/
theorem parseWebSocketFrame_exact :
    (∀ f : ClientFrame, ¬f.Closing →
      (∀ rest, parseWebSocketFrame (f.render ++ rest) (f.render ++ rest).length
        = .ok (0, some f.payload)) ∧
      ∀ front, front <+: f.render → front ≠ f.render →
        parseWebSocketFrame front front.length = .ok (-1, none)) ∧
    (∀ (first second : UInt8) (rest : List UInt8), second &&& 0x7F = 127 →
      parseWebSocketFrame (first :: second :: rest) (first :: second :: rest).length
        = .ok (-1, none)) ∧
    ∀ data : List UInt8, ∃ answer, parseWebSocketFrame data data.length = .ok answer := by
  refine ⟨fun f hf => ⟨fun rest => ?_, fun front hfront hcut => ?_⟩,
    fun first second rest hlong => ?_, exists_parse⟩
  · have hopen : ¬f.wire.IsClose := fun hclose => hf (f.isClose_wire.mp hclose).2
    have hparse := parse_render f.wire rest
    rw [f.wire.answer_of_not_close hopen, f.payload_wire] at hparse
    exact hparse
  · exact parse_cut (f := f.wire) hfront hcut
  · apply parse_short
    rintro first' second' ext len t hbytes heq
    rw [List.cons.injEq, List.cons.injEq] at heq
    obtain ⟨-, rfl, -⟩ := heq
    have hlow := congrArg UInt8.toNat hlong
    rw [toNat_low] at hlow
    have hlow' : second.toNat % 128 = 127 := hlow
    rcases hbytes with ⟨hshort, hlt, -⟩ | ⟨hmark, -⟩
    · omega
    · omega

/-- A masked frame of one byte, with its length in sixteen bits, and one without the last byte. -/
theorem parseWebSocketFrame_exact_wide :
    parseWebSocketFrame [0x81, 0xFE, 0, 1, 1, 2, 3, 4, 96, 7] 10 = .ok (0, some [97]) ∧
    parseWebSocketFrame [0x81, 0xFE, 0, 1, 1, 2, 3, 4] 8 = .ok (-1, none) ∧
    parseWebSocketFrame [0x81, 0xFF, 0] 3 = .ok (-1, none) := by
  have hframe := parseWebSocketFrame_exact.1
    { first := 0x81, key := some [1, 2, 3, 4], wide := true, payload := [97]
      length_key := by simp, length_payload := by decide, narrow := nofun } (by
        unfold ClientFrame.Closing
        decide)
  refine ⟨hframe.1 [7], hframe.2 _ (by decide) (by decide), ?_⟩
  exact parseWebSocketFrame_exact.2.1 0x81 0xFF [0] (by decide)

/-! ## Close frames -/

/-- A close frame of a client: no payload, or a status code and perhaps a reason. -/
structure ClientFrame.IsLegalClose (f : ClientFrame) : Prop where
  closing : f.Closing
  length : f.payload.length = 0 ∨ (2 ≤ f.payload.length ∧ f.payload.length ≤ 125)

/-- A read that begins with the frame is answered with -100, and the loop makes no other read. -/
def WsClosed (f : ClientFrame) : Prop :=
  ∀ rest, parseWebSocketFrame (f.render ++ rest) (f.render ++ rest).length = .ok (-100, none) ∧
    ∀ rs, wsLoop (.bytes (f.render ++ rest) :: rs)
      = .ok ([], [(.bytes (f.render ++ rest), (f.render ++ rest).length)])

/-- **Close frames.**  The loop is left at the close frames with a status code and no reason. -/
theorem wsClosed_iff (f : ClientFrame) (hf : f.IsLegalClose) :
    WsClosed f ↔ f.payload.length = 2 := by
  constructor
  · intro h
    by_contra hlen
    have hopen : ¬f.wire.IsClose := fun hclose => hlen (f.isClose_wire.mp hclose).1
    have hparse := parse_render f.wire []
    rw [f.wire.answer_of_not_close hopen] at hparse
    exact absurd (hparse.symm.trans (h []).1) (by simp)
  · intro hlen rest
    have hclose : f.wire.IsClose := f.isClose_wire.mpr ⟨hlen, hf.closing⟩
    have hparse := parse_render f.wire rest
    rw [f.wire.answer_of_close hclose] at hparse
    refine ⟨hparse, fun rs => ?_⟩
    have hloop := wsLoop_bytes (f.wire.append_ne_nil rest) hparse rs
    rw [if_neg (by decide), if_pos rfl] at hloop
    exact hloop

/-- The close frame with this payload, masked with four zeros. -/
def closeFrame (payload : List UInt8) (h : payload.length ≤ 125) : ClientFrame where
  first := 0x88
  key := some [0, 0, 0, 0]
  wide := false
  payload := payload
  length_key := by simp
  length_payload := by omega
  narrow := fun _ => by omega

/-- The status 1000. -/
theorem wsClosed_iff_status : WsClosed (closeFrame [3, 232] (by decide)) :=
  (wsClosed_iff _ ⟨by unfold ClientFrame.Closing; decide, Or.inr ⟨by decide, by decide⟩⟩).mpr rfl

/-- A close frame without a payload. -/
theorem not_wsClosed_empty : ¬∀ f : ClientFrame, f.IsLegalClose → WsClosed f := by
  intro h
  have hlegal : (closeFrame [] (by decide)).IsLegalClose :=
    ⟨by unfold ClientFrame.Closing; decide, Or.inl rfl⟩
  have hclosed := (h _ hlegal []).1
  have hparse : parseWebSocketFrame ((closeFrame [] (by decide)).render ++ [])
      ((closeFrame [] (by decide)).render ++ []).length = .ok (0, some []) := by decide
  rw [hparse] at hclosed
  cases hclosed
