/-
# The loop over WebSocket frames

The loop of `upto_ws_prot` hands what one `recv` returned to `parseWebSocketFrame`, and
takes what comes back for one frame.  So of the bytes of a `recv` it sees the frame they
begin with, and no other: it hands out the payloads that were sent exactly if these are the
payloads of the frames that the reads begin with (`wsSurvives_iff`), as they are when every
read returns one whole frame (`headFrames_whole`), and no read fails.  A read that fails is
handed on with a length of `2 ^ 64 - 1`.
-/
import DmfServer.WebSocket

open CMem

/-! ## The loop -/

/-- What `recv` does. -/
inductive WsRecv : Type where
  /-- It returns bytes, or none when the client has closed. -/
  | bytes (chunk : List UInt8)
  /-- It returns -1; what is in `data` then. -/
  | failed (data : List UInt8)
  deriving DecidableEq

/-- `data`, as far as it was filled. -/
def WsRecv.data : WsRecv → List UInt8
  | .bytes chunk => chunk
  | .failed data => data

/-- `data_length`, a `size_t`. -/
def WsRecv.dataLength : WsRecv → ℕ
  | .bytes chunk => chunk.length
  | .failed _ => 2 ^ 64 - 1

/-- The loop over what the calls of `recv` do: the payloads it prints, and the calls of
`parseWebSocketFrame` with their `data_length`. -/
def wsLoop : List WsRecv → Except Fault (List (List UInt8) × List (WsRecv × ℕ))
  | [] => .ok ([], [])
  | r :: rs =>
      if r.dataLength = 0 then .ok ([], [])
      else do
        let (result, payload) ← parseWebSocketFrame r.data r.dataLength
        if result = 0 then
          (wsLoop rs).map fun out => (payload.toList ++ out.1, (r, r.dataLength) :: out.2)
        else if result = -100 then .ok ([], [(r, r.dataLength)])
        else (wsLoop rs).map fun out => (out.1, (r, r.dataLength) :: out.2)

/-- The loop hands out these payloads, and never parses anything but the bytes that a read
has returned. -/
def WsSurvives (payloads : List (List UInt8)) (recvs : List WsRecv) : Prop :=
  ∃ calls, wsLoop recvs = .ok (payloads, calls) ∧
    ∀ call ∈ calls, ∃ chunk, call.1 = .bytes chunk ∧ call.2 = chunk.length

/-! ## Frames on the wire -/

/-- The bytes that tell a length: seven bits of the second byte, or 126 there and two bytes
behind it. -/
def LengthBytes (second : UInt8) (ext : List UInt8) (len : ℕ) : Prop :=
  (second.toNat % 128 = len ∧ len < 126 ∧ ext = []) ∨
    (second.toNat % 128 = 126 ∧ ∃ high low : UInt8, ext = [high, low] ∧
      len = high.toNat * 256 + low.toNat)

/-- The bytes of a frame of the two formats the decoder knows. -/
structure WireFrame where
  first : UInt8
  second : UInt8
  ext : List UInt8
  key : List UInt8
  data : List UInt8
  length_data : LengthBytes second ext data.length
  length_key : key.length = if 128 ≤ second.toNat then 4 else 0

namespace WireFrame

variable (f : WireFrame)

/-- The bytes in their order. -/
def render : List UInt8 := f.first :: f.second :: (f.ext ++ (f.key ++ f.data))

/-- The payload without the mask. -/
def payload : List UInt8 := if 128 ≤ f.second.toNat then wsMask f.key f.data else f.data

/-- It is the close frame the decoder looks for: with a status of two bytes. -/
def IsClose : Prop := f.data.length = 2 ∧ f.first &&& 0x0F = 0x08

instance decidableIsClose : Decidable f.IsClose :=
  inferInstanceAs (Decidable (f.data.length = 2 ∧ f.first &&& 0x0F = 0x08))

end WireFrame

/-- The reads begin with frames of these payloads, one frame in a read; those that begin with
no whole frame count for nothing, and the end is a close frame or a read of no bytes. -/
inductive HeadFrames : List WsRecv → List (List UInt8) → Prop where
  | nil : HeadFrames [] []
  | closed {rs : List WsRecv} : HeadFrames (.bytes [] :: rs) []
  | data (f : WireFrame) {rest : List UInt8} {rs : List WsRecv} {payloads : List (List UInt8)}
      (opened : ¬ f.IsClose) (behind : HeadFrames rs payloads) :
      HeadFrames (.bytes (f.render ++ rest) :: rs) (f.payload :: payloads)
  | close (f : WireFrame) {rest : List UInt8} {rs : List WsRecv} (close : f.IsClose) :
      HeadFrames (.bytes (f.render ++ rest) :: rs) []
  | none {chunk : List UInt8} {rs : List WsRecv} {payloads : List (List UInt8)}
      (some : chunk ≠ []) (none : ∀ f : WireFrame, ¬ f.render <+: chunk)
      (behind : HeadFrames rs payloads) : HeadFrames (.bytes chunk :: rs) payloads

/-! ## The decoder on a chunk -/

/-- The low seven bits of the second byte. -/
theorem toNat_low (c : UInt8) : (c &&& 0x7F).toNat = c.toNat % 128 := by
  rw [UInt8.toNat_and]
  exact Nat.and_two_pow_sub_one_eq_mod _ 7

/-- Its high bit. -/
theorem high_iff (c : UInt8) : (c >>> 7) &&& 0x01 = 1 ↔ 128 ≤ c.toNat := by
  have hhigh : ((c >>> 7) &&& 0x01).toNat = c.toNat / 128 % 2 := by
    rw [UInt8.toNat_and, UInt8.toNat_shiftRight]
    show c.toNat >>> 7 &&& (2 ^ 1 - 1) = _
    rw [Nat.and_two_pow_sub_one_eq_mod, Nat.shiftRight_eq_div_pow]
  have hlt := c.toNat_lt
  rw [← UInt8.toNat_inj, hhigh]
  show c.toNat / 128 % 2 = 1 ↔ _
  omega

/-- The length of a chunk is read where its length bytes are. -/
theorem parse_lengthBytes {first second : UInt8} {ext : List UInt8} {len : ℕ}
    (h : LengthBytes second ext len) (t : List UInt8) :
    parseWebSocketFrame (first :: second :: (ext ++ t)) (first :: second :: (ext ++ t)).length =
      wsPayload (first :: second :: (ext ++ t)) (first :: second :: (ext ++ t)).length
        (2 + ext.length) (decide (128 ≤ second.toNat)) len := by
  have hsecond : byteAt (first :: second :: (ext ++ t)) 1 = .ok second := rfl
  unfold parseWebSocketFrame
  rw [if_neg (by simp), hsecond, ok_bind]
  simp only [toNat_low, high_iff]
  obtain ⟨hlow, hshort, rfl⟩ | ⟨hlow, high, low, rfl, rfl⟩ := h
  · rw [if_neg (by omega), if_neg (by omega), hlow]
    rfl
  · rw [if_pos hlow, if_neg (by simp)]
    rfl

/-- The first two entries of a list. -/
theorem exists_pair {α : Type} {l : List α} (h : 2 ≤ l.length) : ∃ a b t, l = a :: b :: t := by
  rcases l with _ | ⟨a, _ | ⟨b, t⟩⟩
  · simp at h
  · simp at h
  · exact ⟨a, b, t, rfl⟩

/-- A chunk without length bytes is turned down. -/
theorem parse_short {chunk : List UInt8} (h : ∀ first second ext len t,
    LengthBytes second ext len → chunk ≠ first :: second :: (ext ++ t)) :
    parseWebSocketFrame chunk chunk.length = .ok (-1, none) := by
  unfold parseWebSocketFrame
  by_cases htwo : chunk.length < 2
  · rw [if_pos htwo]
  · obtain ⟨first, second, t, rfl⟩ := exists_pair (Nat.not_lt.mp htwo)
    have hsecond : byteAt (first :: second :: t) 1 = .ok second := rfl
    rw [if_neg htwo, hsecond, ok_bind]
    simp only [toNat_low]
    by_cases hmark : second.toNat % 128 = 126
    · rw [if_pos hmark]
      by_cases hfour : (first :: second :: t).length < 4
      · rw [if_pos hfour]
      · -- the two bytes are there, so these were length bytes
        obtain ⟨high, low, t, rfl⟩ : ∃ high low t', t = high :: low :: t' := by
          refine exists_pair ?_
          simp only [List.length_cons] at hfour
          omega
        exact absurd rfl (h first second [high, low] _ t (Or.inr ⟨hmark, high, low, rfl, rfl⟩))
    · rw [if_neg hmark]
      by_cases hlong : second.toNat % 128 = 127
      · rw [if_pos hlong]
      · have hlt : second.toNat % 128 < 126 := by omega
        exact absurd rfl (h first second [] _ t (Or.inl ⟨rfl, hlt, rfl⟩))

/-- Behind the length there is the frame, or too little for it. -/
theorem wsPayload_eq {first second : UInt8} {ext t : List UInt8} {len : ℕ} :
    wsPayload (first :: second :: (ext ++ t)) (first :: second :: (ext ++ t)).length
        (2 + ext.length) (decide (128 ≤ second.toNat)) len =
      if t.length < (if 128 ≤ second.toNat then 4 else 0) + len then .ok (-1, none)
      else if len = 2 ∧ first &&& 0x0F = 0x08 then .ok (-100, none)
      else .ok (0, some (if 128 ≤ second.toNat then wsMask (t.take 4) ((t.drop 4).take len)
        else t.take len)) := by
  have hlen : (first :: second :: (ext ++ t)).length = 2 + ext.length + t.length := by
    simp only [List.length_cons, List.length_append]
    omega
  have hfirst : byteAt (first :: second :: (ext ++ t)) 0 = .ok first := rfl
  have hdrop : ∀ k, (first :: second :: (ext ++ t)).drop (2 + ext.length + k) = t.drop k := by
    intro k
    rw [← List.drop_drop, ← List.drop_drop]
    show ((ext ++ t).drop ext.length).drop k = _
    rw [List.drop_left]
  unfold wsPayload wsTotalLength
  simp only [decide_eq_true_eq]
  rw [hlen]
  by_cases hfit : t.length < (if 128 ≤ second.toNat then 4 else 0) + len
  · rw [if_pos hfit, if_pos (by omega)]
  · rw [if_neg hfit, if_neg (by omega), hfirst, ok_bind]
    by_cases hclose : len = 2 ∧ first &&& 0x0F = 0x08
    · rw [if_pos hclose, if_pos hclose]
    · rw [if_neg hclose, if_neg hclose]
      have hzero := hdrop 0
      rw [Nat.add_zero, List.drop_zero] at hzero
      by_cases hmask : 128 ≤ second.toNat
      · rw [if_pos hmask] at hfit
        rw [if_pos hmask, if_pos hmask]
        unfold bytesAt
        rw [hlen, if_pos (by omega), ok_bind, if_pos (by omega), ok_bind, hzero, hdrop]
      · rw [if_neg hmask] at hfit
        rw [if_neg hmask, if_neg hmask]
        unfold bytesAt
        rw [hlen, if_pos (by omega), ok_bind, hzero]

/-- What the decoder makes of a frame. -/
def WireFrame.answer (f : WireFrame) : ℤ × Option (List UInt8) :=
  if f.IsClose then (-100, none) else (0, some f.payload)

/-- The decoder on a chunk that begins with a frame: what follows the frame does not matter. -/
theorem parse_render (f : WireFrame) (rest : List UInt8) :
    parseWebSocketFrame (f.render ++ rest) (f.render ++ rest).length = .ok f.answer := by
  have hrender : f.render ++ rest =
      f.first :: f.second :: (f.ext ++ (f.key ++ (f.data ++ rest))) := by
    simp [WireFrame.render]
  have hkey := f.length_key
  rw [hrender, parse_lengthBytes f.length_data, wsPayload_eq, if_neg]
  · -- the frame is there in full
    unfold WireFrame.answer
    by_cases hclose : f.IsClose
    · rw [if_pos hclose, if_pos (show f.data.length = 2 ∧ f.first &&& 0x0F = 0x08 from hclose)]
    · rw [if_neg hclose, if_neg (show ¬ (f.data.length = 2 ∧ f.first &&& 0x0F = 0x08) from hclose)]
      unfold WireFrame.payload
      by_cases hmask : 128 ≤ f.second.toNat
      · rw [if_pos hmask] at hkey
        rw [if_pos hmask, if_pos hmask, ← hkey, List.take_left, List.drop_left, List.take_left]
      · rw [if_neg hmask] at hkey
        rw [if_neg hmask, if_neg hmask, List.eq_nil_of_length_eq_zero hkey, List.nil_append,
          List.take_left]
  · simp only [List.length_append]
    omega

/-- A chunk begins with a frame, or the decoder turns it down. -/
theorem parse_cases (chunk : List UInt8) :
    (∃ (f : WireFrame) (rest : List UInt8), chunk = f.render ++ rest) ∨
      parseWebSocketFrame chunk chunk.length = .ok (-1, none) := by
  by_cases hhead : ∃ first second ext len t,
      LengthBytes second ext len ∧ chunk = first :: second :: (ext ++ t)
  · obtain ⟨first, second, ext, len, t, hbytes, rfl⟩ := hhead
    by_cases hfit : t.length < (if 128 ≤ second.toNat then 4 else 0) + len
    · right
      rw [parse_lengthBytes hbytes, wsPayload_eq, if_pos hfit]
    · left
      -- the key, if there is one, and as many bytes as the length says
      generalize hk : (if 128 ≤ second.toNat then 4 else 0) = k at hfit
      have hdata : ((t.drop k).take len).length = len := by
        rw [List.length_take, List.length_drop]
        omega
      refine ⟨⟨first, second, ext, t.take k, (t.drop k).take len, hdata.symm ▸ hbytes, ?_⟩,
        (t.drop k).drop len, ?_⟩
      · rw [hk, List.length_take]
        omega
      · simp [WireFrame.render, List.take_append_drop]
  · right
    refine parse_short fun first second ext len t hbytes heq => ?_
    exact hhead ⟨first, second, ext, len, t, hbytes, heq⟩

/-- No frame begins a chunk that the decoder turns down. -/
theorem parse_none {chunk : List UInt8} (h : ∀ f : WireFrame, ¬ f.render <+: chunk) :
    parseWebSocketFrame chunk chunk.length = .ok (-1, none) := by
  refine (parse_cases chunk).resolve_left ?_
  rintro ⟨f, rest, rfl⟩
  exact h f (List.prefix_append _ _)

/-- The answer tells a close frame. -/
theorem WireFrame.answer_of_close {f : WireFrame} (h : f.IsClose) : f.answer = (-100, none) :=
  if_pos h

@[inherit_doc WireFrame.answer_of_close]
theorem WireFrame.answer_of_not_close {f : WireFrame} (h : ¬ f.IsClose) :
    f.answer = (0, some f.payload) :=
  if_neg h

/-! ## The loop on a read -/

/-- A read of bytes, by what the decoder makes of them. -/
theorem wsLoop_bytes {chunk : List UInt8} (hsome : chunk ≠ []) {result : ℤ}
    {payload : Option (List UInt8)}
    (hparse : parseWebSocketFrame chunk chunk.length = .ok (result, payload)) (rs : List WsRecv) :
    wsLoop (.bytes chunk :: rs) =
      if result = 0 then (wsLoop rs).map fun out =>
        (payload.toList ++ out.1, (.bytes chunk, chunk.length) :: out.2)
      else if result = -100 then .ok ([], [(.bytes chunk, chunk.length)])
      else (wsLoop rs).map fun out => (out.1, (.bytes chunk, chunk.length) :: out.2) := by
  have hlen : (WsRecv.bytes chunk).dataLength ≠ 0 :=
    fun h0 => hsome (List.eq_nil_of_length_eq_zero h0)
  rw [wsLoop, if_neg hlen]
  show (parseWebSocketFrame chunk chunk.length >>= _) = _
  rw [hparse]
  rfl

/-- A read that goes on is one more call, and the payload it adds. -/
theorem wsSurvives_of_map {chunk : List UInt8} {rs : List WsRecv} {added : List (List UInt8)}
    (hloop : wsLoop (.bytes chunk :: rs) = (wsLoop rs).map fun out =>
      (added ++ out.1, (.bytes chunk, chunk.length) :: out.2)) (payloads : List (List UInt8)) :
    WsSurvives payloads (.bytes chunk :: rs) ↔
      ∃ payloads', payloads = added ++ payloads' ∧ WsSurvives payloads' rs := by
  unfold WsSurvives
  rw [hloop]
  constructor
  · rintro ⟨calls, hmap, hcalls⟩
    obtain ⟨⟨payloads', calls'⟩, hrest, heq⟩ := exists_of_map hmap
    cases heq
    exact ⟨payloads', rfl, calls', hrest, fun call hcall =>
      hcalls call (List.mem_cons_of_mem _ hcall)⟩
  · rintro ⟨payloads', rfl, calls, hrest, hcalls⟩
    refine ⟨(.bytes chunk, chunk.length) :: calls, by rw [hrest]; rfl, fun call hcall => ?_⟩
    rcases List.mem_cons.mp hcall with rfl | hcall
    · exact ⟨chunk, rfl, rfl⟩
    · exact hcalls call hcall

/-- A read of a chunk that is parsed to nothing. -/
theorem wsSurvives_skip {chunk : List UInt8} {rs : List WsRecv} {payloads : List (List UInt8)}
    (hsome : chunk ≠ []) (hparse : parseWebSocketFrame chunk chunk.length = .ok (-1, none)) :
    WsSurvives payloads (.bytes chunk :: rs) ↔ WsSurvives payloads rs := by
  have hloop := wsLoop_bytes hsome hparse rs
  rw [if_neg (by decide), if_neg (by decide)] at hloop
  rw [@wsSurvives_of_map _ _ [] hloop]
  constructor
  · rintro ⟨_, rfl, hrest⟩
    exact hrest
  · intro hrest
    exact ⟨payloads, rfl, hrest⟩

theorem WireFrame.append_ne_nil (f : WireFrame) (rest : List UInt8) : f.render ++ rest ≠ [] := by
  simp [render]

/-- A read that begins with a frame. -/
theorem wsSurvives_frame {f : WireFrame} (hopen : ¬ f.IsClose) {rest : List UInt8}
    {rs : List WsRecv} {payloads : List (List UInt8)} :
    WsSurvives payloads (.bytes (f.render ++ rest) :: rs) ↔
      ∃ payloads', payloads = f.payload :: payloads' ∧ WsSurvives payloads' rs := by
  have hparse := parse_render f rest
  rw [f.answer_of_not_close hopen] at hparse
  have hloop := wsLoop_bytes (f.append_ne_nil rest) hparse rs
  rw [if_pos rfl] at hloop
  exact @wsSurvives_of_map _ _ [f.payload] hloop payloads

/-- A read that begins with a close frame ends the loop. -/
theorem wsSurvives_close {f : WireFrame} (hclose : f.IsClose) {rest : List UInt8}
    {rs : List WsRecv} {payloads : List (List UInt8)} :
    WsSurvives payloads (.bytes (f.render ++ rest) :: rs) ↔ payloads = [] := by
  have hparse := parse_render f rest
  rw [f.answer_of_close hclose] at hparse
  have hloop := wsLoop_bytes (f.append_ne_nil rest) hparse rs
  rw [if_neg (by decide), if_pos rfl] at hloop
  unfold WsSurvives
  rw [hloop]
  constructor
  · rintro ⟨calls, heq, -⟩
    cases heq
    rfl
  · rintro rfl
    refine ⟨_, rfl, fun call hcall => ?_⟩
    obtain rfl := List.mem_singleton.mp hcall
    exact ⟨_, rfl, rfl⟩

/-- A failed read is parsed all the same, with a length of its own. -/
theorem not_wsSurvives_failed {data : List UInt8} {rs : List WsRecv}
    {payloads : List (List UInt8)} : ¬ WsSurvives payloads (.failed data :: rs) := by
  rintro ⟨calls, hloop, hcalls⟩
  have hmem : (WsRecv.failed data, 2 ^ 64 - 1) ∈ calls := by
    rw [wsLoop, if_neg (by show (2 : ℕ) ^ 64 - 1 ≠ 0; norm_num)] at hloop
    obtain ⟨⟨result, payload⟩, -, hloop⟩ := exists_of_bind hloop
    dsimp only at hloop
    split at hloop
    · obtain ⟨out, -, heq⟩ := exists_of_map hloop
      cases heq
      exact List.mem_cons_self
    · split at hloop
      · cases hloop
        exact List.mem_cons_self
      · obtain ⟨out, -, heq⟩ := exists_of_map hloop
        cases heq
        exact List.mem_cons_self
  obtain ⟨chunk, hchunk, -⟩ := hcalls _ hmem
  cases hchunk

/-- For every sequence of frames and of reads: the loop hands out the payloads of the frames,
and parses nothing but what was read, exactly if the reads begin with frames of these
payloads. -/
theorem wsSurvives_iff (frames : List WsFrame) (recvs : List WsRecv) :
    WsSurvives (frames.map WsFrame.payload) recvs ↔
      HeadFrames recvs (frames.map WsFrame.payload) := by
  generalize frames.map WsFrame.payload = payloads
  induction recvs generalizing payloads with
  | nil =>
      constructor
      · rintro ⟨calls, hloop, -⟩
        cases hloop
        exact .nil
      · rintro ⟨⟩
        exact ⟨[], rfl, by simp⟩
  | cons r rs ih =>
      cases r with
      | failed data =>
          constructor
          · intro h
            exact absurd h not_wsSurvives_failed
          · rintro ⟨⟩
      | bytes chunk =>
          constructor
          · intro h
            by_cases hsome : chunk = []
            · subst hsome
              obtain ⟨calls, hloop, -⟩ := h
              cases hloop
              exact .closed
            · -- the read begins with a frame, or is parsed to nothing
              rcases parse_cases chunk with ⟨f, rest, rfl⟩ | hparse
              · by_cases hclose : f.IsClose
                · obtain rfl := (wsSurvives_close hclose).mp h
                  exact .close f hclose
                · obtain ⟨payloads', rfl, hrest⟩ := (wsSurvives_frame hclose).mp h
                  exact .data f hclose ((ih _).mp hrest)
              · refine .none hsome ?_ ((ih _).mp ((wsSurvives_skip hsome hparse).mp h))
                rintro f ⟨rest, rfl⟩
                rw [parse_render] at hparse
                by_cases hclose : f.IsClose
                · rw [f.answer_of_close hclose] at hparse
                  cases hparse
                · rw [f.answer_of_not_close hclose] at hparse
                  cases hparse
          · intro h
            cases h with
            | closed => exact ⟨[], rfl, by simp⟩
            | data f hopen hbehind =>
                exact (wsSurvives_frame hopen).mpr ⟨_, rfl, (ih _).mpr hbehind⟩
            | close f hclose => exact (wsSurvives_close hclose).mpr rfl
            | none hsome hnone hbehind =>
                exact (wsSurvives_skip hsome (parse_none hnone)).mpr ((ih _).mpr hbehind)

/-- Reads that return one whole frame each, and behind them a read that ends the loop, or none:
these begin with the frames that were sent. -/
theorem headFrames_whole (frames : List WsFrame) {ending : List WsRecv}
    (hend : HeadFrames ending []) :
    HeadFrames (frames.map (fun f => .bytes f.render) ++ ending) (frames.map WsFrame.payload) := by
  induction frames with
  | nil => exact hend
  | cons f fs ih =>
      have hparse := parseWebSocketFrame_render f
      rcases parse_cases f.render with ⟨g, rest, heq⟩ | hnone
      · -- the decoder makes the same of the frame on the wire as of the frame
        rw [heq, parse_render] at hparse
        have hopen : ¬ g.IsClose := by
          intro hclose
          rw [g.answer_of_close hclose] at hparse
          cases hparse
        rw [g.answer_of_not_close hopen] at hparse
        have hpayload : g.payload = f.payload := by
          simpa using hparse
        simp only [List.map_cons, List.cons_append]
        rw [heq, ← hpayload]
        exact .data g hopen ih
      · rw [hnone] at hparse
        cases hparse

/-- A text frame of one byte. -/
def wsByteFrame (b : UInt8) : WsFrame := wsTextFrame [b] (by simp)

/-- Two frames in one read: the second is lost. -/
theorem not_wsSurvives_coalesced :
    ¬∀ (frames : List WsFrame) (chunks : List (List UInt8)),
      (∀ chunk ∈ chunks, 1 ≤ chunk.length ∧ chunk.length ≤ 1024) →
        chunks.flatten = (frames.map WsFrame.render).flatten →
          WsSurvives (frames.map WsFrame.payload) (chunks.map WsRecv.bytes) := by
  intro h
  obtain ⟨calls, hloop, -⟩ := h [wsByteFrame 97, wsByteFrame 98]
    [(wsByteFrame 97).render ++ (wsByteFrame 98).render] (by decide) (by decide)
  have hone : wsLoop [.bytes [129, 1, 97, 129, 1, 98]] =
      .ok ([[97]], [(.bytes [129, 1, 97, 129, 1, 98], 6)]) := by
    rfl
  rw [show [(wsByteFrame 97).render ++ (wsByteFrame 98).render].map WsRecv.bytes =
    [.bytes [129, 1, 97, 129, 1, 98]] from rfl, hone] at hloop
  simp [wsByteFrame, wsTextFrame] at hloop
