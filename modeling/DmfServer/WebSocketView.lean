/-
# A WebSocket connection

`upto_ws_prot` from its beginning to its end, as the view `wsfunc` calls it: the answer to the key
of the request, a greeting, and then a greeting behind every frame until the client hangs up or
closes.  SHA-1 is any function, and the memory behind the array of its digest holds anything.

`ws_connection_iff`: a client that asks for the view and sends its frames one by one, each of them
read by one `recv`, is given the answer that it waits for and a greeting for every frame, its
payloads are printed, and the socket is closed once, exactly if the names and values of its request
have room where the parser copies them, the key has room in its array, the digest has no zero byte
in it, and a zero byte stands behind it.  A block of 24 bytes from `malloc` can be full to its
end, and the keys of browsers have 24 characters.
-/
import DmfServer.WebSocketHandshake
import DmfServer.WebSocketFrames
import DmfServer.WebSite

open CMem Ascii

/-! ## The view -/

/-- What is done with a connection: `send`, `printf` of a payload, and `close_socket`. -/
inductive WsAct : Type where
  | send (bytes : List UInt8) : WsAct
  | printed (payload : List UInt8) : WsAct
  | closed : WsAct
  deriving DecidableEq

/-- SHA-1 of `libcrypto`, and what is in memory behind the array of a digest. -/
structure WsWorld where
  sha1 : List UInt8 → List UInt8
  behind : List UInt8

/-- The text that is put behind every key. -/
def wsGuid : List UInt8 := bytes "258EAFA5-E914-47DA-95CA-C5AB0DC85B11"

/-- `message`. -/
def wsMessage : List UInt8 := bytes "Hello, WebSocket!"

/-- `req_get_ws_key`. -/
def reqGetWsKey (req : Request) (wsKey : Block 128) : Except Fault (Block 128) :=
  match hashmapGet req.params (bytes "Sec-WebSocket-Key") with
  | some data => wsKey.strcpy 0 data
  | none => .ok wsKey

/-- The loop of `upto_ws_prot`, for what its calls of `recv` do. -/
def wsTurns : List WsRecv → Except Fault (List WsAct)
  | [] => .ok []
  | r :: rs =>
      if r.dataLength = 0 then .ok [.closed]
      else do
        let (result, payload) ← parseWebSocketFrame r.data r.dataLength
        let frame ← sendWebSocketFrame wsMessage
        if result = 0 then do
          let acts ← wsTurns rs
          .ok (payload.toList.map .printed ++ .send frame :: acts)
        else if result = -100 then .ok [.send frame, .closed]
        else do
          let acts ← wsTurns rs
          .ok (.send frame :: acts)

/-- `upto_ws_prot`. -/
def uptoWsProt (w : WsWorld) (key : Block 128) (recvs : List WsRecv) :
    Except Fault (List WsAct) := do
  let key ← key.strcat 0 wsGuid
  let sText ← key.readStr 0
  let res ← wsAnswer (w.sha1 sText) w.behind
  let frame ← sendWebSocketFrame wsMessage
  let acts ← wsTurns recvs
  .ok (.send res :: .send frame :: acts)

/-- `wsfunc`. -/
def wsfunc (w : WsWorld) (req : Request) (recvs : List WsRecv) : Except Fault (List WsAct) := do
  let key ← reqGetWsKey req (Block.zero 128)
  uptoWsProt w key recvs

/-- `epoll_handle` with what it has received first, if that leads to the view; `recvs` is what the
view then gets from `recv`. -/
def wsConnection (junk : ℕ → PartJunk) (now : Tm) (pid : ℤ) (spare : SpareByte)
    (g : CtlFunMap Unit) (files : FileList) (w : WsWorld) (mem : RequestMem)
    (resStr : List UInt8) (recvs : List WsRecv) : Except Fault (List WsAct) := do
  let request ← epollReceive junk now pid spare (reqParseInit mem) resStr
  match ← routerHandle g files request with
  | .view () => wsfunc w request recvs
  | .static _ | .notfound => .ok [] -- the response module answers

/-- What `RouterAdd(ws)` registers. -/
def wsApp : App Unit where
  cf := [()]
  keys := [bytes "/ws"]
  name := bytes "ws"
  same_length := rfl
  name_text := by decide
  keys_text := by decide
  route_length := by decide

/-! ## A client -/

namespace WsClient

/-- A payload, with what is in front of it and behind it. -/
def payload (first : UInt8) (len : ℕ) (rest : List UInt8) :
    Option (UInt8 × List UInt8 × List UInt8) :=
  if len ≤ rest.length then some (first, rest.take len, rest.drop len) else none

/-- A payload behind its length in sixteen bits. -/
def widePayload (first : UInt8) : List UInt8 → Option (UInt8 × List UInt8 × List UInt8)
  | high :: low :: rest => payload first (high.toNat * 256 + low.toNat) rest
  | _ => none

/-- A frame of a server, which is not masked: its first byte, its payload, and what follows. -/
def frame : List UInt8 → Option (UInt8 × List UInt8 × List UInt8)
  | first :: second :: rest =>
      if second.toNat < 126 then payload first second.toNat rest
      else if second.toNat = 126 then widePayload first rest
      else none
  | _ => none

/-- The bytes are whole text messages. -/
inductive Reads : List UInt8 → List (List UInt8) → Prop where
  | nil : Reads [] []
  | text {s m rest : List UInt8} {ms : List (List UInt8)} : frame s = some (0x81, m, rest) →
      Reads rest ms → Reads s (m :: ms)

/-- The client is taken over to the other protocol, with this value for its key, and reads these
messages. -/
def Accepts (s accept : List UInt8) (messages : List (List UInt8)) : Prop :=
  ∃ ls rest, Http.headLines s = some (ls, rest) ∧
    ls.head? = some (bytes "HTTP/1.1 101 Switching Protocols") ∧
    Http.field (bytes "Upgrade") ls = some (bytes "websocket") ∧
    Http.field (bytes "Connection") ls = some (bytes "Upgrade") ∧
    Http.field (bytes "Sec-WebSocket-Accept") ls = some accept ∧ Reads rest messages

/-- How a client ends a connection. -/
inductive Ending : Type where
  | hangsUp : Ending
  | closes (f : ClientFrame) (hclose : f.wire.IsClose) : Ending

/-- What the last call of `recv` returns. -/
def Ending.recv : Ending → WsRecv
  | .hangsUp => .bytes []
  | .closes f _ => .bytes f.render

/-- What is done then. -/
def Ending.acts : Ending → List WsAct
  | .hangsUp => [.closed]
  | .closes _ _ => [.send (wsTextFrame wsMessage (by decide)).render, .closed]

/-- The client is greeted for its close frame as well. -/
def Ending.greetings : Ending → ℕ
  | .hangsUp => 0
  | .closes _ _ => 1

end WsClient

/-- What a client sends once the connection is open: frames that have room in `data`, each of them
read by one `recv`, and an ending. -/
structure WsTalk where
  frames : List ClientFrame
  ending : WsClient.Ending
  open_frames : ∀ f ∈ frames, ¬ f.wire.IsClose
  frames_length : ∀ f ∈ frames, f.render.length ≤ 1024

/-- What the calls of `recv` return. -/
def WsTalk.recvs (t : WsTalk) : List WsRecv :=
  t.frames.map (fun f => .bytes f.render) ++ [t.ending.recv]

/-- How often the client is greeted: at the start, and for each frame. -/
def WsTalk.greetings (t : WsTalk) : ℕ :=
  1 + t.frames.length + t.ending.greetings

/-- The bytes that are sent. -/
def wsSent (acts : List WsAct) : List UInt8 :=
  acts.flatMap fun
    | .send bytes => bytes
    | _ => []

/-- The payloads that are printed. -/
def wsPrinted (acts : List WsAct) : List (List UInt8) :=
  acts.filterMap fun
    | .printed payload => some payload
    | _ => none

/-- The client's value comes, and its greetings; its payloads are printed, and the socket is closed
once, behind everything else. -/
def WsServed (run : Except Fault (List WsAct)) (accept : List UInt8) (t : WsTalk) : Prop :=
  ∃ acts, run = .ok acts ∧
    WsClient.Accepts (wsSent acts) accept (List.replicate t.greetings wsMessage) ∧
    wsPrinted acts = t.frames.map ClientFrame.payload ∧
    ∃ front, acts = front ++ [.closed] ∧ .closed ∉ front

/-! ## The turns of the loop -/

/-- The frame of every greeting. -/
abbrev greetingFrame : List UInt8 := (wsTextFrame wsMessage (by decide)).render

theorem sendWebSocketFrame_wsMessage : sendWebSocketFrame wsMessage = .ok greetingFrame :=
  sendWebSocketFrame_eq _

/-- A turn for a frame that is there in full. -/
theorem wsTurns_frame (f : ClientFrame) (rs : List WsRecv) :
    wsTurns (.bytes f.render :: rs) =
      if f.wire.IsClose then .ok [.send greetingFrame, .closed]
      else (wsTurns rs).map fun acts => .printed f.payload :: .send greetingFrame :: acts := by
  have hsome : (WsRecv.bytes f.render).dataLength ≠ 0 := Nat.succ_ne_zero _
  have hparse := parse_render f.wire []
  rw [List.append_nil] at hparse
  have hparse' : parseWebSocketFrame (WsRecv.bytes f.render).data
      (WsRecv.bytes f.render).dataLength = .ok f.wire.answer := hparse
  rw [wsTurns, if_neg hsome, hparse', ok_bind, sendWebSocketFrame_wsMessage]
  by_cases hclose : f.wire.IsClose
  · rw [f.wire.answer_of_close hclose, if_pos hclose]
    rfl
  · rw [f.wire.answer_of_not_close hclose, if_neg hclose, f.payload_wire]
    cases wsTurns rs <;> rfl

theorem wsTurns_ending (ending : WsClient.Ending) : wsTurns [ending.recv] = .ok ending.acts := by
  cases ending with
  | hangsUp => rfl
  | closes f hclose =>
      rw [WsClient.Ending.recv, wsTurns_frame, if_pos hclose]
      rfl

theorem wsTurns_frames {frames : List ClientFrame} (hopen : ∀ f ∈ frames, ¬ f.wire.IsClose)
    (ending : WsClient.Ending) :
    wsTurns (frames.map (fun f => .bytes f.render) ++ [ending.recv]) = .ok
      (frames.flatMap (fun f => [.printed f.payload, .send greetingFrame]) ++ ending.acts) := by
  induction frames with
  | nil => exact wsTurns_ending ending
  | cons f fs ih =>
      obtain ⟨hf, hfs⟩ := List.forall_mem_cons.mp hopen
      rw [List.map_cons, List.cons_append, wsTurns_frame, if_neg hf, ih hfs]
      rfl

/-! ## The greetings -/

theorem frame_greetingFrame (rest : List UInt8) :
    WsClient.frame (greetingFrame ++ rest) = some (0x81, wsMessage, rest) := by
  have hframe : greetingFrame = 0x81 :: 17 :: wsMessage := by decide
  have hlen : wsMessage.length = (17 : UInt8).toNat := by decide
  have hshort : (17 : UInt8).toNat < 126 := by decide
  have hroom : wsMessage.length ≤ (wsMessage ++ rest).length := by
    rw [List.length_append]
    exact Nat.le_add_right _ _
  rw [hframe, List.cons_append, List.cons_append, WsClient.frame, if_pos hshort, ← hlen,
    WsClient.payload, if_pos hroom, List.take_left, List.drop_left]

theorem reads_greetings (n : ℕ) :
    WsClient.Reads (List.replicate n greetingFrame).flatten (List.replicate n wsMessage) := by
  induction n with
  | zero => exact .nil
  | succ n ih =>
      rw [List.replicate_succ, List.replicate_succ, List.flatten_cons]
      exact .text (frame_greetingFrame _) ih

theorem wsSent_append (acts acts' : List WsAct) :
    wsSent (acts ++ acts') = wsSent acts ++ wsSent acts' := List.flatMap_append

theorem wsPrinted_append (acts acts' : List WsAct) :
    wsPrinted (acts ++ acts') = wsPrinted acts ++ wsPrinted acts' := List.filterMap_append

/-- What the turns send and print. -/
theorem frames_acts (frames : List ClientFrame) :
    wsSent (frames.flatMap fun f => [.printed f.payload, .send greetingFrame])
        = (List.replicate frames.length greetingFrame).flatten ∧
      wsPrinted (frames.flatMap fun f => [.printed f.payload, .send greetingFrame])
        = frames.map ClientFrame.payload ∧
      .closed ∉ frames.flatMap fun f => [WsAct.printed f.payload, .send greetingFrame] := by
  induction frames with
  | nil => exact ⟨rfl, rfl, List.not_mem_nil⟩
  | cons f fs ih =>
      obtain ⟨hsent, hprinted, hclosed⟩ := ih
      rw [List.flatMap_cons]
      refine ⟨?_, ?_, ?_⟩
      · rw [wsSent_append, hsent, List.length_cons, List.replicate_succ, List.flatten_cons]
        rfl
      · rw [wsPrinted_append, hprinted]
        rfl
      · rw [List.mem_append, not_or]
        exact ⟨by simp, hclosed⟩

theorem ending_acts (ending : WsClient.Ending) : ∃ front, ending.acts = front ++ [.closed] ∧
    .closed ∉ front ∧ wsPrinted ending.acts = [] ∧
    wsSent ending.acts = (List.replicate ending.greetings greetingFrame).flatten := by
  cases ending with
  | hangsUp => exact ⟨[], rfl, List.not_mem_nil, rfl, rfl⟩
  | closes f hclose => exact ⟨[.send greetingFrame], rfl, by simp, rfl, rfl⟩

/-- What a talk sends and prints, and how it ends. -/
theorem talk_acts (t : WsTalk) (res : List UInt8) :
    ∃ acts, wsTurns t.recvs = .ok acts ∧
      wsSent (.send res :: .send greetingFrame :: acts)
        = res ++ (List.replicate t.greetings greetingFrame).flatten ∧
      wsPrinted (.send res :: .send greetingFrame :: acts) = t.frames.map ClientFrame.payload ∧
      ∃ front, .send res :: .send greetingFrame :: acts = front ++ [.closed] ∧
        .closed ∉ front := by
  obtain ⟨hsent, hprinted, hclosed⟩ := frames_acts t.frames
  obtain ⟨front, hend, hfront, hendPrinted, hendSent⟩ := ending_acts t.ending
  refine ⟨_, wsTurns_frames t.open_frames t.ending, ?_, ?_, ?_⟩
  · show res ++ (greetingFrame ++ wsSent _) = _
    rw [wsSent_append, hsent, hendSent, ← List.flatten_append, ← List.replicate_add,
      ← List.flatten_cons, ← List.replicate_succ, WsTalk.greetings, Nat.add_right_comm,
      Nat.add_comm 1, Nat.add_right_comm]
  · show wsPrinted (t.frames.flatMap (fun f => [.printed f.payload, .send greetingFrame])
      ++ t.ending.acts) = _
    rw [wsPrinted_append, hprinted, hendPrinted, List.append_nil]
  · refine ⟨.send res :: .send greetingFrame :: (t.frames.flatMap
      (fun f => [.printed f.payload, .send greetingFrame]) ++ front), ?_, ?_⟩
    · rw [hend, List.cons_append, List.cons_append, List.append_assoc]
    · simp only [List.mem_cons, List.mem_append, reduceCtorEq, false_or, not_or]
      exact ⟨hclosed, hfront⟩

/-! ## The answer -/

/-- The lines of the answer. -/
def wsLines (value : List UInt8) : List (List UInt8) :=
  [bytes "HTTP/1.1 101 Switching Protocols", bytes "Upgrade: websocket",
    bytes "Connection: Upgrade", bytes "Sec-WebSocket-Accept: " ++ value]

/-- The answer with this value. -/
def wsAnswerText (value : List UInt8) : List UInt8 :=
  wsAnswerHead.flatten ++ value ++ bytes "\r\n\r\n"

/-- No digit ends a line, or is a blank. -/
theorem digit_plain (n : ℕ) : Base64.digit n ≠ 13 ∧ Base64.digit n ≠ 32 ∧ Base64.digit n ≠ 9 := by
  have hall : ∀ c ∈ Base64.alphabet, c ≠ 13 ∧ c ≠ 32 ∧ c ≠ 9 := by decide
  by_cases hn : n < Base64.alphabet.length
  · rw [Base64.digit, List.getD_eq_getElem?_getD, List.getElem?_eq_getElem hn, Option.getD_some]
    exact hall _ (List.getElem_mem hn)
  · rw [Base64.digit, List.getD_eq_getElem?_getD, List.getElem?_eq_none (Nat.le_of_not_lt hn)]
    decide

theorem encode_plain (s : List UInt8) : ∀ c ∈ Base64.encode s, c ≠ 13 ∧ c ≠ 32 ∧ c ≠ 9 := by
  have hpad : Base64.pad ≠ 13 ∧ Base64.pad ≠ 32 ∧ Base64.pad ≠ 9 := by decide
  induction s using Base64.encode.induct with
  | case1 => exact List.forall_mem_nil _
  | case2 a =>
      rw [Base64.encode]
      simp only [List.forall_mem_cons]
      exact ⟨digit_plain _, digit_plain _, hpad, hpad, List.forall_mem_nil _⟩
  | case3 a b =>
      rw [Base64.encode]
      simp only [List.forall_mem_cons]
      exact ⟨digit_plain _, digit_plain _, digit_plain _, hpad, List.forall_mem_nil _⟩
  | case4 a b c rest ih =>
      rw [Base64.encode]
      simp only [List.forall_mem_cons]
      exact ⟨digit_plain _, digit_plain _, digit_plain _, digit_plain _, ih⟩

section
variable (s : List UInt8)

/-- The head is read up to the empty line. -/
theorem headLines_wsAnswerText (rest : List UInt8) :
    Http.headLines (wsAnswerText (Base64.encode s) ++ rest)
      = some (wsLines (Base64.encode s), rest) := by
  have hlines : ∀ l ∈ wsLines (Base64.encode s), l ≠ [] ∧ 13 ∉ l := by
    have hfirst : ∀ l ∈ [bytes "HTTP/1.1 101 Switching Protocols", bytes "Upgrade: websocket",
        bytes "Connection: Upgrade"], l ≠ [] ∧ 13 ∉ l := by decide
    intro l hl
    rcases List.mem_append.mp (show l ∈ [bytes "HTTP/1.1 101 Switching Protocols",
      bytes "Upgrade: websocket", bytes "Connection: Upgrade"] ++
        [bytes "Sec-WebSocket-Accept: " ++ Base64.encode s] from hl) with hl | hl
    · exact hfirst l hl
    · rw [List.mem_singleton.mp hl, List.mem_append, not_or]
      refine ⟨List.append_ne_nil_of_left_ne_nil (by decide) _, by decide, ?_⟩
      intro hcr
      exact (encode_plain s 13 hcr).1 rfl
  have htext : wsAnswerText (Base64.encode s) ++ rest
      = ((wsLines (Base64.encode s)).map (· ++ Http.crlf)).flatten ++ (Http.crlf ++ rest) := by
    have hhead : wsAnswerHead.flatten = bytes "HTTP/1.1 101 Switching Protocols" ++ Http.crlf ++
        (bytes "Upgrade: websocket" ++ Http.crlf) ++ (bytes "Connection: Upgrade" ++ Http.crlf) ++
        bytes "Sec-WebSocket-Accept: " := by decide
    have hend : bytes "\r\n\r\n" = Http.crlf ++ Http.crlf := by decide
    rw [wsAnswerText, hhead, hend, wsLines]
    simp only [List.map_cons, List.map_nil, List.flatten_cons, List.flatten_nil,
      List.append_assoc, List.append_nil]
  rw [htext, Http.headLines_eq hlines]

/-- The value is read back, as the other fields are. -/
theorem field_wsLines :
    Http.field (bytes "Upgrade") (wsLines (Base64.encode s)) = some (bytes "websocket") ∧
      Http.field (bytes "Connection") (wsLines (Base64.encode s)) = some (bytes "Upgrade") ∧
      Http.field (bytes "Sec-WebSocket-Accept") (wsLines (Base64.encode s))
        = some (Base64.encode s) := by
  have hother : ∀ l ∈ [bytes "HTTP/1.1 101 Switching Protocols", bytes "Upgrade: websocket",
      bytes "Connection: Upgrade"], Http.fieldValue (bytes "Sec-WebSocket-Accept") l = none := by
    decide
  have hstatus : Http.fieldValue (bytes "Upgrade") (bytes "HTTP/1.1 101 Switching Protocols") = none
      ∧ Http.fieldValue (bytes "Connection") (bytes "HTTP/1.1 101 Switching Protocols") = none ∧
      Http.fieldValue (bytes "Connection") (bytes "Upgrade: websocket") = none := by decide
  have hupgrade : Http.fieldValue (bytes "Upgrade") (bytes "Upgrade: websocket")
      = some (bytes "websocket") := by decide
  have hconnection : Http.fieldValue (bytes "Connection") (bytes "Connection: Upgrade")
      = some (bytes "Upgrade") := by decide
  have hname : bytes "Sec-WebSocket-Accept: " = bytes "Sec-WebSocket-Accept" ++ [58, 32] := by
    decide
  have hvalue : Http.fieldValue (bytes "Sec-WebSocket-Accept")
      (bytes "Sec-WebSocket-Accept: " ++ Base64.encode s) = some (Base64.encode s) := by
    rw [hname, List.append_assoc]
    refine Http.fieldValue_eq (by decide) ?_
    intro c hc hblank
    obtain ⟨-, hspace, htab⟩ := encode_plain s c hc
    rcases of_decide_eq_true hblank with rfl | rfl
    · exact hspace rfl
    · exact htab rfl
  refine ⟨?_, ?_, ?_⟩
  · rw [wsLines, Http.field, List.findSome?_cons, hstatus.1, List.findSome?_cons, hupgrade]
  · rw [wsLines, Http.field, List.findSome?_cons, hstatus.2.1, List.findSome?_cons, hstatus.2.2,
      List.findSome?_cons, hconnection]
  · rw [wsLines, Http.field, List.findSome?_cons, hother _ (by decide), List.findSome?_cons,
      hother _ (by decide), List.findSome?_cons, hother _ (by decide), List.findSome?_cons, hvalue]

/-- The client accepts an answer exactly if it waits for its value. -/
theorem accepts_wsAnswerText_iff (accept : List UInt8) (n : ℕ) :
    WsClient.Accepts (wsAnswerText (Base64.encode s) ++ (List.replicate n greetingFrame).flatten)
      accept (List.replicate n wsMessage) ↔ accept = Base64.encode s := by
  obtain ⟨hupgrade, hconnection, hvalue⟩ := field_wsLines s
  constructor
  · rintro ⟨ls, rest, hhead, -, -, -, haccept, -⟩
    rw [headLines_wsAnswerText] at hhead
    cases hhead
    rw [hvalue] at haccept
    exact (Option.some.inj haccept).symm
  · rintro rfl
    exact ⟨_, _, headLines_wsAnswerText s _, rfl, hupgrade, hconnection, hvalue,
      reads_greetings n⟩

end

/-- The answer has the value that is made of the digest. -/
theorem wsAnswer_ok {sSHA after res : List UInt8} (hlen : sSHA.length = 20)
    (h : wsAnswer sSHA after = .ok res) : ∃ s, wsAccept sSHA after = .ok (Base64.encode s) ∧
      res = wsAnswerText (Base64.encode s) := by
  obtain ⟨value, hvalue, hrest⟩ := exists_of_bind h
  obtain ⟨s, -, -, -, rfl, -⟩ := base64Encode_ok ((wsAccept_eq hlen after).symm.trans hvalue)
  refine ⟨s, hvalue, ?_⟩
  have htexts : ∀ t ∈ wsAnswerHead ++ [Base64.encode s, bytes "\r\n", bytes "\r\n"],
      IsText t := by
    have hhead : ∀ t ∈ wsAnswerHead, IsText t := by decide
    intro t ht
    rcases List.mem_append.mp ht with ht | ht
    · exact hhead t ht
    · simp only [List.mem_cons, List.not_mem_nil, or_false] at ht
      rcases ht with rfl | rfl | rfl
      · exact Base64.isText_encode s
      · decide
      · decide
  have hflat : (wsAnswerHead ++ [Base64.encode s, bytes "\r\n", bytes "\r\n"]).flatten
      = wsAnswerText (Base64.encode s) := by
    rw [List.flatten_append]
    simp only [List.flatten_cons, List.flatten_nil, List.append_nil, wsAnswerText,
      List.append_assoc]
    rfl
  obtain ⟨b, hcat, hread⟩ := exists_of_bind hrest
  rw [← hflat, ← Block.str_catAll htexts hcat]
  exact (Block.readStr_eq_ok_iff.mp hread).2.symm

/-! ## The key -/

section
variable {request : Request} {key : List UInt8}
  (hget : (hashmapGet request.params (bytes "Sec-WebSocket-Key")).getD [] = key) (hkey : IsText key)
include hget hkey

theorem str_reqGetWsKey {wsKey : Block 128}
    (hrun : reqGetWsKey request (Block.zero 128) = .ok wsKey) : wsKey.str 0 = key := by
  rw [reqGetWsKey] at hrun
  cases hparam : hashmapGet request.params (bytes "Sec-WebSocket-Key") with
  | none =>
      rw [hparam] at hrun hget
      cases hrun
      rw [Block.str_zero, ← hget]
      rfl
  | some data =>
      rw [hparam] at hrun hget
      obtain rfl : data = key := hget
      exact Block.str_strcpy_self hkey hrun

theorem exists_reqGetWsKey (hroom : key.length ≤ 127) :
    ∃ wsKey, reqGetWsKey request (Block.zero 128) = .ok wsKey := by
  rw [reqGetWsKey]
  cases hparam : hashmapGet request.params (bytes "Sec-WebSocket-Key") with
  | none => exact ⟨_, rfl⟩
  | some data =>
      rw [hparam] at hget
      obtain rfl : data = key := hget
      exact Block.strcpy_eq_ok (by omega)

/-- The key is hashed with the text behind it, when both have room. -/
theorem wsfunc_eq (hroom : key.length ≤ 91) (w : WsWorld) (recvs : List WsRecv) :
    wsfunc w request recvs = (do
      let res ← wsAnswer (w.sha1 (key ++ wsGuid)) w.behind
      let frame ← sendWebSocketFrame wsMessage
      let acts ← wsTurns recvs
      .ok (.send res :: .send frame :: acts)) := by
  have hguid : wsGuid.length = 36 ∧ IsText wsGuid := by decide
  obtain ⟨wsKey, hrun⟩ := exists_reqGetWsKey hget hkey (by omega)
  have hstr := str_reqGetWsKey hget hkey hrun
  rcases Block.strcat_cases wsKey hguid.2 with ⟨-, b, hcat, hb⟩ | ⟨hlong, -⟩
  · have hread : b.readStr 0 = .ok (key ++ wsGuid) := by
      rw [hstr] at hb
      refine Block.readStr_eq_ok_iff.mpr ⟨?_, hb⟩
      rw [hb, List.length_append]
      omega
    rw [wsfunc, hrun, ok_bind, uptoWsProt, hcat, ok_bind, hread, ok_bind]
  · rw [hstr] at hlong
    omega

/-- A longer key runs over its array. -/
theorem wsfunc_long (hlong : 91 < key.length) (w : WsWorld) (recvs : List WsRecv)
    (acts : List WsAct) : wsfunc w request recvs ≠ .ok acts := by
  intro hok
  have hguid : wsGuid.length = 36 ∧ IsText wsGuid := by decide
  obtain ⟨wsKey, hrun, hrest⟩ := exists_of_bind hok
  have hstr := str_reqGetWsKey hget hkey hrun
  obtain ⟨b, hcat, -⟩ := exists_of_bind hrest
  rcases Block.strcat_cases wsKey hguid.2 with ⟨hroom, -⟩ | ⟨-, herror⟩
  · rw [hstr] at hroom
    omega
  · rw [hcat] at herror
    cases herror

/-- The client is served exactly if its key has room, and its digest makes an answer. -/
theorem wsServed_iff (w : WsWorld) (hsha : ∀ s, (w.sha1 s).length = 20) (t : WsTalk) :
    WsServed (wsfunc w request t.recvs) (Base64.encode (w.sha1 (key ++ wsGuid))) t ↔
      key.length ≤ 91 ∧ 0 ∉ w.sha1 (key ++ wsGuid) ∧ ∃ rest, w.behind = 0 :: rest := by
  by_cases hroom : key.length ≤ 91
  · have hlen := hsha (key ++ wsGuid)
    rw [WsServed, wsfunc_eq hget hkey hroom]
    constructor
    · rintro ⟨acts, hrun, haccepts, -⟩
      obtain ⟨res, hres, hrest⟩ := exists_of_bind hrun
      obtain ⟨s, hs, rfl⟩ := wsAnswer_ok hlen hres
      obtain ⟨acts', hturns, hsent, -⟩ := talk_acts t (wsAnswerText (Base64.encode s))
      rw [sendWebSocketFrame_wsMessage, ok_bind, hturns, ok_bind] at hrest
      cases hrest
      rw [hsent] at haccepts
      rw [wsAccept_eq hlen, ← (accepts_wsAnswerText_iff s _ _).mp haccepts] at hs
      obtain ⟨digest, rest, hdigest, hsplit, heq, -⟩ := base64Encode_ok hs
      obtain rfl := Base64.encode_injective heq
      exact ⟨hroom, hdigest, rest, List.append_cancel_left hsplit⟩
    · rintro ⟨-, hdigest, rest, hbehind⟩
      have haccept : wsAccept (w.sha1 (key ++ wsGuid)) w.behind
          = .ok (Base64.encode (w.sha1 (key ++ wsGuid))) := by
        rw [wsAccept_eq hlen, hbehind]
        refine base64Encode_eq hdigest (fun hone => ?_) (by rw [hlen]; decide)
        rw [hlen] at hone
        exact absurd hone (by decide)
      have hres := wsAnswer_eq haccept hlen
      obtain ⟨acts, hturns, hsent, hprinted, hclosed⟩ :=
        talk_acts t (wsAnswerText (Base64.encode (w.sha1 (key ++ wsGuid))))
      refine ⟨_, ?_, ?_, hprinted, hclosed⟩
      · rw [hres, ok_bind, sendWebSocketFrame_wsMessage, ok_bind, hturns, ok_bind]
        rfl
      · rw [hsent]
        exact (accepts_wsAnswerText_iff _ _ _).mpr rfl
  · refine iff_of_false ?_ fun h => hroom h.1
    rintro ⟨acts, hrun, -⟩
    exact wsfunc_long hget hkey (Nat.lt_of_not_le hroom) w t.recvs acts hrun

end

/-! ## From the request on -/

/-- The header with the key of a client. -/
theorem isHeader_wsKey : ∀ p ∈ [(⟨bytes "Sec-WebSocket-Key", bytes "c2FtcGxlIG5vbmNl"⟩ :
    TextPair)], IsHeader p :=
  List.forall_mem_singleton.mpr ⟨⟨83, bytes "ec-WebSocket-Key", by decide, by decide⟩,
    ⟨by decide, by decide⟩, by decide, by decide, ⟨by decide, by decide⟩, by decide⟩

/-- A request for the view; a key of 24 characters would fill its block. -/
def wsRequest : RequestText :=
  .get (bytes "/ws/ws") [] [⟨bytes "Sec-WebSocket-Key", bytes "c2FtcGxlIG5vbmNl"⟩]
    (by decide) (List.forall_mem_nil _) isHeader_wsKey

/-- One masked frame, and a close frame with a status. -/
def wsTalkOne : WsTalk where
  frames := [{ first := 0x81, key := some [1, 2, 3, 4], wide := false, payload := [97]
               length_key := by simp, length_payload := by decide, narrow := fun _ => by decide }]
  ending := .closes (closeFrame [3, 232] (by decide)) (by
    unfold WireFrame.IsClose
    decide)
  open_frames := List.forall_mem_singleton.mpr (by
    unfold WireFrame.IsClose
    decide)
  frames_length := by decide
