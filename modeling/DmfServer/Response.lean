/-
# Responses built from a `response_t`

The six character arrays of `response_t` lie next to each other, so they are one
`Block`: a line too long for its array runs on into the next one.  A `BuildCall` is a
call of one of the setters; the header a `Plan` asks for comes out, in whatever order
the setters are called, exactly when every line fits its array, or a cookie that does
not happens to end in the very `Connection` line it overwrites.

What the connection sees of a response is the list of `Act`s on it; what `send`
returns is `wire k` for the `k`-th call.
-/
import DmfServer.Router
import DmfServer.Utility

open CMem

/-! ## The connection -/

/-- What is done to a connection. -/
inductive Act : Type where
  /-- `send`, with its bytes and what it returns. -/
  | send : List UInt8 → ℤ → Act
  | connectionClose : Act
  | connectionFree : Act
  /-- `close_socket` alone. -/
  | closeSocket : Act
  deriving DecidableEq

/-- What has been handed to `send`. -/
def sentBytes (acts : List Act) : List (List UInt8) :=
  acts.filterMap fun
    | .send bytes _ => some bytes
    | _ => none

/-- A call of `send`. -/
def sendOn (wire : ℕ → ℤ) (bytes : List UInt8) (acts : List Act) : List Act :=
  acts ++ [.send bytes (wire (sentBytes acts).length)]

/-- `res_handle`. -/
def resHandle (wire : ℕ → ℤ) (resStr : List UInt8) (acts : List Act) : List Act :=
  let sendbytes := wire (sentBytes acts).length
  let acts := sendOn wire resStr acts
  let acts := if sendbytes = -1 then acts ++ [.connectionClose, .connectionFree] else acts
  acts ++ [.connectionClose, .connectionFree]

/-! ## The record -/

/-- `FINAL_STR_SIZE`. -/
def finalStrSize : ℕ := 1024 * 1024

/-- Where the arrays of `response_t` start. -/
def serverAt : ℕ := 0
@[inherit_doc serverAt] def dateAt : ℕ := 32
@[inherit_doc serverAt] def headCodeAt : ℕ := 64
@[inherit_doc serverAt] def contentTypeAt : ℕ := 96
@[inherit_doc serverAt] def setCookieAt : ℕ := 128
@[inherit_doc serverAt] def connectionAt : ℕ := 160

/-- Where the pointer behind the arrays starts. -/
def responseSize : ℕ := 192

/-- `response_t`. -/
structure Response where
  /-- The six arrays. -/
  text : Block responseSize
  /-- What `pbody` points to. -/
  pbody : Ptr (List UInt8)
  bodySize : ℕ

/-- `strcat` to one of the arrays. -/
def Response.strcat (res : Response) (off : ℕ) (s : List UInt8) : Except Fault Response := do
  let text ← res.text.strcat off s
  .ok { res with text := text }

/-- `res_init`: the arrays are cleared whatever was in them. -/
def resInit (p : Tm) (res : Response) : Except Fault Response := do
  let res := { res with text := Block.zero responseSize, pbody := .null }
  let res ← res.strcat serverAt (bytes "Server:DmfServer\r\n")
  let res ← res.strcat dateAt (bytes "Date:")
  let res ← res.strcat dateAt (serverTime p)
  let res ← res.strcat dateAt (bytes "\r\n")
  let res ← res.strcat connectionAt (bytes "Connection:keep-alive")
  res.strcat connectionAt (bytes "\r\n")

/-- `res_set_head`. -/
def resSetHead (res : Response) (code : List UInt8) : Except Fault Response := do
  let res ← res.strcat headCodeAt (bytes "HTTP/1.1 ")
  let res ← res.strcat headCodeAt code
  res.strcat headCodeAt (bytes "\r\n")

/-- `res_set_type`. -/
def resSetType (res : Response) (type : List UInt8) : Except Fault Response := do
  let res ← res.strcat contentTypeAt (bytes "Content-type:")
  let res ← res.strcat contentTypeAt type
  res.strcat contentTypeAt (bytes "\r\n")

/-- `res_set_cookie`. -/
def resSetCookie (res : Response) (name value : List UInt8) : Except Fault Response := do
  let res ← res.strcat setCookieAt (bytes "Set-cookie:")
  let res ← res.strcat setCookieAt name
  let res ← res.strcat setCookieAt (bytes "=")
  let res ← res.strcat setCookieAt value
  res.strcat setCookieAt (bytes "\r\n")

/-- `res_set_session`. -/
def resSetSession (res : Response) (sessionStr : List UInt8) : Except Fault Response :=
  resSetCookie res (bytes "dmfsession") sessionStr

/-- `res_set_body`. -/
def resSetBody (res : Response) (body : List UInt8) (size : ℕ) : Response :=
  { res with pbody := .obj body, bodySize := size }

/-- The arrays in the order they are sent. -/
def headerArrays : List ℕ :=
  [headCodeAt, serverAt, dateAt, contentTypeAt, setCookieAt, connectionAt]

/-- `res_parse_send`. -/
def resParseSend (wire : ℕ → ℤ) (res : Response) (acts : List Act) :
    Except Fault (List Act) := do
  let finalStr ← headerArrays.foldlM (fun (f : Block finalStrSize) off => do
    let s ← res.text.readStr off
    f.strcat 0 s) (Block.zero finalStrSize)
  let finalStr ← finalStr.strcat 0 (bytes "\r\n")
  let headLen := (finalStr.str 0).length
  let body ← res.pbody.deref
  if body.length < res.bodySize then .error .read
  else
    let finalStr ← finalStr.poke headLen (body.take res.bodySize)
    .ok (resHandle wire (finalStr.bytes.take (headLen + res.bodySize)) acts)

/-! ## What a response should be -/

/-- The lines of a header. -/
def serverLine : List UInt8 := bytes "Server:DmfServer\r\n"
@[inherit_doc serverLine] def dateLine (p : Tm) : List UInt8 :=
  bytes "Date:" ++ serverTime p ++ bytes "\r\n"
@[inherit_doc serverLine] def statusLine (code : List UInt8) : List UInt8 :=
  bytes "HTTP/1.1 " ++ code ++ bytes "\r\n"
@[inherit_doc serverLine] def typeLine (type : List UInt8) : List UInt8 :=
  bytes "Content-type:" ++ type ++ bytes "\r\n"
@[inherit_doc serverLine] def connectionLine : List UInt8 := bytes "Connection:keep-alive\r\n"

/-- A cookie that is set. -/
inductive Cookie : Type where
  /-- By `res_set_cookie`. -/
  | named : List UInt8 → List UInt8 → Cookie
  /-- By `res_set_session`. -/
  | session : List UInt8 → Cookie
  deriving DecidableEq

/-- Its name and value. -/
def Cookie.name : Cookie → List UInt8
  | .named name _ => name
  | .session _ => bytes "dmfsession"
@[inherit_doc Cookie.name] def Cookie.value : Cookie → List UInt8
  | .named _ value => value
  | .session sessionStr => sessionStr

/-- The `Set-cookie` line. -/
def Cookie.line (c : Cookie) : List UInt8 :=
  bytes "Set-cookie:" ++ c.name ++ bytes "=" ++ c.value ++ bytes "\r\n"

/-- A content type that `get_content_type` or a view supplies. -/
def IsSuppliedType (type : List UInt8) : Prop :=
  (∃ ext, type = getContentType ext) ∨ type = bytes "text/html;utf-8;"

/-- What a response is meant to say. -/
structure Plan where
  code : List UInt8
  type : List UInt8
  cookie : Option Cookie
  body : List UInt8
  code_text : IsText code
  /-- Status codes have three digits; a `Head_code` holds up to 20 characters. -/
  code_length : code.length ≤ 20
  type_supplied : IsSuppliedType type
  cookie_text : ∀ c ∈ cookie, IsText c.name ∧ IsText c.value

/-- A call of one of the setters. -/
inductive BuildCall : Type where
  | head : List UInt8 → BuildCall
  | contentType : List UInt8 → BuildCall
  | cookie : Cookie → BuildCall
  | body : List UInt8 → BuildCall
  deriving DecidableEq

/-- The call itself. -/
def BuildCall.apply (res : Response) : BuildCall → Except Fault Response
  | .head code => resSetHead res code
  | .contentType type => resSetType res type
  | .cookie (.named name value) => resSetCookie res name value
  | .cookie (.session sessionStr) => resSetSession res sessionStr
  | .body content => .ok (resSetBody res content content.length)

/-- The calls in the order they are made. -/
def applyCalls (calls : List BuildCall) (res : Response) : Except Fault Response :=
  calls.foldlM BuildCall.apply res

/-- One call of each setter the plan needs. -/
def Plan.calls (plan : Plan) : List BuildCall :=
  .head plan.code :: .contentType plan.type :: (plan.cookie.toList.map .cookie ++ [.body plan.body])

/-- The header the plan asks for. -/
def Plan.header (plan : Plan) (p : Tm) : List UInt8 :=
  statusLine plan.code ++ serverLine ++ dateLine p ++ typeLine plan.type ++
    (plan.cookie.toList.map Cookie.line).flatten ++ connectionLine ++ bytes "\r\n"

/-- A response initialised, built and sent. -/
def buildAndSend (wire : ℕ → ℤ) (p : Tm) (raw : Response) (calls : List BuildCall) :
    Except Fault (List Act) := do
  let res ← resInit p raw
  let res ← applyCalls calls res
  resParseSend wire res []

/-- What is sent is the header and the body of the plan. -/
def Plan.SentBy (plan : Plan) (p : Tm) (run : Except Fault (List Act)) : Prop :=
  ∃ acts, run = .ok acts ∧ sentBytes acts = [plan.header p ++ plan.body]

/-- The cookie's line fits its array, or what runs out of it is the `Connection` line. -/
def Cookie.Fits (c : Cookie) : Prop := c.line.length ≤ 31 ∨ c.line.drop 32 = connectionLine

/-! ## Lines as single writes -/

theorem Response.strcat_strcat (res : Response) (off : ℕ) {s : List UInt8} (hs : IsText s)
    (t : List UInt8) :
    (res.strcat off s >>= fun res => res.strcat off t) = res.strcat off (s ++ t) := by
  unfold Response.strcat
  rw [← Block.strcat_strcat _ _ hs]
  simp only [bind_assoc, ok_bind]

/-- The call writes one line to one of the arrays, or sets the body. -/
def BuildCall.write (res : Response) : BuildCall → Except Fault Response
  | .head code => res.strcat headCodeAt (statusLine code)
  | .contentType type => res.strcat contentTypeAt (typeLine type)
  | .cookie c => res.strcat setCookieAt c.line
  | .body content => .ok (resSetBody res content content.length)

theorem resSetCookie_eq (res : Response) {name value : List UInt8} (hname : IsText name)
    (hvalue : IsText value) :
    resSetCookie res name value = res.strcat setCookieAt
      (bytes "Set-cookie:" ++ name ++ bytes "=" ++ value ++ bytes "\r\n") := by
  have h₁ : IsText (bytes "Set-cookie:") := by decide
  have h₂ := isText_append.mpr ⟨h₁, hname⟩
  have h₃ := isText_append.mpr ⟨h₂, (by decide : IsText (bytes "="))⟩
  have h₄ := isText_append.mpr ⟨h₃, hvalue⟩
  have hall : res.strcat setCookieAt
      (bytes "Set-cookie:" ++ name ++ bytes "=" ++ value ++ bytes "\r\n")
      = ((((res.strcat setCookieAt (bytes "Set-cookie:") >>= fun res =>
          res.strcat setCookieAt name) >>= fun res => res.strcat setCookieAt (bytes "=")) >>=
          fun res => res.strcat setCookieAt value) >>=
          fun res => res.strcat setCookieAt (bytes "\r\n")) := by
    rw [Response.strcat_strcat _ _ h₁, Response.strcat_strcat _ _ h₂,
      Response.strcat_strcat _ _ h₃, Response.strcat_strcat _ _ h₄]
  rw [hall]
  simp only [resSetCookie, bind_assoc]

/-- A line of a prefix, a text and the line end, as three writes. -/
theorem strcat_line (res : Response) (off : ℕ) {s t : List UInt8} (hs : IsText s)
    (ht : IsText t) (u : List UInt8) :
    (res.strcat off s >>= fun res => res.strcat off t >>= fun res => res.strcat off u)
      = res.strcat off (s ++ t ++ u) := by
  rw [← bind_assoc, Response.strcat_strcat _ _ hs,
    Response.strcat_strcat _ _ (isText_append.mpr ⟨hs, ht⟩)]

/-- The texts of a call are C strings. -/
def BuildCall.IsText : BuildCall → Prop
  | .head code => CMem.IsText code
  | .contentType type => CMem.IsText type
  | .cookie c => CMem.IsText c.name ∧ CMem.IsText c.value
  | .body _ => True

theorem BuildCall.apply_eq (res : Response) {c : BuildCall} (h : c.IsText) :
    c.apply res = c.write res := by
  cases c with
  | head code =>
      have hprefix : CMem.IsText (bytes "HTTP/1.1 ") := by decide
      exact strcat_line res headCodeAt hprefix h _
  | contentType type =>
      have hprefix : CMem.IsText (bytes "Content-type:") := by decide
      exact strcat_line res contentTypeAt hprefix h _
  | cookie c =>
      cases c with
      | named name value => exact resSetCookie_eq res h.1 h.2
      | session sessionStr => exact resSetCookie_eq res h.1 h.2
  | body content => rfl

/-! ## The order of the calls -/

/-- The calls as single writes. -/
def writeCalls (calls : List BuildCall) (res : Response) : Except Fault Response :=
  calls.foldlM BuildCall.write res

theorem applyCalls_eq {calls : List BuildCall} (h : ∀ c ∈ calls, c.IsText) (res : Response) :
    applyCalls calls res = writeCalls calls res := by
  induction calls generalizing res with
  | nil => rfl
  | cons c calls ih =>
      rw [applyCalls, writeCalls, List.foldlM_cons, List.foldlM_cons,
        BuildCall.apply_eq res (h c List.mem_cons_self)]
      congr 1
      funext res
      exact ih (fun d hd => h d (List.mem_cons_of_mem _ hd)) res

/-- A call of `res_set_body`. -/
def BuildCall.IsBody (c : BuildCall) : Prop := ∃ content, c = .body content

/-- A call of `res_set_head`. -/
def BuildCall.IsHead (c : BuildCall) : Prop := ∃ code, c = .head code

/-- Setting the body commutes with the writes. -/
theorem write_body_comm (res : Response) {c : BuildCall} (hc : ¬ c.IsBody)
    (content : List UInt8) :
    (c.write res >>= fun res => BuildCall.write res (.body content))
      = BuildCall.write res (.body content) >>= fun res => c.write res := by
  have hstrcat : ∀ (off : ℕ) (s : List UInt8),
      (res.strcat off s >>= fun res => BuildCall.write res (.body content))
        = (resSetBody res content content.length).strcat off s := by
    intro off s
    unfold Response.strcat
    show _ = (res.text.strcat off s >>= fun text => _)
    cases res.text.strcat off s <;> rfl
  have hbody : BuildCall.write res (.body content) = .ok (resSetBody res content content.length) :=
    rfl
  rw [hbody, ok_bind]
  cases c with
  | head code => exact hstrcat headCodeAt (statusLine code)
  | contentType type => exact hstrcat contentTypeAt (typeLine type)
  | cookie c => exact hstrcat setCookieAt c.line
  | body b => exact absurd ⟨b, rfl⟩ hc

/-- The status line keeps to its array, so writing it commutes with the writes behind it. -/
theorem write_head_comm {res : Response} (hres : res.text.str headCodeAt = []) {c : BuildCall}
    (hc : ¬ c.IsBody) (hc' : ¬ c.IsHead) {code : List UInt8} (hcode : code.length ≤ 20) :
    (c.write res >>= fun res => BuildCall.write res (.head code))
      = BuildCall.write res (.head code) >>= fun res => c.write res := by
  have hlen : (statusLine code).length = 11 + code.length := by
    have h₁ : (bytes "HTTP/1.1 ").length = 9 := by decide
    have h₂ : (bytes "\r\n").length = 2 := by decide
    simp only [statusLine, List.length_append, h₁, h₂]
    omega
  have hstrcat : ∀ (off : ℕ) (s : List UInt8), contentTypeAt ≤ off →
      (res.strcat off s >>= fun res => res.strcat headCodeAt (statusLine code))
        = res.strcat headCodeAt (statusLine code) >>= fun res => res.strcat off s := by
    intro off s hoff
    have hplace : headCodeAt = 64 ∧ contentTypeAt = 96 := ⟨rfl, rfl⟩
    have hbelow : headCodeAt + (res.text.str headCodeAt).length + (statusLine code).length
        < off := by
      rw [hres, List.length_nil]
      omega
    have hcomm : (res.text.strcat headCodeAt (statusLine code) >>= fun b => b.strcat off s)
        = res.text.strcat off s >>= fun b => b.strcat headCodeAt (statusLine code) :=
      Block.strcat_comm res.text hbelow
    unfold Response.strcat
    simp only [bind_assoc, ok_bind]
    rw [← bind_assoc, ← hcomm, bind_assoc]
  cases c with
  | head code => exact absurd ⟨code, rfl⟩ hc'
  | contentType type => exact hstrcat _ _ le_rfl
  | cookie c => exact hstrcat _ _ (by decide)
  | body b => exact absurd ⟨b, rfl⟩ hc

/-- A write behind the status line leaves its array as it was. -/
theorem str_headCode_write {res res' : Response} {c : BuildCall}
    (hres : res.text.str headCodeAt = []) (hc : ¬ c.IsHead) (h : c.write res = .ok res') :
    res'.text.str headCodeAt = [] := by
  have hstrcat : ∀ (off : ℕ) (s : List UInt8), contentTypeAt ≤ off →
      res.strcat off s = .ok res' → res'.text.str headCodeAt = [] := by
    intro off s hoff hrun
    have hplace : headCodeAt = 64 ∧ contentTypeAt = 96 := ⟨rfl, rfl⟩
    unfold Response.strcat at hrun
    cases htext : res.text.strcat off s with
    | error e =>
        rw [htext] at hrun
        cases hrun
    | ok text =>
        rw [htext] at hrun
        cases hrun
        exact (Block.str_poke_below htext (by rw [hres, List.length_nil]; omega)).trans hres
  cases c with
  | head code => exact absurd ⟨code, rfl⟩ hc
  | contentType type => exact hstrcat _ _ le_rfl h
  | cookie c => exact hstrcat _ _ (by decide) h
  | body b =>
      cases h
      exact hres

/-- The call of `res_set_body` might as well come first. -/
theorem writeCalls_body_first (res : Response) {l : List BuildCall} (hl : ∀ c ∈ l, ¬ c.IsBody)
    (content : List UInt8) (l' : List BuildCall) :
    writeCalls (l ++ .body content :: l') res = writeCalls (.body content :: (l ++ l')) res := by
  induction l generalizing res with
  | nil => rfl
  | cons c l ih =>
      have hcomm := write_body_comm res (hl c List.mem_cons_self) content
      have hrest : ∀ r, writeCalls (l ++ .body content :: l') r
          = writeCalls (.body content :: (l ++ l')) r :=
        fun r => ih r fun d hd => hl d (List.mem_cons_of_mem _ hd)
      calc writeCalls (c :: l ++ .body content :: l') res
          = c.write res >>= fun r => writeCalls (l ++ .body content :: l') r := rfl
        _ = c.write res >>= fun r => BuildCall.write r (.body content) >>= fun r =>
              writeCalls (l ++ l') r := by
            congr 1
            funext r
            exact hrest r
        _ = (BuildCall.write res (.body content) >>= fun r => c.write r) >>= fun r =>
              writeCalls (l ++ l') r := by rw [← hcomm, bind_assoc]
        _ = writeCalls (.body content :: (c :: l ++ l')) res := by rw [bind_assoc]; rfl

/-- The call of `res_set_head` might as well come before those behind its array. -/
theorem writeCalls_head_first {res : Response} (hres : res.text.str headCodeAt = [])
    {l : List BuildCall} (hl : ∀ c ∈ l, ¬ c.IsBody ∧ ¬ c.IsHead) {code : List UInt8}
    (hcode : code.length ≤ 20) (l' : List BuildCall) :
    writeCalls (l ++ .head code :: l') res = writeCalls (.head code :: (l ++ l')) res := by
  induction l generalizing res with
  | nil => rfl
  | cons c l ih =>
      obtain ⟨hbody, hhead⟩ := hl c List.mem_cons_self
      have hcomm := write_head_comm hres hbody hhead hcode
      have hrest : ∀ r, c.write res = .ok r → writeCalls (l ++ .head code :: l') r
          = writeCalls (.head code :: (l ++ l')) r :=
        fun r hr => ih (str_headCode_write hres hhead hr)
          fun d hd => hl d (List.mem_cons_of_mem _ hd)
      calc writeCalls (c :: l ++ .head code :: l') res
          = c.write res >>= fun r => writeCalls (l ++ .head code :: l') r := rfl
        _ = c.write res >>= fun r => BuildCall.write r (.head code) >>= fun r =>
              writeCalls (l ++ l') r := by
            cases hr : c.write res with
            | error e => rfl
            | ok r => exact hrest r hr
        _ = (BuildCall.write res (.head code) >>= fun r => c.write r) >>= fun r =>
              writeCalls (l ++ l') r := by rw [← hcomm, bind_assoc]
        _ = writeCalls (.head code :: (c :: l ++ l')) res := by rw [bind_assoc]; rfl
