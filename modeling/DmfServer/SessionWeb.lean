/-
# Browsers and their sessions

Clients that visit the session views with a browser each.  A browser sends the id that it was last
given in a `Cookie` header; the server has one buffer, one store, and a table of routes.  A visit
goes all the way: the text of the browser into the buffer, the parse, the router, the view, the
bytes that are sent, and what the browser makes of them.

What a client is meant to see is a session of its own, that nothing but its own visits change
(`privateStep`).  `run_private`: this is what every client sees, in every order of visits of any
number of clients, as long as no id is drawn a second time and the texts have room where they are
copied.
-/
import DmfServer.SessionViews
import DmfServer.WebSite

open CMem Ascii ChainTable StepSystem

/-! ## Browsers -/

/-- What a user asks for. -/
inductive Ask : Type where
  | set (key data : List UInt8) : Ask
  | get (name : List UInt8) : Ask
  | add (key data : List UInt8) : Ask
  | update (key data : List UInt8) : Ask

/-- The path that is asked for. -/
def Ask.path : Ask → List UInt8
  | .set _ _ => bytes "/session/setsession"
  | .get _ => bytes "/session/getsession"
  | .add _ _ => bytes "/session/sessionadd"
  | .update _ _ => bytes "/session/updatesession"

/-- The query behind it. -/
def Ask.query : Ask → List TextPair
  | .get name => [⟨bytes "name", name⟩]
  | .set key data | .add key data | .update key data => [⟨bytes "key", key⟩, ⟨bytes "data", data⟩]

/-- The texts have room in the arrays of the views. -/
def Ask.Fits : Ask → Prop
  | .get _ => True
  | .set key data | .add key data => key.length + data.length ≤ 60
  | .update _ data => data.length ≤ 241

/-- A visit of a client; the rest is what the server meets on it. -/
structure Visit (C : Type) where
  client : C
  ask : Ask
  /-- The other headers of the browser. -/
  headers : List TextPair
  junk : ℕ → PartJunk
  mem : RequestMem
  world : World
  timep : ℤ
  now : ℤ

section
variable {C : Type}

/-- The `Cookie` header of a browser that has been given an id. -/
def cookieHeader (id : List UInt8) : List TextPair :=
  if id = [] then [] else [⟨bytes "Cookie", bytes "dmfsession=" ++ id⟩]

/-- What the browser sends. -/
def Visit.text (v : Visit C) (id : List UInt8) : List UInt8 :=
  bytes "GET " ++ (v.ask.path ++ (renderQuery v.ask.query ++ (bytes " HTTP/1.1\r\n" ++
    (renderHeaders (v.headers ++ cookieHeader id) ++ bytes "\r\n"))))

/-- A visit that a browser makes, and that there is room for: in the arrays of the views, in the
buffer with a byte left, and in the blocks for the copies of its texts, the name and the value of
its cookie, and an id. -/
structure Visit.Proper (spare : SpareByte) (v : Visit C) : Prop where
  query : ∀ p ∈ v.ask.query, IsQueryPair p
  fits : v.ask.Fits
  headers : ∀ p ∈ v.headers, IsHeader p ∧ p.key ≠ bytes "Cookie"
  length_lt : ∀ id, id.length ≤ 10 → (v.text id).length < receiveMaxBytes
  copies : ∀ p ∈ v.ask.query ++ v.headers, spare p.key.length ∧ spare p.value.length
  cookie_copies : spare 6 ∧ spare 21 ∧ spare 10
  time : IsTime v.now

/-- What the view meets on a visit. -/
def Visit.visited (lib : Libc) (spare : SpareByte) (v : Visit C) : Visited where
  lib := lib
  world := v.world
  timep := v.timep
  now := v.now
  spare := spare

/-- The id that a browser has behind an answer with this head. -/
def keptId (id : List UInt8) (ls : List (List UInt8)) : List UInt8 :=
  match Http.field (bytes "Set-Cookie") ls with
  | some v => if bytes "dmfsession=" <+: v then v.drop 11 else id
  | none => id

/-! ## The server with its clients -/

/-- The store and the buffer of the server, and the ids of the browsers. -/
structure Web (C : Type) where
  store : SessionStore
  resStr : List UInt8
  jar : C → List UInt8

/-- Before the first visit. -/
def Web.init : Web C where
  store := sessionInit
  resStr := resStrAfter []
  jar := fun _ => []

/-- What `recv` takes of a text. -/
def taken (text : List UInt8) : Received where
  bytes := text.take receiveMaxBytes
  length_le := List.length_take_le _ _

/-- The call of what the router has chosen, with the store behind it. -/
def serveTarget (e : Visited) (store : SessionStore) (request : Request) :
    Target SessionView → Except Fault (SessionStore × List Act)
  | .view v => v.run e store request
  | .static f => do
      let acts ← resStatic e.world f []
      .ok (store, acts)
  | .notfound => do
      let acts ← resNotfound e.world []
      .ok (store, acts)

variable [DecidableEq C]

/-- A visit: the server and the browsers behind it, and the body that is shown, if the answer can
be read. -/
def Web.visit (lib : Libc) (g : CtlFunMap SessionView) (files : FileList) (pid : ℤ)
    (spare : SpareByte) (s : Web C) (v : Visit C) :
    Except Fault (Web C × Option (List UInt8)) := do
  let id := s.jar v.client
  let resStr := recvInto s.resStr (taken (v.text id))
  let request ← epollReceive v.junk v.world.now pid spare (reqParseInit v.mem) resStr
  let t ← routerHandle g files request
  let (store, acts) ← serveTarget (v.visited lib spare) s.store request t
  match Http.receive (sentBytes acts).flatten with
  | none => .ok ({ s with store := store, resStr := resStr }, none)
  | some (ls, body) =>
      .ok (⟨store, resStr, Function.update s.jar v.client (keptId id ls)⟩, some body)

/-- One visit after the other, with what is shown. -/
def Web.run (lib : Libc) (g : CtlFunMap SessionView) (files : FileList) (pid : ℤ)
    (spare : SpareByte) :
    Web C → List (Visit C) → Except Fault (Web C × List (Option (List UInt8)))
  | s, [] => .ok (s, [])
  | s, v :: vs => do
      let (s, body) ← s.visit lib g files pid spare v
      let (s, bodies) ← Web.run lib g files pid spare s vs
      .ok (s, body :: bodies)

/-! ## What a client is meant to see -/

/-- The entries of each client's session, newest first; there is none before it is made. -/
abbrev Sessions (C : Type) := C → List SessionEntry

/-- A visit, as it is meant. -/
def privateStep (m : Sessions C) (v : Visit C) : Sessions C × List UInt8 :=
  match v.ask with
  | .set key data =>
      (Function.update m v.client [⟨key, data, v.now⟩], Http.crlf ++ setReply key data)
  | .add key data =>
      (if m v.client = [] then m
        else Function.update m v.client (⟨key, data, v.now⟩ :: m v.client), setReply key data)
  | .get name =>
      (m, getReply (((m v.client).find? (fun e => e.key = name)).elim none
        fun e => if v.now ≤ e.time + 300 then some e.value else none))
  | .update key data =>
      match replaceFirst (fun e => if e.key = key then some ⟨key, data, v.now⟩ else none)
          (m v.client) with
      | some es => (Function.update m v.client es, bytes "Update successfully!")
      | none => (m, bytes "Update faild")

/-- The id that is drawn on a visit. -/
def Visit.drawn (lib : Libc) (v : Visit C) : Option (List UInt8) :=
  match v.ask with
  | .set _ _ => some (getRandomStr lib v.timep 10)
  | _ => none

end

/-! ## The text of a browser -/

/-- Headers of other names say nothing of a name. -/
theorem lastValue_append_of_ne {ps qs : List TextPair} {key : List UInt8}
    (h : ∀ p ∈ ps, p.key ≠ key) : lastValue (ps ++ qs) key = lastValue qs key := by
  have hnone : ps.reverse.find? (fun node => decide (node.key = key)) = none := by
    apply List.find?_eq_none.mpr
    intro p hp hkey
    exact h p (List.mem_reverse.mp hp) (of_decide_eq_true hkey)
  rw [lastValue, lastValue, List.findRev?_eq_find?_reverse, List.findRev?_eq_find?_reverse,
    List.reverse_append, List.find?_append, hnone, Option.or_none]

/-- The buffer, with a NUL in its last byte. -/
def EndsInZero (resStr : List UInt8) : Prop :=
  resStr.length = receiveMaxBytes ∧ resStr.getLast? = some 0

theorem endsInZero_init : EndsInZero (resStrAfter []) := by
  constructor
  · exact length_resStrAfter []
  · rw [resStrAfter, List.foldl_nil, List.getLast?_replicate, if_neg (by decide)]

/-- What is shorter than the buffer leaves its last byte alone. -/
theorem EndsInZero.received {resStr : List UInt8} (h : EndsInZero resStr) {b : Received}
    (hshort : b.bytes.length < receiveMaxBytes) : EndsInZero (recvInto resStr b) := by
  obtain ⟨hlen, hlast⟩ := h
  refine ⟨length_recvInto hlen b, ?_⟩
  -- the last byte is behind what was received
  rw [recvInto, List.getLast?_append, List.getLast?_drop, if_neg (by omega), hlast]
  rfl

theorem EndsInZero.mem {resStr : List UInt8} (h : EndsInZero resStr) : 0 ∈ resStr :=
  List.mem_of_getLast? h.2

section
variable {C : Type} {spare : SpareByte} {id : List UInt8}

/-- A browser that has been given no id, or one. -/
def IsJarId (id : List UInt8) : Prop := id = [] ∨ IsSessionId id

theorem IsJarId.length_le (hid : IsJarId id) : id.length ≤ 10 := by
  rcases hid with rfl | hid
  · exact Nat.zero_le _
  · exact hid.length.le

theorem IsJarId.headers (hid : IsJarId id) : ∀ p ∈ cookieHeader id, IsHeader p := by
  intro p hp
  rcases hid with rfl | hid
  · cases hp
  · rw [cookieHeader, if_neg hid.ne_nil, List.mem_singleton] at hp
    subst hp
    have hname : bytes "Cookie" = 67 :: bytes "ookie" ∧ IsText (bytes "Cookie") ∧
        cr ∉ bytes "Cookie" ∧ colon ∉ bytes "Cookie" ∧ (bytes "Cookie").length ≤ 511 := by decide
    have hzero : 0 ∉ bytes "dmfsession=" := by decide
    have hcr : cr ∉ bytes "dmfsession=" := by decide
    have hlen : (bytes "dmfsession=").length = 11 := by decide
    refine ⟨⟨67, _, hname.1, by decide⟩, ⟨hname.2.1, hname.2.2.1⟩, hname.2.2.2.1, hname.2.2.2.2,
      ⟨?_, ?_⟩, ?_⟩
    · exact isText_append.mpr ⟨hzero, hid.isText⟩
    · rw [List.mem_append, not_or]
      exact ⟨hcr, hid.notMem (by decide)⟩
    · rw [List.length_append, hlen, hid.length]
      decide

theorem Ask.path_mem (ask : Ask) : ask.path ∈ [bytes "/session/setsession",
    bytes "/session/getsession", bytes "/session/sessionadd", bytes "/session/updatesession"] := by
  cases ask <;> simp [Ask.path]

/-- The paths can be asked for. -/
theorem Ask.path_spec (ask : Ask) : ask.path.head? = some slash ∧
    (IsText ask.path ∧ space ∉ ask.path) ∧ question ∉ ask.path ∧ ask.path.length ≤ 511 := by
  have hall : ∀ s ∈ [bytes "/session/setsession", bytes "/session/getsession",
      bytes "/session/sessionadd", bytes "/session/updatesession"], s.head? = some slash ∧
        (IsText s ∧ space ∉ s) ∧ question ∉ s ∧ s.length ≤ 511 := by decide
  exact hall _ ask.path_mem

/-- The headers of a browser are headers. -/
theorem Visit.isHeader {v : Visit C} (hv : v.Proper spare) (hid : IsJarId id) :
    ∀ p ∈ v.headers ++ cookieHeader id, IsHeader p := by
  intro p hp
  rcases List.mem_append.mp hp with hp | hp
  · exact (hv.headers p hp).1
  · exact hid.headers p hp

/-- What a browser sends, as the text of a request. -/
def Visit.requestText (v : Visit C) (hv : v.Proper spare) (hid : IsJarId id) : RequestText :=
  .get v.ask.path v.ask.query (v.headers ++ cookieHeader id) v.ask.path_spec hv.query
    (Visit.isHeader hv hid)

theorem Visit.render_requestText (v : Visit C) (hv : v.Proper spare) (hid : IsJarId id) :
    (v.requestText hv hid).render = v.text id := by
  have hmethod : bytes "GET " = bytes "GET" ++ [space] := by decide
  have hversion : bytes " HTTP/1.1\r\n"
      = [space] ++ bytes "HTTP" ++ [slash] ++ bytes "1.1" ++ [cr, lf] := by decide
  have hend : bytes "\r\n" = [cr, lf] := by decide
  rw [Visit.text, hmethod, hversion, hend]
  simp only [RequestText.render, Visit.requestText, RequestText.get, List.append_assoc,
    List.cons_append, List.nil_append]

/-- The header of a browser that has an id. -/
def soleCookie (id : List UInt8) (hid : IsSessionId id) : CookieHeader where
  before := []
  value := id
  after := []
  value_text := by
    intro c hc
    refine ⟨?_, ?_⟩
    · rintro rfl
      exact hid.notMem (by decide) hc
    · rintro rfl
      exact hid.notMem (by decide) hc
  value_length := hid.length
  others := List.forall_mem_nil _

/-- Its names and values have room. -/
theorem Visit.hasRoom_requestText (v : Visit C) (hv : v.Proper spare) (hid : IsJarId id) :
    (v.requestText hv hid).HasRoom spare := by
  have hown := List.forall_mem_append.mp hv.copies
  refine List.forall_mem_append.mpr ⟨hown.1, List.forall_mem_append.mpr ⟨hown.2, ?_⟩⟩
  intro p hp
  rcases hid with rfl | hid
  · cases hp
  · rw [cookieHeader, if_neg hid.ne_nil, List.mem_singleton] at hp
    subst hp
    have hname : (bytes "Cookie").length = 6 ∧ (bytes "dmfsession=").length = 11 := by decide
    dsimp only
    rw [List.length_append, hname.1, hname.2, hid.length]
    exact ⟨hv.cookie_copies.1, hv.cookie_copies.2.1⟩

theorem Ask.prints_path (ask : Ask) : Prints ask.path := by
  have hall : ∀ s ∈ [bytes "/session/setsession", bytes "/session/getsession",
      bytes "/session/sessionadd", bytes "/session/updatesession"], percent ∉ s := by decide
  exact prints_of_notMem (hall _ ask.path_mem)

/-- The request that the server makes of it has the path, the query and the id. -/
theorem Visit.exists_request (v : Visit C) (hv : v.Proper spare) (hid : IsJarId id) (pid : ℤ)
    {resStr : List UInt8} (hbuffer : EndsInZero resStr) :
    EndsInZero (recvInto resStr (taken (v.text id))) ∧
    ∃ request, epollReceive v.junk v.world.now pid spare (reqParseInit v.mem)
        (recvInto resStr (taken (v.text id))) = .ok request ∧
      request.path = v.ask.path ∧
      (∀ key, hashmapGet request.query key = lastValue v.ask.query key) ∧
      sessionStrOf request = id := by
  have hshort := hv.length_lt id hid.length_le
  have hwhole : (taken (v.text id)).bytes = v.text id := List.take_of_length_le hshort.le
  have hends : EndsInZero (recvInto resStr (taken (v.text id))) :=
    hbuffer.received (by rwa [hwhole])
  obtain ⟨request, hcarries, -, hreceive⟩ :=
    (v.requestText hv hid).exists_received v.junk v.world.now pid spare v.mem
      (resStr.drop (taken (v.text id)).bytes.length)
  have hrender : (v.requestText hv hid).render ++ resStr.drop (taken (v.text id)).bytes.length
      = recvInto resStr (taken (v.text id)) := by
    rw [recvInto, v.render_requestText hv hid, hwhole]
  rw [hrender] at hreceive
  refine ⟨hends, request, (hreceive request).mpr ⟨rfl, v.hasRoom_requestText hv hid,
    v.ask.prints_path, hends.mem⟩, hcarries.path, hcarries.query, ?_⟩
  have hcookie : hashmapGet request.params (bytes "Cookie")
      = lastValue (cookieHeader id) (bytes "Cookie") := by
    rw [hcarries.params]
    exact lastValue_append_of_ne fun p hp => (hv.headers p hp).2
  rcases hid with rfl | hid
  · rw [sessionStrOf, reqGetSessionStr, hcookie]
    rfl
  · have hget : hashmapGet request.params (bytes "Cookie") = some (soleCookie id hid).render := by
      rw [hcookie, cookieHeader, if_neg hid.ne_nil, CookieHeader.render, CookieHeader.front,
        CookieHeader.back]
      simp [lastValue, soleCookie, List.findRev?]
    have hfront : ¬bytes "dmfsession=" <:+: [] := by decide
    have hlen := hid.length
    have hback : (soleCookie id hid).value ++ (soleCookie id hid).back = id := List.append_nil _
    have hrun := reqGetSessionStr_eq hget ((soleCookie id hid).strstr_render hfront)
      (by rw [hback, hlen]) []
    rw [sessionStrOf, hrun, hback]
    exact List.take_of_length_le (le_of_eq hlen)

end

/-! ## What a browser makes of an answer -/

/-- The lines in the head of `setsession`. -/
def sessionLines (p : Tm) (id : List UInt8) : List (List UInt8) :=
  frontLines p ++ [bytes "Content-type:text/html;utf-8;", bytes "Set-cookie:dmfsession=" ++ id]

section
variable {id : List UInt8} (hid : IsSessionId id) (p : Tm)
include hid

/-- The id is read, and the body behind the empty line. -/
theorem receive_sessionHead (text : List UInt8) :
    Http.receive (sessionHead p id ++ text) = some (sessionLines p id, Http.crlf ++ text) := by
  have hcr : 13 ∉ id := hid.notMem (by decide)
  have hlines : ∀ l ∈ sessionLines p id, l ≠ [] ∧ 13 ∉ l := by
    intro l hl
    rcases List.mem_append.mp hl with hl | hl
    · exact mem_frontLines p l hl
    · simp only [List.mem_cons, List.not_mem_nil, or_false] at hl
      rcases hl with rfl | rfl
      · decide
      · refine ⟨List.append_ne_nil_of_left_ne_nil (by decide) _, ?_⟩
        rw [List.mem_append, not_or]
        exact ⟨by decide, hcr⟩
  have hother : ∀ name : List UInt8, (bytes "Set-cookie").map Http.lower ≠ name.map Http.lower →
      Http.fieldValue name (bytes "Content-type:text/html;utf-8;") = none →
      Http.field name [bytes "Content-type:text/html;utf-8;", bytes "Set-cookie:dmfsession=" ++ id]
        = none := by
    intro name hname htype
    have hcolon : bytes "Set-cookie:dmfsession=" = bytes "Set-cookie" ++ 58 :: bytes "dmfsession="
      := by decide
    have hcookie : Http.fieldValue name (bytes "Set-cookie:dmfsession=" ++ id) = none := by
      rw [hcolon, List.append_assoc, List.cons_append]
      exact Http.fieldValue_other (by decide) hname
    rw [Http.field, List.findSome?_cons, htype, List.findSome?_cons, hcookie]
    rfl
  have hencoding : Http.field (bytes "Transfer-Encoding") (sessionLines p id) = none := by
    rw [sessionLines, field_frontLines p (by decide) (by decide)]
    exact hother _ (by decide) (by decide)
  have hlength : Http.field (bytes "Content-Length") (sessionLines p id) = none := by
    rw [sessionLines, field_frontLines p (by decide) (by decide)]
    exact hother _ (by decide) (by decide)
  have htext : sessionHead p id ++ text
      = ((sessionLines p id).map (· ++ Http.crlf)).flatten ++
        (Http.crlf ++ (Http.crlf ++ text)) := by
    have hcrlf : bytes "\r\n" = Http.crlf := by decide
    have htype : typeLine (bytes "text/html;utf-8;")
        = bytes "Content-type:text/html;utf-8;" ++ Http.crlf := by decide
    have hcookie : bytes "Set-cookie:" ++ bytes "dmfsession" ++ bytes "="
        = bytes "Set-cookie:dmfsession=" := by decide
    rw [sessionHead, flatten_frontLines, htype, hcrlf, Cookie.line, Cookie.name, Cookie.value,
      hcookie, hcrlf, sessionLines, List.map_append, List.flatten_append]
    simp only [List.map_cons, List.map_nil, List.flatten_cons, List.flatten_nil,
      List.append_assoc, List.append_nil]
  rw [htext, Http.receive_eq hlines, Http.bodyOf_close hencoding hlength]
  rfl

/-- The browser keeps the id that it is given. -/
theorem keptId_sessionLines (old : List UInt8) : keptId old (sessionLines p id) = id := by
  have hcolon : bytes "Set-cookie:dmfsession=" = bytes "Set-cookie" ++ 58 :: bytes "dmfsession="
    := by decide
  have hblank : ∀ c ∈ bytes "dmfsession=" ++ id, ¬ Http.isBlank c := by
    intro c hc hblank
    rcases List.mem_append.mp hc with hc | hc
    · have hall : ∀ c ∈ bytes "dmfsession=", Http.isBlank c = false := by decide
      rw [hall c hc] at hblank
      cases hblank
    · rcases of_decide_eq_true hblank with rfl | rfl
      · exact hid.notMem (by decide) hc
      · exact hid.notMem (by decide) hc
  have hvalue : Http.fieldValue (bytes "Set-Cookie") (bytes "Set-cookie:dmfsession=" ++ id)
      = some (bytes "dmfsession=" ++ id) := by
    rw [hcolon, List.append_assoc, List.cons_append]
    exact Http.fieldValue_of_lower (by decide) (by decide) hblank
  have htype : Http.fieldValue (bytes "Set-Cookie") (bytes "Content-type:text/html;utf-8;")
      = none := by decide
  have hfield : Http.field (bytes "Set-Cookie") (sessionLines p id)
      = some (bytes "dmfsession=" ++ id) := by
    rw [sessionLines, field_frontLines p (by decide) (by decide), Http.field,
      List.findSome?_cons, htype, List.findSome?_cons, hvalue]
  have hprefix : bytes "dmfsession=" <+: bytes "dmfsession=" ++ id := List.prefix_append _ _
  have hlen : (bytes "dmfsession=").length = 11 := by decide
  rw [keptId, hfield]
  dsimp only
  rw [if_pos hprefix, ← hlen, List.drop_left]

end

/-- The text of a view comes with no cookie. -/
theorem keptId_rowLines (id s : List UInt8) : keptId id (rowLines s) = id := by
  have hfirst : ∀ l ∈ [bytes "HTTP/1.1 200 OK", bytes "Content-type:text/html;utf-8;",
      bytes "Connection: Keep-alive;"], Http.fieldValue (bytes "Set-Cookie") l = none := by decide
  have hname : bytes "Content-Length: " = bytes "Content-Length" ++ [58, 32] := by decide
  have hlast : Http.fieldValue (bytes "Set-Cookie")
      (bytes "Content-Length: " ++ itoa s.length [] 10) = none := by
    rw [hname, List.append_assoc]
    exact Http.fieldValue_other (by decide) (by decide)
  have hfield : Http.field (bytes "Set-Cookie") (rowLines s) = none := by
    rw [Http.field, rowLines, List.findSome?_cons, hfirst _ (by decide), List.findSome?_cons,
      hfirst _ (by decide), List.findSome?_cons, hfirst _ (by decide), List.findSome?_cons, hlast]
    rfl
  rw [keptId, hfield]

/-- A text that is sent by `res_row` and is not long. -/
theorem exists_resRow (w : World) {s : List UInt8} (hs : IsText s) (hne : s ≠ [])
    (hlen : s.length ≤ 300) :
    ∃ acts, resRow w s [] = .ok acts ∧
      Http.receive (sentBytes acts).flatten = some (rowLines s, s) := by
  refine ⟨_, resRow_short w hs (by omega), ?_⟩
  rw [sentBytes_resHandle, List.flatten_singleton, receive_rowText ?_ hne]
  exact hlen.trans_lt (by norm_num)

/-! ## Server and browsers -/

section
variable {C : Type}

/-- The server and the browsers hold the sessions: the store stands for a map that has the entries
of each client under the id of its browser, and no two browsers have the same id. -/
structure Web.Shows (s : Web C) (m : Sessions C) (given : List (List UInt8)) (M : SessionMap) :
    Prop where
  stands : StandsFor s.store M
  buffer : EndsInZero s.resStr
  ids : ∀ id ∈ given, IsSessionId id
  fresh : ∀ id, id ∉ given → M id = []
  held : ∀ c, s.jar c = [] ∧ m c = [] ∨ s.jar c ∈ given ∧ m c ≠ []
  entries : ∀ c, M (s.jar c) = m c
  apart : ∀ c c', s.jar c ≠ [] → s.jar c = s.jar c' → c = c'
  values : ∀ c, ∀ e ∈ m c, IsText e.value ∧ e.value.length ≤ 241

theorem Web.shows_init : (Web.init : Web C).Shows (fun _ => []) [] (fun _ => []) where
  stands := standsFor_sessionInit
  buffer := endsInZero_init
  ids := List.forall_mem_nil _
  fresh _ _ := rfl
  held _ := Or.inl ⟨rfl, rfl⟩
  entries _ := rfl
  apart _ _ h := absurd rfl h
  values _ := List.forall_mem_nil _

section
variable {s : Web C} {m : Sessions C} {given : List (List UInt8)} {M : SessionMap}
  (h : s.Shows m given M)
include h

theorem Web.Shows.isJarId (c : C) : IsJarId (s.jar c) := by
  rcases h.held c with ⟨hnil, -⟩ | ⟨hmem, -⟩
  · exact Or.inl hnil
  · exact Or.inr (h.ids _ hmem)

/-- A browser has an id exactly when its client has a session. -/
theorem Web.Shows.jar_eq_nil_iff (c : C) : s.jar c = [] ↔ m c = [] := by
  rcases h.held c with ⟨hjar, hm⟩ | ⟨hmem, hm⟩
  · exact iff_of_true hjar hm
  · exact iff_of_false (h.ids _ hmem).ne_nil hm

theorem Web.Shows.mem_given {c : C} (hc : s.jar c ≠ []) : s.jar c ∈ given := by
  rcases h.held c with ⟨hjar, -⟩ | ⟨hmem, -⟩
  · exact absurd hjar hc
  · exact hmem

/-- Nothing but the buffer has changed. -/
theorem Web.Shows.keep {resStr : List UInt8} (hbuffer : EndsInZero resStr) :
    Web.Shows ⟨s.store, resStr, s.jar⟩ m given M :=
  ⟨h.stands, hbuffer, h.ids, h.fresh, h.held, h.entries, h.apart, h.values⟩

variable [DecidableEq C]

/-- The entries of one client have changed. -/
theorem Web.Shows.change {c : C} {es : List SessionEntry} {store : SessionStore}
    (hc : s.jar c ≠ []) (hes : es ≠ []) (hvalues : ∀ e ∈ es, IsText e.value ∧ e.value.length ≤ 241)
    (hstands : StandsFor store (Function.update M (s.jar c) es)) {resStr : List UInt8}
    (hbuffer : EndsInZero resStr) :
    Web.Shows ⟨store, resStr, s.jar⟩ (Function.update m c es) given
      (Function.update M (s.jar c) es) where
  stands := hstands
  buffer := hbuffer
  ids := h.ids
  fresh id hid := by
    have hne : id ≠ s.jar c := by
      rintro rfl
      exact hid (h.mem_given hc)
    rw [Function.update_of_ne hne, h.fresh id hid]
  held c' := by
    by_cases hsame : c' = c
    · subst hsame
      rw [Function.update_self]
      exact Or.inr ⟨h.mem_given hc, hes⟩
    · rw [Function.update_of_ne hsame]
      exact h.held c'
  entries c' := by
    by_cases hsame : c' = c
    · subst hsame
      rw [Function.update_self, Function.update_self]
    · have hne : s.jar c' ≠ s.jar c := by
        intro heq
        exact hsame (h.apart c c' hc heq.symm).symm
      rw [Function.update_of_ne hne, Function.update_of_ne hsame, h.entries]
  apart := h.apart
  values c' := by
    by_cases hsame : c' = c
    · subst hsame
      rw [Function.update_self]
      exact hvalues
    · rw [Function.update_of_ne hsame]
      exact h.values c'

/-- A client has been given a new id. -/
theorem Web.Shows.create {c : C} {id : List UInt8} {e : SessionEntry} {store : SessionStore}
    (hid : IsSessionId id) (hnew : id ∉ given) (hvalue : IsText e.value ∧ e.value.length ≤ 241)
    (hstands : StandsFor store (Function.update M id (e :: M id))) {resStr : List UInt8}
    (hbuffer : EndsInZero resStr) :
    Web.Shows ⟨store, resStr, Function.update s.jar c id⟩ (Function.update m c [e]) (id :: given)
      (Function.update M id (e :: M id)) where
  stands := hstands
  buffer := hbuffer
  ids := List.forall_mem_cons.mpr ⟨hid, h.ids⟩
  fresh id' hid' := by
    rw [List.mem_cons, not_or] at hid'
    obtain ⟨hne, hmem⟩ := hid'
    rw [Function.update_of_ne hne, h.fresh id' hmem]
  held c' := by
    by_cases hsame : c' = c
    · subst hsame
      simp only [Function.update_self]
      exact Or.inr ⟨List.mem_cons_self, List.cons_ne_nil _ _⟩
    · simp only [Function.update_of_ne hsame]
      rcases h.held c' with hno | ⟨hmem, hm⟩
      · exact Or.inl hno
      · exact Or.inr ⟨List.mem_cons_of_mem _ hmem, hm⟩
  entries c' := by
    by_cases hsame : c' = c
    · subst hsame
      simp only [Function.update_self]
      rw [h.fresh id hnew]
    · have hne : s.jar c' ≠ id := by
        rcases h.held c' with ⟨hjar, -⟩ | ⟨hmem, -⟩
        · rw [hjar]
          exact hid.ne_nil.symm
        · rintro rfl
          exact hnew hmem
      simp only [Function.update_of_ne hsame]
      rw [Function.update_of_ne hne, h.entries]
  apart c₁ c₂ hne heq := by
    -- the new id is in no other browser
    have hother : ∀ c', c' ≠ c → s.jar c' ≠ id := by
      intro c' _ hjar
      rcases h.held c' with ⟨hnil, -⟩ | ⟨hmem, -⟩
      · exact hid.ne_nil (hjar.symm.trans hnil)
      · exact hnew (hjar ▸ hmem)
    by_cases h₁ : c₁ = c
    · by_cases h₂ : c₂ = c
      · rw [h₁, h₂]
      · subst h₁
        simp only [Function.update_self, Function.update_of_ne h₂] at heq
        exact absurd heq.symm (hother c₂ h₂)
    · by_cases h₂ : c₂ = c
      · subst h₂
        simp only [Function.update_self, Function.update_of_ne h₁] at heq
        exact absurd heq (hother c₁ h₁)
      · simp only [Function.update_of_ne h₁, Function.update_of_ne h₂] at hne heq
        exact h.apart c₁ c₂ hne heq
  values c' := by
    by_cases hsame : c' = c
    · subst hsame
      simp only [Function.update_self]
      exact List.forall_mem_singleton.mpr hvalue
    · simp only [Function.update_of_ne hsame]
      exact h.values c'

end

end

/-! ## Every visit -/

/-- The view that answers. -/
def Ask.view : Ask → SessionView
  | .set _ _ => .setsession
  | .get _ => .getsession
  | .add _ _ => .sessionadd
  | .update _ _ => .updatesession

section
variable {C : Type} [DecidableEq C] {g : CtlFunMap SessionView} {files : FileList}
  {spare : SpareByte}

/-- The router leads to the view. -/
theorem routerHandle_ask (hg : routerAddApps routerInit [sessionApp] spare = .ok g)
    (hfiles : files.num < maxFiles) {ask : Ask} {request : Request}
    (hpath : request.path = ask.path) : routerHandle g files request = .ok (.view ask.view) := by
  have hne : ask.path ≠ [] := by
    cases ask <;> exact List.cons_ne_nil _ _
  rw [routerHandle_of_path hg (by decide) hfiles hpath hne]
  cases ask <;> rfl

/-- A visit, from what the view does with the request that comes of the text. -/
theorem Web.visit_eq (lib : Libc) (hg : routerAddApps routerInit [sessionApp] spare = .ok g)
    (hfiles : files.num < maxFiles) (pid : ℤ) {s : Web C} {v : Visit C} (hv : v.Proper spare)
    (hid : IsJarId (s.jar v.client)) (hbuffer : EndsInZero s.resStr) :
    ∃ request resStr, EndsInZero resStr ∧
      (∀ key, hashmapGet request.query key = lastValue v.ask.query key) ∧
      sessionStrOf request = s.jar v.client ∧
      ∀ store acts ls body,
        v.ask.view.run (v.visited lib spare) s.store request = .ok (store, acts) →
        Http.receive (sentBytes acts).flatten = some (ls, body) →
        s.visit lib g files pid spare v = .ok (⟨store, resStr,
          Function.update s.jar v.client (keptId (s.jar v.client) ls)⟩, some body) := by
  obtain ⟨hends, request, hparse, hpath, hquery, hsession⟩ := v.exists_request hv hid pid hbuffer
  refine ⟨request, recvInto s.resStr (taken (v.text (s.jar v.client))), hends, hquery, hsession,
    ?_⟩
  intro store acts ls body hrun hread
  have hserve : serveTarget (v.visited lib spare) s.store request (.view v.ask.view)
      = .ok (store, acts) := hrun
  rw [Web.visit, hparse, ok_bind, routerHandle_ask hg hfiles hpath, ok_bind, hserve, ok_bind]
  dsimp only
  rw [hread]

/-- A visit that is answered with the text of a view leaves the browser its id. -/
theorem Web.visit_row (lib : Libc) (hg : routerAddApps routerInit [sessionApp] spare = .ok g)
    (hfiles : files.num < maxFiles) (pid : ℤ) {s : Web C} {v : Visit C} (hv : v.Proper spare)
    (hid : IsJarId (s.jar v.client)) (hbuffer : EndsInZero s.resStr) :
    ∃ request resStr, EndsInZero resStr ∧
      (∀ key, hashmapGet request.query key = lastValue v.ask.query key) ∧
      sessionStrOf request = s.jar v.client ∧
      ∀ store text, IsText text → text ≠ [] → text.length ≤ 300 →
        v.ask.view.run (v.visited lib spare) s.store request = (do
          let acts ← resRow v.world text []
          .ok (store, acts)) →
        s.visit lib g files pid spare v = .ok (⟨store, resStr, s.jar⟩, some text) := by
  obtain ⟨request, resStr, hends, hquery, hsession, hvisit⟩ :=
    Web.visit_eq lib hg hfiles pid hv hid hbuffer
  refine ⟨request, resStr, hends, hquery, hsession, ?_⟩
  intro store text htext hne hlen hrun
  obtain ⟨acts, hrow, hread⟩ := exists_resRow v.world htext hne hlen
  rw [hrow, ok_bind] at hrun
  rw [hvisit store acts _ text hrun hread, keptId_rowLines, Function.update_eq_self]

section
variable {s : Web C} {m : Sessions C} {given : List (List UInt8)} {M : SessionMap} {v : Visit C}
  {key data : List UInt8}

/-- After a visit the server still shows the sessions, and the client has seen its own. -/
def Web.Answers (lib : Libc) (g : CtlFunMap SessionView) (files : FileList) (pid : ℤ)
    (spare : SpareByte) (s : Web C) (m : Sessions C) (given : List (List UInt8)) (v : Visit C) :
    Prop :=
  ∃ s' M', s.visit lib g files pid spare v = .ok (s', some (privateStep m v).2) ∧
    s'.Shows (privateStep m v).1 ((v.drawn lib).toList ++ given) M'

theorem lastValue_pair {k k' a b : List UInt8} (hne : k ≠ k') :
    lastValue [⟨k, a⟩, ⟨k', b⟩] k = some a ∧ lastValue [⟨k, a⟩, ⟨k', b⟩] k' = some b := by
  constructor
  · simp [lastValue, List.findRev?, hne.symm]
  · simp [lastValue, List.findRev?]

/-- The two texts of a query can be read. -/
theorem isText_pair {k k' a b : List UInt8} (h : ∀ p ∈ [(⟨k, a⟩ : TextPair), ⟨k', b⟩],
    IsQueryPair p) : IsText a ∧ IsText b := by
  obtain ⟨ha, hb⟩ := List.forall_mem_cons.mp h
  exact ⟨ha.value_text.1, (List.forall_mem_singleton.mp hb).value_text.1⟩

/-- Their copies have room. -/
theorem pair_copies {k k' a b : List UInt8} (h : ∀ p ∈ [(⟨k, a⟩ : TextPair), ⟨k', b⟩],
    spare p.key.length ∧ spare p.value.length) : spare a.length ∧ spare b.length := by
  obtain ⟨ha, hb⟩ := List.forall_mem_cons.mp h
  exact ⟨ha.2, (List.forall_mem_singleton.mp hb).2⟩

theorem key_ne_data : bytes "key" ≠ bytes "data" := by decide

theorem Web.Shows.answers_set (h : s.Shows m given M) (lib : Libc)
    (hg : routerAddApps routerInit [sessionApp] spare = .ok g) (hfiles : files.num < maxFiles)
    (pid : ℤ) (hv : v.Proper spare) (hask : v.ask = .set key data)
    (hnew : ∀ id ∈ v.drawn lib, id ∉ given) :
    s.Answers lib g files pid spare m given v := by
  obtain ⟨request, resStr, hends, hquery, -, hvisit⟩ :=
    Web.visit_eq lib hg hfiles pid hv (h.isJarId v.client) h.buffer
  have hpairs := hv.query
  have hroom := hv.fits
  have hblocks := (List.forall_mem_append.mp hv.copies).1
  rw [hask] at hquery hpairs hroom hblocks hvisit
  have hcopies := pair_copies hblocks
  obtain ⟨hkey, hdata⟩ := lastValue_pair key_ne_data (a := key) (b := data)
  obtain ⟨hkeyText, hdataText⟩ := isText_pair hpairs
  have hid := isSessionId_getRandomStr lib v.timep
  have hdrawn : v.drawn lib = some (getRandomStr lib v.timep 10) := by rw [Visit.drawn, hask]
  have hrun : SessionView.run (v.visited lib spare) s.store _ .setsession = _ :=
    run_setsession ((hquery _).trans hkey) ((hquery _).trans hdata) hkeyText hdataText hroom
      ⟨hv.cookie_copies.2.2, hcopies⟩
  have hread : Http.receive (sentBytes (resHandle v.world.wire
      (sessionHead v.world.now (getRandomStr lib v.timep 10) ++ setReply key data) [])).flatten
        = some (sessionLines v.world.now (getRandomStr lib v.timep 10),
          Http.crlf ++ setReply key data) := by
    rw [sentBytes_resHandle, List.flatten_singleton, receive_sessionHead hid]
  have hstep : privateStep m v = (Function.update m v.client [⟨key, data, v.now⟩],
      Http.crlf ++ setReply key data) := by rw [privateStep, hask]
  have hlen : data.length ≤ 241 := by
    have hroom' : key.length + data.length ≤ 60 := hroom
    omega
  have hdone := hvisit _ _ _ _ hrun hread
  rw [keptId_sessionLines hid] at hdone
  rw [Web.Answers, hstep, hdrawn]
  exact ⟨_, _, hdone, h.create hid (hnew _ hdrawn) ⟨hdataText, hlen⟩
    (h.stands.create _ key data hv.time) hends⟩

/-- What `getsession` sends is a short text. -/
theorem getReply_spec {o : Option (List UInt8)} (h : ∀ x, o = some x → IsText x ∧ x.length ≤ 241) :
    IsText (getReply o) ∧ getReply o ≠ [] ∧ (getReply o).length ≤ 300 := by
  cases o with
  | none => exact ⟨by decide, by decide, by decide⟩
  | some x =>
      obtain ⟨hx, hlen⟩ := h x rfl
      have hprefix : (bytes "session data: ").length = 14 := by decide
      refine ⟨isText_append.mpr ⟨by decide, hx⟩,
        List.append_ne_nil_of_left_ne_nil (by decide) _, ?_⟩
      rw [getReply, List.length_append, hprefix]
      omega

theorem Web.Shows.answers_get (h : s.Shows m given M) (lib : Libc)
    (hg : routerAddApps routerInit [sessionApp] spare = .ok g) (hfiles : files.num < maxFiles)
    (pid : ℤ) (hv : v.Proper spare) {name : List UInt8} (hask : v.ask = .get name) :
    s.Answers lib g files pid spare m given v := by
  obtain ⟨request, resStr, hends, hquery, hsession, hvisit⟩ :=
    Web.visit_row lib hg hfiles pid hv (h.isJarId v.client) h.buffer
  rw [hask] at hquery hvisit
  have hname : lastValue (Ask.get name).query (bytes "name") = some name := by
    simp [Ask.query, lastValue]
  have hget := h.stands.get (s.jar v.client) name hv.time
  rw [h.entries] at hget
  have hfound : ∀ x, getSession s.store (s.jar v.client) name v.now = some x →
      IsText x ∧ x.length ≤ 241 := by
    intro x hx
    rw [hget] at hx
    cases hfind : (m v.client).find? (fun e => e.key = name) with
    | none =>
        rw [hfind] at hx
        cases hx
    | some e =>
        rw [hfind, Option.elim_some] at hx
        split at hx
        · cases hx
          exact h.values v.client e (List.mem_of_find?_eq_some hfind)
        · cases hx
  have hrun : SessionView.run (v.visited lib spare) s.store _ .getsession = _ :=
    run_getsession ((hquery _).trans hname) (by rw [hsession]; exact hfound)
  rw [hsession] at hrun
  have hshown : privateStep m v
      = (m, getReply (getSession s.store (s.jar v.client) name v.now)) := by
    rw [privateStep, hask, hget]
  obtain ⟨htext, hne, hlen⟩ := getReply_spec hfound
  rw [Web.Answers, hshown, Visit.drawn, hask]
  exact ⟨_, M, hvisit _ _ htext hne hlen hrun, h.keep hends⟩

theorem Web.Shows.answers_add (h : s.Shows m given M) (lib : Libc)
    (hg : routerAddApps routerInit [sessionApp] spare = .ok g) (hfiles : files.num < maxFiles)
    (pid : ℤ) (hv : v.Proper spare) (hask : v.ask = .add key data) :
    s.Answers lib g files pid spare m given v := by
  obtain ⟨request, resStr, hends, hquery, hsession, hvisit⟩ :=
    Web.visit_row lib hg hfiles pid hv (h.isJarId v.client) h.buffer
  have hpairs := hv.query
  have hroom := hv.fits
  have hblocks := (List.forall_mem_append.mp hv.copies).1
  rw [hask] at hquery hpairs hroom hblocks hvisit
  have hcopies := pair_copies hblocks
  obtain ⟨hkey, hdata⟩ := lastValue_pair key_ne_data (a := key) (b := data)
  obtain ⟨hkeyText, hdataText⟩ := isText_pair hpairs
  have hroom' : key.length + data.length ≤ 60 := hroom
  have hrun : SessionView.run (v.visited lib spare) s.store _ .sessionadd = _ :=
    run_sessionadd ((hquery _).trans hkey) ((hquery _).trans hdata) hkeyText hdataText hroom
      hcopies
  have hreply : IsText (setReply key data) ∧ setReply key data ≠ [] ∧
      (setReply key data).length ≤ 300 := by
    refine ⟨isText_setReply hkeyText hdataText, ?_, ?_⟩
    · exact List.append_ne_nil_of_left_ne_nil (List.append_ne_nil_of_left_ne_nil
        (List.append_ne_nil_of_left_ne_nil (by decide) _) _) _
    · rw [length_setReply]
      omega
  have hlen : data.length ≤ 241 := by omega
  have hdone : s.visit lib g files pid spare v
      = .ok (⟨addedStore s.store request key data v.now, resStr, s.jar⟩,
        some (setReply key data)) :=
    hvisit _ _ hreply.1 hreply.2.1 hreply.2.2 hrun
  rw [addedStore, hsession] at hdone
  have hdrawn : v.drawn lib = none := by rw [Visit.drawn, hask]
  by_cases hm : m v.client = []
  · have hjar := (h.jar_eq_nil_iff v.client).mpr hm
    have hstep : privateStep m v = (m, setReply key data) := by
      rw [privateStep, hask]
      dsimp only
      rw [if_pos hm]
    rw [hjar, List.length_nil, if_neg (Nat.lt_irrefl 0)] at hdone
    rw [Web.Answers, hstep, hdrawn]
    exact ⟨_, M, hdone, h.keep hends⟩
  · have hjar : s.jar v.client ≠ [] := fun hnil => hm ((h.jar_eq_nil_iff v.client).mp hnil)
    have hstep : privateStep m v = (Function.update m v.client
        (⟨key, data, v.now⟩ :: m v.client), setReply key data) := by
      rw [privateStep, hask]
      dsimp only
      rw [if_neg hm]
    obtain ⟨store', hstore', hstands⟩ := (h.stands.add (s.jar v.client) key data hv.time).2
      (by rwa [h.entries])
    rw [h.entries] at hstands
    rw [if_pos (List.length_pos_of_ne_nil hjar), hstore'] at hdone
    have hvalues : ∀ e ∈ (⟨key, data, v.now⟩ :: m v.client : List SessionEntry),
        IsText e.value ∧ e.value.length ≤ 241 :=
      List.forall_mem_cons.mpr ⟨⟨hdataText, hlen⟩, h.values v.client⟩
    rw [Web.Answers, hstep, hdrawn]
    exact ⟨_, _, hdone, h.change hjar (List.cons_ne_nil _ _) hvalues hstands hends⟩

theorem Web.Shows.answers_update (h : s.Shows m given M) (lib : Libc)
    (hg : routerAddApps routerInit [sessionApp] spare = .ok g) (hfiles : files.num < maxFiles)
    (pid : ℤ) (hv : v.Proper spare) (hask : v.ask = .update key data) :
    s.Answers lib g files pid spare m given v := by
  obtain ⟨request, resStr, hends, hquery, hsession, hvisit⟩ :=
    Web.visit_row lib hg hfiles pid hv (h.isJarId v.client) h.buffer
  have hpairs := hv.query
  have hroom := hv.fits
  have hblocks := (List.forall_mem_append.mp hv.copies).1
  rw [hask] at hquery hpairs hroom hblocks hvisit
  have hcopies := pair_copies hblocks
  obtain ⟨hkey, hdata⟩ := lastValue_pair key_ne_data (a := key) (b := data)
  obtain ⟨-, hdataText⟩ := isText_pair hpairs
  have hdrawn : v.drawn lib = none := by rw [Visit.drawn, hask]
  have hfaild : IsText (bytes "Update faild") ∧ bytes "Update faild" ≠ [] ∧
      (bytes "Update faild").length ≤ 300 := by decide
  have hdid : IsText (bytes "Update successfully!") ∧ bytes "Update successfully!" ≠ [] ∧
      (bytes "Update successfully!").length ≤ 300 := by decide
  have hrun := fun r => @run_updatesession (v.visited lib spare) s.store _ key data
    ((hquery _).trans hkey) ((hquery _).trans hdata) r
  have hupdate := h.stands.updateData (s.jar v.client) key data hv.time
  rw [h.entries] at hupdate
  have hcopied := h.stands.updateSessionDataIn_eq spare (s.jar v.client) key data hv.time
  rw [if_pos fun _ => hcopies.2] at hcopied
  -- with no name found nothing changes, with or without a session
  have hmissed : replaceFirst (fun e => if e.key = key then some ⟨key, data, v.now⟩ else none)
      (m v.client) = none → updateSessionDataR spare s.store request (some key) (some data) v.now
        = .ok (s.store, 0) := by
    intro hnone
    rw [hnone] at hupdate
    rw [updateSessionDataR, hsession]
    split
    · rw [hcopied, hupdate]
    · rfl
  cases hes : replaceFirst (fun e : SessionEntry =>
      if e.key = key then some ⟨key, data, v.now⟩ else none) (m v.client) with
  | none =>
      have hstep : privateStep m v = (m, bytes "Update faild") := by
        rw [privateStep, hask]
        dsimp only
        rw [hes]
      have hsent := hrun _ (hmissed hes)
      rw [if_neg (not_not_intro rfl)] at hsent
      have hdone := hvisit _ _ hfaild.1 hfaild.2.1 hfaild.2.2 hsent
      rw [Web.Answers, hstep, hdrawn]
      exact ⟨_, M, hdone, h.keep hends⟩
  | some es =>
      rw [hes] at hupdate
      obtain ⟨store', hstore', hstands⟩ := hupdate
      have hm : m v.client ≠ [] := by
        intro hnil
        rw [hnil] at hes
        cases hes
      have hjar : s.jar v.client ≠ [] := fun hnil => hm ((h.jar_eq_nil_iff v.client).mp hnil)
      have hstep : privateStep m v
          = (Function.update m v.client es, bytes "Update successfully!") := by
        rw [privateStep, hask]
        dsimp only
        rw [hes]
      have hR : updateSessionDataR spare s.store request (some key) (some data) v.now
          = .ok (store', 1) := by
        rw [updateSessionDataR, hsession, if_pos (List.length_pos_of_ne_nil hjar), hcopied,
          ← hstore']
      have hsent := hrun _ hR
      rw [if_pos (show (1 : ℤ) ≠ 0 from one_ne_zero)] at hsent
      have hdone := hvisit _ _ hdid.1 hdid.2.1 hdid.2.2 hsent
      have hvalues : ∀ e ∈ es, IsText e.value ∧ e.value.length ≤ 241 := by
        intro e he
        rcases mem_of_replaceFirst hes he with he | ⟨e', he'⟩
        · exact h.values v.client e he
        · split at he'
          · cases he'
            exact ⟨hdataText, hroom⟩
          · cases he'
      rw [Web.Answers, hstep, hdrawn]
      exact ⟨_, _, hdone, h.change hjar (replaceFirst_ne_nil hes) hvalues hstands hends⟩

/-- Every visit shows the client its own session. -/
theorem Web.Shows.answers (h : s.Shows m given M) (lib : Libc)
    (hg : routerAddApps routerInit [sessionApp] spare = .ok g) (hfiles : files.num < maxFiles)
    (pid : ℤ) (hv : v.Proper spare) (hnew : ∀ id ∈ v.drawn lib, id ∉ given) :
    s.Answers lib g files pid spare m given v := by
  cases hask : v.ask with
  | set key data => exact h.answers_set lib hg hfiles pid hv hask hnew
  | get name => exact h.answers_get lib hg hfiles pid hv hask
  | add key data => exact h.answers_add lib hg hfiles pid hv hask
  | update key data => exact h.answers_update lib hg hfiles pid hv hask

end

/-- From a state that shows the sessions, every client sees its own. -/
theorem Web.Shows.run_eq (lib : Libc) (hg : routerAddApps routerInit [sessionApp] spare = .ok g)
    (hfiles : files.num < maxFiles) (pid : ℤ) {visits : List (Visit C)} {s : Web C}
    {m : Sessions C}
    {given : List (List UInt8)} {M : SessionMap} (h : s.Shows m given M)
    (hvisits : ∀ v ∈ visits, v.Proper spare)
    (hnew : ∀ id ∈ visits.filterMap (Visit.drawn lib), id ∉ given)
    (hdistinct : (visits.filterMap (Visit.drawn lib)).Nodup) :
    ∃ s', Web.run lib g files pid spare s visits
      = .ok (s', (runOuts privateStep m visits).2.map some) := by
  induction visits generalizing s m given M with
  | nil => exact ⟨s, rfl⟩
  | cons v vs ih =>
      obtain ⟨hv, hvs⟩ := List.forall_mem_cons.mp hvisits
      -- the id of this visit is drawn on no later one
      have hhead : ∀ id ∈ v.drawn lib, id ∉ given ∧ id ∉ vs.filterMap (Visit.drawn lib) := by
        intro id hid
        rw [Option.mem_def] at hid
        rw [List.filterMap_cons_some hid] at hnew hdistinct
        exact ⟨hnew id List.mem_cons_self, (List.nodup_cons.mp hdistinct).1⟩
      have htail : (∀ id ∈ vs.filterMap (Visit.drawn lib), id ∉ (v.drawn lib).toList ++ given) ∧
          (vs.filterMap (Visit.drawn lib)).Nodup := by
        cases hid : v.drawn lib with
        | none =>
            rw [List.filterMap_cons_none hid] at hnew hdistinct
            exact ⟨hnew, hdistinct⟩
        | some id =>
            rw [List.filterMap_cons_some hid] at hnew hdistinct
            refine ⟨?_, (List.nodup_cons.mp hdistinct).2⟩
            intro id' hid' hmem
            rcases List.mem_cons.mp hmem with rfl | hmem
            · exact (hhead _ hid).2 hid'
            · exact hnew id' (List.mem_cons_of_mem _ hid') hmem
      obtain ⟨s', M', hvisit, hshows⟩ :=
        h.answers lib hg hfiles pid hv fun id hid => (hhead id hid).1
      obtain ⟨s'', hrest⟩ := ih hshows hvs htail.1 htail.2
      refine ⟨s'', ?_⟩
      rw [Web.run, hvisit, ok_bind]
      dsimp only
      rw [hrest, ok_bind]
      rfl

/-- What a client sees, and what becomes of its session, hangs on its own session alone. -/
theorem privateStep_simulates (c : C) :
    Simulates (fun m m' : Sessions C => m c = m' c) (fun v => v.client = c) privateStep
      privateStep := by
  rintro m m' v hsame rfl
  dsimp only at hsame ⊢
  unfold privateStep
  cases v.ask with
  | set key data => simp only [Function.update_self, and_self]
  | get name =>
      dsimp only
      refine ⟨hsame, ?_⟩
      rw [hsame]
  | add key data =>
      dsimp only
      rw [← hsame]
      split
      · exact ⟨hsame, rfl⟩
      · simp only [Function.update_self, and_self]
  | update key data =>
      dsimp only
      rw [← hsame]
      split
      · simp only [Function.update_self, and_self]
      · exact ⟨hsame, rfl⟩

/-- A visit leaves the sessions of the others alone. -/
theorem privateStep_other (m : Sessions C) {v : Visit C} {c : C} (hc : v.client ≠ c) :
    (privateStep m v).1 c = m c := by
  unfold privateStep
  cases v.ask with
  | set key data => exact Function.update_of_ne hc.symm _ _
  | get name => rfl
  | add key data =>
      dsimp only
      split
      · rfl
      · exact Function.update_of_ne hc.symm _ _
  | update key data =>
      dsimp only
      split
      · exact Function.update_of_ne hc.symm _ _
      · rfl

end

/-- A visit with nothing in the way. -/
def plainVisit (client : Bool) (ask : Ask) (timep : ℤ) : Visit Bool where
  client := client
  ask := ask
  headers := []
  junk := fun _ => .zero
  mem := .zero
  world := diskWorld none
  timep := timep
  now := 0

theorem proper_plainVisit (client : Bool) {ask : Ask} (timep : ℤ)
    (hquery : ∀ p ∈ ask.query, IsQueryPair p) (hfits : ask.Fits)
    (hlen : (renderQuery ask.query).length ≤ 1000)
    (hcopies : ∀ p ∈ ask.query, chunkSpare p.key.length ∧ chunkSpare p.value.length) :
    (plainVisit client ask timep).Proper chunkSpare where
  query := hquery
  fits := hfits
  headers := List.forall_mem_nil _
  length_lt id hid := by
    have hget : (bytes "GET ").length = 4 := by decide
    have hversion : (bytes " HTTP/1.1\r\n").length = 11 := by decide
    have hcrlf : (bytes "\r\n").length = 2 := by decide
    have hname : (bytes "Cookie").length = 6 ∧ (bytes "dmfsession=").length = 11 := by decide
    have hpath := ask.path_spec.2.2.2
    have hheaders : (renderHeaders (cookieHeader id)).length ≤ 100 := by
      rw [cookieHeader]
      split
      · exact Nat.zero_le _
      · simp only [renderHeaders, List.length_append, List.length_cons, List.length_nil, hname]
        omega
    have hmax : receiveMaxBytes = 524288 := rfl
    simp only [Visit.text, plainVisit, List.nil_append, List.length_append, hget, hversion, hcrlf]
    omega
  copies := by
    rw [plainVisit, List.append_nil]
    exact hcopies
  cookie_copies := by decide
  time := ⟨by norm_num [plainVisit], by norm_num [plainVisit]⟩
