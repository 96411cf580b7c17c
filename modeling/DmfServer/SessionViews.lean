/-
# The session views

The views that keep a session for a client: `setsession` makes one and sends its id in a cookie,
and `getsession`, `sessionadd` and `updatesession` go by the cookie of their request.

Here they are functions of the store and the request.  What each of them does to the store, and
sends, when its texts have room: `run_setsession`, `run_getsession`, `run_sessionadd` and
`run_updatesession`.  The line of the session cookie has 34 characters and runs over its array, so
that what is sent for `setsession` has an empty line too many (`sessionHead`).
-/
import DmfServer.SessionCookie
import DmfServer.SessionIds
import DmfServer.Release

open CMem ChainTable

/-! ## The functions that take a request -/

/-- `req_get_session_str`, as `getSessionR`, `SessionAddR` and `UpdateSessionDataR` call it.  The
cut that it leaves in the header is read by none of the views. -/
def sessionStrOf (req : Request) : List UInt8 := (reqGetSessionStr req []).2

/-- `getSessionR`; the `key` may be `NULL`, and is compared with what is stored. -/
def getSessionR (store : SessionStore) (req : Request) (key : Option (List UInt8)) (now : ℤ) :
    Except Fault (Option (List UInt8)) :=
  match key with
  | some key => .ok (getSession store (sessionStrOf req) key now)
  | none =>
      if (hashNodes store (sessionStrOf req)).isEmpty then .ok none
      else .error .null

/-- `SessionAddR`. -/
def sessionAddR (spare : SpareByte) (store : SessionStore) (req : Request)
    (key data : List UInt8) (now : ℤ) : Except Fault (SessionStore × ℤ) :=
  if 0 < (sessionStrOf req).length then
    sessionAddIn spare store (sessionStrOf req) key data now
  else .ok (store, -1)

/-- `UpdateSessionDataR`; of a `newdata` that is `NULL` the length is taken once the name is
found. -/
def updateSessionDataR (spare : SpareByte) (store : SessionStore) (req : Request)
    (key newdata : Option (List UInt8)) (now : ℤ) : Except Fault (SessionStore × ℤ) :=
  if 0 < (sessionStrOf req).length then
    match key, newdata with
    | some key, some newdata =>
        updateSessionDataIn spare store (sessionStrOf req) key newdata now
    | some key, none =>
        if (hashNodes store (sessionStrOf req)).any fun node =>
            node.value.any fun d => d.key = key then .error .null
        else .ok (store, 0)
    | none, _ =>
        if (hashNodes store (sessionStrOf req)).isEmpty then .ok (store, 0) else .error .null
  else .ok (store, 0)

/-- The lines that `SessionAll` prints for a node. -/
def HashNode.debugTexts (now : ℤ) (node : HashNode) : List (List UInt8) :=
  [node.key, bytes "\n"] ++
    node.value.flatMap (fun d =>
      [bytes "           Key: ", d.key, bytes " Data: ", d.data] ++
        (if toInt (d.timeStore + d.expire) < now then [bytes "(expired)"] else []) ++
        [bytes "\n"]) ++ [bytes "\n"]

/-- `SessionAll`: what it prints. -/
def sessionAll (store : SessionStore) (now : ℤ) : Except Fault (Block (1024 * 512)) :=
  Block.catAll (1024 * 512) (((List.range hashDecLen).zip store.chains.toList).flatMap
    fun (i, nodes) =>
      [itoa (i : ℤ) [] 10, bytes "------------\n"] ++ nodes.flatMap (HashNode.debugTexts now))

/-! ## The views -/

/-- The views of `testviews/session.c`. -/
inductive SessionView : Type where
  | setsession : SessionView
  | getsession : SessionView
  | sessionadd : SessionView
  | updatesession : SessionView
  | sessiondebug : SessionView
  deriving DecidableEq

/-- What a view meets: the world of its answer, the times at which it draws an id and at which it
reads the clock for the data, and the blocks for its copies. -/
structure Visited where
  lib : Libc
  world : World
  timep : ℤ
  now : ℤ
  spare : SpareByte

/-- The argument of `strcat`. -/
def textArg : Option (List UInt8) → Except Fault (List UInt8)
  | some s => .ok s
  | none => .error .null

/-- `res_str` of `setsession` and `sessionadd`. -/
def setText (key data : Option (List UInt8)) : Except Fault (Block 80) := do
  let resStr ← (Block.zero 80).strcat 0 (bytes "SET session ")
  let key ← textArg key
  let resStr ← resStr.strcat 0 key
  let resStr ← resStr.strcat 0 (bytes " data: ")
  let data ← textArg data
  resStr.strcat 0 data

/-- The view, with the store behind it and what it has done. -/
def SessionView.run (e : Visited) (store : SessionStore) (req : Request) :
    SessionView → Except Fault (SessionStore × List Act)
  | .setsession => do
      let resStr ← setText (hashmapGet req.query (bytes "key"))
        (hashmapGet req.query (bytes "data"))
      let key ← textArg (hashmapGet req.query (bytes "key"))
      let data ← textArg (hashmapGet req.query (bytes "data"))
      let sessionStr := getRandomStr e.lib e.timep 10
      let store ← sessionCreateIn e.spare store sessionStr key data e.now
      let res ← resInit e.world.now e.world.raw
      let res ← resSetHead res (bytes "200")
      let res ← resSetType res (bytes "text/html;utf-8;")
      let res ← resSetSession res sessionStr
      let res := resSetBody res (resStr.str 0) (resStr.str 0).length
      let acts ← resParseSend e.world.wire res []
      .ok (store, acts)
  | .getsession => do
      let s ← getSessionR store req (hashmapGet req.query (bytes "name")) e.now
      match s with
      | none => do
          let acts ← resRow e.world (bytes "no such key") []
          .ok (store, acts)
      | some s => do
          let res ← Block.catAll 256 [bytes "session data: ", s]
          let acts ← resRow e.world (res.str 0) []
          .ok (store, acts)
  | .sessionadd => do
      let resStr ← setText (hashmapGet req.query (bytes "key"))
        (hashmapGet req.query (bytes "data"))
      let key ← textArg (hashmapGet req.query (bytes "key"))
      let data ← textArg (hashmapGet req.query (bytes "data"))
      let (store, _) ← sessionAddR e.spare store req key data e.now
      let acts ← resRow e.world (resStr.str 0) []
      .ok (store, acts)
  | .updatesession => do
      let (store, res) ← updateSessionDataR e.spare store req (hashmapGet req.query (bytes "key"))
        (hashmapGet req.query (bytes "data")) e.now
      if res ≠ 0 then do
        let acts ← resRow e.world (bytes "Update successfully!") []
        .ok (store, acts)
      else do
        let acts ← resRow e.world (bytes "Update faild") []
        .ok (store, acts)
  | .sessiondebug => do
      let _ ← sessionAll store e.now
      let acts ← resRow e.world (bytes "This is a test str") []
      .ok (store, acts)

/-- What `RouterAdd(session)` registers. -/
def sessionApp : App SessionView where
  cf := [.setsession, .getsession, .sessionadd, .updatesession, .sessiondebug]
  keys := [bytes "/setsession", bytes "/getsession", bytes "/sessionadd", bytes "/updatesession",
    bytes "/sessiondebug"]
  name := bytes "session"
  same_length := rfl
  name_text := by decide
  keys_text := by decide
  route_length := by decide

/-! ## Ids -/

/-- An id that `get_random_str` draws. -/
structure IsSessionId (id : List UInt8) : Prop where
  length : id.length = 10
  chars : ∀ c ∈ id, c ∈ seedStr

theorem isSessionId_getRandomStr (lib : Libc) (timep : ℤ) :
    IsSessionId (getRandomStr lib timep 10) where
  length := by rw [getRandomStr, drawnStr, List.length_map, List.length_range]
  chars := by
    intro c hc
    obtain ⟨i, -, rfl⟩ := List.mem_map.mp hc
    have hlt : lib.rand (seedNum (lib.localtime timep)) i % seedStr.length < seedStr.length :=
      Nat.mod_lt _ (by decide)
    rw [List.getD_eq_getElem?_getD, List.getElem?_eq_getElem hlt, Option.getD_some]
    exact List.getElem_mem hlt

section
variable {id : List UInt8} (hid : IsSessionId id)
include hid

/-- None of its characters means anything in a header. -/
theorem IsSessionId.notMem {c : UInt8} (hc : c ∉ seedStr) : c ∉ id := by
  intro hmem
  exact hc (hid.chars c hmem)

theorem IsSessionId.isText : IsText id := hid.notMem (by decide)

theorem IsSessionId.ne_nil : id ≠ [] := by
  rintro rfl
  exact absurd hid.length (by decide)

end

/-! ## What the views do -/

section
variable {e : Visited} {store : SessionStore} {req : Request} {key data : List UInt8}

/-- What `res_str` holds. -/
def setReply (key data : List UInt8) : List UInt8 :=
  bytes "SET session " ++ key ++ bytes " data: " ++ data

theorem isText_setReply (hkey : IsText key) (hdata : IsText data) : IsText (setReply key data) := by
  have h₁ : IsText (bytes "SET session ") := by decide
  have h₂ : IsText (bytes " data: ") := by decide
  simp only [setReply, isText_append]
  exact ⟨⟨⟨h₁, hkey⟩, h₂⟩, hdata⟩

theorem length_setReply (key data : List UInt8) :
    (setReply key data).length = 19 + key.length + data.length := by
  have h₁ : (bytes "SET session ").length = 12 := by decide
  have h₂ : (bytes " data: ").length = 7 := by decide
  simp only [setReply, List.length_append, h₁, h₂]
  omega

/-- `res_str`, when the texts have room. -/
theorem setText_eq (hkey : IsText key) (hdata : IsText data)
    (hroom : key.length + data.length ≤ 60) :
    ∃ resStr, setText (some key) (some data) = .ok resStr ∧ resStr.str 0 = setReply key data := by
  have htexts : ∀ s ∈ [bytes "SET session ", key, bytes " data: ", data], IsText s := by
    intro s hs
    simp only [List.mem_cons, List.not_mem_nil, or_false] at hs
    rcases hs with rfl | rfl | rfl | rfl
    · decide
    · exact hkey
    · decide
    · exact hdata
  have hflatten : [bytes "SET session ", key, bytes " data: ", data].flatten
      = setReply key data := by
    simp only [setReply, List.flatten_cons, List.flatten_nil, List.append_assoc, List.append_nil]
  have hfits : [bytes "SET session ", key, bytes " data: ", data].flatten.length < 80 := by
    rw [hflatten, length_setReply]
    omega
  obtain ⟨resStr, hrun, hstr⟩ := Block.catAll_eq htexts hfits
  refine ⟨resStr, ?_, hstr.trans hflatten⟩
  rw [← hrun]
  simp only [setText, textArg, Block.catAll, List.foldlM_cons, List.foldlM_nil, ok_bind, bind_pure]

/-- The head that is sent for `setsession`: what runs over from the line of the cookie leaves an
empty line where the `Connection` line was. -/
def sessionHead (p : Tm) (id : List UInt8) : List UInt8 :=
  statusLine (bytes "200") ++ serverLine ++ dateLine p ++
    (typeLine (bytes "text/html;utf-8;") ++ (Cookie.session id).line ++ bytes "\r\n") ++
    bytes "\r\n"

theorem isText_200 : IsText (bytes "200") := by decide

theorem length_200 : (bytes "200").length ≤ 20 := by decide

theorem isSuppliedType_html : IsSuppliedType (bytes "text/html;utf-8;") := .inr rfl

/-- The answer of `setsession`. -/
def setPlan (id text : List UInt8) (hid : IsText id) : Plan where
  code := bytes "200"
  type := bytes "text/html;utf-8;"
  cookie := some (.session id)
  body := text
  code_text := isText_200
  code_length := length_200
  type_supplied := isSuppliedType_html
  cookie_text := by
    rintro c ⟨⟩
    exact ⟨show IsText (bytes "dmfsession") by decide, hid⟩

/-- It is sent with an empty line in front of the body. -/
theorem buildAndSend_setPlan {id text : List UInt8} (hid : IsSessionId id)
    (hroom : text.length ≤ 79) (wire : ℕ → ℤ) (p : Tm) (raw : Response) :
    buildAndSend wire p raw (setPlan id text hid.isText).calls
      = .ok (resHandle wire (sessionHead p id ++ text) []) := by
  have hplace := places
  have hcode := length_200
  obtain ⟨res, tail, hrun, htail, hholds, hbody, hsize⟩ :=
    buildAndSend_eq wire p raw (List.Perm.refl (setPlan id text hid.isText).calls)
  have horder : tail = [.contentType (setPlan id text hid.isText).type, .cookie (.session id)] ∨
      tail = [.cookie (.session id), .contentType (setPlan id text hid.isText).type] := by
    rcases Plan.tail_cases htail with ⟨hnone, -⟩ | ⟨c, hc, horder⟩
    · cases hnone
    · obtain rfl := Option.some.inj hc
      exact horder
  have htype : (typeLine (bytes "text/html;utf-8;")).length = 31 := by decide
  have hline : (Cookie.session id).line.length = 34 := by
    rw [length_cookieLine, Cookie.name, Cookie.value, hid.length]
    decide
  obtain ⟨res', hwrite, hholds', hbody', hsize'⟩ :=
    writeCalls_of_short hholds rfl (le_of_eq htype) (by omega) horder
  have hspill : spill (Cookie.session id).line connectionLine = bytes "\r\n" := by
    have hfront : (bytes "Set-cookie:" ++ bytes "dmfsession" ++ bytes "=" ++ id).length = 32 := by
      rw [List.length_append, hid.length]
      decide
    rw [spill_of_long (by omega), Cookie.line, Cookie.name, Cookie.value, ← hfront, List.drop_left]
  rw [hspill] at hholds'
  have hconnection : (bytes "\r\n").length = 2 := by decide
  have hends := hholds'.ends_all hcode
    (show contentTypeAt + (typeLine (bytes "text/html;utf-8;")).length < responseSize by omega)
    (by omega) (by omega)
  have hsendable : res'.Sendable text := by
    refine ⟨hbody'.trans hbody, (hsize'.trans hsize).le, hends, ?_⟩
    have hS := length_serverLine
    have hD := length_dateLine_le p
    have hH := length_statusLine (bytes "200")
    have hlen : res'.bodySize ≤ 79 := (hsize'.trans hsize).trans_le hroom
    rw [hholds'.headerText_eq]
    simp only [List.length_append, hline, hconnection, hS, hH,
      show (setPlan id text hid.isText).code = bytes "200" from rfl,
      show (setPlan id text hid.isText).type = bytes "text/html;utf-8;" from rfl, htype]
    show _ ≤ 1048576
    omega
  have htake : text.take res'.bodySize = text := by
    rw [hsize'.trans hsize]
    exact List.take_length
  rw [hrun, hwrite, ok_bind, hsendable.resParseSend_eq, htake, hholds'.headerText_eq]
  rfl

/-- `setsession` makes a session and sends its id. -/
theorem run_setsession (hkey : hashmapGet req.query (bytes "key") = some key)
    (hdata : hashmapGet req.query (bytes "data") = some data) (hkeyText : IsText key)
    (hdataText : IsText data) (hroom : key.length + data.length ≤ 60)
    (hcopies : e.spare 10 ∧ e.spare key.length ∧ e.spare data.length) :
    SessionView.run e store req .setsession
      = .ok (sessionCreate store (getRandomStr e.lib e.timep 10) key data e.now,
        resHandle e.world.wire
          (sessionHead e.world.now (getRandomStr e.lib e.timep 10) ++ setReply key data) []) := by
  have hid := isSessionId_getRandomStr e.lib e.timep
  obtain ⟨resStr, htext, hstr⟩ := setText_eq hkeyText hdataText hroom
  have hshort : (setReply key data).length ≤ 79 := by
    rw [length_setReply]
    omega
  have hsend := buildAndSend_setPlan hid hshort e.world.wire e.world.now e.world.raw
  have hcreate : sessionCreateIn e.spare store (getRandomStr e.lib e.timep 10) key data e.now
      = .ok (sessionCreate store (getRandomStr e.lib e.timep 10) key data e.now) := by
    rw [sessionCreateIn_eq, hid.length, if_pos hcopies]
  have hview : SessionView.run e store req .setsession = (do
      let acts ← buildAndSend e.world.wire e.world.now e.world.raw
        (setPlan (getRandomStr e.lib e.timep 10) (setReply key data) hid.isText).calls
      .ok (sessionCreate store (getRandomStr e.lib e.timep 10) key data e.now, acts)) := by
    simp only [SessionView.run, hkey, hdata, htext, textArg, ok_bind, hcreate, hstr, buildAndSend,
      applyCalls, Plan.calls, setPlan, Option.toList_some, List.map_cons, List.map_nil,
      List.cons_append, List.nil_append, List.foldlM_cons, List.foldlM_nil, BuildCall.apply,
      bind_assoc, pure_bind]
  rw [hview, hsend, ok_bind]

/-- The text that `getsession` sends for what it has found. -/
def getReply : Option (List UInt8) → List UInt8
  | some s => bytes "session data: " ++ s
  | none => bytes "no such key"

/-- `getsession` sends what the session has under the name. -/
theorem run_getsession (hname : hashmapGet req.query (bytes "name") = some key)
    (hroom : ∀ s, getSession store (sessionStrOf req) key e.now = some s →
      IsText s ∧ s.length ≤ 241) :
    SessionView.run e store req .getsession = (do
      let acts ← resRow e.world (getReply (getSession store (sessionStrOf req) key e.now)) []
      .ok (store, acts)) := by
  have hR : getSessionR store req (some key) e.now
      = .ok (getSession store (sessionStrOf req) key e.now) := rfl
  rw [SessionView.run, hname, hR, ok_bind]
  cases hget : getSession store (sessionStrOf req) key e.now with
  | none => simp only [getReply]
  | some s =>
      obtain ⟨htext, hlen⟩ := hroom s hget
      have htexts : ∀ x ∈ [bytes "session data: ", s], IsText x := by
        intro x hx
        simp only [List.mem_cons, List.not_mem_nil, or_false] at hx
        rcases hx with rfl | rfl
        · decide
        · exact htext
      have hprefix : (bytes "session data: ").length = 14 := by decide
      have hflatten : [bytes "session data: ", s].flatten = bytes "session data: " ++ s := by
        simp only [List.flatten_cons, List.flatten_nil, List.append_nil]
      have hfits : [bytes "session data: ", s].flatten.length < 256 := by
        rw [hflatten, List.length_append, hprefix]
        omega
      obtain ⟨res, hrun, hstr⟩ := Block.catAll_eq htexts hfits
      dsimp only
      rw [hrun, ok_bind, hstr, hflatten, getReply]

/-- The store behind `SessionAddR`, when the copies have room. -/
def addedStore (store : SessionStore) (req : Request) (key data : List UInt8) (now : ℤ) :
    SessionStore :=
  if 0 < (sessionStrOf req).length then (sessionAdd store (sessionStrOf req) key data now).1
  else store

/-- `sessionadd` adds to the session, if there is one. -/
theorem run_sessionadd (hkey : hashmapGet req.query (bytes "key") = some key)
    (hdata : hashmapGet req.query (bytes "data") = some data) (hkeyText : IsText key)
    (hdataText : IsText data) (hroom : key.length + data.length ≤ 60)
    (hcopies : e.spare key.length ∧ e.spare data.length) :
    SessionView.run e store req .sessionadd = (do
      let acts ← resRow e.world (setReply key data) []
      .ok (addedStore store req key data e.now, acts)) := by
  obtain ⟨resStr, htext, hstr⟩ := setText_eq hkeyText hdataText hroom
  have hadd : (sessionAddR e.spare store req key data e.now).map Prod.fst
      = .ok (addedStore store req key data e.now) := by
    rw [sessionAddR, addedStore]
    split
    · rw [sessionAddIn_eq, if_pos hcopies]
      rfl
    · rfl
  obtain ⟨r, hr, hstore⟩ := exists_of_map hadd
  rw [SessionView.run, hkey, hdata, htext, ok_bind, textArg, textArg, ok_bind, ok_bind, hr,
    ok_bind, hstr, ← hstore]

/-- `updatesession` says whether it has found the name. -/
theorem run_updatesession (hkey : hashmapGet req.query (bytes "key") = some key)
    (hdata : hashmapGet req.query (bytes "data") = some data) {r : SessionStore × ℤ}
    (hr : updateSessionDataR e.spare store req (some key) (some data) e.now = .ok r) :
    SessionView.run e store req .updatesession = (do
      let acts ← resRow e.world
        (if r.2 ≠ 0 then bytes "Update successfully!" else bytes "Update faild") []
      .ok (r.1, acts)) := by
  obtain ⟨store', res⟩ := r
  simp only [SessionView.run, hkey, hdata, hr, ok_bind]
  split
  · rfl
  · rfl

end
