/-
# The release of a connection

A view answers its request through one of the functions of the response module, and the
function that answers also closes the connection and frees it.  The container does so
itself only when the middleware refuses a request, which `res_without_permission` has
answered by then.  `releasesOnce_iff` says which requests leave their connection released
exactly once.
-/
import DmfServer.ResponseHeader

open CMem

/-! ## Files -/

/-- What lies around a request: what `send` returns, the time, the files, what stands in a
`response_t` before `res_init`, and what `ip_check_valid` says of the client. -/
structure World where
  wire : ℕ → ℤ
  now : Tm
  /-- The content of the file at a path, if `fopen` opens it. -/
  disk : List UInt8 → Option (List UInt8)
  raw : Response
  ipCheckValid : ℤ

/-- What `res_load_file` returns. -/
inductive Loaded : Type where
  /-- The content of the file, in memory from `malloc`. -/
  | content : List UInt8 → Loaded
  /-- The literal `""`. -/
  | literal : Loaded
  deriving DecidableEq

/-- The bytes at the pointer. -/
def Loaded.bytes : Loaded → List UInt8
  | .content bytes => bytes
  | .literal => [0]

/-- `free` of the pointer. -/
def Loaded.free : Loaded → Except Fault Unit
  | .content _ => .ok ()
  | .literal => .error .free

/-- `res_load_file`. -/
def resLoadFile (disk : List UInt8 → Option (List UInt8)) (path : List UInt8) : Loaded :=
  match disk path with
  | none => .literal
  | some content => .content content

/-- The size of `buffer` in `res_file_handle`. -/
def chunkSize : ℕ := 1024 * 512

/-- What `%x` prints. -/
def hex (n : ℕ) : List UInt8 := (Nat.toDigits 16 n).map fun c => UInt8.ofNat c.toNat

/-- The calls of `send` in one round of `res_file_handle`, for the bytes it has read. -/
def sendChunk (wire : ℕ → ℤ) (buffer : List UInt8) (acts : List Act) :
    Except Fault (List Act) := do
  let chunkHeader ← (Block.zero 10).strcpy 0 (hex buffer.length ++ bytes "\r\n")
  let acts := sendOn wire (chunkHeader.str 0) acts
  let acts := sendOn wire buffer acts
  .ok (sendOn wire (bytes "\r\n") acts)

/-- The loop of `res_file_handle` over the rest of the file.  `feof` holds after a `fread`
that found less than a whole buffer. -/
def sendChunks (wire : ℕ → ℤ) (content : List UInt8) (acts : List Act) :
    Except Fault (List Act) :=
  if content.length < chunkSize then sendChunk wire content acts
  else do
    let acts ← sendChunk wire (content.take chunkSize) acts
    sendChunks wire (content.drop chunkSize) acts
termination_by content.length
decreasing_by
  have hpos : 0 < chunkSize := by decide
  rw [List.length_drop]
  omega

/-- `res_file_handle`. -/
def resFileHandle (w : World) (path contentType : List UInt8) (acts : List Act) :
    Except Fault (List Act) := do
  let head ← Block.catAll 512
    [bytes "HTTP/1.1 200 OK\r\n", bytes "Content-Type: ", contentType, bytes "\r\n",
      bytes "Transfer-Encoding: chunked\r\n\r\n"]
  let acts := sendOn w.wire (head.str 0) acts
  match w.disk path with
  | none => .ok (acts ++ [.closeSocket])
  | some content => do
      let acts ← sendChunks w.wire content acts
      .ok (sendOn w.wire (bytes "0\r\n\r\n") acts ++ [.closeSocket])

/-! ## The functions that answer -/

/-- `res_row`. -/
def resRow (w : World) (resStr : List UInt8) (acts : List Act) : Except Fault (List Act) := do
  let conlen ← (Block.zero 8).strcpy 0 (itoa (toInt resStr.length) [] 10)
  let finalStr ← Block.catAll finalStrSize
    [bytes "HTTP/1.1 200 OK\r\nContent-type:text/html;utf-8;\r\nConnection: Keep-alive;\r\n",
      bytes "Content-Length: ", conlen.str 0, bytes "\r\n\r\n", resStr]
  .ok (resHandle w.wire (finalStr.str 0) acts)

/-- `res_notfound`. -/
def resNotfound (w : World) (acts : List Act) : Except Fault (List Act) := do
  let finalStr ← Block.catAll finalStrSize
    [bytes ("HTTP/1.1 404 \r\nContent-type:text/html;utf-8;\r\n" ++
        "Connection: close;\r\nContent-Length: 18\r\n\r\n"), bytes "<h1>Not Found</h1>"]
  .ok (resHandle w.wire (finalStr.str 0) acts)

/-- `res_render`, with what `parse_context` has made of the template. -/
def resRender (w : World) (res : List UInt8) (acts : List Act) : Except Fault (List Act) :=
  resRow w res acts

/-- `res_without_permission`. -/
def resWithoutPermission (w : World) (acts : List Act) : Except Fault (List Act) := do
  let finalStr ← Block.catAll finalStrSize
    [bytes "HTTP/1.1 403 \r\n\r\nYou are without permission"]
  .ok (resHandle w.wire (finalStr.str 0) acts)

/-- The size of a file as `res_static` gets it, in an `unsigned int`. -/
def FileInfo.argSize (f : FileInfo) : ℕ := f.size % 2 ^ 32

/-- `res_static`. -/
def resStatic (w : World) (f : FileInfo) (acts : List Act) : Except Fault (List Act) :=
  if 1024 * 1024 * 1 < f.argSize then resFileHandle w f.path f.contentType acts
  else do
    let resStr := resLoadFile w.disk f.path
    let res ← resInit w.now w.raw
    let res ← resSetHead res (bytes "200")
    let res ← resSetType res f.contentType
    let res := resSetBody res resStr.bytes f.argSize
    let acts ← resParseSend w.wire res acts
    resStr.free
    .ok acts

/-- How a request is answered. -/
inductive Answer : Type where
  | row : { s : List UInt8 // IsText s } → Answer
  | render : { s : List UInt8 // IsText s } → Answer
  /-- `res_parse_send` of a record, however it was filled. -/
  | parseSend : Response → Answer
  | notfound : Answer
  | static : FileInfo → Answer

/-- The call of the function that answers. -/
def Answer.run (w : World) : Answer → List Act → Except Fault (List Act)
  | .row s, acts => resRow w s acts
  | .render s, acts => resRender w s acts
  | .parseSend res, acts => resParseSend w.wire res acts
  | .notfound, acts => resNotfound w acts
  | .static f, acts => resStatic w f acts

/-- A view answers its request with one call of the response module. -/
abbrev View : Type := Request → Answer

/-- What the router's choice comes to. -/
def Target.answer (req : Request) : Target View → Answer
  | .view v => v req
  | .static f => .static f
  | .notfound => .notfound

/-! ## Containers -/

/-- `middleware_check_if_too_often`. -/
def middlewareCheckIfTooOften (w : World) : ℤ :=
  if w.ipCheckValid = 2 then -2 else if w.ipCheckValid = 3 then -3 else 0

/-- `middleware_handle`. -/
def middlewareHandle (w : World) (acts : List Act) : Except Fault (ℤ × List Act) :=
  if middlewareCheckIfTooOften w ≠ 0 then do
    let acts ← resWithoutPermission w acts
    .ok (-1001, acts)
  else .ok (1, acts)

/-- `router_handle` with the call of what it has chosen. -/
def routerAnswer (w : World) (g : CtlFunMap View) (files : FileList) (req : Request)
    (acts : List Act) : Except Fault (List Act) := do
  let t ← routerHandle g files req
  (t.answer req).run w acts

/-- The loops that serve requests. -/
inductive Container : Type where
  /-- `simple_container_handler`. -/
  | simple : Container
  /-- `epoll_handle`. -/
  | epoll : Container
  /-- `iocp_handle`. -/
  | iocp : Container
  deriving DecidableEq

/-- A container, from the parsed request to the next one. -/
def Container.handle (c : Container) (w : World) (g : CtlFunMap View) (files : FileList)
    (req : Request) : Except Fault (List Act) :=
  match c with
  | .simple => routerAnswer w g files req []
  | .epoll => routerAnswer w g files req []
  | .iocp => do
      let (res, acts) ← middlewareHandle w []
      if res < 0 then .ok (acts ++ [.connectionClose, .connectionFree])
      else routerAnswer w g files req acts

/-! ## Released once -/

/-- The run comes to its end, and has closed and freed the connection once. -/
def ReleasesOnce (run : Except Fault (List Act)) : Prop :=
  ∃ acts, run = .ok acts ∧ acts.count .connectionClose = 1 ∧ acts.count .connectionFree = 1

/-- The middleware lets the request pass, where the container asks it. -/
def Container.Admits (c : Container) (w : World) : Prop :=
  c = .iocp → w.ipCheckValid ≠ 2 ∧ w.ipCheckValid ≠ 3

/-- What `res_row` sends. -/
def rowText (resStr : List UInt8) : List UInt8 :=
  bytes "HTTP/1.1 200 OK\r\nContent-type:text/html;utf-8;\r\nConnection: Keep-alive;\r\n" ++
    bytes "Content-Length: " ++ itoa resStr.length [] 10 ++ bytes "\r\n\r\n" ++ resStr

/-- The header of a file, with what a long content type spills over. -/
def fileHeader (p : Tm) (contentType : List UInt8) : List UInt8 :=
  statusLine (bytes "200") ++ serverLine ++ dateLine p ++
    (typeLine contentType ++ spill (typeLine contentType) [] ++
      spill ((typeLine contentType).drop 32) connectionLine) ++ bytes "\r\n"

/-- A file of at most 1 MiB that can be opened, is still as long as it was, and fits with
its header into what is sent. -/
structure FileInfo.Served (f : FileInfo) (w : World) : Prop where
  small : f.argSize ≤ 1024 * 1024
  content : ∃ content, w.disk f.path = some content ∧ f.argSize ≤ content.length
  type_room : contentTypeAt + (typeLine f.contentType).length < responseSize
  fits : (fileHeader w.now f.contentType).length + f.argSize ≤ finalStrSize

/-- What is answered has room where the response module puts it together, and a file is not
too long for one response. -/
def Answer.Fits (w : World) : Answer → Prop
  | .row s => (rowText s).length < finalStrSize
  | .render s => (rowText s).length < finalStrSize
  | .parseSend res => ∃ body, res.Sendable body
  | .notfound => True
  | .static f => f.Served w

theorem not_releasesOnce_error (e : Fault) : ¬ ReleasesOnce (.error e) := by
  rintro ⟨acts, ⟨⟩, -⟩

/-- `res_handle` releases the connection, and once more if `send` fails. -/
theorem releasesOnce_resHandle (wire : ℕ → ℤ) (resStr : List UInt8) :
    ReleasesOnce (.ok (resHandle wire resStr [])) ↔ wire 0 ≠ -1 := by
  by_cases h : wire 0 = -1
  · have hrun : resHandle wire resStr [] = [.send resStr (wire 0), .connectionClose,
        .connectionFree, .connectionClose, .connectionFree] := by
      simp [resHandle, sendOn, sentBytes, h]
    refine iff_of_false ?_ (not_not_intro h)
    rintro ⟨acts, hacts, hclose, -⟩
    cases hacts
    rw [hrun] at hclose
    simp at hclose
  · have hrun : resHandle wire resStr [] = [.send resStr (wire 0), .connectionClose,
        .connectionFree] := by
      simp [resHandle, sendOn, sentBytes, h]
    refine iff_of_true ⟨_, rfl, ?_, ?_⟩ h
    · simp [hrun]
    · simp [hrun]

/-! ## Texts in one string -/

/-- Texts put together for one call of `send`. -/
theorem releasesOnce_catAll (wire : ℕ → ℤ) {s : List UInt8} {parts : List (List UInt8)}
    (h : ∀ x ∈ s :: parts, IsText x) :
    ReleasesOnce (Block.catAll finalStrSize (s :: parts) >>= fun finalStr =>
        .ok (resHandle wire (finalStr.str 0) [])) ↔
      (s :: parts).flatten.length < finalStrSize ∧ wire 0 ≠ -1 := by
  by_cases hlen : (s :: parts).flatten.length < finalStrSize
  · obtain ⟨b, hb, -⟩ := Block.catAll_eq h hlen
    rw [hb, ok_bind, releasesOnce_resHandle]
    exact (and_iff_right hlen).symm
  · rw [Block.catAll_cons h, Block.strcpy_eq_error (by omega)]
    exact iff_of_false (not_releasesOnce_error _) fun hand => hlen hand.1

/-- What `res_row` puts together, with the text `conlen` for the length. -/
def rowMessage (conlen resStr : List UInt8) : List UInt8 :=
  bytes "HTTP/1.1 200 OK\r\nContent-type:text/html;utf-8;\r\nConnection: Keep-alive;\r\n" ++
    bytes "Content-Length: " ++ conlen ++ bytes "\r\n\r\n" ++ resStr

/-- `res_row` as two writes: the length to its buffer, and the message to the other. -/
theorem resRow_eq_strcpy (w : World) {s : List UInt8} (hs : IsText s) (acts : List Act) :
    resRow w s acts
      = (Block.zero 8).strcpy 0 (itoa (toInt s.length) [] 10) >>= fun _ =>
        (Block.zero finalStrSize).strcpy 0 (rowMessage (itoa (toInt s.length) [] 10) s) >>=
          fun finalStr => .ok (resHandle w.wire (finalStr.str 0) acts) := by
  rw [resRow]
  cases hconlen : (Block.zero 8).strcpy 0 (itoa (toInt s.length) [] 10) with
  | error e => rw [error_bind, error_bind]
  | ok conlen =>
      have hstr : conlen.str 0 = itoa (toInt s.length) [] 10 :=
        Block.str_strcpy_self (isText_itoa _) hconlen
      have htexts : ∀ x ∈
          [bytes "HTTP/1.1 200 OK\r\nContent-type:text/html;utf-8;\r\nConnection: Keep-alive;\r\n",
            bytes "Content-Length: ", conlen.str 0, bytes "\r\n\r\n", s], IsText x := by
        intro x hx
        simp only [List.mem_cons, List.not_mem_nil, or_false] at hx
        rcases hx with rfl | rfl | rfl | rfl | rfl
        · decide
        · decide
        · exact isText_cstr _
        · decide
        · exact hs
      rw [ok_bind, ok_bind, Block.catAll_cons htexts]
      simp only [hstr, rowMessage, List.flatten_cons, List.flatten_nil, List.append_assoc,
        List.append_nil]

/-- A text is sent if it has room with its head, and else leaves one of the two buffers. -/
theorem resRow_cases (w : World) {s : List UInt8} (hs : IsText s) (acts : List Act) :
    ((rowText s).length < finalStrSize ∧
        resRow w s acts = .ok (resHandle w.wire (rowText s) acts)) ∨
      (finalStrSize ≤ (rowText s).length ∧ ∃ e, resRow w s acts = .error e) := by
  have hsize : finalStrSize = 1048576 := rfl
  have hle : s.length ≤ (rowText s).length := by
    rw [rowText, List.length_append]
    omega
  -- The length goes through an `int`, which makes no difference to a text that has room.
  have hint : s.length < finalStrSize → toInt s.length = s.length := fun hshort =>
    toInt_of_range (by omega) (by omega)
  rw [resRow_eq_strcpy w hs]
  rcases Nat.lt_or_ge (rowText s).length finalStrSize with hfits | hlong
  · have hdigits : (itoa (s.length : ℤ) [] 10).length ≤ 7 := length_itoa_le (by omega) (by omega)
    obtain ⟨conlen, hconlen⟩ : ∃ b, (Block.zero 8).strcpy 0 (itoa s.length [] 10) = .ok b :=
      Block.strcpy_eq_ok (by omega)
    obtain ⟨finalStr, hrun⟩ : ∃ b, (Block.zero finalStrSize).strcpy 0 (rowText s) = .ok b :=
      Block.strcpy_eq_ok (by omega)
    have htext : IsText (rowText s) := by
      have h₁ : IsText (bytes
        "HTTP/1.1 200 OK\r\nContent-type:text/html;utf-8;\r\nConnection: Keep-alive;\r\n") := by
        decide
      have h₂ : IsText (bytes "Content-Length: ") := by decide
      have h₃ : IsText (bytes "\r\n\r\n") := by decide
      simp only [rowText, isText_append]
      exact ⟨⟨⟨⟨h₁, h₂⟩, isText_itoa _⟩, h₃⟩, hs⟩
    refine .inl ⟨hfits, ?_⟩
    rw [hint (by omega), hconlen, ok_bind]
    show (Block.zero finalStrSize).strcpy 0 (rowText s) >>= _ = _
    rw [hrun, ok_bind, Block.str_strcpy_self htext hrun]
  · have hmessage : finalStrSize ≤ (rowMessage (itoa (toInt s.length) [] 10) s).length := by
      rcases Nat.lt_or_ge s.length finalStrSize with hshort | hover
      · rwa [hint hshort]
      · rw [rowMessage, List.length_append]
        omega
    refine .inr ⟨hlong, ?_⟩
    cases (Block.zero 8).strcpy 0 (itoa (toInt s.length) [] 10) with
    | error e => exact ⟨e, rfl⟩
    | ok conlen =>
        rw [ok_bind, Block.strcpy_eq_error (by omega)]
        exact ⟨.write, rfl⟩

theorem releasesOnce_resRow (w : World) {s : List UInt8} (hs : IsText s) :
    ReleasesOnce (resRow w s []) ↔ (rowText s).length < finalStrSize ∧ w.wire 0 ≠ -1 := by
  rcases resRow_cases w hs [] with ⟨hfits, hrun⟩ | ⟨hlong, e, hrun⟩
  · rw [hrun, releasesOnce_resHandle]
    exact (and_iff_right hfits).symm
  · rw [hrun]
    exact iff_of_false (not_releasesOnce_error e) fun hand => absurd hand.1 (not_lt.mpr hlong)

/-! ## Files -/

/-- A chunk is sent without a release. -/
theorem count_sendChunk {wire : ℕ → ℤ} {buffer : List UInt8} {acts acts' : List Act}
    (h : sendChunk wire buffer acts = .ok acts') :
    acts'.count .connectionFree = acts.count .connectionFree := by
  unfold sendChunk at h
  cases hchunk : (Block.zero 10).strcpy 0 (hex buffer.length ++ bytes "\r\n") with
  | error e =>
      rw [hchunk] at h
      cases h
  | ok chunkHeader =>
      rw [hchunk] at h
      cases h
      simp [sendOn]

theorem count_sendChunks {wire : ℕ → ℤ} {content : List UInt8} {acts acts' : List Act}
    (h : sendChunks wire content acts = .ok acts') :
    acts'.count .connectionFree = acts.count .connectionFree := by
  fun_induction sendChunks wire content acts with
  | case1 content acts hlast => exact count_sendChunk h
  | case2 content acts hmore ih =>
      cases hchunk : sendChunk wire (content.take chunkSize) acts with
      | error e =>
          rw [hchunk] at h
          cases h
      | ok acts₁ =>
          rw [hchunk, ok_bind] at h
          exact (ih acts₁ h).trans (count_sendChunk hchunk)

/-- A long file is sent and its socket closed, but the connection is not freed. -/
theorem not_releasesOnce_resFileHandle (w : World) (path contentType : List UInt8) :
    ¬ ReleasesOnce (resFileHandle w path contentType []) := by
  rintro ⟨acts, hrun, -, hfree⟩
  unfold resFileHandle at hrun
  cases hhead : Block.catAll 512
      [bytes "HTTP/1.1 200 OK\r\n", bytes "Content-Type: ", contentType, bytes "\r\n",
        bytes "Transfer-Encoding: chunked\r\n\r\n"] with
  | error e =>
      rw [hhead] at hrun
      cases hrun
  | ok head =>
      rw [hhead, ok_bind] at hrun
      cases hfile : w.disk path with
      | none =>
          simp only [hfile] at hrun
          cases hrun
          simp [sendOn] at hfree
      | some content =>
          simp only [hfile] at hrun
          cases hchunks : sendChunks w.wire content (sendOn w.wire (head.str 0) []) with
          | error e =>
              rw [hchunks] at hrun
              cases hrun
          | ok acts₁ =>
              rw [hchunks] at hrun
              cases hrun
              have hcount := count_sendChunks hchunks
              simp [sendOn] at hfree hcount
              omega

theorem releasesOnce_resParseSend (wire : ℕ → ℤ) (res : Response) :
    ReleasesOnce (resParseSend wire res []) ↔ (∃ body, res.Sendable body) ∧ wire 0 ≠ -1 := by
  constructor
  · rintro ⟨acts, hrun, hcounts⟩
    obtain ⟨body, hsendable, rfl⟩ := resParseSend_of_ok hrun
    exact ⟨⟨body, hsendable⟩, (releasesOnce_resHandle _ _).mp ⟨_, rfl, hcounts⟩⟩
  · rintro ⟨⟨body, hsendable⟩, hwire⟩
    rw [hsendable.resParseSend_eq]
    exact (releasesOnce_resHandle _ _).mpr hwire

/-- The record `res_static` fills for a file, up to its body. -/
theorem resSetType_file (w : World) (f : FileInfo) :
    (contentTypeAt + (typeLine f.contentType).length < responseSize ∧ ∃ res,
      (resInit w.now w.raw >>= fun res => resSetHead res (bytes "200") >>= fun res =>
        resSetType res f.contentType) = .ok res ∧
      res.Holds w.now (bytes "200") (typeLine f.contentType) (spill (typeLine f.contentType) [])
        (spill ((typeLine f.contentType).drop 32) connectionLine)) ∨
    (responseSize ≤ contentTypeAt + (typeLine f.contentType).length ∧
      (resInit w.now w.raw >>= fun res => resSetHead res (bytes "200") >>= fun res =>
        resSetType res f.contentType) = .error .write) := by
  have hplace := places
  have hcode : IsText (bytes "200") := by decide
  obtain ⟨res₀, hinit, h₀⟩ := resInit_eq w.now w.raw
  obtain ⟨res₁, hhead, h₁, -, -⟩ := h₀.headWritten hcode (by decide)
  have hhead' : resSetHead res₀ (bytes "200") = .ok res₁ :=
    (BuildCall.apply_eq res₀ (c := .head (bytes "200")) hcode).trans hhead
  have htype : resSetType res₁ f.contentType
      = res₁.strcat contentTypeAt (typeLine f.contentType) :=
    BuildCall.apply_eq res₁ (c := .contentType f.contentType) f.contentType_text
  rw [hinit, ok_bind, hhead', ok_bind, htype]
  by_cases hroom : contentTypeAt + (typeLine f.contentType).length < responseSize
  · obtain ⟨res₂, hrun, h₂, -, -⟩ :=
      h₁.typeWritten (by decide) (isText_typeLine f.contentType_text) hroom
    exact .inl ⟨hroom, res₂, hrun, h₂⟩
  · refine .inr ⟨by omega, strcat_overflow res₁ ?_⟩
    rw [h₁.type, List.length_nil]
    omega

/-- Its arrays end in the record, if the content type does. -/
theorem Response.Holds.ends_file {res : Response} {p : Tm} {type : List UInt8}
    (h : res.Holds p (bytes "200") (typeLine type) (spill (typeLine type) [])
      (spill ((typeLine type).drop 32) connectionLine))
    (hroom : contentTypeAt + (typeLine type).length < responseSize) :
    ∀ off ∈ headerArrays, off + (res.text.str off).length < responseSize := by
  have hplace := places
  have hC := length_connectionLine
  refine h.ends_all (by decide) hroom ?_ ?_
  · have hle := length_spill_le (typeLine type) []
    rw [List.length_nil] at hle
    omega
  · have hle := length_spill_le ((typeLine type).drop 32) connectionLine
    rw [List.length_drop] at hle
    omega

/-- A file that is not long is sent when it is there, as long as it was, and there is room for
its content type and for all of it. -/
theorem resStatic_ok_iff {w : World} {f : FileInfo} (hsmall : f.argSize ≤ 1024 * 1024)
    {acts : List Act} :
    resStatic w f [] = .ok acts ↔ f.Served w ∧ ∃ content, w.disk f.path = some content ∧
      acts = resHandle w.wire
        (fileHeader w.now f.contentType ++ content.take f.argSize) [] := by
  have hassoc : resStatic w f []
      = (resInit w.now w.raw >>= fun res => resSetHead res (bytes "200") >>= fun res =>
          resSetType res f.contentType) >>= fun res =>
        resParseSend w.wire (resSetBody res (resLoadFile w.disk f.path).bytes f.argSize) [] >>=
          fun acts => (resLoadFile w.disk f.path).free >>= fun _ => .ok acts := by
    rw [resStatic, if_neg (by omega)]
    simp only [bind_assoc]
  rw [hassoc]
  -- the content type of the file may run out of the record
  rcases resSetType_file w f with ⟨hroom, res, hrun, hres⟩ | ⟨hroom, hrun⟩
  · have hholds : (resSetBody res (resLoadFile w.disk f.path).bytes f.argSize).Holds w.now
        (bytes "200") (typeLine f.contentType) (spill (typeLine f.contentType) [])
        (spill ((typeLine f.contentType).drop 32) connectionLine) :=
      ⟨hres.server, hres.date, hres.head, hres.type, hres.cookie, hres.connection⟩
    have hends := hholds.ends_file hroom
    rw [hrun, ok_bind]
    cases hfile : w.disk f.path with
    | none =>
        -- What `res_static` frees in the end is the literal `""`.
        have hloaded : resLoadFile w.disk f.path = .literal := by rw [resLoadFile, hfile]
        rw [hloaded]
        refine iff_of_false ?_ ?_
        · intro hacts
          cases hsend : resParseSend w.wire
              (resSetBody res Loaded.literal.bytes f.argSize) [] with
          | error e =>
              rw [hsend] at hacts
              cases hacts
          | ok acts' =>
              rw [hsend] at hacts
              cases hacts
        · rintro ⟨-, content, hcontent, -⟩
          cases hcontent
    | some content =>
        have hloaded : resLoadFile w.disk f.path = .content content := by
          rw [resLoadFile, hfile]
        have hfree : ∀ run : Except Fault (List Act),
            (run >>= fun acts => (Loaded.content content).free >>= fun _ => .ok acts) = run :=
          fun run => by cases run <;> rfl
        rw [hloaded] at hholds hends
        rw [hloaded, hfree]
        constructor
        · intro hacts
          obtain ⟨body, hsendable, rfl⟩ := resParseSend_of_ok hacts
          obtain rfl : content = body := Ptr.obj.inj hsendable.pbody
          have hfits := hsendable.fits
          rw [hholds.headerText_eq] at hfits ⊢
          exact ⟨⟨hsmall, ⟨content, hfile, hsendable.bodySize⟩, hroom, hfits⟩, content, rfl, rfl⟩
        · rintro ⟨hserved, content', hcontent, rfl⟩
          cases hcontent
          obtain ⟨content', hcontent, hsize⟩ := hserved.content
          rw [hfile] at hcontent
          cases hcontent
          have hsendable : Response.Sendable _ content :=
            ⟨rfl, hsize, hends, by rw [hholds.headerText_eq]; exact hserved.fits⟩
          rw [hsendable.resParseSend_eq, hholds.headerText_eq]
          rfl
  · rw [hrun]
    refine iff_of_false nofun ?_
    rintro ⟨hserved, -⟩
    have := hserved.type_room
    omega

theorem releasesOnce_resStatic (w : World) (f : FileInfo) :
    ReleasesOnce (resStatic w f []) ↔ f.Served w ∧ w.wire 0 ≠ -1 := by
  rcases Nat.lt_or_ge (1024 * 1024) f.argSize with hlong | hsmall
  · have hrun : resStatic w f [] = resFileHandle w f.path f.contentType [] := if_pos hlong
    rw [hrun]
    refine iff_of_false (not_releasesOnce_resFileHandle _ _ _) ?_
    rintro ⟨hserved, -⟩
    have := hserved.small
    omega
  · constructor
    · rintro ⟨acts, hrun, hcounts⟩
      obtain ⟨hserved, content, -, rfl⟩ := (resStatic_ok_iff hsmall).mp hrun
      exact ⟨hserved, (releasesOnce_resHandle _ _).mp ⟨_, rfl, hcounts⟩⟩
    · rintro ⟨hserved, hwire⟩
      obtain ⟨content, hcontent, -⟩ := hserved.content
      rw [(resStatic_ok_iff hsmall).mpr ⟨hserved, content, hcontent, rfl⟩]
      exact (releasesOnce_resHandle _ _).mpr hwire

/-! ## Every answer and every container -/

/-- An answer releases the connection once exactly when it fits and `send` does not fail. -/
theorem releasesOnce_run (w : World) (a : Answer) :
    ReleasesOnce (a.run w []) ↔ a.Fits w ∧ w.wire 0 ≠ -1 := by
  cases a with
  | row s => exact releasesOnce_resRow w s.2
  | render s => exact releasesOnce_resRow w s.2
  | parseSend res => exact releasesOnce_resParseSend w.wire res
  | notfound =>
      have htexts : ∀ x ∈ [bytes ("HTTP/1.1 404 \r\nContent-type:text/html;utf-8;\r\n" ++
          "Connection: close;\r\nContent-Length: 18\r\n\r\n"), bytes "<h1>Not Found</h1>"],
          IsText x := by decide
      refine (releasesOnce_catAll w.wire htexts).trans (and_congr_left fun _ => ?_)
      exact iff_of_true (by decide) trivial
  | static f => exact releasesOnce_resStatic w f

theorem releasesOnce_routerAnswer (w : World) (g : CtlFunMap View) (files : FileList)
    (req : Request) :
    ReleasesOnce (routerAnswer w g files req []) ↔
      (∃ t, routerHandle g files req = .ok t ∧ (t.answer req).Fits w) ∧ w.wire 0 ≠ -1 := by
  rw [routerAnswer]
  cases hroute : routerHandle g files req with
  | error e =>
      refine iff_of_false (not_releasesOnce_error e) ?_
      rintro ⟨⟨t, ⟨⟩, -⟩, -⟩
  | ok t =>
      rw [ok_bind, releasesOnce_run]
      refine and_congr_left fun _ => ⟨fun h => ⟨t, rfl, h⟩, ?_⟩
      rintro ⟨t', ⟨⟩, h⟩
      exact h

/-- A refused request is answered, and its connection released by that; the container
releases it again. -/
theorem not_releasesOnce_refused (w : World) (g : CtlFunMap View) (files : FileList)
    (req : Request) (h : w.ipCheckValid = 2 ∨ w.ipCheckValid = 3) :
    ¬ ReleasesOnce (Container.handle .iocp w g files req) := by
  have hcheck : middlewareCheckIfTooOften w ≠ 0 := by
    rcases h with h | h
    · simp [middlewareCheckIfTooOften, h]
    · simp [middlewareCheckIfTooOften, h]
  have htexts : ∀ x ∈ [bytes "HTTP/1.1 403 \r\n\r\nYou are without permission"], IsText x := by
    decide
  obtain ⟨b, hb, -⟩ : ∃ b, Block.catAll finalStrSize
      [bytes "HTTP/1.1 403 \r\n\r\nYou are without permission"] = .ok b ∧ _ :=
    Block.catAll_eq htexts (by decide)
  have hmiddleware : middlewareHandle w [] = .ok (-1001, resHandle w.wire (b.str 0) []) := by
    rw [middlewareHandle, if_pos hcheck, resWithoutPermission, hb]
    rfl
  have hrun : Container.handle .iocp w g files req
      = .ok (resHandle w.wire (b.str 0) [] ++ [Act.connectionClose, .connectionFree]) := by
    rw [Container.handle, hmiddleware, ok_bind]
    exact if_pos (by decide)
  rw [hrun]
  rintro ⟨acts, hacts, -, hfree⟩
  cases hacts
  simp [resHandle] at hfree

/-- A connection is released exactly once when the middleware has not refused the request,
`send` does not fail, and the answer the router leads to has room and is not a long file. -/
theorem releasesOnce_iff (c : Container) (w : World) (g : CtlFunMap View) (files : FileList)
    (req : Request) :
    ReleasesOnce (c.handle w g files req) ↔
      c.Admits w ∧ (∃ t, routerHandle g files req = .ok t ∧ (t.answer req).Fits w) ∧
        w.wire 0 ≠ -1 := by
  have hadmits : c ≠ .iocp → (c.Admits w ↔ True) := fun hc => iff_true_intro fun h => absurd h hc
  cases c with
  | simple =>
      rw [hadmits (by decide), true_and]
      exact releasesOnce_routerAnswer w g files req
  | epoll =>
      rw [hadmits (by decide), true_and]
      exact releasesOnce_routerAnswer w g files req
  | iocp =>
      by_cases h : w.ipCheckValid = 2 ∨ w.ipCheckValid = 3
      · refine iff_of_false (not_releasesOnce_refused w g files req h) ?_
        rintro ⟨hpass, -⟩
        have := hpass rfl
        tauto
      · have hne : w.ipCheckValid ≠ 2 ∧ w.ipCheckValid ≠ 3 := not_or.mp h
        have hcheck : middlewareCheckIfTooOften w = 0 := by
          rw [middlewareCheckIfTooOften, if_neg hne.1, if_neg hne.2]
        have hrun : Container.handle .iocp w g files req = routerAnswer w g files req [] := by
          rw [Container.handle, middlewareHandle, if_neg (not_not_intro hcheck)]
          rfl
        rw [hrun, releasesOnce_routerAnswer]
        exact (and_iff_right fun _ => hne).symm

/-- A world without files, in which `send` always fails. -/
def brokenWorld : World where
  wire := fun _ => -1
  now := summerDay
  disk := fun _ => none
  raw := ⟨Block.zero _, .null, 0⟩
  ipCheckValid := 0

/-- A failing `send` releases the connection twice. -/
theorem not_releasesOnce_brokenWorld : ¬ ∀ (c : Container) (w : World) (g : CtlFunMap View)
    (files : FileList) (req : Request), (∃ t, routerHandle g files req = .ok t) →
      ReleasesOnce (c.handle w g files req) := by
  intro h
  have hroute : routerHandle (routerInit : CtlFunMap View) ⟨[], Nat.zero_le _⟩ cartRequest
      = .ok .notfound := holds_routerInit.routerHandle_eq (by decide) (by decide) (by decide)
  have honce := h .epoll brokenWorld routerInit ⟨[], Nat.zero_le _⟩ cartRequest ⟨_, hroute⟩
  exact ((releasesOnce_routerAnswer _ _ _ _).mp honce).2 rfl
