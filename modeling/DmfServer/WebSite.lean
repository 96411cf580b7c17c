/-
# What a client gets

The server from end to end: the tables that `router_init` and `router_add_app` fill, a text in the
buffer of `epoll_handle`, the parse, the router, the function that answers, and the bytes that are
handed to `send`, as a client reads them.

`Reply` is what a client is meant to get, and `WebServer.reply` says which one belongs to a request:
the text of the first route with the path, else the content of the file of the tree with the path,
else a page that says that there is none.

`epollRespond_gets_iff`: the client gets this reply exactly when what it has sent has room where
the parser copies it, its path can be logged, and the reply has room where the server puts it
together.  `epollRespond_congr`: what is outside of the static directory makes no difference to
what any text is answered with.
-/
import DmfServer.StaticFile
import DmfServer.RouterInit
import DmfServer.StaticSearch
import DmfServer.Epoll
import DmfServer.LogFormat
import DmfServer.RequestRoundTrip

open CMem

/-! ## Replies -/

/-- What a client is meant to get. -/
inductive Reply : Type where
  /-- The text of a view. -/
  | view (text : List UInt8) : Reply
  | file (contentType content : List UInt8) : Reply
  | missing : Reply

/-- The status, the type and the body. -/
def Reply.status : Reply → ℕ
  | .missing => 404
  | _ => 200

@[inherit_doc Reply.status] def Reply.type : Reply → List UInt8
  | .file contentType _ => contentType
  | _ => bytes "text/html;utf-8;"

@[inherit_doc Reply.status] def Reply.body : Reply → List UInt8
  | .view text => text
  | .file _ content => content
  | .missing => bytes "<h1>Not Found</h1>"

/-- It can be sent: the text of a view is not empty and has room with its head, and a file has room
with its head, or is taken for one of more than 1 MiB. -/
def Reply.Fits (now : Tm) : Reply → Prop
  | .view text => text ≠ [] ∧ (rowText text).length < finalStrSize
  | .file contentType content => headLength now contentType + content.length ≤ 1024 * 1024 ∨
      1024 * 1024 < content.length % 2 ^ 32
  | .missing => True

/-- What a client reads from the connection is the reply. -/
def Gets (run : Except Fault (List Act)) (reply : Reply) : Prop :=
  ∃ acts ls, run = .ok acts ∧ Http.receive (sentBytes acts).flatten = some (ls, reply.body) ∧
    ls.head?.bind Http.statusCode = some reply.status ∧
    Http.field (bytes "Content-Type") ls = some reply.type

/-- A message that is put together of lines, with a body that ends as the head says. -/
theorem gets_of_lines {acts : List Act} {ls : List (List UInt8)} {rest : List UInt8} {reply : Reply}
    (hsent : (sentBytes acts).flatten = (ls.map (· ++ Http.crlf)).flatten ++ (Http.crlf ++ rest))
    (hlines : ∀ l ∈ ls, l ≠ [] ∧ 13 ∉ l) (hbody : Http.bodyOf ls rest = some reply.body)
    (hstatus : ls.head?.bind Http.statusCode = some reply.status)
    (htype : Http.field (bytes "Content-Type") ls = some reply.type) : Gets (.ok acts) reply := by
  refine ⟨acts, ls, rfl, ?_, hstatus, htype⟩
  rw [hsent, Http.receive_eq hlines, hbody]
  rfl

theorem not_gets_error (e : Fault) (reply : Reply) : ¬Gets (.error e) reply := by
  rintro ⟨acts, ls, hacts, -⟩
  cases hacts

/-! ## The text of a view, and none -/

/-- The lines in the head of `res_row` tell the type. -/
theorem field_rowLines (s : List UInt8) :
    Http.field (bytes "Transfer-Encoding") (rowLines s) = none ∧
      Http.field (bytes "Content-Type") (rowLines s) = some (bytes "text/html;utf-8;") := by
  have hlast : Http.fieldValue (bytes "Transfer-Encoding")
      (bytes "Content-Length: " ++ itoa s.length [] 10) = none := by
    have hname : bytes "Content-Length: " = bytes "Content-Length" ++ [58, 32] := by decide
    rw [hname, List.append_assoc]
    exact Http.fieldValue_other (by decide) (by decide)
  constructor
  · have hfirst : ∀ l ∈ [bytes "HTTP/1.1 200 OK", bytes "Content-type:text/html;utf-8;",
        bytes "Connection: Keep-alive;"],
        Http.fieldValue (bytes "Transfer-Encoding") l = none := by decide
    rw [Http.field, rowLines, List.findSome?_cons, hfirst _ (by decide), List.findSome?_cons,
      hfirst _ (by decide), List.findSome?_cons, hfirst _ (by decide), List.findSome?_cons,
      hlast]
    rfl
  · have hfirst : Http.fieldValue (bytes "Content-Type") (bytes "HTTP/1.1 200 OK") = none := by
      decide
    have hsecond : Http.fieldValue (bytes "Content-Type") (bytes "Content-type:text/html;utf-8;")
        = some (bytes "text/html;utf-8;") := by decide
    rw [Http.field, rowLines, List.findSome?_cons, hfirst, List.findSome?_cons, hsecond]

/-- A text that is not empty is read behind its head. -/
theorem receive_rowText {s : List UInt8} (hshort : s.length < 10 ^ 100) (hne : s ≠ []) :
    Http.receive (rowText s) = some (rowLines s, s) := by
  have hlength : Http.contentLength (rowLines s) = some s.length := by
    rw [contentLength_rowLines hshort]
    exact number_itoa (List.length_pos_of_ne_nil hne) hshort
  rw [Http.receive, headLines_rowText hshort, Option.bind_some]
  dsimp only
  rw [Http.bodyOf_length (field_rowLines s).1 hlength, Option.map_some]

/-- Of an empty text the length is written without a digit. -/
theorem receive_rowText_nil : Http.receive (rowText []) = none := by
  have hlength : Http.field (bytes "Content-Length") (rowLines []) = some [] := by decide
  rw [Http.receive, headLines_rowText (by decide), Option.bind_some]
  dsimp only
  rw [Http.bodyOf_malformed (field_rowLines []).1 hlength (by decide), Option.map_none]

/-- A short text of a view fits. -/
theorem resRow_short (w : World) {s : List UInt8} (hs : IsText s) (hlen : s.length < 512) :
    resRow w s [] = .ok (resHandle w.wire (rowText s) []) := by
  have hsize : finalStrSize = 1048576 := rfl
  have hhead : (bytes
      "HTTP/1.1 200 OK\r\nContent-type:text/html;utf-8;\r\nConnection: Keep-alive;\r\n").length
      = 73 := by decide
  have hname : (bytes "Content-Length: ").length = 16 := by decide
  have hcrlf : (bytes "\r\n\r\n").length = 4 := by decide
  have hdigits : (itoa (s.length : ℤ) [] 10).length ≤ 7 := length_itoa_le (by omega) (by omega)
  apply resRow_eq w hs
  simp only [rowText, List.length_append, hhead, hname, hcrlf]
  omega

/-- The text of a view is read when it fits. -/
theorem gets_resRow_iff (w : World) {s : List UInt8} (hs : IsText s) :
    Gets (resRow w s []) (.view s) ↔ (Reply.view s).Fits w.now := by
  have hsize : finalStrSize = 1048576 := rfl
  rcases resRow_cases w hs [] with ⟨hfits, hrun⟩ | ⟨hlong, e, hrun⟩
  · have hshort : s.length < 10 ^ 100 := by
      rw [rowText, List.length_append] at hfits
      omega
    have hsent : (sentBytes (resHandle w.wire (rowText s) [])).flatten = rowText s := by
      rw [sentBytes_resHandle, List.flatten_singleton]
    rw [hrun]
    constructor
    · rintro ⟨acts, ls, hacts, hreceive, -⟩
      refine ⟨?_, hfits⟩
      rintro rfl
      obtain rfl := Except.ok.inj hacts
      rw [hsent, receive_rowText_nil] at hreceive
      cases hreceive
    · rintro ⟨hne, -⟩
      have hstatus : Http.statusCode (bytes "HTTP/1.1 200 OK") = some 200 := by decide
      refine ⟨_, rowLines s, rfl, ?_, hstatus, (field_rowLines s).2⟩
      rw [hsent, receive_rowText hshort hne]
      rfl
  · rw [hrun]
    apply iff_of_false (not_gets_error e _)
    rintro ⟨-, hfits⟩
    omega

/-- The lines of `res_notfound`. -/
def missingLines : List (List UInt8) :=
  [bytes "HTTP/1.1 404 ", bytes "Content-type:text/html;utf-8;", bytes "Connection: close;",
    bytes "Content-Length: 18"]

/-- That there is no page is read in any case. -/
theorem gets_resNotfound (w : World) : Gets (resNotfound w []) .missing := by
  have htexts : ∀ x ∈ [bytes ("HTTP/1.1 404 \r\nContent-type:text/html;utf-8;\r\n" ++
      "Connection: close;\r\nContent-Length: 18\r\n\r\n"), bytes "<h1>Not Found</h1>"],
      IsText x := by decide
  obtain ⟨finalStr, hrun, hstr⟩ : ∃ b, Block.catAll finalStrSize _ = .ok b ∧ b.str 0 = _ :=
    Block.catAll_eq htexts (by decide)
  have hsent : (sentBytes (resHandle w.wire (finalStr.str 0) [])).flatten
      = (missingLines.map (· ++ Http.crlf)).flatten ++
        (Http.crlf ++ bytes "<h1>Not Found</h1>") := by
    rw [sentBytes_resHandle, List.flatten_singleton, hstr]
    decide
  rw [resNotfound, hrun, ok_bind]
  apply gets_of_lines hsent
  · decide
  · exact Http.bodyOf_length (by decide) (by decide)
  · decide
  · decide

/-! ## Files -/

/-- The lines behind the date in the head of a file: what the line of a long content type leaves
over from its array is read once more, and may run into the next line. -/
def typeLines (contentType : List UInt8) : List (List UInt8) :=
  if contentType.length ≤ 16 then
    [bytes "Content-type:" ++ contentType, bytes "Connection:keep-alive"]
  else if contentType.length = 18 then
    [bytes "Content-type:" ++ contentType, 10 :: bytes "Connection:keep-alive"]
  else
    [bytes "Content-type:" ++ contentType, contentType.drop 19, bytes "Connection:keep-alive"]

/-- The lines that every record begins with. -/
def frontLines (p : Tm) : List (List UInt8) :=
  [bytes "HTTP/1.1 200", bytes "Server:DmfServer", bytes "Date:" ++ serverTime p]

/-- The lines in the head of a file of at most 1 MiB. -/
def fileLines (p : Tm) (contentType : List UInt8) : List (List UInt8) :=
  frontLines p ++ typeLines contentType

/-- The lines in the head of a longer one. -/
def chunkedLines (contentType : List UInt8) : List (List UInt8) :=
  [bytes "HTTP/1.1 200 OK", bytes "Content-Type: " ++ contentType,
    bytes "Transfer-Encoding: chunked"]

/-- What the lines of a content type come to. -/
structure TypeLines (contentType : List UInt8) : Prop where
  text : typeLine contentType ++ spill (typeLine contentType) [] ++
    spill ((typeLine contentType).drop 32) connectionLine
      = ((typeLines contentType).map (· ++ Http.crlf)).flatten
  lines : ∀ l ∈ typeLines contentType, l ≠ [] ∧ 13 ∉ l
  type : Http.field (bytes "Content-Type") (typeLines contentType) = some contentType
  length : Http.field (bytes "Content-Length") (typeLines contentType) = none
  encoding : Http.field (bytes "Transfer-Encoding") (typeLines contentType) = none
  chunked : (∀ l ∈ chunkedLines contentType, l ≠ [] ∧ 13 ∉ l) ∧
    Http.field (bytes "Content-Type") (chunkedLines contentType) = some contentType ∧
    Http.field (bytes "Transfer-Encoding") (chunkedLines contentType) = some (bytes "chunked")

/-- They come to the same for every content type of the router. -/
theorem typeLines_getContentType (ext : List UInt8) : TypeLines (getContentType ext) := by
  have hmem := getContentType_mem ext
  have htext : ∀ t ∈ bytes "application/octet-stream" :: contentTypes.map Prod.snd,
      typeLine t ++ spill (typeLine t) [] ++ spill ((typeLine t).drop 32) connectionLine
        = ((typeLines t).map (· ++ Http.crlf)).flatten := by decide
  have hlines : ∀ t ∈ bytes "application/octet-stream" :: contentTypes.map Prod.snd,
      ∀ l ∈ typeLines t, l ≠ [] ∧ 13 ∉ l := by decide
  have htype : ∀ t ∈ bytes "application/octet-stream" :: contentTypes.map Prod.snd,
      Http.field (bytes "Content-Type") (typeLines t) = some t := by decide
  have hlength : ∀ t ∈ bytes "application/octet-stream" :: contentTypes.map Prod.snd,
      Http.field (bytes "Content-Length") (typeLines t) = none := by decide
  have hencoding : ∀ t ∈ bytes "application/octet-stream" :: contentTypes.map Prod.snd,
      Http.field (bytes "Transfer-Encoding") (typeLines t) = none := by decide
  have hchunked : ∀ t ∈ bytes "application/octet-stream" :: contentTypes.map Prod.snd,
      (∀ l ∈ chunkedLines t, l ≠ [] ∧ 13 ∉ l) ∧
        Http.field (bytes "Content-Type") (chunkedLines t) = some t ∧
        Http.field (bytes "Transfer-Encoding") (chunkedLines t) = some (bytes "chunked") := by
    decide
  exact ⟨htext _ hmem, hlines _ hmem, htype _ hmem, hlength _ hmem, hencoding _ hmem,
    hchunked _ hmem⟩

/-- The digits of a number that is not negative. -/
theorem isDigit_itoa_int {value : ℤ} (h0 : 0 ≤ value) (h : value < 10 ^ 4) :
    ∀ c ∈ itoa value [] 10, Http.isDigit 10 c := by
  lift value to ℕ using h0
  apply isDigit_itoa
  have hlt : value < 10 ^ 4 := by exact_mod_cast h
  exact hlt.trans (by norm_num)

/-- The date is made of digits and what stands between them. -/
theorem notMem_serverTime (p : Tm) {c : UInt8} (hdigit : ¬Http.isDigit 10 c)
    (hbetween : c ∉ bytes "/" ∧ c ∉ bytes " " ∧ c ∉ bytes ":") : c ∉ serverTime p := by
  have hfield : ∀ {v : ℤ}, 0 ≤ v → v < 10 ^ 4 → c ∉ itoa v [] 10 :=
    fun h0 h hmem => hdigit (isDigit_itoa_int h0 h c hmem)
  have hyear := hfield p.year_range.1 p.year_range.2
  have hmon := hfield (v := 1 + p.tmMon) (by have := p.mon_range; omega)
    (by have := p.mon_range; omega)
  have hmday := hfield (v := p.tmMday) (by have := p.mday_range; omega)
    (by have := p.mday_range; omega)
  have hhour := hfield p.hour_range.1 (by have := p.hour_range; omega)
  have hmin := hfield p.min_range.1 (by have := p.min_range; omega)
  have hsec := hfield p.sec_range.1 (by have := p.sec_range; omega)
  simp only [serverTime, List.mem_append, not_or]
  exact ⟨⟨⟨⟨⟨⟨⟨⟨⟨⟨hyear, hbetween.1⟩, hmon⟩, hbetween.1⟩, hmday⟩, hbetween.2.1⟩, hhour⟩,
    hbetween.2.2⟩, hmin⟩, hbetween.2.2⟩, hsec⟩

/-- The first lines of a head. -/
theorem flatten_frontLines (p : Tm) : statusLine (bytes "200") ++ serverLine ++ dateLine p
    = ((frontLines p).map (· ++ Http.crlf)).flatten := by
  have hstatus : statusLine (bytes "200") = bytes "HTTP/1.1 200" ++ Http.crlf := by decide
  have hserver : serverLine = bytes "Server:DmfServer" ++ Http.crlf := by decide
  have hcrlf : bytes "\r\n" = Http.crlf := by decide
  rw [hstatus, hserver, dateLine, hcrlf, frontLines]
  simp only [List.map_cons, List.map_nil, List.flatten_cons, List.flatten_nil, List.append_assoc,
    List.append_nil]

theorem mem_frontLines (p : Tm) : ∀ l ∈ frontLines p, l ≠ [] ∧ 13 ∉ l := by
  intro l hl
  simp only [frontLines, List.mem_cons, List.not_mem_nil, or_false] at hl
  rcases hl with rfl | rfl | rfl
  · decide
  · decide
  · refine ⟨List.append_ne_nil_of_left_ne_nil (by decide) _, ?_⟩
    rw [List.mem_append, not_or]
    exact ⟨by decide, notMem_serverTime p (by decide) (by decide)⟩

/-- The fields of a head are those of the lines behind the first ones. -/
theorem field_frontLines (p : Tm) {name : List UInt8}
    (hdate : (bytes "Date").map Http.lower ≠ name.map Http.lower)
    (hfirst : ∀ l ∈ [bytes "HTTP/1.1 200", bytes "Server:DmfServer"],
      Http.fieldValue name l = none) (ls : List (List UInt8)) :
    Http.field name (frontLines p ++ ls) = Http.field name ls := by
  have hthird : Http.fieldValue name (bytes "Date:" ++ serverTime p) = none := by
    have hcolon : bytes "Date:" = bytes "Date" ++ [58] := by decide
    rw [hcolon, List.append_assoc]
    exact Http.fieldValue_other (by decide) hdate
  rw [Http.field, frontLines, List.cons_append, List.findSome?_cons, hfirst _ (by decide),
    List.cons_append, List.findSome?_cons, hfirst _ (by decide), List.cons_append,
    List.findSome?_cons, hthird]
  rfl

section
variable {contentType : List UInt8} (htypes : TypeLines contentType) (p : Tm)
include htypes

theorem TypeLines.fileHeader_eq (content : List UInt8) : fileHeader p contentType ++ content
    = ((fileLines p contentType).map (· ++ Http.crlf)).flatten ++ (Http.crlf ++ content) := by
  have hcrlf : bytes "\r\n" = Http.crlf := by decide
  rw [fileHeader, htypes.text, flatten_frontLines, hcrlf, fileLines, List.map_append,
    List.flatten_append, List.append_assoc _ Http.crlf content]

theorem TypeLines.lines_fileLines : ∀ l ∈ fileLines p contentType, l ≠ [] ∧ 13 ∉ l := by
  intro l hl
  rcases List.mem_append.mp hl with hl | hl
  · exact mem_frontLines p l hl
  · exact htypes.lines l hl

end

section
variable {w : World} {f : FileInfo} {content : List UInt8}

theorem FileInfo.Registered.typeLines (hreg : f.Registered) : TypeLines f.contentType := by
  rw [show f.contentType = getContentType f.ext from hreg]
  exact typeLines_getContentType f.ext

/-- What is read of a file that is sent from memory is what has been loaded of it. -/
theorem gets_fileHeader (hreg : f.Registered) (type body : List UInt8) :
    Gets (.ok (resHandle w.wire (fileHeader w.now f.contentType ++ content) [])) (.file type body) ↔
      f.contentType = type ∧ content = body := by
  have htypes := hreg.typeLines
  have hlines := htypes.lines_fileLines w.now
  have hencoding : Http.field (bytes "Transfer-Encoding") (fileLines w.now f.contentType)
      = none := by
    rw [fileLines, field_frontLines w.now (by decide) (by decide), htypes.encoding]
  have hlength : Http.field (bytes "Content-Length") (fileLines w.now f.contentType) = none := by
    rw [fileLines, field_frontLines w.now (by decide) (by decide), htypes.length]
  have htype : Http.field (bytes "Content-Type") (fileLines w.now f.contentType)
      = some f.contentType := by
    rw [fileLines, field_frontLines w.now (by decide) (by decide), htypes.type]
  have hsent : (sentBytes (resHandle w.wire (fileHeader w.now f.contentType ++ content) [])).flatten
      = ((fileLines w.now f.contentType).map (· ++ Http.crlf)).flatten ++
        (Http.crlf ++ content) := by
    rw [sentBytes_resHandle, List.flatten_singleton, htypes.fileHeader_eq]
  constructor
  · rintro ⟨acts, ls, hacts, hread, -, hfield⟩
    obtain rfl := Except.ok.inj hacts
    rw [hsent, Http.receive_eq hlines, Http.bodyOf_close hencoding hlength] at hread
    obtain ⟨rfl, rfl⟩ := Prod.mk.inj (Option.some.inj hread)
    exact ⟨Option.some.inj (htype.symm.trans hfield), rfl⟩
  · rintro ⟨rfl, rfl⟩
    have hstatus : Http.statusCode (bytes "HTTP/1.1 200") = some 200 := by decide
    exact gets_of_lines hsent hlines (Http.bodyOf_close hencoding hlength) hstatus htype

/-- A file that is sent in chunks is read as it is. -/
theorem gets_resFileHandle (hreg : f.Registered) (hcontent : w.disk f.path = some content) :
    Gets (resFileHandle w f.path f.contentType []) (.file f.contentType content) := by
  obtain ⟨hlines, htype, hencoding⟩ := hreg.typeLines.chunked
  have hregister : f.contentType = getContentType f.ext := hreg
  obtain ⟨acts, hrun, hsent⟩ := resFileHandle_eq w f.ext hcontent
  obtain ⟨behind, hchunks⟩ : ∃ behind, Http.dechunk
      (((reads content).flatMap chunkSends).flatten ++ bytes "0\r\n\r\n")
        = some (content, behind) := by
    have hend : Http.dechunk (bytes "0\r\n\r\n") = some ([], []) :=
      Http.dechunk_last (show Http.number 16 (bytes "0") = some 0 by decide) []
    rw [dechunk_reads, hend]
    split
    · exact ⟨_, rfl⟩
    · refine ⟨[], ?_⟩
      show some (content ++ [], _) = _
      rw [List.append_nil]
  have hhead : chunkedHead f.contentType
      = ((chunkedLines f.contentType).map (· ++ Http.crlf)).flatten ++ Http.crlf := by
    have h₁ : bytes "HTTP/1.1 200 OK\r\n" = bytes "HTTP/1.1 200 OK" ++ Http.crlf := by decide
    have h₂ : bytes "\r\n" = Http.crlf := by decide
    have h₃ : bytes "Transfer-Encoding: chunked\r\n\r\n"
        = bytes "Transfer-Encoding: chunked" ++ Http.crlf ++ Http.crlf := by decide
    simp only [chunkedHead, chunkedLines, h₁, h₂, h₃, List.map_cons, List.map_nil,
      List.flatten_cons, List.flatten_nil, List.append_assoc, List.append_nil]
  have hall : (sentBytes acts).flatten
      = ((chunkedLines f.contentType).map (· ++ Http.crlf)).flatten ++ (Http.crlf ++
        (((reads content).flatMap chunkSends).flatten ++ bytes "0\r\n\r\n")) := by
    rw [hsent, List.flatten_cons, ← hregister, hhead, List.flatten_append, List.flatten_singleton,
      List.append_assoc]
  rw [← hregister] at hrun
  rw [hrun]
  apply gets_of_lines hall hlines
  · exact Http.bodyOf_chunked hencoding hchunks
  · show Http.statusCode (bytes "HTTP/1.1 200 OK") = some 200
    decide
  · exact htype

/-- A file that is as long as it was is read when it fits. -/
theorem gets_resStatic_iff (hreg : f.Registered) (hcontent : w.disk f.path = some content)
    (hsize : f.size = content.length) :
    Gets (resStatic w f []) (.file f.contentType content) ↔
      (Reply.file f.contentType content).Fits w.now := by
  have harg : f.argSize = content.length % 2 ^ 32 := by rw [FileInfo.argSize, hsize]
  unfold Reply.Fits
  rcases Nat.lt_or_ge (1024 * 1024) f.argSize with hlong | hsmall
  · have hrun : resStatic w f [] = resFileHandle w f.path f.contentType [] := if_pos hlong
    rw [hrun]
    exact iff_of_true (gets_resFileHandle hreg hcontent) (Or.inr (by omega))
  · have hhead := hreg.length_fileHeader w.now
    constructor
    · intro hgets
      obtain ⟨acts, ls, hrun, hread⟩ := hgets
      obtain ⟨hserved, content', hcontent', rfl⟩ := (resStatic_ok_iff hsmall).mp hrun
      obtain rfl := Option.some.inj (hcontent.symm.trans hcontent')
      -- what is sent of the file is what `res_static` takes for its size
      have hbody := (gets_fileHeader hreg _ _).mp ⟨_, ls, rfl, hread⟩
      have hall : content.length ≤ f.argSize := by
        have hlen := congrArg List.length hbody.2
        rw [List.length_take] at hlen
        omega
      have hfits : (fileHeader w.now f.contentType).length + f.argSize ≤ 1024 * 1024 :=
        hserved.fits
      left
      omega
    · intro hfits
      have hle : content.length ≤ 1024 * 1024 := by
        rcases hfits with hfits | hover
        · omega
        · omega
      have hsame : f.argSize = content.length := by rw [harg, Nat.mod_eq_of_lt (by omega)]
      have hserved : f.Served w := by
        refine ⟨hsmall, ⟨content, hcontent, hsame.le⟩, hreg.type_room, ?_⟩
        show (fileHeader w.now f.contentType).length + f.argSize ≤ 1024 * 1024
        rcases hfits with hfits | hover
        · omega
        · omega
      rw [(resStatic_ok_iff hsmall).mpr ⟨hserved, content, hcontent, rfl⟩, gets_fileHeader hreg]
      exact ⟨rfl, by rw [hsame, List.take_length]⟩

end

/-! ## The tables of a server -/

section
variable {staticDir : List UInt8} {listing : Listing}

/-- The nodes of the tree that are registered. -/
def Site.published (s : Site staticDir listing) : List TreeNode :=
  if cwdSize ≤ s.cwd.length then [] else (found s.fs s.root listing).take maxFiles

/-- What `router_init` leaves in the table. -/
theorem Site.routerInitFiles_eq (s : Site staticDir listing) (hdir : IsText staticDir) {fuel : ℕ}
    {out : List FileInfo} (hrun : routerInitFiles s.fs fuel s.cwd staticDir = .ok out) :
    out = s.published.map fun x => fileInfo x.info x.info.path := by
  unfold routerInitFiles at hrun
  unfold Site.published
  by_cases hlong : cwdSize ≤ s.cwd.length
  · rw [if_pos hlong] at hrun ⊢
    exact (Except.ok.inj hrun).symm
  · rw [if_neg hlong] at hrun ⊢
    obtain ⟨hroom, b, hcat, hstr⟩ | ⟨-, hcat⟩ := staticDir_cases s.cwd_text hdir
    · rw [hcat, ok_bind, hstr] at hrun
      obtain ⟨files, hwalk, hregister⟩ := exists_of_bind hrun
      cases fuel with
      | zero => cases hwalk
      | succ fuel =>
          rw [traverseDirectory_opens s.shows.opens] at hwalk
          have hend := walk_cases hroom s.shows.entries (Nat.zero_add maxFiles) hwalk
          obtain ⟨hurls, -, rfl⟩ := s.fits_of_registered hregister hend
          exact Except.ok.inj (hregister.symm.trans (s.mapM_register hurls))
    · rw [hcat] at hrun
      cases hrun

theorem Site.mem_nodes_of_published (s : Site staticDir listing) {x : TreeNode}
    (hx : x ∈ s.published) : x ∈ nodes s.root listing := by
  unfold Site.published at hx
  split at hx
  · cases hx
  · exact mem_nodes_of_mem_found hx

/-- The files of the tree are on the disk, as long as they were. -/
def Site.Stores (s : Site staticDir listing) (disk : List UInt8 → Option (List UInt8)) : Prop :=
  ∀ x ∈ nodes s.root listing, x.info.type = .file →
    ∃ content, disk x.info.path = some content ∧ x.info.size = content.length

end

/-- A server that has come up: the site, the applications, and the tables that `router_init` and
`router_add_app` have filled with them. -/
structure WebServer (staticDir : List UInt8) (listing : Listing) where
  site : Site staticDir listing
  staticDir_text : IsText staticDir
  spare : SpareByte
  apps : List (App View)
  routes_room : (appRoutes apps).length ≤ 511
  g : CtlFunMap View
  files : FileList
  routed : routerAddApps routerInit apps spare = .ok g
  walked : ∃ fuel, routerInitFiles site.fs fuel site.cwd staticDir = .ok files.entries

/-- `epoll_handle` behind `recv`, with the buffer as it is then: the request is parsed, and a line
is logged for it.  `log_write` is taken to come back. -/
def epollReceive (junk : ℕ → PartJunk) (now : Tm) (pid : ℤ) (spare : SpareByte)
    (record : Request) (resStr : List UInt8) : Except Fault Request := do
  let request ← reqParseHttp junk record resStr spare
  let _ ← logRequest (serverTime now) request.path resStr pid
  .ok request

/-- `epoll_handle` on a connection with something to read: what it does with it. -/
def epollRespond (junk : ℕ → PartJunk) (w : World) (g : CtlFunMap View) (files : FileList)
    (pid : ℤ) (spare : SpareByte) (mem : RequestMem) (resStr : List UInt8)
    (received : Option Received) : Except Fault (List Act) :=
  match received with
  | none => .ok [.connectionClose, .connectionFree] -- `recv` has returned -1
  | some b => do
      let request ← epollReceive junk w.now pid spare (reqParseInit mem) (recvInto resStr b)
      Container.handle .epoll w g files request

/-- The request has what the text of a client says. -/
structure Request.Carries (request : Request) (r : RequestText) : Prop where
  method : request.method = r.method
  path : request.path = r.path
  protocol : request.protocol = r.protocol
  version : request.version = r.version
  query : ∀ key, hashmapGet request.query key = lastValue r.query key
  params : ∀ key, hashmapGet request.params key = lastValue r.headers key
  body : r.method = bytes "POST" →
    request.body = .obj (r.body ++ [0]) ∧ request.bodyLength = r.body.length

/-- The line that is logged for a request: its path is printed twice. -/
theorem logRequest_serverTime_iff (p : Tm) {path : List UInt8} (hpath : IsText path)
    (hroom : path.length < 512) (resStr : List UInt8) (pid : ℤ) :
    (∃ line, logRequest (serverTime p) path resStr pid = .ok line) ↔
      Prints path ∧ 0 ∈ resStr := by
  apply logRequest_ok_iff _ (isText_serverTime p) _ hpath hroom
  · exact notMem_serverTime p (by decide) (by decide)
  · exact Nat.lt_of_le_of_lt (length_serverTime_le p) (by decide)

/-- The router gets the request that the parser makes where every copy has room, or none. -/
theorem epollReceive_eq_ok_iff {junk : ℕ → PartJunk} {record request : Request}
    {data : List UInt8} {toks : List Tok} {e : Ending} (hread : HeadText .method data toks e)
    (hparse : reqParseHttp junk record data = .ok request) (hpath : IsText request.path)
    (hroom : request.path.length < 512) (now : Tm) (pid : ℤ) (spare : SpareByte)
    (request' : Request) :
    epollReceive junk now pid spare record data = .ok request' ↔ request = request' ∧
      (∀ t ∈ toks, t.HasRoom spare) ∧ Prints request.path ∧ 0 ∈ data := by
  have hlogged := logRequest_serverTime_iff now hpath hroom data pid
  unfold epollReceive
  constructor
  · intro hrun
    obtain ⟨parsed, hparsed, hrest⟩ := exists_of_bind hrun
    -- a copy that has no room would have been a fault
    have hcopies := hasRoom_of_reqParseHttp hread hparsed
    rw [reqParseHttp_of_hasRoom hread hcopies, hparse] at hparsed
    obtain rfl := Except.ok.inj hparsed
    obtain ⟨line, hline, hrest⟩ := exists_of_bind hrest
    exact ⟨Except.ok.inj hrest, hcopies, hlogged.mp ⟨line, hline⟩⟩
  · rintro ⟨rfl, hcopies, hprints⟩
    obtain ⟨line, hline⟩ := hlogged.mpr hprints
    rw [reqParseHttp_of_hasRoom hread hcopies, hparse, ok_bind, hline]
    rfl

/-- The request that a client means is the one that the router gets, or it gets none. -/
theorem RequestText.exists_received (r : RequestText) (junk : ℕ → PartJunk) (now : Tm) (pid : ℤ)
    (spare : SpareByte) (mem : RequestMem) (tail : List UInt8) :
    ∃ request, request.Carries r ∧
      reqParseHttp junk (reqParseInit mem) (r.render ++ tail) = .ok request ∧
      ∀ request', epollReceive junk now pid spare (reqParseInit mem) (r.render ++ tail)
          = .ok request' ↔
        request = request' ∧ r.HasRoom spare ∧ Prints r.path ∧ 0 ∈ r.render ++ tail := by
  obtain ⟨request, hparse, hmethod, hpath, hprotocol, hversion, hquery, hparams, hbody, -⟩ :=
    r.exists_request junk mem tail
  refine ⟨request, ⟨hmethod, hpath, hprotocol, hversion, hquery, hparams, hbody⟩, hparse, ?_⟩
  rw [r.hasRoom_iff, ← hpath]
  apply epollReceive_eq_ok_iff (headText_render r tail) hparse
  · exact hpath ▸ r.path_text.1
  · exact hpath ▸ Nat.lt_succ_of_le r.path_length

/-- The text that a view answers with, if it is one of those that answer with a text. -/
def Answer.text : Answer → Option (List UInt8)
  | .row s => some s
  | .render s => some s
  | _ => none

section
variable {staticDir : List UInt8} {listing : Listing} (srv : WebServer staticDir listing)

/-- What a client is meant to get for a request: the text of the first route with its path, else
the file of the tree with its path, else the page that there is none.  Nothing is said of a
directory of the tree, and of a view that answers with something else than a text. -/
def WebServer.reply (disk : List UInt8 → Option (List UInt8)) (request : Request) : Option Reply :=
  match (appRoutes srv.apps).find? (fun route => request.path = route.key) with
  | some route => (route.view request).text.map .view
  | none =>
      match srv.site.published.find? (fun x => request.path = x.info.path) with
      | some x =>
          if x.info.type = .file then
            (disk x.info.path).map fun content => .file (getContentType x.info.ext) content
          else none
      | none => some .missing

/-- The table of the files is that of the registered nodes. -/
theorem WebServer.entries_eq :
    srv.files.entries = srv.site.published.map fun x => fileInfo x.info x.info.path := by
  obtain ⟨fuel, hrun⟩ := srv.walked
  exact srv.site.routerInitFiles_eq srv.staticDir_text hrun

/-- The table of the routes is that of the applications. -/
theorem WebServer.holds : srv.g.Holds (appRoutes srv.apps) :=
  holds_of_routerAddApps (Nat.le_succ_of_le srv.routes_room) srv.routed

/-- The entry of a path is that of the first registered node with it. -/
theorem WebServer.find?_entries (path : List UInt8) :
    srv.files.entries.find? (fun f => path = f.url)
      = (srv.site.published.find? fun x => path = x.info.path).map fun x =>
        fileInfo x.info x.info.path := by
  rw [srv.entries_eq, List.find?_map]
  rfl

/-- A request that the router serves is answered with its reply, if that has room. -/
theorem WebServer.gets_handle_iff {w : World} (hdisk : srv.site.Stores w.disk)
    (hroom : srv.files.num < maxFiles) {request : Request} (hpath : request.path ≠ [])
    {reply : Reply} (hreply : srv.reply w.disk request = some reply) :
    Gets (Container.handle .epoll w srv.g srv.files request) reply ↔ reply.Fits w.now := by
  have hrun : Container.handle .epoll w srv.g srv.files request
      = ((target (appRoutes srv.apps) srv.files request.path).answer request).run w [] := by
    show routerAnswer w srv.g srv.files request [] = _
    have hroutes : (appRoutes srv.apps).length < contFunNum :=
      Nat.lt_succ_of_le srv.routes_room
    rw [routerAnswer, srv.holds.routerHandle_eq hroutes hroom hpath, ok_bind]
  rw [hrun, target]
  unfold WebServer.reply at hreply
  cases hroute : (appRoutes srv.apps).find? (fun route => request.path = route.key) with
  | some route =>
      rw [hroute] at hreply
      show Gets ((route.view request).run w []) reply ↔ _
      dsimp only at hreply
      cases hview : route.view request with
      | row s =>
          rw [hview] at hreply
          obtain rfl := Option.some.inj hreply
          exact gets_resRow_iff w s.2
      | render s =>
          rw [hview] at hreply
          obtain rfl := Option.some.inj hreply
          exact gets_resRow_iff w s.2
      | parseSend res => rw [hview] at hreply; cases hreply
      | notfound => rw [hview] at hreply; cases hreply
      | static f => rw [hview] at hreply; cases hreply
  | none =>
      rw [hroute] at hreply
      dsimp only at hreply ⊢
      rw [srv.find?_entries]
      cases hfile : srv.site.published.find? (fun x => request.path = x.info.path) with
      | some x =>
          rw [hfile] at hreply
          dsimp only [Option.map_some] at hreply ⊢
          have hx := srv.site.mem_nodes_of_published (List.mem_of_find?_eq_some hfile)
          split at hreply
          · next htype =>
            obtain ⟨content, hcontent, hsize⟩ := hdisk x hx htype
            rw [hcontent] at hreply
            obtain rfl := Option.some.inj hreply
            have hreg : (fileInfo x.info x.info.path).Registered := rfl
            exact gets_resStatic_iff hreg hcontent hsize
          · cases hreply
      | none =>
          rw [hfile] at hreply
          obtain rfl := Option.some.inj hreply
          exact iff_of_true (gets_resNotfound w) trivial

end

/-- A search that finds an entry finds one of the table, or a zero one behind. -/
theorem mem_of_searchFiles {files : FileList} {path : List UInt8} {is : List ℕ} {f : FileInfo}
    (h : searchFiles files path is = .ok (some f)) : f ∈ files.entries ∨ f = .zero := by
  induction is with
  | nil => cases h
  | cons i is ih =>
      rw [searchFiles, FileList.get] at h
      split at h
      · rw [ok_bind] at h
        split at h
        · obtain rfl := Option.some.inj (Except.ok.inj h)
          rcases Nat.lt_or_ge i files.entries.length with hlt | hge
          · left
            rw [at_eq_getElem i hlt]
            exact List.getElem_mem hlt
          · right
            rw [FileList.at, List.getD_eq_getElem?_getD, List.getElem?_eq_none hge,
              Option.getD_none]
        · exact ih h
      · cases h

/-- What the router serves from the disk is an entry of the table, or a zero one behind. -/
theorem mem_of_routerHandle {V : Type} {g : CtlFunMap V} {files : FileList} {req : Request}
    {f : FileInfo} (h : routerHandle g files req = .ok (.static f)) :
    f ∈ files.entries ∨ f = .zero := by
  unfold routerHandle at h
  obtain ⟨view, -, hrest⟩ := exists_of_bind h
  cases view with
  | some view => cases hrest
  | none =>
      obtain ⟨file, hfile, hrest⟩ := exists_of_bind hrest
      cases file with
      | none => cases hrest
      | some file =>
          cases hrest
          exact mem_of_searchFiles hfile

/-- The view that the router calls is that of a route. -/
theorem CtlFunMap.Holds.view_mem {V : Type} {g : CtlFunMap V} {routes : List (Route V)}
    (h : g.Holds routes) (hroom : routes.length < contFunNum) {files : FileList} {req : Request}
    {v : V} (hrun : routerHandle g files req = .ok (.view v)) :
    ∃ route ∈ routes, route.view = v := by
  obtain ⟨k, hk⟩ : ∃ k, contFunNum - routes.length = k + 1 :=
    ⟨contFunNum - routes.length - 1, by omega⟩
  rw [routerHandle, h.keys, h.cf, hk, searchKeys_eq, ok_bind] at hrun
  cases hfind : routes.find? (fun r => req.path = r.key) with
  | some route =>
      rw [hfind] at hrun
      cases hrun
      exact ⟨route, List.mem_of_find?_eq_some hfind, rfl⟩
  | none =>
      rw [hfind] at hrun
      obtain ⟨file, -, hrest⟩ := exists_of_bind hrun
      cases file with
      | none => cases hrest
      | some file => cases hrest

/-- An answer reads no other file than the one that it names. -/
theorem Answer.run_congr {w : World} {disk : List UInt8 → Option (List UInt8)} (a : Answer)
    (h : ∀ f, a = .static f → w.disk f.path = disk f.path) (acts : List Act) :
    a.run w acts = a.run { w with disk := disk } acts := by
  cases a with
  | static f => simp only [Answer.run, resStatic, resFileHandle, resLoadFile, h f rfl]
  | row s => simp only [Answer.run, resRow]
  | render s => simp only [Answer.run, resRender, resRow]
  | parseSend res => simp only [Answer.run]
  | notfound => simp only [Answer.run, resNotfound]

section
variable {staticDir : List UInt8} {listing : Listing} (srv : WebServer staticDir listing)

end

/-! ## A server with one file -/

/-- A client asks for the file. -/
def getScript : RequestText :=
  .get (bytes "/a/static/a.js") [] [] (by decide) (List.forall_mem_nil _) (List.forall_mem_nil _)

theorem runs_siteA : siteA.Runs := by
  right
  refine ⟨by decide, by decide, ?_⟩
  intro x hx
  cases hx

/-- The server that was started in `/a`, without an application. -/
theorem exists_serverA (spare : SpareByte) : ∃ srv : WebServer (bytes "static") oneFile,
    srv.site = siteA ∧ srv.spare = spare ∧ srv.apps = [] := by
  obtain ⟨fuel, out, hrun, -⟩ := siteA.exists_routerInitFiles (by decide) runs_siteA
  have hout := siteA.routerInitFiles_eq (by decide) hrun
  have hlen : out.length ≤ maxFiles := by
    rw [hout]
    decide
  exact ⟨{ site := siteA
           staticDir_text := by decide
           spare := spare
           apps := []
           routes_room := by decide
           g := routerInit
           files := ⟨out, hlen⟩
           routed := rfl
           walked := ⟨fuel, hrun⟩ }, rfl, rfl, rfl⟩

/-- The buffer is zeros before anything was received. -/
theorem zero_mem_recvInto {b : Received} (hshort : b.bytes.length < receiveMaxBytes) :
    0 ∈ recvInto (resStrAfter []) b := by
  apply List.mem_append_right
  rw [resStrAfter, List.foldl_nil, List.drop_replicate]
  exact List.mem_replicate.mpr ⟨by omega, rfl⟩
