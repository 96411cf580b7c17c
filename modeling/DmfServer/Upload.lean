/-
# Forms that are sent with a request

`PARSE_BODY` copies the body of a POST, takes the boundary from the `Content-Type` and
hands both to `req_parse_multi_part`.  An `Upload` is a POST with a form as a client means
it; the request that is made of its text has the path, the query and the headers of the
client, its table holds the parts of the form and no others, and `req_free` releases just
these, exactly if the copies of its head have room for their NULs (`reqParseHttp_upload_iff`).
-/
import DmfServer.RequestRoundTrip
import DmfServer.MultiPartBoundary
import DmfServer.MultiPartTable

open CMem Ascii

/-! ## The table of a form -/

/-- The data of a part is shorter than the form. -/
theorem length_data_le {b : Boundary} {parts : List (FormPart b)} {part : FormPart b}
    (hpart : part ∈ parts) : part.data.length ≤ (renderForm parts).length := by
  have hdata : part.data.Sublist part.render :=
    (List.sublist_append_right _ _).trans (List.sublist_append_left _ _)
  have hrender : part.render.Sublist (parts.flatMap FormPart.render) :=
    List.sublist_flatten_of_mem (List.mem_map_of_mem hpart)
  have hform : (parts.flatMap FormPart.render).Sublist (renderForm parts) :=
    (List.sublist_append_left _ _).trans (List.sublist_append_left _ _)
  exact ((hdata.trans hrender).trans hform).length_le

/-- A table that was empty holds the parts of the form, and no others. -/
theorem exists_table (junk : ℕ → PartJunk) {request : Request} {b : Boundary}
    {parts : List (FormPart b)} (hcount : parts.length ≤ 20)
    (hsize : (renderForm parts).length ≤ 1024 * 1024) {tail : List UInt8}
    (hmulti : request.multi = Vector.replicate _ .null)
    (hbody : request.body = .obj (renderForm parts ++ tail)) :
    ∃ multi, reqParseMultiPart junk request b.text
        = .ok { request with multi := multi, multiPartNum := parts.length - 1 } ∧
      (∀ (i : ℕ) (part : FormPart b), parts[i]? = some part →
        ∃ p : Multipart, multi[i]? = some (.obj p) ∧ p.Holds part) ∧
      TableMatches { request with multi := multi, multiPartNum := parts.length - 1 } := by
  obtain ⟨s, hs, hnum, -, hparts⟩ := MultiPart.scanLoop_renderForm junk parts
    (fun part hpart => (length_data_le hpart).trans hsize) (n := 0)
    (by simpa [multiPartMaxNum] using hcount) (Vector.replicate multiPartMaxNum .null) 0 tail
  obtain ⟨e, hscan⟩ := MultiPart.exists_body b.isText (n := 0) hs
  obtain ⟨s₁, k, hs₁, hscanned⟩ := MultiPart.scanLoop_of_body junk b.isText hscan
    (Nat.zero_le _) (Vector.replicate multiPartMaxNum .null)
  obtain rfl : s₁ = s := Except.ok.inj (hs₁.symm.trans hs)
  have hcounter := hscanned.counter.symm.trans hnum
  have hparts : ∀ (i : ℕ) (part : FormPart b), parts[i]? = some part →
      ∃ p : Multipart, s₁.multi[i]? = some (.obj p) ∧ p.Holds part := by
    intro i part hpart
    simpa using hparts i part hpart
  refine ⟨s₁.multi, ?_, hparts, ?_⟩
  · rw [reqParseMultiPart_eq junk request b.text _ hbody, hmulti, show MultiPart.Scan.start _
      = .atLine (Vector.replicate multiPartMaxNum .null) (((0 : ℕ) : ℤ) - 1) 0 from rfl, hs]
    simp [hnum]
  · cases e with
    | closed =>
        have hk : k = parts.length := by
          have hcounted : (k : ℤ) - 1 = (0 : ℕ) + parts.length - 1 := hcounter
          omega
        subst hk
        exact tableMatches_of_parts rfl (fun i hi => hscanned.parts i (Nat.zero_le i) hi)
          fun i hi _ => hscanned.not_part hi
    | foreign =>
        -- the counter would be at an entry without a part, but every counted entry has one
        have hk : k < parts.length := by
          have hcounted : (k : ℤ) = (0 : ℕ) + parts.length - 1 := hcounter
          omega
        obtain ⟨p, hp, -⟩ := hparts k _ (List.getElem?_eq_getElem hk)
        exact absurd hp (hscanned.not_part le_rfl)

theorem forall₂_of_mapM {α β : Type} {g : α → Except Fault β} {l : List α} {bs : List β}
    (h : l.mapM g = .ok bs) : List.Forall₂ (fun a b => g a = .ok b) l bs := by
  induction l generalizing bs with
  | nil =>
      cases h
      exact .nil
  | cons a l ih =>
      rw [List.mapM_cons] at h
      obtain ⟨b, hb, h⟩ := exists_of_bind h
      obtain ⟨bs', hbs, h⟩ := exists_of_bind h
      cases h
      exact .cons hb (ih hbs)

/-- The parts that `req_free` follows are those of the form. -/
theorem partsUpTo_holds {multi : Vector (Ptr Multipart) multiPartMaxNum} {b : Boundary}
    {parts : List (FormPart b)} {num : ℤ} {freed : List Multipart}
    (hnum : num = parts.length - 1)
    (hparts : ∀ (i : ℕ) (part : FormPart b), parts[i]? = some part →
      ∃ p : Multipart, multi[i]? = some (.obj p) ∧ p.Holds part)
    (h : partsUpTo multi num = .ok freed) : List.Forall₂ Multipart.Holds freed parts := by
  rw [partsUpTo, hnum, sub_add_cancel, Int.toNat_natCast] at h
  have hrun := forall₂_of_mapM h
  have hlen : freed.length = parts.length := by
    rw [← hrun.length_eq, List.length_range]
  rw [List.forall₂_iff_get]
  refine ⟨hlen, fun i hi hi' => ?_⟩
  obtain ⟨p, hp, hholds⟩ := hparts i _ (List.getElem?_eq_getElem hi')
  have hfollowed := hrun.get (by rwa [List.length_range, ← hlen]) hi
  rw [List.get_eq_getElem, List.getElem_range, partAt_eq hp] at hfollowed
  rw [← Except.ok.inj hfollowed]
  exact hholds

/-! ## The request -/

/-- What browsers send in front of the boundary. -/
def formType (b : Boundary) : List UInt8 := bytes "multipart/form-data; boundary=" ++ b.text

/-- A POST with a form, as a client means it: the last `Content-Length` and the last
`Content-Type` are those of the form. -/
structure Upload where
  path : List UInt8
  query : List TextPair
  headers : List TextPair
  boundary : Boundary
  parts : List (FormPart boundary)
  path_spec : path.head? = some slash ∧ (IsText path ∧ space ∉ path) ∧ question ∉ path ∧
    path.length ≤ 511
  query_pairs : ∀ p ∈ query, IsQueryPair p
  headers_pairs : ∀ p ∈ headers, IsHeader p
  content_type : lastValue headers (bytes "Content-Type") = some (formType boundary)
  announced : ∃ v, lastValue headers (bytes "Content-Length") = some v ∧
    atoi v = (renderForm parts).length
  parts_length : parts.length ≤ 20
  form_length : (renderForm parts).length ≤ 1024 * 1024

namespace Upload

/-- A `GET` with the same path, query and headers. -/
def asGet (u : Upload) : RequestText :=
  .get u.path u.query u.headers u.path_spec u.query_pairs u.headers_pairs

/-- The bytes of the request. -/
def render (u : Upload) : List UInt8 :=
  bytes "POST " ++ (u.path ++ (renderQuery u.query ++ bytes " HTTP/1.1\r\n" ++
    (renderHeaders u.headers ++ bytes "\r\n" ++ renderForm u.parts)))

/-- The tokens of the request. -/
def toks (u : Upload) : List Tok :=
  ⟨.method, bytes "POST"⟩ :: ⟨.path, u.path⟩ ::
    (pairToks u.query ++ ⟨.protocol, bytes "HTTP"⟩ :: ⟨.version, bytes "1.1"⟩ ::
      headerToks u.headers)

theorem headText (u : Upload) (tail : List UInt8) :
    HeadText .method (u.render ++ tail) u.toks
      (.closed [] (lf :: (renderForm u.parts ++ tail))) := by
  have hversion := HeadText.version (isLine_of_without text_version)
    (headText_headers u.headers_pairs (renderForm u.parts ++ tail))
  have hpath := headText_path u.asGet (HeadText.protocol text_http hversion)
  have hmethod := HeadText.method (c := 80) (s := bytes "OST") (Or.inr rfl)
    ⟨by decide, by decide⟩ hpath
  have hrender : u.render ++ tail = 80 :: (bytes "OST" ++ space :: (u.path ++
      (renderQuery u.query ++ space :: (bytes "HTTP" ++ slash :: (bytes "1.1" ++ cr ::
        (lf :: (renderHeaders u.headers ++ cr :: lf :: (renderForm u.parts ++ tail)))))))) := by
    have hpost : bytes "POST " = 80 :: (bytes "OST" ++ [space]) := by decide
    have hline : bytes " HTTP/1.1\r\n"
        = [space] ++ bytes "HTTP" ++ [slash] ++ bytes "1.1" ++ [cr, lf] := by decide
    have hend : bytes "\r\n" = [cr, lf] := by decide
    rw [render, hpost, hline, hend]
    simp only [List.append_assoc, List.cons_append, List.nil_append]
  rw [hrender]
  exact hmethod

/-- The form is copied, and scanned with the boundary of the `Content-Type`. -/
theorem parseBody_eq (u : Upload) (junk : ℕ → PartJunk) {request : Request}
    (hparams : ∀ key, hashmapGet request.params key = lastValue u.headers key)
    (tail : List UInt8) :
    parseBody junk request (renderForm u.parts ++ tail)
      = reqParseMultiPart junk { request with
          bodyLength := (renderForm u.parts).length, body := .obj (renderForm u.parts ++ [0]) }
          u.boundary.text := by
  obtain ⟨v, hv, hatoi⟩ := u.announced
  have hle : ((renderForm u.parts).length : ℤ) ≤ httpBodyMax := by
    have := u.form_length
    unfold httpBodyMax
    omega
  have hcopy : copyBody request (renderForm u.parts ++ tail)
      = .ok { request with
          bodyLength := (renderForm u.parts).length
          body := .obj (renderForm u.parts ++ [0]) } := by
    rw [copyBody, hparams, hv]
    simp [hatoi, hle]
  have hform : (strstr (formType u.boundary) (bytes "multipart/form-data")).isSome := by
    have hsplit : formType u.boundary
        = bytes "multipart/form-data" ++ (bytes "; boundary=" ++ u.boundary.text) := by
      rw [← List.append_assoc]
      rfl
    rw [hsplit, strstr_start (by decide)]
    rfl
  rw [parseBody, hcopy, ok_bind, scanBody]
  simp only [hparams, u.content_type, hform, if_true]
  rw [formType, boundaryOf_formType u.boundary.length_le]
  rfl

/-- The request that is made of an upload, behind the head. -/
def record (u : Upload) (head : Request) (multi : Vector (Ptr Multipart) multiPartMaxNum) :
    Request :=
  { head with
    bodyLength := (renderForm u.parts).length
    body := .obj (renderForm u.parts ++ [0])
    multi := multi
    multiPartNum := u.parts.length - 1 }

/-- It has the fields of the client, and a table of the parts of the form and no others. -/
theorem exists_request (u : Upload) (junk : ℕ → PartJunk) (mem : RequestMem)
    (tail : List UInt8) :
    ∃ head multi, reqParseHttp junk (reqParseInit mem) (u.render ++ tail)
        = .ok (u.record head multi) ∧
      head.method = bytes "POST" ∧ head.path = u.path ∧
      (∀ key, hashmapGet head.query key = lastValue u.query key) ∧
      (∀ key, hashmapGet head.params key = lastValue u.headers key) ∧
      (∀ (i : ℕ) (part : FormPart u.boundary), u.parts[i]? = some part →
        ∃ p : Multipart, multi[i]? = some (.obj p) ∧ p.Holds part) ∧
      TableMatches (u.record head multi) := by
  obtain ⟨f, hmethod, hpath, -, -, hquery, hparams, hmulti, -, hrun⟩ :=
    reqParseHttp_head junk mem (u.headText tail) (by decide) u.path_spec.2.1.1 (by decide)
      (by decide) (by decide) u.path_spec.2.2.2 length_http length_version u.query_pairs
      u.headers_pairs
  let copied : Request := { f with
    bodyLength := (renderForm u.parts).length, body := .obj (renderForm u.parts ++ [0]) }
  obtain ⟨multi, hscan, hparts, hmatches⟩ :=
    exists_table junk u.parts_length u.form_length (show copied.multi = _ from hmulti) rfl
  have hbody := u.parseBody_eq junk hparams tail
  obtain ⟨front, hfront⟩ := MultiPart.exists_renderForm u.parts tail
  refine ⟨f, multi, ?_, hmethod, hpath, hquery, hparams, hparts, hmatches⟩
  rw [hfront, delimiter, List.cons_append] at hbody hrun
  rw [hrun, if_pos rfl, openBody_cons junk f (by decide), hbody]
  exact hscan

end Upload

/-- The names and values of its query and its headers have room for their NULs. -/
def Upload.HasRoom (spare : SpareByte) (u : Upload) : Prop := u.asGet.HasRoom spare

instance Upload.decidableHasRoom (spare : SpareByte) (u : Upload) : Decidable (u.HasRoom spare) :=
  inferInstanceAs (Decidable (u.asGet.HasRoom spare))

theorem Upload.hasRoom_iff {spare : SpareByte} (u : Upload) :
    u.HasRoom spare ↔ ∀ t ∈ u.toks, t.HasRoom spare := by
  have hnot : ¬HeadPart.method.Copied := by decide
  have hmethod : ∀ text, Tok.HasRoom spare ⟨.method, text⟩ :=
    fun text hcopied => absurd hcopied hnot
  rw [HasRoom, RequestText.hasRoom_iff]
  show (∀ t ∈ (⟨.method, bytes "GET"⟩ : Tok) :: u.toks.tail, t.HasRoom spare) ↔
    ∀ t ∈ (⟨.method, bytes "POST"⟩ : Tok) :: u.toks.tail, t.HasRoom spare
  rw [List.forall_mem_cons, List.forall_mem_cons, and_iff_right (hmethod _),
    and_iff_right (hmethod _)]

/-- The parse of the text of an upload yields what the upload is made of, and `req_free` then
releases the parts of the form. -/
def Upload.ParsesBack (junk : ℕ → PartJunk) (mem : RequestMem) (tail : List UInt8)
    (spare : SpareByte) (u : Upload) : Prop :=
  ∃ request, reqParseHttp junk (reqParseInit mem) (u.render ++ tail) spare = .ok request ∧
    request.method = bytes "POST" ∧ request.path = u.path ∧
    (∀ key, hashmapGet request.query key = lastValue u.query key) ∧
    (∀ key, hashmapGet request.params key = lastValue u.headers key) ∧
    request.body = .obj (renderForm u.parts ++ [0]) ∧
    request.bodyLength = (renderForm u.parts).length ∧
    request.multiPartNum = u.parts.length - 1 ∧
    (∀ (i : ℕ) (part : FormPart u.boundary), u.parts[i]? = some part →
      ∃ p : Multipart, request.multi[i]? = some (.obj p) ∧ p.Holds part) ∧
    ∃ freed, reqFree request = .ok freed ∧ freed.parts = allocated request.multi ∧
      List.Forall₂ Multipart.Holds freed.parts u.parts

theorem isHeader_sample : ∀ p ∈ [⟨bytes "Content-Length", bytes "138"⟩,
    ⟨bytes "Content-Type", bytes "multipart/form-data; boundary=XyZ7"⟩], IsHeader p := by
  intro p hp
  rcases List.mem_cons.mp hp with rfl | hp
  · exact ⟨⟨67, bytes "ontent-Length", by decide, by decide⟩, ⟨by decide, by decide⟩,
      by decide, by decide, ⟨by decide, by decide⟩, by decide⟩
  · rw [List.mem_singleton.mp hp]
    exact ⟨⟨67, bytes "ontent-Type", by decide, by decide⟩, ⟨by decide, by decide⟩,
      by decide, by decide, ⟨by decide, by decide⟩, by decide⟩

/-- The sample form, sent to a path. -/
def sampleUpload : Upload where
  path := bytes "/upload"
  query := []
  headers := [⟨bytes "Content-Length", bytes "138"⟩,
    ⟨bytes "Content-Type", bytes "multipart/form-data; boundary=XyZ7"⟩]
  boundary := sampleBoundary
  parts := sampleForm
  path_spec := by decide
  query_pairs := List.forall_mem_nil _
  headers_pairs := isHeader_sample
  content_type := by decide
  announced := ⟨bytes "138", by decide, by decide +kernel⟩
  parts_length := by decide
  form_length := by decide +kernel
