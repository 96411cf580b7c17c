/-
# Fields that are used before they are set

The container allocates a `request_t`, has `req_parse_init` make its two maps and
`req_parse_http` fill it; then `router_handle` compares `path`, and `req_free` releases the
maps, the body and the parts.  None of these functions sets `path` or `body.body` on every
way through it.

`SetsFields` says that what is used of the record does not depend on what `malloc` left in
it.  It holds exactly of the texts that `FillsRequest` describes: the head is closed and
fits, and a POST brings the body it announces (`setsFields_iff`).
-/
import DmfServer.RequestEffect

open CMem Ascii

/-! ## `req_free` -/

/-- What `req_free` hands to `free`: the nodes of the two maps, the body, the parts. -/
structure Freed where
  query : FieldMap
  params : FieldMap
  body : Ptr (List UInt8)
  parts : List Multipart
  deriving DecidableEq

/-- `multi[i]`, followed. -/
def partAt (multi : Vector (Ptr Multipart) multiPartMaxNum) (i : ℕ) : Except Fault Multipart :=
  if h : i < multiPartMaxNum then multi[i].deref else .error .read

/-- The parts `multi[0]` to `multi[num]`, followed one after the other. -/
def partsUpTo (multi : Vector (Ptr Multipart) multiPartMaxNum) (num : ℤ) :
    Except Fault (List Multipart) :=
  (List.range (num + 1).toNat).mapM (partAt multi)

/-- `req_free`; the loop over the parts runs up to and including `multi_part_num`. -/
def reqFree (req : Request) : Except Fault Freed := do
  let parts ← partsUpTo req.multi req.multiPartNum
  .ok { query := req.query, params := req.params, body := req.body, parts := parts }

/-- The path that `router_handle` compares and the pointers that `req_free` releases, for a
record that held `mem`. -/
def usedFields (junk : ℕ → PartJunk) (mem : RequestMem) (data : List UInt8) :
    Except Fault (List UInt8 × Freed) := do
  let request ← reqParseHttp junk (reqParseInit mem) data
  let freed ← reqFree request
  .ok (request.path, freed)

/-- What is used of the record is the same whatever it held. -/
def SetsFields (junk : ℕ → PartJunk) (data : List UInt8) : Prop :=
  ∃ used, ∀ mem, usedFields junk mem data = .ok used

/-! ## The texts that fill the record -/

/-- Every part that a scan counted is there. -/
def AllParts (s : MultiPart.Scan) : Prop :=
  ∀ i : ℕ, (i : ℤ) ≤ s.mulNum → ∃ (h : i < multiPartMaxNum) (part : Multipart),
    s.multi[i] = .obj part

/-- `r` begins with the body that the headers announce; if it is a form it is one of the grammar,
up to its closing dashes. -/
def BringsBody (headers : List TextPair) (p r : List UInt8) : Prop :=
  ∃ (c : UInt8) (r' : List UInt8) (len : ℕ), r = c :: r' ∧ c ≠ 0 ∧
    (grow p [lf, c]).length ≤ tempSize ∧ copiedLength headers = some (len : ℤ) ∧
    len ≤ r.length ∧ (IsMultipart headers → FormBody headers (r.take len ++ [0]) .closed)

/-- A text whose head is closed and fits, a POST with the body it announces. -/
def FillsRequest (data : List UInt8) : Prop :=
  ∃ toks p r, HeadText .method data toks (.closed p (lf :: r)) ∧ (∀ t ∈ toks, t.Fits) ∧
    (grow p [lf]).length ≤ tempSize ∧ (IsPost toks → BringsBody (headersOf toks) p r)

/-! ## The parts -/

theorem exists_mapM_of_forall {α β : Type} {g : α → Except Fault β} {l : List α}
    (h : ∀ a ∈ l, ∃ b, g a = .ok b) : ∃ bs, l.mapM g = .ok bs := by
  induction l with
  | nil => exact ⟨[], rfl⟩
  | cons a l ih =>
      obtain ⟨⟨b, hb⟩, htail⟩ := List.forall_mem_cons.mp h
      obtain ⟨bs, hbs⟩ := ih htail
      refine ⟨b :: bs, ?_⟩
      rw [List.mapM_cons, hb, ok_bind, hbs]
      rfl

theorem forall_of_mapM {α β : Type} {g : α → Except Fault β} {l : List α} {bs : List β}
    (h : l.mapM g = .ok bs) : ∀ a ∈ l, ∃ b, g a = .ok b := by
  induction l generalizing bs with
  | nil => simp
  | cons a l ih =>
      rw [List.mapM_cons] at h
      obtain ⟨b, hb, h⟩ := exists_of_bind h
      obtain ⟨bs', hbs, -⟩ := exists_of_bind h
      exact List.forall_mem_cons.mpr ⟨⟨b, hb⟩, ih hbs⟩

theorem exists_partAt {multi : Vector (Ptr Multipart) multiPartMaxNum} {i : ℕ} :
    (∃ part, partAt multi i = .ok part) ↔
      ∃ (h : i < multiPartMaxNum) (part : Multipart), multi[i] = .obj part := by
  unfold partAt
  constructor
  · rintro ⟨part, hpart⟩
    by_cases h : i < multiPartMaxNum
    · rw [dif_pos h] at hpart
      refine ⟨h, ?_⟩
      cases hi : multi[i] with
      | addr a =>
          rw [hi] at hpart
          cases hpart
      | obj part => exact ⟨part, rfl⟩
    · rw [dif_neg h] at hpart
      cases hpart
  · rintro ⟨h, part, hpart⟩
    refine ⟨part, ?_⟩
    rw [dif_pos h, hpart]
    rfl

/-- A pointer is followed for every part that was counted. -/
theorem exists_partsUpTo_iff {s : MultiPart.Scan} :
    (∃ parts, partsUpTo s.multi s.mulNum = .ok parts) ↔ AllParts s := by
  unfold partsUpTo AllParts
  simp only [← exists_partAt]
  constructor
  · rintro ⟨parts, hparts⟩ i hi
    exact forall_of_mapM hparts i (List.mem_range.mpr (by omega))
  · intro hall
    refine exists_mapM_of_forall fun i hi => hall i ?_
    have := List.mem_range.mp hi
    omega

/-- Every part that a scan counted is there exactly if it ended at the closing dashes. -/
theorem allParts_iff {junk : ℕ → PartJunk} {boundary body : List UInt8} {s : MultiPart.Scan}
    (hb : IsText boundary) (hs : MultiPart.scanLoop junk boundary body
      (.start (Vector.replicate multiPartMaxNum .null)) = .ok s) :
    AllParts s ↔ MultiPart.Body boundary 0 0 body .closed := by
  have hscan : ∀ {e : MultiPart.Exit}, MultiPart.Body boundary 0 0 body e →
      ∃ k, MultiPart.Scanned (Vector.replicate multiPartMaxNum .null) 0 e k s := by
    intro e hbody
    obtain ⟨s₁, k, hs₁, hscanned⟩ := MultiPart.scanLoop_of_body junk hb hbody (Nat.zero_le _)
      (Vector.replicate multiPartMaxNum .null)
    obtain rfl : s₁ = s := Except.ok.inj (hs₁.symm.trans hs)
    exact ⟨k, hscanned⟩
  constructor
  · intro hall
    obtain ⟨e, hbody⟩ := MultiPart.exists_body hb (n := 0) hs
    cases e with
    | closed => exact hbody
    | foreign =>
        -- the counter is at an entry that was not allocated
        obtain ⟨k, hscanned⟩ := hscan hbody
        obtain ⟨hk, part, hpart⟩ := hall k (le_of_eq hscanned.counter.symm)
        have hnull := hscanned.others k (Or.inr le_rfl)
        rw [Vector.getElem?_eq_getElem hk, hpart, Vector.getElem?_replicate, if_pos hk] at hnull
        cases hnull
  · intro hbody i hi
    obtain ⟨k, hscanned⟩ := hscan hbody
    have hcounter : s.mulNum = (k : ℤ) - 1 := hscanned.counter
    obtain ⟨part, hpart, -⟩ := hscanned.parts i (Nat.zero_le i) (by omega)
    obtain ⟨hlt, hget⟩ := Vector.getElem?_eq_some_iff.mp hpart
    exact ⟨hlt, part, hget⟩

/-- A form whose parts are all there is scanned exactly if it is in the grammar, up to its closing
dashes. -/
theorem scans_allParts_iff {junk : ℕ → PartJunk} {toks : List Tok}
    (htoks : ∀ t ∈ toks, IsText t.text) {body : List UInt8} :
    (∃ s, Scans junk (headersOf toks) body s ∧ AllParts s)
      ↔ FormBody (headersOf toks) body .closed := by
  constructor
  · rintro ⟨s, ⟨cts, boundary, hcts, hboundary, hs⟩, hall⟩
    have htext := isText_boundaryOf hboundary (isText_lastValue htoks hcts)
    exact ⟨cts, boundary, hcts, hboundary, (allParts_iff htext hs).mp hall⟩
  · intro hform
    obtain ⟨s, hscans⟩ : ∃ s, Scans junk (headersOf toks) body s :=
      (exists_scans_iff htoks).mpr ⟨_, hform⟩
    obtain ⟨cts, boundary, hcts, hboundary, hbody⟩ := hform
    obtain ⟨cts', boundary', hcts', hboundary', hs⟩ := id hscans
    cases hcts.symm.trans hcts'
    cases hboundary.symm.trans hboundary'
    have htext := isText_boundaryOf hboundary (isText_lastValue htoks hcts)
    exact ⟨s, hscans, (allParts_iff htext hs).mpr hbody⟩

/-- `req_free` releases the body the request points to. -/
theorem body_of_reqFree {request : Request} {freed : Freed} (h : reqFree request = .ok freed) :
    freed.body = request.body := by
  obtain ⟨parts, -, h⟩ := exists_of_bind h
  cases h
  rfl

/-- What is used of a record was set, and is released. -/
theorem usedFields_iff {junk : ℕ → PartJunk} {mem : RequestMem} {data : List UInt8}
    {used : List UInt8 × Freed} :
    usedFields junk mem data = .ok used ↔
      ∃ request, reqParseHttp junk (reqParseInit mem) data = .ok request ∧
        request.path = used.1 ∧ reqFree request = .ok used.2 := by
  constructor
  · intro h
    obtain ⟨request, hparse, h⟩ := exists_of_bind h
    obtain ⟨freed, hfreed, h⟩ := exists_of_bind h
    cases h
    exact ⟨request, hparse, rfl, hfreed⟩
  · rintro ⟨request, hparse, hpath, hfreed⟩
    rw [usedFields, hparse, ok_bind, hfreed, ok_bind, hpath]

/-- The body pointer is used: if a parse can leave it as it was, it shows. -/
theorem SetsFields.body_set {junk : ℕ → PartJunk} {data : List UInt8} (h : SetsFields junk data)
    (hkeep : ∀ mem request, reqParseHttp junk (reqParseInit mem) data = .ok request →
      request.body = mem.body) : False := by
  obtain ⟨used, hused⟩ := h
  have hbody : ∀ mem : RequestMem, used.2.body = mem.body := by
    intro mem
    obtain ⟨request, hparse, -, hfreed⟩ := usedFields_iff.mp (hused mem)
    rw [body_of_reqFree hfreed, hkeep mem request hparse]
  have hnull : used.2.body = .null := hbody RequestMem.zero
  have hwild : used.2.body = .addr 1 := hbody { RequestMem.zero with body := .addr 1 }
  rw [hnull] at hwild
  cases hwild

/-- A parse that sets all fields has closed the head. -/
theorem SetsFields.closed {junk : ℕ → PartJunk} {data : List UInt8} (h : SetsFields junk data) :
    ∃ toks p r, HeadText .method data toks (.closed p (lf :: r)) := by
  obtain ⟨used, hused⟩ := id h
  obtain ⟨request, hparse, -, -⟩ := usedFields_iff.mp (hused RequestMem.zero)
  obtain ⟨toks, e, hread⟩ := exists_headText_of_ok hparse
  cases e with
  | closed p rest =>
      obtain ⟨r, rfl⟩ := hread.exists_closed
      exact ⟨toks, p, r, hread⟩
  | cut s | bad s =>
      refine (h.body_set fun mem request hparse => ?_).elim
      obtain ⟨f, hput, -, rfl⟩ := (reqParseHttp_iff hread).mp hparse
      exact (filledFrom_putAll hput).body

/-- A POST that sets all fields brings its body. -/
theorem SetsFields.bringsBody {junk : ℕ → PartJunk} {data p r : List UInt8} {toks : List Tok}
    (h : SetsFields junk data) (hread : HeadText .method data toks (.closed p (lf :: r)))
    (hpost : IsPost toks) : BringsBody (headersOf toks) p r := by
  -- what every parse has gone through
  have hopen : ∀ mem request, reqParseHttp junk (reqParseInit mem) data = .ok request →
      ∃ f, FilledFrom mem toks f ∧ ∃ broke, openBody junk p r f = .ok (broke, request) := by
    intro mem request hparse
    obtain ⟨f, hput, -, hleaves⟩ := (reqParseHttp_iff hread).mp hparse
    simp only [Ending.Leaves, if_pos hpost] at hleaves
    exact ⟨f.request, filledFrom_putAll hput, hleaves⟩
  obtain ⟨used, hused⟩ := id h
  obtain ⟨request, hparse, -, hfreed⟩ := usedFields_iff.mp (hused RequestMem.zero)
  obtain ⟨f, hfilled, hrun⟩ := hopen _ _ hparse
  cases r with
  | nil =>
      obtain ⟨broke, hrun⟩ := hrun
      cases hrun
  | cons c r =>
      by_cases hc : c = 0
      · refine (h.body_set fun mem request hparse => ?_).elim
        obtain ⟨f, hfilled, broke, hrun⟩ := hopen _ _ hparse
        rw [openBody, if_pos hc] at hrun
        cases hrun
        exact hfilled.body
      obtain ⟨hbody, hgrow⟩ := (openBody_cons_iff hc).mp hrun
      obtain ⟨request₁, hcopy, -⟩ := exists_of_bind hbody
      rcases hfilled.copyBody_iff.mp hcopy with ⟨hnone, -⟩ | ⟨len, hlen, hle, -⟩
      · refine (h.body_set fun mem request hparse => ?_).elim
        obtain ⟨f, hfilled, hrun⟩ := hopen _ _ hparse
        exact hfilled.body_of_parseBody hnone ((openBody_cons_iff hc).mp hrun).1
      · refine ⟨c, r, len, rfl, hc, hgrow, hlen, hle, fun hform => ?_⟩
        obtain ⟨-, ⟨hplain, -⟩ | ⟨-, s, hs, rfl⟩⟩ := (hfilled.parseBody_iff hlen).mp hbody
        · exact absurd hform hplain
        · obtain ⟨parts, hparts, -⟩ := exists_of_bind hfreed
          exact (scans_allParts_iff hread.isText).mp
            ⟨s, hs, exists_partsUpTo_iff.mp ⟨parts, hparts⟩⟩

/-- What is released of a request that holds the maps of the tokens. -/
def freedOf (toks : List Tok) (body : Ptr (List UInt8)) (parts : List Multipart) : Freed :=
  { query := insertAll (hashmapCreate _ 17) (pairsOf .key .value none toks)
    params := insertAll (hashmapCreate _ 17) (headersOf toks), body := body, parts := parts }

theorem FilledFrom.reqFree_eq {mem : RequestMem} {toks : List Tok} {f : Request}
    (hf : FilledFrom mem toks f) (len : ℕ) (body : Ptr (List UInt8))
    {multi : Vector (Ptr Multipart) multiPartMaxNum} {num : ℤ} {parts : List Multipart}
    (hparts : partsUpTo multi num = .ok parts) :
    reqFree { f with bodyLength := len, body := body, multi := multi, multiPartNum := num }
      = .ok (freedOf toks body parts) := by
  rw [reqFree]
  simp only [hparts, ok_bind, hf.query, hf.params, freedOf]

/-- A request without parts. -/
theorem FilledFrom.partsUpTo_eq {mem : RequestMem} {toks : List Tok} {f : Request}
    (hf : FilledFrom mem toks f) : partsUpTo f.multi f.multiPartNum = .ok [] := by
  rw [hf.multiPartNum]
  rfl

/-- What is released behind a closed head depends on the tokens and the body alone. -/
theorem exists_freed {junk : ℕ → PartJunk} {toks : List Tok} {p r : List UInt8}
    (htoks : ∀ t ∈ toks, IsText t.text) (hpost : IsPost toks → BringsBody (headersOf toks) p r) :
    ∃ freed, ∀ mem f, FilledFrom mem toks f → ∃ request, request.text = f.text ∧
      (Ending.closed p (lf :: r)).Leaves junk toks f request ∧ reqFree request = .ok freed := by
  by_cases h : IsPost toks
  · obtain ⟨c, r, len, rfl, hc, hgrow, hlen, hle, hscan⟩ := hpost h
    have hleaves : ∀ f request, parseBody junk f (c :: r) = .ok request →
        (Ending.closed p (lf :: c :: r)).Leaves junk toks f request := by
      intro f request hbody
      simp only [Ending.Leaves, if_pos h]
      exact (openBody_cons_iff hc).mpr ⟨hbody, hgrow⟩
    by_cases hform : IsMultipart (headersOf toks)
    · obtain ⟨s, hs, hall⟩ := (scans_allParts_iff htoks).mpr (hscan hform)
      obtain ⟨parts, hparts⟩ := exists_partsUpTo_iff.mpr hall
      refine ⟨freedOf toks (.obj ((c :: r).take len ++ [0])) parts, fun mem f hf => ?_⟩
      have hbody := (hf.parseBody_iff hlen).mpr ⟨hle, Or.inr ⟨hform, s, hs, rfl⟩⟩
      exact ⟨{ f with
          bodyLength := len, body := .obj ((c :: r).take len ++ [0])
          multi := s.multi, multiPartNum := s.mulNum },
        rfl, hleaves f _ hbody, hf.reqFree_eq len _ hparts⟩
    · refine ⟨freedOf toks (.obj ((c :: r).take len ++ [0])) [], fun mem f hf => ?_⟩
      have hbody : parseBody junk f (c :: r) = .ok _ :=
        (hf.parseBody_iff hlen).mpr ⟨hle, Or.inl ⟨hform, rfl⟩⟩
      exact ⟨{ f with bodyLength := len, body := .obj ((c :: r).take len ++ [0]) },
        rfl, hleaves f _ hbody, hf.reqFree_eq len _ hf.partsUpTo_eq⟩
  · refine ⟨freedOf toks .null [], fun mem f hf => ?_⟩
    refine ⟨{ f with bodyLength := 0, body := .null }, rfl, ?_,
      hf.reqFree_eq 0 .null hf.partsUpTo_eq⟩
    simp only [Ending.Leaves, if_neg h]

/-- A text that fills the record leaves nothing of what it held to use. -/
theorem FillsRequest.setsFields {junk : ℕ → PartJunk} {data : List UInt8}
    (h : FillsRequest data) : SetsFields junk data := by
  obtain ⟨toks, p, r, hread, hfits, hgrow, hpost⟩ := h
  obtain ⟨freed, hfreed⟩ := exists_freed hread.isText hpost
  obtain ⟨m, path, ts, htoks, -⟩ : ∃ m path ts, toks = ⟨.method, m⟩ :: ⟨.path, path⟩ :: ts ∧
      ∀ t ∈ ts, t.part.Later := by
    rcases hread.shape with ⟨-, -, hopen⟩ | hshape
    · exact absurd rfl (hopen p (lf :: r))
    · exact hshape
  refine ⟨(path, freed), fun mem => ?_⟩
  obtain ⟨f, hput⟩ : ∃ f, (Parser.start (reqParseInit mem)).toFilled.putAll toks = .ok f :=
    hread.exists_putAll trivial hfits
  obtain ⟨request, htext, hleaves, hrelease⟩ := hfreed mem f.request (filledFrom_putAll hput)
  refine usedFields_iff.mpr ⟨request, (reqParseHttp_iff hread).mpr ⟨f, hput, hgrow, hleaves⟩,
    ?_, hrelease⟩
  have hpath := hread.path_eq hput
  rw [htoks] at hpath
  rw [Request.path, htext]
  exact hpath

/-- No field is used before it is set exactly if the text fills the record. -/
theorem setsFields_iff (junk : ℕ → PartJunk) (data : List UInt8) :
    SetsFields junk data ↔ FillsRequest data := by
  constructor
  · intro h
    obtain ⟨toks, p, r, hread⟩ := h.closed
    obtain ⟨used, hused⟩ := id h
    obtain ⟨request, hparse, -, -⟩ := usedFields_iff.mp (hused RequestMem.zero)
    obtain ⟨f, hput, hgrow, -⟩ := (reqParseHttp_iff hread).mp hparse
    exact ⟨toks, p, r, hread, Filled.fits_of_putAll hput, hgrow, h.bringsBody hread⟩
  · exact FillsRequest.setsFields

/-- A request that ends in its method sets neither the path nor the body. -/
theorem not_setsFields_cutMethod : ¬SetsFields (fun _ => PartJunk.zero) (bytes "GET" ++ [0]) := by
  intro h
  have hread : HeadText .method (bytes "GET" ++ [0]) [] (.cut (bytes "GET")) :=
    HeadText.methodCut (Or.inl rfl) ⟨by decide, by decide⟩
  refine h.body_set fun mem request hparse => ?_
  obtain ⟨f, hput, -, rfl⟩ := (reqParseHttp_iff hread).mp hparse
  exact (filledFrom_putAll hput).body
