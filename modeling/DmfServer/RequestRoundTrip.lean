/-
# Parsing undoes rendering

`RequestText` is a request as a client means it, with the limits of the parser's
buffers as fields, and `RequestText.render` its bytes.  The rendered text has the
obvious reading in the grammar, so the parser's run on it is a list of `put`s, each
of which succeeds within the limits, as long as the names and values have room for
their NULs on the heap; what they leave in the request is what the client meant.
-/
import DmfServer.RequestBounds

open CMem Ascii

/-- A query pair as the parser can take it. -/
structure IsQueryPair (p : TextPair) : Prop where
  key_text : IsText p.key
  key_equals : equals ∉ p.key
  key_space : space ∉ p.key
  key_length : p.key.length ≤ 511
  value_text : Without space p.value
  value_amp : amp ∉ p.value
  value_length : p.value.length ≤ 511

/-- A header as the parser can take it. -/
structure IsHeader (p : TextPair) : Prop where
  name_upper : ∃ c s, p.key = c :: s ∧ isUpper c = true
  name_text : Without cr p.key
  name_colon : colon ∉ p.key
  name_length : p.key.length ≤ 511
  value_text : Without cr p.value
  value_length : p.value.length ≤ 511

/-- The body of a POST is announced by the last `Content-Length`, and no part of a
multipart form. -/
structure IsBody (headers : List TextPair) (body : List UInt8) : Prop where
  first : ∃ c s, body = c :: s ∧ c ≠ 0
  announced : ∃ v, lastValue headers (bytes "Content-Length") = some v ∧ atoi v = body.length
  length_le : body.length ≤ 1024 * 1024
  no_parts : ∀ v, lastValue headers (bytes "Content-Type") = some v →
    strstr v (bytes "multipart/form-data") = none

/-- A request as a client means it. -/
structure RequestText where
  method : List UInt8
  path : List UInt8
  query : List TextPair
  protocol : List UInt8
  version : List UInt8
  headers : List TextPair
  body : List UInt8
  method_start : ∃ c s, method = c :: s ∧ IsMethodStart c
  method_text : Without space method
  method_length : method.length ≤ 4
  path_start : ∃ s, path = slash :: s
  path_text : Without space path
  path_question : question ∉ path
  path_length : path.length ≤ 511
  query_pairs : ∀ p ∈ query, IsQueryPair p
  protocol_text : Without slash protocol
  protocol_length : protocol.length ≤ 4
  version_text : Without cr version
  version_length : version.length ≤ 3
  headers_pairs : ∀ p ∈ headers, IsHeader p
  body_post : method = bytes "POST" → IsBody headers body
  body_other : method ≠ bytes "POST" → body = []

/-! ## Rendering -/

/-- `key=value` pairs with `&` between them. -/
def renderPairs : List TextPair → List UInt8
  | [] => []
  | [p] => p.key ++ equals :: p.value
  | p :: q :: ps => p.key ++ equals :: (p.value ++ amp :: renderPairs (q :: ps))

/-- A query behind its `?`; nothing for the empty one. -/
def renderQuery (query : List TextPair) : List UInt8 :=
  match query with
  | [] => []
  | p :: ps => question :: renderPairs (p :: ps)

/-- `Name: value` lines. -/
def renderHeaders : List TextPair → List UInt8
  | [] => []
  | p :: ps => p.key ++ colon :: space :: (p.value ++ cr :: lf :: renderHeaders ps)

/-- The bytes of a request. -/
def RequestText.render (r : RequestText) : List UInt8 :=
  r.method ++ space :: (r.path ++ (renderQuery r.query ++ space :: (r.protocol ++ slash ::
    (r.version ++ cr :: lf :: (renderHeaders r.headers ++ cr :: lf :: r.body)))))

/-! ## The reading of the rendered text -/

/-- The tokens of a query, and of the headers. -/
def pairToks (ps : List TextPair) : List Tok :=
  ps.flatMap fun p => [⟨.key, p.key⟩, ⟨.value, p.value⟩]

@[inherit_doc pairToks] def headerToks (ps : List TextPair) : List Tok :=
  ps.flatMap fun p => [⟨.name, p.key⟩, ⟨.field, p.value⟩]

theorem IsQueryPair.isKey {p : TextPair} (h : IsQueryPair p) : IsKey p.key :=
  ⟨⟨h.key_text, h.key_equals⟩, fun hm => h.key_space (List.mem_of_mem_tail hm)⟩

theorem IsHeader.isName {p : TextPair} (h : IsHeader p) : IsName p.key :=
  ⟨isLine_of_without h.name_text, h.name_colon⟩

/-- Nothing of a header name is dropped. -/
theorem IsHeader.kept_key {p : TextPair} (h : IsHeader p) : kept p.key = p.key := by
  obtain ⟨c, s, hkey, hup⟩ := h.name_upper
  rw [hkey, kept, List.dropWhile_cons_of_neg (by simp [hup])]

/-- A non-empty query reads as its pairs, and ends the part before the protocol. -/
theorem headText_pairs {ps : List TextPair} (hps : ∀ p ∈ ps, IsQueryPair p) (hne : ps ≠ [])
    {rest : List UInt8} {ts : List Tok} {e : Ending} (h : HeadText .protocol rest ts e) :
    HeadText .key (renderPairs ps ++ space :: rest) (pairToks ps ++ ts) e := by
  induction ps with
  | nil => exact absurd rfl hne
  | cons p ps ih =>
      have hp := hps p List.mem_cons_self
      cases ps with
      | nil =>
          rw [renderPairs, List.append_assoc, List.cons_append]
          exact .key hp.isKey (.valueSpace hp.value_text hp.value_amp h)
      | cons q qs =>
          have hrest := ih (fun x hx => hps x (List.mem_cons_of_mem _ hx)) (List.cons_ne_nil _ _)
          rw [renderPairs, List.append_assoc, List.cons_append, List.append_assoc,
            List.cons_append]
          exact .key hp.isKey (.valueAmp hp.value_text hp.value_amp hrest)

/-- The path and the query behind it. -/
theorem headText_path (r : RequestText) {rest : List UInt8} {ts : List Tok} {e : Ending}
    (h : HeadText .protocol rest ts e) :
    HeadText .path (r.path ++ (renderQuery r.query ++ space :: rest))
      (⟨.path, r.path⟩ :: (pairToks r.query ++ ts)) e := by
  obtain ⟨s, hs⟩ := r.path_start
  have htext : Without space s := (without_cons.mp (hs ▸ r.path_text)).2
  have hquestion : question ∉ s := fun hm => r.path_question (hs ▸ List.mem_cons_of_mem _ hm)
  rw [hs, List.cons_append]
  cases hq : r.query with
  | nil => exact .pathSpace htext hquestion h
  | cons p ps =>
      have hps : ∀ x ∈ p :: ps, IsQueryPair x := hq ▸ r.query_pairs
      exact .pathQuery htext hquestion (headText_pairs hps (List.cons_ne_nil _ _) h)

/-- The header lines, and the line end that closes the head. -/
theorem headText_headers {ps : List TextPair} (hps : ∀ p ∈ ps, IsHeader p)
    (rest : List UInt8) :
    HeadText .name (renderHeaders ps ++ cr :: lf :: rest) (headerToks ps)
      (.closed [] (lf :: rest)) := by
  induction ps with
  | nil => exact .nameEnd (j := []) ⟨⟨by simp [IsText], noCrlf_nil⟩, by simp⟩
  | cons p ps ih =>
      have hp := hps p List.mem_cons_self
      have hrest := ih fun x hx => hps x (List.mem_cons_of_mem _ hx)
      have hline := HeadText.field (isLine_of_without hp.value_text) hrest
      have hname := HeadText.name hp.isName (by decide : space ≠ 0) hline
      rw [hp.kept_key] at hname
      rw [renderHeaders, List.append_assoc, List.cons_append, List.cons_append,
        List.append_assoc, List.cons_append, List.cons_append]
      exact hname

/-- The tokens of a request. -/
def RequestText.toks (r : RequestText) : List Tok :=
  ⟨.method, r.method⟩ :: ⟨.path, r.path⟩ ::
    (pairToks r.query ++ ⟨.protocol, r.protocol⟩ :: ⟨.version, r.version⟩ ::
      headerToks r.headers)

theorem headText_render (r : RequestText) (tail : List UInt8) :
    HeadText .method (r.render ++ tail) r.toks (.closed [] (lf :: (r.body ++ tail))) := by
  obtain ⟨c, s, hs, hc⟩ := r.method_start
  have hspace : Without space s := (without_cons.mp (hs ▸ r.method_text)).2
  have hversion := HeadText.version (isLine_of_without r.version_text)
    (headText_headers r.headers_pairs (r.body ++ tail))
  have hprotocol := HeadText.protocol r.protocol_text hversion
  have hmethod := HeadText.method hc hspace (headText_path r hprotocol)
  unfold RequestText.render RequestText.toks
  rw [hs]
  simpa only [List.append_assoc, List.cons_append] using hmethod

/-! ## What the tokens put into the request -/

/-- The pairs of a query go into the query map, and nowhere else. -/
theorem putAll_pairToks (f : Filled) {ps : List TextPair} (hps : ∀ p ∈ ps, IsQueryPair p) :
    ∃ q, f.putAll (pairToks ps) = .ok { f with queryTmp := q, request :=
      { f.request with query := insertAll f.request.query ps } } := by
  induction ps generalizing f with
  | nil => exact ⟨f.queryTmp, rfl⟩
  | cons p ps ih =>
      have hp := hps p List.mem_cons_self
      obtain ⟨q, hq⟩ := ih { f with queryTmp := some p.key, request :=
        { f.request with query := hashmapInsert f.request.query p } }
        fun x hx => hps x (List.mem_cons_of_mem _ hx)
      refine ⟨q, ?_⟩
      show Filled.putAll f (⟨.key, p.key⟩ :: ⟨.value, p.value⟩ :: pairToks ps) = _
      rw [Filled.putAll, Filled.put_eq hp.key_length]
      show Filled.putAll _ (⟨.value, p.value⟩ :: pairToks ps) = _
      rw [Filled.putAll, Filled.put_eq hp.value_length]
      exact hq

/-- The headers go into the map of parameters, and nowhere else. -/
theorem putAll_headerToks (f : Filled) {ps : List TextPair} (hps : ∀ p ∈ ps, IsHeader p) :
    ∃ q, f.putAll (headerToks ps) = .ok { f with paramsTmp := q, request :=
      { f.request with params := insertAll f.request.params ps } } := by
  induction ps generalizing f with
  | nil => exact ⟨f.paramsTmp, rfl⟩
  | cons p ps ih =>
      have hp := hps p List.mem_cons_self
      obtain ⟨q, hq⟩ := ih { f with paramsTmp := some p.key, request :=
        { f.request with params := hashmapInsert f.request.params p } }
        fun x hx => hps x (List.mem_cons_of_mem _ hx)
      refine ⟨q, ?_⟩
      show Filled.putAll f (⟨.name, p.key⟩ :: ⟨.field, p.value⟩ :: headerToks ps) = _
      rw [Filled.putAll, Filled.put_eq hp.name_length]
      show Filled.putAll _ (⟨.field, p.value⟩ :: headerToks ps) = _
      rw [Filled.putAll, Filled.put_eq hp.value_length]
      exact hq

/-- The four texts are written in the order of their places, so none hits another. -/
theorem strcpy_texts (b : Block textSize) {m p q v : List UInt8} (hm : IsText m) (hp : IsText p)
    (hq : IsText q) (hv : IsText v) (hm4 : m.length ≤ 4) (hp511 : p.length ≤ 511)
    (hq4 : q.length ≤ 4) (hv3 : v.length ≤ 3) :
    ∃ b₁ b₂ b₃ b₄, b.strcpy methodAt m = .ok b₁ ∧ b₁.strcpy pathAt p = .ok b₂ ∧
      b₂.strcpy protocolAt q = .ok b₃ ∧ b₃.strcpy versionAt v = .ok b₄ ∧
      b₄.str methodAt = m ∧ b₄.str pathAt = p ∧ b₄.str protocolAt = q ∧ b₄.str versionAt = v := by
  have hsize : textSize = 528 := rfl
  have hpath : pathAt = 5 := rfl
  have hprotocol : protocolAt = 517 := rfl
  have hversion : versionAt = 522 := rfl
  have hmethod : methodAt = 0 := rfl
  obtain ⟨b₁, h₁⟩ : ∃ b₁, b.strcpy methodAt m = .ok b₁ := Block.strcpy_eq_ok (by omega)
  obtain ⟨b₂, h₂⟩ : ∃ b₂, b₁.strcpy pathAt p = .ok b₂ := Block.strcpy_eq_ok (by omega)
  obtain ⟨b₃, h₃⟩ : ∃ b₃, b₂.strcpy protocolAt q = .ok b₃ := Block.strcpy_eq_ok (by omega)
  obtain ⟨b₄, h₄⟩ : ∃ b₄, b₃.strcpy versionAt v = .ok b₄ := Block.strcpy_eq_ok (by omega)
  have hm₁ : b₁.str methodAt = m := Block.str_strcpy_self hm h₁
  have hm₂ : b₂.str methodAt = m :=
    (Block.str_strcpy_below h₂ (by rw [hm₁]; omega)).trans hm₁
  have hm₃ : b₃.str methodAt = m :=
    (Block.str_strcpy_below h₃ (by rw [hm₂]; omega)).trans hm₂
  have hm₄ : b₄.str methodAt = m :=
    (Block.str_strcpy_below h₄ (by rw [hm₃]; omega)).trans hm₃
  have hp₂ : b₂.str pathAt = p := Block.str_strcpy_self hp h₂
  have hp₃ : b₃.str pathAt = p :=
    (Block.str_strcpy_below h₃ (by rw [hp₂]; omega)).trans hp₂
  have hp₄ : b₄.str pathAt = p :=
    (Block.str_strcpy_below h₄ (by rw [hp₃]; omega)).trans hp₃
  have hq₃ : b₃.str protocolAt = q := Block.str_strcpy_self hq h₃
  have hq₄ : b₄.str protocolAt = q :=
    (Block.str_strcpy_below h₄ (by rw [hq₃]; omega)).trans hq₃
  exact ⟨b₁, b₂, b₃, b₄, h₁, h₂, h₃, h₄, hm₄, hp₄, hq₄, Block.str_strcpy_self hv h₄⟩

/-- What the tokens of a head leave in the record. -/
theorem putAll_head (f : Filled) {m p q v : List UInt8} {query headers : List TextPair}
    (hm : IsText m) (hp : IsText p) (hq : IsText q) (hv : IsText v) (hm4 : m.length ≤ 4)
    (hp511 : p.length ≤ 511) (hq4 : q.length ≤ 4) (hv3 : v.length ≤ 3)
    (hquery : ∀ x ∈ query, IsQueryPair x) (hheaders : ∀ x ∈ headers, IsHeader x) :
    ∃ f', f.putAll (⟨.method, m⟩ :: ⟨.path, p⟩ :: (pairToks query ++
        ⟨.protocol, q⟩ :: ⟨.version, v⟩ :: headerToks headers)) = .ok f' ∧
      f'.request.method = m ∧ f'.request.path = p ∧
      f'.request.protocol = q ∧ f'.request.version = v ∧
      f'.request.query = insertAll f.request.query query ∧
      f'.request.params = insertAll f.request.params headers ∧
      f'.request.multi = f.request.multi ∧ f'.request.multiPartNum = f.request.multiPartNum := by
  obtain ⟨b₁, b₂, b₃, b₄, h₁, h₂, h₃, h₄, hmethod, hpath, hprotocol, hversion⟩ :=
    strcpy_texts f.request.text hm hp hq hv hm4 hp511 hq4 hv3
  obtain ⟨t, ht⟩ := putAll_pairToks
    { f with request := { f.request with text := b₂ } } hquery
  obtain ⟨u, hu⟩ := putAll_headerToks
    { f with queryTmp := t, request := { f.request with
      text := b₄, query := insertAll f.request.query query } } hheaders
  have hcopy : ∀ (g : Filled) (off : ℕ) (s : List UInt8) (b' : Block textSize),
      g.request.text.strcpy off s = .ok b' →
      g.copy off s = .ok { g with request := { g.request with text := b' } } := by
    intro g off s b' h
    rw [Filled.copy, h]
    rfl
  have hlen : ∀ {s : List UInt8} {k : ℕ}, s.length ≤ k → k ≤ 511 → s.length ≤ 511 :=
    fun h₁ h₂ => h₁.trans h₂
  refine ⟨{ f with
      queryTmp := t, paramsTmp := u
      request := { f.request with
        text := b₄, query := insertAll f.request.query query
        params := insertAll f.request.params headers } }, ?_, hmethod, hpath, hprotocol, hversion,
    rfl, rfl, rfl, rfl⟩
  rw [Filled.putAll, Filled.put_eq (hlen hm4 (by decide)), Filled.store, hcopy f _ _ _ h₁, ok_bind,
    Filled.putAll, Filled.put_eq (t := ⟨.path, p⟩) hp511, Filled.store,
    hcopy _ _ _ _ h₂, ok_bind, Filled.putAll_append, ht, ok_bind, Filled.putAll,
    Filled.put_eq (hlen hq4 (by decide)), Filled.store, hcopy _ _ _ _ h₃, ok_bind,
    Filled.putAll, Filled.put_eq (hlen hv3 (by decide)), Filled.store,
    hcopy _ _ _ _ h₄, ok_bind]
  exact hu

/-- What the tokens of a request leave in the record. -/
theorem putAll_toks (r : RequestText) (f : Filled) :
    ∃ f', f.putAll r.toks = .ok f' ∧
      f'.request.method = r.method ∧ f'.request.path = r.path ∧
      f'.request.protocol = r.protocol ∧ f'.request.version = r.version ∧
      f'.request.query = insertAll f.request.query r.query ∧
      f'.request.params = insertAll f.request.params r.headers := by
  obtain ⟨f', hrun, hm, hp, hq, hv, hquery, hparams, -⟩ := putAll_head f r.method_text.1
    r.path_text.1 r.protocol_text.1 r.version_text.1 r.method_length r.path_length
    r.protocol_length r.version_length r.query_pairs r.headers_pairs
  exact ⟨f', hrun, hm, hp, hq, hv, hquery, hparams⟩

/-! ## The round trip -/

/-- The body of a POST as announced is copied, and no part scanned. -/
theorem parseBody_announced (junk : ℕ → PartJunk) {request : Request} {headers : List TextPair}
    {body : List UInt8} (hbody : IsBody headers body)
    (hparams : ∀ key, hashmapGet request.params key = lastValue headers key)
    (tail : List UInt8) :
    parseBody junk request (body ++ tail)
      = .ok { request with bodyLength := body.length, body := .obj (body ++ [0]) } := by
  obtain ⟨v, hv, hatoi⟩ := hbody.announced
  have hle : (body.length : ℤ) ≤ httpBodyMax := by
    have := hbody.length_le
    unfold httpBodyMax
    omega
  have hcopy : copyBody request (body ++ tail)
      = .ok { request with bodyLength := body.length, body := .obj (body ++ [0]) } := by
    rw [copyBody, hparams, hv]
    simp [hatoi, hle]
  rw [parseBody, hcopy, ok_bind, scanBody]
  simp only [hparams]
  cases hct : lastValue headers (bytes "Content-Type") with
  | none => rfl
  | some cts => simp [hbody.no_parts cts hct]

/-- Where every block has a byte more, parsing undoes rendering, whatever `malloc` left in the
record and whatever stands behind the request in memory. -/
theorem reqParseHttp_render (junk : ℕ → PartJunk) (mem : RequestMem) (r : RequestText)
    (tail : List UInt8) :
    ∃ request, reqParseHttp junk (reqParseInit mem) (r.render ++ tail) = .ok request ∧
      request.method = r.method ∧ request.path = r.path ∧
      request.protocol = r.protocol ∧ request.version = r.version ∧
      (∀ key, hashmapGet request.query key = lastValue r.query key) ∧
      (∀ key, hashmapGet request.params key = lastValue r.headers key) ∧
      (r.method = bytes "POST" →
        request.body = .obj (r.body ++ [0]) ∧ request.bodyLength = r.body.length) ∧
      (r.method ≠ bytes "POST" → request.body = .null ∧ request.bodyLength = 0) := by
  obtain ⟨f, hf, hm, hp, hq, hv, hquery, hparams⟩ :=
    putAll_toks r (Parser.start (reqParseInit mem)).toFilled
  have hqueryGet : ∀ key, hashmapGet f.request.query key = lastValue r.query key := fun key => by
    rw [hquery]
    exact hashmapGet_insertAll_create r.query key
  have hparamsGet : ∀ key, hashmapGet f.request.params key = lastValue r.headers key :=
    fun key => by
      rw [hparams]
      exact hashmapGet_insertAll_create r.headers key
  rw [reqParseHttp_eq (headText_render r tail), hf, ok_bind, finish_closed,
    pile_eq_ok (Nat.zero_le _), ok_bind, closeHead, pile_eq_ok (s := grow [] [lf])
      (Nat.zero_le _), ok_bind, hm]
  by_cases hpost : r.method = bytes "POST"
  · obtain ⟨c, s, hs, hc⟩ := (r.body_post hpost).first
    have hbody := parseBody_announced junk (r.body_post hpost) hparamsGet tail
    rw [if_pos hpost]
    refine ⟨{ f.request with bodyLength := r.body.length, body := .obj (r.body ++ [0]) }, ?_,
      hm, hp, hq, hv, hqueryGet, hparamsGet, fun _ => ⟨rfl, rfl⟩, fun hne => absurd hpost hne⟩
    rw [hs] at hbody ⊢
    rw [List.cons_append] at hbody ⊢
    rw [openBody, if_neg hc, hbody, ok_bind]
    rfl
  · rw [if_neg hpost]
    exact ⟨_, rfl, hm, hp, hq, hv, hqueryGet, hparamsGet, fun h => absurd h hpost,
      fun _ => ⟨rfl, rfl⟩⟩

/-- The names and values of a request have room for their NULs. -/
def RequestText.HasRoom (spare : SpareByte) (r : RequestText) : Prop :=
  ∀ p ∈ r.query ++ r.headers, spare p.key.length ∧ spare p.value.length

instance RequestText.decidableHasRoom (spare : SpareByte) (r : RequestText) :
    Decidable (r.HasRoom spare) :=
  inferInstanceAs (Decidable (∀ p ∈ r.query ++ r.headers, _))

/-- The texts of a request that are copied to the heap are its names and values. -/
theorem RequestText.hasRoom_iff {spare : SpareByte} (r : RequestText) :
    r.HasRoom spare ↔ ∀ t ∈ r.toks, t.HasRoom spare := by
  have hpairs : ∀ (k v : HeadPart) (ps : List TextPair), k.Copied → v.Copied →
      ((∀ t ∈ ps.flatMap fun p => [(⟨k, p.key⟩ : Tok), ⟨v, p.value⟩], t.HasRoom spare) ↔
        ∀ p ∈ ps, spare p.key.length ∧ spare p.value.length) := by
    intro k v ps hk hv
    simp only [List.mem_flatMap, List.mem_cons, List.not_mem_nil, or_false,
      forall_exists_index, and_imp]
    constructor
    · exact fun h p hp => ⟨h _ p hp (Or.inl rfl) hk, h _ p hp (Or.inr rfl) hv⟩
    · rintro h t p hp (rfl | rfl)
      · exact fun _ => (h p hp).1
      · exact fun _ => (h p hp).2
  have hother : ∀ (part : HeadPart) (text : List UInt8), ¬part.Copied →
      Tok.HasRoom spare ⟨part, text⟩ := fun part text hpart hcopied => absurd hcopied hpart
  rw [HasRoom, RequestText.toks, pairToks, headerToks, List.forall_mem_append,
    List.forall_mem_cons, List.forall_mem_cons, List.forall_mem_append, List.forall_mem_cons,
    List.forall_mem_cons, hpairs _ _ _ (by decide) (by decide),
    hpairs _ _ _ (by decide) (by decide)]
  exact ⟨fun h => ⟨hother _ _ (by decide), hother _ _ (by decide), h.1, hother _ _ (by decide),
    hother _ _ (by decide), h.2⟩, fun h => ⟨h.2.2.1, h.2.2.2.2.2⟩⟩

/-- Where the copies have room, the parse is the one where every block has. -/
theorem RequestText.parse_of_hasRoom {spare : SpareByte} (r : RequestText) (h : r.HasRoom spare)
    (junk : ℕ → PartJunk) (mem : RequestMem) (tail : List UInt8) :
    reqParseHttp junk (reqParseInit mem) (r.render ++ tail) spare
      = reqParseHttp junk (reqParseInit mem) (r.render ++ tail) :=
  reqParseHttp_of_hasRoom (headText_render r tail) (r.hasRoom_iff.mp h)

theorem RequestText.hasRoom_of_parse {spare : SpareByte} (r : RequestText)
    {junk : ℕ → PartJunk} {mem : RequestMem} {tail : List UInt8} {request : Request}
    (hrun : reqParseHttp junk (reqParseInit mem) (r.render ++ tail) spare = .ok request) :
    r.HasRoom spare :=
  r.hasRoom_iff.mpr (hasRoom_of_reqParseHttp (headText_render r tail) hrun)

/-- The parse of the rendered request yields what the request is made of. -/
def ParsesBack (junk : ℕ → PartJunk) (mem : RequestMem) (tail : List UInt8) (spare : SpareByte)
    (r : RequestText) : Prop :=
  ∃ request, reqParseHttp junk (reqParseInit mem) (r.render ++ tail) spare = .ok request ∧
    request.method = r.method ∧ request.path = r.path ∧
    request.protocol = r.protocol ∧ request.version = r.version ∧
    (∀ key, hashmapGet request.query key = lastValue r.query key) ∧
    (∀ key, hashmapGet request.params key = lastValue r.headers key) ∧
    (r.method = bytes "POST" →
      request.body = .obj (r.body ++ [0]) ∧ request.bodyLength = r.body.length) ∧
    (r.method ≠ bytes "POST" → request.body = .null ∧ request.bodyLength = 0)

/-- Parsing undoes rendering if and only if the names and values have room for their NULs. -/
theorem reqParseHttp_render_iff (junk : ℕ → PartJunk) (mem : RequestMem) (tail : List UInt8)
    (spare : SpareByte) (r : RequestText) :
    ParsesBack junk mem tail spare r ↔ r.HasRoom spare := by
  constructor
  · rintro ⟨request, hrun, -⟩
    exact r.hasRoom_of_parse hrun
  · intro hroom
    unfold ParsesBack
    rw [r.parse_of_hasRoom hroom]
    exact reqParseHttp_render junk mem r tail

/-- A small POST with a query. -/
def smallPost : RequestText where
  method := bytes "POST"
  path := bytes "/a"
  query := [⟨bytes "k", bytes "v"⟩, ⟨bytes "k", bytes "w"⟩]
  protocol := bytes "HTTP"
  version := bytes "1.1"
  headers := [⟨bytes "Host", bytes "x"⟩, ⟨bytes "Content-Length", bytes "2"⟩]
  body := bytes "hi"
  method_start := ⟨80, bytes "OST", by decide, Or.inr rfl⟩
  method_text := ⟨by decide, by decide⟩
  method_length := by decide
  path_start := ⟨bytes "a", by decide⟩
  path_text := ⟨by decide, by decide⟩
  path_question := by decide
  path_length := by decide
  query_pairs := by
    intro p hp
    rcases List.mem_cons.mp hp with rfl | hp
    · exact ⟨by decide, by decide, by decide, by decide, ⟨by decide, by decide⟩, by decide,
        by decide⟩
    · rw [List.mem_singleton.mp hp]
      exact ⟨by decide, by decide, by decide, by decide, ⟨by decide, by decide⟩, by decide,
        by decide⟩
  protocol_text := ⟨by decide, by decide⟩
  protocol_length := by decide
  version_text := ⟨by decide, by decide⟩
  version_length := by decide
  headers_pairs := by
    intro p hp
    rcases List.mem_cons.mp hp with rfl | hp
    · exact ⟨⟨72, bytes "ost", by decide, by decide⟩, ⟨by decide, by decide⟩, by decide,
        by decide, ⟨by decide, by decide⟩, by decide⟩
    · rw [List.mem_singleton.mp hp]
      exact ⟨⟨67, bytes "ontent-Length", by decide, by decide⟩, ⟨by decide, by decide⟩,
        by decide, by decide, ⟨by decide, by decide⟩, by decide⟩
  body_post _ :=
    { first := ⟨104, bytes "i", by decide, by decide⟩
      announced := ⟨bytes "2", by decide, by decide⟩
      length_le := by decide
      no_parts := by
        intro v hv
        have hnone : lastValue [⟨bytes "Host", bytes "x"⟩, ⟨bytes "Content-Length", bytes "2"⟩]
            (bytes "Content-Type") = none := by decide
        rw [hnone] at hv
        cases hv }
  body_other h := absurd rfl h

/-- The small POST parses back; the second `k` is the one the map answers with. -/
theorem reqParseHttp_render_smallPost :
    ∃ request, reqParseHttp (fun _ => .zero) (reqParseInit .zero)
        (bytes "POST /a?k=v&k=w HTTP/1.1\r\nHost: x\r\nContent-Length: 2\r\n\r\nhi") chunkSpare
          = .ok request ∧
      request.path = bytes "/a" ∧
      hashmapGet request.query (bytes "k") = some (bytes "w") ∧
      request.body = .obj (bytes "hi" ++ [0]) := by
  obtain ⟨request, hrun, -, hpath, -, -, hquery, -, hbody, -⟩ :=
    (reqParseHttp_render_iff (fun _ => .zero) .zero [] chunkSpare smallPost).mpr (by decide)
  exact ⟨request, hrun, hpath, (hquery _).trans (by decide), (hbody rfl).1⟩

/-! ## Behind the head -/

/-- What stands in the record behind the head: its texts, the two maps, and an empty table. -/
theorem reqParseHttp_head (junk : ℕ → PartJunk) (mem : RequestMem) {data rest m p q v : List UInt8}
    {query headers : List TextPair}
    (hread : HeadText .method data (⟨.method, m⟩ :: ⟨.path, p⟩ :: (pairToks query ++
      ⟨.protocol, q⟩ :: ⟨.version, v⟩ :: headerToks headers)) (.closed [] (lf :: rest)))
    (hm : IsText m) (hp : IsText p) (hq : IsText q) (hv : IsText v) (hm4 : m.length ≤ 4)
    (hp511 : p.length ≤ 511) (hq4 : q.length ≤ 4) (hv3 : v.length ≤ 3)
    (hquery : ∀ x ∈ query, IsQueryPair x) (hheaders : ∀ x ∈ headers, IsHeader x) :
    ∃ f : Request, f.method = m ∧ f.path = p ∧ f.protocol = q ∧ f.version = v ∧
      (∀ key, hashmapGet f.query key = lastValue query key) ∧
      (∀ key, hashmapGet f.params key = lastValue headers key) ∧
      f.multi = Vector.replicate _ .null ∧ f.multiPartNum = -1 ∧
      reqParseHttp junk (reqParseInit mem) data =
        if m = bytes "POST" then (openBody junk [] rest f).map Prod.snd
        else .ok { f with bodyLength := 0, body := .null } := by
  obtain ⟨f, hf, hmethod, hpath, hprotocol, hversion, hpairs, hfields, hmulti, hnum⟩ :=
    putAll_head (Parser.start (reqParseInit mem)).toFilled hm hp hq hv hm4 hp511 hq4 hv3 hquery
      hheaders
  refine ⟨f.request, hmethod, hpath, hprotocol, hversion, ?_, ?_, hmulti, hnum, ?_⟩
  · intro key
    rw [hpairs]
    exact hashmapGet_insertAll_create query key
  · intro key
    rw [hfields]
    exact hashmapGet_insertAll_create headers key
  · rw [reqParseHttp_eq hread, hf, ok_bind, finish_closed, pile_eq_ok (Nat.zero_le _), ok_bind,
      closeHead, pile_eq_ok (s := grow [] [lf]) (Nat.zero_le _), ok_bind, hmethod]
    split
    · rfl
    · rfl

/-- A first byte opens the body. -/
theorem openBody_cons (junk : ℕ → PartJunk) (request : Request) {c : UInt8} {rest : List UInt8}
    (hc : c ≠ 0) : (openBody junk [] (c :: rest) request).map Prod.snd
      = parseBody junk request (c :: rest) := by
  rw [openBody, if_neg hc]
  cases parseBody junk request (c :: rest) <;> rfl

/-- The request that is made of a text, with no parts in its table. -/
theorem RequestText.exists_request (r : RequestText) (junk : ℕ → PartJunk) (mem : RequestMem)
    (tail : List UInt8) :
    ∃ request, reqParseHttp junk (reqParseInit mem) (r.render ++ tail) = .ok request ∧
      request.method = r.method ∧ request.path = r.path ∧
      request.protocol = r.protocol ∧ request.version = r.version ∧
      (∀ key, hashmapGet request.query key = lastValue r.query key) ∧
      (∀ key, hashmapGet request.params key = lastValue r.headers key) ∧
      (r.method = bytes "POST" →
        request.body = .obj (r.body ++ [0]) ∧ request.bodyLength = r.body.length) ∧
      (r.method ≠ bytes "POST" → request.body = .null) ∧ request.multiPartNum = -1 := by
  obtain ⟨f, hmethod, hpath, hprotocol, hversion, hquery, hparams, -, hnum, hrun⟩ :=
    reqParseHttp_head junk mem (headText_render r tail) r.method_text.1 r.path_text.1
      r.protocol_text.1 r.version_text.1 r.method_length r.path_length r.protocol_length
      r.version_length r.query_pairs r.headers_pairs
  rw [hrun]
  by_cases hpost : r.method = bytes "POST"
  · rw [if_pos hpost]
    obtain ⟨c, s, hs, hc⟩ := (r.body_post hpost).first
    have hbody := parseBody_announced junk (r.body_post hpost) hparams tail
    refine ⟨{ f with bodyLength := r.body.length, body := .obj (r.body ++ [0]) }, ?_, hmethod,
      hpath, hprotocol, hversion, hquery, hparams, fun _ => ⟨rfl, rfl⟩,
      fun hne => absurd hpost hne, hnum⟩
    rw [hs, List.cons_append] at hbody ⊢
    rw [openBody_cons junk f hc, hbody]
  · rw [if_neg hpost]
    exact ⟨_, rfl, hmethod, hpath, hprotocol, hversion, hquery, hparams,
      fun h => absurd h hpost, fun _ => rfl, hnum⟩

/-! ## A `GET` -/

theorem start_get : ∃ c s, bytes "GET" = c :: s ∧ IsMethodStart c :=
  ⟨71, bytes "ET", by decide, Or.inl rfl⟩

theorem text_get : Without space (bytes "GET") := ⟨by decide, by decide⟩

theorem length_get : (bytes "GET").length ≤ 4 := by decide

theorem text_http : Without slash (bytes "HTTP") := ⟨by decide, by decide⟩

theorem length_http : (bytes "HTTP").length ≤ 4 := by decide

theorem text_version : Without cr (bytes "1.1") := ⟨by decide, by decide⟩

theorem length_version : (bytes "1.1").length ≤ 3 := by decide

/-- A `GET`, as browsers send it. -/
def RequestText.get (path : List UInt8) (query headers : List TextPair)
    (hpath : path.head? = some slash ∧ (IsText path ∧ space ∉ path) ∧ question ∉ path ∧
      path.length ≤ 511)
    (hquery : ∀ p ∈ query, IsQueryPair p) (hheaders : ∀ p ∈ headers, IsHeader p) :
    RequestText where
  method := bytes "GET"
  path := path
  query := query
  protocol := bytes "HTTP"
  version := bytes "1.1"
  headers := headers
  body := []
  method_start := start_get
  method_text := text_get
  method_length := length_get
  path_start := List.head?_eq_some_iff.mp hpath.1
  path_text := hpath.2.1
  path_question := hpath.2.2.1
  path_length := hpath.2.2.2
  query_pairs := hquery
  protocol_text := text_http
  protocol_length := length_http
  version_text := text_version
  version_length := length_version
  headers_pairs := hheaders
  body_post h := absurd h (by decide)
  body_other _ := rfl

/-- A `GET` with a header name of 24 bytes. -/
def extensionsGet : RequestText :=
  .get (bytes "/") [] [⟨bytes "Sec-WebSocket-Extensions", bytes "x"⟩] (by decide) (by simp) (by
    intro p hp
    rw [List.mem_singleton.mp hp]
    exact ⟨⟨83, bytes "ec-WebSocket-Extensions", by decide, by decide⟩,
      ⟨by decide, by decide⟩, by decide, by decide, ⟨by decide, by decide⟩, by decide⟩)

/-- The name fills its block, and its NUL is written behind it. -/
theorem not_parsesBack_extensions :
    ¬∀ r : RequestText, ParsesBack (fun _ => .zero) .zero [] chunkSpare r := by
  intro h
  obtain ⟨request, hrun, -⟩ := h extensionsGet
  have hroom := extensionsGet.hasRoom_iff.mpr
    (hasRoom_of_reqParseHttp (headText_render extensionsGet []) hrun)
  exact absurd hroom (by decide)
