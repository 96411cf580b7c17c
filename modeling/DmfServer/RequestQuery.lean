/-
# What a query does to the rest of the request

`PlainRequest` is a request head without a query; `withQuery` puts `?` and a query text
behind its path.  A query text reads as `key=value&` pairs and a rest (`exists_pairs`): a
value, a key without its `=`, or nothing.  In the first case the two parses differ in the
query map only (`reqParseHttp_withQuery`), in the second the parser is in `PARSE_INVALID` in
front of the space, in the third it takes that space for the first byte of a key
(`queryKept_iff`).
-/
import DmfServer.RequestRounds

open CMem Ascii StepSystem

/-! ## The query map is only filled -/

/-- The request with another query map. -/
def Request.withQuery (x : FieldMap) (request : Request) : Request :=
  { request with query := x }

/-- What is filled in, with another query map and another key waiting. -/
def Filled.withQuery (key : Option (List UInt8)) (x : FieldMap) (f : Filled) : Filled :=
  { f with queryTmp := key, request := f.request.withQuery x }

/-- A token of the query. -/
def HeadPart.OfQuery (part : HeadPart) : Prop := part = .key ∨ part = .value

instance (part : HeadPart) : Decidable part.OfQuery :=
  inferInstanceAs (Decidable (part = .key ∨ part = .value))

section
variable (key : Option (List UInt8)) (x : FieldMap)

theorem copy_withQuery (f : Filled) (off : ℕ) (s : List UInt8) :
    (f.withQuery key x).copy off s = (f.copy off s).map (Filled.withQuery key x) := by
  show (f.request.text.strcpy off s >>= fun text => _) = _
  rw [Filled.copy]
  cases f.request.text.strcpy off s <;> rfl

theorem store_withQuery (f : Filled) {part : HeadPart} (hpart : ¬part.OfQuery) (s : List UInt8) :
    (f.withQuery key x).store part s = (f.store part s).map (Filled.withQuery key x) := by
  cases part with
  | method | path | protocol | version => exact copy_withQuery key x f _ s
  | key => exact absurd (Or.inl rfl) hpart
  | value => exact absurd (Or.inr rfl) hpart
  | name => rfl
  | field =>
      obtain ⟨queryTmp, paramsTmp, request⟩ := f
      cases paramsTmp <;> rfl

theorem put_withQuery (f : Filled) {t : Tok} (ht : ¬t.part.OfQuery) :
    (f.withQuery key x).put t = (f.put t).map (Filled.withQuery key x) := by
  unfold Filled.put
  cases pile t.text with
  | error e => rfl
  | ok s =>
      rw [ok_bind, ok_bind, Filled.storeTemp_ample, Filled.storeTemp_ample, store_withQuery key x f ht]
      split <;> rfl

/-- Tokens that are not of the query are put in the same way. -/
theorem putAll_withQuery (f : Filled) {ts : List Tok} (hts : ∀ t ∈ ts, ¬t.part.OfQuery) :
    (f.withQuery key x).putAll ts = (f.putAll ts).map (Filled.withQuery key x) := by
  induction ts generalizing f with
  | nil => rfl
  | cons t ts ih =>
      obtain ⟨ht, hts⟩ := List.forall_mem_cons.mp hts
      rw [Filled.putAll, put_withQuery key x f ht, Filled.putAll]
      cases f.put t with
      | error e => rfl
      | ok f' => exact ih f' hts

theorem copyBody_withQuery (request : Request) (p : List UInt8) :
    copyBody (request.withQuery x) p = (copyBody request p).map (Request.withQuery x) := by
  have hparams : (request.withQuery x).params = request.params := rfl
  unfold copyBody
  rw [hparams]
  cases hashmapGet request.params (bytes "Content-Length") with
  | none => rfl
  | some cls =>
      simp only
      split
      · split
        · rfl
        · split <;> rfl
      · rfl

variable {junk : ℕ → PartJunk}

theorem scanBody_withQuery (request : Request) :
    scanBody junk (request.withQuery x) = (scanBody junk request).map (Request.withQuery x) := by
  have hparams : (request.withQuery x).params = request.params := rfl
  unfold scanBody
  rw [hparams]
  cases hashmapGet request.params (bytes "Content-Type") with
  | none => rfl
  | some cts =>
      simp only
      split
      · cases boundaryOf cts with
        | error e => rfl
        | ok boundary =>
            show (request.body.deref >>= fun body => _)
              = (reqParseMultiPart junk request boundary).map _
            unfold reqParseMultiPart
            cases request.body.deref with
            | error e => rfl
            | ok body =>
                show (MultiPart.scanLoop junk boundary body (.start request.multi) >>= fun s => _)
                  = _
                rw [ok_bind]
                cases MultiPart.scanLoop junk boundary body (.start request.multi) <;> rfl
      · rfl

theorem parseBody_withQuery (request : Request) (p : List UInt8) :
    parseBody junk (request.withQuery x) p
      = (parseBody junk request p).map (Request.withQuery x) := by
  unfold parseBody
  rw [copyBody_withQuery]
  cases copyBody request p with
  | error e => rfl
  | ok request' => exact scanBody_withQuery x request'

/-- Behind the head the query map is not looked at. -/
theorem closeHead_withQuery (p rest : List UInt8) (request : Request) :
    closeHead junk p rest (request.withQuery x)
      = (closeHead junk p rest request).map (Prod.map id (Request.withQuery x)) := by
  unfold closeHead
  cases pile (grow p [lf]) with
  | error e => rfl
  | ok temp =>
      rw [ok_bind, ok_bind]
      have hmethod : (request.withQuery x).method = request.method := rfl
      rw [hmethod]
      by_cases hpost : request.method = bytes "POST"
      · rw [if_pos hpost, if_pos hpost]
        cases rest with
        | nil => rfl
        | cons c rest =>
            simp only [openBody]
            by_cases hc : c = 0
            · rw [if_pos hc, if_pos hc]
              rfl
            · rw [if_neg hc, if_neg hc, parseBody_withQuery]
              cases parseBody junk request (c :: rest) with
              | error e => rfl
              | ok request' =>
                  rw [ok_map, ok_bind, ok_bind]
                  cases pile (grow p [lf, c]) <;> rfl
      · rw [if_neg hpost, if_neg hpost]
        rfl

end

/-! ## Requests without a query -/

/-- A token of the request line, or a header name: no separator, and no `=`. -/
structure IsToken (s : List UInt8) : Prop where
  text : IsText s
  not_space : space ∉ s
  not_equals : equals ∉ s

/-- A request head without a query, with the limits of the parser's buffers. -/
structure PlainRequest where
  method : List UInt8
  path : List UInt8
  protocol : List UInt8
  version : List UInt8
  headers : List TextPair
  method_start : ∃ c s, method = c :: s ∧ IsMethodStart c
  method_text : Without space method
  method_length : method.length ≤ 4
  path_start : ∃ s, path = slash :: s
  path_text : Without space path
  path_question : question ∉ path
  path_length : path.length ≤ 511
  protocol_some : protocol ≠ []
  protocol_token : IsToken protocol
  protocol_slash : slash ∉ protocol
  protocol_length : protocol.length ≤ 4
  version_token : IsToken version
  version_cr : cr ∉ version
  version_length : version.length ≤ 3
  headers_pairs : ∀ p ∈ headers, IsHeader p ∧ IsToken p.key

namespace PlainRequest

variable (r : PlainRequest)

/-- The bytes behind the space that ends the path or the query; `behind` are those behind the
blank line. -/
def rest (behind : List UInt8) : List UInt8 :=
  r.protocol ++ slash :: (r.version ++ cr :: lf :: (renderHeaders r.headers ++ cr :: lf :: behind))

/-- The request without a query. -/
def plain (behind : List UInt8) : List UInt8 :=
  r.method ++ space :: (r.path ++ space :: r.rest behind)

/-- The request with `?` and a query behind its path. -/
def withQuery (q behind : List UInt8) : List UInt8 :=
  r.method ++ space :: (r.path ++ question :: (q ++ space :: r.rest behind))

/-- The tokens of the head in front of the query, and behind it. -/
def lineToks : List Tok := [⟨.method, r.method⟩, ⟨.path, r.path⟩]

@[inherit_doc lineToks] def restToks : List Tok :=
  ⟨.protocol, r.protocol⟩ :: ⟨.version, r.version⟩ :: headerToks r.headers

theorem headText_rest (behind : List UInt8) :
    HeadText .protocol (r.rest behind) r.restToks (.closed [] (lf :: behind)) :=
  .protocol ⟨r.protocol_token.text, r.protocol_slash⟩
    (.version (isLine_of_without ⟨r.version_token.text, r.version_cr⟩)
      (headText_headers (fun p hp => (r.headers_pairs p hp).1) behind))

/-- The reading in front of the space or the `?` behind the path. -/
theorem headText_line {rest : List UInt8} {ts : List Tok} {e : Ending}
    (h : HeadText .protocol rest ts e) :
    HeadText .method (r.method ++ space :: (r.path ++ space :: rest)) (r.lineToks ++ ts) e := by
  obtain ⟨c, s, hmethod, hc⟩ := r.method_start
  obtain ⟨t, hpath⟩ := r.path_start
  have hspace : Without space s := (without_cons.mp (hmethod ▸ r.method_text)).2
  have htext : Without space t := (without_cons.mp (hpath ▸ r.path_text)).2
  have hquestion : question ∉ t := fun hm => r.path_question (hpath ▸ List.mem_cons_of_mem _ hm)
  unfold lineToks
  rw [hmethod, hpath]
  exact .method hc hspace (.pathSpace htext hquestion h)

theorem headText_question {rest : List UInt8} {ts : List Tok} {e : Ending}
    (h : HeadText .key rest ts e) :
    HeadText .method (r.method ++ space :: (r.path ++ question :: rest)) (r.lineToks ++ ts) e := by
  obtain ⟨c, s, hmethod, hc⟩ := r.method_start
  obtain ⟨t, hpath⟩ := r.path_start
  have hspace : Without space s := (without_cons.mp (hmethod ▸ r.method_text)).2
  have htext : Without space t := (without_cons.mp (hpath ▸ r.path_text)).2
  have hquestion : question ∉ t := fun hm => r.path_question (hpath ▸ List.mem_cons_of_mem _ hm)
  unfold lineToks
  rw [hmethod, hpath]
  exact .method hc hspace (.pathQuery htext hquestion h)

theorem headText_plain (behind : List UInt8) :
    HeadText .method (r.plain behind) (r.lineToks ++ r.restToks) (.closed [] (lf :: behind)) :=
  r.headText_line (r.headText_rest behind)

end PlainRequest

/-! ## Queries -/

/-- A query text. -/
def IsQuery (q : List UInt8) : Prop := ∀ c ∈ q, c ≠ 0 ∧ c ≠ space ∧ c ≠ cr ∧ c ≠ lf

/-- A pair as it stands in a query: the key reaches to the first `=`, the value to the next
`&`. -/
structure IsPairText (p : TextPair) : Prop where
  key_text : IsText p.key
  key_equals : equals ∉ p.key
  key_space : space ∉ p.key
  value_text : Without space p.value
  value_amp : amp ∉ p.value

theorem IsPairText.isKey {p : TextPair} (h : IsPairText p) : IsKey p.key :=
  ⟨⟨h.key_text, h.key_equals⟩, fun hm => h.key_space (List.mem_of_mem_tail hm)⟩

/-- Pairs, each with its `&`. -/
def renderOpen (ps : List TextPair) : List UInt8 :=
  ps.flatMap fun p => p.key ++ equals :: (p.value ++ [amp])

theorem renderOpen_cons (p : TextPair) (ps : List TextPair) (t : List UInt8) :
    renderOpen (p :: ps) ++ t = p.key ++ equals :: (p.value ++ amp :: (renderOpen ps ++ t)) := by
  simp [renderOpen]

/-- A query is pairs with their `&`, and behind them a pair or the beginning of a key. -/
theorem exists_pairs {q : List UInt8} (hq : IsQuery q) :
    ∃ ps : List TextPair, (∀ p ∈ ps, IsPairText p) ∧
      ((∃ k, IsQuery k ∧ equals ∉ k ∧ q = renderOpen ps ++ k) ∨
        ∃ p, IsPairText p ∧ q = renderOpen ps ++ (p.key ++ equals :: p.value)) := by
  induction hn : q.length using Nat.strong_induction_on generalizing q with
  | _ n ih =>
      by_cases heq : equals ∈ q
      swap
      · exact ⟨[], by simp, Or.inl ⟨q, hq, heq, rfl⟩⟩
      obtain ⟨k, r, rfl, hk⟩ := List.eq_append_cons_of_mem heq
      have htext : ∀ {s : List UInt8}, IsQuery s → Without space s := fun hs =>
        ⟨fun h0 => (hs 0 h0).1 rfl, fun hsp => (hs space hsp).2.1 rfl⟩
      have hkq : IsQuery k := fun c hc => hq c (List.mem_append_left _ hc)
      have hrq : IsQuery r := fun c hc =>
        hq c (List.mem_append_right _ (List.mem_cons_of_mem _ hc))
      by_cases hamp : amp ∈ r
      swap
      · exact ⟨[], by simp, Or.inr ⟨⟨k, r⟩,
          ⟨(htext hkq).1, hk, (htext hkq).2, htext hrq, hamp⟩, rfl⟩⟩
      obtain ⟨v, t, rfl, hv⟩ := List.eq_append_cons_of_mem hamp
      have hvq : IsQuery v := fun c hc => hrq c (List.mem_append_left _ hc)
      have htq : IsQuery t := fun c hc =>
        hrq c (List.mem_append_right _ (List.mem_cons_of_mem _ hc))
      have hpair : IsPairText ⟨k, v⟩ := ⟨(htext hkq).1, hk, (htext hkq).2, htext hvq, hv⟩
      have hlt : t.length < n := by
        rw [← hn]
        simp only [List.length_append, List.length_cons]
        omega
      obtain ⟨ps, hps, hend⟩ := ih t.length hlt htq rfl
      refine ⟨⟨k, v⟩ :: ps, List.forall_mem_cons.mpr ⟨hpair, hps⟩, ?_⟩
      rcases hend with ⟨k', hk', heq', rfl⟩ | ⟨p, hp, rfl⟩
      · exact Or.inl ⟨k', hk', heq', by rw [renderOpen_cons]⟩
      · exact Or.inr ⟨p, hp, by rw [renderOpen_cons]⟩

/-- The reading of pairs with their `&`. -/
theorem headText_open {ps : List TextPair} (hps : ∀ p ∈ ps, IsPairText p) {rest : List UInt8}
    {ts : List Tok} {e : Ending} (h : HeadText .key rest ts e) :
    HeadText .key (renderOpen ps ++ rest) (pairToks ps ++ ts) e := by
  induction ps with
  | nil => exact h
  | cons p ps ih =>
      obtain ⟨hp, hps⟩ := List.forall_mem_cons.mp hps
      rw [renderOpen_cons]
      exact .key hp.isKey (.valueAmp hp.value_text hp.value_amp (ih hps))

/-- A pair at the end of the query. -/
theorem headText_lastPair {p : TextPair} (hp : IsPairText p) {rest : List UInt8} {ts : List Tok}
    {e : Ending} (h : HeadText .protocol rest ts e) :
    HeadText .key (p.key ++ equals :: p.value ++ space :: rest) (pairToks [p] ++ ts) e := by
  rw [List.append_assoc, List.cons_append]
  exact .key hp.isKey (.valueSpace hp.value_text hp.value_amp h)

/-! ## A query that ends in a value -/

/-- A pair with room in `temp`. -/
theorem IsPairText.isQueryPair {p : TextPair} (h : IsPairText p) (hkey : p.key.length ≤ 511)
    (hvalue : p.value.length ≤ 511) : IsQueryPair p :=
  ⟨h.key_text, h.key_equals, h.key_space, hkey, h.value_text, h.value_amp, hvalue⟩

theorem IsQueryPair.isPairText {p : TextPair} (h : IsQueryPair p) : IsPairText p :=
  ⟨h.key_text, h.key_equals, h.key_space, h.value_text, h.value_amp⟩

/-- Pairs whose texts were put have room. -/
theorem isQueryPair_of_fits {ps : List TextPair} (hps : ∀ p ∈ ps, IsPairText p)
    (hfits : ∀ t ∈ pairToks ps, t.Fits) : ∀ p ∈ ps, IsQueryPair p := by
  intro p hp
  have hmem : ∀ t ∈ [(⟨.key, p.key⟩ : Tok), ⟨.value, p.value⟩], t ∈ pairToks ps := fun t ht =>
    List.mem_flatMap.mpr ⟨p, hp, ht⟩
  exact (hps p hp).isQueryPair (hfits ⟨.key, p.key⟩ (hmem _ (by simp))).length_le
    (hfits ⟨.value, p.value⟩ (hmem _ (by simp))).length_le

theorem pairToks_append (ps qs : List TextPair) :
    pairToks (ps ++ qs) = pairToks ps ++ pairToks qs := List.flatMap_append

theorem not_ofQuery_headerToks (ps : List TextPair) : ∀ t ∈ headerToks ps, ¬t.part.OfQuery := by
  intro t ht
  obtain ⟨p, -, ht⟩ := List.mem_flatMap.mp ht
  rcases List.mem_pair.mp ht with rfl | rfl
  · show ¬HeadPart.OfQuery .name
    decide
  · show ¬HeadPart.OfQuery .field
    decide

section
variable {junk : ℕ → PartJunk} (r : PlainRequest) {ps : List TextPair}

theorem PlainRequest.not_ofQuery_restToks : ∀ t ∈ r.restToks, ¬t.part.OfQuery := by
  refine List.forall_mem_cons.mpr ⟨?_, List.forall_mem_cons.mpr ⟨?_,
    not_ofQuery_headerToks r.headers⟩⟩
  · show ¬HeadPart.OfQuery .protocol
    decide
  · show ¬HeadPart.OfQuery .version
    decide

/-- The reading of a request whose query ends in a value. -/
theorem PlainRequest.headText_pairs {p : TextPair} (hps : ∀ p ∈ ps, IsPairText p)
    (hp : IsPairText p) (behind : List UInt8) :
    HeadText .method (r.withQuery (renderOpen ps ++ (p.key ++ equals :: p.value)) behind)
      (r.lineToks ++ (pairToks (ps ++ [p]) ++ r.restToks)) (.closed [] (lf :: behind)) := by
  rw [pairToks_append, List.append_assoc, PlainRequest.withQuery, List.append_assoc]
  exact r.headText_question (headText_open hps (headText_lastPair hp (r.headText_rest behind)))

/-- A query that ends in a value changes the query map, and nothing else. -/
theorem reqParseHttp_withQuery {p : TextPair} (hps : ∀ x ∈ ps ++ [p], IsQueryPair x)
    (request : Request) (behind : List UInt8) :
    ∃ x, reqParseHttp junk request
        (r.withQuery (renderOpen ps ++ (p.key ++ equals :: p.value)) behind)
      = (reqParseHttp junk request (r.plain behind)).map (Request.withQuery x) := by
  have htext : ∀ x ∈ ps ++ [p], IsPairText x := fun x hx => (hps x hx).isPairText
  have hread := r.headText_pairs (fun x hx => htext x (List.mem_append_left _ hx))
    (htext p (by simp)) behind
  rw [reqParseHttp_eq hread, reqParseHttp_eq (r.headText_plain behind), Filled.putAll_append,
    Filled.putAll_append]
  cases (Parser.start request).toFilled.putAll r.lineToks with
  | error e => exact ⟨request.query, rfl⟩
  | ok f =>
      obtain ⟨key, hpairs⟩ := putAll_pairToks f hps
      have hpairs : f.putAll (pairToks (ps ++ [p]))
          = .ok (f.withQuery key (insertAll f.request.query (ps ++ [p]))) := hpairs
      refine ⟨insertAll f.request.query (ps ++ [p]), ?_⟩
      rw [ok_bind, ok_bind, Filled.putAll_append, hpairs, ok_bind,
        putAll_withQuery _ _ _ r.not_ofQuery_restToks]
      cases f.putAll r.restToks with
      | error e => rfl
      | ok f' =>
          rw [ok_map, ok_bind, ok_bind, finish_closed, finish_closed]
          show Except.map Prod.snd (closeHead junk [] behind (f'.request.withQuery _)) = _
          rw [closeHead_withQuery]
          show _ = ((closeHead junk [] behind f'.request).map Prod.snd).map _
          cases closeHead junk [] behind f'.request <;> rfl

end

/-- The two requests agree in what is not of the query. -/
structure SameRequest (a b : Request) : Prop where
  path : b.path = a.path
  protocol : b.protocol = a.protocol
  version : b.version = a.version
  params : b.params = a.params
  body : b.body = a.body
  bodyLength : b.bodyLength = a.bodyLength

theorem sameRequest_withQuery (request : Request) (x : FieldMap) :
    SameRequest request (request.withQuery x) := ⟨rfl, rfl, rfl, rfl, rfl, rfl⟩

/-! ## The state behind the query -/

/-- In front of `behind` the parser is in `PARSE_INVALID`, stays there to the NUL, and the
request stays as it is. -/
def Refused (junk : ℕ → PartJunk) (request : Request) (data behind : List UInt8) : Prop :=
  ∃ cs m halt, Steps (ParserStep junk) (.start request, data) cs (m, behind) ∧
    m.state = .invalid ∧ reqParseLoop junk .start data (.start request) = .ok halt ∧
    halt.parser.state = .invalid ∧ halt.parser.request = m.request

section
variable {junk : ℕ → PartJunk} (r : PlainRequest) {ps : List TextPair} {request : Request}

/-- The run over the method and the path, to the first byte of the query. -/
theorem PlainRequest.steps_line {f : Filled}
    (hput : (Parser.start request).toFilled.putAll r.lineToks = .ok f) (rest : List UInt8) :
    Steps (ParserStep junk)
      (.start request, r.method ++ space :: (r.path ++ question :: rest))
      (r.method ++ [space] ++ (r.path ++ [question])) (Parser.at .key f, rest) := by
  obtain ⟨c, s, hmethod, hc⟩ := r.method_start
  obtain ⟨t, hpath⟩ := r.path_start
  have hspace : Without space s := (without_cons.mp (hmethod ▸ r.method_text)).2
  have htext : Without space t := (without_cons.mp (hpath ▸ r.path_text)).2
  have hquestion : question ∉ t := fun hm => r.path_question (hpath ▸ List.mem_cons_of_mem _ hm)
  obtain ⟨f₁, hfirst, hput⟩ := exists_of_bind hput
  obtain ⟨f₂, hsecond, hput⟩ := exists_of_bind hput
  cases hput
  rw [hmethod] at hfirst ⊢
  rw [hpath] at hsecond ⊢
  have hrun₁ := (@collects_method junk ample _ _ (space :: (slash :: t ++ question :: rest)) hc
    hspace).steps_token (by decide) (by decide) hfirst
    fun w temp => copyTemp_store (by decide) _ .pathStart false temp rfl
  have hrun₂ := (@collects_path junk ample _ (question :: rest) htext hquestion).steps_token
    (by decide) (by decide) hsecond
    fun w temp => copyTemp_store (by decide) _ .queryStart false temp rfl
  exact hrun₁.append hrun₂

/-- The run over pairs with their `&`. -/
theorem steps_open {f f' : Filled} (hps : ∀ p ∈ ps, IsPairText p)
    (hput : f.putAll (pairToks ps) = .ok f') (rest : List UInt8) :
    Steps (ParserStep junk) (Parser.at .key f, renderOpen ps ++ rest) (renderOpen ps)
      (Parser.at .key f', rest) := by
  induction ps generalizing f with
  | nil =>
      cases hput
      exact .nil
  | cons p ps ih =>
      obtain ⟨hp, hps⟩ := List.forall_mem_cons.mp hps
      have hput : f.putAll (⟨.key, p.key⟩ :: ⟨.value, p.value⟩ :: pairToks ps) = .ok f' := hput
      obtain ⟨f₁, hkey, hput⟩ := exists_of_bind hput
      obtain ⟨f₂, hvalue, hput⟩ := exists_of_bind hput
      have hrun₁ := (@collects_key junk ample _ _ (p.value ++ amp :: (renderOpen ps ++ rest)) hp.isKey
        (by decide : equals ≠ space)).steps_token (by decide) (by decide) hkey
        fun w temp => switch_equals f w temp (by simp)
      have hrun₂ := (@collects_value junk ample _ (amp :: (renderOpen ps ++ rest)) hp.value_text
        hp.value_amp).steps_token (by decide) (by decide) hvalue
        fun w temp => insertQuery_eq f₁ .queryStart false temp
      have hrun := (hrun₁.append hrun₂).append (ih hps hput)
      rw [renderOpen_cons]
      have hread : renderOpen (p :: ps)
          = p.key ++ [equals] ++ (p.value ++ [amp]) ++ renderOpen ps := by
        simp [renderOpen]
      rw [hread]
      exact hrun

theorem IsQuery.isText {q : List UInt8} (h : IsQuery q) : IsText q := fun h0 => (h 0 h0).1 rfl

/-- The beginning of a key has no space in it. -/
theorem isKey_of_isQuery {k : List UInt8} (hk : IsQuery k) (heq : equals ∉ k) : IsKey k :=
  ⟨⟨hk.isText, heq⟩, fun hm => (hk space (List.mem_of_mem_tail hm)).2.1 rfl⟩

/-- The method and the path have room. -/
theorem PlainRequest.exists_putAll_line (f : Filled) : ∃ f', f.putAll r.lineToks = .ok f' := by
  have hmethod : Tok.Fits ⟨.method, r.method⟩ := r.method_length.trans (show 4 ≤ 511 by decide)
  have hpath : Tok.Fits ⟨.path, r.path⟩ := r.path_length
  have hready : ∀ g : Filled, g.Ready .path := fun _ => trivial
  obtain ⟨f₁, h₁⟩ := Filled.exists_put (f := f) hmethod trivial
  obtain ⟨f₂, h₂⟩ := Filled.exists_put hpath (hready f₁)
  refine ⟨f₂, ?_⟩
  unfold PlainRequest.lineToks
  rw [Filled.putAll, h₁, ok_bind, Filled.putAll, h₂]
  rfl

/-- A query that ends in a key without `=` is refused in front of the space. -/
theorem refused_of_open {k behind : List UInt8} (hps : ∀ p ∈ ps, IsQueryPair p) (hk : IsQuery k)
    (heq : equals ∉ k) (hne : k ≠ []) (h0 : (0 : UInt8) ∈ r.rest behind)
    (hlen : (k ++ space :: cstr (r.rest behind)).length ≤ tempSize) :
    Refused junk request (r.withQuery (renderOpen ps ++ k) behind) (space :: r.rest behind) := by
  obtain ⟨f, hline⟩ := r.exists_putAll_line (Parser.start request).toFilled
  obtain ⟨key, hpairs⟩ := putAll_pairToks f hps
  generalize hf' : { f with queryTmp := key, request :=
    { f.request with query := insertAll f.request.query ps } } = f' at hpairs
  have hkey := isKey_of_isQuery hk heq
  obtain ⟨t, hrest⟩ := exists_eq_cstr_append h0
  generalize hs : cstr (r.rest behind) = s at hrest hlen
  have hstext : IsText s := hs ▸ isText_cstr _
  obtain ⟨k', c, rfl⟩ : ∃ k' c, k = k' ++ [c] := (List.eq_nil_or_concat' k).resolve_left hne
  have hklen : (k' ++ [c]).length ≤ tempSize := by
    rw [List.length_append] at hlen
    omega
  have hk'len : k'.length ≤ tempSize := by
    rw [List.length_append] at hklen
    omega
  -- to the last byte of the key, and over it
  have hcollects : Collects junk .key k' (c :: space :: r.rest behind) := collects_key_init hkey _
  obtain ⟨w, hrun⟩ := hcollects.steps hk'len f'
  have hc : c ≠ equals := Without.ne hkey.1.2
  have hc0 : c ≠ 0 := (hk c (by simp)).1
  have hround : Parser.round junk ⟨f', .queryStart, w, k'⟩ c (space :: r.rest behind)
      = .ok ⟨f', .invalid, true, k' ++ [c]⟩ := by
    rw [round_take (switch_key_bad hc f' w k' (r.rest behind)) rfl hk'len, pile_eq_ok hklen]
    rfl
  have hrun' : Steps (ParserStep junk) (Parser.at .key f', k' ++ c :: space :: r.rest behind)
      (k' ++ [c]) (⟨f', .invalid, true, k' ++ [c]⟩, space :: r.rest behind) :=
    hrun.snoc ⟨rfl, hc0, hround, by simp⟩
  have hsteps := ((r.steps_line hline _).append
    (steps_open (fun p hp => (hps p hp).isPairText) hpairs _)).append hrun'
  have hdata : r.method ++ space :: (r.path ++ question ::
      (renderOpen ps ++ (k' ++ c :: space :: r.rest behind)))
        = r.withQuery (renderOpen ps ++ (k' ++ [c])) behind := by
    simp [PlainRequest.withQuery]
  rw [hdata] at hsteps
  -- from there on everything piles up, to the NUL
  have hloop : reqParseLoop junk .start (space :: r.rest behind) ⟨f', .invalid, true, k' ++ [c]⟩
      = .ok ⟨false, ⟨f', .invalid, true, k' ++ [c] ++ space :: s⟩, 0 :: t⟩ := by
    have htake : reqParseLoop junk .start ((space :: s) ++ 0 :: t)
        ⟨f', .invalid, true, k' ++ [c]⟩ = _ :=
      reqParseLoop_take (isText_cons.mpr ⟨by decide, hstext⟩) (by simp) hklen (by
        intro a d b _ w' temp hw
        obtain rfl : w' = true := by simpa using hw
        rfl)
    rw [hrest, ← List.cons_append, htake, pile_eq_ok hlen, ok_bind, reqParseLoop_zero]
    rfl
  exact ⟨_, _, _, hsteps, rfl, (reqParseLoop_steps hsteps).trans hloop, rfl, rfl⟩

end

/-! ## The empty key -/

section
variable {junk : ℕ → PartJunk} (r : PlainRequest) {ps : List TextPair} {request : Request}

theorem IsToken.append {s t : List UInt8} (hs : IsToken s) (ht : IsToken t) : IsToken (s ++ t) := by
  refine ⟨isText_append.mpr ⟨hs.text, ht.text⟩, ?_, ?_⟩
  · intro hm
    exact (List.mem_append.mp hm).elim hs.not_space ht.not_space
  · intro hm
    exact (List.mem_append.mp hm).elim hs.not_equals ht.not_equals

/-- A space in front of a token is a key for the parser. -/
theorem IsToken.isKey_space {s : List UInt8} (h : IsToken s) : IsKey (space :: s) :=
  isKey_cons.mpr ⟨⟨by decide, by decide⟩, ⟨h.text, h.not_equals⟩, h.not_space⟩

/-- What the parser reads of a request line as a key: from the space on, to the colon of the
first header name or to the NUL. -/
theorem PlainRequest.headText_space {behind : List UInt8} (h0 : (0 : UInt8) ∈ behind)
    (hbehind : r.headers = [] → behind.head? = some 0) :
    ∃ e, HeadText .key (space :: r.rest behind) [] e ∧ ∀ p rest, e ≠ .closed p rest := by
  have hslash : IsToken [slash] := ⟨by decide, by decide, by decide⟩
  have hline : IsToken [cr, lf] := ⟨by decide, by decide, by decide⟩
  have hcolon : IsToken [colon] := ⟨by decide, by decide, by decide⟩
  have hfront := ((r.protocol_token.append hslash).append r.version_token).append hline
  cases hh : r.headers with
  | nil =>
      obtain ⟨t, rfl⟩ := List.head?_eq_some_iff.mp (hbehind hh)
      have hdata : space :: r.rest (0 :: t)
          = space :: (r.protocol ++ [slash] ++ r.version ++ [cr, lf] ++ [cr, lf]) ++ 0 :: t := by
        simp [PlainRequest.rest, hh, renderHeaders]
      rw [hdata]
      exact ⟨_, .keyCut (hfront.append hline).isKey_space, by simp⟩
  | cons p ps =>
      have hname : IsToken p.key := (r.headers_pairs p (by rw [hh]; exact List.mem_cons_self)).2
      have hkey := ((hfront.append hname).append hcolon).isKey_space
      have hmem :
          (0 : UInt8) ∈ p.value ++ cr :: lf :: (renderHeaders ps ++ cr :: lf :: behind) := by
        simp [h0]
      obtain ⟨t, ht⟩ := exists_eq_cstr_append hmem
      have hdata : space :: r.rest behind
          = space :: (r.protocol ++ [slash] ++ r.version ++ [cr, lf] ++ p.key ++ [colon]) ++
            space :: (cstr (p.value ++ cr :: lf :: (renderHeaders ps ++ cr :: lf :: behind)) ++
              0 :: t) := by
        rw [← ht]
        simp [PlainRequest.rest, hh, renderHeaders]
      rw [hdata]
      exact ⟨_, .keyBad hkey (List.cons_ne_nil _ _) (isText_cstr _), by simp⟩

/-- In front of the space the parser still reads a key. -/
theorem not_refused_of_space {behind : List UInt8} (hps : ∀ p ∈ ps, IsQueryPair p) :
    ¬Refused junk request (r.withQuery (renderOpen ps) behind) (space :: r.rest behind) := by
  rintro ⟨cs, m, halt, hsteps, hstate, -⟩
  obtain ⟨f, hline⟩ := r.exists_putAll_line (Parser.start request).toFilled
  obtain ⟨key, hpairs⟩ := putAll_pairToks f hps
  have hopen := @steps_open junk _ _ _ (fun p hp => (hps p hp).isPairText) hpairs
    (space :: r.rest behind)
  have hrun := (r.steps_line hline _).append hopen
  -- the two runs have read the same bytes
  have hread := (steps_sameLength hsteps).1
  have hread' := (steps_sameLength hrun).1
  have hcs := List.append_cancel_right (hread.symm.trans hread')
  rw [hcs] at hsteps
  have hunique : ∀ s c t u, ParserStep junk s c t → ParserStep junk s c u → t = u :=
    fun _ _ _ _ => parserStep_unique
  have hsame := hsteps.unique hunique hrun
  have hm : m = Parser.at .key _ := (Prod.ext_iff.mp hsame).1
  rw [hm] at hstate
  cases hstate

/-! ## What the protocol is in the end -/

theorem copyBody_text {request request' : Request} {p : List UInt8}
    (h : copyBody request p = .ok request') : request'.text = request.text := by
  unfold copyBody at h
  split at h
  · simp only at h
    split at h
    · split at h
      · cases h
      · split at h <;> cases h
        rfl
    · cases h
      rfl
  · cases h
    rfl

theorem scanBody_text {request request' : Request} (h : scanBody junk request = .ok request') :
    request'.text = request.text := by
  unfold scanBody at h
  split at h
  · split at h
    · obtain ⟨boundary, -, h⟩ := exists_of_bind h
      obtain ⟨body, -, h⟩ := exists_of_bind h
      obtain ⟨scan, -, h⟩ := exists_of_bind h
      cases h
      rfl
    · cases h
      rfl
  · cases h
    rfl

/-- Behind the head the character arrays are left alone. -/
theorem closeHead_text {p rest : List UInt8} {request request' : Request} {broke : Bool}
    (h : closeHead junk p rest request = .ok (broke, request')) :
    request'.text = request.text := by
  obtain ⟨temp, -, h⟩ := exists_of_bind h
  split at h
  · cases rest with
    | nil => cases h
    | cons c rest =>
        simp only [openBody] at h
        split at h
        · cases h
          rfl
        · obtain ⟨r, hr, h⟩ := exists_of_bind h
          obtain ⟨temp', -, h⟩ := exists_of_bind h
          cases h
          obtain ⟨r', hcopy, hscan⟩ := exists_of_bind hr
          exact (scanBody_text hscan).trans (copyBody_text hcopy)
  · cases h
    rfl

/-- Nothing but the method and the path is written before the protocol. -/
theorem PlainRequest.protocol_line {mem : RequestMem} {f f' : Filled}
    (hmem : mem.text.str protocolAt = [])
    (hline : (Parser.start (reqParseInit mem)).toFilled.putAll r.lineToks = .ok f)
    (hps : ∀ p ∈ ps, IsQueryPair p) (hpairs : f.putAll (pairToks ps) = .ok f') :
    f'.request.protocol = [] := by
  obtain ⟨f₁, hmethod, hline⟩ := exists_of_bind hline
  obtain ⟨f₂, hpath, hline⟩ := exists_of_bind hline
  cases hline
  obtain ⟨b₁, h₁, rfl⟩ := Filled.copy_eq_ok (Filled.put_eq_ok hmethod).2
  obtain ⟨b₂, h₂, rfl⟩ := Filled.copy_eq_ok (Filled.put_eq_ok hpath).2
  obtain ⟨key, hkey⟩ := putAll_pairToks _ hps
  rw [hkey] at hpairs
  cases hpairs
  have hm := r.method_length
  have hp := r.path_length
  have hmethodAt : methodAt = 0 := rfl
  have hpathAt : pathAt = 5 := rfl
  have hprotocolAt : protocolAt = 517 := rfl
  have hkeep₁ : b₁.str protocolAt = mem.text.str protocolAt :=
    Block.str_strcpy_above h₁ (by simp only; omega)
  have hkeep₂ : b₂.str protocolAt = b₁.str protocolAt :=
    Block.str_strcpy_above h₂ (by simp only; omega)
  exact (hkeep₂.trans hkeep₁).trans hmem

/-- Without a query the protocol is that of the request. -/
theorem PlainRequest.protocol_plain {request' : Request} {behind : List UInt8}
    (h : reqParseHttp junk request (r.plain behind) = .ok request') :
    request'.protocol = r.protocol := by
  rw [reqParseHttp_eq (r.headText_plain behind), Filled.putAll_append] at h
  obtain ⟨⟨broke, request₁⟩, hrun, rfl⟩ := exists_of_map h
  obtain ⟨f', hput, hfinish⟩ := exists_of_bind hrun
  obtain ⟨f, -, hput⟩ := exists_of_bind hput
  obtain ⟨f₁, hprotocol, hput⟩ := exists_of_bind hput
  obtain ⟨f₂, hversion, hput⟩ := exists_of_bind hput
  obtain ⟨b₁, h₁, rfl⟩ := Filled.copy_eq_ok (Filled.put_eq_ok hprotocol).2
  obtain ⟨b₂, h₂, rfl⟩ := Filled.copy_eq_ok (Filled.put_eq_ok hversion).2
  obtain ⟨key, hheaders⟩ := putAll_headerToks _ fun p hp => (r.headers_pairs p hp).1
  rw [hheaders] at hput
  cases hput
  rw [finish_closed, pile_eq_ok (Nat.zero_le _), ok_bind] at hfinish
  have htext := closeHead_text hfinish
  have hself : b₁.str protocolAt = r.protocol :=
    Block.str_strcpy_self r.protocol_token.text h₁
  have hlen := r.protocol_length
  show request₁.text.str protocolAt = r.protocol
  rw [htext]
  show b₂.str protocolAt = r.protocol
  have hversionAt : versionAt = protocolAt + 5 := rfl
  have hkeep : b₂.str protocolAt = b₁.str protocolAt :=
    Block.str_strcpy_below h₂ (by rw [hself]; omega)
  exact hkeep.trans hself

/-- A reading that does not close the head leaves what its tokens put. -/
theorem exists_of_not_closed {data : List UInt8} {toks : List Tok} {e : Ending}
    (h : HeadText .method data toks e) (he : ∀ p rest, e ≠ .closed p rest) {request' : Request}
    (hok : reqParseHttp junk request data = .ok request') :
    ∃ f, (Parser.start request).toFilled.putAll toks = .ok f ∧ request' = f.request := by
  obtain ⟨f, hput, -, hleaves⟩ := (reqParseHttp_iff h).mp hok
  refine ⟨f, hput, ?_⟩
  cases e with
  | closed p rest => exact absurd rfl (he p rest)
  | cut s | bad s => exact hleaves

/-- The tokens of a reading fit if the parse goes through. -/
theorem fits_of_ok {data : List UInt8} {toks : List Tok} {e : Ending}
    (h : HeadText .method data toks e) {request' : Request}
    (hok : reqParseHttp junk request data = .ok request') : ∀ t ∈ toks, t.Fits := by
  obtain ⟨f, hput, -, -⟩ := (reqParseHttp_iff h).mp hok
  exact Filled.fits_of_putAll hput

end

/-! ## The query is kept apart -/

/-- The query of `r` is kept apart, whatever `malloc` left in the request: it is refused, or
the rest of the request is what it is without it. -/
def QueryKept (junk : ℕ → PartJunk) (r : PlainRequest) (q behind : List UInt8) : Prop :=
  ∀ mem : RequestMem,
    Refused junk (reqParseInit mem) (r.withQuery q behind) (space :: r.rest behind) ∨
    ∃ a b, reqParseHttp junk (reqParseInit mem) (r.plain behind) = .ok a ∧
      reqParseHttp junk (reqParseInit mem) (r.withQuery q behind) = .ok b ∧ SameRequest a b

/-- The query ends in a value, or else in a key that is not empty, and that has room in `temp`
with all that follows. -/
def QueryEnds (q rest : List UInt8) : Prop :=
  ∃ ps : List TextPair, (∀ p ∈ ps, IsQueryPair p) ∧
    ((∃ p, IsQueryPair p ∧ q = renderOpen ps ++ (p.key ++ equals :: p.value)) ∨
      ∃ k, k ≠ [] ∧ equals ∉ k ∧ q = renderOpen ps ++ k ∧
        (k ++ space :: cstr rest).length ≤ tempSize)

section
variable {junk : ℕ → PartJunk} {r : PlainRequest} {q behind : List UInt8}

theorem PlainRequest.zero_mem_rest (h0 : (0 : UInt8) ∈ behind) :
    (0 : UInt8) ∈ r.rest behind := by
  simp [PlainRequest.rest, h0]

theorem queryEnds_of_kept (hq : IsQuery q) (h0 : (0 : UInt8) ∈ behind)
    (hbehind : r.headers = [] → behind.head? = some 0) (h : QueryKept junk r q behind) :
    QueryEnds q (r.rest behind) := by
  have hkept := h .zero
  -- either way the parse with the query goes through
  obtain ⟨b, hb⟩ : ∃ b, reqParseHttp junk (reqParseInit .zero) (r.withQuery q behind) = .ok b := by
    rcases hkept with ⟨_, _, halt, -, -, hloop, -, -⟩ | ⟨_, b, -, hb, -⟩
    · exact ⟨halt.parser.request, by rw [reqParseHttp, hloop, ok_map]⟩
    · exact ⟨b, hb⟩
  obtain ⟨ps, hps, ⟨k, hk, heq, rfl⟩ | ⟨p, hp, rfl⟩⟩ := exists_pairs hq
  swap
  · -- a pair ends the query
    have hfits := fits_of_ok (r.headText_pairs hps hp behind) hb
    have hall : ∀ x ∈ ps ++ [p], IsQueryPair x := isQueryPair_of_fits
      (List.forall_mem_append.mpr ⟨hps, by simpa using hp⟩)
      fun t ht => hfits t (List.mem_append_right _ (List.mem_append_left _ ht))
    exact ⟨ps, fun x hx => hall x (List.mem_append_left _ hx),
      Or.inl ⟨p, hall p (by simp), rfl⟩⟩
  obtain ⟨t, hrest⟩ := exists_eq_cstr_append (r.zero_mem_rest h0)
  by_cases hne : k = []
  · -- the key would begin with the space
    subst hne
    rw [List.append_nil] at hb hkept
    obtain ⟨e, hspace, he⟩ := r.headText_space h0 hbehind
    have hread : HeadText .method (r.withQuery (renderOpen ps) behind)
        (r.lineToks ++ (pairToks ps ++ [])) e := r.headText_question (headText_open hps hspace)
    rw [List.append_nil] at hread
    have hall : ∀ x ∈ ps, IsQueryPair x := isQueryPair_of_fits hps
      fun t ht => fits_of_ok hread hb t (List.mem_append_right _ ht)
    obtain ⟨f, hput, rfl⟩ := exists_of_not_closed hread he hb
    rw [Filled.putAll_append] at hput
    obtain ⟨f₁, hline, hpairs⟩ := exists_of_bind hput
    have hnone := r.protocol_line (Block.str_zero _) hline hall hpairs
    rcases hkept with hrefused | ⟨a, b, ha, hb', hsame⟩
    · exact absurd hrefused (not_refused_of_space r hall)
    · rw [hb] at hb'
      cases hb'
      have hprotocol := hsame.protocol
      rw [hnone, r.protocol_plain ha] at hprotocol
      exact absurd hprotocol.symm r.protocol_some
  · -- a key without `=` ends the query
    have hbad : HeadText .key (k ++ space :: (cstr (r.rest behind) ++ 0 :: t)) []
        (.bad (k ++ space :: cstr (r.rest behind))) :=
      .keyBad (isKey_of_isQuery hk heq) hne (isText_cstr _)
    rw [← hrest] at hbad
    have hread : HeadText .method (r.withQuery (renderOpen ps ++ k) behind)
        (r.lineToks ++ (pairToks ps ++ [])) (.bad (k ++ space :: cstr (r.rest behind))) := by
      rw [PlainRequest.withQuery, List.append_assoc]
      exact r.headText_question (headText_open hps hbad)
    have hall : ∀ x ∈ ps, IsQueryPair x := isQueryPair_of_fits hps
      fun t ht => fits_of_ok hread hb t (List.mem_append_right _ (List.mem_append_left _ ht))
    obtain ⟨f, -, hend, -⟩ := (reqParseHttp_iff hread).mp hb
    exact ⟨ps, hall, Or.inr ⟨k, hne, heq, rfl, hend⟩⟩

/-- **A query is kept apart exactly if it ends in a value, or in the beginning of a key.**  A
query that is empty, or whose last byte is the `&` behind a pair, is not: the parser takes the
space behind it for a key. -/
theorem queryKept_iff (junk : ℕ → PartJunk) (r : PlainRequest) {q behind : List UInt8}
    (hq : IsQuery q) (h0 : (0 : UInt8) ∈ behind)
    (hbehind : r.headers = [] → behind.head? = some 0)
    (hplain : ∀ mem, ∃ request, reqParseHttp junk (reqParseInit mem) (r.plain behind)
      = .ok request) : QueryKept junk r q behind ↔ QueryEnds q (r.rest behind) := by
  constructor
  · exact queryEnds_of_kept hq h0 hbehind
  · rintro ⟨ps, hps, ⟨p, hp, rfl⟩ | ⟨k, hne, heq, rfl, hlen⟩⟩ mem
    · obtain ⟨a, ha⟩ := hplain mem
      obtain ⟨x, hx⟩ := @reqParseHttp_withQuery junk r _ _
        (List.forall_mem_append.mpr ⟨hps, by simpa using hp⟩) (reqParseInit mem) behind
      rw [ha, ok_map] at hx
      exact Or.inr ⟨a, _, ha, hx, sameRequest_withQuery a x⟩
    · have hk : IsQuery k := fun c hc => hq c (List.mem_append_right _ hc)
      exact Or.inl (refused_of_open r hps hk heq hne (r.zero_mem_rest h0) hlen)

/-- `GET /a HTTP/1.1` with one header. -/
def smallGet : PlainRequest where
  method := bytes "GET"
  path := bytes "/a"
  protocol := bytes "HTTP"
  version := bytes "1.1"
  headers := [⟨bytes "Host", bytes "x"⟩]
  method_start := ⟨71, bytes "ET", by decide, Or.inl rfl⟩
  method_text := ⟨by decide, by decide⟩
  method_length := by decide
  path_start := smallPost.path_start
  path_text := smallPost.path_text
  path_question := smallPost.path_question
  path_length := smallPost.path_length
  protocol_some := by decide
  protocol_token := ⟨by decide, by decide, by decide⟩
  protocol_slash := by decide
  protocol_length := smallPost.protocol_length
  version_token := ⟨by decide, by decide, by decide⟩
  version_cr := by decide
  version_length := smallPost.version_length
  headers_pairs := by
    intro p hp
    rw [List.mem_singleton.mp hp]
    exact ⟨⟨⟨72, bytes "ost", by decide, by decide⟩, ⟨by decide, by decide⟩, by decide, by decide,
      ⟨by decide, by decide⟩, by decide⟩, by decide, by decide, by decide⟩

/-- The small GET is parsed. -/
theorem exists_smallGet (junk : ℕ → PartJunk) (mem : RequestMem) :
    ∃ request, reqParseHttp junk (reqParseInit mem) (smallGet.plain [0]) = .ok request := by
  have hread := smallGet.headText_plain [0]
  have hwithin : ∀ t ∈ smallGet.lineToks ++ smallGet.restToks, t.Within := by decide
  obtain ⟨f, hput⟩ : ∃ f, (Parser.start (reqParseInit mem)).toFilled.putAll _ = .ok f :=
    hread.exists_putAll trivial fun t ht => (hwithin t ht).fits
  exact ⟨_, (reqParseHttp_iff hread).mpr ⟨f, hput, Nat.zero_le _, rfl⟩⟩

/-- `GET /a?k=v HTTP/1.1` is `GET /a HTTP/1.1` but for its query. -/
theorem queryKept_smallGet :
    QueryKept (fun _ => .zero) smallGet (bytes "k=v") [0] := by
  have hq : ∀ c ∈ bytes "k=v", c ≠ 0 ∧ c ≠ space ∧ c ≠ cr ∧ c ≠ lf := by decide
  have hpair : IsQueryPair ⟨bytes "k", bytes "v"⟩ :=
    ⟨by decide, by decide, by decide, by decide, ⟨by decide, by decide⟩, by decide, by decide⟩
  exact (queryKept_iff _ smallGet hq (by decide) (by decide) (exists_smallGet _)).mpr
    ⟨[], by simp, Or.inl ⟨_, hpair, rfl⟩⟩

/-- `GET /a? HTTP/1.1`: the protocol and the version are taken for a key of the query. -/
theorem not_queryKept_empty :
    ¬∀ (junk : ℕ → PartJunk) (r : PlainRequest) (q behind : List UInt8), IsQuery q →
      (0 : UInt8) ∈ behind → (r.headers = [] → behind.head? = some 0) →
      (∀ mem, ∃ request, reqParseHttp junk (reqParseInit mem) (r.plain behind) = .ok request) →
      QueryKept junk r q behind := by
  intro h
  have hq : IsQuery [] := by simp [IsQuery]
  have hkept := h (fun _ => .zero) smallGet [] [0] hq (by decide) (by decide) (exists_smallGet _)
  obtain ⟨ps, -, ⟨p, -, hp⟩ | ⟨k, hne, -, hk, -⟩⟩ :=
    queryEnds_of_kept hq (by decide) (by decide) hkept
  · simp at hp
  · exact hne (List.append_eq_nil_iff.mp hk.symm).2

end
