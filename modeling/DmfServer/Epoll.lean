/-
# The event loop

`epoll_handle` has one buffer for all connections, `res_str`: `recv` writes to its front, and
`req_parse_http` reads it up to a NUL or up to the end of a request, not up to what was
received.  What it has made of the text then goes to `router_handle`, whatever the state is
that the parse was left in.

So two histories of the buffer can make two requests of the same bytes, unless the parse
comes to its end inside of them (`isolated_iff`); and a text that is no request is dispatched
like one if its path leads somewhere (`onlyAccepted_iff`).
-/
import DmfServer.RequestLines
import DmfServer.Router

open CMem Ascii

/-- `RECEIVE_MAX_BYTES`. -/
def receiveMaxBytes : ℕ := 1024 * 512

/-- What a call of `recv` has written to `res_str`: nothing, if the client has closed. -/
structure Received where
  bytes : List UInt8
  length_le : bytes.length ≤ receiveMaxBytes

/-- `res_str` after a call of `recv`. -/
def recvInto (resStr : List UInt8) (b : Received) : List UInt8 :=
  b.bytes ++ resStr.drop b.bytes.length

/-- `res_str` after these calls: it is zero where it is declared. -/
def resStrAfter (history : List Received) : List UInt8 :=
  history.foldl recvInto (List.replicate receiveMaxBytes 0)

section
variable {V : Type}

/-- `epoll_handle` on what was received: the request, and what `router_handle` finds for it. -/
def epollServe (junk : ℕ → PartJunk) (g : CtlFunMap V) (files : FileList) (mem : RequestMem)
    (resStr : List UInt8) (b : Received) : Except Fault (Request × Except Fault (Target V)) :=
  (reqParseHttp junk (reqParseInit mem) (recvInto resStr b)).map fun request =>
    (request, routerHandle g files request)

/-- `req_parse_http` has accepted the head: it enters `PARSE_BODY_START`. -/
def HeadAccepted (junk : ℕ → PartJunk) (mem : RequestMem) (data : List UInt8) : Prop :=
  ∃ m rest, reqParseLoop junk .bodyStart data (.start (reqParseInit mem)) = .ok ⟨true, m, rest⟩

/-- A view or a static file is run only for a request whose head was accepted. -/
def OnlyAccepted (junk : ℕ → PartJunk) (g : CtlFunMap V) (files : FileList) (mem : RequestMem)
    (resStr : List UInt8) (b : Received) : Prop :=
  ∀ request t, epollServe junk g files mem resStr b = .ok (request, .ok t) → t ≠ .notfound →
    HeadAccepted junk mem (recvInto resStr b)

/-- What is parsed and dispatched is the same after every history of the buffer. -/
def Isolated (junk : ℕ → PartJunk) (g : CtlFunMap V) (files : FileList) (b : Received) : Prop :=
  ∀ mem, ∃ out, ∀ history, epollServe junk g files mem (resStrAfter history) b = .ok out

/-! ## What a text is dispatched to -/

/-- The path leads to a view, or else to a file. -/
def Leads (g : CtlFunMap V) (files : FileList) (path : List UInt8) : Prop :=
  (∃ f, searchKeys path g.keys.toList g.cf.toList = .ok (some f)) ∨
    searchKeys path g.keys.toList g.cf.toList = .ok none ∧
      ∃ f, searchFiles files path (List.range (files.num + 1)) = .ok (some f)

/-- `router_handle` runs a view or a file exactly if the path leads to one. -/
theorem leads_iff {g : CtlFunMap V} {files : FileList} {req : Request} :
    (∃ t, routerHandle g files req = .ok t ∧ t ≠ .notfound) ↔ Leads g files req.path := by
  unfold routerHandle Leads
  rcases searchKeys req.path g.keys.toList g.cf.toList with e | _ | f
  · constructor
    · rintro ⟨t, hrun, -⟩
      cases hrun
    · rintro (⟨f, hf⟩ | ⟨hnone, -⟩)
      · cases hf
      · cases hnone
  · simp only [ok_bind]
    rcases searchFiles files req.path (List.range (files.num + 1)) with e | _ | f
    · constructor
      · rintro ⟨t, hrun, -⟩
        cases hrun
      · rintro (⟨f, hf⟩ | ⟨-, f, hf⟩)
        · cases hf
        · cases hf
    · constructor
      · rintro ⟨t, hrun, hfound⟩
        cases hrun
        exact absurd rfl hfound
      · rintro (⟨f, hf⟩ | ⟨-, f, hf⟩)
        · cases hf
        · cases hf
    · constructor
      · intro _
        exact Or.inr ⟨trivial, f, rfl⟩
      · intro _
        exact ⟨.static f, rfl, by simp⟩
  · constructor
    · intro _
      exact Or.inl ⟨f, rfl⟩
    · intro _
      exact ⟨.view f, rfl, by simp⟩

/-- The request and its dispatch are those of a parse. -/
theorem epollServe_iff {junk : ℕ → PartJunk} {g : CtlFunMap V} {files : FileList}
    {mem : RequestMem} {resStr : List UInt8} {b : Received} {request : Request}
    {t : Except Fault (Target V)} :
    epollServe junk g files mem resStr b = .ok (request, t) ↔
      reqParseHttp junk (reqParseInit mem) (recvInto resStr b) = .ok request ∧
        routerHandle g files request = t := by
  unfold epollServe
  constructor
  · intro hrun
    obtain ⟨request', hparse, heq⟩ := exists_of_map hrun
    cases heq
    exact ⟨hparse, rfl⟩
  · rintro ⟨hparse, rfl⟩
    rw [hparse]
    rfl

/-- A head that is not closed leaves the request as its tokens have filled it. -/
theorem Ending.leaves_of_not_closed {junk : ℕ → PartJunk} {toks : List Tok} {e : Ending}
    (he : ¬ ∃ p rest, e = .closed p rest) (request : Request) :
    e.Leaves junk toks request request := by
  cases e with
  | closed p rest => exact absurd ⟨p, rest, rfl⟩ he
  | cut s => rfl
  | bad s => rfl

/-- A text that fits and whose path leads somewhere has to close its head. -/
theorem OnlyAccepted.closed {junk : ℕ → PartJunk} {g : CtlFunMap V} {files : FileList}
    {mem : RequestMem} {resStr : List UInt8} {b : Received}
    (h : OnlyAccepted junk g files mem resStr b) {toks : List Tok} {e : Ending}
    (hread : HeadText .method (recvInto resStr b) toks e) (hfits : ∀ t ∈ toks, t.Fits)
    (hend : e.Fits) (hleads : Leads g files (pathSeen mem.text toks)) :
    ∃ p rest, e = .closed p rest := by
  by_contra hclosed
  obtain ⟨f, hput⟩ : ∃ f, (Parser.start (reqParseInit mem)).toFilled.putAll toks = .ok f :=
    hread.exists_putAll trivial hfits
  have hparse : reqParseHttp junk (reqParseInit mem) (recvInto resStr b) = .ok f.request :=
    (reqParseHttp_iff hread).mpr ⟨f, hput, hend, Ending.leaves_of_not_closed hclosed _⟩
  have hpath : f.request.path = pathSeen mem.text toks := hread.path_eq hput
  rw [← hpath] at hleads
  obtain ⟨t, hroute, hfound⟩ := leads_iff.mpr hleads
  obtain ⟨m, rest, hrun⟩ := h f.request t (epollServe_iff.mpr ⟨hparse, hroute⟩) hfound
  obtain ⟨⟨p, he⟩, -⟩ := hread.closed_of_enters hrun
  exact hclosed ⟨p, rest, he⟩

/-- For every content of the buffer and everything received: a view or a file is run only for
an accepted head, exactly if every text that fits closes its head or has a path that leads
nowhere. -/
theorem onlyAccepted_iff (junk : ℕ → PartJunk) (g : CtlFunMap V) (files : FileList)
    (mem : RequestMem) (resStr : List UInt8) (b : Received) :
    OnlyAccepted junk g files mem resStr b ↔
      ∀ toks e, HeadText .method (recvInto resStr b) toks e → (∀ t ∈ toks, t.Fits) → e.Fits →
        (∃ p rest, e = .closed p rest) ∨ ¬ Leads g files (pathSeen mem.text toks) := by
  constructor
  · intro h toks e hread hfits hend
    by_cases hleads : Leads g files (pathSeen mem.text toks)
    · exact Or.inl (h.closed hread hfits hend hleads)
    · exact Or.inr hleads
  · intro h request t hserve hfound
    obtain ⟨hparse, hroute⟩ := epollServe_iff.mp hserve
    obtain ⟨toks, e, hread⟩ := exists_headText_of_ok hparse
    obtain ⟨f, hput, hend, hleaves⟩ := (reqParseHttp_iff hread).mp hparse
    have hfits := Filled.fits_of_putAll hput
    by_cases hclosed : ∃ p rest, e = .closed p rest
    · obtain ⟨p, rest, rfl⟩ := hclosed
      have hp : p.length ≤ tempSize := (length_le_length_grow p [lf]).trans hend
      obtain ⟨m, hrun⟩ : ∃ m, reqParseLoop junk .bodyStart (recvInto resStr b)
          (.start (reqParseInit mem)) = .ok ⟨true, m, rest⟩ := hread.enters hfits hp
      exact ⟨m, rest, hrun⟩
    · -- such a request is the one its tokens have filled, and it is not dispatched
      have hnowhere := (h toks e hread hfits hend).resolve_left hclosed
      have hsame : request = f.request := by
        cases e with
        | closed p rest => exact absurd ⟨p, rest, rfl⟩ hclosed
        | cut s => exact hleaves
        | bad s => exact hleaves
      have hpath : f.request.path = pathSeen mem.text toks := hread.path_eq hput
      rw [← hpath, ← hsame] at hnowhere
      exact absurd (leads_iff.mp ⟨t, hroute, hfound⟩) hnowhere

end

/-- A request that ends in its protocol. -/
def cutCart : Received := ⟨bytes "GET /shop/cart HTTP", by decide⟩

/-- It is read up to there, the buffer being zero behind it. -/
theorem headText_cutCart : HeadText .method (recvInto (resStrAfter []) cutCart)
    [⟨.method, bytes "GET"⟩, ⟨.path, bytes "/shop/cart"⟩] (.cut (bytes "HTTP")) := by
  obtain ⟨k, hk⟩ : ∃ k, receiveMaxBytes - cutCart.bytes.length = k + 1 :=
    Nat.exists_eq_add_one_of_ne_zero (by decide)
  have hdata : recvInto (resStrAfter []) cutCart =
      bytes "GET /shop/cart HTTP" ++ 0 :: List.replicate k 0 := by
    unfold recvInto resStrAfter
    rw [List.foldl_nil, List.drop_replicate, hk, List.replicate_succ]
    rfl
  rw [hdata]
  have hprotocol : HeadText .protocol (bytes "HTTP" ++ 0 :: List.replicate k 0) [] _ :=
    .protocolCut ⟨by decide, by decide⟩
  have hpath := HeadText.pathSpace (s := bytes "shop/cart") ⟨by decide, by decide⟩ (by decide)
    hprotocol
  exact .method (s := bytes "ET") (Or.inl rfl) ⟨by decide, by decide⟩ hpath

/-- The second view of the shop is run for it. -/
theorem not_onlyAccepted_cutCart :
    ¬∀ (g : CtlFunMap ℕ) (files : FileList) (mem : RequestMem) (history : List Received)
      (b : Received), OnlyAccepted (fun _ => .zero) g files mem (resStrAfter history) b := by
  intro h
  obtain ⟨g, -, hholds, -⟩ := routerAddApps_eq [shopApp] holds_routerInit rfl (by decide)
  have hleads : Leads g ⟨[], Nat.zero_le _⟩ cartRequest.path :=
    leads_iff.mp ⟨.view 2, (hholds.routerHandle_eq (by decide) (by decide) (by decide)).trans
      (by decide), by simp⟩
  have hpath : cartRequest.path = bytes "/shop/cart" := by decide
  rw [hpath] at hleads
  have hfits : ∀ t ∈ [(⟨.method, bytes "GET"⟩ : Tok), ⟨.path, bytes "/shop/cart"⟩], t.Fits := by
    unfold Tok.Fits
    decide
  have hend : (bytes "HTTP").length ≤ tempSize := by decide
  obtain ⟨p, rest, he⟩ :=
    (h g _ RequestMem.zero [] cutCart).closed headText_cutCart hfits hend hleads
  cases he

/-! ## The buffer -/

theorem length_recvInto {resStr : List UInt8} (h : resStr.length = receiveMaxBytes)
    (b : Received) : (recvInto resStr b).length = receiveMaxBytes := by
  have hle := b.length_le
  rw [recvInto, List.length_append, List.length_drop, h]
  omega

theorem length_resStrAfter (history : List Received) :
    (resStrAfter history).length = receiveMaxBytes := by
  induction history using List.reverseRecOn with
  | nil => rw [resStrAfter, List.foldl_nil, List.length_replicate]
  | append_singleton history b ih =>
      rw [resStrAfter, List.foldl_append]
      exact length_recvInto ih b

/-- How many bytes of the buffer are old. -/
def Received.stale (b : Received) : ℕ := receiveMaxBytes - b.bytes.length

/-- Whatever stands behind the received bytes was received before. -/
theorem exists_history (b : Received) {t : List UInt8} (ht : t.length = b.stale) :
    ∃ history, recvInto (resStrAfter history) b = b.bytes ++ t := by
  have hle := b.length_le
  have hlen : (List.replicate b.bytes.length 0 ++ t).length = receiveMaxBytes := by
    rw [List.length_append, List.length_replicate, ht, Received.stale]
    omega
  generalize hs : List.replicate b.bytes.length 0 ++ t = s at hlen
  refine ⟨[⟨s, hlen.le⟩], ?_⟩
  have hfull : resStrAfter [⟨s, hlen.le⟩] = s := by
    show s ++ (List.replicate receiveMaxBytes 0).drop s.length = s
    rw [hlen, List.drop_replicate, Nat.sub_self, List.replicate_zero, List.append_nil]
  rw [hfull, recvInto, ← hs, List.drop_left' List.length_replicate]

section
variable {V : Type} {junk : ℕ → PartJunk} {g : CtlFunMap V} {files : FileList} {b : Received}

/-- Nothing of the buffer shows exactly if one request is parsed, whatever stands behind the
received bytes. -/
theorem isolated_iff_forall : Isolated junk g files b ↔ ∀ mem, ∃ request,
    ∀ t : List UInt8, t.length = b.stale →
      reqParseHttp junk (reqParseInit mem) (b.bytes ++ t) = .ok request := by
  constructor
  · intro h mem
    obtain ⟨⟨request, route⟩, hall⟩ := h mem
    refine ⟨request, fun t ht => ?_⟩
    obtain ⟨history, hdata⟩ := exists_history b ht
    rw [← hdata]
    exact (epollServe_iff.mp (hall history)).1
  · intro h mem
    obtain ⟨request, hall⟩ := h mem
    refine ⟨(request, routerHandle g files request), fun history => ?_⟩
    refine epollServe_iff.mpr ⟨hall _ ?_, rfl⟩
    rw [List.length_drop, length_resStrAfter, Received.stale]

end

/-! ## Bodies that were received -/

/-- What stands behind the head of a POST decides about its body, whatever stands behind
that: it begins with a NUL, or there is no body to copy, or it is all there. -/
def BodyReceived (headers : List TextPair) (p r : List UInt8) (stale : ℕ) : Prop :=
  (∃ r', r = 0 :: r') ∨
  (0 < r.length + stale ∧ (grow p [lf, 0]).length ≤ tempSize ∧ copiedLength headers = none ∧
    ¬ IsMultipart headers) ∨
  (r ≠ [] ∧ (grow p [lf, 0]).length ≤ tempSize ∧ ∃ len : ℕ,
    copiedLength headers = some (len : ℤ) ∧ len ≤ r.length ∧
      (IsMultipart headers → ∃ e, FormBody headers (r.take len ++ [0]) e))

/-- The length of what piles up does not depend on the bytes. -/
theorem length_grow (p : List UInt8) (c d : UInt8) :
    (grow p [lf, c]).length = (grow p [lf, d]).length := by
  unfold grow
  split
  · rfl
  · simp only [List.length_append, List.length_cons]

section
variable {junk : ℕ → PartJunk} {mem : RequestMem} {toks : List Tok} {f request : Request}

/-- Without a body to copy, and no form, the request stays as it is. -/
theorem FilledFrom.parseBody_none (h : FilledFrom mem toks f)
    (hnone : copiedLength (headersOf toks) = none) (hplain : ¬ IsMultipart (headersOf toks))
    (q : List UInt8) : parseBody junk f q = .ok f := by
  rw [parseBody, h.copyBody_iff.mpr (Or.inl ⟨hnone, rfl⟩), ok_bind]
  exact (scanBody_iff h.params h.multi).mpr (Or.inl ⟨hplain, rfl⟩)

/-- Where the body is not copied, a record without one is parsed only if it is no form. -/
theorem FilledFrom.plain_of_parseBody (h : FilledFrom mem toks f) (hnull : mem.body = .null)
    (hnone : copiedLength (headersOf toks) = none) {q : List UInt8}
    (hrun : parseBody junk f q = .ok request) : ¬ IsMultipart (headersOf toks) := by
  obtain ⟨request₁, hcopy, hscan⟩ := exists_of_bind hrun
  rcases h.copyBody_iff.mp hcopy with ⟨-, rfl⟩ | ⟨len, hsome, -⟩
  · rcases (scanBody_iff h.params h.multi).mp hscan with ⟨hplain, -⟩ | ⟨-, body, s, hbody, -⟩
    · exact hplain
    · rw [h.body, hnull] at hbody
      cases hbody
  · rw [hnone] at hsome
    cases hsome

/-- A body that is copied is what the request points to. -/
theorem FilledFrom.body_eq (h : FilledFrom mem toks f) {len : ℕ}
    (hlen : copiedLength (headersOf toks) = some (len : ℤ)) {q : List UInt8}
    (hrun : parseBody junk f q = .ok request) : request.body = .obj (q.take len ++ [0]) := by
  obtain ⟨-, ⟨-, rfl⟩ | ⟨-, s, -, rfl⟩⟩ := (h.parseBody_iff hlen).mp hrun
  · rfl
  · rfl

/-- A body that was received is parsed, whatever stands behind it. -/
theorem BodyReceived.exists_openBody {p r : List UInt8} {stale : ℕ}
    (h : BodyReceived (headersOf toks) p r stale) (htoks : ∀ t ∈ toks, IsText t.text)
    (hf : FilledFrom mem toks f) :
    ∃ request, ∀ t : List UInt8, t.length = stale →
      ∃ broke, openBody junk p (r ++ t) f = .ok (broke, request) := by
  have hzero : ∀ r', ∃ broke, openBody junk p (0 :: r') f = .ok (broke, f) := by
    intro r'
    exact ⟨false, by rw [openBody, if_pos rfl]⟩
  rcases h with ⟨r', rfl⟩ | ⟨hroom, hgrow, hnone, hplain⟩ | ⟨hr, hgrow, len, hlen, hle, hform⟩
  · exact ⟨f, fun t _ => hzero (r' ++ t)⟩
  · -- nothing is copied: the request stays as it is, whatever the next byte is
    refine ⟨f, fun t ht => ?_⟩
    obtain ⟨c, q, hq⟩ : ∃ c q, r ++ t = c :: q := by
      refine List.exists_cons_of_ne_nil (List.ne_nil_of_length_pos ?_)
      rw [List.length_append]
      omega
    rw [hq]
    by_cases hc : c = 0
    · rw [hc]
      exact hzero q
    · rw [length_grow p 0 c] at hgrow
      exact (openBody_cons_iff hc).mpr ⟨hf.parseBody_none hnone hplain _, hgrow⟩
  · obtain ⟨c, q, rfl⟩ := List.exists_cons_of_ne_nil hr
    by_cases hc : c = 0
    · rw [hc]
      exact ⟨f, fun t _ => hzero (q ++ t)⟩
    · rw [length_grow p 0 c] at hgrow
      -- the body that is copied is the one that was received
      have hparse : ∀ request : Request, ((¬IsMultipart (headersOf toks) ∧ request =
          { f with bodyLength := len, body := .obj ((c :: q).take len ++ [0]) }) ∨
          (IsMultipart (headersOf toks) ∧ ∃ s,
            Scans junk (headersOf toks) ((c :: q).take len ++ [0]) s ∧ request =
            { f with
              bodyLength := len, body := .obj ((c :: q).take len ++ [0])
              multi := s.multi, multiPartNum := s.mulNum })) →
          ∀ t, ∃ broke, openBody junk p (c :: q ++ t) f = .ok (broke, request) := by
        intro request hcase t
        have hrun : parseBody junk f (c :: q ++ t) = .ok request := by
          rw [hf.parseBody_iff hlen, List.take_append_of_le_length hle]
          refine ⟨?_, hcase⟩
          rw [List.length_append]
          omega
        exact (openBody_cons_iff hc).mpr ⟨hrun, hgrow⟩
      by_cases hmulti : IsMultipart (headersOf toks)
      · obtain ⟨s, hs⟩ := (exists_scans_iff htoks).mpr (hform hmulti)
        exact ⟨_, fun t _ => hparse _ (Or.inr ⟨hmulti, s, hs, rfl⟩) t⟩
      · exact ⟨_, fun t _ => hparse _ (Or.inl ⟨hmulti, rfl⟩) t⟩

/-- Where a record without a body is parsed to itself, nothing is copied. -/
theorem FilledFrom.none_of_parseBody (hf : FilledFrom mem toks f) (hnull : mem.body = .null)
    {q : List UInt8} (hrun : parseBody junk f q = .ok f) :
    copiedLength (headersOf toks) = none := by
  obtain ⟨request₁, hcopy, -⟩ := exists_of_bind hrun
  rcases hf.copyBody_iff.mp hcopy with ⟨hnone, -⟩ | ⟨len, hlen, -⟩
  · exact hnone
  · have heq := hf.body_eq hlen hrun
    rw [hf.body, hnull] at heq
    cases heq

/-- A body that is the same in front of zeros and in front of ones was received. -/
theorem le_length_of_take_eq {r : List UInt8} {stale len : ℕ} (hle : len ≤ r.length + stale)
    (h : (r ++ List.replicate stale (0 : UInt8)).take len =
      (r ++ List.replicate stale 1).take len) : len ≤ r.length := by
  by_contra hlong
  -- the byte behind what was received would be both
  have hat : ∀ x : UInt8, (r ++ List.replicate stale x)[r.length]? = some x := by
    intro x
    rw [List.getElem?_append_right le_rfl, Nat.sub_self, List.getElem?_replicate,
      if_pos (by omega)]
  have hget := congrArg (fun l => l[r.length]?) h
  simp only [List.getElem?_take_of_lt (Nat.lt_of_not_le hlong), hat] at hget
  exact absurd (Option.some.inj hget) (by decide)

/-- A body behind which old bytes do not show: its first byte is old, or it is received. -/
theorem FilledFrom.bodyReceived {p r : List UInt8} {stale : ℕ} (hf : FilledFrom mem toks f)
    (htoks : ∀ t ∈ toks, IsText t.text) (hnull : mem.body = .null)
    (h : ∀ t : List UInt8, t.length = stale →
      ∃ broke, openBody junk p (r ++ t) f = .ok (broke, request)) :
    BodyReceived (headersOf toks) p r stale := by
  rcases r with _ | ⟨c, q⟩
  · -- the first byte of the body is an old one, and a NUL there leaves the request as it is
    right; left
    rcases stale with _ | stale
    · obtain ⟨broke, hrun⟩ := h [] rfl
      cases hrun
    obtain ⟨broke, hrun⟩ := h (0 :: List.replicate stale 0) (by simp)
    rw [List.nil_append, openBody, if_pos rfl] at hrun
    cases hrun
    obtain ⟨hparse, hgrow⟩ := (openBody_cons_iff (by decide)).mp
      (h (1 :: List.replicate stale 1) (by simp))
    rw [length_grow p 1 0] at hgrow
    have hnone := hf.none_of_parseBody hnull hparse
    exact ⟨by simp, hgrow, hnone, hf.plain_of_parseBody hnull hnone hparse⟩
  · by_cases hc : c = 0
    · exact Or.inl ⟨q, by rw [hc]⟩
    have hrun : ∀ x : UInt8, parseBody junk f (c :: q ++ List.replicate stale x) = .ok request ∧
        (grow p [lf, c]).length ≤ tempSize := by
      intro x
      exact (openBody_cons_iff hc).mp (h (List.replicate stale x) List.length_replicate)
    obtain ⟨hzeros, hgrow⟩ := hrun 0
    rw [length_grow p c 0] at hgrow
    obtain ⟨request₁, hcopy, -⟩ := exists_of_bind hzeros
    rcases hf.copyBody_iff.mp hcopy with ⟨hnone, -⟩ | ⟨len, hlen, -⟩
    · exact Or.inr (Or.inl ⟨by simp, hgrow, hnone, hf.plain_of_parseBody hnull hnone hzeros⟩)
    · have hbody := (hf.body_eq hlen hzeros).symm.trans (hf.body_eq hlen (hrun 1).1)
      obtain ⟨hle, hcase⟩ := (hf.parseBody_iff hlen).mp hzeros
      rw [List.length_append, List.length_replicate] at hle
      have hshort : len ≤ (c :: q).length :=
        le_length_of_take_eq hle (List.append_cancel_right (Ptr.obj.inj hbody))
      rw [List.take_append_of_le_length hshort] at hcase
      refine Or.inr (Or.inr ⟨by simp, hgrow, len, hlen, hshort, fun hmulti => ?_⟩)
      rcases hcase with ⟨hplain, -⟩ | ⟨-, s, hs, -⟩
      · exact absurd hmulti hplain
      · exact (exists_scans_iff htoks).mp ⟨s, hs⟩

end

/-! ## Nothing of the buffer shows -/

/-- The parse of what was received comes to its end inside of it: it is read to a NUL, or to
the end of a head that decides about its body; and all of it fits. -/
def EndsInside (b : Received) : Prop :=
  ∃ toks e, HeadText .method b.bytes toks e ∧ (∀ t ∈ toks, t.Fits) ∧ e.Fits ∧
    ∀ p r, e = .closed p (lf :: r) → IsPost toks →
      BodyReceived (headersOf toks) p r b.stale

theorem Ending.append_fits {e : Ending} (t : List UInt8) : (e.append t).Fits ↔ e.Fits := by
  cases e <;> exact Iff.rfl

section
variable {V : Type} {junk : ℕ → PartJunk} {g : CtlFunMap V} {files : FileList} {b : Received}

/-- Where no NUL was received, a parse in front of ones closes its head in what was. -/
theorem exists_headText_of_ones {request request' : Request}
    (h : reqParseHttp junk request (b.bytes ++ List.replicate b.stale 1) = .ok request') :
    ∃ toks e, HeadText .method b.bytes toks e := by
  by_cases hzero : (0 : UInt8) ∈ b.bytes
  · exact exists_headText .method b.bytes hzero
  · obtain ⟨toks, e, hread⟩ := exists_headText_of_ok h
    by_cases hclosed : ∃ p rest, e = .closed p rest
    · obtain ⟨p, rest, rfl⟩ := hclosed
      have hones : ∀ c ∈ List.replicate b.stale (1 : UInt8), c = 0 ∨ c = 1 := fun c hc =>
        Or.inr (List.eq_of_mem_replicate hc)
      obtain ⟨r, -, hread⟩ := hread.of_append_closed hones
      exact ⟨toks, _, hread⟩
    · have hmem := hread.zero_mem fun p rest he => hclosed ⟨p, rest, he⟩
      rcases List.mem_append.mp hmem with hmem | hmem
      · exact absurd hmem hzero
      · exact absurd (List.eq_of_mem_replicate hmem) (by decide)

/-- If nothing of the buffer shows, the parse ends inside of what was received. -/
theorem Isolated.endsInside (h : Isolated junk g files b) : EndsInside b := by
  obtain ⟨request, hall⟩ := isolated_iff_forall.mp h RequestMem.zero
  obtain ⟨toks, e, hread⟩ := exists_headText_of_ones (hall _ List.length_replicate)
  obtain ⟨f, hput, hend, -⟩ :=
    (reqParseHttp_iff (hread.append _)).mp (hall (List.replicate b.stale 0) List.length_replicate)
  refine ⟨toks, e, hread, Filled.fits_of_putAll hput, (Ending.append_fits _).mp hend, ?_⟩
  rintro p r rfl hpost
  have hopen : ∀ t : List UInt8, t.length = b.stale →
      ∃ broke, openBody junk p (r ++ t) f.request = .ok (broke, request) := by
    intro t ht
    obtain ⟨f', hput', -, hleaves⟩ := (reqParseHttp_iff (hread.append t)).mp (hall t ht)
    obtain rfl : f' = f := Except.ok.inj (hput'.symm.trans hput)
    simp only [Ending.append, List.cons_append, Ending.Leaves, if_pos hpost] at hleaves
    exact hleaves
  exact (filledFrom_putAll hput).bodyReceived hread.isText rfl hopen

/-- A parse that ends inside of what was received is the same whatever stands behind it. -/
theorem EndsInside.isolated (h : EndsInside b) : Isolated junk g files b := by
  obtain ⟨toks, e, hread, hfits, hend, hbody⟩ := h
  rw [isolated_iff_forall]
  intro mem
  obtain ⟨f, hput⟩ : ∃ f, (Parser.start (reqParseInit mem)).toFilled.putAll toks = .ok f :=
    hread.exists_putAll trivial hfits
  have hparse : ∀ {request : Request} (t : List UInt8),
      (e.append t).Leaves junk toks f.request request →
        reqParseHttp junk (reqParseInit mem) (b.bytes ++ t) = .ok request := fun t hleaves =>
    (reqParseHttp_iff (hread.append t)).mpr ⟨f, hput, (Ending.append_fits t).mpr hend, hleaves⟩
  cases e with
  | cut s => exact ⟨f.request, fun t _ => hparse t rfl⟩
  | bad s => exact ⟨f.request, fun t _ => hparse t rfl⟩
  | closed p rest =>
      obtain ⟨r, rfl⟩ := hread.exists_closed
      by_cases hpost : IsPost toks
      · obtain ⟨request, hall⟩ :=
          (hbody p r rfl hpost).exists_openBody hread.isText (filledFrom_putAll hput)
        refine ⟨request, fun t ht => hparse t ?_⟩
        simp only [Ending.append, List.cons_append, Ending.Leaves, if_pos hpost]
        exact hall t ht
      · refine ⟨{ f.request with bodyLength := 0, body := .null }, fun t _ => hparse t ?_⟩
        simp only [Ending.append, List.cons_append, Ending.Leaves, if_neg hpost]

end

/-- For everything that is received: the request and its dispatch are the same after every
history of the buffer exactly if the parse ends inside of what was received. -/
theorem isolated_iff {V : Type} (junk : ℕ → PartJunk) (g : CtlFunMap V) (files : FileList)
    (b : Received) : Isolated junk g files b ↔ EndsInside b := by
  constructor
  · exact Isolated.endsInside
  · exact EndsInside.isolated

/-- A client that closes at once is answered by what was received before. -/
theorem not_isolated_nothing :
    ¬∀ (g : CtlFunMap ℕ) (files : FileList) (b : Received),
      Isolated (fun _ => .zero) g files b := by
  intro h
  obtain ⟨toks, e, hread, -⟩ :=
    (h routerInit ⟨[], Nat.zero_le _⟩ ⟨[], Nat.zero_le _⟩).endsInside
  exact hread.ne_nil rfl
