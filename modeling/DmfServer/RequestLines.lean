/-
# The lines of a head

The parser knows no header lines: behind the request line it reads a name up to a colon,
skips one byte, and reads a value up to a line end.  So a line without a colon closes the
head where it ends, and a line that ends with its colon takes the line behind it for its
value (`HeaderLines`), be this the blank line.  The parse enters the body in the blank line
exactly if the lines are taken in this way up to the last one, and fit (`startsBody_iff`).
-/
import DmfServer.RequestEffect

open CMem Ascii

/-! ## The blank line -/

/-- The memory from the last `\n` of the first `\r\n\r\n` on. -/
def blankLine : List UInt8 → Option (List UInt8)
  | [] => none
  | c :: s => if [cr, lf, cr, lf] <+: c :: s then some (s.drop 2) else blankLine s

/-- The lines, each with its end. -/
def renderLines : List (List UInt8) → List UInt8
  | [] => []
  | l :: ls => l ++ cr :: lf :: renderLines ls

theorem renderLines_cons (l : List UInt8) (ls : List (List UInt8)) (t : List UInt8) :
    renderLines (l :: ls) ++ t = l ++ cr :: lf :: (renderLines ls ++ t) := by
  rw [renderLines, List.append_assoc, List.cons_append, List.cons_append]

theorem blankLine_skip {c : UInt8} {s : List UInt8}
    (h : ¬ [cr, lf] <+: c :: s) : blankLine (c :: s) = blankLine s := by
  rw [blankLine, if_neg]
  intro hblank
  exact h (List.IsPrefix.trans (by decide) hblank)

/-- A line that is not empty does not begin with a line end. -/
theorem not_prefix_line {l : List UInt8} (hl : NoCrlf l) (hne : l ≠ []) (t : List UInt8) :
    ¬ [cr, lf] <+: l ++ cr :: lf :: t := by
  intro hprefix
  obtain ⟨c, l, rfl⟩ := List.exists_cons_of_ne_nil hne
  obtain ⟨hc, hprefix⟩ := List.cons_prefix_cons.mp hprefix
  cases l with
  | nil =>
      obtain ⟨hlf, -⟩ := List.cons_prefix_cons.mp hprefix
      cases hlf
  | cons d l =>
      obtain ⟨hd, -⟩ := List.cons_prefix_cons.mp hprefix
      exact (noCrlf_cons.mp hl).1 ⟨hc.symm, by rw [← hd]; rfl⟩

/-- There is no blank line in a line. -/
theorem blankLine_line {l : List UInt8} (hl : NoCrlf l) (t : List UInt8) :
    blankLine (l ++ cr :: lf :: t) = blankLine (cr :: lf :: t) := by
  induction l with
  | nil => rfl
  | cons c l ih =>
      rw [← ih (noCrlf_cons.mp hl).2]
      exact blankLine_skip (not_prefix_line hl (List.cons_ne_nil c l) t)

/-- Behind lines that are not empty, the first blank line is the one that ends them. -/
theorem blankLine_renderLines {ls : List (List UInt8)} (hls : ∀ l ∈ ls, NoCrlf l ∧ l ≠ [])
    (t : List UInt8) :
    blankLine (cr :: lf :: (renderLines ls ++ cr :: lf :: t)) = some (lf :: t) := by
  induction ls with
  | nil =>
      rw [renderLines, List.nil_append, blankLine, if_pos (by simp [List.cons_prefix_cons])]
      rfl
  | cons l ls ih =>
      obtain ⟨⟨hl, hne⟩, hls⟩ := List.forall_mem_cons.mp hls
      rw [renderLines_cons, blankLine, if_neg]
      · have hlf : ∀ s, ¬ [cr, lf] <+: lf :: s := by simp [List.cons_prefix_cons, cr, lf]
        rw [blankLine_skip (hlf _), blankLine_line hl, ih hls]
      · intro hblank
        obtain ⟨-, hblank⟩ := List.cons_prefix_cons.mp hblank
        obtain ⟨-, hblank⟩ := List.cons_prefix_cons.mp hblank
        exact not_prefix_line hl hne _ hblank

/-! ## Requests as lines -/

/-- A request line without a query. -/
structure RequestLine where
  method : List UInt8
  path : List UInt8
  protocol : List UInt8
  version : List UInt8
  method_some : method ≠ []
  method_text : Without space method
  path_start : ∃ s, path = slash :: s
  path_text : Without space path
  path_question : question ∉ path
  protocol_text : Without slash protocol
  version_text : IsText version
  line : NoCrlf (method ++ space :: (path ++ space :: (protocol ++ slash :: version)))

/-- The bytes of the line. -/
def RequestLine.render (r : RequestLine) : List UInt8 :=
  r.method ++ space :: (r.path ++ space :: (r.protocol ++ slash :: r.version))

/-- A request line, header lines of any form, and what stands behind the blank line. -/
structure RequestLines extends RequestLine where
  headers : List (List UInt8)
  body : List UInt8
  headers_line : ∀ l ∈ headers, IsLine l ∧ l ≠ []
  body_text : IsText body

/-- The bytes of the request. -/
def RequestLines.render (r : RequestLines) : List UInt8 :=
  r.toRequestLine.render ++ cr :: lf :: (renderLines r.headers ++ cr :: lf :: r.body)

/-- The request in memory: its lines, the blank line, and what stands behind that. -/
theorem RequestLines.render_append (r : RequestLines) (tail : List UInt8) :
    r.render ++ tail = r.toRequestLine.render ++ cr :: lf ::
      (renderLines r.headers ++ cr :: lf :: (r.body ++ tail)) := by
  simp [RequestLines.render]

/-- The first blank line of a request is the one behind its header lines. -/
theorem RequestLines.blankLine_eq (r : RequestLines) (tail : List UInt8) :
    blankLine (r.render ++ tail) = some (lf :: (r.body ++ tail)) := by
  have hlines := blankLine_renderLines (fun l hl => ⟨(r.headers_line l hl).1.2,
    (r.headers_line l hl).2⟩) (r.body ++ tail)
  rw [r.render_append, RequestLine.render, blankLine_line r.line, hlines]

/-! ## The lines as they are read -/

/-- Header lines that the parser takes one after the other, as these tokens: each has a
colon, and a byte behind it that is skipped; or else a line behind it, which is its value. -/
inductive HeaderLines : List (List UInt8) → List Tok → Prop where
  | nil : HeaderLines [] []
  | value {j v : List UInt8} {x : UInt8} {ls : List (List UInt8)} {ts : List Tok}
      (name : colon ∉ j) (behind : HeaderLines ls ts) :
      HeaderLines ((j ++ colon :: x :: v) :: ls) (⟨.name, kept j⟩ :: ⟨.field, v⟩ :: ts)
  | empty {j l : List UInt8} {ls : List (List UInt8)} {ts : List Tok}
      (name : colon ∉ j) (behind : HeaderLines ls ts) :
      HeaderLines ((j ++ [colon]) :: l :: ls) (⟨.name, kept j⟩ :: ⟨.field, lf :: l⟩ :: ts)

theorem IsLine.of_append_right {s t : List UInt8} (h : IsLine (s ++ t)) : IsLine t :=
  ⟨(isText_append.mp h.1).2, fun hin => h.2 (hin.trans (List.suffix_append s t).isInfix)⟩

/-- A line behind the `
` that was left over. -/
theorem IsLine.cons_lf {l : List UInt8} (h : IsLine l) : IsLine (lf :: l) :=
  isLine_cons.mpr ⟨⟨by decide, fun hcr => absurd hcr.1 (by decide)⟩, h⟩

/-- A line with a value is read, and then the lines behind it. -/
theorem headText_value {j v mem : List UInt8} {x : UInt8} (hl : IsLine (j ++ colon :: x :: v))
    (hj : colon ∉ j) {ts : List Tok} {e : Ending} (h : HeadText .name mem ts e) :
    HeadText .name ((j ++ colon :: x :: v) ++ cr :: lf :: mem)
      (⟨.name, kept j⟩ :: ⟨.field, v⟩ :: ts) e := by
  have hbehind : IsLine (colon :: x :: v) := hl.of_append_right
  have hx := (isLine_cons.mp (isLine_cons.mp hbehind).2).1.1
  have hv := (isLine_cons.mp (isLine_cons.mp hbehind).2).2
  rw [List.append_assoc]
  exact .name ⟨hl.of_append, hj⟩ hx (.field hv h)

/-- A line that ends with its colon is read with the line behind it, the `
` being skipped. -/
theorem headText_empty {j l mem : List UInt8} (hj : IsName j) (hl : IsLine l) {ts : List Tok}
    {e : Ending} (h : HeadText .name mem ts e) :
    HeadText .name ((j ++ [colon]) ++ cr :: lf :: (l ++ cr :: lf :: mem))
      (⟨.name, kept j⟩ :: ⟨.field, lf :: l⟩ :: ts) e := by
  rw [List.append_assoc]
  exact .name hj (by decide) (.field hl.cons_lf h)

/-- Lines that are taken are read up to the blank line behind them. -/
theorem HeaderLines.headText {ls : List (List UInt8)} {ts : List Tok} (h : HeaderLines ls ts)
    (hls : ∀ l ∈ ls, IsLine l) (mem : List UInt8) :
    HeadText .name (renderLines ls ++ cr :: lf :: mem) ts (.closed [] (lf :: mem)) := by
  induction h with
  | nil => exact .nameEnd (j := []) ⟨⟨by simp [IsText], noCrlf_nil⟩, by simp⟩
  | value hj _ ih =>
      obtain ⟨hl, hls⟩ := List.forall_mem_cons.mp hls
      rw [renderLines_cons]
      exact headText_value hl hj (ih hls)
  | empty hj _ ih =>
      obtain ⟨hl, hls⟩ := List.forall_mem_cons.mp hls
      obtain ⟨hnext, hls⟩ := List.forall_mem_cons.mp hls
      rw [renderLines_cons, renderLines_cons]
      exact headText_empty ⟨hl.of_append, hj⟩ hnext (ih hls)

/-- What the closing of a head leaves is less than the memory. -/
theorem HeadText.length_closed {part : HeadPart} {data p rest : List UInt8} {toks : List Tok}
    (h : HeadText part data toks (.closed p rest)) : rest.length < data.length := by
  generalize he : Ending.closed p rest = e at h
  induction h with
  | nameEnd hj =>
      obtain ⟨-, rfl⟩ := Ending.closed.inj he
      simp only [List.length_append, List.length_cons]
      omega
  | method _ _ _ ih | pathSpace _ _ _ ih | pathQuery _ _ _ ih | key _ _ ih | valueAmp _ _ _ ih
  | valueSpace _ _ _ ih | protocol _ _ ih | version _ _ ih | name _ _ _ ih | field _ _ ih =>
      have hrest := ih he
      simp only [List.length_append, List.length_cons]
      omega
  | _ => cases he

/-- There is a reading of the lines that closes the head in their blank line only if they
are taken. -/
def LinesReading (mem : List UInt8) (ls : List (List UInt8)) : Prop :=
  ∃ toks e, HeadText .name (renderLines ls ++ cr :: lf :: mem) toks e ∧
    ∀ p, e = .closed p (lf :: mem) → HeaderLines ls toks

/-- One line: it closes the head, or has a value, or ends with its colon. -/
theorem linesReading_cons {mem l : List UInt8} {ls : List (List UInt8)} (hl : IsLine l)
    (hrest : LinesReading mem ls)
    (hempty : ∀ j, IsName j → l = j ++ [colon] → LinesReading mem (l :: ls)) :
    LinesReading mem (l :: ls) := by
  by_cases hcolon : colon ∈ l
  · obtain ⟨j, v, rfl, hj⟩ := exists_split_colon hl hcolon
    cases v with
    | nil => exact hempty j hj rfl
    | cons x v =>
        obtain ⟨toks, e, hread, hlines⟩ := hrest
        have hline := headText_value hl hj.2 hread
        rw [← renderLines_cons] at hline
        exact ⟨_, e, hline, fun p he => .value hj.2 (hlines p he)⟩
  · -- the line end closes the head, and all the lines behind it are still there
    have hend : HeadText .name (l ++ cr :: lf :: (renderLines ls ++ cr :: lf :: mem)) [] _ :=
      .nameEnd ⟨hl, hcolon⟩
    rw [← renderLines_cons] at hend
    refine ⟨[], _, hend, fun p he => ?_⟩
    obtain ⟨-, hmem⟩ := Ending.closed.inj he
    have hlen := congrArg List.length hmem
    simp only [List.length_cons, List.length_append] at hlen
    omega

/-- The lines of a memory can be read, and what the reading says of them. -/
theorem linesReading {mem : List UInt8} (hmem : (0 : UInt8) ∈ mem) (ls : List (List UInt8))
    (hls : ∀ l ∈ ls, IsLine l) : LinesReading mem ls := by
  have hnil : LinesReading mem [] :=
    ⟨_, _, HeaderLines.nil.headText (by simp) mem, fun p _ => .nil⟩
  induction ls using List.twoStepInduction with
  | nil => exact hnil
  | singleton l =>
      obtain ⟨hl, -⟩ := List.forall_mem_cons.mp hls
      refine linesReading_cons hl hnil fun j hj heq => ?_
      -- the blank line is taken for the value, and the head goes on behind it
      obtain ⟨toks, e, hread⟩ := exists_headText .name mem hmem
      have hline := headText_empty hj ⟨by simp [IsText], noCrlf_nil⟩ hread
      have hone : renderLines [l] ++ cr :: lf :: mem = l ++ cr :: lf :: ([] ++ cr :: lf :: mem) :=
        renderLines_cons l [] _
      rw [← heq, ← hone] at hline
      refine ⟨_, e, hline, fun p he => ?_⟩
      have hlt := (he ▸ hread).length_closed
      simp only [List.length_cons] at hlt
      omega
  | cons_cons l l' ls ih ih' =>
      obtain ⟨hl, hls'⟩ := List.forall_mem_cons.mp hls
      obtain ⟨hnext, hls⟩ := List.forall_mem_cons.mp hls'
      refine linesReading_cons hl (ih' l' hls') fun j hj heq => ?_
      obtain ⟨toks, e, hread, hlines⟩ := ih hls
      have hline := headText_empty hj hnext hread
      rw [← renderLines_cons, ← renderLines_cons, ← heq] at hline
      exact ⟨_, e, hline, fun p he => heq ▸ .empty hj.2 (hlines p he)⟩

/-! ## Where the body starts -/

namespace RequestLine

variable (r : RequestLine)

/-- The tokens of the line. -/
def toks : List Tok :=
  [⟨.method, r.method⟩, ⟨.path, r.path⟩, ⟨.protocol, r.protocol⟩, ⟨.version, r.version⟩]

/-- The parser takes the method: it begins with `G` or `P`. -/
def Begins : Prop := ∃ c s, r.method = c :: s ∧ IsMethodStart c

variable {r}

/-- A request line is read, and then what stands behind it. -/
theorem headText (hbegins : r.Begins) {mem : List UInt8} {ts : List Tok} {e : Ending}
    (h : HeadText .name mem ts e) :
    HeadText .method (r.render ++ cr :: lf :: mem) (r.toks ++ ts) e := by
  obtain ⟨c, s, hmethod, hc⟩ := hbegins
  obtain ⟨p, hpath⟩ := r.path_start
  have hs : Without space s := (without_cons.mp (hmethod ▸ r.method_text)).2
  have hp : Without space p := (without_cons.mp (hpath ▸ r.path_text)).2
  have hquestion : question ∉ p := fun hm => r.path_question (hpath ▸ List.mem_cons_of_mem _ hm)
  have hversion : IsLine r.version := by
    refine ⟨r.version_text, fun hin => r.line (hin.trans ?_)⟩
    exact ⟨r.method ++ space :: (r.path ++ space :: (r.protocol ++ [slash])), [], by simp⟩
  have hread := HeadText.method hc hs
    (.pathSpace hp hquestion (.protocol r.protocol_text (.version hversion h)))
  rw [← List.cons_append, ← hmethod, ← List.cons_append, ← hpath] at hread
  unfold render toks
  simpa only [List.append_assoc, List.cons_append, List.nil_append] using hread

end RequestLine

/-! ## Entering the body -/

section
variable {junk : ℕ → PartJunk}

theorem Parser.state_copyTemp {m m' : Parser} {off : ℕ} (h : m.copyTemp off = .ok m') :
    m'.state = m.state := by
  cases m
  rw [copyTemp_eq] at h
  obtain ⟨f, -, rfl⟩ := exists_of_map h
  rfl

theorem Parser.state_insertQuery {m m' : Parser} (h : m.insertQuery = .ok m') :
    m'.state = m.state := by
  cases m
  rw [insertQuery_eq] at h
  obtain ⟨f, -, rfl⟩ := exists_of_map h
  rfl

theorem Parser.state_insertParams {m m' : Parser} (h : m.insertParams = .ok m') :
    m'.state = m.state := by
  cases m
  rw [insertParams_eq] at h
  obtain ⟨f, -, rfl⟩ := exists_of_map h
  rfl

/-- From a state of the head no round goes to the body without `PARSE_BODY_START`, nor back
to the start. -/
theorem switch_state {m m' : Parser} {c : UInt8} {rest : List UInt8}
    (h : m.switch junk c rest = .ok m') (hopen : m.state ≠ .bodyStart) (hbody : m.state ≠ .body) :
    m'.state ≠ .start ∧ m'.state ≠ .body := by
  unfold Parser.switch at h
  -- a copy leaves the state alone, and every other branch sets it or keeps it
  cases hst : m.state <;> rw [hst] at h <;> simp only at h
  case bodyStart => exact absurd hst hopen
  case body => exact absurd hst hbody
  case start =>
      split at h <;> cases h <;> simp
  case method =>
      split at h
      · rw [Parser.state_copyTemp h]
        simp
      · cases h
        simp [hst]
  case pathStart =>
      split at h <;> cases h <;> simp
  case path =>
      split at h
      · rw [Parser.state_copyTemp h]
        simp
      · split at h
        · rw [Parser.state_copyTemp h]
          simp
        · cases h
          simp [hst]
  case queryStart =>
      split at h
      · obtain ⟨key, -, h⟩ := exists_of_bind h
        obtain ⟨copy, -, h⟩ := exists_of_bind h
        obtain ⟨d, -, h⟩ := exists_of_bind h
        cases h
        simp
      · obtain ⟨d, -, h⟩ := exists_of_bind h
        split at h <;> cases h <;> simp
  case queryTemp =>
      split at h
      · rw [Parser.state_insertQuery h]
        simp
      · split at h
        · rw [Parser.state_insertQuery h]
          simp
        · cases h
          simp
  case pvStart =>
      split at h
      · rw [Parser.state_copyTemp h]
        simp
      · cases h
        simp
  case pvTemp =>
      obtain ⟨r, -, h⟩ := exists_of_bind h
      split at h
      · rw [Parser.state_copyTemp h]
        simp
      · cases h
        simp
  case param1 =>
      split at h
      · obtain ⟨key, -, h⟩ := exists_of_bind h
        cases h
        simp
      · obtain ⟨r, -, h⟩ := exists_of_bind h
        split at h <;> cases h
        · simp
        · by_cases hup : Ascii.isUpper c <;> simp [hup, hst]
  case param3 =>
      obtain ⟨r, -, h⟩ := exists_of_bind h
      split at h
      · rw [Parser.state_insertParams h]
        simp
      · cases h
        simp
  all_goals
    cases h
    simp [hst]

theorem Parser.state_store {m m' : Parser} {c : UInt8} (h : m.store c = .ok m') :
    m'.state = m.state := by
  unfold Parser.store at h
  split at h
  · split at h
    · cases h
      rfl
    · cases h
  · cases h
    rfl

theorem round_state {m m' : Parser} {c : UInt8} {rest : List UInt8}
    (h : m.round junk c rest = .ok m') (hopen : m.state ≠ .bodyStart) (hbody : m.state ≠ .body) :
    m'.state ≠ .start ∧ m'.state ≠ .body := by
  obtain ⟨m₁, hswitch, hstore⟩ := exists_of_bind h
  rw [Parser.state_store hstore]
  exact switch_state hswitch hopen hbody

/-- The parse is the run up to the first `PARSE_BODY_START`, and from there on. -/
theorem reqParseLoop_enter {data : List UInt8} {m : Parser} (hopen : m.state ≠ .bodyStart)
    (hbody : m.state ≠ .body) :
    reqParseLoop junk .start data m = reqParseLoop junk .bodyStart data m >>= fun h =>
      if h.broke then reqParseLoop junk .start h.rest h.parser else .ok h := by
  induction data generalizing m with
  | nil => rfl
  | cons c rest ih =>
      by_cases hc : c = 0
      · subst hc
        rw [reqParseLoop_zero, reqParseLoop_zero]
        rfl
      · rw [reqParseLoop_cons hc, reqParseLoop_cons hc]
        cases hround : m.round junk c rest with
        | error e => rfl
        | ok m' =>
            obtain ⟨hstart, hbody'⟩ := round_state hround hopen hbody
            rw [ok_bind, ok_bind, afterRound, if_neg hstart, afterRound]
            by_cases henter : m'.state = .bodyStart
            · rw [if_pos henter]
              rfl
            · rw [if_neg henter]
              exact ih henter hbody'

end

/-- The parse enters `PARSE_BODY_START` at the `\r` of the first blank line, and not before:
the run that ends there is the beginning of every parse (`reqParseLoop_enter`). -/
def StartsBody (junk : ℕ → PartJunk) (request : Request) (data : List UInt8) : Prop :=
  ∃ rest m, blankLine data = some rest ∧
    reqParseLoop junk .bodyStart data (.start request) = .ok ⟨true, m, rest⟩

/-- The parser takes the request line and all the header lines, and has room for their
texts. -/
def RequestLines.Taken (r : RequestLines) : Prop :=
  r.Begins ∧ ∃ toks, HeaderLines r.headers toks ∧ ∀ t ∈ r.toRequestLine.toks ++ toks, t.Fits

section
variable {junk : ℕ → PartJunk} {request : Request}

/-- A reading that closes the head enters the body there, if its texts fit. -/
theorem HeadText.enters {data p rest : List UInt8} {toks : List Tok}
    (h : HeadText .method data toks (.closed p rest)) (hfits : ∀ t ∈ toks, t.Fits)
    (hp : p.length ≤ tempSize) :
    ∃ m, reqParseLoop junk .bodyStart data (.start request) = .ok ⟨true, m, rest⟩ := by
  obtain ⟨k, hleft, hk⟩ := @reqParseLoop_headText junk _ ample (Or.inr rfl) _ _ _ _ h
  obtain ⟨f, hput⟩ : ∃ f, (Parser.start request).toFilled.putAll toks = .ok f :=
    h.exists_putAll trivial hfits
  have hrun : reqParseLoop junk .bodyStart data (.start request) = _ :=
    hk (Parser.start request).toFilled
  rw [hput, ok_bind, hleft f, pile_eq_ok hp, ok_bind, afterRound, if_pos rfl] at hrun
  exact ⟨_, hrun⟩

/-- The parse enters the body only where its reading closes the head. -/
theorem HeadText.closed_of_enters {data rest : List UInt8} {toks : List Tok} {e : Ending}
    (h : HeadText .method data toks e) {m : Parser}
    (hrun : reqParseLoop junk .bodyStart data (.start request) = .ok ⟨true, m, rest⟩) :
    (∃ p, e = .closed p rest) ∧ ∀ t ∈ toks, t.Fits := by
  obtain ⟨k, hleft, hk⟩ := @reqParseLoop_headText junk _ ample (Or.inr rfl) _ _ _ _ h
  have hstart : reqParseLoop junk .bodyStart data (.start request) = _ :=
    hk (Parser.start request).toFilled
  rw [hrun] at hstart
  obtain ⟨f, hput, hend⟩ := exists_of_bind hstart.symm
  refine ⟨?_, Filled.fits_of_putAll hput⟩
  by_cases hclosed : ∃ p r, e = .closed p r
  · obtain ⟨p, r, rfl⟩ := hclosed
    rw [hleft f] at hend
    obtain ⟨temp, -, hend⟩ := exists_of_bind hend
    rw [afterRound, if_pos rfl] at hend
    cases hend
    exact ⟨p, rfl⟩
  · -- such a reading is left at a NUL
    have hseen := hleft.seen_eq f
    rw [hend] at hseen
    have hbroke := (not_broke_of_not_closed (fun p r he => hclosed ⟨p, r, he⟩) hseen.symm).1
    cases hbroke

/-- A request is read from its first byte on. -/
theorem HeadText.isMethodStart {c : UInt8} {s p rest : List UInt8} {toks : List Tok}
    (h : HeadText .method (c :: s) toks (.closed p rest)) : IsMethodStart c := by
  cases h with
  | method hc _ _ => exact hc

/-- Where the body starts in the blank line, the lines were taken. -/
theorem RequestLines.taken_of_startsBody {r : RequestLines} {tail : List UInt8}
    (h : StartsBody junk request (r.render ++ 0 :: tail)) : r.Taken := by
  obtain ⟨rest, m, hblank, hrun⟩ := h
  rw [r.blankLine_eq] at hblank
  cases hblank
  have hzero : (0 : UInt8) ∈ r.body ++ 0 :: tail := by simp
  have hbegins : r.Begins := by
    obtain ⟨c, s, hmethod⟩ := List.exists_cons_of_ne_nil r.method_some
    obtain ⟨toks, e, hread⟩ := exists_headText .method (r.render ++ 0 :: tail) (by simp)
    obtain ⟨⟨p, rfl⟩, -⟩ := hread.closed_of_enters hrun
    unfold RequestLines.render RequestLine.render at hread
    rw [hmethod] at hread
    exact ⟨c, s, hmethod, hread.isMethodStart⟩
  obtain ⟨toks, e, hread, hlines⟩ :=
    linesReading hzero r.headers fun l hl => (r.headers_line l hl).1
  have hhead := r.headText hbegins hread
  rw [← r.render_append] at hhead
  obtain ⟨⟨p, he⟩, hfits⟩ := hhead.closed_of_enters hrun
  exact ⟨hbegins, toks, hlines p he, hfits⟩

end

/-- For every request: the body starts behind the first blank line exactly if the request
line and the header lines are taken. -/
theorem startsBody_iff (junk : ℕ → PartJunk) (request : Request) (r : RequestLines)
    (tail : List UInt8) : StartsBody junk request (r.render ++ 0 :: tail) ↔ r.Taken := by
  constructor
  · exact RequestLines.taken_of_startsBody
  · rintro ⟨hbegins, toks, hlines, hfits⟩
    have hread := hlines.headText (fun l hl => (r.headers_line l hl).1) (r.body ++ 0 :: tail)
    have hhead := r.headText hbegins hread
    rw [← r.render_append] at hhead
    obtain ⟨m, hrun⟩ := hhead.enters hfits (Nat.zero_le _)
    exact ⟨_, m, r.blankLine_eq _, hrun⟩

/-- A header line that ends with its colon, in front of the blank line. -/
theorem exists_emptyLine : ∃ r : RequestLines,
    r.render = bytes "GET / HTTP/1.1\r\nAccept:\r\n\r\n" ∧ r.headers = [bytes "Accept:"] := by
  let line : RequestLine :=
    { method := bytes "GET", path := bytes "/", protocol := bytes "HTTP", version := bytes "1.1"
      method_some := by decide, method_text := ⟨by decide, by decide⟩
      path_start := ⟨[], rfl⟩, path_text := ⟨by decide, by decide⟩, path_question := by decide
      protocol_text := ⟨by decide, by decide⟩, version_text := by decide
      line := noCrlf_of_not_mem (by decide) }
  have hheaders : ∀ l ∈ [bytes "Accept:"], IsLine l ∧ l ≠ [] := by
    intro l hl
    rw [List.mem_singleton.mp hl]
    exact ⟨isLine_of_without ⟨by decide, by decide⟩, by decide⟩
  refine ⟨⟨line, [bytes "Accept:"], [], hheaders, by decide⟩, ?_, rfl⟩
  show line.render ++ cr :: lf :: (renderLines [bytes "Accept:"] ++ cr :: lf :: []) = _
  decide

/-- The last header line has something behind its colon. -/
theorem HeaderLines.exists_value {l : List UInt8} {toks : List Tok} (h : HeaderLines [l] toks) :
    ∃ j x v, colon ∉ j ∧ l = j ++ colon :: x :: v := by
  cases h with
  | value hj _ => exact ⟨_, _, _, hj, rfl⟩

/-- `GET / HTTP/1.1` with the one header line `Accept:`: the blank line is its value. -/
theorem not_startsBody_emptyLine :
    ¬∀ (junk : ℕ → PartJunk) (request : Request) (r : RequestLines) (tail : List UInt8),
      StartsBody junk request (r.render ++ 0 :: tail) := by
  intro h
  obtain ⟨r, -, hheaders⟩ := exists_emptyLine
  obtain ⟨-, toks, hlines, -⟩ :=
    RequestLines.taken_of_startsBody (h (fun _ => .zero) (reqParseInit .zero) r [])
  rw [hheaders] at hlines
  obtain ⟨j, x, v, hj, hline⟩ := hlines.exists_value
  -- the colon is the last byte of the line, and nothing is behind it
  have hsplit : bytes "Accept" ++ colon :: [] = j ++ colon :: x :: v := hline
  rw [List.append_cons_inj_of_notMem (by decide) (by simp)] at hsplit
  cases hsplit.2.2
