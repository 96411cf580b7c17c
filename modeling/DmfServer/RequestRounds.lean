/-
# The rounds of the request parser

The loop of `req_parse_http` looked at round by round: `ParserStep` is one round that does
not leave the loop, `StepSystem.Steps` its runs.  `RunsInside` says that no round of a run
leaves a buffer: neither `temp`, nor the array of the request that it copies `temp` to.
That depends on the lengths of the texts between the delimiters only, so it is followed
along the reading of the memory (`HeadText.runsInside`).

`BodyCopied` is about the round of `PARSE_BODY`, wherever a run comes to it.
-/
import DmfServer.RequestEffect
import DmfServer.RequestLines
import DmfServer.RequestRoundTrip
import DmfServer.StepSystem

open CMem Ascii StepSystem

/-! ## The rounds -/

/-- One round of the loop, at the byte `c`: it goes without a fault, and the loop goes on. -/
def ParserStep (junk : ℕ → PartJunk) (s : Parser × List UInt8) (c : UInt8)
    (t : Parser × List UInt8) : Prop :=
  s.2 = c :: t.2 ∧ c ≠ 0 ∧ s.1.round junk c t.2 = .ok t.1 ∧ t.1.state ≠ .start

namespace Parser

/-- The size of the array that the round at `c` copies `temp` to, if it copies it. -/
def copies (m : Parser) (c : UInt8) (rest : List UInt8) : Option ℕ :=
  match m.state with
  | .method => if c = space then some httpMethodMax else none
  | .path => if c = question ∨ c = space then some httpUriMax else none
  | .pvStart => if c = slash then some httpProtocolMax else none
  | .pvTemp => if c = cr ∧ rest.head? = some lf then some httpVersionMax else none
  | _ => none

/-- The round at `c` stays inside the buffers: the copy fits its array, `temp` is read as a
string that has its NUL, and the byte is written below the end of `temp`.  In `PARSE_BODY`
the switch leaves `write` and `temp` alone, also where it faults in the body. -/
structure Inside (junk : ℕ → PartJunk) (m : Parser) (c : UInt8) (rest : List UInt8) : Prop where
  copied : ∀ size, m.copies c rest = some size → m.temp.length < size
  read : m.state ≠ .body → ∃ m', m.switch junk c rest = .ok m'
  written : ∀ m', m.switch junk c rest = .ok m' ∨ (m.state = .body ∧ m' = m) →
    m'.write = true → m'.temp.length < tempSize

end Parser

/-- Every round from `m` at `p` on stays inside the buffers. -/
def RunsInside (junk : ℕ → PartJunk) (m : Parser) (p : List UInt8) : Prop :=
  ∀ cs n c rest, Steps (ParserStep junk) (m, p) cs (n, c :: rest) → c ≠ 0 → n.Inside junk c rest

section
variable {junk : ℕ → PartJunk}

theorem runsInside_zero (m : Parser) (tail : List UInt8) : RunsInside junk m (0 :: tail) := by
  intro cs n c rest hrun hc
  rcases hrun.first with ⟨-, hsame⟩ | ⟨d, _, u, -, ⟨hd, hd0, -⟩, -⟩
  · cases hsame
    exact absurd rfl hc
  · cases hd
    exact absurd rfl hd0

theorem runsInside_nil (m : Parser) : RunsInside junk m [] := by
  intro cs n c rest hrun hc
  rcases hrun.first with ⟨-, hsame⟩ | ⟨d, _, u, -, ⟨hd, -⟩, -⟩
  · cases hsame
  · cases hd

/-- A run stays inside if its first round does and the run behind it. -/
theorem runsInside_cons {m : Parser} {c : UInt8} {rest : List UInt8} (hc : c ≠ 0) :
    RunsInside junk m (c :: rest) ↔ m.Inside junk c rest ∧
      ∀ m', m.round junk c rest = .ok m' → m'.state ≠ .start → RunsInside junk m' rest := by
  constructor
  · intro h
    refine ⟨h [] m c rest .nil hc, fun m' hround hstart cs n d rest' hrun => ?_⟩
    exact h (c :: cs) n d rest' (Steps.cons (t := (m', rest)) ⟨rfl, hc, hround, hstart⟩ hrun)
  · rintro ⟨hfirst, hrest⟩ cs n d rest' hrun hd
    rcases hrun.first with ⟨-, hsame⟩ | ⟨e, es, ⟨m', p⟩, -, ⟨hp, he, hround, hstart⟩, htail⟩
    · cases hsame
      exact hfirst
    · cases hp
      exact hrest m' hround hstart es n d rest' htail hd

/-! ## The texts between the delimiters -/

/-- A round that copies goes on in another state. -/
theorem copies_eq_none {m m' : Parser} {c : UInt8} {rest : List UInt8}
    (h : m.switch junk c rest = .ok m') (hstate : m'.state = m.state) :
    m.copies c rest = none := by
  unfold Parser.switch at h
  unfold Parser.copies
  cases hst : m.state <;> rw [hst] at h hstate <;> simp only at h ⊢
  case method =>
      by_cases hc : c = space
      · rw [if_pos hc] at h
        rw [Parser.state_copyTemp h] at hstate
        cases hstate
      · rw [if_neg hc]
  case path =>
      by_cases hq : c = question
      · rw [if_pos hq] at h
        rw [Parser.state_copyTemp h] at hstate
        cases hstate
      · rw [if_neg hq] at h
        by_cases hc : c = space
        · rw [if_pos hc] at h
          rw [Parser.state_copyTemp h] at hstate
          cases hstate
        · rw [if_neg (not_or.mpr ⟨hq, hc⟩)]
  case pvStart =>
      by_cases hc : c = slash
      · rw [if_pos hc] at h
        rw [Parser.state_copyTemp h] at hstate
        cases hstate
      · rw [if_neg hc]
  case pvTemp =>
      by_cases hc : c = cr ∧ rest.head? = some lf
      · obtain ⟨rfl, hlf⟩ := hc
        obtain ⟨rest', rfl⟩ := List.head?_eq_some_iff.mp hlf
        rw [pairAt_crlf, ok_bind, if_pos rfl] at h
        rw [Parser.state_copyTemp h] at hstate
        cases hstate
      · rw [if_neg hc]

theorem copies_pos {m : Parser} {c : UInt8} {rest : List UInt8} {size : ℕ}
    (h : m.copies c rest = some size) : 0 < size := by
  unfold Parser.copies at h
  split at h
  case h_5 => cases h
  all_goals
    split at h <;> cases h
    decide

/-- A round of the head that is read without a fault. -/
theorem inside_iff {m m' : Parser} {c : UInt8} {rest : List UInt8}
    (h : m.switch junk c rest = .ok m') (hbody : m.state ≠ .body) :
    m.Inside junk c rest ↔ (∀ size, m.copies c rest = some size → m.temp.length < size) ∧
      (m'.write = true → m'.temp.length < tempSize) := by
  constructor
  · intro hin
    exact ⟨hin.copied, hin.written m' (Or.inl h)⟩
  · rintro ⟨hcopied, hwritten⟩
    refine ⟨hcopied, fun _ => ⟨m', h⟩, ?_⟩
    rintro n (hn | ⟨hb, -⟩)
    · rw [h] at hn
      cases hn
      exact hwritten
    · exact absurd hb hbody

/-- The round at `c`, and the run behind it. -/
theorem runsInside_round {m m' : Parser} {c : UInt8} {rest : List UInt8} (hc : c ≠ 0)
    (h : m.switch junk c rest = .ok m') (hbody : m.state ≠ .body) (hstart : m'.state ≠ .start) :
    RunsInside junk m (c :: rest) ↔
      (∀ size, m.copies c rest = some size → m.temp.length < size) ∧
      (m'.write = true → m'.temp.length < tempSize) ∧
      RunsInside junk { m' with temp := if m'.write then m'.temp ++ [c] else [] } rest := by
  rw [runsInside_cons hc, inside_iff h hbody, and_assoc]
  refine and_congr_right fun _ => and_congr_right fun hwritten => ?_
  have hround : m.round junk c rest
      = .ok { m' with temp := if m'.write then m'.temp ++ [c] else [] } := by
    rw [Parser.round, h, ok_bind, Parser.store]
    by_cases hw : m'.write = true
    · rw [if_pos hw, if_pos (hwritten hw), if_pos hw]
    · rw [if_neg hw, if_neg hw]
  rw [hround]
  constructor
  · intro hrun
    exact hrun _ rfl hstart
  · rintro hrun n hn -
    cases hn
    exact hrun

/-- A text that is taken up is written inside `temp`. -/
theorem runsInside_take {s tail : List UInt8} {m : Parser} (hs : IsText s)
    (hbody : m.state ≠ .body) (hstart : m.state ≠ .start) (ht : m.temp.length ≤ tempSize)
    (h : ∀ a c b, s = a ++ c :: b → ∀ w temp, w = m.write ∨ w = true →
      Parser.switch junk { m with write := w, temp := temp } c (b ++ tail)
        = .ok { m with write := true, temp := temp }) :
    RunsInside junk m (s ++ tail) ↔ (m.temp ++ s).length ≤ tempSize ∧
      RunsInside junk
        { m with write := if s = [] then m.write else true, temp := m.temp ++ s } tail := by
  induction s generalizing m with
  | nil =>
      rw [List.append_nil]
      exact ⟨fun hrun => ⟨ht, hrun⟩, fun hrun => hrun.2⟩
  | cons c s ih =>
      obtain ⟨hc, hs⟩ := isText_cons.mp hs
      have hstep := h [] c s rfl m.write m.temp (Or.inl rfl)
      rw [List.cons_append, runsInside_round hc hstep hbody hstart]
      have hnone : m.copies c (s ++ tail) = none := copies_eq_none hstep rfl
      have hcons : m.temp ++ c :: s = (m.temp ++ [c]) ++ s := by simp
      by_cases hlt : m.temp.length < tempSize
      · have hle : (m.temp ++ [c]).length ≤ tempSize := by
          rw [List.length_append, List.length_singleton]
          omega
        have hrest := ih (m := { m with write := true, temp := m.temp ++ [c] }) hs hbody hstart hle
          (by
            rintro a d b rfl w temp hw
            exact h (c :: a) d b rfl w temp (Or.inr (by simpa using hw)))
        rw [if_pos rfl, hrest, hcons]
        simp [hnone, hlt]
      · have hlong : ¬(m.temp ++ c :: s).length ≤ tempSize := by
          rw [List.length_append, List.length_cons]
          omega
        constructor
        · rintro ⟨-, hwritten, -⟩
          exact absurd (hwritten rfl) hlt
        · rintro ⟨hle, -⟩
          exact absurd hle hlong

theorem HeadPart.reading_ne_body (part : HeadPart) : part.reading ≠ .body := by
  cases part <;> decide

theorem HeadPart.state_ne_body (part : HeadPart) : part.state ≠ .body := by
  cases part <;> decide

/-- A text taken up from its first byte on. -/
theorem runsInside_first_take {f : Filled} {st next : HttpParseState} {c : UInt8}
    {s tail : List UInt8} (hc : c ≠ 0) (hs : IsText s) (hst : st ≠ .body) (hbody : next ≠ .body)
    (hstart : next ≠ .start)
    (hfirst : Parser.switch junk ⟨f, st, false, []⟩ c (s ++ tail) = .ok ⟨f, next, true, []⟩)
    (h : ∀ a d b, s = a ++ d :: b → ∀ temp,
      Parser.switch junk ⟨f, next, true, temp⟩ d (b ++ tail) = .ok ⟨f, next, true, temp⟩) :
    RunsInside junk ⟨f, st, false, []⟩ (c :: (s ++ tail)) ↔ (c :: s).length ≤ tempSize ∧
      RunsInside junk ⟨f, next, true, c :: s⟩ tail := by
  have hlen : [c].length ≤ tempSize := by
    rw [List.length_singleton]
    decide
  have hwrite : (if s = [] then true else true) = true := ite_self true
  rw [runsInside_round hc hfirst hst hstart, if_pos rfl, List.nil_append,
    runsInside_take hs hbody hstart hlen]
  · simp only [hwrite, List.singleton_append]
    constructor
    · rintro ⟨-, -, hrun⟩
      exact hrun
    · intro hrun
      -- nothing is in `temp` yet, so that a copy would fit
      exact ⟨fun size hsize => copies_pos hsize, fun _ => by decide, hrun⟩
  · intro a d b hsplit w temp hw
    obtain rfl : w = true := by simpa using hw
    exact h a d b hsplit temp

/-- A byte that moves the parser on and is not kept. -/
theorem runsInside_drop {f : Filled} {st next : HttpParseState} {c : UInt8} {rest : List UInt8}
    (hc : c ≠ 0) (hst : st ≠ .body) (hnext : next ≠ .start)
    (h : Parser.switch junk ⟨f, st, false, []⟩ c rest = .ok ⟨f, next, false, []⟩) :
    RunsInside junk ⟨f, st, false, []⟩ (c :: rest) ↔ RunsInside junk ⟨f, next, false, []⟩ rest := by
  rw [runsInside_round hc h hst hnext]
  constructor
  · rintro ⟨-, -, hrun⟩
    exact hrun
  · intro hrun
    exact ⟨fun size hsize => copies_pos hsize, fun hw => (Bool.false_ne_true hw).elim, hrun⟩

/-- A text whose every byte is skipped. -/
theorem runsInside_skip {s tail : List UInt8} {f : Filled} {st : HttpParseState} (hs : IsText s)
    (hbody : st ≠ .body) (hstart : st ≠ .start)
    (h : ∀ a c b, s = a ++ c :: b →
      Parser.switch junk ⟨f, st, false, []⟩ c (b ++ tail) = .ok ⟨f, st, false, []⟩) :
    RunsInside junk ⟨f, st, false, []⟩ (s ++ tail) ↔ RunsInside junk ⟨f, st, false, []⟩ tail := by
  induction s with
  | nil => rfl
  | cons c s ih =>
      obtain ⟨hc, hs⟩ := isText_cons.mp hs
      rw [List.cons_append, runsInside_drop hc hbody hstart (h [] c s rfl)]
      apply ih hs
      rintro a d b rfl
      exact h (c :: a) d b rfl

/-- A part is written inside `temp` if its text is short enough. -/
theorem Collects.runsInside {part : HeadPart} {text tail : List UInt8}
    (h : Collects junk part text tail) (f : Filled) :
    ∃ w, RunsInside junk (Parser.at part f) (text ++ tail) ↔
      text.length ≤ tempSize ∧ RunsInside junk ⟨f, part.reading, w, text⟩ tail := by
  cases text with
  | nil =>
      refine ⟨false, ?_⟩
      rw [h.reading rfl]
      exact ⟨fun hrun => ⟨Nat.zero_le _, hrun⟩, fun hrun => hrun.2⟩
  | cons c s =>
      obtain ⟨hc, hs⟩ := isText_cons.mp h.isText
      have hfirst := h.switch [] c s rfl f false [] (Or.inl rfl)
      rw [if_pos rfl] at hfirst
      refine ⟨true, runsInside_first_take hc hs part.state_ne_body part.reading_ne_body
        (part.reading_ne (Or.inl rfl)) hfirst ?_⟩
      rintro a d b rfl temp
      have hstep := h.switch (c :: a) d b rfl f true temp (Or.inr rfl)
      rwa [if_neg (List.cons_ne_nil c a)] at hstep

/-- Of a name only what is kept is written. -/
theorem runsInside_name {j : List UInt8} {d : UInt8} {rest : List UInt8} (hj : IsName j)
    (hd : d ≠ lf) (f : Filled) :
    RunsInside junk (Parser.at .name f) (j ++ d :: rest) ↔ (kept j).length ≤ tempSize ∧
      RunsInside junk ⟨f, .param1, kept j ≠ [], kept j⟩ (d :: rest) := by
  have hbody : HttpParseState.param1 ≠ .body := by decide
  have hstart : HttpParseState.param1 ≠ .start := by decide
  obtain ⟨pre, hpre, hlow, hup⟩ := exists_eq_append_kept j
  have hbyte : ∀ a c b, j = a ++ c :: b → ∀ f w temp,
      Parser.switch junk ⟨f, .param1, w, temp⟩ c (b ++ d :: rest)
        = .ok ⟨f, .param1, if isUpper c then true else w, temp⟩ := switch_name hj hd
  have htext : IsText (pre ++ kept j) := hpre ▸ hj.1.1
  have hskip : RunsInside junk (Parser.at .name f) (j ++ d :: rest) ↔
      RunsInside junk (Parser.at .name f) (kept j ++ d :: rest) := by
    conv_lhs => rw [hpre, List.append_assoc]
    refine runsInside_skip (isText_append.mp htext).1 hbody hstart ?_
    rintro a c b rfl
    have hstep := hbyte a c (b ++ kept j) (by simpa using hpre) f false []
    rw [hlow c (by simp), List.append_assoc] at hstep
    exact hstep
  rw [hskip]
  cases hk : kept j with
  | nil => exact ⟨fun hrun => ⟨Nat.zero_le _, hrun⟩, fun hrun => hrun.2⟩
  | cons c s =>
      rw [hk] at hpre htext
      obtain ⟨hc0, hs⟩ := isText_cons.mp (isText_append.mp htext).2
      have hfirst := hbyte pre c s hpre f false []
      rw [if_pos (hup c s hk)] at hfirst
      refine runsInside_first_take hc0 hs hbody hbody hstart hfirst ?_
      rintro a e b rfl temp
      have hstep := hbyte (pre ++ c :: a) e b (by simpa using hpre) f true temp
      rwa [ite_self] at hstep

/-! ## The delimiters -/

/-- The room for a text of the part: the array it is copied to, else `temp` itself. -/
def HeadPart.array : HeadPart → Option ℕ
  | .method => some httpMethodMax
  | .path => some httpUriMax
  | .protocol => some httpProtocolMax
  | .version => some httpVersionMax
  | _ => none

/-- The text of a token fits where it is copied to. -/
def Tok.Within (t : Tok) : Prop := t.text.length < t.part.array.getD tempSize

instance (t : Tok) : Decidable t.Within :=
  inferInstanceAs (Decidable (t.text.length < t.part.array.getD tempSize))

theorem Tok.Within.fits {t : Tok} (h : t.Within) : t.Fits := by
  obtain ⟨part, text⟩ := t
  unfold Tok.Within at h
  unfold Tok.Fits
  cases part <;>
    simp only [HeadPart.array, HeadPart.room, Option.getD, httpMethodMax, httpUriMax,
      httpProtocolMax, httpVersionMax, tempSize] at h ⊢ <;> omega

/-- Behind a text stands its delimiter, where the text is stored. -/
theorem runsInside_delim {f : Filled} {st next : HttpParseState} {part : HeadPart} {w : Bool}
    {temp : List UInt8} {d : UInt8} {rest : List UInt8} (hd : d ≠ 0) (hst : st ≠ .body)
    (hnext : next ≠ .start) (hready : f.Ready part)
    (hcopies : Parser.copies ⟨f, st, w, temp⟩ d rest = part.array)
    (h : Parser.switch junk ⟨f, st, w, temp⟩ d rest
      = (f.storeTemp part temp).map fun f => ⟨f, next, false, temp⟩) :
    RunsInside junk ⟨f, st, w, temp⟩ (d :: rest) ↔ Tok.Within ⟨part, temp⟩ ∧
      ∀ f', f.storeTemp part temp = .ok f' → RunsInside junk ⟨f', next, false, []⟩ rest := by
  have hround : ∀ f', f.storeTemp part temp = .ok f' →
      (RunsInside junk ⟨f, st, w, temp⟩ (d :: rest) ↔
        (∀ size, part.array = some size → temp.length < size) ∧
          RunsInside junk ⟨f', next, false, []⟩ rest) := by
    intro f' hf'
    rw [hf', ok_map] at h
    rw [runsInside_round hd h hst hnext, hcopies]
    simp
  constructor
  · intro hrun
    obtain ⟨m', hm'⟩ := ((runsInside_cons hd).mp hrun).1.read hst
    rw [h] at hm'
    obtain ⟨f', hf', -⟩ := exists_of_map hm'
    obtain ⟨hcopied, -⟩ := (hround f' hf').mp hrun
    refine ⟨?_, fun g hg => ?_⟩
    · unfold Tok.Within
      cases harray : part.array with
      | none =>
          rw [Filled.storeTemp_ample] at hf'
          split at hf'
          · assumption
          · cases hf'
      | some size => exact hcopied size harray
    · exact ((hround g hg).mp hrun).2
  · rintro ⟨hwithin, hrest⟩
    have hlen : temp.length ≤ 511 := hwithin.fits.length_le
    obtain ⟨f', hput⟩ := Filled.exists_put hwithin.fits hready
    have hf' : f.storeTemp part temp = .ok f' := by
      rw [Filled.put, pile_eq_ok (hlen.trans (by decide)), ok_bind] at hput
      exact hput
    refine (hround f' hf').mpr ⟨fun size hsize => ?_, hrest f' hf'⟩
    unfold Tok.Within at hwithin
    simp only [hsize, Option.getD_some] at hwithin
    exact hwithin

/-- A token and its delimiter. -/
theorem Collects.runsInside_token {part : HeadPart} {next : HttpParseState}
    {text rest : List UInt8} {d : UInt8} (h : Collects junk part text (d :: rest)) (hd : d ≠ 0)
    (hnext : next ≠ .start) {f : Filled} (hready : f.Ready part)
    (hcopies : ∀ w temp, Parser.copies ⟨f, part.reading, w, temp⟩ d rest = part.array)
    (hswitch : ∀ w temp, Parser.switch junk ⟨f, part.reading, w, temp⟩ d rest
      = (f.storeTemp part temp).map fun f => ⟨f, next, false, temp⟩) :
    RunsInside junk (Parser.at part f) (text ++ d :: rest) ↔ Tok.Within ⟨part, text⟩ ∧
      ∀ f', f.put ⟨part, text⟩ = .ok f' → RunsInside junk ⟨f', next, false, []⟩ rest := by
  obtain ⟨w, hw⟩ := h.runsInside f
  rw [hw, runsInside_delim hd part.reading_ne_body hnext hready (hcopies w text) (hswitch w text)]
  constructor
  · rintro ⟨hlen, hwithin, hrest⟩
    refine ⟨hwithin, fun f' hput => hrest f' ?_⟩
    rw [Filled.put, pile_eq_ok hlen] at hput
    exact hput
  · rintro ⟨hwithin, hrest⟩
    have hlen : text.length ≤ tempSize := hwithin.fits.length_le.trans (by decide)
    refine ⟨hlen, hwithin, fun f' hstore => hrest f' ?_⟩
    rw [Filled.put, pile_eq_ok hlen]
    exact hstore

/-! ## The reading -/

/-- A name and its colon. -/
theorem runsInside_name_colon {j rest : List UInt8} (hj : IsName j) (f : Filled) :
    RunsInside junk (Parser.at .name f) (j ++ colon :: rest) ↔ Tok.Within ⟨.name, kept j⟩ ∧
      ∀ f', f.put ⟨.name, kept j⟩ = .ok f' → RunsInside junk ⟨f', .param2, false, []⟩ rest := by
  have hready : f.Ready .name := trivial
  rw [runsInside_name hj (by decide), runsInside_delim (by decide) (by decide) (by decide)
    hready rfl (switch_colon f _ _ rest)]
  constructor
  · rintro ⟨hlen, hwithin, hrest⟩
    refine ⟨hwithin, fun f' hput => hrest f' ?_⟩
    rw [Filled.put, pile_eq_ok hlen] at hput
    exact hput
  · rintro ⟨hwithin, hrest⟩
    have hlen : (kept j).length ≤ tempSize := hwithin.fits.length_le.trans (by decide)
    refine ⟨hlen, hwithin, fun f' hstore => hrest f' ?_⟩
    rw [Filled.put, pile_eq_ok hlen]
    exact hstore

/-- What is left in `temp` grows, unless nothing is left there. -/
theorem length_grow_le {p : List UInt8} {c : UInt8} :
    (grow p [c]).length ≤ tempSize ↔ (p ≠ [] → p.length < tempSize) := by
  unfold grow
  by_cases hp : p = []
  · rw [if_pos hp]
    exact ⟨fun _ hne => absurd hp hne, fun _ => Nat.zero_le _⟩
  · rw [if_neg hp, List.length_append, List.length_singleton]
    exact ⟨fun hle _ => hle, fun hlt => hlt hp⟩

/-- A round that only goes on, `write` being set if something is left in `temp`. -/
theorem runsInside_left {f f' : Filled} {st next : HttpParseState} {p : List UInt8} {c : UInt8}
    {rest : List UInt8} (hc : c ≠ 0) (hst : st ≠ .body) (hnext : next ≠ .start)
    (hcopies : Parser.copies ⟨f, st, p ≠ [], p⟩ c rest = none)
    (h : Parser.switch junk ⟨f, st, p ≠ [], p⟩ c rest = .ok ⟨f', next, p ≠ [], p⟩) :
    RunsInside junk ⟨f, st, p ≠ [], p⟩ (c :: rest) ↔ (grow p [c]).length ≤ tempSize ∧
      RunsInside junk ⟨f', next, grow p [c] ≠ [], grow p [c]⟩ rest := by
  have hgrow : (if decide (p ≠ []) = true then p ++ [c] else []) = grow p [c] := by
    unfold grow
    by_cases hp : p = []
    · simp [hp]
    · simp [hp]
  have hwrite : decide (grow p [c] ≠ []) = decide (p ≠ []) := by
    rw [decide_eq_decide, grow_ne_nil]
  rw [runsInside_round hc h hst hnext, hcopies, length_grow_le, hwrite, ← hgrow]
  simp only [decide_eq_true_eq]
  constructor
  · rintro ⟨-, hlen, hrun⟩
    exact ⟨hlen, hrun⟩
  · rintro ⟨hlen, hrun⟩
    exact ⟨fun size hsize => (Option.some_ne_none size hsize.symm).elim, hlen, hrun⟩

/-- The line end that closes the head. -/
theorem runsInside_name_end {j rest : List UInt8} (hj : IsName j) (f : Filled) :
    RunsInside junk (Parser.at .name f) (j ++ cr :: lf :: rest) ↔
      (kept (j ++ [cr])).length ≤ tempSize ∧
      RunsInside junk ⟨f, .bodyStart, kept (j ++ [cr]) ≠ [], kept (j ++ [cr])⟩ (lf :: rest) := by
  have hkept : kept (j ++ [cr]) = grow (kept j) [cr] := kept_cr j
  have hleft : RunsInside junk ⟨f, .param1, kept j ≠ [], kept j⟩ (cr :: lf :: rest) ↔ _ :=
    runsInside_left (by decide) (by decide) (by decide) rfl rfl
  rw [runsInside_name hj (by decide), hleft, hkept]
  constructor
  · rintro ⟨-, hrun⟩
    exact hrun
  · rintro ⟨hlen, hrun⟩
    exact ⟨(length_le_length_grow (kept j) [cr]).trans hlen, hlen, hrun⟩

/-- Behind a round that leaves the loop there is nothing to see. -/
theorem runsInside_last {m : Parser} {c : UInt8} {rest : List UInt8} (hc : c ≠ 0)
    (h : ∀ m', m.switch junk c rest = .ok m' → m'.state = .start) :
    RunsInside junk m (c :: rest) ↔ m.Inside junk c rest := by
  rw [runsInside_cons hc]
  constructor
  · rintro ⟨hinside, -⟩
    exact hinside
  · intro hinside
    refine ⟨hinside, fun m' hround hstart => absurd ?_ hstart⟩
    obtain ⟨m₁, hswitch, hstore⟩ := exists_of_bind hround
    rw [Parser.state_store hstore]
    exact h m₁ hswitch

/-- The round of the body, `q` being left in `temp`. -/
theorem inside_body (f : Filled) (q : List UInt8) (c : UInt8) (rest : List UInt8) :
    Parser.Inside junk ⟨f, .body, q ≠ [], q⟩ c rest ↔ (grow q [c]).length ≤ tempSize := by
  rw [length_grow_le]
  constructor
  · intro hinside hq
    exact hinside.written ⟨f, .body, q ≠ [], q⟩ (Or.inr ⟨rfl, rfl⟩) (by simpa using hq)
  · intro hlen
    refine ⟨fun size hsize => (Option.some_ne_none size hsize.symm).elim,
      fun hbody => absurd rfl hbody, ?_⟩
    rintro m' (hswitch | ⟨-, rfl⟩) hwrite
    · obtain ⟨request, -, hswitch⟩ := exists_of_bind hswitch
      obtain ⟨request', -, hswitch⟩ := exists_of_bind hswitch
      cases hswitch
      exact hlen (by simpa using hwrite)
    · exact hlen (by simpa using hwrite)

/-- Behind the head: its line feed, and the first byte of a body. -/
theorem runsInside_closed (f : Filled) (p rest : List UInt8) :
    RunsInside junk ⟨f, .bodyStart, p ≠ [], p⟩ (lf :: rest) ↔ (grow p [lf]).length ≤ tempSize ∧
      (f.request.method = bytes "POST" → ∀ c r, rest = c :: r → c ≠ 0 →
        (grow p [lf, c]).length ≤ tempSize) := by
  by_cases hpost : f.request.method = bytes "POST"
  · have hswitch : Parser.switch junk ⟨f, .bodyStart, p ≠ [], p⟩ lf rest
        = .ok ⟨f, .body, p ≠ [], p⟩ := if_pos hpost
    rw [runsInside_left (by decide) (by decide) (by decide) rfl hswitch]
    refine and_congr_right fun _ => ?_
    cases rest with
    | nil =>
        constructor
        · rintro - - c r hr
          cases hr
        · intro _
          exact runsInside_nil _
    | cons c r =>
        by_cases hc : c = 0
        · subst hc
          constructor
          · rintro - - d r' hr hd
            cases hr
            exact absurd rfl hd
          · intro _
            exact runsInside_zero _ r
        · have hbody : RunsInside junk ⟨f, .body, grow p [lf] ≠ [], grow p [lf]⟩ (c :: r) ↔ _ :=
            runsInside_last hc fun m' hm' => by
              obtain ⟨request, -, hm'⟩ := exists_of_bind hm'
              obtain ⟨request', -, hm'⟩ := exists_of_bind hm'
              cases hm'
              rfl
          rw [hbody, inside_body, grow_grow]
          constructor
          · rintro hlen - d r' hr -
            cases hr
            exact hlen
          · intro hlen
            exact hlen hpost c r rfl hc
  · have hswitch : Parser.switch junk ⟨f, .bodyStart, p ≠ [], p⟩ lf rest
        = .ok ⟨{ f with request := { f.request with bodyLength := 0, body := .null } },
            .start, p ≠ [], p⟩ := if_neg hpost
    have hlast : RunsInside junk ⟨f, .bodyStart, p ≠ [], p⟩ (lf :: rest) ↔ _ :=
      runsInside_last (by decide) fun m' hm' => by
        rw [hswitch] at hm'
        cases hm'
        rfl
    rw [hlast, inside_iff hswitch (by simp), length_grow_le]
    constructor
    · rintro ⟨-, hlen⟩
      exact ⟨fun hp => hlen (by simpa using hp), fun hm => absurd hm hpost⟩
    · rintro ⟨hlen, -⟩
      exact ⟨fun size hsize => (Option.some_ne_none size hsize.symm).elim,
        fun hwrite => hlen (by simpa using hwrite)⟩

/-! ## Along the reading -/

/-- What must hold of the ending: what piles up fits into `temp`. -/
def Ending.EndsInside (junk : ℕ → PartJunk) (e : Ending) (f : Filled) : Prop :=
  match e with
  | .cut s => s.length ≤ tempSize
  | .bad s => s.length ≤ tempSize
  | .closed p rest => p.length ≤ tempSize ∧ RunsInside junk ⟨f, .bodyStart, p ≠ [], p⟩ rest

/-- The tokens fit, and behind them the ending. -/
def PutsInside (junk : ℕ → PartJunk) (toks : List Tok) (e : Ending) (f : Filled) : Prop :=
  (∀ t ∈ toks, t.Within) ∧ ∀ f', f.putAll toks = .ok f' → e.EndsInside junk f'

theorem putsInside_nil {e : Ending} {f : Filled} :
    PutsInside junk [] e f ↔ e.EndsInside junk f := by
  constructor
  · rintro ⟨-, hend⟩
    exact hend f rfl
  · intro hend
    refine ⟨by simp, fun f' hf' => ?_⟩
    cases hf'
    exact hend

theorem putsInside_cons {t : Tok} {ts : List Tok} {e : Ending} {f : Filled}
    (hready : f.Ready t.part) : PutsInside junk (t :: ts) e f ↔
      t.Within ∧ ∀ f', f.put t = .ok f' → PutsInside junk ts e f' := by
  constructor
  · rintro ⟨hwithin, hend⟩
    obtain ⟨ht, hts⟩ := List.forall_mem_cons.mp hwithin
    refine ⟨ht, fun f' hput => ⟨hts, fun g hg => hend g ?_⟩⟩
    rw [Filled.putAll, hput]
    exact hg
  · rintro ⟨ht, hrest⟩
    obtain ⟨f₁, hput₁⟩ := Filled.exists_put ht.fits hready
    refine ⟨List.forall_mem_cons.mpr ⟨ht, (hrest f₁ hput₁).1⟩, fun g hg => ?_⟩
    obtain ⟨f', hput, hg⟩ := exists_of_bind hg
    exact (hrest f' hput).2 g hg

/-- A token is taken up, and then the run goes on behind its delimiter. -/
theorem Collects.puts {part : HeadPart} {next : HttpParseState} {text rest : List UInt8} {d : UInt8}
    {ts : List Tok} {e : Ending} (h : Collects junk part text (d :: rest)) (hd : d ≠ 0)
    (hnext : next ≠ .start) {f : Filled} (hready : f.Ready part)
    (hcopies : ∀ w temp, Parser.copies ⟨f, part.reading, w, temp⟩ d rest = part.array)
    (hswitch : ∀ w temp, Parser.switch junk ⟨f, part.reading, w, temp⟩ d rest
      = (f.storeTemp part temp).map fun f => ⟨f, next, false, temp⟩)
    (hrest : ∀ f', f.put ⟨part, text⟩ = .ok f' →
      (RunsInside junk ⟨f', next, false, []⟩ rest ↔ PutsInside junk ts e f')) :
    RunsInside junk (Parser.at part f) (text ++ d :: rest) ↔
      PutsInside junk (⟨part, text⟩ :: ts) e f := by
  rw [h.runsInside_token hd hnext hready hcopies hswitch, putsInside_cons hready]
  exact and_congr_right fun _ => forall_congr' fun f' => forall_congr' (hrest f')

/-- A token at a NUL is the end of the run. -/
theorem Collects.cutInside {part : HeadPart} {text tail : List UInt8}
    (h : Collects junk part text (0 :: tail)) (f : Filled) :
    RunsInside junk (Parser.at part f) (text ++ 0 :: tail) ↔
      PutsInside junk [] (.cut text) f := by
  obtain ⟨w, hw⟩ := h.runsInside f
  rw [hw, putsInside_nil]
  exact ⟨fun hrun => hrun.1, fun hlen => ⟨hlen, runsInside_zero _ tail⟩⟩

/-- A text no head begins with is skipped to its NUL. -/
theorem runsInside_invalid {st : HttpParseState} {c : UInt8} {s tail : List UInt8} (hc : c ≠ 0)
    (hs : IsText s) (hst : st ≠ .body) (f : Filled)
    (h : Parser.switch junk ⟨f, st, false, []⟩ c (s ++ 0 :: tail) = .ok ⟨f, .invalid, false, []⟩) :
    RunsInside junk ⟨f, st, false, []⟩ (c :: (s ++ 0 :: tail)) ↔
      PutsInside junk [] (.bad []) f := by
  rw [putsInside_nil, runsInside_drop hc hst (by decide) h,
    runsInside_skip hs (by decide) (by decide) fun _ _ _ _ => rfl]
  exact ⟨fun _ => Nat.zero_le _, fun _ => runsInside_zero _ _⟩

/-- Behind a query key that a space ends everything piles up. -/
theorem runsInside_key_bad {k s tail : List UInt8} (hk : IsKey k) (hne : k ≠ []) (hs : IsText s)
    (f : Filled) : RunsInside junk (Parser.at .key f) (k ++ space :: (s ++ 0 :: tail)) ↔
      PutsInside junk [] (.bad (k ++ space :: s)) f := by
  obtain ⟨k', c, rfl⟩ : ∃ k' c, k = k' ++ [c] := (List.eq_nil_or_concat' k).resolve_left hne
  obtain ⟨hc0, -⟩ := isText_cons.mp (isText_append.mp hk.1.1).2
  have hc : c ≠ equals := Without.ne hk.1.2
  have hcollects : Collects junk .key k' (c :: space :: (s ++ 0 :: tail)) :=
    collects_key_init hk _
  obtain ⟨w, hw⟩ := hcollects.runsInside f
  have hswitch : Parser.switch junk ⟨f, .queryStart, w, k'⟩ c (space :: (s ++ 0 :: tail))
      = .ok ⟨f, .invalid, true, k'⟩ := switch_key_bad hc f w k' (s ++ 0 :: tail)
  have hstate : HeadPart.key.reading = .queryStart := rfl
  rw [List.append_assoc, List.singleton_append, hw, putsInside_nil, hstate,
    runsInside_round hc0 hswitch (by simp) (by simp), if_pos rfl]
  by_cases hlt : k'.length < tempSize
  · have hle : (k' ++ [c]).length ≤ tempSize := by
      rw [List.length_append, List.length_singleton]
      omega
    have htake : RunsInside junk ⟨f, .invalid, true, k' ++ [c]⟩ (space :: s ++ 0 :: tail) ↔ _ :=
      runsInside_take (isText_cons.mpr ⟨by decide, hs⟩) (by simp) (by simp) hle (by
        intro a d b _ w' temp' hw'
        obtain rfl : w' = true := by simpa using hw'
        rfl)
    rw [List.cons_append] at htake
    rw [htake]
    constructor
    · rintro ⟨-, -, -, hlen, -⟩
      exact hlen
    · intro hlen
      exact ⟨hlt.le, fun size hsize => (Option.some_ne_none size hsize.symm).elim,
        fun _ => hlt, hlen, runsInside_zero _ tail⟩
  · have hlong : ¬(k' ++ [c] ++ space :: s).length ≤ tempSize := by
      simp only [List.length_append, List.length_cons]
      omega
    constructor
    · rintro ⟨-, -, hwritten, -⟩
      exact absurd (hwritten rfl) hlt
    · intro hlen
      exact absurd hlen hlong

/-- The run over a memory with a reading is the run over its tokens. -/
theorem HeadText.runsInside {part : HeadPart} {data : List UInt8} {toks : List Tok} {e : Ending}
    (h : HeadText part data toks e) {f : Filled} (hready : f.Ready part) :
    RunsInside junk (Parser.at part f) data ↔ PutsInside junk toks e f := by
  -- the line feed in front of a name, and the byte in front of a value
  have hname : ∀ {rest : List UInt8} (f : Filled),
      RunsInside junk ⟨f, .paramStart, false, []⟩ (lf :: rest) ↔
        RunsInside junk (Parser.at .name f) rest := fun f =>
    runsInside_drop (by decide) (by decide) (by decide) rfl
  have hfield : ∀ {x : UInt8} {rest : List UInt8}, x ≠ 0 → ∀ f : Filled,
      RunsInside junk ⟨f, .param2, false, []⟩ (x :: rest) ↔
        RunsInside junk (Parser.at .field f) rest := fun hx f =>
    runsInside_drop hx (by decide) (by decide) rfl
  induction h generalizing f with
  | methodNil | pathNil =>
      rw [putsInside_nil]
      exact ⟨fun _ => Nat.zero_le _, fun _ => runsInside_zero _ _⟩
  | methodBad hc hstart hs => exact runsInside_invalid hc hs (by decide) f (if_neg hstart)
  | methodCut hc hs => exact (collects_method hc hs).cutInside f
  | method hc hs _ ih =>
      exact (collects_method hc hs).puts (by decide) (by decide) hready (fun w temp => rfl)
        (fun w temp => copyTemp_store (by decide) f .pathStart false temp rfl) fun f' _ => ih trivial
  | pathBad hc hslash hs => exact runsInside_invalid hc hs (by decide) f (if_neg hslash)
  | pathCut hs hq => exact (collects_path hs hq).cutInside f
  | pathSpace hs hq _ ih =>
      exact (collects_path hs hq).puts (by decide) (by decide) hready (fun w temp => rfl)
        (fun w temp => copyTemp_store (by decide) f .pvStart false temp rfl) fun f' _ => ih trivial
  | pathQuery hs hq _ ih =>
      exact (collects_path hs hq).puts (by decide) (by decide) hready (fun w temp => rfl)
        (fun w temp => copyTemp_store (by decide) f .queryStart false temp rfl) fun f' _ => ih trivial
  | keyCut hk => exact (collects_key hk (by decide)).cutInside f
  | keyBad hk hne hs => exact runsInside_key_bad hk hne hs f
  | key hk hts ih =>
      refine (collects_key hk (by decide)).puts (by decide) (by decide) hready (fun w temp => rfl)
        (fun w temp => ?_) fun f' hput => ih (Filled.ready_value hput)
      exact switch_equals f w temp hts.ne_nil
  | valueCut hv ha => exact (collects_value hv ha).cutInside f
  | valueAmp hv ha _ ih =>
      exact (collects_value hv ha).puts (by decide) (by decide) hready (fun w temp => rfl)
        (fun w temp => insertQuery_eq f .queryStart false temp) fun f' _ => ih trivial
  | valueSpace hv ha _ ih =>
      exact (collects_value hv ha).puts (by decide) (by decide) hready (fun w temp => rfl)
        (fun w temp => insertQuery_eq f .pvStart false temp) fun f' _ => ih trivial
  | protocolCut hp => exact (collects_protocol hp).cutInside f
  | protocol hp _ ih =>
      exact (collects_protocol hp).puts (by decide) (by decide) hready (fun w temp => rfl)
        (fun w temp => copyTemp_store (by decide) f .pvTemp false temp rfl) fun f' _ => ih trivial
  | versionCut hv => exact (collects_version hv (by decide)).cutInside f
  | version hv _ ih =>
      exact (collects_version hv (by decide)).puts (by decide) (by decide) hready
        (fun w temp => rfl) (fun w temp => copyTemp_store (by decide) f .paramStart false temp rfl)
        fun f' _ => (hname f').trans (ih trivial)
  | nameCut hj =>
      rw [putsInside_nil, runsInside_name hj (by decide)]
      exact ⟨fun hrun => hrun.1, fun hlen => ⟨hlen, runsInside_zero _ _⟩⟩
  | nameColon hj =>
      rw [runsInside_name_colon hj, putsInside_cons hready]
      refine and_congr_right fun _ => forall_congr' fun f' => forall_congr' fun _ => ?_
      rw [putsInside_nil]
      exact ⟨fun _ => Nat.zero_le _, fun _ => runsInside_zero _ _⟩
  | name hj hx _ ih =>
      rw [runsInside_name_colon hj, putsInside_cons hready]
      refine and_congr_right fun _ => forall_congr' fun f' => forall_congr' fun hput => ?_
      exact (hfield hx f').trans (ih (Filled.ready_field hput))
  | nameEnd hj =>
      rw [putsInside_nil]
      exact runsInside_name_end hj f
  | fieldCut hv => exact (collects_field hv (by decide)).cutInside f
  | field hv _ ih =>
      exact (collects_field hv (by decide)).puts (by decide) (by decide) hready
        (fun w temp => rfl) (fun w temp => insertParams_eq f .paramStart false temp)
        fun f' _ => (hname f').trans (ih trivial)

/-- What piles up at the end fits into `temp`; a head that is closed is followed by its line
feed, and that of a POST by the first byte of the body. -/
def Ending.Within (toks : List Tok) : Ending → Prop
  | .cut s => s.length ≤ tempSize
  | .bad s => s.length ≤ tempSize
  | .closed p rest => (grow p [lf]).length ≤ tempSize ∧
      (IsPost toks → ∀ c r, rest = lf :: c :: r → c ≠ 0 → (grow p [lf, c]).length ≤ tempSize)

/-- The reading of a memory decides whether the parser stays inside its buffers. -/
theorem HeadText.runsInside_start {data : List UInt8} {toks : List Tok} {e : Ending}
    (h : HeadText .method data toks e) (request : Request) :
    RunsInside junk (.start request) data ↔ (∀ t ∈ toks, t.Within) ∧ e.Within toks := by
  generalize hf₀ : (Parser.start request).toFilled = f₀
  have hready : f₀.Ready .method := trivial
  have hrun : RunsInside junk (.start request) data ↔ PutsInside junk toks e f₀ := by
    rw [← hf₀]
    exact h.runsInside trivial
  rw [hrun]
  refine and_congr_right fun hwithin => ?_
  obtain ⟨f, hput⟩ := h.exists_putAll hready fun t ht => (hwithin t ht).fits
  have hends : (∀ f', f₀.putAll toks = .ok f' → e.EndsInside junk f') ↔ e.EndsInside junk f := by
    constructor
    · intro hall
      exact hall f hput
    · intro hend f' hf'
      rw [hput] at hf'
      cases hf'
      exact hend
  rw [hends]
  cases e with
  | cut s | bad s => rfl
  | closed p rest =>
      obtain ⟨r, rfl⟩ := h.exists_closed
      show p.length ≤ tempSize ∧ RunsInside junk ⟨f, .bodyStart, p ≠ [], p⟩ (lf :: r) ↔ _
      rw [runsInside_closed, h.method_eq_iff hput]
      constructor
      · rintro ⟨-, hlen, hbody⟩
        refine ⟨hlen, fun hpost c r' hr hc => ?_⟩
        obtain ⟨-, rfl⟩ := List.cons.inj hr
        exact hbody hpost c r' rfl hc
      · rintro ⟨hlen, hbody⟩
        refine ⟨(length_le_length_grow p [lf]).trans hlen, hlen, fun hpost c r' hr hc => ?_⟩
        exact hbody hpost c r' (congrArg (lf :: ·) hr) hc

/-- **The parser stays inside its buffers exactly on texts that fit.**  For every memory with a
NUL: no round writes behind `temp` or copies more than an array has room for, if and only if
the texts that are read, and what piles up behind the last of them, are short enough. -/
theorem runsInside_iff (junk : ℕ → PartJunk) (request : Request) {data : List UInt8}
    (h : (0 : UInt8) ∈ data) : RunsInside junk (.start request) data ↔
      ∃ toks e, HeadText .method data toks e ∧ (∀ t ∈ toks, t.Within) ∧ e.Within toks := by
  constructor
  · intro hrun
    obtain ⟨toks, e, hread⟩ := exists_headText .method data h
    exact ⟨toks, e, hread, (hread.runsInside_start request).mp hrun⟩
  · rintro ⟨toks, e, hread, hwithin⟩
    exact (hread.runsInside_start request).mpr hwithin

/-- The small POST stays inside. -/
theorem runsInside_smallPost :
    RunsInside (fun _ => .zero) (.start (reqParseInit .zero)) (smallPost.render ++ [0]) :=
  (runsInside_iff _ _ (by simp)).mpr ⟨_, _, headText_render smallPost [0], by decide,
    Nat.zero_le _, fun _ _ _ _ _ => Nat.zero_le _⟩

/-- `POSTS / HTTP/1.1`: the method and its NUL are six bytes, the array has five. -/
theorem not_runsInside_method :
    ¬∀ (junk : ℕ → PartJunk) (request : Request) (data : List UInt8), (0 : UInt8) ∈ data →
      RunsInside junk (.start request) data := by
  intro h
  obtain ⟨toks, e, hrest⟩ := exists_headText .path (bytes "/ HTTP/1.1\r\n\r\n" ++ [0]) (by decide)
  have hread : HeadText .method (bytes "POSTS / HTTP/1.1\r\n\r\n" ++ [0])
      (⟨.method, bytes "POSTS"⟩ :: toks) e :=
    .method (s := bytes "OSTS") (Or.inr rfl) ⟨by decide, by decide⟩ hrest
  have hrun := h (fun _ => .zero) (reqParseInit .zero)
    (bytes "POSTS / HTTP/1.1\r\n\r\n" ++ [0]) (by decide)
  have hwithin := ((hread.runsInside_start (reqParseInit .zero)).mp hrun).1 _ List.mem_cons_self
  exact absurd hwithin (by decide)

end

/-! ## Runs over tokens -/

section
variable {junk : ℕ → PartJunk}

theorem parserStep_unique {s t u : Parser × List UInt8} {c : UInt8} (h : ParserStep junk s c t)
    (h' : ParserStep junk s c u) : t = u := by
  obtain ⟨hread, -, hround, -⟩ := h
  obtain ⟨hread', -, hround', -⟩ := h'
  have hrest : t.2 = u.2 := (List.cons.inj (hread.symm.trans hread')).2
  rw [hrest, hround'] at hround
  exact Prod.ext (Except.ok.inj hround).symm hrest

/-- The loop goes on where a run has come to. -/
theorem reqParseLoop_steps {s t : Parser × List UInt8} {cs : List UInt8}
    (h : Steps (ParserStep junk) s cs t) :
    reqParseLoop junk .start s.2 s.1 = reqParseLoop junk .start t.2 t.1 := by
  induction h with
  | nil => rfl
  | snoc _ hlast ih =>
      obtain ⟨hread, hc, hround, hstart⟩ := hlast
      rw [ih, hread, reqParseLoop_cons hc, hround, ok_bind, afterRound, if_neg hstart]

/-- A text that is taken up goes to `temp`, byte by byte. -/
theorem steps_take {s tail : List UInt8} {m : Parser} (hs : IsText s) (hstart : m.state ≠ .start)
    (hlen : (m.temp ++ s).length ≤ tempSize)
    (h : ∀ a c b, s = a ++ c :: b → ∀ w temp, w = m.write ∨ w = true →
      Parser.switch junk { m with write := w, temp := temp } c (b ++ tail)
        = .ok { m with write := true, temp := temp }) :
    Steps (ParserStep junk) (m, s ++ tail) s
      ({ m with write := if s = [] then m.write else true, temp := m.temp ++ s }, tail) := by
  induction s generalizing m with
  | nil =>
      rw [List.append_nil]
      exact .nil
  | cons c s ih =>
      obtain ⟨hc, hs⟩ := isText_cons.mp hs
      have hcons : m.temp ++ c :: s = (m.temp ++ [c]) ++ s := by simp
      have hle : (m.temp ++ [c]).length ≤ tempSize := by
        rw [hcons, List.length_append] at hlen
        omega
      have ht : m.temp.length ≤ tempSize := by
        rw [List.length_append] at hle
        omega
      have hround : m.round junk c (s ++ tail)
          = .ok { m with write := true, temp := m.temp ++ [c] } := by
        rw [round_take (h [] c s rfl m.write m.temp (Or.inl rfl)) rfl ht, pile_eq_ok hle]
        rfl
      have hrest := ih (m := { m with write := true, temp := m.temp ++ [c] }) hs hstart
        (by rw [← hcons]; exact hlen)
        (by
          rintro a d b rfl w temp hw
          exact h (c :: a) d b rfl w temp (Or.inr (by simpa using hw)))
      have hend : (if s = [] then true else true) = true := ite_self true
      simp only [hend, ← hcons] at hrest
      rw [if_neg (List.cons_ne_nil c s)]
      exact Steps.cons ⟨rfl, hc, hround, hstart⟩ hrest

/-- A part is taken up round by round. -/
theorem Collects.steps {part : HeadPart} {text tail : List UInt8}
    (h : Collects junk part text tail) (hlen : text.length ≤ tempSize) (f : Filled) :
    ∃ w, Steps (ParserStep junk) (Parser.at part f, text ++ tail) text
      (⟨f, part.reading, w, text⟩, tail) := by
  have hstart : part.reading ≠ .start := part.reading_ne (Or.inl rfl)
  cases text with
  | nil =>
      refine ⟨false, ?_⟩
      rw [h.reading rfl]
      exact .nil
  | cons c s =>
      obtain ⟨hc, hs⟩ := isText_cons.mp h.isText
      have hfirst := h.switch [] c s rfl f false [] (Or.inl rfl)
      rw [if_pos rfl] at hfirst
      have hround : Parser.round junk (Parser.at part f) c (s ++ tail)
          = .ok ⟨f, part.reading, true, [c]⟩ := by
        rw [Parser.at, round_take hfirst rfl (Nat.zero_le _), List.nil_append,
          pile_eq_ok (by rw [List.length_singleton]; decide)]
        rfl
      have htake : Steps (ParserStep junk) (⟨f, part.reading, true, [c]⟩, s ++ tail) s _ :=
        steps_take hs hstart (by simpa using hlen) (by
          rintro a d b rfl w temp hw
          obtain rfl : w = true := by simpa using hw
          have hstep := h.switch (c :: a) d b rfl f true temp (Or.inr rfl)
          rwa [if_neg (List.cons_ne_nil c a)] at hstep)
      have hend : (if s = [] then true else true) = true := ite_self true
      simp only [hend, List.singleton_append] at htake
      exact ⟨true, Steps.cons ⟨rfl, hc, hround, hstart⟩ htake⟩

/-- A token and its delimiter are put. -/
theorem Collects.steps_token {part : HeadPart} {next : HttpParseState} {text rest : List UInt8}
    {d : UInt8} (h : Collects junk part text (d :: rest)) (hd : d ≠ 0) (hnext : next ≠ .start)
    {f f' : Filled} (hput : f.put ⟨part, text⟩ = .ok f')
    (hswitch : ∀ w temp, Parser.switch junk ⟨f, part.reading, w, temp⟩ d rest
      = (f.storeTemp part temp).map fun f => ⟨f, next, false, temp⟩) :
    Steps (ParserStep junk) (Parser.at part f, text ++ d :: rest) (text ++ [d])
      (⟨f', next, false, []⟩, rest) := by
  have hlen : text.length ≤ tempSize := (Filled.put_eq_ok hput).1.trans (by decide)
  obtain ⟨w, hw⟩ := h.steps hlen f
  have hstore : f.storeTemp part text = .ok f' := by
    rw [Filled.put, pile_eq_ok hlen, ok_bind] at hput
    exact hput
  have hswitch' := hswitch w text
  rw [hstore, ok_map] at hswitch'
  exact hw.snoc ⟨rfl, hd, round_drop hswitch' rfl, hnext⟩

end

/-! ## What is copied into the body -/

/-- `PARSE_BODY` at `p`: at a NUL the loop has ended, and nothing is copied. -/
def copyAtBody (request : Request) (p : List UInt8) : Except Fault Request := do
  let c ← peek p
  if c = 0 then .ok request else copyBody request p

/-- The bytes that `memcpy` copies there. -/
def copiedBytes (request : Request) (p : List UInt8) : List UInt8 :=
  if p.head? = some 0 then []
  else match hashmapGet request.params (bytes "Content-Length") with
    | some cls => if atoi cls ≤ httpBodyMax then p.take (atoi cls).toNat else []
    | none => []

/-- The copy goes without a fault, copies no more than the `received` bytes that arrived, and
`body.length` is the number of the bytes copied. -/
def BodyCopied (request : Request) (p : List UInt8) (received : ℕ) : Prop :=
  ∃ request', copyAtBody request p = .ok request' ∧ (copiedBytes request p).length ≤ received ∧
    request'.bodyLength = (copiedBytes request p).length

section
variable {junk : ℕ → PartJunk}

/-- The length of the body is left alone. -/
def SameLength (f f' : Filled) : Prop := f'.request.bodyLength = f.request.bodyLength

theorem sameLength_copyTemp {f : Filled} {st : HttpParseState} {w : Bool} {temp : List UInt8}
    {off : ℕ} {m' : Parser} (h : Parser.copyTemp ⟨f, st, w, temp⟩ off = .ok m') :
    SameLength f m'.toFilled := by
  obtain ⟨s, -, h⟩ := exists_of_bind h
  obtain ⟨text, -, h⟩ := exists_of_bind h
  cases h
  rfl

theorem sameLength_insertQuery {f : Filled} {st : HttpParseState} {w : Bool} {temp : List UInt8}
    {m' : Parser} (h : Parser.insertQuery ⟨f, st, w, temp⟩ = .ok m') :
    SameLength f m'.toFilled := by
  obtain ⟨value, -, h⟩ := exists_of_bind h
  cases hq : f.queryTmp <;> simp only [hq] at h <;> cases h
  rfl

theorem sameLength_insertParams {f : Filled} {st : HttpParseState} {w : Bool}
    {temp : List UInt8} {m' : Parser} (h : Parser.insertParams ⟨f, st, w, temp⟩ = .ok m') :
    SameLength f m'.toFilled := by
  obtain ⟨value, -, h⟩ := exists_of_bind h
  cases hp : f.paramsTmp <;> simp only [hp] at h <;> cases h
  rfl

/-- Only the rounds that leave the loop touch the length of the body. -/
theorem switch_sameLength {m m' : Parser} {c : UInt8} {rest : List UInt8}
    (h : m.switch junk c rest = .ok m') (hstart : m'.state ≠ .start) :
    SameLength m.toFilled m'.toFilled := by
  unfold Parser.switch at h
  cases hst : m.state <;> rw [hst] at h <;> simp only at h
  case start | pathStart =>
      split at h <;> cases h <;> rfl
  case method =>
      split at h
      · exact sameLength_copyTemp h
      · cases h
        rfl
  case path =>
      split at h
      · exact sameLength_copyTemp h
      · split at h
        · exact sameLength_copyTemp h
        · cases h
          rfl
  case queryStart =>
      split at h
      · obtain ⟨key, -, h⟩ := exists_of_bind h
        obtain ⟨copy, -, h⟩ := exists_of_bind h
        obtain ⟨d, -, h⟩ := exists_of_bind h
        cases h
        rfl
      · obtain ⟨d, -, h⟩ := exists_of_bind h
        split at h <;> cases h <;> rfl
  case queryTemp =>
      split at h
      · exact sameLength_insertQuery h
      · split at h
        · exact sameLength_insertQuery h
        · cases h
          rfl
  case pvStart =>
      split at h
      · exact sameLength_copyTemp h
      · cases h
        rfl
  case pvTemp =>
      obtain ⟨r, -, h⟩ := exists_of_bind h
      split at h
      · exact sameLength_copyTemp h
      · cases h
        rfl
  case param1 =>
      split at h
      · obtain ⟨key, -, h⟩ := exists_of_bind h
        cases h
        by_cases hup : Ascii.isUpper c <;> simp [SameLength, hup]
      · obtain ⟨r, -, h⟩ := exists_of_bind h
        split at h <;> cases h <;> by_cases hup : Ascii.isUpper c <;> simp [SameLength, hup]
  case param3 =>
      obtain ⟨r, -, h⟩ := exists_of_bind h
      split at h
      · exact sameLength_insertParams h
      · cases h
        rfl
  case bodyStart =>
      split at h
      · cases h
        rfl
      · cases h
        exact absurd rfl hstart
  case body =>
      obtain ⟨request, -, h⟩ := exists_of_bind h
      obtain ⟨request', -, h⟩ := exists_of_bind h
      cases h
      exact absurd rfl hstart
  all_goals
    cases h
    rfl

theorem round_sameLength {m m' : Parser} {c : UInt8} {rest : List UInt8}
    (h : m.round junk c rest = .ok m') (hstart : m'.state ≠ .start) :
    SameLength m.toFilled m'.toFilled := by
  obtain ⟨m₁, hswitch, hstore⟩ := exists_of_bind h
  rw [Parser.state_store hstore] at hstart
  have hsame : m'.toFilled = m₁.toFilled := by
    unfold Parser.store at hstore
    split at hstore
    · split at hstore
      · cases hstore
        rfl
      · cases hstore
    · cases hstore
      rfl
  rw [hsame]
  exact switch_sameLength hswitch hstart

/-- A run that has not left the loop has read a text, and left the length of the body alone. -/
theorem steps_sameLength {s t : Parser × List UInt8} {cs : List UInt8}
    (h : Steps (ParserStep junk) s cs t) :
    s.2 = cs ++ t.2 ∧ IsText cs ∧ SameLength s.1.toFilled t.1.toFilled := by
  induction h with
  | nil => exact ⟨rfl, by simp [IsText], rfl⟩
  | snoc _ hlast ih =>
      obtain ⟨hsplit, htext, hsame⟩ := ih
      obtain ⟨hread, hc, hround, hstart⟩ := hlast
      refine ⟨?_, ?_, ?_⟩
      · rw [hsplit, hread, List.append_assoc, List.singleton_append]
      · exact isText_append.mpr ⟨htext, isText_cons.mpr ⟨hc, by simp [IsText]⟩⟩
      · exact (round_sameLength hround hstart).trans hsame

/-- Where nothing is copied the length must be zero before. -/
theorem bodyCopied_none {request : Request} {p : List UInt8} {n : ℕ}
    (hrun : copyAtBody request p = .ok request) (hnone : copiedBytes request p = []) :
    BodyCopied request p n ↔ request.bodyLength = 0 := by
  constructor
  · rintro ⟨request', hrun', -, hlen⟩
    rw [hrun] at hrun'
    cases hrun'
    rw [hlen, hnone, List.length_nil]
  · intro hzero
    refine ⟨request, hrun, ?_, ?_⟩
    · rw [hnone]
      exact Nat.zero_le n
    · rw [hnone, hzero, List.length_nil]

/-- The body at a place where the parser has come to it, with `n` bytes that arrived. -/
theorem bodyCopied_iff {request : Request} {p cls : List UInt8} {n : ℕ} (hp : p ≠ [])
    (hcls : hashmapGet request.params (bytes "Content-Length") = some cls) (hn : n ≤ p.length) :
    BodyCopied request p n ↔
      if p.head? = some 0 ∨ httpBodyMax < atoi cls then request.bodyLength = 0
      else 0 ≤ atoi cls ∧ atoi cls ≤ n := by
  obtain ⟨c, rest, rfl⟩ := List.exists_cons_of_ne_nil hp
  have hhead : (c :: rest).head? = some 0 ↔ c = 0 := by simp
  by_cases hc : c = 0
  · rw [if_pos (Or.inl (hhead.mpr hc))]
    exact bodyCopied_none (if_pos hc) (if_pos (hhead.mpr hc))
  have hrun : copyAtBody request (c :: rest) = copyBody request (c :: rest) := if_neg hc
  have hbytes : copiedBytes request (c :: rest)
      = if atoi cls ≤ httpBodyMax then (c :: rest).take (atoi cls).toNat else [] := by
    rw [copiedBytes, if_neg (fun h => hc (hhead.mp h)), hcls]
  have hcopy : copyBody request (c :: rest) = if atoi cls ≤ httpBodyMax then
      if atoi cls < 0 then .error .size
      else if (c :: rest).length < (atoi cls).toNat then .error .read
      else .ok { request with
        bodyLength := (atoi cls).toNat
        body := .obj ((c :: rest).take (atoi cls).toNat ++ [0]) }
      else .ok request := by
    rw [copyBody, hcls]
  by_cases hmax : atoi cls ≤ httpBodyMax
  swap
  · rw [if_neg hmax] at hbytes hcopy
    rw [if_pos (Or.inr (Int.lt_of_not_ge hmax))]
    exact bodyCopied_none (hrun.trans hcopy) hbytes
  rw [if_pos hmax] at hbytes hcopy
  rw [if_neg (fun h => h.elim (fun h => hc (hhead.mp h)) (by omega))]
  constructor
  · rintro ⟨request', hok, hle, -⟩
    rw [hrun, hcopy] at hok
    by_cases hneg : atoi cls < 0
    · rw [if_pos hneg] at hok
      cases hok
    rw [if_neg hneg] at hok
    by_cases hlen : (c :: rest).length < (atoi cls).toNat
    · rw [if_pos hlen] at hok
      cases hok
    rw [hbytes, List.length_take] at hle
    omega
  · rintro ⟨hpos, hle⟩
    rw [if_neg (by omega), if_neg (by omega)] at hcopy
    have htake : ((c :: rest).take (atoi cls).toNat).length = (atoi cls).toNat := by
      rw [List.length_take]
      omega
    refine ⟨_, hrun.trans hcopy, ?_, ?_⟩
    · rw [hbytes, htake]
      omega
    · rw [hbytes, htake]

/-- **`Content-Length` is trusted.**  Wherever a run stands behind the header `Content-Length`, and
so wherever it comes to the body of a POST with it, what would be copied is what arrived, and
`body.length` counts it, if and only if the number in the header is not negative and not more
than what arrived; where nothing is copied, at a NUL or with a number over `HTTP_BODY_MAX`, if
and only if the length was zero before. -/
theorem bodyCopied_run (junk : ℕ → PartJunk) (request : Request)
    {data received old cs cls : List UInt8} {m : Parser} (h0 : (0 : UInt8) ∈ data)
    (hrun : Steps (ParserStep junk) (.start request, data) cs (m, received ++ old))
    (hcls : hashmapGet m.request.params (bytes "Content-Length") = some cls) :
    BodyCopied m.request (received ++ old) received.length ↔
      if (received ++ old).head? = some 0 ∨ httpBodyMax < atoi cls then request.bodyLength = 0
      else 0 ≤ atoi cls ∧ atoi cls ≤ received.length := by
  obtain ⟨hsplit, htext, hsame⟩ := steps_sameLength hrun
  have hsplit : data = cs ++ (received ++ old) := hsplit
  have hne : received ++ old ≠ [] := by
    intro hnil
    rw [hsplit, hnil, List.append_nil] at h0
    exact htext h0
  have hlen : received.length ≤ (received ++ old).length := by
    rw [List.length_append]
    exact Nat.le_add_right _ _
  have hsame : m.request.bodyLength = request.bodyLength := hsame
  rw [bodyCopied_iff hne hcls hlen, hsame]

/-- A run that enters the body goes there round by round. -/
theorem steps_of_enters {data rest : List UInt8} {m n : Parser} (hopen : m.state ≠ .bodyStart)
    (hbody : m.state ≠ .body)
    (h : reqParseLoop junk .bodyStart data m = .ok ⟨true, n, rest⟩) :
    ∃ cs, Steps (ParserStep junk) (m, data) cs (n, rest) := by
  induction data generalizing m with
  | nil => cases h
  | cons c data ih =>
      by_cases hc : c = 0
      · subst hc
        rw [reqParseLoop_zero] at h
        cases h
      · rw [reqParseLoop_cons hc] at h
        obtain ⟨m', hround, h⟩ := exists_of_bind h
        obtain ⟨hstart, hbody'⟩ := round_state hround hopen hbody
        have hstep : ParserStep junk (m, c :: data) c (m', data) := ⟨rfl, hc, hround, hstart⟩
        unfold afterRound at h
        by_cases henter : m'.state = .bodyStart
        · rw [if_pos henter] at h
          cases h
          exact ⟨[c], Steps.cons hstep .nil⟩
        · rw [if_neg henter] at h
          obtain ⟨cs, hrest⟩ := ih henter hbody' h
          exact ⟨c :: cs, Steps.cons hstep hrest⟩

/-- A POST whose texts fit comes to its body, with the headers that were read. -/
theorem HeadText.reaches_body {data p rest : List UInt8} {toks : List Tok}
    (h : HeadText .method data toks (.closed p (lf :: rest))) (hfits : ∀ t ∈ toks, t.Fits)
    (hp : (grow p [lf]).length ≤ tempSize) (hpost : IsPost toks) (request : Request) :
    ∃ cs m, Steps (ParserStep junk) (.start request, data) cs (m, rest) ∧ m.state = .body ∧
      m.request.params = insertAll request.params (headersOf toks) := by
  have hpile : p.length ≤ tempSize := (length_le_length_grow p [lf]).trans hp
  obtain ⟨k, hleft, hk⟩ := @reqParseLoop_headText junk _ ample (Or.inr rfl) _ _ _ _ h
  obtain ⟨f, hput⟩ : ∃ f, (Parser.start request).toFilled.putAll toks = .ok f :=
    h.exists_putAll trivial hfits
  have hrun : reqParseLoop junk .bodyStart data (.start request)
      = .ok ⟨true, ⟨f, .bodyStart, p ≠ [], p⟩, lf :: rest⟩ := by
    have hloop : reqParseLoop junk .bodyStart data (.start request) = _ :=
      hk (Parser.start request).toFilled
    rw [hput, ok_bind, hleft f, pile_eq_ok hpile] at hloop
    exact hloop
  obtain ⟨cs, hsteps⟩ := steps_of_enters (by simp [Parser.start]) (by simp [Parser.start]) hrun
  have hround : Parser.round junk ⟨f, .bodyStart, p ≠ [], p⟩ lf rest
      = .ok ⟨f, .body, grow p [lf] ≠ [], grow p [lf]⟩ := by
    have hswitch : Parser.switch junk ⟨f, .bodyStart, p ≠ [], p⟩ lf rest
        = .ok ⟨f, .body, p ≠ [], p⟩ := if_pos ((h.method_eq_iff hput).mpr hpost)
    rw [Parser.round, hswitch, ok_bind, store_left f .body lf hpile, pile_eq_ok hp]
    rfl
  exact ⟨cs ++ [lf], _, hsteps.snoc ⟨rfl, by decide, hround, by simp⟩, rfl,
    (Filled.putAll_put hput).params⟩

/-- The small POST has two bytes of body, and says so. -/
theorem bodyCopied_run_smallPost : ∃ m : Parser, m.state = .body ∧
    BodyCopied m.request (bytes "hi" ++ [0]) 2 := by
  have hwithin : ∀ t ∈ smallPost.toks, t.Within := by decide
  obtain ⟨cs, m, hrun, hbody, hparams⟩ :=
    @HeadText.reaches_body (fun _ => .zero) _ _ _ _ (headText_render smallPost [0])
      (fun t ht => (hwithin t ht).fits) (Nat.zero_le _) (by decide) (reqParseInit .zero)
  have hcls : hashmapGet m.request.params (bytes "Content-Length") = some (bytes "2") := by
    rw [hparams]
    decide
  exact ⟨m, hbody, (bodyCopied_run _ _ (by simp) hrun hcls).mpr (by decide)⟩

/-- `Content-Length: 9` with the two bytes `ab`: what lies in the buffer behind them is copied
too. -/
theorem not_bodyCopied_long :
    ¬∀ (junk : ℕ → PartJunk) (request : Request) (data received old cs cls : List UInt8)
      (m : Parser), (0 : UInt8) ∈ data →
      Steps (ParserStep junk) (.start request, data) cs (m, received ++ old) →
      m.state = .body → hashmapGet m.request.params (bytes "Content-Length") = some cls →
      BodyCopied m.request (received ++ old) received.length := by
  intro h
  have hheaders : ∀ p ∈ [(⟨bytes "Content-Length", bytes "9"⟩ : TextPair)], IsHeader p := by
    intro p hp
    rw [List.mem_singleton.mp hp]
    exact ⟨⟨67, bytes "ontent-Length", by decide, by decide⟩, ⟨by decide, by decide⟩,
      by decide, by decide, ⟨by decide, by decide⟩, by decide⟩
  let toks : List Tok := [⟨.method, bytes "POST"⟩, ⟨.path, bytes "/"⟩, ⟨.protocol, bytes "HTTP"⟩,
    ⟨.version, bytes "1.1"⟩] ++ headerToks [⟨bytes "Content-Length", bytes "9"⟩]
  have hwithin : ∀ t ∈ toks, t.Within := by decide
  have hread : HeadText .method
      (bytes "POST / HTTP/1.1\r\nContent-Length: 9\r\n\r\nab" ++ List.replicate 20 0) toks
      (.closed [] (lf :: (bytes "ab" ++ List.replicate 20 0))) :=
    .method (s := bytes "OST") (Or.inr rfl) ⟨by decide, by decide⟩
      (.pathSpace (s := []) ⟨by decide, by decide⟩ (by decide)
        (.protocol (p := bytes "HTTP") ⟨by decide, by decide⟩
          (.version (v := bytes "1.1") (isLine_of_without ⟨by decide, by decide⟩)
            (headText_headers hheaders _))))
  obtain ⟨cs, m, hrun, hbody, hparams⟩ :=
    @HeadText.reaches_body (fun _ => .zero) _ _ _ _ hread (fun t ht => (hwithin t ht).fits)
      (Nat.zero_le _) (by decide) (reqParseInit .zero)
  have hcls : hashmapGet m.request.params (bytes "Content-Length") = some (bytes "9") := by
    rw [hparams]
    decide
  have hcopied := h _ _ _ _ _ _ _ _ (by decide) hrun hbody hcls
  rw [bodyCopied_iff (by simp) hcls (by decide), if_neg (by decide)] at hcopied
  exact absurd hcopied.2 (by decide)

end
