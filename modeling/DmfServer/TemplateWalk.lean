/-
# Walking over a template

Between two pieces the walk of `parse_context` is at rest (`Scan.Rests`): it looks for
the next bracket, the first 64 bytes of `temp` are clear, `parsed_str` and the page are
strings.  `Walks` follows it over a text: a literal text goes to the page, and the text
of a block to `temp`, up to the sign and the bracket that close it.
-/
import DmfServer.TemplatePieces

open CMem

namespace Template

/-! ## The page -/

/-- `result` holds the page so far, with NULs behind it. -/
structure Scan.Shows (s : Scan) (out : List UInt8) : Prop where
  text : IsText out
  pos : s.resPos = out.length
  room : out.length ≤ templateResultSize
  result : s.result.bytes = out ++ List.replicate (templateResultSize - out.length) 0

theorem Scan.Shows.str {s : Scan} {out : List UInt8} (h : s.Shows out) :
    s.result.str 0 = out := by
  unfold Block.str
  rw [List.drop_zero, h.result, cstr_append h.text]
  cases templateResultSize - out.length <;> simp [List.replicate, cstr]

/-- Bytes written behind the page, with NULs behind them. -/
theorem Scan.Shows.poke {s : Scan} {out : List UInt8} (h : s.Shows out) {text : List UInt8}
    (htext : IsText text) {n : ℕ}
    (hroom : out.length + text.length + n ≤ templateResultSize) :
    ∃ result, s.result.poke out.length (text ++ List.replicate n 0) = .ok result ∧
      { s with result := result, resPos := out.length + text.length }.Shows (out ++ text) := by
  have hlen : (text ++ List.replicate n 0).length = text.length + n := by simp
  have hle : out.length + (text ++ List.replicate n 0).length ≤ templateResultSize := by omega
  obtain ⟨result, hpoke, hbytes⟩ := Block.poke_eq_ok (b := s.result) hle
  refine ⟨result, hpoke, isText_append.mpr ⟨h.text, htext⟩, by simp,
    by rw [List.length_append]; omega, ?_⟩
  show result.bytes = _
  rw [hbytes, h.result, List.take_left, hlen, ← List.drop_drop, List.drop_left,
    List.drop_replicate, List.append_assoc, List.append_assoc, List.append_assoc,
    List.replicate_append_replicate]
  congr 3
  rw [List.length_append]
  omega

/-- `strcat` puts a text behind the page, or has no room for it. -/
theorem Scan.Shows.cat {s : Scan} {out : List UInt8} (h : s.Shows out) {text : List UInt8}
    (htext : IsText text) :
    (∃ result, s.cat text = .ok { s with result := result, resPos := out.length + text.length } ∧
      { s with result := result, resPos := out.length + text.length }.Shows (out ++ text)) ∨
    (s.cat text = .error .write ∧ templateResultSize ≤ out.length + text.length) := by
  by_cases hroom : out.length + text.length + 1 ≤ templateResultSize
  · obtain ⟨result, hpoke, hshows⟩ := h.poke htext hroom
    have hcat : s.result.strcat 0 text = .ok result := by
      unfold Block.strcat
      rw [h.str, Nat.zero_add]
      exact hpoke
    refine Or.inl ⟨result, ?_, hshows⟩
    unfold Scan.cat
    rw [hcat, ok_bind, h.pos]
  · refine Or.inr ⟨?_, by omega⟩
    unfold Scan.cat Block.strcat
    rw [h.str, Block.poke_eq_error (by
      simp only [List.length_append, List.length_singleton]
      omega)]
    rfl

/-! ## The scratch buffer -/

/-- `temp` between two blocks: the first 64 bytes are clear, and so is the last. -/
structure Tidy (temp : List UInt8) : Prop where
  length : temp.length = scratchSize
  clear : temp.take 64 = List.replicate 64 0
  last : ∃ front, temp = front ++ [0]

/-- The walk between two pieces. -/
structure Scan.Rests (s : Scan) (temp parsed out : List UInt8) : Prop where
  state : s.state = .s0
  writeTemp : s.writeTemp = false
  tempPos : s.tempPos = 0
  temp_eq : s.temp.bytes = temp
  tidy : Tidy temp
  parsed_eq : s.parsedStr.str 0 = parsed
  parsedRoom : parsed.length < scratchSize
  shows : s.Shows out

/-- The walk looks for the next bracket, and `out` is on the page. -/
structure Scan.AtText (s : Scan) (out : List UInt8) : Prop where
  state : s.state = .s0
  writeTemp : s.writeTemp = false
  tempPos : s.tempPos = 0
  shows : s.Shows out

theorem Scan.Rests.atText {s : Scan} {temp parsed out : List UInt8} (h : s.Rests temp parsed out) :
    s.AtText out :=
  ⟨h.state, h.writeTemp, h.tempPos, h.shows⟩

/-- The walk begins between two pieces. -/
theorem rests_start : Scan.start.Rests (List.replicate scratchSize 0) [] [] where
  state := rfl
  writeTemp := rfl
  tempPos := rfl
  temp_eq := rfl
  tidy :=
    { length := List.length_replicate
      clear := by rw [List.take_replicate]; rfl
      last := ⟨List.replicate 1023 0, List.replicate_succ'⟩ }
  parsed_eq := Block.str_zero 0
  parsedRoom := by decide
  shows := ⟨List.not_mem_nil, rfl, Nat.zero_le _, rfl⟩

/-! ## Walking over a text -/

/-- With `rest` behind it, `text` takes the walk from `s` to `s'`. -/
def Walks (kv : List Kvmap) (n : ℤ) (s : Scan) (text rest : List UInt8) (s' : Scan) : Prop :=
  parseLoop kv n (text ++ rest) s = parseLoop kv n rest s'

section
variable {kv : List Kvmap} {n : ℤ}

theorem Walks.append {s s₁ s₂ : Scan} {t₁ t₂ rest : List UInt8}
    (h₁ : Walks kv n s t₁ (t₂ ++ rest) s₁) (h₂ : Walks kv n s₁ t₂ rest s₂) :
    Walks kv n s (t₁ ++ t₂) rest s₂ := by
  unfold Walks at *
  rw [List.append_assoc, h₁, h₂]

/-- One round over a byte that is not the end. -/
theorem parseLoop_cons {c d : UInt8} (hc : c ≠ 0) (rest : List UInt8) (s : Scan) :
    parseLoop kv n (c :: d :: rest) s
      = s.step kv n c d >>= fun s => parseLoop kv n (d :: rest) s := by
  rw [parseLoop, if_neg hc]
  rfl

theorem walks_byte {s s' : Scan} {c d : UInt8} (hc : c ≠ 0) {rest : List UInt8}
    (hstep : s.step kv n c d = .ok s') : Walks kv n s [c] (d :: rest) s' := by
  unfold Walks
  rw [List.singleton_append, parseLoop_cons hc, hstep, ok_bind]

/-- A byte of a literal text goes to the page, if the page has room for it. -/
theorem step_literal (kv : List Kvmap) {s : Scan} {out : List UInt8} (h : s.AtText out)
    {c d : UInt8} (hc : c ≠ 0) (hhash : ¬(c = opening ∧ d = hash))
    (hat : ¬(c = opening ∧ d = atSign)) :
    (out.length + 1 ≤ templateResultSize ∧ ∃ s', s.step kv n c d = .ok s' ∧
      s'.AtText (out ++ [c]) ∧ s'.temp = s.temp ∧ s'.parsedStr = s.parsedStr) ∨
    (templateResultSize < out.length + 1 ∧ ∃ e, s.step kv n c d = .error e) := by
  have htext : IsText [c] := by
    unfold IsText
    rw [List.mem_singleton]
    exact Ne.symm hc
  have hswitch : s.switch kv n c d = .ok { s with writeRes := true } := by
    unfold Scan.switch
    rw [h.state]
    simp only [if_neg hhash, if_neg hat]
  have htemp : Scan.storeTemp { s with writeRes := true } c = .ok { s with writeRes := true } := by
    unfold Scan.storeTemp
    simp [h.writeTemp, h.tempPos]
  have hstep : s.step kv n c d = s.result.poke out.length [c] >>= fun result =>
      .ok { s with writeRes := true, result := result, resPos := out.length + 1 } := by
    unfold Scan.step Scan.storeResult
    rw [hswitch, ok_bind, htemp, ok_bind, ← h.shows.pos]
    rfl
  rw [hstep]
  by_cases hroom : out.length + 1 ≤ templateResultSize
  · obtain ⟨result, hpoke, hshows⟩ := h.shows.poke htext (n := 0) hroom
    rw [List.replicate_zero, List.append_nil] at hpoke
    refine Or.inl ⟨hroom, { s with writeRes := true, result := result, resPos := out.length + 1 },
      by rw [hpoke, ok_bind], ⟨h.state, h.writeTemp, h.tempPos, ?_⟩, rfl, rfl⟩
    exact ⟨hshows.text, hshows.pos, hshows.room, hshows.result⟩
  · refine Or.inr ⟨by omega, .write, ?_⟩
    rw [Block.poke_eq_error (by rw [List.length_singleton]; omega), error_bind]

variable (kv n) in
/-- A literal text goes to the page, if the page has room for it. -/
theorem literal_cases {s : Scan} {out : List UInt8} (h : s.AtText out)
    {text : List UInt8} (htext : IsText text) {d : UInt8}
    (hhash : ¬[opening, hash] <:+: text ++ [d]) (hat : ¬[opening, atSign] <:+: text ++ [d])
    (rest : List UInt8) :
    (out.length + text.length ≤ templateResultSize ∧ ∃ s', Walks kv n s text (d :: rest) s' ∧
      s'.AtText (out ++ text) ∧ s'.temp = s.temp ∧ s'.parsedStr = s.parsedStr) ∨
    (templateResultSize < out.length + text.length ∧
      ∃ e, parseLoop kv n (text ++ d :: rest) s = .error e) := by
  induction text generalizing s out with
  | nil => exact Or.inl ⟨h.shows.room, s, rfl, by rwa [List.append_nil], rfl, rfl⟩
  | cons c text ih =>
      have hc : c ≠ 0 := fun h0 => htext (h0 ▸ List.mem_cons_self)
      -- the byte behind `c`, in the text or behind it
      obtain ⟨e, tail, htail⟩ : ∃ e tail, text ++ [d] = e :: tail :=
        List.exists_cons_of_ne_nil (by simp)
      rw [List.cons_append, htail] at hhash hat
      have hpair : ∀ a b : UInt8, ¬[a, b] <:+: c :: e :: tail → ¬(c = a ∧ e = b) := by
        rintro a b hinfix ⟨rfl, rfl⟩
        exact hinfix ⟨[], tail, rfl⟩
      have hbehind : text ++ d :: rest = e :: (tail ++ rest) := by
        rw [show text ++ d :: rest = text ++ [d] ++ rest by simp, htail, List.cons_append]
      rw [List.length_cons]
      rcases step_literal (n := n) kv h hc (hpair _ _ hhash) (hpair _ _ hat) with
        ⟨-, s₁, hstep, hat₁, htemp₁, hparsed₁⟩ | ⟨hfull, f, hstep⟩
      · have hbyte : Walks kv n s [c] (text ++ d :: rest) s₁ := by
          rw [hbehind]
          exact walks_byte hc hstep
        have hrest := ih hat₁ (fun h0 => htext (List.mem_cons_of_mem _ h0))
          (fun hinfix => hhash (htail ▸ List.infix_cons hinfix))
          (fun hinfix => hat (htail ▸ List.infix_cons hinfix))
        rw [List.length_append, List.length_singleton] at hrest
        rcases hrest with ⟨hroom, s₂, hwalk, hat₂, htemp₂, hparsed₂⟩ | ⟨hfull, f, hloop⟩
        · rw [List.append_assoc, List.singleton_append] at hat₂
          exact Or.inl ⟨by omega, s₂, hbyte.append hwalk, hat₂, htemp₂.trans htemp₁,
            hparsed₂.trans hparsed₁⟩
        · exact Or.inr ⟨by omega, f, hbyte.trans hloop⟩
      · refine Or.inr ⟨by omega, f, ?_⟩
        rw [List.cons_append, hbehind, parseLoop_cons hc, hstep, error_bind]

variable (kv n) in
/-- A literal text goes to the page. -/
theorem walks_literal {s : Scan} {temp parsed out : List UInt8} (h : s.Rests temp parsed out)
    {text : List UInt8} (htext : IsText text) {d : UInt8}
    (hhash : ¬[opening, hash] <:+: text ++ [d]) (hat : ¬[opening, atSign] <:+: text ++ [d])
    (hroom : out.length + text.length ≤ templateResultSize) (rest : List UInt8) :
    ∃ s', Walks kv n s text (d :: rest) s' ∧ s'.Rests temp parsed (out ++ text) := by
  rcases literal_cases kv n h.atText htext hhash hat rest with
    ⟨-, s', hwalk, hat', htemp, hparsed⟩ | ⟨hfull, -⟩
  · exact ⟨s', hwalk, hat'.state, hat'.writeTemp, hat'.tempPos, htemp ▸ h.temp_eq, h.tidy,
      hparsed ▸ h.parsed_eq, h.parsedRoom, hat'.shows⟩
  · exact absurd hroom (Nat.not_le.mpr hfull)

end

/-! ## The text of a block -/

/-- The two kinds of blocks: `[#name#]`, and `[@name@inner@]`. -/
inductive Kind : Type where
  | var : Kind
  | block : Kind

/-- The sign of a kind, and the states behind its bracket and behind its sign. -/
def Kind.sign : Kind → UInt8
  | .var => hash
  | .block => atSign

@[inherit_doc Kind.sign] def Kind.opened : Kind → State
  | .var => .sNeg1
  | .block => .sNeg11

@[inherit_doc Kind.sign] def Kind.state : Kind → State
  | .var => .s1
  | .block => .s2

/-- The walk inside a block. -/
def Scan.reading (s : Scan) (st : State) (w : Bool) (temp : Block scratchSize) (pos : ℕ) :
    Scan :=
  { s with state := st, writeTemp := w, temp := temp, tempPos := pos, writeRes := false }

section
variable {kv : List Kvmap} {n : ℤ}

variable (kv n) in
/-- The bracket and the sign. -/
theorem walks_open {s : Scan} {out : List UInt8} (h : s.AtText out) (k : Kind)
    {rest : List UInt8} (hrest : rest ≠ []) :
    Walks kv n s [opening, k.sign] rest (s.reading k.state false s.temp 0) := by
  obtain ⟨d, rest, rfl⟩ := List.exists_cons_of_ne_nil hrest
  have hsame : s.reading k.opened false s.temp 0
      = { s with state := k.opened, writeRes := false } := by
    unfold Scan.reading
    rw [← h.writeTemp, ← h.tempPos]
  have hfirst : s.step kv n opening k.sign = .ok (s.reading k.opened false s.temp 0) := by
    have hswitch : s.switch kv n opening k.sign = .ok (s.reading k.opened false s.temp 0) := by
      unfold Scan.switch
      rw [h.state, hsame]
      cases k <;> rfl
    unfold Scan.step
    rw [hswitch]
    rfl
  have hsecond : (s.reading k.opened false s.temp 0).step kv n k.sign d
      = .ok (s.reading k.state false s.temp 0) := by
    cases k <;> rfl
  have hbracket : Walks kv n s [opening] ([k.sign] ++ d :: rest)
      (s.reading k.opened false s.temp 0) := walks_byte (by decide) hfirst
  exact hbracket.append (walks_byte (by cases k <;> decide) hsecond)

/-- A byte of a block goes to `temp`. -/
theorem step_content (kv : List Kvmap) (s : Scan) (k : Kind) {c d : UInt8}
    (hclose : ¬(c = k.sign ∧ d = closing)) (w : Bool) (temp : Block scratchSize) {pos : ℕ}
    (hroom : pos < scratchSize) :
    ∃ temp', temp.poke pos [c] = .ok temp' ∧
      (s.reading k.state w temp pos).step kv n c d
        = .ok (s.reading k.state true temp' (pos + 1)) := by
  have hle : pos + [c].length ≤ scratchSize := hroom
  obtain ⟨temp', hpoke, -⟩ := Block.poke_eq_ok (b := temp) hle
  refine ⟨temp', hpoke, ?_⟩
  have hswitch : (s.reading k.state w temp pos).switch kv n c d
      = .ok (s.reading k.state true temp pos) := by
    cases k with
    | var => exact if_neg hclose
    | block => exact if_neg hclose
  unfold Scan.step
  rw [hswitch, ok_bind]
  have hstore : (s.reading k.state true temp pos).storeTemp c
      = .ok (s.reading k.state true temp' (pos + 1)) := by
    show (temp.poke pos [c] >>= _) = _
    rw [hpoke, ok_bind]
    rfl
  rw [hstore]
  rfl

variable (kv n) in
/-- The text of a block goes to `temp`, if `temp` has room for it. -/
theorem content_cases (s : Scan) (k : Kind) {content : List UInt8} (htext : IsText content)
    {d : UInt8} (hopen : ¬[k.sign, closing] <:+: content ++ [d]) (rest : List UInt8)
    {front old : List UInt8} (w : Bool) {temp : Block scratchSize}
    (htemp : temp.bytes = front ++ old.drop front.length) (hfront : front.length ≤ scratchSize) :
    (front.length + content.length ≤ scratchSize ∧ ∃ w' temp',
      Walks kv n (s.reading k.state w temp front.length) content (d :: rest)
        (s.reading k.state w' temp' (front ++ content).length) ∧
      temp'.bytes = front ++ content ++ old.drop (front ++ content).length) ∨
    (scratchSize < front.length + content.length ∧ ∃ e,
      parseLoop kv n (content ++ d :: rest) (s.reading k.state w temp front.length) = .error e) := by
  induction content generalizing front w temp with
  | nil =>
      exact Or.inl ⟨hfront, w, temp, by rw [List.append_nil]; rfl, by rw [List.append_nil, htemp]⟩
  | cons c content ih =>
      have hc : c ≠ 0 := fun h0 => htext (h0 ▸ List.mem_cons_self)
      -- the byte behind `c`, in the text or behind it
      obtain ⟨e, tail, htail⟩ : ∃ e tail, content ++ [d] = e :: tail :=
        List.exists_cons_of_ne_nil (by simp)
      rw [List.cons_append, htail] at hopen
      have hclose : ¬(c = k.sign ∧ e = closing) := by
        rintro ⟨rfl, rfl⟩
        exact hopen ⟨[], tail, rfl⟩
      have hbehind : content ++ d :: rest = e :: (tail ++ rest) := by
        rw [show content ++ d :: rest = content ++ [d] ++ rest by simp, htail, List.cons_append]
      rw [List.length_cons]
      by_cases hroom : front.length < scratchSize
      · obtain ⟨temp₁, hpoke, hstep⟩ := step_content (n := n) kv s k hclose w temp hroom
        have hbytes : temp₁.bytes = front ++ [c] ++ old.drop (front ++ [c]).length := by
          rw [(Block.poke_eq_ok_iff.mp hpoke).2, htemp, List.take_left, List.drop_append,
            List.drop_drop]
          simp
        have hbyte : Walks kv n (s.reading k.state w temp front.length) [c]
            (content ++ d :: rest) (s.reading k.state true temp₁ (front ++ [c]).length) := by
          rw [hbehind, List.length_append, List.length_singleton]
          exact walks_byte hc hstep
        have hrest := ih (fun h0 => htext (List.mem_cons_of_mem _ h0))
          (fun hinfix => hopen (htail ▸ List.infix_cons hinfix)) true hbytes
          (by rw [List.length_append, List.length_singleton]; omega)
        have hassoc : front ++ [c] ++ content = front ++ c :: content := by simp
        have hlen : (front ++ [c]).length + content.length
            = front.length + (content.length + 1) := by
          rw [List.length_append, List.length_singleton]
          omega
        rw [hassoc, hlen] at hrest
        rcases hrest with ⟨hfits, w₂, temp₂, hwalk, hbytes₂⟩ | ⟨hfull, f, hloop⟩
        · exact Or.inl ⟨hfits, w₂, temp₂, hbyte.append hwalk, hbytes₂⟩
        · exact Or.inr ⟨hfull, f, hbyte.trans hloop⟩
      · refine Or.inr ⟨by omega, .write, ?_⟩
        have hstep : (s.reading k.state w temp front.length).step kv n c e = .error .write := by
          have hswitch : (s.reading k.state w temp front.length).switch kv n c e
              = .ok (s.reading k.state true temp front.length) := by
            cases k with
            | var => exact if_neg hclose
            | block => exact if_neg hclose
          unfold Scan.step
          rw [hswitch, ok_bind]
          show (temp.poke front.length [c] >>= _) >>= _ = _
          rw [Block.poke_eq_error (by rw [List.length_singleton]; omega)]
          rfl
        rw [List.cons_append, hbehind, parseLoop_cons hc, hstep, error_bind]

end

/-! ## The end of a block -/

/-- The scratch string with its first 64 bytes cleared. -/
def cleared (temp : List UInt8) : List UInt8 := List.replicate 64 0 ++ temp.drop 64

/-- `temp` is cleared where it starts; a string that was never written to starts clear. -/
theorem storeTemp_cleared {s : Scan} (hw : s.writeTemp = false)
    (hclear : s.tempPos = 0 → s.temp.bytes.take 64 = List.replicate 64 0) (c : UInt8) :
    ∃ temp', s.storeTemp c = .ok { s with temp := temp', tempPos := 0 } ∧
      temp'.bytes = cleared s.temp.bytes := by
  unfold Scan.storeTemp cleared
  rw [if_neg (by simp [hw])]
  by_cases hzero : s.tempPos = 0
  · rw [if_neg (not_not_intro hzero)]
    refine ⟨s.temp, by rw [← hzero], ?_⟩
    rw [← hclear hzero, List.take_append_drop]
  · have hle : 0 + (List.replicate 64 (0 : UInt8)).length ≤ scratchSize := by decide
    obtain ⟨temp', hpoke, hbytes⟩ := Block.poke_eq_ok (b := s.temp) hle
    rw [if_pos hzero, hpoke, ok_bind]
    exact ⟨temp', rfl, hbytes⟩

/-- The sign and the bracket that close a block bring the walk back to the text. -/
theorem parseLoop_close {kv : List Kvmap} {n : ℤ} {s s' : Scan} {sign d : UInt8} (hsign : sign ≠ 0)
    (hswitch : s.switch kv n sign closing = .ok { s' with state := .sNeg2 })
    (hw : s'.writeTemp = false) (hres : s'.writeRes = false)
    (hclear : s'.tempPos = 0 → s'.temp.bytes.take 64 = List.replicate 64 0) (rest : List UInt8) :
    ∃ temp', temp'.bytes = cleared s'.temp.bytes ∧
      parseLoop kv n (sign :: closing :: d :: rest) s
        = parseLoop kv n (d :: rest) { s' with state := .s0, temp := temp', tempPos := 0 } := by
  obtain ⟨temp', hstore, hbytes⟩ :=
    storeTemp_cleared (s := { s' with state := .sNeg2 }) hw hclear sign
  have hkeep : Scan.storeResult { s' with state := .sNeg2, temp := temp', tempPos := 0 } sign
      = .ok { s' with state := .sNeg2, temp := temp', tempPos := 0 } := by
    unfold Scan.storeResult
    rw [if_neg (by simp [hres])]
  have hfirst : s.step kv n sign closing
      = .ok { s' with state := .sNeg2, temp := temp', tempPos := 0 } := by
    unfold Scan.step
    rw [hswitch, ok_bind, hstore, ok_bind]
    exact hkeep
  have hbracket : Scan.step kv n { s' with state := .sNeg2, temp := temp', tempPos := 0 } closing d
      = .ok { s' with state := .s0, temp := temp', tempPos := 0 } := by
    unfold Scan.step Scan.switch Scan.storeTemp Scan.storeResult
    simp [hw, hres]
  refine ⟨temp', hbytes, ?_⟩
  rw [parseLoop_cons hsign, hfirst, ok_bind, parseLoop_cons (by decide), hbracket, ok_bind]

end Template
