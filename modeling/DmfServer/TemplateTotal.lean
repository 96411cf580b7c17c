/-
# The templates that are processed to their end

`parse_context` trusts its template: a block has a second `@`, the inner text of a list block
has the placeholder, the text of a directive fits `temp`, what a block is rendered to fits
`parsed_str`, and the page fits `result`.  `Handled` describes the templates for which this is
so, directive by directive; a directive that is not closed is the last.  What an earlier
directive has left in `temp` and `parsed_str` is part of the description, for the next one runs
into it.  The entries of a table may share a name, and a list may fill its `dec`.
-/
import DmfServer.TemplateVariables

open CMem Template

/-- The texts of an entry are C strings, and `dec` has room for its items. -/
structure Kvmap.Strings (e : Kvmap) : Prop where
  value : IsText e.value
  dec : ∀ s ∈ e.dec, IsText s
  dec_length : e.dec.length ≤ decNum
  func : ∀ s, IsText s → IsText (e.func s)

namespace Template

/-! ## What has to hold of a template -/

/-- A directive opens here. -/
def Opens (mem : List UInt8) : Prop := [opening, hash] <+: mem ∨ [opening, atSign] <+: mem

/-- What the walk has left in `temp` and `parsed_str` between two directives, and the length of
the page. -/
structure Left where
  temp : List UInt8
  parsed : List UInt8
  length : ℕ

namespace Left

/-- As the walk starts. -/
def start : Left := ⟨List.replicate scratchSize 0, [], 0⟩

/-- `temp` with the text of a directive in it. -/
def laid (m : Left) (content : List UInt8) : List UInt8 := content ++ m.temp.drop content.length

end Left

/-- The functions and the lists of a name, in the order of the table. -/
def blockEntries (kv : List Kvmap) (name : List UInt8) : List Kvmap :=
  kv.filter fun e => e.key = name ∧ (e.type = 2 ∨ e.type = 3)

/-- A function has room in `parsed_str` for what it writes for the inner text.  A list finds the
placeholder there, the end of its items in `dec`, and room behind what is in `parsed_str`. -/
inductive Rendered (e : Kvmap) (inner parsed : List UInt8) : List UInt8 → Prop
  | func (type : e.type = 2) (room : (e.func inner).length < scratchSize) :
      Rendered e inner parsed (e.func inner)
  | list {before after : List UInt8} (type : e.type = 3) (split : inner = before ++ (item ++ after))
      (first : FirstAt (item <+: ·) before (item ++ after)) (count : e.dec.length < decNum)
      (room : (parsed ++ e.dec.flatMap fun i => before ++ i ++ after).length < scratchSize) :
      Rendered e inner parsed (parsed ++ e.dec.flatMap fun i => before ++ i ++ after)

/-- The entries of a block's name are rendered one after the other, the first with the inner text
and the ones behind it with an empty text.  `parsed'` is left in `parsed_str`, and the page is
longer by `n`. -/
inductive Answered : List Kvmap → List UInt8 → List UInt8 → List UInt8 → ℕ → Prop
  | nil {inner parsed : List UInt8} : Answered [] inner parsed parsed 0
  | cons {e : Kvmap} {es : List Kvmap} {inner parsed written parsed' : List UInt8} {n : ℕ}
      (here : Rendered e inner parsed written) (more : Answered es [] written parsed' n) :
      Answered (e :: es) inner parsed parsed' (written.length + n)

/-- The texts that `parse_context` gets through, behind what it has left. -/
inductive Handled (kv : List Kvmap) : List UInt8 → Left → Prop
  | text {m : Left} {literal : List UInt8} (plain : ∀ back, back <:+ literal → ¬Opens back)
      (room : m.length + literal.length + 1 < templateResultSize) : Handled kv literal m
  | unclosed {m : Left} {literal content : List UInt8} {k : Kind}
      (first : FirstAt Opens literal (opening :: k.sign :: content))
      (never : ∀ back, back <:+ content → ¬[k.sign, closing] <+: back)
      (fits : content.length ≤ scratchSize)
      (room : m.length + literal.length + 1 < templateResultSize) :
      Handled kv (literal ++ opening :: k.sign :: content) m
  | var {m : Left} {literal content rest : List UInt8}
      (first : FirstAt Opens literal (opening :: hash :: (content ++ hash :: closing :: rest)))
      (close : FirstAt ([hash, closing] <+: ·) content (hash :: closing :: rest))
      (fits : content.length ≤ scratchSize)
      (ends : 0 ∈ m.laid content ∨ ∀ e ∈ kv, ¬m.laid content <+: e.key)
      (more : Handled kv rest
        { temp := cleared (m.laid content), parsed := m.parsed
          length := m.length + literal.length + (substituted kv (cstr (m.laid content))).length }) :
      Handled kv (literal ++ opening :: hash :: (content ++ hash :: closing :: rest)) m
  | block {m : Left} {literal content rest name inner parsed : List UInt8} {n : ℕ}
      (first : FirstAt Opens literal (opening :: atSign :: (content ++ atSign :: closing :: rest)))
      (close : FirstAt ([atSign, closing] <+: ·) content (atSign :: closing :: rest))
      (fits : content.length ≤ scratchSize) (ends : 0 ∈ m.laid content)
      (split : cstr (m.laid content) = name ++ atSign :: inner) (name_at : atSign ∉ name)
      (answered : Answered (blockEntries kv name) inner m.parsed parsed n)
      (more : Handled kv rest
        { temp := cleared ((m.laid content).set name.length 0), parsed := parsed
          length := m.length + literal.length + n }) :
      Handled kv (literal ++ opening :: atSign :: (content ++ atSign :: closing :: rest)) m

/-! ## Where a directive opens -/

/-- A pair that stands nowhere in a text does not stand there with its NUL. -/
theorem not_pair_infix_end {P : List UInt8 → Prop} {a b : UInt8} (hb : b ≠ 0)
    (hpair : ∀ mem, [a, b] <+: mem → P mem) {text : List UInt8}
    (h : ∀ back, back <:+ text → ¬P back) : ¬[a, b] <:+: text ++ [0] := by
  intro hinside
  obtain ⟨front, behind, heq⟩ := pair_infix_concat hb hinside
  exact h ([a, b] ++ behind) ⟨front, by rw [← heq, List.append_assoc]⟩
    (hpair _ (List.prefix_append _ _))

theorem opens_iff {mem : List UInt8} :
    Opens mem ↔ ∃ (k : Kind) (rest : List UInt8), mem = opening :: k.sign :: rest := by
  constructor
  · rintro (⟨rest, rfl⟩ | ⟨rest, rfl⟩)
    · exact ⟨.var, rest, rfl⟩
    · exact ⟨.block, rest, rfl⟩
  · rintro ⟨k, rest, rfl⟩
    cases k with
    | var => exact Or.inl ⟨rest, rfl⟩
    | block => exact Or.inr ⟨rest, rfl⟩

/-! ## One directive after the other -/

/-- The walk is between two directives, with `m` left. -/
structure Scan.Idle (s : Scan) (m : Left) : Prop where
  temp_eq : s.temp.bytes = m.temp
  clear : m.temp.take 64 = List.replicate 64 0
  parsed_eq : s.parsedStr.str 0 = m.parsed
  parsedRoom : m.parsed.length < scratchSize
  page : ∃ out, s.AtText out ∧ out.length = m.length

theorem idle_start : Scan.start.Idle .start where
  temp_eq := rfl
  clear := rests_start.tidy.clear
  parsed_eq := Block.str_zero 0
  parsedRoom := by decide
  page := ⟨[], rests_start.atText, rfl⟩

section
variable (kv : List Kvmap)

/-- From the memory `mem` the walk comes to `rest` with `m` left, or the page is full. -/
def Scan.Comes (s : Scan) (mem rest : List UInt8) (m : Left) : Prop :=
  (∃ s' : Scan, parseLoop kv (kv.length - 1) mem s = parseLoop kv (kv.length - 1) rest s' ∧
    s'.Idle m) ∨
  (templateResultSize ≤ m.length ∧ ∃ f, parseLoop kv (kv.length - 1) mem s = .error f)

variable {kv}

variable (kv) in
/-- A literal text is added to the page. -/
theorem Scan.Idle.literal {s : Scan} {m : Left} (h : s.Idle m) {text : List UInt8}
    (htext : IsText text) {d : UInt8} (hhash : ¬[opening, hash] <:+: text ++ [d])
    (hat : ¬[opening, atSign] <:+: text ++ [d]) (rest : List UInt8) :
    s.Comes kv (text ++ d :: rest) (d :: rest) { m with length := m.length + text.length } := by
  obtain ⟨out, hout, hlen⟩ := h.page
  rcases literal_cases kv (kv.length - 1) hout htext hhash hat rest with
    ⟨-, s', hwalk, hout', htemp, hparsed⟩ | ⟨hfull, hloop⟩
  · refine Or.inl ⟨s', hwalk, htemp ▸ h.temp_eq, h.clear, hparsed ▸ h.parsed_eq, h.parsedRoom,
      out ++ text, hout', ?_⟩
    rw [List.length_append, hlen]
  · refine Or.inr ⟨?_, hloop⟩
    show templateResultSize ≤ m.length + text.length
    omega

variable (kv) in
/-- The text of a directive goes to `temp`, if it fits. -/
theorem Scan.Idle.content {s : Scan} {m : Left} (h : s.Idle m) (k : Kind) {content : List UInt8}
    (htext : IsText content) {d : UInt8} (hopen : ¬[k.sign, closing] <:+: content ++ [d])
    (rest : List UInt8) :
    (content.length ≤ scratchSize ∧ ∃ w b,
      parseLoop kv (kv.length - 1) (opening :: k.sign :: (content ++ d :: rest)) s
        = parseLoop kv (kv.length - 1) (d :: rest) (s.reading k.state w b content.length) ∧
      b.bytes = m.laid content) ∨
    (scratchSize < content.length ∧ ∃ f,
      parseLoop kv (kv.length - 1) (opening :: k.sign :: (content ++ d :: rest)) s = .error f) := by
  obtain ⟨out, hout, -⟩ := h.page
  have hne : content ++ d :: rest ≠ [] := by simp
  have hstart := walks_open kv (kv.length - 1) hout k hne
  have htemp : s.temp.bytes = [] ++ m.temp.drop ([] : List UInt8).length := by
    rw [h.temp_eq]
    rfl
  rcases content_cases kv (kv.length - 1) s k htext hopen rest false htemp (Nat.zero_le _) with
    ⟨hfits, w, b, hwalk, hbytes⟩ | ⟨hfull, f, hloop⟩
  · rw [List.length_nil, Nat.zero_add] at hfits
    rw [List.nil_append] at hwalk hbytes
    exact Or.inl ⟨hfits, w, b, Eq.trans hstart hwalk, hbytes⟩
  · rw [List.length_nil, Nat.zero_add] at hfull
    exact Or.inr ⟨hfull, f, Eq.trans hstart hloop⟩

/-- The sign and the bracket that close a directive. -/
theorem comes_close {s s₀ : Scan} {m : Left} (h : s.Idle m) {sign : UInt8} (hsign : sign ≠ 0)
    {run : Except Fault Scan} (hswitch : s₀.switch kv (kv.length - 1) sign closing
      = run >>= fun s => .ok { s with state := .sNeg2 })
    (st : State) {b : Block scratchSize} (blockStr : Block scratchSize) (pos : ℕ)
    (hclear : pos = 0 → b.bytes.take 64 = List.replicate 64 0) {n : ℕ} {parsed : List UInt8}
    (hans : ∀ out, s.Shows out → ∃ text, text.length = n ∧
      Answers { s.reading st false b pos with blockStr := blockStr } out (.ok (parsed, text)) run)
    (d : UInt8) (rest : List UInt8) :
    s₀.Comes kv (sign :: closing :: d :: rest) (d :: rest)
      { temp := cleared b.bytes, parsed := parsed, length := m.length + n } := by
  obtain ⟨out, hout, hlen⟩ := h.page
  obtain ⟨text, htext, hans⟩ := hans out hout.shows
  rcases hans with ⟨parsed', text', s₁, hw, hrun, hwrote⟩ | ⟨⟨f, hrun⟩, hfull⟩
  · obtain ⟨rfl, rfl⟩ := Prod.mk.inj (Except.ok.inj hw)
    rw [hrun, ok_bind] at hswitch
    have hsame := hwrote.same
    have hw₁ : s₁.writeTemp = false := by rw [hsame]; rfl
    have hres₁ : s₁.writeRes = false := by rw [hsame]; rfl
    have htemp₁ : s₁.temp = b := by rw [hsame]; rfl
    have hpos₁ : s₁.tempPos = pos := by rw [hsame]; rfl
    obtain ⟨temp', hbytes, hloop⟩ := parseLoop_close (d := d) hsign hswitch hw₁ hres₁
      (fun hzero => htemp₁ ▸ hclear (hpos₁ ▸ hzero)) rest
    refine Or.inl ⟨_, hloop, ?_, ?_, hwrote.parsed_eq, hwrote.parsedRoom, out ++ text,
      ⟨rfl, hw₁, rfl, hwrote.shows.text, hwrote.shows.pos, hwrote.shows.room,
        hwrote.shows.result⟩, ?_⟩
    · exact htemp₁ ▸ hbytes
    · show (cleared b.bytes).take 64 = _
      unfold cleared
      rw [List.take_append_of_le_length (by simp), List.take_replicate]
      rfl
    · rw [List.length_append, hlen, htext]
  · refine Or.inr ⟨?_, f, ?_⟩
    · have := hfull _ _ rfl
      show templateResultSize ≤ m.length + n
      omega
    · rw [parseLoop_cons hsign]
      unfold Scan.step
      rw [hswitch, hrun]
      rfl

/-! ## Variables -/

variable (kv) in
/-- The keys compared with a `temp` that has no NUL in it: one that goes on behind it is compared
with what is behind `temp`, and no other is the name. -/
theorem variables_unended {s : Scan} (h : IsText s.temp.bytes) :
    ((∀ e ∈ kv, ¬s.temp.bytes <+: e.key) ∧ kv.foldlM Scan.variable s = .ok s) ∨
    ((∃ e ∈ kv, s.temp.bytes <+: e.key) ∧ ∃ f, kv.foldlM Scan.variable s = .error f) := by
  induction kv with
  | nil => exact Or.inl ⟨fun _ he => absurd he List.not_mem_nil, rfl⟩
  | cons e kv ih =>
      rw [List.foldlM_cons, Scan.variable]
      rcases strcmpZero_cases h e.key with ⟨hstart, hcmp⟩ | ⟨hstart, hcmp⟩
      · rw [hcmp]
        exact Or.inr ⟨⟨e, List.mem_cons_self, hstart⟩, .read, rfl⟩
      · have hskip : (if false = true ∧ e.type = 1 then s.cat e.value else .ok s) = .ok s :=
          if_neg (by simp)
        rw [hcmp, ok_bind, hskip, ok_bind]
        rcases ih with ⟨hnone, hrun⟩ | ⟨⟨e', he', hstart'⟩, hrun⟩
        · exact Or.inl ⟨List.forall_mem_cons.mpr ⟨hstart, hnone⟩, hrun⟩
        · exact Or.inr ⟨⟨e', List.mem_cons_of_mem _ he', hstart'⟩, hrun⟩

/-- No entry has a name that is not ended. -/
theorem substituted_eq_nil {name : List UInt8} (h : ∀ e ∈ kv, ¬name <+: e.key) :
    substituted kv name = [] := by
  unfold substituted
  rw [List.filter_eq_nil_iff.mpr, List.flatMap_nil]
  intro e he hkey
  have hname : e.key = name := (of_decide_eq_true hkey).1
  exact h e he (hname ▸ List.prefix_refl _)

/-- The `switch` where a variable is closed. -/
theorem switch_var (s : Scan) (w : Bool) (b : Block scratchSize) (pos : ℕ) :
    (s.reading .s1 w b pos).switch kv (kv.length - 1) hash closing
      = kv.foldlM Scan.variable (s.reading .s1 false b pos) >>= fun s =>
        .ok { s with state := .sNeg2 } := by
  rw [← eachEntry_eq]
  unfold Scan.switch Scan.reading
  dsimp only
  rw [if_pos ⟨rfl, rfl⟩]

/-- A variable is closed: its values are added to the page. -/
theorem Scan.Idle.var (hkv : ∀ e ∈ kv, e.Strings) {s : Scan} {m : Left} (h : s.Idle m)
    {content : List UInt8} {w : Bool} {b : Block scratchSize} (hbytes : b.bytes = m.laid content)
    (ends : 0 ∈ m.laid content ∨ ∀ e ∈ kv, ¬m.laid content <+: e.key) (d : UInt8)
    (rest : List UInt8) :
    (s.reading .s1 w b content.length).Comes kv (hash :: closing :: d :: rest) (d :: rest)
      { temp := cleared (m.laid content), parsed := m.parsed
        length := m.length + (substituted kv (cstr (m.laid content))).length } := by
  rw [← hbytes] at ends ⊢
  refine comes_close h (by decide) (switch_var s w b _) .s1 s.blockStr content.length ?_ ?_
    d rest
  · intro hzero
    rw [hbytes, List.length_eq_zero_iff.mp hzero]
    exact h.clear
  · intro out hshows
    refine ⟨_, rfl, ?_⟩
    have hshows' : (s.reading .s1 false b content.length).Shows out :=
      ⟨hshows.text, hshows.pos, hshows.room, hshows.result⟩
    by_cases hnul : (0 : UInt8) ∈ b.bytes
    · have hread : b.readStr 0 = .ok (cstr b.bytes) := if_pos hnul
      exact answers_variables (fun e he => (hkv e he).value) hread h.parsed_eq h.parsedRoom hshows'
    · have hnone := ends.resolve_left hnul
      have htext : IsText b.bytes := hnul
      rcases variables_unended kv (s := s.reading .s1 false b content.length) htext with
        ⟨-, hrun⟩ | ⟨⟨e, he, hstart⟩, -⟩
      · rw [htext.cstr_eq, substituted_eq_nil hnone]
        exact hrun ▸ answers_nothing h.parsed_eq h.parsedRoom hshows'
      · exact absurd hstart (hnone e he)

/-- A variable is closed: the walk goes on only if no key is compared past the end of `temp`. -/
theorem ends_of_var {s s' : Scan} {b : Block scratchSize} {w : Bool} {pos : ℕ}
    {mem : List UInt8}
    (h : parseLoop kv (kv.length - 1) (hash :: closing :: mem) (s.reading .s1 w b pos) = .ok s') :
    0 ∈ b.bytes ∨ ∀ e ∈ kv, ¬b.bytes <+: e.key := by
  by_cases hnul : (0 : UInt8) ∈ b.bytes
  · exact Or.inl hnul
  · rcases variables_unended kv (s := s.reading .s1 false b pos) hnul with
      ⟨hnone, -⟩ | ⟨-, f, hrun⟩
    · exact Or.inr hnone
    · rw [parseLoop_cons (by decide), Scan.step, switch_var, hrun] at h
      cases h

/-! ## The entries of a block -/

/-- The loop of a block goes over the functions and the lists of its name. -/
theorem foldlM_block {s : Scan} {name : List UInt8} (hname : s.temp.readStr 0 = .ok name) :
    kv.foldlM Scan.block s = (blockEntries kv name).foldlM Scan.entry s := by
  unfold blockEntries
  induction kv generalizing s with
  | nil => rfl
  | cons e kv ih =>
      rw [List.foldlM_cons, block_eq hname]
      by_cases hentry : e.key = name ∧ (e.type = 2 ∨ e.type = 3)
      · rw [List.filter_cons_of_pos (by simpa using hentry), List.foldlM_cons, if_pos hentry.1]
        cases hrun : s.entry e with
        | error f => rfl
        | ok s' => exact ih (by rw [entry_temp hrun, hname])
      · have hskip : (if e.key = name then s.entry e else .ok s) = .ok s := by
          by_cases hkey : e.key = name
          · have htype : ¬(e.type = 2 ∨ e.type = 3) := fun htype => hentry ⟨hkey, htype⟩
            rw [not_or] at htype
            rw [if_pos hkey, Scan.entry, if_neg htype.1, if_neg htype.2]
          · rw [if_neg hkey]
        rw [List.filter_cons_of_neg (by simpa using hentry), hskip, ok_bind]
        exact ih hname

theorem entry_func {s : Scan} {e : Kvmap} {inner : List UInt8} (htype : e.type = 2)
    (hblock : s.blockStr.readStr 0 = .ok inner) :
    s.entry e = s.parsedStr.strcpy 0 (e.func inner) >>= fun parsed => s.cat (parsed.str 0) >>=
      fun s => .ok { s with parsedStr := parsed, blockStr := Block.zero _ } := by
  unfold Scan.entry
  rw [if_pos htype, hblock]
  rfl

theorem entry_list {s : Scan} {e : Kvmap} (htype : e.type = 3) :
    s.entry e = parseDec s.parsedStr e.dec s.blockStr >>= fun p => s.cat (p.1.str 0) >>=
      fun s => .ok { s with parsedStr := p.1, blockStr := Block.zero _ } := by
  unfold Scan.entry
  rw [if_neg (by omega), if_pos htype]

/-- Behind an entry there is no inner text. -/
theorem entry_blockStr {s s' : Scan} {e : Kvmap} {inner : List UInt8}
    (htype : e.type = 2 ∨ e.type = 3) (hblock : s.blockStr.readStr 0 = .ok inner)
    (h : s.entry e = .ok s') : s'.blockStr.readStr 0 = .ok [] := by
  rcases htype with htype | htype
  · rw [entry_func htype hblock] at h
    obtain ⟨parsed, -, h⟩ := exists_of_bind h
    obtain ⟨s₁, -, h⟩ := exists_of_bind h
    cases h
    exact Block.readStr_eq_ok_iff.mpr ⟨by rw [Block.str_zero]; decide, Block.str_zero 0⟩
  · rw [entry_list htype] at h
    obtain ⟨p, -, h⟩ := exists_of_bind h
    obtain ⟨s₁, -, h⟩ := exists_of_bind h
    cases h
    exact Block.readStr_eq_ok_iff.mpr ⟨by rw [Block.str_zero]; decide, Block.str_zero 0⟩

/-- `parse_dec` gets through only if it finds the placeholder and the end of the items. -/
theorem exists_of_parseDec {tt inner : Block scratchSize} {dec : List (List UInt8)}
    {p : Block scratchSize × Block scratchSize} {text : List UInt8}
    (hinner : inner.readStr 0 = .ok text) (h : parseDec tt dec inner = .ok p) :
    (∃ before after, text = before ++ (item ++ after) ∧
      FirstAt (item <+: ·) before (item ++ after)) ∧ dec.length < decNum := by
  unfold parseDec at h
  rw [hinner, ok_bind] at h
  cases hfind : strstr text item with
  | none =>
      rw [hfind] at h
      cases h
  | some start =>
      obtain ⟨before, hsplit, hfirst⟩ := (strstr_eq_some_iff (by decide)).mp hfind
      obtain ⟨after, rfl⟩ := hfirst.here
      refine ⟨⟨before, after, hsplit, hfirst⟩, ?_⟩
      rw [hfind] at h
      obtain ⟨_, -, h⟩ := exists_of_bind h
      obtain ⟨_, -, h⟩ := exists_of_bind h
      obtain ⟨_, -, h⟩ := exists_of_bind h
      obtain ⟨_, -, h⟩ := exists_of_bind h
      obtain ⟨_, -, h⟩ := exists_of_bind h
      by_contra hcount
      rw [if_neg hcount] at h
      cases h

/-- An entry writes what it is rendered to, or the page is full. -/
theorem answers_entry {s : Scan} {e : Kvmap} (he : e.Strings)
    {inner parsed written out : List UInt8}
    (h : Rendered e inner parsed written) (hblock : s.blockStr.readStr 0 = .ok inner)
    (hparsed : s.parsedStr.str 0 = parsed) (hroom : parsed.length < scratchSize)
    (hshows : s.Shows out) : Answers s out (.ok (written, written)) (s.entry e) := by
  have hinner : IsText inner := (Block.readStr_eq_ok_iff.mp hblock).2 ▸ isText_cstr _
  cases h with
  | func type room =>
      have htext : IsText (e.func inner) := he.func inner hinner
      obtain ⟨parsed', hcopy, hread⟩ := Block.exists_strcpy (b := s.parsedStr) htext room
      rw [entry_func type hblock, hcopy, ok_bind]
      exact answers_cat htext room (Block.readStr_eq_ok_iff.mp hread).2 hshows
  | list type split first count room =>
      subst split
      rcases parseDec_cases hinner (first.not_infix (by decide)) hblock he.dec count
        (hparsed.symm ▸ hroom) with ⟨-, parsed', inner', hrun, hstr⟩ | ⟨hfull, -⟩
      · rw [hparsed] at hstr
        rw [entry_list type, hrun, ok_bind]
        exact answers_cat (hstr ▸ isText_cstr _) room hstr hshows
      · rw [hparsed] at hfull
        exact absurd room (Nat.not_lt.mpr hfull)

/-- An entry that does not fault is rendered. -/
theorem exists_rendered {s s' : Scan} {e : Kvmap} (he : e.Strings) {inner parsed : List UInt8}
    (htype : e.type = 2 ∨ e.type = 3) (hblock : s.blockStr.readStr 0 = .ok inner)
    (hparsed : s.parsedStr.str 0 = parsed) (hroom : parsed.length < scratchSize)
    (h : s.entry e = .ok s') : ∃ written, Rendered e inner parsed written := by
  have hinner : IsText inner := (Block.readStr_eq_ok_iff.mp hblock).2 ▸ isText_cstr _
  rcases htype with htype | htype
  · rw [entry_func htype hblock] at h
    obtain ⟨parsed', hcopy, -⟩ := exists_of_bind h
    exact ⟨_, .func htype (by have := Block.le_of_strcpy hcopy; omega)⟩
  · rw [entry_list htype] at h
    obtain ⟨p, hrun, -⟩ := exists_of_bind h
    obtain ⟨⟨before, after, rfl, hfirst⟩, hcount⟩ := exists_of_parseDec hblock hrun
    rcases parseDec_cases hinner (hfirst.not_infix (by decide)) hblock he.dec hcount
      (hparsed.symm ▸ hroom) with ⟨hlen, -⟩ | ⟨-, herror⟩
    · rw [hparsed] at hlen
      exact ⟨_, .list htype rfl hfirst hcount hlen⟩
    · rw [herror] at hrun
      cases hrun

/-- What is in `parsed_str` behind an entry fits there. -/
theorem Rendered.room {e : Kvmap} {inner parsed written : List UInt8}
    (h : Rendered e inner parsed written) : written.length < scratchSize := by
  cases h with
  | func type room => exact room
  | list type split first count room => exact room

/-- The entries of a name write what they are rendered to, or the page is full. -/
theorem answers_entries {es : List Kvmap} (hes : ∀ e ∈ es, e.Strings)
    (htypes : ∀ e ∈ es, e.type = 2 ∨ e.type = 3) {s : Scan}
    {inner parsed parsed' out : List UInt8} {n : ℕ} (h : Answered es inner parsed parsed' n)
    (hblock : s.blockStr.readStr 0 = .ok inner) (hparsed : s.parsedStr.str 0 = parsed)
    (hroom : parsed.length < scratchSize) (hshows : s.Shows out) :
    ∃ text, text.length = n ∧ Answers s out (.ok (parsed', text)) (es.foldlM Scan.entry s) := by
  induction h generalizing s out with
  | nil => exact ⟨[], rfl, answers_nothing hparsed hroom hshows⟩
  | @cons e es inner parsed written parsed' n here more ih =>
      obtain ⟨he, hes⟩ := List.forall_mem_cons.mp hes
      obtain ⟨htype, htypes⟩ := List.forall_mem_cons.mp htypes
      rw [List.foldlM_cons]
      rcases answers_entry he here hblock hparsed hroom hshows with
        ⟨_, _, s₁, hw, hrun, hwrote⟩ | ⟨⟨f, hrun⟩, hfull⟩
      · obtain ⟨rfl, rfl⟩ := Prod.mk.inj (Except.ok.inj hw)
        obtain ⟨text, rfl, hans⟩ := ih hes htypes (entry_blockStr htype hblock hrun)
          hwrote.parsed_eq here.room hwrote.shows
        refine ⟨written ++ text, List.length_append, ?_⟩
        rw [hrun, ok_bind]
        rcases hans with ⟨_, _, s₂, hw₂, hrun₂, hwrote₂⟩ | ⟨herror, hfull⟩
        · obtain ⟨rfl, rfl⟩ := Prod.mk.inj (Except.ok.inj hw₂)
          rw [List.append_assoc] at hwrote₂
          exact Or.inl ⟨parsed', written ++ text, s₂, rfl, hrun₂, hwrote.trans hwrote₂⟩
        · refine Or.inr ⟨herror, fun _ _ hw₂ => ?_⟩
          obtain ⟨rfl, rfl⟩ := Prod.mk.inj (Except.ok.inj hw₂)
          have hlen := hfull _ _ rfl
          rw [List.length_append] at hlen ⊢
          omega
      · -- the page is full already, whatever the entries behind write
        refine ⟨written ++ List.replicate n 0, by simp, Or.inr ⟨⟨f, by rw [hrun]; rfl⟩, ?_⟩⟩
        intro _ _ hw
        obtain ⟨rfl, rfl⟩ := Prod.mk.inj (Except.ok.inj hw)
        have hlen := hfull _ _ rfl
        rw [List.length_append]
        omega

/-- Entries that do not fault are rendered one after the other. -/
theorem exists_answered {es : List Kvmap} (hes : ∀ e ∈ es, e.Strings)
    (htypes : ∀ e ∈ es, e.type = 2 ∨ e.type = 3) {s s' : Scan} {inner parsed out : List UInt8}
    (hblock : s.blockStr.readStr 0 = .ok inner) (hparsed : s.parsedStr.str 0 = parsed)
    (hroom : parsed.length < scratchSize) (hshows : s.Shows out)
    (h : es.foldlM Scan.entry s = .ok s') : ∃ parsed' n, Answered es inner parsed parsed' n := by
  induction es generalizing s inner parsed out with
  | nil => exact ⟨parsed, 0, .nil⟩
  | cons e es ih =>
      obtain ⟨he, hes⟩ := List.forall_mem_cons.mp hes
      obtain ⟨htype, htypes⟩ := List.forall_mem_cons.mp htypes
      rw [List.foldlM_cons] at h
      obtain ⟨s₁, hrun, h⟩ := exists_of_bind h
      obtain ⟨written, here⟩ := exists_rendered he htype hblock hparsed hroom hrun
      rcases answers_entry he here hblock hparsed hroom hshows with
        ⟨_, _, s₂, hw, hrun₂, hwrote⟩ | ⟨⟨f, herror⟩, -⟩
      · obtain ⟨rfl, rfl⟩ := Prod.mk.inj (Except.ok.inj hw)
        rw [hrun] at hrun₂
        cases hrun₂
        obtain ⟨parsed', n, more⟩ := ih hes htypes (entry_blockStr htype hblock hrun)
          hwrote.parsed_eq here.room hwrote.shows h
        exact ⟨parsed', _, .cons here more⟩
      · rw [herror] at hrun
        cases hrun

/-! ## Blocks -/

theorem strings_blockEntries (hkv : ∀ e ∈ kv, e.Strings) (name : List UInt8) :
    ∀ e ∈ blockEntries kv name, e.Strings := by
  intro e he
  exact hkv e (List.mem_of_mem_filter he)

theorem type_blockEntries (kv : List Kvmap) (name : List UInt8) :
    ∀ e ∈ blockEntries kv name, e.type = 2 ∨ e.type = 3 := by
  intro e he
  unfold blockEntries at he
  rw [List.mem_filter, decide_eq_true_eq] at he
  exact he.2.2

/-- A block is closed: what its entries are rendered to is added to the page. -/
theorem Scan.Idle.block (hkv : ∀ e ∈ kv, e.Strings) {s : Scan} {m : Left} (h : s.Idle m)
    {content : List UInt8} {w : Bool} {b : Block scratchSize} (hbytes : b.bytes = m.laid content)
    (ends : 0 ∈ m.laid content) {name inner parsed : List UInt8} {n : ℕ}
    (split : cstr (m.laid content) = name ++ atSign :: inner) (name_at : atSign ∉ name)
    (answered : Answered (blockEntries kv name) inner m.parsed parsed n) (d : UInt8)
    (rest : List UInt8) :
    (s.reading .s2 w b content.length).Comes kv (atSign :: closing :: d :: rest) (d :: rest)
      { temp := cleared ((m.laid content).set name.length 0), parsed := parsed
        length := m.length + n } := by
  rw [← hbytes] at ends split ⊢
  have hread : b.readStr 0 = .ok (name ++ atSign :: inner) := split ▸ if_pos ends
  obtain ⟨b', blockStr, hcut, hname, hinner, hswitch⟩ :=
    switch_block (n := kv.length - 1) s w content.length hread name_at
  rw [eachEntry_eq, foldlM_block hname] at hswitch
  rw [← hcut]
  refine comes_close h (by decide) hswitch .s2 blockStr content.length ?_ ?_ d rest
  · intro hzero
    -- without a text of its own the block would find the front of `temp` clear
    rw [hbytes, List.length_eq_zero_iff.mp hzero] at split
    have hclear : cstr m.temp = [] := by
      rw [← List.take_append_drop 64 m.temp, h.clear, List.replicate_succ, List.cons_append,
        cstr_zero]
    rw [show m.laid [] = m.temp from rfl, hclear] at split
    exact absurd split.symm (by simp)
  · intro out hshows
    exact answers_entries (strings_blockEntries hkv name) (type_blockEntries kv name) answered
      hinner h.parsed_eq h.parsedRoom ⟨hshows.text, hshows.pos, hshows.room, hshows.result⟩

/-- A block is closed: the walk goes on only if there is an `@` in what stands in `temp`, and the
entries of the name in front of it are rendered. -/
theorem exists_of_block (hkv : ∀ e ∈ kv, e.Strings) {s s' : Scan} {m : Left} (h : s.Idle m)
    {b : Block scratchSize} {w : Bool} {pos : ℕ} {mem : List UInt8}
    (hrun : parseLoop kv (kv.length - 1) (atSign :: closing :: mem) (s.reading .s2 w b pos)
      = .ok s') :
    0 ∈ b.bytes ∧ ∃ name inner parsed n, cstr b.bytes = name ++ atSign :: inner ∧ atSign ∉ name ∧
      Answered (blockEntries kv name) inner m.parsed parsed n := by
  rw [parseLoop_cons (by decide), Scan.step] at hrun
  obtain ⟨s₁, hstep, -⟩ := exists_of_bind hrun
  obtain ⟨s₂, hswitch, -⟩ := exists_of_bind hstep
  have hnul : (0 : UInt8) ∈ b.bytes := by
    by_contra hno
    unfold Scan.switch Scan.reading at hswitch
    dsimp only at hswitch
    rw [if_pos ⟨rfl, rfl⟩, Block.readStr, List.drop_zero, if_neg hno] at hswitch
    cases hswitch
  have hread : b.readStr 0 = .ok (cstr b.bytes) := if_pos hnul
  have hat : atSign ∈ cstr b.bytes := by
    by_contra hno
    unfold Scan.switch Scan.reading at hswitch
    dsimp only at hswitch
    rw [if_pos ⟨rfl, rfl⟩, hread, ok_bind, strstr_singleton_eq_none hno] at hswitch
    cases hswitch
  obtain ⟨name, inner, hsplit, hname⟩ := List.eq_append_cons_of_mem hat
  rw [hsplit] at hread
  obtain ⟨b', blockStr, -, hname', hinner, hclosed⟩ :=
    switch_block (n := kv.length - 1) s w pos hread hname
  rw [eachEntry_eq, foldlM_block hname', hswitch] at hclosed
  obtain ⟨s₃, hentries, -⟩ := exists_of_bind hclosed.symm
  obtain ⟨out, hout, -⟩ := h.page
  obtain ⟨parsed, n, hanswered⟩ := exists_answered (strings_blockEntries hkv name)
    (type_blockEntries kv name) (s := { s.reading .s2 false b' pos with blockStr := blockStr })
    hinner h.parsed_eq h.parsedRoom
    ⟨hout.shows.text, hout.shows.pos, hout.shows.room, hout.shows.result⟩ hentries
  exact ⟨hnul, name, inner, parsed, n, hsplit, hname, hanswered⟩

/-! ## Whole templates -/

/-- What is handled has room on the page. -/
theorem Handled.room {text : List UInt8} {m : Left} (h : Handled kv text m) :
    m.length + 1 < templateResultSize := by
  induction h with
  | text plain room => omega
  | unclosed first never fits room => omega
  | var first close fits ends more ih =>
      dsimp only at ih
      omega
  | block first close fits ends split name_at answered more ih =>
      dsimp only at ih
      omega

/-- Where there is room on the page, the walk comes there. -/
theorem Scan.Comes.resolve {s : Scan} {mem rest : List UInt8} {m : Left}
    (h : s.Comes kv mem rest m) (hroom : m.length < templateResultSize) :
    ∃ s' : Scan, parseLoop kv (kv.length - 1) mem s = parseLoop kv (kv.length - 1) rest s' ∧
      s'.Idle m := by
  rcases h with h | ⟨hfull, -⟩
  · exact h
  · exact absurd hroom (Nat.not_lt.mpr hfull)

/-- So it does where it does not fault. -/
theorem Scan.Comes.of_ok {s s' : Scan} {mem rest : List UInt8} {m : Left}
    (h : s.Comes kv mem rest m) (hok : parseLoop kv (kv.length - 1) mem s = .ok s') :
    ∃ s₁ : Scan, parseLoop kv (kv.length - 1) rest s₁ = .ok s' ∧ s₁.Idle m := by
  rcases h with ⟨s₁, hrun, hidle⟩ | ⟨-, f, hrun⟩
  · exact ⟨s₁, hrun ▸ hok, hidle⟩
  · rw [hrun] at hok
    cases hok

theorem pair_opens_hash (mem : List UInt8) (h : [opening, hash] <+: mem) : Opens mem := Or.inl h

theorem pair_opens_at (mem : List UInt8) (h : [opening, atSign] <+: mem) : Opens mem := Or.inr h

/-- A literal text and the directive behind it, up to its end: what the closing mark does there is
known for every scanner that has come to it. -/
theorem Scan.Idle.directive {s : Scan} {m m' : Left} (hs : s.Idle m) {k : Kind}
    {literal content rest : List UInt8}
    (htext : IsText (literal ++ opening :: k.sign :: (content ++ k.sign :: closing :: rest)))
    (first : FirstAt Opens literal (opening :: k.sign :: (content ++ k.sign :: closing :: rest)))
    (close : FirstAt ([k.sign, closing] <+: ·) content (k.sign :: closing :: rest))
    (fits : content.length ≤ scratchSize) (room : m.length + literal.length < templateResultSize)
    (hclose : ∀ {s : Scan} {w : Bool} {b : Block scratchSize},
      s.Idle { m with length := m.length + literal.length } → b.bytes = m.laid content →
      ∀ (d : UInt8) (tail : List UInt8), (s.reading k.state w b content.length).Comes kv
        (k.sign :: closing :: d :: tail) (d :: tail) m')
    (room' : m'.length < templateResultSize) :
    ∃ s', parseLoop kv (kv.length - 1)
        (literal ++ opening :: k.sign :: (content ++ k.sign :: closing :: rest) ++ [0]) s
      = parseLoop kv (kv.length - 1) (rest ++ [0]) s' ∧ s'.Idle m' := by
  obtain ⟨hliteral, hbehind⟩ := isText_append.mp htext
  have hcontent : IsText content := fun h0 => hbehind (by simp [h0])
  obtain ⟨d, tail, htail⟩ := List.exists_cons_of_ne_nil (l := rest ++ [0]) (by simp)
  obtain ⟨s₁, hrun, hidle⟩ := (hs.literal kv hliteral
    (first.not_pair_infix pair_opens_hash) (first.not_pair_infix pair_opens_at)
    (k.sign :: (content ++ k.sign :: closing :: d :: tail))).resolve room
  rcases hidle.content kv k hcontent (close.not_pair_infix fun _ h => h)
    (closing :: d :: tail) with ⟨-, w, b, hread, hbytes⟩ | ⟨hfull, -⟩
  · obtain ⟨s₂, hclosed, hidle₂⟩ := (hclose hidle hbytes d tail).resolve room'
    refine ⟨s₂, ?_, hidle₂⟩
    simp only [List.append_assoc, List.cons_append, htail]
    rw [hrun]
    exact Eq.trans hread hclosed
  · omega

/-- The walk over a text that is handled ends, with room for the end of the page. -/
theorem exists_run_of_handled (hkv : ∀ e ∈ kv, e.Strings) {text : List UInt8} {m : Left}
    (h : Handled kv text m) (htext : IsText text) {s : Scan} (hs : s.Idle m) :
    ∃ s' out, parseLoop kv (kv.length - 1) (text ++ [0]) s = .ok s' ∧ s'.Shows out ∧
      out.length + 1 < templateResultSize := by
  induction h generalizing s with
  | text plain room =>
      have hhash := not_pair_infix_end (by decide) pair_opens_hash plain
      have hat := not_pair_infix_end (by decide) pair_opens_at plain
      obtain ⟨s₁, hrun, hidle⟩ :=
        (hs.literal kv htext hhash hat []).resolve (by dsimp only; omega)
      obtain ⟨out, hout, hlen⟩ := hidle.page
      exact ⟨s₁, out, hrun, hout.shows, by rw [hlen]; exact room⟩
  | @unclosed m literal content k first never fits room =>
      obtain ⟨hliteral, hbehind⟩ := isText_append.mp htext
      have hcontent : IsText content := fun h0 => hbehind (by simp [h0])
      obtain ⟨s₁, hrun, hidle⟩ := (hs.literal kv hliteral
        (first.not_pair_infix pair_opens_hash) (first.not_pair_infix pair_opens_at)
        (k.sign :: (content ++ [0]))).resolve (by dsimp only; omega)
      have hopen := not_pair_infix_end (by decide) (fun _ h => h) never
      rcases hidle.content kv k hcontent hopen [] with
        ⟨-, w, b, hcontent, -⟩ | ⟨hfull, -⟩
      · obtain ⟨out, hout, hlen⟩ := hidle.page
        refine ⟨s₁.reading k.state w b content.length, out, ?_, ?_, by rw [hlen]; exact room⟩
        · rw [List.append_assoc, List.cons_append, List.cons_append, hrun, hcontent]
          rfl
        · exact ⟨hout.shows.text, hout.shows.pos, hout.shows.room, hout.shows.result⟩
      · omega
  | @var m literal content rest first close fits ends more ih =>
      have hroom := more.room
      dsimp only at hroom
      have hrest : IsText rest := fun h0 => htext (by simp [h0])
      obtain ⟨s₁, hrun, hidle⟩ := hs.directive (k := .var) htext first close fits (by omega)
        (fun hidle hbytes => hidle.var hkv hbytes ends) (Nat.lt_of_succ_lt more.room)
      obtain ⟨s₂, out, hend, hshows, hlen⟩ := ih hrest hidle
      exact ⟨s₂, out, Eq.trans hrun hend, hshows, hlen⟩
  | @block m literal content rest name inner parsed n first close fits ends split name_at answered
      more ih =>
      have hroom := more.room
      dsimp only at hroom
      have hrest : IsText rest := fun h0 => htext (by simp [h0])
      obtain ⟨s₁, hrun, hidle⟩ := hs.directive (k := .block) htext first close fits (by omega)
        (fun hidle hbytes => hidle.block hkv hbytes ends split name_at answered)
        (Nat.lt_of_succ_lt more.room)
      obtain ⟨s₂, out, hend, hshows, hlen⟩ := ih hrest hidle
      exact ⟨s₂, out, Eq.trans hrun hend, hshows, hlen⟩

/-- A text opens a directive somewhere, or nowhere. -/
theorem exists_open (text : List UInt8) :
    (∀ back, back <:+ text → ¬Opens back) ∨
    ∃ (literal : List UInt8) (k : Kind) (behind : List UInt8),
      text = literal ++ opening :: k.sign :: behind ∧
      FirstAt Opens literal (opening :: k.sign :: behind) := by
  by_cases hopen : ∃ back, back <:+ text ∧ Opens back
  · obtain ⟨back, hsuffix, hback⟩ := hopen
    obtain ⟨literal, rest, rfl, hfirst⟩ := exists_firstAt hsuffix hback
    obtain ⟨k, behind, rfl⟩ := opens_iff.mp hfirst.here
    exact Or.inr ⟨literal, k, behind, rfl, hfirst⟩
  · exact Or.inl fun back hsuffix hback => hopen ⟨back, hsuffix, hback⟩

/-- A directive is closed somewhere, or nowhere. -/
theorem exists_close (k : Kind) (behind : List UInt8) :
    (∀ back, back <:+ behind → ¬[k.sign, closing] <+: back) ∨
    ∃ content rest, behind = content ++ k.sign :: closing :: rest ∧
      FirstAt ([k.sign, closing] <+: ·) content (k.sign :: closing :: rest) := by
  by_cases hclose : ∃ back, back <:+ behind ∧ [k.sign, closing] <+: back
  · obtain ⟨back, hsuffix, hback⟩ := hclose
    obtain ⟨content, rest, rfl, hfirst⟩ := exists_firstAt hsuffix hback
    obtain ⟨rest, rfl⟩ := hfirst.here
    exact Or.inr ⟨content, rest, rfl, hfirst⟩
  · exact Or.inl fun back hsuffix hback => hclose ⟨back, hsuffix, hback⟩

/-- A text is handled if the walk over it ends with room for the end of the page. -/
theorem handled_of_run (hkv : ∀ e ∈ kv, e.Strings) (text : List UInt8) (htext : IsText text)
    {m : Left} {s s' : Scan} (hs : s.Idle m)
    (hrun : parseLoop kv (kv.length - 1) (text ++ [0]) s = .ok s')
    (hend : s'.resPos + 1 < templateResultSize) : Handled kv text m := by
  induction hn : text.length using Nat.strong_induction_on generalizing text m s with
  | _ n ih =>
      rcases exists_open text with hplain | ⟨literal, k, behind, rfl, first⟩
      · have hhash := not_pair_infix_end (by decide) pair_opens_hash hplain
        have hat := not_pair_infix_end (by decide) pair_opens_at hplain
        obtain ⟨s₁, hstop, hidle⟩ := (hs.literal kv htext hhash hat []).of_ok hrun
        obtain rfl : s₁ = s' := Except.ok.inj hstop
        obtain ⟨out, hout, hlen⟩ := hidle.page
        rw [hout.shows.pos, hlen] at hend
        exact .text hplain hend
      · obtain ⟨hliteral, hbehind⟩ := isText_append.mp htext
        rw [List.append_assoc, List.cons_append, List.cons_append] at hrun
        obtain ⟨s₁, hrun₁, hidle⟩ := (hs.literal kv hliteral
          (first.not_pair_infix pair_opens_hash) (first.not_pair_infix pair_opens_at)
          (k.sign :: (behind ++ [0]))).of_ok hrun
        rcases exists_close k behind with hnever | ⟨content, rest, rfl, close⟩
        · have hcontent : IsText behind := fun h0 => hbehind (by simp [h0])
          have hopen := not_pair_infix_end (by decide) (fun _ h => h) hnever
          rcases hidle.content kv k hcontent hopen [] with
            ⟨hfits, w, b, hread, -⟩ | ⟨-, f, hread⟩
          · obtain ⟨out, hout, hlen⟩ := hidle.page
            rw [hread] at hrun₁
            obtain rfl : s₁.reading k.state w b behind.length = s' := Except.ok.inj hrun₁
            have hpos : s₁.resPos = m.length + literal.length := hout.shows.pos.trans hlen
            exact .unclosed first hnever hfits (hpos ▸ hend)
          · rw [hread] at hrun₁
            cases hrun₁
        · have hcontent : IsText content := fun h0 => hbehind (by simp [h0])
          have hrest : IsText rest := fun h0 => hbehind (by simp [h0])
          have hshort : rest.length < n := by
            rw [← hn]
            simp only [List.length_append, List.length_cons]
            omega
          obtain ⟨d, tail, htail⟩ := List.exists_cons_of_ne_nil (l := rest ++ [0]) (by simp)
          rw [List.append_assoc, List.cons_append, List.cons_append, htail] at hrun₁
          rcases hidle.content kv k hcontent (close.not_pair_infix fun _ h => h)
            (closing :: d :: tail) with ⟨hfits, w, b, hread, hbytes⟩ | ⟨-, f, hread⟩
          · rw [hread] at hrun₁
            cases k with
            | var =>
                have ends := ends_of_var hrun₁
                rw [hbytes] at ends
                obtain ⟨s₂, hrun₂, hidle₂⟩ := (hidle.var hkv hbytes ends d tail).of_ok hrun₁
                rw [← htail] at hrun₂
                exact .var first close hfits ends (ih _ hshort rest hrest hidle₂ hrun₂ rfl)
            | block =>
                obtain ⟨ends, name, inner, parsed, k, split, name_at, answered⟩ :=
                  exists_of_block hkv hidle hrun₁
                rw [hbytes] at ends split
                obtain ⟨s₂, hrun₂, hidle₂⟩ :=
                  (hidle.block hkv hbytes ends split name_at answered d tail).of_ok hrun₁
                rw [← htail] at hrun₂
                exact .block first close hfits ends split name_at answered
                  (ih _ hshort rest hrest hidle₂ hrun₂ rfl)
          · rw [hread] at hrun₁
            cases hrun₁

end

end Template

/-- **Templates that are processed to their end.**  `parse_context` stays inside its buffers, and
what it searches for is there, exactly for the templates that are handled. -/
theorem parseContext_ok_iff {context : List UInt8} (hcontext : IsText context) {kv : List Kvmap}
    (hkv : ∀ e ∈ kv, e.Strings) :
    (∃ page, parseContext context kv (kv.length - 1) = .ok page) ↔
      Template.Handled kv context .start := by
  unfold parseContext
  constructor
  · rintro ⟨page, h⟩
    obtain ⟨s, hrun, h⟩ := exists_of_bind h
    obtain ⟨result, hpoke, -⟩ := exists_of_bind h
    have hend := (Block.poke_eq_ok_iff.mp hpoke).1
    exact handled_of_run hkv context hcontext idle_start hrun hend
  · intro h
    obtain ⟨s, out, hrun, hshows, hroom⟩ := exists_run_of_handled hkv h hcontext idle_start
    rw [hrun, ok_bind]
    rcases page_end hshows with ⟨-, hend⟩ | ⟨hfull, -⟩
    · exact ⟨out, hend⟩
    · omega

/-- A table with a list of one item. -/
def oneItem : List Kvmap := [⟨3, bytes "d", [], [bytes "x"], id⟩]

/-- A list block with the placeholder. -/
theorem parseContext_ok_iff_list :
    ∃ page, parseContext (bytes "[@d@\x7b\x7bitem\x7d\x7d@]") oneItem (oneItem.length - 1)
      = .ok page := by
  have hstrings : ∀ e ∈ oneItem, e.Strings :=
    List.forall_mem_singleton.mpr ⟨by decide, by decide, by decide, fun s hs => hs⟩
  have hlaid : Left.start.laid (bytes "d@\x7b\x7bitem\x7d\x7d")
      = bytes "d" ++ atSign :: item ++ 0 :: List.replicate 1013 0 := by
    rfl
  have hclose : FirstAt ([atSign, closing] <+: ·) (bytes "d@\x7b\x7bitem\x7d\x7d")
      [atSign, closing] := by
    obtain ⟨content, hsplit, hfirst⟩ := (strstr_eq_some_iff (by decide)).mp
      (show strstr (bytes "d@\x7b\x7bitem\x7d\x7d@]") [atSign, closing] = some [atSign, closing]
        from by decide)
    rwa [← List.append_cancel_right (show bytes "d@\x7b\x7bitem\x7d\x7d" ++ [atSign, closing] = _
      from hsplit)] at hfirst
  have hanswered : Answered (blockEntries oneItem (bytes "d")) item [] (bytes "x") 1 :=
    .cons (.list rfl (List.append_nil item).symm (.nil ⟨[], rfl⟩) (by decide) (by decide)) .nil
  have hend : Handled oneItem [] { temp := cleared ((Left.start.laid (bytes
      "d@\x7b\x7bitem\x7d\x7d")).set 1 0), parsed := bytes "x", length := 1 } := by
    refine .text ?_ (by decide)
    rintro back hback (⟨rest, rfl⟩ | ⟨rest, rfl⟩)
    · simp at hback
    · simp at hback
  have hfirst : FirstAt Opens [] (opening :: atSign ::
      (bytes "d@\x7b\x7bitem\x7d\x7d" ++ atSign :: closing :: [])) := .nil (Or.inr ⟨_, rfl⟩)
  have hhandled := Handled.block hfirst hclose (by decide)
    (hlaid ▸ List.mem_append_right _ List.mem_cons_self)
    ((congrArg cstr hlaid).trans (cstr_append_zero (by decide) _)) (by decide) hanswered hend
  exact (parseContext_ok_iff (by decide) hstrings).mpr hhandled

/-- The text of a block without an inner part has no second `@`. -/
theorem not_parseContext_ok_plain : ¬∀ (context : List UInt8) (kv : List Kvmap), IsText context →
    (∀ e ∈ kv, e.Strings) → ∃ page, parseContext context kv (kv.length - 1) = .ok page := by
  intro h
  obtain ⟨page, hpage⟩ := h (bytes "[@a@]") [] (by decide) (List.forall_mem_nil _)
  have hnull : parseContext (bytes "[@a@]") [] (([] : List Kvmap).length - 1) = .error .null := by
    decide +kernel
  rw [hnull] at hpage
  cases hpage
