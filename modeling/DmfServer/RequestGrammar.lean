/-
# The texts the request parser reads

The token structure of a request as a grammar, next to the byte machine that
reads it: `HeadText part data toks e` says that the memory `data` begins with the
tokens `toks`, the first one being a `part`, and that reading them ends as `e`
says.  A token is everything up to its delimiter; the last, unfinished one is the
pending text of the ending.

Every memory with a NUL in it has a reading (`exists_headText`).
-/
import DmfServer.Request

open CMem Ascii

/-- The parts of a request head, in the order they are met. -/
inductive HeadPart : Type where
  | method | path | key | value | protocol | version | name | field
  deriving DecidableEq, Repr

/-- A finished token. -/
structure Tok where
  part : HeadPart
  text : List UInt8
  deriving DecidableEq

/-- How the reading of a head ends. -/
inductive Ending : Type where
  /-- A NUL inside a token; the text of the token so far. -/
  | cut : List UInt8 → Ending
  /-- A byte no head has there; the text that piles up to the NUL. -/
  | bad : List UInt8 → Ending
  /-- The line end that closes the head; what has piled up before its `\n`, and the
  memory from that `\n` on. -/
  | closed : List UInt8 → List UInt8 → Ending
  deriving DecidableEq

/-- No line end inside. -/
def NoCrlf (s : List UInt8) : Prop := ¬ [cr, lf] <:+: s

/-- A text without the byte `c` in it. -/
def Without (c : UInt8) (s : List UInt8) : Prop := IsText s ∧ c ∉ s

/-- A text that no line end cuts. -/
def IsLine (s : List UInt8) : Prop := IsText s ∧ NoCrlf s

/-- A query key: no `=`, and no space behind its first byte. -/
def IsKey (k : List UInt8) : Prop := Without equals k ∧ space ∉ k.tail

/-- A header name: no `:` and no line end. -/
def IsName (j : List UInt8) : Prop := IsLine j ∧ colon ∉ j

/-- What is kept of a header name: nothing before its first upper-case letter. -/
def kept (j : List UInt8) : List UInt8 := j.dropWhile (fun c => !isUpper c)

/-- The first byte of a method the parser takes. -/
def IsMethodStart (c : UInt8) : Prop := c = 71 ∨ c = 80

instance (c : UInt8) : Decidable (IsMethodStart c) := by
  unfold IsMethodStart; infer_instance

/-- `HeadText part data toks e`: from a `part` on, `data` reads as the tokens `toks`
and ends as `e`. -/
inductive HeadText : HeadPart → List UInt8 → List Tok → Ending → Prop where
  /-- The request line. -/
  | methodNil {tail} : HeadText .method (0 :: tail) [] (.cut [])
  | methodBad {c s tail} : c ≠ 0 → ¬ IsMethodStart c → IsText s →
      HeadText .method (c :: (s ++ 0 :: tail)) [] (.bad [])
  | methodCut {c s tail} : IsMethodStart c → Without space s →
      HeadText .method (c :: (s ++ 0 :: tail)) [] (.cut (c :: s))
  | method {c s rest ts e} : IsMethodStart c → Without space s → HeadText .path rest ts e →
      HeadText .method (c :: (s ++ space :: rest)) (⟨.method, c :: s⟩ :: ts) e
  | pathNil {tail} : HeadText .path (0 :: tail) [] (.cut [])
  | pathBad {c s tail} : c ≠ 0 → c ≠ slash → IsText s →
      HeadText .path (c :: (s ++ 0 :: tail)) [] (.bad [])
  | pathCut {s tail} : Without space s → question ∉ s →
      HeadText .path (slash :: (s ++ 0 :: tail)) [] (.cut (slash :: s))
  | pathSpace {s rest ts e} : Without space s → question ∉ s → HeadText .protocol rest ts e →
      HeadText .path (slash :: (s ++ space :: rest)) (⟨.path, slash :: s⟩ :: ts) e
  | pathQuery {s rest ts e} : Without space s → question ∉ s → HeadText .key rest ts e →
      HeadText .path (slash :: (s ++ question :: rest)) (⟨.path, slash :: s⟩ :: ts) e
  /-- The query. -/
  | keyCut {k tail} : IsKey k → HeadText .key (k ++ 0 :: tail) [] (.cut k)
  | keyBad {k s tail} : IsKey k → k ≠ [] → IsText s →
      HeadText .key (k ++ space :: (s ++ 0 :: tail)) [] (.bad (k ++ space :: s))
  | key {k rest ts e} : IsKey k → HeadText .value rest ts e →
      HeadText .key (k ++ equals :: rest) (⟨.key, k⟩ :: ts) e
  | valueCut {v tail} : Without space v → amp ∉ v →
      HeadText .value (v ++ 0 :: tail) [] (.cut v)
  | valueAmp {v rest ts e} : Without space v → amp ∉ v → HeadText .key rest ts e →
      HeadText .value (v ++ amp :: rest) (⟨.value, v⟩ :: ts) e
  | valueSpace {v rest ts e} : Without space v → amp ∉ v → HeadText .protocol rest ts e →
      HeadText .value (v ++ space :: rest) (⟨.value, v⟩ :: ts) e
  /-- The protocol and its version. -/
  | protocolCut {p tail} : Without slash p →
      HeadText .protocol (p ++ 0 :: tail) [] (.cut p)
  | protocol {p rest ts e} : Without slash p → HeadText .version rest ts e →
      HeadText .protocol (p ++ slash :: rest) (⟨.protocol, p⟩ :: ts) e
  | versionCut {v tail} : IsLine v → HeadText .version (v ++ 0 :: tail) [] (.cut v)
  | version {v rest ts e} : IsLine v → HeadText .name rest ts e →
      HeadText .version (v ++ cr :: lf :: rest) (⟨.version, v⟩ :: ts) e
  /-- The header lines; the byte behind the colon is skipped. -/
  | nameCut {j tail} : IsName j → HeadText .name (j ++ 0 :: tail) [] (.cut (kept j))
  | nameColon {j tail} : IsName j →
      HeadText .name (j ++ colon :: 0 :: tail) [⟨.name, kept j⟩] (.cut [])
  | name {j x rest ts e} : IsName j → x ≠ 0 → HeadText .field rest ts e →
      HeadText .name (j ++ colon :: x :: rest) (⟨.name, kept j⟩ :: ts) e
  | nameEnd {j rest} : IsName j →
      HeadText .name (j ++ cr :: lf :: rest) [] (.closed (kept (j ++ [cr])) (lf :: rest))
  | fieldCut {v tail} : IsLine v → HeadText .field (v ++ 0 :: tail) [] (.cut v)
  | field {v rest ts e} : IsLine v → HeadText .name rest ts e →
      HeadText .field (v ++ cr :: lf :: rest) (⟨.field, v⟩ :: ts) e

/-! ## Texts -/

theorem isText_cons {c : UInt8} {s : List UInt8} : IsText (c :: s) ↔ c ≠ 0 ∧ IsText s := by
  simp [IsText, eq_comm]

theorem without_cons {b c : UInt8} {s : List UInt8} :
    Without b (c :: s) ↔ (c ≠ 0 ∧ c ≠ b) ∧ Without b s := by
  unfold Without
  rw [isText_cons, List.mem_cons]
  tauto

/-- A line end further on is a line end at the head or in the tail. -/
theorem noCrlf_cons {c : UInt8} {s : List UInt8} :
    NoCrlf (c :: s) ↔ ¬ (c = cr ∧ s.head? = some lf) ∧ NoCrlf s := by
  unfold NoCrlf
  have hprefix : [cr, lf] <+: c :: s ↔ c = cr ∧ s.head? = some lf := by
    cases s with
    | nil => simp [List.cons_prefix_cons]
    | cons d s =>
        rw [List.cons_prefix_cons, List.cons_prefix_cons, List.head?_cons, Option.some_inj]
        exact ⟨fun h => ⟨h.1.symm, h.2.1.symm⟩, fun h => ⟨h.1.symm, h.2.symm, List.nil_prefix⟩⟩
  rw [List.infix_cons_iff, hprefix]
  tauto

@[simp] theorem noCrlf_nil : NoCrlf [] := by simp [NoCrlf]

theorem isLine_cons {c : UInt8} {s : List UInt8} :
    IsLine (c :: s) ↔ (c ≠ 0 ∧ ¬ (c = cr ∧ s.head? = some lf)) ∧ IsLine s := by
  unfold IsLine
  rw [isText_cons, noCrlf_cons]
  tauto

/-- A text without `\r` has no line end in it. -/
theorem noCrlf_of_not_mem {s : List UInt8} (h : cr ∉ s) : NoCrlf s := fun hin =>
  h (hin.subset (by simp))

theorem isLine_of_without {s : List UInt8} (h : Without cr s) : IsLine s :=
  ⟨h.1, noCrlf_of_not_mem h.2⟩

theorem isKey_cons {c : UInt8} {k : List UInt8} :
    IsKey (c :: k) ↔ (c ≠ 0 ∧ c ≠ equals) ∧ Without equals k ∧ space ∉ k := by
  unfold IsKey
  rw [without_cons, List.tail_cons, and_assoc]

theorem isKey_nil : IsKey [] := by simp [IsKey, Without, IsText]

/-- A key whose first byte is no space has no space at all. -/
theorem IsKey.not_mem_space {k : List UInt8} (h : IsKey k) (hk : k.head? ≠ some space) :
    space ∉ k := by
  cases k with
  | nil => simp
  | cons c k =>
      intro hm
      rcases List.mem_cons.mp hm with hc | hm
      · exact hk (by rw [hc, List.head?_cons])
      · exact h.2 hm

theorem IsLine.of_append {s t : List UInt8} (h : IsLine (s ++ t)) : IsLine s :=
  ⟨(isText_append.mp h.1).1, fun hin => h.2 (hin.trans (List.prefix_append s t).isInfix)⟩

/-- What is dropped of a name has no upper-case letter; what is kept begins with one. -/
theorem exists_eq_append_kept (j : List UInt8) :
    ∃ pre, j = pre ++ kept j ∧ (∀ c ∈ pre, isUpper c = false) ∧
      ∀ c s, kept j = c :: s → isUpper c = true := by
  refine ⟨j.takeWhile (fun c => !isUpper c), List.takeWhile_append_dropWhile.symm, ?_, ?_⟩
  · intro c hc
    simpa using List.mem_takeWhile_imp hc
  · intro c s hk
    have hhead := List.head?_dropWhile_not (fun c => !isUpper c) j
    rw [show j.dropWhile (fun c => !isUpper c) = c :: s from hk] at hhead
    simpa using hhead

/-- A reading reads at least one byte. -/
theorem HeadText.ne_nil {part : HeadPart} {data : List UInt8} {toks : List Tok} {e : Ending}
    (h : HeadText part data toks e) : data ≠ [] := by
  cases h <;> simp

/-! ## Every memory with a NUL has a reading -/

/-- The memory splits at its first delimiter, a NUL being one. -/
theorem exists_split (p : UInt8 → Prop) [DecidablePred p] {s : List UInt8}
    (h : (0 : UInt8) ∈ s) :
    (∃ a tail, s = a ++ 0 :: tail ∧ IsText a ∧ ∀ c ∈ a, ¬ p c) ∨
    (∃ a d rest, s = a ++ d :: rest ∧ IsText a ∧ (∀ c ∈ a, ¬ p c) ∧ p d ∧
      (0 : UInt8) ∈ rest) := by
  induction s with
  | nil => simp at h
  | cons c s ih =>
      by_cases hc : c = 0
      · exact Or.inl ⟨[], s, by simp [hc], by simp [IsText], by simp⟩
      have hs : (0 : UInt8) ∈ s := by simpa [Ne.symm hc] using h
      by_cases hp : p c
      · exact Or.inr ⟨[], c, s, by simp, by simp [IsText], by simp, hp, hs⟩
      rcases ih hs with ⟨a, tail, rfl, ha, hap⟩ | ⟨a, d, rest, rfl, ha, hap, hd, hrest⟩
      · exact Or.inl ⟨c :: a, tail, rfl, isText_cons.mpr ⟨hc, ha⟩,
          List.forall_mem_cons.mpr ⟨hp, hap⟩⟩
      · exact Or.inr ⟨c :: a, d, rest, rfl, isText_cons.mpr ⟨hc, ha⟩,
          List.forall_mem_cons.mpr ⟨hp, hap⟩, hd, hrest⟩

/-- The memory splits at its first line end or NUL. -/
theorem exists_split_line {s : List UInt8} (h : (0 : UInt8) ∈ s) :
    (∃ v tail, s = v ++ 0 :: tail ∧ IsLine v) ∨
    (∃ v rest, s = v ++ cr :: lf :: rest ∧ IsLine v ∧ (0 : UInt8) ∈ rest) := by
  have hnil : IsLine [] := ⟨by simp [IsText], noCrlf_nil⟩
  induction s with
  | nil => simp at h
  | cons c s ih =>
      by_cases hc : c = 0
      · exact Or.inl ⟨[], s, by simp [hc], hnil⟩
      have hs : (0 : UInt8) ∈ s := by simpa [Ne.symm hc] using h
      by_cases hend : c = cr ∧ s.head? = some lf
      · obtain ⟨rfl, hhead⟩ := hend
        obtain ⟨rest, rfl⟩ : ∃ rest, s = lf :: rest := by
          cases s with
          | nil => simp at hhead
          | cons d s => exact ⟨s, by rw [Option.some.inj hhead]⟩
        exact Or.inr ⟨[], rest, rfl, hnil, (List.mem_cons.mp hs).resolve_left (by decide)⟩
      -- the head of `s` is the head of the line found in it, unless that line is empty
      have hcons : ∀ v t, s = v ++ t → IsLine v → IsLine (c :: v) := by
        intro v t hvt hv
        refine isLine_cons.mpr ⟨⟨hc, fun hlf => hend ⟨hlf.1, ?_⟩⟩, hv⟩
        rw [hvt, List.head?_append, hlf.2, Option.some_or]
      rcases ih hs with ⟨v, tail, hv, hline⟩ | ⟨v, rest, hv, hline, hrest⟩
      · exact Or.inl ⟨c :: v, tail, by rw [hv, List.cons_append], hcons v _ hv hline⟩
      · exact Or.inr ⟨c :: v, rest, by rw [hv, List.cons_append], hcons v _ hv hline, hrest⟩

/-- The memory splits where a query key ends: at a NUL, at `=`, or before a space. -/
theorem exists_split_key {s : List UInt8} (h : (0 : UInt8) ∈ s) :
    (∃ k tail, s = k ++ 0 :: tail ∧ IsKey k) ∨
    (∃ k rest, s = k ++ equals :: rest ∧ IsKey k ∧ (0 : UInt8) ∈ rest) ∨
    (∃ k rest, s = k ++ space :: rest ∧ IsKey k ∧ k ≠ [] ∧ (0 : UInt8) ∈ rest) := by
  induction s with
  | nil => simp at h
  | cons c s ih =>
      by_cases hc : c = 0
      · exact Or.inl ⟨[], s, by simp [hc], isKey_nil⟩
      have hs : (0 : UInt8) ∈ s := by simpa [Ne.symm hc] using h
      by_cases heq : c = equals
      · exact Or.inr (Or.inl ⟨[], s, by simp [heq], isKey_nil, hs⟩)
      by_cases hsp : s.head? = some space
      · obtain ⟨rest, rfl⟩ : ∃ rest, s = space :: rest := by
          cases s with
          | nil => simp at hsp
          | cons d s => exact ⟨s, by rw [Option.some.inj hsp]⟩
        have hkey : IsKey [c] := isKey_cons.mpr ⟨⟨hc, heq⟩, isKey_nil.1, by simp⟩
        exact Or.inr (Or.inr ⟨[c], rest, rfl, hkey, by simp,
          (List.mem_cons.mp hs).resolve_left (by decide)⟩)
      have hcons : ∀ k t, s = k ++ t → IsKey k → IsKey (c :: k) := by
        intro k t hkt hk
        refine isKey_cons.mpr ⟨⟨hc, heq⟩, hk.1, hk.not_mem_space fun hhead => hsp ?_⟩
        rw [hkt, List.head?_append, hhead, Option.some_or]
      rcases ih hs with ⟨k, tail, hk, hkey⟩ | ⟨k, rest, hk, hkey, hrest⟩ |
        ⟨k, rest, hk, hkey, -, hrest⟩
      · exact Or.inl ⟨c :: k, tail, by rw [hk, List.cons_append], hcons k _ hk hkey⟩
      · exact Or.inr (Or.inl
          ⟨c :: k, rest, by rw [hk, List.cons_append], hcons k _ hk hkey, hrest⟩)
      · exact Or.inr (Or.inr
          ⟨c :: k, rest, by rw [hk, List.cons_append], hcons k _ hk hkey, by simp, hrest⟩)

/-- A line with a colon in it splits at the first one. -/
theorem exists_split_colon {v : List UInt8} (h : IsLine v) (hmem : colon ∈ v) :
    ∃ j r, v = j ++ colon :: r ∧ IsName j := by
  obtain ⟨j, r, hv, hj⟩ := List.eq_append_cons_of_mem hmem
  exact ⟨j, r, hv, IsLine.of_append (hv ▸ h), hj⟩

section
variable {data : List UInt8}

/-- What the induction below knows of the shorter memories. -/
def ReadsBelow (data : List UInt8) : Prop :=
  ∀ (part : HeadPart) (rest : List UInt8), rest.length < data.length →
    (0 : UInt8) ∈ rest → ∃ toks e, HeadText part rest toks e

theorem exists_headText_method (ih : ReadsBelow data) (h : (0 : UInt8) ∈ data) :
    ∃ toks e, HeadText .method data toks e := by
  obtain ⟨c, s, rfl⟩ := List.exists_cons_of_ne_nil (List.ne_nil_of_mem h)
  by_cases hc : c = 0
  · subst hc
    exact ⟨_, _, HeadText.methodNil⟩
  have hs : (0 : UInt8) ∈ s := by simpa [Ne.symm hc] using h
  by_cases hstart : IsMethodStart c
  · rcases exists_split (· = space) hs with
      ⟨a, tail, rfl, ha, hsp⟩ | ⟨a, _, rest, rfl, ha, hsp, rfl, hrest⟩
    · exact ⟨_, _, HeadText.methodCut hstart ⟨ha, fun hm => hsp _ hm rfl⟩⟩
    · obtain ⟨ts, e, hts⟩ := ih .path rest (by simp; omega) hrest
      exact ⟨_, _, HeadText.method hstart ⟨ha, fun hm => hsp _ hm rfl⟩ hts⟩
  · obtain ⟨rest, hrest⟩ := exists_eq_cstr_append hs
    rw [hrest]
    exact ⟨_, _, HeadText.methodBad hc hstart (isText_cstr _)⟩

theorem exists_headText_path (ih : ReadsBelow data) (h : (0 : UInt8) ∈ data) :
    ∃ toks e, HeadText .path data toks e := by
  obtain ⟨c, s, rfl⟩ := List.exists_cons_of_ne_nil (List.ne_nil_of_mem h)
  by_cases hc : c = 0
  · subst hc
    exact ⟨_, _, HeadText.pathNil⟩
  have hs : (0 : UInt8) ∈ s := by simpa [Ne.symm hc] using h
  by_cases hslash : c = slash
  · subst hslash
    rcases exists_split (fun d => d = space ∨ d = question) hs with
      ⟨a, tail, rfl, ha, hsp⟩ | ⟨a, d, rest, rfl, ha, hsp, hd, hrest⟩
    · exact ⟨_, _, HeadText.pathCut ⟨ha, fun hm => hsp _ hm (Or.inl rfl)⟩
        fun hm => hsp _ hm (Or.inr rfl)⟩
    · have hw : Without space a := ⟨ha, fun hm => hsp _ hm (Or.inl rfl)⟩
      have hq : question ∉ a := fun hm => hsp _ hm (Or.inr rfl)
      rcases hd with rfl | rfl
      · obtain ⟨ts, e, hts⟩ := ih .protocol rest (by simp; omega) hrest
        exact ⟨_, _, HeadText.pathSpace hw hq hts⟩
      · obtain ⟨ts, e, hts⟩ := ih .key rest (by simp; omega) hrest
        exact ⟨_, _, HeadText.pathQuery hw hq hts⟩
  · obtain ⟨rest, hrest⟩ := exists_eq_cstr_append hs
    rw [hrest]
    exact ⟨_, _, HeadText.pathBad hc hslash (isText_cstr _)⟩

theorem exists_headText_key (ih : ReadsBelow data) (h : (0 : UInt8) ∈ data) :
    ∃ toks e, HeadText .key data toks e := by
  rcases exists_split_key h with ⟨k, tail, rfl, hkey⟩ | ⟨k, rest, rfl, hkey, hrest⟩ |
    ⟨k, rest, rfl, hkey, hne, hrest⟩
  · exact ⟨_, _, HeadText.keyCut hkey⟩
  · obtain ⟨ts, e, hts⟩ := ih .value rest (by simp; omega) hrest
    exact ⟨_, _, HeadText.key hkey hts⟩
  · obtain ⟨tail, htail⟩ := exists_eq_cstr_append hrest
    rw [htail]
    exact ⟨_, _, HeadText.keyBad hkey hne (isText_cstr _)⟩

theorem exists_headText_value (ih : ReadsBelow data) (h : (0 : UInt8) ∈ data) :
    ∃ toks e, HeadText .value data toks e := by
  rcases exists_split (fun d => d = space ∨ d = amp) h with
    ⟨a, tail, rfl, ha, hsp⟩ | ⟨a, d, rest, rfl, ha, hsp, hd, hrest⟩
  · exact ⟨_, _, HeadText.valueCut ⟨ha, fun hm => hsp _ hm (Or.inl rfl)⟩
      fun hm => hsp _ hm (Or.inr rfl)⟩
  · have hw : Without space a := ⟨ha, fun hm => hsp _ hm (Or.inl rfl)⟩
    have hq : amp ∉ a := fun hm => hsp _ hm (Or.inr rfl)
    rcases hd with rfl | rfl
    · obtain ⟨ts, e, hts⟩ := ih .protocol rest (by simp; omega) hrest
      exact ⟨_, _, HeadText.valueSpace hw hq hts⟩
    · obtain ⟨ts, e, hts⟩ := ih .key rest (by simp; omega) hrest
      exact ⟨_, _, HeadText.valueAmp hw hq hts⟩

theorem exists_headText_protocol (ih : ReadsBelow data) (h : (0 : UInt8) ∈ data) :
    ∃ toks e, HeadText .protocol data toks e := by
  rcases exists_split (· = slash) h with
    ⟨a, tail, rfl, ha, hsp⟩ | ⟨a, _, rest, rfl, ha, hsp, rfl, hrest⟩
  · exact ⟨_, _, HeadText.protocolCut ⟨ha, fun hm => hsp _ hm rfl⟩⟩
  · obtain ⟨ts, e, hts⟩ := ih .version rest (by simp; omega) hrest
    exact ⟨_, _, HeadText.protocol ⟨ha, fun hm => hsp _ hm rfl⟩ hts⟩

theorem exists_headText_version (ih : ReadsBelow data) (h : (0 : UInt8) ∈ data) :
    ∃ toks e, HeadText .version data toks e := by
  rcases exists_split_line h with ⟨v, tail, rfl, hline⟩ | ⟨v, rest, rfl, hline, hrest⟩
  · exact ⟨_, _, HeadText.versionCut hline⟩
  · obtain ⟨ts, e, hts⟩ := ih .name rest (by simp; omega) hrest
    exact ⟨_, _, HeadText.version hline hts⟩

/-- A line with a colon in it is a header name and what follows. -/
theorem exists_headText_colon {v t : List UInt8} (ih : ReadsBelow (v ++ t)) (hv : IsLine v)
    (hmem : colon ∈ v) (ht : (0 : UInt8) ∈ t) : ∃ toks e, HeadText .name (v ++ t) toks e := by
  obtain ⟨j, r, rfl, hj⟩ := exists_split_colon hv hmem
  rw [List.append_assoc, List.cons_append] at ih ⊢
  obtain ⟨x, rest, hx⟩ := List.exists_cons_of_ne_nil
    (List.ne_nil_of_mem (List.mem_append_right r ht))
  rw [hx] at ih ⊢
  by_cases hx0 : x = 0
  · subst hx0
    exact ⟨_, _, HeadText.nameColon hj⟩
  · have hrest : (0 : UInt8) ∈ rest := by
      have hmem : (0 : UInt8) ∈ x :: rest := hx ▸ List.mem_append_right r ht
      simpa [Ne.symm hx0] using hmem
    obtain ⟨ts, e, hts⟩ := ih .field rest (by simp; omega) hrest
    exact ⟨_, _, HeadText.name hj hx0 hts⟩

theorem exists_headText_name (ih : ReadsBelow data) (h : (0 : UInt8) ∈ data) :
    ∃ toks e, HeadText .name data toks e := by
  rcases exists_split_line h with ⟨v, tail, rfl, hline⟩ | ⟨v, rest, rfl, hline, hrest⟩
  · by_cases hmem : colon ∈ v
    · exact exists_headText_colon ih hline hmem (by simp)
    · exact ⟨_, _, HeadText.nameCut ⟨hline, hmem⟩⟩
  · by_cases hmem : colon ∈ v
    · exact exists_headText_colon ih hline hmem (by simp [hrest])
    · exact ⟨_, _, HeadText.nameEnd ⟨hline, hmem⟩⟩

theorem exists_headText_field (ih : ReadsBelow data) (h : (0 : UInt8) ∈ data) :
    ∃ toks e, HeadText .field data toks e := by
  rcases exists_split_line h with ⟨v, tail, rfl, hline⟩ | ⟨v, rest, rfl, hline, hrest⟩
  · exact ⟨_, _, HeadText.fieldCut hline⟩
  · obtain ⟨ts, e, hts⟩ := ih .name rest (by simp; omega) hrest
    exact ⟨_, _, HeadText.field hline hts⟩

end

/-- Every memory with a NUL in it reads as some tokens from any part on. -/
theorem exists_headText (part : HeadPart) (data : List UInt8) (h : (0 : UInt8) ∈ data) :
    ∃ toks e, HeadText part data toks e := by
  induction hn : data.length using Nat.strong_induction_on generalizing part data with
  | _ n ih =>
      subst hn
      have hbelow : ReadsBelow data := fun part rest hlt hrest => ih _ hlt part rest hrest rfl
      cases part with
      | method => exact exists_headText_method hbelow h
      | path => exact exists_headText_path hbelow h
      | key => exact exists_headText_key hbelow h
      | value => exact exists_headText_value hbelow h
      | protocol => exact exists_headText_protocol hbelow h
      | version => exact exists_headText_version hbelow h
      | name => exact exists_headText_name hbelow h
      | field => exact exists_headText_field hbelow h
