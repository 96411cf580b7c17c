/-
# Templates of literal texts and variables

A template without blocks is literal texts with variables between them.  Its page has
the literal texts as they are, and for every variable the values of all entries of its
name, one behind the other in the order of the array; what the entries hold is never
looked at again.  Nothing is left in `temp` that a name of less than 64 characters would
run into.
-/
import DmfServer.TemplatePage

open CMem Template

/-- What is put in the place of `[#name#]`. -/
def substituted (kv : List Kvmap) (name : List UInt8) : List UInt8 :=
  (kv.filter fun e => e.key = name ∧ e.type = 1).flatMap Kvmap.value

/-- A template of literal texts and variables.  Between two variables, in front of the first
and behind the last there is one literal text, which may be empty. -/
structure VariableTemplate where
  /-- The literal text in front of the first variable. -/
  head : List UInt8
  /-- The names, each with the literal text behind its variable. -/
  vars : List (List UInt8 × List UInt8)
  head_literal : (Piece.literal head).WellFormed
  literal : ∀ v ∈ vars, (Piece.literal v.2).WellFormed
  name_text : ∀ v ∈ vars, IsText v.1
  name_open : ∀ v ∈ vars, ¬[hash, closing] <:+: v.1
  name_short : ∀ v ∈ vars, v.1.length < 64

namespace VariableTemplate

/-- The text of the template. -/
def source (t : VariableTemplate) : List UInt8 :=
  t.head ++ t.vars.flatMap fun v => (Piece.var v.1).source ++ v.2

/-- The page: every variable replaced. -/
def page (kv : List Kvmap) (t : VariableTemplate) : List UInt8 :=
  t.head ++ t.vars.flatMap fun v => substituted kv v.1 ++ v.2

end VariableTemplate

namespace Template

/-! ## Every entry of a name -/

/-- What is written behind what is written. -/
theorem Scan.Wrote.trans {s s₁ s₂ : Scan} {parsed parsed' out out' : List UInt8}
    (h : s.Wrote s₁ parsed out) (h' : s₁.Wrote s₂ parsed' out') : s.Wrote s₂ parsed' out' := by
  refine ⟨?_, h'.parsed_eq, h'.parsedRoom, h'.shows⟩
  have hfirst := h.same
  have hsecond := h'.same
  rw [hfirst] at hsecond
  exact hsecond

/-- The loop of a variable writes the values of all entries of its name. -/
theorem answers_variables {kv : List Kvmap} (hkv : ∀ e ∈ kv, IsText e.value) {s : Scan}
    {parsed out name : List UInt8} (hname : s.temp.readStr 0 = .ok name)
    (hparsed : s.parsedStr.str 0 = parsed) (hroom : parsed.length < scratchSize)
    (hshows : s.Shows out) :
    Answers s out (.ok (parsed, substituted kv name)) (kv.foldlM Scan.variable s) := by
  induction kv generalizing s out with
  | nil => exact answers_nothing hparsed hroom hshows
  | cons e kv ih =>
      obtain ⟨he, hkv⟩ := List.forall_mem_cons.mp hkv
      rw [List.foldlM_cons, Scan.variable, strcmp_temp hname, ok_bind]
      simp only [decide_eq_true_eq]
      unfold substituted
      by_cases hentry : e.key = name ∧ e.type = 1
      · rw [if_pos hentry, List.filter_cons_of_pos (by simpa using hentry), List.flatMap_cons,
          ← substituted]
        rcases hshows.cat he with ⟨result, hcat, hshows'⟩ | ⟨hcat, hfull⟩
        · rw [hcat, ok_bind]
          have hwrote : s.Wrote { s with result := result, resPos := out.length + e.value.length }
              parsed (out ++ e.value) := ⟨rfl, hparsed, hroom, hshows'⟩
          rcases ih hkv (s := { s with result := result, resPos := out.length + e.value.length })
            hname hparsed hshows' with ⟨parsed', text, s₂, hw, hrun, hwrote₂⟩ | ⟨herror, hfull⟩
          · cases hw
            refine Or.inl ⟨parsed, _, s₂, rfl, hrun, ?_⟩
            rw [← List.append_assoc]
            exact hwrote.trans hwrote₂
          · refine Or.inr ⟨herror, fun parsed' text h => ?_⟩
            cases h
            have hlen := hfull _ _ rfl
            rw [List.length_append] at hlen ⊢
            omega
        · rw [hcat]
          refine Or.inr ⟨⟨_, rfl⟩, fun parsed' text h => ?_⟩
          cases h
          rw [List.length_append]
          omega
      · rw [if_neg hentry, List.filter_cons_of_neg (by simpa using hentry), ← substituted]
        exact ih hkv hname hparsed hshows

/-! ## The walk -/

/-- A variable and the literal text behind it. -/
theorem exists_walk_variable {kv : List Kvmap} (hkv : ∀ e ∈ kv, IsText e.value) {s : Scan}
    {temp parsed out : List UInt8} (h : s.Rests temp parsed out) {name text : List UInt8}
    (hname : IsText name) (hopen : ¬[hash, closing] <:+: name) (hshort : name.length < 64)
    (htext : (Piece.literal text).WellFormed) {d : UInt8} (hd : d ≠ hash ∧ d ≠ atSign)
    (hroom : out.length + (substituted kv name ++ text).length < templateResultSize)
    (rest : List UInt8) :
    ∃ s' temp', parseLoop kv (kv.length - 1) ((Piece.var name).source ++ text ++ d :: rest) s
        = parseLoop kv (kv.length - 1) (d :: rest) s' ∧
      s'.Rests temp' parsed (out ++ (substituted kv name ++ text)) := by
  rw [List.length_append] at hroom
  obtain ⟨e, tail, htail⟩ := List.exists_cons_of_ne_nil (l := text ++ d :: rest) (by simp)
  have hstale : (Piece.var name).stale temp = [] := h.tidy.stale_eq_nil hshort
  -- the variable
  obtain ⟨s₁, hrun, hrests⟩ : ∃ s₁,
      parseLoop kv (kv.length - 1) ((Piece.var name).source ++ e :: tail) s
        = parseLoop kv (kv.length - 1) (e :: tail) s₁ ∧
      s₁.Rests ((Piece.var name).leave temp) parsed (out ++ substituted kv name) := by
    have houtcome := outcome_name (w := .ok (parsed, substituted kv name)) h hname hopen
      (Nat.lt_trans hshort (by decide)) (fun s₀ hread hparsed hshows => by
        rw [hstale, List.append_nil] at hread
        rw [eachEntry_eq]
        exact answers_variables hkv hread hparsed h.parsedRoom hshows) e tail
    rcases houtcome with ⟨parsed', text', s₁, hw, hrun, hrests⟩ | ⟨-, hfull⟩
    · cases hw
      exact ⟨s₁, hrun, hrests⟩
    · have hlen := hfull _ _ rfl
      omega
  -- the literal text behind it
  obtain ⟨hhash, hat⟩ := not_infix_literal htext hd
  obtain ⟨s₂, hwalk, hrests₂⟩ := walks_literal kv (kv.length - 1) hrests htext.1 hhash hat
    (by rw [List.length_append]; omega) rest
  refine ⟨s₂, _, ?_, by rwa [List.append_assoc] at hrests₂⟩
  rw [List.append_assoc, htail, hrun, ← htail, hwalk]

/-- Behind a literal text is the bracket of the next variable, or the end. -/
theorem exists_behind (vars : List (List UInt8 × List UInt8)) :
    ∃ d rest, (vars.flatMap fun v => (Piece.var v.1).source ++ v.2) ++ [0] = d :: rest ∧
      d ≠ hash ∧ d ≠ atSign := by
  cases vars with
  | nil => exact ⟨0, [], rfl, by decide⟩
  | cons v vars => exact ⟨opening, _, rfl, by decide⟩

/-- The variables of a template, each with the literal text behind it. -/
theorem exists_walk_variables {kv : List Kvmap} (hkv : ∀ e ∈ kv, IsText e.value)
    {vars : List (List UInt8 × List UInt8)} (hliteral : ∀ v ∈ vars, (Piece.literal v.2).WellFormed)
    (hname : ∀ v ∈ vars, IsText v.1) (hopen : ∀ v ∈ vars, ¬[hash, closing] <:+: v.1)
    (hshort : ∀ v ∈ vars, v.1.length < 64) {s : Scan} {temp parsed out : List UInt8}
    (h : s.Rests temp parsed out)
    (hroom : out.length + (vars.flatMap fun v => substituted kv v.1 ++ v.2).length
      < templateResultSize) :
    ∃ s' temp', parseLoop kv (kv.length - 1)
        ((vars.flatMap fun v => (Piece.var v.1).source ++ v.2) ++ [0]) s
        = parseLoop kv (kv.length - 1) [0] s' ∧
      s'.Rests temp' parsed (out ++ vars.flatMap fun v => substituted kv v.1 ++ v.2) := by
  induction vars generalizing s temp out with
  | nil => exact ⟨s, temp, rfl, by simpa using h⟩
  | cons v vars ih =>
      rw [List.forall_mem_cons] at hliteral hname hopen hshort
      rw [List.flatMap_cons, List.length_append] at hroom
      obtain ⟨d, rest, hnext, hd⟩ := exists_behind vars
      obtain ⟨s₁, temp₁, hrun, hrests⟩ := exists_walk_variable hkv h hname.1 hopen.1 hshort.1
        hliteral.1 hd (by omega) rest
      obtain ⟨s₂, temp₂, hrun₂, hrests₂⟩ := ih hliteral.2 hname.2 hopen.2 hshort.2 hrests
        (by rw [List.length_append]; omega)
      refine ⟨s₂, temp₂, ?_, by simpa only [List.flatMap_cons, List.append_assoc] using hrests₂⟩
      rw [List.flatMap_cons, List.append_assoc, hnext, hrun, ← hnext, hrun₂]

end Template

/-- **Substitution.**  `parse_context` returns the template with every `[#name#]` replaced by
the values of the entries of that name, whatever they hold. -/
theorem parseContext_variables (t : VariableTemplate) {kv : List Kvmap}
    (hkv : ∀ e ∈ kv, IsText e.value) (hshort : (t.page kv).length < 4095) :
    parseContext t.source kv (kv.length - 1) = .ok (t.page kv) := by
  unfold VariableTemplate.page at hshort ⊢
  rw [List.length_append] at hshort
  obtain ⟨d, rest, hnext, hd⟩ := exists_behind t.vars
  obtain ⟨hhash, hat⟩ := not_infix_literal t.head_literal hd
  obtain ⟨s₁, hwalk, hrests⟩ := walks_literal kv (kv.length - 1) rests_start t.head_literal.1
    hhash hat (by rw [List.length_nil, templateResultSize]; omega) rest
  obtain ⟨s₂, temp₂, hrun, hrests₂⟩ := exists_walk_variables hkv t.literal t.name_text
    t.name_open t.name_short hrests (by
      rw [List.nil_append, templateResultSize]
      omega)
  rw [List.nil_append] at hrests₂
  have hloop : parseLoop kv (kv.length - 1) (t.source ++ [0]) .start = .ok s₂ := by
    rw [VariableTemplate.source, List.append_assoc, hnext, hwalk, ← hnext, hrun]
    rfl
  unfold parseContext
  rw [hloop, ok_bind]
  rcases page_end hrests₂.shows with ⟨-, hend⟩ | ⟨hfull, -⟩
  · exact hend
  · rw [templateResultSize, List.length_append] at hfull
    omega

/-- A name with `#` and `@` in it, two entries of one key, an entry of another type between
them, and a value that looks like a variable. -/
theorem parseContext_variables_repeated : parseContext (bytes "x[[#a@##]!")
    [⟨1, bytes "a@#", bytes "[#b#]", [], id⟩, ⟨2, bytes "a@#", bytes "no", [], id⟩,
      ⟨1, bytes "b", bytes "no", [], id⟩, ⟨1, bytes "a@#", bytes "2", [], id⟩] 3
      = .ok (bytes "x[[#b#]2!") :=
  parseContext_variables
    { head := bytes "x["
      vars := [(bytes "a@#", bytes "!")]
      head_literal := ⟨by decide, by decide, by decide⟩
      literal := List.forall_mem_singleton.mpr ⟨by decide, by decide, by decide⟩
      name_text := by decide
      name_open := by decide
      name_short := by decide } (by decide) (by decide)
