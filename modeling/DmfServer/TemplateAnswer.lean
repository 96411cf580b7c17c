/-
# What a block of a template writes

A block is closed by a loop over the entries, which acts on the entry of its name: it
appends the value of a variable to the page, or what a callback or `parse_dec` leaves in
`parsed_str`.  `Answers` compares the loop with what the piece is to write.
-/
import DmfServer.TemplateWalk

open CMem

namespace Template

/-! ## The loops over the entries -/

section
variable {kv : List Kvmap}

theorem eachEntry_eq (act : Scan → Kvmap → Except Fault Scan) (s : Scan) :
    eachEntry kv (kv.length - 1) act s = kv.foldlM act s := by
  unfold eachEntry
  rw [sub_add_cancel, Int.toNat_natCast]
  exact foldlM_range act kv s

theorem cat_temp {s s' : Scan} {text : List UInt8} (h : s.cat text = .ok s') :
    s'.temp = s.temp := by
  unfold Scan.cat at h
  cases hr : s.result.strcat 0 text with
  | error e => rw [hr] at h; cases h
  | ok r => rw [hr] at h; cases h; rfl

/-- The key of an entry is compared with the string in `temp`. -/
theorem strcmp_temp {s : Scan} {name : List UInt8} (hname : s.temp.readStr 0 = .ok name)
    (key : List UInt8) : strcmpZero key s.temp.bytes = .ok (key = name) := by
  obtain ⟨hroom, hstr⟩ := Block.readStr_eq_ok_iff.mp hname
  have hmem := Block.mem_drop_iff.mpr hroom
  rw [Block.str, List.drop_zero] at hstr
  rw [List.drop_zero] at hmem
  rw [strcmpZero_eq hmem, hstr]

/-- The loop of a variable finds the entry of the name. -/
theorem eachEntry_variable (hkeys : (kv.map Kvmap.key).Nodup) {s : Scan} {name : List UInt8}
    (hname : s.temp.readStr 0 = .ok name) :
    eachEntry kv (kv.length - 1) Scan.variable s
      = (lookup kv name).elim (.ok s) fun e => if e.type = 1 then s.cat e.value else .ok s := by
  rw [eachEntry_eq]
  have hloop := foldlM_congr Scan.variable
    (fun s e => if e.key = name then (if e.type = 1 then s.cat e.value else .ok s) else .ok s)
    (fun s => s.temp.readStr 0 = .ok name)
    (fun s e hs => by
      unfold Scan.variable
      rw [strcmp_temp hs, ok_bind]
      split_ifs <;> simp_all)
    (fun s e s' hs hstep => by
      split_ifs at hstep with hkey htype
      · rw [cat_temp hstep, hs]
      · cases hstep; exact hs
      · cases hstep; exact hs) kv hname
  rw [hloop]
  exact foldlM_key Kvmap.key name (fun s e => if e.type = 1 then s.cat e.value else .ok s) hkeys s

/-- What a block does with the entry of its name. -/
def Scan.entry (s : Scan) (e : Kvmap) : Except Fault Scan :=
  if e.type = 2 then do
    let inner ← s.blockStr.readStr 0
    let parsed ← s.parsedStr.strcpy 0 (e.func inner)
    let s ← s.cat (parsed.str 0)
    .ok { s with parsedStr := parsed, blockStr := Block.zero _ }
  else if e.type = 3 then do
    let (parsed, _) ← parseDec s.parsedStr e.dec s.blockStr
    let s ← s.cat (parsed.str 0)
    .ok { s with parsedStr := parsed, blockStr := Block.zero _ }
  else .ok s

theorem block_eq {s : Scan} {name : List UInt8} (hname : s.temp.readStr 0 = .ok name)
    (e : Kvmap) : s.block e = if e.key = name then s.entry e else .ok s := by
  unfold Scan.block Scan.entry
  rw [strcmp_temp hname, ok_bind]
  simp only [decide_eq_true_eq]
  by_cases hkey : e.key = name
  · by_cases htwo : e.type = 2
    · have hthree : e.type ≠ 3 := by omega
      simp only [hthree, and_false, if_false]
      rw [if_pos ⟨hkey, htwo⟩, if_pos hkey, if_pos htwo]
      rfl
    · simp only [hkey, htwo, true_and, if_true, if_false, ok_bind]
  · simp only [hkey, false_and, if_false, ok_bind]

theorem entry_temp {s s' : Scan} {e : Kvmap} (h : s.entry e = .ok s') : s'.temp = s.temp := by
  unfold Scan.entry at h
  split_ifs at h
  · obtain ⟨inner, -, h⟩ := exists_of_bind h
    obtain ⟨parsed, -, h⟩ := exists_of_bind h
    obtain ⟨s₁, hcat, h⟩ := exists_of_bind h
    cases h
    show s₁.temp = s.temp
    exact cat_temp hcat
  · obtain ⟨parsed, -, h⟩ := exists_of_bind h
    obtain ⟨s₁, hcat, h⟩ := exists_of_bind h
    cases h
    show s₁.temp = s.temp
    exact cat_temp hcat
  · cases h
    rfl

/-- The loop of a block finds the entry of the name. -/
theorem eachEntry_block (hkeys : (kv.map Kvmap.key).Nodup) {s : Scan} {name : List UInt8}
    (hname : s.temp.readStr 0 = .ok name) :
    eachEntry kv (kv.length - 1) Scan.block s = (lookup kv name).elim (.ok s) s.entry := by
  rw [eachEntry_eq]
  have hloop := foldlM_congr Scan.block
    (fun s e => if e.key = name then s.entry e else .ok s)
    (fun s => s.temp.readStr 0 = .ok name) (fun s e hs => block_eq hs e)
    (fun s e s' hs hstep => by
      split_ifs at hstep with hkey
      · rw [entry_temp hstep, hs]
      · cases hstep; exact hs) kv hname
  rw [hloop]
  exact foldlM_key Kvmap.key name Scan.entry hkeys s

end

/-! ## What a list is rendered to -/

/-- The placeholder does not overlap itself. -/
theorem item_overlap : ∀ k < 8, 0 < k → item.drop k ≠ item.take (8 - k) := by decide

/-- The first placeholder behind a text without one. -/
theorem strstr_item {before : List UInt8} (h : ¬item <:+: before) (rest : List UInt8) :
    strstr (before ++ (item ++ rest)) item = some (item ++ rest) := by
  refine strstr_append (by decide) fun back hback hsuffix hpre => ?_
  have hlen : item.length = 8 := rfl
  obtain hle | hlt := Nat.lt_or_ge back.length 8
  · -- it would run from the text into the placeholder behind it
    have hpos : 0 < back.length := List.length_pos_of_ne_nil hback
    have hitem : item = back ++ item.take (8 - back.length) := by
      have htake := List.prefix_iff_eq_take.mp hpre
      rw [hlen, List.take_append, List.take_of_length_le (by omega),
        List.take_append_of_le_length (by omega)] at htake
      exact htake
    have hdrop := congrArg (List.drop back.length) hitem
    rw [List.drop_left] at hdrop
    exact item_overlap _ hle hpos hdrop
  · have hin : item <+: back :=
      List.prefix_of_prefix_length_le hpre (List.prefix_append back _) (by omega)
    exact h (hin.isInfix.trans hsuffix.isInfix)

/-- The loop of `parse_dec` appends the items, each between the two texts. -/
theorem foldlM_items {n : ℕ} (tt : Block n) {before after : List UInt8} (hbefore : IsText before)
    (hafter : IsText after) {items : List (List UInt8)} (hitems : ∀ i ∈ items, IsText i)
    (hne : items ≠ []) :
    items.foldlM (fun tt i => do
        let tt ← tt.strcat 0 before
        let tt ← tt.strcat 0 i
        tt.strcat 0 after) tt
      = tt.strcat 0 (items.flatMap fun i => before ++ i ++ after) := by
  induction items generalizing tt with
  | nil => exact absurd rfl hne
  | cons i items ih =>
      obtain ⟨hi, hitems⟩ := List.forall_mem_cons.mp hitems
      have hfront : IsText (before ++ i) := isText_append.mpr ⟨hbefore, hi⟩
      have hone : IsText (before ++ i ++ after) := isText_append.mpr ⟨hfront, hafter⟩
      have hround : (do
          let tt ← tt.strcat 0 before
          let tt ← tt.strcat 0 i
          tt.strcat 0 after) = tt.strcat 0 (before ++ i ++ after) := by
        rw [← Block.strcat_strcat tt 0 hfront, ← Block.strcat_strcat tt 0 hbefore, bind_assoc]
      rw [List.foldlM_cons, hround, List.flatMap_cons]
      by_cases hrest : items = []
      · subst hrest
        rw [List.flatMap_nil, List.append_nil]
        cases tt.strcat 0 (before ++ i ++ after) <;> rfl
      · rw [← Block.strcat_strcat tt 0 hone]
        congr 1
        funext tt
        exact ih tt hitems hrest

/-- `parse_dec` appends what the items are rendered to, or has no room for it. -/
theorem parseDec_cases {tt inner : Block scratchSize} {before after : List UInt8}
    {dec : List (List UInt8)} (htext : IsText (before ++ (item ++ after)))
    (hbefore : ¬item <:+: before)
    (hinner : inner.readStr 0 = .ok (before ++ (item ++ after)))
    (hdec : ∀ i ∈ dec, IsText i) (hlen : dec.length < decNum)
    (hroom : (tt.str 0).length < scratchSize) :
    (((tt.str 0) ++ dec.flatMap fun i => before ++ i ++ after).length < scratchSize ∧
      ∃ tt' inner', parseDec tt dec inner = .ok (tt', inner') ∧
        tt'.str 0 = tt.str 0 ++ dec.flatMap fun i => before ++ i ++ after) ∨
    (scratchSize ≤ ((tt.str 0) ++ dec.flatMap fun i => before ++ i ++ after).length ∧
        parseDec tt dec inner = .error .write) := by
  have hafter : IsText after := (isText_append.mp (isText_append.mp htext).2).2
  have hfit := (Block.readStr_eq_ok_iff.mp hinner).1
  rw [(Block.readStr_eq_ok_iff.mp hinner).2] at hfit
  simp only [List.length_append] at hfit
  obtain ⟨inner', hpoke, hbefore'⟩ := Block.exists_cut hinner
  obtain ⟨other, hcopy, hother⟩ := Block.exists_strcpy (b := Block.zero scratchSize) hafter
    (by omega)
  have hcut : (before ++ (item ++ after)).length - (item ++ after).length = before.length := by
    rw [List.length_append, Nat.add_sub_cancel]
  have hdrop : (item ++ after).drop 8 = after := rfl
  have hrun : parseDec tt dec inner = dec.foldlM (fun tt i => do
        let tt ← tt.strcat 0 before
        let tt ← tt.strcat 0 i
        tt.strcat 0 after) tt >>= fun tt => .ok (tt, inner') := by
    unfold parseDec
    rw [hinner, ok_bind, strstr_item hbefore]
    dsimp only
    rw [hcut, hpoke, ok_bind, hdrop, hcopy, ok_bind, hbefore', ok_bind, hother, ok_bind]
    congr 1
    funext tt
    exact if_pos hlen
  rw [hrun]
  -- without items nothing is written, and the room does not matter
  by_cases hne : dec = []
  · subst hne
    exact Or.inl ⟨by simpa using hroom, tt, inner', rfl, by simp⟩
  · rw [foldlM_items tt (isText_append.mp htext).1 hafter hdec hne]
    have hwritten : IsText (dec.flatMap fun i => before ++ i ++ after) := by
      intro hmem
      obtain ⟨i, hi, hzero⟩ := List.mem_flatMap.mp hmem
      exact (isText_append.mpr ⟨isText_append.mpr ⟨(isText_append.mp htext).1, hdec i hi⟩,
        hafter⟩) hzero
    rw [List.length_append]
    rcases Block.strcat_cases tt hwritten with ⟨hok, tt', hcat, hstr⟩ | ⟨hfull, hcat⟩
    · exact Or.inl ⟨hok, tt', inner', by rw [hcat]; rfl, hstr⟩
    · exact Or.inr ⟨hfull, by rw [hcat]; rfl⟩

/-! ## What the loops over the entries write -/

/-- A loop over the entries has written to `result` and `parsed_str`. -/
structure Scan.Wrote (s s' : Scan) (parsed out : List UInt8) : Prop where
  same : s' = { s with
    resPos := s'.resPos, blockStr := s'.blockStr, parsedStr := s'.parsedStr, result := s'.result }
  parsed_eq : s'.parsedStr.str 0 = parsed
  parsedRoom : parsed.length < scratchSize
  shows : s'.Shows out

/-- A loop over the entries does what it is to write, or faults, where that faults or the page
has no room for it. -/
def Answers (s : Scan) (out : List UInt8) (w : Except Fault (List UInt8 × List UInt8))
    (run : Except Fault Scan) : Prop :=
  (∃ parsed text s', w = .ok (parsed, text) ∧ run = .ok s' ∧ s.Wrote s' parsed (out ++ text)) ∨
  ((∃ e, run = .error e) ∧
    ∀ parsed text, w = .ok (parsed, text) → templateResultSize ≤ out.length + text.length)

section
variable {kv : List Kvmap} {s : Scan} {parsed out : List UInt8}

theorem answers_nothing (hparsed : s.parsedStr.str 0 = parsed)
    (hroom : parsed.length < scratchSize) (hshows : s.Shows out) :
    Answers s out (.ok (parsed, [])) (.ok s) :=
  Or.inl ⟨parsed, [], s, rfl, rfl, rfl, hparsed, hroom, by rwa [List.append_nil]⟩

theorem answers_error {e e' : Fault} : Answers s out (.error e) (.error e') := by
  refine Or.inr ⟨⟨e', rfl⟩, ?_⟩
  intro parsed text h
  cases h

/-- A variable writes its value. -/
theorem answers_variable (hkv : ∀ e ∈ kv, e.WellFormed) (hkeys : (kv.map Kvmap.key).Nodup)
    {name : List UInt8} (hname : s.temp.readStr 0 = .ok name)
    (hparsed : s.parsedStr.str 0 = parsed) (hroom : parsed.length < scratchSize)
    (hshows : s.Shows out) :
    Answers s out (.ok (parsed, valueOf kv name)) (eachEntry kv (kv.length - 1) Scan.variable s) := by
  rw [eachEntry_variable hkeys hname]
  unfold valueOf
  cases hentry : lookup kv name with
  | none => exact answers_nothing hparsed hroom hshows
  | some e =>
      rw [Option.elim_some]
      dsimp only
      have he : e ∈ kv := List.mem_of_find?_eq_some hentry
      split_ifs with htype
      · rcases hshows.cat (hkv e he).value with ⟨result, hcat, hshows'⟩ | ⟨hcat, hfull⟩
        · exact Or.inl ⟨parsed, e.value, _, rfl, hcat, rfl, hparsed, hroom, hshows'⟩
        · refine Or.inr ⟨⟨_, hcat⟩, fun parsed' text h => ?_⟩
          cases h
          exact hfull
      · exact answers_nothing hparsed hroom hshows

/-- The text goes to the page from `parsed_str`, and stays there. -/
theorem answers_cat {text : List UInt8} (htext : IsText text) (hroom : text.length < scratchSize)
    {parsedStr : Block scratchSize} (hstr : parsedStr.str 0 = text) (hshows : s.Shows out) :
    Answers s out (.ok (text, text)) (s.cat (parsedStr.str 0) >>= fun s =>
      .ok { s with parsedStr := parsedStr, blockStr := Block.zero _ }) := by
  rw [hstr]
  rcases hshows.cat htext with ⟨result, hcat, hshows'⟩ | ⟨hcat, hfull⟩
  · rw [hcat, ok_bind]
    exact Or.inl ⟨text, text, _, rfl, rfl, rfl, hstr, hroom, hshows'.text, hshows'.pos,
      hshows'.room, hshows'.result⟩
  · rw [hcat]
    refine Or.inr ⟨⟨_, rfl⟩, fun parsed text' h => ?_⟩
    cases h
    exact hfull

/-- A function block writes what its callback writes. -/
theorem answers_func (hkv : ∀ e ∈ kv, e.WellFormed) (hkeys : (kv.map Kvmap.key).Nodup)
    {name inner stale : List UInt8} (hname : s.temp.readStr 0 = .ok name)
    (hfits : (Piece.func name inner).Fits kv)
    (hblock : s.blockStr.readStr 0 = .ok (inner ++ stale))
    (hparsed : s.parsedStr.str 0 = parsed) (hroom : parsed.length < scratchSize)
    (hshows : s.Shows out) :
    Answers s out ((Piece.func name inner).writes kv stale parsed)
      (eachEntry kv (kv.length - 1) Scan.block s) := by
  rw [eachEntry_block hkeys hname]
  simp only [Piece.writes]
  simp only [Piece.Fits] at hfits
  cases hentry : lookup kv name with
  | none =>
      rw [functionOf_of_none hentry]
      exact answers_nothing hparsed hroom hshows
  | some e =>
      rw [itemsOf_of_some hentry] at hfits
      have hthree : e.type ≠ 3 := fun h => by simp [h] at hfits
      rw [functionOf_of_some hentry, Option.elim_some]
      unfold Scan.entry
      by_cases htwo : e.type = 2
      · have htext : IsText (e.func (inner ++ stale)) := by
          refine (hkv e (List.mem_of_find?_eq_some hentry)).func _ ?_
          rw [← (Block.readStr_eq_ok_iff.mp hblock).2]
          exact isText_cstr _
        simp only [if_pos htwo, hblock, ok_bind]
        by_cases hlen : (e.func (inner ++ stale)).length < scratchSize
        · obtain ⟨parsed', hcopy, hread⟩ := Block.exists_strcpy (b := s.parsedStr) htext hlen
          rw [hcopy, ok_bind, if_pos hlen]
          exact answers_cat htext hlen (Block.readStr_eq_ok_iff.mp hread).2 hshows
        · rw [Block.strcpy_eq_error (by omega), if_neg hlen]
          exact answers_error
      · simp only [if_neg htwo, if_neg hthree]
        exact answers_nothing hparsed hroom hshows

/-- A list block writes what is in `parsed_str`, and its items behind it. -/
theorem answers_list (hkv : ∀ e ∈ kv, e.WellFormed) (hkeys : (kv.map Kvmap.key).Nodup)
    {name before after stale : List UInt8} (hname : s.temp.readStr 0 = .ok name)
    (hfits : (Piece.list name before after).Fits kv) (hbefore : ¬item <:+: before)
    (hblock : s.blockStr.readStr 0 = .ok (before ++ (item ++ (after ++ stale))))
    (hparsed : s.parsedStr.str 0 = parsed) (hroom : parsed.length < scratchSize)
    (hshows : s.Shows out) :
    Answers s out ((Piece.list name before after).writes kv stale parsed)
      (eachEntry kv (kv.length - 1) Scan.block s) := by
  rw [eachEntry_block hkeys hname]
  simp only [Piece.writes]
  simp only [Piece.Fits] at hfits
  cases hentry : lookup kv name with
  | none =>
      rw [itemsOf_of_none hentry]
      exact answers_nothing hparsed hroom hshows
  | some e =>
      rw [functionOf_of_some hentry] at hfits
      have htwo : e.type ≠ 2 := fun h => by simp [h] at hfits
      have he := hkv e (List.mem_of_find?_eq_some hentry)
      rw [itemsOf_of_some hentry, Option.elim_some]
      unfold Scan.entry
      simp only [if_neg htwo]
      by_cases hthree : e.type = 3
      · have htext : IsText (before ++ (item ++ (after ++ stale))) := by
          rw [← (Block.readStr_eq_ok_iff.mp hblock).2]
          exact isText_cstr _
        simp only [if_pos hthree]
        rcases parseDec_cases htext hbefore hblock he.dec he.dec_length (hparsed.symm ▸ hroom) with
          ⟨hlen, parsedStr, inner', hrun, hstr⟩ | ⟨hfull, hrun⟩
        · rw [hparsed] at hlen hstr
          rw [hrun, ok_bind, if_pos hlen]
          exact answers_cat (hstr ▸ isText_cstr _) hlen hstr hshows
        · rw [hparsed] at hfull
          rw [hrun, if_neg (by omega)]
          exact answers_error
      · simp only [if_neg hthree]
        exact answers_nothing hparsed hroom hshows

end

end Template
