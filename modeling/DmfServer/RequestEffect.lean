/-
# What a parse leaves in the request

The parse of a memory with a reading, as far as its outcome goes: tokens that fit the
scratch string and the character arrays are put (`HeadText.exists_putAll`), the two maps
hold the pairs that were read (`Filled.putAll_put`), the path and the method are the texts
that were read (`HeadText.path_eq`, `HeadText.method_eq_iff`), and the ending decides about
the rest (`reqParseHttp_iff`).
-/
import DmfServer.RequestBounds
import DmfServer.MultiPartScan

open CMem Ascii


/-! ## The tokens that fit -/

/-- The longest text of a part that `temp` and the character arrays have room for. -/
def HeadPart.room : HeadPart → ℕ
  | .protocol => 10
  | .version => 5
  | _ => 511

/-- A token that is stored without a fault. -/
def Tok.Fits (t : Tok) : Prop := t.text.length ≤ t.part.room

theorem Tok.Fits.length_le {t : Tok} (h : t.Fits) : t.text.length ≤ 511 := by
  have hroom : t.part.room ≤ 511 := by
    cases t.part <;> decide
  exact h.trans hroom

/-- The node that a text of the part goes into is there. -/
def Filled.Ready (f : Filled) (part : HeadPart) : Prop :=
  match part with
  | .value => f.queryTmp ≠ none
  | .field => f.paramsTmp ≠ none
  | _ => True

/-- A text copied to a field leaves all but the character arrays alone. -/
theorem Filled.copy_eq_ok {f f' : Filled} {off : ℕ} {s : List UInt8} (h : f.copy off s = .ok f') :
    ∃ text, f.request.text.strcpy off s = .ok text ∧
      f' = { f with request := { f.request with text := text } } := by
  obtain ⟨text, htext, h⟩ := exists_of_bind h
  exact ⟨text, htext, (Except.ok.inj h).symm⟩

theorem Filled.exists_copy {f : Filled} {off : ℕ} {s : List UInt8}
    (h : off + s.length + 1 ≤ textSize) : ∃ f', f.copy off s = .ok f' := by
  obtain ⟨text, htext⟩ := Block.strcpy_eq_ok (b := f.request.text) h
  refine ⟨{ f with request := { f.request with text := text } }, ?_⟩
  rw [Filled.copy, htext]
  rfl

/-- A token that is put was short enough. -/
theorem Filled.put_eq_ok {f f' : Filled} {t : Tok} (h : f.put t = .ok f') :
    t.text.length ≤ 511 ∧ f.store t.part t.text = .ok f' := by
  obtain ⟨s, hs, h⟩ := exists_of_bind h
  unfold pile at hs
  split at hs
  · cases hs
    rw [Filled.storeTemp_ample] at h
    split at h
    · next hlt => exact ⟨Nat.le_of_lt_succ hlt, h⟩
    · cases h
  · cases hs

theorem Filled.fits_of_put {f f' : Filled} {t : Tok} (h : f.put t = .ok f') : t.Fits := by
  obtain ⟨hlen, hstore⟩ := Filled.put_eq_ok h
  obtain ⟨part, text⟩ := t
  unfold Tok.Fits
  cases part with
  | protocol =>
      obtain ⟨b, hb, -⟩ := Filled.copy_eq_ok hstore
      have hle := Block.le_of_strcpy hb
      simp only [protocolAt, pathAt, methodAt, httpUriMax, httpMethodMax, textSize] at hle
      simp only [HeadPart.room]
      omega
  | version =>
      obtain ⟨b, hb, -⟩ := Filled.copy_eq_ok hstore
      have hle := Block.le_of_strcpy hb
      simp only [versionAt, protocolAt, pathAt, methodAt, httpProtocolMax, httpUriMax,
        httpMethodMax, textSize] at hle
      simp only [HeadPart.room]
      omega
  | _ => exact hlen

theorem Filled.exists_put {f : Filled} {t : Tok} (hfits : t.Fits) (hready : f.Ready t.part) :
    ∃ f', f.put t = .ok f' := by
  rw [Filled.put_eq hfits.length_le]
  obtain ⟨part, text⟩ := t
  unfold Tok.Fits at hfits
  cases part with
  | method | path | protocol | version =>
      refine Filled.exists_copy ?_
      simp only [HeadPart.room] at hfits
      simp only [versionAt, protocolAt, pathAt, methodAt, httpProtocolMax, httpUriMax,
        httpMethodMax, textSize]
      omega
  | key | name => exact ⟨_, rfl⟩
  | value =>
      obtain ⟨key, hkey⟩ := Option.ne_none_iff_exists'.mp hready
      unfold Filled.store
      simp only [hkey]
      exact ⟨_, rfl⟩
  | field =>
      obtain ⟨key, hkey⟩ := Option.ne_none_iff_exists'.mp hready
      unfold Filled.store
      simp only [hkey]
      exact ⟨_, rfl⟩

/-! ## The maps -/

/-- The key that waits for its value behind a token; keys are texts of the part `k`. -/
def waiting (k : HeadPart) (wait : Option (List UInt8)) (t : Tok) : Option (List UInt8) :=
  if t.part = k then some t.text else wait

/-- The pair that a token puts into a map, if it is a text of the part `v`. -/
def pairOf (v : HeadPart) (wait : Option (List UInt8)) (t : Tok) : List TextPair :=
  if t.part = v then (wait.map fun key => ⟨key, t.text⟩).toList else []

/-- The pairs that tokens put into a map, in their order. -/
def pairsOf (k v : HeadPart) (wait : Option (List UInt8)) : List Tok → List TextPair
  | [] => []
  | t :: ts => pairOf v wait t ++ pairsOf k v (waiting k wait t) ts

/-- What a token puts where. -/
structure Filled.Put (f f' : Filled) (ts : List Tok) : Prop where
  frame : f'.request = { f.request with
    text := f'.request.text, query := f'.request.query, params := f'.request.params }
  query : f'.request.query = insertAll f.request.query (pairsOf .key .value f.queryTmp ts)
  params : f'.request.params = insertAll f.request.params (pairsOf .name .field f.paramsTmp ts)

theorem Filled.put_put {f f' : Filled} {t : Tok} (h : f.put t = .ok f') :
    f.Put f' [t] ∧ f'.queryTmp = waiting .key f.queryTmp t ∧
      f'.paramsTmp = waiting .name f.paramsTmp t := by
  obtain ⟨-, hstore⟩ := Filled.put_eq_ok h
  obtain ⟨part, text⟩ := t
  cases part with
  | method | path | protocol | version =>
      obtain ⟨b, -, rfl⟩ := Filled.copy_eq_ok hstore
      exact ⟨⟨rfl, rfl, rfl⟩, rfl, rfl⟩
  | key | name =>
      cases hstore
      exact ⟨⟨rfl, rfl, rfl⟩, rfl, rfl⟩
  | value =>
      unfold Filled.store at hstore
      cases hq : f.queryTmp with
      | none =>
          simp only [hq] at hstore
          cases hstore
      | some key =>
          simp only [hq] at hstore
          cases hstore
          exact ⟨⟨rfl, by rw [hq]; rfl, rfl⟩, by rw [← hq]; rfl, rfl⟩
  | field =>
      unfold Filled.store at hstore
      cases hp : f.paramsTmp with
      | none =>
          simp only [hp] at hstore
          cases hstore
      | some key =>
          simp only [hp] at hstore
          cases hstore
          exact ⟨⟨rfl, rfl, by rw [hp]; rfl⟩, rfl, by rw [← hp]; rfl⟩


theorem pairsOf_cons (k v : HeadPart) (wait : Option (List UInt8)) (t : Tok) (ts : List Tok) :
    pairsOf k v wait (t :: ts) = pairsOf k v wait [t] ++ pairsOf k v (waiting k wait t) ts := by
  rw [pairsOf, pairsOf, pairsOf, List.append_nil]

/-- What tokens put where. -/
theorem Filled.putAll_put {f f' : Filled} {ts : List Tok} (h : f.putAll ts = .ok f') :
    f.Put f' ts := by
  induction ts generalizing f with
  | nil =>
      cases h
      exact ⟨rfl, rfl, rfl⟩
  | cons t ts ih =>
      obtain ⟨f₁, hput, h⟩ := exists_of_bind h
      obtain ⟨hfirst, hquery, hparams⟩ := Filled.put_put hput
      have hrest := ih h
      refine ⟨?_, ?_, ?_⟩
      · rw [hrest.frame, hfirst.frame]
      · rw [pairsOf_cons, insertAll_append, ← hfirst.query, ← hquery]
        exact hrest.query
      · rw [pairsOf_cons, insertAll_append, ← hfirst.params, ← hparams]
        exact hrest.params

theorem Filled.fits_of_putAll {f f' : Filled} {ts : List Tok} (h : f.putAll ts = .ok f') :
    ∀ t ∈ ts, t.Fits := by
  induction ts generalizing f with
  | nil => simp
  | cons t ts ih =>
      obtain ⟨f₁, hput, h⟩ := exists_of_bind h
      exact List.forall_mem_cons.mpr ⟨Filled.fits_of_put hput, ih h⟩

theorem Filled.exists_putAll_cons {f : Filled} {t : Tok} {ts : List Tok} (hready : f.Ready t.part)
    (hfits : ∀ u ∈ t :: ts, u.Fits)
    (h : ∀ f₁, f.put t = .ok f₁ → (∀ u ∈ ts, u.Fits) → ∃ f', f₁.putAll ts = .ok f') :
    ∃ f', f.putAll (t :: ts) = .ok f' := by
  obtain ⟨ht, hts⟩ := List.forall_mem_cons.mp hfits
  obtain ⟨f₁, hput⟩ := Filled.exists_put ht hready
  obtain ⟨f', hrest⟩ := h f₁ hput hts
  refine ⟨f', ?_⟩
  rw [Filled.putAll, hput, ok_bind, hrest]

/-- A key makes the node that its value goes into. -/
theorem Filled.ready_value {f f' : Filled} {k : List UInt8} (h : f.put ⟨.key, k⟩ = .ok f') :
    f'.Ready .value := by
  obtain ⟨-, hquery, -⟩ := Filled.put_put h
  show f'.queryTmp ≠ none
  rw [hquery]
  exact Option.some_ne_none _

theorem Filled.ready_field {f f' : Filled} {k : List UInt8} (h : f.put ⟨.name, k⟩ = .ok f') :
    f'.Ready .field := by
  obtain ⟨-, -, hparams⟩ := Filled.put_put h
  show f'.paramsTmp ≠ none
  rw [hparams]
  exact Option.some_ne_none _

/-- In a reading every value has its key in front of it, so that tokens that fit are put. -/
theorem HeadText.exists_putAll {part : HeadPart} {data : List UInt8} {toks : List Tok} {e : Ending}
    (h : HeadText part data toks e) {f : Filled} (hready : f.Ready part)
    (hfits : ∀ t ∈ toks, t.Fits) : ∃ f', f.putAll toks = .ok f' := by
  induction h generalizing f with
  | method _ _ _ ih | pathSpace _ _ _ ih | pathQuery _ _ _ ih | protocol _ _ ih | version _ _ ih =>
      exact Filled.exists_putAll_cons trivial hfits fun f₁ _ hts => ih trivial hts
  | valueAmp _ _ _ ih | valueSpace _ _ _ ih | field _ _ ih =>
      exact Filled.exists_putAll_cons hready hfits fun f₁ _ hts => ih trivial hts
  | key _ _ ih =>
      exact Filled.exists_putAll_cons trivial hfits fun f₁ hput hts =>
        ih (Filled.ready_value hput) hts
  | name _ _ _ ih =>
      exact Filled.exists_putAll_cons trivial hfits fun f₁ hput hts =>
        ih (Filled.ready_field hput) hts
  | nameColon =>
      exact Filled.exists_putAll_cons trivial hfits fun f₁ _ _ => ⟨f₁, rfl⟩
  | _ => exact ⟨f, rfl⟩

/-! ## The path and the method -/

theorem HeadText.isText {part : HeadPart} {data : List UInt8} {toks : List Tok} {e : Ending}
    (h : HeadText part data toks e) : ∀ t ∈ toks, IsText t.text := by
  have hkept : ∀ {j : List UInt8}, IsName j → IsText (kept j) := fun hj h0 =>
    hj.1.1 ((List.dropWhile_sublist _).subset h0)
  induction h with
  | method hc hs _ ih =>
      refine List.forall_mem_cons.mpr ⟨isText_cons.mpr ⟨?_, hs.1⟩, ih⟩
      rcases hc with rfl | rfl <;> decide
  | pathSpace hs _ _ ih | pathQuery hs _ _ ih =>
      exact List.forall_mem_cons.mpr ⟨isText_cons.mpr ⟨by decide, hs.1⟩, ih⟩
  | key hk _ ih => exact List.forall_mem_cons.mpr ⟨hk.1.1, ih⟩
  | valueAmp hv _ _ ih | valueSpace hv _ _ ih | protocol hv _ ih | version hv _ ih
  | field hv _ ih => exact List.forall_mem_cons.mpr ⟨hv.1, ih⟩
  | name hj _ _ ih => exact List.forall_mem_cons.mpr ⟨hkept hj, ih⟩
  | nameColon hj => exact List.forall_mem_cons.mpr ⟨hkept hj, by simp⟩
  | _ => simp

/-- A part that is met behind the path. -/
def HeadPart.Later (part : HeadPart) : Prop := part ≠ .method ∧ part ≠ .path

instance (part : HeadPart) : Decidable part.Later :=
  inferInstanceAs (Decidable (part ≠ .method ∧ part ≠ .path))

theorem HeadText.later {part : HeadPart} {data : List UInt8} {toks : List Tok} {e : Ending}
    (h : HeadText part data toks e) (hpart : part.Later) : ∀ t ∈ toks, t.part.Later := by
  induction h with
  | method | methodNil | methodBad | methodCut => exact absurd rfl hpart.1
  | pathNil | pathBad | pathCut | pathSpace | pathQuery => exact absurd rfl hpart.2
  | key _ _ ih | valueAmp _ _ _ ih | valueSpace _ _ _ ih | protocol _ _ ih | version _ _ ih
  | name _ _ _ ih | field _ _ ih =>
      exact List.forall_mem_cons.mpr ⟨⟨by simp, by simp⟩, ih (by decide)⟩
  | nameColon => exact List.forall_mem_cons.mpr ⟨⟨by simp, by simp⟩, by simp⟩
  | _ => simp

/-- The tokens of a head begin with the method and the path. -/
theorem HeadText.shape {data : List UInt8} {toks : List Tok} {e : Ending}
    (h : HeadText .method data toks e) :
    (toks.length ≤ 1 ∧ (∀ t ∈ toks, t.part = .method) ∧ ∀ p rest, e ≠ .closed p rest) ∨
    ∃ m p ts, toks = ⟨.method, m⟩ :: ⟨.path, p⟩ :: ts ∧ ∀ t ∈ ts, t.part.Later := by
  cases h with
  | method _ _ h =>
      cases h with
      | pathSpace _ _ h => exact Or.inr ⟨_, _, _, rfl, h.later (by decide)⟩
      | pathQuery _ _ h => exact Or.inr ⟨_, _, _, rfl, h.later (by decide)⟩
      | _ => exact Or.inl ⟨by simp, by simp, by simp⟩
  | _ => exact Or.inl ⟨by simp, by simp, by simp⟩

/-- A text that is put behind the path is written behind the path. -/
theorem Filled.text_of_put {f f' : Filled} {t : Tok} (h : f.put t = .ok f') (ht : t.part.Later) :
    f'.request.text = f.request.text ∨
      ∃ off, protocolAt ≤ off ∧ f.request.text.strcpy off t.text = .ok f'.request.text := by
  have hframe := (Filled.put_put h).1.frame
  obtain ⟨-, hstore⟩ := Filled.put_eq_ok h
  obtain ⟨part, text⟩ := t
  cases part with
  | method => exact absurd rfl ht.1
  | path => exact absurd rfl ht.2
  | protocol =>
      obtain ⟨b, hb, rfl⟩ := Filled.copy_eq_ok hstore
      exact Or.inr ⟨protocolAt, le_rfl, hb⟩
  | version =>
      obtain ⟨b, hb, rfl⟩ := Filled.copy_eq_ok hstore
      exact Or.inr ⟨versionAt, by decide, hb⟩
  | key | name =>
      cases hstore
      exact Or.inl rfl
  | value =>
      unfold Filled.store at hstore
      cases hq : f.queryTmp <;> simp only [hq] at hstore <;> cases hstore
      exact Or.inl rfl
  | field =>
      unfold Filled.store at hstore
      cases hp : f.paramsTmp <;> simp only [hp] at hstore <;> cases hstore
      exact Or.inl rfl

/-- The strings in front of the protocol keep their values behind the path. -/
theorem Filled.str_putAll {f f' : Filled} {ts : List Tok} (h : f.putAll ts = .ok f')
    (hts : ∀ t ∈ ts, t.part.Later) (off : ℕ)
    (hoff : off + (f.request.text.str off).length < protocolAt) :
    f'.request.text.str off = f.request.text.str off := by
  induction ts generalizing f with
  | nil =>
      cases h
      rfl
  | cons t ts ih =>
      obtain ⟨ht, hts⟩ := List.forall_mem_cons.mp hts
      obtain ⟨f₁, hput, h⟩ := exists_of_bind h
      have hstr : f₁.request.text.str off = f.request.text.str off := by
        rcases Filled.text_of_put hput ht with heq | ⟨at_, hat, hcopy⟩
        · rw [heq]
        · exact Block.str_strcpy_below hcopy (by omega)
      rw [ih h hts (by rw [hstr]; exact hoff), hstr]

/-- The path the request holds behind some tokens: the one that was read, else what the
record held, unless a long method has run into it. -/
def pathSeen (text : Block textSize) : List Tok → List UInt8
  | [] => text.str pathAt
  | [m] => if m.text.length < pathAt then text.str pathAt else m.text.drop pathAt
  | _ :: p :: _ => p.text

/-- What the method and the path leave in the character arrays. -/
theorem Filled.put_head {f f' : Filled} {m p : List UInt8} (hm : IsText m) (hp : IsText p)
    (h : f.putAll [⟨.method, m⟩, ⟨.path, p⟩] = .ok f') :
    f'.request.text.str pathAt = p ∧ p.length ≤ 511 ∧
      f'.request.text.str methodAt = if m.length < pathAt then m else m.take pathAt ++ p := by
  obtain ⟨f₁, hmethod, h⟩ := exists_of_bind h
  obtain ⟨f₂, hpath, h⟩ := exists_of_bind h
  cases h
  obtain ⟨-, hmethod⟩ := Filled.put_eq_ok hmethod
  obtain ⟨hlen, hpath⟩ := Filled.put_eq_ok hpath
  obtain ⟨b₁, hb₁, rfl⟩ := Filled.copy_eq_ok hmethod
  obtain ⟨b₂, hb₂, rfl⟩ := Filled.copy_eq_ok hpath
  have hstr : b₁.str methodAt = m := Block.str_strcpy_self hm hb₁
  refine ⟨Block.str_strcpy_self hp hb₂, hlen, ?_⟩
  show b₂.str methodAt = _
  have hzero : methodAt = 0 := rfl
  by_cases hshort : m.length < pathAt
  · rw [if_pos hshort, Block.str_strcpy_below hb₂ (by rw [hstr]; omega), hstr]
  · rw [if_neg hshort, Block.str_strcpy_cut hp hb₂ (by omega) (by rw [hstr]; omega), hstr]
    rfl

/-- The path the request holds behind the tokens of a head. -/
theorem HeadText.path_eq {data : List UInt8} {toks : List Tok} {e : Ending}
    (h : HeadText .method data toks e) {f f' : Filled} (hput : f.putAll toks = .ok f') :
    f'.request.path = pathSeen f.request.text toks := by
  have htext := h.isText
  rcases h.shape with ⟨hlen, hmethod, -⟩ | ⟨m, p, ts, rfl, hlater⟩
  · cases toks with
    | nil =>
        cases hput
        rfl
    | cons t ts =>
        obtain rfl : ts = [] := List.eq_nil_of_length_eq_zero (by simpa using hlen)
        obtain ⟨f₁, hput, hnil⟩ := exists_of_bind hput
        cases hnil
        obtain ⟨-, hstore⟩ := Filled.put_eq_ok hput
        rw [hmethod t List.mem_cons_self] at hstore
        obtain ⟨b, hb, rfl⟩ := Filled.copy_eq_ok hstore
        have hm : IsText t.text := htext t List.mem_cons_self
        show b.str pathAt = if t.text.length < pathAt then _ else _
        by_cases hshort : t.text.length < pathAt
        · rw [if_pos hshort]
          exact Block.str_strcpy_above hb (by rw [show methodAt = 0 from rfl]; omega)
        · rw [if_neg hshort]
          exact Block.str_strcpy hm hb pathAt (by omega)
  · rw [show (⟨.method, m⟩ : Tok) :: ⟨.path, p⟩ :: ts = [⟨.method, m⟩, ⟨.path, p⟩] ++ ts from rfl,
      Filled.putAll_append] at hput
    obtain ⟨f₂, hhead, hput⟩ := exists_of_bind hput
    have hm : IsText m := htext ⟨.method, m⟩ (by simp)
    have hp : IsText p := htext ⟨.path, p⟩ (by simp)
    obtain ⟨hpath, hlen, -⟩ := Filled.put_head hm hp hhead
    have hkeep := Filled.str_putAll hput hlater pathAt (by
      rw [hpath, show pathAt = 5 from rfl, show protocolAt = 517 from rfl]
      omega)
    exact hkeep.trans hpath

/-- The method that was read is that of a POST. -/
def IsPost (toks : List Tok) : Prop := toks.head? = some ⟨.method, bytes "POST"⟩

instance (toks : List Tok) : Decidable (IsPost toks) :=
  inferInstanceAs (Decidable (toks.head? = some ⟨.method, bytes "POST"⟩))

/-- The request holds the method of a POST exactly if a POST was read. -/
theorem HeadText.method_eq_iff {data p rest : List UInt8} {toks : List Tok}
    (h : HeadText .method data toks (.closed p rest)) {f f' : Filled}
    (hput : f.putAll toks = .ok f') : f'.request.method = bytes "POST" ↔ IsPost toks := by
  have htext := h.isText
  rcases h.shape with ⟨-, -, hopen⟩ | ⟨m, path, ts, rfl, hlater⟩
  · exact absurd rfl (hopen p rest)
  rw [show (⟨.method, m⟩ : Tok) :: ⟨.path, path⟩ :: ts = [⟨.method, m⟩, ⟨.path, path⟩] ++ ts
    from rfl, Filled.putAll_append] at hput
  obtain ⟨f₂, hhead, hput⟩ := exists_of_bind hput
  have hm : IsText m := htext ⟨.method, m⟩ (by simp)
  have hpath : IsText path := htext ⟨.path, path⟩ (by simp)
  obtain ⟨-, hlen, hmethod⟩ := Filled.put_head hm hpath hhead
  have hfour : (bytes "POST").length = 4 := rfl
  have hfive : pathAt = 5 := rfl
  have hkeep : f'.request.method = f₂.request.text.str methodAt := by
    refine Filled.str_putAll hput hlater methodAt ?_
    rw [hmethod, show methodAt = 0 from rfl, show protocolAt = 517 from rfl]
    split
    · omega
    · rw [List.length_append, List.length_take]
      omega
  rw [hkeep, hmethod]
  constructor
  · intro hpost
    by_cases hshort : m.length < pathAt
    · rw [if_pos hshort] at hpost
      exact congrArg (fun m => some (⟨.method, m⟩ : Tok)) hpost
    · -- a longer method is followed by the path
      rw [if_neg hshort] at hpost
      have hlong := congrArg List.length hpost
      rw [List.length_append, List.length_take] at hlong
      omega
  · intro hpost
    have hm : m = bytes "POST" := by simpa [IsPost] using hpost
    rw [hm]
    rfl

/-! ## The parse on a reading -/

/-- An ending that `temp` has room for. -/
def Ending.Fits : Ending → Prop
  | .cut s | .bad s => s.length ≤ tempSize
  | .closed p _ => (grow p [lf]).length ≤ tempSize

/-- What an ending leaves of the request that the tokens have filled in. -/
def Ending.Leaves (junk : ℕ → PartJunk) (toks : List Tok) (e : Ending)
    (request request' : Request) : Prop :=
  match e with
  | .cut _ | .bad _ => request' = request
  | .closed _ [] => False
  | .closed p (_ :: r) =>
      if IsPost toks then ∃ broke, openBody junk p r request = .ok (broke, request')
      else request' = { request with bodyLength := 0, body := .null }

theorem pile_eq_ok_iff {s s' : List UInt8} : pile s = .ok s' ↔ s.length ≤ tempSize ∧ s' = s := by
  unfold pile
  constructor
  · intro h
    split at h
    · next hle =>
      cases h
      exact ⟨hle, rfl⟩
    · cases h
  · rintro ⟨hle, rfl⟩
    exact if_pos hle

theorem length_le_length_grow (p s : List UInt8) : p.length ≤ (grow p s).length := by
  unfold grow
  split
  · next hp => simp [hp]
  · simp

/-- The parse of a text with a reading: its tokens are put, then its ending decides. -/
theorem reqParseHttp_iff {junk : ℕ → PartJunk} {data : List UInt8} {toks : List Tok} {e : Ending}
    (h : HeadText .method data toks e) {request request' : Request} :
    reqParseHttp junk request data = .ok request' ↔
      ∃ f, (Parser.start request).toFilled.putAll toks = .ok f ∧ e.Fits ∧
        e.Leaves junk toks f.request request' := by
  rw [reqParseHttp_eq h]
  constructor
  · intro hrun
    obtain ⟨⟨broke, request''⟩, hout, rfl⟩ := exists_of_map hrun
    obtain ⟨f, hput, hfinish⟩ := exists_of_bind hout
    refine ⟨f, hput, ?_⟩
    cases e with
    | cut s | bad s =>
        obtain ⟨s', hs, hfinish⟩ := exists_of_bind hfinish
        cases hfinish
        exact ⟨(pile_eq_ok_iff.mp hs).1, rfl⟩
    | closed p rest =>
        obtain ⟨r, rfl⟩ := h.exists_closed
        rw [finish_closed] at hfinish
        obtain ⟨p', -, hclose⟩ := exists_of_bind hfinish
        obtain ⟨p'', hgrow, hclose⟩ := exists_of_bind hclose
        refine ⟨(pile_eq_ok_iff.mp hgrow).1, ?_⟩
        unfold Ending.Leaves
        by_cases hpost : IsPost toks
        · rw [if_pos ((h.method_eq_iff hput).mpr hpost)] at hclose
          simp only [if_pos hpost]
          exact ⟨broke, hclose⟩
        · rw [if_neg fun hm => hpost ((h.method_eq_iff hput).mp hm)] at hclose
          simp only [if_neg hpost]
          cases hclose
          rfl
  · rintro ⟨f, hput, hfits, hleaves⟩
    rw [hput, ok_bind]
    cases e with
    | cut s | bad s =>
        cases hleaves
        rw [Ending.finish, pile_eq_ok hfits]
        rfl
    | closed p rest =>
        obtain ⟨r, rfl⟩ := h.exists_closed
        -- what the line feed brings to `temp` fits, so it fitted without
        rw [finish_closed, pile_eq_ok ((length_le_length_grow p [lf]).trans hfits), ok_bind,
          closeHead, pile_eq_ok hfits, ok_bind]
        unfold Ending.Leaves at hleaves
        by_cases hpost : IsPost toks
        · simp only [if_pos hpost] at hleaves
          obtain ⟨broke, hopen⟩ := hleaves
          rw [if_pos ((h.method_eq_iff hput).mpr hpost), hopen]
          rfl
        · simp only [if_neg hpost] at hleaves
          rw [if_neg fun hm => hpost ((h.method_eq_iff hput).mp hm), hleaves]
          rfl

/-! ## The body -/

/-- The headers that were read. -/
def headersOf (toks : List Tok) : List TextPair := pairsOf .name .field none toks

/-- What a record that was just initialised holds behind its tokens. -/
structure FilledFrom (mem : RequestMem) (toks : List Tok) (request : Request) : Prop where
  query : request.query = insertAll (hashmapCreate _ 17) (pairsOf .key .value none toks)
  params : request.params = insertAll (hashmapCreate _ 17) (headersOf toks)
  body : request.body = mem.body
  bodyLength : request.bodyLength = mem.bodyLength
  multiPartNum : request.multiPartNum = -1
  multi : request.multi = Vector.replicate _ .null

theorem filledFrom_putAll {mem : RequestMem} {toks : List Tok} {f : Filled}
    (h : (Parser.start (reqParseInit mem)).toFilled.putAll toks = .ok f) :
    FilledFrom mem toks f.request := by
  have hput := Filled.putAll_put h
  have hframe := hput.frame
  exact ⟨hput.query, hput.params, by rw [hframe]; rfl, by rw [hframe]; rfl, by rw [hframe]; rfl,
    by rw [hframe]; rfl⟩

/-- The length of the body that is copied: none without a `Content-Length`, and none with
one over `HTTP_BODY_MAX`. -/
def copiedLength (headers : List TextPair) : Option ℤ :=
  match lastValue headers (bytes "Content-Length") with
  | some cls => if atoi cls ≤ httpBodyMax then some (atoi cls) else none
  | none => none

/-- The `Content-Type` of a multipart form. -/
def IsMultipart (headers : List TextPair) : Prop :=
  ∃ cts, lastValue headers (bytes "Content-Type") = some cts ∧
    (strstr cts (bytes "multipart/form-data")).isSome

/-- A multipart body that is scanned to its end. -/
def Scans (junk : ℕ → PartJunk) (headers : List TextPair) (body : List UInt8)
    (s : MultiPart.Scan) : Prop :=
  ∃ cts boundary, lastValue headers (bytes "Content-Type") = some cts ∧
    boundaryOf cts = .ok boundary ∧
    MultiPart.scanLoop junk boundary body (.start (Vector.replicate _ .null)) = .ok s

/-- A form that the scanner gets through, with the boundary of the `Content-Type`. -/
def FormBody (headers : List TextPair) (body : List UInt8) (e : MultiPart.Exit) : Prop :=
  ∃ cts boundary, lastValue headers (bytes "Content-Type") = some cts ∧
    boundaryOf cts = .ok boundary ∧ MultiPart.Body boundary 0 0 body e

theorem isText_boundaryOf {cts boundary : List UInt8} (h : boundaryOf cts = .ok boundary)
    (hcts : IsText cts) : IsText boundary := by
  unfold boundaryOf at h
  cases hfind : strstr cts (bytes "boundary=") with
  | none =>
      rw [hfind] at h
      cases h
  | some b =>
      obtain ⟨text, rfl, -⟩ := (strstr_eq_some_iff (by decide)).mp hfind
      rw [hfind] at h
      simp only at h
      split at h
      · cases h
      · split at h
        · cases h
        · cases h
          exact (isText_append.mp hcts).2.drop 9

/-- The values of the headers that were read are texts. -/
theorem isText_lastValue {toks : List Tok} (htoks : ∀ t ∈ toks, IsText t.text)
    {key v : List UInt8} (h : lastValue (headersOf toks) key = some v) : IsText v := by
  have hpairs : ∀ (wait : Option (List UInt8)) (ts : List Tok), (∀ t ∈ ts, IsText t.text) →
      ∀ p ∈ pairsOf .name .field wait ts, IsText p.value := by
    intro wait ts hts
    induction ts generalizing wait with
    | nil => simp [pairsOf]
    | cons t ts ih =>
        obtain ⟨ht, hts⟩ := List.forall_mem_cons.mp hts
        intro p hp
        rcases List.mem_append.mp hp with hp | hp
        · unfold pairOf at hp
          split at hp
          · obtain ⟨key, -, rfl⟩ := Option.map_eq_some_iff.mp (Option.mem_toList.mp hp)
            exact ht
          · cases hp
        · exact ih _ hts p hp
  obtain ⟨p, hfind, rfl⟩ := Option.map_eq_some_iff.mp h
  rw [List.findRev?_eq_find?_reverse] at hfind
  exact hpairs none toks htoks p (List.mem_reverse.mp (List.mem_of_find?_eq_some hfind))

/-- A form is scanned to its end exactly if it is in the grammar. -/
theorem exists_scans_iff {junk : ℕ → PartJunk} {toks : List Tok}
    (htoks : ∀ t ∈ toks, IsText t.text) {body : List UInt8} :
    (∃ s, Scans junk (headersOf toks) body s) ↔ ∃ e, FormBody (headersOf toks) body e := by
  constructor
  · rintro ⟨s, cts, boundary, hcts, hboundary, hs⟩
    have htext := isText_boundaryOf hboundary (isText_lastValue htoks hcts)
    obtain ⟨e, hbody⟩ := MultiPart.exists_body htext (n := 0) hs
    exact ⟨e, cts, boundary, hcts, hboundary, hbody⟩
  · rintro ⟨e, cts, boundary, hcts, hboundary, hbody⟩
    have htext := isText_boundaryOf hboundary (isText_lastValue htoks hcts)
    obtain ⟨s, k, hs, -⟩ := MultiPart.scanLoop_of_body junk htext hbody (Nat.zero_le _)
      (Vector.replicate _ .null)
    exact ⟨s, cts, boundary, hcts, hboundary, hs⟩

section
variable {junk : ℕ → PartJunk} {mem : RequestMem} {toks : List Tok} {request request' : Request}

theorem FilledFrom.copyBody_iff (h : FilledFrom mem toks request) {p : List UInt8} :
    copyBody request p = .ok request' ↔
      (copiedLength (headersOf toks) = none ∧ request' = request) ∨
      ∃ len : ℕ, copiedLength (headersOf toks) = some (len : ℤ) ∧ len ≤ p.length ∧
        request' = { request with bodyLength := len, body := .obj (p.take len ++ [0]) } := by
  unfold copyBody copiedLength
  rw [h.params, hashmapGet_insertAll_create]
  cases lastValue (headersOf toks) (bytes "Content-Length") with
  | none =>
      constructor
      · intro hrun
        exact Or.inl ⟨rfl, (Except.ok.inj hrun).symm⟩
      · rintro (⟨-, rfl⟩ | ⟨len, hlen, -⟩)
        · rfl
        · cases hlen
  | some cls =>
      simp only
      by_cases hmax : atoi cls ≤ httpBodyMax
      · rw [if_pos hmax, if_pos hmax]
        constructor
        · intro hrun
          -- a negative length, or one of more than is there, does not come back
          by_cases hneg : atoi cls < 0
          · rw [if_pos hneg] at hrun
            cases hrun
          · rw [if_neg hneg] at hrun
            by_cases hlen : p.length < (atoi cls).toNat
            · rw [if_pos hlen] at hrun
              cases hrun
            · rw [if_neg hlen] at hrun
              exact Or.inr ⟨(atoi cls).toNat, by rw [Int.toNat_of_nonneg (by omega)], by omega,
                (Except.ok.inj hrun).symm⟩
        · rintro (⟨hnone, -⟩ | ⟨len, hlen, hle, rfl⟩)
          · cases hnone
          · have hatoi : atoi cls = (len : ℤ) := Option.some.inj hlen
            rw [hatoi, if_neg (by omega), Int.toNat_natCast, if_neg (by omega)]
      · rw [if_neg hmax, if_neg hmax]
        constructor
        · intro hrun
          exact Or.inl ⟨rfl, (Except.ok.inj hrun).symm⟩
        · rintro (⟨-, rfl⟩ | ⟨len, hlen, -⟩)
          · rfl
          · cases hlen

theorem scanBody_iff {headers : List TextPair}
    (hparams : request.params = insertAll (hashmapCreate _ 17) headers)
    (hmulti : request.multi = Vector.replicate _ .null) :
    scanBody junk request = .ok request' ↔
      (¬IsMultipart headers ∧ request' = request) ∨
      (IsMultipart headers ∧ ∃ body s, request.body = .obj body ∧ Scans junk headers body s ∧
        request' = { request with multi := s.multi, multiPartNum := s.mulNum }) := by
  have hget : hashmapGet request.params (bytes "Content-Type")
      = lastValue headers (bytes "Content-Type") := by
    rw [hparams, hashmapGet_insertAll_create]
  unfold scanBody IsMultipart Scans
  rw [hget]
  cases lastValue headers (bytes "Content-Type") with
  | none =>
      constructor
      · intro hrun
        exact Or.inl ⟨by simp, (Except.ok.inj hrun).symm⟩
      · rintro (⟨-, rfl⟩ | ⟨⟨cts, hcts, -⟩, -⟩)
        · rfl
        · cases hcts
  | some cts =>
      simp only
      by_cases hform : (strstr cts (bytes "multipart/form-data")).isSome
      · rw [if_pos hform]
        constructor
        · intro hrun
          obtain ⟨boundary, hboundary, hrun⟩ := exists_of_bind hrun
          obtain ⟨body, hbody, hrun⟩ := exists_of_bind hrun
          obtain ⟨s, hs, hrun⟩ := exists_of_bind hrun
          rw [hmulti] at hs
          have hobj : request.body = .obj body := by
            cases hb : request.body with
            | addr a =>
                rw [hb] at hbody
                cases hbody
            | obj x =>
                rw [hb] at hbody
                cases hbody
                rfl
          exact Or.inr ⟨⟨cts, rfl, hform⟩, body, s, hobj, ⟨cts, boundary, rfl, hboundary, hs⟩,
            (Except.ok.inj hrun).symm⟩
        · rintro (⟨hno, -⟩ | ⟨-, body, s, hbody, ⟨cts', boundary, hcts, hboundary, hs⟩, rfl⟩)
          · exact absurd ⟨cts, rfl, hform⟩ hno
          · cases hcts
            rw [hboundary, ok_bind, reqParseMultiPart_eq junk request boundary body hbody, hmulti,
              hs]
            rfl
      · rw [if_neg hform]
        constructor
        · intro hrun
          refine Or.inl ⟨?_, (Except.ok.inj hrun).symm⟩
          rintro ⟨cts', hcts, hform'⟩
          cases hcts
          exact hform hform'
        · rintro (⟨-, rfl⟩ | ⟨⟨cts', hcts, hform'⟩, -⟩)
          · rfl
          · cases hcts
            exact absurd hform' hform


/-- A body that is not copied leaves the pointer as `malloc` left it. -/
theorem FilledFrom.body_of_parseBody (h : FilledFrom mem toks request) {q : List UInt8}
    (hlen : copiedLength (headersOf toks) = none)
    (hrun : parseBody junk request q = .ok request') : request'.body = mem.body := by
  obtain ⟨request₁, hcopy, hscan⟩ := exists_of_bind hrun
  rcases h.copyBody_iff.mp hcopy with ⟨-, rfl⟩ | ⟨len, hsome, -⟩
  · rcases (scanBody_iff h.params h.multi).mp hscan with ⟨-, rfl⟩ | ⟨-, body, s, -, -, rfl⟩
    · exact h.body
    · exact h.body
  · rw [hlen] at hsome
    cases hsome

/-- A body that is copied, and scanned if it is a form. -/
theorem FilledFrom.parseBody_iff (h : FilledFrom mem toks request) {q : List UInt8} {len : ℕ}
    (hlen : copiedLength (headersOf toks) = some (len : ℤ)) :
    parseBody junk request q = .ok request' ↔ len ≤ q.length ∧
      ((¬IsMultipart (headersOf toks) ∧
        request' = { request with bodyLength := len, body := .obj (q.take len ++ [0]) }) ∨
      (IsMultipart (headersOf toks) ∧ ∃ s, Scans junk (headersOf toks) (q.take len ++ [0]) s ∧
        request' = { request with
          bodyLength := len, body := .obj (q.take len ++ [0])
          multi := s.multi, multiPartNum := s.mulNum })) := by
  have hscan : ∀ body : List UInt8,
      scanBody junk { request with bodyLength := len, body := .obj body } = .ok request' ↔ _ :=
    fun body => scanBody_iff h.params h.multi
  constructor
  · intro hrun
    obtain ⟨request₁, hcopy, hrun⟩ := exists_of_bind hrun
    rcases h.copyBody_iff.mp hcopy with ⟨hnone, -⟩ | ⟨len', hsome, hle, rfl⟩
    · rw [hlen] at hnone
      cases hnone
    · obtain rfl : len' = len := by
        rw [hlen] at hsome
        exact_mod_cast (Option.some.inj hsome).symm
      refine ⟨hle, ?_⟩
      rcases (hscan _).mp hrun with hplain | ⟨hform, body, s, hbody, hs, rfl⟩
      · exact Or.inl hplain
      · cases hbody
        exact Or.inr ⟨hform, s, hs, rfl⟩
  · rintro ⟨hle, hcase⟩
    rw [parseBody, h.copyBody_iff.mpr (Or.inr ⟨len, hlen, hle, rfl⟩), ok_bind]
    refine (hscan _).mpr ?_
    rcases hcase with hplain | ⟨hform, s, hs, rfl⟩
    · exact Or.inl hplain
    · exact Or.inr ⟨hform, _, s, rfl, hs, rfl⟩

/-- Behind the head of a POST comes the first byte of its body. -/
theorem openBody_cons_iff {p r : List UInt8} {c : UInt8} (hc : c ≠ 0) :
    (∃ broke, openBody junk p (c :: r) request = .ok (broke, request')) ↔
      parseBody junk request (c :: r) = .ok request' ∧ (grow p [lf, c]).length ≤ tempSize := by
  unfold openBody
  simp only [if_neg hc]
  constructor
  · rintro ⟨broke, hrun⟩
    obtain ⟨request₁, hbody, hrun⟩ := exists_of_bind hrun
    obtain ⟨p', hpile, hrun⟩ := exists_of_bind hrun
    cases hrun
    exact ⟨hbody, (pile_eq_ok_iff.mp hpile).1⟩
  · rintro ⟨hbody, hle⟩
    refine ⟨true, ?_⟩
    rw [hbody, ok_bind, pile_eq_ok hle]
    rfl

end
