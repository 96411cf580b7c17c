/-
# The parser on a text of the grammar

`reqParseLoop` evaluated on a memory read by `HeadText`: the tokens are put into
the request one after the other (`Filled.putAll`), and the ending decides how the
loop is left (`reqParseLoop_headText`).  Each part is one phase of the machine: it absorbs
the text of the token, and the round at the delimiter puts the token.
-/
import DmfServer.RequestGrammar

open CMem Ascii

/-! ## What a token does to the request -/

/-- The parts whose texts are copied to the heap. -/
def HeadPart.Copied (part : HeadPart) : Prop :=
  part = .key ∨ part = .value ∨ part = .name ∨ part = .field

instance (part : HeadPart) : Decidable part.Copied :=
  inferInstanceAs (Decidable (part = .key ∨ part = .value ∨ part = .name ∨ part = .field))

/-- The copy of a token on the heap, if there is one, has room for its NUL. -/
def Tok.HasRoom (spare : SpareByte) (t : Tok) : Prop := t.part.Copied → spare t.text.length

instance Tok.decidableHasRoom (spare : SpareByte) (t : Tok) : Decidable (t.HasRoom spare) :=
  inferInstanceAs (Decidable (t.part.Copied → spare t.text.length))

theorem Tok.hasRoom_ample (t : Tok) : t.HasRoom ample := fun _ => rfl

/-- The text piled up in `temp`, or the fault of writing past its end. -/
def pile (s : List UInt8) : Except Fault (List UInt8) :=
  if s.length ≤ tempSize then .ok s else .error .write

namespace Filled

/-- `strcpy` of a text to a field of the request. -/
def copy (f : Filled) (off : ℕ) (s : List UInt8) : Except Fault Filled := do
  let text ← f.request.text.strcpy off s
  .ok { f with request := { f.request with text := text } }

/-- A C string put where its part belongs. -/
def store (f : Filled) (part : HeadPart) (s : List UInt8) : Except Fault Filled :=
  match part with
  | .method => f.copy methodAt s
  | .path => f.copy pathAt s
  | .protocol => f.copy protocolAt s
  | .version => f.copy versionAt s
  | .key => .ok { f with queryTmp := some s }
  | .name => .ok { f with paramsTmp := some s }
  | .value =>
      match f.queryTmp with
      | none => .error .null
      | some key => .ok { f with request :=
          { f.request with query := hashmapInsert f.request.query ⟨key, s⟩ } }
  | .field =>
      match f.paramsTmp with
      | none => .error .null
      | some key => .ok { f with request :=
          { f.request with params := hashmapInsert f.request.params ⟨key, s⟩ } }

/-- The text in `temp` read as a C string and stored. -/
def storeTemp (f : Filled) (part : HeadPart) (temp : List UInt8) (spare : SpareByte := ample) :
    Except Fault Filled :=
  if temp.length < tempSize then do
    let f ← f.store part temp
    if Tok.HasRoom spare ⟨part, temp⟩ then .ok f else .error .write
  else .error .read

/-- A token piled up in `temp` and stored. -/
def put (f : Filled) (t : Tok) (spare : SpareByte := ample) : Except Fault Filled :=
  pile t.text >>= fun temp => f.storeTemp t.part temp spare

/-- The tokens put one after the other. -/
def putAll (f : Filled) (ts : List Tok) (spare : SpareByte := ample) : Except Fault Filled :=
  match ts with
  | [] => .ok f
  | t :: ts => f.put t spare >>= fun f => f.putAll ts spare

theorem storeTemp_of_hasRoom {f : Filled} {part : HeadPart} {temp : List UInt8}
    {spare : SpareByte} (h : Tok.HasRoom spare ⟨part, temp⟩) :
    f.storeTemp part temp spare
      = if temp.length < tempSize then f.store part temp else .error .read := by
  rw [storeTemp]
  simp only [if_pos h]
  cases f.store part temp <;> rfl

theorem storeTemp_ample (f : Filled) (part : HeadPart) (temp : List UInt8) :
    f.storeTemp part temp = if temp.length < tempSize then f.store part temp else .error .read :=
  storeTemp_of_hasRoom (Tok.hasRoom_ample _)

end Filled

/-! ## The phases -/

section
variable {junk : ℕ → PartJunk} {last : HttpParseState} {spare : SpareByte}

/-- What follows a round of the loop. -/
def afterRound (junk : ℕ → PartJunk) (last : HttpParseState) (rest : List UInt8) (m : Parser)
    (spare : SpareByte := ample) : Except Fault Halt :=
  if m.state = last then .ok ⟨true, m, rest⟩ else reqParseLoop junk last rest m spare

/-- The state a part is read in. -/
def HeadPart.state : HeadPart → HttpParseState
  | .method => .start
  | .path => .pathStart
  | .key => .queryStart
  | .value => .queryTemp
  | .protocol => .pvStart
  | .version => .pvTemp
  | .name => .param1
  | .field => .param3

/-- The parser at the first byte of a part. -/
def Parser.at (part : HeadPart) (f : Filled) : Parser :=
  { f with state := part.state, write := false, temp := [] }

theorem reqParseLoop_cons {c : UInt8} (hc : c ≠ 0) (rest : List UInt8) (m : Parser) :
    reqParseLoop junk last (c :: rest) m spare
      = m.round junk c rest spare >>= fun m => afterRound junk last rest m spare := by
  rw [reqParseLoop, if_neg hc]
  rfl

theorem reqParseLoop_zero (rest : List UInt8) (m : Parser) :
    reqParseLoop junk last (0 :: rest) m spare = .ok ⟨false, m, 0 :: rest⟩ := by
  rw [reqParseLoop, if_pos rfl]

theorem pile_eq_ok {s : List UInt8} (h : s.length ≤ tempSize) : pile s = .ok s := if_pos h

theorem pile_eq_error {s : List UInt8} (h : tempSize < s.length) : pile s = .error .write :=
  if_neg (by omega)

theorem Filled.put_eq {f : Filled} {t : Tok} (h : t.text.length ≤ 511) :
    f.put t = f.store t.part t.text := by
  have hlt : t.text.length < tempSize := Nat.lt_succ_of_le h
  rw [Filled.put, pile_eq_ok hlt.le, ok_bind, Filled.storeTemp_ample, if_pos hlt]

/-- A token put where blocks may be full: its copy must have room. -/
theorem Filled.put_spare (f : Filled) (t : Tok) (spare : SpareByte) :
    f.put t spare = f.put t >>= fun f' => if t.HasRoom spare then .ok f' else .error .write := by
  rw [Filled.put, Filled.put]
  unfold pile
  split
  · rw [ok_bind, ok_bind, Filled.storeTemp_ample, Filled.storeTemp]
    split <;> rfl
  · rfl

theorem Filled.put_of_hasRoom {f : Filled} {t : Tok} (h : t.HasRoom spare) :
    f.put t spare = f.put t := by
  rw [Filled.put_spare]
  simp only [if_pos h]
  cases f.put t <;> rfl

theorem Filled.hasRoom_of_put {f f' : Filled} {t : Tok} (h : f.put t spare = .ok f') :
    t.HasRoom spare := by
  rw [Filled.put_spare] at h
  obtain ⟨f₁, -, h⟩ := exists_of_bind h
  split at h
  · assumption
  · cases h

theorem Filled.putAll_of_hasRoom {f : Filled} {ts : List Tok} (h : ∀ t ∈ ts, t.HasRoom spare) :
    f.putAll ts spare = f.putAll ts := by
  induction ts generalizing f with
  | nil => rfl
  | cons t ts ih =>
      obtain ⟨ht, hts⟩ := List.forall_mem_cons.mp h
      rw [Filled.putAll, Filled.putAll, Filled.put_of_hasRoom ht]
      congr 1
      funext f
      exact ih hts

/-- Where blocks may be full, what has been put has room. -/
theorem Filled.hasRoom_of_putAll {f f' : Filled} {ts : List Tok}
    (h : f.putAll ts spare = .ok f') : ∀ t ∈ ts, t.HasRoom spare := by
  induction ts generalizing f with
  | nil => simp
  | cons t ts ih =>
      obtain ⟨f₁, hput, h⟩ := exists_of_bind h
      exact List.forall_mem_cons.mpr ⟨Filled.hasRoom_of_put hput, ih h⟩

theorem Filled.putAll_append (f : Filled) (ts us : List Tok) :
    f.putAll (ts ++ us) spare = f.putAll ts spare >>= fun f => f.putAll us spare := by
  induction ts generalizing f with
  | nil => rfl
  | cons t ts ih =>
      rw [List.cons_append, Filled.putAll, Filled.putAll, bind_assoc]
      congr 1
      funext f
      exact ih f

/-- A pile that grows faults where its parts fault. -/
theorem pile_append (s t : List UInt8) :
    pile (s ++ t) = pile s >>= fun s => pile (s ++ t) := by
  by_cases h : s.length ≤ tempSize
  · rw [pile_eq_ok h]
    rfl
  · have hlong : tempSize < (s ++ t).length := by
      rw [List.length_append]
      omega
    rw [pile_eq_error (Nat.lt_of_not_le h), pile_eq_error hlong]
    rfl

/-- A round whose switch leaves `write` set takes the byte up. -/
theorem round_take {m m' : Parser} {c : UInt8} {rest : List UInt8}
    (h : m.switch junk c rest spare = .ok m') (hw : m'.write = true)
    (ht : m'.temp.length ≤ tempSize) :
    m.round junk c rest spare
      = (pile (m'.temp ++ [c])).map fun temp => { m' with temp := temp } := by
  rw [Parser.round, h]
  simp only [bind, Except.bind, Parser.store, hw, if_true]
  by_cases hlt : m'.temp.length < tempSize
  · have hle : (m'.temp ++ [c]).length ≤ tempSize := by
      rw [List.length_append, List.length_singleton]
      omega
    rw [if_pos hlt, pile_eq_ok hle]
    rfl
  · have hlong : tempSize < (m'.temp ++ [c]).length := by
      rw [List.length_append, List.length_singleton]
      omega
    rw [if_neg hlt, pile_eq_error hlong]
    rfl

/-- A round whose switch leaves `write` cleared clears `temp`. -/
theorem round_drop {m m' : Parser} {c : UInt8} {rest : List UInt8}
    (h : m.switch junk c rest spare = .ok m') (hw : m'.write = false) :
    m.round junk c rest spare = .ok { m' with temp := [] } := by
  rw [Parser.round, h]
  simp [bind, Except.bind, Parser.store, hw]

/-- A text whose every byte is taken up is piled onto `temp`. -/
theorem reqParseLoop_take {s tail : List UInt8} {m : Parser} (hs : IsText s)
    (hlast : m.state ≠ last) (ht : m.temp.length ≤ tempSize)
    (h : ∀ a c b, s = a ++ c :: b → ∀ w temp, w = m.write ∨ w = true →
      Parser.switch junk { m with write := w, temp := temp } c (b ++ tail) spare
        = .ok { m with write := true, temp := temp }) :
    reqParseLoop junk last (s ++ tail) m spare
      = pile (m.temp ++ s) >>= fun temp => reqParseLoop junk last tail
          { m with write := if s = [] then m.write else true, temp := temp } spare := by
  induction s generalizing m with
  | nil =>
      rw [List.append_nil, pile_eq_ok ht]
      rfl
  | cons c s ih =>
      obtain ⟨hc, hs⟩ := isText_cons.mp hs
      have hstep := h [] c s rfl m.write m.temp (Or.inl rfl)
      have hpile := pile_append (m.temp ++ [c]) s
      rw [List.append_assoc, List.singleton_append] at hpile
      rw [List.cons_append, reqParseLoop_cons hc, round_take hstep rfl ht, hpile]
      by_cases hle : (m.temp ++ [c]).length ≤ tempSize
      · rw [pile_eq_ok hle]
        show afterRound junk last (s ++ tail) _ spare = pile _ >>= _
        rw [afterRound, if_neg hlast]
        rw [ih (m := { m with write := true, temp := m.temp ++ [c] }) hs hlast hle]
        · simp
        · rintro a d b rfl w temp hw
          exact h (c :: a) d b rfl w temp (Or.inr (by simpa using hw))
      · rw [pile_eq_error (Nat.lt_of_not_le hle)]
        rfl

/-- A text whose every byte is skipped leaves nothing behind. -/
theorem reqParseLoop_skip {s tail : List UInt8} {m : Parser} (hs : IsText s)
    (hlast : m.state ≠ last) (hw : m.write = false) (ht : m.temp = [])
    (h : ∀ a c b, s = a ++ c :: b → m.switch junk c (b ++ tail) spare = .ok m) :
    reqParseLoop junk last (s ++ tail) m spare = reqParseLoop junk last tail m spare := by
  induction s with
  | nil => rfl
  | cons c s ih =>
      obtain ⟨hc, hs⟩ := isText_cons.mp hs
      have hround : m.round junk c (s ++ tail) spare = .ok m := by
        rw [round_drop (h [] c s rfl) hw, ← ht]
      rw [List.cons_append, reqParseLoop_cons hc, hround]
      show afterRound junk last (s ++ tail) m spare = _
      rw [afterRound, if_neg hlast, ih hs]
      rintro a d b rfl
      exact h (c :: a) d b rfl

/-- The first byte of a text that the parser starts to take up. -/
theorem reqParseLoop_first {f : Filled} {st next : HttpParseState} {c : UInt8}
    {rest : List UInt8} (hc : c ≠ 0) (hnext : next ≠ last)
    (h : Parser.switch junk ⟨f, st, false, []⟩ c rest spare = .ok ⟨f, next, true, []⟩) :
    reqParseLoop junk last (c :: rest) ⟨f, st, false, []⟩ spare
      = reqParseLoop junk last rest ⟨f, next, true, [c]⟩ spare := by
  rw [reqParseLoop_cons hc, round_take h rfl (Nat.zero_le _), List.nil_append,
    pile_eq_ok (by rw [List.length_singleton]; decide)]
  exact if_neg hnext

/-- A text taken up from its first byte on. -/
theorem reqParseLoop_first_take {f : Filled} {st next : HttpParseState} {c : UInt8}
    {s tail : List UInt8} (hc : c ≠ 0) (hs : IsText s) (hnext : next ≠ last)
    (hfirst : Parser.switch junk ⟨f, st, false, []⟩ c (s ++ tail) spare
      = .ok ⟨f, next, true, []⟩)
    (h : ∀ a d b, s = a ++ d :: b → ∀ temp,
      Parser.switch junk ⟨f, next, true, temp⟩ d (b ++ tail) spare = .ok ⟨f, next, true, temp⟩) :
    reqParseLoop junk last (c :: (s ++ tail)) ⟨f, st, false, []⟩ spare
      = pile (c :: s) >>= fun temp => reqParseLoop junk last tail ⟨f, next, true, temp⟩ spare := by
  have hlen : [c].length ≤ tempSize := by
    rw [List.length_singleton]
    decide
  rw [reqParseLoop_first hc hnext hfirst,
    reqParseLoop_take (m := ⟨f, next, true, [c]⟩) hs hnext hlen]
  · simp
  · intro a d b hsplit w temp hw
    have hw : w = true := by simpa using hw
    rw [hw]
    exact h a d b hsplit temp

/-- A byte that moves the parser on and is not kept. -/
theorem reqParseLoop_drop {f : Filled} {st next : HttpParseState} {c : UInt8}
    {rest : List UInt8} (hc : c ≠ 0) (hnext : next ≠ last)
    (h : Parser.switch junk ⟨f, st, false, []⟩ c rest spare = .ok ⟨f, next, false, []⟩) :
    reqParseLoop junk last (c :: rest) ⟨f, st, false, []⟩ spare
      = reqParseLoop junk last rest ⟨f, next, false, []⟩ spare := by
  rw [reqParseLoop_cons hc, round_drop h rfl]
  exact if_neg hnext

/-- The delimiter behind a token: the text in `temp` is stored, and `temp` cleared. -/
theorem reqParseLoop_delim {f : Filled} {st next : HttpParseState} {part : HeadPart} {w : Bool}
    {temp : List UInt8} {d : UInt8} {rest : List UInt8} (hd : d ≠ 0) (hnext : next ≠ last)
    (h : Parser.switch junk ⟨f, st, w, temp⟩ d rest spare
      = (f.storeTemp part temp spare).map fun f => ⟨f, next, false, temp⟩) :
    reqParseLoop junk last (d :: rest) ⟨f, st, w, temp⟩ spare
      = f.storeTemp part temp spare >>= fun f =>
          reqParseLoop junk last rest ⟨f, next, false, []⟩ spare := by
  rw [reqParseLoop_cons hd]
  cases hf : f.storeTemp part temp spare with
  | error e =>
      rw [Parser.round, h, hf]
      rfl
  | ok f' =>
      rw [hf] at h
      rw [round_drop h rfl]
      exact if_neg hnext

/-! ## The switches at the delimiters -/

theorem copyTemp_eq (f : Filled) (st : HttpParseState) (w : Bool) (temp : List UInt8)
    (off : ℕ) :
    Parser.copyTemp ⟨f, st, w, temp⟩ off
      = (if temp.length < tempSize then f.copy off temp else .error .read).map
          fun f => ⟨f, st, w, temp⟩ := by
  simp only [Parser.copyTemp, Parser.token, Filled.copy]
  split
  · simp only [bind, Except.bind]
    cases f.request.text.strcpy off temp <;> rfl
  · rfl

/-- An array of the request is filled without a copy on the heap. -/
theorem copyTemp_store {part : HeadPart} {off : ℕ} (hpart : ¬part.Copied) (f : Filled)
    (st : HttpParseState) (w : Bool) (temp : List UInt8)
    (hstore : f.store part temp = f.copy off temp) :
    Parser.copyTemp ⟨f, st, w, temp⟩ off
      = (f.storeTemp part temp spare).map fun f => ⟨f, st, w, temp⟩ := by
  rw [Filled.storeTemp_of_hasRoom (fun h => absurd h hpart), hstore]
  exact copyTemp_eq f st w temp off

theorem hasRoom_iff {part : HeadPart} (hpart : part.Copied) {temp : List UInt8} :
    Tok.HasRoom spare ⟨part, temp⟩ ↔ spare temp.length :=
  ⟨fun h => h hpart, fun h _ => h⟩

theorem insertQuery_eq (f : Filled) (st : HttpParseState) (w : Bool) (temp : List UInt8) :
    Parser.insertQuery ⟨f, st, w, temp⟩ spare
      = (f.storeTemp .value temp spare).map fun f => ⟨f, st, w, temp⟩ := by
  simp only [Parser.insertQuery, Parser.token, Filled.storeTemp, Filled.store,
    hasRoom_iff (show HeadPart.value.Copied by decide), mallocCopy_bind]
  split
  · rw [ok_bind]
    cases f.queryTmp with
    | none => rfl
    | some key =>
        simp only [ok_bind]
        split <;> rfl
  · rfl

theorem insertParams_eq (f : Filled) (st : HttpParseState) (w : Bool) (temp : List UInt8) :
    Parser.insertParams ⟨f, st, w, temp⟩ spare
      = (f.storeTemp .field temp spare).map fun f => ⟨f, st, w, temp⟩ := by
  simp only [Parser.insertParams, Parser.token, Filled.storeTemp, Filled.store,
    hasRoom_iff (show HeadPart.field.Copied by decide), mallocCopy_bind]
  split
  · rw [ok_bind]
    cases f.paramsTmp with
    | none => rfl
    | some key =>
        simp only [ok_bind]
        split <;> rfl
  · rfl

/-- On a line, the byte at hand never is the line end. -/
theorem pairAt_line {a : List UInt8} {c : UInt8} {b tail : List UInt8} {d : UInt8}
    {rest : List UInt8} (h : IsLine (a ++ c :: b)) (htail : tail = d :: rest) (hd : d ≠ lf) :
    pairAt cr lf c (b ++ tail) = .ok false := by
  have hline : IsLine (c :: b) :=
    ⟨(isText_append.mp h.1).2, fun hin => h.2 (hin.trans (List.suffix_append a _).isInfix)⟩
  have hend := (isLine_cons.mp hline).1.2
  unfold pairAt
  split
  · next hc =>
    cases b with
    | nil => simp [htail, peek, Except.map, hd]
    | cons e b =>
        have he : e ≠ lf := fun he => hend ⟨hc, by rw [he, List.head?_cons]⟩
        simp [peek, Except.map, he]
  · rfl

theorem pairAt_crlf (rest : List UInt8) : pairAt cr lf cr (lf :: rest) = .ok true := rfl

/-! ## A part is taken up -/

/-- The state in which the bytes of a part are taken up. -/
def HeadPart.reading : HeadPart → HttpParseState
  | .method => .method
  | .path => .path
  | part => part.state

/-- The parser takes up the text of a part and stands before `tail`. -/
def TakesUp (junk : ℕ → PartJunk) (last : HttpParseState) (part : HeadPart)
    (text tail : List UInt8) (spare : SpareByte := ample) : Prop :=
  ∀ f : Filled, ∃ w, reqParseLoop junk last (text ++ tail) (Parser.at part f) spare
    = pile text >>= fun temp => reqParseLoop junk last tail ⟨f, part.reading, w, temp⟩ spare

/-- The states the loop can be left at: not inside a head. -/
def IsExit (last : HttpParseState) : Prop := last = .start ∨ last = .bodyStart

theorem IsExit.ne (hlast : IsExit last) {st : HttpParseState} (h₁ : st ≠ .start)
    (h₂ : st ≠ .bodyStart) : st ≠ last := by
  rcases hlast with rfl | rfl
  · exact h₁
  · exact h₂

theorem Without.ne {d : UInt8} {a : List UInt8} {c : UInt8} {b : List UInt8}
    (h : d ∉ a ++ c :: b) : c ≠ d := fun hc => h (by simp [hc])

theorem HeadPart.reading_ne (hlast : IsExit last) (part : HeadPart) : part.reading ≠ last := by
  apply hlast.ne <;> cases part <;> decide

/-- The switch takes up every byte of the text of a part that stands before `tail`; `write` is
set by its first byte. -/
structure Collects (junk : ℕ → PartJunk) (part : HeadPart) (text tail : List UInt8)
    (spare : SpareByte := ample) : Prop where
  isText : IsText text
  reading : text = [] → part.reading = part.state
  switch : ∀ a c b, text = a ++ c :: b → ∀ f w temp, a = [] ∨ w = true →
    Parser.switch junk ⟨f, if a = [] then part.state else part.reading, w, temp⟩ c (b ++ tail)
      spare = .ok ⟨f, part.reading, true, temp⟩

/-- The parser takes up a text whose every byte the switch takes up. -/
theorem Collects.takesUp (hlast : IsExit last) {part : HeadPart} {text tail : List UInt8}
    (h : Collects junk part text tail spare) : TakesUp junk last part text tail spare := by
  intro f
  cases text with
  | nil =>
      refine ⟨false, ?_⟩
      rw [h.reading rfl, pile_eq_ok (Nat.zero_le _)]
      rfl
  | cons c s =>
      obtain ⟨hc, hs⟩ := isText_cons.mp h.isText
      have hfirst := h.switch [] c s rfl f false [] (Or.inl rfl)
      rw [if_pos rfl] at hfirst
      refine ⟨true, reqParseLoop_first_take hc hs (part.reading_ne hlast) hfirst ?_⟩
      rintro a d b rfl temp
      have hstep := h.switch (c :: a) d b rfl f true temp (Or.inr rfl)
      rwa [if_neg (List.cons_ne_nil c a)] at hstep

/-- A part that has one state for all of its bytes. -/
theorem collects_of_switch {part : HeadPart} {text tail : List UInt8} (ht : IsText text)
    (hreading : part.reading = part.state)
    (h : ∀ a c b, text = a ++ c :: b → ∀ f w temp,
      Parser.switch junk ⟨f, part.state, w, temp⟩ c (b ++ tail) spare
        = .ok ⟨f, part.state, true, temp⟩) : Collects junk part text tail spare := by
  refine ⟨ht, fun _ => hreading, fun a c b hs f w temp _ => ?_⟩
  rw [hreading, ite_self]
  exact h a c b hs f w temp

/-- A part with a state of its own for the first byte. -/
theorem collects_cons {part : HeadPart} {c : UInt8} {s tail : List UInt8} (hc : c ≠ 0)
    (hs : IsText s)
    (hfirst : ∀ f w temp, Parser.switch junk ⟨f, part.state, w, temp⟩ c (s ++ tail) spare
      = .ok ⟨f, part.reading, true, temp⟩)
    (h : ∀ a d b, s = a ++ d :: b → ∀ f temp,
      Parser.switch junk ⟨f, part.reading, true, temp⟩ d (b ++ tail) spare
        = .ok ⟨f, part.reading, true, temp⟩) : Collects junk part (c :: s) tail spare := by
  refine ⟨isText_cons.mpr ⟨hc, hs⟩, fun hnil => (List.cons_ne_nil c s hnil).elim, ?_⟩
  intro a d b hsplit f w temp hw
  cases a with
  | nil =>
      obtain ⟨rfl, rfl⟩ := List.cons.inj hsplit
      exact hfirst f w temp
  | cons x a =>
      obtain ⟨rfl, rfl⟩ := List.cons.inj hsplit
      obtain rfl : w = true := hw.resolve_left (List.cons_ne_nil c a)
      rw [if_neg (List.cons_ne_nil c a)]
      exact h a d b rfl f temp

theorem collects_method {c : UInt8} {s tail : List UInt8} (hc : IsMethodStart c)
    (hs : Without space s) : Collects junk .method (c :: s) tail spare := by
  have hc0 : c ≠ 0 := by rcases hc with rfl | rfl <;> decide
  refine collects_cons hc0 hs.1 (fun f w temp => if_pos hc) ?_
  rintro a d b rfl f temp
  simp [Parser.switch, HeadPart.reading, Without.ne hs.2]

theorem collects_path {s tail : List UInt8} (hs : Without space s) (hq : question ∉ s) :
    Collects junk .path (slash :: s) tail spare := by
  refine collects_cons (by decide) hs.1 (fun f w temp => rfl) ?_
  rintro a d b rfl f temp
  simp [Parser.switch, HeadPart.reading, Without.ne hs.2, Without.ne hq]

/-- A key is taken up if what follows it is no space. -/
theorem collects_key {k : List UInt8} {d : UInt8} {rest : List UInt8} (hk : IsKey k)
    (hd : d ≠ space) : Collects junk .key k (d :: rest) spare := by
  refine collects_of_switch hk.1.1 rfl ?_
  rintro a c b rfl f w temp
  have hne : c ≠ equals := Without.ne hk.1.2
  cases b with
  | nil => simp [Parser.switch, HeadPart.state, hne, peek, bind, Except.bind, hd]
  | cons e b =>
      have he : e ≠ space := by
        intro he
        refine hk.2 ?_
        cases a <;> simp [he]
      simp [Parser.switch, HeadPart.state, hne, peek, bind, Except.bind, he]

theorem collects_value {v tail : List UInt8} (hv : Without space v) (ha : amp ∉ v) :
    Collects junk .value v tail spare := by
  refine collects_of_switch hv.1 rfl ?_
  rintro a c b rfl f w temp
  simp [Parser.switch, HeadPart.state, Without.ne hv.2, Without.ne ha]

theorem collects_protocol {p tail : List UInt8} (hp : Without slash p) :
    Collects junk .protocol p tail spare := by
  refine collects_of_switch hp.1 rfl ?_
  rintro a c b rfl f w temp
  simp [Parser.switch, HeadPart.state, Without.ne hp.2]

theorem collects_version {v : List UInt8} {d : UInt8} {rest : List UInt8} (hv : IsLine v)
    (hd : d ≠ lf) : Collects junk .version v (d :: rest) spare := by
  refine collects_of_switch hv.1 rfl ?_
  rintro a c b rfl f w temp
  simp [Parser.switch, HeadPart.state, pairAt_line hv rfl hd, bind, Except.bind]

theorem collects_field {v : List UInt8} {d : UInt8} {rest : List UInt8} (hv : IsLine v)
    (hd : d ≠ lf) : Collects junk .field v (d :: rest) spare := by
  refine collects_of_switch hv.1 rfl ?_
  rintro a c b rfl f w temp
  simp [Parser.switch, HeadPart.state, pairAt_line hv rfl hd, bind, Except.bind]

/-- One byte of a name: `write` is set by an upper-case letter and stays set. -/
theorem switch_name {j : List UInt8} {d : UInt8} {rest : List UInt8} (hj : IsName j) (hd : d ≠ lf)
    (a : List UInt8) (c : UInt8) (b : List UInt8) (h : j = a ++ c :: b) (f : Filled) (w : Bool)
    (temp : List UInt8) :
    Parser.switch junk ⟨f, .param1, w, temp⟩ c (b ++ d :: rest) spare
      = .ok ⟨f, .param1, if isUpper c then true else w, temp⟩ := by
  subst h
  have hc : c ≠ colon := Without.ne hj.2
  cases hupc : isUpper c <;>
    simp [Parser.switch, hupc, hc, pairAt_line hj.1 rfl hd, bind, Except.bind]

/-- Of a name, what stands before the first upper-case letter is skipped. -/
theorem reqParseLoop_name (hlast : IsExit last) {j : List UInt8} {d : UInt8}
    {rest : List UInt8} (hj : IsName j) (hd : d ≠ lf) (f : Filled) :
    reqParseLoop junk last (j ++ d :: rest) (Parser.at .name f) spare
      = pile (kept j) >>= fun temp =>
          reqParseLoop junk last (d :: rest) ⟨f, .param1, kept j ≠ [], temp⟩ spare := by
  have hne : HttpParseState.param1 ≠ last := hlast.ne (by decide) (by decide)
  obtain ⟨pre, hpre, hlow, hup⟩ := exists_eq_append_kept j
  have hbyte : ∀ a c b, j = a ++ c :: b → ∀ f w temp,
      Parser.switch junk ⟨f, .param1, w, temp⟩ c (b ++ d :: rest) spare
        = .ok ⟨f, .param1, if isUpper c then true else w, temp⟩ := switch_name hj hd
  have htext : IsText (pre ++ kept j) := hpre ▸ hj.1.1
  have hskip : reqParseLoop junk last (j ++ d :: rest) (Parser.at .name f) spare
      = reqParseLoop junk last (kept j ++ d :: rest) (Parser.at .name f) spare := by
    conv_lhs => rw [hpre, List.append_assoc]
    refine reqParseLoop_skip (isText_append.mp htext).1 hne rfl rfl ?_
    rintro a c b rfl
    have hstep := hbyte a c (b ++ kept j) (by simpa using hpre) f false []
    rw [hlow c (by simp), List.append_assoc] at hstep
    exact hstep
  rw [hskip]
  cases hk : kept j with
  | nil => rfl
  | cons c s =>
      rw [hk] at hpre htext
      obtain ⟨hc0, hs⟩ := isText_cons.mp (isText_append.mp htext).2
      have hfirst := hbyte pre c s hpre f false []
      rw [if_pos (hup c s hk)] at hfirst
      refine reqParseLoop_first_take hc0 hs hne hfirst ?_
      rintro a e b rfl temp
      have hstep := hbyte (pre ++ c :: a) e b (by simpa using hpre) f true temp
      rwa [ite_self] at hstep

/-! ## A part ends -/

/-- What is seen of a run of the loop: whether it was left by `break`, and the request. -/
def seen (run : Except Fault Halt) : Except Fault (Bool × Request) :=
  run.map fun h => (h.broke, h.parser.request)

/-- How the loop is left at an ending, with the request filled in before it. -/
def Ending.finish (junk : ℕ → PartJunk) (last : HttpParseState) (e : Ending) (spare : SpareByte)
    (f : Filled) : Except Fault (Bool × Request) :=
  match e with
  | .cut s => pile s >>= fun _ => .ok (false, f.request)
  | .bad s => pile s >>= fun _ => .ok (false, f.request)
  | .closed p rest => pile p >>= fun temp =>
      seen (afterRound junk last rest ⟨f, .bodyStart, p ≠ [], temp⟩ spare)

theorem seen_bind {α : Type} (r : Except Fault α) (k : α → Except Fault Halt) :
    seen (r >>= k) = r >>= fun a => seen (k a) := by
  cases r <;> rfl

/-- A token is followed by its delimiter. -/
theorem TakesUp.token {part : HeadPart} {next : HttpParseState} {text rest : List UInt8}
    {d : UInt8} (h : TakesUp junk last part text (d :: rest) spare) (hd : d ≠ 0)
    (hnext : next ≠ last)
    (hswitch : ∀ f w temp, Parser.switch junk ⟨f, part.reading, w, temp⟩ d rest spare
      = (f.storeTemp part temp spare).map fun f => ⟨f, next, false, temp⟩) (f : Filled) :
    reqParseLoop junk last (text ++ d :: rest) (Parser.at part f) spare
      = f.put ⟨part, text⟩ spare >>= fun f =>
          reqParseLoop junk last rest ⟨f, next, false, []⟩ spare := by
  obtain ⟨w, hw⟩ := h f
  rw [hw, Filled.put, bind_assoc]
  congr 1
  funext temp
  exact reqParseLoop_delim hd hnext (hswitch f w temp)

/-- A NUL ends the text of a part. -/
theorem TakesUp.cut {part : HeadPart} {text tail : List UInt8}
    (h : TakesUp junk last part text (0 :: tail) spare) (f : Filled) :
    seen (reqParseLoop junk last (text ++ 0 :: tail) (Parser.at part f) spare)
      = (Ending.cut text).finish junk last spare f := by
  obtain ⟨w, hw⟩ := h f
  rw [hw, seen_bind]
  simp only [reqParseLoop_zero]
  rfl

theorem switch_colon (f : Filled) (w : Bool) (temp rest : List UInt8) :
    Parser.switch junk ⟨f, .param1, w, temp⟩ colon rest spare
      = (f.storeTemp .name temp spare).map fun f => ⟨f, .param2, false, temp⟩ := by
  have hup : isUpper colon = false := by decide
  simp only [Parser.switch, Parser.token, Filled.storeTemp, Filled.store, hup,
    hasRoom_iff (show HeadPart.name.Copied by decide), mallocCopy_bind,
    Bool.false_eq_true, if_false, if_true]
  split
  · simp only [ok_bind]
    split <;> rfl
  · rfl

/-- The `\r` of the line end is kept with a name of which something is kept. -/
theorem kept_cr (j : List UInt8) :
    kept (j ++ [cr]) = if kept j = [] then [] else kept j ++ [cr] := by
  unfold kept
  rw [List.dropWhile_append]
  cases List.dropWhile (fun c => !isUpper c) j <;> rfl

/-- Behind a name comes the colon and one byte that is skipped. -/
theorem reqParseLoop_name_colon (hlast : IsExit last) {j rest : List UInt8} (hj : IsName j)
    (f : Filled) :
    reqParseLoop junk last (j ++ colon :: rest) (Parser.at .name f) spare
      = f.put ⟨.name, kept j⟩ spare >>= fun f =>
          reqParseLoop junk last rest ⟨f, .param2, false, []⟩ spare := by
  rw [reqParseLoop_name hlast hj (by decide), Filled.put, bind_assoc]
  congr 1
  funext temp
  exact reqParseLoop_delim (by decide) (hlast.ne (by decide) (by decide))
    (switch_colon f _ temp rest)

/-- The line end where a name would start closes the head. -/
theorem reqParseLoop_name_end (hlast : IsExit last) {j rest : List UInt8} (hj : IsName j)
    (f : Filled) :
    reqParseLoop junk last (j ++ cr :: lf :: rest) (Parser.at .name f) spare
      = pile (kept (j ++ [cr])) >>= fun temp =>
          afterRound junk last (lf :: rest) ⟨f, .bodyStart, kept (j ++ [cr]) ≠ [], temp⟩
            spare := by
  have hswitch : ∀ w temp, Parser.switch junk ⟨f, .param1, w, temp⟩ cr (lf :: rest) spare
      = .ok ⟨f, .bodyStart, w, temp⟩ := fun w temp => rfl
  rw [reqParseLoop_name hlast hj (by decide)]
  cases hk : kept j with
  | nil =>
      have hend : kept (j ++ [cr]) = [] := by rw [kept_cr, hk, if_pos rfl]
      rw [hend, pile_eq_ok (Nat.zero_le _), ok_bind, ok_bind,
        show decide (([] : List UInt8) ≠ []) = false from rfl, reqParseLoop_cons (by decide),
        round_drop (hswitch _ _) rfl, ok_bind]
  | cons c s =>
      have hend : kept (j ++ [cr]) = (c :: s) ++ [cr] := by
        rw [kept_cr, hk, if_neg (List.cons_ne_nil c s)]
      rw [hend, pile_append]
      by_cases hle : (c :: s).length ≤ tempSize
      · rw [pile_eq_ok hle, ok_bind, ok_bind, show decide (c :: s ≠ []) = true from by simp,
          reqParseLoop_cons (by decide), round_take (hswitch _ _) rfl hle]
        cases pile (c :: s ++ [cr]) <;> rfl
      · rw [pile_eq_error (Nat.lt_of_not_le hle)]
        rfl

/-- What stands in front of the last byte of a key is taken up. -/
theorem collects_key_init {k : List UInt8} {c : UInt8} (hk : IsKey (k ++ [c]))
    (tail : List UInt8) : Collects junk .key k (c :: tail) spare := by
  cases k with
  | nil =>
      refine collects_of_switch (fun h0 => List.not_mem_nil h0) rfl fun a d b hs => ?_
      exact (List.append_ne_nil_of_right_ne_nil a (List.cons_ne_nil d b) hs.symm).elim
  | cons d k =>
      refine collects_key ⟨⟨(isText_append.mp hk.1.1).1, ?_⟩, ?_⟩ ?_
      · exact fun hm => hk.1.2 (List.mem_append_left _ hm)
      · exact fun hm => hk.2 (List.mem_append_left _ hm)
      · exact fun hsp => hk.2 (by simp [hsp])

/-- The last byte of a key in front of a space. -/
theorem switch_key_bad {c : UInt8} (hc : c ≠ equals) (f : Filled) (w : Bool)
    (temp rest : List UInt8) :
    Parser.switch junk ⟨f, .queryStart, w, temp⟩ c (space :: rest) spare
      = .ok ⟨f, .invalid, true, temp⟩ := by
  simp [Parser.switch, hc, peek, bind, Except.bind]

/-- The byte behind the `=` is read, and it is there. -/
theorem switch_equals (f : Filled) (w : Bool) (temp : List UInt8) {rest : List UInt8}
    (hrest : rest ≠ []) :
    Parser.switch junk ⟨f, .queryStart, w, temp⟩ equals rest spare
      = (f.storeTemp .key temp spare).map fun f => ⟨f, .queryTemp, false, temp⟩ := by
  obtain ⟨d, rest, rfl⟩ := List.exists_cons_of_ne_nil hrest
  simp only [Parser.switch, Parser.token, peek, Filled.storeTemp, Filled.store,
    hasRoom_iff (show HeadPart.key.Copied by decide), mallocCopy_bind, if_true, ok_bind]
  split
  · simp only [ok_bind]
    split <;> rfl
  · rfl

/-- The query key that is followed by a space instead of its value. -/
theorem seen_key_bad (hlast : IsExit last) {k s tail : List UInt8} (hk : IsKey k)
    (hne : k ≠ []) (hs : IsText s) (f : Filled) :
    seen (reqParseLoop junk last (k ++ space :: (s ++ 0 :: tail)) (Parser.at .key f) spare)
      = (Ending.bad (k ++ space :: s)).finish junk last spare f := by
  have hinv : HttpParseState.invalid ≠ last := hlast.ne (by decide) (by decide)
  obtain ⟨k', c, rfl⟩ : ∃ k' c, k = k' ++ [c] := (List.eq_nil_or_concat' k).resolve_left hne
  obtain ⟨hc0, -⟩ := isText_cons.mp (isText_append.mp hk.1.1).2
  have hc : c ≠ equals := Without.ne hk.1.2
  -- `k'` is taken up in the state of a key, its last byte moves on, the rest is taken up there
  have hk' : TakesUp junk last .key k' (c :: space :: (s ++ 0 :: tail)) spare :=
    (collects_key_init hk _).takesUp hlast
  obtain ⟨w, hw⟩ := hk' f
  have hlast' : ∀ temp, temp.length ≤ tempSize →
      seen (reqParseLoop junk last (c :: space :: (s ++ 0 :: tail)) ⟨f, .queryStart, w, temp⟩
          spare)
        = pile (temp ++ [c]) >>= fun temp => pile (temp ++ space :: s) >>= fun _ =>
            .ok (false, f.request) := by
    intro temp htemp
    have hswitch : Parser.switch junk ⟨f, .queryStart, w, temp⟩ c (space :: (s ++ 0 :: tail)) spare
        = .ok ⟨f, .invalid, true, temp⟩ := switch_key_bad hc f w temp (s ++ 0 :: tail)
    rw [reqParseLoop_cons hc0, round_take hswitch rfl htemp]
    by_cases hle : (temp ++ [c]).length ≤ tempSize
    · rw [pile_eq_ok hle]
      show seen (afterRound junk last ((space :: s) ++ 0 :: tail)
        ⟨f, .invalid, true, temp ++ [c]⟩ spare) = pile (temp ++ [c] ++ space :: s) >>= _
      rw [afterRound, if_neg hinv, reqParseLoop_take (m := ⟨f, .invalid, true, temp ++ [c]⟩)
        (isText_cons.mpr ⟨by decide, hs⟩) hinv hle, seen_bind]
      · simp only [reqParseLoop_zero]
        rfl
      · intro a d b _ w' temp' hw'
        have hw' : w' = true := by simpa using hw'
        rw [hw']
        rfl
    · rw [pile_eq_error (Nat.lt_of_not_le hle)]
      rfl
  rw [List.append_assoc, List.singleton_append, hw, seen_bind, Ending.finish, pile_append,
    pile_append, bind_assoc]
  by_cases hle : k'.length ≤ tempSize
  · rw [pile_eq_ok hle]
    exact hlast' k' hle
  · rw [pile_eq_error (Nat.lt_of_not_le hle)]
    rfl

/-! ## The whole head -/

/-- A text no head begins with is skipped to its NUL. -/
theorem seen_invalid (hlast : IsExit last) {st : HttpParseState} {c : UInt8}
    {s tail : List UInt8} (hc : c ≠ 0) (hs : IsText s) (f : Filled)
    (h : Parser.switch junk ⟨f, st, false, []⟩ c (s ++ 0 :: tail) spare
      = .ok ⟨f, .invalid, false, []⟩) :
    seen (reqParseLoop junk last (c :: (s ++ 0 :: tail)) ⟨f, st, false, []⟩ spare)
      = (Ending.bad []).finish junk last spare f := by
  have hinv : HttpParseState.invalid ≠ last := hlast.ne (by decide) (by decide)
  rw [reqParseLoop_drop hc hinv h, reqParseLoop_skip hs hinv rfl rfl fun _ _ _ _ => rfl,
    reqParseLoop_zero]
  rfl

/-- What the loop does behind the tokens of a reading, by the ending. -/
def Ending.LeftBy (junk : ℕ → PartJunk) (last : HttpParseState) (e : Ending) (spare : SpareByte)
    (k : Filled → Except Fault Halt) : Prop :=
  match e with
  | .closed p rest => ∀ f, k f = pile p >>= fun temp =>
      afterRound junk last rest ⟨f, .bodyStart, p ≠ [], temp⟩ spare
  | e => ∀ f, seen (k f) = e.finish junk last spare f

theorem Ending.LeftBy.seen_eq {e : Ending} {k : Filled → Except Fault Halt}
    (h : e.LeftBy junk last spare k) (f : Filled) : seen (k f) = e.finish junk last spare f := by
  cases e with
  | closed p rest =>
      rw [h f, seen_bind]
      rfl
  | cut s => exact h f
  | bad s => exact h f

/-- The loop over `data` puts the tokens, and then the ending decides. -/
def RunsAs (junk : ℕ → PartJunk) (last : HttpParseState) (part : HeadPart) (data : List UInt8)
    (toks : List Tok) (e : Ending) (spare : SpareByte) : Prop :=
  ∃ k : Filled → Except Fault Halt, e.LeftBy junk last spare k ∧
    ∀ f, reqParseLoop junk last data (Parser.at part f) spare = f.putAll toks spare >>= k

/-- A reading without tokens is the run itself. -/
theorem runsAs_nil {part : HeadPart} {data : List UInt8} {e : Ending}
    (he : ∀ p rest, e ≠ .closed p rest)
    (hseen : ∀ f, seen (reqParseLoop junk last data (Parser.at part f) spare)
      = e.finish junk last spare f) :
    RunsAs junk last part data [] e spare := by
  refine ⟨fun f => reqParseLoop junk last data (Parser.at part f) spare, ?_, fun f => rfl⟩
  cases e with
  | closed p rest => exact absurd rfl (he p rest)
  | cut s => exact hseen
  | bad s => exact hseen

/-- A run that puts a token and goes on as a run that is known. -/
theorem RunsAs.token {part part' : HeadPart} {data rest : List UInt8} {t : Tok} {ts : List Tok}
    {e : Ending} (h : RunsAs junk last part' rest ts e spare)
    (hrun : ∀ f, reqParseLoop junk last data (Parser.at part f) spare
      = f.put t spare >>= fun f => reqParseLoop junk last rest (Parser.at part' f) spare) :
    RunsAs junk last part data (t :: ts) e spare := by
  obtain ⟨k, hleft, hk⟩ := h
  refine ⟨k, hleft, fun f => ?_⟩
  rw [hrun, Filled.putAll, bind_assoc]
  congr 1
  funext f
  exact hk f

/-- The loop over a memory with a reading: its tokens are put, then its ending decides. -/
theorem reqParseLoop_headText (hlast : IsExit last) {part : HeadPart} {data : List UInt8}
    {toks : List Tok} {e : Ending} (h : HeadText part data toks e) :
    RunsAs junk last part data toks e spare := by
  have hne : ∀ {st : HttpParseState}, st ≠ .start → st ≠ .bodyStart → st ≠ last :=
    fun h₁ h₂ => hlast.ne h₁ h₂
  have hparam : HttpParseState.paramStart ≠ last := hne (by decide) (by decide)
  -- the byte that is skipped in front of a name, and of a value
  have hname : ∀ {rest : List UInt8} (f : Filled),
      reqParseLoop junk last (lf :: rest) ⟨f, .paramStart, false, []⟩ spare
        = reqParseLoop junk last rest (Parser.at .name f) spare := fun f =>
    reqParseLoop_drop (by decide) (hne (by decide) (by decide)) rfl
  have hfield : ∀ {x : UInt8} {rest : List UInt8}, x ≠ 0 → ∀ f : Filled,
      reqParseLoop junk last (x :: rest) ⟨f, .param2, false, []⟩ spare
        = reqParseLoop junk last rest (Parser.at .field f) spare := fun hx f =>
    reqParseLoop_drop hx (hne (by decide) (by decide)) rfl
  induction h with
  | methodNil =>
      refine runsAs_nil (by simp) fun f => ?_
      rw [reqParseLoop_zero]
      rfl
  | methodBad hc hstart hs =>
      exact runsAs_nil (by simp) fun f => seen_invalid hlast hc hs f (if_neg hstart)
  | methodCut hc hs => exact runsAs_nil (by simp) ((collects_method hc hs).takesUp hlast).cut
  | method hc hs _ ih =>
      refine ih.token (((collects_method hc hs).takesUp hlast).token (by decide)
        (hne (by decide) (by decide)) fun f w temp => ?_)
      exact copyTemp_store (by decide) f .pathStart false temp rfl
  | pathNil =>
      refine runsAs_nil (by simp) fun f => ?_
      rw [reqParseLoop_zero]
      rfl
  | pathBad hc hslash hs =>
      exact runsAs_nil (by simp) fun f => seen_invalid hlast hc hs f (if_neg hslash)
  | pathCut hs hq => exact runsAs_nil (by simp) ((collects_path hs hq).takesUp hlast).cut
  | pathSpace hs hq _ ih =>
      refine ih.token (((collects_path hs hq).takesUp hlast).token (by decide)
        (hne (by decide) (by decide)) fun f w temp => ?_)
      exact copyTemp_store (by decide) f .pvStart false temp rfl
  | pathQuery hs hq _ ih =>
      refine ih.token (((collects_path hs hq).takesUp hlast).token (by decide)
        (hne (by decide) (by decide)) fun f w temp => ?_)
      exact copyTemp_store (by decide) f .queryStart false temp rfl
  | keyCut hk => exact runsAs_nil (by simp) ((collects_key hk (by decide)).takesUp hlast).cut
  | keyBad hk hne hs => exact runsAs_nil (by simp) (seen_key_bad hlast hk hne hs)
  | key hk hts ih =>
      refine ih.token (((collects_key hk (by decide)).takesUp hlast).token (by decide)
        (hne (by decide) (by decide)) fun f w temp => ?_)
      exact switch_equals f w temp hts.ne_nil
  | valueCut hv ha => exact runsAs_nil (by simp) ((collects_value hv ha).takesUp hlast).cut
  | valueAmp hv ha _ ih =>
      refine ih.token (((collects_value hv ha).takesUp hlast).token (by decide)
        (hne (by decide) (by decide)) fun f w temp => ?_)
      exact insertQuery_eq f .queryStart false temp
  | valueSpace hv ha _ ih =>
      refine ih.token (((collects_value hv ha).takesUp hlast).token (by decide)
        (hne (by decide) (by decide)) fun f w temp => ?_)
      exact insertQuery_eq f .pvStart false temp
  | protocolCut hp => exact runsAs_nil (by simp) ((collects_protocol hp).takesUp hlast).cut
  | protocol hp _ ih =>
      refine ih.token (((collects_protocol hp).takesUp hlast).token (by decide)
        (hne (by decide) (by decide)) fun f w temp => ?_)
      exact copyTemp_store (by decide) f .pvTemp false temp rfl
  | versionCut hv =>
      exact runsAs_nil (by simp) ((collects_version hv (by decide)).takesUp hlast).cut
  | version hv _ ih =>
      refine ih.token fun f => (((collects_version hv (by decide)).takesUp hlast).token
        (by decide) hparam (fun f w temp => ?_) f).trans ?_
      · exact copyTemp_store (by decide) f .paramStart false temp rfl
      · simp only [hname]
  | nameCut hj =>
      refine runsAs_nil (by simp) fun f => ?_
      rw [reqParseLoop_name hlast hj (by decide), seen_bind]
      simp only [reqParseLoop_zero]
      rfl
  | @nameColon j tail hj =>
      refine ⟨fun f => reqParseLoop junk last (0 :: tail) ⟨f, .param2, false, []⟩ spare,
        fun f => ?_, fun f => ?_⟩
      · show seen (reqParseLoop junk last (0 :: tail) _ spare) = _
        rw [reqParseLoop_zero]
        rfl
      · rw [reqParseLoop_name_colon hlast hj, Filled.putAll, bind_assoc]
        rfl
  | name hj hx _ ih =>
      refine ih.token fun f => ?_
      rw [reqParseLoop_name_colon hlast hj]
      simp only [hfield hx]
  | nameEnd hj => exact ⟨_, fun f => rfl, fun f => reqParseLoop_name_end hlast hj f⟩
  | fieldCut hv => exact runsAs_nil (by simp) ((collects_field hv (by decide)).takesUp hlast).cut
  | field hv _ ih =>
      refine ih.token fun f => (((collects_field hv (by decide)).takesUp hlast).token
        (by decide) hparam (fun f w temp => ?_) f).trans ?_
      · exact insertParams_eq f .paramStart false temp
      · simp only [hname]

/-- What is seen of the loop over a memory with a reading. -/
theorem seen_reqParseLoop (hlast : IsExit last) {part : HeadPart} {data : List UInt8}
    {toks : List Tok} {e : Ending} (h : HeadText part data toks e) (f : Filled) :
    seen (reqParseLoop junk last data (Parser.at part f) spare)
      = f.putAll toks spare >>= e.finish junk last spare := by
  obtain ⟨k, hleft, hk⟩ := reqParseLoop_headText hlast h
  rw [hk f, seen_bind]
  congr 1
  funext f
  exact hleft.seen_eq f

/-! ## Behind the head -/

/-- What piles up behind the head: nothing, unless something was left in `temp`. -/
def grow (p s : List UInt8) : List UInt8 := if p = [] then [] else p ++ s

/-- `PARSE_BODY`: the body copied from `p`, and its parts scanned. -/
def parseBody (junk : ℕ → PartJunk) (request : Request) (p : List UInt8) :
    Except Fault Request :=
  copyBody request p >>= scanBody junk

/-- The parse from the body of a POST on: its first byte must be there. -/
def openBody (junk : ℕ → PartJunk) (p rest : List UInt8) (request : Request) :
    Except Fault (Bool × Request) :=
  match rest with
  | [] => .error .read
  | c :: rest =>
      if c = 0 then .ok (false, request)
      else parseBody junk request (c :: rest) >>= fun request =>
        pile (grow p [lf, c]) >>= fun _ => .ok (true, request)

/-- The parse behind the `\n` that closes the head, `rest` being the memory there and
`p` what was left in `temp` before it. -/
def closeHead (junk : ℕ → PartJunk) (p rest : List UInt8) (request : Request) :
    Except Fault (Bool × Request) :=
  pile (grow p [lf]) >>= fun _ =>
    if request.method = bytes "POST" then openBody junk p rest request
    else .ok (true, { request with bodyLength := 0, body := .null })

theorem grow_ne_nil {p s : List UInt8} : grow p s ≠ [] ↔ p ≠ [] := by
  unfold grow
  split <;> simp_all

theorem grow_grow (p s t : List UInt8) : grow (grow p s) t = grow p (s ++ t) := by
  by_cases hp : p = []
  · simp [grow, hp]
  · simp [grow, hp]

/-- What is left in `temp` behind the head decides `write`. -/
theorem store_left (f : Filled) (st : HttpParseState) {p : List UInt8} (c : UInt8)
    (hp : p.length ≤ tempSize) :
    Parser.store ⟨f, st, p ≠ [], p⟩ c
      = (pile (grow p [c])).map fun temp => ⟨f, st, temp ≠ [], temp⟩ := by
  by_cases hnil : p = []
  · subst hnil
    rfl
  · by_cases hlt : p.length < tempSize
    · have hle : (grow p [c]).length ≤ tempSize := by
        simp only [grow, if_neg hnil, List.length_append, List.length_singleton]
        omega
      rw [pile_eq_ok hle]
      simp [Parser.store, grow, hnil, hlt]
    · have hlong : tempSize < (grow p [c]).length := by
        simp only [grow, if_neg hnil, List.length_append, List.length_singleton]
        omega
      rw [pile_eq_error hlong]
      simp [Parser.store, hnil, hlt]

theorem finish_closed (p rest : List UInt8) (f : Filled) :
    (Ending.closed p (lf :: rest)).finish junk .start spare f
      = pile p >>= fun _ => closeHead junk p rest f.request := by
  rw [Ending.finish]
  by_cases hp : p.length ≤ tempSize
  swap
  · rw [pile_eq_error (Nat.lt_of_not_le hp)]
    rfl
  rw [pile_eq_ok hp, ok_bind, ok_bind, afterRound, if_neg (by simp), closeHead,
    reqParseLoop_cons (by decide), Parser.round]
  by_cases hpost : f.request.method = bytes "POST"
  · -- the round of the line feed opens the body, the next one copies and scans it
    have hswitch : Parser.switch junk ⟨f, .bodyStart, p ≠ [], p⟩ lf rest spare
        = .ok ⟨f, .body, p ≠ [], p⟩ := if_pos hpost
    rw [hswitch, ok_bind, store_left f .body lf hp]
    by_cases hle : (grow p [lf]).length ≤ tempSize
    swap
    · rw [pile_eq_error (Nat.lt_of_not_le hle)]
      rfl
    rw [pile_eq_ok hle, ok_map, ok_bind, ok_bind, afterRound, if_neg (by simp), if_pos hpost]
    cases rest with
    | nil => rfl
    | cons c rest =>
        by_cases hc : c = 0
        · subst hc
          rw [reqParseLoop_zero, openBody, if_pos rfl]
          rfl
        rw [reqParseLoop_cons hc, openBody, if_neg hc, Parser.round]
        have hbody : Parser.switch junk ⟨f, .body, grow p [lf] ≠ [], grow p [lf]⟩ c rest spare
            = (parseBody junk f.request (c :: rest)).map fun request =>
                ⟨{ f with request := request }, .start, grow p [lf] ≠ [], grow p [lf]⟩ := by
          simp only [Parser.switch, parseBody]
          cases copyBody f.request (c :: rest) with
          | error e => rfl
          | ok r =>
              simp only [ok_bind]
              cases scanBody junk r <;> rfl
        rw [hbody]
        cases parseBody junk f.request (c :: rest) with
        | error e => rfl
        | ok r =>
            rw [ok_map, ok_bind, store_left { f with request := r } .start c hle, grow_grow]
            show _ = pile (grow p ([lf] ++ [c])) >>= _
            cases pile (grow p ([lf] ++ [c])) <;> rfl
  · have hswitch : Parser.switch junk ⟨f, .bodyStart, p ≠ [], p⟩ lf rest spare
        = .ok ⟨{ f with request := { f.request with bodyLength := 0, body := .null } },
            .start, p ≠ [], p⟩ := if_neg hpost
    rw [hswitch, ok_bind, store_left _ .start lf hp, if_neg hpost]
    cases pile (grow p [lf]) <;> rfl

/-- The part of the parse up to the head's end, and the rest of it. -/
theorem reqParseHttp_eq {request : Request} {data : List UInt8}
    {toks : List Tok} {e : Ending} (h : HeadText .method data toks e) :
    reqParseHttp junk request data spare
      = ((Parser.start request).toFilled.putAll toks spare >>= e.finish junk .start spare).map
          Prod.snd := by
  have hrun : seen (reqParseLoop junk .start data (Parser.start request) spare)
      = (Parser.start request).toFilled.putAll toks spare >>= e.finish junk .start spare :=
    seen_reqParseLoop (Or.inl rfl) h (Parser.start request).toFilled
  rw [← hrun, reqParseHttp, seen]
  cases reqParseLoop junk .start data (Parser.start request) spare <;> rfl

end
