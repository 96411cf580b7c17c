/-
# Multipart bodies are parsed back

A form is a list of parts, each with a name, perhaps a filename, and data; it is
rendered in the standard form, with the closing delimiter behind the last part.
`req_parse_multi_part` gets every part of a rendered form back
(`reqParseMultiPart_renderForm`).

The scanner is followed through one delimiter, one header field and one run of data
at a time: `Reads s text rest s'` says that, with the memory `rest` behind it, `text`
takes the scanner from `s` to `s'`.  The memory behind matters, for the scanner looks
ahead: by one byte at a dash, an equals sign and a carriage return, and by the length
of the boundary at a line end inside the data.
-/
import DmfServer.MultiPart

open CMem

/-! ## Forms -/

/-- A boundary: up to 63 characters, none of them a dash, a line end or NUL. -/
structure Boundary where
  text : List UInt8
  ne_nil : text ≠ []
  length_le : text.length ≤ 63
  plain : ∀ c ∈ text, c ≠ Ascii.dash ∧ c ≠ Ascii.cr ∧ c ≠ Ascii.lf ∧ c ≠ 0

theorem Boundary.isText (b : Boundary) : IsText b.text := fun h => (b.plain 0 h).2.2.2 rfl

/-- The byte behind the dashes of a delimiter is not a dash. -/
theorem Boundary.peek_text (b : Boundary) (rest : List UInt8) :
    ∃ c, peek (b.text ++ rest) = .ok c ∧ c ≠ Ascii.dash := by
  have hne := b.ne_nil
  have hplain := b.plain
  generalize b.text = text at hne hplain
  cases text with
  | nil => exact absurd rfl hne
  | cons c text => exact ⟨c, rfl, (hplain c List.mem_cons_self).1⟩

/-- What may stand between the quotes of a header field. -/
structure Quotable (value : List UInt8) : Prop where
  length_le : value.length ≤ 63
  plain : ∀ c ∈ value, c ≠ Ascii.quote
  text : IsText value

/-- No line end in the data is followed by two bytes and the boundary. -/
def Undelimited (b : Boundary) (data : List UInt8) : Prop :=
  ∀ front x y rest, data ≠ front ++ Ascii.cr :: Ascii.lf :: x :: y :: (b.text ++ rest)

/-- One part of a form with the boundary `b`. -/
structure FormPart (b : Boundary) where
  name : List UInt8
  filename : Option (List UInt8)
  data : List UInt8
  quotable_name : Quotable name
  quotable_filename : ∀ value ∈ filename, Quotable value
  undelimited_data : Undelimited b data

/-- The line end. -/
def crlf : List UInt8 := [Ascii.cr, Ascii.lf]

/-- A delimiter: two dashes and the boundary. -/
def delimiter (b : Boundary) : List UInt8 := Ascii.dash :: Ascii.dash :: b.text

/-- `key="value"`. -/
def quotedField (key value : List UInt8) : List UInt8 :=
  key ++ [Ascii.equals] ++ Ascii.quote :: (value ++ [Ascii.quote])

/-- `Content-Disposition: form-data; ` in front of the fields. -/
def formData : List UInt8 := bytes "Content-Disposition: form-data; "

namespace FormPart

variable {b : Boundary}

/-- The filename field with the semicolon before it, or nothing. -/
def filenameField (part : FormPart b) : List UInt8 :=
  match part.filename with
  | none => []
  | some value => bytes "; " ++ quotedField (bytes "filename") value

/-- The header of a part, from its delimiter to its empty line. -/
def renderHead (part : FormPart b) : List UInt8 :=
  delimiter b ++ crlf ++ formData ++ quotedField (bytes "name") part.name
    ++ part.filenameField ++ crlf ++ crlf

/-- A part up to the line end behind its data. -/
def render (part : FormPart b) : List UInt8 := part.renderHead ++ part.data ++ crlf

end FormPart

/-- A form: its parts and the closing delimiter. -/
def renderForm {b : Boundary} (parts : List (FormPart b)) : List UInt8 :=
  parts.flatMap FormPart.render ++ delimiter b ++ bytes "--"

/-- The part of the table holds the part of the form. -/
structure Multipart.Holds {b : Boundary} (p : Multipart) (part : FormPart b) : Prop where
  name : p.kv.str (nameAt + kvKeySize) = part.name
  filename : ∀ value ∈ part.filename, p.kv.str (filenameAt + kvKeySize) = value
  data : p.data = part.data
  length : p.length = part.data.length

section
variable {b : Boundary}

theorem Undelimited.tail {c : UInt8} {data : List UInt8} (h : Undelimited b (c :: data)) :
    Undelimited b data := by
  intro front x y rest heq
  exact h (c :: front) x y rest (by rw [heq, List.cons_append])

/-- Behind a line end and two bytes inside the data the boundary does not stand. -/
theorem Undelimited.ne_append {data tail behind v : List UInt8}
    (h : Undelimited b (Ascii.cr :: data))
    (hlf : data ++ (crlf ++ (delimiter b ++ tail)) = Ascii.lf :: behind) :
    behind.drop 2 ≠ b.text ++ v := by
  intro hsplit
  obtain ⟨c, text, hb⟩ := List.exists_cons_of_ne_nil b.ne_nil
  have hc := b.plain c (by rw [hb]; exact List.mem_cons_self)
  match data with
  | [] => exact absurd (List.cons.inj hlf).1 (by decide)
  | [_] =>
      -- the two bytes are the next line end, and a dash stands behind them
      obtain ⟨-, rfl⟩ := List.cons.inj hlf
      rw [hb] at hsplit
      exact hc.1 (List.cons.inj hsplit).1.symm
  | [_, x] =>
      -- the second byte is the carriage return, and the line feed stands behind it
      obtain ⟨-, rfl⟩ := List.cons.inj hlf
      rw [hb] at hsplit
      exact hc.2.2.1 (List.cons.inj hsplit).1.symm
  | d :: x :: y :: data =>
      obtain ⟨rfl, rfl⟩ := List.cons.inj hlf
      obtain ⟨w, hw, hv⟩ | ⟨w, hw, -⟩ := List.append_eq_append_iff.mp hsplit
      · cases w with
        | nil => exact h [] x y [] (by rw [hw, List.append_nil, List.append_nil]; rfl)
        | cons e w =>
            -- the boundary would run into the line end
            obtain ⟨rfl, -⟩ := List.cons.inj hv
            exact (b.plain Ascii.cr (by rw [hw]; simp)).2.1 rfl
      · exact h [] x y w (by rw [hw]; rfl)

end

namespace MultiPart

@[simp] theorem pairAt_of_ne {a c : UInt8} (h : c ≠ a) (d : UInt8) (rest : List UInt8) :
    pairAt a d c rest = .ok false := if_neg h

@[simp] theorem pairAt_self (a d : UInt8) (rest : List UInt8) :
    pairAt a d a rest = (peek rest).map (· == d) := if_pos rfl

@[simp] theorem peek_cons (c : UInt8) (rest : List UInt8) : peek (c :: rest) = .ok c := rfl

variable {junk : ℕ → PartJunk} {boundary : List UInt8}

/-! ## Reading a text -/

/-- With `rest` behind it, `text` takes the scanner from `s` to `s'`. -/
def Reads (junk : ℕ → PartJunk) (boundary : List UInt8) (s : Scan)
    (text rest : List UInt8) (s' : Scan) : Prop :=
  scanLoop junk boundary (text ++ rest) s = scanLoop junk boundary rest s'

theorem Reads.nil (s : Scan) (rest : List UInt8) : Reads junk boundary s [] rest s := rfl

/-- Texts are read one after the other. -/
theorem Reads.append {s s₁ s₂ : Scan} {t₁ t₂ rest : List UInt8}
    (h₁ : Reads junk boundary s t₁ (t₂ ++ rest) s₁) (h₂ : Reads junk boundary s₁ t₂ rest s₂) :
    Reads junk boundary s (t₁ ++ t₂) rest s₂ := by
  unfold Reads at *
  rw [List.append_assoc, h₁, h₂]

/-- A byte is read by the switch and what `write` does with it. -/
theorem reads_byte {s s₁ s₂ : Scan} {c : UInt8} {rest : List UInt8}
    (hswitch : s.switch boundary c rest = .ok s₁) (hopen : (s₁.state == .s90) = false)
    (hstore : s₁.store c = .ok s₂) (hgo : (s₂.state == .s1) = false) :
    Reads junk boundary s [c] rest s₂ := by
  have hstay : s₁.state ≠ .s90 := beq_eq_false_iff_ne.mp hopen
  have hleave : s₂.state ≠ .s1 := beq_eq_false_iff_ne.mp hgo
  unfold Reads
  rw [List.singleton_append, scanLoop, hswitch, ok_bind, if_neg (fun h => hstay h.1),
    Scan.openPart, if_neg hstay, ok_bind, hstore, ok_bind, if_neg hleave]

/-- The bytes a state of the header collects in `temp`. -/
def Plain : State → UInt8 → Prop
  | .s11, c => c ≠ Ascii.dash ∧ c ≠ Ascii.cr
  | .s20, c => c ≠ Ascii.lf ∧ c ≠ Ascii.colon
  | .s21, c => c ≠ Ascii.space ∧ c ≠ Ascii.semicolon
  | .s22, c => c ≠ Ascii.space ∧ c ≠ Ascii.equals
  | .s23, c => c ≠ Ascii.quote
  | _, _ => False

instance (st : State) (c : UInt8) : Decidable (Plain st c) := by
  cases st <;> unfold Plain <;> infer_instance

theorem switch_plain {s : Scan} {c : UInt8} (h : Plain s.state c) (rest : List UInt8) :
    s.switch boundary c rest = .ok { s with write := .temp } := by
  obtain ⟨st, w, temp, k, nf, m, multi⟩ := s
  cases st <;> simp_all [Plain, Scan.switch, pairAt, bind, Except.bind]

variable (junk boundary) in
/-- Plain bytes go to the end of `temp`. -/
theorem reads_plain (s : Scan) {text : List UInt8} (rest : List UInt8)
    (hplain : ∀ c ∈ text, Plain s.state c) (hroom : s.temp.length + text.length ≤ 1024) :
    ∃ w, Reads junk boundary s text rest { s with write := w, temp := s.temp ++ text } := by
  induction text generalizing s with
  | nil => exact ⟨s.write, by rw [List.append_nil]; exact .nil s rest⟩
  | cons c text ih =>
      obtain ⟨hc, htext⟩ := List.forall_mem_cons.mp hplain
      rw [List.length_cons] at hroom
      have hstate : s.state ≠ .s90 ∧ s.state ≠ .s1 := by
        constructor <;> intro h <;> rw [h] at hc <;> exact hc
      have hbyte : Reads junk boundary s [c] (text ++ rest)
          { s with write := .temp, temp := s.temp ++ [c] } :=
        reads_byte (switch_plain hc _) (beq_eq_false_iff_ne.mpr hstate.1)
          (by unfold Scan.store; rw [if_pos (by dsimp only; omega)])
          (beq_eq_false_iff_ne.mpr hstate.2)
      obtain ⟨w, hrest⟩ := ih { s with write := .temp, temp := s.temp ++ [c] } htext
        (by simp only [List.length_append, List.length_singleton]; omega)
      refine ⟨w, ?_⟩
      have hboth := hbyte.append hrest
      rwa [List.append_assoc, List.singleton_append] at hboth

/-! ## The scanner inside a part -/

/-- The scanner in front of a delimiter. -/
def Scan.atLine (multi : Vector (Ptr Multipart) multiPartMaxNum) (n : ℤ) (nf : ℕ) : Scan :=
  { state := .s10, write := .skip, temp := [], k := 0, nameOrFilename := nf, mulNum := n,
    multi := multi }

/-- The scanner inside the part `j`, whose record is `p`. -/
def Scan.inPart (multi : Vector (Ptr Multipart) multiPartMaxNum) (j : Fin multiPartMaxNum)
    (st : State) (w : Write) (temp : List UInt8) (k nf : ℕ) (p : Multipart) : Scan :=
  { state := st, write := w, temp := temp, k := k, nameOrFilename := nf, mulNum := (j : ℕ),
    multi := multi.set j (.obj p) j.isLt }

section
variable {multi : Vector (Ptr Multipart) multiPartMaxNum} {j : Fin multiPartMaxNum}
variable {st : State} {w : Write} {temp : List UInt8} {k nf : ℕ} {p : Multipart}

theorem slot_of_mulNum {s : Scan} (h : s.mulNum = (j : ℕ)) : s.slot = .ok j := by
  unfold Scan.slot
  rw [dif_pos (by rw [h]; exact ⟨by omega, by have := j.isLt; omega⟩)]
  congr 1
  ext
  simp [h]

theorem part_inPart : (Scan.inPart multi j st w temp k nf p).part = .ok p := by
  unfold Scan.part
  rw [slot_of_mulNum rfl, ok_bind]
  simp [Scan.inPart, Ptr.deref]

theorem setPart_inPart (q : Multipart) :
    (Scan.inPart multi j st w temp k nf p).setPart q
      = .ok (Scan.inPart multi j st w temp k nf q) := by
  unfold Scan.setPart
  rw [slot_of_mulNum rfl, ok_bind]
  simp [Scan.inPart]

variable (multi j st w k nf p) in
/-- `strcpy` of `temp` into the record. -/
theorem copyTemp_inPart {off : ℕ} (htext : IsText temp) (hroom : off + temp.length < kvSize) :
    ∃ kv, p.kv.strcpy off temp = .ok kv ∧
      (Scan.inPart multi j st w temp k nf p).copyTemp off
        = .ok (Scan.inPart multi j st w temp k nf { p with kv := kv }) := by
  obtain ⟨kv, hkv⟩ := Block.strcpy_eq_ok (b := p.kv) (Nat.succ_le_of_lt hroom)
  refine ⟨kv, hkv, ?_⟩
  unfold Scan.copyTemp
  rw [part_inPart, ok_bind]
  show (p.kv.strcpy off (cstr temp) >>= _) = _
  rw [htext.cstr_eq, hkv, ok_bind, setPart_inPart]

end

/-! ## Delimiters -/

section
variable (junk) (b : Boundary) (multi : Vector (Ptr Multipart) multiPartMaxNum)

/-- The scanner behind the boundary of a delimiter. -/
def Scan.behindBoundary (n : ℤ) (nf : ℕ) (w : Write) : Scan :=
  { state := .s11, write := w, temp := b.text, k := 0, nameOrFilename := nf, mulNum := n,
    multi := multi }

/-- The scanner behind the first dash of a delimiter. -/
def Scan.behindDash (n : ℤ) (nf : ℕ) : Scan :=
  { state := .s11, write := .skip, temp := [], k := 0, nameOrFilename := nf, mulNum := n,
    multi := multi }

theorem reads_delimiter (n : ℤ) (nf : ℕ) (rest : List UInt8) :
    ∃ w, Reads junk b.text (.atLine multi n nf) (delimiter b) rest
      (.behindBoundary b multi (n + 1) nf w) := by
  obtain ⟨c, hpeek, hc⟩ := b.peek_text rest
  have hfirst : Reads junk b.text (.atLine multi n nf) [Ascii.dash]
      (Ascii.dash :: b.text ++ rest) (.behindDash multi (n + 1) nf) :=
    reads_byte rfl rfl rfl rfl
  have hswitch : (Scan.behindDash multi (n + 1) nf).switch b.text Ascii.dash (b.text ++ rest)
      = .ok (.behindDash multi (n + 1) nf) := by
    simp (disch := decide) [Scan.switch, Scan.behindDash, hpeek, hc]
  have hsecond : Reads junk b.text (.behindDash multi (n + 1) nf) [Ascii.dash]
      (b.text ++ rest) (.behindDash multi (n + 1) nf) := reads_byte hswitch rfl rfl rfl
  have hroom : ([] : List UInt8).length + b.text.length ≤ 1024 := by
    rw [List.length_nil]
    have := b.length_le
    omega
  obtain ⟨w, hboundary⟩ := reads_plain junk b.text (.behindDash multi (n + 1) nf) rest
    (fun c hc => ⟨(b.plain c hc).1, (b.plain c hc).2.1⟩) hroom
  exact ⟨w, hfirst.append (hsecond.append hboundary)⟩

/-- The line end behind a boundary opens a part. -/
theorem reads_open (j : Fin multiPartMaxNum) (nf : ℕ) (w : Write) (rest : List UInt8) :
    Reads junk b.text (.behindBoundary b multi (j : ℕ) nf w) crlf rest
      (.inPart multi j .s20 .skip [] 0 nf ⟨(junk j).kv, [], (junk j).length⟩) := by
  have hswitch : (Scan.behindBoundary b multi (j : ℕ) nf w).switch b.text Ascii.cr
      (Ascii.lf :: rest) = .ok ⟨.s90, .skip, b.text, 0, nf, (j : ℕ), multi⟩ := by
    simp (disch := decide) [Scan.switch, Scan.behindBoundary]
  have hset : Scan.setPart ⟨.s20, .skip, b.text, 0, nf, (j : ℕ), multi⟩
      ⟨(junk j).kv, [], (junk j).length⟩ = .ok ⟨.s20, .skip, b.text, 0, nf, (j : ℕ),
        multi.set j (.obj ⟨(junk j).kv, [], (junk j).length⟩)⟩ := by
    unfold Scan.setPart
    rw [slot_of_mulNum rfl, ok_bind]
  have hopen : Scan.openPart junk ⟨.s90, .skip, b.text, 0, nf, (j : ℕ), multi⟩
      = .ok ⟨.s20, .skip, b.text, 0, nf, (j : ℕ),
        multi.set j (.obj ⟨(junk j).kv, [], (junk j).length⟩)⟩ := by
    unfold Scan.openPart
    rw [if_pos rfl, slot_of_mulNum rfl, ok_bind, hset]
  have hfirst : Reads junk b.text (.behindBoundary b multi (j : ℕ) nf w) [Ascii.cr]
      (Ascii.lf :: rest)
      (.inPart multi j .s20 .skip [] 0 nf ⟨(junk j).kv, [], (junk j).length⟩) := by
    unfold Reads
    rw [List.singleton_append, scanLoop, hswitch, ok_bind,
      if_neg (fun h => h.2 b.isText.cstr_eq), hopen]
    rfl
  exact hfirst.append (reads_byte rfl rfl rfl rfl)

/-- The dashes behind a boundary end the scan. -/
theorem scanLoop_close (n : ℤ) (nf : ℕ) (w : Write) (rest : List UInt8) :
    ∃ s', scanLoop junk b.text (bytes "--" ++ rest) (.behindBoundary b multi n nf w) = .ok s' ∧
      s'.mulNum = n - 1 ∧ s'.multi = multi :=
  ⟨_, rfl, rfl, rfl⟩

end

/-! ## The header of a part -/

section
variable (junk) {b : Boundary} (multi : Vector (Ptr Multipart) multiPartMaxNum)
variable (j : Fin multiPartMaxNum) (nf : ℕ) (p : Multipart)

/-- A text behind which a byte has it copied into the record. -/
theorem reads_copy (st st' : State) (c : UInt8) (off : ℕ) (code : ℕ → ℕ) (text rest : List UInt8)
    (hplain : ∀ c ∈ text, Plain st c) (htext : IsText text) (hroom : off + text.length < kvSize)
    (hswitch : ∀ w, (Scan.inPart multi j st w text 0 nf p).switch b.text c rest
      = (Scan.inPart multi j st .temp text 0 nf p).copyTemp off >>= fun s =>
          .ok { s with write := .skip, state := st', nameOrFilename := code s.nameOrFilename })
    (hopen : (st' == .s90) = false) (hgo : (st' == .s1) = false) :
    ∃ kv, p.kv.strcpy off text = .ok kv ∧
      Reads junk b.text (.inPart multi j st .skip [] 0 nf p) (text ++ [c]) rest
        (.inPart multi j st' .skip [] 0 (code nf) { p with kv := kv }) := by
  have hlen : text.length ≤ 1024 := by
    unfold kvSize at hroom
    omega
  obtain ⟨w, hread⟩ := reads_plain junk b.text (.inPart multi j st .skip [] 0 nf p)
    ([c] ++ rest) hplain
    (by simpa [Scan.inPart] using hlen)
  obtain ⟨kv, hkv, hcopy⟩ := copyTemp_inPart multi j st .temp 0 nf p htext hroom
  have hbyte := hswitch w
  rw [hcopy, ok_bind] at hbyte
  exact ⟨kv, hkv, hread.append (reads_byte hbyte hopen rfl hgo)⟩

/-- `Content-Disposition: form-data; `. -/
theorem reads_formData (rest : List UInt8) :
    ∃ kv, Reads junk b.text (.inPart multi j .s20 .skip [] 0 nf p) formData rest
      (.inPart multi j .s22 .skip [] 0 nf { p with kv := kv }) := by
  obtain ⟨kv₁, -, hkey⟩ := reads_copy junk (b := b) multi j nf p .s20 .s21 Ascii.colon disAt
    id (bytes "Content-Disposition") (bytes " form-data; " ++ rest) (by decide) (by decide)
    (by decide) (fun _ => rfl) rfl rfl
  obtain ⟨kv₂, -, hvalue⟩ := reads_copy junk (b := b) multi j nf { p with kv := kv₁ } .s21 .s22
    Ascii.semicolon (disAt + kvKeySize) id (bytes "form-data") (bytes " " ++ rest) (by decide)
    (by decide) (by decide)
    (fun _ => rfl) rfl rfl
  have hspace₁ : Reads junk b.text (.inPart multi j .s21 .skip [] 0 nf { p with kv := kv₁ })
      (bytes " ") (bytes "form-data; " ++ rest)
      (.inPart multi j .s21 .skip [] 0 nf { p with kv := kv₁ }) :=
    reads_byte rfl rfl rfl rfl
  have hspace₂ : Reads junk b.text (.inPart multi j .s22 .skip [] 0 nf { p with kv := kv₂ })
      (bytes " ") rest (.inPart multi j .s22 .skip [] 0 nf { p with kv := kv₂ }) :=
    reads_byte rfl rfl rfl rfl
  exact ⟨kv₂, hkey.append (hspace₁.append (hvalue.append hspace₂))⟩

/-- The two fields the scanner knows. -/
inductive Field : Type where
  | name : Field
  | filename : Field

/-- The key of a field, where it goes in the record, and its `name_or_filename`. -/
def Field.key : Field → List UInt8
  | .name => bytes "name"
  | .filename => bytes "filename"

@[inherit_doc Field.key] def Field.keyAt : Field → ℕ
  | .name => nameAt
  | .filename => filenameAt

@[inherit_doc Field.key] def Field.code : Field → ℕ
  | .name => 1
  | .filename => 2

/-- At `="` the key is told apart and copied. -/
theorem switch_key (f : Field) (w : Write) (rest : List UInt8) :
    (Scan.inPart multi j .s22 w f.key 0 nf p).switch b.text Ascii.equals (Ascii.quote :: rest)
      = (Scan.inPart multi j .s22 .temp f.key 0 nf p).copyTemp f.keyAt >>= fun s =>
          .ok { s with write := .skip, state := .s235, nameOrFilename := f.code } := by
  cases f with
  | name =>
      show (Scan.copyTemp _ nameAt).map _ >>= _ = _
      rw [map_bind]
      rfl
  | filename =>
      show (Scan.copyTemp _ filenameAt).map _ >>= _ = _
      rw [map_bind]
      rfl

/-- `key="value"` sets the value of the field and nothing in front of its key. -/
theorem reads_quotedField (f : Field) {value : List UInt8} (hvalue : Quotable value)
    (rest : List UInt8) :
    ∃ kv, kv.str (f.keyAt + kvKeySize) = value ∧
      (∀ off, off + (p.kv.str off).length < f.keyAt → kv.str off = p.kv.str off) ∧
      Reads junk b.text (.inPart multi j .s22 .skip [] 0 nf p) (quotedField f.key value) rest
        (.inPart multi j .s24 .skip [] 0 f.code { p with kv := kv }) := by
  obtain ⟨kv₁, hkv₁, hkey⟩ := reads_copy junk (b := b) multi j nf p .s22 .s235 Ascii.equals f.keyAt
    (fun _ => f.code) f.key (Ascii.quote :: (value ++ [Ascii.quote]) ++ rest)
    (by cases f <;> decide) (by cases f <;> decide) (by cases f <;> decide)
    (fun w => switch_key multi j nf p f w _) rfl rfl
  have hquote : Reads junk b.text (.inPart multi j .s235 .skip [] 0 f.code { p with kv := kv₁ })
      [Ascii.quote] (value ++ [Ascii.quote] ++ rest)
      (.inPart multi j .s23 .skip [] 0 f.code { p with kv := kv₁ }) :=
    reads_byte rfl rfl rfl rfl
  have hroom : f.keyAt + kvKeySize + value.length < kvSize := by
    have := hvalue.length_le
    cases f <;> simp only [Field.keyAt, nameAt, filenameAt, kvKeySize, kvSize] <;> omega
  obtain ⟨kv₂, hkv₂, hread⟩ :=
    reads_copy junk (b := b) multi j f.code { p with kv := kv₁ } .s23 .s24
    Ascii.quote (f.keyAt + kvKeySize) id value rest
    hvalue.plain hvalue.text hroom (fun _ => by cases f <;> rfl) rfl rfl
  refine ⟨kv₂, Block.str_strcpy_self hvalue.text hkv₂, fun off hoff => ?_,
    hkey.append (hquote.append hread)⟩
  have hfirst := Block.str_strcpy_below hkv₁ hoff
  rw [Block.str_strcpy_below hkv₂ (by rw [hfirst]; omega), hfirst]

/-- The empty line in front of the data. -/
theorem reads_blank (rest : List UInt8) :
    Reads junk b.text (.inPart multi j .s24 .skip [] 0 nf p) (crlf ++ crlf) rest
      (.inPart multi j .s28 .skip [] 0 nf p) := by
  have hcr : Reads junk b.text (.inPart multi j .s24 .skip [] 0 nf p) [Ascii.cr]
      (Ascii.lf :: crlf ++ rest) (.inPart multi j .s25 .skip [] 0 nf p) :=
    reads_byte rfl rfl rfl rfl
  have hlf : Reads junk b.text (.inPart multi j .s25 .skip [] 0 nf p) [Ascii.lf]
      (crlf ++ rest) (.inPart multi j .s26 .skip [] 0 nf p) :=
    reads_byte rfl rfl rfl rfl
  have hcr' : Reads junk b.text (.inPart multi j .s26 .skip [] 0 nf p) [Ascii.cr]
      (Ascii.lf :: rest) (.inPart multi j .s27 .skip [] 0 nf p) :=
    reads_byte rfl rfl rfl rfl
  have hlf' : Reads junk b.text (.inPart multi j .s27 .skip [] 0 nf p) [Ascii.lf]
      rest (.inPart multi j .s28 .skip [] 0 nf p) :=
    reads_byte rfl rfl rfl rfl
  exact hcr.append (hlf.append (hcr'.append hlf'))

/-- The filename field and the empty line. -/
theorem reads_filename (part : FormPart b) (rest : List UInt8)
    (hroom : nameAt + kvKeySize + (p.kv.str (nameAt + kvKeySize)).length < filenameAt) :
    ∃ kv nf', kv.str (nameAt + kvKeySize) = p.kv.str (nameAt + kvKeySize) ∧
      (∀ value ∈ part.filename, kv.str (filenameAt + kvKeySize) = value) ∧
      Reads junk b.text (.inPart multi j .s24 .skip [] 0 nf p)
        (part.filenameField ++ (crlf ++ crlf)) rest
        (.inPart multi j .s28 .skip [] 0 nf' { p with kv := kv }) := by
  cases hf : part.filename with
  | none =>
      rw [FormPart.filenameField, hf]
      exact ⟨p.kv, nf, rfl, nofun, reads_blank junk multi j nf p rest⟩
  | some value =>
      have hfield : part.filenameField ++ (crlf ++ crlf) = [Ascii.semicolon] ++
          ([Ascii.space] ++ (quotedField Field.filename.key value ++ (crlf ++ crlf))) := by
        rw [FormPart.filenameField, hf]
        rfl
      obtain ⟨kv, hvalue, hkeep, hfile⟩ := reads_quotedField junk (b := b) multi j nf p
        .filename (part.quotable_filename value hf)
        (crlf ++ crlf ++ rest)
      have hsemicolon : Reads junk b.text (.inPart multi j .s24 .skip [] 0 nf p)
          [Ascii.semicolon] ([Ascii.space] ++ (quotedField Field.filename.key value ++
            (crlf ++ crlf)) ++ rest) (.inPart multi j .s22 .skip [] 0 nf p) :=
        reads_byte rfl rfl rfl rfl
      have hspace : Reads junk b.text (.inPart multi j .s22 .skip [] 0 nf p)
          [Ascii.space] (quotedField Field.filename.key value ++ (crlf ++ crlf) ++ rest)
          (.inPart multi j .s22 .skip [] 0 nf p) :=
        reads_byte rfl rfl rfl rfl
      rw [hfield]
      refine ⟨kv, 2, hkeep _ hroom, fun v hv => ?_,
        hsemicolon.append (hspace.append (hfile.append (reads_blank junk multi j _ _ rest)))⟩
      cases hv
      exact hvalue

/-- The header of a part, up to its data. -/
theorem reads_header (part : FormPart b) (rest : List UInt8) :
    ∃ kv nf', kv.str (nameAt + kvKeySize) = part.name ∧
      (∀ value ∈ part.filename, kv.str (filenameAt + kvKeySize) = value) ∧
      Reads junk b.text (.inPart multi j .s20 .skip [] 0 nf p)
        (formData ++ (quotedField (bytes "name") part.name
          ++ (part.filenameField ++ (crlf ++ crlf))))
        rest (.inPart multi j .s28 .skip [] 0 nf' { p with kv := kv }) := by
  obtain ⟨kv₀, hdata⟩ := reads_formData junk (b := b) multi j nf p
    (quotedField Field.name.key part.name ++ (part.filenameField ++ (crlf ++ crlf)) ++ rest)
  obtain ⟨kv₁, hname, -, hfield⟩ := reads_quotedField junk (b := b) multi j nf
    { p with kv := kv₀ } .name part.quotable_name
    (part.filenameField ++ (crlf ++ crlf) ++ rest)
  have hname' : kv₁.str (nameAt + kvKeySize) = part.name := hname
  have hroom : nameAt + kvKeySize + (kv₁.str (nameAt + kvKeySize)).length < filenameAt := by
    have := part.quotable_name.length_le
    rw [hname', nameAt, kvKeySize, filenameAt]
    omega
  obtain ⟨kv₂, nf₂, hkeep, hvalue, hfile⟩ := reads_filename junk multi j 1
    { p with kv := kv₁ } part rest hroom
  exact ⟨kv₂, nf₂, hkeep.trans hname', hvalue, hdata.append (hfield.append hfile)⟩

/-! ## The data of a part -/

/-- A byte of the data is taken for data. -/
theorem switch_data {c : UInt8} {data tail : List UInt8} (h : Undelimited b (c :: data))
    (w : Write) (k : ℕ) :
    (Scan.inPart multi j .s28 w [] k nf p).switch b.text c
        (data ++ (crlf ++ (delimiter b ++ tail)))
      = .ok (.inPart multi j .s28 .data [] k nf p) := by
  by_cases hc : c = Ascii.cr
  · subst hc
    obtain ⟨d, behind, hbehind⟩ : ∃ d behind,
        data ++ (crlf ++ (delimiter b ++ tail)) = d :: behind :=
      List.exists_cons_of_ne_nil (by simp [crlf])
    have hlen := congrArg List.length hbehind
    simp only [List.length_append, List.length_cons, crlf, delimiter, List.length_nil] at hlen
    by_cases hd : d = Ascii.lf
    · subst hd
      have hroom : ¬(behind.drop 2).length < b.text.length := by
        rw [List.length_drop]
        omega
      have hother : cstr ((behind.drop 2).take b.text.length) ≠ b.text := by
        intro heq
        have hpre : b.text <+: behind.drop 2 :=
          heq ▸ (List.takeWhile_prefix _).trans (List.take_prefix _ _)
        obtain ⟨v, hv⟩ := hpre
        exact h.ne_append hbehind hv.symm
      rw [hbehind]
      unfold Scan.switch Scan.inPart
      dsimp only
      rw [pairAt_self, peek_cons, ok_map, ok_bind, if_pos (by decide)]
      simp only [List.drop_succ_cons]
      rw [if_neg hroom, if_neg hother]
    · rw [hbehind]
      simp [Scan.switch, Scan.inPart, hd]
  · simp [Scan.switch, Scan.inPart, hc]

/-- The data is stored byte by byte. -/
theorem reads_data {data : List UInt8} (tail : List UInt8) (h : Undelimited b data) (w : Write)
    (hroom : p.data.length + data.length ≤ multiPartMax) :
    ∃ w', Reads junk b.text (.inPart multi j .s28 w [] p.data.length nf p) data
      (crlf ++ (delimiter b ++ tail))
      (.inPart multi j .s28 w' [] (p.data.length + data.length) nf
        { p with data := p.data ++ data }) := by
  induction data generalizing p w with
  | nil => exact ⟨w, by rw [List.append_nil]; exact .nil _ _⟩
  | cons c data ih =>
      rw [List.length_cons] at hroom
      have hstore : (Scan.inPart multi j .s28 .data [] p.data.length nf p).store c
          = .ok (.inPart multi j .s28 .data [] (p.data ++ [c]).length nf
              { p with data := p.data ++ [c] }) := by
        show (Scan.part _ >>= _) = _
        rw [part_inPart, ok_bind]
        have hk : p.data.length < multiPartMax := by omega
        rw [if_pos (show (Scan.inPart multi j .s28 .data [] p.data.length nf p).k < _ from hk),
          setPart_inPart, ok_bind]
        simp [Scan.inPart, List.drop_eq_nil_of_le]
      have hbyte : Reads junk b.text (.inPart multi j .s28 w [] p.data.length nf p) [c]
          (data ++ (crlf ++ (delimiter b ++ tail)))
          (.inPart multi j .s28 .data [] (p.data ++ [c]).length nf
              { p with data := p.data ++ [c] }) :=
        reads_byte (switch_data multi j nf p h w _) rfl hstore rfl
      obtain ⟨w', hrest⟩ := ih { p with data := p.data ++ [c] } h.tail .data (by
        simp only [List.length_append, List.length_singleton]
        omega)
      refine ⟨w', ?_⟩
      have hboth := hbyte.append hrest
      simp only [List.length_append, List.length_singleton, List.append_assoc,
        List.singleton_append] at hboth
      rw [List.length_cons, Nat.add_comm data.length, ← Nat.add_assoc]
      exact hboth

/-- The line end in front of a delimiter ends the part. -/
theorem reads_close (w : Write) (k : ℕ) (tail : List UInt8) :
    Reads junk b.text (.inPart multi j .s28 w [] k nf p) crlf (delimiter b ++ tail)
      (.atLine (multi.set j (.obj { p with length := k }) j.isLt) (j : ℕ) nf) := by
  have hswitch : (Scan.inPart multi j .s28 w [] k nf p).switch b.text Ascii.cr
      (Ascii.lf :: (delimiter b ++ tail)) = .ok (.inPart multi j .s10 .close [] k nf p) := by
    unfold Scan.switch Scan.inPart
    dsimp only
    rw [pairAt_self, peek_cons, ok_map, ok_bind, if_pos (by decide)]
    simp [delimiter, b.isText.cstr_eq]
  have hstore : (Scan.inPart multi j .s10 .close [] k nf p).store Ascii.cr
      = .ok (.inPart multi j .s10 .skip [] 0 nf { p with length := k }) := by
    show (Scan.part _ >>= _) = _
    rw [part_inPart, ok_bind, setPart_inPart, ok_bind]
    rfl
  have hcr : Reads junk b.text (.inPart multi j .s28 w [] k nf p) [Ascii.cr]
      (Ascii.lf :: (delimiter b ++ tail))
      (.inPart multi j .s10 .skip [] 0 nf { p with length := k }) :=
    reads_byte hswitch rfl hstore rfl
  exact hcr.append (reads_byte rfl rfl rfl rfl)

/-! ## Parts and forms -/

/-- One part goes to its entry of the table. -/
theorem reads_part (part : FormPart b) (hroom : part.data.length ≤ multiPartMax)
    (tail : List UInt8) :
    ∃ p nf', p.Holds part ∧
      Reads junk b.text (.atLine multi ((j : ℕ) - 1) nf) part.render (delimiter b ++ tail)
        (.atLine (multi.set j (.obj p)) (j : ℕ) nf') := by
  have hrender : part.render = delimiter b ++ (crlf ++ ((formData ++
      (quotedField (bytes "name") part.name ++ (part.filenameField ++ (crlf ++ crlf)))) ++
        (part.data ++ crlf))) := by
    simp only [FormPart.render, FormPart.renderHead, List.append_assoc]
  obtain ⟨w, hdelimiter⟩ := reads_delimiter junk b multi ((j : ℕ) - 1) nf
    (crlf ++ ((formData ++ (quotedField (bytes "name") part.name ++
      (part.filenameField ++ (crlf ++ crlf)))) ++ (part.data ++ crlf)) ++ (delimiter b ++ tail))
  rw [sub_add_cancel] at hdelimiter
  have hopen := reads_open junk b multi j nf w
    ((formData ++ (quotedField (bytes "name") part.name ++
      (part.filenameField ++ (crlf ++ crlf)))) ++ (part.data ++ crlf) ++ (delimiter b ++ tail))
  obtain ⟨kv, nf', hname, hfilename, hheader⟩ := reads_header junk multi j nf
    ⟨(junk j).kv, [], (junk j).length⟩ part
    (part.data ++ crlf ++ (delimiter b ++ tail))
  obtain ⟨w', hdata⟩ := reads_data junk multi j nf' ⟨kv, [], (junk j).length⟩ tail
    part.undelimited_data .skip (by simpa using hroom)
  have hclose := reads_close junk (b := b) multi j nf'
    ⟨kv, part.data, (junk j).length⟩ w' part.data.length tail
  rw [List.nil_append, List.length_nil, Nat.zero_add] at hdata
  refine ⟨⟨kv, part.data, part.data.length⟩, nf', ⟨hname, hfilename, rfl, rfl⟩, ?_⟩
  rw [hrender]
  exact hdelimiter.append (hopen.append (hheader.append (hdata.append hclose)))

end

/-- A form starts with a delimiter. -/
theorem exists_renderForm {b : Boundary} (parts : List (FormPart b)) (tail : List UInt8) :
    ∃ front, renderForm parts ++ tail = delimiter b ++ front := by
  cases parts with
  | nil => exact ⟨bytes "--" ++ tail, by simp [renderForm]⟩
  | cons part parts =>
      exact ⟨_, by simp only [renderForm, List.flatMap_cons, FormPart.render,
        FormPart.renderHead, List.append_assoc]; rfl⟩

variable (junk) in
/-- The parts of a form go to the entries from `n` on; the entries before keep theirs. -/
theorem scanLoop_renderForm {b : Boundary} (parts : List (FormPart b))
    (hroom : ∀ part ∈ parts, part.data.length ≤ multiPartMax) {n : ℕ}
    (hn : n + parts.length ≤ multiPartMaxNum)
    (multi : Vector (Ptr Multipart) multiPartMaxNum) (nf : ℕ) (tail : List UInt8) :
    ∃ s, scanLoop junk b.text (renderForm parts ++ tail) (.atLine multi (n - 1) nf) = .ok s ∧
      s.mulNum = n + parts.length - 1 ∧ (∀ i, i < n → s.multi[i]? = multi[i]?) ∧
      ∀ i part, parts[i]? = some part →
        ∃ p : Multipart, s.multi[n + i]? = some (.obj p) ∧ p.Holds part := by
  induction parts generalizing n multi nf with
  | nil =>
      obtain ⟨w, hdelimiter⟩ := reads_delimiter junk b multi (n - 1) nf
        (bytes "--" ++ tail)
      obtain ⟨s, hs, hnum, hmulti⟩ := scanLoop_close junk b multi n nf w tail
      refine ⟨s, ?_, by simp [hnum], fun i _ => by rw [hmulti], fun i part h => by simp at h⟩
      rw [← hs]
      rw [sub_add_cancel] at hdelimiter
      have hform : renderForm ([] : List (FormPart b)) ++ tail
          = delimiter b ++ (bytes "--" ++ tail) := by
        simp [renderForm]
      rw [hform]
      exact hdelimiter
  | cons part parts ih =>
      rw [List.length_cons] at hn
      obtain ⟨hpart, hparts⟩ := List.forall_mem_cons.mp hroom
      have hlt : n < multiPartMaxNum := by omega
      obtain ⟨front, hfront⟩ := exists_renderForm parts tail
      obtain ⟨p, nf', hholds, hread⟩ := reads_part junk multi ⟨n, hlt⟩ nf part hpart front
      obtain ⟨s, hs, hnum, hkeep, hset⟩ := ih hparts (n := n + 1) (by omega)
        (multi.set n (.obj p)) nf'
      have hform : renderForm (part :: parts) ++ tail
          = part.render ++ (renderForm parts ++ tail) := by
        simp [renderForm]
      refine ⟨s, ?_, ?_, fun i hi => ?_, fun i q hq => ?_⟩
      · rw [hform, hfront]
        exact hread.trans (by rw [← hfront]; simpa using hs)
      · rw [hnum, List.length_cons]
        push_cast
        ring
      · rw [hkeep i (by omega), Vector.getElem?_set_ne hlt (Nat.ne_of_gt hi)]
      · cases i with
        | zero =>
            obtain rfl : part = q := by simpa using hq
            refine ⟨p, ?_, hholds⟩
            rw [Nat.add_zero, hkeep n (by omega), Vector.getElem?_set_self hlt]
        | succ i =>
            obtain ⟨p', hp', hq'⟩ := hset i q (by simpa using hq)
            refine ⟨p', ?_, hq'⟩
            rw [show n + (i + 1) = n + 1 + i from by omega]
            exact hp'

end MultiPart

/-- Every part of a form stands in the table, under its number. -/
theorem reqParseMultiPart_renderForm (junk : ℕ → PartJunk) (request : Request) {b : Boundary}
    (parts : List (FormPart b)) (hcount : parts.length ≤ 20)
    (hsize : (renderForm parts).length ≤ 1024 * 1024) (tail : List UInt8)
    (hbody : request.body = .obj (renderForm parts ++ tail)) :
    ∃ request', reqParseMultiPart junk request b.text = .ok request' ∧
      request'.multiPartNum = parts.length - 1 ∧
      ∀ (i : ℕ) (part : FormPart b), parts[i]? = some part →
        ∃ p : Multipart, request'.multi[i]? = some (.obj p) ∧ p.Holds part := by
  have hroom : ∀ part ∈ parts, part.data.length ≤ multiPartMax := by
    intro part hpart
    have hdata : part.data.Sublist part.render :=
      (List.sublist_append_right _ _).trans (List.sublist_append_left _ _)
    have hrender : part.render.Sublist (parts.flatMap FormPart.render) :=
      List.sublist_flatten_of_mem (List.mem_map_of_mem hpart)
    have hform : (parts.flatMap FormPart.render).Sublist (renderForm parts) :=
      (List.sublist_append_left _ _).trans (List.sublist_append_left _ _)
    exact ((hdata.trans hrender).trans hform).length_le.trans hsize
  obtain ⟨s, hs, hnum, -, hset⟩ := MultiPart.scanLoop_renderForm junk parts hroom
    (n := 0) (by simpa [multiPartMaxNum] using hcount) request.multi 0 tail
  refine ⟨{ request with multi := s.multi, multiPartNum := s.mulNum }, ?_, by simp [hnum], ?_⟩
  · rw [reqParseMultiPart_eq junk request b.text _ hbody, show MultiPart.Scan.start request.multi
      = .atLine request.multi (((0 : ℕ) : ℤ) - 1) 0 from rfl, hs]
    rfl
  · intro i part hpart
    simpa using hset i part hpart

/-- Data too short to hold a line end, two bytes and the boundary. -/
theorem undelimited_of_length_lt {b : Boundary} {data : List UInt8}
    (h : data.length < b.text.length + 4) : Undelimited b data := by
  intro front x y rest heq
  have hlen := congrArg List.length heq
  simp only [List.length_append, List.length_cons] at hlen
  omega

/-- A boundary. -/
def sampleBoundary : Boundary := ⟨bytes "XyZ7", by decide, by decide, by decide⟩

/-- A field with an empty value, and a file whose data is a line end and two dashes. -/
def sampleForm : List (FormPart sampleBoundary) :=
  [{ name := bytes "a", filename := none, data := []
     quotable_name := ⟨by decide, by decide, by decide⟩
     quotable_filename := nofun
     undelimited_data := undelimited_of_length_lt (by decide) },
   { name := bytes "f", filename := some (bytes "x.txt"), data := crlf ++ bytes "--"
     quotable_name := ⟨by decide, by decide, by decide⟩
     quotable_filename := fun value hvalue => by
       cases hvalue
       exact ⟨by decide, by decide, by decide⟩
     undelimited_data := undelimited_of_length_lt (by decide) }]

/-- The two parts of a form are read back. -/
theorem reqParseMultiPart_renderForm_sample :
    ∃ request', reqParseMultiPart (fun _ => PartJunk.zero)
        (reqParseInit { RequestMem.zero with
          body := .obj (renderForm sampleForm ++ (crlf ++ [0])) }) sampleBoundary.text
        = .ok request' ∧
      request'.multiPartNum = sampleForm.length - 1 ∧
      ∀ (i : ℕ) (part : FormPart sampleBoundary), sampleForm[i]? = some part →
        ∃ p : Multipart, request'.multi[i]? = some (.obj p) ∧ p.Holds part :=
  reqParseMultiPart_renderForm _ _ sampleForm (by decide) (by decide +kernel) (crlf ++ [0]) rfl
