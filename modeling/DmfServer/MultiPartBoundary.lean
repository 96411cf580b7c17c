/-
# The boundary of a form

The same parts are rendered with two boundaries and scanned.  The scanner reads the dashes in
front of a delimiter, the closing dashes and the boundary in one state, so what it makes of a
boundary depends on the dashes in it (`Reading`): a boundary without a dash is read whole, one
that starts with a dash or has two in a row closes the form, any other one is read from its
last dash on and taken for a foreign line.  Two boundaries give the same parts exactly if they
are read the same way, or there are no parts (`partsParsed_eq_iff`).

The `Content-Type` that announces a boundary is taken as it stands in the map: the block that
the parser copies it to has no room for its NUL (`SpareByte`).
-/
import DmfServer.MultiPartScan

open CMem

/-! ## Boundaries and forms -/

/-- The `bchars`: digits, letters and some punctuation. -/
def isBoundaryChar (c : UInt8) : Bool :=
  48 ≤ c && c ≤ 57 || 65 ≤ c && c ≤ 90 || 97 ≤ c && c ≤ 122 || (bytes "'()+_,-./:=? ").contains c

/-- A boundary as a `Content-Type` may announce it, short enough for `boundary[64]`. -/
structure LegalBoundary where
  text : List UInt8
  ne_nil : text ≠ []
  length_le : text.length ≤ 63
  legal : ∀ c ∈ text, isBoundaryChar c
  last : text.getLast? ≠ some Ascii.space

/-- What the scanner makes of a boundary. -/
inductive Reading : Type where
  /-- It is read whole. -/
  | whole : Reading
  /-- Its dashes are taken for the closing ones. -/
  | closing : Reading
  /-- Only what follows its last dash is compared. -/
  | cut : Reading
  deriving DecidableEq

/-- How a boundary is read: its dashes decide, with the dash that stands in front of it. -/
def LegalBoundary.reading (b : LegalBoundary) : Reading :=
  if Ascii.dash ∉ b.text then .whole
  else if [Ascii.dash, Ascii.dash] <:+: Ascii.dash :: b.text then .closing
  else .cut

/-- One part of a form; its texts have no quote, as a quoted field needs it. -/
structure FormItem where
  name : List UInt8
  filename : Option (List UInt8)
  data : List UInt8
  quoted_name : Ascii.quote ∉ name
  quoted_filename : ∀ value ∈ filename, Ascii.quote ∉ value

namespace FormItem

/-- The fields of the header, up to the empty line. -/
def fields (item : FormItem) : List UInt8 :=
  quotedField (bytes "name") item.name ++
    match item.filename with
    | none => []
    | some value => bytes "; " ++ quotedField (bytes "filename") value

/-- A part in a form with the boundary `boundary`. -/
def render (boundary : List UInt8) (item : FormItem) : List UInt8 :=
  bytes "--" ++ boundary ++ crlf ++ formData ++ item.fields ++ crlf ++ crlf ++ item.data ++ crlf

end FormItem

/-- A form with the boundary `boundary`: its parts and the closing delimiter. -/
def renderItems (boundary : List UInt8) (items : List FormItem) : List UInt8 :=
  items.flatMap (FormItem.render boundary) ++ bytes "--" ++ boundary ++ bytes "--"

/-- The parts of a form as the request gets them, with the boundary out of its `Content-Type`: the
counter and the table. -/
def partsParsed (junk : ℕ → PartJunk) (request : Request) (b : LegalBoundary)
    (items : List FormItem) (tail : List UInt8) :
    Except Fault (ℤ × Vector (Ptr Multipart) multiPartMaxNum) := do
  let boundary ← boundaryOf (bytes "multipart/form-data; boundary=" ++ b.text)
  let request ← reqParseMultiPart junk
    { request with
      body := .obj (renderItems b.text items ++ tail), multi := Vector.replicate _ .null } boundary
  .ok (request.multiPartNum, request.multi)

namespace LegalBoundary

variable (b : LegalBoundary)

theorem plain {c : UInt8} (h : c ∈ b.text) : c ≠ 0 ∧ c ≠ Ascii.cr ∧ c ≠ Ascii.lf := by
  have hlegal := b.legal c h
  refine ⟨?_, ?_, ?_⟩ <;> rintro rfl <;> revert hlegal <;> decide

theorem isText : IsText b.text := fun h => (b.plain h).1 rfl

/-- A delimiter line has no line end inside. -/
theorem cr_not_mem : Ascii.cr ∉ Ascii.dash :: b.text := by
  rw [List.mem_cons, not_or]
  exact ⟨by decide, fun h => (b.plain h).2.1 rfl⟩

/-- A boundary that is read whole has no dash. -/
theorem reading_eq_whole : b.reading = .whole ↔ Ascii.dash ∉ b.text := by
  unfold reading
  split_ifs <;> simp_all

theorem reading_eq_closing : b.reading = .closing ↔
    Ascii.dash ∈ b.text ∧ [Ascii.dash, Ascii.dash] <:+: Ascii.dash :: b.text := by
  unfold reading
  split_ifs <;> simp_all

theorem reading_eq_cut : b.reading = .cut ↔
    Ascii.dash ∈ b.text ∧ ¬[Ascii.dash, Ascii.dash] <:+: Ascii.dash :: b.text := by
  unfold reading
  split_ifs <;> simp_all

/-- A boundary that is read whole has nothing in it that the scanner acts on. -/
def toBoundary (hb : b.reading = .whole) : Boundary where
  text := b.text
  ne_nil := b.ne_nil
  length_le := b.length_le
  plain := fun _ hc => ⟨fun h => b.reading_eq_whole.mp hb (h ▸ hc), (b.plain hc).2.1,
    (b.plain hc).2.2, (b.plain hc).1⟩

end LegalBoundary

namespace MultiPart

variable {junk : ℕ → PartJunk} {boundary : List UInt8}

/-! ## How a boundary is read -/

/-- What is collected is left of what was passed. -/
theorem exists_collect (st : State) (text temp : List UInt8)
    (hroom : temp.length + text.length ≤ 1024) :
    ∃ temp', text.foldlM (collect st) temp = .ok temp' ∧
      ∀ c ∈ temp', c ∈ temp ∨ c ∈ text ∧ clears st c = false := by
  induction text generalizing temp with
  | nil => exact ⟨temp, rfl, fun _ hc => Or.inl hc⟩
  | cons c text ih =>
      rw [List.length_cons] at hroom
      rw [List.foldlM_cons]
      unfold collect
      by_cases hclear : clears st c
      · obtain ⟨temp', hcollect, hleft⟩ := ih [] (by rw [List.length_nil]; omega)
        refine ⟨temp', by rw [if_pos hclear]; exact hcollect, fun d hd => ?_⟩
        obtain h | ⟨h, hkeep⟩ := hleft d hd
        · exact absurd h List.not_mem_nil
        · exact Or.inr ⟨List.mem_cons_of_mem c h, hkeep⟩
      · obtain ⟨temp', hcollect, hleft⟩ := ih (temp ++ [c])
          (by rw [List.length_append, List.length_singleton]; omega)
        refine ⟨temp', by rw [if_neg hclear, if_pos (by omega)]; exact hcollect, fun d hd => ?_⟩
        obtain h | ⟨h, hkeep⟩ := hleft d hd
        · obtain h | h := List.mem_append.mp h
          · exact Or.inl h
          · obtain rfl := List.mem_singleton.mp h
            exact Or.inr ⟨List.mem_cons_self, by simpa using hclear⟩
        · exact Or.inr ⟨List.mem_cons_of_mem c h, hkeep⟩

/-- A text that clears nothing is collected as it is. -/
theorem collect_plain {st : State} {text temp : List UInt8}
    (hplain : ∀ c ∈ text, clears st c = false) (hroom : temp.length + text.length ≤ 1024) :
    text.foldlM (collect st) temp = .ok (temp ++ text) := by
  induction text generalizing temp with
  | nil => rw [List.append_nil]; rfl
  | cons c text ih =>
      obtain ⟨hc, htext⟩ := List.forall_mem_cons.mp hplain
      rw [List.length_cons] at hroom
      rw [List.foldlM_cons, collect, if_neg (by simp [hc]), if_pos (by omega), ok_bind,
        ih htext (by rw [List.length_append, List.length_singleton]; omega), List.append_assoc,
        List.singleton_append]

/-- The markers of a delimiter line. -/
theorem marked_line {mem : List UInt8} : Marked .s11 mem ↔
    (∃ rest, mem = Ascii.cr :: Ascii.lf :: rest) ∨
      ∃ rest, mem = Ascii.dash :: Ascii.dash :: rest := by
  unfold Marked markers
  simp only [List.mem_cons, List.not_mem_nil, or_false, exists_eq_or_imp, exists_eq_left]
  constructor
  · rintro (⟨rest, rfl⟩ | ⟨rest, rfl⟩)
    · exact Or.inl ⟨rest, rfl⟩
    · exact Or.inr ⟨rest, rfl⟩
  · rintro (⟨rest, rfl⟩ | ⟨rest, rfl⟩)
    · exact Or.inl ⟨rest, rfl⟩
    · exact Or.inr ⟨rest, rfl⟩

/-- Where no two dashes stand together, the line goes up to its line end. -/
theorem firstAt_line {text : List UInt8} (hcr : Ascii.cr ∉ text)
    (hdashes : ¬[Ascii.dash, Ascii.dash] <:+: text) (tail : List UInt8) :
    FirstAt (Marked .s11) text (Ascii.cr :: Ascii.lf :: tail) := by
  refine ⟨marked_line.mpr (Or.inl ⟨tail, rfl⟩), fun back hback hsuffix hmarked => ?_⟩
  obtain ⟨c, back, rfl⟩ := List.exists_cons_of_ne_nil hback
  obtain ⟨rest, hmem⟩ | ⟨rest, hmem⟩ := marked_line.mp hmarked
  · obtain ⟨rfl, -⟩ := List.cons.inj hmem
    exact hcr (hsuffix.subset List.mem_cons_self)
  · obtain ⟨rfl, hnext⟩ := List.cons.inj hmem
    cases back with
    | nil => exact absurd (List.cons.inj hnext).1 (by decide)
    | cons d back =>
        obtain ⟨rfl, -⟩ := List.cons.inj hnext
        exact hdashes (List.IsInfix.trans ⟨[], back, rfl⟩ hsuffix.isInfix)

section
variable (junk boundary) (multi : Vector (Ptr Multipart) multiPartMaxNum) (n : ℤ) (nf : ℕ)

/-- Two dashes on the line, with no line end in front of them, end the scan. -/
theorem scanLoop_dashesAhead {front : List UInt8} (hcr : Ascii.cr ∉ front) {temp : List UInt8}
    (hroom : temp.length + front.length ≤ 1024) (w : Write) (tail : List UInt8) :
    scanLoop junk boundary (front ++ Ascii.dash :: Ascii.dash :: tail) (.onLine multi n nf w temp)
      = .ok ⟨.s1, .skip, [], 0, nf, n - 1, multi⟩ := by
  induction front generalizing temp w with
  | nil => exact scanLoop_closing multi n nf w temp tail
  | cons c front ih =>
      rw [List.mem_cons, not_or] at hcr
      rw [List.length_cons] at hroom
      have hlooks : Scan.Looks (.onLine multi n nf w temp) :=
        ⟨List.cons_ne_nil _ _, fun h => h.elim nofun nofun⟩
      by_cases hmarked : Marked .s11 (c :: (front ++ Ascii.dash :: Ascii.dash :: tail))
      · obtain ⟨rest, hmem⟩ | ⟨rest, hmem⟩ := marked_line.mp hmarked
        · exact absurd (List.cons.inj hmem).1.symm hcr.1
        · rw [List.cons_append, hmem]
          exact scanLoop_closing multi n nf w temp rest
      · rw [List.cons_append, scanLoop_of_switch hlooks (switch_unmarked hlooks (by simp) hmarked)]
        obtain ⟨temp', hcollect, hlen⟩ : ∃ temp', collect .s11 temp c = .ok temp' ∧
            temp'.length ≤ temp.length + 1 := by
          unfold collect
          split_ifs
          · exact ⟨[], rfl, Nat.zero_le _⟩
          · exact ⟨temp ++ [c], rfl, by rw [List.length_append, List.length_singleton]⟩
          · omega
        rw [show collect (Scan.onLine multi n nf w temp).state
          (Scan.onLine multi n nf w temp).temp c = .ok temp' from hcollect, ok_bind]
        exact ih hcr.2 (by omega) _

/-- A dash is left out of what is collected, so a boundary with a dash is a foreign line. -/
theorem scanLoop_cut {b : LegalBoundary} (hb : b.reading = .cut) (tail : List UInt8) :
    ∃ temp, scanLoop junk b.text (Ascii.dash :: (b.text ++ Ascii.cr :: Ascii.lf :: tail))
        (.onLine multi n nf .skip []) = .ok ⟨.s90, .skip, temp, 0, nf, n, multi⟩ := by
  obtain ⟨hdash, hapart⟩ := b.reading_eq_cut.mp hb
  obtain ⟨w, -, hloop⟩ := scanLoop_firstAt junk b.text (s := .onLine multi n nf .skip [])
    ⟨List.cons_ne_nil _ _, fun _ => rfl⟩ (firstAt_line b.cr_not_mem hapart tail)
  obtain ⟨temp, hcollect, hleft⟩ := exists_collect .s11 (Ascii.dash :: b.text) []
    (by have := b.length_le; simp only [List.length_nil, List.length_cons]; omega)
  refine ⟨temp, ?_⟩
  have hother : cstr temp ≠ b.text := by
    intro h
    have hmem : Ascii.dash ∈ temp := (List.takeWhile_prefix _).subset (h ▸ hdash)
    obtain h | ⟨-, h⟩ := hleft _ hmem
    · exact absurd h List.not_mem_nil
    · exact absurd h (by decide)
  rw [← List.cons_append, hloop]
  rw [show List.foldlM (collect (Scan.onLine multi n nf .skip []).state)
    (Scan.onLine multi n nf .skip []).temp (Ascii.dash :: b.text) = .ok temp from hcollect, ok_bind]
  exact scanLoop_foreign multi n nf hother w tail

/-- A boundary without a dash is the line. -/
theorem scanLoop_whole {b : LegalBoundary} (hb : b.reading = .whole) (tail : List UInt8) :
    ∃ w, scanLoop junk b.text (Ascii.dash :: (b.text ++ Ascii.cr :: Ascii.lf :: tail))
        (.onLine multi n nf .skip [])
      = scanLoop junk b.text (Ascii.cr :: Ascii.lf :: tail) (.onLine multi n nf w b.text) := by
  have hdash := b.reading_eq_whole.mp hb
  have hapart : ¬[Ascii.dash, Ascii.dash] <:+: Ascii.dash :: b.text := by
    rintro ⟨front, back, h⟩
    apply hdash
    cases front with
    | nil =>
        rw [← (List.cons.inj h).2]
        exact List.mem_cons_self
    | cons c front =>
        rw [← (List.cons.inj h).2]
        simp
  obtain ⟨w, -, hloop⟩ := scanLoop_firstAt junk b.text (s := .onLine multi n nf .skip [])
    ⟨List.cons_ne_nil _ _, fun _ => rfl⟩ (firstAt_line b.cr_not_mem hapart tail)
  refine ⟨w, ?_⟩
  have hcollect : List.foldlM (collect .s11) [] (Ascii.dash :: b.text) = .ok b.text := by
    have hplain : ∀ c ∈ b.text, clears .s11 c = false := by
      intro c hc
      apply beq_eq_false_iff_ne.mpr
      rintro rfl
      exact hdash hc
    have hroom : ([] : List UInt8).length + b.text.length ≤ 1024 := by
      have := b.length_le
      rw [List.length_nil]
      omega
    rw [List.foldlM_cons, show collect .s11 [] Ascii.dash = .ok [] from rfl, ok_bind,
      collect_plain hplain hroom, List.nil_append]
  rw [← List.cons_append, hloop]
  rw [show List.foldlM (collect (Scan.onLine multi n nf .skip []).state)
    (Scan.onLine multi n nf .skip []).temp (Ascii.dash :: b.text) = .ok b.text from hcollect,
    ok_bind]
  rfl

end

/-! ## What a header leaves in the record -/

/-- No byte of the text starts a marker. -/
theorem firstAt_plain {st : State} {text rest : List UInt8} (hhere : Marked st rest)
    (hplain : ∀ c ∈ text, ∀ marker ∈ markers st, marker.head?.any (· != c)) :
    FirstAt (Marked st) text rest := by
  refine ⟨hhere, fun back hback hsuffix hmarked => ?_⟩
  obtain ⟨c, back, rfl⟩ := List.exists_cons_of_ne_nil hback
  obtain ⟨marker, hmarker, hstart⟩ := hmarked
  have hne := hplain c (hsuffix.subset List.mem_cons_self) marker hmarker
  cases marker with
  | nil => cases hne
  | cons d marker =>
      rw [List.cons_append, List.cons_prefix_cons] at hstart
      simp [hstart.1] at hne

/-- What `Content-Disposition: form-data;` leaves in the record. -/
def recordDisposition (kv : Block kvSize) : Except Fault (Block kvSize) := do
  let kv ← kv.strcpy disAt (bytes "Content-Disposition")
  kv.strcpy (disAt + kvKeySize) (bytes "form-data")

/-- What a field leaves in the record. -/
def recordField (f : Field) (kv : Block kvSize) (value : List UInt8) :
    Except Fault (Block kvSize) := do
  let kv ← copyKey kv f.key
  let temp ← value.foldlM (collect .s23) []
  copyValue f.code kv temp

/-- What the header of a part leaves in the record and in `name_or_filename`. -/
def recordHeader (item : FormItem) (kv : Block kvSize) : Except Fault (Block kvSize × ℕ) := do
  let kv ← recordDisposition kv
  let kv ← recordField .name kv item.name
  match item.filename with
  | none => .ok (kv, Field.name.code)
  | some value =>
      let kv ← recordField .filename kv value
      .ok (kv, Field.filename.code)

section
variable (junk boundary) (multi : Vector (Ptr Multipart) multiPartMaxNum)
variable (j : Fin multiPartMaxNum) (nf : ℕ) (p : Multipart)

/-- Inside a part, a text that starts no marker is collected. -/
theorem scanLoop_plain (st : State) (hst : markers st ≠ []) (text rest : List UInt8)
    (hhere : Marked st rest)
    (hplain : ∀ c ∈ text, ∀ marker ∈ markers st, marker.head?.any (· != c)) :
    ∃ w, scanLoop junk boundary (text ++ rest) (.inPart multi j st .skip [] 0 nf p)
      = text.foldlM (collect st) [] >>= fun temp =>
          scanLoop junk boundary rest (.inPart multi j st w temp 0 nf p) := by
  have hfirst : FirstAt (Marked (Scan.inPart multi j st .skip [] 0 nf p).state) text rest :=
    firstAt_plain hhere hplain
  obtain ⟨w, -, hloop⟩ := scanLoop_firstAt junk boundary (s := .inPart multi j st .skip [] 0 nf p)
    ⟨hst, fun _ => rfl⟩ hfirst
  exact ⟨w, hloop⟩

theorem scanLoop_disposition (rest : List UInt8) :
    scanLoop junk boundary (Ascii.lf :: (formData ++ rest)) (.inPart multi j .s20 .skip [] 0 nf p)
      = recordDisposition p.kv >>= fun kv =>
          scanLoop junk boundary rest (.inPart multi j .s22 .skip [] 0 nf { p with kv := kv }) := by
  have hform : formData = bytes "Content-Disposition" ++
      Ascii.colon :: (bytes " form-data" ++ [Ascii.semicolon, Ascii.space]) := by decide
  have hsplit : Ascii.lf :: (formData ++ rest) = (Ascii.lf :: bytes "Content-Disposition") ++
      Ascii.colon :: (bytes " form-data" ++ Ascii.semicolon :: Ascii.space :: rest) := by
    rw [hform]
    simp only [List.cons_append, List.append_assoc, List.nil_append]
  have hcollect : (Ascii.lf :: bytes "Content-Disposition").foldlM (collect .s20) []
      = .ok (bytes "Content-Disposition") := by rfl
  have hcollect' : (bytes " form-data").foldlM (collect .s21) [] = .ok (bytes "form-data") := by rfl
  have hkeyText : cstr (bytes "Content-Disposition") = bytes "Content-Disposition" :=
    IsText.cstr_eq (by decide)
  have hvalueText : cstr (bytes "form-data") = bytes "form-data" := IsText.cstr_eq (by decide)
  obtain ⟨w, hkey⟩ := scanLoop_plain junk boundary multi j nf p .s20 (List.cons_ne_nil _ _)
    (Ascii.lf :: bytes "Content-Disposition")
    (Ascii.colon :: (bytes " form-data" ++ Ascii.semicolon :: Ascii.space :: rest))
    ⟨[Ascii.colon], List.mem_cons_self, _, rfl⟩ (by decide)
  rw [hsplit, hkey, hcollect, ok_bind, scanLoop_colon, hkeyText, recordDisposition, bind_assoc]
  apply bind_congr
  intro kv
  obtain ⟨w', hvalue⟩ := scanLoop_plain junk boundary multi j nf { p with kv := kv } .s21
    (List.cons_ne_nil _ _) (bytes " form-data") (Ascii.semicolon :: Ascii.space :: rest)
    ⟨[Ascii.semicolon], List.mem_cons_self, _, rfl⟩ (by decide)
  rw [hvalue, hcollect', ok_bind, scanLoop_semicolon, hvalueText]
  apply bind_congr
  intro kv'
  exact reads_byte (c := Ascii.space) rfl rfl rfl rfl

theorem scanLoop_quotedField (f : Field) {value : List UInt8} (hvalue : Ascii.quote ∉ value)
    (rest : List UInt8) :
    scanLoop junk boundary (quotedField f.key value ++ rest) (.inPart multi j .s22 .skip [] 0 nf p)
      = recordField f p.kv value >>= fun kv => scanLoop junk boundary rest
          (.inPart multi j .s24 .skip [] 0 f.code { p with kv := kv }) := by
  have hsplit : quotedField f.key value ++ rest
      = f.key ++ Ascii.equals :: Ascii.quote :: (value ++ Ascii.quote :: rest) := by
    simp [quotedField]
  have hcollect : f.key.foldlM (collect .s22) [] = .ok f.key := by cases f <;> rfl
  have hcode : keyCode nf f.key = f.code := by cases f <;> rfl
  have hplain : ∀ c ∈ value, ∀ marker ∈ markers .s23, marker.head?.any (· != c) := by
    intro c hc marker hmarker
    obtain rfl := List.mem_singleton.mp hmarker
    simpa using fun h : Ascii.quote = c => hvalue (h ▸ hc)
  obtain ⟨w, hkey⟩ := scanLoop_plain junk boundary multi j nf p .s22 (List.cons_ne_nil _ _) f.key
    (Ascii.equals :: Ascii.quote :: (value ++ Ascii.quote :: rest))
    ⟨[Ascii.equals, Ascii.quote], List.mem_cons_self, _, rfl⟩ (by cases f <;> decide)
  rw [hsplit, hkey, hcollect, ok_bind, scanLoop_equals, hcode, recordField, bind_assoc]
  apply bind_congr
  intro kv
  obtain ⟨w', hloop⟩ := scanLoop_plain junk boundary multi j f.code { p with kv := kv } .s23
    (List.cons_ne_nil _ _) value (Ascii.quote :: rest)
    ⟨[Ascii.quote], List.mem_cons_self, _, rfl⟩ hplain
  rw [hloop, bind_assoc]
  exact bind_congr fun temp => scanLoop_quote multi j f.code { p with kv := kv } w' temp rest

/-- The header of a part leaves the same in the record whatever the boundary is. -/
theorem scanLoop_header (item : FormItem) (rest : List UInt8) :
    scanLoop junk boundary (Ascii.lf :: (formData ++ (item.fields ++ (crlf ++ crlf ++ rest))))
        (.inPart multi j .s20 .skip [] 0 nf p)
      = recordHeader item p.kv >>= fun r => scanLoop junk boundary rest
          (.inPart multi j .s28 .skip [] 0 r.2 { p with kv := r.1 }) := by
  have hname : bytes "name" = Field.name.key := rfl
  unfold FormItem.fields recordHeader
  rw [scanLoop_disposition, List.append_assoc, hname, bind_assoc]
  apply bind_congr
  intro kv
  rw [scanLoop_quotedField junk boundary multi j nf _ .name item.quoted_name, bind_assoc]
  apply bind_congr
  intro kv'
  cases hfilename : item.filename with
  | none => exact scanLoop_blank multi j _ _ [] Ascii.cr Ascii.lf rest
  | some value =>
      have hsemicolon : bytes "; " ++ quotedField (bytes "filename") value ++ (crlf ++ crlf ++ rest)
          = Ascii.semicolon :: Ascii.space ::
            (quotedField Field.filename.key value ++ (crlf ++ crlf ++ rest)) := rfl
      have hspace : scanLoop junk boundary (Ascii.space ::
            (quotedField Field.filename.key value ++ (crlf ++ crlf ++ rest)))
            (.inPart multi j .s22 .skip [] 0 Field.name.code { p with kv := kv' })
          = scanLoop junk boundary (quotedField Field.filename.key value ++ (crlf ++ crlf ++ rest))
            (.inPart multi j .s22 .skip [] 0 Field.name.code { p with kv := kv' }) :=
        reads_byte (c := Ascii.space) rfl rfl rfl rfl
      dsimp only
      rw [hsemicolon, scanLoop_more, hspace, scanLoop_quotedField junk boundary multi j _ _
        .filename (item.quoted_filename value hfilename), bind_assoc]
      apply bind_congr
      intro kv''
      exact scanLoop_blank multi j _ _ [] Ascii.cr Ascii.lf rest

end

/-! ## Forms with a boundary that is read whole -/

/-- The data ends where it does, at the line end in front of the delimiter. -/
theorem firstAt_delimiter {b : Boundary} {data : List UInt8} (h : Undelimited b data)
    (tail : List UInt8) :
    FirstAt (Delimited b.text) data (Ascii.cr :: Ascii.lf :: (delimiter b ++ tail)) := by
  refine ⟨⟨⟨_, rfl⟩, List.prefix_append b.text tail⟩, fun back hback hsuffix hdelimited => ?_⟩
  obtain ⟨front, rfl⟩ := hsuffix
  have hrest : Undelimited b back := fun front' x y rest heq =>
    h (front ++ front') x y rest (by rw [heq, List.append_assoc])
  obtain ⟨c, back, rfl⟩ := List.exists_cons_of_ne_nil hback
  obtain ⟨⟨behind, hbehind⟩, ⟨v, hv⟩⟩ := hdelimited
  obtain ⟨rfl, hlf⟩ := List.cons.inj hbehind
  rw [← hbehind] at hv
  exact hrest.ne_append hlf.symm hv.symm

/-- What a part makes of the scanner in front of its delimiter, if it has an entry and room. -/
def scanItem (junk : ℕ → PartJunk) (item : FormItem)
    (multi : Vector (Ptr Multipart) multiPartMaxNum) (n : ℕ) : Except Fault Scan :=
  if h : n < multiPartMaxNum then do
    let r ← recordHeader item (junk n).kv
    if item.data.length ≤ multiPartMax then
      .ok (.atLine (multi.set n (.obj ⟨r.1, item.data, item.data.length⟩)) n r.2)
    else .error .write
  else .error .read

/-- A part is scanned the same with every boundary that is read whole and is not in its data. -/
theorem scanLoop_item (junk : ℕ → PartJunk) {b : LegalBoundary} (hb : b.reading = .whole)
    {item : FormItem} (hdata : ¬b.text <:+: item.data)
    (multi : Vector (Ptr Multipart) multiPartMaxNum) (n nf : ℕ) (tail : List UInt8) :
    scanLoop junk b.text (item.render b.text ++ (bytes "--" ++ (b.text ++ tail)))
        (.atLine multi (n - 1) nf)
      = scanItem junk item multi n >>=
          scanLoop junk b.text (bytes "--" ++ (b.text ++ tail)) := by
  have hsplit : item.render b.text ++ (bytes "--" ++ (b.text ++ tail))
      = Ascii.dash :: Ascii.dash :: (b.text ++ Ascii.cr :: Ascii.lf :: (formData ++ (item.fields ++
          (crlf ++ crlf ++ (item.data ++ Ascii.cr :: Ascii.lf ::
            (bytes "--" ++ (b.text ++ tail))))))) := by
    simp [FormItem.render, crlf, bytes]
  obtain ⟨w, hline⟩ := scanLoop_whole junk multi n nf hb (formData ++ (item.fields ++
    (crlf ++ crlf ++ (item.data ++ Ascii.cr :: Ascii.lf :: (bytes "--" ++ (b.text ++ tail))))))
  have hdashes := scanLoop_dashes junk b.text multi (n - 1) nf []
    (b.text ++ Ascii.cr :: Ascii.lf :: (formData ++ (item.fields ++
    (crlf ++ crlf ++ (item.data ++ Ascii.cr :: Ascii.lf :: (bytes "--" ++ (b.text ++ tail)))))))
  rw [sub_add_cancel, hline, scanLoop_opening multi nf b.isText.cstr_eq] at hdashes
  rw [hsplit]
  refine hdashes.trans ?_
  unfold scanItem
  by_cases hroom : n < multiPartMaxNum
  · rw [dif_pos hroom, dif_pos hroom, scanLoop_header, bind_assoc]
    apply bind_congr
    intro r
    have hfree : Undelimited (b.toBoundary hb) item.data := by
      intro front x y rest heq
      refine hdata ⟨front ++ [Ascii.cr, Ascii.lf, x, y], rest, ?_⟩
      rw [heq]
      simp [LegalBoundary.toBoundary]
    have hmarks : bytes "--" = [Ascii.dash, Ascii.dash] := by decide
    have hfirst : FirstAt (Delimited b.text) item.data
        (Ascii.cr :: Ascii.lf :: (bytes "--" ++ (b.text ++ tail))) := by
      rw [hmarks]
      exact firstAt_delimiter hfree tail
    obtain ⟨w', hloop⟩ := scanLoop_data junk multi ⟨n, hroom⟩ r.2 ⟨r.1, [], (junk n).length⟩
      b.isText hfirst (Nat.zero_le _) .skip
    rw [List.length_nil, Nat.zero_add, List.nil_append] at hloop
    refine hloop.trans ?_
    by_cases hsize : item.data.length ≤ multiPartMax
    · rw [if_pos hsize, if_pos hsize, ok_bind]
      refine (scanLoop_delimited junk multi ⟨n, hroom⟩ r.2 ⟨r.1, item.data, _⟩ b.isText
        hfirst.here w' item.data.length).trans ?_
      exact reads_byte (c := Ascii.lf) rfl rfl rfl rfl
    · rw [if_neg hsize, if_neg hsize]
      rfl
  · rw [dif_neg hroom, dif_neg hroom]
    rfl

theorem scanItem_eq_ok {junk : ℕ → PartJunk} {item : FormItem}
    {multi : Vector (Ptr Multipart) multiPartMaxNum} {n : ℕ} {s : Scan}
    (h : scanItem junk item multi n = .ok s) :
    ∃ (hn : n < multiPartMaxNum) (part : Multipart) (nf : ℕ),
      s = .atLine (multi.set n (.obj part) hn) n nf := by
  unfold scanItem at h
  split at h
  case isFalse => cases h
  case isTrue hn =>
    obtain ⟨r, -, h⟩ := exists_of_bind h
    split at h
    · cases h
      exact ⟨hn, _, r.2, rfl⟩
    · cases h

theorem renderItems_cons (boundary : List UInt8) (item : FormItem) (items : List FormItem)
    (tail : List UInt8) :
    renderItems boundary (item :: items) ++ tail
      = item.render boundary ++ (renderItems boundary items ++ tail) := by
  simp [renderItems]

/-- A form starts with a delimiter. -/
theorem exists_renderItems (boundary : List UInt8) (items : List FormItem) (tail : List UInt8) :
    ∃ behind, renderItems boundary items ++ tail = bytes "--" ++ (boundary ++ behind) := by
  cases items with
  | nil => exact ⟨bytes "--" ++ tail, by simp [renderItems]⟩
  | cons item items =>
      exact ⟨_, by
        simp only [renderItems, List.flatMap_cons, FormItem.render, List.append_assoc]; rfl⟩

section
variable (junk boundary) (multi : Vector (Ptr Multipart) multiPartMaxNum) (n : ℤ) (nf : ℕ)

/-- Dashes behind the boundary end the scan, if none have done so before. -/
theorem scanLoop_closingLine (b : LegalBoundary) (tail : List UInt8) :
    scanLoop junk boundary (bytes "--" ++ (b.text ++ (bytes "--" ++ tail))) (.atLine multi n nf)
      = .ok ⟨.s1, .skip, [], 0, nf, n, multi⟩ := by
  have hroom : ([] : List UInt8).length + (Ascii.dash :: b.text).length ≤ 1024 := by
    have := b.length_le
    simp only [List.length_nil, List.length_cons]
    omega
  have hline := scanLoop_dashesAhead junk boundary multi (n + 1) nf b.cr_not_mem hroom .skip tail
  rw [add_sub_cancel_right] at hline
  exact (scanLoop_dashes junk boundary multi n nf [] _).trans hline

/-- Dashes inside the boundary end the scan. -/
theorem scanLoop_closingReading {b : LegalBoundary} (hb : b.reading = .closing)
    (tail : List UInt8) :
    scanLoop junk boundary (bytes "--" ++ (b.text ++ tail)) (.atLine multi n nf)
      = .ok ⟨.s1, .skip, [], 0, nf, n, multi⟩ := by
  obtain ⟨-, front, back, hsplit⟩ := b.reading_eq_closing.mp hb
  have hsub : front ⊆ Ascii.dash :: b.text := by
    rw [← hsplit, List.append_assoc]
    exact List.subset_append_left _ _
  have hcr : Ascii.cr ∉ front := fun h => b.cr_not_mem (hsub h)
  have hroom : ([] : List UInt8).length + front.length ≤ 1024 := by
    have hlen := congrArg List.length hsplit
    have := b.length_le
    simp only [List.length_append, List.length_cons, List.length_nil] at hlen ⊢
    omega
  have hline := scanLoop_dashesAhead junk boundary multi (n + 1) nf hcr hroom .skip (back ++ tail)
  have hmem : front ++ Ascii.dash :: Ascii.dash :: (back ++ tail)
      = Ascii.dash :: (b.text ++ tail) := by
    have happend := congrArg (· ++ tail) hsplit
    simpa using happend
  rw [add_sub_cancel_right, hmem] at hline
  exact (scanLoop_dashes junk boundary multi n nf [] _).trans hline

end

/-- Two boundaries that are read whole give the same, for any parts without them in their data. -/
theorem scanLoop_items_eq (junk : ℕ → PartJunk) {b₁ b₂ : LegalBoundary} (h₁ : b₁.reading = .whole)
    (h₂ : b₂.reading = .whole) {items : List FormItem}
    (hdata : ∀ item ∈ items, ¬b₁.text <:+: item.data ∧ ¬b₂.text <:+: item.data)
    (multi : Vector (Ptr Multipart) multiPartMaxNum) (n nf : ℕ) (tail : List UInt8) :
    scanLoop junk b₁.text (renderItems b₁.text items ++ tail) (.atLine multi (n - 1) nf)
      = scanLoop junk b₂.text (renderItems b₂.text items ++ tail) (.atLine multi (n - 1) nf) := by
  induction items generalizing multi n nf with
  | nil =>
      have hnil : ∀ b : LegalBoundary, renderItems b.text [] ++ tail
          = bytes "--" ++ (b.text ++ (bytes "--" ++ tail)) := fun b => by simp [renderItems]
      rw [hnil b₁, hnil b₂, scanLoop_closingLine, scanLoop_closingLine]
  | cons item items ih =>
      obtain ⟨hitem, hitems⟩ := List.forall_mem_cons.mp hdata
      obtain ⟨behind₁, hbehind₁⟩ := exists_renderItems b₁.text items tail
      obtain ⟨behind₂, hbehind₂⟩ := exists_renderItems b₂.text items tail
      rw [renderItems_cons, renderItems_cons, hbehind₁, hbehind₂,
        scanLoop_item junk h₁ hitem.1 multi n nf, scanLoop_item junk h₂ hitem.2 multi n nf,
        ← hbehind₁, ← hbehind₂]
      cases hs : scanItem junk item multi n with
      | error e => rfl
      | ok s =>
          obtain ⟨hn, part, nf', rfl⟩ := scanItem_eq_ok hs
          have hnext := ih hitems (multi.set n (.obj part)) (n + 1) nf'
          rw [Nat.cast_add, Nat.cast_one, add_sub_cancel_right] at hnext
          exact hnext

/-- A scan of a form with a part opens the part, if its boundary is read whole. -/
theorem getElem?_of_scanLoop {junk : ℕ → PartJunk} {b : LegalBoundary} (hb : b.reading = .whole)
    {item : FormItem} {items : List FormItem} (hdata : ¬b.text <:+: item.data)
    {multi : Vector (Ptr Multipart) multiPartMaxNum} {tail : List UInt8} {s : Scan}
    (h : scanLoop junk b.text (renderItems b.text (item :: items) ++ tail)
      (.atLine multi ((0 : ℕ) - 1) 0) = .ok s) :
    ∃ part : Multipart, s.multi[0]? = some (.obj part) := by
  obtain ⟨behind, hbehind⟩ := exists_renderItems b.text items tail
  rw [renderItems_cons, hbehind, scanLoop_item junk hb hdata] at h
  obtain ⟨s₁, hs₁, h⟩ := exists_of_bind h
  obtain ⟨hn, part, nf, rfl⟩ := scanItem_eq_ok hs₁
  -- behind the first part the scan leaves the first entry alone
  obtain ⟨e, hbody⟩ := exists_body b.isText (n := 1) h
  obtain ⟨s₂, k, hs₂, hscanned⟩ := scanLoop_of_body junk b.isText hbody (by decide)
    (multi.set 0 (.obj part) hn)
  obtain rfl : s₂ = s := Except.ok.inj (hs₂.symm.trans h)
  refine ⟨part, ?_⟩
  rw [hscanned.others 0 (Or.inl Nat.zero_lt_one), Vector.getElem?_set_self hn]

end MultiPart

/-! ## The parts of a form -/

/-- The boundary is what stands behind `boundary=`. -/
theorem boundaryOf_formType {text : List UInt8} (hlen : text.length ≤ 63) :
    boundaryOf (bytes "multipart/form-data; boundary=" ++ text) = .ok text := by
  have hfound : strstr (bytes "multipart/form-data; boundary=" ++ text) (bytes "boundary=")
      = some (bytes "boundary=" ++ text) := by
    have hsplit : bytes "multipart/form-data; boundary="
        = bytes "multipart/form-data; " ++ bytes "boundary=" := by decide
    rw [hsplit, List.append_assoc]
    apply strstr_append (by decide)
    intro back hback hsuffix hstart
    obtain ⟨c, back, rfl⟩ := List.exists_cons_of_ne_nil hback
    have hmem : c ∈ bytes "multipart/form-data; " := hsuffix.subset List.mem_cons_self
    have hfirst : (98 : UInt8) = c := (List.cons_prefix_cons.mp hstart).1
    revert hmem
    rw [← hfirst]
    decide
  unfold boundaryOf
  rw [hfound]
  show (if 64 < text.length then _ else if text.length = 64 then _ else _) = _
  rw [if_neg (by omega), if_neg (by omega)]
  rfl

theorem boundaryOf_contentType (b : LegalBoundary) :
    boundaryOf (bytes "multipart/form-data; boundary=" ++ b.text) = .ok b.text :=
  boundaryOf_formType (show b.text.length ≤ 63 from b.length_le)

section
variable (junk : ℕ → PartJunk) (request : Request) (items : List FormItem) (tail : List UInt8)

theorem partsParsed_eq (b : LegalBoundary) :
    partsParsed junk request b items tail
      = (MultiPart.scanLoop junk b.text (renderItems b.text items ++ tail)
          (.atLine (Vector.replicate _ .null) ((0 : ℕ) - 1) 0)).map
          fun s => (s.mulNum, s.multi) := by
  unfold partsParsed
  rw [boundaryOf_contentType, ok_bind, reqParseMultiPart_eq junk _ _ _ rfl]
  show Except.map _ (MultiPart.scanLoop junk b.text _ (.atLine _ ((0 : ℕ) - 1) 0)) >>= _ = _
  cases MultiPart.scanLoop junk b.text (renderItems b.text items ++ tail)
    (.atLine (Vector.replicate _ .null) ((0 : ℕ) - 1) 0) <;> rfl

/-- A form without parts is closed at once. -/
theorem partsParsed_nil (b : LegalBoundary) :
    partsParsed junk request b [] tail = .ok (-1, Vector.replicate _ .null) := by
  have hnil : renderItems b.text [] ++ tail = bytes "--" ++ (b.text ++ (bytes "--" ++ tail)) := by
    simp [renderItems]
  rw [partsParsed_eq, hnil, MultiPart.scanLoop_closingLine]
  rfl

/-- Dashes in the boundary that are taken for the closing ones: no part is found. -/
theorem partsParsed_closing {b : LegalBoundary} (hb : b.reading = .closing) :
    partsParsed junk request b items tail = .ok (-1, Vector.replicate _ .null) := by
  obtain ⟨behind, hbehind⟩ := MultiPart.exists_renderItems b.text items tail
  rw [partsParsed_eq, hbehind, MultiPart.scanLoop_closingReading _ _ _ _ _ hb]
  rfl

/-- A boundary that is cut at a dash: one part is counted that is not there. -/
theorem partsParsed_cut {b : LegalBoundary} (hb : b.reading = .cut) (item : FormItem) :
    partsParsed junk request b (item :: items) tail = .ok (0, Vector.replicate _ .null) := by
  have hrender : renderItems b.text (item :: items) ++ tail
      = Ascii.dash :: Ascii.dash :: (b.text ++ Ascii.cr :: Ascii.lf :: (formData ++ (item.fields ++
          (crlf ++ (crlf ++ (item.data ++ (crlf ++ (renderItems b.text items ++ tail)))))))) := by
    rw [MultiPart.renderItems_cons]
    simp [FormItem.render, crlf, bytes]
  obtain ⟨temp, hcut⟩ := MultiPart.scanLoop_cut junk (Vector.replicate _ .null) (0 : ℕ) 0 hb
    (formData ++ (item.fields ++ (crlf ++ (crlf ++ (item.data ++ (crlf ++
      (renderItems b.text items ++ tail)))))))
  have hdashes := MultiPart.scanLoop_dashes junk b.text
    (Vector.replicate _ .null) ((0 : ℕ) - 1) 0 [] (b.text ++ Ascii.cr :: Ascii.lf :: (formData ++
      (item.fields ++ (crlf ++ (crlf ++ (item.data ++ (crlf ++
        (renderItems b.text items ++ tail))))))))
  rw [sub_add_cancel, hcut] at hdashes
  rw [partsParsed_eq, hrender]
  exact congrArg (Except.map fun s : MultiPart.Scan => (s.mulNum, s.multi)) hdashes

/-- A boundary that is read whole: if the scan comes to its end, the first part is there. -/
theorem partsParsed_whole {b : LegalBoundary} (hb : b.reading = .whole) {item : FormItem}
    (hdata : ¬b.text <:+: item.data) (num : ℤ) :
    partsParsed junk request b (item :: items) tail ≠ .ok (num, Vector.replicate _ .null) := by
  rw [partsParsed_eq]
  intro h
  obtain ⟨s, hs, hout⟩ := exists_of_map h
  obtain ⟨part, hpart⟩ := MultiPart.getElem?_of_scanLoop hb hdata hs
  have hmulti : s.multi = Vector.replicate _ .null := (Prod.ext_iff.mp hout).2
  rw [hmulti] at hpart
  revert hpart
  nofun

end

/-- Two boundaries give the same parts exactly if they are read the same way, or there are no
parts. -/
theorem partsParsed_eq_iff (junk : ℕ → PartJunk) (request : Request) (b₁ b₂ : LegalBoundary)
    (items : List FormItem) (tail : List UInt8)
    (hdata : ∀ item ∈ items, ¬b₁.text <:+: item.data ∧ ¬b₂.text <:+: item.data) :
    partsParsed junk request b₁ items tail = partsParsed junk request b₂ items tail
      ↔ items = [] ∨ b₁.reading = b₂.reading := by
  cases items with
  | nil =>
      rw [partsParsed_nil, partsParsed_nil]
      simp
  | cons item items =>
      obtain ⟨hitem₁, hitem₂⟩ := (List.forall_mem_cons.mp hdata).1
      have hcount : (Except.ok (0, Vector.replicate _ .null) :
          Except Fault (ℤ × Vector (Ptr Multipart) multiPartMaxNum))
          ≠ .ok (-1, Vector.replicate _ .null) :=
        fun h => absurd (Prod.ext_iff.mp (Except.ok.inj h)).1 (by decide)
      have hclosing : ∀ b : LegalBoundary, b.reading = .closing →
          partsParsed junk request b (item :: items) tail = .ok (-1, Vector.replicate _ .null) :=
        fun b hb => partsParsed_closing junk request (item :: items) tail hb
      have hcut : ∀ b : LegalBoundary, b.reading = .cut →
          partsParsed junk request b (item :: items) tail = .ok (0, Vector.replicate _ .null) :=
        fun b hb => partsParsed_cut junk request items tail hb item
      rw [or_iff_right (List.cons_ne_nil item items)]
      cases h₁ : b₁.reading with
      | whole =>
          have hpart := partsParsed_whole junk request items tail h₁ hitem₁
          cases h₂ : b₂.reading with
          | whole =>
              refine iff_of_true ?_ rfl
              rw [partsParsed_eq, partsParsed_eq, MultiPart.scanLoop_items_eq junk h₁ h₂ hdata]
          | closing => exact iff_of_false (hclosing b₂ h₂ ▸ hpart (-1)) nofun
          | cut => exact iff_of_false (hcut b₂ h₂ ▸ hpart 0) nofun
      | closing =>
          rw [hclosing b₁ h₁]
          cases h₂ : b₂.reading with
          | whole =>
              have hpart := partsParsed_whole junk request items tail h₂ hitem₂
              exact iff_of_false (hpart _).symm nofun
          | closing => exact iff_of_true (hclosing b₂ h₂).symm rfl
          | cut => exact iff_of_false (hcut b₂ h₂ ▸ hcount.symm) nofun
      | cut =>
          rw [hcut b₁ h₁]
          cases h₂ : b₂.reading with
          | whole =>
              have hpart := partsParsed_whole junk request items tail h₂ hitem₂
              exact iff_of_false (hpart _).symm nofun
          | closing => exact iff_of_false (hclosing b₂ h₂ ▸ hcount) nofun
          | cut => exact iff_of_true (hcut b₂ h₂).symm rfl

/-- A boundary without a dash, and one as browsers make them. -/
def plainBoundary : LegalBoundary :=
  ⟨bytes "XyZ7", sampleBoundary.ne_nil, sampleBoundary.length_le, by decide, by decide⟩

@[inherit_doc plainBoundary] def browserBoundary : LegalBoundary :=
  ⟨bytes "----WebKitFormBoundaryXyZ7", by decide, by decide, by decide, by decide⟩

/-- A field `a` with the value `1`. -/
def sampleItem : FormItem := ⟨bytes "a", none, bytes "1", by decide, nofun⟩

/-- One field, with a boundary without a dash and one as browsers make them. -/
theorem partsParsed_eq_iff_sample :
    partsParsed (fun _ => PartJunk.zero) (reqParseInit RequestMem.zero) plainBoundary [sampleItem]
        (crlf ++ [0])
      = partsParsed (fun _ => PartJunk.zero) (reqParseInit RequestMem.zero) browserBoundary
        [sampleItem] (crlf ++ [0])
      ↔ [sampleItem] = [] ∨ plainBoundary.reading = browserBoundary.reading :=
  partsParsed_eq_iff _ _ plainBoundary browserBoundary [sampleItem] _ (by
    intro item hitem
    obtain rfl := List.mem_singleton.mp hitem
    exact ⟨by decide, by decide⟩)

/-- With the boundary of a browser the field is lost. -/
theorem partsParsed_ne_sample :
    partsParsed (fun _ => PartJunk.zero) (reqParseInit RequestMem.zero) plainBoundary [sampleItem]
        (crlf ++ [0])
      ≠ partsParsed (fun _ => PartJunk.zero) (reqParseInit RequestMem.zero) browserBoundary
        [sampleItem] (crlf ++ [0]) := by
  rw [partsParsed_closing _ _ _ _ (show browserBoundary.reading = .closing by decide)]
  exact partsParsed_whole _ _ _ _ (show plainBoundary.reading = .whole by decide) (by decide) (-1)
