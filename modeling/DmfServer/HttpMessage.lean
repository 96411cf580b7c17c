/-
# HTTP messages as a client reads them

A head is lines up to an empty one, and the body is what follows.  A client learns where the
body ends from the `Content-Length` field, a decimal number, or, in the chunked encoding, from
the sizes in hexadecimal in front of the chunks, of which the last one is 0.

* `headLines_eq`: the head and the body of a message that is put together of lines;
* `fieldValue_eq`: the value of a field that is written with one blank;
* `dechunk_chunk` and `dechunk_last`: a chunk at the start of a chunked body, and its end;
* `receive_eq`: a whole message, whichever way its body ends.

Chunk extensions and trailers are not read.
-/
import DmfServer.CMemory
import Mathlib.Data.List.DropRight

open CMem

namespace Http

/-- The end of a line. -/
abbrev crlf : List UInt8 := [13, 10]

/-! ## Numbers -/

/-- The value of a digit up to 15. -/
def digitValue (c : UInt8) : Option ℕ :=
  if 48 ≤ c ∧ c ≤ 57 then some (c.toNat - 48)
  else if 97 ≤ c ∧ c ≤ 102 then some (c.toNat - 87)
  else if 65 ≤ c ∧ c ≤ 70 then some (c.toNat - 55)
  else none

/-- A digit of the radix. -/
def isDigit (radix : ℕ) (c : UInt8) : Bool := (digitValue c).any (· < radix)

/-- What digits are worth together. -/
def value (radix : ℕ) (digits : List UInt8) : ℕ :=
  digits.foldl (fun n c => radix * n + (digitValue c).getD 0) 0

/-- The number that a whole text is, if it is one. -/
def number (radix : ℕ) (s : List UInt8) : Option ℕ :=
  if s ≠ [] ∧ s.all (isDigit radix) then some (value radix s) else none

theorem value_concat (radix : ℕ) (digits : List UInt8) (c : UInt8) :
    value radix (digits ++ [c]) = radix * value radix digits + (digitValue c).getD 0 := by
  rw [value, List.foldl_append]
  rfl

/-- A byte that is no digit. -/
theorem isDigit_ne {radix : ℕ} {c d : UInt8} (h : isDigit radix c) (hd : digitValue d = none) :
    c ≠ d := by
  rintro rfl
  rw [isDigit, hd] at h
  cases h

/-- A number has at least one digit, and nothing but digits. -/
theorem number_eq_some_iff {radix n : ℕ} {s : List UInt8} :
    number radix s = some n ↔
      s ≠ [] ∧ (∀ c ∈ s, isDigit radix c) ∧ value radix s = n := by
  rw [number, ← List.all_eq_true]
  split
  · next h => exact ⟨fun heq => ⟨h.1, h.2, Option.some.inj heq⟩, fun heq => by rw [heq.2.2]⟩
  · next h => exact ⟨nofun, fun heq => absurd ⟨heq.1, heq.2.1⟩ h⟩

/-- A digit more behind a number, or behind nothing. -/
theorem number_concat {radix n d : ℕ} {s : List UInt8} {c : UInt8}
    (hs : (s = [] ∧ n = 0) ∨ number radix s = some n) (hc : digitValue c = some d)
    (hd : d < radix) : number radix (s ++ [c]) = some (radix * n + d) := by
  have hdigit : isDigit radix c := by
    rw [isDigit, hc]
    exact decide_eq_true hd
  obtain ⟨hdigits, hvalue⟩ : (∀ x ∈ s, isDigit radix x) ∧ value radix s = n := by
    rcases hs with ⟨rfl, rfl⟩ | hs
    · exact ⟨nofun, rfl⟩
    · exact (number_eq_some_iff.mp hs).2
  refine number_eq_some_iff.mpr ⟨List.concat_ne_nil c s, ?_, ?_⟩
  · intro x hx
    rcases List.mem_append.mp hx with hx | hx
    · exact hdigits x hx
    · rwa [List.mem_singleton.mp hx]
  · rw [value_concat, hvalue, hc]
    rfl

/-! ## Lines -/

/-- The first line, without its end, and what follows it. -/
def line : List UInt8 → Option (List UInt8 × List UInt8)
  | [] => none
  | c :: s =>
      if crlf <+: c :: s then some ([], s.tail)
      else (line s).map fun (l, rest) => (c :: l, rest)

theorem line_crlf (s : List UInt8) : line (crlf ++ s) = some ([], s) := by
  have hcrlf : crlf <+: 13 :: 10 :: s := ⟨s, rfl⟩
  show line (13 :: 10 :: s) = some ([], s)
  rw [line, if_pos hcrlf]
  rfl

/-- A line without a carriage return in it. -/
theorem line_eq {l : List UInt8} (h : 13 ∉ l) (s : List UInt8) :
    line (l ++ (crlf ++ s)) = some (l, s) := by
  induction l with
  | nil => exact line_crlf s
  | cons c l ih =>
      obtain ⟨hc, hl⟩ := List.ne_and_not_mem_of_not_mem_cons h
      have hnot : ¬ crlf <+: c :: (l ++ (crlf ++ s)) := by
        intro hcrlf
        exact hc (List.cons_prefix_cons.mp hcrlf).1
      rw [List.cons_append, line, if_neg hnot, ih hl]
      rfl

theorem length_line {s l rest : List UInt8} (h : line s = some (l, rest)) :
    rest.length < s.length := by
  induction s generalizing l with
  | nil => cases h
  | cons c s ih =>
      rw [line] at h
      split at h
      · cases h
        rw [List.length_tail, List.length_cons]
        omega
      · obtain ⟨⟨l', rest'⟩, hline, heq⟩ := Option.map_eq_some_iff.mp h
        cases heq
        have := ih hline
        rw [List.length_cons]
        omega

/-! ## The head -/

/-- The lines up to the empty one, and the body behind it. -/
def headLines (s : List UInt8) : Option (List (List UInt8) × List UInt8) :=
  match _h : line s with
  | none => none
  | some ([], body) => some ([], body)
  | some (l, rest) => (headLines rest).map fun (ls, body) => (l :: ls, body)
termination_by s.length
decreasing_by exact length_line _h

/-- Lines that are not empty, the empty line, and a body. -/
theorem headLines_eq {ls : List (List UInt8)} (h : ∀ l ∈ ls, l ≠ [] ∧ 13 ∉ l)
    (body : List UInt8) :
    headLines ((ls.map (· ++ crlf)).flatten ++ (crlf ++ body)) = some (ls, body) := by
  induction ls with
  | nil =>
      rw [List.map_nil, List.flatten_nil, List.nil_append, headLines]
      split
      · next hline => rw [line_crlf] at hline; cases hline
      · next hline => rw [line_crlf] at hline; cases hline; rfl
      · next hne hline => rw [line_crlf] at hline; cases hline; exact absurd rfl hne
  | cons l ls ih =>
      obtain ⟨⟨hne, hcr⟩, hls⟩ := List.forall_mem_cons.mp h
      have hfirst : line (((l :: ls).map (· ++ crlf)).flatten ++ (crlf ++ body))
          = some (l, (ls.map (· ++ crlf)).flatten ++ (crlf ++ body)) := by
        rw [List.map_cons, List.flatten_cons, List.append_assoc, List.append_assoc]
        exact line_eq hcr _
      rw [headLines]
      split
      · next hline => rw [hfirst] at hline; cases hline
      · next hline => rw [hfirst] at hline; cases hline; exact absurd rfl hne
      · next hline =>
        rw [hfirst] at hline
        cases hline
        rw [ih hls]
        rfl

/-! ## Fields -/

/-- A letter in lower case. -/
def lower (c : UInt8) : UInt8 := if 65 ≤ c ∧ c ≤ 90 then c + 32 else c

/-- A space or a tab. -/
def isBlank (c : UInt8) : Bool := c = 32 ∨ c = 9

/-- A text without the blanks around it. -/
def trim (s : List UInt8) : List UInt8 := (s.dropWhile isBlank).rdropWhile isBlank

/-- The value in a line of the head, if the field has the name; case does not count. -/
def fieldValue (name l : List UInt8) : Option (List UInt8) :=
  if (l.takeWhile (· ≠ 58)).map lower = name.map lower ∧ 58 ∈ l then
    some (trim (l.dropWhile (· ≠ 58)).tail)
  else none

/-- The body's length by the field of the head. -/
def contentLength (ls : List (List UInt8)) : Option ℕ :=
  (ls.findSome? (fieldValue (bytes "Content-Length"))).bind (number 10)

/-- Behind a blank, a value without any. -/
theorem trim_blank {v : List UInt8} (h : ∀ c ∈ v, ¬ isBlank c) : trim (32 :: v) = v := by
  have hfirst : (32 :: v).dropWhile isBlank = v := by
    rw [List.dropWhile_cons_of_pos (by decide), List.dropWhile_eq_self_iff]
    exact fun hpos => h _ (List.getElem_mem hpos)
  rw [trim, hfirst, List.rdropWhile_eq_self_iff]
  exact fun hne => h _ (List.getLast_mem hne)

theorem fieldValue_eq {name v : List UInt8} (hname : 58 ∉ name) (hv : ∀ c ∈ v, ¬ isBlank c) :
    fieldValue name (name ++ 58 :: 32 :: v) = some v := by
  have hall : ∀ c ∈ name, decide (c ≠ 58) = true := by
    intro c hc
    exact decide_eq_true fun heq => hname (heq ▸ hc)
  have htake : (name ++ 58 :: 32 :: v).takeWhile (· ≠ 58) = name := by
    rw [List.takeWhile_append_of_pos hall, List.takeWhile_cons_of_neg (by decide), List.append_nil]
  have hdrop : (name ++ 58 :: 32 :: v).dropWhile (· ≠ 58) = 58 :: 32 :: v := by
    rw [List.dropWhile_append_of_pos hall, List.dropWhile_cons_of_neg (by decide)]
  rw [fieldValue, htake, hdrop, if_pos ⟨rfl, by simp⟩, List.tail_cons, trim_blank hv]

/-! ## Chunks -/

/-- What follows a line end. -/
def afterCrlf (s : List UInt8) : Option (List UInt8) :=
  if crlf <+: s then some (s.drop 2) else none

theorem afterCrlf_eq (s : List UInt8) : afterCrlf (crlf ++ s) = some s := by
  rw [afterCrlf, if_pos (List.prefix_append crlf s)]
  rfl

theorem length_afterCrlf {s rest : List UInt8} (h : afterCrlf s = some rest) :
    rest.length ≤ s.length := by
  rw [afterCrlf] at h
  split at h
  · cases h
    rw [List.length_drop]
    omega
  · cases h

/-- The size in front of a chunk, and what follows its line. -/
def sizeLine (s : List UInt8) : Option (ℕ × List UInt8) := do
  let (l, rest) ← line s
  let size ← number 16 l
  some (size, rest)

theorem length_sizeLine {s rest : List UInt8} {size : ℕ} (h : sizeLine s = some (size, rest)) :
    rest.length < s.length := by
  obtain ⟨⟨l, rest'⟩, hline, h⟩ := Option.bind_eq_some_iff.mp h
  obtain ⟨n, -, h⟩ := Option.bind_eq_some_iff.mp h
  cases h
  exact length_line hline

/-- The content of a chunked body, and the bytes behind its end. -/
def dechunk (s : List UInt8) : Option (List UInt8 × List UInt8) :=
  match _h : sizeLine s with
  | none => none
  | some (size, rest) =>
      if size = 0 then (afterCrlf rest).map fun behind => ([], behind)
      else if rest.length < size then none
      else
        match _hend : afterCrlf (rest.drop size) with
        | none => none
        | some more =>
            (dechunk more).map fun (content, behind) => (rest.take size ++ content, behind)
termination_by s.length
decreasing_by
  have hfirst := length_sizeLine _h
  have hsecond := length_afterCrlf _hend
  rw [List.length_drop] at hsecond
  omega

theorem sizeLine_eq {digits : List UInt8} {n : ℕ} (h : number 16 digits = some n)
    (s : List UInt8) : sizeLine (digits ++ (crlf ++ s)) = some (n, s) := by
  have hcr : 13 ∉ digits := by
    intro hmem
    exact isDigit_ne ((number_eq_some_iff.mp h).2.1 13 hmem) rfl rfl
  rw [sizeLine, line_eq hcr]
  show (number 16 digits).bind _ = _
  rw [h]
  rfl

/-- The size 0 ends the body. -/
theorem dechunk_last {digits : List UInt8} (h : number 16 digits = some 0) (s : List UInt8) :
    dechunk (digits ++ (crlf ++ (crlf ++ s))) = some ([], s) := by
  have hsize := sizeLine_eq h (crlf ++ s)
  rw [dechunk]
  split
  · next hnone => rw [hsize] at hnone; cases hnone
  · next size rest hsome =>
    rw [hsize] at hsome
    cases hsome
    rw [if_pos rfl, afterCrlf_eq]
    rfl

/-- A chunk with its size in front. -/
theorem dechunk_chunk {digits data : List UInt8} (h : number 16 digits = some data.length)
    (hne : data ≠ []) (s : List UInt8) :
    dechunk (digits ++ (crlf ++ (data ++ (crlf ++ s))))
      = (dechunk s).map fun (content, behind) => (data ++ content, behind) := by
  have hsize := sizeLine_eq h (data ++ (crlf ++ s))
  have hpos : data.length ≠ 0 := fun hzero => hne (List.length_eq_zero_iff.mp hzero)
  have hlong : ¬ (data ++ (crlf ++ s)).length < data.length := by
    rw [List.length_append]
    omega
  have hafter : afterCrlf ((data ++ (crlf ++ s)).drop data.length) = some s := by
    rw [List.drop_left]
    exact afterCrlf_eq s
  rw [dechunk]
  split
  · next hnone => rw [hsize] at hnone; cases hnone
  · next size rest hsome =>
    rw [hsize] at hsome
    cases hsome
    rw [if_neg hpos, if_neg hlong]
    split
    · next hnone => rw [hafter] at hnone; cases hnone
    · next more hmore =>
      rw [hafter] at hmore
      cases hmore
      rw [List.take_left]

/-! ## Whole messages -/

/-- The value of a field of the head; the first line with the name counts. -/
def field (name : List UInt8) (ls : List (List UInt8)) : Option (List UInt8) :=
  ls.findSome? (fieldValue name)

/-- The code in the first line of a response. -/
def statusCode (l : List UInt8) : Option ℕ :=
  if bytes "HTTP/1.1 " <+: l then number 10 ((l.drop 9).takeWhile (· ≠ 32)) else none

/-- The body behind a head, on a connection that is closed behind the message: it is chunked, or
as long as the head says, or all that follows. -/
def bodyOf (ls : List (List UInt8)) (rest : List UInt8) : Option (List UInt8) :=
  if field (bytes "Transfer-Encoding") ls = some (bytes "chunked") then
    (dechunk rest).map Prod.fst
  else
    match field (bytes "Content-Length") ls with
    | none => some rest
    | some v =>
        (number 10 v).bind fun n => if rest.length < n then none else some (rest.take n)

/-- What a client reads from a connection: the lines of the head, and the body. -/
def receive (s : List UInt8) : Option (List (List UInt8) × List UInt8) :=
  (headLines s).bind fun (ls, rest) => (bodyOf ls rest).map fun body => (ls, body)

section
variable {name name' v : List UInt8} (hname : 58 ∉ name')
include hname

theorem takeWhile_name (v : List UInt8) : (name' ++ 58 :: v).takeWhile (· ≠ 58) = name' := by
  have hall : ∀ c ∈ name', decide (c ≠ 58) = true := by
    intro c hc
    exact decide_eq_true fun heq => hname (heq ▸ hc)
  rw [List.takeWhile_append_of_pos hall, List.takeWhile_cons_of_neg (by decide), List.append_nil]

/-- A field with no blanks around its value, its name in any case. -/
theorem fieldValue_of_lower (hlower : name'.map lower = name.map lower)
    (hv : ∀ c ∈ v, ¬ isBlank c) : fieldValue name (name' ++ 58 :: v) = some v := by
  have hall : ∀ c ∈ name', decide (c ≠ 58) = true := by
    intro c hc
    exact decide_eq_true fun heq => hname (heq ▸ hc)
  have hdrop : (name' ++ 58 :: v).dropWhile (· ≠ 58) = 58 :: v := by
    rw [List.dropWhile_append_of_pos hall, List.dropWhile_cons_of_neg (by decide)]
  have hblank : trim v = v := by
    have hfirst : v.dropWhile isBlank = v := by
      rw [List.dropWhile_eq_self_iff]
      intro hpos
      exact hv _ (List.getElem_mem hpos)
    rw [trim, hfirst, List.rdropWhile_eq_self_iff]
    intro hne
    exact hv _ (List.getLast_mem hne)
  rw [fieldValue, takeWhile_name hname, hdrop, if_pos ⟨hlower, by simp⟩, List.tail_cons, hblank]

/-- A field with another name. -/
theorem fieldValue_other (hlower : name'.map lower ≠ name.map lower) :
    fieldValue name (name' ++ 58 :: v) = none := by
  rw [fieldValue, takeWhile_name hname, if_neg]
  rintro ⟨hsame, -⟩
  exact hlower hsame

end

section
variable {ls : List (List UInt8)} {rest : List UInt8}

/-- A head that says nothing of the body's end. -/
theorem bodyOf_close (hencoding : field (bytes "Transfer-Encoding") ls = none)
    (hlength : field (bytes "Content-Length") ls = none) : bodyOf ls rest = some rest := by
  rw [bodyOf, hencoding, if_neg (by simp), hlength]

/-- A head that says how long the body is. -/
theorem bodyOf_length (hencoding : field (bytes "Transfer-Encoding") ls = none)
    (hlength : contentLength ls = some rest.length) : bodyOf ls rest = some rest := by
  obtain ⟨v, hv, hn⟩ := Option.bind_eq_some_iff.mp hlength
  rw [bodyOf, hencoding, if_neg (by simp), show field (bytes "Content-Length") ls = some v from hv]
  dsimp only
  rw [hn, Option.bind_some, if_neg (Nat.lt_irrefl _), List.take_length]

/-- A head whose length is no number. -/
theorem bodyOf_malformed (hencoding : field (bytes "Transfer-Encoding") ls = none)
    {v : List UInt8} (hlength : field (bytes "Content-Length") ls = some v)
    (hv : number 10 v = none) : bodyOf ls rest = none := by
  rw [bodyOf, hencoding, if_neg (by simp), hlength]
  dsimp only
  rw [hv, Option.bind_none]

/-- A chunked body, whatever stands behind it. -/
theorem bodyOf_chunked (hencoding : field (bytes "Transfer-Encoding") ls = some (bytes "chunked"))
    {content behind : List UInt8} (hchunks : dechunk rest = some (content, behind)) :
    bodyOf ls rest = some content := by
  rw [bodyOf, if_pos hencoding, hchunks]
  rfl

/-- A message that is put together of lines. -/
theorem receive_eq (h : ∀ l ∈ ls, l ≠ [] ∧ 13 ∉ l) (rest : List UInt8) :
    receive ((ls.map (· ++ crlf)).flatten ++ (crlf ++ rest))
      = (bodyOf ls rest).map fun body => (ls, body) := by
  rw [receive, headLines_eq h, Option.bind_some]

end

end Http
