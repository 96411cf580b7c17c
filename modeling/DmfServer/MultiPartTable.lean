/-
# Where a multipart scan ends, and the table it leaves

The scanner has no end test, so it ends inside the body exactly when the body is in the grammar
`MultiPart.Body` (`scanEnds_iff`).  Of the two ways to end, only the closing dashes take the
counter back to the last part; a delimiter line that is not the boundary leaves it at an entry
that was never allocated, which `req_free` then follows (`tableMatches_iff`).
-/
import DmfServer.MultiPartScan
import DmfServer.RequestFields

open CMem

/-! ## The end of the scan -/

/-- `req_parse_multi_part` comes to its end: no byte behind the body's NUL is read, and no entry
outside the table is used. -/
def ScanEnds (junk : ℕ → PartJunk) (request : Request) (boundary : List UInt8) : Prop :=
  ∃ request', reqParseMultiPart junk request boundary = .ok request'

/-- The scan ends inside the body exactly if the body is in the grammar. -/
theorem scanEnds_iff (junk : ℕ → PartJunk) (request : Request) (boundary : ShortText 64)
    (body : List UInt8) :
    ScanEnds junk { request with body := .obj (body ++ [0]) } boundary.bytes
      ↔ ∃ e, MultiPart.Body boundary.bytes 0 0 (body ++ [0]) e := by
  unfold ScanEnds
  rw [reqParseMultiPart_eq junk _ _ (body ++ [0]) rfl]
  constructor
  · rintro ⟨request', h⟩
    obtain ⟨s, hs, -⟩ := exists_of_map h
    exact MultiPart.exists_body boundary.isText hs
  · rintro ⟨e, hbody⟩
    obtain ⟨s, k, hs, -⟩ := MultiPart.scanLoop_of_body junk boundary.isText hbody (Nat.zero_le _)
      request.multi
    exact ⟨_, congrArg (Except.map _) hs⟩

/-- A body without a delimiter leads the scanner out of it. -/
theorem not_scanEnds_plain :
    ¬ScanEnds (fun _ => PartJunk.zero)
      { reqParseInit RequestMem.zero with body := .obj (bytes "abc" ++ [0]) } (bytes "XyZ7") := by
  rintro ⟨request', h⟩
  cases h

/-! ## The table -/

/-- The part behind a pointer of the table, if there is one. -/
def partOf : Ptr Multipart → Option Multipart
  | .obj part => some part
  | .addr _ => none

/-- The parts the table points to, in order. -/
def allocated (multi : Vector (Ptr Multipart) multiPartMaxNum) : List Multipart :=
  multi.toList.filterMap partOf

/-- The table and its counter agree, and `req_free` releases each part of the table once. -/
structure TableMatches (request : Request) : Prop where
  /-- What is counted is a part with its length. -/
  counted : ∀ i : ℕ, (i : ℤ) ≤ request.multiPartNum →
    ∃ part : Multipart, request.multi[i]? = some (.obj part) ∧ part.length = part.data.length
  /-- Every part is counted. -/
  counts : ∀ (i : ℕ) (part : Multipart), request.multi[i]? = some (.obj part) →
    (i : ℤ) ≤ request.multiPartNum
  /-- The parts that are released are those of the table. -/
  freed : ∃ freed, reqFree request = .ok freed ∧ freed.parts = allocated request.multi

/-- The pointer to a part, followed. -/
theorem partAt_eq {multi : Vector (Ptr Multipart) multiPartMaxNum} {i : ℕ} {part : Multipart}
    (h : multi[i]? = some (.obj part)) : partAt multi i = .ok part := by
  obtain ⟨hi, hget⟩ := Vector.getElem?_eq_some_iff.mp h
  unfold partAt
  rw [dif_pos hi, hget]
  rfl

/-- If the first `k` entries are parts, they are the parts that the loop of `req_free` visits. -/
theorem mapM_partAt (multi : Vector (Ptr Multipart) multiPartMaxNum) {k : ℕ}
    (hparts : ∀ i, i < k → ∃ part : Multipart, multi[i]? = some (.obj part)) :
    (List.range k).mapM (partAt multi)
      = .ok ((multi.toList.take k).filterMap partOf) := by
  induction k with
  | zero => rfl
  | succ k ih =>
      obtain ⟨part, hpart⟩ := hparts k (Nat.lt_succ_self k)
      have hget : multi.toList[k]? = some (.obj part) := by
        rw [Vector.getElem?_toList]
        exact hpart
      rw [List.range_succ, List.mapM_append, ih (fun i hi => hparts i (Nat.lt_succ_of_lt hi)),
        List.take_add_one, hget, List.filterMap_append]
      simp [partAt_eq hpart, partOf]

/-- The table and its counter agree when the first `k` entries are parts and the others `NULL`. -/
theorem tableMatches_of_parts {request : Request} {k : ℕ}
    (hnum : request.multiPartNum = (k : ℤ) - 1)
    (hparts : ∀ i, i < k →
      ∃ part : Multipart, request.multi[i]? = some (.obj part) ∧ part.length = part.data.length)
    (hothers : ∀ i, k ≤ i → ∀ part : Multipart, request.multi[i]? ≠ some (.obj part)) :
    TableMatches request := by
  refine ⟨fun i hi => hparts i (by omega), fun i part hpart => ?_, ?_⟩
  · by_contra hi
    exact hothers i (by omega) part hpart
  · have hvisit := mapM_partAt request.multi
      (fun i hi => (hparts i hi).imp fun _ h => h.1)
    have hrest : (request.multi.toList.drop k).filterMap partOf = [] := by
      rw [List.filterMap_eq_nil_iff]
      intro x hx
      obtain ⟨i, hi⟩ := List.mem_iff_getElem?.mp hx
      rw [List.getElem?_drop, Vector.getElem?_toList] at hi
      cases x with
      | addr a => rfl
      | obj part => exact absurd hi (hothers (k + i) (by omega) part)
    refine ⟨⟨request.query, request.params, request.body, allocated request.multi⟩, ?_, rfl⟩
    have hall : allocated request.multi = (request.multi.toList.take k).filterMap partOf := by
      unfold allocated
      conv_lhs => rw [← List.take_append_drop k request.multi.toList]
      rw [List.filterMap_append, hrest, List.append_nil]
    unfold reqFree partsUpTo
    rw [hnum, sub_add_cancel, Int.toNat_natCast, hvisit, ok_bind, hall]

/-- Behind the parts that were opened the table is as it was, all `NULL`. -/
theorem MultiPart.Scanned.not_part {e : MultiPart.Exit} {k i : ℕ} {s : MultiPart.Scan}
    (h : MultiPart.Scanned (Vector.replicate multiPartMaxNum .null) 0 e k s) (hi : k ≤ i)
    {part : Multipart} : s.multi[i]? ≠ some (.obj part) := by
  rw [h.others i (Or.inr hi), Vector.getElem?_replicate]
  split <;> nofun

/-- The table matches its counter exactly if the scan ended at the closing dashes. -/
theorem tableMatches_iff (junk : ℕ → PartJunk) (request request' : Request)
    (boundary : ShortText 64) (mem : List UInt8)
    (hparse : reqParseMultiPart junk { request with
        body := .obj mem, multi := Vector.replicate multiPartMaxNum .null } boundary.bytes
      = .ok request') :
    TableMatches request' ↔ MultiPart.Body boundary.bytes 0 0 mem .closed := by
  rw [reqParseMultiPart_eq junk _ _ mem rfl] at hparse
  obtain ⟨s, hs, rfl⟩ := exists_of_map hparse
  constructor
  · intro hmatches
    refine (allParts_iff boundary.isText hs).mp fun i hi => ?_
    obtain ⟨part, hpart, -⟩ := hmatches.counted i hi
    obtain ⟨hlt, hget⟩ := Vector.getElem?_eq_some_iff.mp hpart
    exact ⟨hlt, part, hget⟩
  · intro hbody
    obtain ⟨s₁, k, hs₁, hscanned⟩ := MultiPart.scanLoop_of_body junk boundary.isText hbody
      (Nat.zero_le _) (Vector.replicate multiPartMaxNum .null)
    obtain rfl : s₁ = s := Except.ok.inj (hs₁.symm.trans hs)
    exact tableMatches_of_parts hscanned.counter
      (fun i hi => hscanned.parts i (Nat.zero_le i) hi) fun i hi _ => hscanned.not_part hi

/-- The table of a form with two parts matches. -/
theorem tableMatches_iff_sample :
    ∃ request', reqParseMultiPart (fun _ => PartJunk.zero)
        { reqParseInit RequestMem.zero with
          body := .obj (renderForm sampleForm ++ [0])
          multi := Vector.replicate multiPartMaxNum .null } sampleBoundary.text = .ok request' ∧
      request'.multiPartNum = 1 ∧ TableMatches request' := by
  obtain ⟨s, hs, hnum, -, hparts⟩ := MultiPart.scanLoop_renderForm (fun _ => PartJunk.zero)
    sampleForm (fun part hpart => by fin_cases hpart <;> decide) (n := 0) (by decide)
    (Vector.replicate multiPartMaxNum .null) 0 [0]
  have hall : AllParts s := by
    intro i hi
    have hlt : i < sampleForm.length := by
      rw [hnum] at hi
      omega
    obtain ⟨p, hp, -⟩ := hparts i sampleForm[i] (List.getElem?_eq_getElem hlt)
    rw [Nat.zero_add] at hp
    obtain ⟨hlt, hget⟩ := Vector.getElem?_eq_some_iff.mp hp
    exact ⟨hlt, p, hget⟩
  have hparse := reqParseMultiPart_eq (fun _ => PartJunk.zero)
    { reqParseInit RequestMem.zero with
      body := .obj (renderForm sampleForm ++ [0]), multi := Vector.replicate multiPartMaxNum .null }
    sampleBoundary.text _ rfl
  have hstart := congrArg (Except.map fun s : MultiPart.Scan =>
    { reqParseInit RequestMem.zero with
      body := .obj (renderForm sampleForm ++ [0]), multi := s.multi, multiPartNum := s.mulNum }) hs
  refine ⟨_, hparse.trans hstart, hnum, ?_⟩
  exact (tableMatches_iff (fun _ => PartJunk.zero) (reqParseInit RequestMem.zero) _
    ⟨sampleBoundary.text, by decide, by decide⟩ _ (hparse.trans hstart)).mpr
    ((allParts_iff sampleBoundary.isText hs).mp hall)

/-- A delimiter line that is not the boundary counts a part that is not there. -/
theorem not_tableMatches_foreign :
    ∃ request', reqParseMultiPart (fun _ => PartJunk.zero)
        { reqParseInit RequestMem.zero with
          body := .obj (bytes "--x\x0d\n" ++ [0])
          multi := Vector.replicate multiPartMaxNum .null } (bytes "XyZ7") = .ok request' ∧
      ¬TableMatches request' := by
  refine ⟨_, rfl, fun h => ?_⟩
  obtain ⟨part, hpart, -⟩ := h.counted 0 (by decide)
  revert hpart
  nofun
