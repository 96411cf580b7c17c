/-
# Replacement in a string

`dm_str_replace` copies the string and works on the copy: it moves what is behind an occurrence
up to the end of the new text, writes the new text, and searches on behind it.

With a new text that is no longer than the old one this is the replacement of every occurrence
from left to right (`dmStrReplace_eq`); with an old text that is empty, or a new one that is
longer than an old one that occurs, the loop leaves the memory of the copy or never ends
(`replacesInside_iff`).  `dmString_len`: whatever strings are made of each other, the length of
a `dm_string` is that of its text.
-/
import DmfServer.DmString

open CMem

/-! ## Replacement from left to right -/

section
variable {α : Type} [DecidableEq α] (oldText newText : List α)

/-- The text behind the first `skip` entries, with the new text in the place of every occurrence
of the old one that does not begin inside another. -/
def replaceFrom : ℕ → List α → List α
  | _, [] => []
  | skip + 1, _ :: s => replaceFrom skip s
  | 0, c :: s =>
      if oldText.isPrefixOf (c :: s) then newText ++ replaceFrom (oldText.length - 1) s
      else c :: replaceFrom 0 s

/-- The text with the new text in the place of the old one, from left to right. -/
def replaceAll (s : List α) : List α := replaceFrom oldText newText 0 s

theorem replaceFrom_append (a s : List α) :
    replaceFrom oldText newText a.length (a ++ s) = replaceAll oldText newText s := by
  induction a with
  | nil => rfl
  | cons c a ih => rwa [List.length_cons, List.cons_append, replaceFrom]

variable {oldText newText}

theorem replaceAll_here (hne : oldText ≠ []) (s : List α) :
    replaceAll oldText newText (oldText ++ s) = newText ++ replaceAll oldText newText s := by
  obtain ⟨c, oldText, rfl⟩ := List.exists_cons_of_ne_nil hne
  have hstart : (c :: oldText).isPrefixOf (c :: (oldText ++ s)) :=
    List.isPrefixOf_iff_prefix.mpr (List.prefix_append (c :: oldText) s)
  rw [replaceAll, List.cons_append, replaceFrom, if_pos hstart, List.length_cons,
    Nat.add_sub_cancel, replaceFrom_append]

theorem replaceAll_cons {c : α} {s : List α} (h : ¬oldText <+: c :: s) :
    replaceAll oldText newText (c :: s) = c :: replaceAll oldText newText s := by
  rw [replaceAll, replaceFrom, if_neg (by rwa [List.isPrefixOf_iff_prefix])]
  rfl

end

section
variable {oldText newText : List UInt8}

/-- What stands in front of the first occurrence stays. -/
theorem replaceAll_append {front rest : List UInt8} (h : FirstAt (oldText <+: ·) front rest) :
    replaceAll oldText newText (front ++ rest) = front ++ replaceAll oldText newText rest := by
  induction front with
  | nil => rfl
  | cons c front ih =>
      rw [List.cons_append, replaceAll_cons h.not_start, ih h.tail]
      rfl

/-- A text without an occurrence stays. -/
theorem replaceAll_of_none {s : List UInt8} (h : strstr s oldText = none) :
    replaceAll oldText newText s = s := by
  induction s with
  | nil => rfl
  | cons c s ih =>
      rw [strstr] at h
      split at h
      · cases h
      · next hstart =>
        rw [List.isPrefixOf_iff_prefix] at hstart
        rw [replaceAll_cons hstart, ih h]

end

/-! ## The loop -/

section
variable {n : ℕ} {b : Block n}

/-- The search from a place in the memory. -/
theorem findAt_eq (front : List UInt8) {rest junk : List UInt8} (hrest : IsText rest)
    (h : b.bytes = front ++ (rest ++ 0 :: junk)) (needle : List UInt8) :
    findAt b front.length needle = .ok ((strstr rest needle).map fun found =>
      (front.length : ℤ) + ((rest.length : ℤ) - found.length)) := by
  unfold findAt
  rw [readAt_append front hrest h]
  rfl

/-- One round: the occurrence makes way for the new text, and what is behind it moves up. -/
theorem replaceRound_eq (front old new : List UInt8) {back junk : List UInt8} (hback : IsText back)
    (h : b.bytes = front ++ (old ++ (back ++ 0 :: junk))) (hle : new.length ≤ old.length) :
    ∃ b₁ b₂ junk', readAt b ((front.length : ℤ) + old.length) = .ok back ∧
      writeAt b ((front.length : ℤ) + new.length) (back ++ [0]) = .ok b₁ ∧
      writeAt b₁ front.length new = .ok b₂ ∧
      b₂.bytes = front ++ (new ++ (back ++ 0 :: junk')) := by
  have hread : readAt b ((front.length : ℤ) + old.length) = .ok back := by
    rw [← Nat.cast_add, ← List.length_append]
    exact readAt_append (front ++ old) hback (by rw [h, List.append_assoc])
  -- the bytes that the move writes over, and those behind them
  have hlen : (back ++ [(0 : UInt8)]).length
      ≤ (old.drop new.length ++ (back ++ 0 :: junk)).length := by
    simp only [List.length_append, List.length_drop, List.length_cons, List.length_nil]
    omega
  obtain ⟨m, hm⟩ : ∃ m, m = (old.drop new.length ++ (back ++ 0 :: junk)).take
    (back ++ [(0 : UInt8)]).length := ⟨_, rfl⟩
  obtain ⟨junk', hjunk⟩ : ∃ junk', junk' = (old.drop new.length ++ (back ++ 0 :: junk)).drop
    (back ++ [(0 : UInt8)]).length := ⟨_, rfl⟩
  have hsplit : b.bytes = (front ++ old.take new.length) ++ (m ++ junk') := by
    rw [hm, hjunk, List.take_append_drop, h, List.append_assoc,
      ← List.append_assoc (old.take new.length), List.take_append_drop]
  have hsize : (back ++ [(0 : UInt8)]).length = m.length := by
    rw [hm, List.length_take, Nat.min_eq_left hlen]
  have hfront : (front ++ old.take new.length).length = front.length + new.length := by
    rw [List.length_append, List.length_take, Nat.min_eq_left hle]
  obtain ⟨b₁, hmove, hbytes₁⟩ := poke_append (back ++ [0]) hsplit hsize
  rw [List.append_assoc] at hbytes₁
  obtain ⟨b₂, hcopy, hbytes₂⟩ := poke_append new hbytes₁ (by
    rw [List.length_take, Nat.min_eq_left hle])
  refine ⟨b₁, b₂, junk', hread, ?_, ?_, ?_⟩
  · unfold writeAt
    rw [if_pos (by omega), ← Nat.cast_add, ← hfront, Int.toNat_natCast, hmove]
  · unfold writeAt
    rw [if_pos (Int.natCast_nonneg _), Int.toNat_natCast, hcopy]
  · rw [hbytes₂, List.append_assoc back]
    rfl

/-- A loop that has ended has ended within any greater number of rounds. -/
theorem replaceLoop_mono {oldStr newStr : List UInt8} {fuel more : ℕ} (hle : fuel ≤ more)
    {len : ℤ} {ptr : Option ℤ} {p : Block n × ℤ}
    (h : replaceLoop oldStr newStr fuel b len ptr = .ok p) :
    replaceLoop oldStr newStr more b len ptr = .ok p := by
  induction fuel generalizing more b len ptr with
  | zero => cases h
  | succ fuel ih =>
      obtain ⟨more, rfl⟩ := Nat.exists_eq_succ_of_ne_zero (show more ≠ 0 by omega)
      cases ptr with
      | none => exact h
      | some ptr =>
          rw [replaceLoop] at h ⊢
          obtain ⟨rest, hread, h⟩ := exists_of_bind h
          obtain ⟨b₁, hmove, h⟩ := exists_of_bind h
          rw [hread, ok_bind, hmove, ok_bind]
          split at h
          · cases h
          · next hlow =>
            obtain ⟨b₂, hcopy, h⟩ := exists_of_bind h
            obtain ⟨next, hfind, h⟩ := exists_of_bind h
            rw [if_neg hlow, hcopy, ok_bind, hfind, ok_bind]
            exact ih (Nat.le_of_succ_le_succ hle) h

/-- The loop replaces every occurrence in what is behind the place it has come to, in as many
rounds as there are bytes. -/
theorem replaceLoop_eq {oldStr newStr : List UInt8} (hne : oldStr ≠ []) {k rounds : ℕ}
    (hk : toInt newStr.length = k) (hknew : k ≤ newStr.length) (hkold : k ≤ oldStr.length)
    (front : List UInt8) {rest junk : List UInt8} (hrest : IsText rest)
    (h : b.bytes = front ++ (rest ++ 0 :: junk)) (hrounds : rest.length < rounds)
    (hroom : front.length + rest.length < 2 ^ 31) :
    ∃ b' junk', (∀ fuel ≥ rounds,
      replaceLoop oldStr newStr fuel b ((front.length : ℤ) + rest.length)
        ((strstr rest oldStr).map fun found =>
          (front.length : ℤ) + ((rest.length : ℤ) - found.length))
      = .ok (b', (front.length : ℤ) + (replaceAll oldStr (newStr.take k) rest).length)) ∧
      b'.bytes = front ++ (replaceAll oldStr (newStr.take k) rest ++ 0 :: junk') := by
  induction rounds generalizing b front rest junk with
  | zero => exact absurd hrounds (Nat.not_lt_zero _)
  | succ rounds ih =>
      cases hfound : strstr rest oldStr with
      | none =>
          rw [replaceAll_of_none hfound]
          refine ⟨b, junk, ?_, h⟩
          intro fuel hfuel
          obtain ⟨fuel, rfl⟩ := Nat.exists_eq_succ_of_ne_zero (show fuel ≠ 0 by omega)
          rfl
      | some found =>
          obtain ⟨text, rfl, hfirst⟩ := (strstr_eq_some_iff hne).mp hfound
          obtain ⟨back, rfl⟩ := hfirst.here
          have hold : toInt oldStr.length = oldStr.length := by
            simp only [List.length_append] at hroom
            exact toInt_of_range (by omega) (by omega)
          have hnew : (newStr.take k).length = k := by
            rw [List.length_take, Nat.min_eq_left hknew]
          have hback : IsText back := (isText_append.mp (isText_append.mp hrest).2).2
          have hmem : b.bytes = (front ++ text) ++ (oldStr ++ (back ++ 0 :: junk)) := by
            rw [h]
            simp only [List.append_assoc]
          have hshorter : (newStr.take k).length ≤ oldStr.length := by rwa [hnew]
          obtain ⟨b₁, b₂, junk₂, hread, hmove, hcopy, hbytes⟩ :=
            replaceRound_eq (front ++ text) oldStr (newStr.take k) hback hmem hshorter
          have hpos := List.length_pos_of_ne_nil hne
          rw [← List.append_assoc] at hbytes
          obtain ⟨b', junk', hloop, hend⟩ := ih (front ++ text ++ newStr.take k) hback hbytes
            (by simp only [List.length_append] at hrounds; omega)
            (by simp only [List.length_append] at hroom ⊢; omega)
          -- the text up to the occurrence is final, and so is the new text behind it
          have hall : replaceAll oldStr (newStr.take k) (text ++ (oldStr ++ back))
              = text ++ (newStr.take k ++ replaceAll oldStr (newStr.take k) back) := by
            rw [replaceAll_append hfirst, replaceAll_here hne]
          refine ⟨b', junk', ?_, ?_⟩
          · intro fuel hfuel
            obtain ⟨fuel, rfl⟩ := Nat.exists_eq_succ_of_ne_zero (show fuel ≠ 0 by omega)
            have hptr : (front.length : ℤ) + (((text ++ (oldStr ++ back)).length : ℤ)
                - (oldStr ++ back).length) = (front ++ text).length := by
              simp only [List.length_append]
              omega
            have hlen : toInt ((front.length : ℤ) + (text ++ (oldStr ++ back)).length
                + (k - oldStr.length))
                = ((front ++ text ++ newStr.take k).length : ℤ) + back.length := by
              simp only [List.length_append, hnew] at hroom ⊢
              rw [toInt_of_range (by omega) (by omega)]
              omega
            have hfront : ((front ++ text ++ newStr.take k).length : ℤ)
                = (front ++ text).length + k := by
              rw [List.length_append, hnew, Nat.cast_add]
            have hnext := findAt_eq _ hback hbytes oldStr
            have hagain := hloop fuel (Nat.le_of_succ_le_succ hfuel)
            rw [hnew] at hmove
            rw [hfront] at hnext hlen hagain
            rw [Option.map_some, hptr, replaceLoop, hold, hk, hread, ok_bind,
              hmove, ok_bind, if_neg (by omega), Int.toNat_natCast, hcopy, ok_bind, hnext,
              ok_bind, hlen, hagain, hall]
            refine congrArg (fun len => Except.ok (b', len)) ?_
            simp only [List.length_append]
            omega
          · rw [hend, hall]
            simp only [List.append_assoc]

end

/-! ## The replacement -/

/-- A text whose bytes are those of a text and of a new text is a text. -/
theorem isText_replaceAll {oldStr newStr text : List UInt8} (hnew : IsText newStr)
    (htext : IsText text) : IsText (replaceAll oldStr newStr text) := by
  have hfrom : ∀ skip, IsText (replaceFrom oldStr newStr skip text) := by
    induction text with
    | nil =>
        intro skip
        unfold replaceFrom
        exact htext
    | cons c text ih =>
        have hrest : IsText text := fun hmem => htext (List.mem_cons_of_mem c hmem)
        intro skip
        cases skip with
        | zero =>
            rw [replaceFrom]
            split
            · exact isText_append.mpr ⟨hnew, ih hrest _⟩
            · intro hmem
              obtain h0 | hmem := List.mem_cons.mp hmem
              · exact htext (h0 ▸ List.mem_cons_self)
              · exact ih hrest 0 hmem
        | succ skip =>
            rw [replaceFrom]
            exact ih hrest skip
  exact hfrom 0

section
variable (fresh : (n : ℕ) → Block n) {s : DmString} {text : List UInt8}

/-- The copy that `dm_str_replace` works on, and the first search in it. -/
theorem DmString.Holds.replace_start (h : s.Holds text) :
    ∃ b : Block (text.length + 1), b.bytes = text ++ [0] ∧
      ∀ fuel oldStr newStr, dmStrReplace fresh fuel s oldStr newStr = (do
        let (str, len) ← replaceLoop oldStr newStr fuel b text.length
          ((strstr text oldStr).map fun found => (text.length : ℤ) - found.length)
        .ok ⟨text.length + 1, str, len⟩) := by
  obtain ⟨b, hrun, hbytes⟩ := dmStr_eq fresh text h.room
  refine ⟨b, hbytes, fun fuel oldStr newStr => ?_⟩
  have hfind := findAt_eq [] h.isText hbytes oldStr
  simp only [List.length_nil, Nat.cast_zero, zero_add] at hfind
  unfold dmStrReplace
  rw [h.readAt_eq, ok_bind, hrun, ok_bind, hfind, ok_bind]

/-- With a new text that is no longer than the old one, the loop ends with every occurrence
replaced. -/
theorem DmString.Holds.replace (h : s.Holds text) {oldStr newStr : List UInt8}
    (hne : oldStr ≠ []) {k : ℕ} (hk : strstr text oldStr ≠ none → toInt newStr.length = k)
    (hknew : k ≤ newStr.length) (hkold : k ≤ oldStr.length) (hnew : IsText newStr) :
    ∃ r, (∀ fuel > text.length, dmStrReplace fresh fuel s oldStr newStr = .ok r) ∧
      r.Holds (replaceAll oldStr (newStr.take k) text) := by
  obtain ⟨b, hbytes, hrun⟩ := h.replace_start fresh
  have htext : IsText (replaceAll oldStr (newStr.take k) text) :=
    isText_replaceAll (fun hmem => hnew (List.mem_of_mem_take hmem)) h.isText
  have hloop : ∃ b' junk', (∀ fuel > text.length, replaceLoop oldStr newStr fuel b text.length
      ((strstr text oldStr).map fun found => (text.length : ℤ) - found.length)
      = .ok (b', (replaceAll oldStr (newStr.take k) text).length)) ∧
      b'.bytes = replaceAll oldStr (newStr.take k) text ++ 0 :: junk' := by
    by_cases hnone : strstr text oldStr = none
    · refine ⟨b, [], fun fuel hfuel => ?_, ?_⟩
      · obtain ⟨fuel, rfl⟩ := Nat.exists_eq_succ_of_ne_zero (show fuel ≠ 0 by omega)
        rw [hnone, replaceAll_of_none hnone]
        rfl
      · rw [replaceAll_of_none hnone, hbytes]
    · have hroom := h.room
      obtain ⟨b', junk', hloop, hend⟩ := replaceLoop_eq hne (hk hnone) hknew hkold [] h.isText
        hbytes (Nat.lt_succ_self _) (by rw [List.length_nil]; omega)
      simp only [List.length_nil, Nat.cast_zero, zero_add] at hloop
      exact ⟨b', junk', hloop, hend⟩
  obtain ⟨b', junk', hloop, hbytes'⟩ := hloop
  have hroom := congrArg List.length hbytes'
  rw [b'.length_bytes, List.length_append, List.length_cons] at hroom
  refine ⟨⟨text.length + 1, b', (replaceAll oldStr (newStr.take k) text).length⟩, ?_,
    readStr_append [] htext hbytes', rfl, ?_⟩
  · intro fuel hfuel
    rw [hrun, hloop fuel hfuel, ok_bind]
  · have := h.room
    omega

/-- What occurs in a text is no longer than the text. -/
theorem length_le_of_strstr {hay needle : List UInt8} (hne : needle ≠ [])
    (h : strstr hay needle ≠ none) : needle.length ≤ hay.length := by
  obtain ⟨rest, hrest⟩ := Option.ne_none_iff_exists'.mp h
  obtain ⟨front, rfl, hfirst⟩ := (strstr_eq_some_iff hne).mp hrest
  rw [List.length_append]
  exact hfirst.here.length_le.trans (Nat.le_add_left _ _)

/-- The lengths of the texts are the `int`s of the source, when the old text occurs. -/
theorem DmString.Holds.replace_short (h : s.Holds text) {oldStr newStr : List UInt8}
    (hne : oldStr ≠ []) (hle : newStr.length ≤ oldStr.length) (hnew : IsText newStr) :
    ∃ r, (∀ fuel > text.length, dmStrReplace fresh fuel s oldStr newStr = .ok r) ∧
      r.Holds (replaceAll oldStr newStr text) := by
  have hk : strstr text oldStr ≠ none → toInt newStr.length = newStr.length := by
    intro hfound
    have hroom := h.room
    have hlen := length_le_of_strstr hne hfound
    exact toInt_of_range (by omega) (by omega)
  have hreplace := h.replace fresh hne hk le_rfl hle hnew
  rwa [List.take_length] at hreplace

/-- `dm_str_replace` with a new text that is no longer than the old one: the loop ends, and the
string that comes back is the text with the new text in the place of the occurrences of the old
one, from left to right. -/
theorem dmStrReplace_eq (hs : dmStr fresh text = .ok s) (htext : IsText text)
    {oldStr newStr : List UInt8} (hne : oldStr ≠ []) (hnew : IsText newStr)
    (hle : newStr.length ≤ oldStr.length) :
    ∃ r, (∀ fuel > text.length, dmStrReplace fresh fuel s oldStr newStr = .ok r) ∧
      r.str.readStr 0 = .ok (replaceAll oldStr newStr text) ∧
      r.len = (replaceAll oldStr newStr text).length := by
  have hholds := holds_of_dmStr fresh htext hs
  obtain ⟨r, hrun, hr⟩ := hholds.replace_short fresh hne hle hnew
  exact ⟨r, hrun, hr.str, hr.len⟩

end

/-- `"aaab"` with `"a"` for `"aa"`: the text that was put in is not searched again. -/
theorem dmStrReplace_eq_overlap : ∃ s r, dmStr Block.zero [97, 97, 97, 98] = .ok s ∧
    (∀ fuel > 4, dmStrReplace Block.zero fuel s [97, 97] [97] = .ok r) ∧
    r.str.readStr 0 = .ok [97, 97, 98] ∧ r.len = 3 := by
  obtain ⟨b, hrun, -⟩ := dmStr_eq Block.zero [97, 97, 97, 98] (by decide)
  obtain ⟨r, hr⟩ := dmStrReplace_eq Block.zero hrun (by decide) (List.cons_ne_nil _ _)
    (by decide) (show ([97] : List UInt8).length ≤ ([97, 97] : List UInt8).length by decide)
  exact ⟨_, r, hrun, hr⟩

theorem dmStrReplace_mono {fresh : (n : ℕ) → Block n} {s r : DmString}
    {oldStr newStr : List UInt8} {fuel more : ℕ} (hle : fuel ≤ more)
    (h : dmStrReplace fresh fuel s oldStr newStr = .ok r) :
    dmStrReplace fresh more s oldStr newStr = .ok r := by
  unfold dmStrReplace at h ⊢
  obtain ⟨text, hread, h⟩ := exists_of_bind h
  obtain ⟨copy, hcopy, h⟩ := exists_of_bind h
  obtain ⟨ptr, hfind, h⟩ := exists_of_bind h
  obtain ⟨p, hloop, h⟩ := exists_of_bind h
  rw [hread, ok_bind, hcopy, ok_bind, hfind, ok_bind, replaceLoop_mono hle hloop]
  exact h

/-! ## When the replacement stays in the memory -/

section
variable {n : ℕ} {b : Block n}

/-- A new text that is longer than the old one, or whose length is no `int`: the first round
leaves the memory. -/
theorem replaceLoop_fault (front : List UInt8) {oldStr newStr back : List UInt8}
    (hback : IsText back) (h : b.bytes = front ++ (oldStr ++ (back ++ [0])))
    (hold : toInt oldStr.length = oldStr.length)
    (hnew : ¬(0 ≤ toInt newStr.length ∧ toInt newStr.length ≤ oldStr.length)) (fuel : ℕ) (len : ℤ)
    (r : Block n × ℤ) :
    replaceLoop oldStr newStr fuel b len (some (front.length : ℤ)) ≠ .ok r := by
  cases fuel with
  | zero => exact nofun
  | succ fuel =>
      have hread : readAt b ((front.length : ℤ) + oldStr.length) = .ok back := by
        rw [← Nat.cast_add, ← List.length_append]
        exact readAt_append (front ++ oldStr) hback (by rw [h, List.append_assoc])
      have hsize := congrArg List.length h
      simp only [b.length_bytes, List.length_append, List.length_singleton] at hsize
      intro hrun
      rw [replaceLoop, hold, hread, ok_bind] at hrun
      obtain ⟨b₁, hmove, hrest⟩ := exists_of_bind hrun
      unfold writeAt at hmove
      split at hmove
      · have hle := (Block.poke_eq_ok_iff.mp hmove).1
        rw [List.length_append, List.length_singleton] at hle
        rw [if_pos (by omega)] at hrest
        cases hrest
      · cases hmove

/-- An empty text is found at once. -/
theorem strstr_nil (text : List UInt8) : strstr text [] = some text := by
  cases text with
  | nil => rfl
  | cons c text => rfl

/-- An empty text in the place of an empty text: the same place is found again and again. -/
theorem replaceLoop_endless {newStr text junk : List UInt8} (htext : IsText text)
    (h : b.bytes = text ++ 0 :: junk) (hnew : toInt newStr.length = 0) (fuel : ℕ) (len : ℤ) :
    replaceLoop [] newStr fuel b len (some 0) = .error .loop := by
  induction fuel generalizing b junk len with
  | zero => rfl
  | succ fuel ih =>
      obtain ⟨b₁, b₂, junk₂, hread, hmove, hcopy, hbytes⟩ :=
        replaceRound_eq [] [] [] htext h le_rfl
      have hfind := findAt_eq [] htext hbytes []
      simp only [List.length_nil, Nat.cast_zero, zero_add, strstr_nil, Option.map_some, sub_self]
        at hread hmove hcopy hfind
      have hold : toInt (([] : List UInt8).length : ℤ) = 0 := by decide
      rw [replaceLoop, hnew, hold, add_zero, hread, ok_bind, hmove, ok_bind,
        if_neg (by decide), Int.toNat_zero, List.take_zero, hcopy, ok_bind, hfind, ok_bind]
      exact ih hbytes _

end

section
variable (fresh : (n : ℕ) → Block n) {s : DmString} {text : List UInt8}

/-- With an empty old text the loop makes no progress, or leaves the memory. -/
theorem DmString.Holds.replace_empty (h : s.Holds text) (newStr : List UInt8) (fuel : ℕ)
    (r : DmString) : dmStrReplace fresh fuel s [] newStr ≠ .ok r := by
  obtain ⟨b, hbytes, hrun⟩ := h.replace_start fresh
  intro hr
  rw [hrun, strstr_nil, Option.map_some, sub_self] at hr
  obtain ⟨p, hloop, -⟩ := exists_of_bind hr
  by_cases hzero : toInt newStr.length = 0
  · rw [replaceLoop_endless h.isText hbytes hzero] at hloop
    cases hloop
  · have hnot : ¬(0 ≤ toInt newStr.length ∧
        toInt newStr.length ≤ (([] : List UInt8).length : ℤ)) := by
      rw [List.length_nil]
      omega
    exact replaceLoop_fault [] h.isText hbytes (by decide) hnot fuel _ _ hloop

/-- With a new text that is too long, the first occurrence leads out of the memory. -/
theorem DmString.Holds.replace_outside (h : s.Holds text) {oldStr newStr : List UInt8}
    (hne : oldStr ≠ []) (hfound : strstr text oldStr ≠ none)
    (hnot : ¬(0 ≤ toInt newStr.length ∧ toInt newStr.length ≤ oldStr.length)) (fuel : ℕ)
    (r : DmString) : dmStrReplace fresh fuel s oldStr newStr ≠ .ok r := by
  obtain ⟨b, hbytes, hrun⟩ := h.replace_start fresh
  have hroom := h.room
  have hlen := length_le_of_strstr hne hfound
  obtain ⟨rest, hrest⟩ := Option.ne_none_iff_exists'.mp hfound
  obtain ⟨front, rfl, hfirst⟩ := (strstr_eq_some_iff hne).mp hrest
  obtain ⟨back, rfl⟩ := hfirst.here
  have hback : IsText back := (isText_append.mp (isText_append.mp h.isText).2).2
  have hptr : ((front ++ (oldStr ++ back)).length : ℤ) - (oldStr ++ back).length
      = front.length := by
    simp only [List.length_append]
    omega
  have hmem : b.bytes = front ++ (oldStr ++ (back ++ [0])) := by
    rw [hbytes]
    simp only [List.append_assoc]
  intro hr
  rw [hrun, hrest, Option.map_some, hptr] at hr
  obtain ⟨p, hloop, -⟩ := exists_of_bind hr
  exact replaceLoop_fault front hback hmem (toInt_of_range (by omega) (by omega)) hnot fuel _ _
    hloop

/-- `dm_str_replace` comes to an end inside the memory of the copy exactly when the old text is
not empty and, if it occurs, the length of the new one is an `int` that is no greater. -/
theorem replacesInside_iff (h : s.Holds text) {oldStr newStr : List UInt8} (hnew : IsText newStr) :
    (∃ fuel r, dmStrReplace fresh fuel s oldStr newStr = .ok r) ↔
      oldStr ≠ [] ∧ (strstr text oldStr ≠ none →
        0 ≤ toInt newStr.length ∧ toInt newStr.length ≤ oldStr.length) := by
  constructor
  · rintro ⟨fuel, r, hr⟩
    have hne : oldStr ≠ [] := by
      rintro rfl
      exact h.replace_empty fresh newStr fuel r hr
    refine ⟨hne, fun hfound => ?_⟩
    by_contra hnot
    exact h.replace_outside fresh hne hfound hnot fuel r hr
  · rintro ⟨hne, hlen⟩
    by_cases hfound : strstr text oldStr = none
    · obtain ⟨r, hr, -⟩ := h.replace fresh hne (absurd hfound) (Nat.zero_le _) (Nat.zero_le _) hnew
      exact ⟨_, r, hr _ (Nat.lt_succ_self _)⟩
    · obtain ⟨hlow, hhigh⟩ := hlen hfound
      have hint : toInt newStr.length ≤ newStr.length := by
        unfold toInt
        rw [Int.bmod_def]
        norm_num
        split <;> omega
      obtain ⟨r, hr, -⟩ := h.replace fresh hne (fun _ => (Int.toNat_of_nonneg hlow).symm)
        (by omega) (by omega) hnew
      exact ⟨_, r, hr _ (Nat.lt_succ_self _)⟩

end

/-- `"a"` with `"bb"` for `"a"` leaves the two bytes of the copy, and with `""` for `""` the loop
never ends. -/
theorem not_replacesInside : ∃ s, dmStr Block.zero [97] = .ok s ∧
    (∀ fuel r, dmStrReplace Block.zero fuel s [97] [98, 98] ≠ .ok r) ∧
    ∀ fuel r, dmStrReplace Block.zero fuel s [] [] ≠ .ok r := by
  obtain ⟨b₀, hmake, -⟩ := dmStr_eq Block.zero [97] (by decide)
  have hholds := holds_of_dmStr Block.zero (by decide) hmake
  have hne : ([97] : List UInt8) ≠ [] := List.cons_ne_nil _ _
  exact ⟨_, hmake, hholds.replace_outside Block.zero hne (by decide) (by decide),
    hholds.replace_empty Block.zero []⟩

theorem replacesInside_iff_letter : ∃ s, dmStr Block.zero [97] = .ok s ∧
    ((∃ fuel r, dmStrReplace Block.zero fuel s [97] [98] = .ok r) ↔
      ([97] : List UInt8) ≠ [] ∧ (strstr [97] [97] ≠ none →
        0 ≤ toInt (([98] : List UInt8).length : ℤ) ∧
          toInt (([98] : List UInt8).length : ℤ) ≤ (([97] : List UInt8).length : ℤ))) := by
  obtain ⟨b, hmake, -⟩ := dmStr_eq Block.zero [97] (by decide)
  exact ⟨_, hmake,
    replacesInside_iff Block.zero (holds_of_dmStr Block.zero (by decide) hmake) (by decide)⟩

/-! ## Strings made of strings -/

/-- The strings that the functions make, of texts and of each other; `malloc` gives each of them
memory of its own. -/
inductive Built : DmString → Prop
  | str {fresh : (n : ℕ) → Block n} {text : List UInt8} {r : DmString} (htext : IsText text)
      (hr : dmStr fresh text = .ok r) : Built r
  | cat {fresh : (n : ℕ) → Block n} {s₁ s₂ r : DmString} (h₁ : Built s₁) (h₂ : Built s₂)
      (hr : dmStrCat fresh s₁ s₂ = .ok r) : Built r
  | rev {fresh : (n : ℕ) → Block n} {s r : DmString} (h : Built s)
      (hr : dmStrRev fresh s = .ok r) : Built r
  | up {fresh : (n : ℕ) → Block n} {s r : DmString} (h : Built s)
      (hr : dmStrUp fresh s = .ok r) : Built r
  | low {fresh : (n : ℕ) → Block n} {s r : DmString} (h : Built s)
      (hr : dmStrLow fresh s = .ok r) : Built r
  | trim {fresh : (n : ℕ) → Block n} {s r : DmString} (h : Built s)
      (hr : dmStrTrim fresh s = .ok r) : Built r
  | sub {fresh : (n : ℕ) → Block n} {s r : DmString} {start end_ : ℤ} (h : Built s)
      (hstart : 0 ≤ start) (hle : start ≤ end_) (hend : end_ < s.len)
      (hr : dmStrSub fresh s start end_ = .ok r) : Built r
  | tostr {fresh : (n : ℕ) → Block n} {num : ℤ} {r : DmString} (hlow : -2 ^ 31 ≤ num)
      (hhigh : num < 2 ^ 31) (hr : dmStrTostr fresh num = .ok r) : Built r
  | replace {fresh : (n : ℕ) → Block n} {fuel : ℕ} {s r : DmString} {oldStr newStr : List UInt8}
      (h : Built s) (hne : oldStr ≠ []) (hnew : IsText newStr)
      (hle : newStr.length ≤ oldStr.length)
      (hr : dmStrReplace fresh fuel s oldStr newStr = .ok r) : Built r

/-- What a function is known to return is what it has returned. -/
theorem holds_of_eq {run : Except Fault DmString} {r : DmString} {text : List UInt8}
    (hspec : ∃ r', run = .ok r' ∧ r'.Holds text) (hr : run = .ok r) : r.Holds text := by
  obtain ⟨r', hrun, hholds⟩ := hspec
  obtain rfl := Except.ok.inj (hrun.symm.trans hr)
  exact hholds

/-- Every string that is made holds a text. -/
theorem Built.exists_holds {s : DmString} (h : Built s) : ∃ text, s.Holds text := by
  induction h with
  | str htext hr => exact ⟨_, holds_of_dmStr _ htext hr⟩
  | cat _ _ hr ih₁ ih₂ =>
      obtain ⟨t₁, h₁⟩ := ih₁
      obtain ⟨t₂, h₂⟩ := ih₂
      exact ⟨t₁ ++ t₂, h₁.cat _ h₂ hr⟩
  | rev _ hr ih =>
      obtain ⟨text, hs⟩ := ih
      exact ⟨_, holds_of_eq (hs.rev _) hr⟩
  | up _ hr ih =>
      obtain ⟨text, hs⟩ := ih
      exact ⟨_, holds_of_eq (hs.up _) hr⟩
  | low _ hr ih =>
      obtain ⟨text, hs⟩ := ih
      exact ⟨_, holds_of_eq (hs.low _) hr⟩
  | trim _ hr ih =>
      obtain ⟨text, hs⟩ := ih
      exact ⟨_, holds_of_eq (hs.trim _) hr⟩
  | @sub fresh s r start end_ _ hstart hle hend hr ih =>
      obtain ⟨text, hs⟩ := ih
      rw [hs.len] at hend
      lift start to ℕ using hstart
      obtain ⟨stop, hstop⟩ : ∃ stop : ℕ, (stop : ℤ) = end_ + 1 := ⟨(end_ + 1).toNat, by omega⟩
      have hstart : start ≤ stop := by omega
      have hroom : stop ≤ text.length := by omega
      have hsub := hs.sub fresh hstart hroom
      rw [hstop, add_sub_cancel_right] at hsub
      exact ⟨_, holds_of_eq hsub hr⟩
  | tostr hlow hhigh hr => exact ⟨_, holds_of_eq (exists_dmStrTostr _ hlow hhigh) hr⟩
  | @replace fresh fuel s r oldStr newStr _ hne hnew hle hr ih =>
      obtain ⟨text, hs⟩ := ih
      obtain ⟨r', hrun, hr'⟩ := hs.replace_short fresh hne hle hnew
      -- the run that has ended and the one that is known to end share a number of rounds
      have hmore := dmStrReplace_mono (Nat.le_max_left fuel (text.length + 1)) hr
      exact ⟨_, holds_of_eq ⟨r', hrun _ (Nat.le_max_right fuel (text.length + 1)), hr'⟩ hmore⟩

/-- The length of every string is that of its text, and `dm_str_trim` of it is the text without
the spaces in front and behind. -/
theorem dmString_len {s : DmString} (h : Built s) (fresh : (n : ℕ) → Block n) :
    ∃ text, s.str.readStr 0 = .ok text ∧ s.len = text.length ∧
      ∃ t, dmStrTrim fresh s = .ok t ∧
        t.str.readStr 0
          = .ok ((text.dropWhile (· = Ascii.space)).rdropWhile (· = Ascii.space)) := by
  obtain ⟨text, hs⟩ := h.exists_holds
  obtain ⟨t, htrim, ht⟩ := hs.trim fresh
  exact ⟨text, hs.str, hs.len, t, htrim, ht.str⟩

/-- A text made upper case, turned round and trimmed. -/
theorem dmString_len_revUp : ∃ s₁ s₂ s, dmStr Block.zero (bytes " ab") = .ok s₁ ∧
    dmStrUp Block.zero s₁ = .ok s₂ ∧ dmStrRev Block.zero s₂ = .ok s ∧ s.len = 3 ∧
      ∃ t, dmStrTrim Block.zero s = .ok t ∧ t.str.readStr 0 = .ok (bytes "BA") := by
  obtain ⟨b, hmake, -⟩ := dmStr_eq Block.zero (bytes " ab") (by decide)
  have htext : IsText (bytes " ab") := by decide
  have hholds := holds_of_dmStr Block.zero htext hmake
  obtain ⟨s₂, hup, hholds₂⟩ := hholds.up Block.zero
  obtain ⟨s, hrev, hholds₃⟩ := hholds₂.rev Block.zero
  obtain ⟨text, htext', hlen, t, htrim, hread⟩ :=
    dmString_len (.rev (.up (.str htext hmake) hup) hrev) Block.zero
  rw [hholds₃.str] at htext'
  cases htext'
  exact ⟨_, s₂, s, hmake, hup, hrev, hlen, t, htrim, hread⟩

