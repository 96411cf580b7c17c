/-
# C memory: byte strings, bounded objects, and the ways of leaving them

A library about the memory a C program sees, with nothing of any particular
program in it:

* `Fault` names the ways a run leaves the language (a read or a write past the
  end of an object, a pointer followed that leads nowhere, a loop without an end);
* `cstr`, `strstr`, `atoi` are the string functions on byte lists, and `FirstAt` is the first
  place in a memory where something stands;
* `arrayAt` reads an array at an index, and a loop over the indices is a loop over the
  entries;
* `mallocCopy` is a copy of a string to a block of its length, which has no place for the NUL;
  whether it is written outside of the block is a question of the allocator (`SpareByte`);
* `Block n` is an object of exactly `n` bytes, the size carried by the type, and
  `Block.strcpy`, `Block.strcat` write into it at an offset or fault.

The laws of `Block` say what each offset reads after a write: the written text
at the place of the write, the old text above it and below it.
-/
import Mathlib.Data.List.TakeWhile
import Mathlib.Data.List.TakeDrop
import Mathlib.Tactic

namespace CMem

/-- The ways a run can leave the C language. -/
inductive Fault : Type where
  /-- A read past the end of the memory at hand. -/
  | read : Fault
  /-- A write past the end of an object. -/
  | write : Fault
  /-- A `NULL` pointer followed. -/
  | null : Fault
  /-- A pointer followed that was never set; the address it happens to hold. -/
  | wild : UInt64 → Fault
  /-- A negative count handed to `memset` or `memcpy`. -/
  | size : Fault
  /-- A pointer handed to `free` that `malloc` did not return. -/
  | free : Fault
  /-- A loop that is never left. -/
  | loop : Fault
  deriving DecidableEq, Repr

/-- A pointer: an object, or an address with nothing known behind it.  `NULL` is
the address `0`; what `malloc` leaves in a pointer field is any address. -/
inductive Ptr (α : Type) : Type where
  /-- An address that was never made to point anywhere. -/
  | addr : UInt64 → Ptr α
  /-- A pointer to an object. -/
  | obj : α → Ptr α
  deriving DecidableEq

/-- `NULL`. -/
def Ptr.null {α : Type} : Ptr α := .addr 0

/-- Follow a pointer. -/
def Ptr.deref {α : Type} : Ptr α → Except Fault α
  | .addr a => .error (if a = 0 then .null else .wild a)
  | .obj x => .ok x

/-- A run that did not fault goes on with its value. -/
@[simp] theorem ok_bind {α β : Type} (a : α) (k : α → Except Fault β) :
    (Except.ok a >>= k) = k a := rfl

/-- A fault ends the run. -/
@[simp] theorem error_bind {α β : Type} (e : Fault) (k : α → Except Fault β) :
    (Except.error e >>= k) = .error e := rfl

@[simp] theorem ok_map {α β : Type} (a : α) (g : α → β) :
    (Except.ok a : Except Fault α).map g = .ok (g a) := rfl

@[simp] theorem error_map {α β : Type} (e : Fault) (g : α → β) :
    (Except.error e : Except Fault α).map g = .error e := rfl

theorem map_bind {α β γ : Type} (x : Except Fault α) (g : α → β) (k : β → Except Fault γ) :
    (x.map g >>= k) = x >>= fun a => k (g a) := by
  cases x <;> rfl

/-- A run that comes to its end has come to the end of its first part. -/
theorem exists_of_bind {α β : Type} {x : Except Fault α} {k : α → Except Fault β} {b : β}
    (h : x >>= k = .ok b) : ∃ a, x = .ok a ∧ k a = .ok b := by
  cases x with
  | error e => cases h
  | ok a => exact ⟨a, rfl, h⟩

theorem exists_of_map {α β : Type} {x : Except Fault α} {g : α → β} {b : β}
    (h : x.map g = .ok b) : ∃ a, x = .ok a ∧ g a = b := by
  cases x with
  | error e => cases h
  | ok a => exact ⟨a, rfl, Except.ok.inj h⟩

/-! ## Arrays -/

/-- `a[i]`, for an index that need not be in the array. -/
def arrayAt {α : Type} (a : List α) (i : ℕ) : Except Fault α :=
  match a[i]? with
  | some x => .ok x
  | none => .error .read

theorem arrayAt_append {α : Type} (a : List α) (x : α) (b : List α) :
    arrayAt (a ++ x :: b) a.length = .ok x := by
  unfold arrayAt
  rw [List.getElem?_append_right le_rfl, Nat.sub_self]
  rfl

/-- A loop over the indices from `a.length` on goes over the rest of the array. -/
theorem foldlM_range' {α β : Type} (step : β → α → Except Fault β) (a b : List α) (s : β) :
    (List.range' a.length b.length).foldlM
        (fun s i => arrayAt (a ++ b) i >>= fun x => step s x) s = b.foldlM step s := by
  induction b generalizing a s with
  | nil => rfl
  | cons x b ih =>
      rw [List.length_cons, List.range'_succ, List.foldlM_cons, List.foldlM_cons,
        arrayAt_append, ok_bind]
      congr 1
      funext s
      have hrest := ih (a ++ [x]) s
      rwa [List.length_append, List.length_singleton, List.append_assoc,
        List.singleton_append] at hrest

/-- A loop over all the indices of an array goes over its entries. -/
theorem foldlM_range {α β : Type} (step : β → α → Except Fault β) (a : List α) (s : β) :
    (List.range a.length).foldlM (fun s i => arrayAt a i >>= fun x => step s x) s
      = a.foldlM step s := by
  rw [List.range_eq_range']
  exact foldlM_range' step [] a s

/-- Two loops that do the same as long as an invariant holds. -/
theorem foldlM_congr {α β : Type} (step step' : β → α → Except Fault β) (Inv : β → Prop)
    (heq : ∀ s x, Inv s → step s x = step' s x)
    (hstep : ∀ s x s', Inv s → step' s x = .ok s' → Inv s') (a : List α) {s : β} (hs : Inv s) :
    a.foldlM step s = a.foldlM step' s := by
  induction a generalizing s with
  | nil => rfl
  | cons x a ih =>
      rw [List.foldlM_cons, List.foldlM_cons, heq s x hs]
      cases hx : step' s x with
      | error e => rfl
      | ok s' => exact ih (hstep s x s' hs hx)

/-- A loop that acts on the entries with one key, when no two have the same, acts once. -/
theorem foldlM_key {α β κ : Type} [DecidableEq κ] (key : α → κ) (k : κ)
    (act : β → α → Except Fault β) {a : List α} (hkeys : (a.map key).Nodup) (s : β) :
    a.foldlM (fun s x => if key x = k then act s x else .ok s) s
      = (a.find? (key · = k)).elim (.ok s) (act s) := by
  induction a generalizing s with
  | nil => rfl
  | cons x a ih =>
      rw [List.map_cons, List.nodup_cons] at hkeys
      by_cases hx : key x = k
      · have hnone : a.find? (key · = k) = none := by
          rw [List.find?_eq_none]
          intro y hy hkey
          refine hkeys.1 (List.mem_map.mpr ⟨y, hy, ?_⟩)
          rw [hx]
          exact of_decide_eq_true hkey
        have hrest : (fun s => a.foldlM (fun s x => if key x = k then act s x else .ok s) s)
            = fun s => .ok s := by
          funext s
          rw [ih hkeys.2, hnone, Option.elim_none]
        rw [List.foldlM_cons, if_pos hx, hrest, List.find?_cons_of_pos (by simpa using hx)]
        rw [Option.elim_some]
        cases act s x <;> rfl
      · rw [List.foldlM_cons, if_neg hx, ok_bind, ih hkeys.2,
          List.find?_cons_of_neg (by simpa using hx)]

/-- The bytes of an ASCII string literal, without the terminating NUL. -/
def bytes (s : String) : List UInt8 := s.toList.map fun c => UInt8.ofNat c.toNat

/-! ## Characters -/

namespace Ascii

/-- The line feed, and the other characters the parsers look for. -/
abbrev lf : UInt8 := 10
@[inherit_doc lf] abbrev cr : UInt8 := 13
@[inherit_doc lf] abbrev space : UInt8 := 32
@[inherit_doc lf] abbrev quote : UInt8 := 34
@[inherit_doc lf] abbrev amp : UInt8 := 38
@[inherit_doc lf] abbrev dash : UInt8 := 45
@[inherit_doc lf] abbrev slash : UInt8 := 47
@[inherit_doc lf] abbrev colon : UInt8 := 58
@[inherit_doc lf] abbrev semicolon : UInt8 := 59
@[inherit_doc lf] abbrev equals : UInt8 := 61
@[inherit_doc lf] abbrev question : UInt8 := 63

/-- `c >= 'A' && c <= 'Z'`. -/
def isUpper (c : UInt8) : Bool := 65 ≤ c && c ≤ 90

end Ascii

/-- `*(p+1)`, where `rest` is the memory behind `*p`. -/
def peek (rest : List UInt8) : Except Fault UInt8 :=
  match rest with
  | [] => .error .read
  | d :: _ => .ok d

/-- `*p == a && *(p+1) == b`: the second byte is read only behind the first. -/
def pairAt (a b c : UInt8) (rest : List UInt8) : Except Fault Bool :=
  if c = a then (peek rest).map (· == b) else .ok false

/-! ## Byte strings -/

/-- A text has no NUL in it, so that it can be the value of a C string. -/
def IsText (s : List UInt8) : Prop := (0 : UInt8) ∉ s

instance (s : List UInt8) : Decidable (IsText s) := inferInstanceAs (Decidable ((0 : UInt8) ∉ s))

/-- What holds of every byte of a string is decided along the string, not over all bytes. -/
instance (priority := 2000) decidableForallByte (s : List UInt8) (p : UInt8 → Prop)
    [DecidablePred p] :
    Decidable (∀ c ∈ s, p c) :=
  List.decidableBAll p s

/-- The C string a pointer to the first byte of `l` stands for. -/
def cstr (l : List UInt8) : List UInt8 := l.takeWhile (· ≠ 0)

theorem isText_append {s t : List UInt8} : IsText (s ++ t) ↔ IsText s ∧ IsText t := by
  simp [IsText]

theorem IsText.drop {s : List UInt8} (h : IsText s) (k : ℕ) : IsText (s.drop k) :=
  fun hm => h (List.mem_of_mem_drop hm)

theorem isText_cstr (l : List UInt8) : IsText (cstr l) := by
  intro h
  have := List.mem_takeWhile_imp h
  simp at this

/-- A text in front of anything is read through. -/
theorem cstr_append {s : List UInt8} (hs : IsText s) (l : List UInt8) :
    cstr (s ++ l) = s ++ cstr l := by
  unfold cstr
  rw [List.takeWhile_append_of_pos]
  intro c hc
  have hne : c ≠ 0 := fun h0 => hs (h0 ▸ hc)
  simpa using hne

/-- A text is the string of its bytes. -/
theorem IsText.cstr_eq {s : List UInt8} (hs : IsText s) : cstr s = s := by
  have happend := cstr_append hs []
  rwa [List.append_nil, show cstr [] = [] from rfl, List.append_nil] at happend

@[simp] theorem cstr_zero (l : List UInt8) : cstr (0 :: l) = [] := by
  simp [cstr]

/-- A terminated text reads back as itself. -/
theorem cstr_append_zero {s : List UInt8} (hs : IsText s) (l : List UInt8) :
    cstr (s ++ 0 :: l) = s := by
  rw [cstr_append hs, cstr_zero, List.append_nil]

/-- One more byte of an array is read, behind what is the beginning of its text: the text
ends there, or goes on with it. -/
theorem cstr_of_arrayAt {l res : List UInt8} {c : UInt8} (h : res <+: cstr l)
    (hc : arrayAt l res.length = .ok c) : if c = 0 then cstr l = res else res ++ [c] <+: cstr l := by
  obtain ⟨t, ht⟩ := h
  have hl : l = res ++ (t ++ l.dropWhile (· ≠ 0)) := by
    rw [← List.append_assoc, ht]
    exact List.takeWhile_append_dropWhile.symm
  cases t with
  | nil =>
      -- the text is what has been read, and what follows it is no part of it
      rw [List.append_nil] at ht
      cases hrest : l.dropWhile (· ≠ 0) with
      | nil =>
          rw [hrest, List.append_nil, List.append_nil] at hl
          unfold arrayAt at hc
          rw [List.getElem?_eq_none (le_of_eq (congrArg List.length hl))] at hc
          cases hc
      | cons d rest =>
          rw [hrest, List.nil_append] at hl
          rw [hl, arrayAt_append] at hc
          cases hc
          have hd := List.head_dropWhile_not (p := fun c : UInt8 => decide (c ≠ 0)) (l := l)
            (by rw [hrest]; exact List.cons_ne_nil _ _)
          simp only [hrest, List.head_cons] at hd
          rw [if_pos (by simpa using hd), ht]
  | cons d t =>
      rw [hl, List.cons_append, arrayAt_append] at hc
      cases hc
      have hd : c ∈ cstr l := by
        rw [← ht]
        simp
      have hne : c ≠ 0 := by
        rintro rfl
        exact isText_cstr l hd
      rw [if_neg hne, ← ht]
      exact ⟨t, by simp⟩

/-- A list with a NUL in it splits into its text and what follows. -/
theorem exists_eq_cstr_append {l : List UInt8} (h : (0 : UInt8) ∈ l) :
    ∃ rest, l = cstr l ++ 0 :: rest := by
  induction l with
  | nil => simp at h
  | cons c l ih =>
      by_cases hc : c = 0
      · exact ⟨l, by simp [hc]⟩
      · obtain ⟨rest, hrest⟩ := ih (by simpa [Ne.symm hc] using h)
        refine ⟨rest, ?_⟩
        have hcons : cstr (c :: l) = c :: cstr l := by simp [cstr, hc]
        rw [hcons, List.cons_append, ← hrest]

/-- `strcmp(s, p) == 0`, for the memory from `p` on: no byte is read behind the first difference. -/
def strcmpZero : List UInt8 → List UInt8 → Except Fault Bool
  | _, [] => .error .read
  | [], c :: _ => .ok (c = 0)
  | d :: s, c :: mem => if c = d ∧ c ≠ 0 then strcmpZero s mem else .ok false

/-- Compared with a string that has an end. -/
theorem strcmpZero_eq {mem : List UInt8} (h : (0 : UInt8) ∈ mem) (s : List UInt8) :
    strcmpZero s mem = .ok (s = cstr mem) := by
  induction mem generalizing s with
  | nil => exact absurd h List.not_mem_nil
  | cons c mem ih =>
      by_cases hc : c = 0
      · subst hc
        cases s <;> simp [strcmpZero]
      · have hcons : cstr (c :: mem) = c :: cstr mem := by simp [cstr, hc]
        have hmem : (0 : UInt8) ∈ mem := (List.mem_cons.mp h).resolve_left (Ne.symm hc)
        rw [hcons]
        cases s with
        | nil => simp [strcmpZero, hc]
        | cons d s =>
            rw [strcmpZero]
            by_cases hd : c = d
            · rw [if_pos ⟨hd, hc⟩, ih hmem, hd]
              simp
            · rw [if_neg (fun h => hd h.1)]
              simp [Ne.symm hd]

/-- Compared with bytes that have no end: `s` goes on behind them, or differs before. -/
theorem strcmpZero_cases {mem : List UInt8} (h : IsText mem) (s : List UInt8) :
    (mem <+: s ∧ strcmpZero s mem = .error .read) ∨
    (¬mem <+: s ∧ strcmpZero s mem = .ok false) := by
  induction mem generalizing s with
  | nil => exact Or.inl ⟨List.nil_prefix, by rw [strcmpZero]⟩
  | cons c mem ih =>
      have hc : c ≠ 0 := fun h0 => h (h0 ▸ List.mem_cons_self)
      have hmem : IsText mem := fun h0 => h (List.mem_cons_of_mem c h0)
      cases s with
      | nil => exact Or.inr ⟨by simp, by simp [strcmpZero, hc]⟩
      | cons d s =>
          rw [strcmpZero, List.cons_prefix_cons]
          by_cases hd : c = d
          · rw [if_pos ⟨hd, hc⟩, and_iff_right hd]
            exact ih hmem s
          · rw [if_neg (fun h => hd h.1)]
            exact Or.inr ⟨fun h => hd h.1, rfl⟩

/-- `strstr`: the rest of `hay` from the first occurrence of `needle` on. -/
def strstr (hay needle : List UInt8) : Option (List UInt8) :=
  match hay with
  | [] => if needle = [] then some [] else none
  | c :: hay' =>
      if needle.isPrefixOf (c :: hay') then some (c :: hay') else strstr hay' needle

theorem strstr_cons_of_not_start {needle hay : List UInt8} {c : UInt8}
    (h : ¬needle <+: c :: hay) : strstr (c :: hay) needle = strstr hay needle := by
  rw [strstr, if_neg (by rwa [List.isPrefixOf_iff_prefix])]

theorem strstr_start {needle : List UInt8} (hne : needle ≠ []) (rest : List UInt8) :
    strstr (needle ++ rest) needle = some (needle ++ rest) := by
  obtain ⟨c, needle, rfl⟩ := List.exists_cons_of_ne_nil hne
  rw [List.cons_append, strstr,
    if_pos (by rw [List.isPrefixOf_iff_prefix]; exact List.prefix_append (c :: needle) rest)]

/-- The first occurrence of a needle that does not start in the text in front of it. -/
theorem strstr_append {needle : List UInt8} (hne : needle ≠ []) {front rest : List UInt8}
    (h : ∀ back, back ≠ [] → back <:+ front → ¬needle <+: back ++ (needle ++ rest)) :
    strstr (front ++ (needle ++ rest)) needle = some (needle ++ rest) := by
  induction front with
  | nil => exact strstr_start hne rest
  | cons c front ih =>
      have hhere : ¬needle <+: c :: (front ++ (needle ++ rest)) :=
        h (c :: front) (List.cons_ne_nil _ _) (List.suffix_refl _)
      rw [List.cons_append, strstr_cons_of_not_start hhere]
      exact ih fun back hback hsuffix => h back hback (hsuffix.trans (List.suffix_cons c front))

/-- Where there is an occurrence, the first one is there or before. -/
theorem exists_strstr {needle : List UInt8} (hne : needle ≠ []) (a b : List UInt8) :
    ∃ front rest, strstr (a ++ (needle ++ b)) needle = some (needle ++ rest) ∧
      a ++ (needle ++ b) = front ++ (needle ++ rest) ∧ front.length ≤ a.length := by
  induction a with
  | nil =>
      exact ⟨[], b, strstr_start hne b, rfl, le_rfl⟩
  | cons c a ih =>
      by_cases hhere : needle <+: c :: (a ++ (needle ++ b))
      · obtain ⟨rest, hrest⟩ := hhere
        refine ⟨[], rest, ?_, hrest.symm, Nat.zero_le _⟩
        rw [List.cons_append, ← hrest]
        exact strstr_start hne rest
      · obtain ⟨front, rest, hfound, hsplit, hlen⟩ := ih
        refine ⟨c :: front, rest, ?_, by rw [List.cons_append, hsplit, List.cons_append],
          Nat.succ_le_succ hlen⟩
        rw [List.cons_append, strstr_cons_of_not_start hhere, hfound]

/-- The first occurrence of a character. -/
theorem strstr_singleton {c : UInt8} {front : List UInt8} (h : c ∉ front) (rest : List UInt8) :
    strstr (front ++ c :: rest) [c] = some (c :: rest) := by
  refine strstr_append (List.cons_ne_nil c []) fun back hback hsuffix hpre => ?_
  obtain ⟨d, back, rfl⟩ := List.exists_cons_of_ne_nil hback
  have hmem : d ∈ front := hsuffix.subset List.mem_cons_self
  rw [List.cons_append, List.cons_prefix_cons] at hpre
  exact h (hpre.1 ▸ hmem)

theorem strstr_singleton_eq_none {c : UInt8} {hay : List UInt8} (h : c ∉ hay) :
    strstr hay [c] = none := by
  induction hay with
  | nil => rfl
  | cons d hay ih =>
      rw [List.mem_cons, not_or] at h
      rw [strstr_cons_of_not_start, ih h.2]
      rw [List.cons_prefix_cons]
      exact fun hpre => h.1 hpre.1

/-! ## The first place where something stands -/

/-- `P` holds of the memory `rest`, and of no memory that starts in `text` in front of it. -/
structure FirstAt (P : List UInt8 → Prop) (text rest : List UInt8) : Prop where
  here : P rest
  before : ∀ back, back ≠ [] → back <:+ text → ¬P (back ++ rest)

theorem FirstAt.nil {P : List UInt8 → Prop} {rest : List UInt8} (h : P rest) :
    FirstAt P [] rest :=
  ⟨h, fun _ hne hback => absurd (List.suffix_nil.mp hback) hne⟩

/-- A byte at which it does not stand comes in front. -/
theorem FirstAt.cons {P : List UInt8 → Prop} {c : UInt8} {text rest : List UInt8}
    (h : FirstAt P text rest) (hnot : ¬P (c :: (text ++ rest))) : FirstAt P (c :: text) rest := by
  refine ⟨h.here, fun back hne hback => ?_⟩
  obtain rfl | hlater := List.suffix_cons_iff.mp hback
  · exact hnot
  · exact h.before back hne hlater

/-- Where `P` holds of some rest of a memory, there is a first one. -/
theorem exists_firstAt {P : List UInt8 → Prop} {mem back : List UInt8} (hsuffix : back <:+ mem)
    (hback : P back) : ∃ text rest, mem = text ++ rest ∧ FirstAt P text rest := by
  induction mem with
  | nil =>
      rw [List.suffix_nil] at hsuffix
      subst hsuffix
      exact ⟨[], [], rfl, .nil hback⟩
  | cons c mem ih =>
      by_cases hhere : P (c :: mem)
      · exact ⟨[], c :: mem, rfl, .nil hhere⟩
      · have hlater : back <:+ mem := by
          obtain rfl | h := List.suffix_cons_iff.mp hsuffix
          · exact absurd hback hhere
          · exact h
        obtain ⟨text, rest, rfl, hfirst⟩ := ih hlater
        exact ⟨c :: text, rest, rfl, hfirst.cons hhere⟩

theorem FirstAt.tail {P : List UInt8 → Prop} {c : UInt8} {text rest : List UInt8}
    (h : FirstAt P (c :: text) rest) : FirstAt P text rest :=
  ⟨h.here, fun back hne hback => h.before back hne (hback.trans (List.suffix_cons c text))⟩

theorem FirstAt.not_start {P : List UInt8 → Prop} {c : UInt8} {text rest : List UInt8}
    (h : FirstAt P (c :: text) rest) : ¬P (c :: (text ++ rest)) :=
  h.before (c :: text) (List.cons_ne_nil c text) (List.suffix_refl _)

/-- What stands first behind a text does not stand in it. -/
theorem FirstAt.not_infix {needle text rest : List UInt8} (hne : needle ≠ [])
    (h : FirstAt (needle <+: ·) text rest) : ¬needle <:+: text := by
  rintro ⟨front, behind, rfl⟩
  refine h.before (needle ++ behind) (by simp [hne]) ⟨front, by rw [List.append_assoc]⟩ ?_
  exact (List.prefix_append _ _).trans (List.prefix_append _ _)

/-- A pair of bytes does not stand in the text either, nor with its first byte there. -/
theorem FirstAt.not_pair_infix {P : List UInt8 → Prop} {a b d : UInt8}
    (hpair : ∀ mem, [a, b] <+: mem → P mem) {text rest : List UInt8}
    (h : FirstAt P text (d :: rest)) : ¬[a, b] <:+: text ++ [d] := by
  rintro ⟨front, behind, heq⟩
  have hlen := congrArg List.length heq
  simp only [List.length_append, List.length_cons, List.length_nil] at hlen
  have hdrop := congrArg (List.drop front.length) heq
  rw [List.append_assoc, List.drop_left, List.drop_append_of_le_length (by omega)] at hdrop
  refine h.before (text.drop front.length) ?_ (List.drop_suffix _ _) (hpair _ ⟨behind ++ rest, ?_⟩)
  · intro hnil
    have := congrArg List.length hnil
    rw [List.length_drop, List.length_nil] at this
    omega
  · rw [← List.append_assoc, hdrop, List.append_assoc, List.singleton_append]

/-- `strstr` finds the first place where the needle stands. -/
theorem strstr_eq_some_iff {needle : List UInt8} (hne : needle ≠ []) {hay rest : List UInt8} :
    strstr hay needle = some rest ↔
      ∃ text, hay = text ++ rest ∧ FirstAt (needle <+: ·) text rest := by
  constructor
  · intro h
    induction hay with
    | nil =>
        rw [strstr, if_neg hne] at h
        cases h
    | cons c hay ih =>
        by_cases hhere : needle <+: c :: hay
        · rw [strstr, if_pos (List.isPrefixOf_iff_prefix.mpr hhere)] at h
          cases h
          exact ⟨[], rfl, .nil hhere⟩
        · rw [strstr_cons_of_not_start hhere] at h
          obtain ⟨text, rfl, hfirst⟩ := ih h
          exact ⟨c :: text, rfl, hfirst.cons hhere⟩
  · rintro ⟨text, rfl, hfirst⟩
    obtain ⟨behind, hbehind⟩ := hfirst.here
    rw [← hbehind]
    refine strstr_append hne fun back hback hsuffix => ?_
    rw [hbehind]
    exact hfirst.before back hback hsuffix

/-- `isspace` in the C locale. -/
def isSpace (c : UInt8) : Bool := c = 32 || (9 ≤ c && c ≤ 13)

/-- `isdigit`. -/
def isDigit (c : UInt8) : Bool := 48 ≤ c && c ≤ 57

/-- The value of the leading decimal digits, read after `acc`. -/
def digitsValue : ℤ → List UInt8 → ℤ
  | acc, [] => acc
  | acc, c :: s =>
      if isDigit c then digitsValue (acc * 10 + (c.toNat - 48 : ℤ)) s else acc

/-- A `long` kept in range, as `strtol` keeps it. -/
def clampLong (x : ℤ) : ℤ := max (-2 ^ 63) (min (2 ^ 63 - 1) x)

/-- The conversion of an integer to a 32-bit `int`. -/
def toInt (x : ℤ) : ℤ := x.bmod (2 ^ 32)

/-- `atoi`, the C library's `(int) strtol(s, NULL, 10)`. -/
def atoi (s : List UInt8) : ℤ :=
  match s.dropWhile isSpace with
  | 45 :: s' => toInt (clampLong (-digitsValue 0 s'))
  | 43 :: s' => toInt (clampLong (digitsValue 0 s'))
  | s' => toInt (clampLong (digitsValue 0 s'))

/-- An `int` in range is left alone by the conversion. -/
theorem toInt_of_range {x : ℤ} (h₁ : -2 ^ 31 ≤ x) (h₂ : x < 2 ^ 31) : toInt x = x := by
  unfold toInt
  rw [Int.bmod_eq_of_le]
  · norm_num; omega
  · norm_num; omega

/-! ## Copies on the heap -/

/-- Whether a block that `malloc` returns for `n` bytes has one byte more. -/
abbrev SpareByte := ℕ → Bool

/-- Every block has. -/
def ample : SpareByte := fun _ => true

/-- Chunks of at least 32 bytes, in steps of 16, with a header of eight: those of 24, 40, 56 bytes
and so on are full. -/
def chunkSpare : SpareByte := fun n => n < max 24 ((n + 23) / 16 * 16 - 8)

/-- `p = malloc(strlen(s))` and `strcpy(p, s)`: the NUL goes behind what was asked for. -/
def mallocCopy (spare : SpareByte) (s : List UInt8) : Except Fault (List UInt8) :=
  if spare s.length then .ok s else .error .write

@[simp] theorem mallocCopy_ample (s : List UInt8) : mallocCopy ample s = .ok s := rfl

theorem mallocCopy_eq {spare : SpareByte} {s : List UInt8} (h : spare s.length) :
    mallocCopy spare s = .ok s := if_pos h

theorem mallocCopy_bind {β : Type} (spare : SpareByte) (s : List UInt8)
    (next : List UInt8 → Except Fault β) :
    mallocCopy spare s >>= next = if spare s.length then next s else .error .write := by
  unfold mallocCopy
  split <;> rfl

theorem mallocCopy_eq_ok_iff {spare : SpareByte} {s t : List UInt8} :
    mallocCopy spare s = .ok t ↔ spare s.length ∧ t = s := by
  unfold mallocCopy
  split
  · next h => simp [h, eq_comm]
  · next h => simp [h]

end CMem
