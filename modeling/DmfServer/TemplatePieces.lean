/-
# Templates rendered piece by piece

A template is a sequence of literal texts, variables, function blocks and list blocks,
and its page is meant to be the renderings of the pieces one after the other.
`parse_context` renders every piece in what the pieces before it have left:

* `temp` keeps what a block longer than 64 bytes left behind its first 64 bytes, and a
  block of at least 64 bytes runs into it (`stale`);
* `parsed_str` keeps what the last function wrote and the lists behind it were rendered
  to, and the next list is appended to it;
* a rendering of 1024 bytes or more runs over the end of `parsed_str`, and an inner text
  that begins with `]` closes its block before there is a second `@` in `temp`.

`Clean` says that none of this shows, and `clean_iff` that this is when a piece writes its
rendering.
-/
import DmfServer.Template

open CMem

/-! ## Pieces -/

/-- The pieces of a template. -/
inductive Piece : Type where
  | literal (text : List UInt8)
  /-- `[#name#]`. -/
  | var (name : List UInt8)
  /-- `[@name@inner@]`, where a callback writes the text. -/
  | func (name inner : List UInt8)
  /-- `[@name@before\x7b\x7bitem\x7d\x7dafter@]`. -/
  | list (name before after : List UInt8)

/-- The entry of a name. -/
def lookup (kv : List Kvmap) (name : List UInt8) : Option Kvmap := kv.find? (·.key = name)

/-- The value of a variable. -/
def valueOf (kv : List Kvmap) (name : List UInt8) : List UInt8 :=
  match lookup kv name with
  | some e => if e.type = 1 then e.value else []
  | none => []

/-- The callback of a function block. -/
def functionOf (kv : List Kvmap) (name : List UInt8) : Option (List UInt8 → List UInt8) :=
  match lookup kv name with
  | some e => if e.type = 2 then some e.func else none
  | none => none

/-- The items of a list block. -/
def itemsOf (kv : List Kvmap) (name : List UInt8) : Option (List (List UInt8)) :=
  match lookup kv name with
  | some e => if e.type = 3 then some e.dec else none
  | none => none

namespace Piece

open Template

/-- The inner text of a block. -/
def inner : Piece → List UInt8
  | literal _ => []
  | var _ => []
  | func _ inner => inner
  | list _ before after => before ++ item ++ after

/-- The name of a block. -/
def name : Piece → List UInt8
  | literal _ => []
  | var name => name
  | func name _ => name
  | list name _ _ => name

/-- The text of a piece in the template. -/
def source : Piece → List UInt8
  | literal text => text
  | var name => [opening, hash] ++ name ++ [hash, closing]
  | p => [opening, atSign] ++ p.name ++ atSign :: p.inner ++ [atSign, closing]

/-- What a piece stands for. -/
def render (kv : List Kvmap) : Piece → List UInt8
  | literal text => text
  | var name => valueOf kv name
  | func name inner => match functionOf kv name with
    | some f => f inner
    | none => []
  | list name before after => match itemsOf kv name with
    | some items => items.flatMap fun i => before ++ i ++ after
    | none => []

/-- A piece in brackets: its name has neither `@` nor `#` in it, its inner text no `@]`. -/
structure Bracketed (p : Piece) : Prop where
  text : IsText p.source
  name_at : atSign ∉ p.name
  name_hash : hash ∉ p.name
  inner_open : ¬[atSign, closing] <:+: p.inner
  short : p.source.length < 1024

/-- Literal texts open no block, and the first placeholder of a list is the one meant. -/
def WellFormed : Piece → Prop
  | literal text => IsText text ∧ ¬[opening, hash] <:+: text ∧ ¬[opening, atSign] <:+: text
  | list name before after => (list name before after).Bracketed ∧ ¬item <:+: before
  | p => p.Bracketed

/-- The entry of a function block is no list, and that of a list block no function. -/
def Fits (kv : List Kvmap) : Piece → Prop
  | func name _ => itemsOf kv name = none
  | list name _ _ => functionOf kv name = none
  | _ => True

end Piece

section
variable {kv : List Kvmap} {name : List UInt8}

theorem functionOf_of_none (h : lookup kv name = none) : functionOf kv name = none := by
  rw [functionOf, h]

theorem functionOf_of_some {e : Kvmap} (h : lookup kv name = some e) :
    functionOf kv name = if e.type = 2 then some e.func else none := by
  rw [functionOf, h]

theorem itemsOf_of_none (h : lookup kv name = none) : itemsOf kv name = none := by
  rw [itemsOf, h]

theorem itemsOf_of_some {e : Kvmap} (h : lookup kv name = some e) :
    itemsOf kv name = if e.type = 3 then some e.dec else none := by
  rw [itemsOf, h]

end

/-- What the renderer relies on in an entry: its texts are strings, its list ends within
`dec`, and its callback writes strings. -/
structure Kvmap.WellFormed (e : Kvmap) : Prop where
  value : IsText e.value
  dec : ∀ s ∈ e.dec, IsText s
  dec_length : e.dec.length < decNum
  func : ∀ s, IsText s → IsText (e.func s)

/-! ## What a piece leaves behind -/

namespace Piece

open Template

/-- The pieces with a name and an inner text. -/
inductive IsBlock : Piece → Prop where
  | func (name inner : List UInt8) : IsBlock (func name inner)
  | list (name before after : List UInt8) : IsBlock (list name before after)

/-- What stands at the front of `temp` when a piece is closed: the name, and behind its NUL
the inner text. -/
def laid : Piece → List UInt8
  | literal _ => []
  | var name => name
  | p => p.name ++ 0 :: p.inner

theorem IsBlock.source_eq {p : Piece} (h : p.IsBlock) : p.source
    = [opening, atSign] ++ (p.name ++ atSign :: p.inner) ++ [atSign, closing] := by
  cases h <;> simp [source]

theorem IsBlock.laid_eq {p : Piece} (h : p.IsBlock) : p.laid = p.name ++ 0 :: p.inner := by
  cases h <;> rfl

/-- What a well-formed block is made of. -/
theorem IsBlock.parts {p : Piece} (h : p.IsBlock) (hp : p.WellFormed) :
    IsText p.name ∧ IsText p.inner ∧ atSign ∉ p.name ∧ ¬[atSign, closing] <:+: p.inner ∧
      p.name.length + 1 + p.inner.length < scratchSize := by
  have hsource := h.source_eq
  obtain ⟨htext, hat, -, hinner, hlen⟩ : p.Bracketed := by
    cases h with
    | func name inner => exact hp
    | list name before after => exact hp.1
  rw [hsource] at htext hlen
  have hcontent := (isText_append.mp (isText_append.mp htext).1).2
  refine ⟨(isText_append.mp hcontent).1, fun h0 => (isText_append.mp hcontent).2
    (List.mem_cons_of_mem _ h0), hat, hinner, ?_⟩
  simp only [List.length_append, List.length_cons] at hlen
  unfold scratchSize
  omega

/-- The bytes in `temp` a piece runs into behind its own. -/
def stale (temp : List UInt8) (p : Piece) : List UInt8 := cstr (temp.drop p.laid.length)

/-- `temp` behind a piece. -/
def leave (temp : List UInt8) (p : Piece) : List UInt8 :=
  List.replicate 64 0 ++ (p.laid ++ temp.drop p.laid.length).drop 64

/-- The text in `parsed_str` behind a piece that was rendered as it should be. -/
def parsedBehind (kv : List Kvmap) (parsed : List UInt8) : Piece → List UInt8
  | func name inner => if (functionOf kv name).isSome then (func name inner).render kv else parsed
  | list name before after =>
      if (itemsOf kv name).isSome then (list name before after).render kv else parsed
  | _ => parsed

/-- The inner text closes the block before its second `@` is in `temp`. -/
def ClosesEarly (p : Piece) : Prop := ∃ rest, p.inner = closing :: rest

/-- What the pieces before have left does not show in a piece, and the piece has room in
`parsed_str`. -/
def Clean (kv : List Kvmap) (stale parsed : List UInt8) : Piece → Prop
  | literal _ => True
  | var name => valueOf kv (name ++ stale) = valueOf kv name
  | func name inner => ¬(func name inner).ClosesEarly ∧ ∀ f, functionOf kv name = some f →
      f (inner ++ stale) = f inner ∧ (f inner).length < scratchSize
  | list name before after => ¬(list name before after).ClosesEarly ∧
      ∀ items, itemsOf kv name = some items → parsed = [] ∧ (items = [] ∨ stale = []) ∧
        ((list name before after).render kv).length < scratchSize

/-- `parsed_str` behind a piece, and the text it adds to the page. -/
def writes (kv : List Kvmap) (stale parsed : List UInt8) :
    Piece → Except Fault (List UInt8 × List UInt8)
  | literal text => .ok (parsed, text)
  | var name => .ok (parsed, valueOf kv (name ++ stale))
  | func name inner => match functionOf kv name with
    | none => .ok (parsed, [])
    | some f =>
        if (f (inner ++ stale)).length < scratchSize then
          .ok (f (inner ++ stale), f (inner ++ stale))
        else .error .write
  | list name before after => match itemsOf kv name with
    | none => .ok (parsed, [])
    | some items =>
        let written := parsed ++ items.flatMap fun i => before ++ i ++ (after ++ stale)
        if written.length < scratchSize then .ok (written, written) else .error .write

end Piece

/-- Every piece is clean where it stands. -/
def Clean (kv : List Kvmap) : List UInt8 → List UInt8 → List Piece → Prop
  | _, _, [] => True
  | temp, parsed, p :: pieces => p.Clean kv (p.stale temp) parsed ∧
      Clean kv (p.leave temp) (p.parsedBehind kv parsed) pieces

/-! ## Clean pieces write their renderings -/

namespace Piece

open Template

variable {kv : List Kvmap}

theorem length_flatMap_append (items : List (List UInt8)) (before after stale : List UInt8) :
    (items.flatMap fun i => before ++ i ++ (after ++ stale)).length
      = (items.flatMap fun i => before ++ i ++ after).length + items.length * stale.length := by
  induction items with
  | nil => simp
  | cons i items ih =>
      simp only [List.flatMap_cons, List.length_append, List.length_cons, ih]
      ring

/-- What `parsed_str` holds behind a piece that writes its rendering. -/
theorem parsed_of_writes {p : Piece} {stale parsed parsed' : List UInt8}
    (h : p.writes kv stale parsed = .ok (parsed', p.render kv)) :
    parsed' = p.parsedBehind kv parsed := by
  cases p with
  | literal text => cases h; rfl
  | var name =>
      simp only [writes, Except.ok.injEq, Prod.mk.injEq] at h
      exact h.1.symm
  | func name inner =>
      simp only [writes, render, parsedBehind] at h ⊢
      cases hf : functionOf kv name with
      | none => simpa [hf] using h.symm
      | some f =>
          simp only [hf] at h ⊢
          split_ifs at h
          simp only [Except.ok.injEq, Prod.mk.injEq] at h
          rw [← h.1, h.2]
          rfl
  | list name before after =>
      simp only [writes, render, parsedBehind] at h ⊢
      cases hi : itemsOf kv name with
      | none => simpa [hi] using h.symm
      | some items =>
          simp only [hi] at h ⊢
          split_ifs at h
          simp only [Except.ok.injEq, Prod.mk.injEq] at h
          rw [← h.1, h.2]
          rfl

theorem Clean.not_closesEarly {p : Piece} {stale parsed : List UInt8}
    (h : p.Clean kv stale parsed) : ¬p.ClosesEarly := by
  cases p with
  | literal text => simp [ClosesEarly, inner]
  | var name => simp [ClosesEarly, inner]
  | func name inner => exact h.1
  | list name before after => exact h.1

/-- A piece writes its rendering exactly when it is clean. -/
theorem clean_iff {p : Piece} {stale parsed : List UInt8} (h : ¬p.ClosesEarly) :
    p.Clean kv stale parsed ↔
      p.writes kv stale parsed = .ok (p.parsedBehind kv parsed, p.render kv) := by
  cases p with
  | literal text => simp [Clean, writes, parsedBehind, render]
  | var name => simp [Clean, writes, parsedBehind, render]
  | func name inner =>
      simp only [Clean, writes, parsedBehind, render, h, not_false_iff, true_and]
      cases hf : functionOf kv name with
      | none => simp
      | some f =>
          simp only [Option.some.injEq, forall_eq', Option.isSome_some, if_true]
          constructor
          · rintro ⟨heq, hlen⟩
            rw [heq, if_pos hlen]
          · intro hwrites
            split_ifs at hwrites with hlen
            have heq : f (inner ++ stale) = f inner := by simpa using hwrites
            exact ⟨heq, heq ▸ hlen⟩
  | list name before after =>
      simp only [Clean, writes, parsedBehind, render, h, not_false_iff, true_and]
      cases hi : itemsOf kv name with
      | none => simp
      | some items =>
          simp only [Option.some.injEq, forall_eq', Option.isSome_some, if_true]
          have hlen := length_flatMap_append items before after stale
          constructor
          · rintro ⟨rfl, hclean, hroom⟩
            have heq : (items.flatMap fun i => before ++ i ++ (after ++ stale))
                = items.flatMap fun i => before ++ i ++ after := by
              rcases hclean with rfl | rfl
              · rfl
              · simp only [List.append_nil]
            rw [List.nil_append, heq, if_pos hroom]
          · intro hwrites
            split_ifs at hwrites with hroom
            have heq : parsed ++ (items.flatMap fun i => before ++ i ++ (after ++ stale))
                = items.flatMap fun i => before ++ i ++ after := by simpa using hwrites
            -- the lengths agree only without old bytes, or without items to put them behind
            have hsum := congrArg List.length heq
            rw [List.length_append, hlen] at hsum
            have hparsed : parsed.length = 0 := by omega
            have hstale : items.length * stale.length = 0 := by omega
            rw [Nat.mul_eq_zero, List.length_eq_zero_iff, List.length_eq_zero_iff] at hstale
            exact ⟨List.length_eq_zero_iff.mp hparsed, hstale, heq ▸ hroom⟩

end Piece
