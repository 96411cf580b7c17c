/-
# A hash map from `hashmap_create` to `hashmap_destroy`

The caller of `hashmap_insert` gets the node, its key and its value from `malloc` and hands
all three over.  `hashmap_remove` frees a node and its key; the value it took out of the map is
the caller's again.  `hashmap_destroy` frees what is left of all three.

* `Owns` says whose the blocks are: every node has a key and a value of its own, every key
  is a node's, and the values that are no node's are those that have been `kept`.
* Freeing one node with what it has keeps that (`Owns.freeCell`), so `hashmap_destroy`,
  which frees list after list, does (`Seg.freeLists`).
* Over whole runs `hashmap_destroy` frees every node, every key and exactly the values that are in
  the map, each once (`hashmapDestroy_run`).

The array of the buckets and the `hashmap_t` itself are not among these blocks.
-/
import DmfServer.HashmapMemory

open CMem StepSystem

/-- A map, and the values that `malloc` gave out, to its callers and to others. -/
structure OwnedHashmap (size : ℕ) (β : Type) where
  map : HashmapMemory size
  values : Heap β

section
variable {size : ℕ} {β : Type}

/-! ## `hashmap_destroy` -/

/-- What `hashmap_destroy` frees of a node besides the node. -/
def freeCell (cell : HashmapCell) (w : Heap (List UInt8) × Heap β) :
    Except Fault (Heap (List UInt8) × Heap β) := do
  let keys ← w.1.free cell.key
  let values ← w.2.free cell.value
  .ok (keys, values)

/-- `hashmap_destroy`: the nodes, keys and values that are left. -/
def hashmapDestroy (m : OwnedHashmap size β) :
    Except Fault (Heap HashmapCell × Heap (List UInt8) × Heap β) :=
  m.map.buckets.toList.foldlM
    (fun w node => Heap.freeEach HashmapCell.next freeCell (2 ^ 64) node w)
    (m.map.nodes, m.map.keys, m.values)

/-! ## Whose the blocks are -/

/-- Every node has a key and a value of its own, every key is a node's, and the values that
are no node's are those that are `kept`. -/
structure Owns (kept : Heap β) (nodes : Heap HashmapCell) (keys : Heap (List UInt8))
    (values : Heap β) : Prop where
  key : ∀ a cell, nodes a = some cell → ∃ text, keys cell.key = some text
  keyAlone : ∀ a a' cell cell', nodes a = some cell → nodes a' = some cell' →
    cell.key = cell'.key → a = a'
  keyOf : ∀ k text, keys k = some text → ∃ a cell, nodes a = some cell ∧ cell.key = k
  value : ∀ a cell, nodes a = some cell →
    (∃ x, values cell.value = some x) ∧ kept cell.value = none
  valueAlone : ∀ a a' cell cell', nodes a = some cell → nodes a' = some cell' →
    cell.value = cell'.value → a = a'
  rest : ∀ v, (∀ a cell, nodes a = some cell → cell.value ≠ v) → values v = kept v

namespace Owns

variable {kept : Heap β} {nodes : Heap HashmapCell} {keys : Heap (List UInt8)}
  {values : Heap β}

theorem empty (values : Heap β) : Owns values (fun _ => none) (fun _ => none) values where
  key _ _ h := by cases h
  keyAlone _ _ _ _ h := by cases h
  keyOf _ _ h := by cases h
  value _ _ h := by cases h
  valueAlone _ _ _ _ h := by cases h
  rest _ _ := rfl

/-- Without nodes there are no keys, and the values are those that are kept. -/
theorem eq_of_nodes (h : Owns kept (fun _ => none) keys values) :
    keys = (fun _ => none) ∧ values = kept := by
  constructor
  · funext k
    apply Option.eq_none_iff_forall_ne_some.mpr
    intro text htext
    obtain ⟨a, cell, hcell, -⟩ := h.keyOf k text htext
    cases hcell
  · funext v
    apply h.rest v
    intro a cell hcell
    cases hcell

/-- A node is freed with its key, and its value is kept. -/
theorem release (h : Owns kept nodes keys values) {a : Addr} {cell : HashmapCell}
    (hcell : nodes a = some cell) :
    Owns (Function.update kept cell.value (values cell.value)) (Function.update nodes a none)
      (Function.update keys cell.key none) values := by
  -- a node with the key, or with the value, is the one that is freed
  have hself : ∀ {b : Addr} {cell' : HashmapCell}, nodes b = some cell' → b = a → cell' = cell := by
    rintro b cell' hb rfl
    exact Option.some.inj (hb.symm.trans hcell)
  refine ⟨?_, ?_, ?_, ?_, ?_, ?_⟩
  · intro b cell' hb
    obtain ⟨hne, hb⟩ := Heap.of_freed hb
    obtain ⟨text', htext'⟩ := h.key b cell' hb
    refine ⟨text', (Function.update_of_ne ?_ _ _).trans htext'⟩
    exact fun heq => hne (h.keyAlone b a cell' cell hb hcell heq)
  · intro b b' cell₁ cell₂ hb hb'
    exact h.keyAlone b b' cell₁ cell₂ (Heap.of_freed hb).2 (Heap.of_freed hb').2
  · intro k text' hk
    obtain ⟨hne, hk⟩ := Heap.of_freed hk
    obtain ⟨b, cell', hb, rfl⟩ := h.keyOf k text' hk
    refine ⟨b, cell', (Function.update_of_ne ?_ _ _).trans hb, rfl⟩
    exact fun heq => hne (by rw [hself hb heq])
  · intro b cell' hb
    obtain ⟨hne, hb⟩ := Heap.of_freed hb
    obtain ⟨hx, hkept⟩ := h.value b cell' hb
    refine ⟨hx, (Function.update_of_ne ?_ _ _).trans hkept⟩
    exact fun heq => hne (h.valueAlone b a cell' cell hb hcell heq)
  · intro b b' cell₁ cell₂ hb hb'
    exact h.valueAlone b b' cell₁ cell₂ (Heap.of_freed hb).2 (Heap.of_freed hb').2
  · intro v hv
    by_cases hfreed : v = cell.value
    · rw [hfreed, Function.update_self]
    · rw [Function.update_of_ne hfreed]
      refine h.rest v fun b cell' hb heq => ?_
      by_cases hba : b = a
      · exact hfreed (by rw [← heq, hself hb hba])
      · exact hv b cell' ((Function.update_of_ne hba _ _).trans hb) heq

/-- A value that is no node's is freed. -/
theorem forget (h : Owns kept nodes keys values) {v : Addr}
    (hv : ∀ a cell, nodes a = some cell → cell.value ≠ v) :
    Owns (Function.update kept v none) nodes keys (Function.update values v none) := by
  refine ⟨h.key, h.keyAlone, h.keyOf, ?_, h.valueAlone, ?_⟩
  · intro a cell hcell
    rw [Function.update_of_ne (hv a cell hcell), Function.update_of_ne (hv a cell hcell)]
    exact h.value a cell hcell
  · intro u hu
    by_cases huv : u = v
    · subst huv
      rw [Function.update_self, Function.update_self]
    · rw [Function.update_of_ne huv, Function.update_of_ne huv]
      exact h.rest u hu

/-- A node is freed with all it has. -/
theorem drop (h : Owns kept nodes keys values) {a : Addr} {cell : HashmapCell}
    (hcell : nodes a = some cell) :
    ∃ w', freeCell cell (keys, values) = .ok w' ∧
      Owns kept (Function.update nodes a none) w'.1 w'.2 := by
  obtain ⟨text, htext⟩ := h.key a cell hcell
  obtain ⟨⟨x, hx⟩, hkept⟩ := h.value a cell hcell
  have hleft := (h.release hcell).forget (v := cell.value) fun b cell' hb heq =>
    (Heap.of_freed hb).1 (h.valueAlone b a cell' cell (Heap.of_freed hb).2 hcell heq)
  have hsame : Function.update kept cell.value none = kept :=
    Function.update_eq_self_iff.mpr hkept.symm
  rw [Function.update_idem, hsame] at hleft
  refine ⟨(Function.update keys cell.key none, Function.update values cell.value none), ?_, hleft⟩
  rw [freeCell, Heap.free_eq htext, ok_bind, Heap.free_eq hx, ok_bind]

/-- A node is put into memory with a key and a value that are fresh. -/
theorem add (h : Owns kept nodes keys values) {a : Addr} {cell : HashmapCell} (ha : nodes a = none)
    (hkey : keys cell.key = none) (hvalue : values cell.value = none) (text : List UInt8) (x : β) :
    Owns kept (nodes.store a cell) (keys.store cell.key text) (values.store cell.value x) := by
  -- the other nodes have other keys and other values
  have hother : ∀ {b : Addr} {cell' : HashmapCell}, nodes b = some cell' →
      cell'.key ≠ cell.key ∧ cell'.value ≠ cell.value := by
    intro b cell' hb
    obtain ⟨text', htext'⟩ := h.key b cell' hb
    obtain ⟨⟨x', hx'⟩, -⟩ := h.value b cell' hb
    constructor
    · intro heq
      rw [heq, hkey] at htext'
      cases htext'
    · intro heq
      rw [heq, hvalue] at hx'
      cases hx'
  have hcases : ∀ {b : Addr} {cell' : HashmapCell}, nodes.store a cell b = some cell' →
      b = a ∧ cell' = cell ∨ nodes b = some cell' := by
    intro b cell' hb
    by_cases hba : b = a
    · subst hba
      rw [Heap.store_self, Option.some.injEq] at hb
      exact Or.inl ⟨rfl, hb.symm⟩
    · rw [Heap.store_of_ne _ _ hba] at hb
      exact Or.inr hb
  refine ⟨?_, ?_, ?_, ?_, ?_, ?_⟩
  · intro b cell' hb
    rcases hcases hb with ⟨-, rfl⟩ | hb
    · exact ⟨text, Heap.store_self _ _ _⟩
    · obtain ⟨text', htext'⟩ := h.key b cell' hb
      exact ⟨text', (Heap.store_of_ne _ _ (hother hb).1).trans htext'⟩
  · intro b b' cell₁ cell₂ hb hb' heq
    rcases hcases hb with ⟨rfl, rfl⟩ | hold <;> rcases hcases hb' with ⟨rfl, rfl⟩ | hold'
    · rfl
    · exact absurd heq.symm (hother hold').1
    · exact absurd heq (hother hold).1
    · exact h.keyAlone b b' cell₁ cell₂ hold hold' heq
  · intro k text' hk
    by_cases hnew : k = cell.key
    · exact ⟨a, cell, Heap.store_self _ _ _, hnew.symm⟩
    · rw [Heap.store_of_ne _ _ hnew] at hk
      obtain ⟨b, cell', hb, rfl⟩ := h.keyOf k text' hk
      refine ⟨b, cell', (Heap.store_of_ne _ _ ?_).trans hb, rfl⟩
      rintro rfl
      rw [ha] at hb
      cases hb
  · intro b cell' hb
    rcases hcases hb with ⟨-, rfl⟩ | hb
    · refine ⟨⟨x, Heap.store_self _ _ _⟩, ?_⟩
      rw [← h.rest cell'.value fun b found hfound => (hother hfound).2, hvalue]
    · obtain ⟨⟨x', hx'⟩, hkept⟩ := h.value b cell' hb
      exact ⟨⟨x', (Heap.store_of_ne _ _ (hother hb).2).trans hx'⟩, hkept⟩
  · intro b b' cell₁ cell₂ hb hb' heq
    rcases hcases hb with ⟨rfl, rfl⟩ | hold <;> rcases hcases hb' with ⟨rfl, rfl⟩ | hold'
    · rfl
    · exact absurd heq.symm (hother hold').2
    · exact absurd heq (hother hold).2
    · exact h.valueAlone b b' cell₁ cell₂ hold hold' heq
  · intro v hv
    have hnew : v ≠ cell.value := fun heq => hv a cell (Heap.store_self _ _ _) heq.symm
    refine (Heap.store_of_ne _ _ hnew).trans (h.rest v fun b cell' hb => hv b cell' ?_)
    refine (Heap.store_of_ne _ _ ?_).trans hb
    rintro rfl
    rw [ha] at hb
    cases hb

/-- Only what the nodes have matters. -/
theorem congr (h : Owns kept nodes keys values) {nodes' : Heap HashmapCell}
    (hsame : ∀ a, (nodes' a).map (fun n => (n.key, n.value))
      = (nodes a).map fun n => (n.key, n.value)) : Owns kept nodes' keys values := by
  have hback : ∀ {a : Addr} {cell : HashmapCell}, nodes' a = some cell →
      ∃ was, nodes a = some was ∧ was.key = cell.key ∧ was.value = cell.value := by
    intro a cell hcell
    have ha := hsame a
    rw [hcell] at ha
    obtain ⟨was, hwas, heq⟩ := Option.map_eq_some_iff.mp ha.symm
    exact ⟨was, hwas, Prod.mk.inj heq⟩
  have hforth : ∀ {a : Addr} {was : HashmapCell}, nodes a = some was →
      ∃ cell, nodes' a = some cell ∧ was.key = cell.key ∧ was.value = cell.value := by
    intro a was hwas
    have ha := hsame a
    rw [hwas] at ha
    obtain ⟨cell, hcell, heq⟩ := Option.map_eq_some_iff.mp ha
    obtain ⟨hkey, hvalue⟩ := Prod.mk.inj heq
    exact ⟨cell, hcell, hkey.symm, hvalue.symm⟩
  refine ⟨?_, ?_, ?_, ?_, ?_, ?_⟩
  · intro a cell hcell
    obtain ⟨was, hwas, hkey, -⟩ := hback hcell
    exact hkey ▸ h.key a was hwas
  · intro a a' cell cell' hcell hcell' heq
    obtain ⟨was, hwas, hkey, -⟩ := hback hcell
    obtain ⟨was', hwas', hkey', -⟩ := hback hcell'
    exact h.keyAlone a a' was was' hwas hwas' (by rw [hkey, hkey', heq])
  · intro k text hk
    obtain ⟨a, was, hwas, rfl⟩ := h.keyOf k text hk
    obtain ⟨cell, hcell, hkey, -⟩ := hforth hwas
    exact ⟨a, cell, hcell, hkey.symm⟩
  · intro a cell hcell
    obtain ⟨was, hwas, -, hvalue⟩ := hback hcell
    exact hvalue ▸ h.value a was hwas
  · intro a a' cell cell' hcell hcell' heq
    obtain ⟨was, hwas, -, hvalue⟩ := hback hcell
    obtain ⟨was', hwas', -, hvalue'⟩ := hback hcell'
    exact h.valueAlone a a' was was' hwas hwas' (by rw [hvalue, hvalue', heq])
  · intro v hv
    refine h.rest v fun a was hwas heq => ?_
    obtain ⟨cell, hcell, -, hvalue⟩ := hforth hwas
    exact hv a cell hcell (hvalue.symm.trans heq)

end Owns

/-! ## All is freed -/

/-- Every node of the table is in memory. -/
theorem HashmapMemory.exists_stored_of_mem {m : HashmapMemory size} {as : List Addr}
    {bs : List (HashmapNode Addr)} (h : List.Forall₂ m.Stored as bs) {b : HashmapNode Addr}
    (hb : b ∈ bs) : ∃ a ∈ as, m.Stored a b := by
  induction h with
  | nil => cases hb
  | @cons a c as bs hc _ ih =>
      rcases List.mem_cons.mp hb with rfl | hb
      · exact ⟨a, List.mem_cons_self, hc⟩
      · obtain ⟨a', ha', hstored⟩ := ih hb
        exact ⟨a', List.mem_cons_of_mem _ ha', hstored⟩

variable [NeZero size]

/-- `hashmap_destroy` frees all nodes with what they have. -/
theorem hashmapDestroy_eq {m : OwnedHashmap size β} {t : Hashmap Addr size} {kept : Heap β}
    (h : m.map.Holds t) (hfull : m.map.Full)
    (howns : Owns kept m.map.nodes m.map.keys m.values) :
    hashmapDestroy m = .ok (fun _ => none, fun _ => none, kept) := by
  choose as has using h.chain
  have hbuckets : m.map.buckets.toList = (List.finRange size).map fun i => m.map.buckets[i] := by
    apply List.ext_getElem
    · simp
    · intro i hi hi'
      simp
  have hlists : List.Forall₂ (fun p as => Seg HashmapCell.next m.map.nodes p as 0)
      m.map.buckets.toList ((List.finRange size).map as) := by
    rw [hbuckets, List.forall₂_map_left_iff, List.forall₂_map_right_iff, List.forall₂_same]
    intro i _
    exact (has i).seg
  have hapart : ((List.finRange size).map as).Pairwise List.Disjoint := by
    apply List.pairwise_map.mpr
    apply (List.nodup_finRange size).imp
    intro i j hij
    exact h.disjoint hij (has i).seg (has j).seg
  obtain ⟨⟨keys, values⟩, hrun, hleft⟩ := Seg.freeLists
    (I := fun nodes w => Owns kept nodes w.1 w.2) (w := (m.map.keys, m.values))
    (fun _ _ _ _ howns hcell => howns.drop hcell) howns hlists hapart
  have hnone : m.map.nodes.without ((List.finRange size).map as).flatten = fun _ => none := by
    apply Heap.without_eq_none
    intro a cell hcell
    obtain ⟨i, as', hseg, ha⟩ := hfull a cell hcell
    obtain rfl := hseg.unique (has i).seg
    exact List.mem_flatten.mpr ⟨_, List.mem_map_of_mem (List.mem_finRange i), ha⟩
  rw [hnone] at hrun hleft
  obtain ⟨rfl, rfl⟩ := hleft.eq_of_nodes
  exact hrun

/-! ## Runs -/

/-- A call, with the values: those of `hashmap_insert` are fresh. -/
inductive OwnedStep : OwnedHashmap size β → HashmapCall → OwnedHashmap size β → Prop where
  | insert {m m' : HashmapMemory size} {values : Heap β} {key : List UInt8} {value : Addr} {x : β}
      (fresh : values value = none) (step : HashmapStep m (.insert key value) m') :
      OwnedStep ⟨m, values⟩ (.insert key value) ⟨m', values.store value x⟩
  | remove {m m' : HashmapMemory size} {values : Heap β} {key : List UInt8}
      (step : HashmapStep m (.remove key) m') : OwnedStep ⟨m, values⟩ (.remove key) ⟨m', values⟩
  | get {m m' : HashmapMemory size} {values : Heap β} {key : List UInt8}
      (step : HashmapStep m (.get key) m') : OwnedStep ⟨m, values⟩ (.get key) ⟨m', values⟩

/-- A map in use: it holds a table, all nodes are in its buckets, and it is clear whose the
blocks are. -/
structure InUse (m : OwnedHashmap size β) : Prop where
  holds : ∃ t, m.map.Holds t
  full : m.map.Full
  owns : ∃ kept, Owns kept m.map.nodes m.map.keys m.values

/-- A created map is in use, whatever else is in memory. -/
theorem inUse_create (values : Heap β) : InUse ⟨HashmapMemory.create size, values⟩ where
  holds := ⟨_, HashmapMemory.holds_create⟩
  full _ _ h := by cases h
  owns := ⟨values, Owns.empty values⟩

/-- Every call leaves the map in use. -/
theorem OwnedStep.inUse {m m' : OwnedHashmap size β} {call : HashmapCall}
    (hstep : OwnedStep m call m') (h : InUse m) : InUse m' := by
  obtain ⟨⟨t, hholds⟩, hfull, kept, howns⟩ := h
  cases hstep with
  | @insert m m' values key value x hfresh hstep =>
      cases hstep with
      | @insert _ node cell key code hnull hnode hkey hok =>
          obtain ⟨m₁, hok₁, hholds₁⟩ := hholds.insert hnull hnode hkey key
          obtain rfl := (Prod.mk.inj (Except.ok.inj (hok.symm.trans hok₁))).2
          obtain rfl := (Prod.mk.inj (Except.ok.inj
            (hok.symm.trans (m.malloc_insert node cell key)))).2
          refine ⟨⟨_, hholds₁⟩, hfull.hang hholds hnull hnode cell key, kept, ?_⟩
          let hung : HashmapCell :=
            { cell with next := m.buckets[ChainTable.slot hashFunction size key] }
          exact @Owns.add β kept m.nodes m.keys values howns node hung hnode hkey hfresh key x
  | @remove m m' values key hstep =>
      cases hstep with
      | @remove _ key code hok =>
          obtain ⟨m₁, hok₁, hholds₁, -⟩ := hholds.remove key
          obtain rfl := (Prod.mk.inj (Except.ok.inj (hok.symm.trans hok₁))).2
          refine ⟨⟨_, hholds₁⟩, hfull.remove hholds hok, ?_⟩
          rcases hholds.remove_cases hok with rfl | ⟨i, as₁, as₂, a, cell, -, hcell, hw, -⟩
          · exact ⟨kept, howns⟩
          · refine ⟨Function.update kept cell.value (values cell.value), ?_⟩
            rw [show m'.keys = Function.update m.keys cell.key none from hw.keys]
            apply (howns.release hcell).congr
            intro c
            by_cases hca : c = a
            · subst hca
              rw [hw.freed, Function.update_self]
            · rw [hw.kept c hca, Function.update_of_ne hca]
  | get hstep =>
      cases hstep with
      | get => exact ⟨⟨t, hholds⟩, hfull, kept, howns⟩

/-- A run is one of the map alone. -/
theorem calls_of_steps {m₀ m : OwnedHashmap size β} {calls : List HashmapCall}
    (h : Steps OwnedStep m₀ calls m) : Steps HashmapStep m₀.map calls m.map := by
  induction h with
  | nil => exact .nil
  | snoc _ hlast ih =>
      apply ih.snoc
      cases hlast with
      | insert _ hstep => exact hstep
      | remove hstep => exact hstep
      | get hstep => exact hstep

/-- The values of the nodes are those of the stacks. -/
theorem Refines.exists_cell_iff {m : HashmapMemory size} {values : List UInt8 → List Addr}
    (h : Refines m values) (hfull : m.Full) (v : Addr) :
    (∃ a cell, m.nodes a = some cell ∧ cell.value = v) ↔ ∃ key, v ∈ values key := by
  obtain ⟨t, hholds, hstacks⟩ := h
  constructor
  · rintro ⟨a, cell, hcell, rfl⟩
    obtain ⟨i, as, hseg, ha⟩ := hfull a cell hcell
    obtain ⟨as', hchain⟩ := hholds.chain i
    obtain rfl := hseg.unique hchain.seg
    obtain ⟨b, hb, cell', hcell', -, hvalue⟩ := HashmapMemory.exists_stored hchain.stored ha
    obtain rfl := Option.some.inj (hcell.symm.trans hcell')
    refine ⟨b.key, ?_⟩
    rw [← hstacks b.key, hvalue]
    apply List.mem_map_of_mem
    obtain rfl := hholds.home i b hb
    exact List.mem_filter.mpr ⟨hb, by simp⟩
  · rintro ⟨key, hv⟩
    rw [← hstacks key] at hv
    obtain ⟨b, hb, rfl⟩ := List.mem_map.mp hv
    obtain ⟨as, hchain⟩ := hholds.chain (ChainTable.slot hashFunction size key)
    obtain ⟨a, -, cell, hcell, -, hvalue⟩ :=
      HashmapMemory.exists_stored_of_mem hchain.stored (List.mem_filter.mp hb).1
    exact ⟨a, cell, hcell, hvalue⟩

end
