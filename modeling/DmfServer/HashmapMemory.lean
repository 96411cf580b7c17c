/-
# The hash map of `dm_map` in memory

`dm_map` with its pointers: a bucket is the address of its first node, a node holds
the addresses of its key, its value and the next node, and `hashmap_remove` walks a
bucket with `prev` and `curr`, unlinks a node and frees it and its key.

* `HashmapMemory.Holds` says which chained table (`Hashmap`) a memory is: every bucket
  is a list that ends, its nodes hash to it, and no two nodes have one key pointer.
  Two buckets have no node in common since a key has one hash.
* Each function does to the memory what its namesake does to the table.
* Over whole runs the map is a stack of values for every key (`stackOf`).
-/
import DmfServer.LinkedList
import DmfServer.StepSystem
import DmfServer.Hashmap

open CMem StepSystem

/-- `hashmap_node_t` with its pointers. -/
structure HashmapCell where
  key : Addr
  value : Addr
  next : Addr

/-- `hashmap_t` of `size` buckets, and the nodes and keys `malloc` gave out. -/
structure HashmapMemory (size : ℕ) where
  nodes : Heap HashmapCell
  keys : Heap (List UInt8)
  buckets : Vector Addr size

namespace HashmapMemory

variable {size : ℕ}

/-! ## The functions -/

/-- `hashmap_create`. -/
def create (size : ℕ) : HashmapMemory size :=
  { nodes := fun _ => none, keys := fun _ => none, buckets := Vector.replicate size 0 }

/-- The caller's node, from `malloc`: its key and value are set, its `next` is not. -/
def malloc (m : HashmapMemory size) (node : Addr) (cell : HashmapCell) (key : List UInt8) :
    HashmapMemory size :=
  { m with nodes := m.nodes.store node cell, keys := m.keys.store cell.key key }

/-- The loop of `hashmap_get`, of at most `fuel` rounds. -/
def getLoop (m : HashmapMemory size) (key : List UInt8) : ℕ → Addr → Except Fault Addr
  | 0, _ => .error .loop
  | fuel + 1, node =>
      if node = 0 then .ok 0
      else do
        let cell ← m.nodes.load node
        let text ← m.keys.load cell.key
        if text = key then .ok cell.value else getLoop m key fuel cell.next

/-- What `hashmap_remove` does to the node it looks for: `prev` is `NULL` in front of the
first node of the bucket. -/
def dropNode (m : HashmapMemory size) (index : Fin size) (prev curr : Addr)
    (cell : HashmapCell) : Except Fault (HashmapMemory size) := do
  let m ←
    if prev = 0 then .ok { m with buckets := m.buckets.set index cell.next }
    else (m.nodes.load prev).map fun before =>
      { m with nodes := m.nodes.store prev { before with next := cell.next } }
  let keys ← m.keys.free cell.key
  let nodes ← m.nodes.free curr
  .ok { m with nodes := nodes, keys := keys }

/-- The loop of `hashmap_remove`, of at most `fuel` rounds. -/
def removeLoop (m : HashmapMemory size) (index : Fin size) (key : List UInt8) :
    ℕ → Addr → Addr → Except Fault (ℤ × HashmapMemory size)
  | 0, _, _ => .error .loop
  | fuel + 1, prev, curr =>
      if curr = 0 then .ok (-1, m)
      else do
        let cell ← m.nodes.load curr
        let text ← m.keys.load cell.key
        if text = key then (dropNode m index prev curr cell).map fun m => (0, m)
        else removeLoop m index key fuel curr cell.next

section
variable [NeZero size]

/-- `hashmap_insert`. -/
def insert (m : HashmapMemory size) (node : Addr) :
    Except Fault (ℤ × HashmapMemory size) := do
  let cell ← m.nodes.load node
  let text ← m.keys.load cell.key
  let index := ChainTable.slot hashFunction size text
  have hindex := index.isLt
  .ok (0, { m with
    nodes := m.nodes.store node { cell with next := m.buckets[index] }
    buckets := m.buckets.set index node })

/-- `hashmap_get`; there are less than `2 ^ 64` nodes to look at. -/
def get (m : HashmapMemory size) (key : List UInt8) : Except Fault Addr :=
  let index := ChainTable.slot hashFunction size key
  have hindex := index.isLt
  getLoop m key (2 ^ 64) m.buckets[index]

/-- `hashmap_remove`. -/
def remove (m : HashmapMemory size) (key : List UInt8) :
    Except Fault (ℤ × HashmapMemory size) :=
  let index := ChainTable.slot hashFunction size key
  have hindex := index.isLt
  removeLoop m index key (2 ^ 64) 0 m.buckets[index]

end

/-! ## The nodes of a bucket -/

/-- The node at `a`, and its key, are those of the table. -/
def Stored (m : HashmapMemory size) (a : Addr) (b : HashmapNode Addr) : Prop :=
  ∃ cell, m.nodes a = some cell ∧ m.keys cell.key = some b.key ∧ cell.value = b.value

theorem exists_stored {m : HashmapMemory size} {as : List Addr} {bs : List (HashmapNode Addr)}
    (h : List.Forall₂ m.Stored as bs) {a : Addr} (ha : a ∈ as) : ∃ b ∈ bs, m.Stored a b := by
  induction h with
  | nil => simp at ha
  | @cons c b as bs hb _ ih =>
      rcases List.mem_cons.mp ha with rfl | ha
      · exact ⟨b, List.mem_cons_self, hb⟩
      · obtain ⟨b', hb', hstored⟩ := ih ha
        exact ⟨b', List.mem_cons_of_mem _ hb', hstored⟩

theorem exists_of_forall₂_append_cons {m : HashmapMemory size} {as : List Addr}
    {bs₁ bs₂ : List (HashmapNode Addr)} {b : HashmapNode Addr}
    (h : List.Forall₂ m.Stored as (bs₁ ++ b :: bs₂)) :
    ∃ as₁ a as₂, as = as₁ ++ a :: as₂ ∧ List.Forall₂ m.Stored as₁ bs₁ ∧
      List.Forall₂ m.Stored as₂ bs₂ := by
  have hback := List.forall₂_drop_append as bs₁ (b :: bs₂) h
  obtain ⟨a, as₂, -, has₂, hdrop⟩ := List.forall₂_cons_right_iff.mp hback
  refine ⟨as.take bs₁.length, a, as₂, ?_, List.forall₂_take_append as bs₁ (b :: bs₂) h, has₂⟩
  rw [← hdrop, List.take_append_drop]

/-- From `p` the `next` pointers lead through the nodes of a chain to `NULL`. -/
structure Chain (m : HashmapMemory size) (p : Addr) (as : List Addr)
    (bs : List (HashmapNode Addr)) : Prop where
  seg : Seg HashmapCell.next m.nodes p as 0
  stored : List.Forall₂ m.Stored as bs

namespace Chain

variable {m : HashmapMemory size} {p : Addr} {as : List Addr} {bs : List (HashmapNode Addr)}

/-- The first node of a chain, and the rest. -/
theorem cons_inv {a : Addr} (h : m.Chain p (a :: as) bs) :
    ∃ cell b bs', bs = b :: bs' ∧ p = a ∧ p ≠ 0 ∧ m.nodes p = some cell ∧
      m.keys cell.key = some b.key ∧ cell.value = b.value ∧ m.Chain cell.next as bs' := by
  obtain ⟨hseg, hstored⟩ := h
  obtain ⟨rfl, hne, cell, hcell, hrest⟩ := hseg.cons_inv
  cases hstored with
  | @cons _ b _ bs' hb hbs =>
      obtain ⟨cell', hcell', hkey, hvalue⟩ := hb
      rw [hcell, Option.some.injEq] at hcell'
      subst hcell'
      exact ⟨cell, b, bs', rfl, rfl, hne, hcell, hkey, hvalue, hrest, hbs⟩

/-- `hashmap_get` answers for the first node with the key. -/
theorem getLoop_eq (h : m.Chain p as bs) (key : List UInt8) {fuel : ℕ}
    (hfuel : as.length < fuel) :
    getLoop m key fuel p
      = .ok ((bs.findSome? (ChainTable.onKey HashmapNode.key key
          (fun node => some node.value))).getD 0) := by
  induction as generalizing p bs fuel with
  | nil =>
      obtain ⟨fuel, rfl⟩ := Nat.exists_eq_add_one_of_ne_zero (Nat.ne_of_gt hfuel)
      obtain ⟨hseg, hstored⟩ := h
      obtain rfl := List.forall₂_nil_left_iff.mp hstored
      rw [getLoop, if_pos hseg.nil_inv]
      rfl
  | cons a as ih =>
      obtain ⟨fuel, rfl⟩ := Nat.exists_eq_add_one_of_ne_zero (Nat.ne_of_gt
        (Nat.lt_of_le_of_lt (Nat.zero_le _) hfuel))
      obtain ⟨cell, b, bs, rfl, -, hne, hcell, hkey, hvalue, hrest⟩ := h.cons_inv
      rw [getLoop, if_neg hne, Heap.load_eq hcell, ok_bind, Heap.load_eq hkey, ok_bind,
        List.findSome?_cons, ChainTable.onKey]
      split
      · rw [hvalue]
        rfl
      · exact ih hrest (by simpa using hfuel)

/-- `hashmap_remove` comes to the end of a bucket that does not have the key. -/
theorem removeLoop_of_forall_ne (h : m.Chain p as bs) {key : List UInt8}
    (hbs : ∀ b ∈ bs, b.key ≠ key) (index : Fin size) (prev : Addr) {fuel : ℕ}
    (hfuel : as.length < fuel) :
    removeLoop m index key fuel prev p = .ok (-1, m) := by
  induction as generalizing p bs prev fuel with
  | nil =>
      obtain ⟨fuel, rfl⟩ := Nat.exists_eq_add_one_of_ne_zero (Nat.ne_of_gt hfuel)
      rw [removeLoop, if_pos h.seg.nil_inv]
  | cons a as ih =>
      obtain ⟨fuel, rfl⟩ := Nat.exists_eq_add_one_of_ne_zero (Nat.ne_of_gt
        (Nat.lt_of_le_of_lt (Nat.zero_le _) hfuel))
      obtain ⟨cell, b, bs, rfl, -, hne, hcell, hkey, -, hrest⟩ := h.cons_inv
      obtain ⟨hb, hbs⟩ := List.forall_mem_cons.mp hbs
      rw [removeLoop, if_neg hne, Heap.load_eq hcell, ok_bind, Heap.load_eq hkey, ok_bind,
        if_neg hb]
      exact ih hrest hbs p (by simpa using hfuel)

/-- `hashmap_remove` comes to the first node with the key with `prev` at the node in front
of it. -/
theorem removeLoop_of_mem {key : List UInt8} {as₁ as₂ : List Addr} {a : Addr}
    {bs₁ bs₂ : List (HashmapNode Addr)} {b : HashmapNode Addr}
    (h : m.Chain p (as₁ ++ a :: as₂) (bs₁ ++ b :: bs₂)) (hlen : as₁.length = bs₁.length)
    (hbs : ∀ c ∈ bs₁, c.key ≠ key) (hb : b.key = key) (index : Fin size) (prev : Addr)
    {fuel : ℕ} (hfuel : as₁.length < fuel) :
    ∃ cell, m.nodes a = some cell ∧ m.keys cell.key = some key ∧
      removeLoop m index key fuel prev p
        = (dropNode m index (as₁.getLastD prev) a cell).map fun m' => (0, m') := by
  obtain ⟨fuel, rfl⟩ := Nat.exists_eq_add_one_of_ne_zero (Nat.ne_of_gt
    (Nat.lt_of_le_of_lt (Nat.zero_le _) hfuel))
  induction as₁ generalizing p bs₁ prev fuel with
  | nil =>
      obtain rfl := List.length_eq_zero_iff.mp hlen.symm
      obtain ⟨cell, b', bs', hbs', rfl, hne, hcell, hkey, -, -⟩ := h.cons_inv
      obtain ⟨rfl, -⟩ := List.cons.inj hbs'
      refine ⟨cell, hcell, hb ▸ hkey, ?_⟩
      rw [removeLoop, if_neg hne, Heap.load_eq hcell, ok_bind, Heap.load_eq hkey, ok_bind,
        if_pos hb]
      rfl
  | cons c as₁ ih =>
      obtain ⟨fuel, rfl⟩ := Nat.exists_eq_add_one_of_ne_zero (Nat.ne_of_gt
        (Nat.lt_of_le_of_lt (Nat.zero_le _) (Nat.lt_of_succ_lt_succ hfuel)))
      cases bs₁ with
      | nil => simp at hlen
      | cons d bs₁ =>
          obtain ⟨cell, d', bs', hbs', rfl, hne, hcell, hkey, -, hrest⟩ := h.cons_inv
          obtain ⟨rfl, rfl⟩ := List.cons.inj hbs'
          obtain ⟨hd, hbs⟩ := List.forall_mem_cons.mp hbs
          obtain ⟨found, hfound, htext, hloop⟩ :=
            ih hrest (by simpa using hlen) hbs p fuel (by simpa using hfuel)
          refine ⟨found, hfound, htext, ?_⟩
          rw [removeLoop, if_neg hne, Heap.load_eq hcell, ok_bind, Heap.load_eq hkey, ok_bind,
            if_neg hd, hloop, List.getLastD_cons]

end Chain

/-! ## Taking a node out of a bucket -/

/-- `m'` is `m` without the node `cell` at `a`: the other nodes have their keys and values. -/
structure Without (m m' : HashmapMemory size) (a : Addr) (cell : HashmapCell) : Prop where
  freed : m'.nodes a = none
  kept : ∀ c, c ≠ a → (m'.nodes c).map (fun n => (n.key, n.value))
    = (m.nodes c).map (fun n => (n.key, n.value))
  keys : m'.keys = Function.update m.keys cell.key none

/-- A node that is left was there with its key and value. -/
theorem Without.exists_cell {m m' : HashmapMemory size} {a c : Addr} {cell left : HashmapCell}
    (h : m.Without m' a cell) (hleft : m'.nodes c = some left) :
    c ≠ a ∧ ∃ was, m.nodes c = some was ∧ was.key = left.key ∧ was.value = left.value := by
  have hc : c ≠ a := by
    rintro rfl
    rw [h.freed] at hleft
    cases hleft
  have hkept := h.kept c hc
  rw [hleft] at hkept
  obtain ⟨was, hwas, heq⟩ := Option.map_eq_some_iff.mp hkept.symm
  rw [Prod.mk.injEq] at heq
  exact ⟨hc, was, hwas, heq⟩

/-- The key of another node is left alone. -/
theorem Without.keys_of_ne {m m' : HashmapMemory size} {a : Addr} {cell : HashmapCell}
    (h : m.Without m' a cell) {k : Addr} (hk : k ≠ cell.key) : m'.keys k = m.keys k := by
  rw [h.keys, Function.update_of_ne hk]

/-- Of the first node of a bucket, the bucket keeps the rest. -/
theorem dropNode_first {m : HashmapMemory size} (i : Fin size) {a : Addr} {cell : HashmapCell}
    (hcell : m.nodes a = some cell) {text : List UInt8} (hkey : m.keys cell.key = some text) :
    dropNode m i 0 a cell = .ok
      { nodes := Function.update m.nodes a none
        keys := Function.update m.keys cell.key none
        buckets := m.buckets.set i cell.next } := by
  unfold dropNode
  rw [if_pos rfl]
  simp only [ok_bind, Heap.free_eq hkey, Heap.free_eq hcell]

/-- A later node is skipped by the one in front of it. -/
theorem dropNode_later {m : HashmapMemory size} (i : Fin size) {a prev : Addr}
    {cell before : HashmapCell} (hcell : m.nodes a = some cell) {text : List UInt8}
    (hkey : m.keys cell.key = some text) (hprev : prev ≠ 0) (hbefore : m.nodes prev = some before)
    (hne : a ≠ prev) :
    dropNode m i prev a cell = .ok
      { nodes := Function.update (m.nodes.store prev { before with next := cell.next }) a none
        keys := Function.update m.keys cell.key none
        buckets := m.buckets } := by
  have hcell' : m.nodes.store prev { before with next := cell.next } a = some cell := by
    rw [Heap.store_of_ne _ _ hne, hcell]
  unfold dropNode
  rw [if_neg hprev, Heap.load_eq hbefore]
  simp only [ok_map, ok_bind, Heap.free_eq hkey, Heap.free_eq hcell']

/-- The node is unlinked from its bucket and freed; no other bucket is touched. -/
theorem exists_dropNode {m : HashmapMemory size} {i : Fin size} {as₁ as₂ : List Addr} {a : Addr}
    (hseg : Seg HashmapCell.next m.nodes m.buckets[i] (as₁ ++ a :: as₂) 0) {cell : HashmapCell}
    (hcell : m.nodes a = some cell) {text : List UInt8} (hkey : m.keys cell.key = some text) :
    ∃ m', dropNode m i (as₁.getLastD 0) a cell = .ok m' ∧ m.Without m' a cell ∧
      Seg HashmapCell.next m'.nodes m'.buckets[i] (as₁ ++ as₂) 0 ∧
      (∀ c, c ∉ as₁ ++ a :: as₂ → m'.nodes c = m.nodes c) ∧
      ∀ j, j ≠ i → m'.buckets[j] = m.buckets[j] := by
  have hnot : a ∉ as₁ ++ as₂ := (List.nodup_cons.mp (List.nodup_middle.mp hseg.nodup)).1
  have hfree : ∀ c ∈ as₁ ++ as₂, c ≠ a := by
    rintro c hc rfl
    exact hnot hc
  rcases List.eq_nil_or_concat as₁ with rfl | ⟨front, last, rfl⟩
  · -- the first node of the bucket
    obtain ⟨-, -, cell', hcell', hrest⟩ := hseg.cons_inv
    rw [hcell, Option.some.injEq] at hcell'
    subst hcell'
    refine ⟨_, dropNode_first i hcell hkey, ⟨Function.update_self _ _ _, fun c hc => ?_, rfl⟩,
      ?_, fun c hc => ?_, fun j hj => ?_⟩
    · exact congrArg _ (Function.update_of_ne hc _ _)
    · have hhead : (m.buckets.set i cell.next)[i] = cell.next := Vector.getElem_set_self _
      rw [hhead]
      exact hrest.congr fun c hc => Function.update_of_ne (hfree c hc) _ _
    · refine Function.update_of_ne ?_ _ _
      rintro rfl
      exact hc (by simp)
    · exact Vector.getElem_set_ne i.isLt j.isLt fun h => hj (Fin.ext h.symm)
  · -- a later one: the node in front of it is the last of those passed
    rw [List.concat_eq_append] at *
    rw [List.getLastD_concat]
    have hlast : last ∈ front ++ [last] := by simp
    obtain ⟨before, hbefore⟩ := hseg.mem_heap last (by simp)
    have hprev : last ≠ 0 := fun h => hseg.zero_not_mem (h ▸ by simp)
    have hne : last ≠ a := hfree last (List.mem_append_left _ hlast)
    refine ⟨_, dropNode_later i hcell hkey hprev hbefore hne.symm,
      ⟨Function.update_self _ _ _, fun c hc => ?_, rfl⟩, ?_, fun c hc => ?_, fun j _ => rfl⟩
    · refine (congrArg _ (Function.update_of_ne hc _ _)).trans ?_
      exact Heap.map_store hbefore _ (by rfl) c
    · rw [List.append_assoc, List.singleton_append] at hseg ⊢
      refine (hseg.unlink (m := { before with next := cell.next }) hbefore hcell
        (by rfl)).congr fun c hc => ?_
      exact Function.update_of_ne (hfree c (by simpa using hc)) _ _
    · rw [List.mem_append, not_or] at hc
      have hca : c ≠ a := by
        rintro rfl
        exact hc.2 List.mem_cons_self
      have hcl : c ≠ last := by
        rintro rfl
        exact hc.1 hlast
      exact (Function.update_of_ne hca _ _).trans (Heap.store_of_ne _ _ hcl)

/-! ## Putting a node into memory -/

/-- `m'` is `m` with the fresh node `cell` at `node`, pointing to `next`, and its key. -/
structure With (m m' : HashmapMemory size) (node : Addr) (cell : HashmapCell) (next : Addr)
    (text : List UInt8) : Prop where
  fresh : m.nodes node = none
  freshKey : m.keys cell.key = none
  new : m'.nodes node = some { cell with next := next }
  nodes : ∀ c, c ≠ node → m'.nodes c = m.nodes c
  keys : m'.keys = m.keys.store cell.key text

theorem With.keys_of_some {m m' : HashmapMemory size} {node next : Addr} {cell : HashmapCell}
    {text : List UInt8} (h : m.With m' node cell next text) {k : Addr} {text' : List UInt8}
    (hk : m.keys k = some text') : m'.keys k = some text' := by
  have hne : k ≠ cell.key := by
    rintro rfl
    rw [h.freshKey] at hk
    cases hk
  rw [h.keys, Heap.store_of_ne _ _ hne, hk]

/-- The buckets keep their nodes when one is put in memory. -/
theorem With.chain {m m' : HashmapMemory size} {node next : Addr} {cell : HashmapCell}
    {text : List UInt8} (hw : m.With m' node cell next text) {p : Addr} {as : List Addr}
    {bs : List (HashmapNode Addr)} (hchain : m.Chain p as bs) : m'.Chain p as bs := by
  have hother : ∀ c ∈ as, c ≠ node := by
    rintro c hc rfl
    obtain ⟨cell', hcell'⟩ := hchain.seg.mem_heap c hc
    rw [hw.fresh] at hcell'
    cases hcell'
  refine ⟨hchain.seg.congr fun c hc => hw.nodes c (hother c hc), ?_⟩
  have hboth := (List.forall₂_and_left _ _).mpr ⟨hother, hchain.stored⟩
  refine hboth.imp fun c b hb => ?_
  obtain ⟨hc, cell', hcell', htext, hvalue⟩ := hb
  exact ⟨cell', by rw [hw.nodes c hc, hcell'], hw.keys_of_some htext, hvalue⟩

/-! ## Every node is in a bucket -/

/-- Every node is in the list of a bucket. -/
def Full (m : HashmapMemory size) : Prop :=
  ∀ a cell, m.nodes a = some cell →
    ∃ (i : Fin size) (as : List Addr), Seg HashmapCell.next m.nodes m.buckets[i] as 0 ∧ a ∈ as

/-! ## The table a memory holds -/

variable [NeZero size]

/-- The memory holds the table: its buckets are the chains, every node is in the bucket of
its key, and every node has a key of its own. -/
structure Holds (m : HashmapMemory size) (t : Hashmap Addr size) : Prop where
  chain : ∀ i : Fin size, ∃ as, m.Chain m.buckets[i] as t.chains[i]
  home : ∀ i : Fin size, ∀ b ∈ t.chains[i], ChainTable.slot hashFunction size b.key = i
  owns : ∀ a cell, m.nodes a = some cell → ∃ text, m.keys cell.key = some text
  alone : ∀ a a' cell cell', m.nodes a = some cell → m.nodes a' = some cell' →
    cell.key = cell'.key → a = a'

theorem holds_create : (create size).Holds (hashmapCreate Addr size) where
  chain i := by
    refine ⟨[], ?_, ?_⟩
    · simpa [create] using Seg.nil 0
    · simp [hashmapCreate, ChainTable.empty]
  home i b hb := by simp [hashmapCreate, ChainTable.empty] at hb
  owns a cell h := by cases h
  alone a a' cell cell' h := by cases h

namespace Holds

variable {m : HashmapMemory size} {t : Hashmap Addr size}

/-- A node is in the bucket of its key only. -/
theorem bucket_eq (h : m.Holds t) {i j : Fin size} {as bs : List Addr} {a : Addr}
    (hi : List.Forall₂ m.Stored as t.chains[i]) (hj : List.Forall₂ m.Stored bs t.chains[j])
    (has : a ∈ as) (hbs : a ∈ bs) : i = j := by
  obtain ⟨b, hb, cell, hcell, hkey, -⟩ := exists_stored hi has
  obtain ⟨b', hb', cell', hcell', hkey', -⟩ := exists_stored hj hbs
  rw [hcell, Option.some.injEq] at hcell'
  subst hcell'
  rw [hkey, Option.some.injEq] at hkey'
  rw [← h.home i b hb, hkey', h.home j b' hb']

/-- `hashmap_get` answers as the table does. -/
theorem get (h : m.Holds t) (key : List UInt8) :
    m.get key = .ok ((hashmapGet t key).getD 0) := by
  obtain ⟨as, hchain⟩ := h.chain (ChainTable.slot hashFunction size key)
  exact hchain.getLoop_eq key hchain.seg.length_lt

/-- The new node has a key, and no other node has it. -/
theorem owns_of_with (h : m.Holds t) {m' : HashmapMemory size} {node next : Addr}
    {cell : HashmapCell} {text : List UInt8} (hw : m.With m' node cell next text) {a : Addr}
    {found : HashmapCell} (hfound : m'.nodes a = some found) :
    (∃ text', m'.keys found.key = some text') ∧ (found.key = cell.key ↔ a = node) := by
  by_cases ha : a = node
  · subst ha
    rw [hw.new] at hfound
    cases hfound
    exact ⟨⟨text, by rw [hw.keys, Heap.store_self]⟩, by simp⟩
  · rw [hw.nodes a ha] at hfound
    obtain ⟨text', htext⟩ := h.owns a found hfound
    refine ⟨⟨text', hw.keys_of_some htext⟩, fun hkey => ?_, fun hnode => absurd hnode ha⟩
    rw [hkey, hw.freshKey] at htext
    cases htext

/-- `hashmap_insert` of a fresh node hangs it in where the table does. -/
theorem insert (h : m.Holds t) {node : Addr} (hnull : node ≠ 0) (hnode : m.nodes node = none)
    {cell : HashmapCell} (hkey : m.keys cell.key = none) (text : List UInt8) :
    ∃ m', (m.malloc node cell text).insert node = .ok (0, m') ∧
      m'.Holds (hashmapInsert t ⟨text, cell.value⟩) := by
  let i := ChainTable.slot hashFunction size text
  let m' : HashmapMemory size :=
    { nodes := (m.nodes.store node cell).store node { cell with next := m.buckets[i] }
      keys := m.keys.store cell.key text
      buckets := m.buckets.set i node }
  have hw : m.With m' node cell m.buckets[i] text :=
    ⟨hnode, hkey, Heap.store_self _ _ _,
      fun c hc => (Heap.store_of_ne _ _ hc).trans (Heap.store_of_ne _ _ hc), rfl⟩
  have hother : ∀ j : Fin size, j ≠ i → m'.buckets[j] = m.buckets[j] ∧
      (hashmapInsert t ⟨text, cell.value⟩).chains[j] = t.chains[j] := fun j hj =>
    ⟨Vector.getElem_set_ne i.isLt j.isLt fun hij => hj (Fin.ext hij.symm),
      Vector.getElem_set_ne i.isLt j.isLt fun hij => hj (Fin.ext hij.symm)⟩
  have hself : m'.buckets[i] = node ∧
      (hashmapInsert t ⟨text, cell.value⟩).chains[i] = ⟨text, cell.value⟩ :: t.chains[i] :=
    ⟨Vector.getElem_set_self _, Vector.getElem_set_self _⟩
  refine ⟨m', ?_, fun j => ?_, fun j => ?_, fun a found hfound => (h.owns_of_with hw hfound).1,
    fun a a' found found' hfound hfound' heq => ?_⟩
  · have hload : (m.malloc node cell text).nodes node = some cell := Heap.store_self _ _ _
    have htext : (m.malloc node cell text).keys cell.key = some text := Heap.store_self _ _ _
    rw [HashmapMemory.insert, Heap.load_eq hload, ok_bind, Heap.load_eq htext]
    rfl
  · obtain ⟨as, hchain⟩ := h.chain j
    by_cases hj : j = i
    · subst hj
      rw [hself.1, hself.2]
      obtain ⟨hseg, hstored⟩ := hw.chain hchain
      exact ⟨node :: as, .cons hnull hw.new hseg,
        .cons ⟨_, hw.new, Heap.store_self _ _ _, rfl⟩ hstored⟩
    · rw [(hother j hj).1, (hother j hj).2]
      exact ⟨as, hw.chain hchain⟩
  · by_cases hj : j = i
    · subst hj
      rw [hself.2]
      exact List.forall_mem_cons.mpr ⟨rfl, h.home _⟩
    · rw [(hother j hj).2]
      exact h.home j
  · by_cases ha : a = node
    · rw [ha, eq_comm, ← (h.owns_of_with hw hfound').2, ← heq, (h.owns_of_with hw hfound).2, ha]
    · have ha' : a' ≠ node := by
        rw [ne_eq, ← (h.owns_of_with hw hfound').2, ← heq, (h.owns_of_with hw hfound).2]
        exact ha
      rw [hw.nodes a ha] at hfound
      rw [hw.nodes a' ha'] at hfound'
      exact h.alone a a' found found' hfound hfound' heq

/-- The key of a node goes with no other node. -/
theorem key_ne (h : m.Holds t) {a c : Addr} {cell other : HashmapCell}
    (hcell : m.nodes a = some cell) (hother : m.nodes c = some other) (hc : c ≠ a) :
    other.key ≠ cell.key :=
  fun hkey => hc (h.alone c a other cell hother hcell hkey)

/-- The other nodes do not notice that one is freed. -/
theorem stored_of_without (h : m.Holds t) {m' : HashmapMemory size} {a c : Addr}
    {cell : HashmapCell} (hw : m.Without m' a cell) (hcell : m.nodes a = some cell) (hc : c ≠ a)
    {b : HashmapNode Addr} (hb : m.Stored c b) : m'.Stored c b := by
  obtain ⟨was, hwas, hkey, hvalue⟩ := hb
  have hkept := hw.kept c hc
  rw [hwas] at hkept
  obtain ⟨left, hleft, heq⟩ := Option.map_eq_some_iff.mp hkept
  rw [Prod.mk.injEq] at heq
  refine ⟨left, hleft, ?_, heq.2.trans hvalue⟩
  rw [heq.1, hw.keys_of_ne (h.key_ne hcell hwas hc), hkey]

theorem forall₂_stored (h : m.Holds t) {m' : HashmapMemory size} {a : Addr}
    {cell : HashmapCell} (hw : m.Without m' a cell) (hcell : m.nodes a = some cell)
    {as : List Addr} {bs : List (HashmapNode Addr)} (has : ∀ c ∈ as, c ≠ a)
    (hstored : List.Forall₂ m.Stored as bs) : List.Forall₂ m'.Stored as bs := by
  have hboth := (List.forall₂_and_left as bs).mpr ⟨has, hstored⟩
  exact hboth.imp fun c b hb => h.stored_of_without hw hcell hb.1 hb.2

/-- A memory without a node of a chain holds the table without it. -/
theorem of_without (h : m.Holds t) {m' : HashmapMemory size} {i : Fin size} {a : Addr}
    {cell : HashmapCell} (hw : m.Without m' a cell) (hcell : m.nodes a = some cell)
    {as₁ as₂ : List Addr} {bs₁ bs₂ : List (HashmapNode Addr)} {b : HashmapNode Addr}
    (hbs : t.chains[i] = bs₁ ++ b :: bs₂)
    (hchain : m.Chain m.buckets[i] (as₁ ++ a :: as₂) (bs₁ ++ b :: bs₂))
    (hfront : List.Forall₂ m.Stored as₁ bs₁) (hback : List.Forall₂ m.Stored as₂ bs₂)
    (hseg : Seg HashmapCell.next m'.nodes m'.buckets[i] (as₁ ++ as₂) 0)
    (hothers : ∀ c, c ∉ as₁ ++ a :: as₂ → m'.nodes c = m.nodes c)
    (hbuckets : ∀ j, j ≠ i → m'.buckets[j] = m.buckets[j]) :
    m'.Holds ⟨t.chains.set i (bs₁ ++ bs₂)⟩ := by
  have hself : (t.chains.set i (bs₁ ++ bs₂))[i] = bs₁ ++ bs₂ := Vector.getElem_set_self _
  have hother : ∀ j : Fin size, j ≠ i → (t.chains.set i (bs₁ ++ bs₂))[j] = t.chains[j] :=
    fun j hj => Vector.getElem_set_ne i.isLt j.isLt fun hij => hj (Fin.ext hij.symm)
  refine ⟨fun j => ?_, fun j => ?_, fun c left hleft => ?_, fun c c' left left' hleft hleft' => ?_⟩
  · by_cases hj : j = i
    · subst hj
      rw [hself]
      refine ⟨as₁ ++ as₂, hseg, h.forall₂_stored hw hcell ?_ (List.rel_append hfront hback)⟩
      rintro c hc rfl
      exact (List.nodup_cons.mp (List.nodup_middle.mp hchain.seg.nodup)).1 hc
    · rw [hother j hj, hbuckets j hj]
      obtain ⟨as, hjchain⟩ := h.chain j
      have hapart : ∀ c ∈ as, c ∉ as₁ ++ a :: as₂ := fun c hc hmem =>
        hj (h.bucket_eq hjchain.stored (hbs ▸ hchain.stored) hc hmem)
      refine ⟨as, hjchain.seg.congr fun c hc => hothers c (hapart c hc),
        h.forall₂_stored hw hcell ?_ hjchain.stored⟩
      rintro c hc rfl
      exact hapart c hc (by simp)
  · by_cases hj : j = i
    · subst hj
      rw [hself]
      intro c hc
      refine h.home j c ?_
      rw [hbs]
      rcases List.mem_append.mp hc with hc | hc
      · exact List.mem_append_left _ hc
      · exact List.mem_append_right _ (List.mem_cons_of_mem _ hc)
    · rw [hother j hj]
      exact h.home j
  · obtain ⟨hc, was, hwas, hkey, -⟩ := hw.exists_cell hleft
    obtain ⟨text, htext⟩ := h.owns c was hwas
    refine ⟨text, ?_⟩
    rw [← hkey, hw.keys_of_ne (h.key_ne hcell hwas hc), htext]
  · intro heq
    obtain ⟨-, was, hwas, hkey, -⟩ := hw.exists_cell hleft
    obtain ⟨-, was', hwas', hkey', -⟩ := hw.exists_cell hleft'
    exact h.alone c c' was was' hwas hwas' (by rw [hkey, hkey', heq])

/-- `hashmap_remove` removes what the table does. -/
theorem remove (h : m.Holds t) (key : List UInt8) :
    ∃ m', m.remove key = .ok ((hashmapRemove t key).1, m') ∧
      m'.Holds (hashmapRemove t key).2 ∧ ((hashmapRemove t key).1 = -1 → m' = m) := by
  obtain ⟨as, hchain⟩ := h.chain (ChainTable.slot hashFunction size key)
  unfold hashmapRemove ChainTable.remove
  cases hremoved : ChainTable.removeFirst HashmapNode.key key
      (ChainTable.chain hashFunction t key) with
  | none =>
      refine ⟨m, ?_, h, fun _ => rfl⟩
      exact hchain.removeLoop_of_forall_ne (ChainTable.removeFirst_eq_none_iff.mp hremoved) _ 0
        hchain.seg.length_lt
  | some l =>
      obtain ⟨bs₁, b, bs₂, hbs, hne, hb, rfl⟩ := ChainTable.exists_of_removeFirst hremoved
      have hbs : t.chains[ChainTable.slot hashFunction size key] = bs₁ ++ b :: bs₂ := hbs
      rw [hbs] at hchain
      obtain ⟨as₁, a, as₂, rfl, hfront, hback⟩ := exists_of_forall₂_append_cons hchain.stored
      have hlen := hchain.seg.length_lt
      rw [List.length_append] at hlen
      obtain ⟨cell, hcell, hkey, hloop⟩ := hchain.removeLoop_of_mem hfront.length_eq hne hb
        (ChainTable.slot hashFunction size key) 0
        (Nat.lt_of_le_of_lt (Nat.le_add_right _ _) hlen)
      obtain ⟨m', hdrop, hw, hseg, hothers, hbuckets⟩ := exists_dropNode hchain.seg hcell hkey
      refine ⟨m', ?_, h.of_without hw hcell hbs hchain hfront hback hseg hothers hbuckets,
        fun hz => ?_⟩
      · rw [HashmapMemory.remove, hloop, hdrop]
        rfl
      · simp at hz

end Holds

/-! ## The buckets apart -/

/-- No node is in the lists of two buckets. -/
theorem Holds.disjoint {m : HashmapMemory size} {t : Hashmap Addr size}
    (h : m.Holds t) {i j : Fin size} (hij : i ≠ j) {as bs : List Addr}
    (hi : Seg HashmapCell.next m.nodes m.buckets[i] as 0)
    (hj : Seg HashmapCell.next m.nodes m.buckets[j] bs 0) : as.Disjoint bs := by
  intro a ha hb
  obtain ⟨as', hi'⟩ := h.chain i
  obtain ⟨bs', hj'⟩ := h.chain j
  obtain rfl := hi.unique hi'.seg
  obtain rfl := hj.unique hj'.seg
  exact hij (h.bucket_eq hi'.stored hj'.stored ha hb)

/-! ## Inserting and removing -/

/-- The memory behind `hashmap_insert` of a fresh node. -/
def hang (m : HashmapMemory size) (node : Addr) (cell : HashmapCell) (text : List UInt8) :
    HashmapMemory size :=
  let i := ChainTable.slot hashFunction size text
  { nodes := m.nodes.store node { cell with next := getElem m.buckets i i.isLt }
    keys := m.keys.store cell.key text
    buckets := m.buckets.set i node i.isLt }

theorem malloc_insert (m : HashmapMemory size) (node : Addr) (cell : HashmapCell)
    (text : List UInt8) :
    (m.malloc node cell text).insert node = .ok (0, m.hang node cell text) := by
  have hload : (m.malloc node cell text).nodes node = some cell := Heap.store_self _ _ _
  have htext : (m.malloc node cell text).keys cell.key = some text := Heap.store_self _ _ _
  have hidem : ∀ n, (m.nodes.store node cell).store node n = m.nodes.store node n :=
    fun n => Function.update_idem _ _ _
  rw [insert, Heap.load_eq hload, ok_bind, Heap.load_eq htext, hang, ← hidem]
  rfl

/-- The new node is in its bucket, and the others are still in theirs. -/
theorem Full.hang {m : HashmapMemory size} {t : Hashmap Addr size} (hfull : m.Full) (h : m.Holds t)
    {node : Addr} (hnull : node ≠ 0) (hfresh : m.nodes node = none) (cell : HashmapCell)
    (text : List UInt8) : (m.hang node cell text).Full := by
  let i := ChainTable.slot hashFunction size text
  have hkeep : ∀ {p : Addr} {as : List Addr}, Seg HashmapCell.next m.nodes p as 0 →
      Seg HashmapCell.next (m.hang node cell text).nodes p as 0 := by
    intro p as hseg
    apply hseg.congr
    intro b hb
    apply Heap.store_of_ne
    rintro rfl
    obtain ⟨found, hfound⟩ := hseg.mem_heap b hb
    rw [hfresh] at hfound
    cases hfound
  have hself : (m.hang node cell text).buckets[i] = node := Vector.getElem_set_self _
  have hbucket : ∀ {as : List Addr}, Seg HashmapCell.next m.nodes m.buckets[i] as 0 →
      Seg HashmapCell.next (m.hang node cell text).nodes (m.hang node cell text).buckets[i]
        (node :: as) 0 := by
    intro as hseg
    rw [hself]
    exact .cons hnull (Heap.store_self _ _ _) (hkeep hseg)
  intro a found hfound
  by_cases ha : a = node
  · obtain ⟨as, hchain⟩ := h.chain i
    exact ⟨i, node :: as, hbucket hchain.seg, ha ▸ List.mem_cons_self⟩
  · have hwas : m.nodes a = some found := (Heap.store_of_ne _ _ ha).symm.trans hfound
    obtain ⟨j, as, hseg, hmem⟩ := hfull a found hwas
    by_cases hj : j = i
    · subst hj
      exact ⟨i, node :: as, hbucket hseg, List.mem_cons_of_mem _ hmem⟩
    · have hother : (m.hang node cell text).buckets[j] = m.buckets[j] :=
        Vector.getElem_set_ne i.isLt j.isLt fun hij => hj (Fin.ext hij.symm)
      refine ⟨j, as, ?_, hmem⟩
      rw [hother]
      exact hkeep hseg

/-- What `hashmap_remove` does to the memory: nothing, or a node is unlinked and freed. -/
theorem Holds.remove_cases {m m' : HashmapMemory size} {t : Hashmap Addr size} (h : m.Holds t)
    {key : List UInt8} {code : ℤ} (hok : m.remove key = .ok (code, m')) :
    m' = m ∨ ∃ (i : Fin size) (as₁ as₂ : List Addr) (a : Addr) (cell : HashmapCell),
      Seg HashmapCell.next m.nodes m.buckets[i] (as₁ ++ a :: as₂) 0 ∧ m.nodes a = some cell ∧
      m.Without m' a cell ∧ Seg HashmapCell.next m'.nodes m'.buckets[i] (as₁ ++ as₂) 0 ∧
      (∀ c, c ∉ as₁ ++ a :: as₂ → m'.nodes c = m.nodes c) ∧
      ∀ j, j ≠ i → m'.buckets[j] = m.buckets[j] := by
  obtain ⟨as, hchain⟩ := h.chain (ChainTable.slot hashFunction size key)
  cases hremoved : ChainTable.removeFirst HashmapNode.key key
      (ChainTable.chain hashFunction t key) with
  | none =>
      have hrun := hchain.removeLoop_of_forall_ne (ChainTable.removeFirst_eq_none_iff.mp hremoved)
        (ChainTable.slot hashFunction size key) 0 hchain.seg.length_lt
      rw [HashmapMemory.remove, hrun, Except.ok.injEq, Prod.mk.injEq] at hok
      exact Or.inl hok.2.symm
  | some l =>
      obtain ⟨bs₁, b, bs₂, hbs, hne, hb, rfl⟩ := ChainTable.exists_of_removeFirst hremoved
      have hbs : t.chains[ChainTable.slot hashFunction size key] = bs₁ ++ b :: bs₂ := hbs
      rw [hbs] at hchain
      obtain ⟨as₁, a, as₂, rfl, hfront, -⟩ := exists_of_forall₂_append_cons hchain.stored
      have hlen := hchain.seg.length_lt
      rw [List.length_append] at hlen
      obtain ⟨cell, hcell, hkey, hloop⟩ := hchain.removeLoop_of_mem hfront.length_eq hne hb
        (ChainTable.slot hashFunction size key) 0
        (Nat.lt_of_le_of_lt (Nat.le_add_right _ _) hlen)
      obtain ⟨m₁, hdrop, hw, hseg, hothers, hbuckets⟩ := exists_dropNode hchain.seg hcell hkey
      rw [HashmapMemory.remove, hloop, hdrop, ok_map, Except.ok.injEq, Prod.mk.injEq] at hok
      obtain ⟨-, rfl⟩ := hok
      exact Or.inr ⟨_, as₁, as₂, a, cell, hchain.seg, hcell, hw, hseg, hothers, hbuckets⟩

/-- The nodes that are left are still in their buckets. -/
theorem Full.remove {m m' : HashmapMemory size} {t : Hashmap Addr size} (hfull : m.Full)
    (h : m.Holds t) {key : List UInt8} {code : ℤ} (hok : m.remove key = .ok (code, m')) :
    m'.Full := by
  rcases h.remove_cases hok with
    rfl | ⟨i, as₁, as₂, a, cell, hi, hcell, hw, hseg, hothers, hbuckets⟩
  · exact hfull
  · intro c left hleft
    obtain ⟨hca, was, hwas, -⟩ := hw.exists_cell hleft
    obtain ⟨j, bs, hj, hc⟩ := hfull c was hwas
    by_cases hij : j = i
    · subst hij
      obtain rfl := hj.unique hi
      refine ⟨j, as₁ ++ as₂, hseg, ?_⟩
      simpa [hca] using hc
    · refine ⟨j, bs, ?_, hc⟩
      rw [hbuckets j hij]
      apply hj.congr
      intro b hb
      exact hothers b fun hmem => h.disjoint hij hj hi hb hmem

end HashmapMemory

/-! ## The map as a stack for every key -/

/-- A call of `dm_map`. -/
inductive HashmapCall where
  | insert (key : List UInt8) (value : Addr)
  | remove (key : List UInt8)
  | get (key : List UInt8)

namespace HashmapCall

/-- The key of a call. -/
def key : HashmapCall → List UInt8
  | insert key _ => key
  | remove key => key
  | get key => key

/-- What a call does to the values of each key. -/
def edit (values : List UInt8 → List Addr) : HashmapCall → List UInt8 → List Addr
  | insert key value => Function.update values key (value :: values key)
  | remove key => Function.update values key (values key).tail
  | get _ => values

/-- The values of a key that were inserted and not yet removed, the newest first. -/
def stackOf (calls : List HashmapCall) : List UInt8 → List Addr :=
  calls.foldl edit fun _ => []

theorem stackOf_concat (calls : List HashmapCall) (call : HashmapCall) :
    stackOf (calls ++ [call]) = edit (stackOf calls) call :=
  List.foldl_concat _ _ _ _

/-- A call does nothing to the stacks of the other keys. -/
theorem edit_of_ne (values : List UInt8 → List Addr) (call : HashmapCall) {k : List UInt8}
    (hk : k ≠ call.key) : edit values call k = values k := by
  cases call with
  | insert key value => exact Function.update_of_ne hk _ _
  | remove key => exact Function.update_of_ne hk _ _
  | get key => rfl

end HashmapCall

section
variable {size : ℕ} [NeZero size]

/-- The table has the stacks. -/
def HasStacks (t : Hashmap Addr size) (values : List UInt8 → List Addr) : Prop :=
  ∀ k, (ChainTable.bindings HashmapNode.key hashFunction t k).map HashmapNode.value = values k

namespace HasStacks

variable {t : Hashmap Addr size} {values : List UInt8 → List Addr}

theorem create : HasStacks (hashmapCreate Addr size) fun _ => [] := by
  intro k
  rw [hashmapCreate, ChainTable.bindings_empty, List.map_nil]

/-- `hashmap_get` sees the top of a stack. -/
theorem get (h : HasStacks t values) (key : List UInt8) :
    hashmapGet t key = (values key).head? := by
  rw [hashmapGet_eq, ← h key, List.head?_map]

/-- `hashmap_insert` pushes. -/
theorem insert (h : HasStacks t values) (node : HashmapNode Addr) :
    HasStacks (hashmapInsert t node) (HashmapCall.edit values (.insert node.key node.value)) := by
  intro k
  by_cases hk : k = node.key
  · subst hk
    rw [hashmapInsert, ChainTable.bindings_push_self, List.map_cons, h, HashmapCall.edit,
      Function.update_self]
  · rw [hashmapInsert, ChainTable.bindings_push_of_ne _ _ hk, h, HashmapCall.edit,
      Function.update_of_ne hk]

/-- `hashmap_remove` pops, and says whether there was something to pop. -/
theorem remove (h : HasStacks t values) (key : List UInt8) :
    HasStacks (hashmapRemove t key).2 (HashmapCall.edit values (.remove key)) ∧
      (hashmapRemove t key).1 = if values key = [] then -1 else 0 := by
  have hself : (ChainTable.remove HashmapNode.key hashFunction t key).map
      (fun t' => (ChainTable.bindings HashmapNode.key hashFunction t' key).map HashmapNode.value)
        = (values key).tail? := by
    rw [← h key, ← List.map_tail?, ← ChainTable.bindings_remove_self, Option.map_map]
    rfl
  unfold hashmapRemove
  cases hremoved : ChainTable.remove HashmapNode.key hashFunction t key with
  | none =>
      rw [hremoved, Option.map_none] at hself
      cases hvalues : values key with
      | cons value rest => simp [hvalues] at hself
      | nil =>
          refine ⟨fun k => ?_, by rw [if_pos rfl]⟩
          have hsame : Function.update values key (values key).tail = values :=
            Function.update_eq_self_iff.mpr (by rw [hvalues, List.tail_nil])
          rw [h k, HashmapCall.edit, hsame]
  | some t' =>
      rw [hremoved, Option.map_some] at hself
      cases hvalues : values key with
      | nil => simp [hvalues] at hself
      | cons value rest =>
          rw [hvalues, List.tail?_cons, Option.some.injEq] at hself
          refine ⟨fun k => ?_, by rw [if_neg (List.cons_ne_nil _ _)]⟩
          by_cases hk : k = key
          · subst hk
            rw [HashmapCall.edit, Function.update_self, hvalues, List.tail_cons, hself]
          · rw [HashmapCall.edit, Function.update_of_ne hk, ← h k,
              ChainTable.bindings_remove_of_ne hremoved hk]

end HasStacks

/-! ## Runs -/

/-- A call that goes through. -/
inductive HashmapStep : HashmapMemory size → HashmapCall → HashmapMemory size → Prop where
  | insert {m m' : HashmapMemory size} {node : Addr} {cell : HashmapCell} {key : List UInt8}
      {code : ℤ} (null : node ≠ 0) (fresh : m.nodes node = none)
      (freshKey : m.keys cell.key = none)
      (ok : (m.malloc node cell key).insert node = .ok (code, m')) :
      HashmapStep m (.insert key cell.value) m'
  | remove {m m' : HashmapMemory size} {key : List UInt8} {code : ℤ}
      (ok : m.remove key = .ok (code, m')) : HashmapStep m (.remove key) m'
  | get {m : HashmapMemory size} {key : List UInt8} {value : Addr}
      (ok : m.get key = .ok value) : HashmapStep m (.get key) m

/-- The memory holds a table that has the stacks. -/
def Refines (m : HashmapMemory size) (values : List UInt8 → List Addr) : Prop :=
  ∃ t, m.Holds t ∧ HasStacks t values

/-- Every call keeps the memory in step with the stacks. -/
theorem Refines.step {m m' : HashmapMemory size} {values : List UInt8 → List Addr}
    (h : Refines m values) {call : HashmapCall} (hstep : HashmapStep m call m') :
    Refines m' (HashmapCall.edit values call) := by
  obtain ⟨t, hholds, hstacks⟩ := h
  cases hstep with
  | @insert _ node cell key code hnull hfresh hkey hok =>
      obtain ⟨m₁, hok₁, hholds₁⟩ := hholds.insert hnull hfresh hkey key
      rw [hok, Except.ok.injEq, Prod.mk.injEq] at hok₁
      exact ⟨_, hok₁.2 ▸ hholds₁, hstacks.insert ⟨key, cell.value⟩⟩
  | @remove _ key code hok =>
      obtain ⟨m₁, hok₁, hholds₁, -⟩ := hholds.remove key
      rw [hok, Except.ok.injEq, Prod.mk.injEq] at hok₁
      exact ⟨_, hok₁.2 ▸ hholds₁, (hstacks.remove key).1⟩
  | get => exact ⟨t, hholds, hstacks⟩

/-- A run keeps them in step from the created map on. -/
theorem refines_of_steps {m : HashmapMemory size} {calls : List HashmapCall}
    (h : Steps HashmapStep (HashmapMemory.create size) calls m) :
    Refines m (HashmapCall.stackOf calls) := by
  induction h with
  | nil => exact ⟨_, HashmapMemory.holds_create, HasStacks.create⟩
  | snoc _ hlast ih =>
      rw [HashmapCall.stackOf_concat]
      exact ih.step hlast

/-- In step with the stacks, `hashmap_get` answers with the top. -/
theorem Refines.get {m : HashmapMemory size} {values : List UInt8 → List Addr}
    (h : Refines m values) (key : List UInt8) : m.get key = .ok ((values key).head?.getD 0) := by
  obtain ⟨t, hholds, hstacks⟩ := h
  rw [hholds.get, hstacks.get]

/-- In step with the stacks, `hashmap_remove` takes the top off. -/
theorem Refines.remove {m : HashmapMemory size} {values : List UInt8 → List Addr}
    (h : Refines m values) (key : List UInt8) :
    ∃ m', m.remove key = .ok (if values key = [] then -1 else 0, m') ∧
      Refines m' (HashmapCall.edit values (.remove key)) ∧ (values key = [] → m' = m) := by
  obtain ⟨t, hholds, hstacks⟩ := h
  obtain ⟨m', hok, hholds', hsame⟩ := hholds.remove key
  obtain ⟨hstacks', hcode⟩ := hstacks.remove key
  rw [hcode] at hok hsame
  exact ⟨m', hok, ⟨_, hholds', hstacks'⟩, fun hnil => hsame (if_pos hnil)⟩

end
