/-
# The hash map of `dm_map` and its hash `BKDRHash`

`hashmap_t` is a table of chained nodes (`ChainTable`) hashed by `BKDRHash`; its
`size` is the number of slots.  A node's `key` is the text `strcmp` compares, its
`value` whatever the caller hangs in.  `malloc` is taken to succeed, and a node is
its contents: how many bytes the caller asked for is not part of the map.

What callers rely on is `hashmapGet_hashmapInsert`: the newest value of a key,
and no effect on any other key, however `BKDRHash` lets keys collide.
-/
import DmfServer.CMemory
import DmfServer.ChainTable

open CMem

/-- `BKDRHash`: the characters are `signed char`, the arithmetic is that of a
32-bit `unsigned int`, the top bit is masked off. -/
def bkdrHash (str : List UInt8) : UInt32 :=
  str.foldl (fun hash c => hash * 131 + c.toInt8.toInt32.toUInt32) 0 &&& 0x7FFFFFFF

/-- `HASH_FUNCTION` as the index arithmetic uses it. -/
def hashFunction (key : List UInt8) : ℕ := (bkdrHash key).toNat

/-- `hashmap_node_t`; the `next` pointer is the chain the node is in. -/
structure HashmapNode (α : Type) where
  /-- `char *key`. -/
  key : List UInt8
  /-- `void *value`. -/
  value : α
  deriving DecidableEq

/-- `hashmap_t`, with its `size`. -/
abbrev Hashmap (α : Type) (size : ℕ) := ChainTable (HashmapNode α) size

section
variable {α : Type} {size : ℕ}

/-- `hashmap_create`. -/
def hashmapCreate (α : Type) (size : ℕ) : Hashmap α size := ChainTable.empty _ size

variable [NeZero size]

/-- `hashmap_insert`: the node goes to the head of its bucket. -/
def hashmapInsert (hashmap : Hashmap α size) (node : HashmapNode α) : Hashmap α size :=
  ChainTable.push HashmapNode.key hashFunction hashmap node

/-- `hashmap_get`: the value of the first node with the key, `none` for `NULL`. -/
def hashmapGet (hashmap : Hashmap α size) (key : List UInt8) : Option α :=
  ChainTable.search HashmapNode.key hashFunction hashmap key (fun node => some node.value)

/-- `hashmap_remove`: the first node with the key is taken out of its bucket, and 0
returned; -1 if there is none. -/
def hashmapRemove (hashmap : Hashmap α size) (key : List UInt8) : ℤ × Hashmap α size :=
  match ChainTable.remove HashmapNode.key hashFunction hashmap key with
  | some hashmap' => (0, hashmap')
  | none => (-1, hashmap)

/-- `hashmap_get` sees the newest node of its key. -/
theorem hashmapGet_eq (hashmap : Hashmap α size) (key : List UInt8) :
    hashmapGet hashmap key
      = (ChainTable.bindings HashmapNode.key hashFunction hashmap key).head?.map
          HashmapNode.value := by
  rw [hashmapGet, ChainTable.search_eq]
  cases ChainTable.bindings HashmapNode.key hashFunction hashmap key <;> rfl

@[simp] theorem hashmapGet_hashmapCreate (key : List UInt8) :
    hashmapGet (hashmapCreate α size) key = none := by
  simp [hashmapGet_eq, hashmapCreate]

/-- An insertion shows under its own key and under no other. -/
theorem hashmapGet_hashmapInsert (hashmap : Hashmap α size) (node : HashmapNode α)
    (key : List UInt8) :
    hashmapGet (hashmapInsert hashmap node) key
      = if key = node.key then some node.value else hashmapGet hashmap key := by
  rw [hashmapGet_eq, hashmapGet_eq, hashmapInsert]
  split
  · next h =>
    subst h
    rw [ChainTable.bindings_push_self]
    rfl
  · next h => rw [ChainTable.bindings_push_of_ne _ _ h]

/-- Insert a list of nodes, the first one first. -/
def insertAll (hashmap : Hashmap α size) (nodes : List (HashmapNode α)) : Hashmap α size :=
  nodes.foldl hashmapInsert hashmap

theorem insertAll_append (hashmap : Hashmap α size) (nodes more : List (HashmapNode α)) :
    insertAll hashmap (nodes ++ more) = insertAll (insertAll hashmap nodes) more :=
  List.foldl_append

/-- The value of the last node with the key in a list of nodes. -/
def lastValue (nodes : List (HashmapNode α)) (key : List UInt8) : Option α :=
  (nodes.findRev? (fun node => node.key = key)).map HashmapNode.value

/-- After inserting a list of nodes, the map answers with the last one of each key. -/
theorem hashmapGet_insertAll (hashmap : Hashmap α size) (nodes : List (HashmapNode α))
    (key : List UInt8) :
    hashmapGet (insertAll hashmap nodes) key
      = (lastValue nodes key).or (hashmapGet hashmap key) := by
  induction nodes generalizing hashmap with
  | nil => rfl
  | cons node nodes ih =>
      rw [insertAll, List.foldl_cons, ← insertAll, ih, hashmapGet_hashmapInsert]
      unfold lastValue
      rw [List.findRev?]
      cases nodes.findRev? (fun n => n.key = key) with
      | some n => rfl
      | none =>
          by_cases h : node.key = key
          · simp [h]
          · simp [h, Ne.symm h]

/-- A map built by insertions alone answers with the last node of each key. -/
theorem hashmapGet_insertAll_create (nodes : List (HashmapNode α)) (key : List UInt8) :
    hashmapGet (insertAll (hashmapCreate α size) nodes) key = lastValue nodes key := by
  rw [hashmapGet_insertAll, hashmapGet_hashmapCreate, Option.or_none]

end
