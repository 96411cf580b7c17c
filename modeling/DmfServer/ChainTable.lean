/-
# Tables of chained nodes

A library for hash tables that hang the nodes of one slot on a chain: `n` slots,
a slot for each key, new nodes at the head of the chain.  Nothing here knows what
a node is beyond its key, nor how keys are hashed.

What a table means is `bindings`: the nodes of one key in the order the chain
holds them, newest first.  Every operation below is an edit of one chain, and an
edit that leaves the nodes of the other keys where they are (`KeepsOthers`) is
invisible to the other keys, whether or not they share the slot.
-/
import Mathlib.Data.Vector.Basic
import Mathlib.Tactic

/-- `n` chains of nodes. -/
structure ChainTable (β : Type) (n : ℕ) where
  /-- The chains, by slot. -/
  chains : Vector (List β) n
  deriving DecidableEq

namespace ChainTable

variable {κ β ρ : Type} {n : ℕ} [NeZero n]

/-- The table of empty chains. -/
def empty (β : Type) (n : ℕ) : ChainTable β n := ⟨Vector.replicate n []⟩

section
variable (key : β → κ) (hash : κ → ℕ)

/-- The slot of a key. -/
def slot (n : ℕ) [NeZero n] (k : κ) : Fin n := ⟨hash k % n, Nat.mod_lt _ (NeZero.pos n)⟩

/-- The chain in the slot of a key. -/
def chain (t : ChainTable β n) (k : κ) : List β := t.chains[slot hash n k]

/-- Replace the chain in the slot of `k` by what `f` makes of it. -/
def edit (t : ChainTable β n) (k : κ) (f : List β → List β) : ChainTable β n :=
  ⟨t.chains.set (slot hash n k) (f (chain hash t k))⟩

variable [DecidableEq κ]

/-- The nodes of `k`, in the order of its chain. -/
def bindings (t : ChainTable β n) (k : κ) : List β :=
  (chain hash t k).filter (fun b => key b = k)

/-- A node hung in at the head of its key's chain. -/
def push (t : ChainTable β n) (b : β) : ChainTable β n :=
  edit hash t (key b) (fun l => b :: l)

/-- `f` asked of the nodes of `k` only. -/
def onKey (k : κ) (f : β → Option ρ) (b : β) : Option ρ := if key b = k then f b else none

/-- The first node of `k` on which `f` answers gives the answer. -/
def search (t : ChainTable β n) (k : κ) (f : β → Option ρ) : Option ρ :=
  (chain hash t k).findSome? (onKey key k f)

/-- An edit of a chain that leaves the nodes of all keys but `k` as they were. -/
def KeepsOthers (k : κ) (l l' : List β) : Prop :=
  ∀ k', k' ≠ k → l'.filter (fun b => key b = k') = l.filter (fun b => key b = k')

end

variable {key : β → κ} {hash : κ → ℕ}

/-- Keys that share a slot share its chain. -/
theorem chain_eq_of_slot_eq (t : ChainTable β n) {k k' : κ}
    (h : slot hash n k' = slot hash n k) : chain hash t k' = chain hash t k := by
  simp only [chain, h]

theorem chain_edit_self (t : ChainTable β n) (k : κ) (f : List β → List β) :
    chain hash (edit hash t k f) k = f (chain hash t k) := by
  simp [chain, edit]

theorem chain_edit_of_slot_ne (t : ChainTable β n) {k k' : κ} (f : List β → List β)
    (h : slot hash n k' ≠ slot hash n k) :
    chain hash (edit hash t k f) k' = chain hash t k' := by
  have hval : (slot hash n k : ℕ) ≠ slot hash n k' := fun he => h (Fin.ext he.symm)
  simp only [chain, edit, Fin.getElem_fin]
  rw [Vector.getElem_set_ne _ _ hval]

variable [DecidableEq κ]

@[simp] theorem bindings_empty (k : κ) :
    bindings key hash (empty β n) k = [] := by
  simp [bindings, chain, empty]

/-- The edited key sees what the edit did to its nodes. -/
theorem bindings_edit_self (t : ChainTable β n) (k : κ) (f : List β → List β) :
    bindings key hash (edit hash t k f) k
      = (f (chain hash t k)).filter (fun b => key b = k) := by
  rw [bindings, chain_edit_self]

/-- The other keys see nothing of an edit that keeps them. -/
theorem bindings_edit_of_ne (t : ChainTable β n) {k k' : κ} {f : List β → List β}
    (hf : KeepsOthers key k (chain hash t k) (f (chain hash t k))) (hk : k' ≠ k) :
    bindings key hash (edit hash t k f) k' = bindings key hash t k' := by
  by_cases hslot : slot hash n k' = slot hash n k
  · rw [bindings, bindings, chain_eq_of_slot_eq _ hslot, chain_eq_of_slot_eq t hslot,
      chain_edit_self, hf k' hk]
  · rw [bindings, bindings, chain_edit_of_slot_ne t f hslot]

/-! ## Hanging in a node -/

theorem keepsOthers_cons (b : β) (l : List β) : KeepsOthers key (key b) l (b :: l) := by
  intro k' hk
  rw [List.filter_cons_of_neg]
  simpa using Ne.symm hk

theorem bindings_push_self (t : ChainTable β n) (b : β) :
    bindings key hash (push key hash t b) (key b) = b :: bindings key hash t (key b) := by
  rw [push, bindings_edit_self, List.filter_cons_of_pos (by simp), bindings]

theorem bindings_push_of_ne (t : ChainTable β n) (b : β) {k : κ} (hk : k ≠ key b) :
    bindings key hash (push key hash t b) k = bindings key hash t k :=
  bindings_edit_of_ne t (keepsOthers_cons b _) hk

/-! ## Searching the nodes of a key -/

theorem findSome?_filter_key (l : List β) (k : κ) (f : β → Option ρ) :
    l.findSome? (onKey key k f) = (l.filter (fun b => key b = k)).findSome? f := by
  induction l with
  | nil => rfl
  | cons b l ih =>
      by_cases hb : key b = k
      · rw [List.filter_cons_of_pos (by simpa using hb), List.findSome?_cons,
          List.findSome?_cons, onKey, if_pos hb, ih]
      · rw [List.filter_cons_of_neg (by simpa using hb), List.findSome?_cons, onKey, if_neg hb,
          ih]

/-- A search sees the nodes of its key and nothing else. -/
theorem search_eq (t : ChainTable β n) (k : κ) (f : β → Option ρ) :
    search key hash t k f = (bindings key hash t k).findSome? f :=
  findSome?_filter_key _ _ _

/-! ## Replacing the first node that answers -/

/-- Replace the first element for which `f` has a replacement. -/
def replaceFirst (f : β → Option β) : List β → Option (List β)
  | [] => none
  | b :: l =>
      match f b with
      | some b' => some (b' :: l)
      | none => (replaceFirst f l).map (b :: ·)

/-- What a replacement comes to. -/
theorem exists_of_replaceFirst {f : β → Option β} {l l' : List β}
    (h : replaceFirst f l = some l') :
    ∃ l₁ b b' l₂, l = l₁ ++ b :: l₂ ∧ (∀ c ∈ l₁, f c = none) ∧ f b = some b' ∧
      l' = l₁ ++ b' :: l₂ := by
  induction l generalizing l' with
  | nil => simp [replaceFirst] at h
  | cons b l ih =>
      rw [replaceFirst] at h
      split at h
      · next b' hb' =>
        cases h
        exact ⟨[], b, b', l, rfl, by simp, hb', rfl⟩
      · next hb =>
        obtain ⟨m, hm, rfl⟩ := Option.map_eq_some_iff.mp h
        obtain ⟨l₁, c, c', l₂, rfl, hl₁, hc, rfl⟩ := ih hm
        exact ⟨b :: l₁, c, c', l₂, rfl, List.forall_mem_cons.mpr ⟨hb, hl₁⟩, hc, rfl⟩

theorem replaceFirst_eq_none_iff {f : β → Option β} {l : List β} :
    replaceFirst f l = none ↔ ∀ b ∈ l, f b = none := by
  induction l with
  | nil => simp [replaceFirst]
  | cons b l ih =>
      rw [List.forall_mem_cons, replaceFirst, ← ih]
      cases f b <;> simp

theorem replaceFirst_ne_nil {f : β → Option β} {l l' : List β}
    (h : replaceFirst f l = some l') : l' ≠ [] := by
  obtain ⟨l₁, b, b', l₂, -, -, -, rfl⟩ := exists_of_replaceFirst h
  exact List.append_ne_nil_of_right_ne_nil _ (List.cons_ne_nil _ _)

/-- The replacement happens in the first part if it can, else in the second. -/
theorem replaceFirst_append (f : β → Option β) (l m : List β) :
    replaceFirst f (l ++ m)
      = ((replaceFirst f l).map (· ++ m)).or ((replaceFirst f m).map (l ++ ·)) := by
  induction l with
  | nil => simp [replaceFirst]
  | cons b l ih =>
      rw [List.cons_append, replaceFirst, replaceFirst]
      cases f b with
      | some b' => rfl
      | none =>
          simp only [ih]
          cases replaceFirst f l <;> cases replaceFirst f m <;> rfl

/-- A replacement seen through a translation of the elements. -/
theorem replaceFirst_map {γ : Type} {g : γ → β} {f : β → Option β} {f' : γ → Option γ}
    (h : ∀ c, f (g c) = (f' c).map g) (l : List γ) :
    replaceFirst f (l.map g) = (replaceFirst f' l).map (List.map g) := by
  induction l with
  | nil => rfl
  | cons c l ih =>
      rw [List.map_cons, replaceFirst, replaceFirst, h, ih]
      cases f' c with
      | some c' => rfl
      | none => simp only [Option.map_none, Option.map_map]; rfl

/-- What replaces an element is a replacement of some element. -/
theorem mem_of_replaceFirst {f : β → Option β} {l l' : List β}
    (h : replaceFirst f l = some l') {b : β} (hb : b ∈ l') : b ∈ l ∨ ∃ a, f a = some b := by
  obtain ⟨l₁, a, a', l₂, rfl, -, ha, rfl⟩ := exists_of_replaceFirst h
  rcases List.mem_append.mp hb with hb | hb
  · exact .inl (List.mem_append_left _ hb)
  · rcases List.mem_cons.mp hb with rfl | hb
    · exact .inr ⟨a, ha⟩
    · exact .inl (List.mem_append_right _ (List.mem_cons_of_mem _ hb))

/-- The replacement has the key it replaces. -/
def KeepsKey (key : β → κ) (f : β → Option β) : Prop :=
  ∀ b b', f b = some b' → key b' = key b

theorem keepsOthers_replaceFirst {k : κ} {f : β → Option β} (hf : KeepsKey key f)
    {l l' : List β} (h : replaceFirst (onKey key k f) l = some l') :
    KeepsOthers key k l l' := by
  induction l generalizing l' with
  | nil => simp [replaceFirst] at h
  | cons b l ih =>
      intro k' hk'
      rw [replaceFirst] at h
      split at h
      · next b' hb' =>
        cases h
        obtain ⟨hb, hfb⟩ : key b = k ∧ f b = some b' := by
          rw [onKey] at hb'
          split at hb'
          · next hb => exact ⟨hb, hb'⟩
          · cases hb'
        have hkey : key b' = k := (hf b b' hfb).trans hb
        rw [List.filter_cons_of_neg (by simpa [hkey] using Ne.symm hk'),
          List.filter_cons_of_neg (by simpa [hb] using Ne.symm hk')]
      · obtain ⟨m, hm, rfl⟩ := Option.map_eq_some_iff.mp h
        rw [List.filter_cons, List.filter_cons, ih hm k' hk']

/-- On the nodes of `k` alone, the replacement is the replacement in their list. -/
theorem filter_replaceFirst {k : κ} {f : β → Option β} (hf : KeepsKey key f) (l : List β) :
    (replaceFirst (onKey key k f) l).map (·.filter (fun b => key b = k))
      = replaceFirst f (l.filter (fun b => key b = k)) := by
  induction l with
  | nil => rfl
  | cons b l ih =>
      by_cases hb : key b = k
      · rw [List.filter_cons_of_pos (by simpa using hb), replaceFirst, replaceFirst, onKey,
          if_pos hb]
        cases hfb : f b with
        | some b' =>
            have hkey : key b' = k := (hf b b' hfb).trans hb
            simp [hkey]
        | none =>
            rw [← ih]
            simp only [Option.map_map]
            congr 1
            funext m
            simp [hb]
      · rw [List.filter_cons_of_neg (by simpa using hb), replaceFirst, onKey, if_neg hb, ← ih]
        simp only [Option.map_map]
        congr 1
        funext m
        simp [hb]

/-- The table with the first node of `k` replaced for which `f` has a replacement. -/
def replace (key : β → κ) (hash : κ → ℕ) (t : ChainTable β n) (k : κ) (f : β → Option β) :
    Option (ChainTable β n) :=
  (replaceFirst (onKey key k f) (chain hash t k)).map fun l => edit hash t k (fun _ => l)

theorem bindings_replace_self (t : ChainTable β n) {k : κ} {f : β → Option β}
    (hf : KeepsKey key f) :
    (replace key hash t k f).map (bindings key hash · k)
      = replaceFirst f (bindings key hash t k) := by
  rw [bindings, ← filter_replaceFirst hf, replace, Option.map_map]
  congr 1
  funext l
  exact bindings_edit_self t k _

theorem bindings_replace_of_ne {t t' : ChainTable β n} {k k' : κ} {f : β → Option β}
    (hf : KeepsKey key f) (h : replace key hash t k f = some t') (hk : k' ≠ k) :
    bindings key hash t' k' = bindings key hash t k' := by
  obtain ⟨l, hl, rfl⟩ := Option.map_eq_some_iff.mp h
  exact bindings_edit_of_ne t (keepsOthers_replaceFirst hf hl) hk

/-! ## Removing the first node of a key -/

/-- The list without its first element of key `k`, if there is one. -/
def removeFirst (key : β → κ) (k : κ) : List β → Option (List β)
  | [] => none
  | b :: l => if key b = k then some l else (removeFirst key k l).map (b :: ·)

/-- What a removal comes to. -/
theorem exists_of_removeFirst {k : κ} {l l' : List β} (h : removeFirst key k l = some l') :
    ∃ l₁ b l₂, l = l₁ ++ b :: l₂ ∧ (∀ c ∈ l₁, key c ≠ k) ∧ key b = k ∧ l' = l₁ ++ l₂ := by
  induction l generalizing l' with
  | nil => simp [removeFirst] at h
  | cons b l ih =>
      rw [removeFirst] at h
      split at h
      · next hb =>
        cases h
        exact ⟨[], b, l, rfl, by simp, hb, rfl⟩
      · next hb =>
        obtain ⟨m, hm, rfl⟩ := Option.map_eq_some_iff.mp h
        obtain ⟨l₁, c, l₂, rfl, hl₁, hc, rfl⟩ := ih hm
        exact ⟨b :: l₁, c, l₂, rfl, List.forall_mem_cons.mpr ⟨hb, hl₁⟩, hc, rfl⟩

/-- On the nodes of `k` alone, the removal takes the first of their list. -/
theorem filter_removeFirst (k : κ) (l : List β) :
    (removeFirst key k l).map (·.filter (fun b => key b = k))
      = (l.filter (fun b => key b = k)).tail? := by
  induction l with
  | nil => rfl
  | cons b l ih =>
      rw [removeFirst]
      split
      · next hb =>
        rw [List.filter_cons_of_pos (by simpa using hb)]
        rfl
      · next hb =>
        rw [List.filter_cons_of_neg (by simpa using hb), ← ih, Option.map_map]
        congr 1
        funext m
        simp [hb]

/-- There is nothing to remove only where `k` has no node. -/
theorem removeFirst_eq_none_iff {k : κ} {l : List β} :
    removeFirst key k l = none ↔ ∀ b ∈ l, key b ≠ k := by
  induction l with
  | nil => simp [removeFirst]
  | cons b l ih =>
      rw [removeFirst, List.forall_mem_cons]
      split
      · next hb => simp [hb]
      · next hb => rw [Option.map_eq_none_iff, ih]; simp [hb]

theorem keepsOthers_removeFirst {k : κ} {l l' : List β} (h : removeFirst key k l = some l') :
    KeepsOthers key k l l' := by
  intro k' hk
  obtain ⟨l₁, b, l₂, rfl, -, hb, rfl⟩ := exists_of_removeFirst h
  rw [List.filter_append, List.filter_append, List.filter_cons_of_neg]
  simpa [hb] using Ne.symm hk

/-- The table without the first node of `k`, if `k` has one. -/
def remove (key : β → κ) (hash : κ → ℕ) (t : ChainTable β n) (k : κ) :
    Option (ChainTable β n) :=
  (removeFirst key k (chain hash t k)).map fun l => edit hash t k (fun _ => l)

theorem bindings_remove_self (t : ChainTable β n) (k : κ) :
    (remove key hash t k).map (bindings key hash · k) = (bindings key hash t k).tail? := by
  rw [bindings, ← filter_removeFirst, remove, Option.map_map]
  congr 1
  funext l
  exact bindings_edit_self t k _

theorem bindings_remove_of_ne {t t' : ChainTable β n} {k k' : κ}
    (h : remove key hash t k = some t') (hk : k' ≠ k) :
    bindings key hash t' k' = bindings key hash t k' := by
  obtain ⟨l, hl, rfl⟩ := Option.map_eq_some_iff.mp h
  exact bindings_edit_of_ne t (keepsOthers_removeFirst hl) hk

/-! ## The list of all nodes -/

/-- The table holds the nodes of the list, for every key in the same order. -/
def Lists (key : β → κ) (hash : κ → ℕ) (t : ChainTable β n) (l : List β) : Prop :=
  ∀ k, bindings key hash t k = l.filter (fun b => key b = k)

theorem Lists.push {t : ChainTable β n} {l : List β} (h : Lists key hash t l) (b : β) :
    Lists key hash (push key hash t b) (b :: l) := by
  intro k
  by_cases hk : key b = k
  · subst hk
    rw [bindings_push_self, h, List.filter_cons_of_pos (by simp)]
  · rw [bindings_push_of_ne t b (Ne.symm hk), h, List.filter_cons_of_neg (by simpa using hk)]

theorem lists_empty : Lists key hash (empty β n) [] := fun k => bindings_empty k

/-- A replacement in the table is a replacement in the list. -/
theorem Lists.replace {t : ChainTable β n} {l : List β} (h : Lists key hash t l) (k : κ)
    {f : β → Option β} (hf : KeepsKey key f) :
    (replace key hash t k f = none ∧ replaceFirst (onKey key k f) l = none) ∨
      ∃ t' l', replace key hash t k f = some t' ∧
        replaceFirst (onKey key k f) l = some l' ∧ Lists key hash t' l' := by
  have hself : (ChainTable.replace key hash t k f).map (bindings key hash · k)
      = replaceFirst f (bindings key hash t k) := bindings_replace_self t hf
  rw [h, ← filter_replaceFirst hf] at hself
  cases ht : ChainTable.replace key hash t k f with
  | none =>
      rw [ht] at hself
      exact .inl ⟨rfl, Option.map_eq_none_iff.mp hself.symm⟩
  | some t' =>
      rw [ht] at hself
      obtain ⟨l', hl', hfilter⟩ := Option.map_eq_some_iff.mp hself.symm
      refine .inr ⟨t', l', rfl, hl', fun k' => ?_⟩
      by_cases hk : k' = k
      · subst hk
        exact hfilter.symm
      · rw [bindings_replace_of_ne hf ht hk, h]
        exact (keepsOthers_replaceFirst hf hl' k' hk).symm

end ChainTable
