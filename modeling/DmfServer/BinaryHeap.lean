/-
# Binary heaps in a list

A library about lists that are read as binary trees, the children of the entry `i` at
`2 * i + 1` and `2 * i + 2`, with nothing of any particular program in it:

* `Ordered` is the order of a heap: no entry is behind its children;
* `UpOrdered` and `DownOrdered` are the order in the middle of a move: only the edge into one
  entry, or only the edges out of it, may be the wrong way;
* `exchange` is a step of a move, and keeps the entries.

A move that ends at an entry in order with its neighbours leaves a heap (`UpOrdered.ordered`,
`DownOrdered.ordered`), and nothing in a heap is before its first entry (`Ordered.root_le`).
-/
import Mathlib.Tactic

namespace BinaryHeap

variable {α κ : Type}

/-- The entry `c` is a child of the entry `p`. -/
def IsChild (p c : ℕ) : Prop := c = 2 * p + 1 ∨ c = 2 * p + 2

theorem IsChild.lt {p c : ℕ} (h : IsChild p c) : p < c := by
  unfold IsChild at h
  omega

/-- An entry has one parent. -/
theorem IsChild.unique {p q c : ℕ} (h : IsChild p c) (h' : IsChild q c) : p = q := by
  unfold IsChild at h h'
  omega

theorem isChild_parent {i : ℕ} (h : 0 < i) : IsChild ((i - 1) / 2) i := by
  unfold IsChild
  omega

/-- Two entries change places. -/
def exchange (l : List α) (i j : ℕ) (hi : i < l.length) (hj : j < l.length) : List α :=
  (l.set i l[j]).set j l[i]

section
variable {l : List α} {i j : ℕ} (hi : i < l.length) (hj : j < l.length)

@[simp] theorem length_exchange : (exchange l i j hi hj).length = l.length := by
  unfold exchange
  rw [List.length_set, List.length_set]

/-- The entries are those that there were. -/
theorem exchange_perm : (exchange l i j hi hj).Perm l := List.set_set_perm hi hj

theorem getElem_exchange {k : ℕ} (hk : k < (exchange l i j hi hj).length) :
    (exchange l i j hi hj)[k] = if k = j then l[i] else if k = i then l[j] else
      l.get ⟨k, by rwa [length_exchange] at hk⟩ := by
  simp only [exchange, List.getElem_set, List.get_eq_getElem, eq_comm]

end

variable [LinearOrder κ] (key : α → κ)

/-- No entry is behind its children. -/
def Ordered (l : List α) : Prop :=
  ∀ p c, ∀ (hp : p < l.length) (hc : c < l.length), IsChild p c → key l[p] ≤ key l[c]

/-- Only the edge into the entry `i` may be the wrong way, and the parent of `i` is not
behind the children of `i`. -/
structure UpOrdered (l : List α) (i : ℕ) : Prop where
  off : ∀ p c, ∀ (hp : p < l.length) (hc : c < l.length), IsChild p c → c ≠ i →
    key l[p] ≤ key l[c]
  grand : ∀ g c, ∀ (hg : g < l.length) (hc : c < l.length), IsChild g i → IsChild i c →
    key l[g] ≤ key l[c]

/-- Only the edges out of the entry `i` may be the wrong way, and the parent of `i` is not
behind the children of `i`. -/
structure DownOrdered (l : List α) (i : ℕ) : Prop where
  off : ∀ p c, ∀ (hp : p < l.length) (hc : c < l.length), IsChild p c → p ≠ i →
    key l[p] ≤ key l[c]
  grand : ∀ g c, ∀ (hg : g < l.length) (hc : c < l.length), IsChild g i → IsChild i c →
    key l[g] ≤ key l[c]

variable {key} {l : List α}

/-- Nothing is before the first entry. -/
theorem Ordered.root_le (h : Ordered key l) (i : ℕ) (hi : i < l.length) (h0 : 0 < l.length) :
    key l[0] ≤ key l[i] := by
  induction i using Nat.strongRecOn with
  | ind i ih =>
      rcases Nat.eq_zero_or_pos i with rfl | hpos
      · exact le_rfl
      · have hchild := isChild_parent hpos
        have hparent := ih _ hchild.lt (hchild.lt.trans hi)
        exact hparent.trans (h _ i (hchild.lt.trans hi) hi hchild)

theorem Ordered.root_le_mem (h : Ordered key l) (h0 : 0 < l.length) {x : α} (hx : x ∈ l) :
    key l[0] ≤ key x := by
  obtain ⟨i, hi, rfl⟩ := List.getElem_of_mem hx
  exact h.root_le i hi h0

/-- Less of a heap is a heap. -/
theorem Ordered.take (h : Ordered key l) (n : ℕ) : Ordered key (l.take n) := by
  intro p c hp hc hchild
  rw [List.length_take] at hp hc
  rw [List.getElem_take, List.getElem_take]
  exact h p c (by omega) (by omega) hchild

/-! ## A move up -/

/-- A heap with an entry behind it: that entry has no children, and may be out of order. -/
theorem Ordered.upOrdered (h : Ordered key l) (x : α) : UpOrdered key (l ++ [x]) l.length := by
  constructor
  · intro p c hp hc hchild hne
    rw [List.length_append, List.length_singleton] at hp hc
    have hlt := hchild.lt
    rw [List.getElem_append_left (by omega), List.getElem_append_left (by omega)]
    exact h p c (by omega) (by omega) hchild
  · intro g c hg hc _ hchild
    rw [List.length_append, List.length_singleton] at hc
    have hlt := hchild.lt
    omega

/-- The move stops where the parent is not behind the entry. -/
theorem UpOrdered.ordered {i : ℕ} (h : UpOrdered key l i)
    (hstop : ∀ p, ∀ (hp : p < l.length) (hi : i < l.length), IsChild p i → key l[p] ≤ key l[i]) :
    Ordered key l := by
  intro p c hp hc hchild
  by_cases hci : c = i
  · subst hci
    exact hstop p hp hc hchild
  · exact h.off p c hp hc hchild hci

/-- The entry changes places with a parent that is behind it. -/
theorem UpOrdered.exchange {i p : ℕ} (h : UpOrdered key l i) (hi : i < l.length)
    (hp : p < l.length) (hparent : IsChild p i) (hlt : key l[i] ≤ key l[p]) :
    UpOrdered key (BinaryHeap.exchange l i p hi hp) p := by
  have hpi := hparent.lt
  constructor
  · intro q c hq' hc' hchild hcp
    have hq := hq'.trans_eq (length_exchange hi hp)
    have hc := hc'.trans_eq (length_exchange hi hp)
    have hqc := hchild.lt
    rw [getElem_exchange, getElem_exchange]
    by_cases hci : c = i
    · -- the edge the two have changed at
      subst hci
      obtain rfl := hchild.unique hparent
      rw [if_pos rfl, if_neg hcp, if_pos rfl]
      exact hlt
    · rw [if_neg hcp, if_neg hci]
      by_cases hqp : q = p
      · -- another child of the old parent
        subst hqp
        rw [if_pos rfl]
        exact hlt.trans (h.off q c hq hc hchild hci)
      · rw [if_neg hqp]
        by_cases hqi : q = i
        · -- a child of the entry, under the old parent by now
          subst hqi
          rw [if_pos rfl]
          exact h.grand p c hp hc hparent hchild
        · rw [if_neg hqi]
          exact h.off q c hq hc hchild hci
  · intro g c hg' hc' hgrand hchild
    have hg := hg'.trans_eq (length_exchange hi hp)
    have hc := hc'.trans_eq (length_exchange hi hp)
    have hgp := hgrand.lt
    have hpc := hchild.lt
    have habove : key l[g] ≤ key l[p] := h.off g p hg hp hgrand (by omega)
    rw [getElem_exchange, getElem_exchange, if_neg (by omega), if_neg (by omega),
      if_neg (by omega)]
    split
    · exact habove
    · next hci => exact habove.trans (h.off p c hp hc hchild hci)

/-! ## A move down -/

/-- A heap whose first entry is another by now. -/
theorem Ordered.downOrdered (h : Ordered key l) (x : α) : DownOrdered key (l.set 0 x) 0 := by
  constructor
  · intro p c hp hc hchild hne
    rw [List.length_set] at hp hc
    have hlt := hchild.lt
    rw [List.getElem_set_of_ne (Ne.symm hne), List.getElem_set_of_ne (by omega)]
    exact h p c hp hc hchild
  · intro g c _ _ hgrand
    exact absurd hgrand.lt (Nat.not_lt_zero g)

/-- The move stops where no child is before the entry. -/
theorem DownOrdered.ordered {i : ℕ} (h : DownOrdered key l i)
    (hstop : ∀ c, ∀ (hi : i < l.length) (hc : c < l.length), IsChild i c → key l[i] ≤ key l[c]) :
    Ordered key l := by
  intro p c hp hc hchild
  by_cases hpi : p = i
  · subst hpi
    exact hstop c hp hc hchild
  · exact h.off p c hp hc hchild hpi

/-- The entry changes places with the first of its children, which is before it. -/
theorem DownOrdered.exchange {i a : ℕ} (h : DownOrdered key l i) (hi : i < l.length)
    (ha : a < l.length) (hchild : IsChild i a) (hlt : key l[a] ≤ key l[i])
    (hfirst : ∀ c, ∀ (hc : c < l.length), IsChild i c → key l[a] ≤ key l[c]) :
    DownOrdered key (BinaryHeap.exchange l i a hi ha) a := by
  have hia := hchild.lt
  constructor
  · intro p c hp' hc' hpc hpa
    have hp := hp'.trans_eq (length_exchange hi ha)
    have hc := hc'.trans_eq (length_exchange hi ha)
    have hlt' := hpc.lt
    rw [getElem_exchange, getElem_exchange, if_neg hpa]
    by_cases hpi : p = i
    · subst hpi
      rw [if_pos rfl]
      by_cases hca : c = a
      · rw [if_pos hca]
        exact hlt
      · rw [if_neg hca, if_neg (by omega)]
        exact hfirst c hc hpc
    · rw [if_neg hpi]
      by_cases hca : c = a
      · subst hca
        exact absurd (hpc.unique hchild) hpi
      · rw [if_neg hca]
        by_cases hci : c = i
        · -- the edge into the place that the child has come to
          subst hci
          rw [if_pos rfl]
          exact h.grand p a hp ha hpc hchild
        · rw [if_neg hci]
          exact h.off p c hp hc hpc hpi
  · intro g c _ hc' hgrand hac
    have hc := hc'.trans_eq (length_exchange hi ha)
    obtain rfl := hgrand.unique hchild
    have hlt' := hac.lt
    rw [getElem_exchange, getElem_exchange, if_neg (by omega), if_pos rfl, if_neg (by omega),
      if_neg (by omega)]
    exact h.off a c ha hc hac (by omega)

end BinaryHeap
