/-
# The list of `dm_list`

`dm_list`: nodes from `malloc` behind each other, with the number of them.  `list_append`
walks from `head` to the last node each time; when `malloc` fails it leaves the list as it
is, and its caller does not notice.

* `DmList.Holds` says which values a memory is, in which nodes, and that it has no other
  nodes.
* Over whole runs the list is the sequence of what was appended, and `list_destroy` gives
  every node back (`list_run`).
-/
import DmfServer.Queue
import Mathlib.Data.List.ReduceOption

open CMem StepSystem

/-- `Data_t`. -/
@[ext] structure DataT where
  value : Int32
  deriving DecidableEq

/-- `struct List` and the nodes `malloc` gave it. -/
structure DmList where
  heap : Heap (Node DataT)
  head : Addr
  size : UInt64

/-! ## The functions -/

/-- `list_create`. -/
def listCreate : DmList := { heap := fun _ => none, head := 0, size := 0 }

/-- `list_append`; `newNode` is what `malloc` returns. -/
def listAppend (list : DmList) (newNode : Addr) (data : DataT) : Except Fault DmList :=
  if newNode = 0 then .ok list
  else do
    let heap := list.heap.store newNode { next := 0, data := data }
    if list.head = 0 then .ok { heap := heap, head := newNode, size := list.size + 1 }
    else do
      let node ← heap.last Node.next (2 ^ 64) list.head
      let last ← heap.load node
      .ok { list with heap := heap.store node { last with next := newNode }, size := list.size + 1 }

/-- `list_size`. -/
def listSize (list : DmList) : UInt64 := list.size

/-- The loop of `list_find`, of at most `fuel` rounds. -/
def listFindLoop (heap : Heap (Node DataT)) (data : DataT) : ℕ → Addr → Except Fault Bool
  | 0, _ => .error .loop
  | fuel + 1, node =>
      if node = 0 then .ok false
      else do
        let n ← heap.load node
        if n.data.value = data.value then .ok true else listFindLoop heap data fuel n.next

/-- `list_find`. -/
def listFind (list : DmList) (data : DataT) : Except Fault Bool :=
  listFindLoop list.heap data (2 ^ 64) list.head

/-- `list_destroy`: the nodes that are left. -/
def listDestroy (list : DmList) : Except Fault (Heap (Node DataT)) :=
  (Heap.freeEach Node.next (fun _ => Except.ok) (2 ^ 64) list.head (list.heap, ())).map Prod.fst

/-! ## The values of a list -/

/-- The nodes at the addresses have the values. -/
abbrev HasData (heap : Heap (Node DataT)) : List Addr → List DataT → Prop :=
  List.Forall₂ fun a d => ∃ node, heap a = some node ∧ node.data = d

/-- The list holds the values, in the nodes at the addresses, and has no other nodes. -/
structure DmList.Holds (list : DmList) (as : List Addr) (values : List DataT) : Prop where
  chain : Seg Node.next list.heap list.head as 0
  values : HasData list.heap as values
  size : list.size.toNat = as.length
  all : ∀ a node, list.heap a = some node → a ∈ as

theorem holds_listCreate : listCreate.Holds [] [] where
  chain := .nil 0
  values := .nil
  size := rfl
  all _ _ h := by cases h

/-- `list_find` looks at the values one after the other. -/
theorem listFindLoop_eq {heap : Heap (Node DataT)} {p : Addr} {as : List Addr}
    {values : List DataT} (s : Seg Node.next heap p as 0) (hvalues : HasData heap as values)
    (data : DataT) {fuel : ℕ} (hfuel : as.length < fuel) :
    listFindLoop heap data fuel p = .ok (decide (data ∈ values)) := by
  induction as generalizing p values fuel with
  | nil =>
      obtain ⟨fuel, rfl⟩ := Nat.exists_eq_add_one_of_ne_zero (Nat.ne_of_gt hfuel)
      obtain rfl := List.forall₂_nil_left_iff.mp hvalues
      rw [listFindLoop, if_pos s.nil_inv, decide_eq_false List.not_mem_nil]
  | cons a as ih =>
      obtain ⟨fuel, rfl⟩ := Nat.exists_eq_add_one_of_ne_zero (Nat.ne_of_gt
        (Nat.lt_of_le_of_lt (Nat.zero_le _) hfuel))
      obtain ⟨d, rest, ⟨node, hnode, rfl⟩, hrest, rfl⟩ := List.forall₂_cons_left_iff.mp hvalues
      obtain ⟨rfl, hne, n, hn, hbehind⟩ := s.cons_inv
      rw [hnode, Option.some.injEq] at hn
      subst hn
      rw [listFindLoop, if_neg hne, Heap.load_eq hnode, ok_bind]
      by_cases hvalue : node.data.value = data.value
      · have hdata : data = node.data := DataT.ext hvalue.symm
        rw [if_pos hvalue, decide_eq_true (hdata ▸ List.mem_cons_self)]
      · have hdata : data ≠ node.data := fun heq => hvalue (congrArg DataT.value heq.symm)
        rw [if_neg hvalue, ih hbehind hrest (by simpa using hfuel)]
        simp only [List.mem_cons, hdata, false_or]

namespace DmList.Holds

variable {list : DmList} {as : List Addr} {values : List DataT}

/-- `list_find` finds the values of the list. -/
theorem find (h : list.Holds as values) (data : DataT) :
    listFind list data = .ok (decide (data ∈ values)) :=
  listFindLoop_eq h.chain h.values data h.chain.length_lt

/-- `list_destroy` gives every node back. -/
theorem destroy (h : list.Holds as values) : listDestroy list = .ok fun _ => none := by
  rw [listDestroy, h.chain.freeEach_all h.all]
  rfl

/-- `list_append` with a fresh node puts the value last. -/
theorem append (h : list.Holds as values) {newNode : Addr} (hnull : newNode ≠ 0)
    (hfresh : list.heap newNode = none) (data : DataT) :
    ∃ list', listAppend list newNode data = .ok list' ∧
      list'.Holds (as ++ [newNode]) (values ++ [data]) := by
  have hnew : newNode ∉ as := by
    intro hmem
    obtain ⟨node, hn⟩ := h.chain.mem_heap newNode hmem
    rw [hfresh] at hn
    cases hn
  have hother : ∀ a ∈ as, list.heap.store newNode ⟨0, data⟩ a = list.heap a := by
    intro a ha
    apply Heap.store_of_ne
    rintro rfl
    exact hnew ha
  have hchain : Seg Node.next (list.heap.store newNode ⟨0, data⟩) list.head as 0 :=
    h.chain.congr hother
  have hvalues : HasData (list.heap.store newNode ⟨0, data⟩) as values :=
    Queue.Holds.values_congr h.values fun a ha => by rw [hother a ha]
  have hall : ∀ a node, list.heap.store newNode ⟨0, data⟩ a = some node → a ∈ as ++ [newNode] := by
    intro a node hnode
    by_cases ha : a = newNode
    · simp [ha]
    · rw [Heap.store_of_ne _ _ ha] at hnode
      exact List.mem_append_left _ (h.all a node hnode)
  rcases List.eq_nil_or_concat as with rfl | ⟨front, last, rfl⟩
  · -- the first node
    have hhead : list.head = 0 := h.chain.nil_inv
    unfold listAppend
    rw [if_neg hnull]
    simp only [hhead, if_true]
    refine ⟨_, rfl, .cons hnull (Heap.store_self _ _ _) (.nil 0), ?_, ?_, hall⟩
    · obtain rfl := List.forall₂_nil_left_iff.mp h.values
      exact .cons ⟨_, Heap.store_self _ _ _, rfl⟩ .nil
    · exact Queue.Holds.size_succ h.size (by norm_num)
  · rw [List.concat_eq_append] at *
    have hhead : list.head ≠ 0 := by
      intro hz
      have hend : Seg Node.next list.heap list.head [] 0 := hz ▸ .nil _
      simpa using h.chain.unique hend
    have hlen := hchain.length_lt
    rw [List.length_append, List.length_singleton] at hlen
    obtain ⟨-, hlast, node, hnode, -⟩ := Seg.snoc_iff.mp hchain
    have hseg := hchain.hang (n := { node with next := newNode }) hnull hnew
      (Heap.store_self _ _ _) rfl rfl
    have hne : newNode ≠ last := fun heq => hnew (by simp [heq])
    have hwalk : (list.heap.store newNode ⟨0, data⟩).last Node.next (2 ^ 64) list.head
        = .ok last := hchain.last_eq (by omega)
    unfold listAppend
    rw [if_neg hnull, if_neg hhead]
    simp only [hwalk, Heap.load_eq hnode, ok_bind]
    refine ⟨_, rfl, hseg, ?_, ?_, ?_⟩
    · -- the last node gets a successor and keeps its value
      refine List.rel_append (Queue.Holds.values_congr hvalues fun a _ => ?_) (.cons ?_ .nil)
      · exact Heap.map_store hnode _ (by rfl) a
      · exact ⟨_, (Heap.store_of_ne _ _ hne).trans (Heap.store_self _ _ _), rfl⟩
    · have hlt := hseg.length_lt
      rw [List.length_append, List.length_singleton] at hlt ⊢
      exact Queue.Holds.size_succ h.size hlt
    · intro a found hfound
      have hsome := Heap.isSome_store (m := { node with next := newNode }) hnode a
      replace hfound : (list.heap.store newNode ⟨0, data⟩).store last
        { node with next := newNode } a = some found := hfound
      rw [hfound] at hsome
      obtain ⟨was, hwas⟩ := Option.isSome_iff_exists.mp hsome.symm
      exact hall a was hwas

/-- `list_append` when `malloc` fails. -/
theorem append_null (list : DmList) (data : DataT) : listAppend list 0 data = .ok list :=
  if_pos rfl

end DmList.Holds

/-! ## Runs -/

/-- A `list_append` that comes back: what is appended, `none` when `malloc` failed. -/
inductive ListStep : DmList → Option DataT → DmList → Prop where
  | append {list list' : DmList} {newNode : Addr} {data : DataT} (null : newNode ≠ 0)
      (fresh : list.heap newNode = none) (ok : listAppend list newNode data = .ok list') :
      ListStep list (some data) list'
  | failed {list list' : DmList} {data : DataT} (ok : listAppend list 0 data = .ok list') :
      ListStep list none list'

/-- A run appends its values. -/
theorem exists_holds_of_steps {es : List (Option DataT)} {list : DmList}
    (h : Steps ListStep listCreate es list) : ∃ as, list.Holds as es.reduceOption := by
  induction h with
  | nil => exact ⟨[], holds_listCreate⟩
  | snoc _ hlast ih =>
      obtain ⟨as, hholds⟩ := ih
      rw [List.reduceOption_append]
      cases hlast with
      | @append _ newNode data hnull hfresh hok =>
          obtain ⟨list', hok', hholds'⟩ := hholds.append hnull hfresh data
          obtain rfl := Except.ok.inj (hok.symm.trans hok')
          exact ⟨as ++ [newNode], hholds'⟩
      | @failed _ data hok =>
          obtain rfl := Except.ok.inj (hok.symm.trans (DmList.Holds.append_null _ data))
          rw [List.reduceOption_singleton, Option.toList_none, List.append_nil]
          exact ⟨as, hholds⟩

/-- **The list is what was appended.**  Behind every run of `list_append` on a created list,
`list_size` is the number of values, `list_find` finds exactly them, `list_append` with a
fresh node goes through, and `list_destroy` frees every node once. -/
theorem list_run {es : List (Option DataT)} {list : DmList}
    (h : Steps ListStep listCreate es list) :
    (listSize list).toNat = es.reduceOption.length ∧
    (∀ data, listFind list data = .ok (decide (data ∈ es.reduceOption))) ∧
    (∀ newNode data, list.heap newNode = none → ∃ list', listAppend list newNode data = .ok list') ∧
    listDestroy list = .ok fun _ => none := by
  obtain ⟨as, hholds⟩ := exists_holds_of_steps h
  refine ⟨hholds.size.trans hholds.values.length_eq, hholds.find, ?_, hholds.destroy⟩
  intro newNode data hfresh
  by_cases hnull : newNode = 0
  · subst hnull
    exact ⟨list, DmList.Holds.append_null list data⟩
  · obtain ⟨list', hok, -⟩ := hholds.append hnull hfresh data
    exact ⟨list', hok⟩

/-- A value, one for which there is no memory, and another value. -/
theorem list_run_failed : ∃ list : DmList,
    (listSize list).toNat = 2 ∧ listFind list ⟨2⟩ = .ok true ∧ listFind list ⟨9⟩ = .ok false ∧
      listDestroy list = .ok fun _ => none := by
  obtain ⟨list₁, hok₁, hholds₁⟩ := holds_listCreate.append (show (16 : Addr) ≠ 0 by decide) rfl ⟨1⟩
  have hfresh : list₁.heap 24 = none := by
    cases hnode : list₁.heap 24 with
    | none => rfl
    | some node => exact absurd (hholds₁.all 24 node hnode) (by decide)
  obtain ⟨list₂, hok₂, -⟩ := hholds₁.append (show (24 : Addr) ≠ 0 by decide) hfresh ⟨2⟩
  have hrun : Steps ListStep listCreate [some ⟨1⟩, none, some ⟨2⟩] list₂ :=
    ((Steps.nil.snoc (.append (by decide) rfl hok₁)).snoc
    (.failed (DmList.Holds.append_null list₁ ⟨9⟩))).snoc (.append (by decide) hfresh hok₂)
  obtain ⟨hsize, hfind, -, hdestroy⟩ := list_run hrun
  exact ⟨list₂, hsize, hfind ⟨2⟩, hfind ⟨9⟩, hdestroy⟩
