/-
# The blocking queue

`dm_queue`: a linked list with a `tail` pointer, a mutex and one condition variable.
Any number of threads enqueue and dequeue; a step of the system is one critical
section, from the lock to the unlock or to the wait that gives the lock up.  A thread
that waits calls nothing meanwhile; the system leaves that free, so it has every run of
the program and more.

* `queue_dequeue` never resets `tail`, so behind an emptied queue it is the address of
  a freed node; it is followed only while the list has nodes, and then it is the last
  one (`Queue.Holds`).
* What is dequeued is a prefix of what is enqueued, and nobody sleeps while there are
  more values than consumers on their way to them (`queue_run`).
-/
import DmfServer.LinkedList
import DmfServer.StepSystem

open CMem StepSystem

variable {Data Thread : Type}

/-- `struct Node`. -/
structure Node (Data : Type) where
  next : Addr
  data : Data

/-- `struct Queue` and the nodes `malloc` gave it. -/
structure Queue (Data : Type) where
  heap : Heap (Node Data)
  head : Addr
  tail : Addr
  size : UInt64

/-! ## The functions -/

/-- `queue_create`. -/
def queueCreate : Queue Data := { heap := fun _ => none, head := 0, tail := 0, size := 0 }

/-- `queue_enqueue` inside the lock: the node at `new_node` is filled before it. -/
def queueEnqueue (queue : Queue Data) (newNode : Addr) (data : Data) :
    Except Fault (Queue Data) := do
  let queue := { queue with heap := queue.heap.store newNode { next := 0, data := data } }
  let queue ←
    if queue.head = 0 then .ok { queue with head := newNode }
    else (queue.heap.load queue.tail).map fun node =>
      { queue with heap := queue.heap.store queue.tail { node with next := newNode } }
  .ok { queue with tail := newNode, size := queue.size + 1 }

/-- `queue_dequeue` behind its loop. -/
def queueDequeue (queue : Queue Data) : Except Fault (Data × Queue Data) := do
  let node ← queue.heap.load queue.head
  let heap ← queue.heap.free queue.head
  .ok (node.data, { queue with heap := heap, head := node.next, size := queue.size - 1 })

/-! ## The list of a queue -/

/-- The queue holds the values, in the nodes at the addresses. -/
structure Queue.Holds (queue : Queue Data) (as : List Addr) (values : List Data) : Prop where
  chain : Seg Node.next queue.heap queue.head as 0
  values : List.Forall₂ (fun a d => ∃ node, queue.heap a = some node ∧ node.data = d) as values
  size : queue.size.toNat = as.length
  tail : ∀ a, as.getLast? = some a → queue.tail = a

theorem holds_queueCreate : (queueCreate : Queue Data).Holds [] [] where
  chain := .nil 0
  values := .nil
  size := rfl
  tail := by simp

namespace Queue.Holds

variable {queue : Queue Data} {as : List Addr} {values : List Data}

theorem length_values (h : queue.Holds as values) : queue.size.toNat = values.length :=
  h.size.trans h.values.length_eq

theorem size_eq_zero_iff (h : queue.Holds as values) : queue.size = 0 ↔ values = [] := by
  rw [← UInt64.toNat_inj, h.length_values, UInt64.toNat_zero, List.length_eq_zero_iff]

/-- Values keep their place when only other nodes, and `next` pointers, are written. -/
theorem values_congr {heap heap' : Heap (Node Data)}
    (h : List.Forall₂ (fun a d => ∃ node, heap a = some node ∧ node.data = d) as values)
    (hsame : ∀ a ∈ as, (heap' a).map Node.data = (heap a).map Node.data) :
    List.Forall₂ (fun a d => ∃ node, heap' a = some node ∧ node.data = d) as values := by
  induction h with
  | nil => exact .nil
  | cons hnode _ ih =>
      obtain ⟨node, hn, rfl⟩ := hnode
      refine .cons ?_ (ih fun a ha => hsame a (List.mem_cons_of_mem _ ha))
      have hmap := hsame _ List.mem_cons_self
      rw [hn] at hmap
      exact Option.map_eq_some_iff.mp hmap

/-- One more node does not wrap `size`. -/
theorem size_succ {n : UInt64} {k : ℕ} (hn : n.toNat = k) (hk : k + 1 < 2 ^ 64) :
    (n + 1).toNat = k + 1 := by
  rw [UInt64.toNat_add, hn]
  exact Nat.mod_eq_of_lt hk

/-- `queue_enqueue` with a fresh node goes through, and puts the value last. -/
theorem enqueue (h : queue.Holds as values) {newNode : Addr} (hnull : newNode ≠ 0)
    (hfresh : queue.heap newNode = none) (data : Data) :
    ∃ queue', queueEnqueue queue newNode data = .ok queue' ∧
      queue'.Holds (as ++ [newNode]) (values ++ [data]) := by
  have hnew : newNode ∉ as := by
    intro hmem
    obtain ⟨node, hn⟩ := h.chain.mem_heap newNode hmem
    rw [hfresh] at hn
    cases hn
  have hother : ∀ a ∈ as, queue.heap.store newNode ⟨0, data⟩ a = queue.heap a := by
    intro a ha
    exact Heap.store_of_ne _ _ fun hane => hnew (hane ▸ ha)
  have hchain : Seg Node.next (queue.heap.store newNode ⟨0, data⟩) queue.head as 0 :=
    h.chain.congr hother
  have hvalues : List.Forall₂ (fun a d => ∃ node,
      queue.heap.store newNode ⟨0, data⟩ a = some node ∧ node.data = d) as values :=
    values_congr h.values fun a ha => by rw [hother a ha]
  rcases List.eq_nil_or_concat as with rfl | ⟨front, last, rfl⟩
  · -- the list is empty: `tail` is not looked at
    have hhead : queue.head = 0 := h.chain.nil_inv
    have hseg : Seg Node.next (queue.heap.store newNode ⟨0, data⟩) newNode [newNode] 0 :=
      .cons hnull (Heap.store_self _ _ _) (.nil 0)
    unfold queueEnqueue
    rw [if_pos hhead]
    refine ⟨_, rfl, hseg, ?_, size_succ h.size (by norm_num), ?_⟩
    · obtain rfl := List.forall₂_nil_left_iff.mp h.values
      exact .cons ⟨_, Heap.store_self _ _ _, rfl⟩ .nil
    · simp
  · rw [List.concat_eq_append] at *
    have hhead : queue.head ≠ 0 := by
      intro hz
      have hend : Seg Node.next queue.heap queue.head [] 0 := hz ▸ .nil _
      simpa using h.chain.unique hend
    have htail : queue.tail = last := h.tail last (by simp)
    obtain ⟨-, hlast, node, hnode, -⟩ := Seg.snoc_iff.mp hchain
    have hseg := hchain.hang (n := { node with next := newNode }) hnull hnew
      (Heap.store_self _ _ _) rfl rfl
    have hne : newNode ≠ last := fun heq => hnew (by simp [heq])
    unfold queueEnqueue
    rw [if_neg hhead]
    simp only [htail, Heap.load_eq hnode, ok_map, ok_bind]
    refine ⟨_, rfl, hseg, ?_, ?_, by simp⟩
    · -- the last node gets a successor and keeps its value
      refine List.rel_append (values_congr hvalues fun a _ => ?_) (.cons ?_ .nil)
      · exact Heap.map_store hnode _ (by rfl) a
      · exact ⟨_, (Heap.store_of_ne _ _ hne).trans (Heap.store_self _ _ _), rfl⟩
    · have hlt := hseg.length_lt
      rw [List.length_append, List.length_singleton] at hlt ⊢
      exact size_succ h.size hlt

/-- `queue_dequeue` of a queue with values goes through, and takes the first. -/
theorem dequeue {a : Addr} {d : Data} (h : queue.Holds (a :: as) (d :: values)) :
    ∃ queue', queueDequeue queue = .ok (d, queue') ∧ queue'.Holds as values := by
  obtain ⟨hhead, -, node, hnode, hrest⟩ := h.chain.cons_inv
  obtain ⟨⟨node', hnode', hdata⟩, hvalues⟩ := List.forall₂_cons.mp h.values
  rw [hnode, Option.some.injEq] at hnode'
  subst hnode'
  have hnot : a ∉ as := (List.nodup_cons.mp h.chain.nodup).1
  have hother : ∀ b ∈ as, Function.update queue.heap a none b = queue.heap b := by
    intro b hb
    refine Function.update_of_ne ?_ _ _
    rintro rfl
    exact hnot hb
  unfold queueDequeue
  rw [hhead, Heap.load_eq hnode, ok_bind, Heap.free_eq hnode, ok_bind, hdata]
  refine ⟨_, rfl, hrest.congr hother,
    values_congr hvalues fun b hb => congrArg _ (hother b hb), ?_, ?_⟩
  · have hsize := h.size
    have hone : (1 : UInt64) ≤ queue.size := by
      rw [UInt64.le_iff_toNat_le, hsize]
      simp
    show (queue.size - 1).toNat = as.length
    rw [UInt64.toNat_sub_of_le _ _ hone, hsize]
    rfl
  · intro b hb
    refine h.tail b ?_
    rw [List.getLast?_cons, hb]
    rfl

end Queue.Holds

/-! ## The threads -/

/-- The queue, who waits at its condition variable, and who woke without a signal and
has not got the lock yet. -/
structure QueueState (Data Thread : Type) where
  queue : Queue Data
  cond : Waiters Thread
  strays : List Thread

/-- What happens in a step. -/
inductive QueueEvent (Data : Type) : Type where
  | enqueued : Data → QueueEvent Data
  | dequeued : Data → QueueEvent Data
  | sleeps : QueueEvent Data
  | strays : QueueEvent Data

/-- Behind `queue_create`. -/
def queueInit : QueueState Data Thread :=
  { queue := queueCreate, cond := .none, strays := [] }

/-- A thread in `queue_dequeue` with the lock, at the test of the loop. -/
inductive QueueSection (x : Thread) :
    QueueState Data Thread → QueueEvent Data → QueueState Data Thread → Prop where
  | take {s : QueueState Data Thread} {d : Data} {queue : Queue Data}
      (some : s.queue.size ≠ 0) (ok : queueDequeue s.queue = .ok (d, queue)) :
      QueueSection x s (.dequeued d) { s with queue := queue }
  | wait {s : QueueState Data Thread} (none : s.queue.size = 0) :
      QueueSection x s .sleeps { s with cond := s.cond.sleep x }

/-- A step of the system. -/
inductive QueueStep :
    QueueState Data Thread → QueueEvent Data → QueueState Data Thread → Prop where
  /-- Some thread enqueues, and signals. -/
  | enqueue {s : QueueState Data Thread} {newNode : Addr} {d : Data} {queue : Queue Data}
      {c : Waiters Thread} (null : newNode ≠ 0) (fresh : s.queue.heap newNode = none)
      (ok : queueEnqueue s.queue newNode d = .ok queue) (signal : Waiters.Signal s.cond c) :
      QueueStep s (.enqueued d) { s with queue := queue, cond := c }
  /-- Some thread calls `queue_dequeue`. -/
  | call {s t : QueueState Data Thread} {e : QueueEvent Data} {x : Thread}
      (sect : QueueSection x s e t) : QueueStep s e t
  /-- A thread that was signalled gets the lock back. -/
  | resume {s t : QueueState Data Thread} {e : QueueEvent Data} {x : Thread}
      {c : Waiters Thread} (gets : Waiters.Resume s.cond x c)
      (sect : QueueSection x { s with cond := c } e t) : QueueStep s e t
  /-- A thread wakes without a signal. -/
  | stray {s : QueueState Data Thread} {x : Thread} {c : Waiters Thread}
      (wakes : Waiters.Strays s.cond x c) :
      QueueStep s .strays { s with cond := c, strays := x :: s.strays }
  /-- A thread that woke without a signal gets the lock back. -/
  | strayResume {s t : QueueState Data Thread} {e : QueueEvent Data} {x : Thread}
      {a b : List Thread} (gets : s.strays = a ++ x :: b)
      (sect : QueueSection x { s with strays := a ++ b } e t) : QueueStep s e t

/-- The values enqueued in a run, in lock order. -/
def enqueuedValues (es : List (QueueEvent Data)) : List Data :=
  es.filterMap fun
    | .enqueued d => some d
    | _ => none

/-- The values dequeued in a run, in lock order. -/
def dequeuedValues (es : List (QueueEvent Data)) : List Data :=
  es.filterMap fun
    | .dequeued d => some d
    | _ => none

theorem enqueuedValues_append (es : List (QueueEvent Data)) (e : QueueEvent Data) :
    enqueuedValues (es ++ [e]) = enqueuedValues es ++ enqueuedValues [e] :=
  List.filterMap_append

theorem dequeuedValues_append (es : List (QueueEvent Data)) (e : QueueEvent Data) :
    dequeuedValues (es ++ [e]) = dequeuedValues es ++ dequeuedValues [e] :=
  List.filterMap_append

/-- What was enqueued was dequeued or is in the list; nobody sleeps over more values
than there are signalled threads on their way. -/
structure QueueAccounts (s : QueueState Data Thread) (es : List (QueueEvent Data))
    (as : List Addr) (values : List Data) : Prop where
  holds : s.queue.Holds as values
  fifo : enqueuedValues es = dequeuedValues es ++ values
  woken : s.cond.asleep ≠ [] → values.length ≤ s.cond.woken.length

/-- A consumer's section, entered with `woken` threads signalled besides it. -/
theorem QueueSection.accounts {x : Thread} {s t : QueueState Data Thread} {e : QueueEvent Data}
    {es : List (QueueEvent Data)} {as : List Addr} {values : List Data}
    (h : QueueSection x s e t) (hholds : s.queue.Holds as values)
    (hfifo : enqueuedValues es = dequeuedValues es ++ values)
    (hwoken : s.cond.asleep ≠ [] → values.length ≤ s.cond.woken.length + 1) :
    ∃ as values, QueueAccounts t (es ++ [e]) as values := by
  cases h with
  | @take d queue hsome hok =>
      cases hholds.values with
      | nil => exact absurd (hholds.size_eq_zero_iff.mpr rfl) hsome
      | @cons a d' as values hnode hrest =>
          obtain ⟨queue', hok', hholds'⟩ := hholds.dequeue
          rw [hok, Except.ok.injEq, Prod.mk.injEq] at hok'
          obtain ⟨rfl, rfl⟩ := hok'
          refine ⟨as, values, hholds', ?_, fun hasleep => ?_⟩
          · rw [enqueuedValues_append, dequeuedValues_append, hfifo, List.append_assoc]
            show _ ++ (d :: values ++ []) = _ ++ [d] ++ values
            rw [List.append_nil, List.append_assoc, List.singleton_append]
          · simpa using hwoken hasleep
  | wait hnone =>
      obtain rfl := hholds.size_eq_zero_iff.mp hnone
      refine ⟨as, [], hholds, ?_, fun _ => Nat.zero_le _⟩
      rw [enqueuedValues_append, dequeuedValues_append, hfifo]
      rfl

/-- What one step does to the account. -/
theorem QueueStep.accounts {s t : QueueState Data Thread} {e : QueueEvent Data}
    {es : List (QueueEvent Data)} {as : List Addr} {values : List Data} (h : QueueStep s e t)
    (hacc : QueueAccounts s es as values) : ∃ as values, QueueAccounts t (es ++ [e]) as values := by
  cases h with
  | @enqueue newNode d queue c hnull hfresh hok hsignal =>
      obtain ⟨queue', hok', hholds⟩ := hacc.holds.enqueue hnull hfresh d
      rw [hok, Except.ok.injEq] at hok'
      subst hok'
      refine ⟨as ++ [newNode], values ++ [d], hholds, ?_, fun hasleep => ?_⟩
      · rw [enqueuedValues_append, dequeuedValues_append, hacc.fifo, List.append_assoc]
        show _ = dequeuedValues es ++ [] ++ _
        rw [List.append_nil]
        rfl
      · obtain ⟨hnone, rfl⟩ | ⟨x, hperm, hwoken⟩ := hsignal.cases
        · exact absurd hnone hasleep
        · have hbefore : s.cond.asleep ≠ [] := fun hnil => by
            rw [hnil] at hperm
            exact List.cons_ne_nil _ _ hperm.nil_eq.symm
          have := hacc.woken hbefore
          show (values ++ [d]).length ≤ c.woken.length
          rw [List.length_append, List.length_singleton, hwoken, List.length_cons]
          omega
  | call sect =>
      exact sect.accounts hacc.holds hacc.fifo fun hasleep =>
        Nat.le_succ_of_le (hacc.woken hasleep)
  | resume gets sect =>
      obtain ⟨hasleep, hwoken⟩ := gets.cases
      refine sect.accounts hacc.holds hacc.fifo fun hne => ?_
      have := hacc.woken (hasleep ▸ hne)
      rwa [hwoken.length_eq] at this
  | @stray x c wakes =>
      obtain ⟨hperm, hwoken⟩ := wakes.cases
      refine ⟨as, values, hacc.holds, ?_, fun _ => ?_⟩
      · rw [enqueuedValues_append, dequeuedValues_append, hacc.fifo, List.append_assoc,
          List.append_assoc]
        show _ ++ (values ++ []) = _ ++ ([] ++ values)
        rw [List.append_nil, List.nil_append]
      · show values.length ≤ c.woken.length
        rw [hwoken]
        refine hacc.woken fun hnil => ?_
        rw [hnil] at hperm
        exact List.cons_ne_nil _ _ hperm.nil_eq.symm
  | strayResume gets sect =>
      exact sect.accounts hacc.holds hacc.fifo fun hasleep =>
        Nat.le_succ_of_le (hacc.woken hasleep)

/-- Every run keeps its account. -/
theorem exists_queueAccounts {es : List (QueueEvent Data)} {s : QueueState Data Thread}
    (h : Steps QueueStep queueInit es s) : ∃ as values, QueueAccounts s es as values := by
  induction h with
  | nil => exact ⟨[], [], holds_queueCreate, rfl, fun _ => le_rfl⟩
  | snoc _ hstep ih =>
      obtain ⟨as, values, hacc⟩ := ih
      exact hstep.accounts hacc

/-- What is promised of a run of the queue. -/
structure QueueSound (s : QueueState Data Thread) (es : List (QueueEvent Data)) : Prop where
  /-- First in, first out. -/
  fifo : dequeuedValues es <+: enqueuedValues es
  /-- `size` is the length of the list, and `tail` its last node if it has one. -/
  list : ∃ as, Seg Node.next s.queue.heap s.queue.head as 0 ∧
    s.queue.size.toNat = as.length ∧ ∀ a, as.getLast? = some a → s.queue.tail = a
  /-- No value is slept through. -/
  woken : s.cond.asleep ≠ [] → s.queue.size.toNat ≤ s.cond.woken.length
  /-- No section faults. -/
  enqueues : ∀ (newNode : Addr) (d : Data), newNode ≠ 0 → s.queue.heap newNode = none →
    ∃ queue, queueEnqueue s.queue newNode d = .ok queue
  dequeues : s.queue.size ≠ 0 → ∃ r, queueDequeue s.queue = .ok r

/-- Every run of producers and consumers is first in first out, keeps the list and its
`size` and `tail` together, and loses no wake-up. -/
theorem queue_run {es : List (QueueEvent Data)} {s : QueueState Data Thread}
    (h : Steps QueueStep queueInit es s) : QueueSound s es := by
  obtain ⟨as, values, hacc⟩ := exists_queueAccounts h
  refine ⟨⟨values, hacc.fifo.symm⟩, ⟨as, hacc.holds.chain, hacc.holds.size, hacc.holds.tail⟩,
    fun hasleep => ?_, fun newNode d hnull hfresh => ?_, fun hsome => ?_⟩
  · rw [hacc.holds.length_values]
    exact hacc.woken hasleep
  · obtain ⟨queue, hok, -⟩ := hacc.holds.enqueue hnull hfresh d
    exact ⟨queue, hok⟩
  · have hholds := hacc.holds
    cases hvalues : hacc.holds.values with
    | nil => exact absurd (hholds.size_eq_zero_iff.mpr rfl) hsome
    | cons =>
        obtain ⟨queue, hok, -⟩ := hholds.dequeue
        exact ⟨_, hok⟩

/-- A consumer sleeps, a value is enqueued for it, another consumer takes the value first,
and the woken one sleeps again. -/
theorem queue_run_stolen :
    ∃ s : QueueState ℤ ℕ, QueueSound s [.sleeps, .enqueued 7, .dequeued 7, .sleeps] := by
  have hholds : (queueCreate : Queue ℤ).Holds [] [] := holds_queueCreate
  obtain ⟨queue₁, henq, hholds₁⟩ := hholds.enqueue (show (16 : Addr) ≠ 0 by decide) rfl 7
  obtain ⟨queue₂, hdeq, hholds₂⟩ := hholds₁.dequeue
  have hsize₁ : queue₁.size ≠ 0 := fun h0 => by
    simpa using hholds₁.size_eq_zero_iff.mp h0
  have hsize₂ : queue₂.size = 0 := hholds₂.size_eq_zero_iff.mpr rfl
  have hwakes : Waiters.Signal (⟨[1], []⟩ : Waiters ℕ) ⟨[], [1]⟩ := .wakes (a := []) (b := [])
  have hgets : Waiters.Resume (⟨[], [1]⟩ : Waiters ℕ) 1 ⟨[], []⟩ := .gets (a := []) (b := [])
  exact ⟨⟨queue₂, ⟨[1], []⟩, []⟩, queue_run
    ((((Steps.nil.snoc (.call (x := 1) (.wait rfl))).snoc
      (.enqueue (by decide) rfl henq hwakes)).snoc
      (.call (x := 2) (.take hsize₁ hdeq))).snoc (.resume hgets (.wait hsize₂)))⟩

/-! ## `queue_size` and `queue_destroy` -/

/-- `queue_size` inside the lock. -/
def queueSize (queue : Queue Data) : UInt64 := queue.size

/-- `queue_destroy`, when no thread uses the queue any more: the nodes that are left. -/
def queueDestroy (queue : Queue Data) : Except Fault (Heap (Node Data)) :=
  (Heap.freeEach Node.next (fun _ => Except.ok) (2 ^ 64) queue.head (queue.heap, ())).map Prod.fst

/-- `queue_enqueue` adds its node and no other. -/
theorem heap_of_queueEnqueue {queue queue' : Queue Data} {newNode : Addr} {data : Data}
    (hok : queueEnqueue queue newNode data = .ok queue') {a : Addr} {node : Node Data}
    (hnode : queue'.heap a = some node) : a = newNode ∨ ∃ was, queue.heap a = some was := by
  have hstored : ∀ found, queue.heap.store newNode ⟨0, data⟩ a = some found →
      a = newNode ∨ ∃ was, queue.heap a = some was := by
    intro found hfound
    by_cases ha : a = newNode
    · exact Or.inl ha
    · rw [Heap.store_of_ne _ _ ha] at hfound
      exact Or.inr ⟨found, hfound⟩
  unfold queueEnqueue at hok
  by_cases hhead : queue.head = 0
  · rw [if_pos hhead] at hok
    cases hok
    exact hstored node hnode
  · rw [if_neg hhead] at hok
    cases hload : (queue.heap.store newNode ⟨0, data⟩).load queue.tail with
    | error e =>
        rw [hload] at hok
        cases hok
    | ok last =>
        rw [hload] at hok
        cases hok
        -- the write to the last node adds none
        have hsome := Heap.isSome_store (m := { last with next := newNode })
          (Heap.some_of_load hload) a
        replace hnode : (queue.heap.store newNode ⟨0, data⟩).store queue.tail
          { last with next := newNode } a = some node := hnode
        rw [hnode] at hsome
        obtain ⟨found, hfound⟩ := Option.isSome_iff_exists.mp hsome.symm
        exact hstored found hfound

/-- `queue_dequeue` frees the first node and no other. -/
theorem heap_of_queueDequeue {queue queue' : Queue Data} {data : Data}
    (hok : queueDequeue queue = .ok (data, queue')) {a : Addr} {node : Node Data}
    (hnode : queue'.heap a = some node) : a ≠ queue.head ∧ queue.heap a = some node := by
  obtain ⟨first, -, hok⟩ := exists_of_bind hok
  obtain ⟨heap, hfree, hok⟩ := exists_of_bind hok
  cases hok
  obtain rfl := Heap.eq_of_free hfree
  exact Heap.of_freed hnode

/-- The queue holds the values, and has no nodes but those of its list. -/
def Queue.Owns (queue : Queue Data) (as : List Addr) (values : List Data) : Prop :=
  queue.Holds as values ∧ ∀ a node, queue.heap a = some node → a ∈ as

/-- A consumer's section leaves no node behind. -/
theorem QueueSection.owns {x : Thread} {s t : QueueState Data Thread} {e : QueueEvent Data}
    (h : QueueSection x s e t) (howns : ∃ as values, s.queue.Owns as values) :
    ∃ as values, t.queue.Owns as values := by
  obtain ⟨as, values, hholds, hall⟩ := howns
  cases h with
  | wait => exact ⟨as, values, hholds, hall⟩
  | @take d queue hsome hok =>
      cases hholds.values with
      | nil => exact absurd (hholds.size_eq_zero_iff.mpr rfl) hsome
      | @cons a d' as values _ _ =>
          obtain ⟨queue', hok', hholds'⟩ := hholds.dequeue
          rw [hok, Except.ok.injEq, Prod.mk.injEq] at hok'
          obtain ⟨-, rfl⟩ := hok'
          refine ⟨as, values, hholds', fun b node hnode => ?_⟩
          obtain ⟨hhead, hwas⟩ := heap_of_queueDequeue hok hnode
          have hfirst : s.queue.head = a := hholds.chain.cons_inv.1
          exact (List.mem_cons.mp (hall b node hwas)).resolve_left (hfirst ▸ hhead)

/-- Nor does any other step. -/
theorem QueueStep.owns {s t : QueueState Data Thread} {e : QueueEvent Data} (h : QueueStep s e t)
    (howns : ∃ as values, s.queue.Owns as values) : ∃ as values, t.queue.Owns as values := by
  cases h with
  | @enqueue newNode d queue c hnull hfresh hok _ =>
      obtain ⟨as, values, hholds, hall⟩ := howns
      obtain ⟨queue', hok', hholds'⟩ := hholds.enqueue hnull hfresh d
      obtain rfl := Except.ok.inj (hok.symm.trans hok')
      refine ⟨as ++ [newNode], values ++ [d], hholds', fun a node hnode => ?_⟩
      rcases heap_of_queueEnqueue hok hnode with rfl | ⟨was, hwas⟩
      · exact List.mem_append_right _ List.mem_cons_self
      · exact List.mem_append_left _ (hall a was hwas)
  | call sect => exact sect.owns howns
  | resume _ sect => exact sect.owns howns
  | stray => exact howns
  | strayResume _ sect => exact sect.owns howns

/-- **The queue gives its nodes back.**  Behind every run of producers and consumers,
`queue_size` is what was enqueued less what was dequeued, and `queue_destroy` frees every node
that `queue_dequeue` has not freed, once. -/
theorem queueDestroy_run {es : List (QueueEvent Data)} {s : QueueState Data Thread}
    (h : Steps QueueStep queueInit es s) :
    (queueSize s.queue).toNat + (dequeuedValues es).length = (enqueuedValues es).length ∧
      queueDestroy s.queue = .ok fun _ => none := by
  obtain ⟨as, values, hacc⟩ := exists_queueAccounts h
  have hinit : ∃ as values, (queueCreate : Queue Data).Owns as values :=
    ⟨[], [], holds_queueCreate, fun a node hnode => by cases hnode⟩
  obtain ⟨bs, values', hholds, hall⟩ := Steps.invariant
    (I := fun s : QueueState Data Thread => ∃ as values, s.queue.Owns as values)
    (fun _ _ _ howns hstep => hstep.owns howns) h hinit
  constructor
  · rw [queueSize, hacc.holds.length_values, hacc.fifo, List.length_append, Nat.add_comm]
  · rw [queueDestroy, hholds.chain.freeEach_all hall]
    rfl

/-- Two values are enqueued, and one of them dequeued before the queue is destroyed. -/
theorem queueDestroy_run_left : ∃ queue : Queue ℤ,
    (queueSize queue).toNat + 1 = 2 ∧ queueDestroy queue = .ok fun _ => none := by
  have hholds : (queueCreate : Queue ℤ).Holds [] [] := holds_queueCreate
  obtain ⟨queue₁, henq₁, hholds₁⟩ := hholds.enqueue (show (16 : Addr) ≠ 0 by decide) rfl 7
  obtain rfl := Except.ok.inj (henq₁.symm.trans rfl)
  obtain ⟨queue₂, henq₂, hholds₂⟩ := hholds₁.enqueue (show (24 : Addr) ≠ 0 by decide) (by decide) 8
  obtain ⟨queue₃, hdeq, hholds₃⟩ := hholds₂.dequeue
  have hsize : queue₂.size ≠ 0 := fun h0 => by
    simpa using hholds₂.size_eq_zero_iff.mp h0
  have hrun : Steps QueueStep (queueInit : QueueState ℤ ℕ)
      [.enqueued 7, .enqueued 8, .dequeued 7] ⟨queue₃, .none, []⟩ :=
    ((Steps.nil.snoc (.enqueue (by decide) rfl henq₁ (.lost rfl))).snoc
      (.enqueue (by decide) (by decide) henq₂ (.lost rfl))).snoc (.call (x := 1) (.take hsize hdeq))
  exact ⟨queue₃, queueDestroy_run hrun⟩
