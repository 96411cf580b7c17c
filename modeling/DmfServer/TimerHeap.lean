/-
# The timer heap and its indices

The functions of the heap once more, each access to `events` with a note of its index; without
the notes they are the functions of before (`result_pushTraced`, `result_popTraced`).

`heap_keeps`: `min_heap_push` and `min_heap_pop` keep the order of the heap, add and take away one
event, and use the indices of the events only.
-/
import DmfServer.Timer
import DmfServer.Traced

open CMem BinaryHeap Traced

variable {V : Type}

/-- The first `size` events are there, and none is due before the one above it. -/
structure HeapShape (heap : MinHeap V) : Prop where
  room : heap.size ≤ heapRoom
  events : ∀ i < heap.size, ∃ event, slotAt heap.events i = .ok (.obj event)
  order : ∀ i, 0 < i → i < heap.size → ∀ above below,
    timeoutAt heap.events ((i - 1) / 2) = .ok above → timeoutAt heap.events i = .ok below →
      above ≤ below

/-! ## The functions with the indices -/

/-- `heap->events[i]`. -/
def slotTraced (events : Slots V) (i : ℕ) : Traced ℕ Fault (Ptr (Event V)) :=
  note i (slotAt events i)

/-- `heap->events[i] = event`. -/
def setTraced (events : Slots V) (i : ℕ) (event : Ptr (Event V)) : Traced ℕ Fault (Slots V) :=
  note i (setSlot events i event)

/-- `heap->events[i]->timeout`. -/
def timeoutTraced (events : Slots V) (i : ℕ) : Traced ℕ Fault ℤ := do
  let event ← slotTraced events i
  quiet (event.deref.map Event.timeout)

/-- The loop of `min_heap_push`. -/
def pushLoopTraced (event : Event V) (events : Slots V) (i : ℕ) : Traced ℕ Fault (Slots V) :=
  if 0 < i then do
    if (← timeoutTraced events ((i - 1) / 2)) ≤ event.timeout then setTraced events i (.obj event)
    else do
      let events ← setTraced events i (← slotTraced events ((i - 1) / 2))
      pushLoopTraced event events ((i - 1) / 2)
  else setTraced events i (.obj event)
termination_by i
decreasing_by omega

/-- `min_heap_push`. -/
def pushTraced (heap : MinHeap V) (event : Event V) : Traced ℕ Fault (MinHeap V) := do
  let events ← pushLoopTraced event heap.events heap.size
  quiet (.ok ⟨events, heap.size + 1⟩)

/-- `b < heap->size && heap->events[b]->timeout < heap->events[a]->timeout`. -/
def secondTraced (size : ℕ) (events : Slots V) (a b : ℕ) : Traced ℕ Fault Bool :=
  if b < size then do
    quiet (.ok ((← timeoutTraced events b) < (← timeoutTraced events a)))
  else quiet (.ok false)

/-- The loop of `min_heap_pop`. -/
def popLoopTraced (size : ℕ) (event : Ptr (Event V)) (events : Slots V) (i : ℕ) :
    Traced ℕ Fault (Slots V) :=
  if i * 2 + 1 < size then do
    let second ← secondTraced size events (i * 2 + 1) (i * 2 + 2)
    let due ← quiet event.deref
    if due.timeout ≤ (← timeoutTraced events (childAt i second)) then setTraced events i event
    else do
      let events ← setTraced events i (← slotTraced events (childAt i second))
      popLoopTraced size event events (childAt i second)
  else setTraced events i event
termination_by size - i
decreasing_by
  have := lt_childAt i second
  omega

/-- `min_heap_pop`. -/
def popTraced (heap : MinHeap V) : Traced ℕ Fault (MinHeap V) :=
  match heap.size with
  | 0 => quiet (.error .read)
  | size + 1 => do
      let event ← slotTraced heap.events size
      let events ← popLoopTraced size event heap.events 0
      quiet (.ok ⟨events, size⟩)

/-! ## Without the notes -/

@[simp] theorem result_timeoutTraced (events : Slots V) (i : ℕ) :
    (timeoutTraced events i).result = timeoutAt events i := by
  unfold timeoutTraced timeoutAt slotTraced
  rw [result_bind]
  rfl

theorem result_pushLoopTraced (event : Event V) (events : Slots V) (i : ℕ) :
    (pushLoopTraced event events i).result = pushLoop event events i := by
  induction i using Nat.strongRecOn generalizing events with
  | ind i ih =>
      rw [pushLoopTraced, pushLoop]
      by_cases hpos : 0 < i
      · rw [if_pos hpos, if_pos hpos, result_bind, result_timeoutTraced]
        congr 1
        funext above
        split
        · rfl
        · rw [result_bind]
          congr 1
          funext parent
          rw [result_bind]
          congr 1
          funext events
          exact ih _ (by omega) events
      · rw [if_neg hpos, if_neg hpos]
        rfl

theorem result_pushTraced (heap : MinHeap V) (event : Event V) :
    (pushTraced heap event).result = minHeapPush heap event := by
  unfold pushTraced minHeapPush
  rw [result_bind, result_pushLoopTraced]
  cases pushLoop event heap.events heap.size with
  | ok events => rfl
  | error e => rfl

theorem result_secondTraced (size : ℕ) (events : Slots V) (a b : ℕ) :
    (secondTraced size events a b).result = secondFirst size events a b := by
  unfold secondTraced secondFirst
  split
  · rw [result_bind, result_timeoutTraced]
    congr 1
    funext second
    rw [result_bind, result_timeoutTraced]
    rfl
  · rfl

theorem result_popLoopTraced (size : ℕ) (event : Ptr (Event V)) (n : ℕ) (events : Slots V) {i : ℕ}
    (hn : size - i = n) :
    (popLoopTraced size event events i).result = popLoop size event events i := by
  induction n using Nat.strongRecOn generalizing events i with
  | ind n ih =>
      rw [popLoopTraced, popLoop]
      by_cases hchild : i * 2 + 1 < size
      · rw [if_pos hchild, if_pos hchild, result_bind, result_secondTraced]
        congr 1
        funext second
        rw [result_bind, result_quiet]
        congr 1
        funext due
        rw [result_bind, result_timeoutTraced]
        congr 1
        funext timeout
        split
        · rfl
        · rw [result_bind]
          congr 1
          funext child
          rw [result_bind]
          congr 1
          funext events
          have hlt := lt_childAt i second
          exact ih _ (by omega) events rfl
      · rw [if_neg hchild, if_neg hchild]
        rfl

theorem result_popTraced (heap : MinHeap V) : (popTraced heap).result = minHeapPop heap := by
  unfold popTraced minHeapPop
  cases heap.size with
  | zero => rfl
  | succ size =>
      rw [result_bind]
      congr 1
      funext event
      rw [result_bind, result_popLoopTraced size event _ heap.events rfl]
      cases popLoop size event heap.events 0 with
      | ok events => rfl
      | error e => rfl

/-! ## The indices -/

theorem uses_at {α : Type} {i n : ℕ} (hi : i ≤ n) (result : Except Fault α) :
    Uses (· ≤ n) (note i result) := uses_note (p := (· ≤ n)) hi result

theorem uses_timeoutTraced (events : Slots V) {i n : ℕ} (hi : i ≤ n) :
    Uses (· ≤ n) (timeoutTraced events i) :=
  (uses_at hi _).bind fun event _ => uses_quiet (event.deref.map Event.timeout)

/-- The place of the event in `min_heap_push` only gets smaller. -/
theorem uses_pushLoopTraced (event : Event V) {n : ℕ} (events : Slots V) {i : ℕ} (hi : i ≤ n) :
    Uses (· ≤ n) (pushLoopTraced event events i) := by
  induction i using Nat.strongRecOn generalizing events with
  | ind i ih =>
      rw [pushLoopTraced]
      by_cases hpos : 0 < i
      · have hparent : (i - 1) / 2 ≤ n := by omega
        rw [if_pos hpos]
        refine (uses_timeoutTraced events hparent).bind fun above _ => ?_
        split
        · exact uses_at hi _
        · refine (uses_at hparent _).bind fun parent _ => ?_
          refine (uses_at hi _).bind fun events _ => ?_
          exact ih _ (by omega) events hparent
      · rw [if_neg hpos]
        exact uses_at hi _

theorem uses_pushTraced (heap : MinHeap V) (event : Event V) :
    Uses (· < heap.size + 1) (pushTraced heap event) := by
  have hloop := (uses_pushLoopTraced event heap.events (le_refl heap.size)).bind
    fun events _ => uses_quiet (.ok (⟨events, heap.size + 1⟩ : MinHeap V))
  exact fun i hi => Nat.lt_succ_of_le (hloop i hi)

theorem uses_secondTraced {size : ℕ} (events : Slots V) {a b : ℕ} (ha : a < size) :
    Uses (· ≤ size) (secondTraced size events a b) := by
  unfold secondTraced
  split
  · next hb =>
    refine (uses_timeoutTraced events hb.le).bind fun second _ => ?_
    exact (uses_timeoutTraced events ha.le).bind fun first _ => uses_quiet _
  · exact uses_quiet _

/-- The second child is taken only where there is one. -/
theorem lt_of_secondFirst {size : ℕ} {events : Slots V} {a b : ℕ}
    (h : secondFirst size events a b = .ok true) : b < size := by
  unfold secondFirst at h
  by_contra hb
  rw [if_neg hb] at h
  cases h

/-- The place of the event in `min_heap_pop` stays among the events that are left. -/
theorem uses_popLoopTraced (size : ℕ) (event : Ptr (Event V)) (n : ℕ) (events : Slots V) {i : ℕ}
    (hn : size - i = n) (hi : i ≤ size) : Uses (· ≤ size) (popLoopTraced size event events i) := by
  induction n using Nat.strongRecOn generalizing events i with
  | ind n ih =>
      rw [popLoopTraced]
      by_cases hchild : i * 2 + 1 < size
      · rw [if_pos hchild]
        refine (uses_secondTraced events hchild).bind fun second hsecond => ?_
        rw [result_secondTraced] at hsecond
        have hle : childAt i second ≤ size := by
          cases second with
          | false => exact hchild.le
          | true => exact (lt_of_secondFirst hsecond).le
        refine (uses_quiet event.deref).bind fun due _ => ?_
        refine (uses_timeoutTraced events hle).bind fun timeout _ => ?_
        split
        · exact uses_at hi _
        · refine (uses_at hle _).bind fun child _ => ?_
          refine (uses_at hi _).bind fun events _ => ?_
          have hlt := lt_childAt i second
          exact ih _ (by omega) events rfl hle
      · rw [if_neg hchild]
        exact uses_at hi _

theorem uses_popTraced (heap : MinHeap V) : Uses (· < heap.size) (popTraced heap) := by
  unfold popTraced
  cases heap.size with
  | zero => exact uses_quiet _
  | succ size =>
      refine (uses_note (p := (· < size + 1)) (Nat.lt_succ_self size) _).bind fun event _ => ?_
      have hloop := (uses_popLoopTraced size event _ heap.events rfl (Nat.zero_le size)).bind
        fun events _ => uses_quiet (.ok (⟨events, size⟩ : MinHeap V))
      exact fun i hi => Nat.lt_succ_of_le (hloop i hi)

/-! ## The shape of the heap -/

theorem HeapShape.exists_holds {heap : MinHeap V} (h : HeapShape heap) :
    ∃ l, heap.Holds l ∧ Ordered Event.timeout l := by
  choose event hevent using h.events
  have hslot : ∀ j, ∀ hj : j < heap.size, slotAt heap.events j = .ok (.obj (event j hj)) := hevent
  have hlen : (List.ofFn fun j : Fin heap.size => event j j.isLt).length = heap.size :=
    List.length_ofFn
  refine ⟨List.ofFn fun j : Fin heap.size => event j j.isLt,
    ⟨hlen.trans_le h.room, hlen.symm, fun j hj => ?_⟩, fun p c hp hc hchild => ?_⟩
  · rw [List.getElem_ofFn]
    exact hslot j (hj.trans_eq hlen)
  · have hc' := hc.trans_eq hlen
    have hp' := hp.trans_eq hlen
    have hpos : 0 < c := (Nat.zero_le p).trans_lt hchild.lt
    obtain rfl : (c - 1) / 2 = p := (isChild_parent hpos).unique hchild
    rw [List.getElem_ofFn, List.getElem_ofFn]
    exact h.order c hpos hc' _ _ (timeoutAt_eq (hslot _ hp')) (timeoutAt_eq (hslot _ hc'))

theorem MinHeap.Holds.shape {heap : MinHeap V} {l : List (Event V)} (h : heap.Holds l)
    (hordered : Ordered Event.timeout l) : HeapShape heap where
  room := h.size.trans_le h.room
  events i hi := by
    have hlt := hi.trans_eq h.size
    exact ⟨l[i], h.slots i hlt⟩
  order i hpos hi above below habove hbelow := by
    have hchild := isChild_parent hpos
    have hc := hi.trans_eq h.size
    have hp := hchild.lt.trans hc
    rw [timeoutAt_eq (h.slots _ hp)] at habove
    rw [timeoutAt_eq (h.slots _ hc)] at hbelow
    cases habove
    cases hbelow
    exact hordered _ _ hp hc hchild

/-- A run that uses the indices below `n` only, and comes to a heap. -/
def RunsBelow (n : ℕ) (run : Traced ℕ Fault (MinHeap V)) (heap : MinHeap V) : Prop :=
  run.result = .ok heap ∧ ∀ i ∈ run.used, i < n

/-- `min_heap_push` and `min_heap_pop` keep the heap; the one adds the event, the other takes away
the one that `min_heap_top` returns, which no other is due before. -/
theorem heap_keeps {heap : MinHeap V} (h : HeapShape heap) :
    (heap.size < heapRoom → ∀ event, ∃ heap', minHeapPush heap event = .ok heap' ∧
      RunsBelow (heap.size + 1) (pushTraced heap event) heap' ∧ HeapShape heap' ∧
      heap'.size = heap.size + 1 ∧ heap'.stored.Perm (event :: heap.stored)) ∧
    (0 < heap.size → ∃ first heap', minHeapTop heap = .ok (.obj first) ∧
      minHeapPop heap = .ok heap' ∧ RunsBelow heap.size (popTraced heap) heap' ∧
      HeapShape heap' ∧ heap'.size + 1 = heap.size ∧
      heap.stored.Perm (first :: heap'.stored) ∧
      ∀ event ∈ heap.stored, first.timeout ≤ event.timeout) := by
  obtain ⟨l, hholds, hordered⟩ := h.exists_holds
  have hsize := hholds.size
  have hstored := hholds.stored_eq
  constructor
  · intro hroom event
    obtain ⟨heap', l', hpush, hholds', hordered', hperm⟩ :=
      hholds.push hordered (by omega) event
    have hlen := hperm.length_eq
    rw [List.length_append, List.length_singleton] at hlen
    refine ⟨heap', hpush, ⟨(result_pushTraced heap event).trans hpush, uses_pushTraced heap event⟩,
      hholds'.shape hordered', by rw [hholds'.size, hlen, hsize], ?_⟩
    rw [hholds'.stored_eq, hstored]
    exact hperm.trans (List.perm_append_singleton event l)
  · intro hpos
    cases l with
    | nil => exact absurd hpos (by rw [hsize]; exact Nat.lt_irrefl 0)
    | cons first l =>
        obtain ⟨heap', l', hpop, hholds', hordered', hperm⟩ := hholds.pop hordered
        refine ⟨first, heap', hholds.slots 0 (Nat.succ_pos _), hpop,
          ⟨(result_popTraced heap).trans hpop, uses_popTraced heap⟩, hholds'.shape hordered',
          by rw [hholds'.size, hperm.length_eq, hsize, List.length_cons], ?_, ?_⟩
        · rw [hholds'.stored_eq, hstored]
          exact hperm.symm.cons first
        · rw [hstored]
          intro event hmem
          exact hordered.root_le_mem (Nat.succ_pos _) hmem

/-- A fourth event to a heap of three, and the first of the three out of it. -/
theorem heap_keeps_three : ∃ heap : MinHeap ℕ,
    heap.stored.Perm [⟨105, 1⟩, ⟨101, 2⟩, ⟨103, 3⟩] ∧
    (∃ heap', minHeapPush heap ⟨102, 4⟩ = .ok heap' ∧ HeapShape heap' ∧
      heap'.stored.Perm [⟨102, 4⟩, ⟨105, 1⟩, ⟨101, 2⟩, ⟨103, 3⟩]) ∧
    ∃ heap', minHeapTop heap = .ok (.obj ⟨101, 2⟩) ∧ minHeapPop heap = .ok heap' ∧
      HeapShape heap' ∧ heap'.stored.Perm [⟨105, 1⟩, ⟨103, 3⟩] := by
  obtain ⟨heap₁, l₁, -, hholds₁, hordered₁, hperm₁⟩ := (holds_emptyHeap (V := ℕ)).push
    (fun p c hp => absurd hp (Nat.not_lt_zero p)) (by decide) ⟨105, 1⟩
  have hlen₁ := hperm₁.length_eq
  obtain ⟨heap₂, l₂, -, hholds₂, hordered₂, hperm₂⟩ := hholds₁.push hordered₁
    (by rw [hlen₁]; decide) ⟨101, 2⟩
  have hlen₂ := hperm₂.length_eq
  obtain ⟨heap, l, -, hholds, hordered, hperm₃⟩ := hholds₂.push hordered₂
    (by rw [hlen₂, List.length_append, hlen₁]; decide) ⟨103, 3⟩
  have hperm : l.Perm [⟨105, 1⟩, ⟨101, 2⟩, ⟨103, 3⟩] :=
    hperm₃.trans ((hperm₂.trans (hperm₁.append_right _)).append_right _)
  have hsize : heap.size = 3 := by rw [hholds.size, hperm.length_eq]; rfl
  rw [← hholds.stored_eq] at hperm
  obtain ⟨hpush, hpop⟩ := heap_keeps (hholds.shape hordered)
  obtain ⟨heap', hrun, -, hshape, -, hpushed⟩ := hpush (by rw [hsize]; decide) ⟨102, 4⟩
  obtain ⟨first, heap'', htop, hrun', -, hshape', -, hpopped, hleast⟩ :=
    hpop (by rw [hsize]; decide)
  -- the first is one of the three, and due before the other two
  have hfirst : first = ⟨101, 2⟩ := by
    have hmem := hperm.subset (hpopped.symm.subset List.mem_cons_self)
    have hle := hleast ⟨101, 2⟩ (hperm.symm.subset (by simp))
    fin_cases hmem
    · exact absurd hle (by decide)
    · rfl
    · exact absurd hle (by decide)
  subst hfirst
  refine ⟨heap, hperm, ⟨heap', hrun, hshape, hpushed.trans (hperm.cons _)⟩, heap'', htop, hrun',
    hshape', ?_⟩
  have hrest := hpopped.symm.trans (hperm.trans (List.Perm.swap _ _ _))
  exact hrest.cons_inv
