/-
# Timers

`dm_timer.c`: a heap of at most 1024 events, the one that is due first in front.
`add_timer` moves a new event up from the end of the heap, and `handle_events` takes the first
one out and calls it as long as it is due.  An event that moves is not in the heap meanwhile:
the others are copied over its place, and it is written where it stops.

A callback does not touch the heap.  `timer_run`: in every run, `handle_events` calls what is
due, once each and in the order of the times, and leaves the rest.
-/
import DmfServer.BinaryHeap
import DmfServer.CMemory
import DmfServer.StepSystem

open CMem StepSystem BinaryHeap

/-- The length of `events` in a `MinHeap`. -/
def heapRoom : ℕ := 1024

/-- `Event`. -/
structure Event (V : Type) where
  timeout : ℤ
  callback : V
  deriving DecidableEq

/-- `events` of a `MinHeap`. -/
abbrev Slots (V : Type) := Vector (Ptr (Event V)) heapRoom

/-- `MinHeap`. -/
structure MinHeap (V : Type) where
  events : Slots V
  size : ℕ

variable {V : Type}

/-- `heap->events[i]`. -/
def slotAt (events : Slots V) (i : ℕ) : Except Fault (Ptr (Event V)) := arrayAt events.toList i

/-- `heap->events[i] = event`. -/
def setSlot (events : Slots V) (i : ℕ) (event : Ptr (Event V)) : Except Fault (Slots V) :=
  if h : i < heapRoom then .ok (events.set i event) else .error .write

/-- `heap->events[i]->timeout`. -/
def timeoutAt (events : Slots V) (i : ℕ) : Except Fault ℤ := do
  let event ← slotAt events i
  (event.deref).map Event.timeout

/-- The loop of `min_heap_push`, with the place for the event at `i`. -/
def pushLoop (event : Event V) (events : Slots V) (i : ℕ) : Except Fault (Slots V) :=
  if 0 < i then do
    if (← timeoutAt events ((i - 1) / 2)) ≤ event.timeout then setSlot events i (.obj event)
    else do
      let events ← setSlot events i (← slotAt events ((i - 1) / 2))
      pushLoop event events ((i - 1) / 2)
  else setSlot events i (.obj event)
termination_by i
decreasing_by omega

/-- `min_heap_push`. -/
def minHeapPush (heap : MinHeap V) (event : Event V) : Except Fault (MinHeap V) :=
  (pushLoop event heap.events heap.size).map fun events => ⟨events, heap.size + 1⟩

/-- `min_heap_top`. -/
def minHeapTop (heap : MinHeap V) : Except Fault (Ptr (Event V)) := slotAt heap.events 0

/-- `b < heap->size && heap->events[b]->timeout < heap->events[a]->timeout`. -/
def secondFirst (size : ℕ) (events : Slots V) (a b : ℕ) : Except Fault Bool :=
  if b < size then do .ok ((← timeoutAt events b) < (← timeoutAt events a)) else .ok false

/-- The child `a` of the place `i` that `min_heap_pop` goes on at. -/
def childAt (i : ℕ) (second : Bool) : ℕ := if second then i * 2 + 2 else i * 2 + 1

theorem lt_childAt (i : ℕ) (second : Bool) : i < childAt i second := by
  unfold childAt
  split <;> omega

/-- The loop of `min_heap_pop`, with the place for the event at `i`. -/
def popLoop (size : ℕ) (event : Ptr (Event V)) (events : Slots V) (i : ℕ) :
    Except Fault (Slots V) :=
  if i * 2 + 1 < size then do
    let second ← secondFirst size events (i * 2 + 1) (i * 2 + 2)
    if (← event.deref).timeout ≤ (← timeoutAt events (childAt i second)) then
      setSlot events i event
    else do
      let events ← setSlot events i (← slotAt events (childAt i second))
      popLoop size event events (childAt i second)
  else setSlot events i event
termination_by size - i
decreasing_by
  have := lt_childAt i second
  omega

/-- `min_heap_pop`. -/
def minHeapPop (heap : MinHeap V) : Except Fault (MinHeap V) :=
  match heap.size with
  | 0 => .error .read -- `heap->events[-1]`
  | size + 1 => do
      let event ← slotAt heap.events size
      (popLoop size event heap.events 0).map fun events => ⟨events, size⟩

/-- The loop of `handle_events`, with the events whose callbacks it calls. -/
def handleLoop (currentTime : ℤ) : ℕ → MinHeap V → Except Fault (List (Event V) × MinHeap V)
  | 0, _ => .error .loop
  | fuel + 1, heap =>
      if 0 < heap.size then do
        if (← timeoutAt heap.events 0) ≤ currentTime then do
          let event ← minHeapTop heap
          let heap ← minHeapPop heap
          let event ← event.deref
          (handleLoop currentTime fuel heap).map fun (ran, heap) => (event :: ran, heap)
        else .ok ([], heap)
      else .ok ([], heap)

/-- `handle_events`; every round takes an event out of the heap. -/
def handleEvents (currentTime : ℤ) (heap : MinHeap V) :
    Except Fault (List (Event V) × MinHeap V) :=
  handleLoop currentTime (heap.size + 1) heap

/-- `add_timer`, when `time(NULL)` is `now`. -/
def addTimer (now : ℤ) (heap : MinHeap V) (timeout : ℤ) (callback : V) :
    Except Fault (MinHeap V) :=
  minHeapPush heap { timeout := now + timeout, callback := callback }

/-- `{ .size = 0 }`. -/
def emptyHeap : MinHeap V := { events := Vector.replicate _ .null, size := 0 }

/-- The events in the heap. -/
def MinHeap.stored (heap : MinHeap V) : List (Event V) :=
  (heap.events.toList.take heap.size).filterMap fun
    | .obj event => some event
    | .addr _ => none

/-! ## What the heap holds -/

/-- The heap holds the events of the list, in this order. -/
structure MinHeap.Holds (heap : MinHeap V) (l : List (Event V)) : Prop where
  room : l.length ≤ heapRoom
  size : heap.size = l.length
  slots : ∀ j, ∀ (hj : j < l.length), slotAt heap.events j = .ok (.obj l[j])

/-- The slots hold the events of the list, but for the one at `i`, which is moving. -/
structure HoldsBut (events : Slots V) (l : List (Event V)) (i : ℕ) : Prop where
  room : l.length ≤ heapRoom
  place : i < l.length
  slots : ∀ j, ∀ (hj : j < l.length), j ≠ i → slotAt events j = .ok (.obj l[j])

theorem setSlot_eq (events : Slots V) {i : ℕ} (hi : i < heapRoom) (event : Ptr (Event V)) :
    ∃ events', setSlot events i event = .ok events' ∧ slotAt events' i = .ok event ∧
      ∀ j, j ≠ i → slotAt events' j = slotAt events j := by
  refine ⟨events.set i event, dif_pos hi, ?_, fun j hj => ?_⟩
  · unfold slotAt arrayAt
    rw [Vector.toList_set, List.getElem?_set_self (by simpa using hi)]
  · unfold slotAt arrayAt
    rw [Vector.toList_set, List.getElem?_set_ne (Ne.symm hj)]

theorem timeoutAt_eq {events : Slots V} {i : ℕ} {event : Event V}
    (h : slotAt events i = .ok (.obj event)) : timeoutAt events i = .ok event.timeout := by
  unfold timeoutAt
  rw [h]
  rfl

/-- The event is written where it stops. -/
theorem HoldsBut.settle {events : Slots V} {l : List (Event V)} {i : ℕ} (h : HoldsBut events l i)
    (hi : i < l.length) : ∃ events', setSlot events i (.obj l[i]) = .ok events' ∧
      MinHeap.Holds ⟨events', l.length⟩ l := by
  obtain ⟨events', hset, hself, hother⟩ := setSlot_eq events (hi.trans_le h.room) (.obj l[i])
  refine ⟨events', hset, h.room, rfl, fun j hj => ?_⟩
  by_cases hji : j = i
  · subst hji
    exact hself
  · exact (hother j hji).trans (h.slots j hj hji)

/-- An event is copied to the place, and its own place is the one by now. -/
theorem HoldsBut.exchange {events : Slots V} {l : List (Event V)} {i a : ℕ}
    (h : HoldsBut events l i) (hi : i < l.length) (ha : a < l.length) (hne : a ≠ i) :
    ∃ events', setSlot events i (.obj l[a]) = .ok events' ∧
      HoldsBut events' (exchange l i a hi ha) a := by
  obtain ⟨events', hset, hself, hother⟩ := setSlot_eq events (hi.trans_le h.room) (.obj l[a])
  refine ⟨events', hset, ⟨by rw [length_exchange]; exact h.room, by rwa [length_exchange],
    fun j hj' hja => ?_⟩⟩
  have hj := hj'.trans_eq (length_exchange hi ha)
  rw [getElem_exchange, if_neg hja]
  by_cases hji : j = i
  · subst hji
    rw [if_pos rfl]
    exact hself
  · rw [if_neg hji]
    exact (hother j hji).trans (h.slots j hj hji)

theorem MinHeap.Holds.stored_eq {heap : MinHeap V} {l : List (Event V)} (h : heap.Holds l) :
    heap.stored = l := by
  have htake : heap.events.toList.take heap.size = l.map .obj := by
    have hlen : (heap.events.toList.take heap.size).length = l.length := by
      rw [List.length_take, Vector.length_toList, h.size]
      exact Nat.min_eq_left h.room
    refine List.ext_getElem (by rw [hlen, List.length_map]) fun j hj _ => ?_
    have hslot := h.slots j (hj.trans_eq hlen)
    unfold slotAt arrayAt at hslot
    rw [List.getElem_take, List.getElem_map]
    rw [List.length_take] at hj
    rw [List.getElem?_eq_getElem (by omega)] at hslot
    exact Except.ok.inj hslot
  unfold stored
  rw [htake, List.filterMap_map]
  exact List.filterMap_some

/-! ## `min_heap_push` and `min_heap_pop` -/

/-- The loop of `min_heap_push` stops with a heap of the same events. -/
theorem pushLoop_eq {events : Slots V} {l : List (Event V)} {i : ℕ} (h : HoldsBut events l i)
    (hi : i < l.length) (hup : UpOrdered Event.timeout l i) :
    ∃ events' l', pushLoop l[i] events i = .ok events' ∧ MinHeap.Holds ⟨events', l'.length⟩ l' ∧
      Ordered Event.timeout l' ∧ l'.Perm l := by
  induction i using Nat.strongRecOn generalizing events l with
  | ind i ih =>
      rw [pushLoop]
      by_cases hpos : 0 < i
      · have hparent := isChild_parent hpos
        have hp : (i - 1) / 2 < l.length := hparent.lt.trans hi
        have hne : (i - 1) / 2 ≠ i := hparent.lt.ne
        have hslot := h.slots _ hp hne
        rw [if_pos hpos, timeoutAt_eq hslot, ok_bind]
        by_cases hle : l[(i - 1) / 2].timeout ≤ l[i].timeout
        · -- the event stops under its parent
          obtain ⟨events', hset, hholds⟩ := h.settle hi
          rw [if_pos hle]
          refine ⟨events', l, hset, hholds, hup.ordered fun p _ _ hchild => ?_, .refl l⟩
          obtain rfl := hchild.unique hparent
          exact hle
        · -- the parent is copied down, and the place is its own by now
          obtain ⟨events', hset, hbut⟩ := h.exchange hi hp hne
          have hup' := hup.exchange hi hp hparent (le_of_not_ge hle)
          have hp' : (i - 1) / 2 < (exchange l i ((i - 1) / 2) hi hp).length := by
            rwa [length_exchange]
          have hself : (exchange l i ((i - 1) / 2) hi hp)[(i - 1) / 2] = l[i] := by
            rw [getElem_exchange, if_pos rfl]
          obtain ⟨events'', l', hloop, hholds, hordered, hperm⟩ := ih _ hparent.lt hbut hp' hup'
          rw [hself] at hloop
          rw [if_neg hle, hslot, ok_bind, hset, ok_bind]
          exact ⟨events'', l', hloop, hholds, hordered, hperm.trans (exchange_perm hi hp)⟩
      · obtain ⟨events', hset, hholds⟩ := h.settle hi
        rw [if_neg hpos]
        refine ⟨events', l, hset, hholds, hup.ordered fun p _ _ hchild => ?_, .refl l⟩
        exact absurd hchild.lt (by omega)

/-- `min_heap_push` adds the event. -/
theorem MinHeap.Holds.push {heap : MinHeap V} {l : List (Event V)} (h : heap.Holds l)
    (hordered : Ordered Event.timeout l) (hroom : l.length < heapRoom) (event : Event V) :
    ∃ heap' l', minHeapPush heap event = .ok heap' ∧ heap'.Holds l' ∧
      Ordered Event.timeout l' ∧ l'.Perm (l ++ [event]) := by
  have hi : l.length < (l ++ [event]).length := by
    rw [List.length_append, List.length_singleton]
    omega
  have hbut : HoldsBut heap.events (l ++ [event]) l.length := by
    refine ⟨by rw [List.length_append, List.length_singleton]; omega, hi, fun j hj hne => ?_⟩
    rw [List.length_append, List.length_singleton] at hj
    have hjl : j < l.length := by omega
    rw [List.getElem_append_left hjl]
    exact h.slots j hjl
  obtain ⟨events', l', hloop, hholds, hord, hperm⟩ :=
    pushLoop_eq hbut hi (hordered.upOrdered event)
  have hlast : (l ++ [event])[l.length] = event := by
    rw [List.getElem_append_right le_rfl, List.getElem_singleton]
  have hlen : l'.length = heap.size + 1 := by
    rw [hperm.length_eq, List.length_append, List.length_singleton, h.size]
  rw [hlast] at hloop
  refine ⟨⟨events', heap.size + 1⟩, l', ?_, hlen ▸ hholds, hord, hperm⟩
  unfold minHeapPush
  rw [h.size, hloop]
  rfl

/-- The child that `min_heap_pop` goes on at is the first of the children. -/
theorem secondFirst_eq {events : Slots V} {l : List (Event V)} {i : ℕ} (h : HoldsBut events l i)
    (hchild : i * 2 + 1 < l.length) : ∃ second,
      secondFirst l.length events (i * 2 + 1) (i * 2 + 2) = .ok second ∧
      ∃ ha : childAt i second < l.length, IsChild i (childAt i second) ∧
        ∀ c, ∀ (hc : c < l.length), IsChild i c →
          (l[childAt i second]).timeout ≤ l[c].timeout := by
  have hfirst := timeoutAt_eq (h.slots (i * 2 + 1) hchild (by omega))
  unfold secondFirst
  by_cases hsecond : i * 2 + 2 < l.length
  · rw [if_pos hsecond, timeoutAt_eq (h.slots (i * 2 + 2) hsecond (by omega)), hfirst]
    by_cases hlt : l[i * 2 + 2].timeout < l[i * 2 + 1].timeout
    · refine ⟨true, by simp [hlt], hsecond, Or.inr (by unfold childAt; simp; omega), ?_⟩
      rintro c hc (rfl | rfl)
      · simpa [childAt, mul_comm] using hlt.le
      · simp [childAt, mul_comm]
    · refine ⟨false, by simp [hlt], hchild, Or.inl (by unfold childAt; simp; omega), ?_⟩
      rintro c hc (rfl | rfl)
      · simp [childAt, mul_comm]
      · simpa [childAt, mul_comm] using le_of_not_gt hlt
  · rw [if_neg hsecond]
    refine ⟨false, rfl, hchild, Or.inl (by unfold childAt; simp; omega), ?_⟩
    rintro c hc (rfl | rfl)
    · simp [childAt, mul_comm]
    · exact absurd hc (by omega)

/-- The loop of `min_heap_pop` stops with a heap of the same events. -/
theorem popLoop_eq (n : ℕ) {events : Slots V} {l : List (Event V)} {i : ℕ}
    (hn : l.length - i = n) (h : HoldsBut events l i) (hi : i < l.length)
    (hdown : DownOrdered Event.timeout l i) :
    ∃ events' l', popLoop l.length (.obj l[i]) events i = .ok events' ∧
      MinHeap.Holds ⟨events', l'.length⟩ l' ∧ Ordered Event.timeout l' ∧ l'.Perm l := by
  induction n using Nat.strongRecOn generalizing events l i with
  | ind n ih =>
      rw [popLoop]
      by_cases hchild : i * 2 + 1 < l.length
      · obtain ⟨second, hsecond, ha, hparent, hfirst⟩ := secondFirst_eq h hchild
        have hne : childAt i second ≠ i := hparent.lt.ne'
        have hslot := h.slots _ ha hne
        rw [if_pos hchild, hsecond, ok_bind, timeoutAt_eq hslot]
        show ∃ events' l', (if l[i].timeout ≤ _ then _ else _) = _ ∧ _
        by_cases hle : l[i].timeout ≤ (l[childAt i second]).timeout
        · -- the event stops above its children
          obtain ⟨events', hset, hholds⟩ := h.settle hi
          rw [if_pos hle]
          refine ⟨events', l, hset, hholds, hdown.ordered fun c _ hc hic => ?_, .refl l⟩
          exact hle.trans (hfirst c hc hic)
        · -- the first of the children is copied up
          obtain ⟨events', hset, hbut⟩ := h.exchange hi ha hne
          have hdown' := hdown.exchange hi ha hparent (le_of_not_ge hle) hfirst
          have hlen := length_exchange hi ha
          have ha' : childAt i second < (exchange l i (childAt i second) hi ha).length := by
            rwa [hlen]
          have hself : (exchange l i (childAt i second) hi ha)[childAt i second] = l[i] := by
            rw [getElem_exchange, if_pos rfl]
          obtain ⟨events'', l', hloop, hholds, hordered, hperm⟩ :=
            ih _ (by have := hparent.lt; omega) rfl hbut ha' hdown'
          rw [hself, hlen] at hloop
          rw [if_neg hle, hslot, ok_bind, hset, ok_bind]
          exact ⟨events'', l', hloop, hholds, hordered, hperm.trans (exchange_perm hi ha)⟩
      · obtain ⟨events', hset, hholds⟩ := h.settle hi
        rw [if_neg hchild]
        refine ⟨events', l, hset, hholds, hdown.ordered fun c _ hc hic => ?_, .refl l⟩
        rcases hic with rfl | rfl <;> omega

/-- `min_heap_pop` takes the first event out. -/
theorem MinHeap.Holds.pop {heap : MinHeap V} {x : Event V} {l : List (Event V)}
    (h : heap.Holds (x :: l)) (hordered : Ordered Event.timeout (x :: l)) :
    ∃ heap' l', minHeapPop heap = .ok heap' ∧ heap'.Holds l' ∧ Ordered Event.timeout l' ∧
      l'.Perm l := by
  have hsize := h.size
  have hroom := h.room
  rw [List.length_cons] at hsize hroom
  unfold minHeapPop
  rw [hsize]
  rcases List.eq_nil_or_concat l with rfl | ⟨mid, y, rfl⟩
  · -- the only event is written over itself
    have hslot := h.slots 0 (by simp)
    obtain ⟨events', hset, -, -⟩ := setSlot_eq heap.events (i := 0) (by decide) (.obj x)
    refine ⟨⟨events', 0⟩, [], ?_, ⟨Nat.zero_le _, rfl, fun j hj => absurd hj (by simp)⟩,
      fun p c hp => absurd hp (by simp), .refl _⟩
    show (slotAt heap.events 0 >>= fun event => (popLoop 0 event heap.events 0).map _) = _
    rw [hslot, ok_bind, popLoop, if_neg (by omega)]
    show (setSlot heap.events 0 (.obj x)).map _ = _
    rw [hset]
    rfl
  · -- the last event moves down from the front, in the heap of the others
    rw [List.concat_eq_append] at *
    rw [List.length_append, List.length_singleton] at *
    have hlast := h.slots (mid.length + 1) (by simp)
    rw [List.getElem_cons_succ, List.getElem_append_right le_rfl, List.getElem_singleton] at hlast
    have hsub : Ordered Event.timeout (x :: mid) := by
      have htake := hordered.take (mid.length + 1)
      rwa [List.take_succ_cons, List.take_left] at htake
    have hdown : DownOrdered Event.timeout (y :: mid) 0 := hsub.downOrdered y
    have hbut : HoldsBut heap.events (y :: mid) 0 := by
      refine ⟨by rw [List.length_cons]; omega, Nat.succ_pos _, fun j hj hne => ?_⟩
      obtain ⟨k, rfl⟩ := Nat.exists_eq_succ_of_ne_zero hne
      have hk : k < mid.length := Nat.lt_of_succ_lt_succ hj
      have hslot := h.slots (k + 1) (by simp; omega)
      rwa [List.getElem_cons_succ, List.getElem_append_left hk] at hslot
    obtain ⟨events', l', hloop, hholds, hord, hperm⟩ :=
      popLoop_eq _ rfl hbut (Nat.succ_pos _) hdown
    have hlen : l'.length = mid.length + 1 := hperm.length_eq
    refine ⟨⟨events', mid.length + 1⟩, l', ?_, hlen ▸ hholds, hord,
      hperm.trans (List.perm_append_singleton y mid).symm⟩
    show (slotAt heap.events (mid.length + 1) >>= fun event =>
      (popLoop (mid.length + 1) event heap.events 0).map _) = _
    rw [hlast, ok_bind]
    show (popLoop (mid.length + 1) (.obj y) heap.events 0).map _ = _
    rw [show popLoop (mid.length + 1) (.obj y) heap.events 0 = .ok events' from hloop]
    rfl

/-! ## `handle_events` -/

/-- `handle_events` calls what is due, in order, and leaves the rest. -/
theorem handleLoop_eq (currentTime : ℤ) (fuel : ℕ) {heap : MinHeap V} {l : List (Event V)}
    (h : heap.Holds l) (hordered : Ordered Event.timeout l) (hfuel : l.length < fuel) :
    ∃ ran heap' l', handleLoop currentTime fuel heap = .ok (ran, heap') ∧ heap'.Holds l' ∧
      Ordered Event.timeout l' ∧ ran.Pairwise (fun a b => a.timeout ≤ b.timeout) ∧
      ran.Perm (l.filter fun e => e.timeout ≤ currentTime) ∧
      l'.Perm (l.filter fun e => currentTime < e.timeout) := by
  induction fuel generalizing heap l with
  | zero => exact absurd hfuel (Nat.not_lt_zero _)
  | succ fuel ih =>
      rw [handleLoop, h.size]
      cases l with
      | nil =>
          rw [List.length_nil, if_neg (Nat.lt_irrefl 0)]
          exact ⟨[], heap, [], rfl, h, hordered, .nil, .refl _, .refl _⟩
      | cons x l =>
          have hslot : slotAt heap.events 0 = .ok (.obj x) := h.slots 0 (Nat.succ_pos _)
          rw [if_pos (List.length_pos_of_ne_nil (List.cons_ne_nil x l)), timeoutAt_eq hslot,
            ok_bind]
          by_cases hdue : x.timeout ≤ currentTime
          · -- the first event is called, and the loop goes on with the others
            obtain ⟨heap₁, l₁, hpop, hholds₁, hordered₁, hperm₁⟩ := h.pop hordered
            obtain ⟨ran, heap', l', hloop, hholds, hord, hpair, hran, hleft⟩ :=
              ih hholds₁ hordered₁ (by
                rw [hperm₁.length_eq]
                exact Nat.lt_of_succ_lt_succ hfuel)
            refine ⟨x :: ran, heap', l', ?_, hholds, hord, List.pairwise_cons.mpr ⟨?_, hpair⟩,
              ?_, ?_⟩
            · rw [if_pos hdue]
              unfold minHeapTop
              rw [hslot, ok_bind, hpop, ok_bind]
              show (handleLoop currentTime fuel heap₁).map _ = _
              rw [hloop]
              rfl
            · intro e he
              have hmem : e ∈ l := hperm₁.subset (List.mem_of_mem_filter (hran.subset he))
              exact hordered.root_le_mem (Nat.succ_pos _) (List.mem_cons_of_mem x hmem)
            · rw [List.filter_cons_of_pos (by simpa using hdue)]
              exact (hran.trans (hperm₁.filter _)).cons x
            · rw [List.filter_cons_of_neg (by simpa using hdue)]
              exact hleft.trans (hperm₁.filter _)
          · -- nothing in the heap is before the first event
            have hlate : ∀ e ∈ x :: l, currentTime < e.timeout := by
              intro e he
              have hroot := hordered.root_le_mem (Nat.succ_pos _) he
              exact (lt_of_not_ge hdue).trans_le hroot
            rw [if_neg hdue]
            refine ⟨[], heap, x :: l, rfl, h, hordered, .nil, ?_, ?_⟩
            · rw [List.filter_eq_nil_iff.mpr]
              intro e he
              simpa using hlate e he
            · rw [List.filter_eq_self.mpr]
              intro e he
              simpa using hlate e he

theorem handleEvents_eq (now : ℤ) {heap : MinHeap V} {l : List (Event V)} (h : heap.Holds l)
    (hordered : Ordered Event.timeout l) :
    ∃ ran heap' l', handleEvents now heap = .ok (ran, heap') ∧ heap'.Holds l' ∧
      Ordered Event.timeout l' ∧ ran.Pairwise (fun a b => a.timeout ≤ b.timeout) ∧
      ran.Perm (l.filter fun e => e.timeout ≤ now) ∧
      l'.Perm (l.filter fun e => now < e.timeout) := by
  have hfuel : l.length < heap.size + 1 := by
    rw [h.size]
    exact Nat.lt_succ_self _
  exact handleLoop_eq now (heap.size + 1) h hordered hfuel

/-! ## Runs -/

/-- What happens in a step. -/
inductive TimerEvent (V : Type) : Type where
  /-- `add_timer`, with the event it has made. -/
  | added (event : Event V)
  /-- `handle_events`, with the events it has called. -/
  | handled (now : ℤ) (ran : List (Event V))

/-- A call of `add_timer` or `handle_events` that returns. -/
inductive TimerStep : MinHeap V → TimerEvent V → MinHeap V → Prop where
  | add {heap heap' : MinHeap V} {now timeout : ℤ} {callback : V}
      (run : addTimer now heap timeout callback = .ok heap') :
      TimerStep heap (.added ⟨now + timeout, callback⟩) heap'
  | handle {heap heap' : MinHeap V} {now : ℤ} {ran : List (Event V)}
      (run : handleEvents now heap = .ok (ran, heap')) : TimerStep heap (.handled now ran) heap'

/-- The events that were added. -/
def addedEvents (es : List (TimerEvent V)) : List (Event V) :=
  es.filterMap fun
    | .added event => some event
    | .handled _ _ => none

/-- The events whose callbacks were called. -/
def ranEvents (es : List (TimerEvent V)) : List (Event V) :=
  es.flatMap fun
    | .added _ => []
    | .handled _ ran => ran

theorem addedEvents_append (es : List (TimerEvent V)) (e : TimerEvent V) :
    addedEvents (es ++ [e]) = addedEvents es ++ addedEvents [e] := List.filterMap_append

theorem ranEvents_append (es : List (TimerEvent V)) (e : TimerEvent V) :
    ranEvents (es ++ [e]) = ranEvents es ++ ranEvents [e] := List.flatMap_append

/-- The heap is in order, and holds what was added and not called yet. -/
structure TimerAccounts (heap : MinHeap V) (es : List (TimerEvent V)) : Prop where
  holds : ∃ l, heap.Holds l ∧ Ordered Event.timeout l
  events : (addedEvents es).Perm (ranEvents es ++ heap.stored)

theorem holds_emptyHeap : (emptyHeap : MinHeap V).Holds [] :=
  ⟨Nat.zero_le _, rfl, fun j hj => absurd hj (Nat.not_lt_zero j)⟩

/-- A heap that an event was added to had room for it. -/
theorem lt_of_minHeapPush {heap heap' : MinHeap V} {event : Event V}
    (hrun : minHeapPush heap event = .ok heap') : heap.size < heapRoom := by
  by_contra hfull
  have hset : ∀ p, setSlot heap.events heap.size p = .error .write := fun p => dif_neg hfull
  have hpos : 0 < heap.size := lt_of_lt_of_le (by decide) (Nat.le_of_not_lt hfull)
  unfold minHeapPush at hrun
  rw [pushLoop, if_pos hpos] at hrun
  cases htime : timeoutAt heap.events ((heap.size - 1) / 2) with
  | error e =>
      rw [htime] at hrun
      cases hrun
  | ok t =>
      rw [htime, ok_bind, hset] at hrun
      split at hrun
      · cases hrun
      · cases hslot : slotAt heap.events ((heap.size - 1) / 2) with
        | error e =>
            rw [hslot] at hrun
            cases hrun
        | ok p =>
            rw [hslot, ok_bind, hset] at hrun
            cases hrun

/-- A step keeps the accounts. -/
theorem TimerStep.accounts {heap heap' : MinHeap V} {e : TimerEvent V} {es : List (TimerEvent V)}
    (hstep : TimerStep heap e heap') (h : TimerAccounts heap es) :
    TimerAccounts heap' (es ++ [e]) := by
  obtain ⟨⟨l, hholds, hordered⟩, hevents⟩ := h
  rw [hholds.stored_eq] at hevents
  cases hstep with
  | @add _ now timeout callback hrun =>
      have hroom : l.length < heapRoom := hholds.size ▸ lt_of_minHeapPush hrun
      obtain ⟨heap₁, l', hpush, hholds', hordered', hperm⟩ :=
        hholds.push hordered hroom ⟨now + timeout, callback⟩
      obtain rfl := Except.ok.inj (hpush.symm.trans hrun)
      refine ⟨⟨l', hholds', hordered'⟩, ?_⟩
      rw [hholds'.stored_eq, addedEvents_append, ranEvents_append]
      show List.Perm (addedEvents es ++ [_]) (ranEvents es ++ [] ++ l')
      rw [List.append_nil]
      have hsame := hevents.append_right [Event.mk (now + timeout) callback]
      rw [List.append_assoc] at hsame
      exact hsame.trans (hperm.symm.append_left _)
  | @handle _ now ran hrun =>
      obtain ⟨ran', heap₁, l', hloop, hholds', hordered', -, hran, hleft⟩ :=
        handleEvents_eq now hholds hordered
      obtain ⟨rfl, rfl⟩ := Prod.mk.inj (Except.ok.inj (hloop.symm.trans hrun))
      refine ⟨⟨l', hholds', hordered'⟩, ?_⟩
      have hsplit : (ran' ++ l').Perm l := by
        have hfilter := List.filter_append_perm (fun e : Event V => e.timeout ≤ now) l
        simp only [← decide_not, not_le] at hfilter
        exact (hran.append hleft).trans hfilter
      rw [hholds'.stored_eq, addedEvents_append, ranEvents_append]
      show (addedEvents es ++ []).Perm (ranEvents es ++ (ran' ++ []) ++ l')
      rw [List.append_nil, List.append_nil, List.append_assoc]
      exact hevents.trans (hsplit.symm.append_left _)

theorem timerAccounts_of_steps {es : List (TimerEvent V)} {heap : MinHeap V}
    (h : Steps TimerStep emptyHeap es heap) : TimerAccounts heap es := by
  induction h with
  | nil =>
      refine ⟨⟨[], holds_emptyHeap, fun p c hp => absurd hp (Nat.not_lt_zero p)⟩, ?_⟩
      rw [holds_emptyHeap.stored_eq]
      exact .refl _
  | snoc _ hstep ih => exact hstep.accounts ih

/-- In every run the heap holds what was added and has not been called, and `handle_events`
calls what is due, once each and in the order of the times, and leaves the rest. -/
theorem timer_run {es : List (TimerEvent V)} {heap : MinHeap V}
    (h : Steps TimerStep emptyHeap es heap) :
    (addedEvents es).Perm (ranEvents es ++ heap.stored) ∧
      ∀ now, ∃ ran heap', handleEvents now heap = .ok (ran, heap') ∧
        ran.Perm (heap.stored.filter fun e => e.timeout ≤ now) ∧
        ran.Pairwise (fun a b => a.timeout ≤ b.timeout) ∧
        heap'.stored.Perm (heap.stored.filter fun e => now < e.timeout) := by
  obtain ⟨⟨l, hholds, hordered⟩, hevents⟩ := timerAccounts_of_steps h
  refine ⟨hevents, fun now => ?_⟩
  obtain ⟨ran, heap', l', hloop, hholds', -, hpair, hran, hleft⟩ :=
    handleEvents_eq now hholds hordered
  refine ⟨ran, heap', hloop, ?_, hpair, ?_⟩
  · rwa [hholds.stored_eq]
  · rwa [hholds'.stored_eq, hholds.stored_eq]

/-- In a heap with room, a timer can be added. -/
theorem TimerAccounts.exists_add {heap : MinHeap V} {es : List (TimerEvent V)}
    (h : TimerAccounts heap es) (hroom : heap.stored.length < heapRoom) (now timeout : ℤ)
    (callback : V) : ∃ heap', TimerStep heap (.added ⟨now + timeout, callback⟩) heap' := by
  obtain ⟨⟨l, hholds, hordered⟩, -⟩ := h
  rw [hholds.stored_eq] at hroom
  obtain ⟨heap', -, hpush, -⟩ := hholds.push hordered hroom ⟨now + timeout, callback⟩
  exact ⟨heap', .add hpush⟩

/-- Of two timers, the one that is due is called. -/
theorem timer_run_two : ∃ heap : MinHeap ℕ,
    Steps TimerStep emptyHeap [.added ⟨105, 1⟩, .added ⟨103, 2⟩] heap ∧
      ∃ heap', handleEvents 104 heap = .ok ([⟨103, 2⟩], heap') := by
  obtain ⟨heap₁, hadd₁⟩ := (timerAccounts_of_steps (V := ℕ) .nil).exists_add
    (by rw [holds_emptyHeap.stored_eq]; decide) 100 5 1
  have hrun₁ := Steps.nil.snoc hadd₁
  have hstored₁ : [⟨105, 1⟩].Perm heap₁.stored := (timer_run hrun₁).1
  obtain ⟨heap, hadd⟩ := (timerAccounts_of_steps hrun₁).exists_add
    (by rw [← hstored₁.length_eq]; decide) 100 3 2
  have hrun : Steps TimerStep emptyHeap [.added ⟨105, 1⟩, .added ⟨103, 2⟩] heap := hrun₁.snoc hadd
  obtain ⟨hstored, hhandle⟩ := timer_run hrun
  obtain ⟨ran, heap', hloop, hran, -, -⟩ := hhandle 104
  have hdue : ran.Perm [⟨103, 2⟩] := hran.trans (hstored.symm.filter _)
  exact ⟨heap, hrun, heap', List.perm_singleton.mp hdue ▸ hloop⟩
