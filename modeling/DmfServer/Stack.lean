/-
# The bounded stack

`dm_stack`: an array of `capacity` entries, a mutex, and one condition variable for the
threads that wait for room and those that wait for an entry.  A thread is the list of
the calls it still has to make; a step of the system is one critical section of one
thread, from the lock to the unlock or to the wait that gives the lock up.

Every call that goes through signals one waiter, whichever kind it is.  As long as the
signal goes to a waiter the call made way for, when there is one, no state is stuck
(`not_stuck_of_wakesOther`).  When a pop wakes another popper while a pusher sleeps,
all threads can end up asleep beside an empty stack (`exists_stuck`).
-/
import DmfServer.StepSystem
import Mathlib.Data.Vector.Basic

open StepSystem

variable {Data : Type} {capacity : ℕ}

/-- `struct Stack`, with its `capacity`. -/
structure Stack (Data : Type) (capacity : ℕ) where
  data : Vector Data capacity
  size : ℕ
  size_le : size ≤ capacity

/-- `stack_create`: `malloc` leaves `data` as it is. -/
def stackCreate (junk : Vector Data capacity) : Stack Data capacity :=
  { data := junk, size := 0, size_le := Nat.zero_le _ }

/-- `stack_push` behind its loop. -/
def stackPush (stack : Stack Data capacity) (room : stack.size ≠ capacity) (data : Data) :
    Stack Data capacity :=
  have hlt : stack.size < capacity := Nat.lt_of_le_of_ne stack.size_le room
  { data := stack.data.set stack.size data, size := stack.size + 1, size_le := hlt }

/-- `stack_pop` behind its loop. -/
def stackPop (stack : Stack Data capacity) (some : stack.size ≠ 0) : Data × Stack Data capacity :=
  have hlt : stack.size - 1 < capacity := by have := stack.size_le; omega
  (stack.data[stack.size - 1],
    { stack with size := stack.size - 1, size_le := Nat.le_of_lt hlt })

/-- What is pushed is popped. -/
theorem stackPop_stackPush (stack : Stack Data capacity) (room : stack.size ≠ capacity)
    (data : Data) :
    (stackPop (stackPush stack room data) (Nat.succ_ne_zero _)).1 = data := by
  simp [stackPop, stackPush]

/-! ## The threads -/

/-- A call. -/
inductive StackOp (Data : Type) : Type where
  | push : Data → StackOp Data
  | pop : StackOp Data

/-- A thread: the calls it has not come back from. -/
abbrev StackThread (Data : Type) := List (StackOp Data)

/-- The stack, the threads that are not in `pthread_cond_wait`, and those that are. -/
structure StackState (Data : Type) (capacity : ℕ) where
  stack : Stack Data capacity
  running : List (StackThread Data)
  cond : Waiters (StackThread Data)

/-- What happens in a step. -/
inductive StackEvent (Data : Type) : Type where
  | pushed : Data → StackEvent Data
  | popped : Data → StackEvent Data
  | sleeps : StackEvent Data
  | spurious : StackEvent Data

/-- Behind `stack_create`, with the threads that are going to use the stack. -/
def stackInit (junk : Vector Data capacity) (threads : List (StackThread Data)) :
    StackState Data capacity :=
  { stack := stackCreate junk, running := threads, cond := .none }

/-- A thread with the lock, at the test of the loop of its call. -/
inductive StackSection : StackThread Data → StackState Data capacity → StackEvent Data →
    StackState Data capacity → Prop where
  | push {s : StackState Data capacity} {d : Data} {ops : StackThread Data}
      {c : Waiters (StackThread Data)} (room : s.stack.size ≠ capacity)
      (signal : Waiters.Signal s.cond c) :
      StackSection (.push d :: ops) s (.pushed d)
        { stack := stackPush s.stack room d, running := ops :: s.running, cond := c }
  | full {s : StackState Data capacity} {d : Data} {ops : StackThread Data}
      (full : s.stack.size = capacity) :
      StackSection (.push d :: ops) s .sleeps
        { s with cond := s.cond.sleep (.push d :: ops) }
  | pop {s : StackState Data capacity} {ops : StackThread Data}
      {c : Waiters (StackThread Data)} (some : s.stack.size ≠ 0)
      (signal : Waiters.Signal s.cond c) :
      StackSection (.pop :: ops) s (.popped (stackPop s.stack some).1)
        { stack := (stackPop s.stack some).2, running := ops :: s.running, cond := c }
  | empty {s : StackState Data capacity} {ops : StackThread Data} (none : s.stack.size = 0) :
      StackSection (.pop :: ops) s .sleeps { s with cond := s.cond.sleep (.pop :: ops) }

/-- A step of the system. -/
inductive StackStep : StackState Data capacity → StackEvent Data → StackState Data capacity →
    Prop where
  /-- A thread makes its next call. -/
  | call {s t : StackState Data capacity} {e : StackEvent Data} {x : StackThread Data}
      {a b : List (StackThread Data)} (next : s.running = a ++ x :: b)
      (sect : StackSection x { s with running := a ++ b } e t) : StackStep s e t
  /-- A woken thread gets the lock back. -/
  | resume {s t : StackState Data capacity} {e : StackEvent Data} {x : StackThread Data}
      {c : Waiters (StackThread Data)} (gets : Waiters.Resume s.cond x c)
      (sect : StackSection x { s with cond := c } e t) : StackStep s e t
  /-- A thread wakes without a signal. -/
  | spurious {s : StackState Data capacity} {c : Waiters (StackThread Data)}
      (wakes : Waiters.Spurious s.cond c) : StackStep s .spurious { s with cond := c }

/-- The call a thread waits in could go through. -/
def CanProceed (stack : Stack Data capacity) : StackThread Data → Prop
  | .push _ :: _ => stack.size < capacity
  | .pop :: _ => 0 < stack.size
  | [] => False

/-- All threads that have not finished are asleep, and one of them could proceed. -/
def Stuck (s : StackState Data capacity) : Prop :=
  (∀ x ∈ s.running, x = []) ∧ s.cond.woken = [] ∧ ∃ x ∈ s.cond.asleep, CanProceed s.stack x

/-! ## Pushers and poppers -/

/-- The thread is in `stack_pop`. -/
def inPop : StackThread Data → Bool
  | .pop :: _ => true
  | _ => false

/-- The thread is in `stack_push`. -/
def inPush : StackThread Data → Bool
  | .push _ :: _ => true
  | _ => false

/-- How many of the threads are in `stack_pop`, and in `stack_push`. -/
def poppers (l : List (StackThread Data)) : ℕ := l.countP inPop
@[inherit_doc poppers] def pushers (l : List (StackThread Data)) : ℕ := l.countP inPush

/-- A push that finds a popper asleep wakes a popper, and a pop that finds a pusher
asleep wakes a pusher. -/
def WakesOther (s : StackState Data capacity) (e : StackEvent Data)
    (t : StackState Data capacity) : Prop :=
  match e with
  | .pushed _ => 0 < poppers s.cond.asleep → poppers t.cond.asleep < poppers s.cond.asleep
  | .popped _ => 0 < pushers s.cond.asleep → pushers t.cond.asleep < pushers s.cond.asleep
  | _ => True

/-- Beside a sleeping popper there are woken ones for all entries, and beside a sleeping
pusher woken ones for all the room. -/
structure Attended (s : StackState Data capacity) : Prop where
  entries : 0 < poppers s.cond.asleep → s.stack.size ≤ poppers s.cond.woken
  room : 0 < pushers s.cond.asleep → capacity ≤ s.stack.size + pushers s.cond.woken

/-- A state that is attended is not stuck. -/
theorem Attended.not_stuck {s : StackState Data capacity} (h : Attended s) : ¬Stuck s := by
  rintro ⟨-, hwoken, x, hx, hproceed⟩
  match x, hproceed with
  | .push d :: ops, hroom =>
      have hpos : 0 < pushers s.cond.asleep := List.countP_pos_iff.mpr ⟨_, hx, rfl⟩
      have hle := h.room hpos
      rw [hwoken] at hle
      have hroom : s.stack.size < capacity := hroom
      simp only [pushers, List.countP_nil] at hle
      omega
  | .pop :: ops, hsome =>
      have hpos : 0 < poppers s.cond.asleep := List.countP_pos_iff.mpr ⟨_, hx, rfl⟩
      have hle := h.entries hpos
      rw [hwoken] at hle
      have hsome : 0 < s.stack.size := hsome
      simp only [poppers, List.countP_nil] at hle
      omega

section
variable {p : StackThread Data → Bool} {w c : Waiters (StackThread Data)}

/-- A signal moves at most one thread of a kind from the sleepers to the woken. -/
theorem countP_signal (h : Waiters.Signal w c) :
    (c.asleep.countP p = w.asleep.countP p ∧ c.woken.countP p = w.woken.countP p) ∨
    (c.asleep.countP p + 1 = w.asleep.countP p ∧
      c.woken.countP p = w.woken.countP p + 1) := by
  obtain ⟨-, rfl⟩ | ⟨x, hperm, hwoken⟩ := h.cases
  · exact Or.inl ⟨rfl, rfl⟩
  · rw [hperm.countP_eq, hwoken, List.countP_cons, List.countP_cons]
    cases p x <;> simp

theorem countP_spurious (h : Waiters.Spurious w c) :
    c.asleep.countP p ≤ w.asleep.countP p ∧ w.woken.countP p ≤ c.woken.countP p := by
  obtain ⟨x, hperm, hwoken⟩ := h.cases
  rw [hperm.countP_eq, hwoken, List.countP_cons, List.countP_cons]
  cases p x <;> simp

theorem countP_resume {x : StackThread Data} (h : Waiters.Resume w x c) :
    c.asleep = w.asleep ∧ w.woken.countP p = c.woken.countP p + if p x then 1 else 0 := by
  obtain ⟨hasleep, hperm⟩ := h.cases
  exact ⟨hasleep, by rw [hperm.countP_eq, List.countP_cons]⟩

end

/-- A section, entered while the thread itself may be counted among the woken. -/
theorem StackSection.attended {x : StackThread Data} {s t : StackState Data capacity}
    {e : StackEvent Data} (h : StackSection x s e t) (hother : WakesOther s e t)
    (hpop : 0 < poppers s.cond.asleep →
      s.stack.size ≤ poppers s.cond.woken + if inPop x then 1 else 0)
    (hpush : 0 < pushers s.cond.asleep →
      capacity ≤ s.stack.size + (pushers s.cond.woken + if inPush x then 1 else 0)) :
    Attended t := by
  cases h with
  | @push _ d ops c room signal =>
      have hpoppers := countP_signal (p := inPop) signal
      have hpushers := countP_signal (p := inPush) signal
      simp only [inPop, inPush, if_true, Bool.false_eq_true, if_false] at hpop hpush
      simp only [WakesOther, poppers, pushers] at *
      constructor
      · intro hasleep
        change 0 < c.asleep.countP inPop at hasleep
        show s.stack.size + 1 ≤ c.woken.countP inPop
        -- the signal has gone to a popper, which is there for the new entry
        have := hother (by omega)
        have := hpop (by omega)
        omega
      · intro hasleep
        change 0 < c.asleep.countP inPush at hasleep
        show capacity ≤ s.stack.size + 1 + c.woken.countP inPush
        have := hpush (by omega)
        omega
  | @full _ d ops full =>
      simp only [inPop, inPush, if_true, Bool.false_eq_true, if_false] at hpop hpush
      constructor
      · intro hasleep
        have hasleep : 0 < poppers s.cond.asleep := hasleep
        exact hpop hasleep
      · intro _
        show capacity ≤ s.stack.size + _
        omega
  | @pop _ ops c some signal =>
      have hpoppers := countP_signal (p := inPop) signal
      have hpushers := countP_signal (p := inPush) signal
      simp only [inPop, inPush, if_true, Bool.false_eq_true, if_false] at hpop hpush
      simp only [WakesOther, poppers, pushers] at *
      constructor
      · intro hasleep
        change 0 < c.asleep.countP inPop at hasleep
        show s.stack.size - 1 ≤ c.woken.countP inPop
        have := hpop (by omega)
        omega
      · intro hasleep
        change 0 < c.asleep.countP inPush at hasleep
        show capacity ≤ s.stack.size - 1 + c.woken.countP inPush
        -- the signal has gone to a pusher, which is there for the room
        have := hother (by omega)
        have := hpush (by omega)
        omega
  | @empty _ ops none =>
      simp only [inPop, inPush, if_true, Bool.false_eq_true, if_false] at hpop hpush
      constructor
      · intro _
        show s.stack.size ≤ _
        omega
      · intro hasleep
        have hasleep : 0 < pushers s.cond.asleep := hasleep
        exact hpush hasleep

/-- What one step whose signal goes to the other kind keeps. -/
theorem StackStep.attended {s t : StackState Data capacity} {e : StackEvent Data}
    (h : StackStep s e t) (hother : WakesOther s e t) (hs : Attended s) : Attended t := by
  cases h with
  | call next sect =>
      exact sect.attended hother (fun h => Nat.le_add_right_of_le (hs.entries h))
        fun h => Nat.le_trans (hs.room h) (by simp only; omega)
  | @resume _ _ x c gets sect =>
      obtain ⟨hasleep, hpoppers⟩ := countP_resume (p := inPop) gets
      obtain ⟨-, hpushers⟩ := countP_resume (p := inPush) gets
      refine sect.attended ?_ (fun h => ?_) fun h => ?_
      · unfold WakesOther at hother ⊢
        simp only [hasleep]
        exact hother
      · have hle := hs.entries (hasleep ▸ h)
        show s.stack.size ≤ c.woken.countP inPop + if inPop x then 1 else 0
        rwa [poppers, hpoppers] at hle
      · have hle := hs.room (hasleep ▸ h)
        show capacity ≤ s.stack.size + (c.woken.countP inPush + if inPush x then 1 else 0)
        rwa [pushers, hpushers] at hle
  | spurious wakes =>
      have hpoppers := countP_spurious (p := inPop) wakes
      have hpushers := countP_spurious (p := inPush) wakes
      constructor
      · intro h
        have := hs.entries (Nat.lt_of_lt_of_le h hpoppers.1)
        exact Nat.le_trans this hpoppers.2
      · intro h
        have := hs.room (Nat.lt_of_lt_of_le h hpushers.1)
        exact Nat.le_trans this (Nat.add_le_add_left hpushers.2 _)

/-- In a run whose signals go to the other kind whenever one of it sleeps, no state is
stuck. -/
theorem not_stuck_of_wakesOther {junk : Vector Data capacity}
    {threads : List (StackThread Data)} {es : List (StackEvent Data)}
    {s : StackState Data capacity}
    (h : Steps (fun s e t => StackStep s e t ∧ WakesOther s e t) (stackInit junk threads) es s) :
    ¬Stuck s := by
  have hattended : Attended s := by
    refine h.invariant (fun _ _ _ hs hstep => hstep.1.attended hstep.2 hs) ⟨?_, ?_⟩
    · intro h0
      exact absurd h0 (lt_irrefl 0)
    · intro h0
      exact absurd h0 (lt_irrefl 0)
  exact hattended.not_stuck

/-- A stack of one entry, empty and full. -/
def emptyStack : Stack ℤ 1 := stackCreate (Vector.replicate 1 0)
@[inherit_doc emptyStack] def fullStack : Stack ℤ 1 := stackPush emptyStack (by decide) 1

/-- The push whose signal goes to the popper that sleeps, while another pusher comes. -/
theorem not_stuck_of_wakesOther_pair :
    ¬Stuck (⟨fullStack, [[]], ⟨[[.push 2]], [[.pop]]⟩⟩ : StackState ℤ 1) := by
  have hwakes : Waiters.Signal (⟨[[.pop]], []⟩ : Waiters (StackThread ℤ)) ⟨[], [[.pop]]⟩ :=
    @Waiters.Signal.wakes (StackThread ℤ) [] [] [] [.pop]
  have hsleep : StackStep (stackInit (Vector.replicate 1 0) [[.pop], [.push 1], [.push 2]])
      .sleeps ⟨emptyStack, [[.push 1], [.push 2]], ⟨[[.pop]], []⟩⟩ :=
    .call (a := []) rfl (.empty rfl)
  have hpush : StackStep (⟨emptyStack, [[.push 1], [.push 2]], ⟨[[.pop]], []⟩⟩ : StackState ℤ 1)
      (.pushed 1) ⟨fullStack, [[], [.push 2]], ⟨[], [[.pop]]⟩⟩ :=
    .call (a := []) rfl (.push _ hwakes)
  have hfull : StackStep (⟨fullStack, [[], [.push 2]], ⟨[], [[.pop]]⟩⟩ : StackState ℤ 1)
      .sleeps ⟨fullStack, [[]], ⟨[[.push 2]], [[.pop]]⟩⟩ :=
    .call (a := [[]]) (b := []) rfl (.full rfl)
  exact not_stuck_of_wakesOther (((Steps.nil.snoc ⟨hsleep, trivial⟩).snoc
    ⟨hpush, fun _ => Nat.zero_lt_one⟩).snoc ⟨hfull, trivial⟩)

/-! ## A state that is stuck -/

theorem fullStack_size : fullStack.size ≠ 0 := by decide

/-- Two poppers find the stack empty; a pusher pushes once, and finds the stack full for
its second value; the popper its push woke takes the value and wakes the other popper,
which finds the stack empty again. -/
theorem exists_stuck : ∃ (es : List (StackEvent ℤ)) (s : StackState ℤ 1),
    Steps StackStep (stackInit (Vector.replicate 1 0) [[.pop], [.pop], [.push 1, .push 2]]) es s ∧
      Stuck s := by
  have hwakes : Waiters.Signal (⟨[[.pop], [.pop]], []⟩ : Waiters (StackThread ℤ))
      ⟨[[.pop]], [[.pop]]⟩ :=
    @Waiters.Signal.wakes (StackThread ℤ) [] [[.pop]] [] [.pop]
  -- the pop's signal goes to the other popper, with the pusher asleep beside it
  have hunlucky : Waiters.Signal (⟨[[.push 2], [.pop]], []⟩ : Waiters (StackThread ℤ))
      ⟨[[.push 2]], [[.pop]]⟩ :=
    @Waiters.Signal.wakes (StackThread ℤ) [[.push 2]] [] [] [.pop]
  have hfirst : StackStep (stackInit (Vector.replicate 1 0) [[.pop], [.pop], [.push 1, .push 2]])
      .sleeps ⟨emptyStack, [[.pop], [.push 1, .push 2]], ⟨[[.pop]], []⟩⟩ :=
    .call (a := []) rfl (.empty rfl)
  have hsecond : StackStep (⟨emptyStack, [[.pop], [.push 1, .push 2]], ⟨[[.pop]], []⟩⟩ :
      StackState ℤ 1) .sleeps ⟨emptyStack, [[.push 1, .push 2]], ⟨[[.pop], [.pop]], []⟩⟩ :=
    .call (a := []) rfl (.empty rfl)
  have hpush : StackStep (⟨emptyStack, [[.push 1, .push 2]], ⟨[[.pop], [.pop]], []⟩⟩ :
      StackState ℤ 1) (.pushed 1) ⟨fullStack, [[.push 2]], ⟨[[.pop]], [[.pop]]⟩⟩ :=
    .call (a := []) rfl (.push _ hwakes)
  have hfull : StackStep (⟨fullStack, [[.push 2]], ⟨[[.pop]], [[.pop]]⟩⟩ : StackState ℤ 1)
      .sleeps ⟨fullStack, [], ⟨[[.push 2], [.pop]], [[.pop]]⟩⟩ :=
    .call (a := []) rfl (.full rfl)
  have hpop : StackStep (⟨fullStack, [], ⟨[[.push 2], [.pop]], [[.pop]]⟩⟩ : StackState ℤ 1)
      (.popped (stackPop fullStack fullStack_size).1)
      ⟨(stackPop fullStack fullStack_size).2, [[]], ⟨[[.push 2]], [[.pop]]⟩⟩ :=
    .resume (.gets (a := []) (b := [])) (.pop fullStack_size hunlucky)
  have hlast : StackStep
      (⟨(stackPop fullStack fullStack_size).2, [[]], ⟨[[.push 2]], [[.pop]]⟩⟩ : StackState ℤ 1)
      .sleeps ⟨(stackPop fullStack fullStack_size).2, [[]], ⟨[[.pop], [.push 2]], []⟩⟩ :=
    .resume (.gets (a := []) (b := [])) (.empty rfl)
  refine ⟨_, _, (((((Steps.nil.snoc hfirst).snoc hsecond).snoc hpush).snoc hfull).snoc
    hpop).snoc hlast, ?_⟩
  exact ⟨by simp, rfl, [.push 2], by simp, Nat.zero_lt_one⟩
