/-
# The thread pool

`dm_thread_pool`: a list of tasks, a mutex, and a condition variable the workers wait
at.  A step of the system is one critical section of a worker in `thread_func`, the end
of a task it ran outside the lock, a call of `thread_pool_add_task` or
`is_thread_pool_empty`, or the beginning or the end of `thread_pool_destroy`, which
joins the workers in between.  Nothing is added once `thread_pool_destroy` is called.

The tasks carry the number they were added with, to tell two calls of one function
apart.  `pool_run`: tasks are taken in the order they were added, a worker has run each
task it took when it exits, and `thread_pool_destroy` frees those that nobody took.
-/
import DmfServer.StepSystem

open StepSystem

variable {Worker Func Arg : Type}

/-- `task_t`; `none` is a `NULL` function. -/
structure PoolTask (Func Arg : Type) where
  /-- How many tasks were added before it. -/
  serial : ℕ
  func : Option Func
  arg : Arg
  deriving DecidableEq

/-- Where a worker is in `thread_func`. -/
inductive WorkerAt (Func Arg : Type) : Type where
  /-- In front of the lock. -/
  | atLock
  /-- In `pthread_cond_wait`. -/
  | asleep
  /-- Woken, and without the lock yet. -/
  | woken
  /-- Behind the unlock, with a task it took. -/
  | running (task : PoolTask Func Arg)
  | exited

/-- Where the call of `thread_pool_destroy` is. -/
inductive DestroyAt : Type where
  | notCalled
  /-- At the joins. -/
  | joining
  | returned
  deriving DecidableEq

/-- `thread_pool_t`, its workers, and the thread that destroys it. -/
structure PoolState (Worker Func Arg : Type) where
  taskList : List (PoolTask Func Arg)
  shutdown : Bool
  workers : Worker → WorkerAt Func Arg
  destroy : DestroyAt
  /-- How many tasks were added. -/
  added : ℕ

/-- What happens in a step. -/
inductive PoolEvent (Worker Func Arg : Type) : Type where
  | added (task : PoolTask Func Arg)
  | sleeps (w : Worker)
  | wakes (w : Worker)
  | took (w : Worker) (task : PoolTask Func Arg)
  /-- `func(arg)` has come back, if there is a `func`, and the task was freed. -/
  | ran (w : Worker) (task : PoolTask Func Arg)
  | exits (w : Worker)
  /-- `is_thread_pool_empty`. -/
  | empty (answer : Bool)
  | shutdown
  /-- `thread_pool_destroy` has freed the tasks, and returns. -/
  | destroyed (tasks : List (PoolTask Func Arg))

/-- Behind `thread_pool_create`. -/
def poolInit : PoolState Worker Func Arg :=
  { taskList := [], shutdown := false, workers := fun _ => .atLock, destroy := .notCalled
    added := 0 }

/-- `pthread_cond_broadcast`. -/
def broadcast (workers : Worker → WorkerAt Func Arg) : Worker → WorkerAt Func Arg := fun w =>
  match workers w with
  | .asleep => .woken
  | at_ => at_

section
variable [DecidableEq Worker]

/-- A worker comes to another place. -/
def PoolState.move (s : PoolState Worker Func Arg) (w : Worker) (place : WorkerAt Func Arg) :
    PoolState Worker Func Arg :=
  { s with workers := Function.update s.workers w place }

/-- `pthread_cond_signal`: some sleeper is woken, if there is one. -/
inductive PoolSignal (s : PoolState Worker Func Arg) : PoolState Worker Func Arg → Prop where
  | lost (none : ∀ w, s.workers w ≠ .asleep) : PoolSignal s s
  | wakes (w : Worker) (asleep : s.workers w = .asleep) : PoolSignal s (s.move w .woken)

/-- A worker with the lock, at the test of its loop. -/
inductive WorkerSection (w : Worker) : PoolState Worker Func Arg →
    PoolEvent Worker Func Arg → PoolState Worker Func Arg → Prop where
  | sleep {s : PoolState Worker Func Arg} (empty : s.taskList = []) (on : s.shutdown = false) :
      WorkerSection w s (.sleeps w) (s.move w .asleep)
  | exit {s : PoolState Worker Func Arg} (off : s.shutdown = true) :
      WorkerSection w s (.exits w) (s.move w .exited)
  | take {s : PoolState Worker Func Arg} {task : PoolTask Func Arg} {rest : List (PoolTask Func Arg)}
      (on : s.shutdown = false) (first : s.taskList = task :: rest) :
      WorkerSection w s (.took w task) ({ s with taskList := rest }.move w (.running task))

/-- A step of the system. -/
inductive PoolStep : PoolState Worker Func Arg → PoolEvent Worker Func Arg →
    PoolState Worker Func Arg → Prop where
  /-- `thread_pool_add_task`: the task goes to the end of the list. -/
  | add {s t : PoolState Worker Func Arg} {func : Option Func} {arg : Arg}
      (open_ : s.destroy = .notCalled)
      (signal : PoolSignal { s with
        taskList := s.taskList ++ [⟨s.added, func, arg⟩], added := s.added + 1 } t) :
      PoolStep s (.added ⟨s.added, func, arg⟩) t
  /-- A worker gets the lock, at the top of its loop or behind its wait. -/
  | enter {s t : PoolState Worker Func Arg} {e : PoolEvent Worker Func Arg} {w : Worker}
      (ready : s.workers w = .atLock ∨ s.workers w = .woken) (sect : WorkerSection w s e t) :
      PoolStep s e t
  /-- A worker wakes without a signal. -/
  | wake {s : PoolState Worker Func Arg} {w : Worker} (asleep : s.workers w = .asleep) :
      PoolStep s (.wakes w) (s.move w .woken)
  /-- A worker is done with its task. -/
  | finish {s : PoolState Worker Func Arg} {w : Worker} {task : PoolTask Func Arg}
      (has : s.workers w = .running task) : PoolStep s (.ran w task) (s.move w .atLock)
  | isEmpty {s : PoolState Worker Func Arg} (alive : s.destroy ≠ .returned) :
      PoolStep s (.empty s.taskList.isEmpty) s
  /-- `thread_pool_destroy` up to its joins. -/
  | destroy {s : PoolState Worker Func Arg} (open_ : s.destroy = .notCalled) :
      PoolStep s .shutdown
        { s with shutdown := true, workers := broadcast s.workers, destroy := .joining }
  /-- All workers are joined, and the tasks that are left are freed. -/
  | joined {s : PoolState Worker Func Arg} (open_ : s.destroy = .joining)
      (exited : ∀ w, s.workers w = .exited) :
      PoolStep s (.destroyed s.taskList) { s with taskList := [], destroy := .returned }

end

/-! ## What a run did -/

/-- The tasks that were added, in order. -/
def addedTasks (es : List (PoolEvent Worker Func Arg)) : List (PoolTask Func Arg) :=
  es.filterMap fun
    | .added task => some task
    | _ => none

/-- Who took which task from the list, in order. -/
def took (es : List (PoolEvent Worker Func Arg)) : List (Worker × PoolTask Func Arg) :=
  es.filterMap fun
    | .took w task => some (w, task)
    | _ => none

/-- Who ran which task to its end, in order. -/
def ran (es : List (PoolEvent Worker Func Arg)) : List (Worker × PoolTask Func Arg) :=
  es.filterMap fun
    | .ran w task => some (w, task)
    | _ => none

/-- The tasks that `thread_pool_destroy` freed. -/
def freedTasks (es : List (PoolEvent Worker Func Arg)) : List (PoolTask Func Arg) :=
  es.flatMap fun
    | .destroyed tasks => tasks
    | _ => []

/-- The tasks that were taken, and those that were run. -/
def takenTasks (es : List (PoolEvent Worker Func Arg)) : List (PoolTask Func Arg) :=
  (took es).map Prod.snd
@[inherit_doc takenTasks] def ranTasks (es : List (PoolEvent Worker Func Arg)) :
    List (PoolTask Func Arg) :=
  (ran es).map Prod.snd

/-- `is_thread_pool_empty` has returned true, and nothing was added since. -/
def drained (es : List (PoolEvent Worker Func Arg)) : Bool :=
  es.foldl (fun b e =>
    match e with
    | .added _ => false
    | .empty true => true
    | _ => b) false

section
variable (es : List (PoolEvent Worker Func Arg)) (e : PoolEvent Worker Func Arg)

theorem addedTasks_append : addedTasks (es ++ [e]) = addedTasks es ++ addedTasks [e] :=
  List.filterMap_append

theorem took_append : took (es ++ [e]) = took es ++ took [e] := List.filterMap_append

theorem ran_append : ran (es ++ [e]) = ran es ++ ran [e] := List.filterMap_append

theorem freedTasks_append : freedTasks (es ++ [e]) = freedTasks es ++ freedTasks [e] :=
  List.flatMap_append

theorem takenTasks_append : takenTasks (es ++ [e]) = takenTasks es ++ takenTasks [e] := by
  unfold takenTasks
  rw [took_append, List.map_append]

theorem drained_append : drained (es ++ [e]) =
    match e with
    | .added _ => false
    | .empty true => true
    | _ => drained es := by
  unfold drained
  rw [List.foldl_append]
  rfl

end

/-- The task in a worker's hands. -/
def WorkerAt.hands : WorkerAt Func Arg → List (PoolTask Func Arg)
  | .running task => [task]
  | _ => []

theorem hands_broadcast (workers : Worker → WorkerAt Func Arg) (w : Worker) :
    (broadcast workers w).hands = (workers w).hands := by
  unfold broadcast
  cases workers w <;> rfl

section
variable [DecidableEq Worker]

/-- The tasks of one worker. -/
def tasksOf (w : Worker) (l : List (Worker × PoolTask Func Arg)) : List (PoolTask Func Arg) :=
  (l.filter fun x => x.1 = w).map Prod.snd

theorem tasksOf_append (w : Worker) (l l' : List (Worker × PoolTask Func Arg)) :
    tasksOf w (l ++ l') = tasksOf w l ++ tasksOf w l' := by
  unfold tasksOf
  rw [List.filter_append, List.map_append]

theorem tasksOf_singleton (w v : Worker) (task : PoolTask Func Arg) :
    tasksOf w [(v, task)] = if v = w then [task] else [] := by
  unfold tasksOf
  by_cases h : v = w
  · rw [List.filter_cons_of_pos (by simpa using h), if_pos h]
    rfl
  · rw [List.filter_cons_of_neg (by simpa using h), if_neg h]
    rfl

/-- Two lists of tasks in which every worker has the same ones hold the same tasks. -/
theorem perm_of_tasksOf {l l' : List (Worker × PoolTask Func Arg)}
    (h : ∀ w, tasksOf w l = tasksOf w l') : (l.map Prod.snd).Perm (l'.map Prod.snd) := by
  classical
  refine List.Perm.map _ (List.perm_iff_count.mpr fun x => ?_)
  have hcount : ∀ k : List (Worker × PoolTask Func Arg), k.count x = (tasksOf x.1 k).count x.2 := by
    intro k
    induction k with
    | nil => rfl
    | cons y k ih =>
        rw [← List.singleton_append, tasksOf_append, List.count_append, List.count_append, ih,
          tasksOf_singleton]
        by_cases hw : y.1 = x.1
        · rw [if_pos hw]
          simp only [List.count_singleton, beq_iff_eq, Prod.ext_iff, hw, true_and]
        · rw [if_neg hw]
          simp [Prod.ext_iff, hw]
  rw [hcount, hcount, h]

/-- What was added was taken, freed, or is in the list; what a worker took it ran, or has
in its hands. -/
structure PoolAccounts (s : PoolState Worker Func Arg) (es : List (PoolEvent Worker Func Arg)) :
    Prop where
  tasks : addedTasks es = takenTasks es ++ freedTasks es ++ s.taskList
  hands : ∀ w, tasksOf w (took es) = tasksOf w (ran es) ++ (s.workers w).hands
  serials : (addedTasks es).map PoolTask.serial = List.range s.added
  freed : s.destroy ≠ .returned → freedTasks es = []
  exited : s.destroy = .returned → s.taskList = [] ∧ ∀ w, s.workers w = .exited
  empty : drained es = true → s.taskList = [] ∧ freedTasks es = []

/-- Behind `threadpool_destroy` every worker has left. -/
theorem PoolAccounts.not_returned {s : PoolState Worker Func Arg}
    {es : List (PoolEvent Worker Func Arg)} (h : PoolAccounts s es) {w : Worker}
    (hw : s.workers w ≠ .exited) : s.destroy ≠ .returned := fun hdone =>
  hw ((h.exited hdone).2 w)

/-- A step that moves no task. -/
theorem PoolAccounts.quiet {s t : PoolState Worker Func Arg}
    {es : List (PoolEvent Worker Func Arg)} {e : PoolEvent Worker Func Arg}
    (h : PoolAccounts s es) (hlist : t.taskList = s.taskList) (hadded : t.added = s.added)
    (hbefore : s.destroy ≠ .returned) (hafter : t.destroy ≠ .returned)
    (hhands : ∀ w, (t.workers w).hands = (s.workers w).hands)
    (hnone : addedTasks [e] = [] ∧ took [e] = [] ∧ ran [e] = [] ∧ freedTasks [e] = [])
    (hempty : drained (es ++ [e]) = true → drained es = true ∨ s.taskList = []) :
    PoolAccounts t (es ++ [e]) := by
  obtain ⟨hadd, htook, hran, hfreed⟩ := hnone
  have hfree : freedTasks (es ++ [e]) = [] := by
    rw [freedTasks_append, hfreed, h.freed hbefore]
    rfl
  refine ⟨?_, fun w => ?_, ?_, fun _ => hfree, fun hdone => absurd hdone hafter, fun hdr => ?_⟩
  · rw [addedTasks_append, takenTasks_append, freedTasks_append, hadd, hfreed, hlist,
      show takenTasks [e] = [] by rw [takenTasks, htook]; rfl]
    simpa using h.tasks
  · rw [took_append, ran_append, htook, hran, List.append_nil, List.append_nil, hhands]
    exact h.hands w
  · rw [addedTasks_append, hadd, List.append_nil, hadded]
    exact h.serials
  · refine ⟨?_, hfree⟩
    rw [hlist]
    rcases hempty hdr with hdr | hnil
    · exact (h.empty hdr).1
    · exact hnil

@[simp] theorem hands_move (s : PoolState Worker Func Arg) (w v : Worker)
    (place : WorkerAt Func Arg) :
    ((s.move w place).workers v).hands = if v = w then place.hands else (s.workers v).hands := by
  unfold PoolState.move
  simp only [Function.update_apply]
  split <;> rfl

/-- A worker that moves with empty hands. -/
theorem hands_move_of_nil {s : PoolState Worker Func Arg} {w : Worker}
    {place : WorkerAt Func Arg} (hw : (s.workers w).hands = []) (hplace : place.hands = [])
    (v : Worker) : ((s.move w place).workers v).hands = (s.workers v).hands := by
  rw [hands_move]
  split
  · next h => rw [h, hw, hplace]
  · rfl

/-- A signal wakes a worker, and changes nothing else. -/
theorem PoolSignal.same {s t : PoolState Worker Func Arg} (h : PoolSignal s t) :
    t.taskList = s.taskList ∧ t.added = s.added ∧ t.destroy = s.destroy ∧
      ∀ w, (t.workers w).hands = (s.workers w).hands := by
  cases h with
  | lost _ => exact ⟨rfl, rfl, rfl, fun _ => rfl⟩
  | wakes w hw =>
      exact ⟨rfl, rfl, rfl, hands_move_of_nil (by rw [hw]; rfl) rfl⟩

/-- A worker's section, entered with empty hands. -/
theorem WorkerSection.accounts {w : Worker} {s t : PoolState Worker Func Arg}
    {e : PoolEvent Worker Func Arg} {es : List (PoolEvent Worker Func Arg)}
    (h : WorkerSection w s e t) (hacc : PoolAccounts s es) (hhands : (s.workers w).hands = [])
    (hbefore : s.destroy ≠ .returned) : PoolAccounts t (es ++ [e]) := by
  cases h with
  | sleep hempty hon =>
      exact hacc.quiet rfl rfl hbefore hbefore (hands_move_of_nil hhands rfl)
        ⟨rfl, rfl, rfl, rfl⟩ fun hdr => Or.inl (by rwa [drained_append] at hdr)
  | exit hoff =>
      exact hacc.quiet rfl rfl hbefore hbefore (hands_move_of_nil hhands rfl)
        ⟨rfl, rfl, rfl, rfl⟩ fun hdr => Or.inl (by rwa [drained_append] at hdr)
  | @take task rest hon hfirst =>
      have hfree := hacc.freed hbefore
      refine ⟨?_, fun v => ?_, ?_, fun _ => ?_, fun hdone => absurd hdone hbefore, fun hdr => ?_⟩
      · rw [addedTasks_append, takenTasks_append, freedTasks_append, hacc.tasks, hfree, hfirst]
        show takenTasks es ++ [] ++ task :: rest ++ []
          = takenTasks es ++ [task] ++ ([] ++ []) ++ rest
        simp
      · -- the task goes from the list to the hands of the worker
        rw [took_append, ran_append, tasksOf_append, tasksOf_append, hacc.hands v,
          hands_move]
        show _ ++ tasksOf v [(w, task)] = _ ++ tasksOf v [] ++ _
        rw [tasksOf_singleton]
        by_cases hv : v = w
        · subst hv
          rw [if_pos rfl, if_pos rfl, hhands]
          simp [tasksOf, WorkerAt.hands]
        · rw [if_neg (Ne.symm hv), if_neg hv]
          simp [tasksOf]
      · rw [addedTasks_append]
        exact (List.append_nil _).symm ▸ hacc.serials
      · rw [freedTasks_append, hfree]
        rfl
      · rw [drained_append] at hdr
        have hnil := (hacc.empty hdr).1
        rw [hfirst] at hnil
        cases hnil

/-- What one step does to the account. -/
theorem PoolStep.accounts {s t : PoolState Worker Func Arg} {e : PoolEvent Worker Func Arg}
    {es : List (PoolEvent Worker Func Arg)} (h : PoolStep s e t) (hacc : PoolAccounts s es) :
    PoolAccounts t (es ++ [e]) := by
  cases h with
  | @add _ func arg hopen hsignal =>
      obtain ⟨hlist, hadded, hdestroy, hhands⟩ := hsignal.same
      have hbefore : s.destroy ≠ .returned := by rw [hopen]; decide
      have hafter : t.destroy ≠ .returned := by rw [hdestroy]; exact hbefore
      -- nothing has been freed yet, so the new task comes last on both sides
      have hfree := hacc.freed hbefore
      refine ⟨?_, fun w => ?_, ?_, fun _ => ?_, fun hdone => absurd hdone hafter, fun hdr => ?_⟩
      · rw [addedTasks_append, takenTasks_append, freedTasks_append, hacc.tasks, hfree, hlist]
        show takenTasks es ++ [] ++ s.taskList ++ [_]
          = takenTasks es ++ [] ++ ([] ++ []) ++ (s.taskList ++ [_])
        simp
      · rw [took_append, ran_append, hhands w]
        show tasksOf w (took es ++ []) = tasksOf w (ran es ++ []) ++ _
        rw [List.append_nil, List.append_nil]
        exact hacc.hands w
      · rw [addedTasks_append, List.map_append, hacc.serials, hadded, List.range_succ]
        rfl
      · rw [freedTasks_append, hfree]
        rfl
      · rw [drained_append] at hdr
        cases hdr
  | @enter _ _ w hready hsect =>
      refine hsect.accounts hacc ?_ (hacc.not_returned (w := w) ?_)
      · rcases hready with hw | hw <;> rw [hw] <;> rfl
      · rcases hready with hw | hw <;> rw [hw] <;> simp
  | @wake w hasleep =>
      have hbefore : s.destroy ≠ .returned := hacc.not_returned (by rw [hasleep]; simp)
      exact hacc.quiet rfl rfl hbefore hbefore
        (hands_move_of_nil (by rw [hasleep]; rfl) rfl) ⟨rfl, rfl, rfl, rfl⟩
        fun hdr => Or.inl (by rwa [drained_append] at hdr)
  | @finish w task hhas =>
      have hbefore : s.destroy ≠ .returned := hacc.not_returned (by rw [hhas]; simp)
      have hfree := hacc.freed hbefore
      refine ⟨?_, fun v => ?_, ?_, fun _ => ?_, fun hdone => absurd hdone hbefore, fun hdr => ?_⟩
      · rw [addedTasks_append, takenTasks_append, freedTasks_append]
        show addedTasks es ++ [] = takenTasks es ++ [] ++ (freedTasks es ++ []) ++ s.taskList
        simpa using hacc.tasks
      · -- the task goes from the hands of the worker to those it has run
        rw [took_append, ran_append, tasksOf_append, tasksOf_append, hacc.hands v, hands_move]
        show _ ++ tasksOf v [] = _ ++ tasksOf v [(w, task)] ++ _
        rw [tasksOf_singleton]
        by_cases hv : v = w
        · subst hv
          rw [if_pos rfl, if_pos rfl, hhas]
          simp [tasksOf, WorkerAt.hands]
        · rw [if_neg (Ne.symm hv), if_neg hv]
          simp [tasksOf]
      · rw [addedTasks_append]
        exact (List.append_nil _).symm ▸ hacc.serials
      · rw [freedTasks_append, hfree]
        rfl
      · rw [drained_append] at hdr
        refine ⟨(hacc.empty hdr).1, ?_⟩
        rw [freedTasks_append, hfree]
        rfl
  | isEmpty halive =>
      refine hacc.quiet rfl rfl halive halive (fun _ => rfl) ⟨rfl, rfl, rfl, rfl⟩ fun hdr => ?_
      rw [drained_append] at hdr
      cases hempty : s.taskList with
      | nil => exact Or.inr rfl
      | cons task rest =>
          rw [hempty] at hdr
          exact Or.inl hdr
  | destroy hopen =>
      have hbefore : s.destroy ≠ .returned := by rw [hopen]; decide
      exact hacc.quiet rfl rfl hbefore (by simp) (hands_broadcast _) ⟨rfl, rfl, rfl, rfl⟩
        fun hdr => Or.inl (by rwa [drained_append] at hdr)
  | joined hopen hexited =>
      have hbefore : s.destroy ≠ .returned := by rw [hopen]; decide
      have hfree := hacc.freed hbefore
      refine ⟨?_, fun w => ?_, ?_, fun hdone => absurd rfl hdone, fun _ => ⟨rfl, hexited⟩,
        fun hdr => ⟨rfl, ?_⟩⟩
      · -- the tasks that are left are freed
        rw [addedTasks_append, takenTasks_append, freedTasks_append, hacc.tasks, hfree]
        show takenTasks es ++ [] ++ s.taskList ++ []
          = takenTasks es ++ [] ++ ([] ++ (s.taskList ++ [])) ++ []
        simp
      · rw [took_append, ran_append]
        show tasksOf w (took es ++ []) = tasksOf w (ran es ++ []) ++ _
        rw [List.append_nil, List.append_nil]
        exact hacc.hands w
      · rw [addedTasks_append]
        exact (List.append_nil _).symm ▸ hacc.serials
      · rw [drained_append] at hdr
        rw [freedTasks_append, hfree]
        show [] ++ (s.taskList ++ []) = []
        rw [(hacc.empty hdr).1]
        rfl

theorem poolAccounts_init : PoolAccounts (poolInit : PoolState Worker Func Arg) [] where
  tasks := rfl
  hands := fun _ => rfl
  serials := rfl
  freed := fun _ => rfl
  exited := fun h => by cases h
  empty := fun h => by cases h

/-- Every run keeps its account. -/
theorem poolAccounts_of_steps {es : List (PoolEvent Worker Func Arg)}
    {s : PoolState Worker Func Arg} (h : Steps PoolStep poolInit es s) : PoolAccounts s es := by
  induction h with
  | nil => exact poolAccounts_init
  | snoc _ hstep ih => exact hstep.accounts ih

/-- What is promised of a run of the pool. -/
structure PoolSound (s : PoolState Worker Func Arg) (es : List (PoolEvent Worker Func Arg)) :
    Prop where
  /-- Tasks are taken in the order they were added, and no two tasks are the same. -/
  order : takenTasks es <+: addedTasks es
  distinct : (addedTasks es).Nodup
  /-- A worker that has exited has run the tasks it took, each once, in order. -/
  exited : ∀ w, s.workers w = .exited → tasksOf w (ran es) = tasksOf w (took es)
  /-- When `thread_pool_destroy` has returned, the tasks that were taken have been run, each
  once, and the others freed. -/
  returned : s.destroy = .returned → (ranTasks es).Perm (takenTasks es) ∧
    addedTasks es = takenTasks es ++ freedTasks es
  /-- Nothing is freed before. -/
  freed : s.destroy ≠ .returned → freedTasks es = []
  /-- If the pool was empty behind the last add, every task has been run. -/
  drained : drained es = true → s.destroy = .returned → (ranTasks es).Perm (addedTasks es)

/-- Every run of the pool takes the tasks in order and runs each of them once, or frees
it. -/
theorem pool_run {es : List (PoolEvent Worker Func Arg)} {s : PoolState Worker Func Arg}
    (h : Steps PoolStep poolInit es s) : PoolSound s es := by
  have hacc := poolAccounts_of_steps h
  have hexited : ∀ w, s.workers w = .exited → tasksOf w (ran es) = tasksOf w (took es) := by
    intro w hw
    have := hacc.hands w
    rw [hw] at this
    simpa [WorkerAt.hands] using this.symm
  have hreturned : s.destroy = .returned → (ranTasks es).Perm (takenTasks es) ∧
      addedTasks es = takenTasks es ++ freedTasks es := by
    intro hdone
    obtain ⟨hnil, hall⟩ := hacc.exited hdone
    refine ⟨perm_of_tasksOf fun w => hexited w (hall w), ?_⟩
    rw [hacc.tasks, hnil, List.append_nil]
  refine ⟨⟨freedTasks es ++ s.taskList, ?_⟩, ?_, hexited, hreturned, hacc.freed, ?_⟩
  · rw [hacc.tasks, List.append_assoc]
  · exact List.Nodup.of_map PoolTask.serial (hacc.serials ▸ List.nodup_range)
  · intro hdr hdone
    obtain ⟨hperm, hsplit⟩ := hreturned hdone
    rwa [hsplit, (hacc.empty hdr).2, List.append_nil]

/-- A pool of one worker. -/
def onePool (taskList : List (PoolTask ℕ ℕ)) (shutdown : Bool) (place : WorkerAt ℕ ℕ)
    (destroy : DestroyAt) (added : ℕ) : PoolState Unit ℕ ℕ :=
  { taskList := taskList, shutdown := shutdown, workers := fun _ => place, destroy := destroy
    added := added }

/-- One worker sleeps, is woken for a task, and runs it while the pool is shut down; the
second task is freed. -/
theorem pool_run_shutdown : PoolSound (onePool [] true .exited .returned 2)
    [.sleeps (), .added ⟨0, some 1, 2⟩, .took () ⟨0, some 1, 2⟩, .added ⟨1, some 3, 4⟩, .shutdown,
      .ran () ⟨0, some 1, 2⟩, .exits (), .destroyed [⟨1, some 3, 4⟩]] := by
  have hsleep : PoolStep poolInit (.sleeps ()) (onePool [] false .asleep .notCalled 0) :=
    .enter (w := ()) (Or.inl rfl) (.sleep rfl rfl)
  have hadd : PoolStep (onePool [] false .asleep .notCalled 0) (.added ⟨0, some 1, 2⟩)
      (onePool [⟨0, some 1, 2⟩] false .woken .notCalled 1) := .add rfl (.wakes () rfl)
  have htake : PoolStep (onePool [⟨0, some 1, 2⟩] false .woken .notCalled 1)
      (.took () ⟨0, some 1, 2⟩) (onePool [] false (.running ⟨0, some 1, 2⟩) .notCalled 1) :=
    .enter (w := ()) (Or.inr rfl) (.take rfl rfl)
  have hadd' : PoolStep (onePool [] false (.running ⟨0, some 1, 2⟩) .notCalled 1)
      (.added ⟨1, some 3, 4⟩)
      (onePool [⟨1, some 3, 4⟩] false (.running ⟨0, some 1, 2⟩) .notCalled 2) :=
    .add rfl (.lost (by simp [onePool]))
  have hdestroy : PoolStep (onePool [⟨1, some 3, 4⟩] false (.running ⟨0, some 1, 2⟩) .notCalled 2)
      .shutdown (onePool [⟨1, some 3, 4⟩] true (.running ⟨0, some 1, 2⟩) .joining 2) :=
    .destroy rfl
  have hfinish : PoolStep (onePool [⟨1, some 3, 4⟩] true (.running ⟨0, some 1, 2⟩) .joining 2)
      (.ran () ⟨0, some 1, 2⟩) (onePool [⟨1, some 3, 4⟩] true .atLock .joining 2) :=
    .finish (w := ()) rfl
  have hexit : PoolStep (onePool [⟨1, some 3, 4⟩] true .atLock .joining 2) (.exits ())
      (onePool [⟨1, some 3, 4⟩] true .exited .joining 2) :=
    .enter (w := ()) (Or.inl rfl) (.exit rfl)
  have hjoined : PoolStep (onePool [⟨1, some 3, 4⟩] true .exited .joining 2)
      (.destroyed [⟨1, some 3, 4⟩]) (onePool [] true .exited .returned 2) :=
    .joined rfl fun _ => rfl
  exact pool_run ((((((((Steps.nil.snoc hsleep).snoc hadd).snoc htake).snoc hadd').snoc
    hdestroy).snoc hfinish).snoc hexit).snoc hjoined)

end
