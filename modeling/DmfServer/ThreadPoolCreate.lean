/-
# Starting the thread pool

`thread_pool_create` puts a `thread_t` at the head of the list and only then starts the thread.
When `malloc` gives no more memory, or `pthread_create` fails, it calls `thread_pool_destroy`,
which joins every thread of the list.

What the calls out of the loop return is a parameter.  `tid` is `none` as long as `pthread_create`
has not set it, and a run is given by what it returns and by the ids it joins.  Behind a `malloc`
that has failed these are the threads that were started (`threadPoolCreate_malloc`); behind a
`pthread_create` that has failed there is one more, which was never set
(`threadPoolCreate_failed`), so no such run cleans up (`not_cleansUp`).
-/
import DmfServer.ThreadPool

variable {Tid : Type}

/-- What the calls in `thread_pool_create` return, by the index of the round. -/
structure CreateCalls (Tid : Type) where
  /-- `malloc` has memory for the pool. -/
  poolRoom : Bool
  /-- `malloc` has memory for the thread. -/
  room : ℕ → Bool
  /-- The id that `pthread_create` sets, `none` if it fails. -/
  start : ℕ → Option Tid

/-- A run of `thread_pool_create`: the list of the pool, `none` for `NULL`, and the ids that were
joined. -/
structure CreateRun (Tid : Type) where
  pool : Option (List (Option Tid))
  joined : List (Option Tid)
  deriving DecidableEq

/-- The joins of `thread_pool_destroy`. -/
def joinThreads : List (Option Tid) → List (Option Tid)
  | [] => []
  | tid :: next => tid :: joinThreads next

/-- The loop of `thread_pool_create`, with `left` rounds to go; the newest thread comes first. -/
def createLoop (calls : CreateCalls Tid) : ℕ → ℕ → List (Option Tid) → CreateRun Tid
  | 0, _, threadList => ⟨some threadList, []⟩
  | left + 1, i, threadList =>
      if calls.room i then
        -- the thread is in the list before it is started
        match calls.start i with
        | some tid => createLoop calls left (i + 1) (some tid :: threadList)
        | none => ⟨none, joinThreads (none :: threadList)⟩
      else ⟨none, joinThreads threadList⟩

/-- `thread_pool_create`. -/
def threadPoolCreate (calls : CreateCalls Tid) (threadCount : ℤ) : CreateRun Tid :=
  if threadCount ≤ 0 then ⟨none, []⟩
  else if calls.poolRoom then createLoop calls threadCount.toNat 0 []
  else ⟨none, []⟩

/-! ## The rounds that start their thread -/

/-- The threads that the first rounds start, the newest first. -/
def startedThreads (calls : CreateCalls Tid) (count : ℕ) : List (Option Tid) :=
  ((List.range count).map calls.start).reverse

/-- The round with the index starts a thread. -/
def Starts (calls : CreateCalls Tid) (i : ℕ) : Prop :=
  calls.room i = true ∧ (calls.start i).isSome = true

theorem joinThreads_eq (threads : List (Option Tid)) : joinThreads threads = threads := by
  induction threads with
  | nil => rfl
  | cons tid next ih => rw [joinThreads, ih]

theorem startedThreads_succ (calls : CreateCalls Tid) (count : ℕ) :
    startedThreads calls (count + 1) = calls.start count :: startedThreads calls count := by
  unfold startedThreads
  rw [List.range_succ, List.map_append, List.reverse_append]
  rfl

/-- The threads that were started have an id. -/
theorem none_notMem_startedThreads {calls : CreateCalls Tid} {count : ℕ}
    (h : ∀ i < count, Starts calls i) : none ∉ startedThreads calls count := by
  unfold startedThreads
  rw [List.mem_reverse, List.mem_map]
  rintro ⟨i, hi, hnone⟩
  have hsome := (h i (List.mem_range.mp hi)).2
  rw [hnone] at hsome
  cases hsome

/-- The rounds that start their thread put it into the list. -/
theorem createLoop_started {calls : CreateCalls Tid} {count : ℕ} (left : ℕ)
    (h : ∀ i < count, Starts calls i) :
    createLoop calls (count + left) 0 []
      = createLoop calls left count (startedThreads calls count) := by
  induction count generalizing left with
  | zero =>
      rw [Nat.zero_add]
      rfl
  | succ count ih =>
      have hlast := h count (Nat.lt_succ_self count)
      obtain ⟨tid, htid⟩ := Option.isSome_iff_exists.mp hlast.2
      rw [Nat.add_right_comm, Nat.add_assoc, ih (left + 1) fun i hi => h i (Nat.lt_succ_of_lt hi),
        createLoop, if_pos hlast.1, htid, startedThreads_succ, htid]

section
variable {calls : CreateCalls Tid} {threadCount : ℤ} {k : ℕ}

/-- `thread_pool_create` up to a round. -/
theorem threadPoolCreate_started (hpool : calls.poolRoom = true) (hk : (k : ℤ) < threadCount)
    (h : ∀ i < k, Starts calls i) : ∃ left, threadPoolCreate calls threadCount
      = createLoop calls (left + 1) k (startedThreads calls k) := by
  obtain ⟨left, hleft⟩ : ∃ left, threadCount.toNat = k + (left + 1) :=
    ⟨threadCount.toNat - (k + 1), by omega⟩
  refine ⟨left, ?_⟩
  unfold threadPoolCreate
  rw [if_neg (by omega), if_pos hpool, hleft, createLoop_started _ h]

/-- With every call successful, the pool has all the threads, and nothing is joined. -/
theorem threadPoolCreate_ok (hpool : calls.poolRoom = true) (hcount : 0 < threadCount)
    (h : ∀ i < threadCount.toNat, Starts calls i) : threadPoolCreate calls threadCount
      = ⟨some (startedThreads calls threadCount.toNat), []⟩ := by
  unfold threadPoolCreate
  rw [if_neg (by omega), if_pos hpool, ← Nat.add_zero threadCount.toNat, createLoop_started 0 h]
  rfl

/-- When `malloc` fails, the threads that were started are joined. -/
theorem threadPoolCreate_malloc (hpool : calls.poolRoom = true) (hk : (k : ℤ) < threadCount)
    (h : ∀ i < k, Starts calls i) (hroom : calls.room k = false) :
    threadPoolCreate calls threadCount = ⟨none, startedThreads calls k⟩ := by
  obtain ⟨left, hrun⟩ := threadPoolCreate_started hpool hk h
  rw [hrun, createLoop, if_neg (by rw [hroom]; exact Bool.false_ne_true), joinThreads_eq]

/-- When `pthread_create` fails, the thread that was not started is joined first. -/
theorem threadPoolCreate_failed (hpool : calls.poolRoom = true) (hk : (k : ℤ) < threadCount)
    (h : ∀ i < k, Starts calls i) (hroom : calls.room k = true) (hfail : calls.start k = none) :
    threadPoolCreate calls threadCount = ⟨none, none :: startedThreads calls k⟩ := by
  obtain ⟨left, hrun⟩ := threadPoolCreate_started hpool hk h
  rw [hrun, createLoop, if_pos hroom, hfail, joinThreads_eq]

end

/-! ## Cleaning up -/

/-- The run returns `NULL` and has joined every thread that the first `k` rounds started, once, and
no id that was never set. -/
structure CleansUp (calls : CreateCalls Tid) (threadCount : ℤ) (k : ℕ) : Prop where
  null : (threadPoolCreate calls threadCount).pool = none
  once : (threadPoolCreate calls threadCount).joined.Perm (startedThreads calls k)
  set : none ∉ (threadPoolCreate calls threadCount).joined

/-- Behind a `malloc` that has failed the run cleans up. -/
theorem cleansUp_of_malloc {calls : CreateCalls Tid} {threadCount : ℤ} {k : ℕ}
    (hpool : calls.poolRoom = true) (hk : (k : ℤ) < threadCount) (h : ∀ i < k, Starts calls i)
    (hroom : calls.room k = false) : CleansUp calls threadCount k := by
  have hrun := threadPoolCreate_malloc hpool hk h hroom
  refine ⟨?_, ?_, ?_⟩
  · rw [hrun]
  · rw [hrun]
  · rw [hrun]
    exact none_notMem_startedThreads h

/-- Behind a `pthread_create` that has failed, in whatever round, it does not. -/
theorem not_cleansUp {calls : CreateCalls Tid} {threadCount : ℤ} {k : ℕ}
    (hpool : calls.poolRoom = true) (hk : (k : ℤ) < threadCount) (h : ∀ i < k, Starts calls i)
    (hroom : calls.room k = true) (hfail : calls.start k = none) :
    ¬CleansUp calls threadCount k := by
  intro hclean
  have hset := hclean.set
  rw [threadPoolCreate_failed hpool hk h hroom hfail] at hset
  exact hset List.mem_cons_self

/-- Two threads are asked for, and the second one cannot be started. -/
def secondFails : CreateCalls ℕ where
  poolRoom := true
  room := fun _ => true
  start := fun i => if i = 0 then some 7 else none

/-- The id that was never set is joined, and then the thread that was started. -/
theorem threadPoolCreate_secondFails :
    threadPoolCreate secondFails 2 = ⟨none, [none, some 7]⟩ ∧ ¬CleansUp secondFails 2 1 := by
  have hrun : threadPoolCreate secondFails 2 = ⟨none, [none, some 7]⟩ := by decide
  refine ⟨hrun, fun hclean => ?_⟩
  have hset := hclean.set
  rw [hrun] at hset
  exact hset List.mem_cons_self

theorem not_cleansUp_secondFails : ¬CleansUp secondFails 2 1 := by
  refine not_cleansUp rfl (by decide) ?_ rfl rfl
  intro i hi
  obtain rfl : i = 0 := by omega
  exact ⟨rfl, rfl⟩
