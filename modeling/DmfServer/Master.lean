/-
# The master and its workers

`master.c`: the daemon forks `DEFAULT_WORKER_NUM` workers, each of which calls the worker function
`wf`, and looks after them in `check_and_restart`.

A child goes on with a copy of everything its parent has, also of the place in the loop.  When the
worker function returns in a child of `start_worker`, the child goes on with that loop, forks the
rest of the workers once more, and looks after workers like the master (`onlyMaster_iff`); a child
of `check_and_restart` exits.

How `fork` comes out in `start_worker`, and in which processes the worker function returns, is up
to a `Behaviour`.  What `waitpid` says is open where its argument is 0, as after a `fork` that has
failed.  The `SIGTERM`s of `signal_handle` are not told from other ends of a process.
-/
import DmfServer.StepSystem

open StepSystem

/-- `DEFAULT_WORKER_NUM`. -/
def defaultWorkerNum : ℕ := 6

/-- A process, by the process that forked it and which of its forks that was: the round of
`start_worker`, or the number of restarts before it. -/
inductive Process : Type where
  | master
  | started (parent : Process) (i : ℕ)
  | restarted (parent : Process) (k : ℕ)
  deriving DecidableEq

def Process.parent : Process → Option Process
  | .master => none
  | .started parent _ => some parent
  | .restarted parent _ => some parent

/-- Where a process is. -/
inductive ProcessAt : Type where
  /-- The loop of `start_worker`. -/
  | starting (i : ℕ)
  /-- `wf()` in round `i` of it. -/
  | working (i : ℕ)
  /-- `while(is_running2)` in `check_and_restart`. -/
  | watching
  /-- The loop of `check_and_restart` over the workers. -/
  | checking (i : ℕ)
  /-- `wf()` in it. -/
  | replacing
  /-- Out of `multi_process_init`. -/
  | returned
  /-- The process has exited, or a signal has ended it. -/
  | ended
  deriving DecidableEq

/-- In `check_and_restart`, or out of it again. -/
def ProcessAt.watches : ProcessAt → Bool
  | .watching | .checking _ | .returned => true
  | .starting _ | .working _ | .replacing | .ended => false

/-- The memory of a process; a `worker` that is 0 is `none`. -/
structure ProcessState where
  place : ProcessAt
  worker : Fin defaultWorkerNum → Option Process
  isRunning : Bool
  restarts : ℕ

/-- The processes that there are. -/
abbrev Processes := Process → Option ProcessState

/-- What the functions that `start_worker` calls do. -/
structure Behaviour where
  /-- `wf` returns in the process, after any time. -/
  returns : Process → Bool
  /-- `fork` succeeds for the process in the round. -/
  forks : Process → ℕ → Bool

/-- What a step shows of itself. -/
inductive MasterEvent : Type where
  | forked (child : Process)
  | forkFailed (parent : Process) (i : ℕ)
  | restarted (child : Process)
  | other (p : Process)
  deriving DecidableEq

/-- The answers of `waitpid`, with `WNOHANG`. -/
inductive WaitAnswer : Type where
  | running
  | down
  | failed

/-- `waitpid` of the process `p`, for an entry of `worker`. -/
def Waits (s : Processes) (p : Process) : Option Process → WaitAnswer → Prop
  | none, .down => False
  | none, _ => True
  | some w, .running => w.parent = some p ∧ ∃ st, s w = some st ∧ st.place ≠ .ended
  | some w, .down => w.parent = some p ∧ ∃ st, s w = some st ∧ st.place = .ended
  | some w, .failed => w.parent ≠ some p

/-- What a process does next, with the child if it forks one. -/
inductive ProcessMove (world : Behaviour) (s : Processes) (p : Process) (st : ProcessState) :
    MasterEvent → ProcessState → Option (Process × ProcessState) → Prop where
  | fork {i : ℕ} (hi : i < defaultWorkerNum) : st.place = .starting i → world.forks p i = true →
      ProcessMove world s p st (.forked (.started p i))
        { st with
          place := .starting (i + 1)
          worker := Function.update st.worker ⟨i, hi⟩ (some (.started p i)) }
        (some (.started p i, { st with place := .working i, restarts := 0 }))
  | forkFailed {i : ℕ} : i < defaultWorkerNum → st.place = .starting i → world.forks p i = false →
      ProcessMove world s p st (.forkFailed p i) { st with place := .starting (i + 1) } none
  | started {i : ℕ} : defaultWorkerNum ≤ i → st.place = .starting i →
      ProcessMove world s p st (.other p) { st with place := .watching } none
  -- the child goes on with the loop of its parent
  | returnStart {i : ℕ} : st.place = .working i → world.returns p = true →
      ProcessMove world s p st (.other p) { st with place := .starting (i + 1) } none
  | watch : st.place = .watching → st.isRunning = true →
      ProcessMove world s p st (.other p) { st with place := .checking 0 } none
  | stop : st.place = .watching → st.isRunning = false →
      ProcessMove world s p st (.other p) { st with place := .returned } none
  | running {i : ℕ} (hi : i < defaultWorkerNum) : st.place = .checking i →
      Waits s p (st.worker ⟨i, hi⟩) .running →
      ProcessMove world s p st (.other p) { st with place := .checking (i + 1) } none
  | restart {i : ℕ} (hi : i < defaultWorkerNum) : st.place = .checking i →
      Waits s p (st.worker ⟨i, hi⟩) .down →
      ProcessMove world s p st (.restarted (.restarted p st.restarts))
        { st with
          place := .checking (i + 1)
          worker := Function.update st.worker ⟨i, hi⟩ (some (.restarted p st.restarts))
          restarts := st.restarts + 1 }
        (some (.restarted p st.restarts, { st with place := .replacing, restarts := 0 }))
  | restartFailed {i : ℕ} (hi : i < defaultWorkerNum) : st.place = .checking i →
      Waits s p (st.worker ⟨i, hi⟩) .down →
      ProcessMove world s p st (.other p) { st with place := .ended } none
  | waitFailed {i : ℕ} (hi : i < defaultWorkerNum) : st.place = .checking i →
      Waits s p (st.worker ⟨i, hi⟩) .failed →
      ProcessMove world s p st (.other p) { st with place := .ended } none
  | sleep {i : ℕ} : defaultWorkerNum ≤ i → st.place = .checking i →
      ProcessMove world s p st (.other p) { st with place := .watching } none
  -- `exit(0)` behind `wf()`
  | returnRestarted : st.place = .replacing → world.returns p = true →
      ProcessMove world s p st (.other p) { st with place := .ended } none
  -- `signal_handle`
  | signal : st.place ≠ .ended →
      ProcessMove world s p st (.other p) { st with isRunning := false } none
  | kill : ProcessMove world s p st (.other p) { st with place := .ended } none

/-- The processes after a move of `p`. -/
def afterMove (s : Processes) (p : Process) (st : ProcessState) :
    Option (Process × ProcessState) → Processes
  | none => Function.update s p (some st)
  | some (child, childSt) => Function.update (Function.update s p (some st)) child (some childSt)

/-- One of the processes moves. -/
inductive MasterStep (world : Behaviour) : Processes → MasterEvent → Processes → Prop where
  | move {s : Processes} {p : Process} {st st' : ProcessState} {e : MasterEvent}
      {child : Option (Process × ProcessState)} : s p = some st →
      ProcessMove world s p st e st' child → MasterStep world s e (afterMove s p st' child)

/-- The daemon, when it calls `start_worker`. -/
def masterInit : Processes :=
  Function.update (fun _ => none) .master (some ⟨.starting 0, fun _ => none, true, 0⟩)

/-- The processes that `start_worker` has forked. -/
def startedBy (es : List MasterEvent) : List Process :=
  es.filterMap fun
    | .forked child => some child
    | _ => none

/-- Only the master makes workers: it is the parent of what `start_worker` forks, there are
`DEFAULT_WORKER_NUM` of them when it is through with that, and it alone looks after them. -/
structure OnlyMaster (es : List MasterEvent) (s : Processes) : Prop where
  parents : ∀ child ∈ startedBy es, child.parent = some .master
  nodup : (startedBy es).Nodup
  number : ∀ st, s .master = some st → st.place.watches →
    (startedBy es).length = defaultWorkerNum
  number_le : (startedBy es).length ≤ defaultWorkerNum
  watches : ∀ p st, s p = some st → st.place.watches → p = .master

/-! ## The processes after a move -/

theorem Process.started_ne (p : Process) (i : ℕ) : Process.started p i ≠ p := by
  intro h
  have hsize := congrArg sizeOf h
  rw [Process.started.sizeOf_spec] at hsize
  omega

theorem Process.restarted_ne (p : Process) (k : ℕ) : Process.restarted p k ≠ p := by
  intro h
  have hsize := congrArg sizeOf h
  rw [Process.restarted.sizeOf_spec] at hsize
  omega

theorem startedBy_concat (es : List MasterEvent) (e : MasterEvent) :
    startedBy (es ++ [e]) = startedBy es ++ startedBy [e] := List.filterMap_append

section
variable {s : Processes} {p : Process} {st : ProcessState}
  {child : Option (Process × ProcessState)}

theorem afterMove_child {c : Process} {cst : ProcessState} :
    afterMove s p st (some (c, cst)) c = some cst :=
  Function.update_self c _ _

theorem afterMove_self (h : ∀ c cst, child = some (c, cst) → c ≠ p) :
    afterMove s p st child p = some st := by
  unfold afterMove
  split
  · exact Function.update_self p _ s
  · next c cst =>
    rw [Function.update_of_ne (h c cst rfl).symm, Function.update_self]

/-- The processes that neither move nor are forked stay as they are. -/
theorem afterMove_of_ne {q : Process} (hp : q ≠ p) (h : ∀ c cst, child = some (c, cst) → q ≠ c) :
    afterMove s p st child q = s q := by
  unfold afterMove
  split
  · exact Function.update_of_ne hp _ s
  · next c cst =>
    rw [Function.update_of_ne (h c cst rfl), Function.update_of_ne hp]

theorem afterMove_none_self : afterMove s p st none p = some st :=
  afterMove_self fun _ _ hnone => nomatch hnone

theorem afterMove_none_of_ne {q : Process} (hp : q ≠ p) : afterMove s p st none q = s q :=
  afterMove_of_ne hp fun _ _ hnone => nomatch hnone

/-- A process after a move is the child, the one that has moved, or as it was. -/
theorem of_afterMove {q : Process} {qst : ProcessState}
    (h : afterMove s p st child q = some qst) :
    child = some (q, qst) ∨ (q = p ∧ qst = st) ∨ (q ≠ p ∧ s q = some qst) := by
  by_cases hchild : ∃ cst, child = some (q, cst)
  · obtain ⟨cst, rfl⟩ := hchild
    rw [afterMove_child] at h
    exact .inl (by rw [Option.some.inj h])
  · have hne : ∀ c cst, child = some (c, cst) → q ≠ c := by
      rintro c cst hc rfl
      exact hchild ⟨cst, hc⟩
    by_cases hqp : q = p
    · subst hqp
      rw [afterMove_self fun c cst hc => (hne c cst hc).symm] at h
      exact .inr (.inl ⟨rfl, (Option.some.inj h).symm⟩)
    · rw [afterMove_of_ne hqp hne] at h
      exact .inr (.inr ⟨hqp, h⟩)

/-- No process is its own child. -/
theorem ProcessMove.child_ne {world : Behaviour} {st' : ProcessState} {e : MasterEvent}
    (h : ProcessMove world s p st e st' child) : ∀ c cst, child = some (c, cst) → c ≠ p := by
  rintro c cst rfl
  cases h with
  | fork _ _ _ => exact p.started_ne _
  | restart _ _ _ => exact p.restarted_ne _

theorem ProcessMove.moved {world : Behaviour} {st' : ProcessState} {e : MasterEvent}
    (h : ProcessMove world s p st e st' child) : afterMove s p st' child p = some st' :=
  afterMove_self h.child_ne

end

/-! ## What is forked is new -/

/-- The loop of `start_worker` is past round `i`. -/
def ProcessAt.Passed (i : ℕ) : ProcessAt → Prop
  | .starting j => i < j
  | .working j => i ≤ j
  | _ => True

/-- A process has only the children that it has come to in its loop, and restarted so far. -/
structure Named (s : Processes) : Prop where
  started : ∀ p i, s (.started p i) ≠ none → ∃ st, s p = some st ∧ st.place.Passed i
  restarted : ∀ p k, s (.restarted p k) ≠ none → ∃ st, s p = some st ∧ k < st.restarts

section
variable {world : Behaviour} {s : Processes} {p : Process} {st st' : ProcessState}
  {e : MasterEvent} {child : Option (Process × ProcessState)}

/-- A process does not come back to a round, nor to a restart. -/
theorem ProcessMove.passed (h : ProcessMove world s p st e st' child) :
    (∀ i, st.place.Passed i → st'.place.Passed i) ∧ st.restarts ≤ st'.restarts := by
  cases h with
  | fork _ hplace _ | forkFailed _ hplace _ =>
      refine ⟨fun i hi => ?_, le_rfl⟩
      rw [hplace] at hi
      exact Nat.lt_succ_of_lt hi
  | returnStart hplace _ =>
      refine ⟨fun i hi => ?_, le_rfl⟩
      rw [hplace] at hi
      exact Nat.lt_succ_of_le hi
  | restart _ _ _ => exact ⟨fun _ _ => trivial, Nat.le_succ _⟩
  | signal _ => exact ⟨fun _ hi => hi, le_rfl⟩
  | started _ _ | watch _ _ | stop _ _ | running _ _ _ | restartFailed _ _ _ | waitFailed _ _ _
  | sleep _ _ | returnRestarted _ _ | kill => exact ⟨fun _ _ => trivial, le_rfl⟩

/-- The child of a move is one that its parent has come to with it. -/
theorem ProcessMove.child_eq (h : ProcessMove world s p st e st' child) :
    ∀ c cst, child = some (c, cst) →
      (∃ i, c = .started p i ∧ ¬st.place.Passed i ∧ st'.place.Passed i) ∨
        (c = .restarted p st.restarts ∧ st.restarts < st'.restarts) := by
  rintro c cst rfl
  cases h with
  | fork _ hplace _ =>
      refine .inl ⟨_, rfl, ?_, Nat.lt_succ_self _⟩
      rw [hplace]
      exact Nat.lt_irrefl _
  | restart _ _ _ => exact .inr ⟨rfl, Nat.lt_succ_self _⟩

/-- The child of a move was not there before. -/
theorem Named.fresh (h : Named s) (hp : s p = some st)
    (hmove : ProcessMove world s p st e st' child) {c : Process} {cst : ProcessState}
    (hc : child = some (c, cst)) : s c = none := by
  by_contra hthere
  rcases hmove.child_eq c cst hc with ⟨i, rfl, hnot, -⟩ | ⟨rfl, -⟩
  · obtain ⟨st₁, hst₁, hpassed⟩ := h.started p i hthere
    obtain rfl := Option.some.inj (hp.symm.trans hst₁)
    exact hnot hpassed
  · obtain ⟨st₁, hst₁, hlt⟩ := h.restarted p _ hthere
    obtain rfl := Option.some.inj (hp.symm.trans hst₁)
    exact Nat.lt_irrefl _ hlt

/-- Where a process has a property that its moves keep, it has it after a move of any process. -/
theorem Named.after (h : Named s) (hp : s p = some st)
    (hmove : ProcessMove world s p st e st' child) {P : ProcessState → Prop}
    (hkeep : P st → P st') {q : Process} (hq : ∃ qst, s q = some qst ∧ P qst) :
    ∃ qst, afterMove s p st' child q = some qst ∧ P qst := by
  obtain ⟨qst, hqst, hP⟩ := hq
  by_cases hqp : q = p
  · subst hqp
    obtain rfl := Option.some.inj (hp.symm.trans hqst)
    exact ⟨st', hmove.moved, hkeep hP⟩
  · refine ⟨qst, ?_, hP⟩
    rw [afterMove_of_ne hqp, hqst]
    rintro c cst hc rfl
    rw [h.fresh hp hmove hc] at hqst
    cases hqst

/-- A process that is there after a move is the child, or was there. -/
theorem of_afterMove_ne_none {q : Process} (hp : s p = some st)
    (h : afterMove s p st' child q ≠ none) : (∃ cst, child = some (q, cst)) ∨ s q ≠ none := by
  obtain ⟨qst, hqst⟩ := Option.ne_none_iff_exists'.mp h
  rcases of_afterMove hqst with hc | ⟨rfl, -⟩ | ⟨-, hold⟩
  · exact .inl ⟨qst, hc⟩
  · exact .inr (by rw [hp]; exact Option.some_ne_none st)
  · exact .inr (by rw [hold]; exact Option.some_ne_none qst)

theorem Named.move (h : Named s) (hp : s p = some st)
    (hmove : ProcessMove world s p st e st' child) : Named (afterMove s p st' child) := by
  obtain ⟨hpassed, hrestarts⟩ := hmove.passed
  constructor
  · intro q i hq
    rcases of_afterMove_ne_none hp hq with ⟨cst, hc⟩ | hold
    · rcases hmove.child_eq _ cst hc with ⟨j, hj, -, hnow⟩ | ⟨hj, -⟩
      · cases hj
        exact ⟨st', hmove.moved, hnow⟩
      · cases hj
    · exact h.after hp hmove (P := fun st => st.place.Passed i) (hpassed i) (h.started q i hold)
  · intro q k hq
    rcases of_afterMove_ne_none hp hq with ⟨cst, hc⟩ | hold
    · rcases hmove.child_eq _ cst hc with ⟨j, hj, -, -⟩ | ⟨hj, hlt⟩
      · cases hj
      · cases hj
        exact ⟨st', hmove.moved, hlt⟩
    · exact h.after hp hmove (P := fun st => k < st.restarts) (fun hk => hk.trans_le hrestarts)
        (h.restarted q k hold)

end

theorem named_of_steps {world : Behaviour} {es : List MasterEvent} {s : Processes}
    (h : Steps (MasterStep world) masterInit es s) : Named s := by
  induction h with
  | nil =>
      have hnone : ∀ q, q ≠ .master → masterInit q = none := fun q hq =>
        Function.update_of_ne hq _ _
      exact ⟨fun p i hq => absurd (hnone (.started p i) nofun) hq,
        fun p k hq => absurd (hnone (.restarted p k) nofun) hq⟩
  | snoc _ hstep ih =>
      cases hstep with
      | move hp hmove => exact ih.move hp hmove

/-- In every run, what a process forks is a new process. -/
theorem child_new {world : Behaviour} {es : List MasterEvent} {s : Processes}
    (h : Steps (MasterStep world) masterInit es s) {p : Process} {st st' : ProcessState}
    {e : MasterEvent} {c : Process} {cst : ProcessState} (hp : s p = some st)
    (hmove : ProcessMove world s p st e st' (some (c, cst))) : s c = none :=
  (named_of_steps h).fresh hp hmove rfl

/-! ## Where only the master makes workers -/

/-- The places of the master, after the first `n` rounds of `start_worker`. -/
def MasterAt (n : ℕ) (place : ProcessAt) : Prop :=
  place = .starting n ∨ (place.watches ∧ n = defaultWorkerNum) ∨ place = .ended

/-- The places of a worker whose worker function does not return to `start_worker`. -/
def WorksAt (p : Process) (place : ProcessAt) : Prop :=
  (∃ i < defaultWorkerNum, p = .started .master i ∧ place = .working i) ∨
    ((∃ k, p = .restarted .master k) ∧ place = .replacing) ∨ place = .ended

theorem MasterAt.eq_of_starting {n i : ℕ} (h : MasterAt n (.starting i)) : i = n := by
  rcases h with h | ⟨h, -⟩ | h
  · cases h
    rfl
  · cases h
  · cases h

theorem MasterAt.eq_of_watches {n : ℕ} {place : ProcessAt} (h : MasterAt n place)
    (hwatches : place.watches) : n = defaultWorkerNum := by
  rcases h with rfl | ⟨-, hn⟩ | rfl
  · cases hwatches
  · exact hn
  · cases hwatches

/-- The master never runs the worker function. -/
theorem MasterAt.not_working {n : ℕ} {place : ProcessAt} (h : MasterAt n place) :
    (∀ i, place ≠ .working i) ∧ place ≠ .replacing := by
  rcases h with rfl | ⟨hwatches, -⟩ | rfl
  · exact ⟨nofun, nofun⟩
  · constructor
    · rintro i rfl
      cases hwatches
    · rintro rfl
      cases hwatches
  · exact ⟨nofun, nofun⟩

/-- A worker is not in `start_worker`, and does not look after workers. -/
theorem WorksAt.off {p : Process} {place : ProcessAt} (h : WorksAt p place) :
    (∀ i, place ≠ .starting i) ∧ place.watches = false := by
  rcases h with ⟨i, -, -, rfl⟩ | ⟨-, rfl⟩ | rfl
  · exact ⟨nofun, rfl⟩
  · exact ⟨nofun, rfl⟩
  · exact ⟨nofun, rfl⟩

/-- The master has made the workers that there are, one in every round. -/
structure MadeByMaster (es : List MasterEvent) (s : Processes) : Prop where
  master : ∃ st n, s .master = some st ∧ MasterAt n st.place ∧ n ≤ defaultWorkerNum ∧
    startedBy es = (List.range n).map (.started .master)
  workers : ∀ p st, s p = some st → p ≠ .master → WorksAt p st.place

section
variable {world : Behaviour} {s : Processes} {st st' : ProcessState} {e : MasterEvent}
  {child : Option (Process × ProcessState)}

/-- A worker makes no process, and stays at work until it ends. -/
theorem ProcessMove.of_worker {p : Process} (h : ProcessMove world s p st e st' child)
    (hreturns : ∀ i < defaultWorkerNum, world.returns (.started .master i) = false)
    (hworks : WorksAt p st.place) : child = none ∧ startedBy [e] = [] ∧ WorksAt p st'.place := by
  obtain ⟨hstart, hwatch⟩ := hworks.off
  have hoff : ∀ place : ProcessAt, st.place = place → place.watches = true → False := by
    rintro place rfl h
    rw [hwatch] at h
    cases h
  cases h with
  | fork _ hplace _ | forkFailed _ hplace _ | started _ hplace => exact absurd hplace (hstart _)
  | watch hplace _ | stop hplace _ | running _ hplace _ | restart _ hplace _
  | restartFailed _ hplace _ | waitFailed _ hplace _ | sleep _ hplace =>
      exact (hoff _ hplace rfl).elim
  | returnStart hplace hback =>
      rw [hplace] at hworks
      rcases hworks with ⟨j, hj, rfl, -⟩ | ⟨-, h⟩ | h
      · rw [hreturns j hj] at hback
        cases hback
      · cases h
      · cases h
  | returnRestarted _ _ => exact ⟨rfl, rfl, .inr (.inr rfl)⟩
  | signal _ => exact ⟨rfl, rfl, hworks⟩
  | kill => exact ⟨rfl, rfl, .inr (.inr rfl)⟩

/-- A move of the master is at most a round more of `start_worker`, and what it forks works. -/
theorem ProcessMove.of_master (h : ProcessMove world s .master st e st' child)
    (hforks : ∀ i < defaultWorkerNum, world.forks .master i = true) {n : ℕ}
    (hn : n ≤ defaultWorkerNum) (hat : MasterAt n st.place) :
    (∃ n' ≤ defaultWorkerNum, MasterAt n' st'.place ∧
      (List.range n).map (.started .master) ++ startedBy [e]
        = (List.range n').map (.started .master)) ∧
    ∀ c cst, child = some (c, cst) → WorksAt c cst.place := by
  have hall : ∀ place : ProcessAt, st.place = place → place.watches = true →
      n = defaultWorkerNum := by
    rintro place rfl h
    exact hat.eq_of_watches h
  cases h with
  | fork hi hplace _ =>
      obtain rfl := MasterAt.eq_of_starting (hplace ▸ hat)
      refine ⟨⟨_, hi, .inl rfl, ?_⟩, ?_⟩
      · rw [List.range_succ, List.map_append]
        rfl
      · rintro c cst ⟨⟩
        exact .inl ⟨_, hi, rfl, rfl⟩
  | forkFailed hi hplace hfail =>
      rw [hforks _ hi] at hfail
      cases hfail
  | started hi hplace =>
      obtain rfl := MasterAt.eq_of_starting (hplace ▸ hat)
      exact ⟨⟨_, hn, .inr (.inl ⟨rfl, le_antisymm hn hi⟩), List.append_nil _⟩, nofun⟩
  | returnStart hplace _ => exact absurd hplace (hat.not_working.1 _)
  | returnRestarted hplace _ => exact absurd hplace hat.not_working.2
  | watch hplace _ | stop hplace _ | running _ hplace _ | sleep _ hplace =>
      exact ⟨⟨n, hn, .inr (.inl ⟨rfl, hall _ hplace rfl⟩), List.append_nil _⟩, nofun⟩
  | restart _ hplace _ =>
      refine ⟨⟨n, hn, .inr (.inl ⟨rfl, hall _ hplace rfl⟩), List.append_nil _⟩, ?_⟩
      rintro c cst ⟨⟩
      exact .inr (.inl ⟨⟨_, rfl⟩, rfl⟩)
  | restartFailed _ _ _ | waitFailed _ _ _ | kill =>
      exact ⟨⟨n, hn, .inr (.inr rfl), List.append_nil _⟩, nofun⟩
  | signal _ => exact ⟨⟨n, hn, hat, List.append_nil _⟩, nofun⟩

end

section
variable {world : Behaviour}
  (hforks : ∀ i < defaultWorkerNum, world.forks .master i = true)
  (hreturns : ∀ i < defaultWorkerNum, world.returns (.started .master i) = false)
include hforks hreturns

theorem MadeByMaster.step {es : List MasterEvent} {s t : Processes} {e : MasterEvent}
    (h : MadeByMaster es s) (hstep : MasterStep world s e t) : MadeByMaster (es ++ [e]) t := by
  obtain ⟨m, n, hm, hat, hn, hes⟩ := h.master
  cases hstep with
  | @move p st st' _ child hp hmove =>
      by_cases hpm : p = .master
      · subst hpm
        obtain rfl := Option.some.inj (hm.symm.trans hp)
        obtain ⟨⟨n', hn', hat', hev⟩, hchild⟩ := hmove.of_master hforks hn hat
        refine ⟨⟨st', n', hmove.moved, hat', hn', ?_⟩, fun q qst hq hqm => ?_⟩
        · rw [startedBy_concat, hes, hev]
        · rcases of_afterMove hq with hc | ⟨rfl, -⟩ | ⟨-, hold⟩
          · exact hchild q qst hc
          · exact absurd rfl hqm
          · exact h.workers q qst hold hqm
      · obtain ⟨rfl, hev, hworks⟩ := hmove.of_worker hreturns (h.workers p st hp hpm)
        refine ⟨⟨m, n, ?_, hat, hn, ?_⟩, fun q qst hq hqm => ?_⟩
        · rw [afterMove_none_of_ne (Ne.symm hpm), hm]
        · rw [startedBy_concat, hes, hev, List.append_nil]
        · rcases of_afterMove hq with hc | ⟨rfl, rfl⟩ | ⟨-, hold⟩
          · cases hc
          · exact hworks
          · exact h.workers q qst hold hqm

theorem madeByMaster_of_steps {es : List MasterEvent} {s : Processes}
    (h : Steps (MasterStep world) masterInit es s) : MadeByMaster es s := by
  induction h with
  | nil =>
      refine ⟨⟨_, 0, Function.update_self _ _ _, .inl rfl, Nat.zero_le _, rfl⟩,
        fun p st hp hpm => ?_⟩
      rw [masterInit, Function.update_of_ne hpm] at hp
      cases hp
  | snoc _ hstep ih => exact ih.step hforks hreturns hstep

end

theorem MadeByMaster.onlyMaster {es : List MasterEvent} {s : Processes}
    (h : MadeByMaster es s) : OnlyMaster es s := by
  obtain ⟨m, n, hm, hat, hn, hes⟩ := h.master
  have hlen : (startedBy es).length = n := by rw [hes, List.length_map, List.length_range]
  refine ⟨fun c hc => ?_, ?_, fun st hst hwatches => ?_, hlen.trans_le hn,
    fun p st hp hwatches => ?_⟩
  · rw [hes] at hc
    obtain ⟨i, -, rfl⟩ := List.mem_map.mp hc
    rfl
  · rw [hes]
    exact List.nodup_range.map fun i j hij => (Process.started.inj hij).2
  · obtain rfl := Option.some.inj (hm.symm.trans hst)
    rw [hlen, hat.eq_of_watches hwatches]
  · by_contra hpm
    rw [(h.workers p st hp hpm).off.2] at hwatches
    cases hwatches

/-! ## Runs of `start_worker` -/

section
variable (world : Behaviour)

/-- A round of `start_worker`, with a child where `fork` succeeds. -/
theorem exists_round {s : Processes} {p : Process} {st : ProcessState} {i : ℕ}
    (hp : s p = some st) (hplace : st.place = .starting i) (hi : i < defaultWorkerNum) :
    ∃ e t st', MasterStep world s e t ∧ t p = some st' ∧ st'.place = .starting (i + 1) ∧
      startedBy [e] = (if world.forks p i then [.started p i] else []) ∧
      (∀ q, q ≠ p → q ≠ .started p i → t q = s q) ∧
      (world.forks p i = true → ∃ c, t (.started p i) = some c ∧ c.place = .working i) := by
  cases hfork : world.forks p i with
  | true =>
      have hmove := ProcessMove.fork (s := s) hi hplace hfork
      refine ⟨_, _, _, .move hp hmove, hmove.moved, rfl, rfl, fun q hq hqc => ?_,
        fun _ => ⟨_, afterMove_child, rfl⟩⟩
      refine afterMove_of_ne hq ?_
      rintro c cst ⟨⟩
      exact hqc
  | false =>
      have hmove := ProcessMove.forkFailed (s := s) hi hplace hfork
      exact ⟨_, _, _, .move hp hmove, hmove.moved, rfl, rfl,
        fun q hq _ => afterMove_none_of_ne hq, nofun⟩

/-- A process in the loop of `start_worker` comes to `check_and_restart`, with a fork in each of
the rounds that are left in which `fork` succeeds. -/
theorem exists_watching {p : Process} (n : ℕ) {s : Processes} {st : ProcessState} {i : ℕ}
    (hp : s p = some st) (hplace : st.place = .starting i) (hn : i + n = defaultWorkerNum) :
    ∃ es t st', Steps (MasterStep world) s es t ∧ t p = some st' ∧ st'.place = .watching ∧
      startedBy es = ((List.range' i n).filter fun j => world.forks p j).map (.started p) ∧
      (∀ q, q ≠ p → (∀ j ≥ i, q ≠ .started p j) → t q = s q) ∧
      ∀ j, i ≤ j → j < defaultWorkerNum → world.forks p j = true →
        ∃ c, t (.started p j) = some c ∧ c.place = .working j := by
  induction n generalizing s st i with
  | zero =>
      have hmove : ProcessMove world s p st (.other p) { st with place := .watching } none :=
        .started (by omega) hplace
      exact ⟨_, _, _, Steps.nil.snoc (.move hp hmove), afterMove_none_self, rfl, rfl,
        fun q hq _ => afterMove_none_of_ne hq, fun j hj hlt => absurd hlt (by omega)⟩
  | succ n ih =>
      obtain ⟨e, t₁, st₁, hstep, hp₁, hplace₁, he, hother₁, hchild⟩ :=
        exists_round world hp hplace (by omega)
      obtain ⟨es, t, st', hrun, hwatch, hplace', hes, hother, hchildren⟩ :=
        ih hp₁ hplace₁ (by omega)
      refine ⟨e :: es, t, st', Steps.cons hstep hrun, hwatch, hplace', ?_, fun q hq hnot => ?_,
        fun j hj hlt hfork => ?_⟩
      · have hcons : startedBy (e :: es) = startedBy [e] ++ startedBy es :=
          List.filterMap_append (l := [e])
        rw [hcons, he, hes, List.range'_succ, List.filter_cons]
        split
        · rfl
        · rfl
      · rw [hother q hq fun j hj => hnot j (Nat.le_of_succ_le hj)]
        exact hother₁ q hq (hnot i le_rfl)
      · rcases Nat.eq_or_lt_of_le hj with rfl | hmore
        · -- the child of this round is left alone by the rounds behind it
          have hkept : ∀ k ≥ i + 1, Process.started p i ≠ .started p k := by
            intro k hk heq
            have hik := (Process.started.inj heq).2
            omega
          rw [hother _ (p.started_ne i) hkept]
          exact hchild hfork
        · exact hchildren j hmore hlt hfork

/-- A run of the master through `start_worker`. -/
theorem exists_masterWatches : ∃ es t st, Steps (MasterStep world) masterInit es t ∧
    t .master = some st ∧ st.place = .watching ∧
    startedBy es = ((List.range defaultWorkerNum).filter fun j => world.forks .master j).map
      (.started .master) ∧
    ∀ j < defaultWorkerNum, world.forks .master j = true →
      ∃ c, t (.started .master j) = some c ∧ c.place = .working j := by
  obtain ⟨es, t, st, hrun, hm, hplace, hes, -, hchildren⟩ :=
    exists_watching world defaultWorkerNum (s := masterInit) (p := .master) (i := 0)
      (Function.update_self _ _ _) rfl (Nat.zero_add _)
  refine ⟨es, t, st, hrun, hm, hplace, ?_, fun j hj => hchildren j (Nat.zero_le j) hj⟩
  rw [hes, List.range_eq_range']

/-- A fork that fails leaves the master with a worker too few. -/
theorem not_onlyMaster_of_fails {i : ℕ} (hi : i < defaultWorkerNum)
    (hfail : world.forks .master i = false) :
    ¬∀ es s, Steps (MasterStep world) masterInit es s → OnlyMaster es s := by
  intro h
  obtain ⟨es, t, st, hrun, hm, hplace, hes, -⟩ := exists_masterWatches world
  have hnumber := (h es t hrun).number st hm (by rw [hplace]; rfl)
  have hless : ((List.range defaultWorkerNum).filter fun j => world.forks .master j).length
      < (List.range defaultWorkerNum).length :=
    List.length_filter_lt_length_iff_exists.mpr
      ⟨i, List.mem_range.mpr hi, by rw [hfail]; decide⟩
  rw [hes, List.length_map] at hnumber
  rw [List.length_range] at hless
  omega

/-- A worker function that returns sends its worker to `check_and_restart`. -/
theorem not_onlyMaster_of_returns {i : ℕ} (hi : i < defaultWorkerNum)
    (hfork : world.forks .master i = true) (hreturns : world.returns (.started .master i) = true) :
    ¬∀ es s, Steps (MasterStep world) masterInit es s → OnlyMaster es s := by
  intro h
  obtain ⟨es, t, st, hrun, -, -, -, hchildren⟩ := exists_masterWatches world
  obtain ⟨c, hc, hplace⟩ := hchildren i hi hfork
  have hback := MasterStep.move hc (ProcessMove.returnStart hplace hreturns)
  have hself : afterMove t (.started .master i) { c with place := .starting (i + 1) } none
      (.started .master i) = some { c with place := .starting (i + 1) } := afterMove_none_self
  obtain ⟨es', t', st', hrun', hwatch, hplace', -⟩ :=
    exists_watching world (defaultWorkerNum - (i + 1)) hself rfl (by omega)
  have honly := h _ t' ((hrun.snoc hback).append hrun')
  exact absurd (honly.watches _ st' hwatch (by rw [hplace']; rfl)) nofun

/-- Only the master makes workers, in every run, exactly when none of its forks in `start_worker`
fails and the worker function returns in none of the processes that it forks there. -/
theorem onlyMaster_iff :
    (∀ es s, Steps (MasterStep world) masterInit es s → OnlyMaster es s) ↔
      ∀ i < defaultWorkerNum,
        world.forks .master i = true ∧ world.returns (.started .master i) = false := by
  constructor
  · intro h i hi
    have hfork : world.forks .master i = true := by
      by_contra hfail
      exact not_onlyMaster_of_fails world hi (Bool.eq_false_iff.mpr hfail) h
    refine ⟨hfork, ?_⟩
    by_contra hback
    exact not_onlyMaster_of_returns world hi hfork ((Bool.not_eq_false _).mp hback) h
  · intro h es s hrun
    exact (madeByMaster_of_steps (fun i hi => (h i hi).1) (fun i hi => (h i hi).2) hrun).onlyMaster

end

/-- `myworker`, which returns from its `sleep(100)`, where every `fork` succeeds. -/
def myworker : Behaviour := ⟨fun _ => true, fun _ _ => true⟩

theorem not_onlyMaster_myworker :
    ¬∀ es s, Steps (MasterStep myworker) masterInit es s → OnlyMaster es s :=
  not_onlyMaster_of_returns myworker (i := 0) (by decide) rfl rfl
