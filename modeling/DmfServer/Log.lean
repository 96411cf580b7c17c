/-
# The asynchronous log

Any number of threads call `log_write`, one `log_thread` writes the file; both work
inside `log_mutex` and wait at `log_cond`.  A step of the system is one critical
section: from the lock to the unlock, or to the wait that gives the lock up; a
woken thread goes through its section from the test of the loop on.

`log_thread` always takes `log_buffer[0]` and leaves the records behind it where they
are.  So the file is what was stored, in order, as long as it never finds more than
one record in the buffer (`file_prefix_of_lone`), and not in general.

Only `log_write` signals.  No writer sleeps for ever as long as `log_thread` never goes to
sleep over one that nobody is about to wake (`log_wakes`); it can, after a full buffer
(`log_sleeps`).
-/
import DmfServer.StepSystem
import Mathlib.Data.Vector.Basic

open StepSystem

/-- `LOG_BUFFER_SIZE`. -/
def logBufferSize : ℕ := 2048

/-- `log_record_t`. -/
structure LogRecord where
  level : ℤ
  message : String
  filename : String
  line : ℤ
  deriving DecidableEq

/-- A record in memory that was never filled. -/
def LogRecord.zero : LogRecord := { level := 0, message := "", filename := "", line := 0 }

/-- Who waits at `log_cond`. -/
inductive LogWaiter : Type where
  /-- A `log_write` with the record it has to store. -/
  | writer : LogRecord → LogWaiter
  | logThread : LogWaiter
  deriving DecidableEq

/-- The globals of the log, the file, and where `log_thread` is. -/
structure LogState where
  logBuffer : Vector LogRecord logBufferSize
  logBufferCount : ℕ
  logCond : Waiters LogWaiter
  /-- `log_thread` is before its lock, and not at `log_cond`. -/
  atLock : Bool
  /-- The records printed to the file. -/
  file : List LogRecord

/-- What happens in a step. -/
inductive LogEvent : Type where
  | stored : LogRecord → LogEvent
  | written : LogRecord → LogEvent
  | sleeps : LogWaiter → LogEvent
  | spurious : LogEvent

/-- Behind `log_init`. -/
def logInit : LogState :=
  { logBuffer := Vector.replicate _ .zero, logBufferCount := 0, logCond := .none, atLock := true
    file := [] }

/-- A critical section of a thread that holds `log_mutex`. -/
inductive LogSection : LogWaiter → LogState → LogEvent → LogState → Prop where
  /-- `log_write` finds room, stores its record behind the others and signals. -/
  | store {s : LogState} {r : LogRecord} {c : Waiters LogWaiter}
      (room : s.logBufferCount < logBufferSize) (signal : Waiters.Signal s.logCond c) :
      LogSection (.writer r) s (.stored r)
        { s with
          logBuffer := s.logBuffer.set s.logBufferCount r
          logBufferCount := s.logBufferCount + 1
          logCond := c }
  /-- `log_write` finds the buffer full. -/
  | full {s : LogState} {r : LogRecord} (full : logBufferSize ≤ s.logBufferCount) :
      LogSection (.writer r) s (.sleeps (.writer r))
        { s with logCond := s.logCond.sleep (.writer r) }
  /-- `log_thread` takes `log_buffer[0]` and prints it. -/
  | take {s : LogState} (some : 0 < s.logBufferCount) :
      LogSection .logThread s (.written (s.logBuffer.get ⟨0, by decide⟩))
        { s with
          logBufferCount := s.logBufferCount - 1
          atLock := true
          file := s.file ++ [s.logBuffer.get ⟨0, by decide⟩] }
  /-- `log_thread` finds the buffer empty. -/
  | empty {s : LogState} (none : s.logBufferCount = 0) :
      LogSection .logThread s (.sleeps .logThread)
        { s with logCond := s.logCond.sleep .logThread, atLock := false }

/-- A step of the system. -/
inductive LogStep : LogState → LogEvent → LogState → Prop where
  /-- Some thread calls `log_write`. -/
  | call {s t : LogState} {e : LogEvent} {r : LogRecord}
      (sect : LogSection (.writer r) s e t) : LogStep s e t
  /-- `log_thread` goes through its loop. -/
  | loop {s t : LogState} {e : LogEvent} (ready : s.atLock = true)
      (sect : LogSection .logThread s e t) : LogStep s e t
  /-- A woken thread gets the lock back. -/
  | resume {s t : LogState} {e : LogEvent} {w : LogWaiter} {c : Waiters LogWaiter}
      (gets : Waiters.Resume s.logCond w c) (sect : LogSection w { s with logCond := c } e t) :
      LogStep s e t
  /-- A thread wakes without a signal. -/
  | spurious {s : LogState} {c : Waiters LogWaiter} (wakes : Waiters.Spurious s.logCond c) :
      LogStep s .spurious { s with logCond := c }

/-- The records stored in a run, in order. -/
def storedRecords (es : List LogEvent) : List LogRecord :=
  es.filterMap fun
    | .stored r => some r
    | _ => none

/-- If the step writes a record, it is the only one in the buffer. -/
def FindsOne (s : LogState) (e : LogEvent) : Prop :=
  ∀ r, e = .written r → s.logBufferCount = 1

/-- What was stored is in the file or, behind it, in the buffer. -/
structure LogAccounts (s : LogState) (records : List LogRecord) : Prop where
  room : s.logBufferCount ≤ logBufferSize
  records : records = s.file ++ s.logBuffer.toList.take s.logBufferCount

theorem storedRecords_append (es : List LogEvent) (e : LogEvent) :
    storedRecords (es ++ [e]) = storedRecords es ++ storedRecords [e] :=
  List.filterMap_append

/-- A record set behind the others is the last of them. -/
theorem take_set_succ {α : Type} {n : ℕ} (v : Vector α n) {k : ℕ} (hk : k < n) (x : α) :
    (v.set k x).toList.take (k + 1) = v.toList.take k ++ [x] := by
  have hlen : k < v.toList.length := by simpa using hk
  rw [Vector.toList_set, List.take_add_one, List.take_set_of_le le_rfl,
    List.getElem?_set_self hlen]
  rfl

/-- Who waits at `log_cond` has no part in the account. -/
theorem LogAccounts.withCond {s : LogState} {records : List LogRecord} (h : LogAccounts s records)
    (c : Waiters LogWaiter) : LogAccounts { s with logCond := c } records :=
  ⟨h.room, h.records⟩

/-- A critical section keeps the account, if it writes only a lone record. -/
theorem LogAccounts.section {s t : LogState} {w : LogWaiter} {e : LogEvent}
    {records : List LogRecord} (h : LogAccounts s records) (hsect : LogSection w s e t)
    (hone : FindsOne s e) : LogAccounts t (records ++ storedRecords [e]) := by
  cases hsect with
  | @store _ r c room signal =>
      refine ⟨room, ?_⟩
      show records ++ [r] = s.file ++ (s.logBuffer.set s.logBufferCount r).toList.take
        (s.logBufferCount + 1)
      rw [take_set_succ _ room, h.records, List.append_assoc]
  | full full =>
      rw [show storedRecords [_] = [] from rfl, List.append_nil]
      exact h.withCond _
  | take some =>
      have hcount : s.logBufferCount = 1 := hone _ rfl
      refine ⟨(Nat.sub_le _ 1).trans h.room, ?_⟩
      have hhead : s.logBuffer.toList.take 1 = [s.logBuffer.get ⟨0, by decide⟩] := by
        rw [List.take_one, List.head?_eq_getElem?, List.getElem?_eq_getElem (by simp; decide)]
        rfl
      rw [show storedRecords [_] = [] from rfl, List.append_nil, h.records, hcount, hhead]
      simp
  | empty none =>
      rw [show storedRecords [_] = [] from rfl, List.append_nil]
      exact ⟨h.room, h.records⟩

/-- A step keeps the account, if it writes only a lone record. -/
theorem LogAccounts.step {s t : LogState} {e : LogEvent} {records : List LogRecord}
    (h : LogAccounts s records) (hstep : LogStep s e t) (hone : FindsOne s e) :
    LogAccounts t (records ++ storedRecords [e]) := by
  cases hstep with
  | call sect => exact h.section sect hone
  | loop ready sect => exact h.section sect hone
  | resume gets sect => exact (h.withCond _).section sect hone
  | spurious wakes =>
      rw [show storedRecords [_] = [] from rfl, List.append_nil]
      exact h.withCond _

/-- Steps of the log that write only lone records. -/
def LoneLogStep (s : LogState) (e : LogEvent) (t : LogState) : Prop :=
  LogStep s e t ∧ FindsOne s e

/-- The account is kept over whole runs. -/
theorem logAccounts_of_lone {s : LogState} {es : List LogEvent}
    (h : Steps LoneLogStep logInit es s) : LogAccounts s (storedRecords es) := by
  induction h with
  | nil => exact ⟨Nat.zero_le _, rfl⟩
  | snoc _ hlast ih =>
      rw [storedRecords_append]
      exact ih.step hlast.1 hlast.2

/-- In every run in which `log_thread` never finds more than one record to take, the file is
a prefix of the records in the order they were stored. -/
theorem file_prefix_of_lone {s : LogState} {es : List LogEvent}
    (h : Steps LoneLogStep logInit es s) : s.file <+: storedRecords es := by
  rw [(logAccounts_of_lone h).records]
  exact List.prefix_append _ _

/-- Two records that differ in their message. -/
def recordA : LogRecord := { LogRecord.zero with message := "a" }
@[inherit_doc recordA] def recordB : LogRecord := { LogRecord.zero with message := "b" }

/-- Two records, each stored and written before the next: the file holds them in order. -/
theorem file_prefix_of_lone_two : ∃ s : LogState,
    Steps LoneLogStep logInit
      [.stored recordA, .written recordA, .stored recordB, .written recordB] s ∧
      s.file = [recordA, recordB] ∧
      s.file <+: storedRecords [.stored recordA, .written recordA, .stored recordB,
        .written recordB] := by
  have hstoreA : LoneLogStep logInit (.stored recordA)
      { logInit with logBuffer := logInit.logBuffer.set 0 recordA, logBufferCount := 1 } :=
    ⟨.call (.store (by decide) (.lost rfl)), by rintro r ⟨⟩⟩
  have htakeA : LoneLogStep
      { logInit with logBuffer := logInit.logBuffer.set 0 recordA, logBufferCount := 1 }
      (.written recordA)
      { logInit with
        logBuffer := logInit.logBuffer.set 0 recordA, logBufferCount := 0, file := [recordA] } :=
    ⟨.loop rfl (.take (by decide)), fun _ _ => rfl⟩
  have hstoreB : LoneLogStep
      { logInit with
        logBuffer := logInit.logBuffer.set 0 recordA, logBufferCount := 0, file := [recordA] }
      (.stored recordB)
      { logInit with
        logBuffer := (logInit.logBuffer.set 0 recordA).set 0 recordB, logBufferCount := 1
        file := [recordA] } :=
    ⟨.call (.store (by decide) (.lost rfl)), by rintro r ⟨⟩⟩
  have htakeB : LoneLogStep
      { logInit with
        logBuffer := (logInit.logBuffer.set 0 recordA).set 0 recordB, logBufferCount := 1
        file := [recordA] }
      (.written recordB)
      { logInit with
        logBuffer := (logInit.logBuffer.set 0 recordA).set 0 recordB, logBufferCount := 0
        file := [recordA, recordB] } :=
    ⟨.loop rfl (.take (by decide)), fun _ _ => rfl⟩
  have hrun := Steps.snoc (.snoc (.snoc (.snoc .nil hstoreA) htakeA) hstoreB) htakeB
  exact ⟨_, hrun, rfl, file_prefix_of_lone hrun⟩

/-- Two records stored before `log_thread` runs: the first is written twice, the second
never. -/
theorem file_not_prefix : ¬ ∀ (es : List LogEvent) (s : LogState),
    Steps LogStep logInit es s → s.file <+: storedRecords es := by
  intro h
  have hstoreA : LogStep logInit (.stored recordA)
      { logInit with logBuffer := logInit.logBuffer.set 0 recordA, logBufferCount := 1 } :=
    .call (.store (by decide) (.lost rfl))
  have hstoreB : LogStep
      { logInit with logBuffer := logInit.logBuffer.set 0 recordA, logBufferCount := 1 }
      (.stored recordB)
      { logInit with
        logBuffer := (logInit.logBuffer.set 0 recordA).set 1 recordB, logBufferCount := 2 } :=
    .call (.store (by decide) (.lost rfl))
  have htake₁ : LogStep
      { logInit with
        logBuffer := (logInit.logBuffer.set 0 recordA).set 1 recordB, logBufferCount := 2 }
      (.written recordA)
      { logInit with
        logBuffer := (logInit.logBuffer.set 0 recordA).set 1 recordB, logBufferCount := 1
        file := [recordA] } :=
    .loop rfl (.take (by decide))
  have htake₂ : LogStep
      { logInit with
        logBuffer := (logInit.logBuffer.set 0 recordA).set 1 recordB, logBufferCount := 1
        file := [recordA] }
      (.written recordA)
      { logInit with
        logBuffer := (logInit.logBuffer.set 0 recordA).set 1 recordB, logBufferCount := 0
        file := [recordA, recordA] } :=
    .loop rfl (.take (by decide))
  have hprefix := h _ _ (.snoc (.snoc (.snoc (.snoc .nil hstoreA) hstoreB) htake₁) htake₂)
  revert hprefix
  decide

/-! ## The wake-ups -/

/-- A writer sleeps although there is room, `log_thread` sleeps too, and nobody has been
woken that could signal. -/
structure Slept (s : LogState) : Prop where
  writer : ∃ r, .writer r ∈ s.logCond.asleep
  room : s.logBufferCount < logBufferSize
  woken : s.logCond.woken = []
  logThread : .logThread ∈ s.logCond.asleep

/-- `log_thread` goes to sleep only when no writer is asleep, or one has been woken. -/
def WakesFirst (s : LogState) (e : LogEvent) : Prop :=
  e = .sleeps .logThread →
    (∀ r, .writer r ∉ s.logCond.asleep) ∨ ∃ r, .writer r ∈ s.logCond.woken

/-- There is one `log_thread`: before its lock, asleep or woken. -/
def OneLogThread (s : LogState) : Prop :=
  (s.logCond.asleep ++ s.logCond.woken).count .logThread = if s.atLock then 0 else 1

/-- Waking a sleeper moves it. -/
theorem perm_of_wakes {w w' : Waiters LogWaiter} {x : LogWaiter}
    (hasleep : w.asleep.Perm (x :: w'.asleep)) (hwoken : w'.woken = x :: w.woken) :
    (w.asleep ++ w.woken).Perm (w'.asleep ++ w'.woken) := by
  rw [hwoken]
  exact (hasleep.append_right _).trans List.perm_middle.symm

/-- A signal moves a sleeper, or nobody. -/
theorem perm_of_signal {w w' : Waiters LogWaiter} (h : Waiters.Signal w w') :
    (w.asleep ++ w.woken).Perm (w'.asleep ++ w'.woken) := by
  obtain ⟨-, rfl⟩ | ⟨x, hasleep, hwoken⟩ := h.cases
  · exact List.Perm.refl _
  · exact perm_of_wakes hasleep hwoken

/-- The section of a thread that is not at `log_cond` keeps `log_thread` one; `present` says
that it is `log_thread` itself that goes through it. -/
theorem LogSection.oneLogThread {s t : LogState} {w : LogWaiter} {e : LogEvent}
    (hsect : LogSection w s e t)
    (h : (s.logCond.asleep ++ s.logCond.woken).count .logThread =
      if s.atLock ∨ w = .logThread then 0 else 1) : OneLogThread t := by
  unfold OneLogThread
  cases hsect with
  | @store _ r c hroom hsignal =>
      rw [← (perm_of_signal hsignal).count_eq, h]
      simp
  | @full _ r hfull =>
      show (LogWaiter.writer r :: s.logCond.asleep ++ s.logCond.woken).count _ = _
      rw [List.cons_append, List.count_cons_of_ne (by simp), h]
      simp
  | take hsome => simpa using h
  | empty hnone =>
      show (LogWaiter.logThread :: s.logCond.asleep ++ s.logCond.woken).count _ = _
      rw [List.cons_append, List.count_cons_self, h]
      simp

/-- No section puts the log to sleep for good, unless `log_thread` goes to sleep over a
writer.  `woken` are the threads woken before the section. -/
theorem LogSection.not_slept {s t : LogState} {w : LogWaiter} {e : LogEvent}
    (hsect : LogSection w s e t) (hthread : w = .logThread → .logThread ∉ s.logCond.asleep)
    (hwakes : e = .sleeps .logThread →
      (∀ r, .writer r ∉ s.logCond.asleep) ∨ s.logCond.woken ≠ []) : ¬ Slept t := by
  intro hslept
  cases hsect with
  | @store _ r c hroom hsignal =>
      -- a signal nobody hears was sent with nobody asleep
      obtain ⟨hnone, rfl⟩ | ⟨x, -, hwoken⟩ := hsignal.cases
      · have hmem : LogWaiter.logThread ∈ s.logCond.asleep := hslept.logThread
        rw [hnone] at hmem
        exact absurd hmem (List.not_mem_nil)
      · have hnil : c.woken = [] := hslept.woken
        rw [hwoken] at hnil
        exact List.cons_ne_nil _ _ hnil
  | full hfull => exact absurd hslept.room (Nat.not_lt.mpr hfull)
  | take hsome => exact hthread rfl hslept.logThread
  | empty hnone =>
      obtain ⟨r, hr⟩ := hslept.writer
      rcases hwakes rfl with hwriters | hwoken
      · rcases List.mem_cons.mp hr with heq | hr
        · cases heq
        · exact hwriters r hr
      · exact hwoken hslept.woken

/-- What one step keeps. -/
theorem LogStep.wakes {s t : LogState} {e : LogEvent} (hstep : LogStep s e t)
    (hfirst : WakesFirst s e) (hone : OneLogThread s) : OneLogThread t ∧ ¬ Slept t := by
  unfold OneLogThread at hone
  cases hstep with
  | call hsect =>
      refine ⟨hsect.oneLogThread (by simpa using hone), hsect.not_slept (by simp) ?_⟩
      intro he
      cases hsect <;> cases he
  | loop hready hsect =>
      rw [hready, if_pos rfl] at hone
      have hnot := List.count_eq_zero.mp hone
      refine ⟨hsect.oneLogThread (by simpa using hone), hsect.not_slept ?_ fun he => ?_⟩
      · intro _ hmem
        exact hnot (List.mem_append_left _ hmem)
      · refine (hfirst he).imp_right ?_
        rintro ⟨r, hr⟩
        exact List.ne_nil_of_mem hr
  | @resume _ _ w c hgets hsect =>
      obtain ⟨hasleep, hwoken⟩ := hgets.cases
      have hperm : (s.logCond.asleep ++ s.logCond.woken).Perm (w :: (c.asleep ++ c.woken)) := by
        rw [hasleep]
        exact (hwoken.append_left _).trans List.perm_middle
      rw [hperm.count_eq, List.count_cons] at hone
      refine ⟨hsect.oneLogThread ?_, hsect.not_slept ?_ fun he => ?_⟩
      · show (c.asleep ++ c.woken).count _ = if s.atLock ∨ w = _ then 0 else 1
        cases w with
        | writer r => simpa using hone
        | logThread =>
            rw [if_pos (beq_self_eq_true _)] at hone
            rw [if_pos (Or.inr rfl)]
            split at hone <;> omega
      · rintro rfl hmem
        have hpos : 0 < (c.asleep ++ c.woken).count .logThread :=
          List.count_pos_iff.mpr (List.mem_append_left c.woken hmem)
        rw [if_pos (beq_self_eq_true _)] at hone
        split at hone <;> omega
      · rcases hfirst he with hwriters | ⟨r, hr⟩
        · exact Or.inl (by show ∀ r, _ ∉ c.asleep; rwa [hasleep])
        · refine Or.inr ?_
          show c.woken ≠ []
          -- the one that goes to sleep is `log_thread`, so the woken writer is another
          have hw : w = .logThread := by
            cases hsect with
            | store => cases he
            | full => cases he
            | take => cases he
            | empty => rfl
          subst hw
          rcases List.mem_cons.mp (hwoken.mem_iff.mp hr) with heq | hr
          · cases heq
          · exact List.ne_nil_of_mem hr
  | @spurious c hwakes =>
      obtain ⟨x, hasleep, hwoken⟩ := hwakes.cases
      refine ⟨?_, fun hslept => ?_⟩
      · unfold OneLogThread
        rwa [← (perm_of_wakes hasleep hwoken).count_eq]
      · have hnil : c.woken = [] := hslept.woken
        rw [hwoken] at hnil
        exact List.cons_ne_nil _ _ hnil

/-- In every run in which `log_thread` never goes to sleep over a sleeping writer, no writer
sleeps unsignalled over a buffer with room. -/
theorem log_wakes {s : LogState} {es : List LogEvent}
    (h : Steps (fun s e t => LogStep s e t ∧ WakesFirst s e) logInit es s) : ¬ Slept s := by
  have hall : OneLogThread s ∧ ¬ Slept s := by
    induction h with
    | nil =>
        refine ⟨rfl, ?_⟩
        rintro ⟨⟨r, hr⟩, -⟩
        cases hr
    | snoc _ hstep ih => exact hstep.1.wakes hstep.2 ih.1
  exact hall.2

/-! ## A full buffer -/

/-- So many records are stored while `log_thread` is before its lock. -/
theorem exists_stored (r : LogRecord) (num : ℕ) (hnum : num ≤ logBufferSize) :
    ∃ s es, Steps (fun s e t => LogStep s e t ∧ WakesFirst s e) logInit es s ∧
      s.logBufferCount = num ∧ s.logCond = .none ∧ s.atLock = true := by
  induction num with
  | zero => exact ⟨logInit, [], .nil, rfl, rfl, rfl⟩
  | succ num ih =>
      obtain ⟨s, es, hrun, hcount, hcond, hlock⟩ := ih (Nat.le_of_succ_le hnum)
      have hroom : s.logBufferCount < logBufferSize := by omega
      have hsignal : Waiters.Signal s.logCond s.logCond := .lost (by rw [hcond]; rfl)
      refine ⟨_, _, hrun.snoc ⟨.call (.store (r := r) hroom hsignal), by rintro ⟨⟩⟩, ?_, hcond,
        hlock⟩
      show s.logBufferCount + 1 = num + 1
      rw [hcount]

/-- A writer finds the buffer full and sleeps; `log_thread` makes room, the next writer's signal
wakes the sleeper, and it stores its record. -/
theorem log_wakes_writer : ∃ (s : LogState) (es : List LogEvent),
    Steps (fun s e t => LogStep s e t ∧ WakesFirst s e) logInit es s ∧
      .sleeps (.writer recordB) ∈ es ∧ .stored recordB ∈ es ∧ ¬ Slept s := by
  obtain ⟨s, es, hrun, hcount, hcond, hlock⟩ := exists_stored recordA logBufferSize le_rfl
  have hpos : 0 < logBufferSize := by decide
  have hasleep : s.logCond.sleep (.writer recordB) = ⟨[] ++ .writer recordB :: [], []⟩ := by
    rw [hcond]
    rfl
  have hsleep : LogStep s (.sleeps (.writer recordB))
      { s with logCond := s.logCond.sleep (.writer recordB) } := .call (.full hcount.ge)
  rw [hasleep] at hsleep
  have hall := (((((hrun.snoc ⟨hsleep, by rintro ⟨⟩⟩).snoc
    ⟨.loop hlock (.take (by rw [hcount]; exact hpos)), by rintro ⟨⟩⟩).snoc
    ⟨.call (.store (r := recordA) (by show s.logBufferCount - 1 < _; omega) .wakes),
      by rintro ⟨⟩⟩).snoc
    ⟨.loop rfl (.take (Nat.succ_pos _)), by rintro ⟨⟩⟩).snoc
    ⟨.resume (.gets (a := []) (b := []))
      (.store (r := recordB) (by show s.logBufferCount - 1 + 1 - 1 < _; omega) (.lost rfl)),
      by rintro ⟨⟩⟩)
  exact ⟨_, _, hall, by simp, by simp, log_wakes hall⟩

/-- `log_thread` writes all there is in the buffer. -/
theorem exists_written {s : LogState} (hlock : s.atLock = true) :
    ∃ t es, Steps LogStep s es t ∧ t.logBufferCount = 0 ∧ t.logCond = s.logCond ∧
      t.atLock = true := by
  induction hcount : s.logBufferCount generalizing s with
  | zero => exact ⟨s, [], .nil, hcount, rfl, hlock⟩
  | succ num ih =>
      have htake : LogStep s _ _ := .loop hlock (.take (by omega))
      have hless : s.logBufferCount - 1 = num := by omega
      obtain ⟨t, es, hrun, hzero, hcond, htlock⟩ := ih (s := { s with
        logBufferCount := s.logBufferCount - 1
        atLock := true
        file := s.file ++ [s.logBuffer.get ⟨0, by decide⟩] }) rfl hless
      exact ⟨t, _, (Steps.nil.snoc htake).append hrun, hzero, hcond, htlock⟩

/-- The buffer is filled and a writer sleeps; `log_thread` writes everything, wakes nobody
and goes to sleep. -/
theorem log_sleeps : ¬ ∀ (es : List LogEvent) (s : LogState),
    Steps LogStep logInit es s → ¬ Slept s := by
  intro hall
  obtain ⟨s, es, hrun, hcount, hcond, hlock⟩ := exists_stored recordA logBufferSize le_rfl
  have hfull : LogStep s (.sleeps (.writer recordB))
      { s with logCond := s.logCond.sleep (.writer recordB) } := .call (.full hcount.ge)
  obtain ⟨t, es', hrun', hzero, hcond', hlock'⟩ := exists_written
    (s := { s with logCond := s.logCond.sleep (.writer recordB) }) hlock
  have hempty : LogStep t (.sleeps .logThread)
      { t with logCond := t.logCond.sleep .logThread, atLock := false } :=
    .loop hlock' (.empty hzero)
  have hwaits : t.logCond = ⟨[.writer recordB], []⟩ := by
    rw [hcond']
    show s.logCond.sleep _ = _
    rw [hcond]
    rfl
  have hrun := hrun.mono fun _ _ _ h => h.1
  refine hall _ _ (((hrun.snoc hfull).append hrun').snoc hempty) ⟨⟨recordB, ?_⟩, ?_, ?_, ?_⟩
  · show _ ∈ (t.logCond.sleep .logThread).asleep
    rw [hwaits]
    simp [Waiters.sleep]
  · show t.logBufferCount < logBufferSize
    rw [hzero]
    decide
  · show (t.logCond.sleep .logThread).woken = []
    rw [hwaits]
    rfl
  · show _ ∈ (t.logCond.sleep .logThread).asleep
    exact List.mem_cons_self
