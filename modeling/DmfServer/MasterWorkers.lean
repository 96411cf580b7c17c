/-
# The workers that there are

Where no `fork` of `start_worker` fails and the worker function does not return there, the table
`worker` of the master is what there is: every process that has not ended, other than the master,
stands in it, and in one place only.  So there are never more than `DEFAULT_WORKER_NUM` of them,
whatever ends, is restarted or is signalled (`workers_le`), and `waitpid` never fails for the
master.  And when the master has looked through its table while nothing ended, all of them are at
work again (`workers_restored`).
-/
import DmfServer.Master
import Mathlib.Data.Set.Card

open StepSystem

/-- The process has not ended. -/
def Alive (s : Processes) (q : Process) : Prop := ∃ st, s q = some st ∧ st.place ≠ .ended

/-- The processes at work: all that have not ended, but the master. -/
def workersOf (s : Processes) : Set Process := {q | q ≠ .master ∧ Alive s q}

/-- The first `n` entries of the table are children of the master, all different, and no process
is alive that is not in it. -/
structure Supervised (s : Processes) (n : ℕ) (m : ProcessState) : Prop where
  master : s .master = some m
  place : MasterAt n m.place
  bound : n ≤ defaultWorkerNum
  filled : ∀ i : Fin defaultWorkerNum, (i : ℕ) < n →
    ∃ w st, m.worker i = some w ∧ w.parent = some .master ∧ s w = some st
  empty : ∀ i : Fin defaultWorkerNum, n ≤ (i : ℕ) → m.worker i = none
  apart : ∀ i j w, m.worker i = some w → m.worker j = some w → i = j
  kept : ∀ q ∈ workersOf s, ∃ i, m.worker i = some q

section
variable {s : Processes} {n : ℕ} {m : ProcessState}

/-- A child of the master is not the master. -/
theorem ne_master {w : Process} (h : w.parent = some .master) : w ≠ .master := by
  rintro rfl
  cases h

/-- What stands in the table is there. -/
theorem Supervised.there (h : Supervised s n m) {i : Fin defaultWorkerNum} {w : Process}
    (hw : m.worker i = some w) : w.parent = some .master ∧ ∃ st, s w = some st := by
  have hi : (i : ℕ) < n := by
    by_contra hi
    rw [h.empty i (Nat.le_of_not_lt hi)] at hw
    cases hw
  obtain ⟨w', st, hw', hparent, hst⟩ := h.filled i hi
  obtain rfl := Option.some.inj (hw.symm.trans hw')
  exact ⟨hparent, st, hst⟩

/-- The master has come to another place. -/
theorem Supervised.move (h : Supervised s n m) {n' : ℕ} {m' : ProcessState}
    (hworker : m'.worker = m.worker) (hplace : MasterAt n' m'.place) (hn : n' = n) :
    Supervised (afterMove s .master m' none) n' m' := by
  subst hn
  refine ⟨afterMove_none_self, hplace, h.bound, ?_, ?_, ?_, ?_⟩
  · intro i hi
    obtain ⟨w, st, hw, hparent, hst⟩ := h.filled i hi
    refine ⟨w, st, ?_, hparent, ?_⟩
    · rw [hworker, hw]
    · rw [afterMove_none_of_ne (ne_master hparent), hst]
  · intro i hi
    rw [hworker, h.empty i hi]
  · intro i j w hi hj
    rw [hworker] at hi hj
    exact h.apart i j w hi hj
  · rintro q ⟨hq, st, hst, halive⟩
    rw [afterMove_none_of_ne hq] at hst
    rw [hworker]
    exact h.kept q ⟨hq, st, hst, halive⟩

/-- A new process has taken the place of one that has ended, or a place that was free. -/
theorem Supervised.replace (h : Supervised s n m) {n' : ℕ} {m' cst : ProcessState} {c : Process}
    {i : Fin defaultWorkerNum} (hworker : m'.worker = Function.update m.worker i (some c))
    (hplace : MasterAt n' m'.place) (hbound : n' ≤ defaultWorkerNum) (hnew : s c = none)
    (hparent : c.parent = some .master)
    (hold : ∀ q, m.worker i = some q → ¬ Alive s q) (hi : (i : ℕ) < n')
    (hn : ∀ j : Fin defaultWorkerNum, j ≠ i → ((j : ℕ) < n' ↔ (j : ℕ) < n)) :
    Supervised (afterMove s .master m' (some (c, cst))) n' m' := by
  have hself : m'.worker i = some c := by rw [hworker, Function.update_self]
  have hother : ∀ j, j ≠ i → m'.worker j = m.worker j := by
    intro j hj
    rw [hworker, Function.update_of_ne hj]
  -- what stands in the table is neither the master nor the new process
  have hstays : ∀ {j : Fin defaultWorkerNum} {w : Process}, m.worker j = some w →
      w ≠ c ∧ afterMove s .master m' (some (c, cst)) w = s w := by
    intro j w hw
    obtain ⟨hwparent, st, hst⟩ := h.there hw
    have hwc : w ≠ c := by
      rintro rfl
      rw [hnew] at hst
      cases hst
    refine ⟨hwc, afterMove_of_ne (ne_master hwparent) ?_⟩
    rintro _ _ ⟨⟩
    exact hwc
  refine ⟨?_, hplace, hbound, ?_, ?_, ?_, ?_⟩
  · apply afterMove_self
    rintro _ _ ⟨⟩
    exact ne_master hparent
  · intro j hj
    by_cases hji : j = i
    · subst hji
      exact ⟨c, cst, hself, hparent, afterMove_child⟩
    · obtain ⟨w, st, hw, hwparent, hst⟩ := h.filled j ((hn j hji).mp hj)
      refine ⟨w, st, ?_, hwparent, ?_⟩
      · rw [hother j hji, hw]
      · rw [(hstays hw).2, hst]
  · intro j hj
    have hji : j ≠ i := by
      rintro rfl
      exact absurd hi (Nat.not_lt.mpr hj)
    rw [hother j hji]
    apply h.empty
    by_contra hlt
    exact absurd ((hn j hji).mpr (Nat.lt_of_not_le hlt)) (Nat.not_lt.mpr hj)
  · intro j k w hj hk
    by_cases hji : j = i
    · by_cases hki : k = i
      · rw [hji, hki]
      · subst hji
        obtain rfl := Option.some.inj (hself.symm.trans hj)
        rw [hother k hki] at hk
        exact absurd rfl (hstays hk).1
    · by_cases hki : k = i
      · subst hki
        obtain rfl := Option.some.inj (hself.symm.trans hk)
        rw [hother j hji] at hj
        exact absurd rfl (hstays hj).1
      · rw [hother j hji] at hj
        rw [hother k hki] at hk
        exact h.apart j k w hj hk
  · rintro q ⟨hq, st, hst, halive⟩
    rcases of_afterMove hst with hc | ⟨rfl, -⟩ | ⟨-, hbefore⟩
    · cases hc
      exact ⟨i, hself⟩
    · exact absurd rfl hq
    · obtain ⟨j, hj⟩ := h.kept q ⟨hq, st, hbefore, halive⟩
      refine ⟨j, ?_⟩
      have hji : j ≠ i := by
        rintro rfl
        exact hold q hj ⟨st, hbefore, halive⟩
      rw [hother j hji, hj]

/-- A worker has moved. -/
theorem Supervised.worker (h : Supervised s n m) {p : Process} {st st' : ProcessState}
    (hp : s p = some st) (hpm : p ≠ .master)
    (halive : st'.place ≠ .ended → st.place ≠ .ended) :
    Supervised (afterMove s p st' none) n m := by
  refine ⟨?_, h.place, h.bound, ?_, h.empty, h.apart, ?_⟩
  · rw [afterMove_none_of_ne hpm.symm, h.master]
  · intro i hi
    obtain ⟨w, wst, hw, hparent, hwst⟩ := h.filled i hi
    by_cases hwp : w = p
    · subst hwp
      exact ⟨w, st', hw, hparent, afterMove_none_self⟩
    · refine ⟨w, wst, hw, hparent, ?_⟩
      rw [afterMove_none_of_ne hwp, hwst]
  · rintro q ⟨hq, qst, hqst, hqalive⟩
    by_cases hqp : q = p
    · subst hqp
      rw [afterMove_none_self] at hqst
      obtain rfl := Option.some.inj hqst
      exact h.kept q ⟨hq, st, hp, halive hqalive⟩
    · rw [afterMove_none_of_ne hqp] at hqst
      exact h.kept q ⟨hq, qst, hqst, hqalive⟩

end

/-! ## Every run -/

section
variable {world : Behaviour} {s : Processes} {e : MasterEvent}
  {child : Option (Process × ProcessState)}

/-- A process that has ended does not come back. -/
theorem ProcessMove.alive {p : Process} {st st' : ProcessState}
    (h : ProcessMove world s p st e st' child) (halive : st'.place ≠ .ended) :
    st.place ≠ .ended := by
  cases h with
  | signal hplace => exact hplace
  | restartFailed _ _ _ | waitFailed _ _ _ | returnRestarted _ _ | kill => exact absurd rfl halive
  | fork _ hplace _ | forkFailed _ hplace _ | started _ hplace | returnStart hplace _
  | watch hplace _ | stop hplace _ | running _ hplace _ | restart _ hplace _ | sleep _ hplace =>
      rw [hplace]
      exact nofun

/-- A process that `waitpid` says is down has ended. -/
theorem Waits.not_alive {p q : Process} (h : Waits s p (some q) .down) : ¬ Alive s q := by
  obtain ⟨-, st, hst, hended⟩ := h
  rintro ⟨st', hst', halive⟩
  obtain rfl := Option.some.inj (hst.symm.trans hst')
  exact halive hended

/-- A move of the master keeps the table. -/
theorem Supervised.of_master {n : ℕ} {m m' : ProcessState} (h : Supervised s n m)
    (hnamed : Named s) (hforks : ∀ i < defaultWorkerNum, world.forks .master i = true)
    (hmove : ProcessMove world s .master m e m' child) :
    ∃ n', Supervised (afterMove s .master m' child) n' m' := by
  have hfull : ∀ place : ProcessAt, m.place = place → place.watches = true →
      n = defaultWorkerNum := by
    rintro place rfl hwatches
    exact h.place.eq_of_watches hwatches
  have hnew : ∀ c cst, child = some (c, cst) → s c = none := by
    intro c cst hc
    exact hnamed.fresh h.master hmove hc
  cases hmove with
  | @fork i hi hplace _ =>
      obtain rfl := MasterAt.eq_of_starting (hplace ▸ h.place)
      refine ⟨i + 1, h.replace rfl (.inl rfl) hi (hnew _ _ rfl) rfl ?_ (Nat.lt_succ_self i) ?_⟩
      · intro q hq
        rw [h.empty ⟨i, hi⟩ le_rfl] at hq
        cases hq
      · intro j hj
        have hne : (j : ℕ) ≠ i := fun heq => hj (Fin.ext heq)
        omega
  | forkFailed hi _ hfail =>
      rw [hforks _ hi] at hfail
      cases hfail
  | @started i hi hplace =>
      obtain rfl := MasterAt.eq_of_starting (hplace ▸ h.place)
      exact ⟨i, h.move rfl (.inr (.inl ⟨rfl, le_antisymm h.bound hi⟩)) rfl⟩
  | returnStart hplace _ => exact absurd hplace (h.place.not_working.1 _)
  | returnRestarted hplace _ => exact absurd hplace h.place.not_working.2
  | watch hplace _ | stop hplace _ | running _ hplace _ | sleep _ hplace =>
      exact ⟨n, h.move rfl (.inr (.inl ⟨rfl, hfull _ hplace rfl⟩)) rfl⟩
  | @restart i hi hplace hdown =>
      have hn := hfull _ hplace rfl
      refine ⟨n, h.replace rfl (.inr (.inl ⟨rfl, hn⟩)) h.bound (hnew _ _ rfl) rfl ?_ (hn ▸ hi) ?_⟩
      · intro q hq
        rw [hq] at hdown
        exact hdown.not_alive
      · intro j _
        exact Iff.rfl
  | restartFailed _ _ _ | waitFailed _ _ _ | kill => exact ⟨n, h.move rfl (.inr (.inr rfl)) rfl⟩
  | signal _ => exact ⟨n, h.move rfl h.place rfl⟩

end

section
variable {world : Behaviour}
  (hforks : ∀ i < defaultWorkerNum, world.forks .master i = true)
  (hreturns : ∀ i < defaultWorkerNum, world.returns (.started .master i) = false)
include hforks hreturns

/-- So does a step of any process. -/
theorem Supervised.step {es : List MasterEvent} {s t : Processes} {e : MasterEvent} {n : ℕ}
    {m : ProcessState} (h : Supervised s n m) (hrun : Steps (MasterStep world) masterInit es s)
    (hstep : MasterStep world s e t) : ∃ n' m', Supervised t n' m' := by
  have hmade := madeByMaster_of_steps hforks hreturns hrun
  cases hstep with
  | @move p st st' _ child hp hmove =>
      by_cases hpm : p = .master
      · subst hpm
        obtain rfl := Option.some.inj (h.master.symm.trans hp)
        obtain ⟨n', hn'⟩ := h.of_master (named_of_steps hrun) hforks hmove
        exact ⟨n', st', hn'⟩
      · obtain ⟨rfl, -, -⟩ := hmove.of_worker hreturns (hmade.workers p st hp hpm)
        exact ⟨n, m, h.worker hp hpm hmove.alive⟩

theorem supervised_of_steps {es : List MasterEvent} {s : Processes}
    (h : Steps (MasterStep world) masterInit es s) : ∃ n m, Supervised s n m := by
  induction h with
  | nil =>
      refine ⟨0, _, Function.update_self _ _ _, .inl rfl, Nat.zero_le _, ?_, ?_, ?_, ?_⟩
      · intro i hi
        exact absurd hi (Nat.not_lt_zero _)
      · intro i _
        rfl
      · rintro i j w ⟨⟩
      · rintro q ⟨hq, st, hst, -⟩
        rw [masterInit, Function.update_of_ne hq] at hst
        cases hst
  | snoc hrun hstep ih =>
      obtain ⟨n, m, hsup⟩ := ih
      exact hsup.step hforks hreturns hrun hstep

/-- In every run there are at most as many workers as the table has entries, and `waitpid` never
fails for the master. -/
theorem workers_le {es : List MasterEvent} {s : Processes}
    (h : Steps (MasterStep world) masterInit es s) :
    (workersOf s).encard ≤ defaultWorkerNum ∧
      ∀ m i, s .master = some m → m.place = .checking i → ∀ hi : i < defaultWorkerNum,
        ¬ Waits s .master (m.worker ⟨i, hi⟩) .failed := by
  obtain ⟨n, m, hsup⟩ := supervised_of_steps hforks hreturns h
  constructor
  · have hsub : workersOf s ⊆ (fun i => (m.worker i).getD .master) '' Set.univ := by
      intro q hq
      obtain ⟨i, hi⟩ := hsup.kept q hq
      refine ⟨i, Set.mem_univ i, ?_⟩
      dsimp only
      rw [hi, Option.getD_some]
    calc (workersOf s).encard ≤ ((fun i => (m.worker i).getD .master) '' Set.univ).encard :=
          Set.encard_le_encard hsub
      _ ≤ (Set.univ : Set (Fin defaultWorkerNum)).encard := Set.encard_image_le _ _
      _ = defaultWorkerNum := by simp
  · intro m' i hm' hplace hi hfailed
    obtain rfl := Option.some.inj (hsup.master.symm.trans hm')
    have hn : n = defaultWorkerNum := hsup.place.eq_of_watches (by rw [hplace]; rfl)
    obtain ⟨w, st, hw, hparent, -⟩ := hsup.filled ⟨i, hi⟩ (hn ▸ hi)
    rw [hw] at hfailed
    exact hfailed hparent

end

/-! ## When nothing ends -/

/-- A step in which no process ends. -/
def CalmStep (world : Behaviour) (s : Processes) (e : MasterEvent) (t : Processes) : Prop :=
  MasterStep world s e t ∧ ∀ q, Alive s q → Alive t q

/-- The first `i` processes of the table are at work. -/
def AtWork (s : Processes) (m : ProcessState) (i : ℕ) : Prop :=
  ∀ j : Fin defaultWorkerNum, (j : ℕ) < i → ∃ w, m.worker j = some w ∧ Alive s w

/-- How far the master has looked since it last began: it has replaced what had ended so far. -/
def Looked (s : Processes) (m : ProcessState) : Prop :=
  AtWork s m defaultWorkerNum ∨ ∃ i, m.place = .checking i ∧ AtWork s m i

section
variable {world : Behaviour} {s t : Processes} {m m' : ProcessState} {n i : ℕ}

/-- Where nothing ends, and the table stays, what is at work stays so. -/
theorem AtWork.calm (h : AtWork s m i) (hcalm : ∀ q, Alive s q → Alive t q)
    (hworker : m'.worker = m.worker) : AtWork t m' i := by
  intro j hj
  obtain ⟨w, hw, halive⟩ := h j hj
  exact ⟨w, by rw [hworker, hw], hcalm w halive⟩

/-- One more is at work. -/
theorem AtWork.succ (h : AtWork s m i) (hi : i < defaultWorkerNum) {w : Process}
    (hw : m.worker ⟨i, hi⟩ = some w) (halive : Alive s w) : AtWork s m (i + 1) := by
  intro j hj
  rcases Nat.lt_succ_iff_lt_or_eq.mp hj with hlt | heq
  · exact h j hlt
  · obtain rfl : j = ⟨i, hi⟩ := Fin.ext heq
    exact ⟨w, hw, halive⟩

/-- A move of the master, where nothing ends, is a look at one more entry, at most. -/
theorem Looked.of_master {e : MasterEvent} {child : Option (Process × ProcessState)}
    (hlooked : Looked s m) (h : Supervised s n m) (hmove : ProcessMove world s .master m e m' child)
    (hcalm : ∀ q, Alive s q → Alive (afterMove s .master m' child) q) :
    Looked (afterMove s .master m' child) m' := by
  have hmoved := hmove.moved
  -- the master has not ended
  have hends : m.place ≠ .ended → m'.place ≠ .ended := by
    intro halive hended
    obtain ⟨st, hst, hplace⟩ := hcalm .master ⟨m, h.master, halive⟩
    obtain rfl := Option.some.inj (hmoved.symm.trans hst)
    exact hplace hended
  have hkeeps : m'.worker = m.worker → m'.place = m.place →
      Looked (afterMove s .master m' child) m' := by
    intro hworker hplace
    rcases hlooked with hall | ⟨i, hi, hwork⟩
    · exact .inl (hall.calm hcalm hworker)
    · exact .inr ⟨i, hplace.trans hi, hwork.calm hcalm hworker⟩
  have hall : (∀ i, m.place ≠ .checking i) → m'.worker = m.worker →
      Looked (afterMove s .master m' child) m' := by
    intro hnot hworker
    rcases hlooked with hall | ⟨i, hi, -⟩
    · exact .inl (hall.calm hcalm hworker)
    · exact absurd hi (hnot i)
  have hsofar : ∀ i, m.place = .checking i → AtWork s m i ∨ AtWork s m defaultWorkerNum := by
    intro i hi
    rcases hlooked with hall | ⟨j, hj, hwork⟩
    · exact .inr hall
    · obtain rfl := ProcessAt.checking.inj (hi.symm.trans hj)
      exact .inl hwork
  cases hmove with
  | @fork i hi hplace _ =>
      obtain rfl := MasterAt.eq_of_starting (hplace ▸ h.place)
      rcases hlooked with hfull | ⟨j, hj, -⟩
      · obtain ⟨w, hw, -⟩ := hfull ⟨i, hi⟩ hi
        rw [h.empty ⟨i, hi⟩ le_rfl] at hw
        cases hw
      · rw [hplace] at hj
        cases hj
  | forkFailed _ hplace _ | started _ hplace | watch hplace _ | stop hplace _ =>
      refine hall ?_ rfl
      rw [hplace]
      exact nofun
  | returnStart hplace _ => exact absurd hplace (h.place.not_working.1 _)
  | returnRestarted hplace _ => exact absurd hplace h.place.not_working.2
  | @running i hi hplace hrunning =>
      rcases hsofar i hplace with hwork | hfull
      · have hn : n = defaultWorkerNum := h.place.eq_of_watches (by rw [hplace]; rfl)
        obtain ⟨w, st, hw, -, -⟩ := h.filled ⟨i, hi⟩ (hn ▸ hi)
        rw [hw] at hrunning
        exact .inr ⟨i + 1, rfl, (hwork.succ hi hw hrunning.2).calm hcalm rfl⟩
      · exact .inl (hfull.calm hcalm rfl)
  | @restart i hi hplace hdown =>
      rcases hsofar i hplace with hwork | hfull
      · refine .inr ⟨i + 1, rfl, ?_⟩
        intro j hj
        by_cases hji : j = ⟨i, hi⟩
        · refine ⟨.restarted .master m.restarts, ?_, _, afterMove_child, nofun⟩
          dsimp only
          rw [hji, Function.update_self]
        · have hne : (j : ℕ) ≠ i := fun heq => hji (Fin.ext heq)
          obtain ⟨w, hw, halive⟩ := hwork j (by omega)
          refine ⟨w, ?_, hcalm w halive⟩
          dsimp only
          rw [Function.update_of_ne hji, hw]
      · -- what has ended is not at work
        obtain ⟨w, hw, halive⟩ := hfull ⟨i, hi⟩ hi
        rw [hw] at hdown
        exact absurd halive hdown.not_alive
  | @sleep i hi hplace =>
      rcases hsofar i hplace with hwork | hfull
      · refine .inl (AtWork.calm (fun j hj => hwork j (hj.trans_le hi)) hcalm rfl)
      · exact .inl (hfull.calm hcalm rfl)
  | restartFailed _ hplace _ | waitFailed _ hplace _ =>
      exact absurd rfl (hends (by rw [hplace]; exact nofun))
  | kill =>
      refine hall ?_ rfl
      intro i hi
      exact absurd rfl (hends (by rw [hi]; exact nofun))
  | signal _ => exact hkeeps rfl rfl

end

section
variable {world : Behaviour}
  (hforks : ∀ i < defaultWorkerNum, world.forks .master i = true)
  (hreturns : ∀ i < defaultWorkerNum, world.returns (.started .master i) = false)
include hforks hreturns

/-- A step in which nothing ends takes nothing back of what the master has looked at. -/
theorem Looked.step {es : List MasterEvent} {s t : Processes} {e : MasterEvent} {m : ProcessState}
    (hlooked : Looked s m) (hm : s .master = some m)
    (hrun : Steps (MasterStep world) masterInit es s) (hstep : CalmStep world s e t) :
    ∃ m', t .master = some m' ∧ Looked t m' := by
  obtain ⟨n, m₁, hsup⟩ := supervised_of_steps hforks hreturns hrun
  obtain rfl := Option.some.inj (hm.symm.trans hsup.master)
  obtain ⟨hmaster, hcalm⟩ := hstep
  cases hmaster with
  | @move p st st' _ child hp hmove =>
      by_cases hpm : p = .master
      · subst hpm
        obtain rfl := Option.some.inj (hm.symm.trans hp)
        exact ⟨st', hmove.moved, hlooked.of_master hsup hmove hcalm⟩
      · have hmade := madeByMaster_of_steps hforks hreturns hrun
        obtain ⟨rfl, -, -⟩ := hmove.of_worker hreturns (hmade.workers p st hp hpm)
        refine ⟨m, ?_, ?_⟩
        · rw [afterMove_none_of_ne (Ne.symm hpm), hm]
        · rcases hlooked with hall | ⟨i, hi, hwork⟩
          · exact .inl (hall.calm hcalm rfl)
          · exact .inr ⟨i, hi, hwork.calm hcalm rfl⟩

/-- When the master has looked through its table while nothing ended, all the workers are at
work: they are the processes of the table, one in every entry. -/
theorem workers_restored {es es' : List MasterEvent} {s t : Processes} {m m' : ProcessState}
    (h : Steps (MasterStep world) masterInit es s) (hm : s .master = some m)
    (hbegin : m.place = .checking 0) (hcalm : Steps (CalmStep world) s es' t)
    (hm' : t .master = some m') (hend : m'.place = .watching) :
    (workersOf t).encard = defaultWorkerNum ∧
      ∀ q, q ∈ workersOf t ↔ ∃ i, m'.worker i = some q := by
  have hlooked : ∃ m₁, t .master = some m₁ ∧ Looked t m₁ := by
    clear hm' hend
    induction hcalm with
    | nil =>
        refine ⟨m, hm, .inr ⟨0, hbegin, ?_⟩⟩
        intro j hj
        exact absurd hj (Nat.not_lt_zero _)
    | snoc hfront hstep ih =>
        obtain ⟨m₁, hm₁, hlooked⟩ := ih
        exact hlooked.step hforks hreturns hm₁
          (h.append (hfront.mono fun _ _ _ hstep => hstep.1)) hstep
  obtain ⟨m₁, hm₁, hlooked⟩ := hlooked
  obtain rfl := Option.some.inj (hm'.symm.trans hm₁)
  obtain ⟨n, m₂, hsup⟩ := supervised_of_steps hforks hreturns
    (h.append (hcalm.mono fun _ _ _ hstep => hstep.1))
  obtain rfl := Option.some.inj (hm'.symm.trans hsup.master)
  have hwork : AtWork t m' defaultWorkerNum := by
    rcases hlooked with hall | ⟨i, hi, -⟩
    · exact hall
    · rw [hend] at hi
      cases hi
  have hmem : ∀ q, q ∈ workersOf t ↔ ∃ i, m'.worker i = some q := by
    intro q
    constructor
    · exact hsup.kept q
    · rintro ⟨i, hi⟩
      obtain ⟨w, hw, halive⟩ := hwork i i.isLt
      obtain rfl := Option.some.inj (hi.symm.trans hw)
      exact ⟨ne_master (hsup.there hi).1, halive⟩
  refine ⟨?_, hmem⟩
  have himage : workersOf t = (fun i => (m'.worker i).getD .master) '' Set.univ := by
    ext q
    rw [hmem]
    constructor
    · rintro ⟨i, hi⟩
      refine ⟨i, Set.mem_univ i, ?_⟩
      dsimp only
      rw [hi, Option.getD_some]
    · rintro ⟨i, -, rfl⟩
      obtain ⟨w, hw, -⟩ := hwork i i.isLt
      exact ⟨i, by dsimp only; rw [hw, Option.getD_some]⟩
  have hinj : Set.InjOn (fun i => (m'.worker i).getD .master) Set.univ := by
    intro i _ j _ hij
    obtain ⟨w, hw, -⟩ := hwork i i.isLt
    obtain ⟨w', hw', -⟩ := hwork j j.isLt
    dsimp only at hij
    rw [hw, hw', Option.getD_some, Option.getD_some] at hij
    subst hij
    exact hsup.apart i j w hw hw'
  rw [himage, hinj.encard_image]
  simp

end

/-! ## A run in which nothing ends -/

/-- A worker function that never returns, and a `fork` that always succeeds. -/
def busyWorker : Behaviour := ⟨fun _ => false, fun _ _ => true⟩

/-- The rounds of `start_worker`, one after the other. -/
theorem exists_forks (n : ℕ) (hn : n ≤ defaultWorkerNum) :
    ∃ es t m, Steps (MasterStep busyWorker) masterInit es t ∧ t .master = some m ∧
      m.place = .starting n ∧ m.isRunning = true ∧ AtWork t m n := by
  induction n with
  | zero =>
      refine ⟨[], _, _, .nil, Function.update_self _ _ _, rfl, rfl, ?_⟩
      intro j hj
      exact absurd hj (Nat.not_lt_zero _)
  | succ n ih =>
      obtain ⟨es, s, m, hrun, hm, hplace, hrunning, hwork⟩ := ih (Nat.le_of_succ_le hn)
      obtain ⟨k, m₁, hsup⟩ := supervised_of_steps (fun _ _ => rfl) (fun _ _ => rfl) hrun
      obtain rfl := Option.some.inj (hm.symm.trans hsup.master)
      have hmove : ProcessMove busyWorker s .master m (.forked (.started .master n)) _ _ :=
        .fork hn hplace rfl
      refine ⟨_, _, _, hrun.snoc (.move hm hmove), hmove.moved, rfl, hrunning, ?_⟩
      intro j hj
      by_cases hjn : j = ⟨n, hn⟩
      · refine ⟨.started .master n, ?_, _, afterMove_child, nofun⟩
        dsimp only
        rw [hjn, Function.update_self]
      · have hne : (j : ℕ) ≠ n := fun heq => hjn (Fin.ext heq)
        obtain ⟨w, hw, st, hst, halive⟩ := hwork j (by omega)
        refine ⟨w, ?_, st, ?_, halive⟩
        · dsimp only
          rw [Function.update_of_ne hjn, hw]
        · rw [afterMove_of_ne (ne_master (hsup.there hw).1), hst]
          rintro _ _ ⟨⟩ rfl
          rw [child_new hrun hm hmove] at hst
          cases hst

/-- A move of the master alone, that does not end it, ends nothing. -/
theorem alive_afterMove {s : Processes} (m' : ProcessState) (hm' : m'.place ≠ .ended) {q : Process}
    (hq : Alive s q) : Alive (afterMove s .master m' none) q := by
  by_cases hqm : q = .master
  · subst hqm
    exact ⟨m', afterMove_none_self, hm'⟩
  · obtain ⟨st, hst, halive⟩ := hq
    exact ⟨st, by rw [afterMove_none_of_ne hqm, hst], halive⟩

/-- A look at the entries that are left, all of which are at work. -/
theorem exists_look (n : ℕ) {s : Processes} {m : ProcessState} {i : ℕ}
    (hm : s .master = some m) (hplace : m.place = .checking i) (hn : i + n = defaultWorkerNum)
    (hwork : AtWork s m defaultWorkerNum)
    (hparent : ∀ j w, m.worker j = some w → w.parent = some .master) :
    ∃ es t m', Steps (CalmStep busyWorker) s es t ∧ t .master = some m' ∧
      m'.place = .watching := by
  induction n generalizing s m i with
  | zero =>
      have hmove : ProcessMove busyWorker s .master m (.other .master)
          { m with place := .watching } none := .sleep (by omega) hplace
      exact ⟨_, _, _, Steps.nil.snoc ⟨.move hm hmove, fun q => alive_afterMove _ (by simp)⟩,
        hmove.moved, rfl⟩
  | succ n ih =>
      have hi : i < defaultWorkerNum := by omega
      obtain ⟨w, hw, halive⟩ := hwork ⟨i, hi⟩ hi
      have hmove : ProcessMove busyWorker s .master m (.other .master)
          { m with place := .checking (i + 1) } none := by
        refine .running hi hplace ?_
        rw [hw]
        exact ⟨hparent _ _ hw, halive⟩
      have hcalm : ∀ q, Alive s q →
          Alive (afterMove s .master { m with place := .checking (i + 1) } none) q :=
        fun q => alive_afterMove _ (by simp)
      obtain ⟨es, t, m', hrun, hm', hend⟩ :=
        ih hmove.moved rfl (by omega) (hwork.calm hcalm rfl) hparent
      exact ⟨_, t, m', Steps.cons ⟨.move hm hmove, hcalm⟩ hrun, hm', hend⟩

/-- Behind the six forks there are at most six workers. -/
theorem workers_le_busyWorker : ∃ es s, Steps (MasterStep busyWorker) masterInit es s ∧
    (workersOf s).encard ≤ defaultWorkerNum := by
  obtain ⟨es, s, m, hrun, -⟩ := exists_forks defaultWorkerNum le_rfl
  exact ⟨es, s, hrun, (workers_le (fun _ _ => rfl) (fun _ _ => rfl) hrun).1⟩

/-- And behind a look at them there are six. -/
theorem workers_restored_busyWorker : ∃ es s, Steps (MasterStep busyWorker) masterInit es s ∧
    (workersOf s).encard = defaultWorkerNum := by
  obtain ⟨es, s, m, hrun, hm, hplace, hrunning, hwork⟩ := exists_forks defaultWorkerNum le_rfl
  have hstarted : ProcessMove busyWorker s .master m (.other .master)
      { m with place := .watching } none := .started le_rfl hplace
  have hwatch : ProcessMove busyWorker (afterMove s .master { m with place := .watching } none)
      .master { m with place := .watching } (.other .master) { m with place := .checking 0 } none :=
    .watch rfl hrunning
  have hbegin := (hrun.snoc (.move hm hstarted)).snoc (.move hstarted.moved hwatch)
  obtain ⟨n, m₁, hsup⟩ := supervised_of_steps (fun _ _ => rfl) (fun _ _ => rfl) hbegin
  obtain rfl := Option.some.inj (hwatch.moved.symm.trans hsup.master)
  have hwork₁ : AtWork (afterMove s .master { m with place := .watching } none)
      { m with place := .watching } defaultWorkerNum :=
    hwork.calm (fun q => alive_afterMove _ (by simp)) rfl
  have hwork₂ : AtWork (afterMove (afterMove s .master { m with place := .watching } none) .master
      { m with place := .checking 0 } none) { m with place := .checking 0 } defaultWorkerNum :=
    hwork₁.calm (fun q => alive_afterMove _ (by simp)) rfl
  obtain ⟨es', t, m', hlook, hm', hend⟩ := exists_look defaultWorkerNum hwatch.moved rfl
    (Nat.zero_add _) hwork₂ fun j w hw => (hsup.there hw).1
  have hrestored := workers_restored (fun _ _ => rfl) (fun _ _ => rfl) hbegin hwatch.moved rfl hlook
    hm' hend
  exact ⟨_, t, hbegin.append (hlook.mono fun _ _ _ h => h.1), hrestored.1⟩
