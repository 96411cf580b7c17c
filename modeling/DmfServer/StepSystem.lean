/-
# Machines and their runs

A library about systems that take one step after the other, with nothing of any
particular system in it:

* `runOuts step` is the run of a machine that answers every input with an output;
  two machines that simulate each other step by step give the same outputs;
* `runExcept step` is the run of a machine that may come to a fault, and `Refines` says
  what it does by one that has no answer there, such as one `guarded` from the fault;
* `Steps step` is the run of a system that takes one of several steps; what every
  step keeps, every run keeps;
* `Waiters` are the threads at a condition variable, asleep or woken but without the
  lock yet.
-/
import Mathlib.Tactic

namespace StepSystem

/-! ## Machines that answer -/

section
variable {σ τ ι ω : Type}

/-- The run of a machine on a list of inputs: the state it ends in, and its outputs. -/
def runOuts (step : σ → ι → σ × ω) : σ → List ι → σ × List ω
  | s, [] => (s, [])
  | s, i :: is =>
      let rest := runOuts step (step s i).1 is
      (rest.1, (step s i).2 :: rest.2)

/-- Step by step, on the inputs that `P` allows, `R` is kept and the outputs agree. -/
def Simulates (R : σ → τ → Prop) (P : ι → Prop) (step : σ → ι → σ × ω)
    (step' : τ → ι → τ × ω) : Prop :=
  ∀ s t i, R s t → P i → R (step s i).1 (step' t i).1 ∧ (step s i).2 = (step' t i).2

/-- What holds of every step holds of every run. -/
theorem Simulates.runOuts {R : σ → τ → Prop} {P : ι → Prop} {step : σ → ι → σ × ω}
    {step' : τ → ι → τ × ω} (h : Simulates R P step step') {s : σ} {t : τ} (hst : R s t)
    {is : List ι} (his : ∀ i ∈ is, P i) :
    R (runOuts step s is).1 (runOuts step' t is).1 ∧
      (runOuts step s is).2 = (runOuts step' t is).2 := by
  induction is generalizing s t with
  | nil => exact ⟨hst, rfl⟩
  | cons i is ih =>
      obtain ⟨hR, hout⟩ := h s t i hst (his i List.mem_cons_self)
      obtain ⟨hR', houts⟩ := ih hR fun j hj => his j (List.mem_cons_of_mem _ hj)
      refine ⟨hR', ?_⟩
      show (step s i).2 :: _ = (step' t i).2 :: _
      rw [hout, houts]

/-- Inputs that leave `R` alone can be left out, with their outputs. -/
theorem Simulates.runOuts_filter {R : σ → τ → Prop} {P : ι → Prop} [DecidablePred P]
    {step : σ → ι → σ × ω} {step' : τ → ι → τ × ω} (h : Simulates R P step step')
    (hother : ∀ s t i, R s t → ¬ P i → R (step s i).1 t) {s : σ} {t : τ} (hst : R s t)
    (is : List ι) :
    ((is.zip (StepSystem.runOuts step s is).2).filter (fun p => P p.1)).map Prod.snd
      = (StepSystem.runOuts step' t (is.filter (fun i => P i))).2 := by
  induction is generalizing s t with
  | nil => rfl
  | cons i is ih =>
      rw [StepSystem.runOuts, List.zip_cons_cons]
      by_cases hi : P i
      · obtain ⟨hR, hout⟩ := h s t i hst hi
        rw [List.filter_cons_of_pos (by simpa using hi),
          List.filter_cons_of_pos (by simpa using hi),
          List.map_cons, ih hR, hout, StepSystem.runOuts]
      · rw [List.filter_cons_of_neg (by simpa using hi),
          List.filter_cons_of_neg (by simpa using hi)]
        exact ih (hother s t i hst hi)

end

/-! ## Machines that can fail -/

section
variable {σ τ ι κ ω ε : Type}

/-- The run of a machine that may come to a fault. -/
def runExcept (step : σ → ι → Except ε (σ × ω)) : σ → List ι → Except ε (σ × List ω)
  | s, [] => .ok (s, [])
  | s, i :: is => do
      let (s, o) ← step s i
      let (s, os) ← runExcept step s is
      .ok (s, o :: os)

/-- The run of a machine that may have no answer. -/
def runOption (step : τ → κ → Option (τ × ω)) : τ → List κ → Option (τ × List ω)
  | t, [] => some (t, [])
  | t, k :: ks => do
      let (t, o) ← step t k
      let (t, os) ← runOption step t ks
      some (t, o :: os)

/-- A result, and one that is meant: the same output and states that `R` relates, or the fault
where nothing is meant. -/
def Meets (R : σ → τ → Prop) (e : ε) (r : Except ε (σ × ω)) (m : Option (τ × ω)) : Prop :=
  match m with
  | some (t, o) => ∃ s, r = .ok (s, o) ∧ R s t
  | none => r = .error e

/-- On inputs that `P` relates, every step does what is meant. -/
def Refines (R : σ → τ → Prop) (P : ι → κ → Prop) (e : ε) (step : σ → ι → Except ε (σ × ω))
    (step' : τ → κ → Option (τ × ω)) : Prop :=
  ∀ s t i k, R s t → P i k → Meets R e (step s i) (step' t k)

/-- So does every run, up to the first fault. -/
theorem Refines.run {R : σ → τ → Prop} {P : ι → κ → Prop} {e : ε}
    {step : σ → ι → Except ε (σ × ω)} {step' : τ → κ → Option (τ × ω)}
    (h : Refines R P e step step') {s : σ} {t : τ} (hst : R s t) {is : List ι} {ks : List κ}
    (his : List.Forall₂ P is ks) : Meets R e (runExcept step s is) (runOption step' t ks) := by
  induction his generalizing s t with
  | nil => exact ⟨s, rfl, hst⟩
  | @cons i k is ks hik _ ih =>
      have hstep := h s t i k hst hik
      rw [runExcept, runOption]
      cases hk : step' t k with
      | none =>
          rw [hk] at hstep
          rw [show step s i = .error e from hstep]
          rfl
      | some r =>
          obtain ⟨t', o⟩ := r
          rw [hk] at hstep
          obtain ⟨s', hs, hR⟩ := hstep
          have hrest := ih hR
          rw [hs]
          show Meets R e (runExcept step s' is >>= _) (runOption step' t' ks >>= _)
          cases hks : runOption step' t' ks with
          | none =>
              rw [hks] at hrest
              rw [show runExcept step s' is = .error e from hrest]
              rfl
          | some r =>
              obtain ⟨t'', os⟩ := r
              rw [hks] at hrest
              obtain ⟨s'', hrun, hR''⟩ := hrest
              rw [hrun]
              exact ⟨s'', rfl, hR''⟩

end

section
variable {τ κ ω : Type} {G : τ → κ → Prop} [∀ t k, Decidable (G t k)] {step : τ → κ → τ × ω}

/-- A machine kept from the steps that its guard does not allow. -/
def guarded (G : τ → κ → Prop) [∀ t k, Decidable (G t k)] (step : τ → κ → τ × ω) (t : τ) (k : κ) :
    Option (τ × ω) :=
  if G t k then some (step t k) else none

/-- Every step of a run is allowed where it is taken. -/
def Allowed (G : τ → κ → Prop) (step : τ → κ → τ × ω) : τ → List κ → Prop
  | _, [] => True
  | t, k :: ks => G t k ∧ Allowed G step (step t k).1 ks

instance instDecidableAllowed : (t : τ) → (ks : List κ) → Decidable (Allowed G step t ks)
  | _, [] => inferInstanceAs (Decidable True)
  | t, k :: ks =>
      have : Decidable (Allowed G step (step t k).1 ks) := instDecidableAllowed _ ks
      inferInstanceAs (Decidable (G t k ∧ Allowed G step (step t k).1 ks))

/-- What the guard allows is run as without it. -/
theorem runOption_guarded_of_allowed {t : τ} {ks : List κ} (h : Allowed G step t ks) :
    runOption (guarded G step) t ks = some (runOuts step t ks) := by
  induction ks generalizing t with
  | nil => rfl
  | cons k ks ih =>
      obtain ⟨hk, hks⟩ := h
      rw [runOption, guarded, if_pos hk]
      show (runOption (guarded G step) (step t k).1 ks >>= _) = _
      rw [ih hks]
      rfl

theorem allowed_of_runOption_guarded {t : τ} {ks : List κ} {r : τ × List ω}
    (h : runOption (guarded G step) t ks = some r) : Allowed G step t ks := by
  induction ks generalizing t r with
  | nil => trivial
  | cons k ks ih =>
      rw [runOption, guarded] at h
      split at h
      · next hk =>
        change (runOption (guarded G step) (step t k).1 ks >>= _) = some r at h
        obtain ⟨r', hr', -⟩ := Option.bind_eq_some_iff.mp h
        exact ⟨hk, ih hr'⟩
      · cases h

end

/-! ## Systems that take one of several steps -/

section
variable {σ ε : Type} {step : σ → ε → σ → Prop}

/-- A run: the events in the order they happen. -/
inductive Steps (step : σ → ε → σ → Prop) : σ → List ε → σ → Prop where
  | nil {s : σ} : Steps step s [] s
  | snoc {s t u : σ} {es : List ε} {e : ε} : Steps step s es t → step t e u →
      Steps step s (es ++ [e]) u

/-- An invariant kept by the steps is kept by the runs. -/
theorem Steps.invariant {I : σ → Prop} (hstep : ∀ s e t, I s → step s e t → I t) {s t : σ}
    {es : List ε} (h : Steps step s es t) (hs : I s) : I t := by
  induction h with
  | nil => exact hs
  | snoc _ hlast ih => exact hstep _ _ _ ih hlast

/-- A run of fewer steps is a run. -/
theorem Steps.mono {step' : σ → ε → σ → Prop} (hle : ∀ s e t, step s e t → step' s e t) {s t : σ}
    {es : List ε} (h : Steps step s es t) : Steps step' s es t := by
  induction h with
  | nil => exact .nil
  | snoc _ hlast ih => exact ih.snoc (hle _ _ _ hlast)

/-- Two runs, one after the other. -/
theorem Steps.append {s t u : σ} {es es' : List ε} (h : Steps step s es t)
    (h' : Steps step t es' u) : Steps step s (es ++ es') u := by
  induction h' with
  | nil => simpa using h
  | snoc _ hlast ih =>
      rw [← List.append_assoc]
      exact ih.snoc hlast

/-- Where every step has one outcome, so has every run. -/
theorem Steps.unique (hstep : ∀ s e t u, step s e t → step s e u → t = u) {s t u : σ}
    {es : List ε} (h : Steps step s es t) (h' : Steps step s es u) : t = u := by
  induction h generalizing u with
  | nil =>
      generalize hnil : ([] : List ε) = es at h'
      cases h' with
      | nil => rfl
      | snoc _ _ => exact absurd hnil.symm (by simp)
  | @snoc t₁ t es e _ hlast ih =>
      generalize hsnoc : es ++ [e] = es' at h'
      cases h' with
      | nil => exact absurd hsnoc (by simp)
      | @snoc u₁ _ _ _ hrun hlast' =>
          obtain ⟨rfl, he⟩ := List.append_inj' hsnoc rfl
          obtain rfl := List.singleton_inj.mp he
          rw [← ih hrun] at hlast'
          exact hstep _ _ _ _ hlast hlast'

/-- A run begins with its first step. -/
theorem Steps.cons {s t u : σ} {e : ε} {es : List ε} (h : step s e t)
    (hrest : Steps step t es u) : Steps step s (e :: es) u :=
  (Steps.nil.snoc h).append hrest

theorem Steps.first {s t : σ} {es : List ε} (h : Steps step s es t) :
    (es = [] ∧ t = s) ∨ ∃ e es' u, es = e :: es' ∧ step s e u ∧ Steps step u es' t := by
  induction h with
  | nil => exact Or.inl ⟨rfl, rfl⟩
  | @snoc t u es e hrun hlast ih =>
      rcases ih with ⟨rfl, rfl⟩ | ⟨e', es', v, rfl, hfirst, hrest⟩
      · exact Or.inr ⟨e, [], u, rfl, hlast, .nil⟩
      · exact Or.inr ⟨e', es' ++ [e], v, rfl, hfirst, hrest.snoc hlast⟩

end

/-! ## Condition variables -/

/-- The threads at a condition variable. -/
structure Waiters (ω : Type) where
  /-- Those in `pthread_cond_wait` that no signal has reached. -/
  asleep : List ω
  /-- Those that have been woken and wait for the lock. -/
  woken : List ω

namespace Waiters

variable {ω : Type}

/-- No one waits. -/
def none : Waiters ω := ⟨[], []⟩

/-- A thread goes to sleep. -/
def sleep (w : Waiters ω) (x : ω) : Waiters ω := { w with asleep := x :: w.asleep }

/-- `pthread_cond_signal`: some sleeper is woken, if there is one. -/
inductive Signal : Waiters ω → Waiters ω → Prop where
  | lost {w : Waiters ω} : w.asleep = [] → Signal w w
  | wakes {a b woken : List ω} {x : ω} : Signal ⟨a ++ x :: b, woken⟩ ⟨a ++ b, x :: woken⟩

/-- A sleeper wakes without a signal. -/
inductive Spurious : Waiters ω → Waiters ω → Prop where
  | wakes {a b woken : List ω} {x : ω} : Spurious ⟨a ++ x :: b, woken⟩ ⟨a ++ b, x :: woken⟩

/-- A sleeper wakes without a signal, and is kept apart from those a signal woke. -/
inductive Strays : Waiters ω → ω → Waiters ω → Prop where
  | wakes {a b woken : List ω} {x : ω} : Strays ⟨a ++ x :: b, woken⟩ x ⟨a ++ b, woken⟩

/-- A woken thread gets the lock. -/
inductive Resume : Waiters ω → ω → Waiters ω → Prop where
  | gets {a b asleep : List ω} {x : ω} : Resume ⟨asleep, a ++ x :: b⟩ x ⟨asleep, a ++ b⟩

/-- A signal wakes one sleeper, if there is one. -/
theorem Signal.cases {w w' : Waiters ω} (h : Signal w w') :
    (w.asleep = [] ∧ w' = w) ∨
      ∃ x, w.asleep.Perm (x :: w'.asleep) ∧ w'.woken = x :: w.woken := by
  cases h with
  | lost h => exact Or.inl ⟨h, rfl⟩
  | wakes => exact Or.inr ⟨_, List.perm_middle, rfl⟩

/-- A sleeper that wakes without a signal is a woken thread like any other. -/
theorem Spurious.cases {w w' : Waiters ω} (h : Spurious w w') :
    ∃ x, w.asleep.Perm (x :: w'.asleep) ∧ w'.woken = x :: w.woken := by
  cases h with
  | wakes => exact ⟨_, List.perm_middle, rfl⟩

/-- A stray was a sleeper. -/
theorem Strays.cases {w w' : Waiters ω} {x : ω} (h : Strays w x w') :
    w.asleep.Perm (x :: w'.asleep) ∧ w'.woken = w.woken := by
  cases h with
  | wakes => exact ⟨List.perm_middle, rfl⟩

/-- Resuming takes one thread from the woken ones. -/
theorem Resume.cases {w w' : Waiters ω} {x : ω} (h : Resume w x w') :
    w'.asleep = w.asleep ∧ w.woken.Perm (x :: w'.woken) := by
  cases h with
  | gets => exact ⟨rfl, List.perm_middle⟩

/-- A signal wakes at most one. -/
theorem Signal.length_woken_le {w w' : Waiters ω} (h : Signal w w') :
    w'.woken.length ≤ w.woken.length + 1 := by
  obtain ⟨-, rfl⟩ | ⟨x, -, hwoken⟩ := h.cases
  · exact Nat.le_succ _
  · rw [hwoken, List.length_cons]

theorem Spurious.length_woken {w w' : Waiters ω} (h : Spurious w w') :
    w'.woken.length = w.woken.length + 1 := by
  obtain ⟨x, -, hwoken⟩ := h.cases
  rw [hwoken, List.length_cons]

theorem Resume.length_woken {w w' : Waiters ω} {x : ω} (h : Resume w x w') :
    w.woken.length = w'.woken.length + 1 := by
  obtain ⟨-, hperm⟩ := h.cases
  rw [hperm.length_eq, List.length_cons]

end Waiters

end StepSystem
