/-
# Runs that note what they use

A library about runs that may fail and note what they use on the way, with nothing of any
particular program in it.  A step that fails is the last one that notes anything.

Without its notes the run is the plain one (`result_bind`), and what it uses is what its steps
use (`Uses.bind`).
-/
import Mathlib.Tactic

/-- A run, with the list of what it has used. -/
structure Traced (ι ε α : Type) where
  used : List ι
  result : Except ε α

namespace Traced

variable {ι ε α β : Type}

/-- A step that uses one thing. -/
def note (i : ι) (result : Except ε α) : Traced ι ε α := ⟨[i], result⟩

/-- A step that uses nothing. -/
def quiet (result : Except ε α) : Traced ι ε α := ⟨[], result⟩

/-- One run after the other. -/
def andThen : Traced ι ε α → (α → Traced ι ε β) → Traced ι ε β
  | ⟨used, .ok a⟩, f => ⟨used ++ (f a).used, (f a).result⟩
  | ⟨used, .error e⟩, _ => ⟨used, .error e⟩

instance : Monad (Traced ι ε) where
  pure a := quiet (.ok a)
  bind := andThen

@[simp] theorem result_quiet (result : Except ε α) :
    (quiet result : Traced ι ε α).result = result := rfl

@[simp] theorem result_bind (x : Traced ι ε α) (f : α → Traced ι ε β) :
    (x >>= f).result = x.result >>= fun a => (f a).result := by
  obtain ⟨used, e | a⟩ := x
  · rfl
  · rfl

/-- Everything that the run uses has the property. -/
def Uses (p : ι → Prop) (x : Traced ι ε α) : Prop := ∀ i ∈ x.used, p i

variable {p : ι → Prop}

theorem uses_note {i : ι} (h : p i) (result : Except ε α) : Uses p (note i result) := by
  intro j hj
  obtain rfl := List.mem_singleton.mp hj
  exact h

theorem uses_quiet (result : Except ε α) : Uses p (quiet result : Traced ι ε α) := nofun

theorem Uses.bind {x : Traced ι ε α} {f : α → Traced ι ε β} (hx : Uses p x)
    (hf : ∀ a, x.result = .ok a → Uses p (f a)) : Uses p (x >>= f) := by
  obtain ⟨used, e | a⟩ := x
  · exact hx
  · intro i hi
    rcases List.mem_append.mp hi with hi | hi
    · exact hx i hi
    · exact hf a rfl i hi

end Traced
