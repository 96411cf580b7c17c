/-
# What is in memory, as a list

A library about a memory with finitely many blocks, with nothing of any particular program in
it: `Blocks h bs` says that the blocks of `h` are those in `bs`, each at an address of its own.
`malloc` puts a block in front of the list and `free` takes it away from there; the order of the
list does not matter (`Blocks.perm`).  What is not in the list is neither read nor freed.
-/
import DmfServer.LinkedList

namespace CMem

/-- The blocks in memory are those of the list. -/
structure Blocks {ν : Type} (h : Heap ν) (bs : List (Addr × ν)) : Prop where
  nodup : (bs.map Prod.fst).Nodup
  mem : ∀ a n, h a = some n ↔ (a, n) ∈ bs

namespace Blocks

variable {ν : Type} {h : Heap ν} {bs : List (Addr × ν)} {a : Addr} {n : ν}

/-- An empty memory. -/
theorem nil : Blocks (fun _ => none) ([] : List (Addr × ν)) :=
  ⟨List.nodup_nil, fun _ _ => by simp⟩

theorem perm {bs' : List (Addr × ν)} (hb : Blocks h bs) (hperm : bs.Perm bs') : Blocks h bs' :=
  ⟨(hperm.map Prod.fst).nodup_iff.mp hb.nodup, fun a n => (hb.mem a n).trans hperm.mem_iff⟩

theorem not_mem_of_eq_none (hb : Blocks h bs) (ha : h a = none) : a ∉ bs.map Prod.fst := by
  intro hmem
  obtain ⟨⟨b, n⟩, hn, rfl⟩ := List.mem_map.mp hmem
  rw [(hb.mem b n).mpr hn] at ha
  cases ha

theorem load (hb : Blocks h bs) (ha : (a, n) ∈ bs) : h.load a = .ok n :=
  Heap.load_eq ((hb.mem a n).mpr ha)

/-- A fresh block. -/
theorem malloc (hb : Blocks h bs) (ha : h a = none) (n : ν) :
    Blocks (h.store a n) ((a, n) :: bs) := by
  refine ⟨List.nodup_cons.mpr ⟨hb.not_mem_of_eq_none ha, hb.nodup⟩, fun b m => ?_⟩
  by_cases hba : b = a
  · subst hba
    rw [Heap.store_self, List.mem_cons, Option.some.injEq, Prod.mk.injEq]
    constructor
    · exact fun hnm => Or.inl ⟨rfl, hnm.symm⟩
    · rintro (⟨-, hmn⟩ | hmem)
      · exact hmn.symm
      · rw [(hb.mem b m).mpr hmem] at ha
        cases ha
  · rw [Heap.store_of_ne _ _ hba, hb.mem, List.mem_cons, Prod.mk.injEq]
    exact ⟨Or.inr, fun h' => h'.resolve_left fun heq => hba heq.1⟩

/-- The first block is freed, and the others are left. -/
theorem free (hb : Blocks h ((a, n) :: bs)) :
    h.free a = .ok (Function.update h a none) ∧ Blocks (Function.update h a none) bs := by
  obtain ⟨hfirst, hrest⟩ := List.nodup_cons.mp hb.nodup
  refine ⟨Heap.free_eq ((hb.mem a n).mpr List.mem_cons_self), hrest, fun b m => ?_⟩
  by_cases hba : b = a
  · subst hba
    rw [Function.update_self]
    exact iff_of_false (by simp) fun hmem => hfirst (List.mem_map.mpr ⟨(b, m), hmem, rfl⟩)
  · rw [Function.update_of_ne hba, hb.mem, List.mem_cons, Prod.mk.injEq]
    exact ⟨fun h' => h'.resolve_left fun heq => hba heq.1, Or.inr⟩

/-- The first block is written. -/
theorem store (hb : Blocks h ((a, n) :: bs)) (m : ν) :
    Blocks (h.store a m) ((a, m) :: bs) := by
  obtain ⟨-, hrest⟩ := hb.free
  have hsame : h.store a m = Heap.store (Function.update h a none) a m := by
    unfold Heap.store
    rw [Function.update_idem]
  rw [hsame]
  exact hrest.malloc (Function.update_self _ _ _) m

end Blocks

end CMem
