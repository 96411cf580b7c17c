/-
# Linked lists in memory

A library about nodes that point to the next one, with nothing of any particular
program in it:

* `Heap ν` is the memory of the nodes of type `ν`, by address;
* `Seg next h p as q` says that the `next` pointers lead from `p` through the nodes at
  `as` to `q`; a list that ends in `NULL` is a `Seg` to `0`;
* `Heap.last` is the loop that walks to the last node, and `Heap.free` takes one out of memory.

A list that ends never comes to a node twice (`Seg.nodup`), so there are fewer nodes in
it than there are addresses (`Seg.length_lt`).  A doubly linked list is a `TwoWay`: it
ends in both directions, and its links undo each other (`TwoWay.next_iff_prev`).
-/
import DmfServer.CMemory

namespace CMem

/-- An address; `NULL` is 0. -/
abbrev Addr := UInt64

/-- The nodes in memory. -/
abbrev Heap (ν : Type) := Addr → Option ν

namespace Heap

variable {ν : Type}

/-- `*p`. -/
def load (h : Heap ν) (p : Addr) : Except Fault ν :=
  match h p with
  | some n => .ok n
  | none => .error (if p = 0 then .null else .wild p)

/-- Write the node at `p`. -/
def store (h : Heap ν) (p : Addr) (n : ν) : Heap ν := Function.update h p (some n)

/-- `free(p)`. -/
def free (h : Heap ν) (p : Addr) : Except Fault (Heap ν) :=
  match h p with
  | some _ => .ok (Function.update h p none)
  | none => .error .free

/-- `while (p->next) p = p->next;`, of at most `fuel` rounds. -/
def last (next : ν → Addr) (h : Heap ν) : ℕ → Addr → Except Fault Addr
  | 0, _ => .error .loop
  | fuel + 1, p => do
      let n ← h.load p
      if next n = 0 then .ok p else last next h fuel (next n)

theorem load_eq {h : Heap ν} {p : Addr} {n : ν} (hp : h p = some n) : h.load p = .ok n := by
  unfold load
  rw [hp]

theorem free_eq {h : Heap ν} {p : Addr} {n : ν} (hp : h p = some n) :
    h.free p = .ok (Function.update h p none) := by
  unfold free
  rw [hp]

/-- What is loaded is there. -/
theorem some_of_load {h : Heap ν} {p : Addr} {n : ν} (hload : h.load p = .ok n) :
    h p = some n := by
  unfold load at hload
  cases hp : h p with
  | none =>
      rw [hp] at hload
      cases hload
  | some m =>
      rw [hp] at hload
      exact congrArg some (Except.ok.inj hload)

/-- The rest is left of what is freed. -/
theorem eq_of_free {h h' : Heap ν} {p : Addr} (hfree : h.free p = .ok h') :
    h' = Function.update h p none := by
  unfold free at hfree
  cases hp : h p with
  | none =>
      rw [hp] at hfree
      cases hfree
  | some n =>
      rw [hp] at hfree
      exact (Except.ok.inj hfree).symm

/-- A node that is left when one is freed was there, and is another one. -/
theorem of_freed {h : Heap ν} {p q : Addr} {n : ν} (hq : Function.update h p none q = some n) :
    q ≠ p ∧ h q = some n := by
  have hne : q ≠ p := by
    rintro rfl
    rw [Function.update_self] at hq
    cases hq
  rw [Function.update_of_ne hne] at hq
  exact ⟨hne, hq⟩

@[simp] theorem store_self (h : Heap ν) (p : Addr) (n : ν) : h.store p n p = some n :=
  Function.update_self _ _ _

theorem isSome_store {h : Heap ν} {p : Addr} {n m : ν} (hp : h p = some n) (q : Addr) :
    (h.store p m q).isSome = (h q).isSome := by
  unfold store
  by_cases hq : q = p
  · subst hq
    rw [Function.update_self, hp]
    rfl
  · rw [Function.update_of_ne hq]

theorem store_of_ne (h : Heap ν) {p q : Addr} (n : ν) (hq : q ≠ p) : h.store p n q = h q :=
  Function.update_of_ne hq _ _

/-- What a write leaves as it was in the one node is the same in all of them. -/
theorem map_store {α : Type} {h : Heap ν} {p : Addr} {n m : ν} (hp : h p = some n) (f : ν → α)
    (hf : f m = f n) (q : Addr) : (h.store p m q).map f = (h q).map f := by
  by_cases hq : q = p
  · subst hq
    rw [store_self, hp, Option.map_some, Option.map_some, hf]
  · rw [store_of_ne _ _ hq]

end Heap

/-! ## Segments -/

/-- From `p` the `next` pointers lead through the nodes at the addresses to `q`. -/
inductive Seg {ν : Type} (next : ν → Addr) (h : Heap ν) : Addr → List Addr → Addr → Prop where
  | nil (p : Addr) : Seg next h p [] p
  | cons {p q : Addr} {as : List Addr} {n : ν} (hp : p ≠ 0) (hn : h p = some n)
      (rest : Seg next h (next n) as q) : Seg next h p (p :: as) q

namespace Seg

variable {ν : Type} {next : ν → Addr} {h h' : Heap ν} {p q r a : Addr} {as bs : List Addr}

theorem nil_inv (s : Seg next h p [] q) : p = q := by
  cases s
  rfl

theorem cons_inv (s : Seg next h p (a :: as) q) :
    p = a ∧ a ≠ 0 ∧ ∃ n, h a = some n ∧ Seg next h (next n) as q := by
  cases s with
  | cons hp hn rest => exact ⟨rfl, hp, _, hn, rest⟩

theorem append (s : Seg next h p as q) (t : Seg next h q bs r) : Seg next h p (as ++ bs) r := by
  induction s with
  | nil => exact t
  | cons hp hn _ ih => exact .cons hp hn (ih t)

theorem split (s : Seg next h p (as ++ bs) r) :
    ∃ q, Seg next h p as q ∧ Seg next h q bs r := by
  induction as generalizing p with
  | nil => exact ⟨p, .nil p, s⟩
  | cons a as ih =>
      obtain ⟨rfl, hp, n, hn, rest⟩ := s.cons_inv
      obtain ⟨q, hq, hr⟩ := ih rest
      exact ⟨q, .cons hp hn hq, hr⟩

/-- A segment ends with the node whose `next` is where it leads. -/
theorem snoc_iff : Seg next h p (as ++ [a]) q ↔
    Seg next h p as a ∧ a ≠ 0 ∧ ∃ n, h a = some n ∧ next n = q := by
  constructor
  · intro s
    obtain ⟨b, hb, ha⟩ := s.split
    obtain ⟨rfl, hne, n, hn, hq⟩ := ha.cons_inv
    exact ⟨hb, hne, n, hn, hq.nil_inv⟩
  · rintro ⟨s, hne, n, hn, rfl⟩
    exact s.append (.cons hne hn (.nil _))

/-- Only the `next` pointers of the segment matter. -/
theorem congr_next (s : Seg next h p as q)
    (hsame : ∀ b ∈ as, (h' b).map next = (h b).map next) : Seg next h' p as q := by
  induction s with
  | nil p => exact .nil p
  | cons hp hn _ ih =>
      have hrest := ih fun b hb => hsame b (List.mem_cons_of_mem _ hb)
      have hfirst := hsame _ List.mem_cons_self
      rw [hn, Option.map_some] at hfirst
      obtain ⟨n', hn', hnext⟩ := Option.map_eq_some_iff.mp hfirst
      exact .cons hp hn' (hnext ▸ hrest)

theorem congr (s : Seg next h p as q) (hsame : ∀ b ∈ as, h' b = h b) : Seg next h' p as q :=
  s.congr_next fun b hb => congrArg _ (hsame b hb)

/-- From an address there is one way to `NULL`. -/
theorem unique (s : Seg next h p as 0) (t : Seg next h p bs 0) : as = bs := by
  generalize hz : (0 : Addr) = z at s
  induction s generalizing bs with
  | nil p =>
      subst hz
      cases t with
      | nil => rfl
      | cons hp => exact absurd rfl hp
  | cons hp hn _ ih =>
      subst hz
      cases t with
      | nil => exact absurd rfl hp
      | cons _ hn' rest =>
          rw [hn] at hn'
          cases hn'
          rw [ih rest rfl]

/-- A list that ends comes to no node twice. -/
theorem nodup (s : Seg next h p as 0) : as.Nodup := by
  generalize hz : (0 : Addr) = z at s
  induction s with
  | nil => exact List.nodup_nil
  | cons hp hn rest ih =>
      subst hz
      refine List.nodup_cons.mpr ⟨fun hmem => ?_, ih rfl⟩
      -- coming back to the first node, the rest of the list would be all of it
      obtain ⟨front, back, hsplit⟩ := List.append_of_mem hmem
      have hwhole := Seg.cons hp hn rest
      rw [hsplit] at rest
      obtain ⟨b, -, hback⟩ := rest.split
      obtain ⟨rfl, -⟩ := hback.cons_inv
      have hlen := congrArg List.length (hwhole.unique hback)
      rw [hsplit] at hlen
      simp only [List.length_cons, List.length_append] at hlen
      omega

/-- `NULL` is not in a segment. -/
theorem zero_not_mem (s : Seg next h p as q) : (0 : Addr) ∉ as := by
  induction s with
  | nil => simp
  | cons hp _ _ ih => simp [Ne.symm hp, ih]

theorem mem_heap (s : Seg next h p as q) : ∀ b ∈ as, ∃ n, h b = some n := by
  induction s with
  | nil => simp
  | cons _ hn _ ih =>
      intro b hb
      rcases List.mem_cons.mp hb with rfl | hb
      · exact ⟨_, hn⟩
      · exact ih b hb

/-- There are more addresses than nodes in a list that ends. -/
theorem length_lt (s : Seg next h p as 0) : as.length < 2 ^ 64 := by
  have hcard : (0 :: as).length ≤ Fintype.card (Fin (2 ^ 64)) := by
    have hnodup : ((0 :: as).map UInt64.toFin).Nodup :=
      (List.nodup_cons.mpr ⟨s.zero_not_mem, s.nodup⟩).map fun _ _ => UInt64.toFin_inj.mp
    simpa using hnodup.length_le_card
  rw [Fintype.card_fin, List.length_cons] at hcard
  omega

/-- In a list that ends, the links are between neighbours. -/
theorem next_eq_iff (s : Seg next h p as 0) (ha : a ∈ as) (hr : r ≠ 0) :
    (h a).map next = some r ↔ [a, r] <:+: as := by
  constructor
  · intro hnext
    obtain ⟨front, back, rfl⟩ := List.append_of_mem ha
    obtain ⟨b, -, hback⟩ := s.split
    obtain ⟨rfl, -, n, hn, hrest⟩ := hback.cons_inv
    rw [hn, Option.map_some, Option.some.injEq] at hnext
    rw [hnext] at hrest
    -- the node behind is not `NULL`, so it is the first of the rest
    cases back with
    | nil => exact absurd hrest.nil_inv hr
    | cons c back =>
        obtain ⟨rfl, -⟩ := hrest.cons_inv
        exact ⟨front, back, by simp⟩
  · rintro ⟨front, back, rfl⟩
    rw [List.append_assoc] at s
    obtain ⟨b, -, hback⟩ := s.split
    obtain ⟨-, -, n, hn, hrest⟩ := hback.cons_inv
    obtain ⟨heq, -⟩ := hrest.cons_inv
    rw [hn, Option.map_some, heq]

/-- The walk comes to the last node. -/
theorem last_eq (s : Seg next h p (as ++ [a]) 0) {fuel : ℕ} (hfuel : as.length < fuel) :
    h.last next fuel p = .ok a := by
  induction as generalizing p fuel with
  | nil =>
      obtain ⟨rfl, -, n, hn, hend⟩ := s.cons_inv
      obtain ⟨fuel, rfl⟩ := Nat.exists_eq_add_one_of_ne_zero (Nat.ne_of_gt hfuel)
      rw [Heap.last, Heap.load_eq hn, ok_bind, if_pos hend.nil_inv]
  | cons b as ih =>
      obtain ⟨rfl, -, n, hn, rest⟩ := s.cons_inv
      obtain ⟨fuel, rfl⟩ := Nat.exists_eq_add_one_of_ne_zero (Nat.ne_of_gt
        (Nat.lt_of_le_of_lt (Nat.zero_le _) hfuel))
      have hmore : next n ≠ 0 := by
        intro hz
        rw [hz] at rest
        cases has : as ++ [a] with
        | nil => simp at has
        | cons c cs =>
            rw [List.append_eq, has] at rest
            obtain ⟨hc, hne, -⟩ := rest.cons_inv
            exact hne hc.symm
      rw [Heap.last, Heap.load_eq hn, ok_bind, if_neg hmore]
      exact ih rest (by simpa using hfuel)

/-- A node hung behind the last one. -/
theorem hang (s : Seg next h p (as ++ [a]) 0) {b : Addr} {n m : ν} (hb : b ≠ 0)
    (hfresh : b ∉ as ++ [a])
    (hm : h b = some m) (hend : next m = 0) (hn : next n = b) :
    Seg next (h.store a n) p (as ++ [a] ++ [b]) 0 := by
  have hnodup := s.nodup
  obtain ⟨hfront, hne, -⟩ := snoc_iff.mp s
  have hba : b ≠ a := fun hab => hfresh (by simp [hab])
  refine snoc_iff.mpr ⟨snoc_iff.mpr ⟨hfront.congr fun c hc => ?_, hne, n, ?_, hn⟩, hb, m, ?_, hend⟩
  · refine Heap.store_of_ne _ _ fun hca => ?_
    rw [List.nodup_append] at hnodup
    exact hnodup.2.2 c hc a (List.mem_singleton_self a) hca
  · exact Heap.store_self _ _ _
  · rw [Heap.store_of_ne _ _ hba, hm]

/-- A store to a node of the list, before it and behind it the list is as it was. -/
theorem store_split (s : Seg next h p (as ++ a :: bs) 0) {n m : ν} (hn : h a = some n) :
    Seg next (h.store a m) p as a ∧ a ≠ 0 ∧ Seg next (h.store a m) (next n) bs 0 := by
  have hnodup := s.nodup
  rw [List.nodup_append] at hnodup
  obtain ⟨hfront, hback, hapart⟩ := hnodup
  obtain ⟨b, hs, ht⟩ := s.split
  obtain ⟨rfl, hne, n', hn', hrest⟩ := ht.cons_inv
  rw [hn, Option.some.injEq] at hn'
  subst hn'
  refine ⟨hs.congr fun c hc => Heap.store_of_ne _ _ ?_, hne,
    hrest.congr fun c hc => Heap.store_of_ne _ _ ?_⟩
  · exact hapart c hc b List.mem_cons_self
  · rintro rfl
    exact (List.nodup_cons.mp hback).1 hc

/-- A node skipped by the one in front of it. -/
theorem unlink {b : Addr} (s : Seg next h p (as ++ a :: b :: bs) 0) {n m k : ν}
    (hn : h a = some n) (hk : h b = some k) (hm : next m = next k) :
    Seg next (h.store a m) p (as ++ a :: bs) 0 := by
  obtain ⟨hfront, hne, hrest⟩ := s.store_split (m := m) hn
  obtain ⟨rfl, -, k', hk', hbehind⟩ := hrest.cons_inv
  have hba : next n ≠ a := by
    have hnodup := s.nodup
    rw [List.nodup_append] at hnodup
    intro heq
    exact (List.nodup_cons.mp hnodup.2.1).1 (by rw [← heq]; exact List.mem_cons_self)
  rw [Heap.store_of_ne _ _ hba, hk, Option.some.injEq] at hk'
  subst hk'
  exact hfront.append (.cons hne (Heap.store_self _ _ _) (hm ▸ hbehind))

/-- A node put behind another one. -/
theorem link {b : Addr} (s : Seg next h p (as ++ a :: bs) 0) {n m k : ν} (hn : h a = some n)
    (hb : b ≠ 0) (hfresh : b ∉ as ++ a :: bs) (hk : h b = some k) (hnext : next k = next n)
    (hm : next m = b) : Seg next (h.store a m) p (as ++ a :: b :: bs) 0 := by
  obtain ⟨hfront, hne, hrest⟩ := s.store_split (m := m) hn
  have hba : b ≠ a := by
    rintro rfl
    exact hfresh (by simp)
  have hbehind : Seg next (h.store a m) b (b :: bs) 0 :=
    .cons hb (by rw [Heap.store_of_ne _ _ hba, hk]) (hnext ▸ hrest)
  exact hfront.append (.cons hne (Heap.store_self _ _ _) (hm ▸ hbehind))

end Seg

/-! ## Freeing lists -/

section
variable {ν σ : Type} {next : ν → Addr} {drop : ν → σ → Except Fault σ}

/-- The memory without the nodes at the addresses. -/
def Heap.without (h : Heap ν) (as : List Addr) : Heap ν := fun a => if a ∈ as then none else h a

/-- `while (p) { q = p; p = p->next; drop(q); free(q); }`, of at most `fuel` rounds; `drop` is
what a program does with a node that it is about to free. -/
def Heap.freeEach (next : ν → Addr) (drop : ν → σ → Except Fault σ) :
    ℕ → Addr → Heap ν × σ → Except Fault (Heap ν × σ)
  | 0, _, _ => .error .loop
  | fuel + 1, p, (h, w) =>
      if p = 0 then .ok (h, w)
      else do
        let n ← h.load p
        let w ← drop n w
        let h ← h.free p
        freeEach next drop fuel (next n) (h, w)

@[simp] theorem Heap.without_nil (h : Heap ν) : h.without [] = h := by
  funext a
  simp [Heap.without]

/-- Freeing one node after the others. -/
theorem Heap.without_cons (h : Heap ν) (a : Addr) (as : List Addr) :
    Heap.without (Function.update h a none) as = h.without (a :: as) := by
  funext b
  unfold Heap.without
  by_cases hb : b = a
  · subst hb
    simp
  · simp [hb]

theorem Heap.without_append (h : Heap ν) (as bs : List Addr) :
    (h.without as).without bs = h.without (as ++ bs) := by
  funext a
  unfold Heap.without
  by_cases ha : a ∈ bs
  · simp [ha]
  · simp [ha]

theorem Heap.without_of_not_mem (h : Heap ν) {a : Addr} {as : List Addr} (ha : a ∉ as) :
    h.without as a = h a :=
  if_neg ha

/-- Nothing is left without all of the nodes. -/
theorem Heap.without_eq_none {h : Heap ν} {as : List Addr}
    (hall : ∀ a n, h a = some n → a ∈ as) : h.without as = fun _ => none := by
  funext a
  unfold Heap.without
  by_cases ha : a ∈ as
  · rw [if_pos ha]
  · rw [if_neg ha]
    exact Option.eq_none_iff_forall_ne_some.mpr fun n hn => ha (hall a n hn)

/-- The list is freed node by node; what freeing a node keeps is kept. -/
theorem Seg.freeEach {I : Heap ν → σ → Prop}
    (hdrop : ∀ h w a n, I h w → h a = some n →
      ∃ w', drop n w = .ok w' ∧ I (Function.update h a none) w')
    {h : Heap ν} {w : σ} (hI : I h w) {p : Addr} {as : List Addr} (s : Seg next h p as 0)
    {fuel : ℕ} (hfuel : as.length < fuel) :
    ∃ w', Heap.freeEach next drop fuel p (h, w) = .ok (h.without as, w') ∧
      I (h.without as) w' := by
  induction as generalizing p h w fuel with
  | nil =>
      obtain ⟨fuel, rfl⟩ := Nat.exists_eq_add_one_of_ne_zero (Nat.ne_of_gt hfuel)
      rw [Heap.freeEach, if_pos s.nil_inv, Heap.without_nil]
      exact ⟨w, rfl, hI⟩
  | cons a as ih =>
      obtain ⟨fuel, rfl⟩ := Nat.exists_eq_add_one_of_ne_zero (Nat.ne_of_gt
        (Nat.lt_of_le_of_lt (Nat.zero_le _) hfuel))
      have hnot : a ∉ as := (List.nodup_cons.mp s.nodup).1
      obtain ⟨rfl, hne, n, hn, hrest⟩ := s.cons_inv
      obtain ⟨w₁, hw₁, hI₁⟩ := hdrop h w p n hI hn
      -- the nodes behind do not notice that the first one is gone
      have hbehind : Seg next (Function.update h p none) (next n) as 0 := by
        apply hrest.congr
        intro b hb
        apply Function.update_of_ne
        rintro rfl
        exact hnot hb
      obtain ⟨w', hrun, hI'⟩ := ih hI₁ hbehind (by simpa using hfuel)
      rw [Heap.without_cons] at hrun hI'
      refine ⟨w', ?_, hI'⟩
      rw [Heap.freeEach, if_neg hne, Heap.load_eq hn, ok_bind, hw₁, ok_bind, Heap.free_eq hn,
        ok_bind, hrun]

/-- A list with all the nodes there are is freed when nothing else is done with them. -/
theorem Seg.freeEach_all {h : Heap ν} {p : Addr} {as : List Addr} (s : Seg next h p as 0)
    (hall : ∀ a n, h a = some n → a ∈ as) (w : σ) :
    Heap.freeEach next (fun _ => Except.ok) (2 ^ 64) p (h, w) = .ok (fun _ => none, w) := by
  have hdrop : ∀ (h : Heap ν) (w' : σ) (a : Addr) (n : ν), w' = w → h a = some n →
      ∃ w'', (Except.ok w' : Except Fault σ) = .ok w'' ∧ w'' = w :=
    fun _ w' _ _ hw _ => ⟨w', rfl, hw⟩
  obtain ⟨w', hrun, rfl⟩ := Seg.freeEach (I := fun _ w' => w' = w) hdrop rfl s s.length_lt
  rw [hrun, Heap.without_eq_none hall]

/-- So are several lists that have no node in common, one after the other. -/
theorem Seg.freeLists {I : Heap ν → σ → Prop}
    (hdrop : ∀ h w a n, I h w → h a = some n →
      ∃ w', drop n w = .ok w' ∧ I (Function.update h a none) w')
    {h : Heap ν} {w : σ} (hI : I h w) {ps : List Addr} {lists : List (List Addr)}
    (s : List.Forall₂ (fun p as => Seg next h p as 0) ps lists)
    (hapart : lists.Pairwise List.Disjoint) :
    ∃ w', ps.foldlM (fun m p => Heap.freeEach next drop (2 ^ 64) p m) (h, w)
        = .ok (h.without lists.flatten, w') ∧ I (h.without lists.flatten) w' := by
  induction lists generalizing ps h w with
  | nil =>
      obtain rfl := List.forall₂_nil_right_iff.mp s
      rw [List.flatten_nil, Heap.without_nil]
      exact ⟨w, rfl, hI⟩
  | cons as lists ih =>
      obtain ⟨p, ps, hp, hps, rfl⟩ := List.forall₂_cons_right_iff.mp s
      obtain ⟨hfirst, hrest⟩ := List.pairwise_cons.mp hapart
      obtain ⟨w₁, hrun₁, hI₁⟩ := Seg.freeEach hdrop hI hp hp.length_lt
      -- the other lists have none of its nodes
      have hbehind : List.Forall₂ (fun p bs => Seg next (h.without as) p bs 0) ps lists := by
        have hboth := (List.forall₂_and_left lists ps).mpr ⟨hfirst, hps.flip⟩
        apply List.Forall₂.flip
        apply hboth.imp
        rintro bs q ⟨hdisjoint, hq⟩
        apply hq.congr
        intro b hb
        exact h.without_of_not_mem fun ha => hdisjoint ha hb
      obtain ⟨w', hrun, hI'⟩ := ih hI₁ hbehind hrest
      rw [Heap.without_append] at hrun hI'
      rw [List.flatten_cons]
      refine ⟨w', ?_, hI'⟩
      rw [List.foldlM_cons, hrun₁]
      exact hrun

end

/-! ## Doubly linked lists -/

/-- The `next` pointers lead through the nodes at the addresses to `NULL`, and the `prev`
pointers from the last of them back to `NULL`. -/
structure TwoWay {ν : Type} (next prev : ν → Addr) (h : Heap ν) (p : Addr) (as : List Addr) :
    Prop where
  forth : Seg next h p as 0
  back : Seg prev h (as.getLastD 0) as.reverse 0

namespace TwoWay

variable {ν : Type} {next prev : ν → Addr} {h : Heap ν} {p a b : Addr} {as : List Addr}

/-- The links undo each other. -/
theorem next_iff_prev (t : TwoWay next prev h p as) (ha : a ∈ as) (hb : b ∈ as) :
    (h a).map next = some b ↔ (h b).map prev = some a := by
  have hne : ∀ {c}, c ∈ as → c ≠ 0 := fun hc hz => t.forth.zero_not_mem (hz ▸ hc)
  rw [t.forth.next_eq_iff ha (hne hb), t.back.next_eq_iff (List.mem_reverse.mpr hb) (hne ha)]
  exact (@List.reverse_infix _ [a, b] _).symm

/-- Nothing is in front of the first node. -/
theorem prev_head (t : TwoWay next prev h p (a :: as)) : (h a).map prev = some 0 := by
  have hback := t.back
  rw [List.reverse_cons] at hback
  obtain ⟨-, -, n, hn, hz⟩ := Seg.snoc_iff.mp hback
  rw [hn, Option.map_some, hz]

/-- Nothing is behind the last node. -/
theorem next_last (t : TwoWay next prev h p (as ++ [a])) : (h a).map next = some 0 := by
  obtain ⟨-, -, n, hn, hz⟩ := Seg.snoc_iff.mp t.forth
  rw [hn, Option.map_some, hz]

end TwoWay

end CMem
