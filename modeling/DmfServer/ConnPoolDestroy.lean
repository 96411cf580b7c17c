/-
# Closing the connections of the pool

`destroy_mysql_pool` pops one connection after the other, closes it and frees it, until none
is left.  Callers may hold connections then; they release them later, into a pool that goes on
working and may be closed again.

* One call closes the free connections, in the order in which they became free
  (`MysqlPool.Holds.destroy`).
* In every run, with such calls at any place of it, a connection is closed at most once, and
  not while it is out; those in memory are the free ones and those that are out
  (`destroyMysqlPool_run`).
-/
import DmfServer.ConnPool

open CMem StepSystem

/-! ## `destroy_mysql_pool` -/

/-- The loop of `destroy_mysql_pool`, of at most `fuel` rounds: the connections that
`destroy_mysql_connection` closes and frees, and the pool that is left. -/
def destroyLoop : ℕ → MysqlPool → Except Fault (List Addr × MysqlPool)
  | 0, _ => .error .loop
  | fuel + 1, pool => do
      let (conn, pool) ← connPop pool
      if conn = 0 then .ok ([], pool)
      else do
        let heap ← pool.heap.free conn
        let (closed, pool) ← destroyLoop fuel { pool with heap := heap }
        .ok (conn :: closed, pool)

/-- `destroy_mysql_pool`. -/
def destroyMysqlPool (pool : MysqlPool) : Except Fault (List Addr × MysqlPool) :=
  destroyLoop (2 ^ 64) pool

/-- What `conn_pop` writes is in the list that is left, and goes with it. -/
theorem PopsHeap.without {heap heap' : Heap MysqlConn} {free as : List Addr}
    (h : PopsHeap heap heap' free) (hsub : free ⊆ as) : heap'.without as = heap.without as := by
  rcases h with ⟨-, rfl⟩ | ⟨b, bs, first, rfl, -, rfl⟩
  · rfl
  · funext a
    unfold Heap.without
    by_cases ha : a ∈ as
    · rw [if_pos ha, if_pos ha]
    · rw [if_neg ha, if_neg ha]
      apply Heap.store_of_ne
      rintro rfl
      exact ha (hsub List.mem_cons_self)

namespace MysqlPool.Holds

variable {pool : MysqlPool} {free out : List Addr} {conn : Addr}

/-- A connection that is out of the list can be freed. -/
theorem freed (h : pool.Holds free (conn :: out)) :
    ∃ heap, pool.heap.free conn = .ok heap ∧ heap = Function.update pool.heap conn none ∧
      { pool with heap := heap }.Holds free out := by
  obtain ⟨-, hsome⟩ := h.made conn List.mem_cons_self
  obtain ⟨node, hnode⟩ := Option.isSome_iff_exists.mp hsome
  obtain ⟨hfree, hout, hapart⟩ := List.nodup_append.mp h.nodup
  have hkeep : ∀ a, a ≠ conn → Function.update pool.heap conn none a = pool.heap a :=
    fun a ha => Function.update_of_ne ha _ _
  refine ⟨_, Heap.free_eq hnode, rfl, ?_, h.count, ?_, ?_⟩
  · apply h.chain.congr
    intro a ha
    apply hkeep
    rintro rfl
    exact hapart a ha a List.mem_cons_self rfl
  · apply List.nodup_append.mpr
    exact ⟨hfree, (List.nodup_cons.mp hout).2,
      fun a ha b hb => hapart a ha b (List.mem_cons_of_mem _ hb)⟩
  · intro a ha
    obtain ⟨hne, hmade⟩ := h.made a (List.mem_cons_of_mem _ ha)
    refine ⟨hne, ?_⟩
    show (Function.update pool.heap conn none a).isSome
    rw [hkeep]
    · exact hmade
    · rintro rfl
      exact (List.nodup_cons.mp hout).1 ha

/-- The free connections are closed in the order of the list, and nothing else is touched. -/
theorem destroyLoop_eq (h : pool.Holds free out) {fuel : ℕ} (hfuel : free.length < fuel) :
    ∃ pool', destroyLoop fuel pool = .ok (free, pool') ∧ pool'.Holds [] out ∧
      pool'.heap = pool.heap.without free ∧ pool'.isIdleBlock = pool.isIdleBlock := by
  induction free generalizing pool fuel with
  | nil =>
      obtain ⟨fuel, rfl⟩ := Nat.exists_eq_add_one_of_ne_zero (Nat.ne_of_gt hfuel)
      refine ⟨pool, ?_, h, (Heap.without_nil _).symm, rfl⟩
      rw [destroyLoop, h.pop_nil]
      rfl
  | cons conn free ih =>
      obtain ⟨fuel, rfl⟩ := Nat.exists_eq_add_one_of_ne_zero (Nat.ne_of_gt
        (Nat.lt_of_le_of_lt (Nat.zero_le _) hfuel))
      obtain ⟨pool₁, hpop, hholds₁, hidle₁, hheap₁⟩ := h.popped
      obtain ⟨heap, hok, rfl, hholds₂⟩ := hholds₁.freed
      obtain ⟨pool', hrun, hholds', hheap', hidle'⟩ := ih hholds₂ (by simpa using hfuel)
      have hne : conn ≠ 0 := (hholds₁.made conn List.mem_cons_self).1
      refine ⟨pool', ?_, hholds', ?_, hidle'.trans hidle₁⟩
      · rw [destroyLoop, hpop, ok_bind]
        simp only [if_neg hne, hok, ok_bind, hrun]
      · rw [hheap', Heap.without_cons, hheap₁.without (List.subset_cons_self _ _)]

/-- `destroy_mysql_pool` closes the free connections. -/
theorem destroy (h : pool.Holds free out) :
    ∃ pool', destroyMysqlPool pool = .ok (free, pool') ∧ pool'.Holds [] out ∧
      pool'.heap = pool.heap.without free ∧ pool'.isIdleBlock = pool.isIdleBlock :=
  h.destroyLoop_eq h.chain.length_lt

end MysqlPool.Holds

/-! ## The connections in memory -/

/-- Neither `conn_pop` nor a release makes a connection or frees one. -/
theorem isSome_of_connPop {pool pool' : MysqlPool} {conn : Addr}
    (h : connPop pool = .ok (conn, pool')) (a : Addr) :
    (pool'.heap a).isSome = (pool.heap a).isSome := by
  unfold connPop at h
  dsimp only at h
  by_cases hlist : pool.mysqlList ≠ 0
  swap
  · rw [if_neg hlist] at h
    cases h
    rfl
  rw [if_pos hlist] at h
  obtain ⟨node, -, h⟩ := exists_of_bind h
  by_cases hnext : node.next ≠ 0
  · rw [if_pos hnext] at h
    obtain ⟨pool₁, hfirst, h⟩ := exists_of_bind h
    obtain ⟨first, hload, rfl⟩ := exists_of_map hfirst
    cases h
    exact Heap.isSome_store (Heap.some_of_load hload) a
  · rw [if_neg hnext] at h
    cases h
    rfl

@[inherit_doc isSome_of_connPop]
theorem isSome_of_connPush {pool pool' : MysqlPool} {conn : Addr}
    (h : connPush pool conn = .ok pool') (a : Addr) :
    (pool'.heap a).isSome = (pool.heap a).isSome := by
  unfold connPush at h
  dsimp only at h
  by_cases hlist : pool.mysqlList = 0
  · rw [if_pos hlist] at h
    cases h
    rfl
  · rw [if_neg hlist] at h
    obtain ⟨lc, -, h⟩ := exists_of_bind h
    obtain ⟨last, hlast, h⟩ := exists_of_bind h
    obtain ⟨node, hnode, h⟩ := exists_of_bind h
    cases h
    exact (Heap.isSome_store (Heap.some_of_load hnode) a).trans
      (Heap.isSome_store (Heap.some_of_load hlast) a)

@[inherit_doc isSome_of_connPop]
theorem isSome_of_releaseConn {pool pool' : MysqlPool} {conn : Addr}
    (h : releaseConn pool conn = .ok pool') (a : Addr) :
    (pool'.heap a).isSome = (pool.heap a).isSome := by
  unfold releaseConn at h
  obtain ⟨node, hnode, h⟩ := exists_of_bind h
  exact (isSome_of_connPush h a).trans (Heap.isSome_store (Heap.some_of_load hnode) a)

theorem isSome_of_mysqlPoolInit {conns : List Addr} {pool : MysqlPool}
    (h : mysqlPoolInit conns = .ok pool) (a : Addr) : (pool.heap a).isSome ↔ a ∈ conns := by
  have hpush : ∀ (rest : List Addr) (start : MysqlPool), rest.foldlM connPush start = .ok pool →
      (pool.heap a).isSome = (start.heap a).isSome := by
    intro rest
    induction rest with
    | nil =>
        intro start hrun
        cases hrun
        rfl
    | cons conn rest ih =>
        intro start hrun
        rw [List.foldlM_cons] at hrun
        obtain ⟨pool₁, hok, hrun⟩ := exists_of_bind hrun
        exact (ih pool₁ hrun).trans (isSome_of_connPush hok a)
  rw [hpush conns _ h]
  by_cases ha : a ∈ conns
  · simp [ha]
  · simp [ha]

section
variable {Caller : Type}

theorem ConnStep.isSome {s t : ConnState Caller} {e : ConnEvent} (h : ConnStep s e t) (a : Addr) :
    (t.pool.heap a).isSome = (s.pool.heap a).isSome := by
  cases h with
  | get hok => exact isSome_of_connPop hok a
  | getBlock hok _ => exact isSome_of_connPop hok a
  | wait x hok => exact isSome_of_connPop hok a
  | resume _ hok => exact isSome_of_connPop hok a
  | release _ hok _ => exact isSome_of_releaseConn hok a
  | spurious _ => rfl

/-! ## Runs -/

/-- What happens in a step, the closing of the pool included. -/
inductive ConnPoolEvent : Type where
  | call (e : ConnEvent)
  | destroyed (closed : List Addr)

/-- A step of the callers, or a call of `destroy_mysql_pool`; who waits is not woken by it. -/
inductive ConnPoolStep : ConnState Caller → ConnPoolEvent → ConnState Caller → Prop where
  | call {s t : ConnState Caller} {e : ConnEvent} (step : ConnStep s e t) :
      ConnPoolStep s (.call e) t
  | destroy {s : ConnState Caller} {closed : List Addr} {pool : MysqlPool}
      (ok : destroyMysqlPool s.pool = .ok (closed, pool)) :
      ConnPoolStep s (.destroyed closed) { s with pool := pool }

/-- The connections that were closed in a run. -/
def closedConns (es : List ConnPoolEvent) : List Addr :=
  es.flatMap fun
    | .call _ => []
    | .destroyed closed => closed

theorem closedConns_append (es : List ConnPoolEvent) (e : ConnPoolEvent) :
    closedConns (es ++ [e]) = closedConns es ++ closedConns [e] :=
  List.flatMap_append

/-- What is left open has an account of its own, and is what is in memory. -/
structure OpenAccounts (conns : List Addr) (s : ConnState Caller) (free closed : List Addr) :
    Prop where
  accounts : ∃ left es, ConnAccounts left s.pool s.out free es ∧ (left ++ closed).Perm conns
  memory : ∀ a, (s.pool.heap a).isSome ↔ a ∈ free ++ s.out

/-- The connections that are out start a new account once the free ones are closed. -/
theorem connAccounts_destroyed {pool : MysqlPool} {out : List Addr} (h : pool.Holds [] out) :
    ConnAccounts out pool out [] (out.map ConnEvent.got) := by
  have hout : ∀ a ∈ out, a ≠ 0 := fun a ha => (h.made a ha).1
  have hreleased : releasedConns (out.map ConnEvent.got) = [] := by
    rw [releasedConns, List.filterMap_map]
    exact List.filterMap_eq_nil_iff.mpr fun _ _ => rfl
  have hhanded : handedOut (out.map ConnEvent.got) = out := by
    clear h hreleased
    induction out with
    | nil => rfl
    | cons a out ih =>
        obtain ⟨ha, hout⟩ := List.forall_mem_cons.mp hout
        show handOut a [] ++ handedOut (out.map ConnEvent.got) = _
        rw [ih hout, handOut, if_neg ha]
        rfl
  refine ⟨h, ⟨h.chain, .nil 0⟩, List.Perm.refl _, ?_⟩
  rw [hreleased, hhanded]

theorem ConnPoolStep.openAccounts {conns free closed : List Addr} {s t : ConnState Caller}
    {e : ConnPoolEvent} (hstep : ConnPoolStep s e t) (h : OpenAccounts conns s free closed) :
    ∃ free', OpenAccounts conns t free' (closed ++ closedConns [e]) := by
  obtain ⟨⟨left, es, hacc, hall⟩, hmemory⟩ := h
  cases hstep with
  | @call t e hstep =>
      obtain ⟨free', hacc'⟩ := hstep.accounts hacc
      refine ⟨free', ⟨left, es ++ [e], hacc', ?_⟩, ?_⟩
      · simpa [closedConns] using hall
      · intro a
        rw [hstep.isSome a, hmemory a]
        exact (hacc.all.trans hacc'.all.symm).mem_iff
  | @destroy closed' pool hok =>
      obtain ⟨pool', hok', hholds, hheap, -⟩ := hacc.holds.destroy
      rw [hok, Except.ok.injEq, Prod.mk.injEq] at hok'
      obtain ⟨rfl, rfl⟩ := hok'
      refine ⟨[], ⟨s.out, _, connAccounts_destroyed hholds, ?_⟩, ?_⟩
      · have hclosed : (s.out ++ (closed ++ closed')).Perm (left ++ closed) := by
          have hleft : (s.out ++ closed').Perm left := List.perm_append_comm.trans hacc.all
          have hswap : (s.out ++ (closed ++ closed')).Perm (s.out ++ (closed' ++ closed)) :=
            List.perm_append_comm.append_left _
          rw [← List.append_assoc s.out closed'] at hswap
          exact hswap.trans (hleft.append_right closed)
        simpa [closedConns] using hclosed.trans hall
      · intro a
        show (pool.heap a).isSome ↔ a ∈ s.out
        have hapart := (List.nodup_append.mp hacc.holds.nodup).2.2
        rw [hheap, Heap.without]
        by_cases ha : a ∈ closed'
        · rw [if_pos ha]
          exact iff_of_false (by simp) fun hout => hapart a ha a hout rfl
        · rw [if_neg ha, hmemory a, List.mem_append, or_iff_right ha]

/-- From the list `mysql_pool_init` builds, in every run in which the pool is closed now and
then: no connection is closed twice or while it is out, those in memory are the free ones and
those that are out, and closing the pool leaves these alone, to be released into it later. -/
theorem destroyMysqlPool_run {conns : List Addr} (hnodup : conns.Nodup)
    (hnull : (0 : Addr) ∉ conns) {pool : MysqlPool} (hinit : mysqlPoolInit conns = .ok pool)
    {es : List ConnPoolEvent} {s : ConnState Caller}
    (h : Steps ConnPoolStep (connStart pool) es s) :
    ∃ free pool', (free ++ s.out ++ closedConns es).Perm conns ∧
      (∀ a, (s.pool.heap a).isSome ↔ a ∈ free ++ s.out) ∧
      destroyMysqlPool s.pool = .ok (free, pool') ∧ pool'.heap = s.pool.heap.without free ∧
      connPop pool' = .ok (0, pool') ∧
      ∀ conn ∈ s.out, ∃ pool'', releaseConn pool' conn = .ok pool'' ∧
        ∃ pool₃, connPop pool'' = .ok (conn, pool₃) := by
  have hall : ∃ free, OpenAccounts conns s free (closedConns es) := by
    induction h with
    | nil =>
        obtain ⟨pool', hok, hholds, hlinked⟩ := mysqlPoolInit_eq hnodup hnull
        rw [hinit, Except.ok.injEq] at hok
        subst hok
        refine ⟨conns, ⟨conns, [], ⟨hholds, hlinked, by simp [connStart],
          by simp [releasedConns, handedOut]⟩, by simp [closedConns]⟩, ?_⟩
        intro a
        rw [connStart, List.append_nil]
        exact isSome_of_mysqlPoolInit hinit a
    | snoc _ hstep ih =>
        obtain ⟨free, hopen⟩ := ih
        rw [closedConns_append]
        exact hstep.openAccounts hopen
  obtain ⟨free, ⟨left, es', hacc, hclosed⟩, hmemory⟩ := hall
  obtain ⟨pool', hok, hholds, hheap, -⟩ := hacc.holds.destroy
  refine ⟨free, pool', (hacc.all.append_right _).trans hclosed, hmemory, hok, hheap,
    hholds.pop_nil, ?_⟩
  intro conn hconn
  obtain ⟨a, b, hout⟩ := List.append_of_mem hconn
  have hperm : s.out.Perm (conn :: (a ++ b)) := by
    rw [hout]
    exact List.perm_middle
  obtain ⟨pool'', hrelease, hholds'', -⟩ := (hholds.perm hperm).release
  obtain ⟨pool₃, hpop, -⟩ := hholds''.pop
  exact ⟨pool'', hrelease, pool₃, hpop⟩

/-- Two connections: one is taken, the pool is closed, the one comes back, and the pool is
closed again. -/
theorem destroyMysqlPool_run_twice : ∃ (s : ConnState ℕ) (free : List Addr) (pool' : MysqlPool),
    (free ++ s.out ++ [32, 16]).Perm [16, 32] ∧ destroyMysqlPool s.pool = .ok (free, pool') := by
  obtain ⟨pool, hinit, hholds, -⟩ :=
    mysqlPoolInit_eq (show [16, 32].Nodup by decide) (by decide)
  obtain ⟨pool₁, hok₁, hholds₁, -⟩ := hholds.pop
  obtain ⟨pool₂, hok₂, hholds₂, -⟩ := hholds₁.destroy
  obtain ⟨pool₃, hok₃, hholds₃, -⟩ := hholds₂.release
  obtain ⟨pool₄, hok₄, -⟩ := hholds₃.destroy
  have hsignal : if pool₃.isIdleBlock ≠ 0 then Waiters.Signal (.none : Waiters ℕ) .none
      else (.none : Waiters ℕ) = .none := by
    split
    · exact .lost rfl
    · rfl
  have hget : ConnStep (connStart pool) (.got 16) (⟨pool₁, .none, [16]⟩ : ConnState ℕ) :=
    .get hok₁
  have hclosed : ConnPoolStep ⟨pool₁, .none, [16]⟩ (.destroyed [32])
      (⟨pool₂, .none, [16]⟩ : ConnState ℕ) := .destroy hok₂
  have hback : ConnStep ⟨pool₂, .none, [16]⟩ (.released 16) (⟨pool₃, .none, []⟩ : ConnState ℕ) :=
    .release (a := []) rfl hok₃ hsignal
  have hagain : ConnPoolStep ⟨pool₃, .none, []⟩ (.destroyed [16])
      (⟨pool₄, .none, []⟩ : ConnState ℕ) := .destroy hok₄
  obtain ⟨free, pool', hall, -, hok, -⟩ := destroyMysqlPool_run (by decide) (by decide) hinit
    ((((Steps.nil.snoc (.call hget)).snoc hclosed).snoc (.call hback)).snoc hagain)
  exact ⟨_, free, pool', hall, hok⟩

end
