/-
# The MySQL connection pool

`cpool.c`: the free connections are a doubly linked list with a counter, behind a mutex
and a condition variable for the callers that find it empty.  `mysqlPoolInit` builds the
list; what a connection does at the server is not modelled.

`get_mysql_connection_block` waits with an `if`: a caller that has been woken takes what
the list holds when it gets the lock back.  It gets a connection in every run in which
no other caller takes one that a woken caller is on its way to (`gotBlock_ne_null`), and
`NULL` when another caller is faster (`exists_gotBlock_null`).  Whoever is faster, the list
stays a list of the connections that are not out, and connections are handed out in the
order in which they became free (`conn_run`).
-/
import DmfServer.LinkedList
import DmfServer.StepSystem

open CMem StepSystem

/-- `mysql_conn`, without the `MYSQL` handle in it. -/
structure MysqlConn where
  next : Addr
  prev : Addr
  deriving DecidableEq

/-- The part of `mysql_pool` that the functions here use, and the connections in memory. -/
structure MysqlPool where
  heap : Heap MysqlConn
  mysqlList : Addr
  freeConnections : ℤ
  isIdleBlock : ℤ

/-! ## The functions -/

/-- `conn_push`: `lc` walks to the end of the list.  There are no more than `2 ^ 64`
addresses, so a longer walk goes round for ever. -/
def connPush (pool : MysqlPool) (conn : Addr) : Except Fault MysqlPool := do
  let pool ←
    if pool.mysqlList = 0 then .ok { pool with mysqlList := conn }
    else do
      let lc ← pool.heap.last MysqlConn.next (2 ^ 64) pool.mysqlList
      let last ← pool.heap.load lc
      let heap := pool.heap.store lc { last with next := conn }
      let node ← heap.load conn
      .ok { pool with heap := heap.store conn { node with prev := lc } }
  .ok { pool with freeConnections := pool.freeConnections + 1 }

/-- `conn_pop`: the first connection, or `NULL`. -/
def connPop (pool : MysqlPool) : Except Fault (Addr × MysqlPool) :=
  let conn := pool.mysqlList
  if conn ≠ 0 then do
    let node ← pool.heap.load conn
    let pool := { pool with mysqlList := node.next }
    let pool ←
      if pool.mysqlList ≠ 0 then
        (pool.heap.load pool.mysqlList).map fun first =>
          { pool with heap := pool.heap.store pool.mysqlList { first with prev := 0 } }
      else .ok pool
    .ok (conn, { pool with freeConnections := pool.freeConnections - 1 })
  else .ok (conn, pool)

/-- The part of `release_mysql_connection` in front of the signal. -/
def releaseConn (pool : MysqlPool) (conn : Addr) : Except Fault MysqlPool := do
  let _ ← pool.heap.load conn
  connPush { pool with heap := pool.heap.store conn { next := 0, prev := 0 } } conn

/-- `mysql_pool_init` with the connections that could be made, out of `min_connections`
attempts. -/
def mysqlPoolInit (conns : List Addr) : Except Fault MysqlPool :=
  conns.foldlM connPush
    { heap := fun a => if a ∈ conns then some { next := 0, prev := 0 } else none
      mysqlList := 0, freeConnections := 0, isIdleBlock := 0 }

/-! ## The list of a pool -/

/-- The list of the pool is `free`, its counter the length of it, and the connections in
`out` are in memory and not in the list. -/
structure MysqlPool.Holds (pool : MysqlPool) (free out : List Addr) : Prop where
  chain : Seg MysqlConn.next pool.heap pool.mysqlList free 0
  count : pool.freeConnections = free.length
  nodup : (free ++ out).Nodup
  made : ∀ a ∈ out, a ≠ 0 ∧ (pool.heap a).isSome

/-- What `conn_pop` writes: nothing precedes the node that comes first then. -/
def PopsHeap (heap heap' : Heap MysqlConn) (free : List Addr) : Prop :=
  (free = [] ∧ heap' = heap) ∨
    ∃ b bs first, free = b :: bs ∧ heap b = some first ∧
      heap' = heap.store b { first with prev := 0 }

/-- What `conn_push` writes: the last node and the new one point to each other. -/
def PushesHeap (heap heap' : Heap MysqlConn) (free : List Addr) (conn : Addr) : Prop :=
  (free = [] ∧ heap' = heap) ∨
    ∃ front lc last node, free = front ++ [lc] ∧ heap lc = some last ∧ heap conn = some node ∧
      heap' = (heap.store lc { last with next := conn }).store conn { node with prev := lc }

namespace MysqlPool.Holds

variable {pool : MysqlPool} {free out : List Addr} {conn : Addr}

theorem mysqlList_eq_zero_iff (h : pool.Holds free out) : pool.mysqlList = 0 ↔ free = [] := by
  constructor
  · intro hz
    exact h.chain.unique (hz ▸ Seg.nil _)
  · rintro rfl
    exact h.chain.nil_inv

/-- The order of the connections that are out does not matter. -/
theorem perm {out' : List Addr} (h : pool.Holds free out) (hperm : out.Perm out') :
    pool.Holds free out' :=
  ⟨h.chain, h.count, ((List.Perm.append_left free hperm).nodup_iff).mp h.nodup,
    fun a ha => h.made a (hperm.mem_iff.mpr ha)⟩

/-- `conn_pop` takes the first connection. -/
theorem popped (h : pool.Holds (conn :: free) out) :
    ∃ pool', connPop pool = .ok (conn, pool') ∧ pool'.Holds free (conn :: out) ∧
      pool'.isIdleBlock = pool.isIdleBlock ∧ PopsHeap pool.heap pool'.heap free := by
  obtain ⟨hlist, hne, node, hnode, hrest⟩ := h.chain.cons_inv
  have hperm : (conn :: free ++ out).Perm (free ++ conn :: out) := List.perm_middle.symm
  have hnodup : (free ++ conn :: out).Nodup := hperm.nodup_iff.mp h.nodup
  have hcount : pool.freeConnections - 1 = free.length := by
    rw [h.count, List.length_cons]
    push_cast
    omega
  have hmade : ∀ a ∈ conn :: out, a ≠ 0 ∧ (pool.heap a).isSome := by
    intro a ha
    rcases List.mem_cons.mp ha with rfl | ha
    · exact ⟨hne, by rw [hnode]; rfl⟩
    · exact h.made a ha
  unfold connPop
  simp only [hlist]
  rw [if_pos hne, Heap.load_eq hnode, ok_bind]
  by_cases hlast : node.next = 0
  · rw [if_neg (by simpa using hlast)]
    rw [hlast] at hrest
    exact ⟨_, rfl, ⟨by rwa [hlast], hcount, hnodup, hmade⟩, rfl,
      Or.inl ⟨hrest.unique (.nil 0), rfl⟩⟩
  · obtain ⟨bs, first, hfree, hfirst⟩ : ∃ bs first, free = node.next :: bs ∧
        pool.heap node.next = some first := by
      cases hfree : free with
      | nil =>
          rw [hfree] at hrest
          exact absurd hrest.nil_inv hlast
      | cons b bs =>
          rw [hfree] at hrest
          obtain ⟨hb, -, first, hfirst, -⟩ := hrest.cons_inv
          exact ⟨bs, first, by rw [hb], by rw [hb, hfirst]⟩
    rw [if_pos (by simpa using hlast), Heap.load_eq hfirst]
    -- the `prev` of the new first node is written, which no `next` pointer shows
    refine ⟨_, rfl, ⟨hrest.congr_next fun b _ => Heap.map_store hfirst _ (by rfl) b, hcount, hnodup,
      fun a ha => ?_⟩, rfl, Or.inr ⟨_, bs, first, hfree, hfirst, rfl⟩⟩
    refine ⟨(hmade a ha).1, ?_⟩
    show (pool.heap.store node.next _ a).isSome
    rw [Heap.isSome_store hfirst]
    exact (hmade a ha).2

theorem pop (h : pool.Holds (conn :: free) out) :
    ∃ pool', connPop pool = .ok (conn, pool') ∧ pool'.Holds free (conn :: out) ∧
      pool'.isIdleBlock = pool.isIdleBlock := by
  obtain ⟨pool', hok, hholds, hidle, -⟩ := h.popped
  exact ⟨pool', hok, hholds, hidle⟩

/-- `conn_pop` of an empty pool is `NULL`. -/
theorem pop_nil (h : pool.Holds [] out) : connPop pool = .ok (0, pool) := by
  unfold connPop
  rw [h.mysqlList_eq_zero_iff.mpr rfl]
  rfl

/-- `conn_push` of a fresh connection puts it last, and leaves those that are out alone. -/
theorem push (h : pool.Holds free (conn :: out)) {node : MysqlConn}
    (hnode : pool.heap conn = some node) (hend : node.next = 0) :
    ∃ pool', connPush pool conn = .ok pool' ∧ pool'.Holds (free ++ [conn]) out ∧
      pool'.isIdleBlock = pool.isIdleBlock ∧ (∀ a ∈ out, pool'.heap a = pool.heap a) ∧
      PushesHeap pool.heap pool'.heap free conn := by
  have hne : conn ≠ 0 := (h.made conn List.mem_cons_self).1
  have hnodup : (free ++ [conn] ++ out).Nodup := by
    rw [List.append_assoc]
    exact h.nodup
  obtain ⟨hfree, hout, hapart⟩ := List.nodup_append.mp h.nodup
  have hfresh : conn ∉ free := fun hmem => hapart conn hmem conn List.mem_cons_self rfl
  have hmade : ∀ a ∈ out, a ≠ 0 ∧ (pool.heap a).isSome := fun a ha =>
    h.made a (List.mem_cons_of_mem _ ha)
  have hcount : pool.freeConnections + 1 = (free ++ [conn]).length := by
    rw [h.count, List.length_append, List.length_singleton]
    push_cast
    rfl
  rcases List.eq_nil_or_concat free with rfl | ⟨front, lc, rfl⟩
  · -- the list is empty: `prev` of the connection is not written
    unfold connPush
    rw [if_pos (h.mysqlList_eq_zero_iff.mpr rfl)]
    exact ⟨_, rfl, ⟨.cons hne hnode (hend ▸ .nil _), hcount, hnodup, hmade⟩, rfl,
      fun _ _ => rfl, Or.inl ⟨rfl, rfl⟩⟩
  · rw [List.concat_eq_append] at *
    have hlist : pool.mysqlList ≠ 0 := fun hz => by
      simpa using h.mysqlList_eq_zero_iff.mp hz
    obtain ⟨-, -, last, hlast, -⟩ := Seg.snoc_iff.mp h.chain
    have hlen := h.chain.length_lt
    rw [List.length_append, List.length_singleton] at hlen
    have hwalk := h.chain.last_eq (show front.length < 2 ^ 64 by omega)
    have hcl : conn ≠ lc := fun heq => hfresh (by simp [heq])
    have hnode' : pool.heap.store lc { last with next := conn } conn = some node := by
      rw [Heap.store_of_ne _ _ hcl, hnode]
    have hseg := h.chain.hang (n := { last with next := conn }) hne hfresh hnode hend rfl
    have hother : ∀ a ∈ out, (pool.heap.store lc { last with next := conn }).store conn
        { node with prev := lc } a = pool.heap a := by
      intro a ha
      rw [Heap.store_of_ne _ _, Heap.store_of_ne _ _]
      · rintro rfl
        exact hapart a (by simp) a (List.mem_cons_of_mem _ ha) rfl
      · rintro rfl
        exact (List.nodup_cons.mp hout).1 ha
    unfold connPush
    rw [if_neg hlist, hwalk, ok_bind, Heap.load_eq hlast, ok_bind]
    simp only [Heap.load_eq hnode', ok_bind]
    refine ⟨_, rfl, ⟨hseg.congr_next fun b _ => Heap.map_store hnode' _ (by rfl) b, hcount, hnodup,
      fun a ha => ?_⟩, rfl, hother, Or.inr ⟨front, lc, last, node, rfl, hlast, hnode, rfl⟩⟩
    refine ⟨(hmade a ha).1, ?_⟩
    dsimp only
    rw [hother a ha]
    exact (hmade a ha).2

/-- A released connection comes back to the end of the list. -/
theorem released (h : pool.Holds free (conn :: out)) :
    ∃ pool', releaseConn pool conn = .ok pool' ∧ pool'.Holds (free ++ [conn]) out ∧
      pool'.isIdleBlock = pool.isIdleBlock ∧
      PushesHeap (pool.heap.store conn { next := 0, prev := 0 }) pool'.heap free conn := by
  obtain ⟨hne, hsome⟩ := h.made conn List.mem_cons_self
  obtain ⟨node, hnode⟩ := Option.isSome_iff_exists.mp hsome
  have hfresh : conn ∉ free := by
    intro hmem
    have hnodup := h.nodup
    rw [List.nodup_append] at hnodup
    exact hnodup.2.2 conn hmem conn List.mem_cons_self rfl
  have hclear : { pool with heap := pool.heap.store conn { next := 0, prev := 0 } }.Holds free
      (conn :: out) := by
    refine ⟨h.chain.congr fun b hb => ?_, h.count, h.nodup, fun a ha => ?_⟩
    · exact Heap.store_of_ne _ _ fun hbc => hfresh (hbc ▸ hb)
    · refine ⟨(h.made a ha).1, ?_⟩
      show (pool.heap.store conn _ a).isSome
      rw [Heap.isSome_store hnode]
      exact (h.made a ha).2
  unfold releaseConn
  rw [Heap.load_eq hnode, ok_bind]
  obtain ⟨pool', hok, hholds, hidle, -, hheap⟩ := hclear.push (Heap.store_self _ _ _) rfl
  exact ⟨pool', hok, hholds, hidle, hheap⟩

theorem release (h : pool.Holds free (conn :: out)) :
    ∃ pool', releaseConn pool conn = .ok pool' ∧ pool'.Holds (free ++ [conn]) out ∧
      pool'.isIdleBlock = pool.isIdleBlock := by
  obtain ⟨pool', hok, hholds, hidle, -⟩ := h.released
  exact ⟨pool', hok, hholds, hidle⟩

end MysqlPool.Holds

/-! ## The links back -/

/-- The list of the pool is doubly linked. -/
def MysqlPool.Linked (pool : MysqlPool) (free : List Addr) : Prop :=
  TwoWay MysqlConn.next MysqlConn.prev pool.heap pool.mysqlList free

/-- A connection goes from the front of a doubly linked list, and leaves one. -/
theorem PopsHeap.twoWay {free : List Addr} {conn : Addr} {heap heap' : Heap MysqlConn}
    (hpop : PopsHeap heap heap' free) {p q : Addr}
    (h : TwoWay MysqlConn.next MysqlConn.prev heap p (conn :: free))
    (hforth : Seg MysqlConn.next heap' q free 0) :
    TwoWay MysqlConn.next MysqlConn.prev heap' q free := by
  refine ⟨hforth, ?_⟩
  obtain ⟨rfl, rfl⟩ | ⟨b, bs, first, rfl, hfirst, rfl⟩ := hpop
  · exact .nil 0
  · have hback := h.back
    rw [List.reverse_cons, List.reverse_cons, List.append_assoc] at hback
    obtain ⟨c, hfront, hrest⟩ := hback.split
    obtain ⟨rfl, hb, -⟩ := hrest.cons_inv
    rw [List.reverse_cons]
    have hlast : (conn :: c :: bs).getLastD 0 = (c :: bs).getLastD 0 := by
      rw [List.getLastD_cons, List.getLastD_cons, List.getLastD_cons]
    rw [hlast] at hfront
    -- the nodes behind the new first one are as they were
    refine Seg.snoc_iff.mpr ⟨hfront.congr fun d hd => ?_, hb, _, Heap.store_self _ _ _, rfl⟩
    refine Heap.store_of_ne _ _ ?_
    rintro rfl
    have hnodup := hforth.nodup
    exact (List.nodup_cons.mp hnodup).1 (List.mem_reverse.mp hd)

/-- A connection pushed on a doubly linked list leaves one. -/
theorem PushesHeap.twoWay {free : List Addr} {conn : Addr} {heap heap' : Heap MysqlConn}
    (hpush : PushesHeap heap heap' free conn) {p q : Addr}
    (h : TwoWay MysqlConn.next MysqlConn.prev heap p free)
    (hconn : (heap conn).map MysqlConn.prev = some 0)
    (hforth : Seg MysqlConn.next heap' q (free ++ [conn]) 0) :
    TwoWay MysqlConn.next MysqlConn.prev heap' q (free ++ [conn]) := by
  refine ⟨hforth, ?_⟩
  obtain ⟨-, hne, -⟩ := Seg.snoc_iff.mp hforth
  rw [List.reverse_append, List.reverse_singleton, List.singleton_append,
    List.getLastD_concat]
  obtain ⟨rfl, rfl⟩ | ⟨front, lc, last, node, rfl, hlast, hnode, rfl⟩ := hpush
  · obtain ⟨node, hnode, hprev⟩ := Option.map_eq_some_iff.mp hconn
    exact .cons hne hnode (hprev ▸ .nil _)
  · have hback := h.back
    rw [List.getLastD_concat] at hback
    refine .cons hne (Heap.store_self _ _ _) (hback.congr_next fun d hd => ?_)
    have hnodup := hforth.nodup
    rw [List.nodup_append] at hnodup
    have hdc : d ≠ conn :=
      hnodup.2.2 d (List.mem_reverse.mp hd) conn (List.mem_singleton_self conn)
    rw [Heap.store_of_ne _ _ hdc]
    exact Heap.map_store hlast _ (by rfl) d

/-- `mysql_pool_init` has made the list of the connections, in their order. -/
theorem mysqlPoolInit_eq {conns : List Addr} (hnodup : conns.Nodup) (hnull : (0 : Addr) ∉ conns) :
    ∃ pool, mysqlPoolInit conns = .ok pool ∧ pool.Holds conns [] ∧ pool.Linked conns := by
  -- the connections of `rest` go behind those of `front`
  have hpush : ∀ (rest front : List Addr) (pool : MysqlPool), pool.Holds front rest →
      pool.Linked front → (∀ a ∈ rest, pool.heap a = some { next := 0, prev := 0 }) →
      ∃ pool', rest.foldlM connPush pool = .ok pool' ∧ pool'.Holds (front ++ rest) [] ∧
        pool'.Linked (front ++ rest) := by
    intro rest
    induction rest with
    | nil =>
        intro front pool h hlinked _
        exact ⟨pool, rfl, by simpa using h, by simpa using hlinked⟩
    | cons conn rest ih =>
        intro front pool h hlinked hclear
        have hnode := hclear conn List.mem_cons_self
        obtain ⟨pool', hok, hholds, -, hother, hheap⟩ := h.push hnode rfl
        have hlinked' := hheap.twoWay hlinked (by rw [hnode]; rfl) hholds.chain
        obtain ⟨pool'', hoks, hend⟩ := ih (front ++ [conn]) pool' hholds hlinked' fun a ha => by
          rw [hother a ha]
          exact hclear a (List.mem_cons_of_mem _ ha)
        refine ⟨pool'', ?_, by simpa using hend⟩
        rw [List.foldlM_cons, hok, ok_bind, hoks]
  refine hpush conns [] _ ⟨.nil 0, rfl, by simpa using hnodup, fun a ha => ?_⟩ ⟨.nil 0, .nil 0⟩
    fun a ha => ?_
  · refine ⟨fun h0 => hnull (h0 ▸ ha), ?_⟩
    simp [ha]
  · simp [ha]

/-! ## The callers -/

/-- The pool, the callers at its condition variable, and the connections that are out. -/
structure ConnState (Caller : Type) where
  pool : MysqlPool
  idleSignal : Waiters Caller
  out : List Addr

/-- What happens in a step; a connection `0` is `NULL`. -/
inductive ConnEvent : Type where
  /-- `get_mysql_connection` returns. -/
  | got (conn : Addr)
  /-- `get_mysql_connection_block` returns, having waited or not. -/
  | gotBlock (waited : Bool) (conn : Addr)
  /-- It goes to sleep. -/
  | sleeps
  | released (conn : Addr)
  | spurious

section
variable {Caller : Type}

/-- A returned connection is out, if it is one. -/
def handOut (conn : Addr) (out : List Addr) : List Addr := if conn = 0 then out else conn :: out

/-- A step of the system. -/
inductive ConnStep : ConnState Caller → ConnEvent → ConnState Caller → Prop where
  /-- `get_mysql_connection`. -/
  | get {s : ConnState Caller} {conn : Addr} {pool : MysqlPool}
      (ok : connPop s.pool = .ok (conn, pool)) :
      ConnStep s (.got conn) { s with pool := pool, out := handOut conn s.out }
  /-- `get_mysql_connection_block` finds a connection. -/
  | getBlock {s : ConnState Caller} {conn : Addr} {pool : MysqlPool}
      (ok : connPop s.pool = .ok (conn, pool)) (found : conn ≠ 0) :
      ConnStep s (.gotBlock false conn) { s with pool := pool, out := handOut conn s.out }
  /-- `get_mysql_connection_block` finds none, and waits. -/
  | wait {s : ConnState Caller} {pool : MysqlPool} (x : Caller)
      (ok : connPop s.pool = .ok (0, pool)) :
      ConnStep s .sleeps { s with
        pool := { pool with isIdleBlock := pool.isIdleBlock + 1 }
        idleSignal := s.idleSignal.sleep x }
  /-- A woken caller gets the lock back: it returns what it finds. -/
  | resume {s : ConnState Caller} {x : Caller} {c : Waiters Caller} {conn : Addr}
      {pool : MysqlPool} (gets : Waiters.Resume s.idleSignal x c)
      (ok : connPop s.pool = .ok (conn, pool)) :
      ConnStep s (.gotBlock true conn)
        { pool := { pool with isIdleBlock := pool.isIdleBlock - 1 }, idleSignal := c
          out := handOut conn s.out }
  /-- `release_mysql_connection` of a connection that is out. -/
  | release {s : ConnState Caller} {a b : List Addr} {conn : Addr} {pool : MysqlPool}
      {c : Waiters Caller} (held : s.out = a ++ conn :: b)
      (ok : releaseConn s.pool conn = .ok pool)
      (signal : if pool.isIdleBlock ≠ 0 then Waiters.Signal s.idleSignal c else c = s.idleSignal) :
      ConnStep s (.released conn) { pool := pool, idleSignal := c, out := a ++ b }
  /-- A caller wakes without a signal. -/
  | spurious {s : ConnState Caller} {c : Waiters Caller}
      (wakes : Waiters.Spurious s.idleSignal c) : ConnStep s .spurious { s with idleSignal := c }

/-- A pool nobody has taken a connection from. -/
def connStart (pool : MysqlPool) : ConnState Caller :=
  { pool := pool, idleSignal := .none, out := [] }

/-- There is a free connection for a caller besides those the woken callers are on their
way to. -/
def Spare (s : ConnState Caller) : Prop :=
  (s.idleSignal.woken.length : ℤ) < s.pool.freeConnections

/-- A caller that did not wait takes a connection, and a caller wakes without a signal,
only when there is one to spare. -/
def NoOvertaking (s : ConnState Caller) : ConnEvent → Prop
  | .got conn => conn ≠ 0 → Spare s
  | .gotBlock false _ => Spare s
  | .spurious => Spare s
  | _ => True

/-- The pool is in order, and there is a connection for every woken caller. -/
structure Supplied (s : ConnState Caller) (free : List Addr) : Prop where
  holds : s.pool.Holds free s.out
  woken : s.idleSignal.woken.length ≤ free.length

/-- Popping hands out the first connection, if there is one. -/
theorem Supplied.pop {s : ConnState Caller} {free : List Addr} (h : Supplied s free)
    {conn : Addr} {pool : MysqlPool} (hpop : connPop s.pool = .ok (conn, pool)) :
    (free = [] ∧ conn = 0 ∧ pool = s.pool) ∨
      ∃ rest, free = conn :: rest ∧ conn ≠ 0 ∧ pool.Holds rest (handOut conn s.out) := by
  have hholds := h.holds
  cases free with
  | nil =>
      rw [hholds.pop_nil] at hpop
      cases hpop
      exact Or.inl ⟨rfl, rfl, rfl⟩
  | cons c rest =>
      obtain ⟨pool', hok, hrest, -⟩ := hholds.pop
      rw [hok, Except.ok.injEq, Prod.mk.injEq] at hpop
      obtain ⟨rfl, rfl⟩ := hpop
      have hne : c ≠ 0 := (hrest.made c List.mem_cons_self).1
      refine Or.inr ⟨rest, rfl, hne, ?_⟩
      unfold handOut
      rwa [if_neg hne]

/-- `is_idle_block` is not part of the list. -/
theorem MysqlPool.Holds.setIdle {pool : MysqlPool} {free out : List Addr}
    (h : pool.Holds free out) (n : ℤ) : { pool with isIdleBlock := n }.Holds free out :=
  ⟨h.chain, h.count, h.nodup, h.made⟩

/-- What one step that overtakes nobody keeps, and returns. -/
theorem ConnStep.supplied {s t : ConnState Caller} {e : ConnEvent} {free : List Addr}
    (h : ConnStep s e t) (hfair : NoOvertaking s e) (hs : Supplied s free) :
    (∃ free, Supplied t free) ∧ ∀ waited, e ≠ .gotBlock waited 0 := by
  have hcount := hs.holds.count
  have hwoken := hs.woken
  cases h with
  | @get conn pool hok =>
      refine ⟨?_, fun _ => by simp⟩
      obtain ⟨rfl, rfl, rfl⟩ | ⟨rest, rfl, hne, hholds⟩ := hs.pop hok
      · exact ⟨[], by simpa [handOut] using hs.holds, hwoken⟩
      · have hspare : Spare s := hfair hne
        refine ⟨rest, hholds, ?_⟩
        unfold Spare at hspare
        rw [hcount, List.length_cons] at hspare
        show s.idleSignal.woken.length ≤ rest.length
        omega
  | @getBlock conn pool hok hfound =>
      refine ⟨?_, fun _ heq => by cases heq; exact hfound rfl⟩
      obtain ⟨-, rfl, -⟩ | ⟨rest, rfl, hne, hholds⟩ := hs.pop hok
      · exact absurd rfl hfound
      · have hspare : Spare s := hfair
        refine ⟨rest, hholds, ?_⟩
        unfold Spare at hspare
        rw [hcount, List.length_cons] at hspare
        show s.idleSignal.woken.length ≤ rest.length
        omega
  | @wait pool x hok =>
      refine ⟨?_, fun _ => by simp⟩
      obtain ⟨rfl, -, rfl⟩ | ⟨rest, rfl, hne, -⟩ := hs.pop hok
      · exact ⟨[], hs.holds.setIdle _, hwoken⟩
      · exact absurd rfl hne
  | @resume x c conn pool hgets hok =>
      have hlen := hgets.length_woken
      obtain ⟨rfl, -, -⟩ | ⟨rest, rfl, hne, hholds⟩ := hs.pop hok
      · -- an empty list has no connection for the caller that was woken
        rw [List.length_nil] at hwoken
        omega
      · refine ⟨⟨rest, hholds.setIdle _, ?_⟩, fun _ heq => by cases heq; exact hne rfl⟩
        rw [List.length_cons] at hwoken
        show c.woken.length ≤ rest.length
        omega
  | @release a b conn pool c hheld hok hsignal =>
      refine ⟨?_, fun _ => by simp⟩
      have hperm : s.out.Perm (conn :: (a ++ b)) := by
        rw [hheld]
        exact List.perm_middle
      obtain ⟨pool', hok', hholds, -⟩ := (hs.holds.perm hperm).release
      rw [hok, Except.ok.injEq] at hok'
      subst hok'
      refine ⟨free ++ [conn], hholds, ?_⟩
      rw [List.length_append, List.length_singleton]
      show c.woken.length ≤ free.length + 1
      -- a signal wakes at most one caller, and there is one connection more
      split at hsignal
      · have hlen := hsignal.length_woken_le
        omega
      · rw [hsignal]
        omega
  | @spurious c hwakes =>
      refine ⟨?_, fun _ => by simp⟩
      have hlen := hwakes.length_woken
      have hspare : Spare s := hfair
      refine ⟨free, hs.holds, ?_⟩
      unfold Spare at hspare
      rw [hcount] at hspare
      show c.woken.length ≤ free.length
      omega

/-- In a run in which nobody overtakes a woken caller, `get_mysql_connection_block` never
returns `NULL`. -/
theorem gotBlock_ne_null {pool : MysqlPool} {free : List Addr} (hpool : pool.Holds free [])
    {es : List ConnEvent} {s : ConnState Caller}
    (h : Steps (fun s e t => ConnStep s e t ∧ NoOvertaking s e) (connStart pool) es s) :
    ∀ waited, .gotBlock waited 0 ∉ es := by
  have hall : (∃ free, Supplied s free) ∧ ∀ waited, .gotBlock waited 0 ∉ es := by
    induction h with
    | nil => exact ⟨⟨free, hpool, Nat.zero_le _⟩, by simp⟩
    | snoc _ hstep ih =>
        obtain ⟨⟨free, hsupplied⟩, hnone⟩ := ih
        obtain ⟨hnext, hevent⟩ := hstep.1.supplied hstep.2 hsupplied
        refine ⟨hnext, fun waited hmem => ?_⟩
        rcases List.mem_append.mp hmem with hmem | hmem
        · exact hnone waited hmem
        · exact hevent waited (List.mem_singleton.mp hmem).symm
  exact hall.2

/-! ## The account of a run -/

/-- The connections handed out in a run, in order. -/
def handedOut (es : List ConnEvent) : List Addr :=
  es.flatMap fun
    | .got conn => handOut conn []
    | .gotBlock _ conn => handOut conn []
    | _ => []

/-- The connections released in a run, in order. -/
def releasedConns (es : List ConnEvent) : List Addr :=
  es.filterMap fun
    | .released conn => some conn
    | _ => none

theorem handedOut_append (es : List ConnEvent) (e : ConnEvent) :
    handedOut (es ++ [e]) = handedOut es ++ handedOut [e] :=
  List.flatMap_append

theorem releasedConns_append (es : List ConnEvent) (e : ConnEvent) :
    releasedConns (es ++ [e]) = releasedConns es ++ releasedConns [e] :=
  List.filterMap_append

/-- The free connections are a doubly linked list, together with those that are out they
are the connections of the pool, and they come in the order they became free. -/
structure ConnAccounts (conns : List Addr) (pool : MysqlPool) (out free : List Addr)
    (es : List ConnEvent) : Prop where
  holds : pool.Holds free out
  linked : pool.Linked free
  all : (free ++ out).Perm conns
  fifo : conns ++ releasedConns es = handedOut es ++ free

namespace ConnAccounts

variable {conns out free : List Addr} {pool : MysqlPool} {es : List ConnEvent}

/-- What hands nothing out and takes nothing back is not part of the account. -/
theorem idle (h : ConnAccounts conns pool out free es) {e : ConnEvent}
    (hreleased : releasedConns [e] = []) (hhanded : handedOut [e] = []) (n : ℤ) :
    ConnAccounts conns { pool with isIdleBlock := n } out free (es ++ [e]) := by
  refine ⟨h.holds.setIdle n, h.linked, h.all, ?_⟩
  rw [releasedConns_append, handedOut_append, hreleased, hhanded, List.append_nil,
    List.append_nil]
  exact h.fifo

/-- A connection, or `NULL`, is handed out. -/
theorem pop (h : ConnAccounts conns pool out free es) {conn : Addr} {pool' : MysqlPool}
    (hok : connPop pool = .ok (conn, pool')) {e : ConnEvent} (hreleased : releasedConns [e] = [])
    (hhanded : handedOut [e] = handOut conn []) :
    ∃ free', ConnAccounts conns pool' (handOut conn out) free' (es ++ [e]) := by
  cases free with
  | nil =>
      rw [h.holds.pop_nil] at hok
      cases hok
      exact ⟨[], h.idle hreleased hhanded pool.isIdleBlock⟩
  | cons c rest =>
      obtain ⟨pool'', hok', hholds, -, hheap⟩ := h.holds.popped
      rw [hok, Except.ok.injEq, Prod.mk.injEq] at hok'
      obtain ⟨rfl, rfl⟩ := hok'
      have hne : conn ≠ 0 := (hholds.made conn List.mem_cons_self).1
      unfold handOut at hhanded ⊢
      rw [if_neg hne] at hhanded ⊢
      refine ⟨rest, hholds, hheap.twoWay h.linked hholds.chain,
        List.perm_middle.trans h.all, ?_⟩
      rw [releasedConns_append, handedOut_append, hreleased, hhanded, List.append_nil, h.fifo,
        List.append_assoc, List.singleton_append]

/-- A connection comes back. -/
theorem release {conn : Addr} (h : ConnAccounts conns pool (conn :: out) free es)
    {pool' : MysqlPool} (hok : releaseConn pool conn = .ok pool') :
    ConnAccounts conns pool' out (free ++ [conn]) (es ++ [.released conn]) := by
  obtain ⟨pool'', hok', hholds, -, hheap⟩ := h.holds.released
  rw [hok, Except.ok.injEq] at hok'
  subst hok'
  have hfresh : conn ∉ free := by
    intro hmem
    have hnodup := h.holds.nodup
    rw [List.nodup_append] at hnodup
    exact hnodup.2.2 conn hmem conn List.mem_cons_self rfl
  -- the node of the connection is cleared, and the list does not go through it
  have hsame : ∀ a ∈ free, pool.heap.store conn { next := 0, prev := 0 } a = pool.heap a := by
    intro a ha
    exact Heap.store_of_ne _ _ fun hac => hfresh (hac ▸ ha)
  have hlinked : TwoWay MysqlConn.next MysqlConn.prev
      (pool.heap.store conn { next := 0, prev := 0 }) pool.mysqlList free :=
    ⟨h.linked.forth.congr hsame,
      h.linked.back.congr fun a ha => hsame a (List.mem_reverse.mp ha)⟩
  refine ⟨hholds, hheap.twoWay hlinked ?_ hholds.chain, ?_, ?_⟩
  · rw [Heap.store_self]
    rfl
  · rw [List.append_assoc]
    exact h.all
  · rw [releasedConns_append, handedOut_append, ← List.append_assoc, h.fifo]
    show _ = handedOut es ++ [] ++ (free ++ [conn])
    rw [List.append_nil, List.append_assoc]
    rfl

/-- The order of the connections that are out does not matter. -/
theorem perm {out' : List Addr} (h : ConnAccounts conns pool out free es) (hperm : out.Perm out') :
    ConnAccounts conns pool out' free es :=
  ⟨h.holds.perm hperm, h.linked, (List.Perm.append_left free hperm.symm).trans h.all, h.fifo⟩

end ConnAccounts

/-- What one step does to the account. -/
theorem ConnStep.accounts {conns free : List Addr} {s t : ConnState Caller} {e : ConnEvent}
    {es : List ConnEvent} (hstep : ConnStep s e t)
    (h : ConnAccounts conns s.pool s.out free es) :
    ∃ free', ConnAccounts conns t.pool t.out free' (es ++ [e]) := by
  cases hstep with
  | get hok => exact h.pop hok rfl (List.append_nil _)
  | getBlock hok hfound => exact h.pop hok rfl (List.append_nil _)
  | @wait pool x hok =>
      -- the pop was of an empty list, and has changed nothing
      cases free with
      | nil =>
          rw [h.holds.pop_nil] at hok
          cases hok
          exact ⟨[], h.idle rfl rfl _⟩
      | cons c rest =>
          obtain ⟨pool', hok', hholds, -⟩ := h.holds.pop
          rw [hok, Except.ok.injEq, Prod.mk.injEq] at hok'
          obtain ⟨rfl, -⟩ := hok'
          exact absurd rfl (hholds.made 0 List.mem_cons_self).1
  | @resume x c conn pool hgets hok =>
      obtain ⟨free', hacc⟩ := h.pop hok (e := .gotBlock true conn) rfl (List.append_nil _)
      exact ⟨free', hacc.holds.setIdle _, hacc.linked, hacc.all, hacc.fifo⟩
  | @release a b conn pool c hheld hok hsignal =>
      have hperm : s.out.Perm (conn :: (a ++ b)) := by
        rw [hheld]
        exact List.perm_middle
      exact ⟨_, (h.perm hperm).release hok⟩
  | spurious hwakes => exact ⟨free, h.idle rfl rfl s.pool.isIdleBlock⟩

/-- What is promised of a run of the pool: `free` are the connections in the list. -/
structure ConnSound (conns : List Addr) (s : ConnState Caller) (es : List ConnEvent)
    (free : List Addr) : Prop where
  count : s.pool.freeConnections = free.length
  /-- The list is doubly linked, `NULL` is at both ends of it, and the links undo each other. -/
  linked : s.pool.Linked free
  first : ∀ a, free.head? = some a → (s.pool.heap a).map MysqlConn.prev = some 0
  last : ∀ a, free.getLast? = some a → (s.pool.heap a).map MysqlConn.next = some 0
  inverse : ∀ a ∈ free, ∀ b ∈ free, (s.pool.heap a).map MysqlConn.next = some b ↔
    (s.pool.heap b).map MysqlConn.prev = some a
  /-- With those that are out these are the connections of the pool, each once. -/
  all : (free ++ s.out).Perm conns
  nodup : (free ++ s.out).Nodup
  /-- First free, first handed out. -/
  fifo : conns ++ releasedConns es = handedOut es ++ free
  /-- The next one to be handed out is the first, or `NULL`; what is out can be released. -/
  gets : ∃ pool, connPop s.pool = .ok (free.headD 0, pool)
  releases : ∀ conn ∈ s.out, ∃ pool, releaseConn s.pool conn = .ok pool

/-- From the list `mysql_pool_init` builds, every run of callers that get connections,
waiting for them or not, and release those that are out, keeps the list and its counter. -/
theorem conn_run {conns : List Addr} (hnodup : conns.Nodup) (hnull : (0 : Addr) ∉ conns)
    {pool : MysqlPool} (hinit : mysqlPoolInit conns = .ok pool) {es : List ConnEvent}
    {s : ConnState Caller} (h : Steps ConnStep (connStart pool) es s) :
    ∃ free, ConnSound conns s es free := by
  have hall : ∃ free, ConnAccounts conns s.pool s.out free es := by
    induction h with
    | nil =>
        obtain ⟨pool', hok, hholds, hlinked⟩ := mysqlPoolInit_eq hnodup hnull
        rw [hinit, Except.ok.injEq] at hok
        subst hok
        exact ⟨conns, hholds, hlinked, by simp [connStart], by simp [releasedConns, handedOut]⟩
    | snoc _ hstep ih =>
        obtain ⟨free, hacc⟩ := ih
        exact hstep.accounts hacc
  obtain ⟨free, hacc⟩ := hall
  have hlinked := hacc.linked
  refine ⟨free, hacc.holds.count, hlinked, ?_, ?_, ?_, hacc.all, hacc.holds.nodup, hacc.fifo,
    ?_, ?_⟩
  · intro a ha
    obtain ⟨rest, rfl⟩ := List.head?_eq_some_iff.mp ha
    exact hlinked.prev_head
  · intro a ha
    obtain ⟨front, rfl⟩ := List.getLast?_eq_some_iff.mp ha
    exact hlinked.next_last
  · intro a ha b hb
    exact hlinked.next_iff_prev ha hb
  · cases free with
    | nil => exact ⟨_, hacc.holds.pop_nil⟩
    | cons c rest =>
        obtain ⟨pool', hok, -⟩ := hacc.holds.pop
        exact ⟨pool', hok⟩
  · intro conn hconn
    obtain ⟨a, b, hout⟩ := List.append_of_mem hconn
    have hperm : s.out.Perm (conn :: (a ++ b)) := by
      rw [hout]
      exact List.perm_middle
    obtain ⟨pool', hok, -⟩ := (hacc.holds.perm hperm).release
    exact ⟨pool', hok⟩

/-- Both connections of a pool are taken, a third caller gets none, and the one that comes
back is handed out again. -/
theorem conn_run_emptied : ∃ (s : ConnState ℕ) (free : List Addr), ConnSound [16, 32] s
    [.got 16, .got 32, .got 0, .released 32, .got 32] free := by
  obtain ⟨pool, hinit, hholds, -⟩ :=
    mysqlPoolInit_eq (show [16, 32].Nodup by decide) (by decide)
  obtain ⟨pool₁, hok₁, hholds₁, -⟩ := hholds.pop
  obtain ⟨pool₂, hok₂, hholds₂, -⟩ := hholds₁.pop
  obtain ⟨pool₃, hok₃, hholds₃, hidle₃⟩ := hholds₂.release
  obtain ⟨pool₄, hok₄, -⟩ := hholds₃.pop
  have hsignal : if pool₃.isIdleBlock ≠ 0 then Waiters.Signal (.none : Waiters ℕ) .none
      else (.none : Waiters ℕ) = .none := by
    split
    · exact .lost rfl
    · rfl
  have hget₁ : ConnStep (connStart pool) (.got 16) (⟨pool₁, .none, [16]⟩ : ConnState ℕ) :=
    .get hok₁
  have hget₂ : ConnStep ⟨pool₁, .none, [16]⟩ (.got 32) (⟨pool₂, .none, [32, 16]⟩ : ConnState ℕ) :=
    .get hok₂
  have hnone : ConnStep ⟨pool₂, .none, [32, 16]⟩ (.got 0)
      (⟨pool₂, .none, [32, 16]⟩ : ConnState ℕ) := .get hholds₂.pop_nil
  have hback : ConnStep ⟨pool₂, .none, [32, 16]⟩ (.released 32)
      (⟨pool₃, .none, [16]⟩ : ConnState ℕ) := .release (a := []) rfl hok₃ hsignal
  have hget₄ : ConnStep ⟨pool₃, .none, [16]⟩ (.got 32) (⟨pool₄, .none, [32, 16]⟩ : ConnState ℕ) :=
    .get hok₄
  exact ⟨_, conn_run (by decide) (by decide) hinit
    (((((Steps.nil.snoc hget₁).snoc hget₂).snoc hnone).snoc hback).snoc hget₄)⟩

end

/-! ## A pool of one connection -/

/-- A pool with the connection at 16. -/
def onePoolConn : MysqlPool :=
  { heap := fun a => if a = 16 then some { next := 0, prev := 0 } else none
    mysqlList := 16, freeConnections := 1, isIdleBlock := 0 }

theorem onePoolConn_holds : onePoolConn.Holds [16] [] where
  chain := .cons (by decide) rfl (.nil 0)
  count := rfl
  nodup := by simp
  made := by simp

/-- Caller 1 takes the connection, caller 2 waits for it, and caller 1 releases it: caller 2
is woken. -/
theorem exists_handOver : ∃ pool : MysqlPool, pool.Holds [16] [] ∧
    Steps (fun s e t => ConnStep s e t ∧ NoOvertaking s e) (connStart onePoolConn)
      [.gotBlock false 16, .sleeps, .released 16] (⟨pool, ⟨[], [2]⟩, []⟩ : ConnState ℕ) := by
  obtain ⟨pool₁, hpop, hholds₁, hidle₁⟩ := onePoolConn_holds.pop
  have hholds₂ := hholds₁.setIdle (pool₁.isIdleBlock + 1)
  obtain ⟨pool₃, hrelease, hholds₃, hidle₃⟩ := hholds₂.release
  have hwaits : pool₃.isIdleBlock ≠ 0 := by
    rw [hidle₃]
    show pool₁.isIdleBlock + 1 ≠ 0
    rw [hidle₁]
    decide
  have hsignal : Waiters.Signal (⟨[2], []⟩ : Waiters ℕ) ⟨[], [2]⟩ :=
    .wakes (a := []) (b := []) (x := 2)
  have hget : ConnStep (connStart onePoolConn) (.gotBlock false 16)
      (⟨pool₁, .none, [16]⟩ : ConnState ℕ) := .getBlock hpop (by decide)
  have hwait : ConnStep (⟨pool₁, .none, [16]⟩ : ConnState ℕ) .sleeps
      ⟨{ pool₁ with isIdleBlock := pool₁.isIdleBlock + 1 }, ⟨[2], []⟩, [16]⟩ :=
    .wait 2 hholds₁.pop_nil
  have hback : ConnStep
      (⟨{ pool₁ with isIdleBlock := pool₁.isIdleBlock + 1 }, ⟨[2], []⟩, [16]⟩ : ConnState ℕ)
      (.released 16) ⟨pool₃, ⟨[], [2]⟩, []⟩ :=
    .release (a := []) (b := []) rfl hrelease (by rw [if_pos hwaits]; exact hsignal)
  exact ⟨pool₃, hholds₃, ((Steps.nil.snoc ⟨hget, by show (0 : ℤ) < 1; decide⟩).snoc
    ⟨hwait, trivial⟩).snoc ⟨hback, trivial⟩⟩

/-- The woken caller gets the connection. -/
theorem gotBlock_ne_null_handOver : .gotBlock true 0 ∉
    ([.gotBlock false 16, .sleeps, .released 16, .gotBlock true 16] : List ConnEvent) := by
  obtain ⟨pool, hholds, hrun⟩ := exists_handOver
  obtain ⟨pool', hpop, -, -⟩ := hholds.pop
  have hresume : ConnStep (⟨pool, ⟨[], [2]⟩, []⟩ : ConnState ℕ) (.gotBlock true 16)
      ⟨{ pool' with isIdleBlock := pool'.isIdleBlock - 1 }, .none, [16]⟩ :=
    .resume (.gets (a := []) (b := [])) hpop
  exact gotBlock_ne_null onePoolConn_holds (hrun.snoc ⟨hresume, trivial⟩) true

/-- Another caller takes the connection before the woken one has the lock. -/
theorem exists_gotBlock_null : ∃ s : ConnState ℕ,
    Steps ConnStep (connStart onePoolConn)
      [.gotBlock false 16, .sleeps, .released 16, .got 16, .gotBlock true 0] s := by
  obtain ⟨pool, hholds, hrun⟩ := exists_handOver
  obtain ⟨pool', hpop, hholds', -⟩ := hholds.pop
  have htake : ConnStep (⟨pool, ⟨[], [2]⟩, []⟩ : ConnState ℕ) (.got 16)
      ⟨pool', ⟨[], [2]⟩, [16]⟩ := .get hpop
  have hresume : ConnStep (⟨pool', ⟨[], [2]⟩, [16]⟩ : ConnState ℕ) (.gotBlock true 0)
      ⟨{ pool' with isIdleBlock := pool'.isIdleBlock - 1 }, .none, [16]⟩ :=
    .resume (.gets (a := []) (b := [])) hholds'.pop_nil
  exact ⟨_, ((hrun.mono fun _ _ _ h => h.1).snoc htake).snoc hresume⟩
