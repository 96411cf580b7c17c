/-
# Database calls

`exe_sql` (`model.c`) and `mysql_execute_query` (`cpool.c`): each takes a connection
from the pool, sends its statement, and gives the connection back, but for `exe_sql`
when its statement fails.  One caller runs the calls one after the other, so a call that
finds the pool empty waits for a signal nobody gives, and does not return.

The client library is a parameter.  `exe_sql` hands a result set to `mysql_free_result`
and then to `free`; the second is a fault when the first has freed the `MYSQL_RES`.
-/
import DmfServer.ConnPool

open CMem

/-- What comes of a statement. -/
inductive QueryOutcome : Type where
  /-- The query returns `res`, which is not 0. -/
  | fails (res : ℤ)
  /-- It succeeds, and `mysql_store_result` returns `NULL`. -/
  | noResult
  | result
  deriving DecidableEq

/-- What is taken of the client library. -/
structure MysqlClient where
  /-- `mysql_free_result` frees the `MYSQL_RES` it is given. -/
  freesHandle : Bool

/-! ## The functions -/

/-- `get_mysql_connection_block` of a single caller; `none` if it waits. -/
def getMysqlConnectionBlock (pool : MysqlPool) : Except Fault (Option (Addr × MysqlPool)) :=
  (connPop pool).map fun r => if r.1 = 0 then none else some r

/-- `exe_sql`; `none` if it does not return.  What comes of the `set names utf8` in front of
the statement is not looked at. -/
def exeSql (client : MysqlClient) (pool : MysqlPool) (outcome : QueryOutcome) :
    Except Fault (Option MysqlPool) := do
  match ← getMysqlConnectionBlock pool with
  | none => .ok none
  | some (cc, pool) =>
      match outcome with
      | .fails _ => .ok (some pool)
      | .noResult => (releaseConn pool cc).map some -- `free(NULL)` does nothing
      | .result =>
          if client.freesHandle then .error .free
          else (releaseConn pool cc).map some

/-- `mysql_execute_query`: the pool, `*flag`, and whether a result set is returned; `none`
if it does not return. -/
def mysqlExecuteQuery (pool : MysqlPool) (outcome : QueryOutcome) :
    Except Fault (Option (MysqlPool × ℤ × Bool)) := do
  match ← getMysqlConnectionBlock pool with
  | none => .ok none
  | some (con, pool) =>
      if con = 0 then .ok (some (pool, -2, false))
      else
        match outcome with
        | .fails res => (releaseConn pool con).map fun pool => some (pool, res, false)
        | .noResult => (releaseConn pool con).map fun pool => some (pool, 0, false)
        | .result => (releaseConn pool con).map fun pool => some (pool, 0, true)

/-- A call, and what comes of its statement. -/
inductive DbCall : Type where
  | exeSql (outcome : QueryOutcome)
  | executeQuery (outcome : QueryOutcome)
  deriving DecidableEq

/-- A call run on the pool. -/
def runCall (client : MysqlClient) (pool : MysqlPool) : DbCall → Except Fault (Option MysqlPool)
  | .exeSql outcome => exeSql client pool outcome
  | .executeQuery outcome => (mysqlExecuteQuery pool outcome).map (Option.map Prod.fst)

/-- Calls one after the other; `none` if one of them does not return. -/
def runCalls (client : MysqlClient) : MysqlPool → List DbCall → Except Fault (Option MysqlPool)
  | pool, [] => .ok (some pool)
  | pool, call :: calls => do
      match ← runCall client pool call with
      | none => .ok none
      | some pool => runCalls client pool calls

/-- The calls do not fault, and if they return, the free list has the connections it had,
and the counter its value. -/
def GivesBack (client : MysqlClient) (pool : MysqlPool) (calls : List DbCall) : Prop :=
  ∃ r, runCalls client pool calls = .ok r ∧ ∀ pool' ∈ r,
    pool'.freeConnections = pool.freeConnections ∧
      ∀ free free', pool.Holds free [] → Seg MysqlConn.next pool'.heap pool'.mysqlList free' 0 →
        free'.Perm free

/-! ## One call -/

/-- `exe_sql` keeps the connection of a statement that fails. -/
def DbCall.keeps : DbCall → Bool
  | .exeSql (.fails _) => true
  | _ => false

/-- `exe_sql` frees a result set twice. -/
def DbCall.freesTwice (client : MysqlClient) : DbCall → Bool
  | .exeSql .result => client.freesHandle
  | _ => false

section
variable {client : MysqlClient} {pool : MysqlPool} {conn : Addr} {free out : List Addr}

/-- A call that finds the pool empty waits. -/
theorem runCall_empty (h : pool.Holds [] out) (call : DbCall) :
    runCall client pool call = .ok none := by
  have hwait : getMysqlConnectionBlock pool = .ok none := by
    unfold getMysqlConnectionBlock
    rw [h.pop_nil]
    rfl
  cases call with
  | exeSql outcome =>
      unfold runCall exeSql
      rw [hwait]
      rfl
  | executeQuery outcome =>
      unfold runCall mysqlExecuteQuery
      rw [hwait]
      rfl

variable (client) in
/-- A call that finds a connection frees a result set twice, or keeps the connection, or
puts it back at the end of the list. -/
theorem runCall_cons (h : pool.Holds (conn :: free) out) (call : DbCall) :
    (call.freesTwice client = true ∧ runCall client pool call = .error .free) ∨
    (call.freesTwice client = false ∧ ∃ pool', runCall client pool call = .ok (some pool') ∧
      if call.keeps then pool'.Holds free (conn :: out)
      else pool'.Holds (free ++ [conn]) out) := by
  obtain ⟨pool₁, hpop, hholds, -⟩ := h.pop
  have hne : conn ≠ 0 := (hholds.made conn List.mem_cons_self).1
  have hget : getMysqlConnectionBlock pool = .ok (some (conn, pool₁)) := by
    unfold getMysqlConnectionBlock
    rw [hpop, ok_map]
    dsimp only
    rw [if_neg hne]
  obtain ⟨pool₂, hrelease, hback, -⟩ := hholds.release
  cases call with
  | exeSql outcome =>
      have hrun : runCall client pool (.exeSql outcome) = match outcome with
          | .fails _ => .ok (some pool₁)
          | .noResult => (releaseConn pool₁ conn).map some
          | .result => if client.freesHandle then .error .free
              else (releaseConn pool₁ conn).map some := by
        unfold runCall exeSql
        rw [hget]
        rfl
      rw [hrun, hrelease]
      cases outcome with
      | fails res => exact Or.inr ⟨rfl, pool₁, rfl, hholds⟩
      | noResult => exact Or.inr ⟨rfl, pool₂, rfl, hback⟩
      | result =>
          cases hfrees : client.freesHandle with
          | true => exact Or.inl ⟨hfrees, rfl⟩
          | false => exact Or.inr ⟨hfrees, pool₂, rfl, hback⟩
  | executeQuery outcome =>
      refine Or.inr ⟨rfl, pool₂, ?_, hback⟩
      unfold runCall mysqlExecuteQuery
      rw [hget]
      simp only [ok_bind, if_neg hne, hrelease]
      cases outcome <;> rfl

end

/-! ## A run of calls -/

/-- How many connections the calls keep. -/
def keptConns (calls : List DbCall) : ℕ := calls.countP DbCall.keeps

/-- The calls in front of one of them keep all `n` connections, so that it waits. -/
def RunsDry (client : MysqlClient) (n : ℕ) (calls : List DbCall) : Prop :=
  ∃ front call rest, calls = front ++ call :: rest ∧ keptConns front = n ∧
    ∀ c ∈ front, c.freesTwice client = false

section
variable {client : MysqlClient}

theorem not_runsDry_nil (n : ℕ) : ¬RunsDry client n [] := by
  rintro ⟨front, call, rest, hsplit, -⟩
  simp at hsplit

theorem runsDry_zero (call : DbCall) (calls : List DbCall) :
    RunsDry client 0 (call :: calls) :=
  ⟨[], call, calls, rfl, rfl, by simp⟩

variable (client) in
/-- With connections left, the first call returns and leaves the rest to run dry. -/
theorem runsDry_cons {n m : ℕ} {call : DbCall} (calls : List DbCall) (hn : n ≠ 0)
    (hm : m + (if call.keeps then 1 else 0) = n) :
    RunsDry client n (call :: calls) ↔
      call.freesTwice client = false ∧ RunsDry client m calls := by
  constructor
  · rintro ⟨front, c, rest, hsplit, hkept, hfine⟩
    cases front with
    | nil => exact absurd hkept.symm hn
    | cons d front =>
        rw [List.cons_append, List.cons.injEq] at hsplit
        obtain ⟨rfl, rfl⟩ := hsplit
        refine ⟨hfine call List.mem_cons_self, front, c, rest, rfl, ?_,
          fun e he => hfine e (List.mem_cons_of_mem _ he)⟩
        unfold keptConns at hkept ⊢
        rw [List.countP_cons] at hkept
        omega
  · rintro ⟨hfirst, front, c, rest, rfl, hkept, hfine⟩
    refine ⟨call :: front, c, rest, rfl, ?_, ?_⟩
    · unfold keptConns at hkept ⊢
      rw [List.countP_cons]
      omega
    · intro e he
      rcases List.mem_cons.mp he with rfl | he
      · exact hfirst
      · exact hfine e he

/-- The three ways a run of calls ends: a call waits, a call frees a result set twice, or
all return, with the connections that were kept missing. -/
inductive CallsEnd (client : MysqlClient) (free : List Addr) (calls : List DbCall) :
    Except Fault (Option MysqlPool) → Prop where
  | waits (dry : RunsDry client free.length calls) : CallsEnd client free calls (.ok none)
  | twice (wet : ¬RunsDry client free.length calls) {c : DbCall} (mem : c ∈ calls)
      (freesTwice : c.freesTwice client = true) : CallsEnd client free calls (.error .free)
  | returns {pool : MysqlPool} {free' out : List Addr}
      (wet : ¬RunsDry client free.length calls)
      (fine : ∀ c ∈ calls, c.freesTwice client = false) (holds : pool.Holds free' out)
      (count : free'.length + keptConns calls = free.length)
      (perm : keptConns calls = 0 → free'.Perm free) : CallsEnd client free calls (.ok (some pool))

variable (client) in
/-- Every run of calls ends in one of them. -/
theorem callsEnd {pool : MysqlPool} {free out : List Addr} (h : pool.Holds free out)
    (calls : List DbCall) : CallsEnd client free calls (runCalls client pool calls) := by
  induction calls generalizing pool free out with
  | nil => exact .returns (not_runsDry_nil _) (by simp) h rfl fun _ => .refl _
  | cons call calls ih =>
      cases free with
      | nil =>
          rw [runCalls, runCall_empty h]
          exact .waits (runsDry_zero call calls)
      | cons conn free =>
          obtain ⟨htwice, herr⟩ | ⟨htwice, pool₁, hok, hnext⟩ :=
            runCall_cons client h call
          · rw [runCalls, herr]
            refine .twice (fun hdry => ?_) List.mem_cons_self htwice
            rw [runsDry_cons client (m := (conn :: free).length - if call.keeps then 1 else 0) calls
              (by simp) (by simp only [List.length_cons]; split <;> omega), htwice] at hdry
            exact absurd hdry.1 (by simp)
          · have hrun : runCalls client pool (call :: calls) = runCalls client pool₁ calls := by
              rw [runCalls, hok]
              rfl
            rw [hrun]
            -- the connections the rest of the calls finds
            obtain ⟨free₁, out₁, hholds, hlen, hperm⟩ : ∃ free₁ out₁, pool₁.Holds free₁ out₁ ∧
                free₁.length + (if call.keeps then 1 else 0) = (conn :: free).length ∧
                (call.keeps = false → free₁.Perm (conn :: free)) := by
              cases hkeeps : call.keeps with
              | true =>
                  rw [hkeeps] at hnext
                  exact ⟨free, conn :: out, hnext, rfl, by simp⟩
              | false =>
                  rw [hkeeps] at hnext
                  refine ⟨free ++ [conn], out, hnext, by simp, fun _ => ?_⟩
                  exact List.perm_append_singleton conn free
            have hdry := runsDry_cons client calls (by simp) hlen
            have hkept : keptConns (call :: calls)
                = keptConns calls + if call.keeps then 1 else 0 := List.countP_cons
            have hrest := ih hholds
            generalize runCalls client pool₁ calls = r at hrest ⊢
            cases hrest with
            | waits dry => exact .waits (hdry.mpr ⟨htwice, dry⟩)
            | twice wet mem freesTwice =>
                exact .twice (fun hd => wet (hdry.mp hd).2) (List.mem_cons_of_mem _ mem)
                  freesTwice
            | returns wet fine holds count perm =>
                refine .returns (fun hd => wet (hdry.mp hd).2) ?_ holds ?_ fun hzero => ?_
                · intro c hc
                  rcases List.mem_cons.mp hc with rfl | hc
                  · exact htwice
                  · exact fine c hc
                · omega
                · cases hkeeps : call.keeps with
                  | true => simp [hkept, hkeeps] at hzero
                  | false =>
                      have hrest : keptConns calls = 0 := by omega
                      exact (perm hrest).trans (hperm hkeeps)

/-- The calls give back the connections exactly when none of them keeps one or frees a
result set twice, or when they do not all return because the pool runs dry. -/
theorem givesBack_iff {pool : MysqlPool} {free : List Addr} (h : pool.Holds free [])
    (calls : List DbCall) :
    GivesBack client pool calls ↔
      (∀ c ∈ calls, c.keeps = false ∧ c.freesTwice client = false) ∨
        RunsDry client free.length calls := by
  have hend := callsEnd client h calls
  unfold GivesBack
  constructor
  · rintro ⟨r, hrun, hback⟩
    rw [hrun] at hend
    cases hend with
    | waits dry => exact Or.inr dry
    | @returns pool' free' out wet fine holds count perm =>
        refine Or.inl fun c hc => ⟨?_, fine c hc⟩
        have hcount := (hback pool' rfl).1
        rw [holds.count, h.count] at hcount
        have hzero : keptConns calls = 0 := by omega
        have hnone := List.countP_eq_zero.mp hzero c hc
        simpa using hnone
  · intro hcond
    cases hrun : runCalls client pool calls with
    | error e =>
        rw [hrun] at hend
        cases hend with
        | twice wet mem freesTwice =>
            rcases hcond with hfine | hdry
            · rw [(hfine _ mem).2] at freesTwice
              cases freesTwice
            · exact absurd hdry wet
    | ok r =>
        refine ⟨r, rfl, fun pool' hr => ?_⟩
        rw [hrun, Option.mem_def.mp hr] at hend
        cases hend with
        | @returns _ free' out wet fine holds count perm =>
            -- no call has kept its connection, so the list has all of them again
            have hzero : keptConns calls = 0 := by
              rcases hcond with hfine | hdry
              · exact List.countP_eq_zero.mpr fun c hc => by simp [(hfine c hc).1]
              · exact absurd hdry wet
            refine ⟨by rw [holds.count, h.count]; omega, fun free₁ free₂ hfree₁ hseg => ?_⟩
            rw [hseg.unique holds.chain, hfree₁.chain.unique h.chain]
            exact perm hzero

/-- Two statements that succeed, on a pool of one connection. -/
theorem givesBack_once : GivesBack ⟨true⟩ onePoolConn
    [.exeSql .noResult, .executeQuery .result] :=
  (givesBack_iff onePoolConn_holds _).mpr (Or.inl (by decide))

/-- A statement of `exe_sql` that fails keeps its connection. -/
theorem not_givesBack_failing : ¬∀ (client : MysqlClient) (pool : MysqlPool) (free : List Addr),
    pool.Holds free [] → ∀ calls, GivesBack client pool calls := by
  intro h
  obtain ⟨r, hrun, hback⟩ := h ⟨true⟩ onePoolConn [16] onePoolConn_holds [.exeSql (.fails 1)]
  have hend := callsEnd ⟨true⟩ onePoolConn_holds [.exeSql (.fails 1)]
  rw [hrun] at hend
  have hwet : ¬RunsDry ⟨true⟩ 1 [.exeSql (.fails 1)] := by
    rw [runsDry_cons ⟨true⟩ (n := 1) (m := 0) [] (by decide) rfl]
    exact fun hd => not_runsDry_nil _ hd.2
  cases hend with
  | waits dry => exact hwet dry
  | @returns pool' free' out wet fine holds count perm =>
      have hcount := (hback pool' rfl).1
      rw [holds.count] at hcount
      have hkept : keptConns [.exeSql (.fails 1)] = 1 := rfl
      have hone : onePoolConn.freeConnections = 1 := rfl
      rw [List.length_singleton] at count
      omega

end
