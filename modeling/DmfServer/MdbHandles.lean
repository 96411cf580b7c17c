/-
# The handles of the cache server

`main` gets a `PerHandleData` from `malloc` for every connection that it accepts, and the
completion port hands its address out with each message of the connection.  Whoever closes the
connection frees the handle.  `next` posts a receive and writes `status` behind it, to the address
it was called with: by then another thread can have closed the connection, and `malloc` can have
given the address to the handle of a new one.

* A write that comes too late sets the `status` of another connection, which is then served
  without a password (`not_served_authenticated_late`).
* As long as no write comes too late, the server is the one of `MdbServer`, in which every
  connection has a handle of its own (`HandleStep.simulates`), and serves only those that said the
  password (`served_authenticated_inTime`).
-/
import DmfServer.MdbServer
import DmfServer.LinkedList

open CMem StepSystem

/-- `per_handle_data_t`: the connection of its socket, and `status`. -/
structure PerHandleData (Conn : Type) where
  socket : Conn
  status : ℤ

/-- What the completion port hands out with the messages of a connection. -/
inductive CompletionKey : Type where
  /-- Not accepted yet. -/
  | fresh
  | handle (p : Addr)
  /-- The socket is closed. -/
  | closed

/-- The handles in memory, and the threads behind the receive and before the write of `status`
with the address that they write to. -/
structure HandleState (Conn : Type) where
  heap : Heap (PerHandleData Conn)
  key : Conn → CompletionKey
  pending : List (Conn × Addr)

section
variable {Conn : Type}

namespace HandleState

/-- The `status` that the next message of a connection will find. -/
def status (s : HandleState Conn) (c : Conn) : Option ℤ :=
  match s.key c with
  | .handle p => (s.heap p).map PerHandleData.status
  | _ => none

/-- `PerHandleData->status = 1`; what is written to freed memory is not read again. -/
def setStatus (s : HandleState Conn) (p : Addr) : HandleState Conn :=
  match s.heap p with
  | some h => { s with heap := s.heap.store p { h with status := 1 } }
  | none => s

variable [DecidableEq Conn]

/-- `accept` and `malloc`. -/
def accept (s : HandleState Conn) (c : Conn) (p : Addr) : HandleState Conn :=
  { s with heap := s.heap.store p ⟨c, 0⟩, key := Function.update s.key c (.handle p) }

/-- `closesocket` and `free`. -/
def close (s : HandleState Conn) (c : Conn) (p : Addr) : HandleState Conn :=
  { s with heap := Function.update s.heap p none, key := Function.update s.key c .closed }

end HandleState

/-- Nobody has connected yet. -/
def handleStart : HandleState Conn where
  heap := fun _ => none
  key := fun _ => .fresh
  pending := []

/-- The write of `status` comes while the connection is open that `next` was called for. -/
def InTime (s : HandleState Conn) : ServerEvent Conn → Prop
  | .statusSet c => ∃ p, s.key c = .handle p
  | _ => True

/-! ## Handles of their own -/

/-- Every connection as the server of `MdbServer` has it. -/
def HandleState.view (s : HandleState Conn) : ServerState Conn where
  handle c :=
    match s.key c with
    | .fresh => .fresh
    | .handle p => (s.heap p).elim .closed fun h => .live h.status
    | .closed => .closed
  pending := s.pending.map Prod.fst

/-- The handle of an open connection is in memory, and nobody else's; a thread writes to that of
the connection it was called for. -/
structure HandleState.Owned (s : HandleState Conn) : Prop where
  own : ∀ c p, s.key c = .handle p → ∃ status, s.heap p = some ⟨c, status⟩
  writers : ∀ c p, (c, p) ∈ s.pending → s.key c = .handle p ∨ s.key c = .closed

/-- An address is the handle of one connection. -/
theorem HandleState.Owned.address_ne {s : HandleState Conn} (h : s.Owned) {c d : Conn} {p : Addr}
    (hc : s.key c = .handle p) (hne : d ≠ c) : s.key d ≠ .handle p := by
  intro hd
  obtain ⟨status, hread⟩ := h.own c p hc
  obtain ⟨status', hread'⟩ := h.own d p hd
  rw [hread, Option.some.injEq, PerHandleData.mk.injEq] at hread'
  exact hne hread'.1.symm

namespace HandleState.Owned

variable {s : HandleState Conn} (h : s.Owned)
include h

theorem setStatus (p : Addr) : (s.setStatus p).Owned := by
  cases hread : s.heap p with
  | none =>
      rw [HandleState.setStatus, hread]
      exact h
  | some data =>
      rw [HandleState.setStatus, hread]
      refine ⟨?_, h.writers⟩
      intro d q hkey
      obtain ⟨status, hd⟩ := h.own d q hkey
      by_cases hq : q = p
      · subst hq
        rw [hread] at hd
        cases hd
        exact ⟨1, Heap.store_self _ _ _⟩
      · exact ⟨status, (Heap.store_of_ne _ _ hq).trans hd⟩

theorem post {c : Conn} {p : Addr} (hkey : s.key c = .handle p) :
    HandleState.Owned { s with pending := (c, p) :: s.pending } := by
  refine ⟨h.own, ?_⟩
  intro d q hmem
  rcases List.mem_cons.mp hmem with heq | hmem
  · cases heq
    exact Or.inl hkey
  · exact h.writers d q hmem

theorem written {a b : List (Conn × Addr)} {c : Conn} {p : Addr}
    (hrunning : s.pending = a ++ (c, p) :: b) :
    HandleState.Owned { s with pending := a ++ b } := by
  refine ⟨h.own, ?_⟩
  intro d q hmem
  apply h.writers d q
  rw [hrunning]
  rcases List.mem_append.mp hmem with hmem | hmem
  · exact List.mem_append_left _ hmem
  · exact List.mem_append_right _ (List.mem_cons_of_mem _ hmem)

end HandleState.Owned

/-! ## The steps -/

variable [DecidableEq Conn]

/-- A step of the server. -/
inductive HandleStep : HandleState Conn → ServerEvent Conn → HandleState Conn → Prop where
  /-- `main` accepts a connection; `malloc` returns what is not in use. -/
  | accept {s : HandleState Conn} {c : Conn} {p : Addr} (fresh : s.key c = .fresh)
      (unused : s.heap p = none) : HandleStep s (.accepted c) (s.accept c p)
  /-- The message is not turned down, and `next` posts another receive. -/
  | serve {s : HandleState Conn} {c : Conn} {p : Addr} {h : PerHandleData Conn}
      {msg : List UInt8} (key : s.key c = .handle p) (read : s.heap p = some h)
      (some : msg ≠ []) (fits : msg.length ≤ dataBufsize)
      (kept : processIo h.status (received msg) ≠ .rejected) :
      HandleStep s (.message c msg (processIo h.status (received msg)))
        { s with pending := (c, p) :: s.pending }
  /-- The message is turned down, and the connection closed. -/
  | reject {s : HandleState Conn} {c : Conn} {p : Addr} {h : PerHandleData Conn}
      {msg : List UInt8} (key : s.key c = .handle p) (read : s.heap p = some h)
      (some : msg ≠ []) (fits : msg.length ≤ dataBufsize)
      (rejected : processIo h.status (received msg) = .rejected) :
      HandleStep s (.message c msg .rejected) (s.close c p)
  /-- The last line of `next`, whatever is at the address by now. -/
  | setStatus {s : HandleState Conn} {a b : List (Conn × Addr)} {c : Conn} {p : Addr}
      (running : s.pending = a ++ (c, p) :: b) :
      HandleStep s (.statusSet c) ({ s with pending := a ++ b }.setStatus p)
  /-- Nothing was received, or the connection has failed. -/
  | disconnect {s : HandleState Conn} {c : Conn} {p : Addr} (key : s.key c = .handle p) :
      HandleStep s (.disconnected c) (s.close c p)

/-- What is done at an address that no other connection has changes the view of one connection. -/
theorem view_handle_eq {s t : HandleState Conn} {c : Conn} {p : Addr}
    (hkey : ∀ d, d ≠ c → t.key d = s.key d) (hheap : ∀ q, q ≠ p → t.heap q = s.heap q)
    (hother : ∀ d, d ≠ c → s.key d ≠ .handle p) {h : Handle} (hself : t.view.handle c = h) :
    t.view.handle = Function.update s.view.handle c h := by
  funext d
  by_cases hd : d = c
  · subst hd
    rw [Function.update_self, hself]
  · rw [Function.update_of_ne hd]
    simp only [HandleState.view, hkey d hd]
    cases hdkey : s.key d with
    | fresh => rfl
    | closed => rfl
    | handle q =>
        have hq : q ≠ p := by
          rintro rfl
          exact hother d hd hdkey
        simp only [hheap q hq]

namespace HandleState.Owned

variable {s : HandleState Conn} (h : s.Owned) {c : Conn} {p : Addr}
include h

theorem view_accept (hunused : s.heap p = none) :
    (s.accept c p).view = s.view.setHandle c (.live 0) := by
  have hhandle : (s.accept c p).view.handle = Function.update s.view.handle c (.live 0) := by
    apply view_handle_eq (p := p) (fun d hd => Function.update_of_ne hd _ _)
      fun q hq => Heap.store_of_ne _ _ hq
    · intro d hd hdkey
      obtain ⟨status, hread⟩ := h.own d p hdkey
      rw [hunused] at hread
      cases hread
    · simp [view, accept]
  exact congrArg (ServerState.mk · _) hhandle

theorem accept (hfresh : s.key c = .fresh) (hunused : s.heap p = none) : (s.accept c p).Owned := by
  constructor
  · intro d q hkey
    by_cases hd : d = c
    · subst hd
      simp only [HandleState.accept, Function.update_self, CompletionKey.handle.injEq] at hkey ⊢
      subst hkey
      exact ⟨0, Heap.store_self _ _ _⟩
    · simp only [HandleState.accept, Function.update_of_ne hd] at hkey ⊢
      obtain ⟨status, hread⟩ := h.own d q hkey
      refine ⟨status, ?_⟩
      rw [Heap.store_of_ne, hread]
      rintro rfl
      rw [hunused] at hread
      cases hread
  · intro d q hmem
    have hd : d ≠ c := by
      rintro rfl
      have hwriter := h.writers d q hmem
      rw [hfresh] at hwriter
      rcases hwriter with hkey | hkey <;> cases hkey
    simp only [HandleState.accept, Function.update_of_ne hd]
    exact h.writers d q hmem

theorem view_close (hkey : s.key c = .handle p) :
    (s.close c p).view = s.view.setHandle c .closed := by
  have hhandle : (s.close c p).view.handle = Function.update s.view.handle c .closed := by
    apply view_handle_eq (p := p) (fun d hd => Function.update_of_ne hd _ _)
      fun q hq => Function.update_of_ne hq _ _
    · exact fun d hd => h.address_ne hkey hd
    · simp [view, close]
  exact congrArg (ServerState.mk · _) hhandle

theorem close (hkey : s.key c = .handle p) : (s.close c p).Owned := by
  constructor
  · intro d q hdkey
    by_cases hd : d = c
    · subst hd
      simp only [HandleState.close, Function.update_self] at hdkey
      cases hdkey
    · simp only [HandleState.close, Function.update_of_ne hd] at hdkey ⊢
      obtain ⟨status, hread⟩ := h.own d q hdkey
      refine ⟨status, ?_⟩
      rw [Function.update_of_ne, hread]
      rintro rfl
      exact h.address_ne hkey hd hdkey
  · intro d q hmem
    by_cases hd : d = c
    · subst hd
      exact Or.inr (Function.update_self _ _ _)
    · simp only [HandleState.close, Function.update_of_ne hd]
      exact h.writers d q hmem

/-- The write comes in time: it is to the handle of the connection. -/
theorem view_setStatus (hkey : s.key c = .handle p) :
    (s.setStatus p).view = s.view.setHandle c (.live 1) := by
  obtain ⟨status, hread⟩ := h.own c p hkey
  rw [HandleState.setStatus, hread]
  have hhandle : (HandleState.view { s with heap := s.heap.store p ⟨c, 1⟩ }).handle
      = Function.update s.view.handle c (.live 1) := by
    apply view_handle_eq (s := s) (t := { s with heap := s.heap.store p ⟨c, 1⟩ }) (p := p)
      (fun _ _ => rfl) fun q hq => Heap.store_of_ne _ _ hq
    · exact fun d hd => h.address_ne hkey hd
    · simp [view, hkey]
  exact congrArg (ServerState.mk · _) hhandle

end HandleState.Owned

theorem HandleStep.owned {s t : HandleState Conn} {e : ServerEvent Conn} (hstep : HandleStep s e t)
    (h : s.Owned) : t.Owned := by
  cases hstep with
  | accept hfresh hunused => exact h.accept hfresh hunused
  | serve hkey => exact h.post hkey
  | reject hkey => exact h.close hkey
  -- Whoever has the address by now: `status` says nothing of the socket in the handle.
  | setStatus hrunning => exact (h.written hrunning).setStatus _
  | disconnect hkey => exact h.close hkey

/-- A step that does not come too late is one of the server in which every connection has a
handle of its own. -/
theorem HandleStep.simulates {s t : HandleState Conn} {e : ServerEvent Conn}
    (hstep : HandleStep s e t) (hintime : InTime s e) (h : s.Owned) :
    ServerStep s.view e t.view := by
  have hlive : ∀ {c p data}, s.key c = .handle p → s.heap p = some data →
      s.view.handle c = .live data.status := by
    intro c p data hkey hread
    simp only [HandleState.view, hkey, hread, Option.elim_some]
  cases hstep with
  | @accept c p hfresh hunused =>
      rw [h.view_accept hunused]
      apply ServerStep.accept
      simp only [HandleState.view, hfresh]
  | serve hkey hread hsome hfits hkept =>
      exact .serve (hlive hkey hread) hsome hfits hkept
  | reject hkey hread hsome hfits hrejected =>
      rw [h.view_close hkey]
      exact .reject (hlive hkey hread) hsome hfits hrejected
  | @setStatus a b c p hrunning =>
      obtain ⟨q, hq⟩ := hintime
      -- The connection is open, so the address that the thread was called with is still its own.
      have hkey : s.key c = .handle p := by
        have hmem : (c, p) ∈ s.pending := by simp [hrunning]
        rcases h.writers c p hmem with hkey | hclosed
        · exact hkey
        · rw [hclosed] at hq
          cases hq
      obtain ⟨status, hread⟩ := h.own c p hkey
      rw [(h.written hrunning).view_setStatus hkey]
      have hview : s.view.pending = a.map Prod.fst ++ c :: b.map Prod.fst := by
        simp only [HandleState.view, hrunning, List.map_append, List.map_cons]
      have hset := ServerStep.setStatus hview (hlive hkey hread)
      rwa [← List.map_append] at hset
  | @disconnect c p hkey =>
      obtain ⟨status, hread⟩ := h.own c p hkey
      rw [h.view_close hkey]
      exact .disconnect (hlive hkey hread)

/-! ## Whole runs -/

/-- What is promised of a run of the server. -/
structure HandleSound (s : HandleState Conn) (es : List (ServerEvent Conn)) : Prop where
  /-- An operation is executed only for a connection that said `123` first. -/
  executed : ∀ c msg r, .message c msg r ∈ es → r.Executes → Authenticated c es
  /-- One that said anything else first is closed, and that was its only message. -/
  refused : ∀ c first rest, messagesOf c es = first :: rest → cstr first ≠ bytes "123" →
    s.key c = .closed ∧ rest = [] ∧ ∀ msg r, .message c msg r ∈ es → ¬ r.Executes
  /-- No step that is in time changes the status of another connection. -/
  others : ∀ e t, HandleStep s e t → InTime s e → ∀ c, c ≠ e.conn → t.status c = s.status c

omit [DecidableEq Conn] in
theorem status_eq_view (s : HandleState Conn) (c : Conn) :
    s.status c = match s.view.handle c with
      | .live status => some status
      | _ => none := by
  cases hkey : s.key c with
  | fresh => simp [HandleState.status, HandleState.view, hkey]
  | closed => simp [HandleState.status, HandleState.view, hkey]
  | handle p =>
      cases hread : s.heap p <;> simp [HandleState.status, HandleState.view, hkey, hread]

/-- A run in which every write of `status` is in time is a run of the server of `MdbServer`. -/
theorem steps_view {es : List (ServerEvent Conn)} {s : HandleState Conn}
    (h : Steps (fun s e t => HandleStep s e t ∧ InTime s e) handleStart es s) :
    s.Owned ∧ Steps ServerStep serverStart es s.view := by
  induction h with
  | nil =>
      refine ⟨⟨?_, ?_⟩, .nil⟩
      · intro c p hkey
        cases hkey
      · intro c p hmem
        cases hmem
  | snoc _ hstep ih =>
      obtain ⟨howned, hrun⟩ := ih
      exact ⟨hstep.1.owned howned, hrun.snoc (hstep.1.simulates hstep.2 howned)⟩

/-- In every run in which each write of `status` comes before the handle is freed, the server
serves only connections that said `123` first. -/
theorem served_authenticated_inTime {es : List (ServerEvent Conn)} {s : HandleState Conn}
    (h : Steps (fun s e t => HandleStep s e t ∧ InTime s e) handleStart es s) :
    HandleSound s es := by
  obtain ⟨howned, hrun⟩ := steps_view h
  have hsound := served_authenticated hrun
  refine ⟨hsound.executed, ?_, ?_⟩
  · intro c first rest hmessages hfirst
    obtain ⟨hclosed, hrest⟩ := hsound.refused c first rest hmessages hfirst
    refine ⟨?_, hrest⟩
    cases hkey : s.key c with
    | closed => rfl
    | fresh =>
        simp only [HandleState.view, hkey] at hclosed
        cases hclosed
    | handle p =>
        obtain ⟨status, hread⟩ := howned.own c p hkey
        simp only [HandleState.view, hkey, hread, Option.elim_some] at hclosed
        cases hclosed
  · intro e t hstep hintime c hc
    rw [status_eq_view, status_eq_view,
      hsound.others e t.view (hstep.simulates hintime howned) c hc]

end

/-! ## A client, an intruder and a late thread -/

/-- Connection 1 says the password and is served, connection 2 is closed. -/
theorem served_authenticated_inTime_two : ∃ s : HandleState ℕ, HandleSound s
    [.accepted 1, .accepted 2, .message 1 (bytes "123") (processIo 0 (received (bytes "123"))),
      .message 2 insertMessage .rejected, .statusSet 1,
      .message 1 insertMessage (processIo 1 (received insertMessage))] := by
  have hrun : Steps (fun s e t => HandleStep s e t ∧ InTime s e) (handleStart : HandleState ℕ)
      [.accepted 1, .accepted 2] _ :=
    (Steps.nil.snoc ⟨.accept (p := 16) rfl rfl, trivial⟩).snoc
      ⟨.accept (p := 32) rfl rfl, trivial⟩
  exact ⟨_, served_authenticated_inTime
    ((((hrun.snoc
      ⟨.serve (p := 16) (h := ⟨1, 0⟩) rfl rfl (by decide) (by decide) passwordMessage_kept,
        trivial⟩).snoc
      ⟨.reject (p := 32) (h := ⟨2, 0⟩) rfl rfl (by decide) (by decide) insertMessage_rejected,
        trivial⟩).snoc
      ⟨.setStatus (a := []) (b := []) rfl, 16, rfl⟩).snoc
      ⟨.serve (p := 16) (h := ⟨1, 1⟩) rfl rfl (by decide) (by decide) insertMessage_kept,
        trivial⟩)⟩

/-- Connection 1 says the password and hangs up before the write of its `status`; connection 2
gets its handle, and is served with its first message. -/
theorem not_served_authenticated_late : ¬∀ (es : List (ServerEvent ℕ)) (s : HandleState ℕ),
    Steps HandleStep handleStart es s →
      ∀ c msg r, .message c msg r ∈ es → r.Executes → Authenticated c es := by
  intro h
  have hrun : ∃ s, Steps HandleStep (handleStart : HandleState ℕ)
      [.accepted 1, .message 1 (bytes "123") (processIo 0 (received (bytes "123"))),
        .disconnected 1, .accepted 2, .statusSet 1,
        .message 2 insertMessage (processIo 1 (received insertMessage))] s :=
    ⟨_, (((((Steps.nil.snoc (.accept (p := 16) rfl rfl)).snoc
      (.serve (p := 16) (h := ⟨1, 0⟩) rfl rfl (by decide) (by decide) passwordMessage_kept)).snoc
      (.disconnect (p := 16) rfl)).snoc (.accept (p := 16) rfl rfl)).snoc
      (.setStatus (a := []) (b := []) rfl)).snoc
      (.serve (p := 16) (h := ⟨2, 1⟩) rfl rfl (by decide) (by decide) insertMessage_kept)⟩
  obtain ⟨s, hrun⟩ := hrun
  have hinserted : (processIo 1 (received insertMessage)).Executes := by
    rw [processIo_insertMessage]
    trivial
  obtain ⟨first, rest, hmessages, hfirst⟩ := h _ s hrun 2 insertMessage _ (by simp) hinserted
  have hone : messagesOf 2 [.accepted 1,
      .message 1 (bytes "123") (processIo 0 (received (bytes "123"))), .disconnected 1,
      .accepted 2, .statusSet 1,
      .message 2 insertMessage (processIo 1 (received insertMessage))] = [insertMessage] := rfl
  rw [hone] at hmessages
  cases hmessages
  exact absurd hfirst (by decide)
