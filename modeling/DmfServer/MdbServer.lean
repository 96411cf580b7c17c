/-
# The cache server

`mdbserver.c`: connections are accepted by `main`, and the threads of `ProcessIO` take what
arrives at them.  A connection says `123` first; `next` then posts another receive and sets
its `status`, and from there on its messages are operations on the cache.

A step is what a thread does with one message up to the receive that `next` posts, or the
write of `status` behind it: another thread can have taken the next message in between.
Here every connection has a handle of its own, and `status` is written only to a handle that
has not been freed; the handles at their addresses, where a late write hits whatever is there,
are in `MdbHandles`.  What the cache answers is not modelled here.
-/
import DmfServer.CMemory
import DmfServer.StepSystem

open CMem StepSystem

/-! ## A message -/

/-- `DATA_BUFSIZE`. -/
def dataBufsize : ℕ := 2048

/-- The buffer of a receive, zero before the message came. -/
def received (msg : List UInt8) : List UInt8 := msg ++ List.replicate (dataBufsize - msg.length) 0

/-- `strcmp(s, lit) == 0` for what is in memory from `s` on. -/
def strcmpEq : List UInt8 → List UInt8 → Bool
  | [], _ => false
  | c :: _, [] => c == 0
  | c :: s, d :: lit => c == d && strcmpEq s lit

/-- `et->op`, the first four bytes. -/
def entryOp (buffer : List UInt8) : ℤ :=
  (BitVec.ofNat 32 (Nat.ofDigits 256 ((buffer.take 4).map UInt8.toNat))).toInt

/-- What a pass of `ProcessIO` does with a message. -/
inductive Reaction : Type where
  | authorized
  | rejected
  | inserted (key value : List UInt8)
  | found (key : List UInt8)
  | ignored
  deriving DecidableEq

/-- `ProcessIO` with a message in the buffer; key and value are at 4 and 68 in an `entry_t`. -/
def processIo (status : ℤ) (buffer : List UInt8) : Reaction :=
  if status = 0 then
    if strcmpEq buffer (bytes "123") then .authorized else .rejected
  else if entryOp buffer = 1 then .inserted (cstr (buffer.drop 4)) (cstr (buffer.drop 68))
  else if entryOp buffer = 2 then .found (cstr (buffer.drop 4))
  else .ignored

/-- `mdb_insert` or `mdb_find` has been executed. -/
def Reaction.Executes : Reaction → Prop
  | .inserted _ _ => True
  | .found _ => True
  | _ => False

/-! ## The connections -/

/-- The `PerHandleData` of a connection. -/
inductive Handle : Type where
  /-- Not accepted yet. -/
  | fresh
  | live (status : ℤ)
  /-- Closed, and freed. -/
  | closed

/-- The handles, and the threads behind the receive and before the write of `status`. -/
structure ServerState (Conn : Type) where
  handle : Conn → Handle
  pending : List Conn

/-- What happens in a step. -/
inductive ServerEvent (Conn : Type) : Type where
  | accepted (c : Conn)
  | message (c : Conn) (msg : List UInt8) (reaction : Reaction)
  | statusSet (c : Conn)
  | disconnected (c : Conn)

/-- The connection of an event. -/
def ServerEvent.conn {Conn : Type} : ServerEvent Conn → Conn
  | .accepted c => c
  | .message c _ _ => c
  | .statusSet c => c
  | .disconnected c => c

section
variable {Conn : Type} [DecidableEq Conn]

/-- Write the handle of a connection. -/
def ServerState.setHandle (s : ServerState Conn) (c : Conn) (h : Handle) : ServerState Conn :=
  { s with handle := Function.update s.handle c h }

/-- A step of the server. -/
inductive ServerStep : ServerState Conn → ServerEvent Conn → ServerState Conn → Prop where
  /-- `main` accepts a connection. -/
  | accept {s : ServerState Conn} {c : Conn} (fresh : s.handle c = .fresh) :
      ServerStep s (.accepted c) (s.setHandle c (.live 0))
  /-- The message is not turned down, and `next` posts another receive. -/
  | serve {s : ServerState Conn} {c : Conn} {status : ℤ} {msg : List UInt8}
      (live : s.handle c = .live status) (some : msg ≠ []) (fits : msg.length ≤ dataBufsize)
      (kept : processIo status (received msg) ≠ .rejected) :
      ServerStep s (.message c msg (processIo status (received msg)))
        { s with pending := c :: s.pending }
  /-- The message is turned down, and the connection closed. -/
  | reject {s : ServerState Conn} {c : Conn} {status : ℤ} {msg : List UInt8}
      (live : s.handle c = .live status) (some : msg ≠ []) (fits : msg.length ≤ dataBufsize)
      (rejected : processIo status (received msg) = .rejected) :
      ServerStep s (.message c msg .rejected) (s.setHandle c .closed)
  /-- The last line of `next`. -/
  | setStatus {s : ServerState Conn} {a b : List Conn} {c : Conn} {status : ℤ}
      (running : s.pending = a ++ c :: b) (live : s.handle c = .live status) :
      ServerStep s (.statusSet c) ({ s with pending := a ++ b }.setHandle c (.live 1))
  /-- Nothing was received, or the connection has failed. -/
  | disconnect {s : ServerState Conn} {c : Conn} {status : ℤ}
      (live : s.handle c = .live status) :
      ServerStep s (.disconnected c) (s.setHandle c .closed)

/-- Nobody has connected yet. -/
def serverStart : ServerState Conn := { handle := fun _ => .fresh, pending := [] }

/-- The messages of a connection, in order. -/
def messagesOf (c : Conn) (es : List (ServerEvent Conn)) : List (List UInt8) :=
  es.filterMap fun
    | .message d msg _ => if d = c then some msg else none
    | _ => none

/-- The first message of the connection was, up to its first NUL, `123`. -/
def Authenticated (c : Conn) (es : List (ServerEvent Conn)) : Prop :=
  ∃ first rest, messagesOf c es = first :: rest ∧ cstr first = bytes "123"

/-! ## The password -/

theorem strcmpEq_iff {s lit : List UInt8} : strcmpEq s lit = true ↔ lit ++ [0] <+: s := by
  induction s generalizing lit with
  | nil => simp [strcmpEq]
  | cons c s ih =>
      cases lit with
      | nil =>
          rw [strcmpEq, beq_iff_eq, List.nil_append, List.cons_prefix_cons]
          exact ⟨fun hc => ⟨hc.symm, List.nil_prefix⟩, fun hc => hc.1.symm⟩
      | cons d lit =>
          rw [strcmpEq, Bool.and_eq_true, beq_iff_eq, ih, List.cons_append, List.cons_prefix_cons]
          exact and_congr_left fun _ => eq_comm

theorem cstr_append_replicate (s : List UInt8) (k : ℕ) :
    cstr (s ++ List.replicate k 0) = cstr s := by
  by_cases hs : (0 : UInt8) ∈ s
  · obtain ⟨rest, hrest⟩ := exists_eq_cstr_append hs
    rw [hrest, List.append_assoc, List.cons_append, cstr_append_zero (isText_cstr s),
      cstr_append_zero (isText_cstr s)]
  · have htext : IsText s := hs
    rw [cstr_append htext, htext.cstr_eq]
    cases k with
    | zero => rw [List.replicate_zero, show cstr [] = [] from rfl, List.append_nil]
    | succ k => rw [List.replicate_succ, cstr_zero, List.append_nil]

/-- What is compared with `123` is the message: nothing is left of earlier ones. -/
theorem strcmpEq_received_iff (msg : List UInt8) :
    strcmpEq (received msg) (bytes "123") = true ↔ cstr msg = bytes "123" := by
  rw [strcmpEq_iff]
  unfold received
  constructor
  · rintro ⟨rest, hrest⟩
    rw [← cstr_append_replicate msg (dataBufsize - msg.length), ← hrest, List.append_assoc,
      List.singleton_append]
    exact cstr_append_zero (by decide) rest
  · intro hmsg
    by_cases hzero : (0 : UInt8) ∈ msg
    · obtain ⟨rest, hrest⟩ := exists_eq_cstr_append hzero
      rw [hmsg] at hrest
      refine ⟨rest ++ List.replicate (dataBufsize - msg.length) 0, ?_⟩
      generalize dataBufsize - msg.length = k
      rw [hrest, List.append_assoc, List.append_assoc, List.singleton_append, List.cons_append]
    · -- the message ends, and the zeros of the buffer end the string
      have htext : IsText msg := hzero
      rw [htext.cstr_eq] at hmsg
      subst hmsg
      have hroom : dataBufsize - (bytes "123").length = dataBufsize - 4 + 1 := by decide
      refine ⟨List.replicate (dataBufsize - 4) 0, ?_⟩
      rw [hroom, List.replicate_succ, List.append_assoc, List.singleton_append]

/-- Only the first message can be turned down, and only for not being `123`. -/
theorem processIo_rejected_iff {status : ℤ} {msg : List UInt8} :
    processIo status (received msg) = .rejected ↔ status = 0 ∧ cstr msg ≠ bytes "123" := by
  unfold processIo
  by_cases hstatus : status = 0
  · rw [if_pos hstatus, ne_eq, ← strcmpEq_received_iff msg]
    by_cases hcmp : strcmpEq (received msg) (bytes "123") = true
    · simp [hcmp, hstatus]
    · simp [hcmp, hstatus]
  · rw [if_neg hstatus]
    split
    · simp [hstatus]
    · split <;> simp [hstatus]

/-! ## The history of a connection -/

theorem messagesOf_append (c : Conn) (es : List (ServerEvent Conn)) (e : ServerEvent Conn) :
    messagesOf c (es ++ [e]) = messagesOf c es ++ messagesOf c [e] :=
  List.filterMap_append

theorem messagesOf_message (c : Conn) (msg : List UInt8) (r : Reaction) :
    messagesOf c [.message c msg r] = [msg] := by
  simp [messagesOf]

theorem messagesOf_message_of_ne {c d : Conn} (hc : c ≠ d) (msg : List UInt8) (r : Reaction) :
    messagesOf c [.message d msg r] = [] := by
  simp [messagesOf, Ne.symm hc]

/-- The first message stays the first. -/
theorem Authenticated.append {c : Conn} {es : List (ServerEvent Conn)} (h : Authenticated c es)
    (e : ServerEvent Conn) : Authenticated c (es ++ [e]) := by
  obtain ⟨first, rest, hmessages, hfirst⟩ := h
  exact ⟨first, rest ++ messagesOf c [e], by rw [messagesOf_append, hmessages]; rfl, hfirst⟩

/-- Where a connection stands: the part of the state that is its own and what it has said. -/
structure Standing (c : Conn) (s : ServerState Conn) (es : List (ServerEvent Conn)) : Prop where
  fresh : s.handle c = .fresh → messagesOf c es = []
  first : messagesOf c es = [] ∨ Authenticated c es ∨
    ∃ msg, messagesOf c es = [msg] ∧ s.handle c = .closed
  status : ∀ status, s.handle c = .live status → status ≠ 0 → Authenticated c es
  pending : c ∈ s.pending → Authenticated c es
  executed : ∀ msg r, .message c msg r ∈ es → r.Executes → Authenticated c es

/-- A step leaves the other connections alone. -/
theorem ServerStep.frame {s t : ServerState Conn} {e : ServerEvent Conn} (h : ServerStep s e t)
    {c : Conn} (hc : c ≠ e.conn) :
    t.handle c = s.handle c ∧ (c ∈ t.pending ↔ c ∈ s.pending) ∧ messagesOf c [e] = [] := by
  cases h with
  | accept => exact ⟨Function.update_of_ne hc _ _, Iff.rfl, rfl⟩
  | serve =>
      exact ⟨rfl, List.mem_cons.trans (or_iff_right hc), messagesOf_message_of_ne hc _ _⟩
  | reject =>
      exact ⟨Function.update_of_ne hc _ _, Iff.rfl, messagesOf_message_of_ne hc _ _⟩
  | @setStatus a b d status hrunning hlive =>
      refine ⟨Function.update_of_ne hc _ _, ?_, rfl⟩
      have hne : c ≠ d := hc
      show c ∈ a ++ b ↔ c ∈ s.pending
      rw [hrunning]
      simp [hne]
  | disconnect => exact ⟨Function.update_of_ne hc _ _, Iff.rfl, rfl⟩

/-- A step of another connection does not change where a connection stands. -/
theorem Standing.frame {c : Conn} {s t : ServerState Conn} {es : List (ServerEvent Conn)}
    {e : ServerEvent Conn} (h : Standing c s es) (hstep : ServerStep s e t) (hc : c ≠ e.conn) :
    Standing c t (es ++ [e]) := by
  obtain ⟨hhandle, hpending, hmessages⟩ := hstep.frame hc
  have hall : messagesOf c (es ++ [e]) = messagesOf c es := by
    rw [messagesOf_append, hmessages, List.append_nil]
  refine ⟨?_, ?_, ?_, ?_, ?_⟩
  · rw [hhandle, hall]
    exact h.fresh
  · rw [hhandle, hall]
    exact h.first.imp_right (Or.imp_left fun hauth => hauth.append e)
  · intro status hlive hne
    rw [hhandle] at hlive
    exact (h.status status hlive hne).append e
  · intro hmem
    exact (h.pending (hpending.mp hmem)).append e
  · intro msg r hmem hexec
    rcases List.mem_append.mp hmem with hmem | hmem
    · exact (h.executed msg r hmem hexec).append e
    · rw [← List.mem_singleton.mp hmem] at hc
      exact absurd rfl hc

/-- Behind a served message the connection is authenticated. -/
theorem Standing.authenticated {c : Conn} {s : ServerState Conn} {es : List (ServerEvent Conn)}
    (h : Standing c s es) {status : ℤ} {msg : List UInt8} (hlive : s.handle c = .live status)
    (hkept : processIo status (received msg) ≠ .rejected) (r : Reaction) :
    Authenticated c (es ++ [.message c msg r]) := by
  rcases h.first with hnone | hauth | ⟨first, -, hclosed⟩
  · by_cases hstatus : status = 0
    · -- this is the first message, and it was not turned down
      have hpassword : cstr msg = bytes "123" := by
        by_contra hne
        exact hkept (processIo_rejected_iff.mpr ⟨hstatus, hne⟩)
      refine ⟨msg, [], ?_, hpassword⟩
      rw [messagesOf_append, hnone, messagesOf_message]
      rfl
    · exact (h.status status hlive hstatus).append _
  · exact hauth.append _
  · rw [hlive] at hclosed
    cases hclosed

/-- An authenticated connection stands well. -/
theorem Standing.of_authenticated {c : Conn} {s : ServerState Conn} {es : List (ServerEvent Conn)}
    (hauth : Authenticated c es) (hhandle : s.handle c ≠ .fresh) : Standing c s es where
  fresh := fun hfresh => absurd hfresh hhandle
  first := Or.inr (Or.inl hauth)
  status := fun _ _ _ => hauth
  pending := fun _ => hauth
  executed := fun _ _ _ _ => hauth

/-- A connection that is closed stands where it stood. -/
theorem Standing.close {c : Conn} {s : ServerState Conn} {es : List (ServerEvent Conn)}
    {e : ServerEvent Conn} (h : Standing c s es)
    (hnone : ∀ msg r, e = .message c msg r → ¬ r.Executes)
    (hfirst : messagesOf c (es ++ [e]) = [] ∨ Authenticated c (es ++ [e]) ∨
      ∃ msg, messagesOf c (es ++ [e]) = [msg]) :
    Standing c (s.setHandle c .closed) (es ++ [e]) := by
  have hclosed : (s.setHandle c .closed).handle c = .closed := Function.update_self _ _ _
  refine ⟨fun hfresh => ?_, ?_, fun status hlive _ => ?_, fun hmem => ?_, ?_⟩
  · rw [hclosed] at hfresh
    cases hfresh
  · refine hfirst.imp_right (Or.imp_right ?_)
    rintro ⟨msg, hmsg⟩
    exact ⟨msg, hmsg, hclosed⟩
  · rw [hclosed] at hlive
    cases hlive
  · exact (h.pending hmem).append e
  · intro msg r hmem hexec
    rcases List.mem_append.mp hmem with hmem | hmem
    · exact (h.executed msg r hmem hexec).append e
    · exact absurd hexec (hnone msg r (List.mem_singleton.mp hmem).symm)

/-- What a step of the connection itself does. -/
theorem Standing.step {c : Conn} {s t : ServerState Conn} {es : List (ServerEvent Conn)}
    {e : ServerEvent Conn} (h : Standing c s es) (hstep : ServerStep s e t) (hc : c = e.conn) :
    Standing c t (es ++ [e]) := by
  cases hstep with
  | @accept d hfresh =>
      obtain rfl : c = d := hc
      have hself : (s.setHandle c (.live 0)).handle c = .live 0 := Function.update_self _ _ _
      have hnone : messagesOf c (es ++ [.accepted c]) = [] := by
        rw [messagesOf_append, h.fresh hfresh]
        rfl
      refine ⟨fun _ => hnone, Or.inl hnone, fun status hlive hne => ?_, fun hmem => ?_, ?_⟩
      · rw [hself] at hlive
        cases hlive
        exact absurd rfl hne
      · exact (h.pending hmem).append _
      · intro msg r hmem hexec
        rcases List.mem_append.mp hmem with hmem | hmem
        · exact (h.executed msg r hmem hexec).append _
        · cases List.mem_singleton.mp hmem
  | @serve d status msg hlive hsome hfits hkept =>
      obtain rfl : c = d := hc
      refine Standing.of_authenticated (h.authenticated hlive hkept _) ?_
      show s.handle c ≠ .fresh
      rw [hlive]
      intro hfresh
      cases hfresh
  | @reject d status msg hlive hsome hfits hrejected =>
      obtain rfl : c = d := hc
      refine h.close ?_ ?_
      · rintro _ _ ⟨⟩ hexec
        exact hexec
      · -- the message is the first, or the connection has given the password before
        rcases h.first with hnone | hauth | ⟨first, -, hgone⟩
        · refine Or.inr (Or.inr ⟨msg, ?_⟩)
          rw [messagesOf_append, hnone, messagesOf_message]
          rfl
        · exact Or.inr (Or.inl (hauth.append _))
        · rw [hlive] at hgone
          cases hgone
  | @setStatus a b d status hrunning hlive =>
      obtain rfl : c = d := hc
      -- who is to set the status has served a message
      have hmem : c ∈ s.pending := by
        rw [hrunning]
        simp
      refine Standing.of_authenticated ((h.pending hmem).append _) ?_
      have hself : (ServerState.setHandle { s with pending := a ++ b } c (.live 1)).handle c =
        .live 1 := Function.update_self _ _ _
      rw [hself]
      intro hfresh
      cases hfresh
  | @disconnect d status hlive =>
      obtain rfl : c = d := hc
      have hall : messagesOf c (es ++ [.disconnected c]) = messagesOf c es := by
        rw [messagesOf_append]
        exact List.append_nil _
      refine h.close ?_ ?_
      · rintro _ _ ⟨⟩
      · rw [hall]
        refine h.first.imp_right (Or.imp (fun hauth => hauth.append _) ?_)
        rintro ⟨msg, hmsg, -⟩
        exact ⟨msg, hmsg⟩

/-- In every run every connection stands. -/
theorem standing_of_run {es : List (ServerEvent Conn)} {s : ServerState Conn}
    (h : Steps ServerStep serverStart es s) (c : Conn) : Standing c s es := by
  induction h with
  | nil =>
      refine ⟨fun _ => rfl, Or.inl rfl, ?_, ?_, ?_⟩
      · rintro status ⟨⟩
      · rintro ⟨⟩
      · rintro msg r ⟨⟩
  | @snoc _ _ _ e _ hstep ih =>
      by_cases hc : c = e.conn
      · exact ih.step hstep hc
      · exact ih.frame hstep hc

/-- What is promised of a run of the server. -/
structure ServerSound (s : ServerState Conn) (es : List (ServerEvent Conn)) : Prop where
  /-- An operation is executed only for a connection that said `123` first. -/
  executed : ∀ c msg r, .message c msg r ∈ es → r.Executes → Authenticated c es
  /-- One that said anything else first is closed, and that was its only message. -/
  refused : ∀ c first rest, messagesOf c es = first :: rest → cstr first ≠ bytes "123" →
    s.handle c = .closed ∧ rest = [] ∧ ∀ msg r, .message c msg r ∈ es → ¬ r.Executes
  /-- No step changes the status of another connection. -/
  others : ∀ e t, ServerStep s e t → ∀ c, c ≠ e.conn → t.handle c = s.handle c

/-- In every run of accepts, messages and disconnects, and of the threads between them, the
server serves only connections that said `123` first. -/
theorem served_authenticated {es : List (ServerEvent Conn)} {s : ServerState Conn}
    (h : Steps ServerStep serverStart es s) : ServerSound s es := by
  refine ⟨fun c => (standing_of_run h c).executed, fun c first rest hmessages hfirst => ?_,
    fun e t hstep c hc => (hstep.frame hc).1⟩
  have hnot : ¬ Authenticated c es := by
    rintro ⟨first', rest', hmessages', hfirst'⟩
    rw [hmessages] at hmessages'
    cases hmessages'
    exact hfirst hfirst'
  have hstanding := standing_of_run h c
  have hexecuted : ∀ msg r, .message c msg r ∈ es → ¬ r.Executes := by
    intro msg r hmem hexec
    exact hnot (hstanding.executed msg r hmem hexec)
  rcases hstanding.first with hnone | hauth | ⟨msg, hone, hclosed⟩
  · rw [hmessages] at hnone
    cases hnone
  · exact absurd hauth hnot
  · rw [hmessages] at hone
    cases hone
    exact ⟨hclosed, rfl, hexecuted⟩

end

/-! ## Messages of a client and of an intruder -/

/-- An `entry_t` that asks for the insert of `v` under `k`. -/
def insertMessage : List UInt8 :=
  [1, 0, 0, 0] ++ bytes "k" ++ List.replicate 63 0 ++ bytes "v"

theorem processIo_insertMessage :
    processIo 1 (received insertMessage) = .inserted (bytes "k") (bytes "v") := by decide

/-- The password is taken from a new connection, the insert is not. -/
theorem passwordMessage_kept : processIo 0 (received (bytes "123")) ≠ .rejected := by
  rw [ne_eq, processIo_rejected_iff]
  rintro ⟨-, hne⟩
  exact hne (by decide)

@[inherit_doc passwordMessage_kept]
theorem insertMessage_rejected : processIo 0 (received insertMessage) = .rejected :=
  processIo_rejected_iff.mpr ⟨rfl, by decide⟩

/-- With its `status` set a connection is not turned down. -/
theorem insertMessage_kept : processIo 1 (received insertMessage) ≠ .rejected := by
  rw [processIo_insertMessage]
  exact nofun
