/-
# The cache over the network

`mdbserver.c` as its clients see it: the connections of `MdbServer` over the memory of
`MdbMemory`.  A pass of `ProcessIO` takes one message, does what it says to the table, sends the
answer, and sets the `status` of the connection.  Several threads run it; here one pass follows the
other, as if there were one (what overlapping passes do is in `MdbHandles` and `Mdb`).

What is meant is a cache with one entry for each of its 512 slots, for the clients that have said
the password.  `cacheServer_refines`: that is what the server is, up to the first `mdb_find` of a
key that is not in its slot.  Then `mdb_find` returns a literal, and the server hands it to `free`.
-/
import DmfServer.MdbMemory
import DmfServer.MdbServer

open CMem StepSystem

/-! ## The server -/

/-- `mdb_find`: the copy in memory from `malloc`, or the literal `""`. -/
def mdbFindData (fresh : Block maxValueLen) (mem : MdbMemory) (key : List UInt8) :
    Except Fault (Option (List UInt8)) := do
  if ← strcmpZero key (mem.bytes.drop (keyOffset (mdbSlot key))) then
    let res ← fresh.strcpy 0 (← mem.readStr (valueOffset (mdbSlot key)))
    let data ← res.readStr 0
    .ok (some data)
  else .ok none

/-- What it returns is the same to a caller that only reads it. -/
theorem mdbFind_eq (fresh : Block maxValueLen) (mem : MdbMemory) (key : List UInt8) :
    mdbFind fresh mem key = (mdbFindData fresh mem key).map fun data => data.getD [] := by
  rw [mdbFind, mdbFindData]
  cases strcmpZero key (mem.bytes.drop (keyOffset (mdbSlot key))) with
  | error e => rfl
  | ok flag =>
      rw [ok_bind, ok_bind]
      cases flag with
      | false => rfl
      | true =>
          rw [if_pos rfl, if_pos rfl]
          cases mem.readStr (valueOffset (mdbSlot key)) with
          | error e => rfl
          | ok value =>
              rw [ok_bind, ok_bind]
              cases fresh.strcpy 0 value with
              | error e => rfl
              | ok res =>
                  rw [ok_bind, ok_bind]
                  cases res.readStr 0 <;> rfl

/-- The handles of the connections, and the shared memory. -/
structure CacheServer (Conn : Type) where
  handle : Conn → Handle
  mem : MdbMemory

/-- What comes to the server: a connection, a message, or the end of a connection. -/
inductive CacheEvent (Conn M : Type) : Type where
  | accepted (c : Conn) : CacheEvent Conn M
  | message (c : Conn) (m : M) : CacheEvent Conn M
  | disconnected (c : Conn) : CacheEvent Conn M

/-- A pass of `ProcessIO` with a message: the memory, the handle and what is sent. -/
def processMessage (fresh : Block maxValueLen) (mem : MdbMemory) (status : ℤ) (msg : List UInt8) :
    Except Fault (MdbMemory × Handle × List UInt8) :=
  match processIo status (received msg) with
  | .authorized => .ok (mem, .live 1, bytes "authorized")
  | .rejected => .ok (mem, .closed, [])
  | .inserted key value => do
      let mem ← mdbStore mem key value
      .ok (mem, .live 1, bytes "insert ok")
  | .found key => do
      match ← mdbFindData fresh mem key with
      | some data => .ok (mem, .live 1, data)
      | none => .error .free
  | .ignored => .ok (mem, .live 1, [])

section
variable {Conn : Type} [DecidableEq Conn]

/-- What the server does where no two passes overlap: `next`, with the `status` that it sets last,
and the copy of `mdb_find` behind its mutex are over before anything else happens.  Nothing comes
over a connection that is not open. -/
def cacheStep (fresh : Block maxValueLen) (s : CacheServer Conn) :
    CacheEvent Conn (List UInt8) → Except Fault (CacheServer Conn × List UInt8)
  | .accepted c =>
      match s.handle c with
      | .fresh => .ok (⟨Function.update s.handle c (.live 0), s.mem⟩, [])
      | _ => .ok (s, [])
  | .message c msg =>
      match s.handle c with
      | .live status => do
          let (mem, handle, sent) ← processMessage fresh s.mem status msg
          .ok (⟨Function.update s.handle c handle, mem⟩, sent)
      | _ => .ok (s, [])
  | .disconnected c =>
      match s.handle c with
      | .live _ => .ok (⟨Function.update s.handle c .closed, s.mem⟩, [])
      | _ => .ok (s, [])

/-- The server before its first client. -/
def cacheStart : CacheServer Conn where
  handle := fun _ => .fresh
  mem := .zero _

end

/-! ## The connections of a pass -/

/-- A pass sets the `status`, or closes the connection. -/
theorem processMessage_handle {fresh : Block maxValueLen} {mem mem' : MdbMemory} {status : ℤ}
    {msg sent : List UInt8} {handle : Handle}
    (h : processMessage fresh mem status msg = .ok (mem', handle, sent)) :
    (processIo status (received msg) = .rejected ∧ handle = .closed) ∨
      (processIo status (received msg) ≠ .rejected ∧ handle = .live 1) := by
  rw [processMessage] at h
  cases hreaction : processIo status (received msg) with
  | authorized =>
      rw [hreaction] at h
      cases h
      exact Or.inr ⟨nofun, rfl⟩
  | rejected =>
      rw [hreaction] at h
      cases h
      exact Or.inl ⟨rfl, rfl⟩
  | inserted key value =>
      rw [hreaction] at h
      obtain ⟨mem₁, -, hrest⟩ := exists_of_bind h
      cases hrest
      exact Or.inr ⟨nofun, rfl⟩
  | found key =>
      rw [hreaction] at h
      obtain ⟨data, -, hrest⟩ := exists_of_bind h
      cases data with
      | none => cases hrest
      | some data =>
          cases hrest
          exact Or.inr ⟨nofun, rfl⟩
  | ignored =>
      rw [hreaction] at h
      cases h
      exact Or.inr ⟨nofun, rfl⟩

/-- The message has come in one receive. -/
def CacheEvent.Comes {Conn : Type} : CacheEvent Conn (List UInt8) → Prop
  | .message _ msg => msg ≠ [] ∧ msg.length ≤ dataBufsize
  | _ => True

/-- On the connections a pass is a run of the server of `MdbServer`, with nothing between its
receive and its write of `status`. -/
theorem cacheStep_steps {Conn : Type} [DecidableEq Conn] {fresh : Block maxValueLen}
    {s s' : CacheServer Conn} {e : CacheEvent Conn (List UInt8)} {sent : List UInt8}
    (hcomes : e.Comes) (h : cacheStep fresh s e = .ok (s', sent)) :
    ∃ es, Steps ServerStep ⟨s.handle, []⟩ es ⟨s'.handle, []⟩ := by
  have hsame : s' = s → ∃ es, Steps ServerStep ⟨s.handle, []⟩ es ⟨s'.handle, []⟩ := by
    rintro rfl
    exact ⟨[], .nil⟩
  cases e with
  | accepted c =>
      rw [cacheStep] at h
      cases hhandle : s.handle c with
      | fresh =>
          rw [hhandle] at h
          cases h
          exact ⟨_, Steps.nil.snoc (.accept hhandle)⟩
      | live status =>
          rw [hhandle] at h
          cases h
          exact hsame rfl
      | closed =>
          rw [hhandle] at h
          cases h
          exact hsame rfl
  | disconnected c =>
      rw [cacheStep] at h
      cases hhandle : s.handle c with
      | fresh =>
          rw [hhandle] at h
          cases h
          exact hsame rfl
      | live status =>
          rw [hhandle] at h
          cases h
          exact ⟨_, Steps.nil.snoc (.disconnect hhandle)⟩
      | closed =>
          rw [hhandle] at h
          cases h
          exact hsame rfl
  | message c msg =>
      rw [cacheStep] at h
      cases hhandle : s.handle c with
      | fresh =>
          rw [hhandle] at h
          cases h
          exact hsame rfl
      | closed =>
          rw [hhandle] at h
          cases h
          exact hsame rfl
      | live status =>
          rw [hhandle] at h
          obtain ⟨⟨mem, handle, out⟩, hpass, hrest⟩ := exists_of_bind h
          cases hrest
          rcases processMessage_handle hpass with ⟨hrejected, rfl⟩ | ⟨hkept, rfl⟩
          · exact ⟨_, Steps.nil.snoc (.reject hhandle hcomes.1 hcomes.2 hrejected)⟩
          · exact ⟨_, (Steps.nil.snoc (.serve hhandle hcomes.1 hcomes.2 hkept)).snoc
              (.setStatus (a := []) (b := []) rfl hhandle)⟩

/-! ## The cache that is meant -/

/-- What a client says. -/
inductive Say : Type where
  | password : Say
  | insert (key : MdbKey) (value : MdbValue) : Say
  | find (key : MdbKey) : Say
  /-- Neither the password nor an operation. -/
  | other : Say

/-- How far a connection has come. -/
inductive Phase : Type where
  | absent : Phase
  | waiting : Phase
  | authorized : Phase
  | gone : Phase
  deriving DecidableEq

/-- The connections, and for each slot the key and the value it has. -/
structure Cache (Conn : Type) where
  phase : Conn → Phase
  slots : Fin maxEntries → MdbKey × MdbValue

/-- The empty text is there from the beginning, in every slot. -/
def Cache.empty {Conn : Type} : Cache Conn where
  phase := fun _ => .absent
  slots := fun _ => (⟨[], List.not_mem_nil, by decide⟩, ⟨[], List.not_mem_nil, by decide⟩)

section
variable {Conn : Type} [DecidableEq Conn]

/-- Before anything else a client says the password. -/
def Cache.admits (t : Cache Conn) (c : Conn) : Say → Cache Conn × List UInt8
  | .password => ({ t with phase := Function.update t.phase c .authorized }, bytes "authorized")
  | .insert _ _ | .find _ | .other => ({ t with phase := Function.update t.phase c .gone }, [])

/-- Then it is served; there is no answer to the question for a key that is not in its slot. -/
def Cache.serves (t : Cache Conn) : Say → Option (Cache Conn × List UInt8)
  | .insert key value =>
      some ({ t with slots := Function.update t.slots (mdbSlot key.bytes) (key, value) },
        bytes "insert ok")
  | .find key =>
      if (t.slots (mdbSlot key.bytes)).1 = key then
        some (t, (t.slots (mdbSlot key.bytes)).2.bytes)
      else none
  | .password | .other => some (t, [])

/-- A step of the cache. -/
def Cache.step (t : Cache Conn) : CacheEvent Conn Say → Option (Cache Conn × List UInt8)
  | .accepted c =>
      if t.phase c = .absent then
        some ({ t with phase := Function.update t.phase c .waiting }, [])
      else some (t, [])
  | .message c say =>
      match t.phase c with
      | .waiting => some (t.admits c say)
      | .authorized => t.serves say
      | .absent | .gone => some (t, [])
  | .disconnected c =>
      if t.phase c = .waiting ∨ t.phase c = .authorized then
        some ({ t with phase := Function.update t.phase c .gone }, [])
      else some (t, [])

end

/-! ## Messages -/

/-- An array of an `entry_t` that holds a text. -/
def EntryField (n : ℕ) (s field : List UInt8) : Prop :=
  field.length = n ∧ ∃ junk, field = s ++ 0 :: junk

/-- The bytes in which a client says something: an `entry_t`, or any others. -/
inductive Says : List UInt8 → Say → Prop where
  | password {msg : List UInt8} : cstr msg = bytes "123" → Says msg .password
  | insert {key : MdbKey} {value : MdbValue} {keyField valueField : List UInt8} :
      EntryField maxKeyLen key.bytes keyField → EntryField maxValueLen value.bytes valueField →
      Says ([1, 0, 0, 0] ++ keyField ++ valueField) (.insert key value)
  | find {key : MdbKey} {keyField valueField : List UInt8} :
      EntryField maxKeyLen key.bytes keyField → valueField.length = maxValueLen →
      Says ([2, 0, 0, 0] ++ keyField ++ valueField) (.find key)
  | other {msg : List UInt8} : cstr msg ≠ bytes "123" → entryOp (received msg) ≠ 1 →
      entryOp (received msg) ≠ 2 → Says msg .other

/-- An event, with its message and with what it says. -/
inductive SaysEvent {Conn : Type} : CacheEvent Conn (List UInt8) → CacheEvent Conn Say → Prop where
  | accepted {c : Conn} : SaysEvent (.accepted c) (.accepted c)
  | message {c : Conn} {msg : List UInt8} {say : Say} : msg ≠ [] → msg.length ≤ dataBufsize →
      Says msg say → SaysEvent (.message c msg) (.message c say)
  | disconnected {c : Conn} : SaysEvent (.disconnected c) (.disconnected c)

/-- The first byte of an operation. -/
theorem entryOp_cons (b : UInt8) (buffer : List UInt8) :
    entryOp (b :: buffer) % 256 = b.toNat := by
  have hb := b.toNat_lt
  rw [entryOp, List.take_succ_cons, List.map_cons, Nat.ofDigits_cons,
    BitVec.toInt_eq_toNat_bmod, BitVec.toNat_ofNat, Int.bmod_def]
  omega

/-- Behind the password the password is no operation. -/
theorem entryOp_password {msg : List UInt8} (h : cstr msg = bytes "123") :
    entryOp (received msg) ≠ 1 ∧ entryOp (received msg) ≠ 2 := by
  obtain ⟨rest, hmsg⟩ : bytes "123" <+: msg := by
    rw [← h]
    exact List.takeWhile_prefix _
  have hreceived : received msg
      = 49 :: (bytes "23" ++ rest ++ List.replicate (dataBufsize - msg.length) 0) := by
    rw [received, ← hmsg]
    rfl
  have hfirst := entryOp_cons 49
    (bytes "23" ++ rest ++ List.replicate (dataBufsize - msg.length) 0)
  rw [← hreceived] at hfirst
  have hnum : ((49 : UInt8).toNat : ℤ) = 49 := rfl
  rw [hnum] at hfirst
  constructor
  · intro hone
    rw [hone] at hfirst
    cases hfirst
  · intro htwo
    rw [htwo] at hfirst
    cases hfirst

/-- An `entry_t` is not the password. -/
theorem cstr_entry {op : UInt8} (hop : op ≠ 49) (keyField valueField : List UInt8) :
    cstr ([op, 0, 0, 0] ++ keyField ++ valueField) ≠ bytes "123" := by
  intro h
  have hpassword : bytes "123" = 49 :: bytes "23" := by decide
  rw [List.append_assoc, List.cons_append, cstr, List.takeWhile_cons, hpassword] at h
  split at h
  · exact hop (List.cons.inj h).1
  · cases h

section
variable {keyField valueField : List UInt8} (hkeyField : keyField.length = maxKeyLen) (op : UInt8)
include hkeyField

/-- An `entry_t` as it is in the buffer. -/
theorem received_entry : entryOp (received ([op, 0, 0, 0] ++ keyField ++ valueField)) = op.toNat ∧
    (∃ behind, (received ([op, 0, 0, 0] ++ keyField ++ valueField)).drop 4 = keyField ++ behind) ∧
    ∃ behind, (received ([op, 0, 0, 0] ++ keyField ++ valueField)).drop 68
      = valueField ++ behind := by
  have hop := op.toNat_lt
  rw [received]
  generalize List.replicate _ (0 : UInt8) = zeros
  have htext : [op, 0, 0, 0] ++ keyField ++ valueField ++ zeros
      = op :: 0 :: 0 :: 0 :: (keyField ++ (valueField ++ zeros)) := by
    simp only [List.append_assoc, List.cons_append, List.nil_append]
  rw [htext]
  refine ⟨?_, ⟨_, rfl⟩, zeros, ?_⟩
  · show (BitVec.ofNat 32 (Nat.ofDigits 256 [op.toNat, 0, 0, 0])).toInt = op.toNat
    have hvalue : Nat.ofDigits 256 [op.toNat, 0, 0, 0] = op.toNat := by
      simp [Nat.ofDigits_cons]
    rw [hvalue, BitVec.toInt_eq_toNat_bmod, BitVec.toNat_ofNat, Int.bmod_def]
    omega
  · show (keyField ++ (valueField ++ zeros)).drop 64 = _
    exact List.drop_left' hkeyField

end

/-- What is read of a field is its text. -/
theorem EntryField.cstr_eq {n : ℕ} {s field : List UInt8} (h : EntryField n s field) (hs : IsText s)
    (behind : List UInt8) : cstr (field ++ behind) = s := by
  obtain ⟨-, junk, rfl⟩ := h
  rw [List.append_assoc, List.cons_append, cstr_append_zero hs]

/-- What is made of it on a connection that has not said the password. -/
def Say.early : Say → Reaction
  | .password => .authorized
  | .insert _ _ | .find _ | .other => .rejected

/-- And behind the password. -/
def Say.late : Say → Reaction
  | .insert key value => .inserted key.bytes value.bytes
  | .find key => .found key.bytes
  | .password | .other => .ignored

/-- What a message is to `ProcessIO`. -/
theorem processIo_meant {msg : List UInt8} {say : Say} (h : Says msg say) :
    processIo 0 (received msg) = say.early ∧ processIo 1 (received msg) = say.late := by
  have hone : (1 : ℤ) ≠ 0 := one_ne_zero
  cases h with
  | password hmsg =>
      obtain ⟨h₁, h₂⟩ := entryOp_password hmsg
      refine ⟨?_, ?_⟩
      · rw [processIo, if_pos rfl, if_pos ((strcmpEq_received_iff msg).mpr hmsg), Say.early]
      · rw [processIo, if_neg hone, if_neg h₁, if_neg h₂, Say.late]
  | @insert key value keyField valueField hkey hvalue =>
      obtain ⟨hop, ⟨keyBehind, hkeyDrop⟩, valueBehind, hvalueDrop⟩ :=
        @received_entry keyField valueField hkey.1 1
      have hinsert : entryOp (received ([1, 0, 0, 0] ++ keyField ++ valueField)) = 1 := hop
      refine ⟨processIo_rejected_iff.mpr ⟨rfl, cstr_entry (by decide) _ _⟩, ?_⟩
      rw [processIo, if_neg hone, if_pos hinsert, hkeyDrop, hvalueDrop, hkey.cstr_eq key.isText,
        hvalue.cstr_eq value.isText, Say.late]
  | @find key keyField valueField hkey hvalue =>
      obtain ⟨hop, ⟨keyBehind, hkeyDrop⟩, -⟩ := @received_entry keyField valueField hkey.1 2
      have hfind : entryOp (received ([2, 0, 0, 0] ++ keyField ++ valueField)) = 2 := hop
      have hother : entryOp (received ([2, 0, 0, 0] ++ keyField ++ valueField)) ≠ 1 := by
        rw [hfind]
        decide
      refine ⟨processIo_rejected_iff.mpr ⟨rfl, cstr_entry (by decide) _ _⟩, ?_⟩
      rw [processIo, if_neg hone, if_neg hother, if_pos hfind, hkeyDrop, hkey.cstr_eq key.isText,
        Say.late]
  | other hmsg h₁ h₂ =>
      refine ⟨processIo_rejected_iff.mpr ⟨rfl, hmsg⟩, ?_⟩
      rw [processIo, if_neg hone, if_neg h₁, if_neg h₂, Say.late]

/-! ## The memory behind the slots -/

/-- Every entry of the memory holds what its slot has. -/
def HoldsSlots (mem : MdbMemory) (slots : Fin maxEntries → MdbKey × MdbValue) : Prop :=
  ∀ i, HoldsEntry mem i (slots i).1.bytes (slots i).2.bytes

section
variable {mem : MdbMemory} {slots : Fin maxEntries → MdbKey × MdbValue}

theorem holdsSlots_zero {Conn : Type} :
    HoldsSlots (Block.zero _) (Cache.empty : Cache Conn).slots := by
  intro i
  have hle := keyOffset_le i
  have hzero : ∀ n, (Block.strncpy n []).bytes = List.replicate n 0 := by
    intro n
    show (List.replicate n (0 : UInt8)).take n = List.replicate n 0
    rw [List.take_replicate, Nat.min_self]
  show entryBytes (Block.zero _) i
    = (Block.strncpy maxKeyLen []).bytes ++ (Block.strncpy maxValueLen []).bytes
  rw [hzero, hzero, ← List.replicate_add]
  show ((List.replicate (maxEntries * entrySize) (0 : UInt8)).drop (keyOffset i)).take _ = _
  rw [List.drop_replicate, List.take_replicate, Nat.min_eq_left (by omega)]

/-- An insert writes its slot. -/
theorem HoldsSlots.store (h : HoldsSlots mem slots) (key : MdbKey) (value : MdbValue) :
    ∃ mem', mdbStore mem key.bytes value.bytes = .ok mem' ∧
      HoldsSlots mem' (Function.update slots (mdbSlot key.bytes) (key, value)) := by
  obtain ⟨mem', hstore, hself, hothers⟩ := exists_mdbStore mem key.bytes value.bytes
  refine ⟨mem', hstore, ?_⟩
  intro i
  by_cases hi : i = mdbSlot key.bytes
  · subst hi
    rw [Function.update_self]
    exact hself
  · rw [Function.update_of_ne hi, HoldsEntry, hothers i hi]
    exact h i

/-- A find looks at its slot. -/
theorem HoldsSlots.find (h : HoldsSlots mem slots) (fresh : Block maxValueLen) (key : MdbKey) :
    mdbFindData fresh mem key.bytes = .ok (if (slots (mdbSlot key.bytes)).1 = key then
      some (slots (mdbSlot key.bytes)).2.bytes else none) := by
  have hentry := h (mdbSlot key.bytes)
  generalize slots (mdbSlot key.bytes) = slot at hentry ⊢
  have hstring : keyString slot.1.bytes slot.2.bytes = slot.1.bytes :=
    keyString_eq_iff.mpr (Or.inl slot.1.length_lt)
  have hcompare := hentry.compare slot.1.isText slot.2.isText slot.2.length_lt key.bytes
  rw [hstring] at hcompare
  rw [mdbFindData, hcompare, ok_bind]
  by_cases hkey : slot.1 = key
  · obtain ⟨res, hcopy, hread⟩ :=
      Block.exists_strcpy (b := fresh) slot.2.isText slot.2.length_lt
    have hsame : key.bytes = slot.1.bytes := by rw [hkey]
    rw [if_pos (decide_eq_true hsame), if_pos hkey,
      hentry.read_value slot.2.isText slot.2.length_lt, ok_bind, hcopy, ok_bind, hread, ok_bind]
  · have hother : ¬ key.bytes = slot.1.bytes :=
      fun hsame => hkey (ShortText.eq_of_bytes hsame).symm
    rw [if_neg (by simpa using hother), if_neg hkey]

end

/-! ## The server is the cache -/

/-- The handle of a connection that has come so far. -/
def Phase.handle : Phase → Handle
  | .absent => .fresh
  | .waiting => .live 0
  | .authorized => .live 1
  | .gone => .closed

/-- The server stands for the cache. -/
structure CacheServer.Shows {Conn : Type} (s : CacheServer Conn) (t : Cache Conn) : Prop where
  phases : ∀ c, s.handle c = (t.phase c).handle
  slots : HoldsSlots s.mem t.slots

theorem shows_cacheStart {Conn : Type} : (cacheStart : CacheServer Conn).Shows Cache.empty where
  phases _ := rfl
  slots := holdsSlots_zero

section
variable {Conn : Type} [DecidableEq Conn] {s : CacheServer Conn} {t : Cache Conn} (h : s.Shows t)
include h

/-- A connection has come to a phase, and the slots are others. -/
theorem CacheServer.Shows.move (c : Conn) (phase : Phase) {mem : MdbMemory}
    {slots : Fin maxEntries → MdbKey × MdbValue} (hslots : HoldsSlots mem slots) :
    CacheServer.Shows ⟨Function.update s.handle c phase.handle, mem⟩
      ⟨Function.update t.phase c phase, slots⟩ where
  phases c' := by
    by_cases hc : c' = c
    · subst hc
      simp only [Function.update_self]
    · simp only [Function.update_of_ne hc]
      exact h.phases c'
  slots := hslots

/-- A message of a client that has not said the password. -/
theorem CacheServer.Shows.admits (fresh : Block maxValueLen) {c : Conn}
    (hphase : t.phase c = .waiting) {msg : List UInt8} {say : Say} (hsaid : Says msg say) :
    Meets CacheServer.Shows .free (cacheStep fresh s (.message c msg)) (some (t.admits c say)) := by
  have hhandle : s.handle c = .live 0 := by rw [h.phases, hphase, Phase.handle]
  have hstep : cacheStep fresh s (.message c msg) = (do
      let (mem, handle, sent) ← processMessage fresh s.mem 0 msg
      .ok (⟨Function.update s.handle c handle, mem⟩, sent)) := by
    rw [cacheStep, hhandle]
  have hrejected : say.early = .rejected →
      cacheStep fresh s (.message c msg)
        = .ok (⟨Function.update s.handle c .closed, s.mem⟩, []) := by
    intro hearly
    rw [hstep, processMessage, (processIo_meant hsaid).1, hearly]
    rfl
  cases say with
  | password =>
      refine ⟨_, ?_, h.move c .authorized h.slots⟩
      rw [hstep, processMessage, (processIo_meant hsaid).1, Say.early]
      rfl
  | insert key value => exact ⟨_, hrejected rfl, h.move c .gone h.slots⟩
  | find key => exact ⟨_, hrejected rfl, h.move c .gone h.slots⟩
  | other => exact ⟨_, hrejected rfl, h.move c .gone h.slots⟩

/-- A message of a client that has. -/
theorem CacheServer.Shows.serves (fresh : Block maxValueLen) {c : Conn}
    (hphase : t.phase c = .authorized) {msg : List UInt8} {say : Say} (hsaid : Says msg say) :
    Meets CacheServer.Shows .free (cacheStep fresh s (.message c msg)) (t.serves say) := by
  have hhandle : s.handle c = .live 1 := by rw [h.phases, hphase, Phase.handle]
  have hstep : cacheStep fresh s (.message c msg) = (do
      let (mem, handle, sent) ← processMessage fresh s.mem 1 msg
      .ok (⟨Function.update s.handle c handle, mem⟩, sent)) := by
    rw [cacheStep, hhandle]
  have hmove : ∀ {mem : MdbMemory} {slots : Fin maxEntries → MdbKey × MdbValue},
      HoldsSlots mem slots →
        CacheServer.Shows ⟨Function.update s.handle c (.live 1), mem⟩ ⟨t.phase, slots⟩ := by
    intro mem slots hslots
    have hmoved := h.move c .authorized hslots
    rwa [← hphase, Function.update_eq_self, hphase] at hmoved
  have hignored : say.late = .ignored →
      cacheStep fresh s (.message c msg)
        = .ok (⟨Function.update s.handle c (.live 1), s.mem⟩, []) := by
    intro hlate
    rw [hstep, processMessage, (processIo_meant hsaid).2, hlate]
    rfl
  cases say with
  | password => exact ⟨_, hignored rfl, hmove h.slots⟩
  | other => exact ⟨_, hignored rfl, hmove h.slots⟩
  | insert key value =>
      obtain ⟨mem', hstore, hslots⟩ := h.slots.store key value
      refine ⟨_, ?_, hmove hslots⟩
      rw [hstep, processMessage, (processIo_meant hsaid).2, Say.late]
      dsimp only
      rw [hstore]
      rfl
  | find key =>
      have hfind := h.slots.find fresh key
      rw [hstep, processMessage, (processIo_meant hsaid).2, Say.late, Cache.serves]
      dsimp only
      rw [hfind]
      split
      · exact ⟨_, rfl, hmove h.slots⟩
      · rfl

end

section
variable {Conn : Type} [DecidableEq Conn]

/-- Every step of the server is the step that is meant. -/
theorem cacheStep_refines (fresh : Block maxValueLen) :
    Refines (@CacheServer.Shows Conn) SaysEvent .free (cacheStep fresh) Cache.step := by
  rintro s t e e' h hsaid
  cases hsaid with
  | @accepted c =>
      rw [cacheStep, Cache.step, h.phases]
      cases hphase : t.phase c with
      | absent =>
          rw [if_pos rfl]
          exact ⟨_, rfl, h.move c .waiting h.slots⟩
      | waiting => exact ⟨s, rfl, h⟩
      | authorized => exact ⟨s, rfl, h⟩
      | gone => exact ⟨s, rfl, h⟩
  | @message c msg say hne hlen hsaid =>
      rw [Cache.step]
      cases hphase : t.phase c with
      | absent =>
          have hhandle : s.handle c = .fresh := by rw [h.phases, hphase, Phase.handle]
          refine ⟨s, ?_, h⟩
          rw [cacheStep, hhandle]
      | gone =>
          have hhandle : s.handle c = .closed := by rw [h.phases, hphase, Phase.handle]
          refine ⟨s, ?_, h⟩
          rw [cacheStep, hhandle]
      | waiting => exact h.admits fresh hphase hsaid
      | authorized => exact h.serves fresh hphase hsaid
  | @disconnected c =>
      rw [cacheStep, Cache.step, h.phases]
      cases hphase : t.phase c with
      | absent => exact ⟨s, rfl, h⟩
      | gone => exact ⟨s, rfl, h⟩
      | waiting => exact ⟨_, rfl, h.move c .gone h.slots⟩
      | authorized => exact ⟨_, rfl, h.move c .gone h.slots⟩

end

/-- An `entry_t` with zeros behind its texts. -/
def plainEntry (op : UInt8) (key : MdbKey) (value : MdbValue) : List UInt8 :=
  [op, 0, 0, 0] ++ (key.bytes ++ 0 :: List.replicate (maxKeyLen - key.bytes.length - 1) 0) ++
    (value.bytes ++ 0 :: List.replicate (maxValueLen - value.bytes.length - 1) 0)

theorem entryField_plain {n : ℕ} (s : ShortText n) :
    EntryField n s.bytes (s.bytes ++ 0 :: List.replicate (n - s.bytes.length - 1) 0) := by
  have hlt := s.length_lt
  refine ⟨?_, _, rfl⟩
  rw [List.length_append, List.length_cons, List.length_replicate]
  omega

theorem length_plainEntry (op : UInt8) (key : MdbKey) (value : MdbValue) :
    (plainEntry op key value).length = 580 := by
  have hkey := (entryField_plain key).1
  have hvalue := (entryField_plain value).1
  rw [plainEntry, List.length_append, List.length_append, hkey, hvalue]
  rfl

theorem saysEvent_plain {op : UInt8} {key : MdbKey} {value : MdbValue} {say : Say}
    (h : Says (plainEntry op key value) say) :
    SaysEvent (.message true (plainEntry op key value)) (.message true say) :=
  .message (List.cons_ne_nil _ _) (by rw [length_plainEntry]; decide) h
