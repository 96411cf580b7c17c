/-
# The session store

`g_session_all_dec` is a table of chained nodes by session id, each node with a list
of data.  A node is created with one datum and only ever gets more, so its list is
never empty: `HashNode` carries that as a field.

Every text that is stored is copied into a block of `malloc(strlen(s))` bytes, which has
no place for the NUL.  `sessionCreate`, `sessionAdd` and `updateSessionData` say what the
calls make of the store; `sessionCreateIn`, `sessionAddIn` and `updateSessionDataIn` are
the calls with their copies, a NUL written behind its block being a fault.

What the store is for is a map from ids to lists of entries, newest first
(`SessionMap`).  The store simulates it: every call gives the same result on both,
at every id, whichever ids share a bucket.  With its copies it does so exactly as long
as each text that a call stores has room for its NUL.

Times are `int`s: a time is cut to 32 bits where the code stores it in one.
-/
import DmfServer.Hashmap
import DmfServer.StepSystem

open CMem ChainTable

/-- `HASH_DEC_LEN`. -/
abbrev hashDecLen : ℕ := 512

/-- `SESSION_EXPIRE_DEFAULT`. -/
def sessionExpireDefault : ℤ := 60 * 5

/-- `SessionData`; the `next` pointer is the list it is in. -/
structure SessionData where
  key : List UInt8
  data : List UInt8
  timeStore : ℤ
  expire : ℤ
  deriving DecidableEq

/-- `HashNode`. -/
structure HashNode where
  key : List UInt8
  value : List SessionData
  /-- `value` is not `NULL`. -/
  value_ne : value ≠ []
  deriving DecidableEq

/-- `g_session_all_dec`. -/
abbrev SessionStore := ChainTable HashNode hashDecLen

/-- `session_init`. -/
def sessionInit : SessionStore := ChainTable.empty _ _

/-- A datum stored at the time `now`, made of copies. -/
def newSessionData (key value : List UInt8) (now : ℤ) : SessionData :=
  { key := key, data := value, timeStore := toInt now, expire := sessionExpireDefault }

/-- The nodes that have the id, in the order of their bucket. -/
def hashNodes (store : SessionStore) (sessionStr : List UInt8) : List HashNode :=
  bindings HashNode.key hashFunction store sessionStr

/-- What `SessionCreate` makes of the store, with the id it has drawn: the node goes to the head
of its bucket. -/
def sessionCreate (store : SessionStore) (randomStr key value : List UInt8) (now : ℤ) :
    SessionStore :=
  push HashNode.key hashFunction store
    { key := randomStr, value := [newSessionData key value now]
      value_ne := List.cons_ne_nil _ _ }

/-- What `getSession` returns for the first datum with the name: `NULL` if it has expired. -/
def SessionData.answer (d : SessionData) (now : ℤ) : Option (List UInt8) :=
  if toInt now ≤ toInt (d.timeStore + d.expire) then some d.data else none

/-- `getSession`: the data of the first node that has the name, in the order of the bucket. -/
def getSession (store : SessionStore) (sessionStr key : List UInt8) (now : ℤ) :
    Option (List UInt8) :=
  (search HashNode.key hashFunction store sessionStr fun node =>
    (node.value.find? fun d => d.key = key).map fun d => d.answer now).getD none

/-- The datum hung in at the head of a node. -/
def HashNode.add (node : HashNode) (d : SessionData) : HashNode :=
  { node with value := d :: node.value, value_ne := List.cons_ne_nil _ _ }

/-- What `SessionAdd` makes of the store: into the first node of the id; −2 if there is none. -/
def sessionAdd (store : SessionStore) (sessionStr key value : List UInt8) (now : ℤ) :
    SessionStore × ℤ :=
  match replace HashNode.key hashFunction store sessionStr
      (fun node => some (node.add (newSessionData key value now))) with
  | some store => (store, 1)
  | none => (store, -2)

/-- The datum with the name gets the new data and time. -/
def SessionData.update (key newdata : List UInt8) (now : ℤ) (d : SessionData) :
    Option SessionData :=
  if d.key = key then
    some { d with data := newdata, timeStore := toInt now, expire := sessionExpireDefault }
  else none

/-- Replace the first datum of a node for which `f` has a replacement. -/
def HashNode.modify (f : SessionData → Option SessionData) (node : HashNode) :
    Option HashNode :=
  match h : replaceFirst f node.value with
  | some value => some { node with value := value, value_ne := replaceFirst_ne_nil h }
  | none => none

/-- What `UpdateSessionData` makes of the store: the first datum with the name, in the first node
that has it, is changed. -/
def updateSessionData (store : SessionStore) (sessionStr key newdata : List UInt8) (now : ℤ) :
    SessionStore × ℤ :=
  match replace HashNode.key hashFunction store sessionStr
      (HashNode.modify (SessionData.update key newdata now)) with
  | some store => (store, 1)
  | none => (store, 0)

/-! ## The copies -/

/-- `SessionCreate`: the id, the name and the data are copied. -/
def sessionCreateIn (spare : SpareByte) (store : SessionStore)
    (randomStr key value : List UInt8) (now : ℤ) : Except Fault SessionStore := do
  let randomStr ← mallocCopy spare randomStr
  let key ← mallocCopy spare key
  let value ← mallocCopy spare value
  .ok (sessionCreate store randomStr key value now)

/-- `SessionAdd`: the copies are made before the id is looked for. -/
def sessionAddIn (spare : SpareByte) (store : SessionStore)
    (sessionStr key value : List UInt8) (now : ℤ) : Except Fault (SessionStore × ℤ) := do
  let key ← mallocCopy spare key
  let value ← mallocCopy spare value
  .ok (sessionAdd store sessionStr key value now)

/-- `UpdateSessionData`: the copy is made where there is a datum with the name. -/
def updateSessionDataIn (spare : SpareByte) (store : SessionStore)
    (sessionStr key newdata : List UInt8) (now : ℤ) : Except Fault (SessionStore × ℤ) :=
  if (updateSessionData store sessionStr key newdata now).2 = 0 then .ok (store, 0)
  else do
    let newdata ← mallocCopy spare newdata
    .ok (updateSessionData store sessionStr key newdata now)

/-! ## Calls -/

/-- A call on the store, with its arguments. -/
inductive SessionOp : Type where
  /-- `SessionCreate`, with the id it draws. -/
  | create : List UInt8 → List UInt8 → List UInt8 → SessionOp
  | add : List UInt8 → List UInt8 → List UInt8 → SessionOp
  | update : List UInt8 → List UInt8 → List UInt8 → SessionOp
  | get : List UInt8 → List UInt8 → SessionOp
  deriving DecidableEq

/-- The id a call is about. -/
def SessionOp.id : SessionOp → List UInt8
  | .create id _ _ | .add id _ _ | .update id _ _ | .get id _ => id

/-- What a call returns. -/
inductive SessionResult : Type where
  | none : SessionResult
  | code : ℤ → SessionResult
  /-- A `char *`, `NULL` being `none`. -/
  | text : Option (List UInt8) → SessionResult
  deriving DecidableEq

/-- A call at a time. -/
structure TimedOp where
  op : SessionOp
  now : ℤ
  deriving DecidableEq

/-- A call on the store. -/
def storeStep (store : SessionStore) (c : TimedOp) : SessionStore × SessionResult :=
  match c.op with
  | .create id key value => (sessionCreate store id key value c.now, .none)
  | .add id key value =>
      let r := sessionAdd store id key value c.now
      (r.1, .code r.2)
  | .update id key data =>
      let r := updateSessionData store id key data c.now
      (r.1, .code r.2)
  | .get id key => (store, .text (getSession store id key c.now))

/-- The same, with its copies. -/
def storeStepIn (spare : SpareByte) (store : SessionStore) (c : TimedOp) :
    Except Fault (SessionStore × SessionResult) :=
  match c.op with
  | .create id key value => do
      let store ← sessionCreateIn spare store id key value c.now
      .ok (store, .none)
  | .add id key value => do
      let r ← sessionAddIn spare store id key value c.now
      .ok (r.1, .code r.2)
  | .update id key data => do
      let r ← updateSessionDataIn spare store id key data c.now
      .ok (r.1, .code r.2)
  | .get id key => .ok (store, .text (getSession store id key c.now))

/-! ## The map the store stands for -/

/-- An entry of a session. -/
structure SessionEntry where
  key : List UInt8
  value : List UInt8
  time : ℤ
  deriving DecidableEq

/-- From ids to their entries, newest first. -/
abbrev SessionMap := List UInt8 → List SessionEntry

/-- A call on the map. -/
def mapStep (m : SessionMap) (c : TimedOp) : SessionMap × SessionResult :=
  match c.op with
  | .create id key value => (Function.update m id (⟨key, value, c.now⟩ :: m id), .none)
  | .add id key value =>
      if m id = [] then (m, .code (-2))
      else (Function.update m id (⟨key, value, c.now⟩ :: m id), .code 1)
  | .update id key data =>
      match replaceFirst (fun e => if e.key = key then some ⟨key, data, c.now⟩ else none)
          (m id) with
      | some es => (Function.update m id es, .code 1)
      | none => (m, .code 0)
  | .get id key =>
      match (m id).find? (fun e => e.key = key) with
      | some e => (m, .text (if c.now ≤ e.time + 300 then some e.value else none))
      | none => (m, .text none)

/-- The time, and 300 seconds later, are `int`s. -/
def IsTime (t : ℤ) : Prop := -2 ^ 31 ≤ t ∧ t + 300 < 2 ^ 31

/-- The datum an entry is stored as. -/
def SessionEntry.datum (e : SessionEntry) : SessionData :=
  { key := e.key, data := e.value, timeStore := e.time, expire := sessionExpireDefault }

/-- The store stands for the map: at every id, the data of its nodes are its entries. -/
structure StandsFor (store : SessionStore) (m : SessionMap) : Prop where
  data : ∀ id, (bindings HashNode.key hashFunction store id).flatMap HashNode.value
    = (m id).map SessionEntry.datum
  times : ∀ id, ∀ e ∈ m id, IsTime e.time

/-! ## The simulation -/

theorem IsTime.toInt_eq {t : ℤ} (h : IsTime t) : toInt t = t :=
  toInt_of_range h.1 (by have := h.2; omega)

theorem newSessionData_eq {now : ℤ} (h : IsTime now) (key value : List UInt8) :
    newSessionData key value now = (⟨key, value, now⟩ : SessionEntry).datum := by
  rw [newSessionData, h.toInt_eq, SessionEntry.datum]

/-- A stored entry has expired exactly when 300 seconds have passed. -/
theorem answer_datum {e : SessionEntry} {now : ℤ} (he : IsTime e.time) (hnow : IsTime now) :
    e.datum.answer now = if now ≤ e.time + 300 then some e.value else none := by
  have hsum : toInt (e.time + sessionExpireDefault) = e.time + 300 :=
    toInt_of_range (by have := he.1; unfold sessionExpireDefault; omega)
      (by have := he.2; unfold sessionExpireDefault; omega)
  rw [SessionData.answer, hnow.toInt_eq]
  show (if now ≤ toInt (e.time + sessionExpireDefault) then _ else _) = _
  rw [hsum]
  rfl

/-- Searching node by node is searching the data of all nodes. -/
theorem findSome?_data {ρ : Type} (p : SessionData → Bool) (g : SessionData → ρ)
    (nodes : List HashNode) :
    nodes.findSome? (fun node => (node.value.find? p).map g)
      = ((nodes.flatMap HashNode.value).find? p).map g := by
  induction nodes with
  | nil => rfl
  | cons node nodes ih =>
      rw [List.findSome?_cons, List.flatMap_cons, List.find?_append, ih]
      cases node.value.find? p <;> rfl

/-- Replacing node by node is replacing in the data of all nodes. -/
theorem replaceFirst_modify (f : SessionData → Option SessionData) (nodes : List HashNode) :
    (replaceFirst (HashNode.modify f) nodes).map (·.flatMap HashNode.value)
      = replaceFirst f (nodes.flatMap HashNode.value) := by
  induction nodes with
  | nil => rfl
  | cons node nodes ih =>
      rw [List.flatMap_cons, replaceFirst_append, ← ih, replaceFirst]
      have hmodify : (HashNode.modify f node).map HashNode.value
          = replaceFirst f node.value := by
        unfold HashNode.modify
        split
        · next h => exact h.symm
        · next h => exact h.symm
      cases hnode : HashNode.modify f node with
      | some node' =>
          rw [hnode] at hmodify
          rw [← hmodify]
          rfl
      | none =>
          rw [hnode] at hmodify
          rw [← hmodify]
          simp only [Option.map_none, Option.none_or, Option.map_map]
          rfl

theorem keepsKey_add (d : SessionData) :
    KeepsKey HashNode.key (fun node => some (node.add d)) := by
  intro node node' h
  cases h
  rfl

theorem keepsKey_modify (f : SessionData → Option SessionData) :
    KeepsKey HashNode.key (HashNode.modify f) := by
  intro node node' h
  unfold HashNode.modify at h
  split at h
  · cases h
    rfl
  · cases h

/-- An id with no data has no nodes. -/
theorem flatMap_value_eq_nil {nodes : List HashNode} :
    nodes.flatMap HashNode.value = [] ↔ nodes = [] := by
  cases nodes with
  | nil => simp
  | cons node nodes => simp [node.value_ne]

/-- A store changed at one id, as its map is. -/
theorem StandsFor.update {store store' : SessionStore} {m : SessionMap}
    (h : StandsFor store m) {id : List UInt8} {es : List SessionEntry}
    (hself : (bindings HashNode.key hashFunction store' id).flatMap HashNode.value
      = es.map SessionEntry.datum)
    (hother : ∀ id', id' ≠ id → bindings HashNode.key hashFunction store' id'
      = bindings HashNode.key hashFunction store id')
    (hes : ∀ e ∈ es, IsTime e.time) : StandsFor store' (Function.update m id es) where
  data id' := by
    by_cases hid : id' = id
    · subst hid
      rw [hself, Function.update_self]
    · rw [hother id' hid, h.data, Function.update_of_ne hid]
  times id' := by
    by_cases hid : id' = id
    · subst hid
      rwa [Function.update_self]
    · rw [Function.update_of_ne hid]
      exact h.times id'

theorem StandsFor.create {store : SessionStore} {m : SessionMap} (h : StandsFor store m)
    (id key value : List UInt8) {now : ℤ} (hnow : IsTime now) :
    StandsFor (sessionCreate store id key value now)
      (Function.update m id (⟨key, value, now⟩ :: m id)) := by
  refine h.update ?_ (fun id' hid => bindings_push_of_ne store _ hid) ?_
  · show (bindings HashNode.key hashFunction (push HashNode.key hashFunction store
      ⟨id, [newSessionData key value now], _⟩) id).flatMap HashNode.value = _
    rw [bindings_push_self store ⟨id, [newSessionData key value now], List.cons_ne_nil _ _⟩,
      List.flatMap_cons, h.data, List.map_cons, newSessionData_eq hnow]
    rfl
  · exact List.forall_mem_cons.mpr ⟨hnow, h.times id⟩

theorem StandsFor.get {store : SessionStore} {m : SessionMap} (h : StandsFor store m)
    (id key : List UInt8) {now : ℤ} (hnow : IsTime now) :
    getSession store id key now
      = ((m id).find? (fun e => e.key = key)).elim none
          (fun e => if now ≤ e.time + 300 then some e.value else none) := by
  rw [getSession, search_eq, findSome?_data, h.data, List.find?_map]
  show (Option.map _ (Option.map _ ((m id).find? fun e => e.key = key))).getD none = _
  cases he : (m id).find? (fun e => e.key = key) with
  | none => rfl
  | some e =>
      simp only [Option.map_some, Option.getD_some, Option.elim_some]
      exact answer_datum (h.times id e (List.mem_of_find?_eq_some he)) hnow

theorem StandsFor.add {store : SessionStore} {m : SessionMap} (h : StandsFor store m)
    (id key value : List UInt8) {now : ℤ} (hnow : IsTime now) :
    (m id = [] → sessionAdd store id key value now = (store, -2)) ∧
    (m id ≠ [] → ∃ store', sessionAdd store id key value now = (store', 1) ∧
      StandsFor store' (Function.update m id (⟨key, value, now⟩ :: m id))) := by
  have hkey := keepsKey_add (newSessionData key value now)
  have hself : (replace HashNode.key hashFunction store id _).map _ = _ :=
    bindings_replace_self store hkey
  have hnil : bindings HashNode.key hashFunction store id = [] ↔ m id = [] := by
    rw [← flatMap_value_eq_nil, h.data, List.map_eq_nil_iff]
  constructor
  · intro hm
    rw [hnil.mpr hm] at hself
    rw [sessionAdd, Option.map_eq_none_iff.mp hself]
  · intro hm
    obtain ⟨node, nodes, hnodes⟩ := List.exists_cons_of_ne_nil (fun hn => hm (hnil.mp hn))
    rw [hnodes] at hself
    obtain ⟨store', hstore', hbind⟩ := Option.map_eq_some_iff.mp hself
    refine ⟨store', by rw [sessionAdd, hstore'], h.update ?_
      (fun id' hid => bindings_replace_of_ne hkey hstore' hid) ?_⟩
    · have hdata := h.data id
      rw [hnodes] at hdata
      rw [hbind, List.map_cons, ← hdata, ← newSessionData_eq hnow]
      rfl
    · exact List.forall_mem_cons.mpr ⟨hnow, h.times id⟩

theorem StandsFor.updateData {store : SessionStore} {m : SessionMap} (h : StandsFor store m)
    (id key newdata : List UInt8) {now : ℤ} (hnow : IsTime now) :
    match replaceFirst (fun e => if e.key = key then some ⟨key, newdata, now⟩ else none)
        (m id) with
    | some es => ∃ store', updateSessionData store id key newdata now = (store', 1) ∧
        StandsFor store' (Function.update m id es)
    | none => updateSessionData store id key newdata now = (store, 0) := by
  have hkey := keepsKey_modify (SessionData.update key newdata now)
  have hself : (replace HashNode.key hashFunction store id _).map _ = _ :=
    bindings_replace_self store hkey
  have hstep : ∀ e : SessionEntry, SessionData.update key newdata now e.datum
      = (if e.key = key then some ⟨key, newdata, now⟩ else none).map SessionEntry.datum := by
    intro e
    by_cases he : e.key = key
    · rw [if_pos he, Option.map_some, ← he, SessionData.update, hnow.toInt_eq]
      exact if_pos rfl
    · rw [if_neg he, SessionData.update]
      exact if_neg he
  have hdata := replaceFirst_modify (SessionData.update key newdata now)
    (bindings HashNode.key hashFunction store id)
  rw [← hself, h.data, replaceFirst_map hstep, Option.map_map] at hdata
  cases hes : replaceFirst (fun e => if e.key = key then some ⟨key, newdata, now⟩ else none)
      (m id) with
  | none =>
      rw [hes] at hdata
      rw [updateSessionData, Option.map_eq_none_iff.mp hdata]
  | some es =>
      rw [hes] at hdata
      obtain ⟨store', hstore', hbind⟩ := Option.map_eq_some_iff.mp hdata
      refine ⟨store', by rw [updateSessionData, hstore'], h.update hbind
        (fun id' hid => bindings_replace_of_ne hkey hstore' hid) ?_⟩
      intro e he
      rcases mem_of_replaceFirst hes he with he | ⟨e', he'⟩
      · exact h.times id e he
      · split at he'
        · cases he'
          exact hnow
        · cases he'

/-- Every call on the store is the call on the map, with the same result. -/
theorem storeStep_simulates :
    StepSystem.Simulates StandsFor (fun c : TimedOp => IsTime c.now) storeStep mapStep := by
  rintro store m ⟨op, now⟩ h (hnow : IsTime now)
  cases op with
  | create id key value => exact ⟨h.create id key value hnow, rfl⟩
  | add id key value =>
      obtain ⟨hnil, hcons⟩ := h.add id key value hnow
      simp only [storeStep, mapStep]
      by_cases hm : m id = []
      · rw [hnil hm, if_pos hm]
        exact ⟨h, rfl⟩
      · obtain ⟨store', hstore', hstands⟩ := hcons hm
        rw [hstore', if_neg hm]
        exact ⟨hstands, rfl⟩
  | update id key data =>
      have hupdate := h.updateData id key data hnow
      simp only [storeStep, mapStep]
      split at hupdate
      · next es hes =>
        obtain ⟨store', hstore', hstands⟩ := hupdate
        rw [hstore']
        exact ⟨hstands, rfl⟩
      · next hes =>
        rw [hupdate]
        exact ⟨h, rfl⟩
  | get id key =>
      simp only [storeStep, mapStep]
      rw [h.get id key hnow]
      cases (m id).find? (fun e => e.key = key) <;> exact ⟨h, rfl⟩

theorem standsFor_sessionInit : StandsFor sessionInit (fun _ => []) where
  data id := by simp [sessionInit]
  times id e he := by simp at he

/-- On the map, the result of a call depends on the entries of its id alone. -/
theorem mapStep_congr {m m' : SessionMap} {d : TimedOp} (h : m' d.op.id = m d.op.id) :
    (mapStep m' d).2 = (mapStep m d).2 := by
  obtain ⟨op, now⟩ := d
  cases op with
  | create id key value => rfl
  | add id key value =>
      replace h : m' id = m id := h
      simp only [mapStep, h]
      split <;> rfl
  | update id key data =>
      replace h : m' id = m id := h
      simp only [mapStep, h]
      split <;> rfl
  | get id key =>
      replace h : m' id = m id := h
      simp only [mapStep, h]
      split <;> rfl

/-- On the map, a call on one id changes nothing at another. -/
theorem mapStep_of_ne (m : SessionMap) {c : TimedOp} {id : List UInt8} (h : id ≠ c.op.id) :
    (mapStep m c).1 id = m id := by
  obtain ⟨op, now⟩ := c
  cases op with
  | create id' key value => exact Function.update_of_ne h _ _
  | add id' key value =>
      simp only [mapStep]
      split
      · rfl
      · exact Function.update_of_ne h _ _
  | update id' key data =>
      simp only [mapStep]
      split
      · exact Function.update_of_ne h _ _
      · rfl
  | get id' key =>
      simp only [mapStep]
      split <;> rfl

/-! ## The copies of the calls -/

/-- The texts that the call stores have room for their NULs; `UpdateSessionData` stores where the
id has an entry with the name. -/
def TimedOp.HasRoom (spare : SpareByte) (m : SessionMap) (c : TimedOp) : Prop :=
  match c.op with
  | .create id key value => spare id.length ∧ spare key.length ∧ spare value.length
  | .add _ key value => spare key.length ∧ spare value.length
  | .update id key data => (∃ e ∈ m id, e.key = key) → spare data.length
  | .get _ _ => True

instance TimedOp.decidableHasRoom (spare : SpareByte) (m : SessionMap) (c : TimedOp) :
    Decidable (c.HasRoom spare m) :=
  match c with
  | ⟨.create id key value, _⟩ =>
      inferInstanceAs (Decidable (spare id.length ∧ spare key.length ∧ spare value.length))
  | ⟨.add _ key value, _⟩ => inferInstanceAs (Decidable (spare key.length ∧ spare value.length))
  | ⟨.update id key data, _⟩ =>
      inferInstanceAs (Decidable ((∃ e ∈ m id, e.key = key) → spare data.length))
  | ⟨.get _ _, _⟩ => inferInstanceAs (Decidable True)

/-- The texts that the calls store have room, each where it is stored. -/
abbrev RoomFor (spare : SpareByte) : SessionMap → List TimedOp → Prop :=
  StepSystem.Allowed (TimedOp.HasRoom spare) mapStep

theorem sessionCreateIn_eq (spare : SpareByte) (store : SessionStore)
    (randomStr key value : List UInt8) (now : ℤ) :
    sessionCreateIn spare store randomStr key value now
      = if spare randomStr.length ∧ spare key.length ∧ spare value.length then
          .ok (sessionCreate store randomStr key value now)
        else .error .write := by
  simp only [sessionCreateIn, mallocCopy_bind, ite_and]

theorem sessionAddIn_eq (spare : SpareByte) (store : SessionStore)
    (sessionStr key value : List UInt8) (now : ℤ) :
    sessionAddIn spare store sessionStr key value now
      = if spare key.length ∧ spare value.length then
          .ok (sessionAdd store sessionStr key value now)
        else .error .write := by
  simp only [sessionAddIn, mallocCopy_bind, ite_and]

/-- `UpdateSessionData` makes its copy exactly where the id has an entry with the name. -/
theorem StandsFor.updateSessionDataIn_eq {store : SessionStore} {m : SessionMap}
    (h : StandsFor store m) (spare : SpareByte) (id key newdata : List UInt8) {now : ℤ}
    (hnow : IsTime now) :
    updateSessionDataIn spare store id key newdata now
      = if (∃ e ∈ m id, e.key = key) → spare newdata.length then
          .ok (updateSessionData store id key newdata now)
        else .error .write := by
  have hupdate := h.updateData id key newdata hnow
  rw [updateSessionDataIn, mallocCopy_bind]
  split at hupdate
  · next es hes =>
    obtain ⟨store', hstore', -⟩ := hupdate
    have hentry : ∃ e ∈ m id, e.key = key := by
      by_contra hno
      rw [replaceFirst_eq_none_iff.mpr fun e he => if_neg fun hkey => hno ⟨e, he, hkey⟩] at hes
      cases hes
    simp only [hstore', hentry, true_implies, one_ne_zero, if_false]
  · next hes =>
    have hentry : ¬∃ e ∈ m id, e.key = key := by
      rintro ⟨e, he, hkey⟩
      have hnone := replaceFirst_eq_none_iff.mp hes e he
      rw [if_pos hkey] at hnone
      cases hnone
    rw [hupdate, if_pos rfl, if_pos (fun he => absurd he hentry)]

/-- A call whose copies have room is the call without them; any other is a fault. -/
theorem StandsFor.storeStepIn_eq {store : SessionStore} {m : SessionMap} (h : StandsFor store m)
    (spare : SpareByte) (c : TimedOp) (hnow : IsTime c.now) :
    storeStepIn spare store c
      = if c.HasRoom spare m then .ok (storeStep store c) else .error .write := by
  obtain ⟨op, now⟩ := c
  cases op with
  | create id key value =>
      simp only [storeStepIn, sessionCreateIn_eq]
      by_cases hroom : spare id.length ∧ spare key.length ∧ spare value.length
      · rw [if_pos hroom,
          if_pos (show TimedOp.HasRoom spare m ⟨.create id key value, now⟩ from hroom)]
        rfl
      · rw [if_neg hroom,
          if_neg (show ¬TimedOp.HasRoom spare m ⟨.create id key value, now⟩ from hroom)]
        rfl
  | add id key value =>
      simp only [storeStepIn, sessionAddIn_eq]
      by_cases hroom : spare key.length ∧ spare value.length
      · rw [if_pos hroom,
          if_pos (show TimedOp.HasRoom spare m ⟨.add id key value, now⟩ from hroom)]
        rfl
      · rw [if_neg hroom,
          if_neg (show ¬TimedOp.HasRoom spare m ⟨.add id key value, now⟩ from hroom)]
        rfl
  | update id key data =>
      simp only [storeStepIn, h.updateSessionDataIn_eq spare id key data hnow]
      by_cases hroom : (∃ e ∈ m id, e.key = key) → spare data.length
      · rw [if_pos hroom,
          if_pos (show TimedOp.HasRoom spare m ⟨.update id key data, now⟩ from hroom)]
        rfl
      · rw [if_neg hroom,
          if_neg (show ¬TimedOp.HasRoom spare m ⟨.update id key data, now⟩ from hroom)]
        rfl
  | get id key => rfl

/-- The store does what the map does where the copies have room, and comes to a fault elsewhere. -/
theorem storeStepIn_refines (spare : SpareByte) :
    StepSystem.Refines StandsFor (fun c d : TimedOp => d = c ∧ IsTime c.now) .write
      (storeStepIn spare) (StepSystem.guarded (TimedOp.HasRoom spare) mapStep) := by
  rintro store m _ c h ⟨rfl, hnow⟩
  rw [h.storeStepIn_eq spare c hnow, StepSystem.guarded]
  split
  · next hroom =>
    obtain ⟨hstands, hout⟩ := storeStep_simulates _ _ c h hnow
    refine ⟨(storeStep store c).1, ?_, hstands⟩
    show Except.ok (storeStep store c) = Except.ok ((storeStep store c).1, (mapStep m c).2)
    rw [← hout]
  · next hroom => rfl

/-- Whether a call has room depends on the entries of its id alone. -/
theorem hasRoom_congr {spare : SpareByte} {m m' : SessionMap} {c : TimedOp}
    (h : m' c.op.id = m c.op.id) : c.HasRoom spare m' ↔ c.HasRoom spare m := by
  obtain ⟨op, now⟩ := c
  cases op with
  | create id key value => exact Iff.rfl
  | add id key value => exact Iff.rfl
  | update id key data =>
      replace h : m' id = m id := h
      simp only [TimedOp.HasRoom, h]
  | get id key => exact Iff.rfl

/-! ## The store as a map -/

/-- Over the calls the store is the map: it gives the same results and ends standing for the same
map; and no call on one id changes a result at another. -/
def ActsAsMap (spare : SpareByte) (calls : List TimedOp) : Prop :=
  ∃ store, StepSystem.runExcept (storeStepIn spare) sessionInit calls
      = .ok (store, (StepSystem.runOuts mapStep (fun _ => []) calls).2) ∧
    StandsFor store (StepSystem.runOuts mapStep (fun _ => []) calls).1 ∧
    ∀ (c d : TimedOp) (store' : SessionStore) (r : SessionResult), IsTime c.now → IsTime d.now →
      d.op.id ≠ c.op.id → storeStepIn spare store c = .ok (store', r) →
      (storeStepIn spare store' d).map Prod.snd = (storeStepIn spare store d).map Prod.snd

/-- The calls come to their end only if their texts have room. -/
theorem roomFor_of_run {spare : SpareByte} {calls : List TimedOp}
    (hcalls : ∀ c ∈ calls, IsTime c.now) {r : SessionStore × List SessionResult}
    (hrun : StepSystem.runExcept (storeStepIn spare) sessionInit calls = .ok r) :
    RoomFor spare (fun _ => []) calls := by
  have hmeets := (storeStepIn_refines spare).run standsFor_sessionInit
    (List.forall₂_same.mpr fun c hc => ⟨rfl, hcalls c hc⟩)
  rw [hrun] at hmeets
  -- a run that comes to its end is one of the guarded map, and that stops where there is no room
  cases hmap : StepSystem.runOption (StepSystem.guarded (TimedOp.HasRoom spare) mapStep)
      (fun _ => []) calls with
  | none =>
      rw [hmap] at hmeets
      cases hmeets
  | some r => exact StepSystem.allowed_of_runOption_guarded hmap

/-- The store is the map exactly over the calls whose texts have room for their NULs. -/
theorem sessionStore_refines_iff (spare : SpareByte) (calls : List TimedOp)
    (hcalls : ∀ c ∈ calls, IsTime c.now) :
    ActsAsMap spare calls ↔ RoomFor spare (fun _ => []) calls := by
  constructor
  · rintro ⟨store, hstore, -⟩
    exact roomFor_of_run hcalls hstore
  · intro hroom
    have hrun := (storeStepIn_refines spare).run standsFor_sessionInit
      (List.forall₂_same.mpr fun c hc => ⟨rfl, hcalls c hc⟩)
    rw [StepSystem.runOption_guarded_of_allowed hroom] at hrun
    obtain ⟨store, hstore, hstands⟩ := hrun
    refine ⟨store, hstore, hstands, fun c d store' r hc hd hid hstep => ?_⟩
    rw [hstands.storeStepIn_eq spare c hc] at hstep
    split at hstep
    · obtain ⟨hafter, -⟩ := storeStep_simulates _ _ c hstands hc
      have hsame := mapStep_of_ne (StepSystem.runOuts mapStep (fun _ => []) calls).1 hid
      obtain rfl : (storeStep store c).1 = store' := congrArg Prod.fst (Except.ok.inj hstep)
      rw [hafter.storeStepIn_eq spare d hd, hstands.storeStepIn_eq spare d hd,
        if_congr (hasRoom_congr hsame) rfl rfl]
      split
      · show Except.ok _ = Except.ok _
        rw [(storeStep_simulates _ _ d hafter hd).2, (storeStep_simulates _ _ d hstands hd).2,
          mapStep_congr hsame]
      · rfl
    · cases hstep

/-- A session created, added to, updated and read. -/
theorem sessionStore_refines_small : ActsAsMap chunkSpare
    [⟨.create (bytes "abc") (bytes "user") (bytes "ann"), 100⟩,
      ⟨.add (bytes "abc") (bytes "cart") (bytes "3"), 150⟩,
      ⟨.update (bytes "abc") (bytes "user") (bytes "bob"), 200⟩,
      ⟨.get (bytes "abc") (bytes "user"), 500⟩] := by
  refine (sessionStore_refines_iff chunkSpare _ ?_).mpr (by decide)
  intro c hc
  fin_cases hc <;> exact ⟨by decide, by decide⟩

/-- A value of 24 bytes fills its block, and its NUL is written behind it. -/
theorem not_actsAsMap_longValue : ¬∀ calls : List TimedOp, (∀ c ∈ calls, IsTime c.now) →
    ActsAsMap chunkSpare calls := by
  intro h
  have htimes : ∀ c ∈ [(⟨.create (bytes "abcdefghij") (bytes "user")
      (bytes "wednesdays child is full"), 100⟩ : TimedOp)], IsTime c.now := by
    simp [IsTime]
  obtain ⟨store, hstore, -⟩ := h _ htimes
  exact absurd (roomFor_of_run htimes hstore) (by decide)
