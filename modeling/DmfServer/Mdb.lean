/-
# The shared cache

`mdb_operate.c`: a table of entries in memory that any number of processes share, with a
mutex.  `mdb_insert` writes key and value into the slot of the key while it has the mutex.
`mdb_find` compares the key in the slot while it has the mutex, and copies the value when
it has given it back: here the copy reads one byte in a step.

So `mdb_find` returns a value of its key in every run in which nobody writes another key,
or another value, into the slot while it copies (`find_returns_stored`), and the value of
another key otherwise (`find_returns_other`).
-/
import DmfServer.Block
import DmfServer.Hashmap
import DmfServer.StepSystem

open CMem StepSystem

/-- `MAX_KEY_LEN`. -/
def maxKeyLen : ℕ := 64

/-- `MAX_VALUE_LEN`. -/
def maxValueLen : ℕ := 512

/-- `MAX_ENTRIES`. -/
def maxEntries : ℕ := 512

/-- `entry_t` in the shared memory, where nobody uses `op`. -/
structure MdbEntry where
  key : Block maxKeyLen
  value : Block maxValueLen

/-- The shared memory. -/
abbrev MdbTable := Fin maxEntries → MdbEntry

/-- A key, and a value, that fit their arrays. -/
abbrev MdbKey := ShortText maxKeyLen
@[inherit_doc MdbKey] abbrev MdbValue := ShortText maxValueLen

/-- The memory as the system hands it out. -/
def mdbZero : MdbTable := fun _ => { key := .zero _, value := .zero _ }

/-- The index `ihash` of a key. -/
def mdbHash (key : MdbKey) : Fin maxEntries :=
  if h : hashFunction key.bytes < maxEntries then ⟨hashFunction key.bytes, h⟩
  else ⟨hashFunction key.bytes % maxEntries, Nat.mod_lt _ (by decide)⟩

/-- What `mdb_insert` does while it has the mutex. -/
def mdbInsert (table : MdbTable) (key : MdbKey) (value : MdbValue) : MdbTable :=
  Function.update table (mdbHash key)
    { key := .strncpy _ key.bytes, value := .strncpy _ value.bytes }

/-- The `flag` that `mdb_find` sets while it has the mutex. -/
def mdbFlag (table : MdbTable) (key : MdbKey) : Bool :=
  (table (mdbHash key)).key.str 0 = key.bytes

/-! ## The processes -/

/-- An `mdb_find` that has found its key, and what it has copied of the value to `res`. -/
structure MdbCopy where
  key : MdbKey
  res : List UInt8

/-- The shared memory, and the finds that have given the mutex back and copy. -/
structure MdbState where
  table : MdbTable
  copying : List MdbCopy

/-- What happens in a step. -/
inductive MdbEvent : Type where
  | inserted (key : MdbKey) (value : MdbValue)
  /-- `mdb_find` has found the key. -/
  | found (key : MdbKey)
  /-- It copies a byte. -/
  | copied
  /-- It returns, `""` if it has not found the key. -/
  | returned (key : MdbKey) (res : List UInt8)

/-- A step of some process. -/
inductive MdbStep : MdbState → MdbEvent → MdbState → Prop where
  | insert {s : MdbState} {key : MdbKey} {value : MdbValue} :
      MdbStep s (.inserted key value) { s with table := mdbInsert s.table key value }
  | find {s : MdbState} {key : MdbKey} (flag : mdbFlag s.table key = true) :
      MdbStep s (.found key) { s with copying := { key := key, res := [] } :: s.copying }
  | miss {s : MdbState} {key : MdbKey} (flag : mdbFlag s.table key = false) :
      MdbStep s (.returned key []) s
  /-- `strcpy` comes to a byte of the value. -/
  | copy {s : MdbState} {a b : List MdbCopy} {find : MdbCopy} {c : UInt8}
      (running : s.copying = a ++ find :: b)
      (byte : arrayAt (s.table (mdbHash find.key)).value.bytes find.res.length = .ok c)
      (more : c ≠ 0) :
      MdbStep s .copied { s with copying := a ++ { find with res := find.res ++ [c] } :: b }
  /-- `strcpy` comes to a NUL. -/
  | finish {s : MdbState} {a b : List MdbCopy} {find : MdbCopy}
      (running : s.copying = a ++ find :: b)
      (byte : arrayAt (s.table (mdbHash find.key)).value.bytes find.res.length = .ok 0) :
      MdbStep s (.returned find.key find.res) { s with copying := a ++ b }

/-- Nobody has used the cache yet. -/
def mdbStart : MdbState := { table := mdbZero, copying := [] }

/-- Whoever writes into the slot of a find that copies writes the key of the find, with a
value that begins with what has been copied. -/
def LeavesCopies (s : MdbState) (e : MdbEvent) : Prop :=
  ∀ key value, e = .inserted key value → ∀ find ∈ s.copying, mdbHash find.key = mdbHash key →
    find.key = key ∧ find.res <+: value.bytes

/-- What the slots hold was inserted, and a find that copies has its key and the beginning of
its value in its slot. -/
structure MdbAccounts (s : MdbState) (es : List MdbEvent) : Prop where
  slots : ∀ i, (s.table i).value.str 0 = [] ∨ ∃ key value, .inserted key value ∈ es ∧
    (s.table i).key.str 0 = key.bytes ∧ (s.table i).value.str 0 = value.bytes
  copies : ∀ find ∈ s.copying, (s.table (mdbHash find.key)).key.str 0 = find.key.bytes ∧
    find.res <+: (s.table (mdbHash find.key)).value.str 0

/-- Every non-empty answer is a value that was inserted under the key. -/
def MdbSound (es : List MdbEvent) : Prop :=
  ∀ key res, .returned key res ∈ es → res ≠ [] →
    ∃ value : MdbValue, value.bytes = res ∧ .inserted key value ∈ es

/-- The slots as they were, in a longer run. -/
theorem MdbAccounts.slots_append {s : MdbState} {es : List MdbEvent} (h : MdbAccounts s es)
    (e : MdbEvent) (i : Fin maxEntries) : (s.table i).value.str 0 = [] ∨ ∃ key value,
      .inserted key value ∈ es ++ [e] ∧ (s.table i).key.str 0 = key.bytes ∧
        (s.table i).value.str 0 = value.bytes := by
  refine (h.slots i).imp_right ?_
  rintro ⟨key, value, hmem, hslot⟩
  exact ⟨key, value, List.mem_append_left _ hmem, hslot⟩

/-- What a step that leaves the copies alone keeps, and returns. -/
theorem MdbStep.accounts {s t : MdbState} {e : MdbEvent} {es : List MdbEvent}
    (hstep : MdbStep s e t) (hleaves : LeavesCopies s e) (h : MdbAccounts s es) :
    MdbAccounts t (es ++ [e]) ∧ ∀ key res, e = .returned key res → res ≠ [] →
      ∃ value : MdbValue, value.bytes = res ∧ .inserted key value ∈ es := by
  cases hstep with
  | @insert key value =>
      refine ⟨⟨fun i => ?_, fun find hfind => ?_⟩, ?_⟩
      · by_cases hi : i = mdbHash key
        · subst hi
          refine Or.inr ⟨key, value, by simp, ?_⟩
          dsimp only
          unfold mdbInsert
          rw [Function.update_self]
          exact ⟨key.str_strncpy, value.str_strncpy⟩
        · dsimp only
          unfold mdbInsert
          rw [Function.update_of_ne hi]
          exact h.slots_append _ i
      · dsimp only
        unfold mdbInsert
        -- a find of the slot has the same key, and has copied the beginning of the new value
        by_cases hslot : mdbHash find.key = mdbHash key
        · obtain ⟨hkey, hres⟩ := hleaves key value rfl find hfind hslot
          rw [hslot, Function.update_self]
          dsimp only
          rw [key.str_strncpy, value.str_strncpy, hkey]
          exact ⟨rfl, hres⟩
        · rw [Function.update_of_ne hslot]
          exact h.copies find hfind
      · rintro _ _ ⟨⟩
  | @find key hflag =>
      refine ⟨⟨h.slots_append _, fun find hfind => ?_⟩, ?_⟩
      · rcases List.mem_cons.mp hfind with rfl | hfind
        · exact ⟨of_decide_eq_true hflag, List.nil_prefix⟩
        · exact h.copies find hfind
      · rintro _ _ ⟨⟩
  | miss hflag =>
      refine ⟨⟨h.slots_append _, h.copies⟩, ?_⟩
      rintro _ _ ⟨⟩ hne
      exact absurd rfl hne
  | @copy a b find c hrunning hbyte hmore =>
      refine ⟨⟨h.slots_append _, fun other hother => ?_⟩, ?_⟩
      · have hcopies := h.copies
        rw [hrunning] at hcopies
        rcases List.mem_append.mp hother with hmem | hmem
        · exact hcopies other (List.mem_append_left _ hmem)
        · rcases List.mem_cons.mp hmem with rfl | hmem
          · -- one byte more of the value
            obtain ⟨hkey, hres⟩ := hcopies find (by simp)
            have hread := cstr_of_arrayAt hres hbyte
            rw [if_neg hmore] at hread
            exact ⟨hkey, hread⟩
          · exact hcopies other (List.mem_append_right _ (List.mem_cons_of_mem _ hmem))
      · rintro _ _ ⟨⟩
  | @finish a b find hrunning hbyte =>
      have hcopies := h.copies
      rw [hrunning] at hcopies
      refine ⟨⟨h.slots_append _, fun other hother => ?_⟩, ?_⟩
      · rcases List.mem_append.mp hother with hmem | hmem
        · exact hcopies other (List.mem_append_left _ hmem)
        · exact hcopies other (List.mem_append_right _ (List.mem_cons_of_mem _ hmem))
      · -- the slot holds the key of the find, and all of its value has been copied
        rintro _ _ ⟨⟩ hne
        obtain ⟨hkey, hres⟩ := hcopies find (by simp)
        have hread := cstr_of_arrayAt hres hbyte
        rw [if_pos rfl] at hread
        have hvalue : (s.table (mdbHash find.key)).value.str 0 = find.res := hread
        obtain hnil | ⟨key, value, hmem, hslot, hstored⟩ := h.slots (mdbHash find.key)
        · rw [hvalue] at hnil
          exact absurd hnil hne
        · obtain rfl : find.key = key := ShortText.eq_of_bytes (hkey.symm.trans hslot)
          exact ⟨value, hstored.symm.trans hvalue, hmem⟩

/-- In every run in which nobody changes a value that a find copies, every non-empty answer
is a value that was inserted under the key. -/
theorem find_returns_stored {es : List MdbEvent} {s : MdbState}
    (h : Steps (fun s e t => MdbStep s e t ∧ LeavesCopies s e) mdbStart es s) : MdbSound es := by
  have hall : MdbAccounts s es ∧ MdbSound es := by
    induction h with
    | nil =>
        refine ⟨⟨fun i => Or.inl (Block.str_zero 0), by simp [mdbStart]⟩, ?_⟩
        intro key res hmem
        cases hmem
    | snoc _ hstep ih =>
        obtain ⟨hacc, hsound⟩ := ih
        obtain ⟨hnext, hevent⟩ := hstep.1.accounts hstep.2 hacc
        refine ⟨hnext, fun key res hmem hne => ?_⟩
        rcases List.mem_append.mp hmem with hmem | hmem
        · obtain ⟨value, hvalue, hin⟩ := hsound key res hmem hne
          exact ⟨value, hvalue, List.mem_append_left _ hin⟩
        · obtain ⟨value, hvalue, hin⟩ := hevent key res (List.mem_singleton.mp hmem).symm hne
          exact ⟨value, hvalue, List.mem_append_left _ hin⟩
  exact hall.2

/-! ## Two keys of one slot -/

/-- Two keys with the same hash. -/
def keyAm : MdbKey := ⟨bytes "am", by decide, by decide⟩
@[inherit_doc keyAm] def keyEa : MdbKey := ⟨bytes "ea", by decide, by decide⟩

/-- Two values. -/
def valueOne : MdbValue := ⟨bytes "1", by decide, by decide⟩
@[inherit_doc valueOne] def valueTwo : MdbValue := ⟨bytes "2", by decide, by decide⟩

/-- The slot of a key behind an insert of it. -/
theorem mdbInsert_self (table : MdbTable) (key : MdbKey) (value : MdbValue) :
    mdbInsert table key value (mdbHash key) =
      { key := .strncpy _ key.bytes, value := .strncpy _ value.bytes } :=
  Function.update_self _ _ _

/-- A find that has found its key over a value of one byte returns it. -/
theorem steps_copy {table : MdbTable} (key : MdbKey) {value : MdbValue} {c : UInt8}
    (hvalue : (table (mdbHash key)).value = .strncpy _ value.bytes) (hc : c ≠ 0)
    (hfirst : arrayAt (Block.strncpy maxValueLen value.bytes).bytes 0 = .ok c)
    (hend : arrayAt (Block.strncpy maxValueLen value.bytes).bytes 1 = .ok 0) :
    Steps (fun s e t => MdbStep s e t ∧ LeavesCopies s e) ⟨table, [⟨key, []⟩]⟩
      [.copied, .returned key [c]] ⟨table, []⟩ := by
  rw [← hvalue] at hfirst hend
  have hcopy : MdbStep ⟨table, [⟨key, []⟩]⟩ .copied ⟨table, [⟨key, [c]⟩]⟩ :=
    @MdbStep.copy ⟨table, [⟨key, []⟩]⟩ [] [] ⟨key, []⟩ c rfl hfirst hc
  have hfinish : MdbStep ⟨table, [⟨key, [c]⟩]⟩ (.returned key [c]) ⟨table, []⟩ :=
    @MdbStep.finish ⟨table, [⟨key, [c]⟩]⟩ [] [] ⟨key, [c]⟩ rfl hend
  refine (Steps.nil.snoc ⟨hcopy, ?_⟩).snoc ⟨hfinish, ?_⟩
  · rintro _ _ ⟨⟩
  · rintro _ _ ⟨⟩

/-- A key that was inserted is found. -/
theorem steps_found (key : MdbKey) (value : MdbValue) :
    Steps (fun s e t => MdbStep s e t ∧ LeavesCopies s e) mdbStart
      [.inserted key value, .found key] ⟨mdbInsert mdbZero key value, [⟨key, []⟩]⟩ := by
  have hflag : mdbFlag (mdbInsert mdbZero key value) key = true := by
    unfold mdbFlag
    rw [mdbInsert_self]
    exact decide_eq_true key.str_strncpy
  -- nobody copies yet
  refine (Steps.nil.snoc ⟨.insert, ?_⟩).snoc ⟨.find hflag, ?_⟩
  · intro _ _ _ find hfind
    cases hfind
  · intro _ _ _ find hfind
    cases hfind

/-- The value at `keyAm` is found. -/
theorem find_returns_stored_once : MdbSound
    [.inserted keyAm valueOne, .found keyAm, .copied, .returned keyAm [49]] := by
  have hvalue : (mdbInsert mdbZero keyAm valueOne (mdbHash keyAm)).value =
      .strncpy _ valueOne.bytes := by
    rw [mdbInsert_self]
  have hcopy := steps_copy keyAm (c := 49) hvalue (by decide) rfl rfl
  exact find_returns_stored ((steps_found keyAm valueOne).append hcopy)

/-- The other key is inserted before the value is copied. -/
theorem find_returns_other : ¬ ∀ (es : List MdbEvent) (s : MdbState),
    Steps MdbStep mdbStart es s → MdbSound es := by
  intro hall
  have hslot : mdbHash keyAm = mdbHash keyEa := by decide
  have hvalue : (mdbInsert (mdbInsert mdbZero keyAm valueOne) keyEa valueTwo
      (mdbHash keyAm)).value = .strncpy _ valueTwo.bytes := by
    rw [hslot, mdbInsert_self]
  have hfound := (steps_found keyAm valueOne).mono fun _ _ _ h => h.1
  have hcopy := (steps_copy keyAm (c := 50) hvalue (by decide) rfl rfl).mono fun _ _ _ h => h.1
  have hrun := (hfound.snoc (@MdbStep.insert _ keyEa valueTwo)).append hcopy
  obtain ⟨value, hvalue, hmem⟩ := hall _ _ hrun keyAm [50] (by simp) (by simp)
  simp only [List.cons_append, List.nil_append, List.mem_cons, List.not_mem_nil, or_false,
    MdbEvent.inserted.injEq, reduceCtorEq, false_or] at hmem
  rcases hmem with ⟨-, rfl⟩ | ⟨hkey, -⟩
  · exact absurd hvalue (by decide)
  · exact absurd hkey (by decide)
