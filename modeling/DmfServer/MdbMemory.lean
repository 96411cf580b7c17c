/-
# The memory of the shared cache

An `entry_t` is an `op`, a key of 64 bytes and a value of 512, one behind the other, and the table
is 512 entries in one piece of memory.  `mdb_insert` writes key and value with `strncpy`, which
puts no NUL behind a text that fills its array, and `mdb_find` reads them with `strcmp` and
`strcpy`, which go on to the next NUL, across the border of the array.

Keys and values are texts of any length here.  For those that fit their arrays the table is the
one of `Mdb` (`tableOf_insert`, `strcmpZero_tableOf`).  `cacheExact_iff`: an entry is exact when
the value fits, and the key fits, or what `strcmp` reads behind a key that does not is what the key
goes on with.
-/
import DmfServer.Mdb

open CMem

/-- `sizeof(entry_t)`, with the `int` in front of key and value. -/
def entrySize : ℕ := 4 + maxKeyLen + maxValueLen

/-- The shared memory, of `MAX_ENTRIES * sizeof(entry_t)` bytes. -/
abbrev MdbMemory := Block (maxEntries * entrySize)

/-- `shared_data[i].key`, as an offset. -/
def keyOffset (i : Fin maxEntries) : ℕ := i * entrySize + 4

/-- `shared_data[i].value`, as an offset. -/
def valueOffset (i : Fin maxEntries) : ℕ := keyOffset i + maxKeyLen

/-- The index `ihash` of a key of any length. -/
def mdbSlot (key : List UInt8) : Fin maxEntries :=
  if h : hashFunction key < maxEntries then ⟨hashFunction key, h⟩
  else ⟨hashFunction key % maxEntries, Nat.mod_lt _ (by decide)⟩

/-- `mdb_insert`. -/
def mdbStore (mem : MdbMemory) (key value : List UInt8) : Except Fault MdbMemory := do
  let mem ← mem.poke (keyOffset (mdbSlot key)) (Block.strncpy maxKeyLen key).bytes
  mem.poke (valueOffset (mdbSlot key)) (Block.strncpy maxValueLen value).bytes

/-- `mdb_find`, with the memory that `malloc` gives it for the copy. -/
def mdbFind (fresh : Block maxValueLen) (mem : MdbMemory) (key : List UInt8) :
    Except Fault (List UInt8) := do
  if ← strcmpZero key (mem.bytes.drop (keyOffset (mdbSlot key))) then
    let res ← fresh.strcpy 0 (← mem.readStr (valueOffset (mdbSlot key)))
    res.readStr 0
  else .ok []

/-- Inserts one after the other. -/
def storeAll (mem : MdbMemory) (inserts : List (List UInt8 × List UInt8)) :
    Except Fault MdbMemory :=
  inserts.foldlM (fun mem insert => mdbStore mem insert.1 insert.2) mem

/-! ## What `strncpy` leaves in an array -/

section
variable {n : ℕ} {s : List UInt8}

/-- A text that fills the array is cut off, and no NUL is behind it. -/
theorem strncpy_of_le (h : n ≤ s.length) : (Block.strncpy n s).bytes = s.take n := by
  show (s ++ List.replicate n 0).take n = s.take n
  rw [List.take_append_of_le_length h]

/-- A shorter text has a NUL behind it. -/
theorem exists_strncpy_of_lt (h : s.length < n) :
    ∃ rest, (Block.strncpy n s).bytes = s ++ 0 :: rest := by
  obtain ⟨k, hk⟩ : ∃ k, min (n - s.length) n = k + 1 :=
    Nat.exists_eq_add_one_of_ne_zero (by omega)
  refine ⟨List.replicate k 0, ?_⟩
  show (s ++ List.replicate n 0).take n = _
  rw [List.take_append, List.take_of_length_le (Nat.le_of_lt h), List.take_replicate, hk,
    List.replicate_succ]

end

/-! ## An entry -/

/-- The key and the value of an entry, with the border between them. -/
def entryBytes (mem : MdbMemory) (i : Fin maxEntries) : List UInt8 :=
  (mem.bytes.drop (keyOffset i)).take (maxKeyLen + maxValueLen)

/-- The bytes of two entries are apart. -/
theorem keyOffset_apart {i j : Fin maxEntries} (h : i ≠ j) :
    keyOffset i + entrySize ≤ keyOffset j ∨ keyOffset j + entrySize ≤ keyOffset i := by
  have hne : (i : ℕ) ≠ j := fun hij => h (Fin.ext hij)
  unfold keyOffset entrySize maxKeyLen maxValueLen
  omega

theorem keyOffset_le (i : Fin maxEntries) :
    keyOffset i + (maxKeyLen + maxValueLen) ≤ maxEntries * entrySize := by
  have hlt : (i : ℕ) < 512 := i.isLt
  unfold keyOffset maxEntries entrySize maxKeyLen maxValueLen
  omega

theorem length_entryBytes (mem : MdbMemory) (i : Fin maxEntries) :
    (entryBytes mem i).length = maxKeyLen + maxValueLen := by
  have hle := keyOffset_le i
  unfold entryBytes
  rw [List.length_take, List.length_drop, mem.length_bytes]
  omega

/-- The memory from the key of an entry on. -/
theorem drop_keyOffset (mem : MdbMemory) (i : Fin maxEntries) :
    ∃ behind, mem.bytes.drop (keyOffset i) = entryBytes mem i ++ behind :=
  ⟨_, (List.take_append_drop _ _).symm⟩

/-- An insert stays in the memory, writes its own entry, and leaves the others. -/
theorem exists_mdbStore (mem : MdbMemory) (key value : List UInt8) :
    ∃ mem', mdbStore mem key value = .ok mem' ∧
      entryBytes mem' (mdbSlot key)
        = (Block.strncpy maxKeyLen key).bytes ++ (Block.strncpy maxValueLen value).bytes ∧
      ∀ i ≠ mdbSlot key, entryBytes mem' i = entryBytes mem i := by
  have hle := keyOffset_le (mdbSlot key)
  have hlenK := (Block.strncpy maxKeyLen key).length_bytes
  have hlenV := (Block.strncpy maxValueLen value).length_bytes
  have hroomK : keyOffset (mdbSlot key) + (Block.strncpy maxKeyLen key).bytes.length
      ≤ maxEntries * entrySize := by omega
  have hroomV : valueOffset (mdbSlot key) + (Block.strncpy maxValueLen value).bytes.length
      ≤ maxEntries * entrySize := by
    unfold valueOffset
    omega
  obtain ⟨mem₁, hkey, -⟩ := Block.poke_eq_ok (b := mem) hroomK
  obtain ⟨mem₂, hvalue, -⟩ := Block.poke_eq_ok (b := mem₁) hroomV
  refine ⟨mem₂, ?_, ?_, fun i hi => ?_⟩
  · unfold mdbStore
    rw [hkey, ok_bind, hvalue]
  · -- its own entry, with the value behind the key
    have hbelow := Block.drop_poke_below hvalue (k := keyOffset (mdbSlot key))
      (by unfold valueOffset; omega)
    have hhere := Block.drop_poke hkey le_rfl (Nat.le_add_right _ _)
    rw [Nat.sub_self, List.drop_zero] at hhere
    unfold entryBytes
    rw [hbelow, hhere, show valueOffset (mdbSlot key) - keyOffset (mdbSlot key)
        = (Block.strncpy maxKeyLen key).bytes.length from by
          rw [hlenK]
          exact Nat.add_sub_cancel_left _ _,
      List.take_left, ← List.append_assoc, List.take_left']
    rw [List.length_append, hlenK, hlenV]
  · -- both writes are on one side of any other entry
    have hapart := keyOffset_apart hi
    unfold entrySize at hapart
    unfold entryBytes
    rw [Block.take_drop_poke hvalue, Block.take_drop_poke hkey]
    · rw [hlenK]
      omega
    · rw [hlenV]
      unfold valueOffset
      omega

/-- Inserts into other slots leave an entry as it is. -/
theorem exists_storeAll {later : List (List UInt8 × List UInt8)} {i : Fin maxEntries}
    (h : ∀ insert ∈ later, mdbSlot insert.1 ≠ i) (mem : MdbMemory) :
    ∃ mem', storeAll mem later = .ok mem' ∧ entryBytes mem' i = entryBytes mem i := by
  induction later generalizing mem with
  | nil => exact ⟨mem, rfl, rfl⟩
  | cons insert later ih =>
      obtain ⟨mem₁, hstore, -, hothers⟩ := exists_mdbStore mem insert.1 insert.2
      obtain ⟨mem₂, hlater, hentry⟩ :=
        ih (fun insert' hmem => h insert' (List.mem_cons_of_mem _ hmem)) mem₁
      refine ⟨mem₂, ?_, ?_⟩
      · unfold storeAll at hlater ⊢
        rw [List.foldlM_cons, hstore, ok_bind, hlater]
      · rw [hentry, hothers i (h insert List.mem_cons_self).symm]

/-! ## What `mdb_find` makes of an entry -/

/-- The bytes that an insert of the key and the value leaves in the slot. -/
def HoldsEntry (mem : MdbMemory) (i : Fin maxEntries) (key value : List UInt8) : Prop :=
  entryBytes mem i
    = (Block.strncpy maxKeyLen key).bytes ++ (Block.strncpy maxValueLen value).bytes

/-- The string that `strcmp` reads at a key: the key, or what fits of it with the value behind. -/
def keyString (key value : List UInt8) : List UInt8 :=
  if key.length < maxKeyLen then key else key.take maxKeyLen ++ value

/-- That is the key when the key fits, or goes on with the value. -/
theorem keyString_eq_iff {key value : List UInt8} :
    keyString key value = key ↔ key.length < maxKeyLen ∨ key.drop maxKeyLen = value := by
  unfold keyString
  split
  · next hshort => exact iff_of_true rfl (Or.inl hshort)
  · next hlong =>
    rw [or_iff_right hlong]
    constructor
    · intro h
      exact (List.append_cancel_left (h.trans (List.take_append_drop maxKeyLen key).symm)).symm
    · intro h
      rw [← h, List.take_append_drop]

section
variable {mem : MdbMemory} {i : Fin maxEntries} {key value : List UInt8}

theorem HoldsEntry.drop_value (h : HoldsEntry mem i key value) :
    ∃ rest, mem.bytes.drop (valueOffset i) = (Block.strncpy maxValueLen value).bytes ++ rest := by
  obtain ⟨behind, hkey⟩ := drop_keyOffset mem i
  rw [h, List.append_assoc] at hkey
  have hdrop := congrArg (List.drop maxKeyLen) hkey
  rw [List.drop_drop, List.drop_left' (Block.strncpy maxKeyLen key).length_bytes] at hdrop
  exact ⟨_, hdrop⟩

/-- A value that fits is found as it is. -/
theorem HoldsEntry.read_value (h : HoldsEntry mem i key value) (hvalue : IsText value)
    (hlen : value.length < maxValueLen) : mem.readStr (valueOffset i) = .ok value := by
  obtain ⟨rest, hdrop⟩ := h.drop_value
  obtain ⟨fill, hfill⟩ := exists_strncpy_of_lt hlen
  rw [hfill, List.append_assoc, List.cons_append] at hdrop
  exact Block.readStr_of_drop hvalue hdrop

/-- A value that fills its array has no end there. -/
theorem HoldsEntry.read_long (h : HoldsEntry mem i key value) (hvalue : IsText value)
    (hlen : maxValueLen ≤ value.length) {text : List UInt8}
    (hread : mem.readStr (valueOffset i) = .ok text) : maxValueLen ≤ text.length := by
  obtain ⟨rest, hdrop⟩ := h.drop_value
  rw [strncpy_of_le hlen] at hdrop
  obtain ⟨-, rfl⟩ := Block.readStr_eq_ok_iff.mp hread
  have hcut : IsText (value.take maxValueLen) := fun hmem => hvalue (List.mem_of_mem_take hmem)
  unfold Block.str
  rw [hdrop, cstr_append hcut, List.length_append, List.length_take, Nat.min_eq_left hlen]
  exact Nat.le_add_right _ _

/-- A key is compared with what `strcmp` reads at the key of the entry. -/
theorem HoldsEntry.compare (h : HoldsEntry mem i key value) (hkey : IsText key)
    (hvalue : IsText value) (hlen : value.length < maxValueLen) (other : List UInt8) :
    strcmpZero other (mem.bytes.drop (keyOffset i)) = .ok (other = keyString key value) := by
  obtain ⟨behind, hdrop⟩ := drop_keyOffset mem i
  rw [h] at hdrop
  obtain ⟨rest, hrest⟩ :
      ∃ rest, mem.bytes.drop (keyOffset i) = keyString key value ++ 0 :: rest := by
    unfold keyString
    split
    · next hshort =>
      obtain ⟨fill, hfill⟩ := exists_strncpy_of_lt hshort
      rw [hfill] at hdrop
      refine ⟨fill ++ ((Block.strncpy maxValueLen value).bytes ++ behind), ?_⟩
      rw [hdrop]
      simp only [List.append_assoc, List.cons_append]
    · next hlong =>
      obtain ⟨fill, hfill⟩ := exists_strncpy_of_lt hlen
      rw [hfill, strncpy_of_le (Nat.le_of_not_lt hlong)] at hdrop
      refine ⟨fill ++ behind, ?_⟩
      rw [hdrop]
      simp only [List.append_assoc, List.cons_append]
  have htext : IsText (keyString key value) := by
    unfold keyString
    split
    · exact hkey
    · exact isText_append.mpr ⟨fun hmem => hkey (List.mem_of_mem_take hmem), hvalue⟩
  rw [strcmpZero_eq (by rw [hrest]; simp), hrest, cstr_append_zero htext]

/-- `mdb_find` over an entry whose value fits. -/
theorem HoldsEntry.find (h : HoldsEntry mem i key value) (hkey : IsText key)
    (hvalue : IsText value) (hlen : value.length < maxValueLen) (fresh : Block maxValueLen)
    {other : List UInt8} (hother : mdbSlot other = i) :
    mdbFind fresh mem other = .ok (if other = keyString key value then value else []) := by
  subst hother
  unfold mdbFind
  rw [h.compare hkey hvalue hlen, ok_bind]
  by_cases heq : other = keyString key value
  · obtain ⟨res, hcopy, hread⟩ := Block.exists_strcpy (b := fresh) hvalue hlen
    rw [if_pos (decide_eq_true heq), if_pos heq, h.read_value hvalue hlen, ok_bind, hcopy, ok_bind,
      hread]
  · rw [if_neg (by simpa using heq), if_neg heq]

/-- Over an entry whose value does not fit, `mdb_find` returns nothing but the empty string. -/
theorem HoldsEntry.find_long (h : HoldsEntry mem i key value) (hvalue : IsText value)
    (hlen : maxValueLen ≤ value.length) {fresh : Block maxValueLen} {other res : List UInt8}
    (hother : mdbSlot other = i) (hfind : mdbFind fresh mem other = .ok res) : res = [] := by
  subst hother
  obtain ⟨flag, -, hrest⟩ := exists_of_bind hfind
  cases flag with
  | false => exact (Except.ok.inj hrest).symm
  | true =>
      rw [if_pos rfl] at hrest
      obtain ⟨text, hread, hrest⟩ := exists_of_bind hrest
      obtain ⟨copy, hcopy, -⟩ := exists_of_bind hrest
      have hle := Block.le_of_strcpy hcopy
      have hge := h.read_long hvalue hlen hread
      omega

end

/-! ## An exact cache -/

/-- The value, or a prefix of it that fills the array. -/
def Answers (value res : List UInt8) : Prop :=
  res <+: value ∧ (res = value ∨ maxValueLen ≤ res.length + 1)

/-- The empty string is no prefix that fills the array. -/
theorem Answers.eq_nil {value : List UInt8} (h : Answers value []) : value = [] := by
  obtain hnil | hlong := h.2
  · exact hnil.symm
  · exact absurd hlong (by decide)

/-- An entry that answers with its value has one that fits. -/
theorem HoldsEntry.length_lt_of_answers {mem : MdbMemory} {i : Fin maxEntries}
    {key value other res : List UInt8} {fresh : Block maxValueLen} (h : HoldsEntry mem i key value)
    (hvalue : IsText value) (hfind : mdbFind fresh mem other = .ok res)
    (hanswers : Answers value res) (hother : mdbSlot other = i) : value.length < maxValueLen := by
  by_contra hlong
  obtain rfl := h.find_long hvalue (Nat.le_of_not_lt hlong) hother hfind
  obtain rfl := hanswers.eq_nil
  exact hlong (by decide)

/-- The cache after an insert and later ones: the key is found with its value, and no other key of
the slot is found. -/
def CacheExact (fresh : Block maxValueLen) (mem : MdbMemory) (key value : List UInt8)
    (later : List (List UInt8 × List UInt8)) : Prop :=
  ∃ mem', storeAll mem ((key, value) :: later) = .ok mem' ∧
    (∃ res, mdbFind fresh mem' key = .ok res ∧ Answers value res) ∧
    ∀ other, IsText other → other ≠ key → mdbSlot other = mdbSlot key →
      mdbFind fresh mem' other = .ok []

section
variable {key value : List UInt8} {later : List (List UInt8 × List UInt8)}

/-- The entry of the key after inserts into other slots. -/
theorem exists_holdsEntry (hlater : ∀ insert ∈ later, mdbSlot insert.1 ≠ mdbSlot key)
    (mem : MdbMemory) (value : List UInt8) :
    ∃ mem', storeAll mem ((key, value) :: later) = .ok mem' ∧
      HoldsEntry mem' (mdbSlot key) key value := by
  obtain ⟨mem₁, hstore, hentry, -⟩ := exists_mdbStore mem key value
  obtain ⟨mem₂, hrun, hkeep⟩ := exists_storeAll hlater mem₁
  refine ⟨mem₂, ?_, hkeep.trans hentry⟩
  unfold storeAll at hrun ⊢
  rw [List.foldlM_cons, hstore, ok_bind, hrun]

/-- The cache is exact for a key and a value exactly when the value fits its array with a NUL, and
the key does, or there is no value, or the value is what the key goes on with behind its array. -/
theorem cacheExact_iff (hkey : IsText key) (hvalue : IsText value)
    (hlater : ∀ insert ∈ later, mdbSlot insert.1 ≠ mdbSlot key) (fresh : Block maxValueLen)
    (mem : MdbMemory) :
    CacheExact fresh mem key value later ↔ value.length < maxValueLen ∧
      (key.length < maxKeyLen ∨ value = [] ∨ key.drop maxKeyLen = value) := by
  obtain ⟨mem', hrun, hentry⟩ := exists_holdsEntry hlater mem value
  constructor
  · rintro ⟨mem'', hrun', ⟨res, hfind, hanswers⟩, -⟩
    obtain rfl := Except.ok.inj (hrun.symm.trans hrun')
    have hlen := hentry.length_lt_of_answers hvalue hfind hanswers rfl
    rw [hentry.find hkey hvalue hlen fresh rfl] at hfind
    refine ⟨hlen, ?_⟩
    split at hfind
    · next hmatch => exact (keyString_eq_iff.mp hmatch.symm).imp_right Or.inr
    · obtain rfl := Except.ok.inj hfind
      exact Or.inr (Or.inl hanswers.eq_nil)
  · rintro ⟨hlen, hcases⟩
    -- whatever key is found has the value, and only the key itself is
    have hstring : keyString key value = key ∨ value = [] := by
      obtain hshort | hnil | hdrop := hcases
      · exact Or.inl (keyString_eq_iff.mpr (Or.inl hshort))
      · exact Or.inr hnil
      · exact Or.inl (keyString_eq_iff.mpr (Or.inr hdrop))
    refine ⟨mem', hrun, ⟨value, ?_, List.prefix_rfl, Or.inl rfl⟩, fun other _ hne hslot => ?_⟩
    · rw [hentry.find hkey hvalue hlen fresh rfl]
      obtain hsame | hnil := hstring
      · rw [hsame, if_pos rfl]
      · rw [hnil, ite_self]
    · rw [hentry.find hkey hvalue hlen fresh hslot]
      obtain hsame | hnil := hstring
      · rw [hsame, if_neg hne]
      · rw [hnil, ite_self]

end

/-- A key of 64 letters: with the value behind it, it is another key. -/
theorem not_cacheExact_long : ¬∃ mem : MdbMemory,
    CacheExact (Block.zero maxValueLen) mem (List.replicate 64 97) [49] [] := by
  rintro ⟨mem, mem'', hrun', ⟨res, hfind, hanswers⟩, -⟩
  have hkey : IsText (List.replicate 64 97) := fun hmem =>
    absurd (List.eq_of_mem_replicate hmem) (by decide)
  have hvalue : IsText [(49 : UInt8)] := by decide
  have hlater : ∀ insert ∈ ([] : List (List UInt8 × List UInt8)),
      mdbSlot insert.1 ≠ mdbSlot (List.replicate 64 97) := List.forall_mem_nil _
  obtain ⟨mem', hrun, hentry⟩ := exists_holdsEntry hlater mem [49]
  obtain rfl := Except.ok.inj (hrun.symm.trans hrun')
  have hstring : List.replicate 64 97 ≠ keyString (List.replicate 64 97) [(49 : UInt8)] := by
    intro heq
    have hlen := congrArg List.length heq
    unfold keyString at hlen
    simp [maxKeyLen] at hlen
  rw [hentry.find hkey hvalue (by decide) _ rfl, if_neg hstring] at hfind
  obtain rfl := Except.ok.inj hfind
  exact absurd hanswers.eq_nil (List.cons_ne_nil _ _)

theorem cacheExact_iff_am : CacheExact (Block.zero maxValueLen) (Block.zero _) (bytes "am")
    (bytes "1") [(bytes "b", bytes "2")] ↔ (bytes "1").length < maxValueLen ∧
      ((bytes "am").length < maxKeyLen ∨ bytes "1" = [] ∨
        (bytes "am").drop maxKeyLen = bytes "1") := by
  have hslot : mdbSlot (bytes "b") ≠ mdbSlot (bytes "am") := by decide
  exact cacheExact_iff (by decide) (by decide) (by simpa using hslot) _ _

/-! ## The table of the entries -/

/-- The entries of the memory, with the border between key and value kept. -/
def tableOf (mem : MdbMemory) : MdbTable := fun i =>
  { key := ⟨(entryBytes mem i).take maxKeyLen, by
      rw [List.length_take, length_entryBytes]
      rfl⟩
    value := ⟨(entryBytes mem i).drop maxKeyLen, by
      rw [List.length_drop, length_entryBytes]
      rfl⟩ }

/-- `mdb_insert` of a key and a value that fit is the insert into the table. -/
theorem tableOf_mdbStore (mem : MdbMemory) (key : MdbKey) (value : MdbValue) :
    ∃ mem', mdbStore mem key.bytes value.bytes = .ok mem' ∧
      tableOf mem' = mdbInsert (tableOf mem) key value := by
  obtain ⟨mem', hstore, hentry, hothers⟩ := exists_mdbStore mem key.bytes value.bytes
  refine ⟨mem', hstore, ?_⟩
  funext i
  unfold mdbInsert
  by_cases hi : i = mdbHash key
  · subst hi
    rw [Function.update_self]
    unfold tableOf
    congr 1
    · apply Block.ext
      show (entryBytes mem' (mdbSlot key.bytes)).take maxKeyLen = _
      rw [hentry, List.take_left' (Block.length_bytes _)]
    · apply Block.ext
      show (entryBytes mem' (mdbSlot key.bytes)).drop maxKeyLen = _
      rw [hentry, List.drop_left' (Block.length_bytes _)]
  · rw [Function.update_of_ne hi]
    unfold tableOf
    simp only [hothers i hi]

/-- `strcmp` with a key that fits is the comparison in the table. -/
theorem strcmpZero_tableOf (mem : MdbMemory) (key : MdbKey) :
    strcmpZero key.bytes (mem.bytes.drop (keyOffset (mdbSlot key.bytes)))
      = .ok (mdbFlag (tableOf mem) key) := by
  obtain ⟨behind, hdrop⟩ := drop_keyOffset mem (mdbSlot key.bytes)
  -- the array of the key, and what is behind it
  obtain ⟨array, harray⟩ : ∃ array, array = (tableOf mem (mdbSlot key.bytes)).key := ⟨_, rfl⟩
  have hsplit : mem.bytes.drop (keyOffset (mdbSlot key.bytes))
      = array.bytes ++ ((entryBytes mem (mdbSlot key.bytes)).drop maxKeyLen ++ behind) := by
    rw [hdrop, harray, ← List.append_assoc]
    unfold tableOf
    rw [List.take_append_drop]
  have hflag : mdbFlag (tableOf mem) key = decide (cstr array.bytes = key.bytes) := by
    rw [harray]
    rfl
  have hlen : key.bytes.length < array.bytes.length := by
    rw [array.length_bytes]
    exact key.length_lt
  rw [hsplit, hflag]
  by_cases hend : (0 : UInt8) ∈ array.bytes
  · obtain ⟨fill, hfill⟩ := exists_eq_cstr_append hend
    have hstr : ∀ rest, cstr (array.bytes ++ rest) = cstr array.bytes := by
      intro rest
      rw [hfill, List.append_assoc, List.cons_append, cstr_append_zero (isText_cstr _),
        cstr_append_zero (isText_cstr _)]
    rw [strcmpZero_eq (List.mem_append_left _ hend), hstr]
    simp only [eq_comm]
  · -- no NUL in the array: the key ends before the array does
    have hne : ∀ rest, key.bytes ≠ array.bytes ++ rest := by
      intro rest heq
      have := congrArg List.length heq
      rw [List.length_append] at this
      omega
    have hcstr : cstr array.bytes = array.bytes := IsText.cstr_eq hend
    have hno : ¬cstr array.bytes = key.bytes := by
      rw [hcstr]
      intro heq
      exact hne [] (by rw [heq, List.append_nil])
    rw [decide_eq_false hno]
    by_cases hlater : (0 : UInt8) ∈
        array.bytes ++ ((entryBytes mem (mdbSlot key.bytes)).drop maxKeyLen ++ behind)
    · rw [strcmpZero_eq hlater, cstr_append hend, decide_eq_false (hne _)]
    · obtain ⟨⟨rest, hpre⟩, -⟩ | ⟨-, hrun⟩ := strcmpZero_cases hlater key.bytes
      · rw [List.append_assoc] at hpre
        exact absurd hpre.symm (hne _)
      · exact hrun
