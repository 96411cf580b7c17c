/-
# The cache behind its views

`testviews/mdb.c`: `/mdb/insert?name=...` puts a value into the shared memory, always under the
key `name`, and `/mdb/find?name=...` looks a key up.  A visit goes from the text of the request
to the body that the client can read of the answer; the memory stays.

What is meant is one text, the last one that was inserted.  `mdbViews_refine`: that is what the
visitors see, in any order of visits whose names and values have room where the parser copies them,
up to the first `find` of a key with 40 bytes or more, which runs over the array `data`.  What is
not there is answered with an empty body, and that no client can read: its `Content-Length` has no
digit.
-/
import DmfServer.CacheServer
import DmfServer.WebSite

open CMem StepSystem Ascii

/-! ## The views -/

/-- The views of `testviews/mdb.c`. -/
inductive MdbView : Type where
  | mdbfind : MdbView
  | mdbinsert : MdbView
  deriving DecidableEq

/-- `hashmap_get(req->query, "name")`, as the argument of `strcpy`. -/
def nameArg (req : Request) : Except Fault (List UInt8) :=
  match hashmapGet req.query (bytes "name") with
  | some name => .ok name
  | none => .error .null

/-- The view, with the shared memory behind it and what it has done; `fresh` is what `mdb_find` gets
from `malloc`. -/
def MdbView.run (fresh : Block maxValueLen) (w : World) (mem : MdbMemory) (req : Request) :
    MdbView → Except Fault (MdbMemory × List Act)
  | .mdbfind => do
      let name ← nameArg req
      let data ← (Block.zero 40).strcpy 0 name
      let strFromMdb ← mdbFind fresh mem (data.str 0)
      let acts ← resRow w strFromMdb []
      .ok (mem, acts)
  | .mdbinsert => do
      let ckey ← (Block.zero 64).strcpy 0 (bytes "name")
      let name ← nameArg req
      let cdata ← (Block.zero 512).strcpy 0 name
      let mem ← mdbStore mem (ckey.str 0) (cdata.str 0)
      let acts ← resRow w (bytes "insert ok!") []
      .ok (mem, acts)

/-- What `RouterAdd(mdb)` registers. -/
def mdbApp : App MdbView where
  cf := [.mdbfind, .mdbinsert]
  keys := [bytes "/find", bytes "/insert"]
  name := bytes "mdb"
  same_length := rfl
  name_text := by decide
  keys_text := by decide
  route_length := by decide

/-! ## Visits -/

/-- A request that comes, and what the world has for its answer. -/
structure MdbVisit where
  request : RequestText
  tail : List UInt8
  junk : ℕ → PartJunk
  mem : RequestMem
  world : World
  fresh : Block maxValueLen

/-- A visit: the shared memory behind it, and the body if the client can read the answer. -/
def mdbVisit (g : CtlFunMap MdbView) (files : FileList) (pid : ℤ) (spare : SpareByte)
    (mem : MdbMemory) (v : MdbVisit) : Except Fault (MdbMemory × Option (List UInt8)) := do
  let request ← epollReceive v.junk v.world.now pid spare (reqParseInit v.mem)
    (v.request.render ++ v.tail)
  let t ← routerHandle g files request
  let (mem, acts) ← match t with
    | .view view => view.run v.fresh v.world mem request
    | .static f => (resStatic v.world f []).map fun acts => (mem, acts)
    | .notfound => (resNotfound v.world []).map fun acts => (mem, acts)
  .ok (mem, (Http.receive (sentBytes acts).flatten).map Prod.snd)

/-! ## What is meant -/

/-- What a visitor wants. -/
inductive MdbAsk : Type where
  | find (key : List UInt8) : MdbAsk
  | insert (value : List UInt8) : MdbAsk

/-- A visit that wants it: its names and values have room for their NULs, and there is a NUL in the
buffer. -/
inductive Asks (spare : SpareByte) : MdbVisit → MdbAsk → Prop where
  | find {v : MdbVisit} {key : List UInt8} (path : v.request.path = bytes "/mdb/find")
      (name : lastValue v.request.query (bytes "name") = some key)
      (room : v.request.HasRoom spare) (zero : 0 ∈ v.request.render ++ v.tail) :
      Asks spare v (.find key)
  | insert {v : MdbVisit} {value : List UInt8} (path : v.request.path = bytes "/mdb/insert")
      (name : lastValue v.request.query (bytes "name") = some value)
      (room : v.request.HasRoom spare) (zero : 0 ∈ v.request.render ++ v.tail) :
      Asks spare v (.insert value)

/-- The visit, as it is meant: on the text that was inserted last. -/
def MdbAsk.step (text : List UInt8) : MdbAsk → Option (List UInt8 × Option (List UInt8))
  | .find key =>
      if 40 ≤ key.length then none
      else some (text, if key = bytes "name" ∧ text ≠ [] then some text else none)
  | .insert value => some (value, some (bytes "insert ok!"))

/-! ## The shared memory -/

/-- The key of all inserts. -/
def keyName : MdbKey := ⟨bytes "name", by decide, by decide⟩

/-- What `mdb_find` copies of a memory with these entries. -/
def foundText (slots : Fin maxEntries → MdbKey × MdbValue) (key : MdbKey) : List UInt8 :=
  if (slots (mdbSlot key.bytes)).1 = key then (slots (mdbSlot key.bytes)).2.bytes else []

/-- The memory has the text under the key `name`, and nothing under any other. -/
structure HoldsText (mem : MdbMemory) (text : List UInt8) : Prop where
  isText : IsText text
  length_lt : text.length < maxValueLen
  slots : ∃ slots, HoldsSlots mem slots ∧
    ∀ key, foundText slots key = if key = keyName then text else []

theorem holdsText_zero : HoldsText (Block.zero _) [] where
  isText := List.not_mem_nil
  length_lt := by decide
  slots := by
    refine ⟨_, @holdsSlots_zero Unit, fun key => ?_⟩
    rw [foundText, ite_self]
    exact ite_self _

section
variable {mem : MdbMemory} {text : List UInt8}

/-- `mdb_find` of the key `name` finds the text, and of any other key nothing. -/
theorem HoldsText.find (h : HoldsText mem text) (fresh : Block maxValueLen) (key : MdbKey) :
    mdbFind fresh mem key.bytes = .ok (if key = keyName then text else []) := by
  obtain ⟨slots, hslots, hfound⟩ := h.slots
  rw [mdbFind_eq, hslots.find fresh key, ← hfound key, foundText]
  split <;> rfl

/-- `mdb_insert` under the key `name` puts another text there. -/
theorem HoldsText.store (h : HoldsText mem text) (value : MdbValue) :
    ∃ mem', mdbStore mem (bytes "name") value.bytes = .ok mem' ∧ HoldsText mem' value.bytes := by
  obtain ⟨slots, hslots, hfound⟩ := h.slots
  obtain ⟨mem', hstore, hslots'⟩ := hslots.store keyName value
  refine ⟨mem', hstore, value.isText, value.length_lt, _, hslots', fun key => ?_⟩
  rw [foundText]
  by_cases hslot : mdbSlot key.bytes = mdbSlot keyName.bytes
  · rw [hslot, Function.update_self]
    by_cases hkey : key = keyName
    · rw [if_pos hkey.symm, if_pos hkey]
    · rw [if_neg (Ne.symm hkey), if_neg hkey]
  · have hkey : key ≠ keyName := by
      rintro rfl
      exact hslot rfl
    have hbefore := hfound key
    rw [foundText, if_neg hkey] at hbefore
    rw [Function.update_of_ne hslot, if_neg hkey, hbefore]

end

/-! ## What is sent -/

/-- What the client reads of the text of a view. -/
theorem exists_resRow_read (w : World) {s : List UInt8} (hs : IsText s) (hlen : s.length < 512) :
    ∃ acts, resRow w s [] = .ok acts ∧
      (Http.receive (sentBytes acts).flatten).map Prod.snd = if s ≠ [] then some s else none := by
  refine ⟨_, resRow_short w hs hlen, ?_⟩
  rw [sentBytes_resHandle, List.flatten_singleton]
  by_cases hne : s ≠ []
  · rw [receive_rowText (hlen.trans (by norm_num)) hne, if_pos hne]
    rfl
  · obtain rfl := not_not.mp hne
    rw [receive_rowText_nil, if_neg hne]
    rfl

/-! ## The visits are what is meant -/

section
variable {g : CtlFunMap MdbView} {files : FileList} {spare : SpareByte}

/-- The router leads to the view. -/
theorem routerHandle_mdb (hg : routerAddApps routerInit [mdbApp] spare = .ok g)
    (hfiles : files.num < maxFiles) (request : Request) :
    (request.path = bytes "/mdb/find" → routerHandle g files request = .ok (.view .mdbfind)) ∧
      (request.path = bytes "/mdb/insert" →
        routerHandle g files request = .ok (.view .mdbinsert)) := by
  constructor
  · intro hpath
    rw [routerHandle_of_path hg (by decide) hfiles hpath (by decide)]
    rfl
  · intro hpath
    rw [routerHandle_of_path hg (by decide) hfiles hpath (by decide)]
    rfl

/-- The value of a query is a text of at most 511 bytes. -/
theorem RequestText.query_value (r : RequestText) {key value : List UInt8}
    (h : lastValue r.query key = some value) : IsText value ∧ value.length < 512 := by
  obtain ⟨p, hp, rfl⟩ := Option.map_eq_some_iff.mp h
  rw [List.findRev?_eq_find?_reverse] at hp
  have hpair := r.query_pairs p (List.mem_reverse.mp (List.mem_of_find?_eq_some hp))
  exact ⟨hpair.value_text.1, Nat.lt_succ_of_le hpair.value_length⟩

/-- `find` of a key with room in `data`. -/
theorem HoldsText.run_find {mem : MdbMemory} {text : List UInt8} (h : HoldsText mem text)
    {request : Request} {key : List UInt8}
    (hname : hashmapGet request.query (bytes "name") = some key) (hkey : IsText key)
    (hroom : key.length < 40) (fresh : Block maxValueLen) (w : World) :
    ∃ acts, MdbView.run fresh w mem request .mdbfind = .ok (mem, acts) ∧
      (Http.receive (sentBytes acts).flatten).map Prod.snd
        = if key = bytes "name" ∧ text ≠ [] then some text else none := by
  have hshort : key.length < maxKeyLen := hroom.trans (by decide)
  have harg : nameArg request = .ok key := by rw [nameArg, hname]
  obtain ⟨data, hcopy, -⟩ := Block.exists_strcpy (b := Block.zero 40) hkey hroom
  have hdata : data.str 0 = key := Block.str_strcpy_self hkey hcopy
  have hfind := h.find fresh ⟨key, hkey, hshort⟩
  have hsame : (⟨key, hkey, hshort⟩ : MdbKey) = keyName ↔ key = bytes "name" :=
    ⟨fun heq => congrArg ShortText.bytes heq, fun heq => ShortText.eq_of_bytes heq⟩
  by_cases hn : key = bytes "name"
  · rw [if_pos (hsame.mpr hn)] at hfind
    obtain ⟨acts, hrow, hread⟩ := exists_resRow_read w h.isText h.length_lt
    refine ⟨acts, ?_, ?_⟩
    · rw [MdbView.run, harg, ok_bind, hcopy, ok_bind, hdata, hfind, ok_bind, hrow, ok_bind]
    · rw [hread]
      simp only [hn, true_and]
  · rw [if_neg fun heq => hn (hsame.mp heq)] at hfind
    obtain ⟨acts, hrow, hread⟩ := exists_resRow_read w List.not_mem_nil (by decide)
    refine ⟨acts, ?_, ?_⟩
    · rw [MdbView.run, harg, ok_bind, hcopy, ok_bind, hdata, hfind, ok_bind, hrow, ok_bind]
    · rw [hread, if_neg (not_not.mpr rfl), if_neg fun hboth => hn hboth.1]

/-- `insert`. -/
theorem HoldsText.run_insert {mem : MdbMemory} {text : List UInt8} (h : HoldsText mem text)
    {request : Request} {value : List UInt8}
    (hname : hashmapGet request.query (bytes "name") = some value) (hvalue : IsText value)
    (hroom : value.length < 512) (fresh : Block maxValueLen) (w : World) :
    ∃ mem' acts, MdbView.run fresh w mem request .mdbinsert = .ok (mem', acts) ∧
      HoldsText mem' value ∧ (Http.receive (sentBytes acts).flatten).map Prod.snd
        = some (bytes "insert ok!") := by
  have harg : nameArg request = .ok value := by rw [nameArg, hname]
  have hkey : IsText (bytes "name") := by decide
  obtain ⟨ckey, hcopy, -⟩ := Block.exists_strcpy (b := Block.zero 64) hkey (by decide)
  obtain ⟨cdata, hcopy', -⟩ := Block.exists_strcpy (b := Block.zero 512) hvalue hroom
  have hckey : ckey.str 0 = bytes "name" := Block.str_strcpy_self hkey hcopy
  have hcdata : cdata.str 0 = value := Block.str_strcpy_self hvalue hcopy'
  obtain ⟨mem', hstore, hholds⟩ := h.store ⟨value, hvalue, hroom⟩
  have hreply : IsText (bytes "insert ok!") := by decide
  obtain ⟨acts, hrow, hread⟩ := exists_resRow_read w hreply (by decide)
  refine ⟨mem', acts, ?_, hholds, ?_⟩
  · rw [MdbView.run, hcopy, ok_bind, harg, ok_bind, hcopy', ok_bind, hckey, hcdata, hstore,
      ok_bind, hrow, ok_bind]
  · rw [hread, if_pos (by decide)]

/-- Every visit is what is meant. -/
theorem mdbVisit_refines (hg : routerAddApps routerInit [mdbApp] spare = .ok g)
    (hfiles : files.num < maxFiles) (pid : ℤ) :
    Refines HoldsText (Asks spare) .write (mdbVisit g files pid spare) MdbAsk.step := by
  rintro mem text v ask h hasks
  obtain ⟨request, hcarries, -, hreceive⟩ :=
    v.request.exists_received v.junk v.world.now pid spare v.mem v.tail
  obtain ⟨hfind, hinsert⟩ := routerHandle_mdb hg hfiles request
  cases hasks with
  | @find key path name hcopies hzero =>
      obtain ⟨hkey, -⟩ := v.request.query_value name
      have hname := (hcarries.query _).trans name
      -- there is no `%` in the path, so the line for the log can be made
      have hprints : Prints v.request.path := path ▸ prints_of_notMem (by decide)
      rw [mdbVisit, (hreceive request).mpr ⟨rfl, hcopies, hprints, hzero⟩, ok_bind,
        hfind (hcarries.path.trans path), ok_bind]
      dsimp only
      by_cases hlong : 40 ≤ key.length
      · have hcopy : (Block.zero 40).strcpy 0 key = .error .write :=
          Block.strcpy_eq_error (by omega)
        have harg : nameArg request = .ok key := by rw [nameArg, hname]
        rw [MdbAsk.step, if_pos hlong]
        show _ = Except.error Fault.write
        rw [MdbView.run, harg, ok_bind, hcopy]
        rfl
      · obtain ⟨acts, hrun, hread⟩ := h.run_find hname hkey (by omega) v.fresh v.world
        rw [MdbAsk.step, if_neg hlong]
        refine ⟨mem, ?_, h⟩
        rw [hrun, ok_bind, hread]
  | @insert value path name hcopies hzero =>
      obtain ⟨hvalue, hroom⟩ := v.request.query_value name
      have hprints : Prints v.request.path := path ▸ prints_of_notMem (by decide)
      obtain ⟨mem', acts, hrun, hholds, hread⟩ :=
        h.run_insert ((hcarries.query _).trans name) hvalue hroom v.fresh v.world
      rw [mdbVisit, (hreceive request).mpr ⟨rfl, hcopies, hprints, hzero⟩, ok_bind,
        hinsert (hcarries.path.trans path), ok_bind]
      refine ⟨mem', ?_, hholds⟩
      dsimp only
      rw [hrun, ok_bind, hread]

theorem path_spec_of_mem {path : List UInt8}
    (hpath : path ∈ [bytes "/mdb/find", bytes "/mdb/insert"]) : path.head? = some slash ∧
      (IsText path ∧ space ∉ path) ∧ question ∉ path ∧ path.length ≤ 511 := by
  have hall : ∀ p ∈ [bytes "/mdb/find", bytes "/mdb/insert"], p.head? = some slash ∧
      (IsText p ∧ space ∉ p) ∧ question ∉ p ∧ p.length ≤ 511 := by decide
  exact hall path hpath

theorem isQueryPair_name {value : List UInt8}
    (hvalue : (IsText value ∧ space ∉ value) ∧ amp ∉ value ∧ value.length ≤ 511) :
    ∀ p ∈ [(⟨bytes "name", value⟩ : TextPair)], IsQueryPair p := by
  have hname : IsText (bytes "name") ∧ equals ∉ bytes "name" ∧ space ∉ bytes "name" ∧
      (bytes "name").length ≤ 511 := by decide
  obtain ⟨htext, hequals, hspace, hlen⟩ := hname
  exact List.forall_mem_singleton.mpr
    ⟨htext, hequals, hspace, hlen, hvalue.1, hvalue.2.1, hvalue.2.2⟩

/-- A request of a browser for one of the views. -/
def mdbRequest (path value : List UInt8) (hpath : path ∈ [bytes "/mdb/find", bytes "/mdb/insert"])
    (hvalue : (IsText value ∧ space ∉ value) ∧ amp ∉ value ∧ value.length ≤ 511) :
    RequestText :=
  .get path [⟨bytes "name", value⟩] [] (path_spec_of_mem hpath) (isQueryPair_name hvalue)
    (List.forall_mem_nil _)

/-- Such a request, where nothing is on the disk. -/
def plainMdbVisit (request : RequestText) : MdbVisit where
  request := request
  tail := [0]
  junk := fun _ => .zero
  mem := .zero
  world := diskWorld none
  fresh := Block.zero _

end
