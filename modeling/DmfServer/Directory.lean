/-
# Walking the static directory

`traverse_directory` goes over the entries of a directory in the order of `readdir`.  It puts the
path of an entry together in an array of `MAX_PATH_LENGTH` bytes, where `snprintf` cuts it off,
goes into a directory before it registers it, and stops when the table is full.

A file system answers `stat` and `readdir` for every path, cut ones too; `Shows` says that it has
a given tree under a path.  `nodes` is what is in the tree, in the order in which the walk comes to
register it, and `found` are those whose paths, cut off or not, lead somewhere.

`walk_ok`, `walk_cases`: as long as the found paths fit the array, the walk registers them, up to
`MAX_FILES`.  `servesFiles_iff`: these are the regular files of the tree exactly when the paths of
those files fit, and the table is full before the walk comes to register a directory.
-/
import DmfServer.Router

open CMem

/-- `MAX_PATH_LENGTH`. -/
def maxPathLength : ℕ := 1024

/-! ## The file system -/

/-- `struct dirent`: `d_name`, and whether `d_type` is `DT_DIR`. -/
structure Dirent where
  name : List UInt8
  isDir : Bool

/-- `struct stat`: whether it is that of a directory, and `st_size`. -/
structure Stat where
  isDir : Bool
  size : ℕ

/-- What the calls say of a path. -/
structure FileSystem where
  stat : List UInt8 → Option Stat
  /-- What `readdir` returns behind `opendir`. -/
  readdir : List UInt8 → Option (List Dirent)
  /-- What can be opened is a directory. -/
  isDir_of_readdir : ∀ path entries, readdir path = some entries →
    ∃ st, stat path = some st ∧ st.isDir = true

/-- `type`. -/
inductive EntryType : Type where
  | file : EntryType
  | directory : EntryType
  deriving DecidableEq

/-- `struct FileInfo`, as far as `traverse_directory` fills it. -/
structure EntryInfo where
  path : List UInt8
  type : EntryType
  size : ℕ
  ext : List UInt8
  deriving DecidableEq

/-- `"."` and `".."`. -/
def isDots (name : List UInt8) : Bool := name = [46] || name = [46, 46]

/-- What is behind the last dot of a name, unless the name begins with that dot, in 16 bytes. -/
def extOf (name : List UInt8) : List UInt8 :=
  let behind := (name.reverse.takeWhile (· ≠ 46)).reverse
  if behind.length + 1 < name.length then behind.take 16 else []

/-- `"%s/%s"`. -/
def joinPath (path name : List UInt8) : List UInt8 := path ++ Ascii.slash :: name

/-- `full_path`. -/
def fullPath (path name : List UInt8) : List UInt8 := (joinPath path name).take (maxPathLength - 1)

/-- `info`. -/
def entryInfo (path : List UInt8) (entry : Dirent) (st : Stat) : EntryInfo :=
  if entry.isDir then ⟨fullPath path entry.name, .directory, 0, []⟩
  else ⟨fullPath path entry.name, .file, st.size, extOf entry.name⟩

/-- The call for an entry that is a directory. -/
def visitEntry (deeper : List UInt8 → List EntryInfo → Except Fault (List EntryInfo))
    (path : List UInt8) (entry : Dirent) (files : List EntryInfo) :
    Except Fault (List EntryInfo) :=
  if entry.isDir then deeper (fullPath path entry.name) files else .ok files

/-- The loop of `traverse_directory`; `deeper` is the call for an entry that is a directory. -/
def traverseEntries (fs : FileSystem)
    (deeper : List UInt8 → List EntryInfo → Except Fault (List EntryInfo)) (path : List UInt8) :
    List Dirent → List EntryInfo → Except Fault (List EntryInfo)
  | [], files => .ok files
  | entry :: next, files =>
      if isDots entry.name then traverseEntries fs deeper path next files
      else
        match fs.stat (fullPath path entry.name) with
        | none => traverseEntries fs deeper path next files
        | some st => do
            let files ← visitEntry deeper path entry files
            if maxFiles ≤ files.length then .ok files
            else traverseEntries fs deeper path next (files ++ [entryInfo path entry st])

/-- `traverse_directory`, with `file_list` up to `*num_files`, for a depth that `fuel` bounds. -/
def traverseDirectory (fs : FileSystem) : ℕ → List UInt8 → List EntryInfo →
    Except Fault (List EntryInfo)
  | 0, _, _ => .error .loop
  | fuel + 1, path, files =>
      match fs.readdir path with
      | none => .ok files
      | some entries => traverseEntries fs (traverseDirectory fs fuel) path entries files

/-! ## Trees -/

/-- The content of a directory, in the order of `readdir`, without `"."` and `".."`. -/
inductive Listing : Type where
  | nil : Listing
  | file (name : List UInt8) (size : ℕ) (rest : Listing) : Listing
  | dir (name : List UInt8) (sub rest : Listing) : Listing

/-- What `readdir` returns of it. -/
def Listing.dirents : Listing → List Dirent
  | .nil => []
  | .file name _ rest => ⟨name, false⟩ :: rest.dirents
  | .dir name _ rest => ⟨name, true⟩ :: rest.dirents

/-- The path is a directory with these entries, and with `"."` and `".."` at any place. -/
def Opens (fs : FileSystem) (path : List UInt8) (listing : Listing) : Prop :=
  ∃ entries, fs.readdir path = some entries ∧
    entries.filter (fun entry => !isDots entry.name) = listing.dirents

/-- The file system has the entries under the path. -/
def Entries (fs : FileSystem) : List UInt8 → Listing → Prop
  | _, .nil => True
  | path, .file name size rest =>
      isDots name = false ∧ fs.stat (joinPath path name) = some ⟨false, size⟩ ∧
        Entries fs path rest
  | path, .dir name sub rest =>
      isDots name = false ∧ (∃ size, fs.stat (joinPath path name) = some ⟨true, size⟩) ∧
        Opens fs (joinPath path name) sub ∧ Entries fs (joinPath path name) sub ∧
        Entries fs path rest

/-- The file system has the tree under the path. -/
structure Shows (fs : FileSystem) (path : List UInt8) (listing : Listing) : Prop where
  opens : Opens fs path listing
  entries : Entries fs path listing

/-- The path fits the array. -/
def Short (path : List UInt8) : Prop := path.length < maxPathLength

instance (path : List UInt8) : Decidable (Short path) :=
  inferInstanceAs (Decidable (path.length < maxPathLength))

/-- A file or a directory of the tree, as it should be registered, and whether the walk can come
to it through a directory whose own path does not fit. -/
structure TreeNode where
  info : EntryInfo
  hidden : Bool

/-- The nodes of a tree, in the order in which the walk comes to register them. -/
def nodes : List UInt8 → Listing → List TreeNode
  | _, .nil => []
  | path, .file name size rest =>
      ⟨⟨joinPath path name, .file, size, extOf name⟩, !decide (Short path)⟩ :: nodes path rest
  | path, .dir name sub rest =>
      nodes (joinPath path name) sub ++
        ⟨⟨joinPath path name, .directory, 0, []⟩, !decide (Short (joinPath path name))⟩ ::
          nodes path rest

/-- The path of a node as the walk puts it together. -/
def TreeNode.cut (x : TreeNode) : List UInt8 := x.info.path.take (maxPathLength - 1)

/-- The nodes whose paths lead somewhere. -/
def found (fs : FileSystem) (path : List UInt8) (listing : Listing) : List TreeNode :=
  (nodes path listing).filter fun x => (fs.stat x.cut).isSome

/-- The regular files of a tree. -/
def regularFiles (path : List UInt8) (listing : Listing) : List EntryInfo :=
  ((nodes path listing).map TreeNode.info).filter (·.type = .file)

/-- The first entry under the path is a directory. -/
def StartsWithDirectory (fs : FileSystem) (path : List UInt8) : Prop :=
  ∃ entries first rest, fs.readdir path = some entries ∧
    entries.filter (fun entry => !isDots entry.name) = first :: rest ∧ first.isDir = true

/-- The walk does not go into a directory under a cut path only to come to the same path again. -/
def Settles (fs : FileSystem) (next : Option TreeNode) : Prop :=
  ∀ x, next = some x → x.hidden = true → ¬StartsWithDirectory fs x.cut

/-! ## What every walk does -/

/-- Entries are put behind the others, with paths that fit. -/
def Extends (files files' : List EntryInfo) : Prop :=
  ∃ new, files' = files ++ new ∧ ∀ e ∈ new, Short e.path

theorem Extends.refl (files : List EntryInfo) : Extends files files :=
  ⟨[], (List.append_nil files).symm, List.forall_mem_nil _⟩

theorem Extends.trans {a b c : List EntryInfo} (h : Extends a b) (h' : Extends b c) :
    Extends a c := by
  obtain ⟨new, rfl, hnew⟩ := h
  obtain ⟨new', rfl, hnew'⟩ := h'
  refine ⟨new ++ new', List.append_assoc _ _ _, fun e he => ?_⟩
  obtain he | he := List.mem_append.mp he
  · exact hnew e he
  · exact hnew' e he

section
variable {fs : FileSystem} {deeper : List UInt8 → List EntryInfo → Except Fault (List EntryInfo)}
  {path : List UInt8} {entry : Dirent} {entries next : List Dirent} {files files' : List EntryInfo}

theorem length_fullPath (path name : List UInt8) : (fullPath path name).length < maxPathLength := by
  unfold fullPath maxPathLength
  rw [List.length_take]
  omega

theorem short_entryInfo (path : List UInt8) (entry : Dirent) (st : Stat) :
    Short (entryInfo path entry st).path := by
  unfold entryInfo
  split <;> exact length_fullPath _ _

theorem path_entryInfo (path : List UInt8) (entry : Dirent) (st : Stat) :
    (entryInfo path entry st).path = fullPath path entry.name := by
  unfold entryInfo
  split <;> rfl

/-- `"."` and `".."` are passed over. -/
theorem traverseEntries_filter (entries : List Dirent) (files : List EntryInfo) :
    traverseEntries fs deeper path entries files
      = traverseEntries fs deeper path (entries.filter fun entry => !isDots entry.name) files := by
  induction entries generalizing files with
  | nil => rfl
  | cons entry next ih =>
      by_cases hdots : isDots entry.name = true
      · rw [List.filter_cons_of_neg (by rw [hdots]; decide), traverseEntries, if_pos hdots]
        exact ih files
      · have hnot : isDots entry.name = false := Bool.eq_false_of_not_eq_true hdots
        rw [List.filter_cons_of_pos (by rw [hnot]; rfl), traverseEntries, traverseEntries,
          if_neg hdots, if_neg hdots]
        cases fs.stat (fullPath path entry.name) with
        | none => exact ih files
        | some st =>
            dsimp only
            congr 1
            funext files'
            rw [ih]

/-- What is first behind the dots is none of them. -/
theorem isDots_of_filter {first : Dirent}
    (h : (entries.filter fun entry => !isDots entry.name) = first :: next) :
    isDots first.name = false := by
  have hmem : first ∈ entries.filter fun entry => !isDots entry.name := by
    rw [h]
    exact List.mem_cons_self
  simpa using (List.mem_filter.mp hmem).2

/-- A run of the loop that starts with an entry that leads somewhere. -/
theorem traverseEntries_cons_some {st : Stat} (hname : isDots entry.name = false)
    (hstat : fs.stat (fullPath path entry.name) = some st) :
    traverseEntries fs deeper path (entry :: next) files = (do
      let files ← visitEntry deeper path entry files
      if maxFiles ≤ files.length then .ok files
      else traverseEntries fs deeper path next (files ++ [entryInfo path entry st])) := by
  rw [traverseEntries, if_neg (by rw [hname]; exact Bool.false_ne_true), hstat]

/-- A file is registered where it is looked at, when there is room. -/
theorem traverseEntries_file {name : List UInt8} {st : Stat} (hname : isDots name = false)
    (hstat : fs.stat (fullPath path name) = some st) :
    traverseEntries fs deeper path (⟨name, false⟩ :: next) files
      = if maxFiles ≤ files.length then .ok files
        else traverseEntries fs deeper path next (files ++ [entryInfo path ⟨name, false⟩ st]) := by
  rw [traverseEntries_cons_some hname hstat, visitEntry, if_neg (by exact Bool.false_ne_true),
    ok_bind]

/-- A directory is gone into before it is registered. -/
theorem traverseEntries_dir {name : List UInt8} {st : Stat} (hname : isDots name = false)
    (hstat : fs.stat (fullPath path name) = some st) :
    traverseEntries fs deeper path (⟨name, true⟩ :: next) files = (do
      let files ← deeper (fullPath path name) files
      if maxFiles ≤ files.length then .ok files
      else traverseEntries fs deeper path next (files ++ [entryInfo path ⟨name, true⟩ st])) := by
  rw [traverseEntries_cons_some hname hstat, visitEntry, if_pos rfl]

theorem traverseEntries_cons_none (hstat : fs.stat (fullPath path entry.name) = none) :
    traverseEntries fs deeper path (entry :: next) files
      = traverseEntries fs deeper path next files := by
  rw [traverseEntries, hstat]
  exact ite_self _

/-- The loop over a directory that can be opened. -/
theorem traverseDirectory_opens {listing : Listing} (h : Opens fs path listing) (fuel : ℕ)
    (files : List EntryInfo) :
    traverseDirectory fs (fuel + 1) path files
      = traverseEntries fs (traverseDirectory fs fuel) path listing.dirents files := by
  obtain ⟨entries, hopen, hfilter⟩ := h
  rw [traverseDirectory, hopen, ← hfilter]
  exact traverseEntries_filter entries files

/-- What a loop does, from what it does with one entry. -/
theorem traverseEntries_induct {P : List EntryInfo → List EntryInfo → Prop}
    (hrefl : ∀ files, P files files)
    (htrans : ∀ {a b c}, P a b → P b c → P a c)
    (hdeeper : ∀ name, ∀ files files', deeper (fullPath path name) files = .ok files' →
      P files files')
    (hentry : ∀ entry st, ∀ files, fs.stat (fullPath path entry.name) = some st →
      P files (files ++ [entryInfo path entry st]))
    (h : traverseEntries fs deeper path entries files = .ok files') : P files files' := by
  induction entries generalizing files with
  | nil =>
      obtain rfl := Except.ok.inj h
      exact hrefl files
  | cons entry next ih =>
      rw [traverseEntries] at h
      split at h
      · exact ih h
      · split at h
        · exact ih h
        · next st hstat =>
          obtain ⟨files₁, hcall, hrest⟩ := exists_of_bind h
          have hfirst : P files files₁ := by
            unfold visitEntry at hcall
            split at hcall
            · exact hdeeper _ _ _ hcall
            · obtain rfl := Except.ok.inj hcall
              exact hrefl files
          split at hrest
          · obtain rfl := Except.ok.inj hrest
            exact hfirst
          · exact htrans hfirst (htrans (hentry entry st files₁ hstat) (ih hrest))

end

/-- One entry more. -/
theorem Extends.entry (path : List UInt8) (entry : Dirent) (st : Stat) (files : List EntryInfo) :
    Extends files (files ++ [entryInfo path entry st]) :=
  ⟨_, rfl, List.forall_mem_singleton.mpr (short_entryInfo path entry st)⟩

section
variable {fs : FileSystem} {path : List UInt8} {fuel : ℕ} {files files' : List EntryInfo}

/-- A walk puts entries behind those that are there. -/
theorem extends_of_traverseDirectory (h : traverseDirectory fs fuel path files = .ok files') :
    Extends files files' := by
  induction fuel generalizing path files files' with
  | zero => cases h
  | succ fuel ih =>
      rw [traverseDirectory] at h
      split at h
      · obtain rfl := Except.ok.inj h
        exact .refl files
      · exact traverseEntries_induct Extends.refl Extends.trans (fun _ _ _ => ih)
          (fun entry st files _ => .entry path entry st files) h

theorem extends_of_traverseEntries {entries : List Dirent}
    (h : traverseEntries fs (traverseDirectory fs fuel) path entries files = .ok files') :
    Extends files files' :=
  traverseEntries_induct Extends.refl Extends.trans (fun _ _ _ => extends_of_traverseDirectory)
    (fun entry st files _ => .entry path entry st files) h

/-! ## Under a path that fills the array -/

/-- What is put behind a path that fills the array is cut off. -/
theorem fullPath_of_full (h : path.length = maxPathLength - 1) (name : List UInt8) :
    fullPath path name = path := by
  unfold fullPath joinPath
  rw [← h, List.take_left]

/-- Every entry that a walk under such a path registers has that path, and the path is that of a
directory. -/
theorem mem_of_traverse_full (hfull : path.length = maxPathLength - 1)
    (h : traverseDirectory fs fuel path files = .ok files') :
    ∃ new, files' = files ++ new ∧ ∀ e ∈ new, e.path = path ∧ (fs.readdir path).isSome = true := by
  induction fuel generalizing files files' with
  | zero => cases h
  | succ fuel ih =>
      rw [traverseDirectory] at h
      cases hopen : fs.readdir path with
      | none =>
          rw [hopen] at h
          obtain rfl := Except.ok.inj h
          exact ⟨[], (List.append_nil files).symm, List.forall_mem_nil _⟩
      | some entries =>
          rw [hopen] at h
          dsimp only at h
          have hrefl : ∀ files : List EntryInfo, ∃ new, files = files ++ new ∧
              ∀ e ∈ new, e.path = path := fun files =>
            ⟨[], (List.append_nil files).symm, List.forall_mem_nil _⟩
          have hrun := traverseEntries_induct (P := fun a b => ∃ new, b = a ++ new ∧
            ∀ e ∈ new, e.path = path) hrefl ?_ ?_ ?_ h
          · obtain ⟨new, hnew, hpath⟩ := hrun
            exact ⟨new, hnew, fun e he => ⟨hpath e he, rfl⟩⟩
          · rintro a b c ⟨new, rfl, hnew⟩ ⟨new', rfl, hnew'⟩
            refine ⟨new ++ new', List.append_assoc _ _ _, fun e he => ?_⟩
            exact (List.mem_append.mp he).elim (hnew e) (hnew' e)
          · intro name files files' hcall
            rw [fullPath_of_full hfull] at hcall
            obtain ⟨new, hnew, hpath⟩ := ih hcall
            exact ⟨new, hnew, fun e he => (hpath e he).1⟩
          · intro entry st files _
            refine ⟨[entryInfo path entry st], rfl, List.forall_mem_singleton.mpr ?_⟩
            rw [path_entryInfo, fullPath_of_full hfull]

/-- Where a directory comes first, the walk goes into it, and so comes to the same path. -/
theorem traverse_startsWithDirectory (hfull : path.length = maxPathLength - 1) {st : Stat}
    (hstat : fs.stat path = some st) (hstarts : StartsWithDirectory fs path) (fuel : ℕ)
    (files : List EntryInfo) : traverseDirectory fs fuel path files = .error .loop := by
  obtain ⟨entries, first, rest, hopen, hfilter, hdir⟩ := hstarts
  have hfirst := fullPath_of_full hfull first.name
  have hfound : fs.stat (fullPath path first.name) = some st := by rw [hfirst, hstat]
  induction fuel generalizing files with
  | zero => rfl
  | succ fuel ih =>
      rw [traverseDirectory, hopen]
      dsimp only
      rw [traverseEntries_filter, hfilter,
        traverseEntries_cons_some (isDots_of_filter hfilter) hfound, visitEntry, if_pos hdir,
        hfirst, ih]
      rfl

/-- With a full table, and no directory first, the walk comes back with the table as it was. -/
theorem traverse_full_table (hfull : path.length = maxPathLength - 1) {st : Stat}
    (hstat : fs.stat path = some st) (hstarts : ¬StartsWithDirectory fs path)
    (hroom : maxFiles ≤ files.length) (fuel : ℕ) :
    traverseDirectory fs (fuel + 1) path files = .ok files := by
  rw [traverseDirectory]
  cases hopen : fs.readdir path with
  | none => rfl
  | some entries =>
      dsimp only
      rw [traverseEntries_filter]
      cases hfilter : entries.filter fun entry => !isDots entry.name with
      | nil => rfl
      | cons first rest =>
          have hfound : fs.stat (fullPath path first.name) = some st := by
            rw [fullPath_of_full hfull, hstat]
          have hdir : ¬first.isDir = true := fun hdir =>
            hstarts ⟨entries, first, rest, hopen, hfilter, hdir⟩
          rw [traverseEntries_cons_some (isDots_of_filter hfilter) hfound, visitEntry, if_neg hdir,
            ok_bind, if_pos hroom]

end

/-! ## The nodes that are found -/

section
variable {fs : FileSystem} {path name : List UInt8} {sub rest : Listing} {size : ℕ}

theorem fullPath_of_short (h : Short (joinPath path name)) :
    fullPath path name = joinPath path name :=
  List.take_of_length_le (Nat.le_sub_one_of_lt h)

theorem TreeNode.cut_of_short {x : TreeNode} (h : Short x.info.path) : x.cut = x.info.path :=
  List.take_of_length_le (Nat.le_sub_one_of_lt h)

/-- A path that does not fit fills the array. -/
theorem length_take_of_not_short (h : ¬Short path) :
    (path.take (maxPathLength - 1)).length = maxPathLength - 1 := by
  unfold Short at h
  rw [List.length_take]
  omega

/-- Under a path that does not fit, no path fits, and all of them are cut off to the same one. -/
theorem nodes_of_not_short {listing : Listing} (h : ¬Short path) :
    ∀ x ∈ nodes path listing,
      ¬Short x.info.path ∧ x.hidden = true ∧ x.cut = path.take (maxPathLength - 1) := by
  -- a path behind one that does not fit has the same first bytes
  have hjoin : ∀ {path : List UInt8} (name : List UInt8), ¬Short path →
      ¬Short (joinPath path name) ∧
        (joinPath path name).take (maxPathLength - 1) = path.take (maxPathLength - 1) := by
    intro path name h
    unfold Short at h ⊢
    unfold joinPath
    refine ⟨?_, List.take_append_of_le_length (by omega)⟩
    rw [List.length_append]
    omega
  induction listing generalizing path with
  | nil => exact List.forall_mem_nil _
  | file name size rest ih =>
      intro x hx
      obtain rfl | hx := List.mem_cons.mp hx
      · exact ⟨(hjoin name h).1, by simpa using h, (hjoin name h).2⟩
      · exact ih h x hx
  | dir name sub rest ihsub ihrest =>
      obtain ⟨hlong, hcut⟩ := hjoin name h
      intro x hx
      obtain hx | hx := List.mem_append.mp hx
      · obtain ⟨hx₁, hx₂, hx₃⟩ := ihsub hlong x hx
        exact ⟨hx₁, hx₂, hx₃.trans hcut⟩
      · obtain rfl | hx := List.mem_cons.mp hx
        · exact ⟨hlong, by simpa using hlong, hcut⟩
        · exact ihrest h x hx

/-- The node of a file. -/
def fileNode (path name : List UInt8) (size : ℕ) : TreeNode :=
  ⟨⟨joinPath path name, .file, size, extOf name⟩, !decide (Short path)⟩

/-- The node of a directory. -/
def dirNode (path name : List UInt8) : TreeNode :=
  ⟨⟨joinPath path name, .directory, 0, []⟩, !decide (Short (joinPath path name))⟩

theorem found_file_none (h : fs.stat (fullPath path name) = none) :
    found fs path (.file name size rest) = found fs path rest := by
  refine List.filter_cons_of_neg ?_
  rw [show TreeNode.cut _ = fullPath path name from rfl, h]
  exact Bool.false_ne_true

theorem found_file_some {st : Stat} (h : fs.stat (fullPath path name) = some st) :
    found fs path (.file name size rest) = fileNode path name size :: found fs path rest := by
  refine List.filter_cons_of_pos ?_
  rw [show TreeNode.cut _ = fullPath path name from rfl, h]
  rfl

theorem found_dir_some {st : Stat} (h : fs.stat (fullPath path name) = some st) :
    found fs path (.dir name sub rest)
      = found fs (joinPath path name) sub ++ dirNode path name :: found fs path rest := by
  unfold found
  rw [nodes, List.filter_append, List.filter_cons_of_pos]
  · rfl
  · rw [show TreeNode.cut _ = fullPath path name from rfl, h]
    rfl

/-- Where the cut path of a directory leads nowhere, so do those of all that is in it. -/
theorem found_dir_none (hlong : ¬Short (joinPath path name))
    (h : fs.stat (fullPath path name) = none) :
    found fs path (.dir name sub rest) = found fs path rest := by
  unfold found
  rw [nodes, List.filter_append, List.filter_cons_of_neg, List.filter_eq_nil_iff.mpr,
    List.nil_append]
  · intro x hx
    rw [(nodes_of_not_short hlong x hx).2.2, show (joinPath path name).take (maxPathLength - 1)
      = fullPath path name from rfl, h]
    exact Bool.false_ne_true
  · rw [show TreeNode.cut _ = fullPath path name from rfl, h]
    exact Bool.false_ne_true

/-- Otherwise they all lead where it does, and the first of them does not fit. -/
theorem found_dir_long (sub rest : Listing) {st : Stat} (hlong : ¬Short (joinPath path name))
    (h : fs.stat (fullPath path name) = some st) :
    ∃ x xs, found fs path (.dir name sub rest) = x :: xs ∧ ¬Short x.info.path ∧
      x.hidden = true ∧ x.cut = fullPath path name := by
  rw [found_dir_some h]
  cases hsub : found fs (joinPath path name) sub with
  | nil => exact ⟨_, _, rfl, hlong, by simpa [dirNode] using hlong, rfl⟩
  | cons x xs =>
      have hmem : x ∈ nodes (joinPath path name) sub := by
        refine List.mem_of_mem_filter (p := fun x => (fs.stat x.cut).isSome) ?_
        rw [show (nodes (joinPath path name) sub).filter _ = found fs (joinPath path name) sub
          from rfl, hsub]
        exact List.mem_cons_self
      exact ⟨x, _, rfl, nodes_of_not_short hlong x hmem⟩

end

/-! ## The walk over a tree -/

theorem take_append_cons {α : Type} {a b : List α} {x : α} {n : ℕ} (h : a.length < n) :
    (a ++ x :: b).take n = a ++ x :: b.take (n - a.length - 1) := by
  obtain ⟨k, rfl⟩ := Nat.exists_eq_add_of_lt h
  rw [List.take_append, List.take_of_length_le (by omega),
    show a.length + k + 1 - a.length = k + 1 from by omega, List.take_succ_cons, Nat.add_sub_cancel]

theorem getElem?_append_cons {α : Type} {a b : List α} {x : α} {n : ℕ} (h : a.length < n) :
    (a ++ x :: b)[n]? = b[n - a.length - 1]? := by
  obtain ⟨k, rfl⟩ := Nat.exists_eq_add_of_lt h
  rw [List.getElem?_append_right (by omega), show a.length + k + 1 - a.length = k + 1 from by omega,
    List.getElem?_cons_succ, Nat.add_sub_cancel]

section
variable {fs : FileSystem} {path name : List UInt8} {sub rest : Listing} {size n : ℕ}
  {files : List EntryInfo}

/-- A file that fits is registered as it is. -/
theorem entryInfo_file (hshort : Short (joinPath path name)) :
    entryInfo path ⟨name, false⟩ ⟨false, size⟩ = (fileNode path name size).info := by
  unfold entryInfo
  rw [if_neg (by exact Bool.false_ne_true), fullPath_of_short hshort]
  rfl

theorem entryInfo_dir (hshort : Short (joinPath path name)) (st : Stat) :
    entryInfo path ⟨name, true⟩ st = (dirNode path name).info := by
  unfold entryInfo
  rw [if_pos rfl, fullPath_of_short hshort]
  rfl

/-- What a path that fits leads to is found. -/
theorem stat_fullPath (hshort : Short (joinPath path name)) {st : Stat}
    (h : fs.stat (joinPath path name) = some st) : fs.stat (fullPath path name) = some st := by
  rw [fullPath_of_short hshort, h]

/-- A directory whose path fits: the walk inside, and then, with room left, the directory itself
and the rest. -/
theorem walk_ok_dir {st : Stat} {next : List Dirent} {inner behind : List TreeNode}
    (hname : isDots name = false) (hfits : Short (joinPath path name))
    (hcut : fs.stat (fullPath path name) = some st) (hroom : files.length + n = maxFiles)
    (hsub : ∃ depth, ∀ fuel ≥ depth, traverseDirectory fs (fuel + 1) (fullPath path name) files
      = .ok (files ++ (inner.take n).map TreeNode.info))
    (hnext : ∀ {files : List EntryInfo}, inner.length < n →
      files.length + (n - inner.length - 1) = maxFiles → ∃ depth, ∀ fuel ≥ depth,
        traverseEntries fs (traverseDirectory fs fuel) path next files
          = .ok (files ++ (behind.take (n - inner.length - 1)).map TreeNode.info)) :
    ∃ depth, ∀ fuel ≥ depth,
      traverseEntries fs (traverseDirectory fs fuel) path (⟨name, true⟩ :: next) files
        = .ok (files ++ ((inner ++ dirNode path name :: behind).take n).map TreeNode.info) := by
  obtain ⟨depth₁, hdeeper⟩ := hsub
  by_cases hfull : n ≤ inner.length
  · -- the table is full before the directory itself is registered
    refine ⟨depth₁ + 1, fun fuel hfuel => ?_⟩
    obtain ⟨fuel, rfl⟩ := Nat.exists_eq_succ_of_ne_zero (show fuel ≠ 0 by omega)
    have hlen : maxFiles ≤ (files ++ (inner.take n).map TreeNode.info).length := by
      rw [List.length_append, List.length_map, List.length_take]
      omega
    rw [traverseEntries_dir hname hcut, hdeeper fuel (by omega), ok_bind, if_pos hlen,
      List.take_append_of_le_length hfull]
  · have hlt : inner.length < n := Nat.lt_of_not_le hfull
    have hlen : (files ++ inner.map TreeNode.info ++ [(dirNode path name).info]).length
        + (n - inner.length - 1) = maxFiles := by
      simp only [List.length_append, List.length_map, List.length_singleton]
      omega
    have hspare : ¬maxFiles ≤ (files ++ inner.map TreeNode.info).length := by
      rw [List.length_append, List.length_map]
      omega
    obtain ⟨depth₂, hrun⟩ := hnext hlt hlen
    rw [List.take_of_length_le hlt.le] at hdeeper
    rw [take_append_cons hlt]
    refine ⟨max (depth₁ + 1) depth₂, fun fuel hfuel => ?_⟩
    obtain ⟨fuel, rfl⟩ := Nat.exists_eq_succ_of_ne_zero (show fuel ≠ 0 by omega)
    rw [traverseEntries_dir hname hcut, hdeeper fuel (by omega), ok_bind, if_neg hspare,
      entryInfo_dir hfits, hrun _ (by omega)]
    simp only [List.map_append, List.map_cons, List.append_assoc, List.cons_append, List.nil_append]

/-- The walk comes back with the nodes that are found, up to the room that there is, when their
paths fit, and the next one does not lead it astray. -/
theorem walk_ok {listing : Listing} (hpath : Entries fs path listing)
    (hroom : files.length + n = maxFiles)
    (hshort : ∀ x ∈ (found fs path listing).take n, Short x.info.path)
    (hsettles : Settles fs (found fs path listing)[n]?) :
    ∃ depth, ∀ fuel ≥ depth,
      traverseEntries fs (traverseDirectory fs fuel) path listing.dirents files
        = .ok (files ++ ((found fs path listing).take n).map TreeNode.info) := by
  induction listing generalizing path files n with
  | nil =>
      refine ⟨0, fun fuel _ => ?_⟩
      rw [show found fs path .nil = [] from rfl, List.take_nil, List.map_nil, List.append_nil]
      rfl
  | file name size rest ih =>
      obtain ⟨hname, hstat, hrest⟩ := hpath
      cases hcut : fs.stat (fullPath path name) with
      | none =>
          rw [found_file_none hcut] at hshort hsettles ⊢
          obtain ⟨depth, hrun⟩ := ih hrest hroom hshort hsettles
          refine ⟨depth, fun fuel hfuel => ?_⟩
          rw [Listing.dirents, traverseEntries_cons_none hcut, hrun fuel hfuel]
      | some st =>
          rw [found_file_some hcut] at hshort hsettles ⊢
          cases n with
          | zero =>
              refine ⟨0, fun fuel _ => ?_⟩
              rw [Listing.dirents, traverseEntries_file hname hcut, if_pos (by omega),
                List.take_zero, List.map_nil, List.append_nil]
          | succ n =>
              rw [List.take_succ_cons] at hshort ⊢
              rw [List.getElem?_cons_succ] at hsettles
              have hfits : Short (joinPath path name) := hshort _ List.mem_cons_self
              obtain rfl : st = ⟨false, size⟩ :=
                Option.some.inj (hcut.symm.trans (stat_fullPath hfits hstat))
              have hlen : (files ++ [(fileNode path name size).info]).length + n = maxFiles := by
                rw [List.length_append, List.length_singleton]
                omega
              obtain ⟨depth, hrun⟩ :=
                ih hrest hlen (fun x hx => hshort x (List.mem_cons_of_mem _ hx)) hsettles
              refine ⟨depth, fun fuel hfuel => ?_⟩
              rw [Listing.dirents, traverseEntries_file hname hcut, if_neg (by omega),
                entryInfo_file hfits, hrun fuel hfuel, List.append_assoc]
              rfl
  | dir name sub rest ihsub ihrest =>
      obtain ⟨hname, ⟨size, hstat⟩, hopens, hsub, hrest⟩ := hpath
      by_cases hfits : Short (joinPath path name)
      · have hcut := stat_fullPath hfits hstat
        rw [found_dir_some hcut] at hshort hsettles ⊢
        obtain ⟨inner, hinner⟩ : ∃ inner, inner = found fs (joinPath path name) sub := ⟨_, rfl⟩
        rw [← hinner] at hshort hsettles ⊢
        have hshortSub : ∀ x ∈ inner.take n, Short x.info.path := by
          intro x hx
          refine hshort x ?_
          rw [List.take_append]
          exact List.mem_append_left _ hx
        have hsettlesSub : Settles fs inner[n]? := by
          intro x hx
          refine hsettles x ?_
          rw [List.getElem?_append_left (List.getElem?_eq_some_iff.mp hx).1, hx]
        rw [hinner] at hshortSub hsettlesSub
        obtain ⟨depth, hrun⟩ := ihsub hsub hroom hshortSub hsettlesSub
        rw [← hinner] at hrun
        refine walk_ok_dir hname hfits hcut hroom ⟨depth, fun fuel hfuel => ?_⟩ ?_
        · rw [fullPath_of_short hfits, traverseDirectory_opens hopens, hrun fuel hfuel]
        · intro files hlt hlen
          rw [take_append_cons hlt] at hshort
          rw [getElem?_append_cons hlt] at hsettles
          exact ihrest hrest hlen
            (fun x hx => hshort x (List.mem_append_right _ (List.mem_cons_of_mem _ hx))) hsettles
      · cases hcut : fs.stat (fullPath path name) with
        | none =>
            rw [found_dir_none hfits hcut] at hshort hsettles ⊢
            obtain ⟨depth, hrun⟩ := ihrest hrest hroom hshort hsettles
            refine ⟨depth, fun fuel hfuel => ?_⟩
            rw [Listing.dirents, traverseEntries_cons_none hcut, hrun fuel hfuel]
        | some st =>
            obtain ⟨x, xs, hfound, hlong, hhidden, hx⟩ := found_dir_long sub rest hfits hcut
            rw [hfound] at hshort hsettles ⊢
            cases n with
            | succ n =>
                -- there is room, but the first node under the cut path does not fit
                rw [List.take_succ_cons] at hshort
                exact absurd (hshort x List.mem_cons_self) hlong
            | zero =>
                -- the table is full: the walk only looks at what is first under the cut path
                have hstarts := hsettles x rfl hhidden
                rw [hx] at hstarts
                refine ⟨1, fun fuel hfuel => ?_⟩
                obtain ⟨fuel, rfl⟩ := Nat.exists_eq_add_of_le' hfuel
                have hdeeper : traverseDirectory fs (fuel + 1) (fullPath path name) files
                    = .ok files :=
                  traverse_full_table (length_take_of_not_short hfits) hcut hstarts (by omega) fuel
                rw [Listing.dirents, traverseEntries_dir hname hcut, hdeeper, ok_bind,
                  if_pos (by omega), List.take_zero, List.map_nil, List.append_nil]

/-- The walk from an empty table. -/
theorem traverseDirectory_ok {listing : Listing} (h : Shows fs path listing)
    (hshort : ∀ x ∈ (found fs path listing).take maxFiles, Short x.info.path)
    (hsettles : Settles fs (found fs path listing)[maxFiles]?) :
    ∃ fuel, traverseDirectory fs fuel path []
      = .ok (((found fs path listing).take maxFiles).map TreeNode.info) := by
  have hroom : ([] : List EntryInfo).length + maxFiles = maxFiles := Nat.zero_add _
  obtain ⟨depth, hwalk⟩ := walk_ok h.entries hroom hshort hsettles
  refine ⟨depth + 1, ?_⟩
  rw [traverseDirectory_opens h.opens, hwalk depth le_rfl, List.nil_append]

end

/-- What a walk that comes back has registered behind `files`, with room for `n` entries: the
nodes, or those in front of the first whose path does not fit, and in its place an entry with its
cut path. -/
inductive WalkEnd (fs : FileSystem) (n : ℕ) (xs : List TreeNode) (files files' : List EntryInfo) :
    Prop
  | fits (hshort : ∀ x ∈ xs.take n, Short x.info.path) (hsettles : Settles fs xs[n]?)
      (hfiles : files' = files ++ (xs.take n).map TreeNode.info) : WalkEnd fs n xs files files'
  | cut (before : List TreeNode) (x : TreeNode) (behind : List TreeNode) (e : EntryInfo)
      (more : List EntryInfo) (hxs : xs = before ++ x :: behind) (hroom : before.length < n)
      (hshort : ∀ y ∈ before, Short y.info.path) (hlong : ¬Short x.info.path)
      (hpath : e.path = x.cut)
      (hdir : x.info.type = .directory →
        e.type = .directory ∨ (fs.readdir e.path).isSome = true)
      (hfiles : files' = files ++ before.map TreeNode.info ++ e :: more) :
      WalkEnd fs n xs files files'

section
variable {fs : FileSystem} {n : ℕ} {xs : List TreeNode} {files files' files'' : List EntryInfo}

/-- Nodes that were registered in front. -/
theorem WalkEnd.append (as : List TreeNode) (has : ∀ a ∈ as, Short a.info.path)
    (h : WalkEnd fs n xs (files ++ as.map TreeNode.info) files') :
    WalkEnd fs (as.length + n) (as ++ xs) files files' := by
  cases h with
  | fits hshort hsettles hfiles =>
      refine .fits ?_ ?_ ?_
      · rw [List.take_length_add_append]
        intro x hx
        exact (List.mem_append.mp hx).elim (has x) (hshort x)
      · rwa [List.getElem?_append_right (Nat.le_add_right _ _), Nat.add_sub_cancel_left]
      · rw [List.take_length_add_append, hfiles, List.map_append, List.append_assoc]
  | cut before x behind e more hxs hroom hshort hlong hpath hdir hfiles =>
      refine .cut (as ++ before) x behind e more ?_ ?_ ?_ hlong hpath hdir ?_
      · rw [hxs, List.append_assoc]
      · rw [List.length_append]
        omega
      · intro y hy
        exact (List.mem_append.mp hy).elim (has y) (hshort y)
      · rw [hfiles, List.map_append]
        simp only [List.append_assoc]

end

section
variable {fs : FileSystem} {path : List UInt8} {n fuel : ℕ} {files files' : List EntryInfo}

/-- The rest of the loop behind an entry that was visited. -/
theorem extends_of_rest {entry : Dirent} {st : Stat} {next : List Dirent}
    (h : (if maxFiles ≤ files.length then .ok files
      else traverseEntries fs (traverseDirectory fs fuel) path next
        (files ++ [entryInfo path entry st])) = (.ok files' : Except Fault _)) :
    Extends files files' := by
  split at h
  · obtain rfl := Except.ok.inj h
    exact .refl _
  · exact (Extends.entry path entry st files).trans (extends_of_traverseEntries h)

/-- Under a cut path with room in the table, the walk registers an entry with that path. -/
theorem exists_entry_of_full {st : Stat} (hfull : path.length = maxPathLength - 1)
    (hroom : files.length < maxFiles) {deeper : List EntryInfo} {next : List Dirent}
    {parent name : List UInt8} (hname : fullPath parent name = path)
    (hcall : traverseDirectory fs fuel path files = .ok deeper)
    (h : (if maxFiles ≤ deeper.length then .ok deeper
      else traverseEntries fs (traverseDirectory fs fuel) parent next
        (deeper ++ [entryInfo parent ⟨name, true⟩ st])) = (.ok files' : Except Fault _)) :
    ∃ e more, e.path = path ∧ (e.type = .directory ∨ (fs.readdir e.path).isSome = true) ∧
      files' = files ++ e :: more := by
  obtain ⟨new, rfl, hnew⟩ := mem_of_traverse_full hfull hcall
  cases new with
  | nil =>
      rw [List.append_nil, if_neg (by omega)] at h
      obtain ⟨more, rfl, -⟩ := extends_of_traverseEntries h
      refine ⟨entryInfo parent ⟨name, true⟩ st, more, ?_, Or.inl ?_, ?_⟩
      · rw [path_entryInfo, hname]
      · unfold entryInfo
        rw [if_pos rfl]
      · rw [List.append_assoc, List.singleton_append]
  | cons e new =>
      obtain ⟨hpath, hopen⟩ := hnew e List.mem_cons_self
      obtain ⟨more, rfl, -⟩ := extends_of_rest h
      refine ⟨e, new ++ more, hpath, Or.inr (hpath ▸ hopen), ?_⟩
      rw [List.append_assoc, List.cons_append]

/-- A directory whose path does not fit: with a full table nothing is registered, and otherwise an
entry with its cut path. -/
theorem WalkEnd.of_long {name : List UInt8} {st : Stat} {next : List Dirent} {x : TreeNode}
    {xs : List TreeNode} {deeper : List EntryInfo} (hfits : ¬Short (joinPath path name))
    (hcut : fs.stat (fullPath path name) = some st) (hlong : ¬Short x.info.path)
    (hx : x.cut = fullPath path name) (hroom : files.length + n = maxFiles)
    (hcall : traverseDirectory fs fuel (fullPath path name) files = .ok deeper)
    (h : (if maxFiles ≤ deeper.length then .ok deeper
      else traverseEntries fs (traverseDirectory fs fuel) path next
        (deeper ++ [entryInfo path ⟨name, true⟩ st])) = (.ok files' : Except Fault _)) :
    WalkEnd fs n (x :: xs) files files' := by
  have hfull := length_take_of_not_short hfits
  cases n with
  | zero =>
      have hstarts : ¬StartsWithDirectory fs (fullPath path name) := by
        intro hstarts
        have hloop : traverseDirectory fs fuel (fullPath path name) files = .error .loop :=
          traverse_startsWithDirectory hfull hcut hstarts fuel files
        rw [hloop] at hcall
        cases hcall
      cases fuel with
      | zero => cases hcall
      | succ fuel =>
          obtain rfl : files = deeper := Except.ok.inj
            ((traverse_full_table hfull hcut hstarts (by omega) fuel).symm.trans hcall)
          rw [if_pos (by omega)] at h
          obtain rfl := Except.ok.inj h
          refine .fits (List.forall_mem_nil _) ?_ (List.append_nil files).symm
          rintro y ⟨⟩ -
          rwa [hx]
  | succ n =>
      obtain ⟨e, more, hpath, hdir, rfl⟩ := exists_entry_of_full hfull (by omega) rfl hcall h
      refine .cut [] x xs e more rfl (Nat.succ_pos n) (List.forall_mem_nil _) hlong
        (hpath.trans hx.symm) (fun _ => hdir) ?_
      rw [List.map_nil, List.append_nil]

/-- A directory whose path fits: the walk inside, and then the directory itself and the rest. -/
theorem WalkEnd.dir {name : List UInt8} {st : Stat} {next : List Dirent} {inner : List TreeNode}
    {behind : List TreeNode} {deeper : List EntryInfo} (hfits : Short (joinPath path name))
    (hroom : files.length + n = maxFiles) (hend : WalkEnd fs n inner files deeper)
    (h : (if maxFiles ≤ deeper.length then .ok deeper
      else traverseEntries fs (traverseDirectory fs fuel) path next
        (deeper ++ [entryInfo path ⟨name, true⟩ st])) = (.ok files' : Except Fault _))
    (hnext : ∀ {files : List EntryInfo} {n : ℕ}, files.length + n = maxFiles →
      traverseEntries fs (traverseDirectory fs fuel) path next files = .ok files' →
        WalkEnd fs n behind files files') :
    WalkEnd fs n (inner ++ dirNode path name :: behind) files files' := by
  cases hend with
  | cut before x behind e more hxs hlt hshort hlong hpath hdir hfiles =>
      -- the walk was led astray inside, and what comes behind is no matter
      subst hfiles
      rw [hxs, List.append_assoc, List.cons_append]
      obtain ⟨new, rfl, -⟩ := extends_of_rest h
      refine .cut before x _ e (more ++ new) rfl hlt hshort hlong hpath hdir ?_
      rw [List.append_assoc _ (e :: more), List.cons_append]
  | fits hshort hsettles hfiles =>
      subst hfiles
      by_cases hfull : n ≤ inner.length
      · -- the table is full before the directory itself is registered
        have hno : maxFiles ≤ (files ++ (inner.take n).map TreeNode.info).length := by
          rw [List.length_append, List.length_map, List.length_take]
          omega
        rw [if_pos hno] at h
        obtain rfl := Except.ok.inj h
        refine .fits ?_ ?_ ?_
        · rwa [List.take_append_of_le_length hfull]
        · intro x hx hhidden
          obtain hlt | rfl := Nat.lt_or_eq_of_le hfull
          · rw [List.getElem?_append_left hlt] at hx
            exact hsettles x hx hhidden
          · rw [List.getElem?_append_right le_rfl, Nat.sub_self] at hx
            cases hx
            rw [show (dirNode path name).hidden = !decide (Short (joinPath path name)) from rfl,
              decide_eq_true hfits] at hhidden
            cases hhidden
        · rw [List.take_append_of_le_length hfull]
      · have hlt : inner.length < n := Nat.lt_of_not_le hfull
        rw [List.take_of_length_le hlt.le] at hshort h
        have hspare : ¬maxFiles ≤ (files ++ inner.map TreeNode.info).length := by
          rw [List.length_append, List.length_map]
          omega
        rw [if_neg hspare, entryInfo_dir hfits, List.append_assoc,
          ← List.map_singleton (f := TreeNode.info), ← List.map_append] at h
        have hlen : (files ++ (inner ++ [dirNode path name]).map TreeNode.info).length
            + (n - (inner ++ [dirNode path name]).length) = maxFiles := by
          simp only [List.length_append, List.length_map, List.length_singleton]
          omega
        have hall := (hnext hlen h).append (inner ++ [dirNode path name])
          (List.forall_mem_append.mpr ⟨hshort, List.forall_mem_singleton.mpr hfits⟩)
        rw [List.append_assoc, List.singleton_append, Nat.add_sub_cancel'] at hall
        · exact hall
        · rw [List.length_append, List.length_singleton]
          omega

/-- What a walk over a tree has registered when it comes back. -/
theorem walk_cases {listing : Listing} (hfit : Short path) (hpath : Entries fs path listing)
    (hroom : files.length + n = maxFiles)
    (h : traverseEntries fs (traverseDirectory fs fuel) path listing.dirents files = .ok files') :
    WalkEnd fs n (found fs path listing) files files' := by
  induction listing generalizing path files n files' fuel with
  | nil =>
      obtain rfl := Except.ok.inj h
      refine .fits ?_ ?_ ?_
      · rw [show found fs path .nil = [] from rfl, List.take_nil]
        exact List.forall_mem_nil _
      · intro x hx
        cases hx
      · rw [show found fs path .nil = [] from rfl, List.take_nil, List.map_nil, List.append_nil]
  | file name size rest ih =>
      obtain ⟨hname, hstat, hrest⟩ := hpath
      rw [Listing.dirents] at h
      cases hcut : fs.stat (fullPath path name) with
      | none =>
          rw [traverseEntries_cons_none hcut] at h
          rw [found_file_none hcut]
          exact ih hfit hrest hroom h
      | some st =>
          rw [traverseEntries_file hname hcut] at h
          rw [found_file_some hcut]
          cases n with
          | zero =>
              rw [if_pos (by omega)] at h
              obtain rfl := Except.ok.inj h
              refine .fits (List.forall_mem_nil _) ?_ (List.append_nil files).symm
              rintro x ⟨⟩ hhidden
              rw [show (fileNode path name size).hidden = !decide (Short path) from rfl,
                decide_eq_true hfit] at hhidden
              cases hhidden
          | succ n =>
              rw [if_neg (by omega)] at h
              by_cases hfits : Short (joinPath path name)
              · obtain rfl : st = ⟨false, size⟩ :=
                  Option.some.inj (hcut.symm.trans (stat_fullPath hfits hstat))
                rw [entryInfo_file hfits] at h
                have hlen : (files ++ [(fileNode path name size).info]).length + n = maxFiles := by
                  rw [List.length_append, List.length_singleton]
                  omega
                have hend := ih hfit hrest hlen h
                rw [Nat.add_comm]
                exact WalkEnd.append [fileNode path name size]
                  (List.forall_mem_singleton.mpr hfits) hend
              · -- the file's own path is cut off
                obtain ⟨more, rfl, -⟩ := extends_of_traverseEntries h
                refine .cut [] _ _ (entryInfo path ⟨name, false⟩ st) more rfl (Nat.succ_pos n)
                  (List.forall_mem_nil _) hfits (path_entryInfo path ⟨name, false⟩ st) nofun ?_
                rw [List.map_nil, List.append_nil, List.append_assoc, List.singleton_append]
  | dir name sub rest ihsub ihrest =>
      obtain ⟨hname, ⟨size, hstat⟩, hopens, hsub, hrest⟩ := hpath
      rw [Listing.dirents] at h
      by_cases hfits : Short (joinPath path name)
      · have hcut := stat_fullPath hfits hstat
        rw [traverseEntries_dir hname hcut] at h
        rw [found_dir_some hcut]
        obtain ⟨files₁, hcall, hloop⟩ := exists_of_bind h
        cases fuel with
        | zero => cases hcall
        | succ fuel =>
            rw [fullPath_of_short hfits, traverseDirectory_opens hopens] at hcall
            exact .dir hfits hroom (ihsub hfits hsub hroom hcall) hloop (ihrest hfit hrest)
      · cases hcut : fs.stat (fullPath path name) with
        | none =>
            rw [traverseEntries_cons_none hcut] at h
            rw [found_dir_none hfits hcut]
            exact ihrest hfit hrest hroom h
        | some st =>
            obtain ⟨x, xs, hfound, hlong, hhidden, hx⟩ := found_dir_long sub rest hfits hcut
            rw [traverseEntries_dir hname hcut] at h
            rw [hfound]
            obtain ⟨deeper, hcall, hloop⟩ := exists_of_bind h
            exact .of_long hfits hcut hlong hx hroom hcall hloop

end

/-! ## The regular files -/

/-- Two tests that agree on what comes first in each other's selection select the same. -/
theorem take_filter_eq {α : Type} {p q : α → Bool} {l : List α} {n : ℕ}
    (hp : ∀ x ∈ (l.filter p).take n, q x = true) (hq : ∀ x ∈ (l.filter q).take n, p x = true) :
    (l.filter p).take n = (l.filter q).take n := by
  induction l generalizing n with
  | nil => rfl
  | cons x l ih =>
      cases n with
      | zero => rfl
      | succ n =>
          by_cases hpx : p x = true
          · rw [List.filter_cons_of_pos hpx, List.take_succ_cons] at hp
            have hqx : q x = true := hp x List.mem_cons_self
            rw [List.filter_cons_of_pos hqx, List.take_succ_cons] at hq
            rw [List.filter_cons_of_pos hpx, List.filter_cons_of_pos hqx, List.take_succ_cons,
              List.take_succ_cons, ih (fun y hy => hp y (List.mem_cons_of_mem _ hy))
                fun y hy => hq y (List.mem_cons_of_mem _ hy)]
          · have hqx : ¬q x = true := by
              intro hqx
              rw [List.filter_cons_of_pos hqx, List.take_succ_cons] at hq
              exact hpx (hq x List.mem_cons_self)
            rw [List.filter_cons_of_neg hpx] at hp ⊢
            rw [List.filter_cons_of_neg hqx] at hq ⊢
            exact ih hp hq

section
variable {fs : FileSystem} {path : List UInt8} {listing : Listing}

/-- A node that is a file. -/
def TreeNode.isFile (x : TreeNode) : Bool := x.info.type = .file

theorem regularFiles_eq (path : List UInt8) (listing : Listing) :
    regularFiles path listing = ((nodes path listing).filter TreeNode.isFile).map TreeNode.info :=
  List.filter_map

/-- The path of a node leads to what the node is. -/
theorem stat_of_mem_nodes (h : Entries fs path listing) {x : TreeNode}
    (hx : x ∈ nodes path listing) :
    ∃ size, fs.stat x.info.path = some ⟨decide (x.info.type = .directory), size⟩ := by
  induction listing generalizing path with
  | nil => cases hx
  | file name size rest ih =>
      obtain ⟨-, hstat, hrest⟩ := h
      obtain rfl | hx := List.mem_cons.mp hx
      · exact ⟨size, hstat⟩
      · exact ih hrest hx
  | dir name sub rest ihsub ihrest =>
      obtain ⟨-, hstat, -, hsub, hrest⟩ := h
      obtain hx | hx := List.mem_append.mp hx
      · exact ihsub hsub hx
      · obtain rfl | hx := List.mem_cons.mp hx
        · exact hstat
        · exact ihrest hrest hx

theorem stat_of_mem_regularFiles (h : Entries fs path listing) {e : EntryInfo}
    (he : e ∈ regularFiles path listing) :
    e.type = .file ∧ ∃ size, fs.stat e.path = some ⟨false, size⟩ := by
  rw [regularFiles_eq] at he
  obtain ⟨x, hx, rfl⟩ := List.mem_map.mp he
  obtain ⟨hmem, hfile⟩ := List.mem_filter.mp hx
  have htype : x.info.type = .file := of_decide_eq_true hfile
  have hstat := stat_of_mem_nodes h hmem
  rw [htype] at hstat
  exact ⟨htype, hstat⟩

/-- What fits leads somewhere. -/
theorem isSome_cut (h : Entries fs path listing) {x : TreeNode} (hx : x ∈ nodes path listing)
    (hshort : Short x.info.path) : (fs.stat x.cut).isSome = true := by
  obtain ⟨size, hstat⟩ := stat_of_mem_nodes h hx
  rw [TreeNode.cut_of_short hshort, hstat]
  rfl

end

/-- The entries of the table are those that the walk has registered. -/
def Registers (files : List EntryInfo) (table : FileList) : Prop :=
  table.entries.map (fun f => (f.path, f.size, f.ext)) = files.map fun e => (e.path, e.size, e.ext)

/-- The walk registers the regular files of the tree, each once, up to `MAX_FILES`, and what
`router_handle` serves of the registered entries is a regular file. -/
def ServesFiles (fs : FileSystem) (root : List UInt8) (listing : Listing) : Prop :=
  ∃ fuel files, traverseDirectory fs fuel root [] = .ok files ∧
    files = (regularFiles root listing).take maxFiles ∧
    ∀ (V : Type) (g : CtlFunMap V) (table : FileList) (req : Request) (f : FileInfo),
      Registers files table → routerHandle g table req = .ok (.static f) → f ∈ table.entries →
        ∃ size, fs.stat f.path = some ⟨false, size⟩

section
variable {fs : FileSystem} {root : List UInt8} {listing : Listing}

/-- What is served of regular files is a regular file. -/
theorem stat_of_registers (h : Entries fs root listing) {files : List EntryInfo}
    (hfiles : ∀ e ∈ files, e ∈ regularFiles root listing) {table : FileList}
    (hregisters : Registers files table) {f : FileInfo} (hf : f ∈ table.entries) :
    ∃ size, fs.stat f.path = some ⟨false, size⟩ := by
  have hmem := List.mem_map_of_mem (f := fun f : FileInfo => (f.path, f.size, f.ext)) hf
  rw [hregisters] at hmem
  obtain ⟨e, he, heq⟩ := List.mem_map.mp hmem
  obtain ⟨-, size, hstat⟩ := stat_of_mem_regularFiles h (hfiles e he)
  refine ⟨size, ?_⟩
  rw [← (Prod.mk.inj heq).1, hstat]

/-- The first nodes that are found are the first regular files, when they are files and those
files have paths that fit. -/
theorem take_found (h : Entries fs root listing) {n : ℕ}
    (htype : ∀ x ∈ (found fs root listing).take n, x.info.type = .file)
    (hshort : ∀ e ∈ (regularFiles root listing).take n, Short e.path) :
    (found fs root listing).take n = ((nodes root listing).filter TreeNode.isFile).take n := by
  refine take_filter_eq (fun x hx => decide_eq_true (htype x hx)) fun x hx => ?_
  refine isSome_cut h (List.mem_of_mem_filter (List.mem_of_mem_take hx)) (hshort x.info ?_)
  rw [regularFiles_eq, ← List.map_take]
  exact List.mem_map_of_mem hx

/-- A walk that has registered nothing but regular files was not led astray. -/
theorem WalkEnd.of_regular {files : List EntryInfo} (h : Entries fs root listing)
    (hshort : ∀ e ∈ (regularFiles root listing).take maxFiles, Short e.path)
    (hmem : ∀ e ∈ files, e ∈ regularFiles root listing)
    (hend : WalkEnd fs maxFiles (found fs root listing) [] files) :
    files = ((found fs root listing).take maxFiles).map TreeNode.info ∧
      Settles fs (found fs root listing)[maxFiles]? := by
  cases hend with
  | fits hfit hsettles hfiles =>
      rw [List.nil_append] at hfiles
      exact ⟨hfiles, hsettles⟩
  | cut before x behind e more hxs hroom hfit hlong hpath hdir hfiles =>
      exfalso
      rw [List.nil_append] at hfiles
      have hregular : ∀ e ∈ files, e.type = .file ∧ ∃ size, fs.stat e.path = some ⟨false, size⟩ :=
        fun e he => stat_of_mem_regularFiles h (hmem e he)
      cases htype : x.info.type with
      | file =>
          -- the nodes up to it are the first regular files, whose paths fit
          have htake : (found fs root listing).take (before.length + 1) = before ++ [x] := by
            rw [hxs, List.take_append, List.take_of_length_le (Nat.le_succ _),
              Nat.add_sub_cancel_left, List.take_succ_cons, List.take_zero]
          have hfirst : ∀ e ∈ (regularFiles root listing).take (before.length + 1), Short e.path :=
            fun e he => hshort e (List.take_subset_take_left _ hroom he)
          have hfile : ∀ y ∈ (found fs root listing).take (before.length + 1),
              y.info.type = .file := by
            rw [htake, List.forall_mem_append, List.forall_mem_singleton]
            refine ⟨fun y hy => (hregular y.info ?_).1, htype⟩
            rw [hfiles]
            exact List.mem_append_left _ (List.mem_map_of_mem hy)
          refine hlong (hfirst x.info ?_)
          rw [regularFiles_eq, ← List.map_take, ← take_found h hfile hfirst, htake]
          exact List.mem_map_of_mem (List.mem_append_right _ (List.mem_singleton_self x))
      | directory =>
          -- the entry in its place is a directory, or its path is that of one
          obtain ⟨hefile, size, hestat⟩ := hregular e (by
            rw [hfiles]
            exact List.mem_append_right _ List.mem_cons_self)
          obtain hedir | hopen := hdir htype
          · rw [hefile] at hedir
            cases hedir
          · obtain ⟨entries, hentries⟩ := Option.isSome_iff_exists.mp hopen
            obtain ⟨st, hst, hstdir⟩ := fs.isDir_of_readdir _ _ hentries
            rw [hestat] at hst
            cases hst
            cases hstdir

end

/-- A static directory with a file and an empty directory. -/
def siteListing : Listing := .file (bytes "a.js") 3 (.dir (bytes "img") .nil .nil)

@[inherit_doc siteListing] def siteFs : FileSystem where
  stat path :=
    if path = bytes "/s/a.js" then some ⟨false, 3⟩
    else if path = bytes "/s" ∨ path = bytes "/s/img" then some ⟨true, 0⟩
    else none
  readdir path :=
    if path = bytes "/s" then
      some [⟨bytes ".", true⟩, ⟨bytes "a.js", false⟩, ⟨bytes "..", true⟩, ⟨bytes "img", true⟩]
    else if path = bytes "/s/img" then some [⟨bytes ".", true⟩, ⟨bytes "..", true⟩]
    else none
  isDir_of_readdir path entries h := by
    split at h
    · next heq =>
      subst heq
      exact ⟨⟨true, 0⟩, rfl, rfl⟩
    · split at h
      · next heq =>
        subst heq
        exact ⟨⟨true, 0⟩, rfl, rfl⟩
      · cases h

theorem shows_site : Shows siteFs (bytes "/s") siteListing where
  opens := ⟨_, rfl, rfl⟩
  entries := ⟨by decide, rfl, by decide, ⟨0, rfl⟩, ⟨_, rfl, rfl⟩, trivial, trivial⟩
