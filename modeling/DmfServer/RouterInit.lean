/-
# The urls of the static files

`router_init` puts the path of the static directory together from the working directory, walks
it, and registers for every entry the url that begins at the first `/` of its path.  Where the
working directory is absolute that is the whole path: an url names the place where the server was
started (`routerInit_spec`).

`sameUrls_iff`: two servers with the same tree under their working directories register the same
urls exactly when both come through, and neither of them has an url, or both were started in the
same directory.
-/
import DmfServer.Directory

open CMem

/-- The sizes of `buffer` and of `static_dir`, and of `url`. -/
def cwdSize : ℕ := 1024
@[inherit_doc cwdSize] def urlSize : ℕ := 512

/-- The size of `content_type`. -/
def contentTypeSize : ℕ := 64

/-- A `strcpy` into an array that is zero. -/
def copyInto (size : ℕ) (s : List UInt8) : Except Fault (List UInt8) :=
  if s.length < size then .ok s else .error .write

theorem isText_getContentType (ext : List UInt8) : IsText (getContentType ext) := by
  have hall : ∀ t ∈ bytes "application/octet-stream" :: contentTypes.map Prod.snd, IsText t := by
    decide
  exact hall _ (getContentType_mem ext)

/-- The entry with the content type of its extension and the url. -/
def fileInfo (e : EntryInfo) (url : List UInt8) : FileInfo where
  path := e.path
  size := e.size
  ext := e.ext
  contentType := getContentType e.ext
  url := url
  contentType_text := isText_getContentType e.ext

/-- The loop of `router_init` over one entry. -/
def registerEntry (e : EntryInfo) : Except Fault FileInfo := do
  let _ ← copyInto contentTypeSize (getContentType e.ext)
  match strstr e.path [Ascii.slash] with
  | none => .error .null
  | some url =>
      let url ← copyInto urlSize url
      .ok (fileInfo e url)

/-- `router_init`, as far as the static files go: the entries up to `g_num_files`. -/
def routerInitFiles (fs : FileSystem) (fuel : ℕ) (cwd staticDir : List UInt8) :
    Except Fault (List FileInfo) :=
  if cwdSize ≤ cwd.length then .ok [] -- `getcwd` has no room for the path
  else do
    let static_dir ← Block.catAll cwdSize [cwd, [Ascii.slash], staticDir]
    let files ← traverseDirectory fs fuel (static_dir.str 0) []
    files.mapM registerEntry

/-! ## One entry -/

section
variable {e : EntryInfo}

theorem length_getContentType (ext : List UInt8) :
    (getContentType ext).length < contentTypeSize := by
  have hall : ∀ t ∈ bytes "application/octet-stream" :: contentTypes.map Prod.snd,
      t.length < contentTypeSize := by decide
  exact hall _ (getContentType_mem ext)

/-- The path begins with a `/`. -/
def Absolute (path : List UInt8) : Prop := path.head? = some Ascii.slash

/-- An absolute path is its own url. -/
theorem registerEntry_eq (h : Absolute e.path) :
    registerEntry e
      = if e.path.length < urlSize then .ok (fileInfo e e.path) else .error .write := by
  obtain ⟨rest, hrest⟩ := List.head?_eq_some_iff.mp h
  have hurl : strstr e.path [Ascii.slash] = some e.path := by
    rw [hrest]
    exact strstr_singleton List.not_mem_nil rest
  unfold registerEntry copyInto
  rw [if_pos (length_getContentType e.ext), ok_bind, hurl]
  dsimp only
  split
  · rfl
  · rfl

/-- Entries with paths that fit are registered with their paths for urls. -/
theorem mapM_registerEntry {files : List EntryInfo}
    (h : ∀ e ∈ files, Absolute e.path ∧ e.path.length < urlSize) :
    files.mapM registerEntry = .ok (files.map fun e => fileInfo e e.path) := by
  induction files with
  | nil => rfl
  | cons e files ih =>
      obtain ⟨habs, hlen⟩ := h e List.mem_cons_self
      rw [List.mapM_cons, registerEntry_eq habs, if_pos hlen, ok_bind,
        ih fun e he => h e (List.mem_cons_of_mem _ he)]
      rfl

/-- When all entries are registered, each one is. -/
theorem exists_of_mapM {files : List EntryInfo} {out : List FileInfo}
    (h : files.mapM registerEntry = .ok out) (he : e ∈ files) :
    ∃ f, registerEntry e = .ok f := by
  induction files generalizing out with
  | nil => cases he
  | cons e' files ih =>
      rw [List.mapM_cons] at h
      obtain ⟨f, hf, hrest⟩ := exists_of_bind h
      obtain ⟨fs, hfs, -⟩ := exists_of_bind hrest
      obtain rfl | he := List.mem_cons.mp he
      · exact ⟨f, hf⟩
      · exact ih hfs he

/-- A path that is registered fits. -/
theorem length_lt_of_mapM {files : List EntryInfo} {out : List FileInfo}
    (h : files.mapM registerEntry = .ok out) (he : e ∈ files) (habs : Absolute e.path) :
    e.path.length < urlSize := by
  obtain ⟨f, hf⟩ := exists_of_mapM h he
  rw [registerEntry_eq habs] at hf
  split at hf
  · assumption
  · cases hf

end

/-! ## Paths from the root on -/

/-- The paths of the nodes of a tree, from its root on. -/
def relPaths (listing : Listing) : List (List UInt8) := (nodes [] listing).map (·.info.path)

/-- The path from the root on leads somewhere, cut off or not. -/
def leads (fs : FileSystem) (root path : List UInt8) : Bool :=
  (fs.stat ((root ++ path).take (maxPathLength - 1))).isSome

theorem map_path_nodes (root path : List UInt8) (listing : Listing) :
    (nodes (root ++ path) listing).map (·.info.path)
      = (nodes path listing).map fun x => root ++ x.info.path := by
  have hjoin : ∀ path name, joinPath (root ++ path) name = root ++ joinPath path name :=
    fun path name => List.append_assoc _ _ _
  induction listing generalizing path with
  | nil => rfl
  | file name size rest ih =>
      rw [nodes, nodes, List.map_cons, List.map_cons, ih]
      congr 1
      exact hjoin path name
  | dir name sub rest ihsub ihrest =>
      rw [nodes, nodes, List.map_append, List.map_append, List.map_cons, List.map_cons, ihrest,
        hjoin, ihsub]

theorem map_path_root (root : List UInt8) (listing : Listing) :
    (nodes root listing).map (·.info.path) = (relPaths listing).map (root ++ ·) := by
  have h := map_path_nodes root [] listing
  rw [List.append_nil] at h
  rw [h, relPaths, List.map_map]
  rfl

/-- The paths of the nodes that are found. -/
theorem map_path_found (fs : FileSystem) (root : List UInt8) (listing : Listing) :
    (found fs root listing).map (·.info.path)
      = ((relPaths listing).filter (leads fs root)).map (root ++ ·) := by
  have h : (found fs root listing).map (·.info.path)
      = ((nodes root listing).map (·.info.path)).filter fun path =>
        (fs.stat (path.take (maxPathLength - 1))).isSome := by
    rw [List.filter_map]
    rfl
  rw [h, map_path_root, List.filter_map]
  rfl

/-- A path that fits leads somewhere. -/
theorem leads_of_short {fs : FileSystem} {root : List UInt8} {listing : Listing}
    (h : Entries fs root listing) {path : List UInt8} (hpath : path ∈ relPaths listing)
    (hshort : Short (root ++ path)) : leads fs root path = true := by
  have hmem := List.mem_map_of_mem (f := (root ++ ·)) hpath
  rw [← map_path_root] at hmem
  obtain ⟨x, hx, heq⟩ := List.mem_map.mp hmem
  rw [← heq] at hshort
  have hcut := isSome_cut h hx hshort
  unfold TreeNode.cut at hcut
  rw [heq] at hcut
  exact hcut

/-! ## One server -/

/-- The path of the static directory. -/
def staticRoot (cwd staticDir : List UInt8) : List UInt8 := cwd ++ Ascii.slash :: staticDir

/-- A server: the file system of its machine, and the directory in which it was started, with the
tree of the static files beneath it. -/
structure Site (staticDir : List UInt8) (listing : Listing) where
  fs : FileSystem
  cwd : List UInt8
  cwd_text : IsText cwd
  absolute : Absolute cwd
  shows : Shows fs (staticRoot cwd staticDir) listing

section
variable {staticDir : List UInt8} {listing : Listing}

/-- The path of its static directory. -/
def Site.root (s : Site staticDir listing) : List UInt8 := staticRoot s.cwd staticDir

/-- It comes through: its working directory has no room in the buffer, or the path of the static
directory has, the first `MAX_FILES` nodes that are found have room for their urls, and the next
one does not lead the walk astray. -/
def Site.Runs (s : Site staticDir listing) : Prop :=
  cwdSize ≤ s.cwd.length ∨ s.root.length < cwdSize ∧
    (∀ x ∈ (found s.fs s.root listing).take maxFiles, x.info.path.length < urlSize) ∧
    Settles s.fs (found s.fs s.root listing)[maxFiles]?

/-- It has no static files to register. -/
def Site.Silent (s : Site staticDir listing) : Prop :=
  cwdSize ≤ s.cwd.length ∨ found s.fs s.root listing = []

/-- The urls that it registers: the paths of the first `MAX_FILES` nodes. -/
def Site.urls (s : Site staticDir listing) : List (List UInt8) :=
  if cwdSize ≤ s.cwd.length then []
  else ((found s.fs s.root listing).take maxFiles).map (·.info.path)

theorem absolute_append {root : List UInt8} (habs : Absolute root) (path : List UInt8) :
    Absolute (root ++ path) := by
  obtain ⟨rest, rfl⟩ := List.head?_eq_some_iff.mp habs
  rfl

/-- The paths of the nodes are absolute. -/
theorem Site.absolute_of_mem (s : Site staticDir listing) {x : TreeNode}
    (hx : x ∈ nodes s.root listing) : Absolute x.info.path := by
  have hmem := List.mem_map_of_mem (f := fun x : TreeNode => x.info.path) hx
  rw [map_path_root] at hmem
  obtain ⟨path, -, heq⟩ := List.mem_map.mp hmem
  rw [← heq]
  exact absolute_append (absolute_append s.absolute _) path

theorem absolute_cut {x : TreeNode} (habs : Absolute x.info.path) : Absolute x.cut := by
  obtain ⟨rest, hrest⟩ := List.head?_eq_some_iff.mp habs
  unfold TreeNode.cut
  rw [hrest]
  rfl

theorem mem_nodes_of_mem_found {fs : FileSystem} {root : List UInt8} {n : ℕ} {x : TreeNode}
    (hx : x ∈ (found fs root listing).take n) : x ∈ nodes root listing :=
  List.mem_of_mem_filter (List.mem_of_mem_take hx)

/-- `static_dir`, when it has room for its path, and when it has not. -/
theorem staticDir_cases {cwd : List UInt8} (hcwd : IsText cwd) (hdir : IsText staticDir) :
    (staticRoot cwd staticDir).length < cwdSize ∧
      (∃ b, Block.catAll cwdSize [cwd, [Ascii.slash], staticDir] = .ok b ∧
        b.str 0 = staticRoot cwd staticDir) ∨
    ¬(staticRoot cwd staticDir).length < cwdSize ∧
      Block.catAll cwdSize [cwd, [Ascii.slash], staticDir] = .error .write := by
  have hparts : ∀ s ∈ [cwd, [Ascii.slash], staticDir], IsText s := by
    simp only [List.forall_mem_cons]
    exact ⟨hcwd, by decide, hdir, List.forall_mem_nil _⟩
  have hflat : [cwd, [Ascii.slash], staticDir].flatten = staticRoot cwd staticDir := by
    simp [staticRoot]
  by_cases hroom : (staticRoot cwd staticDir).length < cwdSize
  · left
    rw [← hflat] at hroom ⊢
    exact ⟨hroom, Block.catAll_eq hparts hroom⟩
  · right
    refine ⟨hroom, ?_⟩
    rw [Block.catAll_cons hparts, hflat, Block.strcpy_eq_error (by omega)]

/-- The nodes that have room for their urls are registered with their paths for urls. -/
theorem Site.mapM_register (s : Site staticDir listing)
    (h : ∀ x ∈ (found s.fs s.root listing).take maxFiles, x.info.path.length < urlSize) :
    (((found s.fs s.root listing).take maxFiles).map TreeNode.info).mapM registerEntry
      = .ok (((found s.fs s.root listing).take maxFiles).map fun x =>
          fileInfo x.info x.info.path) := by
  rw [mapM_registerEntry, List.map_map]
  · rfl
  · intro e he
    obtain ⟨x, hx, rfl⟩ := List.mem_map.mp he
    exact ⟨s.absolute_of_mem (mem_nodes_of_mem_found hx), h x hx⟩

/-- A server that comes through registers its urls. -/
theorem Site.exists_routerInitFiles (s : Site staticDir listing) (hdir : IsText staticDir)
    (hruns : s.Runs) : ∃ fuel out, routerInitFiles s.fs fuel s.cwd staticDir = .ok out ∧
      out.map FileInfo.url = s.urls := by
  unfold Site.urls
  by_cases hlong : cwdSize ≤ s.cwd.length
  · rw [if_pos hlong]
    exact ⟨0, [], if_pos hlong, rfl⟩
  · rw [if_neg hlong]
    obtain ⟨hroom, hshort, hsettles⟩ := hruns.resolve_left hlong
    obtain ⟨-, b, hcat, hstr⟩ | ⟨hno, -⟩ := staticDir_cases s.cwd_text hdir
    · have hfits : ∀ x ∈ (found s.fs s.root listing).take maxFiles, Short x.info.path :=
        fun x hx => Nat.lt_of_lt_of_le (hshort x hx) (show urlSize ≤ maxPathLength by decide)
      obtain ⟨fuel, hwalk⟩ := traverseDirectory_ok s.shows hfits hsettles
      refine ⟨fuel, ((found s.fs s.root listing).take maxFiles).map fun x =>
        fileInfo x.info x.info.path, ?_, ?_⟩
      · unfold routerInitFiles
        rw [if_neg hlong, hcat, ok_bind, hstr,
          show traverseDirectory s.fs fuel (staticRoot s.cwd staticDir) [] = _ from hwalk, ok_bind]
        exact s.mapM_register hshort
      · rw [List.map_map]
        rfl
    · exact absurd hroom hno

/-- When every entry of a walk is registered, the walk was not led astray, and the urls have
room. -/
theorem Site.fits_of_registered (s : Site staticDir listing) {files : List EntryInfo}
    {out : List FileInfo} (hregister : files.mapM registerEntry = .ok out)
    (hend : WalkEnd s.fs maxFiles (found s.fs s.root listing) [] files) :
    (∀ x ∈ (found s.fs s.root listing).take maxFiles, x.info.path.length < urlSize) ∧
      Settles s.fs (found s.fs s.root listing)[maxFiles]? ∧
      files = ((found s.fs s.root listing).take maxFiles).map TreeNode.info := by
  cases hend with
  | fits hfit hsettles hfiles =>
      rw [List.nil_append] at hfiles
      subst hfiles
      refine ⟨fun x hx => ?_, hsettles, rfl⟩
      exact length_lt_of_mapM hregister (List.mem_map_of_mem hx)
        (s.absolute_of_mem (mem_nodes_of_mem_found hx))
  | cut before x behind e more hxs hroom hfit hlong hpath hdir hfiles =>
      -- an entry with a cut path has no room for its url
      exfalso
      have hx : x ∈ nodes s.root listing := by
        refine List.mem_of_mem_filter (p := fun x => (s.fs.stat x.cut).isSome) ?_
        rw [show (nodes s.root listing).filter _ = _ from hxs]
        exact List.mem_append_right _ List.mem_cons_self
      have he : e ∈ files := by
        rw [hfiles]
        exact List.mem_append_right _ List.mem_cons_self
      have hcut := absolute_cut (s.absolute_of_mem hx)
      rw [← hpath] at hcut
      have hlt := length_lt_of_mapM hregister he hcut
      rw [hpath, TreeNode.cut, length_take_of_not_short hlong] at hlt
      exact absurd hlt (by decide)

/-- A server that has come through has registered its urls. -/
theorem Site.routerInit_spec (s : Site staticDir listing) (hdir : IsText staticDir) {fuel : ℕ}
    {out : List FileInfo} (hrun : routerInitFiles s.fs fuel s.cwd staticDir = .ok out) :
    s.Runs ∧ out.map FileInfo.url = s.urls := by
  unfold routerInitFiles at hrun
  unfold Site.Runs Site.urls
  by_cases hlong : cwdSize ≤ s.cwd.length
  · rw [if_pos hlong] at hrun ⊢
    obtain rfl := Except.ok.inj hrun
    exact ⟨Or.inl hlong, rfl⟩
  · rw [if_neg hlong] at hrun ⊢
    obtain ⟨hroom, b, hcat, hstr⟩ | ⟨-, hcat⟩ := staticDir_cases s.cwd_text hdir
    · rw [hcat, ok_bind, hstr] at hrun
      obtain ⟨files, hwalk, hregister⟩ := exists_of_bind hrun
      cases fuel with
      | zero => cases hwalk
      | succ fuel =>
          rw [traverseDirectory_opens s.shows.opens] at hwalk
          have hend := walk_cases hroom s.shows.entries (Nat.zero_add maxFiles) hwalk
          obtain ⟨hurls, hsettles, rfl⟩ := s.fits_of_registered hregister hend
          refine ⟨Or.inr ⟨hroom, hurls, hsettles⟩, ?_⟩
          obtain rfl := Except.ok.inj ((s.mapM_register hurls).symm.trans hregister)
          rw [List.map_map]
          rfl
    · rw [hcat] at hrun
      cases hrun

end

/-! ## Two servers -/

section
variable {staticDir : List UInt8} {listing : Listing}

/-- The two servers come through, and register the same set of urls. -/
def SameUrls (s₁ s₂ : Site staticDir listing) : Prop :=
  ∃ fuel₁ fuel₂ out₁ out₂, routerInitFiles s₁.fs fuel₁ s₁.cwd staticDir = .ok out₁ ∧
    routerInitFiles s₂.fs fuel₂ s₂.cwd staticDir = .ok out₂ ∧
    ∀ url, (∃ f ∈ out₁, f.url = url) ↔ ∃ f ∈ out₂, f.url = url

/-- The paths from the root on of the nodes that are registered. -/
def Site.taken (s : Site staticDir listing) : List (List UInt8) :=
  ((relPaths listing).filter (leads s.fs s.root)).take maxFiles

/-- The urls of a server that has some. -/
theorem Site.urls_eq (s : Site staticDir listing) (h : s.cwd.length < cwdSize) :
    s.urls = s.taken.map (s.root ++ ·) := by
  unfold urls taken
  rw [if_neg (Nat.not_le_of_lt h), List.map_take, map_path_found, List.map_take]

theorem Site.urls_eq_nil_iff (s : Site staticDir listing) : s.urls = [] ↔ s.Silent := by
  unfold urls Silent
  split
  · next h => simp [h]
  · next h =>
    rw [List.map_eq_nil_iff, List.take_eq_nil_iff]
    simp [h, maxFiles]

/-- The urls of a server that comes through have room. -/
theorem Site.length_lt_of_taken (s : Site staticDir listing) (hcwd : s.cwd.length < cwdSize)
    (hruns : s.Runs) {path : List UInt8} (hpath : path ∈ s.taken) :
    (s.root ++ path).length < urlSize := by
  obtain ⟨-, hurls, -⟩ := hruns.resolve_left (Nat.not_le_of_lt hcwd)
  have hmem := List.mem_map_of_mem (f := (s.root ++ ·)) hpath
  rw [← s.urls_eq hcwd, urls, if_neg (Nat.not_le_of_lt hcwd)] at hmem
  obtain ⟨x, hx, heq⟩ := List.mem_map.mp hmem
  rw [← heq]
  exact hurls x hx

/-- Two servers register the same nodes when what one of them registers fits at the other. -/
theorem taken_eq {s₁ s₂ : Site staticDir listing}
    (h₁ : ∀ path ∈ s₁.taken, Short (s₂.root ++ path))
    (h₂ : ∀ path ∈ s₂.taken, Short (s₁.root ++ path)) : s₁.taken = s₂.taken :=
  take_filter_eq
    (fun path hpath => leads_of_short s₂.shows.entries
      (List.mem_of_mem_filter (List.mem_of_mem_take hpath)) (h₁ path hpath))
    fun path hpath => leads_of_short s₁.shows.entries
      (List.mem_of_mem_filter (List.mem_of_mem_take hpath)) (h₂ path hpath)

/-- The urls of a server are not those of one with a longer path in front of them. -/
theorem not_same_of_lt {s₁ s₂ : Site staticDir listing} (hcwd₁ : s₁.cwd.length < cwdSize)
    (hcwd₂ : s₂.cwd.length < cwdSize) (hruns₁ : s₁.Runs) (hruns₂ : s₂.Runs)
    (hlt : s₁.root.length < s₂.root.length) (hsame : ∀ url, url ∈ s₁.urls ↔ url ∈ s₂.urls) :
    s₁.urls = [] := by
  rw [s₁.urls_eq hcwd₁, s₂.urls_eq hcwd₂] at hsame
  -- a path of the first server is one of the second behind something more
  have hdescend : ∀ path ∈ s₁.taken, ∃ path' ∈ s₂.taken,
      s₂.root ++ path' = s₁.root ++ path := by
    intro path hpath
    exact List.mem_map.mp ((hsame _).mp (List.mem_map_of_mem hpath))
  have hsizes : urlSize = 512 ∧ maxPathLength = 1024 := ⟨rfl, rfl⟩
  have htaken : s₁.taken = s₂.taken := by
    refine taken_eq (fun path hpath => ?_) fun path hpath => ?_
    · obtain ⟨path', -, heq⟩ := hdescend path hpath
      have hlen := congrArg List.length heq
      have hroom := s₁.length_lt_of_taken hcwd₁ hruns₁ hpath
      simp only [List.length_append] at hlen hroom
      unfold Short
      rw [List.length_append]
      omega
    · have hroom := s₂.length_lt_of_taken hcwd₂ hruns₂ hpath
      rw [List.length_append] at hroom
      unfold Short
      rw [List.length_append]
      omega
  -- and that path is a shorter one of the first server too, without end
  have hnone : ∀ n, ∀ path ∈ s₁.taken, path.length ≠ n := by
    intro n
    induction n using Nat.strong_induction_on with
    | _ n ih =>
        rintro path hpath rfl
        obtain ⟨path', hpath', heq⟩ := hdescend path hpath
        have hlen := congrArg List.length heq
        simp only [List.length_append] at hlen
        exact ih path'.length (by omega) path' (htaken ▸ hpath') rfl
  have hempty : s₁.taken = [] := List.eq_nil_iff_forall_not_mem.mpr fun path hpath =>
    hnone path.length path hpath rfl
  rw [s₁.urls_eq hcwd₁, hempty]
  rfl

/-- Two servers with an url have the same urls only if they were started in the same directory. -/
theorem cwd_eq_of_same {s₁ s₂ : Site staticDir listing} (hruns₁ : s₁.Runs) (hruns₂ : s₂.Runs)
    (hsame : ∀ url, url ∈ s₁.urls ↔ url ∈ s₂.urls) (hne : s₁.urls ≠ []) : s₁.cwd = s₂.cwd := by
  obtain ⟨url, hurl⟩ := List.exists_mem_of_ne_nil _ hne
  have hurl₂ := (hsame url).mp hurl
  have hne₂ : s₂.urls ≠ [] := List.ne_nil_of_mem hurl₂
  have hcwd : ∀ {s : Site staticDir listing}, s.urls ≠ [] → s.cwd.length < cwdSize := by
    intro s hs
    by_contra hlong
    exact hs (if_pos (Nat.le_of_not_lt hlong))
  -- an url begins with the path of its server's static directory
  obtain hlt | heq | hgt := Nat.lt_trichotomy s₁.root.length s₂.root.length
  · exact absurd (not_same_of_lt (hcwd hne) (hcwd hne₂) hruns₁ hruns₂ hlt hsame) hne
  · rw [s₁.urls_eq (hcwd hne)] at hurl
    rw [s₂.urls_eq (hcwd hne₂)] at hurl₂
    obtain ⟨path₁, -, h₁⟩ := List.mem_map.mp hurl
    obtain ⟨path₂, -, h₂⟩ := List.mem_map.mp hurl₂
    have hroot : s₁.root = s₂.root := (List.append_inj (h₁.trans h₂.symm) heq).1
    exact List.append_cancel_right hroot
  · exact absurd (not_same_of_lt (hcwd hne₂) (hcwd hne) hruns₂ hruns₁ hgt
      fun url => (hsame url).symm) hne₂

/-- Two servers that were started in the same directory have the same urls. -/
theorem urls_eq_of_cwd {s₁ s₂ : Site staticDir listing} (hruns₁ : s₁.Runs) (hruns₂ : s₂.Runs)
    (hcwd : s₁.cwd = s₂.cwd) : s₁.urls = s₂.urls := by
  by_cases hlong : cwdSize ≤ s₁.cwd.length
  · unfold Site.urls
    rw [if_pos hlong, if_pos (hcwd ▸ hlong)]
  · have hcwd₁ : s₁.cwd.length < cwdSize := Nat.lt_of_not_le hlong
    have hcwd₂ : s₂.cwd.length < cwdSize := hcwd ▸ hcwd₁
    have hroot : s₁.root = s₂.root := by
      unfold Site.root
      rw [hcwd]
    -- what has room for its url at one server fits at the other, and is found there
    have hfits : urlSize ≤ maxPathLength := by decide
    rw [s₁.urls_eq hcwd₁, s₂.urls_eq hcwd₂, hroot, taken_eq]
    · intro path hpath
      rw [← hroot]
      exact Nat.lt_of_lt_of_le (s₁.length_lt_of_taken hcwd₁ hruns₁ hpath) hfits
    · intro path hpath
      rw [hroot]
      exact Nat.lt_of_lt_of_le (s₂.length_lt_of_taken hcwd₂ hruns₂ hpath) hfits

/-- Two servers register the same urls exactly when both come through, and neither has a static
file, or both were started in the same directory. -/
theorem sameUrls_iff (hdir : IsText staticDir) (s₁ s₂ : Site staticDir listing) :
    SameUrls s₁ s₂ ↔ s₁.Runs ∧ s₂.Runs ∧ ((s₁.Silent ∧ s₂.Silent) ∨ s₁.cwd = s₂.cwd) := by
  have hurls : ∀ {s : Site staticDir listing} {out : List FileInfo}, out.map FileInfo.url = s.urls →
      ∀ url, (∃ f ∈ out, f.url = url) ↔ url ∈ s.urls := by
    intro s out hout url
    rw [← hout, List.mem_map]
  constructor
  · rintro ⟨fuel₁, fuel₂, out₁, out₂, hrun₁, hrun₂, hsame⟩
    obtain ⟨hruns₁, hout₁⟩ := s₁.routerInit_spec hdir hrun₁
    obtain ⟨hruns₂, hout₂⟩ := s₂.routerInit_spec hdir hrun₂
    refine ⟨hruns₁, hruns₂, ?_⟩
    have hset : ∀ url, url ∈ s₁.urls ↔ url ∈ s₂.urls := fun url =>
      (hurls hout₁ url).symm.trans ((hsame url).trans (hurls hout₂ url))
    by_cases hnil : s₁.urls = []
    · left
      have hnil₂ : s₂.urls = [] := List.eq_nil_iff_forall_not_mem.mpr fun url hurl => by
        have hmem := (hset url).mpr hurl
        rw [hnil] at hmem
        cases hmem
      exact ⟨s₁.urls_eq_nil_iff.mp hnil, s₂.urls_eq_nil_iff.mp hnil₂⟩
    · exact Or.inr (cwd_eq_of_same hruns₁ hruns₂ hset hnil)
  · rintro ⟨hruns₁, hruns₂, hcases⟩
    obtain ⟨fuel₁, out₁, hrun₁, hout₁⟩ := s₁.exists_routerInitFiles hdir hruns₁
    obtain ⟨fuel₂, out₂, hrun₂, hout₂⟩ := s₂.exists_routerInitFiles hdir hruns₂
    have hsame : s₁.urls = s₂.urls := by
      obtain ⟨hsilent₁, hsilent₂⟩ | hcwd := hcases
      · rw [s₁.urls_eq_nil_iff.mpr hsilent₁, s₂.urls_eq_nil_iff.mpr hsilent₂]
      · exact urls_eq_of_cwd hruns₁ hruns₂ hcwd
    refine ⟨fuel₁, fuel₂, out₁, out₂, hrun₁, hrun₂, fun url => ?_⟩
    rw [hurls hout₁, hurls hout₂, hsame]

end

/-- A static directory with one file, under a working directory. -/
def oneFile : Listing := .file (bytes "a.js") 3 .nil

@[inherit_doc oneFile] def oneFileFs (cwd : List UInt8) : FileSystem where
  stat path :=
    if path = cwd ++ bytes "/static" then some ⟨true, 0⟩
    else if path = cwd ++ bytes "/static/a.js" then some ⟨false, 3⟩
    else none
  readdir path :=
    if path = cwd ++ bytes "/static" then some [⟨bytes "a.js", false⟩] else none
  isDir_of_readdir path entries h := by
    split at h
    · next heq => exact ⟨⟨true, 0⟩, if_pos heq, rfl⟩
    · cases h

/-- A server that was started in `/a`. -/
def siteA : Site (bytes "static") oneFile where
  fs := oneFileFs (bytes "/a")
  cwd := bytes "/a"
  cwd_text := by decide
  absolute := rfl
  shows := ⟨⟨_, rfl, rfl⟩, by decide, rfl, trivial⟩

/-- A server that was started in `/b`. -/
def siteB : Site (bytes "static") oneFile where
  fs := oneFileFs (bytes "/b")
  cwd := bytes "/b"
  cwd_text := by decide
  absolute := rfl
  shows := ⟨⟨_, rfl, rfl⟩, by decide, rfl, trivial⟩

/-- The file is `/a/static/a.js` at one server, and `/b/static/a.js` at the other. -/
theorem not_sameUrls_ab : ¬SameUrls siteA siteB := by
  rintro ⟨fuel₁, fuel₂, out₁, out₂, hrun₁, hrun₂, hsame⟩
  have hdir : IsText (bytes "static") := by decide
  obtain ⟨hruns₁, hout₁⟩ := siteA.routerInit_spec hdir hrun₁
  obtain ⟨hruns₂, hout₂⟩ := siteB.routerInit_spec hdir hrun₂
  have hurls : siteA.urls = [bytes "/a/static/a.js"] := rfl
  have hset : ∀ url, url ∈ siteA.urls ↔ url ∈ siteB.urls := by
    intro url
    rw [← hout₁, ← hout₂, List.mem_map, List.mem_map]
    exact hsame url
  have hcwd := cwd_eq_of_same hruns₁ hruns₂ hset (by rw [hurls]; exact List.cons_ne_nil _ _)
  exact absurd hcwd (by decide)

theorem sameUrls_iff_ab : SameUrls siteA siteB ↔
    siteA.Runs ∧ siteB.Runs ∧ ((siteA.Silent ∧ siteB.Silent) ∨ siteA.cwd = siteB.cwd) :=
  sameUrls_iff (by decide) siteA siteB
