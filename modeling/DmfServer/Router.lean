/-
# The router

`g_cmp` holds two arrays of `ContFunNUM` entries, the routes and their handlers;
`router_handle` searches the first one up to its `NULL`, then the static files.
The handlers are of an unknown type `V`: the router only ever calls one.

`strcmp` against `request->path` is equality of C strings.  A path that no NUL ends
inside the character arrays is cut at their end: it is longer than any route or
url, so that `strcmp` has found a difference before it gets there.

A route is copied to a block of its length, without a place for the NUL (`SpareByte`): the
routes that are dispatched as they were registered are those whose block has a byte more
(`routerHandle_apps_iff`).
-/
import DmfServer.RequestRecord

open CMem Ascii

/-- `ContFunNUM` and `MAX_FILES`. -/
def contFunNum : ℕ := 512
@[inherit_doc contFunNum] def maxFiles : ℕ := 500

/-- The size of `appname` in `router_add_app`. -/
def appnameSize : ℕ := 64

/-- `struct FileInfo`. -/
structure FileInfo where
  path : List UInt8
  size : ℕ
  ext : List UInt8
  contentType : List UInt8
  url : List UInt8
  contentType_text : IsText contentType
  deriving DecidableEq

/-- An entry of `g_file_list` that was never filled. -/
def FileInfo.zero : FileInfo where
  path := []
  size := 0
  ext := []
  contentType := []
  url := []
  contentType_text := by decide

/-- `g_file_list` with `g_num_files`: the entries behind the filled ones are zero. -/
structure FileList where
  /-- The filled entries. -/
  entries : List FileInfo
  /-- `traverse_directory` stops at `MAX_FILES`. -/
  length_le : entries.length ≤ maxFiles

/-- `g_num_files`. -/
def FileList.num (files : FileList) : ℕ := files.entries.length

/-- `g_file_list[i]` of an entry of the array. -/
def FileList.at (files : FileList) (i : ℕ) : FileInfo := files.entries.getD i .zero

/-- `g_file_list[i]`. -/
def FileList.get (files : FileList) (i : ℕ) : Except Fault FileInfo :=
  if i < maxFiles then .ok (files.at i) else .error .read

/-- `ctl_fun_map_t`. -/
structure CtlFunMap (V : Type) where
  cf : Vector (Option V) contFunNum
  keys : Vector (Option (List UInt8)) contFunNum
  currNum : ℕ

/-- What `router_handle` calls. -/
inductive Target (V : Type) : Type where
  | view : V → Target V
  /-- `res_static` with the fields of the entry. -/
  | static : FileInfo → Target V
  | notfound : Target V
  deriving DecidableEq

variable {V : Type}

/-! ## Content types -/

/-- The extensions `get_content_type` knows, with what it returns for them. -/
def contentTypes : List (List UInt8 × List UInt8) :=
  [(bytes "html", bytes "text/html"), (bytes "htm", bytes "text/html"),
    (bytes "txt", bytes "text/plain"), (bytes "css", bytes "text/css"),
    (bytes "js", bytes "application/javascript"), (bytes "json", bytes "application/json"),
    (bytes "xml", bytes "application/xml"), (bytes "gif", bytes "image/gif"),
    (bytes "jpg", bytes "image/jpeg"), (bytes "jpeg", bytes "image/jpeg"),
    (bytes "png", bytes "image/png"), (bytes "bmp", bytes "image/bmp"),
    (bytes "ico", bytes "image/x-icon"), (bytes "pdf", bytes "application/pdf"),
    (bytes "doc", bytes "application/msword"), (bytes "docx", bytes "application/msword"),
    (bytes "xls", bytes "application/vnd.ms-excel"),
    (bytes "xlsx", bytes "application/vnd.ms-excel"),
    (bytes "ppt", bytes "application/vnd.ms-powerpoint"),
    (bytes "pptx", bytes "application/vnd.ms-powerpoint"), (bytes "mp4", bytes "audio/mp4")]

/-- `tolower`. -/
def toLower (c : UInt8) : UInt8 := if isUpper c then c + 32 else c

/-- `get_content_type`. -/
def getContentType (fileExt : List UInt8) : List UInt8 :=
  match contentTypes.find? (fun t => fileExt.map toLower = t.1) with
  | some t => t.2
  | none => bytes "application/octet-stream"

theorem getContentType_mem (fileExt : List UInt8) :
    getContentType fileExt ∈ bytes "application/octet-stream" :: contentTypes.map Prod.snd := by
  rw [getContentType]
  split
  · next t ht =>
    exact List.mem_cons_of_mem _ (List.mem_map_of_mem (List.mem_of_find?_eq_some ht))
  · exact List.mem_cons_self

/-! ## Registration -/

/-- `router_init`, as far as the routes go. -/
def routerInit : CtlFunMap V :=
  { cf := Vector.replicate _ none, keys := Vector.replicate _ none, currNum := 0 }

/-- The route string, put together in `appname`. -/
def composeRoute (name key : List UInt8) : Except Fault (List UInt8) := do
  let appname ← (Block.zero appnameSize).strcat 0 (bytes "/")
  let appname ← appname.strcat 0 name
  let appname ← appname.strcat 0 key
  .ok (appname.str 0)

/-- The loop of `router_add_app`, from the entry `at_` of the table on; a route is copied to a
block of its length. -/
def addRoutes (spare : SpareByte) (name : List UInt8) : ℕ → List V → List (List UInt8) →
    CtlFunMap V → Except Fault (CtlFunMap V)
  | _, [], _, g => .ok g
  | at_, f :: cf, keys, g =>
      if h : at_ < contFunNum then
        let g := { g with cf := g.cf.set at_ (some f) }
        match keys with
        | [] => .error .null -- `keys[i]` is the `NULL` that ends a shorter array
        | key :: keys => do
            let appname ← composeRoute name key
            let route ← mallocCopy spare appname
            addRoutes spare name (at_ + 1) cf keys { g with keys := g.keys.set at_ (some route) }
      else .error .write

/-- `router_add_app`; `cf` and `keys` are the arrays up to their `NULL`. -/
def routerAddApp (cf : List V) (keys : List (List UInt8)) (name : List UInt8)
    (g : CtlFunMap V) (spare : SpareByte := ample) : Except Fault (CtlFunMap V) :=
  if 1000 < cf.length then .ok g
  else if 1000 < keys.length then .ok g
  else do
    let g' ← addRoutes spare name g.currNum cf keys g
    .ok { g' with currNum := g.currNum + cf.length }

/-! ## Dispatch -/

/-- The loop over the routes, from some entry of the two arrays on. -/
def searchKeys (path : List UInt8) : List (Option (List UInt8)) → List (Option V) →
    Except Fault (Option V)
  | some key :: keys, f :: cf =>
      if path = key then
        match f with
        | some f => .ok (some f)
        | none => .error .null
      else searchKeys path keys cf
  | none :: _, _ => .ok none
  | _, _ => .error .read

/-- The loop over the entries of the static files with the indices at hand. -/
def searchFiles (files : FileList) (path : List UInt8) : List ℕ →
    Except Fault (Option FileInfo)
  | [] => .ok none
  | i :: is => do
      let f ← files.get i
      if path = f.url then .ok (some f) else searchFiles files path is

/-- `router_handle`; the second loop runs up to and including `g_num_files`. -/
def routerHandle (g : CtlFunMap V) (files : FileList) (req : Request) :
    Except Fault (Target V) := do
  match ← searchKeys req.path g.keys.toList g.cf.toList with
  | some f => .ok (.view f)
  | none =>
      match ← searchFiles files req.path (List.range (files.num + 1)) with
      | some f => .ok (.static f)
      | none => .ok .notfound

/-! ## The table as a list of routes -/

/-- A route and its handler. -/
structure Route (V : Type) where
  key : List UInt8
  view : V

/-- What an application registers, within the limits of `appname`. -/
structure App (V : Type) where
  cf : List V
  keys : List (List UInt8)
  name : List UInt8
  same_length : cf.length = keys.length
  name_text : IsText name
  keys_text : ∀ key ∈ keys, IsText key
  route_length : ∀ key ∈ keys, (bytes "/" ++ name ++ key).length < appnameSize

/-- The routes of an application, in the order of its arrays. -/
def App.routes (app : App V) : List (Route V) :=
  List.zipWith (fun f key => ⟨bytes "/" ++ app.name ++ key, f⟩) app.cf app.keys

/-- The routes of applications registered one after the other. -/
def appRoutes (apps : List (App V)) : List (Route V) := apps.flatMap App.routes

/-- `router_add_app` for one application after the other. -/
def routerAddApps (g : CtlFunMap V) (apps : List (App V)) (spare : SpareByte := ample) :
    Except Fault (CtlFunMap V) :=
  apps.foldlM (fun g app => routerAddApp app.cf app.keys app.name g spare) g

/-- The table holds the routes, in this order, and `NULL` behind them. -/
structure CtlFunMap.Holds (g : CtlFunMap V) (routes : List (Route V)) : Prop where
  room : routes.length ≤ contFunNum
  keys : g.keys.toList = routes.map (fun r => some r.key) ++
    List.replicate (contFunNum - routes.length) none
  cf : g.cf.toList = routes.map (fun r => some r.view) ++
    List.replicate (contFunNum - routes.length) none

/-- The entries before `curr_num` are set, and the routes behind are `NULL`. -/
def CtlFunMap.KeepsSentinel (g : CtlFunMap V) : Prop :=
  ∀ i : Fin contFunNum, (i < g.currNum → g.keys[i] ≠ none ∧ g.cf[i] ≠ none) ∧
    (g.currNum ≤ i → g.keys[i] = none)

theorem holds_routerInit : (routerInit : CtlFunMap V).Holds [] where
  room := Nat.zero_le _
  keys := by simp [routerInit]
  cf := by simp [routerInit]

theorem composeRoute_eq {name key : List UInt8} (hname : IsText name) (hkey : IsText key)
    (hlen : (bytes "/" ++ name ++ key).length < appnameSize) :
    composeRoute name key = .ok (bytes "/" ++ name ++ key) := by
  have hslash : IsText (bytes "/") := by decide
  have htext : IsText (bytes "/" ++ name ++ key) :=
    isText_append.mpr ⟨isText_append.mpr ⟨hslash, hname⟩, hkey⟩
  obtain ⟨b, hb⟩ : ∃ b, (Block.zero appnameSize).strcat 0 (bytes "/" ++ name ++ key) = .ok b := by
    rw [Block.strcat_eq, Block.str_zero]
    exact Block.strcpy_eq_ok (by rw [List.length_nil]; omega)
  have hjoin : ((Block.zero appnameSize).strcat 0 (bytes "/") >>= fun b =>
      b.strcat 0 name >>= fun b => b.strcat 0 key) = .ok b := by
    rw [← bind_assoc, Block.strcat_strcat _ _ hslash,
      Block.strcat_strcat _ _ (isText_append.mpr ⟨hslash, hname⟩), hb]
  have hstr : b.str 0 = bytes "/" ++ name ++ key := by
    rw [Block.str_strcat htext hb, Block.str_zero, List.nil_append]
  have hrun : composeRoute name key
      = ((Block.zero appnameSize).strcat 0 (bytes "/") >>= fun b =>
          b.strcat 0 name >>= fun b => b.strcat 0 key) >>= fun b => .ok (b.str 0) := by
    simp only [composeRoute, bind_assoc]
  rw [hrun, hjoin, ok_bind, hstr]

/-- An entry set behind the filled ones. -/
theorem set_append_replicate {α : Type} (l : List α) {n : ℕ} (x y : α) (h : l.length < n) :
    (l ++ List.replicate (n - l.length) y).set l.length x
      = l ++ [x] ++ List.replicate (n - (l ++ [x]).length) y := by
  obtain ⟨k, hk⟩ : ∃ k, n - l.length = k + 1 := ⟨n - l.length - 1, by omega⟩
  rw [hk, List.replicate_succ, List.set_append_right _ _ le_rfl, Nat.sub_self, List.set_cons_zero,
    List.append_assoc, List.singleton_append, List.length_append, List.length_singleton,
    show n - (l.length + 1) = k from by omega]

/-- One round of the loop of `router_add_app`. -/
theorem CtlFunMap.Holds.set {g : CtlFunMap V} {routes : List (Route V)} (h : g.Holds routes)
    (r : Route V) (hroom : routes.length < contFunNum) :
    CtlFunMap.Holds { g with
      cf := g.cf.set routes.length (some r.view)
      keys := g.keys.set routes.length (some r.key) } (routes ++ [r]) where
  room := by
    rw [List.length_append, List.length_singleton]
    omega
  keys := by
    have hset := set_append_replicate (routes.map fun r => some r.key) (n := contFunNum)
      (some r.key) none (by rwa [List.length_map])
    rw [List.length_map, ← h.keys] at hset
    rw [Vector.toList_set, hset, List.map_append, List.length_append, List.length_append,
      List.length_map]
    rfl
  cf := by
    have hset := set_append_replicate (routes.map fun r => some r.view) (n := contFunNum)
      (some r.view) none (by rwa [List.length_map])
    rw [List.length_map, ← h.cf] at hset
    rw [Vector.toList_set, hset, List.map_append, List.length_append, List.length_append,
      List.length_map]
    rfl

/-- The loop of `router_add_app` appends the routes, if each of them has room. -/
theorem addRoutes_eq {spare : SpareByte} {name : List UInt8} (hname : IsText name) {cf : List V}
    {keys : List (List UInt8)} (hlen : cf.length = keys.length)
    (hkeys : ∀ key ∈ keys, IsText key)
    (hroute : ∀ key ∈ keys, (bytes "/" ++ name ++ key).length < appnameSize)
    (hspare : ∀ key ∈ keys, spare (bytes "/" ++ name ++ key).length)
    {g : CtlFunMap V} {routes : List (Route V)} (h : g.Holds routes)
    (hroom : routes.length + cf.length ≤ contFunNum) :
    ∃ g', addRoutes spare name routes.length cf keys g = .ok g' ∧
      g'.Holds (routes ++ List.zipWith (fun f key => ⟨bytes "/" ++ name ++ key, f⟩) cf keys) := by
  induction cf generalizing keys g routes with
  | nil => exact ⟨g, by rw [addRoutes], by simpa using h⟩
  | cons f cf ih =>
      cases keys with
      | nil => simp at hlen
      | cons key keys =>
          rw [List.length_cons] at hroom
          have hlt : routes.length < contFunNum := by omega
          have hset := h.set ⟨bytes "/" ++ name ++ key, f⟩ hlt
          obtain ⟨g', hg', hholds⟩ := ih (by simpa using hlen)
            (fun k hk => hkeys k (List.mem_cons_of_mem _ hk))
            (fun k hk => hroute k (List.mem_cons_of_mem _ hk))
            (fun k hk => hspare k (List.mem_cons_of_mem _ hk)) hset
            (by rw [List.length_append, List.length_singleton]; omega)
          refine ⟨g', ?_, ?_⟩
          · rw [addRoutes, dif_pos hlt]
            simp only [composeRoute_eq hname (hkeys key List.mem_cons_self)
              (hroute key List.mem_cons_self), ok_bind,
              mallocCopy_eq (hspare key List.mem_cons_self)]
            rw [List.length_append, List.length_singleton] at hg'
            exact hg'
          · rwa [List.append_assoc] at hholds

/-- Where it comes to its end each of them has had room. -/
theorem spare_of_addRoutes {spare : SpareByte} {name : List UInt8} (hname : IsText name)
    {cf : List V}
    {keys : List (List UInt8)} (hlen : cf.length = keys.length)
    (hkeys : ∀ key ∈ keys, IsText key)
    (hroute : ∀ key ∈ keys, (bytes "/" ++ name ++ key).length < appnameSize) {at_ : ℕ}
    {g g' : CtlFunMap V} (h : addRoutes spare name at_ cf keys g = .ok g') :
    ∀ key ∈ keys, spare (bytes "/" ++ name ++ key).length := by
  induction cf generalizing keys at_ g with
  | nil =>
      obtain rfl := List.length_eq_zero_iff.mp hlen.symm
      exact List.forall_mem_nil _
  | cons f cf ih =>
      cases keys with
      | nil => simp at hlen
      | cons key keys =>
          rw [addRoutes] at h
          split at h
          · simp only [composeRoute_eq hname (hkeys key List.mem_cons_self)
              (hroute key List.mem_cons_self), ok_bind] at h
            obtain ⟨route, hcopy, h⟩ := exists_of_bind h
            refine List.forall_mem_cons.mpr ⟨(mallocCopy_eq_ok_iff.mp hcopy).1, ?_⟩
            exact ih (by simpa using hlen) (fun k hk => hkeys k (List.mem_cons_of_mem _ hk))
              (fun k hk => hroute k (List.mem_cons_of_mem _ hk)) h
          · cases h

theorem App.length_routes (app : App V) : app.routes.length = app.cf.length := by
  rw [App.routes, List.length_zipWith, app.same_length, Nat.min_self]

/-- The routes of an application, in the order of its keys. -/
theorem App.map_key_routes (app : App V) :
    app.routes.map Route.key = app.keys.map (bytes "/" ++ app.name ++ ·) := by
  have hlen := app.same_length
  apply List.ext_getElem
  · simp [App.routes, hlen]
  · intro i hi hi'
    simp [App.routes]

theorem App.forall_routes {app : App V} {p : List UInt8 → Prop} :
    (∀ r ∈ app.routes, p r.key) ↔ ∀ key ∈ app.keys, p (bytes "/" ++ app.name ++ key) := by
  rw [← List.forall_mem_map, app.map_key_routes, List.forall_mem_map]

/-- One registration appends the routes of its application. -/
theorem routerAddApp_eq {spare : SpareByte} (app : App V)
    (hspare : ∀ r ∈ app.routes, spare r.key.length) {g : CtlFunMap V} {routes : List (Route V)}
    (h : g.Holds routes) (hnum : g.currNum = routes.length)
    (hroom : (routes ++ app.routes).length ≤ contFunNum) :
    ∃ g', routerAddApp app.cf app.keys app.name g spare = .ok g' ∧
      g'.Holds (routes ++ app.routes) ∧ g'.currNum = (routes ++ app.routes).length := by
  rw [List.length_append, app.length_routes] at hroom
  obtain ⟨g', hg', hholds⟩ := addRoutes_eq app.name_text app.same_length app.keys_text
    app.route_length (App.forall_routes (p := fun key => spare key.length = true) |>.mp hspare) h
    hroom
  have hsmall : app.cf.length ≤ 512 := le_trans (Nat.le_add_left _ _) hroom
  refine ⟨{ g' with currNum := g.currNum + app.cf.length }, ?_, ⟨hholds.room, hholds.keys,
    hholds.cf⟩, ?_⟩
  · rw [routerAddApp, if_neg (by omega), if_neg (by rw [← app.same_length]; omega), hnum, hg']
    rfl
  · rw [List.length_append, app.length_routes, hnum]

/-- Registering applications appends their routes, in the order of the calls, if each of the
routes has room. -/
theorem routerAddApps_spare {spare : SpareByte} (apps : List (App V))
    (hspare : ∀ r ∈ appRoutes apps, spare r.key.length) {g : CtlFunMap V}
    {routes : List (Route V)} (h : g.Holds routes) (hnum : g.currNum = routes.length)
    (hroom : (routes ++ appRoutes apps).length ≤ contFunNum) :
    ∃ g', routerAddApps g apps spare = .ok g' ∧ g'.Holds (routes ++ appRoutes apps) ∧
      g'.currNum = (routes ++ appRoutes apps).length := by
  induction apps generalizing g routes with
  | nil => exact ⟨g, rfl, by simpa [appRoutes] using h, by simpa [appRoutes] using hnum⟩
  | cons app apps ih =>
      rw [appRoutes, List.flatMap_cons, ← appRoutes] at hroom hspare ⊢
      rw [← List.append_assoc] at hroom ⊢
      obtain ⟨g₁, hg₁, hholds₁, hnum₁⟩ := routerAddApp_eq app
        (fun r hr => hspare r (List.mem_append_left _ hr)) h hnum (by
          rw [List.length_append] at hroom
          omega)
      obtain ⟨g₂, hg₂, hholds₂, hnum₂⟩ :=
        ih (fun r hr => hspare r (List.mem_append_right _ hr)) hholds₁ hnum₁ hroom
      refine ⟨g₂, ?_, hholds₂, hnum₂⟩
      rw [routerAddApps, List.foldlM_cons, hg₁]
      exact hg₂

theorem routerAddApps_eq (apps : List (App V)) {g : CtlFunMap V} {routes : List (Route V)}
    (h : g.Holds routes) (hnum : g.currNum = routes.length)
    (hroom : (routes ++ appRoutes apps).length ≤ contFunNum) :
    ∃ g', routerAddApps g apps = .ok g' ∧ g'.Holds (routes ++ appRoutes apps) ∧
      g'.currNum = (routes ++ appRoutes apps).length :=
  routerAddApps_spare apps (fun _ _ => rfl) h hnum hroom

/-- The registrations come to their end only if every route has room. -/
theorem spare_of_routerAddApps {spare : SpareByte} {apps : List (App V)}
    (hsmall : (appRoutes apps).length ≤ 1000) {g g' : CtlFunMap V}
    (h : routerAddApps g apps spare = .ok g') :
    ∀ r ∈ appRoutes apps, spare r.key.length := by
  induction apps generalizing g with
  | nil => exact List.forall_mem_nil _
  | cons app apps ih =>
      rw [routerAddApps, List.foldlM_cons] at h
      obtain ⟨g₁, hadd, h⟩ := exists_of_bind h
      rw [appRoutes, List.flatMap_cons, ← appRoutes] at hsmall ⊢
      rw [List.length_append, app.length_routes] at hsmall
      rw [routerAddApp, if_neg (by omega), if_neg (by rw [← app.same_length]; omega)] at hadd
      obtain ⟨g₂, hroutes, -⟩ := exists_of_bind hadd
      have hkeys := spare_of_addRoutes app.name_text app.same_length app.keys_text
        app.route_length hroutes
      have happ := (App.forall_routes (p := fun key => spare key.length = true)).mpr hkeys
      exact List.forall_mem_append.mpr ⟨happ, ih (by omega) h⟩

/-- Where every route has room they come to their end. -/
theorem exists_routerAddApps (spare : SpareByte) (apps : List (App V))
    (hspare : ∀ r ∈ appRoutes apps, spare r.key.length)
    (hsmall : (appRoutes apps).length ≤ contFunNum) :
    ∃ g, routerAddApps routerInit apps spare = .ok g := by
  obtain ⟨g, hg, -⟩ := routerAddApps_spare apps hspare holds_routerInit rfl hsmall
  exact ⟨g, hg⟩

/-- What the registrations leave is the table of their routes. -/
theorem holds_of_routerAddApps {spare : SpareByte} {apps : List (App V)}
    (hsmall : (appRoutes apps).length ≤ contFunNum) {g : CtlFunMap V}
    (h : routerAddApps routerInit apps spare = .ok g) : g.Holds (appRoutes apps) := by
  have hspare := spare_of_routerAddApps (hsmall.trans (by decide)) h
  obtain ⟨g', hg', hholds, -⟩ := routerAddApps_spare apps hspare holds_routerInit rfl hsmall
  obtain rfl := Except.ok.inj (h.symm.trans hg')
  exact hholds

/-! ## Dispatch by the table -/

/-- Where a path leads: the first route with that key, else the first static file with that
url, else nowhere. -/
def target (routes : List (Route V)) (files : FileList) (path : List UInt8) : Target V :=
  match routes.find? (fun r => path = r.key) with
  | some r => .view r.view
  | none =>
      match files.entries.find? (fun f => path = f.url) with
      | some f => .static f
      | none => .notfound

/-- The loop over the routes stops at the first match, or at the `NULL` behind them. -/
theorem searchKeys_eq (path : List UInt8) (routes : List (Route V)) (n : ℕ) :
    searchKeys path (routes.map (fun r => some r.key) ++ List.replicate (n + 1) none)
        (routes.map (fun r => some r.view) ++ List.replicate (n + 1) none)
      = .ok ((routes.find? (fun r => path = r.key)).map Route.view) := by
  induction routes with
  | nil => rfl
  | cons r routes ih =>
      rw [List.map_cons, List.map_cons, List.cons_append, List.cons_append, searchKeys]
      by_cases h : path = r.key
      · rw [if_pos h, List.find?_cons_of_pos (by simpa using h)]
        rfl
      · rw [if_neg h, List.find?_cons_of_neg (by simpa using h), ih]

/-- The loop over static files is a search in the entries it visits. -/
theorem searchFiles_eq (files : FileList) (path : List UInt8) {is : List ℕ}
    (his : ∀ i ∈ is, i < maxFiles) :
    searchFiles files path is = .ok ((is.map files.at).find? (fun f => path = f.url)) := by
  induction is with
  | nil => rfl
  | cons i is ih =>
      rw [searchFiles, FileList.get, if_pos (his i List.mem_cons_self), ok_bind, List.map_cons]
      by_cases h : path = (files.at i).url
      · rw [if_pos h, List.find?_cons_of_pos (by simpa using h)]
      · rw [if_neg h, List.find?_cons_of_neg (by simpa using h),
          ih fun j hj => his j (List.mem_cons_of_mem _ hj)]

/-- The entries the loop visits: the filled ones and a zero one. -/
theorem map_at_range (files : FileList) :
    (List.range (files.num + 1)).map files.at = files.entries ++ [.zero] := by
  refine List.ext_getElem (by simp [FileList.num]) fun i hi hi' => ?_
  rw [List.getElem_map, List.getElem_range, FileList.at, List.getD_eq_getElem?_getD]
  by_cases h : i < files.entries.length
  · rw [List.getElem_append_left h, List.getElem?_eq_getElem h, Option.getD_some]
  · rw [List.getElem_append_right (by omega), List.getElem?_eq_none (by omega)]
    simp

/-- The zero entry behind the files matches no path but the empty one. -/
theorem searchFiles_range {files : FileList} (hroom : files.num < maxFiles)
    {path : List UInt8} (hpath : path ≠ []) :
    searchFiles files path (List.range (files.num + 1))
      = .ok (files.entries.find? (fun f => path = f.url)) := by
  rw [searchFiles_eq, map_at_range, List.find?_append]
  · have hzero : [FileInfo.zero].find? (fun f => path = f.url) = none :=
      List.find?_cons_of_neg (by simp [FileInfo.zero, hpath])
    rw [hzero, Option.or_none]
  · intro i hi
    have := List.mem_range.mp hi
    omega

/-- A table with room for its sentinel leads every path where its routes say. -/
theorem CtlFunMap.Holds.routerHandle_eq {g : CtlFunMap V} {routes : List (Route V)}
    (h : g.Holds routes) (hroom : routes.length < contFunNum) {files : FileList}
    (hfiles : files.num < maxFiles) {req : Request} (hpath : req.path ≠ []) :
    routerHandle g files req = .ok (target routes files req.path) := by
  obtain ⟨k, hk⟩ : ∃ k, contFunNum - routes.length = k + 1 :=
    ⟨contFunNum - routes.length - 1, by omega⟩
  rw [routerHandle, h.keys, h.cf, hk, searchKeys_eq, ok_bind, target]
  cases routes.find? (fun r => req.path = r.key) with
  | some r => rfl
  | none =>
      simp only [Option.map_none]
      rw [searchFiles_range hfiles hpath, ok_bind]
      cases files.entries.find? (fun f => req.path = f.url) <;> rfl

/-- The same behind the registrations, for a request of a path. -/
theorem routerHandle_of_path {spare : SpareByte} {apps : List (App V)} {g : CtlFunMap V}
    (hg : routerAddApps routerInit apps spare = .ok g)
    (hsmall : (appRoutes apps).length < contFunNum) {files : FileList}
    (hfiles : files.num < maxFiles) {req : Request} {path : List UInt8} (hpath : req.path = path)
    (hne : path ≠ []) : routerHandle g files req = .ok (target (appRoutes apps) files path) := by
  have hholds := holds_of_routerAddApps hsmall.le hg
  rw [hholds.routerHandle_eq hsmall hfiles (hpath ▸ hne), hpath]

/-- A table that holds as many routes as it says keeps the sentinel. -/
theorem CtlFunMap.Holds.keepsSentinel {g : CtlFunMap V} {routes : List (Route V)}
    (h : g.Holds routes) (hnum : g.currNum = routes.length) : g.KeepsSentinel := by
  intro i
  have hk : i.val < g.keys.toList.length := by simp
  have hc : i.val < g.cf.toList.length := by simp
  have hkeys : g.keys[i] = g.keys.toList[i.val] := by simp
  have hcf : g.cf[i] = g.cf.toList[i.val] := by simp
  rw [hnum]
  constructor
  · intro hi
    constructor
    · rw [hkeys, List.getElem_of_eq h.keys, List.getElem_append_left (by simpa using hi)]
      simp
    · rw [hcf, List.getElem_of_eq h.cf, List.getElem_append_left (by simpa using hi)]
      simp
  · intro hi
    rw [hkeys, List.getElem_of_eq h.keys, List.getElem_append_right (by simpa using hi)]
    simp

/-- Every path leads to the first of its routes, else to the first of its files, else nowhere; the
sentinel stands; and of the registrations the later ones leave the routes of the first ones where
they lead. -/
def RoutesExactly (spare : SpareByte) (apps : List (App V)) (files : FileList) : Prop :=
  ∃ g, routerAddApps routerInit apps spare = .ok g ∧ g.KeepsSentinel ∧
    (∀ req : Request, req.path ≠ [] →
      routerHandle g files req = .ok (target (appRoutes apps) files req.path)) ∧
    ∀ first more : List (App V), apps = first ++ more →
      ∃ g₁, routerAddApps routerInit first spare = .ok g₁ ∧
        routerAddApps g₁ more spare = .ok g ∧
        ∀ (req : Request) (r : Route V),
          (appRoutes first).find? (fun r => req.path = r.key) = some r → req.path ≠ [] →
          routerHandle g₁ files req = .ok (.view r.view) ∧
            routerHandle g files req = .ok (.view r.view)

/-- Within the limits routing is exact if and only if the block of every route has room for
its NUL. -/
theorem routerHandle_apps_iff (spare : SpareByte) (apps : List (App V))
    (hroom : (appRoutes apps).length ≤ 511) (files : FileList) (hfiles : files.num < maxFiles) :
    RoutesExactly spare apps files ↔ ∀ r ∈ appRoutes apps, spare r.key.length := by
  have hmax : contFunNum = 512 := rfl
  constructor
  · rintro ⟨g, hg, -⟩
    exact spare_of_routerAddApps (by omega) hg
  · intro hspare
    obtain ⟨g, hg, hholds, hnum⟩ := routerAddApps_spare apps hspare holds_routerInit rfl
      (by rw [List.nil_append]; omega)
    rw [List.nil_append] at hholds hnum
    refine ⟨g, hg, hholds.keepsSentinel hnum,
      fun req hpath => hholds.routerHandle_eq (by omega) hfiles hpath, ?_⟩
    rintro first more rfl
    rw [appRoutes, List.flatMap_append, ← appRoutes, ← appRoutes] at hroom hspare hholds
    rw [List.length_append] at hroom
    obtain ⟨g₁, hg₁, hholds₁, -⟩ := routerAddApps_spare first
      (fun r hr => hspare r (List.mem_append_left _ hr)) holds_routerInit rfl
      (by rw [List.nil_append]; omega)
    rw [List.nil_append] at hholds₁
    have hmore : routerAddApps g₁ more spare = .ok g := by
      rw [routerAddApps, List.foldlM_append] at hg
      obtain ⟨g₁', hfirst, hmore⟩ := exists_of_bind hg
      rw [← routerAddApps, hg₁] at hfirst
      cases hfirst
      exact hmore
    refine ⟨g₁, hg₁, hmore, fun req r hr hpath => ⟨?_, ?_⟩⟩
    · rw [hholds₁.routerHandle_eq (by omega) hfiles hpath, target, hr]
    · rw [hholds.routerHandle_eq (by rw [List.length_append]; omega) hfiles hpath, target,
        List.find?_append, hr, Option.some_or]

/-- An application with two routes. -/
def shopApp : App ℕ where
  cf := [1, 2]
  keys := [bytes "/list", bytes "/cart"]
  name := bytes "shop"
  same_length := rfl
  name_text := by decide
  keys_text := by decide
  route_length := by decide

/-- A request that asks for `/shop/cart`. -/
def cartRequest : Request :=
  reqParseInit { RequestMem.zero with
    text := ⟨List.replicate 5 0 ++ bytes "/shop/cart" ++ List.replicate 513 0, by
      simp only [List.length_append, List.length_replicate]
      decide⟩ }

/-- The routes of ten bytes have room, and the second handler is found behind the first one. -/
theorem routerHandle_shopApp :
    ∃ g, routerAddApps routerInit [shopApp] chunkSpare = .ok g ∧
      routerHandle g ⟨[], Nat.zero_le _⟩ cartRequest = .ok (.view 2) := by
  obtain ⟨g, hg, -, hdispatch, -⟩ :=
    (routerHandle_apps_iff chunkSpare [shopApp] (by decide) ⟨[], Nat.zero_le _⟩
      (by decide)).mpr (by decide)
  exact ⟨g, hg, (hdispatch cartRequest (by decide)).trans (by decide)⟩

/-- An application with one route, of 24 bytes. -/
def longApp : App ℕ where
  cf := [1]
  keys := [bytes "/category/all"]
  name := bytes "storehouse"
  same_length := rfl
  name_text := by decide
  keys_text := by decide
  route_length := by decide

/-- Its NUL is written behind the block. -/
theorem not_routesExactly_longApp : ¬∀ apps : List (App ℕ), (appRoutes apps).length ≤ 511 →
    ∀ files : FileList, files.num < maxFiles → RoutesExactly chunkSpare apps files := by
  intro h
  obtain ⟨g, hg, -⟩ := h [longApp] (by decide) ⟨[], Nat.zero_le _⟩ (by decide)
  have hspare := spare_of_routerAddApps (by decide) hg
  exact absurd hspare (by decide)

/-! ## Applications that are refused -/

/-- The arguments of a call of `router_add_app`, whatever the lengths of the arrays. -/
structure AppCall (V : Type) where
  cf : List V
  keys : List (List UInt8)
  name : List UInt8

/-- The call itself. -/
def AppCall.apply (g : CtlFunMap V) (c : AppCall V) : Except Fault (CtlFunMap V) :=
  routerAddApp c.cf c.keys c.name g

/-- Calls of `router_add_app`, one after the other. -/
def applyApps (g : CtlFunMap V) (calls : List (AppCall V)) : Except Fault (CtlFunMap V) :=
  calls.foldlM AppCall.apply g

/-- There is no handler to register, or an array is too long to be counted. -/
def AppCall.Skipped (c : AppCall V) : Prop :=
  c.cf = [] ∨ 1000 < c.cf.length ∨ 1000 < c.keys.length

/-- A call that comes to its end has counted every handler. -/
theorem AppCall.currNum_of_ok {c : AppCall V} {g g' : CtlFunMap V} (hcf : c.cf.length ≤ 1000)
    (hkeys : c.keys.length ≤ 1000) (h : c.apply g = .ok g') :
    g'.currNum = g.currNum + c.cf.length := by
  rw [apply, routerAddApp, if_neg (by omega), if_neg (by omega)] at h
  cases hloop : addRoutes ample c.name g.currNum c.cf c.keys g with
  | error e =>
      rw [hloop] at h
      cases h
  | ok g₁ =>
      rw [hloop] at h
      cases h
      rfl

theorem AppCall.Skipped.apply_eq {c : AppCall V} (h : c.Skipped) (g : CtlFunMap V) :
    c.apply g = .ok g := by
  rw [apply, routerAddApp]
  split
  · rfl
  · next hcf =>
    split
    · rfl
    · next hkeys =>
      rcases h with hnil | h | h
      · rw [hnil, addRoutes]
        rfl
      · exact absurd h hcf
      · exact absurd h hkeys

/-- More handlers than keys: the loop comes to the `NULL` behind the keys, or fails before. -/
theorem addRoutes_error (name : List UInt8) {cf : List V} {keys : List (List UInt8)}
    (h : keys.length < cf.length) (at_ : ℕ) (g : CtlFunMap V) :
    ∃ e, addRoutes ample name at_ cf keys g = .error e := by
  induction cf generalizing keys at_ g with
  | nil => exact absurd h (Nat.not_lt_zero _)
  | cons f cf ih =>
      rw [addRoutes]
      split
      · cases keys with
        | nil => exact ⟨_, rfl⟩
        | cons key keys =>
            cases hroute : composeRoute name key with
            | error e => exact ⟨e, by simp only [hroute]; rfl⟩
            | ok appname =>
                simp only [hroute, ok_bind, mallocCopy_ample]
                exact ih (Nat.lt_of_succ_lt_succ h) _ _
      · exact ⟨_, rfl⟩

/-- A call with more handlers than keys does not return. -/
theorem AppCall.apply_eq_error {c : AppCall V} (h : c.keys.length < c.cf.length)
    (hcf : c.cf.length ≤ 1000) (g : CtlFunMap V) : ∃ e, c.apply g = .error e := by
  obtain ⟨e, hloop⟩ := addRoutes_error c.name h g.currNum g
  refine ⟨e, ?_⟩
  rw [apply, routerAddApp, if_neg (by omega), if_neg (by omega), hloop]
  rfl

/-- Calls with arrays of different lengths leave no trace when each of them is skipped. -/
theorem applyApps_eq_filter {calls : List (AppCall V)}
    (h : ∀ c ∈ calls, c.cf.length ≠ c.keys.length → c.Skipped) (g : CtlFunMap V) :
    applyApps g calls = applyApps g (calls.filter fun c => c.cf.length = c.keys.length) := by
  induction calls generalizing g with
  | nil => rfl
  | cons c calls ih =>
      obtain ⟨hc, hcalls⟩ := List.forall_mem_cons.mp h
      rw [applyApps, List.foldlM_cons]
      by_cases hsame : c.cf.length = c.keys.length
      · rw [List.filter_cons_of_pos (by simpa using hsame), applyApps, List.foldlM_cons]
        congr 1
        funext g'
        exact ih hcalls g'
      · rw [List.filter_cons_of_neg (by simpa using hsame), (hc hsame).apply_eq, ok_bind]
        exact ih hcalls g

/-- A call returns and leaves the table as it was only if it is skipped. -/
theorem routerAddApp_unchanged_iff (c : AppCall V) (g : CtlFunMap V) :
    c.apply g = .ok g ↔ c.cf = [] ∨ 1000 < c.cf.length ∨ 1000 < c.keys.length := by
  constructor
  · intro hrun
    by_contra hskip
    obtain ⟨hne, hcf, hkeys⟩ : c.cf ≠ [] ∧ c.cf.length ≤ 1000 ∧ c.keys.length ≤ 1000 := by
      push Not at hskip
      exact hskip
    have hcount := AppCall.currNum_of_ok hcf hkeys hrun
    have hpos := List.length_pos_of_ne_nil hne
    omega
  · exact fun hskip => AppCall.Skipped.apply_eq hskip g

/-- One handler and two keys. -/
def spareKeyCall : AppCall ℕ where
  cf := [1]
  keys := [bytes "/list", bytes "/cart"]
  name := bytes "shop"

/-- The handler is registered although the application has failed. -/
theorem not_unchanged_spareKey : ¬ ∀ (calls : List (AppCall ℕ)) (g : CtlFunMap ℕ)
    (c : AppCall ℕ), applyApps routerInit calls = .ok g → c.cf.length ≠ c.keys.length →
      c.apply g = .ok g := by
  intro h
  have hrun := h [] routerInit spareKeyCall rfl (by decide)
  have hcount := AppCall.currNum_of_ok (by decide) (by decide) hrun
  exact absurd hcount (by decide)
