/-
# The entries that a path is compared with

The static search of `router_handle` goes up to and including `g_num_files`, while `router_init`
fills the entries below it.  `searchFilesSeen` is the search with the indices whose `url` it
compares, `searchFilesSeen_snd` that the search is the one of `Router`.

`staysRegistered_iff`: the search stays with the entries that were registered exactly when there
is no search, because the path is a route, or when it finds an entry.  Otherwise it comes to the
entry behind them, which is zero, or in a full table is not there.
-/
import DmfServer.Router

open CMem

variable {V : Type}

/-- The loop over the static files, with the indices of the entries that it compares. -/
def searchFilesSeen (files : FileList) (path : List UInt8) : List ℕ →
    List ℕ × Except Fault (Option FileInfo)
  | [] => ([], .ok none)
  | i :: is =>
      match files.get i with
      | .error e => ([i], .error e)
      | .ok f =>
          if path = f.url then ([i], .ok (some f))
          else
            let (seen, found) := searchFilesSeen files path is
            (i :: seen, found)

/-- The indices with which `router_handle` compares the path. -/
def routerCompares (g : CtlFunMap V) (files : FileList) (req : Request) : List ℕ :=
  match searchKeys req.path g.keys.toList g.cf.toList with
  | .ok none => (searchFilesSeen files req.path (List.range (files.num + 1))).1
  | _ => []

/-- What it finds is what the search of `Router` finds. -/
theorem searchFilesSeen_snd (files : FileList) (path : List UInt8) (is : List ℕ) :
    (searchFilesSeen files path is).2 = searchFiles files path is := by
  induction is with
  | nil => rfl
  | cons i is ih =>
      rw [searchFilesSeen, searchFiles]
      cases files.get i with
      | error e => rfl
      | ok f =>
          dsimp only
          rw [ok_bind]
          split
          · rfl
          · exact ih

section
variable {files : FileList} {path : List UInt8}

/-- A search that does not find the path in the entries at hand compares all of them. -/
theorem searchFilesSeen_append {is js : List ℕ} (his : ∀ i ∈ is, i < maxFiles)
    (hnone : ∀ i ∈ is, (files.at i).url ≠ path) :
    (searchFilesSeen files path (is ++ js)).1 = is ++ (searchFilesSeen files path js).1 := by
  induction is with
  | nil => rfl
  | cons i is ih =>
      have hget : files.get i = .ok (files.at i) := if_pos (his i List.mem_cons_self)
      have hne : ¬path = (files.at i).url := fun h => hnone i List.mem_cons_self h.symm
      rw [List.cons_append, searchFilesSeen, hget]
      dsimp only
      rw [if_neg hne, ih (fun j hj => his j (List.mem_cons_of_mem _ hj))
        fun j hj => hnone j (List.mem_cons_of_mem _ hj)]
      rfl

/-- It compares no others. -/
theorem searchFilesSeen_subset (is : List ℕ) : (searchFilesSeen files path is).1 ⊆ is := by
  induction is with
  | nil => exact List.Subset.refl _
  | cons i is ih =>
      rw [searchFilesSeen]
      have hone : [i] ⊆ i :: is := List.cons_subset_cons i (List.nil_subset is)
      cases files.get i with
      | error e => exact hone
      | ok f =>
          dsimp only
          split
          · exact hone
          · exact List.cons_subset_cons i ih

/-- The first comparison is made in any case. -/
theorem mem_searchFilesSeen_cons (i : ℕ) (is : List ℕ) :
    i ∈ (searchFilesSeen files path (i :: is)).1 := by
  rw [searchFilesSeen]
  cases files.get i with
  | error e => exact List.mem_cons_self
  | ok f =>
      dsimp only
      split <;> exact List.mem_cons_self

/-- Behind an entry that has the path for its url it compares nothing. -/
theorem searchFilesSeen_found {is : List ℕ} (js : List ℕ) (his : ∀ i ∈ is, i < maxFiles)
    (hfound : ∃ i ∈ is, (files.at i).url = path) :
    searchFilesSeen files path (is ++ js) = searchFilesSeen files path is := by
  induction is with
  | nil =>
      obtain ⟨i, hi, -⟩ := hfound
      cases hi
  | cons i is ih =>
      have hget : files.get i = .ok (files.at i) := if_pos (his i List.mem_cons_self)
      rw [List.cons_append, searchFilesSeen, searchFilesSeen, hget]
      dsimp only
      split
      · rfl
      · next hne =>
        have hlater : ∃ j ∈ is, (files.at j).url = path := by
          obtain ⟨j, hj, hurl⟩ := hfound
          obtain rfl | hj := List.mem_cons.mp hj
          · exact absurd hurl.symm hne
          · exact ⟨j, hj, hurl⟩
        rw [ih (fun j hj => his j (List.mem_cons_of_mem _ hj)) hlater]

theorem at_eq_getElem (i : ℕ) (hi : i < files.entries.length) : files.at i = files.entries[i] := by
  unfold FileList.at
  rw [List.getD_eq_getElem?_getD, List.getElem?_eq_getElem hi, Option.getD_some]

/-- The entries that are registered. -/
theorem exists_at_iff : (∃ i ∈ List.range files.num, (files.at i).url = path) ↔
    ∃ f ∈ files.entries, f.url = path := by
  constructor
  · rintro ⟨i, hi, hurl⟩
    have hlt : i < files.entries.length := List.mem_range.mp hi
    rw [at_eq_getElem i hlt] at hurl
    exact ⟨files.entries[i], List.getElem_mem hlt, hurl⟩
  · rintro ⟨f, hf, hurl⟩
    obtain ⟨i, hlt, rfl⟩ := List.getElem_of_mem hf
    refine ⟨i, List.mem_range.mpr hlt, ?_⟩
    rw [at_eq_getElem i hlt, hurl]

theorem lt_maxFiles_of_mem_range (files : FileList) : ∀ i ∈ List.range files.num, i < maxFiles := by
  intro i hi
  exact Nat.lt_of_lt_of_le (List.mem_range.mp hi) files.length_le

/-- The search stays below `g_num_files` exactly when an entry has the path for its url. -/
theorem searchFilesSeen_lt_iff :
    (∀ i ∈ (searchFilesSeen files path (List.range (files.num + 1))).1, i < files.num) ↔
      ∃ f ∈ files.entries, f.url = path := by
  have hroom := lt_maxFiles_of_mem_range files
  rw [List.range_succ, ← exists_at_iff]
  constructor
  · intro hbelow
    by_contra hnone
    have hnone' : ∀ i ∈ List.range files.num, (files.at i).url ≠ path := fun i hi hurl =>
      hnone ⟨i, hi, hurl⟩
    -- no entry stops the search, and the last index is that behind the table
    refine absurd (hbelow files.num ?_) (Nat.lt_irrefl _)
    rw [searchFilesSeen_append hroom hnone']
    exact List.mem_append_right _ (mem_searchFilesSeen_cons _ _)
  · intro hfound i hi
    rw [searchFilesSeen_found _ hroom hfound] at hi
    exact List.mem_range.mp (searchFilesSeen_subset _ hi)

/-- An entry that is found is registered when the search stays below `g_num_files`. -/
theorem searchFiles_registered (h : ∃ f ∈ files.entries, f.url = path) {f : FileInfo}
    (hf : searchFiles files path (List.range (files.num + 1)) = .ok (some f)) :
    f ∈ files.entries ∧ f.url = path := by
  have hroom := lt_maxFiles_of_mem_range files
  rw [← searchFilesSeen_snd, List.range_succ,
    searchFilesSeen_found _ hroom (exists_at_iff.mpr h), searchFilesSeen_snd,
    searchFiles_eq files path hroom] at hf
  have hfind := Except.ok.inj hf
  obtain ⟨i, hi, rfl⟩ := List.mem_map.mp (List.mem_of_find?_eq_some hfind)
  have hlt : i < files.entries.length := List.mem_range.mp hi
  have hurl : path = (files.at i).url := by simpa using List.find?_some hfind
  refine ⟨?_, hurl.symm⟩
  rw [at_eq_getElem i hlt]
  exact List.getElem_mem hlt

end

/-! ## The routes in front -/

/-- The search in the routes comes to its `NULL` exactly when the path is none of them. -/
theorem searchKeys_eq_none_iff (path : List UInt8) {keys : List (Option (List UInt8))}
    {cf : List (Option V)} (hlen : keys.length = cf.length) (hnull : none ∈ keys) :
    searchKeys path keys cf = .ok none ↔ some path ∉ keys.takeWhile (·.isSome) := by
  induction keys generalizing cf with
  | nil => cases hnull
  | cons key keys ih =>
      obtain ⟨f, cf, rfl⟩ := List.exists_cons_of_length_eq_add_one hlen.symm
      cases key with
      | none => simp [searchKeys]
      | some key =>
          have hlater : none ∈ keys := by simpa using hnull
          rw [List.takeWhile_cons_of_pos (by rfl)]
          by_cases hpath : path = key
          · subst hpath
            cases f <;> simp [searchKeys]
          · simp only [searchKeys, if_neg hpath]
            rw [ih (Nat.succ.inj hlen) hlater]
            simp [hpath]

/-- A table that is not full has a `NULL` behind its routes. -/
theorem CtlFunMap.Holds.none_mem {g : CtlFunMap V} {routes : List (Route V)} (h : g.Holds routes)
    (hroom : routes.length < contFunNum) : none ∈ g.keys.toList := by
  rw [h.keys]
  exact List.mem_append_right _ (List.mem_replicate.mpr ⟨by omega, rfl⟩)

/-- The search compares the path with registered entries alone, and a file is served only if it is
a registered one with the path for its url. -/
structure StaysRegistered (g : CtlFunMap V) (files : FileList) (req : Request) : Prop where
  compares : ∀ i ∈ routerCompares g files req, i < files.num
  serves : ∀ f, routerHandle g files req = .ok (.static f) → f ∈ files.entries ∧ f.url = req.path

/-- `router_handle` stays with the registered entries exactly when the path is a route or the url
of one of them. -/
theorem staysRegistered_iff {g : CtlFunMap V} (hnull : none ∈ g.keys.toList) (files : FileList)
    (req : Request) :
    StaysRegistered g files req ↔
      some req.path ∈ g.keys.toList.takeWhile (·.isSome) ∨
        ∃ f ∈ files.entries, f.url = req.path := by
  have hlen : g.keys.toList.length = g.cf.toList.length := by simp
  have hroute := searchKeys_eq_none_iff req.path hlen hnull
  constructor
  · intro h
    by_contra hneither
    rw [not_or] at hneither
    have hcompares := h.compares
    unfold routerCompares at hcompares
    rw [hroute.mpr hneither.1] at hcompares
    exact hneither.2 (searchFilesSeen_lt_iff.mp hcompares)
  · intro h
    constructor
    · unfold routerCompares
      split
      · next hsearch =>
        exact searchFilesSeen_lt_iff.mpr (h.resolve_left (hroute.mp hsearch))
      · exact fun i hi => absurd hi List.not_mem_nil
    · intro f hserve
      obtain ⟨view, hsearch, hrest⟩ := exists_of_bind hserve
      cases view with
      | some view => cases hrest
      | none =>
          obtain ⟨found, hfiles, hrest⟩ := exists_of_bind hrest
          cases found with
          | none => cases hrest
          | some f' =>
              obtain rfl : f' = f := by
                cases hrest
                rfl
              exact searchFiles_registered (h.resolve_left (hroute.mp hsearch)) hfiles

/-- A path that is no file's is compared with the entry behind the one that is registered. -/
theorem not_staysRegistered_missing :
    ¬∀ req : Request, StaysRegistered (routerInit : CtlFunMap ℕ) ⟨[], Nat.zero_le _⟩ req := by
  intro h
  have hcompares := (h cartRequest).compares
  exact absurd (hcompares 0 (by decide)) (Nat.not_lt_zero 0)

/-- A file of the static directory. -/
def scriptFile : FileInfo where
  path := bytes "./static/app.js"
  size := 3
  ext := bytes "js"
  contentType := bytes "application/x-javascript"
  url := bytes "/static/app.js"
  contentType_text := by decide

/-- A request that asks for it. -/
def scriptRequest : Request :=
  reqParseInit { RequestMem.zero with
    text := ⟨List.replicate 5 0 ++ bytes "/static/app.js" ++ List.replicate 509 0, by
      simp only [List.length_append, List.length_replicate]
      decide⟩ }

/-- With two routes and a file, the search stays with them for the path of either. -/
theorem staysRegistered_shop : ∃ g : CtlFunMap ℕ,
    routerAddApps routerInit [shopApp] = .ok g ∧
      StaysRegistered g ⟨[scriptFile], by decide⟩ cartRequest ∧
      StaysRegistered g ⟨[scriptFile], by decide⟩ scriptRequest := by
  obtain ⟨g, hg, hholds, -⟩ := routerAddApps_eq [shopApp] holds_routerInit rfl (by decide)
  have hnull := hholds.none_mem (by decide)
  refine ⟨g, hg, (staysRegistered_iff hnull _ _).mpr (Or.inl ?_),
    (staysRegistered_iff hnull _ _).mpr (Or.inr ⟨scriptFile, List.mem_singleton_self _, ?_⟩)⟩
  · rw [hholds.keys]
    decide
  · decide
