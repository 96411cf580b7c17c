/-
# Session ids

`get_random_str` seeds the generator with the minute and the second of the local time
and draws ten characters, so that two calls with the same seed draw the same id.  The
store then holds two nodes of one id, and whoever has the id reads the newer one.

Over the store lies the list of all sessions, one for each call of `SessionCreate`, each
with the seed its id was drawn from.  Sessions stay isolated as long as no id is drawn a
second time while a session that has it is alive, and no dead session is written to
beside a living one that has its id (`sessions_isolated`).
-/
import DmfServer.Session
import DmfServer.Utility

open CMem ChainTable StepSystem

/-! ## Drawing an id -/

/-- `seed_str`. -/
def seedStr : List UInt8 := bytes "abcdefghijklmnopqrstuvwxyzABCDEFGHIJKLMNOPQRSTUVWXYZ0123456789"

/-- `localtime`, and the numbers `rand` returns after a call of `srand`. -/
structure Libc where
  localtime : ℤ → Tm
  rand : ℕ → ℕ → ℕ

/-- `seed_num`. -/
def seedNum (p : Tm) : ℕ := (p.tmMin + p.tmSec).toNat

/-- The characters drawn after `srand`. -/
def drawnStr (lib : Libc) (seed randomLen : ℕ) : List UInt8 :=
  (List.range randomLen).map fun i => seedStr.getD (lib.rand seed i % seedStr.length) 0

/-- `get_random_str` at the time `timep`. -/
def getRandomStr (lib : Libc) (timep : ℤ) (randomLen : ℕ) : List UInt8 :=
  drawnStr lib (seedNum (lib.localtime timep)) randomLen

/-! ## Runs -/

/-- A call on the store, as it is made. -/
inductive SessionCall : Type where
  /-- `SessionCreate`, with the time at which it draws the id. -/
  | create : ℤ → List UInt8 → List UInt8 → SessionCall
  | add : List UInt8 → List UInt8 → List UInt8 → SessionCall
  | update : List UInt8 → List UInt8 → List UInt8 → SessionCall
  | get : List UInt8 → List UInt8 → SessionCall
  deriving DecidableEq

/-- A call with the time at which it reads the clock for the data. -/
structure TimedCall where
  call : SessionCall
  now : ℤ
  deriving DecidableEq

/-- The call with the id it draws. -/
def TimedCall.op (lib : Libc) (c : TimedCall) : TimedOp where
  op :=
    match c.call with
    | .create timep key value => .create (getRandomStr lib timep 10) key value
    | .add id key value => .add id key value
    | .update id key data => .update id key data
    | .get id key => .get id key
  now := c.now

/-- A session, by the call of `SessionCreate` that made it. -/
structure Session where
  /-- The seed its id was drawn from. -/
  seed : ℕ
  node : HashNode
  deriving DecidableEq

/-- A change of a node, made to the node of a session. -/
def Session.lift (f : HashNode → Option HashNode) (s : Session) : Option Session :=
  (f s.node).map fun node => { s with node := node }

/-- `SessionAdd` and `UpdateSessionData`, as what they do to the first node that they find. -/
def TimedCall.change (c : TimedCall) : HashNode → Option HashNode :=
  match c.call with
  | .create _ _ _ => fun _ => none
  | .add id key value =>
      onKey HashNode.key id fun node => some (node.add (newSessionData key value c.now))
  | .update id key data =>
      onKey HashNode.key id (HashNode.modify (SessionData.update key data c.now))
  | .get _ _ => fun _ => none

/-- What a call does to the sessions, the newest of which comes first. -/
def sessionStep (lib : Libc) (l : List Session) (c : TimedCall) : List Session :=
  match c.call with
  | .create timep key value =>
      { seed := seedNum (lib.localtime timep)
        node :=
          { key := getRandomStr lib timep 10, value := [newSessionData key value c.now]
            value_ne := List.cons_ne_nil _ _ } } :: l
  | _ => (replaceFirst (Session.lift c.change) l).getD l

/-- The store, the sessions it holds, and the time of the last call. -/
structure SessionRun where
  store : SessionStore
  sessions : List Session
  clock : ℤ

/-- Behind `session_init`. -/
def SessionRun.init : SessionRun := { store := sessionInit, sessions := [], clock := -2 ^ 31 }

/-- Behind a call. -/
def SessionRun.after (lib : Libc) (s : SessionRun) (c : TimedCall) : SessionRun where
  store := (storeStep s.store (c.op lib)).1
  sessions := sessionStep lib s.sessions c
  clock := c.now

/-- A call at a time not before the last one. -/
def CallStep (lib : Libc) (s : SessionRun) (c : TimedCall) (t : SessionRun) : Prop :=
  s.clock ≤ c.now ∧ IsTime c.now ∧ t = s.after lib c

/-- The ids that `SessionCreate` has given out. -/
def drawnIds (lib : Libc) (cs : List TimedCall) : List (List UInt8) :=
  cs.filterMap fun c =>
    match c.call with
    | .create timep _ _ => some (getRandomStr lib timep 10)
    | _ => none

/-! ## Isolation -/

/-- The datum has not expired. -/
def SessionData.Unexpired (d : SessionData) (now : ℤ) : Prop :=
  toInt now ≤ toInt (d.timeStore + d.expire)

/-- Some datum of the session has not expired. -/
def Session.Unexpired (s : Session) (now : ℤ) : Prop := ∃ d ∈ s.node.value, d.Unexpired now

/-- Unexpired sessions have different ids, and what `getSession` returns for an id was
stored in a session that shares the id with no other unexpired one. -/
structure SessionRun.Isolated (s : SessionRun) (now : ℤ) : Prop where
  ids : s.sessions.Pairwise fun a b =>
    a.Unexpired now → b.Unexpired now → a.node.key ≠ b.node.key
  values : ∀ id key v, getSession s.store id key now = some v →
    ∃ l₁ a l₂, s.sessions = l₁ ++ a :: l₂ ∧ a.node.key = id ∧
      (∃ d ∈ a.node.value, d.key = key ∧ d.data = v) ∧
      ∀ b ∈ l₁ ++ l₂, b.Unexpired now → b.node.key ≠ id

/-- The numbers drawn after two seeds differ in one of the ten characters. -/
def DrawsApart (lib : Libc) (seed seed' : ℕ) : Prop :=
  ∃ i < 10, lib.rand seed i % seedStr.length ≠ lib.rand seed' i % seedStr.length

/-- `SessionCreate` draws apart from the unexpired sessions; `SessionAdd` and
`UpdateSessionData` do not write to an expired session whose id an unexpired one has. -/
def KeepsApart (lib : Libc) (s : SessionRun) (c : TimedCall) : Prop :=
  match c.call with
  | .create timep _ _ => ∀ a ∈ s.sessions, a.Unexpired c.now →
      DrawsApart lib (seedNum (lib.localtime timep)) a.seed
  | _ => ∀ a, s.sessions.find? (fun a => (c.change a.node).isSome) = some a →
      ∀ b ∈ s.sessions, b.node.key = a.node.key → b.Unexpired c.now → a.Unexpired c.now

/-- A call that keeps the sessions apart. -/
def ApartStep (lib : Libc) (s : SessionRun) (c : TimedCall) (t : SessionRun) : Prop :=
  CallStep lib s c t ∧ KeepsApart lib s c

/-- The characters to draw from are all different. -/
theorem seedStr_getD_inj {i j : ℕ} (hi : i < seedStr.length) (hj : j < seedStr.length)
    (h : seedStr.getD i 0 = seedStr.getD j 0) : i = j := by
  have hnodup : seedStr.Nodup := by decide +kernel
  rw [List.getD_eq_getElem?_getD, List.getD_eq_getElem?_getD, List.getElem?_eq_getElem hi,
    List.getElem?_eq_getElem hj, Option.getD_some, Option.getD_some] at h
  exact (hnodup.getElem_inj_iff).mp h

/-- Ids of ten characters differ exactly when they are drawn apart. -/
theorem drawnStr_ne_iff {lib : Libc} {seed seed' : ℕ} :
    drawnStr lib seed 10 ≠ drawnStr lib seed' 10 ↔ DrawsApart lib seed seed' := by
  have hlen : 0 < seedStr.length := by decide
  constructor
  · intro h
    by_contra hno
    refine h (List.map_congr_left fun i hi => ?_)
    have heq : lib.rand seed i % seedStr.length = lib.rand seed' i % seedStr.length := by
      by_contra hne
      exact hno ⟨i, List.mem_range.mp hi, hne⟩
    rw [heq]
  · rintro ⟨i, hi, hne⟩ h
    refine hne (seedStr_getD_inj (Nat.mod_lt _ hlen) (Nat.mod_lt _ hlen) ?_)
    exact List.map_inj_left.mp h i (List.mem_range.mpr hi)

theorem SessionData.answer_eq_some_iff {d : SessionData} {now : ℤ} {v : List UInt8} :
    d.answer now = some v ↔ d.Unexpired now ∧ d.data = v := by
  unfold SessionData.answer SessionData.Unexpired
  split
  · next h => simp [h]
  · next h => simp [h]

/-! ## The store and the sessions -/

theorem keepsKey_change (c : TimedCall) : KeepsKey HashNode.key c.change := by
  have honKey : ∀ (id : List UInt8) (f : HashNode → Option HashNode), KeepsKey HashNode.key f →
      KeepsKey HashNode.key (onKey HashNode.key id f) := by
    intro id f hf b b' hb
    rw [onKey] at hb
    split at hb
    · exact hf b b' hb
    · cases hb
  obtain ⟨call, now⟩ := c
  cases call with
  | create timep key value => rintro b b' ⟨⟩
  | add id key value => exact honKey id _ (keepsKey_add _)
  | update id key data => exact honKey id _ (keepsKey_modify _)
  | get id key => rintro b b' ⟨⟩

/-- A call keeps the store and the sessions together. -/
theorem lists_step {lib : Libc} {store : SessionStore} {l : List Session} (c : TimedCall)
    (h : Lists HashNode.key hashFunction store (l.map Session.node)) :
    Lists HashNode.key hashFunction (storeStep store (c.op lib)).1
      ((sessionStep lib l c).map Session.node) := by
  -- the two calls that change a session replace the first one that answers to the id
  have hreplace : ∀ (id : List UInt8) (f : HashNode → Option HashNode)
      (store' : SessionStore), KeepsKey HashNode.key f →
      (store' = (replace HashNode.key hashFunction store id f).getD store) →
      Lists HashNode.key hashFunction store'
        (((replaceFirst (Session.lift (onKey HashNode.key id f)) l).getD l).map Session.node) := by
    intro id f store' hf hstore'
    have hmap : replaceFirst (onKey HashNode.key id f) (l.map Session.node)
        = (replaceFirst (Session.lift (onKey HashNode.key id f)) l).map
          (List.map Session.node) := by
      refine replaceFirst_map (fun s => ?_) l
      rw [Session.lift, Option.map_map]
      exact Option.map_id'.symm
    rcases h.replace id hf with ⟨hnone, hlist⟩ | ⟨t, l', hsome, hlist, hlists⟩
    · rw [hmap] at hlist
      rw [hstore', hnone, Option.map_eq_none_iff.mp hlist]
      exact h
    · rw [hmap] at hlist
      obtain ⟨l'', hl'', rfl⟩ := Option.map_eq_some_iff.mp hlist
      rw [hstore', hsome, hl'']
      exact hlists
  obtain ⟨call, now⟩ := c
  cases call with
  | create timep key value => exact h.push _
  | add id key value =>
      refine hreplace id _ _ (keepsKey_add _) ?_
      simp only [storeStep, TimedCall.op, sessionAdd]
      cases replace HashNode.key hashFunction store id
        (fun node => some (node.add (newSessionData key value now))) <;> rfl
  | update id key data =>
      refine hreplace id _ _ (keepsKey_modify _) ?_
      simp only [storeStep, TimedCall.op, updateSessionData]
      cases replace HashNode.key hashFunction store id
        (HashNode.modify (SessionData.update key data now)) <;> rfl
  | get id key =>
      have hnone : ∀ l : List Session, replaceFirst (Session.lift fun _ => none) l = none := by
        intro l
        induction l with
        | nil => rfl
        | cons a l ih => simp [replaceFirst, Session.lift, ih]
      show Lists _ _ store (((replaceFirst (Session.lift fun _ => none) l).getD l).map _)
      rw [hnone]
      exact h

/-! ## What every step keeps -/

/-- A datum with the lifetime the code gives it, stored at a time that is an `int`. -/
def SessionData.IsTimed (d : SessionData) : Prop :=
  IsTime d.timeStore ∧ d.expire = sessionExpireDefault

/-- What a run keeps, as long as its calls keep the sessions apart. -/
structure SessionRun.Inv (lib : Libc) (s : SessionRun) : Prop where
  lists : Lists HashNode.key hashFunction s.store (s.sessions.map Session.node)
  seeds : ∀ a ∈ s.sessions, a.node.key = drawnStr lib a.seed 10
  timed : ∀ a ∈ s.sessions, ∀ d ∈ a.node.value, d.IsTimed
  /-- From the last call on, unexpired sessions have different ids. -/
  apart : ∀ now, s.clock ≤ now → IsTime now → s.sessions.Pairwise fun a b =>
    a.Unexpired now → b.Unexpired now → a.node.key ≠ b.node.key

/-- What has not expired had not expired before. -/
theorem SessionData.IsTimed.mono {d : SessionData} (h : d.IsTimed) {t now : ℤ} (ht : IsTime t)
    (hnow : IsTime now) (hle : t ≤ now) (hd : d.Unexpired now) : d.Unexpired t := by
  have hlife : toInt (d.timeStore + d.expire) = d.timeStore + 300 := by
    rw [h.2]
    exact toInt_of_range (by have := h.1.1; unfold sessionExpireDefault; omega)
      (by have := h.1.2; unfold sessionExpireDefault; omega)
  unfold SessionData.Unexpired at hd ⊢
  rw [hnow.toInt_eq, hlife] at hd
  rw [ht.toInt_eq, hlife]
  omega

theorem Session.Unexpired.mono {a : Session} (h : ∀ d ∈ a.node.value, d.IsTimed) {t now : ℤ}
    (ht : IsTime t) (hnow : IsTime now) (hle : t ≤ now) (ha : a.Unexpired now) :
    a.Unexpired t := by
  obtain ⟨d, hd, hunexpired⟩ := ha
  exact ⟨d, hd, (h d hd).mono ht hnow hle hunexpired⟩

theorem isTimed_newSessionData {now : ℤ} (h : IsTime now) (key value : List UInt8) :
    (newSessionData key value now).IsTimed := by
  refine ⟨?_, rfl⟩
  show IsTime (toInt now)
  rwa [h.toInt_eq]

/-- The data of a changed node are timed. -/
theorem timed_change {c : TimedCall} (hnow : IsTime c.now) {node node' : HashNode}
    (h : c.change node = some node') (hnode : ∀ d ∈ node.value, d.IsTimed) :
    ∀ d ∈ node'.value, d.IsTimed := by
  obtain ⟨call, now⟩ := c
  cases call with
  | create timep key value => cases h
  | get id key => cases h
  | add id key value =>
      unfold TimedCall.change onKey at h
      dsimp only at h
      split at h
      · cases h
        exact List.forall_mem_cons.mpr ⟨isTimed_newSessionData hnow key value, hnode⟩
      · cases h
  | update id key data =>
      unfold TimedCall.change onKey HashNode.modify at h
      dsimp only at h
      split at h
      · split at h
        · next value hvalue =>
          cases h
          intro d hd
          rcases mem_of_replaceFirst hvalue hd with hd | ⟨a, ha⟩
          · exact hnode d hd
          · unfold SessionData.update at ha
            split at ha
            · cases ha
              exact isTimed_newSessionData hnow _ _
            · cases ha
        · cases h
      · cases h

/-- What a call other than `SessionCreate` does to the sessions: nothing, or a change of the
first one it finds. -/
theorem sessionStep_cases {lib : Libc} {l : List Session} {c : TimedCall}
    (hc : ∀ timep key value, c.call ≠ .create timep key value) :
    sessionStep lib l c = l ∨
      ∃ l₁ a node l₂, l = l₁ ++ a :: l₂ ∧
        l.find? (fun a => (c.change a.node).isSome) = some a ∧ c.change a.node = some node ∧
        sessionStep lib l c = l₁ ++ { a with node := node } :: l₂ := by
  have hstep : sessionStep lib l c = (replaceFirst (Session.lift c.change) l).getD l := by
    unfold sessionStep
    split
    · next timep key value h => exact absurd h (hc timep key value)
    · rfl
  cases hl : replaceFirst (Session.lift c.change) l with
  | none => exact .inl (by rw [hstep, hl]; rfl)
  | some l' =>
      obtain ⟨l₁, a, a', l₂, rfl, hl₁, ha, rfl⟩ := exists_of_replaceFirst hl
      obtain ⟨node, hnode, rfl⟩ := Option.map_eq_some_iff.mp ha
      refine .inr ⟨l₁, a, node, l₂, rfl, ?_, hnode, by rw [hstep, hl]; rfl⟩
      have hskip : l₁.find? (fun a => (c.change a.node).isSome) = none := by
        rw [List.find?_eq_none]
        intro b hb
        simp [Option.map_eq_none_iff.mp (hl₁ b hb)]
      rw [List.find?_append, hskip, Option.none_or]
      exact List.find?_cons_of_pos (by simp [hnode])

theorem SessionRun.inv_init (lib : Libc) : SessionRun.init.Inv lib where
  lists := lists_empty
  seeds := by simp [SessionRun.init]
  timed := by simp [SessionRun.init]
  apart := fun _ _ _ => List.Pairwise.nil

/-- `SessionCreate` keeps the invariant when it draws apart. -/
theorem SessionRun.Inv.create {lib : Libc} {s t : SessionRun} {timep now : ℤ}
    {key value : List UInt8} (h : s.Inv lib)
    (hstep : ApartStep lib s ⟨.create timep key value, now⟩ t) : t.Inv lib := by
  obtain ⟨⟨hclock, hnow, rfl⟩, hkeeps⟩ := hstep
  refine ⟨lists_step _ h.lists, List.forall_mem_cons.mpr ⟨rfl, h.seeds⟩,
    List.forall_mem_cons.mpr ⟨?_, h.timed⟩, fun later hle hlater => ?_⟩
  · intro d hd
    rw [List.mem_singleton.mp hd]
    exact isTimed_newSessionData hnow key value
  · have hclock' : s.clock ≤ later := le_trans hclock hle
    refine List.pairwise_cons.mpr ⟨fun b hb _ hb' => ?_, h.apart later hclock' hlater⟩
    have hapart := hkeeps b hb (hb'.mono (h.timed b hb) hnow hlater hle)
    rw [h.seeds b hb]
    exact drawnStr_ne_iff.mpr hapart

/-- A session whose change leaves it apart from the others. -/
theorem pairwise_replace {R : Session → Session → Prop} {l₁ l₂ : List Session} {a a' : Session}
    (h : (l₁ ++ a :: l₂).Pairwise R) (hleft : ∀ b ∈ l₁, R b a → R b a')
    (hright : ∀ b ∈ l₂, R a b → R a' b) : (l₁ ++ a' :: l₂).Pairwise R := by
  rw [List.pairwise_append, List.pairwise_cons] at h ⊢
  obtain ⟨h₁, ⟨ha, h₂⟩, hcross⟩ := h
  refine ⟨h₁, ⟨fun b hb => hright b hb (ha b hb), h₂⟩, fun b hb => ?_⟩
  refine List.forall_mem_cons.mpr ⟨hleft b hb (hcross b hb a List.mem_cons_self), ?_⟩
  exact fun c hc => hcross b hb c (List.mem_cons_of_mem _ hc)

/-- Every call keeps the invariant when it keeps the sessions apart. -/
theorem SessionRun.Inv.step {lib : Libc} {s t : SessionRun} {c : TimedCall} (h : s.Inv lib)
    (hstep : ApartStep lib s c t) : t.Inv lib := by
  obtain ⟨call, now⟩ := c
  by_cases hcreate : ∃ timep key value, call = .create timep key value
  · obtain ⟨timep, key, value, rfl⟩ := hcreate
    exact h.create hstep
  · have hkeeps : ∀ a, s.sessions.find?
        (fun a => ((⟨call, now⟩ : TimedCall).change a.node).isSome) = some a →
        ∀ b ∈ s.sessions, b.node.key = a.node.key → b.Unexpired now → a.Unexpired now := by
      have hkeeps := hstep.2
      cases call with
      | create timep key value => exact absurd ⟨timep, key, value, rfl⟩ hcreate
      | add id key value => exact hkeeps
      | update id key data => exact hkeeps
      | get id key => exact hkeeps
    obtain ⟨⟨hclock, hnow, rfl⟩, -⟩ := hstep
    have hsessions : (s.after lib ⟨call, now⟩).sessions
        = sessionStep lib s.sessions ⟨call, now⟩ := rfl
    have hother : ∀ timep key value,
        (⟨call, now⟩ : TimedCall).call ≠ .create timep key value :=
      fun timep key value hc => hcreate ⟨timep, key, value, hc⟩
    rcases sessionStep_cases hother with hsame | ⟨l₁, a, node, l₂, hl, hfind, hnode, hchanged⟩
    · refine ⟨lists_step _ h.lists, ?_, ?_, fun later hle hlater => ?_⟩
      · rw [hsessions, hsame]
        exact h.seeds
      · rw [hsessions, hsame]
        exact h.timed
      · rw [hsessions, hsame]
        exact h.apart later (le_trans hclock hle) hlater
    · have ha : a ∈ s.sessions := List.mem_of_find?_eq_some hfind
      have hkey : node.key = a.node.key := keepsKey_change _ _ _ hnode
      have htimed : ∀ d ∈ node.value, d.IsTimed := timed_change hnow hnode (h.timed a ha)
      have hmem : ∀ P : Session → Prop, (∀ b ∈ s.sessions, P b) → P { a with node := node } →
          ∀ b ∈ l₁ ++ { a with node := node } :: l₂, P b := by
        intro P hP hPa b hb
        rw [hl] at hP
        rcases List.mem_append.mp hb with hb | hb
        · exact hP b (List.mem_append_left _ hb)
        · rcases List.mem_cons.mp hb with rfl | hb
          · exact hPa
          · exact hP b (List.mem_append_right _ (List.mem_cons_of_mem _ hb))
      -- An unexpired session of the same id would have made the changed one unexpired before.
      have halive : ∀ later, now ≤ later → IsTime later → ∀ b ∈ s.sessions,
          b.Unexpired later → b.node.key = a.node.key → a.Unexpired now := fun later hle hlater
          b hb hb' hbkey => hkeeps a hfind b hb hbkey (hb'.mono (h.timed b hb) hnow hlater hle)
      refine ⟨lists_step _ h.lists, ?_, ?_, fun later hle hlater => ?_⟩
      · rw [hsessions, hchanged]
        exact hmem _ h.seeds (hkey.trans (h.seeds a ha))
      · rw [hsessions, hchanged]
        exact hmem _ h.timed htimed
      · have hbefore := h.apart later (le_trans hclock hle) hlater
        have hbefore' := h.apart now hclock hnow
        rw [hl] at hbefore hbefore'
        rw [hsessions, hchanged]
        rw [List.pairwise_append, List.pairwise_cons] at hbefore'
        obtain ⟨-, ⟨hright, -⟩, hcross⟩ := hbefore'
        refine pairwise_replace hbefore (fun b hb _ hb' _ hsame => ?_)
          fun b hb _ _ hb' hsame => ?_
        · have hbmem : b ∈ s.sessions := hl ▸ List.mem_append_left _ hb
          have hbkey : b.node.key = a.node.key := hsame.trans hkey
          exact hcross b hb a List.mem_cons_self (hb'.mono (h.timed b hbmem) hnow hlater hle)
            (halive later hle hlater b hbmem hb' hbkey) hbkey
        · have hbmem : b ∈ s.sessions :=
            hl ▸ List.mem_append_right _ (List.mem_cons_of_mem _ hb)
          have hbkey : b.node.key = a.node.key := hsame.symm.trans hkey
          exact hright b hb (halive later hle hlater b hbmem hb' hbkey)
            (hb'.mono (h.timed b hbmem) hnow hlater hle) hbkey.symm

/-! ## Isolation over runs -/

/-- Under the invariant, what `getSession` returns was stored in a session that shares its
id with no other unexpired one. -/
theorem SessionRun.Inv.isolated {lib : Libc} {s : SessionRun} (h : s.Inv lib) {now : ℤ}
    (hclock : s.clock ≤ now) (hnow : IsTime now) : s.Isolated now where
  ids := h.apart now hclock hnow
  values := by
    intro id key v hget
    rw [getSession, search_eq, h.lists, Option.getD_eq_iff] at hget
    rcases hget with hget | ⟨-, ⟨⟩⟩
    obtain ⟨node, hnode, hanswer⟩ := List.exists_of_findSome?_eq_some hget
    obtain ⟨d, hfind, hd⟩ := Option.map_eq_some_iff.mp hanswer
    obtain ⟨hunexpired, hdata⟩ := SessionData.answer_eq_some_iff.mp hd
    have hmem : d ∈ node.value := List.mem_of_find?_eq_some hfind
    have hkey : d.key = key := by simpa using List.find?_some hfind
    obtain ⟨hnode, hid⟩ := List.mem_filter.mp hnode
    obtain ⟨a, ha, rfl⟩ := List.mem_map.mp hnode
    have hid' : a.node.key = id := by simpa using hid
    have halive : a.Unexpired now := ⟨d, hmem, hunexpired⟩
    have hapart := h.apart now hclock hnow
    obtain ⟨l₁, l₂, hl⟩ := List.append_of_mem ha
    rw [hl, List.pairwise_append, List.pairwise_cons] at hapart
    obtain ⟨-, ⟨hright, -⟩, hcross⟩ := hapart
    refine ⟨l₁, a, l₂, hl, hid', ⟨d, hmem, hkey, hdata⟩, fun b hb hb' => ?_⟩
    rw [← hid']
    rcases List.mem_append.mp hb with hb | hb
    · exact hcross b hb a List.mem_cons_self hb' halive
    · exact (hright b hb halive hb').symm

/-- A call adds a session with the id it returns, if it is one of `SessionCreate`. -/
theorem map_key_sessionStep {lib : Libc} (l : List Session) (c : TimedCall) :
    (sessionStep lib l c).map (fun a => a.node.key)
      = (drawnIds lib [c]).reverse ++ l.map fun a => a.node.key := by
  by_cases hcreate : ∃ timep key value, c.call = .create timep key value
  · obtain ⟨timep, key, value, hcall⟩ := hcreate
    simp [sessionStep, drawnIds, hcall]
  · have hother : ∀ timep key value, c.call ≠ .create timep key value :=
      fun timep key value hc => hcreate ⟨timep, key, value, hc⟩
    have hnone : drawnIds lib [c] = [] := by
      unfold drawnIds
      rw [List.filterMap_cons_none, List.filterMap_nil]
      split
      · next timep key value hcall => exact absurd hcall (hother timep key value)
      · rfl
    have hcases : sessionStep lib l c = l ∨ _ := sessionStep_cases hother
    rw [hnone, List.reverse_nil, List.nil_append]
    rcases hcases with hsame | ⟨l₁, a, node, l₂, rfl, -, hnode, hchanged⟩
    · rw [hsame]
    · rw [hchanged, List.map_append, List.map_append, List.map_cons, List.map_cons]
      show _ ++ node.key :: _ = _
      rw [keepsKey_change _ _ _ hnode]

/-- In every run whose calls keep the sessions apart, each `SessionCreate` has made the
session with the id it returned, and the sessions are isolated at every moment. -/
theorem sessions_isolated {lib : Libc} {s : SessionRun} {cs : List TimedCall}
    (h : Steps (ApartStep lib) .init cs s) :
    s.sessions.map (fun a => a.node.key) = (drawnIds lib cs).reverse ∧
      ∀ now, s.clock ≤ now → IsTime now → s.Isolated now := by
  have hinv : s.Inv lib :=
    h.invariant (fun _ _ _ hs hstep => hs.step hstep) (SessionRun.inv_init lib)
  refine ⟨?_, fun now hclock hnow => hinv.isolated hclock hnow⟩
  clear hinv
  induction h with
  | nil => rfl
  | @snoc t u cs c hrun hlast ih =>
      obtain ⟨⟨-, -, rfl⟩, -⟩ := hlast
      show (sessionStep lib t.sessions c).map (fun a => a.node.key) = _
      have happend : drawnIds lib (cs ++ [c]) = drawnIds lib cs ++ drawnIds lib [c] :=
        List.filterMap_append
      rw [map_key_sessionStep, ih, happend, List.reverse_append]

/-- A second later. -/
def nextSecond : Tm := { summerDay with tmSec := 6, sec_range := by decide }

/-- A generator that counts up from its seed, and a clock that goes on after 100. -/
def countingLibc : Libc where
  localtime := fun t => if t ≤ 100 then summerDay else nextSecond
  rand := fun seed i => seed + i

/-- Two clients create their sessions. -/
def createAnn : TimedCall := ⟨.create 100 (bytes "user") (bytes "ann"), 100⟩
@[inherit_doc createAnn] def createBob (now : ℤ) : TimedCall :=
  ⟨.create now (bytes "user") (bytes "bob"), now⟩

/-- Created in different seconds, the sessions have different ids. -/
theorem sessions_isolated_countingLibc :
    ((SessionRun.init.after countingLibc createAnn).after countingLibc (createBob 101)).Isolated
      101 := by
  have hann : ApartStep countingLibc .init createAnn _ :=
    ⟨⟨by decide, ⟨by decide, by decide⟩, rfl⟩, fun a ha => absurd ha List.not_mem_nil⟩
  have hbob : ApartStep countingLibc (SessionRun.init.after countingLibc createAnn)
      (createBob 101)
      ((SessionRun.init.after countingLibc createAnn).after countingLibc (createBob 101)) := by
    refine ⟨⟨by decide, ⟨by decide, by decide⟩, rfl⟩, fun a ha _ => ?_⟩
    rw [List.mem_singleton.mp ha]
    exact ⟨0, by decide, by decide⟩
  exact (sessions_isolated (.snoc (.snoc .nil hann) hbob)).2 101 (by decide)
    ⟨by decide, by decide⟩

/-- Created in the same second, they have the same one. -/
theorem not_isolated_sameSecond : ¬ ∀ (lib : Libc) (s : SessionRun) (cs : List TimedCall),
    Steps (CallStep lib) .init cs s → ∀ now, s.clock ≤ now → IsTime now → s.Isolated now := by
  intro h
  have hann : CallStep countingLibc .init createAnn _ :=
    ⟨by decide, ⟨by decide, by decide⟩, rfl⟩
  have hbob : CallStep countingLibc (SessionRun.init.after countingLibc createAnn)
      (createBob 100) _ := ⟨by decide, ⟨by decide, by decide⟩, rfl⟩
  have hisolated := h _ _ _ (.snoc (.snoc .nil hann) hbob) 100 (by decide)
    ⟨by decide, by decide⟩
  have hids := (List.pairwise_cons.mp hisolated.ids).1 _ List.mem_cons_self
  refine hids ⟨_, List.mem_cons_self, ?_⟩ ⟨_, List.mem_cons_self, ?_⟩ ?_
  · show toInt 100 ≤ toInt (toInt 100 + 60 * 5)
    decide
  · show toInt 100 ≤ toInt (toInt 100 + 60 * 5)
    decide
  · rfl
