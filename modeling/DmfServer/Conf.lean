/-
# The configuration

`conf_init` reads `conf.xml`: it looks for the first `model` among the children of the root, goes
over the children of that, stores the content of those it knows, and then sets the parts of the
server and of the router.

The document is a tree as `libxml2` gives it: every node with its name, which a node need not
have, with what `xmlNodeGetContent` makes of it, and with its children.  A string of the
configuration is stored with `strcpy` in a field of a fixed size.

`confInit_iff`: the loop comes to an end with everything stored exactly when there is a child,
every child has a name that is known, and every content fits its field; a child with another name
is looked at for ever.
-/
import DmfServer.Block

open CMem

/-! ## The configuration and the document -/

/-- `ServerMode`. -/
inductive ServerMode : Type where
  | simpleServer : ServerMode
  | iocpServer : ServerMode
  | sslServer : ServerMode
  | epollServer : ServerMode
  deriving DecidableEq, Repr

/-- `conf_server`. -/
structure ConfServer where
  port : ℤ
  host : Block 64
  mode : ServerMode
  certPrivate : Block 128
  certPublic : Block 128

/-- `conf_model`. -/
structure ConfModel where
  host : Block 64
  port : ℤ
  username : Block 32
  password : Block 32
  database : Block 32

/-- `conf_router`. -/
structure ConfRouter where
  staticDir : Block 1024

/-- `server_cf_t`. -/
structure ServerCf where
  model : ConfModel
  server : ConfServer
  router : ConfRouter

/-- A node of the document. -/
inductive XmlNode : Type where
  | node (name : Option (List UInt8)) (content : Option (List UInt8))
      (children : List XmlNode) : XmlNode

/-- `name`. -/
def XmlNode.name : XmlNode → Option (List UInt8)
  | .node name _ _ => name

/-- `xmlNodeGetContent`; some nodes have none. -/
def XmlNode.content : XmlNode → Option (List UInt8)
  | .node _ content _ => content

/-- `children`. -/
def XmlNode.children : XmlNode → List XmlNode
  | .node _ _ children => children

/-! ## `conf_init` -/

/-- The children of the `model` that the loop knows. -/
inductive ModelField : Type where
  | host : ModelField
  | port : ModelField
  | username : ModelField
  | password : ModelField
  | database : ModelField
  deriving DecidableEq, Repr

/-- The comparisons with `xmlStrcmp`, for which no name is equal to a missing one. -/
def ModelField.ofName (name : Option (List UInt8)) : Option ModelField :=
  if name = some (bytes "host") then some .host
  else if name = some (bytes "port") then some .port
  else if name = some (bytes "username") then some .username
  else if name = some (bytes "password") then some .password
  else if name = some (bytes "database") then some .database
  else none

/-- `strcpy` from `szKey`. -/
def strcpyKey {n : ℕ} (b : Block n) (szKey : Option (List UInt8)) : Except Fault (Block n) :=
  match szKey with
  | none => .error .null
  | some s => b.strcpy 0 s

/-- The branch for a child that is known. -/
def storeField (m : ConfModel) (szKey : Option (List UInt8)) :
    ModelField → Except Fault ConfModel
  | .host => do .ok { m with host := ← strcpyKey m.host szKey }
  | .port =>
      match szKey with
      | none => .error .null
      | some s => .ok { m with port := atoi s }
  | .username => do .ok { m with username := ← strcpyKey m.username szKey }
  | .password => do .ok { m with password := ← strcpyKey m.password szKey }
  | .database => do .ok { m with database := ← strcpyKey m.database szKey }

/-- The loop over the children of the `model`.  `szKey` has a value from the first round on; a
child that is not known goes back to the condition of the loop, with `curNode` as it is. -/
def confLoop : ℕ → List XmlNode → Option (Option (List UInt8)) → ConfModel →
    Except Fault (Option (Option (List UInt8)) × ConfModel)
  | 0, _, _, _ => .error .loop
  | _ + 1, [], szKey, m => .ok (szKey, m)
  | fuel + 1, curNode :: next, _, m =>
      match ModelField.ofName curNode.name with
      | some field => do
          let m ← storeField m curNode.content field
          confLoop fuel next (some curNode.content) m
      | none => confLoop fuel (curNode :: next) (some curNode.content) m

/-- `xmlFree(szKey)`, of a pointer that may have no value yet. -/
def xmlFree (szKey : Option (Option (List UInt8))) : Except Fault Unit :=
  match szKey with
  | none => .error .free
  | some _ => .ok ()

/-- The settings of the server. -/
def serverSettings (c : ConfServer) : Except Fault ConfServer := do
  let host ← c.host.strcpy 0 (bytes "localhost")
  let certPublic ← c.certPublic.strcpy 0 (bytes "./cert/localhost.pem")
  let certPrivate ← c.certPrivate.strcpy 0 (bytes "./cert/localhost-key.pem")
  .ok ⟨8080, host, .simpleServer, certPrivate, certPublic⟩

/-- The settings of the router. -/
def routerSettings (c : ConfRouter) : Except Fault ConfRouter := do
  .ok ⟨← c.staticDir.strcpy 0 (bytes "static")⟩

/-- `conf_init`, of the root of the document, for a number of rounds that `fuel` bounds. -/
def confInit (fuel : ℕ) (root : Option XmlNode) (cf : ServerCf) : Except Fault ServerCf :=
  match root with
  | none => .ok cf
  | some root =>
      if root.name ≠ some (bytes "dmfserver") then .ok cf
      else
        match root.children.find? (·.name = some (bytes "model")) with
        | none => .error .null
        | some child => do
            let (szKey, model) ← confLoop fuel child.children none cf.model
            xmlFree szKey
            let server ← serverSettings cf.server
            let router ← routerSettings cf.router
            .ok ⟨model, server, router⟩

/-! ## What a field is given -/

/-- The field is the content: a string in its memory, or the number it begins with. -/
def ModelField.Holds (m : ConfModel) (text : List UInt8) : ModelField → Prop
  | .host => m.host.readStr 0 = .ok text
  | .port => m.port = atoi text
  | .username => m.username.readStr 0 = .ok text
  | .password => m.password.readStr 0 = .ok text
  | .database => m.database.readStr 0 = .ok text

/-- The field has not changed. -/
def ModelField.Same (m m' : ConfModel) : ModelField → Prop
  | .host => m'.host = m.host
  | .port => m'.port = m.port
  | .username => m'.username = m.username
  | .password => m'.password = m.password
  | .database => m'.database = m.database

/-- The content fits the field. -/
def ModelField.Fits (text : List UInt8) : ModelField → Prop
  | .host => text.length < 64
  | .port => True
  | .username => text.length < 32
  | .password => text.length < 32
  | .database => text.length < 32

/-- The last content that the children give for a field. -/
def lastGiven (field : ModelField) (nodes : List XmlNode) : Option (List UInt8) :=
  (nodes.filterMap fun node =>
    if ModelField.ofName node.name = some field then node.content else none).getLast?

/-- Every field has the last content given for it, and those that none is given for are as they
were. -/
def Stored (nodes : List XmlNode) (m m' : ConfModel) : Prop :=
  ∀ field : ModelField,
    match lastGiven field nodes with
    | some text => field.Holds m' text
    | none => field.Same m m'

/-- A child that is known, with a content that fits. -/
def Accepted (node : XmlNode) : Prop :=
  ∃ field text, ModelField.ofName node.name = some field ∧ node.content = some text ∧
    field.Fits text

/-- The settings of the server and of the router. -/
structure SettingsHold (cf : ServerCf) : Prop where
  port : cf.server.port = 8080
  host : cf.server.host.readStr 0 = .ok (bytes "localhost")
  certPublic : cf.server.certPublic.readStr 0 = .ok (bytes "./cert/localhost.pem")
  certPrivate : cf.server.certPrivate.readStr 0 = .ok (bytes "./cert/localhost-key.pem")
  mode : cf.server.mode = .simpleServer
  staticDir : cf.router.staticDir.readStr 0 = .ok (bytes "static")

/-! ## One child -/

section
variable {m m' m'' : ConfModel} {field : ModelField} {text : List UInt8}

theorem ModelField.Same.trans (h : field.Same m m') (h' : field.Same m' m'') :
    field.Same m m'' := by
  cases field <;> exact Eq.trans h' h

theorem ModelField.Holds.of_same (h : field.Holds m text) (hsame : field.Same m m') :
    field.Holds m' text := by
  cases field
  case port => exact Eq.trans hsame h
  all_goals
    simp only [ModelField.Same] at hsame
    simpa only [ModelField.Holds, hsame] using h

/-- What `strcpy` has stored fits, and can be read back. -/
theorem strcpyKey_spec {n : ℕ} {b b' : Block n} {szKey : Option (List UInt8)}
    (htext : ∀ s, szKey = some s → IsText s) (h : strcpyKey b szKey = .ok b') :
    ∃ text, szKey = some text ∧ text.length < n ∧ b'.readStr 0 = .ok text := by
  cases szKey with
  | none => cases h
  | some text =>
      have hle := Block.le_of_strcpy h
      have hstr := Block.str_strcpy_self (htext text rfl) h
      refine ⟨text, rfl, by omega, Block.readStr_eq_ok_iff.mpr ⟨?_, hstr⟩⟩
      rw [hstr]
      omega

/-- A child that has been stored: its content fits its field, and no other field changes. -/
theorem storeField_spec {szKey : Option (List UInt8)} (htext : ∀ s, szKey = some s → IsText s)
    (h : storeField m szKey field = .ok m') :
    ∃ text, szKey = some text ∧ field.Fits text ∧ field.Holds m' text ∧
      ∀ other ≠ field, other.Same m m' := by
  cases field
  case port =>
    cases szKey with
    | none => cases h
    | some text =>
        obtain rfl := Except.ok.inj h
        refine ⟨text, rfl, trivial, rfl, fun other hne => ?_⟩
        cases other <;> first | exact absurd rfl hne | rfl
  all_goals
    obtain ⟨b, hcopy, h⟩ := exists_of_bind h
    obtain rfl := Except.ok.inj h
    obtain ⟨text, hkey, hfits, hread⟩ := strcpyKey_spec htext hcopy
    refine ⟨text, hkey, hfits, hread, fun other hne => ?_⟩
    cases other <;> first | exact absurd rfl hne | rfl

theorem exists_strcpyKey {n : ℕ} (b : Block n) (h : text.length < n) :
    ∃ b', strcpyKey b (some text) = .ok b' :=
  Block.strcpy_eq_ok (show 0 + text.length + 1 ≤ n by omega)

/-- A content that fits is stored. -/
theorem exists_storeField (m : ConfModel) (h : field.Fits text) :
    ∃ m', storeField m (some text) field = .ok m' := by
  cases field with
  | host =>
      obtain ⟨b, hcopy⟩ := exists_strcpyKey m.host h
      exact ⟨{ m with host := b }, by rw [storeField, hcopy, ok_bind]⟩
  | port => exact ⟨{ m with port := atoi text }, rfl⟩
  | username =>
      obtain ⟨b, hcopy⟩ := exists_strcpyKey m.username h
      exact ⟨{ m with username := b }, by rw [storeField, hcopy, ok_bind]⟩
  | password =>
      obtain ⟨b, hcopy⟩ := exists_strcpyKey m.password h
      exact ⟨{ m with password := b }, by rw [storeField, hcopy, ok_bind]⟩
  | database =>
      obtain ⟨b, hcopy⟩ := exists_strcpyKey m.database h
      exact ⟨{ m with database := b }, by rw [storeField, hcopy, ok_bind]⟩

end

/-! ## The loop -/

section
variable {node : XmlNode} {rest : List XmlNode} {field : ModelField} {text : List UInt8}

/-- The last content for a field, when the first child gives one. -/
theorem lastGiven_cons_self (hname : ModelField.ofName node.name = some field)
    (hcontent : node.content = some text) :
    lastGiven field (node :: rest) = some ((lastGiven field rest).getD text) := by
  unfold lastGiven
  rw [List.filterMap_cons_some (by rw [if_pos hname, hcontent]), List.getLast?_cons]

theorem lastGiven_cons_other {other : ModelField}
    (hname : ModelField.ofName node.name = some field) (hne : other ≠ field) :
    lastGiven other (node :: rest) = lastGiven other rest := by
  unfold lastGiven
  rw [List.filterMap_cons_none]
  rw [if_neg]
  rw [hname]
  exact fun h => hne (Option.some.inj h).symm

/-- A child that is stored, and then the others. -/
theorem Stored.cons {m m₁ m' : ConfModel} (hname : ModelField.ofName node.name = some field)
    (hcontent : node.content = some text) (hholds : field.Holds m₁ text)
    (hsame : ∀ other ≠ field, other.Same m m₁) (h : Stored rest m₁ m') :
    Stored (node :: rest) m m' := by
  intro other
  have hother := h other
  by_cases hfield : other = field
  · subst hfield
    rw [lastGiven_cons_self hname hcontent]
    cases hlast : lastGiven other rest with
    | none =>
        rw [hlast] at hother
        exact hholds.of_same hother
    | some last =>
        rw [hlast] at hother
        exact hother
  · rw [lastGiven_cons_other hname hfield]
    cases hlast : lastGiven other rest with
    | none =>
        rw [hlast] at hother
        exact (hsame other hfield).trans hother
    | some last =>
        rw [hlast] at hother
        exact hother

end

/-- A child that is not known is the last one the loop looks at. -/
theorem confLoop_unknown {node : XmlNode} (hname : ModelField.ofName node.name = none)
    (fuel : ℕ) (rest : List XmlNode) (szKey : Option (Option (List UInt8))) (m : ConfModel) :
    confLoop fuel (node :: rest) szKey m = .error .loop := by
  induction fuel generalizing szKey with
  | zero => rfl
  | succ fuel ih =>
      rw [confLoop, hname]
      exact ih _

/-- A loop that ends has accepted and stored every child, and `szKey` has a value unless there was
no child. -/
theorem confLoop_spec {fuel : ℕ} {nodes : List XmlNode} {szKey key : Option (Option (List UInt8))}
    {m m' : ConfModel} (htext : ∀ node ∈ nodes, ∀ s, node.content = some s → IsText s)
    (h : confLoop fuel nodes szKey m = .ok (key, m')) :
    (∀ node ∈ nodes, Accepted node) ∧ Stored nodes m m' ∧
      (key = none ↔ szKey = none ∧ nodes = []) := by
  induction fuel generalizing nodes szKey m with
  | zero => cases h
  | succ fuel ih =>
      cases nodes with
      | nil =>
          cases h
          refine ⟨nofun, fun field => ?_, by simp⟩
          cases field <;> rfl
      | cons node rest =>
          rw [confLoop] at h
          split at h
          · next field hname =>
            obtain ⟨m₁, hstore, hloop⟩ := exists_of_bind h
            obtain ⟨text, hcontent, hfits, hholds, hsame⟩ :=
              storeField_spec (htext node List.mem_cons_self) hstore
            obtain ⟨haccepted, hstored, hkey⟩ :=
              ih (fun node' hmem => htext node' (List.mem_cons_of_mem _ hmem)) hloop
            refine ⟨?_, hstored.cons hname hcontent hholds hsame, ?_⟩
            · rintro node' (_ | ⟨_, hmem⟩)
              · exact ⟨field, text, hname, hcontent, hfits⟩
              · exact haccepted node' hmem
            · rw [hkey]
              simp
          · next hname =>
            rw [confLoop_unknown hname] at h
            cases h

/-- The loop ends where every child is accepted. -/
theorem exists_confLoop {nodes : List XmlNode} (h : ∀ node ∈ nodes, Accepted node)
    (szKey : Option (Option (List UInt8))) (m : ConfModel) :
    ∃ r, confLoop (nodes.length + 1) nodes szKey m = .ok r := by
  induction nodes generalizing szKey m with
  | nil => exact ⟨_, rfl⟩
  | cons node rest ih =>
      obtain ⟨field, text, hname, hcontent, hfits⟩ := h node List.mem_cons_self
      obtain ⟨m₁, hstore⟩ := exists_storeField m hfits
      obtain ⟨r, hloop⟩ := ih (fun node' hmem => h node' (List.mem_cons_of_mem _ hmem))
        (some (some text)) m₁
      refine ⟨r, ?_⟩
      rw [List.length_cons, confLoop, hname]
      dsimp only
      rw [hcontent, hstore, ok_bind, hloop]

/-! ## The whole function -/

/-- The settings always fit. -/
theorem exists_settings (server : ConfServer) (router : ConfRouter) (model : ConfModel) :
    ∃ server' router', serverSettings server = .ok server' ∧
      routerSettings router = .ok router' ∧ SettingsHold ⟨model, server', router'⟩ := by
  obtain ⟨host, hhost, hhost'⟩ := Block.exists_strcpy (b := server.host)
    (s := bytes "localhost") (by decide) (by decide)
  obtain ⟨certPublic, hpublic, hpublic'⟩ := Block.exists_strcpy (b := server.certPublic)
    (s := bytes "./cert/localhost.pem") (by decide) (by decide)
  obtain ⟨certPrivate, hprivate, hprivate'⟩ := Block.exists_strcpy (b := server.certPrivate)
    (s := bytes "./cert/localhost-key.pem") (by decide) (by decide)
  obtain ⟨staticDir, hstatic, hstatic'⟩ := Block.exists_strcpy (b := router.staticDir)
    (s := bytes "static") (by decide) (by decide)
  refine ⟨⟨8080, host, .simpleServer, certPrivate, certPublic⟩, ⟨staticDir⟩, ?_, ?_,
    rfl, hhost', hpublic', hprivate', rfl, hstatic'⟩
  · unfold serverSettings
    rw [hhost, ok_bind, hpublic, ok_bind, hprivate, ok_bind]
  · unfold routerSettings
    rw [hstatic, ok_bind]

/-- A document with a `model`: the root, what stands in front of the `model`, and behind it. -/
def modelDocument (before after : List XmlNode) (content : Option (List UInt8))
    (nodes : List XmlNode) : XmlNode :=
  .node (some (bytes "dmfserver")) none
    (before ++ .node (some (bytes "model")) content nodes :: after)

/-- With a `model`, `conf_init` is the loop over its children, and then the settings. -/
theorem confInit_model {before : List XmlNode}
    (hbefore : ∀ node ∈ before, node.name ≠ some (bytes "model")) (after : List XmlNode)
    (content : Option (List UInt8)) (nodes : List XmlNode) (fuel : ℕ) (cf : ServerCf) :
    confInit fuel (some (modelDocument before after content nodes)) cf = (do
      let (szKey, model) ← confLoop fuel nodes none cf.model
      xmlFree szKey
      let server ← serverSettings cf.server
      let router ← routerSettings cf.router
      .ok ⟨model, server, router⟩) := by
  have hroot : ¬(modelDocument before after content nodes).name ≠ some (bytes "dmfserver") :=
    not_not_intro rfl
  have hfind : (modelDocument before after content nodes).children.find?
      (·.name = some (bytes "model")) = some (.node (some (bytes "model")) content nodes) := by
    unfold modelDocument XmlNode.children
    rw [List.find?_append, List.find?_eq_none.mpr (by simpa using hbefore), Option.none_or,
      List.find?_cons_of_pos]
    exact decide_eq_true rfl
  unfold confInit
  dsimp only
  rw [if_neg hroot, hfind]
  rfl

/-- `conf_init` comes to an end, with the last content for every field stored and the settings
made, exactly when the `model` has children, and every one is known and has a content that fits
its field. -/
theorem confInit_iff {before nodes : List XmlNode}
    (hbefore : ∀ node ∈ before, node.name ≠ some (bytes "model"))
    (htext : ∀ node ∈ nodes, ∀ s, node.content = some s → IsText s)
    (after : List XmlNode) (content : Option (List UInt8)) (cf : ServerCf) :
    (∃ fuel cf', confInit fuel (some (modelDocument before after content nodes)) cf = .ok cf' ∧
      Stored nodes cf.model cf'.model ∧ SettingsHold cf') ↔
      nodes ≠ [] ∧ ∀ node ∈ nodes, Accepted node := by
  constructor
  · -- every child was accepted on the way to the end, and `szKey` had a value to free
    rintro ⟨fuel, cf', hrun, -, -⟩
    rw [confInit_model hbefore] at hrun
    obtain ⟨⟨key, model⟩, hloop, hrest⟩ := exists_of_bind hrun
    obtain ⟨haccepted, -, hkey⟩ := confLoop_spec htext hloop
    refine ⟨?_, haccepted⟩
    rintro rfl
    rw [hkey.mpr ⟨rfl, rfl⟩] at hrest
    cases hrest
  · rintro ⟨hne, haccepted⟩
    obtain ⟨⟨key, model⟩, hloop⟩ := exists_confLoop haccepted none cf.model
    obtain ⟨-, hstored, hkey⟩ := confLoop_spec htext hloop
    obtain ⟨szKey, rfl⟩ := Option.ne_none_iff_exists'.mp fun h => hne (hkey.mp h).2
    obtain ⟨server, router, hserver, hrouter, hsettings⟩ :=
      exists_settings cf.server cf.router model
    refine ⟨nodes.length + 1, ⟨model, server, router⟩, ?_, hstored, hsettings⟩
    rw [confInit_model hbefore, hloop, ok_bind]
    dsimp only
    rw [xmlFree, ok_bind, hserver, ok_bind, hrouter, ok_bind]

/-- The configuration before `conf_init`. -/
def zeroConf : ServerCf where
  model := ⟨Block.zero 64, 0, Block.zero 32, Block.zero 32, Block.zero 32⟩
  server := ⟨0, Block.zero 64, .simpleServer, Block.zero 128, Block.zero 128⟩
  router := ⟨Block.zero 1024⟩

/-- With a comment in the `model`, `conf_init` never returns. -/
theorem not_confInit_comment : ¬∃ fuel cf', confInit fuel (some (modelDocument [] [] none
    [.node (some (bytes "comment")) (some (bytes "db")) []])) zeroConf = .ok cf' := by
  rintro ⟨fuel, cf', hrun⟩
  have hname : ModelField.ofName
      (XmlNode.node (some (bytes "comment")) (some (bytes "db")) []).name = none := by decide
  rw [confInit_model (List.forall_mem_nil _), confLoop_unknown hname] at hrun
  cases hrun

/-- A `model` behind another node, with a host, a port and a port that replaces it. -/
theorem confInit_iff_hostPort :
    ∃ fuel cf', confInit fuel (some (modelDocument
        [.node (some (bytes "server")) none []] [] none
        [.node (some (bytes "host")) (some (bytes "127.0.0.1")) [],
          .node (some (bytes "port")) (some (bytes "3306")) [],
          .node (some (bytes "port")) (some (bytes "3307")) []])) zeroConf = .ok cf' ∧
      Stored [.node (some (bytes "host")) (some (bytes "127.0.0.1")) [],
        .node (some (bytes "port")) (some (bytes "3306")) [],
        .node (some (bytes "port")) (some (bytes "3307")) []] zeroConf.model cf'.model ∧
      SettingsHold cf' := by
  refine (confInit_iff ?_ ?_ [] none zeroConf).mpr ⟨List.cons_ne_nil _ _, ?_⟩
  · intro node hmem
    obtain rfl := List.mem_singleton.mp hmem
    decide
  · intro node hmem s hs
    fin_cases hmem <;> (cases hs; decide)
  · intro node hmem
    fin_cases hmem
    · have hfits : (bytes "127.0.0.1").length < 64 := by decide
      exact ⟨.host, bytes "127.0.0.1", by decide, rfl, hfits⟩
    · exact ⟨.port, bytes "3306", by decide, rfl, trivial⟩
    · exact ⟨.port, bytes "3307", by decide, rfl, trivial⟩
