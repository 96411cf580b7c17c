/-
# The header that is sent

What the six arrays of a `response_t` read when the setters have been called, in any
order: a line longer than its array leaves what runs over in the next one
(`Response.Reads.typeWritten`, `Response.Reads.cookieWritten`), and `res_parse_send` puts
the arrays together as they read (`Response.Reads.sentBy_iff`).
-/
import DmfServer.Response

open CMem

/-! ## What the arrays read -/

theorem places : serverAt = 0 ∧ dateAt = 32 ∧ headCodeAt = 64 ∧ contentTypeAt = 96 ∧
    setCookieAt = 128 ∧ connectionAt = 160 ∧ responseSize = 192 :=
  ⟨rfl, rfl, rfl, rfl, rfl, rfl, rfl⟩

/-- What the six arrays read as C strings. -/
structure Response.Reads (res : Response) (server date head type cookie connection : List UInt8) :
    Prop where
  server : res.text.str serverAt = server
  date : res.text.str dateAt = date
  head : res.text.str headCodeAt = head
  type : res.text.str contentTypeAt = type
  cookie : res.text.str setCookieAt = cookie
  connection : res.text.str connectionAt = connection

/-- `res'` is `res` with the text `s` appended to the string at `off`. -/
structure Response.Appended (res : Response) (off : ℕ) (s : List UInt8) (res' : Response) :
    Prop where
  self : res'.text.str off = res.text.str off ++ s
  /-- A string that ends before the place of the write is unchanged. -/
  below : ∀ k, k + (res.text.str k).length < off + (res.text.str off).length →
    res'.text.str k = res.text.str k
  /-- So is a string behind the write. -/
  above : ∀ k, off + (res.text.str off).length + s.length < k →
    res'.text.str k = res.text.str k
  /-- A string that starts in the written text reads the rest of it. -/
  inside : ∀ k, off + (res.text.str off).length ≤ k →
    k ≤ off + (res.text.str off).length + s.length →
    res'.text.str k = s.drop (k - (off + (res.text.str off).length))
  pbody : res'.pbody = res.pbody
  bodySize : res'.bodySize = res.bodySize

theorem strcat_appended (res : Response) (off : ℕ) {s : List UInt8} (hs : IsText s)
    (hroom : off + (res.text.str off).length + s.length < responseSize) :
    ∃ res', res.strcat off s = .ok res' ∧ res.Appended off s res' := by
  obtain ⟨b, hb⟩ : ∃ b, res.text.strcat off s = .ok b := Block.strcpy_eq_ok (by omega)
  refine ⟨{ res with text := b }, by rw [Response.strcat, hb]; rfl, ?_, ?_, ?_, ?_, rfl, rfl⟩
  · exact Block.str_strcat hs hb
  · exact fun k hk => Block.str_strcpy_below hb hk
  · exact fun k hk => Block.str_strcpy_above hb hk
  · intro k hk hk'
    have hstr := Block.str_strcpy hs hb (k - (off + (res.text.str off).length)) (by omega)
    rwa [show off + (res.text.str off).length + (k - (off + (res.text.str off).length)) = k
      from by omega] at hstr

theorem strcat_overflow (res : Response) {off : ℕ} {s : List UInt8}
    (hroom : responseSize ≤ off + (res.text.str off).length + s.length) :
    res.strcat off s = .error .write := by
  have hb : res.text.strcat off s = .error .write := Block.strcpy_eq_error (by omega)
  rw [Response.strcat, hb]
  rfl

/-! ## The lengths of the lines -/

theorem length_serverLine : serverLine.length = 18 := by decide

theorem length_connectionLine : connectionLine.length = 23 := by decide

theorem length_dateLine_le (p : Tm) : (dateLine p).length ≤ 26 := by
  have h₁ : (bytes "Date:").length = 5 := by decide
  have h₂ : (bytes "\r\n").length = 2 := by decide
  have h₃ := length_serverTime_le p
  simp only [dateLine, List.length_append, h₁, h₂]
  omega

theorem length_statusLine (code : List UInt8) : (statusLine code).length = 11 + code.length := by
  have h₁ : (bytes "HTTP/1.1 ").length = 9 := by decide
  have h₂ : (bytes "\r\n").length = 2 := by decide
  simp only [statusLine, List.length_append, h₁, h₂]
  omega

theorem length_typeLine (type : List UInt8) : (typeLine type).length = 15 + type.length := by
  have h₁ : (bytes "Content-type:").length = 13 := by decide
  have h₂ : (bytes "\r\n").length = 2 := by decide
  simp only [typeLine, List.length_append, h₁, h₂]
  omega

theorem length_cookieLine (c : Cookie) :
    c.line.length = 14 + c.name.length + c.value.length := by
  have h₁ : (bytes "Set-cookie:").length = 11 := by decide
  have h₂ : (bytes "=").length = 1 := by decide
  have h₃ : (bytes "\r\n").length = 2 := by decide
  simp only [Cookie.line, List.length_append, h₁, h₂, h₃]
  omega

theorem isText_dateLine (p : Tm) : IsText (dateLine p) := by
  have h₁ : IsText (bytes "Date:") := by decide
  have h₂ : IsText (bytes "\r\n") := by decide
  exact isText_append.mpr ⟨isText_append.mpr ⟨h₁, isText_serverTime p⟩, h₂⟩

theorem isText_statusLine {code : List UInt8} (h : IsText code) : IsText (statusLine code) := by
  have h₁ : IsText (bytes "HTTP/1.1 ") := by decide
  have h₂ : IsText (bytes "\r\n") := by decide
  exact isText_append.mpr ⟨isText_append.mpr ⟨h₁, h⟩, h₂⟩

theorem isText_typeLine {type : List UInt8} (h : IsText type) : IsText (typeLine type) := by
  have h₁ : IsText (bytes "Content-type:") := by decide
  have h₂ : IsText (bytes "\r\n") := by decide
  exact isText_append.mpr ⟨isText_append.mpr ⟨h₁, h⟩, h₂⟩

theorem isText_cookieLine {c : Cookie} (hname : IsText c.name) (hvalue : IsText c.value) :
    IsText c.line := by
  have h₁ : IsText (bytes "Set-cookie:") := by decide
  have h₂ : IsText (bytes "=") := by decide
  have h₃ : IsText (bytes "\r\n") := by decide
  simp only [Cookie.line, isText_append]
  exact ⟨⟨⟨⟨h₁, hname⟩, h₂⟩, hvalue⟩, h₃⟩

/-- The content types at hand have no more than 16 characters, or 18 to 29. -/
theorem IsSuppliedType.spec {type : List UInt8} (h : IsSuppliedType type) :
    IsText type ∧ (type.length ≤ 16 ∨ 18 ≤ type.length ∧ type.length ≤ 29) := by
  have hall : ∀ t ∈ bytes "application/octet-stream" :: contentTypes.map Prod.snd,
      IsText t ∧ (t.length ≤ 16 ∨ 18 ≤ t.length ∧ t.length ≤ 29) := by decide
  rcases h with ⟨ext, rfl⟩ | rfl
  · exact hall _ (getContentType_mem ext)
  · decide

/-! ## The record before the lines that may run over -/

/-- The record as `res_init` leaves it. -/
theorem resInit_eq (p : Tm) (raw : Response) :
    ∃ res, resInit p raw = .ok res ∧
      res.Reads serverLine (dateLine p) [] [] [] connectionLine := by
  obtain ⟨h0, h32, h64, h96, h128, h160, hsize⟩ := places
  have hS := length_serverLine
  have hD := length_dateLine_le p
  have hC := length_connectionLine
  let res₀ : Response := { raw with text := Block.zero responseSize, pbody := .null }
  have hzero : ∀ k, res₀.text.str k = [] := fun k => Block.str_zero k
  have hserver : IsText serverLine := by decide
  have hconn : IsText connectionLine := by decide
  obtain ⟨res₁, hrun₁, h₁⟩ := strcat_appended res₀ serverAt hserver
    (by rw [hzero, List.length_nil]; omega)
  -- `Server`, `Date` and `Connection` go to arrays that are zero, each behind the last
  have hself₁ : res₁.text.str serverAt = serverLine := by rw [h₁.self, hzero, List.nil_append]
  have hother₁ : ∀ k, 18 < k → res₁.text.str k = [] := fun k hk => by
    rw [h₁.above k (by rw [hzero, List.length_nil]; omega), hzero]
  obtain ⟨res₂, hrun₂, h₂⟩ := strcat_appended res₁ dateAt (isText_dateLine p)
    (by rw [hother₁ _ (by omega), List.length_nil]; omega)
  have hself₂ : res₂.text.str dateAt = dateLine p := by
    rw [h₂.self, hother₁ _ (by omega), List.nil_append]
  have hserver₂ : res₂.text.str serverAt = serverLine := by
    rw [h₂.below _ (by rw [hself₁, hother₁ dateAt (by omega), List.length_nil]; omega), hself₁]
  have hother₂ : ∀ k, 58 < k → res₂.text.str k = [] := fun k hk => by
    rw [h₂.above k (by rw [hother₁ dateAt (by omega), List.length_nil]; omega),
      hother₁ k (by omega)]
  obtain ⟨res₃, hrun₃, h₃⟩ := strcat_appended res₂ connectionAt hconn
    (by rw [hother₂ _ (by omega), List.length_nil]; omega)
  have hbelow₃ : ∀ k, k + (res₂.text.str k).length < connectionAt →
      res₃.text.str k = res₂.text.str k := fun k hk => h₃.below k (by omega)
  have hempty₃ : ∀ k, 58 < k → k < connectionAt → res₃.text.str k = [] := fun k hk hk' => by
    rw [hbelow₃ k (by rw [hother₂ k hk, List.length_nil]; omega), hother₂ k hk]
  refine ⟨res₃, ?_, ?_, ?_, ?_, ?_, ?_, ?_⟩
  · have hdate : (res₁.strcat dateAt (bytes "Date:") >>= fun res =>
        res.strcat dateAt (serverTime p) >>= fun res => res.strcat dateAt (bytes "\r\n"))
        = .ok res₂ := by
      have hprefix : IsText (bytes "Date:") := by decide
      rw [strcat_line res₁ dateAt hprefix (isText_serverTime p)]
      exact hrun₂
    have hconnection : (res₂.strcat connectionAt (bytes "Connection:keep-alive") >>= fun res =>
        res.strcat connectionAt (bytes "\r\n")) = .ok res₃ := by
      have hprefix : IsText (bytes "Connection:keep-alive") := by decide
      rw [Response.strcat_strcat res₂ connectionAt hprefix]
      exact hrun₃
    have hall : resInit p raw = (res₀.strcat serverAt serverLine >>= fun res =>
        (res.strcat dateAt (bytes "Date:") >>= fun res =>
          res.strcat dateAt (serverTime p) >>= fun res => res.strcat dateAt (bytes "\r\n"))) >>=
        fun res => res.strcat connectionAt (bytes "Connection:keep-alive") >>= fun res =>
          res.strcat connectionAt (bytes "\r\n") := by
      simp only [bind_assoc]
      rfl
    rw [hall, hrun₁, ok_bind, hdate, ok_bind, hconnection]
  · rw [hbelow₃ _ (by rw [hserver₂]; omega), hserver₂]
  · rw [hbelow₃ _ (by rw [hself₂]; omega), hself₂]
  · exact hempty₃ _ (by omega) (by omega)
  · exact hempty₃ _ (by omega) (by omega)
  · exact hempty₃ _ (by omega) (by omega)
  · rw [h₃.self, hother₂ _ (by omega), List.nil_append]

/-! ## Lines that may run over -/

/-- What an array reads that held `old` when the line `s` was written to the array before it. -/
def spill (s old : List UInt8) : List UInt8 := if s.length ≤ 31 then old else s.drop 32

/-- The arrays that the first three lines fill and the three behind them, as they read. -/
def Response.Holds (res : Response) (p : Tm) (code type cookie connection : List UInt8) : Prop :=
  res.Reads serverLine (dateLine p) (statusLine code) type cookie connection

section
variable {res : Response} {p : Tm} {code t k c : List UInt8}

/-- The lines before `Content_type` end in their arrays. -/
theorem Response.Holds.ends (h : res.Holds p code t k c) (hcode : code.length ≤ 20) :
    serverAt + (res.text.str serverAt).length < 32 ∧
      dateAt + (res.text.str dateAt).length < 64 ∧
      headCodeAt + (res.text.str headCodeAt).length < 96 := by
  have hplace := places
  have hD := length_dateLine_le p
  rw [h.server, h.date, h.head, length_serverLine, length_statusLine]
  omega

/-- Writing the status line to the record that `res_init` left. -/
theorem Response.Reads.headWritten
    (h : res.Reads serverLine (dateLine p) [] [] [] connectionLine) (htext : IsText code)
    (hcode : code.length ≤ 20) :
    ∃ res', res.strcat headCodeAt (statusLine code) = .ok res' ∧
      res'.Holds p code [] [] connectionLine ∧ res'.pbody = res.pbody ∧
        res'.bodySize = res.bodySize := by
  have hplace := places
  have hlen := length_statusLine code
  have hD := length_dateLine_le p
  have hstart : headCodeAt + (res.text.str headCodeAt).length = 64 := by
    rw [h.head, List.length_nil]
    omega
  obtain ⟨res', hrun, happ⟩ := strcat_appended res headCodeAt (isText_statusLine htext) (by omega)
  refine ⟨res', hrun, ⟨?_, ?_, ?_, ?_, ?_, ?_⟩, happ.pbody, happ.bodySize⟩
  · rw [happ.below _ (by rw [h.server, length_serverLine]; omega), h.server]
  · rw [happ.below _ (by rw [h.date]; omega), h.date]
  · rw [happ.self, h.head, List.nil_append]
  · rw [happ.above _ (by omega), h.type]
  · rw [happ.above _ (by omega), h.cookie]
  · rw [happ.above _ (by omega), h.connection]

/-- Writing a line to `Content_type`. -/
theorem Response.Holds.typeWritten (h : res.Holds p code [] k c) (hcode : code.length ≤ 20)
    {s : List UInt8} (hs : IsText s) (hroom : contentTypeAt + s.length < responseSize) :
    ∃ res', res.strcat contentTypeAt s = .ok res' ∧
      res'.Holds p code s (spill s k) (spill (s.drop 32) c) ∧ res'.pbody = res.pbody ∧
        res'.bodySize = res.bodySize := by
  have hplace := places
  have hends := h.ends hcode
  have hstart : contentTypeAt + (res.text.str contentTypeAt).length = 96 := by
    rw [h.type, List.length_nil]
    omega
  obtain ⟨res', hrun, happ⟩ := strcat_appended res contentTypeAt hs (by omega)
  refine ⟨res', hrun, ⟨?_, ?_, ?_, ?_, ?_, ?_⟩, happ.pbody, happ.bodySize⟩
  · rw [happ.below _ (by omega), h.server]
  · rw [happ.below _ (by omega), h.date]
  · rw [happ.below _ (by omega), h.head]
  · rw [happ.self, h.type, List.nil_append]
  · rw [spill]
    split
    · rw [happ.above _ (by omega), h.cookie]
    · rw [happ.inside _ (by omega) (by omega), hstart]
      rfl
  · rw [spill, List.length_drop, List.drop_drop]
    split
    · rw [happ.above _ (by omega), h.connection]
    · rw [happ.inside _ (by omega) (by omega), hstart]
      rfl

/-- Writing a line to `Set_cookie`, behind a content type that ends in its array. -/
theorem Response.Holds.cookieWritten (h : res.Holds p code t [] c) (hcode : code.length ≤ 20)
    (ht : t.length ≤ 31) {s : List UInt8} (hs : IsText s)
    (hroom : setCookieAt + s.length < responseSize) :
    ∃ res', res.strcat setCookieAt s = .ok res' ∧ res'.Holds p code t s (spill s c) ∧
      res'.pbody = res.pbody ∧ res'.bodySize = res.bodySize := by
  have hplace := places
  have hends := h.ends hcode
  have htype := h.type
  have hstart : setCookieAt + (res.text.str setCookieAt).length = 128 := by
    rw [h.cookie, List.length_nil]
    omega
  obtain ⟨res', hrun, happ⟩ := strcat_appended res setCookieAt hs (by omega)
  refine ⟨res', hrun, ⟨?_, ?_, ?_, ?_, ?_, ?_⟩, happ.pbody, happ.bodySize⟩
  · rw [happ.below _ (by omega), h.server]
  · rw [happ.below _ (by omega), h.date]
  · rw [happ.below _ (by omega), h.head]
  · rw [happ.below _ (by rw [htype]; omega), htype]
  · rw [happ.self, h.cookie, List.nil_append]
  · rw [spill]
    split
    · rw [happ.above _ (by omega), h.connection]
    · rw [happ.inside _ (by omega) (by omega), hstart]
      rfl

/-- A cookie's line that starts at the end of a longer content type is appended to it. -/
theorem strcat_setCookie_of_long (h : res.Holds p code t (t.drop 32) c) (ht : 32 ≤ t.length)
    (s : List UInt8) : res.strcat setCookieAt s = res.strcat contentTypeAt s := by
  have hplace := places
  have hsame : setCookieAt + (res.text.str setCookieAt).length
      = contentTypeAt + (res.text.str contentTypeAt).length := by
    rw [h.cookie, h.type, List.length_drop]
    omega
  unfold Response.strcat Block.strcat
  rw [hsame]

end

/-! ## What is sent -/

/-- The arrays put together, with the empty line behind them. -/
def Response.headerText (res : Response) : List UInt8 :=
  (headerArrays.map res.text.str).flatten ++ bytes "\r\n"

theorem sentBytes_resHandle (wire : ℕ → ℤ) (b : List UInt8) :
    sentBytes (resHandle wire b []) = [b] := by
  have hend : ∀ acts : List Act,
      sentBytes (acts ++ [Act.connectionClose, .connectionFree]) = sentBytes acts :=
    fun acts => by simp [sentBytes]
  unfold resHandle
  dsimp only
  rw [hend]
  split
  · rw [hend]
    rfl
  · rfl

/-- The head as `res_parse_send` puts it together. -/
def assembledHead (res : Response) : Except Fault (Block finalStrSize) := do
  let finalStr ← headerArrays.foldlM (fun (f : Block finalStrSize) off => do
    let s ← res.text.readStr off
    f.strcat 0 s) (Block.zero finalStrSize)
  finalStr.strcat 0 (bytes "\r\n")

theorem resParseSend_eq_assembled (wire : ℕ → ℤ) (res : Response) (acts : List Act) :
    resParseSend wire res acts = assembledHead res >>= fun finalStr =>
      res.pbody.deref >>= fun body =>
        if body.length < res.bodySize then .error .read
        else finalStr.poke (finalStr.str 0).length (body.take res.bodySize) >>= fun sent =>
          .ok (resHandle wire (sent.bytes.take ((finalStr.str 0).length + res.bodySize)) acts) := by
  simp only [resParseSend, assembledHead, bind_assoc]

/-- Reading strings one after the other and appending them, when it goes well. -/
theorem readAll_of_ok {n size : ℕ} {text : Block n} {offs : List ℕ} {b b' : Block size}
    (h : offs.foldlM (fun (f : Block size) off => do
      let s ← text.readStr off
      f.strcat 0 s) b = .ok b') :
    (∀ off ∈ offs, off + (text.str off).length < n) ∧
      b'.str 0 = b.str 0 ++ (offs.map text.str).flatten := by
  induction offs generalizing b with
  | nil =>
      cases h
      simp
  | cons off offs ih =>
      rw [List.foldlM_cons] at h
      cases hread : text.readStr off with
      | error e =>
          rw [hread] at h
          cases h
      | ok s =>
          rw [hread, ok_bind] at h
          cases hcat : b.strcat 0 s with
          | error e =>
              rw [hcat] at h
              cases h
          | ok b₁ =>
              rw [hcat, ok_bind] at h
              obtain ⟨hend, rfl⟩ := Block.readStr_eq_ok_iff.mp hread
              obtain ⟨hends, hstr⟩ := ih h
              refine ⟨List.forall_mem_cons.mpr ⟨hend, hends⟩, ?_⟩
              have htext : IsText (text.str off) := isText_cstr _
              rw [hstr, Block.str_strcat htext hcat, List.map_cons, List.flatten_cons,
                List.append_assoc]

/-- Strings that end in their object are read and put together. -/
theorem readAll_eq {n size : ℕ} {text : Block n} {offs : List ℕ} (b : Block size)
    (h : ∀ off ∈ offs, off + (text.str off).length < n) :
    offs.foldlM (fun (f : Block size) off => do
      let s ← text.readStr off
      f.strcat 0 s) b = (offs.map text.str).foldlM (fun b s => b.strcat 0 s) b := by
  induction offs generalizing b with
  | nil => rfl
  | cons off offs ih =>
      rw [List.foldlM_cons, List.map_cons, List.foldlM_cons,
        Block.readStr_eq (h off List.mem_cons_self), ok_bind]
      congr 1
      funext b
      exact ih b fun o ho => h o (List.mem_cons_of_mem _ ho)

/-- The record can be sent with the body at `pbody`: the arrays can be read, the body is as
long as `body_size` says, and all of it fits. -/
structure Response.Sendable (res : Response) (body : List UInt8) : Prop where
  pbody : res.pbody = .obj body
  bodySize : res.bodySize ≤ body.length
  ends : ∀ off ∈ headerArrays, off + (res.text.str off).length < responseSize
  fits : res.headerText.length + res.bodySize ≤ finalStrSize

/-- Arrays that end in the record are much shorter than what is sent may be. -/
theorem length_headerText_lt {res : Response}
    (h : ∀ off ∈ headerArrays, off + (res.text.str off).length < responseSize) :
    res.headerText.length < finalStrSize := by
  have hplace := places
  have hcrlf : (bytes "\r\n").length = 2 := by decide
  have hsum : res.headerText.length
      = (res.text.str headCodeAt).length + (res.text.str serverAt).length +
        (res.text.str dateAt).length + (res.text.str contentTypeAt).length +
        (res.text.str setCookieAt).length + (res.text.str connectionAt).length + 2 := by
    simp only [Response.headerText, headerArrays, List.map_cons, List.map_nil,
      List.flatten_cons, List.flatten_nil, List.append_nil, List.length_append, hcrlf]
    omega
  have h₁ := h headCodeAt (by decide)
  have h₂ := h serverAt (by decide)
  have h₃ := h dateAt (by decide)
  have h₄ := h contentTypeAt (by decide)
  have h₅ := h setCookieAt (by decide)
  have h₆ := h connectionAt (by decide)
  have hfinal : finalStrSize = 1048576 := rfl
  omega

/-- The bytes of an object that starts with a text and has others written behind it. -/
theorem take_poke_str {n : ℕ} {b b' : Block n} {body : List UInt8}
    (h : b.poke (b.str 0).length body = .ok b') :
    b'.bytes.take ((b.str 0).length + body.length) = b.str 0 ++ body := by
  have htake := Block.take_str b 0
  rw [List.drop_zero] at htake
  rw [(Block.poke_eq_ok_iff.mp h).2, htake, ← List.length_append, List.take_left]

theorem assembledHead_of_ok {res : Response} {b : Block finalStrSize}
    (h : assembledHead res = .ok b) :
    (∀ off ∈ headerArrays, off + (res.text.str off).length < responseSize) ∧
      b.str 0 = res.headerText := by
  unfold assembledHead at h
  cases hall : headerArrays.foldlM (fun (f : Block finalStrSize) off => do
      let s ← res.text.readStr off
      f.strcat 0 s) (Block.zero finalStrSize) with
  | error e =>
      rw [hall] at h
      cases h
  | ok b₁ =>
      obtain ⟨hends, hstr⟩ := readAll_of_ok hall
      rw [hall, ok_bind] at h
      refine ⟨hends, ?_⟩
      rw [Block.str_strcat (by decide) h, hstr, Block.str_zero, List.nil_append]
      rfl

/-- Arrays that end in the record are put together. -/
theorem assembledHead_eq {res : Response}
    (h : ∀ off ∈ headerArrays, off + (res.text.str off).length < responseSize) :
    ∃ b, assembledHead res = .ok b ∧ b.str 0 = res.headerText := by
  have hshort := length_headerText_lt h
  have hcrlf : (bytes "\r\n").length = 2 := by decide
  have htexts : ∀ s ∈ headerArrays.map res.text.str, IsText s := by
    intro s hs
    obtain ⟨off, -, rfl⟩ := List.mem_map.mp hs
    exact isText_cstr _
  rw [Response.headerText, List.length_append, hcrlf] at hshort
  obtain ⟨b, hb, hstr⟩ : ∃ b, Block.catAll finalStrSize (headerArrays.map res.text.str) = .ok b ∧
      b.str 0 = (headerArrays.map res.text.str).flatten := Block.catAll_eq htexts (by omega)
  obtain ⟨b₁, hb₁⟩ : ∃ b₁, b.strcat 0 (bytes "\r\n") = .ok b₁ :=
    Block.strcpy_eq_ok (by rw [hstr, hcrlf]; omega)
  have hall : headerArrays.foldlM (fun (f : Block finalStrSize) off => do
      let s ← res.text.readStr off
      f.strcat 0 s) (Block.zero finalStrSize) = .ok b := (readAll_eq _ h).trans hb
  refine ⟨b₁, by rw [assembledHead, hall, ok_bind, hb₁], ?_⟩
  rw [Block.str_strcat (by decide) hb₁, hstr]
  rfl

/-- A call of `res_parse_send` that goes well. -/
theorem resParseSend_of_ok {wire : ℕ → ℤ} {res : Response} {acts : List Act}
    (h : resParseSend wire res [] = .ok acts) :
    ∃ body, res.Sendable body ∧
      acts = resHandle wire (res.headerText ++ body.take res.bodySize) [] := by
  rw [resParseSend_eq_assembled] at h
  cases hhead : assembledHead res with
  | error e =>
      rw [hhead] at h
      cases h
  | ok b =>
      obtain ⟨hends, hstr⟩ := assembledHead_of_ok hhead
      rw [hhead, ok_bind] at h
      cases hbody : res.pbody with
      | addr a =>
          rw [hbody] at h
          cases h
      | obj body =>
          have hderef : (Ptr.obj body).deref = .ok body := rfl
          rw [hbody, hderef, ok_bind] at h
          by_cases hshort : body.length < res.bodySize
          · rw [if_pos hshort] at h
            cases h
          · have htake : (body.take res.bodySize).length = res.bodySize := by
              rw [List.length_take]
              omega
            rw [if_neg hshort] at h
            cases hpoke : b.poke (b.str 0).length (body.take res.bodySize) with
            | error e =>
                rw [hpoke] at h
                cases h
            | ok b₂ =>
                rw [hpoke] at h
                obtain ⟨hle, -⟩ := Block.poke_eq_ok_iff.mp hpoke
                have hsent := take_poke_str hpoke
                rw [htake, hstr] at hle hsent
                cases h
                exact ⟨body, ⟨hbody, by omega, hends, hle⟩, by rw [hstr, hsent]⟩

/-- A record that can be sent is sent. -/
theorem Response.Sendable.resParseSend_eq {res : Response} {body : List UInt8}
    (h : res.Sendable body) (wire : ℕ → ℤ) :
    resParseSend wire res []
      = .ok (resHandle wire (res.headerText ++ body.take res.bodySize) []) := by
  obtain ⟨b, hb, hstr⟩ := assembledHead_eq h.ends
  have htake : (body.take res.bodySize).length = res.bodySize := by
    rw [List.length_take]
    exact Nat.min_eq_left h.bodySize
  have hroom : (b.str 0).length + (body.take res.bodySize).length ≤ finalStrSize := by
    rw [htake, hstr]
    exact h.fits
  obtain ⟨b₂, hb₂, -⟩ := Block.poke_eq_ok (b := b) hroom
  have hsent := take_poke_str hb₂
  rw [htake, hstr] at hsent
  have hderef : (Ptr.obj body).deref = .ok body := rfl
  have hlong : ¬ body.length < res.bodySize := by
    have := h.bodySize
    omega
  rw [resParseSend_eq_assembled, hb, ok_bind, h.pbody, hderef, ok_bind, if_neg hlong, hb₂,
    ok_bind, hstr, hsent]

/-- The `Set-cookie` line a plan asks for, if it asks for one. -/
def Plan.cookieText (plan : Plan) : List UInt8 := (plan.cookie.toList.map Cookie.line).flatten

section
variable {res : Response} {p : Tm} {code t k c : List UInt8}

/-- The header as it is put together. -/
theorem Response.Holds.headerText_eq (h : res.Holds p code t k c) :
    res.headerText = statusLine code ++ serverLine ++ dateLine p ++ (t ++ k ++ c) ++
      bytes "\r\n" := by
  simp only [Response.headerText, headerArrays, List.map_cons, List.map_nil,
    List.flatten_cons, List.flatten_nil, h.head, h.server, h.date, h.type, h.cookie,
    h.connection, List.append_assoc, List.nil_append]

/-- The arrays can be read when those behind the third end in the record. -/
theorem Response.Holds.ends_all (h : res.Holds p code t k c) (hcode : code.length ≤ 20)
    (ht : contentTypeAt + t.length < responseSize) (hk : setCookieAt + k.length < responseSize)
    (hc : connectionAt + c.length < responseSize) :
    ∀ off ∈ headerArrays, off + (res.text.str off).length < responseSize := by
  have hplace := places
  have hends := h.ends hcode
  intro off hoff
  simp only [headerArrays, List.mem_cons, List.not_mem_nil, or_false] at hoff
  rcases hoff with rfl | rfl | rfl | rfl | rfl | rfl
  · omega
  · omega
  · omega
  · rwa [h.type]
  · rwa [h.cookie]
  · rwa [h.connection]

end

/-- A record with the header lines of a plan sends what the plan asks for exactly when the
three lines that may run over come out right, and all of it fits. -/
theorem Response.Holds.sentBy_iff {wire : ℕ → ℤ} {res : Response} {p : Tm} {plan : Plan}
    {t k c : List UInt8} (h : res.Holds p plan.code t k c)
    (hbody : res.pbody = .obj plan.body ∧ res.bodySize = plan.body.length)
    (ht : contentTypeAt + t.length < responseSize) (hk : setCookieAt + k.length < responseSize)
    (hc : connectionAt + c.length < responseSize) :
    plan.SentBy p (resParseSend wire res []) ↔
      t ++ k ++ c = typeLine plan.type ++ plan.cookieText ++ connectionLine ∧
        (plan.header p).length + plan.body.length ≤ finalStrSize := by
  have htext := h.headerText_eq
  have hheader : plan.header p = statusLine plan.code ++ serverLine ++ dateLine p ++
      (typeLine plan.type ++ plan.cookieText ++ connectionLine) ++ bytes "\r\n" := by
    simp only [Plan.header, Plan.cookieText, List.append_assoc]
  constructor
  · rintro ⟨acts, hrun, hsent⟩
    obtain ⟨body, hsendable, rfl⟩ := resParseSend_of_ok hrun
    obtain rfl : plan.body = body := Ptr.obj.inj (hbody.1.symm.trans hsendable.pbody)
    have hfits := hsendable.fits
    rw [hbody.2] at hfits
    rw [sentBytes_resHandle, hbody.2, List.take_length, List.singleton_inj,
      List.append_left_inj] at hsent
    refine ⟨?_, by rwa [← hsent]⟩
    rwa [htext, hheader, List.append_left_inj, List.append_right_inj] at hsent
  · rintro ⟨hlines, hfits⟩
    have hsame : res.headerText = plan.header p := by rw [htext, hheader, hlines]
    have hsendable : res.Sendable plan.body :=
      ⟨hbody.1, hbody.2.le, h.ends_all plan.code_length ht hk hc, by rwa [hsame, hbody.2]⟩
    refine ⟨_, hsendable.resParseSend_eq wire, ?_⟩
    rw [sentBytes_resHandle, hsame, hbody.2, List.take_length]

/-! ## The calls in any order -/

/-- The calls of a plan, up to the ones that write to the last three arrays. -/
theorem Plan.perm_split {plan : Plan} {calls : List BuildCall} (h : calls.Perm plan.calls) :
    ∃ l₁ l₂ l₃ l₄, calls = l₁ ++ .body plan.body :: l₂ ∧
      l₁ ++ l₂ = l₃ ++ .head plan.code :: l₄ ∧
        (l₃ ++ l₄).Perm (.contentType plan.type :: plan.cookie.toList.map .cookie) := by
  have hbody : BuildCall.body plan.body ∈ calls := h.mem_iff.mpr (by simp [Plan.calls])
  obtain ⟨l₁, l₂, rfl⟩ := List.append_of_mem hbody
  have hrest : (l₁ ++ l₂).Perm
      (.head plan.code :: .contentType plan.type :: plan.cookie.toList.map .cookie) := by
    have hlast : plan.calls.Perm (.body plan.body :: .head plan.code ::
        .contentType plan.type :: plan.cookie.toList.map .cookie) :=
      List.perm_append_singleton (BuildCall.body plan.body)
        (.head plan.code :: .contentType plan.type :: plan.cookie.toList.map .cookie)
    exact ((List.perm_middle.symm.trans h).trans hlast).cons_inv
  have hhead : BuildCall.head plan.code ∈ l₁ ++ l₂ := hrest.mem_iff.mpr List.mem_cons_self
  obtain ⟨l₃, l₄, hl⟩ := List.append_of_mem hhead
  refine ⟨l₁, l₂, l₃, l₄, rfl, hl, ?_⟩
  rw [hl] at hrest
  exact (List.perm_middle.symm.trans hrest).cons_inv

/-- A content type and perhaps a cookie, in one of their orders. -/
theorem Plan.tail_cases {plan : Plan} {l : List BuildCall}
    (h : l.Perm (.contentType plan.type :: plan.cookie.toList.map .cookie)) :
    (plan.cookie = none ∧ l = [.contentType plan.type]) ∨
      ∃ c, plan.cookie = some c ∧ (l = [.contentType plan.type, .cookie c] ∨
        l = [.cookie c, .contentType plan.type]) := by
  cases hcookie : plan.cookie with
  | none =>
      rw [hcookie] at h
      exact .inl ⟨rfl, List.perm_singleton.mp h⟩
  | some c =>
      rw [hcookie] at h
      refine .inr ⟨c, rfl, ?_⟩
      have hmem : BuildCall.contentType plan.type ∈ l := h.mem_iff.mpr List.mem_cons_self
      obtain ⟨u, v, rfl⟩ := List.append_of_mem hmem
      have huv : u ++ v = [.cookie c] :=
        List.perm_singleton.mp (List.perm_middle.symm.trans h).cons_inv
      rcases List.append_eq_singleton_iff.mp huv with ⟨rfl, rfl⟩ | ⟨rfl, rfl⟩
      · exact .inl rfl
      · exact .inr rfl

theorem Plan.isText_calls (plan : Plan) : ∀ c ∈ plan.calls, c.IsText := by
  intro c hc
  simp only [Plan.calls, List.mem_cons, List.mem_append, List.mem_map, Option.mem_toList,
    List.not_mem_nil, or_false] at hc
  rcases hc with rfl | rfl | ⟨d, hd, rfl⟩ | rfl
  · exact plan.code_text
  · exact plan.type_supplied.spec.1
  · exact plan.cookie_text d hd
  · trivial

/-- The calls bring the record to the point where the content type and the cookie are left
to be written, in their order. -/
theorem buildAndSend_eq (wire : ℕ → ℤ) (p : Tm) (raw : Response) {plan : Plan}
    {calls : List BuildCall} (h : calls.Perm plan.calls) :
    ∃ res tail, buildAndSend wire p raw calls
        = (writeCalls tail res >>= fun res => resParseSend wire res []) ∧
      tail.Perm (.contentType plan.type :: plan.cookie.toList.map .cookie) ∧
      res.Holds p plan.code [] [] connectionLine ∧
      res.pbody = .obj plan.body ∧ res.bodySize = plan.body.length := by
  obtain ⟨res₀, hinit, hreads⟩ := resInit_eq p raw
  obtain ⟨l₁, l₂, l₃, l₄, rfl, hl, htail⟩ := Plan.perm_split h
  have hreads' : (resSetBody res₀ plan.body plan.body.length).Reads serverLine (dateLine p)
      [] [] [] connectionLine :=
    ⟨hreads.server, hreads.date, hreads.head, hreads.type, hreads.cookie, hreads.connection⟩
  obtain ⟨res, hrun, hholds, hpbody, hsize⟩ :=
    hreads'.headWritten plan.code_text plan.code_length
  have hplain : ∀ c ∈ l₃ ++ l₄, ¬ c.IsBody ∧ ¬ c.IsHead := by
    intro c hc
    rcases List.mem_cons.mp (htail.mem_iff.mp hc) with rfl | hc
    · exact ⟨by rintro ⟨_, ⟨⟩⟩, by rintro ⟨_, ⟨⟩⟩⟩
    · obtain ⟨d, -, rfl⟩ := List.mem_map.mp hc
      exact ⟨by rintro ⟨_, ⟨⟩⟩, by rintro ⟨_, ⟨⟩⟩⟩
  have hnobody : ∀ c ∈ l₁, ¬ c.IsBody := by
    intro c hc
    have hmem : c ∈ l₃ ++ .head plan.code :: l₄ := hl ▸ List.mem_append_left _ hc
    rcases List.mem_append.mp hmem with hc | hc
    · exact (hplain c (List.mem_append_left _ hc)).1
    · rcases List.mem_cons.mp hc with rfl | hc
      · rintro ⟨_, ⟨⟩⟩
      · exact (hplain c (List.mem_append_right _ hc)).1
  refine ⟨res, l₃ ++ l₄, ?_, htail, hholds, hpbody, hsize⟩
  have hcalls : applyCalls (l₁ ++ .body plan.body :: l₂) res₀ = writeCalls (l₃ ++ l₄) res := by
    have htexts : ∀ c ∈ l₁ ++ .body plan.body :: l₂, c.IsText :=
      fun c hc => plan.isText_calls c (h.mem_iff.mp hc)
    rw [applyCalls_eq htexts, writeCalls_body_first _ hnobody, hl]
    show writeCalls (l₃ ++ .head plan.code :: l₄)
      (resSetBody res₀ plan.body plan.body.length) = _
    rw [writeCalls_head_first hreads'.head
      (fun c hc => hplain c (List.mem_append_left _ hc)) plan.code_length]
    show (Response.strcat _ _ _ >>= _) = _
    rw [hrun]
    rfl
  rw [buildAndSend, hinit, ok_bind, hcalls]

/-! ## The content type and the cookie -/

theorem spill_of_short {s : List UInt8} (h : s.length ≤ 31) (old : List UInt8) :
    spill s old = old := if_pos h

theorem spill_of_long {s : List UInt8} (h : 32 ≤ s.length) (old : List UInt8) :
    spill s old = s.drop 32 := if_neg (by omega)

/-- A line that ends in its array or the next one leaves nothing in the array behind. -/
theorem spill_drop {s : List UInt8} (h : s.length ≤ 63) (old : List UInt8) :
    spill (s.drop 32) old = old := spill_of_short (by rw [List.length_drop]; omega) old

/-- What an array reads behind a long line is the end of the line or what stood there. -/
theorem length_spill_le (s old : List UInt8) :
    (spill s old).length ≤ max old.length (s.length - 32) := by
  unfold spill
  split
  · exact le_max_left _ _
  · rw [List.length_drop]
    exact le_max_right _ _

theorem Cookie.fits_iff {c : Cookie} :
    c.Fits ↔ spill c.line connectionLine = connectionLine := by
  by_cases h : c.line.length ≤ 31
  · rw [spill_of_short h]
    exact iff_of_true (.inl h) rfl
  · rw [spill_of_long (by omega)]
    exact or_iff_right h

/-- A cookie that fits ends inside the record. -/
theorem Cookie.Fits.length_le {c : Cookie} (h : c.Fits) : c.line.length ≤ 63 := by
  rcases h with h | h
  · omega
  · have hlen := congrArg List.length h
    rw [List.length_drop, length_connectionLine] at hlen
    omega

theorem not_sentBy_error (plan : Plan) (p : Tm) (e : Fault) :
    ¬ plan.SentBy p (.error e) := by
  rintro ⟨acts, ⟨⟩, -⟩

section
variable {res : Response} {p : Tm} {plan : Plan} {c : Cookie} {tail : List BuildCall}

/-- The order of a content type that fits its array and a cookie makes no difference. -/
theorem writeCalls_of_short (h : res.Holds p plan.code [] [] connectionLine)
    (hc : plan.cookie = some c) (hshort : (typeLine plan.type).length ≤ 31)
    (hend : c.line.length ≤ 63)
    (htail : tail = [.contentType plan.type, .cookie c] ∨
      tail = [.cookie c, .contentType plan.type]) :
    ∃ res', writeCalls tail res = .ok res' ∧
      res'.Holds p plan.code (typeLine plan.type) c.line (spill c.line connectionLine) ∧
      res'.pbody = res.pbody ∧ res'.bodySize = res.bodySize := by
  have hplace := places
  have htype : IsText (typeLine plan.type) := isText_typeLine plan.type_supplied.spec.1
  obtain ⟨hname, hvalue⟩ := plan.cookie_text c hc
  have hline : IsText c.line := isText_cookieLine hname hvalue
  rcases htail with rfl | rfl
  · obtain ⟨r₁, hrun₁, h₁, hbody₁, hsize₁⟩ := h.typeWritten plan.code_length htype (by omega)
    rw [spill_of_short hshort, spill_drop (by omega)] at h₁
    obtain ⟨r₂, hrun₂, h₂, hbody₂, hsize₂⟩ :=
      h₁.cookieWritten plan.code_length hshort hline (by omega)
    refine ⟨r₂, ?_, h₂, hbody₂.trans hbody₁, hsize₂.trans hsize₁⟩
    show (res.strcat contentTypeAt _ >>= fun r => r.strcat setCookieAt _ >>= pure) = _
    rw [hrun₁, ok_bind, hrun₂]
    rfl
  · obtain ⟨r₁, hrun₁, h₁, hbody₁, hsize₁⟩ :=
      h.cookieWritten plan.code_length (by rw [List.length_nil]; omega) hline (by omega)
    obtain ⟨r₂, hrun₂, h₂, hbody₂, hsize₂⟩ := h₁.typeWritten plan.code_length htype (by omega)
    rw [spill_of_short hshort, spill_drop (by omega)] at h₂
    refine ⟨r₂, ?_, h₂, hbody₂.trans hbody₁, hsize₂.trans hsize₁⟩
    show (res.strcat setCookieAt _ >>= fun r => r.strcat contentTypeAt _ >>= pure) = _
    rw [hrun₁, ok_bind, hrun₂]
    rfl

/-- A cookie that runs out of the record is a write past its end. -/
theorem writeCalls_of_overflow (h : res.Holds p plan.code [] [] connectionLine)
    (hshort : (typeLine plan.type).length ≤ 44) (hend : 64 ≤ c.line.length)
    (htail : tail = [.contentType plan.type, .cookie c] ∨
      tail = [.cookie c, .contentType plan.type]) :
    writeCalls tail res = .error .write := by
  have hplace := places
  rcases htail with rfl | rfl
  · have htype : IsText (typeLine plan.type) := isText_typeLine plan.type_supplied.spec.1
    obtain ⟨r₁, hrun₁, h₁, -, -⟩ := h.typeWritten plan.code_length htype (by omega)
    show (res.strcat contentTypeAt _ >>= fun r => r.strcat setCookieAt _ >>= pure) = _
    rw [hrun₁, ok_bind, strcat_overflow r₁ (by omega)]
    rfl
  · show (res.strcat setCookieAt _ >>= _) = _
    rw [strcat_overflow res (by omega)]
    rfl

/-- A content type that runs into the cookie's array spoils the header, whatever the order. -/
theorem not_sentBy_of_long {wire : ℕ → ℤ} (h : res.Holds p plan.code [] [] connectionLine)
    (hbody : res.pbody = .obj plan.body ∧ res.bodySize = plan.body.length)
    (hc : plan.cookie = some c) (hlong : 33 ≤ (typeLine plan.type).length)
    (hend : (typeLine plan.type).length ≤ 44)
    (htail : tail = [.contentType plan.type, .cookie c] ∨
      tail = [.cookie c, .contentType plan.type]) :
    ¬ plan.SentBy p (writeCalls tail res >>= fun res => resParseSend wire res []) := by
  have hplace := places
  have hC := length_connectionLine
  have hK := length_cookieLine c
  have htype : IsText (typeLine plan.type) := isText_typeLine plan.type_supplied.spec.1
  obtain ⟨hname, hvalue⟩ := plan.cookie_text c hc
  have hline : IsText c.line := isText_cookieLine hname hvalue
  have hcookie : plan.cookieText = c.line := by simp [Plan.cookieText, hc]
  rcases htail with rfl | rfl
  · -- The cookie is appended to the content type, and both are read a second time.
    have hjoin : writeCalls [.contentType plan.type, .cookie c] res
        = res.strcat contentTypeAt (typeLine plan.type ++ c.line) := by
      obtain ⟨r₁, hrun₁, h₁, -, -⟩ := h.typeWritten plan.code_length htype (by omega)
      rw [spill_of_long (by omega)] at h₁
      rw [← Response.strcat_strcat _ _ htype, hrun₁, ok_bind,
        ← strcat_setCookie_of_long h₁ (by omega)]
      show (res.strcat contentTypeAt _ >>= fun r => r.strcat setCookieAt _ >>= pure) = _
      rw [hrun₁, ok_bind, bind_pure]
    rw [hjoin]
    have hlen : (typeLine plan.type ++ c.line).length
        = (typeLine plan.type).length + c.line.length := List.length_append
    by_cases hroom : contentTypeAt + (typeLine plan.type ++ c.line).length < responseSize
    · obtain ⟨r, hrun, hr, hbody', hsize'⟩ :=
        h.typeWritten plan.code_length (isText_append.mpr ⟨htype, hline⟩) hroom
      rw [spill_of_long (by omega)] at hr
      rw [hrun, ok_bind, hr.sentBy_iff ⟨hbody'.trans hbody.1, hsize'.trans hbody.2⟩ hroom
        (by rw [List.length_drop]; omega) ?_, hcookie]
      · -- the end of the two is sent twice
        rintro ⟨hlines, -⟩
        have hsum := congrArg List.length hlines
        simp only [List.length_append, List.length_drop, spill] at hsum
        split at hsum
        · omega
        · simp only [List.length_drop, List.length_append] at hsum
          omega
      · have hle := length_spill_le ((typeLine plan.type ++ c.line).drop 32) connectionLine
        rw [List.length_drop] at hle
        omega
    · rw [strcat_overflow res (by omega)]
      exact not_sentBy_error _ _ _
  · -- The content type overwrites the beginning of the cookie.
    by_cases hroom : setCookieAt + c.line.length < responseSize
    · obtain ⟨r₁, hrun₁, h₁, hbody₁, hsize₁⟩ :=
        h.cookieWritten plan.code_length (by rw [List.length_nil]; omega) hline hroom
      obtain ⟨r₂, hrun₂, h₂, hbody₂, hsize₂⟩ := h₁.typeWritten plan.code_length htype (by omega)
      rw [spill_of_long (by omega), spill_drop (by omega)] at h₂
      have hrun : writeCalls [.cookie c, .contentType plan.type] res = .ok r₂ := by
        show (res.strcat setCookieAt _ >>= fun r => r.strcat contentTypeAt _ >>= pure) = _
        rw [hrun₁, ok_bind, hrun₂]
        rfl
      rw [hrun, ok_bind, h₂.sentBy_iff
        ⟨(hbody₂.trans hbody₁).trans hbody.1, (hsize₂.trans hsize₁).trans hbody.2⟩ (by omega)
        (by rw [List.length_drop]; omega) ?_, hcookie]
      · rintro ⟨hlines, -⟩
        have hsum := congrArg List.length hlines
        simp only [List.length_append, List.length_drop, spill] at hsum
        split at hsum
        · omega
        · rw [List.length_drop] at hsum
          omega
      · have hle := length_spill_le c.line connectionLine
        omega
    · have hrun : writeCalls [.cookie c, .contentType plan.type] res = .error .write := by
        show (res.strcat setCookieAt _ >>= _) = _
        rw [strcat_overflow res (by omega)]
        rfl
      rw [hrun]
      exact not_sentBy_error _ _ _

end

/-- With a content type that fits its array, the cookie decides. -/
theorem sentBy_iff_of_short {wire : ℕ → ℤ} {res : Response} {p : Tm} {plan : Plan} {c : Cookie}
    {tail : List BuildCall} (h : res.Holds p plan.code [] [] connectionLine)
    (hbody : res.pbody = .obj plan.body ∧ res.bodySize = plan.body.length)
    (hc : plan.cookie = some c) (hshort : (typeLine plan.type).length ≤ 31)
    (htail : tail = [.contentType plan.type, .cookie c] ∨
      tail = [.cookie c, .contentType plan.type]) :
    plan.SentBy p (writeCalls tail res >>= fun res => resParseSend wire res []) ↔
      c.Fits ∧ (plan.header p).length + plan.body.length ≤ finalStrSize := by
  have hplace := places
  have hC := length_connectionLine
  have hcookie : plan.cookieText = c.line := by simp [Plan.cookieText, hc]
  by_cases hend : c.line.length ≤ 63
  · obtain ⟨r, hrun, hr, hbody', hsize'⟩ := writeCalls_of_short h hc hshort hend htail
    rw [hrun, ok_bind, hr.sentBy_iff ⟨hbody'.trans hbody.1, hsize'.trans hbody.2⟩ (by omega)
      (by omega) ?_, hcookie, List.append_right_inj, Cookie.fits_iff]
    have hle := length_spill_le c.line connectionLine
    omega
  · rw [writeCalls_of_overflow h (by omega) (by omega) htail]
    refine iff_of_false (not_sentBy_error _ _ _) ?_
    rintro ⟨hfits, -⟩
    exact hend hfits.length_le

/-- A response is sent as it was built exactly when its content type has no more than 16
characters, its cookie's line ends in its array or runs over into the very `Connection` line
that stands there, and the whole has room in the string that is sent. -/
theorem buildAndSend_iff (wire : ℕ → ℤ) (p : Tm) (raw : Response) (plan : Plan)
    (calls : List BuildCall) (hcalls : calls.Perm plan.calls) :
    plan.SentBy p (buildAndSend wire p raw calls) ↔
      plan.type.length ≤ 16 ∧ (∀ c ∈ plan.cookie, c.Fits) ∧
        (plan.header p).length + plan.body.length ≤ finalStrSize := by
  have hplace := places
  have hC := length_connectionLine
  have hT := length_typeLine plan.type
  obtain ⟨htext, hsupplied⟩ := plan.type_supplied.spec
  obtain ⟨res, tail, hrun, htail, hres, hbody⟩ := buildAndSend_eq wire p raw hcalls
  rw [hrun]
  rcases Plan.tail_cases htail with ⟨hc, rfl⟩ | ⟨c, hc, horder⟩
  · -- without a cookie a long content type is read a second time in the cookie's array
    obtain ⟨r, hrun, hr, hbody', hsize'⟩ :=
      hres.typeWritten plan.code_length (isText_typeLine htext) (by omega)
    rw [spill_drop (by omega)] at hr
    have hwrite : writeCalls [.contentType plan.type] res = .ok r := by
      show (res.strcat contentTypeAt _ >>= pure) = _
      rw [hrun]
      rfl
    have hnone : plan.cookieText = [] := by simp [Plan.cookieText, hc]
    have hcookie : ∀ c ∈ plan.cookie, c.Fits := by
      rw [hc]
      rintro c ⟨⟩
    rw [hwrite, ok_bind, hr.sentBy_iff ⟨hbody'.trans hbody.1, hsize'.trans hbody.2⟩ (by omega)
      ?_ (by omega), hnone, List.append_left_inj, List.append_right_inj]
    · have hspill : spill (typeLine plan.type) [] = [] ↔ plan.type.length ≤ 16 := by
        rw [spill]
        split
        · exact iff_of_true rfl (by omega)
        · rw [List.drop_eq_nil_iff]
          omega
      rw [hspill]
      exact and_congr_right fun _ => (and_iff_right hcookie).symm
    · have hle := length_spill_le (typeLine plan.type) []
      rw [List.length_nil] at hle
      omega
  · rcases hsupplied with hshort | ⟨hlong, hend⟩
    · rw [sentBy_iff_of_short hres hbody hc (by omega) horder, hc]
      simp [hshort]
    · refine iff_of_false (not_sentBy_of_long hres hbody hc (by omega) (by omega) horder) ?_
      rintro ⟨hle, -⟩
      omega

/-- A page with a short cookie. -/
def cookiePlan : Plan where
  code := bytes "200"
  type := bytes "text/html;utf-8;"
  cookie := some (.named (bytes "lang") (bytes "en"))
  body := bytes "hello"
  code_text := by decide
  code_length := by decide
  type_supplied := .inr rfl
  cookie_text := by
    rintro c ⟨⟩
    decide

/-- A page with a session id of ten characters. -/
def sessionPlan : Plan where
  code := bytes "200"
  type := bytes "text/html;utf-8;"
  cookie := some (.session (bytes "abcdefghij"))
  body := bytes "hello"
  code_text := by decide
  code_length := by decide
  type_supplied := .inr rfl
  cookie_text := by
    rintro c ⟨⟩
    decide

/-- The short cookie, set before anything else, is sent. -/
theorem buildAndSend_iff_cookiePlan :
    cookiePlan.SentBy summerDay (buildAndSend (fun _ => 100) summerDay
      ⟨Block.zero _, .null, 0⟩ [.cookie (.named (bytes "lang") (bytes "en")),
        .body (bytes "hello"), .head (bytes "200"), .contentType (bytes "text/html;utf-8;")]) :=
  (buildAndSend_iff _ _ _ cookiePlan _ (by decide)).mpr
    ⟨by decide, by rintro c ⟨⟩; exact .inl (by decide), by decide +kernel⟩

/-- The session cookie's line has 34 characters and overwrites the `Connection` line. -/
theorem not_sentBy_sessionPlan : ¬ ∀ (wire : ℕ → ℤ) (p : Tm) (raw : Response) (plan : Plan)
    (calls : List BuildCall), calls.Perm plan.calls →
      plan.SentBy p (buildAndSend wire p raw calls) := by
  intro h
  have hsent := h (fun _ => 100) summerDay ⟨Block.zero _, .null, 0⟩ sessionPlan
    sessionPlan.calls (.refl _)
  obtain ⟨res, tail, hrun, htail, hres, hbody⟩ := buildAndSend_eq (fun _ => 100) summerDay
    ⟨Block.zero _, .null, 0⟩ (List.Perm.refl sessionPlan.calls)
  rcases Plan.tail_cases htail with ⟨⟨⟩, -⟩ | ⟨c, ⟨⟩, horder⟩
  rw [hrun, sentBy_iff_of_short hres hbody rfl (by decide) horder] at hsent
  rcases hsent.1 with hlen | hdrop
  · revert hlen
    decide
  · revert hdrop
    decide
