/-
# Templates and their pages

Every piece does what it is to write and leaves the walk at rest, or faults (`Outcome`);
so a template whose pieces are clean is rendered piece by piece, and the first piece that
is not clean is not (`rendersEach_iff`).

A block that closes early, because its inner text begins with `]`, faults where there is
nothing in `temp` behind its name.  A name of 64 bytes or more can run into what is left
there, which may hold the `@` that is missing.
-/
import DmfServer.TemplateAnswer

open CMem

namespace Template

/-! ## The end of a block -/

/-- `temp` between two blocks ends in a NUL from any place on. -/
theorem Tidy.drop {temp : List UInt8} (h : Tidy temp) {k : ℕ} (hk : k < scratchSize) :
    ∃ front, temp.drop k = front ++ [0] := by
  obtain ⟨front, rfl⟩ := h.last
  have hlen := h.length
  rw [List.length_append, List.length_singleton] at hlen
  exact ⟨front.drop k, List.drop_append_of_le_length (by omega)⟩

theorem Tidy.leave {temp : List UInt8} (h : Tidy temp) {p : Piece}
    (hp : p.laid.length < scratchSize) : Tidy (p.leave temp) := by
  obtain ⟨front, hfront⟩ := h.drop hp
  have hlen := congrArg List.length hfront
  rw [List.length_drop, h.length, List.length_append, List.length_singleton] at hlen
  unfold scratchSize at hp hlen
  unfold Piece.leave
  rw [hfront, ← List.append_assoc,
    List.drop_append_of_le_length (by rw [List.length_append]; omega)]
  exact
    { length := by
        simp only [List.length_append, List.length_replicate, List.length_drop,
          List.length_singleton, scratchSize]
        omega
      clear := by rw [List.take_append_of_le_length (by simp), List.take_replicate]; rfl
      last := ⟨List.replicate 64 0 ++ (p.laid ++ front).drop 64, (List.append_assoc _ _ _).symm⟩ }

theorem Tidy.leave_literal {temp : List UInt8} (h : Tidy temp) (text : List UInt8) :
    (Piece.literal text).leave temp = temp := by
  unfold Piece.leave Piece.laid
  rw [List.length_nil, List.drop_zero, List.nil_append, ← h.clear, List.take_append_drop]

/-- Nothing is left in the first 64 bytes. -/
theorem Tidy.cstr_drop {temp : List UInt8} (h : Tidy temp) {k : ℕ} (hk : k < 64) :
    cstr (temp.drop k) = [] := by
  have hlen : k ≤ (List.replicate 64 (0 : UInt8)).length := by
    rw [List.length_replicate]
    omega
  obtain ⟨j, hj⟩ : ∃ j, 64 - k = j + 1 := ⟨63 - k, by omega⟩
  rw [← List.take_append_drop 64 temp, h.clear, List.drop_append_of_le_length hlen,
    List.drop_replicate, hj, List.replicate_succ, List.cons_append, cstr_zero]

theorem Tidy.stale_eq_nil {temp : List UInt8} (h : Tidy temp) {p : Piece}
    (hp : p.laid.length < 64) : p.stale temp = [] :=
  h.cstr_drop hp

/-- The string at the front of `temp` is a text and what it runs into. -/
theorem Tidy.readStr {temp : List UInt8} (h : Tidy temp) {content : List UInt8}
    (htext : IsText content) (hlen : content.length < scratchSize) {b : Block scratchSize}
    (hb : b.bytes = content ++ temp.drop content.length) :
    b.readStr 0 = .ok (content ++ cstr (temp.drop content.length)) := by
  obtain ⟨front, hfront⟩ := h.drop hlen
  have hstr : b.str 0 = content ++ cstr (temp.drop content.length) := by
    unfold Block.str
    rw [List.drop_zero, hb, cstr_append htext]
  have hnul : (0 : UInt8) ∈ b.bytes.drop 0 := by
    rw [List.drop_zero, hb, hfront]
    simp
  exact Block.readStr_eq_ok_iff.mpr ⟨by rw [Block.mem_drop_iff] at hnul; exact hnul, hstr⟩

/-- A piece does what it is to write and leaves the walk between two pieces, or the walk
faults, where the piece has no room in `parsed_str` or in the page. -/
def Outcome (kv : List Kvmap) (rest temp out : List UInt8)
    (w : Except Fault (List UInt8 × List UInt8)) (run : Except Fault Scan) : Prop :=
  (∃ parsed text s', w = .ok (parsed, text) ∧ run = parseLoop kv (kv.length - 1) rest s' ∧
    s'.Rests temp parsed (out ++ text)) ∨
  ((∃ e, run = .error e) ∧
    ∀ parsed text, w = .ok (parsed, text) → templateResultSize ≤ out.length + text.length)

section
variable {kv : List Kvmap}

/-- The sign and the bracket that close a block. -/
theorem outcome_close {s s₀ : Scan} {sign d : UInt8} (hsign : sign ≠ 0) {run : Except Fault Scan}
    (hswitch : s.switch kv (kv.length - 1) sign closing
      = run >>= fun s => .ok { s with state := .sNeg2 })
    {out : List UInt8} {w : Except Fault (List UInt8 × List UInt8)} (hans : Answers s₀ out w run)
    (hw : s₀.writeTemp = false) (hres : s₀.writeRes = false) {p : Piece}
    (hpos : s₀.tempPos = p.laid.length) {temp : List UInt8}
    (htemp : s₀.temp.bytes = p.laid ++ temp.drop p.laid.length) (h : Tidy temp)
    (hp : p.laid.length < scratchSize) (rest : List UInt8) :
    Outcome kv (d :: rest) (p.leave temp) out w
      (parseLoop kv (kv.length - 1) (sign :: closing :: d :: rest) s) := by
  rcases hans with ⟨parsed, text, s₁, hwrites, hrun, hwrote⟩ | ⟨⟨e, hrun⟩, hfull⟩
  · rw [hrun, ok_bind] at hswitch
    have hsame := hwrote.same
    have hw₁ : s₁.writeTemp = false := by rw [hsame]; exact hw
    have hres₁ : s₁.writeRes = false := by rw [hsame]; exact hres
    have htemp₁ : s₁.temp.bytes = p.laid ++ temp.drop p.laid.length := by rw [hsame]; exact htemp
    have hclear : s₁.tempPos = 0 → s₁.temp.bytes.take 64 = List.replicate 64 0 := by
      intro hzero
      have hlaid : p.laid.length = 0 := by
        rw [hsame] at hzero
        exact hpos.symm.trans hzero
      rw [htemp₁, List.length_eq_zero_iff.mp hlaid, List.length_nil, List.drop_zero,
        List.nil_append, h.clear]
    obtain ⟨temp', hbytes, hloop⟩ :=
      parseLoop_close (d := d) hsign hswitch hw₁ hres₁ hclear rest
    have hleave : temp'.bytes = p.leave temp := by
      rw [hbytes, htemp₁]
      rfl
    exact Or.inl ⟨parsed, text, _, hwrites, hloop, rfl, hw₁, rfl, hleave, h.leave hp,
      hwrote.parsed_eq, hwrote.parsedRoom, hwrote.shows.text, hwrote.shows.pos,
      hwrote.shows.room, hwrote.shows.result⟩
  · refine Or.inr ⟨⟨e, ?_⟩, hfull⟩
    rw [parseLoop_cons hsign]
    unfold Scan.step
    rw [hswitch, hrun]
    rfl

theorem pair_infix_append {a b : UInt8} {xs ys : List UInt8} (ha : a ∉ xs)
    (h : [a, b] <:+: xs ++ ys) : [a, b] <:+: ys := by
  induction xs with
  | nil => exact h
  | cons x xs ih =>
      rw [List.mem_cons, not_or] at ha
      rw [List.cons_append, List.infix_cons_iff, List.cons_prefix_cons] at h
      rcases h with ⟨heq, -⟩ | h
      · exact absurd heq ha.1
      · exact ih ha.2 h

theorem pair_infix_concat {a b c : UInt8} {xs : List UInt8} (hb : b ≠ c)
    (h : [a, b] <:+: xs ++ [c]) : [a, b] <:+: xs := by
  rw [List.infix_concat_iff] at h
  rcases h with ⟨front, hfront⟩ | h
  · rw [show [a, b] = [a] ++ [b] from rfl, ← List.append_assoc] at hfront
    exact absurd (List.append_singleton_inj.mp hfront).2 hb
  · exact h

/-- The walk inside a block shows the page as before. -/
theorem Scan.Rests.shows_reading {s : Scan} {temp parsed out : List UInt8}
    (h : s.Rests temp parsed out) (st : State) (w : Bool) (b : Block scratchSize) (pos : ℕ) :
    (s.reading st w b pos).Shows out :=
  ⟨h.shows.text, h.shows.pos, h.shows.room, h.shows.result⟩

variable (kv) in
/-- A block up to the sign that closes it. -/
theorem parseLoop_block (n : ℤ) {s : Scan} {temp parsed out : List UInt8}
    (h : s.Rests temp parsed out) (k : Kind) {content : List UInt8} (htext : IsText content)
    (hopen : ¬[k.sign, closing] <:+: content ++ [k.sign]) (hroom : content.length < scratchSize)
    (rest : List UInt8) :
    ∃ w b, parseLoop kv n ([opening, k.sign] ++ (content ++ k.sign :: rest)) s
        = parseLoop kv n (k.sign :: rest) (s.reading k.state w b content.length) ∧
      b.bytes = content ++ temp.drop content.length := by
  have hne : content ++ k.sign :: rest ≠ [] := by simp
  have htemp : s.temp.bytes = [] ++ temp.drop ([] : List UInt8).length := by
    rw [h.temp_eq]
    rfl
  have hstart := walks_open kv n h.atText k hne
  rcases content_cases kv n s k htext hopen rest false htemp (Nat.zero_le _) with
    ⟨-, w, b, hwalk, hbytes⟩ | ⟨hfull, -⟩
  · rw [List.nil_append] at hwalk hbytes
    exact ⟨w, b, Eq.trans hstart hwalk, hbytes⟩
  · rw [List.length_nil] at hfull
    omega

/-- A variable, whatever its name. -/
theorem outcome_name {s : Scan} {temp parsed out : List UInt8} (h : s.Rests temp parsed out)
    {name : List UInt8} (hname : IsText name) (hopen : ¬[hash, closing] <:+: name)
    (hroom : name.length < scratchSize) {w : Except Fault (List UInt8 × List UInt8)}
    (hans : ∀ s₀ : Scan, s₀.temp.readStr 0 = .ok (name ++ (Piece.var name).stale temp) →
      s₀.parsedStr.str 0 = parsed → s₀.Shows out →
      Answers s₀ out w (eachEntry kv (kv.length - 1) Scan.variable s₀)) (d : UInt8)
    (rest : List UInt8) :
    Outcome kv (d :: rest) ((Piece.var name).leave temp) out w
      (parseLoop kv (kv.length - 1) ((Piece.var name).source ++ d :: rest) s) := by
  have hopen' : ¬[hash, closing] <:+: name ++ [hash] := fun hinside =>
    hopen (pair_infix_concat (by decide) hinside)
  obtain ⟨w', b, hrun, hbytes⟩ := parseLoop_block kv (kv.length - 1) h .var hname
    hopen' hroom (closing :: d :: rest)
  have hsource : (Piece.var name).source ++ d :: rest
      = [opening, hash] ++ (name ++ hash :: closing :: d :: rest) := by
    simp [Piece.source]
  rw [hsource, show [opening, hash] = [opening, Kind.var.sign] from rfl,
    show hash :: closing :: d :: rest = Kind.var.sign :: closing :: d :: rest from rfl, hrun]
  have hread := h.tidy.readStr hname hroom hbytes
  have hswitch : (s.reading .s1 w' b name.length).switch kv (kv.length - 1) hash closing
      = eachEntry kv (kv.length - 1) Scan.variable (s.reading .s1 false b name.length) >>=
        fun s => .ok { s with state := .sNeg2 } := by
    unfold Scan.switch Scan.reading
    dsimp only
    rw [if_pos ⟨rfl, rfl⟩]
  exact outcome_close (p := Piece.var name) (by decide) hswitch
    (hans (s.reading .s1 false b name.length) hread h.parsed_eq (h.shows_reading _ _ _ _)) rfl rfl
    rfl hbytes h.tidy hroom rest

/-- A variable. -/
theorem outcome_var (hkv : ∀ e ∈ kv, e.WellFormed) (hkeys : (kv.map Kvmap.key).Nodup)
    {s : Scan} {temp parsed out : List UInt8} (h : s.Rests temp parsed out) {name : List UInt8}
    (hp : (Piece.var name).WellFormed) (d : UInt8) (rest : List UInt8) :
    Outcome kv (d :: rest) ((Piece.var name).leave temp) out
      ((Piece.var name).writes kv ((Piece.var name).stale temp) parsed)
      (parseLoop kv (kv.length - 1) ((Piece.var name).source ++ d :: rest) s) := by
  obtain ⟨htext, -, hhash, -, hlen⟩ := hp
  have hname : IsText name := by
    unfold Piece.source at htext
    exact (isText_append.mp (isText_append.mp htext).1).2
  have hroom : name.length < scratchSize := by
    simp only [Piece.source, List.length_append] at hlen
    unfold scratchSize
    omega
  have hopen : ¬[hash, closing] <:+: name := fun hinside =>
    hhash (hinside.subset List.mem_cons_self)
  refine outcome_name h hname hopen hroom ?_ d rest
  exact fun s₀ hread hparsed hshows =>
    answers_variable hkv hkeys hread hparsed h.parsedRoom hshows

/-- The `switch` where a block is closed: `temp` is cut into the name and the inner text, which
goes to `block_str`. -/
theorem switch_block {n : ℤ} (s : Scan) (w : Bool) {b : Block scratchSize} (pos : ℕ)
    {name inner : List UInt8} (hread : b.readStr 0 = .ok (name ++ atSign :: inner))
    (hat : atSign ∉ name) :
    ∃ b' blockStr : Block scratchSize, b'.bytes = b.bytes.set name.length 0 ∧
      b'.readStr 0 = .ok name ∧ blockStr.readStr 0 = .ok inner ∧
      (s.reading .s2 w b pos).switch kv n atSign closing
        = eachEntry kv n Scan.block { s.reading .s2 false b' pos with blockStr := blockStr } >>=
          fun s => .ok { s with state := .sNeg2 } := by
  obtain ⟨hroom, hstr⟩ := Block.readStr_eq_ok_iff.mp hread
  have htext : IsText (name ++ atSign :: inner) := hstr ▸ isText_cstr _
  have hinner : IsText inner := fun h0 =>
    (isText_append.mp htext).2 (List.mem_cons_of_mem atSign h0)
  rw [hstr, List.length_append, List.length_cons] at hroom
  obtain ⟨blockStr, hcopy, hread'⟩ :=
    Block.exists_strcpy (b := s.blockStr) hinner (by omega)
  obtain ⟨b', hcut, hname⟩ := Block.exists_cut hread
  refine ⟨b', blockStr, ?_, hname, hread', ?_⟩
  · have hlt : name.length < b.bytes.length := by
      rw [b.length_bytes]
      omega
    rw [(Block.poke_eq_ok_iff.mp hcut).2, List.set_eq_take_append_cons_drop, if_pos hlt]
    simp
  · unfold Scan.switch Scan.reading
    dsimp only
    rw [if_pos ⟨rfl, rfl⟩, hread, ok_bind, strstr_singleton hat]
    dsimp only
    rw [List.drop_one, List.tail_cons, hcopy, ok_bind, List.length_append, Nat.add_sub_cancel,
      hcut, ok_bind]

/-- A block that does not close early. -/
theorem outcome_block {s : Scan} {temp parsed out : List UInt8} (h : s.Rests temp parsed out)
    {p : Piece} (hp : p.WellFormed) (hblock : p.IsBlock) (hearly : ¬p.ClosesEarly)
    {w : Except Fault (List UInt8 × List UInt8)}
    (hans : ∀ s₀ : Scan, s₀.temp.readStr 0 = .ok p.name →
      s₀.blockStr.readStr 0 = .ok (p.inner ++ p.stale temp) → s₀.parsedStr.str 0 = parsed →
      s₀.Shows out → Answers s₀ out w (eachEntry kv (kv.length - 1) Scan.block s₀))
    (d : UInt8) (rest : List UInt8) :
    Outcome kv (d :: rest) (p.leave temp) out w
      (parseLoop kv (kv.length - 1) (p.source ++ d :: rest) s) := by
  obtain ⟨hname, hinner, hat, hclosed, hroom⟩ := hblock.parts hp
  have hlen : (p.name ++ atSign :: p.inner).length = p.laid.length := by
    rw [hblock.laid_eq, List.length_append, List.length_append]
    rfl
  have hlaid : p.laid.length < scratchSize := by
    rw [← hlen, List.length_append, List.length_cons]
    omega
  have hcontent : IsText (p.name ++ atSign :: p.inner) := by
    refine isText_append.mpr ⟨hname, fun h0 => ?_⟩
    rw [List.mem_cons] at h0
    rcases h0 with h0 | h0
    · exact absurd h0 (by decide)
    · exact hinner h0
  have hopen : ¬[atSign, closing] <:+: p.name ++ atSign :: p.inner ++ [atSign] := by
    intro hinside
    have hbehind := pair_infix_append hat (pair_infix_concat (by decide) hinside)
    rw [List.infix_cons_iff, List.cons_prefix_cons] at hbehind
    rcases hbehind with ⟨-, rest', hrest⟩ | hbehind
    · exact hearly ⟨rest', hrest.symm⟩
    · exact hclosed hbehind
  obtain ⟨w', b, hrun, hbytes⟩ := parseLoop_block kv (kv.length - 1) h .block
    hcontent hopen (by omega) (closing :: d :: rest)
  have hsource : p.source ++ d :: rest = [opening, atSign] ++
      (p.name ++ atSign :: p.inner ++ atSign :: closing :: d :: rest) := by
    rw [hblock.source_eq]
    simp
  rw [hsource, show [opening, atSign] = [opening, Kind.block.sign] from rfl,
    show atSign :: closing :: d :: rest = Kind.block.sign :: closing :: d :: rest from rfl, hrun]
  -- `temp` is cut into the name and what goes to `block_str`
  have hread := h.tidy.readStr hcontent (by omega) hbytes
  rw [hlen, List.append_assoc, List.cons_append] at hread
  obtain ⟨b', blockStr, hcutBytes, hname', hinner', hswitch⟩ := switch_block (n := kv.length - 1) s
    w' (p.name ++ atSign :: p.inner).length hread hat
  have hlaidBytes : b'.bytes = p.laid ++ temp.drop p.laid.length := by
    rw [hcutBytes, hbytes, hlen, hblock.laid_eq]
    simp
  exact outcome_close (by decide) hswitch
    (hans _ hname' hinner' h.parsed_eq ⟨h.shows.text, h.shows.pos, h.shows.room, h.shows.result⟩)
    rfl rfl hlen hlaidBytes h.tidy hlaid rest

/-- A block that closes early faults, when there is nothing left in `temp` behind its name. -/
theorem parseLoop_early {n : ℤ} {s : Scan} {temp parsed out : List UInt8}
    (h : s.Rests temp parsed out) {p : Piece} (hp : p.WellFormed) (hblock : p.IsBlock)
    (hearly : p.ClosesEarly) (hshort : p.name.length < 64) (rest : List UInt8) :
    parseLoop kv n (p.source ++ rest) s = .error .null := by
  obtain ⟨hname, -, hat, -, hroom⟩ := hblock.parts hp
  obtain ⟨inner, hinner⟩ := hearly
  have hopen : ¬[atSign, closing] <:+: p.name ++ [atSign] := fun hinside =>
    hat ((pair_infix_concat (by decide) hinside).subset List.mem_cons_self)
  obtain ⟨w, b, hrun, hbytes⟩ := parseLoop_block kv n h .block hname hopen
    (by omega) (closing :: (inner ++ ([atSign, closing] ++ rest)))
  have hsource : p.source ++ rest = [opening, atSign] ++
      (p.name ++ atSign :: closing :: (inner ++ ([atSign, closing] ++ rest))) := by
    rw [hblock.source_eq, hinner]
    simp
  rw [hsource, show [opening, atSign] = [opening, Kind.block.sign] from rfl,
    show atSign :: closing :: (inner ++ ([atSign, closing] ++ rest))
      = Kind.block.sign :: closing :: (inner ++ ([atSign, closing] ++ rest)) from rfl, hrun]
  have hread := h.tidy.readStr hname (by omega) hbytes
  rw [h.tidy.cstr_drop hshort, List.append_nil] at hread
  have hswitch : (s.reading .s2 w b p.name.length).switch kv n atSign closing
      = .error .null := by
    unfold Scan.switch Scan.reading
    dsimp only
    rw [if_pos ⟨rfl, rfl⟩, hread, ok_bind, strstr_singleton_eq_none hat]
  rw [parseLoop, if_neg (by decide)]
  show (Scan.step kv n (s.reading .s2 w b p.name.length) atSign closing >>= _) = _
  unfold Scan.step
  rw [hswitch]
  rfl

/-- A piece that is no literal text, and does not close early. -/
theorem outcome_piece (hkv : ∀ e ∈ kv, e.WellFormed) (hkeys : (kv.map Kvmap.key).Nodup)
    {s : Scan} {temp parsed out : List UInt8} (h : s.Rests temp parsed out) {p : Piece}
    (hp : p.WellFormed) (hfits : p.Fits kv) (hliteral : ∀ text, p ≠ .literal text)
    (hearly : ¬p.ClosesEarly) (d : UInt8) (rest : List UInt8) :
    Outcome kv (d :: rest) (p.leave temp) out (p.writes kv (p.stale temp) parsed)
      (parseLoop kv (kv.length - 1) (p.source ++ d :: rest) s) := by
  cases p with
  | literal text => exact absurd rfl (hliteral text)
  | var name => exact outcome_var hkv hkeys h hp d rest
  | func name inner =>
      refine outcome_block h hp (.func name inner) hearly ?_ d rest
      exact fun s₀ hname hblock hparsed hshows =>
        answers_func hkv hkeys hname hfits hblock hparsed h.parsedRoom hshows
  | list name before after =>
      refine outcome_block h hp (.list name before after) hearly ?_ d rest
      intro s₀ hname hblock hparsed hshows
      refine answers_list hkv hkeys hname hfits hp.2 ?_ hparsed h.parsedRoom hshows
      rw [hblock]
      simp [Piece.inner]

end

/-! ## The end of the template -/

/-- `parse_context` behind its loop returns the page, or faults where the page is full. -/
theorem page_end {s : Scan} {out : List UInt8} (h : s.Shows out) :
    (out.length + 1 < templateResultSize ∧
      (s.result.poke (s.resPos + 1) [0] >>= fun b => b.readStr 0) = .ok out) ∨
    (templateResultSize ≤ out.length + 1 ∧
      (s.result.poke (s.resPos + 1) [0] >>= fun b => b.readStr 0) = .error .write) := by
  rw [h.pos]
  by_cases hroom : out.length + 1 < templateResultSize
  · have hle : out.length + 1 + [(0 : UInt8)].length ≤ templateResultSize := hroom
    obtain ⟨b, hb, -⟩ := Block.poke_eq_ok (b := s.result) hle
    have hstr : b.str 0 = out := by
      rw [Block.str_poke_below hb (by rw [h.str]; omega), h.str]
    exact Or.inl ⟨hroom, by
      rw [hb, ok_bind]
      exact Block.readStr_eq_ok_iff.mpr ⟨by rw [hstr]; omega, hstr⟩⟩
  · refine Or.inr ⟨by omega, ?_⟩
    rw [Block.poke_eq_error (by rw [List.length_singleton]; omega)]
    rfl

end Template

/-! ## Templates -/

/-- The entries a template is rendered with: no two have the same key. -/
structure KvTable where
  entries : List Kvmap
  wellFormed : ∀ e ∈ entries, e.WellFormed
  keys : (entries.map Kvmap.key).Nodup

/-- Two pieces that are not both literal texts. -/
def Apart (p q : Piece) : Prop := ∀ text, p = .literal text → ∀ text', q ≠ .literal text'

/-- The pieces of a template, a literal text never beside another, with a page that has room. -/
structure Page (kv : KvTable) where
  pieces : List Piece
  wellFormed : ∀ p ∈ pieces, p.WellFormed
  fits : ∀ p ∈ pieces, p.Fits kv.entries
  apart : pieces.IsChain Apart
  short : (pieces.flatMap (Piece.render kv.entries)).length < 4095

/-- `parse_context` returns the renderings of the pieces, one behind the other. -/
def Renders (kv : KvTable) (pieces : List Piece) : Prop :=
  parseContext (pieces.flatMap Piece.source) kv.entries (kv.entries.length - 1)
    = .ok (pieces.flatMap (Piece.render kv.entries))

/-- Every piece adds its own rendering to the page: every beginning of the template is
rendered piece by piece. -/
def RendersEach (kv : KvTable) (pieces : List Piece) : Prop :=
  ∀ front, front <+: pieces → Renders kv front

namespace Template

variable {kv : KvTable}

/-- A piece that is no literal text begins with a bracket. -/
theorem source_of_not_literal {p : Piece} (h : ∀ text, p ≠ .literal text) :
    ∃ rest, p.source = opening :: rest := by
  cases p with
  | literal text => exact absurd rfl (h text)
  | var name => exact ⟨_, rfl⟩
  | func name inner => exact ⟨_, rfl⟩
  | list name before after => exact ⟨_, rfl⟩

/-- The byte behind a literal text opens no block with the end of it. -/
theorem exists_next {p : Piece} {pieces : List Piece} (h : (p :: pieces).IsChain Apart)
    {d : UInt8} (hd : ∀ text, (p :: pieces).getLast? = some (.literal text) →
      d ≠ hash ∧ d ≠ atSign) (rest : List UInt8) :
    ∃ e tail, pieces.flatMap Piece.source ++ d :: rest = e :: tail ∧
      ∀ text, p = .literal text → e ≠ hash ∧ e ≠ atSign := by
  cases pieces with
  | nil => exact ⟨d, rest, rfl, fun text hp => hd text (by rw [hp]; rfl)⟩
  | cons q pieces =>
      by_cases hq : ∀ text, q ≠ .literal text
      · obtain ⟨tail, htail⟩ := source_of_not_literal hq
        refine ⟨opening, tail ++ (pieces.flatMap Piece.source ++ d :: rest), ?_,
          fun _ _ => by decide⟩
        rw [List.flatMap_cons, htail]
        simp
      · obtain ⟨e, tail, htail⟩ := List.exists_cons_of_ne_nil
          (l := (q :: pieces).flatMap Piece.source ++ d :: rest) (by simp)
        refine ⟨e, tail, htail, fun text hp => absurd ?_ hq⟩
        exact (List.isChain_cons_cons.mp h).1 text hp

/-- A literal text opens no block, nor does it with a byte behind it that is no sign. -/
theorem not_infix_literal {text : List UInt8} (hp : (Piece.literal text).WellFormed) {e : UInt8}
    (he : e ≠ hash ∧ e ≠ atSign) :
    ¬[opening, hash] <:+: text ++ [e] ∧ ¬[opening, atSign] <:+: text ++ [e] :=
  ⟨fun h => hp.2.1 (pair_infix_concat he.1.symm h),
    fun h => hp.2.2 (pair_infix_concat he.2.symm h)⟩

/-- Clean pieces add their renderings to the page. -/
theorem exists_run {pieces : List Piece} (hwf : ∀ p ∈ pieces, p.WellFormed)
    (hfits : ∀ p ∈ pieces, p.Fits kv.entries) (hapart : pieces.IsChain Apart) {d : UInt8}
    (hd : ∀ text, pieces.getLast? = some (.literal text) → d ≠ hash ∧ d ≠ atSign)
    (rest : List UInt8) {s : Scan} {temp parsed out : List UInt8} (h : s.Rests temp parsed out)
    (hclean : Clean kv.entries temp parsed pieces)
    (hroom : out.length + (pieces.flatMap (Piece.render kv.entries)).length < templateResultSize) :
    ∃ s' temp' parsed',
      parseLoop kv.entries (kv.entries.length - 1) (pieces.flatMap Piece.source ++ d :: rest) s
        = parseLoop kv.entries (kv.entries.length - 1) (d :: rest) s' ∧
      s'.Rests temp' parsed' (out ++ pieces.flatMap (Piece.render kv.entries)) ∧
      ∀ more, Clean kv.entries temp parsed (pieces ++ more) ↔ Clean kv.entries temp' parsed' more := by
  induction pieces generalizing s temp parsed out with
  | nil => exact ⟨s, temp, parsed, rfl, by simpa using h, fun more => Iff.rfl⟩
  | cons p pieces ih =>
      obtain ⟨hp, hwf⟩ := List.forall_mem_cons.mp hwf
      obtain ⟨hfit, hfits⟩ := List.forall_mem_cons.mp hfits
      obtain ⟨hpclean, hclean⟩ := hclean
      rw [List.flatMap_cons, List.length_append] at hroom
      obtain ⟨e, tail, htail, he⟩ := exists_next hapart hd rest
      -- the piece leaves the walk between two pieces, with its rendering on the page
      have hpiece : ∃ s₁, parseLoop kv.entries (kv.entries.length - 1) (p.source ++ e :: tail) s
          = parseLoop kv.entries (kv.entries.length - 1) (e :: tail) s₁ ∧
          s₁.Rests (p.leave temp) (p.parsedBehind kv.entries parsed)
            (out ++ p.render kv.entries) := by
        by_cases hliteral : ∀ text, p ≠ .literal text
        · have hwrites := (Piece.clean_iff hpclean.not_closesEarly).mp hpclean
          rcases outcome_piece kv.wellFormed kv.keys h hp hfit hliteral hpclean.not_closesEarly e
            tail with ⟨parsed', text, s₁, hw, hrun, hrests⟩ | ⟨-, hfull⟩
          · rw [hwrites] at hw
            cases hw
            exact ⟨s₁, hrun, hrests⟩
          · have := hfull _ _ hwrites
            omega
        · obtain ⟨text, rfl⟩ : ∃ text, p = .literal text := by simpa using hliteral
          obtain ⟨hhash, hat⟩ := not_infix_literal hp (he text rfl)
          obtain ⟨s₁, hwalk, hrests⟩ := walks_literal kv.entries
            (kv.entries.length - 1) h hp.1 hhash hat
            (show out.length + text.length ≤ templateResultSize by
              simp only [Piece.render] at hroom
              omega) tail
          refine ⟨s₁, hwalk, ?_⟩
          rwa [h.tidy.leave_literal]
      obtain ⟨s₁, hrun, hrests⟩ := hpiece
      obtain ⟨s₂, temp₂, parsed₂, hrun₂, hrests₂, hmore⟩ := ih hwf hfits
        (List.IsChain.tail hapart) (fun text hlast => hd text (by
          rw [List.getLast?_cons, hlast]; rfl)) hrests hclean
        (by rw [List.length_append]; omega)
      refine ⟨s₂, temp₂, parsed₂, ?_, ?_, fun more => ?_⟩
      · rw [List.flatMap_cons, List.append_assoc, htail, hrun, ← htail, hrun₂]
      · rwa [List.append_assoc, ← List.flatMap_cons] at hrests₂
      · rw [← hmore more]
        exact and_iff_right hpclean

/-- The beginning of a clean template is clean. -/
theorem clean_of_append {kv : List Kvmap} {temp parsed : List UInt8} {pieces more : List Piece}
    (h : Clean kv temp parsed (pieces ++ more)) : Clean kv temp parsed pieces := by
  induction pieces generalizing temp parsed with
  | nil => trivial
  | cons p pieces ih => exact ⟨h.1, ih h.2⟩

/-- A template that is not clean has a first piece that is not. -/
theorem exists_first_unclean {kv : List Kvmap} {temp parsed : List UInt8} {pieces : List Piece}
    (h : ¬Clean kv temp parsed pieces) : ∃ front p, front ++ [p] <+: pieces ∧
      Clean kv temp parsed front ∧ ¬Clean kv temp parsed (front ++ [p]) := by
  induction pieces using List.reverseRecOn with
  | nil => exact absurd trivial h
  | append_singleton pieces p ih =>
      by_cases hclean : Clean kv temp parsed pieces
      · exact ⟨pieces, p, List.prefix_refl _, hclean, h⟩
      · obtain ⟨front, q, hstart, hfront, hq⟩ := ih hclean
        exact ⟨front, q, hstart.trans (List.prefix_append _ _), hfront, hq⟩

/-- `parse_context` behind its loop. -/
theorem parseContext_of_parseLoop {pieces : List Piece} {run : Except Fault Scan}
    (h : parseLoop kv.entries (kv.entries.length - 1) (pieces.flatMap Piece.source ++ [0]) .start
      = run) :
    parseContext (pieces.flatMap Piece.source) kv.entries (kv.entries.length - 1)
      = run >>= fun s => s.result.poke (s.resPos + 1) [0] >>= fun b => b.readStr 0 := by
  unfold parseContext
  rw [h]

end Template

namespace Page

open Template

variable {kv : KvTable}

/-- The beginning of a template is a template. -/
def front (page : Page kv) {pieces : List Piece} (h : pieces <+: page.pieces) : Page kv where
  pieces := pieces
  wellFormed := fun p hp => page.wellFormed p (h.subset hp)
  fits := fun p hp => page.fits p (h.subset hp)
  apart := page.apart.prefix h
  short := by
    obtain ⟨back, hback⟩ := h
    have hshort := page.short
    rw [← hback, List.flatMap_append, List.length_append] at hshort
    omega

/-- A clean template is rendered piece by piece. -/
theorem renders_of_clean (page : Page kv)
    (hclean : Clean kv.entries (List.replicate scratchSize 0) [] page.pieces) :
    Renders kv page.pieces := by
  have hshort := page.short
  obtain ⟨s, temp, parsed, hrun, hrests, -⟩ := exists_run page.wellFormed page.fits page.apart
    (d := 0) (fun _ _ => by decide) [] rests_start hclean
    (by rw [List.length_nil, templateResultSize]; omega)
  rw [List.nil_append] at hrests
  unfold Renders
  rw [parseContext_of_parseLoop hrun]
  rcases page_end hrests.shows with ⟨-, hend⟩ | ⟨hfull, -⟩
  · exact hend
  · rw [templateResultSize] at hfull
    omega

/-- A template whose last piece alone is not clean is not rendered piece by piece. -/
theorem not_renders_of_unclean (page : Page kv) {front : List Piece} {p : Piece}
    (hpieces : page.pieces = front ++ [p])
    (hshort : p.ClosesEarly → p.name.length < 64)
    (hfront : Clean kv.entries (List.replicate scratchSize 0) [] front)
    (hp : ¬Clean kv.entries (List.replicate scratchSize 0) [] page.pieces) :
    ¬Renders kv page.pieces := by
  have hstart : front <+: page.pieces := hpieces ▸ List.prefix_append _ _
  have hmem : p ∈ page.pieces := by simp [hpieces]
  have hroom : (front.flatMap (Piece.render kv.entries)).length < 4095 :=
    (page.front hstart).short
  have hwf : ∀ q ∈ front, q.WellFormed := (page.front hstart).wellFormed
  obtain ⟨s, temp, parsed, hrun, hrests, hmore⟩ := exists_run hwf
    (page.front hstart).fits (page.front hstart).apart (d := opening) (fun _ _ => by decide)
    (p.source.tail ++ [0]) rests_start hfront
    (by rw [List.length_nil, templateResultSize]; omega)
  rw [hpieces, hmore [p]] at hp
  -- the pieces in front leave `temp` and `parsed_str` so that the last one is not clean
  have hunclean : ¬p.Clean kv.entries (p.stale temp) parsed := fun h => hp ⟨h, trivial⟩
  have hliteral : ∀ text, p ≠ .literal text := by
    rintro text rfl
    exact hunclean trivial
  obtain ⟨tail, htail⟩ := source_of_not_literal hliteral
  rw [htail, List.tail_cons, ← List.cons_append, ← htail] at hrun
  have hsource : page.pieces.flatMap Piece.source ++ [0]
      = front.flatMap Piece.source ++ (p.source ++ [0]) := by
    rw [hpieces]
    simp
  unfold Renders
  rw [parseContext_of_parseLoop ((congrArg₂ _ hsource rfl).trans hrun)]
  by_cases hearly : p.ClosesEarly
  · have hblock : p.IsBlock := by
      cases p with
      | literal text => exact absurd rfl (hliteral text)
      | var name => simp [Piece.ClosesEarly, Piece.inner] at hearly
      | func name inner => exact .func name inner
      | list name before after => exact .list name before after
    rw [parseLoop_early hrests (page.wellFormed p hmem) hblock hearly (hshort hearly)]
    intro heq
    cases heq
  · rcases outcome_piece kv.wellFormed kv.keys hrests (page.wellFormed p hmem)
      (page.fits p hmem) hliteral hearly 0 [] with
      ⟨parsed', text, s', hw, hrun', hrests'⟩ | ⟨⟨e, hrun'⟩, -⟩
    · have hstop : parseLoop kv.entries (kv.entries.length - 1) [0] s' = .ok s' := rfl
      rw [hrun', hstop, ok_bind]
      rcases page_end hrests'.shows with ⟨-, hend⟩ | ⟨-, hend⟩
      · -- to write its rendering it would have to be clean
        rw [hend, hpieces]
        intro heq
        have htext : text = p.render kv.entries := by
          rw [List.flatMap_append, List.nil_append] at heq
          simpa using heq
        rw [htext] at hw
        rw [Piece.parsed_of_writes hw] at hw
        exact hunclean ((Piece.clean_iff hearly).mpr hw)
      · rw [hend]
        intro heq
        cases heq
    · rw [hrun']
      intro heq
      cases heq

end Page

open Template

/-- A clean template is rendered piece by piece; and a template that is rendered piece by piece
is clean, unless a name of 64 bytes or more stands before an inner text that begins with `]`. -/
theorem rendersEach_iff {kv : KvTable} (page : Page kv) :
    (Clean kv.entries (List.replicate scratchSize 0) [] page.pieces →
      RendersEach kv page.pieces) ∧
    ((∀ p ∈ page.pieces, p.ClosesEarly → p.name.length < 64) → RendersEach kv page.pieces →
      Clean kv.entries (List.replicate scratchSize 0) [] page.pieces) := by
  constructor
  · intro hclean front hfront
    obtain ⟨back, hback⟩ := id hfront
    rw [← hback] at hclean
    exact (page.front hfront).renders_of_clean (clean_of_append hclean)
  · intro hshort heach
    by_contra hunclean
    obtain ⟨front, p, hstart, hfront, hp⟩ := exists_first_unclean hunclean
    have hmem : p ∈ page.pieces := hstart.subset (by simp)
    exact Page.not_renders_of_unclean (page.front hstart) rfl (hshort p hmem) hfront hp
      (heach _ hstart)

/-! ## A function, a list and a variable -/

/-- The entries of the test view. -/
def sampleTable : KvTable where
  entries := [⟨1, bytes "name", bytes "Dmfserver", [], id⟩, ⟨2, bytes "myfunction", [], [], id⟩,
    ⟨3, bytes "dec1", [], [bytes "Apache", bytes "Nginx", bytes "Http"], id⟩]
  wellFormed := by
    intro e he
    fin_cases he <;>
      exact ⟨by decide, by decide, by decide, fun s hs => hs⟩
  keys := by decide

/-- A list, a literal text, a variable and a function. -/
def samplePage : Page sampleTable where
  pieces := [.list (bytes "dec1") (bytes "<") (bytes ">"), .literal (bytes " by "),
    .var (bytes "name"), .func (bytes "myfunction") (bytes "ok")]
  wellFormed := by
    intro p hp
    fin_cases hp
    · exact ⟨⟨by decide, by decide, by decide, by decide, by decide⟩, by decide⟩
    · exact ⟨by decide, by decide, by decide⟩
    · exact ⟨by decide, by decide, by decide, by decide, by decide⟩
    · exact ⟨by decide, by decide, by decide, by decide, by decide⟩
  fits := by
    intro p hp
    fin_cases hp <;> trivial
  apart := .cons_cons nofun (.cons_cons (fun _ _ _ => nofun) (.cons_cons nofun (.singleton _)))
  short := by decide

/-- The list stands first, and no block is long. -/
theorem rendersEach_iff_sample : RendersEach sampleTable samplePage.pieces := by
  have htidy : Tidy (List.replicate scratchSize 0) := rests_start.tidy
  have htidy₁ := htidy.leave (p := .list (bytes "dec1") (bytes "<") (bytes ">")) (by decide)
  have htidy₂ := htidy₁.leave (p := .literal (bytes " by ")) (by decide)
  have htidy₃ := htidy₂.leave (p := .var (bytes "name")) (by decide)
  refine (rendersEach_iff samplePage).1 ⟨⟨?_, ?_⟩, trivial, ?_, ⟨?_, ?_⟩, trivial⟩
  · rintro ⟨rest, h⟩
    exact absurd (List.cons.inj h).1 (by decide)
  · rintro items hitems
    exact ⟨rfl, Or.inr (htidy.stale_eq_nil (by decide)), by decide⟩
  · show valueOf _ (_ ++ _) = _
    rw [htidy₂.stale_eq_nil (by decide), List.append_nil]
  · rintro ⟨rest, h⟩
    exact absurd (List.cons.inj h).1 (by decide)
  · rintro f hf
    obtain rfl : id = f := Option.some.inj hf
    rw [htidy₃.stale_eq_nil (by decide), List.append_nil]
    exact ⟨rfl, by decide⟩

/-- A function, and a list behind it. -/
def listBehindFunction : Page sampleTable where
  pieces := [.func (bytes "myfunction") (bytes "ok"), .list (bytes "dec1") (bytes "<") (bytes ">")]
  wellFormed := by
    intro p hp
    fin_cases hp
    · exact ⟨by decide, by decide, by decide, by decide, by decide⟩
    · exact ⟨⟨by decide, by decide, by decide, by decide, by decide⟩, by decide⟩
  fits := by
    intro p hp
    fin_cases hp <;> trivial
  apart := .cons_cons nofun (.singleton _)
  short := by decide

/-- What the function wrote stands in front of the list once more. -/
theorem not_renders_listBehindFunction :
    ¬∀ (kv : KvTable) (page : Page kv), Renders kv page.pieces := by
  intro h
  have hpieces : listBehindFunction.pieces = [.func (bytes "myfunction") (bytes "ok")]
      ++ [.list (bytes "dec1") (bytes "<") (bytes ">")] := rfl
  refine Page.not_renders_of_unclean listBehindFunction hpieces (fun _ => by decide) ?_ ?_
    (h _ listBehindFunction)
  · refine ⟨⟨?_, ?_⟩, trivial⟩
    · rintro ⟨rest, h⟩
      exact absurd (List.cons.inj h).1 (by decide)
    · rintro f hf
      obtain rfl : id = f := Option.some.inj hf
      rw [rests_start.tidy.stale_eq_nil (by decide), List.append_nil]
      exact ⟨rfl, by decide⟩
  · rintro ⟨-, ⟨-, hlist⟩, -⟩
    exact absurd (hlist _ rfl).1 (by decide)
