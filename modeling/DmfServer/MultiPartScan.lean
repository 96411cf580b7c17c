/-
# The bodies the multipart scanner gets through

The scanner goes from marker to marker: in each state it runs up to the first place at
which one of a few texts stands (`Takes`), collecting in `temp` what it passes, and takes
the next step there.  A body is therefore read to an end exactly when the markers come in
the order of a form, what is copied from `temp` has room, and the delimiter line at which
the scan ends is reached in this way: `Body` is that grammar.  It says nothing of states or of
the closing delimiter of the whole form; a body that lacks one leads the scanner out of it.
-/
import DmfServer.MultiPartRoundTrip
import DmfServer.RequestBounds

open CMem

namespace MultiPart

/-! ## Markers -/

/-- The texts at which a state takes its next step. -/
def markers : State → List (List UInt8)
  | .s10 => [[Ascii.dash, Ascii.dash]]
  | .s11 => [[Ascii.cr, Ascii.lf], [Ascii.dash, Ascii.dash]]
  | .s20 => [[Ascii.colon]]
  | .s21 => [[Ascii.semicolon]]
  | .s22 => [[Ascii.equals, Ascii.quote]]
  | .s23 => [[Ascii.quote]]
  | .s24 => [[Ascii.semicolon], [Ascii.cr, Ascii.lf]]
  | _ => []

/-- A marker of the state stands here. -/
def Marked (st : State) (mem : List UInt8) : Prop := ∃ marker ∈ markers st, marker <+: mem

instance (st : State) (mem : List UInt8) : Decidable (Marked st mem) :=
  inferInstanceAs (Decidable (∃ marker ∈ markers st, marker <+: mem))

/-- The bytes at which a state sets `write` to 0, which clears `temp`. -/
def clears : State → UInt8 → Bool
  | .s11, c => c == Ascii.dash
  | .s20, c => c == Ascii.lf
  | .s21, c => c == Ascii.space
  | .s22, c => c == Ascii.space
  | .s23, _ => false
  | _, _ => true

/-- One byte in front of the marker goes to `temp` or clears it. -/
def collect (st : State) (temp : List UInt8) (c : UInt8) : Except Fault (List UInt8) :=
  if clears st c then .ok []
  else if temp.length < 1024 then .ok (temp ++ [c]) else .error .write

/-- Up to the first marker of the state the memory `mem` leaves `temp` in the array; `rest` starts
with the marker. -/
def Takes (st : State) (mem temp rest : List UInt8) : Prop :=
  ∃ text, mem = text ++ rest ∧ FirstAt (Marked st) text rest ∧
    text.foldlM (collect st) [] = .ok temp

/-- The state looks for a marker; where it never sets `write` it drops what it passes. -/
structure Scan.Looks (s : Scan) : Prop where
  markers_ne : markers s.state ≠ []
  skips : s.state = .s10 ∨ s.state = .s24 → s.write = .skip

variable {junk : ℕ → PartJunk} {boundary : List UInt8}

/-- With a byte behind it, a look at two bytes is the question whether they start the memory. -/
theorem pairAt_cons (a b c d : UInt8) (rest : List UInt8) :
    pairAt a b c (d :: rest) = .ok (decide ([a, b] <+: c :: d :: rest)) := by
  by_cases hc : c = a
  · subst hc
    rw [pairAt_self, peek_cons, ok_map]
    congr 1
    rw [beq_eq_decide, decide_eq_decide]
    simp [List.cons_prefix_cons, eq_comm]
  · rw [pairAt_of_ne hc]
    simp [List.cons_prefix_cons, Ne.symm hc]

theorem single_prefix_cons (a c : UInt8) (rest : List UInt8) : [a] <+: c :: rest ↔ c = a := by
  simp [List.cons_prefix_cons, eq_comm]

/-- In front of the marker the switch says where the byte goes. -/
theorem switch_unmarked {s : Scan} (hs : s.Looks) {c : UInt8} {rest : List UInt8}
    (hrest : rest ≠ []) (hnot : ¬Marked s.state (c :: rest)) :
    s.switch boundary c rest
      = .ok { s with write := if clears s.state c then .skip else .temp } := by
  obtain ⟨d, rest, rfl⟩ := List.exists_cons_of_ne_nil hrest
  obtain ⟨st, w, temp, k, nf, m, multi⟩ := s
  obtain ⟨hne, hskip⟩ := hs
  dsimp only at hne hskip hnot
  unfold Scan.switch Marked at *
  cases st <;>
    simp_all only [markers, pairAt_cons, clears, List.mem_cons, List.not_mem_nil, or_false,
      exists_eq_left, exists_eq_or_imp, not_or, decide_false, ok_bind, single_prefix_cons,
      if_false, Bool.false_eq_true, beq_iff_eq, if_true, ne_eq, not_true_eq_false, reduceCtorEq,
      or_true, forall_const, IsEmpty.forall_iff]

/-- A byte that leaves the state away from the end of a boundary line is stored. -/
theorem scanLoop_byte {s s' : Scan} {c : UInt8} {rest : List UInt8}
    (hswitch : s.switch boundary c rest = .ok s') (hstay : s'.state ≠ .s90) :
    scanLoop junk boundary (c :: rest) s
      = s'.store c >>= fun s => if s.state = .s1 then .ok s else scanLoop junk boundary rest s := by
  rw [scanLoop, hswitch, ok_bind, if_neg (fun h => hstay h.1), Scan.openPart, if_neg hstay, ok_bind]

/-- A byte that stays in front of the marker is collected. -/
theorem scanLoop_of_switch {s : Scan} (hs : s.Looks) {c : UInt8} {rest : List UInt8}
    (hswitch : s.switch boundary c rest
      = .ok { s with write := if clears s.state c then .skip else .temp }) :
    scanLoop junk boundary (c :: rest) s
      = collect s.state s.temp c >>= fun temp => scanLoop junk boundary rest
          { s with write := if clears s.state c then .skip else .temp, temp := temp } := by
  have hstay : s.state ≠ .s90 ∧ s.state ≠ .s1 := by
    constructor <;> intro h <;> exact hs.markers_ne (by rw [h]; rfl)
  rw [scanLoop_byte hswitch hstay.1]
  unfold Scan.store collect
  by_cases hclear : clears s.state c
  · simp only [hclear, if_true, ok_bind]
    rw [if_neg hstay.2]
  · simp only [hclear, if_false, Bool.false_eq_true]
    by_cases hroom : s.temp.length < 1024
    · rw [if_pos hroom, if_pos hroom, ok_bind, ok_bind, if_neg hstay.2]
    · rw [if_neg hroom, if_neg hroom, error_bind, error_bind]

theorem Scan.Looks.next {s : Scan} (hs : s.Looks) (c : UInt8) (temp : List UInt8) :
    Scan.Looks { s with write := if clears s.state c then .skip else .temp, temp := temp } := by
  refine ⟨hs.markers_ne, fun h => if_pos ?_⟩
  obtain h | h := h <;> rw [show s.state = _ from h] <;> rfl

variable (junk boundary) in
/-- The scanner runs up to the first marker of its state, and `temp` holds what it collected. -/
theorem scanLoop_firstAt {s : Scan} (hs : s.Looks) {text rest : List UInt8}
    (hfirst : FirstAt (Marked s.state) text rest) :
    ∃ w, (∀ temp, Scan.Looks { s with write := w, temp := temp }) ∧
      scanLoop junk boundary (text ++ rest) s
        = text.foldlM (collect s.state) s.temp >>= fun temp =>
            scanLoop junk boundary rest { s with write := w, temp := temp } := by
  induction text generalizing s with
  | nil => exact ⟨s.write, fun _ => ⟨hs.markers_ne, hs.skips⟩, rfl⟩
  | cons c text ih =>
      have hrest : text ++ rest ≠ [] := by
        obtain ⟨marker, hmarker, hprefix⟩ := hfirst.here
        intro h
        rw [(List.append_eq_nil_iff.mp h).2, List.prefix_nil] at hprefix
        subst hprefix
        revert hmarker
        cases s.state <;> decide
      rw [List.cons_append, List.foldlM_cons,
        scanLoop_of_switch hs (switch_unmarked hs hrest hfirst.not_start)]
      cases hc : collect s.state s.temp c with
      | error e =>
          exact ⟨_, fun temp => hs.next c temp, rfl⟩
      | ok temp =>
          obtain ⟨w, hlooks, hloop⟩ := ih (hs.next c temp) hfirst.tail
          exact ⟨w, hlooks, hloop⟩

theorem pairAt_nil (a b c : UInt8) :
    pairAt a b c [] = if c = a then .error .read else .ok false := rfl

variable (boundary) in
/-- At the last byte the switch does the same, or looks at a byte that is not there. -/
theorem switch_last {s : Scan} (hs : s.Looks) {c : UInt8} (hnot : ¬Marked s.state [c]) :
    s.switch boundary c [] = .ok { s with write := if clears s.state c then .skip else .temp } ∨
      s.switch boundary c [] = .error .read := by
  obtain ⟨st, w, temp, k, nf, m, multi⟩ := s
  obtain ⟨hne, hskip⟩ := hs
  dsimp only at hne hskip hnot
  unfold Scan.switch
  unfold Marked at hnot
  cases st <;>
    simp only [markers, List.mem_cons, List.not_mem_nil, or_false, exists_eq_left,
      exists_eq_or_imp, not_or, single_prefix_cons, pairAt_nil, clears] at hnot hskip hne ⊢ <;>
    split_ifs <;> simp_all

/-- A last byte that is no marker leads nowhere. -/
theorem scanLoop_last {s s' : Scan} (hs : s.Looks) {c : UInt8} (hnot : ¬Marked s.state [c]) :
    scanLoop junk boundary [c] s ≠ .ok s' := by
  intro h
  obtain hswitch | hswitch := switch_last boundary hs hnot
  · have hmem : scanLoop junk boundary [c] s = collect s.state s.temp c >>= fun temp =>
        scanLoop junk boundary [] _ := scanLoop_of_switch hs hswitch
    rw [hmem] at h
    obtain ⟨temp, -, h⟩ := exists_of_bind h
    cases h
  · rw [scanLoop, hswitch] at h
    cases h

/-- Where no marker comes the scanner runs out of the memory, or out of `temp`. -/
theorem scanLoop_of_unmarked {s s' : Scan} (hs : s.Looks) {mem : List UInt8}
    (hnot : ∀ back, back <:+ mem → ¬Marked s.state back) :
    scanLoop junk boundary mem s ≠ .ok s' := by
  induction mem generalizing s with
  | nil => exact fun h => nomatch h
  | cons c mem ih =>
      have hhere : ¬Marked s.state (c :: mem) := hnot _ (List.suffix_refl _)
      by_cases hmem : mem = []
      · subst hmem
        exact scanLoop_last hs hhere
      · intro h
        rw [scanLoop_of_switch hs (switch_unmarked hs hmem hhere)] at h
        obtain ⟨temp, -, h⟩ := exists_of_bind h
        exact ih (hs.next c temp)
          (fun back hback => hnot back (hback.trans (List.suffix_cons c mem))) h

variable (junk boundary) in
/-- What the scanner takes brings it to the marker. -/
theorem scanLoop_of_takes {s : Scan} (hs : s.Looks) (htemp : s.temp = [])
    {mem temp rest : List UInt8} (htakes : Takes s.state mem temp rest) :
    ∃ w, Scan.Looks { s with write := w, temp := temp } ∧ scanLoop junk boundary mem s
      = scanLoop junk boundary rest { s with write := w, temp := temp } := by
  obtain ⟨text, rfl, hfirst, hcollect⟩ := htakes
  obtain ⟨w, hlooks, hloop⟩ := scanLoop_firstAt junk boundary hs hfirst
  refine ⟨w, hlooks temp, ?_⟩
  rw [hloop, htemp, hcollect, ok_bind]

/-- A scan that comes to its end has come to the marker. -/
theorem exists_takes {s s' : Scan} (hs : s.Looks) (htemp : s.temp = []) {mem : List UInt8}
    (h : scanLoop junk boundary mem s = .ok s') :
    ∃ w temp rest, Takes s.state mem temp rest ∧ Scan.Looks { s with write := w, temp := temp } ∧
      scanLoop junk boundary rest { s with write := w, temp := temp } = .ok s' := by
  by_cases hmarked : ∃ back, back <:+ mem ∧ Marked s.state back
  · obtain ⟨back, hsuffix, hback⟩ := hmarked
    obtain ⟨text, rest, rfl, hfirst⟩ := exists_firstAt hsuffix hback
    obtain ⟨w, hlooks, hloop⟩ := scanLoop_firstAt junk boundary hs hfirst
    rw [h] at hloop
    obtain ⟨temp, hcollect, hrest⟩ := exists_of_bind hloop.symm
    rw [htemp] at hcollect
    exact ⟨w, temp, rest, ⟨text, rfl, hfirst, hcollect⟩, hlooks temp, hrest⟩
  · push Not at hmarked
    exact absurd h (scanLoop_of_unmarked hs hmarked)

theorem Takes.marked {st : State} {mem temp rest : List UInt8} (h : Takes st mem temp rest) :
    ∃ marker ∈ markers st, ∃ mem', rest = marker ++ mem' := by
  obtain ⟨text, -, hfirst, -⟩ := h
  obtain ⟨marker, hmarker, mem', hmem'⟩ := hfirst.here
  exact ⟨marker, hmarker, mem', hmem'.symm⟩

theorem Takes.length_le {st : State} {mem temp rest : List UInt8} (h : Takes st mem temp rest) :
    rest.length ≤ mem.length := by
  obtain ⟨text, rfl, -, -⟩ := h
  rw [List.length_append]
  omega

/-! ## The data of a part -/

/-- A line end, two bytes and the boundary: here the data of a part ends. -/
def Delimited (boundary mem : List UInt8) : Prop :=
  [Ascii.cr, Ascii.lf] <+: mem ∧ boundary <+: mem.drop 4

instance (boundary mem : List UInt8) : Decidable (Delimited boundary mem) :=
  inferInstanceAs (Decidable (_ ∧ _))

theorem cstr_take_eq_iff (hb : IsText boundary) (mem : List UInt8) :
    cstr (mem.take boundary.length) = boundary ↔ boundary <+: mem := by
  constructor
  · intro h
    have htake : cstr (mem.take boundary.length) <+: mem :=
      (List.takeWhile_prefix _).trans (List.take_prefix _ _)
    rwa [h] at htake
  · intro h
    rw [← List.prefix_iff_eq_take.mp h, hb.cstr_eq]

section
variable (multi : Vector (Ptr Multipart) multiPartMaxNum) (j : Fin multiPartMaxNum)
variable (nf : ℕ) (p : Multipart)

/-- Inside the data a line end needs a look ahead, and ends the data where the boundary follows. -/
theorem switch_data_cons (hb : IsText boundary) (c d : UInt8) (rest : List UInt8) (w : Write)
    (k : ℕ) :
    (Scan.inPart multi j .s28 w [] k nf p).switch boundary c (d :: rest)
      = if [Ascii.cr, Ascii.lf] <+: c :: d :: rest ∧ (rest.drop 2).length < boundary.length then
          .error .read
        else if Delimited boundary (c :: d :: rest) then .ok (.inPart multi j .s10 .close [] k nf p)
        else .ok (.inPart multi j .s28 .data [] k nf p) := by
  unfold Scan.switch Scan.inPart Delimited
  dsimp only
  rw [pairAt_cons, ok_bind]
  by_cases hcrlf : [Ascii.cr, Ascii.lf] <+: c :: d :: rest
  · simp only [hcrlf, decide_true, if_true, true_and, List.drop_succ_cons, cstr_take_eq_iff hb]
  · simp only [hcrlf, decide_false, Bool.false_eq_true, if_false, false_and]

/-- A byte of the data is stored, if there is room for it. -/
theorem scanLoop_dataByte {c : UInt8} {rest : List UInt8} {w : Write}
    (hswitch : (Scan.inPart multi j .s28 w [] p.data.length nf p).switch boundary c rest
      = .ok (.inPart multi j .s28 .data [] p.data.length nf p)) :
    scanLoop junk boundary (c :: rest) (.inPart multi j .s28 w [] p.data.length nf p)
      = if p.data.length < multiPartMax then
          scanLoop junk boundary rest (.inPart multi j .s28 .data [] (p.data ++ [c]).length nf
            { p with data := p.data ++ [c] })
        else .error .write := by
  rw [scanLoop_byte hswitch (by simp [Scan.inPart])]
  show (Scan.part _ >>= _) >>= _ = _
  rw [part_inPart, ok_bind]
  show (if p.data.length < multiPartMax then _ else _) >>= _ = _
  by_cases hroom : p.data.length < multiPartMax
  · rw [if_pos hroom, if_pos hroom, setPart_inPart, ok_bind, ok_bind,
      if_neg (by simp [Scan.inPart])]
    simp [Scan.inPart, List.drop_eq_nil_of_le]
  · rw [if_neg hroom, if_neg hroom, error_bind]

variable (junk) in
/-- The data up to the delimiter is stored, if there is room for it. -/
theorem scanLoop_data (hb : IsText boundary) {data rest : List UInt8}
    (hfirst : FirstAt (Delimited boundary) data rest) (hmax : p.data.length ≤ multiPartMax)
    (w : Write) :
    ∃ w', scanLoop junk boundary (data ++ rest) (.inPart multi j .s28 w [] p.data.length nf p)
      = if p.data.length + data.length ≤ multiPartMax then
          scanLoop junk boundary rest (.inPart multi j .s28 w' [] (p.data.length + data.length) nf
            { p with data := p.data ++ data })
        else .error .write := by
  induction data generalizing p w with
  | nil =>
      refine ⟨w, ?_⟩
      rw [List.length_nil, Nat.add_zero, if_pos hmax, List.append_nil, List.nil_append]
  | cons c data ih =>
      obtain ⟨d, behind, hbehind⟩ : ∃ d behind, data ++ rest = d :: behind := by
        apply List.exists_cons_of_ne_nil
        intro h
        have hcrlf := hfirst.here.1
        rw [(List.append_eq_nil_iff.mp h).2, List.prefix_nil] at hcrlf
        cases hcrlf
      -- the look ahead at a line end stays in front of the end of the delimiter
      have hahead : ¬(behind.drop 2).length < boundary.length := by
        have hdelimiter := hfirst.here.2.length_le
        have hlen := congrArg List.length hbehind
        simp only [List.length_append, List.length_cons, List.length_drop] at hlen hdelimiter ⊢
        omega
      have hnot : ¬Delimited boundary (c :: d :: behind) := by
        rw [← hbehind]
        exact hfirst.not_start
      have hswitch := switch_data_cons multi j nf p hb c d behind w p.data.length
      rw [if_neg (fun h => hahead h.2), if_neg hnot, ← hbehind] at hswitch
      rw [List.cons_append, scanLoop_dataByte multi j nf p hswitch, List.length_cons]
      by_cases hroom : p.data.length < multiPartMax
      · obtain ⟨w', hloop⟩ := ih { p with data := p.data ++ [c] } hfirst.tail
          (by simpa using hroom) .data
        refine ⟨w', ?_⟩
        rw [if_pos hroom, hloop]
        simp only [List.length_append, List.length_singleton, List.append_assoc,
          List.singleton_append, Nat.add_assoc, Nat.add_comm data.length]
      · refine ⟨w, ?_⟩
        rw [if_neg hroom, if_neg (by omega)]

/-- Data behind which no delimiter comes leads out of the memory, or out of its buffer. -/
theorem scanLoop_of_undelimited (hb : IsText boundary) {mem : List UInt8}
    (hnot : ∀ back, back <:+ mem → ¬Delimited boundary back) (w : Write) (s' : Scan) :
    scanLoop junk boundary mem (.inPart multi j .s28 w [] p.data.length nf p) ≠ .ok s' := by
  induction mem generalizing p w with
  | nil => exact fun h => nomatch h
  | cons c mem ih =>
      intro h
      obtain ⟨s₁, hswitch, -⟩ := exists_of_bind h
      have hdata : s₁ = .inPart multi j .s28 .data [] p.data.length nf p := by
        cases mem with
        | nil =>
            unfold Scan.switch Scan.inPart at hswitch
            dsimp only at hswitch
            rw [pairAt_nil] at hswitch
            split at hswitch
            · cases hswitch
            · cases hswitch
              rfl
        | cons d rest =>
            rw [switch_data_cons multi j nf p hb, if_neg (hnot _ (List.suffix_refl _))] at hswitch
            split at hswitch
            · cases hswitch
            · cases hswitch
              rfl
      rw [hdata] at hswitch
      rw [scanLoop_dataByte multi j nf p hswitch] at h
      split at h
      · exact ih { p with data := p.data ++ [c] }
          (fun back hback => hnot back (hback.trans (List.suffix_cons c mem))) .data h
      · cases h

variable (junk) in
/-- At the delimiter the part gets its length. -/
theorem scanLoop_delimited (hb : IsText boundary) {mem : List UInt8} (hmem : Delimited boundary mem)
    (w : Write) (k : ℕ) :
    scanLoop junk boundary mem (.inPart multi j .s28 w [] k nf p)
      = scanLoop junk boundary mem.tail
          (.atLine (multi.set j (.obj { p with length := k }) j.isLt) (j : ℕ) nf) := by
  obtain ⟨⟨rest, rfl⟩, hboundary⟩ := hmem
  have hswitch := switch_data_cons multi j nf p hb Ascii.cr Ascii.lf rest w k
  have hahead : ¬(rest.drop 2).length < boundary.length := not_lt.mpr hboundary.length_le
  have hhere : Delimited boundary (Ascii.cr :: Ascii.lf :: rest) := ⟨⟨rest, rfl⟩, hboundary⟩
  rw [if_neg (fun h => hahead h.2), if_pos hhere] at hswitch
  show scanLoop junk boundary (Ascii.cr :: Ascii.lf :: rest) _ = _
  rw [scanLoop_byte hswitch (by simp [Scan.inPart])]
  show (Scan.part _ >>= _) >>= _ = _
  rw [part_inPart, ok_bind, setPart_inPart]
  rfl

end

/-! ## What is done at a marker -/

section
variable (multi : Vector (Ptr Multipart) multiPartMaxNum) (j : Fin multiPartMaxNum)
variable (nf : ℕ) (p : Multipart)

theorem copyTemp_eq (st : State) (w : Write) (temp : List UInt8) (k off : ℕ) :
    (Scan.inPart multi j st w temp k nf p).copyTemp off
      = p.kv.strcpy off (cstr temp) >>= fun kv =>
          .ok (.inPart multi j st w temp k nf { p with kv := kv }) := by
  unfold Scan.copyTemp
  rw [part_inPart, ok_bind]
  congr 1
  funext kv
  exact setPart_inPart _

/-- Whatever is copied into the record at a marker decides whether the scan goes on. -/
theorem scanLoop_copy {st st' : State} {c : UInt8} {rest temp : List UInt8} {w : Write} {code : ℕ}
    {copy : Except Fault (Block kvSize)}
    (hswitch : (Scan.inPart multi j st w temp 0 nf p).switch boundary c rest
      = copy >>= fun kv => .ok (.inPart multi j st' .skip temp 0 code { p with kv := kv }))
    (hstay : st' ≠ .s90) (hgo : st' ≠ .s1) :
    scanLoop junk boundary (c :: rest) (.inPart multi j st w temp 0 nf p)
      = copy >>= fun kv => scanLoop junk boundary rest
          (.inPart multi j st' .skip [] 0 code { p with kv := kv }) := by
  cases copy with
  | error e =>
      rw [scanLoop, hswitch]
      rfl
  | ok kv =>
      rw [ok_bind] at hswitch
      rw [scanLoop_byte hswitch hstay, ok_bind]
      show (if st' = .s1 then _ else _) = _
      rw [if_neg hgo]
      rfl

/-- The colon behind the name of the header. -/
theorem scanLoop_colon (w : Write) (temp rest : List UInt8) :
    scanLoop junk boundary (Ascii.colon :: rest) (.inPart multi j .s20 w temp 0 nf p)
      = p.kv.strcpy disAt (cstr temp) >>= fun kv =>
          scanLoop junk boundary rest (.inPart multi j .s21 .skip [] 0 nf { p with kv := kv }) := by
  refine scanLoop_copy multi j nf p ?_ (by decide) (by decide)
  show (Scan.copyTemp (.inPart multi j .s20 .temp temp 0 nf p) disAt >>= _) = _
  rw [copyTemp_eq]
  cases p.kv.strcpy disAt (cstr temp) <;> rfl

/-- The semicolon behind its value. -/
theorem scanLoop_semicolon (w : Write) (temp rest : List UInt8) :
    scanLoop junk boundary (Ascii.semicolon :: rest) (.inPart multi j .s21 w temp 0 nf p)
      = p.kv.strcpy (disAt + kvKeySize) (cstr temp) >>= fun kv =>
          scanLoop junk boundary rest (.inPart multi j .s22 .skip [] 0 nf { p with kv := kv }) := by
  refine scanLoop_copy multi j nf p ?_ (by decide) (by decide)
  show (Scan.copyTemp (.inPart multi j .s21 .temp temp 0 nf p) _ >>= _) = _
  rw [copyTemp_eq]
  cases p.kv.strcpy (disAt + kvKeySize) (cstr temp) <;> rfl

/-- `name_or_filename` behind a key; another key leaves it. -/
def keyCode (nf : ℕ) (key : List UInt8) : ℕ :=
  if cstr key = bytes "name" then 1 else if cstr key = bytes "filename" then 2 else nf

/-- What a key does to the record. -/
def copyKey (kv : Block kvSize) (key : List UInt8) : Except Fault (Block kvSize) :=
  if cstr key = bytes "name" then kv.strcpy nameAt (bytes "name")
  else if cstr key = bytes "filename" then kv.strcpy filenameAt (bytes "filename")
  else .ok kv

/-- What a value does to the record. -/
def copyValue (nf : ℕ) (kv : Block kvSize) (value : List UInt8) : Except Fault (Block kvSize) :=
  if nf = 1 then kv.strcpy (nameAt + kvKeySize) (cstr value)
  else if nf = 2 then kv.strcpy (filenameAt + kvKeySize) (cstr value)
  else .ok kv

/-- The equals sign and the quote behind a key. -/
theorem scanLoop_equals (w : Write) (key rest : List UInt8) :
    scanLoop junk boundary (Ascii.equals :: Ascii.quote :: rest)
        (.inPart multi j .s22 w key 0 nf p)
      = copyKey p.kv key >>= fun kv => scanLoop junk boundary rest
          (.inPart multi j .s23 .skip [] 0 (keyCode nf key) { p with kv := kv }) := by
  have hkey : scanLoop junk boundary (Ascii.equals :: Ascii.quote :: rest)
        (.inPart multi j .s22 w key 0 nf p)
      = copyKey p.kv key >>= fun kv => scanLoop junk boundary (Ascii.quote :: rest)
          (.inPart multi j .s235 .skip [] 0 (keyCode nf key) { p with kv := kv }) := by
    refine scanLoop_copy multi j nf p ?_ (by decide) (by decide)
    show (if cstr key = bytes "name" then
          (Scan.copyTemp (.inPart multi j .s22 .temp key 0 nf p) nameAt).map _ >>= _
        else if cstr key = bytes "filename" then
          (Scan.copyTemp (.inPart multi j .s22 .temp key 0 nf p) filenameAt).map _ >>= _
        else .ok _ >>= _) = _
    unfold copyKey keyCode
    by_cases hname : cstr key = bytes "name"
    · rw [if_pos hname, if_pos hname, if_pos hname, copyTemp_eq, hname]
      cases p.kv.strcpy nameAt (bytes "name") <;> rfl
    · rw [if_neg hname, if_neg hname, if_neg hname]
      by_cases hfilename : cstr key = bytes "filename"
      · rw [if_pos hfilename, if_pos hfilename, if_pos hfilename, copyTemp_eq, hfilename]
        cases p.kv.strcpy filenameAt (bytes "filename") <;> rfl
      · rw [if_neg hfilename, if_neg hfilename, if_neg hfilename]
        rfl
  rw [hkey]
  rfl

/-- The quote behind a value. -/
theorem scanLoop_quote (w : Write) (value rest : List UInt8) :
    scanLoop junk boundary (Ascii.quote :: rest) (.inPart multi j .s23 w value 0 nf p)
      = copyValue nf p.kv value >>= fun kv => scanLoop junk boundary rest
          (.inPart multi j .s24 .skip [] 0 nf { p with kv := kv }) := by
  refine scanLoop_copy multi j nf p ?_ (by decide) (by decide)
  show (if nf = 1 then
        Scan.copyTemp (.inPart multi j .s23 .temp value 0 nf p) (nameAt + kvKeySize) >>= _
      else if nf = 2 then
        Scan.copyTemp (.inPart multi j .s23 .temp value 0 nf p) (filenameAt + kvKeySize) >>= _
      else .ok _ >>= _) = _
  unfold copyValue
  by_cases hname : nf = 1
  · rw [if_pos hname, if_pos hname, copyTemp_eq]
    cases p.kv.strcpy (nameAt + kvKeySize) (cstr value) <;> rfl
  · rw [if_neg hname, if_neg hname]
    by_cases hfilename : nf = 2
    · rw [if_pos hfilename, if_pos hfilename, copyTemp_eq]
      cases p.kv.strcpy (filenameAt + kvKeySize) (cstr value) <;> rfl
    · rw [if_neg hfilename, if_neg hfilename]
      rfl

/-- Behind a value a semicolon is followed by the next field. -/
theorem scanLoop_more (temp rest : List UInt8) :
    scanLoop junk boundary (Ascii.semicolon :: rest) (.inPart multi j .s24 .skip temp 0 nf p)
      = scanLoop junk boundary rest (.inPart multi j .s22 .skip [] 0 nf p) := by
  cases rest <;> rfl

/-- A line end and two more bytes are passed in front of the data. -/
theorem scanLoop_blank (temp : List UInt8) (x y : UInt8) (rest : List UInt8) :
    scanLoop junk boundary (Ascii.cr :: Ascii.lf :: x :: y :: rest)
        (.inPart multi j .s24 .skip temp 0 nf p)
      = scanLoop junk boundary rest (.inPart multi j .s28 .skip [] 0 nf p) := rfl

end

section
variable (multi : Vector (Ptr Multipart) multiPartMaxNum) (n : ℤ) (nf : ℕ)

/-- The scanner on a delimiter line, with `temp` collected so far. -/
def Scan.onLine (w : Write) (temp : List UInt8) : Scan :=
  { state := .s11, write := w, temp := temp, k := 0, nameOrFilename := nf, mulNum := n,
    multi := multi }

variable (junk boundary) in
/-- Two dashes start a delimiter line; the second is read again. -/
theorem scanLoop_dashes (temp rest : List UInt8) :
    scanLoop junk boundary (Ascii.dash :: Ascii.dash :: rest)
        { Scan.atLine multi n nf with temp := temp }
      = scanLoop junk boundary (Ascii.dash :: rest) (.onLine multi (n + 1) nf .skip []) := rfl

/-- Two dashes on the line end the scan. -/
theorem scanLoop_closing (w : Write) (temp rest : List UInt8) :
    scanLoop junk boundary (Ascii.dash :: Ascii.dash :: rest) (.onLine multi n nf w temp)
      = .ok ⟨.s1, .skip, [], 0, nf, n - 1, multi⟩ := rfl

/-- A line that is not the boundary ends the scan. -/
theorem scanLoop_foreign {temp : List UInt8} (hother : cstr temp ≠ boundary) (w : Write)
    (rest : List UInt8) :
    scanLoop junk boundary (Ascii.cr :: Ascii.lf :: rest) (.onLine multi n nf w temp)
      = .ok ⟨.s90, .skip, temp, 0, nf, n, multi⟩ := by
  have hswitch : (Scan.onLine multi n nf w temp).switch boundary Ascii.cr (Ascii.lf :: rest)
      = .ok ⟨.s90, .skip, temp, 0, nf, n, multi⟩ := rfl
  rw [scanLoop, hswitch, ok_bind, if_pos ⟨rfl, hother⟩]

/-- A line that is the boundary opens a part, if the table has an entry for it. -/
theorem scanLoop_opening {temp : List UInt8} (hline : cstr temp = boundary) (w : Write)
    (rest : List UInt8) (k : ℕ) :
    scanLoop junk boundary (Ascii.cr :: Ascii.lf :: rest) (.onLine multi (k : ℕ) nf w temp)
      = if h : k < multiPartMaxNum then
          scanLoop junk boundary (Ascii.lf :: rest)
            (.inPart multi ⟨k, h⟩ .s20 .skip [] 0 nf ⟨(junk k).kv, [], (junk k).length⟩)
        else .error .read := by
  have hswitch : (Scan.onLine multi (k : ℕ) nf w temp).switch boundary Ascii.cr (Ascii.lf :: rest)
      = .ok ⟨.s90, .skip, temp, 0, nf, (k : ℕ), multi⟩ := rfl
  rw [scanLoop, hswitch, ok_bind, if_neg (fun h => h.2 hline), Scan.openPart, if_pos rfl]
  by_cases h : k < multiPartMaxNum
  · have hslot : Scan.slot ⟨.s90, .skip, temp, 0, nf, (k : ℕ), multi⟩ = .ok ⟨k, h⟩ :=
      slot_of_mulNum rfl
    have hset : Scan.setPart ⟨.s20, .skip, temp, 0, nf, (k : ℕ), multi⟩
        ⟨(junk k).kv, [], (junk k).length⟩ = .ok ⟨.s20, .skip, temp, 0, nf, (k : ℕ),
          multi.set k (.obj ⟨(junk k).kv, [], (junk k).length⟩)⟩ := by
      unfold Scan.setPart
      rw [slot_of_mulNum (j := ⟨k, h⟩) rfl, ok_bind]
    rw [hslot, ok_bind, hset, ok_bind, dif_pos h]
    rfl
  · have hslot : Scan.slot ⟨.s90, .skip, temp, 0, nf, (k : ℕ), multi⟩ = .error .read := by
      unfold Scan.slot
      rw [dif_neg (by simpa using h)]
    rw [hslot, dif_neg h]
    rfl

end

/-! ## The grammar of a body -/

/-- A delimiter line: from its first two dashes on, `line` is collected in front of `rest`. -/
def LineText (mem line rest : List UInt8) : Prop :=
  ∃ gap behind, Takes .s10 mem gap (Ascii.dash :: Ascii.dash :: behind) ∧
    Takes .s11 (Ascii.dash :: behind) line rest

/-- A value fits where the key in front of it sends it. -/
structure Fits (nf : ℕ) (value : List UInt8) : Prop where
  name : nf = 1 → nameAt + kvKeySize + (cstr value).length < kvSize
  filename : nf = 2 → filenameAt + kvKeySize + (cstr value).length < kvSize

/-- A field: a key up to `="` and a value up to the next quote. -/
def FieldText (nf : ℕ) (mem : List UInt8) (nf' : ℕ) (rest : List UInt8) : Prop :=
  ∃ key value behind, Takes .s22 mem key (Ascii.equals :: Ascii.quote :: behind) ∧
    Takes .s23 behind value (Ascii.quote :: rest) ∧ nf' = keyCode nf key ∧ Fits nf' value

/-- The fields of a header, up to the line end and the two bytes behind the last. -/
inductive FieldsText : ℕ → List UInt8 → ℕ → List UInt8 → Prop
  | last {nf nf' : ℕ} {mem gap behind rest : List UInt8} {x y : UInt8}
      (field : FieldText nf mem nf' behind)
      (blank : Takes .s24 behind gap (Ascii.cr :: Ascii.lf :: x :: y :: rest)) :
      FieldsText nf mem nf' rest
  | more {nf nf' nf'' : ℕ} {mem gap behind mem' rest : List UInt8}
      (field : FieldText nf mem nf' behind)
      (semicolon : Takes .s24 behind gap (Ascii.semicolon :: mem'))
      (fields : FieldsText nf' mem' nf'' rest) : FieldsText nf mem nf'' rest

/-- A header: a name up to the colon, a value up to the semicolon, and the fields. -/
def HeaderText (nf : ℕ) (mem : List UInt8) (nf' : ℕ) (rest : List UInt8) : Prop :=
  ∃ key value mem₁ mem₂, Takes .s20 mem key (Ascii.colon :: mem₁) ∧
    disAt + (cstr key).length < kvSize ∧ Takes .s21 mem₁ value (Ascii.semicolon :: mem₂) ∧
    disAt + kvKeySize + (cstr value).length < kvSize ∧ FieldsText nf mem₂ nf' rest

/-- How a scan ends. -/
inductive Exit : Type where
  /-- At two dashes on a delimiter line. -/
  | closed : Exit
  /-- At the end of a delimiter line that is not the boundary. -/
  | foreign : Exit

/-- The bodies the scanner gets through, with `n` parts in front of them. -/
inductive Body (boundary : List UInt8) : ℕ → ℕ → List UInt8 → Exit → Prop
  | closed {n nf : ℕ} {mem line tail : List UInt8}
      (delimiter : LineText mem line (Ascii.dash :: Ascii.dash :: tail)) :
      Body boundary n nf mem .closed
  | foreign {n nf : ℕ} {mem line tail : List UInt8}
      (delimiter : LineText mem line (Ascii.cr :: Ascii.lf :: tail))
      (other : cstr line ≠ boundary) : Body boundary n nf mem .foreign
  | part {n nf nf' : ℕ} {mem line head data tail : List UInt8} {e : Exit}
      (delimiter : LineText mem line (Ascii.cr :: Ascii.lf :: head))
      (same : cstr line = boundary) (room : n < multiPartMaxNum)
      (header : HeaderText nf (Ascii.lf :: head) nf' (data ++ Ascii.cr :: tail))
      (first : FirstAt (Delimited boundary) data (Ascii.cr :: tail))
      (size : data.length ≤ multiPartMax)
      (body : Body boundary (n + 1) nf' tail e) : Body boundary n nf mem e

/-! ## What is in the grammar is scanned -/

section
variable (junk boundary) (multi : Vector (Ptr Multipart) multiPartMaxNum)

theorem scanLoop_of_lineText {mem line rest : List UInt8} (h : LineText mem line rest) (n : ℤ)
    (nf : ℕ) :
    ∃ w, scanLoop junk boundary mem (.atLine multi n nf)
      = scanLoop junk boundary rest (.onLine multi (n + 1) nf w line) := by
  obtain ⟨gap, behind, hgap, hline⟩ := h
  obtain ⟨w, hlooks, hloop⟩ := scanLoop_of_takes junk boundary (s := .atLine multi n nf)
    ⟨List.cons_ne_nil _ _, fun _ => rfl⟩ rfl hgap
  obtain ⟨w', -, hloop'⟩ := scanLoop_of_takes junk boundary
    (s := .onLine multi (n + 1) nf .skip []) ⟨List.cons_ne_nil _ _, fun _ => rfl⟩ rfl hline
  obtain rfl : w = .skip := hlooks.skips (Or.inl rfl)
  exact ⟨w', hloop.trans ((scanLoop_dashes junk boundary multi n nf gap behind).trans hloop')⟩

variable (j : Fin multiPartMaxNum) (p : Multipart)

theorem Fits.copyValue {nf : ℕ} {value : List UInt8} (h : Fits nf value) (kv : Block kvSize) :
    ∃ kv', MultiPart.copyValue nf kv value = .ok kv' := by
  unfold MultiPart.copyValue
  by_cases hname : nf = 1
  · rw [if_pos hname]
    exact Block.strcpy_eq_ok (Nat.succ_le_of_lt (h.name hname))
  · rw [if_neg hname]
    by_cases hfilename : nf = 2
    · rw [if_pos hfilename]
      exact Block.strcpy_eq_ok (Nat.succ_le_of_lt (h.filename hfilename))
    · rw [if_neg hfilename]
      exact ⟨kv, rfl⟩

theorem exists_copyKey (kv : Block kvSize) (key : List UInt8) :
    ∃ kv', copyKey kv key = .ok kv' := by
  unfold copyKey
  split_ifs
  · exact Block.strcpy_eq_ok (by decide)
  · exact Block.strcpy_eq_ok (by decide)
  · exact ⟨kv, rfl⟩

theorem scanLoop_of_fieldText {nf nf' : ℕ} {mem rest : List UInt8}
    (h : FieldText nf mem nf' rest) :
    ∃ kv, scanLoop junk boundary mem (.inPart multi j .s22 .skip [] 0 nf p)
      = scanLoop junk boundary rest (.inPart multi j .s24 .skip [] 0 nf' { p with kv := kv }) := by
  obtain ⟨key, value, behind, hkey, hvalue, rfl, hfits⟩ := h
  obtain ⟨w, -, hloop⟩ := scanLoop_of_takes junk boundary
    (s := .inPart multi j .s22 .skip [] 0 nf p) ⟨List.cons_ne_nil _ _, fun _ => rfl⟩ rfl hkey
  obtain ⟨kv, hkv⟩ := exists_copyKey p.kv key
  obtain ⟨w', -, hloop'⟩ := scanLoop_of_takes junk boundary
    (s := .inPart multi j .s23 .skip [] 0 (keyCode nf key) { p with kv := kv })
    ⟨List.cons_ne_nil _ _, fun _ => rfl⟩ rfl hvalue
  obtain ⟨kv', hkv'⟩ := hfits.copyValue kv
  refine ⟨kv', hloop.trans ?_⟩
  refine (scanLoop_equals multi j nf p w key behind).trans ?_
  rw [hkv, ok_bind]
  refine hloop'.trans ?_
  refine (scanLoop_quote multi j (keyCode nf key) { p with kv := kv } w' value rest).trans ?_
  rw [hkv', ok_bind]

theorem scanLoop_of_fieldsText {nf nf' : ℕ} {mem rest : List UInt8}
    (h : FieldsText nf mem nf' rest) :
    ∃ kv, scanLoop junk boundary mem (.inPart multi j .s22 .skip [] 0 nf p)
      = scanLoop junk boundary rest (.inPart multi j .s28 .skip [] 0 nf' { p with kv := kv }) := by
  induction h generalizing p with
  | @last nf nf' mem gap behind rest x y field blank =>
      obtain ⟨kv, hfield⟩ := scanLoop_of_fieldText junk boundary multi j p field
      obtain ⟨w, hlooks, hblank⟩ := scanLoop_of_takes junk boundary
        (s := .inPart multi j .s24 .skip [] 0 nf' { p with kv := kv })
        ⟨List.cons_ne_nil _ _, fun _ => rfl⟩ rfl blank
      obtain rfl : w = .skip := hlooks.skips (Or.inr rfl)
      exact ⟨kv, hfield.trans (hblank.trans (scanLoop_blank multi j nf' _ gap x y rest))⟩
  | @more nf nf' nf'' mem gap behind mem' rest field semicolon fields ih =>
      obtain ⟨kv, hfield⟩ := scanLoop_of_fieldText junk boundary multi j p field
      obtain ⟨w, hlooks, hsemicolon⟩ := scanLoop_of_takes junk boundary
        (s := .inPart multi j .s24 .skip [] 0 nf' { p with kv := kv })
        ⟨List.cons_ne_nil _ _, fun _ => rfl⟩ rfl semicolon
      obtain rfl : w = .skip := hlooks.skips (Or.inr rfl)
      obtain ⟨kv', hfields⟩ := ih { p with kv := kv }
      exact ⟨kv', hfield.trans (hsemicolon.trans
        ((scanLoop_more multi j nf' _ gap mem').trans hfields))⟩

theorem scanLoop_of_headerText {nf nf' : ℕ} {mem rest : List UInt8}
    (h : HeaderText nf mem nf' rest) :
    ∃ kv, scanLoop junk boundary mem (.inPart multi j .s20 .skip [] 0 nf p)
      = scanLoop junk boundary rest (.inPart multi j .s28 .skip [] 0 nf' { p with kv := kv }) := by
  obtain ⟨key, value, mem₁, mem₂, hkey, hroom, hvalue, hroom', hfields⟩ := h
  obtain ⟨w, -, hloop⟩ := scanLoop_of_takes junk boundary
    (s := .inPart multi j .s20 .skip [] 0 nf p) ⟨List.cons_ne_nil _ _, fun _ => rfl⟩ rfl hkey
  obtain ⟨kv, hkv⟩ := Block.strcpy_eq_ok (b := p.kv) (Nat.succ_le_of_lt hroom)
  obtain ⟨w', -, hloop'⟩ := scanLoop_of_takes junk boundary
    (s := .inPart multi j .s21 .skip [] 0 nf { p with kv := kv })
    ⟨List.cons_ne_nil _ _, fun _ => rfl⟩ rfl hvalue
  obtain ⟨kv', hkv'⟩ := Block.strcpy_eq_ok (b := kv) (Nat.succ_le_of_lt hroom')
  obtain ⟨kv'', hrest⟩ := scanLoop_of_fieldsText junk boundary multi j { p with kv := kv' } hfields
  refine ⟨kv'', hloop.trans ?_⟩
  refine (scanLoop_colon multi j nf p w key mem₁).trans ?_
  rw [hkv, ok_bind]
  refine hloop'.trans ?_
  refine (scanLoop_semicolon multi j nf { p with kv := kv } w' value mem₂).trans ?_
  rw [hkv', ok_bind]
  exact hrest

end

/-! ## What is scanned is in the grammar -/

section
variable {multi : Vector (Ptr Multipart) multiPartMaxNum} {s' : Scan}

theorem exists_lineText {n : ℤ} {nf : ℕ} {mem : List UInt8}
    (h : scanLoop junk boundary mem (.atLine multi n nf) = .ok s') :
    ∃ w line rest, LineText mem line rest ∧
      ((∃ tail, rest = Ascii.cr :: Ascii.lf :: tail) ∨
        ∃ tail, rest = Ascii.dash :: Ascii.dash :: tail) ∧
      scanLoop junk boundary rest (.onLine multi (n + 1) nf w line) = .ok s' := by
  obtain ⟨w, gap, rest, hgap, hlooks, h⟩ := exists_takes (s := .atLine multi n nf)
    ⟨List.cons_ne_nil _ _, fun _ => rfl⟩ rfl h
  obtain rfl : w = .skip := hlooks.skips (Or.inl rfl)
  obtain ⟨marker, hmarker, behind, rfl⟩ := hgap.marked
  obtain rfl := List.mem_singleton.mp hmarker
  have hdashes := (scanLoop_dashes junk boundary multi n nf gap behind).symm.trans h
  obtain ⟨w', line, rest, hline, -, h⟩ := exists_takes (s := .onLine multi (n + 1) nf .skip [])
    ⟨List.cons_ne_nil _ _, fun _ => rfl⟩ rfl hdashes
  refine ⟨w', line, rest, ⟨gap, behind, hgap, hline⟩, ?_, h⟩
  obtain ⟨marker, hmarker, tail, rfl⟩ := hline.marked
  obtain rfl | hmarker := List.mem_cons.mp hmarker
  · exact Or.inl ⟨tail, rfl⟩
  · obtain rfl := List.mem_singleton.mp hmarker
    exact Or.inr ⟨tail, rfl⟩

variable {j : Fin multiPartMaxNum} {p : Multipart}

theorem fits_of_copyValue {nf : ℕ} {kv kv' : Block kvSize} {value : List UInt8}
    (h : copyValue nf kv value = .ok kv') : Fits nf value := by
  unfold copyValue at h
  constructor
  · intro hname
    rw [if_pos hname] at h
    exact Block.le_of_strcpy h
  · intro hfilename
    rw [if_neg (by omega), if_pos hfilename] at h
    exact Block.le_of_strcpy h

theorem exists_fieldText {nf : ℕ} {mem : List UInt8}
    (h : scanLoop junk boundary mem (.inPart multi j .s22 .skip [] 0 nf p) = .ok s') :
    ∃ nf' kv rest, FieldText nf mem nf' rest ∧ rest.length < mem.length ∧
      scanLoop junk boundary rest (.inPart multi j .s24 .skip [] 0 nf' { p with kv := kv })
        = .ok s' := by
  obtain ⟨w, key, rest, hkey, -, h⟩ := exists_takes (s := .inPart multi j .s22 .skip [] 0 nf p)
    ⟨List.cons_ne_nil _ _, fun _ => rfl⟩ rfl h
  obtain ⟨marker, hmarker, behind, rfl⟩ := hkey.marked
  obtain rfl := List.mem_singleton.mp hmarker
  have hequals := (scanLoop_equals multi j nf p w key behind).symm.trans h
  obtain ⟨kv, -, hequals⟩ := exists_of_bind hequals
  obtain ⟨w', value, rest, hvalue, -, h⟩ := exists_takes
    (s := .inPart multi j .s23 .skip [] 0 (keyCode nf key) { p with kv := kv })
    ⟨List.cons_ne_nil _ _, fun _ => rfl⟩ rfl hequals
  obtain ⟨marker, hmarker, rest, rfl⟩ := hvalue.marked
  obtain rfl := List.mem_singleton.mp hmarker
  have hquote :=
    (scanLoop_quote multi j (keyCode nf key) { p with kv := kv } w' value rest).symm.trans h
  obtain ⟨kv', hcopy, hquote⟩ := exists_of_bind hquote
  have hfield : FieldText nf mem (keyCode nf key) rest :=
    ⟨key, value, behind, hkey, hvalue, rfl, fits_of_copyValue hcopy⟩
  refine ⟨_, kv', rest, hfield, ?_, hquote⟩
  have hlen := hkey.length_le
  have hlen' := hvalue.length_le
  simp only [List.length_append, List.length_cons] at hlen hlen'
  omega

theorem exists_fieldsText {nf : ℕ} {mem : List UInt8}
    (h : scanLoop junk boundary mem (.inPart multi j .s22 .skip [] 0 nf p) = .ok s') :
    ∃ nf' kv rest, FieldsText nf mem nf' rest ∧ rest.length < mem.length ∧
      scanLoop junk boundary rest (.inPart multi j .s28 .skip [] 0 nf' { p with kv := kv })
        = .ok s' := by
  induction hlen : mem.length using Nat.strong_induction_on generalizing mem nf p with
  | _ len ih =>
      obtain ⟨nf₁, kv₁, behind, hfield, hshort, h⟩ := exists_fieldText h
      obtain ⟨w, gap, rest, hgap, hlooks, h⟩ := exists_takes
        (s := .inPart multi j .s24 .skip [] 0 nf₁ { p with kv := kv₁ })
        ⟨List.cons_ne_nil _ _, fun _ => rfl⟩ rfl h
      obtain rfl : w = .skip := hlooks.skips (Or.inr rfl)
      have hgaplen := hgap.length_le
      obtain ⟨marker, hmarker, rest, rfl⟩ := hgap.marked
      obtain rfl | hmarker := List.mem_cons.mp hmarker
      · have hmore := (scanLoop_more multi j nf₁ { p with kv := kv₁ } gap rest).symm.trans h
        rw [List.length_append] at hgaplen
        obtain ⟨nf', kv', rest', hfields, hshort', h'⟩ := ih rest.length (by omega) hmore rfl
        exact ⟨nf', kv', rest', .more hfield hgap hfields, by omega, h'⟩
      · obtain rfl := List.mem_singleton.mp hmarker
        match rest with
        | [] => cases h
        | [x] => cases h
        | x :: y :: rest =>
            simp only [List.length_append, List.length_cons] at hgaplen
            exact ⟨nf₁, kv₁, rest, .last hfield hgap, by omega, h⟩

theorem exists_headerText {nf : ℕ} {mem : List UInt8}
    (h : scanLoop junk boundary mem (.inPart multi j .s20 .skip [] 0 nf p) = .ok s') :
    ∃ nf' kv rest, HeaderText nf mem nf' rest ∧ rest.length < mem.length ∧
      scanLoop junk boundary rest (.inPart multi j .s28 .skip [] 0 nf' { p with kv := kv })
        = .ok s' := by
  obtain ⟨w, key, rest, hkey, -, h⟩ := exists_takes (s := .inPart multi j .s20 .skip [] 0 nf p)
    ⟨List.cons_ne_nil _ _, fun _ => rfl⟩ rfl h
  obtain ⟨marker, hmarker, behind, rfl⟩ := hkey.marked
  obtain rfl := List.mem_singleton.mp hmarker
  have hcolon := (scanLoop_colon multi j nf p w key behind).symm.trans h
  obtain ⟨kv, hcopy, hcolon⟩ := exists_of_bind hcolon
  obtain ⟨w', value, rest, hvalue, -, h⟩ := exists_takes
    (s := .inPart multi j .s21 .skip [] 0 nf { p with kv := kv })
    ⟨List.cons_ne_nil _ _, fun _ => rfl⟩ rfl hcolon
  obtain ⟨marker, hmarker, behind', rfl⟩ := hvalue.marked
  obtain rfl := List.mem_singleton.mp hmarker
  have hsemicolon :=
    (scanLoop_semicolon multi j nf { p with kv := kv } w' value behind').symm.trans h
  obtain ⟨kv', hcopy', hsemicolon⟩ := exists_of_bind hsemicolon
  obtain ⟨nf', kv'', rest, hfields, hshort, h⟩ := exists_fieldsText hsemicolon
  refine ⟨nf', kv'', rest, ⟨key, value, behind, behind', hkey, Block.le_of_strcpy hcopy, hvalue,
    Block.le_of_strcpy hcopy', hfields⟩, ?_, h⟩
  have hlen := hkey.length_le
  have hlen' := hvalue.length_le
  simp only [List.length_append, List.length_cons] at hlen hlen'
  omega

end

/-! ## The whole body -/

/-- What a scan that found `n` parts in the table leaves: the entries from `n` up to `k` are parts
with their length, the others are as they were, and the counter depends on the way out. -/
structure Scanned (multi : Vector (Ptr Multipart) multiPartMaxNum) (n : ℕ) (e : Exit) (k : ℕ)
    (s : Scan) : Prop where
  le : n ≤ k
  room : k ≤ multiPartMaxNum
  counter : s.mulNum = match e with | .closed => (k : ℤ) - 1 | .foreign => k
  parts : ∀ i, n ≤ i → i < k →
    ∃ p : Multipart, s.multi[i]? = some (.obj p) ∧ p.length = p.data.length
  others : ∀ i, i < n ∨ k ≤ i → s.multi[i]? = multi[i]?

theorem Scanned.of_succ {multi : Vector (Ptr Multipart) multiPartMaxNum} {n k : ℕ} {e : Exit}
    {s : Scan} {p : Multipart} (hn : n < multiPartMaxNum) (hp : p.length = p.data.length)
    (h : Scanned (multi.set n (.obj p)) (n + 1) e k s) : Scanned multi n e k s := by
  have hset : s.multi[n]? = some (.obj p) := by
    rw [h.others n (Or.inl (Nat.lt_succ_self n)), Vector.getElem?_set_self hn]
  refine ⟨Nat.le_of_succ_le h.le, h.room, h.counter, fun i hi hk => ?_, fun i hi => ?_⟩
  · obtain rfl | hlater := Nat.eq_or_lt_of_le hi
    · exact ⟨p, hset, hp⟩
    · exact h.parts i hlater hk
  · have hne : n ≠ i := by
      have := h.le
      omega
    rw [h.others i (by omega), Vector.getElem?_set_ne hn hne]

variable (junk) in
/-- A body of the grammar is scanned to its end. -/
theorem scanLoop_of_body (hb : IsText boundary) {n nf : ℕ} {mem : List UInt8} {e : Exit}
    (h : Body boundary n nf mem e) (hn : n ≤ multiPartMaxNum)
    (multi : Vector (Ptr Multipart) multiPartMaxNum) :
    ∃ s k, scanLoop junk boundary mem (.atLine multi (n - 1) nf) = .ok s ∧
      Scanned multi n e k s := by
  induction h generalizing multi with
  | @closed n nf mem line tail delimiter =>
      obtain ⟨w, hline⟩ := scanLoop_of_lineText junk boundary multi delimiter (n - 1) nf
      rw [sub_add_cancel] at hline
      exact ⟨_, n, hline.trans (scanLoop_closing multi n nf w line tail), le_rfl, hn, rfl,
        fun i hi hi' => absurd hi' (by omega), fun _ _ => rfl⟩
  | @foreign n nf mem line tail delimiter other =>
      obtain ⟨w, hline⟩ := scanLoop_of_lineText junk boundary multi delimiter (n - 1) nf
      rw [sub_add_cancel] at hline
      exact ⟨_, n, hline.trans (scanLoop_foreign multi n nf other w tail), le_rfl, hn, rfl,
        fun i hi hi' => absurd hi' (by omega), fun _ _ => rfl⟩
  | @part n nf nf' mem line head data tail e delimiter same room header first size body ih =>
      obtain ⟨w, hline⟩ := scanLoop_of_lineText junk boundary multi delimiter (n - 1) nf
      rw [sub_add_cancel, scanLoop_opening multi nf same w head n, dif_pos room] at hline
      obtain ⟨kv, hheader⟩ := scanLoop_of_headerText junk boundary multi ⟨n, room⟩
        ⟨(junk n).kv, [], (junk n).length⟩ header
      obtain ⟨w', hdata⟩ := scanLoop_data junk multi ⟨n, room⟩ nf' ⟨kv, [], (junk n).length⟩ hb
        first (Nat.zero_le _) .skip
      rw [List.length_nil, Nat.zero_add, if_pos size, List.nil_append] at hdata
      have hclose := scanLoop_delimited junk multi ⟨n, room⟩ nf'
        ⟨kv, data, (junk n).length⟩ hb first.here w' data.length
      obtain ⟨s, k, hs, hscanned⟩ := ih (by omega) (multi.set n (.obj ⟨kv, data, data.length⟩))
      rw [Nat.cast_add, Nat.cast_one, add_sub_cancel_right] at hs
      refine ⟨s, k, ?_, ?_⟩
      · rw [hline, hheader, hdata, hclose]
        exact hs
      · exact hscanned.of_succ room rfl

theorem LineText.length_le {mem line rest : List UInt8} (h : LineText mem line rest) :
    rest.length ≤ mem.length := by
  obtain ⟨gap, behind, hgap, hline⟩ := h
  have hlen := hgap.length_le
  have hlen' := hline.length_le
  simp only [List.length_cons] at hlen hlen'
  omega

/-- A scan that comes to its end out of the data of a part has found the delimiter. -/
theorem exists_data (hb : IsText boundary) {multi : Vector (Ptr Multipart) multiPartMaxNum}
    {j : Fin multiPartMaxNum} {nf : ℕ} {kv : Block kvSize} {len : ℤ} {mem : List UInt8} {s' : Scan}
    (h : scanLoop junk boundary mem (.inPart multi j .s28 .skip [] 0 nf ⟨kv, [], len⟩) = .ok s') :
    ∃ data tail, mem = data ++ Ascii.cr :: tail ∧
      FirstAt (Delimited boundary) data (Ascii.cr :: tail) ∧ data.length ≤ multiPartMax ∧
      scanLoop junk boundary tail
        (.atLine (multi.set j (.obj ⟨kv, data, data.length⟩) j.isLt) (j : ℕ) nf) = .ok s' := by
  by_cases hdelimited : ∃ back, back <:+ mem ∧ Delimited boundary back
  · obtain ⟨back, hsuffix, hback⟩ := hdelimited
    obtain ⟨data, rest, rfl, hfirst⟩ := exists_firstAt hsuffix hback
    obtain ⟨w, hdata⟩ := scanLoop_data junk multi j nf ⟨kv, [], len⟩ hb hfirst (Nat.zero_le _) .skip
    rw [List.length_nil, Nat.zero_add, h] at hdata
    by_cases size : data.length ≤ multiPartMax
    · rw [if_pos size, scanLoop_delimited junk multi j nf _ hb hfirst.here,
        List.nil_append] at hdata
      obtain ⟨tail, rfl⟩ := hfirst.here.1
      exact ⟨data, Ascii.lf :: tail, rfl, hfirst, size, hdata.symm⟩
    · rw [if_neg size] at hdata
      cases hdata
  · push Not at hdelimited
    exact absurd h (scanLoop_of_undelimited multi j nf ⟨kv, [], len⟩ hb hdelimited .skip s')

/-- A body that is scanned to its end is in the grammar. -/
theorem exists_body (hb : IsText boundary) {n nf : ℕ} {mem : List UInt8} {s' : Scan}
    {multi : Vector (Ptr Multipart) multiPartMaxNum}
    (h : scanLoop junk boundary mem (.atLine multi (n - 1) nf) = .ok s') :
    ∃ e, Body boundary n nf mem e := by
  induction hlen : mem.length using Nat.strong_induction_on generalizing mem n nf multi with
  | _ len ih =>
      obtain ⟨w, line, rest, hline, ⟨tail, rfl⟩ | ⟨tail, rfl⟩, h⟩ := exists_lineText h
      · by_cases same : cstr line = boundary
        · rw [sub_add_cancel, scanLoop_opening multi nf same w tail n] at h
          split at h
          case isFalse => cases h
          case isTrue room =>
            obtain ⟨nf', kv, rest, hheader, hshort, h⟩ := exists_headerText h
            obtain ⟨data, tail', rfl, first, size, h⟩ := exists_data hb h
            have hlinelen := hline.length_le
            simp only [List.length_append, List.length_cons] at hlinelen hshort
            have hcounter : (n : ℤ) = ((n + 1 : ℕ) : ℤ) - 1 := by
              rw [Nat.cast_add, Nat.cast_one, add_sub_cancel_right]
            have hnext : scanLoop junk boundary tail' (.atLine
                (multi.set n (.obj ⟨kv, data, data.length⟩)) (((n + 1 : ℕ) : ℤ) - 1) nf')
                  = .ok s' := by
              rw [← hcounter]
              exact h
            obtain ⟨e, hbody⟩ := ih tail'.length (by omega) hnext rfl
            exact ⟨e, .part hline same room hheader first size hbody⟩
        · exact ⟨.foreign, .foreign hline same⟩
      · exact ⟨.closed, .closed hline⟩

end MultiPart
