/-
# Where a reading ends

A reading of a memory is a reading of every longer memory (`HeadText.append`), and one
that closes the head has read nothing of a tail without delimiters
(`HeadText.of_append_closed`).  The loop of the parser goes with it: a run in a memory is
a run in every longer one (`reqParseLoop_append`), so that a parse that is left has read
what the grammar says (`exists_headText_of_ok`).

Nothing behind the head is copied to the heap, so that where blocks may be full a parse
comes to a fault exactly at a token without room for its NUL.
-/
import DmfServer.RequestScan

open CMem Ascii

/-! ## Readings in longer memories -/

/-- The ending with more memory behind it. -/
def Ending.append (e : Ending) (t : List UInt8) : Ending :=
  match e with
  | .closed p rest => .closed p (rest ++ t)
  | e => e

theorem HeadText.append {part : HeadPart} {data : List UInt8} {toks : List Tok} {e : Ending}
    (h : HeadText part data toks e) (t : List UInt8) :
    HeadText part (data ++ t) toks (e.append t) := by
  -- every rule names what is read and leaves the rest open, so the same rule applies
  induction h with
  | methodNil => exact .methodNil
  | methodBad hc hstart hs =>
      rw [List.cons_append, List.append_assoc]
      exact .methodBad hc hstart hs
  | methodCut hc hs =>
      rw [List.cons_append, List.append_assoc]
      exact .methodCut hc hs
  | method hc hs _ ih =>
      rw [List.cons_append, List.append_assoc]
      exact .method hc hs ih
  | pathNil => exact .pathNil
  | pathBad hc hslash hs =>
      rw [List.cons_append, List.append_assoc]
      exact .pathBad hc hslash hs
  | pathCut hs hq =>
      rw [List.cons_append, List.append_assoc]
      exact .pathCut hs hq
  | pathSpace hs hq _ ih =>
      rw [List.cons_append, List.append_assoc]
      exact .pathSpace hs hq ih
  | pathQuery hs hq _ ih =>
      rw [List.cons_append, List.append_assoc]
      exact .pathQuery hs hq ih
  | keyCut hk =>
      rw [List.append_assoc]
      exact .keyCut hk
  | keyBad hk hne hs =>
      rw [List.append_assoc, List.cons_append, List.append_assoc]
      exact .keyBad hk hne hs
  | key hk _ ih =>
      rw [List.append_assoc]
      exact .key hk ih
  | valueCut hv ha =>
      rw [List.append_assoc]
      exact .valueCut hv ha
  | valueAmp hv ha _ ih =>
      rw [List.append_assoc]
      exact .valueAmp hv ha ih
  | valueSpace hv ha _ ih =>
      rw [List.append_assoc]
      exact .valueSpace hv ha ih
  | protocolCut hp =>
      rw [List.append_assoc]
      exact .protocolCut hp
  | protocol hp _ ih =>
      rw [List.append_assoc]
      exact .protocol hp ih
  | versionCut hv =>
      rw [List.append_assoc]
      exact .versionCut hv
  | version hv _ ih =>
      rw [List.append_assoc]
      exact .version hv ih
  | nameCut hj =>
      rw [List.append_assoc]
      exact .nameCut hj
  | nameColon hj =>
      rw [List.append_assoc]
      exact .nameColon hj
  | name hj hx _ ih =>
      rw [List.append_assoc]
      exact .name hj hx ih
  | nameEnd hj =>
      rw [List.append_assoc]
      exact .nameEnd hj
  | fieldCut hv =>
      rw [List.append_assoc]
      exact .fieldCut hv
  | field hv _ ih =>
      rw [List.append_assoc]
      exact .field hv ih

/-- A head that is not closed is ended by a NUL. -/
theorem HeadText.zero_mem {part : HeadPart} {data : List UInt8} {toks : List Tok} {e : Ending}
    (h : HeadText part data toks e) (he : ∀ p rest, e ≠ .closed p rest) : (0 : UInt8) ∈ data := by
  induction h with
  | nameEnd hj => exact absurd rfl (he _ _)
  | method _ _ _ ih | pathSpace _ _ _ ih | pathQuery _ _ _ ih | key _ _ ih | valueAmp _ _ _ ih
  | valueSpace _ _ _ ih | protocol _ _ ih | version _ _ ih | name _ _ _ ih | field _ _ ih =>
      have hrest := ih he
      simp [hrest]
  | _ => simp

/-- A delimiter that the tail does not have stands before the tail. -/
theorem exists_of_append_eq {data t l rest : List UInt8} {d : UInt8}
    (h : data ++ t = l ++ d :: rest) (hd : d ∉ t) :
    ∃ data', data = l ++ d :: data' ∧ rest = data' ++ t := by
  rcases List.append_eq_append_iff.mp h with ⟨a, -, ht⟩ | ⟨a, hdata, ha⟩
  · exact absurd (ht ▸ List.mem_append_right a List.mem_cons_self) hd
  · cases a with
    | nil =>
        rw [List.nil_append] at ha
        exact absurd (ha ▸ List.mem_cons_self) hd
    | cons x a =>
        obtain ⟨rfl, rfl⟩ := List.cons.inj ha
        exact ⟨a, hdata, rfl⟩

/-- A reading that closes the head reads nothing of a tail in which no delimiter stands. -/
theorem HeadText.of_append_closed {part : HeadPart} {data t p r : List UInt8} {toks : List Tok}
    (h : HeadText part (data ++ t) toks (.closed p r)) (ht : ∀ c ∈ t, c = 0 ∨ c = 1) :
    ∃ r', r = r' ++ t ∧ HeadText part data toks (.closed p r') := by
  have hno : ∀ {t : List UInt8} {d : UInt8}, (∀ c ∈ t, c = 0 ∨ c = 1) → d ≠ 0 → d ≠ 1 → d ∉ t :=
    fun ht h0 h1 hd => (ht _ hd).elim h0 h1
  generalize hd : data ++ t = d at h
  generalize he : Ending.closed p r = e at h
  induction h generalizing data t with
  | @method c s rest ts e hc hs _ ih =>
      obtain ⟨data', rfl, rfl⟩ := exists_of_append_eq (l := c :: s) hd
        (hno ht (by decide) (by decide))
      obtain ⟨r', hr', hread⟩ := ih ht rfl he
      exact ⟨r', hr', .method hc hs hread⟩
  | @pathSpace s rest ts e hs hq _ ih =>
      obtain ⟨data', rfl, rfl⟩ := exists_of_append_eq (l := slash :: s) hd
        (hno ht (by decide) (by decide))
      obtain ⟨r', hr', hread⟩ := ih ht rfl he
      exact ⟨r', hr', .pathSpace hs hq hread⟩
  | @pathQuery s rest ts e hs hq _ ih =>
      obtain ⟨data', rfl, rfl⟩ := exists_of_append_eq (l := slash :: s) hd
        (hno ht (by decide) (by decide))
      obtain ⟨r', hr', hread⟩ := ih ht rfl he
      exact ⟨r', hr', .pathQuery hs hq hread⟩
  | key hk _ ih =>
      obtain ⟨data', rfl, rfl⟩ := exists_of_append_eq hd (hno ht (by decide) (by decide))
      obtain ⟨r', hr', hread⟩ := ih ht rfl he
      exact ⟨r', hr', .key hk hread⟩
  | valueAmp hv ha _ ih =>
      obtain ⟨data', rfl, rfl⟩ := exists_of_append_eq hd (hno ht (by decide) (by decide))
      obtain ⟨r', hr', hread⟩ := ih ht rfl he
      exact ⟨r', hr', .valueAmp hv ha hread⟩
  | valueSpace hv ha _ ih =>
      obtain ⟨data', rfl, rfl⟩ := exists_of_append_eq hd (hno ht (by decide) (by decide))
      obtain ⟨r', hr', hread⟩ := ih ht rfl he
      exact ⟨r', hr', .valueSpace hv ha hread⟩
  | protocol hp _ ih =>
      obtain ⟨data', rfl, rfl⟩ := exists_of_append_eq hd (hno ht (by decide) (by decide))
      obtain ⟨r', hr', hread⟩ := ih ht rfl he
      exact ⟨r', hr', .protocol hp hread⟩
  | version hv _ ih =>
      obtain ⟨data', rfl, hlf⟩ := exists_of_append_eq hd (hno ht (by decide) (by decide))
      obtain ⟨data'', rfl, rfl⟩ := exists_of_append_eq (l := []) hlf.symm
        (hno ht (by decide) (by decide))
      obtain ⟨r', hr', hread⟩ := ih ht rfl he
      exact ⟨r', hr', .version hv hread⟩
  | field hv _ ih =>
      obtain ⟨data', rfl, hlf⟩ := exists_of_append_eq hd (hno ht (by decide) (by decide))
      obtain ⟨data'', rfl, rfl⟩ := exists_of_append_eq (l := []) hlf.symm
        (hno ht (by decide) (by decide))
      obtain ⟨r', hr', hread⟩ := ih ht rfl he
      exact ⟨r', hr', .field hv hread⟩
  | @name j x rest ts e hj hx _ ih =>
      obtain ⟨data', rfl, hrest⟩ := exists_of_append_eq hd (hno ht (by decide) (by decide))
      cases data' with
      | nil =>
          -- the field would have to be read in the tail
          have hmem : ∀ c ∈ rest, c = 0 ∨ c = 1 := fun c hc =>
            ht c (by rw [← List.nil_append t, ← hrest]; exact List.mem_cons_of_mem _ hc)
          obtain ⟨r', -, hread⟩ : ∃ r', r = r' ++ rest ∧ HeadText .field [] ts (.closed p r') :=
            ih hmem rfl he
          exact absurd rfl hread.ne_nil
      | cons y data' =>
          obtain ⟨rfl, rfl⟩ := List.cons.inj hrest
          obtain ⟨r', hr', hread⟩ := ih ht rfl he
          exact ⟨r', hr', .name hj hx hread⟩
  | nameEnd hj =>
      obtain ⟨data', rfl, hlf⟩ := exists_of_append_eq hd (hno ht (by decide) (by decide))
      obtain ⟨data'', rfl, rfl⟩ := exists_of_append_eq (l := []) hlf.symm
        (hno ht (by decide) (by decide))
      obtain ⟨rfl, rfl⟩ := Ending.closed.inj he
      exact ⟨lf :: data'', rfl, .nameEnd hj⟩
  | _ => cases he

/-- The head is closed at a `\n`. -/
theorem HeadText.exists_closed {part : HeadPart} {data p rest : List UInt8} {toks : List Tok}
    (h : HeadText part data toks (.closed p rest)) : ∃ r, rest = lf :: r := by
  generalize he : Ending.closed p rest = e at h
  induction h with
  | @nameEnd j r hj =>
      obtain ⟨-, rfl⟩ := Ending.closed.inj he
      exact ⟨r, rfl⟩
  | method _ _ _ ih | pathSpace _ _ _ ih | pathQuery _ _ _ ih | key _ _ ih | valueAmp _ _ _ ih
  | valueSpace _ _ _ ih | protocol _ _ ih | version _ _ ih | name _ _ _ ih | field _ _ ih =>
      exact ih he
  | _ => cases he

/-! ## Runs in longer memories -/

theorem peek_append {rest : List UInt8} {d : UInt8} (h : peek rest = .ok d) (t : List UInt8) :
    peek (rest ++ t) = .ok d := by
  cases rest with
  | nil => cases h
  | cons c rest => exact h

theorem pairAt_append {a b c : UInt8} {rest : List UInt8} {r : Bool}
    (h : pairAt a b c rest = .ok r) (t : List UInt8) : pairAt a b c (rest ++ t) = .ok r := by
  unfold pairAt at h ⊢
  split at h
  · next hc =>
    rw [if_pos hc]
    cases hp : peek rest with
    | error e =>
        rw [hp] at h
        cases h
    | ok d =>
        rw [hp] at h
        rw [peek_append hp]
        exact h
  · next hc =>
    rw [if_neg hc]
    exact h

theorem copyBody_append {request request' : Request} {p : List UInt8}
    (h : copyBody request p = .ok request') (t : List UInt8) :
    copyBody request (p ++ t) = .ok request' := by
  unfold copyBody at h ⊢
  cases hcls : hashmapGet request.params (bytes "Content-Length") with
  | none =>
      rw [hcls] at h
      exact h
  | some cls =>
      rw [hcls] at h
      simp only at h ⊢
      by_cases hmax : atoi cls ≤ httpBodyMax
      · rw [if_pos hmax] at h ⊢
        by_cases hneg : atoi cls < 0
        · rw [if_pos hneg] at h
          cases h
        · rw [if_neg hneg] at h ⊢
          by_cases hlen : p.length < (atoi cls).toNat
          · rw [if_pos hlen] at h
            cases h
          · rw [if_neg hlen] at h
            rw [if_neg (by rw [List.length_append]; omega),
              List.take_append_of_le_length (by omega)]
            exact h
      · rw [if_neg hmax] at h ⊢
        exact h

section
variable {junk : ℕ → PartJunk} {last : HttpParseState} {spare : SpareByte}

/-- A round that does not run out of the memory reads nothing behind it. -/
theorem switch_append {m m' : Parser} {c : UInt8} {rest : List UInt8}
    (h : m.switch junk c rest spare = .ok m') (t : List UInt8) :
    m.switch junk c (rest ++ t) spare = .ok m' := by
  unfold Parser.switch at h ⊢
  cases hst : m.state <;> rw [hst] at h <;> simp only at h ⊢
  case queryStart =>
      by_cases hc : c = equals
      · rw [if_pos hc] at h ⊢
        obtain ⟨key, hkey, h⟩ := exists_of_bind h
        obtain ⟨copy, hcopy, h⟩ := exists_of_bind h
        obtain ⟨d, hd, h⟩ := exists_of_bind h
        rw [hkey, ok_bind, hcopy, ok_bind, peek_append hd]
        exact h
      · rw [if_neg hc] at h ⊢
        obtain ⟨d, hd, h⟩ := exists_of_bind h
        rw [peek_append hd]
        exact h
  case pvTemp =>
      obtain ⟨r, hr, h⟩ := exists_of_bind h
      rw [pairAt_append hr]
      exact h
  case param1 =>
      by_cases hc : c = colon
      · rw [if_pos hc] at h ⊢
        exact h
      · rw [if_neg hc] at h ⊢
        obtain ⟨r, hr, h⟩ := exists_of_bind h
        rw [pairAt_append hr]
        exact h
  case param3 =>
      obtain ⟨r, hr, h⟩ := exists_of_bind h
      rw [pairAt_append hr]
      exact h
  case body =>
      obtain ⟨request, hcopy, h⟩ := exists_of_bind h
      have happ := copyBody_append hcopy t
      rw [List.cons_append] at happ
      rw [happ]
      exact h
  all_goals exact h

/-- A run that does not run out of the memory is a run in every longer memory. -/
theorem reqParseLoop_append {data : List UInt8} {m : Parser} {halt : Halt}
    (h : reqParseLoop junk last data m spare = .ok halt) (t : List UInt8) :
    reqParseLoop junk last (data ++ t) m spare = .ok { halt with rest := halt.rest ++ t } := by
  induction data generalizing m with
  | nil => cases h
  | cons c rest ih =>
      rw [List.cons_append]
      by_cases hc : c = 0
      · subst hc
        rw [reqParseLoop_zero] at h ⊢
        cases h
        rfl
      · rw [reqParseLoop_cons hc] at h ⊢
        obtain ⟨m₂, hround, h⟩ := exists_of_bind h
        obtain ⟨m₁, hswitch, hstore⟩ := exists_of_bind hround
        have hround' : m.round junk c (rest ++ t) spare = .ok m₂ := by
          rw [Parser.round, switch_append hswitch]
          exact hstore
        rw [hround', ok_bind]
        unfold afterRound at h ⊢
        by_cases hm : m₂.state = last
        · rw [if_pos hm] at h ⊢
          cases h
          rfl
        · rw [if_neg hm] at h ⊢
          exact ih h

/-- A run is left by `break`, or at a NUL. -/
theorem zero_mem_of_not_broke {data : List UInt8} {m : Parser} {halt : Halt}
    (h : reqParseLoop junk last data m spare = .ok halt) (hbroke : halt.broke = false) :
    (0 : UInt8) ∈ data := by
  induction data generalizing m with
  | nil => cases h
  | cons c rest ih =>
      by_cases hc : c = 0
      · rw [hc]
        exact List.mem_cons_self
      · rw [reqParseLoop_cons hc] at h
        obtain ⟨m₂, -, h⟩ := exists_of_bind h
        unfold afterRound at h
        by_cases hm : m₂.state = last
        · rw [if_pos hm] at h
          cases h
          cases hbroke
        · rw [if_neg hm] at h
          exact List.mem_cons_of_mem c (ih h)

/-- A reading that does not close the head is left at its NUL. -/
theorem not_broke_of_not_closed {e : Ending} (he : ∀ p rest, e ≠ .closed p rest) {f : Filled}
    {broke : Bool} {request : Request} (h : e.finish junk last spare f = .ok (broke, request)) :
    broke = false ∧ request = f.request := by
  cases e with
  | closed p rest => exact absurd rfl (he p rest)
  | cut s | bad s =>
      obtain ⟨_, -, h⟩ := exists_of_bind h
      cases h
      exact ⟨rfl, rfl⟩

/-- A run of the parser that is left has a reading: at a NUL every memory has one, and a
head that is closed in a longer memory is closed in the memory that was read. -/
theorem exists_headText_of_ok {data : List UInt8} {request request' : Request}
    (h : reqParseHttp junk request data spare = .ok request') :
    ∃ toks e, HeadText .method data toks e := by
  by_cases hzero : (0 : UInt8) ∈ data
  · exact exists_headText .method data hzero
  cases hloop : reqParseLoop junk .start data (Parser.start request) spare with
  | error e =>
      rw [reqParseHttp, hloop] at h
      cases h
  | ok halt =>
      obtain ⟨toks, e, hread⟩ := exists_headText .method (data ++ [0]) (by simp)
      by_cases hclosed : ∃ p rest, e = .closed p rest
      · obtain ⟨p, rest, rfl⟩ := hclosed
        obtain ⟨r, -, hread⟩ := hread.of_append_closed (by simp)
        exact ⟨toks, _, hread⟩
      · -- the run in the longer memory is left by the same `break`, not at the NUL
        have hrun : seen (reqParseLoop junk .start (data ++ [0])
            (Parser.at .method (Parser.start request).toFilled) spare) = _ :=
          seen_reqParseLoop (Or.inl rfl) hread _
        have hlong : reqParseLoop junk .start (data ++ [0])
            (Parser.at .method (Parser.start request).toFilled) spare
              = .ok { halt with rest := halt.rest ++ [0] } :=
          reqParseLoop_append hloop [0]
        rw [hlong] at hrun
        obtain ⟨f, -, hfinish⟩ := exists_of_bind hrun.symm
        have hbroke := (not_broke_of_not_closed (fun p rest he => hclosed ⟨p, rest, he⟩)
          hfinish).1
        exact absurd (zero_mem_of_not_broke hloop hbroke) hzero

/-! ## Copies on the heap -/

/-- Behind the tokens nothing is copied. -/
theorem HeadText.finish_spare {data : List UInt8} {toks : List Tok} {e : Ending}
    (h : HeadText .method data toks e) :
    e.finish junk .start spare = e.finish junk .start ample := by
  funext f
  cases e with
  | cut s | bad s => rfl
  | closed p rest =>
      obtain ⟨r, rfl⟩ := h.exists_closed
      rw [finish_closed, finish_closed]

/-- A parse whose copies have room is the parse where every block has. -/
theorem reqParseHttp_of_hasRoom {request : Request} {data : List UInt8} {toks : List Tok}
    {e : Ending} (h : HeadText .method data toks e) (hroom : ∀ t ∈ toks, t.HasRoom spare) :
    reqParseHttp junk request data spare = reqParseHttp junk request data := by
  rw [reqParseHttp_eq h, reqParseHttp_eq h, Filled.putAll_of_hasRoom hroom,
    h.finish_spare]

/-- A parse without a fault has made its copies in blocks that have room. -/
theorem hasRoom_of_reqParseHttp {request request' : Request} {data : List UInt8} {toks : List Tok}
    {e : Ending} (h : HeadText .method data toks e)
    (hrun : reqParseHttp junk request data spare = .ok request') :
    ∀ t ∈ toks, t.HasRoom spare := by
  rw [reqParseHttp_eq h] at hrun
  obtain ⟨_, hrun, -⟩ := exists_of_map hrun
  obtain ⟨f, hput, -⟩ := exists_of_bind hrun
  exact Filled.hasRoom_of_putAll hput

end
