/-
# The message of a log record

`log_info` and its siblings format what they are given into a buffer, and hand the buffer
to `log_write` as a format, without arguments: `log_write` formats it again.  So the
record holds the text of the first formatting exactly if that has no `%` in what fits the
buffer (`message_eq_iff`).  The path of a request is in the text as the client wrote it
(`message_not_once`).

How `vsnprintf` walks a format is a definition here; how a conversion prints its arguments
is a parameter.  To take an argument that was not passed is undefined, and a fault.
-/
import DmfServer.CMemory

open CMem

/-! ## `vsnprintf` -/

/-- `%`. -/
def percent : UInt8 := 37

/-- The characters between a `%` and the conversion it introduces: flags, digits, a point,
`*` and the length of the argument. -/
def isModifier (c : UInt8) : Bool := c ∈ bytes "-+ #0123456789.*hlLjzt"

section
variable {Arg : Type} (convert : List UInt8 → List Arg → List UInt8)

/-- The text of a format with its arguments.  `spec` is what has been read behind a `%`,
when the walk is behind one; every `*` in it takes an argument of its own. -/
def formatted (spec : Option (List UInt8)) : List UInt8 → List Arg → Except Fault (List UInt8)
  | [], _ =>
      match spec with
      | none => .ok []
      | some _ => .error .read
  | c :: format, args =>
      match spec with
      | none =>
          if c = percent then formatted (some []) format args
          else (formatted none format args).map (c :: ·)
      | some spec =>
          if isModifier c then formatted (some (spec ++ [c])) format args
          else if c = percent ∧ spec = [] then (formatted none format args).map (percent :: ·)
          else
            let taken := spec.count 42 + 1
            if args.length < taken then .error .read
            else (formatted none format (args.drop taken)).map
              (convert (spec ++ [c]) (args.take taken) ++ ·)

/-- The string `vsnprintf` leaves in a buffer of `size` bytes. -/
def vsnprintf (size : ℕ) (format : List UInt8) (args : List Arg) : Except Fault (List UInt8) :=
  (formatted convert none format args).map fun text => cstr (text.take (size - 1))

/-! ## The functions of the log -/

/-- `log_record_t`, with the strings in it as bytes. -/
structure LogLine where
  level : ℤ
  message : List UInt8
  filename : List UInt8
  line : ℤ
  deriving DecidableEq

/-- `log_write`, the record it stores. -/
def logWrite (level : ℤ) (filename : List UInt8) (line : ℤ) (format : List UInt8)
    (args : List Arg) : Except Fault LogLine := do
  let message ← vsnprintf convert 1024 format args
  if filename.length < 256 then
    .ok { level := level, message := message, filename := filename, line := line }
  else .error .write

/-- What `log_info`, `log_debug`, `log_warn` and `log_error` do. -/
def logAt (level : ℤ) (filename : List UInt8) (line : ℤ) (format : List UInt8)
    (args : List Arg) : Except Fault LogLine := do
  let message ← vsnprintf convert 1024 format args
  logWrite convert level filename line message []

/-- `log_info`. -/
def logInfo := logAt convert 0

/-- `log_debug`. -/
def logDebug := logAt convert 1

/-- `log_warn`. -/
def logWarn := logAt convert 2

/-- `log_error`. -/
def logError := logAt convert 3

/-! ## Formatting without arguments -/

/-- A format without a `%` is its own text. -/
theorem formatted_eq_self {format : List UInt8} (h : percent ∉ format) (args : List Arg) :
    formatted convert none format args = .ok format := by
  induction format with
  | nil => rfl
  | cons c format ih =>
      rw [List.mem_cons, not_or] at h
      obtain ⟨hc, hrest⟩ := h
      rw [formatted, if_neg (Ne.symm hc), ih hrest]
      rfl

/-- Without arguments nothing but what is in the format comes out, and behind a `%` one
byte less. -/
theorem length_formatted_le {format text : List UInt8} {spec : Option (List UInt8)}
    (h : formatted convert spec format [] = .ok text) :
    text.length ≤ format.length ∧
      (spec = none → percent ∈ format → text.length < format.length) := by
  induction format generalizing spec text with
  | nil =>
      cases spec with
      | none =>
          rw [formatted, Except.ok.injEq] at h
          subst h
          exact ⟨le_rfl, by simp⟩
      | some spec =>
          rw [formatted] at h
          cases h
  | cons c format ih =>
      cases spec with
      | none =>
          rw [formatted] at h
          by_cases hc : c = percent
          · rw [if_pos hc] at h
            obtain ⟨hle, -⟩ := ih h
            rw [List.length_cons]
            exact ⟨Nat.le_succ_of_le hle, fun _ _ => Nat.lt_succ_of_le hle⟩
          · rw [if_neg hc] at h
            obtain ⟨rest, hrest, rfl⟩ := exists_of_map h
            obtain ⟨hle, hlt⟩ := ih hrest
            rw [List.length_cons, List.length_cons]
            refine ⟨Nat.succ_le_succ hle, fun _ hmem => Nat.succ_lt_succ (hlt rfl ?_)⟩
            exact (List.mem_cons.mp hmem).resolve_left (Ne.symm hc)
      | some spec =>
          rw [formatted] at h
          refine ⟨?_, by simp⟩
          split at h
          · exact Nat.le_succ_of_le (ih h).1
          · split at h
            · obtain ⟨rest, hrest, rfl⟩ := exists_of_map h
              exact Nat.succ_le_succ (ih hrest).1
            · -- a conversion wants an argument, and there is none
              rw [if_pos (by simp)] at h
              cases h

theorem length_cstr_le (s : List UInt8) : (cstr s).length ≤ s.length :=
  (List.takeWhile_sublist _).length_le

/-- The four functions differ in the level. -/
theorem exists_logAt {log : List UInt8 → ℤ → List UInt8 → List Arg → Except Fault LogLine}
    (hlog : log ∈ [logInfo convert, logDebug convert, logWarn convert, logError convert]) :
    ∃ level, log = logAt convert level := by
  simp only [List.mem_cons, List.not_mem_nil, or_false] at hlog
  rcases hlog with rfl | rfl | rfl | rfl
  · exact ⟨0, rfl⟩
  · exact ⟨1, rfl⟩
  · exact ⟨2, rfl⟩
  · exact ⟨3, rfl⟩

/-- The record holds the first 1023 bytes of the text exactly if there is no `%`, and no
NUL, among them. -/
theorem message_eq_iff {log : List UInt8 → ℤ → List UInt8 → List Arg → Except Fault LogLine}
    (hlog : log ∈ [logInfo convert, logDebug convert, logWarn convert, logError convert])
    {filename : List UInt8} (hfile : filename.length < 256) (line : ℤ) {format : List UInt8}
    {args : List Arg} {text : List UInt8} (htext : formatted convert none format args = .ok text) :
    (∃ record, log filename line format args = .ok record ∧ record.message = text.take 1023) ↔
      percent ∉ text.take 1023 ∧ IsText (text.take 1023) := by
  obtain ⟨level, rfl⟩ := exists_logAt convert hlog
  have hlen : (text.take 1023).length ≤ 1023 := List.length_take_le _ _
  generalize hcut : text.take 1023 = first at hlen ⊢
  have hlogged : logAt convert level filename line format args =
      (formatted convert none (cstr first) []).map fun again =>
        { level := level, message := cstr (again.take 1023), filename := filename
          line := line } := by
    unfold logAt logWrite vsnprintf
    rw [htext, ok_map, ok_bind, hcut]
    cases formatted convert none (cstr first) [] with
    | error e => rfl
    | ok again => simp [hfile]
  rw [hlogged]
  constructor
  · rintro ⟨record, hrecord, hmessage⟩
    obtain ⟨again, hagain, rfl⟩ := exists_of_map hrecord
    dsimp only at hmessage
    -- every pass can only lose bytes, so none has lost any
    have h₁ : (cstr (again.take 1023)).length ≤ again.length :=
      (length_cstr_le _).trans (List.length_take_le' _ _)
    obtain ⟨h₂, hlt⟩ := length_formatted_le convert hagain
    have h₃ := length_cstr_le first
    rw [hmessage] at h₁
    have hprefix : cstr first <+: first := List.takeWhile_prefix _
    have hfirst : cstr first = first := hprefix.eq_of_length (by omega)
    rw [hfirst] at hlt h₂
    refine ⟨fun hmem => ?_, ?_⟩
    · have := hlt rfl hmem
      omega
    · rw [← hfirst]
      exact isText_cstr first
  · rintro ⟨hpercent, hzero⟩
    rw [hzero.cstr_eq, formatted_eq_self convert hpercent]
    refine ⟨_, rfl, ?_⟩
    dsimp only
    rw [List.take_of_length_le hlen, hzero.cstr_eq]

/-! ## Printing a text again

`log_write` gets no arguments, so what it can print has no conversion: every `%` is followed
by another. -/

/-- A text without a conversion. -/
inductive Prints : List UInt8 → Prop where
  | nil : Prints []
  | plain {c : UInt8} {s : List UInt8} : c ≠ percent → Prints s → Prints (c :: s)
  | pair {s : List UInt8} : Prints s → Prints (percent :: percent :: s)

theorem prints_cons_iff {c : UInt8} {s : List UInt8} (hc : c ≠ percent) :
    Prints (c :: s) ↔ Prints s := by
  constructor
  · intro h
    cases h with
    | plain _ hs => exact hs
    | pair _ => exact absurd rfl hc
  · exact Prints.plain hc

theorem prints_percent_iff {s : List UInt8} :
    Prints (percent :: s) ↔ ∃ rest, s = percent :: rest ∧ Prints rest := by
  constructor
  · intro h
    cases h with
    | plain hne _ => exact absurd rfl hne
    | pair hs => exact ⟨_, rfl, hs⟩
  · rintro ⟨rest, rfl, hrest⟩
    exact Prints.pair hrest

/-- Nothing comes of a conversion in what stands before it. -/
theorem prints_append_iff {s t : List UInt8} (hs : percent ∉ s) : Prints (s ++ t) ↔ Prints t := by
  induction s with
  | nil => rfl
  | cons c s ih =>
      rw [List.mem_cons, not_or] at hs
      rw [List.cons_append, prints_cons_iff (Ne.symm hs.1), ih hs.2]

theorem prints_of_notMem {s : List UInt8} (hs : percent ∉ s) : Prints s := by
  have h := (prints_append_iff (t := []) hs).mpr .nil
  rwa [List.append_nil] at h

/-- Nor in what stands behind it. -/
theorem prints_append_of_notMem {t : List UInt8} (ht : percent ∉ t) :
    ∀ s : List UInt8, Prints (s ++ t) ↔ Prints s
  | [] => iff_of_true (prints_of_notMem ht) .nil
  | c :: s => by
      by_cases hc : c = percent
      · subst hc
        rw [List.cons_append, prints_percent_iff, prints_percent_iff]
        cases s with
        | nil =>
            constructor
            · rintro ⟨rest, rfl, -⟩
              exact absurd List.mem_cons_self ht
            · rintro ⟨rest, hrest, -⟩
              cases hrest
        | cons d s =>
            have ih := prints_append_of_notMem ht s
            constructor
            · rintro ⟨rest, hrest, hprints⟩
              obtain ⟨rfl, rfl⟩ := List.cons_eq_cons.mp hrest
              exact ⟨s, rfl, ih.mp hprints⟩
            · rintro ⟨rest, hrest, hprints⟩
              obtain ⟨rfl, rfl⟩ := List.cons_eq_cons.mp hrest
              exact ⟨s ++ t, rfl, ih.mpr hprints⟩
      · rw [List.cons_append, prints_cons_iff hc, prints_cons_iff hc,
          prints_append_of_notMem ht s]

/-- Behind a `%` and a modifier nothing can be printed without an argument. -/
theorem formatted_modified {spec : List UInt8} (hspec : spec ≠ []) (format : List UInt8) :
    formatted convert (some spec) format [] = .error .read := by
  induction format generalizing spec with
  | nil => rfl
  | cons c format ih =>
      rw [formatted]
      split
      · exact ih (by simp)
      · split
        · next h => exact absurd h.2 hspec
        · exact if_pos (by simp)

/-- Without arguments a format is printed exactly if there is no conversion in it. -/
theorem formatted_ok_iff (format : List UInt8) :
    ((∃ text, formatted convert none format [] = .ok text) ↔ Prints format) ∧
      ((∃ text, formatted convert (some []) format [] = .ok text) ↔
        Prints (percent :: format)) := by
  induction format with
  | nil =>
      refine ⟨iff_of_true ⟨[], rfl⟩ .nil, iff_of_false ?_ ?_⟩
      · rintro ⟨text, htext⟩
        cases htext
      · rw [prints_percent_iff]
        rintro ⟨rest, hrest, -⟩
        cases hrest
  | cons c format ih =>
      have hmap : ∀ d : UInt8,
          (∃ text, (formatted convert none format []).map (d :: ·) = .ok text) ↔
            Prints format := by
        intro d
        rw [← ih.1]
        constructor
        · rintro ⟨text, htext⟩
          obtain ⟨rest, hrest, -⟩ := exists_of_map htext
          exact ⟨rest, hrest⟩
        · rintro ⟨text, htext⟩
          exact ⟨d :: text, by rw [htext]; rfl⟩
      by_cases hc : c = percent
      · -- a `%` opens a conversion, and the next one makes it a `%` that is printed
        subst hc
        constructor
        · rw [formatted, if_pos rfl, ih.2]
        · have hmodifier : isModifier percent = false := by decide
          rw [formatted, hmodifier, if_neg (by decide), if_pos ⟨rfl, rfl⟩, hmap,
            prints_percent_iff]
          constructor
          · exact fun h => ⟨format, rfl, h⟩
          · rintro ⟨rest, hrest, hprints⟩
            obtain ⟨-, rfl⟩ := List.cons_eq_cons.mp hrest
            exact hprints
      · constructor
        · rw [formatted, if_neg hc, hmap, prints_cons_iff hc]
        · -- anything else behind a `%` takes an argument in the end, and there is none
          refine iff_of_false ?_ ?_
          · rintro ⟨text, htext⟩
            rw [formatted] at htext
            split at htext
            · rw [formatted_modified convert (by simp)] at htext
              cases htext
            · rw [if_neg (fun h => hc h.1), if_pos (by simp)] at htext
              cases htext
          · rw [prints_percent_iff]
            rintro ⟨rest, hrest, -⟩
            exact hc (List.cons_eq_cons.mp hrest).1

end

/-! ## The line of a request -/

/-- An argument of `%s` or `%d`. -/
inductive PrintArg : Type where
  | str (s : List UInt8)
  | int (n : ℤ)

/-- `%s` and `%d` of such an argument. -/
def printArgs (_spec : List UInt8) (args : List PrintArg) : List UInt8 :=
  args.flatMap fun
    | .str s => s
    | .int n => (if n < 0 then [45] else []) ++
        (Nat.toDigits 10 n.natAbs).map fun digit => UInt8.ofNat digit.toNat

/-- The format `epoll_handle` logs a request with. -/
def requestFormat : List UInt8 := bytes "[%s][Server: Info] %s %d id: %d\n"

/-- The arguments it logs a request for `path` with. -/
def requestArgs (path : String) : List PrintArg :=
  [.str (bytes "2023-05-01 12:00:00"), .str (bytes path), .int 84, .int 4711]

/-- The text of the line. -/
def requestLine (path : String) : List UInt8 :=
  bytes "[2023-05-01 12:00:00][Server: Info] " ++ bytes path ++ bytes " 84 id: 4711\n"

/-- A path without `%` is logged as it is. -/
theorem message_eq_iff_cart :
    (∃ record, logInfo printArgs (bytes "SERVER") 506 requestFormat (requestArgs "/cart")
      = .ok record ∧ record.message = (requestLine "/cart").take 1023) ↔
      percent ∉ (requestLine "/cart").take 1023 ∧ IsText ((requestLine "/cart").take 1023) :=
  message_eq_iff printArgs List.mem_cons_self (by decide) 506 (by decide)

/-- A path with an encoded space is not: `%20b` wants an argument. -/
theorem message_not_once : ¬ ∃ record,
    logInfo printArgs (bytes "SERVER") 506 requestFormat (requestArgs "/a%20b") = .ok record ∧
      record.message = (requestLine "/a%20b").take 1023 := by
  have hfault : logInfo printArgs (bytes "SERVER") 506 requestFormat (requestArgs "/a%20b")
      = .error .read := by decide
  rintro ⟨record, hrecord, -⟩
  rw [hfault] at hrecord
  cases hrecord

/-- `epoll_handle`, the line it logs between the parser and the router: the time, the path, the
`strlen` of what it has received, and the number of the process. -/
def logRequest (time path resStr : List UInt8) (pid : ℤ) : Except Fault LogLine :=
  if 0 ∈ resStr then
    logInfo printArgs (bytes "SERVER") 506 requestFormat
      [.str time, .str path, .int (cstr resStr).length, .int pid]
  else .error .read

/-- A number is printed without a `%`. -/
theorem notMem_printArgs_int (spec : List UInt8) (n : ℤ) :
    percent ∉ printArgs spec [.int n] := by
  rw [printArgs, List.flatMap_singleton, List.mem_append, not_or]
  constructor
  · split
    · decide
    · exact List.not_mem_nil
  · intro hmem
    obtain ⟨digit, hdigit, hc⟩ := List.mem_map.mp hmem
    have hrange := Nat.isDigit_of_mem_toDigits (by decide) (by decide) hdigit
    simp only [Char.isDigit, Bool.and_eq_true, decide_eq_true_eq, UInt32.le_iff_toNat_le]
      at hrange
    have hlow : 48 ≤ digit.toNat := hrange.1
    have hhigh : digit.toNat ≤ 57 := hrange.2
    have hval := congrArg UInt8.toNat hc
    rw [UInt8.toNat_ofNat', Nat.mod_eq_of_lt (by omega)] at hval
    have hpercent : percent.toNat = 37 := rfl
    omega

/-- The text of such a line. -/
theorem formatted_requestFormat (time path : List UInt8) (len pid : ℤ) :
    ∃ back, percent ∉ back ∧
      formatted printArgs none requestFormat [.str time, .str path, .int len, .int pid]
        = .ok (bytes "[" ++ time ++ bytes "][Server: Info] " ++ path ++ back) := by
  refine ⟨bytes " " ++ printArgs (bytes "d") [.int len] ++ bytes " id: " ++
    printArgs (bytes "d") [.int pid] ++ bytes "\n", ?_, ?_⟩
  · have hparts : percent ∉ bytes " " ∧ percent ∉ bytes " id: " ∧ percent ∉ bytes "\n" := by decide
    simp only [List.mem_append, not_or]
    exact ⟨⟨⟨⟨hparts.1, notMem_printArgs_int _ len⟩, hparts.2.1⟩, notMem_printArgs_int _ pid⟩,
      hparts.2.2⟩
  · have hstr : ∀ spec s, printArgs spec [.str s] = s := fun spec s => List.append_nil s
    have hrun : formatted printArgs none requestFormat [.str time, .str path, .int len, .int pid]
        = .ok (bytes "[" ++ (printArgs (bytes "s") [.str time] ++ (bytes "][Server: Info] " ++
          (printArgs (bytes "s") [.str path] ++ (bytes " " ++ (printArgs (bytes "d") [.int len] ++
            (bytes " id: " ++ (printArgs (bytes "d") [.int pid] ++ bytes "\n")))))))) := rfl
    rw [hrun, hstr, hstr]
    simp only [List.append_assoc]

/-- The line is logged exactly if there is no conversion in the path, and a NUL in what was
received. -/
theorem logRequest_ok_iff {time path : List UInt8} (htime : percent ∉ time) (hzero : IsText time)
    (hlen : time.length < 30) (hpath : IsText path) (hroom : path.length < 512)
    (resStr : List UInt8) (pid : ℤ) :
    (∃ line, logRequest time path resStr pid = .ok line) ↔ Prints path ∧ 0 ∈ resStr := by
  unfold logRequest
  by_cases hmem : 0 ∈ resStr
  · rw [if_pos hmem, and_iff_left hmem]
    obtain ⟨back, hback, htext⟩ := formatted_requestFormat time path (cstr resStr).length pid
    have hfront : percent ∉ bytes "[" ++ time ++ bytes "][Server: Info] " ∧
        IsText (bytes "[" ++ time ++ bytes "][Server: Info] ") := by
      have hparts : percent ∉ bytes "[" ∧ percent ∉ bytes "][Server: Info] " ∧
          IsText (bytes "[") ∧ IsText (bytes "][Server: Info] ") := by decide
      simp only [List.mem_append, not_or, isText_append]
      exact ⟨⟨⟨hparts.1, htime⟩, hparts.2.1⟩, ⟨hparts.2.2.1, hzero⟩, hparts.2.2.2⟩
    have hshort : (bytes "[" ++ time ++ bytes "][Server: Info] " ++ path).length ≤ 1023 := by
      have hparts : (bytes "[").length = 1 ∧ (bytes "][Server: Info] ").length = 16 := by decide
      simp only [List.length_append, hparts]
      omega
    generalize bytes "[" ++ time ++ bytes "][Server: Info] " = front at htext hfront hshort
    obtain ⟨rest, hrest, hmessage⟩ : ∃ rest, percent ∉ rest ∧
        cstr ((front ++ path ++ back).take (1024 - 1)) = front ++ (path ++ rest) := by
      refine ⟨cstr (back.take (1023 - (front ++ path).length)), ?_, ?_⟩
      · intro h
        exact hback (List.mem_of_mem_take ((List.takeWhile_sublist _).mem h))
      · rw [List.take_append, List.take_of_length_le hshort,
          cstr_append (isText_append.mpr ⟨hfront.2, hpath⟩), List.append_assoc]
    have hlogged : logInfo printArgs (bytes "SERVER") 506 requestFormat
        [.str time, .str path, .int (cstr resStr).length, .int pid]
        = (formatted printArgs none (front ++ (path ++ rest)) []).map fun again =>
          { level := 0, message := cstr (again.take 1023), filename := bytes "SERVER"
            line := 506 } := by
      unfold logInfo logAt logWrite vsnprintf
      rw [htext, ok_map, ok_bind, hmessage]
      cases formatted printArgs none (front ++ (path ++ rest)) [] with
      | error e => rfl
      | ok again => rfl
    rw [hlogged, ← prints_append_of_notMem hrest, ← prints_append_iff hfront.1,
      ← (formatted_ok_iff printArgs _).1]
    constructor
    · rintro ⟨line, hline⟩
      obtain ⟨again, hagain, -⟩ := exists_of_map hline
      exact ⟨again, hagain⟩
    · rintro ⟨again, hagain⟩
      exact ⟨_, by rw [hagain]; rfl⟩
  · rw [if_neg hmem]
    refine iff_of_false ?_ (fun h => hmem h.2)
    rintro ⟨line, hline⟩
    cases hline
