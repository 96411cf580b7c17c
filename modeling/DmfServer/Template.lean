/-
# The template renderer

`parse_context` walks the template byte by byte and writes the page to `result`: the
literal text, the value behind every `[#name#]`, and for every `[@name@inner@]` what a
callback or a list of items makes of the inner text.  Four buffers live for the whole
walk: `temp` collects the text of a block, `block_str` takes its inner text,
`parsed_str` what it is rendered to, and `result` the page.

Only the first 64 bytes of `temp` are cleared behind a block, and `parse_dec` appends
to `parsed_str`, which nothing clears.
-/
import DmfServer.Block

open CMem

/-- `TEMPLATE_RESULT_SIZE`. -/
def templateResultSize : ℕ := 4096

/-- `DEC_NUM`. -/
def decNum : ℕ := 20

/-- The size of `temp`, `block_str` and `parsed_str`. -/
def scratchSize : ℕ := 1024

/-- `struct Kvmap`. -/
structure Kvmap where
  /-- 1: a variable, 2: a function, 3: a list. -/
  type : ℤ
  key : List UInt8
  value : List UInt8
  /-- The texts in `dec` in front of the first `NULL`. -/
  dec : List (List UInt8)
  /-- The string `Func` writes for the inner text. -/
  func : List UInt8 → List UInt8

namespace Template

/-- `[`, `]`, `#` and `@`. -/
abbrev opening : UInt8 := 91
@[inherit_doc opening] abbrev closing : UInt8 := 93
@[inherit_doc opening] abbrev hash : UInt8 := 35
@[inherit_doc opening] abbrev atSign : UInt8 := 64

/-- The placeholder in a list block. -/
def item : List UInt8 := bytes "\x7b\x7bitem\x7d\x7d"

/-- The states of the walk. -/
inductive State : Type where
  /-- 0: the literal text. -/
  | s0 : State
  /-- -1: the `#` that opens a variable. -/
  | sNeg1 : State
  /-- -11: the `@` that opens a block. -/
  | sNeg11 : State
  /-- 1: the name of a variable. -/
  | s1 : State
  /-- 2: the name and the inner text of a block. -/
  | s2 : State
  /-- -2: the closing bracket. -/
  | sNeg2 : State
  deriving DecidableEq, Repr

/-- The local variables of `parse_context`. -/
structure Scan where
  state : State
  writeTemp : Bool
  temp : Block scratchSize
  tempPos : ℕ
  writeRes : Bool
  resPos : ℕ
  blockStr : Block scratchSize
  parsedStr : Block scratchSize
  result : Block templateResultSize
  deriving DecidableEq

/-- The locals as the function starts. -/
def Scan.start : Scan :=
  { state := .s0, writeTemp := false, temp := Block.zero _, tempPos := 0, writeRes := true
    resPos := 0, blockStr := Block.zero _, parsedStr := Block.zero _, result := Block.zero _ }

end Template

/-- `parse_dec`: `inner` and `tt` behind the call. -/
def parseDec (tt : Block scratchSize) (dec : List (List UInt8))
    (inner : Block scratchSize) :
    Except Fault (Block scratchSize × Block scratchSize) := do
  let text ← inner.readStr 0
  match strstr text Template.item with
  | none => .error .null -- `*start = '\0'` through NULL
  | some start => do
      let inner ← inner.poke (text.length - start.length) [0]
      let other ← (Block.zero scratchSize).strcpy 0 (start.drop 8)
      let before ← inner.readStr 0
      let after ← other.readStr 0
      let tt ← dec.foldlM (fun tt item => do
        let tt ← tt.strcat 0 before
        let tt ← tt.strcat 0 item
        tt.strcat 0 after) tt
      -- `dec[20]` is behind the array
      if dec.length < decNum then .ok (tt, inner) else .error .read

namespace Template

/-- `strcat(result, text); res_pos = res_pos + strlen(text)`. -/
def Scan.cat (s : Scan) (text : List UInt8) : Except Fault Scan := do
  let result ← s.result.strcat 0 text
  .ok { s with result := result, resPos := s.resPos + text.length }

/-- What an entry of `kv` makes of a variable whose name is in `temp`. -/
def Scan.variable (s : Scan) (kv : Kvmap) : Except Fault Scan := do
  let same ← strcmpZero kv.key s.temp.bytes
  if same ∧ kv.type = 1 then s.cat kv.value else .ok s

/-- What an entry of `kv` makes of a block whose name is in `temp`. -/
def Scan.block (s : Scan) (kv : Kvmap) : Except Fault Scan := do
  let same ← strcmpZero kv.key s.temp.bytes
  let s ←
    if same ∧ kv.type = 2 then do
      let inner ← s.blockStr.readStr 0
      let parsed ← s.parsedStr.strcpy 0 (kv.func inner)
      let s ← s.cat (parsed.str 0)
      .ok { s with parsedStr := parsed, blockStr := Block.zero _ }
    else .ok s
  if same ∧ kv.type = 3 then do
    let (parsed, _) ← parseDec s.parsedStr kv.dec s.blockStr
    let s ← s.cat (parsed.str 0)
    .ok { s with parsedStr := parsed, blockStr := Block.zero _ }
  else .ok s

/-- `for(int num=0; num<=kv_num; num++)`. -/
def eachEntry (kv : List Kvmap) (kvNum : ℤ) (act : Scan → Kvmap → Except Fault Scan)
    (s : Scan) : Except Fault Scan :=
  (List.range (kvNum + 1).toNat).foldlM (fun s num => arrayAt kv num >>= act s) s

/-- The `switch` on the state: `c` is `*p` and `d` is `*pp`. -/
def Scan.switch (kv : List Kvmap) (kvNum : ℤ) (s : Scan) (c d : UInt8) : Except Fault Scan :=
  match s.state with
  | .s0 =>
      let s := { s with writeRes := true }
      let s := if c = opening ∧ d = hash then { s with writeRes := false, state := .sNeg1 } else s
      .ok (if c = opening ∧ d = atSign then { s with writeRes := false, state := .sNeg11 } else s)
  | .sNeg1 => .ok { s with state := .s1 }
  | .sNeg11 => .ok { s with state := .s2 }
  | .s1 =>
      let s := { s with writeTemp := true }
      if c = hash ∧ d = closing then do
        let s ← eachEntry kv kvNum Scan.variable { s with writeTemp := false }
        .ok { s with state := .sNeg2 }
      else .ok s
  | .s2 =>
      let s := { s with writeTemp := true }
      if c = atSign ∧ d = closing then do
        let text ← s.temp.readStr 0
        match strstr text [atSign] with
        | none => .error .null -- `strcpy(block_str, start + 1)` from behind NULL
        | some start => do
            let blockStr ← s.blockStr.strcpy 0 (start.drop 1)
            let temp ← s.temp.poke (text.length - start.length) [0]
            let s ← eachEntry kv kvNum Scan.block
              { s with writeTemp := false, blockStr := blockStr, temp := temp }
            .ok { s with state := .sNeg2 }
      else .ok s
  | .sNeg2 => .ok { s with state := .s0 }

/-- The byte goes to `temp`, or `temp` is cleared where it starts. -/
def Scan.storeTemp (s : Scan) (c : UInt8) : Except Fault Scan :=
  if s.writeTemp then do
    let temp ← s.temp.poke s.tempPos [c]
    .ok { s with temp := temp, tempPos := s.tempPos + 1 }
  else if s.tempPos ≠ 0 then do
    let temp ← s.temp.poke 0 (List.replicate 64 0)
    .ok { s with temp := temp, tempPos := 0 }
  else .ok s

/-- The byte goes to `result`. -/
def Scan.storeResult (s : Scan) (c : UInt8) : Except Fault Scan :=
  if s.writeRes then do
    let result ← s.result.poke s.resPos [c]
    .ok { s with result := result, resPos := s.resPos + 1 }
  else .ok s

/-- One round of the loop. -/
def Scan.step (kv : List Kvmap) (kvNum : ℤ) (s : Scan) (c d : UInt8) : Except Fault Scan := do
  let s ← s.switch kv kvNum c d
  let s ← s.storeTemp c
  s.storeResult c

/-- The loop of `parse_context` over the memory from `p` on. -/
def parseLoop (kv : List Kvmap) (kvNum : ℤ) : List UInt8 → Scan → Except Fault Scan
  | [], _ => .error .read
  | c :: rest, s =>
      if c = 0 then .ok s
      else do
        let d ← peek rest
        let s ← s.step kv kvNum c d
        parseLoop kv kvNum rest s

end Template

/-- `parse_context`, for the text of the template: the page. -/
def parseContext (context : List UInt8) (kv : List Kvmap) (kvNum : ℤ) :
    Except Fault (List UInt8) := do
  let s ← Template.parseLoop kv kvNum (context ++ [0]) .start
  let result ← s.result.poke (s.resPos + 1) [0]
  result.readStr 0
