/-
# The request parser

`req_parse_http` is one loop over the bytes of `data` up to the first NUL: a
`switch` on the parse state, then the `write` flag either appends the byte to the
scratch string `temp` or clears it.  `reqParseLoop` is that loop over the memory
from `p` on; `data` is all the memory a read may touch, so a read behind its last
byte is a fault.

`temp` is its first `i` bytes.  The names and values hung into the maps are copies of it
on the heap, each in a block of `malloc(strlen(temp))` bytes: its NUL is written behind
what was asked for, and stays inside of the block where the allocator gives a byte more
(`SpareByte`).  A parse that says nothing of the allocator is one with such blocks.
-/
import DmfServer.MultiPart

open CMem

/-- `HTTP_PARSE_STATE`. -/
inductive HttpParseState : Type where
  | invalid
  /-- Also the number 1 the loop stops at. -/
  | start
  | method
  | pathStart
  | path
  | queryStart
  | query
  | queryTemp
  | pvStart
  | pvTemp
  | pv
  | paramStart
  | param1
  | param2
  | param3
  | bodyStart
  | body
  deriving DecidableEq, Repr

/-- The size of `temp`. -/
def tempSize : ℕ := 512

/-- What the parse has filled in: the request, and the nodes under construction. -/
structure Filled where
  /-- The key of the node `query_tmp` points to, `none` for `NULL`. -/
  queryTmp : Option (List UInt8)
  /-- The key of the node `params_tmp` points to. -/
  paramsTmp : Option (List UInt8)
  request : Request

/-- The local variables of `req_parse_http` and the request it fills. -/
structure Parser extends Filled where
  state : HttpParseState
  write : Bool
  /-- `temp[0..i)`; behind it `temp` is zero. -/
  temp : List UInt8

namespace Parser

/-- The locals as the loop starts; the table of parts is emptied. -/
def start (request : Request) : Parser :=
  { state := .start, write := false, temp := [], queryTmp := none, paramsTmp := none
    request := { request with multiPartNum := -1, multi := Vector.replicate _ .null } }

/-- The C string in `temp`: it has no end once all of `temp` is written. -/
def token (m : Parser) : Except Fault (List UInt8) :=
  if m.temp.length < tempSize then .ok m.temp else .error .read

/-- `strcpy(request->..., temp)`, at the offset of the field. -/
def copyTemp (m : Parser) (off : ℕ) : Except Fault Parser := do
  let temp ← m.token
  let text ← m.request.text.strcpy off temp
  .ok { m with request := { m.request with text := text } }

/-- The value of `query_tmp` is set to a copy of `temp` and the node inserted. -/
def insertQuery (m : Parser) (spare : SpareByte := ample) : Except Fault Parser := do
  let value ← m.token
  match m.queryTmp with
  | none => .error .null
  | some key =>
      let value ← mallocCopy spare value
      .ok { m with request :=
        { m.request with query := hashmapInsert m.request.query ⟨key, value⟩ } }

/-- The value of `params_tmp` is set to a copy of `temp` and the node inserted. -/
def insertParams (m : Parser) (spare : SpareByte := ample) : Except Fault Parser := do
  let value ← m.token
  match m.paramsTmp with
  | none => .error .null
  | some key =>
      let value ← mallocCopy spare value
      .ok { m with request :=
        { m.request with params := hashmapInsert m.request.params ⟨key, value⟩ } }

end Parser

/-! ## The body -/

/-- The part of `PARSE_BODY` that copies `Content-Length` bytes from `p`. -/
def copyBody (request : Request) (p : List UInt8) : Except Fault Request :=
  match hashmapGet request.params (bytes "Content-Length") with
  | some cls =>
      let len := atoi cls
      if len ≤ httpBodyMax then
        if len < 0 then .error .size
        else if p.length < len.toNat then .error .read
        else .ok { request with
          bodyLength := len.toNat, body := .obj (p.take len.toNat ++ [0]) }
      else .ok request -- "too big"
  | none => .ok request

/-- `boundary[64]` as `PARSE_BODY` fills it from the `Content-Type`. -/
def boundaryOf (cts : List UInt8) : Except Fault (List UInt8) :=
  match strstr cts (bytes "boundary=") with
  | none => .error .null
  | some b =>
      let text := b.drop 9
      if 64 < text.length then .error .write
      else if text.length = 64 then .error .read -- no NUL is left in `boundary`
      else .ok text

/-- The part of `PARSE_BODY` that scans a multipart body. -/
def scanBody (junk : ℕ → PartJunk) (request : Request) : Except Fault Request :=
  match hashmapGet request.params (bytes "Content-Type") with
  | some cts =>
      if (strstr cts (bytes "multipart/form-data")).isSome then do
        let boundary ← boundaryOf cts
        reqParseMultiPart junk request boundary
      else .ok request
  | none => .ok request

/-! ## The loop -/

namespace Parser

/-- The `switch` on the state: `c` is `*p`, `rest` the memory behind it. -/
def switch (junk : ℕ → PartJunk) (m : Parser) (c : UInt8) (rest : List UInt8)
    (spare : SpareByte := ample) : Except Fault Parser :=
  match m.state with
  | .start =>
      if c = 71 ∨ c = 80 then .ok { m with write := true, state := .method } -- 'G', 'P'
      else .ok { m with state := .invalid }
  | .method =>
      if c = Ascii.space then
        copyTemp { m with write := false, state := .pathStart } methodAt
      else .ok m
  | .pathStart =>
      if c = Ascii.slash then .ok { m with write := true, state := .path }
      else .ok { m with state := .invalid }
  | .path =>
      if c = Ascii.question then
        copyTemp { m with write := false, state := .queryStart } pathAt
      else if c = Ascii.space then
        copyTemp { m with write := false, state := .pvStart } pathAt
      else .ok m
  | .queryStart => do
      let m := { m with write := true }
      if c = Ascii.equals then
        let key ← m.token
        let key ← mallocCopy spare key
        let _ ← peek rest -- `*(p+1)` is read here too, though `flag` is 0
        .ok { m with write := false, queryTmp := some key, state := .queryTemp }
      else if (← peek rest) = Ascii.space then .ok { m with state := .invalid }
      else .ok m
  | .queryTemp =>
      let m := { m with write := true }
      if c = Ascii.amp then insertQuery { m with write := false, state := .queryStart } spare
      else if c = Ascii.space then insertQuery { m with write := false, state := .pvStart } spare
      else .ok m
  | .pvStart =>
      let m := { m with write := true }
      if c = Ascii.slash then
        copyTemp { m with write := false, state := .pvTemp } protocolAt
      else .ok m
  | .pvTemp => do
      let m := { m with write := true }
      if ← pairAt Ascii.cr Ascii.lf c rest then
        copyTemp { m with write := false, state := .paramStart } versionAt
      else .ok m
  | .paramStart => .ok { m with state := .param1 }
  | .param1 => do
      let m := if Ascii.isUpper c then { m with write := true } else m
      if c = Ascii.colon then
        let key ← m.token
        let key ← mallocCopy spare key
        .ok { m with write := false, paramsTmp := some key, state := .param2 }
      else if ← pairAt Ascii.cr Ascii.lf c rest then .ok { m with state := .bodyStart }
      else .ok m
  | .param2 => .ok { m with state := .param3 }
  | .param3 => do
      let m := { m with write := true }
      if ← pairAt Ascii.cr Ascii.lf c rest then
        insertParams { m with write := false, state := .paramStart } spare
      else .ok m
  | .bodyStart =>
      if m.request.method = bytes "POST" then .ok { m with state := .body }
      else .ok { m with
        state := .start, request := { m.request with bodyLength := 0, body := .null } }
  | .body => do
      let request ← copyBody m.request (c :: rest)
      let request ← scanBody junk request
      .ok { m with state := .start, request := request }
  | .invalid | .query | .pv => .ok m

/-- What `write` does with the byte. -/
def store (m : Parser) (c : UInt8) : Except Fault Parser :=
  if m.write then
    if m.temp.length < tempSize then .ok { m with temp := m.temp ++ [c] } else .error .write
  else .ok { m with temp := [] }

/-- One round of the loop. -/
def round (junk : ℕ → PartJunk) (m : Parser) (c : UInt8) (rest : List UInt8)
    (spare : SpareByte := ample) : Except Fault Parser := do
  let m ← m.switch junk c rest spare
  m.store c

end Parser

/-- How the loop is left: by `break` or at a NUL, with what lies at `p` then. -/
structure Halt where
  /-- Whether the loop was left by `break`. -/
  broke : Bool
  parser : Parser
  /-- The memory from `p` on. -/
  rest : List UInt8

/-- The loop of `req_parse_http` over the memory from `p` on, left at the first NUL
or by the `break` behind a round that ends in the state `last`. -/
def reqParseLoop (junk : ℕ → PartJunk) (last : HttpParseState) (p : List UInt8) (m : Parser)
    (spare : SpareByte := ample) : Except Fault Halt :=
  match p with
  | [] => .error .read
  | c :: rest =>
      if c = 0 then .ok ⟨false, m, c :: rest⟩
      else do
        let m ← m.round junk c rest spare
        if m.state = last then .ok ⟨true, m, rest⟩ else reqParseLoop junk last rest m spare

/-- `req_parse_http`: the loop breaks at state number 1, which is `PARSE_START`. -/
def reqParseHttp (junk : ℕ → PartJunk) (request : Request) (data : List UInt8)
    (spare : SpareByte := ample) : Except Fault Request :=
  (reqParseLoop junk .start data (.start request) spare).map fun h => h.parser.request
