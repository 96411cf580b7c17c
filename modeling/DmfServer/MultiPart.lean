/-
# The multipart scanner

`req_parse_multi_part` walks the body byte by byte with a state number, a `write`
code, the scratch string `temp` and the index `k` into the part's data.  The loop
has no end of its own: it leaves at the closing `--`, or at a boundary line that
is not the boundary, and otherwise reads on, so running out of the body is the
fault of reading past it.

The local `i` is read before it is set, but the first byte is handled in state 10
with `write` 0, which sets it to 0 on either branch; the model starts it at 0.
-/
import DmfServer.RequestRecord

open CMem

namespace MultiPart

/-- The state numbers of the scanner. -/
inductive State : Type where
  /-- 1: the closing `--` was seen. -/
  | s1 : State
  /-- 10: before the `--` of a boundary line. -/
  | s10 : State
  /-- 11: the boundary line. -/
  | s11 : State
  /-- 20: the name of the part's header. -/
  | s20 : State
  /-- 21: its value up to `;`. -/
  | s21 : State
  /-- 22: `name` or `filename` up to `="`. -/
  | s22 : State
  /-- 235: the opening quote. -/
  | s235 : State
  /-- 23: the quoted text. -/
  | s23 : State
  /-- 24: behind the closing quote. -/
  | s24 : State
  /-- 25, 26, 27: the bytes between the header and the data. -/
  | s25 : State
  | s26 : State
  | s27 : State
  /-- 28: the data. -/
  | s28 : State
  /-- 90: the boundary line has ended. -/
  | s90 : State
  deriving DecidableEq, Repr

/-- The values of `write`. -/
inductive Write : Type where
  /-- 0: drop the byte and clear `temp`. -/
  | skip : Write
  /-- 1: the byte goes to `temp`. -/
  | temp : Write
  /-- 2: the byte goes to the data of the part. -/
  | data : Write
  /-- 3: the part is finished. -/
  | close : Write
  deriving DecidableEq, Repr

/-- The local variables of `req_parse_multi_part` and the table it fills. -/
structure Scan where
  state : State
  write : Write
  /-- `temp[0..i)`; behind it `temp` is zero. -/
  temp : List UInt8
  k : ℕ
  nameOrFilename : ℕ
  mulNum : ℤ
  multi : Vector (Ptr Multipart) multiPartMaxNum
  deriving DecidableEq

/-- The locals as the function starts. -/
def Scan.start (multi : Vector (Ptr Multipart) multiPartMaxNum) : Scan :=
  { state := .s10, write := .skip, temp := [], k := 0, nameOrFilename := 0, mulNum := -1,
    multi := multi }

/-- `multi[mul_num]`, which must be an entry of the table. -/
def Scan.slot (s : Scan) : Except Fault (Fin multiPartMaxNum) :=
  if h : 0 ≤ s.mulNum ∧ s.mulNum.toNat < multiPartMaxNum then .ok ⟨s.mulNum.toNat, h.2⟩
  else .error .read

/-- The part `multi[mul_num]` points to. -/
def Scan.part (s : Scan) : Except Fault Multipart := do
  let j ← s.slot
  s.multi[j].deref

/-- Change the part `multi[mul_num]` points to. -/
def Scan.setPart (s : Scan) (part : Multipart) : Except Fault Scan := do
  let j ← s.slot
  .ok { s with multi := s.multi.set j (.obj part) }

/-- `strcpy(multi[mul_num]->..., temp)`, at an offset inside the part. -/
def Scan.copyTemp (s : Scan) (off : ℕ) : Except Fault Scan := do
  let part ← s.part
  let kv ← part.kv.strcpy off (cstr s.temp)
  s.setPart { part with kv := kv }

/-- The `switch` on the state: `c` is `*p`, `rest` the memory behind it. -/
def Scan.switch (boundary : List UInt8) (s : Scan) (c : UInt8) (rest : List UInt8) :
    Except Fault Scan :=
  match s.state with
  | .s10 => do
      if ← pairAt Ascii.dash Ascii.dash c rest then .ok { s with state := .s11, mulNum := s.mulNum + 1 }
      else .ok s
  | .s11 => do
      let s := { s with write := if c = Ascii.dash then .skip else .temp }
      let s := if ← pairAt Ascii.cr Ascii.lf c rest then { s with state := .s90, write := .skip } else s
      if ← pairAt Ascii.dash Ascii.dash c rest then .ok { s with state := .s1, mulNum := s.mulNum - 1 }
      else .ok s
  | .s20 =>
      let s := { s with write := if c = Ascii.lf then .skip else .temp }
      if c = Ascii.colon then do
        let s ← s.copyTemp disAt
        .ok { s with write := .skip, state := .s21 }
      else .ok s
  | .s21 =>
      let s := { s with write := if c = Ascii.space then .skip else .temp }
      if c = Ascii.semicolon then do
        let s ← s.copyTemp (disAt + kvKeySize)
        .ok { s with write := .skip, state := .s22 }
      else .ok s
  | .s22 => do
      let s := { s with write := if c = Ascii.space then .skip else .temp }
      if ← pairAt Ascii.equals Ascii.quote c rest then
        let s ←
          if cstr s.temp = bytes "name" then
            (s.copyTemp nameAt).map fun s => { s with nameOrFilename := 1 }
          else if cstr s.temp = bytes "filename" then
            (s.copyTemp filenameAt).map fun s => { s with nameOrFilename := 2 }
          else .ok s
        .ok { s with write := .skip, state := .s235 }
      else .ok s
  | .s235 => .ok { s with state := .s23 }
  | .s23 =>
      let s := { s with write := .temp }
      if c = Ascii.quote then do
        let s ←
          if s.nameOrFilename = 1 then s.copyTemp (nameAt + kvKeySize)
          else if s.nameOrFilename = 2 then s.copyTemp (filenameAt + kvKeySize)
          else .ok s
        .ok { s with write := .skip, state := .s24 }
      else .ok s
  | .s24 => do
      let s := if c = Ascii.semicolon then { s with state := .s22 } else s
      if ← pairAt Ascii.cr Ascii.lf c rest then .ok { s with state := .s25 } else .ok s
  | .s25 => .ok { s with state := .s26 }
  | .s26 => .ok { s with state := .s27 }
  | .s27 => .ok { s with state := .s28 }
  | .s28 => do
      let s := { s with write := .data }
      if ← pairAt Ascii.cr Ascii.lf c rest then
        -- `memcpy(b, p+4, boundary_len)`
        let behind := rest.drop 3
        if behind.length < boundary.length then .error .read
        else if cstr (behind.take boundary.length) = boundary then
          .ok { s with write := .close, state := .s10 }
        else .ok s
      else .ok s
  | .s1 | .s90 => .ok s

/-- A boundary line that is the boundary opens a new part. -/
def Scan.openPart (junk : ℕ → PartJunk) (s : Scan) : Except Fault Scan :=
  if s.state = .s90 then do
    let j ← s.slot
    { s with state := .s20 }.setPart
      { kv := (junk j).kv, data := [], length := (junk j).length }
  else .ok s

/-- What `write` does with the byte. -/
def Scan.store (s : Scan) (c : UInt8) : Except Fault Scan :=
  match s.write with
  | .data => do
      let part ← s.part
      if s.k < multiPartMax then
        let s ← s.setPart { part with data := part.data.take s.k ++ c :: part.data.drop (s.k + 1) }
        .ok { s with k := s.k + 1 }
      else .error .write
  | .temp =>
      if s.temp.length < 1024 then .ok { s with temp := s.temp ++ [c] } else .error .write
  | .close => do
      let part ← s.part
      let s ← s.setPart { part with length := s.k }
      .ok { s with k := 0, write := .skip }
  | .skip => .ok { s with temp := [] }

/-- The loop of `req_parse_multi_part` over the memory from `p` on. -/
def scanLoop (junk : ℕ → PartJunk) (boundary : List UInt8) :
    List UInt8 → Scan → Except Fault Scan
  | [], _ => .error .read
  | c :: rest, s => do
      let s ← s.switch boundary c rest
      if s.state = .s90 ∧ cstr s.temp ≠ boundary then .ok s
      else
        let s ← s.openPart junk
        let s ← s.store c
        if s.state = .s1 then .ok s else scanLoop junk boundary rest s

end MultiPart

/-- `req_parse_multi_part`. -/
def reqParseMultiPart (junk : ℕ → PartJunk) (request : Request) (boundary : List UInt8) :
    Except Fault Request := do
  let body ← request.body.deref
  let s ← MultiPart.scanLoop junk boundary body (.start request.multi)
  .ok { request with multi := s.multi, multiPartNum := s.mulNum }

/-- The scanner works on the body and the table of parts alone. -/
theorem reqParseMultiPart_eq (junk : ℕ → PartJunk) (request : Request)
    (boundary body : List UInt8) (h : request.body = .obj body) :
    reqParseMultiPart junk request boundary
      = (MultiPart.scanLoop junk boundary body (.start request.multi)).map
          fun s => { request with multi := s.multi, multiPartNum := s.mulNum } := by
  unfold reqParseMultiPart
  rw [h]
  simp only [Ptr.deref, bind, Except.bind]
  cases MultiPart.scanLoop junk boundary body (.start request.multi) <;> rfl
