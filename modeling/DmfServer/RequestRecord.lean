/-
# The request record

`request_t` and the structures inside it.  The four character arrays `method`,
`path`, `protocol` and `version` lie next to each other in the struct, so they are
one `Block`: a text too long for one array runs into the next, and one that
leaves the four (and the two bytes of padding behind them) runs into the `query`
pointer and faults.

What `malloc` leaves in a field is a value like any other: `RequestMem` holds the
fields `req_parse_init` does not set, and `Request` adds the two maps it creates.
-/
import DmfServer.Block
import DmfServer.Hashmap

open CMem

/-- `HTTP_METHOD_MAX`, `HTTP_URI_MAX`, `HTTP_PROTOCOL_MAX`, `HTTP_VERSION_MAX`. -/
def httpMethodMax : ℕ := 5
@[inherit_doc httpMethodMax] def httpUriMax : ℕ := 512
@[inherit_doc httpMethodMax] def httpProtocolMax : ℕ := 5
@[inherit_doc httpMethodMax] def httpVersionMax : ℕ := 4

/-- `HTTP_BODY_MAX`. -/
def httpBodyMax : ℤ := 1024 * 1024

/-- `MULTI_PART_MAX` and `MULTI_PART_MAX_NUM`. -/
def multiPartMax : ℕ := 1024 * 1024
@[inherit_doc multiPartMax] def multiPartMaxNum : ℕ := 20

/-! ## Offsets of the character arrays -/

/-- Where `method`, `path`, `protocol` and `version` start in the struct. -/
def methodAt : ℕ := 0
@[inherit_doc methodAt] def pathAt : ℕ := methodAt + httpMethodMax
@[inherit_doc methodAt] def protocolAt : ℕ := pathAt + httpUriMax
@[inherit_doc methodAt] def versionAt : ℕ := protocolAt + httpProtocolMax

/-- The bytes in front of the `query` pointer: the four arrays and two bytes that
align the pointer. -/
def textSize : ℕ := 528

/-- Offsets in `struct Multipart` of `name`, `dis` and `filename`, each a
`key[32]` followed by a `data[64]`. -/
def nameAt : ℕ := 0
@[inherit_doc nameAt] def disAt : ℕ := 96
@[inherit_doc nameAt] def filenameAt : ℕ := 192

/-- The size of `Multi_kv.key`, and of the three `Multi_kv` together. -/
def kvKeySize : ℕ := 32
@[inherit_doc kvKeySize] def kvSize : ℕ := 288

/-- `struct Multipart`. -/
structure Multipart where
  /-- `name`, `dis` and `filename`. -/
  kv : Block kvSize
  /-- The bytes written to `data` so far; the rest of its 1 MiB is zero. -/
  data : List UInt8
  /-- `length`. -/
  length : ℤ
  deriving DecidableEq

/-- What `malloc` leaves in a fresh `struct Multipart`. -/
structure PartJunk where
  /-- The bytes of `name`, `dis` and `filename`. -/
  kv : Block kvSize
  /-- The value of `length`. -/
  length : ℤ

/-- The fields of `request_t` that `req_parse_init` leaves alone. -/
structure RequestMem where
  /-- `method`, `path`, `protocol`, `version`. -/
  text : Block textSize
  /-- `body.body`. -/
  body : Ptr (List UInt8)
  /-- `body.length`. -/
  bodyLength : ℕ
  /-- `multi_part_num`. -/
  multiPartNum : ℤ
  /-- `multi`. -/
  multi : Vector (Ptr Multipart) multiPartMaxNum
  deriving DecidableEq

/-- A record in memory that happens to be zero. -/
def RequestMem.zero : RequestMem :=
  { text := Block.zero _, body := .null, bodyLength := 0, multiPartNum := 0
    multi := Vector.replicate _ .null }

/-- A part in memory that happens to be zero. -/
def PartJunk.zero : PartJunk := ⟨Block.zero _, 0⟩

instance neZeroBuckets : NeZero 17 := ⟨by decide⟩

/-- The maps of a request: 17 buckets, text to text. -/
abbrev FieldMap := Hashmap (List UInt8) 17

/-- A key and its value, of the query or of the headers. -/
abbrev TextPair := HashmapNode (List UInt8)

/-- `request_t`. -/
structure Request extends RequestMem where
  /-- `query`. -/
  query : FieldMap
  /-- `params`. -/
  params : FieldMap
  deriving DecidableEq

namespace Request

/-- `request->method` as a C string. -/
def method (request : Request) : List UInt8 := request.text.str methodAt

/-- `request->path` as a C string. -/
def path (request : Request) : List UInt8 := request.text.str pathAt

/-- `request->protocol` as a C string. -/
def protocol (request : Request) : List UInt8 := request.text.str protocolAt

/-- `request->version` as a C string. -/
def version (request : Request) : List UInt8 := request.text.str versionAt

end Request

/-- `req_parse_init`: both maps created empty, the rest as `malloc` left it. -/
def reqParseInit (mem : RequestMem) : Request :=
  { mem with query := hashmapCreate _ 17, params := hashmapCreate _ 17 }
