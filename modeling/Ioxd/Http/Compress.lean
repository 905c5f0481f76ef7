import Ioxd.Http.Serve
import Mathlib.Algebra.Order.Field.Rat

/-!
# Bodies that are coded

The decision of the compression middleware in `lib/http/compress.c`, and the
reply of the static handler in `lib/http/static.c` with the twin it has picked.
The coders themselves are brotli and zlib: what a coder returns is a filter of
the reply. What a request header asks for (the q of a coding, whether the file
is not modified, the range) is given with the reply.
-/

namespace Ioxd.Http

open Flat
open Ioxd.Pipe

inductive Coding
  | br
  | gzip
  deriving DecidableEq, Repr

/-- `names` of the middleware and `coding` of the static handler. -/
def Coding.name : Coding → List Byte
  | .br => str "br"
  | .gzip => str "gzip"

-- ---------------------------------------------------------------------------
-- What the decision reads
-- ---------------------------------------------------------------------------

/-- The names of the arena's lines: a name ends at its colon, a line at its
CRLF. -/
def arenaKeys : Bool → List Byte → List Byte → List (List Byte)
  | _, _, [] => []
  | true, key, c :: rest =>
    if c = 58 then key :: arenaKeys false [] rest else arenaKeys true (key ++ [c]) rest
  | false, _, [_] => []
  | false, key, c :: d :: rest =>
    if c = cr then arenaKeys true [] rest else arenaKeys false key (d :: rest)

/-- `has_header`. The keys of the table point into the arena. -/
def Response.hasHeader (res : Response) (name : List Byte) : Bool :=
  (arenaKeys true [] (res.head.read 0 res.headLen)).contains name

def isSpace (c : Byte) : Bool := c == 32 || c == tab || c == cr || c == lf

/-- `ioxd_slice_trim`. -/
def sliceTrim (s : List Byte) : List Byte :=
  ((s.dropWhile isSpace).reverse.dropWhile isSpace).reverse

def compressible (type : List Byte) : Bool :=
  let type := sliceTrim (type.takeWhile (· != 59))
  (str "text/").isPrefixOf type || (str "+json").isSuffixOf type || (str "+xml").isSuffixOf type ||
    [str "application/json", str "application/javascript", str "application/x-javascript",
      str "application/xml", str "application/wasm", str "image/svg+xml"].any (eqCi type)

-- ---------------------------------------------------------------------------
-- The middleware
-- ---------------------------------------------------------------------------

/-- What the decision is made with: the configuration, the two answers of
`ioxd_accepts_encoding`, and what `coder_take` returns, nothing when there is no
memory or the coding was not built in. -/
structure Coders where
  minBytes : Nat
  accepts : Coding → ℚ
  take : Coding → Option Filter

/-- The coder that `decide` takes. -/
def Coders.pick (coders : Coders) : Option (Coding × Filter) :=
  let br := coders.accepts .br
  let gz := coders.accepts .gzip
  match if br > 0 ∧ br ≥ gz then coders.take .br else none with
  | some filter => some (.br, filter)
  | none => if gz > 0 then (coders.take .gzip).map (.gzip, ·) else none

/-- `decide`: the calls it makes on this context. -/
def Coders.decide (coders : Coders) (ctx : Ctx) (buffered : Nat) (whole : Bool) : List HeadOp :=
  if ctx.res.status < 200 ∨ ctx.res.status ≥ 300 ∨ ctx.res.status = 204 ∨
      ctx.res.hasHeader (str "content-encoding") ∨ ¬ compressible ctx.res.contentTypeBytes then []
  else .header (str "vary") (str "accept-encoding") ::
    if whole ∧ buffered < coders.minBytes then []
    else
      match coders.pick with
      | none => []
      | some (coding, filter) =>
        if ¬ (ctx.replyFilter filter).1 then []
        else [.replyFilter filter, .header (str "content-encoding") coding.name]

namespace Static

/-- The values of the table `types`, and the default of `type_of`. -/
def types : List (List Byte) :=
  [str "text/html; charset=utf-8", str "text/css", str "text/javascript", str "application/json",
    str "application/manifest+json", str "application/xml", str "text/plain; charset=utf-8",
    str "text/markdown; charset=utf-8", str "text/csv; charset=utf-8", str "image/svg+xml",
    str "image/png", str "image/jpeg", str "image/gif", str "image/webp", str "image/avif",
    str "image/x-icon", str "font/woff", str "font/woff2", str "font/ttf", str "font/otf",
    str "application/pdf", str "application/wasm", str "video/mp4", str "video/webm",
    str "audio/mpeg", str "audio/ogg", str "application/zip", str "application/gzip",
    str "application/octet-stream"]

/-- The result of `range_of`. -/
inductive Range
  | none
  | one (first last : Nat)
  | bad
  deriving DecidableEq, Repr

/-- A file to reply with: the entry, what `pick` has picked (nothing is the
plain file), the bytes of that variant, and what the request's conditions come
to. -/
structure Reply where
  type : List Byte
  typed : type ∈ types
  etag : List Byte
  modified : List Byte
  cacheControl : Option (List Byte)
  twins : Bool
  variant : Option Coding
  data : List Byte
  notModified : Bool
  range : Range

/-- `res->content_type` set to a text of the table. -/
def setType (ctx : Ctx) (type : List Byte) : Ctx :=
  { ctx with res := { ctx.res with contentType := .literal type } }

/-- The header calls of `head_of`, up to the test of the conditions. -/
def Reply.headOf (r : Reply) : List HeadOp :=
  [.header (str "etag") r.etag, .header (str "last-modified") r.modified] ++
    (match r.cacheControl with
      | some cacheControl => [.header (str "cache-control") cacheControl]
      | Option.none => []) ++
    (if r.twins then [.header (str "vary") (str "accept-encoding")] else [])

def Reply.label (r : Reply) : List HeadOp :=
  match r.variant with
  | some coding => [.header (str "content-encoding") coding.name]
  | Option.none => []

def contentRange (span : List Byte) (total : Nat) : HeadOp :=
  .header (str "content-range") (str "bytes " ++ span ++ str "/" ++ putUint total)

/-- `span_of`, with `ioxd_content_length` behind it. -/
def Reply.spanOf (r : Reply) : List HeadOp :=
  match r.range with
  | .bad => [.status 416, contentRange (str "*") r.data.length]
  | .one first last =>
    [.status 206, contentRange (putUint first ++ str "-" ++ putUint last) r.data.length,
      .contentLength (UInt64.ofNat (last - first + 1))]
  | .none => [.contentLength (UInt64.ofNat r.data.length)]

/-- The bytes of the variant that go out. -/
def Reply.span (r : Reply) : List Byte :=
  match r.range with
  | .bad => []
  | .one first last => (r.data.drop first).take (last - first + 1)
  | .none => r.data

/-- `reply` up to its write. -/
def Reply.head (r : Reply) (ctx : Ctx) : Ctx :=
  let ctx := r.headOf.foldl Ctx.headOp (setType ctx r.type)
  if r.notModified then ctx.headOp (.status 304)
  else
    (.header (str "accept-ranges") (str "bytes") :: (r.label ++ r.spanOf)).foldl Ctx.headOp ctx

/-- Whether `reply` gets to its write, for a request that is not HEAD. -/
def Reply.sends (r : Reply) : Bool := !r.notModified && r.range != .bad

def Reply.body (r : Reply) : List HandlerOp := if r.sends then [.write r.span] else []

end Static

end Ioxd.Http
