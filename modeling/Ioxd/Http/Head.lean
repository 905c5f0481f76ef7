import Ioxd.Http.Text

/-!
# The head of a reply

`ioxd_response` and the calls of `lib/http/api.c` that shape it, with
`build_head` of `lib/http/engine.c`. The added headers fill the arena
`res->head` from its start, and a copied content type sits at its end, so the
arena is a flat memory here too.
-/

namespace Ioxd.Http

open Flat
open Ioxd.Pipe (Byte)

def respHeadCap : Nat := 3072

def maxRespHeaders : Nat := 16

def headCap : Nat := 4096

/-- `res->content_type`: a literal, or a slice of the arena. -/
inductive ContentType
  | literal (text : List Byte)
  | arena (off len : Nat)

structure Response where
  status : Int
  contentType : ContentType
  nHeaders : Nat
  close : Bool
  headSent : Bool
  contentLength : Nat
  hasLength : Bool
  chunked : Bool
  failed : Bool
  bodySent : Nat
  headLen : Nat
  head : Mem Byte

namespace Response

def init (head : Mem Byte) : Response where
  status := 200
  contentType := .literal (str "text/plain")
  nHeaders := 0
  close := false
  headSent := false
  contentLength := 0
  hasLength := false
  chunked := false
  failed := false
  bodySent := 0
  headLen := 0
  head := head

def contentTypeBytes (res : Response) : List Byte :=
  match res.contentType with
  | .literal text => text
  | .arena off len => res.head.read off len

def contentTypeReserved (res : Response) : Nat :=
  match res.contentType with
  | .literal _ => 0
  | .arena off len => if off < respHeadCap then len else 0

def headRoom (res : Response) (n : Nat) : Option (Nat × Response) :=
  if n > respHeadCap - res.contentTypeReserved - res.headLen then none
  else some (res.headLen, { res with headLen := res.headLen + n })

end Response

def cstr (s : List Byte) : List Byte := s.takeWhile (· != 0)

def isTchar (c : Byte) : Bool :=
  (48 ≤ c && c ≤ 57) || (97 ≤ c && c ≤ 122) || (65 ≤ c && c ≤ 90) ||
    (str "!#$%&'*+-.^_`|~").contains c

def validFieldValue (v : List Byte) : Bool := v.all fun c => !((c < 0x20 && c != tab) || c == 0x7f)

def contentType (res : Response) (type : List Byte) : Bool × Response :=
  let type := cstr type
  if res.headSent then (false, res)
  else if ¬ validFieldValue type then (false, res)
  else if type.length > respHeadCap - res.headLen then (false, res)
  else
    (true, { res with
      head := res.head.write (respHeadCap - type.length) type
      contentType := .arena (respHeadCap - type.length) type.length })

/-- A name that `ioxd_header` leaves to the engine. -/
def ownedName (name : List Byte) : Bool :=
  eqCi name (str "content-length") || eqCi name (str "transfer-encoding") ||
    eqCi name (str "connection")

def headerLine (name value : List Byte) : List Byte :=
  name.map lowerAscii ++ str ": " ++ value ++ crlf

def header (res : Response) (name value : List Byte) : Bool × Response :=
  let name := cstr name
  let value := cstr value
  if res.headSent ∨ res.nHeaders = maxRespHeaders ∨ name = [] then (false, res)
  else if ¬ name.all isTchar then (false, res)
  else if ¬ validFieldValue value then (false, res)
  else if eqCi name (str "content-type") then contentType res value
  else if ownedName name then (false, res)
  else
    match res.headRoom (headerLine name value).length with
    | none => (false, res)
    | some (off, res) =>
      (true, { res with
        head := res.head.write off (headerLine name value)
        nHeaders := res.nHeaders + 1 })

def contentLength (res : Response) (n : UInt64) : Bool × Response :=
  if res.headSent then (false, res)
  else (true, { res with contentLength := n.toNat, hasLength := true })

-- ---------------------------------------------------------------------------
-- Serialization
-- ---------------------------------------------------------------------------

/-- The digits of `v`, the last one found first; `size` is the room in `tmp`. -/
def putDigits (base : Nat) (digit : Nat → Byte) : Nat → Nat → List Byte
  | 0, _ => []
  | size + 1, v =>
    (if v / base = 0 then [] else putDigits base digit size (v / base)) ++ [digit (v % base)]

def putUint (v : Nat) : List Byte := putDigits 10 (fun d => UInt8.ofNat (48 + d)) 20 v

def putHex (v : Nat) : List Byte :=
  putDigits 16 (fun d => (str "0123456789abcdef").getD d 0) 16 v

def reason (status : Nat) : List Byte :=
  match status with
  | 200 => str "OK"
  | 201 => str "Created"
  | 204 => str "No Content"
  | 301 => str "Moved Permanently"
  | 302 => str "Found"
  | 304 => str "Not Modified"
  | 400 => str "Bad Request"
  | 401 => str "Unauthorized"
  | 403 => str "Forbidden"
  | 404 => str "Not Found"
  | 405 => str "Method Not Allowed"
  | 409 => str "Conflict"
  | 411 => str "Length Required"
  | 413 => str "Payload Too Large"
  | 431 => str "Request Header Fields Too Large"
  | 500 => str "Internal Server Error"
  | 501 => str "Not Implemented"
  | 503 => str "Service Unavailable"
  | _ => str "Unknown"

def statusLine (code : Nat) : Option (List Byte) :=
  match code with
  | 200 => some (str "HTTP/1.1 200 OK\r\n")
  | 204 => some (str "HTTP/1.1 204 No Content\r\n")
  | 400 => some (str "HTTP/1.1 400 Bad Request\r\n")
  | 404 => some (str "HTTP/1.1 404 Not Found\r\n")
  | 405 => some (str "HTTP/1.1 405 Method Not Allowed\r\n")
  | 500 => some (str "HTTP/1.1 500 Internal Server Error\r\n")
  | _ => none

def wireStatus (status : Int) : Nat := if 100 ≤ status ∧ status ≤ 999 then status.toNat else 500

inductive Frame
  | length
  | chunked
  | untilClose
  | none
  deriving DecidableEq, Repr

/-- A `NEED` and what is then put: no more bytes than were asked for. -/
structure Piece where
  need : Nat
  bytes : List Byte

def put (bytes : List Byte) : Piece := ⟨bytes.length, bytes⟩

def putPieces (cap : Nat) : List Piece → List Byte → Option (List Byte)
  | [], acc => some acc
  | p :: ps, acc => if cap - acc.length < p.need then none else putPieces cap ps (acc ++ p.bytes)

def statusPieces (status : Nat) : List Piece :=
  match statusLine status with
  | some line => [put line]
  | Option.none => [put (str "HTTP/1.1 "), ⟨3, putUint status⟩, put (str " "), put (reason status),
      put crlf]

def framePieces (frame : Frame) (bodyLen : Nat) : List Piece :=
  match frame with
  | .length => [put (str "content-length: "), ⟨20, putUint bodyLen⟩, put crlf]
  | .chunked => [put (str "transfer-encoding: chunked\r\n")]
  | _ => []

def connectionPieces (minorVersion : Nat) (keep : Bool) : List Piece :=
  if ¬ keep then [put (str "connection: close\r\n")]
  else if minorVersion = 0 then [put (str "connection: keep-alive\r\n")]
  else []

def buildHead (minorVersion : Nat) (keepAlive : Bool) (res : Response) (cap : Nat) (frame : Frame)
    (bodyLen : Nat) : Option (List Byte) :=
  putPieces cap
    (statusPieces (wireStatus res.status) ++
      [put (str "content-type: "), put res.contentTypeBytes, put crlf] ++
      framePieces frame bodyLen ++
      connectionPieces minorVersion (keepAlive && !res.close) ++
      [put (res.head.read 0 res.headLen), put crlf]) []

/-- The text of `send_status`, cut to the room of its `snprintf`. -/
def statusReply (code : Nat) : List Byte :=
  (str "HTTP/1.1 " ++ putUint code ++ str " " ++ reason code ++
    str "\r\ncontent-length: 0\r\nconnection: close\r\n\r\n").take 127

end Ioxd.Http
