import Ioxd.Http.Text

/-!
# From a parsed head to a request

`pick_headers` and `fill_request` of `lib/http/engine.c`: one pass over the
headers that `phr_parse_request` found, and from what it picked the request's
framing or the status it is refused with.
-/

namespace Ioxd.Http

open Flat
open Ioxd.Pipe (Byte Slice)

/-- A header as the parser gives it; a line that continues the one before has
no name. -/
structure Header where
  name : Option (List Byte)
  value : List Byte
  deriving DecidableEq

structure Request where
  method : List Byte
  target : List Byte
  path : List Byte
  query : List Byte
  minorVersion : Nat
  headers : List Header
  params : List Kv
  contentLength : Nat
  chunked : Bool
  body : Slice
  keepAlive : Bool
  expectContinue : Bool

def maxParams : Nat := 32

structure PickedHeaders where
  contentLength : List Byte
  nContentLength : Nat
  nTransferEnc : Nat
  nHost : Nat
  teLastChunked : Bool
  teOther : Bool
  close : Bool
  keepAlive : Bool
  expectContinue : Bool
  refuse : Nat

def PickedHeaders.none : PickedHeaders := ⟨[], 0, 0, 0, false, false, false, false, false, 0⟩

/-- The loop of `pick_transfer_encoding`. The flag returned is `any`. -/
def pickTokens (rest : List Byte) (any : Bool) (picked : PickedHeaders) : Bool × PickedHeaders :=
  match _h : nextToken rest with
  | Option.none => (any, picked)
  | some (tok, rest') =>
    let last := (nextToken rest').isNone
    pickTokens rest' true <|
      if last && eqCi tok (str "chunked") then { picked with teLastChunked := true }
      else { picked with teOther := true }
termination_by rest.length
decreasing_by exact nextToken_lt _h

def pickTransferEncoding (picked : PickedHeaders) (value : List Byte) : PickedHeaders :=
  let picked := { picked with nTransferEnc := picked.nTransferEnc + 1 }
  let picked := if picked.teLastChunked then { picked with teOther := true } else picked
  let picked := { picked with teLastChunked := false }
  let (any, picked) := pickTokens value false picked
  if any then picked else { picked with refuse := 400 }

def pickExpect (picked : PickedHeaders) (value : List Byte) : PickedHeaders :=
  if eqCi value (str "100-continue") then { picked with expectContinue := true }
  else { picked with refuse := 417 }

def pickConnection (picked : PickedHeaders) (value : List Byte) : PickedHeaders :=
  let picked :=
    if tokenPresentCi value (str "close") then { picked with close := true } else picked
  if tokenPresentCi value (str "keep-alive") then { picked with keepAlive := true } else picked

def pickContentLength (picked : PickedHeaders) (value : List Byte) : PickedHeaders :=
  let repeated := picked.nContentLength ≠ 0
  let picked := { picked with nContentLength := picked.nContentLength + 1 }
  let picked :=
    if repeated ∧ value ≠ picked.contentLength then { picked with refuse := 400 } else picked
  { picked with contentLength := value }

/-- The body of the loop of `pick_headers`. The source switches on the name's
length before it compares, which a comparison of whole names does too. -/
def pickHeader (picked : PickedHeaders) (hdr : Header) : PickedHeaders :=
  match hdr.name with
  | Option.none => { picked with refuse := 400 }
  | some name =>
    let name := lowerInplace name
    if name = str "host" then { picked with nHost := picked.nHost + 1 }
    else if name = str "expect" then pickExpect picked hdr.value
    else if name = str "connection" then pickConnection picked hdr.value
    else if name = str "content-length" then pickContentLength picked hdr.value
    else if name = str "transfer-encoding" then pickTransferEncoding picked hdr.value
    else picked

def lowerHeader (hdr : Header) : Header := { hdr with name := hdr.name.map lowerInplace }

def pickHeaders (headers : List Header) : PickedHeaders × List Header :=
  (headers.foldl pickHeader .none, headers.map lowerHeader)

def keepAliveFrom (minorVersion : Nat) (picked : PickedHeaders) : Bool :=
  if picked.close then false else decide (minorVersion ≥ 1) || picked.keepAlive

def startsCi (s lit : List Byte) : Bool :=
  decide (s.length ≥ lit.length) && eqCi (s.take lit.length) lit

/-- The target with the scheme and the authority of its absolute form cut. -/
def originTarget (target : List Byte) : List Byte :=
  if target ≠ [] ∧ target.head? ≠ some 47 ∧
      (startsCi target (str "http://") ∨ startsCi target (str "https://")) then
    let skip := if target[4]? = some 58 then 7 else 8
    match (target.drop skip).dropWhile (· != 47) with
    | [] => str "/"
    | rest => rest
  else target

/-- The request's framing from what was picked, or the status it is refused
with: the end of `fill_request`. -/
def frame (req : Request) (picked : PickedHeaders) : Nat × Request :=
  if picked.nTransferEnc ≠ 0 then
    if picked.nContentLength ≠ 0 then (400, req)
    else if picked.teOther then (501, req)
    else if ¬ picked.teLastChunked then (400, req)
    else (0, { req with chunked := true })
  else if picked.nContentLength ≠ 0 then
    match parseLength picked.contentLength with
    | Option.none => (400, req)
    | some n => (0, { req with contentLength := n })
  else (0, req)

def fillRequest (req : Request) (arena : Mem Byte) (arenaCap : Nat) :
    Nat × Request × Mem Byte :=
  let target := originTarget req.target
  let path := target.takeWhile (· != 63)
  let query := (target.dropWhile (· != 63)).drop 1
  let kv := if query ≠ [] then kvParse query maxParams arena arenaCap else ⟨arena, 0, [], false⟩
  let (picked, headers) := pickHeaders req.headers
  let req := { req with
    path := path
    query := query
    params := kv.pairs
    headers := headers
    body := ⟨.null, 0⟩
    chunked := false
    contentLength := 0
    keepAlive := keepAliveFrom req.minorVersion picked
    expectContinue := picked.expectContinue }
  let (refused, req) :=
    if picked.refuse ≠ 0 then (picked.refuse, req)
    else if kv.lost then (if kv.pairs.length = maxParams then 400 else 414, req)
    else if if req.minorVersion ≥ 1 then picked.nHost ≠ 1 else picked.nHost > 1 then (400, req)
    else frame req picked
  (refused, req, kv.arena)

end Ioxd.Http
