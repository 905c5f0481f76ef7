import Ioxd.Http.Head
import Ioxd.Http.Request
import Ioxd.Pipe.Feed
import Ioxd.Pipe.Writer

/-!
# Writing a reply

The context of a request and the writing half of `lib/http/engine.c`: the
flush that decides a reply's framing and serializes its head, the filter that
codes its body, and the calls a handler writes with. The source's -1 and 0 are
`false` and `true` here.
-/

namespace Ioxd.Http

open Flat
open Ioxd.Pipe

def pipeLead : Nat := 512

def pipeCap : Nat := 16384

def pipeSlack : Nat := 8

def codedSlack : Nat := 256

def drainMax : Nat := 1024 * 1024

inductive FilterOp
  | more
  | flush
  | finish
  deriving DecidableEq, Repr

/-- One call of a filter, as it is made. -/
structure FilterIn where
  input : List Byte
  room : Nat
  op : FilterOp

/-- One call of a filter, as it returns. -/
structure FilterOut where
  rc : Int
  inLen : Nat
  out : List Byte

/-- A filter is what its calls will return, in order: a reply makes finitely
many of them, or never ends. One that has nothing left to say reports an
error. -/
abbrev Filter := List FilterOut

/-- The calls that shape a head. -/
inductive HeadOp
  | status (status : Int)
  | header (name value : List Byte)
  | contentType (type : List Byte)
  | contentLength (n : UInt64)
  | close
  | replyFilter (filter : Filter)

/-- `ioxd_ctx` with its `serve_state`, the pipe it serves and the socket both
writers send on. A head delegate is given the bytes in the slab and whether
the reply is whole, and answers with calls of its own. -/
structure Ctx where
  feed : Feed
  out : Pipewriter
  sock : Socket
  req : Request
  res : Response
  bodyRead : Nat
  bodyDone : Bool
  bodyWhole : Bool
  bodyErr : Int
  chunkLeft : Nat
  headOnly : Bool
  noBody : Bool
  continueSent : Bool
  onHead : Option (Nat → Bool → List HeadOp)
  filter : Option Filter
  filterLog : List FilterIn
  coded : Pipewriter

inductive FlushKind
  | full
  | asked
  | final
  deriving DecidableEq, Repr

namespace Ctx

/-- `fail`: the reply is given up. -/
def fail (ctx : Ctx) : Ctx := { ctx with res := { ctx.res with failed := true } }

def replyFilter (ctx : Ctx) (filter : Filter) : Bool × Ctx :=
  if ctx.res.headSent ∨ ctx.filter.isSome then (false, ctx)
  else (true, { ctx with filter := some filter })

def headOp (ctx : Ctx) : HeadOp → Ctx
  | .status status => { ctx with res := { ctx.res with status := status } }
  | .header name value => { ctx with res := (Http.header ctx.res name value).2 }
  | .contentType type => { ctx with res := (Http.contentType ctx.res type).2 }
  | .contentLength n => { ctx with res := (Http.contentLength ctx.res n).2 }
  | .close => { ctx with res := { ctx.res with close := true } }
  | .replyFilter filter => (ctx.replyFilter filter).2

def sw (ctx : Ctx) (coding : Bool) : Pipewriter := if coding then ctx.coded else ctx.out

def setSw (ctx : Ctx) (coding : Bool) (pw : Pipewriter) : Ctx :=
  if coding then { ctx with coded := pw } else { ctx with out := pw }

def sendStatus (ctx : Ctx) (code : Nat) : Ctx :=
  let (_, out, sock) := ctx.out.reset.send ctx.sock (statusReply code)
  { ctx with out := out, sock := sock }

end Ctx

-- ---------------------------------------------------------------------------
-- Frames around the span
-- ---------------------------------------------------------------------------

def putChunk (pw : Pipewriter) : Bool × Pipewriter :=
  let line := putHex pw.len ++ crlf
  let (front, pw) := pw.front line.length
  let (back, pw) := pw.back 2
  match front, back with
  | some front, some back => (true, (pw.copyTo front line).copyTo back crlf)
  | _, _ => (false, pw)

def terminator : List Byte := str "0\r\n\r\n"

def putTerminator (pw : Pipewriter) : Bool × Pipewriter :=
  match pw.back 5 with
  | (some back, pw) => (true, pw.copyTo back terminator)
  | (none, pw) => (false, pw)

/-- The head in front of the span, or ahead of it when the lead has no room. -/
def putHead (pw : Pipewriter) (s : Socket) (head : List Byte) : Bool × Pipewriter × Socket :=
  match pw.front head.length with
  | (some front, pw) => (true, pw.copyTo front head, s)
  | (none, pw) => pw.through s head

/-- The frames, the head and the span, and what comes behind them: the end of
both `flush_with` and `send_coded`. -/
def emit (pw : Pipewriter) (s : Socket) (chunked final : Bool) (head extra : List Byte) :
    Bool × Pipewriter × Socket :=
  let (ok, pw) := if chunked ∧ pw.len ≠ 0 then putChunk pw else (true, pw)
  if ¬ ok then (false, pw, s)
  else
    let (ok, pw) := if final ∧ chunked then putTerminator pw else (true, pw)
    if ¬ ok then (false, pw, s)
    else
      let (ok, pw, s) := if head ≠ [] then putHead pw s head else (true, pw, s)
      if ¬ ok then (false, pw, s) else pw.flushWith s extra

-- ---------------------------------------------------------------------------
-- The filter
-- ---------------------------------------------------------------------------

namespace Ctx

/-- `send_coded`, with the head if it has not gone out yet. -/
def sendCoded (ctx : Ctx) (head : List Byte) : Bool × Ctx :=
  let (ok, cw, sock) := emit ctx.coded ctx.sock ctx.res.chunked false head []
  let ctx := { ctx with
    res := { ctx.res with bodySent := ctx.res.bodySent + ctx.coded.len }
    coded := cw
    sock := sock }
  if ok then (true, ctx) else (false, ctx.fail)

/-- The loop of `encode`, by what the filter will return. No head at all is the
source's null pointer: the reply is whole and must fit. -/
def encodeLoop : List FilterOut → Ctx → FilterOp → Option (List Byte) → List Byte →
    Bool × Ctx × Option (List Byte)
  | [], ctx, op, head, input =>
    (false, { ctx with
      filterLog := ctx.filterLog ++ [FilterIn.mk input ctx.coded.room op] }.fail, head)
  | r :: script, ctx, op, head, input =>
    let ctx := { ctx with
      filter := some script
      filterLog := ctx.filterLog ++ [FilterIn.mk input ctx.coded.room op] }
    if r.rc < 0 ∨ r.inLen > input.length ∨ r.out.length > ctx.coded.room then
      (false, ctx.fail, head)
    else
      let input := input.drop r.inLen
      let ctx := { ctx with
        coded := (ctx.coded.copyTo ctx.coded.at' r.out).advance r.out.length }
      if r.rc = 0 ∧ input = [] then (true, { ctx with out := { ctx.out with len := 0 } }, head)
      else if ctx.coded.room = 0 then
        match head with
        | none => (false, ctx.fail, none)
        | some h =>
          let (ok, ctx) := ctx.sendCoded h
          if ¬ ok then (false, ctx.fail, some h) else encodeLoop script ctx op (some []) input
      else if r.inLen = 0 ∧ r.out = [] then (false, ctx.fail, head)
      else encodeLoop script ctx op head input

def encode (ctx : Ctx) (op : FilterOp) (head : Option (List Byte)) :
    Bool × Ctx × Option (List Byte) :=
  encodeLoop (ctx.filter.getD []) ctx op head (ctx.out.buf.read ctx.out.lead ctx.out.len)

-- ---------------------------------------------------------------------------
-- The flush
-- ---------------------------------------------------------------------------

def callOnHead (ctx : Ctx) (final : Bool) : Ctx :=
  match ctx.onHead with
  | some fn =>
    if ctx.res.headSent ∨ ctx.headOnly then ctx
    else (fn ctx.out.len final).foldl headOp { ctx with onHead := none }
  | none => ctx

def bodyless (status : Nat) : Bool := status < 200 || status == 204 || status == 304

def frameOf (ctx : Ctx) (final : Bool) : Frame :=
  let status := wireStatus ctx.res.status
  if bodyless status then if status = 304 ∧ ctx.res.hasLength then .length else .none
  else if ¬ ctx.res.hasLength ∧ ¬ final then
    if ctx.req.minorVersion ≥ 1 then .chunked else .untilClose
  else .length

/-- The body of the request is more than a drain would take, or waits for an
interim reply that will not come. -/
def undrainable (ctx : Ctx) : Bool :=
  !ctx.bodyDone && ctx.bodyErr == 0 &&
    (decide ((if ctx.req.chunked then sizeMax else ctx.req.contentLength - ctx.bodyRead) > drainMax) ||
      (ctx.req.expectContinue && !ctx.continueSent))

/-- The first flush, up to the head: the framing is decided and the head
serialized. No head is a failure. -/
def startHead (ctx : Ctx) (final coding : Bool) : Option (List Byte) × Ctx :=
  let frame := ctx.frameOf final
  let noBody := ctx.headOnly || bodyless (wireStatus ctx.res.status)
  let declared := ctx.res.hasLength && (!final || noBody)
  let bodyLen := if declared then ctx.res.contentLength else (ctx.sw coding).len
  let res := { ctx.res with
    contentLength := if ctx.res.hasLength && !declared then (ctx.sw coding).len
      else ctx.res.contentLength
    chunked := ctx.res.chunked || decide (frame = .chunked)
    close := ctx.res.close || decide (frame = .untilClose) || ctx.undrainable }
  let ctx := { ctx with noBody := noBody, res := res }
  match buildHead ctx.req.minorVersion ctx.req.keepAlive res headCap frame bodyLen with
  | none => (none, (ctx.sendStatus 500).fail)
  | some head => (some head, { ctx with res := { res with headSent := true } })

/-- A declared length holds back what is past it: what is left to send of the
slab and of the bytes behind it, and whether there was more. -/
def clip (ctx : Ctx) (coding : Bool) (extra : List Byte) : Ctx × List Byte × Bool :=
  if ctx.res.hasLength then
    let left := ctx.res.contentLength - ctx.res.bodySent
    let len := min (ctx.sw coding).len left
    let overran := (ctx.sw coding).len > left ∨ extra.length > left - len
    (ctx.setSw coding { ctx.sw coding with len := len }, extra.take (left - len), overran)
  else (ctx, extra, false)

/-- The rest of a flush, with a head that has not gone out or none. -/
def sendFrame (ctx : Ctx) (final coding : Bool) (head extra : List Byte) : Bool × Ctx :=
  let (ctx, extra, overran) := ctx.clip coding extra
  let (ok, pw, sock) := emit (ctx.sw coding) ctx.sock ctx.res.chunked final head extra
  let n := (ctx.sw coding).len + extra.length
  let ctx := { ctx.setSw coding pw with
    sock := sock
    res := { ctx.res with bodySent := ctx.res.bodySent + n } }
  if ¬ ok ∨ overran then (false, ctx.fail) else (true, ctx)

def sendBodyless (ctx : Ctx) (head : List Byte) : Bool × Ctx :=
  let ctx := { ctx with out := ctx.out.reset, coded := ctx.coded.reset }
  if head = [] then (true, ctx)
  else
    let (ok, out, sock) := ctx.out.through ctx.sock head
    let ctx := { ctx with out := out, sock := sock }
    if ok then (true, ctx) else (false, ctx.fail)

def flushBody (ctx : Ctx) (kind : FlushKind) (coding whole : Bool) (head extra : List Byte) :
    Bool × Ctx :=
  if ctx.noBody then ctx.sendBodyless head
  else if coding ∧ ¬ whole then
    let op := match kind with
      | .final => FilterOp.finish
      | .asked => .flush
      | .full => .more
    match ctx.encode op (some head) with
    | (false, ctx, _) => (false, ctx)
    | (true, ctx, head) => ctx.sendFrame (kind = .final) coding (head.getD []) extra
  else ctx.sendFrame (kind = .final) coding head extra

def flushHead (ctx : Ctx) (kind : FlushKind) (extra : List Byte) : Bool × Ctx :=
  let final : Bool := kind = .final
  let coding := ctx.filter.isSome && !ctx.headOnly
  let whole := coding && !ctx.res.headSent && final
  let ctx := if coding ∧ ¬ ctx.res.headSent ∧ ¬ whole then
    { ctx with res := { ctx.res with hasLength := false } } else ctx
  match if whole then ctx.encode .finish none else (true, ctx, none) with
  | (false, ctx, _) => (false, ctx)
  | (true, ctx, _) =>
    if ctx.res.headSent then ctx.flushBody kind coding whole [] extra
    else
      match ctx.startHead final coding with
      | (none, ctx) => (false, ctx)
      | (some head, ctx) => ctx.flushBody kind coding whole head extra

def flushWith (ctx : Ctx) (kind : FlushKind) (extra : List Byte) : Bool × Ctx :=
  if ctx.res.failed then (false, ctx)
  else (ctx.callOnHead (kind = .final)).flushHead kind extra

def flush (ctx : Ctx) (kind : FlushKind) : Bool × Ctx := ctx.flushWith kind []

-- ---------------------------------------------------------------------------
-- The handler's calls, and the end
-- ---------------------------------------------------------------------------

def rawFramed (ctx : Ctx) : Bool :=
  if ctx.onHead.isSome ∨ ctx.filter.isSome then false
  else if ctx.res.headSent then !ctx.res.chunked
  else ctx.res.hasLength || decide (ctx.req.minorVersion = 0)

/-- The copying loop of `ioxd_write`. A turn that finds no room flushes, and
the next one copies: two turns for each byte are enough. -/
def writeLoop : Nat → Ctx → List Byte → Bool × Ctx
  | 0, ctx, _ => (true, ctx)
  | turns + 1, ctx, src =>
    if src = [] then (true, ctx)
    else if ctx.out.room = 0 then
      match ctx.flush .full with
      | (false, ctx) => (false, ctx)
      | (true, ctx) => writeLoop turns ctx src
    else
      let n := min src.length ctx.out.room
      let out := (ctx.out.copyTo ctx.out.at' (src.take n)).advance n
      writeLoop turns { ctx with out := out } (src.drop n)

def write (ctx : Ctx) (data : List Byte) : Bool × Ctx :=
  if ctx.res.failed then (false, ctx)
  else if data.length > ctx.out.room ∧ ctx.rawFramed then ctx.flushWith .full data
  else writeLoop (2 * data.length + 1) ctx data

/-- `ioxd_reserve`: where the bytes go, if they can go anywhere. -/
def reserve (ctx : Ctx) (n : Nat) : Option Nat × Ctx :=
  if ctx.res.failed ∨ n > ctx.out.cap then (none, ctx)
  else if n > ctx.out.room then
    match ctx.flush .full with
    | (false, ctx) => (none, ctx)
    | (true, ctx) => (some ctx.out.at', ctx)
  else (some ctx.out.at', ctx)

def advance (ctx : Ctx) (n : Nat) : Ctx := { ctx with out := ctx.out.advance n }

def setOnHead (ctx : Ctx) (fn : Nat → Bool → List HeadOp) : Bool × Ctx :=
  if ctx.res.headSent then (false, ctx) else (true, { ctx with onHead := some fn })

def finish (ctx : Ctx) : Bool × Ctx :=
  if ctx.res.failed then (false, ctx)
  else
    let (ok, ctx) :=
      if ¬ ctx.res.headSent ∨ ctx.out.len ≠ 0 ∨ ctx.filter.isSome then ctx.flush .final
      else if ctx.res.chunked then
        match putTerminator ctx.out with
        | (false, pw) => (false, { ctx with out := pw }.fail)
        | (true, pw) =>
          let (ok, pw, sock) := pw.flush ctx.sock
          let ctx := { ctx with out := pw, sock := sock }
          if ok then (true, ctx) else (false, ctx.fail)
      else (true, ctx)
    if ¬ ok then (false, ctx)
    else
      let short := ctx.res.hasLength && !ctx.noBody &&
        decide (ctx.res.bodySent ≠ ctx.res.contentLength)
      (true, { ctx with res := { ctx.res with close := ctx.res.close || short } })

end Ctx

end Ioxd.Http
