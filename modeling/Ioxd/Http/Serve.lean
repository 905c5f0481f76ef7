import Ioxd.Http.Body

/-!
# Serving a connection

`read_head`, `after_dispatch` and `ioxd__engine_serve` of `lib/http/engine.c`,
with the flush that `ioxd__pipe_close` of `lib/io/pipe.c` makes when the
engine has returned. A chain of middleware and the handler at its end are the
calls they make on the context, in order; `phr_parse_request` is a parameter.
-/

namespace Ioxd.Http

open Flat
open Ioxd.Pipe

/-- The calls a handler makes. `reserve` is `ioxd_reserve`, and if it gives
room, the bytes put there and their `ioxd_advance`. -/
inductive HandlerOp
  | head (op : HeadOp)
  | write (data : List Byte)
  | reserve (n : Nat) (data : List Byte) (fits : data.length ≤ n)
  | flush
  | onHead (fn : Nat → Bool → List HeadOp)
  | bodyAll
  | bodyReadUntil (n : Nat)
  | bodyReadNextChunk (cap : Nat)
  /-- Not a call: the world moves between two of them. -/
  | tick

namespace Ctx

def reserveOp (ctx : Ctx) (n : Nat) (data : List Byte) : Ctx :=
  match ctx.reserve n with
  | (none, ctx) => ctx
  | (some off, ctx) => { ctx with out := ctx.out.copyTo off data }.advance data.length

def step (ctx : Ctx) : HandlerOp → Ctx
  | .head op => ctx.headOp op
  | .write data => (ctx.write data).2
  | .reserve n data _ => ctx.reserveOp n data
  | .flush => (ctx.flush .asked).2
  | .onHead fn => (ctx.setOnHead fn).2
  | .bodyAll => ctx.bodyAll.2
  | .bodyReadUntil n => (ctx.bodyReadUntil n).2.2
  | .bodyReadNextChunk cap => (ctx.bodyReadNextChunk cap).2.2
  | .tick => { ctx with feed := ctx.feed.tick }

def run (ctx : Ctx) (ops : List HandlerOp) : Ctx := ops.foldl step ctx

/-- What `after_dispatch` does with the rest of the body. -/
def settleBody (ctx : Ctx) : Ctx :=
  if ctx.req.expectContinue ∧ ¬ ctx.continueSent ∧ ¬ ctx.bodyDone then
    { ctx with res := { ctx.res with close := true } }
  else ctx.drainBody

/-- `after_dispatch`; true is its 0, the connection goes on. -/
def afterDispatch (ctx : Ctx) : Bool × Ctx :=
  if ctx.bodyErr ≠ 0 then
    (false, if ctx.bodyErr > 0 ∧ ¬ ctx.res.headSent then ctx.sendStatus ctx.bodyErr.toNat else ctx)
  else
    let ctx := ctx.settleBody
    if ctx.bodyErr ≠ 0 then (false, ctx)
    else
      let (ok, ctx) := ctx.finish
      (ok && ctx.req.keepAlive && !ctx.res.close, ctx)

end Ctx

-- ---------------------------------------------------------------------------
-- The connection
-- ---------------------------------------------------------------------------

/-- What `phr_parse_request` finds in a head. -/
structure ParsedHead where
  method : List Byte
  target : List Byte
  minorVersion : Nat
  headers : List Header

/-- Its result: the head's length, -1 or -2. -/
inductive Parsed
  | head (len : Nat) (found : ParsedHead)
  | bad
  | partly

/-- `phr_parse_request` on the live bytes, given how many of them it has
already seen. -/
abbrev Parser := List Byte → Nat → Parsed

structure Conn where
  feed : Feed
  out : Pipewriter
  sock : Socket

/-- The engine's buffers on the stack, with whatever is in them. -/
structure Scratch where
  head : Mem Byte
  params : Mem Byte
  coded : Mem Byte

def paramCap : Nat := 2048

def isHead (method : List Byte) : Bool := method == str "HEAD"

def sendStatus (conn : Conn) (code : Nat) : Conn :=
  let (_, out, sock) := conn.out.reset.send conn.sock (statusReply code)
  { conn with out := out, sock := sock }

def readHeadLoop (parse : Parser) : Nat → Nat → Conn → Option ParsedHead × Conn
  | 0, _, conn => (none, conn)
  | turns + 1, already, conn =>
    match conn.feed.read with
    | (.ended, feed) => (none, { conn with feed := feed })
    | (.error .full, feed) => (none, sendStatus { conn with feed := feed } 431)
    | (.error .gone, feed) => (none, { conn with feed := feed })
    | (.some, feed) =>
      match parse feed.live already with
      | .head len found =>
        match feed.keep len with
        | (.null, feed) => (none, sendStatus { conn with feed := feed } 431)
        | (_, feed) => (some found, { conn with feed := feed.runBegin })
      | .bad => (none, sendStatus { conn with feed := feed } 400)
      | .partly =>
        readHeadLoop parse turns feed.live.length
          { conn with feed := feed.examine feed.live.length }

def readHead (parse : Parser) (conn : Conn) : Option ParsedHead × Conn :=
  readHeadLoop parse (conn.feed.left + 2) 0 conn

/-- The request before `fill_request`. -/
def Request.parsed (found : ParsedHead) : Request where
  method := found.method
  target := found.target
  path := []
  query := []
  minorVersion := found.minorVersion
  headers := found.headers
  params := []
  contentLength := 0
  chunked := false
  body := ⟨.null, 0⟩
  keepAlive := false
  expectContinue := false

/-- The context a handler is given: `init_body_state` and `init_response`. -/
def Ctx.init (conn : Conn) (req : Request) (scratch : Scratch) : Ctx where
  feed := conn.feed
  out := conn.out.reset
  sock := conn.sock
  req := req
  res := .init scratch.head
  bodyRead := 0
  bodyDone := !req.chunked && req.contentLength == 0
  bodyWhole := false
  bodyErr := 0
  chunkLeft := 0
  headOnly := isHead req.method
  noBody := false
  continueSent := false
  onHead := none
  filter := none
  filterLog := []
  coded := .init scratch.coded pipeLead (pipeCap + codedSlack) pipeSlack

/-- What became of one turn of the engine's loop. -/
inductive Turn
  /-- No request came, or none that could be read. -/
  | ended (conn : Conn)
  | refused (conn : Conn)
  /-- A request was served; the flag says whether another turn follows. -/
  | served (goesOn : Bool) (ctx : Ctx)

def serveTurn (parse : Parser) (scratch : Scratch) (ops : List HandlerOp) (conn : Conn) : Turn :=
  match readHead parse conn with
  | (none, conn) => .ended conn
  | (some found, conn) =>
    let (refused, req, _) := fillRequest (.parsed found) scratch.params paramCap
    if refused ≠ 0 then .refused (sendStatus conn refused)
    else
      let (ok, ctx) := ((Ctx.init conn req scratch).run ops).afterDispatch
      .served ok (if ok then { ctx with feed := ctx.feed.release } else ctx)

/-- `ioxd__engine_serve`, by the handlers that its requests will reach: the
turns it takes, each with the connection as it found it. -/
def serve (parse : Parser) (scratch : Scratch) : List (List HandlerOp) → Conn → List (Conn × Turn)
  | [], _ => []
  | ops :: rest, conn =>
    match serveTurn parse scratch ops conn with
    | .served true ctx =>
      (conn, .served true ctx) :: serve parse scratch rest ⟨ctx.feed, ctx.out, ctx.sock⟩
    | turn => [(conn, turn)]

end Ioxd.Http
