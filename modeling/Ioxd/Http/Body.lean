import Ioxd.Http.Reply

/-!
# Reading a body

The reading half of `lib/http/engine.c`: the three ways a handler reads the
request's body, fixed or chunked, and the drain of what it left. Each loop
takes its turns from what is left to read, since a turn that goes on consumes
something or fails.
-/

namespace Ioxd.Http

open Flat
open Ioxd.Pipe

def trailerMax : Nat := 4096

/-- `memmem` for a CRLF. -/
def findCrlf : List Byte → Option Nat
  | c :: d :: rest => if c = cr ∧ d = lf then some 0 else (findCrlf (d :: rest)).map (· + 1)
  | _ => none

/-- The hex digits a line starts with: their value and what is behind them;
`none` is a size that does not fit. -/
def readSize : List Byte → Nat → Nat → Option (Nat × Nat × List Byte)
  | [], size, i => some (size, i, [])
  | c :: cs, size, i =>
    match hexval c with
    | none => some (size, i, c :: cs)
    | some digit =>
      if size > sizeMax >>> 4 then none else readSize cs (size <<< 4 ||| digit) (i + 1)

/-- A chunk's size line without its CRLF: the size, if the line is one. -/
def sizeLine (line : List Byte) : Option Nat :=
  match readSize line 0 0 with
  | none => none
  | some (size, i, rest) =>
    let blanks := rest.takeWhile isBlank
    let text := rest.dropWhile isBlank
    let ended := (text = [] ∧ blanks = []) ∨ (text.length > 1 ∧ text.head? = some 59)
    if i = 0 ∨ ¬ ended then none else some size

def firstTwo (live : List Byte) : Option (List Byte) :=
  if live.length ≥ 2 then some (live.take 2) else none

def enough (n : Nat) (live : List Byte) : Option Unit := if live.length < n then none else some ()

namespace Ctx

def bodyFail (ctx : Ctx) (status : Nat) : Ctx :=
  { ctx with bodyErr := status, res := { ctx.res with status := status } }

def bodyBegin (ctx : Ctx) : Bool × Ctx :=
  if ¬ ctx.req.expectContinue ∨ ctx.continueSent ∨ ctx.res.headSent then (true, ctx)
  else
    let ctx := { ctx with continueSent := true }
    let (ok, out, sock) := ctx.out.through ctx.sock (str "HTTP/1.1 100 Continue\r\n\r\n")
    let ctx := { ctx with out := out, sock := sock }
    if ok then (true, ctx) else (false, { ctx with bodyErr := -1 })

/-- More live bytes than were examined; the source's `live` is `ctx.feed.live`
after the call. -/
def bodyBytes (ctx : Ctx) : Bool × Ctx :=
  match ctx.feed.read with
  | (.some, feed) => (true, { ctx with feed := feed })
  | (.error .full, feed) => (false, { ctx with feed := feed }.bodyFail 413)
  | (_, feed) => (false, { ctx with feed := feed, bodyErr := -1 })

/-- The loop of `body_line`, `chunk_end` and `ioxd_body_all`: more bytes until
the live ones are enough for the test, and all of them examined as long as they
are not. `none` is a failure. -/
def scan (test : List Byte → Option α) : Nat → Ctx → Option α × Ctx
  | 0, ctx => (none, ctx)
  | turns + 1, ctx =>
    match ctx.bodyBytes with
    | (false, ctx) => (none, ctx)
    | (true, ctx) =>
      match test ctx.feed.live with
      | some a => (some a, ctx)
      | none => scan test turns { ctx with feed := ctx.feed.examine ctx.feed.live.length }

/-- The length of the line the live bytes start with; `none` is the source's
-1. -/
def bodyLine (ctx : Ctx) : Option Nat × Ctx := scan findCrlf (ctx.feed.left + 2) ctx

def dropBytes (ctx : Ctx) (n : Nat) : Ctx := { ctx with feed := ctx.feed.drop n }

def chunkTrailersLoop : Nat → Nat → Ctx → Bool × Ctx
  | 0, _, ctx => (false, ctx)
  | turns + 1, taken, ctx =>
    match ctx.bodyLine with
    | (none, ctx) => (false, ctx)
    | (some len, ctx) =>
      let taken := taken + len + 2
      if taken > trailerMax then (false, ctx.bodyFail 400)
      else
        let ctx := ctx.dropBytes (len + 2)
        if len = 0 then (true, { ctx with bodyDone := true })
        else chunkTrailersLoop turns taken ctx

def chunkTrailers (ctx : Ctx) : Bool × Ctx := chunkTrailersLoop (trailerMax + 1) 0 ctx

def chunkHeader (ctx : Ctx) : Bool × Ctx :=
  match ctx.bodyLine with
  | (none, ctx) => (false, if ctx.bodyErr = 413 then ctx.bodyFail 400 else ctx)
  | (some len, ctx) =>
    match sizeLine (ctx.feed.live.take len) with
    | none => (false, ctx.bodyFail 400)
    | some size =>
      let ctx := ctx.dropBytes (len + 2)
      if size = 0 then ctx.chunkTrailers else (true, { ctx with chunkLeft := size })

def chunkEnd (ctx : Ctx) : Bool × Ctx :=
  match scan firstTwo (ctx.feed.left + 2) ctx with
  | (none, ctx) => (false, ctx)
  | (some two, ctx) => if two = crlf then (true, ctx.dropBytes 2) else (false, ctx.bodyFail 400)

-- ---------------------------------------------------------------------------
-- The whole body
-- ---------------------------------------------------------------------------

def keepChunk (ctx : Ctx) : Bool × Ctx :=
  match ctx.bodyBytes with
  | (false, ctx) => (false, ctx)
  | (true, ctx) =>
    let n := min ctx.feed.live.length ctx.chunkLeft
    match ctx.feed.keep n with
    | (.null, feed) => (false, { ctx with feed := feed }.bodyFail 413)
    | (_, feed) =>
      let ctx := { ctx with
        feed := feed
        chunkLeft := ctx.chunkLeft - n
        bodyRead := ctx.bodyRead + n }
      if ctx.chunkLeft = 0 then ctx.chunkEnd else (true, ctx)

def allChunksLoop : Nat → Ctx → Bool × Ctx
  | 0, ctx => (false, ctx)
  | turns + 1, ctx =>
    if ctx.bodyDone then (true, ctx)
    else
      match if ctx.chunkLeft = 0 then ctx.chunkHeader else ctx.keepChunk with
      | (false, ctx) => (false, ctx)
      | (true, ctx) => allChunksLoop turns ctx

def noSlice : Slice := ⟨.null, 0⟩

def wholeBody (ctx : Ctx) (body : Slice) : Slice × Ctx :=
  (body, { ctx with req := { ctx.req with body := body }, bodyWhole := true })

def allChunked (ctx : Ctx) : Slice × Ctx :=
  match allChunksLoop (ctx.feed.stream.length + 2) ctx with
  | (false, ctx) => (noSlice, ctx)
  | (true, ctx) => ctx.wholeBody (Reader.run ctx.feed.pr)

def allFixed (ctx : Ctx) : Slice × Ctx :=
  if ctx.req.contentLength > ctx.feed.pr.cap then (noSlice, ctx.bodyFail 413)
  else if ctx.req.contentLength = 0 then
    { ctx with bodyRead := 0, bodyDone := true }.wholeBody noSlice
  else
    match scan (enough ctx.req.contentLength) (ctx.feed.left + 2) ctx with
    | (none, ctx) => (noSlice, ctx)
    | (some _, ctx) =>
      match ctx.feed.keep ctx.req.contentLength with
      | (.null, feed) => (noSlice, { ctx with feed := feed }.bodyFail 413)
      | (kept, feed) =>
        { ctx with
          feed := feed
          bodyRead := ctx.req.contentLength
          bodyDone := true }.wholeBody ⟨kept, ctx.req.contentLength⟩

def bodyAll (ctx : Ctx) : Slice × Ctx :=
  if ctx.bodyWhole then (ctx.req.body, ctx)
  else if ctx.bodyRead ≠ 0 ∨ ctx.bodyErr ≠ 0 then (noSlice, ctx)
  else
    match if ctx.bodyDone then (true, ctx) else ctx.bodyBegin with
    | (false, ctx) => (noSlice, ctx)
    | (true, ctx) => if ctx.req.chunked then ctx.allChunked else ctx.allFixed

-- ---------------------------------------------------------------------------
-- The body in pieces
-- ---------------------------------------------------------------------------

/-- `fixed_data`: the bytes copied, none on a failure. -/
def fixedData (ctx : Ctx) (n : Nat) : Option (List Byte) × Ctx :=
  let n := min n (ctx.req.contentLength - ctx.bodyRead)
  match ctx.feed.copy n with
  | (.some, data, feed) =>
    let bodyRead := ctx.bodyRead + data.length
    (some data, { ctx with
      feed := feed
      bodyRead := bodyRead
      bodyDone := ctx.bodyDone || decide (bodyRead = ctx.req.contentLength) })
  | (_, _, feed) => (none, { ctx with feed := feed, bodyErr := -1 })

/-- `chunk_data`: what a missing CRLF behind the chunk makes of it, the bytes
that were copied are reported all the same. -/
def chunkData (ctx : Ctx) (n : Nat) : Option (List Byte) × Ctx :=
  let n := min n ctx.chunkLeft
  match ctx.feed.copy n with
  | (.some, data, feed) =>
    let ctx := { ctx with
      feed := feed
      chunkLeft := ctx.chunkLeft - data.length
      bodyRead := ctx.bodyRead + data.length }
    if ctx.chunkLeft = 0 then (some data, ctx.chunkEnd.2) else (some data, ctx)
  | (_, _, feed) => (none, { ctx with feed := feed, bodyErr := -1 })

/-- One turn of the loop of `ioxd_body_read_until`. -/
def readTurn (ctx : Ctx) (n : Nat) : Option (List Byte) × Ctx :=
  if ¬ ctx.req.chunked then ctx.fixedData n
  else if ctx.chunkLeft = 0 then
    match ctx.chunkHeader with
    | (true, ctx) => (some [], ctx)
    | (false, ctx) => (none, ctx)
  else ctx.chunkData n

/-- The loop of `ioxd_body_read_until`. What was copied to `dst` is there
whether the call fails or not; the flag is its result, -1 or the count. -/
def readUntilLoop : Nat → Ctx → Nat → List Byte → Bool × List Byte × Ctx
  | 0, ctx, _, dst => (true, dst, ctx)
  | turns + 1, ctx, n, dst =>
    if dst.length < n ∧ ¬ ctx.bodyDone then
      match ctx.readTurn (n - dst.length) with
      | (none, ctx) => (false, dst, ctx)
      | (some data, ctx) => readUntilLoop turns ctx n (dst ++ data)
    else (true, dst, ctx)

def bodyReadUntil (ctx : Ctx) (n : Nat) : Bool × List Byte × Ctx :=
  if ctx.bodyErr ≠ 0 then (false, [], ctx)
  else if n = 0 ∨ ctx.bodyDone then (true, [], ctx)
  else
    match ctx.bodyBegin with
    | (false, ctx) => (false, [], ctx)
    | (true, ctx) => readUntilLoop (ctx.feed.stream.length + 2) ctx (min n intMax) []

def nextChunkLoop : Nat → Ctx → Nat → List Byte → Bool × List Byte × Ctx
  | 0, ctx, _, dst => (true, dst, ctx)
  | turns + 1, ctx, want, dst =>
    if dst.length < want then
      match ctx.chunkData (want - dst.length) with
      | (none, ctx) => (false, dst, ctx)
      | (some data, ctx) => nextChunkLoop turns ctx want (dst ++ data)
    else (true, dst, ctx)

/-- `ioxd_body_read_next_chunk` once it is in a chunk. -/
def restOfChunk (ctx : Ctx) (cap : Nat) : Bool × List Byte × Ctx :=
  if ctx.chunkLeft > cap ∨ cap > intMax then (false, [], ctx.bodyFail 413)
  else nextChunkLoop (ctx.chunkLeft + 1) ctx ctx.chunkLeft []

def bodyReadNextChunk (ctx : Ctx) (cap : Nat) : Bool × List Byte × Ctx :=
  if ctx.bodyErr ≠ 0 ∨ ¬ ctx.req.chunked then (false, [], ctx)
  else if ctx.bodyDone then (true, [], ctx)
  else
    match ctx.bodyBegin with
    | (false, ctx) => (false, [], ctx)
    | (true, ctx) =>
      if ctx.chunkLeft = 0 then
        match ctx.chunkHeader with
        | (false, ctx) => (false, [], ctx)
        | (true, ctx) => if ctx.bodyDone then (true, [], ctx) else ctx.restOfChunk cap
      else ctx.restOfChunk cap

/-- A drain with its `tmp` of 4096 bytes. -/
def drainLoop : Nat → Ctx → Nat → Ctx
  | 0, ctx, _ => ctx
  | turns + 1, ctx, drained =>
    if ctx.bodyDone ∨ ctx.bodyErr ≠ 0 then ctx
    else if drained ≥ drainMax then { ctx with res := { ctx.res with close := true } }
    else
      let (ok, data, ctx) := ctx.bodyReadUntil 4096
      if ¬ ok ∨ data = [] then ctx else drainLoop turns ctx (drained + data.length)

def drainBody (ctx : Ctx) : Ctx := drainLoop (ctx.feed.stream.length + 2) ctx 0

end Ctx

end Ioxd.Http
