import Mathlib.Data.List.DropRight
import Ioxd.Lib.Growing
import Ioxd.Http.Serve

/-!
# The request parser

`phr_parse_request` of `third_party/picohttpparser/picohttpparser.c` and what
it calls, on the bytes from `buf` to `buf_end`. A function that moves `buf` is
a parser of them; -1 and -2 in `ret` are its two stops. `sse` says which of the
two builds this is: with SSE4.2 the bytes are searched sixteen at a time.
-/

namespace Ioxd.Http

open Growing
open Ioxd.Pipe (Byte)

deriving instance DecidableEq for ParsedHead, Parsed

/-- `IOXD_MAX_HEADERS`. -/
def maxHeaders : Nat := 64

namespace Phr

def isPrintableAscii (c : Byte) : Bool := 0o40 ≤ c && c < 0o177

def tokenCharMap : List Nat := List.flatten
  [[0, 0, 0, 0, 0, 0, 0, 0, 0, 0, 0, 0, 0, 0, 0, 0, 0, 0, 0, 0, 0, 0, 0, 0, 0, 0, 0, 0, 0, 0, 0, 0],
   [0, 1, 0, 1, 1, 1, 1, 1, 0, 0, 1, 1, 0, 1, 1, 0, 1, 1, 1, 1, 1, 1, 1, 1, 1, 1, 0, 0, 0, 0, 0, 0],
   [0, 1, 1, 1, 1, 1, 1, 1, 1, 1, 1, 1, 1, 1, 1, 1, 1, 1, 1, 1, 1, 1, 1, 1, 1, 1, 1, 0, 0, 0, 1, 1],
   [1, 1, 1, 1, 1, 1, 1, 1, 1, 1, 1, 1, 1, 1, 1, 1, 1, 1, 1, 1, 1, 1, 1, 1, 1, 1, 1, 0, 1, 0, 1, 0],
   .replicate 32 0, .replicate 32 0, .replicate 32 0, .replicate 32 0]

def isTokenChar (c : Byte) : Bool := tokenCharMap.getD c.toNat 0 != 0

def isPad (c : Byte) : Bool := c == 32 || c == 9

def isCtl (c : Byte) : Bool := !isPrintableAscii c && ((c < 0o40 && c != 9) || c == 0o177)

-- ---------------------------------------------------------------------------
-- Searching a block at a time
-- ---------------------------------------------------------------------------

abbrev Ranges := List (Byte × Byte)

def Ranges.has (ranges : Ranges) (c : Byte) : Bool := ranges.any fun x => x.1 ≤ c && c ≤ x.2

/-- `_mm_cmpestri` with `_SIDD_CMP_RANGES`: the first byte in a range, or 16. -/
def cmpestri (ranges : Ranges) (block : List Byte) : Nat := block.findIdx ranges.has

def findcharBlocks (ranges : Ranges) : Nat → List Byte → Nat × Bool
  | 0, _ => (0, false)
  | left + 1, buf =>
    let r := cmpestri ranges (buf.take 16)
    if r ≠ 16 then (r, true)
    else
      let (n, found) := findcharBlocks ranges left (buf.drop 16)
      (16 + n, found)

/-- How far `buf` moves, and `found`. -/
def findcharFast (sse : Bool) (ranges : Ranges) (buf : List Byte) : Nat × Bool :=
  if sse ∧ buf.length ≥ 16 then findcharBlocks ranges (buf.length / 16) buf else (0, false)

-- ---------------------------------------------------------------------------
-- Line ends
-- ---------------------------------------------------------------------------

def expectChar (ch : Byte) : Parse Byte Unit := do
  let c ← next
  if c = ch then pure () else throw .bad

/-- A CRLF or a LF, if `buf` is at one. -/
def lineEnd : Parse Byte Bool := do
  let c ← peek
  if c = 13 then do
    let _ ← next
    expectChar 10
    pure true
  else if c = 10 then do
    let _ ← next
    pure true
  else pure false

def completeLoop (retCnt : Nat) : List Byte → Except Stop (List Byte)
  | [] => .error .partly
  | c :: buf =>
    if c = 13 then
      match buf with
      | [] => .error .partly
      | d :: buf =>
        if d ≠ 10 then .error .bad
        else if retCnt + 1 = 2 then .ok buf else completeLoop (retCnt + 1) buf
    else if c = 10 then
      if retCnt + 1 = 2 then .ok buf else completeLoop (retCnt + 1) buf
    else completeLoop 0 buf

def isComplete (lastLen : Nat) (buf : List Byte) : Except Stop (List Byte) :=
  completeLoop 0 (if lastLen < 3 then buf else buf.drop (lastLen - 3))

-- ---------------------------------------------------------------------------
-- Tokens and text
-- ---------------------------------------------------------------------------

def ranges1 : Ranges := [(0, 0o10), (0o12, 0o37), (0o177, 0o177)]

/-- The eight `DOIT` of a turn: how far the printable bytes go. -/
def doits (buf : List Byte) : Nat := (buf.take 8).findIdx fun c => !isPrintableAscii c

/-- The loop of a build without SSE4.2: how far `buf` moves, and whether it is
at `FOUND_CTL`. -/
def eights : Nat → List Byte → Nat × Bool
  | 0, _ => (0, false)
  | turns + 1, buf =>
    if buf.length < 8 then (0, false)
    else
      let r := doits buf
      if r = 8 then
        let (n, found) := eights turns (buf.drop 8)
        (8 + n, found)
      else if (buf.drop r).head?.any isCtl then (r, true)
      else
        let (n, found) := eights turns (buf.drop (r + 1))
        (r + 1 + n, found)

/-- The code at `FOUND_CTL`. -/
def foundCtl (token : List Byte) : Parse Byte (List Byte) := do
  let ended ← lineEnd
  if ended then pure token else throw .bad

def getTokenToEol (sse : Bool) : Parse Byte (List Byte) := fun buf =>
  let (n, found) := if sse then findcharFast sse ranges1 buf else eights buf.length buf
  if found then foundCtl (buf.take n) (buf.drop n)
  else
    match spanTo isCtl (fun _ => false) (buf.drop n) with
    | .error e => .error e
    | .ok (token, buf') => foundCtl (buf.take n ++ token) buf'

/-- A search, and from where it stops the slow loop over a token. -/
def slowFrom (n : Nat) (found : Bool) (stop bad : Byte → Bool) : Parse Byte (List Byte) :=
  fun buf =>
  if !found && (buf.drop n).isEmpty then .error .partly
  else (spanTo stop bad (buf.drop n)).map fun x => (buf.take n ++ x.1, x.2)

/-- The ranges of `parse_token`. -/
def tokenRanges : Ranges :=
  [(0, 32), (0x22, 0x22), (0x28, 0x29), (0x2c, 0x2c), (0x2f, 0x2f), (0x3a, 0x40), (0x5b, 0x5d),
   (0x7b, 0xff)]

def parseToken (sse : Bool) (nextChar : Byte) : Parse Byte (List Byte) := fun buf =>
  let (n, found) := findcharFast sse tokenRanges buf
  slowFrom n found (· == nextChar) (fun c => !isTokenChar c) buf

def ranges2 : Ranges := [(0, 0o40), (0o177, 0o177)]

/-- `ADVANCE_TOKEN`. -/
def advanceToken (sse : Bool) : Parse Byte (List Byte) := fun buf =>
  let (n, found) := findcharFast sse ranges2 buf
  slowFrom n found (· == 32)
    (fun c => !isPrintableAscii c && (c < 0o40 || c == 0o177)) buf

-- ---------------------------------------------------------------------------
-- The request
-- ---------------------------------------------------------------------------

def expectChars : List Byte → Parse Byte Unit
  | [] => pure ()
  | ch :: chs => do
    expectChar ch
    expectChars chs

def parseHttpVersion : Parse Byte Nat := do
  atLeast 9
  expectChars (str "HTTP/1.")
  let c ← next
  if c < 48 ∨ 57 < c then throw .bad else pure (c.toNat - 48)

/-- One turn of the loop in `parse_headers`. -/
def parseHeader (sse : Bool) (numHeaders : Nat) : Parse Byte Header := do
  let c ← peek
  if numHeaders ≠ 0 ∧ isPad c then do
    let value ← getTokenToEol sse
    pure ⟨none, value.rdropWhile isPad⟩
  else do
    let name ← parseToken sse 58
    if name = [] then throw .bad
    else do
      let _ ← next
      skipWhile isPad
      let value ← getTokenToEol sse
      pure ⟨some name, value.rdropWhile isPad⟩

/-- `parse_headers` with room for so many more. -/
def parseHeaders (sse : Bool) (numHeaders : Nat) : Nat → Parse Byte (List Header)
  | 0 => do
    let ended ← lineEnd
    if ended then pure [] else throw .bad
  | room + 1 => do
    let ended ← lineEnd
    if ended then pure []
    else do
      let header ← parseHeader sse numHeaders
      let headers ← parseHeaders sse (numHeaders + 1) room
      pure (header :: headers)

/-- `do ++buf while (*buf == ' ')`. -/
def skipSpaces : Parse Byte Unit := do
  let _ ← next
  skipWhile (· == 32)

def parseRequest (sse : Bool) (max : Nat) : Parse Byte ParsedHead := do
  let _ ← lineEnd
  let method ← parseToken sse 32
  skipSpaces
  let path ← advanceToken sse
  skipSpaces
  if method = [] ∨ path = [] then throw .bad
  else do
    let minorVersion ← parseHttpVersion
    let ended ← lineEnd
    if ended then do
      let headers ← parseHeaders sse 0 max
      pure ⟨method, path, minorVersion, headers⟩
    else throw .bad

end Phr

open Phr

def Parsed.of (len : Nat) : Except Stop (ParsedHead × List Byte) → Parsed
  | .ok (found, rest) => .head (len - rest.length) found
  | .error .bad => .bad
  | .error .partly => .partly

def phrParseRequest (sse : Bool) : Parser := fun buf lastLen =>
  .of buf.length <|
    if lastLen ≠ 0 then guarded (isComplete lastLen) (parseRequest sse maxHeaders) buf
    else parseRequest sse maxHeaders buf

end Ioxd.Http
