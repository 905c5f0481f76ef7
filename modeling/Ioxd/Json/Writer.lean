import Ioxd.Http.Reply

/-!
# The JSON writer

`lib/json/json.c`. The writer's memory is one bit of `has_value` and one of
`is_object` for each level, the depth, and two flags. Its bytes go to the tail
of a sink: memory, the slab of a pipe or the slab of a reply. `snprintf`, which
formats a `double`, is not modelled: the call has the text it gave.
-/

namespace Ioxd.Json

open Ioxd.Pipe
open Ioxd.Http (str)

def runMax : Nat := 1024

def jsonDepth : Nat := 63

-- ---------------------------------------------------------------------------
-- Sinks
-- ---------------------------------------------------------------------------

/-- What the writer asks of a sink: `tail`'s room, `sink_failed`, a copy to the
tail with its `commit`, and the reservation of `make_room`. -/
structure Sink (S : Type) where
  room : S → Nat
  broken : S → Bool
  write : S → List Byte → S
  reserve : S → Nat → Bool × S

/-- A buffer, by what is in it; `null` is a buffer that is not there. -/
structure Memory where
  null : Bool
  cap : Nat
  bytes : List Byte

def Sink.memory : Sink Memory where
  room m := if m.null then 0 else m.cap - m.bytes.length
  broken _ := false
  write m data := { m with bytes := m.bytes ++ data }
  reserve m _ := (false, m)

def writeTail (pw : Pipewriter) (data : List Byte) : Pipewriter :=
  let pw := pw.copyTo pw.at' data
  { pw with len := pw.len + data.length }

def Sink.pipe : Sink (Pipewriter × Socket) where
  room p := p.1.room
  broken p := p.1.failed
  write p data := (writeTail p.1 data, p.2)
  reserve p n :=
    let (off, pw, sock) := p.1.reserve p.2 n
    (off.isSome, pw, sock)

def Sink.reply : Sink Http.Ctx where
  room ctx := ctx.out.room
  broken ctx := ctx.out.failed || ctx.res.failed
  write ctx data := { ctx with out := writeTail ctx.out data }
  reserve ctx n :=
    let (off, ctx) := ctx.reserve n
    (off.isSome, ctx)

-- ---------------------------------------------------------------------------
-- Putting bytes
-- ---------------------------------------------------------------------------

structure Writer (S : Type) where
  sink : S
  hasValue : BitVec 64
  isObject : BitVec 64
  depth : Nat
  afterKey : Bool
  failed : Bool

namespace Writer

variable {S : Type} (k : Sink S)

def init (sink : S) : Writer S := ⟨sink, 0, 0, 0, false, false⟩

def andThen (r : Bool × Writer S) (rest : Writer S → Bool × Writer S) : Bool × Writer S :=
  match r with
  | (false, j) => (false, j)
  | (true, j) => rest j

def emit (j : Writer S) (data : List Byte) : Writer S := { j with sink := k.write j.sink data }

def makeRoom (j : Writer S) (n : Nat) : Bool × Writer S :=
  let (ok, sink) := k.reserve j.sink n
  (ok, { j with sink := sink, failed := j.failed || !ok })

def want (j : Writer S) (n : Nat) : Bool × Writer S :=
  if k.room j.sink ≥ n ∧ ¬ k.broken j.sink then (true, j) else j.makeRoom k n

/-- The loop of `put`: a turn that goes on copies a byte at least. -/
def putLoop : Nat → Writer S → List Byte → Bool × Writer S
  | 0, j, _ => (true, j)
  | turns + 1, j, p =>
    if p = [] then (true, j)
    else
      andThen
        (if k.room j.sink = 0 ∨ k.broken j.sink then j.makeRoom k (min p.length runMax)
          else (true, j))
        fun j =>
          let n := min p.length (k.room j.sink)
          putLoop turns (j.emit k (p.take n)) (p.drop n)

def put (j : Writer S) (p : List Byte) : Bool × Writer S := j.putLoop k (p.length + 1) p

def needsEscape (c : Byte) : Bool := c < 0x20 || c == 34 || c == 92

def hexDigit (n : Nat) : Byte := (str "0123456789abcdef").getD n 0

/-- The escape that `put_escaped` writes for a byte. -/
def escape (c : Byte) : List Byte :=
  if c = 34 then [92, 34]
  else if c = 92 then [92, 92]
  else if c = 10 then [92, 110]
  else if c = 13 then [92, 114]
  else if c = 9 then [92, 116]
  else if c = 8 then [92, 98]
  else if c = 12 then [92, 102]
  else [92, 117, 48, 48, hexDigit (c.toNat / 16), hexDigit (c.toNat % 16)]

def putEscapedLoop : Nat → Writer S → List Byte → Bool × Writer S
  | 0, j, _ => (true, j)
  | turns + 1, j, p =>
    if p = [] then (true, j)
    else
      let run := p.takeWhile (!needsEscape ·)
      andThen (if run ≠ [] then j.put k run else (true, j)) fun j =>
        match p.drop run.length with
        | [] => (true, j)
        | c :: rest => andThen (j.put k (escape c)) fun j => putEscapedLoop turns j rest

def putEscaped (j : Writer S) (p : List Byte) : Bool × Writer S :=
  j.putEscapedLoop k (p.length + 1) p

def comma (lead : Bool) : List Byte := if lead then [44] else []

/-- `put_string`; `after` is the byte behind the closing quote, if there is one. -/
def putString (j : Writer S) (lead : Bool) (p : List Byte) (after : List Byte) :
    Bool × Writer S :=
  let need := (comma lead).length + p.length + 2 + after.length
  if (need ≤ runMax ∧ p.all (!needsEscape ·)) ∧ need ≤ k.room j.sink ∧ ¬ k.broken j.sink then
    (true, j.emit k (comma lead ++ 34 :: p ++ 34 :: after))
  else
    andThen (if lead then j.put k [44] else (true, j)) fun j =>
      andThen (j.put k [34]) fun j =>
        andThen (j.putEscaped k p) fun j =>
          andThen (j.put k [34]) fun j => if after = [] then (true, j) else j.put k after

-- ---------------------------------------------------------------------------
-- Levels
-- ---------------------------------------------------------------------------

def bit (j : Writer S) : BitVec 64 := 1#64 <<< j.depth

/-- `value_lead`: whether a comma is due, or `none` for its -1. -/
def valueLead (j : Writer S) : Option Bool × Writer S :=
  if j.failed then (none, j)
  else if j.afterKey then (some false, { j with afterKey := false })
  else if j.isObject &&& j.bit ≠ 0 then (none, { j with failed := true })
  else if j.hasValue &&& j.bit ≠ 0 then (some true, j)
  else (some false, { j with hasValue := j.hasValue ||| j.bit })

def putValue (j : Writer S) (p : List Byte) : Bool × Writer S :=
  match j.valueLead with
  | (none, j) => (false, j)
  | (some lead, j) =>
    andThen (j.want k ((comma lead).length + p.length)) fun j =>
      (true, j.emit k (comma lead ++ p))

def openLevel (j : Writer S) (object : Bool) : Bool × Writer S :=
  if j.failed then (false, j)
  else if j.depth = jsonDepth then (false, { j with failed := true })
  else
    match j.valueLead with
    | (none, j) => (false, j)
    | (some lead, j) =>
      let j := { j with depth := j.depth + 1 }
      let j := { j with
        hasValue := j.hasValue &&& ~~~j.bit
        isObject := if object then j.isObject ||| j.bit else j.isObject &&& ~~~j.bit }
      andThen (j.want k ((comma lead).length + 1)) fun j =>
        (true, j.emit k (comma lead ++ [if object then 123 else 91]))

def endLevel (j : Writer S) : Bool × Writer S :=
  if j.failed then (false, j)
  else if j.depth = 0 ∨ j.afterKey then (false, { j with failed := true })
  else
    let object := j.isObject &&& j.bit ≠ 0
    let j := { j with depth := j.depth - 1 }
    andThen (j.want k 1) fun j => (true, j.emit k [if object then 125 else 93])

def done (j : Writer S) : Bool := !j.failed && j.depth == 0

def keyN (j : Writer S) (name : List Byte) : Bool × Writer S :=
  if j.failed then (false, j)
  else if ¬ j.isObject &&& j.bit ≠ 0 ∨ j.afterKey then (false, { j with failed := true })
  else
    let lead := j.hasValue &&& j.bit ≠ 0
    let j := { j with hasValue := j.hasValue ||| j.bit }
    andThen (j.putString k lead name [58]) fun j => (true, { j with afterKey := true })

def string (j : Writer S) (s : List Byte) : Bool × Writer S :=
  match j.valueLead with
  | (none, j) => (false, j)
  | (some lead, j) => j.putString k lead s []

def digits (v : Nat) : List Byte := Http.putDigits 10 (fun d => UInt8.ofNat (48 + d)) 24 v

def uint (j : Writer S) (v : UInt64) : Bool × Writer S := j.putValue k (digits v.toNat)

def magnitude (v : Int) : Nat := if v < 0 then (-(v + 1)).toNat + 1 else v.toNat

def intText (v : Int64) : List Byte :=
  if v.toInt < 0 then 45 :: digits (magnitude v.toInt) else digits (magnitude v.toInt)

def int (j : Writer S) (v : Int64) : Bool × Writer S := j.putValue k (intText v)

def bool (j : Writer S) (v : Bool) : Bool × Writer S :=
  j.putValue k (if v then str "true" else str "false")

def null (j : Writer S) : Bool × Writer S := j.putValue k (str "null")

/-- `double` and `float` of a finite value; `none` is a text that did not fit. -/
def number (j : Writer S) (text : Option (List Byte)) : Bool × Writer S :=
  match text with
  | none => (false, { j with failed := true })
  | some text => j.putValue k text

def raw (j : Writer S) (json : List Byte) : Bool × Writer S :=
  if json = [] then (false, { j with failed := true })
  else
    match j.valueLead with
    | (none, j) => (false, j)
    | (some lead, j) =>
      andThen (if lead then j.put k [44] else (true, j)) fun j => j.put k json

/-- The calls of a writer. `ioxd_json_cstr` is a `string` or a `null`, and so is a
`double` that is not finite. -/
inductive Call
  | object
  | array
  | endLevel
  | key (name : List Byte)
  | string (s : List Byte)
  | int (v : Int64)
  | uint (v : UInt64)
  | bool (v : Bool)
  | null
  | number (text : Option (List Byte))
  | raw (json : List Byte)

def call (j : Writer S) : Call → Bool × Writer S
  | .object => j.openLevel k true
  | .array => j.openLevel k false
  | .endLevel => j.endLevel k
  | .key name => j.keyN k name
  | .string s => j.string k s
  | .int v => j.int k v
  | .uint v => j.uint k v
  | .bool v => j.bool k v
  | .null => j.null k
  | .number text => j.number k text
  | .raw json => j.raw k json

/-- The calls in order, and whether every one returned true. -/
def run (j : Writer S) : List Call → Bool × Writer S
  | [] => (true, j)
  | c :: cs =>
    let (ok, j) := j.call k c
    let (oks, j) := run j cs
    (ok && oks, j)

end Writer

end Ioxd.Json
