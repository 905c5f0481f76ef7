import Ioxd.Pipe.ReaderLaws

/-!
# The reader on its connection

The reads that wait: `more`, `read`, `copy` and `avail` of `lib/io/pipe.c`
over `ioxd__conn_recv_item` of `lib/io/conn.c`. A `Feed` is a reader with the
queue it pops and the script of what the world will do: buffers the kernel
delivers, buffers it or another connection overwrites, the end of the input.
While the reader waits the script runs; a script that has run out is a peer
that sends nothing more.

The kernel writes only into a buffer that is not out to this reader: one it
never delivered here, or got back as often as it delivered it. So a byte that
was read from a returned buffer would be any byte at all.
-/

namespace Ioxd.Pipe

open Flat

/-- What happens to the connection while its coroutine waits, or between two
calls. -/
inductive Event
  | deliver (bufId : Nat) (data : List Byte)
  | scribble (bufId : Nat) (m : Mem Byte)
  | fin (gone : Bool)

/-- A queued buffer, with the bytes the kernel put into it. -/
structure Delivery where
  item : RxItem
  data : List Byte

/-- `eof` is `conn->eof`, `gone` whether `conn->err` is negative. `got` and
`taken` are history: the ids delivered so far, and the bytes of every buffer
popped and of every injection, in order. -/
structure Feed extends Reader where
  rx : List Delivery
  eof : Bool
  gone : Bool
  script : List Event
  got : List Nat
  taken : List Byte

/-- What `read`, `copy` and `avail` return: 1, 0, or the error. -/
inductive Rc
  | some
  | ended
  | error (e : PipeError)
  deriving DecidableEq, Repr

namespace Feed

/-- A connection at its start. -/
def init (buf : Mem Byte) (cap : Nat) (slab : Nat → Mem Byte) (script : List Event) : Feed where
  pr := .init buf cap
  slab := slab
  back := []
  rx := []
  eof := false
  gone := false
  script := script
  got := []
  taken := []

/-- Not out to this reader. -/
def Free (f : Feed) (id : Nat) : Prop := f.got.count id ≤ f.back.count id

instance (f : Feed) (id : Nat) : Decidable (f.Free id) := inferInstanceAs (Decidable (_ ≤ _))

/-- The buffer the kernel picks: the one named if it has it, else one it never
delivered here. -/
def pick (f : Feed) (id : Nat) : Nat := if f.Free id then id else f.got.foldr max 0 + 1

def event (f : Feed) : Event → Feed
  | .deliver id data =>
    if data = [] then f
    else
      { f with
        slab := Function.update f.slab (f.pick id) ((f.slab (f.pick id)).write 0 data)
        rx := f.rx ++ [⟨⟨data.length, f.pick id⟩, data⟩]
        got := f.got ++ [f.pick id] }
  | .scribble id m => if f.Free id then { f with slab := Function.update f.slab id m } else f
  | .fin gone => if f.eof then f else { f with eof := true, gone := gone }

/-- One event of the script, if there is one. -/
def tick (f : Feed) : Feed :=
  match f.script with
  | [] => f
  | e :: es => { f with script := es }.event e

/-- The coroutine parked in `ioxd__conn_recv_item`: the script runs until a
buffer is queued or the input has ended. -/
def wait : List Event → Feed → Feed
  | [], f => { f with script := [] }
  | e :: es, f => if f.rx ≠ [] ∨ f.eof then { f with script := e :: es } else wait es (f.event e)

/-- `ioxd__conn_recv_item`: the next buffer, or `none` at the end. -/
def recvItem (f : Feed) : Option RxItem × Feed :=
  let f := wait f.script f
  match f.rx with
  | d :: rest => (some d.item, { f with rx := rest, taken := f.taken ++ d.data })
  | [] => (none, f)

def more (f : Feed) : Rc × Feed :=
  if f.pr.eof then (.ended, f)
  else
    match f.recvItem with
    | (none, f) =>
      let gone := f.eof && f.gone
      (if gone then .error .gone else .ended, { f with toReader := f.toReader.moreEnded gone })
    | (some item, f) =>
      let (ok, r) := f.toReader.moreItem item
      (if ok then .some else .error .full, { f with toReader := r })

def live (f : Feed) : List Byte := f.toReader.live

/-- The bytes the script will deliver. -/
def arrivals : List Event → List Byte
  | [] => []
  | .deliver _ data :: es => data ++ arrivals es
  | .scribble .. :: es | .fin _ :: es => arrivals es

def coming (f : Feed) : List Byte := f.rx.flatMap (·.data) ++ arrivals f.script

/-- All the bytes the reader can still be asked for. -/
def stream (f : Feed) : List Byte := f.live ++ f.coming

/-- Buffers that can still be taken; every turn of a waiting loop takes one. -/
def left (f : Feed) : Nat := f.rx.length + f.script.length

def readLoop : Nat → Feed → Rc × Feed
  | 0, f => (.ended, f)
  | fuel + 1, f =>
    if f.live.length > f.pr.examined then (.some, f)
    else
      match f.more with
      | (.some, f) => readLoop fuel f
      | (rc, f) => (rc, f)

def read (f : Feed) : Rc × Feed :=
  match f.pr.error with
  | some e => (.error e, f)
  | none => readLoop (f.left + 1) f

def copyLoop (n : Nat) : Nat → Feed → Rc × List Byte × Feed
  | 0, f => (.ended, [], f)
  | fuel + 1, f =>
    if f.live.length ≠ 0 then
      let k := min f.live.length n
      (if k = 0 then .ended else .some, f.live.take k,
        { f with toReader := f.toReader.consume k })
    else
      match f.more with
      | (.some, f) => copyLoop n fuel f
      | (rc, f) => (rc, [], f)

/-- `copy`, with the bytes it put into `dst`. A copy of no bytes reads as the
end, as it does in the source. -/
def copy (f : Feed) (n : Nat) : Rc × List Byte × Feed :=
  match f.pr.error with
  | some e => (.error e, [], f)
  | none => copyLoop n (f.left + 1) f

def availLoop : Nat → Feed → Rc × Feed
  | 0, f => (.ended, f)
  | fuel + 1, f =>
    if f.live.length > f.pr.examined then (.some, f)
    else if f.rx = [] then (.ended, f)
    else
      match f.more with
      | (.some, f) => availLoop fuel f
      | (rc, f) => (rc, f)

def avail (f : Feed) : Rc × Feed :=
  match f.pr.error with
  | some e => (.error e, f)
  | none => availLoop (f.left + 1) f

def examine (f : Feed) (n : Nat) : Feed := { f with toReader := f.toReader.examine n }

def drop (f : Feed) (n : Nat) : Feed := { f with toReader := f.toReader.drop n }

def keep (f : Feed) (n : Nat) : Ptr × Feed :=
  ((f.toReader.keep n).1, { f with toReader := (f.toReader.keep n).2 })

def runBegin (f : Feed) : Feed := { f with toReader := f.toReader.runBegin }

def release (f : Feed) : Feed := { f with toReader := f.toReader.release }

def inject (f : Feed) (data : List Byte) : Bool × Feed :=
  ((f.toReader.inject data).1, { f with
    toReader := (f.toReader.inject data).2
    taken := if (f.toReader.inject data).1 then f.taken ++ data else f.taken })

end Feed

end Ioxd.Pipe
