import Ioxd.Files.Asked

/-!
# Files served from a table

`serve` of `lib/http/static.c` as a worker runs it: a request goes up to its
disk reads or its write and is suspended there, and any other may go on. What
the kernel answers comes with the step: the clock, `fstatat` and `openat`, the
bytes read, the memory. The pieces of one read are one step, since nothing
between two of them looks at the table.
-/

namespace Ioxd.Files

open Ioxd.Pipe (Byte)
open Ioxd.Http (str)

structure Config where
  budget : Nat
  fileMax : Nat
  revalidate : UInt64
  precompressed : Bool
  index : List Byte

/-- What a name is to `openat` and `fstat`. -/
inductive Node
  | regular (stat : Stat)
  | directory
  | other

/-- The answers to a request that arrives: the clock, `fstatat` of a regular
file, `openat` with `fstat`, and whether `load` gets its memory. -/
structure Disk where
  now : UInt64
  fstatat : List Byte → Option Stat
  openat : List Byte → Option Node
  memory : Bool

/-- A worker with the requests that are suspended: in `load`, with the entry it
fills, and in `ioxd_write`, with the entry it reads from. Nothing reads `clock`
and `stamp`, which say when an entry was last inserted or touched. -/
structure State where
  table : Table
  next : Ptr
  loading : List (Ptr × Request)
  writing : List Ptr
  clock : Nat
  stamp : Ptr → Nat

def State.init (cfg : Config) : State where
  table :=
    { heap := fun _ => none, buckets := List.replicate 64 none, count := 0, newest := none,
      oldest := none, bytes := 0, budget := cfg.budget }
  next := 0
  loading := []
  writing := []
  clock := 0
  stamp := fun _ => 0

def nameCap : Nat := 1024

/-- `open_file`: the name, with the index behind it if it is of a directory, and
the `stat` of a regular file. -/
def openFile (cfg : Config) (disk : Disk) (name : List Byte) : Option (List Byte × Stat) :=
  match disk.openat name with
  | some (.regular stat) => some (name, stat)
  | some .directory =>
    if cfg.index = [] ∨ name.length + 1 + cfg.index.length ≥ nameCap then none
    else
      let name := name ++ str "/" ++ cfg.index
      match disk.openat name with
      | some (.regular stat) => some (name, stat)
      | _ => none
  | _ => none

namespace State

def mark (s : State) (p : Ptr) : State :=
  { s with clock := s.clock + 1, stamp := Function.update s.stamp p (s.clock + 1) }

/-- `reply` up to its write, where it is suspended. -/
def reply (s : State) (req : Request) (p : Ptr) : Option State := do
  let e ← s.table.heap p
  match req.body e with
  | none => some s
  | some _ =>
    let table ← s.table.modify p fun e => { e with refs := e.refs + 1 }
    some { s with table := table, writing := p :: s.writing }

/-- `current`: whether the entry may be served, and when it was looked at. -/
def current (s : State) (cfg : Config) (disk : Disk) (p : Ptr) : Option (Bool × State) := do
  let e ← s.table.heap p
  if cfg.revalidate ≠ 0 ∧ disk.now - e.checkedAt < cfg.revalidate then some (true, s)
  else
    let checkedAt := if cfg.revalidate ≠ 0 then disk.now else e.checkedAt
    let table ← s.table.modify p fun e => { e with checkedAt := checkedAt }
    some (disk.fstatat e.name == some e.stat, { s with table := table })

/-- An entry that `lookup` has found: served if it is current, else dropped. -/
def found (s : State) (cfg : Config) (disk : Disk) (req : Request) (p : Ptr)
    (stale : State → Option State) : Option State := do
  let (fresh, s) ← s.current cfg disk p
  if fresh then
    let table ← s.table.touch p
    ({ s with table := table }.mark p).reply req p
  else
    let table ← s.table.drop p
    stale { s with table := table }

/-- `load` up to its reads. -/
def beginLoad (s : State) (cfg : Config) (disk : Disk) (req : Request) (name : List Byte)
    (stat : Stat) : State :=
  if ¬ disk.memory then s
  else
    let e : Entry :=
      { chain := none, newer := none, older := none, name := name, hash := hashOf name, stat := stat,
        v := fun _ => none, bytes := 0,
        checkedAt := if cfg.revalidate ≠ 0 then disk.now else 0, refs := 0, dropped := false }
    { s with
      table := { s.table with heap := Function.update s.table.heap s.next (some e) }
      next := s.next + 1
      loading := (s.next, req) :: s.loading }

/-- A file that is opened: a large one is streamed past the table. -/
def opened (s : State) (cfg : Config) (disk : Disk) (req : Request) (name : List Byte)
    (stat : Stat) : Option State :=
  if stat.size > cfg.fileMax then some s else some (s.beginLoad cfg disk req name stat)

/-- A name that the table does not hold. The one that `open_file` leaves is
looked up if it is another. -/
def miss (cfg : Config) (disk : Disk) (req : Request) (asked : List Byte) (s : State) :
    Option State :=
  match openFile cfg disk asked with
  | none => some s
  | some (name, stat) => do
    let e ← (if name.length ≠ asked.length then s.table.lookup name (hashOf name) else some none)
    match e with
    | some p => s.found cfg disk req p fun s => s.opened cfg disk req name stat
    | none => s.opened cfg disk req name stat

def serve (s : State) (cfg : Config) (disk : Disk) (req : Request) (name : List Byte) :
    Option State :=
  if ¬ req.head ∧ req.method ≠ str "GET" then some s
  else do
    let e ← s.table.lookup name (hashOf name)
    match e with
    | some p => s.found cfg disk req p (miss cfg disk req name)
    | none => miss cfg disk req name s

/-- What `load` has read. -/
structure Content where
  plain : List Byte
  br : Option (List Byte)
  gzip : Option (List Byte)

def Content.v (c : Content) : Variant → Option (List Byte)
  | .plain => some c.plain
  | .br => c.br
  | .gzip => c.gzip

def Content.bytes (c : Content) : Nat :=
  c.plain.length + (c.br.getD []).length + (c.gzip.getD []).length

/-- The table that `load` inserts into: the entry filled, and room made. -/
def roomFor (s : State) (p : Ptr) (c : Content) : Option Table := do
  let table ← s.table.modify p fun e => { e with v := c.v, bytes := c.bytes }
  table.makeRoom c.bytes

/-- `load` with its bytes, up to its return. -/
def keep (s : State) (p : Ptr) (c : Content) (room : Bool) : Option State := do
  if c.bytes ≤ s.table.budget then
    let table ← s.roomFor p c
    let table ← table.insert p room
    some ({ s with table := table }.mark p)
  else
    let table ← s.table.modify p fun e => { e with v := c.v, bytes := c.bytes, dropped := true }
    some { s with table := table }

/-- The rest of `serve` once the reads are over; they have failed if there is
nothing. -/
def loaded (s : State) (p : Ptr) (req : Request) (c : Option Content) (room : Bool) :
    Option State :=
  let s := { s with loading := s.loading.filter (·.1 ≠ p) }
  match c with
  | none => do
    let table ← s.table.entryFree p
    some { s with table := table }
  | some c => do
    let s ← s.keep p c room
    s.reply req p

/-- The end of a reply whose write is over, or has failed. -/
def written (s : State) (p : Ptr) : Option State := do
  let table ← s.table.release p
  some { s with table := table, writing := s.writing.erase p }

end State

inductive Act
  | serve (req : Request) (name : List Byte) (disk : Disk)
  | loaded (p : Ptr) (c : Option State.Content) (room : Bool)
  | written (p : Ptr)

/-- `read_whole` fills what `fstat` has said, and a twin is read only if it is
asked for and not too large. -/
def State.Content.fits (c : State.Content) (cfg : Config) (stat : Stat) : Bool :=
  c.plain.length == stat.size &&
    [c.br, c.gzip].all fun twin =>
      twin.all fun data => cfg.precompressed && data.length ≤ cfg.fileMax

/-- What can happen next: a request at any time, the end of reads or of a write
that is under way. -/
def enabled (cfg : Config) (s : State) : Act → Bool
  | .serve .. => true
  | .loaded p c _ => s.loading.any fun task => task.1 == p &&
      c.all fun c => (s.table.heap p).all fun e => c.fits cfg e.stat
  | .written p => s.writing.contains p

/-- One step of the worker; nothing is what C leaves undefined. -/
def step (cfg : Config) (s : State) : Act → Option State
  | .serve req name disk => s.serve cfg disk req name
  | .loaded p c room => do
    let task ← s.loading.find? (·.1 == p)
    s.loaded p task.2 c room
  | .written p => s.written p

end Ioxd.Files
