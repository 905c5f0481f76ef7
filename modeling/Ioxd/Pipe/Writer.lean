import Ioxd.Pipe.Reader

/-!
# The pipe's writer

`ioxd_pipewriter` of `lib/io/pipe.h`, its operations in `lib/io/pipe.c`, and
the two sends of `lib/io/conn.c` they end in. The slab is a flat memory with a
lead in front and a slack behind. The socket is what it has accepted so far and
the plan of what the kernel will answer to each send; a plan that has run out
is a kernel that takes all it is given.
-/

namespace Ioxd.Pipe

open Flat

/-- The result of one send: an error, nothing taken, or `k + 1` bytes if there
are as many. -/
inductive Sent
  | error (errno : Nat)
  | none
  | some (k : Nat)
  deriving DecidableEq, Repr

structure Socket where
  wire : List Byte
  plan : List Sent

def epipe : Int := 32

namespace Socket

/-- One send of these bytes: the result as the kernel returns it. It never
takes more than fits its `int`. -/
def take (s : Socket) (data : List Byte) : Int × Socket :=
  match s.plan with
  | .error e :: plan => (-(e + 1), { s with plan := plan })
  | .none :: plan => (0, { s with plan := plan })
  | .some k :: plan =>
    let n := min (k + 1) (min data.length (2 ^ 31 - 1))
    (n, { wire := s.wire ++ data.take n, plan := plan })
  | [] =>
    let n := min data.length (2 ^ 31 - 1)
    (n, { s with wire := s.wire ++ data.take n })

def sendLoop : Nat → Socket → List Byte → Option Int × Socket
  | 0, s, _ => (Option.none, s)
  | fuel + 1, s, left =>
    if left = [] then (Option.none, s)
    else
      let (n, s) := s.take left
      if n < 0 then (some n, s)
      else if n = 0 then (some (-epipe), s)
      else sendLoop fuel s (left.drop n.toNat)

/-- `ioxd__conn_send`: all of `data`, and its length as an `int`. -/
def connSend (s : Socket) (data : List Byte) : Int × Socket :=
  match s.sendLoop (data.length + 1) data with
  | (some e, s) => (e, s)
  | (Option.none, s) => (Int.bmod data.length (2 ^ 32), s)

def past : Nat → List (List Byte) → List (List Byte)
  | _, [] => []
  | left, p :: ps => if left ≥ p.length then past (left - p.length) ps else p.drop left :: ps

def sendvLoop : Nat → Socket → List (List Byte) → Int × Socket
  | 0, s, _ => (0, s)
  | fuel + 1, s, iov =>
    if iov = [] then (0, s)
    else
      let (n, s) := s.take iov.flatten
      if n < 0 then (n, s)
      else if n = 0 then (-epipe, s)
      else sendvLoop fuel s (past n.toNat iov)

/-- `ioxd__conn_sendv`: all of the pieces, and 0. -/
def connSendv (s : Socket) (iov : List (List Byte)) : Int × Socket :=
  s.sendvLoop (iov.flatten.length + 1) iov

end Socket

structure Pipewriter where
  buf : Mem Byte
  lead : Nat
  cap : Nat
  slack : Nat
  head : Nat
  len : Nat
  tail : Nat
  failed : Bool

namespace Pipewriter

def init (buf : Mem Byte) (lead cap slack : Nat) : Pipewriter :=
  ⟨buf, lead, cap, slack, 0, 0, 0, false⟩

def reset (pw : Pipewriter) : Pipewriter := { pw with head := 0, len := 0, tail := 0 }

def at' (pw : Pipewriter) : Nat := pw.lead + pw.len

def room (pw : Pipewriter) : Nat := pw.cap - pw.len

def pending (pw : Pipewriter) : List Byte :=
  pw.buf.read (pw.lead - pw.head) (pw.head + pw.len + pw.tail)

def sendSpan (pw : Pipewriter) (s : Socket) (data : List Byte) : Int × Socket :=
  let total := pw.head + pw.len + pw.tail
  if total ≠ 0 ∧ data ≠ [] then s.connSendv [pw.pending, data]
  else if total ≠ 0 then s.connSend pw.pending
  else if data ≠ [] then s.connSend data
  else (0, s)

def flushWith (pw : Pipewriter) (s : Socket) (data : List Byte) : Bool × Pipewriter × Socket :=
  if pw.failed then (false, pw, s)
  else
    let (rc, s) := pw.sendSpan s data
    let pw := pw.reset
    if rc < 0 then (false, { pw with failed := true }, s) else (true, pw, s)

def flush (pw : Pipewriter) (s : Socket) : Bool × Pipewriter × Socket := pw.flushWith s []

/-- `reserve`: where the bytes go, if there is room for them. -/
def reserve (pw : Pipewriter) (s : Socket) (n : Nat) : Option Nat × Pipewriter × Socket :=
  if pw.failed ∨ n > pw.cap then (none, pw, s)
  else if pw.len + n > pw.cap then
    let (ok, pw, s) := pw.flush s
    if ok then (some pw.at', pw, s) else (none, pw, s)
  else (some pw.at', pw, s)

def advance (pw : Pipewriter) (n : Nat) : Pipewriter := { pw with len := pw.len + min n pw.room }

/-- `front`: where the `n` bytes before the span start, the lead having room. -/
def front (pw : Pipewriter) (n : Nat) : Option Nat × Pipewriter :=
  if n > pw.lead - pw.head then (none, pw)
  else (some (pw.lead - (pw.head + n)), { pw with head := pw.head + n })

/-- `back`: where the `n` bytes behind the span start, the slack having room. -/
def back (pw : Pipewriter) (n : Nat) : Option Nat × Pipewriter :=
  if n > pw.slack - pw.tail then (none, pw)
  else (some (pw.lead + pw.len + pw.tail), { pw with tail := pw.tail + n })

/-- A copy to an offset that `reserve`, `front` or `back` has given. -/
def copyTo (pw : Pipewriter) (off : Nat) (data : List Byte) : Pipewriter :=
  { pw with buf := pw.buf.write off data }

def through (pw : Pipewriter) (s : Socket) (data : List Byte) : Bool × Pipewriter × Socket :=
  if pw.failed then (false, pw, s)
  else
    let (rc, s) := s.connSend data
    if rc < 0 then (false, { pw with failed := true }, s) else (true, pw, s)

def write (pw : Pipewriter) (s : Socket) (data : List Byte) : Bool × Pipewriter × Socket :=
  if pw.failed then (false, pw, s)
  else if data.length > pw.cap then
    let (ok, pw, s) := pw.flush s
    if ok then pw.through s data else (false, pw, s)
  else
    match pw.reserve s data.length with
    | (none, pw, s) => (false, pw, s)
    | (some off, pw, s) =>
      let pw := pw.copyTo off data
      (true, { pw with len := pw.len + data.length }, s)

def send (pw : Pipewriter) (s : Socket) (data : List Byte) : Bool × Pipewriter × Socket :=
  let (ok, pw, s) := pw.write s data
  if ok then pw.flush s else (false, pw, s)

end Pipewriter

end Ioxd.Pipe
