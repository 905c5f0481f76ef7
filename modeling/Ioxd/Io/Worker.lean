import Ioxd.Pipe.ReaderLaws
import Mathlib.Logic.Function.Basic

/-!
# The worker

`lib/io/conn.c`, `lib/io/proactor.c`, `lib/io/bufring.c` and the connect of
`lib/clients/socket.c`: one worker, its connections, the coroutines that work
on them, its ring of provided buffers, and the kernel.

A connection or a coroutine is a number that is never used twice: the pool of
`ioxd__conn_new` is a `conn_t` given out again, and `recycled` counts how often
one went back to it. `wake_reader` runs a coroutine in the middle of a
completion handler, so a handler is cut where it wakes: what is left of it is
a `Task`, done once no coroutine is running.

The kernel works inside an enter (`DEFER_TASKRUN`), and both enters of the
source publish the staged buffers first. An SQE counts from where it is
staged: `ioxd__proactor_sqe` may enter at any call. File descriptors, user
data, logging and the pool's size are left out.
-/

namespace Ioxd.Io

open Flat Ioxd.Pipe

def ENOENT : Int := 2
def EIO : Int := 5
def ENOMEM : Int := 12
def ENFILE : Int := 23
def EMFILE : Int := 24
def EPROTO : Int := 71
def ENOBUFS : Int := 105
def ECANCELED : Int := 125

/-- `RX_QUEUE`. -/
def rxQueue : Nat := 64

-- ---------------------------------------------------------------------------
-- The ring of provided buffers
-- ---------------------------------------------------------------------------

/-- `struct bufring` with the ring it shares with the kernel: `slots` are the
ids in `ring->bufs`, `published` is `ring->tail` and `head` the kernel's own
index. The indices only grow; a slot is an index modulo `count`. -/
structure Bufring where
  count : Nat
  slots : Nat → Nat
  head : Nat
  published : Nat
  tail : Nat
  returned : Nat
  dirty : Bool

namespace Bufring

def init (count : Nat) : Bufring where
  count := count
  slots := id
  head := 0
  published := count
  tail := count
  returned := 0
  dirty := false

/-- `ioxd__bufring_return`. -/
def giveBack (b : Bufring) (bufId : Nat) : Bufring :=
  { b with
    slots := Function.update b.slots (b.tail % b.count) bufId
    tail := b.tail + 1
    returned := b.returned + 1
    dirty := true }

/-- `ioxd__bufring_publish`. -/
def publish (b : Bufring) : Bufring :=
  if b.dirty then { b with published := b.tail, dirty := false } else b

/-- The kernel takes the buffer at its head. -/
def take (b : Bufring) : Nat × Bufring :=
  (b.slots (b.head % b.count), { b with head := b.head + 1 })

end Bufring

-- ---------------------------------------------------------------------------
-- Connections, coroutines, completions
-- ---------------------------------------------------------------------------

inductive RecvState
  | armed
  | starved
  | paused
  | done
  deriving DecidableEq, Repr

/-- `struct conn`, with `tls` for its listener's `certs`, the pipe its
coroutine reads it through, and three fields the source has elsewhere: `owner`
is the coroutine that works on it, `armed` whether the kernel has its
multishot recv, `recycled` how often it went back to the pool. -/
structure Conn where
  tls : Bool
  waiter : Option Nat
  rx : List RxItem
  recv : RecvState
  pausing : Bool
  cancelling : Bool
  refs : Int
  closed : Bool
  eof : Bool
  err : Int
  pr : Pipereader
  owner : Nat
  armed : Bool
  recycled : Nat

def Conn.endInput (x : Conn) (err : Int) : Conn :=
  if x.eof then x else { x with eof := true, err := err }

/-- What a parked coroutine waits in: `ioxd__conn_recv_item`,
`ioxd__conn_recv_pause`, a one-shot operation of its own, or the setsockopt in
the middle of `ioxd__socket_connect`. -/
inductive Await
  | item (c : Nat)
  | pause (c : Nat)
  | op
  | setopt (c : Nat)
  deriving DecidableEq, Repr

/-- Where a coroutine is: not started, parked, running (inside an await it was
resumed from, or in its own code), or returned. -/
inductive CoState
  | ready
  | parked (a : Await)
  | running (a : Option Await)
  | finished
  deriving DecidableEq, Repr

/-- A coroutine: `ioxd__conn_main` on the connection `main`. -/
structure Coro where
  main : Nat
  state : CoState
  deriving DecidableEq, Repr

inductive Cqe
  | recv (c : Nat) (result : Int) (more : Bool) (buf : Option Nat)
  | op (k : Nat)
  | accept (l : Nat) (result : Int) (more : Bool)
  | drain (result : Int)
  deriving DecidableEq, Repr

/-- What a handler still has to do after a `wake_reader`: drop the recv's
reference, the end of `ioxd__conn_on_recv`, or the loop of `begin_drain`. -/
inductive Task
  | unref (c : Nat)
  | tail (c : Nat) (more : Bool)
  | drain
  deriving DecidableEq, Repr

structure Listener where
  tls : Bool
  stalled : Bool
  stalledLive : Int
  armed : Bool
  deriving DecidableEq, Repr

/-- Where `ioxd__proactor_run` is in its loop; `batch` counts the completions
still to be dispatched of those it found ready. -/
inductive Phase
  | top
  | check
  | ready
  | sweep
  | publish
  | wait
  | batch (n : Nat)
  | after
  | ended
  deriving DecidableEq, Repr

/-- An operation staged for the kernel, and whether the worker was draining. -/
structure Arm where
  of : Nat ⊕ Nat
  draining : Bool
  deriving DecidableEq, Repr

/-- The worker. `ops` are the coroutines whose one-shot operation the kernel
has. `arms` and `swept` are history: every recv (left) and accept (right)
armed, and the recvs a sweep re-armed that have taken no buffer since, as far
as no recv has found the ring empty after it. -/
structure Worker where
  conns : Nat → Conn
  nextConn : Nat
  coros : Nat → Coro
  nextCoro : Nat
  ready : List Nat
  bufs : Bufring
  slab : Nat → Mem Byte
  starved : List Nat
  listeners : List Listener
  live : Int
  fileSlots : Int
  stop : Bool
  draining : Bool
  cancelEach : Bool
  cq : List Cqe
  ops : List Nat
  phase : Phase
  running : Option Nat
  tasks : List Task
  arms : List Arm
  swept : List Nat

namespace Worker

def setConn (w : Worker) (c : Nat) (f : Conn → Conn) : Worker :=
  { w with conns := Function.update w.conns c (f (w.conns c)) }

def setState (w : Worker) (k : Nat) (st : CoState) : Worker :=
  { w with coros := Function.update w.coros k { w.coros k with state := st } }

def bufringReturn (w : Worker) (bufId : Nat) : Worker := { w with bufs := w.bufs.giveBack bufId }

def returnAll (w : Worker) (ids : List Nat) : Worker := ids.foldl bufringReturn w

-- ---------------------------------------------------------------------------
-- Coroutines
-- ---------------------------------------------------------------------------

/-- `ioxd__coro_resume`: the coroutine runs on from where it parked. -/
def coroResume (w : Worker) (k : Nat) : Worker :=
  let at' :=
    match (w.coros k).state with
    | .parked a => some a
    | _ => none
  { w.setState k (.running at') with running := some k }

/-- `ioxd__coro_yield`. -/
def coroYield (w : Worker) (k : Nat) (a : Await) : Worker :=
  { w.setState k (.parked a) with running := none }

/-- `ioxd__io_await`: stage an operation and park until it completes. -/
def ioAwait (w : Worker) (k : Nat) (a : Await) : Worker :=
  { w.coroYield k a with ops := w.ops ++ [k] }

-- ---------------------------------------------------------------------------
-- The connection
-- ---------------------------------------------------------------------------

def cancelRecv (w : Worker) (c : Nat) : Worker := w.setConn c ({ · with cancelling := true })

/-- `ioxd__conn_new`: the next connection. -/
def connNew (w : Worker) (tls : Bool) (owner : Nat) (pr : Pipereader) : Worker :=
  { w with
    conns := Function.update w.conns w.nextConn
      { tls := tls, waiter := none, rx := [], recv := .armed, pausing := false,
        cancelling := false, refs := 2, closed := false, eof := false, err := 0, pr := pr,
        owner := owner, armed := false, recycled := 0 }
    nextConn := w.nextConn + 1
    live := w.live + 1 }

def connUnref (w : Worker) (c : Nat) : Worker :=
  let w := w.setConn c fun x => { x with refs := x.refs - 1 }
  if (w.conns c).refs ≠ 0 then w
  else
    let w := w.setConn c fun x => { x with recycled := x.recycled + 1 }
    { w with live := w.live - 1 }

/-- `ioxd__conn_arm_recv`. -/
def armRecv (w : Worker) (c : Nat) : Worker :=
  { w.setConn c ({ · with recv := .armed, cancelling := false, armed := true }) with
    arms := w.arms ++ [⟨.inl c, w.draining⟩] }

def wakeReader (w : Worker) (c : Nat) : Worker :=
  match (w.conns c).waiter with
  | none => w
  | some k => (w.setConn c ({ · with waiter := none })).coroResume k

def starvedPush (w : Worker) (c : Nat) : Worker := { w with starved := w.starved ++ [c] }

def starvedRemove (w : Worker) (c : Nat) : Worker := { w with starved := w.starved.erase c }

def setRecv (w : Worker) (c : Nat) (r : RecvState) : Worker := w.setConn c ({ · with recv := r })

/-- The pause that was asked for. -/
def paused (w : Worker) (c : Nat) : Worker :=
  (w.setConn c ({ · with pausing := false, recv := .paused })).wakeReader c

def afterwards (w : Worker) (t : Task) : Worker := { w with tasks := t :: w.tasks }

/-- `ioxd__conn_on_recv` for `-ENOBUFS`. -/
def onNobufs (w : Worker) (c : Nat) : Worker :=
  if (w.conns c).closed then (w.setRecv c .done).connUnref c
  else if (w.conns c).pausing then w.paused c
  else if (w.conns c).eof then ((w.setRecv c .done).wakeReader c).afterwards (.unref c)
  else (w.setRecv c .starved).starvedPush c

/-- `ioxd__conn_on_recv` for the end of the input, an error or a cancel. -/
def onEnded (w : Worker) (c : Nat) (result : Int) (buf : Option Nat) : Worker :=
  let w := w.returnAll buf.toList
  let x := w.conns c
  if x.pausing ∧ ¬ x.closed ∧ result = -ECANCELED then w.paused c
  else
    let err := if result = - EIO ∧ x.tls then 0 else result
    let w := w.setConn c fun x => { Conn.endInput x err with recv := .done }
    (w.wakeReader c).afterwards (.unref c)

def stopInput (w : Worker) (c : Nat) (err : Int) (more : Bool) : Worker :=
  let w := w.setConn c fun x => Conn.endInput x err
  (if more then w.cancelRecv c else w).wakeReader c

/-- `ioxd__conn_on_recv` for bytes, to the wake. -/
def onData (w : Worker) (c : Nat) (result : Int) (more : Bool) (buf : Option Nat) : Worker :=
  match buf with
  | none => w.stopInput c (-EPROTO) more
  | some id =>
    if (w.conns c).closed then w.bufringReturn id
    else if (w.conns c).rx.length = rxQueue then
      (w.bufringReturn id).stopInput c (-ENOBUFS) more
    else
      (w.setConn c fun x => { x with rx := x.rx ++ [⟨result.toNat, id⟩] }).wakeReader c

def onRecv (w : Worker) (c : Nat) (result : Int) (more : Bool) (buf : Option Nat) : Worker :=
  let w := if more then w else w.setConn c ({ · with cancelling := false })
  if result = -ENOBUFS then w.onNobufs c
  else if result ≤ 0 then w.onEnded c result buf
  else (w.onData c result more buf).afterwards (.tail c more)

/-- The end of `ioxd__conn_on_recv`, after the wake. -/
def onRecvTail (w : Worker) (c : Nat) (more : Bool) : Worker :=
  let x := w.conns c
  if ¬ more then
    if x.pausing ∧ ¬ x.closed then w.paused c
    else if ¬ x.closed ∧ ¬ x.eof then w.armRecv c
    else (w.setRecv c .done).connUnref c
  else if w.cancelEach ∧ ¬ x.closed then w.cancelRecv c
  else w

/-- `ioxd__conn_recv_drain`. -/
def recvDrain (w : Worker) (c : Nat) : Worker :=
  if (w.conns c).recv ≠ .starved then w
  else
    let w := w.setConn c fun x => { Conn.endInput x (-ECANCELED) with recv := .done }
    (w.wakeReader c).afterwards (.unref c)

/-- `ioxd__conn_close`: the recv is cancelled, or its reference dropped. -/
def closeRecv (w : Worker) (c : Nat) : Worker :=
  match (w.conns c).recv with
  | .armed => w.cancelRecv c
  | .starved =>
    (w.starvedRemove c).setConn c fun x => { x with recv := .done, refs := x.refs - 1 }
  | .paused => w.setConn c fun x => { x with recv := .done, refs := x.refs - 1 }
  | .done => w

/-- `ioxd__conn_close`: the unread buffers go back. -/
def returnRx (w : Worker) (c : Nat) : Worker :=
  (w.setConn c ({ · with rx := [] })).returnAll ((w.conns c).rx.map (·.bufId))

def connClose (w : Worker) (c : Nat) : Worker :=
  (((w.setConn c ({ · with closed := true })).closeRecv c).returnRx c).connUnref c

-- ---------------------------------------------------------------------------
-- The awaits
-- ---------------------------------------------------------------------------

def withReader (w : Worker) (c : Nat) (f : Reader → Reader) : Worker :=
  let r := f ⟨(w.conns c).pr, w.slab, []⟩
  { (w.setConn c ({ · with pr := r.pr })).returnAll r.back with slab := r.slab }

/-- One turn of the loop of `ioxd__conn_recv_item`, with what the reader's
`more` does with its result. -/
def recvItem (w : Worker) (k c : Nat) : Worker :=
  match (w.conns c).rx with
  | item :: rest =>
    ((w.setConn c ({ · with rx := rest })).withReader c fun r => (r.moreItem item).2).setState k
      (.running none)
  | [] =>
    if (w.conns c).eof then
      (w.withReader c fun r => r.moreEnded ((w.conns c).err < 0)).setState k (.running none)
    else (w.setConn c ({ · with waiter := some k })).coroYield k (.item c)

/-- The end of `ioxd__conn_recv_pause`, once the recv is not armed. -/
def pauseEnd (w : Worker) (k c : Nat) : Worker :=
  (if (w.conns c).recv = .starved then (w.starvedRemove c).setRecv c .paused else w).setState k
    (.running none)

/-- One turn of the loop of `ioxd__conn_recv_pause`. -/
def pauseTurn (w : Worker) (k c : Nat) : Worker :=
  if (w.conns c).recv = .armed then
    (w.setConn c ({ · with waiter := some k })).coroYield k (.pause c)
  else (w.setConn c ({ · with pausing := false })).pauseEnd k c

def recvPause (w : Worker) (k c : Nat) : Worker :=
  if (w.conns c).recv = .armed then
    ((w.setConn c ({ · with pausing := true })).cancelRecv c).pauseTurn k c
  else w.pauseEnd k c

def recvResume (w : Worker) (c : Nat) : Worker :=
  let x := w.conns c
  if x.recv ≠ .paused ∨ x.eof ∨ x.closed then w
  else if w.draining then
    (w.setConn c fun x => { Conn.endInput x (-ECANCELED) with recv := .done }).connUnref c
  else w.armRecv c

inductive ReaderOp
  | examine (n : Nat)
  | drop (n : Nat)
  | keep (n : Nat)
  | runBegin
  | release
  | inject (data : List Byte)

def ReaderOp.run (r : Reader) : ReaderOp → Reader
  | .examine n => r.examine n
  | .drop n => r.drop n
  | .keep n => (r.keep n).2
  | .runBegin => r.runBegin
  | .release => r.release
  | .inject data => (r.inject data).2

/-- What a coroutine does next in its own code: on a connection of its own,
read (`more`), work on the read bytes, pause and resume the recv; stage an
operation (a send, a timer, the parts of a connect) and wait for it; open an
outbound connection whose connect has succeeded; close one; return. -/
inductive CoAct
  | more (c : Nat)
  | reader (c : Nat) (op : ReaderOp)
  | pause (c : Nat)
  | resume (c : Nat)
  | await
  | connected (pr : Pipereader)
  | close (c : Nat)
  | finish

/-- The connections coroutine `k` may work on: its own, while they are open. -/
def Works (w : Worker) (k c : Nat) : Prop :=
  (w.conns c).owner = k ∧ (w.conns c).closed = false ∧ c < w.nextConn

instance (w : Worker) (k c : Nat) : Decidable (w.Works k c) :=
  inferInstanceAs (Decidable (_ ∧ _ ∧ _))

/-- `ioxd__pipe_close` once its output is out, and `ioxd__conn_close`. -/
def pipeClose (w : Worker) (c : Nat) : Worker := (w.withReader c Reader.close).connClose c

/-- The running coroutine goes on: out of the await it was resumed in. -/
def coGoes (w : Worker) (k : Nat) : Await → Worker
  | .item c => w.recvItem k c
  | .pause c => w.pauseTurn k c
  | .op => w.setState k (.running none)
  | .setopt c => (w.armRecv c).setState k (.running none)

def coActs (w : Worker) (k : Nat) : CoAct → Option Worker
  | .more c =>
    if w.Works k c then
      some (if (w.conns c).pr.eof then w else w.recvItem k c)
    else none
  | .reader c op => if w.Works k c then some (w.withReader c op.run) else none
  | .pause c => if w.Works k c then some (w.recvPause k c) else none
  | .resume c => if w.Works k c then some (w.recvResume c) else none
  | .await => some (w.ioAwait k .op)
  | .connected pr => some ((w.connNew false k pr).ioAwait k (.setopt w.nextConn))
  | .close c => if w.Works k c ∧ c ≠ (w.coros k).main then some (w.pipeClose c) else none
  | .finish =>
    if w.Works k (w.coros k).main then
      some { (w.pipeClose (w.coros k).main).setState k .finished with running := none }
    else none

-- ---------------------------------------------------------------------------
-- The loop
-- ---------------------------------------------------------------------------

def acceptRoom (w : Worker) : Bool :=
  !w.draining && (w.fileSlots == 0 || decide (w.live < w.fileSlots))

def setListener (w : Worker) (l : Nat) (f : Listener → Listener) : Worker :=
  { w with listeners := w.listeners.modify l f }

def stallAccept (w : Worker) (l : Nat) : Worker :=
  w.setListener l ({ · with stalled := true, stalledLive := w.live })

def armAccept (w : Worker) (l : Nat) : Worker :=
  if w.acceptRoom then
    { w.setListener l ({ · with stalled := false, armed := true }) with
      arms := w.arms ++ [⟨.inr l, w.draining⟩] }
  else w.stallAccept l

/-- `rearm_stalled`; `due` are the listeners whose second has come. -/
def rearmStalled (w : Worker) (due : List Nat) : Worker :=
  (List.range w.listeners.length).foldl (fun w' l =>
    match w'.listeners[l]? with
    | some x => if x.stalled ∧ (w'.live < x.stalledLive ∨ l ∈ due) then w'.armAccept l else w'
    | none => w') w

def acceptExhausted (err : Int) : Bool :=
  err == -ENFILE || err == -EMFILE || err == -ENOMEM || err == -ENOBUFS

/-- `ioxd__proactor_spawn` of `ioxd__conn_main`. -/
def spawn (w : Worker) (main : Nat) : Worker :=
  { w with
    coros := Function.update w.coros w.nextCoro ⟨main, .ready⟩
    nextCoro := w.nextCoro + 1
    ready := w.ready ++ [w.nextCoro] }

/-- `on_accept`; a connection's reader starts empty. -/
def onAccept (w : Worker) (l : Nat) (result : Int) (more : Bool) (pr : Pipereader) : Worker :=
  let tls := match w.listeners[l]? with | some x => x.tls | none => false
  let w :=
    if result ≥ 0 ∧ w.draining then w
    else if result ≥ 0 then
      let c := w.nextConn
      (((w.connNew tls w.nextCoro pr).armRecv c).spawn c)
    else w
  if more then w
  else if result < 0 ∧ acceptExhausted result then w.stallAccept l
  else w.armAccept l

def dispatch (w : Worker) (pr : Pipereader) : Cqe → Worker
  | .recv c result more buf => w.onRecv c result more buf
  | .op k => w.coroResume k
  | .accept l result more => w.onAccept l result more pr
  | .drain result =>
    if result < 0 ∧ result ≠ -ENOENT then { w with cancelEach := true } else w

/-- `rearm_starved`. -/
def rearmStarved (w : Worker) : Worker :=
  let room := w.bufs.returned
  let w := { w with bufs := { w.bufs with returned := 0 } }
  if w.starved = [] ∨ room = 0 then w
  else
    let n := min room w.starved.length
    let w' := (w.starved.take n).foldl armRecv w
    { w' with starved := w.starved.drop n, swept := w.swept ++ w.starved.take n }

def beginDrain (w : Worker) : Worker :=
  { w with
    draining := true
    listeners := w.listeners.map ({ · with stalled := true })
    tasks := .drain :: w.tasks }

def doTask (w : Worker) : Task → Worker
  | .unref c => w.connUnref c
  | .tail c more => w.onRecvTail c more
  | .drain =>
    match w.starved.getLast? with
    | none => w
    | some c => { w with starved := w.starved.dropLast, tasks := .drain :: w.tasks }.recvDrain c

/-- One move of `ioxd__proactor_run`. -/
def loopStep (w : Worker) (due : List Nat) (pr : Pipereader) : Worker :=
  match w.phase with
  | .top => { (if w.stop ∧ ¬ w.draining then w.beginDrain else w) with phase := .check }
  | .check => { w with phase := if w.draining ∧ w.live = 0 then .ended else .ready }
  | .ready =>
    match w.ready with
    | k :: rest => { w with ready := rest }.coroResume k
    | [] => { w with phase := .sweep }
  | .sweep => { w.rearmStarved with phase := .publish }
  | .publish => { w with bufs := w.bufs.publish, phase := .wait }
  | .wait => { w with phase := .batch w.cq.length }
  | .batch 0 => { w with phase := .after }
  | .batch (n + 1) =>
    match w.cq with
    | x :: rest => { w with cq := rest, phase := .batch n }.dispatch pr x
    | [] => { w with phase := .after }
  | .after => { w.rearmStalled due with phase := .top }
  | .ended => w

-- ---------------------------------------------------------------------------
-- The kernel
-- ---------------------------------------------------------------------------

/-- A recv completion: bytes in a buffer (`fill`, what the kernel writes there),
or none. A multishot that goes on has delivered something; `-ENOBUFS` ends it,
with no buffer, when the ring is empty. -/
def postRecv (w : Worker) (c : Nat) (result : Int) (more : Bool) (fill : Option (Mem Byte)) :
    Option Worker :=
  if ¬ (w.conns c).armed ∨ w.bufs.published ≠ w.bufs.tail ∨ (more ∧ result ≤ 0) then none
  else
    let w := w.setConn c ({ · with armed := more })
    match fill with
    | some m =>
      if w.bufs.head = w.bufs.published ∨ result = -ENOBUFS then none
      else
        let (id, bufs) := w.bufs.take
        some { w with
          bufs := bufs
          slab := Function.update w.slab id m
          cq := w.cq ++ [.recv c result more (some id)]
          swept := w.swept.erase c }
    | none =>
      if result = -ENOBUFS then
        if w.bufs.head = w.bufs.published then
          some { w with cq := w.cq ++ [.recv c result more none], swept := [] }
        else none
      else
        some { w with
          cq := w.cq ++ [.recv c result more none]
          swept := if more then w.swept else w.swept.erase c }

def postAccept (w : Worker) (l : Nat) (result : Int) (more : Bool) : Option Worker :=
  match w.listeners[l]? with
  | some x =>
    if x.armed then
      some { w.setListener l ({ · with armed := more }) with
        cq := w.cq ++ [.accept l result more] }
    else none
  | none => none

/-- What can happen next. `loop` is the worker's own thread when no coroutine
runs, `go` and `co` are the one that does; the rest is the kernel and the
world: the stop flag, a full submission queue, completions, the grace period's
end or a failed enter. -/
inductive Act
  | stop
  | enter
  | recv (c : Nat) (result : Int) (more : Bool) (fill : Option (Mem Byte))
  | op (k : Nat)
  | accept (l : Nat) (result : Int) (more : Bool)
  | cancelled (result : Int)
  | giveUp
  | loop (due : List Nat) (pr : Pipereader)
  | go
  | co (a : CoAct)

def step (w : Worker) : Act → Option Worker
  | .stop => some { w with stop := true }
  | .enter => some { w with bufs := w.bufs.publish }
  | .recv c result more fill => w.postRecv c result more fill
  | .op k =>
    if k ∈ w.ops then some { w with ops := w.ops.erase k, cq := w.cq ++ [.op k] } else none
  | .accept l result more => w.postAccept l result more
  | .cancelled result => if w.draining then some { w with cq := w.cq ++ [.drain result] } else none
  | .giveUp => if w.running = none ∧ w.tasks = [] then some { w with phase := .ended } else none
  | .loop due pr =>
    match w.running, w.tasks with
    | some _, _ => none
    | none, t :: ts => some ({ w with tasks := ts }.doTask t)
    | none, [] => some (w.loopStep due pr)
  | .go =>
    match w.running with
    | none => none
    | some k =>
      match (w.coros k).state with
      | .running (some a) => some (w.coGoes k a)
      | _ => none
  | .co a =>
    match w.running with
    | none => none
    | some k =>
      match (w.coros k).state with
      | .running none => w.coActs k a
      | _ => none

/-- `ioxd__proactor_run` as its loop starts: the ring full, every accept armed. -/
def start (bufCount fileSlots : Nat) (certs : List Bool) (pr : Pipereader)
    (slab : Nat → Mem Byte) : Worker :=
  let w : Worker :=
    { conns := fun _ =>
        { tls := false, waiter := none, rx := [], recv := .done, pausing := false,
          cancelling := false, refs := 0, closed := true, eof := true, err := 0, pr := pr,
          owner := 0, armed := false, recycled := 0 }
      nextConn := 0, coros := fun _ => ⟨0, .finished⟩, nextCoro := 0, ready := [],
      bufs := .init bufCount, slab := slab, starved := [],
      listeners := certs.map fun tls => ⟨tls, false, 0, false⟩,
      live := 0, fileSlots := fileSlots, stop := false, draining := false, cancelEach := false,
      cq := [], ops := [], phase := .top, running := none, tasks := [], arms := [], swept := [] }
  (List.range certs.length).foldl armAccept w

end Worker

end Ioxd.Io
