import Ioxd.Lib.Memory

/-!
# The pipe's reader

`ioxd_pipereader` of `lib/io/pipe.h` and the operations of `lib/io/pipe.c`
that touch only the reader itself: everything but the wait for the next
delivered buffer. The gathering buffer and the kernel's buffers are flat
memories, so that a slide (`memmove`) and a copy (`memcpy`) are what they are
in the source; `ioxd__bufring_return` appends the buffer's id to `back`, the
returns in the order they were made.
-/

namespace Ioxd.Pipe

open Flat

abbrev Byte := UInt8

/-- A delivered buffer. The source's `ptr` is the start of the buffer the id
names, so it is not a field of its own. -/
structure RxItem where
  len : Nat
  bufId : Nat
  deriving DecidableEq, Repr

/-- `IOXD_PIPE_GONE` and `IOXD_PIPE_FULL`. -/
inductive PipeError
  | gone
  | full
  deriving DecidableEq, Repr

structure Pipereader where
  buf : Mem Byte
  cap : Nat
  floor : Nat
  liveInBuf : Bool
  bufPos : Nat
  bufEnd : Nat
  cur : RxItem
  hasCur : Bool
  curPos : Nat
  pinned : RxItem
  hasPinned : Bool
  curIsPinned : Bool
  runInCur : Bool
  runStart : Nat
  runLen : Nat
  examined : Nat
  eof : Bool
  error : Option PipeError

def Pipereader.init (buf : Mem Byte) (cap : Nat) : Pipereader where
  buf := buf
  cap := cap
  floor := 0
  liveInBuf := false
  bufPos := 0
  bufEnd := 0
  cur := ⟨0, 0⟩
  hasCur := false
  curPos := 0
  pinned := ⟨0, 0⟩
  hasPinned := false
  curIsPinned := false
  runInCur := false
  runStart := 0
  runLen := 0
  examined := 0
  eof := false
  error := none

/-- Where a span starts: in the gathering buffer, in a kernel buffer, or
nowhere. -/
inductive Ptr
  | null
  | buf (off : Nat)
  | kernel (bufId off : Nat)
  deriving DecidableEq, Repr

structure Slice where
  p : Ptr
  len : Nat
  deriving DecidableEq, Repr

/-- The reader with the worker's buffers it reaches through `conn->p->bufs`:
their bytes, and the returns it has made. -/
structure Reader where
  pr : Pipereader
  slab : Nat → Mem Byte
  back : List Nat

namespace Reader

def bytes (s : Reader) (x : Slice) : List Byte :=
  match x.p with
  | .null => []
  | .buf off => s.pr.buf.read off x.len
  | .kernel id off => (s.slab id).read off x.len

def bufringReturn (s : Reader) (id : Nat) : Reader := { s with back := s.back ++ [id] }

def liveSpan (pr : Pipereader) : Slice :=
  if pr.liveInBuf then ⟨.buf pr.bufPos, pr.bufEnd - pr.bufPos⟩
  else if pr.hasCur then ⟨.kernel pr.cur.bufId pr.curPos, pr.cur.len - pr.curPos⟩
  else ⟨.null, 0⟩

def curDone (s : Reader) : Reader :=
  if ¬ s.pr.hasCur ∨ s.pr.curPos < s.pr.cur.len ∨ (s.pr.runInCur ∧ s.pr.runLen ≠ 0) then s
  else
    let s := if s.pr.curIsPinned then s else s.bufringReturn s.pr.cur.bufId
    { s with pr := { s.pr with hasCur := false, curIsPinned := false, curPos := 0 } }

def compact (s : Reader) : Reader :=
  if s.pr.floor < s.pr.bufPos then
    { s with pr := { s.pr with
      buf := s.pr.buf.write s.pr.floor (s.pr.buf.read s.pr.bufPos (s.pr.bufEnd - s.pr.bufPos))
      bufEnd := s.pr.bufEnd - (s.pr.bufPos - s.pr.floor)
      bufPos := s.pr.floor } }
  else s

/-- The run of the current buffer into `buf`, the buffer pinned unless another
one is: the middle of `gather`. -/
def gatherRun (s : Reader) (run : Nat) : Reader :=
  if run = 0 then s
  else
    let pr := { s.pr with
      buf := s.pr.buf.write s.pr.floor ((s.slab s.pr.cur.bufId).read s.pr.runStart run)
      runStart := s.pr.floor
      floor := s.pr.floor + run }
    if pr.hasPinned then { s with pr := pr }
    else { s with pr := { pr with pinned := pr.cur, hasPinned := true, curIsPinned := true } }

/-- The live bytes of the current buffer into `buf`, which is let go: the rest
of `gather`. -/
def gatherLive (s : Reader) (live : Nat) : Reader :=
  let pr := { s.pr with
    runInCur := false
    buf := s.pr.buf.write s.pr.floor ((s.slab s.pr.cur.bufId).read s.pr.curPos live)
    bufPos := s.pr.floor
    bufEnd := s.pr.floor + live
    liveInBuf := true }
  if pr.hasCur then curDone { s with pr := { pr with curPos := pr.cur.len } }
  else { s with pr := pr }

def gather (s : Reader) : Bool × Reader :=
  let live := if s.pr.hasCur then s.pr.cur.len - s.pr.curPos else 0
  let run := if s.pr.runInCur then s.pr.runLen else 0
  if s.pr.floor + run + live > s.pr.cap then (false, s)
  else (true, (s.gatherRun run).gatherLive live)

def refuse (s : Reader) (item : RxItem) : Reader :=
  let s := s.bufringReturn item.bufId
  { s with pr := { s.pr with error := some .full } }

/-- The bytes of a delivered buffer behind the live ones in `buf`. -/
def appendItem (s : Reader) (item : RxItem) : Bool × Reader :=
  let s := if s.pr.bufEnd + item.len > s.pr.cap then s.compact else s
  if s.pr.bufEnd + item.len > s.pr.cap then (false, s.refuse item)
  else
    let s := { s with pr := { s.pr with
      buf := s.pr.buf.write s.pr.bufEnd ((s.slab item.bufId).read 0 item.len)
      bufEnd := s.pr.bufEnd + item.len } }
    (true, s.bufringReturn item.bufId)

/-- `more` once `ioxd__conn_recv_item` has handed it a buffer; false is
`IOXD_PIPE_FULL`. -/
def moreItem (s : Reader) (item : RxItem) : Bool × Reader :=
  if ¬ s.pr.liveInBuf ∧ ¬ s.pr.hasCur then
    (true, { s with pr := { s.pr with
      cur := item, hasCur := true, curPos := 0, curIsPinned := false } })
  else if s.pr.liveInBuf then s.appendItem item
  else
    let (ok, s) := s.gather
    if ok then s.appendItem item else (false, s.refuse item)

/-- `more` once `ioxd__conn_recv_item` has reported the end of the input. -/
def moreEnded (s : Reader) (gone : Bool) : Reader :=
  { s with pr := { s.pr with
    eof := true
    error := if gone then some .gone else s.pr.error } }

def examine (s : Reader) (n : Nat) : Reader := { s with pr := { s.pr with examined := n } }

def consume (s : Reader) (n : Nat) : Reader :=
  let n := min n (liveSpan s.pr).len
  let s :=
    if s.pr.liveInBuf then
      if s.pr.bufPos + n ≥ s.pr.bufEnd then
        { s with pr := { s.pr with
          bufPos := s.pr.floor, bufEnd := s.pr.floor, liveInBuf := false } }
      else { s with pr := { s.pr with bufPos := s.pr.bufPos + n } }
    else if s.pr.hasCur then curDone { s with pr := { s.pr with curPos := s.pr.curPos + n } }
    else s
  { s with pr := { s.pr with
    examined := if s.pr.examined > n then s.pr.examined - n else 0 } }

def drop (s : Reader) (n : Nat) : Reader := s.consume n

/-- `keep` with the live bytes in `buf`. -/
def keepInBuf (s : Reader) (n : Nat) : Ptr × Reader :=
  let pr :=
    if s.pr.runLen = 0 then
      { s.pr with runInCur := false, runStart := s.pr.bufPos, floor := s.pr.bufPos }
    else if s.pr.bufPos ≠ s.pr.floor then
      { s.pr with buf := s.pr.buf.write s.pr.floor (s.pr.buf.read s.pr.bufPos n) }
    else s.pr
  (.buf pr.floor, { s with pr := { pr with floor := pr.floor + n } })

/-- `keep` in place: the run is in the current buffer, or starts there. -/
def keepInPlace (s : Reader) (n : Nat) : Ptr × Reader :=
  let pr :=
    if s.pr.runLen = 0 then { s.pr with runInCur := true, runStart := s.pr.curPos } else s.pr
  let runEnd := pr.runStart + pr.runLen
  let id := pr.cur.bufId
  let slab :=
    if runEnd ≠ pr.curPos then
      Function.update s.slab id ((s.slab id).write runEnd ((s.slab id).read pr.curPos n))
    else s.slab
  (.kernel id runEnd, { s with pr := pr, slab := slab })

/-- `keep` across: the run is in `buf`, the live bytes are not. -/
def keepAcross (s : Reader) (n : Nat) : Ptr × Reader :=
  if s.pr.floor + n > s.pr.cap then
    (.null, { s with pr := { s.pr with error := some .full } })
  else
    (.buf s.pr.floor, { s with pr := { s.pr with
      buf := s.pr.buf.write s.pr.floor ((s.slab s.pr.cur.bufId).read s.pr.curPos n)
      floor := s.pr.floor + n
      bufPos := s.pr.floor + n
      bufEnd := s.pr.floor + n } })

def keep (s : Reader) (n : Nat) : Ptr × Reader :=
  let live := liveSpan s.pr
  if n > live.len then (.null, s)
  else if n = 0 then (live.p, s)
  else
    let (kept, s) :=
      if s.pr.liveInBuf then s.keepInBuf n
      else if s.pr.hasCur ∧ (s.pr.runLen = 0 ∨ s.pr.runInCur) then s.keepInPlace n
      else if s.pr.hasCur then s.keepAcross n
      else (.null, s)
    if kept = .null then (.null, s)
    else (kept, consume { s with pr := { s.pr with runLen := s.pr.runLen + n } } n)

def runBegin (s : Reader) : Reader :=
  let s :=
    if s.pr.runInCur ∧ s.pr.runLen ≠ 0 then
      if s.pr.hasPinned ∧ ¬ s.pr.curIsPinned then
        if s.pr.floor + s.pr.runLen > s.pr.cap then
          { s with pr := { s.pr with error := some .full } }
        else
          { s with pr := { s.pr with
            buf := s.pr.buf.write s.pr.floor
              ((s.slab s.pr.cur.bufId).read s.pr.runStart s.pr.runLen)
            floor := s.pr.floor + s.pr.runLen } }
      else
        { s with pr := { s.pr with
          pinned := s.pr.cur, hasPinned := true, curIsPinned := true } }
    else s
  curDone { s with pr := { s.pr with runLen := 0, runInCur := false } }

def run (pr : Pipereader) : Slice :=
  ⟨if pr.runInCur then .kernel pr.cur.bufId pr.runStart else .buf pr.runStart, pr.runLen⟩

def release (s : Reader) : Reader :=
  let pr := { s.pr with runLen := 0, runInCur := false }
  let pr :=
    if pr.liveInBuf then
      { pr with
        buf := pr.buf.write 0 (pr.buf.read pr.bufPos (pr.bufEnd - pr.bufPos))
        bufEnd := pr.bufEnd - pr.bufPos
        bufPos := 0 }
    else { pr with bufPos := 0, bufEnd := 0 }
  let s := { s with pr := { pr with floor := 0 } }
  let s :=
    if s.pr.hasPinned then
      if s.pr.curIsPinned then
        { s with pr := { s.pr with curIsPinned := false, hasPinned := false } }
      else
        let s := s.bufringReturn s.pr.pinned.bufId
        { s with pr := { s.pr with hasPinned := false } }
    else s
  s.curDone

def close (s : Reader) : Reader :=
  let s := if s.pr.hasCur ∧ ¬ s.pr.curIsPinned then s.bufringReturn s.pr.cur.bufId else s
  let s := if s.pr.hasPinned then s.bufringReturn s.pr.pinned.bufId else s
  { s with pr := { s.pr with hasCur := false, hasPinned := false, curIsPinned := false } }

def inject (s : Reader) (data : List Byte) : Bool × Reader :=
  if s.pr.error.isSome then (false, s)
  else
    let (ok, s) :=
      if s.pr.liveInBuf then (true, s)
      else if s.pr.hasCur then s.gather
      else
        (true, { s with pr := { s.pr with
          bufPos := s.pr.floor, bufEnd := s.pr.floor, liveInBuf := true } })
    if ¬ ok then (false, s)
    else
      let s := if s.pr.bufEnd + data.length > s.pr.cap then s.compact else s
      if s.pr.bufEnd + data.length > s.pr.cap then (false, s)
      else
        (true, { s with pr := { s.pr with
          buf := s.pr.buf.write s.pr.bufEnd data
          bufEnd := s.pr.bufEnd + data.length } })

end Reader

end Ioxd.Pipe
