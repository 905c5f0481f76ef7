import Ioxd.Pipe.FeedLaws
import Mathlib.Data.List.GetD

/-!
# The hand-over to kernel TLS

The prologue of `lib/tls/handshake.c` from its first record to the kernel's:
`take_record`, the handshake loop, the pause, `drain_records` and what
`ioxd__handshake_prologue` puts back into the reader. OpenSSL is what it says of
each record, and the kernel whether it takes the keys.
-/

namespace Ioxd.Tls

open Ioxd.Pipe

/-- `RECORD_MAX`. -/
def recordMax : Nat := 5 + 16384 + 256

/-- `PLAIN_MAX`. -/
def plainMax : Nat := 16384

def recordLen (rec : List Byte) : Nat :=
  5 + ((rec.getD 3 0).toNat <<< 8 ||| (rec.getD 4 0).toNat)

/-- The reader with what is still in the socket, and will come to it. -/
structure Inbound where
  feed : Feed
  sock : List Byte

/-- `ioxd__conn_recv_exact`: the bytes, if the peer sends that many. -/
def recvExact (sock : List Byte) (n : Nat) : Option (List Byte × List Byte) :=
  if n ≤ sock.length then some (sock.take n, sock.drop n) else none

/-- What `take_record` returns. -/
inductive Took
  | nothing
  | record (rec : List Byte)
  | failed
  | starved

/-- The length of the record once its header is there; nothing if it is too
long. -/
def needed (rec : List Byte) (need : Nat) : Option Nat :=
  if rec.length = 5 ∧ need = 5 then
    if recordLen rec > recordMax then none else some (recordLen rec)
  else some need

/-- The loop of `take_record`. Each turn takes a byte, and `recordMax` are
enough: it is never starved. -/
def takeLoop (draining : Bool) : Nat → Inbound → List Byte → Nat → Took × Inbound
  | 0, w, _, _ => (.starved, w)
  | turns + 1, w, rec, need =>
    if rec.length < need then
      match if draining then w.feed.avail else w.feed.read with
      | (.error _, f) => (.failed, { w with feed := f })
      | (.ended, f) =>
        if ¬ draining then (.failed, { w with feed := f })
        else if rec = [] then (.nothing, { w with feed := f })
        else
          match recvExact w.sock (need - rec.length) with
          | none => (.failed, { w with feed := f })
          | some (bytes, sock) =>
            match needed (rec ++ bytes) need with
            | none => (.failed, ⟨f, sock⟩)
            | some need => takeLoop draining turns ⟨f, sock⟩ (rec ++ bytes) need
      | (.some, f) =>
        let k := min f.live.length (need - rec.length)
        match needed (rec ++ f.live.take k) need with
        | none => (.failed, { w with feed := f.drop k })
        | some need => takeLoop draining turns { w with feed := f.drop k } (rec ++ f.live.take k) need
    else (.record rec, w)

def takeRecord (draining : Bool) (w : Inbound) : Took × Inbound :=
  takeLoop draining (recordMax + 1) w [] 5

-- ---------------------------------------------------------------------------
-- The prologue
-- ---------------------------------------------------------------------------

/-- What `SSL_do_handshake` returns. -/
inductive Shake
  | done
  | wants
  | error

/-- What OpenSSL makes of a record after the handshake: bytes, the end, nothing
yet, an answer that it would send, an error. -/
inductive Verdict
  | plain (data : List Byte)
  | closeNotify
  | wants
  | answers
  | error

/-- What the prologue meets: OpenSSL by the records it was fed, whether what it
sends goes out, whether the secrets came, how many more events there are until
the recv has stopped, and whether the kernel takes the keys and the recv goes on
again. -/
structure World where
  shake : List (List Byte) → Shake
  sends : Nat → Bool
  secrets : Bool
  land : Nat
  ssl : List (List Byte) → Verdict
  kernel : Bool
  resumes : Bool

/-- The handshake, with the records it has been fed; nothing when it fails. -/
def shakeLoop (world : World) : Nat → Inbound → List (List Byte) → Option Inbound
  | 0, _, _ => none
  | turns + 1, w, fed =>
    if ¬ world.sends fed.length then none
    else
      match world.shake fed with
      | .done => some w
      | .error => none
      | .wants =>
        match takeRecord false w with
        | (.record rec, w) => shakeLoop world turns w (fed ++ [rec])
        | _ => none

def landing : Nat → Feed → Feed
  | 0, f => f
  | n + 1, f => landing n f.tick

/-- `ioxd__conn_recv_pause`: events may still come, then what is left of the
script is in the socket. -/
def pause (world : World) (w : Inbound) : Option Inbound :=
  let f := landing world.land w.feed
  if f.eof then none
  else some ⟨{ f with script := [] }, Feed.arrivals f.script⟩

/-- The prologue up to the drain. -/
def shaken (world : World) (turns : Nat) (f : Feed) : Option Inbound := do
  let w ← shakeLoop world turns ⟨f, []⟩ []
  if ¬ world.secrets then none else pause world w

/-- The state of `drain_records`: the records it has taken and counted, and the
bytes they gave. -/
structure Drain where
  inbound : Inbound
  taken : List (List Byte)
  records : Nat
  plain : List Byte

def drainLoop (ssl : List (List Byte) → Verdict) : Nat → Drain → Option Drain
  | 0, _ => none
  | turns + 1, s =>
    match takeRecord true s.inbound with
    | (.nothing, w) => some { s with inbound := w }
    | (.record rec, w) =>
      if rec.head? ≠ some 23 then none
      else if s.plain.length = plainMax then none
      else
        let s := { s with inbound := w, taken := s.taken ++ [rec], records := s.records + 1 }
        match ssl s.taken with
        | .plain data =>
          if s.plain.length + data.length > plainMax then none
          else drainLoop ssl turns { s with plain := s.plain ++ data }
        | .closeNotify => some s
        | .wants => drainLoop ssl turns s
        | .answers | .error => none
    | _ => none

/-- A record takes five bytes at least, so as many turns as there are bytes are
enough. -/
def drainRecords (ssl : List (List Byte) → Verdict) (w : Inbound) : Option Drain :=
  drainLoop ssl (w.feed.stream.length + w.sock.length + 1) ⟨w, [], 0, []⟩

/-- The connection as the handler gets it: the reader, the socket, and the
sequence number that kernel RX begins with. -/
structure Handed where
  feed : Feed
  sock : List Byte
  seq : Nat
  taken : List (List Byte)

/-- The prologue from the drain on. -/
def handOver (world : World) (w : Inbound) : Option Handed := do
  let s ← drainRecords world.ssl w
  let handed (f : Feed) : Handed := ⟨f, s.inbound.sock, s.records, s.taken⟩
  if ¬ world.kernel then none
  else if s.plain = [] then if world.resumes then some (handed s.inbound.feed) else none
  else
    let (ok, f) := s.inbound.feed.inject s.plain
    if ok && world.resumes then some (handed f) else none

-- ---------------------------------------------------------------------------
-- The records of a stream
-- ---------------------------------------------------------------------------

/-- A whole record. -/
structure Whole (rec : List Byte) : Prop where
  length : rec.length = recordLen rec
  header : 5 ≤ rec.length
  limit : rec.length ≤ recordMax

def nextRecord (bytes : List Byte) : Option (List Byte × List Byte) :=
  let n := recordLen bytes
  if bytes.length < n ∨ n > recordMax then none else some (bytes.take n, bytes.drop n)

theorem recordLen_ge (rec : List Byte) : 5 ≤ recordLen rec := Nat.le_add_right ..

theorem nextRecord_lt {bytes rec rest : List Byte} (h : nextRecord bytes = some (rec, rest)) :
    rest.length < bytes.length := by
  unfold nextRecord at h
  simp only [Option.ite_none_left_eq_some, not_or, Option.some.injEq, Prod.mk.injEq] at h
  obtain ⟨⟨hlen, -⟩, -, rfl⟩ := h
  have hge := recordLen_ge bytes
  rw [List.length_drop]
  omega

/-- How far a stream goes to the end of the first record that OpenSSL reads as a
`close_notify`, once it was fed the records `fed`. -/
def closeEnd (ssl : List (List Byte) → Verdict) (fed : List (List Byte)) (bytes : List Byte) :
    Option Nat :=
  match _h : nextRecord bytes with
  | none => none
  | some (rec, rest) =>
    match ssl (fed ++ [rec]) with
    | .closeNotify => some rec.length
    | _ => (closeEnd ssl (fed ++ [rec]) rest).map (rec.length + ·)
termination_by bytes.length
decreasing_by exact nextRecord_lt _h

def Verdict.bytes : Verdict → List Byte
  | .plain data => data
  | _ => []

def plains (ssl : List (List Byte) → Verdict) (fed : List (List Byte)) :
    List (List Byte) → List Byte
  | [] => []
  | rec :: recs => (ssl (fed ++ [rec])).bytes ++ plains ssl (fed ++ [rec]) recs

theorem recordLen_append {rec : List Byte} (h : 5 ≤ rec.length) (bytes : List Byte) :
    recordLen (rec ++ bytes) = recordLen rec := by
  unfold recordLen
  rw [List.getD_append _ _ _ _ (by omega), List.getD_append _ _ _ _ (by omega)]

theorem nextRecord_whole {rec : List Byte} (h : Whole rec) (rest : List Byte) :
    nextRecord (rec ++ rest) = some (rec, rest) := by
  have hlen := recordLen_append h.header rest
  have h1 := h.length
  have h2 := h.limit
  unfold nextRecord
  simp only [hlen, ← h1]
  rw [if_neg]
  · simp
  · simp only [List.length_append, not_or]
    omega

theorem closeEnd_whole {rec : List Byte} (h : Whole rec) (ssl : List (List Byte) → Verdict)
    (fed : List (List Byte)) (rest : List Byte) : closeEnd ssl fed (rec ++ rest) =
      match ssl (fed ++ [rec]) with
      | .closeNotify => some rec.length
      | _ => (closeEnd ssl (fed ++ [rec]) rest).map (rec.length + ·) := by
  rw [closeEnd]
  split
  · rename_i hn
    rw [nextRecord_whole h] at hn
    cases hn
  · rename_i rec' rest' hn
    rw [nextRecord_whole h] at hn
    obtain ⟨rfl, rfl⟩ := Prod.mk.inj (Option.some.inj hn)
    rfl

end Ioxd.Tls
