import Ioxd.Http.Filtered
import Ioxd.Http.WireLaws

/-!
# The end of a TLS connection

`serve_pipe` and `serve_http` of `lib/http/run.c`, and `ioxd__conn_main` of
`lib/io/conn.c` around them. The runner sends the `close_notify` alert when the
handler has returned; the flush of `ioxd__pipe_close` comes after it, one layer
up, with what the handler left in the slab.
-/

namespace Ioxd.Tls

open Flat
open Ioxd.Pipe
open Ioxd.Http

/-- A TLS socket: the application bytes it was given, and those that had gone
out when the alert did. -/
structure Session where
  sock : Socket
  alert : Option (List Byte)

/-- The kernel takes something of the next send. -/
def Takes : List Sent → Bool
  | [] | .some _ :: _ => true
  | _ => false

/-- `ioxd__handshake_close_notify`: one message, whose result is not looked
at. -/
def closeNotify (s : Socket) : Session :=
  ⟨{ s with plan := s.plan.tail }, if Takes s.plan then some s.wire else none⟩

def hangUp (conn : Conn) : Session :=
  let t := closeNotify conn.sock
  let (_, _, sock) := conn.out.flush t.sock
  { t with sock := sock }

/-- The calls of `ioxd/pipe.h`. `reserve` is `ioxd_pipe_reserve`, and if it
gives room, the bytes put there and their `ioxd_pipe_advance`. -/
inductive PipeOp
  | read
  | examine (n : Nat)
  | drop (n : Nat)
  | keep (n : Nat)
  | release
  | copy (n : Nat)
  | reserve (n : Nat) (data : List Byte) (fits : data.length ≤ n)
  | write (data : List Byte)
  | flush
  | send (data : List Byte)

def pipeStep (conn : Conn) : PipeOp → Conn
  | .read => { conn with feed := conn.feed.read.2 }
  | .examine n => { conn with feed := conn.feed.examine n }
  | .drop n => { conn with feed := conn.feed.drop n }
  | .keep n => { conn with feed := (conn.feed.keep n).2 }
  | .release => { conn with feed := conn.feed.release }
  | .copy n => { conn with feed := (conn.feed.copy n).2.2 }
  | .reserve n data _ =>
    match conn.out.reserve conn.sock n with
    | (none, out, sock) => { conn with out := out, sock := sock }
    | (some off, out, sock) =>
      { conn with out := (out.copyTo off data).advance data.length, sock := sock }
  | .write data =>
    let (_, out, sock) := conn.out.write conn.sock data
    { conn with out := out, sock := sock }
  | .flush =>
    let (_, out, sock) := conn.out.flush conn.sock
    { conn with out := out, sock := sock }
  | .send data =>
    let (_, out, sock) := conn.out.send conn.sock data
    { conn with out := out, sock := sock }

/-- The pipe as the handler leaves it. -/
def handled (ops : List PipeOp) (conn : Conn) : Conn := ops.foldl pipeStep conn

/-- `serve_pipe` on a TLS port, and the close behind it. -/
def servePipe (ops : List PipeOp) (conn : Conn) : Session := hangUp (handled ops conn)

def turnConn : Turn → Conn
  | .ended conn | .refused conn => conn
  | .served _ ctx => ⟨ctx.feed, ctx.out, ctx.sock⟩

/-- The pipe as the engine leaves it. -/
def engineServed (parse : Parser) (scratch : Scratch) (handlers : List (List HandlerOp))
    (conn : Conn) : Conn :=
  match (serve parse scratch handlers conn).getLast? with
  | none => conn
  | some (_, turn) => turnConn turn

/-- `serve_http` on a TLS port, and the close behind it. -/
def serveHttp (parse : Parser) (scratch : Scratch) (handlers : List (List HandlerOp))
    (conn : Conn) : Session := hangUp (engineServed parse scratch handlers conn)

/-- No application byte behind the alert. -/
def NotifyLast (t : Session) : Prop := ∀ before, t.alert = some before → t.sock.wire = before

/-- What `ioxd__pipe_close` finds: nothing to send, a writer that has failed, or
a kernel that takes nothing more, be it the alert or what comes behind it. -/
def Quiet (conn : Conn) : Prop := conn.out.pending = [] ∨ conn.out.failed = true ∨
  Takes conn.sock.plan = false ∨ Takes conn.sock.plan.tail = false

theorem take_silent {s : Socket} (h : Takes s.plan = false) (data : List Byte) :
    (s.take data).1 ≤ 0 ∧ (s.take data).2.wire = s.wire := by
  unfold Socket.take
  cases hp : s.plan with
  | nil => simp [hp, Takes] at h
  | cons r plan =>
    cases r with
    | error e =>
      have hneg : -((e : Int) + 1) ≤ 0 := by omega
      exact ⟨hneg, rfl⟩
    | none => exact ⟨Int.le_refl _, rfl⟩
    | some k => simp [hp, Takes] at h

theorem take_speaks {s : Socket} (h : Takes s.plan = true) {data : List Byte} (hd : data ≠ []) :
    s.wire.length < (s.take data).2.wire.length := by
  have hpos : 0 < data.length := List.length_pos_iff.mpr hd
  unfold Socket.take
  cases hp : s.plan with
  | nil =>
    simp only [List.length_append, List.length_take]
    omega
  | cons r plan =>
    cases r with
    | error e => simp [hp, Takes] at h
    | none => simp [hp, Takes] at h
    | some k =>
      simp only [List.length_append, List.length_take]
      omega

theorem sendLoop_turn (s : Socket) {data : List Byte} (hd : data ≠ []) (fuel : Nat) :
    s.sendLoop (fuel + 1) data =
      if (s.take data).1 < 0 then (some (s.take data).1, (s.take data).2)
      else if (s.take data).1 = 0 then (some (-epipe), (s.take data).2)
      else (s.take data).2.sendLoop fuel (data.drop (s.take data).1.toNat) := by
  rw [Socket.sendLoop, if_neg hd]

/-- A send grows the wire unless the kernel takes nothing of it. -/
theorem connSend_wire (s : Socket) {data : List Byte} (hd : data ≠ []) :
    (s.connSend data).2.wire = s.wire ↔ Takes s.plan = false := by
  have hsock : (s.connSend data).2 = (s.sendLoop (data.length + 1) data).2 := by
    unfold Socket.connSend
    split <;> rename_i h <;> rw [h]
  rw [hsock, sendLoop_turn s hd]
  cases ht : Takes s.plan with
  | false =>
    obtain ⟨hle, hw⟩ := take_silent ht data
    refine iff_of_true ?_ rfl
    split
    · exact hw
    · rw [if_pos (by omega)]
      exact hw
  | true =>
    refine iff_of_false (fun he => ?_) (by decide)
    have hlt := take_speaks ht hd
    have hle : (s.take data).2.wire.length ≤ s.wire.length := by
      split at he
      · exact (congrArg List.length he).le
      split at he
      · exact (congrArg List.length he).le
      · exact (Socket.sendLoop_grows _ _ _).length_le.trans (congrArg List.length he).le
    omega

theorem flush_wire (pw : Pipewriter) (s : Socket) : (pw.flush s).2.2.wire = s.wire ↔
    pw.pending = [] ∨ pw.failed = true ∨ Takes s.plan = false := by
  have hlen : pw.pending = [] ↔ pw.head + pw.len + pw.tail = 0 := by
    rw [← List.length_eq_zero_iff, Pipewriter.pending, length_read]
  have hsock : pw.failed = false → (pw.flush s).2.2 = (pw.sendSpan s []).2 := by
    intro hf
    unfold Pipewriter.flush Pipewriter.flushWith
    rw [if_neg (by simp [hf])]
    dsimp only
    split <;> rfl
  cases hf : pw.failed with
  | true =>
    refine iff_of_true ?_ (.inr (.inl rfl))
    unfold Pipewriter.flush Pipewriter.flushWith
    rw [if_pos hf]
  | false =>
    rw [hsock hf]
    unfold Pipewriter.sendSpan
    dsimp only
    rw [if_neg (by simp)]
    by_cases hp : pw.pending = []
    · rw [if_neg (not_not.mpr (hlen.mp hp)), if_neg (by simp)]
      exact iff_of_true rfl (.inl hp)
    · rw [if_pos (fun h => hp (hlen.mpr h)), connSend_wire s hp]
      simp [hp]

theorem hangUp_last (conn : Conn) : NotifyLast (hangUp conn) ↔ Quiet conn := by
  have hw := flush_wire conn.out (closeNotify conn.sock).sock
  unfold NotifyLast Quiet hangUp
  cases ht : Takes conn.sock.plan with
  | false =>
    refine iff_of_true (fun before h => ?_) (.inr (.inr (.inl rfl)))
    simp [closeNotify, ht] at h
  | true =>
    have ha : (closeNotify conn.sock).alert = some conn.sock.wire := by simp [closeNotify, ht]
    have hlast : (∀ before, some conn.sock.wire = some before →
        (conn.out.flush (closeNotify conn.sock).sock).2.2.wire = before) ↔
        (conn.out.flush (closeNotify conn.sock).sock).2.2.wire = conn.sock.wire := by
      constructor
      · intro h
        exact h _ rfl
      · intro h before hb
        exact h.trans (Option.some.inj hb)
    dsimp only
    rw [ha, hlast]
    exact hw.trans (by simp [closeNotify])

/-- The alert is the last thing sent if and only if the handler, of pipes or of
requests, left nothing to send behind it. -/
theorem close_notify_last (conn : Conn) :
    (∀ ops : List PipeOp, NotifyLast (servePipe ops conn) ↔ Quiet (handled ops conn)) ∧
    ∀ (parse : Parser) (scratch : Scratch) (handlers : List (List HandlerOp)),
      NotifyLast (serveHttp parse scratch handlers conn) ↔
        Quiet (engineServed parse scratch handlers conn) :=
  ⟨fun _ => hangUp_last _, fun _ _ _ => hangUp_last _⟩

/-- A handler that returns with bytes in the slab. -/
theorem close_notify_not_last :
    ¬ NotifyLast (servePipe [.write (str "bye")] Ctx.idleConn) := by
  intro h
  have ha : (servePipe [.write (str "bye")] Ctx.idleConn).alert = some [] := rfl
  have hw : (servePipe [.write (str "bye")] Ctx.idleConn).sock.wire = str "bye" := by
    decide +kernel
  have he := h [] ha
  rw [hw] at he
  cases he

end Ioxd.Tls
