import Ioxd.Lib.Runs
import Ioxd.Pipe.WriterLaws

/-!
# What the writer is given goes out

Runs of the writer's operations against a socket that takes what it likes of
each send. What has gone out and what is pending is all that was written, in
order, and a failure is the socket's. There is one exception: data of its own
send whose length is negative as an `int` goes out, and is taken for a failure.
-/

namespace Ioxd.Pipe

open Flat
open Runs (Reach)

/-- The sizes of a slab. A send of all of it returns its length as an `int`. -/
structure Shape where
  lead : Nat
  cap : Nat
  slack : Nat
  small : lead + cap + slack < 2 ^ 31

/-- The operations. `reserve` is followed by the bytes put there, if it gives
room, and their `advance`. -/
inductive WriterOp
  | reserve (n : Nat) (data : List Byte) (fits : data.length ≤ n)
  | write (data : List Byte)
  | flush
  | flushWith (data : List Byte)
  | send (data : List Byte)

/-- A writer at work: what it was given, and whether an operation has reported
a failure. -/
structure Writing where
  pw : Pipewriter
  sock : Socket
  written : List Byte
  told : Bool

namespace Writing

def init (shape : Shape) (buf : Mem Byte) (sock : Socket) : Writing :=
  ⟨.init buf shape.lead shape.cap shape.slack, sock, [], false⟩

def after (w : Writing) (data : List Byte) : Bool × Pipewriter × Socket → Writing
  | (ok, pw, sock) => ⟨pw, sock, w.written ++ data, w.told || !ok⟩

/-- A reservation of more than the slab is refused: there is nothing to write
to, and nothing has failed. -/
def reserve (w : Writing) (n : Nat) (data : List Byte) : Writing :=
  if n > w.pw.cap then w
  else
    match w.pw.reserve w.sock n with
    | (none, pw, sock) => w.after data (false, pw, sock)
    | (some off, pw, sock) => w.after data (true, (pw.copyTo off data).advance data.length, sock)

def step (w : Writing) : WriterOp → Option Writing
  | .reserve n data _ => some (w.reserve n data)
  | .write data => some (w.after data (w.pw.write w.sock data))
  | .flush => some (w.after [] (w.pw.flush w.sock))
  | .flushWith data => some (w.after data (w.pw.flushWith w.sock data))
  | .send data => some (w.after data (w.pw.send w.sock data))

/-- The length of a send is not negative as an `int`. -/
def fitsInt (data : List Byte) : Bool := data.length % 2 ^ 32 < 2 ^ 31

/-- Data that goes out in a send of its own has a length that fits. -/
def fits (w : Writing) : WriterOp → Bool
  | .reserve .. | .flush => true
  | .write data | .send data => data.length ≤ w.pw.cap || fitsInt data
  | .flushWith data => w.pw.head + w.pw.len + w.pw.tail ≠ 0 || fitsInt data

end Writing

namespace Pipewriter

variable {pw : Pipewriter} {s : Socket} {data : List Byte}

/-- A writer that has not failed, with no frame around its span. -/
structure Open (pw : Pipewriter) : Prop where
  ok : pw.Ok
  tail : pw.tail = 0
  going : pw.failed = false

/-- What an operation of an open writer comes to: its data is behind the rest, or
the socket has failed with some of it out. -/
inductive Outcome (pw : Pipewriter) (s : Socket) (data : List Byte) :
    Bool × Pipewriter × Socket → Prop
  | done {pw' : Pipewriter} {s' : Socket} : pw'.Open → pw'.cap = pw.cap →
      s'.wire ++ pw'.pending = s.wire ++ pw.pending ++ data → (s.Sound → s'.Sound) →
      Outcome pw s data (true, pw', s')
  | cut {pw' : Pipewriter} {s' : Socket} : pw'.Ok → pw'.failed = true →
      s'.wire <+: s.wire ++ pw.pending ++ data → ¬ s.Sound → Outcome pw s data (false, pw', s')

theorem Open.reset (h : pw.Open) : pw.reset.Open := ⟨reset_ok h.ok, rfl, h.going⟩

theorem flushWith_done (h : pw.Open) (hw : ¬ pw.Wraps data) :
    Outcome pw s data (pw.flushWith s data) := by
  generalize hr : pw.flushWith s data = r
  have ho := hr ▸ flushWith_outcome h.ok h.going s data
  cases ho with
  | sent _ hd =>
    refine .done h.reset rfl ?_ hd.sound
    rw [pending_reset, List.append_nil, hd.wire, List.append_assoc]
  | wrapped hw' _ => exact absurd hw' hw
  | cut hc =>
    obtain ⟨⟨t, ht, hwire⟩, hu⟩ := hc
    refine .cut ?_ rfl ?_ hu
    · exact ⟨h.reset.ok.head, h.reset.ok.len, h.reset.ok.tail, h.ok.small⟩
    · rw [hwire, List.append_assoc]
      exact (List.prefix_append_right_inj _).mpr ht

theorem not_wraps_nil (pw : Pipewriter) : ¬ pw.Wraps [] := fun h => by
  have := h.2
  simp at this

theorem flush_done (h : pw.Open) : Outcome pw s [] (pw.flush s) :=
  flushWith_done h (not_wraps_nil pw)

theorem Open.append (h : pw.Open) (hd : data.length ≤ pw.room) :
    ((pw.copyTo pw.at' data).advance data.length).Open ∧
      ((pw.copyTo pw.at' data).advance data.length).pending = pw.pending ++ data := by
  obtain ⟨h1, -, h3⟩ := append_spec h.ok h.tail hd
  exact ⟨⟨h1, h.tail, h.going⟩, h3⟩

inductive ReserveOutcome (pw : Pipewriter) (s : Socket) (n : Nat) :
    Option Nat × Pipewriter × Socket → Prop
  | given {pw' : Pipewriter} {s' : Socket} : pw'.Open → pw'.cap = pw.cap → n ≤ pw'.room →
      s'.wire ++ pw'.pending = s.wire ++ pw.pending → (s.Sound → s'.Sound) →
      ReserveOutcome pw s n (some pw'.at', pw', s')
  | cut {pw' : Pipewriter} {s' : Socket} : pw'.Ok → pw'.failed = true →
      s'.wire <+: s.wire ++ pw.pending → ¬ s.Sound → ReserveOutcome pw s n (none, pw', s')

theorem reserve_outcome {n : Nat} (h : pw.Open) (hn : n ≤ pw.cap) :
    ReserveOutcome pw s n (pw.reserve s n) := by
  unfold reserve
  rw [if_neg (by rw [h.going]; simpa using hn)]
  split
  · have ho : FlushOutcome pw s [] (pw.flush s) := flushWith_outcome h.ok h.going s []
    generalize pw.flush s = r at ho
    cases ho with
    | sent _ hd =>
      refine .given h.reset rfl ?_ ?_ hd.sound
      · unfold room reset
        exact hn
      · rw [pending_reset, List.append_nil, hd.wire, List.append_nil]
    | wrapped hw _ => exact absurd hw (not_wraps_nil pw)
    | cut hc =>
      obtain ⟨⟨t, ht, hwire⟩, hu⟩ := hc
      rw [List.append_nil] at ht
      refine .cut ⟨h.reset.ok.head, h.reset.ok.len, h.reset.ok.tail, h.ok.small⟩ rfl ?_ hu
      rw [hwire]
      exact (List.prefix_append_right_inj _).mpr ht
  · refine .given h rfl ?_ rfl id
    unfold room
    omega

theorem through_done (h : pw.Open) (hp : pw.pending = []) (hd : data.length % 2 ^ 32 < 2 ^ 31) :
    Outcome pw s data (pw.through s data) := by
  unfold through
  simp only [h.going, Bool.false_eq_true, if_false]
  rcases Socket.connSend_cases s data with ⟨s', hs, hdone⟩ | ⟨e, s', hs, he, hc⟩
  · have hpos : ¬ Int.bmod data.length (2 ^ 32) < 0 := by
      rw [bmod_neg_iff]
      omega
    simp only [hs, if_neg hpos]
    refine .done h rfl ?_ hdone.sound
    rw [hp, List.append_nil, List.append_nil, hdone.wire]
  · obtain ⟨⟨t, ht, hwire⟩, hu⟩ := hc
    simp only [hs, if_pos he]
    refine .cut ⟨h.ok.head, h.ok.len, h.ok.tail, h.ok.small⟩ rfl ?_ hu
    rw [hp, List.append_nil, hwire]
    exact (List.prefix_append_right_inj _).mpr ht

theorem Outcome.bind {d d' : List Byte} {r : Bool × Pipewriter × Socket}
    {f : Pipewriter → Socket → Bool × Pipewriter × Socket} (h : Outcome pw s d r)
    (hf : ∀ pw' s', r = (true, pw', s') → pw'.Open → Outcome pw' s' d' (f pw' s')) :
    Outcome pw s (d ++ d') (if r.1 then f r.2.1 r.2.2 else (false, r.2.1, r.2.2)) := by
  cases h with
  | @done pw' s' hopen hcap hwire hsound =>
    rw [if_pos rfl]
    generalize hr : f pw' s' = r'
    have h' := hr ▸ hf pw' s' rfl hopen
    cases h' with
    | done hopen' hcap' hwire' hsound' =>
      refine .done hopen' (hcap'.trans hcap) ?_ fun hs => hsound' (hsound hs)
      rw [hwire', hwire, List.append_assoc]
    | cut hok hfail hwire' hu =>
      refine .cut hok hfail ?_ fun hs => hu (hsound hs)
      rwa [← List.append_assoc, ← hwire]
  | cut hok hfail hwire hu =>
    rw [if_neg Bool.false_ne_true]
    refine .cut hok hfail (hwire.trans ?_) hu
    rw [← List.append_assoc]
    exact List.prefix_append _ _

theorem flush_true {pw' : Pipewriter} {s' : Socket} (h : pw.Open)
    (hr : pw.flush s = (true, pw', s')) : pw' = pw.reset := by
  have ho : FlushOutcome pw s [] (pw.flush s) := flushWith_outcome h.ok h.going s []
  rw [hr] at ho
  cases ho with
  | sent => rfl

theorem write_done (h : pw.Open) (hd : data.length ≤ pw.cap ∨ data.length % 2 ^ 32 < 2 ^ 31) :
    Outcome pw s data (pw.write s data) := by
  unfold write
  rw [if_neg (by simp [h.going])]
  split
  · rename_i hlong
    have hlen := hd.resolve_left (by omega)
    refine @Outcome.bind pw s [] data _ (fun pw s => pw.through s data) (flush_done h) ?_
    intro pw' s' hr hopen
    exact through_done hopen (flush_true h hr ▸ pending_reset pw) hlen
  · rename_i hshort
    have ho := @reserve_outcome pw s data.length h (by omega)
    generalize pw.reserve s data.length = r at ho
    cases ho with
    | @given pw' s' hopen hcap hroom hwire hsound =>
      obtain ⟨hopen', hpend⟩ := hopen.append hroom
      have hmin : min data.length (pw'.copyTo pw'.at' data).room = data.length :=
        Nat.min_eq_left hroom
      have hadv : (pw'.copyTo pw'.at' data).advance data.length =
          { pw'.copyTo pw'.at' data with len := (pw'.copyTo pw'.at' data).len + data.length } := by
        simp only [advance, hmin]
      rw [hadv] at hopen' hpend
      refine .done hopen' hcap ?_ hsound
      rw [hpend, ← List.append_assoc, hwire]
    | cut hok hf hwire hu => exact .cut hok hf (hwire.trans (List.prefix_append _ _)) hu

theorem send_done (h : pw.Open) (hd : data.length ≤ pw.cap ∨ data.length % 2 ^ 32 < 2 ^ 31) :
    Outcome pw s data (pw.send s data) := by
  have hb := @Outcome.bind pw s data [] _ (fun pw s => pw.flush s) (write_done h hd)
    fun pw' s' _ hopen => flush_done hopen
  rw [List.append_nil] at hb
  exact hb

theorem failed_still (hf : pw.failed = true) (s : Socket) (data : List Byte) :
    pw.flushWith s data = (false, pw, s) ∧ pw.write s data = (false, pw, s) ∧
      pw.send s data = (false, pw, s) ∧ ∀ n, pw.reserve s n = (none, pw, s) := by
  have hw : pw.write s data = (false, pw, s) := by rw [write, if_pos hf]
  refine ⟨by rw [flushWith, if_pos hf], hw, by rw [send, hw]; rfl, fun n => ?_⟩
  rw [reserve, if_pos (.inl hf)]

end Pipewriter

-- ---------------------------------------------------------------------------
-- Runs
-- ---------------------------------------------------------------------------

namespace Writing

open Pipewriter

variable {w w' : Writing} {s₀ : Socket} {data : List Byte}

/-- A writer at work on a socket, from what it was at the start: open with all
of it out or pending, or failed with some of it out and the socket to blame. -/
inductive Faithful (s₀ : Socket) (w : Writing) : Prop
  | going : w.pw.Open → w.told = false → w.sock.wire ++ w.pw.pending = s₀.wire ++ w.written →
      (s₀.Sound → w.sock.Sound) → Faithful s₀ w
  | failed : w.pw.failed = true → w.sock.wire <+: s₀.wire ++ w.written → ¬ s₀.Sound →
      Faithful s₀ w

theorem Faithful.after {r : Bool × Pipewriter × Socket} (ht : w.told = false)
    (hwire : w.sock.wire ++ w.pw.pending = s₀.wire ++ w.written)
    (hsound : s₀.Sound → w.sock.Sound) (h : Outcome w.pw w.sock data r) :
    Faithful s₀ (w.after data r) := by
  cases h with
  | done hopen' _ hwire' hsound' =>
    refine .going hopen' (by simp [Writing.after, ht]) ?_ fun hs => hsound' (hsound hs)
    simp only [Writing.after]
    rw [hwire', hwire, List.append_assoc]
  | cut _ hf hwire' hu =>
    refine .failed hf ?_ fun hs => hu (hsound hs)
    simp only [Writing.after]
    rwa [← List.append_assoc, ← hwire]

theorem reserve_after {n : Nat} (hn : n ≤ w.pw.cap) (hd : data.length ≤ n) (hopen : w.pw.Open) :
    ∃ r, w.reserve n data = w.after data r ∧ Outcome w.pw w.sock data r := by
  have ho := @reserve_outcome w.pw w.sock n hopen hn
  rw [Writing.reserve, if_neg (by omega)]
  generalize w.pw.reserve w.sock n = r at ho
  cases ho with
  | @given pw' s' hopen' hcap hroom hwire hsound =>
    obtain ⟨hopen'', hpend⟩ := hopen'.append (Nat.le_trans hd hroom)
    refine ⟨_, rfl, .done hopen'' hcap ?_ hsound⟩
    rw [hpend, ← List.append_assoc, hwire]
  | cut hok hf hwire hu => exact ⟨_, rfl, .cut hok hf (hwire.trans (List.prefix_append _ _)) hu⟩

theorem Faithful.still (hf : w.pw.failed = true) (hwire : w.sock.wire <+: s₀.wire ++ w.written)
    (hu : ¬ s₀.Sound) (data : List Byte) :
    Faithful s₀ (w.after data (false, w.pw, w.sock)) := by
  refine .failed hf (hwire.trans ?_) hu
  simp only [Writing.after]
  rw [← List.append_assoc]
  exact List.prefix_append _ _

theorem not_wraps_of (h : (w.fits (.flushWith data)) = true) : ¬ w.pw.Wraps data := fun hw => by
  simp only [fits, fitsInt, Bool.or_eq_true, decide_eq_true_eq] at h
  rcases h with h | h
  · exact h hw.1
  · have := hw.2
    omega

theorem Faithful.step (h : Faithful s₀ w) {op : WriterOp} (hf : w.fits op = true)
    (hs : w.step op = some w') : Faithful s₀ w' := by
  cases h with
  | going hopen ht hwire hsound =>
    cases op with
    | reserve n data hd =>
      cases hs
      by_cases hn : n ≤ w.pw.cap
      · obtain ⟨r, hr, ho⟩ := reserve_after hn hd hopen
        rw [hr]
        exact .after ht hwire hsound ho
      · rw [Writing.reserve, if_pos (by omega)]
        exact .going hopen ht hwire hsound
    | write data =>
      cases hs
      refine .after ht hwire hsound (write_done hopen ?_)
      simpa only [fits, fitsInt, Bool.or_eq_true, decide_eq_true_eq] using hf
    | flush =>
      cases hs
      exact .after ht hwire hsound (flush_done hopen)
    | flushWith data =>
      cases hs
      exact .after ht hwire hsound (flushWith_done hopen (not_wraps_of hf))
    | send data =>
      cases hs
      refine .after ht hwire hsound (send_done hopen ?_)
      simpa only [fits, fitsInt, Bool.or_eq_true, decide_eq_true_eq] using hf
  | failed hfail hwire hu =>
    obtain ⟨h1, h2, h3, h4⟩ := failed_still hfail w.sock []
    cases op with
    | reserve n data hd =>
      cases hs
      rw [Writing.reserve]
      split
      · exact .failed hfail hwire hu
      · rw [h4 n]
        exact .still hfail hwire hu data
    | write data =>
      cases hs
      rw [(failed_still hfail w.sock data).2.1]
      exact .still hfail hwire hu data
    | flush =>
      cases hs
      rw [flush, h1]
      exact .still hfail hwire hu []
    | flushWith data =>
      cases hs
      rw [(failed_still hfail w.sock data).1]
      exact .still hfail hwire hu data
    | send data =>
      cases hs
      rw [(failed_still hfail w.sock data).2.2.1]
      exact .still hfail hwire hu data

theorem init_faithful (shape : Shape) (buf : Mem Byte) (s₀ : Socket) :
    Faithful s₀ (init shape buf s₀) := by
  refine .going ⟨⟨Nat.zero_le _, Nat.zero_le _, Nat.zero_le _, shape.small⟩, rfl, rfl⟩ rfl ?_ id
  simp [init, Pipewriter.init, pending]

/-- The writer keeps what it is given: all of it is out or pending as long as it
has not failed, what is out is a part from the front in any case, and neither
`failed` nor a report of failure comes without a send that failed. -/
structure Fidelity (s₀ : Socket) (w : Writing) : Prop where
  whole : w.pw.failed = false → w.sock.wire ++ w.pw.pending = s₀.wire ++ w.written
  part : w.sock.wire <+: s₀.wire ++ w.written
  blamed : w.pw.failed = true ∨ w.told = true → ¬ s₀.Sound

theorem Faithful.fidelity (h : Faithful s₀ w) : Fidelity s₀ w := by
  cases h with
  | going hopen ht hwire _ =>
    refine ⟨fun _ => hwire, hwire ▸ List.prefix_append _ _, fun hc => ?_⟩
    rw [hopen.going, ht] at hc
    simp at hc
  | failed hf hwire hu =>
    refine ⟨fun hc => ?_, hwire, fun _ => hu⟩
    rw [hf] at hc
    cases hc

theorem writer_fidelity {shape : Shape} {buf : Mem Byte}
    (h : Reach step fits (init shape buf s₀) w) : Fidelity s₀ w :=
  (h.invariant (init_faithful shape buf s₀) fun _ _ _ hi hf hs => hi.step hf hs).fidelity

def tinyShape : Shape := ⟨0, 4, 0, by decide⟩

/-- A slab that fills, data longer than it, and sends of a byte or two. -/
def shortRun : List WriterOp :=
  [.write [1, 2, 3], .reserve 2 [4, 5] (by decide), .send [6, 7, 8, 9, 10], .write [11],
    .flushWith [12, 13]]

def shortPlan : Socket := ⟨[], [.some 0, .some 1, .some 0, .some 2, .some 0]⟩

theorem writer_fidelity_short : ∃ w, Reach step fits (init tinyShape (fun _ => 0) shortPlan) w ∧
    (w.sock.wire, w.pw.failed) = ([1, 2, 3, 4, 5, 6, 7, 8, 9, 10, 11, 12, 13], false) ∧
    Fidelity shortPlan w := by
  have h : (Runs.perform step fits (init tinyShape (fun _ => 0) shortPlan) shortRun).map
      (fun w => (w.sock.wire, w.pw.failed)) =
        some ([1, 2, 3, 4, 5, 6, 7, 8, 9, 10, 11, 12, 13], false) := by decide
  obtain ⟨w, hw, hb⟩ := Option.map_eq_some_iff.mp h
  have hr := Reach.start.perform hw
  exact ⟨w, hr, hb, writer_fidelity hr⟩

theorem wraps_fails (shape : Shape) (buf : Mem Byte) {data : List Byte}
    (hd : 2 ^ 31 ≤ data.length % 2 ^ 32) (s : Socket) :
    ((init shape buf s).pw.flushWith s data).2.1.failed = true := by
  have ho := @flushWith_outcome (init shape buf s).pw
    ⟨Nat.zero_le _, Nat.zero_le _, Nat.zero_le _, shape.small⟩ rfl s data
  generalize (init shape buf s).pw.flushWith s data = r at ho
  cases ho with
  | sent hw _ => exact absurd ⟨rfl, hd⟩ hw
  | wrapped => rfl
  | cut => rfl

theorem not_fidelity {data : List Byte} (hd : 2 ^ 31 ≤ data.length % 2 ^ 32) :
    ∃ w, Reach step (fun _ _ => true) (init tinyShape (fun _ => 0) ⟨[], []⟩) w ∧
      ¬ Fidelity ⟨[], []⟩ w := by
  refine ⟨_, .next .start rfl (rfl : step _ (.flushWith data) = some _), fun hf => ?_⟩
  exact hf.blamed (.inl (wraps_fails tinyShape _ hd _)) nofun

/-- Data of 2³¹ bytes: all of it goes out, and the writer has failed. -/
theorem wrapped_failure : ¬ ∀ (shape : Shape) (buf : Mem Byte) (s₀ : Socket) (w : Writing),
    Reach step (fun _ _ => true) (init shape buf s₀) w → Fidelity s₀ w := by
  intro h
  have hlen : 2 ^ 31 ≤ (List.replicate (2 ^ 31) (0 : Byte)).length % 2 ^ 32 := by
    rw [List.length_replicate]
    decide
  obtain ⟨w, hr, hn⟩ := not_fidelity hlen
  exact hn (h _ _ _ _ hr)

end Writing

end Ioxd.Pipe
