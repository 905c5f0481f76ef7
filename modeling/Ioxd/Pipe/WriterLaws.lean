import Ioxd.Pipe.Writer
import Mathlib.Data.List.Basic

/-!
# What each writer operation does

A send puts all of its bytes on the wire, or a prefix of them and fails. A
flush sends the pending span and what comes behind it; the laws of `front`,
`back` and the copies say what that span is.
-/

namespace Ioxd.Pipe

open Flat

namespace Socket

variable {s s' : Socket} {data : List Byte}

/-- Every send to come takes some bytes. -/
def Sound (s : Socket) : Prop := ∀ r ∈ s.plan, ∃ k, r = .some k

/-- All of `data` went out. -/
structure Done (s s' : Socket) (data : List Byte) : Prop where
  wire : s'.wire = s.wire ++ data
  sound : s.Sound → s'.Sound

/-- Some of `data` went out, and then a send failed. -/
structure Cut (s s' : Socket) (data : List Byte) : Prop where
  wire : ∃ t, t <+: data ∧ s'.wire = s.wire ++ t
  unsound : ¬ s.Sound

theorem Done.refl (s : Socket) : Done s s [] := ⟨by simp, fun h => h⟩

theorem Done.trans (h : Done s s' d) (h' : Done s' s'' d') : Done s s'' (d ++ d') :=
  ⟨by rw [h'.wire, h.wire, List.append_assoc], fun hs => h'.sound (h.sound hs)⟩

theorem Done.cut (h : Done s s' d) (h' : Cut s' s'' d') : Cut s s'' (d ++ d') := by
  obtain ⟨⟨t, ht, hw⟩, hu⟩ := h'
  refine ⟨⟨d ++ t, (List.prefix_append_right_inj d).mpr ht, ?_⟩, fun hs => hu (h.sound hs)⟩
  rw [hw, h.wire, List.append_assoc]

theorem Cut.of_append (h : Cut s s' d) (d' : List Byte) : Cut s s' (d ++ d') := by
  obtain ⟨⟨t, ht, hw⟩, hu⟩ := h
  exact ⟨⟨t, ht.trans (List.prefix_append d d'), hw⟩, hu⟩

theorem take_cases (s : Socket) (hd : data ≠ []) :
    ((s.take data).1 ≤ 0 ∧ Cut s (s.take data).2 data) ∨
      ∃ n : Nat, (s.take data).1 = n ∧ 0 < n ∧ n ≤ data.length ∧
        Done s (s.take data).2 (data.take n) := by
  have hpos := List.length_pos_iff.mpr hd
  have hbad {r : Sent} {plan : List Sent} (hp : s.plan = r :: plan) (hr : ∀ k, r ≠ .some k) :
      ¬ s.Sound := by
    intro hs
    obtain ⟨k, hk⟩ := hs r (by simp [hp])
    exact hr k hk
  unfold take
  split
  · rename_i e plan hp
    exact .inl ⟨by dsimp only; omega, ⟨[], List.nil_prefix, by simp⟩, hbad hp (by simp)⟩
  · rename_i plan hp
    exact .inl ⟨by simp, ⟨[], List.nil_prefix, by simp⟩, hbad hp (by simp)⟩
  · rename_i k plan hp
    refine .inr ⟨_, rfl, by omega, by omega, rfl, fun hs r hr => ?_⟩
    exact hs r (by rw [hp]; exact List.mem_cons_of_mem _ hr)
  · rename_i hp
    exact .inr ⟨_, rfl, by omega, by omega, rfl, fun hs r hr => hs r hr⟩

theorem sendLoop_cases {fuel : Nat} (hf : data.length < fuel) :
    (∃ s', s.sendLoop fuel data = (none, s') ∧ Done s s' data) ∨
      ∃ e s', s.sendLoop fuel data = (some e, s') ∧ e < 0 ∧ Cut s s' data := by
  induction fuel generalizing s data with
  | zero => omega
  | succ fuel ih =>
    unfold sendLoop
    split
    · rename_i hd
      exact .inl ⟨s, rfl, hd ▸ .refl s⟩
    rename_i hd
    dsimp only
    rcases take_cases s hd with ⟨hle, hc⟩ | ⟨n, hn, hpos, hlen, hdone⟩
    · right
      split
      · exact ⟨_, _, rfl, ‹_›, hc⟩
      · rw [if_pos (by omega)]
        exact ⟨_, _, rfl, by decide, hc⟩
    · rw [if_neg (by omega), if_neg (by omega), hn, Int.toNat_natCast]
      have hlt : (data.drop n).length < fuel := by
        rw [List.length_drop]
        omega
      rcases ih (s := (s.take data).2) hlt with ⟨s', hs', h'⟩ | ⟨e, s', hs', he, h'⟩
      · refine .inl ⟨s', hs', ?_⟩
        have := hdone.trans h'
        rwa [List.take_append_drop] at this
      · refine .inr ⟨e, s', hs', he, ?_⟩
        have := hdone.cut h'
        rwa [List.take_append_drop] at this

theorem connSend_cases (s : Socket) (data : List Byte) :
    (∃ s', s.connSend data = (Int.bmod data.length (2 ^ 32), s') ∧ Done s s' data) ∨
      ∃ e s', s.connSend data = (e, s') ∧ e < 0 ∧ Cut s s' data := by
  unfold connSend
  rcases sendLoop_cases (s := s) (Nat.lt_succ_self data.length) with ⟨s', hs', h⟩ | ⟨e, s', hs', he, h⟩
  · exact .inl ⟨s', by rw [hs'], h⟩
  · exact .inr ⟨e, s', by rw [hs'], he, h⟩

theorem flatten_past (n : Nat) (iov : List (List Byte)) :
    (past n iov).flatten = iov.flatten.drop n := by
  induction iov generalizing n with
  | nil => simp [past]
  | cons p ps ih =>
    unfold past
    split
    · rename_i hle
      rw [ih, List.flatten_cons, List.drop_append, List.drop_eq_nil_of_le hle, List.nil_append]
    · rw [List.flatten_cons, List.flatten_cons, List.drop_append_of_le_length (by omega)]

theorem past_ne_nil {n : Nat} {iov : List (List Byte)} (h : ∀ p ∈ iov, p ≠ []) :
    ∀ p ∈ past n iov, p ≠ [] := by
  induction iov generalizing n with
  | nil => simp [past]
  | cons p ps ih =>
    unfold past
    split
    · exact ih fun q hq => h q (List.mem_cons_of_mem _ hq)
    · intro q hq
      rcases List.mem_cons.mp hq with rfl | hq
      · intro hn
        have := congrArg List.length hn
        simp at this
        omega
      · exact h q (List.mem_cons_of_mem _ hq)

theorem sendvLoop_cases {fuel : Nat} {iov : List (List Byte)} (hf : iov.flatten.length < fuel)
    (hne : ∀ p ∈ iov, p ≠ []) :
    (∃ s', s.sendvLoop fuel iov = (0, s') ∧ Done s s' iov.flatten) ∨
      ∃ e s', s.sendvLoop fuel iov = (e, s') ∧ e < 0 ∧ Cut s s' iov.flatten := by
  induction fuel generalizing s iov with
  | zero => omega
  | succ fuel ih =>
    unfold sendvLoop
    split
    · rename_i hd
      exact .inl ⟨s, rfl, hd ▸ .refl s⟩
    rename_i hd
    have hfl : iov.flatten ≠ [] := by
      obtain ⟨p, ps, rfl⟩ := List.exists_cons_of_ne_nil hd
      simp [hne p (by simp)]
    dsimp only
    rcases take_cases s hfl with ⟨hle, hc⟩ | ⟨n, hn, hpos, hlen, hdone⟩
    · right
      split
      · exact ⟨_, _, rfl, ‹_›, hc⟩
      · rw [if_pos (by omega)]
        exact ⟨_, _, rfl, by decide, hc⟩
    · rw [if_neg (by omega), if_neg (by omega), hn, Int.toNat_natCast]
      have hlt : (past n iov).flatten.length < fuel := by
        rw [flatten_past, List.length_drop]
        omega
      rcases ih (s := (s.take iov.flatten).2) hlt (past_ne_nil hne) with
        ⟨s', hs', h'⟩ | ⟨e, s', hs', he, h'⟩
      · refine .inl ⟨s', hs', ?_⟩
        have := hdone.trans h'
        rwa [flatten_past, List.take_append_drop] at this
      · refine .inr ⟨e, s', hs', he, ?_⟩
        have := hdone.cut h'
        rwa [flatten_past, List.take_append_drop] at this

end Socket

namespace Pipewriter

variable {pw : Pipewriter} {s : Socket} {data : List Byte}

structure Ok (pw : Pipewriter) : Prop where
  head : pw.head ≤ pw.lead
  len : pw.len ≤ pw.cap
  tail : pw.tail ≤ pw.slack
  -- what a successful `ioxd__conn_send` of the whole slab returns is not negative
  small : pw.lead + pw.cap + pw.slack < 2 ^ 31

/-- The data bytes in the slab. -/
def slab (pw : Pipewriter) : List Byte := pw.buf.read pw.lead pw.len

/-- The one success that `flush_with` takes for a failure: nothing is pending,
and the length of what comes behind it is negative as an `int`. -/
def Wraps (pw : Pipewriter) (data : List Byte) : Prop :=
  pw.head + pw.len + pw.tail = 0 ∧ 2 ^ 31 ≤ data.length % 2 ^ 32

theorem bmod_neg_iff (n : Nat) : Int.bmod n (2 ^ 32) < 0 ↔ 2 ^ 31 ≤ n % 2 ^ 32 := by
  rw [Int.bmod_def]
  split <;> omega

@[simp] theorem length_pending (pw : Pipewriter) :
    pw.pending.length = pw.head + pw.len + pw.tail := by simp [pending]

@[simp] theorem length_slab (pw : Pipewriter) : pw.slab.length = pw.len := by simp [slab]

theorem reset_ok (h : pw.Ok) : pw.reset.Ok := ⟨Nat.zero_le _, Nat.zero_le _, Nat.zero_le _, h.small⟩

@[simp] theorem pending_reset (pw : Pipewriter) : pw.reset.pending = [] := by simp [pending, reset]

@[simp] theorem slab_reset (pw : Pipewriter) : pw.reset.slab = [] := by simp [slab, reset]

inductive FlushOutcome (pw : Pipewriter) (s : Socket) (data : List Byte) :
    Bool × Pipewriter × Socket → Prop
  | sent {s' : Socket} : ¬ Wraps pw data → s.Done s' (pw.pending ++ data) →
      FlushOutcome pw s data (true, pw.reset, s')
  | wrapped {s' : Socket} : Wraps pw data → s.Done s' (pw.pending ++ data) →
      FlushOutcome pw s data (false, { pw.reset with failed := true }, s')
  | cut {s' : Socket} : s.Cut s' (pw.pending ++ data) →
      FlushOutcome pw s data (false, { pw.reset with failed := true }, s')

/-- The send of a flush: all of it and no negative result, all of it and a
wrapped one, or a failure. -/
theorem sendSpan_cases (h : pw.Ok) (s : Socket) (data : List Byte) :
    (∃ rc s', pw.sendSpan s data = (rc, s') ∧ (rc < 0 ↔ Wraps pw data) ∧
      s.Done s' (pw.pending ++ data)) ∨
      ∃ e s', pw.sendSpan s data = (e, s') ∧ e < 0 ∧ s.Cut s' (pw.pending ++ data) := by
  obtain ⟨h1, h2, h3, h4⟩ := h
  unfold sendSpan
  dsimp only
  by_cases ht : pw.head + pw.len + pw.tail = 0
  · have hp : pw.pending = [] := by
      rw [← List.length_eq_zero_iff, length_pending, ht]
    rw [if_neg fun hx => hx.1 ht, if_neg (not_not.mpr ht), hp, List.nil_append]
    split
    · rcases Socket.connSend_cases s data with ⟨s', hs, hdone⟩ | hcut
      · refine .inl ⟨_, s', hs, ?_, hdone⟩
        rw [bmod_neg_iff]
        exact ⟨fun hw => ⟨ht, hw⟩, fun hw => hw.2⟩
      · exact .inr hcut
    · rename_i hd
      rw [not_not] at hd
      subst hd
      refine .inl ⟨0, s, rfl, ⟨by simp, fun hw => ?_⟩, .refl s⟩
      have := hw.2
      simp at this
  · have hw : ¬ Wraps pw data := fun hw => ht hw.1
    have hp : pw.pending ≠ [] := by
      rwa [ne_eq, ← List.length_eq_zero_iff, length_pending]
    by_cases hd : data = []
    · rw [if_neg fun hx => hx.2 hd, if_pos ht, hd, List.append_nil]
      rcases Socket.connSend_cases s pw.pending with ⟨s', hs, hdone⟩ | hcut
      · refine .inl ⟨_, s', hs, ?_, hdone⟩
        rw [bmod_neg_iff, length_pending]
        refine ⟨fun hx => ?_, fun hx => absurd (hd ▸ hx) hw⟩
        omega
      · exact .inr hcut
    · rw [if_pos ⟨ht, hd⟩]
      have hne : ∀ p ∈ [pw.pending, data], p ≠ [] := by simp [hp, hd]
      have hfl : [pw.pending, data].flatten = pw.pending ++ data := by simp
      rw [← hfl]
      rcases Socket.sendvLoop_cases (s := s) (Nat.lt_succ_self _) hne with ⟨s', hs, hdone⟩ | hcut
      · exact .inl ⟨0, s', hs, ⟨by simp, fun hx => absurd hx hw⟩, hdone⟩
      · exact .inr hcut

theorem flushWith_outcome (h : pw.Ok) (hf : pw.failed = false) (s : Socket) (data : List Byte) :
    FlushOutcome pw s data (pw.flushWith s data) := by
  unfold flushWith
  rcases sendSpan_cases h s data with ⟨rc, s', hs, hw, hdone⟩ | ⟨e, s', hs, he, hcut⟩
  · simp only [hf, Bool.false_eq_true, if_false]
    rw [hs]
    dsimp only
    split
    · exact .wrapped (hw.mp ‹_›) hdone
    · exact .sent (fun hx => ‹¬ _› (hw.mpr hx)) hdone
  · simp only [hf, hs, he, Bool.false_eq_true, if_false, if_true]
    exact .cut hcut

inductive ThroughOutcome (pw : Pipewriter) (s : Socket) (data : List Byte) :
    Bool × Pipewriter × Socket → Prop
  | sent {s' : Socket} : s.Done s' data → ThroughOutcome pw s data (true, pw, s')
  | cut {s' : Socket} : s.Cut s' data →
      ThroughOutcome pw s data (false, { pw with failed := true }, s')

theorem through_outcome (hf : pw.failed = false) (hd : data.length < 2 ^ 31) :
    ThroughOutcome pw s data (pw.through s data) := by
  unfold through
  simp only [hf, Bool.false_eq_true, if_false]
  rcases Socket.connSend_cases s data with ⟨s', hs, hdone⟩ | ⟨e, s', hs, he, hcut⟩
  · have hpos : ¬ Int.bmod data.length (2 ^ 32) < 0 := by
      rw [bmod_neg_iff]
      omega
    simp only [hs, if_neg hpos]
    exact .sent hdone
  · simp only [hs, if_pos he]
    exact .cut hcut

-- ---------------------------------------------------------------------------
-- The span
-- ---------------------------------------------------------------------------

theorem append_spec (h : pw.Ok) (ht : pw.tail = 0) (hd : data.length ≤ pw.room) :
    ((pw.copyTo pw.at' data).advance data.length).Ok ∧
      ((pw.copyTo pw.at' data).advance data.length).slab = pw.slab ++ data ∧
      ((pw.copyTo pw.at' data).advance data.length).pending = pw.pending ++ data := by
  obtain ⟨h1, h2, h3, h4⟩ := h
  unfold room at hd
  have hlen : ((pw.copyTo pw.at' data).advance data.length).len = pw.len + data.length := by
    simp only [advance, copyTo, room]
    omega
  refine ⟨⟨h1, by rw [hlen]; show pw.len + data.length ≤ pw.cap; omega, h3, h4⟩, ?_, ?_⟩
  · unfold slab
    rw [hlen]
    exact read_write_behind _ _ rfl
  · unfold pending
    rw [hlen]
    simp only [advance, copyTo, at', ht, Nat.add_zero]
    rw [← Nat.add_assoc]
    exact read_write_behind _ _ (by omega)

theorem front_eq {n : Nat} (hn : n ≤ pw.lead - pw.head) :
    pw.front n = (some (pw.lead - (pw.head + n)), { pw with head := pw.head + n }) := by
  unfold front
  rw [if_neg (by omega)]

theorem back_eq {n : Nat} (hn : n ≤ pw.slack - pw.tail) :
    pw.back n = (some (pw.lead + pw.len + pw.tail), { pw with tail := pw.tail + n }) := by
  unfold back
  rw [if_neg (by omega)]

/-- Bytes copied to the room that `front` gave are in front of the span. -/
theorem front_spec (h : pw.Ok) (hd : data.length ≤ pw.lead - pw.head) :
    (({ pw with head := pw.head + data.length } : Pipewriter).copyTo
        (pw.lead - (pw.head + data.length)) data).Ok ∧
      (({ pw with head := pw.head + data.length } : Pipewriter).copyTo
        (pw.lead - (pw.head + data.length)) data).pending = data ++ pw.pending := by
  obtain ⟨h1, h2, h3, h4⟩ := h
  refine ⟨⟨?_, h2, h3, h4⟩, ?_⟩
  · show pw.head + data.length ≤ pw.lead
    omega
  · show (pw.buf.write (pw.lead - (pw.head + data.length)) data).read
      (pw.lead - (pw.head + data.length)) (pw.head + data.length + pw.len + pw.tail) = _
    rw [show pw.head + data.length + pw.len + pw.tail =
      data.length + (pw.head + pw.len + pw.tail) by omega,
      read_split _ (k := pw.lead - pw.head) (by omega) rfl, read_write_self,
      read_write_above _ _ (by omega)]
    rfl

/-- Bytes copied to the room that `back` gave are behind the span. -/
theorem back_spec (h : pw.Ok) (hd : data.length ≤ pw.slack - pw.tail) :
    (({ pw with tail := pw.tail + data.length } : Pipewriter).copyTo
        (pw.lead + pw.len + pw.tail) data).Ok ∧
      (({ pw with tail := pw.tail + data.length } : Pipewriter).copyTo
        (pw.lead + pw.len + pw.tail) data).pending = pw.pending ++ data := by
  obtain ⟨h1, h2, h3, h4⟩ := h
  refine ⟨⟨h1, h2, ?_, h4⟩, ?_⟩
  · show pw.tail + data.length ≤ pw.slack
    omega
  · show (pw.buf.write (pw.lead + pw.len + pw.tail) data).read (pw.lead - pw.head)
      (pw.head + pw.len + (pw.tail + data.length)) = _
    rw [← Nat.add_assoc]
    exact read_write_behind _ _ (by omega)

end Pipewriter

end Ioxd.Pipe
