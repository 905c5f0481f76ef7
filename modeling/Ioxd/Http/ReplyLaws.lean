import Ioxd.Http.HeadLaws
import Ioxd.Http.Reply
import Ioxd.Pipe.WriterLaws

/-!
# What a flush puts on the wire

The span a flush sends, from the data in the slab and the framing, and the
outcomes of each stage: sent, or cut by a failed send. A success that
`flush_with` of the pipe takes for a failure is an outcome of its own.
-/

namespace Ioxd.Http

open Flat
open Ioxd.Pipe

def chunkOf (data : List Byte) : List Byte :=
  if data = [] then [] else putHex data.length ++ crlf ++ data ++ crlf

def spanOf (chunked final : Bool) (data : List Byte) : List Byte :=
  if chunked then chunkOf data ++ (if final then terminator else []) else data

@[simp] theorem spanOf_plain (final : Bool) (data : List Byte) : spanOf false final data = data := rfl

@[simp] theorem spanOf_chunk (data : List Byte) : spanOf true false data = chunkOf data := by
  simp [spanOf]

@[simp] theorem spanOf_last (data : List Byte) : spanOf true true data = chunkOf data ++ terminator := rfl

/-- A writer between two flushes. -/
structure Fit (pw : Pipewriter) : Prop where
  ok : pw.Ok
  head : pw.head = 0
  tail : pw.tail = 0
  lead : pw.lead = pipeLead
  slack : pw.slack = pipeSlack

/-- The same writer, but for its bytes and how many there are. -/
structure Kin (pw pw' : Pipewriter) : Prop where
  lead : pw'.lead = pw.lead
  cap : pw'.cap = pw.cap
  slack : pw'.slack = pw.slack
  failed : pw'.failed = pw.failed

theorem Kin.refl (pw : Pipewriter) : Kin pw pw := ⟨rfl, rfl, rfl, rfl⟩

theorem Kin.trans (h : Kin a b) (h' : Kin b c) : Kin a c :=
  ⟨h'.lead.trans h.lead, h'.cap.trans h.cap, h'.slack.trans h.slack, h'.failed.trans h.failed⟩

variable {pw pw' : Pipewriter} {s s' : Socket} {ctx : Ctx}

theorem Fit.pending (h : Fit pw) : pw.pending = pw.slab := by
  simp [Pipewriter.pending, Pipewriter.slab, h.head, h.tail]

theorem putHex_length (n : Nat) : (putHex n).length ≤ 16 := putDigits_size ..

theorem putChunk_spec (h : Fit pw) : ∃ pw', putChunk pw = (true, pw') ∧ pw'.Ok ∧ Kin pw pw' ∧
    pw'.pending = putHex pw.len ++ crlf ++ pw.slab ++ crlf ∧ pw'.tail = 2 := by
  have hlen := putHex_length pw.len
  have hfit : (putHex pw.len ++ crlf).length ≤ pw.lead - pw.head := by
    rw [h.lead, h.head, List.length_append]
    have : pipeLead = 512 := rfl
    simp only [List.length_cons, List.length_nil]
    omega
  have hback : 2 ≤ pw.slack - pw.tail := by
    rw [h.slack, h.tail]
    decide
  obtain ⟨hok, hp⟩ := Pipewriter.front_spec h.ok hfit
  obtain ⟨hok', hp'⟩ := Pipewriter.back_spec hok (show crlf.length ≤ _ from hback)
  rw [hp, h.pending] at hp'
  refine ⟨_, ?_, hok', ⟨rfl, rfl, rfl, rfl⟩, hp', ?_⟩
  · unfold putChunk
    simp only [Pipewriter.front_eq hfit]
    rw [Pipewriter.back_eq (by exact hback)]
    rfl
  · show pw.tail + 2 = 2
    rw [h.tail]

theorem putTerminator_spec (h : pw.Ok) (hs : pw.slack = pipeSlack) (ht : pw.tail ≤ 2) :
    ∃ pw', putTerminator pw = (true, pw') ∧ pw'.Ok ∧ Kin pw pw' ∧
      pw'.pending = pw.pending ++ terminator := by
  have hfit : terminator.length ≤ pw.slack - pw.tail := by
    rw [hs]
    have h1 : terminator.length = 5 := by decide
    have h2 : pipeSlack = 8 := rfl
    omega
  obtain ⟨hok, hp⟩ := Pipewriter.back_spec h hfit
  refine ⟨_, ?_, hok, ⟨rfl, rfl, rfl, rfl⟩, hp⟩
  unfold putTerminator
  rw [show (5 : Nat) = terminator.length by decide, Pipewriter.back_eq hfit]

theorem span_spec (h : Fit pw) (chunked final : Bool) : ∃ pw₁ pw₂,
    (if chunked = true ∧ pw.len ≠ 0 then putChunk pw else (true, pw)) = (true, pw₁) ∧
    (if final = true ∧ chunked = true then putTerminator pw₁ else (true, pw₁)) = (true, pw₂) ∧
    pw₂.Ok ∧ Kin pw pw₂ ∧ pw₂.pending = spanOf chunked final pw.slab := by
  have hnil : pw.slab = [] ↔ pw.len = 0 := by
    rw [← List.length_eq_zero_iff, Pipewriter.length_slab]
  obtain ⟨pw₁, h1, hok1, hkin1, hp1, ht1⟩ : ∃ pw₁,
      (if chunked = true ∧ pw.len ≠ 0 then putChunk pw else (true, pw)) = (true, pw₁) ∧ pw₁.Ok ∧
      Kin pw pw₁ ∧ pw₁.pending = (if chunked then chunkOf pw.slab else pw.slab) ∧
      pw₁.tail ≤ 2 := by
    by_cases hc : chunked = true ∧ pw.len ≠ 0
    · obtain ⟨pw₁, h1, h2, h3, h4, h5⟩ := putChunk_spec h
      refine ⟨pw₁, by rw [if_pos hc, h1], h2, h3, ?_, by omega⟩
      rw [h4, if_pos hc.1, chunkOf, if_neg (fun hn => hc.2 (hnil.mp hn)), Pipewriter.length_slab]
    · refine ⟨pw, by rw [if_neg hc], h.ok, .refl pw, ?_, by rw [h.tail]; omega⟩
      rw [h.pending]
      split
      · have h0 : pw.slab = [] := hnil.mpr (by simpa [‹chunked = true›] using hc)
        rw [h0, chunkOf, if_pos rfl]
      · rfl
  by_cases hf : final = true ∧ chunked = true
  · obtain ⟨pw₂, h2, hok2, hkin2, hp2⟩ :=
      putTerminator_spec hok1 (hkin1.slack.trans h.slack) ht1
    refine ⟨pw₁, pw₂, h1, by rw [if_pos hf, h2], hok2, hkin1.trans hkin2, ?_⟩
    rw [hp2, hp1, spanOf, if_pos hf.2, if_pos hf.2, if_pos hf.1]
  · refine ⟨pw₁, pw₁, h1, by rw [if_neg hf], hok1, hkin1, ?_⟩
    rw [hp1, spanOf]
    cases chunked <;> cases final <;> simp at hf ⊢

inductive HeadOutcome (pw : Pipewriter) (s : Socket) (head : List Byte) :
    Bool × Pipewriter × Socket → Prop
  | placed {pw' : Pipewriter} {s' : Socket} {ahead : List Byte} : pw'.Ok → Kin pw pw' →
      s.Done s' ahead → ahead ++ pw'.pending = head ++ pw.pending →
      (pw'.pending = [] ↔ pw.pending = [] ∧ pw.lead - pw.head < head.length) →
      HeadOutcome pw s head (true, pw', s')
  | cut {pw' : Pipewriter} {s' : Socket} : pw'.failed = true → s.Cut s' head →
      HeadOutcome pw s head (false, pw', s')

theorem putHead_outcome (h : pw.Ok) (hf : pw.failed = false) {head : List Byte} (hne : head ≠ [])
    (hlen : head.length < 2 ^ 31) : HeadOutcome pw s head (putHead pw s head) := by
  unfold putHead
  by_cases hfit : head.length ≤ pw.lead - pw.head
  · obtain ⟨hok, hp⟩ := Pipewriter.front_spec h hfit
    rw [Pipewriter.front_eq hfit]
    refine .placed hok ⟨rfl, rfl, rfl, rfl⟩ (.refl s) hp ⟨fun hn => ?_, fun hn => by omega⟩
    rw [hp] at hn
    simp [hne] at hn
  · have hfr : pw.front head.length = (none, pw) := by
      unfold Pipewriter.front
      rw [if_pos (by omega)]
    rw [hfr]
    have ht := Pipewriter.through_outcome (s := s) hf hlen
    dsimp only
    generalize pw.through s head = r at ht
    cases ht with
    | sent hd => exact .placed h (.refl pw) hd rfl ⟨fun hn => ⟨hn, by omega⟩, fun hn => hn.1⟩
    | cut hc => exact .cut rfl hc

/-- The one message that is taken for a failure when it is not: nothing but the
bytes behind the span is in it, and their number is negative as an `int`. -/
def Wraps (span head extra : List Byte) : Prop :=
  span = [] ∧ (head ≠ [] → pipeLead < head.length) ∧ 2 ^ 31 ≤ extra.length % 2 ^ 32

inductive EmitOutcome (pw : Pipewriter) (s : Socket) (chunked final : Bool)
    (head extra : List Byte) : Bool × Pipewriter × Socket → Prop
  | sent {pw' : Pipewriter} {s' : Socket} : Fit pw' → Kin pw pw' → pw'.len = 0 →
      s.Done s' (head ++ spanOf chunked final pw.slab ++ extra) →
      EmitOutcome pw s chunked final head extra (true, pw', s')
  | wrapped {pw' : Pipewriter} {s' : Socket} : Wraps (spanOf chunked final pw.slab) head extra →
      pw'.failed = true → s.Done s' (head ++ spanOf chunked final pw.slab ++ extra) →
      EmitOutcome pw s chunked final head extra (false, pw', s')
  | cut {pw' : Pipewriter} {s' : Socket} : pw'.failed = true →
      s.Cut s' (head ++ spanOf chunked final pw.slab ++ extra) →
      EmitOutcome pw s chunked final head extra (false, pw', s')

theorem emit_flush {ahead : List Byte} (hfit : Fit pw) (hok : pw'.Ok) (hkin : Kin pw pw')
    (hf : pw.failed = false) (hd : s.Done s' ahead)
    (hp : ahead ++ pw'.pending = head ++ spanOf chunked final pw.slab)
    (hw : pw'.pending = [] ↔ spanOf chunked final pw.slab = [] ∧
      (head ≠ [] → pipeLead < head.length)) :
    EmitOutcome pw s chunked final head extra (pw'.flushWith s' extra) := by
  have hwraps : pw'.Wraps extra ↔ Wraps (spanOf chunked final pw.slab) head extra := by
    unfold Pipewriter.Wraps Wraps
    rw [← Pipewriter.length_pending, List.length_eq_zero_iff, hw, and_assoc]
  have ho := Pipewriter.flushWith_outcome hok (hkin.failed.trans hf) s' extra
  have hsplit : ahead ++ (pw'.pending ++ extra) =
      head ++ spanOf chunked final pw.slab ++ extra := by rw [← List.append_assoc, hp]
  generalize pw'.flushWith s' extra = r at ho
  cases ho with
  | sent hn hd' =>
    refine .sent ⟨Pipewriter.reset_ok hok, rfl, rfl, hkin.lead.trans hfit.lead,
      hkin.slack.trans hfit.slack⟩ ⟨hkin.lead, hkin.cap, hkin.slack, hkin.failed⟩ rfl ?_
    rw [← hsplit]
    exact hd.trans hd'
  | wrapped hx hd' =>
    refine .wrapped (hwraps.mp hx) rfl ?_
    rw [← hsplit]
    exact hd.trans hd'
  | cut hc =>
    refine .cut rfl ?_
    rw [← hsplit]
    exact hd.cut hc

theorem emit_outcome (h : Fit pw) (hf : pw.failed = false) {head : List Byte}
    (hlen : head.length < 2 ^ 31) (s : Socket) (chunked final : Bool) (extra : List Byte) :
    EmitOutcome pw s chunked final head extra (emit pw s chunked final head extra) := by
  obtain ⟨pw₁, pw₂, e1, e2, hok2, hkin2, hp2⟩ := span_spec h chunked final
  have hf2 : pw₂.failed = false := hkin2.failed.trans hf
  unfold emit
  simp only [e1, e2, not_true_eq_false, if_false]
  by_cases hh : head = []
  · have hn : ¬ head ≠ [] := not_not.mpr hh
    rw [if_neg hn]
    simp only [not_true_eq_false, if_false]
    refine emit_flush h hok2 hkin2 hf (.refl s) (by rw [hp2, hh]) ?_
    rw [hp2]
    simp [hh]
  · rw [if_pos hh]
    have ho := putHead_outcome (s := s) hok2 hf2 hh hlen
    generalize putHead pw₂ s head = r at ho
    cases ho with
    | placed hok hkin hd hp hw =>
      simp only [not_true_eq_false, if_false]
      refine emit_flush h hok (hkin2.trans hkin) hf hd (hp2 ▸ hp) ?_
      rw [hw, hp2]
      refine and_congr_right fun hs => ?_
      have h0 : pw₂.head = 0 := by
        have := pw₂.length_pending
        rw [hp2, hs, List.length_nil] at this
        omega
      rw [h0, hkin2.lead, h.lead, Nat.sub_zero]
      exact ⟨fun hx _ => hx, fun hx => hx hh⟩
    | cut hf' hc =>
      refine .cut hf' ?_
      rw [List.append_assoc]
      exact hc.of_append _

-- ---------------------------------------------------------------------------
-- One flush behind the head
-- ---------------------------------------------------------------------------

namespace Ctx

def admitted (ctx : Ctx) (data : List Byte) : List Byte :=
  if ctx.res.hasLength then data.take (ctx.res.contentLength - ctx.res.bodySent) else data

def Overruns (ctx : Ctx) (data : List Byte) : Prop :=
  ctx.res.hasLength = true ∧ ctx.res.contentLength - ctx.res.bodySent < data.length

def slabLeft (ctx : Ctx) (coding : Bool) : List Byte := ctx.admitted (ctx.sw coding).slab

def extraLeft (ctx : Ctx) (coding : Bool) (extra : List Byte) : List Byte :=
  if ctx.res.hasLength then
    extra.take (ctx.res.contentLength - ctx.res.bodySent - (ctx.sw coding).len)
  else extra

theorem admitted_all (h : ctx.res.hasLength = false) (data : List Byte) :
    ctx.admitted data = data := by simp [admitted, h]

theorem admitted_some (h : ctx.res.hasLength = true) (data : List Byte) :
    ctx.admitted data = data.take (ctx.res.contentLength - ctx.res.bodySent) := by simp [admitted, h]

@[simp] theorem extraLeft_nil (ctx : Ctx) (coding : Bool) : ctx.extraLeft coding [] = [] := by
  simp [extraLeft]

theorem slabLeft_append (ctx : Ctx) (coding : Bool) (extra : List Byte) :
    ctx.slabLeft coding ++ ctx.extraLeft coding extra =
      ctx.admitted ((ctx.sw coding).slab ++ extra) := by
  unfold slabLeft extraLeft admitted
  split
  · rw [List.take_append, Pipewriter.length_slab]
  · rfl

/-- The context behind a flush, but for what the flush itself did. -/
def flushed (ctx : Ctx) (coding : Bool) (extra : List Byte) (pw : Pipewriter) (sock : Socket) :
    Ctx :=
  { ctx.setSw coding pw with
    sock := sock
    res := { ctx.res with
      bodySent := ctx.res.bodySent + (ctx.admitted ((ctx.sw coding).slab ++ extra)).length } }

/-- Everything one flush sends. -/
def frame (ctx : Ctx) (final coding : Bool) (head extra : List Byte) : List Byte :=
  head ++ spanOf ctx.res.chunked final (ctx.slabLeft coding) ++ ctx.extraLeft coding extra

@[simp] theorem sw_setSw (ctx : Ctx) (coding : Bool) (pw : Pipewriter) :
    (ctx.setSw coding pw).sw coding = pw := by
  cases coding <;> rfl

@[simp] theorem res_setSw (ctx : Ctx) (coding : Bool) (pw : Pipewriter) :
    (ctx.setSw coding pw).res = ctx.res := by
  cases coding <;> rfl

@[simp] theorem sock_setSw (ctx : Ctx) (coding : Bool) (pw : Pipewriter) :
    (ctx.setSw coding pw).sock = ctx.sock := by
  cases coding <;> rfl

@[simp] theorem setSw_setSw (ctx : Ctx) (coding : Bool) (pw pw' : Pipewriter) :
    (ctx.setSw coding pw).setSw coding pw' = ctx.setSw coding pw' := by
  cases coding <;> rfl

@[simp] theorem setSw_sw (ctx : Ctx) (coding : Bool) : ctx.setSw coding (ctx.sw coding) = ctx := by
  cases coding <;> rfl

theorem clip_spec {coding : Bool} (h : Fit (ctx.sw coding)) (extra : List Byte) :
    ∃ pw overran, ctx.clip coding extra = (ctx.setSw coding pw, ctx.extraLeft coding extra, overran) ∧
      Fit pw ∧ Kin (ctx.sw coding) pw ∧ pw.slab = ctx.slabLeft coding ∧
      (overran = true ↔ ctx.Overruns ((ctx.sw coding).slab ++ extra)) := by
  unfold clip
  by_cases hl : ctx.res.hasLength
  · have hmin : ctx.res.contentLength - ctx.res.bodySent -
        min (ctx.sw coding).len (ctx.res.contentLength - ctx.res.bodySent) =
        ctx.res.contentLength - ctx.res.bodySent - (ctx.sw coding).len := by omega
    rw [if_pos hl]
    dsimp only
    rw [hmin]
    have he : ctx.extraLeft coding extra = extra.take
        (ctx.res.contentLength - ctx.res.bodySent - (ctx.sw coding).len) := by
      rw [extraLeft, if_pos hl]
    rw [he]
    refine ⟨_, _, rfl, ⟨⟨h.ok.head, ?_, h.ok.tail, h.ok.small⟩, h.head, h.tail, h.lead, h.slack⟩,
      ⟨rfl, rfl, rfl, rfl⟩, ?_, ?_⟩
    · exact (Nat.min_le_left ..).trans h.ok.len
    · rw [slabLeft, admitted, if_pos hl]
      unfold Pipewriter.slab
      dsimp only
      rw [← take_read _ _ (Nat.min_le_left ..), List.take_eq_take_iff, length_read]
      omega
    · simp only [decide_eq_true_eq, Overruns, hl, true_and, List.length_append,
        Pipewriter.length_slab]
      omega
  · rw [if_neg hl]
    refine ⟨ctx.sw coding, false, by rw [setSw_sw, extraLeft, if_neg hl], h, .refl _, ?_, ?_⟩
    · rw [slabLeft, admitted, if_neg hl]
    · simp [Overruns, hl]

/-- What a flush behind the head comes to. An overrun is told only when all
that is admitted is out. -/
inductive FrameOutcome (ctx : Ctx) (final coding : Bool) (head extra : List Byte) :
    Bool × Ctx → Prop
  | sent {pw : Pipewriter} {sock : Socket} : ¬ ctx.Overruns ((ctx.sw coding).slab ++ extra) →
      Fit pw → Kin (ctx.sw coding) pw → pw.len = 0 →
      ctx.sock.Done sock (ctx.frame final coding head extra) →
      FrameOutcome ctx final coding head extra (true, ctx.flushed coding extra pw sock)
  | overrun {pw : Pipewriter} {sock : Socket} : ctx.Overruns ((ctx.sw coding).slab ++ extra) →
      Fit pw → Kin (ctx.sw coding) pw → pw.len = 0 →
      ctx.sock.Done sock (ctx.frame final coding head extra) →
      FrameOutcome ctx final coding head extra (false, (ctx.flushed coding extra pw sock).fail)
  | wrapped {pw : Pipewriter} {sock : Socket} :
      Wraps (spanOf ctx.res.chunked final (ctx.slabLeft coding)) head
        (ctx.extraLeft coding extra) →
      pw.failed = true → ctx.sock.Done sock (ctx.frame final coding head extra) →
      FrameOutcome ctx final coding head extra (false, (ctx.flushed coding extra pw sock).fail)
  | cut {pw : Pipewriter} {sock : Socket} : pw.failed = true →
      ctx.sock.Cut sock (ctx.frame final coding head extra) →
      FrameOutcome ctx final coding head extra (false, (ctx.flushed coding extra pw sock).fail)

theorem sendFrame_outcome {coding : Bool} (h : Fit (ctx.sw coding))
    (hf : (ctx.sw coding).failed = false) {head : List Byte} (hlen : head.length < 2 ^ 31)
    (final : Bool) (extra : List Byte) :
    FrameOutcome ctx final coding head extra (ctx.sendFrame final coding head extra) := by
  obtain ⟨pw, overran, hclip, hfit, hkin, hslab, hover⟩ := clip_spec h extra
  have hn : pw.len + (ctx.extraLeft coding extra).length =
      (ctx.admitted ((ctx.sw coding).slab ++ extra)).length := by
    rw [← slabLeft_append, List.length_append, ← hslab, Pipewriter.length_slab]
  have ho := emit_outcome hfit (hkin.failed.trans hf) hlen ctx.sock ctx.res.chunked final
    (ctx.extraLeft coding extra)
  unfold sendFrame
  rw [hclip]
  simp only [sw_setSw, res_setSw, sock_setSw, setSw_setSw, hn]
  generalize emit pw ctx.sock ctx.res.chunked final head (ctx.extraLeft coding extra) = r at ho
  cases ho with
  | sent hfit' hkin' hlen' hd =>
    rw [hslab] at hd
    by_cases hov : overran = true
    · rw [if_pos (Or.inr hov)]
      exact .overrun (hover.mp hov) hfit' (hkin.trans hkin') hlen' hd
    · have hno : ¬ (¬ true = true ∨ overran = true) := by simp [hov]
      rw [if_neg hno]
      exact .sent (fun hx => hov (hover.mpr hx)) hfit' (hkin.trans hkin') hlen' hd
  | wrapped hw hf' hd =>
    rw [hslab] at hw hd
    rw [if_pos (Or.inl Bool.false_ne_true)]
    exact .wrapped hw hf' hd
  | cut hf' hc =>
    rw [hslab] at hc
    rw [if_pos (Or.inl Bool.false_ne_true)]
    exact .cut hf' hc

end Ctx

end Ioxd.Http
