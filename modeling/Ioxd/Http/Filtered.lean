import Ioxd.Http.DrainLaws
import Ioxd.Http.ReplyFidelity

/-!
# A reply through a filter

What the handler wrote passes through the filter, and what the filter wrote is
framed and sent: flush by flush, or whole when the head waited for the end.
The calls made are in `filterLog`, what they returned is what is gone of the
filter. A frame goes out in the middle of a slab whenever the coded buffer is
full, with the head if that is still held.
-/

namespace Ioxd.Http

open Flat
open Ioxd.Pipe
open Message (Head Declares Carries)

/-- What the calls consumed of their inputs. -/
def consumed : List FilterIn → List FilterOut → List Byte
  | i :: is, r :: rs => i.input.take r.inLen ++ consumed is rs
  | _, _ => []

/-- What the calls produced. -/
def produced (rs : List FilterOut) : List Byte := rs.flatMap (·.out)

theorem consumed_append {is is' : List FilterIn} {rs rs' : List FilterOut}
    (h : is.length = rs.length) :
    consumed (is ++ is') (rs ++ rs') = consumed is rs ++ consumed is' rs' := by
  induction is generalizing rs with
  | nil =>
    cases rs with
    | nil => rfl
    | cons r rs => cases h
  | cons i is ih =>
    cases rs with
    | nil => cases h
    | cons r rs => simp [consumed, ih (Nat.succ.inj h)]

@[simp] theorem produced_nil : produced [] = [] := rfl

@[simp] theorem produced_cons (r : FilterOut) (rs : List FilterOut) :
    produced (r :: rs) = r.out ++ produced rs := rfl

@[simp] theorem produced_append (rs rs' : List FilterOut) :
    produced (rs ++ rs') = produced rs ++ produced rs' := by simp [produced]

namespace Ctx

variable {ctx ctx' : Ctx} {base out input : List Byte} {head : Option (List Byte)}

-- ---------------------------------------------------------------------------
-- The loop of the filter
-- ---------------------------------------------------------------------------

/-- Between two calls of the filter: it has produced `out`, which is in the
stage, behind a head that may still be held, or in the coded buffer. -/
structure Coding (base : List Byte) (ctx : Ctx) (head : Option (List Byte)) (out : List Byte) :
    Prop where
  fit : Fit ctx.coded
  cap : ctx.coded.cap ≤ sizeMax
  able : ctx.coded.failed = false
  live : ctx.res.failed = false
  opened : head.isSome = true → ctx.res.headSent = true ∧ ctx.res.hasLength = false
  short : (head.getD []).length < 2 ^ 31
  stage : ∃ t data, ctx.sock.wire = base ++ t ∧ Stage ctx (t ++ head.getD []) data ∧
    data ++ ctx.coded.slab = out

structure Ran (ctx ctx' : Ctx) (op : FilterOp) (input : List Byte) (used rest : List FilterOut) :
    Prop where
  eq : ctx' = { ctx with
    out := { ctx.out with len := 0 }
    sock := ctx'.sock
    coded := ctx'.coded
    filter := some rest
    filterLog := ctx'.filterLog
    res := { ctx.res with bodySent := ctx'.res.bodySent } }
  log : ∃ ins, ctx'.filterLog = ctx.filterLog ++ ins ∧ ins.length = used.length ∧
    (∀ i ∈ ins, i.op = op) ∧ consumed ins used = input
  called : used ≠ []

theorem sendCoded_coding {h : List Byte} (hc : Coding base ctx (some h) out)
    (hok : (ctx.sendCoded h).1 = true) :
    Coding base (ctx.sendCoded h).2 (some []) out ∧ ∃ sock cw n, (ctx.sendCoded h).2 = { ctx with
      sock := sock, coded := cw, res := { ctx.res with bodySent := n } } := by
  obtain ⟨ctx', hr⟩ : ∃ ctx', ctx.sendCoded h = (true, ctx') := ⟨_, Prod.ext hok rfl⟩
  rw [hr]
  obtain ⟨hs, hl⟩ := hc.opened rfl
  obtain ⟨t, data, hwire, hst, hout⟩ := hc.stage
  have ho := emit_outcome hc.fit hc.able hc.short ctx.sock ctx.res.chunked false []
  unfold sendCoded at hr
  simp only [Option.getD_some] at ho hst
  generalize emit ctx.coded ctx.sock ctx.res.chunked false h [] = r at ho hr
  cases ho with
  | wrapped => simp at hr
  | cut => simp at hr
  | @sent pw sock hfit hkin h0 hd =>
    simp only [if_true, Prod.mk.injEq, true_and] at hr
    have hall : ctx.admitted ((ctx.sw true).slab ++ []) = ctx.coded.slab := by
      rw [admitted_all hl, List.append_nil]
      rfl
    have he : ctx' = ctx.flushed true [] pw sock := by
      rw [← hr]
      unfold flushed
      rw [hall, Pipewriter.length_slab]
      rfl
    refine ⟨?_, sock, pw, _, hr.symm⟩
    have hcap : (ctx.sw true).len ≤ sizeMax := hc.fit.ok.len.trans hc.cap
    have hst' := stage_flushed hst hs hcap (fun _ => rfl) pw sock
    have hfr : ctx.frame false true [] [] = spanOf ctx.res.chunked false ctx.coded.slab := by
      rw [frame, slabLeft, admitted_all hl, extraLeft_nil, List.append_nil, List.nil_append]
      rfl
    have hsl : pw.slab = [] := by
      rw [← List.length_eq_zero_iff, Pipewriter.length_slab, h0]
    rw [hall] at hst'
    rw [he]
    refine ⟨hfit, hkin.cap.le.trans hc.cap, hkin.failed.trans hc.able, hc.live,
      fun _ => ⟨hs, hl⟩, by simp, t ++ h ++ ctx.frame false true [] [],
      data ++ ctx.coded.slab, ?_, ?_, ?_⟩
    · show sock.wire = _
      rw [hd.wire, hwire, hfr, List.append_nil, List.append_assoc, List.append_assoc]
    · rw [Option.getD_some, List.append_nil]
      exact hst'
    · show data ++ ctx.coded.slab ++ pw.slab = out
      rw [hsl, List.append_nil, hout]

theorem Coding.append (hc : Coding base ctx head out) {more : List Byte}
    (hm : more.length ≤ ctx.coded.room) (filter : Option Filter) (log : List FilterIn) :
    Coding base { ctx with
      filter := filter
      filterLog := log
      coded := (ctx.coded.copyTo ctx.coded.at' more).advance more.length } head (out ++ more) := by
  obtain ⟨t, data, hwire, hst, hout⟩ := hc.stage
  obtain ⟨hok, hslab, -⟩ := Pipewriter.append_spec hc.fit.ok hc.fit.tail hm
  refine ⟨⟨hok, hc.fit.head, hc.fit.tail, hc.fit.lead, hc.fit.slack⟩, hc.cap, hc.able, hc.live,
    hc.opened, hc.short, t, data, hwire,
    hst.congr rfl rfl rfl rfl (fun _ => ⟨rfl, rfl⟩) fun h => h, ?_⟩
  rw [hslab, ← List.append_assoc, hout]

theorem Coding.setOut (hc : Coding base ctx head out) (pw : Pipewriter) :
    Coding base { ctx with out := pw } head out := by
  obtain ⟨t, data, hwire, hst, hout⟩ := hc.stage
  exact ⟨hc.fit, hc.cap, hc.able, hc.live, hc.opened, hc.short, t, data, hwire,
    hst.congr rfl rfl rfl rfl (fun _ => ⟨rfl, rfl⟩) fun h => h, hout⟩

theorem Ran.cons {sock : Socket} {cw : Pipewriter} {n : Nat} {script : List FilterOut}
    {i : FilterIn} {r : FilterOut}
    (h : Ran { ctx with
      sock := sock, coded := cw, filter := some script, filterLog := ctx.filterLog ++ [i]
      res := { ctx.res with bodySent := n } } ctx' op (i.input.drop r.inLen) used rest)
    (ho : i.op = op) : Ran ctx ctx' op i.input (r :: used) rest where
  eq := h.eq
  log := by
    obtain ⟨ins, hlog, hlen, hop, hcons⟩ := h.log
    refine ⟨i :: ins, by rw [hlog, List.append_assoc]; rfl, by simp [hlen], ?_, ?_⟩
    · intro j hj
      rcases List.mem_cons.mp hj with rfl | hj
      · exact ho
      · exact hop j hj
    · rw [consumed, hcons, List.take_append_drop]
  called := nofun

/-- The loop of `encode` that succeeds has put the whole input through the
filter, and everything the filter produced is out or in the coded buffer. -/
theorem encodeLoop_coding {script : List FilterOut} (hc : Coding base ctx head out)
    (hr : encodeLoop script ctx op head input = (true, ctx', head')) :
    ∃ used rest, script = used ++ rest ∧ Ran ctx ctx' op input used rest ∧
      Coding base ctx' head' (out ++ produced used) ∧ (head = none → head' = none) := by
  induction script generalizing ctx head out input with
  | nil => simp [encodeLoop] at hr
  | cons r script ih =>
    simp only [encodeLoop] at hr
    split at hr
    · simp at hr
    · rename_i hg
      simp only [not_or, not_lt] at hg
      have hc2 := hc.append hg.2.2 (some script)
        (ctx.filterLog ++ [FilterIn.mk input ctx.coded.room op])
      split at hr
      · rename_i hdone
        simp only [Prod.mk.injEq, true_and] at hr
        obtain ⟨rfl, rfl⟩ := hr
        have htake : input.take r.inLen = input :=
          List.take_of_length_le (List.drop_eq_nil_iff.mp hdone.2)
        refine ⟨[r], script, rfl, ⟨rfl, ⟨_, rfl, rfl, by simp, ?_⟩, by simp⟩, ?_, fun h => h⟩
        · simp [consumed, htake]
        · rw [produced_cons, produced_nil, List.append_nil]
          exact hc2.setOut _
      · split at hr
        · split at hr
          · simp at hr
          · split at hr
            · simp at hr
            · rename_i hok
              obtain ⟨hc3, sock, cw, n, e⟩ := sendCoded_coding hc2 (not_not.mp hok)
              rw [e] at hr hc3
              obtain ⟨used, rest, rfl, hran, hc', -⟩ := ih hc3 hr
              refine ⟨r :: used, rest, rfl, Ran.cons (i := ⟨input, ctx.coded.room, op⟩) hran rfl, ?_,
                nofun⟩
              rw [produced_cons, ← List.append_assoc]
              exact hc'
        · split at hr
          · simp at hr
          · obtain ⟨used, rest, rfl, hran, hc', hn⟩ := ih hc2 hr
            refine ⟨r :: used, rest, rfl, Ran.cons (i := ⟨input, ctx.coded.room, op⟩) hran rfl, ?_, hn⟩
            rw [produced_cons, ← List.append_assoc]
            exact hc'

-- ---------------------------------------------------------------------------
-- One flush
-- ---------------------------------------------------------------------------

variable {W head : List Byte} {done script used rest : List FilterOut} {kind : FlushKind}

/-- The two writers between the handler's calls, and what its calls on the
head leave. -/
structure Gear (ctx : Ctx) : Prop where
  live : ctx.res.failed = false
  asked : ctx.headOnly = false
  fit : Fit ctx.out
  cap : ctx.out.cap = pipeCap
  able : ctx.out.failed = false
  codedFit : Fit ctx.coded
  codedCap : ctx.coded.cap ≤ sizeMax
  codedAble : ctx.coded.failed = false
  codedEmpty : ctx.coded.len = 0
  head : HeadOk ctx.res
  length : ctx.res.contentLength ≤ sizeMax

theorem Gear.codedSlab (h : Gear ctx) : ctx.coded.slab = [] := by
  rw [← List.length_eq_zero_iff, Pipewriter.length_slab, h.codedEmpty]

/-- A stream: the filter has made the calls of `filterLog`, and returned
`done`; `head` has still to go out. -/
structure Streamed (base W : List Byte) (ctx : Ctx) (head : List Byte)
    (done script : List FilterOut) : Prop where
  gear : Gear ctx
  sent : ctx.res.headSent = true
  body : ctx.noBody = false
  long : ctx.res.hasLength = false
  filter : ctx.filter = some script
  log : ctx.filterLog.length = done.length
  took : consumed ctx.filterLog done ++ ctx.out.slab = W
  ops : ∀ i ∈ ctx.filterLog, i.op ≠ .finish
  short : head.length < 2 ^ 31
  stage : ∃ t, ctx.sock.wire = base ++ t ∧ Stage ctx (t ++ head) (produced done)

theorem Streamed.coding (h : Streamed base W ctx head done script) :
    Coding base ctx (some head) (produced done) := by
  obtain ⟨t, hwire, hst⟩ := h.stage
  exact ⟨h.gear.codedFit, h.gear.codedCap, h.gear.codedAble, h.gear.live,
    fun _ => ⟨h.sent, h.long⟩, h.short, t, _, hwire, hst,
    by rw [h.gear.codedSlab, List.append_nil]⟩

def opOf : FlushKind → FilterOp
  | .final => .finish
  | .asked => .flush
  | .full => .more

theorem flushBody_coded (hb : ctx.noBody = false) (kind : FlushKind) (head extra : List Byte) :
    ctx.flushBody kind true false head extra =
      match ctx.encode (opOf kind) (some head) with
      | (false, ctx, _) => (false, ctx)
      | (true, ctx, head) => ctx.sendFrame (kind = .final) true (head.getD []) extra := by
  unfold flushBody
  rw [if_neg (by simp [hb]), if_pos (by simp)]
  cases kind <;> rfl

/-- A flush of a stream that succeeds: the slab went through the filter, the
rest of its output into the last frame. -/
theorem flushBody_ran (h : Streamed base W ctx head done script)
    (hr : ctx.flushBody kind true false head [] = (true, ctx')) :
    ∃ used rest ctx₁ head₁, script = used ++ rest ∧
      Ran ctx ctx₁ (opOf kind) ctx.out.slab used rest ∧
      Coding base ctx₁ (some head₁) (produced (done ++ used)) ∧
      ctx₁.sendFrame (kind = .final) true head₁ [] = (true, ctx') := by
  rw [flushBody_coded h.body] at hr
  split at hr
  · simp at hr
  · rename_i ctx₁ head₁ henc
    unfold encode at henc
    rw [h.filter] at henc
    obtain ⟨used, rest, hs, hran, hc, -⟩ := encodeLoop_coding h.coding henc
    rw [← produced_append] at hc
    refine ⟨used, rest, ctx₁, head₁.getD [], hs, hran, ?_, hr⟩
    obtain ⟨t, data, hwire, hst, hout⟩ := hc.stage
    have hsent : ctx₁.res.headSent = true ∧ ctx₁.res.hasLength = false := by
      rw [hran.eq]
      exact ⟨h.sent, h.long⟩
    exact ⟨hc.fit, hc.cap, hc.able, hc.live, fun _ => hsent, hc.short, t, data, hwire, hst, hout⟩

/-- The last step of a flush: what is in the coded buffer goes out. -/
theorem Coding.frame {head : List Byte} (hc : Coding base ctx (some head) out) {final : Bool}
    (hr : ctx.sendFrame final true head [] = (true, ctx')) :
    ∃ pw sock, ctx' = ctx.flushed true [] pw sock ∧ Fit pw ∧ Kin ctx.coded pw ∧ pw.len = 0 ∧
      ∃ t data, sock.wire = base ++ t ++ spanOf ctx.res.chunked final ctx.coded.slab ∧
        Stage ctx t data ∧ data ++ ctx.coded.slab = out := by
  obtain ⟨t, data, hwire, hst, hout⟩ := hc.stage
  have hl := (hc.opened rfl).2
  have ho : FrameOutcome ctx final true head [] (ctx.sendFrame final true head []) :=
    @sendFrame_outcome ctx true hc.fit hc.able head hc.short final []
  rw [hr] at ho
  cases ho with
  | @sent pw sock _ hfit hkin h0 hd =>
    refine ⟨pw, sock, rfl, hfit, hkin, h0, t ++ head, data, ?_, hst, hout⟩
    have hfr : ctx.frame final true [] [] = spanOf ctx.res.chunked final ctx.coded.slab := by
      rw [Ctx.frame, slabLeft, admitted_all hl, extraLeft_nil, List.append_nil, List.nil_append]
      rfl
    rw [hd.wire, hwire, frame_head, hfr]
    simp only [List.append_assoc]

theorem Ran.gear (h : Ran ctx ctx' op input used rest) (hg : Gear ctx) {pw : Pipewriter}
    {sock : Socket} (hfit : Fit pw) (hkin : Kin ctx'.coded pw) (hc : Coding base ctx' head' out)
    (h0 : pw.len = 0) : Gear (ctx'.flushed true [] pw sock) := by
  have e := h.eq
  refine ⟨?_, ?_, ?_, ?_, ?_, hfit, hkin.cap.le.trans hc.cap, hkin.failed.trans hc.able, h0, ?_, ?_⟩
  · exact hc.live
  · show ctx'.headOnly = false
    rw [e]
    exact hg.asked
  · show Fit ctx'.out
    rw [e]
    exact ⟨⟨hg.fit.ok.head, Nat.zero_le _, hg.fit.ok.tail, hg.fit.ok.small⟩, hg.fit.head,
      hg.fit.tail, hg.fit.lead, hg.fit.slack⟩
  · show ctx'.out.cap = pipeCap
    rw [e]
    exact hg.cap
  · show ctx'.out.failed = false
    rw [e]
    exact hg.able
  · show HeadOk { ctx'.res with bodySent := _ }
    rw [e]
    exact hg.head.congr rfl rfl rfl
  · show ctx'.res.contentLength ≤ sizeMax
    rw [e]
    exact hg.length

theorem flushBody_streamed (h : Streamed base W ctx head done script) (hk : kind ≠ .final)
    (hr : ctx.flushBody kind true false head [] = (true, ctx')) :
    ∃ used rest, script = used ++ rest ∧ Streamed base W ctx' [] (done ++ used) rest ∧
      ctx'.out.len = 0 := by
  obtain ⟨used, rest, ctx₁, head₁, hs, hran, hc, hsend⟩ := flushBody_ran h hr
  rw [decide_eq_false hk] at hsend
  obtain ⟨pw, sock, rfl, hfit, hkin, h0, t, data, hwire, hst, hout⟩ := hc.frame hsend
  have e := hran.eq
  have hl : ctx₁.res.hasLength = false := (hc.opened rfl).2
  have hsent : ctx₁.res.headSent = true := (hc.opened rfl).1
  obtain ⟨ins, hlog, hlen, hops, hcons⟩ := hran.log
  have hlen0 : (ctx₁.flushed true [] pw sock).out.len = 0 := by
    show ctx₁.out.len = 0
    rw [e]
  have hslab : (ctx₁.flushed true [] pw sock).out.slab = [] := by
    rw [← List.length_eq_zero_iff, Pipewriter.length_slab, hlen0]
  refine ⟨used, rest, hs, ⟨hran.gear h.gear hfit hkin hc h0, hsent, ?_, hl, ?_, ?_, ?_, ?_,
    by simp, t ++ ctx₁.frame false true [] [], ?_, ?_⟩, hlen0⟩
  · show ctx₁.noBody = false
    rw [e]
    exact h.body
  · show ctx₁.filter = some rest
    rw [e]
  · show ctx₁.filterLog.length = _
    rw [hlog, List.length_append, List.length_append, h.log, hlen]
  · show consumed ctx₁.filterLog _ ++ _ = W
    rw [hslab, hlog, consumed_append h.log, hcons, List.append_nil, h.took]
  · intro i hi
    rcases List.mem_append.mp (hlog ▸ hi) with hi | hi
    · exact h.ops i hi
    · rw [hops i hi]
      cases kind with
      | final => exact absurd rfl hk
      | asked => simp [opOf]
      | full => simp [opOf]
  · have hfr : ctx₁.frame false true [] [] = spanOf ctx₁.res.chunked false ctx₁.coded.slab := by
      rw [frame, slabLeft, admitted_all hl, extraLeft_nil, List.append_nil, List.nil_append]
      rfl
    show sock.wire = _
    rw [hwire, hfr, List.append_assoc]
  · have hcap : (ctx₁.sw true).len ≤ sizeMax := hc.fit.ok.len.trans hc.cap
    have hst' := stage_flushed hst hsent hcap (fun _ => rfl) pw sock
    rw [admitted_all hl, List.append_nil] at hst'
    rw [List.append_nil, ← hout]
    exact hst'

-- ---------------------------------------------------------------------------
-- The last flush
-- ---------------------------------------------------------------------------

/-- A reply that is over: every byte the handler wrote went through the
filter, which was told the end last, and the body is what it produced. Its
length is known when it went out whole. -/
structure Finished (base W : List Byte) (ctx : Ctx) (whole : Bool) (done : List FilterOut) :
    Prop where
  log : ctx.filterLog.length = done.length
  took : consumed ctx.filterLog done = W
  ops : ∃ pre n, ctx.filterLog.map (·.op) = pre ++ List.replicate (n + 1) .finish ∧
    .finish ∉ pre
  wire : ∃ (hd : Head) (fr : Message.Framing) (body : List Byte),
    ctx.sock.wire = base ++ (hd.encode ++ body) ∧ Declares hd fr ∧
    Carries fr body (produced done) ∧
    (if whole then fr = .length (produced done).length
      else fr = .chunked ∨ fr = .untilClose ∧ ctx.res.close = true)

theorem finish_log {log ins : List FilterIn} (h : ∀ i ∈ log, i.op ≠ .finish)
    (hi : ∀ i ∈ ins, i.op = .finish) (hn : ins ≠ []) :
    ∃ pre n, (log ++ ins).map (·.op) = pre ++ List.replicate (n + 1) FilterOp.finish ∧
      FilterOp.finish ∉ pre := by
  refine ⟨log.map (·.op), ins.length - 1, ?_, ?_⟩
  · have hlen : ins.length - 1 + 1 = ins.length := by
      have := List.length_pos_iff.mpr hn
      omega
    rw [List.map_append, hlen]
    refine congrArg _ (List.eq_replicate_iff.mpr ⟨by simp, fun o ho => ?_⟩)
    obtain ⟨i, him, rfl⟩ := List.mem_map.mp ho
    exact hi i him
  · intro hm
    obtain ⟨i, him, he⟩ := List.mem_map.mp hm
    exact h i him he

theorem flushBody_finished (h : Streamed base W ctx [] done script)
    (hr : ctx.flushBody .final true false [] [] = (true, ctx')) :
    ∃ used rest, script = used ++ rest ∧ ctx'.filter = some rest ∧
      Finished base W ctx' false (done ++ used) := by
  obtain ⟨used, rest, ctx₁, head₁, hs, hran, hc, hsend⟩ := flushBody_ran h hr
  rw [decide_eq_true rfl] at hsend
  obtain ⟨pw, sock, rfl, hfit, hkin, h0, t, data, hwire, hst, hout⟩ := hc.frame hsend
  have e := hran.eq
  obtain ⟨ins, hlog, hlen, hops, hcons⟩ := hran.log
  have hl : ctx₁.res.hasLength = false := (hc.opened rfl).2
  have hcap : ctx₁.coded.slab.length ≤ sizeMax := by
    rw [Pipewriter.length_slab]
    exact hc.fit.ok.len.trans hc.cap
  refine ⟨used, rest, hs, by show ctx₁.filter = some rest; rw [e], ?_, ?_, ?_, ?_⟩
  · show ctx₁.filterLog.length = _
    rw [hlog, List.length_append, List.length_append, h.log, hlen]
  · show consumed ctx₁.filterLog _ = W
    have hslab : ctx.out.slab = consumed ins used := hcons.symm
    rw [hlog, consumed_append h.log, ← hslab, h.took]
  · show ∃ pre n, ctx₁.filterLog.map _ = _ ∧ _
    rw [hlog]
    refine finish_log h.ops hops fun hn => hran.called ?_
    exact List.length_eq_zero_iff.mp (by rw [← hlen, hn]; rfl)
  · have hend := hst.ended (hc.opened rfl).1 hcap
    rw [admitted_all hl, hout] at hend
    have hw : sock.wire = base ++ (t ++ spanOf ctx₁.res.chunked true ctx₁.coded.slab) := by
      rw [hwire, List.append_assoc]
    show ∃ (hd : Head) (fr : Message.Framing) (body : List Byte), sock.wire = _ ∧ _
    rw [hw]
    generalize t ++ spanOf ctx₁.res.chunked true ctx₁.coded.slab = bytes at hend
    cases hend with
    | length hl' => simp [hl] at hl'
    | chunked _ hd hb => exact ⟨_, .chunked, _, rfl, hd, hb, .inl rfl⟩
    | untilClose _ hd hcl =>
      exact ⟨_, .untilClose, _, rfl, hd, .untilClose, .inr ⟨rfl, hcl⟩⟩

-- ---------------------------------------------------------------------------
-- The head held back
-- ---------------------------------------------------------------------------

variable {P : Filter → Prop}

/-- Before the first flush: all that was written is in the slab, and only a
filter of `P` is installed or offered by the head's delegate. -/
structure Held (P : Filter → Prop) (base W : List Byte) (ctx : Ctx) : Prop where
  gear : Gear ctx
  unsent : ctx.res.headSent = false
  whole : ctx.res.chunked = false
  zero : ctx.res.bodySent = 0
  wire : ctx.sock.wire = base
  log : ctx.filterLog = []
  slab : ctx.out.slab = W
  filter : ∀ F, ctx.filter = some F → P F
  onHead : ∀ fn, ctx.onHead = some fn → ∀ n b F, .replyFilter F ∈ fn n b → P F

theorem contentType_rest (res : Response) (type : List Byte) : ∃ head ct,
    (contentType res type).2 = { res with head := head, contentType := ct } := by
  unfold contentType
  dsimp only
  split
  · exact ⟨_, _, rfl⟩
  split
  · exact ⟨_, _, rfl⟩
  split <;> exact ⟨_, _, rfl⟩

theorem header_rest (res : Response) (name value : List Byte) : ∃ head ct len n,
    (header res name value).2 = { res with
      head := head, contentType := ct, headLen := len, nHeaders := n } := by
  unfold header
  dsimp only
  split
  · exact ⟨_, _, _, _, rfl⟩
  split
  · exact ⟨_, _, _, _, rfl⟩
  split
  · exact ⟨_, _, _, _, rfl⟩
  split
  · obtain ⟨head, ct, e⟩ := contentType_rest res (cstr value)
    exact ⟨head, ct, _, _, e⟩
  split
  · exact ⟨_, _, _, _, rfl⟩
  unfold Response.headRoom
  split
  · exact ⟨_, _, _, _, rfl⟩
  · rename_i off res' hroom
    split at hroom
    · cases hroom
    · obtain ⟨-, rfl⟩ := Prod.mk.inj (Option.some.inj hroom)
      exact ⟨_, _, _, _, rfl⟩

theorem Held.setRes (h : Held P base W ctx) {res : Response} (hf : res.failed = ctx.res.failed)
    (hs : res.headSent = ctx.res.headSent) (hc : res.chunked = ctx.res.chunked)
    (hb : res.bodySent = ctx.res.bodySent) (hok : HeadOk res) (hl : res.contentLength ≤ sizeMax) :
    Held P base W { ctx with res := res } :=
  ⟨⟨hf.trans h.gear.live, h.gear.asked, h.gear.fit, h.gear.cap, h.gear.able, h.gear.codedFit,
    h.gear.codedCap, h.gear.codedAble, h.gear.codedEmpty, hok, hl⟩, hs.trans h.unsent,
    hc.trans h.whole, hb.trans h.zero, h.wire, h.log, h.slab, h.filter, h.onHead⟩

theorem Held.setHooks (h : Held P base W ctx) {filter : Option Filter}
    {onHead : Option (Nat → Bool → List HeadOp)} (hf : ∀ F, filter = some F → P F)
    (ho : ∀ fn, onHead = some fn → ∀ n b F, .replyFilter F ∈ fn n b → P F) :
    Held P base W { ctx with filter := filter, onHead := onHead } :=
  ⟨⟨h.gear.live, h.gear.asked, h.gear.fit, h.gear.cap, h.gear.able, h.gear.codedFit,
    h.gear.codedCap, h.gear.codedAble, h.gear.codedEmpty, h.gear.head, h.gear.length⟩, h.unsent,
    h.whole, h.zero, h.wire, h.log, h.slab, hf, ho⟩

theorem headOp_held (h : Held P base W ctx) (op : HeadOp) (ho : ∀ F, op = .replyFilter F → P F) :
    Held P base W (ctx.headOp op) := by
  cases op with
  | status status => exact h.setRes rfl rfl rfl rfl (h.gear.head.congr rfl rfl rfl) h.gear.length
  | header name value =>
    obtain ⟨_, _, _, _, e⟩ := header_rest ctx.res name value
    exact h.setRes (by rw [e]) (by rw [e]) (by rw [e]) (by rw [e])
      (header_headOk h.gear.head name value) (by rw [e]; exact h.gear.length)
  | contentType type =>
    obtain ⟨_, _, e⟩ := contentType_rest ctx.res type
    exact h.setRes (by rw [e]) (by rw [e]) (by rw [e]) (by rw [e])
      (contentType_headOk h.gear.head type) (by rw [e]; exact h.gear.length)
  | contentLength n =>
    have e : (Http.contentLength ctx.res n).2 =
        { ctx.res with contentLength := n.toNat, hasLength := true } := by
      unfold Http.contentLength
      rw [if_neg (by simp [h.unsent])]
    simp only [headOp, e]
    exact h.setRes rfl rfl rfl rfl (h.gear.head.congr rfl rfl rfl) (Nat.le_pred_of_lt n.toNat_lt)
  | close => exact h.setRes rfl rfl rfl rfl (h.gear.head.congr rfl rfl rfl) h.gear.length
  | replyFilter F =>
    simp only [headOp, replyFilter]
    split
    · exact h
    · exact h.setHooks (fun G hG => Option.some.inj hG ▸ ho F rfl) h.onHead

theorem headOps_held (h : Held P base W ctx) (ops : List HeadOp)
    (ho : ∀ F, .replyFilter F ∈ ops → P F) : Held P base W (ops.foldl headOp ctx) := by
  induction ops generalizing ctx with
  | nil => exact h
  | cons op ops ih =>
    exact ih (headOp_held h op fun F hF => ho F (hF ▸ List.mem_cons_self ..))
      fun F hF => ho F (List.mem_cons_of_mem _ hF)

theorem callOnHead_held (h : Held P base W ctx) (final : Bool) :
    Held P base W (ctx.callOnHead final) := by
  unfold callOnHead
  split
  · rename_i fn hfn
    split
    · exact h
    · have h0 : Held P base W { ctx with onHead := none } :=
        h.setHooks h.filter fun _ h => by cases h
      exact headOps_held h0 _ fun F hF => h.onHead fn hfn _ _ F hF
  · exact h

-- ---------------------------------------------------------------------------
-- Replies that no filter codes
-- ---------------------------------------------------------------------------

/-- The head went out with no filter, or with no body. -/
def Plain (ctx : Ctx) : Prop :=
  ctx.res.headSent = true ∧ (ctx.filter = none ∨ ctx.noBody = true)

def Lost (ctx : Ctx) : Prop := ctx.res.failed = true ∨ Plain ctx

theorem sendFrame_keeps (ctx : Ctx) (final coding : Bool) (head extra : List Byte) :
    (ctx.sendFrame final coding head extra).2.filter = ctx.filter ∧
    (ctx.sendFrame final coding head extra).2.noBody = ctx.noBody ∧
    (ctx.sendFrame final coding head extra).2.res.headSent = ctx.res.headSent ∧
    ((ctx.sendFrame final coding head extra).1 = false →
      (ctx.sendFrame final coding head extra).2.res.failed = true) := by
  have hc : (ctx.clip coding extra).1.filter = ctx.filter ∧
      (ctx.clip coding extra).1.noBody = ctx.noBody ∧
      (ctx.clip coding extra).1.res.headSent = ctx.res.headSent := by
    unfold clip
    split
    · cases coding <;> exact ⟨rfl, rfl, rfl⟩
    · exact ⟨rfl, rfl, rfl⟩
  have hs (c : Ctx) (pw : Pipewriter) : (c.setSw coding pw).filter = c.filter ∧
      (c.setSw coding pw).noBody = c.noBody := by cases coding <;> exact ⟨rfl, rfl⟩
  unfold sendFrame
  dsimp only
  split
  · exact ⟨(hs _ _).1.trans hc.1, (hs _ _).2.trans hc.2.1, hc.2.2, fun _ => rfl⟩
  · exact ⟨(hs _ _).1.trans hc.1, (hs _ _).2.trans hc.2.1, hc.2.2, fun h => by cases h⟩

theorem sendBodyless_keeps (ctx : Ctx) (head : List Byte) :
    (ctx.sendBodyless head).2.noBody = ctx.noBody ∧
    (ctx.sendBodyless head).2.res.headSent = ctx.res.headSent ∧
    ((ctx.sendBodyless head).1 = false → (ctx.sendBodyless head).2.res.failed = true) := by
  unfold sendBodyless
  dsimp only
  split
  · exact ⟨rfl, rfl, fun h => by cases h⟩
  · split
    · exact ⟨rfl, rfl, fun h => by cases h⟩
    · exact ⟨rfl, rfl, fun _ => rfl⟩

theorem callOnHead_sent (h : ctx.res.headSent = true) (final : Bool) :
    ctx.callOnHead final = ctx := by
  unfold callOnHead
  split
  · rw [if_pos (.inl h)]
  · rfl

theorem flushHead_sent (h : ctx.res.headSent = true) (kind : FlushKind) (extra : List Byte) :
    ctx.flushHead kind extra =
      ctx.flushBody kind (ctx.filter.isSome && !ctx.headOnly) false [] extra := by
  simp [flushHead, h]

/-- A plain frame behind the head, or none for a reply with no body. -/
theorem flushBody_lost (h : Plain ctx) (kind : FlushKind) (head extra : List Byte) :
    Plain (ctx.flushBody kind (ctx.filter.isSome && !ctx.headOnly) whole head extra).2 := by
  unfold flushBody
  by_cases hb : ctx.noBody = true
  · rw [if_pos hb]
    have hk := sendBodyless_keeps ctx head
    exact ⟨hk.2.1.trans h.1, .inr (hk.1.trans hb)⟩
  · have hf := h.2.resolve_right hb
    rw [if_neg hb, if_neg (by simp [hf])]
    have hk := sendFrame_keeps ctx (kind = .final) (ctx.filter.isSome && !ctx.headOnly) head extra
    exact ⟨hk.2.2.1.trans h.1, .inl (hk.1.trans hf)⟩

theorem flushWith_plainly (h : Plain ctx) (kind : FlushKind) (extra : List Byte) :
    Plain (ctx.flushWith kind extra).2 := by
  unfold flushWith
  split
  · exact h
  · rw [callOnHead_sent h.1, flushHead_sent h.1]
    exact flushBody_lost h kind [] extra

theorem flushWith_lost (h : Lost ctx) (kind : FlushKind) (extra : List Byte) :
    Lost (ctx.flushWith kind extra).2 := by
  rcases h with h | h
  · unfold flushWith
    rw [if_pos h]
    exact .inl h
  · exact .inr (flushWith_plainly h kind extra)

theorem writeLoop_lost (turns : Nat) (h : Lost ctx) (src : List Byte) :
    Lost (ctx.writeLoop turns src).2 := by
  induction turns generalizing ctx src with
  | zero => exact h
  | succ turns ih =>
    unfold writeLoop
    split
    · exact h
    · split
      · have hl := flushWith_lost h .full []
        unfold flush
        split
        · simp_all
        · rename_i he
          rw [he] at hl
          exact ih hl src
      · refine ih ?_ _
        exact h

theorem headOp_lost (h : Lost ctx) (op : HeadOp) : Lost (ctx.headOp op) := by
  cases op with
  | status status => exact h
  | header name value =>
    obtain ⟨_, _, _, _, e⟩ := header_rest ctx.res name value
    simpa only [Lost, Plain, headOp, e] using h
  | contentType type =>
    obtain ⟨_, _, e⟩ := contentType_rest ctx.res type
    simpa only [Lost, Plain, headOp, e] using h
  | contentLength n =>
    simp only [headOp, contentLength]
    split <;> exact h
  | close => exact h
  | replyFilter F =>
    simp only [headOp, replyFilter]
    split
    · exact h
    · rename_i hn
      exact .inl (h.resolve_right fun hs => hn (.inl hs.1))

-- ---------------------------------------------------------------------------
-- Any flush but the last
-- ---------------------------------------------------------------------------

theorem startHead_streamed (h : Held P base W ctx) (hf : ctx.filter = some script)
    (hl : ctx.res.hasLength = false) :
    ∃ head ctx', ctx.startHead false true = (some head, ctx') ∧ ctx'.res.headSent = true ∧
      (ctx'.noBody = true ∨ Streamed base W ctx' head [] script) := by
  have hlen : ctx.headLength false true ≤ sizeMax := by
    have hd : ctx.declares false = false := by simp [declares, hl]
    simp only [headLength, hd]
    exact h.gear.codedFit.ok.len.trans h.gear.codedCap
  obtain ⟨hd, hstart, -, hdec, hshort⟩ := startHead_spec h.gear.head hlen
  refine ⟨hd.encode, _, hstart, rfl, ?_⟩
  by_cases hb : (ctx.headOnly || bodyless (wireStatus ctx.res.status)) = true
  · exact .inl hb
  · rw [Bool.not_eq_true] at hb
    have hst : Stage ctx [] [] := .held h.unsent h.whole h.zero
    obtain ⟨-, -, hst'⟩ := stage_headed hst h.unsent hb hdec
    have hcl : (ctx.headed false true).res.contentLength = ctx.res.contentLength := by
      simp [headed, hl]
    refine .inr ⟨⟨h.gear.live, h.gear.asked, h.gear.fit, h.gear.cap, h.gear.able, h.gear.codedFit,
      h.gear.codedCap, h.gear.codedAble, h.gear.codedEmpty, h.gear.head.congr rfl rfl rfl,
      hcl.le.trans h.gear.length⟩, rfl, hb, hl, hf, ?_, ?_, ?_, hshort, [], ?_, hst'⟩
    · show ctx.filterLog.length = _
      rw [h.log]
      rfl
    · show consumed ctx.filterLog [] ++ ctx.out.slab = W
      rw [h.log, h.slab]
      rfl
    · intro i hi
      have : i ∈ ctx.filterLog := hi
      rw [h.log] at this
      cases this
    · exact h.wire.trans (List.append_nil _).symm

inductive Filtering (P : Filter → Prop) (base W : List Byte) (ctx : Ctx) : Prop
  | lost : Lost ctx → Filtering P base W ctx
  | held : Held P base W ctx → Filtering P base W ctx
  | streamed {done rest : List FilterOut} : Streamed base W ctx [] done rest → P (done ++ rest) →
      Filtering P base W ctx

inductive Flushed (P : Filter → Prop) (base W : List Byte) (ctx : Ctx) : Prop
  | lost : Lost ctx → Flushed P base W ctx
  | streamed {done rest : List FilterOut} : Streamed base W ctx [] done rest → P (done ++ rest) →
      ctx.out.len = 0 → Flushed P base W ctx

theorem Flushed.filtering (h : Flushed P base W ctx) : Filtering P base W ctx := by
  cases h with
  | lost h => exact .lost h
  | streamed h hp _ => exact .streamed h hp

theorem encodeLoop_failed (script : List FilterOut)
    (h : (encodeLoop script ctx op head' input).1 = false) :
    (encodeLoop script ctx op head' input).2.1.res.failed = true := by
  induction script generalizing ctx head' input with
  | nil => rfl
  | cons r script ih =>
    unfold encodeLoop at h ⊢
    dsimp only at h ⊢
    split at h
    · rw [if_pos ‹_›]
      rfl
    · rw [if_neg ‹_›]
      split at h
      · cases h
      · rw [if_neg ‹_›]
        split at h
        · rw [if_pos ‹_›]
          cases head' with
          | none => rfl
          | some hd =>
            dsimp only at h ⊢
            split at h
            · rw [if_pos ‹_›]
              rfl
            · rw [if_neg ‹_›]
              exact ih h
        · rw [if_neg ‹_›]
          split at h
          · rw [if_pos ‹_›]
            rfl
          · rw [if_neg ‹_›]
            exact ih h

theorem flushBody_failed (kind : FlushKind) (coding whole : Bool) (head extra : List Byte)
    (h : (ctx.flushBody kind coding whole head extra).1 = false) :
    (ctx.flushBody kind coding whole head extra).2.res.failed = true := by
  unfold flushBody at h ⊢
  split at h
  · rw [if_pos ‹_›]
    exact (sendBodyless_keeps ctx head).2.2 h
  · rw [if_neg ‹_›]
    split at h
    · rw [if_pos ‹_›]
      dsimp only at h ⊢
      split at h
      · rename_i he
        have hf := encodeLoop_failed (ctx.filter.getD []) (congrArg (·.1) he)
        unfold encode at he
        rw [he] at hf
        exact hf
      · exact (sendFrame_keeps ..).2.2.2 h
    · rw [if_neg ‹_›]
      exact (sendFrame_keeps ..).2.2.2 h

theorem encode_failed (h : (ctx.encode op head').1 = false) :
    (ctx.encode op head').2.1.res.failed = true := encodeLoop_failed _ h

theorem startHead_keeps (ctx : Ctx) (final coding : Bool) :
    (ctx.startHead final coding).2.filter = ctx.filter ∧
    (ctx.startHead final coding).2.headOnly = ctx.headOnly ∧
    ((ctx.startHead final coding).1 = none → (ctx.startHead final coding).2.res.failed = true) ∧
    ((ctx.startHead final coding).1 ≠ none →
      (ctx.startHead final coding).2.res.headSent = true) := by
  unfold startHead
  dsimp only
  split
  · exact ⟨rfl, rfl, fun _ => rfl, fun h => absurd rfl h⟩
  · exact ⟨rfl, rfl, nofun, fun _ => rfl⟩

theorem flushWith_failed (h : (ctx.flushWith kind extra).1 = false) :
    (ctx.flushWith kind extra).2.res.failed = true := by
  unfold flushWith at h ⊢
  split at h
  · rw [if_pos ‹_›]
    assumption
  · rw [if_neg ‹_›]
    generalize ctx.callOnHead (kind = .final) = c at h ⊢
    unfold flushHead at h ⊢
    dsimp only at h ⊢
    split at h
    · rename_i he
      split at he
      · have hf := encode_failed (congrArg (·.1) he)
        rwa [he] at hf
      · cases he
    · split at h
      · rename_i hs
        rw [if_pos hs]
        exact flushBody_failed _ _ _ _ _ h
      · rename_i hs
        rw [if_neg hs]
        split at h
        · rename_i he
          have hf := (startHead_keeps ..).2.2.1 (congrArg (·.1) he)
          rw [he] at hf
          exact hf
        · exact flushBody_failed _ _ _ _ _ h

theorem flushHead_plain (hs : ctx.res.headSent = false) (hf : ctx.filter = none)
    (kind : FlushKind) (extra : List Byte) (hok : (ctx.flushHead kind extra).1 = true) :
    Plain (ctx.flushHead kind extra).2 := by
  have hk := startHead_keeps ctx (kind = .final) false
  unfold flushHead at hok ⊢
  simp only [hf, hs, Option.isSome_none, Bool.false_and, Bool.false_eq_true, false_and,
    if_false] at hok ⊢
  split at hok
  · cases hok
  · rename_i head c he
    rw [he] at hk
    have hc : c.filter = none := hk.1.trans hf
    have hb : Plain (c.flushBody kind (c.filter.isSome && !c.headOnly) false head extra).2 :=
      flushBody_lost ⟨hk.2.2.2 nofun, .inl hc⟩ kind head extra
    rwa [hc] at hb

def behindHead (kind : FlushKind) (coding whole : Bool) (extra : List Byte) :
    Option (List Byte) × Ctx → Bool × Ctx
  | (none, ctx) => (false, ctx)
  | (some head, ctx) => ctx.flushBody kind coding whole head extra

theorem flushHead_coded (hs : ctx.res.headSent = false) (hf : ctx.filter = some script)
    (ha : ctx.headOnly = false) (hk : kind ≠ .final) (extra : List Byte) :
    ctx.flushHead kind extra = behindHead kind true false extra
      ({ ctx with res := { ctx.res with hasLength := false } }.startHead false true) := by
  simp only [flushHead, hf, Option.isSome_some, ha, Bool.not_false, Bool.and_self, hs, hk,
    decide_false, Bool.and_false, Bool.false_eq_true, if_false, not_false_eq_true, and_self, if_true]
  rfl

theorem flushHead_held (h : Held P base W ctx) (hf : ctx.filter = some script)
    (hk : kind ≠ .final) : Flushed P base W (ctx.flushHead kind []).2 := by
  have h1 : Held P base W { ctx with res := { ctx.res with hasLength := false } } :=
    h.setRes rfl rfl rfl rfl (h.gear.head.congr rfl rfl rfl) h.gear.length
  obtain ⟨head, c, hstart, hsent, hc⟩ := startHead_streamed h1 hf rfl
  rw [flushHead_coded h.unsent hf h.gear.asked hk, hstart]
  dsimp only [behindHead]
  rcases hc with hb | hst
  · have hs := sendBodyless_keeps c head
    unfold flushBody
    rw [if_pos hb]
    exact .lost (.inr ⟨hs.2.1.trans hsent, .inr (hs.1.trans hb)⟩)
  · by_cases hok : (c.flushBody kind true false head []).1 = true
    · obtain ⟨used, rest, hs, hst', h0⟩ := flushBody_streamed hst hk (Prod.ext hok rfl)
      exact .streamed hst' (by rw [List.nil_append, ← hs]; exact h.filter script hf) h0
    · rw [Bool.not_eq_true] at hok
      exact .lost (.inl (flushBody_failed kind true false head [] hok))

theorem flushWith_eq (h : ctx.res.failed = false) (kind : FlushKind) (extra : List Byte) :
    ctx.flushWith kind extra = (ctx.callOnHead (kind = .final)).flushHead kind extra := by
  unfold flushWith
  rw [if_neg (by simp [h])]

/-- A flush that leaves its reply without a filter, one way or the other. -/
theorem flushWith_unfiltered (h : Held P base W ctx) {kind : FlushKind} {extra : List Byte}
    (hf : (ctx.callOnHead (kind = .final)).filter = none) : Lost (ctx.flushWith kind extra).2 := by
  cases hok : (ctx.flushWith kind extra).1 with
  | false => exact .inl (flushWith_failed hok)
  | true =>
    rw [flushWith_eq h.gear.live] at hok ⊢
    exact .inr (flushHead_plain (callOnHead_held h _).unsent hf kind extra hok)

theorem flush_flushed (h : Filtering P base W ctx) (hk : kind ≠ .final) :
    Flushed P base W (ctx.flush kind).2 := by
  unfold flush
  cases h with
  | lost h => exact .lost (flushWith_lost h kind [])
  | held h =>
    cases hf : (ctx.callOnHead (kind = .final)).filter with
    | none => exact .lost (flushWith_unfiltered h hf)
    | some script =>
      rw [flushWith_eq h.gear.live]
      exact flushHead_held (callOnHead_held h _) hf hk
  | @streamed done rest h hp =>
    rw [flushWith_eq h.gear.live, callOnHead_sent h.sent, flushHead_sent h.sent, h.filter,
      h.gear.asked]
    by_cases hok : (ctx.flushBody kind true false [] []).1 = true
    · obtain ⟨used, rest', hs, hst', h0⟩ := flushBody_streamed h hk (Prod.ext hok rfl)
      exact .streamed hst' (by rw [List.append_assoc, ← hs]; exact hp) h0
    · rw [Bool.not_eq_true] at hok
      exact .lost (.inl (flushBody_failed kind true false [] [] hok))

theorem flushWith_raw (h : Filtering P base W ctx) (hr : ctx.rawFramed = true) :
    Lost (ctx.flushWith .full extra).2 := by
  have hn : ctx.onHead = none ∧ ctx.filter = none := by
    unfold rawFramed at hr
    split at hr
    · cases hr
    · rename_i hn
      simpa [not_or] using hn
  cases h with
  | lost h => exact flushWith_lost h .full extra
  | held h =>
    refine flushWith_unfiltered h ?_
    rw [callOnHead, hn.1]
    exact hn.2
  | streamed h _ => simp [h.filter] at hn

-- ---------------------------------------------------------------------------
-- The handler's calls
-- ---------------------------------------------------------------------------

theorem Gear.append (h : Gear ctx) {more : List Byte} (hm : more.length ≤ ctx.out.room) :
    Gear { ctx with out := (ctx.out.copyTo ctx.out.at' more).advance more.length } ∧
      ((ctx.out.copyTo ctx.out.at' more).advance more.length).slab = ctx.out.slab ++ more := by
  obtain ⟨hok, hslab, -⟩ := Pipewriter.append_spec h.fit.ok h.fit.tail hm
  exact ⟨⟨h.live, h.asked, ⟨hok, h.fit.head, h.fit.tail, h.fit.lead, h.fit.slack⟩, h.cap, h.able,
    h.codedFit, h.codedCap, h.codedAble, h.codedEmpty, h.head, h.length⟩, hslab⟩

theorem Filtering.append (h : Filtering P base W ctx) {more : List Byte}
    (hm : more.length ≤ ctx.out.room) : Filtering P base (W ++ more)
      { ctx with out := (ctx.out.copyTo ctx.out.at' more).advance more.length } := by
  cases h with
  | lost h => exact .lost h
  | held h =>
    obtain ⟨hg, hs⟩ := h.gear.append hm
    exact .held ⟨hg, h.unsent, h.whole, h.zero, h.wire, h.log, by rw [hs, h.slab], h.filter,
      h.onHead⟩
  | streamed h hp =>
    obtain ⟨hg, hs⟩ := h.gear.append hm
    obtain ⟨t, hwire, hst⟩ := h.stage
    refine .streamed ⟨hg, h.sent, h.body, h.long, h.filter, h.log, ?_, h.ops, h.short, t, hwire,
      hst.congr rfl rfl rfl rfl (fun _ => ⟨rfl, rfl⟩) fun h => h⟩ hp
    rw [hs, ← List.append_assoc, h.took]

/-- The turns of the copying loop are enough: a flush leaves a whole slab of
room. -/
theorem writeLoop_filtering {turns : Nat} {src : List Byte} (h : Filtering P base W ctx)
    (ht : 2 * src.length + (if ctx.out.room = 0 then 1 else 0) ≤ turns) :
    Filtering P base (W ++ src) (writeLoop turns ctx src).2 := by
  induction turns generalizing ctx W src with
  | zero =>
    have : src = [] := List.length_eq_zero_iff.mp (by omega)
    simpa [writeLoop, this] using h
  | succ turns ih =>
    unfold writeLoop
    split
    · rename_i hs
      simpa [hs] using h
    · rename_i hs
      have hpos : 0 < src.length := List.length_pos_iff.mpr hs
      split
      · rename_i h0
        rw [if_pos h0] at ht
        have hf : Flushed P base W (ctx.flush .full).2 := flush_flushed h nofun
        split
        · rename_i he
          have hfail : (ctx.flush .full).2.res.failed = true :=
            flushWith_failed (congrArg (·.1) he)
          rw [he] at hfail
          exact .lost (.inl hfail)
        · rename_i c he
          rw [he] at hf
          cases hf with
          | lost hl => exact .lost (writeLoop_lost turns hl src)
          | streamed hst hp hz =>
            refine ih (.streamed hst hp) ?_
            have hroom : c.out.room ≠ 0 := by
              have := hst.gear.cap
              unfold Pipewriter.room
              rw [this, hz]
              decide
            rw [if_neg hroom]
            omega
      · rename_i h0
        rw [if_neg h0] at ht
        have hn : (src.take (min src.length ctx.out.room)).length = min src.length ctx.out.room := by
          rw [List.length_take]
          omega
        have hm : (src.take (min src.length ctx.out.room)).length ≤ ctx.out.room := by omega
        have ha := h.append hm
        rw [hn] at ha
        have hd : (src.drop (min src.length ctx.out.room)).length =
            src.length - min src.length ctx.out.room := List.length_drop
        have ht' : 2 * (src.drop (min src.length ctx.out.room)).length +
            (if ((ctx.out.copyTo ctx.out.at' (src.take (min src.length ctx.out.room))).advance
              (min src.length ctx.out.room)).room = 0 then 1 else 0) ≤ turns := by
          rw [hd]
          split <;> omega
        have hi := ih ha ht'
        rwa [List.append_assoc, List.take_append_drop] at hi

theorem write_filtering (h : Filtering P base W ctx) (data : List Byte) :
    Filtering P base (W ++ data) (ctx.write data).2 := by
  unfold write
  split
  · rename_i hf
    exact .lost (.inl hf)
  · split
    · rename_i hr
      exact .lost (flushWith_raw h hr.2)
    · exact writeLoop_filtering h (by split <;> omega)

/-- What `reserve` comes to. -/
inductive Reserving (P : Filter → Prop) (base W : List Byte) (ctx : Ctx) (n : Nat) :
    Option Nat × Ctx → Prop
  | lost {ctx' : Ctx} {off : Option Nat} : Lost ctx' → Reserving P base W ctx n (off, ctx')
  | large : pipeCap < n → Reserving P base W ctx n (none, ctx)
  | room {ctx' : Ctx} : Filtering P base W ctx' → n ≤ pipeCap → n ≤ ctx'.out.room →
      Reserving P base W ctx n (some ctx'.out.at', ctx')

theorem reserve_reserving (h : Filtering P base W ctx) (n : Nat) :
    Reserving P base W ctx n (ctx.reserve n) := by
  have hcap : Lost ctx ∨ ctx.out.cap = pipeCap := by
    cases h with
    | lost h => exact .inl h
    | held h => exact .inr h.gear.cap
    | streamed h _ => exact .inr h.gear.cap
  have hf : Flushed P base W (ctx.flush .full).2 := flush_flushed h nofun
  have hl (hl : Lost ctx) : Lost (ctx.flush .full).2 := flushWith_lost hl .full []
  unfold reserve
  split
  · rename_i hg
    rcases hcap with hl | hcap
    · exact .lost hl
    · rcases hg with hf | hg
      · exact .lost (.inl hf)
      · exact .large (hcap ▸ hg)
  · rename_i hg
    simp only [not_or, not_lt] at hg
    split
    · split
      · rename_i c he
        have hfail : (ctx.flush .full).2.res.failed = true := flushWith_failed (congrArg (·.1) he)
        rw [he] at hfail
        exact .lost (.inl hfail)
      · rename_i c he
        rw [he] at hf hl
        rcases hcap with hl' | hcap
        · exact .lost (hl hl')
        · cases hf with
          | lost hl => exact .lost hl
          | streamed hst hp hz =>
            refine .room (.streamed hst hp) (hcap ▸ hg.2) ?_
            unfold Pipewriter.room
            rw [hst.gear.cap, hz]
            omega
    · rcases hcap with hl' | hcap
      · exact .lost hl'
      · exact .room h (hcap ▸ hg.2) (by omega)

/-- A reservation for more than a slab is refused, and its bytes are not
written. -/
theorem reserveOp_filtering (h : Filtering P base W ctx) {n : Nat} {data : List Byte}
    (hd : data.length ≤ n) :
    Filtering P base (W ++ (if n ≤ pipeCap then data else [])) (ctx.reserveOp n data) := by
  have hr := reserve_reserving h n
  unfold reserveOp
  generalize ctx.reserve n = r at hr
  cases hr with
  | @lost ctx' off hl =>
    cases off with
    | none => exact .lost hl
    | some off => exact .lost hl
  | large hn =>
    rw [if_neg (by omega), List.append_nil]
    exact h
  | room hf hn hroom =>
    rw [if_pos hn]
    exact hf.append (hd.trans hroom)

-- ---------------------------------------------------------------------------
-- Whole runs
-- ---------------------------------------------------------------------------

end Ctx

/-- What a call writes. -/
def HandlerOp.wrote : HandlerOp → List Byte
  | .write data => data
  | .reserve n data _ => if n ≤ pipeCap then data else []
  | _ => []

/-- The calls of a handler that leaves the request's body alone. -/
def HandlerOp.Replies : HandlerOp → Prop
  | .head _ | .write _ | .reserve _ _ _ | .flush | .onHead _ => True
  | _ => False

/-- The call installs the filter, or a delegate that may. -/
def HandlerOp.Offers (filter : Filter) : HandlerOp → Prop
  | .head (.replyFilter f) => f = filter
  | .onHead fn => ∃ n whole, .replyFilter filter ∈ fn n whole
  | _ => False

namespace Ctx

variable {ctx ctx' : Ctx} {base W head : List Byte} {done script rest : List FilterOut}
  {P : Filter → Prop}

theorem Streamed.setRes (h : Streamed base W ctx head done script) {res : Response}
    (hf : res.failed = ctx.res.failed) (hs : res.headSent = ctx.res.headSent)
    (hc : res.chunked = ctx.res.chunked) (hb : res.bodySent = ctx.res.bodySent)
    (hl : res.hasLength = ctx.res.hasLength) (hn : res.contentLength = ctx.res.contentLength)
    (hcl : ctx.res.close = true → res.close = true) (hok : HeadOk res) :
    Streamed base W { ctx with res := res } head done script := by
  obtain ⟨t, hwire, hst⟩ := h.stage
  exact ⟨⟨hf.trans h.gear.live, h.gear.asked, h.gear.fit, h.gear.cap, h.gear.able, h.gear.codedFit,
    h.gear.codedCap, h.gear.codedAble, h.gear.codedEmpty, hok, hn.le.trans h.gear.length⟩,
    hs.trans h.sent, h.body, hl.trans h.long, h.filter, h.log, h.took, h.ops, h.short, t, hwire,
    hst.congr hs hc hb rfl (fun _ => ⟨hl, hn⟩) hcl⟩

theorem headOp_streamed (h : Streamed base W ctx head done script) (op : HeadOp) :
    Streamed base W (ctx.headOp op) head done script := by
  cases op with
  | status status =>
    exact h.setRes rfl rfl rfl rfl rfl rfl (fun h => h) (h.gear.head.congr rfl rfl rfl)
  | header name value =>
    obtain ⟨_, _, _, _, e⟩ := header_rest ctx.res name value
    exact h.setRes (by rw [e]) (by rw [e]) (by rw [e]) (by rw [e]) (by rw [e]) (by rw [e])
      (by rw [e]; exact fun h => h) (header_headOk h.gear.head name value)
  | contentType type =>
    obtain ⟨_, _, e⟩ := contentType_rest ctx.res type
    exact h.setRes (by rw [e]) (by rw [e]) (by rw [e]) (by rw [e]) (by rw [e]) (by rw [e])
      (by rw [e]; exact fun h => h) (contentType_headOk h.gear.head type)
  | contentLength n =>
    simp only [headOp, contentLength, h.sent, if_true]
    exact h
  | close =>
    exact h.setRes rfl rfl rfl rfl rfl rfl (fun _ => rfl) (h.gear.head.congr rfl rfl rfl)
  | replyFilter F =>
    simp only [headOp, replyFilter, h.sent, true_or, if_true]
    exact h

theorem setOnHead_filtering (h : Filtering P base W ctx) (fn : Nat → Bool → List HeadOp)
    (ho : ∀ n b F, .replyFilter F ∈ fn n b → P F) :
    Filtering P base W (ctx.setOnHead fn).2 := by
  unfold setOnHead
  split
  · exact h
  · rename_i hs
    cases h with
    | lost hl => exact .lost (.inl (hl.resolve_right fun hp => hs hp.1))
    | held h => exact .held (h.setHooks h.filter fun _ he => Option.some.inj he ▸ ho)
    | streamed h _ => exact absurd h.sent hs

theorem step_filtering (h : Filtering P base W ctx) {op : HandlerOp} (hw : op.Replies)
    (ho : ∀ F, op.Offers F → P F) : Filtering P base (W ++ op.wrote) (ctx.step op) := by
  cases op with
  | head op =>
    show Filtering P base (W ++ []) (ctx.headOp op)
    rw [List.append_nil]
    cases h with
    | lost h => exact .lost (headOp_lost h op)
    | held h => exact .held (headOp_held h op fun F hF => ho F (by rw [hF]; rfl))
    | streamed h hp => exact .streamed (headOp_streamed h op) hp
  | write data => exact write_filtering h data
  | reserve n data hd => exact reserveOp_filtering h hd
  | flush =>
    have hk : FlushKind.asked ≠ .final := nofun
    show Filtering P base (W ++ []) (ctx.flush .asked).2
    rw [List.append_nil]
    exact (flush_flushed h hk).filtering
  | onHead fn =>
    show Filtering P base (W ++ []) (ctx.setOnHead fn).2
    rw [List.append_nil]
    exact setOnHead_filtering h fn fun n b F hF => ho F ⟨n, b, hF⟩
  | bodyAll => exact absurd hw id
  | bodyReadUntil n => exact absurd hw id
  | bodyReadNextChunk cap => exact absurd hw id
  | tick => exact absurd hw id

theorem run_filtering {ops : List HandlerOp} (h : Filtering P base W ctx)
    (hw : ∀ op ∈ ops, op.Replies) (ho : ∀ op ∈ ops, ∀ F, op.Offers F → P F) :
    Filtering P base (W ++ ops.flatMap (·.wrote)) (ctx.run ops) := by
  induction ops generalizing ctx W with
  | nil =>
    rw [List.flatMap_nil, List.append_nil]
    exact h
  | cons op ops ih =>
    have h1 := step_filtering h (hw op (List.mem_cons_self ..)) (ho op (List.mem_cons_self ..))
    rw [List.flatMap_cons, ← List.append_assoc]
    exact ih h1 (fun o hm => hw o (List.mem_cons_of_mem _ hm))
      fun o hm => ho o (List.mem_cons_of_mem _ hm)

theorem init_held {conn : Conn} {req : Request} (scratch : Scratch) (hw : Writable conn.out)
    (hm : isHead req.method = false) :
    Held P conn.sock.wire [] (Ctx.init conn req scratch) where
  gear := by
    have hsmall : pipeLead + (pipeCap + codedSlack) + pipeSlack < 2 ^ 31 := by decide
    have hcap : pipeCap + codedSlack ≤ sizeMax := by decide
    exact ⟨rfl, hm, hw.fit, hw.cap, hw.able,
      ⟨⟨Nat.zero_le _, Nat.zero_le _, Nat.zero_le _, hsmall⟩, rfl, rfl, rfl, rfl⟩, hcap, rfl, rfl,
      init_headOk _, Nat.zero_le _⟩
  unsent := rfl
  whole := rfl
  zero := rfl
  wire := rfl
  log := rfl
  slab := Pipewriter.slab_reset conn.out
  filter := nofun
  onHead := nofun

/-- The state of the request's body does not matter to a held reply. -/
theorem Held.setBody (h : Held P base W ctx) (feed : Feed) (read left : Nat) (done : Bool)
    (err status : Int) (close : Bool) : Held P base W { ctx with
      feed := feed
      bodyRead := read
      bodyDone := done
      bodyErr := err
      chunkLeft := left
      res := { ctx.res with status := status, close := close } } :=
  ⟨⟨h.gear.live, h.gear.asked, h.gear.fit, h.gear.cap, h.gear.able, h.gear.codedFit,
    h.gear.codedCap, h.gear.codedAble, h.gear.codedEmpty, h.gear.head.congr rfl rfl rfl,
    h.gear.length⟩, h.unsent, h.whole, h.zero, h.wire, h.log, h.slab, h.filter, h.onHead⟩

/-- The rest of the request's body does not matter to the reply. -/
theorem Filtering.settle (h : Filtering P base W ctx) : Filtering P base W ctx.settleBody := by
  have hd := settleBody_deaf ctx
  rw [hd.eq]
  cases h with
  | lost h => exact .lost h
  | held h => exact .held (h.setBody _ _ _ _ _ _ _)
  | streamed h hp =>
    obtain ⟨t, hwire, hst⟩ := h.stage
    exact .streamed ⟨⟨h.gear.live, h.gear.asked, h.gear.fit, h.gear.cap, h.gear.able,
      h.gear.codedFit, h.gear.codedCap, h.gear.codedAble, h.gear.codedEmpty,
      h.gear.head.congr rfl rfl rfl, h.gear.length⟩, h.sent, h.body, h.long, h.filter, h.log,
      h.took, h.ops, h.short, t, hwire,
      hst.congr rfl rfl rfl rfl (fun _ => ⟨rfl, rfl⟩) hd.close⟩ hp

/-- A body that is whole in the coded buffer: the head goes out with its
length. -/
theorem startHead_whole {body : List Byte} (hc : Coding base ctx none body) (hs : ctx.res.headSent = false)
    (hok : HeadOk ctx.res) (hlen : ctx.res.contentLength ≤ sizeMax)
    (hr : (match ctx.startHead true true with
      | (none, ctx) => (false, ctx)
      | (some head, ctx) => ctx.flushBody .final true true head []) = (true, ctx'))
    (hb : ctx'.noBody = false) :
    ctx'.filter = ctx.filter ∧ ctx'.filterLog = ctx.filterLog ∧ ∃ hd : Head,
      ctx'.sock.wire = base ++ (hd.encode ++ body) ∧ Declares hd (.length body.length) := by
  obtain ⟨t, data, hwire, hst, hout⟩ := hc.stage
  have hcap : ctx.coded.len ≤ sizeMax := hc.fit.ok.len.trans hc.cap
  have hlen' : ctx.headLength true true ≤ sizeMax := by
    unfold headLength
    split
    · exact hlen
    · exact hcap
  obtain ⟨hd, hstart, -, hdec, hshort⟩ := startHead_spec hok hlen'
  rw [hstart] at hr
  dsimp only at hr
  unfold flushBody at hr
  by_cases hn : (ctx.headed true true).noBody = true
  · rw [if_pos hn] at hr
    have hk := (sendBodyless_keeps (ctx.headed true true) hd.encode).1
    rw [hr, hb, hn] at hk
    cases hk
  · rw [if_neg hn, if_neg (by simp)] at hr
    rw [Bool.not_eq_true] at hn
    have hdl : ctx.declares true = false := by
      unfold declares
      have : (ctx.headOnly || bodyless (wireStatus ctx.res.status)) = false := hn
      rw [this, Bool.not_true, Bool.or_false, Bool.and_false]
    have hfr : ctx.frameOf true = .length := by
      simp [frameOf, (Bool.or_eq_false_iff.mp hn).2]
    have ho : FrameOutcome (ctx.headed true true) true true hd.encode []
        ((ctx.headed true true).sendFrame true true hd.encode []) :=
      @sendFrame_outcome (ctx.headed true true) true hc.fit hc.able hd.encode hshort true []
    rw [decide_eq_true rfl] at hr
    rw [hr] at ho
    rw [hfr] at hdec
    simp only [Frame.framing, headLength, hdl] at hdec
    have hch : ctx.res.chunked = false ∧ ctx.res.bodySent = 0 ∧ t = [] ∧ data = [] := by
      rw [Option.getD_none, List.append_nil] at hst
      cases hst with
      | length hs' => simp [hs] at hs'
      | chunked hs' => simp [hs] at hs'
      | untilClose hs' => simp [hs] at hs'
      | held _ hch hz => exact ⟨hch, hz, rfl, rfl⟩
    obtain ⟨hch, hz, rfl, rfl⟩ := hch
    have hadm : (ctx.headed true true).admitted ctx.coded.slab = ctx.coded.slab := by
      unfold admitted
      split
      · rename_i hl
        have hn : (ctx.headed true true).res.contentLength - (ctx.headed true true).res.bodySent =
            ctx.coded.len := by
          have hl' : ctx.res.hasLength = true := hl
          simp [headed, hl', hdl, hz, sw]
        rw [hn]
        exact List.take_of_length_le (Pipewriter.length_slab _).le
      · rfl
    have hfrm : (ctx.headed true true).frame true true hd.encode [] = hd.encode ++ body := by
      have hc' : (ctx.headed true true).res.chunked = false := by simp [headed, hch, hfr]
      have hsl : (ctx.headed true true).slabLeft true = ctx.coded.slab := hadm
      rw [frame, hc', spanOf_plain, hsl, extraLeft_nil, List.append_nil, ← hout]
      rfl
    cases ho with
    | @sent pw sock _ _ _ _ hdone =>
      refine ⟨rfl, rfl, hd, ?_, ?_⟩
      · show sock.wire = _
        rw [hdone.wire, hfrm]
        show ctx.sock.wire ++ _ = _
        rw [hwire, List.append_nil]
      · have hbl : (ctx.sw true).len = body.length := by
          rw [← hout, List.nil_append, Pipewriter.length_slab]
          rfl
        rw [← hbl]
        exact hdec

theorem flushHead_final (hs : ctx.res.headSent = false) (hf : ctx.filter = some script)
    (ha : ctx.headOnly = false) (extra : List Byte) :
    ctx.flushHead .final extra = match ctx.encode .finish none with
      | (false, ctx, _) => (false, ctx)
      | (true, ctx, _) =>
        if ctx.res.headSent then ctx.flushBody .final true true [] extra
        else behindHead .final true true extra (ctx.startHead true true) := by
  simp only [flushHead, hf, Option.isSome_some, ha, Bool.not_false, Bool.and_self, hs, decide_true,
    if_true, Bool.false_eq_true, not_false_eq_true, not_true_eq_false, and_false, if_false]
  rfl

theorem Held.coding (h : Held P base W ctx) : Coding base ctx none [] :=
  ⟨h.gear.codedFit, h.gear.codedCap, h.gear.codedAble, h.gear.live, nofun, by simp, [], [],
    by rw [h.wire, List.append_nil], .held h.unsent h.whole h.zero, by rw [h.gear.codedSlab]; rfl⟩

/-- The last flush of a reply that nothing has gone out of. The filter is told
the end at once, and its output is the body, whatever length was declared. -/
theorem flushHead_whole (h : Held P base W ctx) (hf : ctx.filter = some script)
    (hr : ctx.flushHead .final [] = (true, ctx')) (hb : ctx'.noBody = false) :
    ∃ used rest, script = used ++ rest ∧ ctx'.filter = some rest ∧
      Finished base W ctx' true used := by
  rw [flushHead_final h.unsent hf h.gear.asked] at hr
  split at hr
  · simp at hr
  · rename_i c hd' henc
    unfold encode at henc
    rw [hf] at henc
    obtain ⟨used, rest, hs, hran, hc, hnone⟩ := encodeLoop_coding h.coding henc
    obtain rfl := hnone rfl
    rw [List.nil_append] at hc
    have hsent : c.res.headSent = false := by
      rw [hran.eq]
      exact h.unsent
    rw [if_neg (by simp [hsent])] at hr
    have hok : HeadOk c.res ∧ c.res.contentLength ≤ sizeMax ∧ c.filter = some rest := by
      rw [hran.eq]
      exact ⟨h.gear.head.congr rfl rfl rfl, h.gear.length, rfl⟩
    obtain ⟨hfil, hlog', hd, hwire, hdec⟩ := startHead_whole hc hsent hok.1 hok.2.1 hr hb
    obtain ⟨ins, hlog, hlen, hops, hcons⟩ := hran.log
    rw [h.log, List.nil_append] at hlog
    refine ⟨used, rest, hs, hfil.trans hok.2.2, ?_, ?_, ?_, hd, _, _, hwire, hdec, .length, ?_⟩
    · rw [hlog', hlog, hlen]
    · rw [hlog', hlog, hcons]
      exact h.slab
    · rw [hlog', hlog]
      refine @finish_log [] ins nofun hops fun hn => hran.called ?_
      exact List.length_eq_zero_iff.mp (by rw [← hlen, hn]; rfl)
    · rw [if_pos rfl]

theorem flush_finished (h : Filtering P base W ctx) (hr : ctx.flush .final = (true, ctx'))
    (hf : ctx'.filter = some rest) (hb : ctx'.noBody = false) :
    ∃ done, P (done ++ rest) ∧ Finished base W ctx' (!ctx.res.headSent) done := by
  have hlive : ctx'.filter = some rest → ctx'.noBody = false → ¬ Plain ctx' := by
    intro hf hb hp
    rcases hp.2 with hn | hn
    · simp [hf] at hn
    · simp [hb] at hn
  unfold flush at hr
  cases h with
  | lost h =>
    rcases h with h | h
    · unfold flushWith at hr
      rw [if_pos h] at hr
      cases hr
    · have hp := flushWith_plainly h .final []
      rw [hr] at hp
      exact absurd hp (hlive hf hb)
  | held h =>
    have hh := callOnHead_held h (decide (FlushKind.final = .final))
    rw [flushWith_eq h.gear.live] at hr
    cases hfl : (ctx.callOnHead (decide (FlushKind.final = .final))).filter with
    | none =>
      have hp := flushHead_plain hh.unsent hfl .final [] (congrArg (·.1) hr)
      rw [hr] at hp
      exact absurd hp (hlive hf hb)
    | some script =>
      obtain ⟨used, rest', hs, hf', hfin⟩ := flushHead_whole hh hfl hr hb
      obtain rfl : rest = rest' := Option.some.inj (hf.symm.trans hf')
      refine ⟨used, hs ▸ hh.filter script hfl, ?_⟩
      rw [h.unsent]
      exact hfin
  | @streamed done script h hp =>
    rw [flushWith_eq h.gear.live, callOnHead_sent h.sent, flushHead_sent h.sent, h.filter,
      h.gear.asked] at hr
    obtain ⟨used, rest', hs, hf', hfin⟩ := flushBody_finished h hr
    obtain rfl : rest = rest' := Option.some.inj (hf.symm.trans hf')
    refine ⟨done ++ used, ?_, ?_⟩
    · rw [List.append_assoc, ← hs]
      exact hp
    · rw [h.sent]
      exact hfin

theorem finish_finished (h : Filtering P base W ctx) (hr : ctx.finish = (true, ctx'))
    (hf : ctx'.filter = some rest) (hb : ctx'.noBody = false) :
    ∃ done, P (done ++ rest) ∧ Finished base W ctx' (!ctx.res.headSent) done := by
  unfold finish at hr
  split at hr
  · cases hr
  · rename_i hlive
    split at hr
    rename_i ok c hlast
    split at hr
    · cases hr
    · rename_i hok
      obtain rfl : ok = true := not_not.mp hok
      obtain ⟨-, rfl⟩ := Prod.mk.inj hr
      split at hlast
      · obtain ⟨done, hp, hfin⟩ := flush_finished h hlast hf hb
        refine ⟨done, hp, hfin.log, hfin.took, hfin.ops, ?_⟩
        obtain ⟨hd, fr, body, hw, hdec, hcar, hkind⟩ := hfin.wire
        refine ⟨hd, fr, body, hw, hdec, hcar, ?_⟩
        split
        · rwa [if_pos ‹_›] at hkind
        · rw [if_neg ‹_›] at hkind
          exact hkind.imp_right fun hk => ⟨hk.1, by simp [hk.2]⟩
      · -- the end of a reply that no filter codes
        rename_i hnf
        have hno : ctx.filter = none := by
          simp only [not_or, Bool.not_eq_true, Option.isSome_eq_false_iff,
            Option.isNone_iff_eq_none] at hnf
          exact hnf.2.2
        have hkeep : c.filter = ctx.filter := by
          split at hlast
          · split at hlast
            · cases hlast
            · dsimp only at hlast
              split at hlast
              · obtain ⟨-, rfl⟩ := Prod.mk.inj hlast
                rfl
              · cases hlast
          · obtain ⟨-, rfl⟩ := Prod.mk.inj hlast
            rfl
        have hf' : c.filter = some rest := hf
        rw [hkeep, hno] at hf'
        cases hf'

/-- A reply that a filter codes and that ends well: the filter was given all
that the handler wrote and told the end last, and what it made of it is what
the client reads behind the head. -/
theorem filtered_reply {conn : Conn} {req : Request} (scratch : Scratch) {ops : List HandlerOp}
    {ctx : Ctx} {rest : Filter} (hw : Writable conn.out) (hm : isHead req.method = false)
    (hops : ∀ op ∈ ops, op.Replies)
    (hr : ((Ctx.init conn req scratch).run ops).settleBody.finish = (true, ctx))
    (hf : ctx.filter = some rest) (hb : ctx.noBody = false) :
    ∃ done, (∃ op ∈ ops, op.Offers (done ++ rest)) ∧
      Finished conn.sock.wire (ops.flatMap (·.wrote)) ctx
        (!((Ctx.init conn req scratch).run ops).res.headSent) done := by
  have h0 : Filtering (fun F => ∃ op ∈ ops, op.Offers F) conn.sock.wire []
      (Ctx.init conn req scratch) := .held (init_held scratch hw hm)
  have hrun := run_filtering h0 hops fun op hm F ho => ⟨op, hm, ho⟩
  rw [List.nil_append] at hrun
  have hsent : ((Ctx.init conn req scratch).run ops).settleBody.res.headSent =
      ((Ctx.init conn req scratch).run ops).res.headSent := by
    rw [(settleBody_deaf _).eq]
  obtain ⟨done, hp, hfin⟩ := finish_finished hrun.settle hr hf hb
  rw [hsent] at hfin
  exact ⟨done, hp, hfin⟩

def zeros : Mem Byte := fun _ => 0

def idleConn : Conn :=
  ⟨.init zeros 256 (fun _ => zeros) [], .init zeros pipeLead pipeCap pipeSlack, ⟨[], []⟩⟩

/-- A handler that flushes once; the filter codes the flush and has an end of
its own. -/
def codedOps : List HandlerOp :=
  [.head (.replyFilter [⟨0, 2, [7]⟩, ⟨0, 1, [8, 9]⟩]), .write (str "hi"), .flush, .write (str "!")]

def codedCtx : Ctx :=
  ((Ctx.init idleConn (.parsed ⟨str "GET", str "/", 1, []⟩) ⟨zeros, zeros, zeros⟩).run
    codedOps).settleBody.finish.2

theorem filtered_reply_streamed : ∃ done, Finished [] (str "hi!") codedCtx false done ∧
    produced done = [7, 8, 9] := by
  have hw : Writable idleConn.out := ⟨rfl, rfl, rfl, rfl⟩
  have hops : ∀ op ∈ codedOps, op.Replies := by simp [codedOps, HandlerOp.Replies]
  have hr : ((Ctx.init idleConn (.parsed ⟨str "GET", str "/", 1, []⟩) ⟨zeros, zeros, zeros⟩).run
      codedOps).settleBody.finish = (true, codedCtx) :=
    Prod.ext (by decide +kernel) rfl
  have hend : codedCtx.filter.map List.length = some 0 ∧ codedCtx.noBody = false := by
    decide +kernel
  have hf : codedCtx.filter = some [] := by
    cases h : codedCtx.filter with
    | none => simp [h] at hend
    | some rest => simpa [h] using hend.1
  have hs : ((Ctx.init idleConn (.parsed ⟨str "GET", str "/", 1, []⟩) ⟨zeros, zeros, zeros⟩).run
      codedOps).res.headSent = true := by decide +kernel
  obtain ⟨done, ⟨op, hop, ho⟩, hfin⟩ := filtered_reply _ hw (by decide) hops hr hf hend.2
  rw [hs] at hfin
  refine ⟨done, hfin, ?_⟩
  simp only [codedOps, List.mem_cons, List.not_mem_nil, or_false] at hop
  rcases hop with rfl | rfl | rfl | rfl
  · have he : [⟨0, 2, [7]⟩, ⟨0, 1, [8, 9]⟩] = done := by simpa [HandlerOp.Offers] using ho
    rw [← he]
    rfl
  · exact absurd ho id
  · exact absurd ho id
  · exact absurd ho id

end Ctx

end Ioxd.Http
