import Ioxd.Http.HeadGet

/-!
# Replies that carry no body

The reply to a HEAD and one with a status that has no body are to be their head
and nothing else. Every flush keeps to that, whatever was written; the end does
not, when the head of a reply to a HEAD has gone out chunked and nothing was
written since.
-/

namespace Ioxd.Http

open Flat
open Ioxd.Pipe
open Message (Head)

namespace Ctx

variable {ctx ctx' : Ctx} {base : List Byte}

-- ---------------------------------------------------------------------------
-- Calls that a plain reply makes
-- ---------------------------------------------------------------------------

theorem Ready.setOut (h : Ready ctx) {out : Pipewriter} (hf : Fit out) (hc : out.cap = pipeCap) :
    Ready { ctx with out := out } :=
  ⟨h.filter, h.onHead, hf, hc, h.head, h.length⟩

theorem Ready.setRes (h : Ready ctx) {res : Response} (hok : HeadOk res)
    (hl : res.contentLength ≤ sizeMax) : Ready { ctx with res := res } :=
  ⟨h.filter, h.onHead, h.fit, h.cap, hok, hl⟩

theorem Ready.append (h : Ready ctx) {more : List Byte} (hm : more.length ≤ ctx.out.room) :
    Ready { ctx with out := (ctx.out.copyTo ctx.out.at' more).advance more.length } := by
  obtain ⟨hok, -⟩ := Pipewriter.append_spec h.fit.ok h.fit.tail hm
  exact h.setOut ⟨hok, h.fit.head, h.fit.tail, h.fit.lead, h.fit.slack⟩ h.cap

theorem Ready.reset (h : Ready ctx) : Ready { ctx with out := ctx.out.reset } :=
  h.setOut ⟨Pipewriter.reset_ok h.fit.ok, rfl, rfl, h.fit.lead, h.fit.slack⟩ h.cap

theorem headOp_ready (h : Ready ctx) {op : HeadOp} (hop : (HandlerOp.head op).Plain) :
    Ready (ctx.headOp op) := by
  cases op with
  | status status => exact h.setRes (h.head.congr rfl rfl rfl) h.length
  | header name value =>
    obtain ⟨_, _, _, _, e⟩ := header_rest ctx.res name value
    exact h.setRes (header_headOk h.head name value) (by rw [e]; exact h.length)
  | contentType type =>
    obtain ⟨_, _, e⟩ := contentType_rest ctx.res type
    exact h.setRes (contentType_headOk h.head type) (by rw [e]; exact h.length)
  | contentLength n =>
    refine h.setRes ?_ ?_
    · unfold Http.contentLength
      split <;> exact h.head.congr rfl rfl rfl
    · unfold Http.contentLength
      split
      · exact h.length
      · exact Nat.le_pred_of_lt n.toNat_lt
  | close => exact h.setRes (h.head.congr rfl rfl rfl) h.length
  | replyFilter F => exact hop.elim

theorem headOp_rest (ctx : Ctx) {op : HeadOp} (hop : (HandlerOp.head op).Plain) : ∃ res,
    ctx.headOp op = { ctx with res := res } ∧ res.failed = ctx.res.failed ∧
      res.headSent = ctx.res.headSent ∧ res.chunked = ctx.res.chunked ∧
      res.bodySent = ctx.res.bodySent := by
  cases op with
  | status status => exact ⟨_, rfl, rfl, rfl, rfl, rfl⟩
  | header name value =>
    obtain ⟨_, _, _, _, e⟩ := header_rest ctx.res name value
    exact ⟨_, rfl, by rw [e], by rw [e], by rw [e], by rw [e]⟩
  | contentType type =>
    obtain ⟨_, _, e⟩ := contentType_rest ctx.res type
    exact ⟨_, rfl, by rw [e], by rw [e], by rw [e], by rw [e]⟩
  | contentLength n =>
    refine ⟨_, rfl, ?_⟩
    unfold Http.contentLength
    split <;> exact ⟨rfl, rfl, rfl, rfl⟩
  | close => exact ⟨_, rfl, rfl, rfl, rfl, rfl⟩
  | replyFilter F => exact hop.elim

-- ---------------------------------------------------------------------------
-- Stages
-- ---------------------------------------------------------------------------

structure Unsent (base : List Byte) (ctx : Ctx) : Prop where
  ready : Ready ctx
  live : ctx.res.failed = false
  able : ctx.out.failed = false
  unsent : ctx.res.headSent = false
  whole : ctx.res.chunked = false
  wire : ctx.sock.wire = base

structure Bare (base : List Byte) (ctx : Ctx) : Prop where
  ready : Ready ctx
  live : ctx.res.failed = false
  able : ctx.out.failed = false
  sent : ctx.res.headSent = true
  mute : ctx.noBody = true
  wire : ∃ (hd : Head) (status : Nat), hd.start = startLine status ∧
    (ctx.headOnly || bodyless status) = true ∧ ctx.sock.wire = base ++ hd.encode

structure Bodied (base : List Byte) (ctx : Ctx) : Prop where
  sent : ctx.res.headSent = true
  wire : ∃ (hd : Head) (status : Nat) (rest : List Byte), hd.start = startLine status ∧
    (ctx.headOnly || bodyless status) = false ∧ ctx.sock.wire = base ++ hd.encode ++ rest

inductive Plainly (base : List Byte) (ctx : Ctx) : Prop
  | lost : ctx.res.failed = true → Plainly base ctx
  | unsent : Unsent base ctx → Plainly base ctx
  | bare : Bare base ctx → Plainly base ctx
  | bodied : Bodied base ctx → Plainly base ctx

inductive Told (base : List Byte) : Bool × Ctx → Prop
  | lost {ctx : Ctx} : ctx.res.failed = true → Told base (false, ctx)
  | bare {ctx : Ctx} : Bare base ctx → ctx.out.len = 0 → Told base (true, ctx)
  | bodied {ctx : Ctx} {ok : Bool} : Bodied base ctx → Told base (ok, ctx)

theorem Told.plainly {r : Bool × Ctx} (h : Told base r) : Plainly base r.2 := by
  cases h with
  | lost h => exact .lost h
  | bare h => exact .bare h
  | bodied h => exact .bodied h

theorem sendBodyless_told {hd : Head} {status : Nat} (h : Ready ctx)
    (hlive : ctx.res.failed = false) (ha : ctx.out.failed = false) (hs : ctx.res.headSent = true)
    (hn : ctx.noBody = true) (hst : hd.start = startLine status)
    (hno : (ctx.headOnly || bodyless status) = true) (hw : ctx.sock.wire = base)
    (hl : hd.encode.length < 2 ^ 31) : Told base (ctx.sendBodyless hd.encode) := by
  have hne : hd.encode ≠ [] := by simp [Head.encode, Message.encodeLines, Message.crlf]
  have ho := @Pipewriter.through_outcome ctx.out.reset ctx.sock hd.encode ha hl
  unfold sendBodyless
  dsimp only
  rw [if_neg hne]
  generalize ctx.out.reset.through ctx.sock hd.encode = r at ho
  cases ho with
  | sent hd' =>
    simp only [if_true]
    refine .bare ⟨?_, hlive, ha, hs, hn, hd, status, hst, hno, ?_⟩ rfl
    · exact ⟨h.filter, h.onHead, h.reset.fit, h.cap, h.head, h.length⟩
    · rw [← hw]
      exact hd'.wire
  | cut => exact .lost rfl

theorem sendFrame_told {final : Bool} {extra : List Byte} {hd : Head} {status : Nat}
    (h : Ready ctx) (ha : ctx.out.failed = false) (hs : ctx.res.headSent = true)
    (hst : hd.start = startLine status) (hno : (ctx.headOnly || bodyless status) = false)
    (hw : ctx.sock.wire = base) (hl : hd.encode.length < 2 ^ 31) :
    Told base (ctx.sendFrame final false hd.encode extra) := by
  have ho : FrameOutcome ctx final false hd.encode extra
      (ctx.sendFrame final false hd.encode extra) :=
    @sendFrame_outcome ctx false h.fit ha _ hl final extra
  generalize ctx.sendFrame final false hd.encode extra = r at ho
  cases ho with
  | sent hov hf hk h0 hd' =>
    refine .bodied ⟨hs, hd, status, ctx.frame final false [] extra, hst, hno, ?_⟩
    rw [← hw, List.append_assoc, ← frame_head]
    exact hd'.wire
  | overrun => exact .lost rfl
  | wrapped => exact .lost rfl
  | cut => exact .lost rfl

theorem flushWith_first (h : Unsent base ctx) (kind : FlushKind) (extra : List Byte) :
    Told base (ctx.flushWith kind extra) := by
  obtain ⟨hd, hstart, hst, -, hl⟩ := @startHead_spec ctx (kind = .final) false h.ready.head
    (h.ready.headLength_le _)
  rw [flushWith_plain h.ready h.live, if_neg (by simp [h.unsent]), hstart]
  dsimp only
  rw [flushBody_plain]
  have hlen : (ctx.headed (kind = .final) false).res.contentLength ≤ sizeMax := by
    show (if _ then _ else _) ≤ _
    split
    · have : ctx.out.len ≤ pipeCap := h.ready.cap ▸ h.ready.fit.ok.len
      exact this.trans (by decide)
    · exact h.ready.length
  have hr : Ready (ctx.headed (kind = .final) false) :=
    ⟨h.ready.filter, h.ready.onHead, h.ready.fit, h.ready.cap, h.ready.head.congr rfl rfl rfl, hlen⟩
  split
  · rename_i hn
    exact sendBodyless_told hr h.live h.able rfl hn hst hn h.wire hl
  · rename_i hn
    exact sendFrame_told hr h.able rfl hst (Bool.eq_false_iff.mpr hn) h.wire hl

theorem flushWith_behind (h : Bare base ctx) (kind : FlushKind) (extra : List Byte) :
    Told base (ctx.flushWith kind extra) := by
  rw [flushWith_plain h.ready h.live, if_pos h.sent, flushBody_plain, if_pos h.mute]
  unfold sendBodyless
  simp only [if_true]
  refine .bare ⟨?_, h.live, h.able, h.sent, h.mute, h.wire⟩ rfl
  exact ⟨h.ready.filter, h.ready.onHead, h.ready.reset.fit, h.ready.cap, h.ready.head,
    h.ready.length⟩

theorem Bodied.onward (h : Bodied base ctx) (ho : Onward ctx ctx')
    (he : ctx'.headOnly = ctx.headOnly) : Bodied base ctx' := by
  obtain ⟨hd, status, rest, hst, hno, hw⟩ := h.wire
  obtain ⟨more, hm⟩ := ho.wire
  refine ⟨ho.sent.trans h.sent, hd, status, rest ++ more, hst, he ▸ hno, ?_⟩
  rw [← hm, hw, List.append_assoc]

theorem flushWith_told (h : Plainly base ctx) (kind : FlushKind) (extra : List Byte) :
    Told base (ctx.flushWith kind extra) := by
  cases h with
  | lost h =>
    rw [flushWith_stuck h]
    exact .lost h
  | unsent h => exact flushWith_first h kind extra
  | bare h => exact flushWith_behind h kind extra
  | bodied h =>
    have hm := (flushWith_mute ctx kind extra).fields
    exact .bodied (h.onward (flushWith_onward h.sent kind extra) hm.2.2.2.2.2.2.2)

-- ---------------------------------------------------------------------------
-- The handler's calls
-- ---------------------------------------------------------------------------

theorem Plainly.append (h : Plainly base ctx) {more : List Byte} (hm : more.length ≤ ctx.out.room) :
    Plainly base { ctx with out := (ctx.out.copyTo ctx.out.at' more).advance more.length } := by
  cases h with
  | lost h => exact .lost h
  | unsent h => exact .unsent ⟨h.ready.append hm, h.live, h.able, h.unsent, h.whole, h.wire⟩
  | bare h => exact .bare ⟨h.ready.append hm, h.live, h.able, h.sent, h.mute, h.wire⟩
  | bodied h => exact .bodied ⟨h.sent, h.wire⟩

theorem writeLoop_plainly (turns : Nat) (h : Plainly base ctx) (src : List Byte) :
    Plainly base (writeLoop turns ctx src).2 := by
  induction turns generalizing ctx src with
  | zero => exact h
  | succ turns ih =>
    unfold writeLoop
    split
    · exact h
    split
    · have hf := (flushWith_told h .full []).plainly
      unfold flush
      split
      · rename_i he
        rwa [he] at hf
      · rename_i he
        rw [he] at hf
        exact ih hf src
    · dsimp only
      have hn : (src.take (min src.length ctx.out.room)).length = min src.length ctx.out.room := by
        rw [List.length_take]
        omega
      have ha := h.append (hn.trans_le (Nat.min_le_right ..))
      rw [hn] at ha
      exact ih ha _

theorem write_plainly (h : Plainly base ctx) (data : List Byte) :
    Plainly base (ctx.write data).2 := by
  unfold write
  split
  · exact h
  split
  · exact (flushWith_told h .full data).plainly
  · exact writeLoop_plainly _ h data

/-- A writer that is as it was made has room for all that may be reserved. -/
theorem reserveOp_fits (h : Plainly base ctx) (hc : ctx.out.cap = pipeCap) {n : Nat}
    {data : List Byte} (hd : data.length ≤ n) : Plainly base (ctx.reserveOp n data) := by
  have hput (c : Ctx) (hp : Plainly base c) (hn : data.length ≤ c.out.room) :
      Plainly base ({ c with out := c.out.copyTo c.out.at' data }.advance data.length) :=
    hp.append hn
  unfold reserveOp reserve
  by_cases hr : ctx.res.failed = true ∨ n > ctx.out.cap
  · rw [if_pos hr]
    exact h
  rw [if_neg hr]
  by_cases hn : n > ctx.out.room
  · rw [if_pos hn]
    have hf := flushWith_told h .full []
    unfold flush
    generalize ctx.flushWith .full [] = r at hf
    cases hf with
    | lost hl => exact .lost hl
    | @bare c hb h0 =>
      refine hput c (.bare hb) ?_
      have hcap := hb.ready.cap
      unfold Pipewriter.room
      omega
    | @bodied c ok hb =>
      cases ok with
      | false => exact .bodied hb
      | true => exact .bodied ⟨hb.sent, hb.wire⟩
  · rw [if_neg hn]
    exact hput ctx h (by omega)

theorem reserveOp_plainly (h : Plainly base ctx) {n : Nat} {data : List Byte}
    (hd : data.length ≤ n) : Plainly base (ctx.reserveOp n data) := by
  cases h with
  | lost h =>
    unfold reserveOp reserve
    rw [if_pos (.inl h)]
    exact .lost h
  | unsent h => exact reserveOp_fits (.unsent h) h.ready.cap hd
  | bare h => exact reserveOp_fits (.bare h) h.ready.cap hd
  | bodied h =>
    have hm := (reserveOp_mute ctx n data).fields
    exact .bodied (h.onward (reserveOp_onward h.sent n data) hm.2.2.2.2.2.2.2)

theorem headOp_plainly (h : Plainly base ctx) {op : HeadOp} (hop : (HandlerOp.head op).Plain) :
    Plainly base (ctx.headOp op) := by
  obtain ⟨res, he, hf, hs, hc, -⟩ := headOp_rest ctx hop
  cases h with
  | lost h =>
    rw [he]
    exact .lost (hf.trans h)
  | unsent h =>
    have hr := headOp_ready h.ready hop
    rw [he] at hr ⊢
    exact .unsent ⟨hr, hf.trans h.live, h.able, hs.trans h.unsent, hc.trans h.whole, h.wire⟩
  | bare h =>
    have hr := headOp_ready h.ready hop
    rw [he] at hr ⊢
    exact .bare ⟨hr, hf.trans h.live, h.able, hs.trans h.sent, h.mute, h.wire⟩
  | bodied h =>
    rw [he]
    exact .bodied ⟨hs.trans h.sent, h.wire⟩

theorem Plainly.setBody (h : Plainly base ctx) (feed : Feed) (read left : Nat) (done : Bool)
    (err status : Int) (close : Bool) : Plainly base { ctx with
      feed := feed
      bodyRead := read
      bodyDone := done
      bodyErr := err
      chunkLeft := left
      res := { ctx.res with status := status, close := close } } := by
  have hready (hr : Ready ctx) : Ready { ctx with
      feed := feed
      bodyRead := read
      bodyDone := done
      bodyErr := err
      chunkLeft := left
      res := { ctx.res with status := status, close := close } } :=
    ⟨hr.filter, hr.onHead, hr.fit, hr.cap, hr.head.congr rfl rfl rfl, hr.length⟩
  cases h with
  | lost h => exact .lost h
  | unsent h => exact .unsent ⟨hready h.ready, h.live, h.able, h.unsent, h.whole, h.wire⟩
  | bare h => exact .bare ⟨hready h.ready, h.live, h.able, h.sent, h.mute, h.wire⟩
  | bodied h => exact .bodied ⟨h.sent, h.wire⟩

theorem step_plainly (h : Plainly base ctx) {op : HandlerOp} (hop : op.Plain) :
    Plainly base (ctx.step op) := by
  cases op with
  | head op => exact headOp_plainly h hop
  | write data => exact write_plainly h data
  | reserve n data fits => exact reserveOp_plainly h fits
  | flush => exact (flushWith_told h .asked []).plainly
  | tick => exact hop.elim
  | onHead fn => exact hop.elim
  | bodyAll => exact hop.elim
  | bodyReadUntil n => exact hop.elim
  | bodyReadNextChunk cap => exact hop.elim

theorem step_headOnly (ctx : Ctx) {op : HandlerOp} (hop : op.Plain) :
    (ctx.step op).headOnly = ctx.headOnly := by
  have hm {c : Ctx} (h : Mute ctx c) : c.headOnly = ctx.headOnly := h.fields.2.2.2.2.2.2.2
  cases op with
  | head op => exact hm (headOp_mute ctx op)
  | write data => exact hm (write_mute ctx data)
  | reserve n data fits => exact hm (reserveOp_mute ctx n data)
  | flush => exact hm (flushWith_mute ctx .asked [])
  | tick => exact hop.elim
  | onHead fn => exact hop.elim
  | bodyAll => exact hop.elim
  | bodyReadUntil n => exact hop.elim
  | bodyReadNextChunk cap => exact hop.elim

theorem run_plainly {ops : List HandlerOp} (h : Plainly base ctx) (hops : ∀ op ∈ ops, op.Plain) :
    Plainly base (ctx.run ops) ∧ (ctx.run ops).headOnly = ctx.headOnly := by
  induction ops generalizing ctx with
  | nil => exact ⟨h, rfl⟩
  | cons op ops ih =>
    have hop := hops op (List.mem_cons_self ..)
    obtain ⟨h1, h2⟩ := ih (step_plainly h hop) fun o hm => hops o (List.mem_cons_of_mem _ hm)
    exact ⟨h1, h2.trans (step_headOnly ctx hop)⟩

-- ---------------------------------------------------------------------------
-- The end
-- ---------------------------------------------------------------------------

/-- A chunked head has gone out, and nothing was written since the last flush:
the terminator goes out by itself. -/
def Trailing (ctx : Ctx) : Prop :=
  ctx.res.headSent = true ∧ ctx.res.chunked = true ∧ ctx.out.len = 0

/-- A reply as it is on the wire when it is over: its head, and the rest, which
a reply that is to have no body has in one case only. -/
def Finally (base : List Byte) (headOnly trailing : Prop) (ctx : Ctx) : Prop :=
  ∃ (hd : Head) (status : Nat) (rest : List Byte), hd.start = startLine status ∧
    ctx.sock.wire = base ++ hd.encode ++ rest ∧
    (headOnly ∨ bodyless status = true → (rest = [] ↔ ¬ trailing))

theorem finish_flush (hl : ctx.res.failed = false)
    (hf : ctx.res.headSent = false ∨ ctx.out.len ≠ 0) (hr : ctx.finish = (true, ctx')) :
    ∃ c, ctx.flush .final = (true, c) ∧ ctx'.sock = c.sock := by
  have hc : ¬ ctx.res.headSent = true ∨ ctx.out.len ≠ 0 ∨ ctx.filter.isSome = true := by
    rcases hf with hf | hf
    · exact .inl (by simp [hf])
    · exact .inr (.inl hf)
  unfold finish at hr
  rw [if_neg (by simp [hl]), if_pos hc] at hr
  generalize ctx.flush .final = r at hr
  obtain ⟨ok, c⟩ := r
  cases ok with
  | false => simp at hr
  | true =>
    simp only [not_true_eq_false, if_false, Prod.mk.injEq, true_and] at hr
    exact ⟨c, rfl, by rw [← hr]⟩

/-- With a bare head and nothing in the slab, the end sends a terminator or
nothing. -/
theorem finish_bare (h : Bare base ctx) (h0 : ctx.out.len = 0) (hr : ctx.finish = (true, ctx')) :
    ctx'.sock.wire = ctx.sock.wire ++ if ctx.res.chunked then terminator else [] := by
  have hc : ¬ (¬ ctx.res.headSent = true ∨ ctx.out.len ≠ 0 ∨ ctx.filter.isSome = true) := by
    simp [h.sent, h0, h.ready.filter]
  unfold finish at hr
  rw [if_neg (by simp [h.live]), if_neg hc] at hr
  by_cases hch : ctx.res.chunked = true
  · obtain ⟨pw, ht, hok, hkin, hp⟩ := putTerminator_spec h.ready.fit.ok h.ready.fit.slack
      (by rw [h.ready.fit.tail]; omega)
    rw [if_pos hch, ht] at hr
    rw [if_pos hch]
    have ho : Pipewriter.FlushOutcome pw ctx.sock [] (pw.flush ctx.sock) :=
      Pipewriter.flushWith_outcome hok (hkin.failed.trans h.able) ctx.sock []
    have hslab : ctx.out.slab = [] := by
      rw [← List.length_eq_zero_iff, Pipewriter.length_slab, h0]
    have hpend : pw.pending = terminator := by
      rw [hp, h.ready.fit.pending, hslab, List.nil_append]
    dsimp only at hr
    generalize pw.flush ctx.sock = r at hr ho
    cases ho with
    | sent hw hd =>
      simp only [if_true, not_true_eq_false, if_false, Prod.mk.injEq, true_and] at hr
      rw [← hr]
      simpa [hpend] using hd.wire
    | wrapped hw => simp at hr
    | cut hcut => simp at hr
  · rw [if_neg hch] at hr ⊢
    simp only [not_true_eq_false, if_false, Prod.mk.injEq, true_and] at hr
    rw [← hr, List.append_nil]

theorem Told.wire {c : Ctx} (h : Told base (true, c)) :
    Finally base (c.headOnly = true) False c := by
  cases h with
  | bare h =>
    obtain ⟨hd, status, hst, -, hw⟩ := h.wire
    exact ⟨hd, status, [], hst, by rw [hw, List.append_nil], fun _ => by simp⟩
  | bodied h =>
    obtain ⟨hd, status, rest, hst, hno, hw⟩ := h.wire
    refine ⟨hd, status, rest, hst, hw, fun hx => ?_⟩
    simp only [Bool.or_eq_false_iff] at hno
    simp [hno] at hx

theorem finish_finally (h : Plainly base ctx) (hr : ctx.finish = (true, ctx')) :
    Finally base (ctx.headOnly = true) ctx.Trailing ctx' := by
  have hflush (hl : ctx.res.failed = false) (hf : ctx.res.headSent = false ∨ ctx.out.len ≠ 0) :
      Finally base (ctx.headOnly = true) ctx.Trailing ctx' := by
    obtain ⟨c, hc, hs⟩ := finish_flush hl hf hr
    have hm := (flushWith_mute ctx .final []).fields.2.2.2.2.2.2.2
    have hsh := flushWith_told h .final []
    unfold flush at hc
    rw [hc] at hsh hm
    dsimp only at hm
    obtain ⟨hd, status, rest, hst, hw, hx⟩ := hsh.wire
    have hno : ¬ ctx.Trailing := by
      rintro ⟨h1, -, h3⟩
      simp [h1, h3] at hf
    exact ⟨hd, status, rest, hst, hs ▸ hw, by simpa [hno, hm] using hx⟩
  cases h with
  | lost h =>
    unfold finish at hr
    simp [h] at hr
  | unsent h => exact hflush h.live (.inl h.unsent)
  | bare h =>
    by_cases h0 : ctx.out.len = 0
    · obtain ⟨hd, status, hst, hno, hw⟩ := h.wire
      refine ⟨hd, status, _, hst, by rw [finish_bare h h0 hr, hw], fun _ => ?_⟩
      have hne : terminator ≠ [] := by decide
      cases hc : ctx.res.chunked <;> simp [Trailing, h.sent, hc, h0, hne]
    · exact hflush h.live (.inr h0)
  | bodied h =>
    have ho := finish_onward h.sent
    have hm := (finish_mute ctx).fields.2.2.2.2.2.2.2
    rw [hr] at ho hm
    obtain ⟨hd, status, rest, hst, hno, hw⟩ := (h.onward ho hm).wire
    refine ⟨hd, status, rest, hst, hw, fun hx => ?_⟩
    rw [hm] at hno
    simp only [Bool.or_eq_false_iff] at hno
    simp [hno] at hx

/-- Any plain calls in answer to any request, and the end of the reply: of a
reply to a HEAD, or with a status that has no body, nothing but the head is on
the wire, if and only if no terminator trails. -/
theorem bodyless_reply {conn : Conn} {req : Request} (scratch : Scratch) {ops : List HandlerOp}
    {ctx : Ctx} (hw : Writable conn.out) (hops : ∀ op ∈ ops, op.Plain)
    (hr : ((Ctx.init conn req scratch).run ops).settleBody.finish = (true, ctx)) :
    Finally conn.sock.wire (isHead req.method = true)
      ((Ctx.init conn req scratch).run ops).Trailing ctx := by
  have h0 : Plainly conn.sock.wire (Ctx.init conn req scratch) :=
    .unsent ⟨⟨rfl, rfl, hw.fit, hw.cap, init_headOk _, Nat.zero_le _⟩, rfl, hw.able, rfl, rfl, rfl⟩
  obtain ⟨h1, he⟩ := run_plainly h0 hops
  have hd := settleBody_deaf ((Ctx.init conn req scratch).run ops)
  have h2 : Plainly conn.sock.wire ((Ctx.init conn req scratch).run ops).settleBody := by
    rw [hd.eq]
    exact h1.setBody _ _ _ _ _ _ _
  have hf := finish_finally h2 hr
  rw [hd.eq] at hf
  rwa [show (isHead req.method = true) = ((Ctx.init conn req scratch).headOnly = true) from rfl,
    ← he]

/-- A HEAD whose handler has made these calls. -/
def headCtx (ops : List HandlerOp) : Ctx :=
  (Ctx.init idleConn (.parsed ⟨str "HEAD", str "/", 1, []⟩) ⟨zeros, zeros, zeros⟩).run ops

/-- Left in the slab, a reply to a HEAD goes out without its body. -/
theorem bodyless_reply_left : ∃ hd : Head,
    (headCtx [.write (str "hi")]).settleBody.finish.2.sock.wire = hd.encode := by
  have hw : Writable idleConn.out := ⟨rfl, rfl, rfl, rfl⟩
  have hops : ∀ op ∈ [HandlerOp.write (str "hi")], op.Plain := by simp [HandlerOp.Plain]
  have hr : (headCtx [.write (str "hi")]).settleBody.finish =
      (true, (headCtx [.write (str "hi")]).settleBody.finish.2) :=
    Prod.ext (by decide +kernel) rfl
  obtain ⟨hd, status, rest, -, hwire, hrest⟩ := bodyless_reply ⟨zeros, zeros, zeros⟩ hw hops hr
  have hsent : (headCtx [.write (str "hi")]).res.headSent = false := by decide +kernel
  have hnil := (hrest (.inl (by decide))).mpr fun ht => by
    have := ht.1
    unfold headCtx at hsent
    rw [hsent] at this
    cases this
  exact ⟨hd, by simpa [hnil, idleConn] using hwire⟩

/-- Flushed before the handler returns, it ends with a chunk terminator. -/
theorem bodyless_reply_trailed : ¬ ∀ (conn : Conn) (req : Request) (scratch : Scratch)
    (ops : List HandlerOp) (ctx : Ctx), Writable conn.out → (∀ op ∈ ops, op.Plain) →
    ((Ctx.init conn req scratch).run ops).settleBody.finish = (true, ctx) →
    isHead req.method = true → ∃ hd : Head, ctx.sock.wire = conn.sock.wire ++ hd.encode := by
  intro h
  have hr : (headCtx [.write (str "hi"), .flush]).settleBody.finish =
      (true, (headCtx [.write (str "hi"), .flush]).settleBody.finish.2) :=
    Prod.ext (by decide +kernel) rfl
  obtain ⟨hd, hwire⟩ := h idleConn _ _ _ _ ⟨rfl, rfl, rfl, rfl⟩ (by simp [HandlerOp.Plain]) hr
    (by decide)
  -- a client's reading has an empty line before the last two
  have hlines := hd.splitLines_encode
  have hempty : [] ∈ (Message.splitLines (idleConn.sock.wire ++ hd.encode)).dropLast.dropLast := by
    rw [← hwire]
    decide +kernel
  have hnil : idleConn.sock.wire ++ hd.encode = hd.encode := rfl
  rw [hnil, hlines] at hempty
  simp only [List.dropLast_append_of_ne_nil, ne_eq, List.cons_ne_nil, not_false_eq_true,
    List.dropLast_cons_cons, List.dropLast_singleton] at hempty
  exact (hd.lines_ok [] (by simpa using hempty)).1 rfl

end Ctx

end Ioxd.Http
