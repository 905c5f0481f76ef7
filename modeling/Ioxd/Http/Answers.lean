import Ioxd.Lib.Replies
import Ioxd.Http.Faithful
import Ioxd.Http.HeadRead

/-!
# A connection's answers

The other half of a connection: what its requests are answered with. A reply
that lets the connection go on says where it ends, and what its handler wrote
is what it carries, whether the handler reads the request's body or leaves it
to the drain, and with an interim reply in front if there has to be one. So
the bytes that a client has received are the answers to its requests, in their
order, and can be read in no other way.
-/

namespace Ioxd.Http

open Flat
open Ioxd.Pipe
open Message (Head Declares Carries Framing Answer Reply)
open Reader (Single)

/-- A handler's calls that leave the framing of its reply to the engine: no
filter and no delegate, no status without a body, no write whose length is
negative as an `int`. It may read the request's body in any way. -/
def HandlerOp.Tidy : HandlerOp → Prop
  | .head (.replyFilter _) | .onHead _ => False
  | .head (.status status) => Ctx.bodyless (wireStatus status) = false
  | .write data => data.length < 2 ^ 31
  | _ => True

namespace Ctx

variable {ctx ctx' : Ctx} {base W : List Byte}

-- ---------------------------------------------------------------------------
-- What a write leaves of the head
-- ---------------------------------------------------------------------------

/-- No interim reply is sent, and a head that is still held is the one there was. -/
structure Quiet (ctx ctx' : Ctx) : Prop where
  interim : ctx'.continueSent = ctx.continueSent
  held : ctx'.res.headSent = false → ctx'.res = ctx.res

theorem Onward.quiet (h : Onward ctx ctx') (hs : ctx.res.headSent = true) : Quiet ctx ctx' :=
  ⟨h.interim, fun hx => by rw [h.sent, hs] at hx; cases hx⟩

theorem flushWith_quiet (h : Flowing base W ctx) (kind : FlushKind) (extra : List Byte) :
    Quiet ctx (ctx.flushWith kind extra).2 := by
  refine ⟨?_, fun hx => by rw [flushWith_headSent h] at hx; cases hx⟩
  by_cases hs : ctx.res.headSent = true
  · exact (flushWith_onward hs kind extra).interim
  · obtain ⟨hd, hstart, -⟩ := startHead_spec h.ready.head (h.ready.headLength_le (kind = .final))
    rw [flushWith_plain h.ready h.live, if_neg hs, hstart]
    exact (flushBody_onward _ kind (by simp) false _ _).interim

theorem writeLoop_quiet (turns : Nat) (src : List Byte) (h : Flowing base W ctx) :
    Quiet ctx (ctx.writeLoop turns src).2 := by
  by_cases hs : ctx.res.headSent = true
  · exact (writeLoop_onward turns hs src).quiet hs
  induction turns generalizing ctx W src with
  | zero => exact ⟨rfl, fun _ => rfl⟩
  | succ turns ih =>
    unfold writeLoop
    split
    · exact ⟨rfl, fun _ => rfl⟩
    split
    · have hq := flushWith_quiet h .full []
      have hsent := flushWith_headSent h .full []
      unfold flush
      generalize ctx.flushWith .full [] = r at hq hsent
      obtain ⟨ok, c⟩ := r
      cases ok with
      | false => exact hq
      | true =>
        have ho := writeLoop_onward turns hsent src
        exact ⟨ho.interim.trans hq.interim, fun hx => by rw [ho.sent, hsent] at hx; cases hx⟩
    · have hn : (src.take (min src.length ctx.out.room)).length = min src.length ctx.out.room := by
        rw [List.length_take]
        omega
      have hg := h.append (hn.le.trans (Nat.min_le_right _ _))
      rw [hn] at hg
      have hq := ih (src.drop (min src.length ctx.out.room)) hg hs
      exact ⟨hq.interim, hq.held⟩

theorem write_quiet (h : Flowing base W ctx) (data : List Byte) : Quiet ctx (ctx.write data).2 := by
  unfold write
  split
  · exact ⟨rfl, fun _ => rfl⟩
  split
  · exact flushWith_quiet h .full data
  · exact writeLoop_quiet _ data h

theorem reserveOp_quiet (h : Flowing base W ctx) (n : Nat) (data : List Byte) :
    Quiet ctx (ctx.reserveOp n data) := by
  have hq := flushWith_quiet h .full []
  unfold reserveOp reserve flush
  by_cases hor : ctx.res.failed = true ∨ n > ctx.out.cap
  · rw [if_pos hor]
    exact ⟨rfl, fun _ => rfl⟩
  rw [if_neg hor]
  by_cases hroom : n > ctx.out.room
  · rw [if_pos hroom]
    generalize ctx.flushWith .full [] = r at hq
    obtain ⟨ok, c⟩ := r
    cases ok with
    | false => exact hq
    | true => exact ⟨hq.interim, hq.held⟩
  · rw [if_neg hroom]
    exact ⟨rfl, fun _ => rfl⟩

-- ---------------------------------------------------------------------------
-- A handler's calls
-- ---------------------------------------------------------------------------

/-- A request under way: its reply is what was written so far, or the
connection will not go on. -/
inductive Answering (base W : List Byte) (ctx : Ctx) : Prop
  | unread : ctx.bodyErr ≠ 0 → Answering base W ctx
  | lost : ctx.res.failed = true → Answering base W ctx
  | going : (ctx.res.headSent = false → ctx.AdmitsBody) → Flowing (base ++ ctx.interim) W ctx →
      Answering base W ctx

theorem Answering.step {W' : List Byte} (h : Answering base W ctx) (hm : Mute ctx ctx')
    (hf : ctx.res.failed = true → ctx'.res.failed = true)
    (hgo : (ctx.res.headSent = false → ctx.AdmitsBody) → Flowing (base ++ ctx.interim) W ctx →
      Answering base W' ctx') : Answering base W' ctx' := by
  cases h with
  | unread h => exact .unread (hm.fields.2.2.2.2.2.1 ▸ h)
  | lost h => exact .lost (hf h)
  | going ha h => exact hgo ha h

theorem headOp_admits {op : HeadOp} (ht : (HandlerOp.head op).Tidy)
    (ha : ctx.res.headSent = false → ctx.AdmitsBody) (hs : (ctx.headOp op).res.headSent = false) :
    (ctx.headOp op).AdmitsBody := by
  unfold AdmitsBody at ha ⊢
  cases op with
  | status status => exact ht
  | header name value =>
    obtain ⟨_, _, _, _, e⟩ := header_rest ctx.res name value
    simp only [headOp, e] at hs ⊢
    exact ha hs
  | contentType type =>
    obtain ⟨_, _, e⟩ := contentType_rest ctx.res type
    simp only [headOp, e] at hs ⊢
    exact ha hs
  | contentLength n =>
    have he : (Http.contentLength ctx.res n).2.status = ctx.res.status ∧
        (Http.contentLength ctx.res n).2.headSent = ctx.res.headSent := by
      unfold Http.contentLength
      split <;> exact ⟨rfl, rfl⟩
    simp only [headOp, he.1, he.2] at hs ⊢
    exact ha hs
  | close => exact ha hs
  | replyFilter filter => exact ht.elim

theorem headOp_answering (h : Answering base W ctx) {op : HeadOp}
    (ht : (HandlerOp.head op).Tidy) : Answering base W (ctx.headOp op) := by
  refine h.step (headOp_mute ctx op) (headOp_failed ctx op).1.trans fun ha hg => ?_
  have hop : (HandlerOp.head op).Plain := by
    cases op with
    | replyFilter filter => exact ht.elim
    | _ => trivial
  have hg := headOp_flowing hg hop
  rw [← interim_congr (headOp_interim ctx op)] at hg
  exact .going (headOp_admits ht ha) hg

/-- Where the calls that write leave a reply, by what they do to the head. -/
theorem Quiet.answering (hq : Quiet ctx ctx') (ha : ctx.res.headSent = false → ctx.AdmitsBody)
    (h : Flows (base ++ ctx.interim) W ctx') : Answering base W ctx' := by
  cases h with
  | full h => exact .lost h.failed
  | going h =>
    rw [← interim_congr hq.interim] at h
    refine .going (fun hs => ?_) h
    unfold AdmitsBody
    rw [hq.held hs]
    exact ha (hq.held hs ▸ hs)

theorem fits_of_short {data : List Byte} (h : data.length < 2 ^ 31) : ctx.Fits (.write data) := by
  intro _ _ _ hw
  have hle : (ctx.extraLeft false data).length ≤ data.length := by
    unfold extraLeft
    split
    · exact List.length_take_le' ..
    · exact le_rfl
  have := hw.2.2
  rw [Nat.mod_eq_of_lt (by omega)] at this
  omega

theorem write_answering (h : Answering base W ctx) {data : List Byte} (hd : data.length < 2 ^ 31) :
    Answering base (W ++ data) (ctx.write data).2 := by
  refine h.step (write_mute ctx data) (fun hf => ?_) fun ha hg => ?_
  · rw [write_stuck hf]
    exact hf
  · exact (write_quiet hg data).answering ha
      (write_flows hg (fun hs _ => ha hs) (fits_of_short hd))

theorem flush_answering (h : Answering base W ctx) : Answering base W (ctx.flush .asked).2 := by
  refine h.step (flushWith_mute ctx .asked []) (fun hf => ?_) fun ha hg => ?_
  · rw [show ctx.flush .asked = (false, ctx) from flushWith_stuck hf .asked []]
    exact hf
  · refine (flushWith_quiet hg .asked []).answering ha ?_
    rcases flush_flows hg ha (by decide : FlushKind.asked ≠ .final) with
      ⟨c, he, hc, -⟩ | ⟨c, he, hc⟩
    · rw [show ctx.flushWith .asked [] = (true, c) from he]
      exact .going hc
    · rw [show ctx.flushWith .asked [] = (false, c) from he]
      exact .full hc

theorem reserveOp_answering (h : Answering base W ctx) {n : Nat} {data : List Byte}
    (hd : data.length ≤ n) :
    Answering base (W ++ if n ≤ pipeCap then data else []) (ctx.reserveOp n data) := by
  refine h.step (reserveOp_mute ctx n data) (fun hf => ?_) fun ha hg => ?_
  · rw [reserveOp, reserve, if_pos (Or.inl hf)]
    exact hf
  · refine (reserveOp_quiet hg n data).answering ha ?_
    unfold reserveOp
    by_cases hn : n ≤ pipeCap
    · have hr := reserve_going (hg.going ha) (hg.ready.cap.symm ▸ hn)
      rw [if_pos hn]
      generalize ctx.reserve n = r at hr
      cases hr with
      | room hg hroom => exact .going (hg.append (hd.trans hroom)).flowing
      | full hf => exact .full (hf.append data)
    · have hor : ctx.res.failed = true ∨ n > ctx.out.cap :=
        .inr (hg.ready.cap.symm ▸ Nat.lt_of_not_le hn)
      rw [if_neg hn, List.append_nil, reserve, if_pos hor]
      exact .going hg

-- ---------------------------------------------------------------------------
-- Reading the request's body
-- ---------------------------------------------------------------------------

theorem heard_answering (h : Answering base W ctx) (hh : Heard ctx ctx') :
    Answering base W ctx' := by
  by_cases he : ctx'.bodyErr = 0
  · obtain ⟨he', hstatus⟩ := hh.same.err he
    have heq := hh.same.eq
    cases h with
    | unread h => exact absurd he' h
    | lost h =>
      rw [heq]
      exact .lost h
    | going ha h =>
      obtain ⟨t, data, hwire, hst, hW⟩ := h.stage
      rw [heq]
      refine .going (fun hs => ?_) ⟨⟨h.ready.filter, h.ready.onHead, h.ready.fit, h.ready.cap,
        h.ready.head.congr rfl rfl rfl, h.ready.length⟩, h.bodied, h.live, h.able, h.sound, t, data,
        hwire, hst.congr rfl rfl rfl rfl (fun _ => ⟨rfl, rfl⟩) fun hc => hc, hW⟩
      unfold AdmitsBody
      dsimp only
      rw [hstatus]
      exact ha hs
  · exact .unread he

/-- The interim reply goes out ahead of everything that is held. -/
theorem bodyBegin_answering (h : Answering base W ctx) : Answering base W ctx.bodyBegin.2 := by
  unfold bodyBegin
  split
  · exact h
  rename_i hn
  simp only [not_or, Bool.not_eq_true] at hn
  obtain ⟨-, hcont, hsent⟩ := hn
  have h100 : (str "HTTP/1.1 100 Continue\r\n\r\n").length < 2 ^ 31 := by decide
  have hgone : (-1 : Int) ≠ 0 := by decide
  dsimp only
  cases h with
  | unread h =>
    split
    · exact .unread h
    · exact .unread hgone
  | lost h => split <;> exact .lost h
  | going ha h =>
    have ho := @Pipewriter.through_outcome ctx.out ctx.sock _ h.able h100
    generalize ctx.out.through ctx.sock (str "HTTP/1.1 100 Continue\r\n\r\n") = r at ho
    cases ho with
    | sent hd =>
      obtain ⟨t, data, hwire, hst, hW⟩ := h.stage
      obtain rfl : t = [] := by
        cases hst with
        | held => rfl
        | length hs => rw [hsent] at hs; cases hs
        | chunked hs => rw [hsent] at hs; cases hs
        | untilClose hs => rw [hsent] at hs; cases hs
      simp only [interim, hcont, Bool.false_eq_true, if_false, List.append_nil] at hwire
      refine .going ha ⟨⟨h.ready.filter, h.ready.onHead, h.ready.fit, h.ready.cap, h.ready.head,
        h.ready.length⟩, h.bodied, h.live, h.able, hd.sound h.sound, [], data, ?_,
        hst.congr rfl rfl rfl rfl (fun _ => ⟨rfl, rfl⟩) fun hc => hc, hW⟩
      rw [List.append_nil]
      exact hd.wire.trans (congrArg (· ++ _) hwire)
    | cut hc => exact .unread hgone

theorem reads_answering (h : Answering base W ctx) (hr : Reads ctx ctx') :
    Answering base W ctx' := by
  rcases hr with hr | hr
  · exact heard_answering h hr
  · exact heard_answering (bodyBegin_answering h) hr

-- ---------------------------------------------------------------------------
-- All of them
-- ---------------------------------------------------------------------------

theorem step_answering (h : Answering base W ctx) {op : HandlerOp} (ht : op.Tidy) :
    Answering base (W ++ op.wrote) (ctx.step op) := by
  cases op with
  | write data => exact write_answering h ht
  | reserve n data hd => exact reserveOp_answering h hd
  | onHead fn => exact ht.elim
  | _ => ?_
  all_goals
    show Answering base (W ++ []) _
    rw [List.append_nil]
  · exact headOp_answering h ht
  · exact flush_answering h
  · exact reads_answering h (bodyAll_reads ctx)
  · exact reads_answering h (bodyReadUntil_reads ctx _)
  · exact reads_answering h (bodyReadNextChunk_reads ctx _)
  · exact heard_answering h (heard_feed ctx ctx.feed.tick)

theorem run_answering {ops : List HandlerOp} (h : Answering base W ctx) (ht : ∀ op ∈ ops, op.Tidy) :
    Answering base (W ++ ops.flatMap HandlerOp.wrote) (ctx.run ops) := by
  induction ops generalizing ctx W with
  | nil =>
    rw [List.flatMap_nil, List.append_nil]
    exact h
  | cons op ops ih =>
    rw [List.flatMap_cons, ← List.append_assoc]
    exact ih (step_answering h (ht op (List.mem_cons_self ..)))
      fun o ho => ht o (List.mem_cons_of_mem _ ho)

-- ---------------------------------------------------------------------------
-- The end of a request
-- ---------------------------------------------------------------------------

structure Usable (ctx : Ctx) : Prop where
  out : Writable ctx.out
  sock : ctx.sock.Sound

theorem sendFrame_usable (hfit : Fit ctx.out) (hcap : ctx.out.cap = pipeCap)
    (hable : ctx.out.failed = false) (hs : ctx.sock.Sound) {final : Bool} {head extra : List Byte}
    (hlen : head.length < 2 ^ 31) (hr : ctx.sendFrame final false head extra = (true, ctx')) :
    Usable ctx' := by
  have ho : FrameOutcome ctx final false head extra (ctx.sendFrame final false head extra) :=
    @sendFrame_outcome ctx false hfit hable head hlen final extra
  rw [hr] at ho
  cases ho with
  | sent _ hf hkin _ hd =>
    exact ⟨⟨hf.lead, hkin.cap.trans hcap, hf.slack, hkin.failed.trans hable⟩, hd.sound hs⟩

theorem flush_usable (h : Flowing base W ctx) (ha : ctx.res.headSent = false → ctx.AdmitsBody)
    (hr : ctx.flush .final = (true, ctx')) : Usable ctx' := by
  unfold flush at hr
  rw [flushWith_plain h.ready h.live] at hr
  by_cases hs : ctx.res.headSent = true
  · obtain ⟨t, data, -, hst, -⟩ := h.stage
    rw [if_pos hs, flushBody_plain, if_neg (by simp [hst.noBody hs])] at hr
    exact sendFrame_usable h.ready.fit h.ready.cap h.able h.sound (by simp) hr
  · obtain ⟨hd, hstart, -, -, hlen⟩ := startHead_spec h.ready.head (h.ready.headLength_le true)
    rw [Bool.not_eq_true] at hs
    have hno : (ctx.headed true false).noBody = false :=
      Bool.or_eq_false_iff.mpr ⟨h.bodied hs, ha hs⟩
    rw [if_neg (by simp [hs])] at hr
    simp only [decide_true, hstart] at hr
    rw [flushBody_plain, if_neg (by simp [hno])] at hr
    have hfit : Fit (ctx.headed true false).out := h.ready.fit
    exact sendFrame_usable hfit h.ready.cap h.able h.sound hlen hr

theorem finish_usable (h : Flowing base W ctx) (ha : ctx.res.headSent = false → ctx.AdmitsBody)
    (hok : ctx.finish.1 = true) : Usable ctx.finish.2 := by
  have hflush (hf : ctx.res.headSent = false ∨ ctx.out.len ≠ 0) : Usable ctx.finish.2 := by
    rw [finish_flushes h.live hf] at hok ⊢
    rcases hr : ctx.flush .final with ⟨_ | _, c⟩
    · rw [hr] at hok
      cases hok
    · have hu := flush_usable h ha hr
      exact ⟨hu.out, hu.sock⟩
  by_cases hs : ctx.res.headSent = true
  · by_cases h0 : ctx.out.len = 0
    · have hfit := h.ready.fit
      by_cases hc : ctx.res.chunked = true
      · obtain ⟨pw, hput, hpw, hkin, -⟩ :=
          putTerminator_spec hfit.ok hfit.slack (hfit.tail.le.trans (by decide))
        have ho : Pipewriter.FlushOutcome pw ctx.sock [] (pw.flush ctx.sock) :=
          Pipewriter.flushWith_outcome hpw (hkin.failed.trans h.able) ctx.sock []
        obtain ⟨_, hput', sock, pw', hfl, -⟩ := terminator_concluded h hs h0 hc
        obtain rfl := (Prod.mk.inj (hput.symm.trans hput')).2
        rw [finish_terminator h.ready h.live hs h0 hc hput hfl]
        rw [hfl] at ho
        cases ho with
        | sent _ hd =>
          exact ⟨⟨hkin.lead.trans hfit.lead, hkin.cap.trans h.ready.cap,
            hkin.slack.trans hfit.slack, hkin.failed.trans h.able⟩, hd.sound h.sound⟩
      · rw [Bool.not_eq_true] at hc
        rw [finish_idle h.ready h.live hs h0 hc]
        exact ⟨⟨hfit.lead, h.ready.cap, hfit.slack, h.able⟩, h.sound⟩
    · exact hflush (.inr h0)
  · exact hflush (.inl (Bool.not_eq_true _ ▸ hs))

def interimHead : Head := ⟨str "HTTP/1.1 100 Continue", [], by decide⟩

/-- The interim replies of a request: one if `body_begin` has sent it. -/
def interims (ctx : Ctx) : List Head := if ctx.continueSent then [interimHead] else []

theorem interims_encode (ctx : Ctx) : ctx.interims.flatMap Head.encode = ctx.interim := by
  have h100 : [interimHead].flatMap Head.encode = str "HTTP/1.1 100 Continue\r\n\r\n" := by
    decide
  unfold interims interim
  split
  · exact h100
  · rfl

theorem interims_bare {ctx : Ctx} {h : Head} (hh : h ∈ ctx.interims) : h.fields = [] := by
  unfold interims at hh
  split at hh
  · rw [List.mem_singleton.mp hh]
    rfl
  · cases hh

theorem finish_interim (h : Flowing base W ctx) :
    ctx.finish.2.continueSent = ctx.continueSent := by
  by_cases hs : ctx.res.headSent = true
  · exact (finish_onward hs).interim
  have hq : (ctx.flush .final).2.continueSent = ctx.continueSent :=
    (flushWith_quiet h .final []).interim
  unfold finish
  split
  · rfl
  rw [if_pos (.inl hs)]
  generalize ctx.flush .final = r at hq
  obtain ⟨ok, c⟩ := r
  cases ok with
  | false => exact hq
  | true => exact hq

theorem Delivered.reply {before : Ctx} (h : Delivered base W before (true, ctx)) :
    ∃ r : Reply, r.data = W ∧ ctx.sock.wire = base ++ r.encode := by
  cases h with
  | whole _ hd hw =>
    exact ⟨⟨_, _, W, W, hd, .length, by simp⟩, rfl, by rw [hw, List.append_assoc]; rfl⟩
  | length _ _ hd hw hg =>
    have hl := hg rfl
    rw [← hl] at hd hw
    rw [List.take_length] at hw
    exact ⟨⟨_, _, W, W, hd, .length, by simp⟩, rfl, by rw [hw, List.append_assoc]; rfl⟩
  | chunked _ _ hd hb hw =>
    exact ⟨⟨_, _, _, W, hd, hb, by simp⟩, rfl, by rw [hw, List.append_assoc]; rfl⟩

theorem afterDispatch_answers (h : Answering base W ctx) (hr : ctx.afterDispatch = (true, ctx')) :
    ∃ a : Answer, a.reply.data = W ∧ a.interim = ctx'.interims ∧
      ctx'.sock.wire = base ++ a.encode ∧ Usable ctx' := by
  have herr : ctx.bodyErr = 0 := by
    by_contra he
    rw [afterDispatch, if_pos he] at hr
    cases hr
  have herr' : ctx.settleBody.bodyErr = 0 := by
    by_contra he
    simp only [afterDispatch, if_neg (not_not.mpr herr), if_pos he] at hr
    cases hr
  have hlive : ctx.res.failed = false := by
    by_contra hf
    have hf' : ctx.settleBody.res.failed = true := by
      rw [(settleBody_deaf ctx).eq]
      exact Bool.not_eq_false _ ▸ hf
    rw [afterDispatch, if_neg (not_not.mpr herr)] at hr
    simp only [if_neg (not_not.mpr herr'), finish, if_pos hf'] at hr
    cases hr
  cases h with
  | unread h => exact absurd herr h
  | lost h => rw [hlive] at h; cases h
  | going ha h =>
    have hdel := afterDispatch_delivered (.going h) ha herr'
    rw [hr] at hdel
    obtain ⟨r, hW, hwire⟩ := hdel.reply
    have hset := settleBody_flows (.going h) herr'
    have hstatus := ((settleBody_deaf ctx).err herr').2
    have hsent : ctx.settleBody.res.headSent = ctx.res.headSent := by
      rw [(settleBody_deaf ctx).eq]
    simp only [afterDispatch, if_neg (not_not.mpr herr), if_neg (not_not.mpr herr'),
      Prod.mk.injEq, Bool.and_eq_true] at hr
    obtain ⟨⟨⟨hok, -⟩, -⟩, rfl⟩ := hr
    have husable : Usable ctx.settleBody.finish.2 := by
      cases hset with
      | full hf =>
        rw [finish, if_pos hf.failed] at hok
        cases hok
      | going hg =>
        refine finish_usable hg (fun hs => ?_) hok
        unfold AdmitsBody
        rw [hstatus]
        exact ha (hsent ▸ hs)
    have hinterim : ctx.settleBody.finish.2.interims = ctx.interims := by
      have hc : ctx.settleBody.continueSent = ctx.continueSent := by
        rw [(settleBody_deaf ctx).eq]
      have hf : ctx.settleBody.finish.2.continueSent = ctx.settleBody.continueSent := by
        cases hset with
        | full hf => rw [finish, if_pos hf.failed]
        | going hg => exact finish_interim hg
      rw [interims, interims, hf, hc]
    refine ⟨⟨ctx.interims, r, fun i hi => interims_bare hi⟩, hW, hinterim.symm, ?_, husable⟩
    rw [hwire, Answer.encode, interims_encode, List.append_assoc]

end Ctx

-- ---------------------------------------------------------------------------
-- The connection
-- ---------------------------------------------------------------------------

namespace Ctx

variable {ctx ctx' : Ctx}

theorem reads_method (h : Reads ctx ctx') : ctx'.req.method = ctx.req.method := by
  rcases h with h | h
  · rw [h.same.eq]
  · have hb : ctx.bodyBegin.2.req.method = ctx.req.method := by rw [(bodyBegin_chunked ctx).1]
    rw [h.same.eq]
    exact hb

theorem step_method (ctx : Ctx) (op : HandlerOp) : (ctx.step op).req.method = ctx.req.method := by
  have hm {c : Ctx} (h : Mute ctx c) : c.req.method = ctx.req.method :=
    congrArg Request.method h.fields.2.1
  cases op with
  | head op => exact hm (headOp_mute ctx op)
  | write data => exact hm (write_mute ctx data)
  | reserve n data fits => exact hm (reserveOp_mute ctx n data)
  | flush => exact hm (flushWith_mute ctx .asked [])
  | onHead fn => simp only [step, setOnHead]; split <;> rfl
  | bodyAll => exact reads_method (bodyAll_reads ctx)
  | bodyReadUntil n => exact reads_method (bodyReadUntil_reads ctx n)
  | bodyReadNextChunk cap => exact reads_method (bodyReadNextChunk_reads ctx cap)
  | tick => rfl

theorem run_method (ctx : Ctx) (ops : List HandlerOp) :
    (ctx.run ops).req.method = ctx.req.method := by
  induction ops generalizing ctx with
  | nil => rfl
  | cons op ops ih => exact (ih (ctx.step op)).trans (step_method ctx op)

theorem afterDispatch_method (h : ctx.afterDispatch = (true, ctx')) :
    ctx'.req.method = ctx.req.method := by
  have hm : ctx.settleBody.finish.2.req = ctx.settleBody.req :=
    (finish_mute ctx.settleBody).fields.2.1
  have hd : ctx.settleBody.req = ctx.req := by rw [(settleBody_deaf ctx).eq]
  unfold afterDispatch at h
  split at h
  · cases h
  dsimp only at h
  split at h
  · cases h
  · rw [← (Prod.mk.inj h).2]
    exact congrArg Request.method (hm.trans hd)

end Ctx

variable {sse : Bool} {scratch : Scratch}

/-- The request of a turn that was served is no HEAD. -/
def Turn.NotHead : Turn → Prop
  | .served _ ctx => isHead ctx.req.method = false
  | _ => True

instance (t : Turn) : Decidable t.NotHead :=
  match t with
  | .ended _ => .isTrue trivial
  | .refused _ => .isTrue trivial
  | .served _ ctx => inferInstanceAs (Decidable (isHead ctx.req.method = false))

def Turn.interims : Turn → List Head
  | .served _ ctx => ctx.interims
  | _ => []

/-- All that a handler writes. -/
def wroteAll (ops : List HandlerOp) : List Byte := ops.flatMap HandlerOp.wrote

theorem serveTurn_answers {ops : List HandlerOp} {conn : Conn} {ctx : Ctx} (h : AtStart conn.feed)
    (he : conn.feed.view.error = none) (hw : Ctx.Writable conn.out) (hs : conn.sock.Sound)
    (ht : ∀ op ∈ ops, op.Tidy)
    (hserved : serveTurn (phrParseRequest sse) scratch ops conn = .served true ctx)
    (hm : isHead ctx.req.method = false) : ∃ a : Answer, a.reply.data = wroteAll ops ∧
      a.interim = ctx.interims ∧ ctx.sock.wire = conn.sock.wire ++ a.encode ∧ ctx.Usable := by
  have ho := @readHead_exact sse conn h he
  unfold serveTurn at hserved
  generalize readHead (phrParseRequest sse) conn = r at ho hserved
  obtain ⟨found, conn'⟩ := r
  cases found with
  | none => cases hserved
  | some found =>
    cases ho with
    | @found feed head _ hhead hstream hfresh =>
      dsimp only at hserved
      generalize fillRequest (.parsed found) scratch.params paramCap = r at hserved
      obtain ⟨code, req, mem⟩ := r
      dsimp only at hserved
      split at hserved
      · cases hserved
      generalize hr : ((Ctx.init _ req scratch).run ops).afterDispatch = r at hserved
      obtain ⟨ok, c⟩ := r
      simp only [Turn.served.injEq] at hserved
      obtain ⟨rfl, rfl⟩ := hserved
      have hm' : isHead req.method = false := by
        have h1 := Ctx.afterDispatch_method hr
        rw [Ctx.run_method] at h1
        rw [show req.method = c.req.method from h1.symm]
        exact hm
      have h0 : Ctx.Answering conn.sock.wire []
          (Ctx.init { conn with feed := feed } req scratch) := by
        refine .going (fun _ => rfl) ?_
        have hi := (@Ctx.init_going { conn with feed := feed } req scratch hw hs hm').flowing
        exact (List.append_nil conn.sock.wire).symm ▸ hi
      obtain ⟨a, hW, hint, hwire, hu⟩ := Ctx.afterDispatch_answers (Ctx.run_answering h0 ht) hr
      exact ⟨a, hW, hint, hwire, hu.out, hu.sock⟩

/-- Behind every turn that goes on, the wire holds the answers so far. -/
theorem serve_answered (handlers : List (List HandlerOp)) {conn : Conn} (h : AtStart conn.feed)
    (he : conn.feed.view.error = none) (hpin : Single false conn.feed.pr)
    (hw : Ctx.Writable conn.out) (hs : conn.sock.Sound)
    (ht : ∀ ops ∈ handlers, ∀ op ∈ ops, op.Tidy)
    (hm : ∀ t ∈ serve (phrParseRequest sse) scratch handlers conn, t.2.NotHead)
    {i : Nat} {conn' : Conn} {ctx : Ctx}
    (hi : (serve (phrParseRequest sse) scratch handlers conn)[i]? =
      some (conn', .served true ctx)) :
    ∃ answers : List Answer,
      answers.map (·.reply.data) = (handlers.take (i + 1)).map wroteAll ∧
        answers.map (·.interim) = ((serve (phrParseRequest sse) scratch handlers conn).take
          (i + 1)).map (·.2.interims) ∧
        ctx.sock.wire = conn.sock.wire ++ answers.flatMap Answer.encode := by
  induction handlers generalizing conn i with
  | nil => cases hi
  | cons ops rest ih =>
    have htops := ht ops (List.mem_cons_self ..)
    unfold serve at hm hi
    cases hturn : serveTurn (phrParseRequest sse) scratch ops conn with
    | ended c =>
      rw [hturn] at hi
      cases i <;> cases hi
    | refused c =>
      rw [hturn] at hi
      cases i <;> cases hi
    | served ok c =>
      cases ok with
      | false =>
        rw [hturn] at hi
        cases i <;> cases hi
      | true =>
        rw [hturn] at hm hi
        obtain ⟨a, hW, hint, hwire, hu⟩ := serveTurn_answers h he hw hs htops hturn
          (hm _ (List.mem_cons_self ..))
        obtain ⟨f, hf⟩ := serveTurn_release hturn
        have hfresh := (serveTurn_bounded phrParseRequest_ok h.fresh hturn).fresh
        cases i with
        | zero =>
          obtain ⟨-, rfl⟩ : conn = conn' ∧ c = ctx := by simpa using hi
          exact ⟨[a], by simp [hW], by simp [serve, hturn, hint, Turn.interims],
            by simpa using hwire⟩
        | succ i =>
          have hstart : AtStart (Conn.mk c.feed c.out c.sock).feed := by
            show AtStart c.feed
            rw [hf] at hfresh ⊢
            exact release_atStart hfresh
          have herr : (Conn.mk c.feed c.out c.sock).feed.view.error = none :=
            (serveTurn_error h.fresh.ok hpin hturn).trans he
          have hpin' : Single false (Conn.mk c.feed c.out c.sock).feed.pr := by
            show Single false c.feed.pr
            rw [hf]
            exact Reader.release_single f.toReader
          obtain ⟨as, hdata, hints, hrest⟩ := ih hstart herr hpin' hu.out hu.sock
            (fun o ho => ht o (List.mem_cons_of_mem _ ho))
            (fun t hmem => hm t (List.mem_cons_of_mem _ hmem)) hi
          refine ⟨a :: as, by rw [List.map_cons, hdata, hW]; rfl, ?_, ?_⟩
          · rw [List.map_cons, hints, hint, serve, hturn]
            rfl
          have hw' : (Conn.mk c.feed c.out c.sock).sock.wire = conn.sock.wire ++ a.encode := hwire
          rw [hrest, hw', List.flatMap_cons, List.append_assoc]

/-- However the requests come in, a client has received the answers to the ones
that were served, each behind the interim reply that its body took and with what
its handler wrote, and reads nothing else in them. -/
theorem serve_answers (scratch : Scratch) (handlers : List (List HandlerOp)) (buf : Mem Byte)
    (cap : Nat) (slab : Nat → Mem Byte) (script : List Event) {out : Pipewriter} {sock : Socket}
    (hw : Ctx.Writable out) (hs : sock.Sound) (ht : ∀ ops ∈ handlers, ∀ op ∈ ops, op.Tidy)
    (hm : ∀ t ∈ serve (phrParseRequest sse) scratch handlers
      ⟨.init buf cap slab script, out, sock⟩, t.2.NotHead) {i : Nat} {conn : Conn} {ctx : Ctx}
    (hi : (serve (phrParseRequest sse) scratch handlers
      ⟨.init buf cap slab script, out, sock⟩)[i]? = some (conn, .served true ctx)) :
    (∃ answers : List Answer, ctx.sock.wire = sock.wire ++ answers.flatMap Answer.encode ∧
        answers.map (·.interim) = ((serve (phrParseRequest sse) scratch handlers
          ⟨.init buf cap slab script, out, sock⟩).take (i + 1)).map (·.2.interims)) ∧
      ∀ answers : List Answer, ctx.sock.wire = sock.wire ++ answers.flatMap Answer.encode →
        answers.map (·.reply.data) = (handlers.take (i + 1)).map wroteAll := by
  obtain ⟨as, hdata, hints, hwire⟩ := serve_answered handlers
    (init_atStart buf cap slab script : AtStart (Conn.mk _ out sock).feed) rfl
    (init_single buf cap slab script) hw hs ht hm hi
  refine ⟨⟨as, hwire, hints⟩, fun read hread => ?_⟩
  rw [← hdata]
  exact Message.answers_inj (List.append_cancel_left (hread.symm.trans hwire))

/-- Two requests in one delivery. -/
def pipelined : Conn :=
  ⟨.init blank 256 (fun _ => blank) [.deliver 0 (str "POST / HTTP/1.1\nhost: a\n" ++
      str "expect: 100-continue\ncontent-length: 2\n\nhiGET / HTTP/1.1\nhost: a\n\n")],
    .init blank pipeLead pipeCap pipeSlack, ⟨[], []⟩⟩

/-- The first handler reads the body, behind an interim reply; the second's
reply is in chunks. -/
def pipelinedOps : List (List HandlerOp) :=
  [[.bodyAll, .write (str "one")], [.write (str "tw"), .flush, .write (str "o")]]

theorem serve_answers_pipelined : ∃ conn ctx,
    (serve (phrParseRequest false) ⟨blank, blank, blank⟩ pipelinedOps pipelined)[1]? =
        some (conn, .served true ctx) ∧
      ∀ answers : List Answer, ctx.sock.wire = answers.flatMap Answer.encode →
        answers.map (·.reply.data) = [str "one", str "two"] := by
  have hgo : ((serve (phrParseRequest false) ⟨blank, blank, blank⟩ pipelinedOps
      pipelined)[1]?.any fun t => t.2.goesOn) = true := by decide +kernel
  have hm : ∀ t ∈ serve (phrParseRequest false) ⟨blank, blank, blank⟩ pipelinedOps pipelined,
      t.2.NotHead := by decide +kernel
  obtain ⟨⟨conn, t⟩, hi, ht⟩ := (Option.any_eq_true ..).mp hgo
  cases t with
  | ended c => cases ht
  | refused c => cases ht
  | served ok ctx =>
    obtain rfl : ok = true := ht
    have hshort : (str "one").length < 2 ^ 31 ∧ (str "tw").length < 2 ^ 31 ∧
        (str "o").length < 2 ^ 31 := by decide
    have htidy : ∀ ops ∈ pipelinedOps, ∀ op ∈ ops, op.Tidy := by
      simpa [pipelinedOps, HandlerOp.Tidy] using hshort
    have h := serve_answers ⟨blank, blank, blank⟩ pipelinedOps _ _ _ _ ⟨rfl, rfl, rfl, rfl⟩
      (by simp [Socket.Sound]) htidy hm hi
    exact ⟨conn, ctx, hi, fun answers hwire => (h.2 answers hwire).trans (by decide)⟩

end Ioxd.Http
