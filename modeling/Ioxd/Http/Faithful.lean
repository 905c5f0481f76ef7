import Ioxd.Http.Announced
import Ioxd.Http.Bodyless

/-!
# A reply from its first call to its last

Whatever a handler writes and wherever the slab fills up, the wire holds one
head, and behind it what was written, framed as the head declares. One kind of
write breaks this: with nothing ahead of it in the message and a length that is
negative as an `int`, it is sent and taken for a failure.
-/

namespace Ioxd.Http

open Flat
open Ioxd.Pipe
open Message (Head Declares Carries Framing)

namespace Ctx

variable {ctx ctx' : Ctx} {base W : List Byte}

-- ---------------------------------------------------------------------------
-- What a run writes
-- ---------------------------------------------------------------------------

def given (ctx : Ctx) : HandlerOp → List Byte
  | .write data => data
  | .reserve n data _ => if (ctx.reserve n).1.isSome then data else []
  | _ => []

def written : Ctx → List HandlerOp → List Byte
  | _, [] => []
  | ctx, op :: ops => ctx.given op ++ written (ctx.step op) ops

def AdmitsBody (ctx : Ctx) : Prop := bodyless (wireStatus ctx.res.status) = false

/-- The call that sends the head finds a status that admits a body; so does the
end, when no call has sent it. -/
def HeadAdmitsBody : Ctx → List HandlerOp → Prop
  | ctx, [] => ctx.res.headSent = false → ctx.AdmitsBody
  | ctx, op :: ops =>
    (ctx.res.headSent = false → (ctx.step op).res.headSent = true → ctx.AdmitsBody) ∧
      HeadAdmitsBody (ctx.step op) ops

/-- The call is no write that the pipe takes for a failure. -/
def Fits (ctx : Ctx) : HandlerOp → Prop
  | .write data => ctx.res.failed = false → ctx.out.room < data.length → ctx.rawFramed = true →
    ¬ ctx.Wrapping data
  | _ => True

def AllFit : Ctx → List HandlerOp → Prop
  | _, [] => True
  | ctx, op :: ops => ctx.Fits op ∧ AllFit (ctx.step op) ops

structure Flowing (base W : List Byte) (ctx : Ctx) : Prop where
  ready : Ready ctx
  bodied : ctx.res.headSent = false → ctx.headOnly = false
  live : ctx.res.failed = false
  able : ctx.out.failed = false
  sound : ctx.sock.Sound
  stage : ∃ t data, ctx.sock.wire = base ++ t ∧ Stage ctx t data ∧ data ++ ctx.out.slab = W

theorem Going.flowing (h : Going base W ctx) : Flowing base W ctx :=
  ⟨h.ready, fun hs => (Bool.or_eq_false_iff.mp (h.status hs)).1, h.live, h.able, h.sound, h.stage⟩

theorem Flowing.going (h : Flowing base W ctx) (ha : ctx.res.headSent = false → ctx.AdmitsBody) :
    Going base W ctx :=
  ⟨h.ready, fun hs => Bool.or_eq_false_iff.mpr ⟨h.bodied hs, ha hs⟩, h.live, h.able, h.sound,
    h.stage⟩

inductive Flows (base W : List Byte) (ctx : Ctx) : Prop
  | going : Flowing base W ctx → Flows base W ctx
  | full : Full base W ctx → Flows base W ctx

-- ---------------------------------------------------------------------------
-- The calls
-- ---------------------------------------------------------------------------

theorem Flowing.append (h : Flowing base W ctx) {more : List Byte}
    (hm : more.length ≤ ctx.out.room) : Flowing base (W ++ more)
      { ctx with out := (ctx.out.copyTo ctx.out.at' more).advance more.length } := by
  obtain ⟨t, data, hwire, hst, hW⟩ := h.stage
  have hslab := (Pipewriter.append_spec h.ready.fit.ok h.ready.fit.tail hm).2.1
  refine ⟨h.ready.append hm, h.bodied, h.live, h.able, h.sound, t, data, hwire,
    hst.congr rfl rfl rfl rfl (fun _ => ⟨rfl, rfl⟩) fun hx => hx, ?_⟩
  rw [hslab, ← List.append_assoc, hW]

theorem flushWith_headSent (h : Flowing base W ctx) (kind : FlushKind) (extra : List Byte) :
    (ctx.flushWith kind extra).2.res.headSent = true := by
  by_cases hs : ctx.res.headSent = true
  · exact (flushWith_onward hs kind extra).sent.trans hs
  · obtain ⟨hd, hstart, -⟩ := startHead_spec h.ready.head (h.ready.headLength_le (kind = .final))
    rw [flushWith_plain h.ready h.live, if_neg hs, hstart]
    exact (flushBody_onward _ kind (by simp) false _ _).sent

/-- Behind a flush that is not the last: the slab is empty, or the reply full. -/
theorem flush_flows (h : Flowing base W ctx) (ha : ctx.res.headSent = false → ctx.AdmitsBody)
    {kind : FlushKind} (hk : kind ≠ .final) :
    (∃ c, ctx.flush kind = (true, c) ∧ Flowing base W c ∧ c.out.len = 0 ∧
      c.res.headSent = true) ∨
    ∃ c, ctx.flush kind = (false, c) ∧ Full base W c := by
  have hp : Pushed base W ctx [] (ctx.flushWith kind []) :=
    flushWith_pushed (h.going ha) hk fun _ => rfl
  unfold flush
  generalize ctx.flushWith kind [] = r at hp
  cases hp with
  | sent hg h0 hs =>
    rw [List.append_nil] at hg
    exact .inl ⟨_, rfl, hg.flowing, h0, hs⟩
  | full hf =>
    rw [List.append_nil] at hf
    exact .inr ⟨_, rfl, hf⟩
  | wrapped hw => exact absurd hw (not_wrapping_nil ctx)

theorem Full.append (h : Full base W ctx) (more : List Byte) : Full base (W ++ more) ctx := by
  obtain ⟨hd, hdec, hlt, hwire⟩ := h.wire
  refine ⟨h.failed, h.sent, h.declared, hd, hdec, ?_, ?_⟩
  · rw [List.length_append]
    omega
  · rw [hwire, List.take_append_of_le_length hlt.le]

theorem Flows.room (h : Flowing base W ctx) (h0 : ctx.out.len = 0) : 0 < ctx.out.room := by
  unfold Pipewriter.room
  rw [h.ready.cap, h0]
  decide

theorem writeLoop_flows {turns : Nat} {src : List Byte} (h : Flowing base W ctx)
    (ha : ctx.res.headSent = false → (ctx.writeLoop turns src).2.res.headSent = true →
      ctx.AdmitsBody)
    (ht : 2 * src.length + (if ctx.out.room = 0 then 1 else 0) ≤ turns) :
    Flows base (W ++ src) (ctx.writeLoop turns src).2 := by
  induction turns generalizing ctx W src with
  | zero =>
    obtain rfl : src = [] := List.length_eq_zero_iff.mp (by omega)
    rw [List.append_nil]
    exact .going h
  | succ turns ih =>
    unfold writeLoop at ha ⊢
    split at ha
    · rename_i he
      rw [if_pos he, he, List.append_nil]
      exact .going h
    rename_i hne
    rw [if_neg hne]
    split at ha
    · rename_i hroom
      rw [if_pos hroom] at ht ⊢
      have hsent : (ctx.flush .full).2.res.headSent = true := flushWith_headSent h .full []
      rcases hr : ctx.flush .full with ⟨_ | _, c⟩ <;> rw [hr] at ha hsent <;> dsimp only at ha ⊢
      · have ha' : ctx.res.headSent = false → ctx.AdmitsBody := fun hs => ha hs hsent
        rcases flush_flows h ha' (by decide : FlushKind.full ≠ .final) with
          ⟨_, he, -⟩ | ⟨_, he, hf⟩
        · simp [hr] at he
        · rw [hr] at he
          obtain ⟨-, rfl⟩ := Prod.mk.inj he
          exact .full (hf.append src)
      · have hon := writeLoop_onward turns hsent src
        have ha' : ctx.res.headSent = false → ctx.AdmitsBody := fun hs =>
          ha hs (hon.sent.trans hsent)
        rcases flush_flows h ha' (by decide : FlushKind.full ≠ .final) with
          ⟨_, he, hg, h0, hs⟩ | ⟨_, he, -⟩
        · rw [hr] at he
          obtain ⟨-, rfl⟩ := Prod.mk.inj he
          refine ih hg (fun hx => by simp [hs] at hx) ?_
          rw [if_neg (Flows.room hg h0).ne']
          omega
        · simp [hr] at he
    · rename_i hroom
      rw [if_neg hroom] at ht ⊢
      have hpos : 0 < src.length := List.length_pos_iff.mpr hne
      have hn : (src.take (min src.length ctx.out.room)).length = min src.length ctx.out.room := by
        rw [List.length_take]
        omega
      have hg := h.append (show (src.take (min src.length ctx.out.room)).length ≤ ctx.out.room by
        omega)
      rw [hn] at hg
      have hd : (src.drop (min src.length ctx.out.room)).length =
          src.length - min src.length ctx.out.room := List.length_drop
      have hi := ih hg ha (by
        split
        all_goals omega)
      rw [List.append_assoc, List.take_append_drop] at hi
      exact hi

theorem write_flows (h : Flowing base W ctx) {data : List Byte}
    (ha : ctx.res.headSent = false → (ctx.write data).2.res.headSent = true → ctx.AdmitsBody)
    (hf : ctx.Fits (.write data)) : Flows base (W ++ data) (ctx.write data).2 := by
  unfold write at ha ⊢
  rw [if_neg (by simp [h.live])] at ha ⊢
  split at ha
  · rename_i hraw
    rw [if_pos hraw]
    have hsent := flushWith_headSent h .full data
    have hp : Pushed base W ctx data (ctx.flushWith .full data) :=
      flushWith_pushed (h.going fun hs => ha hs hsent) (by decide) (by simp [hraw.2])
    generalize ctx.flushWith .full data = r at hp
    cases hp with
    | sent hg => exact .going hg.flowing
    | full hx => exact .full hx
    | wrapped hw => exact absurd hw (hf h.live hraw.1 hraw.2)
  · rename_i hraw
    rw [if_neg hraw]
    refine writeLoop_flows h ha ?_
    split <;> omega

theorem reserveOp_flows (h : Flowing base W ctx) {n : Nat} {data : List Byte}
    (hd : data.length ≤ n)
    (ha : ctx.res.headSent = false → (ctx.reserveOp n data).res.headSent = true →
      ctx.AdmitsBody) :
    Flows base (W ++ ctx.given (.reserve n data hd)) (ctx.reserveOp n data) := by
  unfold reserveOp given at *
  unfold reserve at *
  by_cases hn : n > ctx.out.cap
  · have hor : ctx.res.failed = true ∨ n > ctx.out.cap := .inr hn
    simp only [if_pos hor]
    simpa using Flows.going h
  have hor : ¬(ctx.res.failed = true ∨ n > ctx.out.cap) := by simpa [h.live] using hn
  simp only [if_neg hor] at ha ⊢
  by_cases hroom : n > ctx.out.room
  · simp only [if_pos hroom] at ha ⊢
    have hsent : (ctx.flush .full).2.res.headSent = true := flushWith_headSent h .full []
    rcases hr : ctx.flush .full with ⟨_ | _, c⟩ <;> simp only [hr] at ha hsent ⊢
    all_goals have ha' : ctx.res.headSent = false → ctx.AdmitsBody := fun hs => ha hs hsent
    all_goals have hf := flush_flows h ha' (by decide : FlushKind.full ≠ .final)
    · rcases hf with ⟨_, he, -⟩ | ⟨_, he, hf⟩
      · simp [hr] at he
      · rw [hr] at he
        obtain ⟨-, rfl⟩ := Prod.mk.inj he
        exact .full (hf.append _)
    · rcases hf with ⟨_, he, hg, h0, -⟩ | ⟨_, he, -⟩
      · rw [hr] at he
        obtain ⟨-, rfl⟩ := Prod.mk.inj he
        have hcap := hg.ready.cap.trans h.ready.cap.symm
        have hle : data.length ≤ Pipewriter.room (c.out) := by
          unfold Pipewriter.room
          omega
        exact .going (hg.append hle)
      · simp [hr] at he
  · simp only [if_neg hroom]
    exact .going (h.append (hd.trans (Nat.le_of_not_lt hroom)))

theorem headOp_flowing (h : Flowing base W ctx) {op : HeadOp} (hop : (HandlerOp.head op).Plain) :
    Flowing base W (ctx.headOp op) := by
  obtain ⟨t, data, hwire, hst, hW⟩ := h.stage
  have hready := headOp_ready h.ready hop
  obtain ⟨res, he, hf, hs, hc, hb⟩ := headOp_rest ctx hop
  have hlen (hx : ctx.res.headSent = true) : res.hasLength = ctx.res.hasLength ∧
      res.contentLength = ctx.res.contentLength ∧
      (ctx.res.close = true → res.close = true) := by
    have hr : res = (ctx.headOp op).res := by rw [he]
    by_cases hop' : op = .close
    · subst hop'
      exact hr ▸ ⟨rfl, rfl, fun _ => rfl⟩
    · rcases headOp_sent hx hop' with e | ⟨_, e⟩ <;> rw [hr, e] <;>
        exact ⟨rfl, rfl, fun h => h⟩
  rw [he] at hready ⊢
  refine ⟨hready, fun hx => h.bodied (hs.symm.trans hx), hf.trans h.live, h.able, h.sound, t, data,
    hwire, ?_, hW⟩
  cases hst with
  | held hs' hc' hb' => exact .held (hs.trans hs') (hc.trans hc') (hb.trans hb')
  | length hs' hno hd hl hc' hb' hle =>
    obtain ⟨e1, e2, -⟩ := hlen hs'
    exact .length (hs.trans hs') hno (e2 ▸ hd) (e1.trans hl) (hc.trans hc') (hb.trans hb')
      (e2 ▸ hle)
  | chunked hs' hno hd hl hc' =>
    exact .chunked (hs.trans hs') hno hd ((hlen hs').1.trans hl) (hc.trans hc')
  | untilClose hs' hno hd hl hc' hcl =>
    exact .untilClose (hs.trans hs') hno hd ((hlen hs').1.trans hl) (hc.trans hc')
      ((hlen hs').2.2 hcl)

theorem write_stuck (h : ctx.res.failed = true) (data : List Byte) :
    ctx.write data = (false, ctx) := by
  unfold write
  rw [if_pos h]

theorem Full.step (h : Full base W ctx) {op : HandlerOp} (hop : op.Plain ∨ op = .tick) :
    Full base (W ++ ctx.given op) (ctx.step op) := by
  obtain ⟨hd, hdec, hlt, hwire⟩ := h.wire
  have hstays {c : Ctx} (h1 : c.res.failed = ctx.res.failed)
      (h2 : c.res.headSent = ctx.res.headSent) (h3 : c.res.hasLength = ctx.res.hasLength)
      (h4 : c.res.contentLength = ctx.res.contentLength) (h5 : c.sock = ctx.sock) :
      Full base (W ++ ctx.given op) c := by
    refine Full.append ?_ _
    exact ⟨h1.trans h.failed, h2.trans h.sent, h3.trans h.declared, hd, h4 ▸ hdec, h4 ▸ hlt,
      h5 ▸ h4 ▸ hwire⟩
  rcases hop with hop | rfl
  · cases op with
    | head op =>
      by_cases hc : op = .close
      · subst hc
        exact hstays rfl rfl rfl rfl rfl
      · show Full _ _ (ctx.headOp op)
        rcases headOp_sent h.sent hc with e | ⟨status, e⟩ <;> rw [e] <;>
          exact hstays rfl rfl rfl rfl rfl
    | write data =>
      simp only [Ctx.step, write_stuck h.failed data]
      exact hstays rfl rfl rfl rfl rfl
    | reserve n data hd =>
      have e : ctx.reserve n = (none, ctx) := by simp [reserve, h.failed]
      simp only [Ctx.step, reserveOp, e]
      exact hstays rfl rfl rfl rfl rfl
    | flush =>
      have e : ctx.flush .asked = (false, ctx) := flushWith_stuck h.failed .asked []
      simp only [Ctx.step, e]
      exact hstays rfl rfl rfl rfl rfl
    | onHead fn => exact hop.elim
    | bodyAll => exact hop.elim
    | bodyReadUntil n => exact hop.elim
    | bodyReadNextChunk cap => exact hop.elim
    | tick => exact hop.elim
  · exact hstays rfl rfl rfl rfl rfl

theorem step_flows (h : Flows base W ctx) {op : HandlerOp} (hop : op.Plain ∨ op = .tick)
    (ha : ctx.res.headSent = false → (ctx.step op).res.headSent = true → ctx.AdmitsBody)
    (hf : ctx.Fits op) : Flows base (W ++ ctx.given op) (ctx.step op) := by
  cases h with
  | full h => exact .full (h.step hop)
  | going h =>
    rcases hop with hop | rfl
    · cases op with
      | head op =>
        show Flows base (W ++ []) _
        rw [List.append_nil]
        exact .going (headOp_flowing h hop)
      | write data => exact write_flows h ha hf
      | reserve n data hd => exact reserveOp_flows h hd ha
      | flush =>
        show Flows base (W ++ []) _
        rw [List.append_nil]
        have hsent := flushWith_headSent h .asked []
        rcases flush_flows h (fun hs => ha hs hsent) (by decide : FlushKind.asked ≠ .final) with
          ⟨c, he, hg, -⟩ | ⟨c, he, hg⟩ <;> simp only [Ctx.step, he]
        · exact .going hg
        · exact .full hg
      | onHead fn => exact hop.elim
      | bodyAll => exact hop.elim
      | bodyReadUntil n => exact hop.elim
      | bodyReadNextChunk cap => exact hop.elim
      | tick => exact hop.elim
    · show Flows base (W ++ []) _
      rw [List.append_nil]
      obtain ⟨t, data, hwire, hst, hW⟩ := h.stage
      refine .going ⟨⟨h.ready.filter, h.ready.onHead, h.ready.fit, h.ready.cap, h.ready.head,
        h.ready.length⟩, h.bodied, h.live, h.able, h.sound, t, data, hwire, ?_, hW⟩
      exact hst.congr rfl rfl rfl rfl (fun _ => ⟨rfl, rfl⟩) fun hx => hx

theorem run_flows {ops : List HandlerOp} (h : Flows base W ctx)
    (hops : ∀ op ∈ ops, op.Plain ∨ op = .tick) (ha : ctx.HeadAdmitsBody ops)
    (hf : ctx.AllFit ops) : Flows base (W ++ ctx.written ops) (ctx.run ops) ∧
      ((ctx.run ops).res.headSent = false → (ctx.run ops).AdmitsBody) := by
  induction ops generalizing ctx W with
  | nil =>
    rw [written, List.append_nil]
    exact ⟨h, ha⟩
  | cons op ops ih =>
    have h1 := step_flows h (hops op (List.mem_cons_self ..)) ha.1 hf.1
    have hi := ih h1 (fun x hx => hops x (List.mem_cons_of_mem _ hx)) ha.2 hf.2
    rwa [List.append_assoc] at hi

-- ---------------------------------------------------------------------------
-- The end
-- ---------------------------------------------------------------------------

/-- What the last flush comes to once the head is out. -/
inductive Concluded (base W : List Byte) (ctx : Ctx) : Bool × Ctx → Prop
  | sent {c : Ctx} {t : List Byte} : Ended ctx W t → c.sock.wire = base ++ t →
      c.res.close = ctx.res.close → c.noBody = false → c.res.hasLength = ctx.res.hasLength →
      c.res.contentLength = ctx.res.contentLength →
      (ctx.res.hasLength = true → c.res.bodySent = W.length) → Concluded base W ctx (true, c)
  | overran {c : Ctx} {t : List Byte} : Ended ctx W t → c.sock.wire = base ++ t →
      Concluded base W ctx (false, c)

theorem Stage.noBody (h : Stage ctx t data) (hs : ctx.res.headSent = true) :
    ctx.noBody = false := by
  cases h with
  | held hs' => simp [hs] at hs'
  | length _ hno => exact hno
  | chunked _ hno => exact hno
  | untilClose _ hno => exact hno

theorem flush_concluded (h : Flowing base W ctx) (hs : ctx.res.headSent = true) :
    Concluded base W ctx (ctx.flush .final) := by
  obtain ⟨t, data, hwire, hst, rfl⟩ := h.stage
  have hlen : ctx.out.slab.length ≤ sizeMax := by
    rw [Pipewriter.length_slab]
    have : ctx.out.len ≤ pipeCap := h.ready.cap ▸ h.ready.fit.ok.len
    exact this.trans (by decide)
  have hended := hst.ended hs hlen
  have hframe : ctx.frame true false [] [] =
      spanOf ctx.res.chunked true (ctx.admitted ctx.out.slab) := by
    simp [frame, slabLeft, sw]
  unfold flush
  rw [flushWith_plain h.ready h.live, if_pos hs, flushBody_plain, if_neg (by simp [hst.noBody hs])]
  have hout : FrameOutcome ctx true false [] [] (ctx.sendFrame true false [] []) :=
    @sendFrame_outcome ctx false h.ready.fit h.able [] (by simp) true []
  show Concluded _ _ _ (ctx.sendFrame true false [] [])
  generalize ctx.sendFrame true false [] [] = r at hout
  cases hout with
  | @sent pw sock hno _ _ _ hd =>
    refine .sent hended ?_ rfl (hst.noBody hs) rfl rfl fun hl => ?_
    · show sock.wire = _
      rw [hd.wire, hwire, hframe, List.append_assoc]
    · show ctx.res.bodySent + (ctx.admitted (ctx.out.slab ++ [])).length = _
      have hle : ctx.out.slab.length ≤ ctx.res.contentLength - ctx.res.bodySent := by
        by_contra hlt
        refine hno ⟨hl, ?_⟩
        rw [List.append_nil]
        exact Nat.not_le.mp hlt
      rw [List.append_nil, admitted_some hl, List.take_of_length_le hle, (hst.sent hl).1,
        List.length_append]
  | @overrun pw sock _ _ _ _ hd =>
    refine .overran hended ?_
    show sock.wire = _
    rw [hd.wire, hwire, hframe, List.append_assoc]
  | wrapped hw =>
    have := hw.2.2
    rw [extraLeft_nil] at this
    simp at this
  | cut _ hc => exact absurd h.sound hc.unsound

/-- The end when the slab is empty: a terminator, or nothing at all. -/
theorem terminator_concluded (h : Flowing base W ctx) (hs : ctx.res.headSent = true)
    (h0 : ctx.out.len = 0) (hc : ctx.res.chunked = true) :
    ∃ pw, putTerminator ctx.out = (true, pw) ∧ ∃ sock pw', pw.flush ctx.sock = (true, pw', sock) ∧
      Concluded base W ctx (true, { ctx with out := pw', sock := sock }) := by
  obtain ⟨t, data, hwire, hst, rfl⟩ := h.stage
  have hfit := h.ready.fit
  have hslab : ctx.out.slab = [] := by
    rw [← List.length_eq_zero_iff, Pipewriter.length_slab, h0]
  obtain ⟨pw, hput, hok, hkin, hp⟩ :=
    putTerminator_spec hfit.ok hfit.slack (hfit.tail.le.trans (by decide))
  rw [hfit.pending, hslab, List.nil_append] at hp
  refine ⟨pw, hput, ?_⟩
  have ho := Pipewriter.flushWith_outcome hok (hkin.failed.trans h.able) ctx.sock []
  unfold Pipewriter.flush
  generalize pw.flushWith ctx.sock [] = r at ho
  cases ho with
  | @sent sock' hn hd =>
    refine ⟨sock', _, rfl, ?_⟩
    have hended := hst.ended hs (show ([] : List Byte).length ≤ sizeMax from Nat.zero_le _)
    have hl : ctx.res.hasLength = false := by
      cases hst with
      | held hs' => simp [hs] at hs'
      | length _ _ _ _ hc' => simp [hc] at hc'
      | chunked _ _ _ hl => exact hl
      | untilClose _ _ _ hl => exact hl
    rw [hc, spanOf_last, admitted_all hl, chunkOf, if_pos rfl, List.nil_append] at hended
    rw [hslab]
    refine .sent hended ?_ rfl (hst.noBody hs) rfl rfl fun hx => by simp [hl] at hx
    show sock'.wire = _
    rw [hd.wire, hp, List.append_nil, hwire, List.append_assoc]
  | wrapped hx => simp [Pipewriter.Wraps] at hx
  | cut hcut => exact absurd h.sound hcut.unsound

theorem idle_concluded (h : Flowing base W ctx) (hs : ctx.res.headSent = true)
    (h0 : ctx.out.len = 0) (hc : ctx.res.chunked = false) :
    Concluded base W ctx (true, ctx) := by
  obtain ⟨t, data, hwire, hst, rfl⟩ := h.stage
  have hslab : ctx.out.slab = [] := by
    rw [← List.length_eq_zero_iff, Pipewriter.length_slab, h0]
  have hended := hst.ended hs (show ([] : List Byte).length ≤ sizeMax from Nat.zero_le _)
  have hadm : ctx.admitted [] = [] := by simp [admitted]
  rw [hc, spanOf_plain, hadm, List.append_nil, List.append_nil] at hended
  rw [hslab, List.append_nil]
  exact .sent hended hwire rfl (hst.noBody hs) rfl rfl fun hl => (hst.sent hl).1

/-- A reply that is buffered whole goes out with its own length. -/
theorem flush_whole (h : Flowing base W ctx) (hs : ctx.res.headSent = false)
    (ha : ctx.AdmitsBody) : ∃ (hd : Head) (c : Ctx), ctx.flush .final = (true, c) ∧
      Declares hd (.length W.length) ∧ c.sock.wire = base ++ hd.encode ++ W := by
  obtain ⟨t, data, hwire, hst, rfl⟩ := h.stage
  obtain ⟨rfl, rfl, hc, hb⟩ : t = [] ∧ data = [] ∧ ctx.res.chunked = false ∧
      ctx.res.bodySent = 0 := by
    cases hst with
    | held _ hc hb => exact ⟨rfl, rfl, hc, hb⟩
    | length hs' => simp [hs] at hs'
    | chunked hs' => simp [hs] at hs'
    | untilClose hs' => simp [hs] at hs'
  have hno : (ctx.headOnly || bodyless (wireStatus ctx.res.status)) = false :=
    Bool.or_eq_false_iff.mpr ⟨h.bodied hs, ha⟩
  have hframe : ctx.frameOf true = .length := by
    have hb : bodyless (wireStatus ctx.res.status) = false := ha
    simp [frameOf, hb]
  have hdecl : ctx.declares true = false := by simp [declares, hno]
  obtain ⟨hd, hstart, -, hdec, hl⟩ := startHead_spec h.ready.head (h.ready.headLength_le true)
  rw [hframe] at hdec
  simp only [headLength, hdecl, Bool.false_eq_true, if_false, Frame.framing, sw] at hdec
  rw [List.nil_append, Pipewriter.length_slab]
  have hadm : (ctx.headed true false).admitted ctx.out.slab = ctx.out.slab := by
    by_cases hx : ctx.res.hasLength = true
    · have hx' : (ctx.headed true false).res.hasLength = true := hx
      rw [admitted_some hx']
      refine List.take_of_length_le ?_
      simp [headed, hdecl, hx, hb, sw, Pipewriter.length_slab]
    · have hx' : (ctx.headed true false).res.hasLength = false := by simpa [headed] using hx
      exact admitted_all hx' _
  have hch : (ctx.headed true false).res.chunked = false := by simp [headed, hc, hframe]
  have hall : (ctx.headed true false).frame true false hd.encode [] =
      hd.encode ++ ctx.out.slab := by
    have hleft : (ctx.headed true false).slabLeft false = ctx.out.slab := hadm
    rw [frame, hch, spanOf_plain, hleft, extraLeft_nil, List.append_nil]
  have hout : FrameOutcome (ctx.headed true false) true false hd.encode []
      ((ctx.headed true false).sendFrame true false hd.encode []) :=
    @sendFrame_outcome (ctx.headed true false) false h.ready.fit h.able hd.encode hl true []
  have hfl : ctx.flush .final = (ctx.headed true false).sendFrame true false hd.encode [] := by
    have hnb : (ctx.headed true false).noBody = false := hno
    unfold flush
    rw [flushWith_plain h.ready h.live, if_neg (by simp [hs])]
    simp only [decide_true, hstart]
    rw [flushBody_plain, if_neg (by simp [hnb])]
    rfl
  rw [hfl]
  refine ⟨hd, ?_⟩
  generalize (ctx.headed true false).sendFrame true false hd.encode [] = r at hout
  cases hout with
  | @sent pw sock _ _ _ _ hdone =>
    refine ⟨_, rfl, hdec, ?_⟩
    show sock.wire = _
    have hwire' : (ctx.headed true false).sock.wire = base ++ [] := hwire
    rw [hdone.wire, hall, hwire', List.append_nil, List.append_assoc]
  | overrun hov =>
    have h2 := hov.2
    have h1 : ctx.res.hasLength = true := hov.1
    simp [headed, hdecl, h1, hb, sw, Pipewriter.length_slab] at h2
  | wrapped hw =>
    have := hw.2.2
    rw [extraLeft_nil] at this
    simp at this
  | cut _ hcut => exact absurd h.sound hcut.unsound

/-- The reply to a request whose handler wrote `W` and left the context as
`before`, when the wire held `base`: one head, and behind it `W` as that head
frames it. The flag says whether the connection goes on. -/
inductive Delivered (base W : List Byte) (before : Ctx) : Bool × Ctx → Prop
  /-- Buffered whole. -/
  | whole {hd : Head} {goesOn : Bool} {c : Ctx} : before.res.headSent = false →
      Declares hd (.length W.length) → c.sock.wire = base ++ hd.encode ++ W →
      Delivered base W before (goesOn, c)
  | length {hd : Head} {goesOn : Bool} {c : Ctx} : before.res.headSent = true →
      before.res.hasLength = true → Declares hd (.length before.res.contentLength) →
      c.sock.wire = base ++ hd.encode ++ W.take before.res.contentLength →
      (goesOn = true → W.length = before.res.contentLength) → Delivered base W before (goesOn, c)
  | chunked {hd : Head} {body : List Byte} {goesOn : Bool} {c : Ctx} :
      before.res.headSent = true → before.res.hasLength = false → Declares hd .chunked →
      Carries .chunked body W → c.sock.wire = base ++ hd.encode ++ body →
      Delivered base W before (goesOn, c)
  | untilClose {hd : Head} {c : Ctx} : before.res.headSent = true →
      before.res.hasLength = false → Declares hd .untilClose →
      c.sock.wire = base ++ hd.encode ++ W → Delivered base W before (false, c)

theorem Ended.delivered {t : List Byte} {goesOn : Bool} (h : Ended ctx W t)
    (hs : ctx.res.headSent = true) (hw : ctx'.sock.wire = base ++ t)
    (hl : goesOn = true → ctx.res.hasLength = true → W.length = ctx.res.contentLength)
    (hc : ctx.res.close = true → goesOn = false) : Delivered base W ctx (goesOn, ctx') := by
  cases h with
  | length hx hd =>
    rw [← List.append_assoc] at hw
    exact .length hs hx hd hw fun hg => hl hg hx
  | chunked hx hd hb =>
    rw [← List.append_assoc] at hw
    exact .chunked hs hx hd hb hw
  | untilClose hx hd hcl =>
    rw [← List.append_assoc] at hw
    rw [hc hcl]
    exact .untilClose hs hx hd hw

/-- What `finish` makes of the last flush. -/
def concluded (last : Bool × Ctx) : Bool × Ctx :=
  if last.1 then
    (true, { last.2 with res := { last.2.res with close := last.2.res.close ||
      (last.2.res.hasLength && !last.2.noBody &&
        decide (last.2.res.bodySent ≠ last.2.res.contentLength)) } })
  else (false, last.2)

theorem finish_flushes (hf : ctx.res.failed = false)
    (h : ctx.res.headSent = false ∨ ctx.out.len ≠ 0) :
    ctx.finish = concluded (ctx.flush .final) := by
  have hor : ¬ ctx.res.headSent = true ∨ ctx.out.len ≠ 0 ∨ ctx.filter.isSome = true :=
    h.imp (by simp) .inl
  unfold finish concluded
  rw [if_neg (by simp [hf])]
  simp only [if_pos hor]
  rcases ctx.flush .final with ⟨_ | _, c⟩ <;> rfl

theorem finish_terminator (h : Ready ctx) (hf : ctx.res.failed = false)
    (hs : ctx.res.headSent = true) (h0 : ctx.out.len = 0) (hc : ctx.res.chunked = true)
    {pw pw' : Pipewriter} {sock : Socket} (hput : putTerminator ctx.out = (true, pw))
    (hfl : pw.flush ctx.sock = (true, pw', sock)) :
    ctx.finish = concluded (true, { ctx with out := pw', sock := sock }) := by
  have hor : ¬ (¬ ctx.res.headSent = true ∨ ctx.out.len ≠ 0 ∨ ctx.filter.isSome = true) := by
    simp [hs, h0, h.filter]
  unfold finish concluded
  rw [if_neg (by simp [hf])]
  simp only [if_neg hor, if_pos hc, hput, hfl]
  rfl

theorem finish_idle (h : Ready ctx) (hf : ctx.res.failed = false)
    (hs : ctx.res.headSent = true) (h0 : ctx.out.len = 0) (hc : ctx.res.chunked = false) :
    ctx.finish = concluded (true, ctx) := by
  have hor : ¬ (¬ ctx.res.headSent = true ∨ ctx.out.len ≠ 0 ∨ ctx.filter.isSome = true) := by
    simp [hs, h0, h.filter]
  unfold finish concluded
  rw [if_neg (by simp [hf])]
  simp only [if_neg hor, hc, Bool.false_eq_true, if_false]
  rfl

theorem Concluded.delivered {last : Bool × Ctx} (h : Concluded base W ctx last)
    (hs : ctx.res.headSent = true) (keep : Bool) : Delivered base W ctx
      ((concluded last).1 && keep && !(concluded last).2.res.close, (concluded last).2) := by
  cases h with
  | sent he hw hcl hno hl hn hsent =>
    refine he.delivered hs hw (fun hgo hx => ?_) fun hx => ?_
    · by_contra hne
      simp [concluded, hl, hx, hno, hn, hsent hx, hne] at hgo
    · simp [concluded, hcl, hx]
  | overran he hw => exact he.delivered hs hw (by simp [concluded]) fun _ => rfl

theorem finish_delivered (h : Flowing base W ctx)
    (ha : ctx.res.headSent = false → ctx.AdmitsBody) (keep : Bool) : Delivered base W ctx
      (ctx.finish.1 && keep && !ctx.finish.2.res.close, ctx.finish.2) := by
  by_cases hs : ctx.res.headSent = true
  · by_cases h0 : ctx.out.len = 0
    · by_cases hc : ctx.res.chunked = true
      · obtain ⟨pw, hput, sock, pw', hfl, hcon⟩ := terminator_concluded h hs h0 hc
        rw [finish_terminator h.ready h.live hs h0 hc hput hfl]
        exact hcon.delivered hs keep
      · rw [Bool.not_eq_true] at hc
        rw [finish_idle h.ready h.live hs h0 hc]
        exact (idle_concluded h hs h0 hc).delivered hs keep
    · rw [finish_flushes h.live (.inr h0)]
      exact (flush_concluded h hs).delivered hs keep
  · rw [Bool.not_eq_true] at hs
    obtain ⟨hd, c, he, hdec, hw⟩ := flush_whole h hs (ha hs)
    rw [finish_flushes h.live (.inl hs), he]
    exact .whole hs hdec hw

theorem Flowing.setBody (h : Flowing base W ctx) (feed : Feed) (read left : Nat) (done : Bool)
    (err : Int) {close : Bool} (hc : ctx.res.close = true → close = true) :
    Flowing base W { ctx with
      feed := feed
      bodyRead := read
      bodyDone := done
      bodyErr := err
      chunkLeft := left
      res := { ctx.res with close := close } } := by
  obtain ⟨t, data, hwire, hst, hW⟩ := h.stage
  exact ⟨⟨h.ready.filter, h.ready.onHead, h.ready.fit, h.ready.cap, h.ready.head.congr rfl rfl rfl,
    h.ready.length⟩, h.bodied, h.live, h.able, h.sound, t, data, hwire,
    hst.congr rfl rfl rfl rfl (fun _ => ⟨rfl, rfl⟩) hc, hW⟩

theorem settleBody_flows (h : Flows base W ctx) (he : ctx.settleBody.bodyErr = 0) :
    Flows base W ctx.settleBody := by
  have hd := settleBody_deaf ctx
  have hclose := hd.close
  have hstatus := (hd.err he).2
  have heq := hd.eq
  generalize ctx.settleBody = c at *
  rw [heq, hstatus]
  cases h with
  | full h => exact .full ⟨h.failed, h.sent, h.declared, h.wire⟩
  | going h => exact .going (h.setBody _ _ _ _ _ hclose)

theorem Delivered.congr {r : Bool × Ctx} (h : Delivered base W ctx r)
    (h1 : ctx'.res.headSent = ctx.res.headSent) (h2 : ctx'.res.hasLength = ctx.res.hasLength)
    (h3 : ctx'.res.contentLength = ctx.res.contentLength) : Delivered base W ctx' r := by
  cases h with
  | whole hs hd hw => exact .whole (h1.trans hs) hd hw
  | length hs hl hd hw hg =>
    exact .length (h1.trans hs) (h2.trans hl) (h3 ▸ hd) (h3 ▸ hw) (h3 ▸ hg)
  | chunked hs hl hd hb hw => exact .chunked (h1.trans hs) (h2.trans hl) hd hb hw
  | untilClose hs hl hd hw => exact .untilClose (h1.trans hs) (h2.trans hl) hd hw

theorem afterDispatch_delivered (h : Flows base W ctx)
    (ha : ctx.res.headSent = false → ctx.AdmitsBody) (he : ctx.settleBody.bodyErr = 0) :
    Delivered base W ctx ctx.afterDispatch := by
  have hd := settleBody_deaf ctx
  have hf := settleBody_flows h he
  have herr := hd.err he
  unfold afterDispatch
  rw [if_neg (not_not.mpr herr.1)]
  simp only [if_neg (not_not.mpr he)]
  have hres : ctx.settleBody.res.headSent = ctx.res.headSent ∧
      ctx.settleBody.res.hasLength = ctx.res.hasLength ∧
      ctx.settleBody.res.contentLength = ctx.res.contentLength := by
    rw [hd.eq]
    exact ⟨rfl, rfl, rfl⟩
  obtain ⟨h1, h2, h3⟩ := hres
  refine Delivered.congr ?_ h1.symm h2.symm h3.symm
  cases hf with
  | going hg =>
    refine finish_delivered hg (fun hs => ?_) _
    show bodyless (wireStatus ctx.settleBody.res.status) = false
    rw [herr.2]
    exact ha (h1.symm.trans hs)
  | full hx =>
    have e : ctx.settleBody.finish = (false, ctx.settleBody) := by
      unfold finish
      rw [if_pos hx.failed]
    obtain ⟨hd, hdec, -, hw⟩ := hx.wire
    rw [e]
    exact .length hx.sent hx.declared hdec hw (by simp)

-- ---------------------------------------------------------------------------
-- A whole request
-- ---------------------------------------------------------------------------

/-- As long as no write is taken for a failure, the wire holds one head and all
that the handler wrote behind it, in the framing the head declares. -/
theorem reply_delivered (conn : Conn) (req : Request) (scratch : Scratch) (ops : List HandlerOp)
    (hw : Writable conn.out) (hs : conn.sock.Sound) (hm : isHead req.method = false)
    (hops : ∀ op ∈ ops, op.Plain ∨ op = .tick)
    (ha : (Ctx.init conn req scratch).HeadAdmitsBody ops)
    (he : ((Ctx.init conn req scratch).run ops).settleBody.bodyErr = 0)
    (hf : (Ctx.init conn req scratch).AllFit ops) :
    Delivered conn.sock.wire ((Ctx.init conn req scratch).written ops)
      ((Ctx.init conn req scratch).run ops)
      ((Ctx.init conn req scratch).run ops).afterDispatch := by
  have h0 : Flows conn.sock.wire [] (Ctx.init conn req scratch) :=
    .going (init_going scratch hw hs hm).flowing
  obtain ⟨hr, hadm⟩ := run_flows h0 hops ha hf
  rw [List.nil_append] at hr
  exact afterDispatch_delivered hr hadm he

def getCtx (minorVersion : Nat) : Ctx :=
  .init idleConn (.parsed ⟨str "GET", str "/", minorVersion, []⟩) ⟨zeros, zeros, zeros⟩

def hiOps : List HandlerOp := [.write (str "hi"), .flush, .write (str "!")]

theorem reply_delivered_hi : Delivered [] (str "hi!") ((getCtx 1).run hiOps)
    ((getCtx 1).run hiOps).afterDispatch := by
  have hsound : idleConn.sock.Sound := by simp [idleConn, Socket.Sound]
  have hadm : (getCtx 1).HeadAdmitsBody hiOps := by
    refine ⟨fun _ _ => ?_, fun _ _ => ?_, fun _ _ => ?_, fun _ => ?_⟩
    all_goals
      unfold AdmitsBody
      decide +kernel
  have hfit : (getCtx 1).AllFit hiOps := by
    refine ⟨fun _ hr => absurd hr ?_, trivial, fun _ hr => absurd hr ?_, trivial⟩
    all_goals decide +kernel
  have hw : (getCtx 1).written hiOps = str "hi!" := by decide +kernel
  have h := reply_delivered idleConn (.parsed ⟨str "GET", str "/", 1, []⟩) ⟨zeros, zeros, zeros⟩
    hiOps ⟨rfl, rfl, rfl, rfl⟩ hsound (by decide) (by simp [hiOps, HandlerOp.Plain]) hadm
    (by decide +kernel) hfit
  rw [← hw]
  exact h

-- ---------------------------------------------------------------------------
-- A write that is taken for a failure
-- ---------------------------------------------------------------------------

theorem write_wrapped (h : Flowing base W ctx) (hs : ctx.res.headSent = true)
    (h0 : ctx.out.len = 0) (hl : ctx.res.hasLength = false) (hc : ctx.res.chunked = false)
    {data : List Byte} (hd : 2 ^ 31 ≤ data.length % 2 ^ 32) :
    (ctx.write data).2.res.failed = true ∧ (ctx.write data).2.res.hasLength = false ∧
      (ctx.write data).2.sock.wire = ctx.sock.wire ++ data := by
  obtain ⟨t, _, -, hst, -⟩ := h.stage
  have hne : data ≠ [] := by
    rintro rfl
    simp at hd
  have hroom : data.length > ctx.out.room := by
    have : ctx.out.room ≤ pipeCap := h.ready.cap ▸ Nat.sub_le ..
    have : pipeCap < 2 ^ 31 := by decide
    omega
  have hraw : ctx.rawFramed = true := by
    simp [rawFramed, h.ready.onHead, h.ready.filter, hs, hc]
  have hspan : ctx.out.sendSpan ctx.sock data = ctx.sock.connSend data := by
    simp [Pipewriter.sendSpan, h.ready.fit.head, h0, h.ready.fit.tail, hne]
  obtain ⟨s', hsend, hdone⟩ : ∃ s', ctx.sock.connSend data =
      (Int.bmod data.length (2 ^ 32), s') ∧ ctx.sock.Done s' data := by
    rcases Socket.connSend_cases ctx.sock data with h' | ⟨e, s', -, -, hcut⟩
    · exact h'
    · exact absurd h.sound hcut.unsound
  have hfl : ctx.out.flushWith ctx.sock data =
      (false, { ctx.out.reset with failed := true }, s') := by
    unfold Pipewriter.flushWith
    rw [if_neg (by simp [h.able]), hspan, hsend]
    simp only [if_pos ((Pipewriter.bmod_neg_iff _).mpr hd)]
  have hemit : emit ctx.out ctx.sock false false [] data =
      (false, { ctx.out.reset with failed := true }, s') := by
    simp [emit, hfl]
  have hwrite : ctx.write data = ctx.sendFrame false false [] data := by
    unfold write
    rw [if_neg (by simp [h.live]), if_pos ⟨hroom, hraw⟩, flushWith_plain h.ready h.live,
      if_pos hs, flushBody_plain, if_neg (by simp [hst.noBody hs])]
    rfl
  have hclip : ctx.clip false data = (ctx, data, false) := by simp [clip, hl]
  rw [hwrite]
  simp only [sendFrame, hclip, sw, Bool.false_eq_true, if_false, hc, hemit, not_false_eq_true,
    true_or, if_true]
  exact ⟨rfl, hl, hdone.wire⟩

/-- A head, a body of this data, and one byte more. -/
def lateOps (data : List Byte) : List HandlerOp := [.flush, .write data, .write (str "x")]

theorem getCtx_flowing : Flowing [] [] (getCtx 0) :=
  (@init_going idleConn (.parsed ⟨str "GET", str "/", 0, []⟩) ⟨zeros, zeros, zeros⟩
    ⟨rfl, rfl, rfl, rfl⟩ (by simp [idleConn, Socket.Sound]) (by decide)).flowing

/-- Behind the write, the reply is given up and the last byte is not sent. -/
theorem late_run {data : List Byte} (hd : 2 ^ 31 ≤ data.length % 2 ^ 32) :
    (((getCtx 0).run (lateOps data)).res.failed = true ∧
      ((getCtx 0).run (lateOps data)).res.headSent = true ∧
      ((getCtx 0).run (lateOps data)).res.hasLength = false) ∧
    (∃ t, ((getCtx 0).run (lateOps data)).sock.wire = t ++ data) ∧
    (getCtx 0).HeadAdmitsBody (lateOps data) ∧
    ((getCtx 0).run (lateOps data)).settleBody.bodyErr = 0 ∧
    ((getCtx 0).run (lateOps data)).afterDispatch = (false, (getCtx 0).run (lateOps data)) := by
  have hadm : (getCtx 0).AdmitsBody := (by decide : bodyless (wireStatus 200) = false)
  rcases flush_flows getCtx_flowing (fun _ => hadm) (by decide : FlushKind.asked ≠ .final) with
    ⟨c, he, hg, h0, hs⟩ | ⟨c, he, hf⟩
  · have hch : ((getCtx 0).flush .asked).2.res.chunked = false := by decide +kernel
    have hlen : ((getCtx 0).flush .asked).2.res.hasLength = false := by decide +kernel
    rw [he] at hch hlen
    obtain ⟨hfail, hno, hwire⟩ := write_wrapped hg hs h0 hlen hch hd
    have hsent := (write_onward hs data).sent.trans hs
    have hx : (c.write data).2.write (str "x") = (false, (c.write data).2) := write_stuck hfail _
    have hrun : (getCtx 0).run (lateOps data) = (c.write data).2 := by
      simp only [Ctx.run, lateOps, List.foldl_cons, List.foldl_nil, Ctx.step, he, hx]
    have hmute : Mute (getCtx 0) (c.write data).2 := by
      have h1 := flushWith_mute (getCtx 0) .asked []
      have h2 : Mute (getCtx 0) c := by
        unfold flush at he
        rwa [he] at h1
      exact h2.trans (write_mute c data)
    obtain ⟨-, hreq, -, hdone, -, herr, -⟩ := hmute.fields
    rw [hrun]
    have hexp : (c.write data).2.req.expectContinue = false := by
      rw [hreq]
      rfl
    have hdone : (c.write data).2.bodyDone = true := hdone.trans (by decide)
    have herr : (c.write data).2.bodyErr = 0 := herr.trans rfl
    have hsettle : (c.write data).2.settleBody = (c.write data).2 := by
      unfold settleBody drainBody drainLoop
      rw [if_neg (by simp [hexp]), if_pos (.inl hdone)]
    refine ⟨⟨hfail, hsent, hno⟩, ⟨_, hwire⟩, ?_, (congrArg Ctx.bodyErr hsettle).trans herr, ?_⟩
    · have h1 : (getCtx 0).step .flush = c := by simp only [Ctx.step, he]
      have h2 : c.step (.write data) = (c.write data).2 := rfl
      have h3 : (c.write data).2.step (.write (str "x")) = (c.write data).2 := by
        simp only [Ctx.step, hx]
      refine ⟨fun _ _ => hadm, ?_⟩
      rw [h1]
      refine ⟨fun hn => by simp [hs] at hn, ?_⟩
      rw [h2]
      refine ⟨fun hn => by simp [hsent] at hn, ?_⟩
      rw [h3]
      exact fun hn => by simp [hsent] at hn
    · have hfin : (c.write data).2.finish = (false, (c.write data).2) := by
        unfold finish
        rw [if_pos hfail]
      simp [afterDispatch, herr, hsettle, hfin]
  · have hlen : ((getCtx 0).flush .asked).2.res.hasLength = false := by decide +kernel
    rw [he] at hlen
    exact absurd hf.declared (by rw [hlen]; exact Bool.false_ne_true)

/-- The byte behind a write of 2 GiB is lost, though every send succeeds. -/
theorem late_byte_lost : Writable idleConn.out ∧ idleConn.sock.Sound ∧
    isHead (getCtx 0).req.method = false ∧
    (∀ op ∈ lateOps (List.replicate (2 ^ 31) 0), op.Plain ∨ op = .tick) ∧
    (getCtx 0).HeadAdmitsBody (lateOps (List.replicate (2 ^ 31) 0)) ∧
    ((getCtx 0).run (lateOps (List.replicate (2 ^ 31) 0))).settleBody.bodyErr = 0 ∧
    ¬ Delivered idleConn.sock.wire ((getCtx 0).written (lateOps (List.replicate (2 ^ 31) 0)))
      ((getCtx 0).run (lateOps (List.replicate (2 ^ 31) 0)))
      ((getCtx 0).run (lateOps (List.replicate (2 ^ 31) 0))).afterDispatch := by
  have hlen : (List.replicate (2 ^ 31) (0 : Byte)).length % 2 ^ 32 = 2 ^ 31 := by
    rw [List.length_replicate]
    decide
  have hlast : (List.replicate (2 ^ 31) (0 : Byte)).getLast? = some 0 := by
    rw [List.getLast?_replicate, if_neg (by decide)]
  generalize List.replicate (2 ^ 31) (0 : Byte) = data at hlen hlast ⊢
  obtain ⟨⟨hfail, hsent, hno⟩, ⟨t, hwire⟩, hadm, herr, hend⟩ := late_run hlen.ge
  have hsound : idleConn.sock.Sound := by simp [idleConn, Socket.Sound]
  refine ⟨⟨rfl, rfl, rfl, rfl⟩, hsound, by decide, ?_, hadm, herr, ?_⟩
  · simp [lateOps, HandlerOp.Plain]
  have hwritten : (getCtx 0).written (lateOps data) = data ++ str "x" := by
    simp [written, lateOps, given]
  have hbytes : ((getCtx 0).run (lateOps data)).sock.wire.getLast? = some 0 := by
    rw [hwire, List.getLast?_append, hlast, Option.some_or]
  rw [hend, hwritten]
  generalize (getCtx 0).run (lateOps data) = c at hsent hno hbytes
  intro h
  cases h with
  | whole hs => simp [hs] at hsent
  | length _ hl => simp [hl] at hno
  | chunked _ _ _ hb hw =>
    generalize data ++ str "x" = W at hb
    cases hb with
    | chunked b =>
      obtain ⟨s, hs⟩ := b.encode_ends
      rw [hw, hs, ← List.append_assoc, List.getLast?_append] at hbytes
      simp at hbytes
  | untilClose _ _ _ hw =>
    have hx : str "x" = [120] := by decide
    rw [hw, hx, ← List.append_assoc, List.getLast?_concat] at hbytes
    simp at hbytes

end Ctx

end Ioxd.Http
