import Ioxd.Http.HeadOut
import Ioxd.Http.HeardLaws

/-!
# The connection line

The head says `connection: close` if and only if the engine closes behind the
reply. It is decided when the head goes out, from how much of the request's
body is left; the drain and the last flush come later, with limits of their own,
and agree with it.
-/

namespace Ioxd.Http

open Flat
open Ioxd.Pipe
open Message (Head Field)

namespace Ctx

variable {ctx ctx' ctx'' : Ctx} {base W : List Byte} {kind : FlushKind} {hd : Head}

-- ---------------------------------------------------------------------------
-- The drain
-- ---------------------------------------------------------------------------

theorem Same.eq (h : Same ctx ctx') : ctx' = { ctx with
    feed := ctx'.feed
    bodyRead := ctx'.bodyRead
    bodyDone := ctx'.bodyDone
    bodyWhole := ctx'.bodyWhole
    bodyErr := ctx'.bodyErr
    chunkLeft := ctx'.chunkLeft
    req := { ctx.req with body := ctx'.req.body }
    res := { ctx.res with status := ctx'.res.status } } := by
  have hr := h.rest
  rw [← hr]
  rfl

theorem Begun.same (h : Begun ctx) (hs : Same ctx ctx') : Begun ctx' := by
  rw [hs.eq]
  exact h

/-- The drain ends at the end of a body that it can take, the limit included. -/
theorem drainLoop_heard (turns : Nat) (hb : Begun ctx) (hw : Within ctx) {drained : Nat}
    (hd : ctx.bodyDone = true ∨ ctx.req.chunked = false ∧
      ctx.req.contentLength - ctx.bodyRead + drained ≤ drainMax) :
    Heard ctx (drainLoop turns ctx drained) := by
  induction turns generalizing ctx drained with
  | zero => exact .refl ctx
  | succ turns ih =>
    unfold drainLoop
    by_cases hend : ctx.bodyDone = true ∨ ctx.bodyErr ≠ 0
    · rw [if_pos hend]
      exact .refl ctx
    rw [if_neg hend]
    rw [not_or, not_not, Bool.not_eq_true] at hend
    obtain ⟨hc, hleft⟩ := hd.resolve_left (by simp [hend.1])
    have hlt := (hw hc).2 hend.1
    rw [if_neg (by omega)]
    have hread : ctx.bodyReadUntil 4096 =
        readUntilLoop (ctx.feed.stream.length + 2) ctx (min 4096 intMax) [] := by
      unfold bodyReadUntil
      rw [if_neg (by simp [hend.2]), if_neg (by simp [hend.1]), bodyBegin_begun hb]
    have hh := readUntilLoop_heard (ctx.feed.stream.length + 2) ctx (min 4096 intMax) []
    have hn := @readUntilLoop_count ctx (ctx.feed.stream.length + 2) hc (min 4096 intMax) []
    rw [hread]
    generalize readUntilLoop (ctx.feed.stream.length + 2) ctx (min 4096 intMax) [] = r at hh hn
    obtain ⟨ok, data, c⟩ := r
    dsimp only at hh hn ⊢
    split
    · exact hh
    · rename_i hgo
      rw [not_or, not_not] at hgo
      refine hh.trans (ih (hb.same hh.same) (hh.within hw) (.inr ⟨hh.same.chunked.trans hc, ?_⟩))
      have hcount := hn hgo.1
      have hin := (hh.within hw (hh.same.chunked.trans hc)).1
      rw [hh.same.contentLength] at hin ⊢
      rw [List.length_nil] at hcount
      omega

def Drainable (ctx : Ctx) : Prop := ctx.bodyDone = true ∨ ctx.req.chunked = false ∧
  ctx.req.contentLength - ctx.bodyRead ≤ drainMax ∧
    (ctx.req.expectContinue = true → ctx.continueSent = true)

theorem drainable_of (h : ctx.undrainable = false) (he : ctx.bodyErr = 0) : Drainable ctx := by
  have hmax : ¬ sizeMax ≤ drainMax := by decide
  simp only [undrainable, he, beq_self_eq_true, Bool.and_true, Bool.and_eq_false_iff,
    Bool.not_eq_false', Bool.or_eq_false_iff, decide_eq_false_iff_not, gt_iff_lt, not_lt] at h
  rcases h with h | ⟨hl, hx⟩
  · exact .inl h
  · refine .inr ?_
    split at hl
    · exact absurd hl hmax
    · rename_i hc
      refine ⟨by simpa using hc, hl, fun hx' => ?_⟩
      rcases hx with hx | hx
      · rw [hx'] at hx
        cases hx
      · simpa using hx

theorem Drainable.heard (h : Drainable ctx) (hh : Heard ctx ctx') : Drainable ctx' := by
  rcases h with h | ⟨hc, hl, hx⟩
  · exact .inl (hh.done h)
  · have hm := hh.more hc
    refine .inr ⟨hh.same.chunked.trans hc, ?_, ?_⟩
    · rw [hh.same.contentLength]
      omega
    · rw [hh.same.eq]
      exact hx

theorem settleBody_heard (h : Drainable ctx) (hw : Within ctx) : Heard ctx ctx.settleBody := by
  unfold settleBody
  split
  · rename_i hn
    rcases h with h | ⟨-, -, hx⟩
    · exact absurd h hn.2.2
    · exact absurd (hx hn.1) hn.2.1
  · rcases h with h | ⟨hc, hl, hx⟩
    · unfold drainBody drainLoop
      rw [if_pos (.inl h)]
      exact .refl ctx
    · refine drainLoop_heard _ ?_ hw (.inr ⟨hc, hl⟩)
      by_cases he : ctx.req.expectContinue = true
      · exact .inr (.inl (hx he))
      · exact .inl (by simpa using he)

-- ---------------------------------------------------------------------------
-- What the head says
-- ---------------------------------------------------------------------------

/-- What the interim reply left on the wire. -/
def interim (ctx : Ctx) : List Byte :=
  if ctx.continueSent then str "HTTP/1.1 100 Continue\r\n\r\n" else []

/-- The head closes the connection. -/
def Closes (hd : Head) : Prop := str "close" ∈ hd.values (str "connection")

theorem Built.closes (h : Built base kind ctx ctx' hd) (hok : HeadOk ctx.res) :
    Closes hd ↔ ctx.req.keepAlive = false ∨ ctx'.res.close = true := by
  obtain ⟨frame, len, -, hbuild⟩ := h.head
  have hok' : HeadOk { ctx.res with close := ctx'.res.close } := hok.congr rfl rfl rfl
  obtain ⟨fs, ha⟩ := hok.fields
  obtain ⟨hd', type, hbuild', -, ht, -, hf, -⟩ := buildHead_fields hok' ha ctx.req.minorVersion
    ctx.req.keepAlive frame len
  obtain rfl := built_inj hbuild hbuild'
  have hv : Closes hd ↔ ∃ f ∈ connectionFields ctx.req.minorVersion
      (ctx.req.keepAlive && !ctx'.res.close), f.value = str "close" := by
    have hname : ∀ f ∈ frameFields frame len, f.name ≠ str "connection" := by
      unfold frameFields
      cases frame <;> simp <;> decide
    have hconn : ∀ f ∈ connectionFields ctx.req.minorVersion (ctx.req.keepAlive && !ctx'.res.close),
        f.name = str "connection" := by
      unfold connectionFields
      split
      · simp
      · split <;> simp
    unfold Closes Head.values
    rw [hf]
    simp only [List.mem_map, List.mem_filter, decide_eq_true_eq, List.mem_append, List.mem_cons]
    constructor
    · rintro ⟨f, ⟨((rfl | hm) | hm) | hm, hn⟩, hval⟩
      · rw [ht] at hn
        exact absurd hn (by decide)
      · exact absurd hn (hname f hm)
      · exact ⟨f, hm, hval⟩
      · exact absurd hn (ha.1 f hm).2.2.1
    · rintro ⟨f, hm, hval⟩
      exact ⟨f, ⟨.inl (.inr hm), hconn f hm⟩, hval⟩
  rw [hv]
  unfold connectionFields
  cases hk : ctx.req.keepAlive with
  | false => simp
  | true =>
    cases hc : ctx'.res.close with
    | false =>
      have hne : str "keep-alive" ≠ str "close" := by decide
      simp only [Bool.not_false, Bool.and_self, not_true_eq_false, if_false, Bool.true_eq_false,
        Bool.false_eq_true, or_self, iff_false, not_exists, not_and]
      intro f hf
      split at hf
      · obtain rfl := List.mem_singleton.mp hf
        exact hne
      · cases hf
    | true => simp

/-- The head is out, and it is right about what is to come. -/
structure Said (base : List Byte) (hd : Head) (ctx : Ctx) : Prop where
  sent : ctx.res.headSent = true
  wire : base ++ ctx.interim ++ hd.encode <+: ctx.sock.wire
  closes : Closes hd ↔ ctx.req.keepAlive = false ∨ ctx.res.close = true
  drainable : ctx.res.close = false → ctx.bodyErr = 0 → Drainable ctx
  capped : Capped ctx
  plain : ctx.res.hasLength = true → (ctx.filter.isSome && !ctx.headOnly) = false

def Unspoken (base : List Byte) (ctx : Ctx) : Prop :=
  ∃ W, Held (fun _ => True) base W { ctx with headOnly := false }

inductive Fate (base : List Byte) (ctx : Ctx) : Prop
  | spoilt : ctx.res.failed = true ∨ ctx.bodyErr ≠ 0 → Fate base ctx
  | unspoken : Within ctx → Unspoken (base ++ ctx.interim) ctx → Fate base ctx
  | said {hd : Head} : Within ctx → Said base hd ctx → Fate base ctx

theorem Within.mute (h : Within ctx) (hm : Mute ctx ctx') : Within ctx' := by
  obtain ⟨-, h2, h3, h4, -⟩ := hm.fields
  unfold Within
  rw [h2, h3, h4]
  exact h

theorem Drainable.mute (h : Drainable ctx) (hm : Mute ctx ctx')
    (hi : ctx'.continueSent = ctx.continueSent) : Drainable ctx' := by
  obtain ⟨-, h2, h3, h4, -⟩ := hm.fields
  unfold Drainable
  rw [h2, h3, h4, hi]
  exact h

theorem interim_congr (h : ctx'.continueSent = ctx.continueSent) : ctx'.interim = ctx.interim := by
  unfold interim
  rw [h]

theorem Said.onward (h : Said base hd ctx) (ho : Onward ctx ctx') (hm : Mute ctx ctx')
    (hc : ctx'.res.close = ctx.res.close) (hb : Capped ctx')
    (hl : ctx'.res.hasLength = ctx.res.hasLength) : Said base hd ctx' := by
  obtain ⟨-, h2, -, -, -, h6, -, h8⟩ := hm.fields
  refine ⟨ho.sent.trans h.sent, ?_, ?_, ?_, hb, ?_⟩
  · rw [interim_congr ho.interim]
    exact h.wire.trans ho.wire
  · rw [h2, hc]
    exact h.closes
  · rw [hc, h6]
    exact fun hn he => (h.drainable hn he).mute hm ho.interim
  · rw [hl, ho.filter, h8]
    exact h.plain

theorem flushWith_said (h : Said base hd ctx) (kind : FlushKind) (extra : List Byte) :
    Said base hd (ctx.flushWith kind extra).2 := by
  have ho := flushWith_onward h.sent kind extra
  have hm := flushWith_mute ctx kind extra
  cases hf : ctx.res.failed with
  | true =>
    rw [flushWith_stuck hf]
    exact h
  | false =>
    have he : ctx.flushWith kind extra =
        ctx.flushBody kind (ctx.filter.isSome && !ctx.headOnly) false [] extra := by
      rw [flushWith_eq hf, callOnHead_sent h.sent, flushHead_sent h.sent]
    have hcl := flushBody_close ctx kind (ctx.filter.isSome && !ctx.headOnly) false [] extra
    obtain ⟨hb, hl⟩ := @flushBody_capped ctx h.capped kind (ctx.filter.isSome && !ctx.headOnly) false
      (fun hc _ => by
        by_contra hn
        exact absurd (h.plain (by simpa using hn)) (by rw [hc]; decide)) [] extra
    rw [← he] at hcl hb hl
    exact h.onward ho hm hcl hb hl

-- ---------------------------------------------------------------------------
-- The flush that sends the head
-- ---------------------------------------------------------------------------

theorem headOp_interim (ctx : Ctx) (op : HeadOp) :
    (ctx.headOp op).continueSent = ctx.continueSent := by
  cases op with
  | replyFilter filter =>
    simp only [headOp, replyFilter]
    split <;> rfl
  | _ => rfl

theorem callOnHead_interim (ctx : Ctx) (final : Bool) :
    (ctx.callOnHead final).continueSent = ctx.continueSent := by
  have hops (ops : List HeadOp) (c : Ctx) : (ops.foldl headOp c).continueSent = c.continueSent := by
    induction ops generalizing c with
    | nil => rfl
    | cons op ops ih => exact (ih _).trans (headOp_interim c op)
  unfold callOnHead
  split
  · split
    · rfl
    · exact hops _ _
  · rfl

theorem undrainable_congr (hm : Mute ctx ctx') (hi : ctx'.continueSent = ctx.continueSent) :
    ctx'.undrainable = ctx.undrainable := by
  obtain ⟨-, h2, h3, h4, -, h6, -, -⟩ := hm.fields
  unfold undrainable
  rw [h2, h3, h4, h6, hi]

theorem Unspoken.live (h : Unspoken base ctx) : ctx.res.failed = false ∧ ctx.res.headSent = false := by
  obtain ⟨W, h⟩ := h
  exact ⟨h.gear.live, h.unsent⟩

theorem flushWith_built (h : Unspoken base ctx) {extra : List Byte}
    (hr : ctx.flushWith kind extra = (true, ctx')) : ∃ hd : Head,
      Built base kind (ctx.callOnHead (kind = .final)) ctx' hd ∧
        HeadOk (ctx.callOnHead (kind = .final)).res := by
  rw [flushWith_eq h.live.1] at hr
  obtain ⟨W, h⟩ := h
  cases ho : ctx.headOnly with
  | false =>
    have he : { ctx with headOnly := false } = ctx := by
      rw [← ho]
    rw [he] at h
    have hh := callOnHead_held h (kind = .final)
    obtain ⟨hd, hb⟩ := flushHead_built hh hr
    exact ⟨hd, hb, hh.gear.head⟩
  | true =>
    have hc : ctx.callOnHead (kind = .final) = ctx := by
      unfold callOnHead
      split
      · rw [if_pos (.inr ho)]
      · rfl
    rw [hc] at hr ⊢
    have hst : Still base ctx := ⟨h.unsent, h.gear.fit, h.gear.cap, h.gear.able, h.gear.head,
      h.gear.length, h.wire, h.zero⟩
    obtain ⟨hd, hb⟩ := flushHead_built_bare hst (by simp [ho]) hr
    exact ⟨hd, hb, h.gear.head⟩

theorem flushWith_says (h : Unspoken (base ++ ctx.interim) ctx) (hk : kind ≠ .final)
    {extra : List Byte} (hr : ctx.flushWith kind extra = (true, ctx')) :
    ∃ hd : Head, Said base hd ctx' := by
  obtain ⟨hd, hb, hok⟩ := flushWith_built h hr
  have hm := flushWith_mute ctx kind extra
  have hmc := callOnHead_mute ctx (kind = .final)
  have hi := callOnHead_interim ctx (kind = .final)
  rw [hr] at hm
  have hi' := hb.interim.trans hi
  refine ⟨hd, hb.sent, ?_, ?_, fun hc he => ?_, hb.capped, hb.plain hk⟩
  · rw [interim_congr hi']
    exact hb.wire
  · rw [hb.closes hok, hmc.fields.2.1, hm.fields.2.1]
  · have hu : ctx'.undrainable = false := by
      rw [undrainable_congr hm hi', ← undrainable_congr hmc hi]
      by_contra hn
      have := hb.close (by simpa using hn)
      simp [hc] at this
    exact drainable_of hu he

-- ---------------------------------------------------------------------------
-- Every call
-- ---------------------------------------------------------------------------

def Settled (base : List Byte) (ctx : Ctx) : Prop :=
  (ctx.res.failed = true ∨ ctx.bodyErr ≠ 0) ∨ Within ctx ∧ ∃ hd : Head, Said base hd ctx

theorem Settled.fate (h : Settled base ctx) : Fate base ctx := by
  rcases h with h | ⟨hw, hd, hs⟩
  · exact .spoilt h
  · exact .said hw hs

theorem Settled.setOut (h : Settled base ctx) (out : Pipewriter) :
    Settled base { ctx with out := out } := by
  rcases h with h | ⟨hw, hd, hs⟩
  · exact .inl h
  · exact .inr ⟨hw, hd, hs.sent, hs.wire, hs.closes, hs.drainable, hs.capped, hs.plain⟩

theorem spoilt_mute (h : ctx.res.failed = true ∨ ctx.bodyErr ≠ 0) (hm : Mute ctx ctx')
    (hf : ctx.res.failed = true → ctx'.res.failed = true) :
    ctx'.res.failed = true ∨ ctx'.bodyErr ≠ 0 := by
  refine h.imp hf fun he => ?_
  rwa [hm.fields.2.2.2.2.2.1]

theorem flushWith_settled (h : Fate base ctx) (hk : kind ≠ .final) (extra : List Byte) :
    Settled base (ctx.flushWith kind extra).2 := by
  have hm := flushWith_mute ctx kind extra
  cases h with
  | spoilt h =>
    refine .inl (spoilt_mute h hm fun hf => ?_)
    rw [flushWith_stuck hf]
    exact hf
  | unspoken hw hu =>
    cases hok : (ctx.flushWith kind extra).1 with
    | false => exact .inl (.inl (flushWith_failed hok))
    | true =>
      obtain ⟨hd, hs⟩ := flushWith_says hu hk (Prod.ext hok rfl)
      exact .inr ⟨hw.mute hm, hd, hs⟩
  | said hw hs => exact .inr ⟨hw.mute hm, _, flushWith_said hs kind extra⟩

theorem append_fate (h : Fate base ctx) {more : List Byte} (hm : more.length ≤ ctx.out.room) :
    Fate base { ctx with out := (ctx.out.copyTo ctx.out.at' more).advance more.length } := by
  cases h with
  | spoilt h => exact .spoilt h
  | unspoken hw hu =>
    obtain ⟨W, hu⟩ := hu
    exact .unspoken hw ⟨W ++ more, hu.append hm⟩
  | @said hd hw hs =>
    have hset : Settled base ctx := .inr ⟨hw, hd, hs⟩
    exact (hset.setOut _).fate

theorem writeLoop_fate (turns : Nat) (h : Fate base ctx) (src : List Byte) :
    Fate base (ctx.writeLoop turns src).2 := by
  induction turns generalizing ctx src with
  | zero => exact h
  | succ turns ih =>
    unfold writeLoop
    split
    · exact h
    split
    · have hk : FlushKind.full ≠ .final := by decide
      have hf := flushWith_settled h hk []
      unfold flush
      generalize ctx.flushWith .full [] = r at hf
      obtain ⟨ok, c⟩ := r
      cases ok with
      | false => exact hf.fate
      | true => exact ih hf.fate src
    · have hn : (src.take (min src.length ctx.out.room)).length = min src.length ctx.out.room := by
        rw [List.length_take]
        omega
      have ha := append_fate h (hn.le.trans (Nat.min_le_right _ _))
      rw [hn] at ha
      exact ih ha _

theorem write_fate (h : Fate base ctx) (data : List Byte) : Fate base (ctx.write data).2 := by
  unfold write
  split
  · exact h
  split
  · have hk : FlushKind.full ≠ .final := nofun
    exact (flushWith_settled h hk data).fate
  · exact writeLoop_fate _ h data

theorem reserveOp_fate (h : Fate base ctx) {n : Nat} {data : List Byte} (hd : data.length ≤ n) :
    Fate base (ctx.reserveOp n data) := by
  unfold reserveOp reserve
  by_cases hor : ctx.res.failed = true ∨ n > ctx.out.cap
  · rw [if_pos hor]
    exact h
  rw [if_neg hor]
  by_cases hroom : n > ctx.out.room
  · rw [if_pos hroom]
    have hk : FlushKind.full ≠ .final := nofun
    have hf := flushWith_settled h hk []
    unfold flush
    generalize ctx.flushWith .full [] = r at hf
    obtain ⟨ok, c⟩ := r
    cases ok with
    | false => exact hf.fate
    | true => exact (hf.setOut _).fate
  · rw [if_neg hroom]
    exact append_fate h (hd.trans (Nat.le_of_not_lt hroom))

theorem headOp_sent (h : ctx.res.headSent = true) {op : HeadOp} (hop : op ≠ .close) :
    ctx.headOp op = ctx ∨ ∃ status, ctx.headOp op =
      { ctx with res := { ctx.res with status := status } } := by
  cases op with
  | status status => exact .inr ⟨status, rfl⟩
  | header name value => exact .inl (by simp [headOp, Http.header, h])
  | contentType type => exact .inl (by simp [headOp, Http.contentType, h])
  | contentLength n => exact .inl (by simp [headOp, Http.contentLength, h])
  | close => exact absurd rfl hop
  | replyFilter filter => exact .inl (by simp [headOp, replyFilter, h])

theorem headOp_fate (h : Fate base ctx) {op : HeadOp} (hop : op ≠ .close) :
    Fate base (ctx.headOp op) := by
  have hm := headOp_mute ctx op
  cases h with
  | spoilt h => exact .spoilt (spoilt_mute h hm fun hf => (headOp_failed ctx op).1.trans hf)
  | unspoken hw hu =>
    obtain ⟨W, hu⟩ := hu
    have hh := headOp_held hu op fun _ _ => trivial
    have he : { ctx with headOnly := false }.headOp op =
        { ctx.headOp op with headOnly := false } := by
      cases op with
      | replyFilter filter =>
        simp only [headOp, replyFilter]
        split <;> rfl
      | _ => rfl
    refine .unspoken (hw.mute hm) ⟨W, ?_⟩
    rw [interim_congr (headOp_interim ctx op), ← he]
    exact hh
  | @said hd hw hs =>
    obtain ⟨h1, h2, h3⟩ : (ctx.headOp op).res.close = ctx.res.close ∧ Capped (ctx.headOp op) ∧
        (ctx.headOp op).res.hasLength = ctx.res.hasLength := by
      rcases headOp_sent hs.sent hop with he | ⟨status, he⟩
      · rw [he]
        exact ⟨rfl, hs.capped, rfl⟩
      · rw [he]
        exact ⟨rfl, hs.capped, rfl⟩
    exact .said (hw.mute hm) (hs.onward (headOp_onward hs.sent op) hm h1 h2 h3)

theorem setOnHead_fate (h : Fate base ctx) (fn : Nat → Bool → List HeadOp) :
    Fate base (ctx.setOnHead fn).2 := by
  unfold setOnHead
  split
  · exact h
  · rename_i hn
    cases h with
    | spoilt h => exact .spoilt h
    | unspoken hw hu =>
      obtain ⟨W, hu⟩ := hu
      exact .unspoken hw ⟨W, hu.setHooks hu.filter fun _ _ _ _ _ _ => trivial⟩
    | said hw hs => exact absurd hs.sent hn

theorem Said.heard (h : Said base hd ctx) (hh : Heard ctx ctx') : Said base hd ctx' := by
  have hdr (hc : ctx.res.close = false) (he : ctx'.bodyErr = 0) : Drainable ctx' :=
    (h.drainable hc (hh.same.err he).1).heard hh
  rw [hh.same.eq] at hdr ⊢
  exact ⟨h.sent, h.wire, h.closes, hdr, h.capped, h.plain⟩

theorem heard_fate (h : Fate base ctx) (hh : Heard ctx ctx') : Fate base ctx' := by
  have hi : ctx'.continueSent = ctx.continueSent := by rw [hh.same.eq]
  cases h with
  | spoilt h =>
    refine .spoilt (h.imp (fun hf => ?_) fun he he' => he (hh.same.err he').1)
    rw [hh.same.eq]
    exact hf
  | unspoken hw hu =>
    obtain ⟨W, h⟩ := hu
    refine .unspoken (hh.within hw) ⟨W, ?_⟩
    rw [interim_congr hi, hh.same.eq]
    exact ⟨⟨h.gear.live, rfl, h.gear.fit, h.gear.cap, h.gear.able, h.gear.codedFit,
      h.gear.codedCap, h.gear.codedAble, h.gear.codedEmpty, h.gear.head.congr rfl rfl rfl,
      h.gear.length⟩, h.unsent, h.whole, h.zero, h.wire, h.log, h.slab, h.filter, h.onHead⟩
  | said hw hs => exact .said (hh.within hw) (hs.heard hh)

theorem bodyBegin_fate (h : Fate base ctx) : Fate base ctx.bodyBegin.2 := by
  unfold bodyBegin
  split
  · exact h
  rename_i hn
  simp only [not_or, Bool.not_eq_true] at hn
  obtain ⟨-, hcont, hsent⟩ := hn
  have h100 : (str "HTTP/1.1 100 Continue\r\n\r\n").length < 2 ^ 31 := by decide
  cases h with
  | spoilt h =>
    dsimp only
    split
    · exact .spoilt h
    · have hgone : (-1 : Int) ≠ 0 := by decide
      exact .spoilt (.inr hgone)
  | unspoken hw hu =>
    obtain ⟨W, h⟩ := hu
    have ho := @Pipewriter.through_outcome ctx.out ctx.sock _ h.gear.able h100
    dsimp only
    generalize ctx.out.through ctx.sock (str "HTTP/1.1 100 Continue\r\n\r\n") = r at ho
    cases ho with
    | sent hd =>
      refine .unspoken hw ⟨W, ⟨h.gear.live, rfl, h.gear.fit, h.gear.cap, h.gear.able,
        h.gear.codedFit, h.gear.codedCap, h.gear.codedAble, h.gear.codedEmpty, h.gear.head,
        h.gear.length⟩, h.unsent, h.whole, h.zero, ?_, h.log, h.slab, h.filter, h.onHead⟩
      have hwire := h.wire
      simp only [interim, hcont, Bool.false_eq_true, if_false, List.append_nil] at hwire
      exact hd.wire.trans (congrArg (· ++ _) hwire)
    | cut hc =>
      have hgone : (-1 : Int) ≠ 0 := by decide
      exact .spoilt (.inr hgone)
  | said hw hs => exact absurd hs.sent (by simp [hsent])

theorem reads_fate (h : Fate base ctx) (hr : Reads ctx ctx') : Fate base ctx' := by
  rcases hr with hr | hr
  · exact heard_fate h hr
  · exact heard_fate (bodyBegin_fate h) hr

theorem step_fate (h : Fate base ctx) {op : HandlerOp} (hop : op ≠ .head .close) :
    Fate base (ctx.step op) := by
  cases op with
  | head op => exact headOp_fate h fun e => hop (congrArg _ e)
  | write data => exact write_fate h data
  | reserve n data hd => exact reserveOp_fate h hd
  | flush =>
    have hk : FlushKind.asked ≠ .final := nofun
    exact (flushWith_settled h hk []).fate
  | onHead fn => exact setOnHead_fate h fn
  | bodyAll => exact reads_fate h (bodyAll_reads ctx)
  | bodyReadUntil n => exact reads_fate h (bodyReadUntil_reads ctx n)
  | bodyReadNextChunk cap => exact reads_fate h (bodyReadNextChunk_reads ctx cap)
  | tick => exact heard_fate h (heard_feed ctx ctx.feed.tick)

theorem run_fate (h : Fate base ctx) {ops : List HandlerOp} (hops : ∀ op ∈ ops, op ≠ .head .close) :
    Fate base (ctx.run ops) := by
  induction ops generalizing ctx with
  | nil => exact h
  | cons op ops ih =>
    exact ih (step_fate h (hops op (List.mem_cons_self ..)))
      fun o ho => hops o (List.mem_cons_of_mem _ ho)

-- ---------------------------------------------------------------------------
-- The end of the request
-- ---------------------------------------------------------------------------

theorem init_fate {conn : Conn} {req : Request} (scratch : Scratch) (hw : Writable conn.out) :
    Fate conn.sock.wire (Ctx.init conn req scratch) := by
  refine .unspoken (fun hc => ⟨Nat.zero_le _, fun hd => ?_⟩) ⟨[], ?_⟩
  · have hn : ¬ req.contentLength = 0 := by
      intro h0
      have hc' : req.chunked = false := hc
      simp [Ctx.init, hc', h0] at hd
    exact Nat.pos_of_ne_zero hn
  · have hm : isHead (str "GET") = false := by decide
    have h := @init_held (fun _ => True) conn { req with method := str "GET" } scratch hw hm
    have hi : (Ctx.init conn req scratch).interim = [] := rfl
    rw [hi, List.append_nil]
    exact ⟨⟨h.gear.live, rfl, h.gear.fit, h.gear.cap, h.gear.able, h.gear.codedFit,
      h.gear.codedCap, h.gear.codedAble, h.gear.codedEmpty, h.gear.head, h.gear.length⟩, h.unsent,
      h.whole, h.zero, h.wire, h.log, h.slab, h.filter, h.onHead⟩

/-- Less of a body was sent than its head declared. -/
def FallsShort (ctx : Ctx) : Prop := ctx.res.hasLength = true ∧ ctx.noBody = false ∧
  ctx.res.bodySent < ctx.res.contentLength

theorem not_short (hb : Capped ctx) (hs : ¬ FallsShort ctx) : (ctx.res.hasLength && !ctx.noBody &&
    decide (ctx.res.bodySent ≠ ctx.res.contentLength)) = false := by
  by_contra hn
  simp only [Bool.not_eq_false, Bool.and_eq_true, Bool.not_eq_true', decide_eq_true_eq] at hn
  obtain ⟨⟨hl, hnb⟩, hne⟩ := hn
  exact hs ⟨hl, hnb, Nat.lt_of_le_of_ne (hb hl) hne⟩

structure Closed (base : List Byte) (hd : Head) (r : Bool × Ctx) : Prop where
  ok : r.1 = true
  wire : base ++ r.2.interim ++ hd.encode <+: r.2.sock.wire
  closes : Closes hd ↔ r.2.req.keepAlive = false ∨ r.2.res.close = true

theorem closed_of {c : Ctx} (hb : Capped c) (hw : base ++ c.interim ++ hd.encode <+: c.sock.wire)
    (hc : Closes hd ↔ c.req.keepAlive = false ∨ c.res.close = true)
    (hs : ¬ FallsShort { c with res := { c.res with close := c.res.close ||
      (c.res.hasLength && !c.noBody && decide (c.res.bodySent ≠ c.res.contentLength)) } }) :
    Closed base hd (true, { c with res := { c.res with close := c.res.close ||
      (c.res.hasLength && !c.noBody && decide (c.res.bodySent ≠ c.res.contentLength)) } }) := by
  have hn : ¬ FallsShort c := hs
  rw [not_short hb hn, Bool.or_false]
  exact ⟨rfl, hw, hc⟩

theorem finish_said (h : Said base hd ctx) (hf : ctx.finish.2.res.failed = false)
    (hs : ¬ FallsShort ctx.finish.2) : Closed base hd ctx.finish := by
  unfold finish at hf hs ⊢
  split at hf
  · rename_i hx
    simp [hx] at hf
  rename_i hx
  rw [if_neg hx] at hs ⊢
  split at hf
  rename_i ok c hlast
  have hsaid : Said base hd c ∧ (ok = false → c.res.failed = true) := by
    split at hlast
    · have hsd := flushWith_said h .final []
      have hfl := @flushWith_failed ctx .final []
      unfold flush at hlast
      rw [hlast] at hsd hfl
      exact ⟨hsd, hfl⟩
    split at hlast
    · split at hlast
      · obtain ⟨rfl, rfl⟩ := Prod.mk.inj hlast
        exact ⟨⟨h.sent, h.wire, h.closes, h.drainable, h.capped, h.plain⟩, fun _ => rfl⟩
      · rename_i pw _
        have hg := Pipewriter.flushWith_grows pw ctx.sock []
        dsimp only at hlast
        split at hlast
        · obtain ⟨rfl, rfl⟩ := Prod.mk.inj hlast
          exact ⟨⟨h.sent, h.wire.trans hg, h.closes, h.drainable, h.capped, h.plain⟩, nofun⟩
        · obtain ⟨rfl, rfl⟩ := Prod.mk.inj hlast
          exact ⟨⟨h.sent, h.wire.trans hg, h.closes, h.drainable, h.capped, h.plain⟩, fun _ => rfl⟩
    · obtain ⟨rfl, rfl⟩ := Prod.mk.inj hlast
      exact ⟨h, nofun⟩
  rw [hlast] at hs
  obtain ⟨hsd, hfl⟩ := hsaid
  cases ok with
  | false =>
    have := hfl rfl
    simp [this] at hf
  | true => exact closed_of hsd.capped hsd.wire hsd.closes hs

theorem finish_unspoken (h : Unspoken (base ++ ctx.interim) ctx)
    (hf : ctx.finish.2.res.failed = false) (hs : ¬ FallsShort ctx.finish.2) :
    ∃ hd : Head, Closed base hd ctx.finish := by
  obtain ⟨hlive, hsent⟩ := h.live
  unfold finish at hf hs ⊢
  rw [if_neg (by simp [hlive]), if_pos (.inl (by simp [hsent]))] at hf hs ⊢
  cases hok : (ctx.flush .final).1 with
  | false =>
    have hx : (ctx.flush .final).2.res.failed = true := flushWith_failed hok
    simp [hok, hx] at hf
  | true =>
    have hr : ctx.flushWith .final [] = (true, (ctx.flush .final).2) := Prod.ext hok rfl
    obtain ⟨hd, hb, hhead⟩ := flushWith_built h hr
    have hm : Mute ctx (ctx.flush .final).2 := flushWith_mute ctx .final []
    have hmc := callOnHead_mute ctx (decide (FlushKind.final = .final))
    have hi := hb.interim.trans (callOnHead_interim ctx (decide (FlushKind.final = .final)))
    have hcl := hb.closes hhead
    rw [hmc.fields.2.1, ← hm.fields.2.1] at hcl
    have hwire := hb.wire
    rw [← interim_congr hi] at hwire
    have hbd := hb.capped
    refine ⟨hd, ?_⟩
    generalize ctx.flush .final = r at hok hs hcl hwire hbd
    obtain ⟨ok, c⟩ := r
    obtain rfl : ok = true := hok
    exact closed_of hbd hwire hcl hs

theorem settleBody_done (h : ctx.bodyDone = true) : ctx.settleBody = ctx := by
  unfold settleBody
  rw [if_neg (by simp [h])]
  unfold drainBody drainLoop
  rw [if_pos (.inl h)]

theorem Unspoken.settle (h : Unspoken base ctx) : Unspoken base ctx.settleBody := by
  obtain ⟨W, h⟩ := h
  have hd := settleBody_deaf ctx
  refine ⟨W, ?_⟩
  rw [hd.eq]
  exact h.setBody _ _ _ _ _ _ _

theorem settleBody_interim (ctx : Ctx) : ctx.settleBody.interim = ctx.interim := by
  rw [(settleBody_deaf ctx).eq]
  rfl

/-- A connection that will be closed is not promised anything by the drain. -/
theorem Said.settle (h : Said base hd ctx) (hw : Within ctx) (he : ctx.bodyErr = 0) :
    Said base hd ctx.settleBody := by
  cases hc : ctx.res.close with
  | false => exact h.heard (settleBody_heard (h.drainable hc he) hw)
  | true =>
    have hdf := settleBody_deaf ctx
    have hc' := hdf.close hc
    have hcl : Closes hd ↔ ctx.req.keepAlive = false ∨ ctx.settleBody.res.close = true := by
      rw [h.closes, hc, hc']
    rw [hdf.eq] at hc' hcl ⊢
    exact ⟨h.sent, h.wire, hcl, fun hn => absurd hc' (by rw [hn]; decide), h.capped, h.plain⟩

theorem Said.drained (h : Said base hd ctx) (hw : Within ctx) (he : ctx.bodyErr = 0) :
    ctx.settleBody.bodyRead - ctx.bodyRead ≤ drainMax ∨ Closes hd := by
  cases hc : ctx.res.close with
  | true => exact .inr (h.closes.mpr (.inr hc))
  | false =>
    have hdr := h.drainable hc he
    have hh := settleBody_heard hdr hw
    rcases hdr with hd | ⟨hch, hl, -⟩
    · rw [settleBody_done hd]
      exact .inl (by omega)
    · have hin := (hh.within hw (hh.same.chunked.trans hch)).1
      rw [hh.same.contentLength] at hin
      exact .inl (by omega)

/-- The head says `connection: close` if and only if the engine closes behind
the reply. A body that is left when the head goes out is drained within the
limit or announced, and so is an interim reply that was never sent. -/
theorem connection_line {conn : Conn} {req : Request} (scratch : Scratch) {ops : List HandlerOp}
    (hw : Writable conn.out) (hops : ∀ op ∈ ops, op ≠ .head .close)
    {ctx ctx' : Ctx} {goesOn : Bool} (hctx : (Ctx.init conn req scratch).run ops = ctx)
    (hr : ctx.afterDispatch = (goesOn, ctx')) (he : ctx'.bodyErr = 0)
    (hf : ctx'.res.failed = false) (hs : ¬ FallsShort ctx') :
    ∃ hd : Head, conn.sock.wire ++ ctx'.interim ++ hd.encode <+: ctx'.sock.wire ∧
      (Closes hd ↔ goesOn = false) ∧
      (ctx.res.headSent = true → ctx'.bodyRead - ctx.bodyRead ≤ drainMax ∨ Closes hd) ∧
      (ctx.req.expectContinue = true → ctx.continueSent = false → ctx.bodyDone = false →
        Closes hd) := by
  have hfate := run_fate (@init_fate conn req scratch hw) hops
  rw [hctx] at hfate
  unfold afterDispatch at hr
  split at hr
  · -- a body error is left as it is
    rename_i hne
    obtain ⟨-, rfl⟩ := Prod.mk.inj hr
    split at he
    · rw [(sendStatus_mute ctx _).fields.2.2.2.2.2.1] at he
      exact absurd he hne
    · exact absurd he hne
  rename_i hz
  rw [not_not] at hz
  dsimp only at hr
  split at hr
  · obtain ⟨-, rfl⟩ := Prod.mk.inj hr
    contradiction
  obtain ⟨hgo, rfl⟩ := Prod.mk.inj hr
  have hm := finish_mute ctx.settleBody
  have hexp (hx : ctx.req.expectContinue = true) (hc : ctx.continueSent = false)
      (hd : ctx.bodyDone = false) : ctx.settleBody.finish.2.res.close = true := by
    refine hm.close ?_
    unfold settleBody
    rw [if_pos ⟨hx, by simp [hc], by simp [hd]⟩]
  have hend {hd : Head} (h : Closed conn.sock.wire hd ctx.settleBody.finish)
      (hdr : ctx.res.headSent = true → ctx.settleBody.bodyRead - ctx.bodyRead ≤ drainMax ∨ Closes hd) :
      conn.sock.wire ++ ctx.settleBody.finish.2.interim ++ hd.encode <+:
          ctx.settleBody.finish.2.sock.wire ∧ (Closes hd ↔ goesOn = false) ∧
        (ctx.res.headSent = true → ctx.settleBody.finish.2.bodyRead - ctx.bodyRead ≤ drainMax ∨
          Closes hd) ∧
        (ctx.req.expectContinue = true → ctx.continueSent = false → ctx.bodyDone = false →
          Closes hd) := by
    refine ⟨h.wire, ?_, ?_, fun hx hc hd => h.closes.mpr (.inr (hexp hx hc hd))⟩
    · rw [h.closes, ← hgo, h.ok]
      cases ctx.settleBody.finish.2.req.keepAlive <;> cases ctx.settleBody.finish.2.res.close <;> simp
    · rw [hm.fields.2.2.1]
      exact hdr
  cases hfate with
  | spoilt h =>
    rcases h with h | h
    · have hx : ctx.settleBody.res.failed = true := by
        rw [(settleBody_deaf ctx).eq]
        exact h
      unfold finish at hf
      rw [if_pos hx] at hf
      rw [hx] at hf
      cases hf
    · exact absurd hz h
  | unspoken hwi hu =>
    have hu' := hu.settle
    rw [← settleBody_interim ctx] at hu'
    obtain ⟨hd, hc⟩ := finish_unspoken hu' hf hs
    exact ⟨hd, hend hc fun hx => by rw [hu.live.2] at hx; cases hx⟩
  | @said hd hwi hsd =>
    have hc := finish_said (hsd.settle hwi hz) hf hs
    exact ⟨hd, hend hc fun _ => hsd.drained hwi hz⟩

def leftConn : Conn := { idleConn with feed := .init zeros 256 (fun _ => zeros) [.deliver 0 (str "ab")] }

def leftRequest : Request :=
  { Request.parsed ⟨str "POST", str "/", 1, []⟩ with contentLength := 2, keepAlive := true }

def leftCtx : Ctx :=
  (Ctx.init leftConn leftRequest ⟨zeros, zeros, zeros⟩).run [.write (str "hi"), .flush]

theorem connection_line_left : leftCtx.bodyRead = 0 ∧ leftCtx.afterDispatch.2.bodyRead = 2 ∧
    ∃ hd : Head, hd.encode <+: leftCtx.afterDispatch.2.sock.wire ∧ ¬ Closes hd := by
  refine ⟨by decide +kernel, by decide +kernel, ?_⟩
  have hw : Writable leftConn.out := ⟨rfl, rfl, rfl, rfl⟩
  have hops : ∀ op ∈ [HandlerOp.write (str "hi"), .flush], op ≠ .head .close := by
    intro op hop
    rcases List.mem_cons.mp hop with rfl | hop
    · exact nofun
    · obtain rfl := List.mem_singleton.mp hop
      exact nofun
  have hgo : leftCtx.afterDispatch.1 = true := by decide +kernel
  have hs : ¬ FallsShort leftCtx.afterDispatch.2 := by
    have hl : leftCtx.afterDispatch.2.res.hasLength = false := by decide +kernel
    rintro ⟨h, -⟩
    rw [hl] at h
    cases h
  obtain ⟨hd, hp, hc, -⟩ := connection_line ⟨zeros, zeros, zeros⟩ hw hops rfl
    (Prod.ext hgo rfl) (by decide +kernel) (by decide +kernel) hs
  have hi : leftConn.sock.wire ++ leftCtx.afterDispatch.2.interim = [] := by decide +kernel
  refine ⟨hd, ?_, fun h => by cases hc.mp h⟩
  have hp' : leftConn.sock.wire ++ leftCtx.afterDispatch.2.interim ++ hd.encode <+:
      leftCtx.afterDispatch.2.sock.wire := hp
  rwa [hi] at hp'

end Ctx

end Ioxd.Http
