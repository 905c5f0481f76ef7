import Ioxd.Http.HeadOut

/-!
# HEAD answers with GET's head

The same calls on the same connection, once for HEAD and once for another
method. Until the head goes out the two contexts differ in the method alone;
the flush that sends it serializes the same bytes in both, although one then
drops what was written and the other sends it.
-/

namespace Ioxd.Http

open Flat
open Ioxd.Pipe
open Message (Head)

namespace Ctx

variable {ctx ctx' : Ctx} {base W : List Byte} {kind : FlushKind}

def asHead (ctx : Ctx) : Ctx :=
  { ctx with headOnly := true, req := { ctx.req with method := str "HEAD" } }

-- ---------------------------------------------------------------------------
-- Reading does not look at the method
-- ---------------------------------------------------------------------------

theorem bodyBytes_asHead (ctx : Ctx) :
    ctx.asHead.bodyBytes = (ctx.bodyBytes.1, ctx.bodyBytes.2.asHead) := by
  have hf : ctx.asHead.feed = ctx.feed := rfl
  unfold bodyBytes
  rw [hf]
  obtain ⟨rc, feed⟩ := ctx.feed.read
  rcases rc with _ | _ | (_ | _) <;> rfl

theorem scan_asHead (test : List Byte → Option α) (turns : Nat) (ctx : Ctx) :
    scan test turns ctx.asHead = ((scan test turns ctx).1, (scan test turns ctx).2.asHead) := by
  induction turns generalizing ctx with
  | zero => rfl
  | succ turns ih =>
    unfold scan
    rw [bodyBytes_asHead]
    obtain ⟨ok, c⟩ := ctx.bodyBytes
    cases ok with
    | false => rfl
    | true =>
      have hl : c.asHead.feed.live = c.feed.live := rfl
      dsimp only
      rw [hl]
      cases test c.feed.live with
      | some a => rfl
      | none => exact ih { c with feed := c.feed.examine c.feed.live.length }

theorem bodyLine_asHead (ctx : Ctx) :
    ctx.asHead.bodyLine = (ctx.bodyLine.1, ctx.bodyLine.2.asHead) := scan_asHead _ _ ctx

theorem chunkTrailersLoop_asHead (turns taken : Nat) (ctx : Ctx) :
    chunkTrailersLoop turns taken ctx.asHead =
      ((chunkTrailersLoop turns taken ctx).1, (chunkTrailersLoop turns taken ctx).2.asHead) := by
  induction turns generalizing taken ctx with
  | zero => rfl
  | succ turns ih =>
    unfold chunkTrailersLoop
    rw [bodyLine_asHead]
    obtain ⟨len, c⟩ := ctx.bodyLine
    cases len with
    | none => rfl
    | some len =>
      dsimp only
      split
      · rfl
      split
      · rfl
      · exact ih _ (c.dropBytes (len + 2))

theorem chunkHeader_asHead (ctx : Ctx) :
    ctx.asHead.chunkHeader = (ctx.chunkHeader.1, ctx.chunkHeader.2.asHead) := by
  unfold chunkHeader
  rw [bodyLine_asHead]
  obtain ⟨len, c⟩ := ctx.bodyLine
  cases len with
  | none =>
    have he : c.asHead.bodyErr = c.bodyErr := rfl
    dsimp only
    rw [he]
    split <;> rfl
  | some len =>
    have hl : c.asHead.feed.live = c.feed.live := rfl
    dsimp only
    rw [hl]
    cases sizeLine (c.feed.live.take len) with
    | none => rfl
    | some size =>
      dsimp only
      split
      · exact chunkTrailersLoop_asHead _ _ (c.dropBytes (len + 2))
      · rfl

theorem chunkEnd_asHead (ctx : Ctx) :
    ctx.asHead.chunkEnd = (ctx.chunkEnd.1, ctx.chunkEnd.2.asHead) := by
  have hf : ctx.asHead.feed = ctx.feed := rfl
  unfold chunkEnd
  rw [hf, scan_asHead]
  obtain ⟨two, c⟩ := scan firstTwo (ctx.feed.left + 2) ctx
  cases two with
  | none => rfl
  | some two =>
    dsimp only
    split <;> rfl

theorem readTurn_asHead (ctx : Ctx) (n : Nat) :
    ctx.asHead.readTurn n = ((ctx.readTurn n).1, (ctx.readTurn n).2.asHead) := by
  have hf : ctx.asHead.feed = ctx.feed := rfl
  have hc : ctx.asHead.req.chunked = ctx.req.chunked := rfl
  have hl : ctx.asHead.chunkLeft = ctx.chunkLeft := rfl
  have hn : ctx.asHead.req.contentLength - ctx.asHead.bodyRead =
      ctx.req.contentLength - ctx.bodyRead := rfl
  unfold readTurn
  rw [hc, hl]
  split
  · unfold fixedData
    rw [hf, hn]
    dsimp only
    obtain ⟨rc, data, feed⟩ := ctx.feed.copy (min n (ctx.req.contentLength - ctx.bodyRead))
    rcases rc with _ | _ | _ <;> rfl
  split
  · rw [chunkHeader_asHead]
    obtain ⟨ok, c⟩ := ctx.chunkHeader
    cases ok <;> rfl
  · unfold chunkData
    rw [hf, hl]
    dsimp only
    obtain ⟨rc, data, feed⟩ := ctx.feed.copy (min n ctx.chunkLeft)
    rcases rc with _ | _ | _
    · dsimp only
      split
      · have he := chunkEnd_asHead { ctx with
          feed := feed
          chunkLeft := ctx.chunkLeft - data.length
          bodyRead := ctx.bodyRead + data.length }
        exact congrArg (fun r => (some data, r.2)) he
      · rfl
    · rfl
    · rfl

theorem readUntilLoop_asHead (turns : Nat) (ctx : Ctx) (n : Nat) (dst : List Byte) :
    readUntilLoop turns ctx.asHead n dst = ((readUntilLoop turns ctx n dst).1,
      (readUntilLoop turns ctx n dst).2.1, (readUntilLoop turns ctx n dst).2.2.asHead) := by
  induction turns generalizing ctx dst with
  | zero => rfl
  | succ turns ih =>
    have hd : ctx.asHead.bodyDone = ctx.bodyDone := rfl
    unfold readUntilLoop
    rw [readTurn_asHead, hd]
    split
    · obtain ⟨data, c⟩ := ctx.readTurn (n - dst.length)
      cases data with
      | none => rfl
      | some data => exact ih c _
    · rfl

theorem bodyReadUntil_asHead (h : Begun ctx) (n : Nat) :
    ctx.asHead.bodyReadUntil n = ((ctx.bodyReadUntil n).1, (ctx.bodyReadUntil n).2.1,
      (ctx.bodyReadUntil n).2.2.asHead) := by
  have he : ctx.asHead.bodyErr = ctx.bodyErr := rfl
  have hd : ctx.asHead.bodyDone = ctx.bodyDone := rfl
  have hf : ctx.asHead.feed = ctx.feed := rfl
  have hb : Begun ctx.asHead := h
  unfold bodyReadUntil
  rw [bodyBegin_begun h, bodyBegin_begun hb, he, hd]
  split
  · rfl
  split
  · rfl
  · dsimp only
    rw [hf, readUntilLoop_asHead]

theorem drainLoop_asHead (turns : Nat) (h : Begun ctx) (drained : Nat) :
    drainLoop turns ctx.asHead drained = (drainLoop turns ctx drained).asHead := by
  induction turns generalizing ctx drained with
  | zero => rfl
  | succ turns ih =>
    have he : ctx.asHead.bodyErr = ctx.bodyErr := rfl
    have hd : ctx.asHead.bodyDone = ctx.bodyDone := rfl
    have hr := bodyReadUntil_deaf h 4096
    unfold drainLoop
    rw [bodyReadUntil_asHead h, he, hd]
    split
    · rfl
    split
    · rfl
    · dsimp only
      split
      · rfl
      · exact ih (h.of_deaf hr) _

theorem settleBody_asHead (ctx : Ctx) : ctx.asHead.settleBody = ctx.settleBody.asHead := by
  have he : ctx.asHead.req.expectContinue = ctx.req.expectContinue := rfl
  have hs : ctx.asHead.continueSent = ctx.continueSent := rfl
  have hd : ctx.asHead.bodyDone = ctx.bodyDone := rfl
  have hf : ctx.asHead.feed = ctx.feed := rfl
  unfold settleBody
  rw [he, hs, hd]
  split
  · rfl
  · rename_i hn
    unfold drainBody
    rw [hf]
    by_cases hdone : ctx.bodyDone = true
    · have hdone' : ctx.asHead.bodyDone = true := hdone
      unfold drainLoop
      rw [if_pos (.inl hdone), if_pos (.inl hdone')]
    · refine drainLoop_asHead _ ?_ 0
      by_cases hx : ctx.req.expectContinue = true
      · refine .inr (.inl ?_)
        by_contra hc
        exact hn ⟨hx, by simpa using hc, by simpa using hdone⟩
      · exact .inl (by simpa using hx)

-- ---------------------------------------------------------------------------
-- The head on the wire
-- ---------------------------------------------------------------------------

/-- The head of the reply is out, or a send has failed in the middle of it. -/
def Opened (sock : Socket) (hd : Head) (ctx : Ctx) : Prop :=
  (ctx.res.headSent = true ∧ sock.wire ++ hd.encode <+: ctx.sock.wire) ∨
    (ctx.res.failed = true ∧ ¬ sock.Sound ∧ ctx.sock.wire <+: sock.wire ++ hd.encode)

/-- Bytes that start with the head, or a part of them in front of a failure. -/
theorem opened_cut {sock : Socket} {hd : Head} {rest : List Byte} (hs : ctx.res.headSent = true)
    (hf : ctx.res.failed = true) (h : sock.Cut ctx.sock (hd.encode ++ rest)) :
    Opened sock hd ctx := by
  obtain ⟨⟨t, ht, hw⟩, hu⟩ := h
  rcases List.prefix_or_prefix_of_prefix ht (List.prefix_append hd.encode rest) with h | h
  · exact .inr ⟨hf, hu, hw ▸ (List.prefix_append_right_inj _).mpr h⟩
  · exact .inl ⟨hs, hw ▸ (List.prefix_append_right_inj _).mpr h⟩

theorem opened_done {sock : Socket} {hd : Head} {rest : List Byte} (hs : ctx.res.headSent = true)
    (h : sock.Done ctx.sock (hd.encode ++ rest)) : Opened sock hd ctx :=
  .inl ⟨hs, by rw [h.wire, ← List.append_assoc]; exact List.prefix_append ..⟩

theorem sendFrame_opened {final coding : Bool} {hd : Head} {extra : List Byte}
    (hs : ctx.res.headSent = true) (hf : Fit (ctx.sw coding)) (ha : (ctx.sw coding).failed = false)
    (hd' : hd.encode.length < 2 ^ 31) :
    Opened ctx.sock hd (ctx.sendFrame final coding hd.encode extra).2 := by
  have ho := sendFrame_outcome hf ha hd' final extra
  have hfr : ctx.frame final coding hd.encode extra = hd.encode ++
      (spanOf ctx.res.chunked final (ctx.slabLeft coding) ++ ctx.extraLeft coding extra) := by
    rw [frame, List.append_assoc]
  generalize ctx.sendFrame final coding hd.encode extra = r at ho
  cases ho with
  | sent _ _ _ _ hdone => exact opened_done hs (hfr ▸ hdone)
  | overrun _ _ _ _ hdone => exact opened_done hs (hfr ▸ hdone)
  | wrapped _ _ hdone => exact opened_done hs (hfr ▸ hdone)
  | cut _ hcut => exact opened_cut hs rfl (hfr ▸ hcut)

theorem sendBodyless_opened {hd : Head} (hs : ctx.res.headSent = true)
    (ha : ctx.out.failed = false) (hd' : hd.encode.length < 2 ^ 31) :
    Opened ctx.sock hd (ctx.sendBodyless hd.encode).2 := by
  have ho := @Pipewriter.through_outcome ctx.out.reset ctx.sock hd.encode ha hd'
  have hne : hd.encode ≠ [] := by simp [Head.encode, Message.encodeLines]
  unfold sendBodyless
  dsimp only
  rw [if_neg hne]
  generalize ctx.out.reset.through ctx.sock hd.encode = r at ho
  cases ho with
  | sent hdone => exact opened_done hs ((List.append_nil hd.encode).symm ▸ hdone)
  | cut hcut => exact opened_cut hs rfl ((List.append_nil hd.encode).symm ▸ hcut)

theorem flushWith_bare (hl : ctx.res.failed = false) (hs : ctx.res.headSent = false)
    (hf : ctx.filter = none) (ho : ctx.onHead = none) (kind : FlushKind) (extra : List Byte) :
    ctx.flushWith kind extra =
      behindHead kind false false extra (ctx.startHead (kind = .final) false) := by
  rw [flushWith_eq hl]
  have hc : ctx.callOnHead (kind = .final) = ctx := by
    unfold callOnHead
    rw [ho]
  rw [hc]
  simp only [flushHead, hf, hs, Option.isSome_none, Bool.false_and, Bool.false_eq_true, false_and,
    if_false]
  rfl

theorem startHead_asHead {final : Bool}
    (hn : final = true → ctx.res.hasLength = true → ctx.res.contentLength = ctx.out.len) :
    (ctx.asHead.startHead final false).1 = (ctx.startHead final false).1 := by
  have hlen : ctx.asHead.headLength final false = ctx.headLength final false := by
    have hd : ctx.asHead.declares final = ctx.res.hasLength := by
      show (ctx.res.hasLength && (!final || (true || _))) = _
      simp
    unfold headLength
    rw [hd]
    show (if ctx.res.hasLength = true then ctx.res.contentLength else ctx.out.len) = _
    cases hl : ctx.res.hasLength with
    | false => simp [declares, hl, sw]
    | true =>
      rw [if_pos rfl]
      split
      · rfl
      · rename_i hdec
        have hf : final = true := by
          cases final with
          | true => rfl
          | false => simp [declares, hl] at hdec
        exact hn hf hl
  rw [startHead_fst, startHead_fst, hlen]
  rfl

theorem flushWith_opened (h : Held (fun _ => False) base W ctx) (ho : ctx.onHead = none)
    (hn : kind = .final → ctx.res.hasLength = true → ctx.res.contentLength = ctx.out.len)
    (extra : List Byte) : ∃ hd : Head, Opened ctx.sock hd (ctx.flushWith kind extra).2 ∧
      Opened ctx.sock hd (ctx.asHead.flushWith kind extra).2 := by
  have hf : ctx.filter = none := by
    cases hf : ctx.filter with
    | none => rfl
    | some F => exact (h.filter F hf).elim
  have hcap : ctx.out.len ≤ sizeMax := (h.gear.fit.ok.len.trans h.gear.cap.le).trans (by decide)
  have hlen (c : Ctx) (hr : c.res = ctx.res) (hc : c.out = ctx.out) (final : Bool) :
      c.headLength final false ≤ sizeMax := by
    unfold headLength
    split
    · rw [hr]
      exact h.gear.length
    · show c.out.len ≤ sizeMax
      rw [hc]
      exact hcap
  obtain ⟨hd, hstart, -, -, hshort⟩ :=
    startHead_spec h.gear.head (hlen ctx rfl rfl (decide (kind = .final)))
  have hok : HeadOk ctx.asHead.res := h.gear.head
  obtain ⟨hd', hstart', -, -, -⟩ :=
    startHead_spec hok (hlen ctx.asHead rfl rfl (decide (kind = .final)))
  have hsame : hd'.encode = hd.encode := by
    have he := @startHead_asHead ctx (decide (kind = .final)) fun hk => hn (of_decide_eq_true hk)
    rw [hstart, hstart'] at he
    exact Option.some.inj he
  refine ⟨hd, ?_, ?_⟩
  · rw [flushWith_bare h.gear.live h.unsent hf ho, hstart]
    dsimp only [behindHead]
    unfold flushBody
    split
    · exact @sendBodyless_opened (ctx.headed _ false) _ rfl h.gear.able hshort
    · rw [if_neg (by simp)]
      exact @sendFrame_opened (ctx.headed _ false) _ false _ _ rfl h.gear.fit h.gear.able hshort
  · have hl : ctx.asHead.res.failed = false := h.gear.live
    have hs : ctx.asHead.res.headSent = false := h.unsent
    rw [flushWith_bare hl hs hf ho, hstart', hsame]
    dsimp only [behindHead]
    have hnb : (ctx.asHead.headed (decide (kind = .final)) false).noBody = true := rfl
    unfold flushBody
    rw [if_pos hnb]
    exact @sendBodyless_opened (ctx.asHead.headed _ false) _ rfl h.gear.able hshort

theorem Opened.step {sock : Socket} {hd : Head} (h : Opened sock hd ctx) {op : HandlerOp}
    (hr : op.Replies) : Opened sock hd (ctx.step op) := by
  rcases h with ⟨hs, hp⟩ | ⟨hf, hu, hp⟩
  · have ho : Onward ctx (ctx.step op) := by
      cases op with
      | head op => exact headOp_onward hs op
      | write data => exact write_onward hs data
      | reserve n data hd => exact reserveOp_onward hs n data
      | flush => exact flushWith_onward hs .asked []
      | onHead fn =>
        show Onward ctx (ctx.setOnHead fn).2
        unfold setOnHead
        rw [if_pos hs]
        exact .refl ctx
      | bodyAll => exact absurd hr id
      | bodyReadUntil n => exact absurd hr id
      | bodyReadNextChunk cap => exact absurd hr id
      | tick => exact absurd hr id
    exact .inl ⟨ho.sent.trans hs, hp.trans ho.wire⟩
  · have hst : (ctx.step op).res.failed = true ∧ (ctx.step op).sock = ctx.sock := by
      cases op with
      | head op =>
        obtain ⟨h1, h2⟩ := headOp_failed ctx op
        exact ⟨h1.trans hf, h2⟩
      | write data =>
        show (ctx.write data).2.res.failed = true ∧ (ctx.write data).2.sock = ctx.sock
        unfold write
        rw [if_pos hf]
        exact ⟨hf, rfl⟩
      | reserve n data hd =>
        show (ctx.reserveOp n data).res.failed = true ∧ (ctx.reserveOp n data).sock = ctx.sock
        unfold reserveOp reserve
        rw [if_pos (.inl hf)]
        exact ⟨hf, rfl⟩
      | flush =>
        show (ctx.flush .asked).2.res.failed = true ∧ (ctx.flush .asked).2.sock = ctx.sock
        unfold flush
        rw [flushWith_stuck hf]
        exact ⟨hf, rfl⟩
      | onHead fn =>
        show (ctx.setOnHead fn).2.res.failed = true ∧ (ctx.setOnHead fn).2.sock = ctx.sock
        unfold setOnHead
        split <;> exact ⟨hf, rfl⟩
      | bodyAll => exact absurd hr id
      | bodyReadUntil n => exact absurd hr id
      | bodyReadNextChunk cap => exact absurd hr id
      | tick => exact absurd hr id
    exact .inr ⟨hst.1, hu, hst.2 ▸ hp⟩

theorem Opened.settle {sock : Socket} {hd : Head} (h : Opened sock hd ctx) :
    Opened sock hd ctx.settleBody := by
  rw [(settleBody_deaf ctx).eq]
  exact h

theorem Opened.finish {sock : Socket} {hd : Head} (h : Opened sock hd ctx) :
    Opened sock hd ctx.finish.2 := by
  rcases h with ⟨hs, hp⟩ | ⟨hf, hu, hp⟩
  · have ho := finish_onward hs
    exact .inl ⟨ho.sent.trans hs, hp.trans ho.wire⟩
  · unfold Ctx.finish
    rw [if_pos hf]
    exact .inr ⟨hf, hu, hp⟩

-- ---------------------------------------------------------------------------
-- The two runs
-- ---------------------------------------------------------------------------

/-- The two contexts of the two runs: the same but for the method, or with the
same head out. -/
inductive Abreast (sock : Socket) (W : List Byte) : Ctx → Ctx → Prop
  | held {ctx : Ctx} : Held (fun _ => False) sock.wire W ctx → ctx.onHead = none →
      ctx.sock = sock → Abreast sock W ctx ctx.asHead
  | opened {hd : Head} {get head : Ctx} : Opened sock hd get → Opened sock hd head →
      Abreast sock W get head

variable {sock : Socket} {get head : Ctx}

theorem flushWith_abreast (h : Held (fun _ => False) sock.wire W ctx) (ho : ctx.onHead = none)
    (hs : ctx.sock = sock) (hk : kind ≠ .final) (extra : List Byte) (W' : List Byte) :
    Abreast sock W' (ctx.flushWith kind extra).2 (ctx.asHead.flushWith kind extra).2 := by
  subst hs
  obtain ⟨hd, h1, h2⟩ := flushWith_opened h ho (fun e => absurd e hk) extra
  exact .opened h1 h2

theorem writeLoop_opened {hd : Head} (h : Opened sock hd ctx) (turns : Nat) (src : List Byte) :
    Opened sock hd (ctx.writeLoop turns src).2 := by
  rcases h with ⟨hs, hp⟩ | ⟨hf, hu, hp⟩
  · have ho := writeLoop_onward turns hs src
    exact .inl ⟨ho.sent.trans hs, hp.trans ho.wire⟩
  · obtain ⟨h1, h2⟩ := writeLoop_stuck turns hf src
    exact .inr ⟨h1, hu, h2 ▸ hp⟩

theorem writeLoop_abreast {turns : Nat} {src : List Byte}
    (h : Held (fun _ => False) sock.wire W ctx) (ho : ctx.onHead = none) (hs : ctx.sock = sock)
    (ht : 2 * src.length ≤ turns) :
    Abreast sock (W ++ src) (ctx.writeLoop turns src).2 (ctx.asHead.writeLoop turns src).2 := by
  induction turns generalizing ctx W src with
  | zero =>
    obtain rfl : src = [] := List.length_eq_zero_iff.mp (by omega)
    rw [List.append_nil]
    exact .held h ho hs
  | succ turns ih =>
    have hout : ctx.asHead.out = ctx.out := rfl
    unfold writeLoop
    rw [hout]
    split
    · rename_i he
      rw [he, List.append_nil]
      exact .held h ho hs
    split
    · have hk : FlushKind.full ≠ .final := by decide
      subst hs
      obtain ⟨hd, h1, h2⟩ := flushWith_opened h ho (fun e => absurd e hk) []
      unfold flush
      generalize ctx.flushWith .full [] = r at h1
      generalize ctx.asHead.flushWith .full [] = r' at h2
      obtain ⟨ok, c⟩ := r
      obtain ⟨ok', c'⟩ := r'
      refine @Abreast.opened _ _ hd _ _ ?_ ?_
      · cases ok with
        | false => exact h1
        | true => exact writeLoop_opened h1 turns src
      · cases ok' with
        | false => exact h2
        | true => exact writeLoop_opened h2 turns src
    · rename_i hne hroom
      have hpos : 0 < src.length := List.length_pos_iff.mpr hne
      have hn : (src.take (min src.length ctx.out.room)).length = min src.length ctx.out.room := by
        rw [List.length_take]
        omega
      have hle : (src.take (min src.length ctx.out.room)).length ≤ ctx.out.room := by omega
      have ha := h.append hle
      rw [hn] at ha
      have hd : (src.drop (min src.length ctx.out.room)).length =
          src.length - min src.length ctx.out.room := List.length_drop
      have ht' : 2 * (src.drop (min src.length ctx.out.room)).length ≤ turns := by omega
      have hi := ih ha ho hs ht'
      rw [List.append_assoc, List.take_append_drop] at hi
      exact hi

theorem write_abreast (h : Held (fun _ => False) sock.wire W ctx) (ho : ctx.onHead = none)
    (hs : ctx.sock = sock) (data : List Byte) :
    Abreast sock (W ++ data) (ctx.write data).2 (ctx.asHead.write data).2 := by
  have hout : ctx.asHead.out = ctx.out := rfl
  have hfail : ctx.asHead.res.failed = ctx.res.failed := rfl
  have hraw : ctx.asHead.rawFramed = ctx.rawFramed := rfl
  unfold write
  rw [hout, hfail, hraw]
  split
  · rename_i hf
    simp [h.gear.live] at hf
  split
  · have hk : FlushKind.full ≠ .final := nofun
    exact flushWith_abreast h ho hs hk data _
  · exact writeLoop_abreast h ho hs (by omega)

theorem reserveOp_abreast (h : Held (fun _ => False) sock.wire W ctx) (ho : ctx.onHead = none)
    (hs : ctx.sock = sock) {n : Nat} {data : List Byte} (hd : data.length ≤ n) :
    Abreast sock (W ++ (if n ≤ pipeCap then data else [])) (ctx.reserveOp n data)
      (ctx.asHead.reserveOp n data) := by
  have hout : ctx.asHead.out = ctx.out := rfl
  have hfail : ctx.asHead.res.failed = ctx.res.failed := rfl
  unfold reserveOp reserve
  rw [hout, hfail]
  by_cases hn : n > ctx.out.cap
  · have hc : ¬ n ≤ pipeCap := by
      rw [← h.gear.cap]
      omega
    have hor : ctx.res.failed = true ∨ n > ctx.out.cap := .inr hn
    rw [if_neg hc, if_pos hor, if_pos hor, List.append_nil]
    exact .held h ho hs
  · have hc : n ≤ pipeCap := by
      rw [← h.gear.cap]
      omega
    have hor : ¬(ctx.res.failed = true ∨ n > ctx.out.cap) := by
      rw [h.gear.live]
      rintro (hf | hf)
      · cases hf
      · exact hn hf
    rw [if_pos hc, if_neg hor, if_neg hor]
    by_cases hroom : n > ctx.out.room
    · rw [if_pos hroom, if_pos hroom]
      have hk : FlushKind.full ≠ .final := nofun
      subst hs
      obtain ⟨hdr, h1, h2⟩ := flushWith_opened h ho (fun e => absurd e hk) []
      change Opened ctx.sock hdr (ctx.flush .full).2 at h1
      change Opened ctx.sock hdr (ctx.asHead.flush .full).2 at h2
      generalize ctx.flush .full = r at h1
      generalize ctx.asHead.flush .full = r' at h2
      obtain ⟨ok, c⟩ := r
      obtain ⟨ok', c'⟩ := r'
      refine @Abreast.opened ctx.sock _ hdr _ _ ?_ ?_
      · cases ok with
        | false => exact h1
        | true => exact h1
      · cases ok' with
        | false => exact h2
        | true => exact h2
    · rw [if_neg hroom, if_neg hroom]
      exact .held (h.append (hd.trans (Nat.le_of_not_lt hroom))) ho hs

end Ctx

/-- The calls of a handler with no delegate and no filter. -/
def HandlerOp.Plain : HandlerOp → Prop
  | .head (.replyFilter _) => False
  | .head _ | .write _ | .reserve _ _ _ | .flush => True
  | _ => False

theorem HandlerOp.Plain.replies {op : HandlerOp} (h : op.Plain) : op.Replies := by
  cases op with
  | head op => trivial
  | write data => trivial
  | reserve n data hd => trivial
  | flush => trivial
  | onHead fn => exact absurd h id
  | bodyAll => exact absurd h id
  | bodyReadUntil n => exact absurd h id
  | bodyReadNextChunk cap => exact absurd h id
  | tick => exact absurd h id

namespace Ctx

variable {ctx : Ctx} {base W : List Byte} {sock : Socket} {get head : Ctx}

theorem headOp_asHead (ctx : Ctx) (op : HeadOp) : ctx.asHead.headOp op = (ctx.headOp op).asHead := by
  cases op with
  | replyFilter filter =>
    have hs : ctx.asHead.res.headSent = ctx.res.headSent := rfl
    have hf : ctx.asHead.filter = ctx.filter := rfl
    simp only [headOp, replyFilter]
    rw [hs, hf]
    split <;> rfl
  | _ => rfl

theorem step_abreast (h : Abreast sock W get head) {op : HandlerOp} (hp : op.Plain) :
    Abreast sock (W ++ op.wrote) (get.step op) (head.step op) := by
  cases h with
  | opened h1 h2 => exact .opened (h1.step hp.replies) (h2.step hp.replies)
  | held h ho hs =>
    cases op with
    | head op =>
      have hn : ∀ F, op ≠ .replyFilter F := by
        rintro F rfl
        exact hp
      have hon : (get.headOp op).onHead = get.onHead ∧ (get.headOp op).sock = get.sock := by
        cases op with
        | replyFilter F => exact absurd rfl (hn F)
        | _ => exact ⟨rfl, rfl⟩
      show Abreast sock (W ++ []) (get.headOp op) (get.asHead.headOp op)
      rw [List.append_nil, headOp_asHead]
      exact .held (headOp_held h op fun F e => absurd e (hn F)) (hon.1.trans ho) (hon.2.trans hs)
    | write data => exact write_abreast h ho hs data
    | reserve n data hd => exact reserveOp_abreast h ho hs hd
    | flush =>
      have hk : FlushKind.asked ≠ .final := nofun
      exact flushWith_abreast h ho hs hk [] _
    | onHead fn => exact absurd hp id
    | bodyAll => exact absurd hp id
    | bodyReadUntil n => exact absurd hp id
    | bodyReadNextChunk cap => exact absurd hp id
    | tick => exact absurd hp id

theorem run_abreast {ops : List HandlerOp} (h : Abreast sock W get head)
    (hp : ∀ op ∈ ops, op.Plain) :
    Abreast sock (W ++ ops.flatMap (·.wrote)) (get.run ops) (head.run ops) := by
  induction ops generalizing get head W with
  | nil =>
    rw [List.flatMap_nil, List.append_nil]
    exact h
  | cons op ops ih =>
    have h1 := step_abreast h (hp op (List.mem_cons_self ..))
    rw [List.flatMap_cons, ← List.append_assoc]
    exact ih h1 fun o ho => hp o (List.mem_cons_of_mem _ ho)

theorem finish_abreast (h : Abreast sock W get head)
    (hn : get.res.headSent = false → get.res.hasLength = true →
      get.res.contentLength = W.length) :
    ∃ hd : Head, Opened sock hd get.settleBody.finish.2 ∧
      Opened sock hd head.settleBody.finish.2 := by
  cases h with
  | @opened hd _ _ h1 h2 => exact ⟨hd, h1.settle.finish, h2.settle.finish⟩
  | held h ho hs =>
    have hd := settleBody_deaf get
    have h' : Held (fun _ => False) sock.wire W get.settleBody := by
      rw [hd.eq]
      exact h.setBody _ _ _ _ _ _ _
    have ho' : get.settleBody.onHead = none ∧ get.settleBody.sock = sock := by
      rw [hd.eq]
      exact ⟨ho, hs⟩
    have hl : get.settleBody.res.hasLength = true →
        get.settleBody.res.contentLength = get.settleBody.out.len := by
      rw [← Pipewriter.length_slab, h'.slab, hd.eq]
      exact hn h.unsent
    have hfin (c : Ctx) (hc : c.res = get.settleBody.res) (hd : Head)
        (hop : Opened sock hd (c.flush .final).2) : Opened sock hd c.finish.2 := by
      unfold finish
      rw [if_neg (by rw [hc, h'.gear.live]; simp), if_pos (.inl (by rw [hc, h'.unsent]; simp))]
      generalize c.flush .final = r at hop
      obtain ⟨ok, c'⟩ := r
      cases ok with
      | false => exact hop
      | true => exact hop
    obtain ⟨hd, h1, h2⟩ := flushWith_opened h' ho'.1 (fun _ => hl) []
    rw [ho'.2] at h1 h2
    rw [settleBody_asHead]
    exact ⟨hd, hfin get.settleBody rfl hd h1, hfin get.settleBody.asHead rfl hd h2⟩

/-- The head of the answer to HEAD is that of the answer to GET. A send that
fails may cut either off. -/
theorem head_answers_get {conn : Conn} {req : Request} (scratch : Scratch) {ops : List HandlerOp}
    (hw : Writable conn.out) (hm : isHead req.method = false) (hops : ∀ op ∈ ops, op.Plain)
    (hn : ((Ctx.init conn req scratch).run ops).res.headSent = false →
      ((Ctx.init conn req scratch).run ops).res.hasLength = true →
      ((Ctx.init conn req scratch).run ops).res.contentLength = (ops.flatMap (·.wrote)).length) :
    ∃ hd : Head,
      Opened conn.sock hd ((Ctx.init conn req scratch).run ops).settleBody.finish.2 ∧
      Opened conn.sock hd ((Ctx.init conn { req with method := str "HEAD" } scratch).run
        ops).settleBody.finish.2 := by
  have h0 : Abreast conn.sock [] (Ctx.init conn req scratch)
      (Ctx.init conn { req with method := str "HEAD" } scratch) :=
    .held (init_held scratch hw hm) rfl rfl
  have h1 := run_abreast h0 hops
  rw [List.nil_append] at h1
  exact finish_abreast h1 hn

def helloOps : List HandlerOp := [.head (.contentLength 3), .write (str "hi"), .write (str "!")]

def helloCtx (method : String) : Ctx :=
  ((Ctx.init idleConn { Request.parsed ⟨str "GET", str "/", 1, []⟩ with method := str method }
    ⟨zeros, zeros, zeros⟩).run helloOps).settleBody.finish.2

theorem head_answers_get_hello : ∃ hd : Head, hd.encode <+: (helloCtx "GET").sock.wire ∧
    hd.encode <+: (helloCtx "HEAD").sock.wire := by
  have hw : Writable idleConn.out := ⟨rfl, rfl, rfl, rfl⟩
  have hops : ∀ op ∈ helloOps, op.Plain := by simp [helloOps, HandlerOp.Plain]
  have hlive : idleConn.sock.Sound := by simp [idleConn, Socket.Sound]
  obtain ⟨hd, hget, hhead⟩ := @head_answers_get idleConn (.parsed ⟨str "GET", str "/", 1, []⟩)
    ⟨zeros, zeros, zeros⟩ helloOps hw (by decide) hops fun _ _ => by decide +kernel
  have hout {ctx : Ctx} (h : Opened idleConn.sock hd ctx) : hd.encode <+: ctx.sock.wire := by
    rcases h with ⟨-, hp⟩ | ⟨-, hu, -⟩
    · exact hp
    · exact absurd hlive hu
  exact ⟨hd, hout hget, hout hhead⟩

end Ctx

end Ioxd.Http
