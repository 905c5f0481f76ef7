import Ioxd.Http.ReplyRun
import Ioxd.Http.Serve

/-!
# What a reply carries

A reply that goes well holds every byte the handler wrote, in order: on the
wire, in the body of a message that is under way, or in the slab. Each call
keeps this or ends the reply at the length its head declared.
-/

namespace Ioxd.Http

open Flat
open Ioxd.Pipe
open Message (Head Declares Carries Framing)

namespace Ctx

variable {ctx ctx' : Ctx} {base W data extra : List Byte}

/-- The handler has written `W`, and the wire held `base` when the request
came. -/
structure Going (base W : List Byte) (ctx : Ctx) : Prop where
  ready : Ready ctx
  status : ctx.res.headSent = false →
    (ctx.headOnly || bodyless (wireStatus ctx.res.status)) = false
  live : ctx.res.failed = false
  able : ctx.out.failed = false
  sound : ctx.sock.Sound
  stage : ∃ t data, ctx.sock.wire = base ++ t ∧ Stage ctx t data ∧ data ++ ctx.out.slab = W

/-- The reply has overrun the length in its head: what is admitted is out, and
nothing follows it. -/
structure Full (base W : List Byte) (ctx : Ctx) : Prop where
  failed : ctx.res.failed = true
  sent : ctx.res.headSent = true
  declared : ctx.res.hasLength = true
  wire : ∃ hd : Head, Declares hd (.length ctx.res.contentLength) ∧
    ctx.res.contentLength < W.length ∧
    ctx.sock.wire = base ++ hd.encode ++ W.take ctx.res.contentLength

/-- A write behind an empty span whose length is negative as an `int`. -/
def Wrapping (ctx : Ctx) (data : List Byte) : Prop :=
  ctx.slabLeft false = [] ∧
    (∀ head ∈ (ctx.startHead false false).1, ctx.res.headSent = false → pipeLead < head.length) ∧
    2 ^ 31 ≤ (ctx.extraLeft false data).length % 2 ^ 32

inductive Pushed (base W : List Byte) (ctx : Ctx) (extra : List Byte) : Bool × Ctx → Prop
  | sent {ctx' : Ctx} : Going base (W ++ extra) ctx' → ctx'.out.len = 0 →
      ctx'.res.headSent = true → ctx'.res.hasLength = ctx.res.hasLength →
      ctx'.res.contentLength = ctx.res.contentLength → Pushed base W ctx extra (true, ctx')
  | full {ctx' : Ctx} : Full base (W ++ extra) ctx' → ctx.res.hasLength = true →
      ctx'.res.contentLength = ctx.res.contentLength → Pushed base W ctx extra (false, ctx')
  | wrapped {ctx' : Ctx} : ctx.Wrapping extra → Pushed base W ctx extra (false, ctx')

theorem Stage.sent (h : Stage ctx t data) (hl : ctx.res.hasLength = true) :
    ctx.res.bodySent = data.length ∧ (ctx.res.headSent = true →
      data.length ≤ ctx.res.contentLength ∧ ctx.res.chunked = false ∧
        ∃ hd : Head, Declares hd (.length ctx.res.contentLength) ∧ t = hd.encode ++ data) := by
  cases h with
  | held hs _ hb => exact ⟨by simpa using hb, fun hx => by simp [hs] at hx⟩
  | length _ _ hd _ hc hb hle => exact ⟨hb, fun _ => ⟨hle, hc, _, hd, rfl⟩⟩
  | chunked _ _ _ hl' => simp [hl] at hl'
  | untilClose _ _ _ hl' => simp [hl] at hl'

theorem frame_head (ctx : Ctx) (final coding : Bool) (head extra : List Byte) :
    ctx.frame final coding head extra = head ++ ctx.frame final coding [] extra := by
  simp [frame]

/-- The rest of a flush, with a head that goes out now or went out before. -/
theorem sendFrame_pushed {head t data : List Byte} (h : Ready ctx) (hlive : ctx.res.failed = false)
    (hable : ctx.out.failed = false) (hsound : ctx.sock.Sound) (hs : ctx.res.headSent = true)
    (hst : Stage ctx (t ++ head) data) (hwire : ctx.sock.wire = base ++ t)
    (hW : data ++ ctx.out.slab = W) (hlen : head.length < 2 ^ 31)
    (hx : ctx.res.chunked = true → extra = []) :
    (∃ c, ctx.sendFrame false false head extra = (true, c) ∧ Going base (W ++ extra) c ∧
      c.out.len = 0 ∧ c.res.headSent = true ∧ c.res.hasLength = ctx.res.hasLength ∧
      c.res.contentLength = ctx.res.contentLength) ∨
    (∃ c, ctx.sendFrame false false head extra = (false, c) ∧ Full base (W ++ extra) c ∧
      ctx.res.hasLength = true ∧ c.res.contentLength = ctx.res.contentLength) ∨
    (∃ c, ctx.sendFrame false false head extra = (false, c) ∧
      ctx.slabLeft false = [] ∧ (head ≠ [] → pipeLead < head.length) ∧
      2 ^ 31 ≤ (ctx.extraLeft false extra).length % 2 ^ 32) := by
  have hcap : ctx.out.len ≤ sizeMax := by
    have : ctx.out.len ≤ pipeCap := h.cap ▸ h.fit.ok.len
    exact this.trans (by decide)
  have hout : FrameOutcome ctx false false head extra (ctx.sendFrame false false head extra) :=
    @sendFrame_outcome ctx false h.fit hable head hlen false extra
  generalize ctx.sendFrame false false head extra = r at hout
  cases hout with
  | @sent pw sock hno hfit hkin h0 hd =>
    left
    have hst' : Stage (ctx.flushed false extra pw sock) (t ++ head ++ ctx.frame false false [] extra)
        (data ++ ctx.admitted ((ctx.sw false).slab ++ extra)) := by
      have hc : (ctx.sw false).len ≤ sizeMax := hcap
      exact stage_flushed hst hs hc hx pw sock
    refine ⟨_, rfl, ⟨?_, ?_, hlive, hkin.failed.trans hable, hd.sound hsound, _, _, ?_, hst', ?_⟩,
      h0, hs, rfl, rfl⟩
    · exact ⟨h.filter, h.onHead, hfit, hkin.cap.trans h.cap, h.head.congr rfl rfl rfl, h.length⟩
    · intro hx
      simp [flushed, hs] at hx
    · show sock.wire = _
      rw [hd.wire, hwire, frame_head, List.append_assoc, List.append_assoc]
    · have hadm : ctx.admitted (ctx.out.slab ++ extra) = ctx.out.slab ++ extra := by
        unfold admitted
        split
        · rename_i hl
          refine List.take_of_length_le ?_
          by_contra hlt
          exact hno ⟨hl, Nat.not_le.mp hlt⟩
        · rfl
      have hslab : (ctx.flushed false extra pw sock).out.slab = [] := by
        show pw.slab = []
        rw [← List.length_eq_zero_iff, Pipewriter.length_slab, h0]
      rw [hslab, List.append_nil]
      show data ++ ctx.admitted (ctx.out.slab ++ extra) = _
      rw [hadm, ← List.append_assoc, hW]
  | @overrun pw sock hov hfit hkin h0 hd =>
    right; left
    obtain ⟨hb, hmore⟩ := hst.sent hov.1
    obtain ⟨hle, hc, hd', hdec, ht⟩ := hmore hs
    have hov2 := hov.2
    refine ⟨_, rfl, ⟨rfl, hs, hov.1, hd', hdec, ?_, ?_⟩, hov.1, rfl⟩
    · show ctx.res.contentLength < _
      rw [← hW, List.append_assoc, List.length_append]
      show ctx.res.contentLength < data.length + (ctx.out.slab ++ extra).length
      have : ctx.res.contentLength - ctx.res.bodySent < (ctx.out.slab ++ extra).length := hov2
      omega
    · show sock.wire = base ++ hd'.encode ++ List.take ctx.res.contentLength (W ++ extra)
      have hframe : ctx.frame false false [] extra =
          ctx.admitted (ctx.out.slab ++ extra) := by
        rw [frame, hc, spanOf_plain, List.nil_append, slabLeft_append]
        rfl
      have htake : List.take ctx.res.contentLength (W ++ extra) =
          data ++ (ctx.out.slab ++ extra).take (ctx.res.contentLength - data.length) := by
        rw [← hW, List.append_assoc, List.take_append, List.take_of_length_le hle]
      rw [hd.wire, hwire, frame_head, hframe, admitted_some hov.1, hb, htake, List.append_assoc,
        ← List.append_assoc t, ht, List.append_assoc, List.append_assoc]
  | wrapped hw _ _ =>
    right; right
    obtain ⟨h1, h2, h3⟩ := hw
    refine ⟨_, rfl, ?_, h2, h3⟩
    unfold spanOf at h1
    split at h1
    · rename_i hc
      unfold chunkOf at h1
      rcases hsl : ctx.slabLeft false with _ | ⟨c, l⟩
      · rfl
      · rw [hsl] at h1
        simp at h1
    · exact h1
  | cut _ hc => exact absurd hsound hc.unsound

theorem slabLeft_headed (ctx : Ctx) (h : ctx.res.hasLength = true → ctx.declares false = true)
    (extra : List Byte) :
    (ctx.headed false false).slabLeft false = ctx.slabLeft false ∧
      (ctx.headed false false).extraLeft false extra = ctx.extraLeft false extra := by
  unfold slabLeft extraLeft admitted headed
  by_cases hl : ctx.res.hasLength = true
  · simp [hl, h hl, sw]
  · simp [hl, sw]

theorem flushWith_pushed (h : Going base W ctx) {kind : FlushKind} (hk : kind ≠ .final)
    (hx : ctx.rawFramed = false → extra = []) :
    Pushed base W ctx extra (ctx.flushWith kind extra) := by
  obtain ⟨t, data, hwire, hst, hW⟩ := h.stage
  have hfin : decide (kind = .final) = false := decide_eq_false hk
  have hraw (hs : ctx.res.headSent = true) : ctx.rawFramed = !ctx.res.chunked := by
    simp [rawFramed, h.ready.filter, h.ready.onHead, hs]
  rw [flushWith_plain h.ready h.live]
  by_cases hs : ctx.res.headSent = true
  · rw [if_pos hs, flushBody_plain, hfin]
    have hno : ctx.noBody = false := by
      cases hst with
      | held hs' => simp [hs] at hs'
      | length _ hno => exact hno
      | chunked _ hno => exact hno
      | untilClose _ hno => exact hno
    rw [if_neg (by simp [hno])]
    have hst' : Stage ctx (t ++ []) data := by rwa [List.append_nil]
    rcases sendFrame_pushed h.ready h.live h.able h.sound hs hst' hwire hW (by simp)
      (fun hc => hx (by rw [hraw hs, hc]; rfl)) with
      ⟨c, he, hg, h0, h1, h2, h3⟩ | ⟨c, he, hf, h1, h2⟩ | ⟨c, he, h1, h2, h3⟩
    · rw [he]
      exact .sent hg h0 h1 h2 h3
    · rw [he]
      exact .full hf h1 h2
    · rw [he]
      exact .wrapped ⟨h1, fun _ _ hx => by simp [hs] at hx, h3⟩
  · rw [Bool.not_eq_true] at hs
    obtain ⟨hd, hstart, -, hdec, hdl⟩ := startHead_spec h.ready.head
      (h.ready.headLength_le false)
    have hno := h.status hs
    have hcs : ctx.res.chunked = false := by
      cases hst with
      | held _ hc => exact hc
      | length _ _ _ _ hc => exact hc
      | chunked hs' => simp [hs] at hs'
      | untilClose _ _ _ _ hc => exact hc
    obtain ⟨rfl, rfl, hst'⟩ := stage_headed hst hs hno hdec
    have hnb : (ctx.headed false false).noBody = false := hno
    have hdecl : ctx.res.hasLength = true → ctx.declares false = true := fun hl => by
      simp [declares, hl]
    obtain ⟨hleft, hmore⟩ := slabLeft_headed ctx hdecl extra
    have hcl : (ctx.headed false false).res.contentLength = ctx.res.contentLength := by
      unfold headed
      by_cases hl : ctx.res.hasLength = true
      · simp [hdecl hl]
      · simp [hl]
    rw [if_neg (by simp [hs]), hfin, hstart]
    dsimp only
    rw [flushBody_plain, hfin, if_neg (by simp [hnb])]
    have hready : Ready (ctx.headed false false) :=
      ⟨h.ready.filter, h.ready.onHead, h.ready.fit, h.ready.cap, h.ready.head.congr rfl rfl rfl,
        hcl.le.trans h.ready.length⟩
    have hchunked (hc : (ctx.headed false false).res.chunked = true) : extra = [] := by
      refine hx ?_
      -- a chunked frame is chosen for a 1.1 request with no length
      have hf : ctx.frameOf false = .chunked := by simpa [headed, hcs] using hc
      have hb : bodyless (wireStatus ctx.res.status) = false := (Bool.or_eq_false_iff.mp hno).2
      by_cases hl : ctx.res.hasLength = true
      · simp [frameOf, hb, hl] at hf
      · by_cases hv : ctx.req.minorVersion ≥ 1
        · have : ctx.req.minorVersion ≠ 0 := by omega
          simp [rawFramed, h.ready.filter, h.ready.onHead, hs, hl, this]
        · simp [frameOf, hb, hl, hv] at hf
    have hne : hd.encode ≠ [] := by simp [Head.encode, Message.encodeLines, Message.crlf]
    rcases sendFrame_pushed hready h.live h.able h.sound rfl
      (by rwa [List.nil_append]) hwire hW hdl hchunked with
      ⟨c, he, hg, h0, h1, h2, h3⟩ | ⟨c, he, hf, h1, h2⟩ | ⟨c, he, h1, h2, h3⟩
    · rw [he]
      exact .sent hg h0 h1 h2 (h3.trans hcl)
    · rw [he]
      exact .full hf h1 (h2.trans hcl)
    · rw [he]
      refine .wrapped ⟨hleft ▸ h1, fun head hh _ => ?_, hmore ▸ h3⟩
      rw [hstart] at hh
      cases hh
      exact h2 hne

-- ---------------------------------------------------------------------------
-- The slab
-- ---------------------------------------------------------------------------

theorem Going.congr (h : Going base W ctx) {out : Pipewriter} (hfit : Fit out)
    (hkin : Kin ctx.out out) {more : List Byte} (hslab : out.slab = ctx.out.slab ++ more) :
    Going base (W ++ more) { ctx with out := out } := by
  obtain ⟨t, data, hwire, hst, hW⟩ := h.stage
  refine ⟨⟨h.ready.filter, h.ready.onHead, hfit, hkin.cap.trans h.ready.cap,
    h.ready.head.congr rfl rfl rfl, h.ready.length⟩, h.status, h.live, hkin.failed.trans h.able,
    h.sound, t, data, hwire, hst.congr rfl rfl rfl rfl (fun _ => ⟨rfl, rfl⟩) fun hx => hx, ?_⟩
  show data ++ out.slab = _
  rw [hslab, ← List.append_assoc, hW]

theorem Going.append (h : Going base W ctx) {more : List Byte} (hm : more.length ≤ ctx.out.room) :
    Going base (W ++ more)
      { ctx with out := (ctx.out.copyTo ctx.out.at' more).advance more.length } := by
  have hfit := h.ready.fit
  obtain ⟨hok, hslab, -⟩ := Pipewriter.append_spec hfit.ok hfit.tail hm
  exact h.congr ⟨hok, hfit.head, hfit.tail, hfit.lead, hfit.slack⟩ ⟨rfl, rfl, rfl, rfl⟩ hslab

theorem not_wrapping_nil (ctx : Ctx) : ¬ ctx.Wrapping [] := by
  intro h
  have := h.2.2
  rw [extraLeft_nil] at this
  simp at this

/-- Room for `n` bytes, or a reply that is full. -/
inductive Reserved (base W : List Byte) (ctx : Ctx) (n : Nat) : Option Nat × Ctx → Prop
  | room {ctx' : Ctx} : Going base W ctx' → n ≤ ctx'.out.room →
      ctx'.res.hasLength = ctx.res.hasLength → ctx'.res.contentLength = ctx.res.contentLength →
      Reserved base W ctx n (some ctx'.out.at', ctx')
  | full {ctx' : Ctx} : Full base W ctx' → ctx.res.hasLength = true →
      ctx'.res.contentLength = ctx.res.contentLength → Reserved base W ctx n (none, ctx')

theorem reserve_going (h : Going base W ctx) {n : Nat} (hn : n ≤ ctx.out.cap) :
    Reserved base W ctx n (ctx.reserve n) := by
  unfold reserve flush
  rw [if_neg (by rw [h.live]; simp; omega)]
  split
  · have hp : Pushed base W ctx [] (ctx.flushWith .full []) :=
      flushWith_pushed h (by simp) fun _ => rfl
    generalize ctx.flushWith .full [] = r at hp
    cases hp with
    | @sent ctx' hg h0 _ h1 h2 =>
      rw [List.append_nil] at hg
      refine .room hg ?_ h1 h2
      have : ctx'.out.cap = ctx.out.cap := hg.ready.cap.trans h.ready.cap.symm
      unfold Pipewriter.room
      omega
    | full hf h1 h2 =>
      rw [List.append_nil] at hf
      exact .full hf h1 h2
    | wrapped hw => exact absurd hw (not_wrapping_nil ctx)
  · exact .room h (by omega) rfl rfl

-- ---------------------------------------------------------------------------
-- The start
-- ---------------------------------------------------------------------------

/-- A writer as `ioxd__pipe_init` made it, between two requests. -/
structure Writable (out : Pipewriter) : Prop where
  lead : out.lead = pipeLead
  cap : out.cap = pipeCap
  slack : out.slack = pipeSlack
  able : out.failed = false

theorem Writable.fit {out : Pipewriter} (h : Writable out) : Fit out.reset := by
  refine ⟨⟨Nat.zero_le _, Nat.zero_le _, Nat.zero_le _, ?_⟩, rfl, rfl, h.lead, h.slack⟩
  show out.lead + out.cap + out.slack < 2 ^ 31
  rw [h.lead, h.cap, h.slack]
  decide

theorem init_going {conn : Conn} {req : Request} (scratch : Scratch) (hw : Writable conn.out)
    (hs : conn.sock.Sound) (hm : isHead req.method = false) :
    Going conn.sock.wire [] (Ctx.init conn req scratch) := by
  refine ⟨⟨rfl, rfl, hw.fit, hw.cap, init_headOk _, Nat.zero_le _⟩, fun _ => ?_, rfl, hw.able, hs,
    [], [], (List.append_nil _).symm, .held rfl rfl rfl, ?_⟩
  · show (isHead req.method || bodyless (wireStatus 200)) = false
    rw [hm]
    rfl
  · exact Pipewriter.slab_reset conn.out

end Ctx

end Ioxd.Http
