import Ioxd.Http.ReplyLaws

/-!
# A reply in flight

Where a reply stands between two flushes: its head held back, or sent with one
of the three framings and some of the data behind it. A flush takes one stage
to the next with the data of the slab; the last one makes the body whole.
-/

namespace Ioxd.Http

open Flat
open Ioxd.Pipe
open Message (Head Declares Carries Framing)
open Chunked (Chunk Body)

variable {ctx ctx' : Ctx}

def slabChunk (data : List Byte) (h : data ≠ []) (hlen : data.length ≤ sizeMax) : Chunk where
  size := putHex data.length
  ext := []
  data := data
  sized := hex_putHex hlen
  extended := Chunked.extension_nil
  nonempty := h

theorem chunkOf_eq (data : List Byte) (hlen : data.length ≤ sizeMax) : ∃ cs : List Chunk,
    chunkOf data = cs.flatMap Chunk.encode ∧ cs.flatMap (·.data) = data := by
  by_cases h : data = []
  · exact ⟨[], by rw [chunkOf, if_pos h]; rfl, h.symm⟩
  · refine ⟨[slabChunk data h hlen], ?_, by simp [slabChunk]⟩
    rw [chunkOf, if_neg h]
    simp [slabChunk, Chunk.encode]

theorem carries_terminated (cs : List Chunk) :
    Carries .chunked (cs.flatMap Chunk.encode ++ terminator) (cs.flatMap (·.data)) := by
  have hz : Numeral.Hex [48] 0 := ⟨by simp, by simpa using by decide, rfl⟩
  have h := Carries.chunked ⟨cs, [48], [], [], hz, .inl rfl, by simp⟩
  have ht : terminator = [48] ++ Message.crlf ++ Message.crlf := by decide
  simpa [Body.encode, Chunked.encodeTrailers, Body.data, ht] using h

namespace Ctx

-- ---------------------------------------------------------------------------
-- The head
-- ---------------------------------------------------------------------------

def declares (ctx : Ctx) (final : Bool) : Bool :=
  ctx.res.hasLength &&
    (!final || (ctx.headOnly || bodyless (wireStatus ctx.res.status)))

def headLength (ctx : Ctx) (final coding : Bool) : Nat :=
  if ctx.declares final then ctx.res.contentLength else (ctx.sw coding).len

def headed (ctx : Ctx) (final coding : Bool) : Ctx :=
  { ctx with
    noBody := ctx.headOnly || bodyless (wireStatus ctx.res.status)
    res := { ctx.res with
      contentLength := if ctx.res.hasLength && !ctx.declares final then (ctx.sw coding).len
        else ctx.res.contentLength
      chunked := ctx.res.chunked || decide (ctx.frameOf final = .chunked)
      close := ctx.res.close || decide (ctx.frameOf final = .untilClose) || ctx.undrainable
      headSent := true } }

theorem startHead_arena {final coding : Bool} (h : HeadOk ctx.res) {fs : List Message.Field}
    (ha : Arena ctx.res fs) (hlen : ctx.headLength final coding ≤ sizeMax) :
    ∃ hd : Head, ctx.startHead final coding = (some hd.encode, ctx.headed final coding) ∧
      hd.start = startLine (wireStatus ctx.res.status) ∧
      Declares hd ((ctx.frameOf final).framing (ctx.headLength final coding)) ∧
      hd.encode.length < 2 ^ 31 ∧ hd.values (str "content-encoding") =
        (fs.filter (·.name = str "content-encoding")).map (·.value) := by
  have hok : HeadOk { ctx.res with
      contentLength := if ctx.res.hasLength && !ctx.declares final then (ctx.sw coding).len
        else ctx.res.contentLength
      chunked := ctx.res.chunked || decide (ctx.frameOf final = .chunked)
      close := ctx.res.close || decide (ctx.frameOf final = .untilClose) || ctx.undrainable } :=
    h.congr rfl rfl rfl
  obtain ⟨hd, hb, hs, hdec, hl⟩ := buildHead_spec hok ha ctx.req.minorVersion ctx.req.keepAlive
    (ctx.frameOf final) hlen
  refine ⟨hd, ?_, hs, hdec, hl⟩
  unfold headLength declares at hb
  unfold startHead headed declares
  dsimp only at hb ⊢
  rw [hb]

theorem startHead_spec {final coding : Bool} (h : HeadOk ctx.res)
    (hlen : ctx.headLength final coding ≤ sizeMax) :
    ∃ hd : Head, ctx.startHead final coding = (some hd.encode, ctx.headed final coding) ∧
      hd.start = startLine (wireStatus ctx.res.status) ∧
      Declares hd ((ctx.frameOf final).framing (ctx.headLength final coding)) ∧
      hd.encode.length < 2 ^ 31 := by
  obtain ⟨fs, ha⟩ := h.fields
  obtain ⟨hd, h1, h2, h3, h4, -⟩ := startHead_arena h ha hlen
  exact ⟨hd, h1, h2, h3, h4⟩

/-- No filter codes the reply and no delegate waits for its head; the slab and
the arena are as the calls leave them. -/
structure Ready (ctx : Ctx) : Prop where
  filter : ctx.filter = none
  onHead : ctx.onHead = none
  fit : Fit ctx.out
  cap : ctx.out.cap = pipeCap
  head : HeadOk ctx.res
  length : ctx.res.contentLength ≤ sizeMax

theorem Ready.headLength_le (h : Ready ctx) (final : Bool) : ctx.headLength final false ≤ sizeMax := by
  have hlen : ctx.out.len ≤ pipeCap := h.cap ▸ h.fit.ok.len
  have hcap : pipeCap ≤ sizeMax := by decide
  unfold headLength
  split
  · exact h.length
  · exact hlen.trans hcap

theorem flushBody_plain (ctx : Ctx) (kind : FlushKind) (head extra : List Byte) :
    ctx.flushBody kind false false head extra =
      if ctx.noBody then ctx.sendBodyless head
      else ctx.sendFrame (kind = .final) false head extra := by
  simp [flushBody]

theorem flushWith_plain (h : Ready ctx) (hf : ctx.res.failed = false) (kind : FlushKind)
    (extra : List Byte) : ctx.flushWith kind extra =
      if ctx.res.headSent then ctx.flushBody kind false false [] extra
      else
        match ctx.startHead (kind = .final) false with
        | (none, ctx) => (false, ctx)
        | (some head, ctx) => ctx.flushBody kind false false head extra := by
  unfold flushWith
  rw [if_neg (by simp [hf]), callOnHead, h.onHead]
  rcases hst : ctx.startHead (kind = .final) false with ⟨_ | head, ctx'⟩ <;>
    simp [flushHead, h.filter, hst]

-- ---------------------------------------------------------------------------
-- Stages
-- ---------------------------------------------------------------------------

/-- The bytes a reply has put on the wire and the data they carry. -/
inductive Stage (ctx : Ctx) : List Byte → List Byte → Prop
  | held : ctx.res.headSent = false → ctx.res.chunked = false → ctx.res.bodySent = 0 →
      Stage ctx [] []
  | length {hd : Head} {data : List Byte} : ctx.res.headSent = true → ctx.noBody = false →
      Declares hd (.length ctx.res.contentLength) → ctx.res.hasLength = true →
      ctx.res.chunked = false → ctx.res.bodySent = data.length →
      data.length ≤ ctx.res.contentLength → Stage ctx (hd.encode ++ data) data
  | chunked {hd : Head} {cs : List Chunk} : ctx.res.headSent = true → ctx.noBody = false →
      Declares hd .chunked → ctx.res.hasLength = false → ctx.res.chunked = true →
      Stage ctx (hd.encode ++ cs.flatMap Chunk.encode) (cs.flatMap (·.data))
  | untilClose {hd : Head} {data : List Byte} : ctx.res.headSent = true → ctx.noBody = false →
      Declares hd .untilClose → ctx.res.hasLength = false → ctx.res.chunked = false →
      ctx.res.close = true → Stage ctx (hd.encode ++ data) data

theorem stage_headed {coding : Bool} (h : Stage ctx t data) (hs : ctx.res.headSent = false)
    (hno : (ctx.headOnly || bodyless (wireStatus ctx.res.status)) = false) {hd : Head}
    (hd' : Declares hd ((ctx.frameOf false).framing (ctx.headLength false coding))) :
    t = [] ∧ data = [] ∧ Stage (ctx.headed false coding) hd.encode [] := by
  cases h with
  | length hs' => simp [hs] at hs'
  | chunked hs' => simp [hs] at hs'
  | untilClose hs' => simp [hs] at hs'
  | held _ hc hb =>
    refine ⟨rfl, rfl, ?_⟩
    have hstatus : bodyless (wireStatus ctx.res.status) = false := (Bool.or_eq_false_iff.mp hno).2
    rw [← List.append_nil hd.encode]
    by_cases hl : ctx.res.hasLength = true
    · have hf : ctx.frameOf false = .length := by simp [frameOf, hstatus, hl]
      have hdec : ctx.declares false = true := by simp [declares, hl]
      rw [hf] at hd'
      simp only [headLength, hdec, if_true, Frame.framing] at hd'
      refine .length rfl hno ?_ hl (by simp [headed, hc, hf]) (by simp [headed, hb]) (by simp)
      simpa [headed, hdec] using hd'
    · rw [Bool.not_eq_true] at hl
      by_cases hv : ctx.req.minorVersion ≥ 1
      · have hf : ctx.frameOf false = .chunked := by simp [frameOf, hstatus, hl, hv]
        rw [hf] at hd'
        exact @Stage.chunked _ _ [] rfl hno hd' hl (by simp [headed, hf])
      · have hf : ctx.frameOf false = .untilClose := by simp [frameOf, hstatus, hl, hv]
        rw [hf] at hd'
        exact .untilClose rfl hno hd' hl (by simp [headed, hc, hf]) (by simp [headed, hf])

/-- A flush takes a stage with its head out, or about to be, to the next. -/
theorem stage_flushed {coding : Bool} (h : Stage ctx t data) (hs : ctx.res.headSent = true)
    (hlen : (ctx.sw coding).len ≤ sizeMax) (hx : ctx.res.chunked = true → extra = [])
    (pw : Pipewriter) (sock : Socket) :
    Stage (ctx.flushed coding extra pw sock) (t ++ ctx.frame false coding [] extra)
      (data ++ ctx.admitted ((ctx.sw coding).slab ++ extra)) := by
  have hno (b : Ctx) : (b.setSw coding pw).noBody = b.noBody := by cases coding <;> rfl
  have hplain (hc : ctx.res.chunked = false) : ctx.frame false coding [] extra =
      ctx.admitted ((ctx.sw coding).slab ++ extra) := by
    rw [← slabLeft_append, frame, hc, spanOf_plain, List.nil_append]
  cases h with
  | held hs' => simp [hs] at hs'
  | length _ hnb hd hl hc hb hle =>
    rw [hplain hc, List.append_assoc]
    refine .length hs ((hno ctx).trans hnb) hd hl hc ?_ ?_
    · show ctx.res.bodySent + _ = _
      rw [hb, List.length_append]
    · show _ ≤ ctx.res.contentLength
      rw [admitted_some hl, List.length_append, List.length_take, hb]
      omega
  | chunked _ hnb hd hl hc =>
    rename_i hd cs
    obtain ⟨cs', he, hdata⟩ := chunkOf_eq (ctx.sw coding).slab
      (by rw [Pipewriter.length_slab]; exact hlen)
    have hf : ctx.frame false coding [] extra = cs'.flatMap Chunk.encode := by
      rw [hx hc, frame, hc, spanOf_chunk, slabLeft, admitted_all hl, ← he, extraLeft_nil,
        List.append_nil, List.nil_append]
    have ha : ctx.admitted ((ctx.sw coding).slab ++ extra) = cs'.flatMap (·.data) := by
      rw [admitted_all hl, hx hc, List.append_nil, hdata]
    rw [hf, ha, List.append_assoc, ← List.flatMap_append, ← List.flatMap_append]
    exact .chunked hs ((hno ctx).trans hnb) ‹_› hl hc
  | untilClose _ hnb hd hl hc hcl =>
    rw [hplain hc, List.append_assoc]
    exact .untilClose hs ((hno ctx).trans hnb) hd hl hc hcl

theorem Stage.congr (h : Stage ctx t data) (h1 : ctx'.res.headSent = ctx.res.headSent)
    (h2 : ctx'.res.chunked = ctx.res.chunked) (h3 : ctx'.res.bodySent = ctx.res.bodySent)
    (h4 : ctx'.noBody = ctx.noBody)
    (h5 : ctx.res.headSent = true → ctx'.res.hasLength = ctx.res.hasLength ∧
      ctx'.res.contentLength = ctx.res.contentLength)
    (h6 : ctx.res.close = true → ctx'.res.close = true) : Stage ctx' t data := by
  cases h with
  | held hs hc hb => exact .held (h1.trans hs) (h2.trans hc) (h3.trans hb)
  | length hs hno hd hl hc hb hle =>
    obtain ⟨e1, e2⟩ := h5 hs
    exact .length (h1.trans hs) (h4.trans hno) (e2 ▸ hd) (e1.trans hl) (h2.trans hc) (h3.trans hb)
      (e2 ▸ hle)
  | chunked hs hno hd hl hc =>
    exact .chunked (h1.trans hs) (h4.trans hno) hd ((h5 hs).1.trans hl) (h2.trans hc)
  | untilClose hs hno hd hl hc hcl =>
    exact .untilClose (h1.trans hs) (h4.trans hno) hd ((h5 hs).1.trans hl) (h2.trans hc) (h6 hcl)

/-- A reply whose last flush is out, all of it or as much as its length
admits. -/
inductive Ended (ctx : Ctx) (data : List Byte) : List Byte → Prop
  | length {hd : Head} : ctx.res.hasLength = true →
      Declares hd (.length ctx.res.contentLength) →
      Ended ctx data (hd.encode ++ data.take ctx.res.contentLength)
  | chunked {hd : Head} {body : List Byte} : ctx.res.hasLength = false → Declares hd .chunked →
      Carries .chunked body data → Ended ctx data (hd.encode ++ body)
  | untilClose {hd : Head} : ctx.res.hasLength = false → Declares hd .untilClose →
      ctx.res.close = true → Ended ctx data (hd.encode ++ data)

theorem Stage.ended (h : Stage ctx t data) (hs : ctx.res.headSent = true) {slab : List Byte}
    (hlen : slab.length ≤ sizeMax) :
    Ended ctx (data ++ slab) (t ++ spanOf ctx.res.chunked true (ctx.admitted slab)) := by
  cases h with
  | held hs' => simp [hs] at hs'
  | length _ _ hd hl hc hb hle =>
    have he := @Ended.length ctx (data ++ slab) _ hl hd
    rw [hc, spanOf_plain, admitted_some hl, hb]
    rwa [List.take_append, List.take_of_length_le hle, ← List.append_assoc] at he
  | chunked _ _ hd hl hc =>
    obtain ⟨cs', he, hdata⟩ := chunkOf_eq slab hlen
    rw [hc, spanOf_last, admitted_all hl, he, List.append_assoc, ← List.append_assoc _ _ terminator,
      ← List.flatMap_append, ← hdata, ← List.flatMap_append]
    exact .chunked hl hd (carries_terminated _)
  | untilClose _ _ hd hl hc hcl =>
    rw [hc, spanOf_plain, admitted_all hl, List.append_assoc]
    exact .untilClose hl hd hcl

end Ctx

end Ioxd.Http
