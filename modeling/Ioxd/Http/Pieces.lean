import Ioxd.Http.CallLaws
import Ioxd.Http.DecodeLaws
import Ioxd.Http.DrainLaws

/-!
# Reading a well-formed chunked body

To its reads such a body is a list of pieces: what is left of the chunk in
progress and the chunks behind it. A read up to a size takes bytes from the
front, a read of the next chunk takes the first piece, and all of the body is
their concatenation. Nothing else of the encoding shows, and nothing of the
buffers it came in.
-/

namespace Ioxd.Http

open Flat
open Ioxd.Pipe
open Numeral
open Chunked (Cursor Body encodeTrailers dropData)

abbrev Ahead : List Byte → Cursor → List (List Byte) → Prop := Chunked.Ahead sizeMax trailerMax

-- ---------------------------------------------------------------------------
-- The decoder
-- ---------------------------------------------------------------------------

/-- Between two chunks, the line that is read is the next chunk's, or the last
one. -/
theorem between_line {b : Body} {rest line r : List Byte} {n : Nat}
    (hs : ∀ c ∈ b.chunks, c.data.length ≤ sizeMax)
    (he : b.encode ++ rest = line ++ crlf ++ r) (hno : ¬ crlf <:+: line)
    (hsize : sizeLine line = some n) :
    (∃ c cs, b.chunks = c :: cs ∧ n = c.data.length ∧
        r = c.data ++ crlf ++ (b.tail.encode ++ rest)) ∨
      (b.chunks = [] ∧ n = 0 ∧ r = encodeTrailers b.trailers ++ rest) := by
  cases hc : b.chunks with
  | nil =>
    rw [Body.encode_nil hc, List.append_assoc _ _ rest] at he
    obtain ⟨rfl, rfl⟩ := first_line (sizeLine_unbroken b.zero b.extended) hno he
    rw [sizeLine_of_hex b.zero b.extended (Nat.zero_le _)] at hsize
    exact .inr ⟨rfl, (Option.some.inj hsize).symm, rfl⟩
  | cons c cs =>
    rw [Body.encode_cons hc, List.append_assoc _ _ rest] at he
    obtain ⟨rfl, rfl⟩ := first_line (sizeLine_unbroken c.sized c.extended) hno he
    rw [sizeLine_of_hex c.sized c.extended (hs c (by simp [hc]))] at hsize
    exact .inl ⟨c, cs, rfl, (Option.some.inj hsize).symm, by simp⟩

theorem ahead_decodes {rest : List Byte} {c c' : Cursor} {ps : List (List Byte)} {d : List Byte}
    (ha : Ahead rest c ps) (h : Decodes c d c') :
    Ahead rest c' (dropData d.length ps) ∧ d <+: ps.flatten := by
  induction hk : c.stream.length using Nat.strong_induction_on generalizing c ps d with
  | _ k ih =>
    subst hk
    cases ha with
    | between b hs ht =>
      have hb : Ahead rest _ _ := .between b hs ht
      cases decodes_between h rfl rfl with
      | stay =>
        rw [List.length_nil, Chunked.dropData_zero hb.nonempty]
        exact ⟨hb, List.nil_prefix⟩
      | chunk he hno hsize hn hr =>
        rcases between_line hs he hno hsize with ⟨c, cs, hc, rfl, rfl⟩ | ⟨-, rfl, -⟩
        · have hmap : b.chunks.map (·.data) = c.data :: b.tail.chunks.map (·.data) := by
            simp [Body.tail, hc]
          rw [hmap]
          refine ih _ ?_ (.inside b.tail c.nonempty (fun x hx => hs x ?_) ht) hr rfl
          · rw [he]
            simp only [List.length_append, List.length_cons]
            omega
          · exact List.mem_of_mem_tail hx
        · omega
      | last he hno hsize hl =>
        rcases between_line hs he hno hsize with ⟨c, -, -, hz, -⟩ | ⟨hc, -, hr⟩
        · exact absurd (List.length_eq_zero_iff.mp hz.symm) c.nonempty
        · obtain rfl := trailers_inj hl b.lines hr
          rw [hc]
          exact ⟨.behind, List.nil_prefix⟩
    | @inside b part hne hs ht =>
      have hpos := List.length_pos_iff.mpr hne
      cases decodes_inside h hpos rfl with
      | @part _ r he hlt =>
        obtain ⟨y, rfl⟩ : d <+: part := by
          refine List.prefix_of_prefix_length_le ⟨r, he.symm⟩ ?_ (Nat.le_of_lt hlt)
          rw [List.append_assoc]
          exact List.prefix_append ..
        have hr : d ++ r = d ++ (y ++ crlf ++ (b.encode ++ rest)) := by
          rw [← he]
          simp
        obtain rfl := List.append_cancel_left hr
        dsimp only at hlt ⊢
        rw [dropData, if_pos hlt, List.drop_left]
        rw [List.length_append] at hlt ⊢
        rw [Nat.add_sub_cancel_left]
        refine ⟨.inside b (List.length_pos_iff.mp (by omega)) hs ht, ?_⟩
        rw [List.flatten_cons, List.append_assoc]
        exact List.prefix_append ..
      | @whole data r d _ he hlen hr =>
        dsimp only at he hlen
        rw [List.append_assoc, List.append_assoc] at he
        obtain ⟨rfl, hrest⟩ := List.append_inj he hlen.symm
        obtain rfl := List.append_cancel_left hrest
        have hlt : (b.encode ++ rest).length < (part ++ crlf ++ (b.encode ++ rest)).length := by
          simp only [List.length_append]
          omega
        obtain ⟨h1, h2⟩ := ih _ hlt (.between b hs ht) hr rfl
        rw [List.length_append, dropData, if_neg (by omega), Nat.add_sub_cancel_left,
          List.flatten_cons]
        exact ⟨h1, (List.prefix_append_right_inj part).mpr h2⟩
    | behind =>
      obtain ⟨rfl, rfl⟩ := decodes_done h rfl
      exact ⟨.behind, List.nil_prefix⟩

namespace Ctx

theorem ahead_not_halts {rest : List Byte} {c : Cursor} {ps : List (List Byte)}
    (ha : Ahead rest c ps) : ¬ Halts c := by
  rintro ⟨d, c', hd, hdone, hstop⟩
  obtain ⟨⟨x, c'', hstep⟩, hcrlf⟩ := (ahead_decodes ha hd).1.going hdone
  rcases hstop with hstuck | ⟨hpos, htorn⟩
  · exact hstuck x c'' hstep
  · exact htorn (hcrlf hpos)

variable {ctx ctx' : Ctx} {rest : List Byte} {ps : List (List Byte)}

-- ---------------------------------------------------------------------------
-- Where the body is
-- ---------------------------------------------------------------------------

/-- The interim reply, if one is due, can be sent. -/
def Opens (ctx : Ctx) : Prop := ctx.bodyBegin.1 = true

theorem opens_iff : ctx.Opens ↔ Begun ctx ∨
    (ctx.out.through ctx.sock (str "HTTP/1.1 100 Continue\r\n\r\n")).1 = true := by
  by_cases hb : Begun ctx
  · simp [Opens, bodyBegin_begun hb, hb]
  · unfold Opens bodyBegin
    rw [if_neg (by simpa [Begun] using hb)]
    dsimp only
    split <;> simp_all

theorem Begun.opens (h : Begun ctx) : ctx.Opens := opens_iff.mpr (.inl h)

theorem Opens.begins (h : ctx.Opens) :
    ∃ ctx', ctx.bodyBegin = (true, ctx') ∧ Mute ctx ctx' ∧ Begun ctx' := by
  rcases bodyBegin_cases ctx with ⟨ctx', hb, hm⟩ | ⟨ctx', hb, -⟩
  · refine ⟨ctx', hb, hm, ?_⟩
    unfold bodyBegin at hb
    split at hb
    · rename_i hdue
      obtain rfl := (Prod.mk.inj hb).2
      simpa [Begun] using hdue
    · dsimp only at hb
      split at hb
      · obtain rfl := (Prod.mk.inj hb).2
        exact .inr (.inl rfl)
      · cases hb
  · rw [Opens, hb] at h
    cases h

/-- The pieces `ps` are ahead, and the reader has met no error. -/
structure Reading (rest : List Byte) (ps : List (List Byte)) (ctx : Ctx) : Prop where
  fresh : Fresh ctx.feed
  lasting : ctx.feed.Lasting
  error : ctx.feed.view.error = none
  chunked : ctx.req.chunked = true
  err : ctx.bodyErr = 0
  opens : ctx.Opens
  ahead : Ahead rest ctx.cursor ps

theorem Reading.mute (h : Reading rest ps ctx) (hm : Mute ctx ctx') (ho : Begun ctx') :
    Reading rest ps ctx' := by
  obtain ⟨h1, h2, h3, h4, h5, h6, h7, h8⟩ := hm.fields
  refine ⟨by rw [h1]; exact h.fresh, by rw [h1]; exact h.lasting, by rw [h1]; exact h.error,
    by rw [h2]; exact h.chunked, h6.trans h.err, ho.opens, ?_⟩
  rw [cursor, h1, h4, h7]
  exact h.ahead

theorem Reading.decoded {t : Feed} {g k : List Byte} (h : Reading rest ps ctx) (ho : Begun ctx)
    (hm : Feed.Moved ctx.feed t g k) (hf : Fresh t) (hd : Decodes ctx.cursor d ⟨t.stream, m, fin⟩) :
    Reading rest (dropData d.length ps) { ctx with
      feed := t
      chunkLeft := m
      bodyDone := fin
      bodyRead := r } ∧ d <+: ps.flatten := by
  obtain ⟨h1, h2⟩ := ahead_decodes h.ahead hd
  exact ⟨⟨hf, hm.lasting h.lasting, hm.error.trans h.error, h.chunked, h.err, Begun.opens ho, h1⟩,
    h2⟩

-- ---------------------------------------------------------------------------
-- The calls
-- ---------------------------------------------------------------------------

/-- What a call of the handler returns: whether it went well, and the bytes. -/
def answer (ctx : Ctx) : HandlerOp → Bool × List Byte
  | .bodyReadUntil n => ((ctx.bodyReadUntil n).1, (ctx.bodyReadUntil n).2.1)
  | .bodyReadNextChunk cap => ((ctx.bodyReadNextChunk cap).1, (ctx.bodyReadNextChunk cap).2.1)
  | _ => (true, [])

def answers : Ctx → List HandlerOp → List (Bool × List Byte)
  | _, [] => []
  | ctx, op :: ops => ctx.answer op :: answers (ctx.step op) ops

end Ctx

def piecesAnswer (ps : List (List Byte)) : HandlerOp → List Byte
  | .bodyReadUntil n => ps.flatten.take (min n intMax)
  | .bodyReadNextChunk _ => ps.head?.getD []
  | _ => []

def piecesStep (ps : List (List Byte)) : HandlerOp → List (List Byte)
  | .bodyReadUntil n => dropData (min n intMax) ps
  | .bodyReadNextChunk _ => ps.tail
  | _ => ps

def piecesAnswers : List (List Byte) → List HandlerOp → List (List Byte)
  | _, [] => []
  | ps, op :: ops => piecesAnswer ps op :: piecesAnswers (piecesStep ps op) ops

def piecesRun (ps : List (List Byte)) (ops : List HandlerOp) : List (List Byte) :=
  ops.foldl piecesStep ps

def HoldsNext (ps : List (List Byte)) : HandlerOp → Prop
  | .bodyReadNextChunk cap => ∀ p ∈ ps.head?, p.length ≤ cap ∧ cap ≤ intMax
  | _ => True

def HoldNexts : List (List Byte) → List HandlerOp → Prop
  | _, [] => True
  | ps, op :: ops => HoldsNext ps op ∧ HoldNexts (piecesStep ps op) ops

theorem holdNexts_append {ps : List (List Byte)} {ops ops' : List HandlerOp} :
    HoldNexts ps (ops ++ ops') ↔ HoldNexts ps ops ∧ HoldNexts (piecesRun ps ops) ops' := by
  induction ops generalizing ps with
  | nil => simp [HoldNexts, piecesRun]
  | cons op ops ih =>
    rw [List.cons_append, HoldNexts, HoldNexts, ih, and_assoc]
    rfl

/-- The reads that take the body in pieces, and the world's moves between them. -/
def HandlerOp.InPieces : HandlerOp → Prop
  | .bodyReadUntil _ | .bodyReadNextChunk _ | .tick => True
  | _ => False

namespace Ctx

/-- The call came back with less than it might have. -/
def Short (ctx : Ctx) : HandlerOp → Prop
  | .bodyReadUntil n => (ctx.bodyReadUntil n).2.1.length < min n intMax
  | .bodyReadNextChunk cap => (ctx.bodyReadNextChunk cap).2.1 = []
  | _ => False

/-- How a call on the pieces ends. -/
structure Takes (rest : List Byte) (ps : List (List Byte)) (ctx : Ctx) (op : HandlerOp) : Prop where
  answer : ctx.answer op = (true, piecesAnswer ps op)
  reading : Reading rest (piecesStep ps op) (ctx.step op)
  short : ctx.Short op → (ctx.step op).bodyDone = true

theorem bodyReadUntil_takes (h : Reading rest ps ctx) (n : Nat)
    (hroom : (ctx.step (.bodyReadUntil n)).feed.view.error ≠ some .full) :
    Takes rest ps ctx (.bodyReadUntil n) := by
  by_cases h0 : n = 0
  · subst h0
    have hx : ctx.bodyReadUntil 0 = (true, [], ctx) := by
      rw [bodyReadUntil, if_neg (not_not.mpr h.err), if_pos (.inl rfl)]
    refine ⟨?_, ?_, fun hs => ?_⟩
    · simp [answer, hx, piecesAnswer]
    · simpa [step, hx, piecesStep, Chunked.dropData_zero h.ahead.nonempty] using h
    · simp [Short] at hs
  by_cases hd : ctx.bodyDone = true
  · have hx : ctx.bodyReadUntil n = (true, [], ctx) := by
      rw [bodyReadUntil, if_neg (not_not.mpr h.err), if_pos (.inr hd)]
    obtain ⟨rfl, -⟩ := h.ahead.of_done hd
    refine ⟨?_, ?_, fun _ => ?_⟩
    · simp [answer, hx, piecesAnswer]
    · simpa [step, hx, piecesStep, Chunked.dropData] using h
    · rwa [step, hx]
  obtain ⟨ctx₁, hb, hm, ho⟩ := h.opens.begins
  have h₁ := h.mute hm ho
  have hx : ctx.bodyReadUntil n =
      readUntilLoop (ctx₁.feed.stream.length + 2) ctx₁ (min n intMax) [] := by
    rw [bodyReadUntil, if_neg (not_not.mpr h.err), if_neg (by simp [h0, hd]), hb]
  have hr := readUntilLoop_outcome (ctx₁.feed.stream.length + 2) (min n intMax) [] h₁.chunked
    h₁.fresh (by omega) (Nat.zero_le _)
  rw [step, hx] at hroom
  generalize hres : readUntilLoop (ctx₁.feed.stream.length + 2) ctx₁ (min n intMax) [] = r at *
  cases hr with
  | @done t m fin data g hm' hf hdec hle hend =>
    obtain ⟨h2, h3⟩ := h₁.decoded ho hm' hf hdec (r := ctx₁.bodyRead + data.length)
    rw [List.nil_append] at hle hend hx
    obtain ⟨x, hps⟩ := h3
    -- all that was asked for, or all there is
    have hall : data = ps.flatten.take (min n intMax) ∧
        dropData data.length ps = dropData (min n intMax) ps := by
      rcases hend with hlen | rfl
      · rw [hlen, ← hps, ← hlen]
        exact ⟨List.take_left.symm, rfl⟩
      · obtain ⟨hnil, -⟩ := h2.ahead.of_done rfl
        have hx0 : x = [] := by
          have := Chunked.flatten_dropData data.length ps
          rw [hnil, ← hps, List.drop_left] at this
          exact this.symm
        rw [hx0, List.append_nil] at hps
        rw [hnil, ← hps, List.take_of_length_le hle, Chunked.dropData_all (by rwa [← hps])]
        exact ⟨rfl, rfl⟩
    refine ⟨?_, ?_, fun hs => ?_⟩
    · rw [answer, hx, piecesAnswer, ← hall.1]
    · rw [step, hx, piecesStep, ← hall.2]
      exact h2
    · rw [Short, hx] at hs
      rw [step, hx]
      exact hend.resolve_left (Nat.ne_of_lt hs)
  | broken ht he hread hwhy =>
    exact absurd (hwhy h₁.lasting h₁.error hroom) (ahead_not_halts h₁.ahead)

theorem restOfChunk_takes (h : Reading rest ps ctx) (ho : Begun ctx) (hd : ctx.bodyDone = false)
    (h0 : 0 < ctx.chunkLeft) {cap : Nat} (hcap : HoldsNext ps (.bodyReadNextChunk cap))
    (hroom : (ctx.restOfChunk cap).2.2.feed.view.error ≠ some .full) :
    ∃ p ps' ctx', ps = p :: ps' ∧ p ≠ [] ∧ ctx.restOfChunk cap = (true, p, ctx') ∧
      Reading rest ps' ctx' := by
  obtain ⟨p, ps', rfl, hlen⟩ := h.ahead.head h0
  have hne := h.ahead.nonempty
  obtain ⟨h1, h2⟩ := hcap p rfl
  have hlen : p.length = ctx.chunkLeft := hlen
  have hr := nextChunkLoop_outcome (ctx.chunkLeft + 1) ctx.chunkLeft [] h.fresh hd (by omega)
    (by simp)
  unfold restOfChunk at hroom ⊢
  rw [if_neg (by omega)] at hroom ⊢
  generalize nextChunkLoop (ctx.chunkLeft + 1) ctx ctx.chunkLeft [] = r at *
  cases hr with
  | @done t data g hm hf hdec hdata =>
    obtain ⟨h3, x, hx⟩ := h.decoded ho hm hf hdec (r := ctx.bodyRead + data.length)
    obtain ⟨rfl, -⟩ := List.append_inj hx (hdata.trans hlen.symm)
    rw [Chunked.dropData, if_neg (by omega), Nat.sub_self,
      Chunked.dropData_zero fun q hq => hne q (List.mem_cons_of_mem _ hq), ← hd] at h3
    exact ⟨data, ps', _, rfl, hne data (by simp), rfl, h3⟩
  | halting hh => exact absurd (hh.why h.lasting h.error hroom) (ahead_not_halts h.ahead)

theorem bodyReadNextChunk_takes (h : Reading rest ps ctx) {cap : Nat}
    (hcap : HoldsNext ps (.bodyReadNextChunk cap))
    (hroom : (ctx.step (.bodyReadNextChunk cap)).feed.view.error ≠ some .full) :
    Takes rest ps ctx (.bodyReadNextChunk cap) := by
  have hgo : ¬ (ctx.bodyErr ≠ 0 ∨ ¬ ctx.req.chunked = true) := by simp [h.err, h.chunked]
  by_cases hd : ctx.bodyDone = true
  · have hx : ctx.bodyReadNextChunk cap = (true, [], ctx) := by
      rw [bodyReadNextChunk, if_neg hgo, if_pos hd]
    obtain ⟨rfl, -⟩ := h.ahead.of_done hd
    refine ⟨?_, ?_, fun _ => ?_⟩
    · rw [answer, hx, piecesAnswer]
      rfl
    · rw [step, hx]
      exact h
    · rwa [step, hx]
  obtain ⟨ctx₁, hb, hm, ho⟩ := h.opens.begins
  have h₁ := h.mute hm ho
  have hd₁ : ctx₁.bodyDone = false := by
    rw [hm.fields.2.2.2.1]
    simpa using hd
  -- once inside a chunk, the rest of it
  have hrest {ctx₂ : Ctx} (h₂ : Reading rest ps ctx₂) (ho₂ : Begun ctx₂)
      (hd₂ : ctx₂.bodyDone = false) (h0 : 0 < ctx₂.chunkLeft)
      (hx : ctx.bodyReadNextChunk cap = ctx₂.restOfChunk cap) :
      Takes rest ps ctx (.bodyReadNextChunk cap) := by
    rw [step, hx] at hroom
    obtain ⟨p, ps', ctx', rfl, hne, he, hr⟩ := restOfChunk_takes h₂ ho₂ hd₂ h0 hcap hroom
    rw [he] at hx
    refine ⟨?_, ?_, fun hs => ?_⟩
    · rw [answer, hx, piecesAnswer]
      rfl
    · rw [step, hx]
      exact hr
    · rw [Short, hx] at hs
      exact absurd hs hne
  by_cases h0 : ctx₁.chunkLeft = 0
  · have hr := chunkHeader_outcome h₁.fresh h0 hd₁
    generalize hh : ctx₁.chunkHeader = r at hr
    cases hr with
    | @step t m fin g hm' hf hs =>
      obtain ⟨h2, -⟩ := h₁.decoded ho hm' hf (.single hs) (r := ctx₁.bodyRead)
      rw [List.length_nil, Chunked.dropData_zero h₁.ahead.nonempty] at h2
      cases fin with
      | true =>
        have hx : ctx.bodyReadNextChunk cap =
            (true, [], { ctx₁ with feed := t, chunkLeft := m, bodyDone := true }) := by
          rw [bodyReadNextChunk, if_neg hgo, if_neg hd, hb]
          dsimp only
          rw [if_pos h0, hh]
          rfl
        obtain ⟨rfl, -⟩ := h2.ahead.of_done rfl
        refine ⟨?_, ?_, fun _ => ?_⟩
        · rw [answer, hx, piecesAnswer]
          rfl
        · rw [Ctx.step, hx]
          exact h2
        · rw [Ctx.step, hx]
      | false =>
        refine hrest h2 ho rfl (decode_into hs h0 rfl) ?_
        rw [bodyReadNextChunk, if_neg hgo, if_neg hd, hb]
        dsimp only
        rw [if_pos h0, hh]
        rfl
    | @broken ctx₂ hb' =>
      have hx : ctx.bodyReadNextChunk cap = (false, [], ctx₂) := by
        rw [bodyReadNextChunk, if_neg hgo, if_neg hd, hb]
        dsimp only
        rw [if_pos h0, hh]
      rw [step, hx] at hroom
      exact absurd ⟨[], _, .refl _, hd₁, .inl (hb'.why h₁.lasting h₁.error hroom)⟩
        (ahead_not_halts h₁.ahead)
  · refine hrest h₁ ho hd₁ (Nat.pos_of_ne_zero h0) ?_
    rw [bodyReadNextChunk, if_neg hgo, if_neg hd, hb]
    dsimp only
    rw [if_neg h0]

theorem tick_takes (h : Reading rest ps ctx) : Takes rest ps ctx .tick := by
  have hm := Feed.tick_moved h.fresh.ok
  refine ⟨rfl, ⟨⟨hm.ok, ?_⟩, hm.lasting h.lasting, hm.error.trans h.error, h.chunked, h.err, ?_,
    ?_⟩, False.elim⟩
  · rw [show (ctx.step .tick).feed.view = ctx.feed.view from (Feed.tick_quiet h.fresh.ok).1.view]
    exact h.fresh.none
  · have hopen := opens_iff.mp h.opens
    exact opens_iff.mpr hopen
  · rw [cursor, show (ctx.step .tick).feed.stream = ctx.feed.stream from hm.stream.symm]
    exact h.ahead

theorem step_takes (h : Reading rest ps ctx) {op : HandlerOp} (hop : op.InPieces)
    (hnext : HoldsNext ps op) (hroom : (ctx.step op).feed.view.error ≠ some .full) :
    Takes rest ps ctx op := by
  cases op with
  | bodyReadUntil n => exact bodyReadUntil_takes h n hroom
  | bodyReadNextChunk cap => exact bodyReadNextChunk_takes h hnext hroom
  | tick => exact tick_takes h
  | head | write | reserve | flush | onHead | bodyAll => exact hop.elim

-- ---------------------------------------------------------------------------
-- Runs, and the body as a whole
-- ---------------------------------------------------------------------------

theorem run_reading (h : Reading rest ps ctx) {ops : List HandlerOp}
    (hops : ∀ op ∈ ops, op.InPieces) (hnext : HoldNexts ps ops)
    (hroom : ∀ ops', ops' <+: ops → (ctx.run ops').feed.view.error ≠ some .full) :
    Reading rest (piecesRun ps ops) (ctx.run ops) ∧
      ctx.answers ops = (piecesAnswers ps ops).map (true, ·) := by
  induction ops generalizing ctx ps with
  | nil => exact ⟨h, rfl⟩
  | cons op ops ih =>
    have ht := step_takes h (hops op (by simp)) hnext.1 (hroom [op] ⟨ops, rfl⟩)
    obtain ⟨h1, h2⟩ := ih ht.reading (fun x hx => hops x (List.mem_cons_of_mem _ hx)) hnext.2
      fun ops' hp => hroom (op :: ops') ((List.cons_prefix_cons).mpr ⟨rfl, hp⟩)
    refine ⟨h1, ?_⟩
    rw [answers, ht.answer, h2]
    rfl

theorem ahead_whole {c c' : Cursor} {d : List Byte} (h : Ahead rest c ps) (hd : Decodes c d c')
    (hdone : c'.done = true) : d = ps.flatten ∧ c'.stream = rest := by
  obtain ⟨h1, x, hx⟩ := ahead_decodes h hd
  obtain ⟨hnil, hs⟩ := h1.of_done hdone
  have hf := Chunked.flatten_dropData d.length ps
  rw [hnil, ← hx, List.drop_left] at hf
  rw [← hx, ← hf]
  exact ⟨(List.append_nil d).symm, hs⟩

theorem bodyAll_reading (h : Reading rest ps ctx) (hread : ctx.bodyRead = 0)
    (hwhole : ctx.bodyWhole = false) (hkept : ctx.feed.view.kept = [])
    (hroom : ctx.bodyAll.2.feed.view.error ≠ some .full) :
    ctx.bodyAll.2.feed.bytes ctx.bodyAll.1 = ps.flatten ∧ ctx.bodyAll.2.bodyErr = 0 ∧
      ctx.bodyAll.2.bodyDone = true ∧ ctx.bodyAll.2.feed.stream = rest := by
  have hw : ¬ ctx.bodyWhole = true := by simp [hwhole]
  have hgo : ¬ (ctx.bodyRead ≠ 0 ∨ ctx.bodyErr ≠ 0) := by simp [hread, h.err]
  obtain ⟨ctx₁, hm, hx⟩ : ∃ ctx₁, Mute ctx ctx₁ ∧ ctx.bodyAll = ctx₁.allChunked := by
    by_cases hd : ctx.bodyDone = true
    · refine ⟨ctx, .refl ctx, ?_⟩
      rw [bodyAll, if_neg hw, if_neg hgo, if_pos hd]
      exact if_pos h.chunked
    · obtain ⟨ctx₁, hb, hm, -⟩ := h.opens.begins
      refine ⟨ctx₁, hm, ?_⟩
      rw [bodyAll, if_neg hw, if_neg hgo, if_neg hd, hb]
      exact if_pos (by rw [hm.fields.2.1]; exact h.chunked)
  obtain ⟨h1, h2, h3, h4, h5, h6, h7, h8⟩ := hm.fields
  rw [← h1] at hkept
  have hahead : Ahead rest ctx₁.cursor ps := by
    rw [cursor, h1, h4, h7]
    exact h.ahead
  have ho := allChunksLoop_outcome (ctx₁.feed.stream.length + 2) (by rw [h1]; exact h.fresh)
    (by omega)
  rw [hx] at hroom ⊢
  unfold allChunked at hroom ⊢
  generalize allChunksLoop (ctx₁.feed.stream.length + 2) ctx₁ = r at *
  cases ho with
  | @done t m data g hm' hf hd =>
    obtain ⟨rfl, hs⟩ := ahead_whole hahead hd rfl
    refine ⟨?_, h6.trans h.err, rfl, hs⟩
    have hk := hm'.kept
    rw [hkept, List.nil_append] at hk
    exact hk
  | halting hh =>
    refine absurd (hh.why ?_ ?_ hroom) (ahead_not_halts hahead)
    · rw [h1]
      exact h.lasting
    · rw [h1]
      exact h.error

end Ctx

/-- What is read of a body in pieces: as the pieces have it, all of it in the
end, short at its end only, and the end is behind the last CRLF. -/
structure ReadsPieces (rest : List Byte) (ps : List (List Byte)) (ctx : Ctx)
    (ops : List HandlerOp) : Prop where
  answers : ctx.answers ops = (piecesAnswers ps ops).map (true, ·)
  whole : (piecesAnswers ps ops).flatten ++ (piecesRun ps ops).flatten = ps.flatten
  ended : (ctx.run ops).bodyDone = true → piecesRun ps ops = [] ∧ (ctx.run ops).feed.stream = rest
  short : ∀ ops' op, ops = ops' ++ [op] → (ctx.run ops').Short op → (ctx.run ops).bodyDone = true

theorem piecesAnswer_whole (ps : List (List Byte)) (op : HandlerOp) :
    piecesAnswer ps op ++ (piecesStep ps op).flatten = ps.flatten := by
  cases op with
  | bodyReadUntil n =>
    rw [piecesAnswer, piecesStep, Chunked.flatten_dropData, List.take_append_drop]
  | bodyReadNextChunk cap => cases ps <;> rfl
  | head | write | reserve | flush | onHead | bodyAll | tick => rfl

theorem piecesAnswers_whole (ps : List (List Byte)) (ops : List HandlerOp) :
    (piecesAnswers ps ops).flatten ++ (piecesRun ps ops).flatten = ps.flatten := by
  induction ops generalizing ps with
  | nil => rfl
  | cons op ops ih =>
    calc (piecesAnswers ps (op :: ops)).flatten ++ (piecesRun ps (op :: ops)).flatten
        = piecesAnswer ps op ++ ((piecesAnswers (piecesStep ps op) ops).flatten ++
            (piecesRun (piecesStep ps op) ops).flatten) := by
          rw [piecesAnswers, List.flatten_cons, List.append_assoc]
          rfl
      _ = piecesAnswer ps op ++ (piecesStep ps op).flatten := by rw [ih]
      _ = ps.flatten := piecesAnswer_whole ps op

/-- The three reads of a well-formed body, however its bytes come in. -/
theorem chunked_reads {conn : Conn} {req : Request} (scratch : Scratch) (b : Body)
    {rest : List Byte} (hsizes : ∀ c ∈ b.chunks, c.data.length ≤ sizeMax)
    (htrailers : (encodeTrailers b.trailers).length ≤ trailerMax)
    (hfeed : Ctx.Fresh conn.feed) (hlast : conn.feed.Lasting) (herr : conn.feed.view.error = none)
    (hkept : conn.feed.view.kept = []) (hstream : conn.feed.stream = b.encode ++ rest)
    (hc : req.chunked = true) (hopen : (Ctx.init conn req scratch).Opens) :
    (∀ all, (Ctx.init conn req scratch).bodyAll = all → all.2.feed.view.error ≠ some .full →
      all.2.feed.bytes all.1 = b.data ∧ all.2.bodyErr = 0 ∧ all.2.bodyDone = true ∧
        all.2.feed.stream = rest) ∧
    ∀ ops : List HandlerOp, (∀ op ∈ ops, op.InPieces) →
      HoldNexts (b.chunks.map (·.data)) ops →
      (∀ ops', ops' <+: ops →
        ((Ctx.init conn req scratch).run ops').feed.view.error ≠ some .full) →
      ReadsPieces rest (b.chunks.map (·.data)) (Ctx.init conn req scratch) ops := by
  have hcur : (Ctx.init conn req scratch).cursor = ⟨b.encode ++ rest, 0, false⟩ := by
    rw [← hstream]
    simp [Ctx.cursor, Ctx.init, hc]
  have hstart : Ctx.Reading rest (b.chunks.map (·.data)) (Ctx.init conn req scratch) :=
    ⟨hfeed, hlast, herr, hc, rfl, hopen, by rw [hcur]; exact .between b hsizes htrailers⟩
  constructor
  · rintro all rfl hroom
    have hall := Ctx.bodyAll_reading hstart rfl rfl hkept hroom
    rw [Body.data, List.flatMap_def]
    exact hall
  · intro ops hops hnext hroom
    obtain ⟨h1, h2⟩ := Ctx.run_reading hstart hops hnext hroom
    refine ⟨h2, piecesAnswers_whole _ ops, fun hd => h1.ahead.of_done hd, ?_⟩
    rintro ops' op rfl hs
    have hnext' := (holdNexts_append.mp hnext)
    obtain ⟨h3, -⟩ := Ctx.run_reading hstart (fun x hx => hops x (List.mem_append_left _ hx))
      hnext'.1 fun p hp => hroom p (hp.trans (List.prefix_append ..))
    have ht := Ctx.step_takes h3 (hops op (by simp)) hnext'.2.1 ?_
    · rw [Ctx.run, List.foldl_append]
      exact ht.short hs
    · have := hroom _ List.prefix_rfl
      rwa [Ctx.run, List.foldl_append] at this

-- ---------------------------------------------------------------------------
-- The longest read
-- ---------------------------------------------------------------------------

theorem copyLoop_length_le (n fuel : Nat) (f : Feed) :
    (f.copyLoop n fuel).2.1.length ≤ n := by
  induction fuel generalizing f with
  | zero => exact Nat.zero_le n
  | succ fuel ih =>
    unfold Feed.copyLoop
    split
    · exact (List.length_take_le ..).trans (Nat.min_le_right ..)
    split
    · exact ih _
    · exact Nat.zero_le n

theorem copy_length_le (n : Nat) (f : Feed) : (f.copy n).2.1.length ≤ n := by
  unfold Feed.copy
  split
  · exact Nat.zero_le n
  · exact copyLoop_length_le ..

namespace Ctx

theorem readTurn_length_le {ctx : Ctx} {n : Nat} {data : List Byte}
    (h : (ctx.readTurn n).1 = some data) : data.length ≤ n := by
  -- what was copied was asked for
  have hcopy {k : Nat} {rc : Rc} {x : List Byte} {f : Feed} (hk : k ≤ n)
      (he : ctx.feed.copy k = (rc, x, f)) : x.length ≤ n := by
    have := copy_length_le k ctx.feed
    rw [he] at this
    exact this.trans hk
  unfold readTurn at h
  split at h
  · unfold fixedData at h
    dsimp only at h
    split at h
    · rename_i he
      exact Option.some.inj h ▸ hcopy (Nat.min_le_left ..) he
    · cases h
  split at h
  · split at h
    · cases h
      exact Nat.zero_le n
    · cases h
  · unfold chunkData at h
    dsimp only at h
    split at h
    · rename_i he
      split at h <;> exact Option.some.inj h ▸ hcopy (Nat.min_le_left ..) he
    · cases h

theorem readUntilLoop_length_le (turns n : Nat) (ctx : Ctx) {dst : List Byte}
    (h : dst.length ≤ n) : (readUntilLoop turns ctx n dst).2.1.length ≤ n := by
  induction turns generalizing ctx dst with
  | zero => exact h
  | succ turns ih =>
    unfold readUntilLoop
    split
    · split
      · exact h
      · rename_i he
        have := readTurn_length_le (congrArg Prod.fst he)
        exact ih _ (by rw [List.length_append]; omega)
    · exact h

theorem bodyReadUntil_length_le (ctx : Ctx) (n : Nat) :
    (ctx.bodyReadUntil n).2.1.length ≤ intMax := by
  unfold bodyReadUntil
  split
  · exact Nat.zero_le _
  split
  · exact Nat.zero_le _
  split
  · exact Nat.zero_le _
  · exact (readUntilLoop_length_le _ _ _ (Nat.zero_le _)).trans (Nat.min_le_right ..)

end Ctx

-- ---------------------------------------------------------------------------
-- A body in three buffers
-- ---------------------------------------------------------------------------

theorem hex_five : Hex (str "5") 5 := ⟨by decide, List.all_eq_true.mp (by decide), by decide⟩

theorem hex_zero : Hex (str "0") 0 := ⟨by decide, List.all_eq_true.mp (by decide), by decide⟩

def helloBody : Body where
  chunks := [⟨str "5", [], str "hello", hex_five, .inl rfl, by decide⟩]
  lastSize := str "0"
  lastExt := []
  trailers := [str "x: y"]
  zero := hex_zero
  extended := Chunked.extension_nil
  lines := by
    intro t ht
    obtain rfl := List.mem_singleton.mp ht
    decide

def helloConn : Conn :=
  ⟨.init (fun _ => 0) 256 (fun _ _ => 0) [.deliver 0 (str "5\r\nhe"), .deliver 1 (str "llo\r"),
      .deliver 2 (str "\n0\r\nx: y\r\n\r\n"), .fin false],
    .init (fun _ => 0) pipeLead pipeCap pipeSlack, ⟨[], []⟩⟩

def helloRequest : Request :=
  { Request.parsed ⟨str "POST", str "/", 1, []⟩ with chunked := true }

def helloCtx : Ctx := Ctx.init helloConn helloRequest ⟨fun _ => 0, fun _ => 0, fun _ => 0⟩

theorem chunked_reads_hello :
    helloCtx.bodyAll.2.feed.bytes helloCtx.bodyAll.1 = helloBody.data ∧
    ReadsPieces [] [str "hello"] helloCtx [.bodyReadUntil 2, .bodyReadNextChunk 8] := by
  have hs : ∀ c ∈ helloBody.chunks, c.data.length ≤ sizeMax := by
    intro c hc
    obtain rfl := List.mem_singleton.mp hc
    decide
  have hstream : helloConn.feed.stream = helloBody.encode ++ [] := by decide
  have hlast : helloConn.feed.Lasting := ⟨by decide, by decide, rfl, rfl, trivial⟩
  have hfresh : Ctx.Fresh helloConn.feed := ⟨Feed.init_ok _ _ _ _, rfl⟩
  have herr : helloConn.feed.view.error = none := by decide
  have hkept : helloConn.feed.view.kept = [] := by decide
  have hc : helloRequest.chunked = true := by decide
  have hopen : helloCtx.Opens := Ctx.Begun.opens (.inl (by decide))
  have h := chunked_reads ⟨fun _ => 0, fun _ => 0, fun _ => 0⟩ helloBody hs (by decide) hfresh hlast
    herr hkept hstream hc hopen
  have hroom : helloCtx.bodyAll.2.feed.view.error ≠ some .full := by decide +kernel
  refine ⟨(h.1 helloCtx.bodyAll rfl hroom).1, h.2 _ ?_ ?_ ?_⟩
  · intro op hop
    rcases List.mem_pair.mp hop with rfl | rfl <;> trivial
  · refine ⟨trivial, ?_, trivial⟩
    rintro p hp
    obtain rfl := Option.some.inj hp
    decide
  · intro ops' hp
    rcases List.prefix_cons_iff.mp hp with rfl | ⟨t, rfl, htail⟩
    · exact show helloConn.feed.view.error ≠ some .full by decide
    rcases List.prefix_cons_iff.mp htail with rfl | ⟨t, rfl, hend⟩
    · exact show (helloCtx.run [.bodyReadUntil 2]).feed.view.error ≠ some .full by decide +kernel
    obtain rfl := List.prefix_nil.mp hend
    exact show (helloCtx.run [.bodyReadUntil 2, .bodyReadNextChunk 8]).feed.view.error ≠
      some .full by decide +kernel

/-- No read is longer than its result can say: a buffer of more than `INT_MAX`
bytes is refused, however small the chunk, and a size above it is cut. -/
theorem large_sizes_clamped :
    helloConn.feed.stream = helloBody.encode ++ [] ∧ helloCtx.Opens ∧
    (∀ p ∈ (helloBody.chunks.map (·.data)).head?, p.length ≤ intMax + 1) ∧
    helloCtx.answer (.bodyReadNextChunk (intMax + 1)) = (false, []) ∧
    (helloCtx.step (.bodyReadNextChunk (intMax + 1))).bodyErr = 413 ∧
    ∀ (ctx : Ctx) (n : Nat), (ctx.bodyReadUntil n).2.1.length ≤ intMax := by
  refine ⟨by decide, Ctx.Begun.opens (.inl (by decide)), ?_, by decide +kernel, by decide +kernel,
    Ctx.bodyReadUntil_length_le⟩
  rintro p hp
  obtain rfl := Option.some.inj hp
  decide

end Ioxd.Http
