import Ioxd.Http.MuteLaws
import Ioxd.Http.ReadLaws

/-!
# The body calls

Where each call of a handler leaves the body: `Progress fr S ctx d` says that the
reader has moved from the stream `S` over the bytes that carry `d`, in the
framing of the request. It holds as long as no error is recorded, and an error
stays recorded.
-/

namespace Ioxd.Http

open Flat
open Ioxd.Pipe
open Chunked (Cursor)

/-- The length the body is framed by, or `none` when it is chunked. -/
def Request.bodyLength (req : Request) : Option Nat :=
  if req.chunked then none else some req.contentLength

namespace Ctx

variable {ctx ctx' : Ctx} {fr : Option Nat} {S d : List Byte}

theorem bodyBegin_cases (ctx : Ctx) :
    (∃ ctx', ctx.bodyBegin = (true, ctx') ∧ Mute ctx ctx') ∨
      ∃ ctx', ctx.bodyBegin = (false, { ctx' with bodyErr := -1 }) ∧ Mute ctx ctx' := by
  unfold bodyBegin
  split
  · exact .inl ⟨ctx, rfl, .refl ctx⟩
  · dsimp only
    split
    · exact .inl ⟨_, rfl, rfl, fun h => h⟩
    · exact .inr ⟨{ ctx with
        continueSent := true
        out := (ctx.out.through ctx.sock (str "HTTP/1.1 100 Continue\r\n\r\n")).2.1
        sock := (ctx.out.through ctx.sock (str "HTTP/1.1 100 Continue\r\n\r\n")).2.2 },
        rfl, rfl, fun h => h⟩

inductive Progress (fr : Option Nat) (S : List Byte) (ctx : Ctx) : List Byte → Prop
  | chunked {d : List Byte} : ctx.req.chunked = true → Decodes ⟨S, 0, false⟩ d ctx.cursor →
      ctx.bodyRead = d.length → ctx.req.bodyLength = fr → Progress fr S ctx d
  | fixed {d : List Byte} : ctx.req.chunked = false → S = d ++ ctx.feed.stream →
      ctx.bodyRead = d.length → d.length ≤ ctx.req.contentLength →
      (ctx.bodyDone = true ↔ d.length = ctx.req.contentLength) → ctx.req.bodyLength = fr →
      Progress fr S ctx d

structure Sane (fr : Option Nat) (S : List Byte) (ctx : Ctx) : Prop where
  ok : ctx.feed.Ok
  going : ctx.bodyErr = 0 → Fresh ctx.feed ∧ ∃ d, Progress fr S ctx d

theorem sane_of_error (h : ctx.feed.Ok) (he : ctx.bodyErr ≠ 0) : Sane fr S ctx :=
  ⟨h, fun h0 => absurd h0 he⟩

theorem Progress.congr (h : Progress fr S ctx d) (hf : ctx'.feed.stream = ctx.feed.stream)
    (hq : ctx'.req.chunked = ctx.req.chunked ∧ ctx'.req.contentLength = ctx.req.contentLength)
    (hb : ctx'.bodyRead = ctx.bodyRead ∧ ctx'.bodyDone = ctx.bodyDone ∧
      ctx'.chunkLeft = ctx.chunkLeft) : Progress fr S ctx' d := by
  obtain ⟨h1, h2, h3⟩ := hb
  have hfr : ctx'.req.bodyLength = ctx.req.bodyLength := by
    rw [Request.bodyLength, Request.bodyLength, hq.1, hq.2]
  cases h with
  | chunked hc hd hr hfr' =>
    refine .chunked (hq.1.trans hc) ?_ (h1.trans hr) (hfr.trans hfr')
    rwa [cursor, hf, h2, h3]
  | fixed hc hs hr hle hdone hfr' =>
    refine .fixed (hq.1.trans hc) (hf ▸ hs) (h1.trans hr) (by rw [hq.2]; exact hle) ?_
      (hfr.trans hfr')
    rw [h2, hq.2]
    exact hdone

theorem Progress.mute (h : Progress fr S ctx d) (hm : Mute ctx ctx') : Progress fr S ctx' d := by
  obtain ⟨h1, h2, h3, h4, h5, h6, h7, h8⟩ := hm.fields
  exact h.congr (by rw [h1]) (by rw [h2]; exact ⟨rfl, rfl⟩) ⟨h3, h4, h7⟩

theorem Sane.mute (h : Sane fr S ctx) (hm : Mute ctx ctx') : Sane fr S ctx' := by
  obtain ⟨h1, h2, h3, h4, h5, h6, h7, h8⟩ := hm.fields
  refine ⟨by rw [h1]; exact h.ok, fun h0 => ?_⟩
  obtain ⟨hf, d, hp⟩ := h.going (h6.symm.trans h0)
  exact ⟨by rw [h1]; exact hf, d, hp.mute hm⟩

-- ---------------------------------------------------------------------------
-- A body of a known length
-- ---------------------------------------------------------------------------

inductive FixedOutcome (ctx : Ctx) (n : Nat) (dst : List Byte) : Bool × List Byte × Ctx → Prop
  | done {t : Feed} {data : List Byte} {fin : Bool} : Feed.Moved ctx.feed t data [] → Fresh t →
      ctx.bodyRead + data.length ≤ ctx.req.contentLength →
      (fin = true ↔ ctx.bodyRead + data.length = ctx.req.contentLength) →
      (dst ++ data).length ≤ n → ((dst ++ data).length = n ∨ fin = true) →
      FixedOutcome ctx n dst (true, dst ++ data, { ctx with
        feed := t
        bodyDone := fin
        bodyRead := ctx.bodyRead + data.length })
  | broken {ctx' : Ctx} {data : List Byte} : Tame ctx ctx' → ctx'.bodyErr ≠ 0 →
      FixedOutcome ctx n dst (false, dst ++ data, ctx')

theorem readUntilLoop_fixed (turns n : Nat) (dst : List Byte) (hc : ctx.req.chunked = false)
    (h : Fresh ctx.feed) (hlt : ctx.feed.stream.length < turns) (hle : dst.length ≤ n)
    (hr : ctx.bodyRead ≤ ctx.req.contentLength)
    (hd : ctx.bodyDone = true ↔ ctx.bodyRead = ctx.req.contentLength) :
    FixedOutcome ctx n dst (readUntilLoop turns ctx n dst) := by
  induction turns generalizing ctx dst with
  | zero => omega
  | succ turns ih =>
    unfold readUntilLoop
    by_cases hcond : dst.length < n ∧ ¬ ctx.bodyDone = true
    swap
    · rw [if_neg hcond]
      have hx := @FixedOutcome.done ctx n dst _ [] ctx.bodyDone (.refl h.ok) h hr hd (by simpa using hle) (by
          by_cases hf : ctx.bodyDone = true
          · exact .inr hf
          · refine .inl ?_
            rw [List.append_nil]
            by_contra hne
            exact hcond ⟨by omega, hf⟩)
      rwa [List.append_nil] at hx
    rw [if_pos hcond]
    have hlt' : ctx.bodyRead < ctx.req.contentLength :=
      Nat.lt_of_le_of_ne hr fun he => hcond.2 (hd.mpr he)
    unfold readTurn
    rw [if_pos (by simp [hc])]
    have ho := copy_take h (n := min (n - dst.length) (ctx.req.contentLength - ctx.bodyRead))
      (by omega)
    unfold fixedData
    dsimp only
    generalize ctx.feed.copy (min (n - dst.length) (ctx.req.contentLength - ctx.bodyRead)) = r at ho
    cases ho with
    | @some t data hm hf hne hlen =>
      dsimp only
      have hpos := List.length_pos_iff.mpr hne
      have hs : t.stream.length < ctx.feed.stream.length := by
        rw [hm.stream, List.length_append]
        omega
      have hfin : (ctx.bodyDone || decide (ctx.bodyRead + data.length = ctx.req.contentLength)) =
          true ↔ ctx.bodyRead + data.length = ctx.req.contentLength := by
        simp [hcond.2]
      have hr' := @ih { ctx with
        feed := t
        bodyRead := ctx.bodyRead + data.length
        bodyDone := ctx.bodyDone ||
          decide (ctx.bodyRead + data.length = ctx.req.contentLength) } (dst ++ data) hc hf
        (by show t.stream.length < _; omega) (by rw [List.length_append]; omega)
        (by show ctx.bodyRead + data.length ≤ ctx.req.contentLength; omega) hfin
      generalize readUntilLoop turns { ctx with
        feed := t
        bodyRead := ctx.bodyRead + data.length
        bodyDone := ctx.bodyDone ||
          decide (ctx.bodyRead + data.length = ctx.req.contentLength) } n (dst ++ data) = r at hr'
      cases hr' with
      | @done u data' fin hm' hf' hle' hfin' hn hend =>
        rw [List.append_assoc] at hn hend ⊢
        dsimp only at hle' hfin'
        have hx := @FixedOutcome.done ctx n dst _ _ fin (hm.trans hm') hf'
          (by rw [List.length_append, ← Nat.add_assoc]; exact hle')
          (by rw [List.length_append, ← Nat.add_assoc]; exact hfin') hn hend
        rwa [List.length_append, ← Nat.add_assoc] at hx
      | @broken ctx' data' ht he =>
        rw [List.append_assoc]
        exact .broken (ht.behind rfl rfl rfl) he
    | @none t rc hrc hok hw =>
      have hx := @FixedOutcome.broken ctx n dst _ [] (tame_gone ctx hok) (by simp)
      rw [List.append_nil] at hx
      cases rc with
      | some => exact absurd rfl hrc
      | ended => exact hx
      | error e => exact hx

theorem allFixed_sane (h : Fresh ctx.feed) (hp : Progress fr S ctx [])
    (hc : ctx.req.chunked = false) : Sane fr S ctx.allFixed.2 := by
  obtain ⟨hs, hr, hfr⟩ : S = ctx.feed.stream ∧ ctx.bodyRead = 0 ∧ ctx.req.bodyLength = fr := by
    cases hp with
    | chunked hc' => simp [hc] at hc'
    | fixed _ hs hr _ _ hfr => exact ⟨hs, hr, hfr⟩
  unfold allFixed
  split
  · exact sane_of_error h.ok (bodyFail_err (by decide))
  split
  · rename_i h0
    refine ⟨h.ok, fun _ => ⟨h, [], .fixed hc hs rfl (Nat.zero_le _) ?_ hfr⟩⟩
    simp [wholeBody, h0]
  rename_i hcap h0
  have ho := scan_outcome (enough ctx.req.contentLength) h
    (by simp [enough]; omega)
  generalize scan (enough ctx.req.contentLength) (ctx.feed.left + 2) ctx = r at ho
  cases ho with
  | broken hb => exact sane_of_error hb.ok hb.err
  | @found t u hm hf hb =>
    have hlen : ctx.req.contentLength ≤ t.live.length := by
      unfold enough at hf
      split at hf
      · cases hf
      · omega
    have hx : t.view.examined < ctx.req.contentLength := by
      by_contra hle
      unfold enough at hb
      split at hb
      · rename_i hlt
        rw [List.length_take] at hlt
        omega
      · cases hb
    have hk := Feed.keep_outcome hm.ok (Nat.pos_of_ne_zero h0) hlen
    dsimp only
    generalize t.keep ctx.req.contentLength = r at hk
    cases hk with
    | full hst => exact sane_of_error hst.ok (bodyFail_err (by decide))
    | @kept q v hq hst hbytes =>
      have hm' := hm.trans hst.kept
      have hl : (t.live.take ctx.req.contentLength).length = ctx.req.contentLength := by
        rw [List.length_take]
        omega
      have hfresh : Fresh v := by
        refine ⟨hst.ok, ?_⟩
        have : t.view.live.length = t.live.length := rfl
        rw [hst.view]
        simp only [View.keep, View.consume]
        omega
      have hend (body : Slice) : Sane fr S ({ ctx with
          feed := v
          bodyRead := ctx.req.contentLength
          bodyDone := true }.wholeBody body).2 := by
        refine ⟨hst.ok, fun _ => ⟨hfresh, t.live.take ctx.req.contentLength, .fixed hc ?_ hl.symm
          (Nat.le_of_eq hl) ?_ hfr⟩⟩
        · rw [hs, hm'.stream]
          rfl
        · simp [wholeBody, hl]
      cases q with
      | null => exact absurd rfl hq
      | buf off => exact hend _
      | kernel i off => exact hend _

-- ---------------------------------------------------------------------------
-- Every call
-- ---------------------------------------------------------------------------

theorem Progress.decodes {t : Feed} (h : Progress fr S ctx d) (hc : ctx.req.chunked = true)
    (hd : Decodes ctx.cursor x ⟨t.stream, m, fin⟩) : Progress fr S { ctx with
      feed := t
      chunkLeft := m
      bodyDone := fin
      bodyRead := ctx.bodyRead + x.length } (d ++ x) := by
  cases h with
  | chunked _ hs hr hfr =>
    refine .chunked hc (hs.trans hd) ?_ hfr
    rw [List.length_append, ← hr]
  | fixed hc' => simp [hc] at hc'

/-- A read that has something to read fails before it begins, or is its loop. -/
theorem bodyReadUntil_cases (he : ctx.bodyErr = 0) (hd : ctx.bodyDone = false) {n : Nat}
    (hn : 0 < n) : ∃ ctx₁, Mute ctx ctx₁ ∧
      (ctx.bodyReadUntil n = (false, [], { ctx₁ with bodyErr := -1 }) ∨ ctx.bodyReadUntil n =
        readUntilLoop (ctx₁.feed.stream.length + 2) ctx₁ (min n intMax) []) := by
  unfold bodyReadUntil
  rw [if_neg (not_not.mpr he), if_neg (by simp [hd]; omega)]
  rcases bodyBegin_cases ctx with ⟨ctx₁, hb, hm⟩ | ⟨ctx₁, hb, hm⟩
  · exact ⟨ctx₁, hm, .inr (by rw [hb])⟩
  · exact ⟨ctx₁, hm, .inl (by rw [hb])⟩

theorem readUntilLoop_progress (hf : Fresh ctx.feed) (hp : Progress fr S ctx d) (n : Nat) :
    (ctx.req.chunked = true ∧
        UntilOutcome ctx n [] (readUntilLoop (ctx.feed.stream.length + 2) ctx n [])) ∨
      (ctx.req.chunked = false ∧
        FixedOutcome ctx n [] (readUntilLoop (ctx.feed.stream.length + 2) ctx n [])) := by
  cases hp with
  | chunked hc =>
    exact .inl ⟨hc, readUntilLoop_outcome _ n [] hc hf (by omega) (Nat.zero_le _)⟩
  | fixed hc _ hr hle hdone =>
    refine .inr ⟨hc, readUntilLoop_fixed _ n [] hc hf (by omega) (Nat.zero_le _) (hr ▸ hle) ?_⟩
    rw [hr]
    exact hdone

theorem Progress.reads {t : Feed} {data : List Byte} {fin : Bool} (h : Progress fr S ctx d)
    (hc : ctx.req.chunked = false) (hm : Feed.Moved ctx.feed t data [])
    (hle : ctx.bodyRead + data.length ≤ ctx.req.contentLength)
    (hfin : fin = true ↔ ctx.bodyRead + data.length = ctx.req.contentLength) :
    Progress fr S { ctx with
      feed := t
      bodyDone := fin
      bodyRead := ctx.bodyRead + data.length } (d ++ data) := by
  cases h with
  | chunked hc' => simp [hc] at hc'
  | fixed _ hs hr _ _ hfr =>
    refine .fixed hc ?_ ?_ ?_ ?_ hfr
    · rw [hs, hm.stream, List.append_assoc]
    · rw [List.length_append, ← hr]
    · rw [List.length_append, ← hr]
      exact hle
    · rw [List.length_append, ← hr]
      exact hfin

theorem bodyReadUntil_sane (h : Sane fr S ctx) (n : Nat) : Sane fr S (ctx.bodyReadUntil n).2.2 := by
  by_cases he : ctx.bodyErr = 0
  swap
  · rw [bodyReadUntil, if_pos he]
    exact h
  by_cases hn : n = 0 ∨ ctx.bodyDone = true
  · rw [bodyReadUntil, if_neg (not_not.mpr he), if_pos hn]
    exact h
  rw [not_or, Bool.not_eq_true] at hn
  obtain ⟨ctx₁, hm, hr⟩ := bodyReadUntil_cases he hn.2 (Nat.pos_of_ne_zero hn.1)
  obtain ⟨hf, d, hp⟩ := (h.mute hm).going (hm.fields.2.2.2.2.2.1.trans he)
  rcases hr with hr | hr
  · rw [hr]
    exact sane_of_error hf.ok (by simp)
  rw [hr]
  rcases readUntilLoop_progress hf hp (min n intMax) with ⟨hc, ho⟩ | ⟨hc, ho⟩
  · generalize readUntilLoop (ctx₁.feed.stream.length + 2) ctx₁ (min n intMax) [] = r at ho
    cases ho with
    | done hm' hf' hd => exact ⟨hf'.ok, fun _ => ⟨hf', _, hp.decodes hc hd⟩⟩
    | broken ht he' => exact sane_of_error ht.ok he'
  · generalize readUntilLoop (ctx₁.feed.stream.length + 2) ctx₁ (min n intMax) [] = r at ho
    cases ho with
    | done hm' hf' hle hfin => exact ⟨hf'.ok, fun _ => ⟨hf', _, hp.reads hc hm' hle hfin⟩⟩
    | broken ht he' => exact sane_of_error ht.ok he'

theorem restOfChunk_sane (hf : Fresh ctx.feed) (hp : Progress fr S ctx d)
    (hc : ctx.req.chunked = true) (hd : ctx.bodyDone = false) (cap : Nat) :
    Sane fr S (ctx.restOfChunk cap).2.2 := by
  unfold restOfChunk
  split
  · exact sane_of_error hf.ok (bodyFail_err (by decide))
  · have ho := nextChunkLoop_outcome (ctx.chunkLeft + 1) ctx.chunkLeft [] hf hd (by omega) (by simp)
    generalize nextChunkLoop (ctx.chunkLeft + 1) ctx ctx.chunkLeft [] = r at ho
    cases ho with
    | done hm hf' hdec =>
      have hx := hp.decodes hc hdec
      rw [← hd] at hx
      exact ⟨hf'.ok, fun _ => ⟨hf', _, hx⟩⟩
    | halting hh => exact sane_of_error hh.tame.ok hh.err

theorem bodyReadNextChunk_sane (h : Sane fr S ctx) (cap : Nat) :
    Sane fr S (ctx.bodyReadNextChunk cap).2.2 := by
  unfold bodyReadNextChunk
  split
  · exact h
  rename_i he
  rw [not_or, not_not, not_not] at he
  split
  · exact h
  rename_i hd
  rcases bodyBegin_cases ctx with ⟨ctx₁, hb, hm⟩ | ⟨ctx₁, hb, hm⟩
  · rw [hb]
    dsimp only
    obtain ⟨h1, h2, h3, h4, h5, h6, h7, h8⟩ := hm.fields
    obtain ⟨hf, d, hp⟩ := (h.mute hm).going (h6.trans he.1)
    have hc : ctx₁.req.chunked = true := by rw [h2]; exact he.2
    have hd₁ : ctx₁.bodyDone = false := by rw [h4]; simpa using hd
    split
    · rename_i h0
      have ho := chunkHeader_outcome hf h0 hd₁
      generalize ctx₁.chunkHeader = r at ho
      cases ho with
      | @step t n fin g hm' hf' hs =>
        dsimp only
        have hx := hp.decodes hc (.single hs)
        cases fin with
        | true => exact ⟨hf'.ok, fun _ => ⟨hf', _, hx⟩⟩
        | false => exact restOfChunk_sane hf' hx hc rfl cap
      | broken hb' => exact sane_of_error hb'.ok hb'.err
    · exact restOfChunk_sane hf hp hc hd₁ cap
  · rw [hb]
    exact sane_of_error (by rw [hm.fields.1]; exact h.ok) (by simp)

theorem bodyAll_sane (h : Sane fr S ctx) : Sane fr S ctx.bodyAll.2 := by
  unfold bodyAll
  split
  · exact h
  split
  · exact h
  rename_i he
  rw [not_or, not_not, not_not] at he
  -- what is done before the framing matters
  have hstart (ctx₁ : Ctx) (hm : Mute ctx ctx₁) :
      Sane fr S (if ctx₁.req.chunked then ctx₁.allChunked else ctx₁.allFixed).2 := by
    obtain ⟨h1, h2, h3, h4, h5, h6, h7, h8⟩ := hm.fields
    obtain ⟨hf, d, hp⟩ := (h.mute hm).going (h6.trans he.2)
    have hread : ctx₁.bodyRead = 0 := h3.trans he.1
    split
    · rename_i hc
      have ho := allChunksLoop_outcome (ctx₁.feed.stream.length + 2) hf (by omega)
      unfold allChunked
      generalize allChunksLoop (ctx₁.feed.stream.length + 2) ctx₁ = r at ho
      cases ho with
      | @done t m data g hm' hf' hd =>
        refine ⟨hf'.ok, fun _ => ⟨hf', d ++ data, ?_⟩⟩
        exact (hp.decodes hc hd).congr rfl ⟨rfl, rfl⟩ ⟨rfl, rfl, rfl⟩
      | halting hh => exact sane_of_error hh.tame.ok hh.err
    · rename_i hc
      obtain rfl : d = [] := by
        cases hp with
        | chunked hc' => exact absurd hc' hc
        | fixed _ _ hr => exact List.length_eq_zero_iff.mp (hr.symm.trans hread)
      exact allFixed_sane hf hp (by simpa using hc)
  split
  · rename_i ctx₁ hx
    split at hx
    · cases hx
    · rcases bodyBegin_cases ctx with ⟨ctx₂, hb, hm⟩ | ⟨ctx₂, hb, hm⟩
      · rw [hb] at hx
        cases hx
      · rw [hb] at hx
        obtain rfl := (Prod.mk.inj hx).2
        exact sane_of_error (by rw [hm.fields.1]; exact h.ok) (by simp)
  · rename_i ctx₁ hx
    split at hx
    · obtain rfl := (Prod.mk.inj hx).2
      exact hstart ctx (.refl ctx)
    · rcases bodyBegin_cases ctx with ⟨ctx₂, hb, hm⟩ | ⟨ctx₂, hb, hm⟩
      · rw [hb] at hx
        obtain rfl := (Prod.mk.inj hx).2
        exact hstart _ hm
      · rw [hb] at hx
        cases hx

theorem step_sane (h : Sane fr S ctx) (op : HandlerOp) : Sane fr S (ctx.step op) := by
  cases op with
  | head op => exact h.mute (headOp_mute ctx op)
  | write data => exact h.mute (write_mute ctx data)
  | reserve n data _ => exact h.mute (reserveOp_mute ctx n data)
  | flush => exact h.mute (flushWith_mute ctx .asked [])
  | onHead fn => exact h.mute (setOnHead_mute ctx fn)
  | bodyAll => exact bodyAll_sane h
  | bodyReadUntil n => exact bodyReadUntil_sane h n
  | bodyReadNextChunk cap => exact bodyReadNextChunk_sane h cap
  | tick =>
    have hm := Feed.tick_moved h.ok
    refine ⟨hm.ok, fun h0 => ?_⟩
    obtain ⟨hf, d, hp⟩ := h.going h0
    refine ⟨⟨hm.ok, ?_⟩, d, hp.congr hm.stream.symm ⟨rfl, rfl⟩ ⟨rfl, rfl, rfl⟩⟩
    rw [show (ctx.step .tick).feed.view = ctx.feed.view from (Feed.tick_quiet h.ok).1.view]
    exact hf.none

theorem run_sane (h : Sane fr S ctx) (ops : List HandlerOp) : Sane fr S (ctx.run ops) := by
  induction ops generalizing ctx with
  | nil => exact h
  | cons op ops ih => exact ih (step_sane h op)

end Ctx

end Ioxd.Http
