import Ioxd.Http.Body
import Ioxd.Lib.Message
import Ioxd.Pipe.FeedLaws

/-!
# What each body read does

A read of the body moves through the reader's stream by whole pieces of the
framing, and touches nothing of the reply but its status, and that only with an
error. One outcome type for each function says where it went, or why it failed.
-/

namespace Ioxd.Http

open Flat
open Ioxd.Pipe

namespace Ctx

variable {ctx ctx' ctx'' : Ctx} {why : Prop}

/-- `ctx'` with all that a body read may touch as it is in `ctx`. -/
def restore (ctx ctx' : Ctx) : Ctx :=
  { ctx' with
    feed := ctx.feed
    bodyRead := ctx.bodyRead
    bodyDone := ctx.bodyDone
    bodyWhole := ctx.bodyWhole
    bodyErr := ctx.bodyErr
    chunkLeft := ctx.chunkLeft
    req := { ctx'.req with body := ctx.req.body }
    res := { ctx'.res with status := ctx.res.status } }

/-- What every body read keeps. -/
structure Same (ctx ctx' : Ctx) : Prop where
  rest : restore ctx ctx' = ctx
  err : ctx'.bodyErr = 0 → ctx.bodyErr = 0 ∧ ctx'.res.status = ctx.res.status

theorem Same.refl (ctx : Ctx) : Same ctx ctx := ⟨rfl, fun h => ⟨h, rfl⟩⟩

theorem Same.trans (h : Same ctx ctx') (h' : Same ctx' ctx'') : Same ctx ctx'' where
  rest :=
    calc restore ctx ctx'' = restore ctx (restore ctx' ctx'') := rfl
      _ = restore ctx ctx' := by rw [h'.rest]
      _ = ctx := h.rest
  err he :=
    have h1 := h'.err he
    have h2 := h.err h1.1
    ⟨h2.1, h1.2.trans h2.2⟩

theorem Same.chunked (h : Same ctx ctx') : ctx'.req.chunked = ctx.req.chunked := by
  have := congrArg (fun c : Ctx => c.req.chunked) h.rest
  exact this

theorem Same.contentLength (h : Same ctx ctx') :
    ctx'.req.contentLength = ctx.req.contentLength := by
  have := congrArg (fun c : Ctx => c.req.contentLength) h.rest
  exact this

/-- A read that failed: for this reason, unless the reader met an error, the
input ended early or the body did not fit. -/
structure Broken (why : Prop) (ctx ctx' : Ctx) : Prop where
  same : Same ctx ctx'
  ok : ctx'.feed.Ok
  done : ctx'.bodyDone = ctx.bodyDone
  err : ctx'.bodyErr ≠ 0
  why : ctx.feed.Lasting → ctx.feed.view.error = none → ctx'.feed.view.error ≠ some .full → why

theorem Broken.after {why' : Prop} (h : Broken why' ctx' ctx'') (hs : Same ctx ctx')
    (hd : ctx'.bodyDone = ctx.bodyDone) (hm : Feed.Moved ctx.feed ctx'.feed g k)
    (hw : why' → why) : Broken why ctx ctx'' where
  same := hs.trans h.same
  ok := h.ok
  done := h.done.trans hd
  err := h.err
  why hl he hf := hw (h.why (hm.lasting hl) (hm.error.trans he) hf)

theorem broken_of (hr : restore ctx ctx' = ctx) (hok : ctx'.feed.Ok)
    (hd : ctx'.bodyDone = ctx.bodyDone) (he : ctx'.bodyErr ≠ 0)
    (hw : ctx.feed.Lasting → ctx.feed.view.error = none → ctx'.feed.view.error ≠ some .full → why) :
    Broken why ctx ctx' := ⟨⟨hr, fun h0 => absurd h0 he⟩, hok, hd, he, hw⟩

theorem bodyFail_err {status : Nat} (h : status ≠ 0) : (bodyFail ctx status).bodyErr ≠ 0 := by
  simpa [bodyFail] using h

-- ---------------------------------------------------------------------------
-- Waiting for bytes
-- ---------------------------------------------------------------------------

theorem same_feed (ctx : Ctx) (t : Feed) : Same ctx { ctx with feed := t } := ⟨rfl, fun h => ⟨h, rfl⟩⟩

/-- A reader that has nothing more to give, now or later. -/
structure Dead (f : Feed) : Prop where
  ok : f.Ok
  dead : f.view.error ≠ none ∨ (f.view.eof = true ∧ f.live.length ≤ f.view.examined)

structure Dried (ctx ctx' : Ctx) : Prop where
  dead : Dead ctx'.feed
  left : ctx'.chunkLeft = ctx.chunkLeft

inductive BytesOutcome (ctx : Ctx) : Bool × Ctx → Prop
  | some {t : Feed} {d : List Byte} : Feed.Grew ctx.feed t d → t.view.examined < t.live.length →
      BytesOutcome ctx (true, { ctx with feed := t })
  | broken {ctx' : Ctx} : Broken (ctx.feed.stream.length ≤ ctx.feed.view.examined) ctx ctx' →
      Dried ctx ctx' → BytesOutcome ctx (false, ctx')

theorem bodyBytes_outcome (h : ctx.feed.Ok) : BytesOutcome ctx ctx.bodyBytes := by
  have ho := Feed.read_outcome h
  unfold bodyBytes
  generalize ctx.feed.read = r at ho
  cases ho with
  | some hg hx => exact .some hg hx
  | @ended t u d hg hok hv ht hc hx hl =>
    refine .broken (broken_of rfl hok rfl (by simp) fun hlast _ _ => ?_)
      ⟨⟨hok, .inr ⟨by rw [hv], hx⟩⟩, rfl⟩
    have h1 : t.live = u.live := congrArg View.live hv
    have h2 : t.view.examined = ctx.feed.view.examined := by
      rw [hv]
      exact hg.examined
    have h3 : u.coming = [] := hc.symm.trans (hl hlast)
    rw [hg.moved.stream, Feed.stream, h3, ← h1, List.nil_append, List.append_nil, ← h2]
    exact hx
  | @error t u d e b hg hok hv hl =>
    have herr : t.view.error = some e := by rw [hv]
    have hdead : Dead t := ⟨hok, .inl (by simp [herr])⟩
    cases e with
    | full =>
      exact .broken (broken_of rfl hok rfl (bodyFail_err (by decide)) fun _ _ hf => absurd herr hf)
        ⟨hdead, rfl⟩
    | gone =>
      refine .broken (broken_of rfl hok rfl (by simp) fun hlast he _ => ?_) ⟨hdead, rfl⟩
      exact absurd (hl hlast he) (by decide)

inductive ScanOutcome (test : List Byte → Option α) (ctx : Ctx) : Option α × Ctx → Prop
  | found {t : Feed} {a : α} : Feed.Moved ctx.feed t [] [] → test t.live = some a →
      test (t.live.take t.view.examined) = none →
      ScanOutcome test ctx (some a, { ctx with feed := t })
  | broken {ctx' : Ctx} : Broken (test ctx.feed.stream = none) ctx ctx' → Dried ctx ctx' →
      ScanOutcome test ctx (none, ctx')

/-- The bytes examined so far were not enough for the test. -/
structure Scanning (test : List Byte → Option α) (f : Feed) : Prop where
  ok : f.Ok
  le : f.view.examined ≤ f.live.length
  before : test (f.live.take f.view.examined) = none

theorem scan_loop {test : List Byte → Option α} {turns : Nat} (h : Scanning test ctx.feed)
    (hn : ctx.feed.left + (if ctx.feed.live.length = ctx.feed.view.examined then 1 else 2) ≤ turns) :
    ScanOutcome test ctx (scan test turns ctx) := by
  induction turns generalizing ctx with
  | zero => split at hn <;> omega
  | succ turns ih =>
    have ho := bodyBytes_outcome h.ok
    unfold scan
    generalize ctx.bodyBytes = r at ho
    cases ho with
    | @some t d hg hx =>
      have he := hg.examined
      dsimp only
      cases ht : test t.live with
      | some a =>
        refine .found hg.moved ht ?_
        rw [hg.live, he, List.take_append_of_le_length h.le]
        exact h.before
      | none =>
        dsimp only
        have hst := Feed.examine_stays hg.ok t.live.length
        have hlive : (t.examine t.live.length).live = t.live := hst.live
        have hex : (t.examine t.live.length).view.examined = t.live.length := by rw [hst.view]
        have hm := hg.moved.trans (Feed.examine_moved hg.ok t.live.length)
        have hr := @ih { ctx with feed := t.examine t.live.length }
          ⟨hst.ok, by rw [hlive, hex], by rw [hlive, hex, List.take_length]; exact ht⟩ (by
            rw [if_pos (by rw [hlive, hex])]
            exact hg.turns (he ▸ hx) hn)
        generalize scan test turns { ctx with feed := t.examine t.live.length } = r' at hr
        cases hr with
        | found hm' ha hb => exact .found (hm.trans hm') ha hb
        | broken hb hdry =>
          refine .broken (hb.after (same_feed ..) rfl hm fun hw => ?_) ⟨hdry.dead, hdry.left⟩
          rw [hm.stream]
          exact hw
    | broken hb hdry =>
      refine .broken ⟨hb.same, hb.ok, hb.done, hb.err, fun hl he hf => ?_⟩ hdry
      have hle := hb.why hl he hf
      have hs : ctx.feed.stream = ctx.feed.live.take ctx.feed.view.examined := by
        have hle' := h.le
        rw [Feed.stream] at hle ⊢
        rw [List.length_append] at hle
        have hc : ctx.feed.coming = [] := List.length_eq_zero_iff.mp (by omega)
        rw [hc, List.append_nil, List.take_of_length_le (by omega)]
      rw [hs]
      exact h.before

/-- Between two calls no live byte is marked examined. -/
structure Fresh (f : Feed) : Prop where
  ok : f.Ok
  none : f.view.examined = 0

theorem scan_outcome (test : List Byte → Option α) (h : Fresh ctx.feed) (ht : test [] = none) :
    ScanOutcome test ctx (scan test (ctx.feed.left + 2) ctx) := by
  refine scan_loop ⟨h.ok, by rw [h.none]; omega, by rw [h.none]; simpa using ht⟩ ?_
  split <;> omega

-- ---------------------------------------------------------------------------
-- What no read touches
-- ---------------------------------------------------------------------------

/-- What holds of a read from any state, also behind an error. -/
structure Tame (ctx ctx' : Ctx) : Prop where
  same : Same ctx ctx'
  ok : ctx'.feed.Ok

theorem Tame.refl (h : ctx.feed.Ok) : Tame ctx ctx := ⟨.refl ctx, h⟩

theorem Tame.trans (h : Tame ctx ctx') (h' : Tame ctx' ctx'') : Tame ctx ctx'' :=
  ⟨h.same.trans h'.same, h'.ok⟩

theorem Tame.behind (h : Tame ctx' ctx'') (hr : restore ctx ctx' = ctx)
    (he : ctx'.bodyErr = ctx.bodyErr) (hs : ctx'.res.status = ctx.res.status) : Tame ctx ctx'' :=
  ⟨Same.trans ⟨hr, fun h0 => ⟨he.symm.trans h0, hs⟩⟩ h.same, h.ok⟩

theorem Broken.tame (h : Broken why ctx ctx') : Tame ctx ctx' := ⟨h.same, h.ok⟩

theorem tame_feed (ctx : Ctx) (h : t.Ok) : Tame ctx { ctx with feed := t } := ⟨same_feed .., h⟩

theorem tame_bodyFail (h : ctx.feed.Ok) {status : Nat} (h0 : status ≠ 0) :
    Tame ctx (ctx.bodyFail status) := ⟨⟨rfl, fun he => absurd he (bodyFail_err h0)⟩, h⟩

theorem tame_gone (ctx : Ctx) (h : t.Ok) : Tame ctx { ctx with feed := t, bodyErr := -1 } :=
  ⟨⟨rfl, fun he => absurd he (by simp)⟩, h⟩

theorem scan_tame (test : List Byte → Option α) (turns : Nat) (h : ctx.feed.Ok) :
    Tame ctx (scan test turns ctx).2 := by
  induction turns generalizing ctx with
  | zero => exact .refl h
  | succ turns ih =>
    have ho := bodyBytes_outcome h
    unfold scan
    generalize ctx.bodyBytes = r at ho
    cases ho with
    | @some t _ hg =>
      dsimp only
      split
      · exact tame_feed ctx hg.ok
      · have hok := (Feed.examine_stays hg.ok t.live.length).ok
        exact (tame_feed ctx hok).trans (ih hok)
    | broken hb => exact hb.tame

theorem dropBytes_tame (h : ctx.feed.Ok) (n : Nat) : Tame ctx (ctx.dropBytes n) :=
  tame_feed ctx (Feed.drop_stays h n).ok

theorem bodyLine_tame (h : ctx.feed.Ok) : Tame ctx ctx.bodyLine.2 := scan_tame _ _ h

theorem chunkTrailersLoop_tame (turns taken : Nat) (h : ctx.feed.Ok) :
    Tame ctx (chunkTrailersLoop turns taken ctx).2 := by
  induction turns generalizing ctx taken with
  | zero => exact .refl h
  | succ turns ih =>
    have hl := bodyLine_tame h
    unfold chunkTrailersLoop
    generalize ctx.bodyLine = r at hl
    obtain ⟨_ | len, ctx'⟩ := r
    · exact hl
    · dsimp only at hl ⊢
      split
      · exact hl.trans (tame_bodyFail hl.ok (by decide))
      · have hd := hl.trans (dropBytes_tame hl.ok (len + 2))
        split
        · exact hd.trans ⟨⟨rfl, fun he => ⟨he, rfl⟩⟩, hd.ok⟩
        · exact hd.trans (ih _ hd.ok)

theorem chunkHeader_tame (h : ctx.feed.Ok) : Tame ctx ctx.chunkHeader.2 := by
  have hl := bodyLine_tame h
  unfold chunkHeader
  generalize ctx.bodyLine = r at hl
  obtain ⟨_ | len, ctx'⟩ := r
  · dsimp only at hl ⊢
    split
    · exact hl.trans (tame_bodyFail hl.ok (by decide))
    · exact hl
  · dsimp only at hl ⊢
    split
    · exact hl.trans (tame_bodyFail hl.ok (by decide))
    · have hd := hl.trans (dropBytes_tame hl.ok (len + 2))
      split
      · exact hd.trans (chunkTrailersLoop_tame _ _ hd.ok)
      · exact hd.trans ⟨⟨rfl, fun he => ⟨he, rfl⟩⟩, hd.ok⟩

theorem chunkEnd_tame (h : ctx.feed.Ok) : Tame ctx ctx.chunkEnd.2 := by
  have hl := scan_tame firstTwo (ctx.feed.left + 2) h
  unfold chunkEnd
  generalize scan firstTwo (ctx.feed.left + 2) ctx = r at hl
  obtain ⟨_ | two, ctx'⟩ := r
  · exact hl
  · dsimp only at hl ⊢
    split
    · exact hl.trans (dropBytes_tame hl.ok 2)
    · exact hl.trans (tame_bodyFail hl.ok (by decide))

theorem fixedData_tame (h : ctx.feed.Ok) (n : Nat) : Tame ctx (ctx.fixedData n).2 := by
  have hc := Feed.copy_ok h (min n (ctx.req.contentLength - ctx.bodyRead))
  unfold fixedData
  dsimp only
  generalize ctx.feed.copy (min n (ctx.req.contentLength - ctx.bodyRead)) = r at hc
  obtain ⟨rc, data, feed⟩ := r
  cases rc with
  | some => exact ⟨⟨rfl, fun he => ⟨he, rfl⟩⟩, hc⟩
  | ended => exact tame_gone ctx hc
  | error e => exact tame_gone ctx hc

theorem chunkData_tame (h : ctx.feed.Ok) (n : Nat) : Tame ctx (ctx.chunkData n).2 := by
  have hc := Feed.copy_ok h (min n ctx.chunkLeft)
  unfold chunkData
  dsimp only
  generalize ctx.feed.copy (min n ctx.chunkLeft) = r at hc
  obtain ⟨rc, data, feed⟩ := r
  cases rc with
  | some =>
    dsimp only
    have hm : Tame ctx { ctx with
        feed := feed
        chunkLeft := ctx.chunkLeft - data.length
        bodyRead := ctx.bodyRead + data.length } := ⟨⟨rfl, fun he => ⟨he, rfl⟩⟩, hc⟩
    split
    · exact hm.trans (chunkEnd_tame hm.ok)
    · exact hm
  | ended => exact tame_gone ctx hc
  | error e => exact tame_gone ctx hc

theorem readTurn_tame (h : ctx.feed.Ok) (n : Nat) : Tame ctx (ctx.readTurn n).2 := by
  unfold readTurn
  split
  · exact fixedData_tame h n
  · split
    · have hh := chunkHeader_tame h
      generalize ctx.chunkHeader = r at hh
      obtain ⟨_ | _, ctx'⟩ := r
      · exact hh
      · exact hh
    · exact chunkData_tame h n

theorem readUntilLoop_tame (turns n : Nat) (dst : List Byte) (h : ctx.feed.Ok) :
    Tame ctx (readUntilLoop turns ctx n dst).2.2 := by
  induction turns generalizing ctx dst with
  | zero => exact .refl h
  | succ turns ih =>
    unfold readUntilLoop
    split
    · have ht := readTurn_tame h (n - dst.length)
      generalize ctx.readTurn (n - dst.length) = r at ht
      obtain ⟨_ | data, ctx'⟩ := r
      · exact ht
      · exact ht.trans (ih _ ht.ok)
    · exact .refl h

end Ctx

end Ioxd.Http
