import Ioxd.Http.Serve
import Ioxd.Pipe.FeedLaws

/-!
# What reading a body leaves alone

Once the interim reply is out, or none is due, reading the body touches the
reader and the state of the body. The response notices an error by its status
and a drain that gives up by its close; the writers notice nothing.
-/

namespace Ioxd.Http

open Flat
open Ioxd.Pipe

namespace Ctx

variable {ctx ctx' ctx'' : Ctx}

/-- `ctx'` with all that a read may touch as it is in `ctx`. -/
def restoreBody (ctx ctx' : Ctx) : Ctx :=
  { ctx' with
    feed := ctx.feed
    bodyRead := ctx.bodyRead
    bodyDone := ctx.bodyDone
    bodyErr := ctx.bodyErr
    chunkLeft := ctx.chunkLeft
    res := { ctx'.res with status := ctx.res.status, close := ctx.res.close } }

structure Deaf (ctx ctx' : Ctx) : Prop where
  rest : restoreBody ctx ctx' = ctx
  close : ctx.res.close = true → ctx'.res.close = true
  err : ctx'.bodyErr = 0 → ctx.bodyErr = 0 ∧ ctx'.res.status = ctx.res.status
  /-- The reader fails only with the body. -/
  reader : ctx'.bodyErr = 0 → ctx'.feed.pr.error = ctx.feed.pr.error

theorem Deaf.refl (ctx : Ctx) : Deaf ctx ctx :=
  ⟨rfl, fun h => h, fun h => ⟨h, rfl⟩, fun _ => rfl⟩

theorem Deaf.trans (h : Deaf ctx ctx') (h' : Deaf ctx' ctx'') : Deaf ctx ctx'' where
  rest :=
    calc restoreBody ctx ctx'' = restoreBody ctx (restoreBody ctx' ctx'') := rfl
      _ = restoreBody ctx ctx' := by rw [h'.rest]
      _ = ctx := h.rest
  close hc := h'.close (h.close hc)
  err he :=
    have h2 := h'.err he
    ⟨(h.err h2.1).1, h2.2.trans (h.err h2.1).2⟩
  reader he := (h'.reader he).trans (h.reader (h'.err he).1)

theorem Deaf.eq (h : Deaf ctx ctx') : ctx' = { ctx with
    feed := ctx'.feed
    bodyRead := ctx'.bodyRead
    bodyDone := ctx'.bodyDone
    bodyErr := ctx'.bodyErr
    chunkLeft := ctx'.chunkLeft
    res := { ctx.res with status := ctx'.res.status, close := ctx'.res.close } } := by
  have hr := h.rest
  rw [← hr]
  rfl

theorem bodyFail_deaf (ctx : Ctx) {status : Nat} (h : status ≠ 0) :
    Deaf ctx (ctx.bodyFail status) := by
  refine ⟨rfl, fun h => h, fun he => ?_, fun _ => rfl⟩
  have : (status : Int) = 0 := he
  exact absurd (Int.ofNat.inj this) h

theorem deaf_step (ctx : Ctx) {feed : Feed} (he : feed.pr.error = ctx.feed.pr.error)
    (read left : Nat) (done : Bool) :
    Deaf ctx { ctx with feed := feed, bodyRead := read, chunkLeft := left, bodyDone := done } :=
  ⟨rfl, fun h => h, fun h => ⟨h, rfl⟩, fun _ => he⟩

theorem drop_deaf (ctx : Ctx) (n read left : Nat) (done : Bool) : Deaf ctx { ctx with
    feed := ctx.feed.drop n, bodyRead := read, chunkLeft := left, bodyDone := done } :=
  deaf_step ctx (Reader.consume_error ..) _ _ _

theorem deaf_gone (ctx : Ctx) (feed : Feed) : Deaf ctx { ctx with feed := feed, bodyErr := -1 } :=
  ⟨rfl, fun h => h, fun h => absurd h (by simp), fun h => absurd h (by simp)⟩

theorem deaf_full (ctx : Ctx) (feed : Feed) {status : Nat} (h : status ≠ 0) :
    Deaf ctx ({ ctx with feed := feed }.bodyFail status) := by
  refine ⟨rfl, fun h => h, fun he => ?_, fun he => ?_⟩ <;>
  · have : (status : Int) = 0 := he
    exact absurd (Int.ofNat.inj this) h

theorem bodyBytes_deaf (ctx : Ctx) : Deaf ctx ctx.bodyBytes.2 := by
  have hr := @Feed.read_error ctx.feed
  unfold bodyBytes
  split
  · rename_i feed he
    rw [he] at hr
    exact deaf_step ctx (hr rfl) _ _ _
  · exact deaf_full ctx _ (by decide)
  · exact deaf_gone ctx _

theorem scan_deaf (test : List Byte → Option α) (turns : Nat) (ctx : Ctx) :
    Deaf ctx (scan test turns ctx).2 := by
  induction turns generalizing ctx with
  | zero => exact .refl ctx
  | succ turns ih =>
    have hb := bodyBytes_deaf ctx
    unfold scan
    split
    · rename_i he
      rwa [he] at hb
    · rename_i c he
      rw [he] at hb
      split
      · exact hb
      · have he : Deaf c { c with feed := c.feed.examine c.feed.live.length } :=
          @deaf_step c (c.feed.examine c.feed.live.length) rfl _ _ _
        exact (hb.trans he).trans (ih _)

theorem bodyLine_deaf (ctx : Ctx) : Deaf ctx ctx.bodyLine.2 := scan_deaf _ _ ctx

theorem chunkTrailersLoop_deaf (turns taken : Nat) (ctx : Ctx) :
    Deaf ctx (chunkTrailersLoop turns taken ctx).2 := by
  induction turns generalizing taken ctx with
  | zero => exact .refl ctx
  | succ turns ih =>
    have hl := bodyLine_deaf ctx
    unfold chunkTrailersLoop
    split
    · rename_i he
      rwa [he] at hl
    · rename_i len c he
      rw [he] at hl
      dsimp only
      split
      · exact hl.trans (bodyFail_deaf _ (by decide))
      split
      · exact hl.trans (drop_deaf c (len + 2) _ _ true)
      · exact (hl.trans (drop_deaf c (len + 2) _ _ _)).trans (ih _ _)

theorem chunkHeader_deaf (ctx : Ctx) : Deaf ctx ctx.chunkHeader.2 := by
  have hl := bodyLine_deaf ctx
  unfold chunkHeader
  split
  · rename_i c he
    rw [he] at hl
    dsimp only
    split
    · exact hl.trans (bodyFail_deaf _ (by decide))
    · exact hl
  · rename_i len c he
    rw [he] at hl
    split
    · exact hl.trans (bodyFail_deaf _ (by decide))
    · rename_i size _
      dsimp only
      split
      · exact (hl.trans (drop_deaf c (len + 2) _ _ _)).trans
          (chunkTrailersLoop_deaf _ _ _)
      · exact hl.trans (drop_deaf c (len + 2) _ size _)

theorem chunkEnd_deaf (ctx : Ctx) : Deaf ctx ctx.chunkEnd.2 := by
  have hs := scan_deaf firstTwo (ctx.feed.left + 2) ctx
  unfold chunkEnd
  split
  · rename_i he
    rwa [he] at hs
  · rename_i two c he
    rw [he] at hs
    split
    · exact hs.trans (drop_deaf c 2 _ _ _)
    · exact hs.trans (bodyFail_deaf _ (by decide))

theorem fixedData_deaf (ctx : Ctx) (n : Nat) : Deaf ctx (ctx.fixedData n).2 := by
  have hc := @Feed.copy_error ctx.feed (min n (ctx.req.contentLength - ctx.bodyRead))
  unfold fixedData
  dsimp only
  split
  · rename_i he
    rw [he] at hc
    exact deaf_step ctx (hc rfl) _ _ _
  · exact deaf_gone ctx _

theorem chunkData_deaf (ctx : Ctx) (n : Nat) : Deaf ctx (ctx.chunkData n).2 := by
  have hc := @Feed.copy_error ctx.feed (min n ctx.chunkLeft)
  unfold chunkData
  dsimp only
  split
  · rename_i data feed he
    rw [he] at hc
    split
    · exact (deaf_step ctx (hc rfl) _ _ _).trans (chunkEnd_deaf _)
    · exact deaf_step ctx (hc rfl) _ _ _
  · exact deaf_gone ctx _

theorem readTurn_deaf (ctx : Ctx) (n : Nat) : Deaf ctx (ctx.readTurn n).2 := by
  unfold readTurn
  split
  · exact fixedData_deaf ctx n
  split
  · have hh := chunkHeader_deaf ctx
    split <;> (rename_i he; rwa [he] at hh)
  · exact chunkData_deaf ctx n

theorem readUntilLoop_deaf (turns : Nat) (ctx : Ctx) (n : Nat) (dst : List Byte) :
    Deaf ctx (readUntilLoop turns ctx n dst).2.2 := by
  induction turns generalizing ctx dst with
  | zero => exact .refl ctx
  | succ turns ih =>
    unfold readUntilLoop
    split
    · have ht := readTurn_deaf ctx (n - dst.length)
      split
      · rename_i he
        rwa [he] at ht
      · rename_i he
        rw [he] at ht
        exact ht.trans (ih _ _)
    · exact .refl ctx

theorem nextChunkLoop_deaf (turns : Nat) (ctx : Ctx) (want : Nat) (dst : List Byte) :
    Deaf ctx (nextChunkLoop turns ctx want dst).2.2 := by
  induction turns generalizing ctx dst with
  | zero => exact .refl ctx
  | succ turns ih =>
    unfold nextChunkLoop
    split
    · have ht := chunkData_deaf ctx (want - dst.length)
      split
      · rename_i he
        rwa [he] at ht
      · rename_i he
        rw [he] at ht
        exact ht.trans (ih _ _)
    · exact .refl ctx

theorem keepChunk_deaf (ctx : Ctx) : Deaf ctx ctx.keepChunk.2 := by
  have hb := bodyBytes_deaf ctx
  unfold keepChunk
  split
  · rename_i he
    rwa [he] at hb
  · rename_i ctx₁ he
    rw [he] at hb
    refine hb.trans ?_
    have hk := @Feed.keep_error ctx₁.feed (min ctx₁.feed.live.length ctx₁.chunkLeft)
    dsimp only
    split
    · exact deaf_full ctx₁ _ (by decide)
    · rename_i feed hne hk'
      rw [hk'] at hk
      have he := hk fun hnull => hne hnull
      split
      · exact (deaf_step ctx₁ he _ _ _).trans (chunkEnd_deaf _)
      · exact deaf_step ctx₁ he _ _ _

theorem allChunksLoop_deaf (turns : Nat) (ctx : Ctx) :
    Deaf ctx (allChunksLoop turns ctx).2 := by
  induction turns generalizing ctx with
  | zero => exact .refl ctx
  | succ turns ih =>
    unfold allChunksLoop
    split
    · exact .refl ctx
    have ht : Deaf ctx (if ctx.chunkLeft = 0 then ctx.chunkHeader else ctx.keepChunk).2 := by
      split
      · exact chunkHeader_deaf ctx
      · exact keepChunk_deaf ctx
    split
    · rename_i he
      rwa [he] at ht
    · rename_i he
      rw [he] at ht
      exact ht.trans (ih _)

def Begun (ctx : Ctx) : Prop :=
  ctx.req.expectContinue = false ∨ ctx.continueSent = true ∨ ctx.res.headSent = true

theorem Begun.of_deaf (h : Begun ctx) (hd : Deaf ctx ctx') : Begun ctx' := by
  rw [hd.eq]
  exact h

theorem bodyBegin_begun (h : Begun ctx) : ctx.bodyBegin = (true, ctx) := by
  unfold bodyBegin
  rw [if_pos (by simpa [Begun] using h)]

theorem bodyReadUntil_deaf (h : Begun ctx) (n : Nat) : Deaf ctx (ctx.bodyReadUntil n).2.2 := by
  unfold bodyReadUntil
  split
  · exact .refl ctx
  split
  · exact .refl ctx
  · rw [bodyBegin_begun h]
    exact readUntilLoop_deaf _ ctx _ _

theorem drainLoop_deaf (turns : Nat) (h : Begun ctx) (drained : Nat) :
    Deaf ctx (drainLoop turns ctx drained) := by
  induction turns generalizing ctx drained with
  | zero => exact .refl ctx
  | succ turns ih =>
    unfold drainLoop
    split
    · exact .refl ctx
    split
    · exact ⟨rfl, fun _ => rfl, fun h => ⟨h, rfl⟩, fun _ => rfl⟩
    · have hr := bodyReadUntil_deaf h 4096
      dsimp only
      split
      · exact hr
      · exact hr.trans (ih (h.of_deaf hr) _)

theorem settleBody_deaf (ctx : Ctx) : Deaf ctx ctx.settleBody := by
  unfold settleBody
  split
  · exact ⟨rfl, fun _ => rfl, fun h => ⟨h, rfl⟩, fun _ => rfl⟩
  · rename_i hn
    by_cases hd : ctx.bodyDone = true
    · unfold drainBody drainLoop
      rw [if_pos (.inl hd)]
      exact .refl ctx
    · refine drainLoop_deaf _ ?_ 0
      by_cases he : ctx.req.expectContinue = true
      · refine .inr (.inl ?_)
        by_contra hc
        exact hn ⟨he, by simpa using hc, by simpa using hd⟩
      · exact .inl (by simpa using he)

end Ctx

end Ioxd.Http
