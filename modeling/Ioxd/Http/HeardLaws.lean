import Ioxd.Http.CallLaws

/-!
# What reading leaves

Every reading call, by the frame it keeps and by the count of a body of known
length: that body is not over as long as some of it is left, and what is left
only shrinks.
-/

namespace Ioxd.Http

open Flat
open Ioxd.Pipe

namespace Ctx

variable {ctx ctx' ctx'' : Ctx}

-- ---------------------------------------------------------------------------
-- What reading does to the count
-- ---------------------------------------------------------------------------

/-- A body of known length is not over before all of it is read. -/
def Within (ctx : Ctx) : Prop := ctx.req.chunked = false →
  ctx.bodyRead ≤ ctx.req.contentLength ∧
    (ctx.bodyDone = false → ctx.bodyRead < ctx.req.contentLength)

structure Heard (ctx ctx' : Ctx) : Prop where
  same : Same ctx ctx'
  done : ctx.bodyDone = true → ctx'.bodyDone = true
  more : ctx.req.chunked = false → ctx.bodyRead ≤ ctx'.bodyRead
  within : Within ctx → Within ctx'

theorem Heard.refl (ctx : Ctx) : Heard ctx ctx :=
  ⟨.refl ctx, fun h => h, fun _ => Nat.le_refl _, fun h => h⟩

theorem Heard.trans (h : Heard ctx ctx') (h' : Heard ctx' ctx'') : Heard ctx ctx'' where
  same := h.same.trans h'.same
  done hd := h'.done (h.done hd)
  more hc := (h.more hc).trans (h'.more (h.same.chunked.trans hc))
  within hw := h'.within (h.within hw)

theorem heard_quiet (hs : Same ctx ctx') (hd : ctx'.bodyDone = ctx.bodyDone)
    (hr : ctx'.bodyRead = ctx.bodyRead) : Heard ctx ctx' where
  same := hs
  done h := hd.trans h
  more _ := hr.ge
  within hw hc := by
    rw [hs.contentLength, hr, hd]
    exact hw (hs.chunked.symm.trans hc)

theorem heard_chunked (hc : ctx.req.chunked = true) (hs : Same ctx ctx')
    (hd : ctx.bodyDone = true → ctx'.bodyDone = true) : Heard ctx ctx' where
  same := hs
  done := hd
  more h := absurd hc (by simp [h])
  within _ h := absurd (hs.chunked.trans hc) (by simp [h])

theorem heard_feed (ctx : Ctx) (feed : Feed) : Heard ctx { ctx with feed := feed } :=
  heard_quiet (same_feed ctx feed) rfl rfl

theorem bodyFail_heard (ctx : Ctx) {status : Nat} (h : status ≠ 0) :
    Heard ctx (ctx.bodyFail status) :=
  heard_quiet ⟨rfl, fun he => absurd he (bodyFail_err h)⟩ rfl rfl

theorem heard_gone (ctx : Ctx) (feed : Feed) : Heard ctx { ctx with feed := feed, bodyErr := -1 } :=
  heard_quiet ⟨rfl, nofun⟩ rfl rfl

theorem bodyBytes_heard (ctx : Ctx) : Heard ctx ctx.bodyBytes.2 := by
  unfold bodyBytes
  split
  · exact heard_feed ctx _
  · exact (heard_feed ctx _).trans (bodyFail_heard _ (by decide))
  · exact heard_gone ctx _

theorem scan_heard (test : List Byte → Option α) (turns : Nat) (ctx : Ctx) :
    Heard ctx (scan test turns ctx).2 := by
  induction turns generalizing ctx with
  | zero => exact .refl ctx
  | succ turns ih =>
    have hb := bodyBytes_heard ctx
    unfold scan
    generalize ctx.bodyBytes = r at hb
    obtain ⟨ok, c⟩ := r
    cases ok with
    | false => exact hb
    | true =>
      dsimp only
      split
      · exact hb
      · exact (hb.trans (heard_feed c _)).trans (ih _)

theorem bodyLine_heard (ctx : Ctx) : Heard ctx ctx.bodyLine.2 := scan_heard _ _ ctx

theorem chunkTrailersLoop_heard (turns taken : Nat) (hc : ctx.req.chunked = true) :
    Heard ctx (chunkTrailersLoop turns taken ctx).2 := by
  induction turns generalizing ctx taken with
  | zero => exact .refl ctx
  | succ turns ih =>
    have hl := bodyLine_heard ctx
    unfold chunkTrailersLoop
    generalize ctx.bodyLine = r at hl
    obtain ⟨len, c⟩ := r
    have hcc : c.req.chunked = true := hl.same.chunked.trans hc
    cases len with
    | none => exact hl
    | some len =>
      dsimp only
      split
      · exact hl.trans (bodyFail_heard c (by decide))
      have hd := hl.trans (heard_feed c (c.feed.drop (len + 2)))
      split
      · exact hd.trans (heard_chunked hcc ⟨rfl, fun h => ⟨h, rfl⟩⟩ fun _ => rfl)
      · refine hd.trans (ih _ ?_)
        exact hcc

theorem chunkHeader_heard (hc : ctx.req.chunked = true) : Heard ctx ctx.chunkHeader.2 := by
  have hl := bodyLine_heard ctx
  unfold chunkHeader
  generalize ctx.bodyLine = r at hl
  obtain ⟨len, c⟩ := r
  have hcc : c.req.chunked = true := hl.same.chunked.trans hc
  cases len with
  | none =>
    dsimp only
    split
    · exact hl.trans (bodyFail_heard c (by decide))
    · exact hl
  | some len =>
    dsimp only
    split
    · exact hl.trans (bodyFail_heard c (by decide))
    · have hd := hl.trans (heard_feed c (c.feed.drop (len + 2)))
      split
      · refine hd.trans (chunkTrailersLoop_heard _ _ ?_)
        exact hcc
      · exact hd.trans (heard_quiet ⟨rfl, fun h => ⟨h, rfl⟩⟩ rfl rfl)

theorem chunkEnd_heard (ctx : Ctx) : Heard ctx ctx.chunkEnd.2 := by
  have hs := scan_heard firstTwo (ctx.feed.left + 2) ctx
  unfold chunkEnd
  generalize scan firstTwo (ctx.feed.left + 2) ctx = r at hs
  obtain ⟨two, c⟩ := r
  cases two with
  | none => exact hs
  | some two =>
    dsimp only
    split
    · exact hs.trans (heard_feed c _)
    · exact hs.trans (bodyFail_heard c (by decide))

theorem keepChunk_heard (hc : ctx.req.chunked = true) : Heard ctx ctx.keepChunk.2 := by
  have hb := bodyBytes_heard ctx
  unfold keepChunk
  generalize ctx.bodyBytes = r at hb
  obtain ⟨ok, c⟩ := r
  have hcc : c.req.chunked = true := hb.same.chunked.trans hc
  cases ok with
  | false => exact hb
  | true =>
    dsimp only
    split
    · exact (hb.trans (heard_feed c _)).trans (bodyFail_heard _ (by decide))
    · rename_i feed _ _
      have hk : Heard c { c with
          feed := feed
          chunkLeft := c.chunkLeft - min c.feed.live.length c.chunkLeft
          bodyRead := c.bodyRead + min c.feed.live.length c.chunkLeft } :=
        heard_chunked hcc ⟨rfl, fun h => ⟨h, rfl⟩⟩ fun h => h
      split
      · exact (hb.trans hk).trans (chunkEnd_heard _)
      · exact hb.trans hk

theorem allChunksLoop_heard (turns : Nat) (hc : ctx.req.chunked = true) :
    Heard ctx (allChunksLoop turns ctx).2 := by
  induction turns generalizing ctx with
  | zero => exact .refl ctx
  | succ turns ih =>
    have hh : Heard ctx (if ctx.chunkLeft = 0 then ctx.chunkHeader else ctx.keepChunk).2 := by
      split
      · exact chunkHeader_heard hc
      · exact keepChunk_heard hc
    unfold allChunksLoop
    split
    · exact .refl ctx
    · generalize (if ctx.chunkLeft = 0 then ctx.chunkHeader else ctx.keepChunk) = r at hh
      obtain ⟨ok, c⟩ := r
      cases ok with
      | false => exact hh
      | true => exact hh.trans (ih (hh.same.chunked.trans hc))

theorem wholeBody_heard (ctx : Ctx) (body : Slice) : Heard ctx (ctx.wholeBody body).2 :=
  heard_quiet ⟨rfl, fun h => ⟨h, rfl⟩⟩ rfl rfl

theorem heard_whole (hs : Same ctx ctx') (h0 : ctx.bodyRead = 0) (feed : Feed) :
    Heard ctx { ctx' with
      feed := feed, bodyRead := ctx'.req.contentLength, bodyDone := true } where
  same := hs.trans ⟨rfl, fun h => ⟨h, rfl⟩⟩
  done _ := rfl
  more _ := h0 ▸ Nat.zero_le _
  within _ _ := ⟨Nat.le_refl _, nofun⟩

theorem allFixed_heard (h0 : ctx.bodyRead = 0) : Heard ctx ctx.allFixed.2 := by
  unfold allFixed
  split
  · exact bodyFail_heard ctx (by decide)
  split
  · rename_i hz
    have hw := (heard_whole (.refl ctx) h0 ctx.feed).trans (wholeBody_heard _ noSlice)
    rw [hz] at hw
    exact hw
  · have hs := scan_heard (enough ctx.req.contentLength) (ctx.feed.left + 2) ctx
    generalize scan (enough ctx.req.contentLength) (ctx.feed.left + 2) ctx = r at hs
    obtain ⟨found, c⟩ := r
    cases found with
    | none => exact hs
    | some _ =>
      dsimp only
      split
      · exact (hs.trans (heard_feed c _)).trans (bodyFail_heard _ (by decide))
      · exact (heard_whole hs.same h0 _).trans (wholeBody_heard _ _)

theorem copyLoop_length (n fuel : Nat) (f : Feed) : (Feed.copyLoop n fuel f).2.1.length ≤ n := by
  induction fuel generalizing f with
  | zero => exact Nat.zero_le _
  | succ fuel ih =>
    unfold Feed.copyLoop
    split
    · exact (List.length_take_le _ _).trans (Nat.min_le_right _ _)
    · split
      · exact ih _
      · exact Nat.zero_le _

theorem copy_length (f : Feed) (n : Nat) : (f.copy n).2.1.length ≤ n := by
  unfold Feed.copy
  split
  · exact Nat.zero_le _
  · exact copyLoop_length n _ f

theorem fixedData_count (ctx : Ctx) (n : Nat) : Heard ctx (ctx.fixedData n).2 ∧
    ∀ data, (ctx.fixedData n).1 = some data →
      (ctx.fixedData n).2.bodyRead = ctx.bodyRead + data.length := by
  have hl := copy_length ctx.feed (min n (ctx.req.contentLength - ctx.bodyRead))
  unfold fixedData
  dsimp only
  generalize ctx.feed.copy (min n (ctx.req.contentLength - ctx.bodyRead)) = r at hl
  obtain ⟨rc, data, feed⟩ := r
  dsimp only at hl ⊢
  cases rc with
  | some =>
    refine ⟨⟨⟨rfl, fun h => ⟨h, rfl⟩⟩, fun hd => ?_, fun _ => Nat.le_add_right _ _, fun hw hc => ?_⟩,
      fun data' he => ?_⟩
    · simp [hd]
    · obtain ⟨hle, -⟩ := hw hc
      have hin : ctx.bodyRead + data.length ≤ ctx.req.contentLength := by omega
      refine ⟨hin, fun hd => ?_⟩
      have hne : ctx.bodyRead + data.length ≠ ctx.req.contentLength := by
        simp only [Bool.or_eq_false_iff, decide_eq_false_iff_not] at hd
        exact hd.2
      exact Nat.lt_of_le_of_ne hin hne
    · obtain rfl := Option.some.inj he
      rfl
  | ended => exact ⟨heard_gone ctx feed, nofun⟩
  | error e => exact ⟨heard_gone ctx feed, nofun⟩

theorem chunkData_heard (hc : ctx.req.chunked = true) (n : Nat) : Heard ctx (ctx.chunkData n).2 := by
  unfold chunkData
  dsimp only
  split
  · rename_i data feed _
    have hk : Heard ctx { ctx with
        feed := feed
        chunkLeft := ctx.chunkLeft - data.length
        bodyRead := ctx.bodyRead + data.length } :=
      heard_chunked hc ⟨rfl, fun h => ⟨h, rfl⟩⟩ fun h => h
    split
    · exact hk.trans (chunkEnd_heard _)
    · exact hk
  · exact heard_gone ctx _

theorem readTurn_heard (ctx : Ctx) (n : Nat) : Heard ctx (ctx.readTurn n).2 := by
  unfold readTurn
  split
  · exact (fixedData_count ctx n).1
  rename_i hc
  rw [not_not] at hc
  split
  · have hh := chunkHeader_heard hc
    split
    · rename_i he
      rwa [he] at hh
    · rename_i he
      rwa [he] at hh
  · exact chunkData_heard hc n

theorem readUntilLoop_heard (turns : Nat) (ctx : Ctx) (n : Nat) (dst : List Byte) :
    Heard ctx (readUntilLoop turns ctx n dst).2.2 := by
  induction turns generalizing ctx dst with
  | zero => exact .refl ctx
  | succ turns ih =>
    unfold readUntilLoop
    split
    · have ht := readTurn_heard ctx (n - dst.length)
      split
      · rename_i he
        rwa [he] at ht
      · rename_i he
        rw [he] at ht
        exact ht.trans (ih _ _)
    · exact .refl ctx

theorem readUntilLoop_count (turns : Nat) (hc : ctx.req.chunked = false) (n : Nat) (dst : List Byte)
    (hok : (readUntilLoop turns ctx n dst).1 = true) :
    (readUntilLoop turns ctx n dst).2.2.bodyRead + dst.length =
      ctx.bodyRead + (readUntilLoop turns ctx n dst).2.1.length := by
  induction turns generalizing ctx dst with
  | zero => rfl
  | succ turns ih =>
    unfold readUntilLoop at hok ⊢
    split
    · rename_i hlt
      rw [if_pos hlt] at hok
      have ht : ctx.readTurn (n - dst.length) = ctx.fixedData (n - dst.length) := by
        unfold readTurn
        rw [if_pos (by simp [hc])]
      obtain ⟨hh, hcount⟩ := fixedData_count ctx (n - dst.length)
      rw [ht] at hok ⊢
      generalize ctx.fixedData (n - dst.length) = r at hh hcount hok
      obtain ⟨data, c⟩ := r
      cases data with
      | none => cases hok
      | some data =>
        have hi := ih (hh.same.chunked.trans hc) _ hok
        have hr := hcount data rfl
        rw [List.length_append] at hi
        dsimp only at hi hr ⊢
        omega
    · rfl

theorem nextChunkLoop_heard (turns : Nat) (hc : ctx.req.chunked = true) (want : Nat)
    (dst : List Byte) : Heard ctx (nextChunkLoop turns ctx want dst).2.2 := by
  induction turns generalizing ctx dst with
  | zero => exact .refl ctx
  | succ turns ih =>
    unfold nextChunkLoop
    split
    · have ht := chunkData_heard hc (want - dst.length)
      split
      · rename_i he
        rwa [he] at ht
      · rename_i he
        rw [he] at ht
        exact ht.trans (ih (ht.same.chunked.trans hc) _)
    · exact .refl ctx

theorem restOfChunk_heard (hc : ctx.req.chunked = true) (cap : Nat) :
    Heard ctx (ctx.restOfChunk cap).2.2 := by
  unfold restOfChunk
  split
  · exact bodyFail_heard ctx (by decide)
  · exact nextChunkLoop_heard _ hc _ _

/-- A reading call: with or without the interim reply in front of it. -/
def Reads (ctx ctx' : Ctx) : Prop := Heard ctx ctx' ∨ Heard ctx.bodyBegin.2 ctx'

theorem bodyBegin_chunked (ctx : Ctx) : ctx.bodyBegin.2.req = ctx.req ∧
    ctx.bodyBegin.2.bodyRead = ctx.bodyRead := by
  rcases bodyBegin_cases ctx with ⟨c, hb, hm⟩ | ⟨c, hb, hm⟩
  · rw [hb]
    exact ⟨hm.fields.2.1, hm.fields.2.2.1⟩
  · rw [hb]
    exact ⟨hm.fields.2.1, hm.fields.2.2.1⟩

theorem bodyReadUntil_reads (ctx : Ctx) (n : Nat) : Reads ctx (ctx.bodyReadUntil n).2.2 := by
  unfold bodyReadUntil Reads
  split
  · exact .inl (.refl ctx)
  split
  · exact .inl (.refl ctx)
  · generalize ctx.bodyBegin = r
    obtain ⟨ok, c⟩ := r
    cases ok with
    | false => exact .inr (.refl c)
    | true => exact .inr (readUntilLoop_heard _ c _ _)

theorem bodyReadNextChunk_reads (ctx : Ctx) (cap : Nat) :
    Reads ctx (ctx.bodyReadNextChunk cap).2.2 := by
  have hq := (bodyBegin_chunked ctx).1
  unfold bodyReadNextChunk Reads
  split
  · exact .inl (.refl ctx)
  rename_i hc
  rw [not_or, not_not, not_not] at hc
  split
  · exact .inl (.refl ctx)
  · generalize ctx.bodyBegin = r at hq
    obtain ⟨ok, c⟩ := r
    have hcc : c.req.chunked = true := by
      rw [hq]
      exact hc.2
    refine .inr ?_
    cases ok with
    | false => exact .refl c
    | true =>
      dsimp only
      split
      · have hh := chunkHeader_heard hcc
        split
        · rename_i he
          rwa [he] at hh
        · rename_i he
          rw [he] at hh
          split
          · exact hh
          · exact hh.trans (restOfChunk_heard (hh.same.chunked.trans hcc) cap)
      · exact restOfChunk_heard hcc cap

theorem bodyAll_reads (ctx : Ctx) : Reads ctx ctx.bodyAll.2 := by
  obtain ⟨hq, hr⟩ := bodyBegin_chunked ctx
  unfold bodyAll Reads
  split
  · exact .inl (.refl ctx)
  split
  · exact .inl (.refl ctx)
  rename_i he
  rw [not_or, not_not, not_not] at he
  have hall {c : Ctx} (h0 : c.bodyRead = 0) :
      Heard c (if c.req.chunked then c.allChunked else c.allFixed).2 := by
    split
    · rename_i hc
      have hl := allChunksLoop_heard (c.feed.stream.length + 2) hc
      unfold allChunked
      split
      · rename_i hx
        rwa [hx] at hl
      · rename_i hx
        rw [hx] at hl
        exact hl.trans (wholeBody_heard _ _)
    · exact allFixed_heard h0
  by_cases hd : ctx.bodyDone = true
  · rw [if_pos hd]
    exact .inl (hall he.1)
  · rw [if_neg hd]
    generalize ctx.bodyBegin = r at hq hr
    obtain ⟨ok, c⟩ := r
    cases ok with
    | false => exact .inr (.refl c)
    | true => exact .inr (hall (hr.trans he.1))

end Ctx

end Ioxd.Http
