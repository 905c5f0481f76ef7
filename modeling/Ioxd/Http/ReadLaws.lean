import Ioxd.Http.ChunkLaws

/-!
# The chunked reads decode

The loops of the three body reads, as runs of the decoder. A read that fails
says where the decoder would have stopped too; one that asks for more than a
torn chunk has does not stop there, and says nothing of what it reads.
-/

namespace Ioxd.Http

open Flat
open Ioxd.Pipe
open Chunked (Cursor)

namespace Ctx

variable {ctx ctx' : Ctx} {t : Feed}

-- ---------------------------------------------------------------------------
-- Reading up to a size
-- ---------------------------------------------------------------------------

/-- The data in front of the first violation starts with `d`. -/
def Readable (c : Cursor) (d : List Byte) : Prop :=
  ∃ d₁ c' x, Decodes c d₁ c' ∧ x <+: c'.stream ∧ x.length ≤ c'.left ∧ d = d₁ ++ x

/-- A violation is next, or behind the chunk that is being read. -/
def Halted (c : Cursor) : Prop :=
  c.done = false ∧ (Stuck c ∨ (0 < c.left ∧ TornBy (c.stream.drop c.left)))

/-- More bytes are asked for than there are up to the end of a chunk that is
not followed by a CRLF. -/
def Overshoots (c : Cursor) (n : Nat) : Prop :=
  ∃ d c', Decodes c d c' ∧ 0 < c'.left ∧ c'.left + 2 ≤ c'.stream.length ∧
    TornBy (c'.stream.drop c'.left) ∧ d.length + c'.left < n

theorem Readable.nil (c : Cursor) : Readable c [] :=
  ⟨[], c, [], .refl c, List.nil_prefix, Nat.zero_le _, rfl⟩

theorem Readable.after (h : Readable c' d) (hs : Decode c x c') : Readable c (x ++ d) := by
  obtain ⟨d₁, c'', y, hd, hp, hl, rfl⟩ := h
  exact ⟨x ++ d₁, c'', y, .step hs hd, hp, hl, by simp⟩

def Halts (c : Cursor) : Prop := ∃ d c', Decodes c d c' ∧ Halted c'

theorem Halts.after (h : Halts c') (hs : Decode c x c') : Halts c := by
  obtain ⟨d, c'', hd, hh⟩ := h
  exact ⟨x ++ d, c'', .step hs hd, hh⟩

theorem torn_readable {data s : List Byte} (hs : ctx.feed.stream = data ++ s)
    (hlen : data.length = ctx.chunkLeft) : Readable ctx.cursor data :=
  ⟨[], ctx.cursor, data, .refl _, by rw [cursor, hs]; exact List.prefix_append ..,
    by rw [hlen]; exact Nat.le_refl _, rfl⟩

theorem torn_drop {data s : List Byte} (hs : ctx.feed.stream = data ++ s)
    (hlen : data.length = ctx.chunkLeft) : ctx.cursor.stream.drop ctx.cursor.left = s := by
  rw [cursor, hs, ← hlen]
  exact List.drop_left

theorem dead_read {f : Feed} (h : Dead f) : ∃ rc, f.read = (rc, f) ∧ rc ≠ .some := by
  unfold Feed.read
  cases he : f.pr.error with
  | some e => exact ⟨.error e, rfl, by simp⟩
  | none =>
    obtain ⟨heof, hx⟩ := h.dead.resolve_left (not_not.mpr he)
    have hm : f.more = (.ended, f) := by
      unfold Feed.more
      rw [if_pos (show f.pr.eof = true from heof)]
    refine ⟨.ended, ?_, by simp⟩
    rw [Feed.readLoop, if_neg (by show ¬ f.view.examined < _; omega), hm]

theorem chunkHeader_dead (h : Dead ctx.feed) : ∃ ctx', ctx.chunkHeader = (false, ctx') ∧
    ctx'.feed = ctx.feed ∧ ctx'.bodyDone = ctx.bodyDone ∧ ctx'.bodyErr ≠ 0 := by
  obtain ⟨rc, hr, hrc⟩ := dead_read h
  obtain ⟨ctx₁, h1, h2, h3, h4⟩ : ∃ ctx₁, ctx.bodyBytes = (false, ctx₁) ∧ ctx₁.feed = ctx.feed ∧
      ctx₁.bodyDone = ctx.bodyDone ∧ ctx₁.bodyErr ≠ 0 := by
    unfold bodyBytes
    rw [hr]
    match rc, hrc with
    | .ended, _ => exact ⟨_, rfl, rfl, rfl, by simp⟩
    | .error .full, _ => exact ⟨_, rfl, rfl, rfl, bodyFail_err (by decide)⟩
    | .error .gone, _ => exact ⟨_, rfl, rfl, rfl, by simp⟩
  have hl : ctx.bodyLine = (none, ctx₁) := by
    unfold bodyLine
    rw [scan, h1]
  unfold chunkHeader
  rw [hl]
  dsimp only
  split
  · exact ⟨_, rfl, h2, h3, bodyFail_err (by decide)⟩
  · exact ⟨_, rfl, h2, h3, h4⟩

inductive UntilOutcome (ctx : Ctx) (n : Nat) (dst : List Byte) : Bool × List Byte × Ctx → Prop
  | done {t : Feed} {m : Nat} {fin : Bool} {data g : List Byte} : Feed.Moved ctx.feed t g [] →
      Fresh t → Decodes ctx.cursor data ⟨t.stream, m, fin⟩ → (dst ++ data).length ≤ n →
      ((dst ++ data).length = n ∨ fin = true) →
      UntilOutcome ctx n dst (true, dst ++ data, { ctx with
        feed := t
        chunkLeft := m
        bodyDone := fin
        bodyRead := ctx.bodyRead + data.length })
  | broken {ctx' : Ctx} {ok : Bool} {data : List Byte} : Tame ctx ctx' → ctx'.bodyErr ≠ 0 →
      (¬ Overshoots ctx.cursor (n - dst.length) →
        ctx'.bodyDone = false ∧ Readable ctx.cursor data) →
      (ctx.feed.Lasting → ctx.feed.view.error = none → ctx'.feed.view.error ≠ some .full →
        Halts ctx.cursor) →
      UntilOutcome ctx n dst (ok, dst ++ data, ctx')

theorem UntilOutcome.after {g data : List Byte} (hm : Feed.Moved ctx.feed t g [])
    (hs : Decode ctx.cursor data ⟨t.stream, m, fin⟩) (h : UntilOutcome { ctx with
        feed := t
        chunkLeft := m
        bodyDone := fin
        bodyRead := ctx.bodyRead + data.length } n (dst ++ data) r) :
    UntilOutcome ctx n dst r := by
  cases h with
  | @done u m' fin' data' g' hm' hf hd hle hend =>
    rw [List.append_assoc] at hle hend ⊢
    have hx := @UntilOutcome.done ctx n dst _ _ _ _ _ (hm.trans hm') hf (.step hs hd) hle hend
    rwa [List.length_append, ← Nat.add_assoc] at hx
  | @broken ctx' ok data' ht he hread hwhy =>
    rw [List.append_assoc]
    have hm0 : Tame ctx { ctx with
        feed := t
        chunkLeft := m
        bodyDone := fin
        bodyRead := ctx.bodyRead + data.length } := ⟨⟨rfl, fun he => ⟨he, rfl⟩⟩, hm.ok⟩
    refine .broken (hm0.trans ht) he (fun hno => ?_) fun h1 h2 h3 =>
      (hwhy (hm.lasting h1) (hm.error.trans h2) h3).after hs
    have hno' : ¬ Overshoots ⟨t.stream, m, fin⟩ (n - (dst ++ data).length) := by
      intro ho
      obtain ⟨d, c', hx, h0, hl, htorn, hn⟩ := ho
      refine hno ⟨data ++ d, c', .step hs hx, h0, hl, htorn, ?_⟩
      rw [List.length_append] at hn ⊢
      omega
    obtain ⟨hd, hr⟩ := hread hno'
    exact ⟨hd, hr.after hs⟩

/-- A loop that goes on behind an error reads what it reads, and the error
stays. -/
theorem readUntilLoop_extends (turns n : Nat) (dst : List Byte) :
    ∃ data, (readUntilLoop turns ctx n dst).2.1 = dst ++ data := by
  induction turns generalizing ctx dst with
  | zero => exact ⟨[], by simp [readUntilLoop]⟩
  | succ turns ih =>
    unfold readUntilLoop
    split
    · generalize ctx.readTurn (n - dst.length) = r
      obtain ⟨_ | data, ctx'⟩ := r
      · exact ⟨[], by simp⟩
      · obtain ⟨data', hd⟩ := @ih ctx' (dst ++ data)
        exact ⟨data ++ data', by rw [← List.append_assoc]; exact hd⟩
    · exact ⟨[], by simp⟩

/-- What is read of a torn chunk is there, and the tear behind it. -/
theorem Torn.readable {data s : List Byte} (h : Torn ctx n data s ctx')
    (hd : ctx.bodyDone = false) : ctx'.bodyDone = false ∧ Readable ctx.cursor data :=
  ⟨h.done.trans hd, torn_readable h.stream h.length⟩

theorem Torn.halts {data s : List Byte} (h : Torn ctx n data s ctx') (hd : ctx.bodyDone = false)
    (hs : TornBy s) : Halts ctx.cursor := by
  have hpos := List.length_pos_iff.mpr h.nonempty
  refine ⟨[], ctx.cursor, .refl _, hd, .inr ⟨?_, ?_⟩⟩
  · show 0 < ctx.chunkLeft
    rw [← h.length]
    exact hpos
  · rw [torn_drop h.stream h.length]
    exact hs

theorem Torn.overshoots {data s dst : List Byte} (h : Torn ctx (n - dst.length) data s ctx')
    (hlong : 2 ≤ s.length) (hs : TornBy s) (hroom : (dst ++ data).length < n) :
    Overshoots ctx.cursor (n - dst.length) := by
  have hpos := List.length_pos_iff.mpr h.nonempty
  have hlen := h.length
  rw [List.length_append] at hroom
  refine ⟨[], ctx.cursor, .refl _, by show 0 < ctx.chunkLeft; omega, ?_, ?_, ?_⟩
  · show ctx.chunkLeft + 2 ≤ ctx.feed.stream.length
    rw [h.stream, List.length_append]
    omega
  · rw [torn_drop h.stream h.length]
    exact hs
  · show 0 + ctx.chunkLeft < _
    omega

/-- A loop behind a torn chunk whose reader is at its end: the next turn, if there
is one, finds it so. -/
theorem readUntilLoop_dead {turns : Nat} {data s dst : List Byte} (hc : ctx.req.chunked = true)
    (h : Torn ctx (n - dst.length) data s ctx') (hd : ctx.bodyDone = false)
    (hdead : Dead ctx'.feed) :
    UntilOutcome ctx n dst (readUntilLoop (turns + 1) ctx' n (dst ++ data)) := by
  by_cases hcond : (dst ++ data).length < n ∧ ¬ ctx'.bodyDone = true
  · obtain ⟨ctx'', h1, h2, h3, h4⟩ := chunkHeader_dead hdead
    have htame := readUntilLoop_tame (turns + 1) n (dst ++ data) h.tame.ok
    have hx : readUntilLoop (turns + 1) ctx' n (dst ++ data) = (false, dst ++ data, ctx'') := by
      rw [readUntilLoop, if_pos hcond, readTurn, h.tame.same.chunked, if_neg (not_not.mpr hc),
        if_pos h.left, h1]
    rw [hx] at htame ⊢
    refine .broken (h.tame.trans htame) h4
      (fun _ => ⟨h3.trans (h.readable hd).1, (h.readable hd).2⟩) fun g1 g2 g3 => ?_
    rw [h2] at g3
    exact h.halts hd (h.why g1 g2 g3)
  · rw [readUntilLoop, if_neg hcond]
    exact .broken h.tame h.err (fun _ => h.readable hd) fun g1 g2 g3 => h.halts hd (h.why g1 g2 g3)

/-- A loop behind a torn chunk with bytes behind it: it stops, or more was asked
for than the chunk had. -/
theorem readUntilLoop_torn {turns : Nat} {data s dst : List Byte}
    (h : Torn ctx (n - dst.length) data s ctx') (hd : ctx.bodyDone = false) (hlong : 2 ≤ s.length)
    (hs : TornBy s) : UntilOutcome ctx n dst (readUntilLoop turns ctx' n (dst ++ data)) := by
  by_cases hroom : (dst ++ data).length < n
  · have htame := readUntilLoop_tame turns n (dst ++ data) h.tame.ok
    have herr : (readUntilLoop turns ctx' n (dst ++ data)).2.2.bodyErr ≠ 0 :=
      fun hz => h.err (htame.same.err hz).1
    obtain ⟨data', hdata⟩ := @readUntilLoop_extends ctx' turns n (dst ++ data)
    generalize readUntilLoop turns ctx' n (dst ++ data) = r at htame herr hdata
    obtain ⟨ok, out, ctx''⟩ := r
    dsimp only at hdata
    rw [hdata, List.append_assoc]
    exact .broken (h.tame.trans htame) herr
      (fun hno => absurd (h.overshoots hlong hs hroom) hno) fun _ _ _ => h.halts hd hs
  · have hx : readUntilLoop turns ctx' n (dst ++ data) = (true, dst ++ data, ctx') := by
      cases turns with
      | zero => rfl
      | succ turns => rw [readUntilLoop, if_neg fun hx => hroom hx.1]
    rw [hx]
    exact .broken h.tame h.err (fun _ => h.readable hd) fun _ _ _ => h.halts hd hs

/-- A turn that finds a violation itself. -/
theorem Broken.until {dst : List Byte} (h : Broken (Stuck ctx.cursor) ctx ctx')
    (hd : ctx.bodyDone = false) : UntilOutcome ctx n dst (false, dst, ctx') := by
  have hx := @UntilOutcome.broken ctx n dst _ false [] h.tame h.err
    (fun _ => ⟨h.done.trans hd, .nil _⟩)
    fun h1 h2 h3 => ⟨[], ctx.cursor, .refl _, hd, .inl (h.why h1 h2 h3)⟩
  rwa [List.append_nil] at hx

theorem readUntilLoop_outcome (turns n : Nat) (dst : List Byte) (hc : ctx.req.chunked = true)
    (h : Fresh ctx.feed) (hlt : ctx.feed.stream.length < turns) (hle : dst.length ≤ n) :
    UntilOutcome ctx n dst (readUntilLoop turns ctx n dst) := by
  induction turns generalizing ctx dst with
  | zero => omega
  | succ turns ih =>
    unfold readUntilLoop
    by_cases hcond : dst.length < n ∧ ¬ ctx.bodyDone = true
    swap
    · rw [if_neg hcond]
      have hx := @UntilOutcome.done ctx n dst _ _ _ _ _ (.refl h.ok) h
        (.refl ctx.cursor) (by simpa using hle) (by
          by_cases hd : ctx.bodyDone = true
          · exact .inr hd
          · refine .inl ?_
            rw [List.append_nil]
            by_contra hne
            exact hcond ⟨by omega, hd⟩)
      rwa [List.append_nil] at hx
    rw [if_pos hcond]
    have hd : ctx.bodyDone = false := by simpa using hcond.2
    unfold readTurn
    rw [if_neg (not_not.mpr hc)]
    by_cases h0 : ctx.chunkLeft = 0
    · rw [if_pos h0]
      have ho := chunkHeader_outcome h h0 hd
      generalize ctx.chunkHeader = r at ho
      cases ho with
      | @step t m fin g hm hf hs =>
        dsimp only
        have hsh : t.stream.length < ctx.feed.stream.length := hs.shorter
        refine UntilOutcome.after hm hs (ih _ hc hf (by show t.stream.length < _; omega) ?_)
        simpa using hle
      | broken hb => exact hb.until hd
    · rw [if_neg h0]
      have ho := chunkData_outcome (n := n - dst.length) h (by omega) (by omega) hd
      generalize ctx.chunkData (n - dst.length) = r at ho
      cases ho with
      | @step t m data g hm hf hs hne hsum hroom =>
        dsimp only
        have hsh : t.stream.length < ctx.feed.stream.length := hs.shorter
        have hx := @UntilOutcome.after _ _ _ _ _ dst _ _ _ hm hs (ih _ hc hf
          (by show t.stream.length < _; omega) (by rw [List.length_append]; omega))
        rw [← hd] at hx
        exact hx
      | @torn ctx' data s ht =>
        dsimp only
        rcases ht.dead with hdead | ⟨hlong, hs⟩
        · obtain ⟨turns, rfl⟩ : ∃ k, turns = k + 1 := by
            have hpos := List.length_pos_iff.mpr ht.nonempty
            rw [ht.stream, List.length_append] at hlt
            exact ⟨turns - 1, by omega⟩
          exact readUntilLoop_dead hc ht hd hdead
        · exact readUntilLoop_torn ht hd hlong hs
      | broken hb => exact hb.until hd

-- ---------------------------------------------------------------------------
-- Reading a chunk, and all of them
-- ---------------------------------------------------------------------------

/-- A read that stopped at an error, with the data it had read by then. -/
structure Halting (ctx ctx' : Ctx) (data : List Byte) : Prop where
  tame : Tame ctx ctx'
  err : ctx'.bodyErr ≠ 0
  done : ctx'.bodyDone = false
  readable : Readable ctx.cursor data
  why : ctx.feed.Lasting → ctx.feed.view.error = none → ctx'.feed.view.error ≠ some .full →
    Halts ctx.cursor

theorem Broken.halting (h : Broken (Stuck ctx.cursor) ctx ctx') (hd : ctx.bodyDone = false) :
    Halting ctx ctx' [] where
  tame := h.tame
  err := h.err
  done := h.done.trans hd
  readable := .nil _
  why h1 h2 h3 := ⟨[], ctx.cursor, .refl _, hd, .inl (h.why h1 h2 h3)⟩

theorem Halting.after {ctx₁ : Ctx} {g k data : List Byte} (h : Halting ctx₁ ctx' data')
    (ht : Tame ctx ctx₁) (hm : Feed.Moved ctx.feed ctx₁.feed g k)
    (hs : Decode ctx.cursor data ctx₁.cursor) : Halting ctx ctx' (data ++ data') where
  tame := ht.trans h.tame
  err := h.err
  done := h.done
  readable := h.readable.after hs
  why h1 h2 h3 := (h.why (hm.lasting h1) (hm.error.trans h2) h3).after hs

inductive NextOutcome (ctx : Ctx) (dst : List Byte) : Bool × List Byte × Ctx → Prop
  | done {t : Feed} {data g : List Byte} : Feed.Moved ctx.feed t g [] → Fresh t →
      Decodes ctx.cursor data ⟨t.stream, 0, false⟩ → data.length = ctx.chunkLeft →
      NextOutcome ctx dst (true, dst ++ data, { ctx with
        feed := t
        chunkLeft := 0
        bodyRead := ctx.bodyRead + data.length })
  | halting {ctx' : Ctx} {ok : Bool} {data : List Byte} : Halting ctx ctx' data →
      NextOutcome ctx dst (ok, dst ++ data, ctx')

theorem nextChunkLoop_outcome (turns want : Nat) (dst : List Byte) (h : Fresh ctx.feed)
    (hd : ctx.bodyDone = false) (hlt : ctx.chunkLeft < turns)
    (hw : want = dst.length + ctx.chunkLeft) :
    NextOutcome ctx dst (nextChunkLoop turns ctx want dst) := by
  induction turns generalizing ctx dst with
  | zero => omega
  | succ turns ih =>
    unfold nextChunkLoop
    by_cases h0 : ctx.chunkLeft = 0
    · rw [if_neg (by omega)]
      have hx := @NextOutcome.done ctx dst _ [] _ (.refl h.ok) h
        (by rw [← h0, ← hd]; exact .refl ctx.cursor) h0.symm
      rw [← h0, List.append_nil] at hx
      exact hx
    rw [if_pos (by omega)]
    have ho := chunkData_outcome (n := want - dst.length) h (by omega) (by omega) hd
    generalize ctx.chunkData (want - dst.length) = r at ho
    cases ho with
    | @step t m data g hm hf hs hne hsum hroom =>
      dsimp only
      have hpos := List.length_pos_iff.mpr hne
      have hr := @ih { ctx with
        feed := t, chunkLeft := m, bodyRead := ctx.bodyRead + data.length } (dst ++ data)
        hf hd (by show m < turns; omega) (by rw [List.length_append]; show want = _ + m; omega)
      have hs' : Decode ctx.cursor data ⟨t.stream, m, ctx.bodyDone⟩ := hd ▸ hs
      generalize nextChunkLoop turns { ctx with
        feed := t, chunkLeft := m, bodyRead := ctx.bodyRead + data.length } want (dst ++ data) = r
        at hr
      cases hr with
      | @done u data' g' hm' hf' hd' hlen =>
        have hx := @NextOutcome.done ctx dst _ _ _ (hm.trans hm') hf' (.step hs' hd')
          (by rw [List.length_append, hlen]; exact hsum)
        rw [List.length_append, ← Nat.add_assoc, ← List.append_assoc] at hx
        exact hx
      | halting hh =>
        rw [List.append_assoc]
        exact .halting (hh.after ⟨⟨rfl, fun he => ⟨he, rfl⟩⟩, hm.ok⟩ hm hs')
    | @torn ctx' data s ht =>
      have hx : nextChunkLoop turns ctx' want (dst ++ data) = (true, dst ++ data, ctx') := by
        cases turns with
        | zero => rfl
        | succ turns =>
          have hlen := ht.length
          rw [nextChunkLoop, if_neg]
          rw [List.length_append]
          omega
      dsimp only
      rw [hx]
      obtain ⟨hdone, hread⟩ := ht.readable hd
      exact .halting ⟨ht.tame, ht.err, hdone, hread, fun h1 h2 h3 => ht.halts hd (ht.why h1 h2 h3)⟩
    | broken hb =>
      have hx := @NextOutcome.halting ctx dst _ false _ (hb.halting hd)
      rwa [List.append_nil] at hx

inductive KeepOutcome (ctx : Ctx) : Bool × Ctx → Prop
  | step {t : Feed} {m : Nat} {data g : List Byte} : Feed.Moved ctx.feed t g data → Fresh t →
      Decode ctx.cursor data ⟨t.stream, m, false⟩ →
      KeepOutcome ctx (true, { ctx with
        feed := t, chunkLeft := m, bodyRead := ctx.bodyRead + data.length })
  | halting {ctx' : Ctx} {data : List Byte} : Halting ctx ctx' data → KeepOutcome ctx (false, ctx')

theorem keepChunk_outcome (h : Fresh ctx.feed) (h0 : 0 < ctx.chunkLeft)
    (hd : ctx.bodyDone = false) : KeepOutcome ctx ctx.keepChunk := by
  have ho := bodyBytes_outcome h.ok
  unfold keepChunk
  generalize ctx.bodyBytes = r at ho
  cases ho with
  | broken hb =>
    refine .halting (Broken.halting ⟨hb.same, hb.ok, hb.done, hb.err, fun h1 h2 h3 d c' hx => ?_⟩ hd)
    have hlen := hb.why h1 h2 h3
    have hsh := hx.shorter
    rw [h.none] at hlen
    exact Nat.not_lt_zero _ (Nat.lt_of_lt_of_le hsh hlen)
  | @some u d hg hx =>
    have hpos : 0 < u.live.length := Nat.lt_of_le_of_lt (Nat.zero_le _) hx
    have hex : u.view.examined = 0 := hg.examined.trans h.none
    have hk := Feed.keep_outcome hg.ok (n := min u.live.length ctx.chunkLeft) (by omega)
      (Nat.min_le_left ..)
    dsimp only
    generalize u.keep (min u.live.length ctx.chunkLeft) = r at hk
    cases hk with
    | @full t hst =>
      have herr : t.view.error = some .full := by rw [hst.view]; rfl
      refine @KeepOutcome.halting _ _ [] ⟨⟨⟨rfl, fun he => absurd he (bodyFail_err (by decide))⟩, hst.ok⟩,
        bodyFail_err (by decide), hd, .nil _, fun _ _ h3 => absurd herr h3⟩
    | @kept p t hp hst hb =>
      obtain ⟨data, hdata⟩ : ∃ data, data = u.live.take (min u.live.length ctx.chunkLeft) := ⟨_, rfl⟩
      have hlen : data.length = min u.live.length ctx.chunkLeft := by
        rw [hdata, List.length_take]
        omega
      have hne : data ≠ [] := List.length_pos_iff.mp (by omega)
      have hm : Feed.Moved ctx.feed t data data := by
        have := hg.moved.trans hst.kept
        rwa [← hdata] at this
      have hf : Fresh t := by
        refine ⟨hst.ok, ?_⟩
        rw [hst.view]
        show u.view.examined - _ = 0
        rw [hex, Nat.zero_sub]
      have hcur : ctx.cursor = ⟨data ++ t.stream, ctx.chunkLeft, false⟩ := by
        rw [cursor, hm.stream, hd]
      rw [← hlen]
      have hend : KeepOutcome ctx (if ctx.chunkLeft - data.length = 0 then
          chunkEnd { ctx with
            feed := t
            chunkLeft := ctx.chunkLeft - data.length
            bodyRead := ctx.bodyRead + data.length }
          else (true, { ctx with
            feed := t
            chunkLeft := ctx.chunkLeft - data.length
            bodyRead := ctx.bodyRead + data.length })) := by
        by_cases hz : ctx.chunkLeft - data.length = 0
        · have hall : data.length = ctx.chunkLeft := by omega
          have he := @chunkEnd_outcome { ctx with
            feed := t
            chunkLeft := ctx.chunkLeft - data.length
            bodyRead := ctx.bodyRead + data.length } hf
          rw [if_pos hz]
          generalize chunkEnd { ctx with
            feed := t
            chunkLeft := ctx.chunkLeft - data.length
            bodyRead := ctx.bodyRead + data.length } = r at he
          cases he with
          | @ended v hm' hf' =>
            refine .step (m := ctx.chunkLeft - data.length) (g := data ++ crlf) ?_ hf' ?_
            · have := hm.trans hm'
              rwa [List.append_nil] at this
            · rw [hcur, hz, show t.stream = crlf ++ v.stream from hm'.stream, ← hall,
                ← List.append_assoc]
              exact .whole hne
          | @torn ctx' hb' hleft hdead =>
            have hm0 : Tame ctx { ctx with
                feed := t
                chunkLeft := ctx.chunkLeft - data.length
                bodyRead := ctx.bodyRead + data.length } := ⟨⟨rfl, fun he => ⟨he, rfl⟩⟩, hm.ok⟩
            refine .halting ⟨hm0.trans hb'.tame, hb'.err, hb'.done.trans hd,
              torn_readable hm.stream hall, fun h1 h2 h3 => ?_⟩
            refine ⟨[], ctx.cursor, .refl _, hd, .inr ⟨h0, ?_⟩⟩
            rw [torn_drop hm.stream hall]
            exact hb'.why (hm.lasting h1) (hm.error.trans h2) h3
        · rw [if_neg hz]
          refine .step hm hf ?_
          rw [hcur]
          exact .part hne (by omega)
      cases p with
      | null => exact absurd rfl hp
      | buf off => exact hend
      | kernel i off => exact hend

inductive AllOutcome (ctx : Ctx) : Bool × Ctx → Prop
  | done {t : Feed} {m : Nat} {data g : List Byte} : Feed.Moved ctx.feed t g data → Fresh t →
      Decodes ctx.cursor data ⟨t.stream, m, true⟩ →
      AllOutcome ctx (true, { ctx with
        feed := t
        chunkLeft := m
        bodyDone := true
        bodyRead := ctx.bodyRead + data.length })
  | halting {ctx' : Ctx} {data : List Byte} : Halting ctx ctx' data → AllOutcome ctx (false, ctx')

theorem AllOutcome.after {g data : List Byte} (hm : Feed.Moved ctx.feed t g data)
    (hs : Decode ctx.cursor data ⟨t.stream, m, fin⟩) (h : AllOutcome { ctx with
        feed := t
        chunkLeft := m
        bodyDone := fin
        bodyRead := ctx.bodyRead + data.length } r) : AllOutcome ctx r := by
  cases h with
  | @done u m' data' g' hm' hf hd =>
    have hx := @AllOutcome.done ctx _ _ _ _ (hm.trans hm') hf (.step hs hd)
    rwa [List.length_append, ← Nat.add_assoc] at hx
  | halting hh => exact .halting (hh.after ⟨⟨rfl, fun he => ⟨he, rfl⟩⟩, hm.ok⟩ hm hs)

theorem allChunksLoop_outcome (turns : Nat) (h : Fresh ctx.feed)
    (hlt : ctx.feed.stream.length < turns) : AllOutcome ctx (allChunksLoop turns ctx) := by
  induction turns generalizing ctx with
  | zero => omega
  | succ turns ih =>
    unfold allChunksLoop
    by_cases hd : ctx.bodyDone = true
    · rw [if_pos hd]
      have he : (true, ctx) = (true, { ctx with bodyDone := true }) := by rw [← hd]
      rw [he]
      exact @AllOutcome.done ctx _ _ [] _ (.refl h.ok) h (by rw [← hd]; exact .refl ctx.cursor)
    rw [if_neg hd]
    replace hd : ctx.bodyDone = false := by simpa using hd
    by_cases h0 : ctx.chunkLeft = 0
    · rw [if_pos h0]
      have ho := chunkHeader_outcome h h0 hd
      generalize ctx.chunkHeader = r at ho
      cases ho with
      | @step t m fin g hm hf hs =>
        dsimp only
        have hsh : t.stream.length < ctx.feed.stream.length := hs.shorter
        exact AllOutcome.after hm hs (ih hf (by show t.stream.length < _; omega))
      | broken hb => exact .halting (hb.halting hd)
    · rw [if_neg h0]
      have ho := keepChunk_outcome h (by omega) hd
      generalize ctx.keepChunk = r at ho
      cases ho with
      | @step t m data g hm hf hs =>
        dsimp only
        have hsh : t.stream.length < ctx.feed.stream.length := hs.shorter
        have hx := AllOutcome.after hm hs (ih hf (by show t.stream.length < _; omega))
        rw [← hd] at hx
        exact hx
      | halting hh => exact .halting hh

end Ctx

end Ioxd.Http
