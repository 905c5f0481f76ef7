import Ioxd.Http.BodyLaws
import Ioxd.Http.LineLaws

/-!
# The pieces of a chunked body

`chunk_header`, `chunk_data` and `chunk_end` refine the decoder of
`Lib.Chunked`: each of them makes one of its steps, or there is none to make.
-/

namespace Ioxd.Http

open Flat
open Ioxd.Pipe
open Numeral
open Chunked (Cursor Extension encodeTrailers)

abbrev Decode : Cursor → List Byte → Cursor → Prop := Chunked.Step sizeMax trailerMax

abbrev Decodes : Cursor → List Byte → Cursor → Prop := Chunked.Steps sizeMax trailerMax

-- ---------------------------------------------------------------------------
-- Lines and trailers
-- ---------------------------------------------------------------------------

theorem first_line {l l' s s' : List Byte} (h : ¬ crlf <:+: l) (h' : ¬ crlf <:+: l')
    (he : l ++ crlf ++ s = l' ++ crlf ++ s') : l = l' ∧ s = s' := by
  have hlen : l.length = l'.length := by
    have := findCrlf_line h s
    rw [he, findCrlf_line h' s'] at this
    exact (Option.some.inj this).symm
  rw [List.append_assoc, List.append_assoc] at he
  obtain ⟨h1, h2⟩ := List.append_inj he hlen
  exact ⟨h1, List.append_cancel_left h2⟩

def Trailers (lines : List (List Byte)) : Prop := ∀ t ∈ lines, t ≠ [] ∧ ¬ crlf <:+: t

theorem encodeTrailers_nil : encodeTrailers [] = [] ++ crlf ++ [] := rfl

theorem encodeTrailers_cons (t : List Byte) (lines : List (List Byte)) :
    encodeTrailers (t :: lines) = t ++ crlf ++ encodeTrailers lines := by
  simp [encodeTrailers]

namespace Ctx

variable {ctx ctx' : Ctx} {t : Feed}

def cursor (ctx : Ctx) : Cursor := ⟨ctx.feed.stream, ctx.chunkLeft, ctx.bodyDone⟩

theorem drop_fresh (h : t.Ok) {n : Nat} (hn : n ≤ t.live.length) (hx : t.view.examined ≤ n) :
    Fresh (t.drop n) := by
  have hs := Feed.drop_stays h n
  refine ⟨hs.ok, ?_⟩
  have : t.view.live.length = t.live.length := rfl
  rw [hs.view]
  simp only [View.consume]
  omega

inductive LineOutcome (ctx : Ctx) : Option Nat × Ctx → Prop
  | line {t : Feed} {line rest : List Byte} : Feed.Moved ctx.feed t [] [] →
      t.live = line ++ crlf ++ rest → ¬ crlf <:+: line →
      Feed.Moved ctx.feed (t.drop (line.length + 2)) (line ++ crlf) [] →
      Fresh (t.drop (line.length + 2)) →
      LineOutcome ctx (some line.length, { ctx with feed := t })
  | broken {ctx' : Ctx} : Broken (findCrlf ctx.feed.stream = none) ctx ctx' →
      LineOutcome ctx (none, ctx')

theorem bodyLine_outcome (h : Fresh ctx.feed) : LineOutcome ctx ctx.bodyLine := by
  have ho := scan_outcome findCrlf h rfl
  unfold bodyLine
  generalize scan findCrlf (ctx.feed.left + 2) ctx = r at ho
  cases ho with
  | @found t len hm hf hb =>
    obtain ⟨line, rest, hl, rfl, hno⟩ := findCrlf_some hf
    have hx := findCrlf_past hf hb
    have htake : t.live.take (line.length + 2) = line ++ crlf := by
      rw [hl]
      exact List.take_left' (by simp)
    have hd := hm.trans (Feed.drop_moved hm.ok (line.length + 2))
    rw [htake] at hd
    exact .line hm hl hno hd (drop_fresh hm.ok (by rw [hl]; simp) (by omega))
  | broken hb => exact .broken hb

theorem findCrlf_trailers {lines : List (List Byte)} (h : Trailers lines) (s : List Byte) :
    ∃ l r, encodeTrailers lines ++ s = l ++ crlf ++ r ∧ ¬ crlf <:+: l ∧
      (l = [] ∧ lines = [] ∧ r = s ∨ l ≠ [] ∧ ∃ ls, lines = l :: ls ∧ r = encodeTrailers ls ++ s) := by
  cases lines with
  | nil => exact ⟨[], s, by simp [encodeTrailers_nil], by simp, .inl ⟨rfl, rfl, rfl⟩⟩
  | cons l ls =>
    obtain ⟨h1, h2⟩ := h l (by simp)
    exact ⟨l, encodeTrailers ls ++ s, by simp [encodeTrailers_cons], h2, .inr ⟨h1, ls, rfl, rfl⟩⟩

inductive TrailersOutcome (taken : Nat) (ctx : Ctx) : Bool × Ctx → Prop
  | done {t : Feed} {lines : List (List Byte)} :
      Feed.Moved ctx.feed t (encodeTrailers lines) [] → Fresh t → Trailers lines →
      taken + (encodeTrailers lines).length ≤ trailerMax →
      TrailersOutcome taken ctx (true, { ctx with feed := t, bodyDone := true })
  | broken {ctx' : Ctx} : Broken (∀ lines s, Trailers lines →
      ctx.feed.stream = encodeTrailers lines ++ s →
      trailerMax < taken + (encodeTrailers lines).length) ctx ctx' →
      TrailersOutcome taken ctx (false, ctx')

theorem chunkTrailersLoop_outcome (turns taken : Nat) (h : Fresh ctx.feed) (hle : taken ≤ trailerMax)
    (hn : trailerMax < taken + turns) :
    TrailersOutcome taken ctx (chunkTrailersLoop turns taken ctx) := by
  induction turns generalizing ctx taken with
  | zero => omega
  | succ turns ih =>
    have ho := bodyLine_outcome h
    unfold chunkTrailersLoop
    generalize ctx.bodyLine = r at ho
    cases ho with
    | @line t line rest hm hl hno hd hf =>
      have hs : ctx.feed.stream = line ++ crlf ++ (t.drop (line.length + 2)).stream := hd.stream
      dsimp only
      by_cases hmax : taken + line.length + 2 > trailerMax
      · rw [if_pos hmax]
        refine .broken (broken_of rfl hm.ok rfl (bodyFail_err (by decide)) fun _ _ _ lines s ht he => ?_)
        obtain ⟨l, r, he', hno', hcase⟩ := findCrlf_trailers ht s
        rw [hs, he'] at he
        obtain ⟨rfl, -⟩ := first_line hno hno' he
        rcases hcase with ⟨rfl, rfl, -⟩ | ⟨-, ls, rfl, -⟩
        · simp only [encodeTrailers_nil, List.length_append, List.length_cons, List.length_nil] at *
          omega
        · simp only [encodeTrailers_cons, List.length_append, List.length_cons, List.length_nil] at *
          omega
      · rw [if_neg hmax]
        by_cases h0 : line = []
        · subst h0
          rw [List.length_nil, if_pos rfl]
          refine @TrailersOutcome.done _ _ (t.drop 2) [] (by simpa [encodeTrailers_nil] using hd) hf
            (by simp [Trailers]) ?_
          simp only [encodeTrailers_nil, List.length_append, List.length_cons, List.length_nil] at *
          omega
        · have hpos : line.length ≠ 0 := by simpa using h0
          rw [if_neg hpos]
          have hr := @ih { ctx with feed := t.drop (line.length + 2) }
            (taken + line.length + 2) hf (by omega) (by omega)
          show TrailersOutcome taken ctx (chunkTrailersLoop turns (taken + line.length + 2)
            { ctx with feed := t.drop (line.length + 2) })
          generalize chunkTrailersLoop turns (taken + line.length + 2)
            { ctx with feed := t.drop (line.length + 2) } = r at hr
          cases hr with
          | @done u lines hm' hf' ht hlen =>
            refine @TrailersOutcome.done _ _ _ (line :: lines) ?_ hf' ?_ ?_
            · rw [encodeTrailers_cons]
              exact hd.trans hm'
            · rintro l hl'
              rcases List.mem_cons.mp hl' with rfl | hl'
              · exact ⟨h0, hno⟩
              · exact ht l hl'
            · simp only [encodeTrailers_cons, List.length_append, List.length_cons,
                List.length_nil] at *
              omega
          | broken hb =>
            refine .broken (hb.after (same_feed ..) rfl hd fun hw lines s ht he => ?_)
            obtain ⟨l, r, he', hno', hcase⟩ := findCrlf_trailers ht s
            rw [hs, he'] at he
            obtain ⟨rfl, hr⟩ := first_line hno hno' he
            rcases hcase with ⟨rfl, -, -⟩ | ⟨-, ls, rfl, rfl⟩
            · exact absurd rfl h0
            · have := hw ls s (fun x hx => ht x (List.mem_cons_of_mem _ hx)) hr
              simp only [encodeTrailers_cons, List.length_append, List.length_cons,
                List.length_nil] at *
              omega
    | broken hb =>
      refine .broken ⟨hb.same, hb.ok, hb.done, hb.err, fun h1 h2 h3 lines s ht he => ?_⟩
      have hnone := hb.why h1 h2 h3
      obtain ⟨l, r, he', hno', -⟩ := findCrlf_trailers ht s
      rw [he, he', findCrlf_line hno'] at hnone
      cases hnone

-- ---------------------------------------------------------------------------
-- Size lines
-- ---------------------------------------------------------------------------

def Stuck (c : Cursor) : Prop := ∀ d c', ¬ Decode c d c'

theorem decode_between {c : Cursor} {d : List Byte} {c' : Cursor} (h : Decode c d c')
    (h0 : c.left = 0) : ∃ line s n, c.stream = line ++ crlf ++ s ∧ ¬ crlf <:+: line ∧
      sizeLine line = some n ∧ (n = 0 → ∃ lines s', Trailers lines ∧
        s = encodeTrailers lines ++ s' ∧ (encodeTrailers lines).length ≤ trailerMax) := by
  cases h with
  | @size size ext s n hs he hn hmax =>
    refine ⟨size ++ ext, s, n, rfl, sizeLine_unbroken hs he, ?_, fun h => by omega⟩
    exact sizeLine_eq_some.mpr ⟨size, ext, rfl, hs, hmax, suffix_of_extension he⟩
  | part _ hlt => dsimp only at h0; omega
  | whole hne => exact absurd (List.length_eq_zero_iff.mp h0) hne
  | @last size ext s lines hs he hl hlen =>
    refine ⟨size ++ ext, encodeTrailers lines ++ s, 0, by simp, sizeLine_unbroken hs he, ?_,
      fun _ => ⟨lines, s, hl, rfl, hlen⟩⟩
    exact sizeLine_eq_some.mpr ⟨size, ext, rfl, hs, Nat.zero_le _, suffix_of_extension he⟩

inductive HeaderOutcome (ctx : Ctx) : Bool × Ctx → Prop
  | step {t : Feed} {n : Nat} {done : Bool} {g : List Byte} : Feed.Moved ctx.feed t g [] →
      Fresh t → Decode ctx.cursor [] ⟨t.stream, n, done⟩ →
      HeaderOutcome ctx (true, { ctx with feed := t, chunkLeft := n, bodyDone := done })
  | broken {ctx' : Ctx} : Broken (Stuck ctx.cursor) ctx ctx' → HeaderOutcome ctx (false, ctx')

theorem chunkHeader_outcome (h : Fresh ctx.feed) (h0 : ctx.chunkLeft = 0)
    (hd : ctx.bodyDone = false) : HeaderOutcome ctx ctx.chunkHeader := by
  have ho := bodyLine_outcome h
  unfold chunkHeader
  generalize ctx.bodyLine = r at ho
  cases ho with
  | broken hb =>
    have hstuck : findCrlf ctx.feed.stream = none → Stuck ctx.cursor := by
      intro hn d c' hx
      obtain ⟨line, s, n, he, hno, -⟩ := decode_between hx h0
      rw [show ctx.feed.stream = _ from he, findCrlf_line hno] at hn
      cases hn
    dsimp only
    split
    · refine .broken ⟨hb.same.trans (tame_bodyFail hb.ok (by decide)).same, hb.ok, hb.done,
        bodyFail_err (by decide), fun h1 h2 h3 => hstuck (hb.why h1 h2 h3)⟩
    · exact .broken ⟨hb.same, hb.ok, hb.done, hb.err, fun h1 h2 h3 => hstuck (hb.why h1 h2 h3)⟩
  | @line t line rest hm hl hno hmd hf =>
    have htake : t.live.take line.length = line := by
      rw [hl, List.append_assoc]
      exact List.take_left' rfl
    have hs : ctx.feed.stream = line ++ crlf ++ (t.drop (line.length + 2)).stream := hmd.stream
    dsimp only
    rw [htake]
    cases hsize : sizeLine line with
    | none =>
      refine .broken (broken_of rfl hm.ok rfl (bodyFail_err (by decide)) fun _ _ _ d c' hx => ?_)
      obtain ⟨line', s, n, he, hno', hsize', -⟩ := decode_between hx h0
      obtain ⟨rfl, -⟩ := first_line hno hno' (hs.symm.trans he)
      rw [hsize] at hsize'
      cases hsize'
    | some n =>
      obtain ⟨size, ext, hline, hhex, hmax, hsuf⟩ := sizeLine_eq_some.mp hsize
      have hext := extension_of_suffix hsuf (hline ▸ hno)
      dsimp only
      by_cases hn : n = 0
      · subst hn
        rw [if_pos rfl]
        have hr := @chunkTrailersLoop_outcome { ctx with feed := t.drop (line.length + 2) }
          (trailerMax + 1) 0 hf (by omega) (by omega)
        show HeaderOutcome ctx (chunkTrailersLoop (trailerMax + 1) 0
          { ctx with feed := t.drop (line.length + 2) })
        generalize chunkTrailersLoop (trailerMax + 1) 0
          { ctx with feed := t.drop (line.length + 2) } = r at hr
        cases hr with
        | @done u lines hm' hf' ht hlen =>
          have hst : ctx.cursor =
              ⟨size ++ ext ++ crlf ++ encodeTrailers lines ++ u.stream, 0, false⟩ := by
            rw [cursor, h0, hd, hs, hm'.stream, hline]
            simp
          have hx := @HeaderOutcome.step ctx _ 0 true _ (hmd.trans hm') hf'
            (hst ▸ .last hhex hext ht (by omega))
          rwa [← h0] at hx
        | broken hb =>
          refine .broken (hb.after (same_feed ..) rfl hmd fun hw d c' hx => ?_)
          obtain ⟨line', s, n, he, hno', hsize', htr⟩ := decode_between hx h0
          obtain ⟨rfl, hrest⟩ := first_line hno hno' (hs.symm.trans he)
          obtain ⟨lines, s', ht, rfl, hlen⟩ := htr (Option.some.inj (hsize'.symm.trans hsize))
          have := hw lines s' ht hrest
          omega
      · rw [if_neg hn]
        have hst : ctx.cursor =
            ⟨size ++ ext ++ crlf ++ (t.drop (line.length + 2)).stream, 0, false⟩ := by
          rw [cursor, h0, hd, hs, hline]
        have hx := @HeaderOutcome.step ctx _ n false _ hmd hf
          (hst ▸ .size hhex hext (by omega) hmax)
        rwa [← hd] at hx

-- ---------------------------------------------------------------------------
-- Chunk data
-- ---------------------------------------------------------------------------

def TornBy (s : List Byte) : Prop := s.take 2 ≠ crlf

inductive EndOutcome (ctx : Ctx) : Bool × Ctx → Prop
  | ended {t : Feed} : Feed.Moved ctx.feed t crlf [] → Fresh t →
      EndOutcome ctx (true, { ctx with feed := t })
  | torn {ctx' : Ctx} : Broken (TornBy ctx.feed.stream) ctx ctx' →
      ctx'.chunkLeft = ctx.chunkLeft →
      (Dead ctx'.feed ∨ (2 ≤ ctx.feed.stream.length ∧ TornBy ctx.feed.stream)) →
      EndOutcome ctx (false, ctx')

theorem chunkEnd_outcome (h : Fresh ctx.feed) : EndOutcome ctx ctx.chunkEnd := by
  have ho := scan_outcome firstTwo h rfl
  unfold chunkEnd
  generalize scan firstTwo (ctx.feed.left + 2) ctx = r at ho
  cases ho with
  | @found t two hm hf hb =>
    obtain ⟨hlen, rfl⟩ : 2 ≤ t.live.length ∧ t.live.take 2 = two := by
      unfold firstTwo at hf
      split at hf
      · exact ⟨‹_›, Option.some.inj hf⟩
      · cases hf
    have hs : ctx.feed.stream.take 2 = t.live.take 2 := by
      rw [hm.stream, List.nil_append, Feed.stream, List.take_append_of_le_length hlen]
    dsimp only
    by_cases hc : t.live.take 2 = crlf
    · rw [if_pos hc]
      have hx : t.view.examined < 2 := by
        by_contra hle
        simp only [firstTwo, ite_eq_right_iff, reduceCtorEq, imp_false, List.length_take] at hb
        omega
      have hd := hm.trans (Feed.drop_moved hm.ok 2)
      rw [hc] at hd
      exact .ended hd (drop_fresh hm.ok hlen (by omega))
    · have htorn : TornBy ctx.feed.stream := by rw [TornBy, hs]; exact hc
      rw [if_neg hc]
      refine .torn (broken_of rfl hm.ok rfl (bodyFail_err (by decide)) fun _ _ _ => htorn) rfl
        (.inr ⟨?_, htorn⟩)
      rw [hm.stream, List.nil_append, Feed.stream, List.length_append]
      omega
  | broken hb hdry =>
    refine .torn ⟨hb.same, hb.ok, hb.done, hb.err, fun h1 h2 h3 => ?_⟩ hdry.left (.inl hdry.dead)
    have hn := hb.why h1 h2 h3
    unfold firstTwo at hn
    split at hn
    · cases hn
    · rename_i hlt
      intro he
      have := congrArg List.length he
      rw [List.length_take] at this
      simp only [List.length_cons, List.length_nil] at this
      omega

inductive TakeOutcome (f : Feed) (n : Nat) : Rc × List Byte × Feed → Prop
  | some {t : Feed} {data : List Byte} : Feed.Moved f t data [] → Fresh t → data ≠ [] →
      data.length ≤ n → TakeOutcome f n (.some, data, t)
  | none {t : Feed} {rc : Rc} : rc ≠ .some → t.Ok →
      (f.Lasting → f.view.error = .none → t.view.error ≠ .some .full → f.stream = []) →
      TakeOutcome f n (rc, [], t)

theorem copy_take {f : Feed} (h : Fresh f) (hn : 0 < n) : TakeOutcome f n (f.copy n) := by
  have ho := Feed.copy_outcome h.ok n
  generalize f.copy n = r at ho
  cases ho with
  | @some u t d hg hne h0 hs =>
    have hm : Feed.Moved u t (u.live.take n) [] :=
      hs.moved (List.take_append_drop n u.live).symm (List.append_nil _).symm rfl rfl rfl
    refine .some (hg.moved.trans hm) ⟨hs.ok, ?_⟩ ?_ (List.length_take_le ..)
    · rw [hs.view]
      show u.view.examined - _ = 0
      rw [hg.examined, h.none, Nat.zero_sub]
    · intro hx
      rcases List.take_eq_nil_iff.mp hx with hx | hx
      · omega
      · exact hne hx
  | nothing hz => omega
  | @ended t hl hok hv ht hc hlast =>
    refine .none (by simp) hok fun hf _ _ => ?_
    rw [Feed.stream, hl, hlast hf, List.append_nil]
  | @error t e b hok hv hlast =>
    refine .none (by simp) hok fun hf he hx => absurd ?_ hx
    rw [hv, hlast hf he]

/-- A read up to the end of a chunk that no CRLF follows; `s` is what does. -/
structure Torn (ctx : Ctx) (n : Nat) (data s : List Byte) (ctx' : Ctx) : Prop where
  stream : ctx.feed.stream = data ++ s
  nonempty : data ≠ []
  length : data.length = ctx.chunkLeft
  room : data.length ≤ n
  tame : Tame ctx ctx'
  err : ctx'.bodyErr ≠ 0
  done : ctx'.bodyDone = ctx.bodyDone
  left : ctx'.chunkLeft = 0
  dead : Dead ctx'.feed ∨ (2 ≤ s.length ∧ TornBy s)
  why : ctx.feed.Lasting → ctx.feed.view.error = none → ctx'.feed.view.error ≠ some .full → TornBy s

inductive DataOutcome (ctx : Ctx) (n : Nat) : Option (List Byte) × Ctx → Prop
  | step {t : Feed} {m : Nat} {data g : List Byte} : Feed.Moved ctx.feed t g [] → Fresh t →
      Decode ctx.cursor data ⟨t.stream, m, false⟩ → data ≠ [] →
      data.length + m = ctx.chunkLeft → data.length ≤ n →
      DataOutcome ctx n (some data, { ctx with
        feed := t, chunkLeft := m, bodyRead := ctx.bodyRead + data.length })
  | torn {ctx' : Ctx} {data s : List Byte} : Torn ctx n data s ctx' →
      DataOutcome ctx n (some data, ctx')
  | broken {ctx' : Ctx} : Broken (Stuck ctx.cursor) ctx ctx' → DataOutcome ctx n (none, ctx')

theorem chunkData_outcome (h : Fresh ctx.feed) (h0 : 0 < ctx.chunkLeft) (hn : 0 < n)
    (hd : ctx.bodyDone = false) : DataOutcome ctx n (ctx.chunkData n) := by
  have ho := copy_take h (n := min n ctx.chunkLeft) (by omega)
  unfold chunkData
  dsimp only
  generalize ctx.feed.copy (min n ctx.chunkLeft) = r at ho
  cases ho with
  | @some t data hm hf hne hle =>
    dsimp only
    by_cases hz : ctx.chunkLeft - data.length = 0
    · have hlen : data.length = ctx.chunkLeft := by omega
      have he := @chunkEnd_outcome { ctx with
        feed := t
        chunkLeft := ctx.chunkLeft - data.length
        bodyRead := ctx.bodyRead + data.length } hf
      rw [if_pos hz]
      generalize chunkEnd { ctx with
        feed := t
        chunkLeft := ctx.chunkLeft - data.length
        bodyRead := ctx.bodyRead + data.length } = r at he
      cases he with
      | @ended u hm' hf' =>
        have hcur : ctx.cursor = ⟨data ++ crlf ++ u.stream, data.length, false⟩ := by
          rw [cursor, hm.stream, show t.stream = crlf ++ u.stream from hm'.stream, hlen, hd]
          simp
        refine .step (m := ctx.chunkLeft - data.length) (hm.trans hm') hf' ?_ hne (by omega) (by omega)
        rw [hcur, hz]
        exact .whole hne
      | @torn ctx' hb hleft hdead =>
        have hm0 : Tame ctx { ctx with
            feed := t
            chunkLeft := ctx.chunkLeft - data.length
            bodyRead := ctx.bodyRead + data.length } := ⟨⟨rfl, fun he => ⟨he, rfl⟩⟩, hm.ok⟩
        exact .torn ⟨hm.stream, hne, hlen, by omega, hm0.trans hb.tame, hb.err, hb.done,
          hleft.trans hz, hdead, fun h1 h2 h3 => hb.why (hm.lasting h1) (hm.error.trans h2) h3⟩
    · rw [if_neg hz]
      refine .step hm hf ?_ hne (by omega) (by omega)
      have hcur : ctx.cursor = ⟨data ++ t.stream, ctx.chunkLeft, false⟩ := by
        rw [cursor, hm.stream, hd]
      rw [hcur]
      exact .part hne (by omega)
  | @none t rc hrc hok hw =>
    have hb : Broken (Stuck ctx.cursor) ctx { ctx with feed := t, bodyErr := -1 } := by
      refine broken_of rfl hok rfl (by simp) fun h1 h2 h3 d c' hx => ?_
      have := hx.shorter
      rw [cursor, hw h1 h2 h3] at this
      exact Nat.not_lt_zero _ this
    cases rc with
    | some => exact absurd rfl hrc
    | ended => exact .broken hb
    | error e => exact .broken hb

end Ctx

end Ioxd.Http
