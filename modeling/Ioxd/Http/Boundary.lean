import Ioxd.Http.CallLaws

/-!
# Where a request ends

The engine takes another turn only when the reader has moved over the head and
the whole body of the request it served, and over nothing else.
-/

namespace Ioxd.Http

open Flat
open Ioxd.Pipe
open Chunked (Body encodeTrailers)

namespace Ctx

variable {ctx ctx' : Ctx} {fr : Option Nat} {S : List Byte}

-- ---------------------------------------------------------------------------
-- The drain
-- ---------------------------------------------------------------------------

/-- What one read of a drain comes to: an error, the end, or progress. -/
theorem bodyReadUntil_drains (h : Sane fr S ctx) (he : ctx.bodyErr = 0) (hd : ctx.bodyDone = false)
    {n : Nat} (hn : 0 < n) : (ctx.bodyReadUntil n).2.2.bodyErr ≠ 0 ∨
      ((ctx.bodyReadUntil n).1 = true ∧
        ((ctx.bodyReadUntil n).2.1 = [] → (ctx.bodyReadUntil n).2.2.bodyDone = true) ∧
        ((ctx.bodyReadUntil n).2.1 ≠ [] →
          (ctx.bodyReadUntil n).2.2.feed.stream.length < ctx.feed.stream.length)) := by
  obtain ⟨ctx₁, hm, hr⟩ := bodyReadUntil_cases he hd hn
  obtain ⟨hf, d, hp⟩ := (h.mute hm).going (hm.fields.2.2.2.2.2.1.trans he)
  rw [← hm.fields.1]
  rcases hr with hr | hr
  · rw [hr]
    exact .inl (by simp)
  rw [hr]
  have hpos : 0 < min n intMax := by
    have : 0 < intMax := by decide
    omega
  rcases readUntilLoop_progress hf hp (min n intMax) with ⟨-, ho⟩ | ⟨-, ho⟩
  · generalize readUntilLoop (ctx₁.feed.stream.length + 2) ctx₁ (min n intMax) [] = r at ho
    cases ho with
    | @done t m fin data g hm' hf' hdec hle hend =>
      refine .inr ⟨rfl, fun h0 => ?_, fun hne => (Chunked.Steps.shorter hdec).2 hne⟩
      dsimp only at h0
      refine hend.resolve_left fun hx => ?_
      rw [h0, List.length_nil] at hx
      omega
    | broken ht he' => exact .inl he'
  · generalize readUntilLoop (ctx₁.feed.stream.length + 2) ctx₁ (min n intMax) [] = r at ho
    cases ho with
    | @done t data fin hm' hf' hle' hfin hlen hend =>
      refine .inr ⟨rfl, fun h0 => ?_, fun hne => ?_⟩
      · dsimp only at h0
        refine hend.resolve_left fun hx => ?_
        rw [h0, List.length_nil] at hx
        omega
      · have hpos : 0 < data.length := List.length_pos_iff.mpr hne
        show t.stream.length < _
        rw [hm'.stream, List.length_append]
        omega
    | broken ht he' => exact .inl he'

theorem drainLoop_sane {turns : Nat} (h : Sane fr S ctx) (hlt : ctx.feed.stream.length < turns)
    (drained : Nat) : Sane fr S (drainLoop turns ctx drained) ∧
      ((drainLoop turns ctx drained).bodyErr = 0 → (drainLoop turns ctx drained).bodyDone = true ∨
        (drainLoop turns ctx drained).res.close = true) := by
  induction turns generalizing ctx drained with
  | zero => omega
  | succ turns ih =>
    unfold drainLoop
    by_cases hend : ctx.bodyDone = true ∨ ctx.bodyErr ≠ 0
    · rw [if_pos hend]
      exact ⟨h, fun h0 => .inl (hend.resolve_right (not_not.mpr h0))⟩
    rw [if_neg hend]
    rw [not_or, not_not, Bool.not_eq_true] at hend
    by_cases hmax : drained ≥ drainMax
    · rw [if_pos hmax]
      refine ⟨⟨h.ok, fun h0 => ?_⟩, fun _ => .inr rfl⟩
      obtain ⟨hf, d, hp⟩ := h.going h0
      exact ⟨hf, d, hp.congr rfl ⟨rfl, rfl⟩ ⟨rfl, rfl, rfl⟩⟩
    rw [if_neg hmax]
    have hs := bodyReadUntil_sane h 4096
    have hr := bodyReadUntil_drains h hend.2 hend.1 (n := 4096) (by decide)
    generalize ctx.bodyReadUntil 4096 = r at hs hr
    obtain ⟨ok, data, ctx'⟩ := r
    dsimp only at hs hr ⊢
    by_cases hstop : ¬ ok = true ∨ data = []
    · rw [if_pos hstop]
      refine ⟨hs, fun h0 => .inl ?_⟩
      obtain ⟨hok, hdone, -⟩ := hr.resolve_left (not_not.mpr h0)
      exact hdone (hstop.resolve_left (not_not.mpr hok))
    · rw [if_neg hstop]
      rw [not_or] at hstop
      rcases hr with herr | ⟨-, -, hshort⟩
      · -- the next turn, if there is one, ends at the error
        have hx : drainLoop turns ctx' (drained + data.length) = ctx' := by
          cases turns with
          | zero => rfl
          | succ turns => rw [drainLoop, if_pos (.inr herr)]
        rw [hx]
        exact ⟨hs, fun h0 => absurd h0 herr⟩
      · have := hshort hstop.2
        exact ih hs (by omega) _

theorem settleBody_sane (h : Sane fr S ctx) : Sane fr S ctx.settleBody ∧
    (ctx.settleBody.bodyErr = 0 → ctx.settleBody.bodyDone = true ∨
      ctx.settleBody.res.close = true) := by
  unfold settleBody
  split
  · refine ⟨⟨h.ok, fun h0 => ?_⟩, fun _ => .inr rfl⟩
    obtain ⟨hf, d, hp⟩ := h.going h0
    exact ⟨hf, d, hp.congr rfl ⟨rfl, rfl⟩ ⟨rfl, rfl, rfl⟩⟩
  · exact drainLoop_sane h (by omega) 0

/-- A request after which the engine goes on has its body behind it. -/
theorem afterDispatch_sane (h : Sane fr S ctx) (hok : ctx.afterDispatch.1 = true) :
    Fresh ctx.afterDispatch.2.feed ∧ ctx.afterDispatch.2.bodyDone = true ∧
      ∃ d, Progress fr S ctx.afterDispatch.2 d := by
  unfold afterDispatch at hok ⊢
  split at hok
  · cases hok
  rename_i he
  rw [if_neg he]
  obtain ⟨hs, hend⟩ := settleBody_sane h
  dsimp only at hok ⊢
  split at hok
  · cases hok
  rename_i he'
  rw [if_neg he']
  rw [not_not] at he'
  have hm := finish_mute ctx.settleBody
  simp only [Bool.and_eq_true, Bool.not_eq_true'] at hok
  obtain ⟨h1, h2, h3, h4, h5, h6, h7, h8⟩ := hm.fields
  obtain ⟨hf, d, hp⟩ := hs.going he'
  refine ⟨by rw [h1]; exact hf, ?_, d, hp.mute hm⟩
  rw [h4]
  refine (hend he').resolve_right fun hc => ?_
  have := hm.close hc
  simp [hok.2] at this

/-- The whole body, as `fill_request` framed it. -/
inductive Framed : Option Nat → List Byte → Prop
  | chunked (b : Body) : (encodeTrailers b.trailers).length ≤ trailerMax → Framed none b.encode
  | fixed (body : List Byte) : Framed (some body.length) body

theorem Progress.framed (h : Progress fr S ctx d) (hd : ctx.bodyDone = true) :
    ∃ body, S = body ++ ctx.feed.stream ∧ Framed fr body := by
  cases h with
  | chunked hc hs _ hfr =>
    obtain ⟨r, hr, hw⟩ := hs.within (.between []) rfl
    rw [if_pos (show ctx.cursor.done = true from hd)] at hw
    obtain ⟨b, hb, -, hlen⟩ := hw
    rw [List.flatMap_nil, List.nil_append] at hb
    refine ⟨r, hr, ?_⟩
    rw [← hfr, Request.bodyLength, if_pos hc, hb]
    exact .chunked b hlen
  | fixed hc hs _ _ hdone hfr =>
    refine ⟨d, hs, ?_⟩
    rw [← hfr, Request.bodyLength, if_neg (by simp [hc]), ← hdone.mp hd]
    exact .fixed d

end Ctx

-- ---------------------------------------------------------------------------
-- The head
-- ---------------------------------------------------------------------------

/-- These bytes have been called partial, each time with what was called so
before as already seen. -/
inductive Parser.Partial (parse : Parser) : List Byte → Prop
  | first {p : List Byte} : parse p 0 = .partly → Partial parse p
  | more {p q : List Byte} : Partial parse p → parse (p ++ q) p.length = .partly →
      Partial parse (p ++ q)

/-- What the engine relies on of `phr_parse_request`: the length of a head is
that of some of the bytes it was given, and of more than it had called partial
before. -/
structure Parser.Ok (parse : Parser) : Prop where
  head : ∀ {live already len found}, parse live already = .head len found →
    0 < len ∧ len ≤ live.length
  more : ∀ {p q len found}, parse.Partial p → parse (p ++ q) p.length = .head len found →
    p.length < len

/-- The parser has been given these bytes and has found this head at their
start. -/
structure Heads (parse : Parser) (stream head : List Byte) (found : ParsedHead) : Prop where
  parsed : ∃ live already, live <+: stream ∧ parse live already = .head head.length found ∧
    head <+: live

inductive ReadHeadOutcome (parse : Parser) (conn : Conn) : Option ParsedHead × Conn → Prop
  | found {conn' : Conn} {found : ParsedHead} {head : List Byte} : Ctx.Fresh conn'.feed →
      conn.feed.stream = head ++ conn'.feed.stream → Heads parse conn.feed.stream head found →
      ReadHeadOutcome parse conn (some found, conn')
  | none {conn' : Conn} : ReadHeadOutcome parse conn (.none, conn')

theorem runBegin_fresh {t u : Feed} {n : Nat} (hu : Feed.Stays t u (t.view.keep n))
    (hx : t.view.examined ≤ n) (hn : n ≤ t.live.length) :
    Ctx.Fresh u.runBegin ∧ t.stream = t.live.take n ++ u.runBegin.stream := by
  obtain ⟨e, hrun⟩ := Feed.runBegin_stays hu.ok
  have hstream : u.runBegin.stream = u.stream := by
    rw [Feed.stream, Feed.stream, hrun.live, hrun.coming]
    rfl
  refine ⟨⟨hrun.ok, ?_⟩, by rw [hu.kept.stream, hstream]⟩
  rw [hrun.view, hu.view]
  have hlive : t.view.live.length = t.live.length := rfl
  simp only [View.keep, View.consume]
  omega

theorem readHeadLoop_outcome {parse : Parser} (hparse : parse.Ok) {turns already : Nat} {conn : Conn}
    (h : conn.feed.Ok) (ha : conn.feed.view.examined = already)
    (hseen : already = 0 ∨
      (already = conn.feed.live.length ∧ parse.Partial conn.feed.live))
    (hn : conn.feed.left + (if conn.feed.live.length = already then 1 else 2) ≤ turns) :
    ReadHeadOutcome parse conn (readHeadLoop parse turns already conn) := by
  induction turns generalizing conn already with
  | zero => split at hn <;> omega
  | succ turns ih =>
    have ho := Feed.read_outcome h
    unfold readHeadLoop
    generalize conn.feed.read = r at ho
    cases ho with
    | ended => exact .none
    | error =>
      rename_i e _ _ _ _ _
      cases e <;> exact .none
    | @some t d hg hx =>
      have hs : conn.feed.stream = t.stream := by simpa using hg.moved.stream
      have hex : t.view.examined = already := hg.examined.trans ha
      have hpre : t.live <+: conn.feed.stream := by
        rw [hs]
        exact List.prefix_append ..
      dsimp only
      cases hp : parse t.live already with
      | bad => exact .none
      | head len found =>
        obtain ⟨hpos, hlen⟩ := hparse.head hp
        have hlt : already ≤ len := by
          rcases hseen with rfl | ⟨hall, he⟩
          · exact Nat.zero_le _
          · rw [hg.live, hall] at hp
            rw [hall]
            exact Nat.le_of_lt (hparse.more he hp)
        have hk := Feed.keep_outcome hg.ok hpos hlen
        dsimp only
        generalize t.keep len = r at hk
        cases hk with
        | full => exact .none
        | @kept p u hp' hst hb =>
          obtain ⟨hfresh, hstream⟩ := runBegin_fresh hst (hex ▸ hlt) hlen
          have htake : (t.live.take len).length = len := by
            rw [List.length_take]
            omega
          have hfound : ReadHeadOutcome parse conn (some found, { conn with feed := u.runBegin }) := by
            refine @ReadHeadOutcome.found _ _ _ _ (t.live.take len) hfresh (hs.trans hstream)
              ⟨t.live, already, hpre, ?_, List.take_prefix ..⟩
            rw [htake]
            exact hp
          cases p with
          | null => exact absurd rfl hp'
          | buf off => exact hfound
          | kernel i off => exact hfound
      | partly =>
        dsimp only
        have hpart : parse.Partial t.live := by
          rcases hseen with rfl | ⟨hall, he⟩
          · exact .first hp
          · rw [hg.live, hall] at hp
            rw [hg.live]
            exact .more he hp
        have hst := Feed.examine_stays hg.ok t.live.length
        have hlive : (t.examine t.live.length).live = t.live := hst.live
        have hmark : (t.examine t.live.length).view.examined = t.live.length := by rw [hst.view]
        have hr := @ih t.live.length { conn with feed := t.examine t.live.length } hst.ok hmark
          (.inr ⟨by rw [hlive], by rw [hlive]; exact hpart⟩) (by
            rw [if_pos (by rw [hlive])]
            exact hg.turns (hex ▸ hx) hn)
        have hs' : conn.feed.stream = (t.examine t.live.length).stream := by
          have := (hg.moved.trans (Feed.examine_moved hg.ok t.live.length)).stream
          simpa using this
        generalize readHeadLoop parse turns t.live.length
          { conn with feed := t.examine t.live.length } = r at hr
        cases hr with
        | found hf hst' hh =>
          dsimp only at hst' hh
          rw [← hs'] at hst' hh
          exact .found hf hst' hh
        | none => exact .none

theorem readHead_outcome {parse : Parser} (hparse : parse.Ok) {conn : Conn}
    (h : Ctx.Fresh conn.feed) : ReadHeadOutcome parse conn (readHead parse conn) := by
  refine readHeadLoop_outcome hparse h.ok h.none (.inl rfl) ?_
  split <;> omega

theorem init_sane {conn : Conn} (h : Ctx.Fresh conn.feed) (req : Request) (scratch : Scratch) :
    Ctx.Sane req.bodyLength conn.feed.stream (Ctx.init conn req scratch) := by
  refine ⟨h.ok, fun _ => ⟨h, [], ?_⟩⟩
  cases hc : req.chunked with
  | true =>
    refine .chunked hc ?_ rfl rfl
    have hcur : (Ctx.init conn req scratch).cursor = ⟨conn.feed.stream, 0, false⟩ := by
      simp [Ctx.cursor, Ctx.init, hc]
    rw [hcur]
    exact .refl _
  | false =>
    refine .fixed hc rfl rfl (Nat.zero_le _) ?_ rfl
    simp only [Ctx.init, hc, Bool.not_false, Bool.true_and, beq_iff_eq, List.length_nil]
    exact eq_comm

/-- A read of a fresh reader with live bytes returns them, and waits for
nothing. -/
theorem read_live {f : Feed} (h : Ctx.Fresh f) (hl : f.live ≠ []) :
    (f.read).2 = f ∧ (f.view.error = none → (f.read).1 = .some) := by
  have hpos := List.length_pos_iff.mpr hl
  have hx : f.pr.examined = 0 := h.none
  unfold Feed.read
  cases he : f.pr.error with
  | some e => exact ⟨rfl, fun hn => absurd (he.symm.trans hn) (by simp)⟩
  | none =>
    dsimp only
    rw [Feed.readLoop, if_pos (by omega)]
    exact ⟨rfl, fun _ => rfl⟩

/-- The turn of a request after which the engine goes on: the reader has moved
over its head and its whole body and nothing else, and no live byte is marked as
seen, so that a request that is already there is read without a wait. -/
structure Bounded (parse : Parser) (scratch : Scratch) (before : Conn) (ctx : Ctx) : Prop where
  consumed : ∃ head body found req mem,
    before.feed.stream = head ++ body ++ ctx.feed.stream ∧
    Heads parse before.feed.stream head found ∧
    fillRequest (.parsed found) scratch.params paramCap = (0, req, mem) ∧ Ctx.Framed req.bodyLength body
  fresh : Ctx.Fresh ctx.feed
  ready : ctx.feed.live ≠ [] →
    ctx.feed.read.2 = ctx.feed ∧ (ctx.feed.view.error = none → ctx.feed.read.1 = .some)

theorem serveTurn_bounded {parse : Parser} (hparse : parse.Ok) {scratch : Scratch}
    {ops : List HandlerOp} {conn : Conn} (hfeed : Ctx.Fresh conn.feed) {ctx : Ctx}
    (h : serveTurn parse scratch ops conn = .served true ctx) : Bounded parse scratch conn ctx := by
  have ho := readHead_outcome hparse hfeed
  unfold serveTurn at h
  generalize readHead parse conn = r at ho h
  cases ho with
  | none => cases h
  | @found conn' found head hf hstream hheads =>
    dsimp only at h
    generalize hfill : fillRequest (.parsed found) scratch.params paramCap = r at h
    obtain ⟨refused, req, mem⟩ := r
    dsimp only at h
    split at h
    · cases h
    rename_i hrefused
    rw [not_not] at hrefused
    have hsane := Ctx.run_sane (init_sane hf req scratch) ops
    have hend := Ctx.afterDispatch_sane hsane
    generalize ((Ctx.init conn' req scratch).run ops).afterDispatch = r at h hend
    obtain ⟨ok, ctx'⟩ := r
    simp only [Turn.served.injEq] at h
    obtain ⟨rfl, hctx⟩ := h
    obtain ⟨hfresh, hdone, d, hp⟩ := hend rfl
    rw [if_pos rfl] at hctx
    subst hctx
    obtain ⟨body, hb, hframed⟩ := hp.framed hdone
    have hst := Feed.release_stays hfresh.ok
    have hs : ctx'.feed.release.stream = ctx'.feed.stream := by
      rw [Feed.stream, Feed.stream, hst.live, hst.coming]
      rfl
    have hfr : Ctx.Fresh ctx'.feed.release := ⟨hst.ok, by rw [hst.view]; exact hfresh.none⟩
    refine ⟨⟨head, body, found, req, mem, ?_, hheads, by rw [hfill, hrefused], ?_⟩, hfr,
      read_live hfr⟩
    · show _ = _ ++ ctx'.feed.release.stream
      rw [hstream, hb, hs, List.append_assoc]
    · exact hframed

theorem serve_fresh {parse : Parser} (hparse : parse.Ok) (scratch : Scratch)
    (handlers : List (List HandlerOp)) {conn : Conn} (hfeed : Ctx.Fresh conn.feed)
    {before : Conn} {ctx : Ctx}
    (h : (before, .served true ctx) ∈ serve parse scratch handlers conn) :
    Bounded parse scratch before ctx := by
  induction handlers generalizing conn with
  | nil => cases h
  | cons ops rest ih =>
    unfold serve at h
    cases ht : serveTurn parse scratch ops conn with
    | ended c => simp [ht] at h
    | refused c => simp [ht] at h
    | served ok c =>
      cases ok with
      | false => simp [ht] at h
      | true =>
        have hb := serveTurn_bounded hparse hfeed ht
        rw [ht] at h
        rcases List.mem_cons.mp h with heq | h
        · obtain ⟨rfl, hc⟩ := Prod.mk.inj heq
          cases hc
          exact hb
        · exact ih hb.fresh h

theorem init_fresh (buf : Mem Byte) (cap : Nat) (slab : Nat → Mem Byte) (script : List Event) :
    Ctx.Fresh (Feed.init buf cap slab script) := ⟨Feed.init_ok buf cap slab script, rfl⟩

/-- Whatever comes in, however it is cut, and whatever the handlers do. -/
theorem serve_bounded {parse : Parser} (hparse : parse.Ok) (scratch : Scratch)
    (handlers : List (List HandlerOp)) (buf : Mem Byte) (cap : Nat) (slab : Nat → Mem Byte)
    (script : List Event) (out : Pipewriter) (sock : Socket) {before : Conn} {ctx : Ctx}
    (h : (before, .served true ctx) ∈
      serve parse scratch handlers ⟨.init buf cap slab script, out, sock⟩) :
    Bounded parse scratch before ctx :=
  serve_fresh hparse scratch handlers (init_fresh buf cap slab script) h

-- ---------------------------------------------------------------------------
-- A connection with one kind of request
-- ---------------------------------------------------------------------------

def postHead : List Byte := str "POST / HTTP/1.1\r\nHost: a\r\nContent-Length: 2\r\n\r\n"

/-- `phr_parse_request` on the bytes of `postHead`. -/
def postParser : Parser := fun live _ =>
  if postHead <+: live then
    .head postHead.length ⟨str "POST", str "/", 1,
      [⟨some (str "Host"), str "a"⟩, ⟨some (str "Content-Length"), str "2"⟩]⟩
  else if live <+: postHead then .partly
  else .bad

theorem postParser_partial {p : List Byte} (h : postParser.Partial p) :
    p.length < postHead.length := by
  have hp : ∃ already, postParser p already = .partly := by
    cases h with
    | first h => exact ⟨_, h⟩
    | more _ h => exact ⟨_, h⟩
  obtain ⟨already, hp⟩ := hp
  unfold postParser at hp
  split at hp
  · cases hp
  rename_i hn
  split at hp
  · rename_i hle
    refine Nat.lt_of_le_of_ne hle.length_le fun he => hn ?_
    exact hle.eq_of_length he ▸ List.prefix_rfl
  · cases hp

theorem postParser_ok : postParser.Ok where
  head h := by
    unfold postParser at h
    split at h
    · rename_i hpre
      cases h
      exact ⟨by decide, hpre.length_le⟩
    · split at h <;> cases h
  more hp h := by
    unfold postParser at h
    split at h
    · cases h
      exact postParser_partial hp
    · split at h <;> cases h

def blank : Mem Byte := fun _ => 0

/-- Two requests, the first cut inside its head, the second behind the first's
body. -/
def postScript : List Event :=
  [.deliver 0 (postHead.take 20), .deliver 1 (postHead.drop 20 ++ str "hi" ++ postHead)]

def postConn : Conn :=
  ⟨.init blank 256 (fun _ => blank) postScript, .init blank pipeLead pipeCap pipeSlack, ⟨[], []⟩⟩

def Turn.goesOn : Turn → Bool
  | .served ok _ => ok
  | _ => false

theorem serve_bounded_post : ∃ ctx,
    (postConn, .served true ctx) ∈
      serve postParser ⟨blank, blank, blank⟩ [[.write (str "ok")]] postConn ∧
    Bounded postParser ⟨blank, blank, blank⟩ postConn ctx := by
  have hgo : (serveTurn postParser ⟨blank, blank, blank⟩ [.write (str "ok")] postConn).goesOn =
    true := by decide +kernel
  cases ht : serveTurn postParser ⟨blank, blank, blank⟩ [.write (str "ok")] postConn with
  | ended c => simp [ht, Turn.goesOn] at hgo
  | refused c => simp [ht, Turn.goesOn] at hgo
  | served ok ctx =>
    obtain rfl : ok = true := by simpa [ht, Turn.goesOn] using hgo
    have hmem : (postConn, .served true ctx) ∈
        serve postParser ⟨blank, blank, blank⟩ [[.write (str "ok")]] postConn := by
      simp [serve, ht]
    exact ⟨ctx, hmem, serve_bounded postParser_ok _ _ _ _ _ _ _ _ hmem⟩

end Ioxd.Http
