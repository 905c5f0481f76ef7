import Ioxd.Http.CallLaws
import Ioxd.Http.DecodeLaws
import Ioxd.Http.DrainLaws

/-!
# A body that is not well formed

What a handler gets of a chunked body with a violation in it. As long as no
read asks for more than a torn chunk has, it gets a beginning of the data in
front of the violation, the body is never done, and the call that comes to the
violation records an error. A read that asks for more goes on behind the torn
chunk, since `ioxd_body_read_until` does not look at the error `chunk_end`
recorded.
-/

namespace Ioxd.Http

open Flat
open Ioxd.Pipe
open Chunked (Cursor Body encodeTrailers)

def WellFormed (s : List Byte) : Prop :=
  ∃ (b : Body) (rest : List Byte), s = b.encode ++ rest ∧
    (encodeTrailers b.trailers).length ≤ trailerMax

theorem wellFormed_of_decodes (h : Decodes ⟨s, 0, false⟩ d c) (hd : c.done = true) :
    WellFormed s := by
  obtain ⟨r, hs, hb⟩ := h.within (.between []) rfl
  rw [if_pos hd] at hb
  obtain ⟨b, he, -, hlen⟩ := hb
  exact ⟨b, c.stream, by rw [← he]; exact hs, hlen⟩

namespace Ctx

variable {ctx ctx' : Ctx} {S D d : List Byte}

-- ---------------------------------------------------------------------------
-- The data in front of the violation
-- ---------------------------------------------------------------------------

/-- All the data in front of the first violation. -/
def Front (c : Cursor) (D : List Byte) : Prop := Readable c D ∧ ∀ d, Readable c d → d <+: D

theorem Readable.behind {c c' : Cursor} (h : Readable c' d) (hs : Decodes c x c') :
    Readable c (x ++ d) := by
  obtain ⟨d₁, c'', y, hd, hp, hl, rfl⟩ := h
  exact ⟨x ++ d₁, c'', y, hs.trans hd, hp, hl, by simp⟩

theorem Readable.of_decodes {c c' : Cursor} (h : Decodes c d c') : Readable c d := by
  have := (Readable.nil c').behind h
  rwa [List.append_nil] at this

theorem Readable.length_le {c : Cursor} (h : Readable c d) : d.length ≤ c.stream.length := by
  obtain ⟨d₁, c', x, hd, hp, -, rfl⟩ := h
  have h1 := hd.length_le
  have h2 := hp.length_le
  rw [List.length_append]
  omega

/-- Of two readings, the one that stops earlier is the beginning of the other. -/
theorem readable_agree {c c' : Cursor} {x y z : List Byte} (hx : x <+: c.stream)
    (hl : x.length ≤ c.left) (hd : Decodes c y c') (hz : z <+: c'.stream) :
    x <+: y ++ z ∨ y ++ z <+: x := by
  by_cases h0 : c.left = 0
  · obtain rfl : x = [] := List.length_eq_zero_iff.mp (by omega)
    exact .inl List.nil_prefix
  have hin {s : List Byte} (hs : c.stream = y ++ s) (hz : z <+: s) :
      x <+: y ++ z ∨ y ++ z <+: x := by
    refine List.prefix_or_prefix_of_prefix hx ?_
    rw [hs]
    exact (List.prefix_append_right_inj y).mpr hz
  by_cases hdone : c.done = true
  · obtain ⟨rfl, rfl⟩ := decodes_done hd hdone
    exact hin rfl hz
  · cases decodes_inside hd (by omega) (by simpa using hdone) with
    | part hs => exact hin hs hz
    | whole hs hlen =>
      left
      rw [List.append_assoc]
      refine List.IsPrefix.trans ?_ (List.prefix_append ..)
      refine List.prefix_of_prefix_length_le hx ?_ (by omega)
      rw [hs, List.append_assoc]
      exact List.prefix_append ..

theorem readable_comparable {c : Cursor} {d d' : List Byte} (h : Readable c d)
    (h' : Readable c d') : d <+: d' ∨ d' <+: d := by
  obtain ⟨d₁, c₁, x, h1, h2, h3, rfl⟩ := h
  obtain ⟨d₂, c₂, y, h1', h2', h3', rfl⟩ := h'
  rcases decodes_linear h1 h1' with ⟨z, rfl, hz⟩ | ⟨z, rfl, hz⟩
  · rw [List.append_assoc, List.prefix_append_right_inj, List.prefix_append_right_inj]
    exact readable_agree h2 h3 hz h2'
  · rw [List.append_assoc, List.prefix_append_right_inj, List.prefix_append_right_inj]
    exact (readable_agree h2' h3' hz h2).symm

theorem exists_front (c : Cursor) : ∃ D, Front c D := by
  by_contra hno
  have hlonger (k : Nat) : ∃ d, Readable c d ∧ k ≤ d.length := by
    induction k with
    | zero => exact ⟨[], .nil c, Nat.zero_le _⟩
    | succ k ih =>
      obtain ⟨d, hd, hk⟩ := ih
      obtain ⟨d', hd', hn⟩ : ∃ d', Readable c d' ∧ ¬ d' <+: d := by
        by_contra hx
        push Not at hx
        exact hno ⟨d, hd, hx⟩
      refine ⟨d', hd', ?_⟩
      have hp := (readable_comparable hd hd').resolve_right hn
      have := hp.length_le
      refine Nat.lt_of_le_of_ne (hk.trans this) fun he => hn ?_
      obtain rfl := hp.eq_of_length_le (by omega)
      exact List.prefix_rfl
  obtain ⟨d, hd, hlen⟩ := hlonger (c.stream.length + 1)
  have := hd.length_le
  omega

-- ---------------------------------------------------------------------------
-- What a handler is given
-- ---------------------------------------------------------------------------

/-- The bytes of the body a call gives to the handler, whatever it returns. -/
def handedBy (ctx : Ctx) : HandlerOp → List Byte
  | .bodyAll => ctx.bodyAll.2.feed.bytes ctx.bodyAll.1
  | .bodyReadUntil n => (ctx.bodyReadUntil n).2.1
  | .bodyReadNextChunk cap => (ctx.bodyReadNextChunk cap).2.1
  | _ => []

def handed : Ctx → List HandlerOp → List Byte
  | _, [] => []
  | ctx, op :: ops => ctx.handedBy op ++ handed (ctx.step op) ops

def Heeds (ctx : Ctx) : HandlerOp → Prop
  | .bodyReadUntil n => ctx.bodyErr = 0 → ¬ Overshoots ctx.cursor (min n intMax)
  | _ => True

def Heedful : Ctx → List HandlerOp → Prop
  | _, [] => True
  | ctx, op :: ops => ctx.Heeds op ∧ Heedful (ctx.step op) ops

/-- What a call got that met no violation: all the bytes it asked for, the rest
of a chunk, or nothing since the body is not read from its beginning. -/
def Served (ctx : Ctx) : HandlerOp → Prop
  | .bodyReadUntil n => (ctx.bodyReadUntil n).2.1.length = min n intMax
  | .bodyReadNextChunk cap =>
    (ctx.bodyReadNextChunk cap).2.1 ≠ [] ∧ (ctx.bodyReadNextChunk cap).2.2.chunkLeft = 0
  | .bodyAll => ctx.bodyRead ≠ 0
  | _ => True

/-- The state between two calls, when `given` was handed out so far. -/
structure Contained (S : List Byte) (ctx : Ctx) (given : List Byte) : Prop where
  ok : ctx.feed.Ok
  chunked : ctx.req.chunked = true
  whole : ctx.bodyWhole = false
  done : ctx.bodyDone = false
  readable : Readable ⟨S, 0, false⟩ given
  going : ctx.bodyErr = 0 → Fresh ctx.feed ∧ Decodes ⟨S, 0, false⟩ given ctx.cursor

theorem Contained.mute (h : Contained S ctx d) (hm : Mute ctx ctx') : Contained S ctx' d := by
  obtain ⟨h1, h2, h3, h4, h5, h6, h7, h8⟩ := hm.fields
  refine ⟨by rw [h1]; exact h.ok, by rw [h2]; exact h.chunked, h5.trans h.whole, h4.trans h.done,
    h.readable, fun he => ?_⟩
  rw [h1, cursor, h1, h4, h7]
  exact h.going (h6.symm.trans he)

theorem Contained.failed (h : Contained S ctx d) (hd : Deaf ctx ctx') (hok : ctx'.feed.Ok)
    (he : ctx'.bodyErr ≠ 0) (hdone : ctx'.bodyDone = false)
    (hr : Readable ⟨S, 0, false⟩ (d ++ x)) : Contained S ctx' (d ++ x) where
  ok := hok
  chunked := by rw [hd.eq]; exact h.chunked
  whole := by rw [hd.eq]; exact h.whole
  done := hdone
  readable := hr
  going h0 := absurd h0 he

/-- A run of the decoder from where the body is; it cannot come to the end. -/
theorem Contained.decoded {t : Feed} (h : Contained S ctx d) (hbad : ¬ WellFormed S)
    (he : ctx.bodyErr = 0) (hf : Fresh t) (hd : Decodes ctx.cursor x ⟨t.stream, m, fin⟩) :
    fin = false ∧ Contained S { ctx with
      feed := t
      chunkLeft := m
      bodyDone := fin
      bodyRead := r } (d ++ x) := by
  have hall := (h.going he).2.trans hd
  obtain rfl : fin = false := by
    by_contra hfin
    exact hbad (wellFormed_of_decodes hall (by simpa using hfin))
  exact ⟨rfl, hf.ok, h.chunked, h.whole, rfl, .of_decodes hall, fun _ => ⟨hf, hall⟩⟩

theorem bodyReadUntil_contained (h : Contained S ctx d) (hbad : ¬ WellFormed S) {n : Nat}
    (hn : ctx.Heeds (.bodyReadUntil n)) :
    Contained S (ctx.bodyReadUntil n).2.2 (d ++ (ctx.bodyReadUntil n).2.1) ∧
      ((ctx.bodyReadUntil n).2.2.bodyErr = 0 →
        (ctx.bodyReadUntil n).2.1.length = min n intMax) := by
  by_cases he : ctx.bodyErr = 0
  swap
  · rw [bodyReadUntil, if_pos he, List.append_nil]
    exact ⟨h, fun h0 => absurd h0 he⟩
  by_cases h0 : n = 0
  · rw [bodyReadUntil, if_neg (not_not.mpr he), if_pos (.inl h0), List.append_nil]
    exact ⟨h, fun _ => by simp [h0]⟩
  obtain ⟨ctx₁, hm, hr⟩ := bodyReadUntil_cases he h.done (Nat.pos_of_ne_zero h0)
  have h₁ := h.mute hm
  obtain ⟨h1, h2, h3, h4, h5, h6, h7, h8⟩ := hm.fields
  obtain ⟨hf, hdec⟩ := h₁.going (h6.trans he)
  rcases hr with hr | hr
  · rw [hr]
    refine ⟨h₁.failed (deaf_gone ctx₁ ctx₁.feed) h₁.ok (by simp) h₁.done ?_,
      fun h0 => by simp at h0⟩
    rw [List.append_nil]
    exact h₁.readable
  rw [hr]
  have ho := readUntilLoop_outcome (ctx₁.feed.stream.length + 2) (min n intMax) [] h₁.chunked hf
    (by omega) (Nat.zero_le _)
  have hdeaf := readUntilLoop_deaf (ctx₁.feed.stream.length + 2) ctx₁ (min n intMax) []
  generalize readUntilLoop (ctx₁.feed.stream.length + 2) ctx₁ (min n intMax) [] = r at ho hdeaf
  cases ho with
  | done hm' hf' hd' hle hend =>
    obtain ⟨rfl, hx⟩ := h₁.decoded hbad (h6.trans he) hf' hd'
    exact ⟨hx, fun _ => hend.resolve_right (by simp)⟩
  | broken ht he' hread =>
    have hcur : ctx₁.cursor = ctx.cursor := by rw [cursor, cursor, h1, h4, h7]
    obtain ⟨hdone, hrd⟩ := hread (by rw [hcur]; exact hn he)
    exact ⟨h₁.failed hdeaf ht.ok he' hdone (hrd.behind hdec), fun h0 => absurd h0 he'⟩

theorem restOfChunk_contained (h : Contained S ctx d) (hbad : ¬ WellFormed S)
    (he : ctx.bodyErr = 0) (h0 : 0 < ctx.chunkLeft) (cap : Nat) :
    Contained S (ctx.restOfChunk cap).2.2 (d ++ (ctx.restOfChunk cap).2.1) ∧
      ((ctx.restOfChunk cap).2.2.bodyErr = 0 →
        (ctx.restOfChunk cap).2.1 ≠ [] ∧ (ctx.restOfChunk cap).2.2.chunkLeft = 0) := by
  obtain ⟨hf, hdec⟩ := h.going he
  unfold restOfChunk
  split
  · refine ⟨h.failed (bodyFail_deaf ctx (by decide)) h.ok (bodyFail_err (by decide)) h.done ?_,
      fun h0 => absurd h0 (bodyFail_err (by decide))⟩
    rw [List.append_nil]
    exact h.readable
  have ho := nextChunkLoop_outcome (ctx.chunkLeft + 1) ctx.chunkLeft [] hf h.done (by omega)
    (by simp)
  have hdeaf := nextChunkLoop_deaf (ctx.chunkLeft + 1) ctx ctx.chunkLeft []
  generalize nextChunkLoop (ctx.chunkLeft + 1) ctx ctx.chunkLeft [] = r at ho hdeaf
  cases ho with
  | @done t data g hm' hf' hd' hlen =>
    obtain ⟨-, hx⟩ := h.decoded hbad he hf' hd' (r := ctx.bodyRead + data.length)
    rw [← h.done] at hx
    have hne : data ≠ [] := List.length_pos_iff.mp (by omega)
    exact ⟨hx, fun _ => ⟨hne, rfl⟩⟩
  | halting hh =>
    exact ⟨h.failed hdeaf hh.tame.ok hh.err hh.done (hh.readable.behind hdec),
      fun h0 => absurd h0 hh.err⟩

theorem bodyReadNextChunk_contained (h : Contained S ctx d) (hbad : ¬ WellFormed S) (cap : Nat) :
    Contained S (ctx.bodyReadNextChunk cap).2.2 (d ++ (ctx.bodyReadNextChunk cap).2.1) ∧
      ((ctx.bodyReadNextChunk cap).2.2.bodyErr = 0 → (ctx.bodyReadNextChunk cap).2.1 ≠ [] ∧
        (ctx.bodyReadNextChunk cap).2.2.chunkLeft = 0) := by
  by_cases he : ctx.bodyErr = 0
  swap
  · rw [bodyReadNextChunk, if_pos (.inl he), List.append_nil]
    exact ⟨h, fun h0 => absurd h0 he⟩
  rw [bodyReadNextChunk, if_neg (by simp [he, h.chunked]), if_neg (by simp [h.done])]
  rcases bodyBegin_cases ctx with ⟨ctx₁, hb, hm⟩ | ⟨ctx₁, hb, hm⟩
  · rw [hb]
    dsimp only
    have h₁ := h.mute hm
    have he₁ : ctx₁.bodyErr = 0 := hm.fields.2.2.2.2.2.1.trans he
    obtain ⟨hf, hdec⟩ := h₁.going he₁
    split
    · rename_i h0
      have ho := chunkHeader_outcome hf h0 h₁.done
      have hdeaf := chunkHeader_deaf ctx₁
      generalize ctx₁.chunkHeader = r at ho hdeaf
      cases ho with
      | @step t n fin g hm' hf' hs =>
        obtain ⟨rfl, hx⟩ := h₁.decoded hbad he₁ hf' (.single hs) (r := ctx₁.bodyRead)
        rw [List.append_nil] at hx
        exact restOfChunk_contained hx hbad he₁ (decode_into hs h0 rfl) cap
      | broken hb' =>
        refine ⟨h₁.failed hdeaf hb'.ok hb'.err (hb'.done.trans h₁.done) ?_,
          fun h0 => absurd h0 hb'.err⟩
        rw [List.append_nil]
        exact h₁.readable
    · exact restOfChunk_contained h₁ hbad he₁ (by omega) cap
  · rw [hb]
    have h₁ := h.mute hm
    refine ⟨h₁.failed (deaf_gone ctx₁ ctx₁.feed) h₁.ok (by simp) h₁.done ?_,
      fun h0 => by simp at h0⟩
    rw [List.append_nil]
    exact h₁.readable

theorem bodyAll_contained (h : Contained S ctx d) (hbad : ¬ WellFormed S) :
    Contained S ctx.bodyAll.2 d ∧ ctx.bodyAll.1 = noSlice ∧
      (ctx.bodyAll.2.bodyErr = 0 → ctx.bodyRead ≠ 0) := by
  have hr := h.readable
  rw [← List.append_nil d] at hr
  unfold bodyAll
  rw [if_neg (by simp [h.whole])]
  split
  · rename_i hx
    exact ⟨h, rfl, fun h0 => hx.resolve_right (not_not.mpr h0)⟩
  rename_i hx
  rw [not_or, not_not, not_not] at hx
  rw [if_neg (by simp [h.done])]
  rcases bodyBegin_cases ctx with ⟨ctx₁, hb, hm⟩ | ⟨ctx₁, hb, hm⟩
  · have h₁ := h.mute hm
    have he₁ : ctx₁.bodyErr = 0 := hm.fields.2.2.2.2.2.1.trans hx.2
    obtain ⟨hf, hdec⟩ := h₁.going he₁
    have ho := allChunksLoop_outcome (ctx₁.feed.stream.length + 2) hf (by omega)
    have hdeaf := allChunksLoop_deaf (ctx₁.feed.stream.length + 2) ctx₁
    rw [hb]
    dsimp only
    rw [if_pos h₁.chunked, allChunked]
    generalize allChunksLoop (ctx₁.feed.stream.length + 2) ctx₁ = r at ho hdeaf
    cases ho with
    | done hm' hf' hd' =>
      obtain ⟨hfin, -⟩ := h₁.decoded hbad he₁ hf' hd' (r := 0)
      cases hfin
    | halting hh =>
      have := h₁.failed hdeaf hh.tame.ok hh.err hh.done hr
      rw [List.append_nil] at this
      exact ⟨this, rfl, fun h0 => absurd h0 hh.err⟩
  · have h₁ := h.mute hm
    have := h₁.failed (deaf_gone ctx₁ ctx₁.feed) h₁.ok (by simp) h₁.done hr
    rw [List.append_nil] at this
    rw [hb]
    exact ⟨this, rfl, fun h0 => by simp at h0⟩

theorem step_contained (h : Contained S ctx d) (hbad : ¬ WellFormed S) {op : HandlerOp}
    (hop : ctx.Heeds op) : Contained S (ctx.step op) (d ++ ctx.handedBy op) ∧
      ((ctx.step op).bodyErr = 0 → ctx.Served op) := by
  have hmute {ctx' : Ctx} (hm : Mute ctx ctx') : Contained S ctx' (d ++ []) := by
    rw [List.append_nil]
    exact h.mute hm
  cases op with
  | head op => exact ⟨hmute (headOp_mute ctx op), fun _ => trivial⟩
  | write data => exact ⟨hmute (write_mute ctx data), fun _ => trivial⟩
  | reserve n data _ => exact ⟨hmute (reserveOp_mute ctx n data), fun _ => trivial⟩
  | flush => exact ⟨hmute (flushWith_mute ctx .asked []), fun _ => trivial⟩
  | onHead fn => exact ⟨hmute (setOnHead_mute ctx fn), fun _ => trivial⟩
  | bodyAll =>
    obtain ⟨h1, h2, h3⟩ := bodyAll_contained h hbad
    refine ⟨?_, h3⟩
    rw [handedBy, h2]
    show Contained S _ (d ++ [])
    rw [List.append_nil]
    exact h1
  | bodyReadUntil n => exact bodyReadUntil_contained h hbad hop
  | bodyReadNextChunk cap => exact bodyReadNextChunk_contained h hbad cap
  | tick =>
    have hm := Feed.tick_moved h.ok
    show Contained S _ (d ++ []) ∧ _
    rw [List.append_nil]
    refine ⟨⟨hm.ok, h.chunked, h.whole, h.done, h.readable, fun he => ?_⟩, fun _ => trivial⟩
    obtain ⟨hf, hdec⟩ := h.going he
    have hs : (ctx.step .tick).feed.stream = ctx.feed.stream := hm.stream.symm
    refine ⟨⟨hm.ok, ?_⟩, ?_⟩
    · rw [show (ctx.step .tick).feed.view = ctx.feed.view from (Feed.tick_quiet h.ok).1.view]
      exact hf.none
    · rw [cursor, hs]
      exact hdec

theorem run_contained (h : Contained S ctx d) (hbad : ¬ WellFormed S) {ops : List HandlerOp}
    (hops : Heedful ctx ops) : Contained S (ctx.run ops) (d ++ handed ctx ops) := by
  induction ops generalizing ctx d with
  | nil =>
    rw [handed, List.append_nil]
    exact h
  | cons op ops ih =>
    have hs := ih (step_contained h hbad hops.1).1 hops.2
    rw [List.append_assoc] at hs
    exact hs

theorem heedful_append {ops ops' : List HandlerOp} :
    Heedful ctx (ops ++ ops') ↔ Heedful ctx ops ∧ Heedful (ctx.run ops) ops' := by
  induction ops generalizing ctx with
  | nil => simp [Heedful, run]
  | cons op ops ih =>
    rw [List.cons_append, Heedful, Heedful, ih, and_assoc]
    rfl

end Ctx

/-- What a handler has of a body with a violation behind the data `D`. -/
structure HeldBack (ctx : Ctx) (D : List Byte) (ops : List HandlerOp) : Prop where
  handed : ctx.handed ops <+: D
  undone : (ctx.run ops).bodyDone = false
  /-- Without an error the reader is in front of the violation. -/
  before : (ctx.run ops).bodyErr = 0 → Decodes ctx.cursor (ctx.handed ops) (ctx.run ops).cursor
  served : ∀ ops' op, ops = ops' ++ [op] → (ctx.run ops).bodyErr = 0 → (ctx.run ops').Served op

theorem init_cursor (conn : Conn) {req : Request} (scratch : Scratch) (hc : req.chunked = true) :
    (Ctx.init conn req scratch).cursor = ⟨conn.feed.stream, 0, false⟩ := by
  simp [Ctx.cursor, Ctx.init, hc]

/-- In every run whose reads heed the torn chunk, behind every call. -/
theorem malformed_held_back {conn : Conn} {req : Request} (scratch : Scratch)
    (hfeed : Ctx.Fresh conn.feed) (hc : req.chunked = true) (hbad : ¬ WellFormed conn.feed.stream)
    {ops : List HandlerOp} (hops : (Ctx.init conn req scratch).Heedful ops) :
    ∃ D, Ctx.Front ⟨conn.feed.stream, 0, false⟩ D ∧
      ∀ ops', ops' <+: ops → HeldBack (Ctx.init conn req scratch) D ops' := by
  obtain ⟨D, hD⟩ := Ctx.exists_front ⟨conn.feed.stream, 0, false⟩
  have hcur := init_cursor conn scratch hc
  have hstart : Ctx.Contained conn.feed.stream (Ctx.init conn req scratch) [] := by
    refine ⟨hfeed.ok, hc, rfl, by simp [Ctx.init, hc], .nil _, fun _ => ⟨hfeed, ?_⟩⟩
    rw [hcur]
    exact .refl _
  refine ⟨D, hD, ?_⟩
  rintro ops' ⟨rest, rfl⟩
  have hpre := (Ctx.heedful_append.mp hops).1
  have hrun := Ctx.run_contained hstart hbad hpre
  rw [List.nil_append] at hrun
  refine ⟨hD.2 _ hrun.readable, hrun.done, fun he => ?_, ?_⟩
  · rw [hcur]
    exact (hrun.going he).2
  · rintro ops'' op rfl he
    obtain ⟨h1, h2, -⟩ := Ctx.heedful_append.mp hpre
    rw [Ctx.run, List.foldl_append] at he
    exact (Ctx.step_contained (Ctx.run_contained hstart hbad h1) hbad h2).2 he

-- ---------------------------------------------------------------------------
-- A torn chunk
-- ---------------------------------------------------------------------------

/-- Five bytes of data that are followed by another chunk, not by a CRLF. -/
def tornStream : List Byte := str "5\r\nhello3\r\nabc\r\n0\r\n\r\n"

def tornConn : Conn :=
  ⟨.init (fun _ => 0) 256 (fun _ _ => 0) [.deliver 0 tornStream],
    .init (fun _ => 0) pipeLead pipeCap pipeSlack, ⟨[], []⟩⟩

def tornRequest : Request :=
  { Request.parsed ⟨str "POST", str "/", 1, []⟩ with chunked := true }

def tornCtx : Ctx := Ctx.init tornConn tornRequest ⟨fun _ => 0, fun _ => 0, fun _ => 0⟩

/-- The decoder comes as far as the end of the first chunk's data. -/
theorem torn_decodes {d : List Byte} {c : Cursor} (h : Decodes ⟨tornStream, 0, false⟩ d c) :
    (d = [] ∧ c.left = 0 ∧ c.done = false) ∨
      (str "hello3\r\nabc\r\n0\r\n\r\n" = d ++ c.stream ∧ d.length + c.left = 5 ∧
        c.done = false) := by
  have hline : tornStream = str "5" ++ crlf ++ str "hello3\r\nabc\r\n0\r\n\r\n" := by decide
  have hno : ¬ crlf <:+: str "5" := by decide
  have hsize : sizeLine (str "5") = some 5 := by decide
  cases decodes_between h rfl rfl with
  | stay => exact .inl ⟨rfl, rfl, rfl⟩
  | chunk hs hno' hsize' hn hr =>
    obtain ⟨rfl, rfl⟩ := first_line hno' hno (hs.symm.trans hline)
    obtain rfl := Option.some.inj (hsize'.symm.trans hsize)
    cases decodes_inside hr hn rfl with
    | part hs' hlt =>
      dsimp only at hlt
      exact .inr ⟨hs', by dsimp only; omega, rfl⟩
    | @whole data rest x _ hs' hlen =>
      have hd : data = str "hello" := by
        have := congrArg (List.take 5) hs'
        rw [List.append_assoc, List.take_left' hlen] at this
        exact this.symm
      have := congrArg (fun s => (s.drop 5).take 2) hs'
      rw [hd] at this
      simp only [List.append_assoc] at this
      rw [List.drop_left' (by decide), List.take_left' (by decide)] at this
      exact absurd this (by decide)
  | last hs hno' hsize' =>
    obtain ⟨rfl, -⟩ := first_line hno' hno (hs.symm.trans hline)
    exact absurd (hsize'.symm.trans hsize) (by decide)

theorem torn_readable_le {d : List Byte} (h : Ctx.Readable ⟨tornStream, 0, false⟩ d) :
    d <+: str "hello" := by
  obtain ⟨d₁, c, x, hd, hp, hl, rfl⟩ := h
  rcases torn_decodes hd with ⟨rfl, h0, -⟩ | ⟨hs, hlen, -⟩
  · obtain rfl : x = [] := List.length_eq_zero_iff.mp (by omega)
    exact List.nil_prefix
  · have hpre : d₁ ++ x <+: str "hello3\r\nabc\r\n0\r\n\r\n" := by
      rw [hs]
      exact (List.prefix_append_right_inj d₁).mpr hp
    refine List.prefix_of_prefix_length_le hpre (by decide) ?_
    rw [List.length_append, show (str "hello").length = 5 from by decide]
    omega

theorem torn_malformed : ¬ WellFormed tornStream := by
  rintro ⟨b, rest, hs, hlen⟩
  have hle : b.encode.length ≤ sizeMax := by
    have := congrArg List.length hs
    rw [List.length_append, show tornStream.length = 21 from by decide] at this
    have : 21 ≤ sizeMax := by decide
    omega
  have hsteps : Decodes ⟨b.encode ++ rest, 0, false⟩ b.data ⟨rest, 0, true⟩ :=
    b.steps (fun c hc => (b.data_length_le hc).trans hle) hlen rest
  rw [← hs] at hsteps
  rcases torn_decodes hsteps with ⟨-, -, hd⟩ | ⟨-, -, hd⟩ <;> cases hd

theorem torn_stream : tornConn.feed.stream = tornStream := by decide

theorem torn_fresh : Ctx.Fresh tornConn.feed := ⟨Feed.init_ok _ _ _ _, rfl⟩

theorem malformed_held_back_torn : tornCtx.handed [.bodyReadUntil 5] = str "hello" ∧
    ∃ D, Ctx.Front ⟨tornConn.feed.stream, 0, false⟩ D ∧
      ∀ ops', ops' <+: [.bodyReadUntil 5] → HeldBack tornCtx D ops' := by
  refine ⟨by decide +kernel, malformed_held_back _ torn_fresh rfl ?_ ⟨fun _ => ?_, trivial⟩⟩
  · rw [torn_stream]
    exact torn_malformed
  · rintro ⟨d, c, hd, h0, -, -, hlt⟩
    rw [init_cursor _ _ rfl, torn_stream] at hd
    have hmin : min 5 intMax = 5 := by decide
    rcases torn_decodes hd with ⟨-, hz, -⟩ | ⟨-, hlen, -⟩ <;> omega

/-- A read of more than the torn chunk has: it comes back with the data of the
next one, and finds the body done. -/
theorem not_held_back_torn : Ctx.Fresh tornConn.feed ∧ tornRequest.chunked = true ∧
    ¬ WellFormed tornConn.feed.stream ∧
    Ctx.Front ⟨tornConn.feed.stream, 0, false⟩ (str "hello") ∧
    tornCtx.handed [.bodyReadUntil 4096] = str "helloabc" ∧
    (tornCtx.run [.bodyReadUntil 4096]).bodyDone = true ∧
    ¬ ∃ D, Ctx.Front ⟨tornConn.feed.stream, 0, false⟩ D ∧
      HeldBack tornCtx D [.bodyReadUntil 4096] := by
  have hdone : (tornCtx.run [.bodyReadUntil 4096]).bodyDone = true := by decide +kernel
  rw [torn_stream]
  refine ⟨torn_fresh, rfl, torn_malformed, ⟨?_, fun d => torn_readable_le⟩, by decide +kernel,
    hdone, ?_⟩
  · have hs : Decode ⟨str "5" ++ [] ++ crlf ++ str "hello3\r\nabc\r\n0\r\n\r\n", 0, false⟩ []
        ⟨str "hello3\r\nabc\r\n0\r\n\r\n", 5, false⟩ := by
      obtain ⟨size, ext, hline, hhex, hmax, hsuf⟩ :=
        sizeLine_eq_some.mp (show sizeLine (str "5") = some 5 from by decide)
      have hno : ¬ crlf <:+: size ++ ext := by rw [← hline]; decide
      rw [List.append_nil, hline]
      exact .size hhex (extension_of_suffix hsuf hno) (by decide) hmax
    exact ⟨[], _, str "hello", .single hs, by decide, by decide, rfl⟩
  · rintro ⟨D, -, h⟩
    have := h.undone
    rw [hdone] at this
    cases this

end Ioxd.Http
