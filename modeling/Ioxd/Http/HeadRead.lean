import Ioxd.Pipe.Full
import Ioxd.Pipe.Kept
import Ioxd.Http.DrainLaws
import Ioxd.Http.Resumed

/-!
# What `read_head` comes to

With the real parser, by what is at the start of the stream: a request head is
found, however its bytes come in; a 400 goes out for bytes that no head starts
with, and a 431 for bytes that hold no head and leave no room for more.
-/

namespace Ioxd.Pipe.Feed

open Reader (Level)

variable {f : Feed} {n : Nat}

/-- A failed read loses nothing either: what is gone from the bytes to come was
taken. -/
theorem more_taken (h : f.Ok) : f.more.2.taken ++ f.more.2.coming = f.taken ++ f.coming := by
  unfold more
  split
  · rfl
  obtain ⟨hq, hc, -⟩ := wait_spec h f.script
  replace hc : (wait f.script f).coming = f.coming := hc
  cases hrx : (wait f.script f).rx with
  | nil =>
    simp only [recvItem_nil hrx]
    rw [← hq.taken, ← hc]
    rfl
  | cons d rest =>
    simp only [recvItem_cons hrx]
    rw [← hq.taken, ← hc]
    simp only [coming, hrx, List.flatMap_cons, List.append_assoc]

theorem readLoop_taken (h : f.Ok) :
    (readLoop n f).2.taken ++ (readLoop n f).2.coming = f.taken ++ f.coming := by
  induction n generalizing f with
  | zero => rfl
  | succ n ih =>
    unfold readLoop
    split
    · rfl
    have ht := more_taken h
    have hm := more_outcome h
    generalize f.more = m at hm ht
    cases hm with
    | some hg => exact (ih hg.ok).trans ht
    | ended => exact ht
    | error => exact ht

/-- A read that fails had nothing to show: no byte that was not seen before. -/
theorem readLoop_stuck {e : PipeError} (h : f.Ok) (he : (readLoop n f).1 = .error e) :
    (readLoop n f).2.live.length ≤ f.view.examined := by
  induction n generalizing f with
  | zero => cases he
  | succ n ih =>
    unfold readLoop at he ⊢
    split at he
    · cases he
    rename_i hle
    rw [if_neg hle]
    have hm := more_outcome h
    generalize f.more = m at hm he
    cases hm with
    | @some t d hg =>
      have := ih hg.ok he
      rwa [hg.examined] at this
    | ended => cases he
    | error _ hv =>
      have hlive := congrArg View.live hv
      exact (congrArg List.length hlive).trans_le (Nat.le_of_not_lt hle)

/-- A read that finds the buffer full: a delivery behind the live bytes that
leaves no room. -/
theorem read_full (h : f.Ok) (hl : Level f.pr) (he : f.view.error = none)
    (hseen : f.view.examined ≤ f.live.length) (hr : f.read.1 = .error .full) :
    f.live.length = f.view.examined ∧ ∃ new, f.live ++ new <+: f.stream ∧
      f.view.cap < f.view.kept.length + f.live.length + new.length := by
  have hnone : f.pr.error = none := he
  unfold read at hr
  rw [hnone] at hr
  have hgrew {u : Feed} {d : List Byte} (hg : Grew f u d) : u.view.cap = f.view.cap := by
    rw [hg.view]
    rfl
  have hcap : (readLoop (f.left + 1) f).2.view.cap = f.view.cap := by
    have ho := readLoop_outcome h (Nat.lt_succ_self f.left)
    generalize readLoop (f.left + 1) f = r at ho hr
    cases ho with
    | some hg => exact hgrew hg
    | ended hg _ hv => exact (congrArg View.cap hv).trans (hgrew hg)
    | error hg _ hv => exact (congrArg View.cap hv).trans (hgrew hg)
  have hlen := readLoop_stuck h hr
  obtain ⟨grown, new, ht, hg, hk, hover⟩ := (readLoop_spec h hl).2 hr
  have htaken := @readLoop_taken f (f.left + 1) h
  rw [hg, List.length_append] at hlen
  obtain rfl : grown = [] := List.length_eq_zero_iff.mp (by omega)
  rw [List.append_nil] at hg
  rw [ht, List.append_nil, List.append_assoc, List.append_cancel_left_eq] at htaken
  refine ⟨by simp at hlen; omega, new, ⟨(readLoop (f.left + 1) f).2.coming, ?_⟩, ?_⟩
  · rw [List.append_assoc, htaken]
    rfl
  · rw [hcap, hk, hg] at hover
    exact hover

theorem keep_fits (hk : f.view.kept = []) (h0 : 0 < n) (hn : n ≤ f.live.length) :
    (f.keep n).1 ≠ .null := by
  have hrun : f.pr.runLen = 0 := by
    rw [← Reader.length_kept f.toReader]
    exact List.length_eq_zero_iff.mpr hk
  have hlen : n ≤ (Reader.liveSpan f.pr).len := by
    rw [← Reader.length_live f.toReader]
    exact hn
  show (f.toReader.keep n).1 ≠ .null
  unfold Reader.keep
  simp only
  rw [if_neg (by omega), if_neg (by omega)]
  split
  · simp [Reader.keepInBuf]
  rename_i hb
  have hc : f.pr.hasCur = true := by
    by_contra hc
    simp [Reader.liveSpan, hb, hc] at hlen
    omega
  split
  · simp [Reader.keepInPlace]
  · rename_i hplace
    exact absurd ⟨hc, .inl hrun⟩ hplace

end Ioxd.Pipe.Feed

namespace Ioxd.Http

open Ioxd.Pipe
open Flat
open Phr (RequestHead)
open Reader (Level Single)

/-- A reader at the start of a request: as it is at first, and after a release. -/
structure AtStart (f : Feed) : Prop where
  fresh : Ctx.Fresh f
  kept : f.view.kept = []
  level : Level f.pr

inductive HeadReadOutcome (conn : Conn) : Option ParsedHead × Conn → Prop
  | found {feed : Feed} {head : List Byte} {found : ParsedHead} :
      RequestHead maxHeaders head found → conn.feed.stream = head ++ feed.stream → Ctx.Fresh feed →
      HeadReadOutcome conn (some found, { conn with feed := feed })
  | malformed {feed : Feed} : (∀ more, NoHead (conn.feed.stream ++ more)) →
      HeadReadOutcome conn (none, sendStatus { conn with feed := feed } 400)
  | tooLarge {feed : Feed} {live new : List Byte} : live ++ new <+: conn.feed.stream → NoHead live →
      conn.feed.view.cap < live.length + new.length →
      HeadReadOutcome conn (none, sendStatus { conn with feed := feed } 431)
  | ended {feed : Feed} : (conn.feed.Lasting → NoHead conn.feed.stream) →
      HeadReadOutcome conn (none, { conn with feed := feed })

variable {sse : Bool}

theorem HeadReadOutcome.later {conn : Conn} {f : Feed} {r : Option ParsedHead × Conn}
    (h : HeadReadOutcome { conn with feed := f } r) (hs : conn.feed.stream = f.stream)
    (hcap : f.view.cap = conn.feed.view.cap) (hl : conn.feed.Lasting → f.Lasting) :
    HeadReadOutcome conn r := by
  cases h with
  | found hh hst hf => exact .found hh (hs.trans hst) hf
  | malformed hno => exact .malformed fun more => hs ▸ hno more
  | tooLarge hp hno hc => exact .tooLarge (hs ▸ hp) hno (hcap ▸ hc)
  | ended hno => exact .ended fun hlast => hs ▸ hno (hl hlast)

theorem noHead_of_seen {p : List Byte} (h : (phrParseRequest sse).Seen p) : NoHead p := by
  rintro head rest found rfl hh
  exact h.not_head found rest (Phr.parseRequest_ok.mpr ⟨head, hh, rfl⟩)

/-- The live bytes that the parser has seen, when it has seen them all. -/
theorem noHead_of_live {p live : List Byte} (h : (phrParseRequest sse).Seen p)
    (hp : p = [] ∨ p = live) (hle : live.length ≤ p.length) : NoHead live := by
  rcases hp with rfl | rfl
  · rw [List.length_eq_zero_iff.mp (Nat.le_zero.mp hle)]
    exact noHead_of_seen h
  · exact noHead_of_seen h

theorem noHead_of_ended {f t u : Feed} {p d : List Byte} (h : (phrParseRequest sse).Seen p)
    (hp : p = [] ∨ p = f.live) (hex : f.view.examined = p.length) (hg : Feed.Grew f u d)
    (hv : t.view = { u.view with eof := true }) (hc : t.coming = u.coming)
    (hx : t.live.length ≤ t.view.examined) (hend : t.coming = []) : NoHead f.stream := by
  have hlive : t.live = f.live ++ d := (congrArg View.live hv).trans hg.live
  have hx' : t.view.examined = p.length := (congrArg View.examined hv).trans (hg.examined.trans hex)
  have hle : p.length ≤ f.live.length := by
    rcases hp with rfl | rfl
    · exact Nat.zero_le _
    · exact Nat.le_refl _
  have hs : f.stream = t.live := by
    have hu : f.stream = u.stream := by simpa using hg.moved.stream
    rw [hu, Feed.stream, ← hc, hend, List.append_nil]
    exact (congrArg View.live hv).symm
  rw [hx', hlive, List.length_append] at hx
  obtain rfl : d = [] := List.length_eq_zero_iff.mp (by omega)
  rw [hs, hlive, List.append_nil]
  exact noHead_of_live h hp (by simpa using hx)

theorem found_of_head {conn : Conn} {t : Feed} {d w r : List Byte} {found : ParsedHead}
    (hg : Feed.Grew conn.feed t d) (hk : conn.feed.view.kept = [])
    (hx : conn.feed.view.examined ≤ w.length) (hw : t.live = w ++ r)
    (hhead : RequestHead maxHeaders w found) : HeadReadOutcome conn (match t.keep w.length with
      | (.null, feed) => (none, sendStatus { conn with feed := feed } 431)
      | (_, feed) => (some found, { conn with feed := feed.runBegin })) := by
  have hlen : w.length ≤ t.live.length := by
    rw [hw, List.length_append]
    omega
  have hs : conn.feed.stream = t.stream := by simpa using hg.moved.stream
  have hko := Feed.keep_outcome hg.ok hhead.length_pos hlen
  have hne := Feed.keep_fits ((congrArg View.kept hg.view).trans hk) hhead.length_pos hlen
  generalize t.keep w.length = r at hko hne
  cases hko with
  | full => exact absurd rfl hne
  | @kept ptr u _ hst hb =>
    obtain ⟨hfresh, hstream⟩ := runBegin_fresh hst (hg.examined.trans_le hx) hlen
    have hfound : HeadReadOutcome conn (some found, { conn with feed := u.runBegin }) := by
      refine .found hhead ?_ hfresh
      rw [hs, hstream, hw, List.take_left]
    cases ptr with
    | null => exact absurd rfl hne
    | buf off => exact hfound
    | kernel i off => exact hfound

/-- What the parser has seen of the live bytes is nothing, or what was live
before. -/
theorem readHeadLoop_exact {turns : Nat} {conn : Conn} {p : List Byte} (h : conn.feed.Ok)
    (he : conn.feed.view.error = none) (hk : conn.feed.view.kept = [])
    (hlevel : Level conn.feed.pr) (ha : conn.feed.view.examined = p.length)
    (hseen : (phrParseRequest sse).Seen p) (hp : p = [] ∨ p = conn.feed.live)
    (hn : conn.feed.left + (if conn.feed.live.length = p.length then 1 else 2) ≤ turns) :
    HeadReadOutcome conn (readHeadLoop (phrParseRequest sse) turns p.length conn) := by
  induction turns generalizing conn p with
  | zero => split at hn <;> omega
  | succ turns ih =>
    have hle : p.length ≤ conn.feed.live.length := by
      rcases hp with rfl | rfl
      · exact Nat.zero_le _
      · exact Nat.le_refl _
    have ho := Feed.read_outcome h
    have hfull := Feed.read_full h hlevel he (ha ▸ hle)
    have hlevel' : Level conn.feed.read.2.pr := by
      unfold Feed.read
      rw [show conn.feed.pr.error = none from he]
      exact (Feed.readLoop_spec h hlevel).1
    unfold readHeadLoop
    generalize conn.feed.read = r at ho hfull hlevel'
    cases ho with
    | ended hg _ hv _ hc hx hl =>
      exact .ended fun hlast => noHead_of_ended hseen hp ha hg hv hc hx (hl hlast)
    | @error t u d e b hg hok hv hl =>
      cases e with
      | gone => exact .ended fun hlast => absurd (hl hlast he) (by simp)
      | full =>
        obtain ⟨hlen, new, hpre, hover⟩ := hfull rfl
        refine .tooLarge hpre ?_ (by rw [hk] at hover; simpa using hover)
        exact noHead_of_live hseen hp (hlen.trans ha).le
    | @some t d hg hx =>
      have hs : conn.feed.stream = t.stream := by simpa using hg.moved.stream
      have hex : t.view.examined = p.length := hg.examined.trans ha
      obtain ⟨q, hq⟩ : ∃ q, t.live = p ++ q := by
        rcases hp with rfl | rfl
        · exact ⟨t.live, rfl⟩
        · exact ⟨d, hg.live⟩
      dsimp only
      cases hparse : phrParseRequest sse t.live p.length with
      | bad =>
        refine .malformed fun more => ?_
        rw [hq] at hparse
        rw [hs, Feed.stream, hq, List.append_assoc _ t.coming]
        exact phrParseRequest_bad hseen hparse _
      | head len found =>
        obtain ⟨w, r, hw, rfl, hhead⟩ := phrParseRequest_sound hparse
        have hbehind : p.length ≤ w.length := by
          rcases hseen with rfl | hpartial
          · exact Nat.zero_le _
          · rw [hq] at hparse
            exact Nat.le_of_lt (phrParseRequest_ok.more hpartial hparse)
        exact found_of_head hg hk (ha ▸ hbehind) hw hhead
      | partly =>
        dsimp only
        have hpart : (phrParseRequest sse).Partial t.live := by
          rcases hseen with rfl | hpartial
          · exact .first hparse
          · rw [hq] at hparse ⊢
            exact .more hpartial hparse
        have hst := Feed.examine_stays hg.ok t.live.length
        have hlive : (t.examine t.live.length).live = t.live := hst.live
        have hmoved := hg.moved.trans (Feed.examine_moved hg.ok t.live.length)
        refine .later (f := t.examine t.live.length) (ih (p := t.live) hst.ok
          (hmoved.error.trans he) ?_ hlevel' ?_ (.inr hpart) (.inr hlive.symm) ?_)
          (by simpa using hmoved.stream) hmoved.cap hmoved.lasting
        · exact hmoved.kept.trans (by rw [hk]; rfl)
        · show (t.examine t.live.length).view.examined = t.live.length
          rw [hst.view]
        · show (t.examine t.live.length).left + (if _ = _ then _ else _) ≤ turns
          rw [if_pos (by rw [hlive])]
          exact hg.turns (hex ▸ hx) hn

theorem readHead_exact {conn : Conn} (h : AtStart conn.feed)
    (he : conn.feed.view.error = none) :
    HeadReadOutcome conn (readHead (phrParseRequest sse) conn) := by
  refine readHeadLoop_exact (p := []) h.fresh.ok he h.kept h.level h.fresh.none (.inl rfl)
    (.inl rfl) ?_
  split <;> omega

theorem init_atStart (buf : Mem Byte) (cap : Nat) (slab : Nat → Mem Byte) (script : List Event) :
    AtStart (Feed.init buf cap slab script) :=
  ⟨init_fresh buf cap slab script,
    Reader.kept_nil (s := (Feed.init buf cap slab script).toReader) rfl, rfl⟩

theorem init_single (buf : Mem Byte) (cap : Nat) (slab : Nat → Mem Byte) (script : List Event) :
    Single false (Feed.init buf cap slab script).pr :=
  fun _ hp => absurd hp (by simp [Feed.init, Pipereader.init])

/-- A head is found if and only if there is one at the start of the stream: if
the reader holds as much, it does not matter how the bytes come in. -/
theorem readHead_iff {conn : Conn} (h : AtStart conn.feed) (hl : conn.feed.Lasting)
    (he : conn.feed.view.error = none) (hroom : conn.feed.stream.length ≤ conn.feed.view.cap)
    {found : ParsedHead} {rest : List Byte} :
    (∃ feed : Feed, feed.stream = rest ∧
        readHead (phrParseRequest sse) conn = (some found, { conn with feed := feed })) ↔
      ∃ head, RequestHead maxHeaders head found ∧ conn.feed.stream = head ++ rest := by
  have ho := @readHead_exact sse conn h he
  constructor
  · rintro ⟨feed, rfl, hr⟩
    generalize readHead (phrParseRequest sse) conn = r at ho hr
    cases ho with
    | @found feed' head found' hhead hstream =>
      simp only [Prod.mk.injEq, Option.some.injEq, Conn.mk.injEq, and_true] at hr
      obtain ⟨rfl, rfl⟩ := hr
      exact ⟨head, hhead, hstream⟩
    | _ => simp at hr
  · rintro ⟨head, hhead, hstream⟩
    have hno : ∀ {s more : List Byte}, NoHead s → head ++ more ≠ s := fun h hs =>
      h head _ found hs.symm hhead
    generalize readHead (phrParseRequest sse) conn = r at ho
    cases ho with
    | @found feed' head' found' hhead' hstream' =>
      obtain ⟨rfl, rfl⟩ := hhead.unique hhead' (hstream.symm.trans hstream')
      exact ⟨feed', List.append_cancel_left (hstream'.symm.trans hstream), rfl⟩
    | malformed hbad =>
      have := hbad []
      rw [List.append_nil, hstream] at this
      exact absurd rfl (hno this)
    | tooLarge hpre _ hover =>
      have := hpre.length_le
      rw [List.length_append] at this
      omega
    | ended hend =>
      have := hend hl
      rw [hstream] at this
      exact absurd rfl (hno this)

/-- A head in two deliveries. -/
def twoPieces : Conn :=
  ⟨.init blank 32 (fun _ => blank) [.deliver 0 (str "GET / HT"), .deliver 1 (str "TP/1.0\n\n")],
    .init blank pipeLead pipeCap pipeSlack, ⟨[], []⟩⟩

theorem readHead_twoPieces : ∃ feed : Feed, feed.stream = [] ∧
    readHead (phrParseRequest false) twoPieces =
      (some ⟨str "GET", str "/", 0, []⟩, { twoPieces with feed := feed }) :=
  have hlast : twoPieces.feed.Lasting := ⟨by decide, by decide, trivial⟩
  (readHead_iff (init_atStart ..) hlast rfl (by decide)).mpr ⟨str "GET / HTTP/1.0\n\n",
    @Phr.requestHead_of_parse false _ _ _ (by decide +kernel), by decide⟩

-- ---------------------------------------------------------------------------
-- What a turn leaves of the reader
-- ---------------------------------------------------------------------------

namespace Ctx

variable {ctx ctx' ctx'' : Ctx}

def Spared (ctx ctx' : Ctx) : Prop :=
  ctx'.bodyErr = 0 → ctx.bodyErr = 0 ∧ ctx'.feed.pr.error = ctx.feed.pr.error

theorem Spared.refl (ctx : Ctx) : Spared ctx ctx := fun he => ⟨he, rfl⟩

theorem Spared.trans (h : Spared ctx ctx') (h' : Spared ctx' ctx'') : Spared ctx ctx'' :=
  fun he =>
    have h2 := h' he
    have h1 := h h2.1
    ⟨h1.1, h2.2.trans h1.2⟩

theorem Deaf.spared (h : Deaf ctx ctx') : Spared ctx ctx' :=
  fun he => ⟨(h.err he).1, h.reader he⟩

theorem Mute.spared (h : Mute ctx ctx') : Spared ctx ctx' := fun he =>
  ⟨h.fields.2.2.2.2.2.1.symm.trans he, by rw [h.fields.1]⟩

theorem bodyBegin_spared (ctx : Ctx) : Spared ctx ctx.bodyBegin.2 := by
  rcases bodyBegin_cases ctx with ⟨c, hb, hm⟩ | ⟨c, hb, hm⟩
  · rw [hb]
    exact hm.spared
  · rw [hb]
    exact fun he => absurd he (by simp)

theorem allFixed_spared (ctx : Ctx) : Spared ctx ctx.allFixed.2 := by
  unfold allFixed
  split
  · exact (bodyFail_deaf ctx (by decide)).spared
  split
  · exact fun he => ⟨he, rfl⟩
  have hs := scan_deaf (enough ctx.req.contentLength) (ctx.feed.left + 2) ctx
  generalize scan (enough ctx.req.contentLength) (ctx.feed.left + 2) ctx = r at hs
  obtain ⟨found, c⟩ := r
  cases found with
  | none => exact hs.spared
  | some _ =>
    have hk := @Feed.keep_error c.feed c.req.contentLength
    dsimp only
    split
    · exact (hs.trans (deaf_full c _ (by decide))).spared
    · rename_i feed hne hk'
      rw [hk'] at hk
      exact hs.spared.trans fun he => ⟨he, hk fun hnull => hne hnull⟩

theorem bodyAll_spared (ctx : Ctx) : Spared ctx ctx.bodyAll.2 := by
  have hbegun : Spared ctx (if ctx.bodyDone then (true, ctx) else ctx.bodyBegin).2 := by
    split
    · exact .refl ctx
    · exact bodyBegin_spared ctx
  unfold bodyAll
  split
  · exact .refl ctx
  split
  · exact .refl ctx
  generalize (if ctx.bodyDone then (true, ctx) else ctx.bodyBegin) = r at hbegun
  obtain ⟨ok, c⟩ := r
  cases ok with
  | false => exact hbegun
  | true =>
    refine hbegun.trans ?_
    dsimp only
    split
    · have hd := allChunksLoop_deaf (c.feed.stream.length + 2) c
      unfold allChunked
      generalize allChunksLoop (c.feed.stream.length + 2) c = r at hd
      obtain ⟨ok, d⟩ := r
      cases ok with
      | false => exact hd.spared
      | true => exact hd.spared.trans fun he => ⟨he, rfl⟩
    · exact allFixed_spared c

theorem bodyReadUntil_spared (ctx : Ctx) (n : Nat) : Spared ctx (ctx.bodyReadUntil n).2.2 := by
  have hb := bodyBegin_spared ctx
  unfold bodyReadUntil
  split
  · exact .refl ctx
  split
  · exact .refl ctx
  generalize ctx.bodyBegin = r at hb
  obtain ⟨ok, c⟩ := r
  cases ok with
  | false => exact hb
  | true => exact hb.trans (readUntilLoop_deaf _ c _ _).spared

theorem restOfChunk_spared (ctx : Ctx) (cap : Nat) : Spared ctx (ctx.restOfChunk cap).2.2 := by
  unfold restOfChunk
  split
  · exact (bodyFail_deaf ctx (by decide)).spared
  · exact (nextChunkLoop_deaf _ ctx _ _).spared

theorem bodyReadNextChunk_spared (ctx : Ctx) (cap : Nat) :
    Spared ctx (ctx.bodyReadNextChunk cap).2.2 := by
  have hb := bodyBegin_spared ctx
  unfold bodyReadNextChunk
  split
  · exact .refl ctx
  split
  · exact .refl ctx
  generalize ctx.bodyBegin = r at hb
  obtain ⟨ok, c⟩ := r
  cases ok with
  | false => exact hb
  | true =>
    refine hb.trans ?_
    dsimp only
    split
    · have hh := chunkHeader_deaf c
      generalize c.chunkHeader = r at hh
      obtain ⟨ok, d⟩ := r
      cases ok with
      | false => exact hh.spared
      | true =>
        dsimp only
        split
        · exact hh.spared
        · exact hh.spared.trans (restOfChunk_spared d cap)
    · exact restOfChunk_spared c cap

theorem step_spared (ctx : Ctx) (op : HandlerOp) : Spared ctx (ctx.step op) := by
  cases op with
  | head op => exact (headOp_mute ctx op).spared
  | write data => exact (write_mute ctx data).spared
  | reserve n data fits => exact (reserveOp_mute ctx n data).spared
  | flush => exact (flushWith_mute ctx .asked []).spared
  | onHead fn => exact (setOnHead_mute ctx fn).spared
  | bodyAll => exact bodyAll_spared ctx
  | bodyReadUntil n => exact bodyReadUntil_spared ctx n
  | bodyReadNextChunk cap => exact bodyReadNextChunk_spared ctx cap
  | tick =>
    refine fun he => ⟨he, congrArg Pipereader.error ?_⟩
    show ctx.feed.tick.pr = ctx.feed.pr
    unfold Feed.tick
    split
    · rfl
    · exact Feed.event_pr ..

theorem run_spared (ctx : Ctx) (ops : List HandlerOp) : Spared ctx (ctx.run ops) := by
  induction ops generalizing ctx with
  | nil => exact .refl ctx
  | cons op ops ih => exact (step_spared ctx op).trans (ih (ctx.step op))

/-- A reader behind which the connection goes on has met no error. -/
theorem afterDispatch_spared (h : ctx.afterDispatch.1 = true) :
    ctx.bodyErr = 0 ∧ ctx.afterDispatch.2.feed.pr.error = ctx.feed.pr.error := by
  have hs := (settleBody_deaf ctx).spared
  unfold afterDispatch at h ⊢
  split at h
  · cases h
  rename_i he
  rw [if_neg he]
  dsimp only at h ⊢
  split at h
  · cases h
  rename_i he'
  rw [if_neg he']
  exact (hs.trans (finish_mute ctx.settleBody).spared)
    ((finish_mute ctx.settleBody).fields.2.2.2.2.2.1.trans (not_not.mp he'))

end Ctx

theorem readHeadLoop_error {parse : Parser} {turns already : Nat} {conn conn' : Conn}
    {found : ParsedHead} (h : conn.feed.Ok) (hs : Single false conn.feed.pr)
    (hr : readHeadLoop parse turns already conn = (some found, conn')) :
    conn'.feed.pr.error = conn.feed.pr.error := by
  induction turns generalizing conn already with
  | zero => cases hr
  | succ turns ih =>
    have ho := Feed.read_outcome h
    have he := @Feed.read_error conn.feed
    have hg := (Feed.read_guards h hs).single
    unfold readHeadLoop at hr
    generalize conn.feed.read = r at ho he hg hr
    cases ho with
    | ended => cases hr
    | @error t u d e b => cases e <;> cases hr
    | @some t d hgrew =>
      replace he : t.pr.error = conn.feed.pr.error := he rfl
      dsimp only at hr
      cases hp : parse t.live already with
      | bad => simp [hp] at hr
      | head len found' =>
        have hk := @Feed.keep_error t len
        have hks := (Reader.keep_guards hgrew.ok.reader hgrew.ok.distinct hg len).1.single
        rw [hp] at hr
        dsimp only at hr
        split at hr
        · cases hr
        · rename_i feed hne hk'
          rw [hk'] at hk
          replace hks : Single false feed.pr := by
            have : (t.keep len).2.pr = feed.pr := by rw [hk']
            rw [← this]
            exact hks
          cases hr
          exact (Reader.runBegin_error hks).trans ((hk fun hnull => hne hnull).trans he)
      | partly =>
        rw [hp] at hr
        exact (ih (Feed.examine_stays hgrew.ok t.live.length).ok
          (Reader.examine_guards hg t.live.length).single hr).trans he

-- ---------------------------------------------------------------------------
-- The connection
-- ---------------------------------------------------------------------------

theorem release_runLen (s : Reader) : (Reader.release s).pr.runLen = 0 := by
  unfold Reader.release
  simp only
  rw [(Reader.curDone_run _).2.2]
  unfold Reader.bufringReturn
  grind

theorem release_atStart {f : Feed} (h : Ctx.Fresh f.release) : AtStart f.release :=
  ⟨h, Reader.kept_nil (release_runLen _), Reader.release_level _⟩

theorem release_error (s : Reader) : (Reader.release s).pr.error = s.pr.error := by
  unfold Reader.release
  simp only
  rw [Reader.curDone_error]
  unfold Reader.bufringReturn
  grind

theorem serveTurn_release {parse : Parser} {scratch : Scratch} {ops : List HandlerOp} {conn : Conn}
    {ctx : Ctx} (h : serveTurn parse scratch ops conn = .served true ctx) :
    ∃ f : Feed, ctx.feed = f.release := by
  unfold serveTurn at h
  split at h
  · cases h
  dsimp only at h
  split at h
  · cases h
  · simp only [Turn.served.injEq] at h
    obtain ⟨hok, rfl⟩ := h
    rw [hok, if_pos rfl]
    exact ⟨_, rfl⟩

/-- A turn behind which the connection goes on has met no error. -/
theorem serveTurn_error {parse : Parser} {scratch : Scratch} {ops : List HandlerOp} {conn : Conn}
    {ctx : Ctx} (h : conn.feed.Ok) (hs : Single false conn.feed.pr)
    (ht : serveTurn parse scratch ops conn = .served true ctx) :
    ctx.feed.pr.error = conn.feed.pr.error := by
  unfold serveTurn at ht
  cases hr : readHead parse conn with
  | mk found conn' =>
  rw [hr] at ht
  cases found with
  | none => cases ht
  | some found =>
    have hhead := readHeadLoop_error h hs hr
    dsimp only at ht
    generalize fillRequest (.parsed found) scratch.params paramCap = r at ht
    obtain ⟨code, req, mem⟩ := r
    dsimp only at ht
    split at ht
    · cases ht
    have hrun := Ctx.run_spared (Ctx.init conn' req scratch) ops
    have hend := @Ctx.afterDispatch_spared ((Ctx.init conn' req scratch).run ops)
    generalize ((Ctx.init conn' req scratch).run ops).afterDispatch = r at ht hend
    obtain ⟨ok, c⟩ := r
    simp only [Turn.served.injEq] at ht
    obtain ⟨rfl, rfl⟩ := ht
    obtain ⟨hno, herr⟩ := hend rfl
    exact (release_error _).trans (herr.trans ((hrun hno).2.trans hhead))

/-- What is at the start of a stream, by how its turn ended. -/
inductive TurnOutcome (scratch : Scratch) (conn : Conn) : Turn → Prop
  | ended {conn' : Conn} : HeadReadOutcome conn (none, conn') →
      TurnOutcome scratch conn (.ended conn')
  | refused {head rest : List Byte} {found : ParsedHead} {code : Nat} {req : Request}
      {mem : Mem Byte} {feed : Feed} : RequestHead maxHeaders head found →
      conn.feed.stream = head ++ rest →
      fillRequest (.parsed found) scratch.params paramCap = (code, req, mem) → code ≠ 0 →
      TurnOutcome scratch conn (.refused (sendStatus { conn with feed := feed } code))
  | served {head rest : List Byte} {found : ParsedHead} {req : Request} {mem : Mem Byte}
      {goesOn : Bool} {ctx : Ctx} : RequestHead maxHeaders head found →
      conn.feed.stream = head ++ rest →
      fillRequest (.parsed found) scratch.params paramCap = (0, req, mem) →
      (goesOn = true → ∃ body, rest = body ++ ctx.feed.stream ∧ Ctx.Framed req.bodyLength body) →
      TurnOutcome scratch conn (.served goesOn ctx)

/-- The turns of a connection whose stream is this: each starts where the body
of the request before ended. -/
inductive Turns (scratch : Scratch) : List Byte → List (Conn × Turn) → Prop
  | none {s : List Byte} : Turns scratch s []
  | last {conn : Conn} {turn : Turn} : TurnOutcome scratch conn turn →
      Turns scratch conn.feed.stream [(conn, turn)]
  | next {conn : Conn} {ctx : Ctx} {turns : List (Conn × Turn)} :
      TurnOutcome scratch conn (.served true ctx) → Turns scratch ctx.feed.stream turns →
      Turns scratch conn.feed.stream ((conn, .served true ctx) :: turns)

theorem serveTurn_exact {scratch : Scratch} {ops : List HandlerOp} {conn : Conn}
    (h : AtStart conn.feed) (he : conn.feed.view.error = none) :
    TurnOutcome scratch conn (serveTurn (phrParseRequest sse) scratch ops conn) := by
  have hb := @serveTurn_bounded _ (@phrParseRequest_ok sse) scratch ops conn h.fresh
  have ho := @readHead_exact sse conn h he
  unfold serveTurn at hb ⊢
  generalize readHead (phrParseRequest sse) conn = r at ho hb
  obtain ⟨found, conn'⟩ := r
  cases found with
  | none => exact .ended ho
  | some found =>
    cases ho with
    | @found feed head _ hhead hstream hfresh =>
      dsimp only at hb ⊢
      generalize hfill : fillRequest (.parsed found) scratch.params paramCap = r at hb
      obtain ⟨code, req, mem⟩ := r
      dsimp only at hb ⊢
      split
      · exact .refused hhead hstream hfill ‹_›
      rename_i hcode
      rw [not_not] at hcode
      subst hcode
      rw [if_neg (by simp)] at hb
      generalize ((Ctx.init _ req scratch).run ops).afterDispatch = r at hb
      obtain ⟨ok, ctx⟩ := r
      refine .served hhead hstream hfill fun hok => ?_
      subst hok
      obtain ⟨⟨head', body, found', req', mem', hs, hheads, hfill', hframed⟩, -, -⟩ := hb rfl
      obtain ⟨live, already, -, hparse, hpre⟩ := hheads.parsed
      obtain ⟨w, r, rfl, hw, hh'⟩ := phrParseRequest_sound hparse
      -- the head at the start of the stream is one
      obtain rfl : w = head' := by
        have := List.prefix_iff_eq_take.mp hpre
        rw [this, ← hw, List.take_left]
      rw [List.append_assoc] at hs
      obtain ⟨rfl, rfl⟩ := hhead.unique hh' (hstream.symm.trans hs)
      rw [hfill] at hfill'
      cases hfill'
      refine ⟨body, ?_, hframed⟩
      rw [hstream] at hs
      exact List.append_cancel_left hs

theorem serve_turns {scratch : Scratch} (handlers : List (List HandlerOp)) {conn : Conn}
    (h : AtStart conn.feed) (he : conn.feed.view.error = none) (hs : Single false conn.feed.pr) :
    Turns scratch conn.feed.stream (serve (phrParseRequest sse) scratch handlers conn) := by
  induction handlers generalizing conn with
  | nil => exact .none
  | cons ops rest ih =>
    have ht := @serveTurn_exact sse scratch ops conn h he
    unfold serve
    cases hturn : serveTurn (phrParseRequest sse) scratch ops conn with
    | ended c => exact .last (hturn ▸ ht)
    | refused c => exact .last (hturn ▸ ht)
    | served ok ctx =>
      cases ok with
      | false => exact .last (hturn ▸ ht)
      | true =>
        obtain ⟨f, hf⟩ := serveTurn_release hturn
        have hfresh := (serveTurn_bounded phrParseRequest_ok h.fresh hturn).fresh
        rw [hf] at hfresh
        refine .next (hturn ▸ ht) (@ih ⟨ctx.feed, ctx.out, ctx.sock⟩ ?_ ?_ ?_)
        · show AtStart ctx.feed
          rw [hf]
          exact release_atStart hfresh
        · exact (serveTurn_error h.fresh.ok hs hturn).trans he
        · show Single false ctx.feed.pr
          rw [hf]
          exact Reader.release_single f.toReader

/-- The bytes a peer sends are the requests that are served, each with its body
and in order, however they come in and whatever the handlers do. -/
theorem serve_exact (scratch : Scratch) (handlers : List (List HandlerOp)) (buf : Mem Byte)
    (cap : Nat) (slab : Nat → Mem Byte) (script : List Event) (out : Pipewriter) (sock : Socket) :
    Turns scratch (Feed.arrivals script)
      (serve (phrParseRequest sse) scratch handlers ⟨.init buf cap slab script, out, sock⟩) :=
  @serve_turns sse scratch handlers ⟨.init buf cap slab script, out, sock⟩
    (init_atStart buf cap slab script) rfl (init_single buf cap slab script)

end Ioxd.Http
