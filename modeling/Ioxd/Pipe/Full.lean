import Ioxd.Pipe.Fidelity
import Ioxd.Lib.Runs

/-!
# When the pipe is full

`IOXD_PIPE_FULL` is for kept and live bytes that exceed the gathering buffer.
The bytes in front of `floor` are counted for kept ones, and they are, as long
as a run that begins among the gathered bytes begins at the first of them: a
`keep` behind bytes that were dropped there takes these along.
-/

namespace Ioxd.Pipe

open Flat

namespace Reader

variable {s : Reader}

/-- What lies in front of `floor` is the run, or nothing while the run is in the
current buffer. -/
def Level (pr : Pipereader) : Prop := pr.floor = if pr.runInCur then 0 else pr.runLen

theorem length_kept (s : Reader) : s.kept.length = s.pr.runLen := by
  unfold kept run bytes
  grind [length_read]

theorem curDone_run (s : Reader) : (curDone s).pr.floor = s.pr.floor ∧
    (curDone s).pr.runInCur = s.pr.runInCur ∧ (curDone s).pr.runLen = s.pr.runLen := by
  unfold curDone bufringReturn
  grind

theorem curDone_level (h : Level s.pr) : Level (curDone s).pr := by
  obtain ⟨h1, h2, h3⟩ := curDone_run s
  unfold Level
  rw [h1, h2, h3]
  exact h

theorem consume_level (h : Level s.pr) (n : Nat) : Level (consume s n).pr := by
  have hc := @curDone_level
    { s with pr := { s.pr with curPos := s.pr.curPos + min n (liveSpan s.pr).len } } h
  unfold consume
  unfold Level at *
  grind

theorem compact_run (s : Reader) : (compact s).pr.floor = s.pr.floor ∧
    (compact s).pr.runInCur = s.pr.runInCur ∧ (compact s).pr.runLen = s.pr.runLen := by
  unfold compact
  split <;> exact ⟨rfl, rfl, rfl⟩

theorem gatherRun_run (s : Reader) (n : Nat) : (gatherRun s n).pr.floor = s.pr.floor + n ∧
    (gatherRun s n).pr.runLen = s.pr.runLen := by
  unfold gatherRun
  grind

theorem gatherLive_run (s : Reader) (n : Nat) : (gatherLive s n).pr.floor = s.pr.floor ∧
    (gatherLive s n).pr.runInCur = false ∧ (gatherLive s n).pr.runLen = s.pr.runLen := by
  unfold gatherLive
  simp only
  split
  · exact curDone_run _
  · exact ⟨rfl, rfl, rfl⟩

theorem gather_level (h : Level s.pr) (hg : (gather s).1 = true) :
    Level (gather s).2.pr ∧ (gather s).2.pr.runLen = s.pr.runLen := by
  unfold gather at hg ⊢
  generalize hrun : (if s.pr.runInCur then s.pr.runLen else 0) = run at hg ⊢
  generalize (if s.pr.hasCur then s.pr.cur.len - s.pr.curPos else 0) = live at hg ⊢
  by_cases hfit : s.pr.floor + run + live > s.pr.cap
  · simp [hfit] at hg
  · obtain ⟨h1, h2⟩ := gatherRun_run s run
    obtain ⟨h3, h4, h5⟩ := gatherLive_run (gatherRun s run) live
    simp only [if_neg hfit]
    refine ⟨?_, h5.trans h2⟩
    unfold Level at *
    rw [h3, h4, h5, h1, h2, h, ← hrun]
    split <;> simp

theorem gather_full (h : Level s.pr) (hb : s.pr.liveInBuf = false) (hg : (gather s).1 = false) :
    s.pr.cap < s.kept.length + s.live.length := by
  unfold gather at hg
  rw [length_kept, length_live]
  unfold Level at h
  unfold liveSpan
  grind

theorem appendItem_full {item : RxItem} (h : s.pr.Ok) (hl : Level s.pr)
    (hb : s.pr.liveInBuf = true) (hf : (appendItem s item).1 = false) :
    s.pr.cap < s.kept.length + s.live.length + item.len := by
  have hin := h.inBuf hb
  have hcur : s.pr.runInCur = false := by
    have h1 := h.inCur hb
    have h2 := h.runCur
    grind
  have hfloor : s.pr.floor = s.pr.runLen := by
    unfold Level at hl
    rwa [hcur] at hl
  rw [length_kept, length_live]
  unfold appendItem compact at hf
  unfold liveSpan
  grind

theorem appendItem_level {item : RxItem} (h : Level s.pr) : Level (appendItem s item).2.pr := by
  obtain ⟨h1, h2, h3⟩ := compact_run s
  unfold Level at *
  unfold appendItem refuse bufringReturn
  grind

theorem moreItem_level {item : RxItem} (h : Level s.pr) : Level (moreItem s item).2.pr := by
  unfold moreItem
  split
  · exact h
  split
  · exact appendItem_level h
  · cases hg : (gather s).1 with
    | true =>
      simp only [hg, if_true]
      exact appendItem_level (gather_level h hg).1
    | false =>
      have hs : (gather s).2 = s := by
        unfold gather at hg ⊢
        grind
      simp only [hg, Bool.false_eq_true, if_false, hs]
      exact h

/-- A delivered buffer is refused only if the bytes are too many. -/
theorem moreItem_full {item : RxItem} (h : s.pr.Ok) (hl : Level s.pr)
    (hf : (moreItem s item).1 = false) : s.pr.cap < s.kept.length + s.live.length + item.len := by
  unfold moreItem at hf
  split at hf
  · cases hf
  rename_i hsome
  split at hf
  · exact appendItem_full h hl ‹_› hf
  · rename_i hb
    replace hb : s.pr.liveInBuf = false := by simpa using hb
    have hc : s.pr.hasCur = true := by grind
    cases hg : (gather s).1 with
    | false => exact Nat.lt_add_right _ (gather_full hl hb hg)
    | true =>
      obtain ⟨he, hgb⟩ := gather_effect h hb hc hg
      simp only [hg, if_true] at hf
      have hfull := appendItem_full he.ok (gather_level hl hg).1 hgb hf
      have hk := congrArg View.kept he.view
      have hv := congrArg View.live he.view
      have hcap := congrArg View.cap he.view
      simp only [view] at hk hv hcap
      rwa [hk, hv, hcap] at hfull

-- ---------------------------------------------------------------------------
-- Keeping
-- ---------------------------------------------------------------------------

/-- A run that begins among the gathered bytes begins at the first of them. -/
def Fair (pr : Pipereader) (n : Nat) : Bool :=
  n == 0 || decide (n > (liveSpan pr).len) || !pr.liveInBuf || pr.runLen != 0 || pr.bufPos == 0

theorem keepInBuf_level {n : Nat} (h : s.pr.Ok) (hl : Level s.pr) (hb : s.pr.liveInBuf = true)
    (hf : s.pr.runLen ≠ 0 ∨ s.pr.bufPos = 0) : Level ((keepInBuf s n).2.grow n).pr := by
  have h1 := h.inCur hb
  have h2 := h.runCur
  unfold Level at *
  unfold keepInBuf grow
  grind

theorem keepInPlace_level {n : Nat} (hl : Level s.pr)
    (hr : s.pr.runLen = 0 ∨ s.pr.runInCur = true) :
    Level ((keepInPlace s n).2.grow n).pr := by
  unfold Level at *
  unfold keepInPlace grow
  grind

theorem keepAcross_level {n : Nat} (hl : Level s.pr) (hr : s.pr.runInCur = false)
    (hroom : ¬ s.pr.floor + n > s.pr.cap) : Level ((keepAcross s n).2.grow n).pr := by
  unfold Level at *
  unfold keepAcross grow
  grind

/-- The ways of `keep`: none, in `buf`, in place, across, and no room. -/
inductive Keeps (s : Reader) (n : Nat) : Reader → Prop
  | none : Keeps s n s
  | inBuf : 0 < n → n ≤ (liveSpan s.pr).len → s.pr.liveInBuf = true →
      Keeps s n (((keepInBuf s n).2.grow n).consume n)
  | inPlace : s.pr.runLen = 0 ∨ s.pr.runInCur = true →
      Keeps s n (((keepInPlace s n).2.grow n).consume n)
  | across : s.pr.runInCur = false → ¬ s.pr.floor + n > s.pr.cap →
      Keeps s n (((keepAcross s n).2.grow n).consume n)
  | full : n ≤ (liveSpan s.pr).len → s.pr.runInCur = false → s.pr.floor + n > s.pr.cap →
      Keeps s n { s with pr := { s.pr with error := some .full } }

theorem keep_keeps (s : Reader) (n : Nat) : Keeps s n (keep s n).2 := by
  unfold keep
  simp only
  split
  · exact .none
  rename_i hle
  split
  · exact .none
  rename_i h0
  split
  · rename_i hb
    have hk : (keepInBuf s n).1 ≠ .null := by simp [keepInBuf]
    simp only [hk, if_false]
    exact .inBuf (by omega) (by omega) hb
  split
  · rename_i hr
    have hk : (keepInPlace s n).1 ≠ .null := by simp [keepInPlace]
    simp only [hk, if_false]
    exact .inPlace hr.2
  split
  · rename_i hr hc
    have hcur : s.pr.runInCur = false := by grind
    by_cases hroom : s.pr.floor + n > s.pr.cap
    · have hk : keepAcross s n = (.null, { s with pr := { s.pr with error := some .full } }) := by
        simp [keepAcross, hroom]
      simp only [hk, if_true]
      exact .full (by omega) hcur hroom
    · have hk : (keepAcross s n).1 ≠ .null := by simp [keepAcross, hroom]
      simp only [hk, if_false]
      exact .across hcur hroom
  · exact .none

theorem keep_level {n : Nat} (h : s.pr.Ok) (hl : Level s.pr) (hf : Fair s.pr n = true) :
    Level (keep s n).2.pr := by
  have hk := keep_keeps s n
  generalize (keep s n).2 = t at hk
  cases hk with
  | none => exact hl
  | inBuf h0 hle hb =>
    refine consume_level (keepInBuf_level h hl hb ?_) n
    unfold Fair at hf
    grind
  | inPlace hr => exact consume_level (keepInPlace_level hl hr) n
  | across hr hroom => exact consume_level (keepAcross_level hl hr hroom) n
  | full => exact hl

/-- `keep` makes the pipe full only if what is kept and live is too much. -/
theorem keep_full {n : Nat} (hl : Level s.pr) (he : s.pr.error = none)
    (hf : (keep s n).2.pr.error = some .full) :
    s.pr.cap < s.kept.length + s.live.length ∧
      (keep s n).2 = { s with pr := { s.pr with error := some .full } } := by
  have hk := keep_keeps s n
  generalize (keep s n).2 = t at hk hf
  cases hk with
  | none => simp [he] at hf
  | inBuf =>
    rw [consume_error] at hf
    unfold keepInBuf grow at hf
    grind
  | inPlace =>
    rw [consume_error] at hf
    unfold keepInPlace grow at hf
    grind
  | across =>
    rw [consume_error] at hf
    unfold keepAcross grow at hf
    grind
  | full hle hr hroom =>
    refine ⟨?_, rfl⟩
    unfold Level at hl
    rw [hr] at hl
    rw [length_kept, length_live]
    simp only [Bool.false_eq_true, if_false] at hl
    omega

theorem release_level (s : Reader) : Level (release s).pr := by
  unfold release
  simp only
  refine curDone_level ?_
  unfold Level bufringReturn
  grind

end Reader

-- ---------------------------------------------------------------------------
-- The reads
-- ---------------------------------------------------------------------------

namespace Feed

open Reader (Level)

variable {f t : Feed}

/-- A reader that has become full: behind the live bytes, and those taken in
this call, a delivered buffer that these and the kept ones leave no room for. -/
def Overfull (f t : Feed) : Prop :=
  ∃ grown new, t.taken = f.taken ++ grown ++ new ∧ t.live = f.live ++ grown ∧
    t.view.kept = f.view.kept ∧ t.view.cap < t.view.kept.length + t.live.length + new.length

theorem Overfull.after {u : Feed} {d : List Byte} (hg : Grew f u d) (h : Overfull u t) :
    Overfull f t := by
  obtain ⟨grown, new, ht, hl, hk, hc⟩ := h
  refine ⟨d ++ grown, new, ?_, ?_, ?_, hc⟩
  · rw [ht, hg.taken]
    simp
  · rw [hl, hg.live, List.append_assoc]
  · rw [hk, hg.view]
    rfl

/-- `more` keeps the level, and is full only if the bytes are too many. -/
theorem more_spec (h : f.Ok) (hl : Level f.pr) : Level f.more.2.pr ∧
    (f.more.1 = .error .full → Overfull f f.more.2) := by
  unfold more
  split
  · exact ⟨hl, by simp⟩
  obtain ⟨hq, -⟩ := wait_spec h f.script
  cases hrx : (wait f.script f).rx with
  | nil =>
    simp only [recvItem_nil hrx]
    refine ⟨?_, fun he => ?_⟩
    · have hp : Level (wait f.script f).pr := by rwa [hq.pr]
      exact hp
    · split at he <;> simp at he
  | cons d rest =>
    simp only [recvItem_cons hrx]
    generalize wait f.script f = w at *
    have hlw : Level w.pr := by rwa [hq.pr]
    obtain ⟨hlen, -, hread⟩ := hq.ok.queued d (by simp [hrx])
    have hin : d.item.bufId ∉ Reader.held w.pr := by
      have hn := hq.ok.nodup
      simp only [out, rxIds, hrx] at hn
      rw [List.nodup_append] at hn
      intro hm
      exact hn.2.2 _ (by simp) _ hm rfl
    refine ⟨Reader.moreItem_level hlw, fun he => ?_⟩
    have hf : (w.toReader.moreItem d.item).1 = false := by
      cases hm : (w.toReader.moreItem d.item).1 with
      | true => simp [hm] at he
      | false => rfl
    have heff := (Reader.moreItem_effect hq.ok.reader d.item hin).view
    rw [hf] at heff
    have hfull := Reader.moreItem_full hq.ok.reader hlw hf
    have hview : w.toReader.view = f.view := hq.view
    have hlive : (w.toReader.moreItem d.item).2.live = f.live := by
      have hx := congrArg View.live heff
      rw [hview] at hx
      exact hx
    have hkept : (w.toReader.moreItem d.item).2.kept = f.view.kept := by
      have hx := congrArg View.kept heff
      rw [hview] at hx
      exact hx
    have hcap : (w.toReader.moreItem d.item).2.pr.cap = w.pr.cap := by
      have hx := congrArg View.cap heff
      exact hx
    refine ⟨[], d.data, ?_, ?_, hkept, ?_⟩
    · rw [← hq.taken, List.append_nil]
    · rw [List.append_nil]
      exact hlive
    · have hwl : w.toReader.live = f.live := congrArg View.live hview
      have hwk : w.toReader.kept = f.view.kept := congrArg View.kept hview
      rw [hwl, hwk, hlen] at hfull
      show (w.toReader.moreItem d.item).2.pr.cap < (w.toReader.moreItem d.item).2.kept.length +
        (w.toReader.moreItem d.item).2.live.length + d.data.length
      rw [hcap, hkept, hlive]
      exact hfull

theorem readLoop_spec {n : Nat} (h : f.Ok) (hl : Level f.pr) : Level (readLoop n f).2.pr ∧
    ((readLoop n f).1 = .error .full → Overfull f (readLoop n f).2) := by
  induction n generalizing f with
  | zero => exact ⟨hl, by simp [readLoop]⟩
  | succ n ih =>
    unfold readLoop
    split
    · exact ⟨hl, by simp⟩
    have hm := more_outcome h
    have hs := more_spec h hl
    generalize f.more = m at hm hs
    cases hm with
    | some hg hne =>
      obtain ⟨h1, h2⟩ := ih hg.ok hs.1
      exact ⟨h1, fun he => (h2 he).after hg⟩
    | ended => exact ⟨hs.1, by simp⟩
    | error => exact ⟨hs.1, hs.2⟩

theorem copyLoop_spec {n k : Nat} (h : f.Ok) (hl : Level f.pr) : Level (copyLoop k n f).2.2.pr ∧
    ((copyLoop k n f).1 = .error .full → Overfull f (copyLoop k n f).2.2) := by
  induction n generalizing f with
  | zero => exact ⟨hl, by simp [copyLoop]⟩
  | succ n ih =>
    unfold copyLoop
    split
    · refine ⟨Reader.consume_level hl _, fun he => ?_⟩
      simp only at he
      split at he <;> cases he
    have hm := more_outcome h
    have hs := more_spec h hl
    generalize f.more = m at hm hs
    cases hm with
    | some hg hne =>
      obtain ⟨h1, h2⟩ := ih hg.ok hs.1
      exact ⟨h1, fun he => (h2 he).after hg⟩
    | ended => exact ⟨hs.1, by simp⟩
    | error => exact ⟨hs.1, hs.2⟩

end Feed

-- ---------------------------------------------------------------------------
-- A client of the public calls
-- ---------------------------------------------------------------------------

/-- The calls of `ioxd/pipe.h`, and what happens between two of them. -/
def Call.isPublic : Call → Bool
  | .read | .examine _ | .drop _ | .keep _ | .release | .copy _ | .tick => true
  | .avail | .runBegin | .inject _ => false

namespace Client

open Reader (Level Fair)
open Runs (Reach)

variable {c c' : Client} {call : Call}

/-- A public call; if it is a `keep` that begins a run among the gathered bytes,
none of these has been dropped. -/
def fair (c : Client) (call : Call) : Bool :=
  call.isPublic &&
    match call with
    | .keep n => Fair c.pr n
    | _ => true

/-- The call makes the pipe full only if the bytes kept since the last release,
the live ones and a new buffer exceed its capacity. -/
def FullOnly (c c' : Client) : Prop :=
  c.view.error = none → c'.view.error = some .full → ∃ grown new,
    c'.taken = c.taken ++ grown ++ new ∧ c'.live = c.live ++ grown ∧
      c'.view.cap < c'.noted.length + c'.live.length + new.length

theorem call_level (h : Faithful c) (hl : Level c.pr) (hc : c.fair call = true) :
    Level (c.call call).pr := by
  unfold fair at hc
  cases call with
  | read =>
    show Level c.toFeed.read.2.pr
    unfold Feed.read
    split
    · exact hl
    · exact (Feed.readLoop_spec h.ok hl).1
  | examine n => exact hl
  | drop n => exact Reader.consume_level hl n
  | keep n => exact Reader.keep_level h.ok.reader hl (by simpa [Call.isPublic] using hc)
  | release => exact Reader.release_level c.toReader
  | copy n =>
    show Level (c.toFeed.copy n).2.2.pr
    unfold Feed.copy
    split
    · exact hl
    · exact (Feed.copyLoop_spec h.ok hl).1
  | tick =>
    show Level c.toFeed.tick.pr
    rw [(Feed.tick_quiet h.ok).1.pr]
    exact hl
  | avail => simp [Call.isPublic] at hc
  | runBegin => simp [Call.isPublic] at hc
  | inject data => simp [Call.isPublic] at hc

theorem overfull_only (hf : Feed.Overfull c.toFeed c'.toFeed) (h : Faithful c') :
    FullOnly c c' := by
  intro _ _
  obtain ⟨grown, new, ht, hl, -, hc⟩ := hf
  refine ⟨grown, new, ht, hl, ?_⟩
  rw [← h.noted]
  exact hc

theorem fullOnly_of_error (he : c'.view.error = c.view.error) : FullOnly c c' := by
  intro hn hf
  rw [he, hn] at hf
  cases hf

theorem read_full (h : Faithful c) (hl : Level c.pr) : FullOnly c (c.call .read) := by
  intro he hf
  refine overfull_only ?_ (read_faithful h) he hf
  have hr := Feed.read_outcome h.ok
  have hs := (@Feed.readLoop_spec c.toFeed (c.left + 1) h.ok hl).2
  have hloop : c.toFeed.read = Feed.readLoop (c.left + 1) c.toFeed := by
    have hn : c.pr.error = none := he
    unfold Feed.read
    simp only [hn]
  rw [← hloop] at hs
  change c.toFeed.read.2.view.error = some .full at hf
  show Feed.Overfull c.toFeed c.toFeed.read.2
  generalize c.toFeed.read = r at hr hs hf
  cases hr with
  | some hg =>
    rw [hg.view] at hf
    exact absurd (he.symm.trans hf) (by simp)
  | ended hg hok hv =>
    rw [hv, hg.view] at hf
    exact absurd (he.symm.trans hf) (by simp)
  | error hg hok hv =>
    rw [hv] at hf
    exact hs (by rw [Option.some.inj hf])

theorem copy_full (h : Faithful c) (hl : Level c.pr) (n : Nat) : FullOnly c (c.call (.copy n)) := by
  intro he hf
  refine overfull_only ?_ (copy_faithful h n) he hf
  have hr := Feed.copy_outcome h.ok n
  have hs := (@Feed.copyLoop_spec c.toFeed (c.left + 1) n h.ok hl).2
  have hloop : c.toFeed.copy n = Feed.copyLoop n (c.left + 1) c.toFeed := by
    have hn : c.pr.error = none := he
    unfold Feed.copy
    simp only [hn]
  rw [← hloop] at hs
  change (c.toFeed.copy n).2.2.view.error = some .full at hf
  show Feed.Overfull c.toFeed (c.toFeed.copy n).2.2
  generalize c.toFeed.copy n = r at hr hs hf
  cases hr with
  | some hg hne hpos hst =>
    rw [hst.view, hg.view] at hf
    exact absurd (he.symm.trans hf) (by simp)
  | nothing hn hg hst =>
    rw [hst.view, hg.view] at hf
    exact absurd (he.symm.trans hf) (by simp)
  | ended hnil hok hv =>
    rw [hv] at hf
    exact absurd (he.symm.trans hf) (by simp)
  | error hok hv =>
    rw [hv] at hf
    exact hs (by rw [Option.some.inj hf])

theorem keep_full (h : Faithful c) (hl : Level c.pr) (n : Nat) : FullOnly c (c.call (.keep n)) := by
  intro he hf
  refine overfull_only ?_ (keep_faithful h n) he hf
  obtain ⟨hc, hs⟩ := Reader.keep_full hl he hf
  have hv : (c.call (.keep n)).toFeed.view = { c.view with error := some .full } :=
    congrArg Reader.view hs
  have hkept := congrArg View.kept hv
  have hlive := congrArg View.live hv
  have hcap := congrArg View.cap hv
  refine ⟨[], [], ?_, ?_, hkept, ?_⟩
  · rw [List.append_nil, List.append_nil]
    rfl
  · rw [List.append_nil]
    exact hlive
  · rw [hkept, hcap, show (c.call (.keep n)).toFeed.live = c.live from hlive]
    exact hc

theorem call_full (h : Faithful c) (hl : Level c.pr) (hc : c.fair call = true) :
    FullOnly c (c.call call) := by
  unfold fair at hc
  cases call with
  | read => exact read_full h hl
  | copy n => exact copy_full h hl n
  | keep n => exact keep_full h hl n
  | examine n => exact fullOnly_of_error rfl
  | drop n => exact fullOnly_of_error (Reader.consume_error c.toReader n)
  | release =>
    have hv := congrArg View.error (Reader.release_effect h.ok.reader).view
    exact fullOnly_of_error hv
  | tick => exact fullOnly_of_error (congrArg View.error (Feed.tick_quiet h.ok).1.view)
  | avail => simp [Call.isPublic] at hc
  | runBegin => simp [Call.isPublic] at hc
  | inject data => simp [Call.isPublic] at hc

/-- In every run of public calls whose runs begin fairly, the pipe becomes full
only if the bytes kept since the last release, the live ones and the buffer just
delivered exceed its capacity. -/
theorem full_means_full {buf : Mem Byte} {cap : Nat} {slab : Nat → Mem Byte}
    {script : List Event}
    (h : Reach (fun c call => some (c.call call)) fair (init buf cap slab script) c)
    (hc : c.fair call = true) : FullOnly c (c.call call) := by
  have hinv : Faithful c ∧ Level c.pr := by
    refine @Reach.invariant _ _ _ _ _ _ (fun c => Faithful c ∧ Level c.pr) h
      ⟨init_faithful buf cap slab script, rfl⟩ ?_
    rintro c₁ a c₂ ⟨hf, hl⟩ hok hstep
    cases hstep
    exact ⟨call_faithful hf a, call_level hf hl hok⟩
  exact call_full hinv.1 hinv.2 hc

/-- Three times three bytes, and a gathering buffer of eight. -/
def threeThrice : Client :=
  init (fun _ => 0) 8 (fun _ _ => 0)
    [.deliver 0 [1, 2, 3], .deliver 1 [4, 5, 6], .deliver 2 [7, 8, 9]]

/-- Six bytes are gathered and the first of them is kept: three more are too many. -/
theorem full_behind_first_kept :
    let c := threeThrice.run [.read, .examine 3, .read, .keep 1, .examine 5]
    (c.call .read).view.error = some .full ∧ FullOnly c (c.call .read) := by
  have hp : Runs.perform (fun c call => some (c.call call)) fair threeThrice
      [.read, .examine 3, .read, .keep 1, .examine 5] = some _ := rfl
  exact ⟨by decide, full_means_full (Reach.start.perform hp) (by decide)⟩

/-- Six bytes are gathered, four dropped and one kept. The four count as kept:
with one live byte and three new ones the pipe is full. -/
theorem full_behind_dropped : ¬ ∀ (buf : Mem Byte) (cap : Nat) (slab : Nat → Mem Byte)
    (script : List Event) (c : Client) (call : Call),
    Reach (fun c call => some (c.call call)) (fun _ call => call.isPublic)
      (init buf cap slab script) c →
    call.isPublic = true → FullOnly c (c.call call) := by
  intro h
  have hp : Runs.perform (fun c call => some (c.call call)) (fun _ call => call.isPublic)
      threeThrice [.read, .examine 3, .read, .drop 4, .keep 1, .examine 1] =
      some (threeThrice.run [.read, .examine 3, .read, .drop 4, .keep 1, .examine 1]) := rfl
  obtain ⟨grown, new, ht, hl, hc⟩ :=
    h _ _ _ _ _ .read (Reach.start.perform hp) rfl (by decide) (by decide)
  generalize hd : threeThrice.run [.read, .examine 3, .read, .drop 4, .keep 1, .examine 1] = c at *
  have h1 := congrArg List.length ht
  have h2 := congrArg List.length hl
  have hlen : c.taken.length = 6 ∧ (c.call .read).taken.length = 9 ∧ c.live.length = 1 ∧
      (c.call .read).live.length = 1 ∧ (c.call .read).noted.length = 1 ∧
      (c.call .read).view.cap = 8 := by
    rw [← hd]
    decide
  simp only [List.length_append] at h1 h2
  omega

end Client

end Ioxd.Pipe
