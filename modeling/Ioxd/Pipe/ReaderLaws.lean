import Ioxd.Pipe.Reader

/-!
# What each reader operation does

`Pipereader.Ok` ties the reader's flags and offsets together. A `View` is the
reader as its consumer knows it: the live bytes, the run in progress, how much
was examined. `Effect s s' v gained` says of one operation that it keeps `Ok`
and leaves the view `v`, that every kernel buffer it held, was given or
returned is accounted for, and that it wrote only into its own. There is one
such law for each operation; nothing above this module unfolds one of them.
-/

namespace Ioxd.Pipe

open Flat

/-- The invariant of the reader's flags and offsets. -/
structure Pipereader.Ok (pr : Pipereader) : Prop where
  floor_cap : pr.floor ≤ pr.cap
  inBuf : pr.liveInBuf = true →
    pr.floor ≤ pr.bufPos ∧ pr.bufPos ≤ pr.bufEnd ∧ pr.bufEnd ≤ pr.cap
  inCur : pr.liveInBuf = true → pr.hasCur = false
  curPos : pr.curPos ≤ pr.cur.len
  runCur : pr.runInCur = true →
    pr.hasCur = true ∧ 0 < pr.runLen ∧ pr.runStart + pr.runLen ≤ pr.curPos
  runBuf : pr.runInCur = false → 0 < pr.runLen → pr.runStart + pr.runLen = pr.floor
  pins : pr.curIsPinned = true →
    pr.hasCur = true ∧ pr.hasPinned = true ∧ pr.pinned.bufId = pr.cur.bufId

theorem Pipereader.init_ok (buf : Mem Byte) (cap : Nat) : (Pipereader.init buf cap).Ok := by
  constructor <;> simp [Pipereader.init]

/-- The reader as its consumer knows it. -/
structure View where
  live : List Byte
  kept : List Byte
  examined : Nat
  eof : Bool
  error : Option PipeError
  cap : Nat

namespace View

def consume (v : View) (n : Nat) : View :=
  { v with live := v.live.drop n, examined := v.examined - min n v.live.length }

def keep (v : View) (n : Nat) : View :=
  { v.consume n with kept := v.kept ++ v.live.take n }

def append (v : View) (data : List Byte) : View := { v with live := v.live ++ data }

def full (v : View) : View := { v with error := some .full }

@[simp] theorem consume_zero (v : View) : v.consume 0 = v := by simp [consume]

theorem consume_min (v : View) (n : Nat) : v.consume (min v.live.length n) = v.consume n := by
  rcases Nat.le_total n v.live.length with h | h
  · rw [Nat.min_eq_right h]
  · simp [consume, Nat.min_eq_left h, List.drop_eq_nil_of_le h, Nat.min_eq_right h]

end View

namespace Reader

def live (s : Reader) : List Byte := s.bytes (liveSpan s.pr)

def kept (s : Reader) : List Byte := s.bytes (run s.pr)

def view (s : Reader) : View where
  live := s.live
  kept := s.kept
  examined := s.pr.examined
  eof := s.pr.eof
  error := s.pr.error
  cap := s.pr.cap

/-- The kernel buffers the reader holds: the current and the pinned one,
counted once when they are the same. -/
def held (pr : Pipereader) : List Nat :=
  (if pr.hasCur = true ∧ pr.curIsPinned = false then [pr.cur.bufId] else []) ++
    (if pr.hasPinned = true then [pr.pinned.bufId] else [])

structure Effect (s s' : Reader) (v : View) (gained : List Nat) : Prop where
  ok : s'.pr.Ok
  view : s'.view = v
  held : ∀ id, (held s'.pr).count id + s'.back.count id =
    (held s.pr).count id + s.back.count id + gained.count id
  grew : s.back <+: s'.back
  frame : ∀ id, id ∉ Reader.held s.pr → s'.slab id = s.slab id

variable {s s' s'' : Reader}

@[simp] theorem length_live (s : Reader) : s.live.length = (liveSpan s.pr).len := by
  unfold live liveSpan bytes
  grind [length_read]

theorem kept_nil (hr : s.pr.runLen = 0) : s.kept = [] := by
  unfold kept bytes run
  grind [read_zero]

theorem cur_held (h : s.pr.Ok) (hc : s.pr.hasCur = true) : s.pr.cur.bufId ∈ held s.pr := by
  have := h.pins
  unfold held
  grind

theorem view_eq (hl : s.live = v.live) (hk : s.kept = v.kept)
    (hr : s.pr.examined = v.examined ∧ s.pr.eof = v.eof ∧ s.pr.error = v.error ∧ s.pr.cap = v.cap) :
    s.view = v := by
  obtain ⟨h1, h2, h3, h4⟩ := hr
  cases v
  simp only [view] at *
  subst hl hk h1 h2 h3 h4
  rfl

theorem Effect.refl (h : s.pr.Ok) : Effect s s s.view [] :=
  ⟨h, rfl, by simp, List.prefix_rfl, fun _ _ => rfl⟩

theorem Effect.held_of (h : Effect s s' v gained) {i : Nat} (hi : i ∉ Reader.held s.pr)
    (hg : i ∉ gained) : i ∉ Reader.held s'.pr := by
  obtain ⟨r, hr⟩ := h.grew
  have hc := h.held i
  rw [List.count_eq_zero_of_not_mem hi, List.count_eq_zero_of_not_mem hg, ← hr,
    List.count_append] at hc
  exact List.count_eq_zero.mp (by omega)

theorem Effect.trans (h : Effect s s' v []) (h' : Effect s' s'' v' gained) :
    Effect s s'' v' gained where
  ok := h'.ok
  view := h'.view
  held id := by
    have := h.held id
    have := h'.held id
    simp at *
    omega
  grew := h.grew.trans h'.grew
  frame id hi := (h'.frame id (h.held_of hi (by simp))).trans (h.frame id hi)

-- ---------------------------------------------------------------------------
-- Letting a kernel buffer go, and moving into the gathering buffer
-- ---------------------------------------------------------------------------

theorem curDone_cases (s : Reader) :
    curDone s = s ∨
    (s.pr.hasCur = true ∧ s.pr.cur.len ≤ s.pr.curPos ∧
      (s.pr.runInCur = true → s.pr.runLen = 0) ∧
      curDone s =
        { pr := { s.pr with hasCur := false, curIsPinned := false, curPos := 0 }
          slab := s.slab
          back := if s.pr.curIsPinned then s.back else s.back ++ [s.pr.cur.bufId] }) := by
  unfold curDone bufringReturn
  grind

theorem curDone_effect (h : s.pr.Ok) : Effect s (curDone s) s.view [] := by
  rcases curDone_cases s with hd | ⟨hc, hle, hr, hd⟩
  · rw [hd]
    exact .refl h
  · have hb : s.pr.liveInBuf = false := by have := h.inCur; grind
    have hrun : s.pr.runInCur = false := by have := h.runCur; grind
    rw [hd]
    refine ⟨?_, view_eq ?_ ?_ ⟨rfl, rfl, rfl, rfl⟩, ?_, by simp only; split <;> simp,
      fun _ _ => rfl⟩
    · obtain ⟨h1, h2, h3, h4, h5, h6, h7⟩ := h
      constructor <;> grind
    · simp [view, live, liveSpan, bytes, hb, hc, Nat.sub_eq_zero_of_le hle]
    · simp [view, kept, run, bytes, hrun]
    · intro id
      have := h.pins
      unfold held
      grind

theorem compact_effect (h : s.pr.Ok) (hb : s.pr.liveInBuf = true) :
    Effect s (compact s) s.view [] ∧ (compact s).pr.liveInBuf = true := by
  have hin := h.inBuf hb
  unfold compact
  split
  · refine ⟨⟨?_, view_eq ?_ ?_ ⟨rfl, rfl, rfl, rfl⟩, by simp [held], List.prefix_rfl,
      fun _ _ => rfl⟩, hb⟩
    · obtain ⟨h1, h2, h3, h4, h5, h6, h7⟩ := h
      constructor <;> grind
    · simp only [view, live, liveSpan, bytes, hb, if_true]
      exact read_write_eq _ _ (by simp; omega)
    · cases hr : s.pr.runInCur
      · simp only [view, kept, run, bytes, hr, Bool.false_eq_true, if_false]
        -- the run ends at the floor, where the slide starts
        by_cases h0 : s.pr.runLen = 0
        · simp [h0]
        · exact read_write_below _ _ (by have := h.runBuf hr (by omega); omega)
      · simp [view, kept, run, bytes, hr]
  · exact ⟨.refl h, hb⟩

theorem gatherLive_eq (hc : s.pr.hasCur = true) (n : Nat) : s.gatherLive n =
    { pr := { s.pr with
        runInCur := false, liveInBuf := true, hasCur := false, curIsPinned := false, curPos := 0
        bufPos := s.pr.floor
        bufEnd := s.pr.floor + n
        buf := s.pr.buf.write s.pr.floor ((s.slab s.pr.cur.bufId).read s.pr.curPos n) }
      slab := s.slab
      back := if s.pr.curIsPinned then s.back else s.back ++ [s.pr.cur.bufId] } := by
  cases hp : s.pr.curIsPinned <;> simp [gatherLive, curDone, bufringReturn, hc, hp]

theorem gatherRun_eq (hn : n ≠ 0) : s.gatherRun n =
    { s with pr := { s.pr with
        buf := s.pr.buf.write s.pr.floor ((s.slab s.pr.cur.bufId).read s.pr.runStart n)
        runStart := s.pr.floor
        floor := s.pr.floor + n
        pinned := if s.pr.hasPinned then s.pr.pinned else s.pr.cur
        hasPinned := true
        curIsPinned := s.pr.curIsPinned || !s.pr.hasPinned } } := by
  cases hp : s.pr.hasPinned <;> simp [gatherRun, hn, hp]

theorem gather_eq (hc : s.pr.hasCur = true) :
    gather s =
      if s.pr.floor + (if s.pr.runInCur then s.pr.runLen else 0) + (s.pr.cur.len - s.pr.curPos) >
          s.pr.cap then (false, s)
      else
        (true, (s.gatherRun (if s.pr.runInCur then s.pr.runLen else 0)).gatherLive
          (s.pr.cur.len - s.pr.curPos)) := by
  simp only [gather, hc, if_true]

/-- `gather` on a reader whose live bytes are in the current buffer: the run
and the live bytes are in `buf` afterwards, and the buffer is let go unless
it is pinned. -/
theorem gather_effect (h : s.pr.Ok) (hb : s.pr.liveInBuf = false) (hc : s.pr.hasCur = true)
    (hg : (gather s).1 = true) :
    Effect s (gather s).2 s.view [] ∧ (gather s).2.pr.liveInBuf = true := by
  rw [gather_eq hc] at hg ⊢
  by_cases hroom : s.pr.floor + (if s.pr.runInCur then s.pr.runLen else 0) +
      (s.pr.cur.len - s.pr.curPos) > s.pr.cap
  · rw [if_pos hroom] at hg
    exact absurd hg (by simp)
  rw [if_neg hroom]
  cases hr : s.pr.runInCur
  · simp only [hr, Bool.false_eq_true, if_false] at hroom ⊢
    have hs : s.gatherRun 0 = s := rfl
    rw [hs, gatherLive_eq hc]
    refine ⟨⟨?_, view_eq ?_ ?_ ⟨rfl, rfl, rfl, rfl⟩, ?_, by simp only; split <;> simp,
      fun _ _ => rfl⟩, rfl⟩
    · obtain ⟨h1, h2, h3, h4, h5, h6, h7⟩ := h
      constructor <;> grind
    · simp only [view, live, liveSpan, bytes, hb, hc, if_true, Bool.false_eq_true, if_false]
      exact read_write_eq _ _ (by simp)
    · simp only [view, kept, run, bytes, hr, Bool.false_eq_true, if_false]
      by_cases h0 : s.pr.runLen = 0
      · simp [h0]
      · exact read_write_below _ _ (by have := h.runBuf hr (by omega); omega)
    · intro id
      have := h.pins
      unfold held
      grind
  · obtain ⟨-, hlen, hle⟩ := h.runCur hr
    simp only [hr, if_true] at hroom ⊢
    have hgc : (s.gatherRun s.pr.runLen).pr.hasCur = true := by
      rw [gatherRun_eq (by omega)]; exact hc
    rw [gatherLive_eq hgc, gatherRun_eq (by omega)]
    refine ⟨⟨?_, view_eq ?_ ?_ ⟨rfl, rfl, rfl, rfl⟩, ?_, by simp only; split <;> simp,
      fun _ _ => rfl⟩, rfl⟩
    · obtain ⟨h1, h2, h3, h4, h5, h6, h7⟩ := h
      constructor <;> grind
    · simp only [view, live, liveSpan, bytes, hb, hc, if_true, Bool.false_eq_true, if_false]
      exact read_write_eq _ _ (by simp)
    · simp only [view, kept, run, bytes, hr, Bool.false_eq_true, if_false, if_true]
      rw [read_write_below _ _ (by omega)]
      exact read_write_eq _ _ (by simp)
    · intro id
      have := h.pins
      unfold held
      grind

-- ---------------------------------------------------------------------------
-- Taking a delivered buffer
-- ---------------------------------------------------------------------------

theorem refuse_effect (h : s.pr.Ok) (item : RxItem) :
    Effect s (refuse s item) s.view.full [item.bufId] where
  ok := by
    obtain ⟨h1, h2, h3, h4, h5, h6, h7⟩ := h
    constructor <;> simpa [refuse, bufringReturn]
  view := rfl
  held id := by
    show (held s.pr).count id + (s.back ++ [item.bufId]).count id = _
    rw [List.count_append]
    omega
  grew := by simp [refuse, bufringReturn]
  frame _ _ := rfl

/-- The view after an item was offered: its bytes behind the live ones, or the
reader full. -/
def offered (v : View) (ok : Bool) (data : List Byte) : View :=
  if ok then v.append data else v.full

theorem appendItem_effect (h : s.pr.Ok) (hb : s.pr.liveInBuf = true) (item : RxItem)
    (hi : item.bufId ∉ held s.pr) :
    Effect s (appendItem s item).2
      (offered s.view (appendItem s item).1 ((s.slab item.bufId).read 0 item.len))
      [item.bufId] := by
  -- the reader as it is after a slide that made room, or without one
  obtain ⟨t, ht, he, htb⟩ : ∃ t : Reader,
      (if s.pr.bufEnd + item.len > s.pr.cap then s.compact else s) = t ∧
      Effect s t s.view [] ∧ t.pr.liveInBuf = true := by
    refine ⟨_, rfl, ?_⟩
    split
    · exact compact_effect h hb
    · exact ⟨.refl h, hb⟩
  have hin := he.ok.inBuf htb
  have hslab := he.frame _ hi
  simp only [appendItem, ht]
  split
  · have hv : s.view = t.view := he.view.symm
    simp only [offered, Bool.false_eq_true, if_false, hv]
    exact he.trans (refuse_effect he.ok item)
  · refine he.trans ⟨?_, ?_, ?_, by simp [bufringReturn], fun _ _ => rfl⟩
    · obtain ⟨h1, h2, h3, h4, h5, h6, h7⟩ := he.ok
      constructor <;> simp only [bufringReturn] <;> grind
    · rw [← he.view, ← hslab]
      refine view_eq ?_ ?_ ⟨rfl, rfl, rfl, rfl⟩
      · simp only [live, liveSpan, bytes, bufringReturn, htb, if_true, offered, View.append, view]
        rw [read_split _ (a := t.pr.bufEnd - t.pr.bufPos) (b := item.len) (k := t.pr.bufEnd)
          (by omega) (by omega), read_write_below _ _ (by omega), read_write_eq _ _ (by simp)]
      · simp only [offered, if_true, View.append, view, kept, run, bytes, bufringReturn]
        cases hr : t.pr.runInCur
        · simp only [Bool.false_eq_true, if_false]
          by_cases h0 : t.pr.runLen = 0
          · simp [h0]
          · exact read_write_below _ _ (by have := he.ok.runBuf hr (by omega); omega)
        · rfl
    · intro id
      show (held t.pr).count id + (t.back ++ [item.bufId]).count id = _
      rw [List.count_append]
      omega

theorem moreItem_effect (h : s.pr.Ok) (item : RxItem) (hi : item.bufId ∉ held s.pr) :
    Effect s (moreItem s item).2
      (offered s.view (moreItem s item).1 ((s.slab item.bufId).read 0 item.len))
      [item.bufId] := by
  unfold moreItem
  split
  · rename_i hno
    obtain ⟨hb, hc⟩ : s.pr.liveInBuf = false ∧ s.pr.hasCur = false := by simpa using hno
    have hr : s.pr.runInCur = false := by have := h.runCur; grind
    refine ⟨?_, view_eq ?_ ?_ ⟨rfl, rfl, rfl, rfl⟩, ?_, List.prefix_rfl, fun _ _ => rfl⟩
    · obtain ⟨h1, h2, h3, h4, h5, h6, h7⟩ := h
      constructor <;> grind
    · simp [offered, View.append, view, live, liveSpan, bytes, hb, hc]
    · simp [offered, View.append, view, kept, run, bytes, hr]
    · intro id
      unfold held
      grind
  · rename_i hsome
    split
    · exact appendItem_effect h ‹_› item hi
    · rename_i hb
      replace hb : s.pr.liveInBuf = false := by simpa using hb
      have hc : s.pr.hasCur = true := by grind
      cases hg : (gather s).1 with
      | false =>
        have hs : (gather s).2 = s := by
          rw [gather_eq hc] at hg ⊢
          grind
        simp only [hg, hs, offered, Bool.false_eq_true, if_false]
        exact refuse_effect h item
      | true =>
        obtain ⟨he, hgb⟩ := gather_effect h hb hc hg
        have ha := appendItem_effect he.ok hgb item (he.held_of hi (by simp))
        simp only [hg, if_true]
        rw [he.view, he.frame _ hi] at ha
        exact he.trans ha

theorem moreEnded_effect (h : s.pr.Ok) (gone : Bool) :
    Effect s (moreEnded s gone)
      { s.view with eof := true, error := if gone then some .gone else s.pr.error } [] where
  ok := by
    obtain ⟨h1, h2, h3, h4, h5, h6, h7⟩ := h
    constructor <;> simpa [moreEnded]
  view := rfl
  held id := by
    show (held s.pr).count id + s.back.count id = _
    simp
  grew := List.prefix_rfl
  frame _ _ := rfl

-- ---------------------------------------------------------------------------
-- Consuming and keeping
-- ---------------------------------------------------------------------------

theorem examine_effect (h : s.pr.Ok) (n : Nat) :
    Effect s (examine s n) { s.view with examined := n } [] where
  ok := by
    obtain ⟨h1, h2, h3, h4, h5, h6, h7⟩ := h
    constructor <;> simpa [examine]
  view := rfl
  held id := by
    show (held s.pr).count id + s.back.count id = _
    simp
  grew := List.prefix_rfl
  frame _ _ := rfl

@[simp] theorem curDone_slab (s : Reader) : (curDone s).slab = s.slab := by
  rcases curDone_cases s with hd | ⟨-, -, -, hd⟩ <;> rw [hd]

@[simp] theorem curDone_buf (s : Reader) : (curDone s).pr.buf = s.pr.buf := by
  rcases curDone_cases s with hd | ⟨-, -, -, hd⟩ <;> rw [hd]

@[simp] theorem curDone_examined (s : Reader) : (curDone s).pr.examined = s.pr.examined := by
  rcases curDone_cases s with hd | ⟨-, -, -, hd⟩ <;> rw [hd]

@[simp] theorem consume_slab (s : Reader) (n : Nat) : (consume s n).slab = s.slab := by
  unfold consume
  grind [curDone_slab]

@[simp] theorem consume_buf (s : Reader) (n : Nat) : (consume s n).pr.buf = s.pr.buf := by
  unfold consume
  grind [curDone_buf]

/-- `Ok` with the first `n` live bytes already counted as kept: the reader
between the two halves of `keep`. -/
structure OkAt (n : Nat) (pr : Pipereader) : Prop where
  floor_cap : pr.floor ≤ pr.cap
  inBuf : pr.liveInBuf = true →
    pr.floor ≤ pr.bufPos + n ∧ pr.bufPos ≤ pr.bufEnd ∧ pr.bufEnd ≤ pr.cap
  inCur : pr.liveInBuf = true → pr.hasCur = false
  curPos : pr.curPos ≤ pr.cur.len
  runCur : pr.runInCur = true →
    pr.hasCur = true ∧ 0 < pr.runLen ∧ pr.runStart + pr.runLen ≤ pr.curPos + n
  runBuf : pr.runInCur = false → 0 < pr.runLen → pr.runStart + pr.runLen = pr.floor
  pins : pr.curIsPinned = true →
    pr.hasCur = true ∧ pr.hasPinned = true ∧ pr.pinned.bufId = pr.cur.bufId

theorem okAt_of_ok (h : s.pr.Ok) (n : Nat) : OkAt n s.pr := by
  obtain ⟨h1, h2, h3, h4, h5, h6, h7⟩ := h
  constructor <;> grind

theorem consume_move (n : Nat) (h : OkAt n s.pr) (hn : n ≤ (liveSpan s.pr).len) :
    Effect s
      (if s.pr.liveInBuf then
        if s.pr.bufPos + n ≥ s.pr.bufEnd then
          { s with pr := { s.pr with
            bufPos := s.pr.floor, bufEnd := s.pr.floor, liveInBuf := false } }
        else { s with pr := { s.pr with bufPos := s.pr.bufPos + n } }
      else if s.pr.hasCur then curDone { s with pr := { s.pr with curPos := s.pr.curPos + n } }
      else s)
      { s.view with live := s.live.drop n } [] := by
  by_cases hb : s.pr.liveInBuf = true
  case neg =>
    rw [if_neg hb]
    by_cases hc : s.pr.hasCur = true
    case neg =>
      have hl : s.live = [] := by simp [live, liveSpan, bytes, hb, hc]
      rw [if_neg hc]
      have h0 : n = 0 := by simpa [liveSpan, hb, hc] using hn
      refine ⟨?_, view_eq ?_ rfl ⟨rfl, rfl, rfl, rfl⟩, by simp, List.prefix_rfl, fun _ _ => rfl⟩
      · obtain ⟨h1, h2, h3, h4, h5, h6, h7⟩ := h
        constructor <;> grind
      · simp [hl]
    case pos =>
      rw [if_pos hc]
      have hle : n ≤ s.pr.cur.len - s.pr.curPos := by simpa [liveSpan, hb, hc] using hn
      have hpos := h.curPos
      have ht : ({ s.pr with curPos := s.pr.curPos + n } : Pipereader).Ok := by
        obtain ⟨h1, h2, h3, h4, h5, h6, h7⟩ := h
        constructor <;> grind
      have he := curDone_effect (s := { s with pr := { s.pr with curPos := s.pr.curPos + n } }) ht
      refine ⟨he.ok, he.view.trans (view_eq ?_ rfl ⟨rfl, rfl, rfl, rfl⟩), he.held, he.grew,
        he.frame⟩
      simp only [live, liveSpan, bytes, hb, hc, Bool.false_eq_true, if_false, if_true, drop_read]
      rw [Nat.sub_sub]
  case pos =>
    rw [if_pos hb]
    have hin := h.inBuf hb
    have hc := h.inCur hb
    have hl : s.live = s.pr.buf.read s.pr.bufPos (s.pr.bufEnd - s.pr.bufPos) := by
      simp [live, liveSpan, bytes, hb]
    split
    · refine ⟨?_, view_eq ?_ rfl ⟨rfl, rfl, rfl, rfl⟩, ?_, List.prefix_rfl, fun _ _ => rfl⟩
      · obtain ⟨h1, h2, h3, h4, h5, h6, h7⟩ := h
        constructor <;> grind
      · rw [hl, drop_read, show s.pr.bufEnd - s.pr.bufPos - n = 0 by omega, read_zero]
        simp [live, liveSpan, bytes, hc]
      · intro id
        show (held s.pr).count id + s.back.count id = _
        simp
    · refine ⟨?_, view_eq ?_ rfl ⟨rfl, rfl, rfl, rfl⟩, ?_, List.prefix_rfl, fun _ _ => rfl⟩
      · obtain ⟨h1, h2, h3, h4, h5, h6, h7⟩ := h
        constructor <;> grind
      · rw [hl, drop_read, Nat.sub_sub]
        simp only [live, liveSpan, bytes, hb, if_true]
      · intro id
        show (held s.pr).count id + s.back.count id = _
        simp

theorem consume_effectAt (n : Nat) (h : OkAt (min n (liveSpan s.pr).len) s.pr) :
    Effect s (consume s n) (s.view.consume n) [] := by
  have he := consume_move (min n (liveSpan s.pr).len) h (Nat.min_le_right ..)
  have hx := congrArg View.examined he.view
  unfold consume
  refine ⟨?_, ?_, he.held, he.grew, he.frame⟩
  · obtain ⟨h1, h2, h3, h4, h5, h6, h7⟩ := he.ok
    exact ⟨h1, h2, h3, h4, h5, h6, h7⟩
  · have hl := congrArg View.live he.view
    have hk := congrArg View.kept he.view
    have h1 := congrArg View.eof he.view
    have h2 := congrArg View.error he.view
    have h3 := congrArg View.cap he.view
    refine view_eq ?_ hk ⟨?_, h1, h2, h3⟩
    · rw [show ∀ t : Reader, ∀ x, live { t with pr := { t.pr with examined := x } } = t.live from
        fun _ _ => rfl]
      refine hl.trans ?_
      simp only [View.consume, view]
      rw [← length_live]
      rcases Nat.le_total n s.live.length with hle | hle
      · rw [Nat.min_eq_left hle]
      · rw [Nat.min_eq_right hle, List.drop_length, List.drop_eq_nil_of_le hle]
    · simp only [View.consume, view, length_live] at hx ⊢
      rw [hx]
      split <;> omega

theorem consume_effect (h : s.pr.Ok) (n : Nat) : Effect s (consume s n) (s.view.consume n) [] :=
  consume_effectAt n (okAt_of_ok h _)

theorem drop_effect (h : s.pr.Ok) (n : Nat) : Effect s (drop s n) (s.view.consume n) [] :=
  consume_effect h n

/-- The first half of `keep`: the next `n` live bytes are at `p`, joined to the
run, and not consumed yet. -/
structure Placed (s : Reader) (n : Nat) (p : Ptr) (s' : Reader) : Prop where
  okAt : OkAt n s'.pr
  len : (liveSpan s'.pr).len = (liveSpan s.pr).len
  live : s'.live.drop n = s.live.drop n
  kept : s'.kept = s.kept ++ s.live.take n
  bytes : s'.bytes ⟨p, n⟩ = s.live.take n
  rest : s'.pr.examined = s.pr.examined ∧ s'.pr.eof = s.pr.eof ∧ s'.pr.error = s.pr.error ∧
    s'.pr.cap = s.pr.cap
  held : Reader.held s'.pr = Reader.held s.pr
  back : s'.back = s.back
  frame : ∀ id, id ∉ Reader.held s.pr → s'.slab id = s.slab id

/-- The run grown by `n`, which `keep` does between placing and consuming. -/
def grow (s : Reader) (n : Nat) : Reader := { s with pr := { s.pr with runLen := s.pr.runLen + n } }

theorem keepInBuf_placed (h : s.pr.Ok) (hb : s.pr.liveInBuf = true)
    (hle : n ≤ (liveSpan s.pr).len) :
    Placed s n (keepInBuf s n).1 ((keepInBuf s n).2.grow n) := by
  have hin := h.inBuf hb
  have hr : s.pr.runInCur = false := by have := h.inCur hb; have := h.runCur; grind
  have hlen : (liveSpan s.pr).len = s.pr.bufEnd - s.pr.bufPos := by simp [liveSpan, hb]
  have hl : s.live = s.pr.buf.read s.pr.bufPos (s.pr.bufEnd - s.pr.bufPos) := by
    simp [live, liveSpan, bytes, hb]
  have htake : s.live.take n = s.pr.buf.read s.pr.bufPos n := by rw [hl, take_read _ _ (by omega)]
  by_cases h0 : s.pr.runLen = 0
  · -- a run starts where the live bytes are
    have hk : keepInBuf s n = (.buf s.pr.bufPos, { s with pr := { s.pr with
        runInCur := false, runStart := s.pr.bufPos, floor := s.pr.bufPos + n } }) := by
      simp [keepInBuf, h0]
    rw [hk]
    refine ⟨?_, rfl, rfl, ?_, htake.symm, ⟨rfl, rfl, rfl, rfl⟩, rfl, rfl, fun _ _ => rfl⟩
    · obtain ⟨h1, h2, h3, h4, h5, h6, h7⟩ := h
      constructor <;> simp only [grow] <;> grind
    · rw [kept_nil h0, htake, List.nil_append]
      simp [kept, run, Reader.bytes, grow, h0]
  · have hend := h.runBuf hr (by omega)
    by_cases hs : s.pr.bufPos = s.pr.floor
    · have hk : keepInBuf s n = (.buf s.pr.floor, { s with pr := { s.pr with
          floor := s.pr.floor + n } }) := by
        simp [keepInBuf, h0, hs]
      rw [hk]
      refine ⟨?_, rfl, rfl, ?_, ?_, ⟨rfl, rfl, rfl, rfl⟩, rfl, rfl, fun _ _ => rfl⟩
      · obtain ⟨h1, h2, h3, h4, h5, h6, h7⟩ := h
        constructor <;> simp only [grow] <;> grind
      · simp only [kept, run, Reader.bytes, grow, hr, Bool.false_eq_true, if_false, htake]
        exact read_split _ (by omega) rfl
      · rw [htake, hs]; rfl
    · -- dropped bytes in between: slide these down
      have hk : keepInBuf s n = (.buf s.pr.floor, { s with pr := { s.pr with
          buf := s.pr.buf.write s.pr.floor (s.pr.buf.read s.pr.bufPos n)
          floor := s.pr.floor + n } }) := by
        simp [keepInBuf, h0, hs]
      rw [hk]
      refine ⟨?_, rfl, ?_, ?_, ?_, ⟨rfl, rfl, rfl, rfl⟩, rfl, rfl, fun _ _ => rfl⟩
      · obtain ⟨h1, h2, h3, h4, h5, h6, h7⟩ := h
        constructor <;> simp only [grow] <;> grind
      · rw [hl, drop_read]
        simp only [live, liveSpan, Reader.bytes, grow, hb, if_true, drop_read]
        exact read_write_above _ _ (by simp; omega)
      · simp only [kept, run, Reader.bytes, grow, hr, Bool.false_eq_true, if_false, htake]
        rw [read_split _ (k := s.pr.floor) hend.symm rfl, read_write_below _ _ (by omega),
          read_write_eq _ _ (by simp)]
      · rw [htake]
        exact read_write_eq _ _ (by simp)

theorem keepInPlace_placed (h : s.pr.Ok) (hb : s.pr.liveInBuf = false) (hc : s.pr.hasCur = true)
    (hrun : s.pr.runLen = 0 ∨ s.pr.runInCur = true) (hn : 0 < n)
    (hle : n ≤ (liveSpan s.pr).len) :
    Placed s n (keepInPlace s n).1 ((keepInPlace s n).2.grow n) := by
  have hpos := h.curPos
  have hlen : (liveSpan s.pr).len = s.pr.cur.len - s.pr.curPos := by simp [liveSpan, hb, hc]
  have hl : s.live =
      (s.slab s.pr.cur.bufId).read s.pr.curPos (s.pr.cur.len - s.pr.curPos) := by
    simp [live, liveSpan, bytes, hb, hc]
  have htake : s.live.take n = (s.slab s.pr.cur.bufId).read s.pr.curPos n := by
    rw [hl, take_read _ _ (by omega)]
  by_cases h0 : s.pr.runLen = 0
  · have hk : keepInPlace s n = (.kernel s.pr.cur.bufId s.pr.curPos, { s with pr := { s.pr with
        runInCur := true, runStart := s.pr.curPos } }) := by
      simp [keepInPlace, h0]
    rw [hk]
    refine ⟨?_, rfl, rfl, ?_, htake.symm, ⟨rfl, rfl, rfl, rfl⟩, rfl, rfl, fun _ _ => rfl⟩
    · obtain ⟨h1, h2, h3, h4, h5, h6, h7⟩ := h
      constructor <;> simp only [grow] <;> grind
    · rw [kept_nil h0, htake, List.nil_append]
      simp [kept, run, Reader.bytes, grow, h0]
  · have hr : s.pr.runInCur = true := by grind
    obtain ⟨-, -, hend⟩ := h.runCur hr
    by_cases hs : s.pr.runStart + s.pr.runLen = s.pr.curPos
    · have hk : keepInPlace s n = (.kernel s.pr.cur.bufId s.pr.curPos, s) := by
        simp [keepInPlace, h0, hs]
      rw [hk]
      refine ⟨?_, rfl, rfl, ?_, htake.symm, ⟨rfl, rfl, rfl, rfl⟩, rfl, rfl, fun _ _ => rfl⟩
      · obtain ⟨h1, h2, h3, h4, h5, h6, h7⟩ := h
        constructor <;> simp only [grow] <;> grind
      · simp only [kept, run, Reader.bytes, grow, hr, if_true, htake]
        exact read_split _ hs.symm rfl
    · have hk : keepInPlace s n = (.kernel s.pr.cur.bufId (s.pr.runStart + s.pr.runLen), { s with
          slab := Function.update s.slab s.pr.cur.bufId ((s.slab s.pr.cur.bufId).write
            (s.pr.runStart + s.pr.runLen) ((s.slab s.pr.cur.bufId).read s.pr.curPos n)) }) := by
        simp [keepInPlace, h0, hs]
      rw [hk]
      refine ⟨?_, rfl, ?_, ?_, ?_, ⟨rfl, rfl, rfl, rfl⟩, rfl, rfl, ?_⟩
      · obtain ⟨h1, h2, h3, h4, h5, h6, h7⟩ := h
        constructor <;> simp only [grow] <;> grind
      · rw [hl, drop_read]
        simp only [live, liveSpan, Reader.bytes, grow, hb, hc, if_true, Bool.false_eq_true, if_false,
          Function.update_self, drop_read]
        exact read_write_above _ _ (by simp; omega)
      · simp only [kept, run, Reader.bytes, grow, hr, if_true, htake, Function.update_self]
        rw [read_add, read_write_below _ _ (by omega), read_write_eq _ _ (by simp)]
      · simp only [Reader.bytes, grow, htake, Function.update_self]
        exact read_write_eq _ _ (by simp)
      · intro id hid
        have hne : id ≠ s.pr.cur.bufId := fun he => hid (he ▸ cur_held h hc)
        simp [grow, hne]

theorem keepAcross_placed (h : s.pr.Ok) (hb : s.pr.liveInBuf = false) (hc : s.pr.hasCur = true)
    (hr : s.pr.runInCur = false) (hrun : 0 < s.pr.runLen)
    (hle : n ≤ (liveSpan s.pr).len) (hroom : s.pr.floor + n ≤ s.pr.cap) :
    Placed s n (keepAcross s n).1 ((keepAcross s n).2.grow n) := by
  have hlen : (liveSpan s.pr).len = s.pr.cur.len - s.pr.curPos := by simp [liveSpan, hb, hc]
  have hl : s.live =
      (s.slab s.pr.cur.bufId).read s.pr.curPos (s.pr.cur.len - s.pr.curPos) := by
    simp [live, liveSpan, bytes, hb, hc]
  have htake : s.live.take n = (s.slab s.pr.cur.bufId).read s.pr.curPos n := by
    rw [hl, take_read _ _ (by omega)]
  have hend := h.runBuf hr hrun
  have hk : keepAcross s n = (.buf s.pr.floor, { s with pr := { s.pr with
      buf := s.pr.buf.write s.pr.floor ((s.slab s.pr.cur.bufId).read s.pr.curPos n)
      floor := s.pr.floor + n
      bufPos := s.pr.floor + n
      bufEnd := s.pr.floor + n } }) := by
    simp [keepAcross, show ¬ s.pr.cap < s.pr.floor + n by omega]
  rw [hk]
  refine ⟨?_, ?_, ?_, ?_, ?_, ⟨rfl, rfl, rfl, rfl⟩, rfl, rfl, fun _ _ => rfl⟩
  · obtain ⟨h1, h2, h3, h4, h5, h6, h7⟩ := h
    constructor <;> simp only [grow] <;> grind
  · simp [liveSpan, grow, hb, hc]
  · simp [live, liveSpan, Reader.bytes, grow, hb, hc]
  · simp only [kept, run, Reader.bytes, grow, hr, Bool.false_eq_true, if_false, htake]
    rw [read_split _ (k := s.pr.floor) hend.symm rfl, read_write_below _ _ (by omega),
      read_write_eq _ _ (by simp)]
  · rw [htake]
    exact read_write_eq _ _ (by simp)

theorem Placed.consume (hp : Placed s n p s') (hle : n ≤ (liveSpan s.pr).len) :
    Effect s (s'.consume n) (s.view.keep n) [] ∧ (s'.consume n).bytes ⟨p, n⟩ = s.live.take n := by
  have hm : min n (liveSpan s'.pr).len = n := by rw [hp.len]; omega
  have he := consume_effectAt (s := s') n (by rw [hm]; exact hp.okAt)
  obtain ⟨h1, h2, h3, h4⟩ := hp.rest
  have hx : s'.live.length = s.live.length := by simp [hp.len]
  refine ⟨⟨he.ok, ?_, ?_, ?_, ?_⟩, ?_⟩
  · rw [he.view]
    simp only [View.consume, View.keep, view, h1, h2, h3, h4, hp.live, hp.kept, hx]
  · intro id
    have := he.held id
    rw [hp.held, hp.back] at this
    exact this
  · have := he.grew
    rwa [hp.back] at this
  · intro id hid
    rw [consume_slab]
    exact hp.frame id hid
  · rw [← hp.bytes]
    simp only [Reader.bytes, consume_slab, consume_buf]

/-- The outcomes of `keep`: more than is live, nothing asked for, kept, or no
room. -/
inductive KeepOutcome (s : Reader) (n : Nat) : Ptr × Reader → Prop
  | past : s.live.length < n → KeepOutcome s n (.null, s)
  | nothing : n = 0 → KeepOutcome s n ((liveSpan s.pr).p, s)
  | kept {p : Ptr} {t : Reader} : 0 < n → n ≤ s.live.length → p ≠ .null →
      Effect s t (s.view.keep n) [] → t.bytes ⟨p, n⟩ = s.live.take n → KeepOutcome s n (p, t)
  | full {t : Reader} : 0 < n → n ≤ s.live.length → Effect s t s.view.full [] →
      KeepOutcome s n (.null, t)

theorem keep_outcome (h : s.pr.Ok) (n : Nat) : KeepOutcome s n (keep s n) := by
  by_cases hgt : n > (liveSpan s.pr).len
  · simp only [keep, hgt, if_true]
    exact .past (by simpa using hgt)
  have hle : n ≤ (liveSpan s.pr).len := by omega
  have hlive : n ≤ s.live.length := by simpa using hle
  by_cases h0 : n = 0
  · simp only [keep, h0, if_true]
    exact .nothing rfl
  -- what is placed at a pointer is then consumed
  have hend {p : Ptr} {t : Reader} (hp : Placed s n p (t.grow n)) (hne : p ≠ .null) :
      KeepOutcome s n (if p = .null then (.null, t) else (p, (t.grow n).consume n)) := by
    rw [if_neg hne]
    obtain ⟨he, hb⟩ := hp.consume hle
    exact .kept (by omega) hlive hne he hb
  simp only [keep, hgt, h0, if_false]
  by_cases hb : s.pr.liveInBuf = true
  · rw [if_pos hb]
    exact hend (keepInBuf_placed h hb hle) (by simp [keepInBuf])
  replace hb : s.pr.liveInBuf = false := by simpa using hb
  have hc : s.pr.hasCur = true := by
    by_contra hc
    simp only [liveSpan, hb, hc, Bool.false_eq_true, if_false] at hle
    omega
  have hnb : ¬ s.pr.liveInBuf = true := by simp [hb]
  rw [if_neg hnb]
  by_cases hrun : s.pr.runLen = 0 ∨ s.pr.runInCur = true
  · have hin : s.pr.hasCur = true ∧ (s.pr.runLen = 0 ∨ s.pr.runInCur = true) := ⟨hc, hrun⟩
    rw [if_pos hin]
    exact hend (keepInPlace_placed h hb hc hrun (by omega) hle) (by simp [keepInPlace])
  · have hout : ¬ (s.pr.hasCur = true ∧ (s.pr.runLen = 0 ∨ s.pr.runInCur = true)) :=
      fun hin => hrun hin.2
    rw [if_neg hout, if_pos hc]
    obtain ⟨hlen, hr⟩ : 0 < s.pr.runLen ∧ s.pr.runInCur = false := by
      simp only [not_or, Bool.not_eq_true] at hrun
      exact ⟨by omega, hrun.2⟩
    by_cases hroom : s.pr.floor + n ≤ s.pr.cap
    · refine hend (keepAcross_placed h hb hc hr hlen hle hroom) ?_
      simp [keepAcross, show ¬ s.pr.cap < s.pr.floor + n by omega]
    · have hk : keepAcross s n = (.null, { s with pr := { s.pr with error := some .full } }) := by
        simp [keepAcross, show s.pr.cap < s.pr.floor + n by omega]
      simp only [hk, if_true]
      refine .full (by omega) hlive ⟨?_, rfl, ?_, List.prefix_rfl, fun _ _ => rfl⟩
      · obtain ⟨h1, h2, h3, h4, h5, h6, h7⟩ := h
        exact ⟨h1, h2, h3, h4, h5, h6, h7⟩
      · intro id
        show (held s.pr).count id + s.back.count id = _
        simp

-- ---------------------------------------------------------------------------
-- Freezing the run, releasing, closing, injecting
-- ---------------------------------------------------------------------------

theorem clearRun_effect (h : s.pr.Ok) :
    Effect s (curDone { s with pr := { s.pr with runLen := 0, runInCur := false } })
      { s.view with kept := [] } [] := by
  have hok : ({ s.pr with runLen := 0, runInCur := false } : Pipereader).Ok := by
    obtain ⟨h1, h2, h3, h4, h5, h6, h7⟩ := h
    constructor <;> grind
  have he := curDone_effect (s := { s with pr := { s.pr with runLen := 0, runInCur := false } }) hok
  exact ⟨he.ok, he.view.trans (view_eq rfl (kept_nil rfl) ⟨rfl, rfl, rfl, rfl⟩), he.held, he.grew,
    he.frame⟩

/-- `run_begin` empties the run and leaves the live bytes; it reports FULL when
the run had to move and there was no room for it. -/
theorem runBegin_effect (h : s.pr.Ok) :
    ∃ e, (e = s.pr.error ∨ e = some .full) ∧
      Effect s (runBegin s) { s.view with kept := [], error := e } [] := by
  by_cases hrun : s.pr.runInCur = true ∧ s.pr.runLen ≠ 0
  · obtain ⟨hr, h0⟩ := hrun
    obtain ⟨hc, hlen, hle⟩ := h.runCur hr
    have hb : s.pr.liveInBuf = false := by have := h.inCur; grind
    by_cases hp : s.pr.hasPinned = true ∧ s.pr.curIsPinned = false
    · have hp' : s.pr.hasPinned = true ∧ ¬ s.pr.curIsPinned = true := by simpa using hp
      by_cases hroom : s.pr.floor + s.pr.runLen > s.pr.cap
      · refine ⟨some .full, .inr rfl, ?_⟩
        have hs : runBegin s = curDone { s with pr := { s.pr with
            error := some .full, runLen := 0, runInCur := false } } := by
          simp only [runBegin]
          rw [if_pos ⟨hr, h0⟩, if_pos hp', if_pos hroom]
        rw [hs]
        have hok : ({ s.pr with error := some .full } : Pipereader).Ok := by
          obtain ⟨h1, h2, h3, h4, h5, h6, h7⟩ := h
          exact ⟨h1, h2, h3, h4, h5, h6, h7⟩
        have he := clearRun_effect (s := { s with pr := { s.pr with error := some .full } }) hok
        exact ⟨he.ok, he.view, he.held, he.grew, he.frame⟩
      · refine ⟨s.pr.error, .inl rfl, ?_⟩
        have hs : runBegin s = curDone { s with pr := { s.pr with
            buf := s.pr.buf.write s.pr.floor
              ((s.slab s.pr.cur.bufId).read s.pr.runStart s.pr.runLen)
            floor := s.pr.floor + s.pr.runLen, runLen := 0, runInCur := false } } := by
          simp only [runBegin]
          rw [if_pos ⟨hr, h0⟩, if_pos hp', if_neg hroom]
        rw [hs]
        have hok : ({ s.pr with
            buf := s.pr.buf.write s.pr.floor
              ((s.slab s.pr.cur.bufId).read s.pr.runStart s.pr.runLen)
            floor := s.pr.floor + s.pr.runLen } : Pipereader).Ok := by
          obtain ⟨h1, h2, h3, h4, h5, h6, h7⟩ := h
          constructor <;> grind
        have he := clearRun_effect (s := { s with pr := { s.pr with
          buf := s.pr.buf.write s.pr.floor ((s.slab s.pr.cur.bufId).read s.pr.runStart s.pr.runLen)
          floor := s.pr.floor + s.pr.runLen } }) hok
        refine ⟨he.ok, he.view.trans ?_, he.held, he.grew, he.frame⟩
        simp only [view, View.mk.injEq, and_true]
        simp [live, liveSpan, bytes, hb, hc]
    · refine ⟨s.pr.error, .inl rfl, ?_⟩
      have hp' : ¬ (s.pr.hasPinned = true ∧ ¬ s.pr.curIsPinned = true) := by simpa using hp
      have hs : runBegin s = curDone { s with pr := { s.pr with
          pinned := s.pr.cur, hasPinned := true, curIsPinned := true
          runLen := 0, runInCur := false } } := by
        simp only [runBegin]
        rw [if_pos ⟨hr, h0⟩, if_neg hp']
      rw [hs]
      have hok : ({ s.pr with
          pinned := s.pr.cur, hasPinned := true, curIsPinned := true } : Pipereader).Ok := by
        obtain ⟨h1, h2, h3, h4, h5, h6, h7⟩ := h
        constructor <;> grind
      have he := clearRun_effect (s := { s with pr := { s.pr with
        pinned := s.pr.cur, hasPinned := true, curIsPinned := true } }) hok
      have hheld (id : Nat) : (held ({ s.pr with
          pinned := s.pr.cur, hasPinned := true, curIsPinned := true })).count id =
          (held s.pr).count id := by
        have := h.pins
        unfold held
        grind
      refine ⟨he.ok, he.view, ?_, he.grew, ?_⟩
      · intro id
        rw [he.held id, hheld]
      · intro id hid
        refine he.frame id ?_
        rw [← List.count_eq_zero] at hid ⊢
        rw [hheld, hid]
  · refine ⟨s.pr.error, .inl rfl, ?_⟩
    have hs : runBegin s = curDone { s with pr := { s.pr with
        runLen := 0, runInCur := false } } := by
      simp only [runBegin]
      rw [if_neg hrun]
    rw [hs]
    exact clearRun_effect h

/-- The first part of `release`: the run forgotten, the live bytes at the
bottom of `buf`. -/
def settle (s : Reader) : Reader :=
  { s with pr := { (if s.pr.liveInBuf then
      { s.pr with
        runLen := 0, runInCur := false
        buf := s.pr.buf.write 0 (s.pr.buf.read s.pr.bufPos (s.pr.bufEnd - s.pr.bufPos))
        bufEnd := s.pr.bufEnd - s.pr.bufPos
        bufPos := 0 }
    else { s.pr with runLen := 0, runInCur := false, bufPos := 0, bufEnd := 0 }) with floor := 0 } }

theorem settle_effect (h : s.pr.Ok) : Effect s (settle s) { s.view with kept := [] } [] := by
  unfold settle
  by_cases hb : s.pr.liveInBuf = true
  · have hin := h.inBuf hb
    rw [if_pos hb]
    refine ⟨?_, view_eq ?_ (kept_nil rfl) ⟨rfl, rfl, rfl, rfl⟩, ?_, List.prefix_rfl,
      fun _ _ => rfl⟩
    · obtain ⟨h1, h2, h3, h4, h5, h6, h7⟩ := h
      constructor <;> grind
    · simp only [view, live, liveSpan, bytes, hb, if_true]
      exact read_write_eq _ _ (by simp)
    · intro id
      show (held s.pr).count id + s.back.count id = _
      simp
  · rw [if_neg hb]
    refine ⟨?_, view_eq ?_ (kept_nil rfl) ⟨rfl, rfl, rfl, rfl⟩, ?_, List.prefix_rfl,
      fun _ _ => rfl⟩
    · obtain ⟨h1, h2, h3, h4, h5, h6, h7⟩ := h
      constructor <;> grind
    · simp [view, live, liveSpan, bytes, hb]
    · intro id
      show (held s.pr).count id + s.back.count id = _
      simp

/-- The pinned buffer let go: the second part of `release`. -/
def unpin (s : Reader) : Reader :=
  if s.pr.hasPinned then
    if s.pr.curIsPinned then
      { s with pr := { s.pr with curIsPinned := false, hasPinned := false } }
    else
      let s := s.bufringReturn s.pr.pinned.bufId
      { s with pr := { s.pr with hasPinned := false } }
  else s

theorem unpin_effect (h : s.pr.Ok) : Effect s (unpin s) s.view [] := by
  have hpin := h.pins
  unfold unpin
  split
  · split
    · refine ⟨?_, rfl, ?_, List.prefix_rfl, fun _ _ => rfl⟩
      · obtain ⟨h1, h2, h3, h4, h5, h6, h7⟩ := h
        constructor <;> grind
      · intro id
        unfold held
        grind
    · refine ⟨?_, rfl, ?_, by simp [bufringReturn], fun _ _ => rfl⟩
      · obtain ⟨h1, h2, h3, h4, h5, h6, h7⟩ := h
        constructor <;> simp only [bufringReturn] <;> grind
      · intro id
        unfold held bufringReturn
        grind
  · exact .refl h

theorem release_eq (s : Reader) : release s = curDone (unpin (settle s)) := by
  unfold release settle
  by_cases hb : s.pr.liveInBuf = true <;> simp only [hb] <;> rfl

theorem release_effect (h : s.pr.Ok) : Effect s (release s) { s.view with kept := [] } [] := by
  have h1 := settle_effect h
  have h2 := unpin_effect h1.ok
  have h3 := curDone_effect h2.ok
  rw [release_eq, ← h1.view, ← h2.view]
  exact h1.trans (h2.trans h3)

/-- After `close` the reader holds nothing: what it held is back. -/
theorem close_held (s : Reader) :
    held (close s).pr = [] ∧
      ∀ id, (close s).back.count id = s.back.count id + (held s.pr).count id := by
  constructor
  · simp [close, held]
  · intro id
    unfold close held bufringReturn
    grind

/-- `inject`: the bytes behind the live ones, or no room and nothing changed
for the consumer. -/
theorem inject_effect (h : s.pr.Ok) (data : List Byte) :
    Effect s (inject s data).2
      (if (inject s data).1 then s.view.append data else s.view) [] := by
  by_cases hne : s.pr.error.isSome = true
  · simp only [inject, hne, if_true, Bool.false_eq_true, if_false]
    exact .refl h
  -- the live bytes are in `buf` first, or do not fit there
  obtain ⟨ok, t, ht, he⟩ : ∃ ok t,
      (if s.pr.liveInBuf then (true, s)
        else if s.pr.hasCur then s.gather
        else (true, { s with pr := { s.pr with
          bufPos := s.pr.floor, bufEnd := s.pr.floor, liveInBuf := true } })) = (ok, t) ∧
      Effect s t s.view [] ∧ (ok = true → t.pr.liveInBuf = true) := by
    by_cases hb : s.pr.liveInBuf = true
    · exact ⟨true, s, by rw [if_pos hb], .refl h, fun _ => hb⟩
    · rw [if_neg hb]
      have hb : s.pr.liveInBuf = false := by simpa using hb
      by_cases hc : s.pr.hasCur = true
      · rw [if_pos hc]
        refine ⟨(gather s).1, (gather s).2, rfl, ?_⟩
        by_cases hg : (gather s).1 = true
        · obtain ⟨he, hgb⟩ := gather_effect h hb hc hg
          exact ⟨he, fun _ => hgb⟩
        · have hs : (gather s).2 = s := by
            rw [gather_eq hc] at hg ⊢
            grind
          rw [hs]
          exact ⟨.refl h, fun ht => absurd ht hg⟩
      · rw [if_neg hc]
        refine ⟨true, _, rfl, ⟨?_, view_eq ?_ ?_ ⟨rfl, rfl, rfl, rfl⟩, ?_, List.prefix_rfl,
          fun _ _ => rfl⟩, fun _ => rfl⟩
        · obtain ⟨h1, h2, h3, h4, h5, h6, h7⟩ := h
          constructor <;> grind
        · simp [view, live, liveSpan, bytes, hb, hc]
        · rfl
        · intro id
          show (held s.pr).count id + s.back.count id = _
          simp
  obtain ⟨he, htb⟩ := he
  simp only [inject, hne, Bool.false_eq_true, if_false, ht]
  cases ok with
  | false => simpa using he
  | true =>
    obtain ⟨u, hu, hue, hub⟩ : ∃ u : Reader,
        (if t.pr.bufEnd + data.length > t.pr.cap then t.compact else t) = u ∧
        Effect s u s.view [] ∧ u.pr.liveInBuf = true := by
      refine ⟨_, rfl, ?_⟩
      split
      · obtain ⟨hce, hcb⟩ := compact_effect he.ok (htb rfl)
        exact ⟨he.trans (he.view ▸ hce), hcb⟩
      · exact ⟨he, htb rfl⟩
    have hin := hue.ok.inBuf hub
    simp only [not_true_eq_false, if_false, hu]
    split
    · simpa using hue
    · refine hue.trans ⟨?_, ?_, ?_, List.prefix_rfl, fun _ _ => rfl⟩
      · obtain ⟨h1, h2, h3, h4, h5, h6, h7⟩ := hue.ok
        constructor <;> grind
      · simp only [if_true]
        rw [← hue.view]
        refine view_eq ?_ ?_ ⟨rfl, rfl, rfl, rfl⟩
        · simp only [live, liveSpan, bytes, hub, if_true, View.append, view]
          rw [read_split _ (a := u.pr.bufEnd - u.pr.bufPos) (b := data.length)
            (k := u.pr.bufEnd) (by omega) (by omega), read_write_below _ _ (by omega),
            read_write_self]
        · simp only [View.append, view, kept, run, bytes]
          cases hr : u.pr.runInCur
          · simp only [Bool.false_eq_true, if_false]
            by_cases h0 : u.pr.runLen = 0
            · simp [h0]
            · exact read_write_below _ _ (by have := hue.ok.runBuf hr (by omega); omega)
          · rfl
      · intro id
        show (held u.pr).count id + u.back.count id = _
        simp

-- ---------------------------------------------------------------------------
-- What leaves an error alone
-- ---------------------------------------------------------------------------

theorem curDone_error (s : Reader) : (curDone s).pr.error = s.pr.error := by
  unfold curDone bufringReturn
  grind

theorem consume_error (s : Reader) (n : Nat) : (consume s n).pr.error = s.pr.error := by
  have hc := curDone_error
    { s with pr := { s.pr with curPos := s.pr.curPos + min n (liveSpan s.pr).len } }
  unfold consume
  grind

theorem appendItem_error {item : RxItem} (h : (appendItem s item).1 = true) :
    (appendItem s item).2.pr.error = s.pr.error := by
  unfold appendItem compact bufringReturn at *
  grind

theorem gather_error (s : Reader) : (gather s).2.pr.error = s.pr.error := by
  unfold gather gatherLive gatherRun curDone bufringReturn
  grind

theorem moreItem_error {item : RxItem} (h : (moreItem s item).1 = true) :
    (moreItem s item).2.pr.error = s.pr.error := by
  unfold moreItem at *
  split
  · rfl
  rename_i hsome
  rw [if_neg hsome] at h
  split
  · rename_i hb
    rw [if_pos hb] at h
    exact appendItem_error h
  · rename_i hb
    rw [if_neg hb] at h
    have hg := gather_error s
    generalize gather s = r at h hg
    obtain ⟨ok, t⟩ := r
    cases ok with
    | true => exact (appendItem_error h).trans hg
    | false => cases h

theorem keep_error {n : Nat} (h : (keep s n).1 ≠ .null) : (keep s n).2.pr.error = s.pr.error := by
  have hend {p : Ptr} {t : Reader} (he : p ≠ .null → t.pr.error = s.pr.error)
      (hne : (if p = .null then (Ptr.null, t) else
        (p, consume { t with pr := { t.pr with runLen := t.pr.runLen + n } } n)).1 ≠ .null) :
      (if p = .null then (Ptr.null, t) else
        (p, consume { t with pr := { t.pr with runLen := t.pr.runLen + n } } n)).2.pr.error =
      s.pr.error := by
    split at hne
    · exact absurd rfl hne
    · rename_i hp
      rw [if_neg hp]
      exact (consume_error _ n).trans (he hp)
  unfold keep at *
  simp only at *
  split
  · rfl
  rename_i hgt
  rw [if_neg hgt] at h
  split
  · rfl
  rename_i h0
  rw [if_neg h0] at h
  refine hend (fun hp => ?_) h
  unfold keepInBuf keepInPlace keepAcross at *
  grind

end Reader

end Ioxd.Pipe
