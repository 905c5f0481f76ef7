import Ioxd.Pipe.Fidelity

/-!
# Kept spans stay put

Where a span that `keep` returned may lie until the next `release`: below the
floor of the gathering buffer, in the pinned buffer in front of whatever is
kept there next, or in the run of the current one. Each operation keeps such a
span where it is, and writes elsewhere.
-/

namespace Ioxd.Pipe

open Flat

namespace Reader

variable {s s' s'' : Reader} {begun : Bool} {x : Slice}

/-- Where the next bytes of a run in the current buffer start at the lowest. -/
def low (pr : Pipereader) : Nat := if pr.runInCur then pr.runStart else pr.curPos

/-- A kept span that nothing may touch. `begun` says that `run_begin` was used
since the last `release`; the run is then another one. -/
def Safe (begun : Bool) (pr : Pipereader) (x : Slice) : Prop :=
  match x.p with
  | .null => False
  | .buf off => off + x.len ≤ pr.floor
  | .kernel id off =>
    (pr.hasPinned = true ∧ pr.pinned.bufId = id ∧
      (pr.curIsPinned = true → off + x.len ≤ low pr)) ∨
    (begun = false ∧ pr.runInCur = true ∧ pr.cur.bufId = id ∧
      off + x.len ≤ pr.runStart + pr.runLen)

/-- Before `run_begin` a buffer is pinned only for a run that has left it. -/
def Single (begun : Bool) (pr : Pipereader) : Prop :=
  begun = false → pr.hasPinned = true → pr.runInCur = false ∧ 0 < pr.runLen

def Distinct (pr : Pipereader) : Prop :=
  pr.hasCur = true → pr.hasPinned = true → pr.curIsPinned = false →
    pr.cur.bufId ≠ pr.pinned.bufId

/-- The spans that were safe are, and hold what they held. -/
structure Guards (begun begun' : Bool) (s s' : Reader) : Prop where
  single : Single begun' s'.pr
  safe : ∀ x, Safe begun s.pr x → Safe begun' s'.pr x
  bytes : ∀ x, Safe begun s.pr x → s'.bytes x = s.bytes x

theorem Guards.refl (hs : Single begun s.pr) : Guards begun begun s s :=
  ⟨hs, fun _ h => h, fun _ _ => rfl⟩

theorem Guards.trans {b b' b'' : Bool} (h : Guards b b' s s') (h' : Guards b' b'' s' s'') :
    Guards b b'' s s'' :=
  ⟨h'.single, fun x hx => h'.safe x (h.safe x hx),
    fun x hx => (h'.bytes x (h.safe x hx)).trans (h.bytes x hx)⟩

/-- An operation that writes nothing into a kernel buffer and nothing below the
floor. -/
theorem bytes_frame (hslab : s'.slab = s.slab)
    (hbuf : ∀ q n, q + n ≤ s.pr.floor → s'.pr.buf.read q n = s.pr.buf.read q n) (x : Slice)
    (hx : Safe begun s.pr x) : s'.bytes x = s.bytes x := by
  obtain ⟨p, n⟩ := x
  cases p with
  | null => rfl
  | buf off => exact hbuf off n hx
  | kernel id off => simp only [Reader.bytes, hslab]

theorem Safe.congr {pr pr' : Pipereader} (h : Safe begun pr x) (hf : pr.floor ≤ pr'.floor)
    (hp : pr'.hasPinned = pr.hasPinned) (hpi : pr'.pinned = pr.pinned)
    (hc : pr'.curIsPinned = true → pr.curIsPinned = true ∧ low pr ≤ low pr')
    (hr : pr.runInCur = true → pr'.runInCur = true ∧ pr'.cur = pr.cur ∧
      pr'.runStart = pr.runStart ∧ pr.runLen ≤ pr'.runLen) : Safe begun pr' x := by
  obtain ⟨p, n⟩ := x
  cases p with
  | null => exact h
  | buf off =>
    have h : off + n ≤ pr.floor := h
    show off + n ≤ pr'.floor
    omega
  | kernel id off =>
    rcases h with ⟨h1, h2, h3⟩ | ⟨h1, h2, h3, h4⟩
    · refine .inl ⟨hp.trans h1, by rw [hpi]; exact h2, fun hx => ?_⟩
      obtain ⟨e1, e2⟩ := hc hx
      have := h3 e1
      show off + n ≤ low pr'
      have : off + n ≤ low pr := this
      omega
    · obtain ⟨e1, e2, e3, e4⟩ := hr h2
      refine .inr ⟨h1, e1, by rw [e2]; exact h3, ?_⟩
      have h4 : off + n ≤ pr.runStart + pr.runLen := h4
      show off + n ≤ pr'.runStart + pr'.runLen
      omega

-- ---------------------------------------------------------------------------
-- Letting go, gathering, taking
-- ---------------------------------------------------------------------------

theorem curDone_guards (h : s.pr.runInCur = true → 0 < s.pr.runLen) (hs : Single begun s.pr) :
    Guards begun begun s (curDone s) := by
  rcases curDone_cases s with hd | ⟨hc, hle, hr, hd⟩
  · rw [hd]
    exact .refl hs
  · have hrun : s.pr.runInCur = false := by grind
    rw [hd]
    refine ⟨hs, fun x hx => ?_, bytes_frame rfl fun _ _ _ => rfl⟩
    exact hx.congr (Nat.le_refl _) rfl rfl (fun hx => by simp at hx) fun hx => by
      rw [hrun] at hx
      cases hx

theorem compact_guards (hs : Single begun s.pr) : Guards begun begun s (compact s) := by
  unfold compact
  split
  · refine ⟨hs, fun x hx => ?_, bytes_frame rfl fun q n hq => read_write_below _ _ hq⟩
    exact hx.congr (Nat.le_refl _) rfl rfl (fun hx => ⟨hx, Nat.le_refl _⟩)
      fun hx => ⟨hx, rfl, rfl, Nat.le_refl _⟩
  · exact .refl hs

theorem gatherLive_guards (hr : s.pr.runInCur = false) (hc : s.pr.hasCur = true)
    (hs : Single begun s.pr) (n : Nat) : Guards begun begun s (s.gatherLive n) := by
  rw [gatherLive_eq hc]
  refine ⟨fun h1 h2 => ⟨rfl, (hs h1 h2).2⟩, fun x hx => ?_,
    bytes_frame rfl fun q m hq => read_write_below _ _ hq⟩
  exact hx.congr (Nat.le_refl _) rfl rfl (fun hx => by simp at hx) fun hx => by
    rw [hr] at hx
    cases hx

/-- The run leaves the current buffer, which is pinned before `run_begin`. -/
theorem gatherRun_guards (h : s.pr.Ok) (hr : s.pr.runInCur = true) (hs : Single begun s.pr)
    (n : Nat) : Guards begun begun s ((s.gatherRun s.pr.runLen).gatherLive n) := by
  obtain ⟨hc, hlen, hle⟩ := h.runCur hr
  have hgc : (s.gatherRun s.pr.runLen).pr.hasCur = true := by
    rw [gatherRun_eq (by omega)]
    exact hc
  rw [gatherLive_eq hgc, gatherRun_eq (by omega)]
  refine ⟨fun h1 h2 => ⟨rfl, hlen⟩, fun x hx => ?_, bytes_frame rfl fun q m hq => ?_⟩
  · obtain ⟨p, m⟩ := x
    cases p with
    | null => exact hx
    | buf off =>
      have hx : off + m ≤ s.pr.floor := hx
      show off + m ≤ s.pr.floor + s.pr.runLen
      omega
    | kernel id off =>
      rcases hx with ⟨h1, h2, h3⟩ | ⟨h1, -, h3, h4⟩
      · exact .inl ⟨rfl, by simpa [h1] using h2, fun hx => by simp at hx⟩
      · have hp : s.pr.hasPinned = false := by
          by_contra hp
          rw [Bool.not_eq_false] at hp
          have := (hs h1 hp).1
          rw [hr] at this
          cases this
        exact .inl ⟨rfl, by simpa [hp] using h3, fun hx => by simp at hx⟩
  · simp only
    rw [read_write_below _ _ (by omega), read_write_below _ _ hq]

theorem gather_guards (h : s.pr.Ok) (hc : s.pr.hasCur = true) (hs : Single begun s.pr) :
    Guards begun begun s (gather s).2 := by
  rw [gather_eq hc]
  by_cases hroom : s.pr.floor + (if s.pr.runInCur then s.pr.runLen else 0) +
      (s.pr.cur.len - s.pr.curPos) > s.pr.cap
  · rw [if_pos hroom]
    exact .refl hs
  · rw [if_neg hroom]
    cases hr : s.pr.runInCur with
    | false => exact gatherLive_guards hr hc hs _
    | true => exact gatherRun_guards h hr hs _

theorem refuse_guards (hs : Single begun s.pr) (item : RxItem) :
    Guards begun begun s (refuse s item) := by
  refine ⟨hs, fun x hx => ?_, bytes_frame rfl fun _ _ _ => rfl⟩
  exact hx.congr (Nat.le_refl _) rfl rfl (fun hx => ⟨hx, Nat.le_refl _⟩)
    fun hx => ⟨hx, rfl, rfl, Nat.le_refl _⟩

theorem write_guards (hs : Single begun s.pr) (hf : s.pr.floor ≤ s.pr.bufEnd) (data : List Byte)
    (e : Nat) (back : List Nat) : Guards begun begun s
      ⟨{ s.pr with buf := s.pr.buf.write s.pr.bufEnd data, bufEnd := e }, s.slab, back⟩ := by
  refine ⟨hs, fun x hx => ?_, bytes_frame rfl fun q n hq => read_write_below _ _ (by omega)⟩
  exact hx.congr (Nat.le_refl _) rfl rfl (fun hx => ⟨hx, Nat.le_refl _⟩)
    fun hx => ⟨hx, rfl, rfl, Nat.le_refl _⟩

theorem compact_inBuf (h : s.pr.Ok) (hb : s.pr.liveInBuf = true) :
    (compact s).pr.floor ≤ (compact s).pr.bufEnd := by
  obtain ⟨he, hb'⟩ := compact_effect h hb
  have := he.ok.inBuf hb'
  omega

theorem appendItem_guards (h : s.pr.Ok) (hb : s.pr.liveInBuf = true) (hs : Single begun s.pr)
    (item : RxItem) : Guards begun begun s (appendItem s item).2 := by
  obtain ⟨t, ht, hg, hf⟩ : ∃ t : Reader,
      (if s.pr.bufEnd + item.len > s.pr.cap then s.compact else s) = t ∧
      Guards begun begun s t ∧ t.pr.floor ≤ t.pr.bufEnd := by
    refine ⟨_, rfl, ?_⟩
    split
    · exact ⟨compact_guards hs, compact_inBuf h hb⟩
    · have := h.inBuf hb
      exact ⟨.refl hs, by omega⟩
  simp only [appendItem, ht]
  split
  · exact hg.trans (refuse_guards hg.single item)
  · exact hg.trans (write_guards hg.single hf _ _ _)

theorem moreItem_guards (h : s.pr.Ok) (hs : Single begun s.pr) (item : RxItem) :
    Guards begun begun s (moreItem s item).2 := by
  unfold moreItem
  split
  · rename_i hno
    obtain ⟨hb, hc⟩ : s.pr.liveInBuf = false ∧ s.pr.hasCur = false := by simpa using hno
    have hr : s.pr.runInCur = false := by have := h.runCur; grind
    refine ⟨hs, fun x hx => ?_, bytes_frame rfl fun _ _ _ => rfl⟩
    exact hx.congr (Nat.le_refl _) rfl rfl (fun hx => by simp at hx) fun hx => by
      rw [hr] at hx
      cases hx
  · rename_i hsome
    split
    · exact appendItem_guards h ‹_› hs item
    · rename_i hb
      replace hb : s.pr.liveInBuf = false := by simpa using hb
      have hc : s.pr.hasCur = true := by grind
      have hg : Guards begun begun s (gather s).2 := gather_guards h hc hs
      cases hok : (gather s).1 with
      | false =>
        simp only [hok, Bool.false_eq_true, if_false]
        exact hg.trans (refuse_guards hg.single item)
      | true =>
        obtain ⟨he, hgb⟩ := gather_effect h hb hc hok
        simp only [hok, if_true]
        exact hg.trans (appendItem_guards he.ok hgb hg.single item)

theorem moreEnded_guards (hs : Single begun s.pr) (gone : Bool) :
    Guards begun begun s (moreEnded s gone) := by
  refine ⟨hs, fun x hx => ?_, bytes_frame rfl fun _ _ _ => rfl⟩
  exact hx.congr (Nat.le_refl _) rfl rfl (fun hx => ⟨hx, Nat.le_refl _⟩)
    fun hx => ⟨hx, rfl, rfl, Nat.le_refl _⟩

theorem examine_guards (hs : Single begun s.pr) (n : Nat) :
    Guards begun begun s (examine s n) := by
  refine ⟨hs, fun x hx => ?_, bytes_frame rfl fun _ _ _ => rfl⟩
  exact hx.congr (Nat.le_refl _) rfl rfl (fun hx => ⟨hx, Nat.le_refl _⟩)
    fun hx => ⟨hx, rfl, rfl, Nat.le_refl _⟩

-- ---------------------------------------------------------------------------
-- Consuming and keeping
-- ---------------------------------------------------------------------------

theorem consume_guards (h : s.pr.runInCur = true → 0 < s.pr.runLen) (hs : Single begun s.pr)
    (n : Nat) : Guards begun begun s (consume s n) := by
  have hlast {t : Reader} (hg : Guards begun begun s t) (e : Nat) :
      Guards begun begun s { t with pr := { t.pr with examined := e } } :=
    hg.trans (examine_guards hg.single e)
  unfold consume
  refine hlast ?_ _
  split
  · split
    · refine ⟨hs, fun x hx => ?_, bytes_frame rfl fun _ _ _ => rfl⟩
      exact hx.congr (Nat.le_refl _) rfl rfl (fun hx => ⟨hx, Nat.le_refl _⟩)
        fun hx => ⟨hx, rfl, rfl, Nat.le_refl _⟩
    · refine ⟨hs, fun x hx => ?_, bytes_frame rfl fun _ _ _ => rfl⟩
      exact hx.congr (Nat.le_refl _) rfl rfl (fun hx => ⟨hx, Nat.le_refl _⟩)
        fun hx => ⟨hx, rfl, rfl, Nat.le_refl _⟩
  split
  · generalize min n (liveSpan s.pr).len = m
    have hg : Guards begun begun s { s with pr := { s.pr with curPos := s.pr.curPos + m } } := by
      refine ⟨hs, fun x hx => ?_, bytes_frame rfl fun _ _ _ => rfl⟩
      refine hx.congr (Nat.le_refl _) rfl rfl (fun hx => ⟨hx, ?_⟩)
        fun hx => ⟨hx, rfl, rfl, Nat.le_refl _⟩
      unfold low
      simp only
      split <;> omega
    exact hg.trans (curDone_guards h hg.single)
  · exact .refl hs

/-- What `keep` has placed: the old spans are safe, and before `run_begin` so is
the new one. -/
structure Holds (begun : Bool) (s : Reader) (n : Nat) (p : Ptr) (t : Reader) : Prop where
  guards : Guards begun begun s t
  fresh : begun = false → Safe begun t.pr ⟨p, n⟩

theorem keepInBuf_holds (h : s.pr.Ok) (hb : s.pr.liveInBuf = true) {n : Nat} (hn : 0 < n) :
    Holds begun s n (keepInBuf s n).1 ((keepInBuf s n).2.grow n) := by
  have hc := h.inCur hb
  have hin := h.inBuf hb
  have hr : s.pr.runInCur = false := by have := h.runCur; grind
  have hno {pr : Pipereader} (hx : s.pr.runInCur = true) : pr.runInCur = true ∧ pr.cur = s.pr.cur ∧
      pr.runStart = s.pr.runStart ∧ s.pr.runLen ≤ pr.runLen := by
    rw [hr] at hx
    cases hx
  have hpin : s.pr.curIsPinned = false := by have := h.pins; grind
  unfold keepInBuf grow
  by_cases h0 : s.pr.runLen = 0
  · simp only [h0, if_true]
    refine ⟨⟨fun h1 h2 => ⟨rfl, by simpa using hn⟩, fun x hx => ?_,
      bytes_frame rfl fun _ _ _ => rfl⟩, fun _ => Nat.le_refl _⟩
    refine hx.congr ?_ rfl rfl (fun hx => ?_) hno
    · show s.pr.floor ≤ s.pr.bufPos + n
      omega
    · exact absurd (hpin.symm.trans hx) (by simp)
  · simp only [h0, if_false]
    split
    · refine ⟨⟨fun h1 h2 => ⟨hr, by simp only; omega⟩, fun x hx => ?_,
        bytes_frame rfl fun q m hq => read_write_below _ _ hq⟩, fun _ => Nat.le_refl _⟩
      refine hx.congr (Nat.le_add_right _ _) rfl rfl (fun hx => ?_) hno
      exact absurd (hpin.symm.trans hx) (by simp)
    · refine ⟨⟨fun h1 h2 => ⟨hr, by simp only; omega⟩, fun x hx => ?_,
        bytes_frame rfl fun _ _ _ => rfl⟩, fun _ => Nat.le_refl _⟩
      refine hx.congr (Nat.le_add_right _ _) rfl rfl (fun hx => ?_) hno
      exact absurd (hpin.symm.trans hx) (by simp)

theorem keepAcross_holds (hr : s.pr.runInCur = false) (hlen : 0 < s.pr.runLen) {n : Nat}
    (hroom : s.pr.floor + n ≤ s.pr.cap) :
    Holds begun s n (keepAcross s n).1 ((keepAcross s n).2.grow n) := by
  unfold keepAcross grow
  rw [if_neg (by omega)]
  refine ⟨⟨fun h1 h2 => ⟨hr, by simp only; omega⟩, fun x hx => ?_,
    bytes_frame rfl fun q m hq => read_write_below _ _ hq⟩, fun _ => Nat.le_refl _⟩
  exact hx.congr (Nat.le_add_right _ _) rfl rfl (fun hx => ⟨hx, Nat.le_refl _⟩)
    fun hx => absurd (hr.symm.trans hx) (by simp)

/-- In place: the slide goes behind the run, and so behind every span that is in
the same buffer. -/
theorem keepInPlace_holds (h : s.pr.Ok) (hc : s.pr.hasCur = true)
    (hrun : s.pr.runLen = 0 ∨ s.pr.runInCur = true) (hd : Distinct s.pr) (hs : Single begun s.pr)
    (n : Nat) : Holds begun s n (keepInPlace s n).1 ((keepInPlace s n).2.grow n) := by
  -- where the run starts, and that it is in the current buffer from now on
  obtain ⟨start, hstart, hpr⟩ : ∃ start, (s.pr.runLen = 0 → start = s.pr.curPos) ∧
      (if s.pr.runLen = 0 then { s.pr with runInCur := true, runStart := s.pr.curPos } else s.pr) =
        { s.pr with runInCur := true, runStart := start } ∧
      (s.pr.runInCur = true → start = s.pr.runStart) := by
    by_cases h0 : s.pr.runLen = 0
    · exact ⟨s.pr.curPos, fun _ => rfl, by rw [if_pos h0], fun hr => by
        have := (h.runCur hr).2.1
        omega⟩
    · have hr := hrun.resolve_left h0
      exact ⟨s.pr.runStart, fun hx => absurd hx h0, by rw [if_neg h0, ← hr], fun _ => rfl⟩
  obtain ⟨hpr, hsame⟩ := hpr
  have hlow : low s.pr ≤ start := by
    unfold low
    by_cases hr : s.pr.runInCur = true
    · exact Nat.le_of_eq (by rw [if_pos hr, hsame hr])
    · exact Nat.le_of_eq (by rw [if_neg hr, hstart (hrun.resolve_right hr)])
  have hnot : begun = false → s.pr.hasPinned = false := fun hb => by
    by_contra hp
    rw [Bool.not_eq_false] at hp
    obtain ⟨h1, h2⟩ := hs hb hp
    rcases hrun with hx | hx
    · omega
    · rw [h1] at hx
      cases hx
  unfold keepInPlace grow
  rw [hpr]
  dsimp only
  refine ⟨⟨fun h1 h2 => ?_, fun x hx => ?_, fun x hx => ?_⟩, fun hb => ?_⟩
  · rw [hnot h1] at h2
    cases h2
  · refine hx.congr (Nat.le_refl _) rfl rfl (fun hx => ⟨hx, ?_⟩) fun hx => ⟨rfl, rfl, hsame hx, ?_⟩
    · exact hlow
    · exact Nat.le_add_right _ _
  · obtain ⟨p, m⟩ := x
    cases p with
    | null => rfl
    | buf off => rfl
    | kernel id off =>
      simp only [bytes]
      split
      · by_cases hid : id = s.pr.cur.bufId
        · subst hid
          rw [Function.update_self]
          refine read_write_below _ _ ?_
          rcases hx with ⟨h1, h2, h3⟩ | ⟨h1, h2, h3, h4⟩
          · cases hp : s.pr.curIsPinned with
            | false => exact absurd h2.symm (hd hc h1 hp)
            | true =>
              have : off + m ≤ low s.pr := h3 hp
              omega
          · have : off + m ≤ s.pr.runStart + s.pr.runLen := h4
            rw [hsame h2]
            exact this
        · rw [Function.update_of_ne hid]
      · rfl
  · refine .inr ⟨hb, rfl, rfl, ?_⟩
    show start + s.pr.runLen + n ≤ start + (s.pr.runLen + n)
    omega

theorem keep_guards (h : s.pr.Ok) (hd : Distinct s.pr) (hs : Single begun s.pr) (n : Nat) :
    Guards begun begun s (keep s n).2 ∧
      (begun = false → 0 < n → (keep s n).1 ≠ .null → Safe begun (keep s n).2.pr ⟨(keep s n).1, n⟩) := by
  by_cases hgt : n > (liveSpan s.pr).len
  · simp only [keep, hgt, if_true]
    exact ⟨.refl hs, fun _ _ hx => absurd rfl hx⟩
  by_cases h0 : n = 0
  · simp only [keep, h0, if_true]
    exact ⟨by simpa using .refl hs, fun _ hx => by omega⟩
  have hn : 0 < n := by omega
  -- what is placed at a pointer is then consumed
  have hend {p : Ptr} {t : Reader} (hp : Holds begun s n p (t.grow n)) (hne : p ≠ .null)
      (hrun : (t.grow n).pr.runInCur = true → 0 < (t.grow n).pr.runLen) :
      let r := if p = .null then (Ptr.null, t) else (p, (t.grow n).consume n)
      Guards begun begun s r.2 ∧
        (begun = false → 0 < n → r.1 ≠ .null → Safe begun r.2.pr ⟨r.1, n⟩) := by
    rw [if_neg hne]
    have hg := consume_guards hrun hp.guards.single n
    exact ⟨hp.guards.trans hg, fun hb _ _ => hg.safe _ (hp.fresh hb)⟩
  have hgrow (t : Reader) (_ : (t.grow n).pr.runInCur = true) : 0 < (t.grow n).pr.runLen := by
    simp only [grow]
    omega
  simp only [keep, hgt, h0, if_false]
  by_cases hb : s.pr.liveInBuf = true
  · rw [if_pos hb]
    exact hend (keepInBuf_holds h hb hn) (by simp [keepInBuf]) (hgrow _)
  have hnb : ¬ s.pr.liveInBuf = true := hb
  rw [if_neg hnb]
  by_cases hc : s.pr.hasCur = true
  · by_cases hrun : s.pr.runLen = 0 ∨ s.pr.runInCur = true
    · have hin : s.pr.hasCur = true ∧ (s.pr.runLen = 0 ∨ s.pr.runInCur = true) := ⟨hc, hrun⟩
      rw [if_pos hin]
      exact hend (keepInPlace_holds h hc hrun hd hs n) (by simp [keepInPlace]) (hgrow _)
    · have hout : ¬ (s.pr.hasCur = true ∧ (s.pr.runLen = 0 ∨ s.pr.runInCur = true)) :=
        fun hin => hrun hin.2
      rw [if_neg hout, if_pos hc]
      obtain ⟨hlen, hr⟩ : 0 < s.pr.runLen ∧ s.pr.runInCur = false := by
        simp only [not_or, Bool.not_eq_true] at hrun
        exact ⟨by omega, hrun.2⟩
      by_cases hroom : s.pr.floor + n ≤ s.pr.cap
      · refine hend (keepAcross_holds hr hlen hroom) ?_ (hgrow _)
        simp [keepAcross, show ¬ s.pr.cap < s.pr.floor + n by omega]
      · have hk : keepAcross s n = (.null, { s with pr := { s.pr with error := some .full } }) := by
          simp [keepAcross, show s.pr.cap < s.pr.floor + n by omega]
        simp only [hk, if_true]
        refine ⟨⟨hs, fun x hx => ?_, bytes_frame rfl fun _ _ _ => rfl⟩, fun _ _ hx => absurd rfl hx⟩
        exact hx.congr (Nat.le_refl _) rfl rfl (fun hx => ⟨hx, Nat.le_refl _⟩)
          fun hx => ⟨hx, rfl, rfl, Nat.le_refl _⟩
  · have hout : ¬ (s.pr.hasCur = true ∧ (s.pr.runLen = 0 ∨ s.pr.runInCur = true)) :=
      fun hin => hc hin.1
    rw [if_neg hout, if_neg hc, if_pos rfl]
    exact ⟨.refl hs, fun _ _ hx => absurd rfl hx⟩

-- ---------------------------------------------------------------------------
-- Freezing the run, releasing, injecting
-- ---------------------------------------------------------------------------

/-- The one `run_begin`: a run in the current buffer leaves it pinned. -/
theorem runBegin_guards (h : s.pr.Ok) (hs : Single false s.pr) :
    Guards false true s (runBegin s) := by
  have hend {t : Reader} (hg : Guards false true s t) (hr : t.pr.runInCur = false) :
      Guards false true s (curDone t) :=
    hg.trans (curDone_guards (fun hx => absurd (hr.symm.trans hx) (by simp)) hg.single)
  unfold runBegin
  by_cases hr : s.pr.runInCur = true ∧ s.pr.runLen ≠ 0
  · obtain ⟨hc, hlen, hle⟩ := h.runCur hr.1
    have hp : s.pr.hasPinned = false := by
      by_contra hp
      rw [Bool.not_eq_false] at hp
      have := (hs rfl hp).1
      rw [hr.1] at this
      cases this
    rw [if_pos hr, if_neg (by simp [hp])]
    refine hend ⟨fun hb => by simp at hb, fun x hx => ?_, bytes_frame rfl fun _ _ _ => rfl⟩ rfl
    obtain ⟨p, m⟩ := x
    cases p with
    | null => exact hx
    | buf off => exact hx
    | kernel id off =>
      rcases hx with ⟨h1, -⟩ | ⟨-, -, h3, h4⟩
      · rw [hp] at h1
        cases h1
      · refine .inl ⟨rfl, h3, fun _ => ?_⟩
        have h4 : off + m ≤ s.pr.runStart + s.pr.runLen := h4
        show off + m ≤ s.pr.curPos
        omega
  · rw [if_neg hr]
    have hcur : s.pr.runInCur = false := by
      by_contra hx
      rw [Bool.not_eq_false] at hx
      exact hr ⟨hx, by have := (h.runCur hx).2.1; omega⟩
    refine hend ⟨fun hb => by simp at hb, fun x hx => ?_, bytes_frame rfl fun _ _ _ => rfl⟩ rfl
    obtain ⟨p, m⟩ := x
    cases p with
    | null => exact hx
    | buf off => exact hx
    | kernel id off =>
      rcases hx with ⟨h1, h2, h3⟩ | ⟨-, h2, -⟩
      · refine .inl ⟨h1, h2, fun hx => ?_⟩
        have := h3 hx
        rw [low, hcur] at this
        exact this
      · rw [hcur] at h2
        cases h2

/-- A run that leaves the current buffer pins it, and needs no room. -/
theorem runBegin_error (hs : Single false s.pr) : (runBegin s).pr.error = s.pr.error := by
  have hpin (hr : s.pr.runInCur = true) : s.pr.hasPinned = false := by
    by_contra hp
    have := (hs rfl (by simpa using hp)).1
    simp [hr] at this
  unfold runBegin
  simp only
  rw [curDone_error]
  grind

theorem release_single (s : Reader) : Single false (release s).pr := by
  have hp : (release s).pr.hasPinned = false := by
    rw [release_eq]
    rcases curDone_cases (unpin (settle s)) with hd | ⟨-, -, -, hd⟩ <;> rw [hd] <;>
      simp only [unpin] <;> grind
  intro _ hx
  rw [hp] at hx
  cases hx

theorem inject_guards (h : s.pr.Ok) (hs : Single begun s.pr) (data : List Byte) :
    Guards begun begun s (inject s data).2 := by
  -- behind the live bytes, wherever they are now
  have hlast {t : Reader} (hg : Guards begun begun s t) (hok : t.pr.Ok)
      (hb : t.pr.liveInBuf = true) :
      Guards begun begun s (
        let t := if t.pr.bufEnd + data.length > t.pr.cap then t.compact else t
        if t.pr.bufEnd + data.length > t.pr.cap then (false, t)
        else
          (true, { t with pr := { t.pr with
            buf := t.pr.buf.write t.pr.bufEnd data
            bufEnd := t.pr.bufEnd + data.length } })).2 := by
    obtain ⟨u, hu, hgu, hf⟩ : ∃ u : Reader,
        (if t.pr.bufEnd + data.length > t.pr.cap then t.compact else t) = u ∧
        Guards begun begun t u ∧ u.pr.floor ≤ u.pr.bufEnd := by
      refine ⟨_, rfl, ?_⟩
      split
      · exact ⟨compact_guards hg.single, compact_inBuf hok hb⟩
      · have := hok.inBuf hb
        exact ⟨.refl hg.single, by omega⟩
    simp only [hu]
    split
    · exact hg.trans hgu
    · exact (hg.trans hgu).trans (write_guards hgu.single hf _ _ _)
  unfold inject
  split
  · exact .refl hs
  by_cases hb : s.pr.liveInBuf = true
  · rw [if_pos hb]
    simpa using hlast (.refl hs) h hb
  have hbf : s.pr.liveInBuf = false := by simpa using hb
  rw [if_neg hb]
  by_cases hc : s.pr.hasCur = true
  · rw [if_pos hc]
    have hg : Guards begun begun s (gather s).2 := gather_guards h hc hs
    cases hok : (gather s).1 with
    | false =>
      simp only [hok]
      simpa using hg
    | true =>
      obtain ⟨he, hgb⟩ := gather_effect h hbf hc hok
      simp only [hok]
      simpa using hlast hg he.ok hgb
  · rw [if_neg hc]
    have hr : s.pr.runInCur = false := by have := h.runCur; grind
    have hg : Guards begun begun s { s with pr := { s.pr with
        bufPos := s.pr.floor, bufEnd := s.pr.floor, liveInBuf := true } } := by
      refine ⟨hs, fun x hx => ?_, bytes_frame rfl fun _ _ _ => rfl⟩
      exact hx.congr (Nat.le_refl _) rfl rfl (fun hx => ⟨hx, Nat.le_refl _⟩)
        fun hx => ⟨hx, rfl, rfl, Nat.le_refl _⟩
    have hok : Pipereader.Ok { s.pr with
        bufPos := s.pr.floor, bufEnd := s.pr.floor, liveInBuf := true } := by
      obtain ⟨h1, h2, h3, h4, h5, h6, h7⟩ := h
      constructor <;> grind
    simpa using hlast hg hok rfl

end Reader

end Ioxd.Pipe
