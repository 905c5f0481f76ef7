import Ioxd.Tls.Handover

/-!
# What the hand-over leaves in the reader

A record is taken whole, from what was delivered and then from the socket. The
drain ends when nothing delivered is left, or behind a `close_notify`; then what
was delivered behind that is still in the reader, in front of the plaintext.
-/

namespace Ioxd.Tls

open Ioxd.Pipe

variable {f t : Feed} {w w' : Inbound} {rec ext bytes : List Byte} {need turns : Nat}

-- ---------------------------------------------------------------------------
-- The reader of the prologue
-- ---------------------------------------------------------------------------

/-- A reader that has met neither an error nor the end, and is read from its
first live byte. -/
structure Reading (f : Feed) : Prop where
  ok : f.Ok
  error : f.view.error = none
  eof : f.view.eof = false
  examined : f.view.examined = 0

theorem Reading.grew {d : List Byte} (h : Reading f) (hg : Feed.Grew f t d) : Reading t := by
  refine ⟨hg.ok, ?_, ?_, ?_⟩
  · rw [hg.view]
    exact h.error
  · rw [hg.view]
    exact h.eof
  · rw [hg.view]
    exact h.examined

theorem Reading.drop (h : Reading f) (n : Nat) : Reading (f.drop n) := by
  have hs := Feed.drop_stays h.ok n
  refine ⟨hs.ok, ?_, ?_, ?_⟩
  · rw [hs.view]
    exact h.error
  · rw [hs.view]
    exact h.eof
  · rw [hs.view]
    simp [View.consume, h.examined]

/-- With the recv stopped, what was delivered is all there is. -/
structure Paused (f : Feed) : Prop extends Reading f where
  script : f.script = []

theorem Paused.stream_eq (h : Paused f) : f.stream = f.live ++ f.rx.flatMap (·.data) := by
  simp [Feed.stream, Feed.coming, h.script, Feed.arrivals]

theorem wait_paused (h : f.script = []) : Feed.wait f.script f = f := by
  rw [h]
  simp only [Feed.wait]
  rw [← h]

theorem more_paused (h : Paused f) (hrx : f.rx ≠ []) :
    f.more.1 ≠ .ended ∧ f.more.2.script = [] := by
  have heof : f.pr.eof = false := h.eof
  obtain ⟨d, rest, hr⟩ := List.exists_cons_of_ne_nil hrx
  have hitem : f.recvItem = (some d.item, { f with rx := rest, taken := f.taken ++ d.data }) := by
    unfold Feed.recvItem
    simp only [wait_paused h.script, hr]
  unfold Feed.more
  simp only [heof, Bool.false_eq_true, if_false, hitem]
  refine ⟨?_, h.script⟩
  split <;> simp

theorem avail_paused (h : Paused f) :
    (f.stream = [] ∧ f.avail = (.ended, f)) ∨
    (∃ t d, f.avail = (.some, t) ∧ Feed.Grew f t d ∧ t.script = [] ∧ t.live ≠ []) ∨
    ∃ e t, f.avail = (.error e, t) := by
  have herr : f.pr.error = none := h.error
  have hex : f.pr.examined = 0 := h.examined
  unfold Feed.avail
  simp only [herr]
  unfold Feed.availLoop
  by_cases hl : f.live = []
  · have hlen : ¬ f.live.length > f.pr.examined := by simp [hl]
    rw [if_neg hlen]
    by_cases hrx : f.rx = []
    · refine .inl ⟨?_, by rw [if_pos hrx]⟩
      rw [h.stream_eq, hl, hrx]
      rfl
    · rw [if_neg hrx]
      obtain ⟨hne, hscript⟩ := more_paused h hrx
      have hm := Feed.more_outcome h.ok
      generalize hf : f.more = m at hm hne hscript
      cases hm with
      | @some t d hg hd =>
        have hlt := hg.spent hd
        obtain ⟨k, hk⟩ : ∃ k, f.left = k + 1 := ⟨f.left - 1, by omega⟩
        have hlive : t.live ≠ [] := by
          rw [hg.live]
          simp [hd]
        have hpos : t.live.length > t.pr.examined := by
          have hz : t.pr.examined = 0 := (h.grew hg).examined
          rw [hz]
          exact List.length_pos_iff.mpr hlive
        refine .inr (.inl ⟨t, d, ?_, hg, hscript, hlive⟩)
        simp only [hk]
        unfold Feed.availLoop
        rw [if_pos hpos]
      | ended => exact absurd rfl hne
      | @error t e => exact .inr (.inr ⟨e, t, rfl⟩)
  · have hlen : f.live.length > f.pr.examined := by
      rw [hex]
      exact List.length_pos_iff.mpr hl
    rw [if_pos hlen]
    exact .inr (.inl ⟨f, [], rfl, .refl h.ok, h.script, hl⟩)

-- ---------------------------------------------------------------------------
-- One record
-- ---------------------------------------------------------------------------

/-- What is there of a record, and how long it is to be as far as is known. -/
structure Begun (rec : List Byte) (need : Nat) : Prop where
  fits : rec.length ≤ need
  known : need = 5 ∧ rec.length < 5 ∨ 5 ≤ rec.length ∧ need = recordLen rec ∧ need ≤ recordMax

theorem Begun.limit (h : Begun rec need) : need ≤ recordMax := by
  have hmax : 5 ≤ recordMax := by decide
  rcases h.known with ⟨h5, -⟩ | ⟨-, -, hle⟩ <;> omega

theorem Begun.whole (h : Begun rec need) (hn : ¬ rec.length < need) : Whole rec := by
  have hf := h.fits
  rcases h.known with ⟨h5, hlt⟩ | ⟨h5, hlen, hle⟩
  · omega
  · exact ⟨by omega, h5, by omega⟩

theorem Begun.more {need' : Nat} (h : Begun rec need) (hfit : (rec ++ bytes).length ≤ need)
    (hn : needed (rec ++ bytes) need = some need') : Begun (rec ++ bytes) need' := by
  unfold needed at hn
  split at hn
  · rename_i h5
    split at hn
    · cases hn
    · obtain rfl := Option.some.inj hn
      have hge := recordLen_ge (rec ++ bytes)
      exact ⟨by omega, .inr ⟨by omega, rfl, by omega⟩⟩
  · rename_i h5
    obtain rfl := Option.some.inj hn
    refine ⟨hfit, ?_⟩
    rcases h.known with ⟨h5', hlt⟩ | ⟨hge, hlen, hle⟩
    · exact .inl ⟨h5', by omega⟩
    · refine .inr ⟨?_, ?_, hle⟩
      · rw [List.length_append]
        omega
      · rw [recordLen_append hge]
        exact hlen

/-- Bytes taken from what was delivered, and from the socket once that is all
gone. -/
structure Gave (w w' : Inbound) (gone : List Byte) : Prop where
  paused : Paused w'.feed
  bytes : w.feed.stream ++ w.sock = gone ++ (w'.feed.stream ++ w'.sock)
  order : ∃ tail, w.sock = tail ++ w'.sock ∧ (tail = [] ∨ w'.feed.stream = [])

theorem Gave.trans {w'' : Inbound} {gone gone' : List Byte} (h : Gave w w' gone)
    (h' : Gave w' w'' gone') : Gave w w'' (gone ++ gone') := by
  obtain ⟨x, hx, hox⟩ := h.order
  obtain ⟨y, hy, hoy⟩ := h'.order
  refine ⟨h'.paused, ?_, x ++ y, ?_, ?_⟩
  · rw [h.bytes, h'.bytes, List.append_assoc]
  · rw [hx, hy, List.append_assoc]
  · -- once the reader is empty it stays so
    rcases hoy with rfl | hoy
    · rcases hox with rfl | hox
      · exact .inl rfl
      · refine .inr ?_
        have hb := h'.bytes
        rw [hox, hy] at hb
        have hlen := congrArg List.length hb
        simp only [List.length_append, List.length_nil] at hlen
        exact List.length_eq_zero_iff.mp (by omega)
    · exact .inr hoy

theorem Gave.live {d : List Byte} (h : Paused w.feed) (hg : Feed.Grew w.feed t d)
    (hs : t.script = []) (k : Nat) :
    Gave w { w with feed := t.drop k } (t.live.take k) := by
  have hr := (h.toReading.grew hg).drop k
  have hm := hg.moved.trans (Feed.drop_moved hg.ok k)
  refine ⟨⟨hr, hs⟩, ?_, [], rfl, .inl rfl⟩
  rw [hm.stream, List.nil_append, List.append_assoc]

theorem Gave.exact (h : Paused w.feed) (hs : w.feed.stream = []) (n : Nat) :
    Gave w ⟨w.feed, w.sock.drop n⟩ (w.sock.take n) := by
  refine ⟨h, ?_, w.sock.take n, ?_, .inr hs⟩
  · rw [hs, List.nil_append, List.nil_append, List.take_append_drop]
  · rw [List.take_append_drop]

inductive TakeOutcome (w : Inbound) (rec : List Byte) : Took × Inbound → Prop
  | nothing : rec = [] → w.feed.stream = [] → TakeOutcome w rec (.nothing, w)
  | record {w' : Inbound} {ext : List Byte} : Gave w w' ext → Whole (rec ++ ext) →
      TakeOutcome w rec (.record (rec ++ ext), w')
  | failed {w' : Inbound} : TakeOutcome w rec (.failed, w')

theorem TakeOutcome.after {r : Took × Inbound} (hg : Gave w w' bytes) (hb : bytes ≠ [])
    (h : TakeOutcome w' (rec ++ bytes) r) : TakeOutcome w rec r := by
  cases h with
  | nothing hr _ => simp [hb] at hr
  | record hg' hw =>
    rw [List.append_assoc] at hw ⊢
    exact .record (hg.trans hg') hw
  | failed => exact .failed

theorem takeLoop_outcome (h : Paused w.feed) (hb : Begun rec need)
    (hn : recordMax < turns + rec.length) : TakeOutcome w rec (takeLoop true turns w rec need) := by
  induction turns generalizing w rec need with
  | zero =>
    have hf := hb.fits
    have hl := hb.limit
    omega
  | succ turns ih =>
    unfold takeLoop
    by_cases hlt : rec.length < need
    · simp only [if_pos hlt, if_true]
      rcases avail_paused h with ⟨hs, ha⟩ | ⟨t, d, ha, hg, hscript, hlive⟩ | ⟨e, t, ha⟩
      · -- nothing delivered is left
        simp only [ha]
        by_cases hr : rec = []
        · simp only [not_true, if_false, if_pos hr]
          exact .nothing hr hs
        · simp only [not_true, if_false, if_neg hr, recvExact]
          by_cases hsock : need - rec.length ≤ w.sock.length
          · have hlen : (w.sock.take (need - rec.length)).length = need - rec.length :=
              List.length_take_of_le hsock
            have hne : w.sock.take (need - rec.length) ≠ [] := by
              rw [← List.length_pos_iff]
              omega
            simp only [if_pos hsock]
            split
            · exact .failed
            · rename_i need' hneed
              have hfit : (rec ++ w.sock.take (need - rec.length)).length ≤ need := by
                rw [List.length_append]
                omega
              refine .after (.exact h hs _) hne (ih h (hb.more hfit hneed) ?_)
              rw [List.length_append]
              omega
          · simp only [if_neg hsock]
            exact .failed
      · simp only [ha]
        have hpos := List.length_pos_iff.mpr hlive
        have hlen : (t.live.take (min t.live.length (need - rec.length))).length =
            min t.live.length (need - rec.length) := by
          rw [List.length_take]
          omega
        have hne : t.live.take (min t.live.length (need - rec.length)) ≠ [] := by
          rw [← List.length_pos_iff]
          omega
        have hgave := @Gave.live t w d h hg hscript (min t.live.length (need - rec.length))
        split
        · exact .failed
        · rename_i need' hneed
          have hfit : (rec ++ t.live.take (min t.live.length (need - rec.length))).length ≤ need := by
            rw [List.length_append]
            omega
          refine .after hgave hne (ih hgave.paused (hb.more hfit hneed) ?_)
          rw [List.length_append]
          omega
      · simp only [ha]
        exact .failed
    · simp only [if_neg hlt]
      have hrec : TakeOutcome w rec (.record (rec ++ []), w) := by
        refine .record ⟨h, rfl, [], rfl, .inl rfl⟩ ?_
        rw [List.append_nil]
        exact hb.whole hlt
      rwa [List.append_nil] at hrec

theorem takeRecord_outcome (h : Paused w.feed) : TakeOutcome w [] (takeRecord true w) :=
  takeLoop_outcome h ⟨by simp, .inl ⟨rfl, by simp⟩⟩ (by simp)

-- ---------------------------------------------------------------------------
-- The drain
-- ---------------------------------------------------------------------------

variable {ssl : List (List Byte) → Verdict} {s s' : Drain}

/-- What `drain_records` has done when it succeeds. -/
structure Drained (ssl : List (List Byte) → Verdict) (s s' : Drain) (recs : List (List Byte)) :
    Prop where
  gave : Gave s.inbound s'.inbound recs.flatten
  taken : s'.taken = s.taken ++ recs
  records : s'.records = s.records + recs.length
  plain : s'.plain = s.plain ++ plains ssl s.taken recs
  whole : ∀ rec ∈ recs, Whole rec
  empty : s'.inbound.feed.stream = [] ↔
    ∀ n, closeEnd ssl s.taken (s.inbound.feed.stream ++ s.inbound.sock) = some n →
      s.inbound.feed.stream.length ≤ n

theorem Gave.left {gone : List Byte} (h : Gave w w' gone) :
    w'.feed.stream.length = w.feed.stream.length - gone.length ∧
      (w'.feed.stream ≠ [] → gone.length ≤ w.feed.stream.length) := by
  obtain ⟨tail, ht, ho⟩ := h.order
  have hb := congrArg List.length h.bytes
  have hs := congrArg List.length ht
  simp only [List.length_append] at hb hs
  rcases ho with rfl | hnil
  · simp only [List.length_nil] at hs
    omega
  · rw [hnil] at hb ⊢
    simp only [List.length_nil] at hb ⊢
    exact ⟨by omega, fun hne => absurd rfl hne⟩

theorem Gave.refl (h : Paused w.feed) : Gave w w [] := ⟨h, rfl, [], rfl, .inl rfl⟩

theorem Drained.after {s₁ : Drain} {recs : List (List Byte)} (hg : Gave s.inbound s₁.inbound rec)
    (hw : Whole rec) (hk : s₁.taken = s.taken ++ [rec]) (hr : s₁.records = s.records + 1)
    (hp : s₁.plain = s.plain ++ (ssl (s.taken ++ [rec])).bytes)
    (hv : ssl (s.taken ++ [rec]) ≠ .closeNotify) (h : Drained ssl s₁ s' recs) :
    Drained ssl s s' (rec :: recs) := by
  refine ⟨?_, ?_, ?_, ?_, ?_, ?_⟩
  · rw [List.flatten_cons]
    exact hg.trans h.gave
  · rw [h.taken, hk, List.append_assoc]
    rfl
  · rw [h.records, hr, List.length_cons]
    omega
  · rw [h.plain, hp, hk, plains, List.append_assoc]
  · intro r hm
    rcases List.mem_cons.mp hm with rfl | hm
    · exact hw
    · exact h.whole r hm
  · obtain ⟨hleft, hle⟩ := hg.left
    have hce : closeEnd ssl s.taken (s.inbound.feed.stream ++ s.inbound.sock) =
        (closeEnd ssl s₁.taken (s₁.inbound.feed.stream ++ s₁.inbound.sock)).map
          (rec.length + ·) := by
      rw [hg.bytes, closeEnd_whole hw, hk]
      split
      · rename_i hc
        exact absurd hc hv
      · rfl
    rw [h.empty, hce]
    simp only [Option.map_eq_some_iff]
    constructor
    · rintro hall n ⟨m, hm, rfl⟩
      have := hall m hm
      omega
    · intro hall m hm
      have := hall _ ⟨m, hm, rfl⟩
      omega

theorem drainLoop_drained (h : Paused s.inbound.feed) (hd : drainLoop ssl turns s = some s') :
    ∃ recs, Drained ssl s s' recs := by
  induction turns generalizing s with
  | zero => cases hd
  | succ turns ih =>
    unfold drainLoop at hd
    have ho := takeRecord_outcome h
    generalize takeRecord true s.inbound = r at ho hd
    cases ho with
    | nothing _ hs =>
      obtain rfl := Option.some.inj hd
      refine ⟨[], .refl h, by simp, by simp, by simp [plains], by simp, ?_⟩
      simp [hs]
    | failed => cases hd
    | @record w' rec hg hw =>
      rw [List.nil_append] at hw hd
      simp only at hd
      split at hd
      · cases hd
      split at hd
      · cases hd
      cases hv : ssl (s.taken ++ [rec]) with
      | plain data =>
        simp only [hv] at hd
        split at hd
        · cases hd
        · obtain ⟨recs, hrecs⟩ := ih hg.paused hd
          exact ⟨rec :: recs, hrecs.after hg hw rfl rfl (by rw [hv]; rfl) (by simp [hv])⟩
      | closeNotify =>
        simp only [hv] at hd
        obtain rfl := Option.some.inj hd
        refine ⟨[rec], ?_, rfl, rfl, ?_, by simpa using hw, ?_⟩
        · simpa using hg
        · simp [plains, hv, Verdict.bytes]
        · obtain ⟨hleft, hle⟩ := hg.left
          rw [hg.bytes, closeEnd_whole hw, hv]
          simp only [Option.some.injEq]
          rw [← List.length_eq_zero_iff, hleft]
          constructor
          · rintro h0 n rfl
            omega
          · intro hall
            have := hall _ rfl
            omega
      | wants =>
        simp only [hv] at hd
        obtain ⟨recs, hrecs⟩ := ih hg.paused hd
        exact ⟨rec :: recs, hrecs.after hg hw rfl rfl (by simp [hv, Verdict.bytes]) (by simp [hv])⟩
      | answers =>
        simp only [hv] at hd
        cases hd
      | error =>
        simp only [hv] at hd
        cases hd

-- ---------------------------------------------------------------------------
-- The handshake before it
-- ---------------------------------------------------------------------------

theorem takeLoop_reading (h : Reading w.feed)
    (hr : takeLoop false turns w rec need = (.record bytes, w')) : Reading w'.feed := by
  induction turns generalizing w rec need with
  | zero =>
    unfold takeLoop at hr
    simp at hr
  | succ turns ih =>
    unfold takeLoop at hr
    split at hr
    · simp only [Bool.false_eq_true, if_false] at hr
      have ho := Feed.read_outcome h.ok
      generalize w.feed.read = r at ho hr
      cases ho with
      | some hg _ =>
        simp only at hr
        split at hr
        · simp at hr
        · exact ih ((h.grew hg).drop _) hr
      | ended => simp at hr
      | error => simp at hr
    · obtain ⟨-, rfl⟩ := Prod.mk.inj hr
      exact h

theorem shakeLoop_reading {world : World} {fed : List (List Byte)} (h : Reading w.feed)
    (hs : shakeLoop world turns w fed = some w') : Reading w'.feed := by
  induction turns generalizing w fed with
  | zero => cases hs
  | succ turns ih =>
    unfold shakeLoop at hs
    split at hs
    · cases hs
    split at hs
    · obtain rfl := Option.some.inj hs
      exact h
    · cases hs
    · split at hs
      · rename_i rec w₁ ht
        exact ih (takeLoop_reading h ht) hs
      · cases hs

theorem landing_reading (h : Reading f) (n : Nat) : Reading (landing n f) := by
  induction n generalizing f with
  | zero => exact h
  | succ n ih =>
    obtain ⟨hq, -⟩ := Feed.tick_quiet h.ok
    refine ih ⟨hq.ok, ?_, ?_, ?_⟩
    · rw [hq.view]
      exact h.error
    · rw [hq.view]
      exact h.eof
    · rw [hq.view]
      exact h.examined

theorem shaken_paused {world : World} (h : Reading f) (hs : shaken world turns f = some w) :
    Paused w.feed := by
  unfold shaken at hs
  obtain ⟨w₁, h₁, hs⟩ := Option.bind_eq_some_iff.mp hs
  split at hs
  · cases hs
  · have hr := landing_reading (shakeLoop_reading (w := ⟨f, []⟩) h h₁) world.land
    unfold pause at hs
    simp only at hs
    split at hs
    · cases hs
    · obtain rfl := Option.some.inj hs
      exact ⟨⟨⟨hr.ok.reader, hr.ok.own, hr.ok.nodup, hr.ok.queued⟩, hr.error, hr.eof, hr.examined⟩,
        rfl⟩

theorem init_reading (buf : Flat.Mem Byte) (cap : Nat) (slab : Nat → Flat.Mem Byte)
    (script : List Event) : Reading (Feed.init buf cap slab script) :=
  ⟨Feed.init_ok buf cap slab script, rfl, rfl, rfl⟩

-- ---------------------------------------------------------------------------
-- What is handed over
-- ---------------------------------------------------------------------------

/-- The hand-over as it should be: what is live, and all that was delivered, is
what OpenSSL made of the records taken; the sequence number is their count, and
the socket goes on behind the last of them. -/
structure Clean (ssl : List (List Byte) → Verdict) (w : Inbound) (r : Handed) : Prop where
  live : r.feed.live = plains ssl [] r.taken
  delivered : r.feed.stream = plains ssl [] r.taken
  seq : r.seq = r.taken.length
  whole : ∀ rec ∈ r.taken, Whole rec
  boundary : w.feed.stream ++ w.sock = r.taken.flatten ++ r.sock

/-- The plaintext goes behind what is live, and in front of what is queued. -/
theorem handOver_spec {world : World} {r : Handed} (h : Paused w.feed)
    (hr : handOver world w = some r) : ∃ s recs, Drained world.ssl ⟨w, [], 0, []⟩ s recs ∧
      r.sock = s.inbound.sock ∧ r.seq = s.records ∧ r.taken = s.taken ∧
      r.feed.live = s.inbound.feed.live ++ s.plain ∧ r.feed.coming = s.inbound.feed.coming := by
  unfold handOver at hr
  obtain ⟨s, hs, hr⟩ := Option.bind_eq_some_iff.mp hr
  obtain ⟨recs, hd⟩ := drainLoop_drained (s := ⟨w, [], 0, []⟩) h hs
  refine ⟨s, recs, hd, ?_⟩
  simp only at hr
  split at hr
  · cases hr
  split at hr
  · rename_i hp
    split at hr
    · obtain rfl := Option.some.inj hr
      exact ⟨rfl, rfl, rfl, by simp [hp], rfl⟩
    · cases hr
  · split at hr
    · rename_i hok
      obtain rfl := Option.some.inj hr
      obtain ⟨hok, -⟩ := Bool.and_eq_true_iff.mp hok
      have he := Reader.inject_effect hd.gave.paused.ok.reader s.plain
      have hin : (s.inbound.feed.toReader.inject s.plain).1 = true := hok
      rw [if_pos hin] at he
      exact ⟨rfl, rfl, rfl, congrArg View.live he.view, rfl⟩
    · cases hr

/-- When the prologue succeeds, the hand-over is as it should be exactly if no
byte was delivered behind a `close_notify`. -/
theorem handover_clean {world : World} {r : Handed} {buf : Flat.Mem Byte} {cap : Nat}
    {slab : Nat → Flat.Mem Byte} {script : List Event}
    (hs : shaken world turns (.init buf cap slab script) = some w)
    (hr : handOver world w = some r) :
    Clean world.ssl w r ↔ ∀ n, closeEnd world.ssl [] (w.feed.stream ++ w.sock) = some n →
      w.feed.stream.length ≤ n := by
  have hp := shaken_paused (init_reading buf cap slab script) hs
  obtain ⟨s, recs, hd, hsock, hseq, htaken, hlive, hcoming⟩ := handOver_spec hp hr
  have hrecs : r.taken = recs := htaken.trans hd.taken
  have hplain : s.plain = plains world.ssl [] recs := hd.plain
  rw [← hd.empty]
  constructor
  · intro hc
    have h1 := hc.live
    have h2 := hc.delivered
    rw [hlive, hrecs, hplain, List.append_left_eq_self] at h1
    rw [Feed.stream, hc.live, hcoming, List.append_right_eq_self] at h2
    rw [Feed.stream, h1, h2]
    rfl
  · intro hnil
    have hboth := List.append_eq_nil_iff.mp hnil
    have hl : r.feed.live = plains world.ssl [] r.taken := by
      rw [hlive, hboth.1, hrecs, hplain, List.nil_append]
    refine ⟨hl, ?_, ?_, ?_, ?_⟩
    · rw [Feed.stream, hcoming, hboth.2, List.append_nil, hl]
    · rw [hseq, hd.records, hrecs]
      exact Nat.zero_add _
    · rw [hrecs]
      exact hd.whole
    · rw [hd.gave.bytes, hnil, List.nil_append, hrecs, hsock]

def helloRecord : List Byte := [22, 3, 1, 0, 1, 9]

def dataRecord : List Byte := [23, 3, 3, 0, 1, 7]

def closeRecord : List Byte := [23, 3, 3, 0, 1, 0]

/-- A handshake of one record, behind which OpenSSL reads a `close_notify` and
everything else as two bytes. -/
def smallWorld : World where
  shake := fun fed => if fed = [] then .wants else .done
  sends := fun _ => true
  secrets := true
  land := 0
  ssl := fun fed => if fed.getLast? = some closeRecord then .closeNotify else .plain [104, 105]
  kernel := true
  resumes := true

def smallFeed (script : List Event) : Feed := .init (fun _ => 0) 64 (fun _ _ => 0) script

/-- A run of the prologue, by what can be seen of its two states. -/
theorem prologue_run {script : List Event} {d sock live : List Byte} {taken : List (List Byte)}
    (h : ((shaken smallWorld 2 (smallFeed script)).bind fun w => (handOver smallWorld w).map fun r =>
      (w.feed.stream, w.sock, r.feed.live, r.taken)) = some (d, sock, live, taken)) :
    ∃ w r, shaken smallWorld 2 (smallFeed script) = some w ∧ handOver smallWorld w = some r ∧
      w.feed.stream = d ∧ w.sock = sock ∧ r.feed.live = live ∧ r.taken = taken := by
  obtain ⟨w, hw, hr⟩ := Option.bind_eq_some_iff.mp h
  obtain ⟨r, hr, he⟩ := Option.map_eq_some_iff.mp hr
  simp only [Prod.mk.injEq] at he
  exact ⟨w, r, hw, hr, he⟩

/-- A record of which the second half is still in the socket. -/
theorem handover_clean_split : ∃ w r, handOver smallWorld w = some r ∧
    r.feed.live = [104, 105] ∧ Clean smallWorld.ssl w r := by
  obtain ⟨w, r, hw, hr, hd, hk, hl, -⟩ := @prologue_run
    [.deliver 0 (helloRecord ++ dataRecord.take 3), .deliver 1 (dataRecord.drop 3)]
    (dataRecord.take 3) (dataRecord.drop 3) [104, 105] [dataRecord] (by decide +kernel)
  refine ⟨w, r, hr, hl, (handover_clean hw hr).mpr fun n hn => ?_⟩
  have hbytes : w.feed.stream ++ w.sock = dataRecord ++ [] := by
    rw [hd, hk]
    rfl
  have hend : closeEnd smallWorld.ssl [dataRecord] [] = none := by
    rw [closeEnd]
    rfl
  rw [hbytes, closeEnd_whole ⟨by decide, by decide, by decide⟩] at hn
  simp only [List.nil_append, hend, Option.map_none] at hn
  cases hn

/-- A byte that came behind the `close_notify` is live as it came. -/
theorem handover_admits_raw : ¬ ∀ (world : World) (turns : Nat) (f : Feed) (w : Inbound) (r : Handed),
    (∃ buf cap slab script, f = .init buf cap slab script) → shaken world turns f = some w →
      handOver world w = some r → Clean world.ssl w r := by
  intro hall
  obtain ⟨w, r, hw, hr, -, -, hl, ht⟩ := @prologue_run
    [.deliver 0 (helloRecord ++ closeRecord ++ [71])] (closeRecord ++ [71]) [] [71] [closeRecord]
    (by decide +kernel)
  have hc := (hall smallWorld 2 _ w r ⟨_, _, _, _, rfl⟩ hw hr).live
  rw [hl, ht] at hc
  exact absurd hc (by decide)

end Ioxd.Tls
