import Ioxd.Pipe.Feed

/-!
# What the waiting reads do

`Feed.Ok` is the reader's invariant with the accounting of the kernel buffers:
every id delivered here is back, queued or held, once. `Grew f f' d` says that
`f'` is `f` with the bytes `d` taken from what was coming and put behind the
live ones; a read that succeeds does just that, and nothing else.
-/

namespace Ioxd.Pipe

open Flat

namespace Feed

variable {f f' f'' : Feed}

def rxIds (f : Feed) : List Nat := f.rx.map (·.item.bufId)

/-- The ids out to this reader. -/
def out (f : Feed) : List Nat := f.rxIds ++ Reader.held f.pr

structure Ok (f : Feed) : Prop where
  reader : f.pr.Ok
  own : ∀ id, f.got.count id = f.back.count id + f.out.count id
  nodup : f.out.Nodup
  queued : ∀ d ∈ f.rx, d.item.len = d.data.length ∧ d.data ≠ [] ∧
    (f.slab d.item.bufId).read 0 d.item.len = d.data

def view (f : Feed) : View := f.toReader.view

theorem init_ok (buf : Mem Byte) (cap : Nat) (slab : Nat → Mem Byte) (script : List Event) :
    (init buf cap slab script).Ok where
  reader := Pipereader.init_ok ..
  own id := by simp [out, rxIds, Reader.held, init, Pipereader.init]
  nodup := by simp [out, rxIds, Reader.held, init, Pipereader.init]
  queued := by simp [init]

theorem not_out_of_free (h : f.Ok) {id : Nat} (hf : f.Free id) : id ∉ f.out := by
  have := h.own id
  unfold Free at hf
  exact List.count_eq_zero.mp (by omega)

theorem free_of_not_got {id : Nat} (h : id ∉ f.got) : f.Free id := by
  simp [Free, List.count_eq_zero_of_not_mem h]

theorem free_pick (f : Feed) (id : Nat) : f.Free (f.pick id) := by
  unfold pick
  split
  · assumption
  · apply free_of_not_got
    intro hm
    have : ∀ l : List Nat, ∀ x ∈ l, x ≤ l.foldr max 0 := by
      intro l
      induction l with
      | nil => simp
      | cons y ys ih =>
        intro x hx
        simp only [List.foldr_cons]
        rcases List.mem_cons.mp hx with rfl | hx
        · omega
        · have := ih x hx
          omega
    have := this _ _ hm
    omega

/-- An end of the input among these events is no error, and nothing arrives
behind it. -/
def EndsWell : List Event → Prop
  | [] => True
  | .fin gone :: es => gone = false ∧ arrivals es = [] ∧ EndsWell es
  | .deliver .. :: es | .scribble .. :: es => EndsWell es

def EndsBehind (f : Feed) (es : List Event) : Prop :=
  (f.eof = true → f.gone = false ∧ arrivals es = []) ∧ EndsWell es

/-- The input does not end before all that is coming has come. -/
def Lasting (f : Feed) : Prop := (f.pr.eof = true → f.coming = []) ∧ f.EndsBehind f.script

-- ---------------------------------------------------------------------------
-- The world's steps
-- ---------------------------------------------------------------------------

/-- The reader sees nothing of a step of the world but what it may have
queued. -/
structure Quiet (f f' : Feed) : Prop where
  ok : f'.Ok
  pr : f'.pr = f.pr
  view : f'.view = f.view
  back : f'.back = f.back
  taken : f'.taken = f.taken

theorem Quiet.refl (h : f.Ok) : Quiet f f := ⟨h, rfl, rfl, rfl, rfl⟩

theorem Quiet.trans (h : Quiet f f') (h' : Quiet f' f'') : Quiet f f'' :=
  ⟨h'.ok, h'.pr.trans h.pr, h'.view.trans h.view, h'.back.trans h.back, h'.taken.trans h.taken⟩

/-- A write into a buffer that is not out changes nothing the reader or the
queue can see. -/
theorem view_update (h : f.Ok) {id : Nat} (hid : id ∉ f.out) (m : Mem Byte) :
    Reader.view { f.toReader with slab := Function.update f.slab id m } = f.view := by
  have hcur : f.pr.hasCur = true → f.pr.cur.bufId ≠ id := by
    rintro hc rfl
    exact hid (List.mem_append_right _ (Reader.cur_held h.reader hc))
  have hrun := h.reader.runCur
  refine Reader.view_eq ?_ ?_ ⟨rfl, rfl, rfl, rfl⟩
  · show Reader.live _ = f.toReader.live
    unfold Reader.live Reader.bytes Reader.liveSpan
    grind [Function.update_of_ne]
  · show Reader.kept _ = f.toReader.kept
    unfold Reader.kept Reader.bytes Reader.run
    grind [Function.update_of_ne]

theorem queued_update (h : f.Ok) {id : Nat} (hid : id ∉ f.out) (m : Mem Byte) :
    ∀ d ∈ f.rx, (Function.update f.slab id m d.item.bufId).read 0 d.item.len = d.data := by
  intro d hd
  have hne : d.item.bufId ≠ id := by
    rintro rfl
    exact hid (List.mem_append_left _ (List.mem_map.mpr ⟨d, hd, rfl⟩))
  rw [Function.update_of_ne hne]
  exact (h.queued d hd).2.2

theorem event_quiet (h : f.Ok) (e : Event) : Quiet f (f.event e) := by
  cases e with
  | deliver id data =>
    simp only [event]
    split
    · exact .refl h
    · have hout := not_out_of_free h (free_pick f id)
      refine ⟨⟨h.reader, ?_, ?_, ?_⟩, rfl, view_update h hout _, rfl, rfl⟩
      · intro i
        have := h.own i
        simp only [out, rxIds, List.map_append, List.count_append, List.map_cons, List.map_nil]
          at this ⊢
        omega
      · have hn := h.nodup
        simp only [out, rxIds, List.map_append, List.map_cons, List.map_nil,
          List.append_assoc, List.mem_append] at hn hout ⊢
        rw [List.nodup_append] at hn ⊢
        grind
      · intro d hd
        rcases List.mem_append.mp hd with hd | hd
        · exact ⟨(h.queued d hd).1, (h.queued d hd).2.1, queued_update h hout _ d hd⟩
        · obtain rfl : d = _ := by simpa using hd
          refine ⟨rfl, ‹_›, ?_⟩
          simp only [Function.update_self]
          exact read_write_self ..
  | scribble id m =>
    simp only [event]
    split
    · have hout := not_out_of_free h ‹_›
      exact ⟨⟨h.reader, h.own, h.nodup, fun d hd =>
        ⟨(h.queued d hd).1, (h.queued d hd).2.1, queued_update h hout _ d hd⟩⟩,
        rfl, view_update h hout _, rfl, rfl⟩
    · exact .refl h
  | fin gone =>
    simp only [event]
    split
    · exact .refl h
    · exact ⟨⟨h.reader, h.own, h.nodup, h.queued⟩, rfl, rfl, rfl, rfl⟩

theorem event_rx (f : Feed) (e : Event) :
    (f.event e).rx.flatMap (·.data) = f.rx.flatMap (·.data) ++ arrivals [e] ∧
      (f.event e).rx.length ≤ f.rx.length + 1 ∧ (f.event e).script = f.script := by
  cases e with
  | deliver id data => by_cases hd : data = [] <;> simp [event, arrivals, hd]
  | scribble id m => by_cases hf : f.Free id <;> simp [event, arrivals, hf]
  | fin gone => by_cases he : f.eof <;> simp [event, arrivals, he]

theorem arrivals_cons (e : Event) (es : List Event) :
    arrivals (e :: es) = arrivals [e] ++ arrivals es := by
  cases e <;> simp [arrivals]

theorem tick_quiet (h : f.Ok) : Quiet f f.tick ∧ f.tick.coming = f.coming := by
  unfold tick
  split
  · exact ⟨.refl h, rfl⟩
  · rename_i e es hs
    have hq : Quiet f { f with script := es } :=
      ⟨⟨h.reader, h.own, h.nodup, h.queued⟩, rfl, rfl, rfl, rfl⟩
    refine ⟨hq.trans (event_quiet hq.ok e), ?_⟩
    obtain ⟨hr, -, hc⟩ := event_rx { f with script := es } e
    rw [coming, hr, hc, coming, hs, arrivals_cons e es, List.append_assoc]

theorem wait_spec (h : f.Ok) (es : List Event) :
    Quiet f (wait es f) ∧
      (wait es f).coming = f.rx.flatMap (·.data) ++ arrivals es ∧
      (wait es f).left ≤ f.rx.length + es.length ∧
      ((wait es f).rx = [] → (wait es f).eof = true ∨ (wait es f).script = []) := by
  induction es generalizing f with
  | nil =>
    exact ⟨⟨⟨h.reader, h.own, h.nodup, h.queued⟩, rfl, rfl, rfl, rfl⟩, rfl, Nat.le_refl _,
      fun _ => .inr rfl⟩
  | cons e es ih =>
    unfold wait
    split
    · rename_i hd
      refine ⟨⟨⟨h.reader, h.own, h.nodup, h.queued⟩, rfl, rfl, rfl, rfl⟩, rfl, Nat.le_refl _, ?_⟩
      intro hr
      exact .inl (hd.resolve_left fun hn => hn hr)
    · have hq := event_quiet h e
      obtain ⟨hr, hl, -⟩ := event_rx f e
      obtain ⟨hq', hc', hl', he'⟩ := ih hq.ok
      refine ⟨hq.trans hq', ?_, ?_, he'⟩
      · rw [hc', hr, arrivals_cons e es, List.append_assoc]
      · simp only [List.length_cons]
        omega

theorem event_endsBehind (e : Event) {es : List Event} (h : f.EndsBehind (e :: es)) :
    (f.event e).EndsBehind es := by
  obtain ⟨hend, hwell⟩ := h
  cases e with
  | deliver id data =>
    refine ⟨fun he => ?_, hwell⟩
    have hkeep : (f.event (.deliver id data)).eof = f.eof ∧
        (f.event (.deliver id data)).gone = f.gone := by
      by_cases hd : data = [] <;> simp [event, hd]
    rw [hkeep.1] at he
    obtain ⟨hg, ha⟩ := hend he
    exact ⟨hkeep.2.trans hg, (List.append_eq_nil_iff.mp ha).2⟩
  | scribble id m =>
    have hkeep : (f.event (.scribble id m)).eof = f.eof ∧
        (f.event (.scribble id m)).gone = f.gone := by
      simp only [event]
      split <;> exact ⟨rfl, rfl⟩
    refine ⟨fun he => ?_, hwell⟩
    rw [hkeep.1] at he
    exact ⟨hkeep.2.trans (hend he).1, (hend he).2⟩
  | fin gone =>
    obtain ⟨hg, ha, hwell⟩ := hwell
    refine ⟨fun _ => ⟨?_, ha⟩, hwell⟩
    by_cases he : f.eof = true
    · rw [event, if_pos he]
      exact (hend he).1
    · rw [event, if_neg he]
      exact hg

theorem wait_endsBehind (es : List Event) (h : f.EndsBehind es) :
    (wait es f).EndsBehind (wait es f).script := by
  induction es generalizing f with
  | nil => exact h
  | cons e es ih =>
    unfold wait
    split
    · exact h
    · exact ih (event_endsBehind e h)

-- ---------------------------------------------------------------------------
-- Taking a buffer
-- ---------------------------------------------------------------------------

/-- `f'` is `f` with the bytes `d` taken from what was coming. -/
structure Grew (f f' : Feed) (d : List Byte) : Prop where
  ok : f'.Ok
  view : f'.view = f.view.append d
  coming : f.coming = d ++ f'.coming
  taken : f'.taken = f.taken ++ d
  left : f'.left ≤ f.left
  spent : d ≠ [] → f'.left < f.left
  lasting : f.Lasting → f'.Lasting

theorem Grew.refl (h : f.Ok) : Grew f f [] :=
  ⟨h, by simp [View.append], rfl, by simp, Nat.le_refl _, by simp, fun hl => hl⟩

theorem Grew.trans (h : Grew f f' d) (h' : Grew f' f'' d') : Grew f f'' (d ++ d') where
  ok := h'.ok
  view := by rw [h'.view, h.view]; simp [View.append]
  coming := by rw [h.coming, h'.coming, List.append_assoc]
  taken := by rw [h'.taken, h.taken, List.append_assoc]
  left := Nat.le_trans h'.left h.left
  spent hn := by
    have h1 := h.left
    have h2 := h'.left
    by_cases hd : d = []
    · exact Nat.lt_of_lt_of_le (h'.spent (by simpa [hd] using hn)) h1
    · exact Nat.lt_of_le_of_lt h2 (h.spent hd)
  lasting hl := h'.lasting (h.lasting hl)

theorem ok_of_effect (h : f.Ok) {r : Reader} (he : Reader.Effect f.toReader r v []) :
    Ok { f with toReader := r } where
  reader := he.ok
  own id := by
    have := h.own id
    have := he.held id
    simp only [out, List.count_append, rxIds, List.count_nil] at *
    omega
  nodup := by
    have hn := h.nodup
    simp only [out, rxIds] at hn ⊢
    rw [List.nodup_append] at hn ⊢
    refine ⟨hn.1, ?_, fun a ha b hb hab => ?_⟩
    · -- nothing is held twice, as nothing was before
      rw [List.nodup_iff_count]
      intro i
      obtain ⟨r', hr⟩ := he.grew
      have hc := he.held i
      rw [← hr, List.count_append, List.count_nil] at hc
      have h1 := List.nodup_iff_count.mp hn.2.1 i
      omega
    · subst hab
      by_cases hm : a ∈ Reader.held f.pr
      · exact hn.2.2 a ha a hm rfl
      · exact he.held_of hm (by simp) hb
  queued d hd := by
    obtain ⟨h1, h2, h3⟩ := h.queued d hd
    refine ⟨h1, h2, ?_⟩
    rw [← h3]
    congr 1
    refine he.frame _ fun hm => ?_
    have hn := h.nodup
    simp only [out] at hn
    rw [List.nodup_append] at hn
    exact hn.2.2 _ (List.mem_map.mpr ⟨d, hd, rfl⟩) _ hm rfl

theorem ok_of_item (h : f.Ok) (hrx : f.rx = d :: rest) {r : Reader}
    (he : Reader.Effect f.toReader r v [d.item.bufId]) :
    Ok { f with toReader := r, rx := rest, taken := t } where
  reader := he.ok
  own id := by
    have h1 := h.own id
    have h2 := he.held id
    simp only [out, List.count_append, rxIds, hrx, List.map_cons, List.count_cons] at h1 h2 ⊢
    simp only [List.count_nil, Nat.zero_add] at h2
    omega
  nodup := by
    rw [List.nodup_iff_count]
    intro i
    obtain ⟨r', hr⟩ := he.grew
    have h1 := List.nodup_iff_count.mp h.nodup i
    have h2 := he.held i
    rw [← hr, List.count_append] at h2
    simp only [out, List.count_append, rxIds, hrx, List.map_cons, List.count_cons,
      List.count_nil] at h1 h2 ⊢
    omega
  queued d' hd := by
    obtain ⟨h1, h2, h3⟩ := h.queued d' (by rw [hrx]; exact List.mem_cons_of_mem _ hd)
    refine ⟨h1, h2, ?_⟩
    rw [← h3]
    congr 1
    refine he.frame _ fun hm => ?_
    have hn := h.nodup
    simp only [out, rxIds, hrx] at hn
    rw [List.nodup_append] at hn
    exact hn.2.2 _ (List.mem_map.mpr ⟨d', List.mem_cons_of_mem _ hd, rfl⟩) _ hm rfl

/-- `f'` is `f` after an operation of its reader that waits for nothing. -/
structure Stays (f f' : Feed) (v : View) : Prop where
  ok : f'.Ok
  view : f'.view = v
  coming : f'.coming = f.coming
  taken : f'.taken = f.taken
  left : f'.left = f.left
  lasting : v.eof = f.view.eof → f.Lasting → f'.Lasting

theorem stays_of_effect (h : f.Ok) {r : Reader} (he : Reader.Effect f.toReader r v []) :
    Stays f { f with toReader := r } v := by
  refine ⟨ok_of_effect h he, he.view, rfl, rfl, rfl, fun hv hl => ⟨fun heof => hl.1 ?_, hl.2⟩⟩
  have := congrArg View.eof he.view
  exact (this.trans hv).symm.trans heof

inductive MoreOutcome (f : Feed) : Rc × Feed → Prop
  | some {t : Feed} {d : List Byte} : Grew f t d → d ≠ [] → MoreOutcome f (.some, t)
  | ended {t : Feed} : t.Ok → t.view = { f.view with eof := true } → t.taken = f.taken →
      t.coming = f.coming → (f.Lasting → f.coming = []) → MoreOutcome f (.ended, t)
  | error {t : Feed} {e : PipeError} {b : Bool} : t.Ok →
      t.view = { f.view with eof := b, error := .some e } → (f.Lasting → e = .full) →
      MoreOutcome f (.error e, t)

theorem recvItem_nil (hrx : (wait f.script f).rx = []) :
    f.recvItem = (none, wait f.script f) := by
  simp only [recvItem, hrx]

theorem recvItem_cons (hrx : (wait f.script f).rx = d :: rest) :
    f.recvItem = (some d.item, { wait f.script f with
      rx := rest, taken := (wait f.script f).taken ++ d.data }) := by
  simp only [recvItem, hrx]

theorem more_outcome (h : f.Ok) : MoreOutcome f f.more := by
  unfold more
  split
  · rename_i heof
    refine .ended h ?_ rfl rfl fun hl => hl.1 heof
    simp [view, Reader.view, heof]
  rename_i hopen
  obtain ⟨hq, hc, hl, hend⟩ := wait_spec h f.script
  have hlast (hf : f.Lasting) := wait_endsBehind f.script hf.2
  replace hc : (wait f.script f).coming = f.coming := hc
  replace hl : (wait f.script f).left ≤ f.left := hl
  cases hrx : (wait f.script f).rx with
  | nil =>
    simp only [recvItem_nil hrx]
    generalize wait f.script f = w at *
    have he := Reader.moreEnded_effect hq.ok.reader (w.eof && w.gone)
    have hok := ok_of_effect hq.ok he
    have herr : w.pr.error = f.pr.error := by rw [hq.pr]
    cases hg : w.eof && w.gone with
    | false =>
      rw [hg] at he hok
      rw [if_neg (by simp)]
      refine .ended hok ?_ hq.taken hc ?_
      · refine he.view.trans ?_
        rw [show w.toReader.view = f.view from hq.view]
        simp [herr, view, Reader.view]
      · intro hf
        have harr : arrivals w.script = [] := by
          rcases hend hrx with he | hs
          · exact ((hlast hf).1 he).2
          · rw [hs]
            rfl
        rw [← hc, coming, hrx, harr]
        rfl
    | true =>
      rw [hg] at he hok
      rw [if_pos rfl]
      refine .error (b := true) hok ?_ ?_
      · refine he.view.trans ?_
        rw [show w.toReader.view = f.view from hq.view]
        rfl
      · intro hf
        rw [Bool.and_eq_true] at hg
        have := ((hlast hf).1 hg.1).1
        rw [hg.2] at this
        cases this
  | cons d rest =>
    simp only [recvItem_cons hrx]
    generalize wait f.script f = w at *
    obtain ⟨hlen, hne, hread⟩ := hq.ok.queued d (by simp [hrx])
    have hin : d.item.bufId ∉ Reader.held w.pr := by
      have hn := hq.ok.nodup
      simp only [out, rxIds, hrx] at hn
      rw [List.nodup_append] at hn
      intro hm
      exact hn.2.2 _ (by simp) _ hm rfl
    have he := Reader.moreItem_effect hq.ok.reader d.item hin
    rw [hread] at he
    have hok := ok_of_item (t := w.taken ++ d.data) hq.ok hrx he
    have hview : w.toReader.view = f.view := hq.view
    cases hm : (w.toReader.moreItem d.item).1 with
    | true =>
      rw [hm] at he
      rw [if_pos rfl]
      refine .some (d := d.data) ⟨hok, ?_, ?_, ?_, ?_, fun _ => ?_, ?_⟩ hne
      · refine he.view.trans ?_
        rw [hview]
        rfl
      · rw [← hc]
        simp [coming, hrx]
      · rw [← hq.taken]
      · simp only [left, hrx, List.length_cons] at hl ⊢
        omega
      · simp only [left, hrx, List.length_cons] at hl ⊢
        omega
      · intro hf
        refine ⟨fun heof => absurd ?_ hopen, hlast hf⟩
        have := congrArg View.eof he.view
        rw [hview] at this
        exact this.symm.trans heof
    | false =>
      rw [hm] at he
      rw [if_neg (by simp)]
      refine .error (b := f.view.eof) hok ?_ fun _ => rfl
      refine he.view.trans ?_
      rw [hview]
      rfl

-- ---------------------------------------------------------------------------
-- The reads
-- ---------------------------------------------------------------------------

inductive ReadOutcome (f : Feed) : Rc × Feed → Prop
  | some {t : Feed} {d : List Byte} : Grew f t d → t.view.examined < t.live.length →
      ReadOutcome f (.some, t)
  | ended {t u : Feed} {d : List Byte} : Grew f u d → t.Ok → t.view = { u.view with eof := true } →
      t.taken = u.taken → t.coming = u.coming → t.live.length ≤ t.view.examined →
      (f.Lasting → t.coming = []) → ReadOutcome f (.ended, t)
  | error {t u : Feed} {d : List Byte} {e : PipeError} {b : Bool} : Grew f u d → t.Ok →
      t.view = { u.view with eof := b, error := .some e } →
      (f.Lasting → f.view.error = none → e = .full) → ReadOutcome f (.error e, t)

theorem readLoop_outcome (h : f.Ok) (hn : f.left < n) : ReadOutcome f (readLoop n f) := by
  induction n generalizing f with
  | zero => omega
  | succ n ih =>
    unfold readLoop
    split
    · exact .some (.refl h) ‹_›
    rename_i hle
    have hm := more_outcome h
    generalize f.more = m at hm
    cases hm with
    | @some t d hg hne =>
      show ReadOutcome f (readLoop n t)
      have hlt := hg.spent hne
      have hr := ih hg.ok (by omega)
      generalize readLoop n t = r at hr
      cases hr with
      | some hg' hx => exact .some (hg.trans hg') hx
      | ended hg' hok hv ht hc hx hl =>
        exact .ended (hg.trans hg') hok hv ht hc hx fun hf => hl (hg.lasting hf)
      | error hg' hok hv hl =>
        refine .error (hg.trans hg') hok hv fun hf he => hl (hg.lasting hf) ?_
        rw [hg.view]
        exact he
    | ended hok hv ht hc hl =>
      refine .ended (.refl h) hok hv ht hc ?_ fun hf => hc.trans (hl hf)
      have h1 : _ = f.live := congrArg View.live hv
      have h2 := congrArg View.examined hv
      rw [live, show Reader.live _ = _ from h1, h2]
      exact Nat.le_of_not_lt hle
    | error hok hv hl => exact .error (.refl h) hok hv fun hf _ => hl hf

theorem view_failed (he : f.pr.error = some e) :
    f.view = { f.view with eof := f.pr.eof, error := some e } := by
  rw [← he]
  rfl

theorem not_failed (he : f.pr.error = some e) : f.view.error ≠ none := by
  show f.pr.error ≠ none
  simp [he]

theorem read_outcome (h : f.Ok) : ReadOutcome f f.read := by
  unfold read
  split
  · rename_i e he
    exact .error (.refl h) h (view_failed he) fun _ hn => absurd hn (not_failed he)
  · exact readLoop_outcome h (Nat.lt_succ_self _)

inductive CopyOutcome (f : Feed) (n : Nat) : Rc × List Byte × Feed → Prop
  | some {u t : Feed} {d : List Byte} : Grew f u d → u.live ≠ [] → 0 < n →
      Stays u t (u.view.consume n) → CopyOutcome f n (.some, u.live.take n, t)
  | nothing {u t : Feed} {d : List Byte} : n = 0 → Grew f u d → Stays u t u.view →
      CopyOutcome f n (.ended, [], t)
  | ended {t : Feed} : f.live = [] → t.Ok → t.view = { f.view with eof := true } →
      t.taken = f.taken → t.coming = f.coming → (f.Lasting → f.coming = []) →
      CopyOutcome f n (.ended, [], t)
  | error {t : Feed} {e : PipeError} {b : Bool} : t.Ok →
      t.view = { f.view with eof := b, error := .some e } →
      (f.Lasting → f.view.error = none → e = .full) → CopyOutcome f n (.error e, [], t)

theorem copyLoop_live (h : f.Ok) (hl : f.live ≠ []) (fuel : Nat) (hg : Grew f₀ f d) :
    CopyOutcome f₀ n (copyLoop n (fuel + 1) f) := by
  have hpos := List.length_pos_iff.mpr hl
  have he := stays_of_effect h (Reader.consume_effect h.reader (min f.live.length n))
  unfold copyLoop
  rw [if_pos (by omega)]
  rcases Nat.eq_zero_or_pos n with rfl | hn
  · simp only [Nat.min_zero, if_true, List.take_zero] at he ⊢
    refine .nothing rfl hg ?_
    rwa [show Reader.view f.toReader = f.view from rfl, View.consume_zero] at he
  · have hc : f.view.consume (min f.live.length n) = f.view.consume n := View.consume_min ..
    have ht : f.live.take (min f.live.length n) = f.live.take n := by
      rw [Nat.min_comm, ← List.take_take, List.take_length]
    dsimp only
    rw [if_neg (by omega), ht]
    exact .some hg hl hn (hc ▸ he)

theorem copy_outcome (h : f.Ok) (n : Nat) : CopyOutcome f n (f.copy n) := by
  unfold copy
  split
  · rename_i e he
    exact .error h (view_failed he) fun _ hn => absurd hn (not_failed he)
  by_cases hl : f.live = []
  · unfold copyLoop
    rw [if_neg (by simp [hl])]
    have hm := more_outcome h
    generalize f.more = m at hm
    cases hm with
    | @some t d hg hne =>
      show CopyOutcome f n (copyLoop n f.left t)
      have hlt := hg.spent hne
      obtain ⟨k, hk⟩ : ∃ k, f.left = k + 1 := ⟨f.left - 1, by omega⟩
      rw [hk]
      refine copyLoop_live hg.ok ?_ k hg
      have hv : t.live = _ := congrArg View.live hg.view
      rw [hv]
      simp [View.append, hne]
    | ended hok hv ht hc hl' => exact .ended hl hok hv ht hc hl'
    | error hok hv hl' => exact .error hok hv fun hf _ => hl' hf
  · exact copyLoop_live h hl _ (.refl h)

theorem copy_ok (h : f.Ok) (n : Nat) : (f.copy n).2.2.Ok := by
  have ho := copy_outcome h n
  generalize f.copy n = r at ho
  cases ho with
  | some _ _ _ hs => exact hs.ok
  | nothing _ _ hs => exact hs.ok
  | ended _ hok => exact hok
  | error hok => exact hok

/-- `avail` is `read` without the wait. -/
inductive AvailOutcome (f : Feed) : Rc × Feed → Prop
  | some {t : Feed} {d : List Byte} : Grew f t d → t.view.examined < t.live.length →
      AvailOutcome f (.some, t)
  | ended {t u : Feed} {d : List Byte} {b : Bool} : Grew f u d → t.Ok →
      t.view = { u.view with eof := b } → t.taken = u.taken → t.coming = u.coming →
      AvailOutcome f (.ended, t)
  | error {t u : Feed} {d : List Byte} {e : PipeError} {b : Bool} : Grew f u d → t.Ok →
      t.view = { u.view with eof := b, error := .some e } → AvailOutcome f (.error e, t)

theorem availLoop_outcome (h : f.Ok) (hn : f.left < n) : AvailOutcome f (availLoop n f) := by
  induction n generalizing f with
  | zero => omega
  | succ n ih =>
    unfold availLoop
    split
    · exact .some (.refl h) ‹_›
    split
    · exact .ended (b := f.view.eof) (.refl h) h rfl rfl rfl
    have hm := more_outcome h
    generalize f.more = m at hm
    cases hm with
    | @some t d hg hne =>
      show AvailOutcome f (availLoop n t)
      have hlt := hg.spent hne
      have hr := ih hg.ok (by omega)
      generalize availLoop n t = r at hr
      cases hr with
      | some hg' hx => exact .some (hg.trans hg') hx
      | ended hg' hok hv ht hc => exact .ended (hg.trans hg') hok hv ht hc
      | error hg' hok hv => exact .error (hg.trans hg') hok hv
    | ended hok hv ht hc hl => exact .ended (.refl h) hok hv ht hc
    | error hok hv hl => exact .error (.refl h) hok hv

theorem avail_outcome (h : f.Ok) : AvailOutcome f f.avail := by
  unfold avail
  split
  · rename_i e he
    exact .error (.refl h) h (view_failed he)
  · exact availLoop_outcome h (Nat.lt_succ_self _)

-- ---------------------------------------------------------------------------
-- Moving through the stream
-- ---------------------------------------------------------------------------

/-- The reader has moved past the bytes `gone` of its stream and kept the bytes
`kept`; it has met no error. -/
structure Moved (f f' : Feed) (gone kept : List Byte) : Prop where
  ok : f'.Ok
  stream : f.stream = gone ++ f'.stream
  kept : f'.view.kept = f.view.kept ++ kept
  error : f'.view.error = f.view.error
  cap : f'.view.cap = f.view.cap
  lasting : f.Lasting → f'.Lasting

theorem Moved.refl (h : f.Ok) : Moved f f [] [] := ⟨h, rfl, by simp, rfl, rfl, fun hl => hl⟩

theorem Moved.trans (h : Moved f f' g k) (h' : Moved f' f'' g' k') :
    Moved f f'' (g ++ g') (k ++ k') where
  ok := h'.ok
  stream := by rw [h.stream, h'.stream, List.append_assoc]
  kept := by rw [h'.kept, h.kept, List.append_assoc]
  error := h'.error.trans h.error
  cap := h'.cap.trans h.cap
  lasting hl := h'.lasting (h.lasting hl)

theorem Grew.live (h : Grew f f' d) : f'.live = f.live ++ d := congrArg View.live h.view

theorem Grew.examined (h : Grew f f' d) : f'.view.examined = f.view.examined := by
  rw [h.view]
  rfl

theorem Grew.moved (h : Grew f f' d) : Moved f f' [] [] where
  ok := h.ok
  stream := by rw [stream, stream, h.live, h.coming, List.nil_append, List.append_assoc]
  kept := by rw [h.view]; simp [View.append]
  error := by rw [h.view]; rfl
  cap := by rw [h.view]; rfl
  lasting := h.lasting

theorem Stays.live (h : Stays f f' v) : f'.live = v.live := congrArg View.live h.view

theorem Stays.moved {g k : List Byte} (h : Stays f f' v) (hl : f.live = g ++ v.live)
    (hk : v.kept = f.view.kept ++ k) (he : v.error = f.view.error) (hc : v.cap = f.view.cap)
    (hf : v.eof = f.view.eof) : Moved f f' g k where
  ok := h.ok
  stream := by rw [stream, stream, h.live, hl, h.coming, List.append_assoc]
  kept := by rw [h.view, hk]
  error := by rw [h.view, he]
  cap := by rw [h.view, hc]
  lasting := h.lasting hf

theorem examine_stays (h : f.Ok) (n : Nat) : Stays f (f.examine n) { f.view with examined := n } :=
  stays_of_effect h (Reader.examine_effect h.reader n)

theorem examine_moved (h : f.Ok) (n : Nat) : Moved f (f.examine n) [] [] :=
  (examine_stays h n).moved rfl (List.append_nil _).symm rfl rfl rfl

/-- The turns of a loop that looks at all the live bytes: one is left for each
buffer to come, behind this one. -/
theorem Grew.turns {seen turns : Nat} (hg : Grew f t d) (hx : seen < t.live.length)
    (hn : f.left + (if f.live.length = seen then 1 else 2) ≤ turns + 1) :
    (t.examine t.live.length).left + 1 ≤ turns := by
  rw [(examine_stays hg.ok t.live.length).left]
  have := hg.left
  by_cases hd : d = []
  · rw [if_neg (by rw [hg.live, hd, List.append_nil] at hx; omega)] at hn
    omega
  · have := hg.spent hd
    split at hn <;> omega

theorem drop_stays (h : f.Ok) (n : Nat) : Stays f (f.drop n) (f.view.consume n) :=
  stays_of_effect h (Reader.drop_effect h.reader n)

theorem drop_moved (h : f.Ok) (n : Nat) : Moved f (f.drop n) (f.live.take n) [] :=
  (drop_stays h n).moved (List.take_append_drop n f.live).symm (List.append_nil _).symm rfl rfl
    rfl

theorem release_stays (h : f.Ok) : Stays f f.release { f.view with kept := [] } :=
  stays_of_effect h (Reader.release_effect h.reader)

theorem runBegin_stays (h : f.Ok) :
    ∃ e, Stays f f.runBegin { f.view with kept := [], error := e } := by
  obtain ⟨e, -, he⟩ := Reader.runBegin_effect h.reader
  exact ⟨e, stays_of_effect h he⟩

theorem tick_moved (h : f.Ok) : Moved f f.tick [] [] := by
  obtain ⟨hq, hc⟩ := tick_quiet h
  have hl : f.tick.live = f.live := congrArg View.live hq.view
  refine ⟨hq.ok, by rw [stream, stream, hl, hc, List.nil_append], by rw [hq.view]; simp,
    by rw [hq.view], by rw [hq.view], fun hlast => ?_⟩
  refine ⟨fun he => hc.trans (hlast.1 (by rwa [hq.pr] at he)), ?_⟩
  have hends := hlast.2
  unfold tick
  split
  · exact hends
  · rename_i e es hs
    rw [hs] at hends
    obtain ⟨-, -, hscript⟩ := event_rx { f with script := es } e
    rw [hscript]
    exact event_endsBehind (f := { f with script := es }) e hends

/-- The outcomes of `keep` on live bytes: kept, or no room. -/
inductive KeepOutcome (f : Feed) (n : Nat) : Ptr × Feed → Prop
  | kept {p : Ptr} {t : Feed} : p ≠ .null → Stays f t (f.view.keep n) →
      t.bytes ⟨p, n⟩ = f.live.take n → KeepOutcome f n (p, t)
  | full {t : Feed} : Stays f t f.view.full → KeepOutcome f n (.null, t)

theorem keep_outcome (h : f.Ok) (h0 : 0 < n) (hn : n ≤ f.live.length) :
    KeepOutcome f n (f.keep n) := by
  have ho := Reader.keep_outcome h.reader n
  unfold keep
  generalize f.toReader.keep n = r at ho
  cases ho with
  | past hlt => exact absurd hn (Nat.not_le.mpr hlt)
  | nothing hz => omega
  | kept _ _ hp he hb => exact .kept hp (stays_of_effect h he) hb
  | full _ _ he => exact .full (stays_of_effect h he)

theorem Stays.kept (h : Stays f f' (f.view.keep n)) :
    Moved f f' (f.live.take n) (f.live.take n) :=
  h.moved (List.take_append_drop n f.live).symm rfl rfl rfl rfl

-- ---------------------------------------------------------------------------
-- What meets no error
-- ---------------------------------------------------------------------------

theorem event_pr (f : Feed) (e : Event) : (f.event e).pr = f.pr := by
  cases e <;> simp only [event] <;> split <;> rfl

theorem wait_pr (es : List Event) (f : Feed) : (wait es f).pr = f.pr := by
  induction es generalizing f with
  | nil => rfl
  | cons e es ih =>
    unfold wait
    split
    · rfl
    · exact (ih _).trans (event_pr f e)

theorem more_error (h : f.more.1 = .some) : f.more.2.pr.error = f.pr.error := by
  have hw := wait_pr f.script f
  unfold more at *
  split
  · rfl
  rename_i he
  rw [if_neg he] at h
  cases hrx : (wait f.script f).rx with
  | nil =>
    simp only [recvItem_nil hrx] at h
    grind
  | cons d rest =>
    simp only [recvItem_cons hrx] at h ⊢
    have hok : ((wait f.script f).toReader.moreItem d.item).1 = true := by grind
    exact (Reader.moreItem_error hok).trans (congrArg Pipereader.error hw)

theorem readLoop_error (fuel : Nat) (h : (readLoop fuel f).1 = .some) :
    (readLoop fuel f).2.pr.error = f.pr.error := by
  induction fuel generalizing f with
  | zero => rfl
  | succ fuel ih =>
    unfold readLoop at h ⊢
    split
    · rfl
    rename_i hle
    rw [if_neg hle] at h
    have hm := @more_error f
    generalize f.more = m at h hm
    obtain ⟨rc, t⟩ := m
    cases rc with
    | some => exact (ih h).trans (hm rfl)
    | ended => cases h
    | error e => cases h

theorem read_error (h : f.read.1 = .some) : f.read.2.pr.error = f.pr.error := by
  unfold read at *
  split
  · rfl
  · rename_i he
    rw [he] at h
    exact (readLoop_error _ h).trans rfl

theorem copyLoop_error (fuel : Nat) (h : (copyLoop n fuel f).1 = .some) :
    (copyLoop n fuel f).2.2.pr.error = f.pr.error := by
  induction fuel generalizing f with
  | zero => rfl
  | succ fuel ih =>
    unfold copyLoop at h ⊢
    split
    · exact Reader.consume_error ..
    rename_i hle
    rw [if_neg hle] at h
    have hm := @more_error f
    generalize f.more = m at h hm
    obtain ⟨rc, t⟩ := m
    cases rc with
    | some => exact (ih h).trans (hm rfl)
    | ended => cases h
    | error e => cases h

theorem copy_error (h : (f.copy n).1 = .some) : (f.copy n).2.2.pr.error = f.pr.error := by
  unfold copy at *
  split
  · rfl
  · rename_i he
    rw [he] at h
    exact copyLoop_error _ h
theorem keep_error (h : (f.keep n).1 ≠ .null) : (f.keep n).2.pr.error = f.pr.error :=
  Reader.keep_error h

end Feed

end Ioxd.Pipe
