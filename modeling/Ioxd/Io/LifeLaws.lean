import Ioxd.Io.Life

/-!
# The life of a connection through its handlers

What a completion, an await, an open and a close do to the references of a
connection and to where its last completion is: one lemma for each function of
`lib/io/conn.c`, with what it takes in hand and what it leaves to be done.
-/

namespace Ioxd.Io

open Flat Ioxd.Pipe Runs

variable {w w' w'' : Worker} {hand hand' : List Task} {c k : Nat}

namespace Worker

-- ---------------------------------------------------------------------------
-- The completions
-- ---------------------------------------------------------------------------

theorem setConn_alike (c : Nat) (f : Conn → Conn) (hf : (w.conns c).Steady (f (w.conns c)))
    (hr : (f (w.conns c)).recv = (w.conns c).recv)
    (ha : (f (w.conns c)).armed = (w.conns c).armed) : Alike w (w.setConn c f) := by
  refine ⟨fun d => ?_, rfl, rfl, rfl, rfl, rfl, rfl, rfl, rfl, rfl⟩
  by_cases hd : d = c
  · subst hd
    rw [setConn_self]
    exact ⟨hr, hf.refs, hf.closed, hf.owner, ha, hf.recycled, hf.waiter⟩
  · rw [setConn_other hd]
    exact ⟨rfl, rfl, rfl, rfl, rfl, rfl, rfl⟩

theorem cancelRecv_alike (c : Nat) : Alike w (w.cancelRecv c) :=
  setConn_alike c _ ⟨rfl, rfl, rfl, rfl, rfl⟩ rfl rfl

theorem endInput_alike (c : Nat) (err : Int) :
    Alike w (w.setConn c fun x => Conn.endInput x err) := by
  refine setConn_alike c _ ?_ ?_ ?_
  · unfold Conn.endInput
    split <;> exact ⟨rfl, rfl, rfl, rfl, rfl⟩
  · simp
  · exact (endInput_steady _ err .done).2

theorem bufringReturn_alike (id : Nat) : Alike w (w.bufringReturn id) := { Alike.refl w with }

theorem returnAll_alike (ids : List Nat) : Alike w (w.returnAll ids) := by
  induction ids generalizing w with
  | nil => exact .refl w
  | cons id ids ih => exact (bufringReturn_alike id).trans ih

theorem paused_life (h : Life w (.tail c false :: hand)) (hr : w.running = none) :
    Life (w.paused c) hand :=
  wakeReader_life (h.stopped ⟨rfl, rfl, rfl, rfl, rfl⟩ rfl rfl) hr c

/-- The input ends and the recv with it: its reference is dropped after the wake. -/
theorem ending_life (h : Life w (.tail c false :: hand)) (hr : w.running = none) (err : Int) :
    Life (((w.setConn c fun x => { Conn.endInput x err with recv := .done }).wakeReader
      c).afterwards (.unref c)) hand := by
  have hs := endInput_steady (w.conns c) err .done
  exact afterwards_life (wakeReader_life (h.done hs.1 rfl hs.2) hr c)

theorem onNobufs_life (h : Life w (.tail c false :: hand)) (hr : w.running = none) :
    Life (w.onNobufs c) hand := by
  have hdone : Life (w.setRecv c .done) (.unref c :: hand) :=
    h.done ⟨rfl, rfl, rfl, rfl, rfl⟩ rfl rfl
  unfold onNobufs
  split
  · exact connUnref_life hdone
  · split
    · exact paused_life h hr
    · split
      · exact afterwards_life (wakeReader_life hdone hr c)
      · exact h.parked

theorem onEnded_life (h : Life w (.tail c false :: hand)) (hr : w.running = none) (result : Int)
    (buf : Option Nat) : Life (w.onEnded c result buf) hand := by
  have ha := @returnAll_alike w buf.toList
  unfold onEnded
  dsimp only
  split
  · exact paused_life (h.alike ha) (ha.running.trans hr)
  · exact ending_life (h.alike ha) (ha.running.trans hr) _

theorem stopInput_life (h : Life w hand) (hr : w.running = none) (c : Nat) (err : Int)
    (more : Bool) : Life (w.stopInput c err more) hand := by
  have he := @endInput_alike w c err
  unfold stopInput
  dsimp only
  split
  · exact wakeReader_life (h.alike (he.trans (cancelRecv_alike c))) hr c
  · exact wakeReader_life (h.alike he) hr c

theorem onData_life (h : Life w hand) (hr : w.running = none) (c : Nat) (result : Int)
    (more : Bool) (buf : Option Nat) : Life (w.onData c result more buf) hand := by
  unfold onData
  split
  · exact stopInput_life h hr c _ more
  · rename_i id
    split
    · exact h.alike (bufringReturn_alike id)
    · split
      · exact stopInput_life (h.alike (bufringReturn_alike id)) hr c _ more
      · refine wakeReader_life (h.alike (setConn_alike c
          (fun x => { x with rx := x.rx ++ [⟨result.toNat, id⟩] }) ⟨rfl, rfl, rfl, rfl, rfl⟩
          rfl rfl)) ?_ c
        exact hr

/-- A completion: the last one of its recv if it has no more to come. -/
theorem onRecv_life {result : Int} {more : Bool} (h : Life w (.tail c more :: hand))
    (hr : w.running = none) (hmore : more = true → 0 < result) (buf : Option Nat) :
    Life (w.onRecv c result more buf) hand := by
  obtain ⟨v, hv, hrv, hlife⟩ : ∃ v, v = (if more = true then w
      else w.setConn c ({ · with cancelling := false })) ∧ v.running = none ∧
        Life v (.tail c more :: hand) := by
    refine ⟨_, rfl, ?_, ?_⟩
    · split <;> exact hr
    · split
      · exact h
      · exact h.alike (setConn_alike c _ ⟨rfl, rfl, rfl, rfl, rfl⟩ rfl rfl)
  have hlast (hle : result ≤ 0) : Life v (.tail c false :: hand) := by
    cases more with
    | false => exact hlife
    | true => exact absurd (hmore rfl) (by omega)
  unfold onRecv
  dsimp only
  rw [← hv]
  split
  · rename_i hn
    exact onNobufs_life (hlast (by rw [hn]; decide)) hrv
  · split
    · rename_i hle
      exact onEnded_life (hlast hle) hrv result buf
    · exact afterwards_life (onData_life hlife hrv c result more buf)

theorem onRecvTail_life {more : Bool} (h : Life w (.tail c more :: hand)) (hr : w.running = none) :
    Life (w.onRecvTail c more) hand := by
  unfold onRecvTail
  dsimp only
  cases more with
  | false =>
    rw [if_pos (by simp)]
    split
    · exact paused_life h hr
    · split
      · exact h.rearmed
      · exact connUnref_life (h.done (f := ({ · with recv := .done })) ⟨rfl, rfl, rfl, rfl, rfl⟩
          rfl rfl)
  | true =>
    rw [if_neg (by simp)]
    split
    · exact (drop_life h).alike (cancelRecv_alike c)
    · exact drop_life h

theorem drained_life {l : List Nat} (h : Life w hand) (hr : w.running = none)
    (hs : w.starved = l ++ [c]) : Life (recvDrain { w with starved := l } c) hand := by
  have hc := h.conn c
  have hone : w.starved.count c = if (w.conns c).recv = .starved then 1 else 0 := hc.starved
  rw [hs, List.count_append, List.count_singleton_self] at hone
  have hrecv : (w.conns c).recv = .starved := by
    by_contra hx
    rw [if_neg hx] at hone
    omega
  rw [if_pos hrecv] at hone
  unfold recvDrain
  rw [if_neg (not_not.mpr hrecv)]
  have he := endInput_steady (w.conns c) (-ECANCELED) .done
  have hlife : Life (setConn { w with starved := l } c
      fun x => { Conn.endInput x (-ECANCELED) with recv := .done }) ([.unref c] ++ hand) := by
    refine Life.unpark [] [.unref c] (s := l)
      (x := { Conn.endInput (w.conns c) (-ECANCELED) with recv := .done }) h
      ⟨rfl, rfl, rfl, rfl, rfl, rfl, rfl, rfl, rfl, rfl⟩ nofun (by simp) (by simp [hrecv])
      (.inl rfl) he.1.keeps he.2 he.1.closed (hc.live (by simp [hrecv])) ?_ ?_ (by omega)
      fun d hd => ?_
    · rw [he.1.refs]
      exact hc.live (by simp [hrecv])
    · rw [he.1.refs]
      simp [hrecv]
    · rw [hs, List.count_append, List.count_singleton, if_neg (by simpa using Ne.symm hd),
        Nat.add_zero]
  exact afterwards_life (wakeReader_life hlife hr c)

-- ---------------------------------------------------------------------------
-- The awaits
-- ---------------------------------------------------------------------------

theorem withReader_alike (c : Nat) (f : Reader → Reader) : Alike w (w.withReader c f) := by
  have h := (setConn_alike (w := w) c ({ · with pr := (f ⟨(w.conns c).pr, w.slab, []⟩).pr })
    ⟨rfl, rfl, rfl, rfl, rfl⟩ rfl rfl).trans
    (returnAll_alike (f ⟨(w.conns c).pr, w.slab, []⟩).back)
  exact ⟨h.conn, h.nextConn, h.coros, h.nextCoro, h.ready, h.starved, h.cq, h.ops, h.running,
    h.tasks⟩

theorem seat_running {st : Option Await} (h : Sits w k) (hs : (w.coros k).state = .running st) :
    w.ops.count k + w.cq.count (.op k) = 0 ∧ w.ready.count k = 0 ∧ k < w.nextCoro := by
  have h1 := h.ops
  have h2 := h.ready
  rw [hs] at h1 h2
  refine ⟨h1, h2, ?_⟩
  by_contra hge
  have := h.fresh (by omega)
  rw [hs] at this
  cases this

theorem waiter_ne {st : Option Await} (h : Life w hand) (hs : (w.coros k).state = .running st)
    (d : Nat) : (w.conns d).waiter ≠ some k := by
  intro hw
  rcases (h.conn d).waiter k hw with hx | hx <;> rw [hs] at hx <;> cases hx

theorem out_life {st : Option Await} (h : Life w hand) (hs : (w.coros k).state = .running st)
    (hopt : ∀ c, st ≠ some (.setopt c)) : Life (w.setState k (.running none)) hand := by
  have hk := h.coro k
  obtain ⟨h1, h2, h3⟩ := seat_running hk hs
  refine h.seated (k := k) (s := .running none) (.of_update rfl rfl rfl rfl rfl (.inl rfl) rfl)
    (fun c => ?_) (fun d hd => absurd hd (waiter_ne h hs d)) ⟨?_, ?_, ?_, ?_, fun hn => ?_⟩
    fun k' _ => ⟨rfl, rfl, (h.coro k').running⟩
  · rw [hs]
    exact iff_of_false nofun (hopt c)
  · intro a c ha
    simp [setState, CoState.await] at ha
  · simpa [setState, CoState.inOp] using h1
  · simpa [setState] using h2
  · exact fun _ _ => hk.running st hs
  · have : w.nextCoro ≤ k := hn
    omega

theorem park_life {st : Option Await} {a : Await} (h : Life w hand)
    (hs : (w.coros k).state = .running st) (hopt : ∀ c, st ≠ some (.setopt c))
    (ha : a = .item c ∨ a = .pause c) (hw : w.Works k c) :
    Life ((w.setConn c ({ · with waiter := some k })).coroYield k a) hand := by
  have hk := h.coro k
  obtain ⟨h1, h2, h3⟩ := seat_running hk hs
  have hon : a.on = some c := by
    rcases ha with rfl | rfl <;> rfl
  have hyield : Life (w.coroYield k a) hand := by
    refine h.seated (k := k) (s := .parked a) (.of_update rfl rfl rfl rfl rfl (.inl rfl) rfl)
      (fun d => ?_) (fun d hd => absurd hd (waiter_ne h hs d)) ⟨?_, ?_, ?_, ?_, fun hn => ?_⟩
      fun k' hk' => ⟨rfl, rfl, fun b hb => ?_⟩
    · rw [hs]
      refine iff_of_false ?_ (hopt d)
      rcases ha with rfl | rfl <;> simp [CoState.await]
    · intro b d hb hd
      have hb : a = b := by simpa [coroYield, setState, CoState.await] using hb
      rw [← hb, hon, Option.some.injEq] at hd
      exact hd ▸ hw
    · rcases ha with rfl | rfl <;> simpa [coroYield, setState, CoState.inOp] using h1
    · simpa [coroYield, setState] using h2
    · intro b hb
      simp [coroYield, setState] at hb
    · have : w.nextCoro ≤ k := hn
      omega
    · have hx := (h.coro k').running b hb
      rw [hk.running st hs] at hx
      exact absurd (Option.some.inj hx).symm hk'
  refine Life.waited (w := w.coroYield k a) hyield c fun k' hk' => ?_
  cases hk'
  rcases ha with rfl | rfl
  · exact .inl (by simp [coroYield, setState])
  · exact .inr (by simp [coroYield, setState])

theorem recvItem_life {st : Option Await} (h : Life w hand)
    (hs : (w.coros k).state = .running st) (hopt : ∀ c, st ≠ some (.setopt c))
    (hw : w.Works k c) : Life (w.recvItem k c) hand := by
  unfold recvItem
  split
  · rename_i item rest _
    have ha : Alike w ((w.setConn c ({ · with rx := rest })).withReader c
        fun r => (r.moreItem item).2) :=
      (setConn_alike c _ ⟨rfl, rfl, rfl, rfl, rfl⟩ rfl rfl).trans (withReader_alike c _)
    exact out_life (h.alike ha) (by rw [ha.coros]; exact hs) hopt
  · split
    · have ha := @withReader_alike w c fun r => r.moreEnded ((w.conns c).err < 0)
      exact out_life (h.alike ha) (by rw [ha.coros]; exact hs) hopt
    · exact park_life h hs hopt (.inl rfl) hw

theorem pauseEnd_life {st : Option Await} (h : Life w hand)
    (hs : (w.coros k).state = .running st) (hopt : ∀ c, st ≠ some (.setopt c)) (c : Nat) :
    Life (w.pauseEnd k c) hand := by
  unfold pauseEnd
  split
  · rename_i hr
    have hc := h.conn c
    refine out_life ?_ hs hopt
    exact Life.unpark [] [] (x := { w.conns c with recv := .paused })
      (s := w.starved.erase c) h ⟨rfl, rfl, rfl, rfl, rfl, rfl, rfl, rfl, rfl, rfl⟩ nofun nofun
      (by simp [hr]) (.inr rfl) ⟨rfl, rfl, rfl⟩ rfl rfl (hc.live (by simp [hr]))
      (hc.live (by simp [hr])) (by simp [hr]) hc.erased count_erase_other
  · exact out_life h hs hopt

theorem pauseTurn_life {st : Option Await} (h : Life w hand)
    (hs : (w.coros k).state = .running st) (hopt : ∀ c, st ≠ some (.setopt c))
    (hw : w.Works k c) : Life (w.pauseTurn k c) hand := by
  unfold pauseTurn
  split
  · exact park_life h hs hopt (.inr rfl) hw
  · refine pauseEnd_life (h.alike (setConn_alike c ({ · with pausing := false })
      ⟨rfl, rfl, rfl, rfl, rfl⟩ rfl rfl)) ?_ hopt c
    exact hs

theorem recvPause_life {st : Option Await} (h : Life w hand)
    (hs : (w.coros k).state = .running st) (hopt : ∀ c, st ≠ some (.setopt c))
    (hw : w.Works k c) : Life (w.recvPause k c) hand := by
  unfold recvPause
  split
  · have ha : Alike w ((w.setConn c ({ · with pausing := true })).cancelRecv c) :=
      (setConn_alike c _ ⟨rfl, rfl, rfl, rfl, rfl⟩ rfl rfl).trans (cancelRecv_alike c)
    refine pauseTurn_life (h.alike ha) (by rw [ha.coros]; exact hs) hopt ?_
    obtain ⟨-, -, h3, h4, -⟩ := ha.conn c
    exact ⟨h4.trans hw.1, h3.trans hw.2.1, hw.2.2⟩
  · exact pauseEnd_life h hs hopt c

theorem recvResume_life (h : Life w hand) (c : Nat) : Life (w.recvResume c) hand := by
  have hc := h.conn c
  unfold recvResume
  dsimp only
  split
  · exact h
  · rename_i hx
    simp only [not_or, not_not] at hx
    have hr : (w.conns c).recv = .paused := hx.1
    have hlive := hc.live (by simp [hr])
    obtain ⟨h1, h2, h3, h4⟩ := hc.unarmed (by simp [hr])
    have hst : w.starved.count c = 0 := by rw [hc.starved, hr]; rfl
    split
    · have he := endInput_steady (w.conns c) (-ECANCELED) .done
      refine connUnref_life ?_
      refine Life.unpark [] [.unref c] h (setConn_turned c
        fun x => { Conn.endInput x (-ECANCELED) with recv := .done }) nofun (by simp)
        (by simp [hr]) (.inl rfl) he.1.keeps he.2 he.1.closed hlive (he.1.refs ▸ hlive) ?_ hst
        fun _ _ => rfl
      rw [he.1.refs]
      simp [hr]
    · refine Life.turned [] [] (s := w.starved)
        (x := { w.conns c with recv := .armed, cancelling := false, armed := true }) h
        ⟨rfl, rfl, rfl, rfl, rfl, rfl, rfl, rfl, rfl, rfl⟩ nofun nofun ⟨rfl, rfl, rfl⟩ hlive hlive
        ?_ ?_ (fun _ _ => rfl) ?_ (fun hx => absurd rfl hx) .inl
      · have hcr := hc.refs
        rw [hr] at hcr
        exact hcr
      · rw [hst]
        rfl
      · rw [h2, h3, if_neg h4]
        rfl

-- ---------------------------------------------------------------------------
-- Opening and closing
-- ---------------------------------------------------------------------------

/-- Out of the setsockopt of a connect: the recv is to be armed. -/
theorem opened_life (h : Life w hand) (hs : (w.coros k).state = .running (some (.setopt c))) :
    Life (w.setState k (.running none)) (.tail c false :: hand) := by
  have hk := h.coro k
  obtain ⟨h1, h2, h3⟩ := seat_running hk hs
  have hown := hk.on (.setopt c) c (by rw [hs]; rfl) rfl
  have hop : w.opening c := by
    unfold opening
    rw [hown.1, hs]
    rfl
  have hseat : Seated k (.running none) w (w.setState k (.running none)) :=
    .of_update rfl rfl rfl rfl rfl (.inl rfl) rfl
  refine h.reseated hseat (fun d => ?_) ⟨?_, ?_, ?_, ?_, fun hn => ?_⟩
    fun k' _ => ⟨rfl, rfl, (h.coro k').running⟩
  · by_cases hd : d = c
    · subst hd
      have hc := h.conn d
      obtain ⟨hq, ht⟩ := hc.opened hop
      have hl := hc.lasts
      have hzero (more : Bool) : (hand ++ w.tasks).count (.tail d more) = 0 :=
        List.count_eq_zero_of_not_mem (ht more)
      have hr : (w.conns d).recv = .armed := by
        by_contra hx
        rw [lasts, if_pos hop, if_neg hx] at hl
        omega
      have hno : ¬ (w.setState k (.running none)).opening d := by
        intro hx
        have hx : ((w.setState k (.running none)).coros (w.conns d).owner).state.await =
          some (.setopt d) := hx
        rw [hown.1, hseat.state] at hx
        cases hx
      refine ⟨?_, hc.recycled, hc.fresh, hc.starved, ?_, hc.seen, fun _ _ => hr, fun _ => hq, ?_,
        fun hx => absurd hx hno, ?_⟩
      · rw [List.cons_append, count_unref_tail]
        exact hc.refs
      · rw [lasts, if_pos hop, if_pos hr, hzero] at hl
        rw [lasts, if_neg hno, List.cons_append, List.count_cons_self]
        show _ + List.countP _ w.cq + ((hand ++ w.tasks).count _ + 1) + 0 = if (w.conns d).recv = _
          then 1 else 0
        rw [hzero, if_pos hr]
        exact hl
      · rw [List.cons_append, List.count_cons_self, List.count_cons_of_ne (by simp)]
        have h4 := hzero true
        have h5 := hzero false
        show (hand ++ w.tasks).count _ + ((hand ++ w.tasks).count _ + 1) ≤ 1
        omega
      · intro k' hw'
        rcases hc.waiter k' hw' with hx | hx <;>
          · have hne : k' ≠ k := fun he => by
              rw [he, hs] at hx
              cases hx
            rw [hseat.other k' hne]
            simp [hx]
    · refine hseat.held (h.conn d) (fun t ht => ?_) ?_ fun hw => absurd hw (waiter_ne h hs d)
      · rw [List.cons_append, List.count_cons_of_ne]
        rintro rfl
        exact hd (Option.some.inj ht).symm
      · unfold opening
        show ((w.setState k (.running none)).coros (w.conns d).owner).state.await = _ ↔ _
        by_cases hw : (w.conns d).owner = k
        · rw [hw, hseat.state, hs]
          refine iff_of_false (by simp [CoState.await]) fun hx => hd ?_
          simpa [CoState.await] using hx.symm
        · rw [hseat.other _ hw]
  · intro a d ha
    rw [hseat.state] at ha
    cases ha
  · rw [hseat.state]
    exact h1
  · rw [hseat.state]
    exact h2
  · exact fun _ _ => hk.running _ hs
  · have : w.nextCoro ≤ k := hn
    omega

/-- The setsockopt of a connect: the recv is to be armed behind it. -/
theorem opening_life (h : Life w (.tail c false :: hand))
    (hs : (w.coros k).state = .running none) (hw : w.Works k c) :
    Life (w.ioAwait k (.setopt c)) hand := by
  have hk := h.coro k
  have hl := h.atLast
  obtain ⟨h1, h2, h3⟩ := seat_running hk hs
  have hseat : Seated k (.parked (.setopt c)) w (w.ioAwait k (.setopt c)) :=
    .of_update rfl rfl rfl rfl rfl (.inl rfl) rfl
  refine h.reseated hseat (fun d => ?_) ⟨?_, ?_, ?_, ?_, fun hn => ?_⟩ fun k' hk' =>
    ⟨?_, rfl, fun a ha => ?_⟩
  · by_cases hd : d = c
    · subst hd
      have hc := h.conn d
      have hop : (w.ioAwait k (.setopt d)).opening d := by
        show ((w.ioAwait k (.setopt d)).coros (w.conns d).owner).state.await = some (.setopt d)
        rw [hw.1, hseat.state]
        rfl
      refine ⟨h.refs_tail.trans ?_, hc.recycled, hc.fresh, hc.starved, ?_, hc.seen,
        fun more hm => absurd hm (hl.tasks more), fun hm => absurd hm (hl.tasks false), ?_,
        fun _ => ⟨hl.cq, hl.tasks⟩, ?_⟩
      · show _ = _ + (if (w.conns d).recv = .done then 0 else 1) + _
        rw [hl.recv]
        rfl
      · rw [lasts, if_pos hop]
        show (if (w.conns d).armed = true then 1 else 0) + w.cq.countP _ +
          (hand ++ w.tasks).count _ + 1 = if (w.conns d).recv = .armed then 1 else 0
        rw [hl.armed, hl.lasts, hl.count, hl.recv]
        rfl
      · have h4 := hl.count true
        have h5 := hl.count false
        show (hand ++ w.tasks).count _ + (hand ++ w.tasks).count _ ≤ 1
        omega
      · intro k' hw'
        rcases hc.waiter k' hw' with hx | hx <;>
          · have hne : k' ≠ k := fun he => by
              rw [he, hs] at hx
              cases hx
            rw [hseat.other k' hne]
            simp [hx]
    · refine hseat.held (h.conn d) (fun t ht => ?_) ?_ fun hw => absurd hw (waiter_ne h hs d)
      · rw [List.cons_append, List.count_cons_of_ne]
        rintro rfl
        exact hd (Option.some.inj ht).symm
      · unfold opening
        show ((w.ioAwait k (.setopt c)).coros (w.conns d).owner).state.await = _ ↔ _
        by_cases hw : (w.conns d).owner = k
        · rw [hw, hseat.state, hs]
          refine iff_of_false (fun hx => hd ?_) (by simp [CoState.await])
          simpa [CoState.await] using hx.symm
        · rw [hseat.other _ hw]
  · intro a d ha hd
    rw [hseat.state] at ha
    cases ha
    cases hd
    exact hw
  · rw [hseat.state]
    show (w.ops ++ [k]).count k + w.cq.count (.op k) = 1
    rw [List.count_append, List.count_singleton_self]
    omega
  · rw [hseat.state]
    exact h2
  · intro a ha
    rw [hseat.state] at ha
    cases ha
  · have : w.nextCoro ≤ k := hn
    omega
  · show (w.ops ++ [k]).count k' = _
    rw [List.count_append, List.count_singleton, if_neg (by simpa using Ne.symm hk'), Nat.add_zero]
  · have hx := (h.coro k').running a ha
    rw [hk.running _ hs] at hx
    exact absurd (Option.some.inj hx).symm hk'

theorem ioAwait_life (h : Life w hand) (hs : (w.coros k).state = .running none) :
    Life (w.ioAwait k .op) hand := by
  have hk := h.coro k
  obtain ⟨h1, h2, h3⟩ := seat_running hk hs
  have hseat : Seated k (.parked .op) w (w.ioAwait k .op) :=
    .of_update rfl rfl rfl rfl rfl (.inl rfl) rfl
  refine h.seated hseat (fun c => ?_) (fun d hd => absurd hd (waiter_ne h hs d))
    ⟨?_, ?_, ?_, ?_, fun hn => ?_⟩ fun k' hk' => ⟨?_, rfl, fun a ha => ?_⟩
  · rw [hs]
    exact iff_of_false nofun nofun
  · intro a d ha hd
    rw [hseat.state] at ha
    cases ha
    cases hd
  · rw [hseat.state]
    show (w.ops ++ [k]).count k + w.cq.count (.op k) = 1
    rw [List.count_append, List.count_singleton_self]
    omega
  · rw [hseat.state]
    exact h2
  · intro a ha
    rw [hseat.state] at ha
    cases ha
  · have : w.nextCoro ≤ k := hn
    omega
  · show (w.ops ++ [k]).count k' = _
    rw [List.count_append, List.count_singleton, if_neg (by simpa using Ne.symm hk'), Nat.add_zero]
  · have hx := (h.coro k').running a ha
    rw [hk.running _ hs] at hx
    exact absurd (Option.some.inj hx).symm hk'

theorem opening_unused (h : Life w hand) (k : Nat) :
    (w.coros k).state.await ≠ some (.setopt w.nextConn) := fun hx =>
  absurd ((h.coro k).on _ _ hx rfl).2.2 (Nat.lt_irrefl _)

/-- What is new of a connection that is to come: two references, and a recv that
its first task arms. -/
theorem connNew_held (h : Life w hand) (tls : Bool) (owner : Nat) (pr : Pipereader) :
    Held (w.connNew tls owner pr) (.tail w.nextConn false :: hand) w.nextConn := by
  have hn := h.conn w.nextConn
  have hr0 := hn.fresh (Nat.le_refl _)
  have hrefs := hn.refs
  rw [hr0] at hrefs
  have hdone : (w.conns w.nextConn).recv = .done := by
    by_contra hx
    rw [if_neg hx] at hrefs
    split at hrefs <;> omega
  have hunref : (hand ++ w.tasks).count (.unref w.nextConn) = 0 := by
    rw [if_pos hdone] at hrefs
    split at hrefs <;> omega
  obtain ⟨hq, htail⟩ := hn.idle (by rw [hdone]; simp)
  obtain ⟨-, hlast, -, -⟩ := hn.unarmed (by rw [hdone]; simp)
  have hzero (more : Bool) : (hand ++ w.tasks).count (.tail w.nextConn more) = 0 :=
    List.count_eq_zero_of_not_mem (htail more)
  have hself : (w.connNew tls owner pr).conns w.nextConn =
      { tls := tls, waiter := none, rx := [], recv := .armed, pausing := false,
        cancelling := false, refs := 2, closed := false, eof := false, err := 0, pr := pr,
        owner := owner, armed := false, recycled := 0 } := Function.update_self ..
  refine ⟨?_, ?_, fun hx => ?_, ?_, ?_, fun _ _ _ => by rw [hself], fun _ _ => by rw [hself],
    fun _ => hq, ?_, fun hx => absurd hx (opening_unused h _), ?_⟩
  · rw [hself, List.cons_append, count_unref_tail]
    show (2 : Int) = 1 + 1 + ((hand ++ w.tasks).count (.unref w.nextConn) : Nat)
    rw [hunref]
    rfl
  · rw [hself]
    simp
  · have : w.nextConn + 1 ≤ w.nextConn := hx
    omega
  · rw [hself]
    show w.starved.count _ = 0
    rw [hn.starved, hdone]
    rfl
  · have hx : ¬ (w.connNew tls owner pr).opening w.nextConn := opening_unused h _
    rw [lasts, if_neg hx, hself, List.cons_append, List.count_cons_self]
    show 0 + w.cq.countP _ + ((hand ++ w.tasks).count _ + 1) + 0 = 1
    rw [hlast, hzero]
  · rw [List.cons_append, List.count_cons_self, List.count_cons_of_ne (by simp)]
    have h4 := hzero true
    have h5 := hzero false
    show (hand ++ w.tasks).count _ + ((hand ++ w.tasks).count _ + 1) ≤ 1
    omega
  · rw [hself]
    simp

theorem connNew_other (h : Life w hand) (tls : Bool) (owner : Nat) (pr : Pipereader) {d : Nat}
    (hd : d ≠ w.nextConn) : Held (w.connNew tls owner pr) (.tail w.nextConn false :: hand) d := by
  have hc := h.conn d
  have e : (w.connNew tls owner pr).conns d = w.conns d := Function.update_of_ne hd _ _
  have hcount (t : Task) (ht : t.conn = some d) :
      (.tail w.nextConn false :: hand ++ w.tasks).count t = (hand ++ w.tasks).count t := by
    rw [List.cons_append, List.count_cons_of_ne]
    rintro rfl
    exact hd (Option.some.inj ht).symm
  have hmem {more : Bool} (hm : .tail d more ∈ .tail w.nextConn false :: hand ++ w.tasks) :
      .tail d more ∈ hand ++ w.tasks := by
    rw [← List.count_pos_iff] at hm ⊢
    rwa [← hcount _ rfl]
  have ho : (w.connNew tls owner pr).opening d ↔ w.opening d := by
    unfold opening
    rw [e]
    rfl
  refine ⟨?_, ?_, fun hx => ?_, ?_, ?_, ?_, fun more hm => ?_, fun hm => hc.behind (hmem hm),
    ?_, fun hop => ?_, ?_⟩
  · rw [e]
    show _ = _ + _ + ((.tail w.nextConn false :: hand ++ w.tasks).count (.unref d) : Int)
    rw [hcount _ rfl]
    exact hc.refs
  · rw [e, hc.recycled]
    refine if_congr ⟨fun hx => ⟨Nat.lt_succ_of_lt hx.1, hx.2⟩, fun hx => ⟨?_, hx.2⟩⟩ rfl rfl
    exact Nat.lt_of_le_of_ne (Nat.le_of_lt_succ hx.1) hd
  · have : w.nextConn + 1 ≤ d := hx
    rw [e]
    exact hc.fresh (by omega)
  · rw [e]
    exact hc.starved
  · have hl := hc.lasts
    simp only [lasts, e, ho] at hl ⊢
    show _ + List.countP _ w.cq +
      (.tail w.nextConn false :: hand ++ w.tasks).count (.tail d false) + _ = _
    rw [hcount _ rfl]
    exact hl
  · rw [e]
    exact hc.seen
  · rw [e]
    exact hc.tail more (hmem hm)
  · show (.tail w.nextConn false :: hand ++ w.tasks).count _ +
      (.tail w.nextConn false :: hand ++ w.tasks).count _ ≤ 1
    rw [hcount _ rfl, hcount _ rfl]
    exact hc.single
  · obtain ⟨h4, h5⟩ := hc.opened (ho.mp hop)
    exact ⟨h4, fun more hm => h5 more (hmem hm)⟩
  · rw [e]
    exact hc.waiter

theorem connNew_life (h : Life w hand) (tls : Bool) (owner : Nat) (pr : Pipereader) :
    Life (w.connNew tls owner pr) (.tail w.nextConn false :: hand) := by
  refine ⟨fun d => ?_, fun k => ⟨fun a d ha hd => ?_, (h.coro k).ops, (h.coro k).ready,
    (h.coro k).running, (h.coro k).fresh⟩, h.order, h.more⟩
  · by_cases hd : d = w.nextConn
    · subst hd
      exact connNew_held h tls owner pr
    · exact connNew_other h tls owner pr hd
  · obtain ⟨h4, h5, h6⟩ := (h.coro k).on a d ha hd
    have e : (w.connNew tls owner pr).conns d = w.conns d :=
      Function.update_of_ne (Nat.ne_of_lt h6) _ _
    rw [e]
    exact ⟨h4, h5, Nat.lt_succ_of_lt h6⟩

theorem unawaited (h : Life w hand) (hs : (w.coros k).state = .running none)
    (hw : (w.conns c).owner = k) (k' : Nat) (a : Await) (ha : (w.coros k').state.await = some a) :
    a.on ≠ some c := by
  intro hon
  have hk := ((h.coro k').on a c ha hon).1
  rw [← hk, hw, hs] at ha
  cases ha

theorem closeRecv_life (h : Life w (.unref c :: hand)) :
    Life (w.closeRecv c) (.unref c :: hand) := by
  have hc := h.conn c
  have hrefs := hc.refs
  rw [List.cons_append, List.count_cons_self] at hrefs
  have hst : w.starved.count c = if (w.conns c).recv = .starved then 1 else 0 := hc.starved
  unfold closeRecv
  split
  · exact h.alike (cancelRecv_alike c)
  · rename_i hr
    have hlive := hc.live (by simp [hr])
    refine Life.unpark [.unref c] [.unref c] (s := w.starved.erase c)
      (x := { w.conns c with recv := .done, refs := (w.conns c).refs - 1 }) h
      ⟨rfl, rfl, rfl, rfl, rfl, rfl, rfl, rfl, rfl, rfl⟩ (by simp) (by simp) (by simp [hr])
      (.inl rfl) ⟨rfl, rfl, rfl⟩ rfl rfl hlive ?_ ?_ hc.erased count_erase_other
    · rw [hr] at hrefs
      show (w.conns c).refs - 1 ≠ 0
      simp only [reduceCtorEq, if_false] at hrefs
      split at hrefs <;> omega
    · simp only [hr, reduceCtorEq, if_false, if_true]
      omega
  · rename_i hr
    have hlive := hc.live (by simp [hr])
    refine Life.unpark [.unref c] [.unref c] h (setConn_turned c
      fun x => { x with recv := .done, refs := x.refs - 1 }) (by simp) (by simp) (by simp [hr])
      (.inl rfl) ⟨rfl, rfl, rfl⟩ rfl rfl hlive ?_ ?_ (by rw [hst, hr]; rfl) fun _ _ => rfl
    · rw [hr] at hrefs
      show (w.conns c).refs - 1 ≠ 0
      simp only [reduceCtorEq, if_false] at hrefs
      split at hrefs <;> omega
    · simp only [hr, reduceCtorEq, if_false, if_true]
      omega
  · exact h

theorem pipeClose_life (h : Life w hand) (hs : (w.coros k).state = .running none)
    (hw : w.Works k c) : Life (w.pipeClose c) hand := by
  have ha := @withReader_alike w c Reader.close
  have hv := h.alike ha
  obtain ⟨-, -, h3, h4, -⟩ := ha.conn c
  unfold pipeClose
  generalize w.withReader c Reader.close = v at ha hv h3 h4
  have hc := hv.conn c
  have hcl : (v.conns c).closed = false := h3.trans hw.2.1
  have hrefs := hc.refs
  rw [hcl] at hrefs
  have hlive : (v.conns c).refs ≠ 0 := by
    simp only [Bool.false_eq_true, if_false] at hrefs
    split at hrefs <;> omega
  have hclosed : Life (v.setConn c ({ · with closed := true })) ([.unref c] ++ hand) := by
    refine Life.turned [] [.unref c] hv (setConn_turned c _) nofun (by simp)
      ⟨rfl, rfl, rfl⟩ hlive hlive ?_ hc.starved (fun _ _ => rfl) hc.lasts .inl fun _ => .inr ?_
    · show (v.conns c).refs = 0 + _ + ((.unref c :: hand ++ v.tasks).count (.unref c) : Nat)
      rw [hrefs, List.cons_append, List.count_cons_self]
      simp only [Bool.false_eq_true, if_false]
      omega
    · exact unawaited hv (by rw [ha.coros]; exact hs) (h4.trans hw.1)
  have hret := closeRecv_life hclosed
  unfold connClose
  refine connUnref_life (hret.alike ?_)
  unfold returnRx
  exact (setConn_alike c ({ · with rx := [] }) ⟨rfl, rfl, rfl, rfl, rfl⟩ rfl rfl).trans
    (returnAll_alike _)

theorem pipeClose_coros (c : Nat) : (w.pipeClose c).coros = w.coros := by
  have h1 (v : Worker) : (v.closeRecv c).coros = v.coros := by
    unfold closeRecv
    split <;> rfl
  have h2 (v : Worker) : (v.connUnref c).coros = v.coros := by
    unfold connUnref
    dsimp only
    split <;> rfl
  have h3 (v : Worker) : (v.returnRx c).coros = v.coros := (returnAll_alike _).coros
  unfold pipeClose connClose
  rw [h2, h3, h1]
  exact (withReader_alike c _).coros

theorem finished_life (h : Life w hand) (hs : (w.coros k).state = .running none) :
    Life { w.setState k .finished with running := none } hand := by
  have hk := h.coro k
  obtain ⟨h1, h2, h3⟩ := seat_running hk hs
  have hseat : Seated k .finished w { w.setState k .finished with running := none } :=
    .of_update rfl rfl rfl rfl rfl (.inl rfl) rfl
  refine h.seated hseat (fun c => ?_) (fun d hd => absurd hd (waiter_ne h hs d))
    ⟨fun a d ha => ?_, ?_, ?_, fun a ha => ?_, fun _ => hseat.state⟩ fun k' hk' =>
      ⟨rfl, rfl, fun a ha => ?_⟩
  · rw [hs]
    exact iff_of_false nofun nofun
  · rw [hseat.state] at ha
    cases ha
  · rw [hseat.state]
    exact h1
  · rw [hseat.state]
    exact h2
  · rw [hseat.state] at ha
    cases ha
  · have hx := (h.coro k').running a ha
    rw [hk.running _ hs] at hx
    exact absurd (Option.some.inj hx).symm hk'

theorem coGoes_life {a : Await} (h : Life w hand) (hs : (w.coros k).state = .running (some a)) :
    Life (w.coGoes k a) hand := by
  have hon (c : Nat) (hc : a.on = some c) : w.Works k c := (h.coro k).on a c (by rw [hs]; rfl) hc
  cases a with
  | item c => exact recvItem_life h hs nofun (hon c rfl)
  | pause c => exact pauseTurn_life h hs nofun (hon c rfl)
  | op => exact out_life h hs nofun
  | setopt c => exact (opened_life h hs).rearmed

theorem coActs_life {a : CoAct} (h : Life w hand) (hs : (w.coros k).state = .running none)
    (ha : w.coActs k a = some w') : Life w' hand := by
  cases a with
  | more c =>
    simp only [coActs, Option.ite_none_right_eq_some, Option.some.injEq] at ha
    obtain ⟨hw, rfl⟩ := ha
    split
    · exact h
    · exact recvItem_life h hs (by simp) hw
  | reader c op =>
    simp only [coActs, Option.ite_none_right_eq_some, Option.some.injEq] at ha
    exact ha.2 ▸ h.alike (withReader_alike c _)
  | pause c =>
    simp only [coActs, Option.ite_none_right_eq_some, Option.some.injEq] at ha
    exact ha.2 ▸ recvPause_life h hs (by simp) ha.1
  | resume c =>
    simp only [coActs, Option.ite_none_right_eq_some, Option.some.injEq] at ha
    exact ha.2 ▸ recvResume_life h c
  | await => exact Option.some.inj ha ▸ ioAwait_life h hs
  | connected pr =>
    refine Option.some.inj ha ▸ opening_life (connNew_life h false k pr) hs ⟨?_, ?_, ?_⟩
    · simp [connNew]
    · simp [connNew]
    · exact Nat.lt_succ_self _
  | close c =>
    simp only [coActs, Option.ite_none_right_eq_some, Option.some.injEq] at ha
    exact ha.2 ▸ pipeClose_life h hs ha.1.1
  | finish =>
    simp only [coActs, Option.ite_none_right_eq_some, Option.some.injEq] at ha
    obtain ⟨hw, rfl⟩ := ha
    exact finished_life (pipeClose_life h hs hw) (by rw [pipeClose_coros]; exact hs)

end Worker

end Ioxd.Io
