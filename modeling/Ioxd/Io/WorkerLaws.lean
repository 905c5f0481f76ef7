import Ioxd.Io.Worker
import Ioxd.Lib.Runs
import Mathlib.Data.List.Induction

/-!
# What one move of the worker leaves alone

Most moves are calm: nothing is armed behind a shutdown, the listeners that
were stalled for it stay so, no recv is newly parked, the kernel's side of the
ring does not move, and every buffer given back is counted. `Calm` says so, one
lemma for each function of the source; the moves that are not calm (a
completion, a sweep, a recv that starves, the start of the shutdown) are left
to the invariants they matter to.
-/

namespace Ioxd.Io

open Flat Ioxd.Pipe Runs

structure Bufring.Fed (b b' : Bufring) : Prop where
  count : b'.count = b.count
  head : b'.head = b.head
  tail : b.tail ≤ b'.tail
  returned : b'.returned + b.tail = b.returned + b'.tail

namespace Bufring

variable {b b' b'' : Bufring}

theorem Fed.refl (b : Bufring) : b.Fed b := ⟨rfl, rfl, Nat.le_refl _, rfl⟩

theorem Fed.trans (h : b.Fed b') (h' : b'.Fed b'') : b.Fed b'' := by
  obtain ⟨h1, h2, h3, h4⟩ := h
  obtain ⟨h5, h6, h7, h8⟩ := h'
  exact ⟨h5.trans h1, h6.trans h2, Nat.le_trans h3 h7, by omega⟩

theorem giveBack_fed (b : Bufring) (id : Nat) : b.Fed (b.giveBack id) :=
  ⟨rfl, rfl, Nat.le_succ _, by simp only [giveBack]; omega⟩

theorem publish_fed (b : Bufring) : b.Fed b.publish := by
  unfold publish
  split
  · exact ⟨rfl, rfl, Nat.le_refl _, rfl⟩
  · exact .refl b

end Bufring

structure Calm (w w' : Worker) : Prop where
  draining : w'.draining = w.draining
  arms : ∀ a ∈ w'.arms, a ∈ w.arms ∨ a.draining = false
  stalled : w.draining = true → (∀ l ∈ w.listeners, l.stalled = true) →
    ∀ l ∈ w'.listeners, l.stalled = true
  cq : w'.cq = w.cq
  swept : w'.swept = w.swept
  tasks : ∀ t ∈ w.tasks, t ∈ w'.tasks
  starved : ∀ c ∈ w'.starved, c ∈ w.starved
  listed : ∀ c, (w'.conns c).recv = .starved →
    (w.conns c).recv = .starved ∧ (c ∈ w.starved → c ∈ w'.starved)
  bufs : w.bufs.Fed w'.bufs

variable {w w' w'' : Worker}

theorem Calm.refl (w : Worker) : Calm w w :=
  ⟨rfl, fun _ h => .inl h, fun _ h => h, rfl, rfl, fun _ h => h, fun _ h => h,
    fun _ h => ⟨h, fun h => h⟩, .refl _⟩

theorem Calm.trans (h : Calm w w') (h' : Calm w' w'') : Calm w w'' where
  draining := h'.draining.trans h.draining
  arms a ha := (h'.arms a ha).elim (h.arms a) .inr
  stalled hd hl := h'.stalled (h.draining.trans hd) (h.stalled hd hl)
  cq := h'.cq.trans h.cq
  swept := h'.swept.trans h.swept
  tasks t ht := h'.tasks t (h.tasks t ht)
  starved c hc := h.starved c (h'.starved c hc)
  listed c hc :=
    have h2 := h'.listed c hc
    have h1 := h.listed c h2.1
    ⟨h1.1, fun hm => h2.2 (h1.2 hm)⟩
  bufs := h.bufs.trans h'.bufs

/-- Only connections, coroutines and what no invariant here reads have
changed, and no recv is newly parked. -/
theorem Calm.of_eq (hd : w'.draining = w.draining) (ha : w'.arms = w.arms)
    (hl : w'.listeners = w.listeners) (hq : w'.cq = w.cq) (hw : w'.swept = w.swept)
    (ht : w'.tasks = w.tasks) (hs : w'.starved = w.starved) (hb : w'.bufs = w.bufs)
    (hr : ∀ c, (w'.conns c).recv = .starved → (w.conns c).recv = .starved) : Calm w w' where
  draining := hd
  arms _ h := .inl (ha ▸ h)
  stalled _ h := hl ▸ h
  cq := hq
  swept := hw
  tasks _ h := ht ▸ h
  starved _ h := hs ▸ h
  listed c h := ⟨hr c h, fun h => hs ▸ h⟩
  bufs := hb ▸ .refl _

namespace Worker

theorem setConn_calm (c : Nat) (f : Conn → Conn)
    (hf : (f (w.conns c)).recv = .starved → (w.conns c).recv = .starved) :
    Calm w (w.setConn c f) := by
  refine .of_eq rfl rfl rfl rfl rfl rfl rfl rfl fun d => ?_
  by_cases h : d = c
  · subst h
    simpa [setConn] using hf
  · simp [setConn, h]

theorem setState_calm (k : Nat) (st : CoState) : Calm w (w.setState k st) :=
  .of_eq rfl rfl rfl rfl rfl rfl rfl rfl fun _ h => h

theorem bufringReturn_calm (id : Nat) : Calm w (w.bufringReturn id) :=
  { Calm.refl w with bufs := w.bufs.giveBack_fed id }

theorem returnAll_calm (ids : List Nat) : Calm w (w.returnAll ids) := by
  induction ids generalizing w with
  | nil => exact .refl w
  | cons id ids ih => exact (bufringReturn_calm id).trans ih

theorem coroResume_calm (k : Nat) : Calm w (w.coroResume k) :=
  .of_eq rfl rfl rfl rfl rfl rfl rfl rfl fun _ h => h

theorem coroYield_calm (k : Nat) (a : Await) : Calm w (w.coroYield k a) :=
  .of_eq rfl rfl rfl rfl rfl rfl rfl rfl fun _ h => h

theorem ioAwait_calm (k : Nat) (a : Await) : Calm w (w.ioAwait k a) :=
  .of_eq rfl rfl rfl rfl rfl rfl rfl rfl fun _ h => h

theorem connNew_calm (tls : Bool) (owner : Nat) (pr : Pipereader) :
    Calm w (w.connNew tls owner pr) := by
  refine .of_eq rfl rfl rfl rfl rfl rfl rfl rfl fun d => ?_
  by_cases h : d = w.nextConn
  · simp [connNew, h]
  · simp [connNew, h]

theorem connUnref_calm (c : Nat) : Calm w (w.connUnref c) := by
  have h1 : Calm w (w.setConn c fun x => { x with refs := x.refs - 1 }) := setConn_calm c _ id
  unfold connUnref
  dsimp only
  split
  · exact h1
  · refine (h1.trans (setConn_calm c (fun x => { x with recycled := x.recycled + 1 }) id)).trans ?_
    exact .of_eq rfl rfl rfl rfl rfl rfl rfl rfl fun _ h => h

theorem wakeReader_calm (c : Nat) : Calm w (w.wakeReader c) := by
  unfold wakeReader
  split
  · exact .refl w
  · exact (setConn_calm c ({ · with waiter := none }) id).trans (coroResume_calm _)

theorem setRecv_done_calm (c : Nat) : Calm w (w.setRecv c .done) :=
  setConn_calm c _ fun h => by cases h

theorem cancelRecv_calm (c : Nat) : Calm w (w.cancelRecv c) := setConn_calm c _ id

theorem afterwards_calm (t : Task) : Calm w (w.afterwards t) :=
  { Calm.refl w with tasks := fun _ h => List.mem_cons_of_mem _ h }

theorem paused_calm (c : Nat) : Calm w (w.paused c) :=
  (setConn_calm c _ fun h => by cases h).trans (wakeReader_calm c)

@[simp] theorem endInput_recv (x : Conn) (err : Int) : (Conn.endInput x err).recv = x.recv := by
  unfold Conn.endInput
  split <;> rfl

theorem ending_calm (c : Nat) (err : Int) : Calm w
    (((w.setConn c fun x => { Conn.endInput x err with recv := .done }).wakeReader c).afterwards
      (.unref c)) :=
  ((setConn_calm c _ fun h => by cases h).trans (wakeReader_calm c)).trans (afterwards_calm _)

theorem onEnded_calm (c : Nat) (result : Int) (buf : Option Nat) :
    Calm w (w.onEnded c result buf) := by
  have h := returnAll_calm (w := w) buf.toList
  unfold onEnded
  dsimp only
  split
  · exact h.trans (paused_calm c)
  · exact h.trans (ending_calm c _)

theorem stopInput_calm (c : Nat) (err : Int) (more : Bool) :
    Calm w (w.stopInput c err more) := by
  have h : Calm w (w.setConn c fun x => Conn.endInput x err) :=
    setConn_calm c _ fun h => by simpa using h
  unfold stopInput
  dsimp only
  split
  · exact (h.trans (cancelRecv_calm c)).trans (wakeReader_calm c)
  · exact h.trans (wakeReader_calm c)

theorem onData_calm (c : Nat) (result : Int) (more : Bool) (buf : Option Nat) :
    Calm w (w.onData c result more buf) := by
  unfold onData
  split
  · exact stopInput_calm c _ more
  · rename_i id
    split
    · exact bufringReturn_calm id
    · split
      · exact (bufringReturn_calm id).trans (stopInput_calm c _ more)
      · exact (setConn_calm c (fun x => { x with rx := x.rx ++ [⟨result.toNat, id⟩] }) (·)).trans
          (wakeReader_calm c)

theorem armRecv_calm (c : Nat) (hd : w.draining = false) : Calm w (w.armRecv c) := by
  have h : Calm w (w.setConn c ({ · with recv := .armed, cancelling := false, armed := true })) :=
    setConn_calm c _ fun h => by cases h
  refine { h with arms := fun a ha => ?_ }
  rcases List.mem_append.mp ha with ha | ha
  · exact .inl ha
  · exact .inr (by simp_all)

theorem recvDrain_calm (c : Nat) : Calm w (w.recvDrain c) := by
  unfold recvDrain
  split
  · exact .refl w
  · exact ending_calm c _

theorem unpark_calm (c : Nat) (f : Conn → Conn) (hf : (f (w.conns c)).recv ≠ .starved) :
    Calm w ((w.starvedRemove c).setConn c f) where
  draining := rfl
  arms a h := .inl h
  stalled _ h := h
  cq := rfl
  swept := rfl
  tasks t h := h
  starved d h := List.mem_of_mem_erase h
  listed d h := by
    by_cases hd : d = c
    · subst hd
      simp [setConn, starvedRemove, hf] at h
    · refine ⟨by simpa [setConn, starvedRemove, hd] using h, fun hm => ?_⟩
      exact (List.mem_erase_of_ne hd).mpr hm
  bufs := .refl _

theorem closeRecv_calm (c : Nat) : Calm w (w.closeRecv c) := by
  unfold closeRecv
  split
  · exact cancelRecv_calm c
  · exact unpark_calm c _ nofun
  · exact setConn_calm c _ fun h => by cases h
  · exact .refl _

theorem returnRx_calm (c : Nat) : Calm w (w.returnRx c) :=
  (setConn_calm c ({ · with rx := [] }) id).trans (returnAll_calm _)

theorem connClose_calm (c : Nat) : Calm w (w.connClose c) :=
  (((setConn_calm c ({ · with closed := true }) id).trans (closeRecv_calm c)).trans
    (returnRx_calm c)).trans (connUnref_calm c)

theorem withReader_calm (c : Nat) (f : Reader → Reader) : Calm w (w.withReader c f) := by
  have h := (setConn_calm (w := w) c ({ · with pr := (f ⟨(w.conns c).pr, w.slab, []⟩).pr }) id).trans
    (returnAll_calm (f ⟨(w.conns c).pr, w.slab, []⟩).back)
  exact h.trans (.of_eq rfl rfl rfl rfl rfl rfl rfl rfl fun _ h => h)

theorem recvItem_calm (k c : Nat) : Calm w (w.recvItem k c) := by
  unfold recvItem
  split
  · rename_i rest _
    exact ((setConn_calm c ({ · with rx := rest }) id).trans (withReader_calm c _)).trans
      (setState_calm k _)
  · split
    · exact (withReader_calm c _).trans (setState_calm k _)
    · exact (setConn_calm c ({ · with waiter := some k }) id).trans (coroYield_calm k _)

theorem pauseEnd_calm (k c : Nat) : Calm w (w.pauseEnd k c) := by
  unfold pauseEnd
  split
  · exact (unpark_calm c ({ · with recv := .paused }) nofun).trans (setState_calm k _)
  · exact setState_calm k _

theorem pauseTurn_calm (k c : Nat) : Calm w (w.pauseTurn k c) := by
  unfold pauseTurn
  split
  · exact (setConn_calm c ({ · with waiter := some k }) id).trans (coroYield_calm k _)
  · exact (setConn_calm c ({ · with pausing := false }) id).trans (pauseEnd_calm k c)

theorem recvPause_calm (k c : Nat) : Calm w (w.recvPause k c) := by
  unfold recvPause
  split
  · exact ((setConn_calm c ({ · with pausing := true }) id).trans (cancelRecv_calm c)).trans
      (pauseTurn_calm k c)
  · exact pauseEnd_calm k c

/-- A resume arms nothing behind a shutdown: it ends the input instead. -/
theorem recvResume_calm (c : Nat) : Calm w (w.recvResume c) := by
  unfold recvResume
  dsimp only
  split
  · exact .refl w
  · split
    · exact (setConn_calm c _ fun h => by cases h).trans (connUnref_calm c)
    · exact armRecv_calm c (by simpa using ‹¬ w.draining = true›)

theorem pipeClose_calm (c : Nat) : Calm w (w.pipeClose c) :=
  (withReader_calm c _).trans (connClose_calm c)

theorem coActs_calm {a : CoAct} (h : w.coActs k a = some w') : Calm w w' := by
  cases a with
  | more c =>
    simp only [coActs, Option.ite_none_right_eq_some, Option.some.injEq] at h
    obtain ⟨-, rfl⟩ := h
    split
    · exact .refl w
    · exact recvItem_calm k c
  | reader c op =>
    simp only [coActs, Option.ite_none_right_eq_some, Option.some.injEq] at h
    exact h.2 ▸ withReader_calm c _
  | pause c =>
    simp only [coActs, Option.ite_none_right_eq_some, Option.some.injEq] at h
    exact h.2 ▸ recvPause_calm k c
  | resume c =>
    simp only [coActs, Option.ite_none_right_eq_some, Option.some.injEq] at h
    exact h.2 ▸ recvResume_calm c
  | await => exact Option.some.inj h ▸ ioAwait_calm k .op
  | connected pr =>
    exact Option.some.inj h ▸ (connNew_calm false k pr).trans (ioAwait_calm k _)
  | close c =>
    simp only [coActs, Option.ite_none_right_eq_some, Option.some.injEq] at h
    exact h.2 ▸ pipeClose_calm c
  | finish =>
    simp only [coActs, Option.ite_none_right_eq_some, Option.some.injEq] at h
    obtain ⟨-, rfl⟩ := h
    exact ((pipeClose_calm _).trans (setState_calm k .finished)).trans
      (.of_eq rfl rfl rfl rfl rfl rfl rfl rfl fun _ h => h)

/-- Out of an await: calm, but for the arm at the end of a connect behind a
shutdown. -/
theorem coGoes_calm (k : Nat) {a : Await} (h : w.draining = true → ∀ c, a ≠ .setopt c) :
    Calm w (w.coGoes k a) := by
  cases a with
  | item c => exact recvItem_calm k c
  | pause c => exact pauseTurn_calm k c
  | op => exact setState_calm k _
  | setopt c =>
    have hd : w.draining = false := by
      cases hw : w.draining with
      | false => rfl
      | true => exact absurd rfl (h hw c)
    exact (armRecv_calm c hd).trans (setState_calm k _)

/-- Where the end of `ioxd__conn_on_recv` arms the recv again. -/
def Rearms (w : Worker) (c : Nat) : Prop :=
  (w.conns c).closed = false ∧ (w.conns c).eof = false ∧ (w.conns c).pausing = false

instance (w : Worker) (c : Nat) : Decidable (w.Rearms c) := inferInstanceAs (Decidable (_ ∧ _ ∧ _))

theorem onRecvTail_calm (c : Nat) (more : Bool)
    (h : w.draining = true → more = false → ¬ w.Rearms c) : Calm w (w.onRecvTail c more) := by
  unfold onRecvTail
  dsimp only
  split
  · split
    · exact paused_calm c
    · split
      · refine armRecv_calm c ?_
        rename_i hm hp hr
        cases hw : w.draining with
        | false => rfl
        | true =>
          refine absurd ⟨by simpa using hr.1, by simpa using hr.2, ?_⟩ (h hw (by simpa using hm))
          cases hq : (w.conns c).pausing with
          | false => rfl
          | true => exact absurd ⟨hq, hr.1⟩ hp
      · exact (setRecv_done_calm c).trans (connUnref_calm c)
  · split
    · exact cancelRecv_calm c
    · exact .refl w

theorem stallAccept_calm (l : Nat) : Calm w (w.stallAccept l) := by
  refine { Calm.refl w with stalled := fun _ h x hx => ?_ }
  obtain ⟨i, hi, rfl⟩ := List.getElem_of_mem hx
  simp only [stallAccept, setListener, List.getElem_modify]
  split
  · rfl
  · exact h _ (List.getElem_mem _)

theorem armAccept_calm (l : Nat) : Calm w (w.armAccept l) := by
  unfold armAccept
  split
  · rename_i hr
    have hd : w.draining = false := by
      simp only [acceptRoom, Bool.and_eq_true, Bool.not_eq_true'] at hr
      exact hr.1
    refine { Calm.refl w with arms := fun a ha => ?_, stalled := fun h => by simp [hd] at h }
    rcases List.mem_append.mp ha with ha | ha
    · exact .inl ha
    · exact .inr (by simp_all)
  · exact stallAccept_calm l

theorem foldl_calm {β : Type} (f : Worker → β → Worker) (hf : ∀ w b, Calm w (f w b))
    (bs : List β) (w : Worker) : Calm w (bs.foldl f w) := by
  induction bs generalizing w with
  | nil => exact .refl w
  | cons b bs ih => exact (hf w b).trans (ih _)

theorem rearmStalled_calm (due : List Nat) : Calm w (w.rearmStalled due) := by
  refine foldl_calm _ (fun w' l => ?_) _ w
  split
  · split
    · exact armAccept_calm l
    · exact .refl w'
  · exact .refl w'

theorem spawn_calm (main : Nat) : Calm w (w.spawn main) :=
  .of_eq rfl rfl rfl rfl rfl rfl rfl rfl fun _ h => h

/-- An accept behind a shutdown closes the socket and leaves the listener
stalled. -/
theorem onAccept_calm (l : Nat) (result : Int) (more : Bool) (pr : Pipereader) :
    Calm w (w.onAccept l result more pr) := by
  have h1 : ∀ tls, Calm w (if result ≥ 0 ∧ w.draining = true then w
      else if result ≥ 0 then
        ((w.connNew tls w.nextCoro pr).armRecv w.nextConn).spawn w.nextConn
      else w) := by
    intro tls
    split
    · exact .refl w
    · split
      · rename_i hd hr
        refine ((connNew_calm tls _ pr).trans (armRecv_calm _ ?_)).trans (spawn_calm _)
        simpa [connNew, hr] using hd
      · exact .refl w
  unfold onAccept
  dsimp only
  split
  · exact h1 _
  · split
    · exact (h1 _).trans (stallAccept_calm l)
    · exact (h1 _).trans (armAccept_calm l)

/-- A `-ENOBUFS` on a connection that is closed, pausing or at its end. -/
theorem onNobufs_calm (c : Nat) (h : ¬ w.Rearms c) : Calm w (w.onNobufs c) := by
  unfold onNobufs
  split
  · exact (setRecv_done_calm c).trans (connUnref_calm c)
  · split
    · exact paused_calm c
    · split
      · exact ((setRecv_done_calm c).trans (wakeReader_calm c)).trans (afterwards_calm _)
      · rename_i hc hp he
        exact absurd ⟨by simpa using hc, by simpa using he, by simpa using hp⟩ h

/-- A recv completion is calm, or parks the recv of an open connection. -/
theorem onRecv_cases (c : Nat) (result : Int) (more : Bool) (buf : Option Nat) :
    Calm w (w.onRecv c result more buf) ∨
    (result = -ENOBUFS ∧ w.Rearms c ∧
      ∃ v, Calm w v ∧ w.onRecv c result more buf = (v.setRecv c .starved).starvedPush c) := by
  have hc : Calm w (if more = true then w else w.setConn c ({ · with cancelling := false })) := by
    split
    · exact .refl w
    · exact setConn_calm c _ id
  have hr : Rearms (if more = true then w else w.setConn c ({ · with cancelling := false })) c ↔
      w.Rearms c := by
    split
    · rfl
    · simp [Rearms, setConn]
  unfold onRecv
  dsimp only
  generalize (if more = true then w else w.setConn c ({ · with cancelling := false })) = v at hc hr
  split
  · rename_i hn
    by_cases hre : v.Rearms c
    · obtain ⟨h1, h2, h3⟩ := hre
      exact .inr ⟨hn, hr.mp ⟨h1, h2, h3⟩, v, hc, by simp [onNobufs, h1, h2, h3]⟩
    · exact .inl (hc.trans (onNobufs_calm c hre))
  · split
    · exact .inl (hc.trans (onEnded_calm c result buf))
    · exact .inl (hc.trans ((onData_calm c result more buf).trans (afterwards_calm _)))

-- ---------------------------------------------------------------------------
-- What a completion does
-- ---------------------------------------------------------------------------

/-- Every way the kernel completes a recv: with a buffer, on an empty ring, or
with neither. -/
theorem postRecv_cases (h : w.postRecv c result more fill = some w') :
    (w.conns c).armed = true ∧ w.bufs.published = w.bufs.tail ∧ (more = true → 0 < result) ∧
    ((∃ m, fill = some m ∧ w.bufs.head ≠ w.bufs.published ∧ result ≠ -ENOBUFS ∧
      w' = { w.setConn c ({ · with armed := more }) with
        bufs := w.bufs.take.2
        slab := Function.update w.slab w.bufs.take.1 m
        cq := w.cq ++ [.recv c result more (some w.bufs.take.1)]
        swept := w.swept.erase c }) ∨
    (fill = none ∧ result = -ENOBUFS ∧ w.bufs.head = w.bufs.published ∧
      w' = { w.setConn c ({ · with armed := more }) with
        cq := w.cq ++ [.recv c result more none]
        swept := [] }) ∨
    (fill = none ∧ result ≠ -ENOBUFS ∧
      w' = { w.setConn c ({ · with armed := more }) with
        cq := w.cq ++ [.recv c result more none]
        swept := if more then w.swept else w.swept.erase c })) := by
  unfold postRecv at h
  split at h
  · cases h
  · rename_i hg
    simp only [not_or, not_and, ne_eq, not_not] at hg
    refine ⟨by simpa using hg.1, hg.2.1, fun hm => by have := hg.2.2 hm; omega, ?_⟩
    dsimp only at h
    split at h
    · rename_i m
      split at h
      · cases h
      · rename_i hb
        rw [not_or] at hb
        cases h
        exact .inl ⟨m, rfl, hb.1, hb.2, rfl⟩
    · split at h
      · rename_i hn
        split at h
        · rename_i he
          cases h
          exact .inr (.inl ⟨rfl, hn, he, rfl⟩)
        · cases h
      · rename_i hn
        cases h
        exact .inr (.inr ⟨rfl, hn, rfl⟩)

theorem postAccept_cases (h : w.postAccept l result more = some w') :
    w' = { w.setListener l ({ · with armed := more }) with
      cq := w.cq ++ [.accept l result more] } := by
  unfold postAccept at h
  split at h
  · split at h
    · cases h
      rfl
    · cases h
  · cases h

@[simp] theorem wakeReader_recv (c d : Nat) :
    ((w.wakeReader c).conns d).recv = (w.conns d).recv := by
  unfold wakeReader
  split
  · rfl
  · by_cases hd : d = c <;> simp [setConn, coroResume, setState, hd]

@[simp] theorem connUnref_recv (c d : Nat) :
    ((w.connUnref c).conns d).recv = (w.conns d).recv := by
  unfold connUnref
  dsimp only
  split <;> by_cases hd : d = c <;> simp [setConn, hd]

@[simp] theorem connUnref_eof (c d : Nat) :
    ((w.connUnref c).conns d).eof = (w.conns d).eof := by
  unfold connUnref
  dsimp only
  split <;> by_cases hd : d = c <;> simp [setConn, hd]

@[simp] theorem connUnref_arms (c : Nat) : (w.connUnref c).arms = w.arms := by
  unfold connUnref
  dsimp only
  split <;> rfl

theorem recvDrain_recv (c : Nat) : ((w.recvDrain c).conns c).recv ≠ .starved := by
  unfold recvDrain
  split
  · assumption
  · simp [afterwards, setConn]

-- ---------------------------------------------------------------------------
-- The sweep
-- ---------------------------------------------------------------------------

theorem foldl_armRecv_calm (cs : List Nat) (hd : w.draining = false) :
    Calm w (cs.foldl armRecv w) := by
  induction cs generalizing w with
  | nil => exact .refl w
  | cons c cs ih => exact (armRecv_calm c hd).trans (ih hd)

theorem foldl_armRecv_recv (cs : List Nat) (h : d ∈ cs) :
    ((cs.foldl armRecv w).conns d).recv ≠ .starved := by
  induction cs using List.reverseRecOn with
  | nil => cases h
  | append_singleton cs c ih =>
    rw [List.foldl_append]
    by_cases hdc : d = c
    · simp [armRecv, setConn, hdc]
    · simpa [armRecv, setConn, hdc] using ih (by simpa [hdc] using h)

def forget (w : Worker) : Worker := { w with bufs := { w.bufs with returned := 0 } }

/-- What a sweep does: nothing but forget, or arm the oldest parked recvs, one
for each buffer. -/
theorem rearmStarved_cases (hd : w.starved ≠ [] → w.draining = false) :
    ((w.starved = [] ∨ w.bufs.returned = 0) ∧ w.rearmStarved = w.forget) ∨
    ∃ u, Calm w.forget u ∧
      (∀ d ∈ w.starved.take (min w.bufs.returned w.starved.length),
        (u.conns d).recv ≠ .starved) ∧
      w.rearmStarved = { u with
        starved := w.starved.drop (min w.bufs.returned w.starved.length)
        swept := w.swept ++ w.starved.take (min w.bufs.returned w.starved.length) } := by
  by_cases hs : w.starved = [] ∨ w.bufs.returned = 0
  · refine .inl ⟨hs, ?_⟩
    simp [rearmStarved, forget, hs]
  · refine .inr ⟨_, foldl_armRecv_calm _ (hd (not_or.mp hs).1),
      fun d hm => foldl_armRecv_recv _ hm, ?_⟩
    simp [rearmStarved, forget, hs]

end Worker

end Ioxd.Io
