import Ioxd.Io.LifeRun
import Ioxd.Io.Drain
import Mathlib.Logic.Relation

/-!
# The end of a connection

A connection that nobody holds is in no place that a move starts from, so that
no move touches it. In every state of every run the references of a connection
are its holders, it goes to the pool once, when the last one lets go, and its
place among the parked recvs and who waits for it are as its state says.
-/

namespace Ioxd.Io

open Flat Ioxd.Pipe Runs

variable {w w' w'' : Worker} {hand hand' : List Task} {c k : Nat}

namespace Worker

-- ---------------------------------------------------------------------------
-- What a move touches
-- ---------------------------------------------------------------------------

def Only (c : Nat) (w w' : Worker) : Prop := ∀ d, d ≠ c → w'.conns d = w.conns d

theorem Only.refl (c : Nat) (w : Worker) : Only c w w := fun _ _ => rfl

theorem Only.trans (h : Only c w w') (h' : Only c w' w'') : Only c w w'' :=
  fun d hd => (h' d hd).trans (h d hd)

theorem Only.of_eq (h : w'.conns = w.conns) : Only c w w' := fun _ _ => by rw [h]

theorem setConn_only (c : Nat) (f : Conn → Conn) : Only c w (w.setConn c f) :=
  fun _ hd => setConn_other hd

theorem returnAll_conns (ids : List Nat) : (w.returnAll ids).conns = w.conns := by
  induction ids generalizing w with
  | nil => rfl
  | cons id ids ih => exact ih

theorem wakeReader_only (c : Nat) : Only c w (w.wakeReader c) := by
  unfold wakeReader
  split
  · exact .refl c w
  · exact (setConn_only c ({ · with waiter := none })).trans (.of_eq rfl)

theorem connUnref_only (c : Nat) : Only c w (w.connUnref c) := by
  have h : Only c w (w.setConn c fun x => { x with refs := x.refs - 1 }) := setConn_only c _
  unfold connUnref
  dsimp only
  split
  · exact h
  · exact (h.trans (setConn_only c fun x => { x with recycled := x.recycled + 1 })).trans
      (.of_eq rfl)

theorem armRecv_only (c : Nat) : Only c w (w.armRecv c) :=
  (setConn_only c ({ · with recv := .armed, cancelling := false, armed := true })).trans
    (.of_eq rfl)

theorem paused_only (c : Nat) : Only c w (w.paused c) :=
  (setConn_only c ({ · with pausing := false, recv := .paused })).trans (wakeReader_only c)

theorem ending_only (c : Nat) (f : Conn → Conn) :
    Only c w (((w.setConn c f).wakeReader c).afterwards (.unref c)) :=
  ((setConn_only c f).trans (wakeReader_only c)).trans (.of_eq rfl)

theorem stopInput_only (c : Nat) (err : Int) (more : Bool) : Only c w (w.stopInput c err more) := by
  have h : Only c w (w.setConn c fun x => Conn.endInput x err) := setConn_only c _
  unfold stopInput
  dsimp only
  split
  · exact (h.trans (setConn_only c ({ · with cancelling := true }))).trans (wakeReader_only c)
  · exact h.trans (wakeReader_only c)

theorem onRecv_only (c : Nat) (result : Int) (more : Bool) (buf : Option Nat) :
    Only c w (w.onRecv c result more buf) := by
  have h : Only c w (if more = true then w else w.setConn c ({ · with cancelling := false })) := by
    split
    · exact .refl c w
    · exact setConn_only c _
  unfold onRecv
  dsimp only
  generalize (if more = true then w else w.setConn c ({ · with cancelling := false })) = v at h
  refine h.trans ?_
  split
  · unfold onNobufs
    split
    · exact (setConn_only c ({ · with recv := .done })).trans (connUnref_only c)
    · split
      · exact paused_only c
      · split
        · exact ending_only c _
        · exact (setConn_only c ({ · with recv := .starved })).trans (.of_eq rfl)
  · split
    · unfold onEnded
      dsimp only
      split
      · exact Only.trans (.of_eq (returnAll_conns _)) (paused_only c)
      · exact Only.trans (.of_eq (returnAll_conns _)) (ending_only c _)
    · refine Only.trans ?_ (.of_eq (w := v.onData c result more buf) rfl)
      unfold onData
      split
      · exact stopInput_only c _ more
      · rename_i id
        split
        · exact .of_eq rfl
        · split
          · have hret : Only c v (v.bufringReturn id) := .of_eq rfl
            exact hret.trans (stopInput_only c _ more)
          · exact (setConn_only c fun x => { x with rx := x.rx ++ [⟨result.toNat, id⟩] }).trans
              (wakeReader_only c)

theorem onRecvTail_only (c : Nat) (more : Bool) : Only c w (w.onRecvTail c more) := by
  unfold onRecvTail
  dsimp only
  split
  · split
    · exact paused_only c
    · split
      · exact armRecv_only c
      · exact (setConn_only c ({ · with recv := .done })).trans (connUnref_only c)
  · split
    · exact setConn_only c _
    · exact .refl c w

theorem recvDrain_only (c : Nat) : Only c w (w.recvDrain c) := by
  unfold recvDrain
  split
  · exact .refl c w
  · exact ending_only c _

theorem withReader_only (c : Nat) (f : Reader → Reader) : Only c w (w.withReader c f) := by
  have h : Only c w (w.setConn c ({ · with pr := (f ⟨(w.conns c).pr, w.slab, []⟩).pr })) :=
    setConn_only c _
  exact h.trans (.of_eq (returnAll_conns _))

theorem pipeClose_only (c : Nat) : Only c w (w.pipeClose c) := by
  have hclose (v : Worker) : Only c v (v.closeRecv c) := by
    unfold closeRecv
    split
    · exact setConn_only c _
    · have hrem : Only c v (v.starvedRemove c) := .of_eq rfl
      exact hrem.trans (setConn_only c _)
    · exact setConn_only c _
    · exact .refl c v
  have hret (v : Worker) : Only c v (v.returnRx c) :=
    (setConn_only c ({ · with rx := [] })).trans (.of_eq (returnAll_conns _))
  unfold pipeClose connClose
  exact ((((withReader_only c _).trans (setConn_only c ({ · with closed := true }))).trans
    (hclose _)).trans (hret _)).trans (connUnref_only c)

theorem recvItem_only (k c : Nat) : Only c w (w.recvItem k c) := by
  unfold recvItem
  split
  · rename_i item rest _
    exact ((setConn_only c ({ · with rx := rest })).trans
      (withReader_only c fun r => (r.moreItem item).2)).trans (.of_eq rfl)
  · split
    · exact (withReader_only c fun r => r.moreEnded ((w.conns c).err < 0)).trans (.of_eq rfl)
    · exact (setConn_only c ({ · with waiter := some k })).trans (.of_eq rfl)

theorem pauseEnd_only (k c : Nat) : Only c w (w.pauseEnd k c) := by
  unfold pauseEnd
  split
  · have hrem : Only c w (w.starvedRemove c) := .of_eq rfl
    exact (hrem.trans (setConn_only c ({ · with recv := .paused }))).trans (.of_eq rfl)
  · exact .of_eq rfl

theorem pauseTurn_only (k c : Nat) : Only c w (w.pauseTurn k c) := by
  unfold pauseTurn
  split
  · exact (setConn_only c ({ · with waiter := some k })).trans (.of_eq rfl)
  · exact (setConn_only c ({ · with pausing := false })).trans (pauseEnd_only k c)

theorem recvPause_only (k c : Nat) : Only c w (w.recvPause k c) := by
  unfold recvPause
  split
  · exact ((setConn_only c ({ · with pausing := true })).trans
      (setConn_only c ({ · with cancelling := true }))).trans (pauseTurn_only k c)
  · exact pauseEnd_only k c

theorem recvResume_only (c : Nat) : Only c w (w.recvResume c) := by
  unfold recvResume
  dsimp only
  split
  · exact .refl c w
  · split
    · exact (setConn_only c _).trans (connUnref_only c)
    · exact armRecv_only c

theorem foldl_armRecv_other {ds : List Nat} (hd : c ∉ ds) :
    (ds.foldl armRecv w).conns c = w.conns c := by
  induction ds generalizing w with
  | nil => rfl
  | cons d ds ih =>
    rw [List.mem_cons, not_or] at hd
    exact (ih hd.2).trans (armRecv_only d c hd.1)

-- ---------------------------------------------------------------------------
-- A connection that is gone
-- ---------------------------------------------------------------------------

/-- Nothing that a move starts from has the connection: the kernel's recv, a
completion, a task, the parked ones, a coroutine that works on it or waits. -/
structure Gone (w : Worker) (c : Nat) : Prop where
  closed : (w.conns c).closed = true
  recv : (w.conns c).recv = .done
  armed : (w.conns c).armed = false
  waiter : (w.conns c).waiter = none
  cq : ∀ x ∈ w.cq, x.of c = false
  tasks : ∀ t ∈ w.tasks, t.conn ≠ some c
  starved : c ∉ w.starved
  awaits : ∀ k a, (w.coros k).state.await = some a → a.on ≠ some c

theorem Life.gone (h : Life w []) (hr : (w.conns c).refs = 0) : Gone w c := by
  have hc := h.conn c
  have hrefs := hc.refs
  rw [hr] at hrefs
  have hcl : (w.conns c).closed = true := by
    by_contra hx
    rw [if_neg hx] at hrefs
    split at hrefs <;> omega
  have hdone : (w.conns c).recv = .done := by
    by_contra hx
    rw [if_neg hx] at hrefs
    split at hrefs <;> omega
  rw [if_pos hcl, if_pos hdone] at hrefs
  have hidle := hc.idle (by rw [hdone]; nofun)
  have hst := hc.starved
  rw [hdone, if_neg nofun] at hst
  have haw (k : Nat) (a : Await) (ha : (w.coros k).state.await = some a) : a.on ≠ some c := by
    intro hon
    have := ((h.coro k).on a c ha hon).2.1
    rw [hcl] at this
    cases this
  refine ⟨hcl, hdone, (hc.unarmed (by rw [hdone]; nofun)).1, ?_, hidle.1, fun t ht htc => ?_,
    List.count_eq_zero.mp hst, haw⟩
  · cases hw : (w.conns c).waiter with
    | none => rfl
    | some k =>
      rcases hc.waiter k hw with hx | hx
      · exact absurd rfl (haw k (.item c) (by rw [hx]; rfl))
      · exact absurd rfl (haw k (.pause c) (by rw [hx]; rfl))
  · cases t with
    | unref d =>
      cases htc
      have := List.count_pos_iff.mpr ht
      rw [List.nil_append] at hrefs
      omega
    | tail d more =>
      cases htc
      exact hidle.2 more ht
    | drain => cases htc

theorem coActs_gone {a : CoAct} (hg : Gone w c) (hn : c < w.nextConn)
    (hs : w.coActs k a = some w') : w'.conns c = w.conns c := by
  have hne {d : Nat} (hw : w.Works k d) : c ≠ d := fun he => by
    have := hw.2.1
    rw [← he, hg.closed] at this
    cases this
  cases a with
  | more d =>
    simp only [coActs, Option.ite_none_right_eq_some, Option.some.injEq] at hs
    obtain ⟨hw, rfl⟩ := hs
    split
    · rfl
    · exact recvItem_only k d c (hne hw)
  | reader d op =>
    simp only [coActs, Option.ite_none_right_eq_some, Option.some.injEq] at hs
    exact hs.2 ▸ withReader_only d _ c (hne hs.1)
  | pause d =>
    simp only [coActs, Option.ite_none_right_eq_some, Option.some.injEq] at hs
    exact hs.2 ▸ recvPause_only k d c (hne hs.1)
  | resume d =>
    simp only [coActs, Option.ite_none_right_eq_some, Option.some.injEq] at hs
    exact hs.2 ▸ recvResume_only d c (hne hs.1)
  | await => exact Option.some.inj hs ▸ rfl
  | connected pr =>
    cases hs
    exact Function.update_of_ne (Nat.ne_of_lt hn) _ _
  | close d =>
    simp only [coActs, Option.ite_none_right_eq_some, Option.some.injEq] at hs
    exact hs.2 ▸ pipeClose_only d c (hne hs.1.1)
  | finish =>
    simp only [coActs, Option.ite_none_right_eq_some, Option.some.injEq] at hs
    obtain ⟨hw, rfl⟩ := hs
    exact pipeClose_only _ c (hne hw)

theorem coGoes_gone {a : Await} (hg : Gone w c) (hs : (w.coros k).state = .running (some a)) :
    (w.coGoes k a).conns c = w.conns c := by
  have hne {d : Nat} (hd : a.on = some d) : c ≠ d := fun he =>
    hg.awaits k a (by rw [hs]; rfl) (he ▸ hd)
  cases a with
  | item d => exact recvItem_only k d c (hne rfl)
  | pause d => exact pauseTurn_only k d c (hne rfl)
  | op => rfl
  | setopt d => exact armRecv_only d c (hne rfl)

theorem doTask_gone {t : Task} {ts : List Task} (hg : Gone w c) (ht : w.tasks = t :: ts) :
    (doTask { w with tasks := ts } t).conns c = w.conns c := by
  have hne {d : Nat} (hd : t.conn = some d) : c ≠ d := fun he =>
    hg.tasks t (ht ▸ List.mem_cons_self) (he ▸ hd)
  cases t with
  | unref d => exact connUnref_only d c (hne rfl)
  | tail d more => exact onRecvTail_only d more c (hne rfl)
  | drain =>
    simp only [doTask]
    split
    · rfl
    · rename_i d hd
      refine recvDrain_only d c fun he => hg.starved ?_
      exact he ▸ List.mem_of_getLast? hd

theorem onAccept_conns {pr : Pipereader} (hn : c < w.nextConn) (l : Nat) (result : Int)
    (more : Bool) : (w.onAccept l result more pr).conns c = w.conns c := by
  have hnew (tls : Bool) : (if result ≥ 0 ∧ w.draining = true then w
      else if result ≥ 0 then
        ((w.connNew tls w.nextCoro pr).armRecv w.nextConn).spawn w.nextConn
      else w).conns c = w.conns c := by
    split
    · rfl
    · split
      · exact (armRecv_only _ c (Nat.ne_of_lt hn)).trans
          (Function.update_of_ne (Nat.ne_of_lt hn) _ _)
      · rfl
  have harm (v : Worker) : (v.armAccept l).conns = v.conns := by
    unfold armAccept
    split <;> rfl
  unfold onAccept
  dsimp only
  split
  · exact hnew _
  · split
    · exact hnew _
    · rw [harm]
      exact hnew _

theorem rearmStalled_conns (due : List Nat) : (w.rearmStalled due).conns = w.conns := by
  have hfold {β : Type} (f : Worker → β → Worker) (hf : ∀ v x, (f v x).conns = v.conns)
      (xs : List β) (v : Worker) : (xs.foldl f v).conns = v.conns := by
    induction xs generalizing v with
    | nil => rfl
    | cons x xs ih => exact (ih (f v x)).trans (hf v x)
  refine hfold _ (fun v l => ?_) _ w
  split
  · split
    · unfold armAccept
      split <;> rfl
    · rfl
  · rfl

theorem loopStep_gone (hg : Gone w c) (hn : c < w.nextConn) (due : List Nat) (pr : Pipereader) :
    (w.loopStep due pr).conns c = w.conns c := by
  unfold loopStep
  split
  · split <;> rfl
  · rfl
  · split <;> rfl
  · unfold rearmStarved
    dsimp only
    split
    · rfl
    · exact foldl_armRecv_other fun hm => hg.starved (List.mem_of_mem_take hm)
  · rfl
  · rfl
  · rfl
  · split
    · rename_i n _ _ x rest hq
      have hx := hg.cq x (hq ▸ List.mem_cons_self)
      cases x with
      | recv d result more buf =>
        refine onRecv_only d result more buf c fun he => ?_
        simp [Cqe.of, he] at hx
      | op k => rfl
      | accept l result more =>
        exact onAccept_conns (w := { w with cq := rest, phase := .batch n }) hn l result more
      | drain result =>
        simp only [dispatch]
        split <;> rfl
    · rfl
  · exact congrFun (rearmStalled_conns due) c
  · rfl

theorem Moves.gone (hg : Gone w c) (hn : c < w.nextConn) (hm : Moves w w') :
    w'.conns c = w.conns c := by
  have hne {d : Nat} (hd : (w.conns d).armed = true) : c ≠ d := fun he => by
    rw [← he, hg.armed] at hd
    cases hd
  cases hm with
  | recv buf bufs slab swept ha _ => exact Function.update_of_ne (hne ha) _ _
  | @step a _ hs =>
    cases a with
    | stop => exact Option.some.inj hs ▸ rfl
    | enter => exact Option.some.inj hs ▸ rfl
    | recv d result more fill =>
      obtain ⟨ha, -, -, hcase⟩ := postRecv_cases hs
      obtain ⟨m, -, -, -, rfl⟩ | ⟨-, -, -, rfl⟩ | ⟨-, -, rfl⟩ := hcase
      · exact Function.update_of_ne (hne ha) _ _
      · exact Function.update_of_ne (hne ha) _ _
      · exact Function.update_of_ne (hne ha) _ _
    | op k =>
      simp only [Worker.step, Option.ite_none_right_eq_some, Option.some.injEq] at hs
      exact hs.2 ▸ rfl
    | accept l result more =>
      rw [postAccept_cases hs]
      rfl
    | cancelled result =>
      simp only [Worker.step, Option.ite_none_right_eq_some, Option.some.injEq] at hs
      exact hs.2 ▸ rfl
    | giveUp =>
      simp only [Worker.step, Option.ite_none_right_eq_some, Option.some.injEq] at hs
      exact hs.2 ▸ rfl
    | loop due pr =>
      simp only [Worker.step] at hs
      split at hs
      · cases hs
      · rename_i ht
        exact Option.some.inj hs ▸ doTask_gone hg ht
      · exact Option.some.inj hs ▸ loopStep_gone hg hn due pr
    | go =>
      simp only [Worker.step] at hs
      split at hs
      · cases hs
      · split at hs
        · rename_i hst
          exact Option.some.inj hs ▸ coGoes_gone hg hst
        · cases hs
    | co a =>
      simp only [Worker.step] at hs
      split at hs
      · cases hs
      · split at hs
        · exact coActs_gone hg hn hs
        · cases hs

-- ---------------------------------------------------------------------------
-- The run
-- ---------------------------------------------------------------------------

/-- The connection is in its handler's hands, or in its recv's, or a handler of
the worker that ended the recv has yet to drop the reference. -/
structure Lifetime (w : Worker) : Prop where
  refs : ∀ c, c < w.nextConn → (w.conns c).refs = (if (w.conns c).closed then 0 else 1) +
    (if (w.conns c).recv = .done then 0 else 1) + (w.tasks.count (.unref c) : Nat)
  recycled : ∀ c, c < w.nextConn → (w.conns c).recycled =
    if (w.conns c).closed ∧ (w.conns c).recv = .done ∧ .unref c ∉ w.tasks then 1 else 0
  gone : ∀ c, c < w.nextConn → (w.conns c).recycled ≠ 0 →
    Gone w c ∧ ∀ w', Moves w w' → w'.conns c = w.conns c
  starved : ∀ c, w.starved.count c = if (w.conns c).recv = .starved then 1 else 0
  waiter : ∀ c k, (w.conns c).waiter = some k →
    (w.coros k).state = .parked (.item c) ∨ (w.coros k).state = .parked (.pause c)

theorem Life.lifetime (h : Life w []) : Lifetime w := by
  have hzero (c : Nat) : (w.conns c).refs = 0 ↔
      (w.conns c).closed = true ∧ (w.conns c).recv = .done ∧ .unref c ∉ w.tasks := by
    have hr : (w.conns c).refs = _ + _ + (w.tasks.count (.unref c) : Nat) := (h.conn c).refs
    rw [hr, ← List.count_eq_zero]
    constructor
    · intro hx
      refine ⟨?_, ?_, ?_⟩
      · by_contra hn
        rw [if_neg hn] at hx
        split at hx <;> omega
      · by_contra hn
        rw [if_neg hn] at hx
        split at hx <;> omega
      · split at hx <;> split at hx <;> omega
    · rintro ⟨h1, h2, h3⟩
      rw [if_pos h1, if_pos h2, h3]
      rfl
  have hrec (c : Nat) (hc : c < w.nextConn) : (w.conns c).recycled =
      if (w.conns c).closed ∧ (w.conns c).recv = .done ∧ .unref c ∉ w.tasks then 1 else 0 :=
    (h.conn c).recycled.trans (if_congr ((and_iff_right hc).trans (hzero c)) rfl rfl)
  refine ⟨fun c _ => (h.conn c).refs, hrec, fun c hc hne => ?_, fun c => (h.conn c).starved,
    fun c => (h.conn c).waiter⟩
  have hr : (w.conns c).refs = 0 := by
    by_contra hx
    exact hne ((h.conn c).recycled.trans (if_neg fun hy => hx hy.2))
  have hg := Life.gone h hr
  exact ⟨hg, fun w' hm => hm.gone hg hc⟩

theorem connection_lifetime {bufCount fileSlots : Nat} {certs : List Bool} {pr : Pipereader}
    {slab : Nat → Mem Byte}
    (h : Relation.ReflTransGen Moves (start bufCount fileSlots certs pr slab) w) : Lifetime w := by
  refine Life.lifetime ?_
  induction h with
  | refl => exact start_life ..
  | tail _ hm ih => exact hm.life ih

theorem moves_of_perform {as : List Act} (h : perform step (fun _ _ => true) w as = some w') :
    Relation.ReflTransGen Moves w w' := by
  induction as generalizing w with
  | nil =>
    cases h
    exact .refl
  | cons a as ih =>
    simp only [perform, if_true] at h
    obtain ⟨v, hv, hw⟩ := Option.bind_eq_some_iff.mp h
    exact .head (.step hv) (ih hw)

/-- A connection's handler waits for bytes, and the end of the input comes: it
is woken in the middle of the completion's handler. -/
def woken : List Act :=
  [.accept 0 3 true] ++ turns 12 ++ [.co (.more 0)] ++ turns 3 ++ [.recv 0 0 false none] ++ turns 2

/-- It closes the connection there, and what woke it drops the last reference. -/
theorem connection_lifetime_closed : ∃ w, Relation.ReflTransGen Moves oneListener w ∧
    (w.conns 0).refs = 0 ∧ (w.conns 0).recycled = 1 ∧ Lifetime w := by
  have h : (perform step (fun _ _ => true) oneListener (woken ++ [.go, .co .finish] ++ turns 1)).map
      (fun w => ((w.conns 0).refs, (w.conns 0).recycled)) = some (0, 1) := by decide
  obtain ⟨w, hw, hb⟩ := Option.map_eq_some_iff.mp h
  rw [Prod.mk.injEq] at hb
  have hr := moves_of_perform hw
  exact ⟨w, hr, hb.1, hb.2, connection_lifetime hr⟩

/-- While it runs there, the recv has ended and its reference is not dropped. -/
theorem refs_owed : ¬ ∀ w, Relation.ReflTransGen Moves oneListener w → ∀ c, c < w.nextConn →
    (w.conns c).refs = (if (w.conns c).closed then 0 else 1) +
      (if (w.conns c).recv = .done then 0 else 1) := by
  intro hall
  have h : (perform step (fun _ _ => true) oneListener woken).map
      (fun w => (w.nextConn, (w.conns 0).refs, (w.conns 0).closed, (w.conns 0).recv)) =
        some (1, 2, false, .done) := by decide
  obtain ⟨w, hw, hb⟩ := Option.map_eq_some_iff.mp h
  simp only [Prod.mk.injEq] at hb
  obtain ⟨h1, h2, h3, h4⟩ := hb
  have hx := hall w (moves_of_perform hw) 0 (by omega)
  rw [h2, h3, h4] at hx
  cases hx

end Worker

end Ioxd.Io
