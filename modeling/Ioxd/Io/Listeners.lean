import Ioxd.Io.Lifetime

/-!
# The listeners

A listener's accept goes on until its last completion, whose handler arms it
again or, with no room or no descriptors, stalls it; a stalled one is tried
again as a connection leaves or its second comes. So a listener is in one of
three places, and in one only: armed, with its last completion to be handled, or
stalled. Behind a shutdown all are stalled, whatever is still to complete.
-/

namespace Ioxd.Io

open Flat Ioxd.Pipe Runs

variable {w w' w'' : Worker} {c k : Nat}

def Cqe.lastAccept (l : Nat) : Cqe → Bool
  | .accept l' _ more => l' == l && !more
  | _ => false

namespace Worker

/-- Where a listener's accept is to come from. -/
def accepts (w : Worker) (l : Nat) (x : Listener) : Nat :=
  (if x.armed then 1 else 0) + w.cq.countP (Cqe.lastAccept l)

end Worker

/-- No listener is lost, and none is armed twice. -/
structure Listening (w : Worker) : Prop where
  open' : w.draining = false → ∀ l x, w.listeners[l]? = some x →
    w.accepts l x = if x.stalled then 0 else 1
  shut : w.draining = true → ∀ l x, w.listeners[l]? = some x →
    x.stalled = true ∧ w.accepts l x ≤ 1

namespace Worker

-- ---------------------------------------------------------------------------
-- What leaves the listeners alone
-- ---------------------------------------------------------------------------

@[simp] theorem wakeReader_listeners (c : Nat) : (w.wakeReader c).listeners = w.listeners := by
  unfold wakeReader
  split <;> rfl

@[simp] theorem connUnref_listeners (c : Nat) : (w.connUnref c).listeners = w.listeners := by
  unfold connUnref
  dsimp only
  split <;> rfl

@[simp] theorem returnAll_listeners (ids : List Nat) :
    (w.returnAll ids).listeners = w.listeners := by
  induction ids generalizing w with
  | nil => rfl
  | cons id ids ih => exact ih

@[simp] theorem withReader_listeners (c : Nat) (f : Reader → Reader) :
    (w.withReader c f).listeners = w.listeners :=
  returnAll_listeners (w := w.setConn c ({ · with pr := (f ⟨(w.conns c).pr, w.slab, []⟩).pr })) _

theorem paused_listeners (c : Nat) : (w.paused c).listeners = w.listeners := wakeReader_listeners c

theorem onNobufs_listeners (c : Nat) : (w.onNobufs c).listeners = w.listeners := by
  unfold onNobufs
  split
  · exact connUnref_listeners c
  · split
    · exact paused_listeners c
    · split
      · exact wakeReader_listeners c
      · rfl

theorem onEnded_listeners (c : Nat) (result : Int) (buf : Option Nat) :
    (w.onEnded c result buf).listeners = w.listeners := by
  unfold onEnded
  dsimp only
  split
  · exact (paused_listeners c).trans (returnAll_listeners _)
  · exact (wakeReader_listeners c).trans (returnAll_listeners _)

theorem stopInput_listeners (c : Nat) (err : Int) (more : Bool) :
    (w.stopInput c err more).listeners = w.listeners := by
  unfold stopInput
  dsimp only
  split <;> exact wakeReader_listeners c

theorem onData_listeners (c : Nat) (result : Int) (more : Bool) (buf : Option Nat) :
    (w.onData c result more buf).listeners = w.listeners := by
  unfold onData
  split
  · exact stopInput_listeners c _ more
  · split
    · rfl
    · split
      · exact stopInput_listeners c _ more
      · exact wakeReader_listeners c

theorem onRecv_listeners (c : Nat) (result : Int) (more : Bool) (buf : Option Nat) :
    (w.onRecv c result more buf).listeners = w.listeners := by
  have h : (if more = true then w else w.setConn c ({ · with cancelling := false })).listeners =
      w.listeners := by
    split <;> rfl
  unfold onRecv
  dsimp only
  generalize (if more = true then w else w.setConn c ({ · with cancelling := false })) = v at h
  split
  · exact (onNobufs_listeners c).trans h
  · split
    · exact (onEnded_listeners c result buf).trans h
    · exact (onData_listeners c result more buf).trans h

theorem recvDrain_listeners (c : Nat) : (w.recvDrain c).listeners = w.listeners := by
  unfold recvDrain
  split
  · rfl
  · exact wakeReader_listeners c

theorem recvItem_listeners (k c : Nat) : (w.recvItem k c).listeners = w.listeners := by
  unfold recvItem
  split
  · rename_i item rest _
    exact withReader_listeners (w := w.setConn c ({ · with rx := rest })) c
      fun r => (r.moreItem item).2
  · split
    · exact withReader_listeners c fun r => r.moreEnded ((w.conns c).err < 0)
    · rfl

theorem pauseEnd_listeners (k c : Nat) : (w.pauseEnd k c).listeners = w.listeners := by
  unfold pauseEnd
  split <;> rfl

theorem pauseTurn_listeners (k c : Nat) : (w.pauseTurn k c).listeners = w.listeners := by
  unfold pauseTurn
  split
  · rfl
  · exact pauseEnd_listeners k c

theorem recvPause_listeners (k c : Nat) : (w.recvPause k c).listeners = w.listeners := by
  unfold recvPause
  split
  · exact pauseTurn_listeners k c
  · exact pauseEnd_listeners k c

theorem recvResume_listeners (c : Nat) : (w.recvResume c).listeners = w.listeners := by
  unfold recvResume
  dsimp only
  split
  · rfl
  · split
    · exact connUnref_listeners c
    · rfl

theorem pipeClose_listeners (c : Nat) : (w.pipeClose c).listeners = w.listeners := by
  have hclose (v : Worker) : (v.closeRecv c).listeners = v.listeners := by
    unfold closeRecv
    split <;> rfl
  have hret (v : Worker) : (v.returnRx c).listeners = v.listeners := returnAll_listeners _
  unfold pipeClose connClose
  rw [connUnref_listeners, hret, hclose]
  exact withReader_listeners c _

theorem coActs_listeners {a : CoAct} (ha : w.coActs k a = some w') :
    w'.listeners = w.listeners := by
  cases a with
  | more c =>
    simp only [coActs, Option.ite_none_right_eq_some, Option.some.injEq] at ha
    obtain ⟨-, rfl⟩ := ha
    split
    · rfl
    · exact recvItem_listeners k c
  | reader c op =>
    simp only [coActs, Option.ite_none_right_eq_some, Option.some.injEq] at ha
    exact ha.2 ▸ withReader_listeners c _
  | pause c =>
    simp only [coActs, Option.ite_none_right_eq_some, Option.some.injEq] at ha
    exact ha.2 ▸ recvPause_listeners k c
  | resume c =>
    simp only [coActs, Option.ite_none_right_eq_some, Option.some.injEq] at ha
    exact ha.2 ▸ recvResume_listeners c
  | await => exact Option.some.inj ha ▸ rfl
  | connected pr => exact Option.some.inj ha ▸ rfl
  | close c =>
    simp only [coActs, Option.ite_none_right_eq_some, Option.some.injEq] at ha
    exact ha.2 ▸ pipeClose_listeners c
  | finish =>
    simp only [coActs, Option.ite_none_right_eq_some, Option.some.injEq] at ha
    exact ha.2 ▸ pipeClose_listeners _

end Worker

-- ---------------------------------------------------------------------------
-- What changes them
-- ---------------------------------------------------------------------------

/-- No accept was armed, completed, handled or put off. -/
structure Deaf (w w' : Worker) : Prop where
  draining : w'.draining = w.draining
  cq : w'.cq = w.cq
  listeners : w'.listeners = w.listeners

theorem Calm.deaf (h : Calm w w') (hl : w'.listeners = w.listeners) : Deaf w w' :=
  ⟨h.draining, h.cq, hl⟩

theorem Listening.deaf (h : Listening w) (hd : Deaf w w') : Listening w' where
  open' := by
    unfold Worker.accepts
    rw [hd.draining, hd.listeners, hd.cq]
    exact h.open'
  shut := by
    unfold Worker.accepts
    rw [hd.draining, hd.listeners, hd.cq]
    exact h.shut

theorem Listening.queued (h : Listening w) (hd : w'.draining = w.draining)
    (hl : w'.listeners = w.listeners)
    (hq : ∀ l, w'.cq.countP (Cqe.lastAccept l) = w.cq.countP (Cqe.lastAccept l)) :
    Listening w' where
  open' := by
    unfold Worker.accepts
    simp only [hd, hl, hq]
    exact h.open'
  shut := by
    unfold Worker.accepts
    simp only [hd, hl, hq]
    exact h.shut

theorem Listening.turned {l : Nat} {f : Listener → Listener} (h : Listening w)
    (hd : w'.draining = w.draining) (hl : w'.listeners = w.listeners.modify l f)
    (hq : ∀ m, m ≠ l → w'.cq.countP (Cqe.lastAccept m) = w.cq.countP (Cqe.lastAccept m))
    (hopen : ∀ x, w.listeners[l]? = some x → w.draining = false →
      w'.accepts l (f x) = if (f x).stalled then 0 else 1)
    (hshut : ∀ x, w.listeners[l]? = some x → w.draining = true →
      (f x).stalled = true ∧ w'.accepts l (f x) ≤ 1) : Listening w' := by
  have hsame (m : Nat) (hm : m ≠ l) (x : Listener) : w'.accepts m x = w.accepts m x := by
    unfold Worker.accepts
    rw [hq m hm]
  refine ⟨fun hdr m x hx => ?_, fun hdr m x hx => ?_⟩ <;> rw [hd] at hdr <;> rw [hl] at hx
  · by_cases hm : m = l
    · subst hm
      rw [List.getElem?_modify_eq, Option.map_eq_map] at hx
      obtain ⟨y, hy, rfl⟩ := Option.map_eq_some_iff.mp hx
      exact hopen y hy hdr
    · rw [List.getElem?_modify_ne _ _ (Ne.symm hm)] at hx
      rw [hsame m hm]
      exact h.open' hdr m x hx
  · by_cases hm : m = l
    · subst hm
      rw [List.getElem?_modify_eq, Option.map_eq_map] at hx
      obtain ⟨y, hy, rfl⟩ := Option.map_eq_some_iff.mp hx
      exact hshut y hy hdr
    · rw [List.getElem?_modify_ne _ _ (Ne.symm hm)] at hx
      rw [hsame m hm]
      exact h.shut hdr m x hx

namespace Worker

/-- Nothing is left of a listener's accept, in a worker `v` that has dealt with
its last completion. -/
structure Silent (w v : Worker) (l : Nat) : Prop where
  draining : v.draining = w.draining
  listeners : v.listeners = w.listeners
  other : ∀ m, m ≠ l → v.cq.countP (Cqe.lastAccept m) = w.cq.countP (Cqe.lastAccept m)
  none : ∀ x, w.listeners[l]? = some x → w.draining = false → v.accepts l x = 0
  one : ∀ x, w.listeners[l]? = some x → v.accepts l x ≤ 1

theorem stallAccept_listening {v : Worker} {l : Nat} (h : Listening w) (hs : Silent w v l) :
    Listening (v.stallAccept l) :=
  h.turned (f := ({ · with stalled := true, stalledLive := v.live })) hs.draining
    (congrArg (List.modify · l _) hs.listeners) hs.other (fun x hx hd => hs.none x hx hd)
    fun x hx _ => ⟨rfl, hs.one x hx⟩

theorem armAccept_listening {v : Worker} {l : Nat} (h : Listening w) (hs : Silent w v l) :
    Listening (v.armAccept l) := by
  unfold armAccept
  split
  · rename_i hr
    have hd : v.draining = false := by
      simp only [acceptRoom, Bool.and_eq_true, Bool.not_eq_true'] at hr
      exact hr.1
    refine h.turned (f := ({ · with stalled := false, armed := true })) hs.draining
      (congrArg (List.modify · l _) hs.listeners) hs.other (fun x hx hdr => ?_)
      fun x hx hdr => ?_
    · have hz := hs.none x hx hdr
      unfold accepts at hz ⊢
      have : v.cq.countP (Cqe.lastAccept l) = 0 := by omega
      show (if true = true then 1 else 0) + v.cq.countP (Cqe.lastAccept l) = 1
      rw [this]
      rfl
    · rw [hs.draining, hdr] at hd
      cases hd
  · exact stallAccept_listening h hs

theorem silent_stalled {l : Nat} {x : Listener} (h : Listening w) (hx : w.listeners[l]? = some x)
    (hs : x.stalled = true) : Silent w w l := by
  refine ⟨rfl, rfl, fun _ _ => rfl, fun y hy hd => ?_, fun y hy => ?_⟩ <;>
    rw [hx] at hy <;> cases hy
  · exact (h.open' hd l x hx).trans (if_pos hs)
  · cases hd : w.draining with
    | false =>
      rw [h.open' hd l x hx, if_pos hs]
      exact Nat.zero_le _
    | true => exact (h.shut hd l x hx).2

/-- The last completion of an accept is the only one, and nothing is armed. -/
theorem silent_handled {v : Worker} {l : Nat} {result : Int} {rest : List Cqe}
    (h : Listening w) (hq : w.cq = .accept l result false :: rest)
    (hv : v.draining = w.draining ∧ v.listeners = w.listeners ∧ v.cq = rest) : Silent w v l := by
  obtain ⟨h1, h2, h3⟩ := hv
  have hcount (x : Listener) (hx : w.listeners[l]? = some x) : v.accepts l x = 0 := by
    have hle : w.accepts l x ≤ 1 := by
      cases hd : w.draining with
      | false =>
        rw [h.open' hd l x hx]
        split <;> omega
      | true => exact (h.shut hd l x hx).2
    unfold accepts at hle ⊢
    rw [hq, List.countP_cons_of_pos (by simp [Cqe.lastAccept])] at hle
    rw [h3]
    omega
  refine ⟨h1, h2, fun m hm => ?_, fun x hx _ => hcount x hx, fun x hx => ?_⟩
  · rw [h3, hq, List.countP_cons_of_neg (by simp [Cqe.lastAccept, Ne.symm hm])]
  · rw [hcount x hx]
    exact Nat.zero_le _

theorem rearmStalled_listening (h : Listening w) (due : List Nat) :
    Listening (w.rearmStalled due) := by
  have hfold {β : Type} (f : Worker → β → Worker) (hf : ∀ v x, Listening v → Listening (f v x))
      (xs : List β) (v : Worker) (hv : Listening v) : Listening (xs.foldl f v) := by
    induction xs generalizing v with
    | nil => exact hv
    | cons x xs ih => exact ih (f v x) (hf v x hv)
  refine hfold _ (fun v l hv => ?_) _ w h
  split
  · rename_i x hx
    split
    · rename_i hs
      exact armAccept_listening hv (silent_stalled hv hx hs.1)
    · exact hv
  · exact hv

theorem onAccept_listening {l : Nat} {result : Int} {more : Bool} {rest : List Cqe}
    (h : Listening w) (hq : w.cq = .accept l result more :: rest) (n : Nat) (pr : Pipereader) :
    Listening (onAccept { w with cq := rest, phase := .batch n } l result more pr) := by
  have hnew (tls : Bool) (v : Worker) : Deaf v (if result ≥ 0 ∧ v.draining = true then v
      else if result ≥ 0 then
        ((v.connNew tls v.nextCoro pr).armRecv v.nextConn).spawn v.nextConn
      else v) := by
    split
    · exact ⟨rfl, rfl, rfl⟩
    · split <;> exact ⟨rfl, rfl, rfl⟩
  unfold onAccept
  dsimp only
  split
  · rename_i hm
    have hh : Listening { w with cq := rest, phase := .batch n } := h.queued rfl rfl fun m => by
      rw [hq, List.countP_cons_of_neg (by simp [Cqe.lastAccept, hm])]
    exact Listening.deaf hh (hnew _ _)
  · rename_i hm
    have hm : more = false := by simpa using hm
    subst hm
    have hsil (tls : Bool) := silent_handled h hq (v := _) ⟨(hnew tls
      { w with cq := rest, phase := .batch n }).draining, (hnew tls _).listeners, (hnew tls _).cq⟩
    split
    · exact stallAccept_listening h (hsil _)
    · exact armAccept_listening h (hsil _)

theorem onRecv_deaf (c : Nat) (result : Int) (more : Bool) (buf : Option Nat) :
    Deaf w (w.onRecv c result more buf) := by
  have hl := onRecv_listeners (w := w) c result more buf
  rcases onRecv_cases (w := w) c result more buf with hc | ⟨-, -, v, hc, he⟩
  · exact hc.deaf hl
  · exact ⟨he ▸ hc.draining, he ▸ hc.cq, hl⟩

theorem onRecvTail_deaf (c : Nat) (more : Bool) : Deaf w (w.onRecvTail c more) := by
  unfold onRecvTail
  dsimp only
  split
  · split
    · exact (paused_calm c).deaf (paused_listeners c)
    · split
      · exact ⟨rfl, rfl, rfl⟩
      · exact ((setRecv_done_calm c).trans (connUnref_calm c)).deaf (connUnref_listeners c)
  · split <;> exact ⟨rfl, rfl, rfl⟩

theorem rearmStarved_deaf : Deaf w w.rearmStarved := by
  have hfold (cs : List Nat) (v : Worker) : Deaf v (cs.foldl armRecv v) := by
    induction cs generalizing v with
    | nil => exact ⟨rfl, rfl, rfl⟩
    | cons c cs ih =>
      have hx := ih (v.armRecv c)
      exact ⟨hx.draining, hx.cq, hx.listeners⟩
  unfold rearmStarved
  dsimp only
  split
  · exact ⟨rfl, rfl, rfl⟩
  · have hx := hfold (w.starved.take (min w.bufs.returned w.starved.length))
      { w with bufs := { w.bufs with returned := 0 } }
    exact ⟨hx.draining, hx.cq, hx.listeners⟩

theorem doTask_deaf (t : Task) : Deaf w (w.doTask t) := by
  cases t with
  | unref c => exact (connUnref_calm c).deaf (connUnref_listeners c)
  | tail c more => exact onRecvTail_deaf c more
  | drain =>
    simp only [doTask]
    split
    · exact ⟨rfl, rfl, rfl⟩
    · rename_i c _
      have hx (v : Worker) : Deaf v (v.recvDrain c) :=
        (recvDrain_calm c).deaf (recvDrain_listeners c)
      exact ⟨(hx _).draining, (hx _).cq, (hx _).listeners⟩

theorem coGoes_deaf (k : Nat) (a : Await) : Deaf w (w.coGoes k a) := by
  cases a with
  | item c => exact (recvItem_calm k c).deaf (recvItem_listeners k c)
  | pause c => exact (pauseTurn_calm k c).deaf (pauseTurn_listeners k c)
  | op => exact ⟨rfl, rfl, rfl⟩
  | setopt c => exact ⟨rfl, rfl, rfl⟩

theorem loopStep_listening (h : Listening w) (due : List Nat) (pr : Pipereader) :
    Listening (w.loopStep due pr) := by
  unfold loopStep
  split
  · split
    · rename_i hs
      have hd : w.draining = false := by simpa using hs.2
      refine ⟨nofun, fun _ l x hx => ?_⟩
      have hx : (w.listeners.map ({ · with stalled := true }))[l]? = some x := hx
      rw [List.getElem?_map] at hx
      obtain ⟨y, hy, rfl⟩ := Option.map_eq_some_iff.mp hx
      refine ⟨rfl, ?_⟩
      have := h.open' hd l y hy
      show w.accepts l y ≤ 1
      rw [this]
      split <;> omega
    · exact h.deaf ⟨rfl, rfl, rfl⟩
  · exact h.deaf ⟨rfl, rfl, rfl⟩
  · split <;> exact h.deaf ⟨rfl, rfl, rfl⟩
  · have hd := rearmStarved_deaf (w := w)
    exact h.deaf ⟨hd.draining, hd.cq, hd.listeners⟩
  · exact h.deaf ⟨rfl, rfl, rfl⟩
  · exact h.deaf ⟨rfl, rfl, rfl⟩
  · exact h.deaf ⟨rfl, rfl, rfl⟩
  · split
    · rename_i n _ _ x rest hq
      have hqueue (hx : ∀ l, Cqe.lastAccept l x = false) :
          Listening { w with cq := rest, phase := .batch n } :=
        h.queued rfl rfl fun l => by
          rw [hq, List.countP_cons_of_neg (by simp [hx l])]
      cases x with
      | recv c result more buf => exact (hqueue fun _ => rfl).deaf (onRecv_deaf c result more buf)
      | op k => exact (hqueue fun _ => rfl).deaf ⟨rfl, rfl, rfl⟩
      | accept l result more => exact onAccept_listening h hq n pr
      | drain result =>
        simp only [dispatch]
        split
        · exact (hqueue fun _ => rfl).deaf ⟨rfl, rfl, rfl⟩
        · exact hqueue fun _ => rfl
    · exact h.deaf ⟨rfl, rfl, rfl⟩
  · exact (rearmStalled_listening h due).deaf ⟨rfl, rfl, rfl⟩
  · exact h

theorem step_listening {a : Act} (h : Listening w) (hs : w.step a = some w') : Listening w' := by
  have hpost (x : Cqe) (hx : ∀ l, Cqe.lastAccept l x = false) (l : Nat) :
      (w.cq ++ [x]).countP (Cqe.lastAccept l) = w.cq.countP (Cqe.lastAccept l) := by
    rw [List.countP_append, List.countP_singleton, hx l]
    rfl
  cases a with
  | stop => exact Option.some.inj hs ▸ h.deaf ⟨rfl, rfl, rfl⟩
  | enter => exact Option.some.inj hs ▸ h.deaf ⟨rfl, rfl, rfl⟩
  | recv c result more fill =>
    obtain ⟨-, -, -, hcase⟩ := postRecv_cases hs
    obtain ⟨m, -, -, -, rfl⟩ | ⟨-, -, -, rfl⟩ | ⟨-, -, rfl⟩ := hcase
    · exact h.queued rfl rfl (hpost _ fun _ => rfl)
    · exact h.queued rfl rfl (hpost _ fun _ => rfl)
    · exact h.queued rfl rfl (hpost _ fun _ => rfl)
  | op k =>
    simp only [step, Option.ite_none_right_eq_some, Option.some.injEq] at hs
    exact hs.2 ▸ h.queued rfl rfl (hpost _ fun _ => rfl)
  | accept l result more =>
    have ha : ∀ x, w.listeners[l]? = some x → x.armed = true := fun x hx => by
      simp only [step, postAccept, hx] at hs
      split at hs
      · assumption
      · cases hs
    rw [postAccept_cases hs]
    -- The kernel keeps the accept, or leaves its last completion in its place.
    have hsum (x : Listener) (hx : w.listeners[l]? = some x) :
        (if more = true then 1 else 0) +
          (w.cq ++ [Cqe.accept l result more]).countP (Cqe.lastAccept l) = w.accepts l x := by
      unfold accepts
      rw [ha x hx, List.countP_append, List.countP_singleton]
      cases more <;> simp [Cqe.lastAccept]
      omega
    refine h.turned (f := ({ · with armed := more })) rfl rfl (fun m hm => ?_)
      (fun x hx hd => ?_) fun x hx hd => ?_
    · show (w.cq ++ [Cqe.accept l result more]).countP _ = _
      rw [List.countP_append, List.countP_singleton,
        if_neg (by simp [Cqe.lastAccept, Ne.symm hm]), Nat.add_zero]
    · exact (hsum x hx).trans (h.open' hd l x hx)
    · exact ⟨(h.shut hd l x hx).1, le_of_eq_of_le (hsum x hx) (h.shut hd l x hx).2⟩
  | cancelled result =>
    simp only [step, Option.ite_none_right_eq_some, Option.some.injEq] at hs
    exact hs.2 ▸ h.queued rfl rfl (hpost _ fun _ => rfl)
  | giveUp =>
    simp only [step, Option.ite_none_right_eq_some, Option.some.injEq] at hs
    exact hs.2 ▸ h.deaf ⟨rfl, rfl, rfl⟩
  | loop due pr =>
    simp only [step] at hs
    split at hs
    · cases hs
    · rename_i t ts _ ht
      have hd := doTask_deaf (w := { w with tasks := ts }) t
      exact Option.some.inj hs ▸ h.deaf ⟨hd.draining, hd.cq, hd.listeners⟩
    · exact Option.some.inj hs ▸ loopStep_listening h due pr
  | go =>
    simp only [step] at hs
    split at hs
    · cases hs
    · split at hs
      · exact Option.some.inj hs ▸ h.deaf (coGoes_deaf _ _)
      · cases hs
  | co a =>
    simp only [step] at hs
    split at hs
    · cases hs
    · split at hs
      · exact h.deaf ((coActs_calm hs).deaf (coActs_listeners hs))
      · cases hs

theorem Moves.listening (h : Listening w) (hm : Moves w w') : Listening w' := by
  cases hm with
  | step hs => exact step_listening h hs
  | @recv c result more buf bufs slab swept ha hm =>
    refine h.queued rfl rfl fun l => ?_
    show (w.cq ++ [Cqe.recv c result more buf]).countP (Cqe.lastAccept l) = _
    rw [List.countP_append, List.countP_singleton]
    rfl

-- ---------------------------------------------------------------------------
-- The passes over them
-- ---------------------------------------------------------------------------

theorem armAccept_rest (l : Nat) : (w.armAccept l).acceptRoom = w.acceptRoom ∧
    (w.armAccept l).live = w.live ∧ (w.armAccept l).cq = w.cq ∧
    (w.armAccept l).draining = w.draining := by
  unfold armAccept stallAccept
  split <;> exact ⟨rfl, rfl, rfl, rfl⟩

theorem armAccept_listeners (l m : Nat) : (w.armAccept l).listeners[m]? =
    if m = l then w.listeners[l]?.map fun x =>
      if w.acceptRoom then { x with stalled := false, armed := true }
      else { x with stalled := true, stalledLive := w.live }
    else w.listeners[m]? := by
  unfold armAccept stallAccept
  split
  · rename_i hr
    split
    · rename_i hm
      subst hm
      exact List.getElem?_modify_eq ..
    · rename_i hm
      exact List.getElem?_modify_ne _ _ (Ne.symm hm)
  · rename_i hr
    split
    · rename_i hm
      subst hm
      exact List.getElem?_modify_eq ..
    · rename_i hm
      exact List.getElem?_modify_ne _ _ (Ne.symm hm)

theorem foldl_armAccept_start (hr : w.acceptRoom = true) (n : Nat) :
    ((List.range n).foldl armAccept w).acceptRoom = true ∧
    ((List.range n).foldl armAccept w).cq = w.cq ∧
    ((List.range n).foldl armAccept w).draining = w.draining ∧
    ∀ m, ((List.range n).foldl armAccept w).listeners[m]? =
      if m < n then w.listeners[m]?.map fun x => { x with stalled := false, armed := true }
      else w.listeners[m]? := by
  induction n with
  | zero => exact ⟨hr, rfl, rfl, fun m => rfl⟩
  | succ n ih =>
    obtain ⟨h1, h2, h3, h4⟩ := ih
    rw [List.range_succ, List.foldl_append, List.foldl_cons, List.foldl_nil]
    generalize (List.range n).foldl armAccept w = v at h1 h2 h3 h4
    obtain ⟨e1, -, e3, e4⟩ := armAccept_rest (w := v) n
    refine ⟨e1.trans h1, e3.trans h2, e4.trans h3, fun m => ?_⟩
    rw [armAccept_listeners, h1, h4, h4, if_neg (Nat.lt_irrefl n)]
    by_cases hm : m = n
    · subst hm
      simp
    · have : m < n + 1 ↔ m < n := by omega
      simp only [this, if_neg hm]

theorem foldl_armAccept_listening {n : Nat} (hr : w.acceptRoom = true) (hq : w.cq = [])
    (hd : w.draining = false) (hn : w.listeners.length = n) :
    Listening ((List.range n).foldl armAccept w) := by
  obtain ⟨-, h2, h3, h4⟩ := foldl_armAccept_start hr n
  refine ⟨fun _ l x hx => ?_, fun hx => ?_⟩
  · rw [h4] at hx
    split at hx
    · obtain ⟨y, -, rfl⟩ := Option.map_eq_some_iff.mp hx
      unfold accepts
      rw [h2, hq]
      rfl
    · rename_i hl
      exact absurd (hn ▸ (List.getElem?_eq_some_iff.mp hx).1) hl
  · rw [h3, hd] at hx
    cases hx

theorem start_listening (bufCount fileSlots : Nat) (certs : List Bool) (pr : Pipereader)
    (slab : Nat → Mem Byte) : Listening (start bufCount fileSlots certs pr slab) := by
  refine foldl_armAccept_listening ?_ rfl rfl (List.length_map ..)
  cases fileSlots <;> simp [acceptRoom]

/-- A listener that is stalled behind a pass over it: with no room for its accept,
or as it was, with nobody gone since and before its second. -/
def PutOff (v : Worker) (due : List Nat) (l : Nat) (x : Listener) : Prop :=
  v.acceptRoom = false ∨ v.listeners[l]? = some x ∧ x.stalledLive ≤ v.live ∧ l ∉ due

theorem foldl_putOff {f : Worker → Nat → Worker} {due : List Nat}
    (hf : ∀ v l, (f v l).acceptRoom = v.acceptRoom ∧ (f v l).live = v.live ∧
      (∀ m, m ≠ l → (f v l).listeners[m]? = v.listeners[m]?) ∧
      ∀ x, (f v l).listeners[l]? = some x → x.stalled = true → PutOff v due l x) (n : Nat) :
    ((List.range n).foldl f w).acceptRoom = w.acceptRoom ∧
    ((List.range n).foldl f w).live = w.live ∧
    ∀ m x, ((List.range n).foldl f w).listeners[m]? = some x →
      (n ≤ m → w.listeners[m]? = some x) ∧ (m < n → x.stalled = true → PutOff w due m x) := by
  induction n with
  | zero => exact ⟨rfl, rfl, fun m x hx => ⟨fun _ => hx, fun hm => absurd hm (Nat.not_lt_zero m)⟩⟩
  | succ n ih =>
    obtain ⟨h1, h2, h3⟩ := ih
    rw [List.range_succ, List.foldl_append, List.foldl_cons, List.foldl_nil]
    generalize (List.range n).foldl f w = v at h1 h2 h3
    obtain ⟨e1, e2, e3, e4⟩ := hf v n
    refine ⟨e1.trans h1, e2.trans h2, fun m x hx => ?_⟩
    by_cases hm : m = n
    · subst hm
      refine ⟨fun hle => absurd hle (by omega), fun _ hs => ?_⟩
      rcases e4 x hx hs with hr | ⟨hl, hlive, hdue⟩
      · exact .inl (h1 ▸ hr)
      · exact .inr ⟨(h3 m x hl).1 (Nat.le_refl m), h2 ▸ hlive, hdue⟩
    · rw [e3 m hm] at hx
      obtain ⟨h4, h5⟩ := h3 m x hx
      exact ⟨fun hle => h4 (by omega), fun hlt => h5 (by omega)⟩

theorem rearmStalled_putOff (due : List Nat) (l : Nat) (x : Listener)
    (hx : (w.rearmStalled due).listeners[l]? = some x) (hs : x.stalled = true) :
    PutOff w due l x := by
  unfold rearmStalled at hx
  have hpass := fun hf => (@foldl_putOff w _ due hf w.listeners.length).2.2 l x hx
  obtain ⟨h1, h2⟩ := hpass fun v m => by
    cases hm : v.listeners[m]? with
    | none => exact ⟨rfl, rfl, fun _ _ => rfl, fun y hy => by rw [hm] at hy; cases hy⟩
    | some y =>
      dsimp only
      split
      · obtain ⟨e1, e2, -, -⟩ := armAccept_rest (w := v) m
        refine ⟨e1, e2, fun m' hm' => by rw [armAccept_listeners, if_neg hm'], fun z hz hsz => ?_⟩
        rw [armAccept_listeners, if_pos rfl, hm] at hz
        cases hr : v.acceptRoom with
        | false => exact .inl hr
        | true =>
          rw [hr] at hz
          cases hz
          cases hsz
      · rename_i hn
        refine ⟨rfl, rfl, fun _ _ => rfl, fun z hz hsz => .inr ⟨hz, ?_⟩⟩
        rw [hm] at hz
        cases hz
        rw [not_and_or, not_or] at hn
        rcases hn with hn | ⟨hn, hdue⟩
        · exact absurd hsz hn
        · exact ⟨by omega, hdue⟩
  by_cases hl : l < w.listeners.length
  · exact h2 hl hs
  · exact absurd (List.getElem?_eq_some_iff.mp (h1 (by omega))).1 hl

/-- In every state of every run each listener is armed, or has the last completion
of its accept to come, or is stalled, and just one of these; behind a shutdown all
are stalled. What the next pass leaves stalled has to wait for room, for a
connection to leave or for its second. -/
theorem listeners_kept {bufCount fileSlots : Nat} {certs : List Bool} {pr : Pipereader}
    {slab : Nat → Mem Byte}
    (h : Relation.ReflTransGen Moves (start bufCount fileSlots certs pr slab) w) :
    Listening w ∧ ∀ due l x, (w.rearmStalled due).listeners[l]? = some x → x.stalled = true →
      PutOff w due l x := by
  refine ⟨?_, rearmStalled_putOff⟩
  induction h with
  | refl => exact start_listening ..
  | tail _ hm ih => exact hm.listening ih

/-- An accept ends for want of descriptors; the listener is stalled, nothing of its
accept is left, and it is armed again as its second has come. -/
theorem listeners_kept_exhausted : ∃ w, Relation.ReflTransGen Moves oneListener w ∧
    w.listeners = [⟨false, true, 0, false⟩] ∧ w.accepts 0 ⟨false, true, 0, false⟩ = 0 ∧
    ∀ x, (w.rearmStalled [0]).listeners[0]? = some x → x.stalled = false := by
  have h : (perform step (fun _ _ => true) oneListener
      ([.accept 0 (-EMFILE) false] ++ turns 8)).map
      (fun w => (w.listeners, w.draining, w.acceptRoom)) =
        some ([⟨false, true, 0, false⟩], false, true) := by decide
  obtain ⟨w, hw, hb⟩ := Option.map_eq_some_iff.mp h
  simp only [Prod.mk.injEq] at hb
  obtain ⟨h1, h2, h3⟩ := hb
  have hr := moves_of_perform hw
  obtain ⟨h4, h5⟩ := listeners_kept hr
  refine ⟨w, hr, h1, h4.open' h2 0 _ (by rw [h1]; rfl), fun x hx => ?_⟩
  by_contra hs
  rcases h5 [0] 0 x hx (by simpa using hs) with hn | ⟨-, -, hn⟩
  · rw [h3] at hn
    cases hn
  · exact hn List.mem_cons_self

end Worker

end Ioxd.Io
