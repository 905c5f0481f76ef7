import Ioxd.Io.Lifetime

/-!
# Who waits, and what for

A parked coroutine goes on only when something resumes it, and nothing looks
for one that was forgotten. `Waits` says of a connection that whoever waits on
it is the waiter its completions wake, that it has not got what is waited for,
and that a pause that was asked for is on its way; every move keeps it. With
where the last completion of an armed recv is, no wake-up is lost.
-/

namespace Ioxd.Io

open Flat Ioxd.Pipe Runs

variable {w w' w'' : Worker} {hand hand' : List Task} {c k : Nat}

/-- The wait that is known before the waiter is woken. -/
structure Watched (w : Worker) (hand : List Task) (c : Nat) : Prop where
  waiter : ∀ k, (w.coros k).state = .parked (.item c) ∨ (w.coros k).state = .parked (.pause c) →
    (w.conns c).waiter = some k
  asked : ∀ k, (w.coros k).state.await = some (.pause c) → (w.conns c).recv = .armed →
    (w.conns c).pausing = true
  pausing : (w.conns c).pausing = true →
    (w.coros (w.conns c).owner).state.await = some (.pause c) ∧
      ((w.conns c).recv = .armed ∨ (w.conns c).recv = .done)
  cancel : (w.conns c).pausing = true → (w.conns c).recv = .armed →
    (w.conns c).cancelling = true ∨ .tail c false ∈ hand ++ w.tasks
  done : (w.conns c).recv = .done → (w.conns c).closed = true ∨ (w.conns c).eof = true

structure Waits (w : Worker) (hand : List Task) (c : Nat) : Prop extends Watched w hand c where
  item : ∀ k, (w.coros k).state = .parked (.item c) →
    (w.conns c).rx = [] ∧ (w.conns c).eof = false
  pause : ∀ k, (w.coros k).state = .parked (.pause c) → (w.conns c).recv = .armed

def Patient (w : Worker) (hand : List Task) : Prop := ∀ c, Waits w hand c

-- ---------------------------------------------------------------------------
-- Changes
-- ---------------------------------------------------------------------------

structure Unmoved (w w' : Worker) : Prop where
  conn : ∀ c, (w'.conns c).waiter = (w.conns c).waiter ∧ (w'.conns c).rx = (w.conns c).rx ∧
    (w'.conns c).eof = (w.conns c).eof ∧ (w'.conns c).recv = (w.conns c).recv ∧
    (w'.conns c).pausing = (w.conns c).pausing ∧
    (w'.conns c).cancelling = (w.conns c).cancelling ∧
    (w'.conns c).closed = (w.conns c).closed ∧ (w'.conns c).owner = (w.conns c).owner
  coros : w'.coros = w.coros
  tasks : ∀ c, .tail c false ∈ w'.tasks ↔ .tail c false ∈ w.tasks

theorem Unmoved.of_eq (hc : w'.conns = w.conns) (hk : w'.coros = w.coros)
    (ht : w'.tasks = w.tasks) : Unmoved w w' :=
  ⟨fun c => by rw [hc]; exact ⟨rfl, rfl, rfl, rfl, rfl, rfl, rfl, rfl⟩, hk, fun c => by rw [ht]⟩

theorem Unmoved.refl (w : Worker) : Unmoved w w := .of_eq rfl rfl rfl

theorem Unmoved.trans (h : Unmoved w w') (h' : Unmoved w' w'') : Unmoved w w'' where
  conn c := by
    obtain ⟨h1, h2, h3, h4, h5, h6, h7, h8⟩ := h.conn c
    obtain ⟨h1', h2', h3', h4', h5', h6', h7', h8'⟩ := h'.conn c
    exact ⟨h1'.trans h1, h2'.trans h2, h3'.trans h3, h4'.trans h4, h5'.trans h5, h6'.trans h6,
      h7'.trans h7, h8'.trans h8⟩
  coros := h'.coros.trans h.coros
  tasks c := (h'.tasks c).trans (h.tasks c)

theorem Patient.unmoved (h : Patient w hand) (hu : Unmoved w w') : Patient w' hand := fun c => by
  obtain ⟨h1, h2, h3, h4, h5, h6, h7, h8⟩ := hu.conn c
  have hc := h c
  refine ⟨⟨?_, ?_, ?_, ?_, ?_⟩, ?_, ?_⟩
  · rw [hu.coros, h1]
    exact hc.waiter
  · rw [hu.coros, h4, h5]
    exact hc.asked
  · rw [hu.coros, h4, h5, h8]
    exact hc.pausing
  · rw [h4, h5, h6, List.mem_append, hu.tasks, ← List.mem_append]
    exact hc.cancel
  · rw [h3, h4, h7]
    exact hc.done
  · rw [hu.coros, h2, h3]
    exact hc.item
  · rw [hu.coros, h4]
    exact hc.pause

structure Woken (w w' : Worker) : Prop where
  await : ∀ k, (w'.coros k).state.await = (w.coros k).state.await
  parked : ∀ k a, (w'.coros k).state = .parked a → (w.coros k).state = .parked a

theorem Woken.of_eq (h : w'.coros = w.coros) : Woken w w' :=
  ⟨fun k => by rw [h], fun k a => by rw [h]; exact id⟩

theorem Woken.trans (h : Woken w w') (h' : Woken w' w'') : Woken w w'' :=
  ⟨fun k => (h'.await k).trans (h.await k), fun k a hs => h.parked k a (h'.parked k a hs)⟩

theorem Patient.apart (h : Patient w hand) (ho : Worker.Only c w w') (hw : Woken w w')
    (ht : ∀ d, d ≠ c → .tail d false ∈ hand ++ w.tasks → .tail d false ∈ hand' ++ w'.tasks)
    (hc : Waits w' hand' c) : Patient w' hand' := fun d => by
  by_cases hd : d = c
  · exact hd ▸ hc
  have hx := h d
  have e := ho d hd
  refine ⟨⟨fun k hs => ?_, fun k => ?_, ?_, ?_, ?_⟩, fun k hs => ?_, fun k hs => ?_⟩
  · rw [e]
    exact hx.waiter k (hs.imp (hw.parked k _) (hw.parked k _))
  · rw [e, hw.await]
    exact hx.asked k
  · rw [e, hw.await]
    exact hx.pausing
  · rw [e]
    exact fun h1 h2 => (hx.cancel h1 h2).imp id (ht d hd)
  · rw [e]
    exact hx.done
  · rw [e]
    exact hx.item k (hw.parked k _ hs)
  · rw [e]
    exact hx.pause k (hw.parked k _ hs)

/-- One connection has changed, and the running coroutine that works on it. -/
theorem Patient.seated {st : Option Await} (h : Patient w hand)
    (hs : (w.coros k).state = .running st) (hst : ∀ d, st = some (.pause d) → d = c)
    (ho : Worker.Only c w w') (hk : ∀ k', k' ≠ k → w'.coros k' = w.coros k')
    (hon : ∀ a d, (w'.coros k).state.await = some a → a.on = some d → d = c)
    (ht : w'.tasks = w.tasks) (hc : Waits w' hand c) : Patient w' hand := fun d => by
  by_cases hd : d = c
  · exact hd ▸ hc
  have hx := h d
  have e := ho d hd
  have hne (k' : Nat) (a : Await) (ha : (w'.coros k').state.await = some a) (hd' : a.on = some d) :
      k' ≠ k := fun he => hd (hon a d (he ▸ ha) hd')
  refine ⟨⟨fun k' hp => ?_, fun k' hp => ?_, fun hp => ?_, ?_, ?_⟩, fun k' hp => ?_,
    fun k' hp => ?_⟩
  · have hn : k' ≠ k := hp.elim (fun h1 => hne k' _ (by rw [h1]; rfl) rfl)
      fun h1 => hne k' _ (by rw [h1]; rfl) rfl
    rw [e]
    rw [hk k' hn] at hp
    exact hx.waiter k' hp
  · have hn := hne k' _ hp rfl
    rw [e]
    rw [hk k' hn] at hp
    exact hx.asked k' hp
  · rw [e] at hp ⊢
    have hp' := hx.pausing hp
    have hn : (w.conns d).owner ≠ k := fun he => by
      rw [he, hs] at hp'
      exact hd (hst d hp'.1)
    rw [hk _ hn]
    exact hp'
  · rw [e, ht]
    exact hx.cancel
  · rw [e]
    exact hx.done
  · have hn := hne k' (.item d) (by rw [hp]; rfl) rfl
    rw [e]
    rw [hk k' hn] at hp
    exact hx.item k' hp
  · have hn := hne k' (.pause d) (by rw [hp]; rfl) rfl
    rw [e]
    rw [hk k' hn] at hp
    exact hx.pause k' hp

-- ---------------------------------------------------------------------------
-- The wake
-- ---------------------------------------------------------------------------

namespace Worker

theorem wakeReader_woken (hst : ∀ k, (w.conns c).waiter = some k →
    (w.coros k).state = .parked (.item c) ∨ (w.coros k).state = .parked (.pause c)) :
    Woken w (w.wakeReader c) := by
  unfold wakeReader
  split
  · exact .of_eq rfl
  · rename_i k hk
    obtain ⟨a, ha⟩ : ∃ a, (w.coros k).state = .parked a :=
      (hst k hk).elim (fun h => ⟨_, h⟩) fun h => ⟨_, h⟩
    have hco (v : Worker) (hv : v.coros = w.coros) :
        (v.coroResume k).coros = Function.update w.coros k
          { w.coros k with state := .running (some a) } := by
      simp [coroResume, setState, hv, ha]
    have hw := hco (w.setConn c ({ · with waiter := none })) rfl
    constructor
    · intro k'
      rw [hw]
      by_cases hk' : k' = k
      · subst hk'
        rw [Function.update_self, ha]
        rfl
      · rw [Function.update_of_ne hk']
    · intro k' b hs
      rw [hw] at hs
      by_cases hk' : k' = k
      · subst hk'
        rw [Function.update_self] at hs
        cases hs
      · rwa [Function.update_of_ne hk'] at hs

theorem wakeReader_conn (c d : Nat) : ∃ v,
    (w.wakeReader c).conns d = { w.conns d with waiter := v } := by
  unfold wakeReader
  split
  · exact ⟨(w.conns d).waiter, rfl⟩
  · by_cases hd : d = c
    · exact ⟨none, by subst hd; simp [coroResume, setState, setConn]⟩
    · exact ⟨(w.conns d).waiter, by simp [coroResume, setState, setConn, hd]⟩

@[simp] theorem wakeReader_tasks (c : Nat) : (w.wakeReader c).tasks = w.tasks := by
  unfold wakeReader
  split <;> rfl

/-- Who waited runs now, so that whatever became of the connection is seen. -/
theorem wakeReader_waits (h : Watched w hand c) (hst : ∀ k, (w.conns c).waiter = some k →
    (w.coros k).state = .parked (.item c) ∨ (w.coros k).state = .parked (.pause c)) :
    Waits (w.wakeReader c) hand c := by
  have hw := wakeReader_woken hst
  have hno (k : Nat) : ¬ (((w.wakeReader c).coros k).state = .parked (.item c) ∨
      ((w.wakeReader c).coros k).state = .parked (.pause c)) := by
    intro hp
    have hk := h.waiter k (hp.imp (hw.parked k _) (hw.parked k _))
    unfold wakeReader at hp
    rw [hk] at hp
    simp [coroResume, setState] at hp
  obtain ⟨v, hv⟩ := wakeReader_conn (w := w) c c
  refine ⟨⟨fun k hp => absurd hp (hno k), fun k => ?_, ?_, ?_, ?_⟩,
    fun k hp => absurd (.inl hp) (hno k), fun k hp => absurd (.inr hp) (hno k)⟩
  · rw [hv, hw.await]
    exact h.asked k
  · rw [hv, hw.await]
    exact h.pausing
  · rw [hv, wakeReader_tasks]
    exact h.cancel
  · rw [hv]
    exact h.done

-- ---------------------------------------------------------------------------
-- The completions
-- ---------------------------------------------------------------------------

theorem setConn_watched {f : Conn → Conn} (h : Watched w hand c)
    (hs : (f (w.conns c)).waiter = (w.conns c).waiter ∧
      (f (w.conns c)).owner = (w.conns c).owner ∧ (f (w.conns c)).recv = (w.conns c).recv ∧
      (f (w.conns c)).pausing = (w.conns c).pausing)
    (hq : (w.conns c).cancelling = true → (f (w.conns c)).cancelling = true)
    (hd : (f (w.conns c)).recv = .done →
      (f (w.conns c)).closed = true ∨ (f (w.conns c)).eof = true) :
    Watched (w.setConn c f) hand c := by
  obtain ⟨h1, h2, h3, h4⟩ := hs
  refine ⟨?_, ?_, ?_, ?_, ?_⟩ <;> rw [setConn_self]
  · rw [h1]
    exact h.waiter
  · rw [h3, h4]
    exact h.asked
  · rw [h2, h3, h4]
    exact h.pausing
  · rw [h3, h4]
    exact fun hp hr => (h.cancel hp hr).imp hq id
  · exact hd

theorem setConn_stopped {f : Conn → Conn} (h : Watched w hand c)
    (hs : (f (w.conns c)).waiter = (w.conns c).waiter ∧
      (f (w.conns c)).owner = (w.conns c).owner)
    (hr : (f (w.conns c)).recv ≠ .armed)
    (hp : (f (w.conns c)).pausing = true →
      (w.conns c).pausing = true ∧ (f (w.conns c)).recv = .done)
    (hd : (f (w.conns c)).recv = .done →
      (f (w.conns c)).closed = true ∨ (f (w.conns c)).eof = true) :
    Watched (w.setConn c f) hand' c := by
  obtain ⟨h1, h2⟩ := hs
  refine ⟨?_, ?_, ?_, ?_, ?_⟩ <;> rw [setConn_self]
  · rw [h1]
    exact h.waiter
  · exact fun k _ hx => absurd hx hr
  · rw [h2]
    exact fun hx => ⟨(h.pausing (hp hx).1).1, .inr (hp hx).2⟩
  · exact fun _ hx => absurd hx hr
  · exact hd

theorem woken_patient {f : Conn → Conn} (h : Patient w hand)
    (hk : ∀ k, (w.conns c).waiter = some k →
      (w.coros k).state = .parked (.item c) ∨ (w.coros k).state = .parked (.pause c))
    (hw : (f (w.conns c)).waiter = (w.conns c).waiter)
    (ht : ∀ d, d ≠ c → .tail d false ∈ hand ++ w.tasks → .tail d false ∈ hand' ++ w.tasks)
    (hc : Watched (w.setConn c f) hand' c) : Patient ((w.setConn c f).wakeReader c) hand' := by
  have hst (k : Nat) (hx : ((w.setConn c f).conns c).waiter = some k) :
      ((w.setConn c f).coros k).state = .parked (.item c) ∨
        ((w.setConn c f).coros k).state = .parked (.pause c) := by
    rw [setConn_self, hw] at hx
    exact hk k hx
  have hset : Woken w (w.setConn c f) := .of_eq rfl
  refine h.apart (c := c) ((setConn_only c f).trans (wakeReader_only c))
    (hset.trans (wakeReader_woken hst)) ?_ (wakeReader_waits hc hst)
  rw [wakeReader_tasks]
  exact ht

/-- A connection changes in what no wait hangs on, or that nobody waits for. -/
theorem setConn_patient {f : Conn → Conn} (h : Patient w hand)
    (ht : ∀ d, d ≠ c → .tail d false ∈ hand ++ w.tasks → .tail d false ∈ hand' ++ w.tasks)
    (hc : Watched (w.setConn c f) hand' c)
    (hi : ∀ k, (w.coros k).state = .parked (.item c) →
      (f (w.conns c)).rx = [] ∧ (f (w.conns c)).eof = false)
    (hp : ∀ k, (w.coros k).state = .parked (.pause c) → (f (w.conns c)).recv = .armed) :
    Patient (w.setConn c f) hand' := by
  refine h.apart (c := c) (setConn_only c f) (.of_eq rfl) ht ⟨hc, ?_, ?_⟩ <;> rw [setConn_self]
  · exact hi
  · exact hp

theorem tail_other {more : Bool} (d : Nat) (hd : d ≠ c)
    (hm : .tail d false ∈ .tail c more :: hand ++ w.tasks) : .tail d false ∈ hand ++ w.tasks := by
  rw [List.cons_append, List.mem_cons] at hm
  refine hm.resolve_left fun he => hd ?_
  rw [Task.tail.injEq] at he
  exact he.1

theorem paused_patient (h : Patient w (.tail c false :: hand))
    (hl : Life w (.tail c false :: hand)) : Patient (w.paused c) hand :=
  woken_patient h (hl.conn c).waiter rfl tail_other
    (setConn_stopped (h c).toWatched ⟨rfl, rfl⟩ nofun nofun nofun)

theorem endInput_fields (x : Conn) (err : Int) : (Conn.endInput x err).waiter = x.waiter ∧
    (Conn.endInput x err).owner = x.owner ∧ (Conn.endInput x err).recv = x.recv ∧
    (Conn.endInput x err).pausing = x.pausing ∧
    (Conn.endInput x err).cancelling = x.cancelling ∧ (Conn.endInput x err).eof = true := by
  unfold Conn.endInput
  split
  · exact ⟨rfl, rfl, rfl, rfl, rfl, ‹_›⟩
  · exact ⟨rfl, rfl, rfl, rfl, rfl, rfl⟩

theorem afterwards_unref_patient (h : Patient w hand) (c : Nat) :
    Patient (w.afterwards (.unref c)) hand :=
  h.unmoved ⟨fun _ => ⟨rfl, rfl, rfl, rfl, rfl, rfl, rfl, rfl⟩, rfl, fun d => by
    simp [afterwards]⟩

theorem ending_patient {l : List Task} (h : Patient w (l ++ hand))
    (hk : ∀ k, (w.conns c).waiter = some k →
      (w.coros k).state = .parked (.item c) ∨ (w.coros k).state = .parked (.pause c))
    (hc : ∀ t ∈ l, t.conn = some c) (err : Int) :
    Patient (((w.setConn c fun x => { Conn.endInput x err with recv := .done }).wakeReader
      c).afterwards (.unref c)) hand := by
  obtain ⟨h1, h2, -, h4, -, h6⟩ := endInput_fields (w.conns c) err
  refine afterwards_unref_patient (woken_patient h hk h1 (fun d hd hm => ?_) ?_) c
  · rw [List.append_assoc, List.mem_append] at hm
    refine hm.resolve_left fun hx => hd ?_
    exact Option.some.inj (hc _ hx)
  · exact setConn_stopped (h c).toWatched ⟨h1, h2⟩ nofun (fun hp => ⟨h4 ▸ hp, rfl⟩)
      fun _ => .inr h6

theorem connUnref_unmoved (c : Nat) : Unmoved w (w.connUnref c) := by
  have hset (v : Worker) (f : Conn → Conn) (hf : ∀ x : Conn, (f x).waiter = x.waiter ∧
      (f x).rx = x.rx ∧ (f x).eof = x.eof ∧ (f x).recv = x.recv ∧ (f x).pausing = x.pausing ∧
      (f x).cancelling = x.cancelling ∧ (f x).closed = x.closed ∧ (f x).owner = x.owner) :
      Unmoved v (v.setConn c f) := by
    refine ⟨fun d => ?_, rfl, fun _ => .rfl⟩
    by_cases hd : d = c
    · subst hd
      rw [setConn_self]
      exact hf _
    · rw [setConn_other hd]
      exact ⟨rfl, rfl, rfl, rfl, rfl, rfl, rfl, rfl⟩
  have h1 := hset w (fun x => { x with refs := x.refs - 1 })
    fun _ => ⟨rfl, rfl, rfl, rfl, rfl, rfl, rfl, rfl⟩
  unfold connUnref
  dsimp only
  split
  · exact h1
  · exact (h1.trans (hset _ (fun x => { x with recycled := x.recycled + 1 })
      fun _ => ⟨rfl, rfl, rfl, rfl, rfl, rfl, rfl, rfl⟩)).trans (.of_eq rfl rfl rfl)

theorem returnAll_unmoved (ids : List Nat) : Unmoved w (w.returnAll ids) := by
  induction ids generalizing w with
  | nil => exact .refl w
  | cons id ids ih =>
    have hret : Unmoved w (w.bufringReturn id) := .of_eq rfl rfl rfl
    exact hret.trans ih

theorem withReader_unmoved (c : Nat) (f : Reader → Reader) : Unmoved w (w.withReader c f) := by
  have h : Unmoved w (w.setConn c ({ · with pr := (f ⟨(w.conns c).pr, w.slab, []⟩).pr })) := by
    refine ⟨fun d => ?_, rfl, fun _ => .rfl⟩
    by_cases hd : d = c
    · subst hd
      rw [setConn_self]
      exact ⟨rfl, rfl, rfl, rfl, rfl, rfl, rfl, rfl⟩
    · rw [setConn_other hd]
      exact ⟨rfl, rfl, rfl, rfl, rfl, rfl, rfl, rfl⟩
  exact (h.trans (returnAll_unmoved _)).trans (.of_eq rfl rfl rfl)

theorem closed_unawaited (h : Life w hand) (hc : (w.conns c).closed = true) {a : Await}
    (hs : (w.coros k).state.await = some a) : a.on ≠ some c := by
  intro ha
  have := ((h.coro k).on a c hs ha).2.1
  rw [hc] at this
  cases this

/-- A recv that ends on a connection that is closed, or over with no pause
asked for. -/
theorem setDone_patient (h : Patient w (.tail c false :: hand))
    (hl : Life w (.tail c false :: hand))
    (hc : (w.conns c).closed = true ∨ (w.conns c).eof = true ∧ (w.conns c).pausing = false) :
    Patient (w.setRecv c .done) hand := by
  have hr := (hl.conn c).tail false (by simp)
  have hn (k : Nat) : (w.coros k).state.await ≠ some (.pause c) := fun hs => by
    rcases hc with hc | ⟨-, hc⟩
    · exact closed_unawaited hl hc hs rfl
    · rw [(h c).asked k hs hr] at hc
      cases hc
  have hx : (w.conns c).closed = true ∨ (w.conns c).eof = true := hc.imp id And.left
  refine setConn_patient h tail_other (setConn_stopped (h c).toWatched ⟨rfl, rfl⟩ nofun
    (fun hp => ⟨hp, rfl⟩) fun _ => hx) (h c).item fun k hs => absurd ?_ (hn k)
  rw [hs]
  rfl

theorem onNobufs_patient (h : Patient w (.tail c false :: hand))
    (hl : Life w (.tail c false :: hand)) : Patient (w.onNobufs c) hand := by
  have hr := (hl.conn c).tail false (by simp)
  unfold onNobufs
  split
  · rename_i hc
    exact (setDone_patient h hl (.inl hc)).unmoved (connUnref_unmoved c)
  · split
    · exact paused_patient h hl
    · rename_i hp
      have hp : (w.conns c).pausing = false := by simpa using hp
      split
      · rename_i he
        exact afterwards_unref_patient (woken_patient (f := ({ · with recv := .done })) h
          (hl.conn c).waiter rfl tail_other (setConn_stopped (h c).toWatched ⟨rfl, rfl⟩ nofun
            (fun hx => ⟨hx, rfl⟩) fun _ => .inr he)) c
      · refine Patient.unmoved (w := w.setRecv c .starved) ?_ (.of_eq rfl rfl rfl)
        refine setConn_patient h tail_other (setConn_stopped (h c).toWatched ⟨rfl, rfl⟩
          nofun (fun hx => ?_) nofun) (h c).item fun k hs => ?_
        · rw [show ((w.conns c).pausing : Bool) = true from hx] at hp
          cases hp
        · rw [(h c).asked k (by rw [hs]; rfl) hr] at hp
          cases hp

theorem onEnded_patient (h : Patient w (.tail c false :: hand))
    (hl : Life w (.tail c false :: hand)) (result : Int) (buf : Option Nat) :
    Patient (w.onEnded c result buf) hand := by
  have hu := h.unmoved (returnAll_unmoved buf.toList)
  have hlu := hl.alike (returnAll_alike buf.toList)
  unfold onEnded
  dsimp only
  split
  · exact paused_patient hu hlu
  · exact ending_patient (l := [.tail c false]) hu (hlu.conn c).waiter (fun t ht => by
      rw [List.mem_singleton.mp ht]
      rfl) _

theorem stopInput_patient (h : Patient w hand) (hl : Life w hand) (c : Nat) (err : Int)
    (more : Bool) : Patient (w.stopInput c err more) hand := by
  obtain ⟨h1, h2, h3, h4, h5, h6⟩ := endInput_fields (w.conns c) err
  have hc := setConn_watched (f := fun x => Conn.endInput x err) (h c).toWatched ⟨h1, h2, h3, h4⟩
    (fun hq => h5.trans hq) fun _ => .inr h6
  unfold stopInput
  dsimp only
  split
  · have he : (w.setConn c fun x => Conn.endInput x err).cancelRecv c =
        w.setConn c fun x => { Conn.endInput x err with cancelling := true } := by
      simp [cancelRecv, setConn]
    rw [he]
    exact woken_patient h (hl.conn c).waiter h1 (fun _ _ => id)
      (setConn_watched (h c).toWatched ⟨h1, h2, h3, h4⟩ (fun _ => rfl) fun _ => .inr h6)
  · exact woken_patient h (hl.conn c).waiter h1 (fun _ _ => id) hc

theorem onData_patient (h : Patient w hand) (hl : Life w hand) (c : Nat) (result : Int)
    (more : Bool) (buf : Option Nat) : Patient (w.onData c result more buf) hand := by
  unfold onData
  split
  · exact stopInput_patient h hl c _ more
  · rename_i id
    have hu : Unmoved w (w.bufringReturn id) := .of_eq rfl rfl rfl
    split
    · exact h.unmoved hu
    · split
      · exact stopInput_patient (h.unmoved hu) (hl.alike (bufringReturn_alike id)) c _ more
      · exact woken_patient h (hl.conn c).waiter rfl (fun _ _ hm => hm)
          (setConn_watched (h c).toWatched ⟨rfl, rfl, rfl, rfl⟩ (fun hq => hq) (h c).done)

theorem onRecv_patient {result : Int} {more : Bool} (h : Patient w (.tail c more :: hand))
    (hl : Life w (.tail c more :: hand)) (hm : more = true → 0 < result) (buf : Option Nat) :
    Patient (w.onRecv c result more buf) hand := by
  obtain ⟨v, hv, hp, hlv⟩ : ∃ v,
      v = (if more then w else w.setConn c ({ · with cancelling := false })) ∧
      Patient v (.tail c more :: hand) ∧ Life v (.tail c more :: hand) := by
    refine ⟨_, rfl, ?_⟩
    cases more with
    | true => exact ⟨h, hl⟩
    | false =>
      have ha : Alike w (w.setConn c ({ · with cancelling := false })) :=
        setConn_alike c _ ⟨rfl, rfl, rfl, rfl, rfl⟩ rfl rfl
      refine ⟨?_, hl.alike ha⟩
      have hc := (h c).toWatched
      refine setConn_patient (f := ({ · with cancelling := false })) h (fun _ _ => id)
        ⟨?_, ?_, ?_, ?_, ?_⟩ (h c).item (h c).pause
      · rw [setConn_self]
        exact hc.waiter
      · rw [setConn_self]
        exact hc.asked
      · rw [setConn_self]
        exact hc.pausing
      · exact fun _ _ => .inr (by simp)
      · rw [setConn_self]
        exact hc.done
  unfold onRecv
  dsimp only
  rw [← hv]
  split
  · rename_i hn
    cases more with
    | false => exact onNobufs_patient hp hlv
    | true =>
      have := hm rfl
      rw [hn] at this
      exact absurd this (by decide)
  · split
    · rename_i hn
      cases more with
      | false => exact onEnded_patient hp hlv result buf
      | true =>
        have := hm rfl
        omega
    · have hd := onData_patient hp hlv c result more buf
      refine fun d => ?_
      have hx := hd d
      refine ⟨⟨hx.waiter, hx.asked, hx.pausing, fun h1 h2 => (hx.cancel h1 h2).imp id fun hm => ?_,
        hx.done⟩, hx.item, hx.pause⟩
      rw [List.cons_append, List.mem_cons] at hm
      rw [List.mem_append]
      rcases hm with hm | hm
      · exact .inr (hm ▸ List.mem_cons_self)
      · exact (List.mem_append.mp hm).imp id (List.mem_cons_of_mem _)

theorem armRecv_patient (h : Patient w hand)
    (ht : ∀ d, d ≠ c → .tail d false ∈ hand ++ w.tasks → .tail d false ∈ hand' ++ w.tasks)
    (hn : ∀ k, (w.coros k).state.await ≠ some (.pause c)) : Patient (w.armRecv c) hand' := by
  have hp (hx : (w.conns c).pausing = true) : False := hn _ ((h c).pausing hx).1
  refine Patient.unmoved (w := w.setConn c
    ({ · with recv := .armed, cancelling := false, armed := true })) ?_ (.of_eq rfl rfl rfl)
  refine setConn_patient h ht ⟨?_, fun k hs => absurd hs (hn k), ?_, ?_, ?_⟩ (h c).item
    fun _ _ => rfl
  · rw [setConn_self]
    exact (h c).waiter
  · rw [setConn_self]
    exact fun hx => (hp hx).elim
  · rw [setConn_self]
    exact fun hx => (hp hx).elim
  · rw [setConn_self]
    exact nofun

theorem onRecvTail_patient {more : Bool} (h : Patient w (.tail c more :: hand))
    (hl : Life w (.tail c more :: hand)) : Patient (w.onRecvTail c more) hand := by
  have hr := (hl.conn c).tail more (by simp)
  unfold onRecvTail
  dsimp only
  cases more with
  | false =>
    rw [if_pos nofun]
    split
    · exact paused_patient h hl
    · rename_i hp
      split
      · rename_i hc
        refine armRecv_patient h tail_other fun k hs => hp ⟨(h c).asked k hs hr, hc.1⟩
      · rename_i hc
        refine (setDone_patient h hl ?_).unmoved (connUnref_unmoved c)
        by_cases hx : (w.conns c).closed = true
        · exact .inl hx
        · refine .inr ⟨?_, ?_⟩
          · by_contra he
            exact hc ⟨hx, he⟩
          · by_contra he
            exact hp ⟨by simpa using he, hx⟩
  | true =>
    have hd : Patient w hand := fun d =>
      ⟨⟨(h d).waiter, (h d).asked, (h d).pausing, fun h1 h2 => ((h d).cancel h1 h2).imp id
        fun hm => by simpa using hm, (h d).done⟩, (h d).item, (h d).pause⟩
    rw [if_neg (by simp)]
    split
    · exact setConn_patient hd (fun _ _ => id) (setConn_watched (hd c).toWatched
        ⟨rfl, rfl, rfl, rfl⟩ (fun _ => rfl) (hd c).done) (hd c).item (hd c).pause
    · exact hd

theorem recvDrain_patient (h : Patient w hand) (hk : ∀ k, (w.conns c).waiter = some k →
      (w.coros k).state = .parked (.item c) ∨ (w.coros k).state = .parked (.pause c)) :
    Patient (w.recvDrain c) hand := by
  unfold recvDrain
  split
  · exact h
  · exact ending_patient (l := []) h hk nofun _

end Worker

end Ioxd.Io
