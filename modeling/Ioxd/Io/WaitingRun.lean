import Ioxd.Io.Waiting

/-!
# No wake-up is lost

The awaits, the loop and the kernel: every move leaves nobody waiting for what
is there already. So in every state of every run each coroutine is in one place
from which something resumes it: the queue of those to start, an operation of
its own with the kernel or completed, or a connection that has nothing for it
and whose recv is to complete, or stands in line for a buffer, or was stopped by
the coroutine itself. One that has returned is in none.
-/

namespace Ioxd.Io

open Flat Ioxd.Pipe Runs

variable {w w' w'' : Worker} {hand hand' : List Task} {c k : Nat}

namespace Worker

-- ---------------------------------------------------------------------------
-- The coroutine that runs
-- ---------------------------------------------------------------------------

/-- A coroutine moves between places where it asks no connection for anything. -/
theorem reseat_patient (h : Patient w hand)
    (hk : ∀ k', k' ≠ k → w'.coros k' = w.coros k')
    (hs : ∀ d, (w.coros k).state.await ≠ some (.pause d))
    (hs' : ∀ a d, (w'.coros k).state.await = some a → a ≠ .item d ∧ a ≠ .pause d)
    (hc : w'.conns = w.conns) (ht : w'.tasks = w.tasks) : Patient w' hand := fun d => by
  have hx := h d
  have hne {k' : Nat} {a : Await} (ha : (w'.coros k').state.await = some a)
      (hd : a = .item d ∨ a = .pause d) : k' ≠ k := fun he => by
    obtain ⟨h1, h2⟩ := hs' a d (he ▸ ha)
    exact hd.elim h1 h2
  refine ⟨⟨fun k' hp => ?_, fun k' hp => ?_, fun hp => ?_, ?_, ?_⟩, fun k' hp => ?_,
    fun k' hp => ?_⟩
  · have hn : k' ≠ k := hp.elim (fun h1 => hne (by rw [h1]; rfl) (.inl rfl))
      fun h1 => hne (by rw [h1]; rfl) (.inr rfl)
    rw [hc]
    rw [hk k' hn] at hp
    exact hx.waiter k' hp
  · have hn := hne hp (.inr rfl)
    rw [hc]
    rw [hk k' hn] at hp
    exact hx.asked k' hp
  · rw [hc] at hp ⊢
    have hp' := hx.pausing hp
    have hn : (w.conns d).owner ≠ k := fun he => hs d (he ▸ hp'.1)
    rw [hk _ hn]
    exact hp'
  · rw [hc, ht]
    exact hx.cancel
  · rw [hc]
    exact hx.done
  · have hn := hne (a := .item d) (by rw [hp]; rfl) (.inl rfl)
    rw [hc]
    rw [hk k' hn] at hp
    exact hx.item k' hp
  · have hn := hne (a := .pause d) (by rw [hp]; rfl) (.inr rfl)
    rw [hc]
    rw [hk k' hn] at hp
    exact hx.pause k' hp

theorem own_await {a : Await} {k' : Nat} (hl : Life w hand) (ho : (w.conns c).owner = k)
    (ha : (w.coros k').state.await = some a) (hon : a.on = some c) : k' = k :=
  ((hl.coro k').on a c ha hon).1.symm.trans ho

theorem own_pausing {st : Option Await} (h : Patient w hand) (ho : (w.conns c).owner = k)
    (hs : (w.coros k).state = .running st) (hst : st ≠ some (.pause c)) :
    (w.conns c).pausing = false := by
  by_contra hx
  have := ((h c).pausing (by simpa using hx)).1
  rw [ho, hs] at this
  exact hst this

/-- The running coroutine is in its own code, with a connection of its own
changed. -/
theorem out_patient {st : Option Await} (h : Patient w hand) (hl : Life w hand)
    (hs : (w.coros k).state = .running st) (hst : ∀ d, st = some (.pause d) → d = c)
    (hw : (w.conns c).owner = k) (ho : Only c w w')
    (hk : ∀ k', k' ≠ k → w'.coros k' = w.coros k') (hs' : (w'.coros k).state = .running none)
    (ht : w'.tasks = w.tasks) (hp : (w'.conns c).pausing = false)
    (hd : (w'.conns c).recv = .done → (w'.conns c).closed = true ∨ (w'.conns c).eof = true) :
    Patient w' hand := by
  have hno (k' : Nat) (a : Await) (ha : (w'.coros k').state.await = some a) :
      a.on ≠ some c := by
    intro hon
    by_cases hkk : k' = k
    · rw [hkk, hs'] at ha
      cases ha
    · rw [hk k' hkk] at ha
      exact hkk (own_await hl hw ha hon)
  refine h.seated hs hst ho hk (fun a d ha => ?_) ht ⟨⟨fun k' hx => ?_, fun k' hx => ?_,
    fun hx => ?_, fun hx => ?_, hd⟩, fun k' hx => ?_, fun k' hx => ?_⟩
  · rw [hs'] at ha
    cases ha
  · rcases hx with hx | hx
    · exact absurd rfl (hno k' (.item c) (by rw [hx]; rfl))
    · exact absurd rfl (hno k' (.pause c) (by rw [hx]; rfl))
  · exact absurd rfl (hno k' _ hx)
  · rw [hp] at hx
    cases hx
  · rw [hp] at hx
    cases hx
  · exact absurd rfl (hno k' (.item c) (by rw [hx]; rfl))
  · exact absurd rfl (hno k' (.pause c) (by rw [hx]; rfl))

/-- The running coroutine parks: for bytes that are not there, or until the
recv it asked to pause has stopped. -/
theorem park_patient {st : Option Await} {a : Await} {f : Conn → Conn} (h : Patient w hand)
    (hl : Life w hand) (hs : (w.coros k).state = .running st)
    (hst : ∀ d, st = some (.pause d) → d = c) (hw : (w.conns c).owner = k)
    (hx : (f (w.conns c)).owner = (w.conns c).owner ∧ (f (w.conns c)).waiter = some k)
    (ha : a = .item c ∧ (f (w.conns c)).rx = [] ∧ (f (w.conns c)).eof = false ∧
        (f (w.conns c)).pausing = false ∨
      a = .pause c ∧ (f (w.conns c)).recv = .armed ∧ (f (w.conns c)).pausing = true ∧
        ((f (w.conns c)).cancelling = true ∨ .tail c false ∈ hand ++ w.tasks))
    (hd : (f (w.conns c)).recv = .done →
      (f (w.conns c)).closed = true ∨ (f (w.conns c)).eof = true) :
    Patient ((w.setConn c f).coroYield k a) hand := by
  obtain ⟨h1, h2⟩ := hx
  have hself : ((w.setConn c f).coroYield k a).conns c = f (w.conns c) := setConn_self c f
  have hst' : (((w.setConn c f).coroYield k a).coros k).state = .parked a := by
    simp [coroYield, setState]
  have hk (k' : Nat) (hn : k' ≠ k) :
      ((w.setConn c f).coroYield k a).coros k' = w.coros k' := Function.update_of_ne hn _ _
  have hon : a.on = some c := by
    rcases ha with ⟨rfl, -⟩ | ⟨rfl, -⟩ <;> rfl
  have hme {k' : Nat} {b : Await}
      (hb : (((w.setConn c f).coroYield k a).coros k').state.await = some b)
      (hbc : b.on = some c) : k' = k ∧ b = a := by
    by_cases hkk : k' = k
    · rw [hkk, hst'] at hb
      exact ⟨hkk, (Option.some.inj hb).symm⟩
    · rw [hk k' hkk] at hb
      exact absurd (own_await hl hw hb hbc) hkk
  refine h.seated hs hst (setConn_only c f) hk (fun b d hb hbd => ?_) rfl
    ⟨⟨fun k' hp => ?_, fun k' hp hr => ?_, fun hp => ?_, fun hp hr => ?_, ?_⟩, fun k' hp => ?_,
      fun k' hp => ?_⟩
  · rw [hst'] at hb
    rw [← Option.some.inj hb, hon] at hbd
    exact (Option.some.inj hbd).symm
  · have hk' : k' = k := hp.elim (fun hp => (hme (by rw [hp]; rfl) (rfl : (Await.item c).on = _)).1)
      fun hp => (hme (by rw [hp]; rfl) (rfl : (Await.pause c).on = _)).1
    rw [hself, h2, hk']
  · have he := (hme hp rfl).2
    rw [hself]
    rcases ha with ⟨rfl, -⟩ | ⟨-, -, hpa, -⟩
    · cases he
    · exact hpa
  · rw [hself] at hp ⊢
    rcases ha with ⟨-, -, -, hpa⟩ | ⟨rfl, hr, -, -⟩
    · rw [hpa] at hp
      cases hp
    · rw [h1, hw, hst']
      exact ⟨rfl, .inl hr⟩
  · rw [hself] at hp hr ⊢
    rcases ha with ⟨-, -, -, hpa⟩ | ⟨-, -, -, hq⟩
    · rw [hpa] at hp
      cases hp
    · exact hq
  · rw [hself]
    exact hd
  · have he := (hme (b := .item c) (by rw [hp]; rfl) rfl).2
    rw [hself]
    rcases ha with ⟨-, hrx, heof, -⟩ | ⟨rfl, -⟩
    · exact ⟨hrx, heof⟩
    · cases he
  · have he := (hme (b := .pause c) (by rw [hp]; rfl) rfl).2
    rw [hself]
    rcases ha with ⟨rfl, -⟩ | ⟨-, hr, -⟩
    · cases he
    · exact hr

-- ---------------------------------------------------------------------------
-- The awaits
-- ---------------------------------------------------------------------------

theorem recvItem_patient {st : Option Await} (h : Patient w hand) (hl : Life w hand)
    (hs : (w.coros k).state = .running st) (hst : ∀ d, st ≠ some (.pause d))
    (hw : (w.conns c).owner = k) : Patient (w.recvItem k c) hand := by
  have hp := own_pausing h hw hs (hst c)
  have hst' (d : Nat) (hd : st = some (.pause d)) : d = c := absurd hd (hst d)
  unfold recvItem
  split
  · rename_i item rest _
    have hu := withReader_unmoved (w := w.setConn c ({ · with rx := rest })) c
      fun r => (r.moreItem item).2
    have ho := (setConn_only (w := w) c ({ · with rx := rest })).trans
      (withReader_only c fun r => (r.moreItem item).2)
    have ht := (withReader_alike (w := w.setConn c ({ · with rx := rest })) c
      fun r => (r.moreItem item).2).tasks
    obtain ⟨-, -, h3, h4, h5, -, h7, -⟩ := hu.conn c
    rw [setConn_self] at h3 h4 h5 h7
    refine out_patient h hl hs hst' hw ho (fun k' hk' => ?_) (by simp [setState]) ht
      (h5.trans hp) fun hd => ((h c).done (h4.symm.trans hd)).imp (h7.trans ·) (h3.trans ·)
    exact (Function.update_of_ne hk' _ _).trans (congrFun hu.coros k')
  · split
    · have hu := withReader_unmoved (w := w) c fun r => r.moreEnded ((w.conns c).err < 0)
      have ho := withReader_only (w := w) c fun r => r.moreEnded ((w.conns c).err < 0)
      have ht := (withReader_alike (w := w) c fun r => r.moreEnded ((w.conns c).err < 0)).tasks
      obtain ⟨-, -, h3, h4, h5, -, h7, -⟩ := hu.conn c
      refine out_patient h hl hs hst' hw ho (fun k' hk' => ?_) (by simp [setState]) ht
        (h5.trans hp) fun hd => ((h c).done (h4.symm.trans hd)).imp (h7.trans ·) (h3.trans ·)
      exact (Function.update_of_ne hk' _ _).trans (congrFun hu.coros k')
    · rename_i hrx he
      exact park_patient h hl hs hst' hw ⟨rfl, rfl⟩
        (.inl ⟨rfl, hrx, by simpa using he, hp⟩) (h c).done

theorem pauseEnd_patient {st : Option Await} {v : Worker} (h : Patient w hand) (hl : Life w hand)
    (hs : (w.coros k).state = .running st) (hst : ∀ d, st = some (.pause d) → d = c)
    (hw : (w.conns c).owner = k) (ho : Only c w v) (hv : v.coros = w.coros ∧ v.tasks = w.tasks)
    (hp : (v.conns c).pausing = false)
    (hd : (v.conns c).recv = .done → (v.conns c).closed = true ∨ (v.conns c).eof = true) :
    Patient (v.pauseEnd k c) hand := by
  have hother (k' : Nat) (hk' : k' ≠ k) : (v.pauseEnd k c).coros k' = w.coros k' := by
    rw [← hv.1]
    unfold pauseEnd
    split <;> exact Function.update_of_ne hk' _ _
  have hstate : ((v.pauseEnd k c).coros k).state = .running none := by
    unfold pauseEnd
    split <;> simp [setState]
  refine out_patient h hl hs hst hw (ho.trans (pauseEnd_only k c)) hother hstate ?_ ?_ ?_
  · rw [← hv.2]
    unfold pauseEnd
    split <;> rfl
  · unfold pauseEnd
    split
    · simpa [setState, setRecv, starvedRemove, setConn] using hp
    · exact hp
  · unfold pauseEnd
    split
    · simp [setState, setRecv, starvedRemove, setConn]
    · exact hd

theorem pauseTurn_patient (h : Patient w hand) (hl : Life w hand)
    (hs : (w.coros k).state = .running (some (.pause c))) (hw : (w.conns c).owner = k) :
    Patient (w.pauseTurn k c) hand := by
  have hst (d : Nat) (hd : some (Await.pause c) = some (.pause d)) : d = c := by
    rw [Option.some.injEq, Await.pause.injEq] at hd
    exact hd.symm
  unfold pauseTurn
  split
  · rename_i hr
    have hp := (h c).asked k (by rw [hs]; rfl) hr
    exact park_patient h hl hs hst hw ⟨rfl, rfl⟩ (.inr ⟨rfl, hr, hp, (h c).cancel hp hr⟩)
      (h c).done
  · refine pauseEnd_patient h hl hs hst hw (setConn_only c _) ⟨rfl, rfl⟩ ?_ ?_
    · rw [setConn_self]
    · rw [setConn_self]
      exact (h c).done

theorem recvPause_patient (h : Patient w hand) (hl : Life w hand)
    (hs : (w.coros k).state = .running none) (hw : (w.conns c).owner = k) :
    Patient (w.recvPause k c) hand := by
  unfold recvPause
  split
  · rename_i hr
    have he : ((w.setConn c ({ · with pausing := true })).cancelRecv c).pauseTurn k c =
        (w.setConn c ({ · with pausing := true, cancelling := true, waiter := some k })).coroYield
          k (.pause c) := by
      unfold pauseTurn
      rw [if_pos (by simpa [cancelRecv, setConn] using hr)]
      simp [cancelRecv, setConn]
    rw [he]
    exact park_patient h hl hs (by simp) hw ⟨rfl, rfl⟩ (.inr ⟨rfl, hr, rfl, .inl rfl⟩) (h c).done
  · exact pauseEnd_patient h hl hs (by simp) hw (.refl c w) ⟨rfl, rfl⟩
      (own_pausing h hw hs (by simp)) (h c).done

theorem acts_patient (h : Patient w hand) (hl : Life w hand)
    (hs : (w.coros k).state = .running none) (hw : (w.conns c).owner = k) (ho : Only c w w')
    (hk : w'.coros = w.coros) (ht : w'.tasks = w.tasks)
    (hp : (w'.conns c).pausing = (w.conns c).pausing)
    (hd : (w'.conns c).recv = .done → (w'.conns c).closed = true ∨ (w'.conns c).eof = true) :
    Patient w' hand :=
  out_patient h hl hs nofun hw ho (fun k' _ => congrFun hk k') (by rw [hk]; exact hs) ht
    (hp.trans (own_pausing h hw hs nofun)) hd

theorem recvResume_patient (h : Patient w hand) (hl : Life w hand)
    (hs : (w.coros k).state = .running none) (hw : (w.conns c).owner = k) :
    Patient (w.recvResume c) hand := by
  unfold recvResume
  dsimp only
  split
  · exact h
  · split
    · obtain ⟨-, -, -, h4, -, h6⟩ := endInput_fields (w.conns c) (-ECANCELED)
      have hv : Patient (w.setConn c fun x =>
          { Conn.endInput x (-ECANCELED) with recv := .done }) hand := by
        refine acts_patient h hl hs hw (setConn_only c _) rfl rfl ?_ ?_
        · rw [setConn_self]
          exact h4
        · rw [setConn_self]
          exact fun _ => .inr h6
      exact hv.unmoved (connUnref_unmoved c)
    · refine acts_patient h hl hs hw (armRecv_only c) rfl rfl ?_ ?_
      · simp [armRecv, setConn]
      · simp [armRecv, setConn]

theorem pipeClose_fields (c : Nat) : ((w.pipeClose c).conns c).pausing = (w.conns c).pausing ∧
    ((w.pipeClose c).conns c).closed = true ∧ (w.pipeClose c).tasks = w.tasks := by
  have hclose (v : Worker) : ((v.closeRecv c).conns c).pausing = (v.conns c).pausing ∧
      ((v.closeRecv c).conns c).closed = (v.conns c).closed ∧ (v.closeRecv c).tasks = v.tasks := by
    unfold closeRecv
    split <;> simp [cancelRecv, starvedRemove, setConn]
  have hret (v : Worker) : ((v.returnRx c).conns c).pausing = (v.conns c).pausing ∧
      ((v.returnRx c).conns c).closed = (v.conns c).closed ∧ (v.returnRx c).tasks = v.tasks := by
    unfold returnRx
    rw [returnAll_conns, setConn_self]
    exact ⟨rfl, rfl, (returnAll_alike _).tasks⟩
  have hun (v : Worker) : (v.connUnref c).tasks = v.tasks := by
    unfold connUnref
    dsimp only
    split <;> rfl
  have hu := (withReader_unmoved (w := w) c Reader.close).conn c
  unfold pipeClose connClose
  obtain ⟨-, -, -, -, h5, -, h7, -⟩ := (connUnref_unmoved (w := (((w.withReader c
    Reader.close).setConn c ({ · with closed := true })).closeRecv c).returnRx c) c).conn c
  rw [h5, h7, hun, (hret _).1, (hret _).2.1, (hret _).2.2, (hclose _).1, (hclose _).2.1,
    (hclose _).2.2, setConn_self]
  exact ⟨hu.2.2.2.2.1, rfl, (withReader_alike c _).tasks⟩

theorem pipeClose_patient (h : Patient w hand) (hl : Life w hand)
    (hs : (w.coros k).state = .running none) (hw : (w.conns c).owner = k) :
    Patient (w.pipeClose c) hand := by
  obtain ⟨h1, h2, h3⟩ := pipeClose_fields (w := w) c
  exact acts_patient h hl hs hw (pipeClose_only c) (pipeClose_coros c) h3 h1 fun _ => .inl h2

theorem connNew_patient (h : Patient w hand) (hl : Life w hand) (tls : Bool) (owner : Nat)
    (pr : Pipereader) : Patient (w.connNew tls owner pr) hand := by
  have hno (k : Nat) (a : Await) (ha : (w.coros k).state.await = some a) :
      a.on ≠ some w.nextConn := fun hon =>
    absurd ((hl.coro k).on a _ ha hon).2.2 (Nat.lt_irrefl _)
  have hself : (w.connNew tls owner pr).conns w.nextConn =
      { tls := tls, waiter := none, rx := [], recv := .armed, pausing := false,
        cancelling := false, refs := 2, closed := false, eof := false, err := 0, pr := pr,
        owner := owner, armed := false, recycled := 0 } := Function.update_self ..
  refine h.apart (c := w.nextConn) (fun d hd => Function.update_of_ne hd _ _) (.of_eq rfl)
    (fun _ _ => id) ⟨⟨fun k hx => ?_, fun k hx => ?_, ?_, ?_, ?_⟩, fun k hx => ?_, fun k hx => ?_⟩
  · rcases hx with hx | hx
    · exact absurd rfl (hno k (.item _) (by rw [show (w.coros k).state = _ from hx]; rfl))
    · exact absurd rfl (hno k (.pause _) (by rw [show (w.coros k).state = _ from hx]; rfl))
  · exact absurd rfl (hno k _ hx)
  · rw [hself]
    exact nofun
  · rw [hself]
    exact nofun
  · rw [hself]
    exact nofun
  · exact absurd rfl (hno k (.item _) (by rw [show (w.coros k).state = _ from hx]; rfl))
  · exact absurd rfl (hno k (.pause _) (by rw [show (w.coros k).state = _ from hx]; rfl))

theorem coGoes_patient {a : Await} (h : Patient w hand) (hl : Life w hand)
    (hs : (w.coros k).state = .running (some a)) : Patient (w.coGoes k a) hand := by
  have hon (c : Nat) (hc : a.on = some c) : (w.conns c).owner = k :=
    ((hl.coro k).on a c (by rw [hs]; rfl) hc).1
  have hout (v : Worker) (hv : Patient v hand) (hc : v.coros = w.coros)
      (ha : ∀ d, a ≠ .pause d) : Patient (v.setState k (.running none)) hand := by
    refine reseat_patient (k := k) hv (fun k' hk' => Function.update_of_ne hk' _ _)
      (fun d => ?_) (fun b d hb => ?_) rfl rfl
    · rw [hc, hs]
      exact fun hx => ha d (Option.some.inj hx)
    · simp [setState, CoState.await] at hb
  cases a with
  | item c => exact recvItem_patient h hl hs (by simp) (hon c rfl)
  | pause c => exact pauseTurn_patient h hl hs (hon c rfl)
  | op => exact hout w h rfl (by simp)
  | setopt c =>
    refine hout _ (armRecv_patient h (fun _ _ => id) fun k' hx => ?_) rfl (by simp)
    have hk' := own_await hl (hon c rfl) hx rfl
    rw [hk', hs] at hx
    cases hx

theorem ioAwait_patient (h : Patient w hand) (hs : (w.coros k).state = .running none) (a : Await)
    (ha : ∀ d, a ≠ .item d ∧ a ≠ .pause d) : Patient (w.ioAwait k a) hand := by
  refine reseat_patient (k := k) h (fun k' hk' => Function.update_of_ne hk' _ _) (fun d => ?_)
    (fun b d hb => ?_) rfl rfl
  · rw [hs]
    exact nofun
  · have hb : a = b := by simpa [ioAwait, coroYield, setState, CoState.await] using hb
    exact hb ▸ ha d

theorem coActs_patient {a : CoAct} (h : Patient w hand) (hl : Life w hand)
    (hs : (w.coros k).state = .running none) (ha : w.coActs k a = some w') : Patient w' hand := by
  cases a with
  | more c =>
    simp only [coActs, Option.ite_none_right_eq_some, Option.some.injEq] at ha
    obtain ⟨hw, rfl⟩ := ha
    split
    · exact h
    · exact recvItem_patient h hl hs (by simp) hw.1
  | reader c op =>
    simp only [coActs, Option.ite_none_right_eq_some, Option.some.injEq] at ha
    exact ha.2 ▸ h.unmoved (withReader_unmoved c _)
  | pause c =>
    simp only [coActs, Option.ite_none_right_eq_some, Option.some.injEq] at ha
    exact ha.2 ▸ recvPause_patient h hl hs ha.1.1
  | resume c =>
    simp only [coActs, Option.ite_none_right_eq_some, Option.some.injEq] at ha
    exact ha.2 ▸ recvResume_patient h hl hs ha.1.1
  | await => exact Option.some.inj ha ▸ ioAwait_patient h hs .op fun _ => by simp
  | connected pr =>
    exact Option.some.inj ha ▸ ioAwait_patient (connNew_patient h hl false k pr) hs _
      fun _ => by simp
  | close c =>
    simp only [coActs, Option.ite_none_right_eq_some, Option.some.injEq] at ha
    exact ha.2 ▸ pipeClose_patient h hl hs ha.1.1.1
  | finish =>
    simp only [coActs, Option.ite_none_right_eq_some, Option.some.injEq] at ha
    obtain ⟨hw, rfl⟩ := ha
    refine reseat_patient (k := k) (pipeClose_patient h hl hs hw.1)
      (fun k' hk' => Function.update_of_ne hk' _ _) (fun d => ?_) (fun b d hb => ?_) rfl rfl
    · rw [pipeClose_coros, hs]
      simp [CoState.await]
    · simp [setState, CoState.await] at hb

-- ---------------------------------------------------------------------------
-- The loop and the kernel
-- ---------------------------------------------------------------------------

theorem owed_patient {ts : List Task} (h : Patient w hand)
    (ht : ∀ c, .tail c false ∈ hand ++ w.tasks → .tail c false ∈ hand' ++ ts) :
    Patient { w with tasks := ts } hand' := fun c =>
  ⟨⟨(h c).waiter, (h c).asked, (h c).pausing, fun h1 h2 => ((h c).cancel h1 h2).imp id (ht c),
    (h c).done⟩, (h c).item, (h c).pause⟩

theorem coroResume_patient (h : Patient w hand) (hst : ∀ a, (w.coros k).state ≠ .running a) :
    Patient (w.coroResume k) hand := by
  have hw : Woken w (w.coroResume k) := by
    refine ⟨fun k' => ?_, fun k' a hp => ?_⟩
    · by_cases hk : k' = k
      · subst hk
        cases hs : (w.coros k').state with
        | running a => exact absurd hs (hst a)
        | _ => simp [coroResume, setState, hs, CoState.await]
      · simp [coroResume, setState, hk]
    · by_cases hk : k' = k
      · subst hk
        simp [coroResume, setState] at hp
      · simpa [coroResume, setState, hk] using hp
  have hc : (w.coroResume k).conns = w.conns := rfl
  intro c
  have hx := h c
  refine ⟨⟨fun k' hp => ?_, fun k' => ?_, ?_, hx.cancel, hx.done⟩, fun k' hp => ?_, fun k' hp => ?_⟩
  · exact hx.waiter k' (hp.imp (hw.parked k' _) (hw.parked k' _))
  · rw [hw.await]
    exact hx.asked k'
  · rw [hc, hw.await]
    exact hx.pausing
  · exact hx.item k' (hw.parked k' _ hp)
  · exact hx.pause k' (hw.parked k' _ hp)

theorem idle_state (hl : Life w hand) (hr : w.running = none) (k : Nat) (a : Option Await) :
    (w.coros k).state ≠ .running a := fun hs => by
  have := (hl.coro k).running a hs
  rw [hr] at this
  cases this

theorem armAccept_unmoved (l : Nat) : Unmoved w (w.armAccept l) := by
  unfold armAccept stallAccept
  split <;> exact .of_eq rfl rfl rfl

theorem rearmStalled_unmoved (due : List Nat) : Unmoved w (w.rearmStalled due) := by
  have hfold {β : Type} (f : Worker → β → Worker) (hf : ∀ v x, Unmoved v (f v x))
      (xs : List β) (v : Worker) : Unmoved v (xs.foldl f v) := by
    induction xs generalizing v with
    | nil => exact .refl v
    | cons x xs ih => exact (hf v x).trans (ih _)
  refine hfold _ (fun v l => ?_) _ w
  split
  · split
    · exact armAccept_unmoved l
    · exact .refl v
  · exact .refl v

theorem onAccept_patient (h : Patient w hand) (hl : Life w hand) (l : Nat) (result : Int)
    (more : Bool) (pr : Pipereader) : Patient (w.onAccept l result more pr) hand := by
  have hnew (tls : Bool) : Patient (if result ≥ 0 ∧ w.draining = true then w
      else if result ≥ 0 then
        ((w.connNew tls w.nextCoro pr).armRecv w.nextConn).spawn w.nextConn
      else w) hand := by
    split
    · exact h
    · split
      · have hfin := (hl.coro w.nextCoro).fresh (Nat.le_refl _)
        have harm := armRecv_patient (c := w.nextConn) (connNew_patient h hl tls w.nextCoro pr)
          (fun _ _ => id) fun k hx =>
            absurd ((hl.coro k).on _ _ hx rfl).2.2 (Nat.lt_irrefl _)
        refine reseat_patient (k := w.nextCoro) harm
          (fun k' hk' => Function.update_of_ne hk' _ _) (fun d => ?_) (fun a d ha => ?_) rfl rfl
        · rw [show ((w.connNew tls w.nextCoro pr).armRecv w.nextConn).coros = w.coros from rfl,
            hfin]
          exact nofun
        · simp [spawn, armRecv, setConn, connNew, CoState.await] at ha
      · exact h
  unfold onAccept
  dsimp only
  split
  · exact hnew _
  · split
    · exact (hnew _).unmoved (.of_eq rfl rfl rfl)
    · exact (hnew _).unmoved (armAccept_unmoved l)

theorem dispatch_patient {x : Cqe} {rest : List Cqe} (h : Patient w []) (hl : Life w [])
    (hr : w.running = none) (ht : w.tasks = []) (hq : w.cq = x :: rest) (n : Nat)
    (pr : Pipereader) : Patient (dispatch { w with cq := rest, phase := .batch n } pr x) [] := by
  have hu : Patient { w with cq := rest, phase := .batch n } [] := h.unmoved (.of_eq rfl rfl rfl)
  cases x with
  | recv c result more buf =>
    have hlt : Life { w with cq := rest, phase := .batch n } [.tail c more] :=
      (taken_life hl ht hq).alike { Alike.refl _ with }
    have hpt : Patient { w with cq := rest, phase := .batch n } [.tail c more] := fun d =>
      ⟨⟨(hu d).waiter, (hu d).asked, (hu d).pausing, fun h1 h2 => ((hu d).cancel h1 h2).imp id
        (List.mem_cons_of_mem _), (hu d).done⟩, (hu d).item, (hu d).pause⟩
    refine onRecv_patient hpt hlt (fun hm => ?_) buf
    subst hm
    exact hl.more c result buf (hq ▸ List.mem_cons_self)
  | op k => exact coroResume_patient hu (idle_state hl hr k)
  | accept l result more =>
    exact onAccept_patient hu
      ((passed_life hl hq (fun _ => rfl) nofun).alike { Alike.refl _ with }) l result more pr
  | drain result =>
    simp only [dispatch]
    split
    · exact hu.unmoved (.of_eq rfl rfl rfl)
    · exact hu

theorem foldl_armRecv_patient {cs : List Nat} (h : Patient w hand)
    (hn : ∀ c ∈ cs, ∀ k, (w.coros k).state.await ≠ some (.pause c)) :
    Patient (cs.foldl armRecv w) hand := by
  induction cs generalizing w with
  | nil => exact h
  | cons c cs ih =>
    exact ih (armRecv_patient h (fun _ _ => id) (hn c List.mem_cons_self))
      fun d hd => hn d (List.mem_cons_of_mem _ hd)

theorem rearmStarved_patient (h : Patient w hand) (hl : Life w hand) (hr : w.running = none) :
    Patient w.rearmStarved hand := by
  have hn (c : Nat) (hc : c ∈ w.starved) (k : Nat) : (w.coros k).state.await ≠ some (.pause c) := by
    intro hs
    have hrecv : (w.conns c).recv = .starved := by
      have hst := (hl.conn c).starved
      have := List.count_pos_iff.mpr hc
      by_contra hx
      rw [if_neg hx] at hst
      omega
    cases hst : (w.coros k).state with
    | parked a =>
      rw [hst] at hs
      have ha : a = .pause c := Option.some.inj hs
      rw [(h c).pause k (ha ▸ hst)] at hrecv
      cases hrecv
    | running a => exact idle_state hl hr k a hst
    | _ =>
      rw [hst] at hs
      cases hs
  have hf : Patient { w with bufs := { w.bufs with returned := 0 } } hand :=
    h.unmoved (.of_eq rfl rfl rfl)
  unfold rearmStarved
  dsimp only
  split
  · exact hf
  · exact Patient.unmoved (foldl_armRecv_patient hf fun c hc => hn c (List.mem_of_mem_take hc))
      (.of_eq rfl rfl rfl)

theorem doTask_patient {t : Task} {ts : List Task} (h : Patient w []) (hl : Life w [])
    (ht : w.tasks = t :: ts) : Patient (doTask { w with tasks := ts } t) [] := by
  have hh : Patient { w with tasks := ts } [t] := owed_patient h fun c hm => by
    rw [List.nil_append, ht] at hm
    exact hm
  have hlh : Life { w with tasks := ts } [t] := hl.owed_perm (by rw [ht]; rfl)
  cases t with
  | unref c =>
    refine Patient.unmoved ?_ (connUnref_unmoved c)
    exact owed_patient h fun d hm => by simpa [ht] using hm
  | tail c more => exact onRecvTail_patient hh hlh
  | drain =>
    simp only [doTask]
    split
    · exact owed_patient h fun d hm => by simpa [ht] using hm
    · rename_i c hc
      have hp : Patient { w with starved := w.starved.dropLast, tasks := .drain :: ts } [] :=
        h.unmoved ⟨fun _ => ⟨rfl, rfl, rfl, rfl, rfl, rfl, rfl, rfl⟩, rfl, fun d => by rw [ht]⟩
      exact recvDrain_patient hp (hl.conn c).waiter

theorem loopStep_patient (h : Patient w []) (hl : Life w []) (hr : w.running = none)
    (ht : w.tasks = []) (due : List Nat) (pr : Pipereader) : Patient (w.loopStep due pr) [] := by
  have hp (p : Phase) {v : Worker} (hv : Patient v []) : Patient { v with phase := p } [] :=
    hv.unmoved (.of_eq rfl rfl rfl)
  unfold loopStep
  split
  · refine hp _ ?_
    split
    · exact h.unmoved ⟨fun _ => ⟨rfl, rfl, rfl, rfl, rfl, rfl, rfl, rfl⟩, rfl, fun c => by
        simp [beginDrain]⟩
    · exact h
  · exact hp _ h
  · split
    · exact coroResume_patient (h.unmoved (.of_eq rfl rfl rfl)) (idle_state hl hr _)
    · exact hp _ h
  · exact hp _ (rearmStarved_patient h hl hr)
  · exact h.unmoved (.of_eq rfl rfl rfl)
  · exact hp _ h
  · exact hp _ h
  · split
    · rename_i n _ _ x rest hq
      exact dispatch_patient h hl hr ht hq n pr
    · exact hp _ h
  · exact hp _ (h.unmoved (rearmStalled_unmoved due))
  · exact h

theorem recvPosted_unmoved (c : Nat) (result : Int) (more : Bool) (buf : Option Nat) :
    Unmoved w (w.recvPosted c result more buf) := by
  refine ⟨fun d => ?_, rfl, fun _ => .rfl⟩
  by_cases hd : d = c
  · subst hd
    rw [show (w.recvPosted d result more buf).conns d = { w.conns d with armed := more } from
      Function.update_self ..]
    exact ⟨rfl, rfl, rfl, rfl, rfl, rfl, rfl, rfl⟩
  · rw [show (w.recvPosted c result more buf).conns d = w.conns d from
      Function.update_of_ne hd _ _]
    exact ⟨rfl, rfl, rfl, rfl, rfl, rfl, rfl, rfl⟩

theorem step_patient {a : Act} (h : Patient w []) (hl : Life w []) (hs : w.step a = some w') :
    Patient w' [] := by
  have hposted (c : Nat) (result : Int) (more : Bool) (buf : Option Nat) {v : Worker}
      (hc : v.conns = (w.recvPosted c result more buf).conns) (hk : v.coros = w.coros)
      (ht : v.tasks = w.tasks) : Patient v [] :=
    h.unmoved ((recvPosted_unmoved c result more buf).trans (.of_eq hc hk ht))
  cases a with
  | stop => exact Option.some.inj hs ▸ h.unmoved (.of_eq rfl rfl rfl)
  | enter => exact Option.some.inj hs ▸ h.unmoved (.of_eq rfl rfl rfl)
  | recv c result more fill =>
    obtain ⟨-, -, -, hcase⟩ := postRecv_cases hs
    obtain ⟨m, -, -, -, rfl⟩ | ⟨-, -, -, rfl⟩ | ⟨-, -, rfl⟩ := hcase
    · exact hposted c result more none rfl rfl rfl
    · exact hposted c result more none rfl rfl rfl
    · exact hposted c result more none rfl rfl rfl
  | op k =>
    simp only [step, Option.ite_none_right_eq_some, Option.some.injEq] at hs
    exact hs.2 ▸ h.unmoved (.of_eq rfl rfl rfl)
  | accept l result more =>
    rw [postAccept_cases hs]
    exact h.unmoved (.of_eq rfl rfl rfl)
  | cancelled result =>
    simp only [step, Option.ite_none_right_eq_some, Option.some.injEq] at hs
    exact hs.2 ▸ h.unmoved (.of_eq rfl rfl rfl)
  | giveUp =>
    simp only [step, Option.ite_none_right_eq_some, Option.some.injEq] at hs
    exact hs.2 ▸ h.unmoved (.of_eq rfl rfl rfl)
  | loop due pr =>
    simp only [step] at hs
    split at hs
    · cases hs
    · rename_i ht
      exact Option.some.inj hs ▸ doTask_patient h hl ht
    · rename_i hr ht
      exact Option.some.inj hs ▸ loopStep_patient h hl hr ht due pr
  | go =>
    simp only [step] at hs
    split at hs
    · cases hs
    · split at hs
      · rename_i hst
        exact Option.some.inj hs ▸ coGoes_patient h hl hst
      · cases hs
  | co a =>
    simp only [step] at hs
    split at hs
    · cases hs
    · split at hs
      · rename_i hst
        exact coActs_patient h hl hst hs
      · cases hs

theorem Moves.patient (h : Patient w []) (hl : Life w []) (hm : Moves w w') : Patient w' [] := by
  cases hm with
  | step hs => exact step_patient h hl hs
  | @recv c result more buf bufs slab swept ha hm =>
    exact h.unmoved ((recvPosted_unmoved c result more buf).trans (.of_eq rfl rfl rfl))

theorem start_patient (bufCount fileSlots : Nat) (certs : List Bool) (pr : Pipereader)
    (slab : Nat → Mem Byte) : Patient (start bufCount fileSlots certs pr slab) [] := by
  have hfold (ls : List Nat) (v : Worker) : Unmoved v (ls.foldl armAccept v) := by
    induction ls generalizing v with
    | nil => exact .refl v
    | cons l ls ih => exact (armAccept_unmoved l).trans (ih _)
  refine Patient.unmoved (fun c => ?_) (hfold _ _)
  exact ⟨⟨fun k hx => hx.elim nofun nofun, nofun, nofun, nofun, fun _ => .inl rfl⟩, nofun, nofun⟩

-- ---------------------------------------------------------------------------
-- The run
-- ---------------------------------------------------------------------------

/-- The recv is armed, and its last completion is in one place: the kernel's, the
queue, or the rest of a handler. -/
def Coming (w : Worker) (c : Nat) : Prop :=
  (w.conns c).recv = .armed ∧ (if (w.conns c).armed then 1 else 0) +
    w.cq.countP (Cqe.last c) + w.tasks.count (.tail c false) = 1

/-- What is to resume a coroutine: that and nothing else, so that none is resumed
that has returned. One that waits on a connection is the one its completions wake,
and has nothing to go on with; a pause that it waits for has been asked of the
kernel. -/
structure Awaited (w : Worker) (k : Nat) : Prop where
  ready : w.ready.count k = if (w.coros k).state = .ready then 1 else 0
  op : w.ops.count k + w.cq.count (.op k) = if (w.coros k).state.inOp then 1 else 0
  waiter : ∀ c, (w.conns c).waiter = some k ↔
    (w.coros k).state = .parked (.item c) ∨ (w.coros k).state = .parked (.pause c)
  item : ∀ c, (w.coros k).state = .parked (.item c) →
    (w.conns c).closed = false ∧ (w.conns c).rx = [] ∧ (w.conns c).eof = false ∧
    (w.Coming c ∨ (w.conns c).recv = .starved ∧ w.starved.count c = 1 ∨
      (w.conns c).recv = .paused)
  pause : ∀ c, (w.coros k).state = .parked (.pause c) →
    (w.conns c).closed = false ∧ w.Coming c ∧ (w.conns c).pausing = true ∧
    ((w.conns c).cancelling = true ∨ .tail c false ∈ w.tasks)

theorem Life.coming (hl : Life w []) (hr : (w.conns c).recv = .armed)
    (ho : (w.conns c).owner = k) (hs : (w.coros k).state.await ≠ some (.setopt c)) :
    w.Coming c := by
  have h := (hl.conn c).lasts
  have hn : ¬ w.opening c := by
    unfold opening
    rwa [ho]
  rw [lasts, if_pos hr, if_neg hn] at h
  exact ⟨hr, h⟩

theorem Patient.awaited (h : Patient w []) (hl : Life w []) (k : Nat) : Awaited w k := by
  have hk := hl.coro k
  refine ⟨hk.ready, hk.ops, fun c => ⟨(hl.conn c).waiter k, (h c).waiter k⟩, fun c hs => ?_,
    fun c hs => ?_⟩
  · obtain ⟨ho, hcl, -⟩ := hk.on (.item c) c (by rw [hs]; rfl) rfl
    obtain ⟨hrx, he⟩ := (h c).item k hs
    refine ⟨hcl, hrx, he, ?_⟩
    cases hr : (w.conns c).recv with
    | armed => exact .inl (Life.coming hl hr ho (by rw [hs]; exact nofun))
    | starved => exact .inr (.inl ⟨rfl, (hl.conn c).starved.trans (if_pos hr)⟩)
    | paused => exact .inr (.inr rfl)
    | done =>
      rcases (h c).done hr with hx | hx
      · rw [hcl] at hx
        cases hx
      · rw [he] at hx
        cases hx
  · obtain ⟨ho, hcl, -⟩ := hk.on (.pause c) c (by rw [hs]; rfl) rfl
    have hr := (h c).pause k hs
    have hp := (h c).asked k (by rw [hs]; rfl) hr
    exact ⟨hcl, Life.coming hl hr ho (by rw [hs]; exact nofun), hp, (h c).cancel hp hr⟩

/-- In every state of every run, whatever the kernel does and whenever. -/
theorem no_wake_lost {bufCount fileSlots : Nat} {certs : List Bool} {pr : Pipereader}
    {slab : Nat → Mem Byte}
    (h : Relation.ReflTransGen Moves (start bufCount fileSlots certs pr slab) w) :
    ∀ k, Awaited w k := by
  obtain ⟨hl, hp⟩ : Life w [] ∧ Patient w [] := by
    induction h with
    | refl => exact ⟨start_life .., start_patient bufCount fileSlots certs pr slab⟩
    | tail _ hm ih => exact ⟨hm.life ih.1, hm.patient ih.2 ih.1⟩
  exact Patient.awaited hp hl

/-- A handler waits for the first bytes of its connection; the recv is with the
kernel. -/
theorem no_wake_lost_waiting : ∃ w, Relation.ReflTransGen Moves oneListener w ∧
    (w.coros 0).state = .parked (.item 0) ∧ (w.conns 0).waiter = some 0 ∧ w.Coming 0 := by
  have h : (perform step (fun _ _ => true) oneListener
      ([.accept 0 3 true] ++ turns 12 ++ [.co (.more 0)])).map
      (fun w => ((w.coros 0).state, (w.conns 0).recv)) = some (.parked (.item 0), .armed) := by
    decide
  obtain ⟨w, hw, hb⟩ := Option.map_eq_some_iff.mp h
  rw [Prod.mk.injEq] at hb
  have hr := moves_of_perform hw
  have hk := no_wake_lost hr 0
  obtain ⟨-, -, -, h2⟩ := hk.item 0 hb.1
  refine ⟨w, hr, hb.1, (hk.waiter 0).mpr (.inl hb.1), ?_⟩
  rcases h2 with h2 | ⟨h2, -⟩ | h2
  · exact h2
  · rw [hb.2] at h2
    cases h2
  · rw [hb.2] at h2
    cases h2

end Worker

end Ioxd.Io
