import Ioxd.Io.Drain
import Ioxd.Lib.Rings

/-!
# Where a buffer is

Every provided buffer is in one place: offered to the kernel, in a completion
that is not dispatched yet, in a connection's queue, or with its reader. A
function of the worker may have some in hand between the place it took them
from and the one it puts them in; `Kept` says that the places and the hand are
all buffers, each once. Most functions touch no buffer, and `Quiet` says so.
-/

namespace Ioxd.Io

open Flat Ioxd.Pipe Runs

-- ---------------------------------------------------------------------------
-- The ring
-- ---------------------------------------------------------------------------

namespace Bufring

variable {b b' : Bufring}

/-- The buffers in the ring that the kernel has not taken, oldest first, those
staged for the next publish included. -/
def offered (b : Bufring) : List Nat :=
  (List.range (b.tail - b.head)).map fun i => b.slots ((b.head + i) % b.count)

@[simp] theorem length_offered (b : Bufring) : b.offered.length = b.tail - b.head := by
  simp [offered]

theorem init_offered (count : Nat) : (init count).offered = List.range count := by
  unfold offered init
  refine (List.map_congr_left fun i hi => ?_).trans (List.map_id _)
  have hlt : i < count := by simpa using hi
  simp [Nat.mod_eq_of_lt hlt]

/-- Two indices less than a turn of the ring apart are different slots. -/
theorem slot_ne {i j n : Nat} (hij : i < j) (hn : j - i < n) : i % n ≠ j % n := by
  intro h
  have hd : n ∣ j - i := Nat.dvd_of_mod_eq_zero (Nat.sub_mod_eq_zero_of_mod_eq h.symm)
  have := Nat.le_of_dvd (by omega) hd
  omega

/-- A return with room in the ring stands behind what is offered, which it
leaves alone. -/
theorem giveBack_offered (hle : b.head ≤ b.tail) (hlt : b.tail - b.head < b.count) (id : Nat) :
    (b.giveBack id).offered = b.offered ++ [id] := by
  have hn : b.tail + 1 - b.head = b.tail - b.head + 1 := by omega
  unfold offered
  simp only [giveBack, hn, List.range_succ, List.map_append, List.map_cons, List.map_nil]
  congr 1
  · refine List.map_congr_left fun i hi => Function.update_of_ne ?_ _ _
    have hi : i < b.tail - b.head := by simpa using hi
    exact slot_ne (by omega) (by omega)
  · rw [show b.head + (b.tail - b.head) = b.tail by omega, Function.update_self]

theorem take_offered (h : b.head < b.tail) : b.offered = b.take.1 :: b.take.2.offered := by
  have hn : b.tail - b.head = b.tail - (b.head + 1) + 1 := by omega
  unfold offered take
  rw [hn, List.range_succ_eq_map, List.map_cons, List.map_map]
  simp only [Nat.add_zero, List.cons.injEq, true_and]
  refine List.map_congr_left fun i _ => ?_
  simp only [Function.comp_apply]
  rw [show b.head + (i + 1) = b.head + 1 + i by omega]

theorem giveBack_masked (hc : b.count.isPowerOfTwo) (hmax : b.count ≤ 2 ^ 15) (id : Nat) :
    (b.giveBack id).slots = Function.update b.slots
      (UInt32.ofNat b.tail &&& (UInt32.ofNat b.count - 1)).toNat id := by
  have hpos := Nat.pos_of_isPowerOfTwo hc
  have hmask : (UInt32.ofNat b.count - 1).toNat = b.count - 1 := by
    rw [UInt32.toNat_sub, UInt32.toNat_ofNat', UInt32.toNat_one]
    omega
  have hdvd := Rings.dvd_of_isPowerOfTwo hc (by omega)
  rw [giveBack, UInt32.toNat_and, hmask, Rings.and_mask hc, UInt32.toNat_ofNat',
    Nat.mod_mod_of_dvd _ hdvd]

/-- The kernel has 16 bits of the tail, and of its own index: they are as far
apart, and its slots are the same. -/
theorem published_words (hc : b.count.isPowerOfTwo) (hmax : b.count ≤ 2 ^ 15)
    (hle : b.head ≤ b.tail) (hroom : b.tail ≤ b.head + b.count) :
    ((UInt32.ofNat b.tail).toUInt16 - UInt16.ofNat b.head).toNat = b.offered.length ∧
      (UInt16.ofNat b.head).toNat % b.count = b.head % b.count := by
  have hdvd : b.count ∣ 2 ^ 16 := by
    obtain ⟨k, hk⟩ := hc
    rw [hk] at hmax ⊢
    have hk15 : k ≤ 15 := (Nat.pow_le_pow_iff_right (by decide)).mp hmax
    exact Nat.pow_dvd_pow 2 (by omega)
  constructor
  · rw [length_offered, UInt16.toNat_sub, UInt32.toNat_toUInt16, UInt32.toNat_ofNat',
      UInt16.toNat_ofNat']
    omega
  · rw [UInt16.toNat_ofNat', Nat.mod_mod_of_dvd _ hdvd]

/-- The same buffers are offered, in the same slots. -/
structure Same (b b' : Bufring) : Prop where
  count : b'.count = b.count
  slots : b'.slots = b.slots
  head : b'.head = b.head
  tail : b'.tail = b.tail

theorem Same.refl (b : Bufring) : b.Same b := ⟨rfl, rfl, rfl, rfl⟩

theorem Same.trans {b'' : Bufring} (h : b.Same b') (h' : b'.Same b'') : b.Same b'' :=
  ⟨h'.count.trans h.count, h'.slots.trans h.slots, h'.head.trans h.head, h'.tail.trans h.tail⟩

theorem Same.offered (h : b.Same b') : b'.offered = b.offered := by
  unfold Bufring.offered
  rw [h.count, h.slots, h.head, h.tail]

theorem publish_same (b : Bufring) : b.Same b.publish := by
  unfold publish
  split
  · exact ⟨rfl, rfl, rfl, rfl⟩
  · exact .refl b

end Bufring

-- ---------------------------------------------------------------------------
-- The places
-- ---------------------------------------------------------------------------

def Cqe.bufs : Cqe → List Nat
  | .recv _ _ _ buf => buf.toList
  | _ => []

/-- The buffers of a connection: queued, or with its reader. -/
def Conn.owned (x : Conn) : List Nat := x.rx.map (·.bufId) ++ Reader.held x.pr

namespace Worker

def inFlight (w : Worker) : List Nat := w.cq.flatMap Cqe.bufs

def owned (w : Worker) : List Nat := (List.range w.nextConn).flatMap fun c => (w.conns c).owned

def places (w : Worker) : List Nat := w.bufs.offered ++ w.inFlight ++ w.owned

end Worker

/-- A reader before its first byte, as `ioxd__pipe_init` leaves it. -/
def unused (pr : Pipereader) : Bool :=
  !pr.liveInBuf && !pr.hasCur && !pr.hasPinned && !pr.curIsPinned && !pr.runInCur &&
    pr.runLen == 0 && pr.curPos == 0 && pr.floor == 0

theorem unused_ok {pr : Pipereader} (h : unused pr = true) : pr.Ok ∧ Reader.held pr = [] := by
  simp only [unused, Bool.and_eq_true, Bool.not_eq_true', beq_iff_eq] at h
  obtain ⟨⟨⟨⟨⟨⟨⟨h1, h2⟩, h3⟩, h4⟩, h5⟩, h6⟩, h7⟩, h8⟩ := h
  constructor
  · constructor <;> simp [h1, h4, h5, h6, h7, h8]
  · simp [Reader.held, h2, h3]

/-- The places and the hand are all buffers, each once. `b` is the ring that
what is offered began as, and `shut` are the readers that are closed already. -/
structure Kept (b : Bufring) (shut : Nat → Prop) (w : Worker) (hand : List Nat) : Prop where
  one : (w.places ++ hand).Perm (List.range w.bufs.count)
  order : w.bufs.head ≤ w.bufs.tail
  size : w.bufs.count = b.count
  since : b.offered <+: w.bufs.offered
  ok : ∀ c, (w.conns c).closed = false → ¬ shut c → (w.conns c).pr.Ok
  closed : ∀ c, (w.conns c).closed = true → (w.conns c).owned = []
  fresh : ∀ c, w.nextConn ≤ c → (w.conns c).closed = true
  dry : ∀ c more buf, .recv c (-ENOBUFS) more buf ∈ w.cq → buf = none

/-- No buffer has moved. -/
structure Quiet (w w' : Worker) : Prop where
  bufs : w.bufs.Same w'.bufs
  cq : w'.cq = w.cq
  nextConn : w'.nextConn = w.nextConn
  owned : ∀ c, (w'.conns c).owned = (w.conns c).owned
  ok : ∀ c, (w.conns c).pr.Ok → (w'.conns c).pr.Ok
  closed : ∀ c, (w'.conns c).closed = (w.conns c).closed

variable {b : Bufring} {shut : Nat → Prop} {w w' w'' : Worker} {hand hand' : List Nat} {c k : Nat}

theorem Quiet.refl (w : Worker) : Quiet w w :=
  ⟨.refl _, rfl, rfl, fun _ => rfl, fun _ h => h, fun _ => rfl⟩

theorem Quiet.trans (h : Quiet w w') (h' : Quiet w' w'') : Quiet w w'' where
  bufs := h.bufs.trans h'.bufs
  cq := h'.cq.trans h.cq
  nextConn := h'.nextConn.trans h.nextConn
  owned c := (h'.owned c).trans (h.owned c)
  ok c hc := h'.ok c (h.ok c hc)
  closed c := (h'.closed c).trans (h.closed c)

theorem Quiet.of_eq (hb : w.bufs.Same w'.bufs) (hq : w'.cq = w.cq)
    (hn : w'.nextConn = w.nextConn) (hc : w'.conns = w.conns) : Quiet w w' :=
  ⟨hb, hq, hn, fun _ => by rw [hc], fun _ h => hc ▸ h, fun _ => by rw [hc]⟩

theorem Kept.quiet (h : Kept b shut w hand) (hq : Quiet w w') : Kept b shut w' hand where
  one := by
    have hp : w'.places = w.places := by
      unfold Worker.places Worker.inFlight Worker.owned
      simp only [hq.bufs.offered, hq.cq, hq.nextConn, hq.owned]
    rw [hp, hq.bufs.count]
    exact h.one
  order := by
    rw [hq.bufs.head, hq.bufs.tail]
    exact h.order
  size := hq.bufs.count.trans h.size
  since := hq.bufs.offered ▸ h.since
  ok c hc hs := hq.ok c (h.ok c (hq.closed c ▸ hc) hs)
  closed c hc := (hq.owned c).trans (h.closed c (hq.closed c ▸ hc))
  fresh c hc := hq.closed c ▸ h.fresh c (hq.nextConn ▸ hc)
  dry c more buf hm := h.dry c more buf (hq.cq ▸ hm)

theorem count_flatMap_update {g g' : Nat → List Nat} {n : Nat} (hc : c < n)
    (hg : ∀ d, d ≠ c → g' d = g d) (id : Nat) :
    ((List.range n).flatMap g').count id + (g c).count id =
      ((List.range n).flatMap g).count id + (g' c).count id := by
  have hsame (m : Nat) (hm : m ≤ c) : (List.range m).flatMap g' = (List.range m).flatMap g :=
    List.flatMap_congr fun d hd => hg d (by have := List.mem_range.mp hd; omega)
  induction n with
  | zero => omega
  | succ n ih =>
    simp only [List.range_succ, List.flatMap_append, List.flatMap_cons, List.flatMap_nil,
      List.append_nil, List.count_append]
    by_cases hcn : c = n
    · subst hcn
      rw [hsame c (Nat.le_refl c)]
      omega
    · have := ih (by omega)
      rw [hg n (Ne.symm hcn)]
      omega

/-- An open connection, with what it gets out of the hand and puts there. -/
theorem Kept.setConn {f : Conn → Conn} (h : Kept b shut w hand) (hc : (w.conns c).closed = false)
    (hp : ∀ id, (f (w.conns c)).owned.count id + hand'.count id =
      (w.conns c).owned.count id + hand.count id)
    (hok : (f (w.conns c)).closed = false → ¬ shut c → (f (w.conns c)).pr.Ok)
    (hcl : (f (w.conns c)).closed = true → (f (w.conns c)).owned = []) :
    Kept b shut (w.setConn c f) hand' := by
  have hlt : c < w.nextConn := by
    by_contra hge
    simp [h.fresh c (by omega)] at hc
  have hself : (w.setConn c f).conns c = f (w.conns c) := Function.update_self ..
  have hoff (d : Nat) (hd : d ≠ c) : (w.setConn c f).conns d = w.conns d :=
    Function.update_of_ne hd _ _
  refine ⟨?_, h.order, h.size, h.since, fun d hd hs => ?_, fun d hd => ?_, fun d hd => ?_, h.dry⟩
  · refine List.Perm.trans ?_ h.one
    rw [List.perm_iff_count]
    intro id
    have hs := @count_flatMap_update c (fun c => (w.conns c).owned)
      (fun d => ((w.setConn c f).conns d).owned) _ hlt (fun d hd => by rw [hoff d hd]) id
    have := hp id
    simp only [hself] at hs
    simp only [Worker.places, Worker.inFlight, Worker.owned, List.count_append] at hs ⊢
    simp only [Worker.setConn] at hs ⊢
    omega
  · by_cases hdc : d = c
    · subst hdc
      rw [hself] at hd ⊢
      exact hok hd hs
    · rw [hoff d hdc] at hd ⊢
      exact h.ok d hd hs
  · by_cases hdc : d = c
    · subst hdc
      rw [hself] at hd ⊢
      exact hcl hd
    · rw [hoff d hdc] at hd ⊢
      exact h.closed d hd
  · have hdc : d ≠ c := fun he => by
      have hd : w.nextConn ≤ d := hd
      omega
    rw [hoff d hdc]
    exact h.fresh d hd

theorem Kept.room {id : Nat} (h : Kept b shut w (id :: hand)) :
    w.bufs.tail - w.bufs.head < w.bufs.count := by
  have := h.one.length_eq
  simp only [Worker.places, List.length_append, List.length_cons, List.length_range,
    Bufring.length_offered] at this
  omega

theorem Kept.bufringReturn {id : Nat} (h : Kept b shut w (id :: hand)) :
    Kept b shut (w.bufringReturn id) hand := by
  have hb : (w.bufringReturn id).bufs.offered = w.bufs.offered ++ [id] :=
    Bufring.giveBack_offered h.order h.room id
  refine ⟨List.Perm.trans ?_ h.one, Nat.le_succ_of_le h.order, h.size, ?_, h.ok, h.closed,
    h.fresh, h.dry⟩
  · unfold Worker.places
    rw [hb, List.perm_iff_count]
    intro i
    simp only [Worker.inFlight, Worker.owned, Worker.bufringReturn, List.count_append,
      List.count_cons, List.count_nil]
    omega
  · rw [hb]
    exact h.since.trans (List.prefix_append ..)

theorem Kept.returnAll {ids : List Nat} (h : Kept b shut w (ids ++ hand)) :
    Kept b shut (w.returnAll ids) hand := by
  induction ids generalizing w with
  | nil => exact h
  | cons id ids ih => exact ih h.bufringReturn

-- ---------------------------------------------------------------------------
-- The connection
-- ---------------------------------------------------------------------------

namespace Worker

theorem setConn_quiet (c : Nat) (f : Conn → Conn) (hx : (f (w.conns c)).rx = (w.conns c).rx)
    (hp : (f (w.conns c)).pr = (w.conns c).pr)
    (hc : (f (w.conns c)).closed = (w.conns c).closed) : Quiet w (w.setConn c f) := by
  have hd (d : Nat) : ((w.setConn c f).conns d).rx = (w.conns d).rx ∧
      ((w.setConn c f).conns d).pr = (w.conns d).pr ∧
      ((w.setConn c f).conns d).closed = (w.conns d).closed := by
    by_cases hdc : d = c
    · subst hdc
      simpa [setConn] using ⟨hx, hp, hc⟩
    · simp [setConn, hdc]
  refine ⟨.refl _, rfl, rfl, fun d => ?_, fun d h => (hd d).2.1 ▸ h, fun d => (hd d).2.2⟩
  unfold Conn.owned
  rw [(hd d).1, (hd d).2.1]

theorem setState_quiet (k : Nat) (st : CoState) : Quiet w (w.setState k st) :=
  .of_eq (.refl _) rfl rfl rfl

theorem coroResume_quiet (k : Nat) : Quiet w (w.coroResume k) :=
  .of_eq (.refl _) rfl rfl rfl

theorem coroYield_quiet (k : Nat) (a : Await) : Quiet w (w.coroYield k a) :=
  .of_eq (.refl _) rfl rfl rfl

theorem ioAwait_quiet (k : Nat) (a : Await) : Quiet w (w.ioAwait k a) :=
  .of_eq (.refl _) rfl rfl rfl

theorem cancelRecv_quiet (c : Nat) : Quiet w (w.cancelRecv c) := setConn_quiet c _ rfl rfl rfl

theorem setRecv_quiet (c : Nat) (r : RecvState) : Quiet w (w.setRecv c r) :=
  setConn_quiet c _ rfl rfl rfl

theorem connUnref_quiet (c : Nat) : Quiet w (w.connUnref c) := by
  have h : Quiet w (w.setConn c fun x => { x with refs := x.refs - 1 }) :=
    setConn_quiet c _ rfl rfl rfl
  unfold connUnref
  dsimp only
  split
  · exact h
  · refine (h.trans (setConn_quiet c (fun x => { x with recycled := x.recycled + 1 })
      rfl rfl rfl)).trans (.of_eq (.refl _) rfl rfl rfl)

theorem armRecv_quiet (c : Nat) : Quiet w (w.armRecv c) := by
  have h : Quiet w (w.setConn c ({ · with recv := .armed, cancelling := false, armed := true })) :=
    setConn_quiet c _ rfl rfl rfl
  exact ⟨h.bufs, h.cq, h.nextConn, h.owned, h.ok, h.closed⟩

theorem wakeReader_quiet (c : Nat) : Quiet w (w.wakeReader c) := by
  unfold wakeReader
  split
  · exact .refl w
  · exact (setConn_quiet c ({ · with waiter := none }) rfl rfl rfl).trans (coroResume_quiet _)

theorem starvedPush_quiet (c : Nat) : Quiet w (w.starvedPush c) :=
  .of_eq (.refl _) rfl rfl rfl

theorem starvedRemove_quiet (c : Nat) : Quiet w (w.starvedRemove c) :=
  .of_eq (.refl _) rfl rfl rfl

theorem paused_quiet (c : Nat) : Quiet w (w.paused c) :=
  (setConn_quiet c ({ · with pausing := false, recv := .paused }) rfl rfl rfl).trans
    (wakeReader_quiet c)

theorem afterwards_quiet (t : Task) : Quiet w (w.afterwards t) :=
  .of_eq (.refl _) rfl rfl rfl

theorem endInput_same (x : Conn) (err : Int) : (Conn.endInput x err).rx = x.rx ∧
    (Conn.endInput x err).pr = x.pr ∧ (Conn.endInput x err).closed = x.closed := by
  unfold Conn.endInput
  split
  · exact ⟨rfl, rfl, rfl⟩
  · exact ⟨rfl, rfl, rfl⟩

theorem ending_quiet (c : Nat) (err : Int) :
    Quiet w (w.setConn c fun x => { Conn.endInput x err with recv := .done }) :=
  have h := endInput_same (w.conns c) err
  setConn_quiet c _ h.1 h.2.1 h.2.2

theorem onNobufs_quiet (c : Nat) : Quiet w (w.onNobufs c) := by
  unfold onNobufs
  split
  · exact (setRecv_quiet c _).trans (connUnref_quiet c)
  · split
    · exact paused_quiet c
    · split
      · exact ((setRecv_quiet c _).trans (wakeReader_quiet c)).trans (afterwards_quiet _)
      · exact (setRecv_quiet c _).trans (starvedPush_quiet c)

theorem onEnded_kept {buf : Option Nat} (h : Kept b shut w (buf.toList ++ hand)) (c : Nat)
    (result : Int) : Kept b shut (w.onEnded c result buf) hand := by
  unfold onEnded
  dsimp only
  split
  · exact h.returnAll.quiet (paused_quiet c)
  · exact h.returnAll.quiet
      (((ending_quiet c _).trans (wakeReader_quiet c)).trans (afterwards_quiet _))

theorem stopInput_quiet (c : Nat) (err : Int) (more : Bool) : Quiet w (w.stopInput c err more) := by
  have hs := endInput_same (w.conns c) err
  have h : Quiet w (w.setConn c fun x => Conn.endInput x err) :=
    setConn_quiet c _ hs.1 hs.2.1 hs.2.2
  unfold stopInput
  dsimp only
  split
  · exact (h.trans (cancelRecv_quiet c)).trans (wakeReader_quiet c)
  · exact h.trans (wakeReader_quiet c)

theorem onData_kept {buf : Option Nat} (h : Kept b shut w (buf.toList ++ hand)) (c : Nat)
    (result : Int) (more : Bool) : Kept b shut (w.onData c result more buf) hand := by
  unfold onData
  split
  · exact h.quiet (stopInput_quiet c _ more)
  · rename_i id
    split
    · exact h.bufringReturn
    · rename_i hcl
      split
      · exact h.bufringReturn.quiet (stopInput_quiet c _ more)
      · have hc : (w.conns c).closed = false := by simpa using hcl
        refine Kept.quiet ?_ (wakeReader_quiet c)
        refine h.setConn hc (fun i => ?_) (fun _ => h.ok c hc) fun hx => ?_
        · simp only [Conn.owned, List.map_append, List.map_cons, List.map_nil, List.count_append,
            Option.toList_some]
          omega
        · exact absurd (hc.symm.trans hx) nofun

theorem onRecv_kept {buf : Option Nat} {result : Int} (h : Kept b shut w (buf.toList ++ hand))
    (hdry : result = -ENOBUFS → buf = none) (c : Nat) (more : Bool) :
    Kept b shut (w.onRecv c result more buf) hand := by
  have h : Kept b shut (if more = true then w else w.setConn c ({ · with cancelling := false }))
      (buf.toList ++ hand) := by
    split
    · exact h
    · exact h.quiet (setConn_quiet c _ rfl rfl rfl)
  unfold onRecv
  dsimp only
  generalize (if more = true then w else w.setConn c ({ · with cancelling := false })) = v at h
  split
  · rename_i hr
    rw [hdry hr] at h
    exact h.quiet (onNobufs_quiet c)
  · split
    · exact onEnded_kept h c result
    · exact (onData_kept h c result more).quiet (afterwards_quiet _)

theorem onRecvTail_quiet (c : Nat) (more : Bool) : Quiet w (w.onRecvTail c more) := by
  unfold onRecvTail
  dsimp only
  split
  · split
    · exact paused_quiet c
    · split
      · exact armRecv_quiet c
      · exact (setRecv_quiet c _).trans (connUnref_quiet c)
  · split
    · exact cancelRecv_quiet c
    · exact .refl w

theorem recvDrain_quiet (c : Nat) : Quiet w (w.recvDrain c) := by
  unfold recvDrain
  split
  · exact .refl w
  · exact ((ending_quiet c _).trans (wakeReader_quiet c)).trans (afterwards_quiet _)

-- ---------------------------------------------------------------------------
-- The reader
-- ---------------------------------------------------------------------------

/-- A reader's operation: what it gains is out of the hand, what it returns is
in the ring. -/
theorem withReader_kept (gained : List Nat) {f : Reader → Reader}
    (h : Kept b shut w (gained ++ hand)) (hc : (w.conns c).closed = false)
    (he : ∃ v, Reader.Effect ⟨(w.conns c).pr, w.slab, []⟩ (f ⟨(w.conns c).pr, w.slab, []⟩) v
      gained) : Kept b shut (w.withReader c f) hand := by
  obtain ⟨v, he⟩ := he
  unfold withReader
  generalize f ⟨(w.conns c).pr, w.slab, []⟩ = r at he ⊢
  have hk : Kept b shut (w.setConn c ({ · with pr := r.pr })) (r.back ++ hand) := by
    refine h.setConn hc (fun i => ?_) (fun _ _ => he.ok) fun hx => absurd (hc.symm.trans hx) nofun
    have := he.held i
    simp only [Conn.owned, List.count_append, List.count_nil] at this ⊢
    omega
  exact hk.returnAll.quiet (.of_eq (.refl _) rfl rfl rfl)

theorem moreEnded_quiet (c : Nat) (gone : Bool) :
    Quiet w (w.withReader c fun r => r.moreEnded gone) := by
  have hconns : (w.withReader c fun r => r.moreEnded gone).conns = Function.update w.conns c
      { w.conns c with pr := (Reader.moreEnded ⟨(w.conns c).pr, w.slab, []⟩ gone).pr } := rfl
  have hd (d : Nat) : ((w.withReader c fun r => r.moreEnded gone).conns d).owned =
      (w.conns d).owned ∧ ((w.conns d).pr.Ok →
        ((w.withReader c fun r => r.moreEnded gone).conns d).pr.Ok) ∧
      ((w.withReader c fun r => r.moreEnded gone).conns d).closed = (w.conns d).closed := by
    by_cases hdc : d = c
    · subst hdc
      rw [hconns, Function.update_self]
      refine ⟨rfl, fun h => ?_, rfl⟩
      exact (Reader.moreEnded_effect (s := ⟨(w.conns d).pr, w.slab, []⟩) h gone).ok
    · rw [hconns, Function.update_of_ne hdc]
      exact ⟨rfl, fun h => h, rfl⟩
  exact ⟨.refl _, rfl, rfl, fun d => (hd d).1, fun d => (hd d).2.1, fun d => (hd d).2.2⟩

theorem notOwned {id : Nat} (h : Kept b shut w (id :: hand)) (hlt : c < w.nextConn) :
    id ∉ (w.conns c).owned := by
  intro hm
  have hn : (w.places ++ id :: hand).Nodup := h.one.nodup_iff.mpr List.nodup_range
  have hp : id ∈ w.places := by
    unfold places owned
    exact List.mem_append_right _ (List.mem_flatMap.mpr ⟨c, List.mem_range.mpr hlt, hm⟩)
  exact (List.nodup_append.mp hn).2.2 id hp id List.mem_cons_self rfl

theorem recvItem_kept (h : Kept b (fun _ => False) w hand) (k c : Nat) :
    Kept b (fun _ => False) (w.recvItem k c) hand := by
  unfold recvItem
  split
  · rename_i item rest hrx
    have hc : (w.conns c).closed = false := by
      by_contra hx
      have := h.closed c (by simpa using hx)
      simp [Conn.owned, hrx] at this
    have hlt : c < w.nextConn := by
      by_contra hge
      simp [h.fresh c (by omega)] at hc
    have hk : Kept b (fun _ => False) (w.setConn c ({ · with rx := rest }))
        ([item.bufId] ++ hand) := by
      refine h.setConn hc (fun i => ?_) (fun _ => h.ok c hc) fun hx => ?_
      · simp only [Conn.owned, hrx, List.map_cons, List.count_append, List.count_cons,
          List.count_nil]
        omega
      · exact absurd (hc.symm.trans hx) nofun
    have hconn : (w.setConn c ({ · with rx := rest })).conns c = { w.conns c with rx := rest } :=
      Function.update_self ..
    have hno : item.bufId ∉ Reader.held (w.conns c).pr := fun hm => by
      refine notOwned hk (c := c) hlt ?_
      rw [hconn]
      exact List.mem_append_right _ hm
    refine (withReader_kept _ hk (by rw [hconn]; exact hc) ?_).quiet (setState_quiet k _)
    rw [hconn]
    exact ⟨_, Reader.moreItem_effect (s := ⟨_, w.slab, []⟩) (h.ok c hc id) item hno⟩
  · split
    · exact h.quiet ((moreEnded_quiet c _).trans (setState_quiet k _))
    · exact h.quiet ((setConn_quiet c ({ · with waiter := some k }) rfl rfl rfl).trans
        (coroYield_quiet k _))

theorem ReaderOp.run_effect {s : Reader} (h : s.pr.Ok) (op : ReaderOp) :
    ∃ v, Reader.Effect s (op.run s) v [] := by
  cases op with
  | examine n => exact ⟨_, Reader.examine_effect h n⟩
  | drop n => exact ⟨_, Reader.drop_effect h n⟩
  | keep n =>
    have ho := Reader.keep_outcome h n
    simp only [ReaderOp.run]
    generalize s.keep n = r at ho
    cases ho with
    | past => exact ⟨_, .refl h⟩
    | nothing => exact ⟨_, .refl h⟩
    | kept _ _ _ he => exact ⟨_, he⟩
    | full _ _ he => exact ⟨_, he⟩
  | runBegin =>
    obtain ⟨e, -, he⟩ := Reader.runBegin_effect h
    exact ⟨_, he⟩
  | release => exact ⟨_, Reader.release_effect h⟩
  | inject data => exact ⟨_, Reader.inject_effect h data⟩

-- ---------------------------------------------------------------------------
-- The close
-- ---------------------------------------------------------------------------

theorem closeRecv_same (c d : Nat) : ((w.closeRecv c).conns d).rx = (w.conns d).rx ∧
    ((w.closeRecv c).conns d).pr = (w.conns d).pr ∧
    ((w.closeRecv c).conns d).closed = (w.conns d).closed := by
  unfold closeRecv
  by_cases hd : d = c
  · subst hd
    split <;> simp [cancelRecv, setConn, starvedRemove]
  · split <;> simp [cancelRecv, setConn, starvedRemove, hd]

theorem closeRecv_rest (c : Nat) : (w.closeRecv c).bufs = w.bufs ∧
    (w.closeRecv c).cq = w.cq ∧ (w.closeRecv c).nextConn = w.nextConn := by
  unfold closeRecv
  split <;> exact ⟨rfl, rfl, rfl⟩

/-- A connection whose reader holds nothing closes: its queue goes back. -/
theorem connClose_kept (h : Kept b (· = c) w hand) (hc : (w.conns c).closed = false)
    (hh : Reader.held (w.conns c).pr = []) : Kept b (fun _ => False) (w.connClose c) hand := by
  have hk : Kept b (· = c) (w.setConn c ({ · with closed := true, rx := [] }))
      ((w.conns c).rx.map (·.bufId) ++ hand) := by
    refine h.setConn hc (fun i => ?_) (fun hx => absurd hx nofun) fun _ => ?_
    · simp only [Conn.owned, List.map_nil, hh, List.append_nil, List.count_nil, List.count_append]
      omega
    · simp [Conn.owned, hh]
  obtain ⟨v, hv⟩ : ∃ v, v = (w.setConn c ({ · with closed := true })).closeRecv c := ⟨_, rfl⟩
  have hrx : (v.conns c).rx = (w.conns c).rx := by
    rw [hv, (closeRecv_same c c).1]
    simp [setConn]
  have hq : Quiet (w.setConn c ({ · with closed := true, rx := [] }))
      (v.setConn c ({ · with rx := [] })) := by
    obtain ⟨h1, h2, h3⟩ := @closeRecv_rest (w.setConn c ({ · with closed := true })) c
    have hd (d : Nat) : ((v.setConn c ({ · with rx := [] })).conns d).rx =
        ((w.setConn c ({ · with closed := true, rx := [] })).conns d).rx ∧
        ((v.setConn c ({ · with rx := [] })).conns d).pr =
          ((w.setConn c ({ · with closed := true, rx := [] })).conns d).pr ∧
        ((v.setConn c ({ · with rx := [] })).conns d).closed =
          ((w.setConn c ({ · with closed := true, rx := [] })).conns d).closed := by
      have hs := @closeRecv_same (w.setConn c ({ · with closed := true })) c d
      rw [← hv] at hs
      by_cases hdc : d = c
      · subst hdc
        simpa [setConn] using hs.2
      · simpa [setConn, hdc] using hs
    rw [← hv] at h1 h2 h3
    refine ⟨?_, h2, h3, fun d => ?_, fun d hok => ?_, fun d => (hd d).2.2⟩
    · show w.bufs.Same v.bufs
      rw [h1]
      exact .refl _
    · unfold Conn.owned
      rw [(hd d).1, (hd d).2.1]
    · rw [(hd d).2.1]
      exact hok
  have hcl : ((v.setConn c ({ · with rx := [] })).conns c).closed = true := by
    rw [hq.closed c]
    simp [setConn]
  have hopen : Kept b (fun _ => False) (v.setConn c ({ · with rx := [] }))
      ((w.conns c).rx.map (·.bufId) ++ hand) :=
    { hk.quiet hq with
      ok := fun d hd _ => (hk.quiet hq).ok d hd fun hdc => by
        rw [hdc, hcl] at hd
        cases hd }
  unfold connClose returnRx
  rw [← hv, hrx]
  exact hopen.returnAll.quiet (connUnref_quiet c)

theorem pipeClose_kept (h : Kept b (fun _ => False) w hand) (hc : (w.conns c).closed = false) :
    Kept b (fun _ => False) (w.pipeClose c) hand := by
  unfold pipeClose withReader
  obtain ⟨hnone, hback⟩ := Reader.close_held ⟨(w.conns c).pr, w.slab, []⟩
  generalize Reader.close ⟨(w.conns c).pr, w.slab, []⟩ = r at hnone hback ⊢
  have hk : Kept b (· = c) (w.setConn c ({ · with pr := r.pr })) (r.back ++ hand) := by
    have hw : Kept b (· = c) w hand := { h with ok := fun d hd _ => h.ok d hd id }
    refine hw.setConn hc (fun i => ?_) (fun _ hx => absurd rfl hx) fun hx => ?_
    · have := hback i
      simp only [Conn.owned, hnone, List.append_nil, List.count_append, List.count_nil] at this ⊢
      omega
    · exact absurd (hc.symm.trans hx) nofun
  have hconns (w : Worker) (ids : List Nat) : (w.returnAll ids).conns = w.conns := by
    induction ids generalizing w with
    | nil => rfl
    | cons i ids ih => exact ih (w.bufringReturn i)
  refine connClose_kept (hk.returnAll.quiet (.of_eq (.refl _) rfl rfl rfl)) ?_ ?_
  · show (((w.setConn c ({ · with pr := r.pr })).returnAll r.back).conns c).closed = false
    rw [hconns]
    simpa [setConn] using hc
  · show Reader.held (((w.setConn c ({ · with pr := r.pr })).returnAll r.back).conns c).pr = []
    rw [hconns]
    simpa [setConn] using hnone

-- ---------------------------------------------------------------------------
-- The coroutines
-- ---------------------------------------------------------------------------

theorem pauseEnd_quiet (k c : Nat) : Quiet w (w.pauseEnd k c) := by
  unfold pauseEnd
  split
  · exact ((starvedRemove_quiet c).trans (setRecv_quiet c _)).trans (setState_quiet k _)
  · exact setState_quiet k _

theorem pauseTurn_quiet (k c : Nat) : Quiet w (w.pauseTurn k c) := by
  unfold pauseTurn
  split
  · exact (setConn_quiet c ({ · with waiter := some k }) rfl rfl rfl).trans (coroYield_quiet k _)
  · exact (setConn_quiet c ({ · with pausing := false }) rfl rfl rfl).trans (pauseEnd_quiet k c)

theorem recvPause_quiet (k c : Nat) : Quiet w (w.recvPause k c) := by
  unfold recvPause
  split
  · exact ((setConn_quiet c ({ · with pausing := true }) rfl rfl rfl).trans
      (cancelRecv_quiet c)).trans (pauseTurn_quiet k c)
  · exact pauseEnd_quiet k c

theorem recvResume_quiet (c : Nat) : Quiet w (w.recvResume c) := by
  unfold recvResume
  dsimp only
  split
  · exact .refl w
  · split
    · exact (ending_quiet c _).trans (connUnref_quiet c)
    · exact armRecv_quiet c

theorem connNew_kept {pr : Pipereader} (h : Kept b shut w hand) (hp : unused pr = true)
    (tls : Bool) (owner : Nat) : Kept b shut (w.connNew tls owner pr) hand := by
  obtain ⟨hok, hh⟩ := unused_ok hp
  have hself : ((w.connNew tls owner pr).conns w.nextConn).owned = [] := by
    simp [connNew, Conn.owned, hh]
  have hoff (d : Nat) (hd : d ≠ w.nextConn) : (w.connNew tls owner pr).conns d = w.conns d :=
    Function.update_of_ne hd _ _
  have howned : (w.connNew tls owner pr).owned = w.owned := by
    show (List.range (w.nextConn + 1)).flatMap _ = _
    rw [List.range_succ, List.flatMap_append, List.flatMap_singleton, hself, List.append_nil]
    refine List.flatMap_congr fun d hd => ?_
    rw [hoff d (by have := List.mem_range.mp hd; omega)]
  refine ⟨?_, h.order, h.size, h.since, fun d hd hs => ?_, fun d hd => ?_, fun d hd => ?_, h.dry⟩
  · unfold places
    rw [howned]
    exact h.one
  · by_cases hdn : d = w.nextConn
    · subst hdn
      simpa [connNew] using hok
    · rw [hoff d hdn] at hd ⊢
      exact h.ok d hd hs
  · by_cases hdn : d = w.nextConn
    · subst hdn
      exact hself
    · rw [hoff d hdn] at hd ⊢
      exact h.closed d hd
  · have hd : w.nextConn + 1 ≤ d := hd
    rw [hoff d (by omega)]
    exact h.fresh d (by omega)

/-- What a coroutine starts a connection with is an unused reader. -/
def CoAct.fits : CoAct → Bool
  | .connected pr => unused pr
  | _ => true

theorem coGoes_kept (h : Kept b (fun _ => False) w hand) (k : Nat) (a : Await) :
    Kept b (fun _ => False) (w.coGoes k a) hand := by
  cases a with
  | item c => exact recvItem_kept h k c
  | pause c => exact h.quiet (pauseTurn_quiet k c)
  | op => exact h.quiet (setState_quiet k _)
  | setopt c => exact h.quiet ((armRecv_quiet c).trans (setState_quiet k _))

theorem coActs_kept {a : CoAct} (h : Kept b (fun _ => False) w hand) (hf : a.fits = true)
    (hs : w.coActs k a = some w') : Kept b (fun _ => False) w' hand := by
  cases a with
  | more c =>
    simp only [coActs, Option.ite_none_right_eq_some, Option.some.injEq] at hs
    obtain ⟨-, rfl⟩ := hs
    split
    · exact h
    · exact recvItem_kept h k c
  | reader c op =>
    simp only [coActs, Option.ite_none_right_eq_some, Option.some.injEq] at hs
    obtain ⟨⟨-, hc, -⟩, rfl⟩ := hs
    exact withReader_kept [] h hc (ReaderOp.run_effect (h.ok c hc id) op)
  | pause c =>
    simp only [coActs, Option.ite_none_right_eq_some, Option.some.injEq] at hs
    exact hs.2 ▸ h.quiet (recvPause_quiet k c)
  | resume c =>
    simp only [coActs, Option.ite_none_right_eq_some, Option.some.injEq] at hs
    exact hs.2 ▸ h.quiet (recvResume_quiet c)
  | await => exact Option.some.inj hs ▸ h.quiet (ioAwait_quiet k .op)
  | connected pr =>
    exact Option.some.inj hs ▸ (connNew_kept h hf false k).quiet (ioAwait_quiet k _)
  | close c =>
    simp only [coActs, Option.ite_none_right_eq_some, Option.some.injEq] at hs
    obtain ⟨⟨⟨-, hc, -⟩, -⟩, rfl⟩ := hs
    exact pipeClose_kept h hc
  | finish =>
    simp only [coActs, Option.ite_none_right_eq_some, Option.some.injEq] at hs
    obtain ⟨⟨-, hc, -⟩, rfl⟩ := hs
    exact ((pipeClose_kept h hc).quiet (setState_quiet k .finished)).quiet
      (.of_eq (.refl _) rfl rfl rfl)

-- ---------------------------------------------------------------------------
-- The loop
-- ---------------------------------------------------------------------------

theorem foldl_quiet {β : Type} (f : Worker → β → Worker) (hf : ∀ w x, Quiet w (f w x))
    (xs : List β) (w : Worker) : Quiet w (xs.foldl f w) := by
  induction xs generalizing w with
  | nil => exact .refl w
  | cons x xs ih => exact (hf w x).trans (ih _)

theorem armAccept_quiet (l : Nat) : Quiet w (w.armAccept l) := by
  unfold armAccept stallAccept
  split <;> exact .of_eq (.refl _) rfl rfl rfl

theorem rearmStalled_quiet (due : List Nat) : Quiet w (w.rearmStalled due) := by
  refine foldl_quiet _ (fun w' l => ?_) _ w
  split
  · split
    · exact armAccept_quiet l
    · exact .refl w'
  · exact .refl w'

theorem onAccept_kept {pr : Pipereader} (h : Kept b shut w hand) (hp : unused pr = true) (l : Nat)
    (result : Int) (more : Bool) : Kept b shut (w.onAccept l result more pr) hand := by
  have hnew (tls : Bool) : Kept b shut (if result ≥ 0 ∧ w.draining = true then w
      else if result ≥ 0 then
        ((w.connNew tls w.nextCoro pr).armRecv w.nextConn).spawn w.nextConn
      else w) hand := by
    split
    · exact h
    · split
      · exact ((connNew_kept h hp tls _).quiet (armRecv_quiet _)).quiet
          (.of_eq (.refl _) rfl rfl rfl)
      · exact h
  unfold onAccept
  dsimp only
  split
  · exact hnew _
  · split
    · exact (hnew _).quiet (.of_eq (.refl _) rfl rfl rfl)
    · exact (hnew _).quiet (armAccept_quiet l)

theorem rearmStarved_quiet : Quiet w w.rearmStarved := by
  have h : Quiet w { w with bufs := { w.bufs with returned := 0 } } :=
    .of_eq ⟨rfl, rfl, rfl, rfl⟩ rfl rfl rfl
  unfold rearmStarved
  dsimp only
  split
  · exact h
  · exact (h.trans (foldl_quiet _ (fun w c => armRecv_quiet c) _ _)).trans
      (.of_eq (.refl _) rfl rfl rfl)

theorem doTask_quiet (t : Task) : Quiet w (w.doTask t) := by
  cases t with
  | unref c => exact connUnref_quiet c
  | tail c more => exact onRecvTail_quiet c more
  | drain =>
    simp only [doTask]
    split
    · exact .refl w
    · have hq : Quiet w { w with starved := w.starved.dropLast, tasks := .drain :: w.tasks } :=
        .of_eq (.refl _) rfl rfl rfl
      exact hq.trans (recvDrain_quiet _)

/-- A completion that is dispatched is out of the queue: its buffer is in hand. -/
theorem taken_kept {x : Cqe} {rest : List Cqe} (h : Kept b shut w hand) (hq : w.cq = x :: rest)
    (n : Nat) : Kept b shut { w with cq := rest, phase := .batch n } (x.bufs ++ hand) := by
  refine ⟨?_, h.order, h.size, h.since, h.ok, h.closed, h.fresh, fun c more buf hm => ?_⟩
  · refine List.Perm.trans ?_ h.one
    rw [List.perm_iff_count]
    intro i
    simp only [places, inFlight, owned, hq, List.flatMap_cons, List.count_append]
    omega
  · exact h.dry c more buf (hq ▸ List.mem_cons_of_mem _ hm)

theorem posted_kept {x : Cqe} (h : Kept b shut w hand) (hx : x.bufs = [])
    (hdry : ∀ c more buf, x = .recv c (-ENOBUFS) more buf → buf = none) :
    Kept b shut { w with cq := w.cq ++ [x] } hand := by
  refine ⟨?_, h.order, h.size, h.since, h.ok, h.closed, h.fresh, fun c more buf hm => ?_⟩
  · unfold places inFlight
    rw [List.flatMap_append, List.flatMap_singleton, hx, List.append_nil]
    exact h.one
  · rcases List.mem_append.mp hm with hm | hm
    · exact h.dry c more buf hm
    · exact hdry c more buf (List.mem_singleton.mp hm).symm

theorem dispatch_kept {x : Cqe} {pr : Pipereader} (h : Kept b shut w (x.bufs ++ hand))
    (hp : unused pr = true) (hdry : ∀ c more buf, x = .recv c (-ENOBUFS) more buf → buf = none) :
    Kept b shut (w.dispatch pr x) hand := by
  cases x with
  | recv c result more buf => exact onRecv_kept h (fun hr => hdry c more buf (hr ▸ rfl)) c more
  | op k => exact h.quiet (coroResume_quiet k)
  | accept l result more => exact onAccept_kept h hp l result more
  | drain result =>
    simp only [dispatch]
    split
    · exact h.quiet (.of_eq (.refl _) rfl rfl rfl)
    · exact h

theorem loopStep_kept {pr : Pipereader} (h : Kept b shut w hand) (hp : unused pr = true)
    (due : List Nat) : Kept b shut (w.loopStep due pr) hand := by
  unfold loopStep
  split
  · split
    · exact h.quiet (.of_eq (.refl _) rfl rfl rfl)
    · exact h.quiet (.of_eq (.refl _) rfl rfl rfl)
  · exact h.quiet (.of_eq (.refl _) rfl rfl rfl)
  · split
    · rename_i rest _
      refine Kept.quiet (w := { w with ready := rest }) ?_ (coroResume_quiet _)
      exact h.quiet (.of_eq (.refl _) rfl rfl rfl)
    · exact h.quiet (.of_eq (.refl _) rfl rfl rfl)
  · exact (h.quiet rearmStarved_quiet).quiet (.of_eq (.refl _) rfl rfl rfl)
  · exact h.quiet (.of_eq w.bufs.publish_same rfl rfl rfl)
  · exact h.quiet (.of_eq (.refl _) rfl rfl rfl)
  · exact h.quiet (.of_eq (.refl _) rfl rfl rfl)
  · split
    · rename_i n _ _ x rest hq
      exact dispatch_kept (taken_kept h hq n) hp fun c more buf hx =>
        h.dry c more buf (hq ▸ hx ▸ List.mem_cons_self)
    · exact h.quiet (.of_eq (.refl _) rfl rfl rfl)
  · exact (h.quiet (rearmStalled_quiet due)).quiet (.of_eq (.refl _) rfl rfl rfl)
  · exact h

-- ---------------------------------------------------------------------------
-- The run
-- ---------------------------------------------------------------------------

/-- What a connection starts with is an unused reader. -/
def Act.fits : Act → Bool
  | .loop _ pr => unused pr
  | .co a => a.fits
  | _ => true

/-- A move of the worker, or of the kernel where it takes no buffer. -/
theorem step_kept {a : Act} (h : Kept b (fun _ => False) w []) (hf : a.fits = true)
    (ha : ∀ c result more fill, a ≠ .recv c result more fill) (hs : w.step a = some w') :
    Kept b (fun _ => False) w' [] := by
  cases a with
  | stop => exact Option.some.inj hs ▸ h.quiet (.of_eq (.refl _) rfl rfl rfl)
  | enter => exact Option.some.inj hs ▸ h.quiet (.of_eq w.bufs.publish_same rfl rfl rfl)
  | recv c result more fill => exact absurd rfl (ha c result more fill)
  | op k =>
    simp only [step, Option.ite_none_right_eq_some, Option.some.injEq] at hs
    obtain ⟨-, rfl⟩ := hs
    exact posted_kept (w := { w with ops := w.ops.erase k }) (x := .op k)
      (h.quiet (.of_eq (.refl _) rfl rfl rfl)) rfl (by simp)
  | accept l result more =>
    rw [postAccept_cases hs]
    exact posted_kept (w := w.setListener l ({ · with armed := more }))
      (x := .accept l result more) (h.quiet (.of_eq (.refl _) rfl rfl rfl)) rfl (by simp)
  | cancelled result =>
    simp only [step, Option.ite_none_right_eq_some, Option.some.injEq] at hs
    obtain ⟨-, rfl⟩ := hs
    exact posted_kept (x := .drain result) h rfl (by simp)
  | giveUp =>
    simp only [step, Option.ite_none_right_eq_some, Option.some.injEq] at hs
    obtain ⟨-, rfl⟩ := hs
    exact h.quiet (.of_eq (.refl _) rfl rfl rfl)
  | loop due pr =>
    simp only [step] at hs
    split at hs
    · cases hs
    · rename_i ts _ _
      cases hs
      have hq : Quiet w { w with tasks := ts } := .of_eq (.refl _) rfl rfl rfl
      exact (h.quiet hq).quiet (doTask_quiet _)
    · exact Option.some.inj hs ▸ loopStep_kept h hf due
  | go =>
    simp only [step] at hs
    split at hs
    · cases hs
    · split at hs
      · exact Option.some.inj hs ▸ coGoes_kept h _ _
      · cases hs
  | co a =>
    simp only [step] at hs
    split at hs
    · cases hs
    · split at hs
      · exact coActs_kept h hf hs
      · cases hs

/-- A completion of a recv: with the oldest buffer that was offered, or none. -/
theorem postRecv_kept {result : Int} {more : Bool} {fill : Option (Mem Byte)}
    (h : Kept b (fun _ => False) w []) (hs : w.postRecv c result more fill = some w') :
    Kept w'.bufs (fun _ => False) w' [] ∧ w'.bufs.count = w.bufs.count ∧
      (w'.bufs.offered = w.bufs.offered ∨
        ∃ id, w.bufs.offered = id :: w'.bufs.offered) := by
  obtain ⟨-, hpub, -, hcase⟩ := postRecv_cases hs
  have hw : Kept w.bufs (fun _ => False) (w.setConn c ({ · with armed := more })) [] :=
    { h.quiet (setConn_quiet c ({ · with armed := more }) rfl rfl rfl) with
      size := rfl, since := List.prefix_rfl }
  have hnone : Kept w.bufs (fun _ => False) { w.setConn c ({ · with armed := more }) with
      cq := w.cq ++ [.recv c result more none] } [] :=
    posted_kept hw rfl fun _ _ _ hx => by
      cases hx
      rfl
  obtain ⟨m, -, hne, hr, rfl⟩ | ⟨-, -, -, rfl⟩ | ⟨-, -, rfl⟩ := hcase
  · have hlt : w.bufs.head < w.bufs.tail := by
      have := h.order
      omega
    have ht := Bufring.take_offered hlt
    refine ⟨⟨?_, hlt, rfl, List.prefix_rfl, hw.ok, hw.closed, hw.fresh, fun d more' buf hm => ?_⟩,
      rfl, .inr ⟨_, ht⟩⟩
    · refine List.Perm.trans ?_ hw.one
      rw [List.perm_iff_count]
      intro i
      have hb : (w.setConn c ({ · with armed := more })).bufs.offered =
        w.bufs.take.1 :: w.bufs.take.2.offered := ht
      simp only [places, hb, inFlight, owned, List.flatMap_append, List.flatMap_singleton,
        Cqe.bufs, Option.toList_some, List.count_append, List.count_cons, List.count_nil]
      simp only [setConn]
      omega
    · rcases List.mem_append.mp hm with hm | hm
      · exact h.dry d more' buf hm
      · simp only [List.mem_singleton, Cqe.recv.injEq] at hm
        exact absurd hm.2.1.symm hr
  · refine ⟨?_, rfl, .inl rfl⟩
    exact hnone.quiet (.of_eq (.refl _) rfl rfl rfl)
  · refine ⟨?_, rfl, .inl rfl⟩
    exact hnone.quiet (.of_eq (.refl _) rfl rfl rfl)

theorem start_kept (bufCount fileSlots : Nat) (certs : List Bool) (buf : Mem Byte) (cap : Nat)
    (slab : Nat → Mem Byte) : Kept (.init bufCount) (fun _ => False)
      (start bufCount fileSlots certs (.init buf cap) slab) [] := by
  refine Kept.quiet ?_ (foldl_quiet _ (fun w l => armAccept_quiet l) _ _)
  refine ⟨?_, Nat.zero_le _, rfl, List.prefix_rfl, nofun, fun c _ => rfl, fun c _ => rfl, nofun⟩
  simp [places, inFlight, owned, Bufring.init_offered]
  rfl

/-- Every buffer is in one place. What a step adds to the ring stands behind
what is offered there, so that no slot is written which the kernel has not
taken the buffer of. -/
structure Conserved (bufCount : Nat) (w : Worker) : Prop where
  one : w.places.Perm (List.range bufCount)
  held : ∀ c, (Reader.held (w.conns c).pr).length ≤ 2
  room : w.bufs.tail ≤ w.bufs.head + w.bufs.count
  closed : ∀ c, (w.conns c).closed = true → (w.conns c).rx = [] ∧ Reader.held (w.conns c).pr = []
  step : ∀ a w', a.fits = true → w.step a = some w' →
    w.bufs.offered <+: w'.bufs.offered ∨ ∃ id, w.bufs.offered = id :: w'.bufs.offered

theorem step_conserves {a : Act} (h : Kept w.bufs (fun _ => False) w []) (hf : a.fits = true)
    (hs : w.step a = some w') : Kept w'.bufs (fun _ => False) w' [] ∧
      w'.bufs.count = w.bufs.count ∧
      (w.bufs.offered <+: w'.bufs.offered ∨ ∃ id, w.bufs.offered = id :: w'.bufs.offered) := by
  by_cases ha : ∃ c result more fill, a = .recv c result more fill
  · obtain ⟨c, result, more, fill, rfl⟩ := ha
    obtain ⟨hk, hn, ho⟩ := postRecv_kept h hs
    exact ⟨hk, hn, ho.imp_left fun he => ⟨[], by rw [List.append_nil, he]⟩⟩
  · have hk := step_kept h hf (fun c result more fill he => ha ⟨c, result, more, fill, he⟩) hs
    exact ⟨{ hk with size := rfl, since := List.prefix_rfl }, hk.size, .inl hk.since⟩

theorem buffers_conserved {bufCount fileSlots : Nat} {certs : List Bool} {buf : Mem Byte}
    {cap : Nat} {slab : Nat → Mem Byte}
    (h : Reach step (fun _ a => a.fits) (start bufCount fileSlots certs (.init buf cap) slab) w) :
    Conserved bufCount w := by
  obtain ⟨hk, hn⟩ : Kept w.bufs (fun _ => False) w [] ∧ w.bufs.count = bufCount := by
    refine h.invariant (P := fun w => Kept w.bufs (fun _ => False) w [] ∧ w.bufs.count = bufCount)
      ?_ fun w₁ a w₂ hw hf hs => ?_
    · have hk := start_kept bufCount fileSlots certs buf cap slab
      exact ⟨{ hk with size := rfl, since := List.prefix_rfl }, hk.size⟩
    · obtain ⟨hk, hc, -⟩ := step_conserves hw.1 hf hs
      exact ⟨hk, hc.trans hw.2⟩
  have hone : w.places.Perm (List.range bufCount) := by
    have := hk.one
    rwa [List.append_nil, hn] at this
  refine ⟨hone, fun c => ?_, ?_, fun c hc => ?_, fun a w' hf hs => (step_conserves hk hf hs).2.2⟩
  · unfold Reader.held
    split <;> split <;> simp
  · have := hone.length_eq
    have := hk.order
    simp only [places, List.length_append, List.length_range, Bufring.length_offered] at *
    omega
  · have := hk.closed c hc
    simpa [Conn.owned] using this

def threeBuffers : Worker := start 3 0 [false] (.init (fun _ => 0) 64) fun _ _ => 0

/-- Three buffers of bytes for one connection: a part of the first is kept, so
that its reader holds it, the second is copied and returned, the third waits to
be dispatched. -/
def spread : List Act :=
  [.accept 0 3 true] ++ turns 12 ++ [.co (.more 0)] ++ turns 3 ++
    [.recv 0 2 true (some fun _ => 65), .recv 0 2 true (some fun _ => 66),
      .recv 0 2 true (some fun _ => 67)] ++ turns 2 ++
    [.go, .co (.reader 0 (.keep 1)), .co (.more 0)] ++ turns 2 ++ [.go]

theorem buffers_conserved_spread : ∃ w, Reach step (fun _ a => a.fits) threeBuffers w ∧
    (w.bufs.offered, w.inFlight, w.owned) = ([1], [2], [0]) ∧ Conserved 3 w := by
  have h : (perform step (fun _ a => a.fits) threeBuffers spread).map
      (fun w => (w.bufs.offered, w.inFlight, w.owned)) = some ([1], [2], [0]) := by decide
  obtain ⟨w, hw, hb⟩ := Option.map_eq_some_iff.mp h
  have hr := Reach.start.perform hw
  exact ⟨w, hr, hb, buffers_conserved hr⟩

end Worker

end Ioxd.Io
