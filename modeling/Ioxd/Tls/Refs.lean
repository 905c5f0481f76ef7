import Ioxd.Lib.Runs
import Mathlib.Data.List.Count
import Mathlib.Logic.Function.Basic

/-!
# The certificate tables and who holds them

`ioxd__certs_acquire`, `ioxd__certs_release`, `ioxd_certs_reload` and
`ioxd_certs_free` of `lib/tls/certs.c`, and the handshakes that use them. A
section under the store's lock is one step, and so is what a thread does between
two of them: it reads a table, or frees one. A step on a table that is freed has
no result. A table is never given out again, so that what is freed stays so.
-/

namespace Ioxd.Tls.Certs

open Function (update update_self update_of_ne)

abbrev Ptr := Nat

/-- A handshake between its acquire and the end of its release, with the table
it holds, or that it has to free. -/
inductive Hand
  | holding (t : Ptr)
  | freeing (t : Ptr)
  deriving DecidableEq

/-- The reload that has the mutex, with the table it found: `load` runs; the
tables are swapped, with two releases to come; the first has to free; one
release is to come; it has to free. -/
inductive Reload
  | idle
  | loading (old : Ptr)
  | swapped (old : Ptr)
  | freeingFirst (old : Ptr)
  | closing (old : Ptr)
  | freeing (old : Ptr)
  deriving DecidableEq

def Reload.loads : Reload → Bool
  | .loading _ => true
  | _ => false

def Reload.releases : Reload → Bool
  | .swapped _ | .closing _ => true
  | _ => false

def Reload.freeing? : Reload → Bool
  | .freeingFirst _ | .freeing _ => true
  | _ => false

/-- `refs` of the tables there are, the store's own table, the threads, and how
often each table was freed. A store that is freed has no table. -/
structure State where
  refs : Ptr → Option Int
  current : Option Ptr
  next : Ptr
  hands : List Hand
  reload : Reload
  frees : Ptr → Nat

/-- `ioxd_certs_load`. -/
def State.init : State where
  refs := update (fun _ => none) 0 (some 1)
  current := some 0
  next := 1
  hands := []
  reload := .idle
  frees := fun _ => 0

namespace State

/-- `ioxd__certs_acquire`. -/
def acquire (s : State) : Option (Ptr × State) := do
  let t ← s.current
  let n ← s.refs t
  return (t, { s with refs := update s.refs t (some (n + 1)) })

/-- The section of `ioxd__certs_release`, with what is left. -/
def release (s : State) (t : Ptr) : Option (Int × State) := do
  let n ← s.refs t
  return (n - 1, { s with refs := update s.refs t (some (n - 1)) })

/-- `table_free`. -/
def tableFree (s : State) (t : Ptr) : Option State := do
  let _ ← s.refs t
  return { s with
    refs := update s.refs t none
    frees := update s.frees t (s.frees t + 1) }

end State

inductive Act
  | acquire
  | read (t : Ptr)
  | release (t : Ptr)
  | free (t : Ptr)
  | reload
  | load
  | refuse
  | swap
  | unref
  | reloadFree
  | close

/-- What a thread may do next. A store is freed behind the last handshake and
the last reload. -/
def enabled (s : State) : Act → Bool
  | .acquire => s.current.isSome
  | .read t => s.hands.contains (.holding t)
  | .release t => s.hands.contains (.holding t)
  | .free t => s.hands.contains (.freeing t)
  | .reload => s.current.isSome && s.reload == .idle
  | .load => s.reload.loads
  | .refuse => s.reload.loads
  | .swap => s.reload.loads
  | .unref => s.reload.releases
  | .reloadFree => s.reload.freeing?
  | .close => s.current.isSome && s.hands.isEmpty && s.reload == .idle

def step (s : State) : Act → Option State
  | .acquire => do
    let (t, s) ← s.acquire
    return { s with hands := .holding t :: s.hands }
  | .read t => do
    let _ ← s.refs t
    return s
  | .release t => do
    let (left, s) ← s.release t
    let hands := s.hands.erase (.holding t)
    return { s with hands := if left = 0 then .freeing t :: hands else hands }
  | .free t => do
    let s ← s.tableFree t
    return { s with hands := s.hands.erase (.freeing t) }
  | .reload => do
    let (t, s) ← s.acquire
    return { s with reload := .loading t }
  | .load => do
    let .loading t := s.reload | none
    let _ ← s.refs t
    return s
  | .refuse => do
    let .loading t := s.reload | none
    return { s with reload := .closing t }
  | .swap => do
    let .loading t := s.reload | none
    return { s with
      refs := update s.refs s.next (some 1)
      current := some s.next
      next := s.next + 1
      reload := .swapped t }
  | .unref =>
    match s.reload with
    | .swapped t => do
      let (left, s) ← s.release t
      return { s with reload := if left = 0 then .freeingFirst t else .closing t }
    | .closing t => do
      let (left, s) ← s.release t
      return { s with reload := if left = 0 then .freeing t else .idle }
    | _ => none
  | .reloadFree =>
    match s.reload with
    | .freeingFirst t => do
      let s ← s.tableFree t
      return { s with reload := .closing t }
    | .freeing t => do
      let s ← s.tableFree t
      return { s with reload := .idle }
    | _ => none
  | .close => do
    let t ← s.current
    let (left, s) ← s.release t
    return { s with current := none, hands := if left = 0 then .freeing t :: s.hands else s.hands }

abbrev Run : State → State → Prop := Runs.Reach step enabled

-- ---------------------------------------------------------------------------
-- Holders
-- ---------------------------------------------------------------------------

/-- A reload's references: the one it took, and the store's own once it has
taken the table's place from it. -/
def Reload.holds (t : Ptr) : Reload → Nat
  | .loading old => if old = t then 1 else 0
  | .swapped old => if old = t then 2 else 0
  | .freeingFirst old => if old = t then 1 else 0
  | .closing old => if old = t then 1 else 0
  | _ => 0

def Reload.frees (t : Ptr) : Reload → Nat
  | .freeing old => if old = t then 1 else 0
  | _ => 0

/-- The references there are to a table. -/
def State.held (s : State) (t : Ptr) : Nat :=
  (if s.current = some t then 1 else 0) + s.hands.count (.holding t) + s.reload.holds t

def State.pending (s : State) (t : Ptr) : Nat :=
  s.hands.count (.freeing t) + s.reload.frees t

/-- The life of a table: not made yet, held, left for one thread to free, freed.
The values are its `refs`, the references and the threads about to free it, and
how often it was freed. -/
inductive Life : Bool → Option Int → Nat → Nat → Nat → Prop
  | unmade : Life false none 0 0 0
  | held (n : Nat) : Life true (some (n + 1)) (n + 1) 0 0
  | left : Life true (some 0) 0 1 0
  | freed : Life true none 0 0 1

def State.Lives (s : State) (t : Ptr) : Prop :=
  Life (decide (t < s.next)) (s.refs t) (s.held t) (s.pending t) (s.frees t)

structure Inv (s : State) : Prop where
  lives : ∀ t, s.Lives t
  loading : ∀ t, s.reload = .loading t → s.current = some t
  first : ∀ t, s.reload ≠ .freeingFirst t

variable {s s' : State} {t x : Ptr} {n : Int} {made : Bool} {r : Option Int}
  {held pending frees : Nat}

theorem Life.live (h : Life made r held pending frees) (hh : held + pending ≠ 0) :
    ∃ n, r = some n := by
  cases h with
  | unmade => exact absurd rfl hh
  | held n => exact ⟨_, rfl⟩
  | left => exact ⟨_, rfl⟩
  | freed => exact absurd rfl hh

theorem Life.grow (h : Life made (some n) held pending frees) (hh : held ≠ 0) :
    Life made (some (n + 1)) (held + 1) pending frees := by
  cases h with
  | held n => exact .held (n + 1)
  | left => exact absurd rfl hh

theorem Life.shrink (h : Life made (some n) (held + 1) pending frees) :
    Life made (some (n - 1)) held (pending + if n - 1 = 0 then 1 else 0) frees := by
  cases h with
  | held =>
    rw [Int.add_sub_cancel]
    cases held with
    | zero => exact .left
    | succ k =>
      rw [if_neg (by omega)]
      exact .held k

theorem Life.free (h : Life made (some n) held (pending + 1) frees) :
    Life made none held pending (frees + 1) := by
  cases h with
  | left => exact .freed

theorem Life.count (h : Life made (some n) held pending frees) : n = held := by
  cases h with
  | held => rfl
  | left => rfl

theorem Life.of_held (h : Life made r held pending frees) (hh : held ≠ 0) :
    r ≠ none ∧ frees = 0 ∧ pending = 0 := by
  cases h with
  | held n => exact ⟨nofun, rfl, rfl⟩
  | _ => exact absurd rfl hh

theorem Life.of_unheld (h : Life true r 0 pending frees) : frees + pending = 1 := by
  cases h with
  | left => rfl
  | freed => rfl

theorem Inv.change (h : Inv s) (t : Ptr) (hn : s'.next = s.next)
    (hx : ∀ x, x ≠ t → s'.refs x = s.refs x ∧ s'.held x = s.held x ∧ s'.pending x = s.pending x ∧
      s'.frees x = s.frees x)
    (ht : Life (decide (t < s.next)) (s'.refs t) (s'.held t) (s'.pending t) (s'.frees t))
    (hl : ∀ t, s'.reload = .loading t → s'.current = some t)
    (h1 : ∀ t, s'.reload ≠ .freeingFirst t) : Inv s' where
  lives := by
    intro x
    unfold State.Lives
    rw [hn]
    by_cases hxt : x = t
    · exact hxt ▸ ht
    · obtain ⟨h1, h2, h3, h4⟩ := hx x hxt
      rw [h1, h2, h3, h4]
      exact h.lives x
  loading := hl
  first := h1

theorem Inv.grow (h : Inv s) (hn : s.refs t = some n) (hpos : s.held t ≠ 0)
    (hr : s'.refs = update s.refs t (some (n + 1))) (hx : s'.next = s.next)
    (hh : ∀ x, s'.held x = s.held x + if x = t then 1 else 0)
    (hp : ∀ x, s'.pending x = s.pending x) (hf : s'.frees = s.frees)
    (hl : ∀ t, s'.reload = .loading t → s'.current = some t)
    (h1 : ∀ t, s'.reload ≠ .freeingFirst t) : Inv s' := by
  refine h.change t hx (fun x hxt => ?_) ?_ hl h1
  · rw [hr, hf, update_of_ne hxt, hh x, if_neg hxt]
    exact ⟨rfl, rfl, hp x, rfl⟩
  · have hlife := h.lives t
    rw [State.Lives, hn] at hlife
    rw [hr, update_self, hh t, if_pos rfl, hp t, hf]
    exact hlife.grow hpos

theorem Inv.shrink (h : Inv s) (hn : s.refs t = some n)
    (hr : s'.refs = update s.refs t (some (n - 1))) (hx : s'.next = s.next)
    (hh : ∀ x, s.held x = s'.held x + if x = t then 1 else 0)
    (hp : ∀ x, s'.pending x = s.pending x + if x = t ∧ n - 1 = 0 then 1 else 0)
    (hf : s'.frees = s.frees) (hl : ∀ t, s'.reload = .loading t → s'.current = some t)
    (h1 : ∀ t, s'.reload ≠ .freeingFirst t) : Inv s' := by
  refine h.change t hx (fun x hxt => ?_) ?_ hl h1
  · rw [hr, hf, update_of_ne hxt, hp x, hh x, if_neg hxt, if_neg fun hc => hxt hc.1]
    exact ⟨rfl, rfl, rfl, rfl⟩
  · have hlife := h.lives t
    rw [State.Lives, hn, hh t, if_pos rfl] at hlife
    rw [hr, update_self, hp t, hf]
    simpa only [true_and] using hlife.shrink

theorem Inv.free (h : Inv s) (hn : s.refs t = some n) (hr : s'.refs = update s.refs t none)
    (hx : s'.next = s.next) (hh : ∀ x, s'.held x = s.held x)
    (hp : ∀ x, s.pending x = s'.pending x + if x = t then 1 else 0)
    (hf : s'.frees = update s.frees t (s.frees t + 1))
    (hl : ∀ t, s'.reload = .loading t → s'.current = some t)
    (h1 : ∀ t, s'.reload ≠ .freeingFirst t) : Inv s' := by
  refine h.change t hx (fun x hxt => ?_) ?_ hl h1
  · rw [hr, hf, update_of_ne hxt, update_of_ne hxt, hp x, if_neg hxt]
    exact ⟨rfl, hh x, rfl, rfl⟩
  · have hlife := h.lives t
    rw [State.Lives, hn, hp t, if_pos rfl] at hlife
    rw [hr, update_self, hh t, hf, update_self]
    exact hlife.free

-- ---------------------------------------------------------------------------
-- The steps
-- ---------------------------------------------------------------------------

theorem acquire_spec (h : Inv s) (hc : s.current = some t) : ∃ n, s.refs t = some n ∧
    s.acquire = some (t, { s with refs := update s.refs t (some (n + 1)) }) ∧ s.held t ≠ 0 := by
  have hh : s.held t ≠ 0 := by
    rw [State.held, if_pos hc]
    omega
  obtain ⟨n, hn⟩ := (h.lives t).live (by omega)
  refine ⟨n, hn, ?_, hh⟩
  rw [State.acquire, hc]
  simp only [Option.bind_eq_bind, Option.bind_some, hn]
  rfl

theorem release_spec (h : Inv s) (hh : s.held t ≠ 0) : ∃ n, s.refs t = some n ∧
    s.release t = some (n - 1, { s with refs := update s.refs t (some (n - 1)) }) := by
  obtain ⟨n, hn⟩ := (h.lives t).live (by omega)
  refine ⟨n, hn, ?_⟩
  rw [State.release, hn]
  rfl

theorem tableFree_spec (h : Inv s) (hp : s.pending t ≠ 0) : ∃ n, s.refs t = some n ∧
    s.tableFree t = some { s with
      refs := update s.refs t none
      frees := update s.frees t (s.frees t + 1) } := by
  obtain ⟨n, hn⟩ := (h.lives t).live (by omega)
  refine ⟨n, hn, ?_⟩
  rw [State.tableFree, hn]
  rfl

theorem count_erase_hand {a b : Hand} {l : List Hand} (ha : a ∈ l) :
    l.count b = (l.erase a).count b + if b = a then 1 else 0 := by
  have hpos := List.count_pos_iff.mpr ha
  rw [List.count_erase]
  by_cases hab : b = a
  · subst hab
    simp only [beq_self_eq_true, if_true]
    omega
  · have : (a == b) = false := by simpa using Ne.symm hab
    simp [hab, this]

theorem count_cons_hand (a b : Hand) (l : List Hand) :
    (a :: l).count b = l.count b + if b = a then 1 else 0 := by
  have := @count_erase_hand a b (a :: l) List.mem_cons_self
  rwa [List.erase_cons_head] at this

theorem count_freeing (c : Prop) [Decidable c] (t x : Ptr) (l : List Hand) :
    (if c then .freeing t :: l else l).count (.holding x) = l.count (.holding x) ∧
      (if c then .freeing t :: l else l).count (.freeing x) =
        l.count (.freeing x) + if x = t ∧ c then 1 else 0 := by
  by_cases hc : c
  · rw [if_pos hc, count_cons_hand, count_cons_hand, if_neg nofun]
    simp only [Hand.freeing.injEq, hc, and_true, Nat.add_zero, and_self]
  · simp only [hc, and_false, if_false, Nat.add_zero, and_self]

theorem held_of_hand (hm : .holding t ∈ s.hands) : s.held t ≠ 0 := by
  have := List.count_pos_iff.mpr hm
  unfold State.held
  omega

theorem acquire_step (h : Inv s) (he : enabled s .acquire = true) :
    ∃ s', step s .acquire = some s' ∧ Inv s' := by
  obtain ⟨t, hc⟩ := Option.isSome_iff_exists.mp he
  obtain ⟨n, hn, ha, hh⟩ := acquire_spec h hc
  simp only [step, ha, Option.bind_eq_bind, Option.bind_some]
  refine ⟨_, rfl, h.grow hn hh rfl rfl (fun x => ?_) (fun x => ?_) rfl h.loading h.first⟩
  · simp only [State.held, count_cons_hand, Hand.holding.injEq]
    omega
  · simp only [State.pending, count_cons_hand, reduceCtorEq, if_false, Nat.add_zero]

theorem release_step (h : Inv s) (he : enabled s (.release t) = true) :
    ∃ s', step s (.release t) = some s' ∧ Inv s' := by
  have hm : .holding t ∈ s.hands := List.contains_iff_mem.mp he
  obtain ⟨n, hn, hr⟩ := release_spec h (held_of_hand hm)
  simp only [step, hr, Option.bind_eq_bind, Option.bind_some]
  refine ⟨_, rfl, h.shrink hn rfl rfl (fun x => ?_) (fun x => ?_) rfl h.loading h.first⟩
  · have hc := @count_erase_hand (.holding t) (.holding x) _ hm
    simp only [Hand.holding.injEq] at hc
    simp only [State.held, (count_freeing _ t x _).1]
    omega
  · have hc := @count_erase_hand (.holding t) (.freeing x) _ hm
    simp only [reduceCtorEq, if_false] at hc
    simp only [State.pending, (count_freeing _ t x _).2]
    omega

theorem free_step (h : Inv s) (he : enabled s (.free t) = true) :
    ∃ s', step s (.free t) = some s' ∧ Inv s' := by
  have hm : .freeing t ∈ s.hands := List.contains_iff_mem.mp he
  have hpos := List.count_pos_iff.mpr hm
  obtain ⟨n, hn, hf⟩ := @tableFree_spec s t h (by unfold State.pending; omega)
  simp only [step, hf, Option.bind_eq_bind, Option.bind_some]
  refine ⟨_, rfl, h.free hn rfl rfl (fun x => ?_) (fun x => ?_) rfl h.loading h.first⟩
  · have hc := @count_erase_hand (.freeing t) (.holding x) _ hm
    simp only [reduceCtorEq, if_false] at hc
    simp only [State.held]
    omega
  · have hc := @count_erase_hand (.freeing t) (.freeing x) _ hm
    simp only [Hand.freeing.injEq] at hc
    simp only [State.pending]
    omega

theorem reload_step (h : Inv s) (he : enabled s .reload = true) :
    ∃ s', step s .reload = some s' ∧ Inv s' := by
  simp only [enabled, Bool.and_eq_true, beq_iff_eq] at he
  obtain ⟨t, hc⟩ := Option.isSome_iff_exists.mp he.1
  obtain ⟨n, hn, ha, hh⟩ := acquire_spec h hc
  simp only [step, ha, Option.bind_eq_bind, Option.bind_some]
  refine ⟨_, rfl, h.grow hn hh rfl rfl (fun x => ?_) (fun x => ?_) rfl (fun x hx => ?_) nofun⟩
  · simp only [State.held, he.2, Reload.holds, eq_comm]
    omega
  · simp only [State.pending, he.2, Reload.frees]
  · cases hx
    exact hc

theorem loading_of {r : Reload} (h : r.loads = true) : ∃ t, r = .loading t := by
  cases r with
  | loading t => exact ⟨t, rfl⟩
  | _ => cases h

theorem load_step (h : Inv s) (he : enabled s .load = true) :
    ∃ s', step s .load = some s' ∧ Inv s' := by
  obtain ⟨t, ht⟩ := loading_of he
  obtain ⟨n, hn, -, -⟩ := acquire_spec h (h.loading t ht)
  exact ⟨s, by simp [step, ht, hn], h⟩

theorem refuse_step (h : Inv s) (he : enabled s .refuse = true) :
    ∃ s', step s .refuse = some s' ∧ Inv s' := by
  obtain ⟨t, ht⟩ := loading_of he
  simp only [step, ht, Option.pure_def]
  refine ⟨_, rfl, h.change t rfl (fun x _ => ⟨rfl, ?_, ?_, rfl⟩) ?_ nofun nofun⟩
  · simp [State.held, ht, Reload.holds]
  · simp [State.pending, ht, Reload.frees]
  · have hl := h.lives t
    simpa only [State.Lives, State.held, State.pending, ht, Reload.holds, Reload.frees] using hl

theorem Inv.lt_next (h : Inv s) (hn : s.refs t = some n) : t < s.next := by
  have hl := h.lives t
  rw [State.Lives, hn] at hl
  by_contra hge
  rw [decide_eq_false hge] at hl
  cases hl

theorem Inv.next_unheld (h : Inv s) :
    s.held s.next = 0 ∧ s.pending s.next = 0 ∧ s.frees s.next = 0 := by
  have hl := h.lives s.next
  rw [State.Lives, decide_eq_false (Nat.lt_irrefl _)] at hl
  generalize s.refs s.next = r at hl
  generalize s.held s.next = a at *
  generalize s.pending s.next = b at *
  generalize s.frees s.next = c at *
  cases hl
  exact ⟨rfl, rfl, rfl⟩

theorem swap_step (h : Inv s) (he : enabled s .swap = true) :
    ∃ s', step s .swap = some s' ∧ Inv s' := by
  obtain ⟨t, ht⟩ := loading_of he
  have hc := h.loading t ht
  obtain ⟨n, hn, -, -⟩ := acquire_spec h hc
  have hlt := h.lt_next hn
  obtain ⟨hheld, hpend, hfrees⟩ := h.next_unheld
  simp only [State.held, State.pending] at hheld hpend
  simp only [step, ht, Option.pure_def]
  refine ⟨_, rfl, fun x => ?_, nofun, nofun⟩
  by_cases hx : x = s.next
  · subst hx
    have hh : (if t = s.next then 2 else 0) = 0 := if_neg (Nat.ne_of_lt hlt)
    have hcount : s.hands.count (.holding s.next) = 0 := by omega
    have hfreeing : s.hands.count (.freeing s.next) = 0 := by omega
    simp only [State.Lives, State.held, State.pending, Reload.holds, Reload.frees, update_self,
      if_true, hh, hcount, hfreeing, hfrees, Nat.lt_succ_self, decide_true]
    exact .held 0
  · have hmade : decide (x < s.next + 1) = decide (x < s.next) :=
      decide_eq_decide.mpr
        ⟨fun h => Nat.lt_of_le_of_ne (Nat.lt_succ_iff.mp h) hx, Nat.lt_succ_of_lt⟩
    have hl := h.lives x
    simp only [State.Lives, State.held, State.pending, ht, hc, Reload.holds, Reload.frees,
      Option.some.injEq] at hl
    simp only [State.Lives, State.held, State.pending, Reload.holds, Reload.frees, update_of_ne hx,
      hmade, Option.some.injEq, if_neg (Ne.symm hx)]
    by_cases hxt : t = x
    · simp only [if_pos hxt] at hl ⊢
      rwa [show 0 + s.hands.count (.holding x) + 2 = 1 + s.hands.count (.holding x) + 1 by omega]
    · simp only [if_neg hxt] at hl ⊢
      exact hl

theorem unref_step (h : Inv s) (he : enabled s .unref = true) :
    ∃ s', step s .unref = some s' ∧ Inv s' := by
  cases hr : s.reload with
  | swapped t =>
    obtain ⟨n, hn, hrel⟩ := @release_spec s t h (by simp [State.held, hr, Reload.holds])
    have hleft : n - 1 ≠ 0 := by
      have hl := h.lives t
      rw [State.Lives, hn] at hl
      have := hl.count
      rw [State.held, hr, Reload.holds, if_pos rfl] at this
      omega
    simp only [step, hr, hrel, Option.bind_eq_bind, Option.bind_some, if_neg hleft]
    refine ⟨_, rfl, h.shrink hn rfl rfl (fun x => ?_) (fun x => ?_) rfl nofun nofun⟩
    · simp only [State.held, hr, Reload.holds]
      by_cases hx : x = t
      · simp only [hx, if_true]
      · simp only [hx, Ne.symm hx, if_false]
    · simp only [State.pending, hr, Reload.frees, hleft, and_false, if_false, Nat.add_zero]
  | closing t =>
    obtain ⟨n, hn, hrel⟩ := @release_spec s t h (by simp [State.held, hr, Reload.holds])
    simp only [step, hr, hrel, Option.bind_eq_bind, Option.bind_some]
    by_cases hz : n - 1 = 0
    · simp only [if_pos hz]
      refine ⟨_, rfl, h.shrink hn rfl rfl (fun x => ?_) (fun x => ?_) rfl nofun nofun⟩
      · simp only [State.held, hr, Reload.holds, eq_comm]
        omega
      · simp only [State.pending, hr, Reload.frees, hz, and_true, eq_comm]
        omega
    · simp only [if_neg hz]
      refine ⟨_, rfl, h.shrink hn rfl rfl (fun x => ?_) (fun x => ?_) rfl nofun nofun⟩
      · simp only [State.held, hr, Reload.holds, eq_comm]
        omega
      · simp only [State.pending, hr, Reload.frees, hz, and_false, if_false, Nat.add_zero]
  | _ => simp [enabled, hr, Reload.releases] at he

theorem reloadFree_step (h : Inv s) (he : enabled s .reloadFree = true) :
    ∃ s', step s .reloadFree = some s' ∧ Inv s' := by
  cases hr : s.reload with
  | freeingFirst t => exact absurd hr (h.first t)
  | freeing t =>
    obtain ⟨n, hn, hf⟩ := @tableFree_spec s t h (by simp [State.pending, hr, Reload.frees])
    simp only [step, hr, hf, Option.bind_eq_bind, Option.bind_some]
    refine ⟨_, rfl, h.free hn rfl rfl (fun x => ?_) (fun x => ?_) rfl nofun nofun⟩
    · simp only [State.held, hr, Reload.holds]
    · simp only [State.pending, hr, Reload.frees, eq_comm]
      omega
  | _ => simp [enabled, hr, Reload.freeing?] at he

theorem close_step (h : Inv s) (he : enabled s .close = true) :
    ∃ s', step s .close = some s' ∧ Inv s' := by
  simp only [enabled, Bool.and_eq_true, beq_iff_eq] at he
  obtain ⟨t, hc⟩ := Option.isSome_iff_exists.mp he.1.1
  obtain ⟨n, hn, hrel⟩ := @release_spec s t h (by simp [State.held, hc])
  simp only [step, hc, hrel, Option.bind_eq_bind, Option.bind_some]
  refine ⟨_, rfl, h.shrink hn rfl rfl (fun x => ?_) (fun x => ?_) rfl (fun x hx => ?_) h.first⟩
  · simp only [State.held, (count_freeing _ t x _).1, hc, Option.some.injEq, eq_comm]
    simp only [reduceCtorEq, if_false]
    omega
  · simp only [State.pending, (count_freeing _ t x _).2]
    omega
  · rw [he.2] at hx
    cases hx

theorem step_inv (h : Inv s) {a : Act} (he : enabled s a = true) :
    ∃ s', step s a = some s' ∧ Inv s' := by
  cases a with
  | acquire => exact acquire_step h he
  | read t =>
    obtain ⟨n, hn, -⟩ := release_spec h (held_of_hand (List.contains_iff_mem.mp he))
    exact ⟨s, by simp [step, hn], h⟩
  | release t => exact release_step h he
  | free t => exact free_step h he
  | reload => exact reload_step h he
  | load => exact load_step h he
  | refuse => exact refuse_step h he
  | swap => exact swap_step h he
  | unref => exact unref_step h he
  | reloadFree => exact reloadFree_step h he
  | close => exact close_step h he

theorem init_inv : Inv .init where
  lives := by
    intro t
    cases t with
    | zero => exact .held 0
    | succ t => exact .unmade
  loading := nofun
  first := nofun

theorem run_inv (h : Run .init s) : Inv s := by
  refine h.invariant init_inv fun s₁ a s₂ hi he hs => ?_
  obtain ⟨s', hs', hi'⟩ := step_inv hi he
  exact Option.some.inj (hs'.symm.trans hs) ▸ hi'

-- ---------------------------------------------------------------------------
-- A table that another has replaced
-- ---------------------------------------------------------------------------

/-- It is never the store's again, and no handshake comes to hold it. -/
structure Behind (t : Ptr) (s s' : State) : Prop where
  next : s.next ≤ s'.next
  current : s.current ≠ some t → s'.current ≠ some t
  hands : s.current ≠ some t → s'.hands.count (.holding t) ≤ s.hands.count (.holding t)

theorem Behind.same (hn : s'.next = s.next) (hc : s'.current = s.current ∨ s'.current = none)
    (hh : s'.hands.count (.holding t) ≤ s.hands.count (.holding t)) : Behind t s s' where
  next := Nat.le_of_eq hn.symm
  current := by
    intro h
    rcases hc with hc | hc
    · rwa [hc]
    · rw [hc]
      exact nofun
  hands := fun _ => hh

theorem acquire_eq {p : Ptr × State} (h : s.acquire = some p) :
    s.current = some p.1 ∧ ∃ f, p.2 = { s with refs := f } := by
  obtain ⟨t, hc, h⟩ := Option.bind_eq_some_iff.mp h
  obtain ⟨n, -, h⟩ := Option.bind_eq_some_iff.mp h
  cases h
  exact ⟨hc, _, rfl⟩

theorem release_eq {p : Int × State} (h : s.release t = some p) :
    ∃ f, p.2 = { s with refs := f } := by
  obtain ⟨n, -, h⟩ := Option.bind_eq_some_iff.mp h
  cases h
  exact ⟨_, rfl⟩

theorem tableFree_eq (h : s.tableFree t = some s') :
    ∃ f g, s' = { s with refs := f, frees := g } := by
  obtain ⟨n, -, h⟩ := Option.bind_eq_some_iff.mp h
  cases h
  exact ⟨_, _, rfl⟩

theorem step_behind (ht : t < s.next) {a : Act} (hs : step s a = some s') : Behind t s s' := by
  cases a with
  | acquire =>
    obtain ⟨p, ha, hs⟩ := Option.bind_eq_some_iff.mp hs
    obtain ⟨hc, f, hp⟩ := acquire_eq ha
    cases hs
    rw [hp]
    refine ⟨Nat.le_refl _, id, fun hne => ?_⟩
    rw [count_cons_hand, if_neg]
    · exact Nat.le_refl _
    · intro he
      rw [Hand.holding.injEq] at he
      exact hne (he ▸ hc)
  | read x =>
    obtain ⟨n, -, hs⟩ := Option.bind_eq_some_iff.mp hs
    cases hs
    exact .same rfl (.inl rfl) (Nat.le_refl _)
  | release x =>
    obtain ⟨p, hr, hs⟩ := Option.bind_eq_some_iff.mp hs
    obtain ⟨f, hp⟩ := release_eq hr
    cases hs
    rw [hp]
    have he := (count_freeing (p.1 = 0) x t (s.hands.erase (.holding x))).1
    exact .same rfl (.inl rfl) (he ▸ List.erase_sublist.count_le _)
  | free x =>
    obtain ⟨s₁, hf, hs⟩ := Option.bind_eq_some_iff.mp hs
    obtain ⟨f, g, rfl⟩ := tableFree_eq hf
    cases hs
    exact .same rfl (.inl rfl) (List.erase_sublist.count_le _)
  | reload =>
    obtain ⟨p, ha, hs⟩ := Option.bind_eq_some_iff.mp hs
    obtain ⟨-, f, hp⟩ := acquire_eq ha
    cases hs
    rw [hp]
    exact .same rfl (.inl rfl) (Nat.le_refl _)
  | load =>
    simp only [step] at hs
    split at hs
    · obtain ⟨n, -, hs⟩ := Option.bind_eq_some_iff.mp hs
      cases hs
      exact .same rfl (.inl rfl) (Nat.le_refl _)
    · cases hs
  | refuse =>
    simp only [step] at hs
    split at hs
    · cases hs
      exact .same rfl (.inl rfl) (Nat.le_refl _)
    · cases hs
  | swap =>
    simp only [step] at hs
    split at hs
    · cases hs
      refine ⟨Nat.le_succ _, fun _ he => ?_, fun _ => Nat.le_refl _⟩
      exact Nat.ne_of_gt ht (Option.some.inj he)
    · cases hs
  | unref =>
    simp only [step] at hs
    split at hs
    · obtain ⟨p, hr, hs⟩ := Option.bind_eq_some_iff.mp hs
      obtain ⟨f, hp⟩ := release_eq hr
      cases hs
      rw [hp]
      exact .same rfl (.inl rfl) (Nat.le_refl _)
    · obtain ⟨p, hr, hs⟩ := Option.bind_eq_some_iff.mp hs
      obtain ⟨f, hp⟩ := release_eq hr
      cases hs
      rw [hp]
      exact .same rfl (.inl rfl) (Nat.le_refl _)
    · cases hs
  | reloadFree =>
    simp only [step] at hs
    split at hs
    · obtain ⟨s₁, hf, hs⟩ := Option.bind_eq_some_iff.mp hs
      obtain ⟨f, g, rfl⟩ := tableFree_eq hf
      cases hs
      exact .same rfl (.inl rfl) (Nat.le_refl _)
    · obtain ⟨s₁, hf, hs⟩ := Option.bind_eq_some_iff.mp hs
      obtain ⟨f, g, rfl⟩ := tableFree_eq hf
      cases hs
      exact .same rfl (.inl rfl) (Nat.le_refl _)
    · cases hs
  | close =>
    obtain ⟨x, hc, hs⟩ := Option.bind_eq_some_iff.mp hs
    obtain ⟨p, hr, hs⟩ := Option.bind_eq_some_iff.mp hs
    obtain ⟨f, hp⟩ := release_eq hr
    cases hs
    rw [hp]
    exact .same rfl (.inr rfl) (Nat.le_of_eq (count_freeing _ x t _).1)

theorem run_behind (ht : t < s.next) (hc : s.current ≠ some t) (h : Run s s') :
    t < s'.next ∧ s'.current ≠ some t ∧
      s'.hands.count (.holding t) ≤ s.hands.count (.holding t) := by
  refine h.invariant (P := fun s' => t < s'.next ∧ s'.current ≠ some t ∧
    s'.hands.count (.holding t) ≤ s.hands.count (.holding t)) ⟨ht, hc, Nat.le_refl _⟩
    fun s₁ a s₂ hp _ hs => ?_
  have hb := step_behind hp.1 hs
  exact ⟨Nat.lt_of_lt_of_le hp.1 hb.next, hb.current hp.2.1,
    Nat.le_trans (hb.hands hp.2.1) hp.2.2⟩

-- ---------------------------------------------------------------------------
-- Every run
-- ---------------------------------------------------------------------------

/-- What holds of the tables in every state: `refs` counts the references, a
table is freed once, when nobody holds it and by the one thread that gave it
back last, no thread comes upon a freed one, and a table that was replaced stays
so. -/
structure Sound (s : State) : Prop where
  counted : ∀ t n, s.refs t = some n → n = s.held t
  live : ∀ t, s.held t ≠ 0 → s.refs t ≠ none ∧ s.frees t = 0 ∧ s.pending t = 0
  once : ∀ t < s.next, s.held t = 0 → s.frees t + s.pending t = 1
  steps : ∀ a, enabled s a = true → ∃ s', step s a = some s'
  behind : ∀ t < s.next, s.current ≠ some t → ∀ s', Run s s' →
    s'.current ≠ some t ∧ s'.hands.count (.holding t) ≤ s.hands.count (.holding t)

theorem tables_sound (h : Run .init s) : Sound s := by
  have hi := run_inv h
  refine ⟨fun t n hn => ?_, fun t hh => ?_, fun t ht h0 => ?_, fun a he => ?_,
    fun t ht hc s' hr => ?_⟩
  · have hl := hi.lives t
    rw [State.Lives, hn] at hl
    exact hl.count
  · exact (hi.lives t).of_held hh
  · have hl := hi.lives t
    rw [State.Lives, decide_eq_true ht, h0] at hl
    exact hl.of_unheld
  · obtain ⟨s', hs, -⟩ := step_inv hi he
    exact ⟨s', hs⟩
  · exact (run_behind ht hc hr).2

def overlapRun : List Act :=
  [.acquire, .reload, .load, .swap, .read 0, .acquire, .unref, .unref, .release 0, .free 0, .read 1,
    .release 1, .close, .free 1]

theorem tables_sound_overlap : ∃ s, Run .init s ∧
    (s.frees 0, s.frees 1, s.current, s.hands) = (1, 1, none, []) ∧ Sound s := by
  have h : (Runs.perform step enabled .init overlapRun).map
      (fun s => (s.frees 0, s.frees 1, s.current, s.hands)) = some (1, 1, none, []) := by decide
  obtain ⟨s, hs, hb⟩ := Option.map_eq_some_iff.mp h
  have hr : Run .init s := Runs.Reach.start.perform hs
  exact ⟨s, hr, hb, tables_sound hr⟩

/-- The store, the handshakes and the reloads that hold a table, each one
once. -/
def State.holders (s : State) (t : Ptr) : Nat :=
  (if s.current = some t then 1 else 0) + s.hands.count (.holding t) +
    if s.reload.holds t = 0 then 0 else 1

/-- A reload that has swapped the tables holds the old one twice. -/
theorem swapped_twice :
    ¬ ∀ s, Run .init s → ∀ t n, s.refs t = some n → n = s.holders t := by
  intro h
  have hp : (Runs.perform step enabled .init [.reload, .swap]).map
      (fun s => (s.refs 0, s.holders 0)) = some (some 2, 1) := by decide
  obtain ⟨s, hs, hb⟩ := Option.map_eq_some_iff.mp hp
  obtain ⟨hr, hh⟩ := Prod.mk.inj hb
  have := h s (Runs.Reach.start.perform hs) 0 2 hr
  rw [hh] at this
  exact absurd this (by decide)

end Ioxd.Tls.Certs
