import Mathlib.Data.List.Perm.Basic
import Mathlib.Data.List.Nodup
import Mathlib.Logic.Function.Basic
import Mathlib.Tactic.Common

/-!
# Pools of blocks

A free list over an allocator: a block is taken from the list if there is one,
and goes back to it while it is short of its cap. `heap` are the blocks the
allocator has given out and not had back. `Pool.Sound` says that each of them
is idle or held, and by one holder; `Tenancy` says who holds which, and lets a
set of tenants change from one to another.
-/

namespace Pools

/-- `count` is the counter kept beside the list, newest block first. -/
structure Pool (α : Type) where
  idle : List α
  count : Nat
  heap : List α

namespace Pool

variable {α : Type}

def empty : Pool α := ⟨[], 0, []⟩

/-- The newest idle block, or else `fresh` from the allocator. -/
def take (p : Pool α) (fresh : α) : α × Pool α :=
  match p.idle with
  | a :: rest => (a, { p with idle := rest, count := p.count - 1 })
  | [] => (fresh, { p with heap := fresh :: p.heap })

/-- Every block is idle or held, once, and no more than `cap` are idle. -/
structure Sound (cap : Nat) (p : Pool α) (held : List α) : Prop where
  count : p.count = p.idle.length
  bounded : p.count ≤ cap
  whole : p.heap.Perm (p.idle ++ held)
  apart : p.heap.Nodup

variable {cap : Nat} {p : Pool α} {held held' : List α} {a : α}

theorem empty_sound (cap : Nat) : Sound cap (empty : Pool α) [] :=
  ⟨rfl, Nat.zero_le _, .refl _, .nil⟩

theorem Sound.perm (h : Sound cap p held) (hp : held.Perm held') : Sound cap p held' :=
  ⟨h.count, h.bounded, h.whole.trans (hp.append_left _), h.apart⟩

theorem Sound.nodup (h : Sound cap p held) : (p.idle ++ held).Nodup := h.whole.nodup h.apart

theorem Sound.mem (h : Sound cap p held) (ha : a ∈ held) : a ∈ p.heap ∧ a ∉ p.idle :=
  ⟨h.whole.mem_iff.mpr (List.mem_append_right _ ha),
    fun hi => (List.nodup_append.mp h.nodup).2.2 a hi a ha rfl⟩

theorem Sound.take (h : Sound cap p held) {fresh : α} (hf : fresh ∉ p.heap) :
    Sound cap (p.take fresh).2 ((p.take fresh).1 :: held) := by
  obtain ⟨hc, hb, hw, ha⟩ := h
  unfold Pool.take
  split
  · rename_i a rest hi
    rw [hi, List.length_cons] at hc
    refine ⟨by dsimp only; omega, by dsimp only; omega, ?_, ha⟩
    rw [hi] at hw
    exact hw.trans List.perm_middle.symm
  · rename_i hi
    rw [hi, List.nil_append] at hw
    refine ⟨hc, hb, ?_, List.nodup_cons.mpr ⟨hf, ha⟩⟩
    dsimp only
    rw [hi, List.nil_append]
    exact hw.cons fresh

variable [DecidableEq α]

/-- Kept while the list is short of `cap`, and given back to the allocator
otherwise. -/
def give (cap : Nat) (p : Pool α) (a : α) : Pool α :=
  if p.count < cap then { p with idle := a :: p.idle, count := p.count + 1 }
  else { p with heap := p.heap.erase a }

/-- Every idle block goes back to the allocator. -/
def drain (p : Pool α) : Pool α where
  idle := []
  count := 0
  heap := p.idle.foldl List.erase p.heap

theorem Sound.give (h : Sound cap p (a :: held)) : Sound cap (p.give cap a) held := by
  obtain ⟨hc, hb, hw, ha⟩ := h
  unfold Pool.give
  split
  · refine ⟨?_, ?_, hw.trans List.perm_middle, ha⟩
    · show p.count + 1 = (a :: p.idle).length
      rw [hc, List.length_cons]
    · show p.count + 1 ≤ cap
      omega
  · have hmid := (hw.trans List.perm_middle).erase a
    rw [List.erase_cons_head] at hmid
    exact ⟨hc, hb, hmid, ha.erase a⟩

theorem Sound.drain (h : Sound cap p held) : p.drain.heap.Perm held := by
  have hfold {heap idle : List α} (hp : heap.Perm (idle ++ held)) :
      (idle.foldl List.erase heap).Perm held := by
    induction idle generalizing heap with
    | nil => exact hp
    | cons b idle ih =>
      have hb := hp.erase b
      rw [List.cons_append, List.erase_cons_head] at hb
      exact ih hb
  exact hfold h.whole

end Pool

/-- Who holds which block of a pool. -/
structure Tenancy (ι α : Type) where
  pool : Pool α
  home : ι → α

namespace Tenancy

variable {ι α : Type}

/-- The tenants are in blocks of their own. -/
def Sound (cap : Nat) (t : Tenancy ι α) (is : List ι) : Prop := t.pool.Sound cap (is.map t.home)

variable {cap : Nat} {t : Tenancy ι α} {is js : List ι} {i j : ι} {fresh : α}

theorem Sound.perm (h : Sound cap t is) (hp : is.Perm js) : Sound cap t js :=
  Pool.Sound.perm h (hp.map _)

theorem Sound.inj (h : Sound cap t is) (hi : i ∈ is) (hj : j ∈ is) (he : t.home i = t.home j) :
    i = j :=
  List.inj_on_of_nodup_map (List.nodup_append.mp (Pool.Sound.nodup h)).2.1 hi hj he

def enter [DecidableEq ι] (t : Tenancy ι α) (i : ι) (fresh : α) : Tenancy ι α where
  pool := (t.pool.take fresh).2
  home := Function.update t.home i (t.pool.take fresh).1

theorem Sound.enter [DecidableEq ι] (h : Sound cap t is) (hi : i ∉ is) (hf : fresh ∉ t.pool.heap) :
    Sound cap (t.enter i fresh) (i :: is) := by
  have hsame : is.map (t.enter i fresh).home = is.map t.home := by
    refine List.map_congr_left fun j hj => Function.update_of_ne ?_ _ _
    rintro rfl
    exact hi hj
  have ht := Pool.Sound.take h hf
  unfold Sound
  rw [List.map_cons, hsame]
  simpa [Tenancy.enter] using ht

variable [DecidableEq α]

def leave (cap : Nat) (t : Tenancy ι α) (i : ι) : Tenancy ι α :=
  { t with pool := t.pool.give cap (t.home i) }

theorem Sound.leave (h : Sound cap t (i :: is)) : Sound cap (t.leave cap i) is :=
  Pool.Sound.give h

theorem Sound.leaveAll (h : Sound cap t (js ++ is)) :
    Sound cap (js.foldl (Tenancy.leave cap) t) is := by
  induction js generalizing t with
  | nil => exact h
  | cons j js ih => exact ih h.leave

variable [DecidableEq ι]

/-- The tenants change from `old` to `new`: who is new takes a block, who is
gone gives one back. -/
def follow (cap : Nat) (t : Tenancy ι α) (old new : List ι) (fresh : α) : Tenancy ι α :=
  (old.filter (· ∉ new)).foldl (leave cap) ((new.filter (· ∉ old)).foldl (enter · · fresh) t)

/-- A change of tenants with at most one new keeps them in blocks of their own. -/
theorem Sound.follow (h : Sound cap t is) (his : is.Nodup) (hjs : js.Nodup)
    (hone : (js.filter (· ∉ is)).length ≤ 1) (hf : fresh ∉ t.pool.heap) :
    Sound cap (t.follow cap is js fresh) js := by
  have hin : Sound cap ((js.filter (· ∉ is)).foldl (Tenancy.enter · · fresh) t)
      (js.filter (· ∉ is) ++ is) := by
    have hout : ∀ j ∈ js.filter (· ∉ is), j ∉ is := fun j hj => by
      simpa using (List.mem_filter.mp hj).2
    generalize js.filter (· ∉ is) = new at hone hout
    cases new with
    | nil => exact h
    | cons i new =>
      obtain rfl : new = [] := List.length_eq_zero_iff.mp (by simpa using hone)
      exact h.enter (hout i List.mem_cons_self) hf
  refine (hin.perm ?_).leaveAll
  refine (List.perm_ext_iff_of_nodup ?_ ?_).mpr fun a => ?_
  · refine List.nodup_append.mpr ⟨hjs.filter _, his, fun a ha b hb => ?_⟩
    rintro rfl
    exact absurd hb (by simpa using (List.mem_filter.mp ha).2)
  · refine List.nodup_append.mpr ⟨his.filter _, hjs, fun a ha b hb => ?_⟩
    rintro rfl
    exact absurd hb (by simpa using (List.mem_filter.mp ha).2)
  · simp only [List.mem_append, List.mem_filter, decide_eq_true_eq]
    by_cases ha : a ∈ is <;> by_cases hb : a ∈ js <;> simp [ha, hb]

end Tenancy

end Pools
