import Ioxd.Files.Serve
import Ioxd.Files.TableLaws
import Mathlib.Data.List.Count
import Mathlib.Logic.Relation

/-!
# The worker without its pointers

What a table is for: the entries kept, newest first, and for each one whether it
is alive, dropped, and how many replies read from it. `Move` is what `serve`
does to that on its way to a suspension, `Served` the whole way, and `Next` a
step of the worker; the invariant is proved of these.
-/

namespace Ioxd.Files

open Function (update update_self update_of_ne)
open State (Content)
open Ioxd.Pipe (Byte)

structure View where
  kept : List Ptr
  entry : Ptr → Option Entry
  next : Ptr
  loading : List (Ptr × Request)
  writing : List Ptr
  clock : Nat
  stamp : Ptr → Nat

namespace View

def set (v : View) (p : Ptr) (x : Option Entry) : View := { v with entry := update v.entry p x }

def touch (v : View) (p : Ptr) : View :=
  { v with
    kept := p :: v.kept.erase p
    clock := v.clock + 1
    stamp := update v.stamp p (v.clock + 1) }

def drop (v : View) (p : Ptr) : View :=
  { v with
    kept := v.kept.erase p
    entry := update v.entry p ((v.entry p).bind Entry.leave) }

/-- A reply that begins to read from an entry. -/
def take (v : View) (p : Ptr) (e : Entry) : View :=
  { v with
    entry := update v.entry p (some { e with refs := e.refs + 1 })
    writing := p :: v.writing }

def alloc (v : View) (e : Entry) (req : Request) : View :=
  { v with
    entry := update v.entry v.next (some e)
    next := v.next + 1
    loading := (v.next, req) :: v.loading }

structure Blank (e : Entry) : Prop where
  hash : e.hash = hashOf e.name
  refs : e.refs = 0
  dropped : e.dropped = false

inductive Move : View → View → Prop
  | look {v p e} (x : UInt64) : p ∈ v.kept → v.entry p = some e →
      Move v (v.set p (some { e with checkedAt := x }))
  | touch {v p} : p ∈ v.kept → Move v (v.touch p)
  | drop {v p} : p ∈ v.kept → Move v (v.drop p)
  | take {v p e} : p ∈ v.kept → v.entry p = some e → Move v (v.take p e)

def Moves : View → View → Prop := Relation.ReflTransGen Move

def nameAt (v : View) (p : Ptr) : Option (List Byte) := (v.entry p).map (·.name)

def Missing (v : View) (name : List Byte) : Prop := ∀ q ∈ v.kept, v.nameAt q ≠ some name

/-- A request up to its suspension, which may be in the reads of a file that it
`opens`. If names were in the table `once`, the file's is not there. -/
inductive Served (opens : List Byte → Prop) (once : Prop) (v : View) : View → Prop
  | done {v'} : Moves v v' → Served opens once v v'
  | loads {v' e} (req : Request) : Moves v v' → Blank e → opens e.name →
      (once → v'.Missing e.name) → Served opens once v (v'.alloc e req)

def unload (v : View) (p : Ptr) : View := { v with loading := v.loading.filter (·.1 ≠ p) }

def fill (e : Entry) (c : Content) : Entry := { e with v := c.v, bytes := c.bytes }

/-- An entry kept in front of `l`, with those behind `l` out of the table. -/
def keep (v : View) (p : Ptr) (e : Entry) (c : Content) (l out : List Ptr) : View :=
  { v.unload p with
    kept := p :: l
    entry := update (fun q => if q ∈ out then (v.entry q).bind Entry.leave else v.entry q) p
      (some (fill e c))
    clock := v.clock + 1
    stamp := update v.stamp p (v.clock + 1) }

/-- An entry that the table has no room for: dropped as it is, and read from by
its own reply at most. -/
def pass (v : View) (p : Ptr) (e : Entry) (c : Content) (req : Request) : View :=
  let e := { fill e c with dropped := true }
  let v := (v.unload p).set p (some e)
  if (req.body e).isSome then v.take p e else v

def unref (e : Entry) : Option Entry :=
  if e.refs - 1 = 0 ∧ e.dropped then none else some { e with refs := e.refs - 1 }

def release (v : View) (p : Ptr) (e : Entry) : View :=
  { v.set p (unref e) with writing := v.writing.erase p }

/-- A reply from an entry, which may have no body to send. -/
inductive Replied (p : Ptr) (v : View) : View → Prop
  | quiet : Replied p v v
  | reads {e} : v.entry p = some e → Replied p v (v.take p e)

inductive Next (cfg : Config) : View → Act → View → Prop
  | served {v v' req name disk opens once} : Served opens once v v' →
      Next cfg v (.serve req name disk) v'
  | failed {v p req room} : (p, req) ∈ v.loading →
      Next cfg v (.loaded p none room) ((v.unload p).set p none)
  | keep {v v' p req e c room l out} : (p, req) ∈ v.loading → v.entry p = some e →
      c.bytes ≤ cfg.budget → v.kept = l ++ out → Replied p (v.keep p e c l out) v' →
      Next cfg v (.loaded p (some c) room) v'
  | pass {v p req e c room} : (p, req) ∈ v.loading → v.entry p = some e →
      c.bytes > cfg.budget → Next cfg v (.loaded p (some c) room) (v.pass p e c req)
  | written {v p e} : p ∈ v.writing → v.entry p = some e → Next cfg v (.written p) (v.release p e)

-- ---------------------------------------------------------------------------
-- The invariant
-- ---------------------------------------------------------------------------

structure Inv (v : View) : Prop where
  nodup : v.kept.Nodup
  alive : ∀ p ∈ v.kept, ∃ e, v.entry p = some e ∧ e.dropped = false ∧ (e.v .plain).isSome
  order : v.kept.Pairwise fun a b => v.stamp b < v.stamp a
  clock : ∀ p ∈ v.kept, v.stamp p ≤ v.clock
  fresh : ∀ p, v.next ≤ p → v.entry p = none
  filling : ∀ task ∈ v.loading, task.1 ∉ v.kept ∧ ∃ e, v.entry task.1 = some e ∧ Blank e
  once : (v.loading.map Prod.fst).Nodup
  refs : ∀ p e, v.entry p = some e → e.refs = v.writing.count p
  reading : ∀ p ∈ v.writing, ∃ e, v.entry p = some e ∧ (p ∈ v.kept ∨ e.dropped = true)
  named : ∀ p e, v.entry p = some e → e.hash = hashOf e.name

variable {v v' : View} {p q : Ptr} {e e' : Entry}

theorem Inv.kept_lt (h : Inv v) (hp : p ∈ v.kept) : p < v.next := by
  obtain ⟨e, he, -⟩ := h.alive p hp
  by_contra hlt
  rw [h.fresh p (Nat.not_lt.mp hlt)] at he
  cases he

theorem Inv.loading_lt (h : Inv v) {req : Request} (hp : (p, req) ∈ v.loading) : p < v.next := by
  obtain ⟨-, e, he, -⟩ := h.filling _ hp
  by_contra hlt
  rw [h.fresh p (Nat.not_lt.mp hlt)] at he
  cases he

theorem Inv.loading_unique (h : Inv v) {req req' : Request} (hp : (p, req) ∈ v.loading)
    (hp' : (p, req') ∈ v.loading) : req = req' :=
  congrArg Prod.snd (List.inj_on_of_nodup_map h.once hp hp' rfl)

theorem Inv.filling_unread (h : Inv v) {req : Request} (hp : (p, req) ∈ v.loading) :
    p ∉ v.writing := by
  obtain ⟨-, e, he, hb⟩ := h.filling _ hp
  have hc := h.refs p e he
  rw [hb.refs] at hc
  exact List.count_eq_zero.mp hc.symm

/-- An entry whose own fields change, but none that the invariant reads. -/
theorem Inv.set (h : Inv v) (he : v.entry p = some e) (hd : e'.dropped = e.dropped)
    (hr : e'.refs = e.refs) (hn : e'.hash = e.hash ∧ e'.name = e.name) (hv : e'.v = e.v) :
    Inv (v.set p (some e')) := by
  have hself : (v.set p (some e')).entry p = some e' := update_self ..
  have hget : ∀ q k, (v.set p (some e')).entry q = some k → ∃ k₀, v.entry q = some k₀ ∧
      k.dropped = k₀.dropped ∧ k.refs = k₀.refs ∧ k.hash = k₀.hash ∧ k.name = k₀.name := by
    intro q k hk
    by_cases hq : q = p
    · subst hq
      obtain rfl : e' = k := Option.some.inj (hself.symm.trans hk)
      exact ⟨e, he, hd, hr, hn⟩
    · exact ⟨k, (update_of_ne hq ..).symm.trans hk, rfl, rfl, rfl, rfl⟩
  have hput : ∀ q k, v.entry q = some k → ∃ k', (v.set p (some e')).entry q = some k' ∧
      k'.dropped = k.dropped ∧ k'.refs = k.refs ∧ k'.hash = k.hash ∧ k'.name = k.name ∧
      k'.v = k.v := by
    intro q k hk
    by_cases hq : q = p
    · subst hq
      obtain rfl : e = k := Option.some.inj (he.symm.trans hk)
      exact ⟨e', hself, hd, hr, hn.1, hn.2, hv⟩
    · exact ⟨k, (update_of_ne hq ..).trans hk, rfl, rfl, rfl, rfl, rfl⟩
  refine ⟨h.nodup, ?_, h.order, h.clock, ?_, ?_, h.once, ?_, ?_, ?_⟩
  · intro q hq
    obtain ⟨k, hk, hkd, hkv⟩ := h.alive q hq
    obtain ⟨k', hk', hd', -, -, -, hv'⟩ := hput q k hk
    exact ⟨k', hk', hd'.trans hkd, by rwa [hv']⟩
  · intro q hq
    have hne : q ≠ p := by
      rintro rfl
      rw [h.fresh q hq] at he
      cases he
    exact (update_of_ne hne ..).trans (h.fresh q hq)
  · intro task ht
    obtain ⟨hk, k, hek, hb⟩ := h.filling task ht
    obtain ⟨k', hk', hd', hr', hh', hn', -⟩ := hput _ k hek
    exact ⟨hk, k', hk', by rw [hh', hn']; exact hb.hash, hr'.trans hb.refs, hd'.trans hb.dropped⟩
  · intro q k hk
    obtain ⟨k₀, hk₀, -, hr₀, -⟩ := hget q k hk
    exact hr₀.trans (h.refs q k₀ hk₀)
  · intro q hq
    obtain ⟨k, hk, ho⟩ := h.reading q hq
    obtain ⟨k', hk', hd', -⟩ := hput q k hk
    exact ⟨k', hk', by rw [hd']; exact ho⟩
  · intro q k hk
    obtain ⟨k₀, hk₀, -, -, hh₀, hn₀⟩ := hget q k hk
    rw [hh₀, hn₀]
    exact h.named q k₀ hk₀

theorem Inv.touch (h : Inv v) (hp : p ∈ v.kept) : Inv (v.touch p) := by
  have hmem : ∀ q, q ∈ p :: v.kept.erase p ↔ q ∈ v.kept := fun q => by
    rw [(List.perm_cons_erase hp).mem_iff]
  have hne : ∀ q ∈ v.kept.erase p, q ≠ p := fun q hq => ((h.nodup.mem_erase_iff).mp hq).1
  refine ⟨(List.perm_cons_erase hp).nodup_iff.mp h.nodup, ?_, ?_, ?_, h.fresh, ?_, h.once, h.refs, ?_,
    h.named⟩
  · exact fun q hq => h.alive q ((hmem q).mp hq)
  · refine List.pairwise_cons.mpr ⟨fun q hq => ?_, ?_⟩
    · have hq' := h.clock q (List.mem_of_mem_erase hq)
      simp only [View.touch, update_self, update_of_ne (hne q hq)]
      omega
    · refine (h.order.sublist List.erase_sublist).imp_of_mem fun ha hb hab => ?_
      simp only [View.touch, update_of_ne (hne _ ha), update_of_ne (hne _ hb)]
      exact hab
  · intro q hq
    by_cases hqp : q = p
    · subst hqp
      simp [View.touch]
    · have hq' := h.clock q ((hmem q).mp hq)
      simp only [View.touch, update_of_ne hqp]
      omega
  · intro task ht
    obtain ⟨hk, hex⟩ := h.filling task ht
    exact ⟨fun hm => hk ((hmem _).mp hm), hex⟩
  · intro q hq
    obtain ⟨k, hk, ho⟩ := h.reading q hq
    exact ⟨k, hk, ho.imp_left (hmem q).mpr⟩

theorem leave_some {k k' : Entry} (hk : k.leave = some k') :
    k.refs ≠ 0 ∧ k' = { k with dropped := true } := by
  unfold Entry.leave at hk
  split at hk
  · cases hk
  · rename_i h0
    exact ⟨h0, (Option.some.inj hk).symm⟩

theorem Inv.leave {l out : List Ptr} (h : Inv v) (hl : l.Sublist v.kept)
    (hmem : ∀ q, q ∈ v.kept ↔ q ∈ l ∨ q ∈ out) (hdis : ∀ q ∈ out, q ∉ l) :
    Inv { v with
      kept := l
      entry := fun q => if q ∈ out then (v.entry q).bind Entry.leave else v.entry q } := by
  have hkept : ∀ q ∈ l, q ∈ v.kept := fun q hq => (hmem q).mpr (.inl hq)
  have hin : ∀ q ∈ l, q ∉ out := fun q hq ho => hdis q ho hq
  refine ⟨h.nodup.sublist hl, ?_, h.order.sublist hl, fun q hq => h.clock q (hkept q hq), ?_, ?_, h.once,
    ?_, ?_, ?_⟩
  · intro q hq
    simp only [if_neg (hin q hq)]
    exact h.alive q (hkept q hq)
  · intro q hq
    simp [h.fresh q hq]
  · intro task ht
    obtain ⟨hk, hex⟩ := h.filling task ht
    have hko : task.1 ∉ out := fun ho => hk ((hmem _).mpr (.inr ho))
    simp only [if_neg hko]
    exact ⟨fun hm => hk (hkept _ hm), hex⟩
  · intro q k hk
    simp only at hk
    split at hk
    · obtain ⟨k₀, hk₀, hlv⟩ := Option.bind_eq_some_iff.mp hk
      obtain ⟨-, rfl⟩ := leave_some hlv
      exact h.refs q k₀ hk₀
    · exact h.refs q k hk
  · intro q hq
    obtain ⟨k, hk, ho⟩ := h.reading q hq
    simp only
    split
    · have hr := h.refs q k hk
      have hpos : 0 < v.writing.count q := List.count_pos_iff.mpr hq
      have h0 : k.refs ≠ 0 := by omega
      exact ⟨{ k with dropped := true }, by simp [hk, Entry.leave, h0], .inr rfl⟩
    · rename_i hqo
      refine ⟨k, hk, ho.imp_left fun hm => ?_⟩
      exact ((hmem q).mp hm).resolve_right hqo
  · intro q k hk
    simp only at hk
    split at hk
    · obtain ⟨k₀, hk₀, hlv⟩ := Option.bind_eq_some_iff.mp hk
      obtain ⟨-, rfl⟩ := leave_some hlv
      exact h.named q k₀ hk₀
    · exact h.named q k hk

theorem drop_eq (v : View) (p : Ptr) : v.drop p = { v with
    kept := v.kept.erase p
    entry := fun q => if q ∈ [p] then (v.entry q).bind Entry.leave else v.entry q } := by
  unfold View.drop
  congr 1
  funext q
  by_cases hq : q = p
  · subst hq
    simp
  · simp [hq]

theorem Inv.drop (h : Inv v) (hp : p ∈ v.kept) : Inv (v.drop p) := by
  rw [drop_eq]
  refine h.leave List.erase_sublist (fun q => ?_) fun q hq hm => ?_
  · rw [h.nodup.mem_erase_iff, List.mem_singleton]
    constructor
    · intro hq
      by_cases hqp : q = p
      · exact .inr hqp
      · exact .inl ⟨hqp, hq⟩
    · rintro (⟨-, hq⟩ | rfl)
      · exact hq
      · exact hp
  · rw [List.mem_singleton] at hq
    exact ((h.nodup.mem_erase_iff).mp hm).1 hq

theorem Inv.take (h : Inv v) (he : v.entry p = some e) (ho : p ∈ v.kept ∨ e.dropped = true)
    (hl : ∀ req, (p, req) ∉ v.loading) : Inv (v.take p e) := by
  have hother : ∀ q ≠ p, (v.take p e).entry q = v.entry q := fun q hq => update_of_ne hq ..
  have hself : (v.take p e).entry p = some { e with refs := e.refs + 1 } := update_self ..
  refine ⟨h.nodup, ?_, h.order, h.clock, ?_, ?_, h.once, ?_, ?_, ?_⟩
  · intro q hq
    obtain ⟨k, hk, hkd, hkv⟩ := h.alive q hq
    by_cases hqp : q = p
    · subst hqp
      obtain rfl : e = k := Option.some.inj (he.symm.trans hk)
      exact ⟨_, hself, hkd, hkv⟩
    · exact ⟨k, (hother q hqp).trans hk, hkd, hkv⟩
  · intro q hq
    have hqp : q ≠ p := by
      rintro rfl
      rw [h.fresh q hq] at he
      cases he
    exact (hother q hqp).trans (h.fresh q hq)
  · intro task ht
    obtain ⟨hk, k, hek, hb⟩ := h.filling task ht
    have hqp : task.1 ≠ p := by
      rintro rfl
      exact hl task.2 ht
    exact ⟨hk, k, (hother _ hqp).trans hek, hb⟩
  · intro q k hk
    by_cases hqp : q = p
    · subst hqp
      obtain rfl := Option.some.inj (hself.symm.trans hk)
      have hr := h.refs q e he
      simp [View.take, hr]
    · rw [hother q hqp] at hk
      have hr := h.refs q k hk
      simp [View.take, hr, List.count_cons_of_ne (Ne.symm hqp)]
  · intro q hq
    by_cases hqp : q = p
    · subst hqp
      exact ⟨_, hself, ho⟩
    · obtain ⟨k, hk, ho⟩ := h.reading q ((List.mem_cons.mp hq).resolve_left hqp)
      exact ⟨k, (hother q hqp).trans hk, ho⟩
  · intro q k hk
    by_cases hqp : q = p
    · subst hqp
      obtain rfl := Option.some.inj (hself.symm.trans hk)
      exact h.named q e he
    · exact h.named q k ((hother q hqp).symm.trans hk)

theorem Inv.alloc (h : Inv v) (hb : Blank e) (req : Request) : Inv (v.alloc e req) := by
  have hother : ∀ q ≠ v.next, (v.alloc e req).entry q = v.entry q := fun q hq => update_of_ne hq ..
  have hself : (v.alloc e req).entry v.next = some e := update_self ..
  have hnone := h.fresh v.next le_rfl
  have hput : ∀ q k, v.entry q = some k → (v.alloc e req).entry q = some k := by
    intro q k hk
    have hq : q ≠ v.next := by
      rintro rfl
      rw [hnone] at hk
      cases hk
    exact (hother q hq).trans hk
  have hkept : v.next ∉ v.kept := fun hm => lt_irrefl _ (h.kept_lt hm)
  have hload : ∀ r, (v.next, r) ∉ v.loading := fun r hm => lt_irrefl _ (h.loading_lt hm)
  have hwrite : v.next ∉ v.writing := by
    intro hm
    obtain ⟨k, hk, -⟩ := h.reading _ hm
    rw [hnone] at hk
    cases hk
  refine ⟨h.nodup, ?_, h.order, h.clock, ?_, ?_, ?_, ?_, ?_, ?_⟩
  · intro q hq
    obtain ⟨k, hk, hkd⟩ := h.alive q hq
    exact ⟨k, hput q k hk, hkd⟩
  · intro q hq
    have hlt : v.next < q := hq
    exact (hother q hlt.ne').trans (h.fresh q hlt.le)
  · intro task ht
    rcases List.mem_cons.mp ht with rfl | ht
    · exact ⟨hkept, e, hself, hb⟩
    · obtain ⟨hk, k, hek, hbk⟩ := h.filling task ht
      exact ⟨hk, k, hput _ k hek, hbk⟩
  · refine List.nodup_cons.mpr ⟨fun hm => ?_, h.once⟩
    obtain ⟨task, ht, he⟩ := List.mem_map.mp hm
    have hn : task.1 = v.next := he
    exact hload task.2 (by rw [← hn]; exact ht)
  · intro q k hk
    by_cases hq : q = v.next
    · subst hq
      obtain rfl := Option.some.inj (hself.symm.trans hk)
      rw [hb.refs]
      exact (List.count_eq_zero.mpr hwrite).symm
    · exact h.refs q k ((hother q hq).symm.trans hk)
  · intro q hq
    obtain ⟨k, hk, ho⟩ := h.reading q hq
    exact ⟨k, hput q k hk, ho⟩
  · intro q k hk
    by_cases hq : q = v.next
    · subst hq
      obtain rfl := Option.some.inj (hself.symm.trans hk)
      exact hb.hash
    · exact h.named q k ((hother q hq).symm.trans hk)

theorem Inv.move (h : Inv v) (hm : Move v v') : Inv v' := by
  cases hm with
  | look x hp he => exact h.set he rfl rfl ⟨rfl, rfl⟩ rfl
  | touch hp => exact h.touch hp
  | drop hp => exact h.drop hp
  | take hp he => exact h.take he (.inl hp) fun req hl => (h.filling _ hl).1 hp

theorem Replied.moves (h : Replied p v v') (hp : p ∈ v.kept) : Moves v v' := by
  cases h with
  | quiet => exact .refl
  | reads he => exact .single (.take hp he)

theorem Inv.moves (h : Inv v) (hm : Moves v v') : Inv v' := by
  induction hm with
  | refl => exact h
  | tail _ hm ih => exact ih.move hm

theorem Inv.served {opens : List Byte → Prop} {once : Prop} (h : Inv v)
    (hs : Served opens once v v') : Inv v' := by
  cases hs with
  | done hm => exact h.moves hm
  | loads req hm hb => exact (h.moves hm).alloc hb req

theorem mem_unload {task : Ptr × Request} :
    task ∈ (v.unload p).loading ↔ task ∈ v.loading ∧ task.1 ≠ p := by
  simp [unload, List.mem_filter]

theorem Inv.unload (h : Inv v) (p : Ptr) : Inv (v.unload p) :=
  ⟨h.nodup, h.alive, h.order, h.clock, h.fresh, fun task ht => h.filling task (mem_unload.mp ht).1,
    h.once.sublist (List.filter_sublist.map _), h.refs, h.reading, h.named⟩

/-- An entry that is in no structure and read from by nobody can be anything. -/
theorem Inv.put {x : Option Entry} (h : Inv v) (hp : p < v.next) (hk : p ∉ v.kept)
    (hl : ∀ req, (p, req) ∉ v.loading) (hw : p ∉ v.writing)
    (hx : ∀ e, x = some e → e.refs = 0 ∧ e.hash = hashOf e.name) : Inv (v.set p x) := by
  have hother : ∀ q ≠ p, (v.set p x).entry q = v.entry q := fun q hq => update_of_ne hq ..
  have hself : (v.set p x).entry p = x := update_self ..
  refine ⟨h.nodup, ?_, h.order, h.clock, ?_, ?_, h.once, ?_, ?_, ?_⟩
  · intro q hq
    rw [hother q fun e => hk (e ▸ hq)]
    exact h.alive q hq
  · intro q hq
    have hle : v.next ≤ q := hq
    rw [hother q (hp.trans_le hle).ne']
    exact h.fresh q hle
  · intro task ht
    have hne : task.1 ≠ p := by
      rintro rfl
      exact hl task.2 ht
    rw [hother _ hne]
    exact h.filling task ht
  · intro q k hq
    by_cases hqp : q = p
    · subst hqp
      rw [hself] at hq
      rw [(hx k hq).1]
      exact (List.count_eq_zero.mpr hw).symm
    · rw [hother q hqp] at hq
      exact h.refs q k hq
  · intro q hq
    rw [hother q fun e => hw (e ▸ hq)]
    exact h.reading q hq
  · intro q k hq
    by_cases hqp : q = p
    · subst hqp
      rw [hself] at hq
      exact (hx k hq).2
    · rw [hother q hqp] at hq
      exact h.named q k hq

variable {req : Request} {c : Content} {l out : List Ptr}

theorem not_unloaded (req : Request) : (p, req) ∉ (v.unload p).loading := fun hm =>
  (mem_unload.mp hm).2 rfl

theorem Inv.failed (h : Inv v) (hl : (p, req) ∈ v.loading) : Inv ((v.unload p).set p none) :=
  (h.unload p).put (h.loading_lt hl) (h.filling _ hl).1 not_unloaded (h.filling_unread hl) (by simp)

theorem Inv.keep (h : Inv v) (hl : (p, req) ∈ v.loading) (he : v.entry p = some e)
    (hk : v.kept = l ++ out) : Inv (v.keep p e c l out) := by
  obtain ⟨hout, k, hek, hb⟩ := h.filling _ hl
  obtain rfl : e = k := Option.some.inj (he.symm.trans hek)
  have hlt := h.loading_lt hl
  have hnd := h.nodup
  have hpk : p ∉ v.kept := hout
  rw [hk] at hnd hpk
  obtain ⟨-, -, hdis⟩ := List.nodup_append.mp hnd
  have h₁ := @Inv.leave (v.unload p) l out (h.unload p) (by
      show l.Sublist v.kept
      rw [hk]
      exact List.sublist_append_left ..)
    (fun q => by
      show q ∈ v.kept ↔ _
      rw [hk, List.mem_append])
    (fun q hq hm => hdis q hm q hq rfl)
  have hpl : p ∉ l := fun hm => hpk (List.mem_append_left _ hm)
  have h₂ := @Inv.put _ p (some (fill e c)) h₁ hlt hpl not_unloaded (h.filling_unread hl) (by
    rintro k ⟨⟩
    exact ⟨hb.refs, hb.hash⟩)
  have hne : ∀ q ∈ l, q ≠ p := fun q hq e => hpl (e ▸ hq)
  -- the entry in front of what is left
  refine ⟨List.nodup_cons.mpr ⟨hpl, h₂.nodup⟩, ?_, ?_, ?_, h₂.fresh, ?_, h₂.once, h₂.refs, ?_, h₂.named⟩
  · intro q hq
    rcases List.mem_cons.mp hq with rfl | hq
    · have hself : (v.keep q e c l out).entry q = some (fill e c) := by simp [View.keep]
      exact ⟨fill e c, hself, hb.dropped, rfl⟩
    · exact h₂.alive q hq
  · refine List.pairwise_cons.mpr ⟨fun q hq => ?_, ?_⟩
    · have hc := h₂.clock q hq
      simp only [View.keep, update_self, update_of_ne (hne q hq)]
      exact Nat.lt_succ_of_le hc
    · refine h₂.order.imp_of_mem fun ha hb hab => ?_
      simp only [View.keep, update_of_ne (hne _ ha), update_of_ne (hne _ hb)]
      exact hab
  · intro q hq
    rcases List.mem_cons.mp hq with rfl | hq
    · simp [View.keep]
    · have hc := h₂.clock q hq
      simp only [View.keep, update_of_ne (hne q hq)]
      exact Nat.le_succ_of_le hc
  · intro task ht
    obtain ⟨hm, hex⟩ := h₂.filling task ht
    refine ⟨fun hm' => ?_, hex⟩
    rcases List.mem_cons.mp hm' with he | hm'
    · exact (mem_unload.mp ht).2 he
    · exact hm hm'
  · intro q hq
    obtain ⟨k, hek, ho⟩ := h₂.reading q hq
    exact ⟨k, hek, ho.imp_left (List.mem_cons_of_mem p)⟩

theorem Inv.pass (h : Inv v) (hl : (p, req) ∈ v.loading) (he : v.entry p = some e) :
    Inv (v.pass p e c req) := by
  obtain ⟨hout, k, hek, hb⟩ := h.filling _ hl
  obtain rfl : e = k := Option.some.inj (he.symm.trans hek)
  have h₁ := @Inv.put _ p (some { fill e c with dropped := true }) (h.unload p) (h.loading_lt hl) hout
    not_unloaded (h.filling_unread hl) (by
      rintro k ⟨⟩
      exact ⟨hb.refs, hb.hash⟩)
  unfold View.pass
  simp only
  split
  · exact h₁.take (update_self ..) (.inr rfl) not_unloaded
  · exact h₁

theorem Inv.release (h : Inv v) (hw : p ∈ v.writing) (he : v.entry p = some e) :
    Inv (v.release p e) := by
  have hr := h.refs p e he
  have hpos : 0 < v.writing.count p := List.count_pos_iff.mpr hw
  have hother : ∀ q ≠ p, (v.release p e).entry q = v.entry q := fun q hq => update_of_ne hq ..
  have hself : (v.release p e).entry p = unref e := update_self ..
  -- an entry of the table is not dropped, and so not freed
  have hstay : e.dropped = false → unref e = some { e with refs := e.refs - 1 } := by
    intro hd
    simp [unref, hd]
  have hunref : ∀ k, unref e = some k → k = { e with refs := e.refs - 1 } := by
    intro k hk
    unfold unref at hk
    split at hk
    · cases hk
    · exact (Option.some.inj hk).symm
  refine ⟨h.nodup, ?_, h.order, h.clock, ?_, ?_, h.once, ?_, ?_, ?_⟩
  · intro q hq
    obtain ⟨k, hk, hkd, hkv⟩ := h.alive q hq
    by_cases hqp : q = p
    · subst hqp
      obtain rfl : e = k := Option.some.inj (he.symm.trans hk)
      exact ⟨_, hself.trans (hstay hkd), hkd, hkv⟩
    · exact ⟨k, (hother q hqp).trans hk, hkd, hkv⟩
  · intro q hq
    have hqp : q ≠ p := by
      rintro rfl
      rw [h.fresh q hq] at he
      cases he
    exact (hother q hqp).trans (h.fresh q hq)
  · intro task ht
    have hqp : task.1 ≠ p := by
      rintro rfl
      exact h.filling_unread ht hw
    rw [hother _ hqp]
    exact h.filling task ht
  · intro q k hk
    by_cases hqp : q = p
    · subst hqp
      rw [hunref k (hself.symm.trans hk)]
      simp [View.release, hr]
    · rw [hother q hqp] at hk
      rw [h.refs q k hk]
      exact (List.count_erase_of_ne hqp).symm
  · intro q hq
    have hq' : q ∈ v.writing.erase p := hq
    obtain ⟨k, hk, ho⟩ := h.reading q (List.mem_of_mem_erase hq')
    by_cases hqp : q = p
    · subst hqp
      obtain rfl : e = k := Option.some.inj (he.symm.trans hk)
      have hmore : 0 < (v.writing.erase q).count q := List.count_pos_iff.mpr hq'
      rw [List.count_erase_self] at hmore
      have h0 : ¬ e.refs - 1 = 0 := by omega
      exact ⟨{ e with refs := e.refs - 1 }, hself.trans (by simp [unref, h0]), ho⟩
    · exact ⟨k, (hother q hqp).trans hk, ho⟩
  · intro q k hk
    by_cases hqp : q = p
    · subst hqp
      rw [hunref k (hself.symm.trans hk)]
      exact h.named q e he
    · exact h.named q k ((hother q hqp).symm.trans hk)

theorem Inv.next {cfg : Config} {a : Act} (h : Inv v) (hn : Next cfg v a v') : Inv v' := by
  cases hn with
  | served hs => exact h.served hs
  | failed hl => exact h.failed hl
  | keep hl he _ hk hm => exact (h.keep hl he hk).moves (hm.moves (List.mem_cons_self ..))
  | pass hl he _ => exact h.pass hl he
  | written hw he => exact h.release hw he

-- ---------------------------------------------------------------------------
-- Names
-- ---------------------------------------------------------------------------

def Distinct (v : View) : Prop := (v.kept.map v.nameAt).Nodup

theorem nameAt_set (v : View) {e : Entry} {x : Option Entry} (he : v.entry p = some e)
    (hx : x.map (·.name) = some e.name) : (v.set p x).nameAt = v.nameAt := by
  funext q
  unfold nameAt View.set
  by_cases hq : q = p
  · subst hq
    simp [he, hx]
  · simp [hq]

theorem Distinct.subperm (h : Distinct v) (hk : v'.kept.Subperm v.kept)
    (hn : ∀ p ∈ v'.kept, v'.nameAt p = v.nameAt p) : Distinct v' := by
  obtain ⟨l, hp, hs⟩ := hk
  unfold Distinct
  rw [List.map_congr_left hn]
  exact (hp.map _).nodup_iff.mp (h.sublist (hs.map _))

/-- What a move leaves of the names: those of the entries that stay in the table,
and those of the entries that were not in it. -/
theorem Move.names (hi : Inv v) (hm : Move v v') : v'.kept.Subperm v.kept ∧
    v'.loading = v.loading ∧ ∀ q, q ∈ v'.kept ∨ q ∉ v.kept → v'.nameAt q = v.nameAt q := by
  cases hm with
  | look x hp he => exact ⟨.refl _, rfl, fun q _ => congrFun (nameAt_set v he rfl) q⟩
  | touch hp => exact ⟨(List.perm_cons_erase hp).symm.subperm, rfl, fun _ _ => rfl⟩
  | @drop p hp =>
    refine ⟨List.erase_sublist.subperm, rfl, fun q hq => ?_⟩
    have hne : q ≠ p := by
      rcases hq with hq | hq
      · exact ((hi.nodup.mem_erase_iff).mp hq).1
      · exact fun e => hq (e ▸ hp)
    simp [nameAt, View.drop, update_of_ne hne]
  | take hp he => exact ⟨.refl _, rfl, fun q _ => congrFun (nameAt_set v he rfl) q⟩

theorem Distinct.move (hi : Inv v) (h : Distinct v) (hm : Move v v') : Distinct v' := by
  obtain ⟨hk, -, hn⟩ := hm.names hi
  exact h.subperm hk fun q hq => hn q (.inl hq)

theorem Distinct.moves (hi : Inv v) (h : Distinct v) (hm : Moves v v') : Distinct v' := by
  induction hm with
  | refl => exact h
  | tail hms hm ih => exact ih.move (hi.moves hms) hm

theorem Distinct.missing_drop {name : List Byte} (hi : Inv v) (h : Distinct v) (hp : p ∈ v.kept)
    (hn : v.nameAt p = some name) : (v.drop p).Missing name := by
  intro q hq hname
  obtain ⟨hne, hk⟩ := (hi.nodup.mem_erase_iff).mp hq
  have hsame : (v.drop p).nameAt q = v.nameAt q := by simp [nameAt, View.drop, update_of_ne hne]
  exact hne (List.inj_on_of_nodup_map h hk hp (hsame.symm.trans (hname.trans hn.symm)))

end View

end Ioxd.Files
