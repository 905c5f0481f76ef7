import Ioxd.Files.Table
import Ioxd.Lib.Links
import Mathlib.Data.List.Nodup
import Mathlib.Data.Nat.Bitwise
import Mathlib.Algebra.BigOperators.Group.List.Basic

/-!
# What the table keeps

The entries of a table are one list, newest first: linked both ways, chained in
the bucket that the hash selects, counted and summed. Each operation is given
by what it does to that list and to the entries without their links.
-/

namespace Ioxd.Files

open Function (update update_self update_of_ne update_eq_self)
open Links (Seg Dll setLink orLink)
open Ioxd.Pipe (Byte)

variable {heap heap' : Heap} {p q : Ptr} {e e' : Entry}

def link (g : Entry → Option Ptr) (heap : Heap) (p : Ptr) : Option Ptr := (heap p).bind g

theorem link_eq (h : heap p = some e) (g : Entry → Option Ptr) : link g heap p = g e := by
  simp [link, h]

theorem link_update (g : Entry → Option Ptr) (heap : Heap) (p : Ptr) (e : Entry) :
    link g (update heap p (some e)) = update (link g heap) p (g e) := by
  funext q
  by_cases h : q = p
  · subst h
    simp [link]
  · simp [link, h]

theorem link_same (h : heap p = some e) {g : Entry → Option Ptr} (hg : g e' = g e) :
    link g (update heap p (some e')) = link g heap := by
  rw [link_update, hg, ← link_eq h g, update_eq_self]

def Entry.core (e : Entry) : Entry := { e with chain := none, newer := none, older := none }

def cores (heap : Heap) : Heap := fun p => (heap p).map Entry.core

theorem cores_same (h : heap p = some e) (hc : e'.core = e.core) :
    cores (update heap p (some e')) = cores heap := by
  funext q
  by_cases hq : q = p
  · subst hq
    simp [cores, h, hc]
  · simp [cores, hq]

theorem cores_some (hc : cores heap' = cores heap) (h : heap p = some e) :
    ∃ e', heap' p = some e' ∧ e'.core = e.core := by
  have hp := congrFun hc p
  simp only [cores, h, Option.map_some] at hp
  exact Option.map_eq_some_iff.mp hp

theorem map_cores {β : Type} {g : Entry → β} (hc : cores heap' = cores heap) (p : Ptr)
    (hg : ∀ e : Entry, g e.core = g e) : (heap' p).map g = (heap p).map g := by
  have hp := congrArg (Option.map g) (congrFun hc p)
  simp only [cores, Option.map_map] at hp
  have hcomp : g ∘ Entry.core = g := funext hg
  rwa [hcomp] at hp

/-- What the two structures read of an entry. -/
def Entry.shape (e : Entry) : Option Ptr × Option Ptr × Option Ptr × UInt32 × Nat × Bool :=
  (e.chain, e.newer, e.older, e.hash, e.bytes, e.dropped)

/-- An entry that has left the table: freed, unless a reply reads from it. -/
def Entry.leave (e : Entry) : Option Entry := if e.refs = 0 then none else some { e with dropped := true }

theorem cores_update (heap : Heap) (p : Ptr) (x : Option Entry) :
    cores (update heap p x) = update (cores heap) p (x.map Entry.core) := by
  funext q
  by_cases hq : q = p
  · subst hq
    simp [cores]
  · simp [cores, hq]

namespace Table

variable {t t' t'' : Table} {l xs ys : List Ptr}

-- ---------------------------------------------------------------------------
-- Recency
-- ---------------------------------------------------------------------------

def Recent (t : Table) (l : List Ptr) : Prop :=
  Dll (link (·.newer) t.heap) (link (·.older) t.heap) t.newest t.oldest l

def Alive (t : Table) (l : List Ptr) : Prop := ∀ p ∈ l, ∃ e, t.heap p = some e

structure Relinked (t t' : Table) : Prop where
  chain : link (·.chain) t'.heap = link (·.chain) t.heap
  cores : cores t'.heap = cores t.heap
  buckets : t'.buckets = t.buckets
  count : t'.count = t.count
  bytes : t'.bytes = t.bytes
  budget : t'.budget = t.budget

theorem Relinked.refl (t : Table) : Relinked t t := ⟨rfl, rfl, rfl, rfl, rfl, rfl⟩

theorem Relinked.trans (h : Relinked t t') (h' : Relinked t' t'') : Relinked t t'' :=
  ⟨h'.chain.trans h.chain, h'.cores.trans h.cores, h'.buckets.trans h.buckets,
    h'.count.trans h.count, h'.bytes.trans h.bytes, h'.budget.trans h.budget⟩

theorem Alive.of_cores (h : Alive t l) (hc : cores t'.heap = cores t.heap) : Alive t' l := by
  intro p hp
  obtain ⟨e, he⟩ := h p hp
  obtain ⟨e', he', -⟩ := cores_some hc he
  exact ⟨e', he'⟩

theorem modify_eq (h : t.heap p = some e) (f : Entry → Entry) :
    t.modify p f = some { t with heap := update t.heap p (some (f e)) } := by
  simp [modify, h]

theorem relinked_set (h : t.heap p = some e) (hc : e'.core = e.core) (hl : e'.chain = e.chain) :
    Relinked t { t with heap := update t.heap p (some e') } :=
  ⟨link_same h hl, cores_same h hc, rfl, rfl, rfl, rfl⟩

theorem recencyOut_spec (h : Recent t (xs ++ p :: ys)) (ha : Alive t (xs ++ p :: ys)) :
    ∃ t', t.recencyOut p = some t' ∧ Relinked t t' ∧ Recent t' (xs ++ ys) := by
  obtain ⟨e, he⟩ := ha p (by simp)
  have hnd := h.nodup
  have hp : p ∉ xs ++ ys := by
    rw [List.nodup_append, List.nodup_cons] at hnd
    rw [List.mem_append, not_or]
    exact ⟨fun hm => hnd.2.2 p hm p (List.mem_cons_self ..) rfl, hnd.2.1.1⟩
  have hout := h.out
  have hnew := h.newer_eq
  have hold := h.older_eq
  rw [link_eq he] at hnew hold
  rw [link_eq he, link_eq he] at hout
  -- the neighbour towards the newest, or the end there
  obtain ⟨t₁, h₁, hr₁, hn₁, ho₁, hnw₁, hod₁⟩ : ∃ t₁,
      t.setOlder e.newer e.older = some t₁ ∧ Relinked t t₁ ∧
      t₁.newest = orLink e.newer t.newest e.older ∧ t₁.oldest = t.oldest ∧
      link (·.newer) t₁.heap = link (·.newer) t.heap ∧
      link (·.older) t₁.heap = setLink (link (·.older) t.heap) e.newer e.older := by
    cases hq : e.newer with
    | none => exact ⟨_, rfl, ⟨rfl, rfl, rfl, rfl, rfl, rfl⟩, rfl, rfl, rfl, rfl⟩
    | some q =>
      have hm : q ∈ xs := List.mem_of_getLast? (hnew.symm.trans hq)
      obtain ⟨e₁, he₁⟩ := ha q (List.mem_append_left _ hm)
      exact ⟨_, modify_eq he₁ _, relinked_set he₁ rfl rfl, rfl, rfl, link_same he₁ rfl,
        link_update _ _ _ _⟩
  have ha₁ := ha.of_cores hr₁.cores
  -- the neighbour towards the oldest
  obtain ⟨t₂, h₂, hr₂, hn₂, ho₂, hnw₂, hod₂⟩ : ∃ t₂,
      t₁.setNewer e.older e.newer = some t₂ ∧ Relinked t₁ t₂ ∧
      t₂.newest = t₁.newest ∧ t₂.oldest = orLink e.older t₁.oldest e.newer ∧
      link (·.newer) t₂.heap = setLink (link (·.newer) t₁.heap) e.older e.newer ∧
      link (·.older) t₂.heap = link (·.older) t₁.heap := by
    cases hq : e.older with
    | none => exact ⟨_, rfl, ⟨rfl, rfl, rfl, rfl, rfl, rfl⟩, rfl, rfl, rfl, rfl⟩
    | some q =>
      have hm : q ∈ ys := List.mem_of_mem_head? (hold.symm.trans hq)
      obtain ⟨e₁, he₁⟩ := ha₁ q (by simp [hm])
      exact ⟨_, modify_eq he₁ _, relinked_set he₁ rfl rfl, rfl, rfl, link_update _ _ _ _,
        link_same he₁ rfl⟩
  obtain ⟨e₂, he₂⟩ := ha₁.of_cores hr₂.cores p (by simp)
  have hr₃ := @relinked_set p e₂ { e₂ with newer := none, older := none } t₂ he₂ rfl rfl
  refine ⟨_, ?_, (hr₁.trans hr₂).trans hr₃, ?_⟩
  · simp only [recencyOut, he, h₁, h₂, modify_eq he₂, Option.bind_eq_bind, Option.bind_some]
  · have hd : Dll (link (·.newer) t₂.heap) (link (·.older) t₂.heap) t₂.newest t₂.oldest
        (xs ++ ys) := by
      rw [hnw₂, hod₂, hn₂, ho₂, hnw₁, hod₁, hn₁, ho₁]
      exact hout
    unfold Recent
    simp only [link_update]
    exact ⟨hd.down.update_notMem hp _, hd.up.update_notMem (fun hm => hp (List.mem_reverse.mp hm)) _⟩

theorem recencyIn_spec (h : Recent t l) (ha : Alive t l) (hp : p ∉ l) (he : t.heap p = some e) :
    ∃ t', t.recencyIn p = some t' ∧ Relinked t t' ∧ Recent t' (p :: l) := by
  have hin := h.into hp
  obtain ⟨t₁, h₁, hr₁, ho₁, hnw₁, hod₁⟩ : ∃ t₁,
      t.modify p ({ · with older := t.newest, newer := none }) = some t₁ ∧ Relinked t t₁ ∧
      t₁.oldest = t.oldest ∧
      link (·.newer) t₁.heap = update (link (·.newer) t.heap) p none ∧
      link (·.older) t₁.heap = update (link (·.older) t.heap) p t.newest :=
    ⟨_, modify_eq he _, relinked_set he rfl rfl, rfl, link_update _ _ _ _, link_update _ _ _ _⟩
  obtain ⟨t₂, h₂, hr₂, ho₂, hnw₂, hod₂⟩ : ∃ t₂, t₁.setFront t.newest p = some t₂ ∧
      Relinked t₁ t₂ ∧ t₂.oldest = t₁.oldest ∧
      link (·.newer) t₂.heap = setLink (link (·.newer) t₁.heap) t.newest (some p) ∧
      link (·.older) t₂.heap = link (·.older) t₁.heap := by
    cases hq : t.newest with
    | none => exact ⟨_, rfl, .refl _, rfl, rfl, rfl⟩
    | some q =>
      have hm : q ∈ l := List.mem_of_mem_head? (h.newest_eq.symm.trans hq)
      obtain ⟨e₁, he₁⟩ := ha.of_cores hr₁.cores q hm
      exact ⟨_, modify_eq he₁ _, relinked_set he₁ rfl rfl, rfl, link_update _ _ _ _,
        link_same he₁ rfl⟩
  refine ⟨{ t₂ with newest := some p, oldest := orLink t.oldest t.oldest (some p) }, ?_,
    (hr₁.trans hr₂).trans ⟨rfl, rfl, rfl, rfl, rfl, rfl⟩, ?_⟩
  · simp only [recencyIn, h₁, h₂, Option.bind_eq_bind, Option.bind_some, ho₂, ho₁]
    cases t.oldest <;> rfl
  · unfold Recent
    simp only
    rw [hnw₂, hod₂, hnw₁, hod₁]
    exact hin

-- ---------------------------------------------------------------------------
-- The whole of it
-- ---------------------------------------------------------------------------

def hashAt (t : Table) (p : Ptr) : UInt32 := ((t.heap p).map (·.hash)).getD 0

def bytesAt (t : Table) (p : Ptr) : Nat := ((t.heap p).map (·.bytes)).getD 0

/-- The bucket that an entry's hash selects. -/
def home (t : Table) (p : Ptr) : Nat := slot t.buckets.length (t.hashAt p)

/-- Each entry of the list is in the chain of its home, and in no other. -/
def Chained (t : Table) (l : List Ptr) : Prop :=
  ∀ i < t.buckets.length, ∃ c, Seg (link (·.chain) t.heap) (t.bucket i) c none ∧
    ∀ p, p ∈ c ↔ p ∈ l ∧ t.home p = i

/-- The table is this list of entries, newest first: each alive and not
dropped, chained, linked in this order, counted and summed within the budget. -/
structure Rep (t : Table) (l : List Ptr) : Prop where
  size : ∃ k, t.buckets.length = 2 ^ k
  chained : Chained t l
  alive : ∀ p ∈ l, ∃ e, t.heap p = some e ∧ e.dropped = false
  recent : Recent t l
  count : t.count = l.length
  bytes : t.bytes = (l.map t.bytesAt).sum
  within : t.bytes ≤ t.budget

theorem hashAt_congr (hc : cores t'.heap = cores t.heap) : t'.hashAt = t.hashAt := by
  funext p
  unfold hashAt
  rw [map_cores hc p fun _ => rfl]

theorem bytesAt_congr (hc : cores t'.heap = cores t.heap) : t'.bytesAt = t.bytesAt := by
  funext p
  unfold bytesAt
  rw [map_cores hc p fun _ => rfl]

theorem Rep.living (h : Rep t l) : Alive t l := fun p hp => by
  obtain ⟨e, he, -⟩ := h.alive p hp
  exact ⟨e, he⟩

theorem alive_congr (h : ∀ p ∈ l, ∃ e, t.heap p = some e ∧ e.dropped = false)
    (hc : cores t'.heap = cores t.heap) : ∀ p ∈ l, ∃ e, t'.heap p = some e ∧ e.dropped = false := by
  intro p hp
  obtain ⟨e, he, hd⟩ := h p hp
  obtain ⟨e', he', hc'⟩ := cores_some hc he
  have hx := congrArg Entry.dropped hc'
  exact ⟨e', he', hx.trans hd⟩

theorem slot_lt {k : Nat} (hash : UInt32) : slot (2 ^ k) hash < 2 ^ k := by
  unfold slot
  rw [Nat.and_two_pow_sub_one_eq_mod]
  exact Nat.mod_lt _ (Nat.two_pow_pos k)

theorem Rep.home_lt (h : Rep t l) (p : Ptr) : t.home p < t.buckets.length := by
  obtain ⟨k, hk⟩ := h.size
  unfold home
  rw [hk]
  exact slot_lt _

theorem Chained.congr (h : Chained t l) (hb : t'.buckets = t.buckets)
    (hl : ∀ p ∈ l, link (·.chain) t'.heap p = link (·.chain) t.heap p)
    (hh : ∀ p ∈ l, t'.hashAt p = t.hashAt p) : Chained t' l := by
  intro i hi
  rw [hb] at hi
  obtain ⟨c, hseg, hc⟩ := h i hi
  refine ⟨c, ?_, fun q => ?_⟩
  · have hs := hseg.congr fun p hp => hl p ((hc p).mp hp).1
    unfold bucket at hs ⊢
    rwa [hb]
  · rw [hc]
    refine and_congr_right fun hq => ?_
    unfold home
    rw [hh q hq, hb]

theorem Chained.perm (h : Chained t l) {l' : List Ptr} (hm : ∀ q, q ∈ l' ↔ q ∈ l) :
    Chained t l' := by
  intro i hi
  obtain ⟨c, hseg, hc⟩ := h i hi
  exact ⟨c, hseg, fun q => (hc q).trans (and_congr_left' (hm q).symm)⟩

theorem Relinked.chained (hr : Relinked t t') (h : Chained t l) : Chained t' l :=
  h.congr hr.buckets (fun p _ => by rw [hr.chain]) fun p _ => by rw [hashAt_congr hr.cores]

theorem erase_mid (hnd : (xs ++ p :: ys).Nodup) :
    p ∉ xs ++ ys ∧ (xs ++ p :: ys).erase p = xs ++ ys := by
  rw [List.nodup_append, List.nodup_cons] at hnd
  have hx : p ∉ xs := fun hm => hnd.2.2 p hm p (List.mem_cons_self ..) rfl
  exact ⟨by simp [hx, hnd.2.1.1], by rw [List.erase_append_right _ hx, List.erase_cons_head]⟩

theorem touch_spec (h : Rep t l) (hp : p ∈ l) : ∃ t', t.touch p = some t' ∧
    Rep t' (p :: l.erase p) ∧ cores t'.heap = cores t.heap ∧ t'.budget = t.budget := by
  unfold touch
  split
  · obtain ⟨xs, ys, rfl⟩ := List.append_of_mem hp
    obtain ⟨hpx, he⟩ := erase_mid h.recent.nodup
    obtain ⟨t₁, h₁, hr₁, hl₁⟩ := recencyOut_spec h.recent h.living
    have ha₁ : Alive t₁ (xs ++ p :: ys) := h.living.of_cores hr₁.cores
    obtain ⟨e₁, he₁⟩ := ha₁ p (by simp)
    obtain ⟨t₂, h₂, hr₂, hl₂⟩ := @recencyIn_spec p e₁ t₁ (xs ++ ys) hl₁
      (fun q hq => ha₁ q (by simp only [List.mem_append, List.mem_cons] at hq ⊢; tauto)) hpx he₁
    have hr := hr₁.trans hr₂
    have hmem : ∀ q, q ∈ p :: (xs ++ ys) ↔ q ∈ xs ++ p :: ys := by
      intro q
      simp only [List.mem_append, List.mem_cons]
      tauto
    refine ⟨t₂, by simp only [h₁, h₂, Option.bind_eq_bind, Option.bind_some], ?_, hr.cores,
      hr.budget⟩
    rw [he]
    refine ⟨by rw [hr.buckets]; exact h.size, (hr.chained h.chained).perm hmem, ?_, hl₂, ?_, ?_, ?_⟩
    · intro q hq
      exact alive_congr h.alive hr.cores q ((hmem q).mp hq)
    · rw [hr.count, h.count]
      simp only [List.length_append, List.length_cons]
      omega
    · rw [hr.bytes, h.bytes, bytesAt_congr hr.cores]
      simp only [List.map_append, List.map_cons, List.sum_append, List.sum_cons]
      omega
    · rw [hr.bytes, hr.budget]
      exact h.within
  · rename_i hn
    rw [not_not] at hn
    have hh := h.recent.newest_eq
    cases l with
    | nil => cases hp
    | cons a l =>
      obtain rfl : p = a := Option.some.inj (hn.symm.trans hh)
      rw [List.erase_cons_head]
      exact ⟨t, rfl, h, rfl, rfl⟩

-- ---------------------------------------------------------------------------
-- Leaving
-- ---------------------------------------------------------------------------

/-- The place of an entry in a chain: the link of the one before it, or the
chain's own start. -/
def placeOf (xs : List Ptr) (start : At) : At :=
  match xs.getLast? with
  | some b => .chain b
  | none => start

theorem findAt_spec {place : At} {q : Option Ptr} {turns : Nat} (hd : t.deref place = some q)
    (hs : Seg (link (·.chain) t.heap) q (xs ++ p :: ys) none) (ha : Alive t xs) (hp : p ∉ xs)
    (hn : xs.length < turns) : t.findAt p turns place = some (placeOf xs place) := by
  induction xs generalizing place q turns with
  | nil =>
    obtain ⟨turns, rfl⟩ : ∃ n, turns = n + 1 := ⟨turns - 1, by simp at hn; omega⟩
    obtain ⟨rfl, -⟩ := hs
    simp [findAt, hd, placeOf]
  | cons b xs ih =>
    obtain ⟨turns, rfl⟩ : ∃ n, turns = n + 1 := ⟨turns - 1, by simp at hn; omega⟩
    obtain ⟨rfl, hs⟩ := hs
    obtain ⟨eb, heb⟩ := ha b (List.mem_cons_self ..)
    have hb : b ≠ p := fun e => hp (by simp [e])
    rw [link_eq heb] at hs
    have hrec := @ih (.chain b) eb.chain turns (by simp [deref, heb]) hs
      (fun q hq => ha q (List.mem_cons_of_mem _ hq)) (fun hm => hp (List.mem_cons_of_mem _ hm))
      (by simp at hn; omega)
    have hlast : placeOf (b :: xs) place = placeOf xs (.chain b) := by
      unfold placeOf
      rw [List.getLast?_cons]
      cases xs.getLast? <;> rfl
    rw [hlast, ← hrec]
    simp [findAt, hd, hb]

structure Rechained (t t' : Table) : Prop where
  newer : link (·.newer) t'.heap = link (·.newer) t.heap
  older : link (·.older) t'.heap = link (·.older) t.heap
  cores : cores t'.heap = cores t.heap
  newest : t'.newest = t.newest
  oldest : t'.oldest = t.oldest
  count : t'.count = t.count
  bytes : t'.bytes = t.bytes
  budget : t'.budget = t.budget

theorem Rechained.refl (t : Table) : Rechained t t := ⟨rfl, rfl, rfl, rfl, rfl, rfl, rfl, rfl⟩

theorem Rechained.recent (hr : Rechained t t') (h : Recent t l) : Recent t' l := by
  unfold Recent
  rw [hr.newer, hr.older, hr.newest, hr.oldest]
  exact h

theorem Chained.replace {l' : List Ptr} (h : Chained t l) (i : Nat)
    (hlen : t'.buckets.length = t.buckets.length) (hr : cores t'.heap = cores t.heap)
    (hi : ∃ c, Seg (link (·.chain) t'.heap) (t'.bucket i) c none ∧
      ∀ q, q ∈ c ↔ q ∈ l' ∧ t.home q = i)
    (hj : ∀ j ≠ i, t'.bucket j = t.bucket j)
    (hl : ∀ q ∈ l, t.home q ≠ i → link (·.chain) t'.heap q = link (·.chain) t.heap q)
    (hm : ∀ q, t.home q ≠ i → (q ∈ l' ↔ q ∈ l)) : Chained t' l' := by
  have hhome : t'.home = t.home := by
    funext q
    unfold home
    rw [hashAt_congr hr, hlen]
  intro j hlt
  rw [hlen] at hlt
  rw [hhome]
  by_cases hji : j = i
  · exact hji ▸ hi
  · obtain ⟨c, hseg, hc⟩ := h j hlt
    refine ⟨c, ?_, fun q => ?_⟩
    · rw [hj j hji]
      refine hseg.congr fun q hq => ?_
      obtain ⟨hq, hqj⟩ := (hc q).mp hq
      exact hl q hq fun e => hji (hqj.symm.trans e)
    · rw [hc]
      refine and_congr_left fun hqj => ?_
      exact (hm q fun e => hji (hqj.symm.trans e)).symm

theorem bucket_set (t : Table) {i : Nat} (hi : i < t.buckets.length) (v : Option Ptr) (j : Nat) :
    { t with buckets := t.buckets.set i v }.bucket j = if j = i then v else t.bucket j := by
  unfold bucket
  by_cases hj : j = i
  · subst hj
    simp [List.getD_eq_getElem?_getD, hi]
  · simp [List.getD_eq_getElem?_getD, List.getElem?_set_ne (Ne.symm hj), hj]

/-- The chain without the entry, once the link in front of it is set. -/
theorem setAt_spec (h : Rep t l) (hp : p ∈ l) (he : t.heap p = some e) :
    ∃ place t', t.findAt p t.count (.bucket (slot t.buckets.length e.hash)) = some place ∧
      t.setAt place e.chain = some t' ∧ Chained t' (l.erase p) ∧ Rechained t t' ∧
      t'.buckets.length = t.buckets.length := by
  have hnd := h.recent.nodup
  have hhome : t.home p = slot t.buckets.length e.hash := by simp [home, hashAt, he]
  rw [← hhome]
  have hi := h.home_lt p
  obtain ⟨c, hseg, hc⟩ := h.chained (t.home p) hi
  have hcnd := hseg.nodup
  have hmc : ∀ q ∈ c, q ∈ l := fun q hq => ((hc q).mp hq).1
  obtain ⟨xs, ys, rfl⟩ := List.append_of_mem ((hc p).mpr ⟨hp, rfl⟩)
  obtain ⟨hpx, -⟩ := erase_mid hcnd
  have hlen : xs.length < t.count := by
    have hle := (List.subperm_of_subset hcnd hmc).length_le
    rw [h.count]
    simp only [List.length_append, List.length_cons] at hle
    omega
  have hfind := @findAt_spec p t xs ys (.bucket (t.home p)) _ t.count rfl hseg
    (fun q hq => h.living q (hmc q (List.mem_append_left _ hq)))
    (fun hm => hpx (List.mem_append_left _ hm)) hlen
  have hmem : ∀ q, q ∈ xs ++ ys ↔ q ∈ l.erase p ∧ t.home q = t.home p := by
    intro q
    rw [hnd.mem_erase_iff]
    have hq := hc q
    simp only [List.mem_append, List.mem_cons] at hq hpx ⊢
    constructor
    · intro hm
      have hne : q ≠ p := fun e => hpx (e ▸ hm)
      have := hq.mp (by tauto)
      tauto
    · rintro ⟨⟨hne, hm⟩, hho⟩
      have := hq.mpr ⟨hm, hho⟩
      tauto
  have hother : ∀ q, t.home q ≠ t.home p → (q ∈ l.erase p ↔ q ∈ l) := by
    intro q hq
    rw [hnd.mem_erase_iff, and_iff_right]
    rintro rfl
    exact hq rfl
  rcases List.eq_nil_or_concat xs with rfl | ⟨zs, b, rfl⟩
  · -- first in its bucket
    refine ⟨_, { t with buckets := t.buckets.set (t.home p) e.chain }, hfind, rfl, ?_,
      ⟨rfl, rfl, rfl, rfl, rfl, rfl, rfl, rfl⟩, List.length_set⟩
    refine h.chained.replace (t.home p) List.length_set rfl ⟨ys, ?_, hmem⟩ (fun j hj => ?_)
      (fun _ _ _ => rfl) hother
    · rw [bucket_set t hi, if_pos rfl, ← link_eq he (·.chain)]
      exact hseg.2
    · rw [bucket_set t hi, if_neg hj]
  · rw [List.concat_eq_append] at *
    have hb : b ∈ l ∧ t.home b = t.home p := (hc b).mp (by simp)
    obtain ⟨eb, heb⟩ := h.living b hb.1
    refine ⟨_, { t with heap := update t.heap b (some { eb with chain := e.chain }) }, hfind, ?_, ?_,
      ⟨link_same heb rfl, link_same heb rfl, cores_same heb rfl, rfl, rfl, rfl, rfl, rfl⟩, rfl⟩
    · simp [placeOf, setAt, modify_eq heb]
    · refine h.chained.replace (t.home p) rfl (cores_same heb rfl) ⟨_, ?_, hmem⟩ (fun _ _ => rfl)
        (fun q _ hq => ?_) hother
      · rw [link_update, ← link_eq he (·.chain)]
        rw [List.append_assoc] at hseg ⊢
        exact hseg.unlink
      · have hne : q ≠ b := fun e => hq (e ▸ hb.2)
        rw [link_update, update_of_ne hne]

/-- `unlink_entry` finds the entry, and takes it out of both structures. -/
theorem unlinkEntry_spec (h : Rep t l) (hp : p ∈ l) : ∃ t', t.unlinkEntry p = some t' ∧
    Rep t' (l.erase p) ∧ cores t'.heap = cores t.heap ∧ t'.budget = t.budget := by
  obtain ⟨e, he⟩ := h.living p hp
  obtain ⟨place, t₁, hfind, h₁, hc₁, hr₁, hlen₁⟩ := setAt_spec h hp he
  have hnd := h.recent.nodup
  obtain ⟨xs, ys, rfl⟩ := List.append_of_mem hp
  obtain ⟨hpx, herase⟩ := erase_mid hnd
  rw [herase] at hc₁ ⊢
  obtain ⟨t₂, h₂, hr₂, hl₂⟩ := recencyOut_spec (hr₁.recent h.recent) (h.living.of_cores hr₁.cores)
  have hcores := hr₂.cores.trans hr₁.cores
  have hsum : t.bytes = e.bytes + ((xs ++ ys).map t.bytesAt).sum := by
    have hb : t.bytesAt p = e.bytes := by simp [bytesAt, he]
    rw [h.bytes]
    simp only [List.map_append, List.map_cons, List.sum_append, List.sum_cons, hb]
    omega
  refine ⟨{ t₂ with bytes := t₂.bytes - e.bytes, count := t₂.count - 1 }, ?_, ?_, hcores,
    hr₂.budget.trans hr₁.budget⟩
  · simp only [unlinkEntry, he, hfind, h₁, h₂, Option.bind_eq_bind, Option.bind_some]
  · refine ⟨?_, ?_, ?_, hl₂, ?_, ?_, ?_⟩
    · simp only [hr₂.buckets, hlen₁]
      exact h.size
    · exact (hr₂.chained hc₁).congr rfl (fun _ _ => rfl) fun _ _ => rfl
    · intro q hq
      refine alive_congr h.alive hcores q ?_
      simp only [List.mem_append, List.mem_cons] at hq ⊢
      tauto
    · simp only [hr₂.count, hr₁.count, h.count, List.length_append, List.length_cons]
      omega
    · have hb : bytesAt { t₂ with bytes := t₂.bytes - e.bytes, count := t₂.count - 1 } =
          t.bytesAt := bytesAt_congr hcores
      rw [hb]
      simp only [hr₂.bytes, hr₁.bytes]
      omega
    · have hw := h.within
      simp only [hr₂.bytes, hr₁.bytes, hr₂.budget, hr₁.budget]
      omega

theorem Rep.setHeap (h : Rep t l)
    (hs : ∀ q ∈ l, (heap' q).map Entry.shape = (t.heap q).map Entry.shape) :
    Rep { t with heap := heap' } l := by
  have hp : ∀ q ∈ l, ∃ e e', t.heap q = some e ∧ heap' q = some e' ∧ e'.shape = e.shape := by
    intro q hq
    obtain ⟨e, he⟩ := h.living q hq
    have hm := hs q hq
    rw [he] at hm
    obtain ⟨e', he', hc⟩ := Option.map_eq_some_iff.mp hm
    exact ⟨e, e', he, he', hc⟩
  have hl : ∀ (g : Entry → Option Ptr), (∀ e e' : Entry, e'.shape = e.shape → g e' = g e) →
      ∀ q ∈ l, link g heap' q = link g t.heap q := by
    intro g hg q hq
    obtain ⟨e, e', he, he', hc⟩ := hp q hq
    rw [link_eq he, link_eq he', hg e e' hc]
  refine ⟨h.size, ?_, ?_, ?_, h.count, ?_, h.within⟩
  · refine h.chained.congr rfl (hl _ fun e e' hc => congrArg (·.1) hc) fun q hq => ?_
    obtain ⟨e, e', he, he', hc⟩ := hp q hq
    have hx : e'.hash = e.hash := congrArg (·.2.2.2.1) hc
    simp [hashAt, he, he', hx]
  · intro q hq
    obtain ⟨e, e', he, he', hc⟩ := hp q hq
    obtain ⟨e₀, he₀, hd⟩ := h.alive q hq
    obtain rfl : e = e₀ := Option.some.inj (he.symm.trans he₀)
    exact ⟨e', he', (congrArg (·.2.2.2.2.2) hc).trans hd⟩
  · exact h.recent.congr (hl _ fun e e' hc => congrArg (·.2.1) hc)
      (hl _ fun e e' hc => congrArg (·.2.2.1) hc)
  · rw [h.bytes]
    refine congrArg List.sum (List.map_congr_left fun q hq => ?_)
    obtain ⟨e, e', he, he', hc⟩ := hp q hq
    have hx : e'.bytes = e.bytes := congrArg (·.2.2.2.2.1) hc
    simp [bytesAt, he, he', hx]

theorem Rep.setOutside (h : Rep t l) (hp : p ∉ l) (x : Option Entry) :
    Rep { t with heap := update t.heap p x } l := by
  refine h.setHeap fun q hq => ?_
  have hne : q ≠ p := fun e => hp (e ▸ hq)
  rw [update_of_ne hne]

theorem Rep.setEntry (h : Rep t l) (he : t.heap p = some e) (hs : e'.shape = e.shape) :
    Rep { t with heap := update t.heap p (some e') } l := by
  refine h.setHeap fun q _ => ?_
  by_cases hq : q = p
  · subst hq
    simp [he, hs]
  · rw [update_of_ne hq]

theorem drop_spec (h : Rep t l) (hp : p ∈ l) : ∃ t', t.drop p = some t' ∧ Rep t' (l.erase p) ∧
    cores t'.heap = update (cores t.heap) p ((cores t.heap p).bind Entry.leave) ∧
    t'.budget = t.budget := by
  obtain ⟨t₁, h₁, hr₁, hc₁, hb₁⟩ := unlinkEntry_spec h hp
  obtain ⟨e, he⟩ := h.living p hp
  obtain ⟨e₁, he₁, hcore⟩ := cores_some hc₁ he
  have hx := congrArg Entry.refs hcore
  have hrefs : e₁.refs = e.refs := hx
  have hout : p ∉ l.erase p := by
    rw [h.recent.nodup.mem_erase_iff]
    tauto
  have hk : cores t.heap p = some e.core := by simp [cores, he]
  by_cases h0 : e.refs = 0
  · refine ⟨{ t₁ with heap := update t₁.heap p none }, ?_, hr₁.setOutside hout none, ?_, hb₁⟩
    · simp [drop, h₁, modify_eq he₁, hrefs, h0, entryFree]
    · rw [cores_update, hc₁, hk]
      simp [Entry.leave, Entry.core, h0]
  · refine ⟨{ t₁ with heap := update t₁.heap p (some { e₁ with dropped := true }) }, ?_,
      hr₁.setOutside hout _, ?_, hb₁⟩
    · simp [drop, h₁, modify_eq he₁, hrefs, h0]
    · have hd : ({ e₁ with dropped := true } : Entry).core = { e.core with dropped := true } := by
        rw [← hcore]
        rfl
      rw [cores_update, hc₁, hk, Option.map_some, hd]
      simp [Entry.leave, Entry.core, h0]

theorem makeRoomLoop_spec {turns need : Nat} (h : Rep t l) (hn : l.length ≤ turns)
    (hneed : need ≤ t.budget) : ∃ t' l' out, makeRoomLoop turns t need = some t' ∧ l = l' ++ out ∧
      Rep t' l' ∧
      (∀ q, cores t'.heap q = if q ∈ out then (cores t.heap q).bind Entry.leave else cores t.heap q) ∧
      t'.budget = t.budget ∧ t'.bytes + need ≤ t.budget := by
  induction turns generalizing t l with
  | zero =>
    obtain rfl : l = [] := List.length_eq_zero_iff.mp (by omega)
    have ho : t.oldest = none := h.recent.oldest_eq
    have hb : t.bytes = 0 := h.bytes
    refine ⟨t, [], [], ?_, rfl, h, by simp, rfl, by omega⟩
    simp [makeRoomLoop, ho]
  | succ turns ih =>
    have ho := h.recent.oldest_eq
    rcases List.eq_nil_or_concat l with rfl | ⟨l₀, p, rfl⟩
    · have hb : t.bytes = 0 := h.bytes
      refine ⟨t, [], [], ?_, rfl, h, by simp, rfl, by omega⟩
      have ho' : t.oldest = none := ho
      simp [makeRoomLoop, ho']
    · rw [List.concat_eq_append] at *
      rw [List.getLast?_concat] at ho
      by_cases hfit : t.bytes + need > t.budget
      · obtain ⟨t₁, h₁, hr₁, hc₁, hb₁⟩ := @drop_spec p t (l₀ ++ [p]) h (by simp)
        obtain ⟨hp, herase⟩ := @erase_mid p l₀ [] h.recent.nodup
        rw [List.append_nil] at hp herase
        rw [herase] at hr₁
        obtain ⟨t₂, l', out, h₂, rfl, hr₂, hc₂, hb₂, hf₂⟩ := ih hr₁
          (by simp only [List.length_append, List.length_singleton] at hn; omega) (by omega)
        refine ⟨t₂, l', out ++ [p], ?_, by simp, hr₂, ?_, by omega, by omega⟩
        · rw [makeRoomLoop.eq_def]
          simp only [ho, hfit, if_true, h₁, Option.bind_eq_bind, Option.bind_some, h₂]
        · intro q
          rw [hc₂, hc₁]
          by_cases hq : q = p
          · subst hq
            have hqo : q ∉ out := fun hm => hp (by simp [hm])
            simp [hqo]
          · simp [hq]
      · refine ⟨t, l₀ ++ [p], [], ?_, by simp, h, by simp, rfl, by omega⟩
        rw [makeRoomLoop.eq_def]
        simp only [ho, hfit, if_false]

theorem makeRoom_spec {need : Nat} (h : Rep t l) (hneed : need ≤ t.budget) : ∃ t' l' out,
    t.makeRoom need = some t' ∧ l = l' ++ out ∧ Rep t' l' ∧
      (∀ q, cores t'.heap q =
        if q ∈ out then (cores t.heap q).bind Entry.leave else cores t.heap q) ∧
      t'.budget = t.budget ∧ t'.bytes + need ≤ t.budget :=
  makeRoomLoop_spec h h.count.ge hneed

-- ---------------------------------------------------------------------------
-- Entering
-- ---------------------------------------------------------------------------

def chainIn (t : Table) (p : Ptr) (e : Entry) : Table :=
  { t with
    heap := update t.heap p (some { e with chain := t.bucket (t.home p) })
    buckets := t.buckets.set (t.home p) (some p) }

theorem chainIn_chained (h : Chained t l) (hp : p ∉ l) (he : t.heap p = some e)
    (hi : t.home p < t.buckets.length) : Chained (t.chainIn p e) (p :: l) := by
  obtain ⟨c, hseg, hc⟩ := h _ hi
  have hpc : p ∉ c := fun hm => hp ((hc p).mp hm).1
  have hb : ∀ j, (t.chainIn p e).bucket j = if j = t.home p then some p else t.bucket j :=
    bucket_set t hi (some p)
  refine h.replace (t.home p) List.length_set (cores_same he rfl) ⟨p :: c, ?_, fun q => ?_⟩ (fun j hj => ?_)
    (fun q hq _ => ?_) fun q hq => ?_
  · rw [hb, if_pos rfl]
    unfold chainIn
    simp only [link_update]
    exact hseg.push hpc
  · rw [List.mem_cons, List.mem_cons, hc]
    constructor
    · rintro (rfl | ⟨hm, hq⟩)
      · exact ⟨.inl rfl, rfl⟩
      · exact ⟨.inr hm, hq⟩
    · rintro ⟨rfl | hm, hq⟩
      · exact .inl rfl
      · exact .inr ⟨hm, hq⟩
  · rw [hb, if_neg hj]
  · have hne : q ≠ p := fun e => hp (e ▸ hq)
    unfold chainIn
    simp only [link_update]
    rw [update_of_ne hne]
  · rw [List.mem_cons, or_iff_right]
    rintro rfl
    exact hq rfl

theorem chainIn_rechained (he : t.heap p = some e) : Rechained t (t.chainIn p e) :=
  ⟨link_same he rfl, link_same he rfl, cores_same he rfl, rfl, rfl, rfl, rfl, rfl⟩

theorem chainIn_length (t : Table) (p : Ptr) (e : Entry) :
    (t.chainIn p e).buckets.length = t.buckets.length := List.length_set

theorem Rechained.trans (h : Rechained t t') (h' : Rechained t' t'') : Rechained t t'' :=
  ⟨h'.newer.trans h.newer, h'.older.trans h.older, h'.cores.trans h.cores,
    h'.newest.trans h.newest, h'.oldest.trans h.oldest, h'.count.trans h.count,
    h'.bytes.trans h.bytes, h'.budget.trans h.budget⟩

theorem home_lt_of {k : Nat} (hk : t.buckets.length = 2 ^ k) (p : Ptr) :
    t.home p < t.buckets.length := by
  unfold home
  rw [hk]
  exact slot_lt _

/-- A chain of the old buckets, `c`, goes into the new ones; a link of an entry
that is not in it stays. -/
theorem rehash_spec {turns k : Nat} {start : Option Ptr} {c : List Ptr}
    (hk : t.buckets.length = 2 ^ k) (hs : Seg (link (·.chain) t.heap) start c none)
    (ha : Alive t c) (hd : ∀ q ∈ c, q ∉ l) (hn : c.length ≤ turns) (h : Chained t l) :
    ∃ t' l', rehash t.buckets.length turns t.heap t.buckets start = some (t'.heap, t'.buckets) ∧
      Chained t' l' ∧ (∀ q, q ∈ l' ↔ q ∈ c ∨ q ∈ l) ∧ Rechained t t' ∧
      t'.buckets.length = t.buckets.length ∧
      ∀ q ∉ c, link (·.chain) t'.heap q = link (·.chain) t.heap q := by
  induction c generalizing t l start turns with
  | nil =>
    obtain rfl : start = none := hs
    exact ⟨t, l, by simp [rehash], h, by simp, .refl t, rfl, fun _ _ => rfl⟩
  | cons p c ih =>
    obtain ⟨turns, rfl⟩ : ∃ n, turns = n + 1 := ⟨turns - 1, by simp at hn; omega⟩
    obtain ⟨e, he⟩ := ha p (List.mem_cons_self ..)
    have hpc := (List.nodup_cons.mp hs.nodup).1
    obtain ⟨rfl, hs⟩ := hs
    have hp := hd p (List.mem_cons_self ..)
    have hi := home_lt_of hk p
    have hr := @chainIn_rechained p e t he
    have hlen := t.chainIn_length p e
    have hs₁ : Seg (link (·.chain) (t.chainIn p e).heap) e.chain c none := by
      unfold chainIn
      simp only [link_update]
      rw [link_eq he] at hs
      exact hs.update_notMem hpc _
    obtain ⟨t', l', h', hc', hm', hr', hlen', hl'⟩ := @ih (t.chainIn p e) (p :: l) turns e.chain
      (hlen.trans hk) hs₁
      (fun q hq => ha.of_cores hr.cores q (List.mem_cons_of_mem _ hq))
      (fun q hq => by
        rw [List.mem_cons, not_or]
        exact ⟨fun e => hpc (e ▸ hq), hd q (List.mem_cons_of_mem _ hq)⟩)
      (by simp at hn; omega) (chainIn_chained h hp he hi)
    refine ⟨t', l', ?_, hc', fun q => ?_, hr.trans hr', hlen'.trans hlen, fun q hq => ?_⟩
    · rw [← h', hlen]
      have hhome : slot t.buckets.length e.hash = t.home p := by simp [home, hashAt, he]
      simp only [rehash, he, Option.bind_eq_bind, Option.bind_some, hhome]
      rfl
    · rw [hm', List.mem_cons, List.mem_cons]
      tauto
    · rw [List.mem_cons, not_or] at hq
      rw [hl' q hq.2]
      unfold chainIn
      simp only [link_update]
      rw [update_of_ne hq.1]

theorem rehash_all {turns k : Nat} {bs : List (Option Ptr)} {cs : List (List Ptr)}
    (hk : t.buckets.length = 2 ^ k)
    (hs : List.Forall₂ (fun b c => Seg (link (·.chain) t.heap) b c none) bs cs)
    (hnd : cs.flatten.Nodup) (ha : Alive t cs.flatten) (hd : ∀ q ∈ cs.flatten, q ∉ l)
    (hn : ∀ c ∈ cs, c.length ≤ turns) (h : Chained t l) :
    ∃ t' l', bs.foldlM (fun (heap, buckets) b => rehash t.buckets.length turns heap buckets b)
        (t.heap, t.buckets) = some (t'.heap, t'.buckets) ∧
      Chained t' l' ∧ (∀ q, q ∈ l' ↔ q ∈ cs.flatten ∨ q ∈ l) ∧ Rechained t t' ∧
      t'.buckets.length = t.buckets.length := by
  induction bs generalizing t l cs with
  | nil =>
    cases hs
    exact ⟨t, l, rfl, h, by simp, .refl t, rfl⟩
  | cons b bs ih =>
    obtain ⟨c, cs, hb, hbs, rfl⟩ := List.forall₂_cons_left_iff.mp hs
    rw [List.flatten_cons] at hnd ha hd
    obtain ⟨-, hnd', hdis⟩ := List.nodup_append.mp hnd
    have hsub : ∀ d ∈ cs, ∀ q ∈ d, q ∈ cs.flatten := fun d hd q hq =>
      List.mem_flatten.mpr ⟨d, hd, hq⟩
    obtain ⟨t₁, l₁, h₁, hc₁, hm₁, hr₁, hlen₁, hl₁⟩ := rehash_spec hk hb
      (fun q hq => ha q (List.mem_append_left _ hq)) (fun q hq => hd q (List.mem_append_left _ hq))
      (hn c (List.mem_cons_self ..)) h
    -- the chains that are still to come have none of the entries just moved
    have hs₁ : List.Forall₂ (fun b c => Seg (link (·.chain) t₁.heap) b c none) bs cs := by
      rw [List.forall₂_iff_get] at hbs ⊢
      refine ⟨hbs.1, fun i hi hi' => (hbs.2 i hi hi').congr fun q hq => hl₁ q fun hqc => ?_⟩
      exact hdis q hqc q (hsub _ (List.get_mem cs ⟨i, hi'⟩) q hq) rfl
    obtain ⟨t₂, l₂, h₂, hc₂, hm₂, hr₂, hlen₂⟩ := @ih t₁ l₁ cs (hlen₁.trans hk) hs₁ hnd'
      (fun q hq => ha.of_cores hr₁.cores q (List.mem_append_right _ hq))
      (fun q hq hm => by
        rcases (hm₁ q).mp hm with hqc | hql
        · exact hdis q hqc q hq rfl
        · exact hd q (List.mem_append_right _ hq) hql)
      (fun d hd => hn d (List.mem_cons_of_mem _ hd)) hc₁
    refine ⟨t₂, l₂, ?_, hc₂, fun q => ?_, hr₁.trans hr₂, hlen₂.trans hlen₁⟩
    · rw [hlen₁] at h₂
      simp only [List.foldlM_cons, h₁, Option.bind_eq_bind, Option.bind_some, h₂]
    · rw [hm₂, hm₁, List.flatten_cons, List.mem_append]
      tauto

theorem Rep.chains (h : Rep t l) : ∃ cs : List (List Ptr),
    List.Forall₂ (fun b c => Seg (link (·.chain) t.heap) b c none) t.buckets cs ∧
      cs.flatten.Nodup ∧ (∀ q, q ∈ cs.flatten ↔ q ∈ l) ∧ ∀ c ∈ cs, c.length ≤ t.count := by
  have hex : ∀ i, ∃ c, i < t.buckets.length → Seg (link (·.chain) t.heap) (t.bucket i) c none ∧
      ∀ p, p ∈ c ↔ p ∈ l ∧ t.home p = i := by
    intro i
    by_cases hi : i < t.buckets.length
    · obtain ⟨c, hc⟩ := h.chained i hi
      exact ⟨c, fun _ => hc⟩
    · exact ⟨[], fun hlt => absurd hlt hi⟩
  choose f hf using hex
  refine ⟨(List.range t.buckets.length).map f, ?_, ?_, fun q => ?_, ?_⟩
  · rw [List.forall₂_iff_get]
    refine ⟨by simp, fun i hi hi' => ?_⟩
    have hs := (hf i hi).1
    simpa [bucket, List.getD_eq_getElem?_getD, hi] using hs
  · rw [List.nodup_flatten]
    refine ⟨?_, ?_⟩
    · simp only [List.mem_map, List.mem_range]
      rintro c ⟨i, hi, rfl⟩
      exact (hf i hi).1.nodup
    · rw [List.pairwise_map]
      refine List.pairwise_lt_range.imp_of_mem ?_
      intro i j hi hj hlt q hqi hqj
      rw [List.mem_range] at hi hj
      have h1 := (((hf i hi).2 q).mp hqi).2
      have h2 := (((hf j hj).2 q).mp hqj).2
      omega
  · simp only [List.mem_flatten, List.mem_map, List.mem_range]
    constructor
    · rintro ⟨_, ⟨i, hi, rfl⟩, hq⟩
      exact (((hf i hi).2 q).mp hq).1
    · intro hq
      have hi := h.home_lt q
      exact ⟨_, ⟨_, hi, rfl⟩, ((hf _ hi).2 q).mpr ⟨hq, rfl⟩⟩
  · simp only [List.mem_map, List.mem_range]
    rintro c ⟨i, hi, rfl⟩
    rw [h.count]
    exact (List.subperm_of_subset (hf i hi).1.nodup
      fun q hq => (((hf i hi).2 q).mp hq).1).length_le

theorem grow_spec (h : Rep t l) (room : Bool) : ∃ t', t.grow room = some t' ∧ Rep t' l ∧
    cores t'.heap = cores t.heap ∧ t'.budget = t.budget ∧ t'.bytes = t.bytes := by
  unfold grow
  split
  · exact ⟨t, rfl, h, rfl, rfl, rfl⟩
  · obtain ⟨cs, hs, hnd, hmem, hn⟩ := h.chains
    obtain ⟨k, hk⟩ := h.size
    let t₀ : Table := { t with buckets := List.replicate (t.buckets.length * 2) none }
    have hlen : t₀.buckets.length = t.buckets.length * 2 := List.length_replicate
    have hempty : Chained t₀ [] := by
      intro i _
      refine ⟨[], ?_, by simp⟩
      unfold bucket Seg
      rw [List.getD_eq_getElem?_getD, List.getElem?_replicate]
      split <;> rfl
    obtain ⟨t', l', h', hc', hm', hr', hlen'⟩ := @rehash_all t₀ [] t.count (k + 1) t.buckets cs
      (by rw [hlen, hk, pow_succ]) hs hnd (fun q hq => h.living q ((hmem q).mp hq)) (by simp) hn
      hempty
    have hfold : t.buckets.foldlM
        (fun (heap, buckets) b => rehash (t.buckets.length * 2) t.count heap buckets b)
        (t.heap, List.replicate (t.buckets.length * 2) none) = some (t'.heap, t'.buckets) := by
      rw [← h', hlen]
    refine ⟨{ t with heap := t'.heap, buckets := t'.buckets }, ?_, ?_, hr'.cores, rfl, rfl⟩
    · simp only [hfold, Option.bind_eq_bind, Option.bind_some]
    · refine ⟨⟨k + 1, ?_⟩, ?_, alive_congr h.alive hr'.cores, ?_, h.count, ?_, h.within⟩
      · simp only [hlen', hlen, hk, pow_succ]
      · refine (hc'.perm fun q => ?_).congr rfl (fun _ _ => rfl) fun _ _ => rfl
        rw [hm', hmem]
        simp
      · have hrec := hr'.recent (h.recent : Recent t₀ l)
        unfold Recent at hrec ⊢
        rw [hr'.newest, hr'.oldest] at hrec
        exact hrec
      · have hb : bytesAt { t with heap := t'.heap, buckets := t'.buckets } = t.bytesAt :=
          bytesAt_congr hr'.cores
        rw [hb]
        exact h.bytes

theorem insert_spec (h : Rep t l) (hp : p ∉ l) (he : t.heap p = some e) (hd : e.dropped = false)
    (hfit : t.bytes + e.bytes ≤ t.budget) (room : Bool) : ∃ t', t.insert p room = some t' ∧
      Rep t' (p :: l) ∧ cores t'.heap = cores t.heap ∧ t'.budget = t.budget := by
  obtain ⟨t₁, h₁, hr₁, hc₁, hb₁, hy₁⟩ : ∃ t₁,
      (if t.count ≥ t.buckets.length then t.grow room else some t) = some t₁ ∧ Rep t₁ l ∧
      cores t₁.heap = cores t.heap ∧ t₁.budget = t.budget ∧ t₁.bytes = t.bytes := by
    split
    · exact grow_spec h room
    · exact ⟨t, rfl, h, rfl, rfl, rfl⟩
  obtain ⟨e₁, he₁, hcore⟩ := cores_some hc₁ he
  have hx := congrArg Entry.bytes hcore
  have hd₁ := congrArg Entry.dropped hcore
  have hbytes : e₁.bytes = e.bytes := hx
  have hr₂ := @chainIn_rechained p e₁ t₁ he₁
  have hch := chainIn_chained hr₁.chained hp he₁ (hr₁.home_lt p)
  have ha₂ : Alive (t₁.chainIn p e₁) l := hr₁.living.of_cores hr₂.cores
  obtain ⟨t₃, h₃, hr₃, hl₃⟩ := recencyIn_spec (hr₂.recent hr₁.recent) ha₂ hp (update_self ..)
  have hcores := (hr₃.cores.trans hr₂.cores).trans hc₁
  have hlen : t₃.buckets.length = t₁.buckets.length := by rw [hr₃.buckets, chainIn_length]
  refine ⟨{ t₃ with bytes := t₃.bytes + e₁.bytes, count := t₃.count + 1 }, ?_, ?_, hcores,
    (hr₃.budget.trans hr₂.budget).trans hb₁⟩
  · have hhome : slot t₁.buckets.length e₁.hash = t₁.home p := by simp [home, hashAt, he₁]
    unfold insert
    simp only [h₁, he₁, modify_eq he₁, hhome, Option.bind_eq_bind, Option.bind_some]
    unfold chainIn at h₃
    rw [h₃]
    rfl
  · refine ⟨?_, ?_, ?_, hl₃, ?_, ?_, ?_⟩
    · simp only [hlen]
      exact hr₁.size
    · exact (hr₃.chained hch).congr rfl (fun _ _ => rfl) fun _ _ => rfl
    · refine @alive_congr t _ _ (fun q hq => ?_) hcores
      rcases List.mem_cons.mp hq with rfl | hq
      · exact ⟨e, he, hd⟩
      · exact h.alive q hq
    · simp only [hr₃.count, hr₂.count, hr₁.count, List.length_cons]
    · have hb : bytesAt { t₃ with bytes := t₃.bytes + e₁.bytes, count := t₃.count + 1 } =
          t.bytesAt := bytesAt_congr hcores
      have hbp : t.bytesAt p = e.bytes := by simp [bytesAt, he]
      have hsum := h.bytes
      rw [hb]
      simp only [hr₃.bytes, hr₂.bytes, List.map_cons, List.sum_cons]
      omega
    · simp only [hr₃.bytes, hr₂.bytes, hr₃.budget, hr₂.budget]
      omega

-- ---------------------------------------------------------------------------
-- Looking one up
-- ---------------------------------------------------------------------------

theorem lookupLoop_spec {name : List Byte} {hash : UInt32} {turns : Nat} {start : Option Ptr}
    {c : List Ptr} (hs : Seg (link (·.chain) t.heap) start c none) (ha : Alive t c)
    (hn : c.length ≤ turns) : ∃ r, t.lookupLoop name hash turns start = some r ∧
      (r = none → ∀ q ∈ c, ∀ e, t.heap q = some e → ¬ (e.hash = hash ∧ e.name = name)) ∧
      ∀ p, r = some p → p ∈ c ∧ ∃ e, t.heap p = some e ∧ e.hash = hash ∧ e.name = name := by
  induction c generalizing start turns with
  | nil =>
    obtain rfl : start = none := hs
    exact ⟨none, by simp [lookupLoop], by simp, by simp⟩
  | cons b c ih =>
    obtain ⟨turns, rfl⟩ : ∃ n, turns = n + 1 := ⟨turns - 1, by simp at hn; omega⟩
    obtain ⟨rfl, hs⟩ := hs
    obtain ⟨e, he⟩ := ha b (List.mem_cons_self ..)
    rw [link_eq he] at hs
    by_cases hm : e.hash = hash ∧ e.name = name
    · refine ⟨some b, by simp [lookupLoop, he, hm], by simp, ?_⟩
      rintro p hp
      obtain rfl := Option.some.inj hp
      exact ⟨List.mem_cons_self .., e, he, hm⟩
    · obtain ⟨r, h₁, hnone, hsome⟩ := ih hs (fun q hq => ha q (List.mem_cons_of_mem _ hq))
        (by simpa using hn)
      refine ⟨r, by simp [lookupLoop, he, hm, h₁], fun hr q hq e' he' => ?_, fun p hp => ?_⟩
      · rcases List.mem_cons.mp hq with rfl | hq
        · obtain rfl : e = e' := Option.some.inj (he.symm.trans he')
          exact hm
        · exact hnone hr q hq e' he'
      · obtain ⟨hq, hex⟩ := hsome p hp
        exact ⟨List.mem_cons_of_mem _ hq, hex⟩

/-- A name that is found is of an entry of the table, and one that is not found
is of none. -/
theorem lookup_spec (h : Rep t l) (name : List Byte) (hash : UInt32) :
    ∃ r, t.lookup name hash = some r ∧
      (r = none → ∀ q ∈ l, ∀ e, t.heap q = some e → ¬ (e.hash = hash ∧ e.name = name)) ∧
      ∀ p, r = some p → p ∈ l ∧ ∃ e, t.heap p = some e ∧ e.hash = hash ∧ e.name = name := by
  obtain ⟨k, hk⟩ := h.size
  have hi : slot t.buckets.length hash < t.buckets.length := by
    rw [hk]
    exact slot_lt hash
  obtain ⟨c, hseg, hc⟩ := h.chained _ hi
  have hmc : ∀ q ∈ c, q ∈ l := fun q hq => ((hc q).mp hq).1
  have hlen : c.length ≤ t.count := by
    rw [h.count]
    exact (List.subperm_of_subset hseg.nodup hmc).length_le
  obtain ⟨r, h₁, hnone, hsome⟩ := @lookupLoop_spec t name hash t.count _ c hseg
    (fun q hq => h.living q (hmc q hq)) hlen
  refine ⟨r, h₁, fun hr q hq e he hm => ?_, fun p hp => ?_⟩
  · refine hnone hr q ((hc q).mpr ⟨hq, ?_⟩) e he hm
    simp [home, hashAt, he, hm.1]
  · obtain ⟨hq, hex⟩ := hsome p hp
    exact ⟨hmc p hq, hex⟩

-- ---------------------------------------------------------------------------
-- The entries of a table
-- ---------------------------------------------------------------------------

theorem Rep.unique {l' : List Ptr} (h : Rep t l) (h' : Rep t l') : l = l' :=
  h.recent.down.unique h'.recent.down

/-- The table holds an entry. -/
def Holds (t : Table) (p : Ptr) : Prop := ∃ l, Rep t l ∧ p ∈ l

theorem Rep.holds_iff (h : Rep t l) : t.Holds p ↔ p ∈ l := by
  constructor
  · rintro ⟨l', h', hp⟩
    rwa [h.unique h']
  · intro hp
    exact ⟨l, h, hp⟩

theorem Rep.holds_newest (h : Rep t l) (hp : t.newest = some p) : t.Holds p :=
  h.holds_iff.mpr (List.mem_of_mem_head? (h.recent.newest_eq.symm.trans hp))

theorem Rep.holds_older (h : Rep t l) (hp : t.Holds p) (hq : link (·.older) t.heap p = some q) :
    t.Holds q := by
  obtain ⟨xs, ys, rfl⟩ := List.append_of_mem (h.holds_iff.mp hp)
  have ho : q ∈ ys := List.mem_of_mem_head? (h.recent.older_eq.symm.trans hq)
  exact h.holds_iff.mpr (by simp [ho])

end Table

end Ioxd.Files
