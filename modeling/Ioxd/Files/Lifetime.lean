import Ioxd.Files.ServeLaws
import Ioxd.Lib.Runs

/-!
# How long an entry lives

Over every run of a worker: the table is what it should be, the entries least
recently served go first, and an entry that has left the table lives as long as
a reply reads from it. An entry that the table had no room for, and whose reply
has no body, is held by nobody and never freed.
-/

namespace Ioxd.Files

open Function (update update_self update_of_ne)
open Table (Rep)
open View (Inv Move Moves Served Replied Next fill)
open State (Content)
open Runs (Reach perform)
open Ioxd.Http (str)
open Ioxd.Pipe (Byte)

variable {cfg : Config} {v v' : View} {p q : Ptr} {a : Act}

namespace View

structure Loose (v : View) (p : Ptr) : Prop where
  lt : p < v.next
  kept : p ∉ v.kept
  writing : p ∉ v.writing
  loading : ∀ req, (p, req) ∉ v.loading

theorem Loose.move (h : Loose v p) (hm : Move v v') : Loose v' p ∧ v'.entry p = v.entry p := by
  cases hm with
  | @look q e x hq he =>
    have hne : p ≠ q := fun e => h.kept (e ▸ hq)
    exact ⟨⟨h.lt, h.kept, h.writing, h.loading⟩, update_of_ne hne ..⟩
  | @touch q hq =>
    have hmem : p ∉ q :: v.kept.erase q := fun hm => h.kept
      ((List.perm_cons_erase hq).mem_iff.mpr hm)
    exact ⟨⟨h.lt, hmem, h.writing, h.loading⟩, rfl⟩
  | @drop q hq =>
    have hne : p ≠ q := fun e => h.kept (e ▸ hq)
    exact ⟨⟨h.lt, fun hm => h.kept (List.mem_of_mem_erase hm), h.writing, h.loading⟩,
      update_of_ne hne ..⟩
  | @take q e hq he =>
    have hne : p ≠ q := fun e => h.kept (e ▸ hq)
    refine ⟨⟨h.lt, h.kept, fun hm => ?_, h.loading⟩, update_of_ne hne ..⟩
    exact h.writing ((List.mem_cons.mp hm).resolve_left hne)

theorem Loose.moves (h : Loose v p) (hm : Moves v v') : Loose v' p ∧ v'.entry p = v.entry p := by
  induction hm with
  | refl => exact ⟨h, rfl⟩
  | tail _ hm ih =>
    obtain ⟨h', he'⟩ := ih.1.move hm
    exact ⟨h', he'.trans ih.2⟩

theorem Loose.alloc (h : Loose v p) (e : Entry) (req : Request) :
    Loose (v.alloc e req) p ∧ (v.alloc e req).entry p = v.entry p := by
  have hne : p ≠ v.next := h.lt.ne
  refine ⟨⟨Nat.lt_succ_of_lt h.lt, h.kept, h.writing, fun r hm => ?_⟩, update_of_ne hne ..⟩
  rcases List.mem_cons.mp hm with heq | hm
  · exact hne (congrArg Prod.fst heq)
  · exact h.loading r hm

theorem Loose.served {opens : List Byte → Prop} {once : Prop} (h : Loose v p)
    (hs : Served opens once v v') : Loose v' p ∧ v'.entry p = v.entry p := by
  cases hs with
  | done hm => exact h.moves hm
  | loads req hm =>
    obtain ⟨h₁, he₁⟩ := h.moves hm
    obtain ⟨h₂, he₂⟩ := h₁.alloc _ req
    exact ⟨h₂, he₂.trans he₁⟩

theorem Loose.next (h : Loose v p) (hn : Next cfg v a v') :
    Loose v' p ∧ v'.entry p = v.entry p := by
  have hload : ∀ {q req}, (q, req) ∈ v.loading → p ≠ q := fun hl e => h.loading _ (e ▸ hl)
  have hun : ∀ q req, (p, req) ∉ (v.unload q).loading := fun q req hm =>
    h.loading req (mem_unload.mp hm).1
  cases hn with
  | served hs => exact h.served hs
  | @failed q req _ hl =>
    exact ⟨⟨h.lt, h.kept, h.writing, hun q⟩, update_of_ne (hload hl) ..⟩
  | @keep _ q req e c _ l out hl he hc hk hm =>
    have hpk : p ∉ l ++ out := hk ▸ h.kept
    have hpo : p ∉ out := fun hm => hpk (List.mem_append_right _ hm)
    have h₁ : Loose (v.keep q e c l out) p := by
      refine ⟨h.lt, fun hm => ?_, h.writing, hun q⟩
      rcases List.mem_cons.mp hm with heq | hm
      · exact hload hl heq
      · exact hpk (List.mem_append_left _ hm)
    have he₁ : (v.keep q e c l out).entry p = v.entry p := by
      simp [View.keep, update_of_ne (hload hl), hpo]
    obtain ⟨h₂, he₂⟩ := h₁.moves (hm.moves (List.mem_cons_self ..))
    exact ⟨h₂, he₂.trans he₁⟩
  | @pass q req e c _ hl he hc =>
    have hne := hload hl
    unfold View.pass
    simp only
    split
    · refine ⟨⟨h.lt, h.kept, fun hm => ?_, hun q⟩, ?_⟩
      · exact h.writing ((List.mem_cons.mp hm).resolve_left hne)
      · exact (update_of_ne hne ..).trans (update_of_ne hne ..)
    · exact ⟨⟨h.lt, h.kept, h.writing, hun q⟩, update_of_ne hne ..⟩
  | @written q e hw he =>
    have hne : p ≠ q := fun e => h.writing (e ▸ hw)
    exact ⟨⟨h.lt, h.kept, fun hm => h.writing (List.mem_of_mem_erase hm), h.loading⟩,
      update_of_ne hne ..⟩

theorem Inv.loose (h : Inv v) (hp : p < v.next) (he : v.entry p = none) : Loose v p := by
  refine ⟨hp, fun hm => ?_, fun hm => ?_, fun req hm => ?_⟩
  · obtain ⟨e, he', -⟩ := h.alive p hm
    rw [he] at he'
    cases he'
  · obtain ⟨e, he', -⟩ := h.reading p hm
    rw [he] at he'
    cases he'
  · obtain ⟨-, e, he', -⟩ := h.filling _ hm
    rw [he] at he'
    cases he'

def Settled (v : View) (p : Ptr) : Prop :=
  p ∈ v.kept ∨ p ∈ v.writing ∨ p < v.next ∧ v.entry p = none

/-- An entry that leaves the table is read from, or freed there and then. -/
theorem Inv.left (h : Inv v) (hp : p ∈ v.kept) :
    p ∈ v.writing ∨ (v.entry p).bind Entry.leave = none := by
  obtain ⟨e, he, -⟩ := h.alive p hp
  have hr := h.refs p e he
  by_cases h0 : e.refs = 0
  · exact .inr (by simp [he, Entry.leave, h0])
  · exact .inl (List.count_pos_iff.mp (by omega))

theorem Settled.move (hi : Inv v) (h : Settled v p) (hm : Move v v') : Settled v' p := by
  rcases h with hk | hw | ⟨hlt, hnone⟩
  · cases hm with
    | look x hq he => exact .inl hk
    | touch hq => exact .inl ((List.perm_cons_erase hq).mem_iff.mp hk)
    | @drop q hq =>
      by_cases hpq : p = q
      · subst hpq
        rcases hi.left hk with hw | hnone
        · exact .inr (.inl hw)
        · exact .inr (.inr ⟨hi.kept_lt hk, (update_self ..).trans hnone⟩)
      · exact .inl ((hi.nodup.mem_erase_iff).mpr ⟨hpq, hk⟩)
    | take hq he => exact .inl hk
  · cases hm with
    | look x hq he => exact .inr (.inl hw)
    | touch hq => exact .inr (.inl hw)
    | drop hq => exact .inr (.inl hw)
    | take hq he => exact .inr (.inl (List.mem_cons_of_mem _ hw))
  · obtain ⟨hl, he⟩ := (hi.loose hlt hnone).move hm
    exact .inr (.inr ⟨hl.lt, he.trans hnone⟩)

theorem Settled.moves (hi : Inv v) (h : Settled v p) (hm : Moves v v') : Settled v' p := by
  induction hm with
  | refl => exact h
  | tail hms hm ih => exact ih.move (hi.moves hms) hm

theorem Settled.served {opens : List Byte → Prop} {once : Prop} (hi : Inv v) (h : Settled v p)
    (hs : Served opens once v v') : Settled v' p := by
  cases hs with
  | done hm => exact h.moves hi hm
  | loads req hm =>
    rcases h.moves hi hm with hk | hw | ⟨hlt, hnone⟩
    · exact .inl hk
    · exact .inr (.inl hw)
    · obtain ⟨hl, he⟩ := ((hi.moves hm).loose hlt hnone).alloc _ req
      exact .inr (.inr ⟨hl.lt, he.trans hnone⟩)

theorem Settled.next (hi : Inv v) (h : Settled v p) (hn : Next cfg v a v') : Settled v' p := by
  rcases h with hk | hw | ⟨hlt, hnone⟩
  · cases hn with
    | served hs => exact Settled.served hi (.inl hk) hs
    | failed hl => exact .inl hk
    | @keep _ q req e c _ l out hl he hc hkept hm =>
      have hne : p ≠ q := by
        rintro rfl
        exact (hi.filling _ hl).1 hk
      have h₁ : Settled (v.keep q e c l out) p := by
        rcases List.mem_append.mp (hkept ▸ hk) with hpl | hpo
        · exact .inl (List.mem_cons_of_mem _ hpl)
        · rcases hi.left hk with hw | hnone
          · exact .inr (.inl hw)
          · exact .inr (.inr ⟨hi.kept_lt hk, by simp [View.keep, update_of_ne hne, hpo, hnone]⟩)
      exact h₁.moves (hi.keep hl he hkept) (hm.moves (List.mem_cons_self ..))
    | pass hl he hc =>
      unfold View.pass
      simp only
      split
      · exact .inl hk
      · exact .inl hk
    | written hw he => exact .inl hk
  · cases hn with
    | served hs => exact Settled.served hi (.inr (.inl hw)) hs
    | failed hl => exact .inr (.inl hw)
    | keep hl he hc hkept hm =>
      exact Settled.moves (hi.keep hl he hkept) (.inr (.inl hw)) (hm.moves (List.mem_cons_self ..))
    | pass hl he hc =>
      unfold View.pass
      simp only
      split
      · exact .inr (.inl (List.mem_cons_of_mem _ hw))
      · exact .inr (.inl hw)
    | @written q e hq he =>
      by_cases hpq : p = q
      · subst hpq
        by_cases hmore : p ∈ v.writing.erase p
        · exact .inr (.inl hmore)
        · -- its last reply
          have hc : (v.writing.erase p).count p = 0 := List.count_eq_zero.mpr hmore
          rw [List.count_erase_self] at hc
          have hr := hi.refs p e he
          obtain ⟨k, hk, ho⟩ := hi.reading p hw
          obtain rfl : e = k := Option.some.inj (he.symm.trans hk)
          rcases ho with ho | hd
          · exact .inl ho
          · have hlt : p < v.next := by
              by_contra hge
              rw [hi.fresh p (Nat.not_lt.mp hge)] at he
              cases he
            have h1 : e.refs - 1 = 0 := by omega
            refine .inr (.inr ⟨hlt, (update_self ..).trans ?_⟩)
            simp [unref, h1, hd]
      · exact .inr (.inl ((List.mem_erase_of_ne hpq).mpr hw))
  · obtain ⟨hl, he⟩ := (hi.loose hlt hnone).next hn
    exact .inr (.inr ⟨hl.lt, he.trans hnone⟩)

theorem Replied.kept_eq (h : Replied p v v') : v'.kept = v.kept := by
  cases h with
  | quiet => rfl
  | reads he => rfl

end View

-- ---------------------------------------------------------------------------
-- Over a run
-- ---------------------------------------------------------------------------

variable {s s₁ s₂ : State} {l : List Ptr}

/-- The states of a worker's runs. -/
abbrev Run (cfg : Config) : State → State → Prop := Reach (step cfg) (enabled cfg)

theorem shows_next (h : Shows cfg s l) (ha : enabled cfg s a = true) (hs : step cfg s a = some s₁) :
    ∃ l₁, Shows cfg s₁ l₁ ∧ Next cfg (s.view l) a (s₁.view l₁) := by
  obtain ⟨s', l₁, h', hs', hn⟩ := step_takes h ha
  obtain rfl : s₁ = s' := Option.some.inj (hs.symm.trans h')
  exact ⟨l₁, hs', hn⟩

theorem run_shows (h : Shows cfg s l) (hr : Run cfg s s₁) : ∃ l₁, Shows cfg s₁ l₁ := by
  induction hr with
  | start => exact ⟨l, h⟩
  | next _ ha hs ih =>
    obtain ⟨l₁, h₁⟩ := ih
    obtain ⟨l₂, h₂, -⟩ := shows_next h₁ ha hs
    exact ⟨l₂, h₂⟩

theorem run_settled (h : Shows cfg s l) (hp : View.Settled (s.view l) p) (hr : Run cfg s s₁) :
    ∃ l₁, Shows cfg s₁ l₁ ∧ View.Settled (s₁.view l₁) p := by
  induction hr with
  | start => exact ⟨l, h, hp⟩
  | next _ ha hs ih =>
    obtain ⟨l₁, h₁, hp₁⟩ := ih
    obtain ⟨l₂, h₂, hn⟩ := shows_next h₁ ha hs
    exact ⟨l₂, h₂, hp₁.next h₁.inv hn⟩

theorem run_loose (h : Shows cfg s l) (hp : View.Loose (s.view l) p) (hr : Run cfg s s₁) :
    ∃ l₁, Shows cfg s₁ l₁ ∧ View.Loose (s₁.view l₁) p ∧
      (s₁.view l₁).entry p = (s.view l).entry p := by
  induction hr with
  | start => exact ⟨l, h, hp, rfl⟩
  | next _ ha hs ih =>
    obtain ⟨l₁, h₁, hp₁, he₁⟩ := ih
    obtain ⟨l₂, h₂, hn⟩ := shows_next h₁ ha hs
    obtain ⟨hp₂, he₂⟩ := hp₁.next hn
    exact ⟨l₂, h₂, hp₂, he₂.trans he₁⟩

namespace State

/-- An entry that was given out and is freed. -/
def Freed (s : State) (p : Ptr) : Prop := p < s.next ∧ s.table.heap p = none

end State

theorem view_none : (s.view l).entry p = none ↔ s.table.heap p = none := Option.map_eq_none_iff

theorem Shows.settled (h : Shows cfg s l) (hs : View.Settled (s.view l) p) (hw : p ∉ s.writing) :
    s.table.Holds p ∨ s.Freed p := by
  rcases hs with hk | hm | ⟨hlt, hnone⟩
  · exact .inl (h.rep.holds_iff.mpr hk)
  · exact absurd hm hw
  · exact .inr ⟨hlt, view_none.mp hnone⟩

/-- What the table and the entries are in one state: the entries of the table
in the order of their last insertion or touch, every entry that is read from
alive and counted, and nothing that can happen undefined. -/
structure Sound (cfg : Config) (s : State) : Prop where
  table : ∃ l, Rep s.table l ∧ l.Pairwise fun a b => s.stamp b < s.stamp a
  budget : s.table.budget = cfg.budget
  reading : ∀ p ∈ s.writing, ∃ e, s.table.heap p = some e ∧ e.refs = s.writing.count p
  freed : ∀ p, s.table.heap p = none → ¬ s.table.Holds p ∧ p ∉ s.writing
  goesOn : ∀ a, enabled cfg s a = true → ∃ s', step cfg s a = some s'

theorem Shows.sound (h : Shows cfg s l) : Sound cfg s := by
  refine ⟨⟨l, h.rep, h.inv.order⟩, h.budget, fun p hp => ?_, fun p hp => ⟨fun hh => ?_, fun hm => ?_⟩,
    fun a ha => ?_⟩
  · obtain ⟨k, hk, -⟩ := h.inv.reading p hp
    have hr := h.inv.refs p k hk
    obtain ⟨e, he, rfl⟩ := Option.map_eq_some_iff.mp hk
    exact ⟨e, he, hr⟩
  · obtain ⟨e, he⟩ := h.rep.living p (h.rep.holds_iff.mp hh)
    rw [hp] at he
    cases he
  · obtain ⟨k, hk, -⟩ := h.inv.reading p hm
    rw [view_none.mpr hp] at hk
    cases hk
  · obtain ⟨s', -, h', -⟩ := step_takes h ha
    exact ⟨s', h'⟩

/-- What leaves the table for an entry that is loaded was served before all that
stays in it. -/
def EvictsOldest (cfg : Config) (s : State) : Prop :=
  ∀ p c room s', enabled cfg s (.loaded p c room) = true →
    step cfg s (.loaded p c room) = some s' → ∀ q r, s.table.Holds q → ¬ s'.table.Holds q →
      s'.table.Holds r → r ≠ p → s.stamp q < s.stamp r

theorem Shows.evicts (h : Shows cfg s l) : EvictsOldest cfg s := by
  intro p c room s' ha hs q r hq hq' hr hrp
  obtain ⟨l', h', hn⟩ := shows_next h ha hs
  rw [h.rep.holds_iff] at hq
  rw [h'.rep.holds_iff] at hq' hr
  have hord := h.inv.order
  generalize hw : s'.view l' = w at hn
  have hwk : w.kept = l' := by rw [← hw]; rfl
  cases hn with
  | failed hl =>
    obtain rfl : l = l' := hwk
    exact absurd hq hq'
  | @keep _ _ req e c room l₁ out hl he hc hk hm =>
    have hk' : l = l₁ ++ out := hk
    have hl' : l' = p :: l₁ := by rw [← hwk, hm.kept_eq]; rfl
    subst hk' hl'
    rw [List.mem_cons, not_or] at hq'
    have hqo := (List.mem_append.mp hq).resolve_left hq'.2
    have hrl := (List.mem_cons.mp hr).resolve_left hrp
    exact (List.pairwise_append.mp hord).2.2 r hrl q hqo
  | @pass _ req e c room hl he hc =>
    have hl' : l' = l := by
      rw [← hwk]
      unfold View.pass
      simp only
      split <;> rfl
    subst hl'
    exact absurd hq hq'

/-- In every state a worker comes to, with any requests suspended in their reads
and their writes: the table is sound and drops what was served least recently;
an entry of it is, ever after, in the table, read from, or freed; and what is
freed stays so. -/
theorem cache_sound (h : Run cfg (.init cfg) s) : Sound cfg s ∧ EvictsOldest cfg s ∧
    (∀ p s', s.table.Holds p → Run cfg s s' →
      s'.table.Holds p ∨ p ∈ s'.writing ∨ s'.Freed p) ∧
    ∀ p s', s.Freed p → Run cfg s s' → s'.Freed p := by
  obtain ⟨l, hl⟩ := run_shows (init_shows cfg) h
  refine ⟨hl.sound, hl.evicts, fun p s' hp hr => ?_, fun p s' hp hr => ?_⟩
  · obtain ⟨l', h', hs⟩ := run_settled hl (.inl (hl.rep.holds_iff.mp hp)) hr
    by_cases hw : p ∈ s'.writing
    · exact .inr (.inl hw)
    · exact (h'.settled hs hw).imp_right .inr
  · obtain ⟨l', h', hlo, he⟩ := run_loose hl (hl.inv.loose hp.1 (view_none.mpr hp.2)) hr
    exact ⟨hlo.lt, view_none.mp (he.trans (view_none.mpr hp.2))⟩

def tinyConfig : Config :=
  { budget := 4, fileMax := 8, revalidate := 0, precompressed := true, index := str "index.html" }

def diskOf (size : Nat) : Disk where
  now := 0
  fstatat := fun _ => some ⟨0, 0, size, 0, 0⟩
  openat := fun _ => some (.regular ⟨0, 0, size, 0, 0⟩)
  memory := true

def asking (method : String) : Request where
  method := str method
  accepts := fun _ => 0
  ifNoneMatch := none
  ifModifiedSince := none
  range := none
  ifRange := none

/-- A run of the small worker, by what can be seen of its last state. -/
theorem perform_run {as : List Act} {β : Type} {f : State → β} {b : β}
    (h : (perform (step tinyConfig) (enabled tinyConfig) (.init tinyConfig) as).map f = some b) :
    ∃ s, Run tinyConfig (.init tinyConfig) s ∧ f s = b := by
  obtain ⟨s, hs, hb⟩ := Option.map_eq_some_iff.mp h
  exact ⟨s, Reach.start.perform hs, hb⟩

/-- Two files read at once, the second in the first one's place while that is
still being sent. -/
def evictingRun : List Act :=
  [.serve (asking "GET") (str "a") (diskOf 2), .serve (asking "GET") (str "b") (diskOf 3),
    .loaded 0 (some ⟨str "xy", none, none⟩) true, .loaded 1 (some ⟨str "abc", none, none⟩) true]

theorem cache_sound_evicting : ∃ s, Run tinyConfig (.init tinyConfig) s ∧
    (s.table.newest, s.writing) = (some 1, [1, 0]) ∧ Sound tinyConfig s ∧
    EvictsOldest tinyConfig s := by
  obtain ⟨s, h, ho⟩ := @perform_run evictingRun _ (fun s => (s.table.newest, s.writing))
    (some 1, [1, 0]) (by decide +kernel)
  exact ⟨s, h, ho, (cache_sound h).1, (cache_sound h).2.1⟩

/-- The entry of a call that has loaded it, once nothing reads from it, is in
the table or freed exactly if the table had room for it or the reply a body. -/
theorem loaded_ends {room : Bool} {req : Request} {e : Entry} {c : Option Content}
    (h : Run cfg (.init cfg) s) (hl : (p, req) ∈ s.loading) (he : s.table.heap p = some e)
    (ha : enabled cfg s (.loaded p c room) = true)
    (hs : step cfg s (.loaded p c room) = some s₁) (hr : Run cfg s₁ s₂) (hw : p ∉ s₂.writing) :
    s₂.table.Holds p ∨ s₂.Freed p ↔
      ∀ d, c = some d → d.bytes ≤ cfg.budget ∨ ¬ req.Bodyless (fill e d) := by
  obtain ⟨l, hsh⟩ := run_shows (init_shows cfg) h
  obtain ⟨l₁, hsh₁, hn⟩ := shows_next hsh ha hs
  have hent : (s.view l).entry p = some e.core := view_entry he
  have hsettles : View.Settled (s₁.view l₁) p → s₂.table.Holds p ∨ s₂.Freed p := by
    intro hset
    obtain ⟨l₂, hsh₂, hset₂⟩ := run_settled hsh₁ hset hr
    exact hsh₂.settled hset₂ hw
  generalize hv : s₁.view l₁ = v₁ at hn hsettles
  cases hn with
  | failed hl' =>
    refine iff_of_true (hsettles (.inr (.inr ⟨hsh.inv.loading_lt hl', ?_⟩))) (by simp)
    exact update_self ..
  | keep hl' he' hc hk hm =>
    refine iff_of_true (hsettles (.inl ?_)) ?_
    · rw [hm.kept_eq]
      exact List.mem_cons_self ..
    · rintro d ⟨⟩
      exact .inl hc
  | @pass _ req' e' c _ hl' he' hc =>
    obtain rfl := hsh.inv.loading_unique hl hl'
    obtain rfl : e.core = e' := Option.some.inj (hent.symm.trans he')
    have hbody : req.body { fill e.core c with dropped := true } = req.body (fill e c) := rfl
    by_cases hb : req.body (fill e c) = none
    · -- left to nobody
      have hbl := (body_eq_none_iff req (fill e c)).mp hb
      refine iff_of_false ?_ fun hd => ?_
      · have hpass : (s.view l).pass p e.core c req = ((s.view l).unload p).set p
            (some { fill e.core c with dropped := true }) := by
          simp [View.pass, hbody, hb]
        have hfill := hsh.inv.filling _ hl
        rw [hpass] at hv
        have hloose : View.Loose (s₁.view l₁) p := by
          rw [hv]
          exact ⟨hsh.inv.loading_lt hl, hfill.1, hsh.inv.filling_unread hl, View.not_unloaded⟩
        have halive : (s₁.view l₁).entry p = some { fill e.core c with dropped := true } := by
          rw [hv]
          exact update_self ..
        obtain ⟨l₂, hsh₂, hloose₂, he₂⟩ := run_loose hsh₁ hloose hr
        rintro (hh | hf)
        · exact hloose₂.kept (hsh₂.rep.holds_iff.mp hh)
        · rw [halive, view_none.mpr hf.2] at he₂
          cases he₂
      · rcases hd c rfl with hle | hnb
        · omega
        · exact hnb hbl
    · refine iff_of_true (hsettles (.inr (.inl ?_))) ?_
      · have hsome : (req.body (fill e c)).isSome = true := Option.isSome_iff_ne_none.mpr hb
        unfold View.pass
        simp only [hbody, hsome, if_true]
        exact List.mem_cons_self ..
      · rintro d ⟨⟩
        exact .inr fun hbl => hb ((body_eq_none_iff req _).mpr hbl)

/-- A HEAD that reads a file larger than the budget. -/
def headState : State :=
  State.beginLoad (.init tinyConfig) tinyConfig (diskOf 5) (asking "HEAD") (str "a") ⟨0, 0, 5, 0, 0⟩

def headLoaded : Act := .loaded 0 (some ⟨str "abcde", none, none⟩) true

theorem head_run : Run tinyConfig (.init tinyConfig) headState :=
  Reach.start.next (a := .serve (asking "HEAD") (str "a") (diskOf 5)) rfl rfl

theorem head_loaded : ∃ s₁, step tinyConfig headState headLoaded = some s₁ ∧
    0 ∉ s₁.writing ∧ s₁.table.newest = none ∧ (s₁.table.heap 0).isSome = true := by
  have hmap : (step tinyConfig headState headLoaded).map
      (fun s₁ => (s₁.writing, s₁.table.newest, (s₁.table.heap 0).isSome)) =
      some ([], none, true) := by
    decide +kernel
  obtain ⟨s₁, hs, ho⟩ := Option.map_eq_some_iff.mp hmap
  simp only [Prod.mk.injEq] at ho
  exact ⟨s₁, hs, by simp [ho.1], ho.2⟩

theorem loaded_ends_head : ∃ s₁, step tinyConfig headState headLoaded = some s₁ ∧
    ¬ (s₁.table.Holds 0 ∨ s₁.Freed 0) := by
  obtain ⟨s₁, hs, hw, -⟩ := head_loaded
  refine ⟨s₁, hs, fun hh => ?_⟩
  have hend := (@loaded_ends _ 0 headState s₁ s₁ true (asking "HEAD") _ _ head_run
    (List.mem_cons_self ..) rfl (by decide +kernel) hs .start hw).mp hh _ rfl
  rcases hend with hle | hb
  · exact absurd hle (by decide)
  · exact hb (.inr (.inr (by decide)))

/-- Not every entry that a call loads is in the table or freed in the end. -/
theorem loaded_orphan : ¬ ∀ (cfg : Config) (s s₁ s₂ : State) (p : Ptr) (c : Option Content)
    (room : Bool), Run cfg (.init cfg) s → enabled cfg s (.loaded p c room) = true →
      step cfg s (.loaded p c room) = some s₁ → Run cfg s₁ s₂ → p ∉ s₂.writing →
      s₂.table.Holds p ∨ s₂.Freed p := by
  intro hall
  obtain ⟨s₁, hs, hw, hn, hsome⟩ := head_loaded
  have hen : enabled tinyConfig headState headLoaded = true := by decide +kernel
  rcases hall tinyConfig headState s₁ s₁ 0 _ true head_run hen hs .start hw with hh | hf
  · obtain ⟨l, hl, hm⟩ := hh
    have hnil := hl.recent.newest_eq.symm.trans hn
    rw [List.head?_eq_none_iff.mp hnil] at hm
    cases hm
  · rw [hf.2] at hsome
    cases hsome

end Ioxd.Files
