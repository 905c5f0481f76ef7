import Ioxd.Files.Lifetime

/-!
# One entry for a name

A name is looked up before the file is read and inserted after, with other
requests in between: the table holds a name once as long as none of these comes
to load it too.
-/

namespace Ioxd.Files

open Function (update update_self update_of_ne)
open Table (Rep)
open View (Inv Move Moves Served Replied Next fill)
open State (Content)
open Runs (Reach perform)
open Ioxd.Http (str Coding sliceTrim)
open Ioxd.Pipe (Byte)

variable {cfg : Config} {v v' : View} {p q : Ptr} {a : Act} {s s' : State} {l : List Ptr}

namespace View

def places (v : View) : List Ptr := v.kept ++ v.loading.map Prod.fst

def Apart (v : View) : Prop := (v.places.map v.nameAt).Nodup

theorem mem_places : p ∈ v.places ↔ p ∈ v.kept ∨ ∃ req, (p, req) ∈ v.loading := by
  simp [places]

theorem Inv.places_nodup (h : Inv v) : v.places.Nodup := by
  refine List.nodup_append.mpr ⟨h.nodup, h.once, fun p hp q hq heq => ?_⟩
  obtain ⟨task, ht, rfl⟩ := List.mem_map.mp hq
  exact (h.filling task ht).1 (heq ▸ hp)

theorem Apart.distinct (h : Apart v) : Distinct v := by
  unfold Apart places at h
  rw [List.map_append] at h
  exact (List.nodup_append.mp h).1

theorem Apart.subset (h : Apart v) (hi : Inv v')
    (hs : ∀ p ∈ v'.places, p ∈ v.places ∧ v'.nameAt p = v.nameAt p) : Apart v' := by
  obtain ⟨l, hp, hl⟩ := List.subperm_of_subset hi.places_nodup fun p hp => (hs p hp).1
  unfold Apart
  rw [List.map_congr_left fun p hp => (hs p hp).2]
  exact (hp.map _).nodup_iff.mp (h.sublist (hl.map _))

/-- A load goes on in another entry, and a move changes nothing about it. -/
theorem moves_loading (hi : Inv v) (hm : Moves v v') :
    v'.loading = v.loading ∧ ∀ task ∈ v.loading, v'.nameAt task.1 = v.nameAt task.1 := by
  induction hm with
  | refl => exact ⟨rfl, fun _ _ => rfl⟩
  | tail hms hm ih =>
    have hi' := hi.moves hms
    obtain ⟨-, hl, hn⟩ := hm.names hi'
    refine ⟨hl.trans ih.1, fun task ht => (hn _ (.inr ?_)).trans (ih.2 task ht)⟩
    exact (hi'.filling task (ih.1 ▸ ht)).1

theorem Apart.move (hi : Inv v) (h : Apart v) (hm : Move v v') : Apart v' := by
  obtain ⟨hk, hl, hn⟩ := hm.names hi
  refine h.subset (hi.move hm) fun p hp => ?_
  rw [mem_places] at hp ⊢
  rcases hp with hp | ⟨req, hp⟩
  · exact ⟨.inl (hk.subset hp), hn p (.inl hp)⟩
  · rw [hl] at hp
    exact ⟨.inr ⟨req, hp⟩, hn p (.inr (hi.filling _ hp).1)⟩

theorem Apart.moves (hi : Inv v) (h : Apart v) (hm : Moves v v') : Apart v' := by
  induction hm with
  | refl => exact h
  | tail hms hm ih => exact ih.move (hi.moves hms) hm

theorem Apart.alloc {e : Entry} (hi : Inv v) (h : Apart v) (hm : v.Missing e.name)
    (hl : ∀ task ∈ v.loading, v.nameAt task.1 ≠ some e.name) (req : Request) :
    Apart (v.alloc e req) := by
  have hself : (v.alloc e req).nameAt v.next = some e.name := by simp [nameAt, View.alloc]
  have hlt : ∀ p ∈ v.places, p ≠ v.next := by
    intro p hp
    rcases mem_places.mp hp with hp | ⟨req, hp⟩
    · exact (hi.kept_lt hp).ne
    · exact (hi.loading_lt hp).ne
  have hsame : ∀ p ∈ v.places, (v.alloc e req).nameAt p = v.nameAt p := fun p hp => by
    simp [nameAt, View.alloc, update_of_ne (hlt p hp)]
  have hperm : (v.alloc e req).places.Perm (v.next :: v.places) := List.perm_middle
  unfold Apart
  rw [(hperm.map _).nodup_iff, List.map_cons, List.map_congr_left hsame, hself]
  refine List.nodup_cons.mpr ⟨fun hmem => ?_, h⟩
  obtain ⟨p, hp, hname⟩ := List.mem_map.mp hmem
  rcases mem_places.mp hp with hp | ⟨req, hp⟩
  · exact hm p hp hname
  · exact hl _ hp hname

theorem Apart.served {opens : List Byte → Prop} (hi : Inv v) (h : Apart v)
    (hl : ∀ name, opens name → ∀ task ∈ v.loading, v.nameAt task.1 ≠ some name)
    (hs : Served opens v.Distinct v v') : Apart v' := by
  cases hs with
  | done hm => exact h.moves hi hm
  | loads req hm hb ho hmiss =>
    obtain ⟨hload, hn⟩ := moves_loading hi hm
    refine (h.moves hi hm).alloc (hi.moves hm) (hmiss h.distinct) (fun task ht => ?_) req
    rw [hload] at ht
    rw [hn task ht]
    exact hl _ ho task ht

theorem Apart.next (hi : Inv v) (h : Apart v) (hn : Next cfg v a v')
    (ha : ∀ req name disk, a ≠ .serve req name disk) : Apart v' := by
  have hi' := hi.next hn
  cases hn with
  | served => exact absurd rfl (ha _ _ _)
  | @failed p req _ hl =>
    refine h.subset hi' fun q hq => ?_
    have hne : q ≠ p := by
      rcases mem_places.mp hq with hq | ⟨r, hq⟩
      · exact fun e => (hi.filling _ hl).1 (e ▸ hq)
      · exact (mem_unload.mp hq).2
    refine ⟨?_, by simp [nameAt, View.set, View.unload, update_of_ne hne]⟩
    rw [mem_places] at hq ⊢
    exact hq.imp_right (Exists.imp fun _ hq => (mem_unload.mp hq).1)
  | @keep _ p req e c _ l out hl he hc hk hm =>
    have hik := hi.keep (c := c) hl he hk
    refine Apart.moves hik (h.subset hik fun q hq => ?_) (hm.moves (List.mem_cons_self ..))
    by_cases hqp : q = p
    · subst hqp
      exact ⟨mem_places.mpr (.inr ⟨req, hl⟩), by simp [nameAt, View.keep, fill, he]⟩
    have hstay : q ∉ out := by
      intro ho
      have hkept : q ∈ v.kept := hk ▸ List.mem_append_right _ ho
      rcases mem_places.mp hq with hq | ⟨r, hq⟩
      · have hql := (List.mem_cons.mp hq).resolve_left hqp
        have hnd := hi.nodup
        rw [hk] at hnd
        exact (List.nodup_append.mp hnd).2.2 q hql q ho rfl
      · exact (hi.filling _ (mem_unload.mp hq).1).1 hkept
    refine ⟨?_, by simp [nameAt, View.keep, update_of_ne hqp, hstay]⟩
    rw [mem_places] at hq ⊢
    rcases hq with hq | ⟨r, hq⟩
    · exact .inl (hk ▸ List.mem_append_left _ ((List.mem_cons.mp hq).resolve_left hqp))
    · exact .inr ⟨r, (mem_unload.mp hq).1⟩
  | @pass p req e c _ hl he hc =>
    refine h.subset hi' fun q hq => ?_
    have hplaces : q ∈ v.kept ∨ ∃ r, (q, r) ∈ (v.unload p).loading := by
      unfold View.pass at hq
      dsimp only at hq
      split at hq <;> exact mem_places.mp hq
    have hne : q ≠ p := by
      rcases hplaces with hq | ⟨r, hq⟩
      · exact fun e => (hi.filling _ hl).1 (e ▸ hq)
      · exact (mem_unload.mp hq).2
    refine ⟨mem_places.mpr (hplaces.imp_right (Exists.imp fun _ hq => (mem_unload.mp hq).1)), ?_⟩
    unfold View.pass
    dsimp only
    split <;> simp [nameAt, View.set, View.take, View.unload, update_of_ne hne]
  | @written p e hw he =>
    refine h.subset hi' fun q hq => ⟨hq, ?_⟩
    by_cases hqp : q = p
    · -- an entry of the table is not freed, and one that is filled not read from
      subst hqp
      rcases mem_places.mp hq with hq | ⟨r, hq⟩
      · obtain ⟨k, hk, hd, -⟩ := hi.alive q hq
        obtain rfl : e = k := Option.some.inj (he.symm.trans hk)
        simp [nameAt, View.release, View.set, unref, hd, he]
      · exact absurd hw (hi.filling_unread hq)
    · simp [nameAt, View.release, View.set, update_of_ne hqp]

end View

def State.filling (s : State) (name : List Byte) : Bool :=
  s.loading.any fun task => (s.table.heap task.1).any (·.name == name)

/-- A step that can be done, and begins no load of a name while another one of
it is under way. -/
def apart (cfg : Config) (s : State) (a : Act) : Bool :=
  enabled cfg s a &&
    match a with
    | .serve req name disk => (s.loads cfg disk req name).all fun name => !s.filling name
    | _ => true

theorem apart_step (h : Shows cfg s l) (hd : View.Apart (s.view l)) (ha : apart cfg s a = true)
    (hs : step cfg s a = some s') : ∃ l', Shows cfg s' l' ∧ View.Apart (s'.view l') := by
  obtain ⟨hen, hap⟩ := Bool.and_eq_true_iff.mp ha
  by_cases hserve : ∃ req name disk, a = .serve req name disk
  · obtain ⟨req, name, disk, rfl⟩ := hserve
    obtain ⟨s₁, l', h₁, hs₁, hm⟩ := serve_does h disk req name
    obtain rfl : s' = s₁ := Option.some.inj (hs.symm.trans h₁)
    refine ⟨l', hs₁, hd.served h.inv (fun n ho task ht hname => ?_) hm⟩
    have hno : s.filling n = false := by simpa [ho] using hap
    obtain ⟨k, hk, hkn⟩ := Option.map_eq_some_iff.mp hname
    obtain ⟨e, he, rfl⟩ := Option.map_eq_some_iff.mp hk
    have hsame : e.name = n := hkn
    have hyes : s.filling n = true := List.any_eq_true.mpr ⟨task, ht, by simp [he, hsame]⟩
    rw [hno] at hyes
    cases hyes
  · obtain ⟨l', h', hn⟩ := shows_next h hen hs
    exact ⟨l', h', hd.next h.inv hn fun req name disk he => hserve ⟨req, name, disk, he⟩⟩

/-- The table holds no two entries with one name. -/
def State.OnePerName (s : State) : Prop :=
  ∀ p q e e', s.table.Holds p → s.table.Holds q → s.table.heap p = some e →
    s.table.heap q = some e' → e.name = e'.name → p = q

theorem Shows.onePerName (h : Shows cfg s l) (hd : View.Distinct (s.view l)) : s.OnePerName := by
  intro p q e e' hp hq he he' hn
  rw [h.rep.holds_iff] at hp hq
  refine List.inj_on_of_nodup_map hd hp hq ?_
  have hx : e.core.name = e'.core.name := hn
  simp [View.nameAt, view_entry he, view_entry he', hx]

/-- In every run in which no request comes to load a name while a load of it is
suspended, the table holds a name once. -/
theorem one_entry_per_name (h : Reach (step cfg) (apart cfg) (.init cfg) s) : s.OnePerName := by
  obtain ⟨l, hl, hd⟩ : ∃ l, Shows cfg s l ∧ View.Apart (s.view l) := by
    induction h with
    | start => exact ⟨[], init_shows cfg, List.nodup_nil⟩
    | next _ ha hs ih =>
      obtain ⟨l, hl, hd⟩ := ih
      exact apart_step hl hd ha hs
  exact hl.onePerName hd.distinct

def againRun : List Act :=
  [.serve (asking "GET") (str "a") (diskOf 2), .loaded 0 (some ⟨str "xy", none, none⟩) true,
    .serve (asking "GET") (str "a") (diskOf 2)]

theorem one_entry_per_name_again : ∃ s : State, s.writing = [0, 0] ∧ s.OnePerName := by
  have hmap : (perform (step tinyConfig) (apart tinyConfig) (.init tinyConfig) againRun).map
      (·.writing) = some [0, 0] := by
    decide +kernel
  obtain ⟨s, hs, ho⟩ := Option.map_eq_some_iff.mp hmap
  exact ⟨s, ho, one_entry_per_name (Reach.start.perform hs)⟩

def twiceRun : List Act :=
  [.serve (asking "GET") (str "a") (diskOf 2), .serve (asking "GET") (str "a") (diskOf 2),
    .loaded 0 (some ⟨str "xy", none, none⟩) true, .loaded 1 (some ⟨str "xy", none, none⟩) true]

theorem name_twice : ¬ ∀ (cfg : Config) (s : State), Run cfg (.init cfg) s → s.OnePerName := by
  intro hall
  obtain ⟨s, h, ho⟩ := @perform_run twiceRun _ (fun s => (s.table.newest,
    link (·.older) s.table.heap 1, (s.table.heap 0).map (·.name), (s.table.heap 1).map (·.name)))
    (some 1, some 0, some (str "a"), some (str "a")) (by decide +kernel)
  simp only [Prod.mk.injEq] at ho
  obtain ⟨hnew, holder, h0, h1⟩ := ho
  obtain ⟨l, hl⟩ := run_shows (init_shows tinyConfig) h
  have hold₁ := hl.rep.holds_newest hnew
  have hold₀ := hl.rep.holds_older hold₁ holder
  obtain ⟨e₀, he₀, hn₀⟩ := Option.map_eq_some_iff.mp h0
  obtain ⟨e₁, he₁, hn₁⟩ := Option.map_eq_some_iff.mp h1
  exact absurd (hall tinyConfig s h 0 1 e₀ e₁ hold₀ hold₁ he₀ he₁ (hn₀.trans hn₁.symm)) (by decide)

end Ioxd.Files
