import Ioxd.Files.View

/-!
# The worker refines its view

Each part of `serve` on the table does what a move does on the view, and never
comes to what C leaves undefined; so does each step of the worker. A name that
`serve` loads is one that it has looked up.
-/

namespace Ioxd.Files

open Function (update update_self update_of_ne)
open Table (Rep)
open View (Inv Move Moves Served Replied Next Blank fill)
open State (Content)
open Ioxd.Http (str)
open Ioxd.Pipe (Byte)

variable {cfg : Config} {disk : Disk} {req : Request} {s s' : State} {l l' : List Ptr} {p : Ptr}
  {e : Entry} {opens : List Byte → Prop} {once : Prop}

/-- A state as a view, with the entries that its table is said to hold. -/
def State.view (s : State) (l : List Ptr) : View where
  kept := l
  entry := cores s.table.heap
  next := s.next
  loading := s.loading
  writing := s.writing
  clock := s.clock
  stamp := s.stamp

structure Shows (cfg : Config) (s : State) (l : List Ptr) : Prop where
  rep : Rep s.table l
  budget : s.table.budget = cfg.budget
  inv : Inv (s.view l)

/-- A part of `serve` that can be done, and is one of the view. -/
def Does (cfg : Config) (opens : List Byte → Prop) (once : Prop) (s : State) (l : List Ptr)
    (r : Option State) : Prop :=
  ∃ s' l', r = some s' ∧ Shows cfg s' l' ∧ Served opens once (s.view l) (s'.view l')

theorem Shows.does_refl (h : Shows cfg s l) : Does cfg opens once s l (some s) :=
  ⟨s, l, rfl, h, .done .refl⟩

theorem Shows.move (h : Shows cfg s l) (hm : Move (s.view l) (s'.view l')) (hr : Rep s'.table l')
    (hb : s'.table.budget = s.table.budget) : Shows cfg s' l' := ⟨hr, hb.trans h.budget, h.inv.move hm⟩

theorem Does.after {r : Option State} (hm : Moves (s.view l) (s'.view l'))
    (h : Does cfg opens once s' l' r) : Does cfg opens once s l r := by
  obtain ⟨s₂, l₂, h₂, hs₂, hd⟩ := h
  refine ⟨s₂, l₂, h₂, hs₂, ?_⟩
  generalize s₂.view l₂ = v at hd ⊢
  cases hd with
  | done hms => exact .done (hm.trans hms)
  | loads req hms hb ho hn => exact .loads req (hm.trans hms) hb ho hn

theorem view_entry (h : s.table.heap p = some e) : (s.view l).entry p = some e.core := by
  simp [State.view, cores, h]

-- ---------------------------------------------------------------------------
-- The parts of `serve`
-- ---------------------------------------------------------------------------

theorem reply_spec (h : Shows cfg s l) (hp : p ∈ l) (req : Request) : ∃ s',
    s.reply req p = some s' ∧ Shows cfg s' l ∧ Replied p (s.view l) (s'.view l) := by
  obtain ⟨e, he⟩ := h.rep.living p hp
  unfold State.reply
  simp only [he, Option.bind_eq_bind, Option.bind_some]
  split
  · exact ⟨s, rfl, h, .quiet⟩
  · have hv : State.view { s with
        table := { s.table with heap := update s.table.heap p (some { e with refs := e.refs + 1 }) }
        writing := p :: s.writing } l = (s.view l).take p e.core := by
      simp only [State.view, View.take, cores_update]
      rfl
    have hr : Replied p (s.view l) _ := .reads (view_entry he)
    have hm : Move (s.view l) _ := .take hp (view_entry he)
    rw [← hv] at hr hm
    rw [Table.modify_eq he, Option.bind_some]
    exact ⟨_, rfl, h.move hm (h.rep.setEntry he rfl) rfl, hr⟩

theorem reply_does (h : Shows cfg s l) (hp : p ∈ l) (req : Request) :
    Does cfg opens once s l (s.reply req p) := by
  obtain ⟨s', h', hs', hr⟩ := reply_spec h hp req
  exact ⟨s', l, h', hs', .done (hr.moves hp)⟩

theorem touch_does (h : Shows cfg s l) (hp : p ∈ l) (req : Request) : Does cfg opens once s l (do
    let table ← s.table.touch p
    ({ s with table := table }.mark p).reply req p) := by
  obtain ⟨t, h₁, hr, hc, hb⟩ := Table.touch_spec h.rep hp
  have hv : (State.mark { s with table := t } p).view (p :: l.erase p) = (s.view l).touch p := by
    simp only [State.view, State.mark, View.touch, hc]
  have hm : Move (s.view l) _ := .touch hp
  rw [← hv] at hm
  rw [h₁, Option.bind_eq_bind, Option.bind_some]
  exact (reply_does (h.move hm hr hb) (List.mem_cons_self ..) req).after (.single hm)

theorem drop_does (h : Shows cfg s l) (hp : p ∈ l) {f : State → Option State}
    (hf : ∀ s₁ l₁, Shows cfg s₁ l₁ → s₁.view l₁ = (s.view l).drop p →
      Does cfg opens once s₁ l₁ (f s₁)) : Does cfg opens once s l (do
    let table ← s.table.drop p
    f { s with table := table }) := by
  obtain ⟨t, h₁, hr, hc, hb⟩ := Table.drop_spec h.rep hp
  have hv : State.view { s with table := t } (l.erase p) = (s.view l).drop p := by
    simp only [State.view, View.drop, hc]
  have hm : Move (s.view l) _ := .drop hp
  rw [← hv] at hm
  rw [h₁, Option.bind_eq_bind, Option.bind_some]
  exact (hf _ _ (h.move hm hr hb) hv).after (.single hm)

theorem current_spec (h : Shows cfg s l) (hp : p ∈ l) (disk : Disk) : ∃ fresh s₁,
    s.current cfg disk p = some (fresh, s₁) ∧ Shows cfg s₁ l ∧ Moves (s.view l) (s₁.view l) ∧
      (s₁.view l).nameAt = (s.view l).nameAt := by
  obtain ⟨e, he⟩ := h.rep.living p hp
  unfold State.current
  simp only [he, Option.bind_eq_bind, Option.bind_some]
  split
  · exact ⟨true, s, rfl, h, .refl, rfl⟩
  · generalize (if cfg.revalidate ≠ 0 then disk.now else e.checkedAt) = x
    have hv : State.view { s with
        table := { s.table with heap := update s.table.heap p (some { e with checkedAt := x }) } } l =
        (s.view l).set p (some { e.core with checkedAt := x }) := by
      simp only [State.view, View.set, cores_update]
      rfl
    have hm : Move (s.view l) _ := .look x hp (view_entry he)
    have hn := (s.view l).nameAt_set (view_entry he) (x := some { e.core with checkedAt := x }) rfl
    rw [← hv] at hm hn
    rw [Table.modify_eq he, Option.bind_some]
    exact ⟨_, _, rfl, h.move hm (h.rep.setEntry he rfl) rfl, .single hm, hn⟩

/-- If the table had its names `once`, one that is found and stale is not there
any more. -/
theorem found_does (h : Shows cfg s l) (hp : p ∈ l) {name : List Byte}
    (hn : (s.view l).nameAt p = some name) (hd : once → (s.view l).Distinct)
    {stale : State → Option State} (hf : (s.current cfg disk p).any (·.1) = false →
      ∀ s₁ l₁, Shows cfg s₁ l₁ → (once → (s₁.view l₁).Distinct ∧ (s₁.view l₁).Missing name) →
        Does cfg opens once s₁ l₁ (stale s₁)) (req : Request) :
    Does cfg opens once s l (s.found cfg disk req p stale) := by
  obtain ⟨fresh, s₁, hcur, h₁, hm₁, hn₁⟩ := current_spec h hp disk
  unfold State.found
  rw [hcur, Option.bind_eq_bind, Option.bind_some]
  refine Does.after hm₁ ?_
  cases fresh with
  | true => exact touch_does h₁ hp req
  | false =>
    refine drop_does h₁ hp fun s₂ l₂ h₂ hv => hf (by rw [hcur]; rfl) s₂ l₂ h₂ fun ho => ?_
    have hd₁ := (hd ho).moves h.inv hm₁
    rw [hv]
    exact ⟨hd₁.move h₁.inv (.drop hp), hd₁.missing_drop h₁.inv hp ((congrFun hn₁ p).trans hn)⟩

theorem opened_does (h : Shows cfg s l) (disk : Disk) (req : Request) {name : List Byte}
    (stat : Stat) (ho : ¬ stat.size > cfg.fileMax → opens name)
    (hn : once → (s.view l).Missing name) :
    Does cfg opens once s l (s.opened cfg disk req name stat) := by
  unfold State.opened State.beginLoad
  split
  · exact h.does_refl
  rename_i hsize
  split
  · exact h.does_refl
  simp only
  generalize hx : (if cfg.revalidate ≠ 0 then disk.now else (0 : UInt64)) = x
  have hnext : s.next ∉ l := fun hm => lt_irrefl _ (h.inv.kept_lt hm)
  let e : Entry :=
    { chain := none, newer := none, older := none, name := name, hash := hashOf name,
      stat := stat, v := fun _ => none, bytes := 0, checkedAt := x, refs := 0, dropped := false }
  have hb : Blank e := ⟨rfl, rfl, rfl⟩
  have hv : State.view { s with
      table := { s.table with heap := update s.table.heap s.next (some e) }
      next := s.next + 1
      loading := (s.next, req) :: s.loading } l = (s.view l).alloc e req := by
    simp only [State.view, View.alloc, cores_update]
    rfl
  refine ⟨_, l, rfl, ⟨h.rep.setOutside hnext _, h.budget, ?_⟩, ?_⟩
  · rw [hv]
    exact h.inv.alloc hb req
  · rw [hv]
    exact .loads req .refl hb (ho hsize) hn

theorem missing_of_lookup (h : Shows cfg s l) {name : List Byte}
    (hno : ∀ q ∈ l, ∀ e, s.table.heap q = some e → ¬ (e.hash = hashOf name ∧ e.name = name)) :
    (s.view l).Missing name := by
  intro q hq hname
  obtain ⟨k, hk, hkn⟩ := Option.map_eq_some_iff.mp hname
  obtain ⟨e, he, rfl⟩ := Option.map_eq_some_iff.mp hk
  have hhash := h.inv.named q _ hk
  exact hno q hq e he ⟨by rw [← hkn]; exact hhash, hkn⟩

theorem nameAt_of_lookup {name : List Byte} (he : s.table.heap p = some e) (hn : e.name = name) :
    (s.view l).nameAt p = some name :=
  Option.map_eq_some_iff.mpr ⟨e.core, view_entry he, hn⟩

theorem openFile_name {asked name : List Byte} {stat : Stat}
    (h : openFile cfg disk asked = some (name, stat)) (hl : name.length = asked.length) :
    name = asked := by
  unfold openFile at h
  split at h
  · cases h
    rfl
  · split at h
    · cases h
    · dsimp only at h
      split at h
      · cases h
        rw [List.length_append, List.length_append] at hl
        have h1 : (str "/").length = 1 := rfl
        omega
      · cases h
  · cases h

theorem miss_does (h : Shows cfg s l) (disk : Disk) (req : Request) {asked : List Byte}
    (ho : ∀ name stat, openFile cfg disk asked = some (name, stat) → ¬ stat.size > cfg.fileMax →
      opens name) (hd : once → (s.view l).Distinct ∧ (s.view l).Missing asked) :
    Does cfg opens once s l (State.miss cfg disk req asked s) := by
  unfold State.miss
  split
  · exact h.does_refl
  rename_i name stat hopen
  have hload : ∀ s₁ l₁, Shows cfg s₁ l₁ → (once → (s₁.view l₁).Missing name) →
      Does cfg opens once s₁ l₁ (s₁.opened cfg disk req name stat) :=
    fun s₁ l₁ h₁ hm => opened_does h₁ disk req stat (ho name stat hopen) hm
  split
  · obtain ⟨r, hr, hnone, hsome⟩ := Table.lookup_spec h.rep name (hashOf name)
    rw [hr, Option.bind_eq_bind, Option.bind_some]
    cases r with
    | none => exact hload s l h fun _ => missing_of_lookup h (hnone rfl)
    | some p =>
      obtain ⟨hp, e, he, -, hn⟩ := hsome p rfl
      exact found_does h hp (nameAt_of_lookup he hn) (fun o => (hd o).1)
        (fun _ s₁ l₁ h₁ hm => hload s₁ l₁ h₁ fun o => (hm o).2) req
  · rename_i hlen
    obtain rfl := openFile_name hopen (not_not.mp hlen)
    exact hload s l h fun o => (hd o).2

/-- The name that a request comes to `load`, unless the one that `open_file`
leaves is in the table. -/
def State.loads (s : State) (cfg : Config) (disk : Disk) (req : Request) (name : List Byte) :
    Option (List Byte) :=
  if ¬ req.head ∧ req.method ≠ str "GET" then none
  else if (s.table.lookup name (hashOf name)).any fun found =>
      found.any fun p => (s.current cfg disk p).any (·.1) then none
  else
    match openFile cfg disk name with
    | some (name, stat) => if stat.size > cfg.fileMax then none else some name
    | none => none

theorem serve_does (h : Shows cfg s l) (disk : Disk) (req : Request) (name : List Byte) :
    Does cfg (s.loads cfg disk req name = some ·) (s.view l).Distinct s l
      (s.serve cfg disk req name) := by
  unfold State.serve
  split
  · exact h.does_refl
  rename_i hmethod
  obtain ⟨r, hr, hnone, hsome⟩ := Table.lookup_spec h.rep name (hashOf name)
  rw [hr, Option.bind_eq_bind, Option.bind_some]
  -- what is opened is loaded, once the table has nothing to serve
  have hopens (hx : (r.any fun p => (s.current cfg disk p).any (·.1)) = false) (n : List Byte)
      (stat : Stat) (hopen : openFile cfg disk name = some (n, stat))
      (hsize : ¬ stat.size > cfg.fileMax) : s.loads cfg disk req name = some n := by
    unfold State.loads
    rw [if_neg hmethod, hr, Option.any_some, hx, if_neg Bool.false_ne_true, hopen]
    exact if_neg hsize
  cases r with
  | none =>
    exact miss_does h disk req (hopens rfl) fun hd => ⟨hd, missing_of_lookup h (hnone rfl)⟩
  | some p =>
    obtain ⟨hp, e, he, -, hn⟩ := hsome p rfl
    exact found_does h hp (nameAt_of_lookup he hn) id
      (fun hx s₁ l₁ h₁ hd => miss_does h₁ disk req (hopens hx) hd) req

-- ---------------------------------------------------------------------------
-- The steps
-- ---------------------------------------------------------------------------

/-- A step that can be done, and is one of the view. -/
def Takes (cfg : Config) (s : State) (l : List Ptr) (a : Act) (r : Option State) : Prop :=
  ∃ s' l', r = some s' ∧ Shows cfg s' l' ∧ Next cfg (s.view l) a (s'.view l')

theorem Shows.next {a : Act} (h : Shows cfg s l) (hn : Next cfg (s.view l) a (s'.view l'))
    (hr : Rep s'.table l') (hb : s'.table.budget = s.table.budget) :
    Takes cfg s l a (some s') := ⟨s', l', rfl, ⟨hr, hb.trans h.budget, h.inv.next hn⟩, hn⟩

variable {c : Content} {room : Bool}

theorem failed_takes (h : Shows cfg s l) (hl : (p, req) ∈ s.loading) :
    Takes cfg s l (.loaded p none room) (s.loaded p req none room) := by
  obtain ⟨hout, k, hk, -⟩ := h.inv.filling _ hl
  obtain ⟨e, he, -⟩ := Option.map_eq_some_iff.mp hk
  have hv : State.view { s with
      table := { s.table with heap := update s.table.heap p none }
      loading := s.loading.filter (·.1 ≠ p) } l = ((s.view l).unload p).set p none := by
    simp only [State.view, View.unload, View.set, cores_update, Option.map_none]
  have hn : Next cfg (s.view l) (.loaded p none room) _ := .failed hl
  rw [← hv] at hn
  simp only [State.loaded, Table.entryFree, he, Option.map_some, Option.bind_eq_bind,
    Option.bind_some]
  exact h.next hn (h.rep.setOutside hout none) rfl

theorem keep_spec (h : Shows cfg s l) (hl : (p, req) ∈ s.loading) (he : s.table.heap p = some e)
    (hc : c.bytes ≤ cfg.budget) (room : Bool) : ∃ s' l' out,
      { s with loading := s.loading.filter (·.1 ≠ p) }.keep p c room = some s' ∧ l = l' ++ out ∧
      Rep s'.table (p :: l') ∧ s'.table.budget = s.table.budget ∧
      s'.view (p :: l') = (s.view l).keep p e.core c l' out := by
  obtain ⟨hout, k, hk, hb⟩ := h.inv.filling _ hl
  have hpl : p ∉ l := hout
  obtain rfl : e.core = k := Option.some.inj ((view_entry he).symm.trans hk)
  have hfit : c.bytes ≤ s.table.budget := by rwa [h.budget]
  let t₁ : Table := { s.table with heap := update s.table.heap p (some (fill e c)) }
  have hr₁ : Rep t₁ l := h.rep.setOutside hpl _
  have hc₁ : cores t₁.heap = update (cores s.table.heap) p (some (fill e.core c)) := by
    simp only [t₁, cores_update]
    rfl
  obtain ⟨t₂, l', out, h₂, rfl, hr₂, hc₂, hb₂, hf₂⟩ := Table.makeRoom_spec hr₁ hfit
  have hpo : p ∉ out := fun hm => hpl (List.mem_append_right _ hm)
  have hcp : cores t₂.heap p = some (fill e.core c) := by rw [hc₂, if_neg hpo, hc₁, update_self]
  obtain ⟨e₂, he₂, hcore⟩ := Option.map_eq_some_iff.mp hcp
  have hd := congrArg Entry.dropped hcore
  have hy := congrArg Entry.bytes hcore
  have hbytes : e₂.bytes = c.bytes := hy
  obtain ⟨t₃, h₃, hr₃, hc₃, hb₃⟩ := Table.insert_spec hr₂ (fun hm => hpl (List.mem_append_left _ hm))
    he₂ (hd.trans hb.dropped) (by rw [hbytes, hb₂]; exact hf₂) room
  have hm : s.table.modify p (fun e => { e with v := c.v, bytes := c.bytes }) = some t₁ :=
    Table.modify_eq he _
  have hroom : s.roomFor p c = some t₂ := by
    simp only [State.roomFor, hm, Option.bind_eq_bind, Option.bind_some, h₂]
  refine ⟨State.mark { s with table := t₃, loading := s.loading.filter (·.1 ≠ p) } p, l', out, ?_,
    rfl, hr₃, hb₃.trans hb₂, ?_⟩
  · have hroom' : State.roomFor { s with loading := s.loading.filter (·.1 ≠ p) } p c = some t₂ := hroom
    simp only [State.keep, if_pos hfit, hroom', Option.bind_eq_bind, Option.bind_some, h₃]
  · have hent : cores t₃.heap = update (fun q =>
        if q ∈ out then (cores s.table.heap q).bind Entry.leave else cores s.table.heap q) p
        (some (fill e.core c)) := by
      funext q
      rw [hc₃, hc₂, hc₁]
      by_cases hq : q = p
      · subst hq
        simp [hpo]
      · simp [hq]
    simp only [State.view, State.mark, View.keep, View.unload, hent]

theorem kept_spec (h : Shows cfg s l) (hl : (p, req) ∈ s.loading) (he : s.table.heap p = some e)
    (hc : c.bytes ≤ cfg.budget) (room : Bool) : ∃ s' l' out,
      s.loaded p req (some c) room = some s' ∧ l = l' ++ out ∧ Shows cfg s' (p :: l') ∧
      Replied p ((s.view l).keep p e.core c l' out) (s'.view (p :: l')) := by
  obtain ⟨s₁, l', out, h₁, rfl, hr₁, hb₁, hv₁⟩ := keep_spec h hl he hc room
  have hi₁ : Inv (s₁.view (p :: l')) := by
    rw [hv₁]
    exact h.inv.keep hl (view_entry he) rfl
  have hs₁ : Shows cfg s₁ (p :: l') := ⟨hr₁, hb₁.trans h.budget, hi₁⟩
  obtain ⟨s₂, h₂, hs₂, hm₂⟩ := reply_spec hs₁ (List.mem_cons_self ..) req
  refine ⟨s₂, l', out, ?_, rfl, hs₂, hv₁ ▸ hm₂⟩
  simp only [State.loaded, h₁, Option.bind_eq_bind, Option.bind_some, h₂]

theorem loaded_takes (h : Shows cfg s l) (hl : (p, req) ∈ s.loading) :
    Takes cfg s l (.loaded p (some c) room) (s.loaded p req (some c) room) := by
  obtain ⟨hout, k, hk, hblank⟩ := h.inv.filling _ hl
  obtain ⟨e, he, rfl⟩ := Option.map_eq_some_iff.mp hk
  by_cases hc : c.bytes ≤ cfg.budget
  · obtain ⟨s', l', out, h', rfl, hs', hr⟩ := kept_spec h hl he hc room
    exact ⟨s', _, h', hs', .keep hl hk hc rfl hr⟩
  · have hgt : c.bytes > cfg.budget := not_le.mp hc
    let e' : Entry := { fill e c with dropped := true }
    let s₁ : State := { s with
      table := { s.table with heap := update s.table.heap p (some e') }
      loading := s.loading.filter (·.1 ≠ p) }
    have hkeep : { s with loading := s.loading.filter (·.1 ≠ p) }.keep p c room = some s₁ := by
      have hc' : ¬ c.bytes ≤ s.table.budget := by rwa [h.budget]
      simp only [State.keep, if_neg hc', Table.modify_eq he, Option.bind_eq_bind, Option.bind_some]
      rfl
    have hn : Next cfg (s.view l) (.loaded p (some c) room) _ := .pass hl hk hgt
    have hbody : req.body { fill e.core c with dropped := true } = req.body e' := rfl
    simp only [State.loaded, hkeep, Option.bind_eq_bind, Option.bind_some]
    have he₁ : s₁.table.heap p = some e' := update_self ..
    unfold State.reply
    simp only [he₁, Option.bind_eq_bind, Option.bind_some]
    unfold View.pass at hn
    simp only [hbody] at hn
    cases hs : req.body e' with
    | none =>
      have hv : s₁.view l = ((s.view l).unload p).set p
          (some { fill e.core c with dropped := true }) := by
        simp only [s₁, State.view, View.unload, View.set, cores_update]
        rfl
      simp only [hs, Option.isSome_none, Bool.false_eq_true, if_false] at hn
      rw [← hv] at hn
      exact h.next hn (h.rep.setOutside hout _) rfl
    | some data =>
      have hv : State.view { s₁ with
          table := { s₁.table with
            heap := update s₁.table.heap p (some { e' with refs := e'.refs + 1 }) }
          writing := p :: s₁.writing } l = (((s.view l).unload p).set p
          (some { fill e.core c with dropped := true })).take p
          { fill e.core c with dropped := true } := by
        simp only [s₁, State.view, View.unload, View.set, View.take, cores_update]
        rfl
      simp only [hs, Option.isSome_some, if_true] at hn
      rw [← hv] at hn
      simp only [Table.modify_eq he₁, Option.bind_some]
      exact h.next hn ((h.rep.setOutside hout _).setOutside hout _) rfl

theorem written_takes (h : Shows cfg s l) (hp : p ∈ s.writing) :
    Takes cfg s l (.written p) (s.written p) := by
  obtain ⟨k, hk, -⟩ := h.inv.reading _ hp
  obtain ⟨e, he, rfl⟩ := Option.map_eq_some_iff.mp hk
  have hx := h.inv.refs p _ hk
  have hrefs : e.refs = s.writing.count p := hx
  have hpos : 0 < s.writing.count p := List.count_pos_iff.mpr hp
  have h0 : ¬ e.refs = 0 := by omega
  have hn : Next cfg (s.view l) (.written p) _ := .written hp hk
  unfold State.written Table.release
  simp only [he, Option.bind_eq_bind, Option.bind_some, if_neg h0]
  unfold View.release View.unref at hn
  by_cases hlast : e.refs - 1 = 0 ∧ e.dropped
  · -- the last reply of an entry that has left the table
    have hout : p ∉ l := by
      intro hm
      obtain ⟨e₀, he₀, hd⟩ := h.rep.alive p hm
      obtain rfl : e = e₀ := Option.some.inj (he.symm.trans he₀)
      rw [hd] at hlast
      exact absurd hlast.2 (by simp)
    have hv : State.view { s with
        table := { s.table with heap := update s.table.heap p none }
        writing := s.writing.erase p } l =
        { (s.view l).set p none with writing := (s.view l).writing.erase p } := by
      simp only [State.view, View.set, cores_update, Option.map_none]
    have hcore : e.core.refs - 1 = 0 ∧ e.core.dropped := hlast
    rw [if_pos hcore, ← hv] at hn
    rw [if_pos hlast]
    simp only [Table.entryFree, he, Option.map_some, Option.bind_some]
    exact h.next hn (h.rep.setOutside hout none) rfl
  · have hv : State.view { s with
        table := { s.table with heap := update s.table.heap p (some { e with refs := e.refs - 1 }) }
        writing := s.writing.erase p } l =
        { (s.view l).set p (some { e.core with refs := e.core.refs - 1 }) with
          writing := (s.view l).writing.erase p } := by
      simp only [State.view, View.set, cores_update]
      rfl
    have hcore : ¬ (e.core.refs - 1 = 0 ∧ e.core.dropped) := hlast
    rw [if_neg hcore, ← hv] at hn
    rw [if_neg hlast, Table.modify_eq he, Option.bind_some]
    exact h.next hn (h.rep.setEntry he rfl) rfl

/-- Whatever can happen next has a meaning, and is a step of the view. -/
theorem step_takes {a : Act} (h : Shows cfg s l) (ha : enabled cfg s a = true) :
    Takes cfg s l a (step cfg s a) := by
  cases a with
  | serve req name disk =>
    obtain ⟨s', l', h', hs', hm⟩ := serve_does h disk req name
    exact ⟨s', l', h', hs', .served hm⟩
  | loaded p c room =>
    simp only [enabled, List.any_eq_true, Bool.and_eq_true, beq_iff_eq] at ha
    obtain ⟨task, ht, rfl, -⟩ := ha
    obtain ⟨task', hf⟩ : ∃ task', s.loading.find? (·.1 == task.1) = some task' := by
      rw [← Option.isSome_iff_exists, List.find?_isSome]
      exact ⟨task, ht, by simp⟩
    have hl := List.mem_of_find?_eq_some hf
    have he : task'.1 = task.1 := by simpa using List.find?_some hf
    have hl' : (task.1, task'.2) ∈ s.loading := by
      rw [← he]
      exact hl
    simp only [step, hf, Option.bind_eq_bind, Option.bind_some]
    cases c with
    | none => exact failed_takes h hl'
    | some c => exact loaded_takes h hl'
  | written p =>
    simp only [enabled, List.contains_iff_mem] at ha
    exact written_takes h ha

theorem init_shows (cfg : Config) : Shows cfg (State.init cfg) [] := by
  refine ⟨⟨⟨6, rfl⟩, ?_, by simp, ⟨rfl, rfl⟩, rfl, rfl, Nat.zero_le _⟩, rfl, ?_⟩
  · intro i hi
    refine ⟨[], ?_, by simp⟩
    unfold Table.bucket Links.Seg
    rw [State.init, List.getD_eq_getElem?_getD, List.getElem?_replicate]
    split <;> rfl
  · exact ⟨List.nodup_nil, by simp [State.view], .nil, by simp [State.view], fun _ _ => rfl,
      by simp [State.view, State.init], List.nodup_nil, by simp [State.view, State.init, cores],
      by simp [State.view, State.init], by simp [State.view, State.init, cores]⟩

end Ioxd.Files
