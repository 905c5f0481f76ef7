import Ioxd.Http.Text
import Mathlib.Data.List.Induction
import Mathlib.Data.List.Nodup

/-!
# What a reload installs

`load` of `lib/tls/certs.c` and the loads and reloads that run it. What the
directory holds and what OpenSSL makes of the files comes with each call: the
entries in the order of `readdir`, no name twice. A context is a pointer, and
all that is asked of it is whether it is the same.
-/

namespace Ioxd.Tls.Certs

open Ioxd.Pipe (Byte)
open Ioxd.Http (str)

variable {Ctx : Type}

structure Host (Ctx : Type) where
  name : List Byte
  ctx : Ctx
  deriving DecidableEq

structure Table (Ctx : Type) where
  hosts : List (Host Ctx)
  fallback : Ctx
  deriving DecidableEq

/-- An entry of the directory: whether its two files are regular ones, the
context that `context_for` makes of them, and whether `not_current` has nothing
against it. -/
structure Dirent (Ctx : Type) where
  name : List Byte
  certRegular : Bool
  keyRegular : Bool
  context : Option Ctx
  current : Bool

structure Directory (Ctx : Type) where
  entries : List (Dirent Ctx)
  distinct : (entries.map (·.name)).Nodup

/-- What a load finds: the directory, unless `opendir` or `calloc` fails. -/
abbrev Found (Ctx : Type) := Option (Directory Ctx)

def pathMax : Nat := 4096

def pathsFit (dir name : List Byte) : Bool :=
  (dir ++ str "/" ++ name ++ str "/cert.pem").length < pathMax &&
    (dir ++ str "/" ++ name ++ str "/key.pem").length < pathMax

/-- A host entry: both its files are regular. A hidden name is none to `load`, nor
is a name with a path that is too long. -/
def Dirent.whole (dir : List Byte) (e : Dirent Ctx) : Bool :=
  e.name.head? != some 46 && pathsFit dir e.name && e.certRegular && e.keyRegular

/-- The context that an entry loads to. -/
def Dirent.fresh (e : Dirent Ctx) : Option Ctx := if e.current then e.context else none

/-- The context that serves a name, as `load` looks for it: the last one. -/
def serving (old : Option (Table Ctx)) (name : List Byte) : Option Ctx :=
  match old with
  | none => none
  | some t => t.hosts.foldl (fun ctx h => if h.name = name then some h.ctx else ctx) none

/-- The body of the loop of `load`, with the hosts and the fallback so far. -/
def loadEntry (dir : List Byte) (old : Option (Table Ctx))
    (acc : List (Host Ctx) × Option Ctx) (e : Dirent Ctx) : List (Host Ctx) × Option Ctx :=
  if e.whole dir then
    match e.fresh.or (serving old e.name) with
    | none => acc
    | some ctx =>
      (acc.1 ++ [⟨e.name, ctx⟩], if e.name = str "default" then some ctx else acc.2)
  else acc

section
variable [DecidableEq Ctx]

def fallbackName (t : Table Ctx) : Option (List Byte) :=
  (t.hosts.find? (·.ctx = t.fallback)).map (·.name)

def carried (old : Option (Table Ctx)) (hosts : List (Host Ctx)) : Option Ctx := do
  let prev ← old.bind fallbackName
  let host ← hosts.find? (·.name = prev)
  return host.ctx

def load (dir : List Byte) (found : Found Ctx) (old : Option (Table Ctx)) :
    Option (Table Ctx) := do
  let d ← found
  let (hosts, fallback) := d.entries.foldl (loadEntry dir old) ([], none)
  if hosts = [] then none
  else
    let fallback ← fallback.or (carried old hosts)
    return ⟨hosts, fallback⟩

/-- `ioxd_certs_reload`: what it returns, and the table that serves from then
on. -/
def certsReload (dir : List Byte) (found : Found Ctx) (t : Table Ctx) : Int × Table Ctx :=
  match load dir found (some t) with
  | some fresh => (0, fresh)
  | none => (-1, t)

end

-- ---------------------------------------------------------------------------
-- The hosts
-- ---------------------------------------------------------------------------

variable {dir name : List Byte} {old : Option (Table Ctx)} {t t' : Table Ctx} {e : Dirent Ctx}
  {hosts : List (Host Ctx)} {entries : List (Dirent Ctx)}

def Dirent.host (dir : List Byte) (old : Option (Table Ctx)) (e : Dirent Ctx) :
    Option (Host Ctx) :=
  if e.whole dir then (e.fresh.or (serving old e.name)).map (⟨e.name, ·⟩) else none

theorem host_name {h : Host Ctx} (hh : e.host dir old = some h) : h.name = e.name := by
  rw [Dirent.host, Option.ite_none_right_eq_some, Option.map_eq_some_iff] at hh
  obtain ⟨-, ctx, -, rfl⟩ := hh
  rfl

theorem loadEntry_eq (acc : List (Host Ctx) × Option Ctx) (e : Dirent Ctx) :
    (loadEntry dir old acc e).1 = acc.1 ++ (e.host dir old).toList ∧
      ∀ f, (loadEntry dir old acc e).2 = some f →
        acc.2 = some f ∨ ∃ h, e.host dir old = some h ∧ h.ctx = f := by
  unfold loadEntry Dirent.host
  split
  · cases e.fresh.or (serving old e.name) with
    | none => exact ⟨(List.append_nil _).symm, fun f hf => .inl hf⟩
    | some ctx =>
      refine ⟨rfl, fun f hf => ?_⟩
      dsimp only at hf
      split at hf
      · exact .inr ⟨_, rfl, Option.some.inj hf⟩
      · exact .inl hf
  · exact ⟨(List.append_nil _).symm, fun f hf => .inl hf⟩

theorem loadLoop_eq (entries : List (Dirent Ctx)) (acc : List (Host Ctx) × Option Ctx)
    (ha : ∀ f, acc.2 = some f → ∃ h ∈ acc.1, h.ctx = f) :
    (entries.foldl (loadEntry dir old) acc).1 = acc.1 ++ entries.filterMap (Dirent.host dir old) ∧
      ∀ f, (entries.foldl (loadEntry dir old) acc).2 = some f →
        ∃ h ∈ (entries.foldl (loadEntry dir old) acc).1, h.ctx = f := by
  induction entries generalizing acc with
  | nil => exact ⟨(List.append_nil _).symm, ha⟩
  | cons e entries ih =>
    obtain ⟨h1, h2⟩ := @loadEntry_eq _ dir old acc e
    have hacc : ∀ f, (loadEntry dir old acc e).2 = some f →
        ∃ h ∈ (loadEntry dir old acc e).1, h.ctx = f := by
      intro f hf
      rw [h1]
      rcases h2 f hf with hf | ⟨h, hh, hc⟩
      · obtain ⟨h, hm, hc⟩ := ha f hf
        exact ⟨h, List.mem_append_left _ hm, hc⟩
      · exact ⟨h, List.mem_append_right _ (by simp [hh]), hc⟩
    obtain ⟨h3, h4⟩ := ih _ hacc
    refine ⟨?_, h4⟩
    rw [List.foldl_cons, h3, h1, List.append_assoc, List.filterMap_cons]
    cases e.host dir old <;> rfl

theorem hosts_distinct (hd : (entries.map (·.name)).Nodup) :
    ((entries.filterMap (Dirent.host dir old)).map (·.name)).Nodup := by
  refine hd.sublist ?_
  clear hd
  induction entries with
  | nil => exact .slnil
  | cons e entries ih =>
    rw [List.filterMap_cons]
    cases hh : e.host dir old with
    | none => exact ih.cons _
    | some h =>
      rw [List.map_cons, List.map_cons, host_name hh]
      exact ih.cons_cons _

theorem mem_hosts {h : Host Ctx} (hh : h ∈ entries.filterMap (Dirent.host dir old)) :
    ∃ e ∈ entries, e.whole dir = true ∧ e.name = h.name := by
  obtain ⟨e, he, hh⟩ := List.mem_filterMap.mp hh
  have hn := host_name hh
  rw [Dirent.host, Option.ite_none_right_eq_some] at hh
  exact ⟨e, he, hh.1, hn.symm⟩

theorem filter_none (h : ∀ e ∈ entries, e.name ≠ name) :
    (entries.filterMap (Dirent.host dir old)).filter (·.name = name) = [] := by
  rw [List.filter_eq_nil_iff]
  intro x hx hc
  obtain ⟨e, he, -, hn⟩ := mem_hosts hx
  exact h e he (hn.trans (of_decide_eq_true hc))

/-- What is found under the name of an entry is that entry's host. -/
theorem filter_host (hd : (entries.map (·.name)).Nodup) (he : e ∈ entries) :
    (entries.filterMap (Dirent.host dir old)).filter (·.name = e.name) =
      (e.host dir old).toList := by
  induction entries with
  | nil => exact absurd he List.not_mem_nil
  | cons a entries ih =>
    rw [List.map_cons, List.nodup_cons] at hd
    have hne : ∀ x ∈ entries, x.name ≠ a.name := fun x hx hc =>
      hd.1 (List.mem_map.mpr ⟨x, hx, hc⟩)
    rw [List.filterMap_cons]
    rcases List.mem_cons.mp he with rfl | he
    · cases hh : e.host dir old with
      | none => exact filter_none hne
      | some h =>
        dsimp only
        rw [List.filter_cons_of_pos (by simpa using host_name hh), filter_none hne]
        rfl
    · cases hh : a.host dir old with
      | none => exact ih hd.2 he
      | some h =>
        dsimp only
        rw [List.filter_cons_of_neg, ih hd.2 he]
        rw [host_name hh]
        simpa using (hne e he).symm

theorem serving_mem {h : Host Ctx} (hd : (t.hosts.map (·.name)).Nodup) (hh : h ∈ t.hosts) :
    serving (some t) h.name = some h.ctx := by
  have hloop (l : List (Host Ctx)) (hd : (l.map (·.name)).Nodup) (hh : h ∈ l) (acc : Option Ctx) :
      l.foldl (fun ctx x => if x.name = h.name then some x.ctx else ctx) acc = some h.ctx := by
    induction l using List.reverseRecOn with
    | nil => exact absurd hh List.not_mem_nil
    | append_singleton l x ih =>
      rw [List.map_append, List.map_singleton, List.nodup_append] at hd
      rw [List.foldl_append, List.foldl_cons, List.foldl_nil]
      rcases List.mem_append.mp hh with hm | hm
      · rw [if_neg, ih hd.1 hm]
        exact fun hc => hd.2.2 _ (List.mem_map_of_mem hm) _ (List.mem_singleton_self _) hc.symm
      · rw [List.mem_singleton.mp hm, if_pos rfl]
  exact hloop t.hosts hd hh none

theorem serving_none (h : ∀ x ∈ t.hosts, x.name ≠ name) : serving (some t) name = none := by
  have hloop (l : List (Host Ctx)) (hl : ∀ x ∈ l, x.name ≠ name) :
      l.foldl (fun ctx x => if x.name = name then some x.ctx else ctx) none = none := by
    induction l with
    | nil => rfl
    | cons x l ih =>
      rw [List.foldl_cons, if_neg (hl x List.mem_cons_self)]
      exact ih fun y hy => hl y (List.mem_cons_of_mem _ hy)
  exact hloop t.hosts h

-- ---------------------------------------------------------------------------
-- The table
-- ---------------------------------------------------------------------------

/-- A table that can serve: no name twice, and a fallback of its own. -/
structure Table.Sound (t : Table Ctx) : Prop where
  distinct : (t.hosts.map (·.name)).Nodup
  fallback : ∃ h ∈ t.hosts, h.ctx = t.fallback

/-- What a load made of the entries it found, with the table that served
before: each entry that has both its files is there once, with the context it
loaded to, or else with the one that served before, or else not at all. -/
structure Installed (dir : List Byte) (entries : List (Dirent Ctx)) (old : Option (Table Ctx))
    (t : Table Ctx) : Prop where
  sound : t.Sound
  only : ∀ h ∈ t.hosts, ∃ e ∈ entries, e.whole dir = true ∧ e.name = h.name
  fresh : ∀ e ∈ entries, e.whole dir = true → ∀ ctx, e.fresh = some ctx →
    t.hosts.filter (·.name = e.name) = [⟨e.name, ctx⟩]
  kept : ∀ e ∈ entries, e.whole dir = true → e.fresh = none → ∀ o, old = some o →
    ∀ h ∈ o.hosts, h.name = e.name → t.hosts.filter (·.name = e.name) = [h]
  absent : ∀ e ∈ entries, e.whole dir = true → e.fresh = none →
    (∀ o, old = some o → ∀ h ∈ o.hosts, h.name ≠ e.name) → t.hosts.filter (·.name = e.name) = []

theorem installed_of {entries : List (Dirent Ctx)} {fallback : Ctx}
    (hd : (entries.map (·.name)).Nodup) (ho : ∀ o, old = some o → o.Sound)
    (hf : ∃ h ∈ entries.filterMap (Dirent.host dir old), h.ctx = fallback) :
    Installed dir entries old ⟨entries.filterMap (Dirent.host dir old), fallback⟩ where
  sound := ⟨hosts_distinct hd, hf⟩
  only := fun h hh => mem_hosts hh
  fresh := by
    intro e he hw ctx hc
    rw [filter_host hd he, Dirent.host, if_pos hw, hc]
    rfl
  kept := by
    rintro e he hw hn o rfl h hh hname
    rw [filter_host hd he, Dirent.host, if_pos hw, hn, ← hname,
      serving_mem (ho o rfl).distinct hh]
    rfl
  absent := by
    intro e he hw hn hno
    have hs : serving old e.name = none := by
      cases old with
      | none => rfl
      | some o => exact serving_none (hno o rfl)
    rw [filter_host hd he, Dirent.host, if_pos hw, hn, hs]
    rfl

section
variable [DecidableEq Ctx]

theorem carried_mem {f : Ctx} (h : carried old hosts = some f) : ∃ x ∈ hosts, x.ctx = f := by
  obtain ⟨prev, -, h⟩ := Option.bind_eq_some_iff.mp h
  obtain ⟨x, hx, h⟩ := Option.bind_eq_some_iff.mp h
  exact ⟨x, List.mem_of_find?_eq_some hx, Option.some.inj h⟩

theorem load_installed {found : Found Ctx} (ho : ∀ o, old = some o → o.Sound)
    (h : load dir found old = some t) :
    ∃ d, found = some d ∧ Installed dir d.entries old t := by
  obtain ⟨d, hd, h⟩ := Option.bind_eq_some_iff.mp h
  obtain ⟨h1, h2⟩ := @loadLoop_eq _ dir old d.entries ([], none) nofun
  rw [List.nil_append] at h1
  refine ⟨d, hd, ?_⟩
  dsimp only at h
  split at h
  · cases h
  · obtain ⟨f, hf, h⟩ := Option.bind_eq_some_iff.mp h
    cases h
    rw [h1] at h2 hf ⊢
    refine installed_of d.distinct ho ?_
    rcases Option.or_eq_some_iff.mp hf with hf | ⟨-, hf⟩
    · exact h2 f hf
    · exact carried_mem hf

/-- The tables that have served, from a load on. -/
inductive History (dir : List Byte) : Table Ctx → Prop
  | load {found : Found Ctx} {t : Table Ctx} : load dir found none = some t → History dir t
  | reload {t : Table Ctx} (found : Found Ctx) : History dir t →
      History dir (certsReload dir found t).2

theorem certsReload_spec (ho : t.Sound) (found : Found Ctx) :
    certsReload dir found t = (-1, t) ∨ ∃ t' d, certsReload dir found t = (0, t') ∧
      found = some d ∧ Installed dir d.entries (some t) t' := by
  unfold certsReload
  cases hl : load dir found (some t) with
  | none => exact .inl rfl
  | some t' =>
    obtain ⟨d, hd, hi⟩ := load_installed (fun o he => Option.some.inj he ▸ ho) hl
    exact .inr ⟨t', d, rfl, hd, hi⟩

theorem History.sound (h : History dir t) : t.Sound := by
  induction h with
  | load hl =>
    obtain ⟨d, -, hi⟩ := load_installed (by rintro o ⟨⟩) hl
    exact hi.sound
  | reload found _ ih =>
    rcases certsReload_spec ih found with hr | ⟨t', d, hr, -, hi⟩
    · rw [hr]
      exact ih
    · rw [hr]
      exact hi.sound

/-- A reload leaves what serves as it is, or installs all that loads and what
served of the rest; and so on after any number of them. -/
theorem reload_conservative (h : History dir t) (found : Found Ctx) :
    t.Sound ∧ (certsReload dir found t = (-1, t) ∨ ∃ t' d, certsReload dir found t = (0, t') ∧
      found = some d ∧ Installed dir d.entries (some t) t') :=
  ⟨h.sound, certsReload_spec h.sound found⟩

end

def firstFound : Directory Nat where
  entries := [⟨str "default", true, true, some 7, true⟩, ⟨str "a", true, true, none, true⟩]
  distinct := by decide

def thenFound : Directory Nat where
  entries := [⟨str "a", true, true, some 8, true⟩, ⟨str "default", true, true, some 9, false⟩]
  distinct := by decide

/-- A host that loads at last, and a fallback whose certificate has run out. -/
theorem reload_conservative_expired : ∃ t, History (str "certs") t ∧
    certsReload (str "certs") (some thenFound) t =
      (0, ⟨[⟨str "a", 8⟩, ⟨str "default", 7⟩], 7⟩) ∧ t.Sound := by
  have hl : load (str "certs") (some firstFound) none = some ⟨[⟨str "default", 7⟩], 7⟩ := by decide
  have h : History (str "certs") ⟨[⟨str "default", 7⟩], 7⟩ := .load hl
  exact ⟨_, h, by decide, (reload_conservative h (some thenFound)).1⟩

end Ioxd.Tls.Certs
