import Ioxd.Http.Dispatch
import Ioxd.Http.Registry

/-!
# What a script registers

The groups of `Ioxd.Http.Registry` only grow: a script touches the group of its
own block and the ones it makes itself. So the endpoints that it adds are the
ones it means in every later state of the groups that leaves those alone, and
from that a whole script's table, with nothing left of the groups that were
open, is `Script.table`.
-/

namespace Ioxd.Http

open Ioxd.Pipe (Byte)

variable {M H : Type} {gs gs' : List (GroupRec M)} {r r' r'' : Registry M H}

namespace Registry

-- ---------------------------------------------------------------------------
-- Groups and their parents
-- ---------------------------------------------------------------------------

def Older (gs : List (GroupRec M)) : Prop :=
  ∀ (i : Nat) (g : GroupRec M), gs[i]? = some g → ∀ p, g.parent = some p → p < i

theorem lineageLoop_succ {i : Nat} {g : GroupRec M} (hg : gs[i]? = some g) (turns : Nat) :
    lineageLoop gs (turns + 1) i = ⟨g.path, g.mws⟩ :: g.parent.elim [] (lineageLoop gs turns) := by
  rw [lineageLoop, hg]

theorem lineageLoop_turns (ho : Older gs) {m n i : Nat} (hm : i < m) (hn : i < n) :
    lineageLoop gs m i = lineageLoop gs n i := by
  induction m generalizing n i with
  | zero => omega
  | succ m ih =>
    obtain ⟨n, rfl⟩ : ∃ k, n = k + 1 := ⟨n - 1, by omega⟩
    cases hg : gs[i]? with
    | none => rw [lineageLoop, lineageLoop, hg]
    | some g =>
      rw [lineageLoop_succ hg, lineageLoop_succ hg]
      cases hp : g.parent with
      | none => rfl
      | some p =>
        have hlt := ho i g hg p hp
        exact congrArg _ (ih (by omega) (by omega))

theorem lineage_eq (ho : Older gs) {i : Nat} {g : GroupRec M} (hg : gs[i]? = some g) :
    lineage gs i = ⟨g.path, g.mws⟩ :: g.parent.elim [] (lineage gs) := by
  have hlt : i < gs.length := (List.getElem?_eq_some_iff.mp hg).1
  obtain ⟨k, hk⟩ : ∃ k, gs.length = k + 1 := ⟨gs.length - 1, by omega⟩
  rw [lineage, hk, lineageLoop_succ hg]
  cases hp : g.parent with
  | none => rfl
  | some p =>
    have hpi := ho i g hg p hp
    exact congrArg _ (lineageLoop_turns ho (by omega) (by omega))

/-- The groups with their parents are still there. -/
def Kept (gs gs' : List (GroupRec M)) : Prop :=
  ∀ i, i < gs.length → (gs'[i]?).map (·.parent) = (gs[i]?).map (·.parent)

theorem Kept.refl (gs : List (GroupRec M)) : Kept gs gs := fun _ _ => rfl

theorem Kept.length_le (hk : Kept gs gs') : gs.length ≤ gs'.length := by
  by_contra h
  have hlast := hk (gs.length - 1) (by omega)
  rw [List.getElem?_eq_none (l := gs') (by omega), List.getElem?_eq_getElem (by omega)] at hlast
  cases hlast

theorem Kept.trans {gs'' : List (GroupRec M)} (h : Kept gs gs') (h' : Kept gs' gs'') :
    Kept gs gs'' :=
  fun i hi => (h' i (hi.trans_le h.length_le)).trans (h i hi)

theorem Kept.depth (hk : Kept gs gs') (ho : Older gs) (ho' : Older gs') {i : Nat}
    (hi : i < gs.length) : (lineage gs' i).length = (lineage gs i).length := by
  induction i using Nat.strongRecOn with
  | ind i ih =>
    have hg : gs[i]? = some gs[i] := List.getElem?_eq_getElem hi
    have hi' : i < gs'.length := hi.trans_le hk.length_le
    have hg' : gs'[i]? = some gs'[i] := List.getElem?_eq_getElem hi'
    have hp := hk i hi
    rw [hg, hg', Option.map_some, Option.map_some, Option.some_inj] at hp
    rw [lineage_eq ho hg, lineage_eq ho' hg', List.length_cons, List.length_cons, hp]
    cases hpar : gs[i].parent with
    | none => rfl
    | some p =>
      have hlt := ho i _ hg p hpar
      exact congrArg (· + 1) (ih p hlt (by omega))

/-- What the functions keep: a script's open group is one of the groups. -/
structure Nested (r : Registry M H) : Prop where
  older : Older r.groups
  current : r.current < r.groups.length

theorem init_nested : (init : Registry M H).Nested := by
  refine ⟨fun i g hg p hp => ?_, Nat.one_pos⟩
  obtain ⟨hlt, rfl⟩ := List.getElem?_eq_some_iff.mp hg
  obtain rfl : i = 0 := Nat.lt_one_iff.mp hlt
  cases hp

theorem Older.of_kept (ho : Older gs) (hk : Kept gs gs') (hl : gs'.length = gs.length) :
    Older gs' := by
  intro i g hg p hp
  have hlt : i < gs.length := hl ▸ (List.getElem?_eq_some_iff.mp hg).1
  have hpar := hk i hlt
  rw [hg, List.getElem?_eq_getElem hlt, Option.map_some, Option.map_some, Option.some_inj, hp]
    at hpar
  exact ho i _ (List.getElem?_eq_getElem hlt) p hpar.symm

-- ---------------------------------------------------------------------------
-- Middleware
-- ---------------------------------------------------------------------------

theorem foldl_addMw (mws : List M) (hl : mws.length ≤ maxMw) (ms : List M) :
    ms.foldl addMw mws = (mws ++ ms).take maxMw := by
  induction ms generalizing mws with
  | nil => rw [List.foldl_nil, List.append_nil, List.take_of_length_le hl]
  | cons mw ms ih =>
    rw [List.foldl_cons, addMw]
    split
    next h => rw [ih mws hl, List.take_append_of_le_length h.ge, List.take_append_of_le_length h.ge]
    next h =>
      rw [ih (mws ++ [mw]) (by rw [List.length_append, List.length_singleton]; omega),
        List.append_assoc, List.singleton_append]

theorem groupUse_kept (group : Option Nat) (mw : M) (r : Registry M H) :
    Kept r.groups (r.groupUse group mw).groups ∧
      (r.groupUse group mw).groups.length = r.groups.length := by
  rw [groupUse]
  split
  · exact ⟨.refl _, rfl⟩
  · refine ⟨fun j _ => ?_, List.length_modify ..⟩
    rw [List.getElem?_modify]
    cases r.groups[j]? with
    | none => rfl
    | some g => split <;> rfl

theorem groupUse_nested (hn : r.Nested) (group : Option Nat) (mw : M) :
    (r.groupUse group mw).Nested := by
  obtain ⟨hk, hl⟩ := groupUse_kept group mw r
  have hc : (r.groupUse group mw).current = r.current := by rw [groupUse]; split <;> rfl
  exact ⟨hn.older.of_kept hk hl, hc ▸ hl ▸ hn.current⟩

-- ---------------------------------------------------------------------------
-- The script form's functions
-- ---------------------------------------------------------------------------

theorem modify_last {α : Type} (l : List α) (a : α) (f : α → α) :
    (l ++ [a]).modify l.length f = l ++ [f a] := by
  induction l with
  | nil => rfl
  | cons b l ih => exact congrArg (b :: ·) ih

theorem foldl_addMw_take (ms : List M) : (ms.take maxMw).foldl addMw [] = ms.take maxMw := by
  rw [foldl_addMw [] (Nat.zero_le _), List.nil_append, List.take_take, Nat.min_self]

theorem foldl_groupUse (r : Registry M H) (g : GroupRec M) (ms : List M) :
    ms.foldl (fun r' mw => r'.groupUse (some r.groups.length) mw)
        { r with groups := r.groups ++ [g] } =
      { r with groups := r.groups ++ [{ g with
          mws := if r.built then g.mws else ms.foldl addMw g.mws }] } := by
  induction ms generalizing g with
  | nil => rw [List.foldl_nil, List.foldl_nil, ite_self]
  | cons mw ms ih =>
    rw [List.foldl_cons, groupUse]
    cases hb : r.built with
    | true =>
      have h := ih g
      rw [hb] at h
      exact h
    | false =>
      have h := ih { g with mws := addMw g.mws mw }
      rw [hb] at h
      rw [if_neg Bool.false_ne_true, Option.getD_some, modify_last]
      exact h

theorem groupBegin_eq (path : List Byte) (mws : List M) (r : Registry M H) :
    r.groupBegin path mws = (r.groups.length, { r with
      groups := r.groups ++ [⟨some r.current, path, if r.built then [] else mws.take maxMw⟩]
      current := r.groups.length }) := by
  have h := foldl_groupUse r ⟨some r.current, path, []⟩ (mws.take maxMw)
  rw [foldl_addMw_take] at h
  rw [groupBegin, groupNew, Option.getD_some]
  exact congrArg (fun r' : Registry M H =>
    (r.groups.length, { r' with current := r.groups.length })) h

/-- The middleware of an endpoint that has just been registered. -/
theorem foldl_endpointUse (r : Registry M H) (hb : r.built = false) (ep : EndpointRec M H)
    (ms : List M) :
    ms.foldl (fun r' mw => r'.endpointUse (some r.endpoints.length) mw)
        { r with endpoints := r.endpoints ++ [ep] } =
      { r with endpoints := r.endpoints ++ [{ ep with own := ms.foldl addMw ep.own }] } := by
  induction ms generalizing ep with
  | nil => rfl
  | cons mw ms ih =>
    rw [List.foldl_cons, endpointUse, hb, if_neg Bool.false_ne_true, modify_last]
    have h := ih { ep with own := addMw ep.own mw }
    rw [hb] at h
    exact h

theorem routerEndpoint_eq (method path : List Byte) (fn : H) (mws : List M) (r : Registry M H) :
    (r.routerEndpoint method path fn mws).2 =
      if r.built then r
      else { r with endpoints := r.endpoints ++
        [⟨r.current, method, path, r.endpoints.length, fn, mws.take maxMw⟩] } := by
  rw [routerEndpoint, route]
  cases hb : r.built with
  | true =>
    rw [if_pos rfl, if_pos rfl]
    exact List.foldl_fixed (mws.take maxMw)
  | false =>
    have h := foldl_endpointUse r hb ⟨r.current, method, path, r.endpoints.length, fn, []⟩
      (mws.take maxMw)
    rw [foldl_addMw_take, hb] at h
    rw [if_neg Bool.false_ne_true, if_neg Bool.false_ne_true, Option.getD_some]
    exact h

theorem groupEnd_eq {g : GroupRec M} (hg : r.groups[r.current]? = some g) :
    r.groupEnd.2 = { r with current := g.parent.getD r.current } := by
  rw [groupEnd, hg, Option.bind_some]
  cases g.parent <;> rfl

theorem Nested.group (hn : r.Nested) : ∃ g, r.groups[r.current]? = some g :=
  ⟨_, List.getElem?_eq_getElem hn.current⟩

theorem Nested.open_pos (hn : r.Nested) : 0 < (lineage r.groups r.current).length := by
  obtain ⟨g, hg⟩ := hn.group
  rw [lineage_eq hn.older hg]
  exact Nat.succ_pos _

theorem groupEnd_nested (hn : r.Nested) : r.groupEnd.2.Nested ∧ r.groupEnd.2.groups = r.groups := by
  obtain ⟨g, hg⟩ := hn.group
  rw [groupEnd_eq hg]
  refine ⟨⟨hn.older, ?_⟩, rfl⟩
  cases hp : g.parent with
  | none => exact hn.current
  | some p => exact (hn.older _ g hg p hp).trans hn.current

theorem groupEnd_open (hn : r.Nested) (h : 1 < (lineage r.groups r.current).length) :
    (lineage r.groupEnd.2.groups r.groupEnd.2.current).length + 1 =
      (lineage r.groups r.current).length := by
  obtain ⟨g, hg⟩ := hn.group
  rw [groupEnd_eq hg]
  rw [lineage_eq hn.older hg] at h ⊢
  cases hp : g.parent with
  | none =>
    rw [hp] at h
    exact absurd h (Nat.lt_irrefl 1)
  | some p => rfl

theorem groupBegin_nested (hn : r.Nested) (path : List Byte) (mws : List M) :
    (r.groupBegin path mws).2.Nested ∧ Kept r.groups (r.groupBegin path mws).2.groups := by
  rw [groupBegin_eq]
  refine ⟨⟨fun i g hg p hp => ?_, ?_⟩, fun i hi => ?_⟩
  · rcases Nat.lt_or_ge i r.groups.length with hi | hi
    · rw [List.getElem?_append_left hi] at hg
      exact hn.older i g hg p hp
    · rw [List.getElem?_append_right hi, List.getElem?_singleton] at hg
      split at hg
      · cases hg
        cases hp
        exact hn.current.trans_le hi
      · cases hg
  · rw [List.length_append]
    exact Nat.lt_succ_self _
  · rw [List.getElem?_append_left hi]

/-- The groups are kept and `n` more of them are open. -/
structure Opens (n : Nat) (r r' : Registry M H) : Prop where
  nested : r'.Nested
  kept : Kept r.groups r'.groups
  opened : (lineage r'.groups r'.current).length = (lineage r.groups r.current).length + n

theorem Opens.trans {m n : Nat} (h : Opens m r r') (h' : Opens n r' r'') : Opens (m + n) r r'' :=
  ⟨h'.nested, h.kept.trans h'.kept, by rw [h'.opened, h.opened, Nat.add_assoc]⟩

theorem Opens.of_eq {m n : Nat} (h : Opens m r r') (hmn : m = n) : Opens n r r' := hmn ▸ h

theorem Opens.before {n : Nat} (h : Opens 0 r r') (h' : Opens n r' r'') : Opens n r r'' :=
  (Nat.zero_add n) ▸ h.trans h'

theorem Opens.of_current (hn : r.Nested) (hn' : r'.Nested) (hk : Kept r.groups r'.groups)
    (hc : r'.current = r.current) : Opens 0 r r' :=
  ⟨hn', hk, by rw [hc, Nat.add_zero, hk.depth hn.older hn'.older hn.current]⟩

theorem groupUse_opens (hn : r.Nested) (group : Option Nat) (mw : M) :
    Opens 0 r (r.groupUse group mw) :=
  .of_current hn (groupUse_nested hn group mw) (groupUse_kept group mw r).1 (by
    rw [groupUse]
    split <;> rfl)

theorem default_opens (hn : r.Nested) (fn : H) : Opens 0 r (r.default fn) := by
  rw [default]
  split
  · exact .of_current hn hn (.refl _) rfl
  · exact .of_current hn ⟨hn.older, hn.current⟩ (.refl _) rfl

theorem routerEndpoint_opens (hn : r.Nested) (method path : List Byte) (fn : H) (mws : List M) :
    Opens 0 r (r.routerEndpoint method path fn mws).2 := by
  rw [routerEndpoint_eq]
  split
  · exact .of_current hn hn (.refl _) rfl
  · exact .of_current hn ⟨hn.older, hn.current⟩ (.refl _) rfl

theorem groupBegin_opens (hn : r.Nested) (path : List Byte) (mws : List M) :
    Opens 1 r (r.groupBegin path mws).2 := by
  obtain ⟨hn', hk⟩ := groupBegin_nested hn path mws
  have hlast : (r.groupBegin path mws).2.groups[(r.groupBegin path mws).2.current]? =
      some ⟨some r.current, path, if r.built then [] else mws.take maxMw⟩ := by
    rw [groupBegin_eq]
    exact List.getElem?_concat_length
  refine ⟨hn', hk, ?_⟩
  rw [lineage_eq hn'.older hlast]
  exact congrArg (· + 1) (hk.depth hn.older hn'.older hn.current)

theorem Opens.groupEnd {n : Nat} (h : Opens (n + 1) r r') (hn : r.Nested) :
    Opens n r r'.groupEnd.2 := by
  obtain ⟨hn', hg⟩ := groupEnd_nested h.nested
  have ho := h.opened
  have hpos := hn.open_pos
  have he := groupEnd_open h.nested (by omega)
  exact ⟨hn', hg ▸ h.kept, by omega⟩

end Registry

open Registry

namespace Script

-- ---------------------------------------------------------------------------
-- How blocks are left
-- ---------------------------------------------------------------------------

/-- A block of which `n` blocks are to be left: it ends, or its variable's cleanup runs. -/
def shut (cleanup : Bool) (n : Nat) (r : Registry M H) : Registry M H :=
  if n = 0 ∨ cleanup then r.groupEnd.2 else r

theorem exec_group (cleanup : Bool) (path : List Byte) (mws : List M) (body rest : Script M H)
    (r : Registry M H) :
    (Script.group path mws body rest).exec cleanup r =
      let b := body.exec cleanup (r.groupBegin path mws).2
      if b.1 ≤ 1 then rest.exec cleanup (shut cleanup b.1 b.2)
      else (b.1 - 1, shut cleanup b.1 b.2) := by
  rw [exec]
  dsimp only
  generalize body.exec cleanup (r.groupBegin path mws).2 = b
  obtain ⟨n, r'⟩ := b
  cases n with
  | zero =>
    rw [if_pos (Nat.zero_le 1), shut, if_pos (Or.inl rfl)]
    cases cleanup <;> rfl
  | succ n =>
    have hshut : (if cleanup then r'.groupPop (some (r.groupBegin path mws).1) else r') =
        shut cleanup (n + 1) r' := by
      cases cleanup <;> rfl
    simp only [hshut]
    cases n <;> rfl

theorem exec_exits (cleanup : Bool) (s : Script M H) (r : Registry M H) :
    (s.exec cleanup r).1 = s.exits := by
  induction s generalizing r with
  | done => rfl
  | leave n => rfl
  | use mw rest ih => exact ih _
  | default fn rest ih => exact ih _
  | endpoint method path fn mws rest ih => exact ih _
  | group path mws body rest ihb ihr =>
    rw [exec_group, exits]
    simp only [ihb]
    split
    · exact ihr _
    · rfl

theorem exec_group_exits (cleanup : Bool) (path : List Byte) (mws : List M)
    (body rest : Script M H) (r : Registry M H) :
    ((Script.group path mws body rest).exec cleanup r).2 =
      let r' := shut cleanup body.exits (body.exec cleanup (r.groupBegin path mws).2).2
      if body.exits ≤ 1 then (rest.exec cleanup r').2 else r' := by
  rw [exec_group]
  simp only [exec_exits]
  split <;> rfl

theorem shut_opens {m : Nat} (h : Opens (m + 1) r r') (hn : r.Nested) (cleanup : Bool) (n : Nat) :
    Opens (m + if cleanup ∨ n = 0 then 0 else 1) r (shut cleanup n r') := by
  rw [shut]
  by_cases hs : n = 0 ∨ cleanup
  · rw [if_pos hs, if_pos hs.symm]
    exact h.groupEnd hn
  · rw [if_neg hs, if_neg (mt Or.symm hs)]
    exact h

/-- What is still open behind a script are the blocks that it left with no cleanup. -/
theorem exec_opens (cleanup : Bool) (s : Script M H) (hn : r.Nested) :
    Opens (if cleanup then 0 else s.abandoned) r (s.exec cleanup r).2 := by
  induction s generalizing r with
  | done => rw [abandoned, ite_self]; exact .of_current hn hn (.refl _) rfl
  | leave n => rw [abandoned, ite_self]; exact .of_current hn hn (.refl _) rfl
  | use mw rest ih =>
    have h := groupUse_opens hn (some r.current) mw
    exact h.before (ih h.nested)
  | default fn rest ih =>
    have h := default_opens hn fn
    exact h.before (ih h.nested)
  | endpoint method path fn mws rest ih =>
    have h := routerEndpoint_opens hn method path fn mws
    exact h.before (ih h.nested)
  | group path mws body rest ihb ihr =>
    have hb := groupBegin_opens hn path mws
    have hs := hb.trans (ihb hb.nested)
    rw [Nat.add_comm] at hs
    have hs := shut_opens hs hn cleanup body.exits
    rw [exec_group_exits, abandoned]
    by_cases he : body.exits ≤ 1
    · rw [if_pos he, if_pos he]
      refine (hs.trans (ihr hs.nested)).of_eq ?_
      cases cleanup <;> grind
    · rw [if_neg he, if_neg he]
      refine hs.of_eq ?_
      cases cleanup <;> grind

end Script

-- ---------------------------------------------------------------------------
-- What is registered
-- ---------------------------------------------------------------------------

structure Effect (M H : Type) where
  endpoints : List (Group M) → Nat → List (Endpoint M H)
  uses : List M
  fallback : Option H → Option H

def Effect.and (e f : Effect M H) : Effect M H where
  endpoints outer seq :=
    e.endpoints outer seq ++ f.endpoints outer (seq + (e.endpoints outer seq).length)
  uses := e.uses ++ f.uses
  fallback fn := f.fallback (e.fallback fn)

def Script.effect (s : Script M H) : Effect M H :=
  ⟨fun outer seq => s.endpoints outer seq, s.uses, s.fallback⟩

namespace Registry

/-- The new endpoints are the ones meant in all groups that have the new groups
as they are now, whatever becomes of the groups around them. -/
structure Does (e : Effect M H) (r r' : Registry M H) : Prop where
  opens : Opens 0 r r'
  current : r'.current = r.current
  built : r'.built = false
  tree : r'.tree = r.tree
  fallback : r'.fallback = e.fallback r.fallback
  own : ∀ g, r.groups[r.current]? = some g →
    r'.groups[r.current]? = some { g with mws := e.uses.foldl addMw g.mws }
  others : ∀ i, i < r.groups.length → i ≠ r.current → r'.groups[i]? = r.groups[i]?
  endpoints : ∃ new, r'.endpoints = r.endpoints ++ new ∧ ∀ gs : List (GroupRec M), Older gs →
    (∀ i, r.groups.length ≤ i → i < r'.groups.length → gs[i]? = r'.groups[i]?) →
    new.map (resolve gs) = e.endpoints (lineage gs r.current) r.endpoints.length

theorem Does.and {e f : Effect M H} (he : Does e r r') (hf : Does f r' r'') (hn : r.Nested) :
    Does (e.and f) r r'' := by
  have hlen := he.opens.kept.length_le
  refine ⟨he.opens.trans hf.opens, hf.current.trans he.current, hf.built, hf.tree.trans he.tree,
    by rw [hf.fallback, he.fallback]; rfl, fun g hg => ?_, fun i hi hne => ?_, ?_⟩
  · have h := hf.own
    rw [he.current] at h
    rw [h _ (he.own g hg), Effect.and, List.foldl_append]
  · rw [hf.others i (hi.trans_le hlen) (he.current ▸ hne), he.others i hi hne]
  · obtain ⟨new, hnew, hmeans⟩ := he.endpoints
    obtain ⟨new', hnew', hmeans'⟩ := hf.endpoints
    refine ⟨new ++ new', by rw [hnew', hnew, List.append_assoc], fun gs ho hgs => ?_⟩
    -- what `f` does behind leaves the groups of `e` alone: its own group is older
    have hm := hmeans gs ho fun i hi hi' => by
      rw [hgs i hi (hi'.trans_le hf.opens.kept.length_le)]
      exact hf.others i hi' (by rw [he.current]; exact (hn.current.trans_le hi).ne')
    have hm' := hmeans' gs ho fun i hi hi' => hgs i (hlen.trans hi) hi'
    have hl := congrArg List.length hm
    rw [List.length_map] at hl
    rw [hnew, he.current, List.length_append, hl] at hm'
    rw [List.map_append, hm, hm']
    rfl

theorem Does.of_groups {e : Effect M H} (ho : Opens 0 r r')
    (hc : r'.current = r.current) (hb : r'.built = false) (ht : r'.tree = r.tree)
    (hf : r'.fallback = e.fallback r.fallback) (hg : r'.groups = r.groups) (hu : e.uses = [])
    (he : ∃ new, r'.endpoints = r.endpoints ++ new ∧ ∀ gs : List (GroupRec M),
      new.map (resolve gs) = e.endpoints (lineage gs r.current) r.endpoints.length) :
    Does e r r' := by
  obtain ⟨new, hnew, hmeans⟩ := he
  refine ⟨ho, hc, hb, ht, hf, fun g hgr => ?_, fun i _ _ => by rw [hg], new, hnew,
    fun gs _ _ => hmeans gs⟩
  rw [hg, hgr, hu]
  rfl

theorem does_none (hn : r.Nested) (hb : r.built = false) :
    Does ⟨fun _ _ => [], [], id⟩ r r :=
  .of_groups (.of_current hn hn (.refl _) rfl) rfl hb rfl rfl rfl rfl
    ⟨[], (List.append_nil _).symm, fun _ => rfl⟩

theorem groupUse_does (hn : r.Nested) (hb : r.built = false) (mw : M) :
    Does ⟨fun _ _ => [], [mw], id⟩ r (r.groupUse (some r.current) mw) := by
  have ho := groupUse_opens hn (some r.current) mw
  rw [groupUse, hb, if_neg Bool.false_ne_true, Option.getD_some] at ho ⊢
  refine ⟨ho, rfl, rfl, rfl, rfl, fun g hg => ?_, fun i _ hi => ?_, [],
    (List.append_nil _).symm, fun _ _ _ => rfl⟩
  · simp only [List.getElem?_modify_eq, hg]
    rfl
  · exact List.getElem?_modify_ne _ _ hi.symm

theorem default_does (hn : r.Nested) (hb : r.built = false) (fn : H) :
    Does ⟨fun _ _ => [], [], fun _ => some fn⟩ r (r.default fn) := by
  have ho := default_opens hn fn
  rw [default, hb, if_neg Bool.false_ne_true] at ho ⊢
  exact .of_groups ho rfl rfl rfl rfl rfl rfl ⟨[], (List.append_nil _).symm, fun _ => rfl⟩

theorem routerEndpoint_does (hn : r.Nested) (hb : r.built = false) (method path : List Byte)
    (fn : H) (mws : List M) :
    Does ⟨fun outer seq => [⟨outer, method, path, seq, fn, mws.take maxMw⟩], [], id⟩ r
      (r.routerEndpoint method path fn mws).2 := by
  have ho := routerEndpoint_opens hn method path fn mws
  rw [routerEndpoint_eq, hb, if_neg Bool.false_ne_true] at ho ⊢
  exact .of_groups ho rfl rfl rfl rfl rfl rfl ⟨_, rfl, fun _ => rfl⟩

/-- A block's endpoints have its group in front of the ones around it. -/
theorem group_does (hn : r.Nested) (hb : r.built = false) (path : List Byte) (mws : List M)
    (body : Script M H) (h : Does body.effect (r.groupBegin path mws).2 r') :
    Does ⟨fun outer seq => body.endpoints (Script.blockGroup path mws body :: outer) seq, [],
      body.fallback⟩ r r'.groupEnd.2 := by
  have hbegin := groupBegin_opens hn path mws
  have hopens := (hbegin.trans h.opens).groupEnd hn
  rw [groupBegin_eq, hb, if_neg Bool.false_ne_true] at h hbegin
  have hblock := h.own ⟨some r.current, path, mws.take maxMw⟩ List.getElem?_concat_length
  have hold {i : Nat} (hi : i < r.groups.length) : r'.groups[i]? = r.groups[i]? := by
    rw [h.others i (by rw [List.length_append]; omega) hi.ne, List.getElem?_append_left hi]
  have hlt : r.groups.length < r'.groups.length := (List.getElem?_eq_some_iff.mp hblock).1
  rw [groupEnd_eq (h.current ▸ hblock)] at hopens ⊢
  refine ⟨hopens, rfl, h.built, h.tree, h.fallback, fun g hg => ?_, fun i hi _ => hold hi, ?_⟩
  · exact (hold hn.current).trans hg
  · obtain ⟨new, hnew, hmeans⟩ := h.endpoints
    refine ⟨new, hnew, fun gs ho hgs => ?_⟩
    have hm := hmeans gs ho fun i hi hi' =>
      hgs i (by rw [List.length_append] at hi; omega) hi'
    have hline := lineage_eq ho ((hgs _ le_rfl hlt).trans hblock)
    have hl : (mws.take maxMw).length ≤ maxMw := List.length_take_le ..
    rw [foldl_addMw _ hl] at hline
    rw [hline] at hm
    exact hm

end Registry

theorem Script.exec_does (cleanup : Bool) (s : Script M H) (hn : r.Nested)
    (hb : r.built = false) (hs : cleanup = true ∨ s.abandoned = 0) :
    Does s.effect r (s.exec cleanup r).2 := by
  induction s generalizing r with
  | done => exact does_none hn hb
  | leave n => exact does_none hn hb
  | use mw rest ih =>
    have h := groupUse_does hn hb mw
    exact h.and (ih h.opens.nested h.built hs) hn
  | default fn rest ih =>
    have h := default_does hn hb fn
    exact h.and (ih h.opens.nested h.built hs) hn
  | endpoint method path fn mws rest ih =>
    have h := routerEndpoint_does hn hb method path fn mws
    exact h.and (ih h.opens.nested h.built hs) hn
  | group path mws body rest ihb ihr =>
    have hbegin := groupBegin_opens hn path mws
    have hbuilt : (r.groupBegin path mws).2.built = false := by rw [groupBegin_eq]; exact hb
    have hsb : cleanup = true ∨ body.abandoned = 0 := by rw [abandoned] at hs; grind
    have hg := group_does hn hb path mws body (ihb hbegin.nested hbuilt hsb)
    -- the group is closed on either way out of the block
    have hshut (r : Registry M H) : shut cleanup body.exits r = r.groupEnd.2 :=
      if_pos (by rw [abandoned] at hs; grind)
    rw [exec_group_exits, hshut, effect]
    by_cases he : body.exits ≤ 1
    · have hsr : cleanup = true ∨ rest.abandoned = 0 := by rw [abandoned, if_pos he] at hs; grind
      have h := hg.and (ihr hg.opens.nested hg.built hsr) hn
      simp only [endpoints, uses, fallback, if_pos he]
      exact h
    · simp only [endpoints, uses, fallback, if_neg he, List.append_nil]
      exact hg

-- ---------------------------------------------------------------------------
-- After the start
-- ---------------------------------------------------------------------------

namespace Registry

structure Frozen (r r' : Registry M H) : Prop where
  built : r'.built = true
  endpoints : r'.endpoints = r.endpoints
  tree : r'.tree = r.tree
  fallback : r'.fallback = r.fallback
  groups : ∀ i, i < r.groups.length → r'.groups[i]? = r.groups[i]?

theorem Frozen.refl (hb : r.built = true) : Frozen r r := ⟨hb, rfl, rfl, rfl, fun _ _ => rfl⟩

theorem Frozen.trans (h : Frozen r r') (h' : Frozen r' r'') : Frozen r r'' := by
  refine ⟨h'.built, h'.endpoints.trans h.endpoints, h'.tree.trans h.tree,
    h'.fallback.trans h.fallback, fun i hi => ?_⟩
  have hi' : i < r'.groups.length := by
    have hsome := h.groups i hi
    rw [List.getElem?_eq_getElem hi] at hsome
    exact (List.getElem?_eq_some_iff.mp hsome).1
  exact (h'.groups i hi').trans (h.groups i hi)

theorem groupEnd_frozen (hb : r.built = true) : Frozen r r.groupEnd.2 := by
  rw [groupEnd]
  dsimp only
  split
  · exact ⟨hb, rfl, rfl, rfl, fun _ _ => rfl⟩
  · exact .refl hb

theorem groupBegin_frozen (hb : r.built = true) (path : List Byte) (mws : List M) :
    Frozen r (r.groupBegin path mws).2 := by
  rw [groupBegin_eq]
  exact ⟨hb, rfl, rfl, rfl, fun i hi => List.getElem?_append_left hi⟩

end Registry

theorem Script.exec_frozen (cleanup : Bool) (s : Script M H) (hb : r.built = true) :
    Frozen r (s.exec cleanup r).2 := by
  induction s generalizing r with
  | done => exact .refl hb
  | leave n => exact .refl hb
  | use mw rest ih => rw [exec, groupUse, if_pos hb]; exact ih hb
  | default fn rest ih => rw [exec, Registry.default, if_pos hb]; exact ih hb
  | endpoint method path fn mws rest ih =>
    rw [exec, routerEndpoint_eq, if_pos hb]
    exact ih hb
  | group path mws body rest ihb ihr =>
    have hbegin := groupBegin_frozen hb path mws
    have hbody := hbegin.trans (ihb hbegin.built)
    have hshut : Frozen r (shut cleanup body.exits
        (body.exec cleanup (r.groupBegin path mws).2).2) := by
      rw [shut]
      split
      · exact hbody.trans (groupEnd_frozen hbody.built)
      · exact hbody
    rw [exec_group_exits]
    dsimp only
    split
    · exact hshut.trans (ihr hshut.built)
    · exact hshut

-- ---------------------------------------------------------------------------
-- The whole registration
-- ---------------------------------------------------------------------------

theorem Script.groupDepth_exec (cleanup : Bool) (s : Script M H) :
    (s.exec cleanup .init).2.groupDepth = if cleanup then 0 else s.abandoned := by
  have h := (s.exec_opens cleanup (init_nested (M := M) (H := H))).opened
  rw [groupDepth, h]
  exact Nat.add_sub_cancel_left ..

/-- The groups open when the workers start are the blocks that were left with no
cleanup. With none of them the table is the one that the script means, and it is
what the workers serve, whatever is registered from then on. -/
theorem Script.registered (cleanup : Bool) (s late : Script M H) :
    let r := (s.exec cleanup .init).2
    let r' := (late.exec cleanup r.build).2
    (r.groupDepth = if cleanup then 0 else s.abandoned) ∧
      (r.groupDepth = 0 → r.table = s.table ∧ r'.tree = routerBuild s.table ∧
        r'.fallback = s.fallback none ∧
        r'.groups[0]? = some ⟨none, [], s.uses.take maxMw⟩) := by
  intro r r'
  refine ⟨s.groupDepth_exec cleanup, fun hd => ?_⟩
  have hs : cleanup = true ∨ s.abandoned = 0 := by
    rw [s.groupDepth_exec cleanup] at hd
    cases cleanup
    · exact .inr hd
    · exact .inl rfl
  have h : Does s.effect .init r := s.exec_does cleanup init_nested rfl hs
  have hroot : r.groups[0]? = some ⟨none, [], s.uses.take maxMw⟩ := by
    have hg := h.own ⟨none, [], []⟩ rfl
    rw [foldl_addMw [] (Nat.zero_le _)] at hg
    exact hg
  have htable : r.table = s.table := by
    obtain ⟨new, hnew, hmeans⟩ := h.endpoints
    have hm := hmeans r.groups h.opens.nested.older fun _ _ _ => rfl
    have hline : lineage r.groups 0 = _ := lineage_eq h.opens.nested.older hroot
    rw [Registry.table, hnew]
    exact hm.trans (congrArg (s.endpoints · 0) hline)
  have hbuild : r.build = { r with built := true, tree := r.table.foldl insert r.tree } := by
    rw [build, h.built, if_neg Bool.false_ne_true]
  have hf : Frozen r.build r' := late.exec_frozen cleanup (by rw [hbuild])
  refine ⟨htable, ?_, ?_, ?_⟩
  · rw [hf.tree, hbuild, htable, h.tree]
    rfl
  · rw [hf.fallback, hbuild]
    exact h.fallback
  · rw [hf.groups 0 (by rw [hbuild]; exact Nat.zero_lt_of_lt h.opens.nested.current), hbuild]
    exact hroot

/-- A block with middleware behind its endpoint, left before its end. -/
def brokenOff : Script Nat Nat :=
  .use 1 <| .group (str "/api") [2]
    (.endpoint (str "GET") (str "/a") 10 [] <| .use 3 <| .leave 1) <|
    .endpoint (str "GET") (str "/b") 11 [4] .done

/-- The cleanup makes the difference to `/b`. -/
theorem Script.registered_brokenOff :
    (brokenOff.exec false .init).2.groupDepth = 1 ∧
    (brokenOff.exec true .init).2.table =
      [⟨[⟨str "/api", [2, 3]⟩, ⟨[], [1]⟩], str "GET", str "/a", 0, 10, []⟩,
        ⟨[⟨[], [1]⟩], str "GET", str "/b", 1, 11, [4]⟩] :=
  ⟨(registered false brokenOff .done).1, ((registered true brokenOff .done).2 rfl).1⟩

-- ---------------------------------------------------------------------------
-- The root's middleware
-- ---------------------------------------------------------------------------

/-- The groups around a script are around each of its endpoints. -/
theorem Script.endpoints_within (s : Script M H) (outer : List (Group M)) (seq : Nat) :
    ∀ ep ∈ s.endpoints outer seq, outer <:+ ep.groups := by
  induction s generalizing outer seq with
  | done => exact fun ep hep => by cases hep
  | leave n => exact fun ep hep => by cases hep
  | use mw rest ih => exact ih outer seq
  | default fn rest ih => exact ih outer seq
  | endpoint method path fn mws rest ih =>
    intro ep hep
    rcases List.mem_cons.mp hep with rfl | hep
    · exact List.suffix_rfl
    · exact ih outer _ ep hep
  | group path mws body rest ihb ihr =>
    intro ep hep
    rcases List.mem_append.mp hep with hep | hep
    · exact (List.suffix_cons ..).trans (ihb _ seq ep hep)
    · split at hep
      · exact ihr outer _ ep hep
      · cases hep

/-- What a script uses outside every block comes first, whatever a request is
answered with. -/
theorem Script.chain_rooted (s : Script M H) (method path : List Byte) (res : Response) :
    s.uses.take maxMw <+:
      (routerDispatch (routerBuild s.table) method path res).chain (s.uses.take maxMw) := by
  have h := routerDispatch_refines s.table method path res
  generalize routerDispatch (routerBuild s.table) method path res = d at h
  cases h with
  | notAllowed => exact List.prefix_rfl
  | fallback => exact List.prefix_rfl
  | @endpoint sh ep params hsel =>
    obtain ⟨inner, hgroups⟩ := s.endpoints_within [⟨[], s.uses.take maxMw⟩] 0 ep
      (List.mem_of_mem_filter (served_mem hsel.serves))
    have hchain : flattenChain ep = s.uses.take maxMw ++
        (inner.reverse.flatMap (·.mws) ++ ep.own) := by
      rw [flattenChain, ← hgroups, List.reverse_append, List.flatMap_append, List.append_assoc]
      simp
    exact ⟨_, hchain.symm⟩

end Ioxd.Http
