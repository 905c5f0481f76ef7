import Ioxd.Http.Routes
import Ioxd.Http.TextLaws
import Mathlib.Data.List.Dedup
import Mathlib.Data.List.Perm.Subperm

/-!
# The route tree refines the flat route list

`ioxd__router_dispatch` runs the endpoint that the flat list selects, or the 405
handler when the path alone has endpoints, with an `allow` header that names the
methods it could have had.
-/

namespace Ioxd.Http

open Flat
open Ioxd.Pipe (Byte)
open Trie (Fits Earlier patterns caught wilds)

variable {M H : Type} {table : List (Endpoint M H)} {method path : List Byte}

theorem shallow_routerBuild (table : List (Endpoint M H)) : Shallow (routerBuild table) 0 :=
  fun _ hp => get_routerBuild_eq_nil.mpr (wilds_ofShape (by omega))

theorem served_mem {sh : Shape} {ep : Endpoint M H} (h : served table method sh = some ep) :
    ep ∈ ofShape table sh := by
  unfold served at h
  rcases Option.or_eq_some_iff.mp h with h | ⟨-, h⟩
  · exact List.mem_of_find?_eq_some h
  · split at h
    · exact List.mem_of_find?_eq_some h
    · cases h

theorem shape_of_mem {sh : Shape} {ep : Endpoint M H} (h : ep ∈ ofShape table sh) :
    ep.shape = sh := by
  have := (List.mem_filter.mp h).2
  rw [decide_eq_true_eq] at this
  exact this.2

theorem length_names (ep : Endpoint M H) : ep.names.length = wilds ep.shape := by
  rw [Endpoint.names, Endpoint.shape, List.length_map, wilds, List.countP_map,
    List.countP_eq_length_filter]
  congr 2
  funext seg
  by_cases h : isCapture seg = true <;> simp [h]

@[simp] theorem length_decodeValues (used : Nat) (raws : List Segment) :
    (decodeValues used raws).length = raws.length := by
  induction raws generalizing used with
  | nil => rfl
  | cons raw raws ih => simp [decodeValues, ih]

theorem firstOf_some {sh : Shape} {r : Route M H}
    (h : firstOf method (routerBuild table) (patterns (pieces path)) = some (sh, r)) :
    ∃ ep, r = ep.route ∧ Selects table method path sh ep := by
  obtain ⟨p, hp, hf, hfirst⟩ := Trie.findSome_earliest (Trie.patterns_sorted _) h
  rw [endpointFor_get] at hf
  cases hs : served table method p with
  | none => simp [hs] at hf
  | some ep =>
    rw [hs] at hf
    obtain ⟨rfl, rfl⟩ := Prod.mk.inj (Option.some.inj hf)
    refine ⟨ep, rfl, Trie.mem_patterns.mp hp, hs, fun sh' hfit hne => ?_⟩
    refine hfirst sh' (Trie.mem_patterns.mpr hfit) ?_
    rw [endpointFor_get]
    simpa using hne

theorem firstOf_none (h : firstOf method (routerBuild table) (patterns (pieces path)) = none)
    {sh : Shape} (hf : Fits sh (pieces path)) : served table method sh = none := by
  have := List.findSome?_eq_none_iff.mp h sh (Trie.mem_patterns.mpr hf)
  rw [endpointFor_get] at this
  simpa using this

-- ---------------------------------------------------------------------------
-- The nodes seen
-- ---------------------------------------------------------------------------

theorem seen_seeAll (w : Walk M H) (node : Node M H) (ps : List Shape)
    (h : w.seen.length ≤ seenMax) : (w.seeAll node ps).seen =
      (w.seen ++ (ps.map (Trie.get · node)).filter (· ≠ [])).take seenMax := by
  induction ps generalizing w with
  | nil => simp [Walk.seeAll, List.take_of_length_le h]
  | cons p ps ih =>
    show (Walk.seeAll (w.see (node.get p)) node ps).seen = _
    unfold Walk.see
    by_cases h0 : node.get p = []
    · rw [if_neg (by simp [h0]), ih w h]
      simp [h0]
    by_cases hl : w.seen.length < seenMax
    · rw [if_pos ⟨h0, hl⟩, ih _ (by rw [List.length_append, List.length_singleton]; exact hl)]
      simp [h0]
    · have hfull : w.seen.length = seenMax := by omega
      rw [if_neg (by simp [hl]), ih w h, List.take_append, List.take_append, hfull]
      simp

def seenBy (table : List (Endpoint M H)) (path : List Byte) : List (List (Route M H)) :=
  ((patterns (pieces path)).map (Trie.get · (routerBuild table))).filter (· ≠ [])

theorem seenBy_eq_nil :
    seenBy table path = [] ↔ ∀ sh, Fits sh (pieces path) → ofShape table sh = [] := by
  simp only [seenBy, List.filter_eq_nil_iff, List.mem_map, decide_eq_true_eq, not_not]
  constructor
  · intro h sh hf
    exact get_routerBuild_eq_nil.mp (h _ ⟨sh, Trie.mem_patterns.mpr hf, rfl⟩)
  · rintro h _ ⟨sh, hp, rfl⟩
    exact get_routerBuild_eq_nil.mpr (h sh (Trie.mem_patterns.mp hp))

def missed (seen : List (List (Route M H))) (res : Response) : Dispatched M H :=
  if seen = [] then .fallback
  else
    let res := { res with status := 405 }
    .notAllowed <|
      match allowValue seen with
      | some value => (header res (str "allow") value).2
      | none => res

theorem routerDispatch_cases (table : List (Endpoint M H)) (method path : List Byte)
    (res : Response) :
    (∃ sh ep, Selects table method path sh ep ∧
      routerDispatch (routerBuild table) method path res =
        .endpoint ep.route (ep.names.zip (decodeValues 0 (caught sh (pieces path))))) ∨
      (∀ sh, Fits sh (pieces path) → served table method sh = none) ∧
        routerDispatch (routerBuild table) method path res =
          missed ((seenBy table path).take seenMax) res := by
  have ho := walk_outcome method (pieces path) (routerBuild table) ⟨[], []⟩
    (shallow_routerBuild table)
  unfold routerDispatch
  rw [segments_eq]
  generalize walk method (pieces path) (routerBuild table) ⟨[], []⟩ = r at ho
  cases ho with
  | @found sh r w hf hv =>
    obtain ⟨ep, rfl, hsel⟩ := firstOf_some hf
    refine .inl ⟨sh, ep, hsel, ?_⟩
    dsimp only
    rw [show w.values = caught sh (pieces path) from hv]
    rfl
  | @missed w hf hw =>
    have hseen : w.seen = (seenBy table path).take seenMax := by
      rw [hw, seen_seeAll _ _ _ (Nat.zero_le _)]
      rfl
    exact .inr ⟨fun sh => firstOf_none hf, by rw [← hseen]; rfl⟩

/-- What is done with a request, by the flat list. -/
inductive Refines (table : List (Endpoint M H)) (method path : List Byte) :
    Dispatched M H → Prop
  | endpoint {sh : Shape} {ep : Endpoint M H} {params : List (List Byte × List Byte)} :
      Selects table method path sh ep → params.length = wilds sh →
      params.map (·.1) = ep.names →
      params.map (·.2) = decodeValues 0 (caught sh (pieces path)) →
      Refines table method path (.endpoint ep.route params)
  | notAllowed {res : Response} : (∀ sh, Fits sh (pieces path) → served table method sh = none) →
      (∃ sh, Fits sh (pieces path) ∧ ofShape table sh ≠ []) →
      Refines table method path (.notAllowed res)
  | fallback : (∀ sh, Fits sh (pieces path) → ofShape table sh = []) →
      Refines table method path .fallback

/-- For every table and every request. -/
theorem routerDispatch_refines (table : List (Endpoint M H)) (method path : List Byte)
    (res : Response) :
    Refines table method path (routerDispatch (routerBuild table) method path res) := by
  rcases routerDispatch_cases table method path res with ⟨sh, ep, hsel, he⟩ | ⟨hnone, he⟩
  · have hlen : ep.names.length = (decodeValues 0 (caught sh (pieces path))).length := by
      rw [length_names, shape_of_mem (served_mem hsel.serves), length_decodeValues,
        hsel.fits.length_caught]
    rw [he]
    refine .endpoint hsel ?_ (List.map_fst_zip (Nat.le_of_eq hlen))
      (List.map_snd_zip (Nat.le_of_eq hlen.symm))
    rw [List.length_zip, hlen, Nat.min_self, length_decodeValues, hsel.fits.length_caught]
  · have hnil : (seenBy table path).take seenMax = [] ↔
        ∀ sh, Fits sh (pieces path) → ofShape table sh = [] := by
      rw [List.take_eq_nil_iff, ← seenBy_eq_nil]
      simp [seenMax]
    rw [he, missed]
    split
    · rename_i h0
      exact .fallback (hnil.mp h0)
    · rename_i h0
      rw [hnil] at h0
      push Not at h0
      exact .notAllowed hnone h0

def usersTable : List (Endpoint Unit Unit) := [⟨[], str "GET", str "/users/:id", 0, (), []⟩]

/-- A capture's value is not the segment as it came, but what its escapes stand
for. -/
theorem capture_decoded :
    ∃ r, routerDispatch (routerBuild usersTable) (str "GET") (str "/users/%65")
        (.init fun _ => 0) = .endpoint r [(str "id", str "e")] ∧
      caught r.shape (pieces (str "/users/%65")) = [str "%65"] := by
  refine ⟨⟨⟨[], str "GET", str "/users/:id", 0, (), []⟩, [str "id"]⟩, ?_, by decide +kernel⟩
  rfl

-- ---------------------------------------------------------------------------
-- The allow header
-- ---------------------------------------------------------------------------

/-- The methods of the endpoints of the shapes that a path fits. -/
def methodsAt (table : List (Endpoint M H)) (path : List Byte) : List (List Byte) :=
  (((patterns (pieces path)).flatMap (ofShape table)).map (·.method)).dedup

/-- These and the `HEAD` that a `GET` stands in for. -/
def allowed (table : List (Endpoint M H)) (path : List Byte) : List (List Byte) :=
  if str "GET" ∈ methodsAt table path ∧ str "HEAD" ∉ methodsAt table path then
    str "HEAD" :: methodsAt table path
  else methodsAt table path

theorem mem_methodsAt {m : List Byte} :
    m ∈ methodsAt table path ↔
      ∃ sh, Fits sh (pieces path) ∧ ∃ ep ∈ ofShape table sh, ep.method = m := by
  simp only [methodsAt, List.mem_dedup, List.mem_map, List.mem_flatMap, Trie.mem_patterns]
  constructor
  · rintro ⟨ep, ⟨sh, hf, he⟩, rfl⟩
    exact ⟨sh, hf, ep, he, rfl⟩
  · rintro ⟨sh, hf, ep, he, rfl⟩
    exact ⟨ep, ⟨sh, hf, he⟩, rfl⟩

theorem served_ne_none {m : List Byte} {sh : Shape} :
    served table m sh ≠ none ↔ (∃ ep ∈ ofShape table sh, ep.method = m) ∨
      m = str "HEAD" ∧ ∃ ep ∈ ofShape table sh, ep.method = str "GET" := by
  have hfind (k : List Byte) : (ofShape table sh).find? (·.method = k) ≠ none ↔
      ∃ ep ∈ ofShape table sh, ep.method = k := by
    rw [← Option.isSome_iff_ne_none, List.find?_isSome]
    simp
  rw [served, Ne, Option.or_eq_none_iff, not_and_or, ← Ne, hfind]
  by_cases hm : m = str "HEAD"
  · rw [if_pos hm, ← Ne, hfind]
    simp [hm]
  · rw [if_neg hm]
    simp [hm]

theorem reaches_iff {m : List Byte} {res : Response} :
    (∃ r ps, routerDispatch (routerBuild table) m path res = .endpoint r ps) ↔
      m ∈ methodsAt table path ∨ m = str "HEAD" ∧ str "GET" ∈ methodsAt table path := by
  have hserved : (∃ sh, Fits sh (pieces path) ∧ served table m sh ≠ none) ↔
      m ∈ methodsAt table path ∨ m = str "HEAD" ∧ str "GET" ∈ methodsAt table path := by
    simp only [served_ne_none, mem_methodsAt]
    constructor
    · rintro ⟨sh, hf, h | ⟨hm, h⟩⟩
      · exact .inl ⟨sh, hf, h⟩
      · exact .inr ⟨hm, sh, hf, h⟩
    · rintro (⟨sh, hf, h⟩ | ⟨hm, sh, hf, h⟩)
      · exact ⟨sh, hf, .inl h⟩
      · exact ⟨sh, hf, .inr ⟨hm, h⟩⟩
  rw [← hserved]
  rcases routerDispatch_cases table m path res with ⟨sh, ep, hsel, he⟩ | ⟨hnone, he⟩
  · exact ⟨fun _ => ⟨sh, hsel.fits, by simp [hsel.serves]⟩, fun _ => ⟨_, _, he⟩⟩
  · refine ⟨?_, ?_⟩
    · rintro ⟨r, ps, h⟩
      rw [he, missed] at h
      split at h <;> cases h
    · rintro ⟨sh, hfit, hne⟩
      exact absurd (hnone sh hfit) hne

theorem place_perm (ep : Route M H) (out : List (Route M H)) : (place ep out).Perm (ep :: out) := by
  induction out with
  | nil => exact .refl _
  | cons e out ih =>
    unfold place
    split
    · exact (ih.cons e).trans (.swap ..)
    · exact .refl _

theorem foldl_allowOne {U : List (List Byte)} (hmax : U.length ≤ allowMax)
    (eps acc : List (Route M H)) (hacc : (acc.map (·.method)).Nodup)
    (hU : ∀ ep ∈ acc ++ eps, ep.method ∈ U) :
    ((eps.foldl allowOne acc).map (·.method)).Nodup ∧
      ∀ m, m ∈ (eps.foldl allowOne acc).map (·.method) ↔ m ∈ (acc ++ eps).map (·.method) := by
  induction eps generalizing acc with
  | nil => simpa using hacc
  | cons ep eps ih =>
    rw [List.foldl_cons]
    by_cases hl : listed acc ep = true
    · obtain ⟨e, he, hem⟩ := List.any_eq_true.mp hl
      rw [beq_iff_eq] at hem
      obtain ⟨h1, h2⟩ := ih acc hacc fun x hx => hU x (by
        rcases List.mem_append.mp hx with hx | hx <;> simp [hx])
      rw [show allowOne acc ep = acc from if_neg (by simp [hl])]
      refine ⟨h1, fun m => ?_⟩
      rw [h2, List.map_append, List.map_append, List.map_cons, List.mem_append, List.mem_append,
        List.mem_cons]
      constructor
      · tauto
      · rintro (h | rfl | h)
        · exact .inl h
        · exact .inl (List.mem_map.mpr ⟨e, he, hem⟩)
        · exact .inr h
    · have hnew : ep.method ∉ acc.map (·.method) := by
        rintro hm
        obtain ⟨e, he, hem⟩ := List.mem_map.mp hm
        exact hl (List.any_eq_true.mpr ⟨e, he, by simp [hem]⟩)
      have hnodup : (ep.method :: acc.map (·.method)).Nodup := List.nodup_cons.mpr ⟨hnew, hacc⟩
      -- the methods so far and this one are different ones of all
      have hroom : acc.length < allowMax := by
        have hsub : ep.method :: acc.map (·.method) ⊆ U := by
          intro m hm
          rcases List.mem_cons.mp hm with rfl | hm
          · exact hU ep (by simp)
          · obtain ⟨e, he, rfl⟩ := List.mem_map.mp hm
            exact hU e (by simp [he])
        have := (List.subperm_of_subset hnodup hsub).length_le
        rw [List.length_cons, List.length_map] at this
        omega
      rw [show allowOne acc ep = place ep acc from if_pos ⟨hroom, by simpa using hl⟩]
      have hperm := (place_perm ep acc).map (·.method)
      obtain ⟨h1, h2⟩ := ih (place ep acc) (hperm.nodup_iff.mpr hnodup) fun x hx => hU x (by
        rcases List.mem_append.mp hx with hx | hx
        · rcases List.mem_cons.mp ((place_perm ep acc).mem_iff.mp hx) with rfl | hx <;> simp [*]
        · simp [hx])
      refine ⟨h1, fun m => ?_⟩
      rw [h2, List.map_append, List.mem_append, hperm.mem_iff]
      simp only [List.map_append, List.map_cons, List.mem_append, List.mem_cons]
      tauto

theorem allowMethods_perm {eps : List (Route M H)} (hn : (eps.map (·.method)).Nodup) :
    (allowMethods eps).Perm
      (if addHead eps then str "HEAD" :: eps.map (·.method) else eps.map (·.method)) := by
  unfold allowMethods
  cases ha : addHead eps with
  | false => simp [List.map_eq_flatMap]
  | true =>
    have hget : str "GET" ∈ eps.map (·.method) := by
      obtain ⟨e, he, hem⟩ := List.any_eq_true.mp (Bool.and_eq_true_iff.mp ha).1
      exact List.mem_map.mpr ⟨e, he, by simpa using hem⟩
    rw [if_pos rfl]
    clear ha
    induction eps with
    | nil => cases hget
    | cons ep eps ih =>
      rw [List.map_cons, List.nodup_cons] at hn
      rw [List.flatMap_cons, List.map_cons]
      by_cases he : ep.method = str "GET"
      · -- the methods behind the one GET are as they were
        have hrest : eps.flatMap (fun ep => if (true && ep.method == str "GET") = true then
            [ep.method, str "HEAD"] else [ep.method]) = eps.map (·.method) := by
          rw [List.map_eq_flatMap]
          refine List.flatMap_congr fun e hm => ?_
          rw [if_neg]
          simp only [Bool.true_and, beq_iff_eq]
          exact fun hx => hn.1 (List.mem_map.mpr ⟨e, hm, hx.trans he.symm⟩)
        rw [hrest]
        simp only [he, beq_self_eq_true, Bool.and_self, if_true]
        exact .swap ..
      · have hget' : str "GET" ∈ eps.map (·.method) := by
          rcases List.mem_cons.mp hget with h | h
          · exact absurd h.symm he
          · exact h
        rw [if_neg (by simpa using he)]
        exact ((ih hn.2 hget').cons _).trans (.swap ..)

theorem commaSeparated_cons (m m' : List Byte) (ms : List (List Byte)) :
    commaSeparated (m :: m' :: ms) = m ++ (str ", " ++ commaSeparated (m' :: ms)) := rfl

theorem length_commaSeparated (ms : List (List Byte)) :
    (commaSeparated ms).length = (ms.map (·.length)).sum + (ms.length - 1) * 2 := by
  induction ms with
  | nil => rfl
  | cons m ms ih =>
    cases ms with
    | nil => simp [commaSeparated]
    | cons m' ms =>
      have h2 : (str ", ").length = 2 := rfl
      rw [commaSeparated_cons, List.length_append, List.length_append, h2, ih]
      simp only [List.map_cons, List.sum_cons, List.length_cons, Nat.add_sub_cancel]
      omega

theorem commaSeparated_perm {ms ms' : List (List Byte)} (h : ms.Perm ms') :
    (commaSeparated ms).length = (commaSeparated ms').length := by
  rw [length_commaSeparated, length_commaSeparated, h.length_eq, (h.map _).sum_nat]

theorem allowLen_eq {eps : List (Route M H)} (hn : (eps.map (·.method)).Nodup) (h0 : eps ≠ []) :
    allowLen eps = (commaSeparated (allowMethods eps)).length + 1 := by
  have hlen : eps.length ≠ 0 := by simpa using h0
  rw [commaSeparated_perm (allowMethods_perm hn), length_commaSeparated, allowLen, if_neg hlen]
  have h4 : (str "HEAD").length = 4 := rfl
  cases addHead eps with
  | true =>
    simp only [if_true, List.map_cons, List.sum_cons, h4, List.length_cons, List.length_map,
      List.map_map, Function.comp_def]
    omega
  | false =>
    simp only [Bool.false_eq_true, if_false, List.length_map, List.map_map, Function.comp_def]
    omega

theorem mem_seenBy {m : List Byte} :
    m ∈ (seenBy table path).flatten.map (·.method) ↔ m ∈ methodsAt table path := by
  have hone (sh : Shape) : m ∈ ((routerBuild table).get sh).map (·.method) ↔
      ∃ ep ∈ ofShape table sh, ep.method = m := by
    obtain ⟨-, h2, -⟩ := foldl_addRoute ((ofShape table sh).map (·.route)) [] (by simp)
    have h := congrArg Option.isSome (h2 m)
    rw [← get_routerBuild, List.nil_append, find_route, Option.isSome_map, Bool.eq_iff_iff,
      List.find?_isSome, List.find?_isSome] at h
    simpa [List.mem_map] using h
  rw [mem_methodsAt]
  simp only [List.mem_map, List.mem_flatten, seenBy, List.mem_filter]
  constructor
  · rintro ⟨r, ⟨_, ⟨⟨sh, hp, rfl⟩, -⟩, hr⟩, rfl⟩
    exact ⟨sh, Trie.mem_patterns.mp hp, (hone sh).mp (List.mem_map.mpr ⟨r, hr, rfl⟩)⟩
  · rintro ⟨sh, hf, h⟩
    obtain ⟨r, hr, rfl⟩ := List.mem_map.mp ((hone sh).mpr h)
    refine ⟨r, ⟨_, ⟨⟨sh, Trie.mem_patterns.mpr hf, rfl⟩, ?_⟩, hr⟩, rfl⟩
    rw [decide_eq_true_eq]
    exact List.ne_nil_of_mem hr

/-- A request that the path alone has endpoints for, which there is room to
list. -/
structure Listable (table : List (Endpoint M H)) (path : List Byte) : Prop where
  nodes : ((patterns (pieces path)).filter (ofShape table · ≠ [])).length ≤ seenMax
  methods : (methodsAt table path).length ≤ allowMax
  fits : (commaSeparated (allowed table path)).length < routeArena

theorem length_seenBy (table : List (Endpoint M H)) (path : List Byte) : (seenBy table path).length =
    ((patterns (pieces path)).filter (ofShape table · ≠ [])).length := by
  rw [seenBy, List.filter_map, List.length_map]
  congr 2
  funext sh
  simp [get_routerBuild_eq_nil]

theorem allowedEndpoints_spec (h : Listable table path) :
    ((allowedEndpoints (seenBy table path)).map (·.method)).Nodup ∧
      ((allowedEndpoints (seenBy table path)).map (·.method)).Perm (methodsAt table path) := by
  obtain ⟨hn, hmem⟩ := foldl_allowOne h.methods (seenBy table path).flatten [] (by simp)
    fun ep he => mem_seenBy.mp (List.mem_map.mpr ⟨ep, he, rfl⟩)
  refine ⟨hn, (List.perm_ext_iff_of_nodup hn (List.nodup_dedup _)).mpr fun m => ?_⟩
  rw [hmem, List.nil_append, mem_seenBy]
  rfl

theorem allowValue_seenBy (h : Listable table path) (h0 : seenBy table path ≠ []) :
    ∃ methods, allowValue (seenBy table path) = some (commaSeparated methods) ∧ methods.Nodup ∧
      methods.Perm (allowed table path) := by
  obtain ⟨hn, hperm⟩ := allowedEndpoints_spec h
  unfold allowValue
  dsimp only
  generalize allowedEndpoints (seenBy table path) = eps at hn hperm
  have hne : eps ≠ [] := by
    rintro rfl
    rw [List.map_nil] at hperm
    obtain ⟨eps, hs⟩ := List.exists_mem_of_ne_nil _ h0
    have heps : eps ≠ [] := by simpa using (List.mem_filter.mp hs).2
    obtain ⟨r, hr⟩ := List.exists_mem_of_ne_nil _ heps
    have := mem_seenBy.mp (List.mem_map.mpr ⟨r, List.mem_flatten.mpr ⟨eps, hs, hr⟩, rfl⟩)
    simpa using hperm.mem_iff.mpr this
  have hany (m : List Byte) : eps.any (·.method == m) = true ↔ m ∈ methodsAt table path := by
    rw [← hperm.mem_iff, List.any_eq_true]
    simp [List.mem_map]
  have hadd : addHead eps = true ↔
      str "GET" ∈ methodsAt table path ∧ str "HEAD" ∉ methodsAt table path := by
    rw [addHead, Bool.and_eq_true, hany, Bool.not_eq_true', ← Bool.not_eq_true, hany]
  have hall : (allowMethods eps).Perm (allowed table path) := by
    refine (allowMethods_perm hn).trans ?_
    unfold allowed
    simp only [hadd]
    split
    · exact hperm.cons _
    · exact hperm
  have hnodup : (allowed table path).Nodup := by
    unfold allowed
    split
    · rename_i hg
      exact List.nodup_cons.mpr ⟨hg.2, List.nodup_dedup _⟩
    · exact List.nodup_dedup _
  refine ⟨_, if_neg ?_, hall.nodup_iff.mpr hnodup, hall⟩
  rw [allowLen_eq hn hne, commaSeparated_perm hall]
  have := h.fits
  simp only [List.length_eq_zero_iff, hne, false_or]
  omega

/-- A value that may stand in a header is put there, behind no other. -/
theorem header_allow (mem : Mem Byte) {value : List Byte} (hv : validFieldValue value = true)
    (hlen : value.length < routeArena) :
    let res := (header { Response.init mem with status := 405 } (str "allow") value).2
    res.status = 405 ∧ res.nHeaders = 1 ∧
      res.head.read 0 res.headLen = headerLine (str "allow") value := by
  have hc : cstr value = value := by
    refine List.takeWhile_eq_self_iff.mpr fun c hc => ?_
    have := List.all_eq_true.mp hv c hc
    by_contra h0
    obtain rfl : c = 0 := by simpa using h0
    exact absurd this (by decide)
  have hroom : (headerLine (str "allow") value).length = value.length + 9 := by
    simp [headerLine, show (str "allow").length = 5 from rfl, show (str ": ").length = 2 from rfl,
      show crlf.length = 2 from rfl]
    omega
  have hcap : ¬ value.length + 9 > 3072 := by
    have : routeArena = 256 := rfl
    omega
  unfold header
  simp only [hc, show cstr (str "allow") = str "allow" from rfl]
  have hfree : ¬ ((Response.init mem).headSent = true ∨
      (Response.init mem).nHeaders = maxRespHeaders ∨ str "allow" = []) :=
    show ¬ (false = true ∨ 0 = maxRespHeaders ∨ str "allow" = []) by decide
  rw [if_neg hfree, if_neg (by decide), if_neg (by simpa using hv), if_neg (by decide), if_neg (by decide),
    Response.headRoom, hroom]
  simp only [Response.contentTypeReserved, Response.init, respHeadCap, Nat.sub_zero, hcap, if_false]
  refine ⟨trivial, trivial, ?_⟩
  rw [Nat.zero_add, ← hroom]
  exact read_write_self ..

/-- A method as HTTP has them. -/
def IsToken (m : List Byte) : Prop := m ≠ [] ∧ ∀ c ∈ m, isTchar c = true

instance (m : List Byte) : Decidable (IsToken m) := inferInstanceAs (Decidable (_ ∧ _))

set_option maxRecDepth 4096 in
theorem tchar_listed (c : Byte) (h : isTchar c = true) :
    isBlank c = false ∧ c ≠ comma ∧ validFieldValue [c] = true :=
  forall_byte (P := fun c => isTchar c = true →
    isBlank c = false ∧ c ≠ comma ∧ validFieldValue [c] = true) (by decide +kernel) c h

theorem IsToken.trimEnd_eq {m : List Byte} (h : IsToken m) : trimEnd m = m := by
  have hlast : ∀ c ∈ m.reverse.head?, isBlank c = false := fun c hc =>
    (tchar_listed c (h.2 c (List.mem_reverse.mp (List.mem_of_mem_head? hc)))).1
  unfold trimEnd
  cases hr : m.reverse with
  | nil => rw [← List.reverse_reverse m, hr, List.dropWhile_nil]
  | cons c t =>
    rw [hr] at hlast
    rw [List.dropWhile_cons_of_neg (by simp [hlast c rfl]), ← hr, List.reverse_reverse]

theorem tokens_token {m rest : List Byte} (h : IsToken m) (hr : ∀ c ∈ rest.head?, c = comma) :
    tokens (m ++ rest) = m :: tokens rest := by
  obtain ⟨c, t, hm⟩ := List.exists_cons_of_ne_nil h.1
  have hplain : ∀ x ∈ m, (x != comma) = true := fun x hx => by
    simpa using (tchar_listed x (h.2 x hx)).2.1
  have hc := tchar_listed c (h.2 c (hm ▸ List.mem_cons_self ..))
  have htake : (m ++ rest).takeWhile (· != comma) = m := by
    rw [List.takeWhile_append_of_pos hplain]
    cases rest with
    | nil => rw [List.takeWhile_nil, List.append_nil]
    | cons x rest => rw [hr x rfl, List.takeWhile_cons_of_neg (by simp), List.append_nil]
  have hdrop : (m ++ rest).dropWhile (· != comma) = rest := by
    have hsplit := List.takeWhile_append_dropWhile (p := (· != comma)) (l := m ++ rest)
    rw [htake] at hsplit
    exact List.append_cancel_left hsplit
  have hhead := tokens_head hc.1 hc.2.1 (t ++ rest)
  rw [← List.cons_append, ← hm, htake, hdrop, h.trimEnd_eq] at hhead
  exact hhead

theorem tokens_commaSeparated {ms : List (List Byte)} (h : ∀ m ∈ ms, IsToken m) :
    tokens (commaSeparated ms) = ms := by
  induction ms with
  | nil => rfl
  | cons m ms ih =>
    have hm := h m (List.mem_cons_self ..)
    cases ms with
    | nil =>
      have hone := @tokens_token _ [] hm (by simp)
      rw [List.append_nil, tokens_nil] at hone
      simpa [commaSeparated] using hone
    | cons m' ms =>
      have hrest := ih fun x hx => h x (List.mem_cons_of_mem _ hx)
      have hsep : str ", " ++ commaSeparated (m' :: ms) =
          comma :: sp :: commaSeparated (m' :: ms) := rfl
      rw [commaSeparated_cons, tokens_token hm (by rw [hsep]; simp), hsep, tokens_cons_comma,
        tokens_cons_blank rfl, hrest]

theorem valid_commaSeparated {ms : List (List Byte)} (h : ∀ m ∈ ms, IsToken m) :
    validFieldValue (commaSeparated ms) = true := by
  induction ms with
  | nil => rfl
  | cons m ms ih =>
    have hm : validFieldValue m = true := List.all_eq_true.mpr fun c hc => by
      simpa [validFieldValue] using (tchar_listed c ((h m (List.mem_cons_self ..)).2 c hc)).2.2
    cases ms with
    | nil => simpa [commaSeparated] using hm
    | cons m' ms =>
      have ht := ih fun x hx => h x (List.mem_cons_of_mem _ hx)
      unfold validFieldValue at hm ht ⊢
      rw [commaSeparated_cons, List.all_append, List.all_append, hm, ht]
      decide

theorem token_allowed (ht : ∀ ep ∈ table, IsToken ep.method) {m : List Byte}
    (hm : m ∈ allowed table path) : IsToken m := by
  have hat {m : List Byte} (hm : m ∈ methodsAt table path) : IsToken m := by
    obtain ⟨sh, -, ep, he, rfl⟩ := mem_methodsAt.mp hm
    exact ht ep (List.mem_filter.mp he).1
  unfold allowed at hm
  split at hm
  · rcases List.mem_cons.mp hm with rfl | hm
    · exact ⟨by decide, List.all_eq_true.mp (by decide)⟩
    · exact hat hm
  · exact hat hm

theorem mem_allowed {m : List Byte} : m ∈ allowed table path ↔
    m ∈ methodsAt table path ∨ m = str "HEAD" ∧ str "GET" ∈ methodsAt table path := by
  unfold allowed
  split
  · rename_i hg
    rw [List.mem_cons]
    tauto
  · rename_i hg
    rw [not_and_or, not_not] at hg
    constructor
    · exact .inl
    · rintro (h | ⟨rfl, h⟩)
      · exact h
      · exact hg.resolve_left (not_not.mpr h)

/-- The `allow` header of a 405, read as a list, has each method that would have
reached an endpoint, once, and no other. -/
theorem allow_truth (ht : ∀ ep ∈ table, IsToken ep.method) (mem : Mem Byte)
    (h : Listable table path) {res : Response}
    (h405 : routerDispatch (routerBuild table) method path (.init mem) = .notAllowed res) :
    ∃ value, res.status = 405 ∧ res.nHeaders = 1 ∧
      res.head.read 0 res.headLen = headerLine (str "allow") value ∧
      (tokens value).Nodup ∧
      (∀ m, m ∈ tokens value ↔
        ∃ r ps, routerDispatch (routerBuild table) m path (.init mem) = .endpoint r ps) ∧
      (str "HEAD" ∈ tokens value ↔
        str "HEAD" ∈ methodsAt table path ∨ str "GET" ∈ methodsAt table path) := by
  rcases routerDispatch_cases table method path (.init mem) with ⟨sh, ep, -, he⟩ | ⟨-, he⟩
  · rw [he] at h405
    cases h405
  rw [he, missed, List.take_of_length_le (by rw [length_seenBy]; exact h.nodes)] at h405
  split at h405
  · cases h405
  rename_i h0
  obtain ⟨methods, hval, hnodup, hperm⟩ := allowValue_seenBy h h0
  rw [hval] at h405
  cases h405
  have htok : ∀ m ∈ methods, IsToken m := fun m hm => token_allowed ht (hperm.mem_iff.mp hm)
  obtain ⟨h1, h2, h3⟩ := header_allow mem (valid_commaSeparated htok)
    (by rw [commaSeparated_perm hperm]; exact h.fits)
  refine ⟨commaSeparated methods, h1, h2, h3, ?_⟩
  rw [tokens_commaSeparated htok]
  refine ⟨hnodup, fun m => ?_, ?_⟩
  · rw [reaches_iff, hperm.mem_iff, mem_allowed]
  · rw [hperm.mem_iff, mem_allowed]
    simp

def docTable : List (Endpoint Unit Unit) :=
  [⟨[], str "GET", str "/doc", 0, (), []⟩, ⟨[], str "POST", str "/:name", 1, (), []⟩]

theorem docTable_listable : Listable docTable (str "/doc") :=
  ⟨by decide +kernel, by decide +kernel, by decide +kernel⟩

theorem allow_truth_doc : ∃ res value,
    routerDispatch (routerBuild docTable) (str "PUT") (str "/doc") (.init fun _ => 0) =
      .notAllowed res ∧
    res.head.read 0 res.headLen = headerLine (str "allow") value ∧
    (tokens value).Nodup ∧ str "HEAD" ∈ tokens value := by
  have h405 : ∃ res, routerDispatch (routerBuild docTable) (str "PUT") (str "/doc")
      (.init fun _ => 0) = .notAllowed res := ⟨_, rfl⟩
  obtain ⟨res, h405⟩ := h405
  obtain ⟨value, -, -, hline, hnodup, -, hhead⟩ :=
    allow_truth (by decide +kernel) (fun _ => 0) docTable_listable h405
  exact ⟨res, value, h405, hline, hnodup, hhead.mpr (by decide +kernel)⟩

def ctlTable : List (Endpoint Unit Unit) := [⟨[], [80, 1], str "/x", 0, (), []⟩]

def commaTable : List (Endpoint Unit Unit) :=
  [⟨[], str "A, B", str "/x", 0, (), []⟩, ⟨[], str "A", str "/x", 1, (), []⟩]

/-- A method that no header may carry is served and not listed, and one with a
comma is listed as two, of which one is there already and one is not served. -/
theorem allow_refused :
    ((∃ res, routerDispatch (routerBuild ctlTable) (str "GET") (str "/x") (.init fun _ => 0) =
      .notAllowed res ∧ res.nHeaders = 0 ∧ res.headLen = 0) ∧
      ∃ r ps, routerDispatch (routerBuild ctlTable) [80, 1] (str "/x") (.init fun _ => 0) =
        .endpoint r ps) ∧
    (∃ res, routerDispatch (routerBuild commaTable) (str "GET") (str "/x") (.init fun _ => 0) =
      .notAllowed res ∧ res.head.read 0 res.headLen = headerLine (str "allow") (str "A, B, A")) ∧
    tokens (str "A, B, A") = [str "A", str "B", str "A"] ∧
    ∃ res, routerDispatch (routerBuild commaTable) (str "B") (str "/x") (.init fun _ => 0) =
      .notAllowed res := by
  refine ⟨⟨⟨_, rfl, rfl, rfl⟩, _, _, rfl⟩, ⟨_, rfl, ?_⟩, by decide +kernel, _, rfl⟩
  decide +kernel

end Ioxd.Http
