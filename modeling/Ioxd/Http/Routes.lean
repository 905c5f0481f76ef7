import Ioxd.Http.Router

/-!
# The flat route list

What the table means with no tree: each endpoint has a shape, a request's
segments fit some shapes, and one endpoint of one of these serves it.
`walk_outcome` says that the tree's walk meets the shapes in order, and
`get_routerBuild` that the tree has at each shape the endpoints of that shape,
the first of each method.
-/

namespace Ioxd.Http

open Flat
open Ioxd.Pipe (Byte)
open Trie (Pattern Fits Earlier patterns caught wilds)

variable {M H : Type}

abbrev Shape := Pattern Segment

/-- The parts between slashes that have a byte. -/
def pieces (path : List Byte) : List Segment := (path.splitOn slash).filter (· ≠ [])

namespace Endpoint

/-- The pieces of the prefixes, the outermost first, and of the path. -/
def pieces (ep : Endpoint M H) : List Segment :=
  (ep.groups.reverse.map (·.path) ++ [ep.path]).flatMap Http.pieces

def shape (ep : Endpoint M H) : Shape :=
  ep.pieces.map fun seg => if isCapture seg then none else some seg

def names (ep : Endpoint M H) : List (List Byte) :=
  (ep.pieces.filter isCapture).map (·.drop 1)

def route (ep : Endpoint M H) : Route M H := ⟨ep, ep.names⟩

/-- Its captures are not too many. -/
def Kept (ep : Endpoint M H) : Prop := wilds ep.shape ≤ maxRouteParams

instance (ep : Endpoint M H) : Decidable ep.Kept := inferInstanceAs (Decidable (_ ≤ _))

end Endpoint

def ofShape (table : List (Endpoint M H)) (sh : Shape) : List (Endpoint M H) :=
  table.filter fun ep => ep.Kept ∧ ep.shape = sh

/-- The endpoint that a shape has for a method. -/
def served (table : List (Endpoint M H)) (method : List Byte) (sh : Shape) :
    Option (Endpoint M H) :=
  ((ofShape table sh).find? (·.method = method)).or
    (if method = str "HEAD" then (ofShape table sh).find? (·.method = str "GET") else none)

/-- The endpoint that serves a request, and its shape: of the shapes that fit
and have an endpoint for the method, the first. -/
structure Selects (table : List (Endpoint M H)) (method path : List Byte) (sh : Shape)
    (ep : Endpoint M H) : Prop where
  fits : Fits sh (pieces path)
  serves : served table method sh = some ep
  first : ∀ sh', Fits sh' (pieces path) → served table method sh' ≠ none → ¬ Earlier sh' sh

-- ---------------------------------------------------------------------------
-- Segments
-- ---------------------------------------------------------------------------

@[simp] theorem pieces_nil : pieces [] = [] := by simp [pieces]

@[simp] theorem pieces_append_slash (s t : List Byte) :
    pieces (s ++ slash :: t) = pieces s ++ pieces t := by
  rw [pieces, List.splitOn_append_cons_self, List.filter_append]
  rfl

@[simp] theorem pieces_slash (s : List Byte) : pieces (slash :: s) = pieces s := by
  have h := pieces_append_slash [] s
  rwa [List.nil_append, pieces_nil, List.nil_append] at h

theorem pieces_word {s : List Byte} (h : slash ∉ s) (h0 : s ≠ []) : pieces s = [s] := by
  rw [pieces, List.splitOn_eq_singleton h]
  simp [h0]

theorem pieces_dropWhile (s : List Byte) : pieces (s.dropWhile (· == slash)) = pieces s := by
  induction s with
  | nil => rfl
  | cons c s ih =>
    by_cases h : c = slash
    · subst h
      rw [List.dropWhile_cons_of_pos (by simp), ih, pieces_slash]
    · rw [List.dropWhile_cons_of_neg (by simpa using h)]

theorem nextSegment_none {s : List Byte} (h : nextSegment s = none) : pieces s = [] := by
  unfold nextSegment at h
  dsimp only at h
  split at h
  · rename_i h0
    rw [← pieces_dropWhile, h0, pieces_nil]
  · cases h

theorem nextSegment_some {s seg rest : List Byte} (h : nextSegment s = some (seg, rest)) :
    pieces s = seg :: pieces rest ∧ rest.length < s.length := by
  unfold nextSegment at h
  dsimp only at h
  split at h
  · cases h
  rename_i h0
  rw [← pieces_dropWhile]
  have hle : (s.dropWhile (· == slash)).length ≤ s.length := List.length_dropWhile_le ..
  have hhead : ∀ c p, s.dropWhile (· == slash) = c :: p → c ≠ slash := by
    intro c p hp hc
    have := List.head_dropWhile_not (· == slash) (l := s) h0
    simp [hp, hc] at this
  generalize s.dropWhile (· == slash) = p at *
  simp only [Option.some.injEq, Prod.mk.injEq] at h
  obtain ⟨rfl, rfl⟩ := h
  obtain ⟨c, p, rfl⟩ := List.exists_cons_of_ne_nil h0
  have hc := hhead c p rfl
  have hseg : slash ∉ (c :: p).takeWhile (· != slash) := fun hm => by
    simpa using List.mem_takeWhile_imp hm
  have hne : (c :: p).takeWhile (· != slash) ≠ [] := by simp [hc]
  have hsplit := List.takeWhile_append_dropWhile (p := (· != slash)) (l := c :: p)
  have hlen : ((c :: p).dropWhile (· != slash)).length < (c :: p).length := by
    have := List.length_pos_iff.mpr hne
    have := congrArg List.length hsplit
    rw [List.length_append] at this
    omega
  refine ⟨?_, by omega⟩
  cases hr : (c :: p).dropWhile (· != slash) with
  | nil =>
    rw [hr, List.append_nil] at hsplit
    rw [pieces_nil, ← pieces_word hseg hne, hsplit]
  | cons d r =>
    obtain rfl : d = slash := by
      have := List.head_dropWhile_not (· != slash) (l := c :: p) (by simp [hr])
      simpa [hr] using this
    rw [pieces_slash]
    have h := pieces_append_slash ((c :: p).takeWhile (· != slash)) r
    rwa [← hr, hsplit, pieces_word hseg hne] at h

theorem segmentsLoop_eq {turns : Nat} {s : List Byte} (h : s.length ≤ turns) :
    segmentsLoop turns s = pieces s := by
  induction turns generalizing s with
  | zero =>
    obtain rfl : s = [] := List.length_eq_zero_iff.mp (by omega)
    simp [segmentsLoop]
  | succ turns ih =>
    unfold segmentsLoop
    cases hn : nextSegment s with
    | none => rw [nextSegment_none hn]
    | some p =>
      obtain ⟨he, hlt⟩ := nextSegment_some hn
      dsimp only
      rw [ih (by omega), he]

theorem segments_eq (s : List Byte) : segments s = pieces s := segmentsLoop_eq (Nat.le_refl _)

theorem pieces_prepend (buf part : List Byte) :
    pieces (prepend buf part) = pieces part ++ pieces buf := by
  unfold prepend
  split
  · exact pieces_append_slash part buf
  rename_i h
  by_cases hp : part = []
  · simp [hp]
  by_cases hb : buf = []
  · simp [hb]
  -- one of the two has the slash between them
  by_cases hl : part.getLast? = some slash
  · obtain ⟨q, rfl⟩ := List.getLast?_eq_some_iff.mp hl
    rw [List.append_assoc, List.singleton_append, pieces_append_slash, pieces_append_slash]
    simp
  · have hh : buf.head? = some slash := by
      by_contra hh
      exact h ⟨hp, hb, hl, hh⟩
    obtain ⟨b, rfl⟩ := List.head?_eq_some_iff.mp hh
    rw [pieces_append_slash, pieces_slash]

theorem pieces_foldl_prepend (parts : List (List Byte)) (buf : List Byte) :
    pieces (parts.foldl prepend buf) = parts.reverse.flatMap pieces ++ pieces buf := by
  induction parts generalizing buf with
  | nil => rfl
  | cons part parts ih =>
    rw [List.foldl_cons, ih, pieces_prepend]
    simp

theorem segments_fullPath (ep : Endpoint M H) : segments (fullPath ep) = ep.pieces := by
  rw [segments_eq, fullPath, pieces_foldl_prepend, pieces_prepend, Endpoint.pieces,
    List.flatMap_append, List.map_reverse]
  simp

-- ---------------------------------------------------------------------------
-- The tree
-- ---------------------------------------------------------------------------

/-- `add_endpoint` on the endpoints alone. -/
def addRoute (eps : List (Route M H)) (route : Route M H) : List (Route M H) :=
  if eps.any (·.method == route.method) then eps else eps ++ [route]

@[simp] theorem items_addEndpoint (node : Node M H) (route : Route M H) :
    (addEndpoint node route).items = addRoute node.items route := by
  unfold addEndpoint addRoute
  split <;> rfl

theorem get_addEndpoint_cons (node : Node M H) (route : Route M H) (o : Option Segment)
    (sh : Shape) : (addEndpoint node route).get (o :: sh) = node.get (o :: sh) := by
  unfold addEndpoint
  split
  · rfl
  · cases o <;> simp

theorem elim_get_getD (o : Option (Node M H)) (sh : Shape) :
    (o.getD .empty).get sh = o.elim [] (Trie.get sh) := by
  cases o <;> simp

theorem get_insertAt (ep : Endpoint M H) (segs : List Segment) (names : List (List Byte))
    (node : Node M H) (hn : names.length ≤ maxRouteParams) (sh : Shape) :
    (insertAt ep segs names node).get sh =
      if sh = segs.map (fun seg => if isCapture seg then none else some seg) ∧
          names.length + wilds sh ≤ maxRouteParams then
        addRoute (node.get sh) ⟨ep, names ++ (segs.filter isCapture).map (·.drop 1)⟩
      else node.get sh := by
  induction segs generalizing names node sh with
  | nil =>
    unfold insertAt
    cases sh with
    | nil => simp [hn]
    | cons o sh => simp [get_addEndpoint_cons]
  | cons seg segs ih =>
    unfold insertAt
    by_cases hc : isCapture seg = true
    · rw [if_pos hc]
      by_cases hfull : names.length = maxRouteParams
      · rw [if_pos hfull, if_neg]
        rintro ⟨rfl, hle⟩
        rw [List.map_cons, if_pos hc, Trie.wilds_wild] at hle
        omega
      · rw [if_neg hfull]
        cases sh with
        | nil => simp
        | cons o sh =>
          cases o with
          | some k => simp [hc]
          | none =>
            rw [Trie.get_wild, Trie.wild_setWild, Option.elim_some,
              ih _ _ (by rw [List.length_append, List.length_singleton]; omega), elim_get_getD]
            simp [hc, List.append_assoc, Nat.add_assoc, Nat.add_comm 1]
    · rw [if_neg hc]
      cases sh with
      | nil => simp
      | cons o sh =>
        cases o with
        | none => simp [hc]
        | some k =>
          rw [Trie.get_key, Trie.kid?_setKid]
          by_cases hk : k = seg
          · subst hk
            rw [if_pos rfl, Option.elim_some, ih _ _ hn, elim_get_getD]
            simp [hc]
          · rw [if_neg hk, if_neg]
            · rfl
            · rintro ⟨he, -⟩
              simp [hc, hk] at he

theorem get_insert (tree : Node M H) (ep : Endpoint M H) (sh : Shape) :
    (insert tree ep).get sh =
      if ep.Kept ∧ ep.shape = sh then addRoute (tree.get sh) ep.route else tree.get sh := by
  rw [insert, segments_fullPath, get_insertAt ep ep.pieces [] tree (Nat.zero_le _) sh]
  have hiff : (sh = ep.pieces.map (fun seg => if isCapture seg then none else some seg) ∧
      ([] : List (List Byte)).length + wilds sh ≤ maxRouteParams) ↔
      ep.Kept ∧ ep.shape = sh := by
    constructor
    · rintro ⟨rfl, hle⟩
      exact ⟨by simpa [Endpoint.Kept, Endpoint.shape] using hle, rfl⟩
    · rintro ⟨hk, rfl⟩
      exact ⟨rfl, by simpa [Endpoint.Kept] using hk⟩
  simp only [hiff]
  rfl

/-- The tree has at each shape the first endpoint of each method. -/
theorem get_routerBuild (table : List (Endpoint M H)) (sh : Shape) :
    (routerBuild table).get sh = ((ofShape table sh).map (·.route)).foldl addRoute [] := by
  have hrun (tree : Node M H) : (table.foldl insert tree).get sh =
      ((ofShape table sh).map (·.route)).foldl addRoute (tree.get sh) := by
    induction table generalizing tree with
    | nil => rfl
    | cons ep table ih =>
      rw [List.foldl_cons, ih, get_insert, ofShape, ofShape, List.filter_cons]
      by_cases h : ep.Kept ∧ ep.shape = sh <;> simp [h]
  rw [routerBuild, hrun, Trie.get_empty]

theorem wilds_ofShape {table : List (Endpoint M H)} {sh : Shape} (h : maxRouteParams < wilds sh) :
    ofShape table sh = [] := by
  refine List.filter_eq_nil_iff.mpr fun ep _ => ?_
  rw [decide_eq_true_eq]
  rintro ⟨hk, rfl⟩
  exact Nat.not_lt.mpr hk h

-- ---------------------------------------------------------------------------
-- The endpoint for a method
-- ---------------------------------------------------------------------------

/-- Adding keeps the first endpoint of each method, and one of each. -/
theorem foldl_addRoute (eps acc : List (Route M H)) (hacc : (acc.map (·.method)).Nodup) :
    ((eps.foldl addRoute acc).map (·.method)).Nodup ∧
      (∀ m, (eps.foldl addRoute acc).find? (·.method = m) = (acc ++ eps).find? (·.method = m)) ∧
      ∀ ep ∈ eps.foldl addRoute acc, ep ∈ acc ++ eps := by
  induction eps generalizing acc with
  | nil => simpa using hacc
  | cons ep eps ih =>
    rw [List.foldl_cons]
    by_cases hany : acc.any (·.method == ep.method) = true
    · rw [show addRoute acc ep = acc from if_pos hany]
      obtain ⟨h1, h2, h3⟩ := ih acc hacc
      refine ⟨h1, fun m => ?_, fun e he => ?_⟩
      · rw [h2 m, List.find?_append, List.find?_append, List.find?_cons]
        -- an endpoint that is not added has its method before it
        split
        · rename_i hm
          rw [decide_eq_true_eq] at hm
          obtain ⟨e, he, hem⟩ := List.any_eq_true.mp hany
          rw [beq_iff_eq] at hem
          have hsome : (acc.find? (·.method = m)).isSome = true := by
            rw [List.find?_isSome]
            exact ⟨e, he, by simp [hem, hm]⟩
          obtain ⟨x, hx⟩ := Option.isSome_iff_exists.mp hsome
          simp [hx]
        · rfl
      · have := h3 e he
        simp only [List.mem_append, List.mem_cons] at this ⊢
        tauto
    · rw [show addRoute acc ep = acc ++ [ep] from if_neg hany]
      have hnew : ((acc ++ [ep]).map (·.method)).Nodup := by
        rw [List.map_append, List.nodup_append]
        refine ⟨hacc, by simp, ?_⟩
        rintro m hm m' hm' rfl
        obtain ⟨e, he, hem⟩ := List.mem_map.mp hm
        rw [List.map_singleton, List.mem_singleton] at hm'
        exact hany (List.any_eq_true.mpr ⟨e, he, by simp [hem, hm']⟩)
      obtain ⟨h1, h2, h3⟩ := ih _ hnew
      refine ⟨h1, fun m => by rw [h2 m, List.append_assoc, List.singleton_append], fun e he => ?_⟩
      have := h3 e he
      rwa [List.append_assoc, List.singleton_append] at this

theorem endpointLoop_eq (method : List Byte) (eps : List (Route M H)) (get : Option (Route M H)) :
    endpointLoop method eps get = (eps.find? (·.method = method)).or
      (if method = str "HEAD" then (eps.reverse.find? (·.method = str "GET")).or get
        else none) := by
  induction eps generalizing get with
  | nil => simp [endpointLoop]
  | cons ep eps ih =>
    unfold endpointLoop
    by_cases h : ep.method = method
    · simp [h]
    · rw [if_neg h, ih, List.find?_cons_of_neg (by simpa using h), List.reverse_cons,
        List.find?_append, Option.or_assoc]
      by_cases hg : ep.method = str "GET" <;> simp [hg]

/-- Of endpoints that differ in their methods, the last with one is the first. -/
theorem find_reverse {eps : List (Route M H)} (h : (eps.map (·.method)).Nodup) (m : List Byte) :
    eps.reverse.find? (·.method = m) = eps.find? (·.method = m) := by
  induction eps with
  | nil => rfl
  | cons ep eps ih =>
    rw [List.map_cons, List.nodup_cons] at h
    rw [List.reverse_cons, List.find?_append, ih h.2]
    by_cases he : ep.method = m
    · have hno : eps.find? (·.method = m) = none := by
        rw [List.find?_eq_none]
        intro e hmem
        rw [decide_eq_true_eq]
        exact fun hm => h.1 (List.mem_map.mpr ⟨e, hmem, hm.trans he.symm⟩)
      simp [hno, he]
    · simp [he]

theorem find_route (eps : List (Endpoint M H)) (m : List Byte) :
    (eps.map (·.route)).find? (·.method = m) = (eps.find? (·.method = m)).map (·.route) := by
  rw [List.find?_map]
  rfl

/-- `endpoint_for` at a node of the tree is the flat list's choice. -/
theorem endpointFor_get (table : List (Endpoint M H)) (method : List Byte) (sh : Shape) :
    endpointFor ((routerBuild table).get sh) method =
      (served table method sh).map (·.route) := by
  obtain ⟨h1, h2, -⟩ := foldl_addRoute ((ofShape table sh).map (·.route)) [] (by simp)
  rw [get_routerBuild, endpointFor, endpointLoop_eq, find_reverse h1, h2, h2, List.nil_append,
    find_route, find_route, served]
  cases (ofShape table sh).find? (·.method = method) with
  | some ep => simp
  | none => by_cases hm : method = str "HEAD" <;> simp [hm]

theorem get_routerBuild_eq_nil {table : List (Endpoint M H)} {sh : Shape} :
    (routerBuild table).get sh = [] ↔ ofShape table sh = [] := by
  rw [get_routerBuild]
  cases ho : ofShape table sh with
  | nil => simp
  | cons ep eps =>
    obtain ⟨-, h2, -⟩ := foldl_addRoute ((ep :: eps).map (·.route)) [] (by simp)
    have h := h2 ep.method
    simp only [List.map_cons, List.nil_append] at h ⊢
    rw [List.find?_cons_of_pos (by simp [Endpoint.route])] at h
    simp only [reduceCtorEq, iff_false]
    intro h0
    rw [h0] at h
    cases h

-- ---------------------------------------------------------------------------
-- The walk
-- ---------------------------------------------------------------------------

/-- The first of these patterns whose node has the method, with its endpoint. -/
def firstOf (method : List Byte) (node : Node M H) (ps : List Shape) : Option (Shape × Route M H) :=
  ps.findSome? fun p => (endpointFor (node.get p) method).map (p, ·)

def Walk.seeAll (w : Walk M H) (node : Node M H) (ps : List Shape) : Walk M H :=
  ps.foldl (fun w p => w.see (node.get p)) w

/-- A node past the captures that there is room for has no endpoints. -/
def Shallow (node : Node M H) (n : Nat) : Prop :=
  ∀ p : Shape, maxRouteParams < n + wilds p → node.get p = []

theorem Shallow.kid {node kid : Node M H} {n : Nat} {seg : Segment} (h : Shallow node n)
    (hk : node.kid? seg = some kid) : Shallow kid n := fun p hp => by
  have := h (some seg :: p) (by simpa using hp)
  rwa [Trie.get_key, hk] at this

theorem Shallow.wild {node kid : Node M H} {n : Nat} (h : Shallow node n)
    (hk : node.wild = some kid) : Shallow kid (n + 1) := fun p hp => by
  have := h (none :: p) (by rw [Trie.wilds_wild]; omega)
  rwa [Trie.get_wild, hk] at this

@[simp] theorem endpointFor_nil (method : List Byte) :
    endpointFor ([] : List (Route M H)) method = none := by
  simp [endpointFor, endpointLoop]

@[simp] theorem see_nil (w : Walk M H) : w.see [] = w := by simp [Walk.see]

@[simp] theorem values_see (w : Walk M H) (eps : List (Route M H)) :
    (w.see eps).values = w.values := by
  unfold Walk.see
  split <;> rfl

theorem values_seeAll (w : Walk M H) (node : Node M H) (ps : List Shape) :
    (w.seeAll node ps).values = w.values := by
  induction ps generalizing w with
  | nil => rfl
  | cons p ps ih => exact (ih (w.see (node.get p))).trans (values_see ..)

inductive WalkOutcome (method : List Byte) (ps : List Shape) (segs : List Segment)
    (node : Node M H) (w : Walk M H) : Option (Route M H) × Walk M H → Prop
  | found {p : Shape} {ep : Route M H} {w' : Walk M H} : firstOf method node ps = some (p, ep) →
      w'.values = w.values ++ caught p segs → WalkOutcome method ps segs node w (some ep, w')
  | missed {w' : Walk M H} : firstOf method node ps = none → w' = w.seeAll node ps →
      WalkOutcome method ps segs node w (none, w')

theorem firstOf_append (method : List Byte) (node : Node M H) (ps qs : List Shape) :
    firstOf method node (ps ++ qs) = (firstOf method node ps).or (firstOf method node qs) :=
  List.findSome?_append

theorem seeAll_append (w : Walk M H) (node : Node M H) (ps qs : List Shape) :
    w.seeAll node (ps ++ qs) = (w.seeAll node ps).seeAll node qs :=
  List.foldl_append

/-- Patterns whose nodes have no endpoints find nothing and leave no trace. -/
theorem barren (method : List Byte) (node : Node M H) (ps : List Shape)
    (h : ∀ p ∈ ps, node.get p = []) :
    firstOf method node ps = none ∧ ∀ w : Walk M H, w.seeAll node ps = w := by
  induction ps with
  | nil => exact ⟨rfl, fun _ => rfl⟩
  | cons p ps ih =>
    obtain ⟨h1, h2⟩ := ih fun q hq => h q (by simp [hq])
    have hp := h p (by simp)
    refine ⟨?_, fun w => ?_⟩
    · rw [firstOf, List.findSome?_cons, hp]
      simpa [firstOf] using h1
    · show Walk.seeAll (w.see (node.get p)) node ps = w
      rw [hp, see_nil, h2]

/-- The walk of the rest of the path below a child, as one of the node's. -/
theorem firstOf_below {node kid : Node M H} {o : Option Segment} (method : List Byte)
    (ps : List Shape) (hk : ∀ p, node.get (o :: p) = kid.get p) :
    firstOf method node (ps.map (o :: ·)) =
      (firstOf method kid ps).map fun r => (o :: r.1, r.2) := by
  rw [firstOf, firstOf, List.findSome?_map, List.map_findSome?]
  congr 1
  funext p
  simp [hk, Function.comp_def]

theorem seeAll_below {node kid : Node M H} {o : Option Segment} (w : Walk M H) (ps : List Shape)
    (hk : ∀ p, node.get (o :: p) = kid.get p) :
    w.seeAll node (ps.map (o :: ·)) = w.seeAll kid ps := by
  rw [Walk.seeAll, Walk.seeAll, List.foldl_map]
  simp only [hk]

theorem walkParam_outcome {method : List Byte} {segs : List Segment} {node : Node M H}
    {w : Walk M H} (seg : Segment) (hs : Shallow node w.values.length)
    (ih : ∀ (kid : Node M H) (w : Walk M H), Shallow kid w.values.length →
      WalkOutcome method (patterns segs) segs kid w (walk method segs kid w)) :
    WalkOutcome method ((patterns segs).map (none :: ·)) (seg :: segs) node w
      (walkParam (walk method segs) node seg w) := by
  unfold walkParam
  cases hk : node.wild with
  | none =>
    obtain ⟨h1, h2⟩ := barren method node ((patterns segs).map (none :: ·)) fun p hp => by
      obtain ⟨q, -, rfl⟩ := List.mem_map.mp hp
      rw [Trie.get_wild, hk]
      rfl
    exact .missed h1 (h2 w).symm
  | some kid =>
    dsimp only
    have hget (p : Shape) : node.get (none :: p) = kid.get p := by rw [Trie.get_wild, hk]; rfl
    split
    · have ho := ih kid { w with values := w.values ++ [seg] } (by
        rw [List.length_append, List.length_singleton]
        exact hs.wild hk)
      generalize walk method segs kid { w with values := w.values ++ [seg] } = r at ho
      cases ho with
      | @found p ep w' hf hv =>
        refine .found (p := none :: p) (by rw [firstOf_below method _ hget, hf]; rfl) ?_
        rw [hv, List.append_assoc]
        rfl
      | missed hf hw =>
        refine .missed (by rw [firstOf_below method _ hget, hf]; rfl) ?_
        rw [seeAll_below w _ hget, hw]
        -- the captures are put back as they were
        have hsame (v : Walk M H) (ps : List Shape) :
            ({ v with values := w.values ++ [seg] } : Walk M H).seeAll kid ps =
              { v.seeAll kid ps with values := w.values ++ [seg] } := by
          induction ps generalizing v with
          | nil => rfl
          | cons p ps ihp =>
            show Walk.seeAll (Walk.see _ _) kid ps = _
            have hsee : ({ v with values := w.values ++ [seg] } : Walk M H).see (kid.get p) =
                { v.see (kid.get p) with values := w.values ++ [seg] } := by
              unfold Walk.see
              split <;> rfl
            rw [hsee, ihp]
            rfl
        rw [hsame w]
        have := values_seeAll w kid (patterns segs)
        rw [← this]
    · rename_i hfull
      obtain ⟨h1, h2⟩ := barren method node ((patterns segs).map (none :: ·)) fun p hp => by
        obtain ⟨q, -, rfl⟩ := List.mem_map.mp hp
        exact hs _ (by rw [Trie.wilds_wild]; omega)
      exact .missed h1 (h2 w).symm

/-- The walk looks at the nodes of the patterns that fit, the earlier ones
first, up to the one that has the method. -/
theorem walk_outcome (method : List Byte) (segs : List Segment) (node : Node M H) (w : Walk M H)
    (hs : Shallow node w.values.length) :
    WalkOutcome method (patterns segs) segs node w (walk method segs node w) := by
  induction segs generalizing node w with
  | nil =>
    unfold walk
    cases he : endpointFor node.items method with
    | some ep =>
      refine .found (p := []) (by simp [firstOf, patterns, he]) ?_
      simp [caught]
    | none => exact .missed (by simp [firstOf, patterns, he]) rfl
  | cons seg segs ih =>
    unfold walk
    have hp := fun w (hs : Shallow node w.values.length) =>
      walkParam_outcome (w := w) seg hs fun kid w => ih kid w
    cases hk : node.kid? seg with
    | none =>
      obtain ⟨h1, h2⟩ := barren method node ((patterns segs).map (some seg :: ·))
        fun p hp => by
          obtain ⟨q, -, rfl⟩ := List.mem_map.mp hp
          rw [Trie.get_key, hk]
          rfl
      have ho := hp w hs
      dsimp only
      generalize walkParam (walk method segs) node seg w = r at ho
      cases ho with
      | found hf hv =>
        exact .found (by rw [patterns, firstOf_append, h1, Option.none_or, hf]) hv
      | missed hf hw =>
        exact .missed (by rw [patterns, firstOf_append, h1, Option.none_or, hf])
          (by rw [patterns, seeAll_append, h2, hw])
    | some kid =>
      have hget (p : Shape) : node.get (some seg :: p) = kid.get p := by
        rw [Trie.get_key, hk]
        rfl
      have ho := ih kid w (hs.kid hk)
      dsimp only
      generalize walk method segs kid w = r at ho
      cases ho with
      | @found p ep w' hf hv =>
        refine .found (p := some seg :: p) ?_ hv
        rw [patterns, firstOf_append, firstOf_below method _ hget, hf]
        rfl
      | @missed w' hf hw =>
        dsimp only
        have hv : w'.values = w.values := by rw [hw, values_seeAll]
        have ho := hp w' (by rw [hv]; exact hs)
        have hnone : firstOf method node ((patterns segs).map (some seg :: ·)) = none := by
          rw [firstOf_below method _ hget, hf]
          rfl
        generalize walkParam (walk method segs) node seg w' = r at ho
        cases ho with
        | found hf' hv' =>
          exact .found (by rw [patterns, firstOf_append, hnone, Option.none_or, hf'])
            (by rw [hv', hv])
        | missed hf' hw' =>
          exact .missed (by rw [patterns, firstOf_append, hnone, Option.none_or, hf'])
            (by rw [patterns, seeAll_append, seeAll_below w _ hget, ← hw, hw'])

end Ioxd.Http
