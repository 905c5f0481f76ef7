import Ioxd.Http.Serve

/-!
# Targets in absolute form

`fill_request` cuts the scheme and the authority of an absolute target at the
first slash behind them. A target that has a query and no path has its first
slash in the query, or none: it is read as another path, or loses the query.
-/

namespace Ioxd.Http

open Flat
open Ioxd.Pipe (Byte)

/-- The origin form of what is behind an authority. -/
def originForm (s : List Byte) : List Byte := if s.head? = some 47 then s else 47 :: s

/-- A request with another target. -/
def Request.at (req : Request) (target : List Byte) : Request := { req with target := target }

theorem frame_path (req : Request) (picked : PickedHeaders) :
    (frame req picked).2.path = req.path ∧ (frame req picked).2.query = req.query := by
  unfold frame
  split
  · split
    · exact ⟨rfl, rfl⟩
    split
    · exact ⟨rfl, rfl⟩
    split <;> exact ⟨rfl, rfl⟩
  split
  · split <;> exact ⟨rfl, rfl⟩
  · exact ⟨rfl, rfl⟩

theorem fillRequest_path (req : Request) (arena : Mem Byte) (arenaCap : Nat) :
    (fillRequest req arena arenaCap).2.1.path = (originTarget req.target).takeWhile (· != 63) ∧
      (fillRequest req arena arenaCap).2.1.query =
        ((originTarget req.target).dropWhile (· != 63)).drop 1 := by
  unfold fillRequest
  dsimp only
  generalize ((originTarget req.target).dropWhile (· != 63)).drop 1 = query
  generalize (if query ≠ [] then kvParse query maxParams arena arenaCap
    else (⟨arena, 0, [], false⟩ : KvState)) = kv
  split
  · exact ⟨rfl, rfl⟩
  split
  · exact ⟨rfl, rfl⟩
  -- the condition on the Host fields has two sides of its own
  split
  all_goals
    split
    · exact ⟨rfl, rfl⟩
    · exact frame_path _ _

theorem originTarget_origin (s : List Byte) : originTarget (originForm s) = originForm s := by
  have hh : (originForm s).head? = some 47 := by
    unfold originForm
    split
    · assumption
    · rfl
  unfold originTarget
  rw [if_neg (by simp [hh])]

section Absolute

variable {scheme authority s : List Byte}

theorem originTarget_scheme
    (hs : scheme.map lowerAscii = str "http" ∨ scheme.map lowerAscii = str "https")
    (rest : List Byte) : originTarget (scheme ++ str "://" ++ rest) =
      match rest.dropWhile (· != 47) with
      | [] => str "/"
      | rest => rest := by
  have hlit : (str "://").map lowerAscii = str "://" := by decide
  have hne : scheme.head? ≠ some 47 := by
    intro h
    obtain ⟨t, rfl⟩ := List.head?_eq_some_iff.mp h
    rcases hs with hs | hs <;> exact absurd (List.cons.inj hs).1 (by decide)
  have hstart {lit : List Byte} (hl : (scheme ++ str "://").map lowerAscii = lit)
      (hlow : lit.map lowerAscii = lit) : startsCi (scheme ++ str "://" ++ rest) lit = true := by
    have hn : lit.length = (scheme ++ str "://").length := by rw [← hl, List.length_map]
    unfold startsCi eqCi
    rw [hn, List.take_left' rfl, hl, hlow]
    simp
  have hcut : (scheme ++ str "://" ++ rest).drop
      (if (scheme ++ str "://" ++ rest)[4]? = some 58 then 7 else 8) = rest := by
    rcases hs with hs | hs
    · have hl : scheme.length = 4 := by
        have := congrArg List.length hs
        rwa [List.length_map] at this
      have h4 : (scheme ++ str "://" ++ rest)[4]? = some 58 := by
        rw [List.append_assoc, List.getElem?_append_right (by omega), hl]
        rfl
      rw [if_pos h4, List.drop_left' (by rw [List.length_append, hl]; rfl)]
    · have hl : scheme.length = 5 := by
        have := congrArg List.length hs
        rwa [List.length_map] at this
      have h4 : (scheme ++ str "://" ++ rest)[4]? ≠ some 58 := by
        intro h
        rw [List.append_assoc, List.getElem?_append_left (by omega)] at h
        have hm := congrArg (·[4]?) hs
        simp only [List.getElem?_map, h] at hm
        exact absurd hm (by decide)
      rw [if_neg h4, List.drop_left' (by rw [List.length_append, hl]; rfl)]
  have habs : scheme ++ str "://" ++ rest ≠ [] ∧ (scheme ++ str "://" ++ rest).head? ≠ some 47 ∧
      (startsCi (scheme ++ str "://" ++ rest) (str "http://") = true ∨
        startsCi (scheme ++ str "://" ++ rest) (str "https://") = true) := by
    refine ⟨by simp [Message.text], ?_, ?_⟩
    · intro h
      rcases hsc : scheme with _ | ⟨c, t⟩
      · rw [hsc] at hs
        rcases hs with hs | hs <;> exact absurd hs (by decide)
      · rw [hsc] at h hne
        exact hne h
    · rcases hs with hs | hs
      · exact .inl (hstart (by rw [List.map_append, hs, hlit]; rfl) (by decide))
      · exact .inr (hstart (by rw [List.map_append, hs, hlit]; rfl) (by decide))
  unfold originTarget
  rw [if_pos habs]
  dsimp only
  generalize (scheme ++ str "://" ++ rest).drop
    (if (scheme ++ str "://" ++ rest)[4]? = some 58 then 7 else 8) = behind at hcut ⊢
  subst hcut
  cases behind.dropWhile (· != 47) <;> rfl

theorem originTarget_absolute
    (hs : scheme.map lowerAscii = str "http" ∨ scheme.map lowerAscii = str "https")
    (ha : 47 ∉ authority) : originTarget (scheme ++ str "://" ++ authority ++ s) =
      match s.dropWhile (· != 47) with
      | [] => str "/"
      | rest => rest := by
  rw [List.append_assoc (scheme ++ str "://"), originTarget_scheme hs,
    List.dropWhile_append_of_pos fun c hc => by
      simp only [bne_iff_ne, ne_eq]
      rintro rfl
      exact ha hc]

/-- Every scheme, authority and suffix: the absolute form is read as the origin
form of its suffix, if and only if the suffix is no query or an empty one. -/
theorem absolute_form (req : Request) (arena : Mem Byte) (arenaCap : Nat)
    (hs : scheme.map lowerAscii = str "http" ∨ scheme.map lowerAscii = str "https")
    (ha : 47 ∉ authority ∧ 63 ∉ authority ∧ 35 ∉ authority)
    (hsuf : s = [] ∨ s.head? = some 47 ∨ s.head? = some 63) :
    ((fillRequest (req.at (scheme ++ str "://" ++ authority ++ s)) arena arenaCap).2.1.path =
        (fillRequest (req.at (originForm s)) arena arenaCap).2.1.path ∧
      (fillRequest (req.at (scheme ++ str "://" ++ authority ++ s)) arena arenaCap).2.1.query =
        (fillRequest (req.at (originForm s)) arena arenaCap).2.1.query) ↔
    (s.head? = some 63 → s = [63]) := by
  obtain ⟨hp, hq⟩ :=
    fillRequest_path (req.at (scheme ++ str "://" ++ authority ++ s)) arena arenaCap
  obtain ⟨hp', hq'⟩ := fillRequest_path (req.at (originForm s)) arena arenaCap
  rw [hp, hq, hp', hq']
  simp only [Request.at, originTarget_absolute hs ha.1, originTarget_origin]
  rcases hsuf with rfl | hh | hh
  · refine iff_of_true ⟨?_, ?_⟩ (by simp) <;> decide
  · obtain ⟨t, rfl⟩ := List.head?_eq_some_iff.mp hh
    simp [originForm]
  · obtain ⟨t, rfl⟩ := List.head?_eq_some_iff.mp hh
    have hquery : (originForm (63 :: t)).dropWhile (· != 63) = 63 :: t := by simp [originForm]
    have hpath : (originForm (63 :: t)).takeWhile (· != 63) = [47] := by simp [originForm]
    rw [hquery, hpath]
    have hd : (63 :: t).dropWhile (· != (47 : Byte)) = t.dropWhile (· != 47) := by simp
    rw [hd]
    cases hdrop : t.dropWhile (· != 47) with
    | nil => simp [Message.text, eq_comm]
    | cons c u =>
      -- the query that is left is shorter than the one that was asked for
      have hle : (c :: u).length ≤ t.length := hdrop ▸ List.length_dropWhile_le ..
      have hle' : ((c :: u).dropWhile (· != 63)).length ≤ (c :: u).length :=
        List.length_dropWhile_le ..
      have ht : t ≠ [] := fun e => by simp [e] at hdrop
      refine ⟨fun h => ?_, fun h => absurd (List.cons.inj (h rfl)).2 ht⟩
      have hlen := congrArg List.length h.2
      simp only [List.length_drop, List.length_cons] at hlen hle hle'
      omega

end Absolute

def bareGet : Request := .parsed ⟨str "GET", [], 1, []⟩

/-- With a path behind the authority, the two forms are one request. -/
theorem absolute_form_path :
    (fillRequest (bareGet.at (str "HTTP://h/a?b")) (fun _ => 0) 64).2.1.path = str "/a" ∧
      (fillRequest (bareGet.at (str "HTTP://h/a?b")) (fun _ => 0) 64).2.1.query = str "b" := by
  have h := (absolute_form bareGet (fun _ => 0) 64 (.inl (show (str "HTTP").map lowerAscii = _ by
    decide)) (show 47 ∉ str "h" ∧ 63 ∉ str "h" ∧ 35 ∉ str "h" by decide)
    (.inr (.inl (show (str "/a?b").head? = some 47 by decide)))).mpr (by decide)
  have ht : str "HTTP" ++ str "://" ++ str "h" ++ str "/a?b" = str "HTTP://h/a?b" := by decide
  obtain ⟨hp, hq⟩ := fillRequest_path (bareGet.at (originForm (str "/a?b"))) (fun _ => 0) 64
  rw [ht, hp, hq] at h
  exact ⟨h.1.trans (by decide), h.2.trans (by decide)⟩

/-- A slash in the query is taken for the start of the path. -/
theorem absolute_form_query : ¬ ∀ (req : Request) (arena : Mem Byte) (arenaCap : Nat)
    (scheme authority s : List Byte),
    scheme.map lowerAscii = str "http" ∨ scheme.map lowerAscii = str "https" →
    47 ∉ authority ∧ 63 ∉ authority ∧ 35 ∉ authority →
    s = [] ∨ s.head? = some 47 ∨ s.head? = some 63 →
    (fillRequest (req.at (scheme ++ str "://" ++ authority ++ s)) arena arenaCap).2.1.path =
        (fillRequest (req.at (originForm s)) arena arenaCap).2.1.path ∧
      (fillRequest (req.at (scheme ++ str "://" ++ authority ++ s)) arena arenaCap).2.1.query =
        (fillRequest (req.at (originForm s)) arena arenaCap).2.1.query := by
  intro h
  have hp := (h bareGet (fun _ => 0) 64 (str "http") (str "h") (str "?a=/b") (by decide) (by decide)
    (by decide)).1
  rw [(fillRequest_path ..).1, (fillRequest_path ..).1] at hp
  exact absurd hp (by decide)

end Ioxd.Http
