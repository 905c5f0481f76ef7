import Ioxd.Http.LineLaws
import Ioxd.Lib.Parts
import Mathlib.Data.List.Forall2

/-!
# A query is read whole, or said not to be

What `ioxd_kv_parse` leaves: pairs that are some of the query's segments, in
their order, each decoded, with their decoded texts side by side in the arena.
It tells of a loss whenever there was one. It also tells of one when there was
none, if all pairs are taken and there is nothing but separators left.
-/

namespace Ioxd.Http

open Flat Numeral
open Ioxd.Pipe (Byte)

-- ---------------------------------------------------------------------------
-- Segments
-- ---------------------------------------------------------------------------

/-- The parts between `&` that have a byte. -/
def querySegments (text : List Byte) : List (List Byte) := Parts.parts 38 text

/-- A segment in front of its first `=`, or all of it. -/
def keyOf (seg : List Byte) : List Byte := seg.takeWhile (· != 61)

/-- A segment behind its first `=`. -/
def valueOf (seg : List Byte) : List Byte := (seg.dropWhile (· != 61)).drop 1

/-- `+` stands for a space and an escape for its byte, unless that is NUL;
everything else stands for itself. -/
inductive Unescapes : List Byte → List Byte → Prop
  | nil : Unescapes [] []
  | plus {s t : List Byte} : Unescapes s t → Unescapes (43 :: s) (32 :: t)
  | escape {s t : List Byte} {h l : Byte} {hi lo : Nat} : hex h = some hi → hex l = some lo →
      hi * 16 + lo ≠ 0 → Unescapes s t → Unescapes (37 :: h :: l :: s) (UInt8.ofNat (hi * 16 + lo) :: t)
  | kept {s t : List Byte} {c : Byte} : c ≠ 43 → (c = 37 → ∀ h l s' hi lo, s = h :: l :: s' →
      hex h = some hi → hex l = some lo → hi * 16 + lo = 0) → Unescapes s t →
      Unescapes (c :: s) (c :: t)

theorem decode_unescapes (s : List Byte) : Unescapes s (decode s) := by
  fun_induction decode s with
  | case1 => exact .nil
  | case2 cs ih => exact .plus ih
  | case3 h l cs hi lo hl hh hz hne ih =>
    refine .kept hne (fun _ h' l' cs' hi' lo' he hh' hl' => ?_) ih
    simp only [List.cons.injEq] at he
    rw [← he.1, ← hexval_eq, hh] at hh'
    rw [← he.2.1, ← hexval_eq, hl] at hl'
    cases hh'
    cases hl'
    omega
  | case4 h l cs hi lo hl hh hz hne ih =>
    exact .escape (hexval_eq h ▸ hh) (hexval_eq l ▸ hl) (by omega) ih
  | case5 h l cs hno hne ih =>
    refine .kept hne (fun _ h' l' cs' hi' lo' he hh' hl' => ?_) ih
    simp only [List.cons.injEq] at he
    refine (hno hi' lo' ?_ ?_).elim
    · rw [he.1, hexval_eq, hh']
    · rw [he.2.1, hexval_eq, hl']
  | case6 cs hno hne ih => exact .kept hne (fun _ h' l' cs' _ _ he => (hno h' l' cs' he).elim) ih
  | case7 c cs hne hne' ih => exact .kept hne (fun he => absurd he hne') ih

theorem length_decode (s : List Byte) : (decode s).length ≤ s.length := by
  fun_induction decode s with
  | case1 => exact Nat.le_refl _
  | case2 cs ih => exact Nat.succ_le_succ ih
  | case3 h l cs hi lo hl hh hz hne ih => exact Nat.succ_le_succ ih
  | case4 h l cs hi lo hl hh hz hne ih =>
    simp only [List.length_cons]
    omega
  | case5 h l cs hno hne ih => exact Nat.succ_le_succ ih
  | case6 cs hno hne ih => exact Nat.succ_le_succ ih
  | case7 c cs hne hne' ih => exact Nat.succ_le_succ ih

/-- An escape or a `+`. -/
def isEscape (c : Byte) : Bool := c == 37 || c == 43

theorem decode_plain {s : List Byte} (h : s.any isEscape = false) : decode s = s := by
  induction s with
  | nil => rfl
  | cons c s ih =>
    simp only [List.any_cons, Bool.or_eq_false_iff, isEscape, beq_eq_false_iff_ne, ne_eq] at h
    rw [decode.eq_def]
    simp only [if_neg h.1.2, if_neg h.1.1, ih h.2]

-- ---------------------------------------------------------------------------
-- The scan of a segment
-- ---------------------------------------------------------------------------

theorem kvScan_value (cs : List Byte) (i e : Nat) (k v : Bool) :
    kvScan cs i ⟨some e, k, v⟩ = ⟨some e, k, v || cs.any isEscape⟩ := by
  induction cs generalizing i v with
  | nil => simp [kvScan]
  | cons c cs ih =>
    unfold kvScan
    by_cases h61 : c = 61
    · subst h61
      simp only [if_true, reduceCtorEq, if_false, ih]
      simp [isEscape]
    · by_cases hc : c = 37 ∨ c = 43
      · have he : isEscape c = true := by simpa [isEscape] using hc
        simp only [if_neg h61, if_pos hc, reduceCtorEq, if_false, ih]
        simp [he]
      · have he : isEscape c = false := by simpa [isEscape] using hc
        simp only [if_neg h61, if_neg hc, ih]
        simp [he]

theorem kvScan_key (cs : List Byte) (i : Nat) (k : Bool) :
    kvScan cs i ⟨none, k, false⟩ =
      ⟨if 61 ∈ cs then some (i + (keyOf cs).length) else none, k || (keyOf cs).any isEscape,
        (valueOf cs).any isEscape⟩ := by
  induction cs generalizing i k with
  | nil => simp [kvScan, keyOf, valueOf]
  | cons c cs ih =>
    unfold kvScan
    by_cases h61 : c = 61
    · subst h61
      simp only [if_true, kvScan_value]
      simp [keyOf, valueOf]
    · have hkey : keyOf (c :: cs) = c :: keyOf cs := by simp [keyOf, h61]
      have hval : valueOf (c :: cs) = valueOf cs := by simp [valueOf, h61]
      have hmem : (61 ∈ c :: cs) = (61 ∈ cs) := by
        simp [Ne.symm h61]
      have hadd : i + 1 + (keyOf cs).length = i + (c :: keyOf cs).length := by
        rw [List.length_cons]
        omega
      simp only [hkey, hval, hmem, List.any_cons]
      by_cases hc : c = 37 ∨ c = 43
      · have he : isEscape c = true := by simpa [isEscape] using hc
        simp only [if_neg h61, if_pos hc, if_true, ih, he, hadd, Bool.true_or, Bool.or_true]
      · have he : isEscape c = false := by simpa [isEscape] using hc
        simp only [if_neg h61, if_neg hc, ih, he, hadd, Bool.false_or]

theorem drop_valueAt (seg : List Byte) :
    seg.drop (if 61 ∈ seg then (keyOf seg).length + 1 else seg.length) = valueOf seg := by
  have hsplit : seg = keyOf seg ++ seg.dropWhile (· != 61) := List.takeWhile_append_dropWhile.symm
  split
  · rw [← List.drop_drop]
    nth_rewrite 2 [hsplit]
    rw [List.drop_left]
    rfl
  · rename_i h
    have hd : seg.dropWhile (· != 61) = [] := by
      rw [List.dropWhile_eq_nil_iff]
      intro c hc
      simp only [bne_iff_ne, ne_eq]
      rintro rfl
      exact h hc
    rw [List.drop_length, valueOf, hd, List.drop_nil]

theorem take_keyLen (seg : List Byte) :
    seg.take (if 61 ∈ seg then (keyOf seg).length else seg.length) = keyOf seg := by
  split
  · exact List.prefix_iff_eq_take.mp (List.takeWhile_prefix _) |>.symm
  · rename_i h
    rw [List.take_length, keyOf, List.takeWhile_eq_self_iff.mpr]
    intro c hc
    simp only [bne_iff_ne, ne_eq]
    rintro rfl
    exact h hc

-- ---------------------------------------------------------------------------
-- One pair
-- ---------------------------------------------------------------------------

/-- What a slice shows. -/
def Ref.bytes (text : List Byte) (arena : Mem Byte) : Ref → List Byte
  | .text off len => (text.drop off).take len
  | .arena off len => arena.read off len

/-- A decoded slice is in this part of the arena. -/
def Ref.Within (lo hi : Nat) : Ref → Prop
  | .text _ _ => True
  | .arena off len => lo ≤ off ∧ off + len ≤ hi

/-- Two decoded slices do not overlap, the first being the earlier one. -/
def Ref.Before : Ref → Ref → Prop
  | .arena off len, .arena off' _ => off + len ≤ off'
  | _, _ => True

theorem Ref.Within.before {r r' : Ref} {lo mid hi : Nat} (h : r.Within lo mid)
    (h' : r'.Within mid hi) : r.Before r' := by
  cases r <;> cases r' <;> simp only [Before, Within] at *
  omega

theorem Ref.Within.mono {r : Ref} {lo hi lo' hi' : Nat} (h : r.Within lo hi) (hl : lo' ≤ lo)
    (hh : hi ≤ hi') : r.Within lo' hi' := by
  cases r with
  | text => trivial
  | arena off len =>
    simp only [Within] at *
    omega

/-- What is decoded stays as it is when the arena is written behind it. -/
theorem Ref.Within.bytes_eq {r : Ref} {lo hi : Nat} (h : r.Within lo hi) {text : List Byte}
    {arena arena' : Mem Byte} (ha : ∀ i < hi, arena' i = arena i) :
    r.bytes text arena' = r.bytes text arena := by
  cases r with
  | text => rfl
  | arena off len =>
    refine read_congr fun i _ hi' => ha i ?_
    have := h.2
    omega

/-- Where the arena is used up to behind this text, if the text fits. -/
def roomFor (arenaCap used : Nat) (s : List Byte) : Option Nat :=
  if s.any isEscape then
    if used + s.length > arenaCap then none else some (used + (decode s).length)
  else some used

def pairRoom (arenaCap used : Nat) (seg : List Byte) : Option Nat :=
  (roomFor arenaCap used (keyOf seg)).bind fun used => roomFor arenaCap used (valueOf seg)

def allFit (arenaCap : Nat) : List (List Byte) → Nat → Prop
  | [], _ => True
  | seg :: segs, used =>
    ∃ used', pairRoom arenaCap used seg = some used' ∧ allFit arenaCap segs used'

variable {text s seg : List Byte} {arena : Mem Byte} {arenaCap used cap start : Nat}

/-- What is left of an arena when bytes went in between two limits. -/
structure Filled (arena arena' : Mem Byte) (lo hi : Nat) : Prop where
  below : ∀ i < lo, arena' i = arena i
  above : ∀ i ≥ hi, arena' i = arena i

theorem Filled.refl (arena : Mem Byte) (lo hi : Nat) : Filled arena arena lo hi :=
  ⟨fun _ _ => rfl, fun _ _ => rfl⟩

theorem Filled.trans {a b c : Mem Byte} {lo mid hi : Nat} (h : Filled a b lo hi)
    (h' : Filled b c mid hi) (hl : lo ≤ mid) : Filled a c lo hi :=
  ⟨fun i hi => (h'.below i (by omega)).trans (h.below i hi),
    fun i hi => (h'.above i hi).trans (h.above i hi)⟩

theorem decodeInto_spec {r : Ref} (hr : r.bytes text arena = s) (hin : ∀ lo hi, r.Within lo hi)
    (hu : used ≤ arenaCap) :
    (∃ r' arena' used', decodeInto (s.any isEscape) r s arena arenaCap used =
        some (r', arena', used') ∧ roomFor arenaCap used s = some used' ∧ used ≤ used' ∧
        used' ≤ arenaCap ∧ Filled arena arena' used arenaCap ∧ r'.Within used used' ∧
        r'.bytes text arena' = decode s) ∨
      decodeInto (s.any isEscape) r s arena arenaCap used = none ∧
        roomFor arenaCap used s = none := by
  have hlen := length_decode s
  unfold decodeInto roomFor
  by_cases he : s.any isEscape = true
  · simp only [he, not_true_eq_false, if_false, if_true]
    by_cases hroom : used + s.length > arenaCap
    · right
      simp [hroom]
    · left
      rw [if_neg hroom, if_neg hroom]
      refine ⟨_, _, _, rfl, rfl, by omega, by omega, ⟨fun i hi => ?_, fun i hi => ?_⟩,
        ⟨Nat.le_refl _, Nat.le_refl _⟩, read_write_self ..⟩
      · exact write_apply_below _ _ hi
      · exact write_apply_above _ _ (by omega)
  · rw [Bool.not_eq_true] at he
    left
    refine ⟨r, arena, used, by simp [he], by simp [he], Nat.le_refl _, hu, .refl .., hin _ _, ?_⟩
    rw [hr, decode_plain he]

structure Shows (text : List Byte) (arena : Mem Byte) (kv : Kv) (seg : List Byte) : Prop where
  key : kv.key.bytes text arena = decode (keyOf seg)
  value : kv.value.bytes text arena = decode (valueOf seg)
  apart : kv.key.Before kv.value

inductive PairOutcome (text : List Byte) (arenaCap : Nat) (seg : List Byte) (s : KvState) :
    KvState → Prop
  | stored {kv : Kv} {arena : Mem Byte} {used : Nat} : pairRoom arenaCap s.used seg = some used →
      s.used ≤ used → used ≤ arenaCap → Filled s.arena arena s.used arenaCap →
      kv.key.Within s.used used → kv.value.Within s.used used → Shows text arena kv seg →
      PairOutcome text arenaCap seg s
        { s with arena := arena, used := used, pairs := s.pairs ++ [kv] }
  | lost {arena : Mem Byte} : pairRoom arenaCap s.used seg = none →
      Filled s.arena arena s.used arenaCap →
      PairOutcome text arenaCap seg s { s with arena := arena, lost := true }

theorem pair_outcome {s : KvState} {rest : List Byte} {keyLen valueAt : Nat}
    (ht : text.drop start = seg ++ rest) (hu : s.used ≤ arenaCap)
    (hk : seg.take keyLen = keyOf seg) (hv : seg.drop valueAt = valueOf seg)
    (hkl : keyLen ≤ seg.length) (hvl : valueAt ≤ seg.length) :
    PairOutcome text arenaCap seg s
      (match decodeInto ((keyOf seg).any isEscape) (.text start keyLen) (seg.take keyLen) s.arena
          arenaCap s.used with
      | none => { s with lost := true }
      | some (key, arena, used) =>
        match decodeInto ((valueOf seg).any isEscape)
            (.text (start + valueAt) (seg.length - valueAt)) (seg.drop valueAt) arena arenaCap
            used with
        | none => { s with arena := arena, lost := true }
        | some (value, arena, used) =>
          { s with arena := arena, used := used, pairs := s.pairs ++ [⟨key, value⟩] }) := by
  have hkeyText : (Ref.text start keyLen).bytes text s.arena = keyOf seg := by
    rw [Ref.bytes, ht, List.take_append_of_le_length hkl, hk]
  have hvalueText (arena : Mem Byte) :
      (Ref.text (start + valueAt) (seg.length - valueAt)).bytes text arena = valueOf seg := by
    have hd := congrArg List.length hv
    rw [List.length_drop] at hd
    rw [Ref.bytes, ← List.drop_drop, ht, List.drop_append_of_le_length hvl, hv, hd, List.take_left]
  rw [hk, hv]
  rcases decodeInto_spec hkeyText (fun _ _ => trivial) hu with
    ⟨k, a₁, u₁, h1, h2, h3, h4, h5, h6, h7⟩ | ⟨h1, h2⟩
  · rw [h1]
    dsimp only
    rcases decodeInto_spec (hvalueText a₁) (fun _ _ => trivial) h4 with
      ⟨v, a₂, u₂, g1, g2, g3, g4, g5, g6, g7⟩ | ⟨g1, g2⟩
    · rw [g1]
      refine .stored (by rw [pairRoom, h2, Option.bind_some, g2]) (h3.trans g3) g4
        (h5.trans g5 h3) (h6.mono (Nat.le_refl _) g3) (g6.mono h3 (Nat.le_refl _)) ⟨?_, g7, ?_⟩
      · rw [h6.bytes_eq g5.below, h7]
      · exact h6.before g6
    · rw [g1]
      exact .lost (by rw [pairRoom, h2, Option.bind_some, g2]) h5
  · rw [h1]
    exact .lost (by rw [pairRoom, h2, Option.bind_none]) (.refl ..)

theorem kvPair_outcome {s : KvState} {rest : List Byte} (ht : text.drop start = seg ++ rest)
    (hu : s.used ≤ arenaCap) : PairOutcome text arenaCap seg s (kvPair arenaCap start seg s) := by
  have hk := take_keyLen seg
  have hv := drop_valueAt seg
  unfold kvPair
  simp only [kvScan_key, Bool.false_or]
  by_cases h : 61 ∈ seg
  · have hlt : (keyOf seg).length < seg.length := by
      refine lt_of_le_of_ne (List.takeWhile_prefix _).length_le fun hc => ?_
      have hall := (List.takeWhile_prefix (· != (61 : Byte)) (l := seg)).eq_of_length hc
      have := List.takeWhile_eq_self_iff.mp hall 61 h
      simp at this
    simp only [if_pos h, Nat.zero_add, Option.getD_some] at hk hv ⊢
    exact pair_outcome ht hu hk hv hlt.le hlt
  · simp only [if_neg h, Option.getD_none] at hk hv ⊢
    exact pair_outcome ht hu hk hv (Nat.le_refl _) (Nat.le_refl _)

-- ---------------------------------------------------------------------------
-- The loop
-- ---------------------------------------------------------------------------

/-- Behind the last segment there is more than the one separator that the loop
takes with it. -/
def Trails (text : List Byte) : Prop := [38, 38] <:+ text ∨ text = [38]

theorem querySegments_cut (rest : List Byte) : querySegments rest =
    (if rest.takeWhile (· != 38) = [] then [] else [rest.takeWhile (· != 38)]) ++
      querySegments (rest.drop ((rest.takeWhile (· != 38)).length + 1)) :=
  Parts.parts_cut 38 rest

@[simp] theorem querySegments_nil : querySegments [] = [] := Parts.parts_nil

theorem trails_append {seg t : List Byte} (hp : 38 ∉ seg) :
    [38, 38] <:+ seg ++ t ↔ [38, 38] <:+ t := by
  induction seg with
  | nil => rfl
  | cons c seg ih =>
    simp only [List.mem_cons, not_or] at hp
    rw [List.cons_append, List.suffix_cons_iff, ih hp.2, or_iff_right]
    intro h
    exact hp.1 (List.cons.inj h).1

theorem trails_separator (t : List Byte) : [38, 38] <:+ 38 :: t ↔ Trails t := by
  rw [List.suffix_cons_iff, Trails, or_comm]
  simp [eq_comm]

theorem trails_cut (rest : List Byte) (h : rest.takeWhile (· != 38) ≠ [] ∨
    rest.drop ((rest.takeWhile (· != 38)).length + 1) ≠ []) :
    Trails rest ↔ Trails (rest.drop ((rest.takeWhile (· != 38)).length + 1)) := by
  have hp := Parts.plain 38 rest
  rcases Parts.cut 38 rest with ⟨h1, h2⟩ | hc
  · have hno : 38 ∉ rest := h1 ▸ hp
    rw [h2]
    refine iff_of_false (fun ht => ?_) (by simp [Trails])
    rcases ht with ht | rfl
    · exact hno (ht.subset (by simp))
    · exact hno (by simp)
  · generalize rest.drop ((rest.takeWhile (· != 38)).length + 1) = t at *
    generalize rest.takeWhile (· != 38) = seg at *
    subst hc
    rw [Trails, trails_append hp, trails_separator, or_iff_left]
    intro he
    rcases h with h | h
    · obtain ⟨c, seg, rfl⟩ := List.exists_cons_of_ne_nil h
      exact hp (by simp [(List.cons.inj he).1])
    · have := congrArg List.length he
      have := List.length_pos_iff.mpr h
      simp only [List.length_append, List.length_cons, List.length_nil] at *
      omega

def Kv.Before (p q : Kv) : Prop :=
  p.key.Before q.key ∧ p.key.Before q.value ∧ p.value.Before q.key ∧ p.value.Before q.value

/-- What a parse of `rest` took, from one state to another: which pairs, and
which segments they show. -/
structure Took (text : List Byte) (cap arenaCap : Nat) (rest : List Byte) (s r : KvState)
    (pairs : List Kv) (taken : List (List Byte)) : Prop where
  grown : r.pairs = s.pairs ++ pairs
  sub : taken.Sublist (querySegments rest)
  shows : List.Forall₂ (Shows text r.arena) pairs taken
  within : ∀ kv ∈ pairs, kv.key.Within s.used r.used ∧ kv.value.Within s.used r.used
  apart : pairs.Pairwise Kv.Before
  used : s.used ≤ r.used ∧ r.used ≤ arenaCap
  filled : Filled s.arena r.arena s.used arenaCap
  count : r.pairs.length ≤ cap
  lost : r.lost = true ↔ s.lost = true ∨ pairs.length < (querySegments rest).length ∨
    ((querySegments rest).length + s.pairs.length = cap ∧
      allFit arenaCap (querySegments rest) s.used ∧ Trails rest)
  all : (querySegments rest).length + s.pairs.length ≤ cap →
    allFit arenaCap (querySegments rest) s.used → pairs.length = (querySegments rest).length

theorem Took.nothing {s r : KvState} {rest : List Byte} (hu : s.used ≤ arenaCap)
    (hc : s.pairs.length ≤ cap) (hr : r = { s with lost := r.lost })
    (hl : r.lost = true ↔ s.lost = true ∨ 0 < (querySegments rest).length ∨
      ((querySegments rest).length + s.pairs.length = cap ∧
        allFit arenaCap (querySegments rest) s.used ∧ Trails rest))
    (hn : (querySegments rest).length + s.pairs.length ≤ cap → querySegments rest = []) :
    Took text cap arenaCap rest s r [] [] := by
  rw [hr]
  exact ⟨(List.append_nil _).symm, List.nil_sublist _, .nil, nofun, .nil, ⟨Nat.le_refl _, hu⟩,
    .refl .., hc, hl, fun h _ => (congrArg List.length (hn h)).symm⟩

theorem trails_of_querySegments_nil {rest : List Byte} (hne : rest ≠ [])
    (h : querySegments rest = []) : Trails rest := by
  induction hn : rest.length using Nat.strong_induction_on generalizing rest with
  | _ n ih =>
    rw [querySegments_cut, List.append_eq_nil_iff] at h
    by_cases htail : rest.drop ((rest.takeWhile (· != 38)).length + 1) = []
    · have hseg : rest.takeWhile (· != 38) = [] := by
        by_contra hc
        exact absurd h.1 (by rw [if_neg hc]; exact List.cons_ne_nil _ _)
      rcases Parts.cut 38 rest with ⟨h1, -⟩ | hcut
      · exact absurd (h1.symm.trans hseg) hne
      · rw [htail, hseg] at hcut
        exact .inr hcut
    · rw [trails_cut rest (.inr htail)]
      refine ih _ ?_ htail h.2 rfl
      have := List.length_pos_iff.mpr hne
      rw [List.length_drop]
      omega

theorem Took.length_le {s r : KvState} {rest : List Byte} {pairs : List Kv}
    {taken : List (List Byte)} (h : Took text cap arenaCap rest s r pairs taken) :
    pairs.length ≤ (querySegments rest).length :=
  h.shows.length_eq ▸ h.sub.length_le

theorem Took.store {s r : KvState} {rest rest' : List Byte} {pairs : List Kv}
    {taken : List (List Byte)} {kv : Kv} {arena : Mem Byte}
    (hs : querySegments rest = seg :: querySegments rest') (htr : Trails rest ↔ Trails rest')
    (hroom : pairRoom arenaCap s.used seg = some used) (hu : s.used ≤ used)
    (hf : Filled s.arena arena s.used arenaCap) (hk : kv.key.Within s.used used)
    (hv : kv.value.Within s.used used) (hshow : Shows text arena kv seg)
    (h : Took text cap arenaCap rest'
      { s with arena := arena, used := used, pairs := s.pairs ++ [kv] } r pairs taken) :
    Took text cap arenaCap rest s r (kv :: pairs) (seg :: taken) where
  grown := by rw [h.grown, List.append_assoc, List.singleton_append]
  sub := hs ▸ h.sub.cons_cons seg
  shows := by
    refine .cons ⟨?_, ?_, hshow.apart⟩ h.shows
    · rw [hk.bytes_eq h.filled.below, hshow.key]
    · rw [hv.bytes_eq h.filled.below, hshow.value]
  within := by
    intro q hq
    rcases List.mem_cons.mp hq with rfl | hq
    · exact ⟨hk.mono (Nat.le_refl _) h.used.1, hv.mono (Nat.le_refl _) h.used.1⟩
    · obtain ⟨h1, h2⟩ := h.within q hq
      exact ⟨h1.mono hu (Nat.le_refl _), h2.mono hu (Nat.le_refl _)⟩
  apart := by
    refine .cons (fun q hq => ?_) h.apart
    obtain ⟨h1, h2⟩ := h.within q hq
    exact ⟨hk.before h1, hk.before h2, hv.before h1, hv.before h2⟩
  used := ⟨hu.trans h.used.1, h.used.2⟩
  filled := hf.trans h.filled hu
  count := h.count
  lost := by
    have hl := h.lost
    simp only [List.length_append, List.length_singleton] at hl
    rw [hl, hs, allFit]
    simp only [hroom, Option.some.injEq, exists_eq_left', List.length_cons, htr,
      Nat.add_lt_add_iff_right, Nat.add_assoc, Nat.add_comm 1]
  all := by
    intro hcap hfit
    rw [hs, List.length_cons] at hcap
    rw [hs] at hfit
    obtain ⟨used', hroom', hfit⟩ := hfit
    cases hroom.symm.trans hroom'
    have hlen : (s.pairs ++ [kv]).length = s.pairs.length + 1 := List.length_append
    rw [hs, List.length_cons, List.length_cons, h.all (by rw [hlen]; omega) hfit]

theorem Took.drop {s r : KvState} {rest rest' : List Byte} {pairs : List Kv}
    {taken : List (List Byte)} {arena : Mem Byte}
    (hs : querySegments rest = seg :: querySegments rest')
    (hroom : pairRoom arenaCap s.used seg = none) (hf : Filled s.arena arena s.used arenaCap)
    (h : Took text cap arenaCap rest' { s with arena := arena, lost := true } r pairs taken) :
    Took text cap arenaCap rest s r pairs taken where
  grown := h.grown
  sub := hs ▸ h.sub.cons seg
  shows := h.shows
  within := h.within
  apart := h.apart
  used := h.used
  filled := hf.trans h.filled (Nat.le_refl _)
  count := h.count
  lost := by
    have hle := h.length_le
    rw [h.lost, hs, List.length_cons]
    exact iff_of_true (.inl rfl) (.inr (.inl (Nat.lt_succ_of_le hle)))
  all := by
    intro _ hfit
    rw [hs] at hfit
    obtain ⟨used', hroom', -⟩ := hfit
    exact absurd (hroom.symm.trans hroom') (Option.some_ne_none _).symm

theorem Took.skip {s r : KvState} {rest rest' : List Byte} {pairs : List Kv}
    {taken : List (List Byte)} (hs : querySegments rest = querySegments rest')
    (htr : (querySegments rest').length + s.pairs.length = cap → (Trails rest ↔ Trails rest'))
    (h : Took text cap arenaCap rest' s r pairs taken) :
    Took text cap arenaCap rest s r pairs taken :=
  { h with
    sub := hs ▸ h.sub
    lost := by
      rw [h.lost, hs]
      refine or_congr_right (or_congr_right (and_congr_right fun hcap => ?_))
      rw [htr hcap]
    all := by
      rw [hs]
      exact h.all }

theorem kvLoop_took {start : Nat} {rest : List Byte} {s : KvState} (ht : text.drop start = rest)
    (hu : s.used ≤ arenaCap) (hc : s.pairs.length ≤ cap) :
    ∃ pairs taken,
      Took text cap arenaCap rest s (kvLoop cap arenaCap start rest s) pairs taken := by
  fun_induction kvLoop cap arenaCap start rest s with
  | case1 start s =>
    refine ⟨[], [], .nothing hu hc rfl ?_ fun _ => querySegments_nil⟩
    simp [Trails]
  | case2 start rest s hne hcap =>
    refine ⟨[], [], .nothing hu hc rfl ?_ fun _ => List.length_eq_zero_iff.mp (by omega)⟩
    refine iff_of_true rfl (.inr ?_)
    rcases Nat.eq_zero_or_pos (querySegments rest).length with h | h
    · have hnil := List.length_eq_zero_iff.mp h
      exact .inr ⟨by omega, hnil ▸ trivial, trails_of_querySegments_nil hne hnil⟩
    · exact .inl h
  | case3 start rest s hne hcap seg s' ih =>
    have hcut := querySegments_cut rest
    have htext : text.drop (start + seg.length + 1) = rest.drop (seg.length + 1) := by
      rw [Nat.add_assoc, ← List.drop_drop, ht]
    by_cases hseg : seg = []
    · have hs' : s' = s := if_pos hseg
      rw [hs'] at ih ⊢
      rw [if_pos hseg, List.nil_append] at hcut
      obtain ⟨pairs, taken, h⟩ := ih htext hu hc
      refine ⟨pairs, taken, h.skip hcut fun hfull => trails_cut rest (.inr fun hnil => hcap ?_)⟩
      have hnone : querySegments (rest.drop (seg.length + 1)) = [] := by
        rw [hnil, querySegments_nil]
      rw [hnone, List.length_nil, Nat.zero_add] at hfull
      exact hfull
    · have hs' : s' = kvPair arenaCap start seg s := if_neg hseg
      have hsplit : text.drop start = seg ++ rest.dropWhile (· != 38) := by
        rw [ht]
        exact List.takeWhile_append_dropWhile.symm
      have hp := @kvPair_outcome text seg arenaCap start s _ hsplit hu
      rw [← hs'] at hp
      rw [if_neg hseg, List.singleton_append] at hcut
      have htr := trails_cut rest (.inl hseg)
      clear_value s'
      cases hp with
      | stored hroom hu₁ hu₂ hf hk hv hshow =>
        obtain ⟨pairs, taken, h⟩ := ih htext hu₂ (by
          rw [List.length_append, List.length_singleton]
          omega)
        exact ⟨_, _, h.store hcut htr hroom hu₁ hf hk hv hshow⟩
      | lost hroom hf =>
        obtain ⟨pairs, taken, h⟩ := ih htext hu hc
        exact ⟨_, _, h.drop hcut hroom hf⟩

-- ---------------------------------------------------------------------------
-- The query
-- ---------------------------------------------------------------------------

/-- A pair and the segment it is decoded from. -/
structure Decoded (text : List Byte) (arena : Mem Byte) (kv : Kv) (seg : List Byte) : Prop where
  key : Unescapes (keyOf seg) (kv.key.bytes text arena)
  value : Unescapes (valueOf seg) (kv.value.bytes text arena)
  apart : kv.key.Before kv.value

/-- The query is read whole, or said not to be. -/
structure WholeOrSaid (text : List Byte) (cap : Nat) (arena : Mem Byte) (arenaCap : Nat)
    (r : KvState) : Prop where
  count : r.pairs.length ≤ cap
  outside : ∀ i ≥ arenaCap, r.arena i = arena i
  within : ∀ kv ∈ r.pairs, kv.key.Within 0 arenaCap ∧ kv.value.Within 0 arenaCap
  pairs : ∃ taken, taken.Sublist (querySegments text) ∧
    List.Forall₂ (Decoded text r.arena) r.pairs taken
  apart : r.pairs.Pairwise Kv.Before
  whole : r.lost = false → List.Forall₂ (Decoded text r.arena) r.pairs (querySegments text)
  said : r.lost = true ↔ r.pairs.length < (querySegments text).length

/-- All pairs are taken, every segment has its place, and there is more than one
separator left. -/
def Refused (text : List Byte) (cap arenaCap : Nat) : Prop :=
  (querySegments text).length = cap ∧ allFit arenaCap (querySegments text) 0 ∧ Trails text

theorem Shows.decoded {kv : Kv} (h : Shows text arena kv seg) : Decoded text arena kv seg :=
  ⟨h.key ▸ decode_unescapes _, h.value ▸ decode_unescapes _, h.apart⟩

theorem kvParse_took (text : List Byte) (cap : Nat) (arena : Mem Byte) (arenaCap : Nat) :
    ∃ pairs taken, Took text cap arenaCap text ⟨arena, 0, [], false⟩
      (kvParse text cap arena arenaCap) pairs taken ∧
      (kvParse text cap arena arenaCap).pairs = pairs ∧
      ((kvParse text cap arena arenaCap).lost = true ↔
        pairs.length < (querySegments text).length ∨ Refused text cap arenaCap) := by
  obtain ⟨pairs, taken, h⟩ := @kvLoop_took text arenaCap cap 0 text ⟨arena, 0, [], false⟩ rfl
    (Nat.zero_le _) (Nat.zero_le _)
  refine ⟨pairs, taken, h, h.grown, h.lost.trans ?_⟩
  rw [or_iff_right Bool.false_ne_true]
  rfl

theorem Refused.not_whole (href : Refused text cap arenaCap) (arena : Mem Byte) :
    ¬ WholeOrSaid text cap arena arenaCap (kvParse text cap arena arenaCap) := by
  obtain ⟨pairs, taken, h, hgrown, hlost⟩ := kvParse_took text cap arena arenaCap
  intro hw
  have hlt := hw.said.mp (hlost.mpr (.inr href))
  have hall := h.all (Nat.le_of_eq href.1) href.2.1
  rw [hgrown, hall] at hlt
  exact Nat.lt_irrefl _ hlt

theorem kvParse_whole (text : List Byte) (cap : Nat) (arena : Mem Byte) (arenaCap : Nat) :
    WholeOrSaid text cap arena arenaCap (kvParse text cap arena arenaCap) ↔
      ¬ Refused text cap arenaCap := by
  refine ⟨fun hw href => href.not_whole arena hw, fun href => ?_⟩
  obtain ⟨pairs, taken, h, hgrown, hlost⟩ := kvParse_took text cap arena arenaCap
  have hdec := h.shows.imp fun _ _ hs => hs.decoded
  rw [or_iff_left href] at hlost
  refine ⟨h.count, fun i hi => h.filled.above i hi, ?_, ⟨taken, h.sub, hgrown ▸ hdec⟩,
    hgrown ▸ h.apart, fun hl => ?_, hgrown ▸ hlost⟩
  · intro kv hkv
    obtain ⟨h1, h2⟩ := h.within kv (hgrown ▸ hkv)
    exact ⟨h1.mono (Nat.le_refl _) h.used.2, h2.mono (Nat.le_refl _) h.used.2⟩
  · have hge : (querySegments text).length ≤ pairs.length := by
      refine Nat.le_of_not_lt fun hlt => ?_
      rw [hlost.mpr hlt] at hl
      exact Bool.false_ne_true hl.symm
    rw [h.shows.length_eq] at hge
    rw [hgrown, ← h.sub.eq_of_length_le hge]
    exact hdec

/-- `a&&` into one pair: the pair is there, and it is said to be missing. -/
theorem kvParse_separators : ¬ ∀ (text : List Byte) (cap : Nat) (arena : Mem Byte)
    (arenaCap : Nat), WholeOrSaid text cap arena arenaCap (kvParse text cap arena arenaCap) := by
  intro h
  have href : Refused [97, 38, 38] 1 0 := ⟨by decide, ⟨0, by decide, trivial⟩, .inl ⟨[97], rfl⟩⟩
  exact href.not_whole (fun _ => 0) (h _ _ _ _)

end Ioxd.Http
