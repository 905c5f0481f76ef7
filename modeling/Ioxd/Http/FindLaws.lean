import Ioxd.Http.Find

/-!
# The searches agree

What a search is for is the first place a needle is at. A block is searched by
its first and last bytes, then by the bytes between, and the blocks together
cover every place, the last two overlapping.
-/

namespace Ioxd.Http

open Masks
open Ioxd.Pipe (Byte)

def Occurs (hay needle : List Byte) (i : Nat) : Prop :=
  i + needle.length ≤ hay.length ∧ (hay.drop i).take needle.length = needle

/-- `naive_find` of `tests/unit.c`: every place, in turn. -/
def naiveFind (hay needle : List Byte) : Int :=
  placeOf ((List.range (hay.length + 1 - needle.length)).find? fun i =>
    (hay.drop i).take needle.length == needle)

variable {hay needle : List Byte} {i j k lanes : Nat} {r : Option Nat}

-- ---------------------------------------------------------------------------
-- Bytes one by one
-- ---------------------------------------------------------------------------

theorem load_eq (h : i + k ≤ hay.length) : load hay i k = some ((hay.drop i).take k) := if_pos h

theorem getElem?_window (t : Nat) :
    ((hay.drop i).take k)[t]? = if t < k then hay[i + t]? else none := by
  rw [List.getElem?_take, List.getElem?_drop]

theorem window_eq_iff : (hay.drop i).take k = (needle.drop j).take k ↔
    ∀ t < k, hay[i + t]? = needle[j + t]? := by
  constructor
  · intro h t ht
    have := congrArg (·[t]?) h
    simpa only [getElem?_window, if_pos ht] using this
  · intro h
    refine List.ext_getElem? fun t => ?_
    rw [getElem?_window, getElem?_window]
    split
    · exact h t ‹_›
    · rfl

theorem sameBytes_spec (hh : i + k ≤ hay.length) (hn : j + k ≤ needle.length) :
    ∃ b, sameBytes hay i needle j k = some b ∧
      (b = true ↔ ∀ t < k, hay[i + t]? = needle[j + t]?) := by
  refine ⟨_, ?_, beq_iff_eq.trans window_eq_iff⟩
  rw [sameBytes, load_eq hh, load_eq hn]
  rfl

theorem occurs_iff (h : i + needle.length ≤ hay.length) :
    Occurs hay needle i ↔ ∀ t < needle.length, hay[i + t]? = needle[t]? := by
  rw [Occurs, and_iff_right h]
  have := @window_eq_iff hay needle i 0 needle.length
  simpa only [List.drop_zero, List.take_length, Nat.zero_add] using this

theorem occurs_split (hn : 1 ≤ needle.length) (h : i + needle.length ≤ hay.length) :
    Occurs hay needle i ↔ hay[i]? = needle[0]? ∧
      ∀ t < needle.length - 1, hay[i + 1 + t]? = needle[1 + t]? := by
  rw [occurs_iff h]
  constructor
  · intro ha
    refine ⟨ha 0 hn, fun t ht => ?_⟩
    rw [Nat.add_assoc]
    exact ha (1 + t) (by omega)
  · rintro ⟨h0, hrest⟩ t ht
    cases t with
    | zero => exact h0
    | succ t =>
      have := hrest t (by omega)
      rwa [Nat.add_assoc, Nat.add_comm 1 t] at this

theorem occurs_ends (hn : 2 ≤ needle.length) (h : i + needle.length ≤ hay.length) :
    Occurs hay needle i ↔ (hay[i]? = needle[0]? ∧
      hay[i + (needle.length - 1)]? = needle[needle.length - 1]?) ∧
      ∀ t < needle.length - 2, hay[i + 1 + t]? = needle[1 + t]? := by
  rw [occurs_split (by omega) h, and_assoc]
  refine and_congr_right fun _ => ⟨fun ha => ⟨?_, fun t ht => ha t (by omega)⟩, ?_⟩
  · have := ha (needle.length - 2) (by omega)
    rwa [Nat.add_assoc, show 1 + (needle.length - 2) = needle.length - 1 by omega] at this
  · rintro ⟨hl, hrest⟩ t ht
    by_cases he : t = needle.length - 2
    · rw [Nat.add_assoc, show 1 + t = needle.length - 1 by omega]
      exact hl
    · exact hrest t (by omega)

-- ---------------------------------------------------------------------------
-- What every search returns
-- ---------------------------------------------------------------------------

def places (hay needle : List Byte) : Nat := hay.length + 1 - needle.length

theorem naiveFind_first (hay needle : List Byte) :
    ∃ r, naiveFind hay needle = placeOf r ∧
      First (Occurs hay needle) 0 (places hay needle) r := by
  refine ⟨_, rfl, (first_range _ _).congr fun i _ hi => ?_⟩
  rw [places] at hi
  rw [Occurs, beq_iff_eq, and_iff_right (by omega)]

def Finds (hay needle : List Byte) (res : Option Int) : Prop :=
  ∃ r, res = some (placeOf r) ∧ First (Occurs hay needle) 0 (places hay needle) r

theorem Finds.eq_naive {res : Option Int} (h : Finds hay needle res) :
    res = some (naiveFind hay needle) := by
  obtain ⟨r, hr, hf⟩ := h
  obtain ⟨r', hr', hf'⟩ := naiveFind_first hay needle
  rw [hr, hr', hf.unique hf']

-- ---------------------------------------------------------------------------
-- Vectors
-- ---------------------------------------------------------------------------

theorem testBit_eq {a : List Byte} {c : Byte} (ha : a.length = lanes) :
    (movemask (vectorEq a (splat lanes c))).testBit j = true ↔ a[j]? = some c := by
  rw [testBit_movemask, decide_eq_true_eq, vectorEq, splat, List.getD_eq_getElem?_getD,
    List.getElem?_zipWith, List.getElem?_replicate]
  cases hx : a[j]? with
  | none => simp
  | some x =>
    obtain ⟨hj, -⟩ := List.getElem?_eq_some_iff.mp hx
    rw [if_pos (ha ▸ hj)]
    by_cases he : x = c <;> simp [he]

theorem testBit_both {a b : List Byte} {c d : Byte} (ha : a.length = lanes)
    (hb : b.length = lanes) :
    (movemask (vectorAnd (vectorEq a (splat lanes c)) (vectorEq b (splat lanes d)))).testBit j =
      true ↔ a[j]? = some c ∧ b[j]? = some d := by
  rw [testBit_movemask, decide_eq_true_eq, vectorAnd, vectorEq, vectorEq, splat, splat,
    List.getD_eq_getElem?_getD, List.getElem?_zipWith, List.getElem?_zipWith,
    List.getElem?_zipWith, List.getElem?_replicate, List.getElem?_replicate]
  cases hx : a[j]? with
  | none => simp
  | some x =>
    obtain ⟨hj, -⟩ := List.getElem?_eq_some_iff.mp hx
    obtain ⟨y, hy⟩ : ∃ y, b[j]? = some y :=
      ⟨_, List.getElem?_eq_some_iff.mpr ⟨by omega, rfl⟩⟩
    have hlane : j < lanes := ha ▸ hj
    rw [hy, if_pos hlane, if_pos hlane]
    by_cases he : x = c <;> by_cases he' : y = d <;> simp [he, he']

theorem candidates_first {m : Nat} (hl : lanes ≤ 32) (hm : ∀ j, m.testBit j = true → j < lanes)
    (hk : 1 + k ≤ needle.length) (hin : i + lanes + k ≤ hay.length)
    (ho : ∀ j < lanes, Occurs hay needle (i + j) ↔ m.testBit j = true ∧
      ∀ t < k, hay[i + j + 1 + t]? = needle[1 + t]?) :
    ∃ r, candidates hay i needle k m = some (placeOf r) ∧
      First (Occurs hay needle) i (i + lanes) r := by
  have hw : m < 2 ^ 32 := by
    refine Nat.lt_pow_two_of_testBit m fun j hj => ?_
    rw [← Bool.not_eq_true]
    intro hc
    have := hm j hc
    omega
  have hsame (j : Nat) (hj : j < lanes) := @sameBytes_spec hay needle (i + j + 1) 1 k (by omega) hk
  obtain ⟨r, hr, hf⟩ := @scan_first 32 m (fun j => sameBytes hay (i + j + 1) needle 1 k) hw
    fun j hj => (hsame j (hm j hj)).imp fun _ h => h.1
  have hiff (j : Nat) : (m.testBit j = true ∧ sameBytes hay (i + j + 1) needle 1 k = some true) ↔
      j < lanes ∧ Occurs hay needle (i + j) := by
    constructor
    · rintro ⟨hj, hs⟩
      obtain ⟨b, hb, hiff⟩ := hsame j (hm j hj)
      rw [hb, Option.some.injEq] at hs
      exact ⟨hm j hj, (ho j (hm j hj)).mpr ⟨hj, hiff.mp hs⟩⟩
    · rintro ⟨hj, hocc⟩
      obtain ⟨b, hb, hiff⟩ := hsame j hj
      obtain ⟨hbit, hall⟩ := (ho j hj).mp hocc
      exact ⟨hbit, hb.trans (congrArg some (hiff.mpr hall))⟩
  refine ⟨r.map (i + ·), ?_, ?_⟩
  · rw [candidates, hr]
    rfl
  · cases hf with
    | found _ _ hp hno =>
      obtain ⟨hj, hocc⟩ := (hiff _).mp hp
      rw [Option.map_some]
      refine .found (Nat.le_add_right ..) (by omega) hocc fun j hij hj' hc => ?_
      obtain ⟨d, rfl⟩ := Nat.exists_eq_add_of_le hij
      exact hno d (Nat.zero_le _) (by omega) ((hiff d).mpr ⟨by omega, hc⟩)
    | missing hno =>
      refine .missing fun j hij hj hc => ?_
      obtain ⟨d, rfl⟩ := Nat.exists_eq_add_of_le hij
      exact hno d (Nat.zero_le _) (by omega) ((hiff d).mpr ⟨by omega, hc⟩)

theorem block_first {c d : Byte} (hl : lanes ≤ 32) (hpos : 0 < lanes) (hn : 2 ≤ needle.length)
    (hc : needle[0]? = some c) (hd : needle[needle.length - 1]? = some d)
    (hi : i + lanes ≤ places hay needle) :
    ∃ r, block lanes hay i needle (splat lanes c) (splat lanes d) = some (placeOf r) ∧
      First (Occurs hay needle) i (i + lanes) r := by
  rw [places] at hi
  have ha : i + lanes ≤ hay.length := by omega
  have hb : i + needle.length - 1 + lanes ≤ hay.length := by omega
  have hlen (p : Nat) (hp : p + lanes ≤ hay.length) : ((hay.drop p).take lanes).length = lanes := by
    rw [List.length_take, List.length_drop]
    omega
  rw [block, load_eq ha, load_eq hb]
  have hbit (j : Nat) := @testBit_both j lanes _ _ c d (hlen _ ha) (hlen _ hb)
  refine candidates_first hl (fun j hj => ?_) (by omega) (by omega) fun j hj => ?_
  · have h := ((hbit j).mp hj).1
    obtain ⟨hlt, -⟩ := List.getElem?_eq_some_iff.mp h
    rwa [hlen _ ha] at hlt
  · rw [hbit j, getElem?_window, getElem?_window, if_pos hj, if_pos hj, occurs_ends hn (by omega),
      hc, hd, show i + j + (needle.length - 1) = i + needle.length - 1 + j by omega]

theorem placeOf_nonneg : placeOf r ≥ 0 ↔ r ≠ none := by
  cases r with
  | none => simp [placeOf]
  | some i => simp [placeOf]

theorem blockLoop_finds {c d : Byte} {fuel : Nat} (hl : lanes ≤ 32) (hpos : 0 < lanes)
    (hn : 2 ≤ needle.length) (hc : needle[0]? = some c)
    (hd : needle[needle.length - 1]? = some d) (hi : i + lanes ≤ places hay needle)
    (hno : ∀ j, 0 ≤ j → j < i → ¬ Occurs hay needle j) (hf : places hay needle < fuel + i + lanes) :
    Finds hay needle (blockLoop lanes hay needle (splat lanes c) (splat lanes d)
      (places hay needle) fuel i) := by
  induction fuel generalizing i with
  | zero => omega
  | succ fuel ih =>
    obtain ⟨r, hr, hfirst⟩ := block_first hl hpos hn hc hd hi
    rw [blockLoop, hr]
    cases r with
    | some p =>
      have hpos : placeOf (some p) ≥ 0 := placeOf_nonneg.mpr (Option.some_ne_none p)
      simp only [Option.bind_eq_bind, Option.bind_some, if_pos hpos]
      refine ⟨some p, rfl, ?_⟩
      exact (First.append hno (Nat.zero_le _) hfirst).extend hi
    | none =>
      have hall : ∀ j, 0 ≤ j → j < i + lanes → ¬ Occurs hay needle j :=
        (First.append hno (Nat.zero_le _) hfirst).absent
      simp only [Option.bind_eq_bind, Option.bind_some, placeOf_nonneg, ne_eq, not_true_eq_false,
        if_false]
      by_cases hend : i + lanes = places hay needle
      · rw [if_pos hend]
        exact ⟨none, rfl, .missing (hend ▸ hall)⟩
      · rw [if_neg hend]
        -- The next block, or the last one pulled back: no place is passed over.
        split
        · refine ih (by omega) (fun j h0 hj => hall j h0 (by omega)) (by omega)
        · exact ih (by omega) hall (by omega)

-- ---------------------------------------------------------------------------
-- The three searches
-- ---------------------------------------------------------------------------

theorem memchr_first {c : Byte} {k : Nat} (h : i + k ≤ hay.length) :
    ∃ r, memchr hay i c k = some r ∧ First (fun p => hay[p]? = some c) i (i + k) r := by
  refine ⟨_, by rw [memchr, load_eq h]; rfl, ?_⟩
  have hbyte (t : Nat) (ht : t < k) : ((hay.drop i).take k)[t]? = hay[i + t]? := by
    rw [getElem?_window, if_pos ht]
  have hlen : ((hay.drop i).take k).length = k := by
    rw [List.length_take, List.length_drop]
    omega
  cases hf : ((hay.drop i).take k).findIdx? (· == c) with
  | none =>
    refine .missing fun p hp hpk hc => ?_
    obtain ⟨d, rfl⟩ := Nat.exists_eq_add_of_le hp
    rw [← hbyte d (by omega)] at hc
    have := List.findIdx?_eq_none_iff.mp hf c (List.mem_of_getElem? hc)
    simp at this
  | some t =>
    obtain ⟨ht, heq, hno⟩ := List.findIdx?_eq_some_iff_getElem.mp hf
    rw [hlen] at ht
    rw [Option.map_some]
    refine .found (Nat.le_add_right ..) (by omega) ?_ fun p hp hpt hc => ?_
    · rw [← hbyte t ht, List.getElem?_eq_some_iff]
      exact ⟨_, beq_iff_eq.mp heq⟩
    · obtain ⟨d, rfl⟩ := Nat.exists_eq_add_of_le hp
      have hd : d < t := by omega
      rw [← hbyte d (by omega), List.getElem?_eq_some_iff] at hc
      obtain ⟨_, hc⟩ := hc
      refine hno d hd (beq_iff_eq.mpr hc)

theorem scalarLoop_finds {c d : Byte} {fuel : Nat} (hn : 2 ≤ needle.length)
    (hlen : needle.length ≤ hay.length) (hc : needle[0]? = some c)
    (hd : needle[needle.length - 1]? = some d) (hi : i ≤ places hay needle)
    (hno : ∀ j, 0 ≤ j → j < i → ¬ Occurs hay needle j) (hf : places hay needle < fuel + i) :
    Finds hay needle (scalarLoop hay needle (places hay needle) c d fuel i) := by
  have hpl : places hay needle = hay.length + 1 - needle.length := rfl
  induction fuel generalizing i with
  | zero => omega
  | succ fuel ih =>
    obtain ⟨r, hr, hfirst⟩ := @memchr_first hay i c (places hay needle - i) (by omega)
    rw [Nat.add_sub_cancel' hi] at hfirst
    rw [scalarLoop, hr]
    simp only [Option.bind_eq_bind, Option.bind_some]
    cases hfirst with
    | missing hnone =>
      refine ⟨none, rfl, .append hno (Nat.zero_le _) (.missing fun j hij hj ho => ?_)⟩
      exact hnone j hij hj (((occurs_split (by omega) (by omega)).mp ho).1.trans hc)
    | found hip hp hpc hbefore =>
      rename_i p
      have hno' : ∀ j, 0 ≤ j → j < p → ¬ Occurs hay needle j := by
        intro j h0 hj ho
        rcases Nat.lt_or_ge j i with hji | hji
        · exact hno j h0 hji ho
        · exact hbefore j hji hj (((occurs_split (by omega) (by omega)).mp ho).1.trans hc)
      have hmore (hp' : ¬ Occurs hay needle p) :=
        @ih (p + 1) (by omega) (fun j h0 hj => (Nat.lt_succ_iff_lt_or_eq.mp hj).elim (hno' j h0)
          (fun he => he ▸ hp')) (by omega)
      have hocc := @occurs_ends hay needle p hn (by omega)
      obtain ⟨b, hb, hiff⟩ := @sameBytes_spec hay needle (p + 1) 1 (needle.length - 2) (by omega)
        (by omega)
      obtain ⟨e, he⟩ : ∃ e, hay[p + (needle.length - 1)]? = some e :=
        ⟨_, List.getElem?_eq_some_iff.mpr ⟨by omega, rfl⟩⟩
      rw [hpc, hc, he, hd, ← hiff] at hocc
      simp only [he, Option.bind_some, hb]
      by_cases hlast : e = d
      · rw [if_pos hlast]
        cases b with
        | true => exact ⟨some p, rfl, .found (Nat.zero_le _) hp 
          (hocc.mpr ⟨⟨rfl, congrArg some hlast⟩, rfl⟩) hno'⟩
        | false => exact hmore fun h => Bool.false_ne_true (hocc.mp h).2
      · rw [if_neg hlast]
        exact hmore fun h => hlast (Option.some.inj (hocc.mp h).1.2)

section
variable (hn : 2 ≤ needle.length) (hlen : needle.length ≤ hay.length)

include hn hlen

theorem findScalar_finds : Finds hay needle (findScalar hay needle) := by
  have hpl : hay.length - needle.length + 1 = places hay needle := by
    rw [places]
    omega
  obtain ⟨c, hc⟩ : ∃ c, needle[0]? = some c := ⟨_, List.getElem?_eq_some_iff.mpr ⟨by omega, rfl⟩⟩
  obtain ⟨d, hd⟩ : ∃ d, needle[needle.length - 1]? = some d :=
    ⟨_, List.getElem?_eq_some_iff.mpr ⟨by omega, rfl⟩⟩
  rw [findScalar]
  simp only [hpl, hd, hc, Option.bind_eq_bind, Option.bind_some]
  exact scalarLoop_finds hn hlen hc hd (Nat.zero_le _)
    (fun j _ hj => absurd hj (by omega)) (by omega)

/-- Few places in a haystack of a block or more: the block at its front, under a
mask. -/
theorem masked_finds {c : Byte} (hc : needle[0]? = some c) (hspan : places hay needle < 16)
    (h16 : hay.length ≥ 16) :
    Finds hay needle (candidates hay 0 needle (needle.length - 1)
      (movemask (vectorEq ((hay.drop 0).take 16) (splat 16 c)) &&&
        (2 ^ places hay needle - 1))) := by
  have hpl : places hay needle = hay.length + 1 - needle.length := rfl
  have hlen16 : ((hay.drop 0).take 16).length = 16 := by
    rw [List.length_take, List.length_drop]
    omega
  have hbit (j : Nat) : (movemask (vectorEq ((hay.drop 0).take 16) (splat 16 c)) &&&
      (2 ^ places hay needle - 1)).testBit j = true ↔
      j < places hay needle ∧ hay[j]? = some c := by
    rw [Nat.testBit_and, Bool.and_eq_true, Nat.testBit_two_pow_sub_one, decide_eq_true_eq,
      testBit_eq hlen16, getElem?_window, Nat.zero_add, and_comm]
    refine and_congr_right fun hj => ?_
    rw [if_pos (by omega)]
  obtain ⟨r, hr, hf⟩ := @candidates_first hay needle 0 (needle.length - 1) (places hay needle) _
    (by omega) (fun j hj => ((hbit j).mp hj).1) (by omega) (by omega) fun j hj => by
      rw [hbit j, and_iff_right hj, occurs_split (by omega) (by omega), hc, Nat.zero_add]
  rw [Nat.zero_add] at hf
  exact ⟨r, hr, hf⟩

theorem findSse2_finds : Finds hay needle (findSse2 hay needle) := by
  have hpl : hay.length - needle.length + 1 = places hay needle := by
    rw [places]
    omega
  obtain ⟨c, hc⟩ : ∃ c, needle[0]? = some c := ⟨_, List.getElem?_eq_some_iff.mpr ⟨by omega, rfl⟩⟩
  obtain ⟨d, hd⟩ : ∃ d, needle[needle.length - 1]? = some d :=
    ⟨_, List.getElem?_eq_some_iff.mpr ⟨by omega, rfl⟩⟩
  rw [findSse2]
  simp only [hpl, hd, hc, Option.bind_eq_bind, Option.bind_some]
  by_cases hspan : places hay needle ≥ 16
  · rw [if_pos hspan]
    exact blockLoop_finds (by omega) (by omega) hn hc hd (by omega)
      (fun j _ hj => absurd hj (by omega)) (by omega)
  · rw [if_neg hspan]
    by_cases h16 : hay.length ≥ 16
    · rw [if_pos h16, load_eq (by omega)]
      exact masked_finds hn hlen hc (by omega) h16
    · rw [if_neg h16]
      exact findScalar_finds hn hlen

theorem findAvx2_finds : Finds hay needle (findAvx2 hay needle) := by
  have hpl : hay.length - needle.length + 1 = places hay needle := by
    rw [places]
    omega
  obtain ⟨c, hc⟩ : ∃ c, needle[0]? = some c := ⟨_, List.getElem?_eq_some_iff.mpr ⟨by omega, rfl⟩⟩
  obtain ⟨d, hd⟩ : ∃ d, needle[needle.length - 1]? = some d :=
    ⟨_, List.getElem?_eq_some_iff.mpr ⟨by omega, rfl⟩⟩
  rw [findAvx2]
  simp only [hpl, hd, hc, Option.bind_eq_bind, Option.bind_some]
  by_cases hspan : places hay needle < 32
  · rw [if_pos hspan]
    exact findSse2_finds hn hlen
  · rw [if_neg hspan]
    exact blockLoop_finds (by omega) (by omega) hn hc hd (by omega)
      (fun j _ hj => absurd hj (by omega)) (by omega)

theorem find_finds (cpu : Cpu) : Finds hay needle (find cpu hay needle) := by
  cases cpu with
  | avx2 => exact findAvx2_finds hn hlen
  | sse2 => exact findSse2_finds hn hlen
  | other => exact findScalar_finds hn hlen

end

-- ---------------------------------------------------------------------------
-- `ioxd_slice_find_bytes`
-- ---------------------------------------------------------------------------

theorem sliceFindChar_finds {c : Byte} (hc : needle = [c]) :
    Finds hay needle (sliceFindChar hay c) := by
  subst hc
  have hpl : places hay [c] = hay.length := rfl
  have hocc (p : Nat) (hp : p < hay.length) : hay[p]? = some c ↔ Occurs hay [c] p := by
    rw [occurs_split (Nat.le_refl _) hp]
    simp
  rw [sliceFindChar]
  split
  · exact ⟨none, rfl, .missing fun j _ hj => by omega⟩
  · obtain ⟨r, hr, hf⟩ := @memchr_first hay 0 c hay.length (by omega)
    rw [Nat.zero_add] at hf
    rw [hr]
    exact ⟨r, rfl, hpl ▸ hf.congr fun p _ hp => hocc p hp⟩

theorem sliceFindBytes_finds (cpu : Cpu) (hay needle : List Byte) :
    Finds hay needle (sliceFindBytes cpu hay needle) := by
  rw [sliceFindBytes]
  by_cases h0 : needle.length = 0
  · have hnil := List.length_eq_zero_iff.mp h0
    rw [if_pos h0, hnil]
    exact ⟨some 0, rfl, .found (Nat.le_refl _) (Nat.succ_pos _) ⟨by simp, by simp⟩
      fun j _ hj => absurd hj (Nat.not_lt_zero j)⟩
  rw [if_neg h0]
  by_cases hlong : needle.length > hay.length
  · rw [if_pos hlong]
    exact ⟨none, rfl, .missing fun j _ hj => by
      rw [places] at hj
      omega⟩
  rw [if_neg hlong]
  by_cases h1 : needle.length = 1
  · obtain ⟨c, rfl⟩ := List.length_eq_one_iff.mp h1
    rw [if_pos h1]
    exact sliceFindChar_finds rfl
  · rw [if_neg h1]
    exact find_finds (by omega) (by omega) cpu

/-- Where the needle is first, or `-1`. -/
def IsFirst (hay needle : List Byte) (res : Int) : Prop :=
  (∃ i : Nat, res = i ∧ Occurs hay needle i ∧ ∀ j < i, ¬ Occurs hay needle j) ∨
    res = -1 ∧ ∀ i, ¬ Occurs hay needle i

theorem naiveFind_isFirst (hay needle : List Byte) : IsFirst hay needle (naiveFind hay needle) := by
  obtain ⟨r, hr, hf⟩ := naiveFind_first hay needle
  rw [hr]
  cases hf with
  | found _ _ hp hno => exact .inl ⟨_, rfl, hp, fun j hj => hno j (Nat.zero_le _) hj⟩
  | missing hno =>
    refine .inr ⟨rfl, fun i hi => hno i (Nat.zero_le _) ?_ hi⟩
    have := hi.1
    rw [places]
    omega

/-- All searches return the first place or `-1`, without a read outside and
without a loop that does not end. -/
theorem searches_agree (hay needle : List Byte) :
    IsFirst hay needle (naiveFind hay needle) ∧
      (2 ≤ needle.length → needle.length ≤ hay.length →
        findScalar hay needle = some (naiveFind hay needle) ∧
        findSse2 hay needle = some (naiveFind hay needle) ∧
        findAvx2 hay needle = some (naiveFind hay needle)) ∧
      ∀ cpu, sliceFindBytes cpu hay needle = some (naiveFind hay needle) := by
  refine ⟨naiveFind_isFirst hay needle, fun hn hlen => ⟨?_, ?_, ?_⟩, fun cpu => ?_⟩
  · exact (findScalar_finds hn hlen).eq_naive
  · exact (findSse2_finds hn hlen).eq_naive
  · exact (findAvx2_finds hn hlen).eq_naive
  · exact (sliceFindBytes_finds cpu hay needle).eq_naive

end Ioxd.Http
