import Ioxd.Lib.JsonText
import Mathlib.Data.List.Forall2

/-!
# Reading JSON back

`Reads s t` says that the parser takes `s` off the front of whatever follows it
and finds `t`. One rule for each kind of value.
-/

namespace JsonText

variable {s rest : Bytes} {t : Datum Decimal} {fuel : Nat}

def Stops (rest : Bytes) : Prop := ∀ c ∈ rest.head?, c = 44 ∨ c = 93 ∨ c = 125

structure Reads (s : Bytes) (t : Datum Decimal) : Prop where
  first : ∃ c s', s = c :: s' ∧ isBlank c = false ∧ c ≠ 93
  value : ∀ {fuel rest}, 2 * s.length ≤ fuel → Stops rest → value fuel (s ++ rest) = some (t, rest)

theorem skip_cons {c : UInt8} (h : isBlank c = false) (s : Bytes) : skip (c :: s) = c :: s := by
  simp [skip, h]

theorem Stops.nil : Stops [] := by simp [Stops]

theorem Stops.comma (s : Bytes) : Stops (44 :: s) := by simp [Stops]

theorem Stops.bracket (s : Bytes) : Stops (93 :: s) := by simp [Stops]

theorem Stops.brace (s : Bytes) : Stops (125 :: s) := by simp [Stops]

theorem Reads.parse (h : Reads s t) : parse s = some t := by
  have hv := h.value (Nat.le_succ (2 * s.length)) .nil
  rw [List.append_nil] at hv
  unfold JsonText.parse
  rw [hv]
  rfl

-- ---------------------------------------------------------------------------
-- Values with nothing inside
-- ---------------------------------------------------------------------------

theorem value_succ (fuel : Nat) (c : UInt8) (r : Bytes) (hc : isBlank c = false) (h : 0 < fuel) :
    ∃ f, fuel = f + 1 ∧ value fuel (c :: r) =
      (if c = 34 then (chars r).map fun x => (.str x.1, x.2)
      else if c = 91 then
        if (skip r).head? = some 93 then some (.arr [], (skip r).tail)
        else (items f r).map fun x => (.arr x.1, x.2)
      else if c = 123 then
        if (skip r).head? = some 125 then some (.obj [], (skip r).tail)
        else (pairs f r).map fun x => (.obj x.1, x.2)
      else if c = 110 then literal [110, 117, 108, 108] .null (c :: r)
      else if c = 116 then literal [116, 114, 117, 101] (.bool true) (c :: r)
      else if c = 102 then literal [102, 97, 108, 115, 101] (.bool false) (c :: r)
      else (number (c :: r)).map fun x => (.num x.1, x.2)) := by
  obtain ⟨f, rfl⟩ := Nat.exists_eq_succ_of_ne_zero (Nat.pos_iff_ne_zero.mp h)
  refine ⟨f, rfl, ?_⟩
  rw [value, skip_cons hc]

theorem Reads.null : Reads [110, 117, 108, 108] .null := by
  refine ⟨⟨110, _, rfl, by decide, by decide⟩, fun {fuel rest} hf _ => ?_⟩
  obtain ⟨f, -, he⟩ := value_succ fuel 110 ([117, 108, 108] ++ rest)
    (by decide) (by simp at hf; omega)
  exact he

theorem Reads.isTrue : Reads [116, 114, 117, 101] (.bool true) := by
  refine ⟨⟨116, _, rfl, by decide, by decide⟩, fun {fuel rest} hf _ => ?_⟩
  obtain ⟨f, -, he⟩ := value_succ fuel 116 ([114, 117, 101] ++ rest)
    (by decide) (by simp at hf; omega)
  exact he

theorem Reads.isFalse : Reads [102, 97, 108, 115, 101] (.bool false) := by
  refine ⟨⟨102, _, rfl, by decide, by decide⟩, fun {fuel rest} hf _ => ?_⟩
  obtain ⟨f, -, he⟩ := value_succ fuel 102 ([97, 108, 115, 101] ++ rest)
    (by decide) (by simp at hf; omega)
  exact he

theorem Reads.string {v : Bytes} (h : ∀ r, chars (s ++ 34 :: r) = some (v, r)) :
    Reads (34 :: s ++ [34]) (.str v) := by
  refine ⟨⟨34, _, rfl, by decide, by decide⟩, fun {fuel rest} hf _ => ?_⟩
  obtain ⟨f, -, he⟩ := value_succ fuel 34 (s ++ 34 :: rest)
    (by decide) (by simp at hf; omega)
  have : 34 :: s ++ [34] ++ rest = 34 :: (s ++ 34 :: rest) := by simp
  rw [this, he, if_pos rfl, h]
  rfl

-- ---------------------------------------------------------------------------
-- Numbers
-- ---------------------------------------------------------------------------

theorem takeWhile_digits (h : ∀ d ∈ s, isDigit d = true) (hr : Stops rest) :
    (s ++ rest).takeWhile isDigit = s := by
  rw [List.takeWhile_append_of_pos h]
  cases rest with
  | nil => simp
  | cons c rest =>
    have hc : isDigit c = false := by
      rcases hr c rfl with rfl | rfl | rfl <;> decide
    simp [hc]

theorem Whole.digits (h : Whole s) : (∀ d ∈ s, isDigit d = true) ∧ s ≠ [] ∧
    ¬ (s.length > 1 ∧ s.head? = some 48) := by
  cases h with
  | zero => exact ⟨by simp; decide, by simp, by simp⟩
  | @more s c h1 h2 hd =>
    refine ⟨fun d hx => ?_, by simp, fun hx => ?_⟩
    · rcases List.mem_cons.mp hx with rfl | hx
      · simp [isDigit, h2]
        exact UInt8.le_trans (by decide) h1
      · exact hd d hx
    · obtain rfl : c = 48 := by simpa using hx.2
      exact absurd h1 (by decide)

theorem number_whole {neg : Bool} (h : Whole s) (hr : Stops rest) :
    number ((if neg then [45] else []) ++ s ++ rest) =
      some (⟨if neg then -(digitsValue s : Int) else digitsValue s, 0⟩, rest) := by
  obtain ⟨hd, hne, hz⟩ := h.digits
  have hhead : (s ++ rest).head? ≠ some 45 := by
    cases s with
    | nil => exact absurd rfl hne
    | cons c s =>
      intro hx
      obtain rfl : c = 45 := by simpa using hx
      exact absurd (hd 45 (by simp)) (by decide)
  have hfrac : fraction rest = some ([], rest) := by
    cases rest with
    | nil => rfl
    | cons c rest =>
      have : c ≠ 46 := by rcases hr c rfl with rfl | rfl | rfl <;> decide
      rw [fraction, if_neg this]
  have hexp : exponent rest = some (0, rest) := by
    cases rest with
    | nil => rfl
    | cons c rest =>
      have : ¬ (c = 101 ∨ c = 69) := by rcases hr c rfl with rfl | rfl | rfl <;> decide
      rw [exponent, if_neg this]
  have hrest {t : Bytes} {m : Int → Int} (ht : t = s ++ rest) :
      (if t.takeWhile isDigit = [] ∨ (t.takeWhile isDigit).length > 1 ∧
          (t.takeWhile isDigit).head? = some 48 then none
        else (fraction (t.drop (t.takeWhile isDigit).length)).bind fun x =>
          (exponent x.2).map fun y =>
            ((⟨m (digitsValue (t.takeWhile isDigit ++ x.1)), y.1 - x.1.length⟩ : Decimal), y.2)) =
      some (⟨m (digitsValue s), 0⟩, rest) := by
    rw [ht, takeWhile_digits hd hr, if_neg (by rw [not_or]; exact ⟨hne, hz⟩), List.drop_left, hfrac]
    simp [hexp]
  cases neg with
  | true => exact hrest (m := fun x => -x) rfl
  | false =>
    unfold number
    simp only [Bool.false_eq_true, if_false, List.nil_append, if_neg hhead]
    exact hrest (m := fun x => x) rfl

theorem Reads.number {neg : Bool} (h : Whole s) :
    Reads ((if neg then [45] else []) ++ s)
      (.num ⟨if neg then -(digitsValue s : Int) else digitsValue s, 0⟩) := by
  -- the first byte is a sign or a digit, which begins no other value
  have hfirst : ∃ c s', (if neg then [45] else []) ++ s = c :: s' ∧ (c = 45 ∨ isDigit c = true) := by
    obtain ⟨hd, hne, -⟩ := h.digits
    cases neg with
    | true => exact ⟨45, s, rfl, .inl rfl⟩
    | false =>
      cases s with
      | nil => exact absurd rfl hne
      | cons c s => exact ⟨c, s, rfl, .inr (hd c (by simp))⟩
  obtain ⟨c, s', hs, hc⟩ := hfirst
  have hother : ∀ x : UInt8, (x = 45 ∨ isDigit x = true) → isBlank x = false ∧ x ≠ 93 ∧
      x ≠ 34 ∧ x ≠ 91 ∧ x ≠ 123 ∧ x ≠ 110 ∧ x ≠ 116 ∧ x ≠ 102 := by
    rintro x (rfl | hx)
    · decide
    · simp only [isDigit, Bool.and_eq_true, decide_eq_true_eq] at hx
      refine ⟨?_, ?_, ?_, ?_, ?_, ?_, ?_, ?_⟩
      · by_contra hb
        simp only [isBlank, Bool.not_eq_false, Bool.or_eq_true, beq_iff_eq] at hb
        rcases hb with ((rfl | rfl) | rfl) | rfl <;> exact absurd hx.1 (by decide)
      all_goals
        rintro rfl
        revert hx
        decide
  obtain ⟨h0, h1, h2, h3, h4, h5, h6, h7⟩ := hother c hc
  refine ⟨⟨c, s', hs, h0, h1⟩, fun {fuel rest} hf hr => ?_⟩
  have hn := @number_whole _ _ neg h hr
  rw [hs] at hf hn ⊢
  obtain ⟨f, -, he⟩ := value_succ fuel c (s' ++ rest) h0 (by simp at hf; omega)
  rw [List.cons_append] at hn ⊢
  rw [he, if_neg h2, if_neg h3, if_neg h4, if_neg h5, if_neg h6, if_neg h7, hn]
  rfl

-- ---------------------------------------------------------------------------
-- Arrays and objects
-- ---------------------------------------------------------------------------

theorem items_joined {ss : List Bytes} {ts : List (Datum Decimal)} (h : List.Forall₂ Reads ss ts)
    (hne : ss ≠ []) (hf : 2 * (joined ss).length + 1 ≤ fuel) :
    items fuel (joined ss ++ 93 :: rest) = some (ts, rest) := by
  induction h generalizing fuel with
  | nil => exact absurd rfl hne
  | @cons x t xs ts hx hxs ih =>
    obtain ⟨f, rfl⟩ := Nat.exists_eq_succ_of_ne_zero (n := fuel) (by omega)
    rw [items]
    cases hxs with
    | nil =>
      rw [show joined [x] = x from rfl] at hf ⊢
      rw [hx.value (by omega) (.bracket rest)]
      rfl
    | cons hy hys =>
      rename_i y u ys us
      rw [show joined (x :: y :: ys) = x ++ 44 :: joined (y :: ys) from rfl] at hf ⊢
      rw [List.length_append, List.length_cons] at hf
      have hrest := @ih f (by simp) (by omega)
      rw [List.append_assoc, List.cons_append, hx.value (by omega) (.comma _)]
      simp only [Option.bind_some]
      rw [skip_cons (by decide)]
      simp [hrest]

theorem Reads.arr {ss : List Bytes} {ts : List (Datum Decimal)} (h : List.Forall₂ Reads ss ts) :
    Reads (91 :: joined ss ++ [93]) (.arr ts) := by
  refine ⟨⟨91, _, rfl, by decide, by decide⟩, fun {fuel rest} hf _ => ?_⟩
  have hcons : 91 :: joined ss ++ [93] ++ rest = 91 :: (joined ss ++ 93 :: rest) := by simp
  simp only [List.length_append, List.length_cons, List.length_nil] at hf
  obtain ⟨f, rfl, he⟩ := value_succ fuel 91 (joined ss ++ 93 :: rest)
    (by decide) (by omega)
  rw [hcons, he, if_neg (by decide), if_pos rfl]
  cases h with
  | nil =>
    rw [show joined [] = [] from rfl, List.nil_append, skip_cons (by decide)]
    rfl
  | @cons x t xs ts hx hxs =>
    obtain ⟨c, x', hc, hb, h93⟩ := hx.first
    have hskip : ∃ r, joined (x :: xs) ++ 93 :: rest = c :: r := by
      rw [hc]
      cases xs with
      | nil => exact ⟨_, rfl⟩
      | cons y ys => exact ⟨_, rfl⟩
    obtain ⟨r, hr⟩ := hskip
    rw [if_neg (by rw [hr, skip_cons hb]; simpa using h93),
      items_joined (.cons hx hxs) (by simp) (by omega)]
    rfl

def NameReads (q name : Bytes) : Prop :=
  ∃ s, q = 34 :: s ++ [34] ∧ ∀ r, chars (s ++ 34 :: r) = some (name, r)

def memberText (m : Bytes × Bytes) : Bytes := m.1 ++ 58 :: m.2

def MemberReads (m : Bytes × Bytes) (t : Bytes × Datum Decimal) : Prop :=
  NameReads m.1 t.1 ∧ Reads m.2 t.2

theorem pairs_joined {ms : List (Bytes × Bytes)} {ts : List (Bytes × Datum Decimal)}
    (h : List.Forall₂ MemberReads ms ts) (hne : ms ≠ [])
    (hf : 2 * (joined (ms.map memberText)).length + 1 ≤ fuel) :
    pairs fuel (joined (ms.map memberText) ++ 125 :: rest) = some (ts, rest) := by
  induction h generalizing fuel with
  | nil => exact absurd rfl hne
  | @cons m t ms ts hm hms ih =>
    obtain ⟨f, rfl⟩ := Nat.exists_eq_succ_of_ne_zero (n := fuel) (by omega)
    obtain ⟨⟨name, hq, hname⟩, hv⟩ := hm
    have hmem (r : Bytes) : memberText m ++ r = 34 :: (name ++ 34 :: 58 :: (m.2 ++ r)) := by
      simp [memberText, hq]
    have hlen : m.2.length < (memberText m).length := by
      simp [memberText]
      omega
    -- the name, and then the value in front of what follows
    have hturn {c : UInt8} {r : Bytes} (hfv : 2 * m.2.length ≤ f) (hr : Stops (c :: r))
        (hc : skip (c :: r) = c :: r) : pairs (f + 1) (memberText m ++ c :: r) =
          if c = 44 then (pairs f r).map fun y => ((t.1, t.2) :: y.1, y.2)
          else if c = 125 then some ([(t.1, t.2)], r)
          else none := by
      rw [pairs, hmem, skip_cons (by decide)]
      simp only [ne_eq, not_true, if_false]
      rw [hname]
      simp only [Option.bind_some]
      rw [skip_cons (by decide)]
      simp only [not_true, if_false]
      rw [hv.value hfv hr]
      simp only [Option.bind_some]
      rw [hc]
    cases hms with
    | nil =>
      rw [show joined (List.map memberText [m]) = memberText m from rfl] at hf ⊢
      rw [hturn (by omega) (.brace rest) (skip_cons (by decide) _)]
      rfl
    | cons hy hys =>
      rename_i y u ys us
      rw [show joined (List.map memberText (m :: y :: ys)) =
        memberText m ++ 44 :: joined (List.map memberText (y :: ys)) from rfl] at hf ⊢
      rw [List.length_append, List.length_cons] at hf
      have hrest := @ih f (by simp) (by omega)
      rw [List.append_assoc, List.cons_append,
        hturn (by omega) (.comma _) (skip_cons (by decide) _), if_pos rfl, hrest]
      rfl

theorem Reads.obj {ms : List (Bytes × Bytes)} {ts : List (Bytes × Datum Decimal)}
    (h : List.Forall₂ MemberReads ms ts) :
    Reads (123 :: joined (ms.map memberText) ++ [125]) (.obj ts) := by
  refine ⟨⟨123, _, rfl, by decide, by decide⟩, fun {fuel rest} hf _ => ?_⟩
  have hcons : 123 :: joined (ms.map memberText) ++ [125] ++ rest =
      123 :: (joined (ms.map memberText) ++ 125 :: rest) := by simp
  simp only [List.length_append, List.length_cons, List.length_nil] at hf
  obtain ⟨f, rfl, he⟩ := value_succ fuel 123 (joined (ms.map memberText) ++ 125 :: rest) (by decide) (by omega)
  rw [hcons, he, if_neg (by decide), if_neg (by decide), if_pos rfl]
  cases h with
  | nil =>
    rw [show joined (List.map memberText []) = [] from rfl, List.nil_append, skip_cons (by decide)]
    rfl
  | @cons m t ms ts hm hms =>
    have hskip : ∃ r, joined ((m :: ms).map memberText) ++ 125 :: rest = 34 :: r := by
      obtain ⟨name, v⟩ := m
      obtain ⟨⟨s, rfl, -⟩, -⟩ := hm
      cases ms with
      | nil => exact ⟨_, rfl⟩
      | cons y ys => exact ⟨_, rfl⟩
    obtain ⟨r, hr⟩ := hskip
    rw [if_neg (by rw [hr, skip_cons (by decide)]; simp),
      pairs_joined (.cons hm hms) (by simp) (by omega)]
    rfl

end JsonText
