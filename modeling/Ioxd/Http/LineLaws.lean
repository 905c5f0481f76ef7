import Ioxd.Http.Body
import Ioxd.Http.TextLaws
import Ioxd.Lib.Chunked

/-!
# The lines of a chunked body

`findCrlf` finds the first line, and `sizeLine` accepts a size line exactly
when it is a hex number that fits and an extension.
-/

namespace Ioxd.Http

open Numeral
open Chunked (Extension)
open Ioxd.Pipe (Byte)

-- ---------------------------------------------------------------------------
-- The end of a line
-- ---------------------------------------------------------------------------

theorem crlf_infix_cons {c : Byte} {l : List Byte} :
    crlf <:+: c :: l ↔ (c = cr ∧ l.head? = some lf) ∨ crlf <:+: l := by
  rw [List.infix_cons_iff]
  refine or_congr_left ?_
  cases l with
  | nil => simp
  | cons d l =>
    simp only [List.cons_prefix_cons, List.nil_prefix, and_true, List.head?_cons, Option.some.injEq]
    exact ⟨fun h => ⟨h.1.symm, h.2.symm⟩, fun h => ⟨h.1.symm, h.2.symm⟩⟩

theorem findCrlf_line {l : List Byte} (hl : ¬ crlf <:+: l) (rest : List Byte) :
    findCrlf (l ++ crlf ++ rest) = some l.length := by
  induction l with
  | nil => simp [findCrlf]
  | cons c l ih =>
    rw [crlf_infix_cons, not_or] at hl
    have hr := ih hl.2
    cases l with
    | nil =>
      have hne : ¬ (c = cr ∧ cr = lf) := fun hx => absurd hx.2 (by decide)
      simp only [List.nil_append, List.cons_append] at hr ⊢
      rw [findCrlf, if_neg hne, hr]
      rfl
    | cons d l =>
      have hne : ¬ (c = cr ∧ d = lf) := by simpa using hl.1
      simp only [List.cons_append] at hr ⊢
      rw [findCrlf, if_neg hne, hr]
      simp

theorem findCrlf_some {s : List Byte} {n : Nat} (h : findCrlf s = some n) :
    ∃ l rest, s = l ++ crlf ++ rest ∧ l.length = n ∧ ¬ crlf <:+: l := by
  fun_induction findCrlf s generalizing n with
  | case1 c d rest hc =>
    obtain ⟨rfl, rfl⟩ := hc
    exact ⟨[], rest, rfl, by simpa using h, by simp⟩
  | case2 c d rest hc ih =>
    obtain ⟨m, hm, rfl⟩ := Option.map_eq_some_iff.mp h
    obtain ⟨l, rest', hs, rfl, hl⟩ := ih hm
    refine ⟨c :: l, rest', by rw [hs]; rfl, rfl, ?_⟩
    rw [crlf_infix_cons, not_or]
    refine ⟨fun hx => hc ⟨hx.1, ?_⟩, hl⟩
    cases l with
    | nil => simp at hx
    | cons e l =>
      have : d = e := (List.cons.inj hs).1
      rw [this]
      simpa using hx.2
  | case3 => cases h

theorem findCrlf_past {s : List Byte} {n e : Nat} (h : findCrlf s = some n)
    (he : findCrlf (s.take e) = none) : e < n + 2 := by
  obtain ⟨l, rest, rfl, rfl, hl⟩ := findCrlf_some h
  by_contra hle
  have ht : (l ++ crlf ++ rest).take e = l ++ crlf ++ rest.take (e - (l.length + 2)) := by
    rw [List.take_append, List.take_of_length_le (by simp; omega)]
    simp
  rw [ht, findCrlf_line hl] at he
  cases he

-- ---------------------------------------------------------------------------
-- The size line
-- ---------------------------------------------------------------------------

set_option maxRecDepth 4096 in
theorem hexval_eq (c : Byte) : hexval c = hex c :=
  forall_byte (P := fun c => hexval c = hex c) (by decide +kernel) c

theorem hex_lt {c : Byte} {d : Nat} (h : hex c = some d) : d < 16 := by
  unfold hex at h
  grind

/-- The digits a text starts with. -/
def digits (cs : List Byte) : List Byte := cs.takeWhile fun c => (hex c).isSome

theorem readSize_eq (cs : List Byte) {v : Nat} (i : Nat) (hv : v ≤ sizeMax) : readSize cs v i =
    if value hex 16 (digits cs) v ≤ sizeMax then
      some (value hex 16 (digits cs) v, i + (digits cs).length,
        cs.dropWhile fun c => (hex c).isSome)
    else none := by
  induction cs generalizing v i with
  | nil => simp [readSize, digits, hv]
  | cons c cs ih =>
    rw [readSize, hexval_eq]
    cases hd : hex c with
    | none => simp [digits, hd, hv]
    | some d =>
      have hlt := hex_lt hd
      have hor : v <<< 4 ||| d = v * 16 + d := by
        rw [← Nat.shiftLeft_add_eq_or_of_lt (by simpa using hlt), Nat.shiftLeft_eq]
      have hdig : digits (c :: cs) = c :: digits cs := by simp [digits, hd]
      have hval : value hex 16 (digits (c :: cs)) v = value hex 16 (digits cs) (v * 16 + d) := by
        rw [hdig, value_cons, hd]
        rfl
      have hmax : v > sizeMax >>> 4 ↔ v * 16 + d > sizeMax := by
        have : sizeMax >>> 4 = 2 ^ 60 - 1 := by decide
        have : sizeMax = 2 ^ 64 - 1 := rfl
        omega
      dsimp only
      rw [hval]
      by_cases hov : v > sizeMax >>> 4
      · have hle := le_value hex 16 (by decide) (digits cs) (v * 16 + d)
        have := hmax.mp hov
        rw [if_pos hov, if_neg (by omega)]
      · have hfit : v * 16 + d ≤ sizeMax := by
          rw [hmax] at hov
          omega
        rw [if_neg hov, hor, ih (i + 1) hfit, hdig]
        simp [hd, Nat.add_assoc, Nat.add_comm 1]

def Suffix (s : List Byte) : Prop :=
  s = [] ∨ ∃ blanks text, s = blanks ++ 59 :: text ∧ (∀ c ∈ blanks, c = 32 ∨ c = 9) ∧ text ≠ []

theorem isBlank_iff (c : Byte) : isBlank c = true ↔ c = 32 ∨ c = 9 := by
  simp [isBlank]

theorem suffix_head {s : List Byte} (h : Suffix s) : ∀ c ∈ s.head?, (hex c).isSome = false := by
  rintro c hc
  rcases h with rfl | ⟨blanks, text, rfl, hb, -⟩
  · simp at hc
  · cases blanks with
    | nil =>
      obtain rfl : 59 = c := by simpa using hc
      decide
    | cons b bs =>
      obtain rfl : b = c := by simpa using hc
      rcases hb b (by simp) with rfl | rfl <;> decide

theorem crlf_infix_append {a b : List Byte} (ha : cr ∉ a) (h : crlf <:+: a ++ b) : crlf <:+: b := by
  induction a with
  | nil => exact h
  | cons c a ih =>
    rw [List.cons_append, crlf_infix_cons] at h
    rcases h with ⟨rfl, -⟩ | h
    · exact absurd List.mem_cons_self ha
    · exact ih (fun hm => ha (List.mem_cons_of_mem _ hm)) h

theorem extension_of_suffix {size ext : List Byte} (h : Suffix ext) (hno : ¬ crlf <:+: size ++ ext) :
    Extension ext := by
  rcases h with rfl | ⟨blanks, text, rfl, hb, ht⟩
  · exact .inl rfl
  · refine .inr ⟨blanks, text, rfl, hb, ht, fun hi => hno (hi.trans ?_)⟩
    exact ⟨size ++ blanks ++ [59], [], by simp⟩

theorem suffix_of_extension {ext : List Byte} (h : Extension ext) : Suffix ext := by
  rcases h with rfl | ⟨blanks, text, rfl, hb, ht, -⟩
  · exact .inl rfl
  · exact .inr ⟨blanks, text, rfl, hb, ht⟩

theorem sizeLine_unbroken {size ext : List Byte} (hs : Hex size n) (he : Extension ext) :
    ¬ crlf <:+: size ++ ext := by
  intro hi
  have hcr : cr ∉ size := fun hm => absurd (hs.2.1 cr hm) (by decide)
  replace hi := crlf_infix_append hcr hi
  rcases he with rfl | ⟨blanks, text, rfl, hb, -, hno⟩
  · simp at hi
  · have hcr' : cr ∉ blanks ++ [59] := by
      intro hm
      rcases List.mem_append.mp hm with hm | hm
      · rcases hb cr hm with h | h <;> exact absurd h (by decide)
      · exact absurd (List.mem_singleton.mp hm) (by decide)
    refine hno (crlf_infix_append hcr' ?_)
    simpa using hi

theorem sizeLine_eq_some {line : List Byte} {n : Nat} : sizeLine line = some n ↔
    ∃ size ext, line = size ++ ext ∧ Hex size n ∧ n ≤ sizeMax ∧ Suffix ext := by
  unfold sizeLine
  rw [readSize_eq _ _ (Nat.zero_le _)]
  constructor
  · intro h
    by_cases hmax : value hex 16 (digits line) 0 ≤ sizeMax
    · rw [if_pos hmax] at h
      dsimp only at h
      split at h
      · cases h
      rename_i hn
      rw [not_or, not_not] at hn
      refine ⟨digits line, line.dropWhile fun c => (hex c).isSome,
        (List.takeWhile_append_dropWhile).symm, ⟨?_, ?_, Option.some.inj h⟩,
        Option.some.inj h ▸ hmax, ?_⟩
      · rintro h0
        exact hn.1 (by simp [h0])
      · intro c hc
        exact List.mem_takeWhile_imp (p := fun c => (hex c).isSome) hc
      · generalize line.dropWhile (fun c => (hex c).isSome) = rest at hn
        have hsplit : rest.takeWhile isBlank ++ rest.dropWhile isBlank = rest :=
          List.takeWhile_append_dropWhile
        rcases hn.2 with ⟨ht, hb⟩ | ⟨hlen, hh⟩
        · exact .inl (by rw [← hsplit, ht, hb]; rfl)
        · cases ht : rest.dropWhile isBlank with
          | nil => simp [ht] at hh
          | cons c text =>
            simp only [ht, List.head?_cons, Option.some.injEq, List.length_cons] at hh hlen
            rw [ht, hh] at hsplit
            refine .inr ⟨rest.takeWhile isBlank, text, hsplit.symm, ?_, ?_⟩
            · intro b hb
              exact (isBlank_iff b).mp (List.mem_takeWhile_imp hb)
            · rintro rfl
              simp at hlen
    · rw [if_neg hmax] at h
      cases h
  · rintro ⟨size, ext, rfl, ⟨hne, hdig, hval⟩, hmax, hext⟩
    have hstop : ext.takeWhile (fun c => (hex c).isSome) = [] ∧
        ext.dropWhile (fun c => (hex c).isSome) = ext := by
      have hh := suffix_head hext
      cases ext with
      | nil => exact ⟨rfl, rfl⟩
      | cons c ext =>
        have hc := hh c (by simp)
        exact ⟨by simp [hc], by simp [hc]⟩
    have hd : digits (size ++ ext) = size := by
      rw [digits, List.takeWhile_append_of_pos hdig, hstop.1, List.append_nil]
    rw [hd, hval, if_pos hmax, List.dropWhile_append_of_pos hdig, hstop.2]
    dsimp only
    have hlen : ¬ 0 + size.length = 0 := by simpa using hne
    rw [if_neg]
    rw [not_or, not_not]
    refine ⟨hlen, ?_⟩
    rcases hext with rfl | ⟨blanks, text, rfl, hb, ht⟩
    · exact .inl ⟨rfl, rfl⟩
    · have hb' : ∀ c ∈ blanks, isBlank c = true := fun c hc => (isBlank_iff c).mpr (hb c hc)
      have h59 : isBlank 59 = false := by decide
      rw [List.dropWhile_append_of_pos hb', List.dropWhile_cons, if_neg (by simp [h59])]
      refine .inr ⟨?_, rfl⟩
      have := List.length_pos_iff.mpr ht
      simp only [List.length_cons]
      omega

end Ioxd.Http
