import Ioxd.Http.PhrLaws
import Ioxd.Http.Boundary

/-!
# What the request parser accepts

The grammar of a request head, and that the parser takes exactly the heads. A
look for the empty line goes before a parse of bytes some of which have been
seen; it is a look only: it turns no head away, whatever the cuts were.
-/

namespace Ioxd.Http

open Growing
open Ioxd.Pipe (Byte)

namespace Phr

inductive LineEnd : List Byte → Prop
  | lf : LineEnd [10]
  | crlf : LineEnd [13, 10]

def Token (w : List Byte) : Prop := w ≠ [] ∧ ∀ c ∈ w, isTokenChar c = true

def Spaces (w : List Byte) : Prop := w ≠ [] ∧ ∀ c ∈ w, c = 32

def Target (w : List Byte) : Prop := w ≠ [] ∧ ∀ c ∈ w, 32 < c ∧ c ≠ 127

def Text (w : List Byte) : Prop := ∀ c ∈ w, (32 ≤ c ∨ c = 9) ∧ c ≠ 127

def StartsBlank (w : List Byte) : Prop := ∃ c t, w = c :: t ∧ isPad c = true

/-- A line behind this many others. One that starts with a blank goes on with
the value before it. -/
inductive HeaderLine (numHeaders : Nat) : List Byte → Header → Prop
  | field {name blanks text eol : List Byte} : Token name → (∀ c ∈ blanks, isPad c = true) →
      Text text → ¬ StartsBlank text → LineEnd eol →
      HeaderLine numHeaders (name ++ 58 :: (blanks ++ (text ++ eol)))
        ⟨some name, text.rdropWhile isPad⟩
  | folded {text eol : List Byte} : numHeaders ≠ 0 → StartsBlank text → Text text → LineEnd eol →
      HeaderLine numHeaders (text ++ eol) ⟨none, text.rdropWhile isPad⟩

inductive HeaderLines : Nat → Nat → List Byte → List Header → Prop
  | nil {num room : Nat} {eol : List Byte} : LineEnd eol → HeaderLines num room eol []
  | cons {num room : Nat} {line rest : List Byte} {header : Header} {headers : List Header} :
      HeaderLine num line header → HeaderLines (num + 1) room rest headers →
      HeaderLines num (room + 1) (line ++ rest) (header :: headers)

/-- A request head with at most `max` header lines, and what it says. -/
inductive RequestHead (max : Nat) : List Byte → ParsedHead → Prop
  | mk {lead method sp target sp' eol rest : List Byte} {digit : Byte} {headers : List Header} :
      lead = [] ∨ LineEnd lead → Token method → Spaces sp → Target target → Spaces sp' →
      48 ≤ digit ∧ digit ≤ 57 → LineEnd eol → HeaderLines 0 max rest headers →
      RequestHead max
        (lead ++ (method ++ (sp ++ (target ++ (sp' ++ (str "HTTP/1." ++ digit :: (eol ++ rest)))))))
        ⟨method, target, digit.toNat - 48, headers⟩

variable {sse : Bool} {s r w : List Byte} {num room max : Nat}

-- ---------------------------------------------------------------------------
-- The pieces of a line
-- ---------------------------------------------------------------------------

theorem isTokenChar_not {c : Byte} (h : isTokenChar c = true) :
    isPad c = false ∧ c ≠ 13 ∧ c ≠ 10 ∧ c ≠ 32 ∧ c ≠ 58 := by
  have := forall_byte (P := fun c => (!isTokenChar c ||
    (!isPad c && c != 13 && c != 10 && c != 32 && c != 58)) = true) (by decide +kernel) c
  simpa [h, and_assoc] using this

theorem isCtl_text (c : Byte) : isCtl c = false ↔ (32 ≤ c ∨ c = 9) ∧ c ≠ 127 := by
  have := forall_byte (P := fun c => (!isCtl c) = ((decide (32 ≤ c) || c == 9) && c != 127))
    (by decide +kernel) c
  rw [← Bool.not_eq_true', this]
  simp

theorem target_char (c : Byte) : ((c == 32) = false ∧
    (!isPrintableAscii c && (decide (c < 0o40) || c == 0o177)) = false) ↔ 32 < c ∧ c ≠ 127 := by
  have := forall_byte (P := fun c => ((c == 32) == false &&
    (!isPrintableAscii c && (decide (c < 0o40) || c == 0o177)) == false) =
    (decide (32 < c) && c != 127)) (by decide +kernel) c
  rw [Bool.eq_iff_iff] at this
  simpa only [Bool.and_eq_true, beq_iff_eq, decide_eq_true_eq, bne_iff_ne] using this

theorem LineEnd.starts (h : LineEnd w) : ∃ c t, w = c :: t ∧ isCtl c = true := by
  cases h
  · exact ⟨10, [], rfl, by decide⟩
  · exact ⟨13, [10], rfl, by decide⟩

theorem LineEnd.length_le (h : LineEnd w) : w.length ≤ 2 := by
  cases h <;> simp

theorem expectChar_ok {ch : Byte} {u : Unit} : expectChar ch s = .ok (u, r) ↔ s = ch :: r := by
  unfold expectChar
  rw [bind_ok]
  constructor
  · rintro ⟨c, t, hc, h⟩
    obtain rfl := next_ok.mp hc
    split at h
    · obtain ⟨-, rfl⟩ := pure_ok.mp h
      rw [‹c = ch›]
    · cases h
  · rintro rfl
    exact ⟨ch, r, rfl, by rw [if_pos rfl]; rfl⟩

theorem lineEnd_ok {ended : Bool} : lineEnd s = .ok (ended, r) ↔
    (ended = true ∧ ∃ eol, LineEnd eol ∧ s = eol ++ r) ∨
      (ended = false ∧ r = s ∧ ∃ c t, s = c :: t ∧ c ≠ 13 ∧ c ≠ 10) := by
  unfold lineEnd
  rw [bind_ok]
  constructor
  · rintro ⟨c, t, hc, h⟩
    obtain ⟨rfl, t, rfl⟩ := peek_ok.mp hc
    split at h
    · subst c
      obtain ⟨c, t', hn, h⟩ := bind_ok.mp h
      obtain ⟨rfl, rfl⟩ := List.cons.inj (next_ok.mp hn)
      obtain ⟨u, t', he, h⟩ := bind_ok.mp h
      obtain rfl := expectChar_ok.mp he
      obtain ⟨rfl, rfl⟩ := pure_ok.mp h
      exact .inl ⟨rfl, _, .crlf, rfl⟩
    split at h
    · subst c
      obtain ⟨c, t', hn, h⟩ := bind_ok.mp h
      obtain ⟨rfl, rfl⟩ := List.cons.inj (next_ok.mp hn)
      obtain ⟨rfl, rfl⟩ := pure_ok.mp h
      exact .inl ⟨rfl, _, .lf, rfl⟩
    · obtain ⟨rfl, rfl⟩ := pure_ok.mp h
      exact .inr ⟨rfl, rfl, c, t, rfl, ‹_›, ‹_›⟩
  · rintro (⟨rfl, eol, he, rfl⟩ | ⟨rfl, rfl, c, t, rfl, h13, h10⟩)
    · cases he <;> exact ⟨_, _, rfl, rfl⟩
    · refine ⟨c, _, rfl, ?_⟩
      rw [if_neg h13, if_neg h10]
      rfl

theorem foundCtl_ok {token a : List Byte} : foundCtl token s = .ok (a, r) ↔
    a = token ∧ ∃ eol, LineEnd eol ∧ s = eol ++ r := by
  unfold foundCtl
  rw [bind_ok]
  constructor
  · rintro ⟨ended, t, he, h⟩
    split at h
    · obtain ⟨rfl, rfl⟩ := pure_ok.mp h
      obtain ⟨-, he⟩ | ⟨hf, -⟩ := lineEnd_ok.mp he
      · exact ⟨rfl, he⟩
      · simp [hf] at *
    · cases h
  · rintro ⟨rfl, he⟩
    exact ⟨true, r, lineEnd_ok.mpr (.inl ⟨rfl, he⟩), rfl⟩

theorem getTokenToEol_ok : getTokenToEol sse s = .ok (w, r) ↔
    Text w ∧ ∃ eol, LineEnd eol ∧ s = w ++ (eol ++ r) := by
  rw [getTokenToEol_eq, bind_ok]
  constructor
  · rintro ⟨a, t, ha, h⟩
    obtain ⟨rfl, eol, he, rfl⟩ := foundCtl_ok.mp h
    obtain ⟨rfl, hw, -⟩ := spanTo_ok.mp ha
    exact ⟨fun c hc => (isCtl_text c).mp (hw c hc).1, eol, he, rfl⟩
  · rintro ⟨hw, eol, he, rfl⟩
    obtain ⟨c, t, ht, hc⟩ := he.starts
    refine ⟨w, eol ++ r, spanTo_ok.mpr ⟨rfl, fun c hc => ⟨(isCtl_text c).mpr (hw c hc), rfl⟩,
      c, t ++ r, by rw [ht]; rfl, hc⟩, foundCtl_ok.mpr ⟨rfl, eol, he, rfl⟩⟩

theorem parseToken_ok {nextChar : Byte} (hn : tokenRanges.has nextChar = true)
    (ht : isTokenChar nextChar = false) : parseToken sse nextChar s = .ok (w, r) ↔
      s = w ++ r ∧ (∀ c ∈ w, isTokenChar c = true) ∧ ∃ t, r = nextChar :: t := by
  rw [parseToken_eq hn, spanTo_ok]
  refine and_congr_right fun _ => and_congr ?_ ?_
  · refine forall₂_congr fun c _ => ?_
    rw [Bool.not_eq_false', and_iff_right_of_imp]
    intro hc
    refine beq_false_of_ne ?_
    rintro rfl
    simp [hc] at ht
  · simp

theorem skipSpaces_ok {u : Unit} : skipSpaces s = .ok (u, r) ↔
    ∃ c t, s = c :: (t ++ r) ∧ (∀ c ∈ t, c = 32) ∧ ∃ d t', r = d :: t' ∧ d ≠ 32 := by
  unfold skipSpaces
  rw [bind_ok]
  constructor
  · rintro ⟨c, t, hc, h⟩
    obtain rfl := next_ok.mp hc
    obtain ⟨w, rfl, hw, d, t', rfl, hd⟩ := skipWhile_ok.mp h
    exact ⟨c, w, rfl, fun c hc => by simpa using hw c hc, d, t', rfl, by simpa using hd⟩
  · rintro ⟨c, t, rfl, ht, d, t', rfl, hd⟩
    exact ⟨c, _, rfl, skipWhile_ok.mpr ⟨t, rfl, fun c hc => by simpa using ht c hc, d, t', rfl,
      by simpa using hd⟩⟩

-- ---------------------------------------------------------------------------
-- The header lines
-- ---------------------------------------------------------------------------

theorem parseHeader_ok {header : Header} : parseHeader sse num s = .ok (header, r) ↔
    ∃ line, HeaderLine num line header ∧ s = line ++ r := by
  unfold parseHeader
  rw [bind_ok]
  constructor
  · rintro ⟨c, t, hc, h⟩
    obtain ⟨rfl, t, rfl⟩ := peek_ok.mp hc
    split at h
    · rename_i hfold
      obtain ⟨value, t', hv, h⟩ := bind_ok.mp h
      obtain ⟨rfl, rfl⟩ := pure_ok.mp h
      obtain ⟨htext, eol, he, hs⟩ := getTokenToEol_ok.mp hv
      refine ⟨value ++ eol, .folded hfold.1 ?_ htext he, by rw [hs, List.append_assoc]⟩
      cases value with
      | nil =>
        -- the line would have to be empty
        obtain ⟨d, t', ht', hd⟩ := he.starts
        rw [ht'] at hs
        obtain ⟨rfl, -⟩ := List.cons.inj hs
        have := forall_byte (P := fun c => (!isPad c || !isCtl c) = true) (by decide +kernel) c
        simp [hfold.2, hd] at this
      | cons d value =>
        obtain ⟨rfl, -⟩ := List.cons.inj hs
        exact ⟨c, value, rfl, hfold.2⟩
    · obtain ⟨name, t₁, hname, h⟩ := bind_ok.mp h
      obtain ⟨hs, htoken, t₂, rfl⟩ := (parseToken_ok (by decide) (by decide)).mp hname
      split at h
      · cases h
      rename_i hne
      obtain ⟨c', t₃, hnext, h⟩ := bind_ok.mp h
      obtain ⟨rfl, rfl⟩ := List.cons.inj (next_ok.mp hnext)
      obtain ⟨u, t₄, hskip, hrest⟩ := bind_ok.mp h
      obtain ⟨blanks, rfl, hblanks, d, t₅, rfl, hd⟩ := skipWhile_ok.mp hskip
      obtain ⟨value, t₆, hv, hend⟩ := bind_ok.mp hrest
      obtain ⟨rfl, rfl⟩ := pure_ok.mp hend
      obtain ⟨htext, eol, he, hv⟩ := getTokenToEol_ok.mp hv
      refine ⟨name ++ 58 :: (blanks ++ (value ++ eol)),
        .field ⟨hne, htoken⟩ hblanks htext ?_ he, ?_⟩
      · rintro ⟨e, v, rfl, hb⟩
        obtain ⟨rfl, -⟩ := List.cons.inj hv
        simp [hd] at hb
      · rw [hs, hv]
        simp only [List.append_assoc, List.cons_append]
  · rintro ⟨line, hline, rfl⟩
    cases hline with
    | @field name blanks text eol hname hblanks htext hstart he =>
      obtain ⟨c, name', rfl⟩ := List.exists_cons_of_ne_nil hname.1
      have hc := isTokenChar_not (hname.2 c (List.mem_cons_self ..))
      refine ⟨c, _, rfl, ?_⟩
      rw [if_neg (by simp [hc.1])]
      obtain ⟨d, t, hd, hblank⟩ : ∃ d t, text ++ (eol ++ r) = d :: t ∧ isPad d = false := by
        cases text with
        | nil =>
          obtain ⟨d, t, rfl, hd⟩ := he.starts
          refine ⟨d, t ++ r, rfl, ?_⟩
          have := forall_byte (P := fun c => (!isPad c || !isCtl c) = true) (by decide +kernel) d
          simpa [hd] using this
        | cons d text =>
          refine ⟨d, _, rfl, ?_⟩
          by_contra hb
          exact hstart ⟨d, text, rfl, by simpa using hb⟩
      refine bind_ok.mpr ⟨c :: name', 58 :: (blanks ++ (text ++ (eol ++ r))),
        (parseToken_ok (by decide) (by decide)).mpr ⟨by simp, hname.2, _, rfl⟩, ?_⟩
      rw [if_neg hname.1]
      refine bind_ok.mpr ⟨58, _, rfl, bind_ok.mpr ⟨(), text ++ (eol ++ r),
        skipWhile_ok.mpr ⟨blanks, rfl, hblanks, d, t, hd, hblank⟩, bind_ok.mpr ⟨text, r,
          getTokenToEol_ok.mpr ⟨htext, eol, he, rfl⟩, rfl⟩⟩⟩
    | @folded text eol hnum hstart htext he =>
      obtain ⟨c, text', rfl, hc⟩ := hstart
      refine ⟨c, _, rfl, ?_⟩
      rw [if_pos ⟨hnum, hc⟩]
      exact bind_ok.mpr ⟨c :: text', r, getTokenToEol_ok.mpr ⟨htext, eol, he, by simp⟩, rfl⟩

theorem HeaderLine.starts {header : Header} (h : HeaderLine num w header) :
    ∃ c t, w = c :: t ∧ c ≠ 13 ∧ c ≠ 10 := by
  cases h with
  | field hname =>
    obtain ⟨c, name', rfl⟩ := List.exists_cons_of_ne_nil hname.1
    have hc := isTokenChar_not (hname.2 c (List.mem_cons_self ..))
    exact ⟨c, _, rfl, hc.2.1, hc.2.2.1⟩
  | folded _ hstart =>
    obtain ⟨c, text', rfl, hc⟩ := hstart
    refine ⟨c, _, rfl, ?_, ?_⟩ <;> (rintro rfl; revert hc; decide)

theorem parseHeaders_ok {headers : List Header} : parseHeaders sse num room s = .ok (headers, r) ↔
    ∃ lines, HeaderLines num room lines headers ∧ s = lines ++ r := by
  induction room generalizing num s headers with
  | zero =>
    unfold parseHeaders
    rw [bind_ok]
    constructor
    · rintro ⟨ended, t, he, h⟩
      split at h
      · obtain ⟨rfl, rfl⟩ := pure_ok.mp h
        obtain ⟨-, eol, heol, rfl⟩ | ⟨hf, -⟩ := lineEnd_ok.mp he
        · exact ⟨eol, .nil heol, rfl⟩
        · simp [hf] at *
      · cases h
    · rintro ⟨lines, hl, rfl⟩
      cases hl with
      | nil he => exact ⟨true, r, lineEnd_ok.mpr (.inl ⟨rfl, _, he, rfl⟩), rfl⟩
  | succ room ih =>
    unfold parseHeaders
    rw [bind_ok]
    constructor
    · rintro ⟨ended, t, he, h⟩
      split at h
      · obtain ⟨rfl, rfl⟩ := pure_ok.mp h
        obtain ⟨-, eol, heol, rfl⟩ | ⟨hf, -⟩ := lineEnd_ok.mp he
        · exact ⟨eol, .nil heol, rfl⟩
        · simp [hf] at *
      · obtain ⟨hf, -⟩ | ⟨-, rfl, -⟩ := lineEnd_ok.mp he
        · exact absurd hf ‹_›
        obtain ⟨header, t₁, hh, h⟩ := bind_ok.mp h
        obtain ⟨hs, hrest, rfl⟩ := map_ok.mp h
        obtain ⟨line, hline, rfl⟩ := parseHeader_ok.mp hh
        obtain ⟨lines, hlines, rfl⟩ := ih.mp hrest
        exact ⟨line ++ lines, .cons hline hlines, (List.append_assoc ..).symm⟩
    · rintro ⟨lines, hl, rfl⟩
      cases hl with
      | nil he => exact ⟨true, r, lineEnd_ok.mpr (.inl ⟨rfl, _, he, rfl⟩), rfl⟩
      | @cons _ _ line rest header headers hline hrest =>
        obtain ⟨c, t, hc, h13, h10⟩ := hline.starts
        refine ⟨false, line ++ rest ++ r,
          lineEnd_ok.mpr (.inr ⟨rfl, rfl, c, t ++ rest ++ r, by rw [hc]; rfl, h13, h10⟩), ?_⟩
        exact bind_ok.mpr ⟨header, rest ++ r,
          parseHeader_ok.mpr ⟨line, hline, List.append_assoc ..⟩,
          map_ok.mpr ⟨headers, ih.mpr ⟨rest, hrest, rfl⟩, rfl⟩⟩

-- ---------------------------------------------------------------------------
-- The request
-- ---------------------------------------------------------------------------

theorem expectChars_ok {chs : List Byte} {u : Unit} :
    expectChars chs s = .ok (u, r) ↔ s = chs ++ r := by
  induction chs generalizing s with
  | nil => exact pure_ok.trans (by simp [eq_comm])
  | cons ch chs ih =>
    unfold expectChars
    rw [bind_ok]
    simp only [expectChar_ok, ih]
    constructor
    · rintro ⟨_, t, rfl, rfl⟩
      rfl
    · rintro rfl
      exact ⟨(), _, rfl, rfl⟩

theorem parseHttpVersion_ok {minor : Nat} : parseHttpVersion s = .ok (minor, r) ↔
    ∃ digit : Byte, (48 ≤ digit ∧ digit ≤ 57) ∧ minor = digit.toNat - 48 ∧
      s = str "HTTP/1." ++ digit :: r ∧ r ≠ [] := by
  have hlen : (str "HTTP/1.").length = 7 := by decide
  unfold parseHttpVersion
  generalize str "HTTP/1." = version at hlen ⊢
  rw [bind_ok]
  constructor
  · rintro ⟨u, t, hl, h⟩
    obtain ⟨rfl, hl⟩ := atLeast_ok.mp hl
    obtain ⟨u', t₁, hs, h₁⟩ := bind_ok.mp h
    obtain rfl := expectChars_ok.mp hs
    obtain ⟨digit, t₂, hd, h₂⟩ := bind_ok.mp h₁
    obtain rfl := next_ok.mp hd
    split at h₂
    · cases h₂
    rename_i hdigit
    obtain ⟨rfl, rfl⟩ := pure_ok.mp h₂
    rw [not_or, UInt8.not_lt, UInt8.not_lt] at hdigit
    refine ⟨digit, hdigit, rfl, rfl, ?_⟩
    rintro rfl
    rw [List.length_append, hlen] at hl
    simp at hl
  · rintro ⟨digit, hdigit, rfl, rfl, hr⟩
    refine ⟨(), _, atLeast_ok.mpr ⟨rfl, ?_⟩, bind_ok.mpr ⟨(), digit :: r, expectChars_ok.mpr rfl,
      bind_ok.mpr ⟨digit, r, rfl, ?_⟩⟩⟩
    · have := List.length_pos_iff.mpr hr
      rw [List.length_append, List.length_cons, hlen]
      omega
    · rw [if_neg (by rw [not_or, UInt8.not_lt, UInt8.not_lt]; exact hdigit)]
      rfl

theorem spaces_of {c : Byte} {t : List Byte} (hc : c = 32) (ht : ∀ c ∈ t, c = 32) :
    Spaces (c :: t) := ⟨List.cons_ne_nil _ _, List.forall_mem_cons.mpr ⟨hc, ht⟩⟩

theorem Target.starts (h : Target w) : ∃ c t, w = c :: t ∧ c ≠ 32 := by
  obtain ⟨c, t, rfl⟩ := List.exists_cons_of_ne_nil h.1
  refine ⟨c, t, rfl, ?_⟩
  rintro rfl
  exact absurd (h.2 32 (List.mem_cons_self ..)).1 (by decide)

theorem advanceToken_ok : advanceToken sse s = .ok (w, r) ↔
    s = w ++ r ∧ (∀ c ∈ w, 32 < c ∧ c ≠ 127) ∧ ∃ t, r = 32 :: t := by
  rw [advanceToken_eq, spanTo_ok]
  refine and_congr_right fun _ => and_congr ?_ (by simp)
  exact forall₂_congr fun c _ => target_char c

theorem parseRequest_ok {found : ParsedHead} : parseRequest sse max s = .ok (found, r) ↔
    ∃ w, RequestHead max w found ∧ s = w ++ r := by
  unfold parseRequest
  rw [bind_ok]
  constructor
  · rintro ⟨led, s₀, hlead, h⟩
    obtain ⟨lead, hl, hs⟩ : ∃ lead, (lead = [] ∨ LineEnd lead) ∧ s = lead ++ s₀ := by
      obtain ⟨-, eol, he, hs⟩ | ⟨-, rfl, -⟩ := lineEnd_ok.mp hlead
      · exact ⟨eol, .inr he, hs⟩
      · exact ⟨[], .inl rfl, rfl⟩
    obtain ⟨method, s₁, hm, h₁⟩ := bind_ok.mp h
    obtain ⟨rfl, hmethod, t₁, rfl⟩ := (parseToken_ok (by decide) (by decide)).mp hm
    obtain ⟨u, s₂, hskip, h₂⟩ := bind_ok.mp h₁
    obtain ⟨c₁, sp, heq, hsp, d, t₂, rfl, hd⟩ := skipSpaces_ok.mp hskip
    obtain ⟨rfl, rfl⟩ := List.cons.inj heq
    obtain ⟨path, s₃, hp, h₃⟩ := bind_ok.mp h₂
    obtain ⟨hpath, htarget, t₃, rfl⟩ := advanceToken_ok.mp hp
    obtain ⟨u', s₄, hskip', h₄⟩ := bind_ok.mp h₃
    obtain ⟨c₂, sp', heq', hsp', -⟩ := skipSpaces_ok.mp hskip'
    obtain ⟨rfl, rfl⟩ := List.cons.inj heq'
    split at h₄
    · cases h₄
    rename_i hne
    rw [not_or] at hne
    obtain ⟨minor, s₅, hv, h₅⟩ := bind_ok.mp h₄
    obtain ⟨digit, hdigit, rfl, rfl, -⟩ := parseHttpVersion_ok.mp hv
    obtain ⟨ended, s₆, he, h₆⟩ := bind_ok.mp h₅
    split at h₆
    · obtain ⟨headers, hh, rfl⟩ := map_ok.mp h₆
      obtain ⟨-, eol, heol, rfl⟩ | ⟨hf, -⟩ := lineEnd_ok.mp he
      · obtain ⟨rest, hrest, rfl⟩ := parseHeaders_ok.mp hh
        refine ⟨_, .mk hl ⟨hne.1, hmethod⟩ (spaces_of rfl hsp) ⟨hne.2, htarget⟩
          (spaces_of rfl hsp') hdigit heol hrest, ?_⟩
        rw [hs, hpath]
        simp only [List.append_assoc, List.cons_append]
      · exact absurd hf (by simp [*])
    · cases h₆
  · rintro ⟨w, hw, rfl⟩
    cases hw with
    | @mk lead method sp target sp' eol rest digit headers hl hm hsp ht hsp' hdigit heol hrest =>
      obtain ⟨c₁, sp, rfl⟩ := List.exists_cons_of_ne_nil hsp.1
      obtain ⟨rfl, hpad⟩ := List.forall_mem_cons.mp hsp.2
      obtain ⟨c₂, sp', rfl⟩ := List.exists_cons_of_ne_nil hsp'.1
      obtain ⟨rfl, hpad'⟩ := List.forall_mem_cons.mp hsp'.2
      obtain ⟨d, target', rfl, hd⟩ := ht.starts
      simp only [List.append_assoc, List.cons_append]
      refine ⟨!lead.isEmpty, method ++ 32 :: (sp ++ d :: (target' ++ 32 :: (sp' ++ (str "HTTP/1." ++
        digit :: (eol ++ (rest ++ r)))))), ?_, ?_⟩
      · rcases hl with rfl | hl
        · obtain ⟨c, method', rfl⟩ := List.exists_cons_of_ne_nil hm.1
          have hc := isTokenChar_not (hm.2 c (List.mem_cons_self ..))
          exact lineEnd_ok.mpr (.inr ⟨rfl, rfl, c, _, rfl, hc.2.1, hc.2.2.1⟩)
        · obtain ⟨c, t, rfl, -⟩ := hl.starts
          exact lineEnd_ok.mpr (.inl ⟨rfl, _, hl, rfl⟩)
      refine bind_ok.mpr ⟨method, _,
        (parseToken_ok (by decide) (by decide)).mpr ⟨rfl, hm.2, _, rfl⟩,
        bind_ok.mpr ⟨(), _, skipSpaces_ok.mpr ⟨32, sp, rfl, hpad, d, _, rfl, hd⟩,
        bind_ok.mpr ⟨d :: target', _, advanceToken_ok.mpr ⟨rfl, ht.2, _, rfl⟩,
        bind_ok.mpr ⟨(), _, skipSpaces_ok.mpr ⟨32, sp', rfl, hpad', 72, _, rfl, by decide⟩, ?_⟩⟩⟩⟩
      rw [if_neg (not_or.mpr ⟨hm.1, ht.1⟩)]
      refine bind_ok.mpr ⟨_, _, parseHttpVersion_ok.mpr ⟨digit, hdigit, rfl, rfl, ?_⟩,
        bind_ok.mpr ⟨true, rest ++ r, lineEnd_ok.mpr (.inl ⟨rfl, eol, heol, rfl⟩), ?_⟩⟩
      · obtain ⟨c, t, rfl, -⟩ := heol.starts
        exact List.cons_ne_nil _ _
      rw [if_pos rfl]
      exact map_ok.mpr ⟨headers, parseHeaders_ok.mpr ⟨rest, hrest, rfl⟩, rfl⟩

end Phr

end Ioxd.Http
