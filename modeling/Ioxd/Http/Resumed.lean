import Ioxd.Http.RequestHead

/-!
# A head that comes in pieces

The parser is given all that has come in, each time some more has, and looks
for the empty line from shortly before what it has seen. No CR of a head is
without its LF, so the look reaches the end of one that is there; and one that
was not there before ends behind what had been seen.
-/

namespace Ioxd.Http

open Growing
open Ioxd.Pipe (Byte)

namespace Phr

variable {sse : Bool} {s r w w' p q : List Byte} {num room max n : Nat} {found found' : ParsedHead}

-- ---------------------------------------------------------------------------
-- Stability
-- ---------------------------------------------------------------------------

theorem stable_expectChar (ch : Byte) : Stable (expectChar ch) :=
  stable_next.bind fun _ => .ite (stable_pure _) stable_bad

theorem stable_lineEnd : Stable lineEnd :=
  stable_peek.bind fun _ => .ite
    (stable_next.bind fun _ => (stable_expectChar 10).bind fun _ => stable_pure _)
    (.ite (stable_next.bind fun _ => stable_pure _) (stable_pure _))

theorem stable_foundCtl (token : List Byte) : Stable (foundCtl token) :=
  stable_lineEnd.bind fun _ => .ite (stable_pure _) stable_bad

theorem stable_getTokenToEol : Stable (getTokenToEol sse) := by
  rw [getTokenToEol_eq]
  exact (stable_spanTo _ _).bind stable_foundCtl

theorem stable_parseToken {nextChar : Byte} (hn : tokenRanges.has nextChar = true) :
    Stable (parseToken sse nextChar) := by
  rw [parseToken_eq hn]
  exact stable_spanTo _ _

theorem stable_advanceToken : Stable (advanceToken sse) := by
  rw [advanceToken_eq]
  exact stable_spanTo _ _

theorem stable_skipSpaces : Stable skipSpaces := stable_next.bind fun _ => stable_skipWhile _

theorem stable_expectChars (chs : List Byte) : Stable (expectChars chs) := by
  induction chs with
  | nil => exact stable_pure _
  | cons ch chs ih => exact (stable_expectChar ch).bind fun _ => ih

theorem stable_parseHttpVersion : Stable parseHttpVersion :=
  (stable_atLeast 9).bind fun _ => (stable_expectChars _).bind fun _ =>
    stable_next.bind fun _ => .ite stable_bad (stable_pure _)

theorem stable_parseHeader : Stable (parseHeader sse num) :=
  stable_peek.bind fun _ => .ite (stable_getTokenToEol.bind fun _ => stable_pure _)
    ((stable_parseToken (by decide)).bind fun _ => .ite stable_bad (stable_next.bind fun _ =>
      (stable_skipWhile _).bind fun _ => stable_getTokenToEol.bind fun _ => stable_pure _))

theorem stable_parseHeaders : Stable (parseHeaders sse num room) := by
  induction room generalizing num with
  | zero => exact stable_lineEnd.bind fun _ => .ite (stable_pure _) stable_bad
  | succ room ih =>
    exact stable_lineEnd.bind fun _ => .ite (stable_pure _)
      (stable_parseHeader.bind fun header => ih.map (List.cons header))

theorem stable_parseRequest : Stable (parseRequest sse max) :=
  stable_lineEnd.bind fun _ => (stable_parseToken (by decide)).bind fun _ =>
    stable_skipSpaces.bind fun _ => stable_advanceToken.bind fun _ =>
      stable_skipSpaces.bind fun _ => .ite stable_bad (stable_parseHttpVersion.bind fun _ =>
        stable_lineEnd.bind fun _ => .ite (stable_parseHeaders.map _) stable_bad)

theorem requestHead_of_parse (h : parseRequest sse max s = .ok (found, [])) :
    RequestHead max s found := by
  obtain ⟨w, hw, hs⟩ := parseRequest_ok.mp h
  rwa [hs, List.append_nil]

theorem RequestHead.unique (h : RequestHead max w found) (h' : RequestHead max w' found')
    (he : w ++ r = w' ++ s) : w = w' ∧ found = found' := by
  have hp := (@parseRequest_ok false (w ++ r) r max found).mpr ⟨w, h, rfl⟩
  have hp' := (@parseRequest_ok false (w ++ r) s max found').mpr ⟨w', h', he⟩
  have := hp.symm.trans hp'
  simp only [Except.ok.injEq, Prod.mk.injEq] at this
  obtain ⟨rfl, rfl⟩ := this
  exact ⟨List.append_cancel_right he, rfl⟩

-- ---------------------------------------------------------------------------
-- The look for the empty line
-- ---------------------------------------------------------------------------

/-- No CR without its LF. -/
inductive Clean : List Byte → Prop
  | nil : Clean []
  | crlf {w : List Byte} : Clean w → Clean (13 :: 10 :: w)
  | other {c : Byte} {w : List Byte} : c ≠ 13 → Clean w → Clean (c :: w)

theorem Clean.append (h : Clean w) (h' : Clean w') : Clean (w ++ w') := by
  induction h with
  | nil => exact h'
  | crlf _ ih => exact .crlf ih
  | other hc _ ih => exact .other hc ih

theorem Clean.drop (h : Clean w) (n : Nat) : Clean (w.drop n) := by
  induction h generalizing n with
  | nil => simpa using Clean.nil
  | @crlf w hw ih =>
    cases n with
    | zero => exact .crlf hw
    | succ n =>
      cases n with
      | zero => exact .other (by decide) hw
      | succ n => exact ih n
  | @other c w hc hw ih =>
    cases n with
    | zero => exact .other hc hw
    | succ n => exact ih n

theorem clean_of_forall (h : ∀ c ∈ w, c ≠ 13) : Clean w := by
  induction w with
  | nil => exact .nil
  | cons c w ih =>
    obtain ⟨hc, hw⟩ := List.forall_mem_cons.mp h
    exact .other hc (ih hw)

theorem LineEnd.clean (h : LineEnd w) : Clean w := by
  cases h with
  | lf => exact .other (by decide) .nil
  | crlf => exact .crlf .nil

theorem Text.clean (h : Text w) : Clean w := clean_of_forall fun c hc => by
  rintro rfl
  exact absurd (h 13 hc) (by decide)

theorem HeaderLine.split {header : Header} (h : HeaderLine num w header) :
    ∃ u eol, w = u ++ eol ∧ Clean u ∧ LineEnd eol := by
  cases h with
  | @field name blanks text eol hname hblanks htext _ he =>
    refine ⟨name ++ 58 :: (blanks ++ text), eol, by simp, ?_, he⟩
    refine .append (clean_of_forall fun c hc => (isTokenChar_not (hname.2 c hc)).2.1)
      (.other (by decide) (.append (clean_of_forall fun c hc => ?_) htext.clean))
    rintro rfl
    exact absurd (hblanks 13 hc) (by decide)
  | folded _ _ htext he => exact ⟨_, _, rfl, htext.clean, he⟩

def EndsEmpty (w : List Byte) : Prop :=
  ∃ u eol eol', w = u ++ (eol ++ eol') ∧ Clean u ∧ LineEnd eol ∧ LineEnd eol'

theorem EndsEmpty.behind (hw : Clean w) (h : EndsEmpty w') : EndsEmpty (w ++ w') := by
  obtain ⟨u, eol, eol', rfl, hu, he, he'⟩ := h
  exact ⟨w ++ u, eol, eol', by simp, hw.append hu, he, he'⟩

theorem HeaderLines.endsEmpty {headers : List Header} (h : HeaderLines num room w headers)
    {eol : List Byte} (he : LineEnd eol) : EndsEmpty (eol ++ w) := by
  induction h generalizing eol with
  | nil he' => exact ⟨[], eol, _, rfl, .nil, he, he'⟩
  | cons hline _ ih =>
    obtain ⟨u, eol', rfl, hu, he'⟩ := hline.split
    rw [List.append_assoc, ← List.append_assoc]
    exact .behind (he.clean.append hu) (ih he')

theorem RequestHead.endsEmpty (h : RequestHead max w found) : EndsEmpty w := by
  have hsp : ∀ {w}, Spaces w → Clean w := fun h => clean_of_forall fun c hc => by
    rw [h.2 c hc]
    decide
  cases h with
  | @mk lead method sp target sp' eol rest digit headers hl hm hs ht hs' hdigit he hrest =>
    have hend : EndsEmpty (digit :: (eol ++ rest)) :=
      .behind (w := [digit]) (.other ?_ .nil) (hrest.endsEmpty he)
    refine .behind (hl.elim (by rintro rfl; exact .nil) LineEnd.clean) (.behind ?_
      (.behind (hsp hs) (.behind ?_ (.behind (hsp hs') (.behind ?_ hend)))))
    · exact clean_of_forall fun c hc => (isTokenChar_not (hm.2 c hc)).2.1
    · refine clean_of_forall fun c hc => ?_
      rintro rfl
      exact absurd (ht.2 13 hc) (by decide)
    · exact clean_of_forall fun c hc => by
        rintro rfl
        exact absurd hc (by decide)
    · rintro rfl
      exact absurd hdigit.1 (by decide)

theorem completeLoop_crlf (k : Nat) (s : List Byte) : completeLoop k (13 :: 10 :: s) =
    if k + 1 = 2 then .ok s else completeLoop (k + 1) s := rfl

theorem completeLoop_lf (k : Nat) (s : List Byte) : completeLoop k (10 :: s) =
    if k + 1 = 2 then .ok s else completeLoop (k + 1) s := by
  rw [completeLoop.eq_def]
  rfl

theorem completeLoop_other {c : Byte} (h13 : c ≠ 13) (h10 : c ≠ 10) (k : Nat) (s : List Byte) :
    completeLoop k (c :: s) = completeLoop 0 s := by
  rw [completeLoop.eq_def]
  simp only [if_neg h13, if_neg h10]

theorem completeLoop_lineEnd {eol : List Byte} (he : LineEnd eol) (k : Nat) (s : List Byte) :
    completeLoop k (eol ++ s) = if k + 1 = 2 then .ok s else completeLoop (k + 1) s := by
  cases he with
  | lf => exact completeLoop_lf k s
  | crlf => exact completeLoop_crlf k s

theorem completeLoop_empty {eol eol' : List Byte} (he : LineEnd eol) (he' : LineEnd eol') (k : Nat)
    (s : List Byte) (hk : k < 2) : ∃ t, completeLoop k (eol ++ (eol' ++ s)) = .ok t := by
  rw [completeLoop_lineEnd he]
  split
  · exact ⟨_, rfl⟩
  · obtain rfl : k = 0 := by omega
    rw [completeLoop_lineEnd he']
    exact ⟨_, rfl⟩

theorem completeLoop_clean (hw : Clean w) {eol eol' : List Byte} (he : LineEnd eol)
    (he' : LineEnd eol') {k : Nat} (hk : k < 2) :
    ∃ t, completeLoop k (w ++ (eol ++ (eol' ++ s))) = .ok t := by
  induction hw generalizing k with
  | nil => exact completeLoop_empty he he' k s hk
  | @crlf w hw ih =>
    rw [List.cons_append, List.cons_append, completeLoop_crlf]
    split
    · exact ⟨_, rfl⟩
    · exact ih (by omega)
  | @other c w hc hw ih =>
    by_cases h10 : c = 10
    · subst c
      rw [List.cons_append, completeLoop_lf]
      split
      · exact ⟨_, rfl⟩
      · exact ih (by omega)
    · rw [List.cons_append, completeLoop_other hc h10]
      exact ih (by omega)

theorem isComplete_of_endsEmpty (h : EndsEmpty w) (hn : n < w.length) :
    ∃ t, isComplete n (w ++ s) = .ok t := by
  obtain ⟨u, eol, eol', rfl, hu, he, he'⟩ := h
  have hl := he.length_le
  have hl' := he'.length_le
  simp only [List.length_append] at hn
  have hd : ∀ k ≤ u.length, ∃ t, completeLoop 0 ((u ++ (eol ++ eol') ++ s).drop k) = .ok t := by
    intro k hk
    rw [List.append_assoc, List.append_assoc, List.drop_append_of_le_length hk]
    exact completeLoop_clean (hu.drop k) he he' (by decide)
  unfold isComplete
  split
  · exact hd 0 (Nat.zero_le _)
  · exact hd (n - 3) (by omega)

-- ---------------------------------------------------------------------------
-- The look is stable
-- ---------------------------------------------------------------------------

theorem completeLoop_bad {k : Nat} (h : completeLoop k s = .error .bad) (q : List Byte) :
    completeLoop k (s ++ q) = .error .bad := by
  induction hn : s.length using Nat.strong_induction_on generalizing k s with
  | _ n ih =>
    cases s with
    | nil => cases h
    | cons c s =>
      rw [List.length_cons] at hn
      by_cases h13 : c = 13
      · subst c
        cases s with
        | nil => cases h
        | cons d s =>
          by_cases hd : d = 10
          · subst d
            rw [completeLoop_crlf] at h
            rw [List.cons_append, List.cons_append, completeLoop_crlf]
            split at h
            · cases h
            · rw [if_neg ‹_›]
              exact ih s.length (by simp at hn; omega) h rfl
          · show (if d ≠ 10 then _ else _) = _
            rw [if_pos hd]
      by_cases h10 : c = 10
      · subst c
        rw [completeLoop_lf] at h
        rw [List.cons_append, completeLoop_lf]
        split at h
        · cases h
        · rw [if_neg ‹_›]
          exact ih s.length (by omega) h rfl
      · rw [completeLoop_other h13 h10] at h
        rw [List.cons_append, completeLoop_other h13 h10]
        exact ih s.length (by omega) h rfl

theorem isComplete_bad (h : isComplete n s = .error .bad) (q : List Byte) :
    isComplete n (s ++ q) = .error .bad := by
  unfold isComplete at h ⊢
  split at h
  · rw [if_pos ‹_›]
    exact completeLoop_bad h q
  · rw [if_neg ‹_›]
    by_cases hn : n - 3 ≤ s.length
    · rw [List.drop_append_of_le_length hn]
      exact completeLoop_bad h q
    · rw [List.drop_eq_nil_of_le (by omega)] at h
      cases h

/-- A head that is not all among the bytes seen before gets by the look. -/
theorem isComplete_of_head (h : RequestHead max w found) (hs : p ++ q = w ++ r)
    (hp : ∀ found r', parseRequest sse max p ≠ .ok (found, r')) :
    ∃ t, isComplete p.length (p ++ q) = .ok t := by
  rw [hs]
  refine isComplete_of_endsEmpty h.endsEmpty ?_
  by_contra hle
  -- the head would have been found before
  have hpre : w <+: p :=
    List.prefix_of_prefix_length_le ⟨r, hs.symm⟩ (List.prefix_append p q) (by omega)
  obtain ⟨t, rfl⟩ := hpre
  exact hp found t (parseRequest_ok.mpr ⟨w, h, rfl⟩)

end Phr

-- ---------------------------------------------------------------------------
-- The parser
-- ---------------------------------------------------------------------------

open Phr

variable {sse : Bool} {p q : List Byte} {len : Nat} {found : ParsedHead}

theorem Parsed.of_head {n : Nat} {res : Except Stop (ParsedHead × List Byte)} :
    Parsed.of n res = .head len found ↔ ∃ r, res = .ok (found, r) ∧ n - r.length = len := by
  rcases res with (_ | _) | ⟨f, r⟩
  · simp [Parsed.of]
  · simp [Parsed.of]
  · simp only [Parsed.of, Parsed.head.injEq, Except.ok.injEq, Prod.mk.injEq]
    constructor
    · rintro ⟨h, rfl⟩
      exact ⟨r, ⟨rfl, rfl⟩, h⟩
    · rintro ⟨_, ⟨rfl, rfl⟩, h⟩
      exact ⟨h, rfl⟩

theorem Parsed.of_bad {n : Nat} {res : Except Stop (ParsedHead × List Byte)} :
    Parsed.of n res = .bad ↔ res = .error .bad := by
  rcases res with (_ | _) | ⟨f, r⟩ <;> simp [Parsed.of]

/-- No request head is at the start of these bytes. -/
def NoHead (s : List Byte) : Prop :=
  ∀ head rest found, s = head ++ rest → ¬ RequestHead maxHeaders head found

/-- Nothing has been seen, or these bytes have been called partial. -/
def Parser.Seen (parse : Parser) (p : List Byte) : Prop := p = [] ∨ parse.Partial p

theorem parseRequest_nil {max : Nat} {r : List Byte} :
    parseRequest sse max [] ≠ .ok (found, r) := by
  intro h
  cases h

/-- What is taken for a head is one, whatever was said to be seen. -/
theorem phrParseRequest_sound {live : List Byte} {already : Nat}
    (h : phrParseRequest sse live already = .head len found) :
    ∃ w r, live = w ++ r ∧ w.length = len ∧ RequestHead maxHeaders w found := by
  unfold phrParseRequest at h
  obtain ⟨r, hres, rfl⟩ := Parsed.of_head.mp h
  have hok : parseRequest sse maxHeaders live = .ok (found, r) := by
    split at hres
    · exact (guarded_ok.mp hres).2
    · exact hres
  obtain ⟨w, hw, rfl⟩ := parseRequest_ok.mp hok
  exact ⟨w, r, rfl, by rw [List.length_append]; omega, hw⟩

theorem phrParseRequest_head_of (hp : ∀ found r, parseRequest sse maxHeaders p ≠ .ok (found, r)) :
    phrParseRequest sse (p ++ q) p.length = .head len found ↔
      ∃ w r, p ++ q = w ++ r ∧ w.length = len ∧ RequestHead maxHeaders w found := by
  refine ⟨phrParseRequest_sound, ?_⟩
  rintro ⟨w, r, hs, rfl, hw⟩
  unfold phrParseRequest
  refine Parsed.of_head.mpr ⟨r, ?_, by rw [hs, List.length_append]; omega⟩
  have h := (@parseRequest_ok sse _ _ _ _).mpr ⟨w, hw, hs⟩
  split
  · exact guarded_ok.mpr ⟨isComplete_of_head hw hs hp, h⟩
  · exact h

theorem Parser.Partial.not_head (h : (phrParseRequest sse).Partial p) :
    ∀ found r, parseRequest sse maxHeaders p ≠ .ok (found, r) := by
  have hno : ∀ {p q : List Byte},
      (∀ found r, parseRequest sse maxHeaders p ≠ .ok (found, r)) →
      phrParseRequest sse (p ++ q) p.length = .partly →
      ∀ found r, parseRequest sse maxHeaders (p ++ q) ≠ .ok (found, r) := by
    intro p q hp hq found r hok
    obtain ⟨w, hw, hs⟩ := parseRequest_ok.mp hok
    have := (phrParseRequest_head_of hp).mpr ⟨w, r, hs, rfl, hw⟩
    rw [hq] at this
    cases this
  induction h with
  | @first p h => exact hno (p := []) (fun _ _ => parseRequest_nil) h
  | more _ h ih => exact hno ih h

theorem Parser.Seen.not_head (h : (phrParseRequest sse).Seen p) :
    ∀ found r, parseRequest sse maxHeaders p ≠ .ok (found, r) := by
  rcases h with rfl | h
  · exact fun _ _ => parseRequest_nil
  · exact h.not_head

theorem phrParseRequest_head (h : (phrParseRequest sse).Seen p) :
    phrParseRequest sse (p ++ q) p.length = .head len found ↔
      ∃ w r, p ++ q = w ++ r ∧ w.length = len ∧ RequestHead maxHeaders w found :=
  phrParseRequest_head_of h.not_head

theorem phrParseRequest_bad (h : (phrParseRequest sse).Seen p)
    (hbad : phrParseRequest sse (p ++ q) p.length = .bad) (t : List Byte) :
    NoHead (p ++ q ++ t) := by
  intro w r found hs hw
  have hok := (@parseRequest_ok sse _ _ _ _).mpr ⟨w, hw, hs⟩
  have hfinal : parseRequest sse maxHeaders (p ++ q) ≠ .error .bad := fun hb => by
    rw [stable_parseRequest.bad hb t] at hok
    cases hok
  unfold phrParseRequest at hbad
  rw [Parsed.of_bad] at hbad
  split at hbad
  · unfold guarded at hbad
    split at hbad
    · exact hfinal hbad
    · rename_i e he
      cases hbad
      obtain ⟨t', ht⟩ := isComplete_of_head hw ((List.append_assoc ..).symm.trans hs) h.not_head
      have := isComplete_bad he t
      rw [List.append_assoc, ht] at this
      cases this
  · exact hfinal hbad

/-- Of what has come in up to some cut, behind bytes that were called partial
at the cuts before: a head is found if and only if one is at the start of it,
and what is called bad stays so, whatever else comes in. -/
theorem phrParseRequest_cut (h : (phrParseRequest sse).Seen p) :
    (∀ len found, phrParseRequest sse (p ++ q) p.length = .head len found ↔
      ∃ w r, p ++ q = w ++ r ∧ w.length = len ∧ RequestHead maxHeaders w found) ∧
    (phrParseRequest sse (p ++ q) p.length = .bad → ∀ more, NoHead (p ++ q ++ more)) :=
  ⟨fun _ _ => phrParseRequest_head h, phrParseRequest_bad h⟩

def getLine : List Byte := str "GET / HTTP/1.1\r\n"

theorem getLine_partial : (phrParseRequest true).Partial getLine := .first (by decide +kernel)

/-- The request line has been seen; the look finds the CR alone. -/
theorem phrParseRequest_cut_line : NoHead (getLine ++ str "\r\r" ++ str "\n") :=
  (phrParseRequest_cut (.inr getLine_partial)).2 (by decide +kernel) (str "\n")

theorem Phr.RequestHead.length_pos {max : Nat} {w : List Byte} (h : RequestHead max w found) :
    0 < w.length := by
  cases h with
  | mk _ hm =>
    have := List.length_pos_iff.mpr hm.1
    simp only [List.length_append]
    omega

theorem phrParseRequest_ok : (phrParseRequest sse).Ok where
  head {live already len found} h := by
    obtain ⟨w, r, rfl, rfl, hw⟩ := phrParseRequest_sound h
    rw [List.length_append]
    exact ⟨hw.length_pos, by omega⟩
  more {p q len found} hp h := by
    obtain ⟨w, r, hs, rfl, hw⟩ := phrParseRequest_sound h
    by_contra hle
    have hpre : w <+: p :=
      List.prefix_of_prefix_length_le ⟨r, hs.symm⟩ (List.prefix_append p q) (by omega)
    obtain ⟨t, rfl⟩ := hpre
    exact hp.not_head found t (parseRequest_ok.mpr ⟨w, hw, rfl⟩)

end Ioxd.Http
