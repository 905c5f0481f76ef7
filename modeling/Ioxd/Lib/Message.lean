import Ioxd.Lib.Chunked
import Mathlib.Data.List.Basic
import Mathlib.Data.List.TakeWhile

/-!
# The grammar of an HTTP/1 message

A head as a start line and fields that cannot break its lines, what it says of
the body behind it, and what a body so framed carries. A head ends where it
says it does: no message can be read as two different heads.
-/

namespace Message

open Numeral

/-- An ASCII text as its bytes. -/
def text (s : String) : List UInt8 := s.toList.map fun c => UInt8.ofNat c.toNat

abbrev crlf : List UInt8 := [13, 10]

abbrev colon : List UInt8 := [58, 32]

@[ext] structure Field where
  name : List UInt8
  value : List UInt8
  named : 58 ∉ name ∧ 13 ∉ name
  valued : 13 ∉ value

def Field.line (f : Field) : List UInt8 := f.name ++ colon ++ f.value

@[ext] structure Head where
  start : List UInt8
  fields : List Field
  started : start ≠ [] ∧ 13 ∉ start

def encodeLines (lines : List (List UInt8)) : List UInt8 := lines.flatMap (· ++ crlf) ++ crlf

namespace Head

def lines (h : Head) : List (List UInt8) := h.start :: h.fields.map Field.line

def encode (h : Head) : List UInt8 := encodeLines h.lines

/-- The values of the fields with this name. -/
def values (h : Head) (name : List UInt8) : List (List UInt8) :=
  (h.fields.filter (·.name = name)).map (·.value)

end Head

/-- How the end of a body is told. -/
inductive Framing
  | length (n : Nat)
  | chunked
  | untilClose
  deriving DecidableEq

/-- The framing a head declares. -/
inductive Declares (h : Head) : Framing → Prop
  | length {v : List UInt8} {n : Nat} : h.values (text "transfer-encoding") = [] →
      h.values (text "content-length") = [v] → Decimal v n → Declares h (.length n)
  | chunked : h.values (text "transfer-encoding") = [text "chunked"] →
      h.values (text "content-length") = [] → Declares h .chunked
  | untilClose : h.values (text "transfer-encoding") = [] →
      h.values (text "content-length") = [] → Declares h .untilClose

/-- The bytes behind a head and the body they carry. -/
inductive Carries : Framing → List UInt8 → List UInt8 → Prop
  | length {data : List UInt8} : Carries (.length data.length) data data
  | chunked (b : Chunked.Body) : Carries .chunked b.encode b.data
  | untilClose {data : List UInt8} : Carries .untilClose data data

-- ---------------------------------------------------------------------------
-- One reading
-- ---------------------------------------------------------------------------

/-- Two texts that go on with the same separator, which is in neither. -/
theorem append_sep_inj {c : UInt8} {a b s t : List UInt8} (ha : c ∉ a) (hb : c ∉ b)
    (h : a ++ c :: s = b ++ c :: t) : a = b ∧ s = t := by
  have htake (x y : List UInt8) (hx : c ∉ x) : (x ++ c :: y).takeWhile (· != c) = x := by
    rw [List.takeWhile_append_of_pos fun d hd => by
      simp only [bne_iff_ne, ne_eq]
      rintro rfl
      exact hx hd]
    simp
  obtain rfl : a = b := by rw [← htake a s ha, ← htake b t hb, h]
  exact ⟨rfl, by simpa using h⟩

theorem encodeLines_inj {ls ls' : List (List UInt8)} {b b' : List UInt8}
    (hl : ∀ l ∈ ls, l ≠ [] ∧ 13 ∉ l) (hl' : ∀ l ∈ ls', l ≠ [] ∧ 13 ∉ l)
    (h : encodeLines ls ++ b = encodeLines ls' ++ b') : ls = ls' ∧ b = b' := by
  -- a line is not empty and does not start with the CR that an end starts with
  have hend {l : List UInt8} (hx : l ≠ [] ∧ 13 ∉ l) {s t : List UInt8} :
      13 :: s ≠ l ++ t := by
    obtain ⟨c, l, rfl⟩ := List.exists_cons_of_ne_nil hx.1
    intro he
    have := (List.cons.inj he).1
    exact hx.2 (by simp [← this])
  induction ls generalizing ls' with
  | nil =>
    cases ls' with
    | nil => exact ⟨rfl, by simpa [encodeLines] using h⟩
    | cons l ls' =>
      simp only [encodeLines, List.flatMap_nil, List.nil_append, List.flatMap_cons,
        List.append_assoc, List.cons_append] at h
      exact absurd h (hend (hl' l (by simp)))
  | cons l ls ih =>
    cases ls' with
    | nil =>
      simp only [encodeLines, List.flatMap_nil, List.nil_append, List.flatMap_cons,
        List.append_assoc, List.cons_append] at h
      exact absurd h.symm (hend (hl l (by simp)))
    | cons l' ls' =>
      simp only [encodeLines, List.flatMap_cons, List.append_assoc, List.cons_append,
        List.nil_append] at h
      obtain ⟨rfl, h⟩ := append_sep_inj (hl l (by simp)).2 (hl' l' (by simp)).2 h
      obtain ⟨rfl, rfl⟩ := ih (fun x hx => hl x (List.mem_cons_of_mem _ hx))
        (fun x hx => hl' x (List.mem_cons_of_mem _ hx))
        (by simpa [encodeLines] using h)
      exact ⟨rfl, rfl⟩

theorem Field.line_inj {f g : Field} (h : f.line = g.line) : f = g := by
  unfold Field.line at h
  simp only [List.append_assoc, List.cons_append, List.nil_append] at h
  obtain ⟨hn, hv⟩ := append_sep_inj f.named.1 g.named.1 h
  exact Field.ext hn (List.cons.inj hv).2

theorem Head.lines_ok (h : Head) : ∀ l ∈ h.lines, l ≠ [] ∧ 13 ∉ l := by
  intro l hl
  rcases List.mem_cons.mp hl with rfl | hl
  · exact h.started
  · obtain ⟨f, -, rfl⟩ := List.mem_map.mp hl
    have h1 := f.named.2
    have h2 := f.valued
    simp [Field.line, h1, h2]

/-- A head is followed by its body and nothing else: there is no other way to
read the bytes. -/
theorem Head.encode_inj {h h' : Head} {b b' : List UInt8}
    (he : h.encode ++ b = h'.encode ++ b') : h = h' ∧ b = b' := by
  obtain ⟨hl, hb⟩ := encodeLines_inj h.lines_ok h'.lines_ok he
  obtain ⟨hs, hf⟩ := List.cons.inj hl
  exact ⟨Head.ext hs (List.map_injective_iff.mpr (fun _ _ => Field.line_inj) hf), hb⟩

-- ---------------------------------------------------------------------------
-- A client's reading
-- ---------------------------------------------------------------------------

/-- The pieces of a text between its CRLFs. -/
def splitLines : List UInt8 → List (List UInt8)
  | [] => [[]]
  | [c] => [[c]]
  | c :: d :: rest =>
    if c = 13 ∧ d = 10 then [] :: splitLines rest
    else
      match splitLines (d :: rest) with
      | line :: lines => (c :: line) :: lines
      | [] => [[c]]

/-- A line before and after its first colon and space. -/
def splitField : List UInt8 → List UInt8 × List UInt8
  | c :: d :: rest =>
    if c = 58 ∧ d = 32 then ([], rest)
    else ((c :: (splitField (d :: rest)).1), (splitField (d :: rest)).2)
  | rest => (rest, [])

theorem splitLines_line {line : List UInt8} (h : 13 ∉ line) (rest : List UInt8) :
    splitLines (line ++ 13 :: 10 :: rest) = line :: splitLines rest := by
  induction line with
  | nil => simp [splitLines]
  | cons c line ih =>
    have hc : c ≠ 13 := fun e => h (e ▸ List.mem_cons_self ..)
    have ih := ih fun hm => h (List.mem_cons_of_mem _ hm)
    cases line with
    | nil =>
      simp only [List.cons_append, List.nil_append] at ih ⊢
      rw [splitLines, if_neg (fun e => hc e.1), ih]
    | cons d line =>
      simp only [List.cons_append] at ih ⊢
      rw [splitLines, if_neg (fun e => hc e.1), ih]

theorem splitField_line {name : List UInt8} (h : 58 ∉ name) (value : List UInt8) :
    splitField (name ++ 58 :: 32 :: value) = (name, value) := by
  induction name with
  | nil => simp [splitField]
  | cons c name ih =>
    have hc : c ≠ 58 := fun e => h (e ▸ List.mem_cons_self ..)
    have ih := ih fun hm => h (List.mem_cons_of_mem _ hm)
    cases name with
    | nil =>
      simp only [List.cons_append, List.nil_append] at ih ⊢
      rw [splitField, if_neg (fun e => hc e.1), ih]
    | cons d name =>
      simp only [List.cons_append] at ih ⊢
      rw [splitField, if_neg (fun e => hc e.1), ih]

/-- A head is read back line by line; its end is an empty line with nothing
behind it. -/
theorem Head.splitLines_encode (h : Head) : splitLines h.encode = h.lines ++ [[], []] := by
  have hl (ls : List (List UInt8)) (hok : ∀ l ∈ ls, l ≠ [] ∧ 13 ∉ l) :
      splitLines (encodeLines ls) = ls ++ [[], []] := by
    induction ls with
    | nil => rfl
    | cons l ls ih =>
      have e : encodeLines (l :: ls) = l ++ 13 :: 10 :: encodeLines ls := by simp [encodeLines]
      rw [e, splitLines_line (hok l (List.mem_cons_self ..)).2,
        ih fun x hx => hok x (List.mem_cons_of_mem _ hx)]
      rfl
  exact hl h.lines h.lines_ok

theorem Field.splitField_line (f : Field) : splitField f.line = (f.name, f.value) := by
  have e : f.line = f.name ++ 58 :: 32 :: f.value := by simp [Field.line]
  rw [e, Message.splitField_line f.named.1]

end Message
