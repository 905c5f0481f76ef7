import Ioxd.Lib.Numeral

/-!
# The chunked transfer coding

A body in chunks as a value that cannot be ill-formed, its encoding and the
data it carries. A size is any spelling of the data's length in hex digits; an
extension is blanks, a semicolon and some text; no line has a CRLF inside.

A cursor is a place in a stream of such bytes, and `Steps` is how a decoder
gets on from there: it stops at the first violation, since no step leads over
it.
-/

namespace Chunked

open Numeral

abbrev crlf : List UInt8 := [13, 10]

def Extension (s : List UInt8) : Prop :=
  s = [] ∨ ∃ blanks text, s = blanks ++ 59 :: text ∧ (∀ c ∈ blanks, c = 32 ∨ c = 9) ∧
    text ≠ [] ∧ ¬ crlf <:+: text

theorem extension_nil : Extension [] := .inl rfl

structure Chunk where
  size : List UInt8
  ext : List UInt8
  data : List UInt8
  sized : Hex size data.length
  extended : Extension ext
  nonempty : data ≠ []

def Chunk.encode (c : Chunk) : List UInt8 := c.size ++ c.ext ++ crlf ++ c.data ++ crlf

/-- The chunks of a body, the spelling of its last size, and its trailers. -/
structure Body where
  chunks : List Chunk
  lastSize : List UInt8
  lastExt : List UInt8
  trailers : List (List UInt8)
  zero : Hex lastSize 0
  extended : Extension lastExt
  lines : ∀ t ∈ trailers, t ≠ [] ∧ ¬ crlf <:+: t

def encodeTrailers (lines : List (List UInt8)) : List UInt8 := lines.flatMap (· ++ crlf) ++ crlf

namespace Body

def encode (b : Body) : List UInt8 :=
  b.chunks.flatMap Chunk.encode ++ (b.lastSize ++ b.lastExt ++ crlf ++ encodeTrailers b.trailers)

def data (b : Body) : List UInt8 := b.chunks.flatMap (·.data)

end Body

-- ---------------------------------------------------------------------------
-- Decoding
-- ---------------------------------------------------------------------------

/-- What is to be read, how much of it is left of a chunk, and whether the
body is behind. -/
@[ext] structure Cursor where
  stream : List UInt8
  left : Nat
  done : Bool

section Decoding

-- a size that is not representable and trailers that are too long are violations too
variable (sizeMax trailerMax : Nat)

inductive Step : Cursor → List UInt8 → Cursor → Prop
  | size {size ext s : List UInt8} {n : Nat} : Hex size n → Extension ext → 0 < n → n ≤ sizeMax →
      Step ⟨size ++ ext ++ crlf ++ s, 0, false⟩ [] ⟨s, n, false⟩
  | part {data s : List UInt8} {n : Nat} : data ≠ [] → data.length < n →
      Step ⟨data ++ s, n, false⟩ data ⟨s, n - data.length, false⟩
  | whole {data s : List UInt8} : data ≠ [] →
      Step ⟨data ++ crlf ++ s, data.length, false⟩ data ⟨s, 0, false⟩
  | last {size ext s : List UInt8} {lines : List (List UInt8)} : Hex size 0 → Extension ext →
      (∀ t ∈ lines, t ≠ [] ∧ ¬ crlf <:+: t) → (encodeTrailers lines).length ≤ trailerMax →
      Step ⟨size ++ ext ++ crlf ++ encodeTrailers lines ++ s, 0, false⟩ [] ⟨s, 0, true⟩

/-- Steps one after the other, and all the data they deliver. -/
inductive Steps : Cursor → List UInt8 → Cursor → Prop
  | refl (c : Cursor) : Steps c [] c
  | step {c c' c'' : Cursor} {d d' : List UInt8} : Step sizeMax trailerMax c d c' →
      Steps c' d' c'' → Steps c (d ++ d') c''

variable {sizeMax trailerMax}

theorem Steps.single (h : Step sizeMax trailerMax c d c') : Steps sizeMax trailerMax c d c' := by
  have := Steps.step h (.refl c')
  rwa [List.append_nil] at this

theorem Steps.trans (h : Steps sizeMax trailerMax c d c')
    (h' : Steps sizeMax trailerMax c' d' c'') : Steps sizeMax trailerMax c (d ++ d') c'' := by
  induction h with
  | refl => exact h'
  | step hs _ ih =>
    rw [List.append_assoc]
    exact .step hs (ih h')

theorem Step.shorter (h : Step sizeMax trailerMax c d c') : c'.stream.length < c.stream.length := by
  cases h with
  | size => simp only [List.length_append, List.length_cons]; omega
  | part hne =>
    have := List.length_pos_iff.mpr hne
    simp only [List.length_append]
    omega
  | whole hne => simp only [List.length_append, List.length_cons]; omega
  | last => simp only [List.length_append, List.length_cons]; omega

theorem Steps.shorter (h : Steps sizeMax trailerMax c d c') :
    c'.stream.length ≤ c.stream.length ∧ (d ≠ [] → c'.stream.length < c.stream.length) := by
  induction h with
  | refl => exact ⟨Nat.le_refl _, fun h => absurd rfl h⟩
  | step hs _ ih =>
    have h1 := hs.shorter
    exact ⟨by omega, fun _ => by omega⟩

theorem steps_chunks {cs : List Chunk} (h : ∀ c ∈ cs, c.data.length ≤ sizeMax)
    (s : List UInt8) : Steps sizeMax trailerMax ⟨cs.flatMap Chunk.encode ++ s, 0, false⟩
      (cs.flatMap (·.data)) ⟨s, 0, false⟩ := by
  induction cs with
  | nil => exact .refl _
  | cons c cs ih =>
    have hr := ih fun c hc => h c (List.mem_cons_of_mem _ hc)
    have hw : Step sizeMax trailerMax ⟨c.data ++ crlf ++ (cs.flatMap Chunk.encode ++ s),
        c.data.length, false⟩ c.data _ := .whole c.nonempty
    have hs : Step sizeMax trailerMax ⟨c.size ++ c.ext ++ crlf ++
        (c.data ++ crlf ++ (cs.flatMap Chunk.encode ++ s)), 0, false⟩ [] _ :=
      .size c.sized c.extended (List.length_pos_iff.mpr c.nonempty) (h c (by simp))
    have hall := Steps.step hs (.step hw hr)
    simpa [Chunk.encode] using hall

theorem Body.steps (b : Body) (h : ∀ c ∈ b.chunks, c.data.length ≤ sizeMax)
    (ht : (encodeTrailers b.trailers).length ≤ trailerMax) (s : List UInt8) :
    Steps sizeMax trailerMax ⟨b.encode ++ s, 0, false⟩ b.data ⟨s, 0, true⟩ := by
  have hl : Step sizeMax trailerMax ⟨b.lastSize ++ b.lastExt ++ crlf ++
      encodeTrailers b.trailers ++ s, 0, false⟩ [] _ := .last b.zero b.extended b.lines ht
  have hall := (steps_chunks h _).trans (.single hl)
  simpa [Body.encode, Body.data] using hall

theorem Body.encode_ends (b : Body) : ∃ s, b.encode = s ++ crlf :=
  ⟨b.chunks.flatMap Chunk.encode ++ (b.lastSize ++ b.lastExt ++ crlf ++
    b.trailers.flatMap (· ++ crlf)), by simp [Body.encode, encodeTrailers]⟩

theorem Body.data_length_le (b : Body) {c : Chunk} (h : c ∈ b.chunks) :
    c.data.length ≤ b.encode.length := by
  have hs := (List.sublist_flatten_of_mem (List.mem_map_of_mem (f := Chunk.encode) h)).length_le
  rw [← List.flatMap_def] at hs
  rw [Body.encode, List.length_append]
  simp only [Chunk.encode, List.length_append] at hs ⊢
  omega

theorem Steps.length_le (h : Steps sizeMax trailerMax c d c') :
    d.length + c'.stream.length ≤ c.stream.length := by
  induction h with
  | refl => simp
  | step hs _ ih =>
    cases hs <;> simp only [List.length_append, List.length_cons, List.length_nil] at ih ⊢ <;> omega

/-- A place in a body, by what is behind it: the bytes and the data they
carry. -/
inductive Within : List UInt8 → List UInt8 → Nat → Prop
  | between (cs : List Chunk) : Within (cs.flatMap Chunk.encode) (cs.flatMap (·.data)) 0
  | inside (cs : List Chunk) {size ext part : List UInt8} {left : Nat} :
      Hex size (part.length + left) → Extension ext → 0 < left →
      Within (cs.flatMap Chunk.encode ++ (size ++ ext ++ crlf ++ part))
        (cs.flatMap (·.data) ++ part) left

/-- The steps up to a cursor read a body, or the beginning of one. -/
theorem Step.within (h : Step sizeMax trailerMax c d c') (hw : Within r dr c.left) :
    ∃ r', c.stream = r' ++ c'.stream ∧
      if c'.done then ∃ b : Body, r ++ r' = b.encode ∧ dr ++ d = b.data ∧
        (encodeTrailers b.trailers).length ≤ trailerMax
      else Within (r ++ r') (dr ++ d) c'.left := by
  cases h with
  | @size size ext s n hs he hn _ =>
    refine ⟨size ++ ext ++ crlf, by simp, ?_⟩
    cases hw with
    | inside cs _ _ h0 => exact absurd h0 (Nat.lt_irrefl 0)
    | between cs =>
      have h := @Within.inside cs _ _ [] _ (by simpa using hs) he hn
      simpa using h
  | @part _ s n _ hlt =>
    refine ⟨d, rfl, ?_⟩
    cases hw with
    | between cs => exact absurd hlt (Nat.not_lt_zero _)
    | @inside cs size ext part left hs he h0 =>
      have h := @Within.inside cs size ext (part ++ d) (n - d.length) ?_ he (by omega)
      · simpa using h
      · have : (part ++ d).length + (n - d.length) = part.length + n := by
          rw [List.length_append]
          omega
        rwa [this]
  | @whole _ s hne =>
    refine ⟨d ++ crlf, by simp, ?_⟩
    dsimp only at hw
    generalize hn : d.length = n at hw
    cases hw with
    | between cs => exact absurd (List.length_eq_zero_iff.mp hn) hne
    | @inside cs size ext part left hs he h0 =>
      have h := Within.between (cs ++ [⟨size, ext, part ++ d, by
        rw [List.length_append, hn]; exact hs, he, by simp [hne]⟩])
      simpa [Chunk.encode] using h
  | @last size ext s lines hs he hl hlen =>
    refine ⟨size ++ ext ++ crlf ++ encodeTrailers lines, by simp, ?_⟩
    cases hw with
    | inside cs _ _ h0 => exact absurd h0 (Nat.lt_irrefl 0)
    | between cs =>
      exact ⟨⟨cs, size, ext, lines, hs, he, hl⟩, rfl, by simp [Body.data], hlen⟩

theorem Steps.within (h : Steps sizeMax trailerMax c d c') (hw : Within r dr c.left)
    (hc : c.done = false) :
    ∃ r', c.stream = r' ++ c'.stream ∧
      if c'.done then ∃ b : Body, r ++ r' = b.encode ∧ dr ++ d = b.data ∧
        (encodeTrailers b.trailers).length ≤ trailerMax
      else Within (r ++ r') (dr ++ d) c'.left := by
  induction h generalizing r dr with
  | refl c => exact ⟨[], rfl, by simpa [hc] using hw⟩
  | @step c c' c'' d d' hs hss ih =>
    obtain ⟨r₁, h1, hb⟩ := hs.within hw
    by_cases hd : c'.done = true
    · rw [if_pos hd] at hb
      -- no step leads on from the end
      cases hss with
      | refl => exact ⟨r₁, h1, by rw [if_pos hd]; simpa using hb⟩
      | step hs' => cases hs' <;> simp at hd
    · rw [if_neg hd] at hb
      obtain ⟨r₂, h2, hb'⟩ := ih hb (by simpa using hd)
      refine ⟨r₁ ++ r₂, by rw [h1, h2, List.append_assoc], ?_⟩
      simpa [List.append_assoc] using hb'

-- ---------------------------------------------------------------------------
-- What is ahead
-- ---------------------------------------------------------------------------

variable (sizeMax trailerMax) in
/-- A place in a body, by what is ahead: the data in pieces, the chunk in
progress and the chunks after it, and the bytes behind the body. -/
inductive Ahead (rest : List UInt8) : Cursor → List (List UInt8) → Prop
  | between (b : Body) : (∀ c ∈ b.chunks, c.data.length ≤ sizeMax) →
      (encodeTrailers b.trailers).length ≤ trailerMax →
      Ahead rest ⟨b.encode ++ rest, 0, false⟩ (b.chunks.map (·.data))
  | inside (b : Body) {part : List UInt8} : part ≠ [] →
      (∀ c ∈ b.chunks, c.data.length ≤ sizeMax) →
      (encodeTrailers b.trailers).length ≤ trailerMax →
      Ahead rest ⟨part ++ crlf ++ (b.encode ++ rest), part.length, false⟩
        (part :: b.chunks.map (·.data))
  | behind : Ahead rest ⟨rest, 0, true⟩ []

theorem Ahead.nonempty (h : Ahead sizeMax trailerMax rest c ps) : ∀ p ∈ ps, p ≠ [] := by
  have hb (b : Body) : ∀ p ∈ b.chunks.map (·.data), p ≠ [] := by
    intro p hp
    obtain ⟨c, -, rfl⟩ := List.mem_map.mp hp
    exact c.nonempty
  cases h with
  | between b => exact hb b
  | inside b hne =>
    rintro p hp
    rcases List.mem_cons.mp hp with rfl | hp
    · exact hne
    · exact hb b p hp
  | behind => simp

theorem Ahead.of_done (h : Ahead sizeMax trailerMax rest c ps) (hd : c.done = true) :
    ps = [] ∧ c.stream = rest := by
  cases h with
  | between | inside => cases hd
  | behind => exact ⟨rfl, rfl⟩

theorem Ahead.head (h : Ahead sizeMax trailerMax rest c ps) (h0 : 0 < c.left) :
    ∃ p ps', ps = p :: ps' ∧ p.length = c.left := by
  cases h with
  | between | behind => exact absurd h0 (Nat.lt_irrefl 0)
  | inside => exact ⟨_, _, rfl, rfl⟩

/-- The body behind its first chunk. -/
def Body.tail (b : Body) : Body := { b with chunks := b.chunks.tail }

theorem Body.encode_cons {b : Body} {c : Chunk} {cs : List Chunk} (h : b.chunks = c :: cs) :
    b.encode = c.size ++ c.ext ++ crlf ++ (c.data ++ crlf ++ b.tail.encode) := by
  simp [Body.encode, Body.tail, h, Chunk.encode]

theorem Body.encode_nil {b : Body} (h : b.chunks = []) :
    b.encode = b.lastSize ++ b.lastExt ++ crlf ++ encodeTrailers b.trailers := by
  simp [Body.encode, h]

/-- Short of the end there is a step to make, and no chunk is torn. -/
theorem Ahead.going (h : Ahead sizeMax trailerMax rest c ps) (hd : c.done = false) :
    (∃ d c', Step sizeMax trailerMax c d c') ∧
      (0 < c.left → (c.stream.drop c.left).take 2 = crlf) := by
  cases h with
  | between b hs ht =>
    refine ⟨?_, fun h0 => absurd h0 (Nat.lt_irrefl 0)⟩
    cases hc : b.chunks with
    | nil =>
      rw [Body.encode_nil hc]
      exact ⟨_, _, .last b.zero b.extended b.lines ht⟩
    | cons c cs =>
      rw [Body.encode_cons hc, List.append_assoc]
      exact ⟨_, _, .size c.sized c.extended (List.length_pos_iff.mpr c.nonempty)
        (hs c (by simp [hc]))⟩
  | inside b hne =>
    refine ⟨⟨_, _, .whole hne⟩, fun _ => ?_⟩
    rw [List.append_assoc]
    dsimp only
    rw [List.drop_left]
    exact List.take_left' rfl
  | behind => cases hd

end Decoding

-- ---------------------------------------------------------------------------
-- Data in pieces
-- ---------------------------------------------------------------------------

/-- What is left of the pieces behind their first `n` bytes. -/
def dropData : Nat → List (List α) → List (List α)
  | _, [] => []
  | n, p :: ps => if n < p.length then p.drop n :: ps else dropData (n - p.length) ps

theorem dropData_zero {ps : List (List α)} (h : ∀ p ∈ ps, p ≠ []) : dropData 0 ps = ps := by
  cases ps with
  | nil => rfl
  | cons p ps => rw [dropData, if_pos (List.length_pos_iff.mpr (h p (by simp))), List.drop_zero]

theorem flatten_dropData (n : Nat) (ps : List (List α)) :
    (dropData n ps).flatten = ps.flatten.drop n := by
  induction ps generalizing n with
  | nil => simp [dropData]
  | cons p ps ih =>
    rw [dropData, List.flatten_cons, List.drop_append]
    by_cases hn : n < p.length
    · rw [if_pos hn, List.flatten_cons, show n - p.length = 0 by omega, List.drop_zero]
    · rw [if_neg hn, ih, List.drop_eq_nil_of_le (Nat.le_of_not_lt hn), List.nil_append]

theorem dropData_all {n : Nat} {ps : List (List α)} (h : ps.flatten.length ≤ n) :
    dropData n ps = [] := by
  induction ps generalizing n with
  | nil => rfl
  | cons p ps ih =>
    rw [List.flatten_cons, List.length_append] at h
    rw [dropData, if_neg (by omega)]
    exact ih (by omega)

end Chunked
