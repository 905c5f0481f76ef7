import Ioxd.Files.Asked
import Ioxd.Http.HeadLaws

/-!
# Byte ranges

`range_of`, `span_of` and what `reply` and `stream` of `lib/http/static.c` do
from there on, with the response they shape. Every subtraction of a `size_t` is
checked here: one that would wrap has no result. A range is what it selects of
a representation.
-/

namespace Ioxd.Files

open Flat Numeral
open Ioxd.Pipe (Byte)
open Ioxd.Http (str sliceTrim parseLength Response header headerLine putUint cstr respHeadCap
  maxRespHeaders sizeMax)
open Ioxd.Http.Static (Range)

-- ---------------------------------------------------------------------------
-- `range_of`
-- ---------------------------------------------------------------------------

/-- `a - b` of two `size_t`, if it does not wrap. -/
def subSize (a b : Nat) : Option Nat := if b ≤ a then some (a - b) else none

/-- `rangeSpec` with every subtraction checked. -/
def rangeSpecChecked (spec : List Byte) (total : Nat) : Option Range :=
  if 44 ∈ spec ∨ 45 ∉ spec then some .none
  else
    let lo := sliceTrim (spec.takeWhile (· != 45))
    let hi := sliceTrim ((spec.dropWhile (· != 45)).drop 1)
    if lo = [] then
      match parseLength hi with
      | none => some .none
      | some b =>
        if b = 0 ∨ total = 0 then some .bad
        else do
          let first ← subSize total (if b > total then total else b)
          let last ← subSize total 1
          return .one first last
    else
      match parseLength lo with
      | none => some .none
      | some a =>
        match if hi = [] then some (2 ^ 64 - 1) else parseLength hi with
        | none => some .none
        | some b =>
          if a ≥ total ∨ a > b then some .bad
          else do
            let last ← if b ≥ total then subSize total 1 else some b
            return .one a last

def Request.rangeChecked (req : Request) (etag : List Byte) (total : Nat) : Option Range :=
  match req.range with
  | none => some .none
  | some range =>
    if ¬ (str "bytes=").isPrefixOf range then some .none
    else if req.ifRange.any (sliceTrim · ≠ etag) then some .none
    else rangeSpecChecked (sliceTrim (range.drop 6)) total

theorem subSize_eq {a b : Nat} (h : b ≤ a) : subSize a b = some (a - b) := if_pos h

theorem rangeSpecChecked_eq (spec : List Byte) (total : Nat) :
    rangeSpecChecked spec total = some (rangeSpec spec total) := by
  unfold rangeSpecChecked rangeSpec
  split
  · rfl
  dsimp only
  split
  · cases parseLength (sliceTrim ((spec.dropWhile (· != 45)).drop 1)) with
    | none => rfl
    | some b =>
      dsimp only
      split
      · rfl
      · rename_i h
        have hmin : (if b > total then total else b) = min b total := by
          split <;> omega
        rw [hmin, subSize_eq (Nat.min_le_right ..), subSize_eq (by omega)]
        rfl
  · cases parseLength (sliceTrim (spec.takeWhile (· != 45))) with
    | none => rfl
    | some a =>
      dsimp only
      generalize (if sliceTrim ((spec.dropWhile (· != 45)).drop 1) = [] then some (2 ^ 64 - 1)
        else parseLength (sliceTrim ((spec.dropWhile (· != 45)).drop 1))) = x
      cases x with
      | none => rfl
      | some b =>
        dsimp only
        split
        · rfl
        · by_cases hb : b ≥ total
          · simp only [if_pos hb]
            rw [subSize_eq (by omega)]
            rfl
          · simp only [if_neg hb]
            rfl

theorem rangeChecked_eq (req : Request) (etag : List Byte) (total : Nat) :
    req.rangeChecked etag total = some (req.rangeOf etag total) := by
  unfold Request.rangeChecked Request.rangeOf
  cases req.range with
  | none => rfl
  | some range =>
    dsimp only
    split
    · rfl
    · split
      · rfl
      · exact rangeSpecChecked_eq ..

/-- A byte range as it is written: `a-b`, `a-` or `-n`. -/
inductive ByteRange
  | closed (a b : Nat)
  | open (a : Nat)
  | suffix (n : Nat)

/-- The bytes a range selects of a representation. -/
def ByteRange.Selects (total i : Nat) : ByteRange → Prop
  | .closed a b => i < total ∧ a ≤ i ∧ i ≤ b
  | .open a => i < total ∧ a ≤ i
  | .suffix n => i < total ∧ total ≤ i + n

/-- The text of a range, with blanks around its numbers. -/
inductive ByteRange.Written (lo hi : List Byte) : ByteRange → Prop
  | closed {a b : Nat} : Decimal (sliceTrim lo) a → Decimal (sliceTrim hi) b →
      Written lo hi (.closed a b)
  | open {a : Nat} : Decimal (sliceTrim lo) a → sliceTrim hi = [] → Written lo hi (.open a)
  | suffix {n : Nat} : sliceTrim lo = [] → Decimal (sliceTrim hi) n → Written lo hi (.suffix n)

/-- Its numbers are of 64 bits. -/
def ByteRange.Fits : ByteRange → Prop
  | .closed a b => a ≤ sizeMax ∧ b ≤ sizeMax
  | .open a => a ≤ sizeMax
  | .suffix n => n ≤ sizeMax

def ByteRange.In (br : ByteRange) (spec : List Byte) : Prop :=
  ∃ lo hi, 44 ∉ spec ∧ spec = lo ++ 45 :: hi ∧ 45 ∉ lo ∧ br.Written lo hi ∧ br.Fits

/-- The range that a request asks for, of the representation with this tag. -/
def Request.AsksFor (req : Request) (etag : List Byte) (br : ByteRange) : Prop :=
  ∃ spec, req.range = some (str "bytes=" ++ spec) ∧
    (∀ tag, req.ifRange = some tag → sliceTrim tag = etag) ∧ br.In (sliceTrim spec)

/-- An answer is of a range asked for, and of what it selects. -/
inductive Answers (asked : ByteRange → Prop) (total : Nat) : Range → Prop
  | none : Answers asked total .none
  | one {br : ByteRange} {first last : Nat} : asked br → first ≤ last → last < total →
      (∀ i, first ≤ i ∧ i ≤ last ↔ br.Selects total i) → Answers asked total (.one first last)
  | bad {br : ByteRange} : asked br → (∀ i, ¬ br.Selects total i) → Answers asked total .bad

theorem Answers.imp {asked asked' : ByteRange → Prop} {total : Nat} {r : Range}
    (h : Answers asked total r) (hi : ∀ br, asked br → asked' br) : Answers asked' total r := by
  cases h with
  | none => exact .none
  | one ha h1 h2 h3 => exact .one (hi _ ha) h1 h2 h3
  | bad ha hno => exact .bad (hi _ ha) hno

theorem rangeSpec_answers (spec : List Byte) {total : Nat} (ht : total ≤ sizeMax) :
    Answers (·.In spec) total (rangeSpec spec total) := by
  unfold rangeSpec
  split
  · exact .none
  rename_i hform
  simp only [not_or, not_not] at hform
  have hsplit : spec = spec.takeWhile (· != 45) ++ 45 :: (spec.dropWhile (· != 45)).drop 1 := by
    have h := @List.takeWhile_append_dropWhile _ (· != (45 : Byte)) spec
    cases hd : spec.dropWhile (· != 45) with
    | nil =>
      rw [List.dropWhile_eq_nil_iff] at hd
      exact absurd (hd 45 hform.2) (by decide)
    | cons c t =>
      have hc := List.head?_dropWhile_not (· != (45 : Byte)) spec
      rw [hd] at hc h
      simp only [List.head?_cons, bne_eq_false_iff_eq] at hc
      rw [hc] at h
      rw [List.drop_one, List.tail_cons]
      exact h.symm
  have hlo : 45 ∉ spec.takeWhile (· != 45) := fun h => by
    have := List.mem_takeWhile_imp h
    simp at this
  generalize spec.takeWhile (· != 45) = lo at *
  generalize (spec.dropWhile (· != 45)).drop 1 = hi at *
  have hin {br : ByteRange} (hw : br.Written lo hi) (hf : br.Fits) : br.In spec :=
    ⟨lo, hi, hform.1, hsplit, hlo, hw, hf⟩
  dsimp only
  split
  · rename_i hl
    cases hb : parseLength (sliceTrim hi) with
    | none => exact .none
    | some b =>
      obtain ⟨hdb, hlb⟩ := Ioxd.Http.parseLength_eq_some.mp hb
      have hw := hin (.suffix hl hdb) hlb
      dsimp only
      split
      · exact .bad hw fun i h => by
          simp only [ByteRange.Selects] at h
          omega
      · refine .one hw (by omega) (by omega) fun i => ?_
        simp only [ByteRange.Selects]
        omega
  · cases ha : parseLength (sliceTrim lo) with
    | none => exact .none
    | some a =>
      obtain ⟨hda, hla⟩ := Ioxd.Http.parseLength_eq_some.mp ha
      dsimp only
      by_cases hh : sliceTrim hi = []
      · have hw := hin (.open hda hh) hla
        unfold sizeMax at ht hla
        rw [if_pos hh]
        dsimp only
        rw [if_pos ht]
        split
        · exact .bad hw fun i h => by
            simp only [ByteRange.Selects] at h
            omega
        · refine .one hw (by omega) (by omega) fun i => ?_
          simp only [ByteRange.Selects]
          omega
      · rw [if_neg hh]
        cases hb : parseLength (sliceTrim hi) with
        | none => exact .none
        | some b =>
          obtain ⟨hdb, hlb⟩ := Ioxd.Http.parseLength_eq_some.mp hb
          have hw := hin (.closed hda hdb) ⟨hla, hlb⟩
          dsimp only
          split
          · exact .bad hw fun i h => by
              simp only [ByteRange.Selects] at h
              omega
          · refine .one hw (by split <;> omega) (by split <;> omega) fun i => ?_
            simp only [ByteRange.Selects]
            split <;> omega

theorem takeWhile_dash {lo : List Byte} (hi : List Byte) (h : 45 ∉ lo) :
    (lo ++ 45 :: hi).takeWhile (· != 45) = lo ∧ (lo ++ 45 :: hi).dropWhile (· != 45) = 45 :: hi := by
  have hp : ∀ c ∈ lo, (c != 45) = true := fun c hc => by
    rw [bne_iff_ne]
    exact fun he => h (he ▸ hc)
  rw [List.takeWhile_append_of_pos hp, List.dropWhile_append_of_pos hp]
  simp

theorem rangeSpec_in {br : ByteRange} {spec : List Byte} {total first last : Nat}
    (hin : br.In spec) (ht : total ≤ sizeMax) (hle : first ≤ last)
    (hsel : ∀ i, first ≤ i ∧ i ≤ last ↔ br.Selects total i) :
    rangeSpec spec total = .one first last := by
  obtain ⟨lo, hi, hcomma, rfl, hlo, hw, hf⟩ := hin
  obtain ⟨htake, hdrop⟩ := takeWhile_dash hi hlo
  -- the ends of the part, and what stands on both sides of it
  have hfirst := (hsel first).mp ⟨Nat.le_refl _, hle⟩
  have hlast := (hsel last).mp ⟨hle, Nat.le_refl _⟩
  have hbefore := hsel (first - 1)
  have hafter := hsel (last + 1)
  unfold rangeSpec
  rw [if_neg (by simp [hcomma]), htake, hdrop, List.drop_one, List.tail_cons]
  dsimp only
  cases hw with
  | closed hda hdb =>
    rw [if_neg hda.1, Ioxd.Http.parseLength_eq_some.mpr ⟨hda, hf.1⟩, if_neg hdb.1,
      Ioxd.Http.parseLength_eq_some.mpr ⟨hdb, hf.2⟩]
    simp only [ByteRange.Selects] at hfirst hlast hbefore hafter
    dsimp only
    rw [if_neg (by omega), Range.one.injEq]
    refine ⟨by omega, ?_⟩
    split <;> omega
  | «open» hda hh =>
    rw [if_neg hda.1, Ioxd.Http.parseLength_eq_some.mpr ⟨hda, hf⟩, if_pos hh]
    simp only [ByteRange.Selects] at hfirst hlast hbefore hafter
    unfold sizeMax at ht
    dsimp only
    rw [if_neg (by omega), Range.one.injEq]
    refine ⟨by omega, ?_⟩
    split <;> omega
  | suffix hl hdb =>
    rw [if_pos hl, Ioxd.Http.parseLength_eq_some.mpr ⟨hdb, hf⟩]
    simp only [ByteRange.Selects] at hfirst hlast hbefore hafter
    dsimp only
    rw [if_neg (by omega), Range.one.injEq]
    exact ⟨by omega, by omega⟩

theorem rangeOf_answers (req : Request) (etag : List Byte) {total : Nat} (ht : total ≤ sizeMax) :
    Answers (req.AsksFor etag) total (req.rangeOf etag total) := by
  unfold Request.rangeOf
  cases hr : req.range with
  | none => exact .none
  | some range =>
    dsimp only
    split
    · exact .none
    · rename_i hp
      split
      · exact .none
      · rename_i hif
        rw [not_not, List.isPrefixOf_iff_prefix] at hp
        obtain ⟨spec, rfl⟩ := hp
        have hdrop : (str "bytes=" ++ spec).drop 6 = spec := List.drop_left' (by decide)
        rw [hdrop]
        refine (rangeSpec_answers _ ht).imp fun br hbr => ⟨spec, hr, fun tag htag => ?_, hbr⟩
        simpa [htag] using hif

/-- The request asks for these bytes of a representation. -/
def Request.Asks (req : Request) (etag : List Byte) (total first last : Nat) : Prop :=
  first ≤ last ∧
    ∃ br, req.AsksFor etag br ∧ ∀ i, first ≤ i ∧ i ≤ last ↔ br.Selects total i

theorem rangeOf_eq_one_iff {req : Request} {etag : List Byte} {total first last : Nat}
    (ht : total ≤ sizeMax) :
    req.rangeOf etag total = .one first last ↔ req.Asks etag total first last := by
  constructor
  · intro hr
    have ha := hr ▸ rangeOf_answers req etag ht
    cases ha with
    | one hasks hle _ hsel => exact ⟨hle, _, hasks, hsel⟩
  · rintro ⟨hle, br, ⟨spec, hr, hif, hin⟩, hsel⟩
    have hp : (str "bytes=").isPrefixOf (str "bytes=" ++ spec) = true :=
      List.isPrefixOf_iff_prefix.mpr (List.prefix_append ..)
    have hdrop : (str "bytes=" ++ spec).drop 6 = spec := List.drop_left' (by decide)
    have hany : ¬ (req.ifRange.any (sliceTrim · ≠ etag)) = true := fun h => by
      cases htag : req.ifRange with
      | none => simp [htag] at h
      | some tag => simp [htag, hif tag htag] at h
    unfold Request.rangeOf
    rw [hr]
    dsimp only
    rw [if_neg (not_not.mpr hp), if_neg hany, hdrop]
    exact rangeSpec_in hin ht hle hsel

-- ---------------------------------------------------------------------------
-- The part
-- ---------------------------------------------------------------------------

/-- What `snprintf` leaves of a text in a buffer. -/
def snprintf (cap : Nat) (text : List Byte) : List Byte := text.take (cap - 1)

/-- `content_range`. -/
def contentRange (res : Response) (span : List Byte) (total : Nat) : Response :=
  (header res (str "content-range")
    (snprintf 80 (str "bytes " ++ span ++ str "/" ++ putUint total))).2

/-- `span_of`, with the response: no value for a 416. -/
def spanInto (req : Request) (etag : List Byte) (total : Nat) (res : Response) :
    Option (Response × Option (Nat × Nat)) := do
  match ← req.rangeChecked etag total with
  | .bad => return (contentRange { res with status := 416 } (str "*") total, none)
  | .one first last =>
    let span := snprintf 48 (putUint first ++ str "-" ++ putUint last)
    let res := contentRange { res with status := 206 } span total
    let n ← subSize last first
    return (res, some (first, n + 1))
  | .none => return (res, some (0, total))

/-- A representation: its length is a `size_t`. -/
structure Data where
  bytes : List Byte
  fits : bytes.length ≤ sizeMax

/-- What goes out from `span_of` on: the response, and the bytes of its body. -/
abbrev Out := Response × List Byte

/-- `reply` from `span_of` on: one `ioxd_write` of bytes that have to be there. -/
def replySpan (req : Request) (etag : List Byte) (data : Data) (res : Response) :
    Option Out := do
  match ← spanInto req etag data.bytes.length res with
  | (res, none) => return (res, [])
  | (res, some (first, n)) =>
    let res := (Ioxd.Http.contentLength res (UInt64.ofNat n)).2
    if req.head then return (res, [])
    else if first + n ≤ data.bytes.length then return (res, (data.bytes.drop first).take n)
    else none

def piece : Nat := 16384

/-- What a turn of the loop of `stream` comes to: whether there is a place for
the bytes, and how many the kernel is ready to read there, if it does not fail. -/
structure Turn where
  reserved : Bool
  ready : Option Nat

/-- `read_at`: as many bytes as the kernel is ready to read and the file has. -/
def readAt (file : List Byte) (ready : Option Nat) (n off : Nat) : List Byte :=
  match ready with
  | none => []
  | some k => (file.drop off).take (min k n)

/-- The loop of `stream`, with what each turn comes to. -/
def streamLoop (file : List Byte) (turn : Nat → Turn) (t off n : Nat) : List Byte :=
  if n = 0 ∨ (turn t).reserved = false then []
  else
    match readAt file (turn t).ready (min n piece) off with
    | [] => []
    | c :: got => c :: got ++ streamLoop file turn (t + 1) (off + (got.length + 1))
        (n - (got.length + 1))
termination_by n
decreasing_by
  omega

/-- `stream` from `span_of` on. -/
def streamSpan (req : Request) (etag : List Byte) (file : Data) (turn : Nat → Turn)
    (res : Response) : Option Out := do
  match ← spanInto req etag file.bytes.length res with
  | (res, none) => return (res, [])
  | (res, some (first, n)) =>
    let res := (Ioxd.Http.contentLength res (UInt64.ofNat n)).2
    if req.head then return (res, [])
    else return (res, streamLoop file.bytes turn 0 first n)

def Smooth (turn : Nat → Turn) : Prop :=
  ∀ t, (turn t).reserved = true ∧ ∃ k, (turn t).ready = some (k + 1)

theorem length_readAt_le (file : List Byte) (ready : Option Nat) (n off : Nat) :
    (readAt file ready n off).length ≤ n := by
  cases ready with
  | none => exact Nat.zero_le _
  | some k =>
    rw [readAt, List.length_take]
    omega

theorem readAt_eq (file : List Byte) (ready : Option Nat) (n off : Nat) :
    readAt file ready n off = (file.drop off).take (readAt file ready n off).length := by
  cases ready with
  | none => rfl
  | some k =>
    rw [readAt, List.length_take]
    exact List.take_eq_take_min

/-- Pieces read one behind the other are the bytes read at once. -/
theorem take_drop_add (file : List Byte) {off k n : Nat} (h : k ≤ n) :
    (file.drop off).take n =
      (file.drop off).take k ++ (file.drop (off + k)).take (n - k) := by
  obtain ⟨d, rfl⟩ := Nat.exists_eq_add_of_le h
  rw [List.take_add, List.drop_drop, Nat.add_sub_cancel_left]

theorem streamLoop_prefix (file : List Byte) (turn : Nat → Turn) (t off n : Nat) :
    streamLoop file turn t off n <+: (file.drop off).take n := by
  fun_induction streamLoop file turn t off n with
  | case1 => exact List.nil_prefix
  | case2 => exact List.nil_prefix
  | case3 t off n _ c got hgot ih =>
    have hle := (length_readAt_le file (turn t).ready (min n piece) off).trans (Nat.min_le_left ..)
    have heq := readAt_eq file (turn t).ready (min n piece) off
    rw [hgot] at hle heq
    rw [take_drop_add file hle, ← heq]
    exact (List.prefix_append_right_inj _).mpr ih

theorem streamLoop_all {file : List Byte} {turn : Nat → Turn} (hs : Smooth turn) {t off n : Nat}
    (h : off + n ≤ file.length) : streamLoop file turn t off n = (file.drop off).take n := by
  fun_induction streamLoop file turn t off n with
  | case1 t off n hstop =>
    rcases hstop with rfl | hr
    · rfl
    · rw [(hs t).1] at hr
      cases hr
  | case2 t off n hgo hgot =>
    obtain ⟨k, hk⟩ := (hs t).2
    have hpos : 0 < n := Nat.pos_of_ne_zero fun h0 => hgo (.inl h0)
    have hlen := congrArg List.length hgot
    rw [hk, readAt, List.length_take, List.length_drop, List.length_nil] at hlen
    unfold piece at hlen
    omega
  | case3 t off n _ c got hgot ih =>
    have hle := (length_readAt_le file (turn t).ready (min n piece) off).trans (Nat.min_le_left ..)
    have heq := readAt_eq file (turn t).ready (min n piece) off
    rw [hgot] at hle heq
    rw [List.length_cons] at hle
    rw [take_drop_add file hle, ih (by omega), ← List.length_cons, ← heq]

end Ioxd.Files
