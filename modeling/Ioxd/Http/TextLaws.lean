import Ioxd.Http.Text
import Ioxd.Lib.Numeral
import Mathlib.Data.List.TakeWhile

/-!
# What the text helpers compute

The word-at-a-time lower-casing is the byte loop, `parse_length` reads a
decimal number that fits, and the tokens found one by one are the non-empty
parts of the value between commas, trimmed.
-/

namespace Ioxd.Http

open Flat Lanes Numeral
open Ioxd.Pipe (Byte)

-- ---------------------------------------------------------------------------
-- Names
-- ---------------------------------------------------------------------------

theorem forall_byte {P : Byte → Prop} (h : ∀ n : Fin 256, P (UInt8.ofNat n)) (c : Byte) : P c := by
  have := h ⟨c.toNat, c.toNat_lt⟩
  simpa using this

set_option maxRecDepth 4096 in
theorem lower_byte (c : Byte) : (if c - 65 < 26 then c + 32 else c) = lowerAscii c :=
  forall_byte (P := fun c => (if c - 65 < 26 then c + 32 else c) = lowerAscii c)
    (by decide +kernel) c

theorem lowerAscii_high (c : Byte) : 128 ≤ c.toNat → 128 ≤ (lowerAscii c).toNat :=
  forall_byte (P := fun c => 128 ≤ c.toNat → 128 ≤ (lowerAscii c).toNat) (by decide +kernel) c

/-- The one bit of a byte that lower-casing sets, from the top bits of the two
sums. -/
theorem lowerAscii_testBit (c : Byte) : c.toNat < 128 → ∀ r < 8,
    (lowerAscii c).toNat.testBit r = (c.toNat.testBit r ||
      (decide (r = 5) && ((c + 0x3f).toNat.testBit 7 && !(c + 0x25).toNat.testBit 7))) :=
  forall_byte (P := fun c => c.toNat < 128 → ∀ r < 8, (lowerAscii c).toNat.testBit r =
    (c.toNat.testBit r ||
      (decide (r = 5) && ((c + 0x3f).toNat.testBit 7 && !(c + 0x25).toNat.testBit 7))))
    (by decide +kernel) c

theorem toNat_ofNat_pack {bs : List Byte} (h : bs.length = 8) :
    (UInt64.ofNat (pack bs)).toNat = pack bs := by
  have := pack_lt bs
  rw [h] at this
  rw [UInt64.toNat_ofNat']
  exact Nat.mod_eq_of_lt this

theorem lowerWord_sum {bs : List Byte} (h : bs.length = 8) (hlow : ∀ b ∈ bs, b.toNat < 128)
    (c : Byte) (hc : c.toNat ≤ 64) {k : UInt64} (hk : k.toNat = pack (List.replicate 8 c)) :
    (UInt64.ofNat (pack bs) + k).toNat = pack (bs.map (· + c)) := by
  have hs : pack bs + pack (List.replicate bs.length c) = pack (bs.map (· + c)) :=
    pack_add fun b hb => by have := hlow b hb; omega
  have hlt := pack_lt (bs.map (· + c))
  rw [h, ← hk] at hs
  rw [List.length_map, h] at hlt
  rw [UInt64.toNat_add, toNat_ofNat_pack h, hs]
  exact Nat.mod_eq_of_lt hlt

theorem lowerWord_eq {bs : List Byte} (h : bs.length = 8) (hlow : ∀ b ∈ bs, b.toNat < 128) :
    lowerWord bs = bs.map lowerAscii := by
  have hlen : (bs.map lowerAscii).length = 8 := by simpa using h
  have h1 := lowerWord_sum h hlow 0x3f (by decide) (k := 0x3f3f3f3f3f3f3f3f) (by decide)
  have h2 := lowerWord_sum h hlow 0x25 (by decide) (k := 0x2525252525252525) (by decide)
  have hm : (0x8080808080808080 : UInt64).toNat = pack (List.replicate 8 0x80) := by decide
  unfold lowerWord
  dsimp only
  conv => lhs; rw [← hlen]
  refine unpack_eq fun i hi => ?_
  rw [hlen] at hi
  have hk : i / 8 < bs.length := by omega
  have hget (f : Byte → Byte) : (bs.map f).getD (i / 8) 0 = f (bs.get ⟨i / 8, hk⟩) := by
    simp [List.getD_eq_getElem?_getD, hk]
  have hb : bs.getD (i / 8) 0 = bs.get ⟨i / 8, hk⟩ := by simp [List.getD_eq_getElem?_getD, hk]
  rw [hget, lowerAscii_testBit _ (hlow _ (List.get_mem ..)) _ (Nat.mod_lt _ (by omega)),
    UInt64.toNat_or, UInt64.toNat_shiftRight, Nat.testBit_or, toNat_ofNat_pack h, testBit_pack, hb]
  refine congrArg (fun b => (bs.get ⟨i / 8, hk⟩).toNat.testBit (i % 8) || b) ?_
  have h3 : (2 : UInt64).toNat % 64 = 2 := by decide
  rw [h3, Nat.testBit_shiftRight, UInt64.toNat_and, UInt64.toNat_and, Nat.testBit_and,
    Nat.testBit_and, hm, testBit_pack (List.replicate 8 0x80), h1, testBit_pack]
  have hnot (x : UInt64) (j : Nat) (hj : j < 64) : (~~~ x).toNat.testBit j = !x.toNat.testBit j := by
    rw [UInt64.toNat_not, show UInt64.size - 1 - x.toNat = 2 ^ 64 - (x.toNat + 1) by
      simp only [UInt64.size]; omega, Nat.testBit_two_pow_sub_succ x.toNat_lt]
    simp [hj]
  -- the mask leaves the top bit of each byte, which the shift brings to bit 5
  by_cases h5 : i % 8 = 5
  · have e1 : (2 + i) / 8 = i / 8 := by omega
    have e2 : (2 + i) % 8 = 7 := by omega
    have e3 : (List.replicate 8 (0x80 : Byte)).getD (i / 8) 0 = 0x80 := by
      rw [List.getD_eq_getElem?_getD, List.getElem?_replicate, if_pos (by omega)]
      rfl
    rw [hnot _ _ (by omega), h2, testBit_pack, e1, e2, e3, hget, hget, h5]
    simp [show (128 : Nat).testBit 7 = true by decide]
  · have e3 : ((List.replicate 8 (0x80 : Byte)).getD ((2 + i) / 8) 0).toNat.testBit ((2 + i) % 8)
        = false := by
      have hr : (2 + i) % 8 < 7 := by omega
      have ht : ∀ r < 7, (128 : Nat).testBit r = false := by decide
      rw [List.getD_eq_getElem?_getD, List.getElem?_replicate]
      split
      · exact ht _ hr
      · simp
    rw [e3, Bool.and_false, decide_eq_false h5, Bool.false_and]

/-- The word loop only ever sets bits, so a byte with its top bit set keeps
it. -/
theorem lowerWord_high {bs : List Byte} (h : bs.length = 8) {b : Byte} (hb : b ∈ bs)
    (hhigh : 128 ≤ b.toNat) : ∃ c ∈ lowerWord bs, 128 ≤ c.toNat := by
  obtain ⟨k, hk, rfl⟩ := List.getElem_of_mem hb
  have hbit : ∀ c : Byte, 128 ≤ c.toNat ↔ c.toNat.testBit 7 = true :=
    forall_byte (P := fun c => 128 ≤ c.toNat ↔ c.toNat.testBit 7 = true) (by decide +kernel)
  have hlen : k < (lowerWord bs).length := by simp [lowerWord]; omega
  have hget : (lowerWord bs).getD k 0 = (lowerWord bs).get ⟨k, hlen⟩ := by
    simp [List.getD_eq_getElem?_getD, hlen]
  refine ⟨(lowerWord bs).get ⟨k, hlen⟩, List.get_mem .., ?_⟩
  rw [hbit, ← hget]
  unfold lowerWord
  dsimp only
  rw [testBit_unpack (by omega) (by omega), UInt64.toNat_or, Nat.testBit_or, toNat_ofNat_pack h,
    testBit_pack, show (8 * k + 7) / 8 = k by omega, show (8 * k + 7) % 8 = 7 by omega,
    List.getD_eq_getElem?_getD, List.getElem?_eq_getElem hk]
  simp [(hbit _).mp hhigh]

theorem lowerInplace_eq {s : List Byte} (h : ∀ c ∈ s, c.toNat < 128) :
    lowerInplace s = s.map lowerAscii := by
  fun_induction lowerInplace s with
  | case1 b0 b1 b2 b3 b4 b5 b6 b7 rest ih =>
    rw [lowerWord_eq rfl fun b hb => h b ?_, ih fun c hc => h c ?_]
    · rfl
    · exact List.mem_append_right [b0, b1, b2, b3, b4, b5, b6, b7] hc
    · exact List.mem_append_left rest hb
  | case2 s => simp [lower_byte]

theorem lowerInplace_high {s : List Byte} {b : Byte} (hb : b ∈ s) (hhigh : 128 ≤ b.toNat) :
    ∃ c ∈ lowerInplace s, 128 ≤ c.toNat := by
  fun_induction lowerInplace s with
  | case1 b0 b1 b2 b3 b4 b5 b6 b7 rest ih =>
    rcases List.mem_append.mp (show b ∈ [b0, b1, b2, b3, b4, b5, b6, b7] ++ rest from hb) with hm | hm
    · obtain ⟨c, hc, hch⟩ := lowerWord_high rfl hm hhigh
      exact ⟨c, List.mem_append_left _ hc, hch⟩
    · obtain ⟨c, hc, hch⟩ := ih hm
      exact ⟨c, List.mem_append_right _ hc, hch⟩
  | case2 s =>
    refine ⟨lowerAscii b, ?_, lowerAscii_high b hhigh⟩
    simp only [lower_byte]
    exact List.mem_map.mpr ⟨b, hb, rfl⟩

/-- Against a plain name, lower-casing words is as good as lower-casing bytes,
whatever the bytes are. -/
theorem lowerInplace_eq_iff {s name : List Byte} (h : ∀ c ∈ name, c.toNat < 128) :
    lowerInplace s = name ↔ s.map lowerAscii = name := by
  by_cases hs : ∀ c ∈ s, c.toNat < 128
  · rw [lowerInplace_eq hs]
  · simp only [not_forall, Nat.not_lt] at hs
    obtain ⟨b, hb, hhigh⟩ := hs
    obtain ⟨c, hc, hch⟩ := lowerInplace_high hb hhigh
    constructor
    · rintro rfl
      have := h c hc
      omega
    · rintro rfl
      have := h _ (List.mem_map.mpr ⟨b, hb, rfl⟩)
      have := lowerAscii_high b hhigh
      omega

/-- `'A'..'Z'` to `'a'..'z'`, and every other byte as it is. -/
def lowerByte (c : Byte) : Byte := if 65 ≤ c ∧ c ≤ 90 then c + 32 else c

theorem lowerByte_eq (c : Byte) : lowerAscii c = lowerByte c :=
  forall_byte (P := fun c => lowerAscii c = lowerByte c) (by decide +kernel) c

/-- Adding `k`, which has `c` in every byte, to the word of `bs` adds `c` to
each of its bytes: none overflows into the next. -/
structure NoCarry (bs : List Byte) (k : UInt64) (c : Byte) : Prop where
  fits : ∀ b ∈ bs, b.toNat + c.toNat < 256
  bytes : unpack 8 (UInt64.ofNat (pack bs) + k).toNat = bs.map (· + c)

theorem noCarry_of_low {bs : List Byte} (h : bs.length = 8) (hlow : ∀ b ∈ bs, b.toNat < 128)
    {c : Byte} (hc : c.toNat ≤ 64) {k : UInt64} (hk : k.toNat = pack (List.replicate 8 c)) :
    NoCarry bs k c where
  fits b hb := by
    have := hlow b hb
    omega
  bytes := by
    rw [lowerWord_sum h hlow c hc hk]
    have := unpack_pack (bs.map (· + c))
    rwa [List.length_map, h] at this

/-- Below 0x80 the word loop is the byte loop, and in no eight bytes in a row
does either of its additions carry from one byte to the next. -/
theorem lowerInplace_bytewise {s : List Byte} (h : ∀ c ∈ s, c.toNat < 0x80) :
    lowerInplace s = s.map lowerByte ∧ ∀ bs, bs <:+: s → bs.length = 8 →
      NoCarry bs 0x3f3f3f3f3f3f3f3f 0x3f ∧ NoCarry bs 0x2525252525252525 0x25 := by
  constructor
  · rw [lowerInplace_eq h]
    exact List.map_congr_left fun c _ => lowerByte_eq c
  · intro bs hs hlen
    have hlow : ∀ b ∈ bs, b.toNat < 128 := fun b hb => h b (hs.subset hb)
    exact ⟨noCarry_of_low hlen hlow (by decide) (by decide),
      noCarry_of_low hlen hlow (by decide) (by decide)⟩

/-- A name of eight bytes and a tail. -/
theorem lowerInplace_bytewise_name :
    lowerInplace (str "X-Powered-By") = str "x-powered-by" ∧
      NoCarry (str "X-Powere") 0x3f3f3f3f3f3f3f3f 0x3f := by
  have h : ∀ c ∈ str "X-Powered-By", c.toNat < 0x80 := by decide +kernel
  obtain ⟨h1, h2⟩ := lowerInplace_bytewise h
  have hs : str "X-Powere" <:+: str "X-Powered-By" := ⟨[], str "d-By", by decide⟩
  exact ⟨h1.trans (by decide), (h2 _ hs (by decide)).1⟩

-- ---------------------------------------------------------------------------
-- Numbers
-- ---------------------------------------------------------------------------

theorem dec_isSome_iff (c : Byte) : (dec c).isSome ↔ digitOf c ≤ 9 := by
  have := c.toNat_lt
  unfold dec digitOf
  split <;> simp <;> omega

theorem digitOf_eq {c : Byte} (h : digitOf c ≤ 9) : (dec c).getD 0 = digitOf c := by
  have := c.toNat_lt
  unfold dec
  unfold digitOf at h ⊢
  rw [if_pos (by omega), Option.getD_some]
  omega

theorem parseDigits_eq_some {s : List Byte} {v n : Nat} (hv : v ≤ sizeMax) :
    parseDigits s v = some n ↔ (∀ c ∈ s, (dec c).isSome) ∧ value dec 10 s v = n ∧ n ≤ sizeMax := by
  induction s generalizing v with
  | nil =>
    simp only [parseDigits, Option.some.injEq, List.not_mem_nil, false_imp_iff, implies_true,
      value_nil, true_and]
    exact ⟨fun h => ⟨h, h ▸ hv⟩, fun h => h.1⟩
  | cons c s ih =>
    simp only [parseDigits, List.forall_mem_cons, value_cons]
    by_cases hd : digitOf c ≤ 9
    · have hle := le_value dec 10 (by omega) s (v * 10 + digitOf c)
      rw [dec_isSome_iff, digitOf_eq hd]
      by_cases hfit : v * 10 + digitOf c ≤ sizeMax
      · rw [if_neg (by unfold sizeMax at *; omega), ih hfit]
        exact ⟨fun h => ⟨⟨hd, h.1⟩, h.2⟩, fun h => ⟨h.1.2, h.2⟩⟩
      · rw [if_pos (by unfold sizeMax at *; omega)]
        refine ⟨nofun, fun h => ?_⟩
        omega
    · rw [if_pos (.inl (by omega)), dec_isSome_iff]
      exact ⟨nofun, fun h => absurd h.1.1 hd⟩

theorem parseLength_eq_some {s : List Byte} {n : Nat} :
    parseLength s = some n ↔ Decimal s n ∧ n ≤ sizeMax := by
  unfold parseLength Decimal Reads
  split
  · simp [*]
  · rw [parseDigits_eq_some (Nat.zero_le _)]
    exact ⟨fun h => ⟨⟨‹_›, h.1, h.2.1⟩, h.2.2⟩, fun h => ⟨h.1.2.1, h.1.2.2, h.2⟩⟩

-- ---------------------------------------------------------------------------
-- Tokens
-- ---------------------------------------------------------------------------

def trim (s : List Byte) : List Byte := trimEnd (s.dropWhile isBlank)

/-- The tokens of a comma-separated list: its parts, trimmed, the empty ones
left out. -/
def tokens (value : List Byte) : List (List Byte) :=
  ((value.splitOn comma).map trim).filter (· ≠ [])

@[simp] theorem trim_nil : trim [] = [] := rfl

@[simp] theorem tokens_nil : tokens [] = [] := rfl

theorem trimEnd_ne_nil {c : Byte} (hc : isBlank c = false) (s : List Byte) :
    trimEnd (c :: s) ≠ [] := by
  unfold trimEnd
  rw [List.reverse_cons]
  intro h
  have h' : (s.reverse ++ [c]).dropWhile isBlank = [] := by simpa using h
  rw [List.dropWhile_eq_nil_iff] at h'
  have := h' c (by simp)
  simp [hc] at this

theorem tokens_cons_comma (s : List Byte) : tokens (comma :: s) = tokens s := by
  unfold tokens
  rw [List.splitOn_cons_eq_if_modifyHead, if_pos (by simp)]
  simp

theorem tokens_cons_blank {c : Byte} (hc : isBlank c = true) (s : List Byte) :
    tokens (c :: s) = tokens s := by
  have hne : (c == comma) = false := by
    simp only [isBlank, Bool.or_eq_true, beq_iff_eq] at hc
    rcases hc with rfl | rfl <;> decide
  unfold tokens
  rw [List.splitOn_cons_eq_if_modifyHead, hne]
  cases hs : s.splitOn comma with
  | nil => exact absurd hs (List.splitOn_ne_nil _ _)
  | cons p ps => simp [List.modifyHead, trim, hc]

theorem tokens_dropWhile (s : List Byte) :
    tokens (s.dropWhile fun c => isBlank c || c == comma) = tokens s := by
  induction s with
  | nil => rfl
  | cons c s ih =>
    rw [List.dropWhile_cons]
    split
    · rename_i hc
      rw [ih]
      rcases Bool.or_eq_true_iff.mp hc with hb | hk
      · rw [tokens_cons_blank hb]
      · obtain rfl : c = comma := by simpa using hk
        rw [tokens_cons_comma]
    · rfl

/-- The part in front of the first comma, where it starts with no blank. -/
theorem tokens_head {c : Byte} (hb : isBlank c = false) (hk : c ≠ comma) (s : List Byte) :
    tokens (c :: s) = trimEnd ((c :: s).takeWhile (· != comma)) ::
      tokens ((c :: s).dropWhile (· != comma)) := by
  have hsplit := List.takeWhile_append_dropWhile (p := (· != comma)) (l := c :: s)
  have hfree : comma ∉ (c :: s).takeWhile (· != comma) := fun hm => by
    have := List.mem_takeWhile_imp hm
    simp at this
  have hhead : (c :: s).takeWhile (· != comma) = c :: s.takeWhile (· != comma) := by
    rw [List.takeWhile_cons, if_pos (by simpa using hk)]
  have htrim : trim ((c :: s).takeWhile (· != comma)) =
      trimEnd ((c :: s).takeWhile (· != comma)) := by
    rw [hhead, trim, List.dropWhile_cons, if_neg (by simp [hb])]
  have hne : trimEnd ((c :: s).takeWhile (· != comma)) ≠ [] := by
    rw [hhead]
    exact trimEnd_ne_nil hb _
  conv => lhs; rw [← hsplit]
  cases hd : (c :: s).dropWhile (· != comma) with
  | nil =>
    unfold tokens
    rw [List.append_nil, List.splitOn_eq_singleton hfree]
    simp [htrim, hne]
  | cons k rest =>
    obtain rfl : k = comma := by
      have := List.head?_dropWhile_not (· != comma) (c :: s)
      rw [hd] at this
      simpa using this
    rw [tokens_cons_comma]
    unfold tokens
    rw [List.splitOn_append_cons_self_of_not_mem hfree]
    simp [htrim, hne]

theorem nextToken_none {rest : List Byte} (h : nextToken rest = none) : tokens rest = [] := by
  unfold nextToken at h
  dsimp only at h
  split at h
  · rename_i hd
    rw [← tokens_dropWhile, hd, tokens_nil]
  · cases h

theorem nextToken_some {rest tok rest' : List Byte} (h : nextToken rest = some (tok, rest')) :
    tokens rest = tok :: tokens rest' := by
  unfold nextToken at h
  dsimp only at h
  rw [← tokens_dropWhile]
  split at h
  · cases h
  · cases hd : rest.dropWhile fun c => isBlank c || c == comma with
    | nil => exact absurd hd ‹_›
    | cons c s =>
      have hc := List.head?_dropWhile_not (fun c => isBlank c || c == comma) rest
      rw [hd] at h hc
      simp only [List.head?_cons, Bool.or_eq_false_iff, beq_eq_false_iff_ne] at hc
      obtain ⟨rfl, rfl⟩ : _ ∧ _ := by simpa using h
      exact tokens_head hc.1 hc.2 s

theorem nextToken_isNone {rest : List Byte} : (nextToken rest).isNone = (tokens rest).isEmpty := by
  cases h : nextToken rest with
  | none => simp [nextToken_none h]
  | some p => simp [nextToken_some (show nextToken rest = some (p.1, p.2) from h)]

end Ioxd.Http
