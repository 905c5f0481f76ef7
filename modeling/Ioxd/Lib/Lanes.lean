import Mathlib.Algebra.Group.Int.Defs
import Mathlib.Algebra.Group.Nat.Defs
import Mathlib.Tactic.Common

/-!
# Bytes packed into a word

A word read from memory low byte first, and the bytes it is written back as.
What an addition does to each byte when none of them overflows, and what a bit
of the word says of the byte it is in: enough to reason about code that
handles several bytes at once.
-/

namespace Lanes

/-- The word whose bytes are `bs`, the low one first. -/
def pack (bs : List UInt8) : Nat := bs.foldr (fun b w => b.toNat + 256 * w) 0

/-- The low `n` bytes of a word. -/
def unpack : Nat → Nat → List UInt8
  | 0, _ => []
  | n + 1, w => UInt8.ofNat w :: unpack n (w / 256)

@[simp] theorem pack_nil : pack [] = 0 := rfl

@[simp] theorem pack_cons (b : UInt8) (bs : List UInt8) :
    pack (b :: bs) = b.toNat + 256 * pack bs := rfl

theorem pack_lt (bs : List UInt8) : pack bs < 256 ^ bs.length := by
  induction bs with
  | nil => simp
  | cons b bs ih =>
    have := b.toNat_lt
    simp only [pack_cons, List.length_cons, Nat.pow_succ]
    omega

@[simp] theorem length_unpack (n w : Nat) : (unpack n w).length = n := by
  induction n generalizing w with
  | zero => rfl
  | succ n ih => simp [unpack, ih]

theorem unpack_pack (bs : List UInt8) : unpack bs.length (pack bs) = bs := by
  induction bs with
  | nil => rfl
  | cons b bs ih =>
    have hb := b.toNat_lt
    have hd : (b.toNat + 256 * pack bs) / 256 = pack bs := by omega
    simp only [List.length_cons, unpack, pack_cons, hd, ih, List.cons.injEq, and_true]
    apply UInt8.toNat_inj.mp
    simp only [UInt8.toNat_ofNat']
    omega

theorem testBit_pack (bs : List UInt8) (i : Nat) :
    (pack bs).testBit i = (bs.getD (i / 8) 0).toNat.testBit (i % 8) := by
  induction bs generalizing i with
  | nil => simp
  | cons b bs ih =>
    have hb : b.toNat < 2 ^ 8 := b.toNat_lt
    rw [pack_cons, Nat.add_comm, show (256 : Nat) = 2 ^ 8 from rfl,
      Nat.testBit_two_pow_mul_add _ hb]
    split
    · rw [Nat.div_eq_of_lt ‹_›, Nat.mod_eq_of_lt ‹_›]
      rfl
    · obtain ⟨j, rfl⟩ : ∃ j, i = j + 8 := ⟨i - 8, by omega⟩
      rw [Nat.add_sub_cancel, ih, Nat.add_div_right _ (by omega), Nat.add_mod_right]
      rfl

theorem unpack_mod (n w : Nat) : unpack n (w % 256 ^ n) = unpack n w := by
  induction n generalizing w with
  | zero => rfl
  | succ n ih =>
    have hd : w % 256 ^ (n + 1) / 256 = w / 256 % 256 ^ n := by
      rw [Nat.pow_succ, Nat.mul_comm, Nat.mod_mul_right_div_self]
    simp only [unpack, hd, ih, List.cons.injEq, and_true]
    apply UInt8.toNat_inj.mp
    simp only [UInt8.toNat_ofNat']
    exact Nat.mod_mod_of_dvd _ ⟨256 ^ n, by rw [Nat.pow_succ, Nat.mul_comm]⟩

theorem unpack_eq {bs : List UInt8} {w : Nat}
    (h : ∀ i < 8 * bs.length, w.testBit i = (bs.getD (i / 8) 0).toNat.testBit (i % 8)) :
    unpack bs.length w = bs := by
  have hw : w % 256 ^ bs.length = pack bs := by
    apply Nat.eq_of_testBit_eq
    intro i
    rw [show (256 : Nat) = 2 ^ 8 from rfl, ← Nat.pow_mul, Nat.testBit_mod_two_pow, testBit_pack]
    by_cases hi : i < 8 * bs.length
    · simp [hi, h i hi]
    · have : bs.getD (i / 8) 0 = 0 := by
        rw [List.getD_eq_getElem?_getD, List.getElem?_eq_none (by omega)]
        rfl
      rw [this]
      simp [hi]
  rw [← unpack_mod, hw, unpack_pack]

theorem testBit_unpack {n w k r : Nat} (hk : k < n) (hr : r < 8) :
    ((unpack n w).getD k 0).toNat.testBit r = w.testBit (8 * k + r) := by
  induction n generalizing w k with
  | zero => omega
  | succ n ih =>
    cases k with
    | zero =>
      simp only [unpack, List.getD_cons_zero, UInt8.toNat_ofNat']
      rw [Nat.testBit_mod_two_pow]
      simp [hr]
    | succ k =>
      simp only [unpack, List.getD_cons_succ]
      rw [ih (by omega), show (256 : Nat) = 2 ^ 8 from rfl, Nat.testBit_div_two_pow]
      congr 1
      omega

theorem pack_add {bs : List UInt8} {c : UInt8} (h : ∀ b ∈ bs, b.toNat + c.toNat < 256) :
    pack bs + pack (List.replicate bs.length c) = pack (bs.map (· + c)) := by
  induction bs with
  | nil => rfl
  | cons b bs ih =>
    have hb := h b (List.mem_cons_self)
    have hs : (b + c).toNat = b.toNat + c.toNat := by
      rw [UInt8.toNat_add]
      omega
    have := ih fun x hx => h x (List.mem_cons_of_mem _ hx)
    simp only [List.length_cons, List.replicate_succ, pack_cons, List.map_cons, hs]
    omega

end Lanes
