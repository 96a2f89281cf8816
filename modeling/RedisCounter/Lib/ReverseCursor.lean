import Mathlib.Data.Nat.Bitwise
import Mathlib.Tactic.Common

/-!
# Cursors that count from the high bits

A cursor of `w` bits passes the words in the order of their reversed bits (`rank`). Under a mask of
`k` low bits the words fall into blocks of that order: two words have the same masked bits exactly
when they lie in the same block (`and_lowMask_eq_iff`), and the next cursor is the first word of the
next block (`rank_next`). The blocks of a longer mask divide those of a shorter one, which is why the
order does not depend on the mask.
-/

namespace ReverseCursor

variable {w : ℕ} {u v : BitVec w} {j k : ℕ}

/-- The place of a word in the order of the reversed bits. -/
def rank (v : BitVec w) : ℕ := v.reverse.toNat

/-- The `k` low bits. -/
def lowMask (w k : ℕ) : BitVec w := BitVec.ofNat w (2 ^ k - 1)

/-- The cursor after `v` under a mask of `k` low bits: set the unmasked bits and count up with the
bits reversed. -/
def next (k : ℕ) (v : BitVec w) : BitVec w := ((v ||| ~~~lowMask w k).reverse + 1).reverse

theorem rank_lt (v : BitVec w) : rank v < 2 ^ w := v.reverse.isLt

theorem rank_injective : Function.Injective (rank : BitVec w → ℕ) := by
  intro u v h
  rw [← BitVec.reverse_reverse_eq (x := u), BitVec.eq_of_toNat_eq h, BitVec.reverse_reverse_eq]

@[simp] theorem rank_zero : rank (0#w) = 0 := by
  rw [rank, BitVec.reverse_eq_zero_iff.2 rfl]
  rfl

theorem rank_eq_zero_iff : rank v = 0 ↔ v = 0#w := by
  constructor
  · intro h
    exact rank_injective (h.trans rank_zero.symm)
  · rintro rfl
    exact rank_zero

theorem testBit_rank (v : BitVec w) {i : ℕ} (hi : i < w) :
    (rank v).testBit i = v.getLsbD (w - 1 - i) := by
  rw [rank, BitVec.testBit_toNat, BitVec.getLsbD_reverse, BitVec.getMsbD_eq_getLsbD]
  simp [hi]

/-- A rank has no bits from `w` on. -/
theorem testBit_rank_of_le (v : BitVec w) {i : ℕ} (hi : w ≤ i) : (rank v).testBit i = false :=
  Nat.testBit_lt_two_pow ((rank_lt v).trans_le (Nat.pow_le_pow_right Nat.two_pos hi))

theorem getLsbD_lowMask (k : ℕ) {i : ℕ} (hi : i < w) :
    (lowMask w k).getLsbD i = decide (i < k) := by
  rw [lowMask, BitVec.getLsbD_ofNat, Nat.testBit_two_pow_sub_one]
  simp [hi]

/-! ## Blocks -/

/-- Clearing the unmasked bits goes to the start of the block. -/
theorem rank_and_lowMask (hk : k ≤ w) (v : BitVec w) :
    rank (v &&& lowMask w k) = rank v / 2 ^ (w - k) * 2 ^ (w - k) := by
  apply Nat.eq_of_testBit_eq
  intro i
  rw [Nat.testBit_mul_two_pow, Nat.testBit_div_two_pow]
  by_cases hi : i < w
  · rw [testBit_rank _ hi, BitVec.getLsbD_and, getLsbD_lowMask k (by omega)]
    by_cases hik : w - k ≤ i
    · rw [Nat.sub_add_cancel hik, testBit_rank v hi]
      simp [hik, show w - 1 - i < k by omega]
    · simp [hik, show ¬ w - 1 - i < k by omega]
  · rw [Nat.sub_add_cancel (by omega), testBit_rank_of_le _ (by omega),
      testBit_rank_of_le _ (by omega), Bool.and_false]

/-- Setting the unmasked bits goes to the end of the block. -/
theorem rank_or_not_lowMask (hk : k ≤ w) (v : BitVec w) :
    rank (v ||| ~~~lowMask w k) = rank v / 2 ^ (w - k) * 2 ^ (w - k) + (2 ^ (w - k) - 1) := by
  have hlt : 2 ^ (w - k) - 1 < 2 ^ (w - k) := Nat.sub_lt (Nat.two_pow_pos _) Nat.one_pos
  apply Nat.eq_of_testBit_eq
  intro i
  rw [Nat.mul_comm, Nat.testBit_two_pow_mul_add _ hlt, Nat.testBit_two_pow_sub_one,
    Nat.testBit_div_two_pow]
  by_cases hi : i < w
  · rw [testBit_rank _ hi, BitVec.getLsbD_or, BitVec.getLsbD_not, getLsbD_lowMask k (by omega)]
    split_ifs with hik
    · simp [show w - 1 - i < w by omega, show ¬ w - 1 - i < k by omega, hik]
    · rw [Nat.sub_add_cancel (by omega), testBit_rank v hi]
      simp [show w - 1 - i < k by omega]
  · rw [if_neg (by omega), Nat.sub_add_cancel (by omega), testBit_rank_of_le _ (by omega),
      testBit_rank_of_le _ (by omega)]

/-- Two words have the same masked bits exactly when they lie in the same block. -/
theorem and_lowMask_eq_iff (hk : k ≤ w) : u &&& lowMask w k = v &&& lowMask w k ↔
    rank u / 2 ^ (w - k) = rank v / 2 ^ (w - k) := by
  rw [← rank_injective.eq_iff, rank_and_lowMask hk, rank_and_lowMask hk]
  exact Nat.mul_left_inj (Nat.two_pow_pos _).ne'

/-- The next cursor is the start of the next block; after the last block it is 0 again. -/
theorem rank_next (hk : k ≤ w) (v : BitVec w) :
    rank (next k v) = (rank v / 2 ^ (w - k) + 1) * 2 ^ (w - k) % 2 ^ w := by
  have hfill : (v ||| ~~~lowMask w k).reverse.toNat
      = rank v / 2 ^ (w - k) * 2 ^ (w - k) + (2 ^ (w - k) - 1) := rank_or_not_lowMask hk v
  have hone : (1 : BitVec w).toNat = 1 % 2 ^ w := BitVec.toNat_ofNat 1 w
  rw [rank, next, BitVec.reverse_reverse_eq, BitVec.toNat_add, hfill, hone, Nat.add_mod_mod,
    Nat.add_assoc, Nat.sub_add_cancel (Nat.two_pow_pos _), Nat.add_mul, Nat.one_mul]

/-- The next block starts above the word and no later than the words end. -/
theorem next_block_le (hk : k ≤ w) (v : BitVec w) :
    rank v < (rank v / 2 ^ (w - k) + 1) * 2 ^ (w - k) ∧
      (rank v / 2 ^ (w - k) + 1) * 2 ^ (w - k) ≤ 2 ^ w := by
  have hw : 2 ^ w = 2 ^ k * 2 ^ (w - k) := by
    rw [← Nat.pow_add, Nat.add_sub_cancel' hk]
  constructor
  · exact Nat.lt_mul_of_div_lt (Nat.lt_succ_self _) (Nat.two_pow_pos _)
  · have hlt : rank v / 2 ^ (w - k) < 2 ^ k := by
      apply Nat.div_lt_of_lt_mul
      rw [Nat.mul_comm, ← hw]
      exact rank_lt v
    rw [hw]
    exact Nat.mul_le_mul_right _ hlt

/-! ## Two masks -/

/-- A multiple of `q` above `r` is the next one exactly when it is at most the next one. -/
theorem dvd_iff_eq_next_multiple {r q a : ℕ} (hlt : r < a) (hle : a ≤ (r / q + 1) * q) :
    q ∣ a ↔ a = (r / q + 1) * q := by
  constructor
  · rintro ⟨m, rfl⟩
    have hm : r / q < m := Nat.div_lt_of_lt_mul hlt
    apply le_antisymm hle
    rw [Nat.mul_comm q]
    exact Nat.mul_le_mul_right q hm
  · rintro rfl
    exact Nat.dvd_mul_left q _

/-- The blocks of the longer mask divide those of the shorter one. -/
theorem next_block_le_next_block (hjk : j ≤ k) (hk : k ≤ w) (r : ℕ) :
    (r / 2 ^ (w - k) + 1) * 2 ^ (w - k) ≤ (r / 2 ^ (w - j) + 1) * 2 ^ (w - j) := by
  have hpow : 2 ^ (w - j) = 2 ^ (k - j) * 2 ^ (w - k) := by
    rw [← Nat.pow_add]
    congr 1
    omega
  have hr : r < (r / 2 ^ (w - j) + 1) * 2 ^ (w - j) :=
    Nat.lt_mul_of_div_lt (Nat.lt_succ_self _) (Nat.two_pow_pos _)
  rw [hpow, ← Nat.mul_assoc] at hr ⊢
  exact Nat.mul_le_mul_right _ (Nat.div_lt_of_lt_mul (by rwa [Nat.mul_comm]))

/-- Counting under the longer mask, the bits between the two masks are clear exactly when a block of
the shorter one is done. -/
theorem next_and_xor_eq_zero_iff (hjk : j ≤ k) (hk : k ≤ w) (v : BitVec w) :
    next k v &&& (lowMask w j ^^^ lowMask w k) = 0#w ↔
      (rank v / 2 ^ (w - k) + 1) * 2 ^ (w - k) = (rank v / 2 ^ (w - j) + 1) * 2 ^ (w - j) := by
  have hdvd : ∀ i, 2 ^ (w - i) ∣ 2 ^ w := fun i => Nat.pow_dvd_pow 2 (Nat.sub_le w i)
  have hmask : next k v &&& (lowMask w j ^^^ lowMask w k) = 0#w ↔
      next k v &&& lowMask w j = next k v &&& lowMask w k := by
    have hdist : next k v &&& (lowMask w j ^^^ lowMask w k)
        = (next k v &&& lowMask w j) ^^^ (next k v &&& lowMask w k) := by
      apply BitVec.eq_of_getLsbD_eq
      intro i _
      simp only [BitVec.getLsbD_and, BitVec.getLsbD_xor]
      exact Bool.and_xor_distrib_left ..
    rw [hdist, BitVec.xor_eq_zero_iff]
  have hk_start : rank (next k v &&& lowMask w k) = rank (next k v) := by
    rw [rank_and_lowMask hk, Nat.div_mul_cancel]
    rw [rank_next hk, Nat.dvd_mod_iff (hdvd k)]
    exact Nat.dvd_mul_left _ _
  rw [hmask, ← rank_injective.eq_iff, hk_start, rank_and_lowMask (hjk.trans hk),
    ← Nat.dvd_iff_div_mul_eq, rank_next hk, Nat.dvd_mod_iff (hdvd j)]
  exact dvd_iff_eq_next_multiple (next_block_le hk v).1 (next_block_le_next_block hjk hk _)

/-! ## Reversing by swapping blocks -/

/-- Where a bit comes from when neighbouring blocks of `s` bits change places. -/
def swapAt (s i : ℕ) : ℕ := if i / s % 2 = 0 then i + s else i - s

/-- Under a mask of every other block, two shifts exchange neighbouring blocks. -/
theorem getLsbD_swap (m v : BitVec w) {s i : ℕ} (hi : i < w)
    (hm : m.getLsbD i = decide (i / s % 2 = 0)) :
    ((v >>> s &&& m) ||| (v <<< s &&& ~~~m)).getLsbD i = v.getLsbD (swapAt s i) := by
  rw [BitVec.getLsbD_or, BitVec.getLsbD_and, BitVec.getLsbD_and, BitVec.getLsbD_not,
    BitVec.getLsbD_ushiftRight, BitVec.getLsbD_shiftLeft, hm, swapAt]
  split_ifs with heven
  · simp [heven, Nat.add_comm]
  · have hle : s ≤ i := by
      by_contra hlt
      exact heven (by rw [Nat.div_eq_of_lt (by omega)])
    simp [heven, hi, show ¬ i < s by omega]

end ReverseCursor
