import Mathlib.Data.Nat.Bitwise
import MiniLang.Runtime.FreeList

/-!
# Rounding up

`align_up` in machine words: what a word keeps of the next multiple of a power of two.
-/

namespace MiniLang.Runtime

/-- The next multiple of `align`, from `n` on. -/
def nextMultiple (n align : Nat) : Nat := (n + align - 1) / align * align

variable {n align q k : Nat}

theorem dvd_nextMultiple (n align : Nat) : align ∣ nextMultiple n align := Nat.dvd_mul_left ..

theorem le_nextMultiple (h : 0 < align) (n : Nat) : n ≤ nextMultiple n align := by
  have hdiv := Nat.div_add_mod (n + align - 1) align
  have hmod := Nat.mod_lt (n + align - 1) h
  rw [nextMultiple, Nat.mul_comm]
  omega

/-- It is the least one. -/
theorem nextMultiple_le (h : 0 < align) (hn : n ≤ q) (hq : align ∣ q) :
    nextMultiple n align ≤ q := by
  obtain ⟨c, rfl⟩ := hq
  rw [nextMultiple, Nat.mul_comm align c]
  refine Nat.mul_le_mul_right align (Nat.lt_succ_iff.mp ?_)
  rw [Nat.div_lt_iff_lt_mul h, Nat.succ_mul, Nat.mul_comm c align]
  omega

/-- Clearing the lowest bits. -/
theorem and_mask (hn : n < 2 ^ 64) (hk : k ≤ 64) :
    n &&& (2 ^ 64 - 1 - (2 ^ k - 1)) = n / 2 ^ k * 2 ^ k := by
  have hle : 2 ^ k ≤ 2 ^ 64 := Nat.pow_le_pow_right (by decide) hk
  have hmask : 2 ^ 64 - 1 - (2 ^ k - 1) = (2 ^ (64 - k) - 1) <<< k := by
    rw [Nat.shiftLeft_eq, Nat.sub_mul, ← Nat.pow_add, Nat.sub_add_cancel hk]
    have hpos : 0 < 2 ^ k := Nat.two_pow_pos k
    omega
  refine Nat.eq_of_testBit_eq fun i ↦ ?_
  rw [hmask, Nat.testBit_and, Nat.testBit_shiftLeft, Nat.testBit_two_pow_sub_one,
    show n / 2 ^ k * 2 ^ k = (n >>> k) <<< k by
      rw [Nat.shiftLeft_eq, Nat.shiftRight_eq_div_pow], Nat.testBit_shiftLeft,
    Nat.testBit_shiftRight]
  by_cases hi : k ≤ i
  · rw [Nat.add_sub_cancel' hi]
    by_cases hlt : i < 64
    · have hbit : i - k < 64 - k := by omega
      simp [hi, hbit]
    · have hfalse : n.testBit i = false :=
        Nat.testBit_lt_two_pow (hn.trans_le (Nat.pow_le_pow_right (by decide) (by omega)))
      simp [hfalse]
  · simp [hi]

/-- `align_up` keeps the next multiple modulo the word size. -/
theorem toNat_alignUp {size align : UInt64} (h : align.toNat = 2 ^ k) :
    (alignUp size align).toNat = nextMultiple size.toNat (2 ^ k) % 2 ^ 64 := by
  have hk : k ≤ 64 := by
    have hlt := align.toNat_lt
    rw [h] at hlt
    exact ((Nat.pow_lt_pow_iff_right (by decide)).mp hlt).le
  have hpos : 0 < 2 ^ k := Nat.two_pow_pos k
  have hone : (1 : UInt64) ≤ align := UInt64.le_iff_toNat_le.mpr (h ▸ hpos)
  have hmask : (align - 1).toNat = 2 ^ k - 1 := by
    rw [UInt64.toNat_sub_of_le _ _ hone, h]
    rfl
  have hsum : (size + align - 1).toNat = (size.toNat + 2 ^ k - 1) % 2 ^ 64 := by
    rw [show size + align - 1 = size + (align - 1) by grind, UInt64.toNat_add, hmask,
      Nat.add_sub_assoc hpos]
  rw [alignUp, UInt64.toNat_and, UInt64.toNat_not, hmask, hsum]
  change _ &&& (2 ^ 64 - 1 - (2 ^ k - 1)) = _
  rw [and_mask (Nat.mod_lt _ (by decide)) hk, nextMultiple]
  generalize size.toNat + 2 ^ k - 1 = m
  rw [show 2 ^ 64 = 2 ^ k * 2 ^ (64 - k) by rw [← Nat.pow_add, Nat.add_sub_cancel' hk],
    Nat.mod_mul_right_div_self, Nat.mul_comm (2 ^ k) (2 ^ (64 - k)), Nat.mul_mod_mul_right]

end MiniLang.Runtime
