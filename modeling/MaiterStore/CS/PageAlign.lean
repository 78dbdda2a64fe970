/-
# Alignment

A machine word is aligned to a power of two by clearing its low bits. As a number, signed or
not, it is rounded down to a multiple of that power.
-/

import Mathlib.Data.Nat.Init
import Mathlib.Data.Int.Init
import Mathlib.Algebra.Order.Group.Nat
import Mathlib.Algebra.Group.Nat.Defs
import Mathlib.Algebra.Group.Int.Defs
import Mathlib.Algebra.Ring.Int.Defs
import Mathlib.Tactic.Ring

namespace CS.PageAlign

variable {w k : ℕ}

/-- Clear the low `k` bits. -/
def alignDown (k : ℕ) (x : BitVec w) : BitVec w := x &&& ~~~(BitVec.ofNat w (2 ^ k) - 1)

theorem toNat_low (hk : k < w) (x : BitVec w) :
    (x &&& (BitVec.ofNat w (2 ^ k) - 1)).toNat = x.toNat % 2 ^ k := by
  have hlt : 2 ^ k < 2 ^ w := Nat.pow_lt_pow_right Nat.one_lt_two hk
  have hpos : 0 < 2 ^ k := Nat.two_pow_pos k
  have hone : (1 : BitVec w) = BitVec.ofNat w 1 := rfl
  rw [hone, BitVec.ofNat_sub_ofNat_of_le _ _ (Nat.one_lt_two_pow (by omega)) Nat.one_le_two_pow,
    BitVec.toNat_and, BitVec.toNat_ofNat, Nat.mod_eq_of_lt (by omega),
    Nat.and_two_pow_sub_one_eq_mod]

/-- The low bits and the rest make up the word. -/
theorem alignDown_eq_sub (k : ℕ) (x : BitVec w) :
    alignDown k x = x - (x &&& (BitVec.ofNat w (2 ^ k) - 1)) := by
  generalize hm : BitVec.ofNat w (2 ^ k) - 1 = m
  have hdisjoint : (x &&& ~~~m) &&& (x &&& m) = 0#w := by
    ext i hi
    simp only [BitVec.getElem_and, BitVec.getElem_not, BitVec.getElem_zero]
    cases x[i] <;> cases m[i] <;> rfl
  have hunion : (x &&& ~~~m) ||| (x &&& m) = x := by
    ext i hi
    simp only [BitVec.getElem_or, BitVec.getElem_and, BitVec.getElem_not]
    cases x[i] <;> cases m[i] <;> rfl
  have hsum := BitVec.add_eq_or_of_and_eq_zero _ _ hdisjoint
  rw [hunion] at hsum
  rw [alignDown, hm, BitVec.eq_sub_iff_add_eq]
  exact hsum

theorem toNat_alignDown (hk : k < w) (x : BitVec w) :
    (alignDown k x).toNat = x.toNat - x.toNat % 2 ^ k := by
  have hlow := toNat_low hk x
  rw [alignDown_eq_sub, BitVec.toNat_sub_of_le, hlow]
  rw [BitVec.le_def, hlow]
  exact Nat.mod_le _ _

/-- The highest bit is not cleared, so the sign stays. -/
theorem two_mul_lt_iff (hk : k < w) (n : ℕ) : 2 * (n - n % 2 ^ k) < 2 ^ w ↔ 2 * n < 2 ^ w := by
  obtain ⟨d, rfl⟩ := Nat.exists_eq_add_of_lt hk
  have hsplit : 2 ^ (k + d + 1) = 2 * (2 ^ k * 2 ^ d) := by
    rw [Nat.pow_succ, Nat.pow_add, Nat.mul_comm]
  have hround : n - n % 2 ^ k = 2 ^ k * (n / 2 ^ k) := by
    have hdiv := Nat.div_add_mod n (2 ^ k)
    omega
  rw [hsplit, Nat.mul_lt_mul_left Nat.two_pos, Nat.mul_lt_mul_left Nat.two_pos, hround,
    Nat.mul_lt_mul_left (Nat.two_pow_pos k), Nat.div_lt_iff_lt_mul (Nat.two_pow_pos k),
    Nat.mul_comm]

theorem toInt_alignDown (hk : k < w) (x : BitVec w) :
    (alignDown k x).toInt = x.toInt - x.toInt % 2 ^ k := by
  have hle : x.toNat % 2 ^ k ≤ x.toNat := Nat.mod_le _ _
  have hmod : ((x.toNat % 2 ^ k : ℕ) : ℤ) = (x.toNat : ℤ) % 2 ^ k := by
    rw [Int.natCast_emod, Nat.cast_pow]
    rfl
  have hwrap : ((x.toNat : ℤ) - 2 ^ w) % 2 ^ k = (x.toNat : ℤ) % 2 ^ k := by
    have hpow : (2 : ℤ) ^ w = 2 ^ k * 2 ^ (w - k) := by
      rw [← pow_add, Nat.add_sub_cancel' hk.le]
    rw [hpow]
    exact Int.sub_mul_emod_self_left _ _ _
  rw [BitVec.toInt_eq_toNat_cond, BitVec.toInt_eq_toNat_cond, toNat_alignDown hk]
  simp only [two_mul_lt_iff hk]
  split_ifs
  · rw [Nat.cast_sub hle, hmod]
  · rw [Nat.cast_sub hle, hmod, Nat.cast_pow]
    rw [Nat.cast_ofNat, hwrap]
    ring

end CS.PageAlign
