/-
# Numerals of a fixed width

A natural number below `10 ^ w` written with `w` digits, zeros in front. Among numerals of
one width the lexicographic order is the order of the numbers, whatever text follows them.
Padding with zeros gives the numeral of width `w` for the numbers below `10 ^ w` only.

In memory a number below `2 ^ (8 * w)` has `w` bytes, the lowest one in front.
-/

import Mathlib.Algebra.Group.Nat.Defs
import Mathlib.Data.Char
import Mathlib.Data.List.Lex

namespace CS.FixedWidth

/-- The last `w` decimal digits of `n`. -/
def numeral : ℕ → ℕ → List Char
  | 0, _ => []
  | w + 1, n => numeral w (n / 10) ++ [Nat.digitChar (n % 10)]

variable {w m n : ℕ}

@[simp] theorem length_numeral (w n : ℕ) : (numeral w n).length = w := by
  induction w generalizing n with
  | zero => rfl
  | succ w ih => rw [numeral, List.length_append, ih, List.length_singleton]

theorem numeral_zero (w : ℕ) : numeral w 0 = List.replicate w '0' := by
  induction w with
  | zero => rfl
  | succ w ih =>
    rw [numeral, Nat.zero_div, ih, List.replicate_succ']
    rfl

/-- Padding to the width. -/
theorem leftpad_toDigits (hn : n < 10 ^ (w + 1)) :
    List.leftpad (w + 1) '0' (Nat.toDigits 10 n) = numeral (w + 1) n := by
  induction w generalizing n with
  | zero =>
    have hlt : n < 10 := by simpa using hn
    rw [Nat.toDigits_of_lt_base hlt, numeral, Nat.mod_eq_of_lt hlt]
    rfl
  | succ w ih =>
    rw [numeral]
    rcases Nat.lt_or_ge n 10 with hlt | hge
    · rw [Nat.toDigits_of_lt_base hlt, Nat.div_eq_of_lt hlt, numeral_zero, Nat.mod_eq_of_lt hlt]
      rfl
    · have hdiv : n / 10 < 10 ^ (w + 1) := by
        rw [Nat.div_lt_iff_lt_mul (by decide), ← Nat.pow_succ]
        exact hn
      -- the last digit is split off on both sides
      rw [← ih hdiv, Nat.toDigits_of_base_le (by decide) hge, List.leftpad, List.leftpad,
        List.length_append, List.length_singleton, Nat.add_sub_add_right, List.append_assoc]

theorem ofDigitChars_numeral (hn : n < 10 ^ w) : Nat.ofDigitChars 10 (numeral w n) 0 = n := by
  induction w generalizing n with
  | zero =>
    rw [Nat.pow_zero, Nat.lt_one_iff] at hn
    rw [hn]
    rfl
  | succ w ih =>
    have hdiv : n / 10 < 10 ^ w := by
      rw [Nat.div_lt_iff_lt_mul (by decide), ← Nat.pow_succ]
      exact hn
    have hmod : n % 10 < 10 := Nat.mod_lt n (by decide)
    rw [numeral, Nat.ofDigitChars_append, ih hdiv,
      Nat.ofDigitChars_cons_digitChar_of_lt_ten hmod, Nat.ofDigitChars_nil]
    omega

theorem isDigit_of_mem_numeral {c : Char} (hc : c ∈ numeral w n) : c.isDigit = true := by
  induction w generalizing n with
  | zero => cases hc
  | succ w ih =>
    rcases List.mem_append.mp hc with hc | hc
    · exact ih hc
    · have hmod : n % 10 < 10 := Nat.mod_lt n (by decide)
      rw [List.mem_singleton.mp hc, Nat.isDigit_digitChar]
      exact decide_eq_true hmod

theorem digitChar_lt (hn : n < 10) (hmn : m < n) : Nat.digitChar m < Nat.digitChar n := by
  have hall : ∀ n < 10, ∀ m < n, Nat.digitChar m < Nat.digitChar n := by decide
  exact hall n hn m hmn

/-- A difference within the first texts decides, if these have one length. -/
theorem append_lt_append {α : Type*} [LT α] {s t s' t' : List α} (hlength : s.length = t.length)
    (hlt : s < t) : s ++ s' < t ++ t' := by
  induction hlt with
  | nil => simp at hlength
  | cons _ ih => exact .cons (ih (by simpa using hlength))
  | rel h => exact .rel h

/-- The order of the numerals of one width is that of the numbers. -/
theorem numeral_lt (hn : n < 10 ^ w) (hmn : m < n) : numeral w m < numeral w n := by
  induction w generalizing m n with
  | zero => omega
  | succ w ih =>
    rw [numeral, numeral]
    rcases Nat.lt_or_ge (m / 10) (n / 10) with hlt | hge
    · apply append_lt_append (by simp)
      apply ih _ hlt
      rw [Nat.div_lt_iff_lt_mul (by decide), ← Nat.pow_succ]
      exact hn
    -- the last digit decides
    · have hdiv : m / 10 = n / 10 := by omega
      rw [hdiv]
      apply List.Lex.append_left
      exact .rel (digitChar_lt (by omega) (by omega))

/-! ## Bytes -/

/-- The last `w` bytes of `n`. -/
def leBytes : ℕ → ℕ → List UInt8
  | 0, _ => []
  | w + 1, n => UInt8.ofNat n :: leBytes w (n / 2 ^ 8)

/-- The number with the given bytes. -/
def ofLeBytes (b : List UInt8) : ℕ := b.foldr (fun byte n => byte.toNat + 2 ^ 8 * n) 0

@[simp] theorem length_leBytes (w n : ℕ) : (leBytes w n).length = w := by
  induction w generalizing n with
  | zero => rfl
  | succ w ih => rw [leBytes, List.length_cons, ih]

theorem ofLeBytes_leBytes (hn : n < 2 ^ (8 * w)) : ofLeBytes (leBytes w n) = n := by
  induction w generalizing n with
  | zero =>
    rw [Nat.mul_zero, Nat.pow_zero, Nat.lt_one_iff] at hn
    rw [hn]
    rfl
  | succ w ih =>
    have hdiv : n / 2 ^ 8 < 2 ^ (8 * w) := by
      rw [Nat.div_lt_iff_lt_mul (by decide), ← Nat.pow_add]
      exact hn
    have hcons : ofLeBytes (leBytes (w + 1) n) =
        (UInt8.ofNat n).toNat + 2 ^ 8 * ofLeBytes (leBytes w (n / 2 ^ 8)) := rfl
    rw [hcons, ih hdiv, UInt8.toNat_ofNat', Nat.mod_add_div]

end CS.FixedWidth
