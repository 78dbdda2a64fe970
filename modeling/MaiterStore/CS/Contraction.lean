/-
# Linear equations with a contracting matrix

A vertex gets what it begins with and a share of what the other vertices have. The shares
are not negative, and every vertex gives away at most a part `c < 1` of what it has. Then
there is one solution. Values that leave a residual which is not negative are below the
solution, and what they are short of it, summed up, is the sum of the residuals and at most
the part `c` of itself.
-/

import Mathlib.Algebra.Order.BigOperators.Group.Finset
import Mathlib.Algebra.Order.Archimedean.Basic
import Mathlib.Algebra.Order.BigOperators.Ring.Finset
import Mathlib.LinearAlgebra.FiniteDimensional.Basic
import Mathlib.Tactic.Linarith
import Mathlib.Tactic.LinearCombination
import Mathlib.Tactic.Ring

namespace CS.Contraction

variable {K F : Type*} [Field F] [LinearOrder F] [IsStrictOrderedRing F]

/-- What the vertices give to `k` when they have `x`. -/
def given (vertices : Finset K) (share : K → K → F) (x : K → F) (k : K) : F :=
  ∑ j ∈ vertices, x j * share j k

/-- Shares that are not negative, and at most `c` in all for each vertex. -/
structure Contracts (vertices : Finset K) (share : K → K → F) (c : F) : Prop where
  nonneg : ∀ j ∈ vertices, ∀ k ∈ vertices, 0 ≤ share j k
  total : ∀ j ∈ vertices, ∑ k ∈ vertices, share j k ≤ c
  lt_one : c < 1

/-- `x` is what the vertices have in the end, beginning with `init`. -/
def Solves (vertices : Finset K) (share : K → K → F) (init x : K → F) : Prop :=
  ∀ k ∈ vertices, x k = init k + given vertices share x k

variable {vertices : Finset K} {share : K → K → F} {c : F} {init x y r : K → F}

omit [LinearOrder F] [IsStrictOrderedRing F] in
theorem given_sub (k : K) : given vertices share (fun j => x j - y j) k =
    given vertices share x k - given vertices share y k := by
  simp only [given, sub_mul, Finset.sum_sub_distrib]

theorem given_mono (h : Contracts vertices share c) (hxy : ∀ j ∈ vertices, x j ≤ y j) {k : K}
    (hk : k ∈ vertices) : given vertices share x k ≤ given vertices share y k :=
  Finset.sum_le_sum fun j hj => mul_le_mul_of_nonneg_right (hxy j hj) (h.nonneg j hj k hk)

omit [LinearOrder F] [IsStrictOrderedRing F] in
/-- All that is given away. -/
theorem sum_given (x : K → F) : ∑ k ∈ vertices, given vertices share x k =
    ∑ j ∈ vertices, x j * ∑ k ∈ vertices, share j k := by
  simp only [given, Finset.mul_sum]
  exact Finset.sum_comm

theorem sum_given_le (h : Contracts vertices share c) (hx : ∀ j ∈ vertices, 0 ≤ x j) :
    ∑ k ∈ vertices, given vertices share x k ≤ c * ∑ j ∈ vertices, x j := by
  rw [sum_given, Finset.mul_sum]
  refine Finset.sum_le_sum fun j hj => ?_
  rw [mul_comm c]
  exact mul_le_mul_of_nonneg_left (h.total j hj) (hx j hj)

/-- What is at least what is given is not negative. -/
theorem nonneg_of_given_le (h : Contracts vertices share c)
    (hx : ∀ k ∈ vertices, given vertices share x k ≤ x k) : ∀ k ∈ vertices, 0 ≤ x k := by
  let n : K → F := fun k => max (-x k) 0
  have hn : ∀ j ∈ vertices, 0 ≤ n j := fun j _ => le_max_right _ _
  -- the negative parts are at most what is given of them
  have hle : ∀ k ∈ vertices, n k ≤ given vertices share n k := by
    intro k hk
    have hgiven : 0 ≤ given vertices share n k :=
      Finset.sum_nonneg fun j hj => mul_nonneg (hn j hj) (h.nonneg j hj k hk)
    refine max_le ?_ hgiven
    have hneg : given vertices share (fun j => 0 - x j) k ≤ given vertices share n k :=
      given_mono h (fun j _ => by rw [zero_sub]; exact le_max_left _ _) hk
    rw [given_sub] at hneg
    have hzero : given vertices share (fun _ => (0 : F)) k = 0 :=
      Finset.sum_eq_zero fun j _ => zero_mul _
    rw [hzero, zero_sub] at hneg
    exact (neg_le_neg (hx k hk)).trans hneg
  have hsum : ∑ k ∈ vertices, n k ≤ c * ∑ k ∈ vertices, n k :=
    (Finset.sum_le_sum hle).trans (sum_given_le h hn)
  have hsum_nonneg : 0 ≤ ∑ k ∈ vertices, n k := Finset.sum_nonneg hn
  have hsum_zero : ∑ k ∈ vertices, n k = 0 := by
    have hlt := h.lt_one
    nlinarith
  intro k hk
  have hk_zero : n k = 0 := (Finset.sum_eq_zero_iff_of_nonneg hn).mp hsum_zero k hk
  have hneg : -x k ≤ n k := le_max_left _ _
  linarith

/-- Two solutions are the same. -/
theorem Solves.unique (h : Contracts vertices share c) (hx : Solves vertices share init x)
    (hy : Solves vertices share init y) : ∀ k ∈ vertices, x k = y k := by
  have hle : ∀ {x y : K → F}, Solves vertices share init x → Solves vertices share init y →
      ∀ k ∈ vertices, 0 ≤ x k - y k := by
    intro x y hx hy
    refine nonneg_of_given_le h fun k hk => ?_
    rw [given_sub, hx k hk, hy k hk, add_sub_add_left_eq_sub]
  intro k hk
  exact le_antisymm (sub_nonneg.mp (hle hy hx k hk)) (sub_nonneg.mp (hle hx hy k hk))

/-- There is a solution: what is left of what the vertices have when they give is an injective
linear map. -/
theorem exists_solves [DecidableEq K] (h : Contracts vertices share c) (init : K → F) :
    ∃ x, Solves vertices share init x := by
  -- functions on the vertices, and zero elsewhere
  let extend : (vertices → F) → K → F := fun x k => if hk : k ∈ vertices then x ⟨k, hk⟩ else 0
  have hextend : ∀ x (k : vertices), extend x k = x k := fun x k => dif_pos k.2
  let rest : (vertices → F) →ₗ[F] vertices → F :=
    { toFun := fun x k => x k - ∑ j, x j * share j k
      map_add' := by
        intro x y
        funext k
        simp only [Pi.add_apply, add_mul, Finset.sum_add_distrib]
        ring
      map_smul' := by
        intro a x
        funext k
        simp only [Pi.smul_apply, smul_eq_mul, RingHom.id_apply, mul_sub, Finset.mul_sum,
          mul_assoc] }
  have hgiven : ∀ x (k : vertices), given vertices share (extend x) k = ∑ j, x j * share j k := by
    intro x k
    rw [given, ← Finset.sum_coe_sort]
    exact Finset.sum_congr rfl fun j _ => by rw [hextend]
  have hinjective : Function.Injective rest := by
    rw [injective_iff_map_eq_zero]
    intro x hx
    have hsolves : Solves vertices share (fun _ => 0) (extend x) := by
      intro k hk
      have hrest : x ⟨k, hk⟩ - ∑ j, x j * share j k = 0 := congrFun hx ⟨k, hk⟩
      rw [zero_add, hextend x ⟨k, hk⟩, hgiven x ⟨k, hk⟩]
      exact sub_eq_zero.mp hrest
    have hzero : Solves vertices share (fun _ => 0) (fun _ => (0 : F)) := by
      intro k _
      rw [zero_add]
      exact (Finset.sum_eq_zero fun j _ => zero_mul _).symm
    funext k
    exact (hextend x k).symm.trans (hsolves.unique h hzero k k.2)
  obtain ⟨x, hx⟩ := LinearMap.injective_iff_surjective.mp hinjective fun k => init k
  refine ⟨extend x, fun k hk => ?_⟩
  have hrest : x ⟨k, hk⟩ - ∑ j, x j * share j k = init k := congrFun hx ⟨k, hk⟩
  rw [hextend x ⟨k, hk⟩, hgiven x ⟨k, hk⟩, ← hrest, sub_add_cancel]

theorem Solves.nonneg (h : Contracts vertices share c) (hx : Solves vertices share init x)
    (hinit : ∀ k ∈ vertices, 0 ≤ init k) : ∀ k ∈ vertices, 0 ≤ x k := by
  refine nonneg_of_given_le h fun k hk => ?_
  rw [hx k hk]
  exact le_add_of_nonneg_left (hinit k hk)

/-! ## Values that leave a residual -/

/-- The values `x` with what is left, `r`, are what the vertices begin with and are given. -/
def Leaves (vertices : Finset K) (share : K → K → F) (init x r : K → F) : Prop :=
  ∀ k ∈ vertices, x k + r k = init k + given vertices share x k

omit [LinearOrder F] [IsStrictOrderedRing F] in
/-- What the values are short of the solution solves the equation from the residuals. -/
theorem Leaves.error_solves (hx : Leaves vertices share init x r)
    (hy : Solves vertices share init y) : Solves vertices share r fun k => y k - x k := by
  intro k hk
  have hleft := hx k hk
  have hsolves := hy k hk
  rw [given_sub]
  dsimp only
  linear_combination hsolves - hleft

/-- The values do not exceed the solution. -/
theorem Leaves.le_solution (h : Contracts vertices share c) (hx : Leaves vertices share init x r)
    (hr : ∀ k ∈ vertices, 0 ≤ r k) (hy : Solves vertices share init y) :
    ∀ k ∈ vertices, x k ≤ y k :=
  fun k hk => sub_nonneg.mp ((hx.error_solves hy).nonneg h hr k hk)

/-- What the values are short of the solution, all in all. -/
theorem Leaves.error_le (h : Contracts vertices share c) (hx : Leaves vertices share init x r)
    (hr : ∀ k ∈ vertices, 0 ≤ r k) (hy : Solves vertices share init y) :
    (1 - c) * ∑ k ∈ vertices, (y k - x k) ≤ ∑ k ∈ vertices, r k := by
  have herror := hx.error_solves hy
  have hsum : ∑ k ∈ vertices, (y k - x k) =
      ∑ k ∈ vertices, r k + ∑ k ∈ vertices, given vertices share (fun j => y j - x j) k := by
    rw [← Finset.sum_add_distrib]
    exact Finset.sum_congr rfl herror
  have hgiven := sum_given_le h (herror.nonneg h hr)
  linarith

/-- Values that have taken in the residuals are short by at most the part `c` of what it was. -/
theorem Leaves.error_after {x' : K → F} (h : Contracts vertices share c)
    (hx : Leaves vertices share init x r) (hr : ∀ k ∈ vertices, 0 ≤ r k)
    (hy : Solves vertices share init y) (hx' : ∀ k ∈ vertices, x k + r k ≤ x' k) :
    ∑ k ∈ vertices, (y k - x' k) ≤ c * ∑ k ∈ vertices, (y k - x k) := by
  have herror := hx.error_solves hy
  calc ∑ k ∈ vertices, (y k - x' k)
      ≤ ∑ k ∈ vertices, given vertices share (fun j => y j - x j) k := by
        refine Finset.sum_le_sum fun k hk => ?_
        have hleft : y k - x k = r k + given vertices share (fun j => y j - x j) k := herror k hk
        have htaken := hx' k hk
        linarith
    _ ≤ c * ∑ k ∈ vertices, (y k - x k) := sum_given_le h (herror.nonneg h hr)

/-- With enough factors below one, anything that is not negative comes below any bound. -/
theorem exists_pow_mul_lt [Archimedean F] (hc : 0 ≤ c) (hc₁ : c < 1) {a ε : F}
    (ha : 0 ≤ a) (hε : 0 < ε) : ∃ n : ℕ, c ^ n * a < ε := by
  have hpos : 0 < a + 1 := add_pos_of_nonneg_of_pos ha one_pos
  obtain ⟨n, hn⟩ := exists_pow_lt_of_lt_one (div_pos hε hpos) hc₁
  refine ⟨n, ?_⟩
  have hpow : 0 ≤ c ^ n := pow_nonneg hc n
  have hlt : c ^ n * (a + 1) < ε := (lt_div_iff₀ hpos).mp hn
  linarith

omit [LinearOrder F] [IsStrictOrderedRing F] in
/-- Where every vertex gives away the same part, this is an equality. -/
theorem Leaves.error_eq (hx : Leaves vertices share init x r)
    (htotal : ∀ j ∈ vertices, ∑ k ∈ vertices, share j k = c) (hy : Solves vertices share init y) :
    (1 - c) * ∑ k ∈ vertices, (y k - x k) = ∑ k ∈ vertices, r k := by
  have hsum : ∑ k ∈ vertices, (y k - x k) =
      ∑ k ∈ vertices, r k + ∑ k ∈ vertices, given vertices share (fun j => y j - x j) k := by
    rw [← Finset.sum_add_distrib]
    exact Finset.sum_congr rfl (hx.error_solves hy)
  have hgiven : ∑ k ∈ vertices, given vertices share (fun j => y j - x j) k =
      c * ∑ k ∈ vertices, (y k - x k) := by
    rw [sum_given, Finset.mul_sum]
    exact Finset.sum_congr rfl fun j hj => by rw [htotal j hj, mul_comm]
  linear_combination hsum + hgiven

end CS.Contraction
