/-
# Delta-accumulative iteration

Every vertex has a value and a pending delta, both in a commutative monoid. A step
absorbs part of the pending delta of a vertex into its value and emits deltas for other
vertices. How the pending deltas are kept, split up, merged and moved around is left
open: only their sum counts.

Nothing is lost: values and pending deltas add up to what was there at the start and
what was emitted. If what a vertex emits is additive in the delta it absorbs, then the
emissions of all steps are those of one step that absorbs the whole value, so that a
state without pending deltas solves the fixed-point equation of the iteration.
-/

import Mathlib.Algebra.BigOperators.Group.List.Basic
import Mathlib.Algebra.BigOperators.Pi
import Mathlib.Data.Fintype.BigOperators

namespace CS.DeltaIteration

variable {K V : Type*} [DecidableEq K] [AddCommMonoid V]

/-- The sum of the values listed for `k`. -/
def tally (pairs : List (K × V)) (k : K) : V :=
  ((pairs.filter fun p => p.1 = k).map Prod.snd).sum

section Tally

variable {pairs pairs' : List (K × V)} {k j : K} {v : V}

@[simp] theorem tally_nil : tally ([] : List (K × V)) k = 0 := rfl

@[simp] theorem tally_cons : tally ((j, v) :: pairs) k =
    (if j = k then v else 0) + tally pairs k := by
  by_cases hj : j = k <;> simp [tally, hj]

@[simp] theorem tally_append : tally (pairs ++ pairs') k = tally pairs k + tally pairs' k := by
  simp [tally]

theorem tally_perm (hperm : pairs.Perm pairs') : tally pairs k = tally pairs' k :=
  ((hperm.filter _).map _).sum_eq

theorem tally_eq_zero (hne : ∀ p ∈ pairs, p.1 ≠ k) : tally pairs k = 0 := by
  have hnil : pairs.filter (fun p => p.1 = k) = [] := by
    rw [List.filter_eq_nil_iff]
    exact fun p hp => by simpa using hne p hp
  rw [tally, hnil]
  rfl

/-- With every key listed once, the sum is the value listed. -/
theorem tally_of_nodup (hnodup : (pairs.map Prod.fst).Nodup) :
    tally pairs k = ((pairs.find? fun p => p.1 = k).map Prod.snd).getD 0 := by
  induction pairs with
  | nil => rfl
  | cons p pairs ih =>
    rw [List.map_cons, List.nodup_cons] at hnodup
    by_cases hp : p.1 = k
    · have hrest : tally pairs k = 0 := by
        refine tally_eq_zero fun q hq heq => hnodup.1 ?_
        rw [hp, ← heq]
        exact List.mem_map_of_mem hq
      rw [show p = (p.1, p.2) from rfl, tally_cons, hrest, if_pos hp, add_zero]
      simp [hp]
    · rw [show p = (p.1, p.2) from rfl, tally_cons, if_neg hp, zero_add, ih hnodup.2]
      simp [hp]

end Tally

/-- The values and the sums of the pending deltas. -/
structure State (K V : Type*) where
  value : K → V
  pending : K → V

/-- One absorption: the vertex, the delta and what was emitted. -/
structure Absorption (K V : Type*) where
  vertex : K
  delta : V
  emitted : List (K × V)

/-- The state after an absorption: the delta has moved from what is pending to the value,
and what was emitted is pending. -/
structure Absorbs (s s' : State K V) (a : Absorption K V) : Prop where
  value_eq : ∀ k, s'.value k = s.value k + if a.vertex = k then a.delta else 0
  pending_eq : ∀ k, s'.pending k + (if a.vertex = k then a.delta else 0) =
    s.pending k + tally a.emitted k

/-- What the absorptions of a run emitted, in order. -/
def emissions (as : List (Absorption K V)) : List (K × V) := as.flatMap Absorption.emitted

/-- What the absorptions of a run absorbed at `k`. -/
def absorbed (as : List (Absorption K V)) (k : K) : V :=
  tally (as.map fun a => (a.vertex, a.delta)) k

/-- The state that absorptions lead to from a state `s₀`. -/
structure Reached (s₀ s : State K V) (as : List (Absorption K V)) : Prop where
  value_eq : ∀ k, s.value k = s₀.value k + absorbed as k
  conserved : ∀ k, s.value k + s.pending k = s₀.value k + s₀.pending k + tally (emissions as) k

theorem reached_refl (s₀ : State K V) : Reached s₀ s₀ [] :=
  ⟨fun _ => by simp [absorbed], fun _ => by simp [emissions]⟩

/-- One more absorption. -/
theorem Reached.absorbs {s₀ s s' : State K V} {as : List (Absorption K V)} {a : Absorption K V}
    (hreach : Reached s₀ s as) (habs : Absorbs s s' a) : Reached s₀ s' (as ++ [a]) where
  value_eq k := by
    have hlast : absorbed (as ++ [a]) k = absorbed as k + if a.vertex = k then a.delta else 0 := by
      simp [absorbed]
    rw [habs.value_eq, hreach.value_eq, hlast, add_assoc]
  conserved k := by
    have hlast : tally (emissions (as ++ [a])) k =
        tally (emissions as) k + tally a.emitted k := by
      simp [emissions]
    calc s'.value k + s'.pending k
        = s.value k + (s'.pending k + if a.vertex = k then a.delta else 0) := by
          rw [habs.value_eq, add_assoc, add_comm (s'.pending k)]
      _ = s.value k + s.pending k + tally a.emitted k := by rw [habs.pending_eq, add_assoc]
      _ = s₀.value k + s₀.pending k + tally (emissions (as ++ [a])) k := by
          rw [hreach.conserved, hlast, add_assoc]

/-- A change of how deltas are kept. -/
theorem Reached.of_eq {s₀ s s' : State K V} {as : List (Absorption K V)}
    (hreach : Reached s₀ s as) (hvalue : ∀ k, s'.value k = s.value k)
    (hpending : ∀ k, s'.pending k = s.pending k) : Reached s₀ s' as :=
  ⟨fun k => by rw [hvalue, hreach.value_eq],
    fun k => by rw [hvalue, hpending, hreach.conserved]⟩

/-- Two sums over places that differ at one place. -/
theorem sum_add_eq_of_ne {ι : Type*} [Fintype ι] [DecidableEq ι] {f g : ι → V} (i : ι) {a b : V}
    (hne : ∀ j, j ≠ i → g j = f j) (hi : g i + a = f i + b) :
    ∑ j, g j + a = ∑ j, f j + b := by
  have hrest : ∑ j ∈ Finset.univ.erase i, g j = ∑ j ∈ Finset.univ.erase i, f j := by
    apply Finset.sum_congr rfl
    intro j hj
    exact hne j (Finset.ne_of_mem_erase hj)
  rw [← Finset.add_sum_erase _ g (Finset.mem_univ i),
    ← Finset.add_sum_erase _ f (Finset.mem_univ i), hrest, add_right_comm, hi, add_right_comm]

/-- A sum over places at one of which `a` was replaced by `b`. -/
theorem sum_update {ι σ : Type*} [Fintype ι] [DecidableEq ι] (F : σ → V) (f : ι → σ) (i : ι)
    {x : σ} {a b : V} (hx : F x + a = F (f i) + b) :
    ∑ j, F (Function.update f i x j) + a = ∑ j, F (f j) + b := by
  apply sum_add_eq_of_ne i
  · intro j hj
    rw [Function.update_of_ne hj]
  · rwa [Function.update_self]

/-! ## Additive emissions -/

section Additive

variable {contrib : K → V → K → V}

/-- What a vertex emits for a target is additive in the delta it absorbs. -/
structure AdditiveEmission (contrib : K → V → K → V) : Prop where
  zero : ∀ j k, contrib j 0 k = 0
  add : ∀ j a b k, contrib j (a + b) k = contrib j a k + contrib j b k

/-- The emissions of a run are those of absorbing at every vertex all it absorbed. -/
theorem tally_emissions (hadd : AdditiveEmission contrib) {as : List (Absorption K V)}
    (hemit : ∀ a ∈ as, ∀ k, tally a.emitted k = contrib a.vertex a.delta k) {vertices : Finset K}
    (hmem : ∀ a ∈ as, a.vertex ∈ vertices) (k : K) :
    tally (emissions as) k = ∑ j ∈ vertices, contrib j (absorbed as j) k := by
  induction as with
  | nil => simp [emissions, absorbed, hadd.zero]
  | cons a as ih =>
    have hrest := ih (fun b hb => hemit b (List.mem_cons_of_mem _ hb))
      (fun b hb => hmem b (List.mem_cons_of_mem _ hb))
    -- the first absorption as one that absorbs nothing at every other vertex
    have hhead : tally a.emitted k =
        ∑ j ∈ vertices, contrib j (if a.vertex = j then a.delta else 0) k := by
      rw [Finset.sum_eq_single a.vertex]
      · rw [if_pos rfl, hemit a List.mem_cons_self]
      · intro j _ hj
        rw [if_neg (Ne.symm hj), hadd.zero]
      · exact fun hnot => absurd (hmem a List.mem_cons_self) hnot
    have hsplit : ∀ j, absorbed (a :: as) j =
        (if a.vertex = j then a.delta else 0) + absorbed as j := fun j => by simp [absorbed]
    calc tally (emissions (a :: as)) k
        = tally a.emitted k + tally (emissions as) k := by simp [emissions]
      _ = ∑ j ∈ vertices, (contrib j (if a.vertex = j then a.delta else 0) k +
            contrib j (absorbed as j) k) := by
          rw [hhead, hrest, Finset.sum_add_distrib]
      _ = ∑ j ∈ vertices, contrib j (absorbed (a :: as) j) k := by
          apply Finset.sum_congr rfl
          intro j _
          rw [hsplit, hadd.add]

/-- A vertex without a pending delta is at the fixed point, if all values started from
zero. -/
theorem Reached.fixedPoint (hadd : AdditiveEmission contrib) {s₀ s : State K V}
    {as : List (Absorption K V)} (hreach : Reached s₀ s as)
    (hemit : ∀ a ∈ as, ∀ k, tally a.emitted k = contrib a.vertex a.delta k) {vertices : Finset K}
    (hmem : ∀ a ∈ as, a.vertex ∈ vertices) (hzero : ∀ j ∈ vertices, s₀.value j = 0) {k : K}
    (hk : k ∈ vertices) (hquiet : s.pending k = 0) :
    s.value k = s₀.pending k + ∑ j ∈ vertices, contrib j (s.value j) k := by
  -- from zero on, the value of a vertex is what it has absorbed
  have hvalue : ∀ j ∈ vertices, absorbed as j = s.value j := by
    intro j hj
    rw [hreach.value_eq, hzero j hj, zero_add]
  have hall := hreach.conserved k
  rw [hquiet, hzero k hk, add_zero, zero_add, tally_emissions hadd hemit hmem] at hall
  rw [hall]
  congr 1
  apply Finset.sum_congr rfl
  intro j hj
  rw [hvalue j hj]

end Additive

end CS.DeltaIteration
