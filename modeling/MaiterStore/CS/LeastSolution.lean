/-
# What a delta-accumulative iteration converges to

The run of an iteration, without the places where deltas are kept: each absorption takes
a part of what is pending for its vertex, and emits what the vertex emits for the delta and
the value it then has.

If an emission is what the contributions of a vertex grow by, then a state is told by its
values alone: the value and the pending delta of a vertex are together what it began with
and what all vertices contribute from their values. The values never exceed a solution of
the equation, and they are its least solution when nothing is pending. Since the monoid
need not be ordered, "at most" is "a part of".
-/

import Mathlib.Algebra.Ring.Defs
import MaiterStore.CS.DeltaIteration

namespace CS.DeltaIteration

variable {K V : Type*} [DecidableEq K] [AddCommMonoid V]

/-! ## Parts -/

/-- `b` is `a` and something else. In a canonically ordered monoid this is `a ≤ b`. -/
def Part (a b : V) : Prop := ∃ c, a + c = b

namespace Part

variable {a b c a' b' : V}

theorem refl (a : V) : Part a a := ⟨0, add_zero a⟩

theorem zero (a : V) : Part 0 a := ⟨a, zero_add a⟩

theorem add_right (a c : V) : Part a (a + c) := ⟨c, rfl⟩

theorem trans (h : Part a b) (h' : Part b c) : Part a c := by
  obtain ⟨d, rfl⟩ := h
  obtain ⟨d', rfl⟩ := h'
  exact ⟨d + d', (add_assoc a d d').symm⟩

theorem add (h : Part a b) (h' : Part a' b') : Part (a + a') (b + b') := by
  obtain ⟨d, rfl⟩ := h
  obtain ⟨d', rfl⟩ := h'
  exact ⟨d + d', add_add_add_comm a a' d d'⟩

theorem sum {ι : Type*} {s : Finset ι} {f g : ι → V} (h : ∀ i ∈ s, Part (f i) (g i)) :
    Part (∑ i ∈ s, f i) (∑ i ∈ s, g i) := by
  classical
  induction s using Finset.induction_on with
  | empty => exact refl 0
  | insert i s hi ih =>
    rw [Finset.sum_insert hi, Finset.sum_insert hi]
    exact (h i (Finset.mem_insert_self i s)).add
      (ih fun j hj => h j (Finset.mem_insert_of_mem hj))

end Part

/-! ## What is output for a vertex -/

section Output

variable {L R : Type*}

/-- What is output for all vertices of a set. -/
theorem sum_tally (vertices : Finset K) (pairs : List (K × V)) :
    ∑ k ∈ vertices, tally pairs k =
      ((pairs.filter fun kv => kv.1 ∈ vertices).map Prod.snd).sum := by
  induction pairs with
  | nil => simp
  | cons kv pairs ih =>
    obtain ⟨j, v⟩ := kv
    simp only [tally_cons, Finset.sum_add_distrib, ih, Finset.sum_ite_eq, List.filter_cons]
    by_cases hj : j ∈ vertices <;> simp [hj]

/-- A common factor of all that is output. -/
theorem tally_map_mul [NonUnitalNonAssocSemiring R] (target : L → K) (factor : L → R)
    (links : List L) (v : R) (k : K) :
    tally (links.map fun l => (target l, v * factor l)) k =
      v * tally (links.map fun l => (target l, factor l)) k := by
  induction links with
  | nil => simp
  | cons l links ih =>
    rw [List.map_cons, List.map_cons, tally_cons, tally_cons, ih, mul_add]
    split_ifs
    · rfl
    · rw [mul_zero]

end Output

/-! ## Runs -/

/-- A run from the pending deltas `init` and values zero: the absorptions, in order. Each
absorbs a part of what is pending, and emits for its delta and the value it leads to. -/
inductive Iteration (init : K → V) (emit : K → V → V → List (K × V)) :
    List (Absorption K V) → Prop
  | nil : Iteration init emit []
  | absorb {as : List (Absorption K V)} {a : Absorption K V} (hprev : Iteration init emit as)
      (hpending : Part (absorbed as a.vertex + a.delta)
        (init a.vertex + tally (emissions as) a.vertex))
      (hemitted : a.emitted = emit a.vertex a.delta (absorbed as a.vertex + a.delta)) :
      Iteration init emit (as ++ [a])

section Append

variable {as : List (Absorption K V)} {a : Absorption K V} {k : K}

theorem absorbed_concat :
    absorbed (as ++ [a]) k = absorbed as k + if a.vertex = k then a.delta else 0 := by
  simp [absorbed]

theorem absorbed_concat_self : absorbed (as ++ [a]) a.vertex = absorbed as a.vertex + a.delta := by
  rw [absorbed_concat, if_pos rfl]

theorem absorbed_concat_of_ne (hk : k ≠ a.vertex) : absorbed (as ++ [a]) k = absorbed as k := by
  rw [absorbed_concat, if_neg hk.symm, add_zero]

theorem tally_emissions_concat :
    tally (emissions (as ++ [a])) k = tally (emissions as) k + tally a.emitted k := by
  simp [emissions]

/-- A value never shrinks. -/
theorem part_absorbed_append (bs : List (Absorption K V)) :
    Part (absorbed as k) (absorbed (as ++ bs) k) := by
  refine ⟨absorbed bs k, ?_⟩
  rw [absorbed, absorbed, absorbed, List.map_append, tally_append]

end Append

/-- What a vertex emits is what its contributions grow by. -/
structure Accounts (contrib : K → V → K → V) (emit : K → V → V → List (K × V)) : Prop where
  zero : ∀ j k, contrib j 0 k = 0
  grow : ∀ j value delta k,
    contrib j value k + tally (emit j delta (value + delta)) k = contrib j (value + delta) k

section Solution

variable {init : K → V} {emit : K → V → V → List (K × V)} {contrib : K → V → K → V}
  {vertices : Finset K} {as : List (Absorption K V)} {X : K → V}

/-- Emissions that are additive in the delta are accounted for. -/
theorem AdditiveEmission.accounts (hadd : AdditiveEmission contrib)
    (hemit : ∀ j delta value k, tally (emit j delta value) k = contrib j delta k) :
    Accounts contrib emit :=
  ⟨hadd.zero, fun j value delta k => by rw [hemit, hadd.add]⟩

/-- Contributions are monotone. -/
theorem Accounts.part (hacc : Accounts contrib emit) {j k : K} {a b : V} (hab : Part a b) :
    Part (contrib j a k) (contrib j b k) := by
  obtain ⟨delta, rfl⟩ := hab
  exact ⟨_, hacc.grow j a delta k⟩

/-- What has been emitted is what the vertices contribute from their values. -/
theorem Iteration.tally_emissions (h : Iteration init emit as) (hacc : Accounts contrib emit)
    (hmem : ∀ a ∈ as, a.vertex ∈ vertices) (k : K) :
    tally (emissions as) k = ∑ j ∈ vertices, contrib j (absorbed as j) k := by
  induction h with
  | nil =>
    change 0 = ∑ j ∈ vertices, contrib j 0 k
    exact (Finset.sum_eq_zero fun j _ => hacc.zero j k).symm
  | @absorb as a _ _ hemitted ih =>
    have hprev := ih fun b hb => hmem b (List.mem_append_left _ hb)
    have hv : a.vertex ∈ vertices := hmem a (by simp)
    -- only the contributions of the vertex have changed
    have hrest : ∑ j ∈ vertices.erase a.vertex, contrib j (absorbed (as ++ [a]) j) k =
        ∑ j ∈ vertices.erase a.vertex, contrib j (absorbed as j) k :=
      Finset.sum_congr rfl fun j hj => by rw [absorbed_concat_of_ne (Finset.ne_of_mem_erase hj)]
    calc tally (emissions (as ++ [a])) k
        = ∑ j ∈ vertices.erase a.vertex, contrib j (absorbed as j) k +
            (contrib a.vertex (absorbed as a.vertex) k + tally a.emitted k) := by
          rw [tally_emissions_concat, hprev, ← Finset.sum_erase_add _ _ hv, add_assoc]
      _ = ∑ j ∈ vertices, contrib j (absorbed (as ++ [a]) j) k := by
          rw [hemitted, hacc.grow, ← Finset.sum_erase_add _ _ hv, hrest, absorbed_concat_self]

/-- The values never exceed a solution, or what is more than a solution needs. -/
theorem Iteration.part_of_solution (h : Iteration init emit as) (hacc : Accounts contrib emit)
    (hmem : ∀ a ∈ as, a.vertex ∈ vertices)
    (hX : ∀ k ∈ vertices, Part (init k + ∑ j ∈ vertices, contrib j (X j) k) (X k)) :
    ∀ k ∈ vertices, Part (absorbed as k) (X k) := by
  induction h with
  | nil => exact fun k _ => Part.zero _
  | @absorb as a hprev hpending _ ih =>
    have hmem' : ∀ b ∈ as, b.vertex ∈ vertices := fun b hb => hmem b (List.mem_append_left _ hb)
    have hold := ih hmem'
    intro k hk
    by_cases hka : k = a.vertex
    · subst hka
      rw [absorbed_concat_self]
      refine hpending.trans (Part.trans ?_ (hX _ hk))
      rw [hprev.tally_emissions hacc hmem']
      exact (Part.refl _).add (Part.sum fun j hj => hacc.part (hold j hj))
    · rw [absorbed_concat_of_ne hka]
      exact hold k hk

/-- When nothing is pending, the values solve the equation. -/
theorem Iteration.solution (h : Iteration init emit as) (hacc : Accounts contrib emit)
    (hmem : ∀ a ∈ as, a.vertex ∈ vertices) {k : K}
    (hquiet : absorbed as k = init k + tally (emissions as) k) :
    absorbed as k = init k + ∑ j ∈ vertices, contrib j (absorbed as j) k := by
  rw [← h.tally_emissions hacc hmem k, hquiet]

end Solution

/-! ## Rounds -/

section Rounds

variable {init : K → V} {emit : K → V → V → List (K × V)} {contrib : K → V → K → V}
  {vertices : Finset K} {n n' : ℕ} {k : K}

/-- The values after `n` rounds: in each, all vertices take what the round before has left for
them. -/
def rounds (init : K → V) (contrib : K → V → K → V) (vertices : Finset K) : ℕ → K → V
  | 0, _ => 0
  | n + 1, k => init k + ∑ j ∈ vertices, contrib j (rounds init contrib vertices n j) k

theorem Accounts.part_rounds_succ (hacc : Accounts contrib emit) :
    Part (rounds init contrib vertices n k) (rounds init contrib vertices (n + 1) k) := by
  induction n generalizing k with
  | zero => exact Part.zero _
  | succ n ih => exact (Part.refl _).add (Part.sum fun j _ => hacc.part ih)

/-- More rounds give no less. -/
theorem Accounts.part_rounds (hacc : Accounts contrib emit) (h : n ≤ n') :
    Part (rounds init contrib vertices n k) (rounds init contrib vertices n' k) := by
  induction n', h using Nat.le_induction with
  | base => exact Part.refl _
  | succ n' _ ih => exact ih.trans hacc.part_rounds_succ

end Rounds

/-! ## Justified values -/

/-- A property that the deltas at the start have, that parts and sums inherit, and that passes
from what a vertex absorbs to what it emits. -/
structure Justifies (vertices : Set K) (init : K → V) (emit : K → V → V → List (K × V))
    (Q : K → V → Prop) : Prop where
  init : ∀ k, Q k (init k)
  zero : ∀ k, Q k 0
  add : ∀ k a b, Q k a → Q k b → Q k (a + b)
  part : ∀ k a b, Part a b → Q k b → Q k a
  emit : ∀ j ∈ vertices, ∀ delta value, Q j delta → Q j value →
    ∀ kv ∈ emit j delta value, Q kv.1 kv.2

section Justified

variable {vertices : Set K} {init : K → V} {emit : K → V → V → List (K × V)} {Q : K → V → Prop}
  {as : List (Absorption K V)}

theorem Justifies.tally (hQ : Justifies vertices init emit Q) {pairs : List (K × V)}
    (hpairs : ∀ kv ∈ pairs, Q kv.1 kv.2) (k : K) : Q k (tally pairs k) := by
  induction pairs with
  | nil => exact hQ.zero k
  | cons kv pairs ih =>
    obtain ⟨j, v⟩ := kv
    rw [tally_cons]
    refine hQ.add k _ _ ?_ (ih fun kv hkv => hpairs kv (List.mem_cons_of_mem _ hkv))
    split_ifs with hj
    · exact hj ▸ hpairs (j, v) List.mem_cons_self
    · exact hQ.zero k

/-- What is absorbed is justified, and so is all that there is for a vertex. -/
theorem Iteration.justified (h : Iteration init emit as) (hQ : Justifies vertices init emit Q)
    (hmem : ∀ a ∈ as, a.vertex ∈ vertices) :
    (∀ k, Q k (absorbed as k)) ∧ ∀ k, Q k (init k + CS.DeltaIteration.tally (emissions as) k) := by
  induction h with
  | nil =>
    refine ⟨hQ.zero, fun k => ?_⟩
    exact hQ.add k _ _ (hQ.init k) (hQ.zero k)
  | @absorb as a _ hpending hemitted ih =>
    obtain ⟨habsorbed, hall⟩ := ih fun b hb => hmem b (List.mem_append_left _ hb)
    have hvalue := hQ.part _ _ _ hpending (hall a.vertex)
    have hdelta : Q a.vertex a.delta := by
      refine hQ.part _ _ _ ?_ hvalue
      rw [add_comm]
      exact Part.add_right _ _
    refine ⟨fun k => ?_, fun k => ?_⟩
    · by_cases hk : k = a.vertex
      · rw [hk, absorbed_concat_self]
        exact hvalue
      · rw [absorbed_concat_of_ne hk]
        exact habsorbed k
    · rw [tally_emissions_concat, ← add_assoc]
      refine hQ.add k _ _ (hall k) (hQ.tally ?_ k)
      rw [hemitted]
      exact hQ.emit _ (hmem a (by simp)) _ _ hdelta hvalue

end Justified

end CS.DeltaIteration
