/-
# PageRank, Katz and adsorption

These kernels give each neighbour a share of the delta. If no vertex gives away more than a part
`c < 1` of a delta, the equation of the kernel has one solution. In every state of every run `F2`
is at most the solution, and the deltas that are pending anywhere in the cluster bound what `F2`
is short of it.
-/

import Mathlib.Tactic.GCongr
import MaiterStore.CS.Contraction
import MaiterStore.Examples.Kernels
import MaiterStore.Worker.Convergence

namespace MaiterStore

open CS.Run CS.DeltaIteration CS.Contraction

variable {K D : Type*} [DecidableEq K]

/-! ## Shares -/

theorem targetsAt_eq_count (data : List K) (k : K) : targetsAt data k = data.count k := by
  rw [targetsAt]
  induction data with
  | nil => simp
  | cons target data ih =>
    rw [List.map_cons, tally_cons, ih, List.count_cons]
    by_cases hk : target = k <;> simp [hk, add_comm]

theorem tally_map_const (data : List K) (v : ℚ≥0) (k : K) :
    tally (data.map fun target => (target, v)) k = v * targetsAt data k := by
  have hmul := tally_map_mul id (fun _ => 1) data v k
  simp only [mul_one, id_eq] at hmul
  exact hmul

theorem pagerankKernel_shares (store : K → List K) : (pagerankKernel K).Shares store
    fun j k => 8 / 10 / (store j).length * targetsAt (store j) k := by
  intro j delta value k
  change tally ((store j).map fun target => (target, delta * (8 / 10) / (store j).length)) k = _
  rw [tally_map_const, mul_div_assoc, mul_assoc]

theorem katzKernel_shares (source : K) (beta : ℚ≥0) (store : K → List K) :
    (katzKernel source beta).Shares store fun j k => beta * targetsAt (store j) k := by
  intro j delta value k
  change tally ((store j).map fun target => (target, beta * delta)) k = _
  rw [tally_map_const, mul_comm beta, mul_assoc]

theorem adsorptionKernel_shares [LT K] [DecidableLT K] (starts : K) (damping : ℚ≥0)
    (store : K → List (Link K ℚ≥0)) : (adsorptionKernel starts damping).Shares store
      fun j k => damping * weightTo (store j) k := by
  intro j delta value k
  change tally ((store j).map fun target => (target.end, delta * damping * target.weight)) k = _
  rw [tally_map_mul, mul_assoc]
  rfl

/-! ## What the values are short of the solution -/

namespace Cluster

variable {ι : Type*} [DecidableEq ι] [Fintype ι] {d : TableDescriptor ι K ℚ≥0 D} {store : K → D}
  {seed : D} {vertices : Finset K} {s₀ s : Cluster ι K ℚ≥0 D} {share : K → K → ℚ≥0} {c : ℚ}

/-- What all workers have computed for `k`. -/
def result (d : TableDescriptor ι K ℚ≥0 D) (s : Cluster ι K ℚ≥0 D) (k : K) : ℚ :=
  (ownerF2 d s k : ℚ≥0)

/-- What is pending for `k` anywhere. -/
def outstanding (d : TableDescriptor ι K ℚ≥0 D) (s : Cluster ι K ℚ≥0 D) (k : K) : ℚ :=
  ((abs d s).pending k : ℚ≥0)

omit [DecidableEq ι] in
theorem outstanding_nonneg (k : K) : 0 ≤ outstanding d s k := NNRat.coe_nonneg _

/-- In every state that a run reaches, the results leave the pending deltas. -/
theorem leaves_outstanding (hkern : d.kern.Additive) (hkeeps : d.kern.KeepsDelta)
    (hshare : d.kern.Shares store share) (hinit : Initial d seed vertices s₀)
    (hzero : ∀ k ∈ vertices, d.kern.initV k seed = d.kern.defaultV) {acts : List (Action ι K)}
    (hrun : run d store acts s₀ = .ok s) :
    Leaves vertices (fun j k => (share j k : ℚ)) (fun k => (d.kern.initC k seed : ℚ))
      (result d s) (outstanding d s) := by
  have hcomp := run_computes hkern hkeeps hinit hzero acts hrun
  have hacc : Accounts (fun j v k => v * share j k) (emit d store) :=
    AdditiveEmission.accounts ⟨fun _ _ => zero_mul _, fun _ _ _ _ => add_mul ..⟩
      fun j delta value k => hshare j delta value k
  intro k hk
  have hconserved := hcomp.conserved k hk
  rw [hcomp.iteration.tally_emissions hacc (fun a ha => hcomp.vertex a ha)] at hconserved
  have hsum : ∑ j ∈ vertices, absorbed s.history j * share j k =
      ∑ j ∈ vertices, ownerF2 d s j * share j k :=
    Finset.sum_congr rfl fun j hj => by rw [hcomp.f2_eq j hj]
  rw [hsum] at hconserved
  have hcast := congrArg (fun x : ℚ≥0 => (x : ℚ)) hconserved
  simp only [NNRat.cast_add, NNRat.cast_sum, NNRat.cast_mul] at hcast
  exact hcast

/-- **The pending deltas bound the error.** Let every vertex give away at most a part `c < 1` of
a delta. The equation of the kernel has one solution. In every state that any run on any number
of workers reaches, the results are at most the solution, and what they are short of it, all in
all, is at most what is pending divided by `1 - c`. -/
theorem shares_within (hkern : d.kern.Additive) (hkeeps : d.kern.KeepsDelta)
    (hshare : d.kern.Shares store share) (hinit : Initial d seed vertices s₀)
    (hzero : ∀ k ∈ vertices, d.kern.initV k seed = d.kern.defaultV)
    (hcontracts : Contracts vertices (fun j k => (share j k : ℚ)) c) {acts : List (Action ι K)}
    (hrun : run d store acts s₀ = .ok s) :
    ∃ R, Solves vertices (fun j k => (share j k : ℚ)) (fun k => (d.kern.initC k seed : ℚ)) R ∧
      (∀ R', Solves vertices (fun j k => (share j k : ℚ)) (fun k => (d.kern.initC k seed : ℚ)) R' →
        ∀ k ∈ vertices, R' k = R k) ∧
      (∀ k ∈ vertices, result d s k ≤ R k) ∧
      (1 - c) * ∑ k ∈ vertices, (R k - result d s k) ≤ ∑ k ∈ vertices, outstanding d s k ∧
      ((∀ j ∈ vertices, ∑ k ∈ vertices, (share j k : ℚ) = c) →
        (1 - c) * ∑ k ∈ vertices, (R k - result d s k) = ∑ k ∈ vertices, outstanding d s k) := by
  have hleaves := leaves_outstanding hkern hkeeps hshare hinit hzero hrun
  have hpending : ∀ k ∈ vertices, 0 ≤ outstanding d s k := fun k _ => outstanding_nonneg k
  obtain ⟨R, hR⟩ := exists_solves hcontracts fun k => (d.kern.initC k seed : ℚ)
  exact ⟨R, hR, fun R' hR' => hR'.unique hcontracts hR, hleaves.le_solution hcontracts hpending hR,
    hleaves.error_le hcontracts hpending hR, fun htotal => hleaves.error_eq htotal hR⟩

/-- The results only grow. -/
theorem Leads.result_le (hkern : d.kern.Additive) (hkeeps : d.kern.KeepsDelta)
    (hinit : Initial d seed vertices s₀)
    (hzero : ∀ k ∈ vertices, d.kern.initV k seed = d.kern.defaultV) {s' : Cluster ι K ℚ≥0 D}
    (h : Leads d store s₀ s) (h' : Leads d store s s') {k : K} (hk : k ∈ vertices) :
    result d s k ≤ result d s' k := by
  obtain ⟨delta, hdelta⟩ := h.part_value hkern hkeeps hinit hzero h' hk
  rw [result, result, ← hdelta]
  exact NNRat.cast_le.mpr le_self_add

/-- The results are at most the solution. -/
theorem Leads.result_le_solution (hkern : d.kern.Additive) (hkeeps : d.kern.KeepsDelta)
    (hshare : d.kern.Shares store share) (hinit : Initial d seed vertices s₀)
    (hzero : ∀ k ∈ vertices, d.kern.initV k seed = d.kern.defaultV)
    (hcontracts : Contracts vertices (fun j k => (share j k : ℚ)) c) {R : K → ℚ}
    (hR : Solves vertices (fun j k => (share j k : ℚ)) (fun k => (d.kern.initC k seed : ℚ)) R)
    (h : Leads d store s₀ s) : ∀ k ∈ vertices, result d s k ≤ R k := by
  obtain ⟨acts, hrun⟩ := h
  exact (leaves_outstanding hkern hkeeps hshare hinit hzero hrun).le_solution hcontracts
    (fun k _ => outstanding_nonneg k) hR

/-- Every round leaves at most the part `c` of what the results are short of the solution. -/
theorem Rounds.error_le (hkern : d.kern.Additive) (hkeeps : d.kern.KeepsDelta)
    (hshare : d.kern.Shares store share) (hinit : Initial d seed vertices s₀)
    (hzero : ∀ k ∈ vertices, d.kern.initV k seed = d.kern.defaultV)
    (hcontracts : Contracts vertices (fun j k => (share j k : ℚ)) c) (hc : 0 ≤ c) {R : K → ℚ}
    (hR : Solves vertices (fun j k => (share j k : ℚ)) (fun k => (d.kern.initC k seed : ℚ)) R)
    {n : ℕ} {s' : Cluster ι K ℚ≥0 D} (h : Leads d store s₀ s)
    (hrounds : Rounds d store vertices n s s') :
    ∑ k ∈ vertices, (R k - result d s' k) ≤ c ^ n * ∑ k ∈ vertices, (R k - result d s k) := by
  induction hrounds with
  | zero hleads =>
    rw [pow_zero, one_mul]
    exact Finset.sum_le_sum fun k hk =>
      sub_le_sub_left (h.result_le hkern hkeeps hinit hzero hleads hk) _
  | @succ n s s₁ s' hprev hround ih =>
    obtain ⟨acts, hrun⟩ := h.trans hprev.leads
    have hleaves := leaves_outstanding hkern hkeeps hshare hinit hzero hrun
    -- a round takes in what was outstanding
    have htaken : ∀ k ∈ vertices, result d s₁ k + outstanding d s₁ k ≤ result d s' k := by
      intro k hk
      obtain ⟨delta, hdelta⟩ := hround.takes k hk
      rw [result, outstanding, result, ← hdelta, ← NNRat.cast_add]
      exact NNRat.cast_le.mpr le_self_add
    calc ∑ k ∈ vertices, (R k - result d s' k)
        ≤ c * ∑ k ∈ vertices, (R k - result d s₁ k) :=
          hleaves.error_after hcontracts (fun k _ => outstanding_nonneg k) hR htaken
      _ ≤ c * (c ^ n * ∑ k ∈ vertices, (R k - result d s k)) :=
          mul_le_mul_of_nonneg_left (ih h) hc
      _ = c ^ (n + 1) * ∑ k ∈ vertices, (R k - result d s k) := by ring

end Cluster

/-! ## PageRank -/

/-- Of the targets in `data`, those that are vertices. -/
theorem sum_targetsAt (vertices : Finset K) (data : List K) :
    ∑ k ∈ vertices, targetsAt data k = (data.filter (· ∈ vertices)).length := by
  simp only [targetsAt]
  rw [sum_tally, List.filter_map, List.map_map]
  simp [Function.comp_def]

theorem sum_targetsAt_le (vertices : Finset K) (data : List K) :
    ∑ k ∈ vertices, targetsAt data k ≤ data.length := by
  rw [sum_targetsAt]
  exact Nat.cast_le.mpr (List.length_filter_le (fun target => decide (target ∈ vertices)) data)

/-- The equation of PageRank over the edges in `store`. -/
def IsPagerank (vertices : Finset K) (store : K → List K) (R : K → ℚ) : Prop :=
  ∀ k ∈ vertices, R k = 2 / 10 +
    ∑ j ∈ vertices, R j * (8 / 10 / (store j).length * (store j).count k)

/-- Every vertex has targets, and they are vertices. -/
def ClosedGraph (vertices : Finset K) (store : K → List K) : Prop :=
  ∀ j ∈ vertices, store j ≠ [] ∧ ∀ target ∈ store j, target ∈ vertices

section Pagerank

variable {vertices : Finset K} {store : K → List K}

theorem sum_pagerankShare (j : K) : ∑ k ∈ vertices, pagerankShare store j k =
    8 / 10 / (store j).length * ∑ k ∈ vertices, targetsAt (store j) k := by
  simp only [pagerankShare, Finset.mul_sum]

theorem sum_pagerankShare_le (j : K) : ∑ k ∈ vertices, pagerankShare store j k ≤ 8 / 10 := by
  rw [sum_pagerankShare]
  calc (8 / 10 / (store j).length : ℚ≥0) * ∑ k ∈ vertices, targetsAt (store j) k
      ≤ 8 / 10 / (store j).length * (store j).length := by
        gcongr
        exact sum_targetsAt_le vertices (store j)
    _ ≤ 8 / 10 := by
        rw [div_mul_eq_mul_div, mul_div_assoc]
        exact mul_le_of_le_one_right (by norm_num) (div_self_le_one _)

theorem sum_pagerankShare_eq (hclosed : ClosedGraph vertices store) {j : K} (hj : j ∈ vertices) :
    ∑ k ∈ vertices, pagerankShare store j k = 8 / 10 := by
  obtain ⟨hne, hmem⟩ := hclosed j hj
  have hall : (store j).filter (· ∈ vertices) = store j :=
    List.filter_eq_self.mpr fun target htarget => decide_eq_true (hmem target htarget)
  rw [sum_pagerankShare, sum_targetsAt, hall]
  have hlength : ((store j).length : ℚ≥0) ≠ 0 :=
    Nat.cast_ne_zero.mpr (mt List.length_eq_zero_iff.mp hne)
  exact div_mul_cancel₀ _ hlength

theorem pagerank_contracts :
    Contracts vertices (fun j k => (pagerankShare store j k : ℚ)) (8 / 10) where
  nonneg j _ k _ := NNRat.coe_nonneg _
  total j _ := by
    have hcast : ((∑ k ∈ vertices, pagerankShare store j k : ℚ≥0) : ℚ) ≤ ((8 / 10 : ℚ≥0) : ℚ) :=
      NNRat.cast_le.mpr (sum_pagerankShare_le j)
    rw [NNRat.cast_sum] at hcast
    simpa using hcast
  lt_one := by norm_num

theorem solves_iff_isPagerank {R : K → ℚ} :
    Solves vertices (fun j k => (pagerankShare store j k : ℚ)) (fun _ => 2 / 10) R ↔
      IsPagerank vertices store R := by
  simp [Solves, given, IsPagerank, pagerankShare, targetsAt_eq_count]

end Pagerank

namespace Cluster

variable {ι : Type*} [DecidableEq ι] [Fintype ι] {vertices : Finset K}

/-- **What PageRank computes.** The equation of PageRank has one solution `R`. In every state of
every run the results are at most `R`, and all in all short of it by at most five times what is
pending. In a closed graph it is exactly that, and the number of vertices less the sum of the
results, which is what the termination check estimates. -/
theorem pagerank_within {d : TableDescriptor ι K ℚ≥0 (List K)} (hd : d.kern = pagerankKernel K)
    {store : K → List K} {s₀ s : Cluster ι K ℚ≥0 (List K)} (hinit : Initial d [] vertices s₀)
    {acts : List (Action ι K)} (hrun : run d store acts s₀ = .ok s) :
    ∃ R, IsPagerank vertices store R ∧
      (∀ R', IsPagerank vertices store R' → ∀ k ∈ vertices, R' k = R k) ∧
      (∀ k ∈ vertices, result d s k ≤ R k) ∧
      ∑ k ∈ vertices, (R k - result d s k) ≤ 5 * ∑ k ∈ vertices, outstanding d s k ∧
      (ClosedGraph vertices store →
        ∑ k ∈ vertices, (R k - result d s k) = 5 * ∑ k ∈ vertices, outstanding d s k ∧
        ∑ k ∈ vertices, (R k - result d s k) =
          vertices.card - ∑ k ∈ vertices, result d s k) := by
  have hshares : d.kern.Shares store (pagerankShare store) := by
    rw [hd]
    exact pagerankKernel_shares store
  have hinitC : (fun k => (d.kern.initC k [] : ℚ)) = fun _ => 2 / 10 := by
    funext k
    rw [hd]
    change ((2 / 10 : ℚ≥0) : ℚ) = 2 / 10
    simp
  obtain ⟨R, hR, hunique, hle, herror, herror_eq⟩ := shares_within
    (by rw [hd]; exact sumUp_additive) (by rw [hd]; exact sumUp_keepsDelta) hshares hinit
    (by rw [hd]; exact fun _ _ => rfl) pagerank_contracts hrun
  rw [hinitC] at hR hunique
  refine ⟨R, solves_iff_isPagerank.mp hR,
    fun R' hR' => hunique R' (solves_iff_isPagerank.mpr hR'), hle, by linarith, fun hclosed => ?_⟩
  have htotal : ∀ j ∈ vertices, ∑ k ∈ vertices, (pagerankShare store j k : ℚ) = 8 / 10 := by
    intro j hj
    have hcast := congrArg (fun x : ℚ≥0 => (x : ℚ)) (sum_pagerankShare_eq hclosed hj)
    rw [NNRat.cast_sum] at hcast
    simpa using hcast
  -- the ranks of a closed graph add up to the number of its vertices
  have hsum : ∑ k ∈ vertices, R k = vertices.card := by
    have hall : ∑ k ∈ vertices, R k = ∑ k ∈ vertices, (2 / 10 : ℚ) +
        ∑ k ∈ vertices, given vertices (fun j k => (pagerankShare store j k : ℚ)) R k := by
      rw [← Finset.sum_add_distrib]
      exact Finset.sum_congr rfl hR
    have hgiven : ∑ k ∈ vertices, given vertices (fun j k => (pagerankShare store j k : ℚ)) R k =
        8 / 10 * ∑ k ∈ vertices, R k := by
      rw [sum_given, Finset.mul_sum]
      exact Finset.sum_congr rfl fun j hj => by rw [htotal j hj, mul_comm]
    rw [hgiven, Finset.sum_const, nsmul_eq_mul] at hall
    linarith
  have hexact := herror_eq htotal
  refine ⟨by linarith, ?_⟩
  rw [Finset.sum_sub_distrib, hsum]

/-- **PageRank converges.** In every state of every run, and with any schedule, each round leaves at
most `8/10` of what the results are in total short of the solution. If all targets are vertices, the
run can always go on to where they are short of it by less than any bound. -/
theorem pagerank_converges {d : TableDescriptor ι K ℚ≥0 (List K)} (hd : d.kern = pagerankKernel K)
    {store : K → List K} {s₀ s : Cluster ι K ℚ≥0 (List K)} (hinit : Initial d [] vertices s₀)
    {acts : List (Action ι K)} (hrun : run d store acts s₀ = .ok s) :
    ∃ R, IsPagerank vertices store R ∧
      (∀ n s', Rounds d store vertices n s s' → ∀ more s'', run d store more s' = .ok s'' →
        (∀ k ∈ vertices, result d s'' k ≤ R k) ∧
        ∑ k ∈ vertices, (R k - result d s'' k) ≤
          (8 / 10) ^ n * ∑ k ∈ vertices, (R k - result d s k)) ∧
      ((∀ j ∈ vertices, ∀ target ∈ store j, target ∈ vertices) → ∀ ε > 0, ∃ more s',
        run d store more s = .ok s' ∧ ∑ k ∈ vertices, (R k - result d s' k) < ε) := by
  have hkern : d.kern.Additive := by
    rw [hd]
    exact sumUp_additive
  have hkeeps : d.kern.KeepsDelta := by
    rw [hd]
    exact sumUp_keepsDelta
  have hzero : ∀ k ∈ vertices, d.kern.initV k [] = d.kern.defaultV := by
    rw [hd]
    exact fun _ _ => rfl
  have hshares : d.kern.Shares store (pagerankShare store) := by
    rw [hd]
    exact pagerankKernel_shares store
  have h : Leads d store s₀ s := ⟨acts, hrun⟩
  have hcontracts : Contracts vertices (fun j k => (pagerankShare store j k : ℚ)) (8 / 10) :=
    pagerank_contracts
  obtain ⟨R, hR⟩ := exists_solves hcontracts fun k => (d.kern.initC k [] : ℚ)
  have hinitC : (fun k => (d.kern.initC k [] : ℚ)) = fun _ => 2 / 10 := by
    funext k
    rw [hd]
    change ((2 / 10 : ℚ≥0) : ℚ) = 2 / 10
    simp
  -- every round takes off at least a fifth of what is missing
  have hafter : ∀ n s', Rounds d store vertices n s s' → ∑ k ∈ vertices, (R k - result d s' k) ≤
      (8 / 10) ^ n * ∑ k ∈ vertices, (R k - result d s k) := fun n s' hrounds =>
    hrounds.error_le hkern hkeeps hshares hinit hzero hcontracts (by norm_num) hR h
  refine ⟨R, ?_, ?_, ?_⟩
  · rw [hinitC] at hR
    exact solves_iff_isPagerank.mp hR
  · intro n s' hrounds more s'' hmore
    have h' : Leads d store s₀ s' := h.trans hrounds.leads
    have hfurther : Leads d store s' s'' := ⟨more, hmore⟩
    refine ⟨?_, le_trans (Finset.sum_le_sum fun k hk => ?_) (hafter n s' hrounds)⟩
    · exact (h'.trans hfurther).result_le_solution hkern hkeeps hshares hinit hzero hcontracts hR
    · exact sub_le_sub_left (h'.result_le hkern hkeeps hinit hzero hfurther hk) _
  · intro htargets ε hε
    have hemits : EmitsVertices d store vertices := by
      intro j hj delta value kv hkv
      rw [emit, hd] at hkv
      obtain ⟨target, htarget, rfl⟩ := List.mem_map.mp hkv
      exact htargets j hj target htarget
    have hnonneg : 0 ≤ ∑ k ∈ vertices, (R k - result d s k) :=
      Finset.sum_nonneg fun k hk => sub_nonneg.mpr
        (h.result_le_solution hkern hkeeps hshares hinit hzero hcontracts hR k hk)
    obtain ⟨n, hn⟩ := exists_pow_mul_lt (c := (8 / 10 : ℚ)) (by norm_num) (by norm_num) hnonneg hε
    obtain ⟨s', hrounds⟩ := exists_rounds hkern hkeeps hinit hzero hemits h n
    obtain ⟨more, hmore⟩ := hrounds.leads
    exact ⟨more, s', hmore, (hafter n s' hrounds).trans_lt hn⟩

/-- Two vertices with an edge each to the other. -/
theorem pagerank_within_cycle :
    Initial (duoDescriptor (pagerankKernel (Fin 2))) [] (Finset.univ : Finset (Fin 2))
      (duoCluster (pagerankKernel (Fin 2)) []) ∧
      ∃ s, run (duoDescriptor (pagerankKernel (Fin 2))) (fun k => [k + 1])
          [.absorb 0 0, .spread 0, .sendUpdates 0, .absorb 1 1, .applyUpdates 0 0]
          (duoCluster (pagerankKernel (Fin 2)) []) = .ok s ∧
        ∃ R, IsPagerank Finset.univ (fun k => [k + 1]) R ∧
          ∑ k, (R k - result (duoDescriptor (pagerankKernel (Fin 2))) s k) =
            2 - ∑ k, result (duoDescriptor (pagerankKernel (Fin 2))) s k := by
  have hinit := initial_duoCluster (pagerankKernel (Fin 2)) []
  have hclosed : ClosedGraph Finset.univ fun k : Fin 2 => [k + 1] :=
    fun _ _ => ⟨List.cons_ne_nil _ _, fun _ _ => Finset.mem_univ _⟩
  obtain ⟨s, hrun⟩ := run_returns (fun k => [k + 1]) ⟨fun _ _ => rfl, rfl⟩
    (fun _ _ _ _ => rfl) hinit Finset.mem_univ
    [.absorb 0 0, .spread 0, .sendUpdates 0, .absorb 1 1, .applyUpdates 0 0]
  obtain ⟨R, hR, -, -, -, hexact⟩ := pagerank_within rfl hinit hrun
  refine ⟨hinit, s, hrun, R, hR, ?_⟩
  simpa using (hexact hclosed).2

/-- Two vertices with an edge each to the other, from the start. -/
theorem pagerank_converges_cycle :
    Initial (duoDescriptor (pagerankKernel (Fin 2))) [] (Finset.univ : Finset (Fin 2))
      (duoCluster (pagerankKernel (Fin 2)) []) ∧
      ∃ R, IsPagerank Finset.univ (fun k => [k + 1]) R ∧ ∃ more s',
        run (duoDescriptor (pagerankKernel (Fin 2))) (fun k => [k + 1]) more
          (duoCluster (pagerankKernel (Fin 2)) []) = .ok s' ∧
        ∑ k, (R k - result (duoDescriptor (pagerankKernel (Fin 2))) s' k) < 1 / 100 := by
  have hinit := initial_duoCluster (pagerankKernel (Fin 2)) []
  have hbefore : run (duoDescriptor (pagerankKernel (Fin 2))) (fun k => [k + 1]) []
      (duoCluster (pagerankKernel (Fin 2)) []) = .ok (duoCluster (pagerankKernel (Fin 2)) []) := rfl
  obtain ⟨R, hR, -, hreach⟩ := pagerank_converges rfl hinit hbefore
  exact ⟨hinit, R, hR, hreach (fun _ _ _ _ => Finset.mem_univ _) (1 / 100) (by norm_num)⟩

end Cluster

/-! ## Katz and adsorption -/

section KatzAdsorption

variable {vertices : Finset K} {c : ℚ}

omit [DecidableEq K] in
/-- Shares that are one factor times what goes to each vertex. -/
theorem contracts_of_factor {factor : ℚ≥0} {part : K → K → ℚ≥0} (hc : c < 1)
    (htotal : ∀ j ∈ vertices, (factor * ∑ k ∈ vertices, part j k : ℚ≥0) ≤ c) :
    Contracts vertices (fun j k => ((factor * part j k : ℚ≥0) : ℚ)) c where
  nonneg j _ k _ := NNRat.coe_nonneg _
  total j hj := by
    rw [← NNRat.cast_sum, ← Finset.mul_sum]
    exact htotal j hj
  lt_one := hc

/-- Katz converges where `katz_beta` is small for the degrees. -/
theorem katz_contracts {store : K → List K} {beta : ℚ≥0} (hc : c < 1)
    (hdegree : ∀ j ∈ vertices, (beta * (store j).length : ℚ≥0) ≤ c) :
    Contracts vertices (fun j k => ((beta * targetsAt (store j) k : ℚ≥0) : ℚ)) c := by
  refine contracts_of_factor hc fun j hj => le_trans ?_ (hdegree j hj)
  exact NNRat.cast_le.mpr (mul_le_mul_of_nonneg_left (sum_targetsAt_le vertices (store j)) zero_le)

/-- Of the links in `data`, the weights of those to vertices. -/
theorem sum_weightTo (vertices : Finset K) (data : List (Link K ℚ≥0)) :
    ∑ k ∈ vertices, weightTo data k =
      ((data.filter fun target => target.end ∈ vertices).map Link.weight).sum := by
  simp only [weightTo]
  rw [sum_tally, List.filter_map, List.map_map]
  rfl

/-- Adsorption converges where the weights of the links of a vertex and `adsorption_damping` are
small. -/
theorem adsorption_contracts {store : K → List (Link K ℚ≥0)} {damping : ℚ≥0} (hc : c < 1)
    (hweights : ∀ j ∈ vertices, (damping *
      ((((store j).filter fun target => target.end ∈ vertices).map Link.weight).sum) : ℚ≥0) ≤ c) :
    Contracts vertices (fun j k => ((damping * weightTo (store j) k : ℚ≥0) : ℚ)) c := by
  refine contracts_of_factor hc fun j hj => ?_
  rw [sum_weightTo]
  exact hweights j hj

end KatzAdsorption

namespace Cluster

variable {ι : Type*} [DecidableEq ι] [Fintype ι] {vertices : Finset K} {c : ℚ}

/-- **What Katz computes**, where every vertex gives away at most a part `c < 1`. -/
theorem katz_within {source : K} {beta : ℚ≥0} {d : TableDescriptor ι K ℚ≥0 (List K)}
    (hd : d.kern = katzKernel source beta) {store : K → List K}
    (hc : c < 1) (hdegree : ∀ j ∈ vertices, (beta * (store j).length : ℚ≥0) ≤ c)
    {s₀ s : Cluster ι K ℚ≥0 (List K)} (hinit : Initial d [] vertices s₀)
    {acts : List (Action ι K)} (hrun : run d store acts s₀ = .ok s) :
    ∃ R : K → ℚ, (∀ k ∈ vertices, R k = (if k = source then 1000000 else 0) +
        ∑ j ∈ vertices, R j * (beta * (store j).count k)) ∧
      (∀ k ∈ vertices, result d s k ≤ R k) ∧
      (1 - c) * ∑ k ∈ vertices, (R k - result d s k) ≤ ∑ k ∈ vertices, outstanding d s k := by
  have hshares : d.kern.Shares store fun j k => beta * targetsAt (store j) k := by
    rw [hd]
    exact katzKernel_shares source beta store
  obtain ⟨R, hR, -, hle, herror, -⟩ := shares_within (by rw [hd]; exact sumUp_additive)
    (by rw [hd]; exact sumUp_keepsDelta) hshares hinit (by rw [hd]; exact fun _ _ => rfl)
    (katz_contracts hc hdegree) hrun
  refine ⟨R, fun k hk => (hR k hk).trans ?_, hle, herror⟩
  rw [hd]
  have hinitC : (((katzKernel source beta).initC k [] : ℚ≥0) : ℚ) =
      if k = source then 1000000 else 0 := by
    change ((if k = source then 1000000 else 0 : ℚ≥0) : ℚ) = _
    split_ifs <;> simp
  dsimp only
  rw [hinitC]
  simp [given, targetsAt_eq_count]

/-- **What adsorption computes**, where every vertex gives away at most a part `c < 1`. -/
theorem adsorption_within [LT K] [DecidableLT K] {starts : K} {damping : ℚ≥0}
    {d : TableDescriptor ι K ℚ≥0 (List (Link K ℚ≥0))}
    (hd : d.kern = adsorptionKernel starts damping)
    {store : K → List (Link K ℚ≥0)} (hc : c < 1)
    (hweights : ∀ j ∈ vertices, (damping *
      ((((store j).filter fun target => target.end ∈ vertices).map Link.weight).sum) : ℚ≥0) ≤ c)
    {s₀ s : Cluster ι K ℚ≥0 (List (Link K ℚ≥0))} (hinit : Initial d [] vertices s₀)
    {acts : List (Action ι K)} (hrun : run d store acts s₀ = .ok s) :
    ∃ R : K → ℚ, (∀ k ∈ vertices, R k = (if k < starts then 10 else 0) +
        ∑ j ∈ vertices, R j * (damping * weightTo (store j) k)) ∧
      (∀ k ∈ vertices, result d s k ≤ R k) ∧
      (1 - c) * ∑ k ∈ vertices, (R k - result d s k) ≤ ∑ k ∈ vertices, outstanding d s k := by
  have hshares : d.kern.Shares store fun j k => damping * weightTo (store j) k := by
    rw [hd]
    exact adsorptionKernel_shares starts damping store
  obtain ⟨R, hR, -, hle, herror, -⟩ := shares_within (by rw [hd]; exact sumUp_additive)
    (by rw [hd]; exact sumUp_keepsDelta) hshares hinit (by rw [hd]; exact fun _ _ => rfl)
    (adsorption_contracts hc hweights) hrun
  refine ⟨R, fun k hk => (hR k hk).trans ?_, hle, herror⟩
  rw [hd]
  have hinitC : (((adsorptionKernel starts damping).initC k [] : ℚ≥0) : ℚ) =
      if k < starts then 10 else 0 := by
    change ((if k < starts then 10 else 0 : ℚ≥0) : ℚ) = _
    split_ifs <;> simp
  dsimp only
  rw [hinitC]
  simp [given]

end Cluster

end MaiterStore
