/-
# What a quiescent cluster has computed

When what `g_func` outputs for a target is additive in the delta and does not depend on
the value, the iteration computes a solution of a linear equation: in a state without
pending deltas the value of a vertex is its `init_c` and what all vertices contribute to
it from their values. Neither the schedule nor the order of messages matters.

The values are what was absorbed only if `process_delta_v` leaves the delta alone. A
kernel that rescales the delta there solves another equation.
-/

import MaiterStore.Worker.Propagation

namespace MaiterStore

open CS.Run CS.DeltaIteration

/-- What `g_func` outputs for a target depends on the vertex, the delta and the data
only, and is additive in the delta. -/
structure IterateKernel.Linear {K V D : Type*} [DecidableEq K] [AddCommMonoid V]
    (kern : IterateKernel K V D) : Prop where
  of_value : ∀ j delta value value' data k,
    tally (kern.gFunc j delta value data) k = tally (kern.gFunc j delta value' data) k
  default : ∀ j value data k, tally (kern.gFunc j kern.defaultV value data) k = kern.defaultV
  add : ∀ j a b value data k, tally (kern.gFunc j (kern.accumulate a b) value data) k =
    kern.accumulate (tally (kern.gFunc j a value data) k) (tally (kern.gFunc j b value data) k)

namespace Cluster

variable {ι K V D : Type*} [DecidableEq ι] [DecidableEq K] [AddCommMonoid V]

/-- Every `F1` is `default_v`, every buffer is empty, no message is under way and no
`run_iter` is in progress. -/
structure Quiescent (d : TableDescriptor ι K V D) (vertices : Finset K) (s : Cluster ι K V D) :
    Prop where
  f1_eq : ∀ k ∈ vertices, (s.kernels (d.owner (d.getShard k))).table.f1 d k = d.kern.defaultV
  buffers : ∀ w, ∀ i < d.numShards, d.owner i ≠ w → ((s.kernels w).table.partitions i).empty = true
  sent : ∀ w, (s.kernels w).table.sent = []
  output : ∀ w, (s.kernels w).output = []

/-- `F2` of `k` at the owner of its shard. -/
def ownerF2 (d : TableDescriptor ι K V D) (s : Cluster ι K V D) (k : K) : V :=
  (s.kernels (d.owner (d.getShard k))).table.f2 d k

variable [Fintype ι] {d : TableDescriptor ι K V D} {store : K → D} {seed : D}
  {vertices : Finset K} {targets : Set K} {s₀ s : Cluster ι K V D}

omit [DecidableEq ι] in
/-- Where all buffers are empty and nothing is under way, what is pending is `F1` at the owner. -/
theorem pending_eq_f1 {vertices : Set K} (hbuffers : ∀ w, ∀ i < d.numShards, d.owner i ≠ w →
      ((s.kernels w).table.partitions i).empty = true)
    (hsent : ∀ w, (s.kernels w).table.sent = []) (houtput : ∀ w, (s.kernels w).output = [])
    (hsound : ∀ w, Sound d vertices targets w (s.kernels w)) (k : K) :
    (abs d s).pending k = (s.kernels (d.owner (d.getShard k))).table.f1 d k := by
  have hload : ∀ w, load d (s.kernels w) k = (s.kernels w).table.f1 d k := by
    intro w
    rw [load, GlobalTable.held, hsent, houtput]
    simp [GlobalTable.pairsIn]
  change ∑ w, load d (s.kernels w) k = _
  rw [Finset.sum_eq_single (d.owner (d.getShard k)), hload]
  · intro w _ hown
    have hremote : d.owner (d.getShard k) ≠ (s.kernels w).table.id := by
      rw [(hsound w).id_eq]
      exact hown.symm
    obtain ⟨t, m, hpart, href, -⟩ := (hsound w).wellFormed.delta _ (d.getShard_lt k) hremote
    have hempty : t.empty = true := by
      have hpartition := hbuffers w _ (d.getShard_lt k) hown.symm
      rwa [hpart] at hpartition
    rw [hload, GlobalTable.f1_of_delta hpart href, href.lookup_eq_none_of_empty hempty]
    rfl
  · exact fun hnot => absurd (Finset.mem_univ _) hnot

omit [DecidableEq ι] in
/-- Nothing is pending in a quiescent state. -/
theorem Quiescent.pending_eq_zero (hquiet : Quiescent d vertices s) (hkern : d.kern.Additive)
    (hsound : ∀ w, Sound d vertices targets w (s.kernels w)) {k : K} (hk : k ∈ vertices) :
    (abs d s).pending k = 0 := by
  rw [pending_eq_f1 hquiet.buffers hquiet.sent hquiet.output hsound, hquiet.f1_eq k hk,
    hkern.defaultV_eq]

/-- **Quiescent states are fixed points.** Let `accumulate` and `default_v` be a commutative
monoid, `process_delta_v` the default, what `g_func` outputs additive in the delta, and
`init_v` be `default_v`. In every quiescent state that any run on any number of workers
reaches, `F2` of a vertex is its `init_c` and what `g_func` outputs for it at every vertex
for the whole `F2` of that vertex. -/
theorem quiescent_is_fixedPoint (hkern : d.kern.Additive) (hkeeps : d.kern.KeepsDelta)
    (hlinear : d.kern.Linear) (hinit : Initial d seed vertices s₀)
    (hzero : ∀ k ∈ vertices, d.kern.initV k seed = d.kern.defaultV) (acts : List (Action ι K))
    (hrun : run d store acts s₀ = .ok s) (hquiet : Quiescent d vertices s) :
    ∀ k ∈ vertices, ownerF2 d s k = d.kern.initC k seed +
      ∑ j ∈ vertices, tally (d.kern.gFunc j (ownerF2 d s j) (ownerF2 d s j) (store j)) k := by
  -- a run that has come to its end may have emitted any key
  have hemit : EmitsWithin d store Set.univ s₀ acts := fun _ _ _ _ _ _ => Set.mem_univ _
  have hinv := (run_inv hkern hkeeps hinit.inv acts hemit).ok_imp hrun
  have hadd : AdditiveEmission fun j delta k => tally (d.kern.gFunc j delta 0 (store j)) k := by
    refine ⟨fun j k => ?_, fun j a b k => ?_⟩
    · rw [← hkern.defaultV_eq, hlinear.default]
    · rw [← hkern.accumulate_eq, hlinear.add, hkern.accumulate_eq]
  have hhistory : ∀ a ∈ s.history, ∀ k,
      tally a.emitted k = tally (d.kern.gFunc a.vertex a.delta 0 (store a.vertex)) k := by
    intro a ha k
    obtain ⟨-, value, hemitted⟩ := hinv.history a ha
    rw [hemitted, hlinear.of_value]
  intro k hk
  have hfixed := hinv.reached.fixedPoint hadd hhistory (fun a ha => (hinv.history a ha).1)
    (fun j hj => by rw [(hinit.abs_eq hj).1, hzero j hj, hkern.defaultV_eq]) hk
    (hquiet.pending_eq_zero hkern hinv.sound hk)
  rw [(hinit.abs_eq hk).2] at hfixed
  calc ownerF2 d s k
      = d.kern.initC k seed +
          ∑ j ∈ vertices, tally (d.kern.gFunc j (ownerF2 d s j) 0 (store j)) k := hfixed
    _ = d.kern.initC k seed + ∑ j ∈ vertices,
          tally (d.kern.gFunc j (ownerF2 d s j) (ownerF2 d s j) (store j)) k := by
        congr 1
        apply Finset.sum_congr rfl
        intro j _
        exact hlinear.of_value ..

/-! ## Two workers with one vertex each -/

omit [DecidableEq ι] [AddCommMonoid V] [Fintype ι] in
theorem tally_passed_on (targets : List K) (delta : ℕ) (k : K) :
    tally (targets.map fun target => (target, delta)) k = targets.count k * delta := by
  induction targets with
  | nil => simp
  | cons target targets ih =>
    rw [List.map_cons, tally_cons, ih, List.count_cons]
    by_cases hk : target = k <;> simp [hk, add_mul, add_comm]

/-- Any kernel that passes its delta on to the neighbours is linear, whatever it does in
`process_delta_v`. -/
theorem linear_of_gFunc {kern : IterateKernel K ℕ D} (hkern : kern.Additive)
    (neighbours : D → List K)
    (hout : ∀ j delta value data, kern.gFunc j delta value data =
      (neighbours data).map fun target => (target, delta)) : kern.Linear where
  of_value j delta value value' data k := by rw [hout, hout]
  default j value data k := by rw [hout, tally_passed_on, hkern.defaultV_eq, mul_zero]
  add j a b value data k := by
    rw [hout, hout, hout, tally_passed_on, tally_passed_on, tally_passed_on, hkern.accumulate_eq,
      hkern.accumulate_eq, mul_add]

/-- The edge from vertex `0` to vertex `1`. -/
def oneEdge : Fin 2 → Bytes := fun k => if k.val = 0 then [1] else []

theorem quiescent_is_fixedPoint_one_edge :
    bytesKernel.Additive ∧ bytesKernel.KeepsDelta ∧ bytesKernel.Linear ∧
      Initial (pairDescriptor bytesKernel 100) [] (Finset.univ : Finset (Fin 2))
        (pairCluster bytesKernel) ∧
      ∃ s, run (pairDescriptor bytesKernel 100) oneEdge
          [.absorb 0 0, .spread 0, .sendUpdates 0, .absorb 1 1, .applyUpdates 0 0, .absorb 1 1]
          (pairCluster bytesKernel) = .ok s ∧
        Quiescent (pairDescriptor bytesKernel 100) Finset.univ s ∧
        ownerF2 (pairDescriptor bytesKernel 100) s 1 =
          1 + ∑ j, tally (bytesKernel.gFunc j (ownerF2 (pairDescriptor bytesKernel 100) s j)
            (ownerF2 (pairDescriptor bytesKernel 100) s j) (oneEdge j)) 1 := by
  have hkern : bytesKernel.Additive := ⟨fun _ _ => rfl, rfl⟩
  have hkeeps : bytesKernel.KeepsDelta := fun _ _ _ _ => rfl
  have hlinear : bytesKernel.Linear := linear_of_gFunc hkern _ fun _ _ _ _ => rfl
  have hinit : Initial (pairDescriptor bytesKernel 100) [] (Finset.univ : Finset (Fin 2))
      (pairCluster bytesKernel) := by
    rw [Finset.coe_univ]
    exact initial_pairCluster bytesKernel 100
  obtain ⟨s, hrun, hquiet⟩ : ∃ s, run (pairDescriptor bytesKernel 100) oneEdge
      [.absorb 0 0, .spread 0, .sendUpdates 0, .absorb 1 1, .applyUpdates 0 0, .absorb 1 1]
      (pairCluster bytesKernel) = .ok s ∧
      Quiescent (pairDescriptor bytesKernel 100) Finset.univ s :=
    ⟨_, rfl, by decide +kernel, by decide +kernel, by decide +kernel, by decide +kernel⟩
  exact ⟨hkern, hkeeps, hlinear, hinit, s, hrun, hquiet, quiescent_is_fixedPoint hkern hkeeps
    hlinear hinit (fun _ _ => rfl) _ hrun hquiet 1 (Finset.mem_univ 1)⟩

/-- A kernel that doubles the delta before it is accumulated. -/
def doublingKernel : IterateKernel (Fin 2) ℕ Bytes :=
  { bytesKernel with processDeltaV := fun _ delta value data => (2 * delta, value, data) }

/-- The delta `1` of vertex `0` is absorbed as `2`. -/
theorem doubled_delta_misses_fixedPoint :
    doublingKernel.Additive ∧ doublingKernel.Linear ∧
      (∀ k, doublingKernel.initV k [] = doublingKernel.defaultV) ∧
      Initial (pairDescriptor doublingKernel 100) [] (Finset.univ : Finset (Fin 2))
        (pairCluster doublingKernel) ∧
      ∃ s, run (pairDescriptor doublingKernel 100) (fun _ => []) [.absorb 0 0, .absorb 1 1]
          (pairCluster doublingKernel) = .ok s ∧
        Quiescent (pairDescriptor doublingKernel 100) Finset.univ s ∧
        ownerF2 (pairDescriptor doublingKernel 100) s 0 ≠ doublingKernel.initC 0 [] +
          ∑ j, tally (doublingKernel.gFunc j (ownerF2 (pairDescriptor doublingKernel 100) s j)
            (ownerF2 (pairDescriptor doublingKernel 100) s j) []) 0 := by
  have hkern : doublingKernel.Additive := ⟨fun _ _ => rfl, rfl⟩
  have hlinear : doublingKernel.Linear := linear_of_gFunc hkern _ fun _ _ _ _ => rfl
  have hinit : Initial (pairDescriptor doublingKernel 100) [] (Finset.univ : Finset (Fin 2))
      (pairCluster doublingKernel) := by
    rw [Finset.coe_univ]
    exact initial_pairCluster doublingKernel 100
  refine ⟨hkern, hlinear, fun _ => rfl, hinit, _, rfl, ?_, by decide +kernel⟩
  exact ⟨by decide +kernel, by decide +kernel, by decide +kernel, by decide +kernel⟩

end Cluster

end MaiterStore
