/-
# Runs of the cluster as iterations

What the `run_iter` calls of all workers have absorbed and output, in the order in which
they were entered, is the run of a delta-accumulative iteration: each call absorbs a part
of what was pending for its vertex anywhere in the cluster. `F2` at the owner is what has
been absorbed. All that holds of such runs holds of the tables, whatever the schedule.
-/

import Mathlib.Logic.Encodable.Basic
import MaiterStore.CS.LeastSolution
import MaiterStore.Worker.FixedPoint

namespace MaiterStore

open CS.Run CS.DeltaIteration

namespace Cluster

variable {ι K V D : Type*} [DecidableEq ι] [DecidableEq K] [AddCommMonoid V]
  {d : TableDescriptor ι K V D} {store : K → D} {seed : D} {vertices targets : Set K}
  {s₀ s s' : Cluster ι K V D}

/-- What `g_func` outputs at a vertex, with the data that the graph store has for it. -/
def emit (d : TableDescriptor ι K V D) (store : K → D) (j : K) (delta value : V) : List (K × V) :=
  d.kern.gFunc j delta value (store j)

/-- Only entering `run_iter` is recorded. -/
theorem step_history {act : Action ι K} (hact : ∀ w k, act ≠ .absorb w k)
    (hstep : step d store act s = .ok s') : s'.history = s.history := by
  cases act with
  | absorb w k => exact absurd rfl (hact w k)
  | spread w =>
    obtain ⟨m', -, hm'⟩ := bind_eq_ok.mp hstep
    rw [← Except.ok.inj hm']
    rfl
  | sendUpdates w =>
    obtain ⟨g, -, hg⟩ := bind_eq_ok.mp hstep
    rw [← Except.ok.inj hg]
    rfl
  | applyUpdates w n =>
    rw [step] at hstep
    cases hmsg : (s.kernels w).table.sent[n]? with
    | none =>
      rw [hmsg] at hstep
      rw [← Except.ok.inj hstep]
    | some msg =>
      rw [hmsg] at hstep
      obtain ⟨g, -, hg⟩ := bind_eq_ok.mp hstep
      rw [← Except.ok.inj hg]
      rfl

/-- Entering `run_iter` for a vertex of its own, with what it records. -/
theorem step_absorb_history (hkern : d.kern.Additive) (hkeeps : d.kern.KeepsDelta)
    (hsound : ∀ w, Sound d vertices targets w (s.kernels w)) {w : ι} {k : K}
    (hstep : step d store (.absorb w k) s = .ok s') :
    s'.history = s.history ∨ k ∈ vertices ∧ d.owner (d.getShard k) = w ∧
      s'.history = s.history ++ [⟨k, (s.kernels w).table.f1 d k,
        emit d store k ((s.kernels w).table.f1 d k)
          ((s.kernels w).table.f2 d k + (s.kernels w).table.f1 d k)⟩] := by
  have hw := hsound w
  rw [step] at hstep
  by_cases hable :
      ((s.kernels w).output.isEmpty && GlobalTable.contains d k (s.kernels w).table) = true
  · obtain ⟨hidle, hcontains⟩ := Bool.and_eq_true_iff.mp hable
    obtain ⟨hlocal, hk⟩ := (GlobalTable.contains_iff hw.wellFormed).mp hcontains
    obtain ⟨m', hok, habs⟩ := MaiterKernel2.absorb_spec hkern hkeeps hw.wellFormed hk
      hlocal (store k)
    rw [if_pos hable, hok] at hstep
    refine .inr ⟨hk, hlocal.trans hw.id_eq, ?_⟩
    rw [← Except.ok.inj hstep]
    have hout := habs.output_eq
    rw [List.isEmpty_iff.mp hidle, List.nil_append] at hout
    rw [emit, ← hout]
  · rw [if_neg hable] at hstep
    rw [← Except.ok.inj hstep]
    exact .inl rfl

variable [Fintype ι]

/-- The delta at the owner is a part of what is pending. -/
theorem part_pending (s : Cluster ι K V D) (k : K) :
    Part ((s.kernels (d.owner (d.getShard k))).table.f1 d k) ((abs d s).pending k) := by
  rw [pending_eq, add_assoc, add_assoc]
  exact Part.add_right _ _

/-- One action keeps that the record is an iteration. -/
theorem step_iteration (hkern : d.kern.Additive) (hkeeps : d.kern.KeepsDelta) {init : K → V}
    (hinit : ∀ k ∈ vertices, (abs d s₀).value k = 0 ∧ (abs d s₀).pending k = init k)
    (hinv : Inv d store vertices targets s₀ s) (hiter : Iteration init (emit d store) s.history)
    {act : Action ι K} (hstep : step d store act s = .ok s') :
    Iteration init (emit d store) s'.history := by
  by_cases hact : ∃ w k, act = .absorb w k
  · obtain ⟨w, k, rfl⟩ := hact
    rcases step_absorb_history hkern hkeeps hinv.sound hstep with hsame | ⟨hk, rfl, hnew⟩
    · rwa [hsame]
    · obtain ⟨hvalue₀, hpending₀⟩ := hinit k hk
      have hvalue : (s.kernels (d.owner (d.getShard k))).table.f2 d k = absorbed s.history k := by
        have hreached := hinv.reached.value_eq k
        rwa [hvalue₀, zero_add] at hreached
      have hall := hinv.reached.conserved k
      rw [hvalue₀, hpending₀, zero_add] at hall
      rw [hnew]
      refine .absorb hiter ?_ (by rw [hvalue])
      change Part (absorbed s.history k + _) (init k + tally (emissions s.history) k)
      rw [← hall, ← hvalue]
      exact (Part.refl _).add (part_pending s k)
  · rw [step_history (fun w k h => hact ⟨w, k, h⟩) hstep]
    exact hiter

/-- What a run from the initial tables leads to. -/
structure Computes (d : TableDescriptor ι K V D) (store : K → D) (seed : D) (vertices : Set K)
    (s : Cluster ι K V D) : Prop where
  sound : ∀ w, Sound d vertices Set.univ w (s.kernels w)
  iteration : Iteration (fun k => d.kern.initC k seed) (emit d store) s.history
  vertex : ∀ a ∈ s.history, a.vertex ∈ vertices
  f2_eq : ∀ k ∈ vertices, ownerF2 d s k = absorbed s.history k
  conserved : ∀ k ∈ vertices, ownerF2 d s k + (abs d s).pending k =
    d.kern.initC k seed + tally (emissions s.history) k

variable (hkern : d.kern.Additive) (hkeeps : d.kern.KeepsDelta) (hinit : Initial d seed vertices s₀)
  (hzero : ∀ k ∈ vertices, d.kern.initV k seed = d.kern.defaultV)

include hkern hkeeps hinit hzero

/-- **Runs are iterations.** Whatever is emitted, the states that a run from the initial tables
goes through record a run of the iteration. -/
theorem run_computes (acts : List (Action ι K)) (hrun : run d store acts s₀ = .ok s) :
    Computes d store seed vertices s := by
  have hstart : ∀ k ∈ vertices, (abs d s₀).value k = 0 ∧
      (abs d s₀).pending k = d.kern.initC k seed := by
    intro k hk
    obtain ⟨hvalue, hpending⟩ := hinit.abs_eq hk
    exact ⟨by rw [hvalue, hzero k hk, hkern.defaultV_eq], hpending⟩
  have hall : ∀ acts s, run d store acts s₀ = .ok s → Inv d store vertices Set.univ s₀ s ∧
      Iteration (fun k => d.kern.initC k seed) (emit d store) s.history := by
    intro acts
    -- the record grows at its end, so the induction takes the last action first
    induction acts using List.reverseRecOn with
    | nil =>
      intro s hrun
      rw [← Except.ok.inj hrun, hinit.history]
      exact ⟨hinit.inv, .nil⟩
    | append_singleton acts act ih =>
      intro s hrun
      have hsplit : run d store (acts ++ [act]) s₀ =
          (run d store acts s₀).bind (forEach (step d store) [act]) := forEach_append ..
      rw [hsplit] at hrun
      obtain ⟨s₁, hrun₁, hlast⟩ := bind_eq_ok.mp hrun
      obtain ⟨s₂, hstep, hnil⟩ := bind_eq_ok.mp hlast
      obtain rfl := Except.ok.inj hnil
      obtain ⟨hinv, hiter⟩ := ih s₁ hrun₁
      exact ⟨(step_inv hkern hkeeps hinv act).ok_imp hstep fun _ _ => Set.mem_univ _,
        step_iteration hkern hkeeps hstart hinv hiter hstep⟩
  obtain ⟨hinv, hiter⟩ := hall acts s hrun
  refine ⟨hinv.sound, hiter, fun a ha => (hinv.history a ha).1, fun k hk => ?_, fun k hk => ?_⟩
  · have hvalue := hinv.reached.value_eq k
    rw [(hstart k hk).1, zero_add] at hvalue
    exact hvalue
  · have hconserved := hinv.reached.conserved k
    rw [(hstart k hk).1, (hstart k hk).2, zero_add] at hconserved
    exact hconserved

/-! ## The least solution -/

section Least

variable {finset : Finset K} {contrib : K → V → K → V} {X : K → V}

omit [DecidableEq ι] hkern hkeeps hinit hzero in
/-- In every state the values are at most what any solution has, also one that has more than it
needs. -/
theorem Computes.part_of_solution {s : Cluster ι K V D} (hcomp : Computes d store seed finset s)
    (hacc : Accounts contrib (emit d store))
    (hX : ∀ k ∈ finset, Part (d.kern.initC k seed + ∑ j ∈ finset, contrib j (X j) k) (X k)) :
    ∀ k ∈ finset, Part (ownerF2 d s k) (X k) := by
  intro k hk
  rw [hcomp.f2_eq k hk]
  exact hcomp.iteration.part_of_solution hacc (fun a ha => hcomp.vertex a ha) hX k hk

omit [DecidableEq ι] hkern hkeeps hinit hzero in
theorem Computes.solution {s : Cluster ι K V D} (hcomp : Computes d store seed finset s)
    (hacc : Accounts contrib (emit d store)) {k : K} (hk : k ∈ finset)
    (hpending : (abs d s).pending k = 0) :
    ownerF2 d s k = d.kern.initC k seed + ∑ j ∈ finset, contrib j (ownerF2 d s j) k := by
  have hquiet := hcomp.conserved k hk
  rw [hpending, add_zero] at hquiet
  have hsolution := hcomp.iteration.solution hacc (fun a ha => hcomp.vertex a ha) (k := k)
    (by rw [← hcomp.f2_eq k hk, hquiet])
  have hsum : ∑ j ∈ finset, contrib j (ownerF2 d s j) k =
      ∑ j ∈ finset, contrib j (absorbed s.history j) k :=
    Finset.sum_congr rfl fun j hj => by rw [hcomp.f2_eq j hj]
  rw [hsum, ← hsolution, hcomp.f2_eq k hk]

omit hinit hzero in
/-- **The least solution.** Let `contrib` tell what a vertex contributes to others by its value, and
`g_func` output what the contributions grow by; it may use the delta and the value. In every state
that any run on any number of workers reaches, the values are below all values that have at least
what they begin with and are contributed. In quiescent states they solve that equation. -/
theorem least_solution {s : Cluster ι K V D} (hinit : Initial d seed finset s₀)
    (hzero : ∀ k ∈ finset, d.kern.initV k seed = d.kern.defaultV)
    (hacc : Accounts contrib (emit d store)) (acts : List (Action ι K))
    (hrun : run d store acts s₀ = .ok s) :
    (∀ X : K → V,
      (∀ k ∈ finset, Part (d.kern.initC k seed + ∑ j ∈ finset, contrib j (X j) k) (X k)) →
      ∀ k ∈ finset, Part (ownerF2 d s k) (X k)) ∧
    (Quiescent d finset s → ∀ k ∈ finset,
      ownerF2 d s k = d.kern.initC k seed + ∑ j ∈ finset, contrib j (ownerF2 d s j) k) := by
  have hcomp : Computes d store seed finset s := run_computes hkern hkeeps hinit hzero acts hrun
  refine ⟨fun X hX => hcomp.part_of_solution hacc hX, fun hquiet k hk => ?_⟩
  exact hcomp.solution hacc hk (hquiet.pending_eq_zero hkern hcomp.sound hk)

end Least

variable (store) in
omit hzero in
/-- Where every key is a vertex, every run returns. -/
theorem run_returns (hall : ∀ k, k ∈ vertices) (acts : List (Action ι K)) :
    ∃ s, run d store acts s₀ = .ok s := by
  have hemit : EmitsWithin d store vertices s₀ acts := fun _ _ _ _ kv _ => hall kv.1
  obtain ⟨s, hrun, -⟩ :=
    (run_inv hkern hkeeps hinit.inv acts hemit).exists_ok (not_not_intro subset_rfl)
  exact ⟨s, hrun⟩

omit hkern hkeeps hinit hzero [DecidableEq ι] [AddCommMonoid V] [Fintype ι] in
/-- A kernel that passes its delta on contributes its value. -/
theorem accounts_bytesKernel (store : Fin 2 → Bytes) :
    Accounts (fun j v k => ((store j).map fun b => Fin.ofNat 2 b.toNat).count k * v)
      (emit (pairDescriptor bytesKernel 100) store) where
  zero j k := mul_zero _
  grow j value delta k := by
    have hemit : tally (emit (pairDescriptor bytesKernel 100) store j delta (value + delta)) k =
        ((store j).map fun b => Fin.ofNat 2 b.toNat).count k * delta := tally_passed_on _ _ _
    rw [hemit, ← mul_add]

omit hkern hkeeps hinit hzero [DecidableEq ι] [DecidableEq K] [AddCommMonoid V] [Fintype ι] in
theorem least_solution_one_edge :
    bytesKernel.Additive ∧ bytesKernel.KeepsDelta ∧
      Initial (pairDescriptor bytesKernel 100) [] (Finset.univ : Finset (Fin 2))
        (pairCluster bytesKernel) ∧
      ∃ s, run (pairDescriptor bytesKernel 100) oneEdge [.absorb 0 0, .spread 0, .absorb 1 1]
          (pairCluster bytesKernel) = .ok s ∧
        ∀ X : Fin 2 → ℕ, (∀ k ∈ Finset.univ, Part (1 + ∑ j,
          ((oneEdge j).map fun b => Fin.ofNat 2 b.toNat).count k * X j) (X k)) →
          Part (ownerF2 (pairDescriptor bytesKernel 100) s 1) (X 1) := by
  have hkern : bytesKernel.Additive := ⟨fun _ _ => rfl, rfl⟩
  have hkeeps : bytesKernel.KeepsDelta := fun _ _ _ _ => rfl
  have hinit : Initial (pairDescriptor bytesKernel 100) [] (Finset.univ : Finset (Fin 2))
      (pairCluster bytesKernel) := by
    rw [Finset.coe_univ]
    exact initial_pairCluster bytesKernel 100
  obtain ⟨s, hrun⟩ := run_returns oneEdge hkern hkeeps hinit Finset.mem_univ
    [.absorb 0 0, .spread 0, .absorb 1 1]
  obtain ⟨hbelow, -⟩ := least_solution hkern hkeeps hinit (fun _ _ => rfl)
    (accounts_bytesKernel oneEdge) _ hrun
  exact ⟨hkern, hkeeps, hinit, s, hrun, fun X hX => hbelow X hX 1 (Finset.mem_univ 1)⟩

end Cluster

/-! ## Two workers with one vertex each, and any kernel -/

/-- Values as runs of zero bytes. -/
def encodedMarshal (A : Type*) [Encodable A] [Inhabited A] : Marshal A where
  marshal a := List.replicate (Encodable.encode a) 0
  read bytes _ := (Encodable.decode bytes.length).getD default
  read_marshal a _ := by rw [List.length_replicate, Encodable.encodek, Option.getD_some]

namespace Cluster

variable {V D : Type*}

/-- Worker `i` owns shard `i`, which has the vertex `i`. -/
def duoDescriptor [Encodable V] [Inhabited V] [Encodable D] [Inhabited D]
    (kern : IterateKernel (Fin 2) V D) : TableDescriptor (Fin 2) (Fin 2) V D :=
  { pairDescriptor bytesKernel 100 with
    kern := kern
    marshals := ⟨(pairDescriptor bytesKernel 100).marshals.kmarshal, encodedMarshal _,
      encodedMarshal _, encodedMarshal _⟩ }

/-- The state table of a shard with the vertex `k`. -/
def duoTable (kern : IterateKernel (Fin 2) V D) (seed : D) (k : Fin 2) : StateTable (Fin 2) V D :=
  (StateTable.exec Fin.val kern recursionDepth (StateTable.cleared 1 0)
    [.put k (kern.initC k seed) (kern.initV k seed) seed]).2

/-- The two workers at the start. -/
def duoCluster (kern : IterateKernel (Fin 2) V D) (seed : D) : Cluster (Fin 2) (Fin 2) V D where
  kernels w :=
    { table :=
        { id := w
          epoch := 0
          partitions := fun i =>
            if i = w then .state (duoTable kern seed w) else .delta (DeltaTable.cleared 1)
          dirty := fun _ => false
          pendingWrites := 0
          sent := [] }
      output := [] }
  history := []

theorem initial_duoCluster [Encodable V] [Inhabited V] [Encodable D] [Inhabited D]
    (kern : IterateKernel (Fin 2) V D) (seed : D) :
    Initial (duoDescriptor kern) seed (Finset.univ : Finset (Fin 2)) (duoCluster kern seed) where
  id_eq _ := rfl
  state w i hi hown := by
    have hiw : i = w := by
      rw [← hown]
      exact (Nat.mod_eq_of_lt hi).symm
    have hnew := StateTable.refines_cleared (V := V) (D := D) (Fin.val : Fin 2 → ℕ) Nat.one_pos 0
    obtain ⟨t, hok, href⟩ := StateTable.put_refines kern 1 w (kern.initC w seed)
      (kern.initV w seed) seed hnew (.inr Nat.one_pos)
    have htable : duoTable kern seed w = t := by
      rw [duoTable, StateTable.exec, StateTable.step, recursionDepth, hok]
      rfl
    refine ⟨t, by simp only [duoCluster, hiw, if_true, htable], href.represents.valid, ?_⟩
    intro k hk
    obtain rfl : k = w := Fin.ext (hk.trans hiw)
    refine ⟨fun _ => ?_, fun hnot => absurd (Finset.mem_univ k) hnot⟩
    have hread := StateTable.read_of_represents (k := k) href.represents fun r => (k, r)
    rw [Finmap.lookup_insert] at hread
    exact hread
  delta w i hi hown := by
    have hiw : i ≠ w := by
      rintro rfl
      exact hown (Fin.ext (Nat.mod_eq_of_lt w.isLt))
    exact ⟨_, DeltaTable.new_one, by simp only [duoCluster, hiw, if_false]⟩
  sent _ := rfl
  output _ := rfl
  history := rfl

end Cluster

end MaiterStore
