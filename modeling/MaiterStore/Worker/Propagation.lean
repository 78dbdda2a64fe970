/-
# Propagation of deltas between workers

All workers run `MaiterKernel2` on their shards, send their buffers at any moment and
apply the messages of the others in any order, also in the middle of `run_iter`. Every
message is delivered once.

Together they carry out a delta-accumulative iteration: the value of a vertex is its
`F2` at the owner, and its pending delta is spread over `F1`, the buffers of the other
workers, the messages under way and the output buffers of `run_iter` calls. Whatever
the schedule, no delta is lost or counted twice.
-/

import MaiterStore.Kernel.Kernel

namespace MaiterStore

open CS.LinearProbing CS.Run CS.DeltaIteration

/-- The kernels of all workers. `history` records, for the statements only, what each
call of `run_iter` has absorbed and what its `g_func` has output. -/
structure Cluster (ι K V D : Type*) where
  kernels : ι → MaiterKernel2 ι K V D
  history : List (Absorption K V)

namespace Cluster

/-- What can happen next. -/
inductive Action (ι K : Type*)
  /-- Worker `w` enters `run_iter` for `k` and comes to `updateF1`. -/
  | absorb (w : ι) (k : K)
  /-- Worker `w` does one round of the loop at the end of `run_iter`. -/
  | spread (w : ι)
  | sendUpdates (w : ι)
  /-- A message that `w` has sent is delivered. -/
  | applyUpdates (w : ι) (n : ℕ)
  deriving DecidableEq, Repr

variable {ι K V D : Type*} [DecidableEq ι] [DecidableEq K]

def setKernel (s : Cluster ι K V D) (w : ι) (m : MaiterKernel2 ι K V D) : Cluster ι K V D :=
  { s with kernels := Function.update s.kernels w m }

section Step

variable [AddCommMonoid V] (d : TableDescriptor ι K V D) (store : K → D)

/-- Deliver `msg`, the `n`-th message of `w`. -/
def deliver (w : ι) (n : ℕ) (msg : ι × KVPairData ι) (s : Cluster ι K V D) :
    Except (Fault K) (Cluster ι K V D) :=
  let src := s.kernels w
  let s' := s.setKernel w
    { src with table := { src.table with sent := src.table.sent.eraseIdx n } }
  let dst := s'.kernels msg.1
  (GlobalTable.applyUpdates d msg.2 dst.table).bind fun g =>
    .ok (s'.setKernel msg.1 { dst with table := g })

/-- One action. A worker enters `run_iter` only for a vertex of its own, with the data
that the graph store has for it, and after the last call has returned. An action that
is not possible changes nothing. -/
def step : Action ι K → Cluster ι K V D → Except (Fault K) (Cluster ι K V D)
  | .absorb w k, s =>
    let m := s.kernels w
    -- the iterator of the worker goes over its own shards
    if m.output.isEmpty && GlobalTable.contains d k m.table then
      (MaiterKernel2.absorb d k (store k) m).bind fun m' =>
        .ok { s.setKernel w m' with history := s.history ++ [⟨k, m.table.f1 d k, m'.output⟩] }
    else .ok s
  | .spread w, s => (MaiterKernel2.spread d (s.kernels w)).bind fun m' => .ok (s.setKernel w m')
  | .sendUpdates w, s =>
    (GlobalTable.sendUpdates d (s.kernels w).table).bind fun g =>
      .ok (s.setKernel w { s.kernels w with table := g })
  | .applyUpdates w n, s =>
    match (s.kernels w).table.sent[n]? with
    | none => .ok s
    | some msg => deliver d w n msg s

/-- A run. -/
def run : List (Action ι K) → Cluster ι K V D → Except (Fault K) (Cluster ι K V D) :=
  forEach (step d store)

end Step

/-! ### A call of `run_iter` as a run -/

section RunIter

variable [AddCommMonoid V] {d : TableDescriptor ι K V D} {store : K → D} {s : Cluster ι K V D}
  {w : ι} {m m' : MaiterKernel2 ι K V D} {k : K}

omit [DecidableEq K] [AddCommMonoid V] in
theorem setKernel_self : (s.setKernel w m').kernels w = m' := Function.update_self ..

omit [DecidableEq K] [AddCommMonoid V] in
theorem setKernel_of_ne {v : ι} (hv : v ≠ w) : (s.setKernel w m').kernels v = s.kernels v :=
  Function.update_of_ne hv ..

omit [DecidableEq K] [AddCommMonoid V] in
/-- What the new kernel shares with the old one is the same for all workers. -/
theorem apply_setKernel {β : Type*} (f : MaiterKernel2 ι K V D → β) (hf : f m' = f (s.kernels w))
    (v : ι) : f ((s.setKernel w m').kernels v) = f (s.kernels v) := by
  by_cases hv : v = w
  · rw [hv, setKernel_self, hf]
  · rw [setKernel_of_ne hv]

omit [DecidableEq K] [AddCommMonoid V] in
theorem setKernel_setKernel : (s.setKernel w m).setKernel w m' = s.setKernel w m' := by
  simp only [setKernel, Function.update_idem]

/-- The loop over the output buffer is a run of `spread`. -/
theorem run_spread (output : List (K × V))
    (hloop : forEach (fun _ => MaiterKernel2.spread d) output m = .ok m') :
    run d store (List.replicate output.length (.spread w)) (s.setKernel w m) =
      .ok (s.setKernel w m') := by
  induction output generalizing m with
  | nil =>
    cases hloop
    rfl
  | cons kv output ih =>
    rw [forEach] at hloop
    cases hround : MaiterKernel2.spread d m with
    | error e => rw [hround] at hloop; cases hloop
    | ok m₁ =>
      rw [hround] at hloop
      have hstep : step d store (.spread w) (s.setKernel w m) = .ok (s.setKernel w m₁) := by
        simp only [step, setKernel_self, hround, Except.bind, setKernel_setKernel]
      rw [List.length_cons, List.replicate_succ, run, forEach, hstep]
      exact ih hloop

/-- A call of `run_iter` in which no put request is handled is an `absorb` and then one
`spread` for every pair that `g_func` has output. -/
theorem run_runIter (hidle : (s.kernels w).output = [])
    (hvertex : GlobalTable.contains d k (s.kernels w).table = true)
    (hcall : MaiterKernel2.runIter d k (store k) (s.kernels w) = .ok m') :
    ∃ emitted, run d store (.absorb w k :: List.replicate emitted.length (.spread w)) s =
      .ok { s.setKernel w m' with
        history := s.history ++ [⟨k, (s.kernels w).table.f1 d k, emitted⟩] } := by
  rw [MaiterKernel2.runIter] at hcall
  cases habs : MaiterKernel2.absorb d k (store k) (s.kernels w) with
  | error e => rw [habs] at hcall; cases hcall
  | ok m =>
    rw [habs] at hcall
    refine ⟨m.output, ?_⟩
    have hstep : step d store (.absorb w k) s = .ok { s.setKernel w m with
        history := s.history ++ [⟨k, (s.kernels w).table.f1 d k, m.output⟩] } := by
      simp only [step, hidle, List.isEmpty_nil, hvertex, Bool.and_self, if_true, habs, Except.bind]
    rw [run, forEach, hstep]
    have hloop : ∀ t : Cluster ι K V D, run d store
        (List.replicate m.output.length (.spread w)) (t.setKernel w m) = .ok (t.setKernel w m') :=
      fun _ => run_spread m.output hcall
    exact hloop { s with history := s.history ++ [⟨k, (s.kernels w).table.f1 d k, m.output⟩] }

end RunIter

/-! ## The iteration the workers carry out -/

section Abstraction

variable [AddCommMonoid V] [Fintype ι] (d : TableDescriptor ι K V D) (store : K → D)

/-- The deltas for `k` on a worker: in its table, under way from it and in its output
buffer. -/
def load (m : MaiterKernel2 ι K V D) (k : K) : V := m.table.held d k + tally m.output k

/-- The values and pending deltas of all workers together. -/
def abs (s : Cluster ι K V D) : State K V where
  value k := (s.kernels (d.owner (d.getShard k))).table.f2 d k
  pending k := ∑ w, load d (s.kernels w) k

/-- What holds of worker `w` in every state. -/
structure Sound (vertices targets : Set K) (w : ι) (m : MaiterKernel2 ι K V D) : Prop where
  id_eq : m.table.id = w
  wellFormed : GlobalTable.WellFormed d vertices targets m.table
  output : ∀ kv ∈ m.output, kv.1 ∈ targets

/-- What holds in every state reached from `s₀`. -/
structure Inv (vertices targets : Set K) (s₀ s : Cluster ι K V D) : Prop where
  sound : ∀ w, Sound d vertices targets w (s.kernels w)
  reached : Reached (abs d s₀) (abs d s) s.history
  history : ∀ a ∈ s.history, a.vertex ∈ vertices ∧
    ∃ value, a.emitted = d.kern.gFunc a.vertex a.delta value (store a.vertex)

/-- Every key that `g_func` outputs during the run is in `targets`. -/
def EmitsWithin (targets : Set K) (s₀ : Cluster ι K V D) (acts : List (Action ι K)) : Prop :=
  ∀ pre, pre <+: acts → ∀ s, run d store pre s₀ = .ok s →
    ∀ kv ∈ emissions s.history, kv.1 ∈ targets

end Abstraction

section Preservation

variable [AddCommMonoid V] [Fintype ι] {d : TableDescriptor ι K V D} {store : K → D}
  {vertices targets : Set K} {s₀ s : Cluster ι K V D} {w : ι} {m' : MaiterKernel2 ι K V D}

omit [AddCommMonoid V] [Fintype ι] in
theorem sound_setKernel (hsound : ∀ v, Sound d vertices targets v (s.kernels v))
    (hnew : Sound d vertices targets w m') (v : ι) :
    Sound d vertices targets v ((s.setKernel w m').kernels v) := by
  by_cases hv : v = w
  · subst hv
    rw [setKernel_self]
    exact hnew
  · rw [setKernel_of_ne hv]
    exact hsound v

/-- Replacing the kernel of one worker changes the pending deltas by as much as its load. -/
theorem pending_setKernel {k : K} {a b : V} (hload : load d m' k + a = load d (s.kernels w) k + b) :
    (abs d (s.setKernel w m')).pending k + a = (abs d s).pending k + b :=
  sum_update (fun m => load d m k) s.kernels w hload

/-- Replacing the kernel of one worker changes the values of the vertices it owns. -/
theorem value_setKernel {c : K → V} (hf2 : ∀ k, m'.table.f2 d k = (s.kernels w).table.f2 d k + c k)
    (hc : ∀ k, d.owner (d.getShard k) ≠ w → c k = 0) (k : K) :
    (abs d (s.setKernel w m')).value k = (abs d s).value k + c k := by
  change ((s.setKernel w m').kernels (d.owner (d.getShard k))).table.f2 d k =
    (s.kernels (d.owner (d.getShard k))).table.f2 d k + c k
  by_cases hw : d.owner (d.getShard k) = w
  · rw [hw, setKernel_self, hf2]
  · rw [setKernel_of_ne hw, hc k hw, add_zero]

theorem value_setKernel_eq (hf2 : ∀ k, m'.table.f2 d k = (s.kernels w).table.f2 d k) (k : K) :
    (abs d (s.setKernel w m')).value k = (abs d s).value k := by
  have hzero : ∀ k, m'.table.f2 d k = (s.kernels w).table.f2 d k + 0 := fun k => by
    rw [hf2, add_zero]
  rw [value_setKernel hzero (fun _ _ => rfl), add_zero]

/-- A worker that only keeps its deltas in another way. -/
theorem Inv.setKernel (hinv : Inv d store vertices targets s₀ s)
    (hnew : Sound d vertices targets w m')
    (hf2 : ∀ k, m'.table.f2 d k = (s.kernels w).table.f2 d k)
    (hload : ∀ k, load d m' k = load d (s.kernels w) k) :
    Inv d store vertices targets s₀ (s.setKernel w m') where
  sound := sound_setKernel hinv.sound hnew
  reached := by
    apply hinv.reached.of_eq (value_setKernel_eq hf2)
    intro k
    have hsame : load d m' k + 0 = load d (s.kernels w) k + 0 := by rw [hload]
    simpa using pending_setKernel hsame
  history := hinv.history

theorem step_spread (hkern : d.kern.Additive) (hinv : Inv d store vertices targets s₀ s) (w : ι) :
    Ends (¬ targets ⊆ vertices) (Inv d store vertices targets s₀) (step d store (.spread w) s) := by
  have hsound := hinv.sound w
  apply (MaiterKernel2.spread_spec hkern hsound.wellFormed hsound.output).bind
  rintro m' ⟨hadds, hrest⟩
  apply Ends.of_ok rfl
  apply hinv.setKernel ⟨hadds.id_eq.trans hsound.id_eq, hadds.wellFormed, ?_⟩ hadds.f2_eq
  · intro k
    rw [load, load, hadds.held_eq, hrest, add_assoc, ← tally_append]
    cases (s.kernels w).output <;> rfl
  · intro kv hkv
    exact hsound.output kv (List.mem_of_mem_tail (hrest ▸ hkv))

theorem step_sendUpdates (hinv : Inv d store vertices targets s₀ s) (w : ι) :
    ∃ s', step d store (.sendUpdates w) s = .ok s' ∧ Inv d store vertices targets s₀ s' := by
  have hsound := hinv.sound w
  obtain ⟨g, hok, hadds⟩ := GlobalTable.sendUpdates_spec hsound.wellFormed
  have hnew : Sound d vertices targets w ⟨g, (s.kernels w).output⟩ :=
    ⟨hadds.id_eq.trans hsound.id_eq, hadds.wellFormed, hsound.output⟩
  refine ⟨s.setKernel w ⟨g, (s.kernels w).output⟩, by simp only [step, hok, Except.bind], ?_⟩
  apply hinv.setKernel hnew hadds.f2_eq
  intro k
  rw [load, load, hadds.held_eq, tally_nil, add_zero]

omit [DecidableEq ι] [Fintype ι] in
/-- What is under way from a worker, with one message apart. -/
theorem tally_pairsIn_eraseIdx {sent : List (ι × KVPairData ι)} {n : ℕ} {msg : ι × KVPairData ι}
    (hmsg : sent[n]? = some msg) (k : K) :
    tally (GlobalTable.pairsIn d (sent.eraseIdx n)) k + tally (d.marshals.decode msg.2.kvData) k =
      tally (GlobalTable.pairsIn d sent) k := by
  obtain ⟨hn, rfl⟩ := List.getElem?_eq_some_iff.mp hmsg
  have hperm : (sent[n] :: sent.eraseIdx n).Perm sent := List.getElem_cons_eraseIdx_perm hn
  have hpairs := hperm.flatMap_right fun msg => d.marshals.decode msg.2.kvData
  rw [GlobalTable.pairsIn, GlobalTable.pairsIn, ← tally_perm hpairs, List.flatMap_cons,
    tally_append, add_comm]

/-- A message leaves its sender, and its pairs are accumulated by the receiver. -/
theorem deliver_inv (hkern : d.kern.Additive) (hinv : Inv d store vertices targets s₀ s) {n : ℕ}
    {msg : ι × KVPairData ι} (hmsg : (s.kernels w).table.sent[n]? = some msg) :
    Ends (¬ targets ⊆ vertices) (Inv d store vertices targets s₀) (deliver d w n msg s) := by
  have hsound := hinv.sound w
  have haddr : GlobalTable.Addressed d targets msg :=
    hsound.wellFormed.sent msg (List.mem_of_getElem? hmsg)
  -- in between, the pairs of the message are nowhere
  let src : MaiterKernel2 ι K V D := { s.kernels w with
    table := { (s.kernels w).table with sent := (s.kernels w).table.sent.eraseIdx n } }
  let s₁ := s.setKernel w src
  have hsrc : Sound d vertices targets w src := by
    refine ⟨hsound.id_eq, ⟨hsound.wellFormed.state, hsound.wellFormed.delta, ?_⟩, hsound.output⟩
    exact fun msg' hmsg' => hsound.wellFormed.sent msg' (List.mem_of_mem_eraseIdx hmsg')
  have hvalue₁ : ∀ j, src.table.f2 d j = (s.kernels w).table.f2 d j := fun _ => rfl
  have hpending₁ : ∀ k, (abs d s₁).pending k + tally (d.marshals.decode msg.2.kvData) k =
      (abs d s).pending k + 0 := by
    intro k
    apply pending_setKernel
    rw [load, load, GlobalTable.held, GlobalTable.held, ← tally_pairsIn_eraseIdx hmsg, add_zero,
      add_right_comm, add_assoc (GlobalTable.f1 d _ k)]
    rfl
  have hsound₁ : Sound d vertices targets msg.1 (s₁.kernels msg.1) :=
    sound_setKernel hinv.sound hsrc _
  apply (GlobalTable.applyUpdates_spec hkern hsound₁.wellFormed
    fun kv hkv => (haddr.pairs kv hkv).2).bind
  intro g hadds
  let dst : MaiterKernel2 ι K V D := { s₁.kernels msg.1 with table := g }
  have hdst : Sound d vertices targets msg.1 dst :=
    ⟨hadds.id_eq.trans hsound₁.id_eq, hadds.wellFormed, hsound₁.output⟩
  have hvalue₂ : ∀ j, dst.table.f2 d j = (s₁.kernels msg.1).table.f2 d j := hadds.f2_eq
  have hpending₂ : ∀ k, (abs d (s₁.setKernel msg.1 dst)).pending k + 0 =
      (abs d s₁).pending k + tally (d.marshals.decode msg.2.kvData) k := by
    intro k
    apply pending_setKernel
    rw [load, load, hadds.held_eq, add_zero, add_right_comm]
  refine .of_ok (s := s₁.setKernel msg.1 dst) rfl
    ⟨sound_setKernel (sound_setKernel hinv.sound hsrc) hdst,
      hinv.reached.of_eq (fun k => ?_) (fun k => ?_), hinv.history⟩
  · exact (value_setKernel_eq hvalue₂ k).trans (value_setKernel_eq hvalue₁ k)
  · simpa using (hpending₂ k).trans (hpending₁ k)

theorem step_applyUpdates (hkern : d.kern.Additive) (hinv : Inv d store vertices targets s₀ s)
    (w : ι) (n : ℕ) :
    Ends (¬ targets ⊆ vertices) (Inv d store vertices targets s₀)
      (step d store (.applyUpdates w n) s) := by
  cases hmsg : (s.kernels w).table.sent[n]? with
  | none => exact .of_ok (by simp only [step, hmsg]) hinv
  | some msg =>
    simp only [step, hmsg]
    exact deliver_inv hkern hinv hmsg

/-- Entering `run_iter` is an absorption. -/
theorem step_absorb (hkern : d.kern.Additive) (hkeeps : d.kern.KeepsDelta)
    (hinv : Inv d store vertices targets s₀ s) (w : ι) (k : K) :
    ∃ s', step d store (.absorb w k) s = .ok s' ∧
      ((∀ kv ∈ emissions s'.history, kv.1 ∈ targets) → Inv d store vertices targets s₀ s') := by
  have hsound := hinv.sound w
  by_cases hable :
      ((s.kernels w).output.isEmpty && GlobalTable.contains d k (s.kernels w).table) = true
  swap
  · exact ⟨s, by simp only [step, hable, if_false, Bool.false_eq_true], fun _ => hinv⟩
  obtain ⟨hidle, hcontains⟩ := Bool.and_eq_true_iff.mp hable
  have hnil : (s.kernels w).output = [] := List.isEmpty_iff.mp hidle
  obtain ⟨hlocal, hk⟩ := (GlobalTable.contains_iff hsound.wellFormed).mp hcontains
  obtain ⟨m', hok, habs⟩ := MaiterKernel2.absorb_spec hkern hkeeps hsound.wellFormed hk hlocal
    (store k)
  have hout : ∃ value, m'.output = d.kern.gFunc k ((s.kernels w).table.f1 d k) value (store k) :=
    ⟨_, by rw [habs.output_eq, hnil, List.nil_append]⟩
  refine ⟨{ s.setKernel w m' with
      history := s.history ++ [⟨k, (s.kernels w).table.f1 d k, m'.output⟩] },
    by simp only [step, hable, if_true, hok, Except.bind], fun hemit => ?_⟩
  have hnew : Sound d vertices targets w m' := by
    refine ⟨habs.id_eq.trans hsound.id_eq, habs.wellFormed, fun kv hkv => hemit kv ?_⟩
    rw [emissions, List.flatMap_append]
    exact List.mem_append_right _ (by simpa using hkv)
  -- the delta of `k` is now in its value, and the output buffer is pending
  refine ⟨sound_setKernel hinv.sound hnew, hinv.reached.absorbs ⟨fun j => ?_, fun j => ?_⟩, ?_⟩
  · apply value_setKernel habs.f2_eq
    intro j hj
    rw [if_neg]
    rintro rfl
    exact hj (hlocal.trans hsound.id_eq)
  · apply pending_setKernel
    rw [load, load, GlobalTable.held, GlobalTable.held, habs.f1_eq, habs.sent_eq, hnil, tally_nil,
      add_zero]
    by_cases hj : k = j
    · subst hj
      rw [if_pos rfl, if_pos rfl, zero_add, add_right_comm, add_comm (tally _ k)]
    · rw [if_neg hj, if_neg hj, add_zero]
  · intro a ha
    rcases List.mem_append.mp ha with hold | hlast
    · exact hinv.history a hold
    · rw [List.mem_singleton.mp hlast]
      exact ⟨hk, hout⟩

/-- Every action keeps the invariant, as long as `g_func` outputs targets, and none stops
the run as long as all targets are vertices. -/
theorem step_inv (hkern : d.kern.Additive) (hkeeps : d.kern.KeepsDelta)
    (hinv : Inv d store vertices targets s₀ s) (act : Action ι K) :
    Ends (¬ targets ⊆ vertices) (fun s' => (∀ kv ∈ emissions s'.history, kv.1 ∈ targets) →
      Inv d store vertices targets s₀ s') (step d store act s) := by
  cases act with
  | absorb w k =>
    obtain ⟨s', hok, hinv'⟩ := step_absorb hkern hkeeps hinv w k
    exact .of_ok hok hinv'
  | spread w => exact (step_spread hkern hinv w).imp fun _ hinv' _ => hinv'
  | sendUpdates w =>
    obtain ⟨s', hok, hinv'⟩ := step_sendUpdates hinv w
    exact .of_ok hok fun _ => hinv'
  | applyUpdates w n => exact (step_applyUpdates hkern hinv w n).imp fun _ hinv' _ => hinv'

/-- Every run keeps the invariant. -/
theorem run_inv (hkern : d.kern.Additive) (hkeeps : d.kern.KeepsDelta)
    (hinit : Inv d store vertices targets s₀ s₀) (acts : List (Action ι K))
    (hemit : EmitsWithin d store targets s₀ acts) :
    Ends (¬ targets ⊆ vertices) (Inv d store vertices targets s₀) (run d store acts s₀) := by
  induction acts using List.reverseRecOn with
  | nil => exact hinit
  | append_singleton acts act ih =>
    have hprev := ih fun pre hpre => hemit pre (hpre.trans (List.prefix_append _ _))
    have hlast := hemit _ List.prefix_rfl
    have hsplit : run d store (acts ++ [act]) s₀ =
        (run d store acts s₀).bind (forEach (step d store) [act]) := forEach_append ..
    rw [hsplit] at hlast ⊢
    cases hrun : run d store acts s₀ with
    | error e => rwa [hrun] at hprev
    | ok s =>
      rw [hrun] at hprev hlast
      have hstep := step_inv hkern hkeeps hprev act
      simp only [Except.bind, forEach] at hlast ⊢
      cases hact : step d store act s with
      | error e => rwa [hact] at hstep
      | ok s' =>
        rw [hact] at hstep hlast
        exact hstep (hlast s' rfl)

end Preservation

/-! ## No update is lost or duplicated -/

section Conservation

variable [AddCommMonoid V] [Fintype ι]

/-- The tables as they are after the initialization: the state table of every shard holds
`init_c` as the delta and `init_v` as the value of every vertex of the shard and no
other key, and the buffers are new. -/
structure Initial (d : TableDescriptor ι K V D) (seed : D) (vertices : Set K)
    (s : Cluster ι K V D) : Prop where
  id_eq : ∀ w, (s.kernels w).table.id = w
  state : ∀ w, ∀ i < d.numShards, d.owner i = w →
    ∃ t, (s.kernels w).table.partitions i = .state t ∧
      Valid d.hash StateTable.Bucket.k t.buckets ∧ ∀ k, d.getShard k = i →
        (k ∈ vertices → t.get d.hash k = .ok (k, d.kern.initC k seed, d.kern.initV k seed, seed)) ∧
        (k ∉ vertices → t.contains d.hash k = false)
  delta : ∀ w, ∀ i < d.numShards, d.owner i ≠ w → ∃ t,
    DeltaTable.new d.hash .unbounded recursionDepth 1 = .ok t ∧
      (s.kernels w).table.partitions i = .delta t
  sent : ∀ w, (s.kernels w).table.sent = []
  output : ∀ w, (s.kernels w).output = []
  history : s.history = []

variable {d : TableDescriptor ι K V D} {store : K → D} {seed : D} {vertices targets : Set K}
  {s₀ s : Cluster ι K V D}

omit [DecidableEq ι] [AddCommMonoid V] [Fintype ι] in
theorem Initial.represents (hinit : Initial d seed vertices s) {w : ι} {i : ℕ}
    (hi : i < d.numShards) (hown : d.owner i = w) :
    ∃ t m, (s.kernels w).table.partitions i = .state t ∧
      Represents d.hash StateTable.Bucket.k StateTable.Bucket.fields t.buckets m ∧
      ∀ k, d.getShard k = i → (k ∈ m ↔ k ∈ vertices) ∧ (k ∈ vertices →
        m.lookup k = some (d.kern.initC k seed, d.kern.initV k seed, seed)) := by
  obtain ⟨t, hpart, hvalid, hget⟩ := hinit.state w i hi hown
  obtain ⟨m, hrep⟩ := exists_represents StateTable.Bucket.fields hvalid
  refine ⟨t, m, hpart, hrep, fun k hk => ?_⟩
  have hlook : k ∈ vertices →
      m.lookup k = some (d.kern.initC k seed, d.kern.initV k seed, seed) := by
    intro hmem
    have hread := StateTable.read_of_represents (k := k) hrep fun r => (k, r)
    rw [show t.read d.hash (fun b => (k, b.fields)) k = _ from (hget k hk).1 hmem] at hread
    cases hm : m.lookup k with
    | none => rw [hm] at hread; cases hread
    | some r =>
      rw [hm] at hread
      cases hread
      rfl
  refine ⟨⟨fun hm => ?_, fun hmem => Finmap.mem_of_lookup_eq_some (hlook hmem)⟩, hlook⟩
  by_contra hmem
  have hnot := (hget k hk).2 hmem
  rw [StateTable.contains, hrep.contains_eq, decide_eq_false_iff_not] at hnot
  exact hnot hm

omit [DecidableEq ι] [AddCommMonoid V] [Fintype ι] in
theorem Initial.delta_eq (hinit : Initial d seed vertices s) {w : ι} {i : ℕ}
    (hi : i < d.numShards) (hown : d.owner i ≠ w) :
    (s.kernels w).table.partitions i = .delta (DeltaTable.cleared 1) := by
  obtain ⟨t, hnew, hpart⟩ := hinit.delta w i hi hown
  rw [DeltaTable.new_one, Except.ok.injEq] at hnew
  rw [hpart, hnew]

omit [DecidableEq ι] [AddCommMonoid V] [Fintype ι] in
theorem Initial.sound (hinit : Initial d seed vertices s) (w : ι) :
    Sound d vertices targets w (s.kernels w) where
  id_eq := hinit.id_eq w
  wellFormed := by
    refine ⟨fun i hi hown => ?_, fun i hi hown => ?_, fun msg hmsg => ?_⟩
    · obtain ⟨t, m, hpart, hrep, hm⟩ := hinit.represents hi (hown.trans (hinit.id_eq w))
      exact ⟨t, m, hpart, hrep, fun k hk => (hm k hk).1⟩
    · rw [hinit.id_eq w] at hown
      exact ⟨_, ∅, hinit.delta_eq hi hown, DeltaTable.refines_cleared d.hash one_pos,
        fun k hk => absurd hk Finmap.notMem_empty⟩
    · rw [hinit.sent w] at hmsg
      cases hmsg
  output kv hkv := by
    rw [hinit.output w] at hkv
    cases hkv

omit [DecidableEq ι] in
theorem Initial.inv (hinit : Initial d seed vertices s₀) : Inv d store vertices targets s₀ s₀ where
  sound := hinit.sound
  reached := by
    rw [hinit.history]
    exact reached_refl _
  history a ha := by
    rw [hinit.history] at ha
    cases ha

omit [DecidableEq ι] in
/-- At the start a vertex has the value `init_v` and the pending delta `init_c`. -/
theorem Initial.abs_eq (hinit : Initial d seed vertices s₀) {k : K} (hk : k ∈ vertices) :
    (abs d s₀).value k = d.kern.initV k seed ∧ (abs d s₀).pending k = d.kern.initC k seed := by
  obtain ⟨t, m, hpart, hrep, hm⟩ := hinit.represents (d.getShard_lt k) rfl
  have hlook := (hm k rfl).2 hk
  have hload : ∀ w, load d (s₀.kernels w) k = (s₀.kernels w).table.f1 d k := by
    intro w
    rw [load, GlobalTable.held, hinit.sent, hinit.output]
    simp [GlobalTable.pairsIn]
  constructor
  · change GlobalTable.f2 d _ k = _
    rw [GlobalTable.f2_of_state hpart hrep, hlook]
    rfl
  · change ∑ w, load d (s₀.kernels w) k = _
    rw [Finset.sum_eq_single (d.owner (d.getShard k)), hload, GlobalTable.f1_of_state hpart hrep,
      hlook]
    · rfl
    · intro w _ hw
      rw [hload, GlobalTable.f1_of_delta (hinit.delta_eq (d.getShard_lt k) hw.symm)
        (DeltaTable.refines_cleared d.hash one_pos)]
      rfl
    · exact fun hnot => absurd (Finset.mem_univ _) hnot

/-- The pending deltas of a vertex, place by place. -/
theorem pending_eq (k : K) : (abs d s).pending k =
    (s.kernels (d.owner (d.getShard k))).table.f1 d k +
      ∑ w ∈ Finset.univ.erase (d.owner (d.getShard k)), (s.kernels w).table.f1 d k +
      ∑ w, tally (GlobalTable.pairsIn d (s.kernels w).table.sent) k +
      ∑ w, tally (s.kernels w).output k := by
  rw [Finset.add_sum_erase _ (fun w => (s.kernels w).table.f1 d k) (Finset.mem_univ _),
    ← Finset.sum_add_distrib, ← Finset.sum_add_distrib]
  rfl

/-- **No update is lost or duplicated.** From the initial tables, every run of `run_iter`
calls, `SendUpdates` and deliveries on any number of workers returns, and at its end, for
every vertex: `F2` and `F1` at the owner, the deltas in the buffers of the other workers
and in the messages under way, and what is still in the output buffers of `run_iter`
calls, accumulate to `init_v`, `init_c` and all that `g_func` has output for the vertex.
When no `run_iter` is in progress there are no such output buffers. -/
theorem no_update_lost_or_duplicated (hkern : d.kern.Additive) (hkeeps : d.kern.KeepsDelta)
    (hinit : Initial d seed vertices s₀) (acts : List (Action ι K))
    (hemit : EmitsWithin d store vertices s₀ acts) :
    ∃ s, run d store acts s₀ = .ok s ∧ ∀ k ∈ vertices, ∀ owner, owner = d.owner (d.getShard k) →
      (s.kernels owner).table.f2 d k + (s.kernels owner).table.f1 d k +
          ∑ w ∈ Finset.univ.erase owner, (s.kernels w).table.f1 d k +
          ∑ w, tally (GlobalTable.pairsIn d (s.kernels w).table.sent) k +
          ∑ w, tally (s.kernels w).output k =
        d.kern.initV k seed + d.kern.initC k seed + tally (emissions s.history) k ∧
      ((∀ w, (s.kernels w).output = []) →
        (s.kernels owner).table.f2 d k + (s.kernels owner).table.f1 d k +
            ∑ w ∈ Finset.univ.erase owner, (s.kernels w).table.f1 d k +
            ∑ w, tally (GlobalTable.pairsIn d (s.kernels w).table.sent) k =
          d.kern.initV k seed + d.kern.initC k seed + tally (emissions s.history) k) := by
  -- all targets are vertices, so the run returns
  have hends := run_inv hkern hkeeps hinit.inv acts hemit
  obtain ⟨s, hrun, hinv⟩ := hends.exists_ok (not_not_intro subset_rfl)
  refine ⟨s, hrun, ?_⟩
  rintro k hk owner rfl
  have hall := hinv.reached.conserved k
  rw [(hinit.abs_eq hk).1, (hinit.abs_eq hk).2, pending_eq, ← add_assoc, ← add_assoc,
    ← add_assoc] at hall
  refine ⟨hall, fun hidle => ?_⟩
  have hzero : ∑ w, tally (s.kernels w).output k = 0 :=
    Finset.sum_eq_zero fun w _ => by rw [hidle w, tally_nil]
  rwa [hzero, add_zero] at hall

end Conservation

/-! ## Two workers with one vertex each -/

/-- Worker `i` owns shard `i`, which has the vertex `i`. -/
def pairDescriptor (kern : IterateKernel (Fin 2) ℕ Bytes) (bufmsg : ℕ) :
    TableDescriptor (Fin 2) (Fin 2) ℕ Bytes where
  numShards := 2
  getShard k := k
  getShard_lt k := k.isLt
  owner i := Fin.ofNat 2 i
  hash := Fin.val
  kern := kern
  marshals := ⟨⟨fun k => List.replicate k 0, fun bytes _ => Fin.ofNat 2 bytes.length,
      fun k _ => by simp⟩,
    unaryMarshal, unaryMarshal, stringMarshal⟩
  bufmsg := bufmsg

/-- The state table of a shard with the vertex `k`. -/
def vertexTable (kern : IterateKernel (Fin 2) ℕ Bytes) (k : Fin 2) : StateTable (Fin 2) ℕ Bytes :=
  (StateTable.exec Fin.val kern recursionDepth (StateTable.cleared 1 0)
    [.put k (kern.initC k []) (kern.initV k []) []]).2

/-- The two workers at the start. -/
def pairCluster (kern : IterateKernel (Fin 2) ℕ Bytes) : Cluster (Fin 2) (Fin 2) ℕ Bytes where
  kernels w :=
    { table :=
        { id := w
          epoch := 0
          partitions := fun i =>
            if i = w then .state (vertexTable kern w) else .delta (DeltaTable.cleared 1)
          dirty := fun _ => false
          pendingWrites := 0
          sent := [] }
      output := [] }
  history := []

/-- The kernel whose data is a list of bytes, each of them a neighbour. -/
def bytesKernel : IterateKernel (Fin 2) ℕ Bytes :=
  sumKernel fun data => data.map fun b => Fin.ofNat 2 b.toNat

theorem initial_pairCluster (kern : IterateKernel (Fin 2) ℕ Bytes) (bufmsg : ℕ) :
    Initial (pairDescriptor kern bufmsg) [] Set.univ (pairCluster kern) where
  id_eq _ := rfl
  state w i hi hown := by
    have hiw : i = w := by
      rw [← hown]
      exact (Nat.mod_eq_of_lt hi).symm
    have hnew := StateTable.refines_cleared (K := Fin 2) (V := ℕ) (D := Bytes) Fin.val Nat.one_pos 0
    obtain ⟨t, hok, href⟩ := StateTable.put_refines kern 1 w (kern.initC w []) (kern.initV w []) []
      hnew (.inr Nat.one_pos)
    have htable : vertexTable kern w = t := by
      rw [vertexTable, StateTable.exec, StateTable.step, recursionDepth, hok]
      rfl
    refine ⟨t, by simp only [pairCluster, hiw, if_true, htable], href.represents.valid, ?_⟩
    intro k hk
    obtain rfl : k = w := Fin.ext (hk.trans hiw)
    refine ⟨fun _ => ?_, fun hnot => absurd (Set.mem_univ k) hnot⟩
    have hread := StateTable.read_of_represents (k := k) href.represents fun r => (k, r)
    rw [Finmap.lookup_insert] at hread
    exact hread
  delta w i hi hown := by
    have hiw : i ≠ w := by
      rintro rfl
      exact hown (Fin.ext (Nat.mod_eq_of_lt w.isLt))
    exact ⟨_, DeltaTable.new_one, by simp only [pairCluster, hiw, if_false]⟩
  sent _ := rfl
  output _ := rfl
  history := rfl

theorem no_update_lost_with_message_under_way :
    bytesKernel.Additive ∧ bytesKernel.KeepsDelta ∧
      Initial (pairDescriptor bytesKernel 100) [] Set.univ (pairCluster bytesKernel) ∧
      ∃ s, run (pairDescriptor bytesKernel 100) (fun _ => [1])
          [.absorb 0 0, .spread 0, .sendUpdates 0, .absorb 1 1] (pairCluster bytesKernel) = .ok s ∧
        (s.kernels 1).table.f2 (pairDescriptor bytesKernel 100) 1 +
            (s.kernels 1).table.f1 (pairDescriptor bytesKernel 100) 1 +
            (s.kernels 0).table.f1 (pairDescriptor bytesKernel 100) 1 +
            ∑ w, tally (GlobalTable.pairsIn (pairDescriptor bytesKernel 100)
              (s.kernels w).table.sent) 1 +
            ∑ w, tally (s.kernels w).output 1 =
          1 + tally (emissions s.history) 1 := by
  have hkern : bytesKernel.Additive := ⟨fun _ _ => rfl, rfl⟩
  have hkeeps : bytesKernel.KeepsDelta := fun _ _ _ _ => rfl
  have hinit := initial_pairCluster bytesKernel 100
  have hemit : EmitsWithin (pairDescriptor bytesKernel 100) (fun _ => [1]) Set.univ
      (pairCluster bytesKernel) [.absorb 0 0, .spread 0, .sendUpdates 0, .absorb 1 1] :=
    fun _ _ _ _ _ _ => Set.mem_univ _
  obtain ⟨s, hrun, hall⟩ := no_update_lost_or_duplicated hkern hkeeps hinit _ hemit
  refine ⟨hkern, hkeeps, hinit, s, hrun, ?_⟩
  have hrest : Finset.univ.erase (1 : Fin 2) = {0} := by decide
  have hone := (hall 1 (Set.mem_univ 1) 1 rfl).1
  rw [hrest, Finset.sum_singleton] at hone
  exact hone

end Cluster

end MaiterStore
