/-
# Convergence

No state that a run reaches is stuck: the workers can go on to finish their `run_iter` calls, send
their buffers, deliver all messages and absorb what has come in. Call a run a round if at its end
the values have all that was pending at its start, however it came about. After `n` rounds the
values have at least what `n` synchronous rounds over all vertices would give them, so they approach
the least solution of the equation, with any schedule. Without rounds nothing is promised: this says
what the workers can always do, and what follows when they do it.
-/

import MaiterStore.Worker.RunLoop

namespace MaiterStore

open CS.Run CS.DeltaIteration

/-! ## Sending and applying -/

namespace GlobalTable

variable {ι K V D : Type*} [DecidableEq ι] [DecidableEq K] {d : TableDescriptor ι K V D}
  {vertices targets : Set K} {g g' : GlobalTable ι K V D} {i : ℕ}

section Send

variable [AddCommMonoid V]

/-- A round of the loop of `SendUpdates` empties its buffer and leaves the others alone. -/
theorem sendShard_empties (hwf : WellFormed d vertices targets g) (hi : i < d.numShards) :
    ∃ g', sendShard d i g = .ok g' ∧ WellFormed d vertices targets g' ∧ g'.id = g.id ∧
      (d.owner i ≠ g.id → (g'.partitions i).empty = true) ∧
      ∀ j ≠ i, g'.partitions j = g.partitions j := by
  obtain ⟨g', hok, hadds⟩ := sendShard_spec hwf hi
  refine ⟨g', hok, hadds.wellFormed, hadds.id_eq, ?_⟩
  by_cases hsends : (!isLocalShard d g i && (g.dirty i || !(g.partitions i).empty)) = true
  · have hremote : d.owner i ≠ g.id := by
      intro hlocal
      simp [isLocalShard, hlocal] at hsends
    obtain ⟨t, m, hpart, -, -⟩ := hwf.delta i hi hremote
    rw [sendShard_of_delta hpart hsends] at hok
    obtain rfl := Except.ok.inj hok
    refine ⟨fun _ => ?_, fun j hj => ?_⟩
    · rw [flushed, setPartition_self]
      rfl
    · rw [flushed, setPartition_of_ne _ hj]
  · rw [sendShard, if_neg hsends] at hok
    obtain rfl := Except.ok.inj hok
    refine ⟨fun hremote => ?_, fun _ _ => rfl⟩
    have hempty : g.dirty i = false ∧ (g.partitions i).empty = true := by
      simpa [isLocalShard, hremote] using hsends
    exact hempty.2

/-- `SendUpdates` leaves all buffers empty. -/
theorem sendUpdates_empties (hwf : WellFormed d vertices targets g)
    (hok : sendUpdates d g = .ok g') {i : ℕ} (hi : i < d.numShards) (hremote : d.owner i ≠ g.id) :
    (g'.partitions i).empty = true := by
  obtain ⟨g₁, hloop, hlast⟩ := bind_eq_ok.mp hok
  obtain rfl := Except.ok.inj hlast
  -- the buffers of the shards that have had their round are empty
  have hends : Ends False (fun g' => WellFormed d vertices targets g' ∧ g'.id = g.id ∧
      ∀ j ∈ [] ++ List.range d.numShards, d.owner j ≠ g.id → (g'.partitions j).empty = true)
      (forEach (sendShard d) (List.range d.numShards) g) := by
    refine ends_forEach (I := fun done g' => WellFormed d vertices targets g' ∧ g'.id = g.id ∧
      ∀ j ∈ done, d.owner j ≠ g.id → (g'.partitions j).empty = true) _ ?_
      ⟨hwf, rfl, fun j hj => absurd hj List.not_mem_nil⟩
    rintro done j hj g' ⟨hwf', hid, hdone⟩
    obtain ⟨g'', hok', hwf'', hid', hempty, hsame⟩ :=
      sendShard_empties hwf' (List.mem_range.mp hj)
    refine .of_ok hok' ⟨hwf'', hid'.trans hid, fun l hl hown => ?_⟩
    by_cases hlj : l = j
    · subst hlj
      exact hempty (hid ▸ hown)
    · rw [hsame l hlj]
      exact hdone l ((List.mem_append.mp hl).resolve_right fun h => hlj (List.mem_singleton.mp h))
        hown
  exact (hends.ok_imp hloop).2.2 i (List.mem_range.mpr hi) hremote

end Send

/-- The tables are the same but for what local calls write to. -/
structure WritesLocally (d : TableDescriptor ι K V D) (g g' : GlobalTable ι K V D) : Prop where
  id_eq : g'.id = g.id
  sent_eq : g'.sent = g.sent
  partitions_eq : ∀ i, d.owner i ≠ g.id → g'.partitions i = g.partitions i

theorem accumulateF1_local {k : K} {v : V} (hlocal : d.owner (d.getShard k) = g.id)
    (hok : accumulateF1 d k v g = .ok g') : WritesLocally d g g' := by
  have hshard : isLocalShard d g (d.getShard k) = true := decide_eq_true hlocal
  rw [accumulateF1, if_pos hshard, onState] at hok
  cases hpart : g.partitions (d.getShard k) with
  | delta t => simp [hpart] at hok
  | state t =>
    simp only [hpart] at hok
    cases hcall : StateTable.accumulateF1 d.hash d.kern k v t with
    | error e => simp [hcall] at hok
    | ok t' =>
      simp only [hcall] at hok
      obtain rfl := Except.ok.inj hok
      refine ⟨rfl, rfl, fun i hi => setPartition_of_ne g ?_ _⟩
      rintro rfl
      exact hi hlocal

/-- The owner of the shard applies a message in its state table. -/
theorem applyUpdates_local {req : KVPairData ι}
    (hlocal : ∀ kv ∈ d.marshals.decode req.kvData, d.owner (d.getShard kv.1) = g.id)
    (hok : applyUpdates d req g = .ok g') : WritesLocally d g g' := by
  rw [applyUpdates] at hok
  generalize d.marshals.decode req.kvData = pairs at hlocal hok
  induction pairs generalizing g with
  | nil =>
    obtain rfl := Except.ok.inj hok
    exact ⟨rfl, rfl, fun _ _ => rfl⟩
  | cons kv pairs ih =>
    obtain ⟨g₁, hfirst, hrest⟩ := bind_eq_ok.mp hok
    have h₁ := accumulateF1_local (hlocal kv List.mem_cons_self) hfirst
    have h₂ := ih (fun kv hkv => (hlocal kv (List.mem_cons_of_mem _ hkv)).trans h₁.id_eq.symm) hrest
    refine ⟨h₂.id_eq.trans h₁.id_eq, h₂.sent_eq.trans h₁.sent_eq, fun i hi => ?_⟩
    rw [h₂.partitions_eq i (h₁.id_eq ▸ hi), h₁.partitions_eq i hi]

end GlobalTable

namespace Cluster

/-! ## Runs that go on -/

section Leads

variable {ι K V D : Type*} [DecidableEq ι] [DecidableEq K] [AddCommMonoid V]
  {d : TableDescriptor ι K V D} {store : K → D} {s s' s'' : Cluster ι K V D} {act : Action ι K}

/-- A run leads from `s` to `s'`. -/
def Leads (d : TableDescriptor ι K V D) (store : K → D) (s s' : Cluster ι K V D) : Prop :=
  ∃ acts, run d store acts s = .ok s'

theorem Leads.refl (s : Cluster ι K V D) : Leads d store s s := ⟨[], rfl⟩

theorem Leads.trans (h : Leads d store s s') (h' : Leads d store s' s'') :
    Leads d store s s'' := by
  obtain ⟨acts, hrun⟩ := h
  obtain ⟨acts', hrun'⟩ := h'
  exact ⟨acts ++ acts', run_append hrun hrun'⟩

theorem leads_step (hstep : step d store act s = .ok s') : Leads d store s s' :=
  ⟨[act], bind_eq_ok.mpr ⟨s', hstep, rfl⟩⟩

/-- The record only grows. -/
theorem history_prefix_of_step (hstep : step d store act s = .ok s') :
    s.history <+: s'.history := by
  by_cases hact : ∃ w k, act = .absorb w k
  · obtain ⟨w, k, rfl⟩ := hact
    rw [step] at hstep
    simp only at hstep
    split_ifs at hstep
    · obtain ⟨m', -, hlast⟩ := bind_eq_ok.mp hstep
      obtain rfl := Except.ok.inj hlast
      exact List.prefix_append _ _
    · obtain rfl := Except.ok.inj hstep
      exact List.prefix_rfl
  · rw [step_history (fun w k h => hact ⟨w, k, h⟩) hstep]

theorem Leads.history (h : Leads d store s s') : ∃ as, s'.history = s.history ++ as := by
  obtain ⟨acts, hrun⟩ := h
  have hprefix : s.history <+: s'.history :=
    forEach_invariant (I := fun s' => s.history <+: s'.history)
      (fun _ _ _ hs hok => hs.trans (history_prefix_of_step hok)) List.prefix_rfl hrun
  obtain ⟨as, has⟩ := hprefix
  exact ⟨as, has.symm⟩

/-- A run in which no `run_iter` is entered leads from `s` to `s'`. -/
def Drains (d : TableDescriptor ι K V D) (store : K → D) (s s' : Cluster ι K V D) : Prop :=
  ∃ acts, (∀ w, Others w acts) ∧ run d store acts s = .ok s'

theorem Drains.refl (s : Cluster ι K V D) : Drains d store s s :=
  ⟨[], fun _ _ => List.not_mem_nil, rfl⟩

theorem Drains.trans (h : Drains d store s s') (h' : Drains d store s' s'') :
    Drains d store s s'' := by
  obtain ⟨acts, hothers, hrun⟩ := h
  obtain ⟨acts', hothers', hrun'⟩ := h'
  refine ⟨acts ++ acts', fun w k hk => ?_, run_append hrun hrun'⟩
  rcases List.mem_append.mp hk with hk | hk
  · exact hothers w k hk
  · exact hothers' w k hk

theorem drains_step (hact : ∀ w k, act ≠ .absorb w k) (hstep : step d store act s = .ok s') :
    Drains d store s s' :=
  ⟨[act], fun w k hk => hact w k (List.mem_singleton.mp hk).symm,
    bind_eq_ok.mpr ⟨s', hstep, rfl⟩⟩

theorem Drains.leads (h : Drains d store s s') : Leads d store s s' := by
  obtain ⟨acts, -, hrun⟩ := h
  exact ⟨acts, hrun⟩

theorem Drains.history_eq (h : Drains d store s s') : s'.history = s.history := by
  obtain ⟨acts, hothers, hrun⟩ := h
  induction acts generalizing s with
  | nil =>
    obtain rfl := Except.ok.inj hrun
    rfl
  | cons act acts ih =>
    obtain ⟨s₁, hstep, hrest⟩ := bind_eq_ok.mp hrun
    have hact : ∀ w k, act ≠ .absorb w k := fun w k h => hothers w k (h ▸ List.mem_cons_self)
    exact (ih (fun w k hk => hothers w k (List.mem_cons_of_mem _ hk)) hrest).trans
      (step_history hact hstep)

/-- No worker is in a call of `run_iter`. -/
def Idle (s : Cluster ι K V D) : Prop := ∀ w, (s.kernels w).output = []

theorem Drains.idle (h : Drains d store s s') (hidle : Idle s) : Idle s' := by
  obtain ⟨acts, hothers, hrun⟩ := h
  exact fun w => idle_others (hothers w) (hidle w) hrun

end Leads

/-! ## Nothing is stuck -/

section Progress

variable {ι K V D : Type*} [DecidableEq ι] [DecidableEq K] [AddCommMonoid V] [Fintype ι]

/-- What a vertex outputs is for vertices. -/
def EmitsVertices (d : TableDescriptor ι K V D) (store : K → D) (vertices : Set K) : Prop :=
  ∀ j ∈ vertices, ∀ delta value, ∀ kv ∈ emit d store j delta value, kv.1 ∈ vertices

variable {d : TableDescriptor ι K V D} {store : K → D} {seed : D} {vertices : Set K}
  {s₀ s s' s'' : Cluster ι K V D} {act : Action ι K}

omit [DecidableEq ι] [DecidableEq K] [AddCommMonoid V] [Fintype ι] in
theorem EmitsVertices.history (hemits : EmitsVertices d store vertices)
    {as : List (Absorption K V)} (has : ∀ a ∈ as, a.vertex ∈ vertices ∧
      ∃ value, a.emitted = d.kern.gFunc a.vertex a.delta value (store a.vertex)) :
    ∀ kv ∈ emissions as, kv.1 ∈ vertices := by
  intro kv hkv
  obtain ⟨a, ha, hemitted⟩ := List.mem_flatMap.mp hkv
  obtain ⟨hvertex, value, heq⟩ := has a ha
  refine hemits a.vertex hvertex a.delta value kv ?_
  rw [emit, ← heq]
  exact hemitted

omit [Fintype ι] in
/-- The loop of a call over its output buffer comes to its end. -/
theorem exists_spread {w : ι} (hok : ∀ acts s', run d store acts s = .ok s' →
      ∃ s'', step d store (.spread w) s' = .ok s'') :
    ∃ n s', run d store (List.replicate n (.spread w)) s = .ok s' ∧
      (s'.kernels w).output = [] := by
  generalize hlength : (s.kernels w).output.length = len
  induction len generalizing s with
  | zero => exact ⟨0, s, rfl, List.length_eq_zero_iff.mp hlength⟩
  | succ len ih =>
    obtain ⟨s₁, hstep⟩ := hok [] s rfl
    -- a turn of the loop takes one pair out of the output buffer
    have houtput : (s₁.kernels w).output = (s.kernels w).output.tail := by
      obtain ⟨m', hspread, hlast⟩ := bind_eq_ok.mp hstep
      obtain rfl := Except.ok.inj hlast
      rw [setKernel_self]
      rw [MaiterKernel2.spread] at hspread
      cases hout : (s.kernels w).output with
      | nil =>
        rw [hout] at hlength
        cases hlength
      | cons kv rest =>
        rw [hout] at hspread
        obtain ⟨g, -, hg⟩ := bind_eq_ok.mp hspread
        obtain rfl := Except.ok.inj hg
        rfl
    have hrun₁ : run d store [.spread w] s = .ok s₁ := bind_eq_ok.mpr ⟨s₁, hstep, rfl⟩
    obtain ⟨n, s', hrun, hnil⟩ := ih (fun acts s' h => hok _ s' (run_append hrun₁ h))
      (by rw [houtput, List.length_tail, hlength, Nat.add_sub_cancel])
    exact ⟨n + 1, s', run_append hrun₁ hrun, hnil⟩

variable (hkern : d.kern.Additive) (hkeeps : d.kern.KeepsDelta) (hinit : Initial d seed vertices s₀)
  (hemits : EmitsVertices d store vertices)

include hkern hkeeps hemits

/-- Every action is possible, and what it emits is for vertices. -/
theorem exists_step_inv (hinv : Inv d store vertices vertices s₀ s) (act : Action ι K) :
    ∃ s', step d store act s = .ok s' ∧ Inv d store vertices vertices s₀ s' := by
  obtain ⟨s', hok, hnew⟩ :=
    (step_inv hkern hkeeps hinv act).exists_ok (not_not_intro subset_rfl)
  refine ⟨s', hok, hnew (hemits.history fun a ha => ?_)⟩
  by_cases hact : ∃ w k, act = .absorb w k
  · obtain ⟨w, k, rfl⟩ := hact
    rcases step_absorb_history hkern hkeeps hinv.sound hok with hsame | ⟨hk, -, hlast⟩
    · exact hinv.history a (hsame ▸ ha)
    · rw [hlast] at ha
      rcases List.mem_append.mp ha with hold | hlast
      · exact hinv.history a hold
      · rw [List.mem_singleton.mp hlast]
        exact ⟨hk, _, rfl⟩
  · rw [step_history (fun w k h => hact ⟨w, k, h⟩) hok] at ha
    exact hinv.history a ha

include hinit

theorem Leads.inv (h : Leads d store s₀ s) : Inv d store vertices vertices s₀ s := by
  obtain ⟨acts, hrun⟩ := h
  refine forEach_invariant (I := Inv d store vertices vertices s₀) (fun act s s' hinv hok => ?_)
    hinit.inv hrun
  obtain ⟨s'', hok', hinv'⟩ := exists_step_inv hkern hkeeps hemits hinv act
  rw [hok] at hok'
  exact Except.ok.inj hok' ▸ hinv'

theorem exists_step (h : Leads d store s₀ s) (act : Action ι K) :
    ∃ s', step d store act s = .ok s' ∧ Leads d store s₀ s' := by
  obtain ⟨s', hok, -⟩ :=
    exists_step_inv hkern hkeeps hemits (h.inv hkern hkeeps hinit hemits) act
  exact ⟨s', hok, h.trans (leads_step hok)⟩

/-- The call of `run_iter` of a worker can return. -/
theorem exists_output_nil (h : Leads d store s₀ s) (w : ι) :
    ∃ s', Drains d store s s' ∧ (s'.kernels w).output = [] ∧
      ∀ v, (s.kernels v).output = [] → (s'.kernels v).output = [] := by
  have hspread_ok : ∀ acts s', run d store acts s = .ok s' →
      ∃ s'', step d store (.spread w) s' = .ok s'' := by
    intro acts s' hrun
    obtain ⟨s'', hok, -⟩ :=
      exists_step hkern hkeeps hinit hemits (h.trans ⟨acts, hrun⟩) (.spread w)
    exact ⟨s'', hok⟩
  obtain ⟨n, s', hspread, hreturned⟩ := exists_spread hspread_ok
  have hothers : ∀ v, Others v (List.replicate n (Action.spread w : Action ι K)) := by
    intro v k hk
    cases List.eq_of_mem_replicate hk
  exact ⟨s', ⟨_, hothers, hspread⟩, hreturned, fun v hv => idle_others (hothers v) hv hspread⟩

/-- All calls of `run_iter` can return. -/
theorem exists_idle (h : Leads d store s₀ s) : ∃ s', Drains d store s s' ∧ Idle s' := by
  obtain ⟨s', hdrains, hidle⟩ := exists_forall_mem (I := Drains d store s)
    (P := fun w s' => (s'.kernels w).output = []) (.refl s) Finset.univ <| by
      intro s₁ hdrains w _
      obtain ⟨s₂, hdrains', hreturned, hothers⟩ :=
        exists_output_nil hkern hkeeps hinit hemits (h.trans hdrains.leads) w
      exact ⟨s₂, hdrains.trans hdrains', hreturned, fun v _ _ => hothers v⟩
  exact ⟨s', hdrains, fun w => hidle w (Finset.mem_univ w)⟩

omit hkern hkeeps hinit hemits [Fintype ι] in
/-- Sending the buffers of a worker concerns the worker alone. -/
theorem step_sendUpdates_kernels {targets : Set K} {w : ι}
    (hsound : Sound d vertices targets w (s.kernels w))
    (hstep : step d store (.sendUpdates w) s = .ok s') :
    (∀ i < d.numShards, d.owner i ≠ w → ((s'.kernels w).table.partitions i).empty = true) ∧
      ∀ v ≠ w, s'.kernels v = s.kernels v := by
  obtain ⟨g, hsend, hlast⟩ := bind_eq_ok.mp hstep
  obtain rfl := Except.ok.inj hlast
  refine ⟨fun i hi hown => ?_, fun v hv => setKernel_of_ne hv⟩
  rw [setKernel_self]
  refine GlobalTable.sendUpdates_empties hsound.wellFormed hsend hi ?_
  rw [hsound.id_eq]
  exact hown

/-- The buffers of all workers are empty. -/
def Flushed (d : TableDescriptor ι K V D) (s : Cluster ι K V D) : Prop :=
  ∀ w, ∀ i < d.numShards, d.owner i ≠ w → ((s.kernels w).table.partitions i).empty = true

/-- All buffers can be sent. -/
theorem exists_flushed (h : Leads d store s₀ s) : ∃ s', Drains d store s s' ∧ Flushed d s' := by
  obtain ⟨s', hdrains, hflushed⟩ := exists_forall_mem (I := Drains d store s)
    (P := fun w s' => ∀ i < d.numShards, d.owner i ≠ w →
      ((s'.kernels w).table.partitions i).empty = true) (.refl s) Finset.univ <| by
      intro s₁ hdrains w _
      have h₁ := h.trans hdrains.leads
      obtain ⟨s₂, hstep, -⟩ := exists_step hkern hkeeps hinit hemits h₁ (.sendUpdates w)
      obtain ⟨hempty, hothers⟩ :=
        step_sendUpdates_kernels ((h₁.inv hkern hkeeps hinit hemits).sound w) hstep
      refine ⟨s₂, hdrains.trans (drains_step (fun _ _ h => by cases h) hstep), hempty, ?_⟩
      intro v _ hv hflushed
      rw [hothers v hv]
      exact hflushed
  exact ⟨s', hdrains, fun w => hflushed w (Finset.mem_univ w)⟩

omit hkern hkeeps hinit hemits [Fintype ι] in
/-- Delivering the first message of a worker. -/
theorem step_applyUpdates_kernels {targets : Set K}
    (hsound : ∀ w, Sound d vertices targets w (s.kernels w)) {w : ι} {msg : ι × KVPairData ι}
    {rest : List (ι × KVPairData ι)} (hsent : (s.kernels w).table.sent = msg :: rest)
    (hstep : step d store (.applyUpdates w 0) s = .ok s') :
    (s'.kernels w).table.sent = rest ∧
      (∀ v ≠ w, (s'.kernels v).table.sent = (s.kernels v).table.sent) ∧
      ∀ v i, d.owner i ≠ v →
        (s'.kernels v).table.partitions i = (s.kernels v).table.partitions i := by
  have haddr : GlobalTable.Addressed d targets msg :=
    (hsound w).wellFormed.sent msg (hsent ▸ List.mem_cons_self)
  have hmsg : (s.kernels w).table.sent[0]? = some msg := by rw [hsent, List.getElem?_cons_zero]
  rw [step, hmsg] at hstep
  let src : MaiterKernel2 ι K V D := { s.kernels w with
    table := { (s.kernels w).table with sent := (s.kernels w).table.sent.eraseIdx 0 } }
  let s₁ := s.setKernel w src
  obtain ⟨g, happly, hlast⟩ := bind_eq_ok.mp hstep
  obtain rfl := Except.ok.inj hlast
  -- the message has left its sender, and the tables of the receiver are as they were
  have hid₁ : (s₁.kernels msg.1).table.id = msg.1 :=
    (apply_setKernel (·.table.id) (by rfl) msg.1).trans (hsound msg.1).id_eq
  have hpartitions₁ : ∀ v, (s₁.kernels v).table.partitions = (s.kernels v).table.partitions :=
    fun v => apply_setKernel (·.table.partitions) (by rfl) v
  have hwrites : GlobalTable.WritesLocally d (s₁.kernels msg.1).table g := by
    refine GlobalTable.applyUpdates_local (fun kv hkv => ?_) happly
    rw [(haddr.pairs kv hkv).1, ← haddr.to_owner]
    exact hid₁.symm
  -- then the receiver writes to its own shards only
  have hsent₁ : ∀ v,
      ((s₁.setKernel msg.1 { s₁.kernels msg.1 with table := g }).kernels v).table.sent =
      (s₁.kernels v).table.sent :=
    fun v => apply_setKernel (·.table.sent) hwrites.sent_eq v
  refine ⟨?_, fun v hv => ?_, fun v i hown => ?_⟩
  · calc _ = (s₁.kernels w).table.sent := hsent₁ w
      _ = (s.kernels w).table.sent.eraseIdx 0 := by rw [setKernel_self]
      _ = rest := by rw [hsent, List.eraseIdx_cons_zero]
  · calc _ = (s₁.kernels v).table.sent := hsent₁ v
      _ = (s.kernels v).table.sent := by rw [setKernel_of_ne hv]
  · rw [← hpartitions₁ v]
    by_cases hv : v = msg.1
    · subst hv
      rw [setKernel_self]
      exact hwrites.partitions_eq i (hid₁.symm ▸ hown)
    · rw [setKernel_of_ne hv]

/-- All messages of a worker can be delivered. -/
theorem exists_sent_nil (h : Leads d store s₀ s) (hflushed : Flushed d s) (w : ι) :
    ∃ s', Drains d store s s' ∧ Flushed d s' ∧ (s'.kernels w).table.sent = [] ∧
      ∀ v ≠ w, (s'.kernels v).table.sent = (s.kernels v).table.sent := by
  generalize hsent : (s.kernels w).table.sent = sent
  induction sent generalizing s with
  | nil => exact ⟨s, .refl s, hflushed, hsent, fun _ _ => rfl⟩
  | cons msg rest ih =>
    obtain ⟨s₁, hstep, h₁⟩ := exists_step hkern hkeeps hinit hemits h (.applyUpdates w 0)
    obtain ⟨hrest, hothers, hpartitions⟩ :=
      step_applyUpdates_kernels (h.inv hkern hkeeps hinit hemits).sound hsent hstep
    have hflushed₁ : Flushed d s₁ := by
      intro v i hi hown
      rw [hpartitions v i hown]
      exact hflushed v i hi hown
    obtain ⟨s', hdrains, hflushed', hnil, hothers'⟩ := ih h₁ hflushed₁ hrest
    exact ⟨s', (drains_step (fun _ _ h => by cases h) hstep).trans hdrains, hflushed', hnil,
      fun v hv => (hothers' v hv).trans (hothers v hv)⟩

/-- No call is in progress, all buffers are empty, and no message is under way. -/
structure Drained (d : TableDescriptor ι K V D) (s : Cluster ι K V D) : Prop where
  idle : Idle s
  flushed : Flushed d s
  sent : ∀ w, (s.kernels w).table.sent = []

/-- **All updates can arrive.** -/
theorem exists_drained (h : Leads d store s₀ s) : ∃ s', Drains d store s s' ∧ Drained d s' := by
  obtain ⟨s₁, hdrains₁, hidle⟩ := exists_idle hkern hkeeps hinit hemits h
  have h₁ := h.trans hdrains₁.leads
  obtain ⟨s₂, hdrains₂, hflushed⟩ := exists_flushed hkern hkeeps hinit hemits h₁
  have h₂ := h₁.trans hdrains₂.leads
  obtain ⟨s₃, ⟨hdrains₃, hflushed₃⟩, hsent⟩ := exists_forall_mem
    (I := fun s' => Drains d store s₂ s' ∧ Flushed d s')
    (P := fun w s' => (s'.kernels w).table.sent = []) ⟨.refl s₂, hflushed⟩ Finset.univ <| by
      rintro s₃ ⟨hdrains₃, hflushed₃⟩ w -
      obtain ⟨s₄, hdrains₄, hflushed₄, hnil, hothers⟩ :=
        exists_sent_nil hkern hkeeps hinit hemits (h₂.trans hdrains₃.leads) hflushed₃ w
      refine ⟨s₄, ⟨hdrains₃.trans hdrains₄, hflushed₄⟩, hnil, fun v _ hv hsent => ?_⟩
      rw [hothers v hv]
      exact hsent
  have hdrains := hdrains₂.trans hdrains₃
  exact ⟨s₃, hdrains₁.trans hdrains, hdrains.idle hidle, hflushed₃,
    fun w => hsent w (Finset.mem_univ w)⟩

variable (hzero : ∀ k ∈ vertices, d.kern.initV k seed = d.kern.defaultV)

include hzero

omit hemits in
theorem Leads.computes (h : Leads d store s₀ s) : Computes d store seed vertices s := by
  obtain ⟨acts, hrun⟩ := h
  exact run_computes hkern hkeeps hinit hzero acts hrun

/-- What is pending for a vertex can be absorbed. -/
theorem exists_absorbed (h : Leads d store s₀ s) {k : K} (hk : k ∈ vertices) :
    ∃ s', Leads d store s s' ∧ ownerF2 d s' k = ownerF2 d s k + (abs d s).pending k := by
  obtain ⟨s₁, hdrains, hdrained⟩ := exists_drained hkern hkeeps hinit hemits h
  have h₁ := h.trans hdrains.leads
  have hsound := (h₁.inv hkern hkeeps hinit hemits).sound
  let w := d.owner (d.getShard k)
  obtain ⟨s₂, hstep, h₂⟩ := exists_step hkern hkeeps hinit hemits h₁ (.absorb w k)
  -- the owner is idle and enters `run_iter`
  have hcontains : GlobalTable.contains d k (s₁.kernels w).table = true := by
    rw [GlobalTable.contains_iff (hsound w).wellFormed, (hsound w).id_eq]
    exact ⟨rfl, hk⟩
  have hhistory : ∃ emitted,
      s₂.history = s₁.history ++ [⟨k, (s₁.kernels w).table.f1 d k, emitted⟩] := by
    have henters := hstep
    rw [step] at henters
    simp only [hdrained.idle w, List.isEmpty_nil, hcontains, Bool.and_self, if_true] at henters
    obtain ⟨m', -, hlast⟩ := bind_eq_ok.mp henters
    obtain rfl := Except.ok.inj hlast
    exact ⟨m'.output, rfl⟩
  obtain ⟨emitted, hhistory⟩ := hhistory
  have hcomp := h.computes hkern hkeeps hinit hzero
  have hcomp₁ := h₁.computes hkern hkeeps hinit hzero
  have hcomp₂ := h₂.computes hkern hkeeps hinit hzero
  -- all that was under way has come in, so what is pending is the owner's delta
  have hpending : (abs d s₁).pending k = (s₁.kernels w).table.f1 d k :=
    pending_eq_f1 hdrained.flushed hdrained.sent hdrained.idle hsound k
  refine ⟨s₂, hdrains.leads.trans (leads_step hstep), ?_⟩
  calc ownerF2 d s₂ k
      = ownerF2 d s₁ k + (abs d s₁).pending k := by
        rw [hcomp₂.f2_eq k hk, hhistory, absorbed_concat, if_pos rfl, hcomp₁.f2_eq k hk, hpending]
    _ = ownerF2 d s k + (abs d s).pending k := by
        rw [hcomp₁.conserved k hk, hdrains.history_eq, hcomp.conserved k hk]

omit hemits in
/-- Values only grow. -/
theorem Leads.part_value (h : Leads d store s₀ s) (h' : Leads d store s s') {k : K}
    (hk : k ∈ vertices) : Part (ownerF2 d s k) (ownerF2 d s' k) := by
  obtain ⟨as, has⟩ := h'.history
  rw [(h.computes hkern hkeeps hinit hzero).f2_eq k hk,
    ((h.trans h').computes hkern hkeeps hinit hzero).f2_eq k hk, has]
  exact part_absorbed_append as

omit hemits in
/-- So does what there is of a vertex, absorbed or pending. -/
theorem Leads.part_total (h : Leads d store s₀ s) (h' : Leads d store s s') {k : K}
    (hk : k ∈ vertices) : Part (ownerF2 d s k + (abs d s).pending k)
      (ownerF2 d s' k + (abs d s').pending k) := by
  obtain ⟨as, has⟩ := h'.history
  rw [(h.computes hkern hkeeps hinit hzero).conserved k hk,
    ((h.trans h').computes hkern hkeeps hinit hzero).conserved k hk, has]
  refine (Part.refl _).add ⟨tally (emissions as) k, ?_⟩
  rw [emissions, emissions, emissions, List.flatMap_append, tally_append]

/-- A run at whose end the values have all that was pending at its start. -/
structure Round (d : TableDescriptor ι K V D) (store : K → D) (vertices : Set K)
    (s s' : Cluster ι K V D) : Prop where
  leads : Leads d store s s'
  takes : ∀ k ∈ vertices, Part (ownerF2 d s k + (abs d s).pending k) (ownerF2 d s' k)

/-- A sequence of `n` rounds, with anything before and between them. -/
inductive Rounds (d : TableDescriptor ι K V D) (store : K → D) (vertices : Set K) :
    ℕ → Cluster ι K V D → Cluster ι K V D → Prop
  | zero {s s' : Cluster ι K V D} (hleads : Leads d store s s') : Rounds d store vertices 0 s s'
  | succ {n : ℕ} {s s₁ s' : Cluster ι K V D} (hprev : Rounds d store vertices n s s₁)
      (hround : Round d store vertices s₁ s') : Rounds d store vertices (n + 1) s s'

omit hkern hkeeps hinit hemits hzero in
theorem Rounds.leads {n : ℕ} (h : Rounds d store vertices n s s') : Leads d store s s' := by
  induction h with
  | zero hleads => exact hleads
  | succ _ hround ih => exact ih.trans hround.leads

end Progress

/-! ## Rounds -/

section Rounds

variable {ι K V D : Type*} [DecidableEq ι] [DecidableEq K] [AddCommMonoid V] [Fintype ι]
  {d : TableDescriptor ι K V D} {store : K → D} {seed : D} {vertices : Finset K}
  {s₀ s s' s'' : Cluster ι K V D} {contrib : K → V → K → V} {n : ℕ}
  (hkern : d.kern.Additive) (hkeeps : d.kern.KeepsDelta) (hinit : Initial d seed vertices s₀)
  (hzero : ∀ k ∈ vertices, d.kern.initV k seed = d.kern.defaultV)

include hkern hkeeps hinit hzero

/-- **A round can always follow.** -/
theorem exists_round (hemits : EmitsVertices d store vertices) (h : Leads d store s₀ s) :
    ∃ s', Round d store vertices s s' := by
  obtain ⟨s', hleads, htakes⟩ := exists_forall_mem (I := Leads d store s)
    (P := fun k s' => Part (ownerF2 d s k + (abs d s).pending k) (ownerF2 d s' k)) (.refl s)
    vertices <| by
      intro s₁ hleads k hk
      have h₁ := h.trans hleads
      obtain ⟨s₂, hleads', habsorbed⟩ :=
        exists_absorbed hkern hkeeps hinit hemits hzero h₁ (Finset.mem_coe.mpr hk)
      refine ⟨s₂, hleads.trans hleads', ?_, fun j hj _ htakes => ?_⟩
      · rw [habsorbed]
        exact h.part_total hkern hkeeps hinit hzero hleads hk
      · exact htakes.trans (h₁.part_value hkern hkeeps hinit hzero hleads' hj)
  exact ⟨s', hleads, htakes⟩

theorem exists_rounds (hemits : EmitsVertices d store vertices) (h : Leads d store s₀ s) (n : ℕ) :
    ∃ s', Rounds d store vertices n s s' := by
  induction n with
  | zero => exact ⟨s, .zero (.refl s)⟩
  | succ n ih =>
    obtain ⟨s₁, hrounds⟩ := ih
    obtain ⟨s', hround⟩ := exists_round hkern hkeeps hinit hzero hemits (h.trans hrounds.leads)
    exact ⟨s', .succ hrounds hround⟩

/-- What there is of a vertex, absorbed or pending, is what it begins with and is contributed. -/
theorem Leads.total_eq (hacc : Accounts contrib (emit d store)) (h : Leads d store s₀ s) {k : K}
    (hk : k ∈ vertices) : ownerF2 d s k + (abs d s).pending k =
      d.kern.initC k seed + ∑ j ∈ vertices, contrib j (ownerF2 d s j) k := by
  have hcomp := h.computes hkern hkeeps hinit hzero
  rw [hcomp.conserved k hk, hcomp.iteration.tally_emissions hacc fun a ha => hcomp.vertex a ha]
  congr 1
  exact Finset.sum_congr rfl fun j hj => by rw [hcomp.f2_eq j hj]

/-- After `n` rounds the values have what `n` synchronous rounds give. -/
theorem Rounds.part (hacc : Accounts contrib (emit d store)) (h : Leads d store s₀ s)
    (hrounds : Rounds d store vertices n s s') : ∀ k ∈ vertices,
      Part (rounds (fun k => d.kern.initC k seed) contrib vertices n k) (ownerF2 d s' k) := by
  induction hrounds with
  | zero _ => exact fun k _ => Part.zero _
  | @succ n s s₁ s' hprev hround ih =>
    intro k hk
    -- what a round takes in has what the neighbours had at its start
    refine Part.trans ?_ (hround.takes k hk)
    rw [(h.trans hprev.leads).total_eq hkern hkeeps hinit hzero hacc hk]
    exact (Part.refl _).add (Part.sum fun j hj => hacc.part (ih h j hj))

/-- So have they after more rounds, and later. -/
theorem Rounds.part_later (hacc : Accounts contrib (emit d store)) (h : Leads d store s₀ s)
    (hrounds : Rounds d store vertices n s s') (h' : Leads d store s' s'') {m : ℕ} (hm : m ≤ n)
    {k : K} (hk : k ∈ vertices) :
    Part (rounds (fun k => d.kern.initC k seed) contrib vertices m k) (ownerF2 d s'' k) :=
  ((hacc.part_rounds hm).trans (hrounds.part hkern hkeeps hinit hzero hacc h k hk)).trans
    ((h.trans hrounds.leads).part_value hkern hkeeps hinit hzero h' hk)

omit hzero in
/-- **Rounds approach the least solution.** Let `contrib` tell what a vertex contributes to others
by its value, and `g_func` output what the contributions grow by. From every state that any run on
any number of workers reaches, any number of rounds can follow, if all targets are vertices. After
`n` rounds, in any order and with anything in between, and in all states of further runs, the values
are between the `n`-th approximation of the least solution and every solution. -/
theorem rounds_approach_least_solution
    (hzero : ∀ k ∈ vertices, d.kern.initV k seed = d.kern.defaultV)
    (hacc : Accounts contrib (emit d store)) {acts : List (Action ι K)}
    (hrun : run d store acts s₀ = .ok s) :
    (EmitsVertices d store vertices → ∀ n, ∃ s', Rounds d store vertices n s s') ∧
    ∀ n s', Rounds d store vertices n s s' → ∀ more s'', run d store more s' = .ok s'' →
      (∀ k ∈ vertices,
        Part (rounds (fun k => d.kern.initC k seed) contrib vertices n k) (ownerF2 d s'' k)) ∧
      ∀ X : K → V,
        (∀ k ∈ vertices, Part (d.kern.initC k seed + ∑ j ∈ vertices, contrib j (X j) k) (X k)) →
        ∀ k ∈ vertices, Part (ownerF2 d s'' k) (X k) := by
  have h : Leads d store s₀ s := ⟨acts, hrun⟩
  refine ⟨fun hemits => exists_rounds hkern hkeeps hinit hzero hemits h, ?_⟩
  intro n s' hrounds more s'' hmore
  have h' : Leads d store s₀ s' := h.trans hrounds.leads
  have hfurther : Leads d store s' s'' := ⟨more, hmore⟩
  refine ⟨fun k hk => ?_, fun X hX => ?_⟩
  · exact hrounds.part_later hkern hkeeps hinit hzero hacc h hfurther le_rfl hk
  · exact ((h'.trans hfurther).computes hkern hkeeps hinit hzero).part_of_solution hacc hX

omit hkern hkeeps hinit hzero [DecidableEq ι] [DecidableEq K] [AddCommMonoid V] [Fintype ι] in
/-- The vertices `0` and `1` begin with `1`, and the first passes it on. -/
theorem rounds_approach_least_solution_one_edge :
    bytesKernel.Additive ∧ bytesKernel.KeepsDelta ∧
      Initial (pairDescriptor bytesKernel 100) [] (Finset.univ : Finset (Fin 2))
        (pairCluster bytesKernel) ∧
      (∃ s', Rounds (pairDescriptor bytesKernel 100) oneEdge (Finset.univ : Finset (Fin 2)) 2
        (pairCluster bytesKernel) s') ∧
      ∀ s', Rounds (pairDescriptor bytesKernel 100) oneEdge (Finset.univ : Finset (Fin 2)) 2
        (pairCluster bytesKernel) s' → 2 ≤ ownerF2 (pairDescriptor bytesKernel 100) s' 1 := by
  have hkern : bytesKernel.Additive := ⟨fun _ _ => rfl, rfl⟩
  have hkeeps : bytesKernel.KeepsDelta := fun _ _ _ _ => rfl
  have hinit : Initial (pairDescriptor bytesKernel 100) [] (Finset.univ : Finset (Fin 2))
      (pairCluster bytesKernel) := by
    rw [Finset.coe_univ]
    exact initial_pairCluster bytesKernel 100
  have hbefore : run (pairDescriptor bytesKernel 100) oneEdge [] (pairCluster bytesKernel) =
      .ok (pairCluster bytesKernel) := rfl
  obtain ⟨hexists, hafter⟩ := rounds_approach_least_solution hkern hkeeps hinit (fun _ _ => rfl)
    (accounts_bytesKernel oneEdge) hbefore
  refine ⟨hkern, hkeeps, hinit, hexists (fun _ _ _ _ _ _ => Finset.mem_univ _) 2, fun s' hs' => ?_⟩
  obtain ⟨c, hc⟩ := (hafter 2 s' hs' [] s' rfl).1 1 (Finset.mem_univ 1)
  have htwo : rounds (fun k => (pairDescriptor bytesKernel 100).kern.initC k [])
      (fun j v k => ((oneEdge j).map fun b => Fin.ofNat 2 b.toNat).count k * v) Finset.univ 2
        (1 : Fin 2) = 2 := by decide +kernel
  rw [htwo] at hc
  exact Nat.le.intro hc

end Rounds

end Cluster

end MaiterStore
