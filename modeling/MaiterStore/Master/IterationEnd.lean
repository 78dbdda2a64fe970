/-
# An iteration can end

After the master has decided, every iteration can be brought to its end, whatever has happened
before: the notifications are handled, each running kernel makes at most one more pass and returns,
the kernels that are dispatched later return at once, and the loop of `barrier` (`master/master.cc`)
reads that they are done.
-/

import MaiterStore.Master.Termination

namespace MaiterStore.Scheduler

open CS.Run

namespace Iteration

variable {n m : ℕ} {cfg : Config n m} {table : Fin m} {s s' s'' : Iteration n m} {w : Fin n}

/-- Events can lead from `s` to `s'`. -/
def Leads (cfg : Config n m) (s s' : Iteration n m) : Prop :=
  ∃ events, run cfg events s = .ok s'

theorem Leads.refl (s : Iteration n m) : Leads cfg s s := ⟨[], rfl⟩

theorem Leads.trans (h : Leads cfg s s') (h' : Leads cfg s' s'') : Leads cfg s s'' := by
  obtain ⟨events, hrun⟩ := h
  obtain ⟨events', hrun'⟩ := h'
  refine ⟨events ++ events', ?_⟩
  rw [run] at hrun hrun' ⊢
  rw [forEach_append, hrun]
  exact hrun'

theorem leads_step {e : Event n m} (hstep : step cfg e s = .ok s') : Leads cfg s s' := by
  refine ⟨[e], ?_⟩
  rw [run, forEach, hstep]
  rfl

theorem Inv.leads (hs : Inv cfg table s) (htable : table.val = 0) (h : Leads cfg s s') :
    Inv cfg table s' := by
  obtain ⟨events, hrun⟩ := h
  have hend := run_inv htable hs events
  rwa [hrun] at hend

/-! ## A kernel returns -/

theorem handleTermNotification_frame (cfg : Config n m) (w : Fin n) (s : Iteration n m) :
    (s.handleTermNotification cfg w).sched = s.sched ∧
      (s.handleTermNotification cfg w).terminated = s.terminated ∧
      (s.handleTermNotification cfg w).notices w = s.notices w - 1 := by
  rw [handleTermNotification]
  split_ifs with hzero
  · exact ⟨rfl, rfl, by rw [hzero]⟩
  · exact ⟨rfl, rfl, Function.update_self ..⟩

theorem iterator_frame (w : Fin n) (s : Iteration n m) :
    (s.iterator w).sched = s.sched ∧ (s.iterator w).terminated = s.terminated ∧
      (s.iterator w).notices = s.notices := by
  rw [iterator]
  split
  · exact ⟨rfl, rfl, rfl⟩
  · split_ifs <;> exact ⟨rfl, rfl, rfl⟩

/-- A worker that has handled the notification returns from its kernel. -/
theorem Inv.readFlag_of_aware (hs : Inv cfg table s) (hplace : s.sched.place.quiet = false)
    (hun : ¬ s.Unaware w) {id : Taskid m} (hrunning : (s.sched.nodes w).running = some id) :
    (s.readFlag w).sched = s.sched.kernelDone w ∧ (s.readFlag w).terminated = s.terminated := by
  obtain ⟨task, htask, -, rfl⟩ := hs.mem_work hrunning
  have hflag := (hs.workers (.inl hplace) w).aware hun task htask
  rw [Iteration.readFlag, hrunning]
  dsimp only
  rw [if_pos hflag]
  exact ⟨rfl, rfl⟩

theorem Inv.exists_kernelDone (hs : Inv cfg table s) (htable : table.val = 0)
    (hterminated : s.terminated = true) (hplace : s.sched.place.quiet = false) {id : Taskid m}
    (hrunning : (s.sched.nodes w).running = some id) :
    ∃ s', Leads cfg s s' ∧ s'.sched = s.sched.kernelDone w ∧ s'.terminated = true := by
  -- the notification is handled, and an iterator that is under way is returned
  obtain ⟨hsched₁, hterminated₁, hnotices₁⟩ := handleTermNotification_frame cfg w s
  obtain ⟨hsched₂, hterminated₂, hnotices₂⟩ := iterator_frame w (s.handleTermNotification cfg w)
  have hlead : Leads cfg s ((s.handleTermNotification cfg w).iterator w) :=
    (leads_step (e := .handleTermNotification w) rfl).trans (leads_step (e := .iterator w) rfl)
  have hs₂ := hs.leads htable hlead
  have hun : ¬ ((s.handleTermNotification cfg w).iterator w).Unaware w := by
    rintro (hfalse | hpos)
    · rw [hterminated₂, hterminated₁, hterminated] at hfalse
      cases hfalse
    · have hle := hs.notices w
      rw [if_pos hterminated] at hle
      rw [hnotices₂, hnotices₁] at hpos
      omega
  obtain ⟨hsched₃, hterminated₃⟩ := hs₂.readFlag_of_aware (by rw [hsched₂, hsched₁, hplace]) hun
    (by rw [hsched₂, hsched₁, hrunning])
  refine ⟨_, hlead.trans (leads_step (e := .readFlag w) rfl), ?_, ?_⟩
  · rw [hsched₃, hsched₂, hsched₁]
  · rw [hterminated₃, hterminated₂, hterminated₁, hterminated]

/-! ## The loop of `barrier` -/

theorem leads_advance {sched : Cluster n m}
    (hok : s.sched.advance cfg (fun _ => 0) false = .ok sched) :
    Leads cfg s { s with sched := sched } := by
  refine leads_step (e := .advance fun _ => 0) ?_
  rw [step, hok]
  rfl

/-- The master comes back to the head of its loop. -/
theorem Inv.exists_head (hs : Inv cfg table s) (hplace : s.sched.place.quiet = false) :
    ∃ sched, Leads cfg s { s with sched := sched } ∧ sched.place = .head ∧
      sched.finished = s.sched.finished := by
  -- after the loop of `steal_work` the master dispatches the shards that are left, if any
  have hredispatch : ∀ {s : Iteration n m}, s.sched.currentRun = some (runAll cfg table) →
      s.sched.place = .redispatch → ∃ sched, Leads cfg s { s with sched := sched } ∧
        sched.place = .head ∧ sched.finished = s.sched.finished := by
    intro s hrun hplace
    by_cases hmore : s.sched.dispatched < (runAll cfg table).shards.length
    · have hok : s.sched.advance cfg (fun _ => 0) false =
          .ok (Cluster.dispatchWork table { s.sched with place := .head }) := by
        simp only [Cluster.advance, hplace, hrun, if_pos hmore]
        rfl
      exact ⟨_, leads_advance hok, Cluster.dispatchWork_place ..,
        (Cluster.proceeds_dispatchWork ..).finished⟩
    · have hok : s.sched.advance cfg (fun _ => 0) false = .ok { s.sched with place := .head } := by
        simp only [Cluster.advance, hplace, hrun, if_neg hmore]
      exact ⟨_, leads_advance hok, rfl, rfl⟩
  cases hplace' : s.sched.place with
  | idle | assignTables _ | assignTasks => rw [hplace'] at hplace; cases hplace
  | sendTables caller | waitTables caller =>
    have hunmoved := hs.unmoved
    rw [hplace'] at hplace hunmoved
    cases caller <;> simp_all [Place.moving, Place.quiet]
  | head => exact ⟨s.sched, .refl s, hplace', rfl⟩
  | dispatch =>
    have hok : s.sched.advance cfg (fun _ => 0) false =
        .ok (Cluster.dispatchWork table { s.sched with place := .head, dispatched := 0 }) := by
      simp only [Cluster.advance, hplace', hs.currentRun]
      rfl
    exact ⟨_, leads_advance hok, Cluster.dispatchWork_place ..,
      (Cluster.proceeds_dispatchWork ..).finished⟩
  | redispatch => exact hredispatch hs.currentRun hplace'
  | stealing next needUpdate =>
    have hunmoved := hs.unmoved
    rw [hplace'] at hunmoved
    obtain rfl : needUpdate = false := hunmoved
    have hrun := hs.currentRun
    -- the loop of `steal_work` steals nothing here; the induction is on the workers it has left
    clear hs hplace
    induction hk : n - next generalizing s next with
    | zero =>
      have hnext : ¬ next < n := by omega
      have hlead : Leads cfg s { s with sched := { s.sched with place := .redispatch } } :=
        leads_advance (by simp [Cluster.advance, hplace', hnext])
      obtain ⟨sched, hlead', hhead, hfinished⟩ :=
        hredispatch (s := { s with sched := { s.sched with place := .redispatch } }) hrun rfl
      exact ⟨sched, hlead.trans hlead', hhead, hfinished⟩
    | succ k ih =>
      have hnext : next < n := by omega
      have hlead :
          Leads cfg s { s with sched := { s.sched with place := .stealing (next + 1) false } } :=
        leads_advance (by
          simp only [Cluster.advance, hplace', dif_pos hnext, Cluster.stealWork_false]
          split_ifs <;> rfl)
      obtain ⟨sched, hlead', hhead, hfinished⟩ :=
        ih (s := { s with sched := { s.sched with place := .stealing (next + 1) false } })
          (next + 1) rfl hrun (by omega)
      exact ⟨sched, hlead.trans hlead', hhead, hfinished⟩

/-- A `KERNEL_DONE` is read, and the master comes back to the head of its loop. -/
theorem Inv.exists_reaped (hs : Inv cfg table s) (hplace : s.sched.place = .head)
    (hmore : s.sched.finished < s.sched.shards.length) {id : Taskid m} {rest : List (Taskid m)}
    (hdones : (s.sched.nodes w).dones = id :: rest) :
    ∃ sched, Leads cfg s { s with sched := sched } ∧ sched.place = .head ∧
      sched.finished = s.sched.finished + 1 := by
  have hmem : id ∈ activeIds (s.sched.workers w).work := by
    refine ((hs.sched.nodes.inFlight w).mem_iff).mp ?_
    rw [Node.inFlight, hdones]
    exact List.mem_append_right _ List.mem_cons_self
  obtain ⟨task, htask, hactive, rfl⟩ := mem_activeIds.mp hmem
  have hok : s.sched.reapOneTask w false =
      .ok (Cluster.reapTask w task rest .redispatch s.sched) := by
    rw [Cluster.reapOneTask, if_pos ⟨hplace, hmore⟩, hdones]
    dsimp only
    rw [Cluster.setFinished_of_active (hs.sched.master.owned.keyed w) htask hactive]
    rfl
  have hlead :
      Leads cfg s { s with sched := Cluster.reapTask w task rest .redispatch s.sched } := by
    refine leads_step (e := .reapOneTask w false) ?_
    rw [Iteration.step, hok]
    rfl
  have hsched : Cluster.Inv cfg (Cluster.reapTask w task rest .redispatch s.sched) := by
    have hend := Cluster.step_reapOneTask hs.sched w false
    rwa [hok] at hend
  obtain ⟨sched, hlead', hhead, hfinished⟩ := (hs.reapOneTask_ok hok hsched).exists_head rfl
  exact ⟨sched, hlead.trans hlead', hhead, hfinished⟩

/-- One more task is finished. -/
theorem Inv.exists_finished (hs : Inv cfg table s) (htable : table.val = 0)
    (hterminated : s.terminated = true) (hplace : s.sched.place = .head)
    (hmore : s.sched.finished < s.sched.shards.length) :
    ∃ s', Leads cfg s s' ∧ s'.terminated = true ∧ s'.sched.place = .head ∧
      s'.sched.finished = s.sched.finished + 1 := by
  have hquiet : s.sched.place.quiet = false := by
    rw [hplace]
    rfl
  -- the kernel at worker `w` returns, and this is read
  have hrunning : ∀ {s : Iteration n m} (id : Taskid m), Inv cfg table s → s.terminated = true →
      s.sched.place = .head → s.sched.finished < s.sched.shards.length →
      ∀ w, (s.sched.nodes w).running = some id → ∃ s', Leads cfg s s' ∧ s'.terminated = true ∧
        s'.sched.place = .head ∧ s'.sched.finished = s.sched.finished + 1 := by
    intro s id hs hterminated hplace hmore w hrunning
    obtain ⟨s₁, hlead₁, hsched₁, hterminated₁⟩ :=
      hs.exists_kernelDone htable hterminated (by rw [hplace]; rfl) hrunning
    have hdone : s.sched.kernelDone w = s.sched.setNode w { s.sched.nodes w with
        running := none, dones := (s.sched.nodes w).dones ++ [id] } := by
      rw [Cluster.kernelDone, hrunning]
    obtain ⟨id', rest, hdones⟩ : ∃ id' rest, (s₁.sched.nodes w).dones = id' :: rest := by
      refine List.exists_cons_of_ne_nil ?_
      rw [hsched₁, hdone, Cluster.setNode]
      simp
    obtain ⟨sched, hlead, hhead, hfinished⟩ := (hs.leads htable hlead₁).exists_reaped
      (by rw [hsched₁, hdone]; exact hplace) (by rw [hsched₁, hdone]; exact hmore) hdones
    exact ⟨_, hlead₁.trans hlead, hterminated₁, hhead, by rw [hfinished, hsched₁, hdone]; rfl⟩
  have hnodup : s.sched.shards.Nodup := by
    rw [Cluster.shards, hs.currentRun]
    exact List.nodup_range
  obtain ⟨w, task, -, -, hflight⟩ := hs.sched.awaits hplace hnodup hmore
  cases hdones : (s.sched.nodes w).dones with
  | cons id rest =>
    obtain ⟨sched, hlead, hhead, hfinished⟩ := hs.exists_reaped hplace hmore hdones
    exact ⟨_, hlead, hterminated, hhead, hfinished⟩
  | nil =>
    cases hkernel : (s.sched.nodes w).running with
    | some id => exact hrunning id hs hterminated hplace hmore w hkernel
    | none =>
      -- the request is still to be read
      rw [Node.inFlight, hdones, hkernel] at hflight
      simp only [Option.toList_none, List.append_nil] at hflight
      obtain ⟨id, rest, hrequests⟩ := List.exists_cons_of_ne_nil (List.ne_nil_of_mem hflight)
      have howner := hs.sched.nodes.requests w id (hrequests ▸ List.mem_cons_self)
      have hok : s.sched.runKernel w = .ok (s.sched.setNode w { s.sched.nodes w with
          requests := rest, running := some id }) := by
        rw [Cluster.runKernel, hkernel, hrequests]
        dsimp only
        rw [if_neg (not_not.mpr howner)]
      have hlead : Leads cfg s { s with sched := s.sched.setNode w { s.sched.nodes w with
          requests := rest, running := some id } } := by
        refine leads_step (e := .runKernel w) ?_
        rw [Iteration.step, hok]
        rfl
      obtain ⟨s', hlead', hend⟩ := hrunning id (hs.leads htable hlead) hterminated hplace hmore w
        (by dsimp only [Cluster.setNode]; rw [Function.update_self])
      exact ⟨s', hlead.trans hlead', hend⟩

theorem Inv.exists_idle (hs : Inv cfg table s) (htable : table.val = 0)
    (hterminated : s.terminated = true) (hplace : s.sched.place.quiet = false) :
    ∃ s', Leads cfg s s' ∧ s'.sched.place = .idle := by
  obtain ⟨sched, hlead, hhead, -⟩ := hs.exists_head hplace
  suffices h : ∀ {s : Iteration n m}, Inv cfg table s → s.terminated = true →
    s.sched.place = .head →
      ∃ s', Leads cfg s s' ∧ s'.sched.place = .idle by
    obtain ⟨s', hlead', hidle⟩ := h (hs.leads htable hlead) hterminated hhead
    exact ⟨s', hlead.trans hlead', hidle⟩
  intro s hs hterminated hplace
  induction hk : s.sched.shards.length - s.sched.finished generalizing s with
  | zero =>
    have hok : s.sched.advance cfg (fun _ => 0) false = .ok { s.sched with place := .idle } := by
      simp only [Cluster.advance, hplace]
      rw [if_neg (by omega)]
    exact ⟨_, leads_advance hok, rfl⟩
  | succ k ih =>
    obtain ⟨s₁, hlead₁, hterminated₁, hhead₁, hfinished₁⟩ :=
      hs.exists_finished htable hterminated hplace (by omega)
    have hs₁ := hs.leads htable hlead₁
    have hshards : s₁.sched.shards = s.sched.shards := by
      rw [Cluster.shards, Cluster.shards, hs₁.currentRun, hs.currentRun]
    obtain ⟨s', hlead', hidle⟩ := ih hs₁ hterminated₁ hhead₁ (by rw [hshards]; omega)
    exact ⟨s', hlead₁.trans hlead', hidle⟩

/-- **An iteration can end.** From every state of an iteration over table 0 in which the master has
decided and no shard has been stolen, events lead to the end of the loop of `barrier`, with the task
of every shard finished. -/
theorem iteration_can_end (cfg : Config n m) (acts : List (Cluster.Action n m))
    {sched₀ sched : Cluster n m} (hbefore : Cluster.run cfg acts = .ok sched₀)
    (hidle : sched₀.place = .idle) (htable : table.val = 0)
    (hstart : sched₀.startRun (runAll cfg table) = .ok sched) (events : List (Event n m))
    (hrun : run cfg events (start sched) = .ok s) (hterminated : s.terminated = true) :
    ∃ more s', run cfg (events ++ more) (start sched) = .ok s' ∧ s'.sched.place = .idle ∧
      ∀ shard < cfg.numShards table, ∃ w, ∃ task ∈ (s'.sched.workers w).work,
        task.id = ⟨table, shard⟩ ∧ task.status = .finished := by
  have hsched₀ : Cluster.Inv cfg sched₀ := by
    have hend := Cluster.run_inv cfg acts
    rwa [hbefore] at hend
  have hs₀ : Inv cfg table (start sched) := inv_start hsched₀ hidle hstart
  have hlead₀ : Leads cfg (start sched) s := ⟨events, hrun⟩
  have hs := hs₀.leads htable hlead₀
  obtain ⟨s', ⟨more, hmore⟩, hend⟩ : ∃ s', Leads cfg s s' ∧ s'.sched.place = .idle := by
    by_cases hplace : s.sched.place = .idle
    · exact ⟨s, .refl s, hplace⟩
    · refine hs.exists_idle htable hterminated ?_
      by_contra hquiet
      rw [hs.fresh (by simpa using hquiet) hplace] at hterminated
      cases hterminated
  have hs' := hs.leads htable ⟨more, hmore⟩
  refine ⟨more, s', ?_, hend, fun shard hshard => ?_⟩
  · rw [run] at hrun hmore ⊢
    rw [forEach_append, hrun]
    exact hmore
  · obtain ⟨hsched, hall⟩ := hs'.sched.master.done hend _ hs'.currentRun
    obtain ⟨w, task, htask, hid⟩ :=
      (hsched.tasks ⟨table, shard⟩).mpr ⟨rfl, List.mem_range.mpr hshard⟩
    exact ⟨w, task, htask, hid, hall w task htask⟩

theorem iteration_can_end_of_two :
    let cfg : Config 1 1 := ⟨fun _ => 2, fun _ => true⟩
    ∃ sched : Cluster 1 1, Cluster.init.startRun (runAll cfg 0) = .ok sched ∧
      ∃ more s', run cfg (oneWorker 0 ++ more) (start sched) = .ok s' ∧ s'.sched.place = .idle ∧
        ∀ shard < 2, ∃ w, ∃ task ∈ (s'.sched.workers w).work,
          task.id = ⟨0, shard⟩ ∧ task.status = .finished := by
  intro cfg
  exact ⟨_, rfl, iteration_can_end cfg [] rfl rfl rfl rfl (oneWorker 0) rfl rfl⟩

end Iteration

end MaiterStore.Scheduler
