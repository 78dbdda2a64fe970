/-
# How an iteration ends

`MaiterKernel2::map` goes over its shard again and again, until `get_iterator` of the state table
(`kernel/statetable.h`) finds the flag `terminated_` and returns no iterator. The flag is set by
`HandleTermNotification` (`worker/worker.cc`), for all shards of table 0 that the worker owns, and
the notifications are sent by `terminate_iteration` (`master/master.cc`), once, when a check in
`barrier` has been positive.

So no kernel returns before the master has decided. A worker runs one kernel at a time. While the
first one goes on, the other shards of the worker are not touched, and when they get their turn,
their flags are set: an iteration changes at most one shard of each worker. Nothing is stolen here:
a stolen shard would be read from the delta table of its new owner.
-/

import MaiterStore.Master.TaskScheduling

namespace MaiterStore.Scheduler

open CS.Run

/-- The run descriptor of `run_all`. -/
def runAll {n m : ℕ} (cfg : Config n m) (table : Fin m) : RunDescriptor m :=
  ⟨table, List.range (cfg.numShards table)⟩

/-- The master and its workers in a run of the second kernel. `notices` are the `MTYPE_TERMINATION`
messages that a worker has not handled, and `flags` its `terminated_`, shard by shard. A worker has
`opened` its shard when it has found the flag of its shard clear in the current call of
`get_iterator`. For the statements, `passes` records the iterators that were returned. -/
structure Iteration (n m : ℕ) where
  sched : Cluster n m
  terminated : Bool
  notices : Fin n → ℕ
  flags : Fin n → Taskid m → Bool
  opened : Fin n → Bool
  passes : List (Fin n × Taskid m)

namespace Iteration

variable {n m : ℕ}

/-- The beginning of an iteration, before the master has decided. -/
def start (sched : Cluster n m) : Iteration n m :=
  ⟨sched, false, fun _ => 0, fun _ _ => false, fun _ => false, []⟩

/-- `barrier` after a positive answer of `termcheck`: `terminate_iteration()`, and `terminated_` is
set. -/
def terminate (s : Iteration n m) : Iteration n m :=
  if s.sched.place = .head ∧ s.sched.finished < s.sched.shards.length ∧ s.terminated = false then
    { s with terminated := true, notices := fun w => s.notices w + 1 }
  else s

/-- `HandleTermNotification` of worker `w`. -/
def handleTermNotification (cfg : Config n m) (w : Fin n) (s : Iteration n m) : Iteration n m :=
  if s.notices w = 0 then s
  else { s with
    notices := Function.update s.notices w (s.notices w - 1)
    flags := Function.update s.flags w fun id => s.flags w id ||
      decide (id.table.val = 0 ∧ id.shard < cfg.numShards id.table ∧
        (s.sched.nodes w).owner id = some w) }

/-- `if(terminated_) return NULL;` in the call of `get_iterator` by worker `w`. Without an iterator,
`run_loop` is at its end. -/
def readFlag (w : Fin n) (s : Iteration n m) : Iteration n m :=
  match (s.sched.nodes w).running with
  | none => s
  | some id =>
    if s.flags w id then
      { s with sched := s.sched.kernelDone w, opened := Function.update s.opened w false }
    else { s with opened := Function.update s.opened w true }

/-- `get_iterator` returns an iterator to worker `w`, which goes over its shard. -/
def iterator (w : Fin n) (s : Iteration n m) : Iteration n m :=
  match (s.sched.nodes w).running with
  | none => s
  | some id =>
    if s.opened w then { s with
      opened := Function.update s.opened w false
      passes := s.passes ++ [(w, id)] }
    else s

/-- What can happen next. -/
inductive Event (n m : ℕ)
  | advance (size : Taskid m → ℤ)
  | reapOneTask (w : Fin n) (periodic : Bool)
  | checkReplyQueue (w : Fin n)
  | handleShardAssignment (w : Fin n)
  | runKernel (w : Fin n)
  | terminate
  | handleTermNotification (w : Fin n)
  | readFlag (w : Fin n)
  | iterator (w : Fin n)

section Step

variable (cfg : Config n m)

/-- One event. Stealing is not worth its while. -/
def step : Event n m → Iteration n m → Except (Abort m) (Iteration n m)
  | .advance size, s => (s.sched.advance cfg size false).map fun sched => { s with sched := sched }
  | .reapOneTask w periodic, s =>
    (s.sched.reapOneTask w periodic).map fun sched => { s with sched := sched }
  | .checkReplyQueue w, s => .ok { s with sched := s.sched.checkReplyQueue w }
  | .handleShardAssignment w, s => .ok { s with sched := s.sched.handleShardAssignment w }
  | .runKernel w, s => (s.sched.runKernel w).map fun sched => { s with sched := sched }
  | .terminate, s => .ok s.terminate
  | .handleTermNotification w, s => .ok (s.handleTermNotification cfg w)
  | .readFlag w, s => .ok (s.readFlag w)
  | .iterator w, s => .ok (s.iterator w)

/-- A run. -/
def run (events : List (Event n m)) (s : Iteration n m) : Except (Abort m) (Iteration n m) :=
  forEach (step cfg) events s

end Step

end Iteration

/-! ## Steps of the scheduler -/

/-- Tasks have been stolen in this round of `barrier`. -/
def Place.moving : Place → Bool
  | .stealing _ needUpdate => needUpdate
  | .sendTables caller | .waitTables caller => caller = .barrier
  | .idle | .assignTables _ | .assignTasks | .dispatch | .head | .redispatch => false

theorem Place.synced_of_not_moving {place : Place} (hmoving : place.moving = false)
    (hplace : place.quiet = false ∨ place = .idle) : place.synced = true := by
  cases place with
  | idle | assignTables _ | assignTasks | dispatch | head | redispatch => rfl
  | stealing next needUpdate =>
    obtain rfl : needUpdate = false := hmoving
    rfl
  | sendTables caller | waitTables caller =>
    cases caller <;> simp_all [Place.moving, Place.quiet]

/-- The tasks of a worker stay where they are. -/
theorem WorkerState.setFinished_work {m : ℕ} {id : Taskid m} {w w' : WorkerState m}
    (hok : w.setFinished id = .ok w') : ∀ task' ∈ w'.work, ∃ task ∈ w.work, task.id = task'.id := by
  rw [WorkerState.setFinished] at hok
  split at hok
  · cases hok
  · split_ifs at hok
    obtain rfl := Except.ok.inj hok
    intro task' htask'
    obtain ⟨task, htask, rfl⟩ := List.mem_map.mp htask'
    refine ⟨task, htask, ?_⟩
    split_ifs <;> rfl

namespace Cluster

variable {n m : ℕ} {cfg : Config n m} {s s' s'' : Cluster n m} {w : Fin n}

/-- No task is finished on the way, and the kernels are left alone. -/
structure Proceeds (s s' : Cluster n m) : Prop where
  tasks : ∀ w, ∀ task' ∈ (s'.workers w).work, ∃ task ∈ (s.workers w).work, task.id = task'.id ∧
    (task'.status = .finished → task.status = .finished)
  running : ∀ w, (s'.nodes w).running = (s.nodes w).running
  dones : ∀ w, (s'.nodes w).dones = (s.nodes w).dones
  finished : s'.finished = s.finished

theorem Proceeds.of_workers (hworkers : s'.workers = s.workers)
    (hrunning : ∀ w, (s'.nodes w).running = (s.nodes w).running)
    (hdones : ∀ w, (s'.nodes w).dones = (s.nodes w).dones) (hfinished : s'.finished = s.finished) :
    Proceeds s s' where
  tasks _ task' htask' := ⟨task', hworkers ▸ htask', rfl, id⟩
  running := hrunning
  dones := hdones
  finished := hfinished

theorem Proceeds.refl (s : Cluster n m) : Proceeds s s :=
  .of_workers rfl (fun _ => rfl) (fun _ => rfl) rfl

theorem Proceeds.trans (h : Proceeds s s') (h' : Proceeds s' s'') : Proceeds s s'' where
  tasks w task'' htask'' := by
    obtain ⟨task', htask', hid', hstatus'⟩ := h'.tasks w task'' htask''
    obtain ⟨task, htask, hid, hstatus⟩ := h.tasks w task' htask'
    exact ⟨task, htask, hid.trans hid', fun hfinished => hstatus (hstatus' hfinished)⟩
  running w := (h'.running w).trans (h.running w)
  dones w := (h'.dones w).trans (h.dones w)
  finished := h'.finished.trans h.finished

theorem proceeds_setNode {p : Node n m} (hrunning : p.running = (s.nodes w).running)
    (hdones : p.dones = (s.nodes w).dones) : Proceeds s (s.setNode w p) :=
  .of_workers rfl
    (forall_setNode (fun v p => p.running = (s.nodes v).running) (fun _ => rfl) hrunning)
    (forall_setNode (fun v p => p.dones = (s.nodes v).dones) (fun _ => rfl) hdones) rfl

theorem proceeds_dispatchTo (table : Fin m) (s : Cluster n m) (w : Fin n) :
    Proceeds s (dispatchTo table s w) := by
  rw [dispatchTo]
  split_ifs
  · split
    next => exact .refl s
    next id state hnext =>
      obtain ⟨best, -, hbest⟩ := Option.map_eq_some_iff.mp hnext
      obtain ⟨rfl, rfl⟩ := Prod.mk.inj hbest
      have hnode := proceeds_setNode (s := s) (w := w)
        (p := { s.nodes w with
          requests := (s.nodes w).requests ++ [⟨table, best.id.shard⟩] }) rfl rfl
      refine ⟨fun v task' htask' => ?_, hnode.running, hnode.dones, rfl⟩
      dsimp only at htask'
      by_cases hv : v = w
      · subst hv
        rw [Function.update_self] at htask'
        obtain ⟨task, htask, rfl⟩ := List.mem_map.mp htask'
        refine ⟨task, htask, ?_, ?_⟩
        · split_ifs <;> rfl
        · split_ifs
          · exact fun h => by cases h
          · exact id
      · rw [Function.update_of_ne hv] at htask'
        exact ⟨task', htask', rfl, id⟩
  · exact .refl s

theorem proceeds_dispatchWork (table : Fin m) (s : Cluster n m) :
    Proceeds s (dispatchWork table s) := by
  rw [dispatchWork]
  induction List.finRange n generalizing s with
  | nil => exact .refl s
  | cons w l ih => exact (proceeds_dispatchTo table s w).trans (ih _)

theorem dispatchWork_place (table : Fin m) (s : Cluster n m) :
    (dispatchWork table s).place = s.place := by
  rw [dispatchWork]
  induction List.finRange n generalizing s with
  | nil => rfl
  | cons w l ih => exact (ih _).trans (dispatchTo_logs table s w).1

/-- A step about assignments. -/
theorem checkReplyQueue_spec (w : Fin n) (s : Cluster n m) :
    Proceeds s (s.checkReplyQueue w) ∧ (s.checkReplyQueue w).place = s.place ∧
      (s.checkReplyQueue w).currentRun = s.currentRun := by
  rw [checkReplyQueue]
  split
  · split_ifs
    · exact ⟨.refl s, rfl, rfl⟩
    · have hnode : Proceeds s (s.setNode w { s.nodes w with acks := (s.nodes w).acks - 1 }) :=
        proceeds_setNode rfl rfl
      exact ⟨⟨hnode.tasks, hnode.running, hnode.dones, rfl⟩, rfl, rfl⟩
  · exact ⟨.refl s, rfl, rfl⟩

theorem handleShardAssignment_spec (w : Fin n) (s : Cluster n m) :
    Proceeds s (s.handleShardAssignment w) ∧ (s.handleShardAssignment w).place = s.place ∧
      (s.handleShardAssignment w).currentRun = s.currentRun := by
  rw [handleShardAssignment]
  split
  · exact ⟨.refl s, rfl, rfl⟩
  · exact ⟨proceeds_setNode rfl rfl, rfl, rfl⟩
  · exact ⟨proceeds_setNode rfl rfl, rfl, rfl⟩

/-- Nothing is stolen if it is not worth it. -/
theorem stealWork_false (cfg : Config n m) (dst : Fin n) (ws : Fin n → WorkerState m) :
    stealWork cfg false dst ws = .ok (ws, false) := by
  rw [stealWork]
  split_ifs
  · rfl
  · split
    · rfl
    · split
      · rfl
      · rw [if_pos (by simp)]

/-- While kernels are under way and nothing is stolen, the master finishes no task and sends no
tables. -/
theorem proceeds_advance {size : Taskid m → ℤ} {r : RunDescriptor m}
    (hquiet : s.place.quiet = false) (hrun : s.currentRun = some r)
    (hmoving : s.place.moving = false) (hok : s.advance cfg size false = .ok s') :
    s.Proceeds s' ∧ s'.place.moving = false := by
  have hdispatch : ∀ {s₁ : Cluster n m}, s₁.workers = s.workers → s₁.nodes = s.nodes →
      s₁.finished = s.finished → s.Proceeds (dispatchWork r.table s₁) := by
    intro s₁ hworkers hnodes hfinished
    have hfirst : s.Proceeds s₁ :=
      .of_workers hworkers (fun _ => by rw [hnodes]) (fun _ => by rw [hnodes]) hfinished
    exact hfirst.trans (proceeds_dispatchWork _ _)
  have hsame : ∀ place : Place, s.Proceeds { s with place := place } :=
    fun _ => .of_workers rfl (fun _ => rfl) (fun _ => rfl) rfl
  cases hplace : s.place with
  | idle | assignTables _ | assignTasks =>
    rw [hplace] at hquiet
    cases hquiet
  | sendTables caller | waitTables caller =>
    rw [hplace] at hquiet hmoving
    cases caller <;> simp_all [Place.moving, Place.quiet]
  | dispatch =>
    simp only [advance, hplace, hrun] at hok
    obtain rfl := Except.ok.inj hok
    exact ⟨hdispatch rfl rfl rfl, by rw [dispatchWork_place]; rfl⟩
  | head =>
    simp only [advance, hplace] at hok
    obtain rfl := Except.ok.inj hok
    split_ifs
    · exact ⟨.refl s, hmoving⟩
    · exact ⟨hsame _, rfl⟩
  | stealing next needUpdate =>
    rw [hplace] at hmoving
    obtain rfl : needUpdate = false := hmoving
    simp only [advance, hplace, stealWork_false, Bool.false_eq_true, if_false] at hok
    split_ifs at hok <;> obtain rfl := Except.ok.inj hok <;> exact ⟨hsame _, rfl⟩
  | redispatch =>
    simp only [advance, hplace, hrun] at hok
    obtain rfl := Except.ok.inj hok
    split_ifs
    · exact ⟨hdispatch rfl rfl rfl, by rw [dispatchWork_place]; rfl⟩
    · rw [← hrun]
      exact ⟨hsame _, rfl⟩

end Cluster

namespace Iteration

variable {n m : ℕ} {cfg : Config n m} {table : Fin m} {s s' : Iteration n m} {w : Fin n}

/-! ## The invariant -/

/-- The worker has not handled a notification. -/
def Unaware (s : Iteration n m) (w : Fin n) : Prop := s.terminated = false ∨ 0 < s.notices w

/-- What holds of a worker while the tasks of the iteration are there. -/
structure WorkerInv (s : Iteration n m) (w : Fin n) : Prop where
  flags : s.Unaware w → ∀ id, s.flags w id = false
  unfinished : s.Unaware w → ∀ task ∈ (s.sched.workers w).work, task.status ≠ .finished
  dones : s.Unaware w → (s.sched.nodes w).dones = []
  first : s.Unaware w → ∀ p ∈ s.passes, p.1 = w → (s.sched.nodes w).running = some p.2
  aware : ¬ s.Unaware w → ∀ task ∈ (s.sched.workers w).work, s.flags w task.id = true
  opened : s.opened w = true →
    ∃ id, (s.sched.nodes w).running = some id ∧ ∀ p ∈ s.passes, p.1 = w → p.2 = id
  single : ∀ p ∈ s.passes, ∀ q ∈ s.passes, p.1 = w → q.1 = w → p.2 = q.2

/-- What holds in every state of an iteration. -/
structure Inv (cfg : Config n m) (table : Fin m) (s : Iteration n m) : Prop where
  sched : Cluster.Inv cfg s.sched
  currentRun : s.sched.currentRun = some (runAll cfg table)
  unmoved : s.sched.place.moving = false
  notices : ∀ w, s.notices w ≤ if s.terminated then 1 else 0
  fresh : s.sched.place.quiet = true → s.sched.place ≠ .idle → s = start s.sched
  workers : s.sched.place.quiet = false ∨ s.sched.place = .idle → ∀ w, s.WorkerInv w

/-- The scheduler has gone on. -/
theorem WorkerInv.proceeds (hs : s.WorkerInv w) {sched : Cluster n m}
    (h : s.sched.Proceeds sched) : WorkerInv { s with sched := sched } w where
  flags := hs.flags
  unfinished hun task' htask' hfinished := by
    obtain ⟨task, htask, -, hstatus⟩ := h.tasks w task' htask'
    exact hs.unfinished hun task htask (hstatus hfinished)
  dones hun := (h.dones w).trans (hs.dones hun)
  first hun p hp hw := (h.running w).trans (hs.first hun p hp hw)
  aware hun task' htask' := by
    obtain ⟨task, htask, hid, -⟩ := h.tasks w task' htask'
    exact hid ▸ hs.aware hun task htask
  opened hopened := by
    obtain ⟨id, hrunning, hpasses⟩ := hs.opened hopened
    exact ⟨id, (h.running w).trans hrunning, hpasses⟩
  single := hs.single

/-- A step that does not concern the worker. -/
theorem WorkerInv.congr (hs : s.WorkerInv w) (hterminated : s'.terminated = s.terminated)
    (hnotices : s'.notices w = s.notices w) (hflags : s'.flags w = s.flags w)
    (hopened : s'.opened w = s.opened w) (hpasses : ∀ p, p.1 = w → (p ∈ s'.passes ↔ p ∈ s.passes))
    (hwork : (s'.sched.workers w).work = (s.sched.workers w).work)
    (hrunning : (s'.sched.nodes w).running = (s.sched.nodes w).running)
    (hdones : (s'.sched.nodes w).dones = (s.sched.nodes w).dones) : s'.WorkerInv w := by
  have hun : s'.Unaware w ↔ s.Unaware w := by rw [Unaware, Unaware, hterminated, hnotices]
  refine ⟨fun h => ?_, fun h => ?_, fun h => ?_, fun h p hp hpw => ?_, fun h => ?_, fun h => ?_,
    fun p hp q hq hpw hqw => ?_⟩
  · rw [hflags]
    exact hs.flags (hun.mp h)
  · rw [hwork]
    exact hs.unfinished (hun.mp h)
  · rw [hdones]
    exact hs.dones (hun.mp h)
  · rw [hrunning]
    exact hs.first (hun.mp h) p ((hpasses p hpw).mp hp) hpw
  · rw [hwork, hflags]
    exact hs.aware fun hold => h (hun.mpr hold)
  · rw [hopened] at h
    obtain ⟨id, hid, hall⟩ := hs.opened h
    exact ⟨id, hrunning.trans hid, fun p hp hpw => hall p ((hpasses p hpw).mp hp) hpw⟩
  · exact hs.single p ((hpasses p hpw).mp hp) q ((hpasses q hqw).mp hq) hpw hqw

/-- Before a worker has begun. -/
theorem workerInv_start {sched : Cluster n m}
    (htasks : ∀ task ∈ (sched.workers w).work, task.status ≠ .finished)
    (hdones : (sched.nodes w).dones = []) : (start sched).WorkerInv w where
  flags _ _ := rfl
  unfinished _ := htasks
  dones _ := hdones
  first _ _ hp := absurd hp List.not_mem_nil
  aware hun := absurd (.inl rfl) hun
  opened h := by cases h
  single _ hp := absurd hp List.not_mem_nil

/-- A kernel that runs is that of a task of the worker. -/
theorem Inv.mem_work (hs : Inv cfg table s) {id : Taskid m}
    (hrunning : (s.sched.nodes w).running = some id) :
    ∃ task ∈ (s.sched.workers w).work, task.status = .active ∧ task.id = id := by
  have hmem : id ∈ (s.sched.nodes w).inFlight := by
    rw [Node.inFlight, hrunning]
    simp
  exact mem_activeIds.mp (((hs.sched.nodes.inFlight w).mem_iff).mp hmem)

/-- While tasks are still to be made, no kernel runs. -/
theorem Inv.running_eq_none (hs : Inv cfg table s) (hquiet : s.sched.place.quiet = true)
    (w : Fin n) :
    (s.sched.nodes w).running = none := by
  by_contra hrunning
  obtain ⟨id, hid⟩ := Option.ne_none_iff_exists'.mp hrunning
  obtain ⟨task, htask, hactive, -⟩ := hs.mem_work hid
  exact hs.sched.master.quiet hquiet w task htask hactive

/-- A step of the scheduler in which the place of the master stays. -/
theorem Inv.goesOn (hs : Inv cfg table s) {sched : Cluster n m} (hsched : Cluster.Inv cfg sched)
    (hplace : sched.place = s.sched.place) (hrun : sched.currentRun = s.sched.currentRun)
    (h : s.sched.Proceeds sched) : Inv cfg table { s with sched := sched } where
  sched := hsched
  currentRun := hrun.trans hs.currentRun
  unmoved := hplace ▸ hs.unmoved
  notices := hs.notices
  fresh hquiet hidle := by
    have hstart := hs.fresh (hplace ▸ hquiet) (hplace ▸ hidle)
    rw [hstart]
    rfl
  workers hplace' w := (hs.workers (hplace ▸ hplace') w).proceeds h

/-! ## The steps -/

/-- Before the tasks are there, the assignments are those of `run`. -/
theorem Inv.caller_eq_run (hs : Inv cfg table s) {caller : Caller}
    (hplace : s.sched.place = .assignTables caller ∨ s.sched.place = .sendTables caller ∨
      s.sched.place = .waitTables caller) : caller = .run := by
  have hunmoved := hs.unmoved
  have hrestoring := hs.sched.master.restoring
  have hcaller := hs.sched.master.caller
  rw [hs.currentRun] at hrestoring
  rcases hplace with hplace | hplace | hplace <;> rw [hplace] at hunmoved hrestoring hcaller <;>
    cases caller <;> simp_all [Place.moving, Place.restoring]

/-- The master goes on before the tasks are there. -/
theorem Inv.prepares (hs : Inv cfg table s) (hquiet : s.sched.place.quiet = true)
    (hidle : s.sched.place ≠ .idle) {sched : Cluster n m} (hsched : Cluster.Inv cfg sched)
    (hrun : sched.currentRun = s.sched.currentRun) (hunmoved : sched.place.moving = false)
    (hworkers : sched.place.quiet = false ∨ sched.place = .idle →
      ∀ w, (start sched).WorkerInv w) : Inv cfg table { s with sched := sched } := by
  have hstart : ({ s with sched := sched } : Iteration n m) = start sched := by
    rw [hs.fresh hquiet hidle]
    rfl
  refine ⟨hsched, hrun.trans hs.currentRun, hunmoved, hs.notices, fun _ _ => hstart, ?_⟩
  rw [hstart]
  exact hworkers

/-- The master goes on with the assignments of `run`. -/
theorem Inv.advance_assigning (hs : Inv cfg table s) {size : Taskid m → ℤ} {sched : Cluster n m}
    {caller : Caller} (hplace : s.sched.place = .assignTables caller ∨
      s.sched.place = .sendTables caller ∨ s.sched.place = .waitTables caller)
    (hok : s.sched.advance cfg size false = .ok sched) (hsched : Cluster.Inv cfg sched) :
    Inv cfg table { s with sched := sched } := by
  obtain rfl := hs.caller_eq_run hplace
  have hbefore : s.sched.place.quiet = true ∧ s.sched.place ≠ .idle := by
    rcases hplace with hplace | hplace | hplace <;> simp [hplace, Place.quiet]
  rcases hplace with hplace | hplace | hplace
  · simp only [Cluster.advance, hplace] at hok
    obtain ⟨ws, -, rfl⟩ := map_eq_ok.mp hok
    exact hs.prepares hbefore.1 hbefore.2 hsched rfl rfl
      (fun h => by rcases h with h | h <;> cases h)
  · simp only [Cluster.advance, hplace] at hok
    obtain rfl := Except.ok.inj hok
    exact hs.prepares hbefore.1 hbefore.2 hsched rfl rfl
      (fun h => by rcases h with h | h <;> cases h)
  · simp only [Cluster.advance, hplace] at hok
    obtain rfl := Except.ok.inj hok
    split_ifs at hsched ⊢
    · exact hs.prepares hbefore.1 hbefore.2 hsched rfl rfl
        (fun h => by rcases h with h | h <;> cases h)
    · exact hs

/-- The tasks are made, and all of them are pending. -/
theorem Inv.advance_assignTasks (hs : Inv cfg table s) {size : Taskid m → ℤ} {sched : Cluster n m}
    (hplace : s.sched.place = .assignTasks) (hok : s.sched.advance cfg size false = .ok sched)
    (hsched : Cluster.Inv cfg sched) : Inv cfg table { s with sched := sched } := by
  simp only [Cluster.advance, hplace, hs.currentRun] at hok
  obtain ⟨ws, -, rfl⟩ := map_eq_ok.mp hok
  refine hs.prepares (by rw [hplace]; rfl) (by simp [hplace]) hsched hs.currentRun.symm rfl
    fun _ w => ?_
  have hpending := hsched.tasksOnce.first rfl w
  refine workerInv_start (fun task htask => by simp [hpending task htask]) ?_
  -- a message that is under way is about an active task
  have hactive : activeIds (ws w).work = [] := by
    refine List.map_eq_nil_iff.mpr (List.filter_eq_nil_iff.mpr fun task htask => ?_)
    simp [hpending task htask]
  have hperm := hsched.nodes.inFlight w
  rw [hactive] at hperm
  exact (List.append_eq_nil_iff.mp hperm.eq_nil).2

/-- The master goes on while kernels are under way. -/
theorem Inv.advance_busy (hs : Inv cfg table s) {size : Taskid m → ℤ} {sched : Cluster n m}
    (hquiet : s.sched.place.quiet = false) (hok : s.sched.advance cfg size false = .ok sched)
    (hsched : Cluster.Inv cfg sched) : Inv cfg table { s with sched := sched } := by
  obtain ⟨hproceeds, hunmoved⟩ := Cluster.proceeds_advance hquiet hs.currentRun hs.unmoved hok
  have hcontinues := Cluster.continues_advance hquiet hok
  refine ⟨hsched, hcontinues.currentRun.trans hs.currentRun, hunmoved, hs.notices,
    fun h h' => ?_, fun _ w => (hs.workers (.inl hquiet) w).proceeds hproceeds⟩
  rcases hcontinues.place with hquiet' | hidle'
  · exact absurd h (Bool.eq_false_iff.mp hquiet')
  · exact absurd hidle' h'

theorem Inv.advance_ok (hs : Inv cfg table s) {size : Taskid m → ℤ} {sched : Cluster n m}
    (hok : s.sched.advance cfg size false = .ok sched) (hsched : Cluster.Inv cfg sched) :
    Inv cfg table { s with sched := sched } := by
  cases hplace : s.sched.place with
  | idle =>
    simp only [Cluster.advance, hplace] at hok
    obtain rfl := Except.ok.inj hok
    exact hs
  | assignTables caller => exact hs.advance_assigning (.inl hplace) hok hsched
  | sendTables caller => exact hs.advance_assigning (.inr (.inl hplace)) hok hsched
  | waitTables caller => exact hs.advance_assigning (.inr (.inr hplace)) hok hsched
  | assignTasks => exact hs.advance_assignTasks hplace hok hsched
  | dispatch | head | stealing _ _ | redispatch =>
    exact hs.advance_busy (by rw [hplace]; rfl) hok hsched

/-- The step keeps the tasks and concerns one worker only. -/
theorem Inv.at_worker (hs : Inv cfg table s) {w : Fin n} (hsched : Cluster.Inv cfg s'.sched)
    (hrun : s'.sched.currentRun = s.sched.currentRun) (hplace : s'.sched.place = s.sched.place)
    (hnotices : ∀ v, s'.notices v ≤ if s'.terminated then 1 else 0)
    (hterminated : s'.terminated = s.terminated)
    (hfresh : s.sched.place.quiet = true → s = start s.sched → s' = start s'.sched)
    (hw : s.WorkerInv w → s'.WorkerInv w)
    (hother : ∀ v, v ≠ w → s'.notices v = s.notices v ∧ s'.flags v = s.flags v ∧
      s'.opened v = s.opened v ∧ (∀ p, p.1 = v → (p ∈ s'.passes ↔ p ∈ s.passes)) ∧
      s'.sched.workers v = s.sched.workers v ∧ s'.sched.nodes v = s.sched.nodes v) :
    Inv cfg table s' where
  sched := hsched
  currentRun := hrun.trans hs.currentRun
  unmoved := hplace ▸ hs.unmoved
  notices := hnotices
  fresh hquiet hidle := by
    rw [hplace] at hquiet hidle
    exact hfresh hquiet (hs.fresh hquiet hidle)
  workers hplace' v := by
    rw [hplace] at hplace'
    by_cases hv : v = w
    · subst hv
      exact hw (hs.workers hplace' v)
    · obtain ⟨hnotices, hflags, hopened, hpasses, hworker, hnode⟩ := hother v hv
      exact (hs.workers hplace' v).congr hterminated hnotices hflags hopened hpasses
        (by rw [hworker])
        (by rw [hnode]) (by rw [hnode])

/-- A kernel begins. -/
theorem Inv.runKernel_ok (hs : Inv cfg table s) {sched : Cluster n m}
    (hok : s.sched.runKernel w = .ok sched) (hsched : Cluster.Inv cfg sched) :
    Inv cfg table { s with sched := sched } := by
  rw [Cluster.runKernel] at hok
  split at hok
  next id rest hrunning hrequests =>
    split_ifs at hok
    obtain rfl := Except.ok.inj hok
    refine hs.at_worker (w := w) hsched rfl rfl hs.notices rfl (fun _ hstart => ?_) (fun hw => ?_)
      fun v hv => ⟨rfl, rfl, rfl, fun _ _ => .rfl, rfl, Function.update_of_ne hv ..⟩
    · rw [hstart]
      rfl
    · have hnode : ∀ q : Node n m, (s.sched.setNode w q).nodes w = q := fun q =>
        Function.update_self ..
      refine ⟨hw.flags, hw.unfinished, fun h => ?_, fun h p hp hpw => ?_, hw.aware, fun h => ?_,
        hw.single⟩
      · rw [hnode]
        exact hw.dones h
      · cases hrunning.symm.trans (hw.first h p hp hpw)
      · obtain ⟨id', hid', -⟩ := hw.opened h
        cases hrunning.symm.trans hid'
  next =>
    obtain rfl := Except.ok.inj hok
    exact hs

theorem Inv.readFlag (hs : Inv cfg table s) (w : Fin n) : Inv cfg table (s.readFlag w) := by
  rw [Iteration.readFlag]
  split
  next => exact hs
  next id hrunning =>
    have hbusy : s.sched.place.quiet = true → False := fun hquiet => by
      cases hrunning.symm.trans (hs.running_eq_none hquiet w)
    split_ifs with hflag
    -- the worker has handled the notification
    · have hdone : s.sched.kernelDone w = s.sched.setNode w { s.sched.nodes w with
          running := none, dones := (s.sched.nodes w).dones ++ [id] } := by
        rw [Cluster.kernelDone, hrunning]
      refine hs.at_worker (w := w) (Cluster.step_kernelDone hs.sched w) ?_ ?_ hs.notices rfl
        (fun hquiet _ => (hbusy hquiet).elim) (fun hw => ?_)
        fun v hv => ⟨rfl, rfl, Function.update_of_ne hv .., fun _ _ => .rfl, ?_, ?_⟩
      · rw [hdone]
        rfl
      · rw [hdone]
        rfl
      · have hun : ¬ s.Unaware w := fun hun => by
          rw [hw.flags hun] at hflag
          cases hflag
        refine ⟨fun h => absurd h hun, fun h => absurd h hun, fun h => absurd h hun,
          fun h => absurd h hun, fun h => ?_, fun h => ?_, hw.single⟩
        · rw [hdone]
          exact hw.aware h
        · simp at h
      · rw [hdone]
        rfl
      · rw [hdone]
        exact Function.update_of_ne hv ..
    · refine hs.at_worker (w := w) hs.sched rfl rfl hs.notices rfl
        (fun hquiet _ => (hbusy hquiet).elim) (fun hw => ?_)
        fun v hv => ⟨rfl, rfl, Function.update_of_ne hv .., fun _ _ => .rfl, rfl, rfl⟩
      refine ⟨hw.flags, hw.unfinished, hw.dones, hw.first, hw.aware, fun _ => ⟨id, hrunning, ?_⟩,
        hw.single⟩
      -- the flag of its shard would be set if the worker had handled the notification
      have hun : s.Unaware w := by
        by_contra hun
        obtain ⟨task, htask, -, rfl⟩ := hs.mem_work hrunning
        exact hflag (hw.aware hun task htask)
      intro p hp hpw
      exact Option.some.inj ((hw.first hun p hp hpw).symm.trans hrunning)

theorem Inv.iterator (hs : Inv cfg table s) (w : Fin n) : Inv cfg table (s.iterator w) := by
  rw [Iteration.iterator]
  split
  next => exact hs
  next id hrunning =>
    have hbusy : s.sched.place.quiet = true → False := fun hquiet => by
      cases hrunning.symm.trans (hs.running_eq_none hquiet w)
    split_ifs with hopened
    · refine hs.at_worker (w := w) hs.sched rfl rfl hs.notices rfl
        (fun hquiet _ => (hbusy hquiet).elim) (fun hw => ?_)
        fun v hv => ⟨rfl, rfl, Function.update_of_ne hv .., fun p hp => ?_, rfl, rfl⟩
      · obtain ⟨id', hid', hall⟩ := hw.opened hopened
        obtain rfl : id' = id := Option.some.inj (hid'.symm.trans hrunning)
        have hpass : ∀ p ∈ s.passes ++ [(w, id')], p.1 = w → p.2 = id' := by
          intro p hp hpw
          rcases List.mem_append.mp hp with hp | hp
          · exact hall p hp hpw
          · rw [List.mem_singleton.mp hp]
        refine ⟨hw.flags, hw.unfinished, hw.dones, fun _ p hp hpw => ?_, hw.aware, fun h => ?_,
          fun p hp q hq hpw hqw => ?_⟩
        · rw [hpass p hp hpw]
          exact hrunning
        · simp at h
        · exact (hpass p hp hpw).trans (hpass q hq hqw).symm
      · rw [List.mem_append, List.mem_singleton, or_iff_left]
        rintro rfl
        exact hv hp.symm
    · exact hs

/-- The master decides. No worker has handled a notification before or after. -/
theorem Inv.terminate (hs : Inv cfg table s) : Inv cfg table s.terminate := by
  rw [Iteration.terminate]
  split_ifs with hcond
  · obtain ⟨hplace, -, hfalse⟩ := hcond
    refine ⟨hs.sched, hs.currentRun, hs.unmoved, fun w => ?_, fun hquiet => ?_, fun hplace' w => ?_⟩
    · have hnone := hs.notices w
      rw [hfalse] at hnone
      exact Nat.succ_le_succ hnone
    · rw [show Place.quiet s.sched.place = false by rw [hplace]; rfl] at hquiet
      cases hquiet
    · have hw := hs.workers hplace' w
      have hun : s.Unaware w := .inl hfalse
      refine ⟨fun _ => hw.flags hun, fun _ => hw.unfinished hun, fun _ => hw.dones hun,
        fun _ => hw.first hun, fun h => ?_, hw.opened, hw.single⟩
      exact absurd (.inr (Nat.succ_pos _)) h
  · exact hs

theorem Inv.handleTermNotification (hs : Inv cfg table s) (htable : table.val = 0) (w : Fin n) :
    Inv cfg table (s.handleTermNotification cfg w) := by
  rw [Iteration.handleTermNotification]
  split_ifs with hzero
  · exact hs
  · have hle := hs.notices w
    have htrue : s.terminated = true := by
      by_contra hfalse
      rw [if_neg hfalse] at hle
      exact hzero (Nat.le_zero.mp hle)
    rw [if_pos htrue] at hle
    -- a notification is only under way once the end has been announced
    have hbusy : s.sched.place.quiet = true → s ≠ start s.sched := fun _ hstart => by
      rw [hstart] at htrue
      cases htrue
    refine hs.at_worker (w := w) hs.sched rfl rfl (fun v => ?_) rfl
      (fun hquiet hstart => (hbusy hquiet hstart).elim) (fun hw => ?_)
      fun v hv => ⟨Function.update_of_ne hv .., Function.update_of_ne hv .., rfl, fun _ _ => .rfl,
        rfl, rfl⟩
    · dsimp only
      rw [if_pos htrue]
      by_cases hv : v = w
      · subst hv
        rw [Function.update_self]
        omega
      · rw [Function.update_of_ne hv]
        exact (hs.notices v).trans (by rw [if_pos htrue])
    · -- the worker has the message behind it, and the flags of all its tasks are set
      have hzero' : Function.update s.notices w (s.notices w - 1) w = 0 := by
        rw [Function.update_self]
        omega
      -- so the kernels have been dispatched, and the worker knows who owns which shard
      have hplace : s.sched.place.quiet = false ∨ s.sched.place = .idle := by
        by_contra hnone
        obtain ⟨hquiet, hidle⟩ := not_or.mp hnone
        rw [Bool.not_eq_false] at hquiet
        exact hbusy hquiet (hs.fresh hquiet hidle)
      have hun : ¬ Unaware { s with
          notices := Function.update s.notices w (s.notices w - 1)
          flags := Function.update s.flags w fun id => s.flags w id ||
            decide (id.table.val = 0 ∧ id.shard < cfg.numShards id.table ∧
              (s.sched.nodes w).owner id = some w) } w := by
        rintro (hfalse | hpos)
        · cases htrue.symm.trans hfalse
        · exact hpos.ne' hzero'
      refine ⟨fun h => absurd h hun, fun h => absurd h hun, fun h => absurd h hun,
        fun h => absurd h hun, fun _ task htask => ?_, hw.opened, hw.single⟩
      dsimp only
      rw [Function.update_self, Bool.or_eq_true, decide_eq_true_iff]
      have hsched := hs.sched.scheduled_next hs.currentRun hplace
      have hshard := hs.sched.master.owned.held htask
      have htask' : task.id.table = table := ((hsched.tasks task.id).mp ⟨w, task, htask, rfl⟩).1
      refine .inr ⟨by rw [htask', htable], hs.sched.master.owned.valid hshard, ?_⟩
      exact hs.sched.nodes.synced (Place.synced_of_not_moving hs.unmoved hplace) w w task.id hshard

/-- The master reads that a kernel is done. Its worker has handled the notification. -/
theorem Inv.reapOneTask_ok (hs : Inv cfg table s) {periodic : Bool} {sched : Cluster n m}
    (hok : s.sched.reapOneTask w periodic = .ok sched) (hsched : Cluster.Inv cfg sched) :
    Inv cfg table { s with sched := sched } := by
  rw [Cluster.reapOneTask] at hok
  by_cases hcond : s.sched.place = .head ∧ s.sched.finished < s.sched.shards.length
  · rw [if_pos hcond] at hok
    have hquiet : s.sched.place.quiet = false := by
      rw [hcond.1]
      rfl
    split at hok
    next =>
      obtain rfl := Except.ok.inj hok
      exact hs
    next id rest hdones =>
      obtain ⟨state, hstate, rfl⟩ := map_eq_ok.mp hok
      have hwork := WorkerState.setFinished_work hstate
      have hplace : ∀ periodic : Bool,
          (if periodic then Place.stealing 0 false else .redispatch).moving = false ∧
            (if periodic then Place.stealing 0 false else .redispatch).quiet = false := by
        decide
      refine ⟨hsched, hs.currentRun, (hplace periodic).1, hs.notices, fun h => ?_, fun _ v => ?_⟩
      · cases h.symm.trans (hplace periodic).2
      · have hv := hs.workers (.inl hquiet) v
        by_cases hvw : v = w
        · subst hvw
          -- only a worker that has handled the notification reports that a kernel is done
          have hun : ¬ s.Unaware v := fun h => by
            cases hdones.symm.trans (hv.dones h)
          refine ⟨fun h => absurd h hun, fun h => absurd h hun, fun h => absurd h hun,
            fun h => absurd h hun, fun h task htask => ?_, fun h => ?_, hv.single⟩
          · dsimp only at htask
            rw [Function.update_self] at htask
            obtain ⟨old, hold, hid⟩ := hwork task htask
            exact hid ▸ hv.aware h old hold
          · obtain ⟨id', hid', hall⟩ := hv.opened h
            refine ⟨id', ?_, hall⟩
            dsimp only [Cluster.setNode]
            rw [Function.update_self]
            exact hid'
        · refine hv.congr rfl rfl rfl rfl (fun _ _ => .rfl) ?_ ?_ ?_
          · exact congrArg WorkerState.work (Function.update_of_ne hvw ..)
          · exact congrArg Node.running (Function.update_of_ne hvw ..)
          · exact congrArg Node.dones (Function.update_of_ne hvw ..)
  · rw [if_neg hcond] at hok
    obtain rfl := Except.ok.inj hok
    exact hs

theorem Inv.step (hs : Inv cfg table s) (htable : table.val = 0) (e : Event n m) :
    EndsIn (Refused cfg) (Inv cfg table) (step cfg e s) := by
  cases e with
  | advance size =>
    refine EndsIn.map ((Cluster.step_advance hs.sched size false).imp_of_eq_ok
      fun sched hok hsched => hs.advance_ok hok hsched) fun _ h => h
  | reapOneTask w periodic =>
    refine EndsIn.map ((Cluster.step_reapOneTask hs.sched w periodic).imp_of_eq_ok
      fun sched hok hsched => hs.reapOneTask_ok hok hsched) fun _ h => h
  | checkReplyQueue w =>
    obtain ⟨hproceeds, hplace, hrun⟩ := Cluster.checkReplyQueue_spec w s.sched
    exact hs.goesOn (Cluster.step_checkReplyQueue hs.sched w) hplace hrun hproceeds
  | handleShardAssignment w =>
    obtain ⟨hproceeds, hplace, hrun⟩ := Cluster.handleShardAssignment_spec w s.sched
    exact hs.goesOn (Cluster.step_handleShardAssignment hs.sched w) hplace hrun hproceeds
  | runKernel w =>
    refine EndsIn.map ((Cluster.step_runKernel hs.sched w).imp_of_eq_ok
      fun sched hok hsched => hs.runKernel_ok hok hsched) fun _ h => h
  | terminate => exact hs.terminate
  | handleTermNotification w => exact hs.handleTermNotification htable w
  | readFlag w => exact hs.readFlag w
  | iterator w => exact hs.iterator w

theorem run_inv (htable : table.val = 0) (hs : Inv cfg table s) (events : List (Event n m)) :
    EndsIn (Refused cfg) (Inv cfg table) (run cfg events s) :=
  endsIn_forEach (I := fun _ => Inv cfg table) events
    (fun _ e _ _ _ hs => Inv.step hs htable e) hs

/-- An iteration begins when the run before it has ended. -/
theorem inv_start {sched₀ sched : Cluster n m} (hsched : Cluster.Inv cfg sched₀)
    (hidle : sched₀.place = .idle) (hstart : sched₀.startRun (runAll cfg table) = .ok sched) :
    Inv cfg table (start sched) := by
  have hsched' : Cluster.Inv cfg sched := by
    have hend := Cluster.step_startRun hsched (runAll cfg table)
    rwa [hstart] at hend
  rw [Cluster.startRun, if_pos hidle] at hstart
  split_ifs at hstart with hfinished hassigned
  all_goals
    obtain rfl := Except.ok.inj hstart
    exact ⟨hsched', rfl, rfl, fun _ => Nat.zero_le _, fun _ _ => rfl,
      fun h => by rcases h with h | h <;> cases h⟩

/-! ## Before the decision -/

theorem Inv.waits (hs : Inv cfg table s) (hterminated : s.terminated = false) :
    s.sched.finished = 0 ∧ ∀ w, (s.sched.nodes w).dones = [] := by
  by_cases hplace : s.sched.place.quiet = false ∨ s.sched.place = .idle
  · have hworkers := hs.workers hplace
    refine ⟨?_, fun w => (hworkers w).dones (.inl hterminated)⟩
    rw [(hs.sched.scheduled_next hs.currentRun hplace).finished]
    refine Finset.sum_eq_zero fun w _ => List.countP_eq_zero.mpr fun task htask => ?_
    rw [decide_eq_true_iff]
    exact (hworkers w).unfinished (.inl hterminated) task htask
  -- the tasks are still to be made
  · obtain ⟨hquiet, hidle⟩ := not_or.mp hplace
    rw [Bool.not_eq_false] at hquiet
    have hpreparing : s.sched.place.preparing = true := by
      cases hplace : s.sched.place with
      | idle => exact absurd hplace hidle
      | assignTables caller =>
        rw [hs.caller_eq_run (.inl hplace)]
        rfl
      | sendTables caller =>
        rw [hs.caller_eq_run (.inr (.inl hplace))]
        rfl
      | waitTables caller =>
        rw [hs.caller_eq_run (.inr (.inr hplace))]
        rfl
      | assignTasks => rfl
      | dispatch | head | stealing _ _ | redispatch => rw [hplace] at hquiet; cases hquiet
    refine ⟨(hs.sched.master.preparing hpreparing).2.2.1, fun w => ?_⟩
    have hnone := hs.sched.nodes.inFlight_eq_nil (hs.sched.master.quiet hquiet) w
    exact (List.append_eq_nil_iff.mp hnone).2

theorem Inv.pass_unique (hs : Inv cfg table s) {p q : Fin n × Taskid m} (hp : p ∈ s.passes)
    (hq : q ∈ s.passes) (hpq : p.1 = q.1) : p.2 = q.2 := by
  by_cases hplace : s.sched.place.quiet = false ∨ s.sched.place = .idle
  · exact (hs.workers hplace q.1).single p hp q hq hpq rfl
  · obtain ⟨hquiet, hidle⟩ := not_or.mp hplace
    rw [hs.fresh (Bool.not_eq_false _ ▸ hquiet) hidle] at hp
    cases hp

/-- There are at most as many shards that are passed over as workers. -/
theorem Inv.card_passes_le (hs : Inv cfg table s) : (s.passes.map Prod.snd).toFinset.card ≤ n := by
  have hshards : (s.passes.map Prod.snd).toFinset = s.passes.toFinset.image Prod.snd := by
    ext id
    simp
  have hworkers : s.passes.toFinset.card ≤ (Finset.univ : Finset (Fin n)).card := by
    refine Finset.card_le_card_of_injOn Prod.fst (fun _ _ => Finset.mem_univ _) ?_
    intro p hp q hq hpq
    exact Prod.ext hpq (hs.pass_unique (List.mem_toFinset.mp hp) (List.mem_toFinset.mp hq) hpq)
  rw [hshards]
  exact Finset.card_image_le.trans (hworkers.trans (Finset.card_fin n).le)

/-- **An iteration waits for the master, and changes one shard of each worker.** In every state of
every iteration over table 0 in which no shard is stolen: as long as the master has not decided, no
kernel has returned; and whatever happens, all iterators that a worker gets are for the same shard,
so no more shards are passed over than there are workers. -/
theorem iteration_passes_one_shard (cfg : Config n m) (acts : List (Cluster.Action n m))
    {sched₀ sched : Cluster n m} (hbefore : Cluster.run cfg acts = .ok sched₀)
    (hidle : sched₀.place = .idle) (htable : table.val = 0)
    (hstart : sched₀.startRun (runAll cfg table) = .ok sched) (events : List (Event n m)) :
    EndsIn (Refused cfg) (fun s =>
        (s.terminated = false → s.sched.finished = 0 ∧ ∀ w, (s.sched.nodes w).dones = []) ∧
        (∀ p ∈ s.passes, ∀ q ∈ s.passes, p.1 = q.1 → p.2 = q.2) ∧
        (s.passes.map Prod.snd).toFinset.card ≤ n)
      (run cfg events (start sched)) := by
  have hsched₀ : Cluster.Inv cfg sched₀ := by
    have hend := Cluster.run_inv cfg acts
    rwa [hbefore] at hend
  refine (run_inv htable (inv_start hsched₀ hidle hstart) events).imp fun s hs => ?_
  exact ⟨hs.waits, fun p hp q hq hpq => hs.pass_unique hp hq hpq, hs.card_passes_le⟩

theorem iteration_passes_one_shard_of_two :
    let cfg : Config 1 1 := ⟨fun _ => 2, fun _ => true⟩
    ∃ sched : Cluster 1 1, Cluster.init.startRun (runAll cfg 0) = .ok sched ∧
      ∀ events : List (Event 1 1), EndsIn (Refused cfg) (fun s =>
          (s.terminated = false → s.sched.finished = 0 ∧ ∀ w, (s.sched.nodes w).dones = []) ∧
          (∀ p ∈ s.passes, ∀ q ∈ s.passes, p.1 = q.1 → p.2 = q.2) ∧
          (s.passes.map Prod.snd).toFinset.card ≤ 1)
        (run cfg events (start sched)) := by
  intro cfg
  exact ⟨_, rfl, iteration_passes_one_shard cfg [] rfl rfl rfl rfl⟩

/-- A run with the one worker `w`, which has two shards, up to the decision of the master. -/
def oneWorker (w : Fin n) : List (Event n m) :=
  let go : Event n m := .advance fun _ => 0
  [go, go] ++ List.replicate 3 (.handleShardAssignment w) ++ [.checkReplyQueue w, go, go, go,
    .runKernel w, .readFlag w, .iterator w, .readFlag w, .terminate]

/-- The worker passes over its first shard until it is told, and over the second one never. -/
example :
    let cfg : Config 1 1 := ⟨fun _ => 2, fun _ => true⟩
    ((Cluster.init.startRun (runAll cfg 0)).bind fun sched =>
      (run cfg (oneWorker 0 ++ [.iterator 0, .handleTermNotification 0, .readFlag 0,
        .reapOneTask 0 false, .advance fun _ => 0, .runKernel 0, .readFlag 0, .reapOneTask 0 false,
        .advance fun _ => 0, .advance fun _ => 0]) (start sched)).map fun s =>
          (s.passes, s.sched.finished, s.sched.place)) =
    .ok ([(0, ⟨0, 0⟩), (0, ⟨0, 0⟩)], 2, .idle) := rfl

end Iteration

end MaiterStore.Scheduler
