/-
# Runs of the scheduler

What holds in every state of the master and its workers, whatever the order in which kernels
finish, tasks are stolen and messages are read. A worker has at most one active task, and just
then a request, a running kernel or a reply of it is under way. The counters of the master are
the numbers of tasks that have been dispatched and finished, so the loop of `barrier` ends when
all tasks are finished. Owners only change for pending tasks, and every worker knows them
before the next request is sent.
-/

import Mathlib.Algebra.BigOperators.Group.Finset.Basic
import MaiterStore.CS.DeltaIteration
import MaiterStore.Master.Ownership

namespace MaiterStore.Scheduler

open CS.Run CS.DeltaIteration

/-! ## Counting tasks -/

section Counting

variable {m : ℕ}

/-- The keys of the active tasks. -/
def activeIds (work : List (TaskState m)) : List (Taskid m) :=
  (work.filter fun t => t.status = .active).map TaskState.id

theorem length_activeIds (w : WorkerState m) : (activeIds w.work).length = w.numActive := by
  rw [activeIds, List.length_map, WorkerState.numActive, List.countP_eq_length_filter]

theorem activeIds_perm {l l' : List (TaskState m)} (h : l.Perm l') :
    (activeIds l).Perm (activeIds l') :=
  (h.filter _).map _

theorem activeIds_cons (t : TaskState m) (l : List (TaskState m)) :
    activeIds (t :: l) = if t.status = .active then t.id :: activeIds l else activeIds l := by
  rw [activeIds, List.filter_cons]
  split_ifs with h h' h'
  · rfl
  · exact absurd (of_decide_eq_true h) h'
  · exact absurd (decide_eq_true h') h
  · rfl

theorem mem_activeIds {l : List (TaskState m)} {id : Taskid m} :
    id ∈ activeIds l ↔ ∃ t ∈ l, t.status = .active ∧ t.id = id := by
  simp only [activeIds, List.mem_map, List.mem_filter, decide_eq_true_iff, and_assoc]

/-- The tasks of a worker by their status. -/
theorem length_work (w : WorkerState m) :
    w.work.length = w.numPending + w.numActive + w.numFinished := by
  simp only [WorkerState.numPending, WorkerState.numActive, WorkerState.numFinished]
  induction w.work with
  | nil => rfl
  | cons t l ih =>
    simp only [List.length_cons, List.countP_cons, ih]
    cases t.status <;> simp <;> omega

variable {w w' : WorkerState m} {t t' : TaskState m} {rest : List (TaskState m)}

/-- A task has been replaced by one with another status. -/
theorem counts_of_perm (hw : w.work.Perm (t :: rest)) (hw' : w'.work.Perm (t' :: rest)) :
    w'.numActive + (if t.status = .active then 1 else 0) =
        w.numActive + (if t'.status = .active then 1 else 0) ∧
      w'.numFinished + (if t.status = .finished then 1 else 0) =
        w.numFinished + (if t'.status = .finished then 1 else 0) := by
  simp only [WorkerState.numActive, WorkerState.numFinished, hw.countP_eq, hw'.countP_eq,
    List.countP_cons, decide_eq_true_iff]
  omega

end Counting

/-! ## The invariant -/

/-- No kernel is under way. -/
def Place.quiet : Place → Bool
  | .idle | .assignTables _ | .assignTasks => true
  | .sendTables caller | .waitTables caller => caller ≠ .barrier
  | .dispatch | .head | .stealing _ _ | .redispatch => false

/-- A run has begun, and its tasks are not there yet. -/
def Place.preparing : Place → Bool
  | .assignTables caller | .sendTables caller | .waitTables caller => caller = .run
  | .assignTasks => true
  | .idle | .dispatch | .head | .stealing _ _ | .redispatch => false

def Place.restoring : Place → Bool
  | .assignTables caller | .sendTables caller | .waitTables caller => caller = .restore
  | .idle | .assignTasks | .dispatch | .head | .stealing _ _ | .redispatch => false

/-- The workers know the owners. -/
def Place.synced : Place → Bool
  | .stealing _ needUpdate => !needUpdate
  | .sendTables _ | .waitTables _ => false
  | .idle | .assignTables _ | .assignTasks | .dispatch | .head | .redispatch => true

def Place.waiting : Place → Bool
  | .waitTables _ => true
  | .idle | .assignTables _ | .sendTables _ | .assignTasks | .dispatch | .head | .stealing _ _
  | .redispatch => false

theorem Place.of_quiet_eq_false {place : Place} (hquiet : place.quiet = false) : place ≠ .idle ∧
    (∀ caller, place ≠ .assignTables caller) ∧ place.preparing = false ∧
      place.restoring = false := by
  cases place with
  | idle | assignTables _ | assignTasks => cases hquiet
  | sendTables caller | waitTables caller =>
    obtain rfl : caller = .barrier := by simpa [Place.quiet] using hquiet
    exact ⟨nofun, nofun, rfl, rfl⟩
  | dispatch | head | stealing _ _ | redispatch => exact ⟨nofun, nofun, rfl, rfl⟩

theorem Place.synced_of_waiting {place : Place} (hwaiting : place.waiting = true) :
    place.synced = false := by
  cases place with
  | waitTables _ => rfl
  | idle | assignTables _ | sendTables _ | assignTasks | dispatch | head | stealing _ _
  | redispatch =>
    cases hwaiting

/-- What one step does to the state of a task. -/
inductive Status.Next : Status → Status → Prop
  | stay (status : Status) : Next status status
  | dispatch : Next .pending .active
  | finish : Next .active .finished

namespace Node

variable {n m : ℕ}

/-- The tasks of which a message is under way, or whose kernel runs. -/
def inFlight (p : Node n m) : List (Taskid m) := p.requests ++ p.running.toList ++ p.dones

/-- The replies to assignments that the master has yet to read. -/
def owed (p : Node n m) : ℕ := p.acks + if p.assigning = none then 0 else 1

/-- The worker knows the owners in `ws`, or they are among the assignments still to go
through. -/
structure Learns (ws : Fin n → WorkerState m) (p : Node n m) : Prop where
  knows : ∀ u, ∀ t ∈ (ws u).shards, (t, u) ∈ p.assigning.getD [] ∨ p.owner t = some u
  true : ∀ t u, (t, u) ∈ p.assigning.getD [] → t ∈ (ws u).shards

end Node

namespace Cluster

variable {n m : ℕ}

/-- The tasks of the run `r` are there, and the counters and messages are those of their
states. -/
structure Scheduled (r : RunDescriptor m) (s : Cluster n m) : Prop where
  tasks : ∀ t, (∃ w, ∃ task ∈ (s.workers w).work, task.id = t) ↔
    t.table = r.table ∧ t.shard ∈ r.shards
  dispatched : s.dispatched = ∑ w, ((s.workers w).numActive + (s.workers w).numFinished)
  finished : s.finished = ∑ w, (s.workers w).numFinished
  sent : ∀ w, ∀ task ∈ (s.workers w).work,
    s.sent.count task.id = if task.status = .pending then 0 else 1
  reaped : ∀ w, ∀ task ∈ (s.workers w).work,
    s.reaped.count task.id = if task.status = .finished then 1 else 0

/-- What holds of the tasks and shards in every state. -/
structure MasterInv (cfg : Config n m) (s : Cluster n m) : Prop where
  owned : Owned cfg s.workers
  single : ∀ w, (s.workers w).numActive ≤ 1
  assigned : s.shardsAssigned = true → ∀ t ∈ allShards cfg, ∃ w, t ∈ (s.workers w).shards
  unassigned : s.shardsAssigned = false →
    s.place = .idle ∧ s.currentRun = none ∨ ∃ caller, s.place = .assignTables caller
  caller : s.place ≠ .assignTables .barrier
  quiet : s.place.quiet = true → ∀ w, ∀ task ∈ (s.workers w).work, task.status ≠ .active
  scheduled : s.place.quiet = false → ∃ r, s.currentRun = some r ∧ Scheduled r s
  preparing : s.place.preparing = true → (∃ r, s.currentRun = some r) ∧ s.dispatched = 0 ∧
    s.finished = 0 ∧ s.sent = [] ∧ s.reaped = []
  restoring : s.place.restoring = true → s.currentRun = none ∧ s.finished = 0
  idle : s.place = .idle → s.shards.length = s.finished
  done : s.place = .idle → ∀ r, s.currentRun = some r →
    Scheduled r s ∧ ∀ w, ∀ task ∈ (s.workers w).work, task.status = .finished
  dispatch : s.place = .dispatch → s.dispatched = 0
  head : s.place = .head → ∀ w, 0 < (s.workers w).numPending → 0 < (s.workers w).numActive

/-- What holds of the workers and the messages in every state. -/
structure NodeInv (s : Cluster n m) : Prop where
  inFlight : ∀ w, (s.nodes w).inFlight.Perm (activeIds (s.workers w).work)
  requests : ∀ w, ∀ t ∈ (s.nodes w).requests, (s.nodes w).owner t = some w
  synced : s.place.synced = true → ∀ w u, ∀ t ∈ (s.workers u).shards, (s.nodes w).owner t = some u
  settled : s.place.waiting = false → ∀ w, (s.nodes w).assigning = none ∧ (s.nodes w).acks = 0
  waiting : s.place.waiting = true →
    s.count = ∑ w, (s.nodes w).owed ∧ ∀ w, (s.nodes w).Learns s.workers

/-- What holds in every state. -/
structure Inv (cfg : Config n m) (s : Cluster n m) : Prop where
  master : MasterInv cfg s
  nodes : NodeInv s

theorem inv_init (cfg : Config n m) : Inv cfg init where
  master :=
    { owned := ⟨fun h => absurd h List.not_mem_nil, fun h => absurd h List.not_mem_nil,
        fun h => absurd h List.not_mem_nil, fun _ => List.nodup_nil,
        fun h => absurd h List.not_mem_nil, fun _ => List.nodup_nil⟩
      single := fun _ => Nat.zero_le 1
      assigned := nofun
      unassigned := fun _ => .inl ⟨rfl, rfl⟩
      caller := nofun
      quiet := fun _ _ _ h => absurd h List.not_mem_nil
      scheduled := nofun
      preparing := nofun
      restoring := nofun
      idle := fun _ => rfl
      done := nofun
      dispatch := nofun
      head := nofun }
  nodes :=
    { inFlight := fun _ => .rfl
      requests := fun _ _ h => absurd h List.not_mem_nil
      synced := fun _ _ _ _ h => absurd h List.not_mem_nil
      settled := fun _ _ => ⟨rfl, rfl⟩
      waiting := nofun }

variable {cfg : Config n m} {s : Cluster n m} {w : Fin n} {p : Node n m}

/-! ### Steps of a worker -/

/-- The master does not look at the workers. -/
theorem MasterInv.setNodes (hs : MasterInv cfg s) (f : Fin n → Node n m) (c : ℕ) :
    MasterInv cfg { s with nodes := f, count := c } where
  owned := hs.owned
  single := hs.single
  assigned := hs.assigned
  unassigned := hs.unassigned
  caller := hs.caller
  quiet := hs.quiet
  scheduled hplace := by
    obtain ⟨r, hr, h⟩ := hs.scheduled hplace
    exact ⟨r, hr, h.tasks, h.dispatched, h.finished, h.sent, h.reaped⟩
  preparing := hs.preparing
  restoring := hs.restoring
  idle := hs.idle
  done hplace r hr := by
    obtain ⟨h, hall⟩ := hs.done hplace r hr
    exact ⟨⟨h.tasks, h.dispatched, h.finished, h.sent, h.reaped⟩, hall⟩
  dispatch := hs.dispatch
  head := hs.head

theorem forall_setNode (P : Fin n → Node n m → Prop) (hall : ∀ v, P v (s.nodes v)) (hp : P w p)
    (v : Fin n) : P v ((s.setNode w p).nodes v) :=
  (Function.forall_update_iff s.nodes P).mpr ⟨hp, fun v _ => hall v⟩ v

theorem sum_owed_setNode (howed : p.owed = (s.nodes w).owed) :
    ∑ v, ((s.setNode w p).nodes v).owed = ∑ v, (s.nodes v).owed := by
  have h := sum_update Node.owed s.nodes w (x := p) (a := 0) (b := 0) (by rw [howed])
  rwa [add_zero, add_zero] at h

/-- A step of `KernelLoop`. -/
theorem Inv.setKernel (hs : Inv cfg s) (hflight : p.inFlight.Perm (s.nodes w).inFlight)
    (hrequests : ∀ t ∈ p.requests, t ∈ (s.nodes w).requests) (howner : p.owner = (s.nodes w).owner)
    (hassigning : p.assigning = (s.nodes w).assigning) (hacks : p.acks = (s.nodes w).acks) :
    Inv cfg (s.setNode w p) where
  master := hs.master.setNodes _ s.count
  nodes :=
    { inFlight := forall_setNode (fun v p => p.inFlight.Perm (activeIds (s.workers v).work))
        hs.nodes.inFlight (hflight.trans (hs.nodes.inFlight w))
      requests := forall_setNode (fun v p => ∀ t ∈ p.requests, p.owner t = some v)
        hs.nodes.requests fun t ht => howner ▸ hs.nodes.requests w t (hrequests t ht)
      synced := fun hplace => forall_setNode
        (fun _ p => ∀ u, ∀ t ∈ (s.workers u).shards, p.owner t = some u) (hs.nodes.synced hplace)
        (howner ▸ hs.nodes.synced hplace w)
      settled := fun hplace => forall_setNode (fun _ p => p.assigning = none ∧ p.acks = 0)
        (hs.nodes.settled hplace) (hassigning ▸ hacks ▸ hs.nodes.settled hplace w)
      waiting := fun hplace => by
        obtain ⟨hcount, hlearns⟩ := hs.nodes.waiting hplace
        refine ⟨hcount.trans (sum_owed_setNode ?_).symm,
          forall_setNode (fun _ p => p.Learns s.workers) hlearns ⟨?_, ?_⟩⟩
        · rw [Node.owed, Node.owed, hassigning, hacks]
        · rw [hassigning, howner]
          exact (hlearns w).knows
        · rw [hassigning]
          exact (hlearns w).true }

theorem step_runKernel (hs : Inv cfg s) (w : Fin n) :
    EndsIn (Refused cfg) (Inv cfg) (s.runKernel w) := by
  rw [runKernel]
  split
  next id rest hrunning hrequests =>
    have hknown := hs.nodes.requests w id (hrequests ▸ List.mem_cons_self)
    rw [if_neg (not_not.mpr hknown)]
    refine hs.setKernel ?_ (fun t ht => ?_) rfl rfl rfl
    · simp only [Node.inFlight, hrunning, hrequests, Option.toList_none, Option.toList_some,
        List.append_nil, List.cons_append]
      exact (List.perm_append_singleton id rest).append_right _
    · rw [hrequests]
      exact List.mem_cons_of_mem _ ht
  next => exact hs

theorem step_kernelDone (hs : Inv cfg s) (w : Fin n) : Inv cfg (s.kernelDone w) := by
  rw [kernelDone]
  split
  next => exact hs
  next id hrunning =>
    refine hs.setKernel ?_ (fun t ht => ht) rfl rfl rfl
    simp only [Node.inFlight, hrunning, Option.toList_none, Option.toList_some, List.append_nil,
      List.append_assoc]
    exact (List.perm_append_comm).append_left _

/-- A request that is under way is for a shard of its worker. -/
theorem Inv.mem_shards (hs : Inv cfg s) {t : Taskid m} (ht : t ∈ (s.nodes w).requests) :
    t ∈ (s.workers w).shards := by
  have hmem : t ∈ (s.nodes w).inFlight :=
    List.mem_append_left _ (List.mem_append_left _ ht)
  obtain ⟨task, htask, -, rfl⟩ := mem_activeIds.mp ((hs.nodes.inFlight w).mem_iff.mp hmem)
  exact hs.master.owned.held htask

/-- A worker that goes through assignments is waited for. -/
theorem Inv.waiting_of_assigning (hs : Inv cfg s) (hassigning : (s.nodes w).assigning ≠ none) :
    s.place.waiting = true := by
  by_contra hplace
  exact hassigning (hs.nodes.settled (Bool.eq_false_iff.mpr hplace) w).1

/-- A step of `HandleShardAssignment`. -/
theorem Inv.setAssigning (hs : Inv cfg s) (hassigning : (s.nodes w).assigning ≠ none)
    (hflight : p.inFlight = (s.nodes w).inFlight) (hrequests : ∀ t ∈ p.requests, p.owner t = some w)
    (howed : p.owed = (s.nodes w).owed) (hlearns : p.Learns s.workers) :
    Inv cfg (s.setNode w p) := by
  have hplace := hs.waiting_of_assigning hassigning
  have hunsynced := Place.synced_of_waiting hplace
  obtain ⟨hcount, hall⟩ := hs.nodes.waiting hplace
  refine ⟨hs.master.setNodes _ s.count, ?_, ?_, fun h => absurd h (Bool.eq_false_iff.mp hunsynced),
    fun h => absurd hplace (Bool.eq_false_iff.mp h), fun _ => ⟨?_, ?_⟩⟩
  · exact forall_setNode (fun v p => p.inFlight.Perm (activeIds (s.workers v).work))
      hs.nodes.inFlight (hflight ▸ hs.nodes.inFlight w)
  · exact forall_setNode (fun v p => ∀ t ∈ p.requests, p.owner t = some v)
      hs.nodes.requests hrequests
  · exact hcount.trans (sum_owed_setNode howed).symm
  · exact forall_setNode (fun _ p => p.Learns s.workers) hall hlearns

theorem step_handleShardAssignment (hs : Inv cfg s) (w : Fin n) :
    Inv cfg (s.handleShardAssignment w) := by
  rw [handleShardAssignment]
  split
  next => exact hs
  next hassigning =>
    have hne : (s.nodes w).assigning ≠ none := by rw [hassigning]; nofun
    have hlearns := (hs.nodes.waiting (hs.waiting_of_assigning hne)).2 w
    refine hs.setAssigning hne rfl (hs.nodes.requests w) ?_ ⟨?_, nofun⟩
    · simp [Node.owed, hassigning]
    · have hknows := hlearns.knows
      rwa [hassigning] at hknows
  next id new rest hassigning =>
    have hne : (s.nodes w).assigning ≠ none := by rw [hassigning]; nofun
    have hlearns := (hs.nodes.waiting (hs.waiting_of_assigning hne)).2 w
    have hnew : id ∈ (s.workers new).shards := by
      refine hlearns.true id new ?_
      rw [hassigning]
      exact List.mem_cons_self
    refine hs.setAssigning hne rfl (fun t ht => ?_) ?_ ⟨fun u t ht => ?_, fun t u htu => ?_⟩
    · dsimp only
      by_cases hid : t = id
      · subst hid
        rw [Function.update_self, hs.master.owned.unique (hs.mem_shards ht) hnew]
      · rw [Function.update_of_ne hid]
        exact hs.nodes.requests w t ht
    · simp [Node.owed, hassigning]
    · dsimp only
      by_cases hid : t = id
      · subst hid
        rw [Function.update_self, hs.master.owned.unique ht hnew]
        exact .inr rfl
      · rw [Function.update_of_ne hid]
        have hknows := hlearns.knows u t ht
        rw [hassigning] at hknows
        refine hknows.imp_left fun hmem => ?_
        rcases List.mem_cons.mp hmem with heq | hrest
        · exact absurd (congrArg Prod.fst heq) hid
        · exact hrest
    · refine hlearns.true t u ?_
      rw [hassigning]
      exact List.mem_cons_of_mem _ htu

theorem step_checkReplyQueue (hs : Inv cfg s) (w : Fin n) : Inv cfg (s.checkReplyQueue w) := by
  rw [checkReplyQueue]
  split
  next caller hplace =>
    split_ifs with hnone
    · exact hs
    · have hwaiting : s.place.waiting = true := by rw [hplace]; rfl
      obtain ⟨hcount, hlearns⟩ := hs.nodes.waiting hwaiting
      have hsum := sum_update Node.owed s.nodes w
        (x := { s.nodes w with acks := (s.nodes w).acks - 1 }) (a := 1) (b := 0)
        (by simp only [Node.owed]; omega)
      rw [add_zero, ← hcount] at hsum
      refine ⟨hs.master.setNodes _ _, ?_, ?_, fun h => ?_, fun h => ?_,
        fun _ => ⟨(Nat.eq_sub_of_add_eq hsum).symm, ?_⟩⟩
      · exact forall_setNode (fun v p => p.inFlight.Perm (activeIds (s.workers v).work))
          hs.nodes.inFlight (hs.nodes.inFlight w)
      · exact forall_setNode (fun v p => ∀ t ∈ p.requests, p.owner t = some v) hs.nodes.requests
          (hs.nodes.requests w)
      · exact absurd h (Bool.eq_false_iff.mp (Place.synced_of_waiting hwaiting))
      · exact absurd hwaiting (Bool.eq_false_iff.mp h)
      · exact forall_setNode (fun _ p => p.Learns s.workers) hlearns
          ⟨(hlearns w).knows, (hlearns w).true⟩
  next => exact hs

/-! ### Between runs -/

/-- A step of the master that sends nothing. -/
theorem NodeInv.congr {s' : Cluster n m} (hs : NodeInv s) (hworkers : s'.workers = s.workers)
    (hnodes : s'.nodes = s.nodes) (hsynced : s'.place.synced = true → s.place.synced = true)
    (hplace : s.place.waiting = false) (hplace' : s'.place.waiting = false) : NodeInv s' where
  inFlight := by
    rw [hworkers, hnodes]
    exact hs.inFlight
  requests := by
    rw [hnodes]
    exact hs.requests
  synced h := by
    rw [hworkers, hnodes]
    exact hs.synced (hsynced h)
  settled _ := by
    rw [hnodes]
    exact hs.settled hplace
  waiting h := absurd h (Bool.eq_false_iff.mp hplace')

theorem MasterInv.finished_eq_zero (hs : MasterInv cfg s) (hplace : s.place = .idle)
    (hrun : s.currentRun = none) : s.finished = 0 := by
  have hidle := hs.idle hplace
  rw [shards, hrun] at hidle
  exact hidle.symm

theorem step_restore (hs : Inv cfg s) : Inv cfg s.restore := by
  rw [restore]
  split_ifs with hcond
  · obtain ⟨hplace, hunassigned⟩ := hcond
    have hrun : s.currentRun = none := by
      rcases hs.master.unassigned hunassigned with ⟨-, hrun⟩ | ⟨caller, hcaller⟩
      · exact hrun
      · rw [hplace] at hcaller
        cases hcaller
    refine ⟨⟨hs.master.owned, hs.master.single, hs.master.assigned, fun _ => .inr ⟨.restore, rfl⟩,
      nofun, fun _ => hs.master.quiet (by rw [hplace]; rfl), nofun, nofun,
      fun _ => ⟨hrun, hs.master.finished_eq_zero hplace hrun⟩, nofun, nofun, nofun, nofun⟩, ?_⟩
    exact hs.nodes.congr rfl rfl (fun _ => by rw [hplace]; rfl) (by rw [hplace]; rfl) rfl
  · exact hs

theorem step_startRun (hs : Inv cfg s) (r : RunDescriptor m) :
    EndsIn (Refused cfg) (Inv cfg) (s.startRun r) := by
  rw [startRun]
  split_ifs with hplace hfinished hassigned
  · have hquiet := hs.master.quiet (by rw [hplace]; rfl)
    refine ⟨⟨hs.master.owned, hs.master.single, hs.master.assigned, ?_, nofun, fun _ => hquiet,
      nofun, fun _ => ⟨⟨r, rfl⟩, rfl, rfl, rfl, rfl⟩, nofun, nofun, nofun, nofun, nofun⟩, ?_⟩
    · intro hfalse
      exact absurd hassigned (Bool.eq_false_iff.mp hfalse)
    · exact hs.nodes.congr rfl rfl (fun _ => by rw [hplace]; rfl) (by rw [hplace]; rfl) rfl
  · have hquiet := hs.master.quiet (by rw [hplace]; rfl)
    refine ⟨⟨hs.master.owned, hs.master.single, hs.master.assigned, fun _ => .inr ⟨.run, rfl⟩,
      nofun, fun _ => hquiet, nofun, fun _ => ⟨⟨r, rfl⟩, rfl, rfl, rfl, rfl⟩, nofun, nofun, nofun,
      nofun, nofun⟩, ?_⟩
    exact hs.nodes.congr rfl rfl (fun _ => by rw [hplace]; rfl) (by rw [hplace]; rfl) rfl
  · exact absurd (hs.master.idle hplace) hfinished
  · exact hs

/-- No message is under way while no task is active. -/
theorem NodeInv.inFlight_eq_nil (hs : NodeInv s)
    (hquiet : ∀ w, ∀ task ∈ (s.workers w).work, task.status ≠ .active) (w : Fin n) :
    (s.nodes w).inFlight = [] := by
  have hnone : activeIds (s.workers w).work = [] := by
    refine List.eq_nil_iff_forall_not_mem.mpr fun id hid => ?_
    obtain ⟨task, htask, hactive, -⟩ := mem_activeIds.mp hid
    exact hquiet w task htask hactive
  have hperm := hs.inFlight w
  rw [hnone] at hperm
  exact hperm.eq_nil

theorem numActive_eq_zero {ws : WorkerState m} (hquiet : ∀ task ∈ ws.work, task.status ≠ .active) :
    ws.numActive = 0 := by
  refine List.countP_eq_zero.mpr fun task htask => ?_
  rw [decide_eq_true_iff]
  exact hquiet task htask

/-- New tasks and shards while no kernel is under way. -/
theorem NodeInv.reassign {s' : Cluster n m} (hs : NodeInv s)
    (hquiet : ∀ w, ∀ task ∈ (s.workers w).work, task.status ≠ .active)
    (hquiet' : ∀ w, ∀ task ∈ (s'.workers w).work, task.status ≠ .active)
    (hnodes : s'.nodes = s.nodes)
    (hsynced : s'.place.synced = true →
      s.place.synced = true ∧ ∀ w, (s'.workers w).shards = (s.workers w).shards)
    (hplace : s.place.waiting = false) (hplace' : s'.place.waiting = false) : NodeInv s' where
  inFlight w := by
    have hnone : activeIds (s'.workers w).work = [] := by
      rw [activeIds, List.map_eq_nil_iff, List.filter_eq_nil_iff]
      exact fun task htask hactive => hquiet' w task htask (of_decide_eq_true hactive)
    rw [hnodes, hs.inFlight_eq_nil hquiet, hnone]
  requests := by
    rw [hnodes]
    exact hs.requests
  synced h w u t ht := by
    obtain ⟨hsync, hshards⟩ := hsynced h
    rw [hshards] at ht
    rw [hnodes]
    exact hs.synced hsync w u t ht
  settled _ := by
    rw [hnodes]
    exact hs.settled hplace
  waiting h := absurd h (Bool.eq_false_iff.mp hplace')

theorem advance_assignTables (hs : Inv cfg s) {caller : Caller}
    (hplace : s.place = .assignTables caller) (size : Taskid m → ℤ) (worth : Bool) :
    EndsIn (Refused cfg) (Inv cfg) (s.advance cfg size worth) := by
  have hquiet := hs.master.quiet (by rw [hplace]; rfl)
  simp only [advance, hplace]
  refine (assignTables_spec hs.master.owned size hquiet).map fun ws ⟨howned, hserved, hquiet'⟩ => ?_
  refine ⟨⟨howned, fun w => ?_, fun _ => hserved, nofun, nofun, fun _ => hquiet',
    fun h => ?_, ?_, ?_, nofun, nofun, nofun, nofun⟩, ?_⟩
  · rw [numActive_eq_zero (hquiet' w)]
    exact Nat.zero_le 1
  · have hcaller : caller = .barrier := by simpa [Place.quiet] using h
    exact absurd (hcaller ▸ hplace) hs.master.caller
  · exact fun h => hs.master.preparing (by rw [hplace]; exact h)
  · exact fun h => hs.master.restoring (by rw [hplace]; exact h)
  · exact hs.nodes.reassign hquiet hquiet' rfl nofun (by rw [hplace]; rfl) rfl

theorem MasterInv.shardsAssigned (hs : MasterInv cfg s) (hidle : s.place ≠ .idle)
    (hplace : ∀ caller, s.place ≠ .assignTables caller) : s.shardsAssigned = true := by
  by_contra hfalse
  rcases hs.unassigned (Bool.eq_false_iff.mpr hfalse) with ⟨h, -⟩ | ⟨caller, h⟩
  · exact hidle h
  · exact hplace caller h

theorem Scheduled.congr {r : RunDescriptor m} {s' : Cluster n m} (h : Scheduled r s)
    (hworkers : s'.workers = s.workers) (hdispatched : s'.dispatched = s.dispatched)
    (hfinished : s'.finished = s.finished) (hsent : s'.sent = s.sent)
    (hreaped : s'.reaped = s.reaped) : Scheduled r s' := by
  refine ⟨?_, ?_, ?_, ?_, ?_⟩
  · rw [hworkers]
    exact h.tasks
  · rw [hworkers, hdispatched]
    exact h.dispatched
  · rw [hworkers, hfinished]
    exact h.finished
  · rw [hworkers, hsent]
    exact h.sent
  · rw [hworkers, hreaped]
    exact h.reaped

/-- After `assign_tasks` the run is there, with its tasks. -/
theorem MasterInv.inBarrier (hs : MasterInv cfg s) (hplace : s.place.quiet = false) :
    s.shardsAssigned = true ∧ ∃ r, s.currentRun = some r ∧ Scheduled r s := by
  obtain ⟨hidle, htables, -⟩ := Place.of_quiet_eq_false hplace
  exact ⟨hs.shardsAssigned hidle htables, hs.scheduled hplace⟩

/-- A step of `barrier` after which it neither waits for a reply nor has come to its end. -/
theorem MasterInv.barrier (hs : MasterInv cfg s) {s' : Cluster n m} (hplace : s.place.quiet = false)
    (hplace' : s'.place.quiet = false) (hdispatch : s'.place ≠ .dispatch) (hhead : s'.place ≠ .head)
    (hassigned : s'.shardsAssigned = s.shardsAssigned) (howned : Owned cfg s'.workers)
    (hsingle : ∀ w, (s'.workers w).numActive ≤ 1)
    (hserved : ∀ t, (∃ w, t ∈ (s.workers w).shards) → ∃ w, t ∈ (s'.workers w).shards)
    (hsched : ∃ r, s'.currentRun = some r ∧ Scheduled r s') : MasterInv cfg s' := by
  obtain ⟨hall, -⟩ := hs.inBarrier hplace
  obtain ⟨hidle, htables, hpreparing, hrestoring⟩ := Place.of_quiet_eq_false hplace'
  exact
    { owned := howned
      single := hsingle
      assigned := fun _ t ht => hserved t (hs.assigned hall t ht)
      unassigned := fun h => absurd (hassigned.trans hall) (Bool.eq_false_iff.mp h)
      caller := htables .barrier
      quiet := fun h => absurd h (Bool.eq_false_iff.mp hplace')
      scheduled := fun _ => hsched
      preparing := fun h => absurd h (Bool.eq_false_iff.mp hpreparing)
      restoring := fun h => absurd h (Bool.eq_false_iff.mp hrestoring)
      idle := fun h => absurd h hidle
      done := fun h => absurd h hidle
      dispatch := fun h => absurd h hdispatch
      head := fun h => absurd h hhead }

theorem advance_sendTables (hs : Inv cfg s) {caller : Caller}
    (hplace : s.place = .sendTables caller) (size : Taskid m → ℤ) (worth : Bool) :
    EndsIn (Refused cfg) (Inv cfg) (s.advance cfg size worth) := by
  have hassigned := hs.master.shardsAssigned (by rw [hplace]; nofun) (by rw [hplace]; nofun)
  have hsettled := hs.nodes.settled (by rw [hplace]; rfl)
  have hmem : ∀ t u, (t, u) ∈ tableAssignments s.workers ↔ t ∈ (s.workers u).shards := by
    intro t u
    simp only [tableAssignments, List.mem_flatMap, List.mem_finRange, true_and, List.mem_map,
      Prod.mk.injEq]
    constructor
    · rintro ⟨v, t', ht', rfl, rfl⟩
      exact ht'
    · exact fun ht => ⟨u, t, ht, rfl, rfl⟩
  simp only [advance, hplace]
  refine ⟨⟨hs.master.owned, hs.master.single, hs.master.assigned,
    fun h => absurd hassigned (Bool.eq_false_iff.mp h), nofun, fun h => ?_, fun h => ?_,
    fun h => ?_, fun h => ?_, nofun, nofun, nofun, nofun⟩, hs.nodes.inFlight, hs.nodes.requests,
    nofun, nofun, fun _ => ⟨?_, fun w =>
      ⟨fun u t ht => .inl ((hmem t u).mpr ht), fun t u htu => (hmem t u).mp htu⟩⟩⟩
  · exact hs.master.quiet (by rw [hplace]; exact h)
  · obtain ⟨r, hr, hsched⟩ := hs.master.scheduled (by rw [hplace]; exact h)
    exact ⟨r, hr, hsched.congr rfl rfl rfl rfl rfl⟩
  · exact hs.master.preparing (by rw [hplace]; exact h)
  · exact hs.master.restoring (by rw [hplace]; exact h)
  · simp [Node.owed, hsettled]

/-- All replies have been read. -/
theorem NodeInv.synced_of_count (hs : NodeInv s) (hplace : s.place.waiting = true)
    (hcount : s.count = 0) :
    (∀ w u, ∀ t ∈ (s.workers u).shards, (s.nodes w).owner t = some u) ∧
      ∀ w, (s.nodes w).assigning = none ∧ (s.nodes w).acks = 0 := by
  obtain ⟨hsum, hlearns⟩ := hs.waiting hplace
  have hnone : ∀ w, (s.nodes w).assigning = none ∧ (s.nodes w).acks = 0 := by
    intro w
    have howed := Finset.sum_eq_zero_iff.mp (hsum.symm.trans hcount) w (Finset.mem_univ w)
    rw [Node.owed] at howed
    split_ifs at howed with hassigning
    exact ⟨hassigning, howed⟩
  refine ⟨fun w u t ht => ?_, hnone⟩
  have hknows := (hlearns w).knows u t ht
  rw [(hnone w).1] at hknows
  exact hknows.resolve_left List.not_mem_nil

theorem advance_waitTables (hs : Inv cfg s) {caller : Caller}
    (hplace : s.place = .waitTables caller) (size : Taskid m → ℤ) (worth : Bool) :
    EndsIn (Refused cfg) (Inv cfg) (s.advance cfg size worth) := by
  simp only [advance, hplace]
  split_ifs with hcount
  · have hassigned := hs.master.shardsAssigned (by rw [hplace]; nofun) (by rw [hplace]; nofun)
    obtain ⟨hsynced, hsettled⟩ := hs.nodes.synced_of_count (by rw [hplace]; rfl) hcount
    have hnodes : caller.next.waiting = false → NodeInv { s with place := caller.next } :=
      fun hnext => ⟨hs.nodes.inFlight, hs.nodes.requests, fun _ => hsynced, fun _ => hsettled,
        fun h => absurd h (Bool.eq_false_iff.mp hnext)⟩
    -- where `send_table_assignments` was called from decides where the master goes on
    cases caller with
    | restore =>
      obtain ⟨hrun, hfinished⟩ := hs.master.restoring (by rw [hplace]; rfl)
      refine ⟨⟨hs.master.owned, hs.master.single, hs.master.assigned,
        fun h => absurd hassigned (Bool.eq_false_iff.mp h), nofun,
        fun _ => hs.master.quiet (by rw [hplace]; rfl), nofun, nofun, nofun, fun _ => ?_,
        fun _ r hr => ?_, nofun, nofun⟩, hnodes rfl⟩
      · rw [shards, hrun]
        exact hfinished.symm
      · cases hrun.symm.trans hr
    | run =>
      refine ⟨⟨hs.master.owned, hs.master.single, hs.master.assigned,
        fun h => absurd hassigned (Bool.eq_false_iff.mp h), nofun,
        fun _ => hs.master.quiet (by rw [hplace]; rfl), nofun,
        fun _ => hs.master.preparing (by rw [hplace]; rfl), nofun, nofun, nofun, nofun, nofun⟩,
        hnodes rfl⟩
    | barrier =>
      have hquiet : s.place.quiet = false := by rw [hplace]; rfl
      obtain ⟨r, hr, hsched⟩ := hs.master.scheduled hquiet
      exact ⟨hs.master.barrier hquiet rfl nofun nofun rfl hs.master.owned hs.master.single
        (fun _ h => h) ⟨r, hr, hsched.congr rfl rfl rfl rfl rfl⟩, hnodes rfl⟩
  · exact hs

theorem advance_assignTasks (hs : Inv cfg s) (hplace : s.place = .assignTasks)
    (size : Taskid m → ℤ) (worth : Bool) :
    EndsIn (Refused cfg) (Inv cfg) (s.advance cfg size worth) := by
  have hassigned := hs.master.shardsAssigned (by rw [hplace]; nofun) (by rw [hplace]; nofun)
  have hquiet := hs.master.quiet (by rw [hplace]; rfl)
  obtain ⟨⟨r, hr⟩, hdispatched, hfinished, hsent, hreaped⟩ :=
    hs.master.preparing (by rw [hplace]; rfl)
  have hserved := hs.master.assigned hassigned
  simp only [advance, hplace, hr]
  refine (assignTasks_spec hs.master.owned size r hserved).map
    fun ws ⟨howned, hshards, htasks⟩ => ?_
  have hnew : ∀ w, ∀ task ∈ (ws w).work, task.status = .pending := by
    intro w task htask
    obtain ⟨shard, -, rfl⟩ := (htasks task).mp ⟨w, htask⟩
    rfl
  have hquiet' : ∀ w, ∀ task ∈ (ws w).work, task.status ≠ .active := by
    intro w task htask hactive
    cases (hnew w task htask).symm.trans hactive
  have hactive : ∀ w, (ws w).numActive = 0 := fun w => numActive_eq_zero (hquiet' w)
  have hfinished' : ∀ w, (ws w).numFinished = 0 := by
    intro w
    refine List.countP_eq_zero.mpr fun task htask => ?_
    rw [decide_eq_true_iff, hnew w task htask]
    nofun
  have hsched : Scheduled r { s with place := .dispatch, workers := ws } := by
    refine ⟨fun t => ?_, ?_, ?_, fun w task htask => ?_, fun w task htask => ?_⟩
    · constructor
      · rintro ⟨w, task, htask, rfl⟩
        obtain ⟨shard, hshard, rfl⟩ := (htasks task).mp ⟨w, htask⟩
        exact ⟨rfl, hshard⟩
      · rintro ⟨htable, hshard⟩
        obtain ⟨w, hw⟩ := (htasks _).mpr ⟨t.shard, hshard, rfl⟩
        exact ⟨w, _, hw, by rw [← htable]; rfl⟩
    · simp [hdispatched, hactive, hfinished']
    · simp [hfinished, hfinished']
    · simp [hsent, hnew w task htask]
    · simp [hreaped, hnew w task htask]
  refine ⟨⟨howned, fun w => by rw [hactive]; exact Nat.zero_le 1, fun _ t ht => ?_,
    fun h => absurd hassigned (Bool.eq_false_iff.mp h), nofun, nofun,
    fun _ => ⟨r, rfl, hsched.congr rfl rfl rfl rfl rfl⟩, nofun, nofun, nofun, nofun,
    fun _ => hdispatched, nofun⟩, ?_⟩
  · obtain ⟨w, hw⟩ := hserved t ht
    exact ⟨w, by rwa [hshards]⟩
  · refine hs.nodes.reassign hquiet hquiet' rfl (fun _ => ⟨?_, hshards⟩) (by rw [hplace]; rfl) rfl
    rw [hplace]
    rfl

/-! ### Tasks that change their state -/

section SetStatus

variable {ws : Fin n → WorkerState m} {t : TaskState m} {status : Status}

/-- The workers after task `t` of `w` has got another status. -/
def setTask (w : Fin n) (t : TaskState m) (status : Status) (ws : Fin n → WorkerState m) :
    Fin n → WorkerState m :=
  Function.update ws w ((ws w).setStatus t.id status)

theorem shards_setTask (v : Fin n) : (setTask w t status ws v).shards = (ws v).shards := by
  by_cases hv : v = w
  · subst hv
    rw [setTask, Function.update_self]
    rfl
  · rw [setTask, Function.update_of_ne hv]

theorem ids_setTask (v : Fin n) :
    (setTask w t status ws v).work.map TaskState.id = (ws v).work.map TaskState.id := by
  by_cases hv : v = w
  · subst hv
    rw [setTask, Function.update_self]
    exact WorkerState.setStatus_ids _ _
  · rw [setTask, Function.update_of_ne hv]

theorem owned_setTask (h : Owned cfg ws) : Owned cfg (setTask w t status ws) :=
  h.congr shards_setTask ids_setTask

theorem mem_setTask (h : Owned cfg ws) (ht : t ∈ (ws w).work) {v : Fin n} {task : TaskState m}
    (htask : task ∈ (setTask w t status ws v).work) :
    v = w ∧ task = { t with status := status } ∨ task ∈ (ws v).work ∧ task.id ≠ t.id := by
  by_cases hv : v = w
  · subst hv
    rw [setTask, Function.update_self, WorkerState.setStatus] at htask
    obtain ⟨u, hu, rfl⟩ := List.mem_map.mp htask
    split_ifs with hid
    · obtain rfl := (h.keyed v).eq hu ht hid
      exact .inl ⟨rfl, rfl⟩
    · exact .inr ⟨hu, hid⟩
  · rw [setTask, Function.update_of_ne hv] at htask
    exact .inr ⟨htask, fun hid => hv (h.eq_of_mem htask ht hid).1⟩

/-- The counters after a task has got another status. -/
theorem sum_setTask (h : Owned cfg ws) (ht : t ∈ (ws w).work) (status : Status) :
    ∑ v, (setTask w t status ws v).numActive + (if t.status = .active then 1 else 0) =
        ∑ v, (ws v).numActive + (if status = .active then 1 else 0) ∧
      ∑ v, (setTask w t status ws v).numFinished + (if t.status = .finished then 1 else 0) =
        ∑ v, (ws v).numFinished + (if status = .finished then 1 else 0) := by
  obtain ⟨rest, hbefore, hafter⟩ := WorkerState.setStatus_perm (h.keyed w) ht status
  obtain ⟨hactive, hfinished⟩ := counts_of_perm hbefore hafter
  exact ⟨sum_update WorkerState.numActive ws w hactive,
    sum_update WorkerState.numFinished ws w hfinished⟩

theorem Scheduled.setTask {r : RunDescriptor m} (hsched : Scheduled r s)
    (howned : Owned cfg s.workers)
    (ht : t ∈ (s.workers w).work) {s' : Cluster n m}
    (hworkers : s'.workers = Cluster.setTask w t status s.workers)
    (hdispatched : s'.dispatched + (if t.status = .pending then 0 else 1) =
      s.dispatched + (if status = .pending then 0 else 1))
    (hfinished : s'.finished + (if t.status = .finished then 1 else 0) =
      s.finished + (if status = .finished then 1 else 0))
    (hsent : ∀ id, s'.sent.count id + (if id = t.id ∧ t.status ≠ .pending then 1 else 0) =
      s.sent.count id + (if id = t.id ∧ status ≠ .pending then 1 else 0))
    (hreaped : ∀ id, s'.reaped.count id + (if id = t.id ∧ t.status = .finished then 1 else 0) =
      s.reaped.count id + (if id = t.id ∧ status = .finished then 1 else 0)) :
    Scheduled r s' := by
  obtain ⟨hsumActive, hsumFinished⟩ := sum_setTask howned ht status
  refine ⟨fun id => ?_, ?_, ?_, fun v task htask => ?_, fun v task htask => ?_⟩
  · rw [← hsched.tasks, hworkers]
    refine exists_congr fun v => ?_
    have hids := List.mem_map (f := TaskState.id) (b := id)
      (l := (Cluster.setTask w t status s.workers v).work)
    rw [ids_setTask, List.mem_map] at hids
    exact hids.symm
  -- the sums differ by what the old and the new status count for
  · have hold := hsched.dispatched
    rw [Finset.sum_add_distrib] at hold
    rw [hworkers, Finset.sum_add_distrib]
    cases htstatus : t.status <;> cases status <;>
      simp only [htstatus, reduceCtorEq, if_true, if_false]
        at hdispatched hsumActive hsumFinished <;>
      omega
  · have hold := hsched.finished
    rw [hworkers]
    omega
  · rw [hworkers] at htask
    have hcount := hsent task.id
    rcases mem_setTask howned ht htask with ⟨-, rfl⟩ | ⟨hold, hne⟩
    · have hbefore := hsched.sent w t ht
      dsimp only at hcount ⊢
      cases htstatus : t.status <;> cases status <;>
        simp only [htstatus, reduceCtorEq, ne_eq, not_true_eq_false, not_false_eq_true, and_false,
          and_true, if_true, if_false] at hcount hbefore ⊢ <;> omega
    · simp only [hne, false_and, if_false, add_zero] at hcount
      rw [hcount]
      exact hsched.sent v task hold
  · rw [hworkers] at htask
    have hcount := hreaped task.id
    rcases mem_setTask howned ht htask with ⟨-, rfl⟩ | ⟨hold, hne⟩
    · have hbefore := hsched.reaped w t ht
      dsimp only at hcount ⊢
      cases htstatus : t.status <;> cases status <;>
        simp only [htstatus, reduceCtorEq, and_false, and_true, if_true, if_false]
          at hcount hbefore ⊢ <;>
        omega
    · simp only [hne, false_and, if_false, add_zero] at hcount
      rw [hcount]
      exact hsched.reaped v task hold

/-- The active tasks of the worker, with task `t` apart. -/
theorem activeIds_setTask (h : Owned cfg ws) (ht : t ∈ (ws w).work) (status : Status) :
    ∃ ids, (activeIds (ws w).work).Perm (if t.status = .active then t.id :: ids else ids) ∧
      (activeIds (setTask w t status ws w).work).Perm
        (if status = .active then t.id :: ids else ids) := by
  obtain ⟨rest, hbefore, hafter⟩ := WorkerState.setStatus_perm (h.keyed w) ht status
  refine ⟨activeIds rest, ?_, ?_⟩
  · rw [← activeIds_cons]
    exact activeIds_perm hbefore
  · rw [setTask, Function.update_self]
    refine (activeIds_perm hafter).trans ?_
    rw [activeIds_cons]

end SetStatus

/-! ### `dispatch_work` -/

/-- What holds while tasks of the run `r` are dispatched. -/
structure Dispatching (cfg : Config n m) (r : RunDescriptor m) (s : Cluster n m) : Prop where
  owned : Owned cfg s.workers
  single : ∀ w, (s.workers w).numActive ≤ 1
  scheduled : Scheduled r s
  inFlight : ∀ w, (s.nodes w).inFlight.Perm (activeIds (s.workers w).work)
  requests : ∀ w, ∀ t ∈ (s.nodes w).requests, (s.nodes w).owner t = some w
  synced : ∀ w u, ∀ t ∈ (s.workers u).shards, (s.nodes w).owner t = some u

/-- What `dispatch_work` leaves alone. -/
structure Frame (s s' : Cluster n m) : Prop where
  place : s'.place = s.place
  shardsAssigned : s'.shardsAssigned = s.shardsAssigned
  currentRun : s'.currentRun = s.currentRun
  shards : ∀ w, (s'.workers w).shards = (s.workers w).shards
  settled : ∀ w, (s'.nodes w).assigning = (s.nodes w).assigning ∧
    (s'.nodes w).acks = (s.nodes w).acks

theorem Frame.refl (s : Cluster n m) : Frame s s :=
    ⟨rfl, rfl, rfl, fun _ => rfl, fun _ => ⟨rfl, rfl⟩⟩

theorem Frame.trans {s₁ s₂ : Cluster n m} (h : Frame s s₁) (h' : Frame s₁ s₂) : Frame s s₂ where
  place := h'.place.trans h.place
  shardsAssigned := h'.shardsAssigned.trans h.shardsAssigned
  currentRun := h'.currentRun.trans h.currentRun
  shards w := (h'.shards w).trans (h.shards w)
  settled w := ⟨(h'.settled w).1.trans (h.settled w).1, (h'.settled w).2.trans (h.settled w).2⟩

/-- The worker has nothing to do, or something to wait for. -/
def Busy (w : WorkerState m) : Prop := 0 < w.numPending → 0 < w.numActive

/-- The state after task `t` of worker `w` has been dispatched. -/
def dispatchTask (w : Fin n) (t : TaskState m) (s : Cluster n m) : Cluster n m :=
  { s.setNode w { s.nodes w with requests := (s.nodes w).requests ++ [t.id] } with
    workers := setTask w t .active s.workers
    dispatched := s.dispatched + 1
    sent := s.sent ++ [t.id] }

theorem frame_dispatchTask (w : Fin n) (t : TaskState m) (s : Cluster n m) :
    Frame s (dispatchTask w t s) where
  place := rfl
  shardsAssigned := rfl
  currentRun := rfl
  shards := shards_setTask
  settled := forall_setNode
    (fun v p => p.assigning = (s.nodes v).assigning ∧ p.acks = (s.nodes v).acks)
    (fun _ => ⟨rfl, rfl⟩) ⟨rfl, rfl⟩

theorem dispatching_dispatchTask {r : RunDescriptor m} (hs : Dispatching cfg r s) {t : TaskState m}
    (ht : t ∈ (s.workers w).work) (hstatus : t.status = .pending)
    (hactive : (s.workers w).numActive = 0) :
    Dispatching cfg r (dispatchTask w t s) ∧ 0 < ((dispatchTask w t s).workers w).numActive := by
  obtain ⟨ids, hbefore, hafter⟩ := activeIds_setTask hs.owned ht .active
  rw [hstatus, if_neg nofun] at hbefore
  rw [if_pos rfl] at hafter
  have hone : ((dispatchTask w t s).workers w).numActive = 1 := by
    have hlength := hbefore.length_eq
    rw [length_activeIds, hactive] at hlength
    rw [← length_activeIds]
    exact hafter.length_eq.trans (congrArg (· + 1) hlength.symm)
  refine ⟨⟨owned_setTask hs.owned, fun v => ?_, ?_, fun v => ?_, ?_, ?_⟩, hone ▸ Nat.one_pos⟩
  · by_cases hv : v = w
    · rw [hv, hone]
    · have hworker : (dispatchTask w t s).workers v = s.workers v := Function.update_of_ne hv ..
      rw [hworker]
      exact hs.single v
  · refine hs.scheduled.setTask hs.owned ht rfl ?_ ?_ (fun id => ?_) fun id => ?_
    · simp [dispatchTask, hstatus]
    · simp [dispatchTask, hstatus, setNode]
    · by_cases hid : id = t.id
      · simp [dispatchTask, hstatus, hid]
      · simp [dispatchTask, hstatus, hid, List.count_append, Ne.symm hid]
    · simp [dispatchTask, hstatus, setNode]
  · by_cases hv : v = w
    · subst hv
      have hnode : ((dispatchTask v t s).nodes v).inFlight =
          (s.nodes v).requests ++ [t.id] ++ (s.nodes v).running.toList ++ (s.nodes v).dones := by
        rw [dispatchTask, setNode, Node.inFlight]
        dsimp only
        rw [Function.update_self]
      have hmiddle : ((dispatchTask v t s).nodes v).inFlight.Perm
        (t.id :: (s.nodes v).inFlight) := by
        rw [hnode, Node.inFlight]
        simp only [List.append_assoc, List.singleton_append]
        exact List.perm_middle
      exact hmiddle.trans ((((hs.inFlight v).trans hbefore).cons t.id).trans hafter.symm)
    · have hnode : (dispatchTask w t s).nodes v = s.nodes v := Function.update_of_ne hv ..
      have hworker : (dispatchTask w t s).workers v = s.workers v := Function.update_of_ne hv ..
      rw [hnode, hworker]
      exact hs.inFlight v
  · refine forall_setNode (fun v p => ∀ id ∈ p.requests, p.owner id = some v) hs.requests
      fun id hid => ?_
    rcases List.mem_append.mp hid with hold | hnew
    · exact hs.requests w id hold
    · rw [List.mem_singleton.mp hnew]
      exact hs.synced w w t.id (hs.owned.held ht)
  · refine forall_setNode (fun v p => ∀ u, ∀ id ∈ ((dispatchTask w t s).workers u).shards,
      p.owner id = some u) (fun v u id hid => ?_) fun u id hid => ?_
    · rw [(frame_dispatchTask w t s).shards] at hid
      exact hs.synced v u id hid
    · rw [(frame_dispatchTask w t s).shards] at hid
      exact hs.synced w u id hid

theorem dispatchTo_spec {r : RunDescriptor m} (hs : Dispatching cfg r s) (w : Fin n) :
    Dispatching cfg r (dispatchTo r.table s w) ∧ Frame s (dispatchTo r.table s w) ∧
      Busy ((dispatchTo r.table s w).workers w) ∧
      ∀ v, v ≠ w → (dispatchTo r.table s w).workers v = s.workers v := by
  rw [dispatchTo]
  split_ifs with hcond
  · obtain ⟨hpending, hactive⟩ := hcond
    cases hbest : maxElement TaskState.weightCompare (s.workers w).pending with
    | none =>
      have hnone : (s.workers w).pending = [] := maxElement_eq_none.mp hbest
      rw [WorkerState.numPending, List.countP_eq_length_filter] at hpending
      exact absurd (congrArg List.length hnone) hpending.ne'
    | some t =>
      obtain ⟨ht, hstatus⟩ := mem_pending (maxElement_mem hbest)
      have htable : t.id.table = r.table := ((hs.scheduled.tasks t.id).mp ⟨w, t, ht, rfl⟩).1
      have hid : (⟨r.table, t.id.shard⟩ : Taskid m) = t.id := by rw [← htable]
      simp only [WorkerState.getNext, hbest, Option.map_some, hid]
      obtain ⟨hdispatching, hbusy⟩ := dispatching_dispatchTask hs ht hstatus hactive
      exact ⟨hdispatching, frame_dispatchTask w t s, fun _ => hbusy,
        fun v hv => Function.update_of_ne hv ..⟩
  · refine ⟨hs, .refl s, fun hpending => ?_, fun _ _ => rfl⟩
    by_contra hnone
    exact hcond ⟨hpending, Nat.eq_zero_of_not_pos hnone⟩

/-- After `dispatch_work` no worker has only pending tasks. -/
theorem dispatchWork_spec {r : RunDescriptor m} (hs : Dispatching cfg r s) :
    Dispatching cfg r (dispatchWork r.table s) ∧ Frame s (dispatchWork r.table s) ∧
      ∀ w, Busy ((dispatchWork r.table s).workers w) := by
  -- the workers that are still to come are the only ones that need not be busy
  have hloop : ∀ (l : List (Fin n)) (s : Cluster n m), Dispatching cfg r s →
      (∀ w, w ∉ l → Busy (s.workers w)) →
      Dispatching cfg r (l.foldl (dispatchTo r.table) s) ∧
        Frame s (l.foldl (dispatchTo r.table) s) ∧
        ∀ w, Busy ((l.foldl (dispatchTo r.table) s).workers w) := by
    intro l
    induction l with
    | nil => exact fun s hs hbusy => ⟨hs, .refl s, fun w => hbusy w List.not_mem_nil⟩
    | cons v l ih =>
      intro s hs hbusy
      obtain ⟨hs', hframe, hv, hother⟩ := dispatchTo_spec hs v
      obtain ⟨hend, hframe', hall⟩ := ih _ hs' fun w hw => by
        by_cases hwv : w = v
        · rw [hwv]
          exact hv
        · rw [hother w hwv]
          exact hbusy w fun hmem => (List.mem_cons.mp hmem).elim hwv hw
      exact ⟨hend, hframe.trans hframe', hall⟩
  exact hloop _ s hs fun w hw => absurd (List.mem_finRange w) hw

theorem Inv.dispatching (hs : Inv cfg s) {r : RunDescriptor m} (hsched : Scheduled r s)
    (hsynced : s.place.synced = true) : Dispatching cfg r { s with place := .head } where
  owned := hs.master.owned
  single := hs.master.single
  scheduled := hsched.congr rfl rfl rfl rfl rfl
  inFlight := hs.nodes.inFlight
  requests := hs.nodes.requests
  synced := hs.nodes.synced hsynced

/-- The head of the loop, with no worker that has only pending tasks. -/
theorem Dispatching.inv_head {r : RunDescriptor m} (hs : Dispatching cfg r s)
    (hplace : s.place = .head) (hrun : s.currentRun = some r) (hassigned : s.shardsAssigned = true)
    (hserved : ∀ t ∈ allShards cfg, ∃ w, t ∈ (s.workers w).shards)
    (hsettled : ∀ w, (s.nodes w).assigning = none ∧ (s.nodes w).acks = 0)
    (hbusy : ∀ w, Busy (s.workers w)) : Inv cfg s where
  master :=
    { owned := hs.owned
      single := hs.single
      assigned := fun _ => hserved
      unassigned := fun h => absurd hassigned (Bool.eq_false_iff.mp h)
      caller := by rw [hplace]; nofun
      quiet := by rw [hplace]; nofun
      scheduled := fun _ => ⟨r, hrun, hs.scheduled⟩
      preparing := by rw [hplace]; nofun
      restoring := by rw [hplace]; nofun
      idle := by rw [hplace]; nofun
      done := by rw [hplace]; nofun
      dispatch := by rw [hplace]; nofun
      head := fun _ => hbusy }
  nodes :=
    { inFlight := hs.inFlight
      requests := hs.requests
      synced := fun _ => hs.synced
      settled := fun _ => hsettled
      waiting := by rw [hplace]; nofun }

theorem Inv.dispatchWork (hs : Inv cfg s) {r : RunDescriptor m} (hrun : s.currentRun = some r)
    (hassigned : s.shardsAssigned = true) (hsched : Scheduled r s) (hsynced : s.place.synced = true)
    (hwaiting : s.place.waiting = false) :
    Inv cfg (dispatchWork r.table { s with place := .head }) := by
  obtain ⟨hend, hframe, hbusy⟩ := dispatchWork_spec (hs.dispatching hsched hsynced)
  refine hend.inv_head hframe.place (hframe.currentRun.trans hrun)
    (hframe.shardsAssigned.trans hassigned) (fun t ht => ?_) (fun w => ?_) hbusy
  · obtain ⟨w, hw⟩ := hs.master.assigned hassigned t ht
    exact ⟨w, by rwa [hframe.shards]⟩
  · rw [(hframe.settled w).1, (hframe.settled w).2]
    exact hs.nodes.settled hwaiting w

theorem advance_dispatch (hs : Inv cfg s) (hplace : s.place = .dispatch) (size : Taskid m → ℤ)
    (worth : Bool) : EndsIn (Refused cfg) (Inv cfg) (s.advance cfg size worth) := by
  obtain ⟨hassigned, r, hrun, hsched⟩ := hs.master.inBarrier (by rw [hplace]; rfl)
  have hzero := hs.master.dispatch hplace
  have hstart : ({ s with place := .head, dispatched := 0 } : Cluster n m) =
      { s with place := .head } := by rw [← hzero]
  have hend := hs.dispatchWork hrun hassigned hsched (by rw [hplace]; rfl) (by rw [hplace]; rfl)
  rw [← hstart] at hend
  simp only [advance, hplace]
  split
  next hnone => cases hrun.symm.trans hnone
  next r' hr' =>
    obtain rfl : r = r' := Option.some.inj (hrun.symm.trans hr')
    exact hend

/-! ### The end of the loop -/

/-- The tasks of a run are those of its distinct shards. -/
theorem Scheduled.sum_length {r : RunDescriptor m} (hsched : Scheduled r s)
    (howned : Owned cfg s.workers) :
    ∑ w, (s.workers w).work.length = r.shards.toFinset.card := by
  let ids (w : Fin n) : Finset (Taskid m) := ((s.workers w).work.map TaskState.id).toFinset
  have hcard : ∀ w, (ids w).card = (s.workers w).work.length := by
    intro w
    rw [List.toFinset_card_of_nodup (howned.keyed w), List.length_map]
  -- the tasks of the workers are those of the run, each on one worker
  have hunion : Finset.univ.biUnion ids = r.shards.toFinset.image (Taskid.mk r.table) := by
    ext t
    have htasks := hsched.tasks t
    simp only [Finset.mem_biUnion, Finset.mem_univ, true_and, List.mem_toFinset, List.mem_map,
      Finset.mem_image, ids, htasks]
    constructor
    · rintro ⟨htable, hshard⟩
      exact ⟨t.shard, hshard, by rw [← htable]⟩
    · rintro ⟨shard, hshard, rfl⟩
      exact ⟨rfl, hshard⟩
  have hdisjoint : ∀ u ∈ Finset.univ, ∀ v ∈ Finset.univ, u ≠ v → Disjoint (ids u) (ids v) := by
    intro u _ v _ huv
    rw [Finset.disjoint_left]
    intro t hu hv
    simp only [ids, List.mem_toFinset, List.mem_map] at hu hv
    obtain ⟨a, ha, rfl⟩ := hu
    obtain ⟨b, hb, hid⟩ := hv
    exact huv (howned.eq_of_mem ha hb hid.symm).1
  calc ∑ w, (s.workers w).work.length = ∑ w, (ids w).card :=
        Finset.sum_congr rfl fun w _ => (hcard w).symm
    _ = (Finset.univ.biUnion ids).card := (Finset.card_biUnion hdisjoint).symm
    _ = r.shards.toFinset.card := by
        rw [hunion]
        exact Finset.card_image_of_injective _ fun a b hab => congrArg Taskid.shard hab

/-- The counters and the tasks that are not finished add up to the distinct shards. -/
theorem Scheduled.counters {r : RunDescriptor m} (hsched : Scheduled r s)
    (howned : Owned cfg s.workers) :
    ∑ w, (s.workers w).numPending + s.dispatched = r.shards.toFinset.card ∧
      ∑ w, ((s.workers w).numPending + (s.workers w).numActive) + s.finished =
        r.shards.toFinset.card := by
  have hall := hsched.sum_length howned
  simp only [length_work, Finset.sum_add_distrib] at hall
  have hdispatched := hsched.dispatched
  have hfinished := hsched.finished
  rw [Finset.sum_add_distrib] at hdispatched
  rw [Finset.sum_add_distrib]
  omega

theorem advance_redispatch (hs : Inv cfg s) (hplace : s.place = .redispatch) (size : Taskid m → ℤ)
    (worth : Bool) : EndsIn (Refused cfg) (Inv cfg) (s.advance cfg size worth) := by
  obtain ⟨hassigned, r, hrun, hsched⟩ := hs.master.inBarrier (by rw [hplace]; rfl)
  simp only [advance, hplace]
  split
  next hnone => cases hrun.symm.trans hnone
  next r' hr' =>
    obtain rfl : r = r' := Option.some.inj (hrun.symm.trans hr')
    split_ifs with hmore
    · exact hs.dispatchWork hrun hassigned hsched (by rw [hplace]; rfl) (by rw [hplace]; rfl)
    · have hle := List.toFinset_card_le r.shards
      have hcounters := (hsched.counters hs.master.owned).1
      have hnone : ∑ w, (s.workers w).numPending = 0 := by omega
      have hhead := hs.dispatching hsched (by rw [hplace]; rfl)
      refine hhead.inv_head rfl hrun hassigned (hs.master.assigned hassigned)
        (hs.nodes.settled (by rw [hplace]; rfl)) fun w hpending => ?_
      exact absurd (Finset.sum_eq_zero_iff.mp hnone w (Finset.mem_univ w)) hpending.ne'

theorem advance_head (hs : Inv cfg s) (hplace : s.place = .head) (size : Taskid m → ℤ)
    (worth : Bool) : EndsIn (Refused cfg) (Inv cfg) (s.advance cfg size worth) := by
  obtain ⟨hassigned, r, hrun, hsched⟩ := hs.master.inBarrier (by rw [hplace]; rfl)
  simp only [advance, hplace]
  split_ifs with hmore
  · exact hs
  · have hshards : s.shards = r.shards := by rw [shards, hrun]; rfl
    rw [hshards] at hmore
    have hle := List.toFinset_card_le r.shards
    have hcounters := (hsched.counters hs.master.owned).2
    -- as many tasks are finished as there are shards, so none is pending or active
    have hopen : ∑ w, ((s.workers w).numPending + (s.workers w).numActive) = 0 := by omega
    have hfinished : ∀ w, ∀ task ∈ (s.workers w).work, task.status = .finished := by
      intro w task htask
      have hzero := Finset.sum_eq_zero_iff.mp hopen w (Finset.mem_univ w)
      have hpending := List.countP_eq_zero.mp (Nat.eq_zero_of_add_eq_zero_right hzero) task htask
      have hactive := List.countP_eq_zero.mp (Nat.eq_zero_of_add_eq_zero_left hzero) task htask
      rw [decide_eq_true_iff] at hpending hactive
      cases hstatus : task.status with
      | pending => exact absurd hstatus hpending
      | active => exact absurd hstatus hactive
      | finished => rfl
    refine ⟨⟨hs.master.owned, hs.master.single, hs.master.assigned,
      fun h => absurd hassigned (Bool.eq_false_iff.mp h), nofun, fun _ w task htask => ?_, nofun,
      nofun, nofun, fun _ => ?_, fun _ r' hr' => ?_, nofun, nofun⟩, ?_⟩
    · rw [hfinished w task htask]
      nofun
    · change s.shards.length = s.finished
      rw [hshards]
      omega
    · obtain rfl : r = r' := Option.some.inj (hrun.symm.trans hr')
      exact ⟨hsched.congr rfl rfl rfl rfl rfl, hfinished⟩
    · exact hs.nodes.congr rfl rfl (fun _ => by rw [hplace]; rfl) (by rw [hplace]; rfl) rfl

/-! ### Replies and stealing -/

/-- A reply is for the active task of its worker, which therefore passes the checks of
`set_finished`. -/
theorem setFinished_of_active {ws : WorkerState m} {t : TaskState m} (hw : ws.Keyed)
    (ht : t ∈ ws.work)
    (hactive : t.status = .active) : ws.setFinished t.id = .ok (ws.setStatus t.id .finished) := by
  rw [WorkerState.setFinished]
  split
  next hnone =>
    have hnot := List.find?_eq_none.mp hnone t ht
    exact absurd (decide_eq_true rfl) hnot
  next u hsome =>
    have hid := List.find?_some hsome
    rw [decide_eq_true_iff] at hid
    obtain rfl := hw.eq (List.mem_of_find?_eq_some hsome) ht hid
    rw [if_pos hactive]

/-- The state after the reply for task `t` of worker `w` has been read. -/
def reapTask (w : Fin n) (t : TaskState m) (rest : List (Taskid m)) (place : Place)
    (s : Cluster n m) : Cluster n m :=
  { s.setNode w { s.nodes w with dones := rest } with
    place := place
    workers := setTask w t .finished s.workers
    finished := s.finished + 1
    reaped := s.reaped ++ [t.id] }

theorem masterInv_reapTask (hs : MasterInv cfg s) (hplace : s.place = .head) {t : TaskState m}
    (ht : t ∈ (s.workers w).work) (hactive : t.status = .active) (rest : List (Taskid m))
    {place : Place}
    (hplace' : place.quiet = false) (hdispatch : place ≠ .dispatch) (hhead : place ≠ .head) :
    MasterInv cfg (reapTask w t rest place s) := by
  obtain ⟨r, hrun, hsched⟩ := hs.scheduled (by rw [hplace]; rfl)
  refine hs.barrier (by rw [hplace]; rfl) hplace' hdispatch hhead rfl (owned_setTask hs.owned)
    (fun v => ?_) (fun id ⟨v, hv⟩ => ⟨v, (shards_setTask v).symm ▸ hv⟩) ⟨r, hrun, ?_⟩
  · obtain ⟨restWork, hbefore, hafter⟩ := WorkerState.setStatus_perm (hs.owned.keyed w) ht .finished
    have hcount := (counts_of_perm hbefore hafter).1
    refine (Function.forall_update_iff s.workers fun _ w => w.numActive ≤ 1).mpr
      ⟨?_, fun v _ => hs.single v⟩ v
    have hbound := hs.single w
    rw [if_pos hactive, if_neg nofun] at hcount
    omega
  · refine hsched.setTask hs.owned ht rfl ?_ ?_ (fun id => ?_) fun id => ?_
    · simp [reapTask, hactive, setNode]
    · simp [reapTask, hactive]
    · simp [reapTask, hactive, setNode]
    · by_cases hid : id = t.id
      · simp [reapTask, hactive, hid]
      · simp [reapTask, hactive, hid, List.count_append, Ne.symm hid]

theorem nodeInv_reapTask (hs : Inv cfg s) (hplace : s.place = .head) {t : TaskState m}
    (ht : t ∈ (s.workers w).work) (hactive : t.status = .active) {rest : List (Taskid m)}
    (hflight : (s.nodes w).inFlight.Perm
      (t.id :: ({ s.nodes w with dones := rest } : Node n m).inFlight))
    {place : Place} (hplace' : place.waiting = false) :
    NodeInv (reapTask w t rest place s) where
  inFlight v := by
    obtain ⟨ids, hbefore, hafter⟩ := activeIds_setTask hs.master.owned ht .finished
    rw [if_pos hactive] at hbefore
    rw [if_neg nofun] at hafter
    dsimp only [reapTask, setNode]
    by_cases hv : v = w
    · subst hv
      have hrest : ({ s.nodes v with dones := rest } : Node n m).inFlight.Perm ids :=
        (hflight.symm.trans ((hs.nodes.inFlight v).trans hbefore)).cons_inv
      rw [Function.update_self]
      exact hrest.trans hafter.symm
    · rw [setTask, Function.update_of_ne hv, Function.update_of_ne hv]
      exact hs.nodes.inFlight v
  requests := forall_setNode (fun v p => ∀ id ∈ p.requests, p.owner id = some v) hs.nodes.requests
    (hs.nodes.requests w)
  synced _ := by
    have hsynced := hs.nodes.synced (by rw [hplace]; rfl)
    have hshards : ∀ u, ((reapTask w t rest place s).workers u).shards = (s.workers u).shards :=
      shards_setTask
    simp only [hshards]
    exact forall_setNode (fun _ p => ∀ u, ∀ id ∈ (s.workers u).shards, p.owner id = some u) hsynced
      (hsynced w)
  settled _ := by
    have hsettled := hs.nodes.settled (by rw [hplace]; rfl)
    exact forall_setNode (fun _ p => p.assigning = none ∧ p.acks = 0) hsettled (hsettled w)
  waiting h := absurd h (Bool.eq_false_iff.mp hplace')

theorem step_reapOneTask (hs : Inv cfg s) (w : Fin n) (periodic : Bool) :
    EndsIn (Refused cfg) (Inv cfg) (s.reapOneTask w periodic) := by
  rw [reapOneTask]
  by_cases hcond : s.place = .head ∧ s.finished < s.shards.length
  · rw [if_pos hcond]
    split
    next => exact hs
    next id rest hdones =>
      have hflight : (s.nodes w).inFlight.Perm
          (id :: ({ s.nodes w with dones := rest } : Node n m).inFlight) := by
        rw [Node.inFlight, hdones]
        exact List.perm_middle
      have hmem : id ∈ activeIds (s.workers w).work :=
        ((hs.nodes.inFlight w).mem_iff).mp (hflight.mem_iff.mpr List.mem_cons_self)
      obtain ⟨t, ht, hactive, rfl⟩ := mem_activeIds.mp hmem
      rw [setFinished_of_active (hs.master.owned.keyed w) ht hactive]
      refine ⟨masterInv_reapTask hs.master hcond.1 ht hactive rest ?_ ?_ ?_,
        nodeInv_reapTask hs hcond.1 ht hactive hflight ?_⟩
      · cases periodic <;> rfl
      · cases periodic <;> nofun
      · cases periodic <;> nofun
      · cases periodic <;> rfl
  · rw [if_neg hcond]
    exact hs

/-- A task of a run has been stolen. -/
theorem Scheduled.moves {r : RunDescriptor m} (hsched : Scheduled r s) {dst src : Fin n}
    {task : TaskState m} {ws : Fin n → WorkerState m} (hmoves : Moves cfg dst src task s.workers ws)
    (htask : task ∈ (s.workers src).work) (hpending : task.status = .pending) (place : Place) :
    Scheduled r { s with place := place, workers := ws } where
  tasks t := by
    rw [← hsched.tasks]
    constructor
    · rintro ⟨w, u, hu, hid⟩
      obtain ⟨w', u', hu', hid', -⟩ := (hmoves.mem htask).mp ⟨w, u, hu, hid, rfl⟩
      exact ⟨w', u', hu', hid'⟩
    · rintro ⟨w, u, hu, hid⟩
      obtain ⟨w', u', hu', hid', -⟩ := (hmoves.mem htask).mpr ⟨w, u, hu, hid, rfl⟩
      exact ⟨w', u', hu', hid'⟩
  dispatched := by
    refine hsched.dispatched.trans (Finset.sum_congr rfl fun w _ => ?_)
    dsimp only
    rw [(hmoves.counts hpending w).1, (hmoves.counts hpending w).2]
  finished := by
    refine hsched.finished.trans (Finset.sum_congr rfl fun w _ => ?_)
    exact (hmoves.counts hpending w).2.symm
  sent w u hu := by
    obtain ⟨w', u', hu', hid, hstatus⟩ := (hmoves.mem htask).mp ⟨w, u, hu, rfl, rfl⟩
    rw [← hid, ← hstatus]
    exact hsched.sent w' u' hu'
  reaped w u hu := by
    obtain ⟨w', u', hu', hid, hstatus⟩ := (hmoves.mem htask).mp ⟨w, u, hu, rfl, rfl⟩
    rw [← hid, ← hstatus]
    exact hsched.reaped w' u' hu'

/-- The loop of `barrier` over the workers goes on without stealing. -/
theorem Inv.goOn (hs : Inv cfg s) {next : ℕ} {needUpdate : Bool}
    (hplace : s.place = .stealing next needUpdate) {place : Place} (hplace' : place.quiet = false)
    (hdispatch : place ≠ .dispatch) (hhead : place ≠ .head)
    (hsynced : place.synced = true → needUpdate = false) (hwaiting : place.waiting = false) :
    Inv cfg { s with place := place } := by
  obtain ⟨r, hrun, hsched⟩ := hs.master.scheduled (by rw [hplace]; rfl)
  refine ⟨hs.master.barrier (by rw [hplace]; rfl) hplace' hdispatch hhead rfl hs.master.owned
    hs.master.single (fun _ h => h) ⟨r, hrun, hsched.congr rfl rfl rfl rfl rfl⟩, ?_⟩
  refine hs.nodes.congr rfl rfl (fun h => ?_) (by rw [hplace]; rfl) hwaiting
  rw [hplace, hsynced h]
  rfl

theorem advance_stealing (hs : Inv cfg s) {next : ℕ} {needUpdate : Bool}
    (hplace : s.place = .stealing next needUpdate) (size : Taskid m → ℤ) (worth : Bool) :
    EndsIn (Refused cfg) (Inv cfg) (s.advance cfg size worth) := by
  obtain ⟨r, hrun, hsched⟩ := hs.master.scheduled (by rw [hplace]; rfl)
  have htable : ∀ w, ∀ t ∈ (s.workers w).work, t.id.table = r.table :=
    fun w t ht => ((hsched.tasks t.id).mp ⟨w, t, ht, rfl⟩).1
  simp only [advance, hplace]
  split_ifs with hnext hidle hupdate
  · obtain ⟨⟨ws, stolen⟩, hok, hend⟩ := (stealWork_spec hs.master.owned htable hidle
      worth).exists_ok
    rw [hok]
    rcases hend with heq | ⟨hstolen, src, task, -, htask, hpending, hmoves⟩
    · obtain ⟨rfl, rfl⟩ := Prod.mk.inj heq
      exact hs.goOn hplace rfl nofun nofun (by simp [Place.synced]) rfl
    · obtain rfl : stolen = true := hstolen
      refine ⟨hs.master.barrier (by rw [hplace]; rfl) rfl nofun nofun rfl hmoves.owned (fun w => ?_)
        hmoves.served ⟨r, hrun, hsched.moves hmoves htask hpending _⟩, fun w => ?_,
        hs.nodes.requests, ?_, fun _ => hs.nodes.settled (by rw [hplace]; rfl), nofun⟩
      · exact (hmoves.counts hpending w).1.symm ▸ hs.master.single w
      · refine (hs.nodes.inFlight w).trans ((hmoves.filter_perm ?_ w).map _).symm
        rw [hpending]
        nofun
      · simp [Place.synced]
  · exact hs.goOn hplace rfl nofun nofun (by simp [Place.synced]) rfl
  · exact hs.goOn hplace rfl nofun nofun nofun rfl
  · exact hs.goOn hplace rfl nofun nofun (fun _ => Bool.eq_false_iff.mpr hupdate) rfl

/-! ### Runs -/

theorem step_advance (hs : Inv cfg s) (size : Taskid m → ℤ) (worth : Bool) :
    EndsIn (Refused cfg) (Inv cfg) (s.advance cfg size worth) := by
  cases hplace : s.place with
  | idle =>
    simp only [advance, hplace]
    exact hs
  | assignTables caller => exact advance_assignTables hs hplace size worth
  | sendTables caller => exact advance_sendTables hs hplace size worth
  | waitTables caller => exact advance_waitTables hs hplace size worth
  | assignTasks => exact advance_assignTasks hs hplace size worth
  | dispatch => exact advance_dispatch hs hplace size worth
  | head => exact advance_head hs hplace size worth
  | stealing next needUpdate => exact advance_stealing hs hplace size worth
  | redispatch => exact advance_redispatch hs hplace size worth

theorem step_inv (hs : Inv cfg s) (act : Action n m) :
    EndsIn (Refused cfg) (Inv cfg) (step cfg act s) := by
  cases act with
  | restore => exact step_restore hs
  | startRun r => exact step_startRun hs r
  | advance size worth => exact step_advance hs size worth
  | reapOneTask w periodic => exact step_reapOneTask hs w periodic
  | checkReplyQueue w => exact step_checkReplyQueue hs w
  | handleShardAssignment w => exact step_handleShardAssignment hs w
  | runKernel w => exact step_runKernel hs w
  | kernelDone w => exact step_kernelDone hs w

theorem run_inv (cfg : Config n m) (acts : List (Action n m)) :
    EndsIn (Refused cfg) (Inv cfg) (run cfg acts) :=
  endsIn_forEach (I := fun _ => Inv cfg) acts (fun _ act _ _ _ hs => step_inv hs act) (inv_init cfg)

/-! ### Steps of a run -/

/-- A step of `run` after `assign_tasks`. It sends requests or reads a reply, not both. -/
structure Continues (s s' : Cluster n m) : Prop where
  place : s'.place.quiet = false ∨ s'.place = .idle
  currentRun : s'.currentRun = s.currentRun
  sent : s.sent <+: s'.sent
  reaped : s.reaped <+: s'.reaped
  one : s'.sent = s.sent ∨ s'.reaped = s.reaped

theorem Continues.of_eq {s' : Cluster n m} (hplace : s'.place.quiet = false ∨ s'.place = .idle)
    (hrun : s'.currentRun = s.currentRun) (hsent : s'.sent = s.sent)
    (hreaped : s'.reaped = s.reaped) :
    Continues s s' :=
  ⟨hplace, hrun, hsent ▸ List.prefix_rfl, hreaped ▸ List.prefix_rfl, .inl hsent⟩

theorem dispatchTo_logs (table : Fin m) (s : Cluster n m) (w : Fin n) :
    (dispatchTo table s w).place = s.place ∧ (dispatchTo table s w).currentRun = s.currentRun ∧
      s.sent <+: (dispatchTo table s w).sent ∧ (dispatchTo table s w).reaped = s.reaped := by
  rw [dispatchTo]
  split_ifs
  · split
    · exact ⟨rfl, rfl, List.prefix_rfl, rfl⟩
    · exact ⟨rfl, rfl, List.prefix_append .., rfl⟩
  · exact ⟨rfl, rfl, List.prefix_rfl, rfl⟩

theorem continues_dispatchWork (table : Fin m) {s₁ : Cluster n m} (hplace : s₁.place = .head)
    (hrun : s₁.currentRun = s.currentRun) (hsent : s₁.sent = s.sent)
    (hreaped : s₁.reaped = s.reaped) :
    Continues s (dispatchWork table s₁) := by
  have hloop : ∀ (l : List (Fin n)) (s₁ : Cluster n m),
      (l.foldl (dispatchTo table) s₁).place = s₁.place ∧
        (l.foldl (dispatchTo table) s₁).currentRun = s₁.currentRun ∧
        s₁.sent <+: (l.foldl (dispatchTo table) s₁).sent ∧
        (l.foldl (dispatchTo table) s₁).reaped = s₁.reaped := by
    intro l
    induction l with
    | nil => exact fun s₁ => ⟨rfl, rfl, List.prefix_rfl, rfl⟩
    | cons w l ih =>
      intro s₁
      obtain ⟨hplace, hrun, hsent, hreaped⟩ := dispatchTo_logs table s₁ w
      obtain ⟨hplace', hrun', hsent', hreaped'⟩ := ih (dispatchTo table s₁ w)
      exact ⟨hplace'.trans hplace, hrun'.trans hrun, hsent.trans hsent', hreaped'.trans hreaped⟩
  obtain ⟨hplace', hrun', hsent', hreaped'⟩ := hloop (List.finRange n) s₁
  have hreapedEq : (dispatchWork table s₁).reaped = s.reaped := hreaped'.trans hreaped
  refine ⟨.inl ?_, hrun'.trans hrun, hsent ▸ hsent', hreapedEq ▸ List.prefix_rfl, .inr hreapedEq⟩
  rw [dispatchWork, hplace', hplace]
  rfl

theorem continues_advance (hquiet : s.place.quiet = false) {size : Taskid m → ℤ} {worth : Bool}
    {s' : Cluster n m} (hstep : s.advance cfg size worth = .ok s') : Continues s s' := by
  have hstay : Continues s s := .of_eq (.inl hquiet) rfl rfl rfl
  rw [advance] at hstep
  split at hstep
  next hplace => cases hplace ▸ hquiet
  next hplace => cases hplace ▸ hquiet
  next caller hplace =>
    obtain rfl := Except.ok.inj hstep
    rw [hplace] at hquiet
    exact .of_eq (.inl hquiet) rfl rfl rfl
  next caller hplace =>
    obtain rfl := Except.ok.inj hstep
    split_ifs
    · have hcaller : caller = .barrier := by simpa [hplace, Place.quiet] using hquiet
      rw [hcaller]
      exact .of_eq (.inl rfl) rfl rfl rfl
    · exact hstay
  next hplace => cases hplace ▸ hquiet
  next =>
    split at hstep
    · obtain rfl := Except.ok.inj hstep
      exact hstay
    · obtain rfl := Except.ok.inj hstep
      exact continues_dispatchWork _ rfl rfl rfl rfl
  next =>
    obtain rfl := Except.ok.inj hstep
    split_ifs
    · exact hstay
    · exact .of_eq (.inr rfl) rfl rfl rfl
  next next needUpdate hplace =>
    dsimp only at hstep
    split_ifs at hstep with hnext
    · cases hsteal : stealWork cfg worth ⟨next, hnext⟩ s.workers with
      | error e =>
        rw [hsteal] at hstep
        cases hstep
      | ok r =>
        rw [hsteal] at hstep
        obtain rfl := Except.ok.inj hstep
        exact .of_eq (.inl rfl) rfl rfl rfl
    · obtain rfl := Except.ok.inj hstep
      exact .of_eq (.inl rfl) rfl rfl rfl
    · obtain rfl := Except.ok.inj hstep
      exact .of_eq (.inl rfl) rfl rfl rfl
    · obtain rfl := Except.ok.inj hstep
      exact .of_eq (.inl rfl) rfl rfl rfl
  next =>
    split at hstep
    · obtain rfl := Except.ok.inj hstep
      exact hstay
    · obtain rfl := Except.ok.inj hstep
      split_ifs
      · exact continues_dispatchWork _ rfl rfl rfl rfl
      · exact .of_eq (.inl rfl) rfl rfl rfl

theorem continues_reapOneTask (hquiet : s.place.quiet = false) {periodic : Bool} {s' : Cluster n m}
    (hstep : s.reapOneTask w periodic = .ok s') : Continues s s' := by
  have hstay : Continues s s := .of_eq (.inl hquiet) rfl rfl rfl
  rw [reapOneTask] at hstep
  by_cases hcond : s.place = .head ∧ s.finished < s.shards.length
  · rw [if_pos hcond] at hstep
    split at hstep
    · obtain rfl := Except.ok.inj hstep
      exact hstay
    · next id rest _ =>
      cases hset : (s.workers w).setFinished id with
      | error e =>
        rw [hset] at hstep
        cases hstep
      | ok state =>
        rw [hset] at hstep
        obtain rfl := Except.ok.inj hstep
        refine ⟨.inl ?_, rfl, List.prefix_rfl, List.prefix_append .., .inl rfl⟩
        cases periodic <;> rfl
  · rw [if_neg hcond] at hstep
    obtain rfl := Except.ok.inj hstep
    exact hstay

theorem continues_step (hquiet : s.place.quiet = false) {act : Action n m} {s' : Cluster n m}
    (hstep : step cfg act s = .ok s') : Continues s s' := by
  have hstay : Continues s s := .of_eq (.inl hquiet) rfl rfl rfl
  have hidle : s.place ≠ .idle := by
    intro hplace
    cases hplace ▸ hquiet
  -- in a run `restore` and `startRun` do nothing, and messages change no state of a task
  cases act with
  | restore =>
    obtain rfl := Except.ok.inj hstep
    rw [restore, if_neg fun h => hidle h.1]
    exact hstay
  | startRun r =>
    rw [step, startRun, if_neg hidle] at hstep
    obtain rfl := Except.ok.inj hstep
    exact hstay
  | advance size worth => exact continues_advance hquiet hstep
  | reapOneTask w periodic => exact continues_reapOneTask hquiet hstep
  | checkReplyQueue w =>
    obtain rfl := Except.ok.inj hstep
    rw [checkReplyQueue]
    split
    · split_ifs
      · exact hstay
      · exact .of_eq (.inl hquiet) rfl rfl rfl
    · exact hstay
  | handleShardAssignment w =>
    obtain rfl := Except.ok.inj hstep
    rw [handleShardAssignment]
    split <;> exact .of_eq (.inl hquiet) rfl rfl rfl
  | runKernel w =>
    rw [step, runKernel] at hstep
    split at hstep
    · split_ifs at hstep
      obtain rfl := Except.ok.inj hstep
      exact .of_eq (.inl hquiet) rfl rfl rfl
    · obtain rfl := Except.ok.inj hstep
      exact hstay
  | kernelDone w =>
    obtain rfl := Except.ok.inj hstep
    rw [kernelDone]
    split <;> exact .of_eq (.inl hquiet) rfl rfl rfl

/-- The states of a task before and after a step, from the messages sent and read for it. -/
theorem Continues.next {s' : Cluster n m} (hstep : Continues s s') {r : RunDescriptor m}
    (hs : Scheduled r s) (hs' : Scheduled r s') {v : Fin n} {task task' : TaskState m}
    (htask : task ∈ (s.workers v).work) (htask' : task' ∈ (s'.workers w).work)
    (hid : task'.id = task.id) : Status.Next task.status task'.status := by
  have hsent := hs.sent v task htask
  have hreaped := hs.reaped v task htask
  have hsent' := hs'.sent w task' htask'
  have hreaped' := hs'.reaped w task' htask'
  have hmoreSent := hstep.sent.sublist.count_le task.id
  have hmoreReaped := hstep.reaped.sublist.count_le task.id
  have hone : s'.sent.count task.id = s.sent.count task.id ∨
      s'.reaped.count task.id = s.reaped.count task.id :=
    hstep.one.imp (fun h => by rw [h]) fun h => by rw [h]
  rw [hid] at hsent' hreaped'
  rw [hsent', hsent] at hmoreSent hone
  rw [hreaped', hreaped] at hmoreReaped hone
  cases hold : task.status <;> cases hnew : task'.status <;>
    simp only [hold, hnew, reduceCtorEq, if_true, if_false] at hmoreSent hmoreReaped hone
  · exact .stay .pending
  · exact .dispatch
  · exact hone.elim False.elim False.elim
  · omega
  · exact .stay .active
  · exact .finish
  · omega
  · omega
  · exact .stay .finished

/-- At the head of the loop a run that is not finished has a task with a message under way. -/
theorem Inv.awaits (hs : Inv cfg s) (hplace : s.place = .head) (hnodup : s.shards.Nodup)
    (hmore : s.finished < s.shards.length) :
    ∃ w, ∃ task ∈ (s.workers w).work, task.status = .active ∧ task.id ∈ (s.nodes w).inFlight := by
  obtain ⟨r, hrun, hsched⟩ := hs.master.scheduled (by rw [hplace]; rfl)
  have hshards : s.shards = r.shards := by rw [shards, hrun]; rfl
  rw [hshards] at hnodup hmore
  have hcounters := (hsched.counters hs.master.owned).2
  rw [List.toFinset_card_of_nodup hnodup] at hcounters
  have hopen : ∑ w, ((s.workers w).numPending + (s.workers w).numActive) ≠ 0 := by omega
  obtain ⟨w, -, hw⟩ := Finset.exists_ne_zero_of_sum_ne_zero hopen
  have hactive : 0 < (s.workers w).numActive := by
    by_cases hpending : 0 < (s.workers w).numPending
    · exact hs.master.head hplace w hpending
    · omega
  obtain ⟨task, htask, hstatus⟩ := List.countP_pos_iff.mp hactive
  rw [decide_eq_true_iff] at hstatus
  refine ⟨w, task, htask, hstatus, (hs.nodes.inFlight w).mem_iff.mpr ?_⟩
  exact mem_activeIds.mpr ⟨task, htask, hstatus, rfl⟩

/-- The tasks of a run in a state `s`. Every shard of the run has one task, at one worker. It is
pending when the first requests are sent, goes on to the next state at most once in a step, and
is finished when the loop of `barrier` ends. -/
structure TasksOnce (cfg : Config n m) (s : Cluster n m) : Prop where
  single : ∀ w, (s.workers w).numActive ≤ 1
  unique : ∀ u v a b, a ∈ (s.workers u).work → b ∈ (s.workers v).work → a.id = b.id → u = v ∧ a = b
  scheduled : s.place.quiet = false → ∃ r, s.currentRun = some r ∧ Scheduled r s
  first : s.place = .dispatch → ∀ w, ∀ task ∈ (s.workers w).work, task.status = .pending
  next : s.place.quiet = false → ∀ act s', step cfg act s = .ok s' →
    (s'.place.quiet = false ∨ s'.place = .idle) ∧ s'.currentRun = s.currentRun ∧
      ∀ v w, ∀ task ∈ (s.workers v).work, ∀ task' ∈ (s'.workers w).work, task'.id = task.id →
        Status.Next task.status task'.status
  busy : s.place = .head → ∀ w, 0 < (s.workers w).numPending → 0 < (s.workers w).numActive
  awaits : s.place = .head → s.shards.Nodup → s.finished < s.shards.length →
    ∃ w, ∃ task ∈ (s.workers w).work, task.status = .active ∧ task.id ∈ (s.nodes w).inFlight
  done : s.place = .idle → ∀ r, s.currentRun = some r →
    Scheduled r s ∧ ∀ w, ∀ task ∈ (s.workers w).work, task.status = .finished

theorem Inv.scheduled_next (hs : Inv cfg s) {r : RunDescriptor m} (hrun : s.currentRun = some r)
    (hplace : s.place.quiet = false ∨ s.place = .idle) : Scheduled r s := by
  rcases hplace with hquiet | hidle
  · obtain ⟨r', hr', hsched⟩ := hs.master.scheduled hquiet
    obtain rfl : r = r' := Option.some.inj (hrun.symm.trans hr')
    exact hsched
  · exact (hs.master.done hidle r hrun).1

theorem Inv.tasksOnce (hs : Inv cfg s) : TasksOnce cfg s where
  single := hs.master.single
  unique _ _ _ _ ha hb hid := hs.master.owned.eq_of_mem ha hb hid
  scheduled := hs.master.scheduled
  first hplace w task htask := by
    obtain ⟨r, -, hsched⟩ := hs.master.scheduled (by rw [hplace]; rfl)
    have hnone := hsched.dispatched.symm.trans (hs.master.dispatch hplace)
    have hw := Finset.sum_eq_zero_iff.mp hnone w (Finset.mem_univ w)
    have hactive := List.countP_eq_zero.mp (Nat.eq_zero_of_add_eq_zero_right hw) task htask
    have hfinished := List.countP_eq_zero.mp (Nat.eq_zero_of_add_eq_zero_left hw) task htask
    rw [decide_eq_true_iff] at hactive hfinished
    cases hstatus : task.status with
    | pending => rfl
    | active => exact absurd hstatus hactive
    | finished => exact absurd hstatus hfinished
  next hquiet act s' hstep := by
    have hcontinues := continues_step hquiet hstep
    obtain ⟨r, hrun, hsched⟩ := hs.master.scheduled hquiet
    have hs' : Inv cfg s' := by
      have hend := step_inv hs act
      rwa [hstep] at hend
    have hsched' := hs'.scheduled_next (hcontinues.currentRun.trans hrun) hcontinues.place
    exact ⟨hcontinues.place, hcontinues.currentRun, fun _ _ _ htask _ htask' hid =>
      hcontinues.next hsched hsched' htask htask' hid⟩
  busy := hs.master.head
  awaits := hs.awaits
  done := hs.master.done

/-- In every run, whatever the order of replies, stealing and dispatching, each task is
dispatched once and finished once. The counters are those of the tasks, the checks of
`set_finished` hold, and a run that is not finished awaits a reply. -/
theorem tasks_run_exactly_once (cfg : Config n m) (acts : List (Action n m)) :
    EndsIn (Refused cfg) (TasksOnce cfg) (run cfg acts) :=
  (run_inv cfg acts).imp fun _ hs => hs.tasksOnce

/-- A run over three shards of `table` with the workers `u` and `v`. After its first reply `v`
steals shard 2. -/
def stealingRun (table : Fin m) (u v : Fin n) : List (Action n m) :=
  let go : Action n m := .advance (fun _ => 0) true
  let sendTables : List (Action n m) :=
    go :: (List.replicate 4 [.handleShardAssignment u, .handleShardAssignment v]).flatten ++
      [.checkReplyQueue v, .checkReplyQueue u, go]
  [.startRun ⟨table, [0, 1, 2]⟩, go] ++ sendTables ++
    [go, go, .runKernel v, .kernelDone v, .reapOneTask v true, go, go, go] ++ sendTables ++
    [go, .runKernel u, .runKernel v, .kernelDone v, .reapOneTask v false, go, .kernelDone u,
      .reapOneTask u false, go, go]

example : ((run (⟨fun _ => 3, fun _ => true⟩ : Config 2 1) (stealingRun 0 0 1)).map fun s =>
      (s.place, s.sent, s.reaped)) =
    .ok (.idle, [⟨0, 0⟩, ⟨0, 1⟩, ⟨0, 2⟩], [⟨0, 1⟩, ⟨0, 2⟩, ⟨0, 0⟩]) := rfl

/-- The shards of the workers in a state `s`, and the kernels that are under way. -/
structure ShardsOwned (cfg : Config n m) (s : Cluster n m) : Prop where
  unique : ∀ t u v, t ∈ (s.workers u).shards → t ∈ (s.workers v).shards → u = v
  served : s.shardsAssigned = true → ∀ t : Taskid m, t.shard < cfg.numShards t.table →
    ∃! w, t ∈ (s.workers w).shards
  together : ∀ (t t' : Taskid m) u v, t.shard = t'.shard → t ∈ (s.workers u).shards →
    t' ∈ (s.workers v).shards → u = v
  held : ∀ w, ∀ task ∈ (s.workers w).work, task.id ∈ (s.workers w).shards
  known : ∀ w, ∀ t ∈ (s.nodes w).requests, (s.nodes w).owner t = some w
  inFlight : ∀ w, ∀ t ∈ (s.nodes w).inFlight, t ∈ (s.workers w).shards

theorem Inv.shardsOwned (hs : Inv cfg s) : ShardsOwned cfg s where
  unique _ _ _ hu hv := hs.master.owned.unique hu hv
  served hassigned t ht := by
    obtain ⟨w, hw⟩ := hs.master.assigned hassigned t (mem_allShards.mpr ht)
    exact ⟨w, hw, fun v hv => hs.master.owned.unique hv hw⟩
  together t t' u v hshard hu hv := by
    have hboth : t' ∈ (s.workers u).shards :=
      hs.master.owned.together hu hshard.symm (hs.master.owned.valid hv)
    exact hs.master.owned.unique hboth hv
  held _ _ htask := hs.master.owned.held htask
  known := hs.nodes.requests
  inFlight w t ht := by
    obtain ⟨task, htask, -, rfl⟩ := mem_activeIds.mp ((hs.nodes.inFlight w).mem_iff.mp ht)
    exact hs.master.owned.held htask

/-- In every run a shard has one worker, and no worker reads a request for a shard that it does
not own. -/
theorem shards_owned_uniquely (cfg : Config n m) (acts : List (Action n m)) :
    EndsIn (Refused cfg) (ShardsOwned cfg) (run cfg acts) :=
  (run_inv cfg acts).imp fun _ hs => hs.shardsOwned

end Cluster

end MaiterStore.Scheduler
