/-
# The scheduler of the master

The master keeps, for each worker, the shards it serves and its tasks of the current run
(`WorkerState` in `master/master.cc`). `Master::run` assigns all tables before the first run,
makes a task for each shard of the run and dispatches them, one at a time to a worker.
`Master::barrier` reads the replies. After a reply it may let idle workers steal pending
tasks, which moves a shard number of all tables to another worker, and then dispatches again.
A worker learns the owners from the broadcast of `send_table_assignments`, and aborts on a
kernel request for a shard of another worker (`KernelLoop` in `worker/worker.cc`).

What depends on times and sizes (when stealing is tried and whether it pays off, which task
is the largest) is chosen freely. `std::map` and `std::set` are lists in the order of the keys.
-/

import Mathlib.Data.List.Sort
import Mathlib.Data.List.FinRange
import MaiterStore.CS.Run

namespace MaiterStore.Scheduler

open CS.Run

/-! ## Tasks -/

@[ext]
structure Taskid (m : ℕ) where
  table : Fin m
  shard : ℕ
  deriving DecidableEq, Repr

/-- The negation of `operator<` with the arguments the other way. -/
def Taskid.le {m : ℕ} (a b : Taskid m) : Prop :=
  ¬ (b.table < a.table ∨ b.table = a.table ∧ b.shard < a.shard)

instance {m : ℕ} : DecidableRel (Taskid.le (m := m)) := fun _ _ => inferInstanceAs (Decidable (¬ _))

inductive Status
  | pending
  | active
  | finished
  deriving DecidableEq, Repr

structure TaskState (m : ℕ) where
  id : Taskid m
  status : Status
  size : ℤ
  stolen : Bool
  deriving DecidableEq, Repr

/-- `TaskState(id, size)`. -/
def TaskState.new {m : ℕ} (id : Taskid m) (size : ℤ) : TaskState m := ⟨id, .pending, size, false⟩

/-- `WeightCompare(a, b)`. -/
def TaskState.weightCompare {m : ℕ} (a b : TaskState m) : Bool :=
  a.stolen && !b.stolen || a.size < b.size

/-- `std::max_element`, or `none` for the end of an empty range. -/
def maxElement {A : Type*} (comp : A → A → Bool) : List A → Option A
  | [] => none
  | a :: as => some (as.foldl (fun best b => if comp best b then b else best) a)

/-- What stops the master or a worker. -/
inductive Abort (m : ℕ)
  /-- `CHECK(best != NULL) << "Ran out of workers! ..."` -/
  | ranOutOfWorkers
  /-- The size of a shard that the table does not have is read. -/
  | outOfRange (id : Taskid m)
  /-- `CHECK(work.find(id) != work.end())` in `set_finished`. -/
  | notAssigned (id : Taskid m)
  /-- `CHECK(t->status == TaskState::ACTIVE)` in `set_finished`. -/
  | notActive (id : Taskid m)
  /-- `shards.erase(shards.end())` -/
  | eraseEnd (id : Taskid m)
  /-- `CHECK_EQ(current_run_.shards.size(), finished_)` in `run`. -/
  | notFinished
  /-- `LOG(FATAL) << "Received a shard I can't work on! : " ...` -/
  | cannotWorkOn (id : Taskid m)
  deriving DecidableEq, Repr

/-! ## `WorkerState` -/

structure WorkerState (m : ℕ) where
  work : List (TaskState m)
  shards : List (Taskid m)
  deriving DecidableEq, Repr

namespace WorkerState

variable {m : ℕ}

/-- `pending()`. -/
def pending (w : WorkerState m) : List (TaskState m) := w.work.filter fun t => t.status = .pending

def numPending (w : WorkerState m) : ℕ := w.work.countP fun t => t.status = .pending

def numActive (w : WorkerState m) : ℕ := w.work.countP fun t => t.status = .active

def numFinished (w : WorkerState m) : ℕ := w.work.countP fun t => t.status = .finished

/-- `serves(id)`. -/
def serves (id : Taskid m) (w : WorkerState m) : Bool := id ∈ w.shards

/-- A round of the loop of `assign_shard`. -/
def assignShardOf (numShards : Fin m → ℕ) (shard : ℕ) (shouldService : Bool) (table : Fin m)
    (w : WorkerState m) : Except (Abort m) (WorkerState m) :=
  if shard < numShards table then
    let t : Taskid m := ⟨table, shard⟩
    if shouldService then
      .ok { w with shards := if t ∈ w.shards then w.shards else w.shards.orderedInsert Taskid.le t }
    else if t ∈ w.shards then .ok { w with shards := w.shards.erase t }
    else .error (.eraseEnd t)
  else .ok w

/-- `assign_shard(shard, should_service)`. -/
def assignShard (numShards : Fin m → ℕ) (shard : ℕ) (shouldService : Bool) (w : WorkerState m) :
    Except (Abort m) (WorkerState m) :=
  forEach (assignShardOf numShards shard shouldService) (List.finRange m) w

/-- `assign_task(s)`. -/
def assignTask (s : TaskState m) (w : WorkerState m) : WorkerState m :=
  { w with work :=
      if s.id ∈ w.work.map TaskState.id then w.work.map fun t => if t.id = s.id then s else t
      else w.work.orderedInsert (fun a b => Taskid.le a.id b.id) s }

/-- `remove_task(s)`. -/
def removeTask (s : TaskState m) (w : WorkerState m) : WorkerState m :=
  { w with work := w.work.eraseP fun t => t.id = s.id }

/-- `clear_tasks()`. -/
def clearTasks (w : WorkerState m) : WorkerState m := { w with work := [] }

/-- The task `id` with another status. -/
def setStatus (id : Taskid m) (status : Status) (w : WorkerState m) : WorkerState m :=
  { w with work := w.work.map fun t => if t.id = id then { t with status := status } else t }

/-- `set_finished(id)`. -/
def setFinished (id : Taskid m) (w : WorkerState m) : Except (Abort m) (WorkerState m) :=
  match w.work.find? fun t => t.id = id with
  | none => .error (.notAssigned id)
  | some t => if t.status = .active then .ok (w.setStatus id .finished) else .error (.notActive id)

/-- `get_next(r, msg)`, with the table of `r`. -/
def getNext (table : Fin m) (w : WorkerState m) : Option (Taskid m × WorkerState m) :=
  (maxElement TaskState.weightCompare w.pending).map fun best =>
    (⟨table, best.id.shard⟩, w.setStatus best.id .active)

end WorkerState

/-! ## The master -/

/-- The tables and the workers. A dead worker takes no new shards. -/
structure Config (n m : ℕ) where
  numShards : Fin m → ℕ
  alive : Fin n → Bool

/-- `table` and `shards` of a `RunDescriptor`. -/
structure RunDescriptor (m : ℕ) where
  table : Fin m
  shards : List ℕ
  deriving DecidableEq, Repr

section Master

variable {n m : ℕ} (cfg : Config n m)

/-- `worker_for_shard(table, shard)`. -/
def workerForShard (id : Taskid m) (ws : Fin n → WorkerState m) : Option (Fin n) :=
  (List.finRange n).find? fun i => (ws i).serves id

/-- The loop of `assign_worker` over the workers. -/
def leastShards (ws : Fin n → WorkerState m) : Option (Fin n) :=
  (List.finRange n).foldl (fun best i =>
    if cfg.alive i && best.all fun b => (ws i).shards.length < (ws b).shards.length then some i
    else best) none

/-- `assign_worker(table, shard)`, where `size` says what `shard_size` returns. -/
def assignWorker (size : Taskid m → ℤ) (id : Taskid m) (ws : Fin n → WorkerState m) :
    Except (Abort m) (Fin n → WorkerState m) :=
  if cfg.numShards id.table ≤ id.shard then .error (.outOfRange id)
  else
    match workerForShard id ws with
    | some w => .ok (Function.update ws w ((ws w).assignTask (.new id (size id))))
    | none =>
      match leastShards cfg ws with
      | none => .error .ranOutOfWorkers
      | some best =>
        ((ws best).assignShard cfg.numShards id.shard true).map fun w =>
          Function.update ws best (w.assignTask (.new id (size id)))

/-- The shards of all tables, as the loops of `assign_tables` go through them. -/
def allShards : List (Taskid m) :=
  (List.finRange m).flatMap fun table => (List.range (cfg.numShards table)).map (Taskid.mk table)

/-- `assign_tables()`. -/
def assignTables (size : Taskid m → ℤ) (ws : Fin n → WorkerState m) :
    Except (Abort m) (Fin n → WorkerState m) :=
  forEach (assignWorker cfg size) (allShards cfg) ws

/-- `assign_tasks(r, shards)`. -/
def assignTasks (size : Taskid m → ℤ) (r : RunDescriptor m) (ws : Fin n → WorkerState m) :
    Except (Abort m) (Fin n → WorkerState m) :=
  forEach (fun shard => assignWorker cfg size ⟨r.table, shard⟩) r.shards fun i => (ws i).clearTasks

/-- The end of `steal_work`: `task` goes from `src` to `dst`. -/
def moveTask (dst src : Fin n) (task : TaskState m) (ws : Fin n → WorkerState m) :
    Except (Abort m) (Fin n → WorkerState m) :=
  ((ws dst).assignShard cfg.numShards task.id.shard true).bind fun w =>
    let ws := Function.update ws dst w
    ((ws src).assignShard cfg.numShards task.id.shard false).map fun w =>
      let ws := Function.update ws src (w.removeTask task)
      Function.update ws dst ((ws dst).assignTask { task with stolen := true })

/-- `steal_work(r, idle_worker, avg_completion_time)`, where `worth` says whether stealing is
enabled and pays off. It returns whether a task has been stolen. -/
def stealWork (worth : Bool) (dst : Fin n) (ws : Fin n → WorkerState m) :
    Except (Abort m) ((Fin n → WorkerState m) × Bool) :=
  if !cfg.alive dst then .ok (ws, false)
  else
    match maxElement (fun a b => (ws a).numPending < (ws b).numPending) (List.finRange n) with
    | none => .ok (ws, false)
    | some src =>
      match maxElement TaskState.weightCompare (ws src).pending with
      -- `src.num_pending() == 0`
      | none => .ok (ws, false)
      | some task =>
        if task.stolen || !worth then .ok (ws, false)
        else (moveTask cfg dst src task ws).map fun ws => (ws, true)

/-- The request of `send_table_assignments()`. -/
def tableAssignments (ws : Fin n → WorkerState m) : List (Taskid m × Fin n) :=
  (List.finRange n).flatMap fun i => (ws i).shards.map fun t => (t, i)

end Master

/-! ## Master and workers -/

/-- What the master goes on with after `send_table_assignments`. -/
inductive Caller
  | restore
  | run
  | barrier
  deriving DecidableEq, Repr

/-- Where the master is. -/
inductive Place
  | idle
  | assignTables (caller : Caller)
  | sendTables (caller : Caller)
  /-- `WaitForSync` for the assignments. -/
  | waitTables (caller : Caller)
  | assignTasks
  /-- `dispatched_ = dispatch_work(current_run_)` in `run`. -/
  | dispatch
  /-- The head of the loop of `barrier`. -/
  | head
  /-- The loop of `barrier` over the workers has come to a worker. -/
  | stealing (next : ℕ) (needUpdate : Bool)
  /-- The end of the loop of `barrier`. -/
  | redispatch
  deriving DecidableEq, Repr

def Caller.next : Caller → Place
  | .restore => .idle
  | .run => .assignTasks
  | .barrier => .redispatch

/-- A worker: the assignments it has still to go through, its replies to them that the master
has not read, the owners it knows, the unread `RUN_KERNEL` messages, the kernel that runs, and
the `KERNEL_DONE` messages that the master has not read. -/
structure Node (n m : ℕ) where
  assigning : Option (List (Taskid m × Fin n))
  acks : ℕ
  owner : Taskid m → Option (Fin n)
  requests : List (Taskid m)
  running : Option (Taskid m)
  dones : List (Taskid m)

/-- The master and its workers. `count` is the variable of `WaitForSync`. For the statements,
`sent` and `reaped` record the `RUN_KERNEL` messages sent and the `KERNEL_DONE` messages read
in the current run. -/
structure Cluster (n m : ℕ) where
  place : Place
  shardsAssigned : Bool
  currentRun : Option (RunDescriptor m)
  dispatched : ℕ
  finished : ℕ
  count : ℕ
  workers : Fin n → WorkerState m
  nodes : Fin n → Node n m
  sent : List (Taskid m)
  reaped : List (Taskid m)

namespace Cluster

variable {n m : ℕ}

/-- No worker knows the owner of any shard. -/
def init : Cluster n m where
  place := .idle
  shardsAssigned := false
  currentRun := none
  dispatched := 0
  finished := 0
  count := 0
  workers _ := ⟨[], []⟩
  nodes _ := ⟨none, 0, fun _ => none, [], none, []⟩
  sent := []
  reaped := []

/-- `current_run_.shards`. -/
def shards (s : Cluster n m) : List ℕ := (s.currentRun.map RunDescriptor.shards).getD []

def setNode (s : Cluster n m) (w : Fin n) (p : Node n m) : Cluster n m :=
  { s with nodes := Function.update s.nodes w p }

/-- A round of the loop of `dispatch_work`. -/
def dispatchTo (table : Fin m) (s : Cluster n m) (w : Fin n) : Cluster n m :=
  if 0 < (s.workers w).numPending ∧ (s.workers w).numActive = 0 then
    match (s.workers w).getNext table with
    | none => s
    | some (id, state) =>
      { s.setNode w { s.nodes w with requests := (s.nodes w).requests ++ [id] } with
        workers := Function.update s.workers w state
        dispatched := s.dispatched + 1
        sent := s.sent ++ [id] }
  else s

/-- `dispatched_ += dispatch_work(r)`. -/
def dispatchWork (table : Fin m) (s : Cluster n m) : Cluster n m :=
  (List.finRange n).foldl (dispatchTo table) s

/-- `restore()`, as far as it concerns the shards. -/
def restore (s : Cluster n m) : Cluster n m :=
  if s.place = .idle ∧ s.shardsAssigned = false then { s with place := .assignTables .restore }
  else s

/-- The beginning of `run(r)`. -/
def startRun (r : RunDescriptor m) (s : Cluster n m) : Except (Abort m) (Cluster n m) :=
  if s.place = .idle then
    if s.shards.length = s.finished then
      .ok { s with
        place := if s.shardsAssigned then .assignTasks else .assignTables .run
        currentRun := some r
        dispatched := 0
        finished := 0
        sent := []
        reaped := [] }
    else .error .notFinished
  else .ok s

/-- `reap_one_task()` with a message of worker `w`, where `periodic` says whether the periodic
block of `barrier` follows. -/
def reapOneTask (w : Fin n) (periodic : Bool) (s : Cluster n m) :
    Except (Abort m) (Cluster n m) :=
  if s.place = .head ∧ s.finished < s.shards.length then
    match (s.nodes w).dones with
    | [] => .ok s
    | id :: rest =>
      ((s.workers w).setFinished id).map fun state =>
        { s.setNode w { s.nodes w with dones := rest } with
          place := if periodic then .stealing 0 false else .redispatch
          workers := Function.update s.workers w state
          finished := s.finished + 1
          reaped := s.reaped ++ [id] }
  else .ok s

/-- The master reads a reply of worker `w` to its assignments. -/
def checkReplyQueue (w : Fin n) (s : Cluster n m) : Cluster n m :=
  match s.place with
  | .waitTables _ =>
    if (s.nodes w).acks = 0 then s
    else { s.setNode w { s.nodes w with acks := (s.nodes w).acks - 1 } with count := s.count - 1 }
  | _ => s

section Step

variable (cfg : Config n m)

/-- The next thing the master does on its own, where `size` and `worth` say what `shard_size`
returns and whether stealing for the worker at hand is tried and pays off. -/
def advance (size : Taskid m → ℤ) (worth : Bool) (s : Cluster n m) :
    Except (Abort m) (Cluster n m) :=
  match s.place with
  | .idle => .ok s
  | .assignTables caller =>
    (assignTables cfg size s.workers).map fun ws =>
      { s with place := .sendTables caller, shardsAssigned := true, workers := ws }
  | .sendTables caller =>
    let req := tableAssignments s.workers
    .ok { s with
      place := .waitTables caller
      count := n
      nodes := fun w => { s.nodes w with assigning := some req } }
  | .waitTables caller => .ok (if s.count = 0 then { s with place := caller.next } else s)
  | .assignTasks =>
    match s.currentRun with
    | none => .ok s
    | some r =>
      (assignTasks cfg size r s.workers).map fun ws => { s with place := .dispatch, workers := ws }
  | .dispatch =>
    match s.currentRun with
    | none => .ok s
    | some r => .ok (dispatchWork r.table { s with place := .head, dispatched := 0 })
  | .head => .ok (if s.finished < s.shards.length then s else { s with place := .idle })
  | .stealing next needUpdate =>
    if hnext : next < n then
      let w : Fin n := ⟨next, hnext⟩
      -- `idle_time()` is 0 unless all tasks of the worker are finished
      if (s.workers w).numFinished = (s.workers w).work.length then
        (stealWork cfg worth w s.workers).map fun r =>
          { s with place := .stealing (next + 1) (needUpdate || r.2), workers := r.1 }
      else .ok { s with place := .stealing (next + 1) needUpdate }
    else .ok { s with place := if needUpdate then .sendTables .barrier else .redispatch }
  | .redispatch =>
    match s.currentRun with
    | none => .ok s
    | some r =>
      .ok (if s.dispatched < r.shards.length then dispatchWork r.table { s with place := .head }
        else { s with place := .head })

/-- The network thread of worker `w` goes on with `HandleShardAssignment`, and replies at its
end. -/
def handleShardAssignment (w : Fin n) (s : Cluster n m) : Cluster n m :=
  let p := s.nodes w
  match p.assigning with
  | none => s
  | some [] => s.setNode w { p with assigning := none, acks := p.acks + 1 }
  | some ((id, new) :: rest) =>
    s.setNode w { p with assigning := some rest, owner := Function.update p.owner id (some new) }

/-- `KernelLoop` of worker `w` reads a `RUN_KERNEL`. -/
def runKernel (w : Fin n) (s : Cluster n m) : Except (Abort m) (Cluster n m) :=
  let p := s.nodes w
  match p.running, p.requests with
  | none, id :: rest =>
    if p.owner id ≠ some w then .error (.cannotWorkOn id)
    else .ok (s.setNode w { p with requests := rest, running := some id })
  | _, _ => .ok s

/-- The kernel of worker `w` returns. -/
def kernelDone (w : Fin n) (s : Cluster n m) : Cluster n m :=
  let p := s.nodes w
  match p.running with
  | none => s
  | some id => s.setNode w { p with running := none, dones := p.dones ++ [id] }

/-- What can happen next. -/
inductive Action (n m : ℕ)
  | restore
  | startRun (r : RunDescriptor m)
  | advance (size : Taskid m → ℤ) (worth : Bool)
  | reapOneTask (w : Fin n) (periodic : Bool)
  | checkReplyQueue (w : Fin n)
  | handleShardAssignment (w : Fin n)
  | runKernel (w : Fin n)
  | kernelDone (w : Fin n)

/-- One action. -/
def step : Action n m → Cluster n m → Except (Abort m) (Cluster n m)
  | .restore, s => .ok s.restore
  | .startRun r, s => s.startRun r
  | .advance size worth, s => s.advance cfg size worth
  | .reapOneTask w periodic, s => s.reapOneTask w periodic
  | .checkReplyQueue w, s => .ok (s.checkReplyQueue w)
  | .handleShardAssignment w, s => .ok (s.handleShardAssignment w)
  | .runKernel w, s => s.runKernel w
  | .kernelDone w, s => .ok (s.kernelDone w)

/-- A run of the system. -/
def run (acts : List (Action n m)) : Except (Abort m) (Cluster n m) := forEach (step cfg) acts init

end Step

end Cluster

end MaiterStore.Scheduler
