/-
# Rolling checkpoints and the tables

A worker that starts a rolling checkpoint writes its tables to disk before it sends its markers
(`StartCheckpoint` in `worker/worker.cc`). `MutableGlobalTableBase::start_checkpoint`
(`kernel/global-table.cc`) goes over the local shards. All partitions are delta tables until
`InitStateTable` makes the local ones state tables. A delta table is written, and the serializer of
a state table aborts.

So a checkpoint is possible only before the tables have been initialised. Later a worker stops in
its first one, with the new epoch noted and no marker sent, and the master waits for its reply for
ever.
-/

import MaiterStore.Kernel.GlobalTable
import MaiterStore.Kernel.LocalTable
import MaiterStore.Master.Restore
import MaiterStore.Master.RollingCheckpoint

namespace MaiterStore

open CS.LinearProbing CS.Run

section Tables

variable {K V D : Type*}

/-! ## The tables of a worker -/

/-- `DeltaTable::serializeToFile(out)`. -/
def DeltaTable.serializeToFile (m : Marshals K V D) (t : DeltaTable K V) :
    Except (Fault K) (List Bytes) :=
  serializeLoop m (fun file k v1 => writeEntryToFile file ⟨k, v1, [], []⟩) t (t.size_ + 1)
    (seek t (t.size_ + 1) 0) []

/-- A local shard, with the path of its open `delta_file_` and what has been written to it, and the
flag `terminated_`. -/
structure Shard (K V D : Type*) where
  partition : Partition K V D
  deltaFile : Option (String × List Bytes)
  terminated : Bool

/-- A table of the registry. Those that are not read-only have local shards. -/
inductive RegisteredTable (K V D : Type*)
  | readOnly
  | mutable (numShards : ℕ) (shards : ℕ → Option (Shard K V D))

/-- `TableRegistry::Map`. -/
abbrev Registry (K V D : Type*) := List (ℕ × RegisteredTable K V D)

/-- `LocalTable::start_checkpoint(f)`. -/
def Shard.startCheckpoint (m : Marshals K V D) (noChange : ℕ → LocalTable K V D → Bool) (f : String)
    (shard : Shard K V D) (disk : Disk) : Except (Fault K) (Shard K V D × Disk) :=
  match shard.partition with
  | .state t =>
    (LocalTable.startCheckpoint m noChange f ⟨t, shard.deltaFile, shard.terminated⟩ disk).map
      fun r => (⟨.state r.1.table, r.1.deltaFile, r.1.terminated⟩, r.2)
  | .delta t =>
    (t.serializeToFile m).map fun file =>
      ({ shard with deltaFile := some (f ++ ".delta", []) }, Function.update disk f (some file))

/-- `LocalTable::finish_checkpoint()`. -/
def Shard.finishCheckpoint (shard : Shard K V D) (disk : Disk) : Shard K V D × Disk :=
  match shard.deltaFile with
  | none => (shard, disk)
  | some (path, file) => ({ shard with deltaFile := none }, Function.update disk path (some file))

/-- `"%s/epoch_%05d/checkpoint.table-%d"`. -/
def checkpointFile (dir : String) (epoch id : ℕ) : String :=
  dir ++ "/epoch_" ++ String.ofList (printEpoch epoch) ++ "/checkpoint.table-" ++ toString id

/-- `f + ".%05d-of-%05d"`. -/
def shardFile (f : String) (i numShards : ℕ) : String :=
  f ++ "." ++ String.ofList (printEpoch i) ++ "-of-" ++ String.ofList (printEpoch numShards)

section Start

variable (m : Marshals K V D) (noChange : ℕ → LocalTable K V D → Bool)

/-- The body of the loop of `MutableGlobalTableBase::start_checkpoint(f)`. -/
def startShard (f : String) (numShards i : ℕ) (st : (ℕ → Option (Shard K V D)) × Disk) :
    Except (Fault K) ((ℕ → Option (Shard K V D)) × Disk) :=
  match st.1 i with
  | none => .ok st
  | some shard =>
    (shard.startCheckpoint m noChange (shardFile f i numShards) st.2).map fun r =>
      (Function.update st.1 i (some r.1), r.2)

/-- `t->start_checkpoint(f)` in the table part, with the check that `t` is not read-only. -/
def RegisteredTable.startCheckpoint (f : String) (table : RegisteredTable K V D) (disk : Disk) :
    Except (Fault K) (RegisteredTable K V D × Disk) :=
  match table with
  -- `CHECK(t != NULL) << "Tried to checkpoint a read-only table?"`
  | .readOnly => .error .nullPointer
  | .mutable numShards shards =>
    (forEach (startShard m noChange f numShards) (List.range numShards) (shards, disk)).map
      fun st => (.mutable numShards st.1, st.2)

/-- The table part of `StartCheckpoint`, over the tables in `checkpoint_tables_`. -/
def tablePart (dir : String) (epoch : ℕ) (ids : List ℕ) :
    Registry K V D → Disk → Except (Fault K) (Registry K V D × Disk)
  | [], disk => .ok ([], disk)
  | (id, table) :: rest, disk =>
    (if id ∈ ids then table.startCheckpoint m noChange (checkpointFile dir epoch id) disk
      else .ok (table, disk)).bind fun r =>
      (tablePart dir epoch ids rest r.2).map fun r' => ((id, r.1) :: r'.1, r'.2)

end Start

/-- `t->finish_checkpoint()`. -/
def RegisteredTable.finishCheckpoint (table : RegisteredTable K V D) (disk : Disk) :
    RegisteredTable K V D × Disk :=
  match table with
  | .readOnly => (.readOnly, disk)
  | .mutable numShards shards =>
    let st := (List.range numShards).foldl (fun st i =>
      match st.1 i with
      | none => st
      | some shard =>
        let r := shard.finishCheckpoint st.2
        (Function.update st.1 i (some r.1), r.2)) (shards, disk)
    (.mutable numShards st.1, st.2)

/-- The loop of `FinishCheckpoint`. -/
def finishTables : Registry K V D → Disk → Registry K V D × Disk
  | [], disk => ([], disk)
  | (id, table) :: rest, disk =>
    let r := table.finishCheckpoint disk
    let r' := finishTables rest r.2
    ((id, r.1) :: r'.1, r'.2)

/-! ## When the table part returns -/

def Partition.IsDelta : Partition K V D → Prop
  | .state _ => False
  | .delta _ => True

/-- No local shard is in a state table. -/
def RegisteredTable.Writable : RegisteredTable K V D → Prop
  | .readOnly => False
  | .mutable numShards shards => ∀ i < numShards, ∀ shard ∈ shards i, shard.partition.IsDelta

/-- The tables with these ids can be written. -/
def Registry.Writable (ids : List ℕ) (tables : Registry K V D) : Prop :=
  ∀ entry ∈ tables, entry.1 ∈ ids → entry.2.Writable

theorem DeltaTable.serializeToFile_eq (m : Marshals K V D) (t : DeltaTable K V) :
    t.serializeToFile m = .ok (t.buckets.reduceOption.foldl (fun file b =>
      writeEntryToFile file ⟨m.kmarshal.marshal b.k, m.v1marshal.marshal b.v1, [], []⟩) []) := by
  rw [serializeToFile, serializeLoop_eq m _ t _ 0 (Nat.zero_le _) (by omega), List.drop_zero]

section Writable

variable (m : Marshals K V D) (noChange : ℕ → LocalTable K V D → Bool)

/-- A shard is written exactly if it is in a delta table. -/
theorem Shard.startCheckpoint_spec (f : String) (shard : Shard K V D) (disk : Disk) :
    (∃ shard' disk', shard.startCheckpoint m noChange f disk = .ok (shard', disk') ∧
        shard'.partition = shard.partition ∧ shard.partition.IsDelta) ∨
      shard.startCheckpoint m noChange f disk = .error .nullPointer ∧
        ¬ shard.partition.IsDelta := by
  rw [startCheckpoint]
  cases hpart : shard.partition with
  | state t =>
    refine .inr ⟨?_, id⟩
    simp only [LocalTable.startCheckpoint, LocalTable.serializeToFile_eq, Except.map]
  | delta t =>
    simp only [DeltaTable.serializeToFile_eq, Except.map]
    exact .inl ⟨_, _, rfl, rfl, trivial⟩

/-- A round of the loop over the shards. It leaves the partitions as they are. -/
theorem startShard_spec (f : String) (numShards i : ℕ) (st : (ℕ → Option (Shard K V D)) × Disk) :
    (∃ st', startShard m noChange f numShards i st = .ok st' ∧
        (∀ j, (st'.1 j).map Shard.partition = (st.1 j).map Shard.partition) ∧
        ∀ part ∈ (st.1 i).map Shard.partition, part.IsDelta) ∨
      startShard m noChange f numShards i st = .error .nullPointer ∧
        ∃ part ∈ (st.1 i).map Shard.partition, ¬ part.IsDelta := by
  rw [startShard]
  cases hshard : st.1 i with
  | none => exact .inl ⟨st, rfl, fun _ => rfl, fun _ h => absurd h (Option.not_mem_none _)⟩
  | some shard =>
    rcases shard.startCheckpoint_spec m noChange (shardFile f i numShards) st.2 with
      ⟨shard', disk', hok, hsame, hdelta⟩ | ⟨herror, hstate⟩
    · refine .inl ⟨(Function.update st.1 i (some shard'), disk'), by simp only [hok, Except.map],
        fun j => ?_, ?_⟩
      · rcases eq_or_ne j i with rfl | hj
        · simp [hshard, hsame]
        · simp [hj]
      · rintro part ⟨⟩
        exact hdelta
    · exact .inr ⟨by simp only [herror, Except.map], shard.partition, rfl, hstate⟩

/-- The loop over the shards returns exactly if no local shard is in a state table. -/
theorem RegisteredTable.startCheckpoint_spec (f : String) (table : RegisteredTable K V D)
    (disk : Disk) :
    (∃ r, table.startCheckpoint m noChange f disk = .ok r) ↔ table.Writable := by
  cases table with
  | readOnly => exact iff_of_false (fun ⟨_, h⟩ => by cases h) id
  | mutable numShards shards =>
    -- the partitions at any time of the loop are those of the start
    let Same (st : (ℕ → Option (Shard K V D)) × Disk) : Prop :=
      ∀ j, (st.1 j).map Shard.partition = (shards j).map Shard.partition
    have hround : ∀ i st st', Same st → startShard m noChange f numShards i st = .ok st' →
        Same st' ∧ ∀ part ∈ (shards i).map Shard.partition, part.IsDelta := by
      intro i st st' hsame hok
      rcases startShard_spec m noChange f numShards i st with
        ⟨st₁, hok₁, hkept, hdelta⟩ | ⟨herror, -⟩
      · obtain rfl := Except.ok.inj (hok.symm.trans hok₁)
        exact ⟨fun j => (hkept j).trans (hsame j), hsame i ▸ hdelta⟩
      · rw [herror] at hok
        cases hok
    constructor
    · rintro ⟨r, hok⟩ i hi shard hshard
      obtain ⟨st, hloop, -⟩ := map_eq_ok.mp hok
      by_contra hstate
      refine forEach_ne_ok (fun i st st' hsame hstep => (hround i st st' hsame hstep).1)
        (List.mem_range.mpr hi) (fun st st' hsame hstep => ?_) (fun _ => rfl) st hloop
      exact hstate ((hround i st st' hsame hstep).2 _ (Option.mem_map_of_mem _ hshard))
    · intro hwritable
      have hends : EndsIn (fun _ => False) Same
          (forEach (startShard m noChange f numShards) (List.range numShards) (shards, disk)) := by
        refine endsIn_forEach (I := fun _ => Same) (List.range numShards)
          (fun before i after hrange st hsame => ?_) fun _ => rfl
        have hi : i ∈ List.range numShards := by simp [hrange]
        rcases startShard_spec m noChange f numShards i st with
          ⟨st', hok, hkept, -⟩ | ⟨-, part, hpart, hstate⟩
        · exact .of_ok hok fun j => (hkept j).trans (hsame j)
        · rw [hsame i] at hpart
          obtain ⟨shard, hshard, rfl⟩ := Option.mem_map.mp hpart
          exact absurd (hwritable i (List.mem_range.mp hi) shard hshard) hstate
      obtain ⟨st, hloop, -⟩ := hends.exists_ok
      exact ⟨_, map_eq_ok.mpr ⟨st, hloop, rfl⟩⟩

/-- The table part of `StartCheckpoint` returns exactly if the tables can be written. -/
theorem tablePart_spec (dir : String) (epoch : ℕ) (ids : List ℕ) (tables : Registry K V D)
    (disk : Disk) :
    (∃ r, tablePart m noChange dir epoch ids tables disk = .ok r) ↔ tables.Writable ids := by
  induction tables generalizing disk with
  | nil => exact iff_of_true ⟨_, rfl⟩ fun _ h => absurd h List.not_mem_nil
  | cons entry rest ih =>
    obtain ⟨id, table⟩ := entry
    have htable := table.startCheckpoint_spec m noChange (checkpointFile dir epoch id) disk
    have hrest : ∀ disk, (∃ r, tablePart m noChange dir epoch ids rest disk = .ok r) ↔
        Registry.Writable ids rest := ih
    have hcons : Registry.Writable ids ((id, table) :: rest) ↔
        (id ∈ ids → table.Writable) ∧ Registry.Writable ids rest := List.forall_mem_cons
    rw [hcons, tablePart]
    split_ifs with hid
    · rw [← htable]
      constructor
      · rintro ⟨r, hok⟩
        obtain ⟨r₁, hok₁, hok₂⟩ := bind_eq_ok.mp hok
        obtain ⟨r₂, hok₂, -⟩ := map_eq_ok.mp hok₂
        exact ⟨fun _ => ⟨r₁, hok₁⟩, (hrest r₁.2).mp ⟨r₂, hok₂⟩⟩
      · rintro ⟨hfirst, hwritable⟩
        obtain ⟨r₁, hok₁⟩ := hfirst hid
        obtain ⟨r₂, hok₂⟩ := (hrest r₁.2).mpr hwritable
        exact ⟨_, bind_eq_ok.mpr ⟨r₁, hok₁, map_eq_ok.mpr ⟨r₂, hok₂, rfl⟩⟩⟩
    · constructor
      · rintro ⟨r, hok⟩
        obtain ⟨r₂, hok₂, -⟩ := map_eq_ok.mp hok
        exact ⟨fun h => absurd h hid, (hrest disk).mp ⟨r₂, hok₂⟩⟩
      · rintro ⟨-, hwritable⟩
        obtain ⟨r₂, hok₂⟩ := (hrest disk).mpr hwritable
        exact ⟨_, map_eq_ok.mpr ⟨r₂, hok₂, rfl⟩⟩

end Writable

end Tables

namespace Rolling

/-! ## The job with its tables -/

/-- The master and `n` workers with their tables. `checkpointTables` is the set of tables that a
worker checkpoints, and `stopped` says that its process has aborted. -/
structure TableJob (n : ℕ) (K V D : Type*) where
  job : Job n
  tables : Fin n → Registry K V D
  checkpointTables : Fin n → List ℕ
  disk : Disk
  stopped : Fin n → Bool

namespace TableJob

variable {n : ℕ} {K V D : Type*}

/-- Before the first checkpoint. -/
def init (tables : Fin n → Registry K V D) (disk : Disk) : TableJob n K V D :=
  ⟨.init, tables, fun _ => [], disk, fun _ => false⟩

/-- What can happen next. -/
inductive Action (n : ℕ) (K V D : Type*)
  /-- The master goes on, or a worker reads a message. -/
  | job (a : Job.Action n)
  /-- The tables of worker `w` are created, initialised, read or written. -/
  | tables (w : Fin n) (tables : Registry K V D)

/-- Worker `w` takes a `START_CHECKPOINT` from its queue, which asks for the tables `ids`. -/
def takeStart (w : Fin n) (epoch : ℕ) (ids : List ℕ) (s : TableJob n K V D) : TableJob n K V D :=
  { s with
    job := s.job.takeStart w epoch
    checkpointTables := Function.update s.checkpointTables w (s.checkpointTables w ++ ids) }

/-- Worker `w` takes a marker of `peer` from its queue. -/
def takeMarker (peer w : Fin n) (epoch : ℕ) (s : TableJob n K V D) : TableJob n K V D :=
  { s with job := s.job.takeMarker peer w epoch }

/-- `checkpoint_tables_` becomes the set of all tables. -/
def insertAll (w : Fin n) (s : TableJob n K V D) : TableJob n K V D :=
  { s with checkpointTables := Function.update s.checkpointTables w ((s.tables w).map Prod.fst) }

@[simp] theorem takeStart_checkpointTables_self (w : Fin n) (epoch : ℕ) (ids : List ℕ)
    (s : TableJob n K V D) :
    (s.takeStart w epoch ids).checkpointTables w = s.checkpointTables w ++ ids :=
  Function.update_self ..

@[simp] theorem insertAll_checkpointTables_self (w : Fin n) (s : TableJob n K V D) :
    (s.insertAll w).checkpointTables w = (s.tables w).map Prod.fst :=
  Function.update_self ..

section Step

-- `requested` gives the tables that the master asks for in an epoch
variable (m : Marshals K V D) (noChange : ℕ → LocalTable K V D → Bool) (dir : String)
  (requested : ℕ → List ℕ)

/-- `StartCheckpoint(epoch, CP_ROLLING)` on worker `w`. -/
def startCheckpoint (w : Fin n) (epoch : ℕ) (s : TableJob n K V D) : TableJob n K V D :=
  match (s.job.workers w).startCheckpoint epoch .rolling with
  | none => s
  | some _ =>
    match tablePart m noChange dir epoch (s.checkpointTables w) (s.tables w) s.disk with
    -- by then `epoch_` has been set, and no marker has been sent
    | .error _ =>
      { s with
        job := { s.job with
          workers := Function.update s.job.workers w { s.job.workers w with epoch := epoch } }
        stopped := Function.update s.stopped w true }
    | .ok r =>
      { s with
        job := s.job.startCheckpoint w epoch
        tables := Function.update s.tables w r.1
        disk := r.2 }

/-- `UpdateEpoch(peer, peer_epoch)` on worker `w`, after the test for a new epoch. -/
def markPeer (w peer : Fin n) (epoch : ℕ) (s : TableJob n K V D) : TableJob n K V D :=
  let c := (s.job.workers w).setPeer peer epoch
  let s := { s with job := s.job.markPeer w peer epoch }
  if ∀ u, c.peers u = c.epoch then
    let r := finishTables (s.tables w) s.disk
    { s with tables := Function.update s.tables w r.1, disk := r.2 }
  else s

/-- `UpdateEpoch(peer, peer_epoch)` on worker `w`. -/
def updateEpoch (w peer : Fin n) (epoch : ℕ) (s : TableJob n K V D) : TableJob n K V D :=
  let s :=
    if (s.job.workers w).epoch < epoch then
      startCheckpoint m noChange dir w epoch (s.insertAll w)
    else s
  if s.stopped w then s else s.markPeer w peer epoch

/-- One action. A worker that has stopped reads no message. -/
def step (s : TableJob n K V D) : Action n K V D → TableJob n K V D
  | .job .advance => { s with job := s.job.advance }
  | .job (.readStart w epoch) =>
    if s.stopped w = false ∧ epoch ∈ s.job.starts w then
      startCheckpoint m noChange dir w epoch (s.takeStart w epoch (requested epoch))
    else s
  | .job (.readMarker peer w epoch) =>
    if s.stopped w = false ∧ epoch ∈ s.job.markers peer w then
      updateEpoch m noChange dir w peer epoch (s.takeMarker peer w epoch)
    else s
  | .tables w tables =>
    if s.stopped w then s else { s with tables := Function.update s.tables w tables }

end Step

/-- The worker that an action makes start a checkpoint, with the tables to be written. -/
def starts (requested : ℕ → List ℕ) (s : TableJob n K V D) :
    Action n K V D → Option (Fin n × List ℕ)
  | .job (.readStart w epoch) =>
    if s.stopped w = false ∧ epoch ∈ s.job.starts w ∧ (s.job.workers w).epoch < epoch then
      some (w, s.checkpointTables w ++ requested epoch)
    else none
  | .job (.readMarker peer w epoch) =>
    if s.stopped w = false ∧ epoch ∈ s.job.markers peer w ∧ (s.job.workers w).epoch < epoch then
      some (w, (s.tables w).map Prod.fst)
    else none
  | _ => none

/-- If the action starts a checkpoint on a worker, its tables can be written. -/
def CanStart (requested : ℕ → List ℕ) (s : TableJob n K V D) (a : Action n K V D) : Prop :=
  ∀ w ids, s.starts requested a = some (w, ids) → (s.tables w).Writable ids

/-- No worker has stopped, and the job is in one of its states. -/
structure Inv (s : TableJob n K V D) : Prop where
  running : ∀ w, s.stopped w = false
  job : s.job.Inv

theorem inv_init (tables : Fin n → Registry K V D) (disk : Disk) : Inv (init tables disk) :=
  ⟨fun _ => rfl, Job.inv_init⟩

section Run

variable (m : Marshals K V D) (noChange : ℕ → LocalTable K V D → Bool) (dir : String)
  {requested : ℕ → List ℕ} {s : TableJob n K V D} {w : Fin n} {epoch : ℕ}

theorem startCheckpoint_skip (hle : epoch ≤ (s.job.workers w).epoch) :
    startCheckpoint m noChange dir w epoch s = s := by
  rw [startCheckpoint, Checkpointer.startCheckpoint, if_pos hle]

/-- Where the tables can be written, the job goes on as if they were not there. -/
theorem startCheckpoint_job (hrunning : ∀ v, s.stopped v = false)
    (hwritable : (s.job.workers w).epoch < epoch →
      (s.tables w).Writable (s.checkpointTables w)) :
    (startCheckpoint m noChange dir w epoch s).job = s.job.startCheckpoint w epoch ∧
      ∀ v, (startCheckpoint m noChange dir w epoch s).stopped v = false := by
  rcases Nat.lt_or_ge (s.job.workers w).epoch epoch with hlt | hle
  · obtain ⟨r, hok⟩ := (tablePart_spec m noChange dir epoch (s.checkpointTables w) (s.tables w)
      s.disk).mpr (hwritable hlt)
    rw [startCheckpoint, Checkpointer.startCheckpoint, if_neg (Nat.not_le_of_lt hlt)]
    simp only [hok]
    exact ⟨trivial, hrunning⟩
  · rw [startCheckpoint_skip m noChange dir hle, Job.startCheckpoint_of_le hle]
    exact ⟨rfl, hrunning⟩

/-- Where they cannot, the worker stops in an epoch that its log knows nothing of. -/
theorem startCheckpoint_stops (hlt : (s.job.workers w).epoch < epoch)
    (hstate : ¬ (s.tables w).Writable (s.checkpointTables w)) :
    ((startCheckpoint m noChange dir w epoch s).job.workers w).epoch = epoch ∧
      (startCheckpoint m noChange dir w epoch s).job.log = s.job.log ∧
      (startCheckpoint m noChange dir w epoch s).stopped w = true := by
  rw [startCheckpoint, Checkpointer.startCheckpoint, if_neg (Nat.not_le_of_lt hlt)]
  cases hpart : tablePart m noChange dir epoch (s.checkpointTables w) (s.tables w) s.disk with
  | error e =>
    simp only [Function.update_self]
    exact ⟨trivial, trivial, trivial⟩
  | ok r => exact absurd ((tablePart_spec ..).mp ⟨r, hpart⟩) hstate

theorem markPeer_job (peer : Fin n) :
    (s.markPeer w peer epoch).job = s.job.markPeer w peer epoch ∧
      (s.markPeer w peer epoch).stopped = s.stopped := by
  rw [markPeer]
  split_ifs
  · exact ⟨rfl, rfl⟩
  · exact ⟨rfl, rfl⟩

theorem updateEpoch_new {peer : Fin n} (hlt : (s.job.workers w).epoch < epoch) :
    updateEpoch m noChange dir w peer epoch s =
      if (startCheckpoint m noChange dir w epoch (s.insertAll w)).stopped w then
        startCheckpoint m noChange dir w epoch (s.insertAll w)
      else (startCheckpoint m noChange dir w epoch (s.insertAll w)).markPeer w peer epoch := by
  rw [updateEpoch, if_pos hlt]

theorem updateEpoch_old {peer : Fin n} (hle : ¬ (s.job.workers w).epoch < epoch)
    (hrunning : s.stopped w = false) :
    updateEpoch m noChange dir w peer epoch s = s.markPeer w peer epoch := by
  simp only [updateEpoch, if_neg hle, hrunning, Bool.false_eq_true, if_false]

/-- The new epoch is not in the log, so the counts are wrong from then on. -/
theorem not_counts_of_stopped {s s' : TableJob n K V D} (hs : Inv s)
    (hlog : s'.job.log w = s.job.log w) (hepoch : (s'.job.workers w).epoch = epoch)
    (hlt : (s.job.workers w).epoch < epoch) : ¬ s'.job.Counts := by
  intro hcounts
  have hone : (s.job.log w).count (.tables epoch) = 1 := by
    rw [← hlog, hcounts.tables w epoch, hepoch, if_pos ⟨by omega, le_rfl⟩]
  rw [(hs.job.fits w).count_tables, if_neg (by omega)] at hone
  cases hone

/-! ## Steps -/

/-- An action that starts no checkpoint over a state table is one of the job. -/
theorem Inv.step_job (hs : Inv s) (a : Job.Action n) (hcan : CanStart requested s (.job a)) :
    (step m noChange dir requested s (.job a)).job = s.job.step a ∧
      ∀ v, (step m noChange dir requested s (.job a)).stopped v = false := by
  cases a with
  | advance => exact ⟨rfl, hs.running⟩
  | readStart w epoch =>
    by_cases hmem : epoch ∈ s.job.starts w
    · rw [step, if_pos ⟨hs.running w, hmem⟩, Job.step, if_pos hmem]
      have hwritable : (s.job.workers w).epoch < epoch →
          (s.tables w).Writable ((s.takeStart w epoch (requested epoch)).checkpointTables w) := by
        intro hlt
        rw [takeStart_checkpointTables_self]
        exact hcan w _ (if_pos ⟨hs.running w, hmem, hlt⟩)
      exact startCheckpoint_job m noChange dir hs.running hwritable
    · rw [step, if_neg fun h => hmem h.2, Job.step, if_neg hmem]
      exact ⟨rfl, hs.running⟩
  | readMarker peer w epoch =>
    by_cases hmem : epoch ∈ s.job.markers peer w
    · rw [step, if_pos ⟨hs.running w, hmem⟩, Job.step, if_pos hmem]
      -- the marker of a new epoch starts the checkpoint, over all tables
      by_cases hlt : (s.job.workers w).epoch < epoch
      · have hwritable : (s.job.workers w).epoch < epoch → (s.tables w).Writable
            (((s.takeMarker peer w epoch).insertAll w).checkpointTables w) := by
          intro _
          rw [insertAll_checkpointTables_self]
          exact hcan w ((s.tables w).map Prod.fst) (if_pos ⟨hs.running w, hmem, hlt⟩)
        obtain ⟨hjob, hrunning⟩ := startCheckpoint_job m noChange dir
          (s := (s.takeMarker peer w epoch).insertAll w) hs.running hwritable
        rw [updateEpoch_new m noChange dir (s := s.takeMarker peer w epoch) hlt,
          if_neg (by simp [hrunning w]), (markPeer_job peer).1, (markPeer_job peer).2, hjob]
        exact ⟨congrArg (Job.markPeer w peer epoch) (if_pos hlt).symm, hrunning⟩
      · rw [updateEpoch_old m noChange dir (s := s.takeMarker peer w epoch) hlt (hs.running w),
          (markPeer_job peer).1, (markPeer_job peer).2]
        exact ⟨congrArg (Job.markPeer w peer epoch) (if_neg hlt).symm, hs.running⟩
    · rw [step, if_neg fun h => hmem h.2, Job.step, if_neg hmem]
      exact ⟨rfl, hs.running⟩

theorem Inv.step (hs : Inv s) (a : Action n K V D) (hcan : CanStart requested s a) :
    Inv (step m noChange dir requested s a) := by
  cases a with
  | job a =>
    obtain ⟨hjob, hrunning⟩ := hs.step_job m noChange dir a hcan
    exact ⟨hrunning, hjob ▸ hs.job.step a⟩
  | tables w tables =>
    rw [TableJob.step]
    split_ifs
    · exact hs
    · exact ⟨hs.running, hs.job⟩

/-- A checkpoint over a state table stops its worker. -/
theorem Inv.not_counts (hs : Inv s) (a : Action n K V D) (hcan : ¬ CanStart requested s a) :
    ¬ (TableJob.step m noChange dir requested s a).job.Counts := by
  rw [CanStart] at hcan
  push Not at hcan
  obtain ⟨w, ids, hstarts, hstate⟩ := hcan
  cases a with
  | tables => cases hstarts
  | job a =>
    cases a with
    | advance => cases hstarts
    | readStart v epoch =>
      rw [starts] at hstarts
      split_ifs at hstarts with hread
      obtain ⟨rfl, rfl⟩ := Prod.mk.inj (Option.some.inj hstarts)
      obtain ⟨hrunning, hmem, hlt⟩ := hread
      have hnot : ¬ (s.tables v).Writable
          ((s.takeStart v epoch (requested epoch)).checkpointTables v) := by
        rwa [takeStart_checkpointTables_self]
      obtain ⟨hepoch, hlog, -⟩ := startCheckpoint_stops m noChange dir
        (s := s.takeStart v epoch (requested epoch)) hlt hnot
      rw [TableJob.step, if_pos ⟨hrunning, hmem⟩]
      exact not_counts_of_stopped hs (congrFun hlog v) hepoch hlt
    | readMarker peer v epoch =>
      rw [starts] at hstarts
      split_ifs at hstarts with hread
      obtain ⟨rfl, rfl⟩ := Prod.mk.inj (Option.some.inj hstarts)
      obtain ⟨hrunning, hmem, hlt⟩ := hread
      have hnot : ¬ (s.tables v).Writable
          (((s.takeMarker peer v epoch).insertAll v).checkpointTables v) := by
        rwa [insertAll_checkpointTables_self]
      obtain ⟨hepoch, hlog, hstopped⟩ := startCheckpoint_stops m noChange dir
        (s := (s.takeMarker peer v epoch).insertAll v) hlt hnot
      rw [TableJob.step, if_pos ⟨hrunning, hmem⟩,
        updateEpoch_new m noChange dir (s := s.takeMarker peer v epoch) hlt, if_pos hstopped]
      exact not_counts_of_stopped hs (congrFun hlog v) hepoch hlt

/-- **The counts of rolling checkpoints.** Whatever the tables, the number of workers and the order
in which messages are read, the counts are right in every state of a run exactly if no checkpoint is
started on a worker that has a local shard of a table to be written in a state table. -/
theorem rolling_counts_iff (tables : Fin n → Registry K V D) (disk : Disk)
    (actions : List (Action n K V D)) :
    (∀ k, ((actions.take k).foldl (step m noChange dir requested) (init tables disk)).job.Counts) ↔
      Guarded (step m noChange dir requested) (CanStart requested) (init tables disk) actions :=
  forall_take_iff_guarded (P := fun s => s.job.Counts)
    (fun _ a hs => hs.step m noChange dir a) (fun _ hs => hs.job.counts)
    (fun _ a hs => hs.not_counts m noChange dir a) (inv_init tables disk)

end Run

/-- One worker with one vertex in a state table. -/
def oneVertex : TableJob 1 ℕ ℕ Bytes :=
  let t : StateTable ℕ ℕ Bytes := ⟨[some ⟨0, 5, 7, [], 5⟩], 1, 0⟩
  init (fun _ => [(0, .mutable 1 fun _ => some ⟨.state t, none, false⟩)]) fun _ => none

/-- It reads the message of the master and stops. The master then waits for a reply that nobody
sends. -/
theorem one_vertex_never_replies :
    let s := ([.job .advance, .job .advance, .job (.readStart 0 1), .job .advance] :
      List (Action 1 ℕ ℕ Bytes)).foldl
        (step unaryMarshals (fun _ _ => false) "checkpoints" fun _ => [0]) oneVertex
    (s.job.phase = .finishing 0 ∧ s.stopped 0 = true ∧ s.job.dones 0 = 0) ∧ ¬ s.job.Counts := by
  intro s
  refine ⟨⟨rfl, rfl, rfl⟩, fun hcounts => ?_⟩
  have hreply : s.job.dones 0 = 1 := by
    refine hcounts.reply 0 rfl (fun v => ?_) fun u v => ?_
    · obtain rfl := Subsingleton.elim v 0
      rfl
    · rfl
  cases hreply

end TableJob

end Rolling

end MaiterStore
