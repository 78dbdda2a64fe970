/-
# Handing a shard over

When `HandleShardAssignment` (`worker/worker.cc`) gives a shard of this worker to another
one, the partition is marked dirty, and the next `CheckNetwork` calls `SendUpdates` on its
table. The loop of `SendUpdates` is written for buffers. The partition of a lost shard is a
state table, whose serializer asks for an iterator with a null helper. So the call does not
return, whatever is in the table.
-/

import MaiterStore.Kernel.GlobalTable
import MaiterStore.Kernel.LocalTable

namespace MaiterStore

open CS.Run

/-! ## The worker -/

/-- `ShardAssignment`. -/
structure ShardAssignment (τ : Type*) where
  table : τ
  shard : ℕ
  newWorker : ℤ

/-- A table on a worker with what it knows of the shards. The owner of a shard that is
nobody's is `-1`. -/
structure TableView (K V D : Type*) where
  info : TableDescriptor ℤ K V D
  table : GlobalTable ℤ K V D
  tainted : ℕ → Bool

/-- The tables of a worker, and `dirty_tables_` in the order in which it is gone through. -/
structure Worker (τ K V D : Type*) where
  id : ℤ
  tables : τ → TableView K V D
  dirtyTables : List τ

namespace TableView

variable {K V D : Type*}

def setOwner (i : ℕ) (newWorker : ℤ) (t : TableView K V D) : TableView K V D :=
  { t with info := { t.info with owner := Function.update t.info.owner i newWorker } }

def setTainted (i : ℕ) (b : Bool) (t : TableView K V D) : TableView K V D :=
  { t with tainted := Function.update t.tainted i b }

def setDirty (i : ℕ) (t : TableView K V D) : TableView K V D :=
  { t with table := { t.table with dirty := Function.update t.table.dirty i true } }

end TableView

namespace Worker

variable {τ K V D : Type*} [DecidableEq τ] [DecidableEq K]

def setTable (w : Worker τ K V D) (a : τ) (t : TableView K V D) : Worker τ K V D :=
  { w with tables := Function.update w.tables a t }

/-- A round of `HandleShardAssignment`. -/
def assign (w : Worker τ K V D) (a : ShardAssignment τ) : Worker τ K V D :=
  let t := w.tables a.table
  let oldOwner := t.info.owner a.shard
  let t := t.setOwner a.shard a.newWorker
  if a.newWorker = w.id ∧ oldOwner ≠ w.id then
    -- not canonical for the shard until the old owner has sent its updates
    if oldOwner ≠ -1 then w.setTable a.table (t.setTainted a.shard true) else w.setTable a.table t
  else if oldOwner = w.id ∧ a.newWorker ≠ w.id then
    { w.setTable a.table (t.setDirty a.shard) with dirtyTables := w.dirtyTables.insert a.table }
  else w.setTable a.table t

/-- `HandleShardAssignment(shard_req, resp, rpc)`. -/
def handleShardAssignment (assignments : List (ShardAssignment τ)) (w : Worker τ K V D) :
    Worker τ K V D :=
  assignments.foldl assign w

/-- `HandlePutRequest()`, with the requests that have been read, while no checkpoint is
being taken. -/
def handlePutRequest (requests : List (τ × KVPairData ℤ)) (w : Worker τ K V D) :
    Except (Fault K) (Worker τ K V D) :=
  forEach (fun put w =>
    let t := w.tables put.1
    (t.table.applyUpdates t.info put.2).map fun g =>
      let t := { t with table := g }
      w.setTable put.1 (if put.2.done && t.tainted put.2.shard then t.setTainted put.2.shard false
        else t)) requests w

/-- `SendUpdates()` of one of the tables. -/
def sendUpdates (a : τ) (w : Worker τ K V D) : Except (Fault K) (Worker τ K V D) :=
  let t := w.tables a
  (t.table.sendUpdates t.info).map fun g => w.setTable a { t with table := g }

/-- `CheckNetwork()`, without messages of the master. -/
def checkNetwork (requests : List (τ × KVPairData ℤ)) (w : Worker τ K V D) :
    Except (Fault K) (Worker τ K V D) :=
  (w.handlePutRequest requests).bind fun w =>
    (forEach sendUpdates w.dirtyTables w).map fun w => { w with dirtyTables := [] }

end Worker

/-! ## A lost shard -/

namespace GlobalTable

variable {ι K V D : Type*} [DecidableEq ι] [DecidableEq K] {d : TableDescriptor ι K V D} {i j : ℕ}
  {g g' : GlobalTable ι K V D}

/-- Shard `i` belongs to another worker, is dirty, and its partition still is a state table. -/
structure Lost (d : TableDescriptor ι K V D) (i : ℕ) (g : GlobalTable ι K V D) : Prop where
  remote : isLocalShard d g i = false
  dirty : g.dirty i = true
  state : ∃ t, g.partitions i = .state t

omit [DecidableEq K] in
/-- Messages and counters do not matter. -/
theorem Lost.congr (h : Lost d i g) (hid : g'.id = g.id) (hdirty : g'.dirty = g.dirty)
    (hpart : g'.partitions = g.partitions) : Lost d i g' where
  remote := by
    rw [isLocalShard, hid]
    exact h.remote
  dirty := hdirty ▸ h.dirty
  state := hpart ▸ h.state

omit [DecidableEq K] in
theorem Lost.setPartition (h : Lost d i g) {part : Partition K V D}
    (hpart : j = i → ∃ t, part = .state t) : Lost d i (g.setPartition j part) where
  remote := h.remote
  dirty := h.dirty
  state := by
    rcases eq_or_ne i j with rfl | hij
    · obtain ⟨t, rfl⟩ := hpart rfl
      exact ⟨t, setPartition_self ..⟩
    · rw [setPartition_of_ne g hij]
      exact h.state

/-- The serializer of the state table is what stops `SendUpdates`. -/
theorem sendShard_of_lost (h : Lost d i g) {t : StateTable K V D}
    (hpart : g.partitions i = .state t)
    (deltaFile : Option (String × List Bytes)) (terminated : Bool)
    (noChange : ℕ → LocalTable K V D → Bool) :
    sendShard d i g = (LocalTable.serializeToNet d.marshals noChange
      ⟨t, deltaFile, terminated⟩).bind fun _ => .ok g := by
  rw [sendShard, h.remote, h.dirty, hpart, LocalTable.serializeToNet_eq]
  rfl

theorem sendShard_ne_ok (h : Lost d i g) : sendShard d i g ≠ .ok g' := by
  obtain ⟨t, hpart⟩ := h.state
  rw [sendShard_of_lost h hpart none false fun _ _ => false, LocalTable.serializeToNet_eq]
  nofun

theorem Lost.sendLoop (h : Lost d i g) {rounds : ℕ} {t : DeltaTable K V}
    {r : DeltaTable K V × GlobalTable ι K V D} (hok : sendLoop d j rounds t g = .ok r) :
    Lost d i r.2 := by
  induction rounds generalizing t g with
  | zero => cases hok
  | succ rounds ih =>
    rw [GlobalTable.sendLoop] at hok
    obtain ⟨kvData, -, hok⟩ := bind_eq_ok.mp hok
    cases hreset :
        (DeltaTable.reset d.hash .unbounded recursionDepth : Outcome K (DeltaTable K V)) with
    | error e =>
      rw [hreset] at hok
      cases hok
    | ok t' =>
      simp only [hreset] at hok
      split_ifs at hok
      · cases hok
        exact h.congr rfl rfl rfl
      · refine ih ?_ hok
        exact h.congr rfl rfl rfl

/-- Sending the buffer of another shard leaves a lost shard as it is. -/
theorem Lost.sendShard (h : Lost d i g) (hok : sendShard d j g = .ok g') : Lost d i g' := by
  have hji : j ≠ i := by
    rintro rfl
    exact sendShard_ne_ok h hok
  rw [GlobalTable.sendShard] at hok
  split_ifs at hok with hsends
  · cases hpart : g.partitions j with
    | state t =>
      rw [hpart] at hok
      cases hok
    | delta t =>
      rw [hpart] at hok
      obtain ⟨r, hloop, hok⟩ := bind_eq_ok.mp hok
      cases hok
      exact (h.sendLoop hloop).setPartition fun hj => absurd hj hji
  · cases hok
    exact h

theorem sendUpdates_ne_ok (hi : i < d.numShards) (h : Lost d i g) : sendUpdates d g ≠ .ok g' := by
  intro hok
  obtain ⟨g₁, hloop, -⟩ := bind_eq_ok.mp hok
  exact forEach_ne_ok (fun _ _ _ hs hround => hs.sendShard hround) (List.mem_range.mpr hi)
    (fun _ _ hs => sendShard_ne_ok hs) h g₁ hloop

omit [DecidableEq K] in
theorem Lost.onState (h : Lost d i g) {call : StateTable K V D → Outcome K (StateTable K V D)}
    (hok : onState j call g = .ok g') : Lost d i g' := by
  rw [GlobalTable.onState] at hok
  cases hpart : g.partitions j with
  | delta t =>
    rw [hpart] at hok
    cases hok
  | state t =>
    simp only [hpart] at hok
    split at hok
    · cases hok
    · cases hok
      exact h.setPartition fun _ => ⟨_, rfl⟩

omit [DecidableEq K] in
theorem Lost.onDelta (h : Lost d i g) {call : DeltaTable K V → Outcome K (DeltaTable K V)}
    (hok : onDelta j call g = .ok g') : Lost d i g' := by
  have hji : j ≠ i := by
    rintro rfl
    obtain ⟨t, hpart⟩ := h.state
    rw [GlobalTable.onDelta, hpart] at hok
    cases hok
  rw [GlobalTable.onDelta] at hok
  cases hpart : g.partitions j with
  | state t =>
    rw [hpart] at hok
    cases hok
  | delta t =>
    simp only [hpart] at hok
    split at hok
    · cases hok
    · cases hok
      exact h.setPartition fun hj => absurd hj hji

theorem Lost.accumulateF1 (hi : i < d.numShards) (h : Lost d i g) {k : K} {v : V}
    (hok : accumulateF1 d k v g = .ok g') : Lost d i g' := by
  rw [GlobalTable.accumulateF1] at hok
  split_ifs at hok with hlocal
  · exact h.onState hok
  · obtain ⟨g₁, hdelta, hok⟩ := bind_eq_ok.mp hok
    have h₁ := h.onDelta hdelta
    -- a `BufSend` would not return
    dsimp only at hok
    split_ifs at hok with hbuf
    · refine absurd hok (sendUpdates_ne_ok hi ?_)
      exact h₁.congr rfl rfl rfl
    · cases hok
      exact h₁.congr rfl rfl rfl

theorem Lost.applyUpdates (hi : i < d.numShards) (h : Lost d i g) {req : KVPairData ι}
    (hok : applyUpdates d req g = .ok g') : Lost d i g' :=
  forEach_invariant (fun _ _ _ hs hround => hs.accumulateF1 hi hround) h hok

end GlobalTable

namespace Worker

variable {τ K V D : Type*} [DecidableEq τ] [DecidableEq K] {w w' : Worker τ K V D} {a : τ} {i : ℕ}

/-- Shard `i` of table `a` is lost, and the next `CheckNetwork` sends the updates of the
table. -/
structure Lost (a : τ) (i : ℕ) (w : Worker τ K V D) : Prop where
  lt : i < (w.tables a).info.numShards
  lost : (w.tables a).table.Lost (w.tables a).info i
  mem : a ∈ w.dirtyTables

/-- What holds of a state table while assignments are worked on: it is still local, or it
has been lost. -/
structure Assigning (a : τ) (i : ℕ) (w : Worker τ K V D) : Prop where
  lt : i < (w.tables a).info.numShards
  id_eq : (w.tables a).table.id = w.id
  state : ∃ t, (w.tables a).table.partitions i = .state t
  flagged : (w.tables a).info.owner i = w.id ∨
    (w.tables a).table.dirty i = true ∧ a ∈ w.dirtyTables

omit [DecidableEq K] in
/-- What a round of `HandleShardAssignment` changes. The dirty flag of the shard is set if
the shard is taken away from this worker. -/
theorem assign_spec (w : Worker τ K V D) (x : ShardAssignment τ) :
    ∃ t, (w.assign x).tables = Function.update w.tables x.table t ∧
      (w.assign x).id = w.id ∧ w.dirtyTables ⊆ (w.assign x).dirtyTables ∧
      t.info = ((w.tables x.table).setOwner x.shard x.newWorker).info ∧
      t.table.id = (w.tables x.table).table.id ∧
      t.table.partitions = (w.tables x.table).table.partitions ∧
      (∀ j, (w.tables x.table).table.dirty j = true → t.table.dirty j = true) ∧
      ((w.tables x.table).info.owner x.shard = w.id → x.newWorker ≠ w.id →
        t.table.dirty x.shard = true ∧ x.table ∈ (w.assign x).dirtyTables) := by
  unfold assign
  dsimp only
  split_ifs with hgain hhad hlose
  · exact ⟨_, rfl, rfl, List.Subset.refl _, rfl, rfl, rfl, fun _ hj => hj,
      fun hold => absurd hold hgain.2⟩
  · exact ⟨_, rfl, rfl, List.Subset.refl _, rfl, rfl, rfl, fun _ hj => hj,
      fun hold => absurd hold hgain.2⟩
  · refine ⟨_, rfl, rfl, fun b hb => List.mem_insert_of_mem hb, rfl, rfl, rfl, fun j hj => ?_,
      fun _ _ => ⟨Function.update_self .., List.mem_insert_self⟩⟩
    change Function.update _ _ _ _ = _
    rcases eq_or_ne j x.shard with rfl | hjs
    · exact Function.update_self ..
    · rw [Function.update_of_ne hjs]
      exact hj
  · exact ⟨_, rfl, rfl, List.Subset.refl _, rfl, rfl, rfl, fun _ hj => hj,
      fun hold hnew => absurd ⟨hold, hnew⟩ hlose⟩

omit [DecidableEq K] in
theorem Assigning.assign (h : Assigning a i w) (x : ShardAssignment τ) :
    Assigning a i (w.assign x) := by
  obtain ⟨t, htables, hid, hdirty, hinfo, hself, hparts, hkeep, hmark⟩ := assign_spec w x
  rcases eq_or_ne a x.table with rfl | ha
  · have ht : (w.assign x).tables x.table = t := by rw [htables, Function.update_self]
    refine ⟨by rw [ht, hinfo]; exact h.lt, by rw [ht, hself, hid]; exact h.id_eq,
      by rw [ht, hparts]; exact h.state, ?_⟩
    rw [ht, hinfo, hid]
    change Function.update _ _ _ _ = _ ∨ _
    rcases eq_or_ne i x.shard with rfl | hi
    · rw [Function.update_self]
      rcases eq_or_ne x.newWorker w.id with hnew | hnew
      · exact .inl hnew
      · -- the worker has lost the shard now, or it had lost it before
        rcases h.flagged with hown | ⟨hflag, hmem⟩
        · exact .inr (hmark hown hnew)
        · exact .inr ⟨hkeep _ hflag, hdirty hmem⟩
    · rw [Function.update_of_ne hi]
      exact h.flagged.imp_right fun hflag => ⟨hkeep _ hflag.1, hdirty hflag.2⟩
  · have ht : (w.assign x).tables a = w.tables a := by rw [htables, Function.update_of_ne ha]
    refine ⟨ht ▸ h.lt, by rw [ht, hid]; exact h.id_eq, ht ▸ h.state, ?_⟩
    rw [ht, hid]
    exact h.flagged.imp_right fun hflag => ⟨hflag.1, hdirty hflag.2⟩

omit [DecidableEq K] in
theorem handleShardAssignment_id (assignments : List (ShardAssignment τ)) (w : Worker τ K V D) :
    (w.handleShardAssignment assignments).id = w.id := by
  induction assignments generalizing w with
  | nil => rfl
  | cons x assignments ih => exact (ih (w.assign x)).trans (assign_spec w x).choose_spec.2.1

omit [DecidableEq K] in
theorem Assigning.handleShardAssignment (h : Assigning a i w)
    (assignments : List (ShardAssignment τ)) :
    Assigning a i (w.handleShardAssignment assignments) := by
  induction assignments generalizing w with
  | nil => exact h
  | cons x assignments ih => exact ih (h.assign x)

omit [DecidableEq τ] [DecidableEq K] in
theorem Assigning.lost (h : Assigning a i w) (hown : (w.tables a).info.owner i ≠ w.id) :
    Lost a i w := by
  obtain ⟨hdirty, hmem⟩ := h.flagged.resolve_left hown
  refine ⟨h.lt, ⟨?_, hdirty, h.state⟩, hmem⟩
  rw [GlobalTable.isLocalShard, h.id_eq]
  exact decide_eq_false hown

/-! ## `CheckNetwork` -/

omit [DecidableEq K] in
/-- Another table does not matter, and in this one a lost shard has to stay lost. -/
theorem Lost.setTable (h : Lost a i w) {b : τ} {t : TableView K V D}
    (ht : b = a → t.info = (w.tables a).info ∧ t.table.Lost (w.tables a).info i) :
    Lost a i (w.setTable b t) := by
  rcases eq_or_ne b a with rfl | hba
  · obtain ⟨hinfo, hlost⟩ := ht rfl
    have htable : (w.setTable b t).tables b = t := Function.update_self ..
    exact ⟨by rw [htable, hinfo]; exact h.lt, by rw [htable, hinfo]; exact hlost, h.mem⟩
  · have htable : (w.setTable b t).tables a = w.tables a := Function.update_of_ne hba.symm ..
    exact ⟨by rw [htable]; exact h.lt, by rw [htable]; exact h.lost, h.mem⟩

theorem Lost.handlePutRequest (h : Lost a i w) {requests : List (τ × KVPairData ℤ)}
    (hok : w.handlePutRequest requests = .ok w') : Lost a i w' := by
  refine forEach_invariant (fun put w₁ w₂ h₁ hround => ?_) h hok
  obtain ⟨g, happly, rfl⟩ := map_eq_ok.mp hround
  refine h₁.setTable fun hput => ?_
  have hlost : g.Lost (w₁.tables a).info i := by
    rw [hput] at happly
    exact h₁.lost.applyUpdates h₁.lt happly
  split_ifs
  · exact ⟨hput ▸ rfl, hlost⟩
  · exact ⟨hput ▸ rfl, hlost⟩

theorem sendUpdates_ne_ok (h : Lost a i w) : sendUpdates a w ≠ .ok w' := by
  intro hok
  obtain ⟨g, hsend, -⟩ := map_eq_ok.mp hok
  exact GlobalTable.sendUpdates_ne_ok h.lt h.lost hsend

theorem Lost.sendUpdates (h : Lost a i w) {b : τ} (hok : sendUpdates b w = .ok w') :
    Lost a i w' := by
  have hba : b ≠ a := by
    rintro rfl
    exact sendUpdates_ne_ok h hok
  obtain ⟨g, -, rfl⟩ := map_eq_ok.mp hok
  exact h.setTable fun hb => absurd hb hba

theorem checkNetwork_ne_ok (h : Lost a i w) (requests : List (τ × KVPairData ℤ)) :
    w.checkNetwork requests ≠ .ok w' := by
  intro hok
  obtain ⟨w₁, hput, hok⟩ := bind_eq_ok.mp hok
  obtain ⟨w₂, hsend, -⟩ := map_eq_ok.mp hok
  have h₁ := h.handlePutRequest hput
  exact forEach_ne_ok (fun _ _ _ hs hround => hs.sendUpdates hround) h₁.mem
    (fun _ _ hs => sendUpdates_ne_ok hs) h₁ w₂ hsend

/-! ## What a hand-over would be -/

/-- `SendUpdates` has taken the worker from `w` to `w'`, and with that handed the entries of
`t` over to the owner of shard `i`: each is in one message, with its `F1`, the partition is
empty, and another `SendUpdates` sends nothing for the shard. -/
structure HandsOver (a : τ) (i : ℕ) (t : StateTable K V D) (w w' : Worker τ K V D) : Prop where
  sent : ∃ msgs, (w'.tables a).table.sent = (w.tables a).table.sent ++ msgs ∧
    (∀ msg ∈ msgs, msg.2.shard = i → msg.1 = (w.tables a).info.owner i) ∧
    ((msgs.filter fun msg => msg.2.shard = i).flatMap fun msg =>
        (w.tables a).info.marshals.decode msg.2.kvData).Perm
      (t.buckets.reduceOption.map fun b => (b.k, b.v1))
  empty : ((w'.tables a).table.partitions i).empty = true
  quiet : ∀ w'', sendUpdates a w' = .ok w'' →
    ∃ msgs, (w''.tables a).table.sent = (w'.tables a).table.sent ++ msgs ∧
      ∀ msg ∈ msgs, msg.2.shard ≠ i

/-- **A lost shard is never handed over.** Whatever the state table of the shard holds and
whatever requests come in, the `CheckNetwork` after the shard has been lost does not
return. -/
theorem lost_shard_never_handed_over {t : StateTable K V D}
    (hi : i < (w.tables a).info.numShards) (hid : (w.tables a).table.id = w.id)
    (hown : (w.tables a).info.owner i = w.id) (hpart : (w.tables a).table.partitions i = .state t)
    (assignments : List (ShardAssignment τ))
    (hlost : ((w.handleShardAssignment assignments).tables a).info.owner i ≠ w.id)
    (requests : List (τ × KVPairData ℤ)) :
    (∀ w', (w.handleShardAssignment assignments).checkNetwork requests ≠ .ok w') ∧
      ¬ ∃ w', (w.handleShardAssignment assignments).checkNetwork requests = .ok w' ∧
        HandsOver a i t (w.handleShardAssignment assignments) w' := by
  have hassigning : Assigning a i w := ⟨hi, hid, ⟨t, hpart⟩, .inl hown⟩
  have hafter := (hassigning.handleShardAssignment assignments).lost
    (by rw [handleShardAssignment_id]; exact hlost)
  refine ⟨fun w' => checkNetwork_ne_ok hafter requests, ?_⟩
  rintro ⟨w', hok, -⟩
  exact checkNetwork_ne_ok hafter requests hok

/-- A table of one shard with vertex 0, on worker 0. -/
def oneVertex : Worker Unit ℕ ℕ Bytes where
  id := 0
  tables _ :=
    ⟨⟨1, fun _ => 0, fun _ => Nat.one_pos, fun _ => 0, fun k => k, sumKernel fun _ => [],
      unaryMarshals, 10⟩,
      ⟨0, 0, fun _ => .state ⟨[some ⟨0, 5, 7, [], 5⟩], 1, 0⟩, fun _ => false, 0, []⟩,
      fun _ => false⟩
  dirtyTables := []

theorem oneVertex_never_handed_over :
    ¬ ∃ w', (oneVertex.handleShardAssignment [⟨(), 0, 1⟩]).checkNetwork [] = .ok w' ∧
      HandsOver () 0 ⟨[some ⟨0, 5, 7, [], 5⟩], 1, 0⟩
        (oneVertex.handleShardAssignment [⟨(), 0, 1⟩]) w' :=
  (lost_shard_never_handed_over Nat.one_pos rfl rfl rfl [⟨(), 0, 1⟩] (by decide) []).2

/-- Moving the shard of vertex 0 to worker 1 makes `CheckNetwork` call a null pointer. -/
theorem one_vertex_not_handed_over :
    (oneVertex.tables ()).table.partitions 0 = .state ⟨[some ⟨0, 5, 7, [], 5⟩], 1, 0⟩ ∧
      ((oneVertex.handleShardAssignment [⟨(), 0, 1⟩]).tables ()).info.owner 0 = 1 ∧
      (match (oneVertex.handleShardAssignment [⟨(), 0, 1⟩]).checkNetwork [] with
        | .error .nullPointer => True
        | _ => False) ∧
      ¬ ∃ w', (oneVertex.handleShardAssignment [⟨(), 0, 1⟩]).checkNetwork [] = .ok w' ∧
        HandsOver () 0 ⟨[some ⟨0, 5, 7, [], 5⟩], 1, 0⟩
          (oneVertex.handleShardAssignment [⟨(), 0, 1⟩]) w' := by
  refine ⟨rfl, rfl, trivial, ?_⟩
  rintro ⟨w', hok, -⟩
  cases hok

end Worker

end MaiterStore
