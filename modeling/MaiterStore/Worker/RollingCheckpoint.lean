/-
# Rolling checkpoints

In a rolling checkpoint every worker switches to the new epoch by itself: when it reads
`START_CHECKPOINT`, or when a marker of a peer comes first. It writes its local shards to
disk, sends a marker to all workers, and until it has the markers of all of them it writes
the put requests of earlier epochs to the delta log (`worker/worker.cc`). Put requests and
markers have the same tag, so that they arrive in order.

What a worker has output and not yet sent when it switches is in no local shard, and the
message that carries it later has the new epoch. The checkpoint misses exactly this.
-/

import MaiterStore.CS.MarkerSnapshot
import MaiterStore.Worker.Checkpoint
import MaiterStore.Worker.Propagation

namespace MaiterStore

open CS CS.Run CS.DeltaIteration CS.MarkerSnapshot

/-- A message with the tag `PUT_REQUEST`. -/
inductive PutMessage (ι : Type*)
  | put (req : KVPairData ι)
  /-- The `epoch_marker` of `source`. -/
  | marker (source : ι) (epoch : ℕ)
  deriving DecidableEq, Repr

/-- A worker that takes rolling checkpoints. `saved` and `deltaLog` are the files of a
checkpoint, by epoch and shard. For the statements, `emitted` records what `g_func` has
output on this worker, and `cut` and `unsent` what it had output, and what of it was
neither sent nor in a local shard, when the worker switched to an epoch. -/
structure RollingWorker (ι K V D : Type*) where
  kernel : MaiterKernel2 ι K V D
  ctl : Checkpointer ι
  saved : ℕ → ℕ → Option (Partition K V D)
  deltaLog : ℕ → ℕ → KVData
  emitted : List (K × V)
  cut : ℕ → List (K × V)
  unsent : ℕ → K → V

/-- The master and the workers. The channels hold the put requests and markers under way,
`starts` the epochs of the `START_CHECKPOINT` messages that a worker has not read, and
`dones` counts the `CHECKPOINT_DONE` messages that the master has not read. -/
structure RollingCluster (ι K V D : Type*) where
  epoch : ℕ
  checkpointing : Bool
  workers : ι → RollingWorker ι K V D
  channel : ι × ι → List (PutMessage ι)
  starts : ι → List ℕ
  dones : ι → ℕ

section Workers

variable {ι K V D : Type*} [DecidableEq ι] [DecidableEq K] [AddCommMonoid V]
  (d : TableDescriptor ι K V D)

/-- What a worker has for `k` outside its local shards: in the output buffer, and in the
delta table of the shard of `k`. -/
def MaiterKernel2.unsent (m : MaiterKernel2 ι K V D) (k : K) : V :=
  tally m.output k + if GlobalTable.isLocalShard d m.table (d.getShard k) then 0 else m.table.f1 d k

namespace RollingWorker

def init (m : MaiterKernel2 ι K V D) : RollingWorker ι K V D :=
  ⟨m, .init, fun _ _ => none, fun _ _ => [], [], fun _ => [], fun _ _ => 0⟩

/-- The switch to an epoch: the local shards are written to disk, and the delta log is
empty. -/
def checkpointed (epoch : ℕ) (ctl : Checkpointer ι) (r : RollingWorker ι K V D) :
    RollingWorker ι K V D :=
  { r with
    kernel := { r.kernel with table := { r.kernel.table with epoch := epoch } }
    ctl := ctl
    saved := Function.update r.saved epoch fun i =>
      if GlobalTable.isLocalShard d r.kernel.table i then some (r.kernel.table.partitions i)
      else none
    deltaLog := Function.update r.deltaLog epoch fun _ => []
    -- recorded for the statements only
    cut := Function.update r.cut epoch r.emitted
    unsent := Function.update r.unsent epoch (r.kernel.unsent d) }

/-- `StartCheckpoint(epoch, CP_ROLLING)` up to the markers, or `none` if the checkpoint is
skipped. -/
def startCheckpoint (epoch : ℕ) (r : RollingWorker ι K V D) : Option (RollingWorker ι K V D) :=
  (r.ctl.startCheckpoint epoch .rolling).map fun ctl => r.checkpointed d epoch ctl

/-- `write_delta(put)`, which ignores data for a shard that is not local. -/
def writeDelta (req : KVPairData ι) (r : RollingWorker ι K V D) : RollingWorker ι K V D :=
  if GlobalTable.isLocalShard d r.kernel.table req.shard then
    let log := r.deltaLog r.ctl.epoch
    let log' := Function.update log req.shard (log req.shard ++ req.kvData)
    { r with deltaLog := Function.update r.deltaLog r.ctl.epoch log' }
  else r

/-- The body of `HandlePutRequest` for a put request. -/
def handlePutRequest (req : KVPairData ι) (r : RollingWorker ι K V D) :
    Except (Fault K) (RollingWorker ι K V D) :=
  (GlobalTable.applyUpdates d req r.kernel.table).bind fun g =>
    let r' := { r with kernel := { r.kernel with table := g } }
    -- "Record messages from our peer channel up until they checkpointed."
    if r.ctl.active = .masterControlled ∨ r.ctl.active = .rolling ∧ req.epoch < r.ctl.epoch then
      .ok (r'.writeDelta d req)
    else .ok r'

end RollingWorker

namespace RollingCluster

/-- What can happen next. -/
inductive Action (ι K : Type*)
  /-- Worker `w` enters `run_iter` for `k` and comes to `updateF1`. -/
  | absorb (w : ι) (k : K)
  /-- Worker `w` does one round of the loop at the end of `run_iter`. -/
  | spread (w : ι)
  | sendUpdates (w : ι)
  /-- Worker `v` reads the oldest message from `u`. -/
  | handlePutRequest (u v : ι)
  /-- Worker `w` reads a `START_CHECKPOINT`. -/
  | checkForMasterUpdates (w : ι)
  /-- The master starts a checkpoint. -/
  | startCheckpoint
  /-- The master reads the `CHECKPOINT_DONE` of all workers. -/
  | finishCheckpoint
  deriving DecidableEq, Repr

/-- The cluster before the first checkpoint. -/
def init (s₀ : Cluster ι K V D) : RollingCluster ι K V D :=
  ⟨0, false, fun w => .init (s₀.kernels w), fun _ => [], fun _ => [], fun _ => 0⟩

def setWorker (s : RollingCluster ι K V D) (w : ι) (r : RollingWorker ι K V D) :
    RollingCluster ι K V D :=
  { s with workers := Function.update s.workers w r }

/-- Take over the worker `w` after a call, with the messages it has sent. -/
def commit (s : RollingCluster ι K V D) (w : ι) (r : RollingWorker ι K V D) :
    RollingCluster ι K V D :=
  let sent := r.kernel.table.sent
  { s.setWorker w { r with kernel :=
      { r.kernel with table := { r.kernel.table with sent := [] } } } with
    channel := post s.channel w fun v =>
      (sent.filter fun msg => msg.1 = v).map fun msg => .put msg.2 }

/-- `StartCheckpoint(epoch, CP_ROLLING)` on `w`. -/
def startCheckpoint (w : ι) (epoch : ℕ) (s : RollingCluster ι K V D) : RollingCluster ι K V D :=
  match (s.workers w).startCheckpoint d epoch with
  | none => s
  | some r => { s.setWorker w r with channel := post s.channel w fun _ => [.marker w epoch] }

variable [Fintype ι]

/-- The part of `UpdateEpoch` after `StartCheckpoint`. -/
def recordPeer (v peer : ι) (peerEpoch : ℕ) (s : RollingCluster ι K V D) :
    RollingCluster ι K V D :=
  let r := s.workers v
  let ctl : Checkpointer ι := { r.ctl with peers := Function.update r.ctl.peers peer peerEpoch }
  -- `checkpoint_done`: the markers of all workers have come
  if ∀ i, ctl.peers i = ctl.epoch then
    { s.setWorker v { r with ctl := ctl.finishCheckpoint } with
      dones := Function.update s.dones v (s.dones v + 1) }
  else s.setWorker v { r with ctl := ctl }

/-- `UpdateEpoch(peer, peer_epoch)` on `v`. -/
def updateEpoch (v peer : ι) (peerEpoch : ℕ) (s : RollingCluster ι K V D) :
    RollingCluster ι K V D :=
  recordPeer v peer peerEpoch
    (if (s.workers v).ctl.epoch < peerEpoch then startCheckpoint d v peerEpoch s else s)

variable (store : K → D)

/-- One action. An action that is not possible changes nothing. -/
def step : Action ι K → RollingCluster ι K V D → Except (Fault K) (RollingCluster ι K V D)
  | .absorb w k, s =>
    let r := s.workers w
    if r.kernel.output.isEmpty && GlobalTable.contains d k r.kernel.table then
      (MaiterKernel2.absorb d k (store k) r.kernel).bind fun m =>
        .ok (s.commit w { r with kernel := m, emitted := r.emitted ++ m.output })
    else .ok s
  | .spread w, s =>
    (MaiterKernel2.spread d (s.workers w).kernel).bind fun m =>
      .ok (s.commit w { s.workers w with kernel := m })
  | .sendUpdates w, s =>
    let r := s.workers w
    (GlobalTable.sendUpdates d r.kernel.table).bind fun g =>
      .ok (s.commit w { r with kernel := { r.kernel with table := g } })
  | .handlePutRequest u v, s =>
    match s.channel (u, v) with
    | [] => .ok s
    | .put req :: rest =>
      ((s.workers v).handlePutRequest d req).bind fun r =>
        .ok ({ s with channel := Function.update s.channel (u, v) rest }.commit v r)
    | .marker source epoch :: rest =>
      .ok (updateEpoch d v source epoch
        { s with channel := Function.update s.channel (u, v) rest })
  | .checkForMasterUpdates w, s =>
    match s.starts w with
    | [] => .ok s
    | epoch :: rest =>
      -- the loop over `START_CHECKPOINT`, one message at a time
      .ok (startCheckpoint d w epoch { s with starts := Function.update s.starts w rest })
  | .startCheckpoint, s =>
    if s.checkpointing then .ok s
    else .ok { s with
      epoch := s.epoch + 1
      checkpointing := true
      starts := fun w => s.starts w ++ [s.epoch + 1] }
  | .finishCheckpoint, s =>
    if s.checkpointing && decide (∀ w, s.dones w ≠ 0) then
      .ok { s with checkpointing := false, dones := fun w => s.dones w - 1 }
    else .ok s

/-- A run. -/
def run : List (Action ι K) → RollingCluster ι K V D → Except (Fault K) (RollingCluster ι K V D) :=
  forEach (step d store)

end RollingCluster

end Workers

/-! ## The snapshot of one key -/

section View

variable {ι K V D : Type*} [DecidableEq ι] [DecidableEq K] [AddCommMonoid V]
  (d : TableDescriptor ι K V D)

/-- What a worker has for `k`: in the partition of its shard and in the output buffer. -/
def MaiterKernel2.amount (m : MaiterKernel2 ι K V D) (k : K) : V :=
  m.table.f1 d k + m.table.f2 d k + tally m.output k

/-- `F1` and `F2` of `k` in a checkpoint file. -/
def savedAmount (k : K) : Option (Partition K V D) → V
  | none => 0
  | some part => part.f1 d.hash k + part.f2 d.hash k

namespace RollingCluster

/-- What a message has for `k`. -/
def item (k : K) : PutMessage ι → Item V
  | .put req => .put req.epoch (tally (d.marshals.decode req.kvData) k)
  | .marker _ epoch => .marker epoch

/-- The cluster as far as `k` is concerned. -/
def view (k : K) (s : RollingCluster ι K V D) : MarkerSnapshot.State ι V where
  current := s.epoch
  busy := s.checkpointing
  epoch w := (s.workers w).ctl.epoch
  recording w := decide ((s.workers w).ctl.active = .rolling)
  heard v u := (s.workers v).ctl.peers u
  done := s.dones
  value w := (s.workers w).kernel.amount d k
  input w := tally (s.workers w).emitted k
  channel p := (s.channel p).map (item d k)
  saved w e := savedAmount d k ((s.workers w).saved e (d.getShard k))
  lost w e := (s.workers w).unsent e k
  logged w e := tally (d.marshals.decode ((s.workers w).deltaLog e (d.getShard k))) k
  inputAt w e := tally ((s.workers w).cut e) k

/-- What holds of worker `w` between its calls. -/
structure Sound (vertices : Set K) (w : ι) (r : RollingWorker ι K V D) : Prop where
  kernel : Cluster.Sound d vertices Set.univ w r.kernel
  sent : r.kernel.table.sent = []
  epoch_eq : r.kernel.table.epoch = r.ctl.epoch
  active : r.ctl.active ≠ .masterControlled

/-- What a message from `u` to `v` is. -/
def MessageSound (u v : ι) : PutMessage ι → Prop
  | .put req => GlobalTable.Addressed d Set.univ (v, req)
  | .marker source _ => source = u

/-- What holds in every state, whatever the order of the markers. -/
structure Consistent (vertices : Set K) (s : RollingCluster ι K V D) : Prop where
  worker : ∀ w, Sound d vertices w (s.workers w)
  message : ∀ u v, ∀ msg ∈ s.channel (u, v), MessageSound d u v msg
  starts : ∀ w, ∀ e ∈ s.starts w, e ≤ s.epoch

end RollingCluster

end View

/-! ## Calls of a kernel -/

namespace MaiterKernel2

section Transfers

open GlobalTable

variable {ι K V D : Type*} [DecidableEq ι] [DecidableEq K] [AddCommMonoid V]
  {d : TableDescriptor ι K V D} {vertices : Set K} {m m' : MaiterKernel2 ι K V D} {k : K}

omit [DecidableEq ι] in
theorem sum_tally_messages (msgs : List (ι × KVPairData ι)) (k : K) :
    (msgs.map fun msg => tally (d.marshals.decode msg.2.kvData) k).sum =
      tally (pairsIn d msgs) k := by
  induction msgs with
  | nil => rfl
  | cons msg msgs ih =>
    have hcons : pairsIn d (msg :: msgs) = d.marshals.decode msg.2.kvData ++ pairsIn d msgs :=
      List.flatMap_cons
    rw [List.map_cons, List.sum_cons, ih, hcons, tally_append]

/-- A call that takes in the pairs `new` and sends part of what the worker has. -/
structure Transfers (d : TableDescriptor ι K V D) (vertices : Set K)
    (m m' : MaiterKernel2 ι K V D) (new : List (K × V)) : Prop where
  wellFormed : WellFormed d vertices Set.univ m'.table
  id_eq : m'.table.id = m.table.id
  epoch_eq : m'.table.epoch = m.table.epoch
  sent_epoch : ∀ msg ∈ m'.table.sent, msg.2.epoch = m.table.epoch
  amount_eq : ∀ k, m.amount d k + tally new k = m'.amount d k + tally (pairsIn d m'.table.sent) k

omit [DecidableEq ι] in
theorem Transfers.of_adds {g : GlobalTable ι K V D} {pairs output new : List (K × V)}
    (hsent : m.table.sent = []) (hadds : Adds d vertices Set.univ m.table g pairs)
    (houtput : ∀ k, tally m.output k + tally new k = tally output k + tally pairs k) :
    Transfers d vertices m ⟨g, output⟩ new where
  wellFormed := hadds.wellFormed
  id_eq := hadds.id_eq
  epoch_eq := hadds.epoch_eq
  sent_epoch := by
    obtain ⟨msgs, heq, hmsgs⟩ := hadds.sent_eq
    rw [hsent, List.nil_append] at heq
    exact heq ▸ hmsgs
  amount_eq k := by
    -- nothing was sent before, so all of `g.sent` is from this call
    have hheld : g.f1 d k + tally (pairsIn d g.sent) k = m.table.f1 d k + tally pairs k := by
      have heq := hadds.held_eq k
      rw [held, held, hsent] at heq
      simpa [pairsIn] using heq
    calc m.amount d k + tally new k
        = m.table.f1 d k + m.table.f2 d k + (tally m.output k + tally new k) := add_assoc ..
      _ = m.table.f1 d k + tally pairs k + (m.table.f2 d k + tally output k) := by
          rw [houtput]
          ac_rfl
      _ = g.f1 d k + g.f2 d k + tally output k + tally (pairsIn d g.sent) k := by
          rw [← hheld, hadds.f2_eq]
          ac_rfl

omit [DecidableEq ι] in
theorem AbsorbsAt.transfers {data : D} (hsent : m.table.sent = []) (hidle : m.output = [])
    (habs : AbsorbsAt d vertices Set.univ k data m m') : Transfers d vertices m m' m'.output where
  wellFormed := habs.wellFormed
  id_eq := habs.id_eq
  epoch_eq := habs.epoch_eq
  sent_epoch := by
    rw [habs.sent_eq, hsent]
    nofun
  amount_eq j := by
    rw [habs.sent_eq, hsent, amount, amount, habs.f1_eq, habs.f2_eq, hidle]
    by_cases hj : k = j
    · subst hj
      simp [pairsIn, add_comm]
    · simp [pairsIn, hj]

end Transfers

end MaiterKernel2

/-! ## Every action is a sequence of steps of the snapshot -/

namespace RollingCluster

section Views

variable {ι K V D : Type*} [DecidableEq ι] [DecidableEq K] [AddCommMonoid V]
  {d : TableDescriptor ι K V D} {vertices : Set K} {s : RollingCluster ι K V D} {k : K} {u v w : ι}
  {r : RollingWorker ι K V D} {m : MaiterKernel2 ι K V D}

omit [DecidableEq K] [AddCommMonoid V] in
theorem comp_setWorker {B : Type*} (F : RollingWorker ι K V D → B) :
    (fun j => F ((s.setWorker w r).workers j)) =
      Function.update (fun j => F (s.workers j)) w (F r) :=
  Function.comp_update F s.workers w r

/-- Replacing a worker changes the view at this worker. -/
theorem view_setWorker (s : RollingCluster ι K V D) (w : ι) (r : RollingWorker ι K V D) :
    view d k (s.setWorker w r) = { view d k s with
      epoch := Function.update (view d k s).epoch w r.ctl.epoch
      recording := Function.update (view d k s).recording w (decide (r.ctl.active = .rolling))
      heard := Function.update (view d k s).heard w r.ctl.peers
      value := Function.update (view d k s).value w (r.kernel.amount d k)
      input := Function.update (view d k s).input w (tally r.emitted k)
      saved := Function.update (view d k s).saved w fun e =>
        savedAmount d k (r.saved e (d.getShard k))
      lost := Function.update (view d k s).lost w fun e => r.unsent e k
      logged := Function.update (view d k s).logged w fun e =>
        tally (d.marshals.decode (r.deltaLog e (d.getShard k))) k
      inputAt := Function.update (view d k s).inputAt w fun e => tally (r.cut e) k } := by
  refine State.ext rfl rfl (comp_setWorker fun r => r.ctl.epoch)
    (comp_setWorker fun r => decide (r.ctl.active = .rolling)) (comp_setWorker fun r => r.ctl.peers)
    rfl (comp_setWorker fun r => r.kernel.amount d k) (comp_setWorker fun r => tally r.emitted k)
    rfl ?_ (comp_setWorker fun r e => r.unsent e k) ?_ (comp_setWorker fun r e => tally (r.cut e) k)
  · exact comp_setWorker fun r e => savedAmount d k (r.saved e (d.getShard k))
  · exact comp_setWorker fun r e => tally (d.marshals.decode (r.deltaLog e (d.getShard k))) k

omit [DecidableEq ι] in
theorem view_with (s : RollingCluster ι K V D) (channel : ι × ι → List (PutMessage ι))
    (dones : ι → ℕ) : view d k { s with channel := channel, dones := dones } =
      { view d k s with channel := fun p => (channel p).map (item d k), done := dones } :=
  rfl

/-- A change of the checkpoint state alone. -/
theorem view_setCtl (s : RollingCluster ι K V D) (w : ι) (ctl : Checkpointer ι) :
    view d k (s.setWorker w { s.workers w with ctl := ctl }) = { view d k s with
      epoch := Function.update (view d k s).epoch w ctl.epoch
      recording := Function.update (view d k s).recording w (decide (ctl.active = .rolling))
      heard := Function.update (view d k s).heard w ctl.peers } := by
  rw [view_setWorker]
  exact State.ext rfl rfl rfl rfl rfl rfl (Function.update_eq_self ..)
    (Function.update_eq_self ..) rfl
    (Function.update_eq_self ..) (Function.update_eq_self ..) (Function.update_eq_self ..)
    (Function.update_eq_self ..)

/-- The messages of a call, as far as `k` is concerned. -/
def messages (d : TableDescriptor ι K V D) (k : K) (m : MaiterKernel2 ι K V D) : List (ι × V) :=
  m.table.sent.map fun msg => (msg.1, tally (d.marshals.decode msg.2.kvData) k)

theorem map_item_sent {e : ℕ} (hepoch : ∀ msg ∈ m.table.sent, msg.2.epoch = e) (v : ι) :
    ((m.table.sent.filter fun msg => msg.1 = v).map fun msg =>
      PutMessage.put msg.2).map (item d k) =
      puts e (messages d k m) v := by
  rw [puts, messages, List.filter_map, List.map_map, List.map_map]
  apply List.map_congr_left
  intro msg hmsg
  rw [← hepoch msg (List.mem_of_mem_filter hmsg)]
  rfl

/-- What a call sends is appended to the channels. -/
theorem view_commit_eq {e : ℕ} (hepoch : ∀ msg ∈ r.kernel.table.sent, msg.2.epoch = e) :
    view d k (s.commit w r) = { view d k (s.setWorker w r) with
      channel := post (view d k s).channel w (puts e (messages d k r.kernel)) } := by
  have hchannel : (view d k (s.commit w r)).channel =
      post (view d k s).channel w (puts e (messages d k r.kernel)) := by
    funext p
    change ((post s.channel w fun v => (r.kernel.table.sent.filter fun msg => msg.1 = v).map
      fun msg => .put msg.2) p).map (item d k) = _
    rw [map_post]
    simp only [map_item_sent hepoch]
    rfl
  -- without its messages the worker is the same for `k`
  have hset := view_setWorker (d := d) (k := k) s w
    { r with kernel := { r.kernel with table := { r.kernel.table with sent := [] } } }
  calc view d k (s.commit w r)
      = { view d k (s.setWorker w { r with
            kernel := { r.kernel with table := { r.kernel.table with sent := [] } } }) with
          channel := post (view d k s).channel w (puts e (messages d k r.kernel)) } :=
        State.ext rfl rfl rfl rfl rfl rfl rfl rfl hchannel rfl rfl rfl rfl
    _ = { view d k (s.setWorker w r) with
          channel := post (view d k s).channel w (puts e (messages d k r.kernel)) } := by
        rw [hset, view_setWorker]
        rfl

/-- A call on `w` that leaves the checkpoint alone is a piece of work. -/
theorem view_commit {emitted new : List (K × V)} (hemitted : emitted = (s.workers w).emitted ++ new)
    (hepoch : ∀ msg ∈ m.table.sent, msg.2.epoch = (s.workers w).ctl.epoch) :
    view d k (s.commit w { s.workers w with kernel := m, emitted := emitted }) =
      worked (view d k s) w (tally new k) (m.amount d k) (messages d k m) := by
  rw [view_commit_eq hepoch, view_setWorker]
  refine State.ext rfl rfl (Function.update_eq_self ..) (Function.update_eq_self ..)
    (Function.update_eq_self ..) rfl rfl ?_ rfl (Function.update_eq_self ..)
    (Function.update_eq_self ..) (Function.update_eq_self ..) (Function.update_eq_self ..)
  simp only [hemitted, tally_append]
  rfl

omit [DecidableEq ι] in
/-- Messages to other workers than the owner of `k` have nothing for it. -/
theorem tally_eq_zero_of_addressed {targets : Set K} {msg : ι × KVPairData ι}
    (hmsg : GlobalTable.Addressed d targets msg) (hne : msg.1 ≠ d.owner (d.getShard k)) :
    tally (d.marshals.decode msg.2.kvData) k = 0 := by
  apply tally_eq_zero
  rintro kv hkv rfl
  rw [hmsg.to_owner, (hmsg.pairs kv hkv).1] at hne
  exact hne rfl

omit [DecidableEq ι] in
theorem messages_away {targets : Set K} (hwf : GlobalTable.WellFormed d vertices targets m.table) :
    ∀ msg ∈ messages d k m, msg.1 ≠ d.owner (d.getShard k) → msg.2 = 0 := by
  intro msg hmem hne
  obtain ⟨msg', hmem', rfl⟩ := List.mem_map.mp hmem
  exact tally_eq_zero_of_addressed (hwf.sent msg' hmem') hne

omit [DecidableEq ι] in
theorem sum_messages : ((messages d k m).map Prod.snd).sum =
    tally (GlobalTable.pairsIn d m.table.sent) k := by
  rw [messages, List.map_map]
  exact MaiterKernel2.sum_tally_messages m.table.sent k

/-- What a put request has for `k` is appended to the delta log of the shard of `k`. -/
theorem logged_writeDelta {targets : Set K} {req : KVPairData ι}
    (hmsg : GlobalTable.Addressed d targets (r.kernel.table.id, req)) :
    (fun e => tally (d.marshals.decode ((r.writeDelta d req).deltaLog e (d.getShard k))) k) =
      Function.update
        (fun e => tally (d.marshals.decode (r.deltaLog e (d.getShard k))) k) r.ctl.epoch
        (tally (d.marshals.decode (r.deltaLog r.ctl.epoch (d.getShard k))) k +
          tally (d.marshals.decode req.kvData) k) := by
  have hlocal : GlobalTable.isLocalShard d r.kernel.table req.shard = true :=
    decide_eq_true hmsg.to_owner.symm
  funext e
  simp only [RollingWorker.writeDelta, hlocal, if_true]
  by_cases he : e = r.ctl.epoch
  · subst he
    simp only [Function.update_self]
    -- a put request has keys of one shard only
    by_cases hshard : d.getShard k = req.shard
    · rw [← hshard, Function.update_self, Marshals.decode, List.map_append, tally_append]
      rfl
    · have hzero : tally (d.marshals.decode req.kvData) k = 0 :=
        tally_eq_zero fun kv hkv heq => hshard (heq ▸ (hmsg.pairs kv hkv).1)
      rw [Function.update_of_ne hshard, hzero, add_zero]
  · simp only [Function.update_of_ne he]

/-- The worker after a put request. -/
def afterPut (d : TableDescriptor ι K V D) (r : RollingWorker ι K V D) (req : KVPairData ι)
    (g : GlobalTable ι K V D) : RollingWorker ι K V D :=
  let r' := { r with kernel := { r.kernel with table := g } }
  if r.ctl.active = .rolling ∧ req.epoch < r.ctl.epoch then r'.writeDelta d req else r'

omit [DecidableEq K] [AddCommMonoid V] in
/-- A put request changes the kernel and the delta log. -/
theorem afterPut_eq (r : RollingWorker ι K V D) (req : KVPairData ι) (g : GlobalTable ι K V D) :
    afterPut d r req g = { r with
      kernel := { r.kernel with table := g }
      deltaLog := (afterPut d r req g).deltaLog } := by
  simp only [afterPut, RollingWorker.writeDelta]
  split_ifs <;> rfl

/-- What a put request has for `k` is logged if it comes from an earlier epoch. -/
theorem logged_afterPut {req : KVPairData ι} {g : GlobalTable ι K V D}
    (hmsg : GlobalTable.Addressed d Set.univ (g.id, req)) :
    (fun e => tally (d.marshals.decode ((afterPut d r req g).deltaLog e (d.getShard k))) k) =
      if decide (r.ctl.active = .rolling) = true ∧ req.epoch < r.ctl.epoch then
        Function.update (fun e => tally (d.marshals.decode (r.deltaLog e (d.getShard k))) k)
          r.ctl.epoch (tally (d.marshals.decode (r.deltaLog r.ctl.epoch (d.getShard k))) k +
            tally (d.marshals.decode req.kvData) k)
      else fun e => tally (d.marshals.decode (r.deltaLog e (d.getShard k))) k := by
  simp only [afterPut, decide_eq_true_iff]
  split_ifs
  · exact logged_writeDelta (r := { r with kernel := { r.kernel with table := g } }) hmsg
  · rfl

/-- A put request is received, and what its updates send is a piece of work. -/
theorem view_commit_afterPut {req : KVPairData ι} {rest : List (PutMessage ι)}
    {g : GlobalTable ι K V D} (hid : g.id = v)
    (hmsg : GlobalTable.Addressed d Set.univ (v, req))
    (hepoch : ∀ msg ∈ g.sent, msg.2.epoch = (s.workers v).ctl.epoch) :
    view d k ({ s with channel := Function.update s.channel (u, v) rest }.commit v
        (afterPut d (s.workers v) req g)) =
      worked (received (view d k s) u v req.epoch (tally (d.marshals.decode req.kvData) k)
          (rest.map (item d k))) v 0
        (MaiterKernel2.amount d { (s.workers v).kernel with table := g } k)
        (messages d k { (s.workers v).kernel with table := g }) := by
  have hchannel : (fun p => (Function.update s.channel (u, v) rest p).map (item d k)) =
      Function.update (view d k s).channel (u, v) (rest.map (item d k)) :=
    Function.comp_update (List.map (item d k)) s.channel (u, v) rest
  have hlogged := logged_afterPut (k := k) (r := s.workers v) (hid.symm ▸ hmsg)
  rw [afterPut_eq, view_commit_eq hepoch, view_setWorker]
  -- the channel, the log and the amount on `v` change, and nothing else that is looked at
  refine State.ext rfl rfl (Function.update_eq_self ..) (Function.update_eq_self ..)
    (Function.update_eq_self ..) rfl (Function.update_idem ..).symm ?_ ?_
      (Function.update_eq_self ..)
    (Function.update_eq_self ..) ?_ (Function.update_eq_self ..)
  · simp only [worked, received, add_zero, Function.update_eq_self]
    exact Function.update_eq_self ..
  · exact congrArg (fun channel => post channel v _) hchannel
  · refine (congrArg (Function.update _ v) hlogged).trans ?_
    simp only [worked, received]
    by_cases hlog : decide ((s.workers v).ctl.active = .rolling) = true ∧
        req.epoch < (s.workers v).ctl.epoch
    · rw [if_pos hlog]
      exact (if_pos hlog).symm
    · rw [if_neg hlog]
      exact (Function.update_eq_self ..).trans (if_neg hlog).symm

theorem startCheckpoint_of_lt {e : ℕ} (hlt : (s.workers w).ctl.epoch < e) :
    startCheckpoint d w e s =
      { s.setWorker w ((s.workers w).checkpointed d e
          { (s.workers w).ctl with epoch := e, active := .rolling }) with
        channel := post s.channel w fun _ => [.marker w e] } := by
  have hstart : (s.workers w).startCheckpoint d e = some ((s.workers w).checkpointed d e
      { (s.workers w).ctl with epoch := e, active := .rolling }) := by
    rw [RollingWorker.startCheckpoint, Checkpointer.startCheckpoint, if_neg (not_le.mpr hlt)]
    rfl
  simp only [startCheckpoint, hstart]

theorem startCheckpoint_of_le {e : ℕ} (hle : e ≤ (s.workers w).ctl.epoch) :
    startCheckpoint d w e s = s := by
  have hstart : (s.workers w).startCheckpoint d e = none := by
    rw [RollingWorker.startCheckpoint, Checkpointer.startCheckpoint, if_pos hle]
    rfl
  simp only [startCheckpoint, hstart]

/-- The switch of a worker: its local shards are saved, and what is unsent is left out. -/
theorem view_startCheckpoint (hlt : (s.workers w).ctl.epoch < s.epoch) :
    view d k (startCheckpoint d w s.epoch s) = switched (view d k s) w
      (if GlobalTable.isLocalShard d (s.workers w).kernel.table (d.getShard k) then
        (s.workers w).kernel.table.f1 d k + (s.workers w).kernel.table.f2 d k else 0)
      ((s.workers w).kernel.unsent d k) := by
  -- each file of the new epoch, looked at for `k`
  have hsaved := Function.comp_update (fun files => savedAmount d k (files (d.getShard k)))
    (s.workers w).saved s.epoch fun i =>
      if GlobalTable.isLocalShard d (s.workers w).kernel.table i then
        some ((s.workers w).kernel.table.partitions i) else none
  have hlost := Function.comp_update (fun unsent => unsent k) (s.workers w).unsent s.epoch
    ((s.workers w).kernel.unsent d)
  have hlogged := Function.comp_update
    (fun log : ℕ → KVData => tally (d.marshals.decode (log (d.getShard k))) k)
    (s.workers w).deltaLog s.epoch fun _ => []
  have hcut := Function.comp_update (fun pairs => tally pairs k) (s.workers w).cut s.epoch
    (s.workers w).emitted
  have hkept : savedAmount d k
      (if GlobalTable.isLocalShard d (s.workers w).kernel.table (d.getShard k) then
        some ((s.workers w).kernel.table.partitions (d.getShard k)) else none) =
      if GlobalTable.isLocalShard d (s.workers w).kernel.table (d.getShard k) then
        (s.workers w).kernel.table.f1 d k + (s.workers w).kernel.table.f2 d k else 0 := by
    split_ifs <;> rfl
  rw [hkept] at hsaved
  have hset := view_setWorker (d := d) (k := k) s w
    ((s.workers w).checkpointed d s.epoch
      { (s.workers w).ctl with epoch := s.epoch, active := .rolling })
  calc view d k (startCheckpoint d w s.epoch s)
      = { view d k (s.setWorker w ((s.workers w).checkpointed d s.epoch
            { (s.workers w).ctl with epoch := s.epoch, active := .rolling })) with
          channel := post (view d k s).channel w fun _ => [.marker s.epoch] } := by
        rw [startCheckpoint_of_lt hlt]
        refine State.ext rfl rfl rfl rfl rfl rfl rfl rfl ?_ rfl rfl rfl rfl
        funext p
        exact map_post (item d k) s.channel w (fun _ => [.marker w s.epoch]) p
    _ = _ := by
        rw [hset]
        exact State.ext rfl rfl rfl rfl (Function.update_eq_self ..) rfl
          (Function.update_eq_self ..)
          (Function.update_eq_self ..) rfl (congrArg (Function.update _ w) hsaved)
          (congrArg (Function.update _ w) hlost) (congrArg (Function.update _ w) hlogged)
          (congrArg (Function.update _ w) hcut)

variable [Fintype ι]

theorem view_recordPeer {e : ℕ} {rest : List (PutMessage ι)} :
    view d k (recordPeer v u e { s with channel := Function.update s.channel (u, v) rest }) =
      hear (view d k s) u v e (rest.map (item d k)) := by
  have hchannel : (fun p => (Function.update s.channel (u, v) rest p).map (item d k)) =
      Function.update (view d k s).channel (u, v) (rest.map (item d k)) :=
    Function.comp_update (List.map (item d k)) s.channel (u, v) rest
  by_cases hall : ∀ i, Function.update (s.workers v).ctl.peers u e i = (s.workers v).ctl.epoch
  · have hrecord : recordPeer v u e { s with channel := Function.update s.channel (u, v) rest } =
        { s.setWorker v { s.workers v with
            ctl := { (s.workers v).ctl with
              active := .none, peers := fun _ => (s.workers v).ctl.epoch } } with
          channel := Function.update s.channel (u, v) rest
          dones := Function.update s.dones v (s.dones v + 1) } := if_pos hall
    have hctl := view_setCtl (d := d) (k := k) s v
      { (s.workers v).ctl with active := .none, peers := fun _ => (s.workers v).ctl.epoch }
    rw [hrecord, view_with, hctl, hchannel,
      show hear (view d k s) u v e (rest.map (item d k)) = _ from if_pos hall]
    exact State.ext rfl rfl (Function.update_eq_self ..) rfl rfl rfl rfl rfl rfl rfl rfl rfl rfl
  · have hrecord : recordPeer v u e { s with channel := Function.update s.channel (u, v) rest } =
        { s.setWorker v { s.workers v with ctl :=
            { (s.workers v).ctl with peers := Function.update (s.workers v).ctl.peers u e } } with
          channel := Function.update s.channel (u, v) rest
          dones := s.dones } := if_neg hall
    have hctl := view_setCtl (d := d) (k := k) s v
      { (s.workers v).ctl with peers := Function.update (s.workers v).ctl.peers u e }
    rw [hrecord, view_with, hctl, hchannel,
      show hear (view d k s) u v e (rest.map (item d k)) = _ from if_neg hall]
    exact State.ext rfl rfl (Function.update_eq_self ..) (Function.update_eq_self ..) rfl
      rfl rfl rfl
      rfl rfl rfl rfl rfl

end Views

section Simulation

variable {ι K V D : Type*} [DecidableEq ι] [DecidableEq K] [AddCommMonoid V]
  {d : TableDescriptor ι K V D} {store : K → D} {vertices : Set K} {s s' : RollingCluster ι K V D}
  {k : K} {u v w : ι} {r : RollingWorker ι K V D} {m : MaiterKernel2 ι K V D}

/-- The state `s'` after an action in `s` is consistent, and for every key the action is a
sequence of steps of the snapshot. -/
structure Simulates [Fintype ι] (d : TableDescriptor ι K V D) (vertices : Set K)
    (s s' : RollingCluster ι K V D) : Prop where
  consistent : Consistent d vertices s'
  steps : ∀ k, Control (view d k s) →
    Relation.ReflTransGen (Step (d.owner (d.getShard k))) (view d k s) (view d k s')

omit [AddCommMonoid V] in
theorem Consistent.setWorker (hcons : Consistent d vertices s) (hr : Sound d vertices w r) :
    Consistent d vertices (s.setWorker w r) where
  worker w' := by
    simp only [RollingCluster.setWorker]
    by_cases hw : w' = w
    · subst hw
      rwa [Function.update_self]
    · rw [Function.update_of_ne hw]
      exact hcons.worker w'
  message := hcons.message
  starts := hcons.starts

omit [AddCommMonoid V] in
theorem Consistent.post (hcons : Consistent d vertices s) {new : ι → List (PutMessage ι)}
    (hnew : ∀ v, ∀ msg ∈ new v, MessageSound d w v msg) :
    Consistent d vertices { s with channel := post s.channel w new } where
  worker := hcons.worker
  message u v msg hmsg := by
    simp only [MarkerSnapshot.post] at hmsg
    split_ifs at hmsg with hu
    · rcases List.mem_append.mp hmsg with hold | hlast
      · exact hcons.message u v msg hold
      · exact hu ▸ hnew v msg hlast
    · exact hcons.message u v msg hmsg
  starts := hcons.starts

omit [AddCommMonoid V] in
theorem Consistent.pop (hcons : Consistent d vertices s) {msg : PutMessage ι}
    {rest : List (PutMessage ι)} (hmsg : s.channel (u, v) = msg :: rest) :
    Consistent d vertices { s with channel := Function.update s.channel (u, v) rest } where
  worker := hcons.worker
  message u' v' msg' hmem := by
    by_cases hp : (u', v') = (u, v)
    · obtain ⟨rfl, rfl⟩ := Prod.mk.inj hp
      simp only [Function.update_self] at hmem
      exact hcons.message u' v' msg' (hmsg ▸ List.mem_cons_of_mem _ hmem)
    · simp only [Function.update_of_ne hp] at hmem
      exact hcons.message u' v' msg' hmem
  starts := hcons.starts

omit [AddCommMonoid V] in
theorem Consistent.commit (hcons : Consistent d vertices s) (hid : r.kernel.table.id = w)
    (hwf : GlobalTable.WellFormed d vertices Set.univ r.kernel.table)
    (hepoch : r.kernel.table.epoch = r.ctl.epoch) (hactive : r.ctl.active ≠ .masterControlled) :
    Consistent d vertices (s.commit w r) := by
  have hsound : Sound d vertices w { r with kernel :=
      { r.kernel with table := { r.kernel.table with sent := [] } } } :=
    ⟨⟨hid, ⟨hwf.state, hwf.delta, nofun⟩, fun _ _ => Set.mem_univ _⟩, rfl, hepoch, hactive⟩
  refine (hcons.setWorker hsound).post fun v msg hmsg => ?_
  obtain ⟨msg', hmem, rfl⟩ := List.mem_map.mp hmsg
  obtain ⟨hsent, hdst⟩ := List.mem_filter.mp hmem
  have haddr := hwf.sent msg' hsent
  exact of_decide_eq_true hdst ▸ haddr

theorem Consistent.startCheckpoint (hcons : Consistent d vertices s) (w : ι) (e : ℕ) :
    Consistent d vertices (startCheckpoint d w e s) := by
  rcases Nat.lt_or_ge (s.workers w).ctl.epoch e with hlt | hle
  · rw [startCheckpoint_of_lt hlt]
    have hold := hcons.worker w
    have hwf := hold.kernel.wellFormed
    have hsound : Sound d vertices w ((s.workers w).checkpointed d e
        { (s.workers w).ctl with epoch := e, active := .rolling }) :=
      ⟨⟨hold.kernel.id_eq, ⟨hwf.state, hwf.delta, hwf.sent⟩, hold.kernel.output⟩, hold.sent,
        rfl, nofun⟩
    refine (hcons.setWorker hsound).post fun v msg hmsg => ?_
    rw [List.mem_singleton.mp hmsg]
    exact rfl
  · rwa [startCheckpoint_of_le hle]

variable [Fintype ι]

omit [AddCommMonoid V] in
theorem Consistent.recordPeer (hcons : Consistent d vertices s) (v peer : ι) (e : ℕ) :
    Consistent d vertices (recordPeer v peer e s) := by
  have hold := hcons.worker v
  rw [RollingCluster.recordPeer]
  split_ifs
  · have hsound : Sound d vertices v { s.workers v with ctl :=
        { (s.workers v).ctl with active := .none, peers := fun _ => (s.workers v).ctl.epoch } } :=
      ⟨hold.kernel, hold.sent, hold.epoch_eq, nofun⟩
    have hset := hcons.setWorker hsound
    exact ⟨hset.worker, hset.message, hset.starts⟩
  · exact hcons.setWorker ⟨hold.kernel, hold.sent, hold.epoch_eq, hold.active⟩

/-- A call on a kernel is a piece of work. -/
theorem simulates_commit (hcons : Consistent d vertices s) {new emitted : List (K × V)}
    (htr : MaiterKernel2.Transfers d vertices (s.workers w).kernel m new)
    (hemitted : emitted = (s.workers w).emitted ++ new) :
    Simulates d vertices s (s.commit w { s.workers w with kernel := m, emitted := emitted }) := by
  have hold := hcons.worker w
  refine ⟨hcons.commit (htr.id_eq.trans hold.kernel.id_eq) htr.wellFormed
    (htr.epoch_eq.trans hold.epoch_eq) hold.active, fun k _ => .single ?_⟩
  have hepoch : ∀ msg ∈ m.table.sent, msg.2.epoch = (s.workers w).ctl.epoch :=
    fun msg hmsg => (htr.sent_epoch msg hmsg).trans hold.epoch_eq
  rw [view_commit hemitted hepoch]
  refine .work w _ _ _ ?_ (messages_away htr.wellFormed)
  rw [sum_messages]
  exact htr.amount_eq k

theorem simulates_absorb (hkern : d.kern.Additive) (hkeeps : d.kern.KeepsDelta)
    (hcons : Consistent d vertices s) {j : K} (hstep : step d store (.absorb w j) s = .ok s') :
    Simulates d vertices s s' := by
  have hold := hcons.worker w
  simp only [step, Bool.and_eq_true, List.isEmpty_iff] at hstep
  split_ifs at hstep with henter
  · obtain ⟨hlocal, hj⟩ := (GlobalTable.contains_iff hold.kernel.wellFormed).mp henter.2
    obtain ⟨m, hok, habs⟩ := MaiterKernel2.absorb_spec hkern hkeeps hold.kernel.wellFormed hj hlocal
      (store j)
    rw [hok] at hstep
    cases hstep
    exact simulates_commit hcons (habs.transfers hold.sent henter.1) rfl
  · cases hstep
    exact ⟨hcons, fun _ _ => .refl⟩

theorem simulates_spread (hkern : d.kern.Additive) (hcons : Consistent d vertices s)
    (hstep : step d store (.spread w) s = .ok s') : Simulates d vertices s s' := by
  have hold := hcons.worker w
  have hspec := MaiterKernel2.spread_spec hkern hold.kernel.wellFormed hold.kernel.output
  simp only [step] at hstep
  cases hok : MaiterKernel2.spread d (s.workers w).kernel with
  | error e => rw [hok] at hstep; cases hstep
  | ok m =>
    rw [hok] at hstep
    cases hstep
    obtain ⟨hadds, hout⟩ := hspec.ok_imp hok
    have houtput : ∀ k, tally (s.workers w).kernel.output k + tally [] k =
        tally m.output k + tally ((s.workers w).kernel.output.take 1) k := by
      intro k
      rw [hout, ← List.drop_one, tally_nil, add_zero, add_comm, ← tally_append,
        List.take_append_drop]
    exact simulates_commit hcons (.of_adds hold.sent hadds houtput) (List.append_nil _).symm

theorem simulates_sendUpdates (hcons : Consistent d vertices s)
    (hstep : step d store (.sendUpdates w) s = .ok s') : Simulates d vertices s s' := by
  have hold := hcons.worker w
  obtain ⟨g, hok, hadds⟩ := GlobalTable.sendUpdates_spec hold.kernel.wellFormed
  simp only [step, hok] at hstep
  cases hstep
  exact simulates_commit hcons (.of_adds hold.sent hadds fun _ => rfl) (List.append_nil _).symm

/-- A put request that `v` reads is received. -/
theorem simulates_put (hkern : d.kern.Additive) (hcons : Consistent d vertices s)
    {req : KVPairData ι} {rest : List (PutMessage ι)} (hmsg : s.channel (u, v) = .put req :: rest)
    (hok : (s.workers v).handlePutRequest d req = .ok r) :
    Simulates d vertices s
      ({ s with channel := Function.update s.channel (u, v) rest }.commit v r) := by
  have hold := hcons.worker v
  have haddr : GlobalTable.Addressed d Set.univ (v, req) :=
    hcons.message u v (.put req) (hmsg ▸ List.mem_cons_self)
  have hspec := GlobalTable.applyUpdates_spec hkern hold.kernel.wellFormed fun
    kv (_ : kv ∈ d.marshals.decode req.kvData) => Set.mem_univ kv.1
  rw [RollingWorker.handlePutRequest] at hok
  cases happly : GlobalTable.applyUpdates d req (s.workers v).kernel.table with
  | error e => rw [happly] at hok; cases hok
  | ok g =>
    have hr : r = afterPut d (s.workers v) req g := by
      rw [happly] at hok
      simp only [Except.bind, hold.active, false_or] at hok
      rw [afterPut]
      split_ifs at hok ⊢ <;> exact (Except.ok.inj hok).symm
    have htr : MaiterKernel2.Transfers d vertices (s.workers v).kernel
        ⟨g, (s.workers v).kernel.output⟩ (d.marshals.decode req.kvData) :=
      .of_adds hold.sent (hspec.ok_imp happly) fun _ => rfl
    have hid : g.id = v := htr.id_eq.trans hold.kernel.id_eq
    have hepoch : ∀ msg ∈ g.sent, msg.2.epoch = (s.workers v).ctl.epoch :=
      fun msg hmem => (htr.sent_epoch msg hmem).trans hold.epoch_eq
    subst hr
    constructor
    · rw [afterPut_eq]
      exact (hcons.pop hmsg).commit hid htr.wellFormed (htr.epoch_eq.trans hold.epoch_eq)
        hold.active
    · intro k _
      rw [view_commit_afterPut hid haddr hepoch]
      have hitem : (view d k s).channel (u, v) =
          .put req.epoch (tally (d.marshals.decode req.kvData) k) :: rest.map (item d k) := by
        simp only [view, hmsg, List.map_cons]
        rfl
      -- the updates are received at once, and what they make `v` send is sent after that
      refine .tail (.single (.receive u v _ _ _ hitem))
        (.work v _ _ _ ?_ (messages_away htr.wellFormed))
      rw [sum_messages, add_zero, ← htr.amount_eq k]
      exact Function.update_self ..

omit [Fintype ι] in
/-- What a worker has for a key is in a local shard or unsent. -/
theorem amount_eq_saved_add_unsent (hkernel : Cluster.Sound d vertices Set.univ w m) (k : K) :
    m.amount d k = (if GlobalTable.isLocalShard d m.table (d.getShard k) then
      m.table.f1 d k + m.table.f2 d k else 0) + m.unsent d k := by
  rw [MaiterKernel2.amount, MaiterKernel2.unsent]
  by_cases hlocal : d.owner (d.getShard k) = m.table.id
  · simp [GlobalTable.isLocalShard, hlocal]
  · obtain ⟨t, _, hpart, -⟩ := hkernel.wellFormed.delta _ (d.getShard_lt k) hlocal
    simp [GlobalTable.isLocalShard, hlocal, GlobalTable.f2_of_delta hpart, add_comm]

/-- A worker that starts a checkpoint switches. -/
theorem steps_startCheckpoint (hcons : Consistent d vertices s)
    (hctl : Control (view d k s)) {e : ℕ}
    (hle : e ≤ s.epoch) : Relation.ReflTransGen (Step (d.owner (d.getShard k))) (view d k s)
      (view d k (startCheckpoint d w e s)) := by
  rcases Nat.lt_or_ge (s.workers w).ctl.epoch e with hlt | hge
  · have hcases : (s.workers w).ctl.epoch = s.epoch ∨ (s.workers w).ctl.epoch + 1 = s.epoch :=
      hctl.epoch_cases w
    -- workers are at most one epoch behind the master
    obtain rfl : e = s.epoch := by omega
    rw [view_startCheckpoint hlt]
    have hkernel := (hcons.worker w).kernel
    refine .single (.switch w _ _ hlt (amount_eq_saved_add_unsent hkernel k) fun hw => if_neg ?_)
    rw [GlobalTable.isLocalShard, decide_eq_true_iff, hkernel.id_eq]
    exact hw.symm
  · rw [startCheckpoint_of_le hge]

omit [Fintype ι] in
/-- Reading a marker from another worker and starting a checkpoint can be exchanged. -/
theorem startCheckpoint_pop {e : ℕ} {rest : List (PutMessage ι)} (hu : u ≠ v)
    (hlt : (s.workers v).ctl.epoch < e) :
    startCheckpoint d v e { s with channel := Function.update s.channel (u, v) rest } =
      { startCheckpoint d v e s with
        channel := Function.update (startCheckpoint d v e s).channel (u, v) rest } := by
  have hchannel : post (Function.update s.channel (u, v) rest) v (fun _ => [.marker v e]) =
      Function.update (post s.channel v fun _ => [.marker v e]) (u, v) rest := by
    funext p
    by_cases hp : p = (u, v)
    · subst hp
      simp only [post, Function.update_self, hu, if_false]
    · simp only [post, Function.update_of_ne hp]
  have hpop := startCheckpoint_of_lt (d := d) (w := v)
    (s := { s with channel := Function.update s.channel (u, v) rest }) hlt
  rw [hchannel] at hpop
  rw [hpop, startCheckpoint_of_lt hlt]
  rfl

/-- A marker that `v` reads is heard, after `v` has switched if it has not before. -/
theorem simulates_marker (hcons : Consistent d vertices s) {source : ι} {e : ℕ}
    {rest : List (PutMessage ι)} (hmsg : s.channel (u, v) = .marker source e :: rest) :
    Simulates d vertices s (updateEpoch d v source e
      { s with channel := Function.update s.channel (u, v) rest }) := by
  obtain rfl : source = u := hcons.message u v (.marker source e) (hmsg ▸ List.mem_cons_self)
  constructor
  · rw [updateEpoch]
    split_ifs
    · exact ((hcons.pop hmsg).startCheckpoint v e).recordPeer v source e
    · exact (hcons.pop hmsg).recordPeer v source e
  · intro k hctl
    have hitem : (view d k s).channel (source, v) = .marker e :: rest.map (item d k) := by
      simp only [view, hmsg, List.map_cons]
      rfl
    have hlink := hctl.link source v
    rw [hitem] at hlink
    -- a marker under way is of the epoch that its sender has switched to
    obtain ⟨he, hsource, -⟩ := hlink.hear
    rw [updateEpoch]
    by_cases hlt : (s.workers v).ctl.epoch < e
    · -- the sender of the marker has switched, so it is not `v`
      have hne : source ≠ v := by
        rintro rfl
        exact hlt.ne (hsource.trans he.symm)
      have hswitch := steps_startCheckpoint (w := v) hcons hctl he.le
      rw [if_pos hlt, startCheckpoint_pop hne hlt, view_recordPeer]
      refine hswitch.tail (.hear source v e _ ?_ ?_)
      · rw [startCheckpoint_of_lt hlt]
        simp only [view, post, hne, if_false]
        exact hitem
      · rw [startCheckpoint_of_lt hlt]
        simp only [view, setWorker, Function.update_self]
        exact le_rfl
    · rw [if_neg hlt, view_recordPeer]
      exact .single (.hear source v e _ hitem (not_lt.mp hlt))

theorem simulates_step (hkern : d.kern.Additive) (hkeeps : d.kern.KeepsDelta)
    (hcons : Consistent d vertices s) (a : Action ι K) (hstep : step d store a s = .ok s') :
    Simulates d vertices s s' := by
  cases a with
  | absorb w j => exact simulates_absorb hkern hkeeps hcons hstep
  | spread w => exact simulates_spread hkern hcons hstep
  | sendUpdates w => exact simulates_sendUpdates hcons hstep
  | handlePutRequest u v =>
    simp only [step] at hstep
    split at hstep
    next => cases hstep; exact ⟨hcons, fun _ _ => .refl⟩
    next req rest hmsg =>
      cases hok : (s.workers v).handlePutRequest d req with
      | error e => rw [hok] at hstep; cases hstep
      | ok r =>
        rw [hok] at hstep
        cases hstep
        exact simulates_put hkern hcons hmsg hok
    next source e rest hmsg => cases hstep; exact simulates_marker hcons hmsg
  | checkForMasterUpdates w =>
    simp only [step] at hstep
    split at hstep
    next => cases hstep; exact ⟨hcons, fun _ _ => .refl⟩
    next e rest hstart =>
      cases hstep
      -- reading the message changes nothing but the queue
      have hrest : Consistent d vertices { s with starts := Function.update s.starts w rest } := by
        refine ⟨hcons.worker, hcons.message, fun w' e' he' => ?_⟩
        by_cases hw : w' = w
        · subst hw
          simp only [Function.update_self] at he'
          exact hcons.starts w' e' (hstart ▸ List.mem_cons_of_mem _ he')
        · simp only [Function.update_of_ne hw] at he'
          exact hcons.starts w' e' he'
      refine ⟨hrest.startCheckpoint w e, fun k hctl => ?_⟩
      have hle : e ≤ s.epoch := hcons.starts w e (hstart ▸ List.mem_cons_self)
      exact steps_startCheckpoint hrest hctl hle
  | startCheckpoint =>
    simp only [step] at hstep
    split_ifs at hstep with hbusy
    · cases hstep
      exact ⟨hcons, fun _ _ => .refl⟩
    · cases hstep
      refine ⟨⟨hcons.worker, hcons.message, fun w e he => ?_⟩, fun k _ => .single ?_⟩
      · rcases List.mem_append.mp he with hold | hnew
        · exact (hcons.starts w e hold).trans (Nat.le_succ _)
        · exact (List.mem_singleton.mp hnew).le
      · exact .begin (Bool.not_eq_true _ ▸ hbusy)
  | finishCheckpoint =>
    simp only [step, Bool.and_eq_true, decide_eq_true_iff] at hstep
    split_ifs at hstep with hdone
    · cases hstep
      exact ⟨⟨hcons.worker, hcons.message, hcons.starts⟩,
        fun k _ => .single (.finish hdone.1 hdone.2)⟩
    · cases hstep
      exact ⟨hcons, fun _ _ => .refl⟩

end Simulation

/-! ## What a checkpoint accounts for -/

section Cut

variable {ι K V D : Type*} [DecidableEq ι] [DecidableEq K] [AddCommMonoid V] [Fintype ι]
  {d : TableDescriptor ι K V D} {store : K → D} {seed : D} {vertices : Set K} {s₀ : Cluster ι K V D}
  {s s' : RollingCluster ι K V D} {k : K} {e : ℕ}

theorem run_inv (hkern : d.kern.Additive) (hkeeps : d.kern.KeepsDelta) {total : K → V}
    (hcons : Consistent d vertices s)
    (hinv : ∀ k, MarkerSnapshot.Inv (d.owner (d.getShard k)) (total k) (view d k s))
    {acts : List (Action ι K)} (hrun : run d store acts s = .ok s') :
    ∀ k, MarkerSnapshot.Inv (d.owner (d.getShard k)) (total k) (view d k s') := by
  have hstep : ∀ a s s', (Consistent d vertices s ∧
      ∀ k, MarkerSnapshot.Inv (d.owner (d.getShard k)) (total k) (view d k s)) →
      step d store a s = .ok s' → Consistent d vertices s' ∧
        ∀ k, MarkerSnapshot.Inv (d.owner (d.getShard k)) (total k) (view d k s') := by
    intro a s s' ⟨hcons, hinv⟩ hok
    have hsim := simulates_step hkern hkeeps hcons a hok
    exact ⟨hsim.consistent, fun k => (hinv k).of_steps (hsim.steps k (hinv k).toControl)⟩
  exact (forEach_invariant hstep ⟨hcons, hinv⟩ hrun).2

omit [DecidableEq ι] [Fintype ι] in
theorem consistent_init (hinit : Cluster.Initial d seed vertices s₀)
    (hepoch : ∀ w, (s₀.kernels w).table.epoch = 0) : Consistent d vertices (init s₀) :=
  ⟨fun w => ⟨hinit.sound w, hinit.sent w, hepoch w, nofun⟩, nofun, nofun⟩

omit [DecidableEq ι] in
/-- At the start nothing is under way and nothing has been taken in. -/
theorem inv_init (hinit : Cluster.Initial d seed vertices s₀) (k : K) :
    MarkerSnapshot.Inv (d.owner (d.getShard k))
      ((Cluster.abs d s₀).value k + (Cluster.abs d s₀).pending k) (view d k (init s₀)) where
  epoch_cases _ := .inl rfl
  link _ _ := .heard rfl rfl nofun
  epoch_of_heard _ _ _ := rfl
  heard_of_idle _ _ _ := rfl
  recording_iff v := by simp [view, init, RollingWorker.init, Checkpointer.init]
  done_eq v := by simp [view, init]
  away := nofun
  saved_away w _ e := by
    simp [view, init, RollingWorker.init, savedAmount, Marshals.decode]
  conserved := by
    -- the owner of the shard has the value, and what is pending is in the state tables
    have hf2 : ∑ w, (s₀.kernels w).table.f2 d k = (Cluster.abs d s₀).value k := by
      apply Finset.sum_eq_single
      · intro w _ hw
        exact GlobalTable.f2_of_delta (hinit.delta_eq (d.getShard_lt k) hw.symm)
      · exact fun hnot => absurd (Finset.mem_univ _) hnot
    have hpending : (Cluster.abs d s₀).pending k = ∑ w, (s₀.kernels w).table.f1 d k := by
      apply Finset.sum_congr rfl
      intro w _
      rw [Cluster.load, GlobalTable.held, hinit.sent, hinit.output]
      simp [GlobalTable.pairsIn]
    simp only [view, init, RollingWorker.init, MaiterKernel2.amount, hinit.output, tally_nil, flow,
      List.map_nil, List.sum_nil, Finset.sum_const_zero, add_zero]
    rw [Finset.sum_add_distrib, hf2, hpending, add_comm]
  cut := nofun
  finished e he hfin := by
    rcases hfin with hlt | ⟨heq, -⟩
    · exact absurd hlt (Nat.not_lt_zero e)
    · exact absurd heq he.ne'

/-- The owner of `k` has the markers of all workers for epoch `e`, and its delta log for
`e` is complete. -/
def Finished (d : TableDescriptor ι K V D) (s : RollingCluster ι K V D) (k : K) (e : ℕ) : Prop :=
  let ctl := (s.workers (d.owner (d.getShard k))).ctl
  e < ctl.epoch ∨ e = ctl.epoch ∧ ctl.active ≠ .rolling

/-- The checkpoint of epoch `e` is a consistent cut for `k`: what its owner has saved and
logged is `init_v`, `init_c` and all that each worker had output before it switched. -/
def ConsistentCut (d : TableDescriptor ι K V D) (seed : D) (s : RollingCluster ι K V D) (k : K)
    (e : ℕ) : Prop :=
  let r := s.workers (d.owner (d.getShard k))
  savedAmount d k (r.saved e (d.getShard k)) +
      tally (d.marshals.decode (r.deltaLog e (d.getShard k))) k =
    d.kern.initV k seed + d.kern.initC k seed + ∑ w, tally ((s.workers w).cut e) k

/-- In every run, a checkpoint misses exactly what the workers had not sent when they
switched. -/
theorem saved_add_unsent (hkern : d.kern.Additive) (hkeeps : d.kern.KeepsDelta)
    (hinit : Cluster.Initial d seed vertices s₀) (hepoch : ∀ w, (s₀.kernels w).table.epoch = 0)
    {acts : List (Action ι K)} (hrun : run d store acts (init s₀) = .ok s) (hk : k ∈ vertices)
    (he : 0 < e) (hfin : Finished d s k e) :
    savedAmount d k ((s.workers (d.owner (d.getShard k))).saved e (d.getShard k)) +
        tally (d.marshals.decode
          ((s.workers (d.owner (d.getShard k))).deltaLog e (d.getShard k))) k +
        ∑ w, (s.workers w).unsent e k =
      d.kern.initV k seed + d.kern.initC k seed + ∑ w, tally ((s.workers w).cut e) k := by
  have hinv := run_inv hkern hkeeps (consistent_init hinit hepoch) (inv_init hinit) hrun k
  -- at the start `k` has `init_v` and `init_c`
  rw [(hinit.abs_eq hk).1, (hinit.abs_eq hk).2] at hinv
  refine hinv.finished e he ?_
  rcases hfin with hlt | ⟨heq, hactive⟩
  · exact .inl hlt
  · exact .inr ⟨heq, decide_eq_false hactive⟩

/-- **A rolling checkpoint is a consistent cut of what has been sent.** In every run of
kernel calls, `SendUpdates`, put requests and markers over FIFO channels, and for every
vertex and finished epoch: the checkpoint is a consistent cut if what the workers had for
the vertex outside their local shards, when each of them switched, accumulates to nothing,
and where accumulation can be cancelled, only then. -/
theorem rolling_checkpoint_cut (hkern : d.kern.Additive) (hkeeps : d.kern.KeepsDelta)
    (hinit : Cluster.Initial d seed vertices s₀) (hepoch : ∀ w, (s₀.kernels w).table.epoch = 0)
    {acts : List (Action ι K)} (hrun : run d store acts (init s₀) = .ok s) (hk : k ∈ vertices)
    (he : 0 < e) (hfin : Finished d s k e) :
    (∑ w, (s.workers w).unsent e k = 0 → ConsistentCut d seed s k e) ∧
      (IsCancelAdd V → ConsistentCut d seed s k e → ∑ w, (s.workers w).unsent e k = 0) := by
  have hall := saved_add_unsent hkern hkeeps hinit hepoch hrun hk he hfin
  constructor
  · intro hsent
    rwa [hsent, add_zero] at hall
  · intro _ hcut
    rw [← show _ = _ from hcut] at hall
    exact add_eq_left.mp hall

end Cut

/-! ## Two workers -/

section Pair

open Cluster

/-- Worker `0` sends its update before worker `1` switches: it is logged. -/
theorem rolling_checkpoint_cut_logged :
    bytesKernel.Additive ∧ bytesKernel.KeepsDelta ∧
      Initial (pairDescriptor bytesKernel 100) [] Set.univ (pairCluster bytesKernel) ∧
      ∃ s, run (pairDescriptor bytesKernel 100) (fun _ => [1])
          [.absorb 0 0, .spread 0, .sendUpdates 0, .startCheckpoint, .checkForMasterUpdates 1,
            .handlePutRequest 0 1, .handlePutRequest 1 1, .handlePutRequest 1 0,
            .handlePutRequest 0 1] (init (pairCluster bytesKernel)) = .ok s ∧
        Finished (pairDescriptor bytesKernel 100) s 1 1 ∧ ∑ w, (s.workers w).unsent 1 1 = 0 ∧
        ConsistentCut (pairDescriptor bytesKernel 100) [] s 1 1 := by
  have hkern : bytesKernel.Additive := ⟨fun _ _ => rfl, rfl⟩
  have hkeeps : bytesKernel.KeepsDelta := fun _ _ _ _ => rfl
  have hinit := initial_pairCluster bytesKernel 100
  obtain ⟨s, hrun, hfin, hsent⟩ : ∃ s, run (pairDescriptor bytesKernel 100) (fun _ => [1])
      [.absorb 0 0, .spread 0, .sendUpdates 0, .startCheckpoint, .checkForMasterUpdates 1,
        .handlePutRequest 0 1, .handlePutRequest 1 1, .handlePutRequest 1 0,
        .handlePutRequest 0 1] (init (pairCluster bytesKernel)) = .ok s ∧
      Finished (pairDescriptor bytesKernel 100) s 1 1 ∧ ∑ w, (s.workers w).unsent 1 1 = 0 :=
    ⟨_, rfl, .inr ⟨by decide +kernel, by decide +kernel⟩, by decide +kernel⟩
  exact ⟨hkern, hkeeps, hinit, s, hrun, hfin, hsent, (rolling_checkpoint_cut hkern hkeeps hinit
    (fun _ => rfl) hrun (Set.mem_univ 1) one_pos hfin).1 hsent⟩

/-- Worker `0` switches with an update for worker `1` in its buffer, and sends it in the
new epoch: worker `1` has neither saved nor logged it. -/
theorem buffered_update_misses_checkpoint :
    bytesKernel.Additive ∧ bytesKernel.KeepsDelta ∧
      Initial (pairDescriptor bytesKernel 100) [] Set.univ (pairCluster bytesKernel) ∧
      ∃ s, run (pairDescriptor bytesKernel 100) (fun _ => [1])
          [.absorb 0 0, .spread 0, .startCheckpoint, .checkForMasterUpdates 0, .sendUpdates 0,
            .handlePutRequest 0 1, .handlePutRequest 0 1, .handlePutRequest 1 1]
          (init (pairCluster bytesKernel)) = .ok s ∧
        Finished (pairDescriptor bytesKernel 100) s 1 1 ∧
        ¬ ConsistentCut (pairDescriptor bytesKernel 100) [] s 1 1 := by
  refine ⟨⟨fun _ _ => rfl, rfl⟩, fun _ _ _ _ => rfl, initial_pairCluster bytesKernel 100, _, rfl,
    .inr ⟨by decide +kernel, by decide +kernel⟩, ?_⟩
  rw [ConsistentCut]
  decide +kernel

end Pair

end RollingCluster

end MaiterStore
