/-
# The end of a kernel run

When all tasks are finished, `Master::barrier` (`master/master.cc`) makes two round trips.
On `WORKER_FLUSH` a worker sends all its buffers and waits until the sends are finished
(`HandleFlush` in `worker/worker.cc`, in a thread of its own). On `WORKER_APPLY` it takes the
put requests from its queues (`HandleApply`, in the network thread). Meanwhile the idle loop
of the worker also takes put requests; the two threads exclude each other by `state_lock_`.

A finished send is taken to have reached the queue of its destination. If all workers have
waited for their sends nothing is buffered or under way after the first message, and a thread
that finds all queues empty after the second leaves nothing behind.

But the wait is a loop over `NetworkThread::active()` (`util/rpc.cc`), which adds the sizes of
`active_sends_` and `pending_sends_` without the lock. The network thread takes a request off
the one before it inserts it into the other, and in between `active()` does not see it. Then the
barrier returns with the request still under way.
-/

import MaiterStore.Worker.Propagation

namespace MaiterStore

open CS.Run CS.DeltaIteration

/-! ## The two round trips -/

namespace Barrier

/-- The containers of `NetworkThread` with the requests to be sent. -/
inductive SendQueue
  /-- `active_sends_`. -/
  | active
  /-- `pending_sends_`. -/
  | pending
  deriving DecidableEq, Repr

instance : Fintype SendQueue where
  elems := {.active, .pending}
  complete c := by cases c <;> decide

/-- The thread of `HandleFlush`. -/
inductive FlushThread
  | idle
  /-- `SendUpdates` of table `t` has come to shard `i`. -/
  | sending (t i : ℕ)
  /-- The loop of `NetworkThread::Flush`. -/
  | waiting
  /-- `active()` has read the size of one container. -/
  | tested (c : SendQueue) (size : ℕ)
  | replied
  deriving DecidableEq, Repr

/-- `SendUpdates` has come past shard `i` of table `t`. -/
def FlushThread.past : FlushThread → ℕ → ℕ → Prop
  | .idle, _, _ => False
  | .sending t' i', t, i => t < t' ∨ t = t' ∧ i < i'
  | .waiting, _, _ | .tested _ _, _, _ | .replied, _, _ => True

/-- What a worker has done about `WORKER_APPLY`. -/
inductive ApplyStatus
  | idle
  | asked
  | replied
  deriving DecidableEq, Repr

/-- The threads that call `HandlePutRequest`. -/
inductive Thread
  | main
  | network
  deriving DecidableEq, Repr

/-- Where the thread that has `state_lock_` is in `HandlePutRequest`. -/
inductive PutReader (m : ℕ)
  | unlocked
  /-- `TryRead` has come to the queue of worker `next`. -/
  | scanning (thread : Thread) (next : ℕ)
  /-- `ApplyUpdates` of table `t` has come to `rest`. -/
  | applying (thread : Thread) (t : Fin m) (rest : KVData)
  deriving DecidableEq, Repr

/-- The thread that has the lock. -/
def PutReader.holder {m : ℕ} : PutReader m → Option Thread
  | .unlocked => none
  | .scanning thread _ | .applying thread _ _ => some thread

/-- Where the master is in `barrier`. -/
inductive Round
  /-- All tasks are finished. -/
  | start
  | flush
  | apply
  | returned
  deriving DecidableEq, Repr

end Barrier

open Barrier

/-- A put request for a table, with its destination. -/
abbrev PutSend (n m : ℕ) := Fin n × Fin m × KVPairData (Fin n)

/-- One of `n` workers, with `m` tables. The messages `sent` of a table are in `pending_sends_`,
`held` is the request that `NetworkThread::Run` has taken off it and not yet inserted into
`active_sends_`, and `active` is the latter; a request that has arrived leaves `none` there. `queue`
has the put requests that have come from each worker, with their tables, and the replies are those
that the master has not read. For the statements, `applied` records the pairs accumulated during the
barrier. -/
structure BarrierWorker (n m : ℕ) (K V D : Fin m → Type*) where
  tables : ∀ t, GlobalTable (Fin n) (K t) (V t) (D t)
  held : Option (Option (PutSend n m))
  active : List (Option (PutSend n m))
  queue : Fin n → List (Fin m × KVPairData (Fin n))
  reader : PutReader m
  flush : FlushThread
  apply : ApplyStatus
  flushReplies : ℕ
  applyReplies : ℕ
  applied : ∀ t, List (K t × V t)

/-- The fault of a table. -/
abbrev TableFault {m : ℕ} (K : Fin m → Type*) := Σ t, Fault (K t)

namespace BarrierWorker

variable {n m : ℕ} {K V D : Fin m → Type*}

/-- A call on table `t`. -/
def onTable (t : Fin m) (call : GlobalTable (Fin n) (K t) (V t) (D t) →
      Except (Fault (K t)) (GlobalTable (Fin n) (K t) (V t) (D t)))
    (p : BarrierWorker n m K V D) : Except (TableFault K) (BarrierWorker n m K V D) :=
  match call (p.tables t) with
  | .error e => .error ⟨t, e⟩
  | .ok g => .ok { p with tables := Function.update p.tables t g }

/-- The worker after message `j` of table `t` has left it. -/
def dropSent (t : Fin m) (j : ℕ) (p : BarrierWorker n m K V D) : BarrierWorker n m K V D :=
  { p with
    tables := Function.update p.tables t
      { p.tables t with sent := (p.tables t).sent.eraseIdx j } }

/-- `Run` takes request `j` of table `t` off `pending_sends_`, which is any of them here and the
newest one in the code. -/
def popSend (t : Fin m) (j : ℕ) (p : BarrierWorker n m K V D) : BarrierWorker n m K V D :=
  match p.held, (p.tables t).sent[j]? with
  | none, some (u, put) => { p.dropSent t j with held := some (some (u, t, put)) }
  | _, _ => p

/-- `active_sends_.insert(s)` in `Run`. -/
def insertActive (p : BarrierWorker n m K V D) : BarrierWorker n m K V D :=
  match p.held with
  | none => p
  | some send => { p with held := none, active := p.active ++ [send] }

/-- `CollectActive` erases a send that is finished. -/
def collectActive (j : ℕ) (p : BarrierWorker n m K V D) : BarrierWorker n m K V D :=
  if p.active[j]? = some none then { p with active := p.active.eraseIdx j } else p

/-- The request that is held, or request `j` of `active_sends_`, if it has not arrived. -/
def underWay (p : BarrierWorker n m K V D) : Option ℕ → Option (PutSend n m)
  | none => p.held.join
  | some j => p.active[j]?.join

/-- The worker after this request has arrived. -/
def markArrived (p : BarrierWorker n m K V D) : Option ℕ → BarrierWorker n m K V D
  | none => { p with held := some none }
  | some j => { p with active := p.active.set j none }

/-- The requests off `pending_sends_` that have not arrived. -/
def flying (p : BarrierWorker n m K V D) : List (PutSend n m) :=
  (p.held.toList ++ p.active).reduceOption

/-- The size of a container. -/
def sizeOf (p : BarrierWorker n m K V D) : SendQueue → ℕ
  | .active => p.active.length
  | .pending => ∑ t, (p.tables t).sent.length

/-- `active()` in the loop of `Flush` reads the size of one container and then, at any later time,
that of the other. The order is not specified. -/
def readSize (c : SendQueue) (p : BarrierWorker n m K V D) : BarrierWorker n m K V D :=
  match p.flush with
  | .waiting => { p with flush := .tested c (p.sizeOf c) }
  | .tested c' size =>
    if c = c' then p
    else if size + p.sizeOf c > 0 then { p with flush := .waiting }
    else { p with flush := .replied, flushReplies := p.flushReplies + 1 }
  | .idle | .sending _ _ | .replied => p

/-- The worker after a put request of worker `w` for table `t` has come. -/
def enqueue (w : Fin n) (t : Fin m) (put : KVPairData (Fin n)) (p : BarrierWorker n m K V D) :
    BarrierWorker n m K V D :=
  { p with queue := Function.update p.queue w (p.queue w ++ [(t, put)]) }

/-- The end of `HandlePutRequest`. In the network thread the reply to `WORKER_APPLY` follows. -/
def leave : Thread → BarrierWorker n m K V D → BarrierWorker n m K V D
  | .main, p => { p with reader := .unlocked }
  | .network, p =>
    { p with reader := .unlocked, apply := .replied, applyReplies := p.applyReplies + 1 }

variable [∀ t, DecidableEq (K t)] (d : ∀ t, TableDescriptor (Fin n) (K t) (V t) (D t))

/-- The next thing the thread of `HandleFlush` does in the loop over the tables. -/
def handleFlush (p : BarrierWorker n m K V D) :
    Except (TableFault K) (BarrierWorker n m K V D) :=
  match p.flush with
  | .idle | .waiting | .tested _ _ | .replied => .ok p
  | .sending t i =>
    if ht : t < m then
      if i < (d ⟨t, ht⟩).numShards then
        (p.onTable ⟨t, ht⟩ (GlobalTable.sendShard (d ⟨t, ht⟩) i)).map fun p' =>
          { p' with flush := .sending t (i + 1) }
      else
        (p.onTable ⟨t, ht⟩ fun g => .ok { g with pendingWrites := 0 }).map fun p' =>
          { p' with flush := .sending (t + 1) 0 }
    else .ok { p with flush := .waiting }

/-- The next thing a thread does in `HandlePutRequest`. Where the other one has the lock, it
waits. -/
def handlePutRequest (thread : Thread) (p : BarrierWorker n m K V D) :
    Except (TableFault K) (BarrierWorker n m K V D) :=
  match p.reader with
  | .unlocked => .ok { p with reader := .scanning thread 0 }
  | .scanning holder next =>
    if holder ≠ thread then .ok p
    else if hnext : next < n then
      match p.queue ⟨next, hnext⟩ with
      | [] => .ok { p with reader := .scanning thread (next + 1) }
      | (t, put) :: rest =>
        .ok { p with
          queue := Function.update p.queue ⟨next, hnext⟩ rest
          reader := .applying thread t put.kvData }
    -- all queues were found empty
    else .ok (p.leave thread)
  | .applying holder t data =>
    if holder ≠ thread then .ok p
    else
      match data with
      | [] => .ok { p with reader := .scanning thread 0 }
      | kv :: rest =>
        let k := (d t).marshals.kmarshal.unmarshal kv.1
        let v := (d t).marshals.v1marshal.unmarshal kv.2
        (p.onTable t (GlobalTable.accumulateF1 (d t) k v)).map fun p' =>
          { p' with
            reader := .applying thread t rest
            applied := Function.update p.applied t (p.applied t ++ [(k, v)]) }

/-- The next thing the network thread does for `WORKER_APPLY`. -/
def handleApply (p : BarrierWorker n m K V D) :
    Except (TableFault K) (BarrierWorker n m K V D) :=
  if p.apply = .asked then p.handlePutRequest d .network else .ok p

end BarrierWorker

/-- The master and its workers. `count` is the variable of `WaitForSync`. -/
structure Barrier (n m : ℕ) (K V D : Fin m → Type*) where
  round : Round
  count : ℕ
  workers : Fin n → BarrierWorker n m K V D

namespace Barrier

variable {n m : ℕ} {K V D : Fin m → Type*}

def setWorker (s : Barrier n m K V D) (w : Fin n) (p : BarrierWorker n m K V D) :
    Barrier n m K V D :=
  { s with workers := Function.update s.workers w p }

/-- A request of worker `w` comes to the queue of its destination. -/
def deliver (w : Fin n) (j : Option ℕ) (s : Barrier n m K V D) : Barrier n m K V D :=
  match (s.workers w).underWay j with
  | none => s
  | some (u, t, put) =>
    let s' := s.setWorker w ((s.workers w).markArrived j)
    s'.setWorker u ((s'.workers u).enqueue w t put)

/-- The master reads a reply of worker `w`. -/
def checkReplyQueue (w : Fin n) (s : Barrier n m K V D) : Barrier n m K V D :=
  let p := s.workers w
  match s.round with
  | .start | .returned => s
  | .flush =>
    if p.flushReplies = 0 then s
    else { s.setWorker w { p with flushReplies := p.flushReplies - 1 } with count := s.count - 1 }
  | .apply =>
    if p.applyReplies = 0 then s
    else { s.setWorker w { p with applyReplies := p.applyReplies - 1 } with count := s.count - 1 }

/-- The master goes on to the next `SyncBroadcast`, or it returns. -/
def advance (s : Barrier n m K V D) : Barrier n m K V D :=
  match s.round with
  | .start =>
    ⟨.flush, n, fun w => { s.workers w with flush := .sending 0 0 }⟩
  | .flush =>
    if s.count = 0 then ⟨.apply, n, fun w => { s.workers w with apply := .asked }⟩ else s
  | .apply => if s.count = 0 then { s with round := .returned } else s
  | .returned => s

/-- What can happen next. -/
inductive Action (n m : ℕ)
  | advance
  | checkReplyQueue (w : Fin n)
  /-- The network thread takes a request off `pending_sends_`. -/
  | popSend (w : Fin n) (t : Fin m) (j : ℕ)
  | insertActive (w : Fin n)
  | collectActive (w : Fin n) (j : ℕ)
  | deliver (w : Fin n) (j : Option ℕ)
  /-- The thread of `HandleFlush` goes on with `SendUpdates`. -/
  | handleFlush (w : Fin n)
  /-- It reads the size of a container in `active()`. -/
  | readSize (w : Fin n) (c : SendQueue)
  /-- The idle loop goes on. -/
  | checkNetwork (w : Fin n)
  /-- The network thread goes on with `HandleApply`. -/
  | handleApply (w : Fin n)
  deriving DecidableEq, Repr

variable [∀ t, DecidableEq (K t)] (d : ∀ t, TableDescriptor (Fin n) (K t) (V t) (D t))

/-- One action. -/
def step : Action n m → Barrier n m K V D → Except (TableFault K) (Barrier n m K V D)
  | .advance, s => .ok s.advance
  | .checkReplyQueue w, s => .ok (s.checkReplyQueue w)
  | .popSend w t j, s => .ok (s.setWorker w ((s.workers w).popSend t j))
  | .insertActive w, s => .ok (s.setWorker w (s.workers w).insertActive)
  | .collectActive w j, s => .ok (s.setWorker w ((s.workers w).collectActive j))
  | .deliver w j, s => .ok (s.deliver w j)
  | .handleFlush w, s => ((s.workers w).handleFlush d).map (s.setWorker w)
  | .readSize w c, s => .ok (s.setWorker w ((s.workers w).readSize c))
  | .checkNetwork w, s => ((s.workers w).handlePutRequest d .main).map (s.setWorker w)
  | .handleApply w, s => ((s.workers w).handleApply d).map (s.setWorker w)

/-- A run. -/
def run : List (Action n m) → Barrier n m K V D →
    Except (TableFault K) (Barrier n m K V D) :=
  forEach (step d)

end Barrier

/-! ## The pairs on a worker -/

/-- The pairs in a buffer. -/
def Partition.buffered {K V D : Type*} : Partition K V D → List (K × V)
  | .state _ => []
  | .delta t => t.buckets.reduceOption.map fun b => (b.k, b.v1)

namespace GlobalTable

variable {ι K V D : Type*} [DecidableEq K]

/-- The pairs in the buffers of a worker. -/
def buffered (d : TableDescriptor ι K V D) (g : GlobalTable ι K V D) : Multiset (K × V) :=
  ∑ i ∈ Finset.range d.numShards, (g.partitions i).buffered

/-- The table on worker `w`: state tables for its own shards and buffers for the others, each
with keys of its shard. What it has sent goes to the owners. -/
structure Routed (d : TableDescriptor ι K V D) (w : ι) (g : GlobalTable ι K V D) : Prop where
  id_eq : g.id = w
  state : ∀ i < d.numShards, d.owner i = w → ∃ t, g.partitions i = .state t
  delta : ∀ i < d.numShards, d.owner i ≠ w → ∃ t m, g.partitions i = .delta t ∧
    DeltaTable.Refines d.hash t m ∧ ∀ k ∈ m, d.getShard k = i
  sent : ∀ msg ∈ g.sent, Addressed d Set.univ msg

variable {d : TableDescriptor ι K V D} {w : ι} {g g' : GlobalTable ι K V D} {i : ℕ} {k : K} {v : V}

/-- A table of the propagation is routed. -/
theorem WellFormed.routed {vertices targets : Set K} (hwf : WellFormed d vertices targets g) :
    Routed d g.id g where
  id_eq := rfl
  state i hi hown := by
    obtain ⟨t, -, hpart, -⟩ := hwf.state i hi hown
    exact ⟨t, hpart⟩
  delta i hi hown := by
    obtain ⟨t, m, hpart, href, hmem⟩ := hwf.delta i hi hown
    exact ⟨t, m, hpart, href, fun k hk => (hmem k hk).1⟩
  sent msg hmsg := by
    have haddr := hwf.sent msg hmsg
    exact ⟨haddr.to_owner, haddr.shard_lt, fun kv hkv => ⟨(haddr.pairs kv hkv).1, trivial⟩⟩

theorem buffered_of_empty {t : DeltaTable K V} {m : Finmap fun _ : K => V}
    (href : DeltaTable.Refines d.hash t m) (hempty : t.empty = true) :
    (Partition.delta t : Partition K V D).buffered = [] := by
  refine List.eq_nil_iff_forall_not_mem.mpr fun kv hkv => ?_
  have hnone : m.lookup kv.1 = none := href.lookup_eq_none_of_empty hempty
  exact Finmap.lookup_eq_none.mp hnone (mem_of_mem_entries href hkv)

/-- A worker whose buffers are empty has no pairs in them. -/
theorem Routed.buffered_eq_zero (hg : Routed d w g)
    (hempty : ∀ i < d.numShards, d.owner i ≠ w → (g.partitions i).empty = true) :
    g.buffered d = 0 := by
  refine Finset.sum_eq_zero fun i hi => ?_
  have hlt := Finset.mem_range.mp hi
  by_cases hown : d.owner i = w
  · obtain ⟨t, hpart⟩ := hg.state i hlt hown
    rw [hpart]
    rfl
  · obtain ⟨t, m, hpart, href, -⟩ := hg.delta i hlt hown
    have hnone := hempty i hlt hown
    rw [hpart] at hnone
    rw [hpart, buffered_of_empty href hnone]
    rfl

omit [DecidableEq K] in
theorem buffered_setPartition (hi : i < d.numShards) (part : Partition K V D) {a : Multiset (K × V)}
    (hpart : (g.partitions i).buffered = (part.buffered : Multiset (K × V)) + a) :
    (g.setPartition i part).buffered d + a = g.buffered d := by
  have hmem : i ∈ Finset.range d.numShards := Finset.mem_range.mpr hi
  have hrest : ∀ j ∈ (Finset.range d.numShards).erase i,
      ((g.setPartition i part).partitions j).buffered = (g.partitions j).buffered := by
    intro j hj
    rw [setPartition_of_ne g (Finset.ne_of_mem_erase hj)]
  rw [buffered, buffered, ← Finset.add_sum_erase _ _ hmem, ← Finset.add_sum_erase _ _ hmem,
    setPartition_self, hpart, add_right_comm]
  congr 1
  exact Finset.sum_congr rfl fun j hj => by rw [hrest j hj]

theorem Routed.flushed (hg : Routed d w g) (hi : i < d.numShards) (hremote : d.owner i ≠ w)
    {t : DeltaTable K V} (hpart : g.partitions i = .delta t) : Routed d w (flushed d g i t) where
  id_eq := hg.id_eq
  state j hj hown := by
    have hji : j ≠ i := fun heq => hremote (heq ▸ hown)
    obtain ⟨t', hpart'⟩ := hg.state j hj hown
    exact ⟨t', by rw [GlobalTable.flushed, setPartition_of_ne _ hji, hpart']⟩
  delta j hj hown := by
    by_cases hji : j = i
    · subst hji
      exact ⟨DeltaTable.cleared 1, ∅, setPartition_self ..,
        DeltaTable.refines_cleared d.hash one_pos, fun k hk => absurd hk Finmap.notMem_empty⟩
    · obtain ⟨t', m', hpart', h⟩ := hg.delta j hj hown
      exact ⟨t', m', by rw [GlobalTable.flushed, setPartition_of_ne _ hji, hpart'], h⟩
  sent msg hmsg := by
    rcases List.mem_append.mp hmsg with hold | hnew
    · exact hg.sent msg hold
    · obtain ⟨t', m, hpart', href, hmem⟩ := hg.delta i hi hremote
      obtain rfl : t = t' := Partition.delta.inj (hpart.symm.trans hpart')
      rw [List.mem_singleton.mp hnew]
      refine ⟨rfl, hi, fun kv hkv => ⟨?_, trivial⟩⟩
      rw [decode_putRequest] at hkv
      exact hmem _ (mem_of_mem_entries href hkv)

omit [DecidableEq K] in
/-- Sending a buffer moves its pairs to a message. -/
theorem buffered_flushed (hi : i < d.numShards) {t : DeltaTable K V}
    (hpart : g.partitions i = .delta t) :
    (flushed d g i t).buffered d + ↑(pairsIn d (flushed d g i t).sent) =
      g.buffered d + ↑(pairsIn d g.sent) := by
  have hbuf : (flushed d g i t).buffered d + ↑(Partition.delta t : Partition K V D).buffered =
      g.buffered d := by
    apply buffered_setPartition (g := { g with sent := g.sent ++ [putRequest d g i t] })
      hi (.delta _)
    rw [hpart]
    exact (zero_add _).symm
  have hsent : pairsIn d (flushed d g i t).sent =
      pairsIn d g.sent ++ (Partition.delta t : Partition K V D).buffered := by
    simp only [flushed, setPartition, pairsIn, List.flatMap_append, List.flatMap_cons,
      List.flatMap_nil, List.append_nil, decode_putRequest]
    rfl
  rw [← hbuf, hsent, ← Multiset.coe_add, add_assoc,
    add_comm (↑(pairsIn d g.sent) : Multiset (K × V))]

variable [DecidableEq ι]

/-- One round of the loop of `SendUpdates`: it keeps the pairs, and the shard has no buffer
or an empty one. -/
theorem Routed.sendShard (hg : Routed d w g) (hi : i < d.numShards)
    (hok : sendShard d i g = .ok g') :
    Routed d w g' ∧ g'.buffered d + ↑(pairsIn d g'.sent) = g.buffered d + ↑(pairsIn d g.sent) ∧
      (∀ j, d.owner j = w ∨ j ≠ i → g'.partitions j = g.partitions j) ∧
      (d.owner i ≠ w → (g'.partitions i).empty = true) := by
  by_cases hown : d.owner i = w
  · have hlocal : isLocalShard d g i = true := decide_eq_true (hown.trans hg.id_eq.symm)
    simp only [GlobalTable.sendShard, hlocal, Bool.not_true, Bool.false_and, Bool.false_eq_true,
      if_false, Except.ok.injEq] at hok
    subst hok
    exact ⟨hg, rfl, fun _ _ => rfl, fun hne => absurd hown hne⟩
  · have hlocal : isLocalShard d g i = false := decide_eq_false (hg.id_eq ▸ hown)
    obtain ⟨t, m, hpart, -⟩ := hg.delta i hi hown
    by_cases hsends : (!isLocalShard d g i && (g.dirty i || !(g.partitions i).empty)) = true
    · obtain rfl : GlobalTable.flushed d g i t = g' :=
        Except.ok.inj ((sendShard_of_delta hpart hsends).symm.trans hok)
      refine ⟨hg.flushed hi hown hpart, buffered_flushed hi hpart, fun j hj => ?_, fun _ => ?_⟩
      · have hji : j ≠ i := hj.elim (fun hw heq => hown (heq ▸ hw)) fun hne => hne
        rw [GlobalTable.flushed, setPartition_of_ne _ hji]
      · rw [GlobalTable.flushed, setPartition_self]
        rfl
    · simp only [GlobalTable.sendShard, hsends, Bool.false_eq_true, if_false,
        Except.ok.injEq] at hok
      subst hok
      refine ⟨hg, rfl, fun _ _ => rfl, fun _ => ?_⟩
      simp only [hlocal, Bool.not_false, Bool.true_and, Bool.or_eq_true, not_or] at hsends
      simpa using hsends.2

/-- A pair for a shard of the worker goes to its state table. -/
theorem Routed.accumulateF1 (hg : Routed d w g) (hown : d.owner (d.getShard k) = w)
    (hok : accumulateF1 d k v g = .ok g') :
    ∃ t t', g.partitions (d.getShard k) = .state t ∧
      StateTable.accumulateF1 d.hash d.kern k v t = .ok t' ∧
      g' = g.setPartition (d.getShard k) (.state t') := by
  have hlocal : isLocalShard d g (d.getShard k) = true := decide_eq_true (hown.trans hg.id_eq.symm)
  obtain ⟨t, hpart⟩ := hg.state _ (d.getShard_lt k) hown
  simp only [GlobalTable.accumulateF1, hlocal, if_true, onState, hpart] at hok
  cases hcall : StateTable.accumulateF1 d.hash d.kern k v t with
  | error e =>
    rw [hcall] at hok
    cases hok
  | ok t' =>
    rw [hcall] at hok
    exact ⟨t, t', hpart, hcall, (Except.ok.inj hok).symm⟩

omit [DecidableEq ι] in
theorem Routed.setState (hg : Routed d w g) (hown : d.owner i = w) (t : StateTable K V D) :
    Routed d w (g.setPartition i (.state t)) where
  id_eq := hg.id_eq
  state j hj hown' := by
    by_cases hji : j = i
    · subst hji
      exact ⟨t, setPartition_self ..⟩
    · rw [setPartition_of_ne g hji]
      exact hg.state j hj hown'
  delta j hj hown' := by
    have hji : j ≠ i := fun heq => hown' (heq ▸ hown)
    rw [setPartition_of_ne g hji]
    exact hg.delta j hj hown'
  sent := hg.sent

end GlobalTable

/-! ## What a worker does -/

namespace BarrierWorker

variable {n m : ℕ} {K V D : Fin m → Type*} (d : ∀ t, TableDescriptor (Fin n) (K t) (V t) (D t))

/-- The pairs for table `t` in put requests. -/
def queuedPairs (t : Fin m) (msgs : List (Fin m × KVPairData (Fin n))) : List (K t × V t) :=
  msgs.flatMap fun msg => if msg.1 = t then (d t).marshals.decode msg.2.kvData else []

/-- The pairs for table `t` in the put request that is being applied. -/
def readPairs (t : Fin m) : PutReader m → List (K t × V t)
  | .applying _ t' rest => if t' = t then (d t).marshals.decode rest else []
  | .unlocked | .scanning _ _ => []

/-- The pairs for table `t` on a worker that have not been applied: in its buffers, in the
messages it has sent, in its queues and in the request it is applying. -/
def pending (t : Fin m) (p : BarrierWorker n m K V D) : Multiset (K t × V t) :=
  (p.tables t).buffered (d t) + ↑(GlobalTable.pairsIn (d t) (p.tables t).sent) +
    ↑(queuedPairs d t (p.flying.map Prod.snd)) +
    (∑ u, (queuedPairs d t (p.queue u) : Multiset (K t × V t))) + ↑(readPairs d t p.reader)

/-- All pairs for table `t` on a worker. -/
def load (t : Fin m) (p : BarrierWorker n m K V D) : Multiset (K t × V t) :=
  p.pending d t + ↑(p.applied t)

variable [∀ t, DecidableEq (K t)]

/-- Worker `w`, which was `p₀` before the barrier. What has come to it is for its own shards,
and its state tables are the result of what it has applied. -/
structure Sound (w : Fin n) (p₀ p : BarrierWorker n m K V D) : Prop where
  routed : ∀ t, (p.tables t).Routed (d t) w
  flying : ∀ x ∈ p.flying, GlobalTable.Addressed (d x.2.1) Set.univ (x.1, x.2.2)
  queued : ∀ u t, ∀ kv ∈ queuedPairs d t (p.queue u), (d t).owner ((d t).getShard kv.1) = w
  read : ∀ t, ∀ kv ∈ readPairs d t p.reader, (d t).owner ((d t).getShard kv.1) = w
  applied : ∀ t, ∀ kv ∈ p.applied t, (d t).owner ((d t).getShard kv.1) = w
  state : ∀ t i st₀, (d t).owner i = w → (p₀.tables t).partitions i = .state st₀ →
    ∃ st, (p.tables t).partitions i = .state st ∧
      forEach (fun kv => StateTable.accumulateF1 (d t).hash (d t).kern kv.1 kv.2)
        ((p.applied t).filter fun kv => (d t).getShard kv.1 = i) st₀ = .ok st

/-- How far worker `w` is. -/
structure Progress (w : Fin n) (p : BarrierWorker n m K V D) : Prop where
  flushed : ∀ (t : Fin m) i, p.flush.past t i → i < (d t).numShards → (d t).owner i ≠ w →
    ((p.tables t).partitions i).empty = true
  tested : p.flush = .tested .pending 0 → ∀ t, (p.tables t).sent = []
  sent : p.flush = .replied → (∀ t, (p.tables t).sent = []) ∧ p.flying = []
  asked : p.reader.holder = some .network → p.apply = .asked
  network : ∀ next, p.reader = .scanning .network next → ∀ u : Fin n, u < next → p.queue u = []
  replied : p.apply = .replied → (∀ u, p.queue u = []) ∧ ∀ thread t rest,
    p.reader ≠ .applying thread t rest

/-- What a step of `HandleFlush` can do. -/
inductive Flushes (p : BarrierWorker n m K V D) : BarrierWorker n m K V D → Prop
  | stays : Flushes p p
  | sends {t : Fin m} {i : ℕ} {g : GlobalTable (Fin n) (K t) (V t) (D t)}
      (hflush : p.flush = .sending t i) (hi : i < (d t).numShards)
      (hok : GlobalTable.sendShard (d t) i (p.tables t) = .ok g) :
      Flushes p { p with tables := Function.update p.tables t g, flush := .sending t (i + 1) }
  | next {t : Fin m} {i : ℕ} (hflush : p.flush = .sending t i) (hi : (d t).numShards ≤ i) :
      Flushes p { p with
        tables := Function.update p.tables t { p.tables t with pendingWrites := 0 }
        flush := .sending (t + 1) 0 }
  | waits {t i : ℕ} (hflush : p.flush = .sending t i) (ht : m ≤ t) :
      Flushes p { p with flush := .waiting }

/-- What a step of `HandlePutRequest` can do. -/
inductive Reads (thread : Thread) (p : BarrierWorker n m K V D) : BarrierWorker n m K V D → Prop
  | waits : Reads thread p p
  | enters (hreader : p.reader = .unlocked) :
      Reads thread p { p with reader := .scanning thread 0 }
  | skips {u : Fin n} (hreader : p.reader = .scanning thread u) (hqueue : p.queue u = []) :
      Reads thread p { p with reader := .scanning thread (u + 1) }
  | takes {u : Fin n} {t : Fin m} {put : KVPairData (Fin n)}
    {rest : List (Fin m × KVPairData (Fin n))}
      (hreader : p.reader = .scanning thread u) (hqueue : p.queue u = (t, put) :: rest) :
      Reads thread p { p with
        queue := Function.update p.queue u rest
        reader := .applying thread t put.kvData }
  | leaves {next : ℕ} (hreader : p.reader = .scanning thread next) (hnext : n ≤ next) :
      Reads thread p (p.leave thread)
  | again {t : Fin m} (hreader : p.reader = .applying thread t []) :
      Reads thread p { p with reader := .scanning thread 0 }
  | applies {t : Fin m} {kv : Bytes × Bytes} {rest : KVData} {k : K t} {v : V t}
      {g : GlobalTable (Fin n) (K t) (V t) (D t)}
      (hreader : p.reader = .applying thread t (kv :: rest))
      (hkv : (d t).marshals.decode [kv] = [(k, v)])
      (hok : GlobalTable.accumulateF1 (d t) k v (p.tables t) = .ok g) :
      Reads thread p { p with
        tables := Function.update p.tables t g
        reader := .applying thread t rest
        applied := Function.update p.applied t (p.applied t ++ [(k, v)]) }

section Cases

variable {d} {thread : Thread} {p p' : BarrierWorker n m K V D}

omit [∀ t, DecidableEq (K t)] in
theorem onTable_eq_ok {t : Fin m} {call : GlobalTable (Fin n) (K t) (V t) (D t) →
      Except (Fault (K t)) (GlobalTable (Fin n) (K t) (V t) (D t))}
    (hok : p.onTable t call = .ok p') :
    ∃ g, call (p.tables t) = .ok g ∧ p' = { p with tables := Function.update p.tables t g } := by
  rw [onTable] at hok
  cases hcall : call (p.tables t) with
  | error e =>
    rw [hcall] at hok
    cases hok
  | ok g =>
    rw [hcall] at hok
    exact ⟨g, rfl, (Except.ok.inj hok).symm⟩

theorem flushes_of_handleFlush (hok : p.handleFlush d = .ok p') : Flushes d p p' := by
  rw [handleFlush] at hok
  cases hflush : p.flush with
  | idle | waiting | tested | replied =>
    rw [hflush] at hok
    obtain rfl := Except.ok.inj hok
    exact .stays
  | sending t i =>
    rw [hflush] at hok
    dsimp only at hok
    split_ifs at hok with ht hi
    · obtain ⟨p₁, hcall, rfl⟩ := map_eq_ok.mp hok
      obtain ⟨g, hsend, rfl⟩ := onTable_eq_ok hcall
      exact .sends (t := ⟨t, ht⟩) hflush hi hsend
    · obtain ⟨p₁, hcall, rfl⟩ := map_eq_ok.mp hok
      obtain ⟨g, hsend, rfl⟩ := onTable_eq_ok hcall
      obtain rfl := Except.ok.inj hsend
      exact .next (t := ⟨t, ht⟩) hflush (Nat.le_of_not_lt hi)
    · obtain rfl := Except.ok.inj hok
      exact .waits hflush (Nat.le_of_not_lt ht)

theorem reads_of_handlePutRequest (hok : p.handlePutRequest d thread = .ok p') :
    Reads d thread p p' := by
  rw [handlePutRequest] at hok
  -- by where the thread that has the lock is in `HandlePutRequest`; other threads wait
  cases hreader : p.reader with
  | unlocked =>
    rw [hreader] at hok
    obtain rfl := Except.ok.inj hok
    exact .enters hreader
  | scanning holder next =>
    rw [hreader] at hok
    dsimp only at hok
    split_ifs at hok with hholder hnext
    · obtain rfl := Except.ok.inj hok
      exact .waits
    · obtain rfl : holder = thread := not_not.mp hholder
      split at hok
      next hqueue =>
        obtain rfl := Except.ok.inj hok
        exact .skips (u := ⟨next, hnext⟩) hreader hqueue
      next t put rest hqueue =>
        obtain rfl := Except.ok.inj hok
        exact .takes (u := ⟨next, hnext⟩) hreader hqueue
    · obtain rfl : holder = thread := not_not.mp hholder
      obtain rfl := Except.ok.inj hok
      exact .leaves hreader (Nat.le_of_not_lt hnext)
  | applying holder t data =>
    rw [hreader] at hok
    dsimp only at hok
    split_ifs at hok with hholder
    · obtain rfl := Except.ok.inj hok
      exact .waits
    · obtain rfl : holder = thread := not_not.mp hholder
      cases data with
      | nil =>
        obtain rfl := Except.ok.inj hok
        exact .again hreader
      | cons kv rest =>
        obtain ⟨p₁, hcall, rfl⟩ := map_eq_ok.mp hok
        obtain ⟨g, hacc, rfl⟩ := onTable_eq_ok hcall
        exact .applies hreader rfl hacc

end Cases

section Steps

variable {d} {thread : Thread} {w : Fin n} {p₀ p p' : BarrierWorker n m K V D} {t : Fin m}
  {g : GlobalTable (Fin n) (K t) (V t) (D t)}

/-- A call on a table that leaves the state tables alone. -/
theorem Sound.setTable (hp : Sound d w p₀ p) (hg : g.Routed (d t) w)
    (hparts : ∀ i, (d t).owner i = w → g.partitions i = (p.tables t).partitions i) :
    Sound d w p₀ { p with tables := Function.update p.tables t g } where
  routed := (Function.forall_update_iff p.tables fun t g => g.Routed (d t) w).mpr
    ⟨hg, fun t' _ => hp.routed t'⟩
  flying := hp.flying
  queued := hp.queued
  read := hp.read
  applied := hp.applied
  state t' i st₀ hown hst₀ := by
    obtain ⟨st, hst, hrun⟩ := hp.state t' i st₀ hown hst₀
    refine ⟨st, ?_, hrun⟩
    by_cases ht : t' = t
    · subst ht
      dsimp only
      rw [Function.update_self, hparts i hown, hst]
    · dsimp only
      rw [Function.update_of_ne ht, hst]

omit [∀ t, DecidableEq (K t)] in
/-- A call on a table that moves pairs between its buffers and its messages. -/
theorem load_setTable (hpairs : g.buffered (d t) + ↑(GlobalTable.pairsIn (d t) g.sent) =
      (p.tables t).buffered (d t) + ↑(GlobalTable.pairsIn (d t) (p.tables t).sent)) (t' : Fin m) :
    load d t' { p with tables := Function.update p.tables t g } = load d t' p := by
  simp only [load, pending]
  congr 4
  by_cases ht : t' = t
  · subst ht
    rw [Function.update_self, hpairs]
  · rw [Function.update_of_ne ht]

/-! ### `HandleFlush` -/

theorem Flushes.sound (hp : Sound d w p₀ p) (hstep : Flushes d p p') : Sound d w p₀ p' := by
  cases hstep with
  | stays => exact hp
  | @sends t i g hflush hi hok =>
    obtain ⟨hg, -, hparts, -⟩ := (hp.routed t).sendShard hi hok
    have h := hp.setTable hg fun j hj => hparts j (.inl hj)
    exact ⟨h.routed, h.flying, h.queued, h.read, h.applied, h.state⟩
  | @next t i hflush hi =>
    have hg := hp.routed t
    have h := hp.setTable (g := { p.tables t with pendingWrites := 0 })
      ⟨hg.id_eq, hg.state, hg.delta, hg.sent⟩ fun _ _ => rfl
    exact ⟨h.routed, h.flying, h.queued, h.read, h.applied, h.state⟩
  | waits => exact ⟨hp.routed, hp.flying, hp.queued, hp.read, hp.applied, hp.state⟩

theorem Flushes.load_eq (hp : Sound d w p₀ p) (hstep : Flushes d p p') (t : Fin m) :
    p'.load d t = p.load d t := by
  cases hstep with
  | stays | waits => rfl
  | @sends t' i g hflush hi hok =>
    obtain ⟨-, hpairs, -⟩ := (hp.routed t').sendShard hi hok
    exact load_setTable hpairs t
  | @next t' => exact load_setTable (g := { p.tables t' with pendingWrites := 0 }) rfl t

theorem Flushes.progress (hp : Sound d w p₀ p) (hprog : Progress d w p) (hstep : Flushes d p p') :
    Progress d w p' := by
  cases hstep with
  | stays => exact hprog
  | @sends t i g hflush hi hok =>
    refine ⟨fun t' j hpast hj hown => ?_, nofun, nofun, hprog.asked, hprog.network,
      hprog.replied⟩
    obtain ⟨-, -, hparts, hempty⟩ := (hp.routed t).sendShard hi hok
    -- the partitions before shard `i` were flushed, and `sendShard` empties this one only
    have hold : ∀ (t' : Fin m) j, t' < t ∨ t' = t ∧ j < i → j < (d t').numShards →
        (d t').owner j ≠ w → ((p.tables t').partitions j).empty = true := by
      intro t' j hbefore
      refine hprog.flushed t' j ?_
      rw [hflush]
      exact hbefore.imp id fun h => ⟨congrArg Fin.val h.1, h.2⟩
    dsimp only
    by_cases ht : t' = t
    · subst ht
      rw [Function.update_self]
      by_cases hji : j = i
      · subst hji
        exact hempty hown
      · have hlt : j < i := by
          rcases hpast with hlt | ⟨-, hlt⟩
          · omega
          · omega
        rw [hparts j (.inr hji)]
        exact hold t' j (.inr ⟨rfl, hlt⟩) hj hown
    · rw [Function.update_of_ne ht]
      refine hold t' j (.inl ?_) hj hown
      rcases hpast with hlt | ⟨heq, -⟩
      · exact hlt
      · exact absurd (Fin.ext heq) ht
  | @next t i hflush hi =>
    refine ⟨fun t' j hpast hj hown => ?_, nofun, nofun, hprog.asked, hprog.network,
      hprog.replied⟩
    have hbefore : p.flush.past t' j := by
      rw [hflush]
      rcases hpast with hlt | ⟨-, hlt⟩
      · rcases Nat.lt_or_eq_of_le (Nat.le_of_lt_succ hlt) with hlt' | heq
        · exact .inl hlt'
        · obtain rfl : t' = t := Fin.ext heq
          exact .inr ⟨rfl, hj.trans_le hi⟩
      · exact absurd hlt (Nat.not_lt_zero j)
    have hempty := hprog.flushed t' j hbefore hj hown
    dsimp only
    by_cases ht : t' = t
    · subst ht
      rw [Function.update_self]
      exact hempty
    · rw [Function.update_of_ne ht]
      exact hempty
  | @waits t i hflush ht =>
    refine ⟨fun t' j _ hj hown => hprog.flushed t' j ?_ hj hown, nofun, nofun, hprog.asked,
      hprog.network, hprog.replied⟩
    rw [hflush]
    exact .inl (t'.isLt.trans_le ht)

/-! ### `HandlePutRequest` -/

omit [∀ t, DecidableEq (K t)] in
theorem queuedPairs_cons (thread : Thread) (t t' : Fin m) (put : KVPairData (Fin n))
    (rest : List (Fin m × KVPairData (Fin n))) :
    queuedPairs d t ((t', put) :: rest) =
      readPairs d t (.applying thread t' put.kvData) ++ queuedPairs d t rest :=
  rfl

omit [∀ t, DecidableEq (K t)] in
theorem readPairs_cons {kv : Bytes × Bytes} {rest : KVData} {k : K t} {v : V t}
    (hkv : (d t).marshals.decode [kv] = [(k, v)]) :
    readPairs d t (.applying thread t (kv :: rest)) =
      (k, v) :: readPairs d t (.applying thread t rest) := by
  have hdecode : (d t).marshals.decode (kv :: rest) = (k, v) :: (d t).marshals.decode rest := by
    rw [← List.singleton_append, Marshals.decode, List.map_append]
    exact congrArg (· ++ _) hkv
  simp only [readPairs, if_true, hdecode]

omit [∀ t, DecidableEq (K t)] in
theorem readPairs_of_ne {t' : Fin m} (ht : t' ≠ t) (data : KVData) :
    readPairs d t (.applying thread t' data) = [] :=
  if_neg ht

/-- The next pair of the request in hand goes to a state table of the worker. -/
theorem Sound.accumulateF1 (hp : Sound d w p₀ p) {kv : Bytes × Bytes} {rest : KVData} {k : K t}
    {v : V t} (hreader : p.reader = .applying thread t (kv :: rest))
    (hkv : (d t).marshals.decode [kv] = [(k, v)])
    (hok : GlobalTable.accumulateF1 (d t) k v (p.tables t) = .ok g) :
    (d t).owner ((d t).getShard k) = w ∧
      ∃ st st', (p.tables t).partitions ((d t).getShard k) = .state st ∧
        StateTable.accumulateF1 (d t).hash (d t).kern k v st = .ok st' ∧
        g = (p.tables t).setPartition ((d t).getShard k) (.state st') := by
  have hown : (d t).owner ((d t).getShard k) = w := by
    refine hp.read t (k, v) ?_
    rw [hreader, readPairs_cons hkv]
    exact List.mem_cons_self
  exact ⟨hown, (hp.routed t).accumulateF1 hown hok⟩

/-- A table whose shards have been reached by applying the pairs so far, and one more pair. -/
theorem accumulated_concat {t : Fin m} {i : ℕ} {pairs : List (K t × V t)} {k : K t} {v : V t}
    {g : GlobalTable (Fin n) (K t) (V t) (D t)} {st₀ st st' st₁ : StateTable (K t) (V t) (D t)}
    (hpart : g.partitions ((d t).getShard k) = .state st)
    (hacc : StateTable.accumulateF1 (d t).hash (d t).kern k v st = .ok st')
    (hst₁ : g.partitions i = .state st₁)
    (hrun : forEach (fun kv => StateTable.accumulateF1 (d t).hash (d t).kern kv.1 kv.2)
      (pairs.filter fun kv => (d t).getShard kv.1 = i) st₀ = .ok st₁) :
    ∃ st₂, (g.setPartition ((d t).getShard k) (.state st')).partitions i = .state st₂ ∧
      forEach (fun kv => StateTable.accumulateF1 (d t).hash (d t).kern kv.1 kv.2)
        ((pairs ++ [(k, v)]).filter fun kv => (d t).getShard kv.1 = i) st₀ = .ok st₂ := by
  rw [List.filter_append, forEach_append, hrun]
  by_cases hi : i = (d t).getShard k
  · subst hi
    obtain rfl : st = st₁ := Partition.state.inj (hpart.symm.trans hst₁)
    refine ⟨st', GlobalTable.setPartition_self .., ?_⟩
    rw [List.filter_cons_of_pos (by simp), Except.bind, List.filter_nil, forEach, hacc]
    rfl
  · refine ⟨st₁, by rw [GlobalTable.setPartition_of_ne _ hi, hst₁], ?_⟩
    rw [List.filter_cons_of_neg (by simpa using Ne.symm hi)]
    rfl

theorem Reads.sound (hp : Sound d w p₀ p) (hstep : Reads d thread p p') : Sound d w p₀ p' := by
  cases hstep with
  | waits => exact hp
  | enters | skips | again =>
    exact ⟨hp.routed, hp.flying, hp.queued, fun t kv hkv => absurd hkv List.not_mem_nil, hp.applied,
      hp.state⟩
  | leaves =>
    cases thread with
    | main | network =>
      exact ⟨hp.routed, hp.flying, hp.queued, fun t kv hkv => absurd hkv List.not_mem_nil,
        hp.applied, hp.state⟩
  | @takes u t put rest hreader hqueue =>
    have hboth : ∀ t',
        ∀ kv ∈ readPairs d t' (.applying thread t put.kvData) ++ queuedPairs d t' rest,
        (d t').owner ((d t').getShard kv.1) = w := by
      intro t' kv hkv
      refine hp.queued u t' kv ?_
      rwa [hqueue, queuedPairs_cons thread]
    refine ⟨hp.routed, hp.flying, fun u' t' kv hkv => ?_,
      fun t' kv hkv => hboth t' kv (List.mem_append_left _ hkv), hp.applied, hp.state⟩
    dsimp only at hkv
    by_cases hu : u' = u
    · subst hu
      rw [Function.update_self] at hkv
      exact hboth t' kv (List.mem_append_right _ hkv)
    · rw [Function.update_of_ne hu] at hkv
      exact hp.queued u' t' kv hkv
  | @applies t kv rest k v g hreader hkv hok =>
    obtain ⟨hown, st, st', hpart, hacc, rfl⟩ := hp.accumulateF1 hreader hkv hok
    refine ⟨?_, hp.flying, hp.queued, fun t' kv' hkv' => hp.read t' kv' ?_, fun t' kv' hkv' => ?_,
      fun t' i st₀ howni hst₀ => ?_⟩
    · exact (Function.forall_update_iff p.tables fun t g => g.Routed (d t) w).mpr
        ⟨(hp.routed t).setState hown st', fun t' _ => hp.routed t'⟩
    · rw [hreader]
      by_cases ht : t = t'
      · subst ht
        rw [readPairs_cons hkv]
        exact List.mem_cons_of_mem _ hkv'
      · dsimp only at hkv'
        rw [readPairs_of_ne ht] at hkv'
        exact absurd hkv' List.not_mem_nil
    · dsimp only at hkv'
      by_cases ht : t' = t
      · subst ht
        rw [Function.update_self] at hkv'
        rcases List.mem_append.mp hkv' with hold | hnew
        · exact hp.applied t' kv' hold
        · rw [List.mem_singleton.mp hnew]
          exact hown
      · rw [Function.update_of_ne ht] at hkv'
        exact hp.applied t' kv' hkv'
    · obtain ⟨st₁, hst₁, hrun⟩ := hp.state t' i st₀ howni hst₀
      dsimp only
      by_cases ht : t' = t
      · subst ht
        rw [Function.update_self, Function.update_self]
        exact accumulated_concat hpart hacc hst₁ hrun
      · rw [Function.update_of_ne ht, Function.update_of_ne ht]
        exact ⟨st₁, hst₁, hrun⟩

omit [∀ t, DecidableEq (K t)] in
/-- A step that moves pairs from the request in hand to those applied. -/
theorem load_setReader {r : PutReader m} {a : ∀ t, List (K t × V t)} (t : Fin m)
    (hpairs : (readPairs d t r : Multiset (K t × V t)) + ↑(a t) =
      ↑(readPairs d t p.reader) + ↑(p.applied t)) :
    load d t { p with reader := r, applied := a } = load d t p := by
  simp only [load, pending, flying]
  rw [add_assoc, hpairs, add_assoc _ (readPairs d t p.reader : Multiset (K t × V t))]

theorem Reads.load_eq (hp : Sound d w p₀ p) (hstep : Reads d thread p p') (t : Fin m) :
    p'.load d t = p.load d t := by
  cases hstep with
  | waits => rfl
  | enters hreader | skips hreader =>
    refine load_setReader t ?_
    rw [hreader]
    rfl
  | again hreader =>
    refine load_setReader t ?_
    rw [hreader]
    simp [readPairs, Marshals.decode]
  | leaves hreader =>
    cases thread with
    | main | network =>
      refine load_setReader t ?_
      rw [hreader]
      rfl
  | @takes u t' put rest hreader hqueue =>
    have hsum := sum_update (fun q => (queuedPairs d t q : Multiset (K t × V t))) p.queue u
      (x := rest)
      (a := ↑(readPairs d t (.applying thread t' put.kvData))) (b := 0) (by
        rw [hqueue, queuedPairs_cons thread, ← Multiset.coe_add, add_zero, add_comm])
    simp only [load, pending, flying, hreader]
    rw [add_assoc (_ + _) (∑ _, _), hsum, add_zero]
    simp [readPairs]
  | @applies t' kv rest k v g hreader hkv hok =>
    obtain ⟨-, st, st', hpart, -, rfl⟩ := hp.accumulateF1 hreader hkv hok
    have hbuf : ((p.tables t').setPartition ((d t').getShard k) (.state st')).buffered (d t') =
        (p.tables t').buffered (d t') := by
      have h := GlobalTable.buffered_setPartition (g := p.tables t') (a := 0) ((d t').getShard_lt k)
        (.state st') (by rw [hpart]; rfl)
      rwa [add_zero] at h
    have hmove : (readPairs d t (.applying thread t' rest) : Multiset (K t × V t)) +
        ↑(Function.update p.applied t' (p.applied t' ++ [(k, v)]) t) =
          ↑(readPairs d t p.reader) + ↑(p.applied t) := by
      rw [hreader]
      by_cases ht : t' = t
      · subst ht
        rw [Function.update_self, readPairs_cons hkv, Multiset.coe_add, Multiset.coe_add,
          Multiset.coe_eq_coe, ← List.append_assoc]
        exact List.perm_append_singleton ..
      · rw [Function.update_of_ne (Ne.symm ht), readPairs_of_ne ht, readPairs_of_ne ht]
    let g := (p.tables t').setPartition ((d t').getShard k) (.state st')
    have htable := load_setTable (p := p) (g := g) (by rw [hbuf]; rfl) t
    exact (load_setReader (p := { p with tables := Function.update p.tables t' g }) t hmove).trans
      htable

theorem Reads.progress (hp : Sound d w p₀ p) (hprog : Progress d w p)
    (hthread : thread = .network → p.apply = .asked) (hstep : Reads d thread p p') :
    Progress d w p' := by
  -- the thread has the lock before and after, except at the two ends
  have hasked : some thread = some .network → p.apply = .asked :=
    fun h => hthread (Option.some.inj h)
  cases hstep with
  | waits => exact hprog
  | enters hreader | again hreader =>
    refine ⟨hprog.flushed, hprog.tested, hprog.sent, hasked, fun next hnext u hu => ?_,
      fun happly => ⟨(hprog.replied happly).1, nofun⟩⟩
    cases hnext
    exact absurd hu (Nat.not_lt_zero u)
  | @skips u hreader hqueue =>
    refine ⟨hprog.flushed, hprog.tested, hprog.sent, hasked, fun next hnext u' hu => ?_,
      fun happly => ⟨(hprog.replied happly).1, nofun⟩⟩
    cases hnext
    rcases Nat.lt_or_eq_of_le (Nat.le_of_lt_succ hu) with hlt | heq
    · exact hprog.network u hreader u' hlt
    · obtain rfl : u' = u := Fin.ext heq
      exact hqueue
  | takes hreader hqueue =>
    refine ⟨hprog.flushed, hprog.tested, hprog.sent, hasked, nofun, fun happly => ?_⟩
    rw [(hprog.replied happly).1] at hqueue
    cases hqueue
  | @leaves next hreader hnext =>
    cases thread with
    | main =>
      exact ⟨hprog.flushed, hprog.tested, hprog.sent, nofun, nofun,
        fun happly => ⟨(hprog.replied happly).1, nofun⟩⟩
    | network =>
      refine ⟨hprog.flushed, hprog.tested, hprog.sent, nofun, nofun, fun _ => ⟨fun u => ?_, nofun⟩⟩
      exact hprog.network next hreader u (u.isLt.trans_le hnext)
  | @applies t kv rest k v g hreader hkv hok =>
    obtain ⟨hown, st, st', -, -, rfl⟩ := hp.accumulateF1 hreader hkv hok
    have hsame : ∀ t', (Function.update p.tables t ((p.tables t).setPartition ((d t).getShard k)
        (.state st')) t').sent = (p.tables t').sent := by
      intro t'
      by_cases ht : t' = t
      · subst ht
        rw [Function.update_self]
        rfl
      · rw [Function.update_of_ne ht]
    refine ⟨fun t' i hpast hi hne => ?_, fun hflush t' => (hsame t').trans (hprog.tested hflush t'),
      fun hflush => ⟨fun t' => (hsame t').trans ((hprog.sent hflush).1 t'), (hprog.sent hflush).2⟩,
      hasked, nofun, fun happly => absurd hreader ((hprog.replied happly).2 _ _ _)⟩
    have hempty := hprog.flushed t' i hpast hi hne
    dsimp only
    by_cases ht : t' = t
    · subst ht
      have hi : i ≠ (d t').getShard k := fun heq => hne (heq ▸ hown)
      rwa [Function.update_self, GlobalTable.setPartition_of_ne _ hi]
    · rwa [Function.update_of_ne ht]

/-! ### The network thread -/

omit [∀ t, DecidableEq (K t)] in
theorem sizeOf_pending_eq_zero : p.sizeOf .pending = 0 ↔ ∀ t, (p.tables t).sent = [] := by
  rw [sizeOf, Finset.sum_eq_zero_iff]
  simp

/-- `active()` has read one size. -/
theorem Sound.readSize (hp : Sound d w p₀ p) (c : SendQueue) : Sound d w p₀ (p.readSize c) := by
  have hsame : ∀ flush replies,
      Sound d w p₀ { p with flush := flush, flushReplies := replies } :=
    fun _ _ => ⟨hp.routed, hp.flying, hp.queued, hp.read, hp.applied, hp.state⟩
  rw [BarrierWorker.readSize]
  split
  · exact hsame _ _
  · split_ifs
    · exact hp
    · exact hsame _ _
    · exact hsame _ _
  all_goals exact hp

omit [∀ t, DecidableEq (K t)] in
theorem load_readSize (c : SendQueue) (t : Fin m) : (p.readSize c).load d t = p.load d t := by
  rw [readSize]
  split
  · rfl
  · split_ifs <;> rfl
  all_goals rfl

omit [∀ t, DecidableEq (K t)] in
/-- If both sizes are zero, what the network thread has taken off `pending_sends_` has to have
arrived. -/
theorem Progress.readSize (hprog : Progress d w p) {c : SendQueue}
    (htruly : ∀ c', p.flush = .tested c' 0 → c ≠ c' → p.sizeOf c = 0 → p.flying = []) :
    Progress d w (p.readSize c) := by
  rw [BarrierWorker.readSize]
  split
  next hflush =>
    refine ⟨fun t i _ => hprog.flushed t i (by rw [hflush]; trivial), fun htested => ?_, nofun,
      hprog.asked, hprog.network, hprog.replied⟩
    obtain ⟨rfl, hzero⟩ := FlushThread.tested.inj htested
    exact sizeOf_pending_eq_zero.mp hzero
  next c' size hflush =>
    have hpast : ∀ (t : Fin m) i, i < (d t).numShards → (d t).owner i ≠ w →
        ((p.tables t).partitions i).empty = true :=
      fun t i => hprog.flushed t i (by rw [hflush]; trivial)
    split_ifs with hc hpos
    · exact hprog
    · exact ⟨fun t i _ => hpast t i, nofun, nofun, hprog.asked, hprog.network, hprog.replied⟩
    · obtain ⟨rfl, hzero⟩ : size = 0 ∧ p.sizeOf c = 0 := by omega
      refine ⟨fun t i _ => hpast t i, nofun, fun _ => ⟨?_, htruly c' hflush hc hzero⟩, hprog.asked,
        hprog.network, hprog.replied⟩
      -- one of the two sizes is that of `pending_sends_`, which grows no more
      cases c with
      | pending => exact sizeOf_pending_eq_zero.mp hzero
      | active =>
        cases c' with
        | active => exact absurd rfl hc
        | pending => exact hprog.tested hflush
  all_goals exact hprog

/-- A step of the network thread on requests that have left `pending_sends_`. -/
theorem Sound.setSends (hp : Sound d w p₀ p) {held : Option (Option (PutSend n m))}
    {active : List (Option (PutSend n m))}
    (hsub : ({ p with held, active } : BarrierWorker n m K V D).flying ⊆ p.flying) :
    Sound d w p₀ { p with held, active } :=
  ⟨hp.routed, fun x hx => hp.flying x (hsub hx), hp.queued, hp.read, hp.applied, hp.state⟩

omit [∀ t, DecidableEq (K t)] in
theorem Progress.setSends (hprog : Progress d w p) {held : Option (Option (PutSend n m))}
    {active : List (Option (PutSend n m))}
    (hsub : ({ p with held, active } : BarrierWorker n m K V D).flying ⊆ p.flying) :
    Progress d w { p with held, active } := by
  refine ⟨hprog.flushed, hprog.tested, fun hflush => ?_, hprog.asked, hprog.network, hprog.replied⟩
  obtain ⟨hsent, hnone⟩ := hprog.sent hflush
  rw [hnone] at hsub
  exact ⟨hsent, List.subset_nil.mp hsub⟩

omit [∀ t, DecidableEq (K t)] in
theorem coe_queuedPairs_of_perm {xs ys : List (PutSend n m)} (hperm : xs.Perm ys) (t : Fin m) :
    (queuedPairs d t (xs.map Prod.snd) : Multiset (K t × V t)) =
      ↑(queuedPairs d t (ys.map Prod.snd)) :=
  Multiset.coe_eq_coe.mpr ((hperm.map Prod.snd).flatMap_right _)

omit [∀ t, DecidableEq (K t)] in
theorem load_setSends {held : Option (Option (PutSend n m))} {active : List (Option (PutSend n m))}
    (hperm : ({ p with held, active } : BarrierWorker n m K V D).flying.Perm p.flying) (t : Fin m) :
    load d t { p with held, active } = load d t p := by
  simp only [load, pending]
  rw [coe_queuedPairs_of_perm hperm]

omit [∀ t, DecidableEq (K t)] in
/-- What `insertActive` and `collectActive` do. -/
theorem exists_sends_insertActive (p : BarrierWorker n m K V D) :
    ∃ held active, p.insertActive = { p with held, active } ∧
      ({ p with held, active } : BarrierWorker n m K V D).flying.Perm p.flying := by
  rw [insertActive]
  split
  next => exact ⟨p.held, p.active, rfl, .refl _⟩
  next send hheld =>
    refine ⟨none, p.active ++ [send], rfl, ?_⟩
    have hperm : (p.active ++ [send]).reduceOption.Perm ([send] ++ p.active).reduceOption := by
      rw [List.reduceOption_append, List.reduceOption_append]
      exact List.perm_append_comm
    rw [flying, flying, hheld]
    exact hperm

theorem reduceOption_eraseIdx {A : Type*} {xs : List (Option A)} {j : ℕ} (hj : xs[j]? = some none) :
    (xs.eraseIdx j).reduceOption = xs.reduceOption := by
  induction xs generalizing j with
  | nil => rfl
  | cons x xs ih =>
    cases j with
    | zero =>
      obtain rfl : x = none := Option.some.inj hj
      rfl
    | succ j =>
      have hrest := ih (j := j) hj
      cases x with
      | none => exact hrest
      | some a => exact congrArg (a :: ·) hrest

theorem perm_reduceOption_set {A : Type*} {xs : List (Option A)} {j : ℕ} {a : A}
    (hj : xs[j]? = some (some a)) : xs.reduceOption.Perm (a :: (xs.set j none).reduceOption) := by
  induction xs generalizing j with
  | nil => cases hj
  | cons x xs ih =>
    cases j with
    | zero =>
      obtain rfl : x = some a := Option.some.inj hj
      exact .refl _
    | succ j =>
      have hrest := ih (j := j) hj
      cases x with
      | none => exact hrest
      | some b => exact (hrest.cons b).trans (.swap a b _)

omit [∀ t, DecidableEq (K t)] in
theorem exists_sends_collectActive (p : BarrierWorker n m K V D) (j : ℕ) :
    ∃ held active, p.collectActive j = { p with held, active } ∧
      ({ p with held, active } : BarrierWorker n m K V D).flying.Perm p.flying := by
  rw [collectActive]
  split_ifs with hj
  · refine ⟨p.held, p.active.eraseIdx j, rfl, ?_⟩
    rw [flying, flying, List.reduceOption_append, List.reduceOption_append,
      reduceOption_eraseIdx hj]
  · exact ⟨p.held, p.active, rfl, .refl _⟩

omit [∀ t, DecidableEq (K t)] in
/-- A request that arrives was under way, and all others still are. -/
theorem perm_flying_markArrived {j : Option ℕ} {x : PutSend n m} (hx : p.underWay j = some x) :
    p.flying.Perm (x :: (p.markArrived j).flying) := by
  cases j with
  | none =>
    have hheld : p.held = some (some x) := Option.join_eq_some_iff.mp hx
    simp only [flying, markArrived, hheld, Option.toList_some, List.singleton_append]
    exact .refl _
  | some j =>
    have hj : p.active[j]? = some (some x) := Option.join_eq_some_iff.mp hx
    rw [flying, List.reduceOption_append]
    refine ((perm_reduceOption_set hj).append_left _).trans ?_
    rw [flying, markArrived, List.reduceOption_append]
    exact List.perm_middle

omit [∀ t, DecidableEq (K t)] in
theorem markArrived_eq (p : BarrierWorker n m K V D) (j : Option ℕ) :
    ∃ held active, p.markArrived j = { p with held, active } := by
  cases j with
  | none => exact ⟨some none, p.active, rfl⟩
  | some j => exact ⟨p.held, p.active.set j none, rfl⟩

theorem Sound.markArrived (hp : Sound d w p₀ p) {j : Option ℕ} {x : PutSend n m}
    (hx : p.underWay j = some x) : Sound d w p₀ (p.markArrived j) := by
  have hsub : (p.markArrived j).flying ⊆ p.flying :=
    fun y hy => (perm_flying_markArrived hx).symm.subset (List.mem_cons_of_mem _ hy)
  obtain ⟨held, active, heq⟩ := markArrived_eq p j
  rw [heq] at hsub ⊢
  exact hp.setSends hsub

omit [∀ t, DecidableEq (K t)] in
theorem Progress.markArrived (hprog : Progress d w p) {j : Option ℕ} {x : PutSend n m}
    (hx : p.underWay j = some x) : Progress d w (p.markArrived j) := by
  have hsub : (p.markArrived j).flying ⊆ p.flying :=
    fun y hy => (perm_flying_markArrived hx).symm.subset (List.mem_cons_of_mem _ hy)
  obtain ⟨held, active, heq⟩ := markArrived_eq p j
  rw [heq] at hsub ⊢
  exact hprog.setSends hsub

omit [∀ t, DecidableEq (K t)] in
theorem load_markArrived {j : Option ℕ} {u : Fin n} {t : Fin m} {put : KVPairData (Fin n)}
    (hx : p.underWay j = some (u, t, put)) (t' : Fin m) :
    load d t' (p.markArrived j) + ↑(readPairs d t' (.applying .network t put.kvData)) =
      load d t' p := by
  have hpairs := coe_queuedPairs_of_perm (d := d) (perm_flying_markArrived hx) t'
  rw [List.map_cons, queuedPairs_cons .network, ← Multiset.coe_add] at hpairs
  obtain ⟨held, active, heq⟩ := markArrived_eq p j
  rw [load, load, pending, pending, hpairs, heq]
  ac_rfl

/-! ### Messages -/

omit [∀ t, DecidableEq (K t)] in
theorem dropSent_tables_self {j : ℕ} : (p.dropSent t j).tables t =
    { p.tables t with sent := (p.tables t).sent.eraseIdx j } :=
  Function.update_self ..

omit [∀ t, DecidableEq (K t)] in
theorem dropSent_tables_of_ne {t' : Fin m} (ht : t' ≠ t) {j : ℕ} :
    (p.dropSent t j).tables t' = p.tables t' :=
  Function.update_of_ne ht ..

omit [∀ t, DecidableEq (K t)] in
/-- `popSend` takes a request, or it does nothing. -/
theorem popSend_cases (p : BarrierWorker n m K V D) (t : Fin m) (j : ℕ) :
    p.popSend t j = p ∨ ∃ u put, (p.tables t).sent[j]? = some (u, put) ∧ p.held = none ∧
      p.popSend t j = { p.dropSent t j with held := some (some (u, t, put)) } := by
  rw [popSend]
  split
  next u put hheld hmsg => exact .inr ⟨u, put, hmsg, hheld, rfl⟩
  next => exact .inl rfl

section PopSend

variable {j : ℕ} {u : Fin n} {put : KVPairData (Fin n)}

omit [∀ t, DecidableEq (K t)] in
theorem flying_popped (hheld : p.held = none) (x : PutSend n m) :
    ({ p.dropSent t j with held := some (some x) } : BarrierWorker n m K V D).flying =
      x :: p.flying := by
  rw [flying, flying, hheld]
  rfl

theorem Sound.popped (hp : Sound d w p₀ p) (hheld : p.held = none)
    (hmsg : (p.tables t).sent[j]? = some (u, put)) :
    Sound d w p₀ { p.dropSent t j with held := some (some (u, t, put)) } := by
  have hg := hp.routed t
  have hdrop := hp.setTable (g := { p.tables t with sent := (p.tables t).sent.eraseIdx j })
    ⟨hg.id_eq, hg.state, hg.delta, fun msg hmsg => hg.sent msg (List.mem_of_mem_eraseIdx hmsg)⟩
    fun _ _ => rfl
  refine ⟨hdrop.routed, fun x hx => ?_, hdrop.queued, hdrop.read, hdrop.applied, hdrop.state⟩
  rw [flying_popped hheld] at hx
  rcases List.mem_cons.mp hx with rfl | hold
  · exact hg.sent _ (List.mem_of_getElem? hmsg)
  · exact hp.flying x hold

omit [∀ t, DecidableEq (K t)] in
theorem load_popped (hheld : p.held = none) (hmsg : (p.tables t).sent[j]? = some (u, put))
    (t' : Fin m) :
    load d t' { p.dropSent t j with held := some (some (u, t, put)) } = load d t' p := by
  simp only [load, pending]
  rw [flying_popped hheld, List.map_cons, queuedPairs_cons .network, ← Multiset.coe_add]
  refine congrArg (· + _ + _ + _) ?_
  by_cases ht : t' = t
  · subst ht
    obtain ⟨hj, heq⟩ := List.getElem?_eq_some_iff.mp hmsg
    have hperm := (List.getElem_cons_eraseIdx_perm hj).flatMap_right
      fun msg => (d t').marshals.decode msg.2.kvData
    rw [List.flatMap_cons, heq] at hperm
    have hpairs : (GlobalTable.pairsIn (d t') (p.tables t').sent : Multiset (K t' × V t')) =
        ↑((d t').marshals.decode put.kvData) +
          ↑(GlobalTable.pairsIn (d t') ((p.tables t').sent.eraseIdx j)) :=
      (Multiset.coe_eq_coe.mpr hperm.symm).trans (Multiset.coe_add _ _).symm
    have hbuf : ((p.dropSent t' j).tables t').buffered (d t') = (p.tables t').buffered (d t') := by
      rw [dropSent_tables_self]
      rfl
    have hsent : ((p.dropSent t' j).tables t').sent = (p.tables t').sent.eraseIdx j := by
      rw [dropSent_tables_self]
    rw [hbuf, hsent, hpairs, readPairs, if_pos rfl]
    ac_rfl
  · rw [readPairs_of_ne (Ne.symm ht), dropSent_tables_of_ne ht, Multiset.coe_nil, zero_add]

omit [∀ t, DecidableEq (K t)] in
theorem Progress.popped (hprog : Progress d w p) (hmsg : (p.tables t).sent[j]? = some (u, put)) :
    Progress d w { p.dropSent t j with held := some (some (u, t, put)) } := by
  -- where the sizes were found zero there is no request to take
  have hsome : (p.tables t).sent ≠ [] := List.ne_nil_of_mem (List.mem_of_getElem? hmsg)
  refine ⟨fun t' i hpast hi hown => ?_, fun hflush => absurd (hprog.tested hflush t) hsome,
    fun hflush => absurd ((hprog.sent hflush).1 t) hsome, hprog.asked, hprog.network,
    hprog.replied⟩
  have hempty := hprog.flushed t' i hpast hi hown
  dsimp only
  by_cases ht : t' = t
  · subst ht
    rwa [dropSent_tables_self]
  · rwa [dropSent_tables_of_ne ht]

end PopSend

omit [∀ t, DecidableEq (K t)] in
theorem queuedPairs_concat (t t' : Fin m) (put : KVPairData (Fin n))
    (msgs : List (Fin m × KVPairData (Fin n))) :
    queuedPairs d t (msgs ++ [(t', put)]) =
      queuedPairs d t msgs ++ readPairs d t (.applying .network t' put.kvData) := by
  rw [queuedPairs, List.flatMap_append]
  exact congrArg _ (List.append_nil _)

theorem Sound.enqueue (hp : Sound d w p₀ p) {u : Fin n} {put : KVPairData (Fin n)}
    (hput : ∀ t', ∀ kv ∈ readPairs d t' (.applying .network t put.kvData),
      (d t').owner ((d t').getShard kv.1) = w) :
    Sound d w p₀ (p.enqueue u t put) := by
  refine ⟨hp.routed, hp.flying, fun u' t' kv hkv => ?_, hp.read, hp.applied, hp.state⟩
  rw [BarrierWorker.enqueue] at hkv
  dsimp only at hkv
  by_cases hu : u' = u
  · subst hu
    rw [Function.update_self, queuedPairs_concat] at hkv
    rcases List.mem_append.mp hkv with hold | hnew
    · exact hp.queued u' t' kv hold
    · exact hput t' kv hnew
  · rw [Function.update_of_ne hu] at hkv
    exact hp.queued u' t' kv hkv

omit [∀ t, DecidableEq (K t)] in
theorem load_enqueue (u : Fin n) (t : Fin m) (put : KVPairData (Fin n)) (t' : Fin m) :
    load d t' (p.enqueue u t put) =
      load d t' p + ↑(readPairs d t' (.applying .network t put.kvData)) := by
  have hsum := sum_update (fun q => (queuedPairs d t' q : Multiset (K t' × V t'))) p.queue u
    (x := p.queue u ++ [(t, put)]) (a := 0)
    (b := ↑(readPairs d t' (.applying .network t put.kvData)))
    (by rw [queuedPairs_concat, ← Multiset.coe_add, add_zero])
  rw [add_zero] at hsum
  simp only [load, pending, flying, BarrierWorker.enqueue, hsum]
  ac_rfl

omit [∀ t, DecidableEq (K t)] in
/-- A put request comes before the worker is asked to apply. -/
theorem Progress.enqueue (hprog : Progress d w p) (hidle : p.apply = .idle) (u : Fin n) (t : Fin m)
    (put : KVPairData (Fin n)) : Progress d w (p.enqueue u t put) := by
  refine ⟨hprog.flushed, hprog.tested, hprog.sent, hprog.asked, fun next hnext => ?_,
    fun happly => ?_⟩
  · have hasked : p.apply = .asked := hprog.asked (congrArg PutReader.holder hnext)
    rw [hidle] at hasked
    cases hasked
  · have hreplied : p.apply = .replied := happly
    rw [hidle] at hreplied
    cases hreplied

end Steps

/-! ### The replies of a worker -/

/-- The replies to `WORKER_FLUSH` that the master has yet to read. -/
def flushOwed (p : BarrierWorker n m K V D) : ℕ :=
  p.flushReplies + if p.flush = .replied then 0 else 1

/-- The replies to `WORKER_APPLY` that the master has yet to read. -/
def applyOwed (p : BarrierWorker n m K V D) : ℕ :=
  p.applyReplies + if p.apply = .replied then 0 else 1

/-- A step that makes a reply only to a request, and once. -/
structure Responds (p p' : BarrierWorker n m K V D) : Prop where
  flushOwed_eq : p'.flushOwed = p.flushOwed
  applyOwed_eq : p'.applyOwed = p.applyOwed
  flush_replied : p.flush = .replied → p'.flush = .replied
  apply_replied : p.apply = .replied → p'.apply = .replied
  flush_idle : p.flush = .idle → p'.flush = .idle ∧ p'.flushReplies = p.flushReplies
  apply_idle : p.apply = .idle → p'.apply = .idle ∧ p'.applyReplies = p.applyReplies

section Responds

variable {d} {thread : Thread} {p p' : BarrierWorker n m K V D}

omit [∀ t, DecidableEq (K t)] in
theorem Responds.of_eq (hflush : p'.flush = p.flush) (happly : p'.apply = p.apply)
    (hflushReplies : p'.flushReplies = p.flushReplies)
    (happlyReplies : p'.applyReplies = p.applyReplies) : Responds p p' where
  flushOwed_eq := by rw [flushOwed, flushOwed, hflush, hflushReplies]
  applyOwed_eq := by rw [applyOwed, applyOwed, happly, happlyReplies]
  flush_replied h := hflush.trans h
  apply_replied h := happly.trans h
  flush_idle h := ⟨hflush.trans h, hflushReplies⟩
  apply_idle h := ⟨happly.trans h, happlyReplies⟩

theorem Flushes.responds (hstep : Flushes d p p') : Responds p p' := by
  cases hstep with
  | stays => exact .of_eq rfl rfl rfl rfl
  | sends hflush | next hflush | waits hflush =>
    refine ⟨?_, rfl, ?_, fun h => h, ?_, fun h => ⟨h, rfl⟩⟩
    · simp [flushOwed, hflush]
    · rw [hflush]
      nofun
    · rw [hflush]
      nofun

omit [∀ t, DecidableEq (K t)] in
theorem responds_readSize (p : BarrierWorker n m K V D) (c : SendQueue) :
    Responds p (p.readSize c) := by
  rw [readSize]
  cases hflush : p.flush with
  | idle | sending | replied => exact .of_eq rfl rfl rfl rfl
  | waiting =>
    exact ⟨by simp [flushOwed, hflush], rfl, by simp [hflush], fun h => h, by simp [hflush],
      fun h => ⟨h, rfl⟩⟩
  | tested c' size =>
    dsimp only
    split_ifs
    · exact .of_eq rfl rfl rfl rfl
    · exact ⟨by simp [flushOwed, hflush], rfl, by simp [hflush], fun h => h, by simp [hflush],
        fun h => ⟨h, rfl⟩⟩
    · exact ⟨by simp [flushOwed, hflush], rfl, fun _ => rfl, fun h => h, by simp [hflush],
        fun h => ⟨h, rfl⟩⟩

theorem Reads.responds (hthread : thread = .network → p.apply = .asked)
    (hstep : Reads d thread p p') : Responds p p' := by
  cases hstep with
  | waits | enters | skips | takes | again | applies => exact .of_eq rfl rfl rfl rfl
  | leaves =>
    cases thread with
    | main => exact .of_eq rfl rfl rfl rfl
    | network =>
      have happly := hthread rfl
      refine ⟨rfl, ?_, fun h => h, fun _ => rfl, fun h => ⟨h, rfl⟩, ?_⟩
      · simp [applyOwed, leave, happly]
      · rw [happly]
        nofun

end Responds

end BarrierWorker

/-! ## Runs -/

namespace Barrier

variable {n m : ℕ} {K V D : Fin m → Type*} [∀ t, DecidableEq (K t)]
  (d : ∀ t, TableDescriptor (Fin n) (K t) (V t) (D t))

/-- What the kernels leave behind. The idle loop of a worker may be in the middle of
`HandlePutRequest`. -/
structure Ready (s : Barrier n m K V D) : Prop where
  round : s.round = .start
  routed : ∀ w t, ((s.workers w).tables t).Routed (d t) w
  flying : ∀ w, ∀ x ∈ (s.workers w).flying,
    GlobalTable.Addressed (d x.2.1) Set.univ (x.1, x.2.2)
  queued : ∀ w u t, ∀ kv ∈ BarrierWorker.queuedPairs d t ((s.workers w).queue u),
    (d t).owner ((d t).getShard kv.1) = w
  read : ∀ w t, ∀ kv ∈ BarrierWorker.readPairs d t (s.workers w).reader,
    (d t).owner ((d t).getShard kv.1) = w
  main : ∀ w, (s.workers w).reader.holder ≠ some .network
  applied : ∀ w t, (s.workers w).applied t = []
  flush : ∀ w, (s.workers w).flush = .idle ∧ (s.workers w).flushReplies = 0
  apply : ∀ w, (s.workers w).apply = .idle ∧ (s.workers w).applyReplies = 0

/-- The replies that the master waits for are those to come. -/
structure Counted (s : Barrier n m K V D) : Prop where
  start : s.round = .start → ∀ w,
    ((s.workers w).flush = .idle ∧ (s.workers w).flushReplies = 0) ∧
      (s.workers w).apply = .idle ∧ (s.workers w).applyReplies = 0
  flush : s.round = .flush →
    (∀ w, (s.workers w).apply = .idle ∧ (s.workers w).applyReplies = 0) ∧
      s.count = ∑ w, (s.workers w).flushOwed
  apply : s.round = .apply →
    (∀ w, (s.workers w).flush = .replied) ∧ s.count = ∑ w, (s.workers w).applyOwed
  returned : s.round = .returned →
    ∀ w, (s.workers w).flush = .replied ∧ (s.workers w).apply = .replied

/-- What holds in every state. -/
structure Inv (s₀ s : Barrier n m K V D) : Prop where
  sound : ∀ w, BarrierWorker.Sound d w (s₀.workers w) (s.workers w)
  progress : ∀ w, (s.workers w).Progress d w
  load : ∀ t, ∑ w, (s.workers w).load d t = ∑ w, (s₀.workers w).load d t
  counted : s.Counted

variable {d} {s₀ s s' : Barrier n m K V D} {w : Fin n} {p : BarrierWorker n m K V D}

theorem Ready.inv (hready : Ready d s) : Inv d s s where
  sound w :=
    { routed := hready.routed w
      flying := hready.flying w
      queued := hready.queued w
      read := hready.read w
      applied := fun t kv hkv => by
        rw [hready.applied] at hkv
        exact absurd hkv List.not_mem_nil
      state := fun t i st₀ _ hst₀ => ⟨st₀, hst₀, by rw [hready.applied]; rfl⟩ }
  progress w :=
    { flushed := fun t i hpast => by
        rw [(hready.flush w).1] at hpast
        exact hpast.elim
      tested := fun h => by simp [hready.flush w] at h
      sent := fun h => by simp [hready.flush w] at h
      asked := fun h => absurd h (hready.main w)
      network := fun next h => absurd (by rw [h]; rfl) (hready.main w)
      replied := fun h => by simp [hready.apply w] at h }
  load _ := rfl
  counted := by
    refine ⟨fun _ w => ⟨hready.flush w, hready.apply w⟩, ?_, ?_, ?_⟩
    · rw [hready.round]
      nofun
    · rw [hready.round]
      nofun
    · rw [hready.round]
      nofun

omit [∀ t, DecidableEq (K t)] in
theorem forall_setWorker (P : Fin n → BarrierWorker n m K V D → Prop)
    (hall : ∀ v, P v (s.workers v)) (hp : P w p) (v : Fin n) :
    P v ((s.setWorker w p).workers v) :=
  (Function.forall_update_iff s.workers P).mpr ⟨hp, fun v _ => hall v⟩ v

omit [∀ t, DecidableEq (K t)] in
theorem sum_setWorker {A : Type*} [AddCommMonoid A] (F : BarrierWorker n m K V D → A)
    (hF : F p = F (s.workers w)) : ∑ v, F ((s.setWorker w p).workers v) = ∑ v, F (s.workers v) := by
  have h := sum_update F s.workers w (x := p) (a := 0) (b := 0) (by rw [hF])
  rwa [add_zero, add_zero] at h

omit [∀ t, DecidableEq (K t)] in
theorem Counted.setWorker (hs : s.Counted) (hp : (s.workers w).Responds p) :
    (s.setWorker w p).Counted where
  start hround := by
    have hall := hs.start hround
    obtain ⟨⟨hflush, hflushReplies⟩, happly, happlyReplies⟩ := hall w
    obtain ⟨hflush', hflushReplies'⟩ := hp.flush_idle hflush
    obtain ⟨happly', happlyReplies'⟩ := hp.apply_idle happly
    exact forall_setWorker
      (fun _ p => (p.flush = .idle ∧ p.flushReplies = 0) ∧ p.apply = .idle ∧
        p.applyReplies = 0) hall
      ⟨⟨hflush', hflushReplies'.trans hflushReplies⟩, happly', happlyReplies'.trans happlyReplies⟩
  flush hround := by
    obtain ⟨hall, hcount⟩ := hs.flush hround
    obtain ⟨happly', happlyReplies'⟩ := hp.apply_idle (hall w).1
    exact ⟨forall_setWorker (fun _ p => p.apply = .idle ∧ p.applyReplies = 0) hall
      ⟨happly', happlyReplies'.trans (hall w).2⟩,
        hcount.trans (sum_setWorker _ hp.flushOwed_eq).symm⟩
  apply hround := by
    obtain ⟨hall, hcount⟩ := hs.apply hround
    exact ⟨forall_setWorker (fun _ p => p.flush = .replied) hall (hp.flush_replied (hall w)),
      hcount.trans (sum_setWorker _ hp.applyOwed_eq).symm⟩
  returned hround := by
    have hall := hs.returned hround
    exact forall_setWorker (fun _ p => p.flush = .replied ∧ p.apply = .replied) hall
      ⟨hp.flush_replied (hall w).1, hp.apply_replied (hall w).2⟩

/-- A step of one worker. -/
theorem Inv.setWorker (hs : Inv d s₀ s) (hsound : BarrierWorker.Sound d w (s₀.workers w) p)
    (hprog : p.Progress d w) (hload : ∀ t, p.load d t = (s.workers w).load d t)
    (hresp : (s.workers w).Responds p) : Inv d s₀ (s.setWorker w p) where
  sound := forall_setWorker (fun v => BarrierWorker.Sound d v (s₀.workers v)) hs.sound hsound
  progress := forall_setWorker (BarrierWorker.Progress d) hs.progress hprog
  load t := (sum_setWorker _ (hload t)).trans (hs.load t)
  counted := hs.counted.setWorker hresp

theorem step_handleFlush (hs : Inv d s₀ s) (hstep : step d (.handleFlush w) s = .ok s') :
    Inv d s₀ s' := by
  obtain ⟨p, hok, rfl⟩ := map_eq_ok.mp hstep
  have hp := BarrierWorker.flushes_of_handleFlush hok
  have hw := hs.sound w
  exact hs.setWorker (hp.sound hw) (hp.progress hw (hs.progress w)) (hp.load_eq hw) hp.responds

theorem inv_of_reads (hs : Inv d s₀ s) {thread : Thread}
    (hp : BarrierWorker.Reads d thread (s.workers w) p)
    (hthread : thread = .network → (s.workers w).apply = .asked) : Inv d s₀ (s.setWorker w p) := by
  have hw := hs.sound w
  exact hs.setWorker (hp.sound hw) (hp.progress hw (hs.progress w) hthread) (hp.load_eq hw)
    (hp.responds hthread)

theorem step_checkNetwork (hs : Inv d s₀ s) (hstep : step d (.checkNetwork w) s = .ok s') :
    Inv d s₀ s' := by
  obtain ⟨p, hok, rfl⟩ := map_eq_ok.mp hstep
  exact inv_of_reads hs (BarrierWorker.reads_of_handlePutRequest hok) nofun

theorem step_handleApply (hs : Inv d s₀ s) (hstep : step d (.handleApply w) s = .ok s') :
    Inv d s₀ s' := by
  obtain ⟨p, hok, rfl⟩ := map_eq_ok.mp hstep
  rw [BarrierWorker.handleApply] at hok
  split_ifs at hok with hasked
  · exact inv_of_reads hs (BarrierWorker.reads_of_handlePutRequest hok) fun _ => hasked
  · obtain rfl := Except.ok.inj hok
    exact hs.setWorker (hs.sound w) (hs.progress w) (fun _ => rfl) (.of_eq rfl rfl rfl rfl)

theorem step_readSize (hs : Inv d s₀ s) (w : Fin n) (c : SendQueue)
    (htruly : ∀ c', (s.workers w).flush = .tested c' 0 → c ≠ c' → (s.workers w).sizeOf c = 0 →
      (s.workers w).flying = []) : Inv d s₀ (s.setWorker w ((s.workers w).readSize c)) :=
  hs.setWorker ((hs.sound w).readSize c) ((hs.progress w).readSize htruly)
    (BarrierWorker.load_readSize c) (BarrierWorker.responds_readSize _ c)

theorem step_popSend (hs : Inv d s₀ s) (w : Fin n) (t : Fin m) (j : ℕ) :
    Inv d s₀ (s.setWorker w ((s.workers w).popSend t j)) := by
  rcases (s.workers w).popSend_cases t j with hnone | ⟨u, put, hmsg, hheld, hpop⟩
  · rw [hnone]
    exact hs.setWorker (hs.sound w) (hs.progress w) (fun _ => rfl) (.of_eq rfl rfl rfl rfl)
  · rw [hpop]
    exact hs.setWorker ((hs.sound w).popped hheld hmsg) ((hs.progress w).popped hmsg)
      (BarrierWorker.load_popped hheld hmsg) (.of_eq rfl rfl rfl rfl)

/-- The network thread goes on with requests that have left `pending_sends_`. -/
theorem Inv.setSends (hs : Inv d s₀ s)
    (hp : ∃ held active, p = { s.workers w with held, active } ∧
      ({ s.workers w with held, active } : BarrierWorker n m K V D).flying.Perm
        (s.workers w).flying) : Inv d s₀ (s.setWorker w p) := by
  obtain ⟨held, active, rfl, hperm⟩ := hp
  exact hs.setWorker ((hs.sound w).setSends hperm.subset) ((hs.progress w).setSends hperm.subset)
    (BarrierWorker.load_setSends hperm) (.of_eq rfl rfl rfl rfl)

/-- While something is under way no worker has been asked to apply. -/
theorem Inv.apply_idle (hs : Inv d s₀ s) (hflying : (s.workers w).flying ≠ []) (u : Fin n) :
    (s.workers u).apply = .idle := by
  cases hround : s.round with
  | start => exact (hs.counted.start hround u).2.1
  | flush => exact ((hs.counted.flush hround).1 u).1
  | apply => exact absurd ((hs.progress w).sent ((hs.counted.apply hround).1 w)).2 hflying
  | returned => exact absurd ((hs.progress w).sent (hs.counted.returned hround w).1).2 hflying

theorem step_deliver (hs : Inv d s₀ s) (w : Fin n) (j : Option ℕ) :
    Inv d s₀ (s.deliver w j) := by
  rw [deliver]
  split
  next => exact hs
  next u t put hmsg =>
    have hmem : (u, t, put) ∈ (s.workers w).flying :=
      (BarrierWorker.perm_flying_markArrived hmsg).symm.subset List.mem_cons_self
    have hidle := hs.apply_idle (List.ne_nil_of_mem hmem)
    have haddr := (hs.sound w).flying _ hmem
    have hput : ∀ t', ∀ kv ∈ BarrierWorker.readPairs d t' (.applying .network t put.kvData),
        (d t').owner ((d t').getShard kv.1) = u := by
      intro t' kv hkv
      by_cases ht : t = t'
      · subst ht
        rw [BarrierWorker.readPairs, if_pos rfl] at hkv
        rw [(haddr.pairs kv hkv).1]
        exact haddr.to_owner.symm
      · rw [BarrierWorker.readPairs_of_ne ht] at hkv
        exact absurd hkv List.not_mem_nil
    -- in between, the pairs of the message are nowhere
    let s₁ := s.setWorker w ((s.workers w).markArrived j)
    have hsound₁ : ∀ v, BarrierWorker.Sound d v (s₀.workers v) (s₁.workers v) :=
      forall_setWorker (fun v => BarrierWorker.Sound d v (s₀.workers v)) hs.sound
        ((hs.sound w).markArrived hmsg)
    have hprog₁ : ∀ v, (s₁.workers v).Progress d v :=
      forall_setWorker (BarrierWorker.Progress d) hs.progress ((hs.progress w).markArrived hmsg)
    obtain ⟨held, active, hmark⟩ := (s.workers w).markArrived_eq j
    have hresp : (s.workers w).Responds ((s.workers w).markArrived j) := by
      rw [hmark]
      exact .of_eq rfl rfl rfl rfl
    have hidle₁ : (s₁.workers u).apply = .idle :=
      forall_setWorker (p := (s.workers w).markArrived j) (fun _ p => p.apply = .idle) hidle
        (hresp.apply_idle (hidle w)).1 u
    refine ⟨?_, ?_, fun t' => ?_, ?_⟩
    · exact forall_setWorker (fun v => BarrierWorker.Sound d v (s₀.workers v)) hsound₁
        ((hsound₁ u).enqueue hput)
    · exact forall_setWorker (BarrierWorker.Progress d) hprog₁ ((hprog₁ u).enqueue hidle₁ w t put)
    · have hmarked := sum_update (BarrierWorker.load d t') s.workers w (b := 0)
        ((BarrierWorker.load_markArrived hmsg t').trans (add_zero _).symm)
      have hadd := sum_update (BarrierWorker.load d t') s₁.workers u (a := 0)
        ((add_zero _).trans (BarrierWorker.load_enqueue w t put t'))
      rw [add_zero] at hmarked hadd
      exact (hadd.trans hmarked).trans (hs.load t')
    · have hcounted₁ : s₁.Counted := hs.counted.setWorker hresp
      exact hcounted₁.setWorker (p := (s₁.workers u).enqueue w t put) (.of_eq rfl rfl rfl rfl)

/-- The master reads a reply of `w`. -/
theorem Inv.setReplies (hs : Inv d s₀ s) (a b c : ℕ)
    (hcounted : Counted
      { s.setWorker w { s.workers w with flushReplies := a, applyReplies := b } with
      count := c }) :
    Inv d s₀ { s.setWorker w { s.workers w with flushReplies := a, applyReplies := b } with
      count := c } := by
  have hw := hs.sound w
  have hprog := hs.progress w
  have hload : ∀ t,
      BarrierWorker.load d t { s.workers w with flushReplies := a, applyReplies := b } =
      (s.workers w).load d t := fun _ => rfl
  refine ⟨forall_setWorker (fun v => BarrierWorker.Sound d v (s₀.workers v)) hs.sound ?_,
    forall_setWorker (BarrierWorker.Progress d) hs.progress ?_,
    fun t => (sum_setWorker _ (hload t)).trans (hs.load t), hcounted⟩
  · exact ⟨hw.routed, hw.flying, hw.queued, hw.read, hw.applied, hw.state⟩
  · exact ⟨hprog.flushed, hprog.tested, hprog.sent, hprog.asked, hprog.network, hprog.replied⟩

theorem step_checkReplyQueue (hs : Inv d s₀ s) (w : Fin n) : Inv d s₀ (s.checkReplyQueue w) := by
  rw [checkReplyQueue]
  cases hround : s.round with
  | start | returned => exact hs
  | flush =>
    dsimp only
    split_ifs with hnone
    · exact hs
    · obtain ⟨hall, hcount⟩ := hs.counted.flush hround
      have hsum := sum_update BarrierWorker.flushOwed s.workers w
        (x := { s.workers w with flushReplies := (s.workers w).flushReplies - 1 }) (a := 1) (b := 0)
        (by simp only [BarrierWorker.flushOwed]; omega)
      refine hs.setReplies ((s.workers w).flushReplies - 1) (s.workers w).applyReplies (s.count - 1)
        ⟨fun h => ?_, fun _ => ⟨?_, ?_⟩, fun h => ?_, fun h => ?_⟩
      · cases hround.symm.trans h
      · exact forall_setWorker (fun _ p => p.apply = .idle ∧ p.applyReplies = 0) hall (hall w)
      · rw [add_zero, ← hcount] at hsum
        exact (Nat.eq_sub_of_add_eq hsum).symm
      · cases hround.symm.trans h
      · cases hround.symm.trans h
  | apply =>
    dsimp only
    split_ifs with hnone
    · exact hs
    · obtain ⟨hall, hcount⟩ := hs.counted.apply hround
      have hsum := sum_update BarrierWorker.applyOwed s.workers w
        (x := { s.workers w with applyReplies := (s.workers w).applyReplies - 1 }) (a := 1) (b := 0)
        (by simp only [BarrierWorker.applyOwed]; omega)
      refine hs.setReplies (s.workers w).flushReplies ((s.workers w).applyReplies - 1) (s.count - 1)
        ⟨fun h => ?_, fun h => ?_, fun _ => ⟨?_, ?_⟩, fun h => ?_⟩
      · cases hround.symm.trans h
      · cases hround.symm.trans h
      · exact forall_setWorker (fun _ p => p.flush = .replied) hall (hall w)
      · rw [add_zero, ← hcount] at hsum
        exact (Nat.eq_sub_of_add_eq hsum).symm
      · cases hround.symm.trans h

theorem step_advance (hs : Inv d s₀ s) : Inv d s₀ s.advance := by
  rw [advance]
  cases hround : s.round with
  | start =>
    have hall := hs.counted.start hround
    refine ⟨fun w => ?_, fun w => ?_, hs.load,
      ⟨nofun, fun _ => ⟨fun w => (hall w).2, ?_⟩, nofun, nofun⟩⟩
    · have hw := hs.sound w
      exact ⟨hw.routed, hw.flying, hw.queued, hw.read, hw.applied, hw.state⟩
    · have hprog := hs.progress w
      refine ⟨fun t i hpast => ?_, nofun, nofun, hprog.asked, hprog.network, hprog.replied⟩
      rcases hpast with hlt | ⟨-, hlt⟩
      · exact absurd hlt (Nat.not_lt_zero _)
      · exact absurd hlt (Nat.not_lt_zero _)
    · simp [BarrierWorker.flushOwed, hall]
  | flush =>
    obtain ⟨hall, hcount⟩ := hs.counted.flush hround
    dsimp only
    split_ifs with hzero
    · have hreplied : ∀ w, (s.workers w).flush = .replied := by
        intro w
        have howed := (Finset.sum_eq_zero_iff.mp (hcount.symm.trans hzero)) w (Finset.mem_univ w)
        by_contra hne
        simp [BarrierWorker.flushOwed, hne] at howed
      refine ⟨fun w => ?_, fun w => ?_, hs.load, ⟨nofun, nofun, fun _ => ⟨hreplied, ?_⟩, nofun⟩⟩
      · have hw := hs.sound w
        exact ⟨hw.routed, hw.flying, hw.queued, hw.read, hw.applied, hw.state⟩
      · have hprog := hs.progress w
        exact ⟨hprog.flushed, hprog.tested, hprog.sent, fun _ => rfl, hprog.network, nofun⟩
      · simp [BarrierWorker.applyOwed, hall]
    · exact hs
  | apply =>
    obtain ⟨hall, hcount⟩ := hs.counted.apply hround
    dsimp only
    split_ifs with hzero
    · refine ⟨hs.sound, hs.progress, hs.load, ⟨nofun, nofun, nofun, fun _ w => ⟨hall w, ?_⟩⟩⟩
      have howed := (Finset.sum_eq_zero_iff.mp (hcount.symm.trans hzero)) w (Finset.mem_univ w)
      by_contra hne
      simp [BarrierWorker.applyOwed, hne] at howed
    · exact hs
  | returned => exact hs

omit [∀ t, DecidableEq (K t)] in
/-- Where `active()` finds both sizes zero and returns `false`, the requests that the network thread
has taken off `pending_sends_` have arrived: it holds none of them, and none of them has been
inserted into `active_sends_` after the size of that had been read. -/
def ReadsTruly (s : Barrier n m K V D) : Action n m → Prop
  | .readSize w c => ∀ c', (s.workers w).flush = .tested c' 0 → c ≠ c' →
      (s.workers w).sizeOf c = 0 → (s.workers w).flying = []
  | _ => True

instance (s : Barrier n m K V D) : ∀ act : Action n m, Decidable (s.ReadsTruly act)
  | .readSize w c => inferInstanceAs (Decidable (∀ c', (s.workers w).flush = .tested c' 0 →
      c ≠ c' → (s.workers w).sizeOf c = 0 → (s.workers w).flying = []))
  | .advance | .checkReplyQueue _ | .popSend _ _ _ | .insertActive _ | .collectActive _ _
  | .deliver _ _ | .handleFlush _ | .checkNetwork _ | .handleApply _ =>
    inferInstanceAs (Decidable True)

theorem step_inv (act : Action n m) (hs : Inv d s₀ s) (htruly : s.ReadsTruly act)
    (hstep : step d act s = .ok s') : Inv d s₀ s' := by
  cases act with
  | advance =>
    obtain rfl := Except.ok.inj hstep
    exact step_advance hs
  | checkReplyQueue w =>
    obtain rfl := Except.ok.inj hstep
    exact step_checkReplyQueue hs w
  | popSend w t j =>
    obtain rfl := Except.ok.inj hstep
    exact step_popSend hs w t j
  | insertActive w =>
    obtain rfl := Except.ok.inj hstep
    exact hs.setSends (s.workers w).exists_sends_insertActive
  | collectActive w j =>
    obtain rfl := Except.ok.inj hstep
    exact hs.setSends ((s.workers w).exists_sends_collectActive j)
  | deliver w j =>
    obtain rfl := Except.ok.inj hstep
    exact step_deliver hs w j
  | handleFlush w => exact step_handleFlush hs hstep
  | readSize w c =>
    obtain rfl := Except.ok.inj hstep
    exact step_readSize hs w c htruly
  | checkNetwork w => exact step_checkNetwork hs hstep
  | handleApply w => exact step_handleApply hs hstep

theorem run_inv (hready : Ready d s₀) {acts : List (Action n m)}
    (htruly : GuardedEach (step d) ReadsTruly s₀ acts) (hrun : run d acts s₀ = .ok s) :
    Inv d s₀ s :=
  htruly.invariant (I := Inv d s₀) (fun act _ _ hs htruly hstep => step_inv act hs htruly hstep)
    hready.inv hrun

/-- A worker that has replied twice has nothing pending. -/
theorem Inv.pending_eq_zero (hs : Inv d s₀ s) (hround : s.round = .returned) (w : Fin n)
    (t : Fin m) :
    (s.workers w).pending d t = 0 := by
  obtain ⟨hflush, happly⟩ := hs.counted.returned hround w
  have hprog := hs.progress w
  have hbuf : ((s.workers w).tables t).buffered (d t) = 0 := by
    refine ((hs.sound w).routed t).buffered_eq_zero fun i => hprog.flushed t i ?_
    rw [hflush]
    trivial
  obtain ⟨hqueue, hreader⟩ := hprog.replied happly
  have hread : BarrierWorker.readPairs d t (s.workers w).reader = [] := by
    cases hr : (s.workers w).reader with
    | unlocked | scanning => rfl
    | applying thread t' rest => exact absurd hr (hreader thread t' rest)
  obtain ⟨hsent, hflying⟩ := hprog.sent hflush
  simp [BarrierWorker.pending, hbuf, hsent t, hflying, hqueue, hread, GlobalTable.pairsIn,
    BarrierWorker.queuedPairs]

variable (d) in
/-- What the barrier, begun in `s₀`, is to bring about. -/
structure Drained (s₀ s : Barrier n m K V D) : Prop where
  /-- The buffers of all workers are empty. -/
  empty : ∀ w t i, i < (d t).numShards → (d t).owner i ≠ w →
    ∃ buffer, ((s.workers w).tables t).partitions i = .delta buffer ∧ buffer.empty = true
  /-- No put request is under way, in a queue or being applied. -/
  none_left : ∀ w, (∀ t, ((s.workers w).tables t).sent = []) ∧ (s.workers w).flying = [] ∧
    (∀ u, (s.workers w).queue u = []) ∧
      ∀ thread t rest, (s.workers w).reader ≠ .applying thread t rest
  /-- The pairs that were pending before the barrier have been applied once each. -/
  once : ∀ t, ∑ w, ((s.workers w).applied t : Multiset (K t × V t)) =
    ∑ w, (s₀.workers w).pending d t
  /-- They have been applied at the owners of their shards. -/
  at_owner : ∀ w t, ∀ kv ∈ (s.workers w).applied t, (d t).owner ((d t).getShard kv.1) = w
  /-- The state table of a shard is the one before the barrier with these pairs accumulated. -/
  state : ∀ w t i st₀, (d t).owner i = w → ((s₀.workers w).tables t).partitions i = .state st₀ →
    ∃ st, ((s.workers w).tables t).partitions i = .state st ∧
      forEach (fun kv => StateTable.accumulateF1 (d t).hash (d t).kern kv.1 kv.2)
        (((s.workers w).applied t).filter fun kv => (d t).getShard kv.1 = i) st₀ = .ok st

/-- The load is preserved, all of it is pending at the start, and all applied at the end. -/
theorem Inv.applied_eq (hs : Inv d s₀ s) (hready : Ready d s₀) (hround : s.round = .returned)
    (t : Fin m) : ∑ w, ((s.workers w).applied t : Multiset (K t × V t)) =
      ∑ w, (s₀.workers w).pending d t := by
  have hload := hs.load t
  have hafter : ∀ w, (s.workers w).load d t = ↑((s.workers w).applied t) := by
    intro w
    rw [BarrierWorker.load, hs.pending_eq_zero hround, zero_add]
  have hbefore : ∀ w, (s₀.workers w).load d t = (s₀.workers w).pending d t := by
    intro w
    rw [BarrierWorker.load, hready.applied, Multiset.coe_nil, add_zero]
  simpa only [hafter, hbefore] using hload

/-- **The barrier drains all updates** in every run in which `Flush` stops waiting only when what
the network thread has taken off `pending_sends_` has arrived, whatever the order of the steps of
master, network and workers. -/
theorem barrier_drains_updates (hready : Ready d s₀) {acts : List (Action n m)}
    (htruly : GuardedEach (step d) ReadsTruly s₀ acts) (hrun : run d acts s₀ = .ok s)
    (hround : s.round = .returned) : Drained d s₀ s := by
  have hs := run_inv hready htruly hrun
  have hreplied := hs.counted.returned hround
  refine ⟨fun w t i hi hown => ?_, fun w => ?_, hs.applied_eq hready hround,
    fun w => (hs.sound w).applied, fun w => (hs.sound w).state⟩
  · have hempty : (((s.workers w).tables t).partitions i).empty = true := by
      refine (hs.progress w).flushed t i ?_ hi hown
      rw [(hreplied w).1]
      trivial
    obtain ⟨buffer, -, hpart, -⟩ := ((hs.sound w).routed t).delta i hi hown
    rw [hpart] at hempty
    exact ⟨buffer, hpart, hempty⟩
  · obtain ⟨hsent, hflying⟩ := (hs.progress w).sent (hreplied w).1
    exact ⟨hsent, hflying, (hs.progress w).replied (hreplied w).2⟩

/-! ### After a propagation -/

section Cluster

variable {K V D : Type*} [DecidableEq K] [AddCommMonoid V] {d : TableDescriptor (Fin n) K V D}
  {vertices targets : Set K}

/-- The kernels of a propagation have finished. -/
def ofCluster (s : Cluster (Fin n) K V D) : Barrier n 1 (fun _ => K) (fun _ => V) fun _ => D where
  round := .start
  count := 0
  workers w :=
    { tables := fun _ => (s.kernels w).table
      held := none
      active := []
      queue := fun _ => []
      reader := .unlocked
      flush := .idle
      apply := .idle
      flushReplies := 0
      applyReplies := 0
      applied := fun _ => [] }

omit [AddCommMonoid V] in
theorem ready_ofCluster {s : Cluster (Fin n) K V D}
    (hsound : ∀ w, Cluster.Sound d vertices targets w (s.kernels w)) :
    Ready (fun _ => d) (ofCluster s) where
  round := rfl
  routed w _ := by
    have hrouted := (hsound w).wellFormed.routed
    rw [(hsound w).id_eq] at hrouted
    exact hrouted
  flying _ _ hx := absurd hx List.not_mem_nil
  queued _ _ _ _ hkv := absurd hkv List.not_mem_nil
  read _ _ _ hkv := absurd hkv List.not_mem_nil
  main _ := nofun
  applied _ _ := rfl
  flush _ := ⟨rfl, rfl⟩
  apply _ := ⟨rfl, rfl⟩

end Cluster

/-- Two workers of which `w` has a pair for the other in its buffer. -/
def bufferedPair (w : Fin 2) : Cluster (Fin 2) (Fin 2) ℕ Bytes :=
  ((Cluster.run (Cluster.pairDescriptor Cluster.bytesKernel 100) (fun _ => [1])
    [.absorb w w, .spread w] (Cluster.pairCluster Cluster.bytesKernel)).toOption).getD
      (Cluster.pairCluster Cluster.bytesKernel)

theorem ready_bufferedPair :
    Ready (fun _ => Cluster.pairDescriptor Cluster.bytesKernel 100)
    (ofCluster (bufferedPair 0)) := by
  have hkern : Cluster.bytesKernel.Additive := ⟨fun _ _ => rfl, rfl⟩
  have hkeeps : Cluster.bytesKernel.KeepsDelta := fun _ _ _ _ => rfl
  have hinit : Cluster.Inv (Cluster.pairDescriptor Cluster.bytesKernel 100) (fun _ => [1]) Set.univ
      Set.univ (Cluster.pairCluster Cluster.bytesKernel)
        (Cluster.pairCluster Cluster.bytesKernel) :=
    (Cluster.initial_pairCluster Cluster.bytesKernel 100).inv
  obtain ⟨c, hc, hinv⟩ := (Cluster.run_inv hkern hkeeps hinit [.absorb 0 0, .spread 0]
    fun _ _ _ _ _ _ => Set.mem_univ _).exists_ok fun h => h fun _ hk => hk
  rw [bufferedPair, hc]
  exact ready_ofCluster hinv.sound

/-- A schedule of both round trips, in which worker `u` has sent what `sends` does with its network
thread before worker `v` looks for put requests in `k` steps. -/
def bothTrips (u v : Fin n) (sends : List (Action n m)) (k : ℕ) : List (Action n m) :=
  List.flatten [[.advance], List.replicate 4 (.handleFlush u), sends,
    List.replicate 4 (.handleFlush v), [.readSize v .pending, .readSize v .active],
    [.checkReplyQueue u, .checkReplyQueue v, .advance], List.replicate 4 (.handleApply u),
    List.replicate k (.handleApply v), [.checkReplyQueue u, .checkReplyQueue v, .advance]]

/-- The request of worker `u` is sent and arrives, and `Flush` looks before and after that. -/
def sendAndFlush (u : Fin n) (t : Fin m) : List (Action n m) :=
  [.popSend u t 0, .insertActive u, .readSize u .active, .readSize u .pending, .deliver u (some 0),
    .collectActive u 0, .readSize u .active, .readSize u .pending]

theorem barrier_drains_buffered_pair :
    ∃ s, run (fun _ => Cluster.pairDescriptor Cluster.bytesKernel 100)
        (bothTrips 0 1 (sendAndFlush 0 0) 7) (ofCluster (bufferedPair 0)) = .ok s ∧
      s.round = .returned ∧
      Drained (fun _ => Cluster.pairDescriptor Cluster.bytesKernel 100) (ofCluster (bufferedPair 0))
        s := by
  have htruly : GuardedEach
      (step fun _ => Cluster.pairDescriptor Cluster.bytesKernel 100) ReadsTruly
      (ofCluster (bufferedPair 0)) (bothTrips 0 1 (sendAndFlush 0 0) 7) := by
    decide +kernel
  have hreturns : (run (fun _ => Cluster.pairDescriptor Cluster.bytesKernel 100)
      (bothTrips 0 1 (sendAndFlush 0 0) 7) (ofCluster (bufferedPair 0))).toOption.map
        (fun s => s.round) = some .returned := by
    decide +kernel
  cases hrun : run (fun _ => Cluster.pairDescriptor Cluster.bytesKernel 100)
      (bothTrips 0 1 (sendAndFlush 0 0) 7) (ofCluster (bufferedPair 0)) with
  | error e =>
    rw [hrun] at hreturns
    cases hreturns
  | ok s =>
    rw [hrun] at hreturns
    have hround : s.round = .returned := Option.some.inj hreturns
    exact ⟨s, rfl, hround, barrier_drains_updates ready_bufferedPair htruly hrun hround⟩

/-- `Flush` looks while the network thread holds the request, finds both containers empty, and the
barrier returns with the request still to be sent. -/
theorem barrier_misses_held_request :
    ∃ s, Ready (fun _ => Cluster.pairDescriptor Cluster.bytesKernel 100)
        (ofCluster (bufferedPair 0)) ∧
      run (fun _ => Cluster.pairDescriptor Cluster.bytesKernel 100)
        (bothTrips 0 1 [.popSend 0 0 0, .readSize 0 .active, .readSize 0 .pending] 4)
          (ofCluster (bufferedPair 0)) = .ok s ∧
      s.round = .returned ∧
      ¬ Drained (fun _ => Cluster.pairDescriptor Cluster.bytesKernel 100)
        (ofCluster (bufferedPair 0)) s := by
  have hreturns : (run (fun _ => Cluster.pairDescriptor Cluster.bytesKernel 100)
      (bothTrips 0 1 [.popSend 0 0 0, .readSize 0 .active, .readSize 0 .pending] 4)
        (ofCluster (bufferedPair 0))).toOption.map
          (fun s => (s.round, (s.workers 0).flying.length)) = some (.returned, 1) := by
    decide +kernel
  cases hrun : run (fun _ => Cluster.pairDescriptor Cluster.bytesKernel 100)
      (bothTrips 0 1 [.popSend 0 0 0, .readSize 0 .active, .readSize 0 .pending] 4)
        (ofCluster (bufferedPair 0)) with
  | error e =>
    rw [hrun] at hreturns
    cases hreturns
  | ok s =>
    rw [hrun] at hreturns
    obtain ⟨hround, hheld⟩ := Prod.mk.inj (Option.some.inj hreturns)
    refine ⟨s, ready_bufferedPair, rfl, hround, fun hdrained => ?_⟩
    rw [(hdrained.none_left 0).2.1] at hheld
    cases hheld

end Barrier

end MaiterStore
