/-
# A worker's view of a partitioned table

`TypedGlobalTable` (`kernel/global-table.h`) keeps one partition for every shard: the
state table of a shard that the worker owns, and a delta table that buffers the updates
for a shard of another worker. `accumulateF1` goes to either of them, and once more
than `bufmsg` remote updates have been made, `SendUpdates` sends every buffer to its
owner and empties it. `ApplyUpdates` accumulates the pairs of a message.

What a worker keeps for a key, in the partition of its shard or in a message it has just
sent, changes by exactly what is accumulated, whichever way the update takes.

The delta tables are taken without the limits of the type `int`: none of them grows to
`2 ^ 30` buckets.
-/

import MaiterStore.CS.DeltaIteration
import MaiterStore.Kernel.DeltaTable
import MaiterStore.Kernel.StateTable

namespace MaiterStore

open CS.LinearProbing CS.Run CS.DeltaIteration

/-- A partition, as the two factories create it. -/
inductive Partition (K V D : Type*)
  | state (t : StateTable K V D)
  | delta (t : DeltaTable K V)
  deriving DecidableEq, Repr

/-- `empty()`. -/
def Partition.empty {K V D : Type*} : Partition K V D → Bool
  | .state t => t.empty
  | .delta t => t.empty

/-- What is known of a table on every worker, with the owner of each shard and the flag
`bufmsg`. The sharder returns a shard of the table. -/
structure TableDescriptor (ι K V D : Type*) where
  numShards : ℕ
  getShard : K → ℕ
  getShard_lt : ∀ k, getShard k < numShards
  owner : ℕ → ι
  hash : K → ℕ
  kern : IterateKernel K V D
  marshals : Marshals K V D
  bufmsg : ℕ

/-- A put request. -/
structure KVPairData (ι : Type*) where
  source : ι
  shard : ℕ
  epoch : ℕ
  done : Bool
  kvData : KVData
  deriving DecidableEq, Repr

/-- The table on one worker. `id` and `epoch` are those of its helper, and `sent` holds
the messages passed to the network and not yet delivered, with their destination. -/
structure GlobalTable (ι K V D : Type*) where
  id : ι
  epoch : ℕ
  partitions : ℕ → Partition K V D
  dirty : ℕ → Bool
  pendingWrites : ℕ
  sent : List (ι × KVPairData ι)

namespace GlobalTable

variable {ι K V D : Type*} [DecidableEq ι] [DecidableEq K]

def setPartition (g : GlobalTable ι K V D) (i : ℕ) (part : Partition K V D) :
    GlobalTable ι K V D :=
  { g with partitions := Function.update g.partitions i part }

omit [DecidableEq ι] [DecidableEq K] in
theorem setPartition_self (g : GlobalTable ι K V D) (i : ℕ) (part : Partition K V D) :
    (g.setPartition i part).partitions i = part :=
  Function.update_self ..

omit [DecidableEq ι] [DecidableEq K] in
theorem setPartition_of_ne (g : GlobalTable ι K V D) {i j : ℕ} (hji : j ≠ i)
    (part : Partition K V D) : (g.setPartition i part).partitions j = g.partitions j :=
  Function.update_of_ne hji ..

variable (d : TableDescriptor ι K V D)

/-- `is_local_shard(shard)`. -/
def isLocalShard (g : GlobalTable ι K V D) (i : ℕ) : Bool := d.owner i = g.id

/-- A call on `partition(i)`, which is a null pointer for a delta table. -/
def onState (i : ℕ) (call : StateTable K V D → Outcome K (StateTable K V D))
    (g : GlobalTable ι K V D) : Except (Fault K) (GlobalTable ι K V D) :=
  match g.partitions i with
  | .delta _ => .error .nullPointer
  | .state t =>
    match call t with
    | .error e => .error e.1
    | .ok t' => .ok (g.setPartition i (.state t'))

/-- A call on `deltaT(i)`, which is a null pointer for a state table. -/
def onDelta (i : ℕ) (call : DeltaTable K V → Outcome K (DeltaTable K V))
    (g : GlobalTable ι K V D) : Except (Fault K) (GlobalTable ι K V D) :=
  match g.partitions i with
  | .state _ => .error .nullPointer
  | .delta t =>
    match call t with
    | .error e => .error e.1
    | .ok t' => .ok (g.setPartition i (.delta t'))

/-- The `do ... while(!t->empty())` of `SendUpdates`. -/
def sendLoop (i : ℕ) : ℕ → DeltaTable K V → GlobalTable ι K V D →
    Except (Fault K) (DeltaTable K V × GlobalTable ι K V D)
  | 0, _, _ => .error .fuel
  | rounds + 1, t, g =>
    (t.serializeToNet d.marshals).bind fun kvData =>
      match DeltaTable.reset d.hash .unbounded recursionDepth with
      | .error e => .error e.1
      | .ok t' =>
        -- the epoch is the one in which the buffer is sent
        let g' := { g with sent := g.sent ++ [(d.owner i, ⟨g.id, i, g.epoch, true, kvData⟩)] }
        if t'.empty then .ok (t', g') else sendLoop i rounds t' g'

/-- The body of the loop of `SendUpdates` over the shards. The serializer of a state table
calls a null helper. -/
def sendShard (i : ℕ) (g : GlobalTable ι K V D) : Except (Fault K) (GlobalTable ι K V D) :=
  if !isLocalShard d g i && (g.dirty i || !(g.partitions i).empty) then
    match g.partitions i with
    | .state _ => .error .nullPointer
    | .delta t => (sendLoop d i 1 t g).bind fun r => .ok (r.2.setPartition i (.delta r.1.clear))
  else .ok g

/-- `SendUpdates()`. -/
def sendUpdates (g : GlobalTable ι K V D) : Except (Fault K) (GlobalTable ι K V D) :=
  (forEach (sendShard d) (List.range d.numShards) g).bind fun g' =>
    .ok { g' with pendingWrites := 0 }

/-- `accumulateF1(k, v)`. -/
def accumulateF1 (k : K) (v : V) (g : GlobalTable ι K V D) :
    Except (Fault K) (GlobalTable ι K V D) :=
  if isLocalShard d g (d.getShard k) then
    onState (d.getShard k) (StateTable.accumulateF1 d.hash d.kern k v) g
  else
    (onDelta (d.getShard k)
      (DeltaTable.accumulate d.hash .unbounded d.kern recursionDepth k v) g).bind fun g' =>
        let g'' := { g' with pendingWrites := g'.pendingWrites + 1 }
        -- `BufSend`
        if d.bufmsg < g''.pendingWrites then sendUpdates d g'' else .ok g''

/-- `accumulateF2(k, v)`. -/
def accumulateF2 (k : K) (v : V) (g : GlobalTable ι K V D) :
    Except (Fault K) (GlobalTable ι K V D) :=
  if isLocalShard d g (d.getShard k) then
    onState (d.getShard k) (StateTable.accumulateF2 d.hash d.kern k v) g
  else .ok g

/-- `updateF1(k, v)`, up to the periodic `HandlePutRequests`. -/
def updateF1 (k : K) (v : V) (g : GlobalTable ι K V D) :
    Except (Fault K) (GlobalTable ι K V D) :=
  if isLocalShard d g (d.getShard k) then
    onState (d.getShard k) (StateTable.updateF1 d.hash d.kern k v) g
  else onDelta (d.getShard k) (DeltaTable.update d.hash k v) g

/-- `contains(k)`. -/
def contains (k : K) (g : GlobalTable ι K V D) : Bool :=
  isLocalShard d g (d.getShard k) &&
    match g.partitions (d.getShard k) with
    | .state t => t.contains d.hash k
    | .delta _ => false

/-- `ApplyUpdates(req)`. -/
def applyUpdates (req : KVPairData ι) (g : GlobalTable ι K V D) :
    Except (Fault K) (GlobalTable ι K V D) :=
  forEach (fun kv => accumulateF1 d kv.1 kv.2) (d.marshals.decode req.kvData) g

end GlobalTable

/-! ## What a worker keeps for a key -/

/-- `accumulate` and `default_v` are the sum and the zero of a commutative monoid. -/
structure IterateKernel.Additive {K V D : Type*} [AddCommMonoid V] (kern : IterateKernel K V D) :
    Prop where
  accumulate_eq : ∀ a b, kern.accumulate a b = a + b
  defaultV_eq : kern.defaultV = 0

section Partition

variable {K V D : Type*} [DecidableEq K] [Zero V]

/-- The pending delta of `k` in a partition: `F1` of a state table, the entry of a buffer. -/
def Partition.f1 (hash : K → ℕ) (k : K) : Partition K V D → V
  | .state t => ((t.getF1 hash k).toOption).getD 0
  | .delta t => ((t.get hash k).toOption).getD 0

/-- The value of `k` in a partition. -/
def Partition.f2 (hash : K → ℕ) (k : K) : Partition K V D → V
  | .state t => ((t.getF2 hash k).toOption).getD 0
  | .delta _ => 0

end Partition

namespace GlobalTable

variable {ι K V D : Type*} [DecidableEq K] [AddCommMonoid V] (d : TableDescriptor ι K V D)

/-- The pending delta of `k` on a worker, in the partition of its shard. -/
def f1 (g : GlobalTable ι K V D) (k : K) : V := (g.partitions (d.getShard k)).f1 d.hash k

/-- The value of `k` at its owner. -/
def f2 (g : GlobalTable ι K V D) (k : K) : V := (g.partitions (d.getShard k)).f2 d.hash k

/-- The pairs in messages. -/
def pairsIn (msgs : List (ι × KVPairData ι)) : List (K × V) :=
  msgs.flatMap fun msg => d.marshals.decode msg.2.kvData

/-- The pending delta of `k` on a worker, with what it has sent. -/
def held (g : GlobalTable ι K V D) (k : K) : V := g.f1 d k + tally (pairsIn d g.sent) k

/-- A message for a shard goes to its owner and has only targets in that shard. -/
structure Addressed (targets : Set K) (msg : ι × KVPairData ι) : Prop where
  to_owner : msg.1 = d.owner msg.2.shard
  shard_lt : msg.2.shard < d.numShards
  pairs : ∀ kv ∈ d.marshals.decode msg.2.kvData, d.getShard kv.1 = msg.2.shard ∧ kv.1 ∈ targets

/-- Owned shards are state tables with the vertices of the shard, the other shards are
delta tables with some targets of updates in the shard. A target that is not a vertex
makes the worker of its shard abort. -/
structure WellFormed (vertices targets : Set K) (g : GlobalTable ι K V D) : Prop where
  state : ∀ i < d.numShards, d.owner i = g.id → ∃ t m, g.partitions i = .state t ∧
    Represents d.hash StateTable.Bucket.k StateTable.Bucket.fields t.buckets m ∧
    ∀ k, d.getShard k = i → (k ∈ m ↔ k ∈ vertices)
  delta : ∀ i < d.numShards, d.owner i ≠ g.id → ∃ t m, g.partitions i = .delta t ∧
    DeltaTable.Refines d.hash t m ∧ ∀ k ∈ m, d.getShard k = i ∧ k ∈ targets
  sent : ∀ msg ∈ g.sent, Addressed d targets msg

/-- A call that keeps the values and adds `pairs` to what is pending. What it sends has the
epoch of the worker. -/
structure Adds (vertices targets : Set K) (g g' : GlobalTable ι K V D) (pairs : List (K × V)) :
    Prop where
  wellFormed : WellFormed d vertices targets g'
  id_eq : g'.id = g.id
  epoch_eq : g'.epoch = g.epoch
  f2_eq : ∀ k, g'.f2 d k = g.f2 d k
  held_eq : ∀ k, g'.held d k = g.held d k + tally pairs k
  sent_eq : ∃ new, g'.sent = g.sent ++ new ∧ ∀ msg ∈ new, msg.2.epoch = g.epoch

variable {d} {vertices targets : Set K} {g g₁ g₂ : GlobalTable ι K V D} {k : K} {v : V} {i : ℕ}

theorem Adds.trans {pairs pairs' : List (K × V)} (h : Adds d vertices targets g g₁ pairs)
    (h' : Adds d vertices targets g₁ g₂ pairs') :
    Adds d vertices targets g g₂ (pairs ++ pairs') where
  wellFormed := h'.wellFormed
  id_eq := h'.id_eq.trans h.id_eq
  epoch_eq := h'.epoch_eq.trans h.epoch_eq
  f2_eq k := (h'.f2_eq k).trans (h.f2_eq k)
  held_eq k := by rw [h'.held_eq, h.held_eq, tally_append, add_assoc]
  sent_eq := by
    obtain ⟨new, hsent, hnew⟩ := h.sent_eq
    obtain ⟨new', hsent', hnew'⟩ := h'.sent_eq
    refine ⟨new ++ new', by rw [hsent', hsent, List.append_assoc], fun msg hmsg => ?_⟩
    rcases List.mem_append.mp hmsg with hold | hlast
    · exact hnew msg hold
    · rw [hnew' msg hlast, h.epoch_eq]

theorem Adds.refl (hwf : WellFormed d vertices targets g) : Adds d vertices targets g g [] :=
  ⟨hwf, rfl, rfl, fun _ => rfl, fun _ => by simp, [], by simp, nofun⟩

/-! ### The values of a partition -/

theorem f1_of_state {t : StateTable K V D} {m : Finmap fun _ : K => V × V × D}
    (hpart : g.partitions (d.getShard k) = .state t)
    (hrep : Represents d.hash StateTable.Bucket.k StateTable.Bucket.fields t.buckets m) :
    g.f1 d k = ((m.lookup k).map fun r => r.1).getD 0 := by
  have hread := StateTable.read_of_represents (k := k) hrep fun r => r.1
  simp only [f1, hpart, Partition.f1]
  rw [show t.getF1 d.hash k = _ from hread]
  cases m.lookup k <;> rfl

theorem f2_of_state {t : StateTable K V D} {m : Finmap fun _ : K => V × V × D}
    (hpart : g.partitions (d.getShard k) = .state t)
    (hrep : Represents d.hash StateTable.Bucket.k StateTable.Bucket.fields t.buckets m) :
    g.f2 d k = ((m.lookup k).map fun r => r.2.1).getD 0 := by
  have hread := StateTable.read_of_represents (k := k) hrep fun r => r.2.1
  simp only [f2, hpart, Partition.f2]
  rw [show t.getF2 d.hash k = _ from hread]
  cases m.lookup k <;> rfl

theorem f1_of_delta {t : DeltaTable K V} {m : Finmap fun _ : K => V}
    (hpart : g.partitions (d.getShard k) = .delta t) (href : DeltaTable.Refines d.hash t m) :
    g.f1 d k = (m.lookup k).getD 0 := by
  simp only [f1, hpart, Partition.f1]
  rw [href.get_eq]
  cases m.lookup k <;> rfl

theorem f2_of_delta {t : DeltaTable K V} (hpart : g.partitions (d.getShard k) = .delta t) :
    g.f2 d k = 0 := by
  simp only [f2, hpart, Partition.f2]

theorem f1_setPartition_of_ne {part : Partition K V D} (hk : d.getShard k ≠ i) :
    (g.setPartition i part).f1 d k = g.f1 d k := by
  simp only [f1, setPartition_of_ne g hk]

theorem f2_setPartition_of_ne {part : Partition K V D} (hk : d.getShard k ≠ i) :
    (g.setPartition i part).f2 d k = g.f2 d k := by
  simp only [f2, setPartition_of_ne g hk]

/-! ### Writing to one partition -/

omit [AddCommMonoid V] in
theorem WellFormed.setState (hwf : WellFormed d vertices targets g) {t : StateTable K V D}
    {m : Finmap fun _ : K => V × V × D} (hlocal : d.owner i = g.id)
    (hrep : Represents d.hash StateTable.Bucket.k StateTable.Bucket.fields t.buckets m)
    (hmem : ∀ k, d.getShard k = i → (k ∈ m ↔ k ∈ vertices)) :
    WellFormed d vertices targets (g.setPartition i (.state t)) where
  state j hj hown := by
    by_cases hji : j = i
    · subst hji
      exact ⟨t, m, setPartition_self .., hrep, hmem⟩
    · obtain ⟨t', m', hpart, h⟩ := hwf.state j hj hown
      exact ⟨t', m', by rw [setPartition_of_ne g hji, hpart], h⟩
  delta j hj hown := by
    have hji : j ≠ i := fun heq => hown (heq ▸ hlocal)
    obtain ⟨t', m', hpart, h⟩ := hwf.delta j hj hown
    exact ⟨t', m', by rw [setPartition_of_ne g hji, hpart], h⟩
  sent := hwf.sent

omit [AddCommMonoid V] in
theorem WellFormed.setDelta (hwf : WellFormed d vertices targets g) {t : DeltaTable K V}
    {m : Finmap fun _ : K => V} (hremote : d.owner i ≠ g.id) (href : DeltaTable.Refines d.hash t m)
    (hmem : ∀ k ∈ m, d.getShard k = i ∧ k ∈ targets) :
    WellFormed d vertices targets (g.setPartition i (.delta t)) where
  state j hj hown := by
    have hji : j ≠ i := fun heq => hremote (heq ▸ hown)
    obtain ⟨t', m', hpart, h⟩ := hwf.state j hj hown
    exact ⟨t', m', by rw [setPartition_of_ne g hji, hpart], h⟩
  delta j hj hown := by
    by_cases hji : j = i
    · subst hji
      exact ⟨t, m, setPartition_self .., href, hmem⟩
    · obtain ⟨t', m', hpart, h⟩ := hwf.delta j hj hown
      exact ⟨t', m', by rw [setPartition_of_ne g hji, hpart], h⟩
  sent := hwf.sent

/-- A call that replaces the record `r` of `k` by `r'`. -/
structure Writes (d : TableDescriptor ι K V D) (vertices targets : Set K) (k : K)
    (r r' : V × V × D) (g g' : GlobalTable ι K V D) : Prop where
  wellFormed : WellFormed d vertices targets g'
  id_eq : g'.id = g.id
  epoch_eq : g'.epoch = g.epoch
  sent_eq : g'.sent = g.sent
  f1_at : g.f1 d k = r.1
  f2_at : g.f2 d k = r.2.1
  f1_eq : ∀ j, g'.f1 d j = if k = j then r'.1 else g.f1 d j
  f2_eq : ∀ j, g'.f2 d j = if k = j then r'.2.1 else g.f2 d j

/-- A call on the state table of a vertex that acts on its record as `f`. -/
theorem onState_spec (call : StateTable K V D → Outcome K (StateTable K V D))
    {f : V × V × D → V × V × D} (hwf : WellFormed d vertices targets g) (hk : k ∈ vertices)
    (hlocal : d.owner (d.getShard k) = g.id)
    (hcall : ∀ (t : StateTable K V D) m r,
      Represents d.hash StateTable.Bucket.k StateTable.Bucket.fields t.buckets m →
      m.lookup k = some r → ∃ t', call t = .ok t' ∧
        Represents d.hash StateTable.Bucket.k StateTable.Bucket.fields t'.buckets
          (m.insert k (f r))) :
    ∃ g' r, onState (d.getShard k) call g = .ok g' ∧ Writes d vertices targets k r (f r) g g' := by
  -- the shard of `k` is local, so its partition is a state table, and it has `k`
  obtain ⟨t, m, hpart, hrep, hmem⟩ := hwf.state _ (d.getShard_lt k) hlocal
  obtain ⟨r, hr⟩ := Finmap.mem_iff.mp ((hmem k rfl).mpr hk)
  obtain ⟨t', hok, hrep'⟩ := hcall t m r hrep hr
  have hpart' : ∀ j, d.getShard j = d.getShard k →
      (g.setPartition (d.getShard k) (.state t')).partitions (d.getShard j) = .state t' := by
    intro j hj
    rw [hj, setPartition_self]
  refine ⟨g.setPartition (d.getShard k) (.state t'), r, by simp only [onState, hpart, hok],
    hwf.setState hlocal hrep' ?_, rfl, rfl, rfl, ?_, ?_, ?_, ?_⟩
  · intro j hj
    rw [Finmap.mem_insert, hmem j hj, or_iff_right_iff_imp]
    rintro rfl
    exact hk
  · rw [f1_of_state hpart hrep, hr]
    rfl
  · rw [f2_of_state hpart hrep, hr]
    rfl
  · intro j
    by_cases hj : d.getShard j = d.getShard k
    · rw [f1_of_state (hpart' j hj) hrep', f1_of_state (by rw [hj, hpart]) hrep]
      by_cases hjk : k = j
      · simp [hjk]
      · rw [Finmap.lookup_insert_of_ne _ (Ne.symm hjk), if_neg hjk]
    · rw [f1_setPartition_of_ne hj, if_neg fun heq : k = j => hj (heq ▸ rfl)]
  · intro j
    by_cases hj : d.getShard j = d.getShard k
    · rw [f2_of_state (hpart' j hj) hrep', f2_of_state (by rw [hj, hpart]) hrep]
      by_cases hjk : k = j
      · simp [hjk]
      · rw [Finmap.lookup_insert_of_ne _ (Ne.symm hjk), if_neg hjk]
    · rw [f2_setPartition_of_ne hj, if_neg fun heq : k = j => hj (heq ▸ rfl)]

/-- A call that keeps the value of `k` and adds `v` to its delta. -/
theorem Writes.adds {r r' : V × V × D} (h : Writes d vertices targets k r r' g g₁)
    (hdelta : r'.1 = r.1 + v) (hvalue : r'.2.1 = r.2.1) :
    Adds d vertices targets g g₁ [(k, v)] where
  wellFormed := h.wellFormed
  id_eq := h.id_eq
  epoch_eq := h.epoch_eq
  f2_eq j := by
    rw [h.f2_eq]
    split_ifs with hj
    · rw [← hj, h.f2_at, hvalue]
    · rfl
  held_eq j := by
    rw [held, held, h.f1_eq, h.sent_eq, tally_cons, tally_nil, add_zero]
    split_ifs with hj
    · rw [← hj, h.f1_at, hdelta, add_right_comm]
    · rw [add_zero]
  sent_eq := ⟨[], by rw [h.sent_eq, List.append_nil], nofun⟩

omit [AddCommMonoid V] in
/-- A worker contains the vertices of its shards. -/
theorem contains_iff [DecidableEq ι] (hwf : WellFormed d vertices targets g) :
    contains d k g = true ↔ d.owner (d.getShard k) = g.id ∧ k ∈ vertices := by
  rw [contains, Bool.and_eq_true, isLocalShard, decide_eq_true_iff]
  apply and_congr_right
  intro hlocal
  obtain ⟨t, m, hpart, hrep, hmem⟩ := hwf.state _ (d.getShard_lt k) hlocal
  simp only [hpart]
  rw [StateTable.contains, hrep.contains_eq, decide_eq_true_iff, hmem k rfl]

/-! ### Accumulating and sending -/

theorem onDelta_accumulate (hkern : d.kern.Additive) (hwf : WellFormed d vertices targets g)
    (hk : k ∈ targets) (hremote : d.owner (d.getShard k) ≠ g.id) (v : V) :
    ∃ g', onDelta (d.getShard k)
        (DeltaTable.accumulate d.hash .unbounded d.kern recursionDepth k v) g =
      .ok g' ∧ Adds d vertices targets g g' [(k, v)] := by
  obtain ⟨t, m, hpart, href, hmem⟩ := hwf.delta _ (d.getShard_lt k) hremote
  obtain ⟨t', hok, href'⟩ := DeltaTable.accumulate_refines d.kern 0 k v href
  have hpart' : ∀ j, d.getShard j = d.getShard k →
      (g.setPartition (d.getShard k) (.delta t')).partitions (d.getShard j) = .delta t' := by
    intro j hj
    rw [hj, setPartition_self]
  refine ⟨g.setPartition (d.getShard k) (.delta t'), ?_, ?_, rfl, rfl, ?_, ?_, [],
    (List.append_nil _).symm, nofun⟩
  · simp only [onDelta, hpart, recursionDepth, hok]
  · refine hwf.setDelta hremote href' fun j hj => ?_
    rcases Finmap.mem_insert.mp hj with rfl | hj
    · exact ⟨rfl, hk⟩
    · exact hmem j hj
  · intro j
    by_cases hj : d.getShard j = d.getShard k
    · rw [f2_of_delta (hpart' j hj), f2_of_delta (by rw [hj, hpart])]
    · exact f2_setPartition_of_ne hj
  -- the delta of `k` grows by `v`, or is `v` where the buffer had none
  · intro j
    have hf1 : (g.setPartition (d.getShard k) (.delta t')).f1 d j =
        g.f1 d j + if k = j then v else 0 := by
      by_cases hj : d.getShard j = d.getShard k
      · rw [f1_of_delta (hpart' j hj) href', f1_of_delta (by rw [hj, hpart]) href]
        by_cases hjk : k = j
        · subst hjk
          rw [Finmap.lookup_insert, if_pos rfl]
          cases m.lookup k with
          | none => simp
          | some a => simp [hkern.accumulate_eq]
        · rw [Finmap.lookup_insert_of_ne _ (Ne.symm hjk), if_neg hjk, add_zero]
      · rw [f1_setPartition_of_ne hj, if_neg fun heq : k = j => hj (heq ▸ rfl), add_zero]
    rw [held, held, hf1, tally_cons, tally_nil, add_zero, add_right_comm]
    rfl

/-- The sums over the entries of a buffer are the deltas it holds. -/
theorem tally_entries {t : DeltaTable K V} {m : Finmap fun _ : K => V}
    (href : DeltaTable.Refines d.hash t m) (k : K) :
    tally (t.buckets.reduceOption.map fun b => (b.k, b.v1)) k = (m.lookup k).getD 0 := by
  have hnodup : ((t.buckets.reduceOption.map fun b => (b.k, b.v1)).map Prod.fst).Nodup := by
    rw [List.map_map]
    exact href.represents.valid.nodup_keys
  rw [tally_of_nodup hnodup, ← href.represents.lookup_eq, lookup, List.find?_map, Option.map_map]
  rfl

omit [AddCommMonoid V] in
theorem mem_of_mem_entries {t : DeltaTable K V} {m : Finmap fun _ : K => V}
    (href : DeltaTable.Refines d.hash t m) {kv : K × V}
    (hkv : kv ∈ t.buckets.reduceOption.map fun b => (b.k, b.v1)) : kv.1 ∈ m := by
  obtain ⟨b, hb, rfl⟩ := List.mem_map.mp hkv
  obtain ⟨i, hi⟩ := mem_reduceOption_iff_cellAt.mp hb
  rw [← href.represents.lookup_isSome_iff, href.represents.valid.lookup_eq_some hi rfl]
  rfl

/-- The message that `SendUpdates` makes of the buffer `t` of shard `i`. -/
def putRequest (d : TableDescriptor ι K V D) (g : GlobalTable ι K V D) (i : ℕ)
    (t : DeltaTable K V) : ι × KVPairData ι :=
  (d.owner i, ⟨g.id, i, g.epoch, true, t.buckets.reduceOption.map fun b =>
    (d.marshals.kmarshal.marshal b.k, d.marshals.v1marshal.marshal b.v1)⟩)

omit [DecidableEq K] [AddCommMonoid V] in
theorem decode_putRequest (t : DeltaTable K V) :
    d.marshals.decode (putRequest d g i t).2.kvData =
      t.buckets.reduceOption.map fun b => (b.k, b.v1) :=
  DeltaTable.decode_serialized d.marshals _

/-- The table after shard `i` has been sent. -/
def flushed (d : TableDescriptor ι K V D) (g : GlobalTable ι K V D) (i : ℕ) (t : DeltaTable K V) :
    GlobalTable ι K V D :=
  { g with sent := g.sent ++ [putRequest d g i t] }.setPartition i (.delta (DeltaTable.cleared 1))

/-- Sending a buffer moves its entries to a message. -/
theorem adds_flushed (hwf : WellFormed d vertices targets g) (hi : i < d.numShards)
    (hremote : d.owner i ≠ g.id) {t : DeltaTable K V} {m : Finmap fun _ : K => V}
    (hpart : g.partitions i = .delta t) (href : DeltaTable.Refines d.hash t m)
    (hmem : ∀ k ∈ m, d.getShard k = i ∧ k ∈ targets) :
    Adds d vertices targets g (flushed d g i t) [] := by
  have hmsg : Addressed d targets (putRequest d g i t) := by
    refine ⟨rfl, hi, fun kv hkv => ?_⟩
    rw [decode_putRequest] at hkv
    exact hmem _ (mem_of_mem_entries href hkv)
  have hwf' : WellFormed d vertices targets { g with sent := g.sent ++ [putRequest d g i t] } := by
    refine ⟨hwf.state, hwf.delta, fun msg' hmsg' => ?_⟩
    rcases List.mem_append.mp hmsg' with hold | hnew
    · exact hwf.sent msg' hold
    · exact List.mem_singleton.mp hnew ▸ hmsg
  have hclear : DeltaTable.Refines d.hash (DeltaTable.cleared 1 : DeltaTable K V) ∅ :=
    DeltaTable.refines_cleared d.hash one_pos
  -- the entries of the buffer are now counted in the message
  have hsent : ∀ j, tally (pairsIn d (g.sent ++ [putRequest d g i t])) j =
      tally (pairsIn d g.sent) j + (m.lookup j).getD 0 := by
    intro j
    rw [pairsIn, List.flatMap_append, tally_append, ← tally_entries href]
    simp only [List.flatMap_cons, List.flatMap_nil, List.append_nil, decode_putRequest]
    rfl
  refine ⟨hwf'.setDelta hremote hclear fun j hj => absurd hj Finmap.notMem_empty, rfl, rfl, ?_, ?_,
    [putRequest d g i t], rfl, fun msg hmsg => List.mem_singleton.mp hmsg ▸ rfl⟩
  · intro j
    by_cases hj : d.getShard j = i
    · rw [flushed, f2_of_delta (by rw [hj, setPartition_self]), f2_of_delta (by rw [hj, hpart])]
    · exact f2_setPartition_of_ne hj
  · intro j
    rw [tally_nil, add_zero, held, held]
    by_cases hj : d.getShard j = i
    · rw [flushed, f1_of_delta (by rw [hj, setPartition_self]) hclear,
        f1_of_delta (by rw [hj, hpart]) href]
      change _ + tally (pairsIn d (g.sent ++ [putRequest d g i t])) j = _
      rw [hsent, Finmap.lookup_empty, Option.getD_none, zero_add, add_comm]
    · have hnone : m.lookup j = none := Finmap.lookup_eq_none.mpr fun hjm => hj (hmem j hjm).1
      rw [flushed, f1_setPartition_of_ne hj]
      change g.f1 d j + tally (pairsIn d (g.sent ++ [putRequest d g i t])) j = _
      rw [hsent, hnone, Option.getD_none, add_zero]

variable [DecidableEq ι]

omit [AddCommMonoid V] in
/-- A buffer that is dirty or not empty is sent. -/
theorem sendShard_of_delta {t : DeltaTable K V} (hpart : g.partitions i = .delta t)
    (hsends : (!isLocalShard d g i && (g.dirty i || !(g.partitions i).empty)) = true) :
    sendShard d i g = .ok (flushed d g i t) := by
  -- after `reset` the buffer is empty, so the `do ... while` has one round
  have hreset : DeltaTable.reset d.hash .unbounded recursionDepth =
      (.ok (DeltaTable.cleared 1) : Outcome K (DeltaTable K V)) := DeltaTable.reset_eq
  rw [sendShard, if_pos hsends]
  simp only [hpart, sendLoop, DeltaTable.serializeToNet_eq, hreset, Except.bind]
  rfl

/-- A buffer that is not empty is sent, and the others stay. -/
theorem sendShard_spec (hwf : WellFormed d vertices targets g) (hi : i < d.numShards) :
    ∃ g', sendShard d i g = .ok g' ∧ Adds d vertices targets g g' [] := by
  by_cases hsends : (!isLocalShard d g i && (g.dirty i || !(g.partitions i).empty)) = true
  · have hremote : d.owner i ≠ g.id := by
      intro hlocal
      simp [isLocalShard, hlocal] at hsends
    obtain ⟨t, m, hpart, href, hmem⟩ := hwf.delta i hi hremote
    exact ⟨flushed d g i t, sendShard_of_delta hpart hsends,
      adds_flushed hwf hi hremote hpart href hmem⟩
  · exact ⟨g, by simp only [sendShard, hsends, if_false, Bool.false_eq_true], Adds.refl hwf⟩

omit [DecidableEq ι] in
/-- A loop whose rounds add what `f` lists adds all of it. -/
theorem ends_forEach_adds {A : Type*} {stray : Prop} {body : A → GlobalTable ι K V D →
      Except (Fault K) (GlobalTable ι K V D)} (f : A → List (K × V)) (as : List A)
    (hbody : ∀ a ∈ as, ∀ g : GlobalTable ι K V D, WellFormed d vertices targets g →
      Ends stray (fun g' => Adds d vertices targets g g' (f a)) (body a g))
    (hwf : WellFormed d vertices targets g) :
    Ends stray (fun g' => Adds d vertices targets g g' (as.flatMap f)) (forEach body as g) := by
  -- what has been added so far is what `f` lists for the rounds done
  refine ends_forEach (I := fun done g' => Adds d vertices targets g g' (done.flatMap f)) as ?_
    (List.flatMap_nil (f := f) ▸ Adds.refl hwf)
  intro done a ha g' hadds
  have hround := hbody a ha g' hadds.wellFormed
  cases hok : body a g' with
  | error e => rwa [hok] at hround
  | ok g'' =>
    rw [hok] at hround
    have hall := hadds.trans hround
    rwa [← List.flatMap_singleton f a, ← List.flatMap_append] at hall

omit [DecidableEq ι] in
/-- The counter of pending writes bears on nothing else. -/
theorem Adds.setPendingWrites {pairs : List (K × V)} (h : Adds d vertices targets g g₁ pairs)
    (n : ℕ) : Adds d vertices targets g { g₁ with pendingWrites := n } pairs :=
  ⟨⟨h.wellFormed.state, h.wellFormed.delta, h.wellFormed.sent⟩, h.id_eq, h.epoch_eq, h.f2_eq,
    h.held_eq, h.sent_eq⟩

theorem sendUpdates_spec (hwf : WellFormed d vertices targets g) :
    ∃ g', sendUpdates d g = .ok g' ∧ Adds d vertices targets g g' [] := by
  have hshard : ∀ i ∈ List.range d.numShards, ∀ g, WellFormed d vertices targets g →
      Ends False (fun g' => Adds d vertices targets g g' []) (sendShard d i g) := by
    intro i hi g hwf
    obtain ⟨g', hok, hadds⟩ := sendShard_spec hwf (List.mem_range.mp hi)
    exact .of_ok hok hadds
  have hends := ends_forEach_adds (fun _ => []) (List.range d.numShards) hshard hwf
  obtain ⟨g', hok, hadds⟩ := hends.exists_ok not_false
  rw [List.flatMap_eq_nil_iff.mpr fun _ _ => rfl] at hadds
  exact ⟨{ g' with pendingWrites := 0 }, by rw [sendUpdates, hok]; rfl, hadds.setPendingWrites 0⟩

/-- `accumulateF1` adds its pair, in the state table, in a buffer or in a message. It
stops only for a target that is not a vertex. -/
theorem accumulateF1_spec (hkern : d.kern.Additive) (hwf : WellFormed d vertices targets g)
    (hk : k ∈ targets) (v : V) :
    Ends (¬ targets ⊆ vertices) (fun g' => Adds d vertices targets g g' [(k, v)])
      (accumulateF1 d k v g) := by
  by_cases hlocal : d.owner (d.getShard k) = g.id
  · have hshard : isLocalShard d g (d.getShard k) = true := decide_eq_true hlocal
    by_cases hvertex : k ∈ vertices
    · obtain ⟨g', r, hok, hwrites⟩ := onState_spec (StateTable.accumulateF1 d.hash d.kern k v)
        (f := fun r => (d.kern.accumulate r.1 v, r.2)) hwf hvertex hlocal
        fun t m r hrep hr => StateTable.accumulateF1_represents hrep hr d.kern v
      refine .of_ok (s := g') ?_ (hwrites.adds (hkern.accumulate_eq r.1 v) rfl)
      simp only [accumulateF1, hshard, if_true, hok]
    -- `accumulateF1` of the state table checks that the key is there
    · obtain ⟨t, m, hpart, hrep, hmem⟩ := hwf.state _ (d.getShard_lt k) hlocal
      have habort : StateTable.accumulateF1 d.hash d.kern k v t = .error (.noEntry k, t) :=
        StateTable.write_of_notMem hrep (mt (hmem k rfl).mp hvertex) _
      refine .of_error (e := .noEntry k) ?_ fun hsub => hvertex (hsub hk)
      simp only [accumulateF1, hshard, if_true, onState, hpart, habort]
  · have hshard : isLocalShard d g (d.getShard k) = false := decide_eq_false hlocal
    obtain ⟨g₁, hok₁, hadds₁⟩ := onDelta_accumulate hkern hwf hk hlocal v
    have hadds₂ := hadds₁.setPendingWrites (g₁.pendingWrites + 1)
    -- the buffer is sent at once if it was the last update it has room for
    by_cases hfull : d.bufmsg < g₁.pendingWrites + 1
    · obtain ⟨g', hok, hadds⟩ := sendUpdates_spec hadds₂.wellFormed
      refine .of_ok (s := g') ?_ (by simpa using hadds₂.trans hadds)
      simp only [accumulateF1, hshard, hok₁, Except.bind, hfull, if_true, hok, if_false,
        Bool.false_eq_true]
    · refine .of_ok ?_ hadds₂
      simp only [accumulateF1, hshard, hok₁, Except.bind, hfull, if_false, Bool.false_eq_true]

theorem applyUpdates_spec (hkern : d.kern.Additive) (hwf : WellFormed d vertices targets g)
    {req : KVPairData ι} (hreq : ∀ kv ∈ d.marshals.decode req.kvData, kv.1 ∈ targets) :
    Ends (¬ targets ⊆ vertices)
      (fun g' => Adds d vertices targets g g' (d.marshals.decode req.kvData))
      (applyUpdates d req g) := by
  have hends := ends_forEach_adds (fun kv : K × V => [kv]) (d.marshals.decode req.kvData)
    (fun kv hkv g hwf => accumulateF1_spec hkern hwf (hreq kv hkv) kv.2) hwf
  rwa [List.flatMap_singleton'] at hends

end GlobalTable

end MaiterStore
