/-
# Sending the buffers

`MutableGlobalTableBase::SendUpdates` (`kernel/global-table.cc`) goes over the partitions
and sends what `serializeToNet` makes of each buffer to the owner of its shard. The
receiver decodes a message with `deserializeFromNet`, which reads the pairs one by one
through a `ProtoKVPairCoder`.

A round of the loop sends one message if the buffer has entries, and nothing otherwise, so
after the shards of a list the messages are those of its non-empty buffers, in order.
-/

import MaiterStore.Kernel.GlobalTable

namespace MaiterStore

open CS.LinearProbing CS.Run

/-! ## The coder of a message -/

/-- A `ProtoKVPairCoder` over the `kv_data` of a message. -/
structure ProtoKVPairCoder where
  t : KVData
  readPos : ℕ

/-- `ReadEntryFromNet(k, v)`, which is `none` where the source returns false. -/
def ProtoKVPairCoder.readEntryFromNet (c : ProtoKVPairCoder) :
    Option ((Bytes × Bytes) × ProtoKVPairCoder) :=
  c.t[c.readPos]?.map fun kv => (kv, { c with readPos := c.readPos + 1 })

namespace DeltaTable

variable {K V D : Type*}

/-- The loop of `deserializeFromNet`, with the pairs appended so far. -/
def deserializeLoop (m : Marshals K V D) :
    ℕ → ProtoKVPairCoder → List (K × V) → Except (Fault K) (List (K × V))
  | 0, _, _ => .error .fuel
  | fuel + 1, c, it =>
    match c.readEntryFromNet with
    | none => .ok it
    | some (kv, c') =>
      deserializeLoop m fuel c'
        (it ++ [(m.kmarshal.unmarshal kv.1, m.v1marshal.unmarshal kv.2)])

/-- `deserializeFromNet(in, it)`: the pairs of the iterator it fills. -/
def deserializeFromNet (m : Marshals K V D) (data : KVData) : Except (Fault K) (List (K × V)) :=
  deserializeLoop m (data.length + 1) ⟨data, 0⟩ []

theorem deserializeLoop_eq (m : Marshals K V D) (data : KVData) (fuel pos : ℕ)
    (hfuel : data.length - pos < fuel) (it : List (K × V)) :
    deserializeLoop m fuel ⟨data, pos⟩ it = .ok (it ++ m.decode (data.drop pos)) := by
  induction fuel generalizing pos it with
  | zero => omega
  | succ fuel ih =>
    rw [deserializeLoop, ProtoKVPairCoder.readEntryFromNet]
    rcases Nat.lt_or_ge pos data.length with hlt | hge
    · simp only [List.getElem?_eq_getElem hlt, Option.map_some]
      rw [ih (pos + 1) (by omega), List.drop_eq_getElem_cons hlt, Marshals.decode, Marshals.decode,
        List.map_cons, List.append_assoc, List.singleton_append]
    · simp [List.getElem?_eq_none hge, List.drop_eq_nil_of_le hge, Marshals.decode]

/-- The loop reads every pair of the message. -/
theorem deserializeFromNet_eq (m : Marshals K V D) (data : KVData) :
    deserializeFromNet m data = .ok (m.decode data) := by
  rw [deserializeFromNet, deserializeLoop_eq m data _ 0 (by omega)]
  simp

variable [DecidableEq K]

/-- A table that the constructor and any operations have led to, the limits of `int` left out of
account. -/
def Reachable (hash : K → ℕ) (kern : IterateKernel K V D) (t : DeltaTable K V) : Prop :=
  ∃ fuel size ops, 0 < size ∧ ∃ t₀, new hash .unbounded (fuel + 2) size = .ok t₀ ∧
    (exec hash .unbounded kern (fuel + 2) t₀ ops).2 = t

variable {hash : K → ℕ} {kern : IterateKernel K V D} {t : DeltaTable K V}
  {m : Finmap fun _ : K => V} {k : K} {v : V}

theorem Reachable.exists_refines (hreach : Reachable hash kern t) : ∃ m, Refines hash t m := by
  obtain ⟨fuel, size, ops, hsize, t₀, hnew, rfl⟩ := hreach
  rw [new_eq hsize.ne' rfl] at hnew
  obtain rfl := Except.ok.inj hnew
  exact exec_unbounded_refines kern fuel (refines_cleared hash hsize) ops

theorem Refines.get_eq_ok_iff (href : Refines hash t m) :
    t.get hash k = .ok v ↔ m.lookup k = some v := by
  rw [href.get_eq]
  cases m.lookup k with
  | none => simp
  | some a => simp

/-- The entries in the buckets are those that `get` reads. -/
theorem Refines.mem_entries_iff (href : Refines hash t m) :
    (k, v) ∈ t.buckets.reduceOption.map (fun b => (b.k, b.v1)) ↔ t.get hash k = .ok v := by
  rw [href.get_eq_ok_iff, ← href.represents.lookup_eq, List.mem_map]
  constructor
  · rintro ⟨b, hb, heq⟩
    obtain ⟨i, hi⟩ := mem_reduceOption_iff_cellAt.mp hb
    rw [href.represents.valid.lookup_eq_some hi (congrArg Prod.fst heq)]
    exact congrArg some (congrArg Prod.snd heq)
  · intro hlook
    obtain ⟨b, hb, hv⟩ := Option.map_eq_some_iff.mp hlook
    obtain ⟨hk, i, hi⟩ := exists_cellAt_of_lookup hb
    exact ⟨b, mem_reduceOption_iff_cellAt.mpr ⟨i, hi⟩, by rw [hk, hv]⟩

theorem Refines.nodup_entries (href : Refines hash t m) :
    ((t.buckets.reduceOption.map fun b => (b.k, b.v1)).map Prod.fst).Nodup := by
  rw [List.map_map]
  exact href.represents.valid.nodup_keys

end DeltaTable

namespace GlobalTable

variable {ι K V D : Type*} [DecidableEq ι] [DecidableEq K] (d : TableDescriptor ι K V D)

/-- The message has the buffer `t` of shard `i`: what the receiver decodes are the pairs
that `get` reads, each key once. -/
structure Carries (g : GlobalTable ι K V D) (i : ℕ) (t : DeltaTable K V)
    (msg : ι × KVPairData ι) : Prop where
  to_owner : msg.1 = d.owner i
  source_eq : msg.2.source = g.id
  shard_eq : msg.2.shard = i
  epoch_eq : msg.2.epoch = g.epoch
  done_eq : msg.2.done = true
  pairs : ∃ pairs, DeltaTable.deserializeFromNet d.marshals msg.2.kvData = .ok pairs ∧
    (pairs.map Prod.fst).Nodup ∧ ∀ k v, (k, v) ∈ pairs ↔ t.get d.hash k = .ok v

/-- The message that a round of the loop sends for shard `i`. -/
def roundMessage (g : GlobalTable ι K V D) (i : ℕ) : Option (ι × KVPairData ι) :=
  match g.partitions i with
  | .state _ => none
  | .delta t => if !isLocalShard d g i && !t.empty then some (putRequest d g i t) else none

/-- The partition of shard `i` once it has had its round. -/
def roundPartition (g : GlobalTable ι K V D) (i : ℕ) : Partition K V D :=
  if (roundMessage d g i).isSome then .delta (DeltaTable.cleared 1) else g.partitions i

/-- No partition is dirty and the buffers are tables that have been worked on. -/
structure Sendable (g : GlobalTable ι K V D) : Prop where
  clean : ∀ i < d.numShards, g.dirty i = false
  delta : ∀ i < d.numShards, d.owner i ≠ g.id → ∃ t, g.partitions i = .delta t ∧
    DeltaTable.Reachable d.hash d.kern t

/-- The state after the rounds of the shards in `done`. -/
structure Rounds (g : GlobalTable ι K V D) (done : List ℕ) (g' : GlobalTable ι K V D) : Prop where
  id_eq : g'.id = g.id
  epoch_eq : g'.epoch = g.epoch
  dirty_eq : g'.dirty = g.dirty
  partitions_eq : ∀ i, g'.partitions i = if i ∈ done then roundPartition d g i else g.partitions i
  sent_eq : g'.sent = g.sent ++ done.filterMap (roundMessage d g)

variable {d} {g g' : GlobalTable ι K V D} {i : ℕ} {t : DeltaTable K V}

omit [DecidableEq K] in
theorem roundMessage_of_delta (hpart : g.partitions i = .delta t) (hremote : d.owner i ≠ g.id) :
    roundMessage d g i = if t.empty then none else some (putRequest d g i t) := by
  cases hempty : t.empty with
  | true => simp [roundMessage, hpart, hempty]
  | false => simp [roundMessage, hpart, hempty, isLocalShard, hremote]

omit [DecidableEq K] in
theorem roundMessage_of_local (hlocal : d.owner i = g.id) : roundMessage d g i = none := by
  cases hpart : g.partitions i with
  | state t => simp [roundMessage, hpart]
  | delta t => simp [roundMessage, hpart, isLocalShard, hlocal]

omit [DecidableEq K] in
theorem shard_of_roundMessage {msg : ι × KVPairData ι} (hmsg : roundMessage d g i = some msg) :
    msg.2.shard = i ∧ d.owner i ≠ g.id ∧ ∃ t, g.partitions i = .delta t ∧ t.empty = false ∧
      msg = putRequest d g i t := by
  have hremote : d.owner i ≠ g.id := by
    intro hlocal
    rw [roundMessage_of_local hlocal] at hmsg
    cases hmsg
  cases hpart : g.partitions i with
  | state t => simp [roundMessage, hpart] at hmsg
  | delta t =>
    rw [roundMessage_of_delta hpart hremote] at hmsg
    split_ifs at hmsg with hempty
    obtain rfl := Option.some.inj hmsg
    exact ⟨rfl, hremote, t, rfl, Bool.eq_false_iff.mpr hempty, rfl⟩

/-- One round: the messages grow by that of the shard, which is then empty. -/
theorem sendShard_rounds (hsend : Sendable d g) {done : List ℕ} (hi : i < d.numShards)
    (hnew : i ∉ done) (hrounds : Rounds d g done g') :
    ∃ g'', sendShard d i g' = .ok g'' ∧ Rounds d g (done ++ [i]) g'' := by
  have hsame : g'.partitions i = g.partitions i := by rw [hrounds.partitions_eq, if_neg hnew]
  have hclean : g'.dirty i = false := by rw [hrounds.dirty_eq, hsend.clean i hi]
  -- a round without a message leaves the shard as it is
  have hstays : roundMessage d g i = none →
      (!isLocalShard d g' i && (g'.dirty i || !(g'.partitions i).empty)) = false →
      ∃ g'', sendShard d i g' = .ok g'' ∧ Rounds d g (done ++ [i]) g'' := by
    intro hnone hguard
    refine ⟨g', by rw [sendShard, hguard]; rfl, hrounds.id_eq, hrounds.epoch_eq, hrounds.dirty_eq,
      ?_, ?_⟩
    · intro j
      rw [hrounds.partitions_eq]
      by_cases hj : j = i
      · subst hj
        simp [hnew, roundPartition, hnone]
      · simp [hj]
    · rw [hrounds.sent_eq, List.filterMap_append]
      simp [hnone]
  by_cases hlocal : d.owner i = g.id
  · exact hstays (roundMessage_of_local hlocal) (by simp [isLocalShard, hrounds.id_eq, hlocal])
  obtain ⟨t, hpart, -⟩ := hsend.delta i hi hlocal
  have hround := roundMessage_of_delta hpart hlocal
  cases hempty : t.empty with
  | true =>
    rw [hempty, if_pos rfl] at hround
    exact hstays hround (by simp [hclean, hsame, hpart, Partition.empty, hempty])
  | false =>
    rw [hempty, if_neg Bool.false_ne_true] at hround
    have hguard : (!isLocalShard d g' i && (g'.dirty i || !(g'.partitions i).empty)) = true := by
      simp [isLocalShard, hrounds.id_eq, hlocal, hsame, hpart, Partition.empty, hempty]
    have hmsg : putRequest d g' i t = putRequest d g i t := by
      rw [putRequest, putRequest, hrounds.id_eq, hrounds.epoch_eq]
    refine ⟨flushed d g' i t, sendShard_of_delta (hsame.trans hpart) hguard, hrounds.id_eq,
      hrounds.epoch_eq, hrounds.dirty_eq, ?_, ?_⟩
    · intro j
      by_cases hj : j = i
      · subst hj
        rw [flushed, setPartition_self]
        simp [roundPartition, hround]
      · rw [flushed, setPartition_of_ne _ hj]
        simp [hrounds.partitions_eq, hj]
    · change g'.sent ++ [putRequest d g' i t] = _
      rw [hrounds.sent_eq, hmsg, List.filterMap_append, List.append_assoc]
      simp [hround]

/-- The whole loop. -/
theorem sendUpdates_rounds (hsend : Sendable d g) :
    ∃ g', sendUpdates d g = .ok g' ∧ Rounds d g (List.range d.numShards) g' ∧
      g'.pendingWrites = 0 := by
  have hinit : Rounds d g [] g := ⟨rfl, rfl, rfl, fun i => by simp, by simp⟩
  have hends : EndsIn (fun _ => False) (Rounds d g (List.range d.numShards))
      (forEach (sendShard d) (List.range d.numShards) g) := by
    refine endsIn_forEach (I := fun done g' => Rounds d g done g') (List.range d.numShards) ?_ hinit
    intro before i after hrange g' hrounds
    have hnodup : (before ++ i :: after).Nodup := hrange ▸ List.nodup_range
    have hi : i < d.numShards := by
      apply List.mem_range.mp
      rw [hrange]
      simp
    have hnew : i ∉ before := by
      intro hmem
      exact (List.nodup_append.mp hnodup).2.2 i hmem i List.mem_cons_self rfl
    obtain ⟨g'', hok, hrounds'⟩ := sendShard_rounds hsend hi hnew hrounds
    rw [hok]
    exact hrounds'
  obtain ⟨g', hok, hrounds⟩ := hends.exists_ok
  refine ⟨{ g' with pendingWrites := 0 }, by rw [sendUpdates, hok]; rfl, ?_, rfl⟩
  exact ⟨hrounds.id_eq, hrounds.epoch_eq, hrounds.dirty_eq, hrounds.partitions_eq, hrounds.sent_eq⟩

omit [DecidableEq ι] in
theorem carries_putRequest {m : Finmap fun _ : K => V} (href : DeltaTable.Refines d.hash t m) :
    Carries d g i t (putRequest d g i t) := by
  refine ⟨rfl, rfl, rfl, rfl, rfl, t.buckets.reduceOption.map fun b => (b.k, b.v1), ?_,
    href.nodup_entries, fun k v => href.mem_entries_iff⟩
  rw [DeltaTable.deserializeFromNet_eq, decode_putRequest]

omit [DecidableEq K] in
/-- Each shard of a list without repetitions has its own message among those sent. -/
theorem filter_shard_rounds {shards : List ℕ} (hnodup : shards.Nodup) (hi : i ∈ shards) :
    (shards.filterMap (roundMessage d g)).filter (fun msg => msg.2.shard = i) =
      (roundMessage d g i).toList := by
  induction shards with
  | nil => cases hi
  | cons j shards ih =>
    obtain ⟨hj, hrest⟩ := List.nodup_cons.mp hnodup
    have hnone : j = i → (shards.filterMap (roundMessage d g)).filter
        (fun msg => msg.2.shard = i) = [] := by
      rintro rfl
      rw [List.filter_eq_nil_iff]
      intro msg hmsg hshard
      obtain ⟨l, hl, hround⟩ := List.mem_filterMap.mp hmsg
      have hlj : l = j := (shard_of_roundMessage hround).1.symm.trans (of_decide_eq_true hshard)
      exact hj (hlj ▸ hl)
    cases hround : roundMessage d g j with
    | none =>
      rw [List.filterMap_cons_none hround]
      rcases List.mem_cons.mp hi with rfl | hi
      · rw [hnone rfl, hround, Option.toList_none]
      · exact ih hrest hi
    | some msg =>
      have hshard := (shard_of_roundMessage hround).1
      rw [List.filterMap_cons_some hround, List.filter_cons]
      rcases List.mem_cons.mp hi with rfl | hi
      · rw [if_pos (decide_eq_true hshard), hnone rfl, hround, Option.toList_some]
      · have hji : j ≠ i := fun heq => hj (heq ▸ hi)
        rw [if_neg (by rw [hshard]; simpa using hji), ih hrest hi]

/-- After its round a buffer is empty. -/
theorem empty_roundPartition (hsend : Sendable d g) (hi : i < d.numShards)
    (hremote : d.owner i ≠ g.id) :
    ∃ t, roundPartition d g i = .delta t ∧ t.empty = true ∧ ∀ k, t.contains d.hash k = false := by
  obtain ⟨t, hpart, hreach⟩ := hsend.delta i hi hremote
  have hround := roundMessage_of_delta hpart hremote
  cases hempty : t.empty with
  | true =>
    rw [hempty, if_pos rfl] at hround
    obtain ⟨m, href⟩ := hreach.exists_refines
    refine ⟨t, by simp [roundPartition, hround, hpart], hempty, fun k => ?_⟩
    rw [href.contains_eq, decide_eq_false_iff_not, ← Finmap.lookup_eq_none]
    exact href.lookup_eq_none_of_empty hempty
  | false =>
    rw [hempty, if_neg Bool.false_ne_true] at hround
    have href : DeltaTable.Refines d.hash (DeltaTable.cleared 1 : DeltaTable K V) ∅ :=
      DeltaTable.refines_cleared d.hash one_pos
    refine ⟨DeltaTable.cleared 1, by simp [roundPartition, hround], rfl, fun k => ?_⟩
    rw [href.contains_eq, decide_eq_false_iff_not]
    exact Finmap.notMem_empty

/-- **Every buffer is sent once, as it is.** If no partition is dirty and the buffers are
delta tables, `SendUpdates` returns; it sends one message for each buffer with entries, to
the owner of the shard and with exactly the pairs of the buffer, and no other message.
Then the buffers are empty, the owned partitions as before, and no write is pending. -/
theorem sendUpdates_transmits (hsend : Sendable d g) :
    ∃ g' msgs, sendUpdates d g = .ok g' ∧ g'.sent = g.sent ++ msgs ∧
      (∀ i < d.numShards, ∀ t, d.owner i ≠ g.id → g.partitions i = .delta t → t.empty = false →
        ∃ msg, msgs.filter (fun msg => msg.2.shard = i) = [msg] ∧ Carries d g i t msg) ∧
      (∀ msg ∈ msgs, msg.2.shard < d.numShards ∧ d.owner msg.2.shard ≠ g.id ∧
        ∃ t, g.partitions msg.2.shard = .delta t ∧ t.empty = false) ∧
      (∀ i < d.numShards, d.owner i ≠ g.id → ∃ t, g'.partitions i = .delta t ∧ t.empty = true ∧
        ∀ k, t.contains d.hash k = false) ∧
      (∀ i, d.owner i = g.id → g'.partitions i = g.partitions i) ∧ g'.pendingWrites = 0 := by
  obtain ⟨g', hok, hrounds, hpending⟩ := sendUpdates_rounds hsend
  refine ⟨g', _, hok, hrounds.sent_eq, ?_, ?_, ?_, ?_, hpending⟩
  · intro i hi t hremote hpart hfull
    obtain ⟨t', hpart', hreach⟩ := hsend.delta i hi hremote
    obtain rfl : t' = t := Partition.delta.inj (hpart'.symm.trans hpart)
    obtain ⟨m, href⟩ := hreach.exists_refines
    refine ⟨putRequest d g i t', ?_, carries_putRequest href⟩
    rw [filter_shard_rounds List.nodup_range (List.mem_range.mpr hi),
      roundMessage_of_delta hpart hremote, hfull, if_neg Bool.false_ne_true, Option.toList_some]
  · intro msg hmsg
    obtain ⟨i, hi, hround⟩ := List.mem_filterMap.mp hmsg
    obtain ⟨hshard, hremote, t, hpart, hfull, -⟩ := shard_of_roundMessage hround
    rw [hshard]
    exact ⟨List.mem_range.mp hi, hremote, t, hpart, hfull⟩
  · intro i hi hremote
    rw [hrounds.partitions_eq, if_pos (List.mem_range.mpr hi)]
    exact empty_roundPartition hsend hi hremote
  · intro i hlocal
    rw [hrounds.partitions_eq, roundPartition, roundMessage_of_local hlocal]
    simp

theorem mod_three_lt (k : ℕ) : k % 3 < 3 := Nat.mod_lt k (Nat.zero_lt_succ 2)

/-- Worker `0` owns the first of three shards. -/
def firstShard : TableDescriptor ℕ ℕ ℕ Bytes where
  numShards := 3
  getShard k := k % 3
  getShard_lt := mod_three_lt
  owner i := if i = 0 then 0 else 1
  hash k := k
  kern := sumKernel fun _ => []
  marshals := unaryMarshals
  bufmsg := 10

/-- Three updates for the vertices `1` and `4` of the second shard. -/
def threeUpdates : DeltaTable ℕ ℕ :=
  (DeltaTable.exec firstShard.hash .unbounded firstShard.kern 2 (DeltaTable.cleared 1)
    [.accumulate 1 5, .accumulate 4 2, .accumulate 1 3]).2

/-- The table of worker `0` with those updates in a buffer and nothing in the other. -/
def oneBuffered : GlobalTable ℕ ℕ ℕ Bytes :=
  ⟨0, 0, fun i => if i = 0 then .state (.cleared 2 0) else
    if i = 1 then .delta threeUpdates else .delta (.cleared 1), fun _ => false, 3, []⟩

theorem sendUpdates_transmits_one_buffer :
    Sendable firstShard oneBuffered ∧ ∃ g' msg, sendUpdates firstShard oneBuffered = .ok g' ∧
      g'.sent.filter (fun msg => msg.2.shard = 1) = [msg] ∧
      Carries firstShard oneBuffered 1 threeUpdates msg ∧
        threeUpdates.get (fun k => k) 1 = .ok 8 := by
  have hnew : DeltaTable.new firstShard.hash .unbounded 2 1 =
      .ok (DeltaTable.cleared 1 : DeltaTable ℕ ℕ) := DeltaTable.new_one
  have hsend : Sendable firstShard oneBuffered := by
    refine ⟨fun _ _ => rfl, fun i _ hremote => ?_⟩
    have hi : i ≠ 0 := by
      rintro rfl
      exact hremote rfl
    by_cases hi' : i = 1
    · exact ⟨threeUpdates, by simp [oneBuffered, hi'], 0, 1, _, one_pos, _, hnew, rfl⟩
    · exact ⟨.cleared 1, by simp [oneBuffered, hi, hi'], 0, 1, [], one_pos, _, hnew, rfl⟩
  obtain ⟨g', msgs, hok, hsent, hone, -⟩ := sendUpdates_transmits hsend
  obtain ⟨msg, hmsg, hcarries⟩ := hone 1 (by decide) threeUpdates (by decide) rfl (by decide)
  refine ⟨hsend, g', msg, hok, ?_, hcarries, by decide⟩
  rw [hsent]
  exact hmsg

end GlobalTable

end MaiterStore
