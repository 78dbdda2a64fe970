/-
# The buffers for remote shards

A worker buffers its updates for the shards of other workers in delta tables, and counts them
in `pending_writes_`. The counter and the buffers do not measure the same thing: a put for a
remote shard is counted and dropped, and updates of one key share an entry. `accumulateF1`
compares the counter with `bufmsg`, and `SendUpdates` resets it.

Every entry of a buffer has been counted since the buffers were last sent, so that the
buffers have no more entries than the counter says. After a remote `accumulateF1` neither is
above `bufmsg`.
-/

import Mathlib.Algebra.Order.BigOperators.Group.Finset
import MaiterStore.Kernel.InitTable
import MaiterStore.Kernel.SendUpdates
import MaiterStore.Kernel.StateTableGrowth
import MaiterStore.Worker.RollingCheckpoint

namespace MaiterStore

open CS.FiniteMap CS.LinearProbing CS.Run

namespace Partition

variable {K V D : Type*}

/-- `size()`. -/
def size : Partition K V D → ℕ
  | .state t => t.size
  | .delta t => t.size

/-- The number of buckets in use. -/
def inUse : Partition K V D → ℕ
  | .state t => occupied t.buckets
  | .delta t => occupied t.buckets

end Partition

namespace GlobalTable

section Calls

variable {ι K V D : Type*} [DecidableEq ι] [DecidableEq K] (d : TableDescriptor ι K V D)

/-- A round of the loop of `HandlePutRequest`. `UpdateEpoch` never lowers the epoch. -/
def handlePutRequest (msg : PutMessage ι) (g : GlobalTable ι K V D) :
    Except (Fault K) (GlobalTable ι K V D) :=
  match msg with
  | .put req => applyUpdates d req g
  | .marker _ epoch => .ok { g with epoch := max g.epoch epoch }

/-- `put(k, v1, v2, v3)`. `received` is what the periodic `HandlePutRequests` at its end reads,
nothing when it is not due. -/
def put (k : K) (v1 v2 : V) (v3 : D) (received : List (PutMessage ι)) (g : GlobalTable ι K V D) :
    Except (Fault K) (GlobalTable ι K V D) :=
  (if isLocalShard d g (d.getShard k) then
    onState (d.getShard k) (StateTable.put d.hash d.kern recursionDepth k v1 v2 v3) g
  else .ok { g with pendingWrites := g.pendingWrites + 1 }).bind
    (forEach (handlePutRequest d) received)

/-- The calls that a worker makes. -/
inductive Call (ι K V D : Type*)
  | put (k : K) (v1 v2 : V) (v3 : D) (received : List (PutMessage ι))
  | accumulateF1 (k : K) (v : V)
  | sendUpdates

def call : Call ι K V D → GlobalTable ι K V D → Except (Fault K) (GlobalTable ι K V D)
  | .put k v1 v2 v3 received => put d k v1 v2 v3 received
  | .accumulateF1 k v => accumulateF1 d k v
  | .sendUpdates => sendUpdates d

/-- The shards of other workers. -/
def remoteShards (g : GlobalTable ι K V D) : Finset ℕ :=
  (Finset.range d.numShards).filter fun i => ¬ isLocalShard d g i

/-- `pending_write_bytes()`, which adds up numbers of entries. -/
def pendingWriteBytes (g : GlobalTable ι K V D) : ℕ :=
  ∑ i ∈ remoteShards d g, (g.partitions i).size

/-- The entries of the buffers. -/
def bufferedEntries (g : GlobalTable ι K V D) : ℕ :=
  ∑ i ∈ remoteShards d g, (g.partitions i).inUse

/-- The table after `Init`. `InitStateTable` and `resize` have done whatever they do to the
local shards. -/
structure Initial (g : GlobalTable ι K V D) : Prop where
  pendingWrites_eq : g.pendingWrites = 0
  delta : ∀ i < d.numShards, d.owner i ≠ g.id → ∃ t,
    DeltaTable.new d.hash .unbounded recursionDepth 1 = .ok t ∧ g.partitions i = .delta t

end Calls

/-- The `put` of the initialization is this one, if nothing has been received. -/
theorem map_table_put {ι K V D : Type*} [DecidableEq ι] [DecidableEq K] [Inhabited D]
    (d : TableDescriptor ι K V D) (k : K) (v1 v2 : V) (v3 : D) (m : MaiterKernel1 ι K V D) :
    (m.put d k v1 v2 v3).map MaiterKernel1.table = put d k v1 v2 v3 [] m.table := by
  rw [MaiterKernel1.put, put]
  by_cases hlocal : m.table.isLocalShard d (d.getShard k) = true
  · simp only [if_pos hlocal, onState]
    cases m.table.partitions (d.getShard k) with
    | delta t => rfl
    | state t =>
      cases hput : t.put d.hash d.kern recursionDepth k v1 v2 v3 <;> simp only [hput] <;> rfl
  · simp only [if_neg hlocal]
    rfl

/-! ## The invariant -/

variable {ι K V D : Type*} {d : TableDescriptor ι K V D} {g g₁ g' : GlobalTable ι K V D} {i : ℕ}
  {done : List ℕ}

/-- A call that leaves the local shards alone. -/
structure SameLocal (d : TableDescriptor ι K V D) (g g' : GlobalTable ι K V D) : Prop where
  id_eq : g'.id = g.id
  partitions_eq : ∀ i, d.owner i = g.id → g'.partitions i = g.partitions i

theorem SameLocal.refl (d : TableDescriptor ι K V D) (g : GlobalTable ι K V D) :
    SameLocal d g g := ⟨rfl, fun _ _ => rfl⟩

theorem SameLocal.trans (h : SameLocal d g g₁) (h' : SameLocal d g₁ g') : SameLocal d g g' where
  id_eq := h'.id_eq.trans h.id_eq
  partitions_eq i hi := (h'.partitions_eq i (hi.trans h.id_eq.symm)).trans (h.partitions_eq i hi)

theorem sameLocal_setPartition (hremote : d.owner i ≠ g.id) (part : Partition K V D) :
    SameLocal d g (g.setPartition i part) where
  id_eq := rfl
  partitions_eq j hj := setPartition_of_ne g (fun hji : j = i => hremote (hji ▸ hj)) part

variable [DecidableEq K]

/-- The shards of other workers are delta tables, and those in `done` have no entries. -/
def HasBuffers (d : TableDescriptor ι K V D) (done : List ℕ) (g : GlobalTable ι K V D) : Prop :=
  ∀ i < d.numShards, d.owner i ≠ g.id → ∃ t m, g.partitions i = .delta t ∧
    DeltaTable.Refines d.hash t m ∧ (i ∈ done → m.keys.card = 0)

theorem HasBuffers.mono (h : HasBuffers d done g) {done' : List ℕ} (hsub : done' ⊆ done) :
    HasBuffers d done' g := by
  intro i hi hremote
  obtain ⟨t, m, hpart, href, hempty⟩ := h i hi hremote
  exact ⟨t, m, hpart, href, fun hmem => hempty (hsub hmem)⟩

/-- A delta table is put in the place of a buffer. -/
theorem HasBuffers.setDelta (h : HasBuffers d done g) {t : DeltaTable K V}
    {m : Finmap fun _ : K => V} (href : DeltaTable.Refines d.hash t m) {done' : List ℕ}
    (hempty : i ∈ done' → m.keys.card = 0) (hother : ∀ j ∈ done', j ≠ i → j ∈ done) :
    HasBuffers d done' (g.setPartition i (.delta t)) := by
  intro j hj hremote
  by_cases hji : j = i
  · subst hji
    exact ⟨t, m, setPartition_self .., href, hempty⟩
  · obtain ⟨t', m', hpart, href', hempty'⟩ := h j hj hremote
    exact ⟨t', m', (setPartition_of_ne g hji _).trans hpart, href',
      fun hmem => hempty' (hother j hmem hji)⟩

variable [DecidableEq ι]

/-- The buffers have no more entries than have been counted. -/
structure Buffered (d : TableDescriptor ι K V D) (g : GlobalTable ι K V D) : Prop where
  hasBuffers : HasBuffers d [] g
  le_pendingWrites : bufferedEntries d g ≤ g.pendingWrites

omit [DecidableEq K] in
theorem mem_remoteShards : i ∈ remoteShards d g ↔ i < d.numShards ∧ d.owner i ≠ g.id := by
  rw [remoteShards, Finset.mem_filter, Finset.mem_range, isLocalShard, decide_eq_true_eq]

/-- What `size()` says of a buffer is the number of its buckets in use. -/
theorem HasBuffers.pendingWriteBytes_eq (h : HasBuffers d done g) :
    pendingWriteBytes d g = bufferedEntries d g := by
  refine Finset.sum_congr rfl fun i hi => ?_
  obtain ⟨hlt, hremote⟩ := mem_remoteShards.mp hi
  obtain ⟨t, m, hpart, href, -⟩ := h i hlt hremote
  rw [hpart]
  exact href.entries_eq.trans href.represents.occupied_eq.symm

theorem HasBuffers.bufferedEntries_eq_zero (h : HasBuffers d (List.range d.numShards) g) :
    bufferedEntries d g = 0 := by
  refine Finset.sum_eq_zero fun i hi => ?_
  obtain ⟨hlt, hremote⟩ := mem_remoteShards.mp hi
  obtain ⟨t, m, hpart, href, hempty⟩ := h i hlt hremote
  rw [hpart]
  exact href.represents.occupied_eq.trans (hempty (List.mem_range.mpr hlt))

omit [DecidableEq K] in
/-- One more entry in one partition. -/
theorem bufferedEntries_setPartition_le {part : Partition K V D}
    (hpart : part.inUse ≤ (g.partitions i).inUse + 1) :
    bufferedEntries d (g.setPartition i part) ≤ bufferedEntries d g + 1 := by
  have hle : ∀ j ∈ remoteShards d g, ((g.setPartition i part).partitions j).inUse ≤
      (g.partitions j).inUse + if j = i then 1 else 0 := by
    intro j _
    split_ifs with hji
    · rw [hji, setPartition_self]
      exact hpart
    · rw [setPartition_of_ne g hji]
      exact le_rfl
  calc bufferedEntries d (g.setPartition i part)
      ≤ ∑ j ∈ remoteShards d g, ((g.partitions j).inUse + if j = i then 1 else 0) :=
        Finset.sum_le_sum hle
    _ = bufferedEntries d g + ∑ j ∈ remoteShards d g, if j = i then 1 else 0 :=
        Finset.sum_add_distrib
    _ ≤ bufferedEntries d g + 1 := by
        rw [Finset.sum_ite_eq']
        split_ifs <;> omega

/-! ## The steps -/

omit [DecidableEq ι] [DecidableEq K] in
theorem exists_of_onState {f : StateTable K V D → Outcome K (StateTable K V D)}
    (hok : onState i f g = .ok g') : ∃ t, g' = g.setPartition i (.state t) := by
  rw [onState] at hok
  cases hpart : g.partitions i with
  | delta t => simp [hpart] at hok
  | state t =>
    simp only [hpart] at hok
    cases hf : f t with
    | error e => simp [hf] at hok
    | ok t' =>
      simp only [hf] at hok
      exact ⟨t', (Except.ok.inj hok).symm⟩

/-- A call on a local shard leaves the buffers alone. -/
theorem Buffered.onState {f : StateTable K V D → Outcome K (StateTable K V D)}
    (h : Buffered d g) (hlocal : isLocalShard d g i = true)
    (hok : GlobalTable.onState i f g = .ok g') : Buffered d g' := by
  obtain ⟨t, rfl⟩ := exists_of_onState hok
  have hown : d.owner i = g.id := of_decide_eq_true hlocal
  have hsame : ∀ j, d.owner j ≠ g.id →
      (g.setPartition i (.state t)).partitions j = g.partitions j := by
    intro j hj
    exact setPartition_of_ne g (fun hji : j = i => hj (hji ▸ hown)) _
  constructor
  · intro j hj hremote
    obtain ⟨t', m, hpart, href⟩ := h.hasBuffers j hj hremote
    exact ⟨t', m, (hsame j hremote).trans hpart, href⟩
  · have hentries : bufferedEntries d (g.setPartition i (.state t)) = bufferedEntries d g := by
      refine Finset.sum_congr rfl fun j hj => ?_
      rw [hsame j (mem_remoteShards.mp hj).2]
    exact hentries.trans_le h.le_pendingWrites

/-- A put that is dropped is counted. -/
theorem Buffered.count (h : Buffered d g) :
    Buffered d { g with pendingWrites := g.pendingWrites + 1 } :=
  ⟨h.hasBuffers, h.le_pendingWrites.trans (Nat.le_succ _)⟩

/-- An update in a buffer is counted. -/
theorem Buffered.accumulate (h : Buffered d g) {k : K} (hremote : d.owner (d.getShard k) ≠ g.id)
    (v : V) :
    ∃ g', onDelta (d.getShard k)
        (DeltaTable.accumulate d.hash .unbounded d.kern recursionDepth k v) g =
      .ok g' ∧ Buffered d { g' with pendingWrites := g'.pendingWrites + 1 } ∧ SameLocal d g g' := by
  obtain ⟨t, m, hpart, href, -⟩ := h.hasBuffers _ (d.getShard_lt k) hremote
  obtain ⟨t', hok, href'⟩ := DeltaTable.accumulate_refines d.kern 0 k v href
  refine ⟨g.setPartition (d.getShard k) (.delta t'), ?_, ⟨?_, ?_⟩, sameLocal_setPartition hremote _⟩
  · simp only [onDelta, hpart, recursionDepth, hok]
  · exact h.hasBuffers.setDelta href' (fun hmem => absurd hmem List.not_mem_nil)
      fun j hmem _ => absurd hmem List.not_mem_nil
  · have hinUse : (Partition.delta t' : Partition K V D).inUse ≤
        (g.partitions (d.getShard k)).inUse + 1 := by
      rw [hpart]
      change occupied t'.buckets ≤ occupied t.buckets + 1
      rw [href'.represents.occupied_eq, href.represents.occupied_eq]
      exact card_keys_insert_le
    exact (bufferedEntries_setPartition_le hinUse).trans
      (Nat.add_le_add_right h.le_pendingWrites 1)

/-- A round of `SendUpdates` returns, and the buffer of its shard is then empty. -/
theorem HasBuffers.sendShard (h : HasBuffers d done g) (hi : i < d.numShards) :
    ∃ g', GlobalTable.sendShard d i g = .ok g' ∧ HasBuffers d (done ++ [i]) g' ∧
      SameLocal d g g' := by
  have hmem : ∀ j ∈ done ++ [i], j ≠ i → j ∈ done := by
    intro j hj hji
    rcases List.mem_append.mp hj with hj | hj
    · exact hj
    · exact absurd (List.mem_singleton.mp hj) hji
  by_cases hsends : (!isLocalShard d g i && (g.dirty i || !(g.partitions i).empty)) = true
  · have hremote : d.owner i ≠ g.id := by
      intro hlocal
      simp [isLocalShard, hlocal] at hsends
    obtain ⟨t, m, hpart, -⟩ := h i hi hremote
    have hbuffers : HasBuffers d done { g with sent := g.sent ++ [putRequest d g i t] } := h
    have hsame := sameLocal_setPartition hremote (.delta (DeltaTable.cleared 1))
    exact ⟨flushed d g i t, sendShard_of_delta hpart hsends,
      hbuffers.setDelta (DeltaTable.refines_cleared d.hash one_pos) (fun _ => rfl) hmem,
      rfl, hsame.partitions_eq⟩
  -- a shard that is passed over is local, or its buffer is empty
  · refine ⟨g, by rw [GlobalTable.sendShard, if_neg hsends], ?_, .refl d g⟩
    intro j hj hremote
    obtain ⟨t, m, hpart, href, hempty⟩ := h j hj hremote
    refine ⟨t, m, hpart, href, fun hj' => ?_⟩
    by_cases hji : j = i
    · subst hji
      simp only [isLocalShard, hremote, hpart, Partition.empty, decide_false, Bool.not_false,
        Bool.true_and, Bool.or_eq_true, Bool.not_eq_true', not_or, Bool.not_eq_false] at hsends
      exact href.entries_eq.symm.trans (of_decide_eq_true hsends.2)
    · exact hempty (hmem j hj' hji)

/-- `SendUpdates` returns. The buffers are then empty, and nothing is counted. -/
theorem HasBuffers.sendUpdates (h : HasBuffers d done g) :
    ∃ g', GlobalTable.sendUpdates d g = .ok g' ∧ Buffered d g' ∧ g'.pendingWrites = 0 ∧
      SameLocal d g g' := by
  have hends : Ends False (fun g' => HasBuffers d (List.range d.numShards) g' ∧ SameLocal d g g')
      (forEach (GlobalTable.sendShard d) (List.range d.numShards) g) := by
    refine ends_forEach (I := fun done g' => HasBuffers d done g' ∧ SameLocal d g g') _ ?_
      ⟨h.mono (List.nil_subset done), .refl d g⟩
    rintro done i hi g₁ ⟨hg₁, hsame₁⟩
    obtain ⟨g₂, hok, hg₂, hsame₂⟩ := hg₁.sendShard (List.mem_range.mp hi)
    exact .of_ok hok ⟨hg₂, hsame₁.trans hsame₂⟩
  obtain ⟨g', hok, hg', hsame⟩ := hends.exists_ok not_false
  refine ⟨{ g' with pendingWrites := 0 }, by rw [GlobalTable.sendUpdates, hok]; rfl,
    ⟨hg'.mono (List.nil_subset _), ?_⟩, rfl, hsame.id_eq, hsame.partitions_eq⟩
  exact hg'.bufferedEntries_eq_zero.le

/-- A remote `accumulateF1` returns, and the counter is not above `bufmsg` then. -/
theorem Buffered.accumulateF1_remote (h : Buffered d g) {k : K}
    (hremote : d.owner (d.getShard k) ≠ g.id) (v : V) :
    ∃ g', accumulateF1 d k v g = .ok g' ∧ Buffered d g' ∧ g'.pendingWrites ≤ d.bufmsg ∧
      SameLocal d g g' := by
  have hshard : isLocalShard d g (d.getShard k) = false := decide_eq_false hremote
  obtain ⟨g₁, hok₁, hg₁, hsame₁⟩ := h.accumulate hremote v
  by_cases hfull : d.bufmsg < g₁.pendingWrites + 1
  · obtain ⟨g', hok, hg', hzero, hsame⟩ := hg₁.hasBuffers.sendUpdates
    refine ⟨g', ?_, hg', hzero.trans_le (Nat.zero_le _), ?_⟩
    · simp only [accumulateF1, hshard, hok₁, Except.bind, hfull, if_true, hok, if_false,
        Bool.false_eq_true]
    · exact hsame₁.trans ⟨hsame.id_eq, hsame.partitions_eq⟩
  · refine ⟨_, ?_, hg₁, Nat.not_lt.mp hfull, hsame₁.id_eq, hsame₁.partitions_eq⟩
    simp only [accumulateF1, hshard, hok₁, Except.bind, hfull, if_false, Bool.false_eq_true]

theorem Buffered.accumulateF1 (h : Buffered d g) {k : K} {v : V}
    (hok : GlobalTable.accumulateF1 d k v g = .ok g') : Buffered d g' := by
  by_cases hlocal : isLocalShard d g (d.getShard k) = true
  · rw [GlobalTable.accumulateF1, if_pos hlocal] at hok
    exact h.onState hlocal hok
  · obtain ⟨g'', hok', hg'', -⟩ :=
      h.accumulateF1_remote (fun hown => hlocal (decide_eq_true hown)) v
    exact Except.ok.inj (hok'.symm.trans hok) ▸ hg''

theorem Buffered.handlePutRequest (h : Buffered d g) {msg : PutMessage ι}
    (hok : GlobalTable.handlePutRequest d msg g = .ok g') : Buffered d g' := by
  cases msg with
  | put req => exact forEach_invariant (fun _ _ _ h hok => h.accumulateF1 hok) h hok
  | marker source epoch =>
    cases hok
    exact ⟨h.hasBuffers, h.le_pendingWrites⟩

theorem Buffered.put (h : Buffered d g) {k : K} {v1 v2 : V} {v3 : D}
    {received : List (PutMessage ι)}
    (hok : GlobalTable.put d k v1 v2 v3 received g = .ok g') : Buffered d g' := by
  obtain ⟨g₁, hput, hreceived⟩ := bind_eq_ok.mp hok
  refine forEach_invariant (I := Buffered d) (fun _ _ _ h hok => h.handlePutRequest hok) ?_
    hreceived
  split_ifs at hput with hlocal
  · exact h.onState hlocal hput
  · cases hput
    exact h.count

theorem Buffered.call (h : Buffered d g) {c : Call ι K V D}
    (hok : GlobalTable.call d c g = .ok g') : Buffered d g' := by
  cases c with
  | put k v1 v2 v3 received => exact h.put hok
  | accumulateF1 k v => exact h.accumulateF1 hok
  | sendUpdates =>
    obtain ⟨g'', hok', hg'', -⟩ := h.hasBuffers.sendUpdates
    exact Except.ok.inj (hok'.symm.trans hok) ▸ hg''

/-! ## Runs -/

theorem Initial.buffered (h : Initial d g) : Buffered d g := by
  have hbuffers : HasBuffers d (List.range d.numShards) g := by
    intro i hi hremote
    obtain ⟨t, hnew, hpart⟩ := h.delta i hi hremote
    rw [DeltaTable.new_one] at hnew
    obtain rfl := Except.ok.inj hnew
    exact ⟨_, ∅, hpart, DeltaTable.refines_cleared d.hash one_pos, fun _ => rfl⟩
  exact ⟨hbuffers.mono (List.nil_subset _),
    hbuffers.bufferedEntries_eq_zero.trans_le (Nat.zero_le _)⟩

/-- **Remote buffering is bounded.** In every state that calls lead to, the buffers have no more
entries than have been counted. After a remote `accumulateF1` neither is above `bufmsg`. -/
theorem buffering_bounded {start : GlobalTable ι K V D} (hstart : Initial d start)
    (calls : List (Call ι K V D)) (hrun : forEach (call d) calls start = .ok g) :
    bufferedEntries d g ≤ g.pendingWrites ∧ pendingWriteBytes d g = bufferedEntries d g ∧
      ∀ k v g', d.owner (d.getShard k) ≠ g.id → GlobalTable.accumulateF1 d k v g = .ok g' →
        g'.pendingWrites ≤ d.bufmsg ∧ bufferedEntries d g' ≤ d.bufmsg := by
  have hg : Buffered d g := forEach_invariant (fun _ _ _ h hok => h.call hok) hstart.buffered hrun
  refine ⟨hg.le_pendingWrites, hg.hasBuffers.pendingWriteBytes_eq, ?_⟩
  intro k v g' hremote hok
  obtain ⟨g'', hok', hg'', hle, -⟩ := hg.accumulateF1_remote hremote v
  obtain rfl := Except.ok.inj (hok'.symm.trans hok)
  exact ⟨hle, hg''.le_pendingWrites.trans hle⟩

/-- Worker `0` owns the first of three shards, and three writes may be pending. -/
def threePending : TableDescriptor ℕ ℕ ℕ Bytes := { firstShard with bufmsg := 3 }

/-- Worker `0` with nothing in its tables. -/
def emptyBuffers : GlobalTable ℕ ℕ ℕ Bytes :=
  ⟨0, 0, fun i => if i = 0 then .state (.cleared 2 0) else .delta (.cleared 1), fun _ => false, 0,
    []⟩

theorem initial_emptyBuffers : Initial threePending emptyBuffers where
  pendingWrites_eq := rfl
  delta i _ hremote := by
    have hi : i ≠ 0 := by
      rintro rfl
      exact hremote rfl
    exact ⟨.cleared 1, DeltaTable.new_one, if_neg hi⟩

/-- A dropped put and two updates of one key are three writes and one entry. One more update is
more than `bufmsg` allows, and empties the buffer. -/
theorem buffering_bounded_three_writes :
    ∃ g g', forEach (call threePending)
        [.put 2 0 0 [] [.marker 1 1], .accumulateF1 1 5, .accumulateF1 1 3] emptyBuffers = .ok g ∧
      g.pendingWrites = 3 ∧ bufferedEntries threePending g = 1 ∧
      bufferedEntries threePending g ≤ g.pendingWrites ∧
      GlobalTable.accumulateF1 threePending 4 2 g = .ok g' ∧ g'.pendingWrites ≤ 3 ∧
      bufferedEntries threePending g' ≤ 3 := by
  have hrun := buffering_bounded initial_emptyBuffers
    [.put 2 0 0 [] [.marker 1 1], .accumulateF1 1 5, .accumulateF1 1 3] rfl
  have hbound := hrun.2.2 4 2 _ (by decide) rfl
  exact ⟨_, _, rfl, rfl, rfl, hrun.1, rfl, hbound.1, hbound.2⟩

/-! ## What stops a run

The buffers never do. A local shard only does where it has no entry for the key of an update,
or where a put would have to grow it to a size that `int` cannot hold. -/

/-- The local shards are state tables in which every search is exact. -/
def HasTables (d : TableDescriptor ι K V D) (g : GlobalTable ι K V D) : Prop :=
  ∀ i < d.numShards, d.owner i = g.id → ∃ t, g.partitions i = .state t ∧
    Valid d.hash StateTable.Bucket.k t.buckets

omit [DecidableEq ι] [DecidableEq K] in
theorem HasTables.of_sameLocal (h : HasTables d g) (hsame : SameLocal d g g') : HasTables d g' := by
  intro i hi hown
  have hown' : d.owner i = g.id := hown.trans hsame.id_eq
  rw [hsame.partitions_eq i hown']
  exact h i hi hown'

/-- `CHECK_NE(b, -1)` or `CHECK_GT(size, 0)` has failed. -/
def IsTableCheck (e : Fault K) : Prop := e = .checkSize ∨ ∃ k, e = .noEntry k

omit [DecidableEq ι] [DecidableEq K] in
theorem HasTables.onState {f : StateTable K V D → Outcome K (StateTable K V D)}
    (h : HasTables d g) (hi : i < d.numShards) (hown : d.owner i = g.id)
    (hf : ∀ t, Valid d.hash StateTable.Bucket.k t.buckets →
      (∃ t', f t = .ok t' ∧ Valid d.hash StateTable.Bucket.k t'.buckets) ∨
        ∃ e t', f t = .error (e, t') ∧ IsTableCheck e) :
    EndsIn IsTableCheck (HasTables d) (GlobalTable.onState i f g) := by
  obtain ⟨t, hpart, hvalid⟩ := h i hi hown
  rcases hf t hvalid with ⟨t', hok, hvalid'⟩ | ⟨e, t', hstop, he⟩
  · simp only [GlobalTable.onState, hpart, hok]
    intro j hj hown'
    by_cases hji : j = i
    · subst hji
      exact ⟨t', setPartition_self .., hvalid'⟩
    · obtain ⟨t₁, hpart₁, hvalid₁⟩ := h j hj hown'
      exact ⟨t₁, (setPartition_of_ne g hji _).trans hpart₁, hvalid₁⟩
  · simp only [GlobalTable.onState, hpart, hstop]
    exact he

/-- A worker between two calls. -/
def Working (d : TableDescriptor ι K V D) (g : GlobalTable ι K V D) : Prop :=
  Buffered d g ∧ HasTables d g

theorem Working.accumulateF1 (h : Working d g) (k : K) (v : V) :
    EndsIn IsTableCheck (Working d) (GlobalTable.accumulateF1 d k v g) := by
  by_cases hown : d.owner (d.getShard k) = g.id
  · have hlocal : isLocalShard d g (d.getShard k) = true := decide_eq_true hown
    rw [GlobalTable.accumulateF1, if_pos hlocal]
    refine (h.2.onState (d.getShard_lt k) hown fun t hvalid => ?_).imp_of_eq_ok
      fun _ hok ht => ⟨h.1.onState hlocal hok, ht⟩
    obtain ⟨m, hrep⟩ := exists_represents StateTable.Bucket.fields hvalid
    by_cases hk : k ∈ m
    · obtain ⟨r, hr⟩ := Finmap.mem_iff.mp hk
      obtain ⟨t', hok, hrep'⟩ := StateTable.accumulateF1_represents hrep hr d.kern v
      exact .inl ⟨t', hok, hrep'.valid⟩
    · exact .inr ⟨_, _, StateTable.write_of_notMem hrep hk _, .inr ⟨k, rfl⟩⟩
  · obtain ⟨g', hok, hg', -, hsame⟩ := h.1.accumulateF1_remote hown v
    rw [hok]
    exact ⟨hg', h.2.of_sameLocal hsame⟩

theorem Working.handlePutRequest (h : Working d g) (msg : PutMessage ι) :
    EndsIn IsTableCheck (Working d) (GlobalTable.handlePutRequest d msg g) := by
  cases msg with
  | put req =>
    exact endsIn_forEach (I := fun _ => Working d) _
      (fun _ kv _ _ _ h => h.accumulateF1 kv.1 kv.2) h
  | marker source epoch => exact ⟨⟨h.1.hasBuffers, h.1.le_pendingWrites⟩, h.2⟩

theorem Working.put (h : Working d g) (k : K) (v1 v2 : V) (v3 : D)
    (received : List (PutMessage ι)) :
    EndsIn IsTableCheck (Working d) (GlobalTable.put d k v1 v2 v3 received g) := by
  have hput : EndsIn IsTableCheck (Working d) (if isLocalShard d g (d.getShard k) then
      GlobalTable.onState (d.getShard k)
        (StateTable.put d.hash d.kern recursionDepth k v1 v2 v3) g
      else .ok { g with pendingWrites := g.pendingWrites + 1 }) := by
    split_ifs with hlocal
    · have hown : d.owner (d.getShard k) = g.id := of_decide_eq_true hlocal
      refine (h.2.onState (d.getShard_lt k) hown fun t hvalid => ?_).imp_of_eq_ok
        fun _ hok ht => ⟨h.1.onState hlocal hok, ht⟩
      -- a state table grows at most once in a put
      have hends := StateTable.put_ends d.kern 0 k v1 v2 v3 hvalid
      cases hput : StateTable.put d.hash d.kern recursionDepth k v1 v2 v3 t with
      | ok t' => exact .inl ⟨t', rfl, (hends.ok_imp hput).1⟩
      | error e =>
        obtain rfl := hends.error_imp hput
        exact .inr ⟨_, _, rfl, .inl rfl⟩
    · exact ⟨h.1.count, h.2⟩
  exact hput.bind fun _ h => endsIn_forEach (I := fun _ => Working d) _
    (fun _ msg _ _ _ h => h.handlePutRequest msg) h

theorem Working.call (h : Working d g) (c : Call ι K V D) :
    EndsIn IsTableCheck (Working d) (GlobalTable.call d c g) := by
  cases c with
  | put k v1 v2 v3 received => exact h.put k v1 v2 v3 received
  | accumulateF1 k v => exact h.accumulateF1 k v
  | sendUpdates =>
    obtain ⟨g', hok, hg', -, hsame⟩ := h.1.hasBuffers.sendUpdates
    rw [GlobalTable.call, hok]
    exact ⟨hg', h.2.of_sameLocal hsame⟩

/-- A run returns, unless an update is for a key that its local shard has no entry for, or a put
has to grow a shard to `2 ^ 31` buckets. -/
theorem Working.run (h : Working d g) (calls : List (Call ι K V D)) :
    EndsIn IsTableCheck (Working d) (forEach (GlobalTable.call d) calls g) :=
  endsIn_forEach (I := fun _ => Working d) calls (fun _ c _ _ _ h => h.call c) h

end GlobalTable

end MaiterStore
