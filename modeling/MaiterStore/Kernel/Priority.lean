/-
# The scheduling priorities

Every bucket of a `StateTable` has a `priority` that the scheduler picks vertices by. The
calls that change `F1` set it, `accumulateF2` does not, and `updateF1` sets it to `0`
without asking the kernel (`kernel/statetable.h`). Inside `run_iter` the priority of the
vertex is therefore off, from `process_delta_v` to the reset of the delta.

The three writes of `run_iter` go to one bucket, so they are one write, and this one leaves
the delta at the default and the priority at `0`. For a kernel that gives the default delta
the priority `0`, all buckets agree with the kernel before and after it.
-/

import MaiterStore.Kernel.InitTable
import MaiterStore.Kernel.Kernel

namespace MaiterStore

open CS.LinearProbing CS.Run

namespace StateTable

variable {K V D : Type*}

/-- The priority is the one the kernel computes from the value and the delta. -/
def Bucket.Coherent (kern : IterateKernel K V D) (b : Bucket K V D) : Prop :=
  b.priority = kern.priority b.v2 b.v1

/-- Every bucket in use is coherent. -/
def Coherent (kern : IterateKernel K V D) (t : StateTable K V D) : Prop :=
  ∀ pos b, cellAt t.buckets pos = some b → b.Coherent kern

variable {kern : IterateKernel K V D} {t t' : StateTable K V D}

theorem coherent_cleared (kern : IterateKernel K V D) (n updates : ℕ) :
    Coherent kern (cleared n updates) := by
  intro pos b hb
  rw [cleared, cellAt_replicate] at hb
  cases hb

theorem Coherent.set (ht : Coherent kern t) (pos : ℕ) {b : Bucket K V D} (hb : b.Coherent kern)
    (entries updates : ℕ) : Coherent kern ⟨t.buckets.set pos (some b), entries, updates⟩ := by
  intro pos' b' hb'
  by_cases hpos : pos' = pos
  · subst hpos
    have hlt : pos' < t.buckets.length := by
      have := lt_length_of_cellAt hb'
      rwa [List.length_set] at this
    rw [cellAt_set_self hlt] at hb'
    obtain rfl := Option.some.inj hb'
    exact hb
  · rw [cellAt_set_of_ne hpos] at hb'
    exact ht pos' b' hb'

/-! ## `put` and `resize` -/

theorem resizeWith_coherent {put : K → V → V → D → StateTable K V D → Outcome K (StateTable K V D)}
    (hput : ∀ k v1 v2 v3 t t', Coherent kern t → put k v1 v2 v3 t = .ok t' → Coherent kern t')
    {size : ℕ} (ht : Coherent kern t) (hok : resizeWith put size t = .ok t') :
    Coherent kern t' := by
  rw [resizeWith] at hok
  split_ifs at hok
  · obtain rfl := Except.ok.inj hok
    exact ht
  · rw [reinsert_eq_forEach] at hok
    refine forEach_invariant (fun b t t' => ?_) (coherent_cleared kern _ _) hok
    exact hput b.k b.v1 b.v2 b.v3 t t'

variable [DecidableEq K] {hash : K → ℕ} {k : K}

omit [DecidableEq K] in
theorem coherent_fill (kern : IterateKernel K V D) (k : K) (v1 v2 : V) (v3 : D) :
    (fill kern k v1 v2 v3).Coherent kern := rfl

/-- A put asks the kernel for the priority, also in the puts of a resize. -/
theorem put_coherent (fuel : ℕ) {k : K} {v1 v2 : V} {v3 : D} (ht : Coherent kern t)
    (hok : put hash kern fuel k v1 v2 v3 t = .ok t') : Coherent kern t' := by
  induction fuel generalizing k v1 v2 v3 t t' with
  | zero => cases hok
  | succ fuel ih =>
    rw [put] at hok
    split_ifs at hok
    · obtain rfl := Except.ok.inj hok
      exact ht.set _ (coherent_fill kern k v1 v2 v3) _ _
    · obtain ⟨t₁, hok₁, hrest⟩ := bind_eq_ok.mp hok
      obtain ⟨t₂, hok₂, hlast⟩ := bind_eq_ok.mp hrest
      obtain rfl := Except.ok.inj hlast
      have ht₁ : Coherent kern t₁ := resizeWith_coherent (fun _ _ _ _ _ _ => ih) ht hok₁
      have ht₂ : Coherent kern t₂ := ih ht₁ hok₂
      exact ht₂
    · obtain rfl := Except.ok.inj hok
      exact ht.set _ (coherent_fill kern k v1 v2 v3) _ _

theorem resize_coherent {fuel size : ℕ} (ht : Coherent kern t)
    (hok : resize hash kern fuel size t = .ok t') : Coherent kern t' :=
  resizeWith_coherent (fun _ _ _ _ _ _ => put_coherent fuel) ht hok

/-! ## Writing to one bucket -/

section Write

variable {change first : Bucket K V D → Bucket K V D}

theorem write_coherent (hchange : ∀ b, (change b).Coherent kern) (ht : Coherent kern t)
    (hok : write hash k change t = .ok t') : Coherent kern t' := by
  rw [write] at hok
  split at hok
  · cases hok
  · obtain rfl := Except.ok.inj hok
    exact ht.set _ (hchange _) _ _

theorem accumulateF1_coherent {v : V} (ht : Coherent kern t)
    (hok : accumulateF1 hash kern k v t = .ok t') : Coherent kern t' := by
  refine write_coherent (fun b => ?_) ht hok
  exact rfl

/-- The bucket a write goes to. -/
theorem exists_bucket_of_write (hok : write hash k change t = .ok t') :
    ∃ pos b, bucketForKey hash Bucket.k t.buckets k = some pos ∧ cellAt t.buckets pos = some b ∧
      t' = { t with buckets := t.buckets.set pos (some (change b)) } := by
  rw [write, checkedBucket] at hok
  cases hpos : bucketForKey hash Bucket.k t.buckets k with
  | none => simp [hpos] at hok
  | some pos =>
    cases hb : cellAt t.buckets pos with
    | none => simp [hpos, hb] at hok
    | some b =>
      simp only [hpos, hb] at hok
      exact ⟨pos, b, rfl, hb, (Except.ok.inj hok).symm⟩

theorem write_of_bucket {pos : ℕ} {b : Bucket K V D}
    (hpos : bucketForKey hash Bucket.k t.buckets k = some pos) (hb : cellAt t.buckets pos = some b)
    (change : Bucket K V D → Bucket K V D) :
    write hash k change t = .ok { t with buckets := t.buckets.set pos (some (change b)) } := by
  simp only [write, checkedBucket, hpos, hb]

/-- Two writes under a key in a row are one. -/
theorem write_write (hok : write hash k first t = .ok t') (hfirst : ∀ b, (first b).k = b.k) :
    write hash k change t' = write hash k (fun b => change (first b)) t := by
  obtain ⟨pos, b, hpos, hb, rfl⟩ := exists_bucket_of_write hok
  have hpos' : bucketForKey hash Bucket.k (t.buckets.set pos (some (first b))) k = some pos := by
    rw [bucketForKey, find_set_of_key_eq hb (hfirst b), ← hpos, bucketForKey]
  rw [write_of_bucket hpos hb, write_of_bucket hpos' (cellAt_set_self (lt_length_of_cellAt hb))]
  simp only [List.set_set]

end Write

end StateTable

namespace GlobalTable

variable {ι K V D : Type*} {d : TableDescriptor ι K V D}

/-- The state tables of a worker are coherent. -/
def Coherent (d : TableDescriptor ι K V D) (g : GlobalTable ι K V D) : Prop :=
  ∀ i t, g.partitions i = .state t → t.Coherent d.kern

variable {g g' : GlobalTable ι K V D} {i : ℕ}

theorem Coherent.setState (hg : Coherent d g) {t : StateTable K V D} (ht : t.Coherent d.kern) :
    Coherent d (g.setPartition i (.state t)) := by
  intro j t' hpart
  by_cases hj : j = i
  · subst hj
    rw [setPartition_self] at hpart
    exact Partition.state.inj hpart ▸ ht
  · rw [setPartition_of_ne g hj] at hpart
    exact hg j t' hpart

theorem Coherent.setDelta (hg : Coherent d g) (t : DeltaTable K V) :
    Coherent d (g.setPartition i (.delta t)) := by
  intro j t' hpart
  by_cases hj : j = i
  · subst hj
    rw [setPartition_self] at hpart
    cases hpart
  · rw [setPartition_of_ne g hj] at hpart
    exact hg j t' hpart

theorem exists_state_of_onState {call : StateTable K V D → Outcome K (StateTable K V D)}
    (hok : onState i call g = .ok g') :
    ∃ t t', g.partitions i = .state t ∧ call t = .ok t' ∧ g' = g.setPartition i (.state t') := by
  rw [onState] at hok
  cases hpart : g.partitions i with
  | delta t => simp [hpart] at hok
  | state t =>
    cases hcall : call t with
    | error e => simp [hpart, hcall] at hok
    | ok t' =>
      simp only [hpart, hcall] at hok
      exact ⟨t, t', rfl, hcall, (Except.ok.inj hok).symm⟩

theorem onState_coherent {call : StateTable K V D → Outcome K (StateTable K V D)}
    (hcall : ∀ t t', t.Coherent d.kern → call t = .ok t' → t'.Coherent d.kern)
    (hg : Coherent d g) (hok : onState i call g = .ok g') : Coherent d g' := by
  obtain ⟨t, t', hpart, hcall', rfl⟩ := exists_state_of_onState hok
  exact hg.setState (hcall t t' (hg i t hpart) hcall')

theorem onDelta_coherent {call : DeltaTable K V → Outcome K (DeltaTable K V)}
    (hg : Coherent d g) (hok : onDelta i call g = .ok g') : Coherent d g' := by
  rw [onDelta] at hok
  split at hok
  · cases hok
  · split at hok
    · cases hok
    · obtain rfl := Except.ok.inj hok
      exact hg.setDelta _

variable [DecidableEq ι] [DecidableEq K]

omit [DecidableEq K] in
theorem isLocalShard_setPartition (part : Partition K V D) (j : ℕ) :
    isLocalShard d (g.setPartition i part) j = isLocalShard d g j := rfl

omit [DecidableEq ι] in
theorem sendLoop_partitions {rounds : ℕ} {t : DeltaTable K V}
    {r : DeltaTable K V × GlobalTable ι K V D}
    (hok : sendLoop d i rounds t g = .ok r) : r.2.partitions = g.partitions := by
  induction rounds generalizing t g with
  | zero => cases hok
  | succ rounds ih =>
    rw [sendLoop] at hok
    obtain ⟨kvData, -, hrest⟩ := bind_eq_ok.mp hok
    split at hrest
    · cases hrest
    · simp only at hrest
      split_ifs at hrest
      · obtain rfl := Except.ok.inj hrest
        rfl
      · exact (ih hrest).trans rfl

theorem sendShard_coherent (hg : Coherent d g) (hok : sendShard d i g = .ok g') :
    Coherent d g' := by
  rw [sendShard] at hok
  split_ifs at hok
  · split at hok
    · cases hok
    · obtain ⟨r, hloop, hrest⟩ := bind_eq_ok.mp hok
      obtain rfl := Except.ok.inj hrest
      have hr : Coherent d r.2 := by
        rw [Coherent, sendLoop_partitions hloop]
        exact hg
      exact hr.setDelta _
  · obtain rfl := Except.ok.inj hok
    exact hg

theorem sendUpdates_coherent (hg : Coherent d g) (hok : sendUpdates d g = .ok g') :
    Coherent d g' := by
  obtain ⟨g₁, hloop, hrest⟩ := bind_eq_ok.mp hok
  obtain rfl := Except.ok.inj hrest
  have hg₁ : Coherent d g₁ := forEach_invariant (fun _ _ _ => sendShard_coherent) hg hloop
  exact hg₁

theorem accumulateF1_coherent {k : K} {v : V} (hg : Coherent d g)
    (hok : accumulateF1 d k v g = .ok g') : Coherent d g' := by
  rw [accumulateF1] at hok
  split_ifs at hok
  · exact onState_coherent (fun _ _ => StateTable.accumulateF1_coherent) hg hok
  · obtain ⟨g₁, hbuffer, hrest⟩ := bind_eq_ok.mp hok
    have hg₁ : Coherent d g₁ := onDelta_coherent hg hbuffer
    simp only at hrest
    split_ifs at hrest
    · exact sendUpdates_coherent (g := { g₁ with pendingWrites := g₁.pendingWrites + 1 }) hg₁ hrest
    · obtain rfl := Except.ok.inj hrest
      exact hg₁

theorem applyUpdates_coherent {req : KVPairData ι} (hg : Coherent d g)
    (hok : applyUpdates d req g = .ok g') : Coherent d g' :=
  forEach_invariant (fun _ _ _ => accumulateF1_coherent) hg hok

end GlobalTable

namespace MaiterKernel1

variable {ι K V D : Type*} [DecidableEq ι] [DecidableEq K] {d : TableDescriptor ι K V D}
  {m m' : MaiterKernel1 ι K V D}

theorem put_coherent {k : K} {v1 v2 : V} {v3 : D} (hm : m.table.Coherent d)
    (hok : m.put d k v1 v2 v3 = .ok m') : m'.table.Coherent d := by
  rw [put] at hok
  simp only at hok
  split_ifs at hok
  · split at hok
    · cases hok
    · next t hpart =>
      split at hok
      · cases hok
      · next t' hput =>
        obtain rfl := Except.ok.inj hok
        exact hm.setState (StateTable.put_coherent _ (hm _ t hpart) hput)
  · obtain rfl := Except.ok.inj hok
    exact hm

theorem createLocal_coherent {i : ℕ} (hm : m.table.Coherent d) (hok : m.createLocal d i = .ok m') :
    m'.table.Coherent d := by
  rw [createLocal] at hok
  split_ifs at hok
  · split at hok
    · cases hok
    · next t hnew =>
      obtain rfl := Except.ok.inj hok
      rw [(StateTable.eq_cleared_of_new hnew).2.2]
      exact hm.setState (StateTable.coherent_cleared d.kern _ _)
  · obtain rfl := Except.ok.inj hok
    exact hm

theorem initStateTable_coherent (hm : m.table.Coherent d) (hok : m.initStateTable d = .ok m') :
    m'.table.Coherent d := by
  obtain ⟨m₁, hloop, rfl⟩ := map_eq_ok.mp hok
  exact forEach_invariant (I := fun m => m.table.Coherent d)
    (fun _ _ _ => createLocal_coherent) hm hloop

theorem resizeShard_coherent {size i : ℕ} (hm : m.table.Coherent d)
    (hok : m.resizeShard d size i = .ok m') : m'.table.Coherent d := by
  rw [resizeShard] at hok
  split_ifs at hok
  · split at hok
    · next t hpart =>
      split at hok
      · cases hok
      · next t' hresize =>
        obtain rfl := Except.ok.inj hok
        exact hm.setState (StateTable.resize_coherent (hm i t hpart) hresize)
    · split at hok
      · cases hok
      · obtain rfl := Except.ok.inj hok
        exact hm.setDelta _
  · obtain rfl := Except.ok.inj hok
    exact hm

end MaiterKernel1

namespace MaiterKernel2

variable {ι K V D : Type*} [DecidableEq ι] [DecidableEq K] (d : TableDescriptor ι K V D)

/-- `run_iter(k, v1, v2, v3)` with the put requests that the `HandlePutRequests` of its
`updateF1` finds. -/
def runIterWith (k : K) (data : D) (reqs : List (KVPairData ι)) (m : MaiterKernel2 ι K V D) :
    Except (Fault K) (MaiterKernel2 ι K V D) :=
  (absorb d k data m).bind fun m₁ =>
    (forEach (GlobalTable.applyUpdates d) reqs m₁.table).bind fun g =>
      forEach (fun _ => spread d) m₁.output ⟨g, m₁.output⟩

/-- What a worker does to its table. The requests handled at the end of a `put` are
applied by actions that follow it. -/
inductive Action (ι K V D : Type*)
  | initStateTable
  | put (k : K) (v1 v2 : V) (v3 : D)
  | resize (size i : ℕ)
  | runIter (k : K) (data : D) (reqs : List (KVPairData ι))
  | applyUpdates (req : KVPairData ι)
  | sendUpdates

/-- A call of the first kernel on the table. -/
def onTable (call : MaiterKernel1 ι K V D → Except (Fault K) (MaiterKernel1 ι K V D))
    (m : MaiterKernel2 ι K V D) : Except (Fault K) (MaiterKernel2 ι K V D) :=
  (call ⟨m.table, true, []⟩).map fun m₁ => { m with table := m₁.table }

def act : Action ι K V D → MaiterKernel2 ι K V D → Except (Fault K) (MaiterKernel2 ι K V D)
  | .initStateTable, m => onTable (MaiterKernel1.initStateTable d) m
  | .put k v1 v2 v3, m => onTable (MaiterKernel1.put d k v1 v2 v3) m
  | .resize size i, m => onTable (MaiterKernel1.resizeShard d size i) m
  | .runIter k data reqs, m => runIterWith d k data reqs m
  | .applyUpdates req, m => (m.table.applyUpdates d req).map fun g => { m with table := g }
  | .sendUpdates, m => (m.table.sendUpdates d).map fun g => { m with table := g }

variable {d} {k : K} {data : D} {m m' : MaiterKernel2 ι K V D}

/-- Up to the reset of the delta, `run_iter` is one write to the bucket of the vertex. -/
theorem absorb_eq_write (hok : absorb d k data m = .ok m') :
    ∃ t t' change, m.table.partitions (d.getShard k) = .state t ∧
      StateTable.write d.hash k change t = .ok t' ∧
      (∀ b, (change b).v1 = d.kern.defaultV ∧ (change b).priority = d.kern.zero) ∧
      m'.table.partitions = Function.update m.table.partitions (d.getShard k)
        (.state { t' with totalUpdates := t'.totalUpdates + 1 }) := by
  obtain ⟨refs, -, hok⟩ := bind_eq_ok.mp hok
  obtain ⟨g₁, hprocess, hok⟩ := bind_eq_ok.mp hok
  obtain ⟨g₂, haccumulate, hok⟩ := bind_eq_ok.mp hok
  obtain ⟨refs', -, hok⟩ := bind_eq_ok.mp hok
  obtain ⟨g₃, hupdate, hok⟩ := bind_eq_ok.mp hok
  obtain rfl := Except.ok.inj hok
  obtain ⟨t, t₁, hpart, hwrite₁, rfl⟩ := GlobalTable.exists_state_of_onState hprocess
  rw [GlobalTable.accumulateF2] at haccumulate
  split_ifs at haccumulate with hlocal
  · obtain ⟨_, t₂, hpart₁, hwrite₂, rfl⟩ := GlobalTable.exists_state_of_onState haccumulate
    rw [GlobalTable.setPartition_self] at hpart₁
    obtain rfl := Partition.state.inj hpart₁
    rw [GlobalTable.updateF1, GlobalTable.isLocalShard_setPartition, if_pos hlocal] at hupdate
    obtain ⟨_, t₃, hpart₂, hupdate₃, rfl⟩ := GlobalTable.exists_state_of_onState hupdate
    rw [GlobalTable.setPartition_self] at hpart₂
    obtain rfl := Partition.state.inj hpart₂
    obtain ⟨t', hwrite₃, hlast⟩ := bind_eq_ok.mp hupdate₃
    obtain rfl := Except.ok.inj hlast
    rw [StateTable.accumulateF2, StateTable.write_write hwrite₁ fun _ => rfl] at hwrite₂
    rw [StateTable.write_write hwrite₂ fun _ => rfl] at hwrite₃
    refine ⟨t, t', _, hpart, hwrite₃, fun b => ⟨rfl, rfl⟩, ?_⟩
    simp only [GlobalTable.setPartition, Function.update_idem]
  -- a vertex of another worker has no state table here
  · obtain rfl := Except.ok.inj haccumulate
    rw [GlobalTable.updateF1, if_neg hlocal] at hupdate
    simp [GlobalTable.onDelta, GlobalTable.setPartition_self] at hupdate

theorem absorb_coherent (hzero : ∀ v, d.kern.priority v d.kern.defaultV = d.kern.zero)
    (hm : m.table.Coherent d) (hok : absorb d k data m = .ok m') : m'.table.Coherent d := by
  obtain ⟨t, t', change, hpart, hwrite, hchange, hparts⟩ := absorb_eq_write hok
  have hcoherent : ∀ b, (change b).Coherent d.kern := by
    intro b
    rw [StateTable.Bucket.Coherent, (hchange b).1, (hchange b).2, hzero]
  have ht' : t'.Coherent d.kern := StateTable.write_coherent hcoherent (hm _ t hpart) hwrite
  rw [GlobalTable.Coherent, hparts]
  exact hm.setState (t := { t' with totalUpdates := t'.totalUpdates + 1 }) ht'

theorem spread_coherent (hm : m.table.Coherent d) (hok : spread d m = .ok m') :
    m'.table.Coherent d := by
  rw [spread] at hok
  split at hok
  · obtain rfl := Except.ok.inj hok
    exact hm
  · obtain ⟨g, haccumulate, hrest⟩ := bind_eq_ok.mp hok
    obtain rfl := Except.ok.inj hrest
    exact GlobalTable.accumulateF1_coherent hm haccumulate

omit [DecidableEq ι] [DecidableEq K] in
theorem onTable_coherent {call : MaiterKernel1 ι K V D → Except (Fault K) (MaiterKernel1 ι K V D)}
    (hcall : ∀ m₁ m₂, m₁.table.Coherent d → call m₁ = .ok m₂ → m₂.table.Coherent d)
    (hm : m.table.Coherent d) (hok : onTable call m = .ok m') : m'.table.Coherent d := by
  obtain ⟨m₁, hcall', rfl⟩ := map_eq_ok.mp hok
  exact hcall _ m₁ hm hcall'

/-- Every action keeps the priorities coherent. -/
theorem act_coherent (hzero : ∀ v, d.kern.priority v d.kern.defaultV = d.kern.zero)
    {a : Action ι K V D} (hm : m.table.Coherent d) (hok : act d a m = .ok m') :
    m'.table.Coherent d := by
  cases a with
  | initStateTable =>
    exact onTable_coherent (fun _ _ => MaiterKernel1.initStateTable_coherent) hm hok
  | put k v1 v2 v3 => exact onTable_coherent (fun _ _ => MaiterKernel1.put_coherent) hm hok
  | resize size i => exact onTable_coherent (fun _ _ => MaiterKernel1.resizeShard_coherent) hm hok
  | runIter k data reqs =>
    obtain ⟨m₁, habsorb, hok⟩ := bind_eq_ok.mp hok
    obtain ⟨g, hreqs, hok⟩ := bind_eq_ok.mp hok
    have hm₁ : m₁.table.Coherent d := absorb_coherent hzero hm habsorb
    have hg : g.Coherent d :=
      forEach_invariant (fun _ _ _ => GlobalTable.applyUpdates_coherent) hm₁ hreqs
    exact forEach_invariant (I := fun m : MaiterKernel2 ι K V D => m.table.Coherent d)
      (fun _ _ _ => spread_coherent) hg hok
  | applyUpdates req =>
    obtain ⟨g, happly, rfl⟩ := map_eq_ok.mp hok
    exact GlobalTable.applyUpdates_coherent hm happly
  | sendUpdates =>
    obtain ⟨g, hsend, rfl⟩ := map_eq_ok.mp hok
    exact GlobalTable.sendUpdates_coherent hm hsend

/-- **Priorities are coherent between the calls.** For a kernel whose priority of the
default delta is `0`, after any calls on a worker that started without a state table, the
priority of every bucket in use is what the kernel computes from its value and delta. -/
theorem priorities_coherent (hzero : ∀ v, d.kern.priority v d.kern.defaultV = d.kern.zero)
    {m₀ : MaiterKernel2 ι K V D} (hinit : ∀ i, ∃ t, m₀.table.partitions i = .delta t)
    {actions : List (Action ι K V D)} (hrun : forEach (act d) actions m₀ = .ok m) {i pos : ℕ}
    {t : StateTable K V D} {b : StateTable.Bucket K V D} (hpart : m.table.partitions i = .state t)
    (hb : cellAt t.buckets pos = some b) : b.priority = d.kern.priority b.v2 b.v1 := by
  have hstart : m₀.table.Coherent d := by
    intro j t' hpart'
    obtain ⟨t₀, ht₀⟩ := hinit j
    rw [ht₀] at hpart'
    cases hpart'
  have hm : m.table.Coherent d := forEach_invariant
    (I := fun m : MaiterKernel2 ι K V D => m.table.Coherent d) (fun _ _ _ => act_coherent hzero)
    hstart hrun
  exact hm i t hpart pos b hb

/-- Vertices whose data lists their neighbours, the even ones on worker `0`. -/
def evenOdd : TableDescriptor ℕ ℕ ℕ Bytes where
  numShards := 2
  getShard k := k % 2
  getShard_lt k := Nat.mod_lt k (by decide)
  owner i := i
  hash k := k
  kern := sumKernel fun data => data.map UInt8.toNat
  marshals := unaryMarshals
  bufmsg := 10

/-- Vertex `0` passes its delta to itself and to `1` and `2`, after a request for it has
been handled in the middle. -/
theorem priorities_coherent_self_loop :
    (∀ v, evenOdd.kern.priority v evenOdd.kern.defaultV = evenOdd.kern.zero) ∧
      ∃ m t b, forEach (act evenOdd)
          [.initStateTable, .resize 2 0, .put 0 5 0 [], .put 2 1 0 [],
            .runIter 0 [0, 2, 1] [⟨1, 0, 0, true, [([], [0, 0])]⟩]]
          ⟨⟨0, 0, fun _ => .delta (.cleared 1), fun _ => false, 0, []⟩, []⟩ = .ok m ∧
        m.table.partitions 0 = .state t ∧ cellAt t.buckets 0 = some b ∧ b.k = 0 ∧ b.v1 = 7 ∧
        b.priority = evenOdd.kern.priority b.v2 b.v1 := by
  have hrun : ∃ m t b, forEach (act evenOdd)
      [.initStateTable, .resize 2 0, .put 0 5 0 [], .put 2 1 0 [],
        .runIter 0 [0, 2, 1] [⟨1, 0, 0, true, [([], [0, 0])]⟩]]
      ⟨⟨0, 0, fun _ => .delta (.cleared 1), fun _ => false, 0, []⟩, []⟩ = .ok m ∧
      m.table.partitions 0 = .state t ∧ cellAt t.buckets 0 = some b ∧ b.k = 0 ∧ b.v1 = 7 :=
    ⟨_, _, _, rfl, rfl, rfl, rfl, rfl⟩
  obtain ⟨m, t, b, hok, hpart, hb, hk, hv1⟩ := hrun
  exact ⟨fun _ => rfl, m, t, b, hok, hpart, hb, hk, hv1,
    priorities_coherent (fun _ => rfl) (fun _ => ⟨_, rfl⟩) hok hpart hb⟩

end MaiterKernel2

end MaiterStore
