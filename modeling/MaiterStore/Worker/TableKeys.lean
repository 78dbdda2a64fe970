/-
# The keys stay in their buckets

While the workers iterate, no state table gains, loses or moves a key: all calls of `run_iter`,
`SendUpdates` and `ApplyUpdates` write to buckets in use and leave their keys alone. This holds for
every action of a run that returns, whatever the kernel. An iterator over a table is therefore never
upset by what happens to the table meanwhile.
-/

import MaiterStore.Kernel.Priority
import MaiterStore.Kernel.TablePass
import MaiterStore.Worker.Propagation

namespace MaiterStore

open CS.LinearProbing CS.Run

/-! ## State tables -/

namespace StateTable

variable {K V D : Type*} {t t' : StateTable K V D}

/-- The key in each bucket. -/
def keyCells (t : StateTable K V D) : List (Option K) := t.buckets.map (Option.map Bucket.k)

theorem layout_of_keyCells (h : t'.keyCells = t.keyCells) : t'.layout = t.layout := by
  have hmap : ∀ t : StateTable K V D, t.layout = t.keyCells.map Option.isSome := by
    intro t
    rw [layout, keyCells, List.map_map]
    apply List.map_congr_left
    intro cell _
    exact (Option.isSome_map (f := Bucket.k)).symm
  rw [hmap, hmap, h]

theorem key_of_keyCells (h : t'.keyCells = t.keyCells) (pos : ℕ) :
    (cellAt t'.buckets pos).map Bucket.k = (cellAt t.buckets pos).map Bucket.k := by
  have hcell : ∀ t : StateTable K V D,
      (cellAt t.buckets pos).map Bucket.k = cellAt t.keyCells pos := by
    intro t
    rw [cellAt, cellAt, keyCells, List.getElem?_map]
    rcases t.buckets[pos]? with - | - | b <;> rfl
  rw [hcell, hcell, h]

variable [DecidableEq K] {hash : K → ℕ} {k : K}

theorem keyCells_write {change : Bucket K V D → Bucket K V D} (hchange : ∀ b, (change b).k = b.k)
    (hok : write hash k change t = .ok t') : t'.keyCells = t.keyCells := by
  obtain ⟨pos, b, -, hb, rfl⟩ := exists_bucket_of_write hok
  have hpos : t.keyCells[pos]? = some (some b.k) := by
    rw [keyCells, List.getElem?_map, cellAt_eq_some_iff.mp hb]
    rfl
  obtain ⟨hlt, hget⟩ := List.getElem?_eq_some_iff.mp hpos
  calc (t.buckets.set pos (some (change b))).map (Option.map Bucket.k)
      = t.keyCells.set pos (some (change b).k) := List.map_set
    _ = t.keyCells.set pos t.keyCells[pos] := by rw [hget, hchange]
    _ = t.keyCells := List.set_getElem_self hlt

end StateTable

/-! ## The table of a worker -/

/-- The keys of a state table. Buffers come and go. -/
def Partition.keyCells {K V D : Type*} : Partition K V D → Option (List (Option K))
  | .state t => some t.keyCells
  | .delta _ => none

namespace GlobalTable

variable {ι K V D : Type*} {d : TableDescriptor ι K V D} {g g' g'' : GlobalTable ι K V D} {i : ℕ}

/-- The state tables of `g'` are those of `g`, with the same keys in the same buckets. -/
structure SameKeys (g g' : GlobalTable ι K V D) : Prop where
  id_eq : g'.id = g.id
  keyCells_eq : ∀ i, (g'.partitions i).keyCells = (g.partitions i).keyCells

theorem SameKeys.refl (g : GlobalTable ι K V D) : SameKeys g g := ⟨rfl, fun _ => rfl⟩

theorem SameKeys.trans (h : SameKeys g g') (h' : SameKeys g' g'') : SameKeys g g'' :=
  ⟨h'.id_eq.trans h.id_eq, fun i => (h'.keyCells_eq i).trans (h.keyCells_eq i)⟩

theorem SameKeys.exists_state (h : SameKeys g g') {t : StateTable K V D}
    (hpart : g.partitions i = .state t) :
    ∃ t', g'.partitions i = .state t' ∧ t'.keyCells = t.keyCells := by
  have hkeys := h.keyCells_eq i
  rw [hpart] at hkeys
  cases hpart' : g'.partitions i with
  | delta t' =>
    rw [hpart'] at hkeys
    cases hkeys
  | state t' =>
    rw [hpart'] at hkeys
    exact ⟨t', rfl, Option.some.inj hkeys⟩

theorem sameKeys_setPartition {part : Partition K V D}
    (hpart : part.keyCells = (g.partitions i).keyCells) : SameKeys g (g.setPartition i part) := by
  refine ⟨rfl, fun j => ?_⟩
  by_cases hj : j = i
  · rw [hj, setPartition_self, hpart]
  · rw [setPartition_of_ne g hj]

theorem onState_sameKeys {call : StateTable K V D → Outcome K (StateTable K V D)}
    (hcall : ∀ t t', call t = .ok t' → t'.keyCells = t.keyCells) (hok : onState i call g = .ok g') :
    SameKeys g g' := by
  obtain ⟨t, t', hpart, hcall', rfl⟩ := exists_state_of_onState hok
  apply sameKeys_setPartition
  rw [hpart]
  exact congrArg some (hcall t t' hcall')

theorem onDelta_sameKeys {call : DeltaTable K V → Outcome K (DeltaTable K V)}
    (hok : onDelta i call g = .ok g') : SameKeys g g' := by
  rw [onDelta] at hok
  split at hok
  · cases hok
  · next t hpart =>
    split at hok
    · cases hok
    · obtain rfl := Except.ok.inj hok
      apply sameKeys_setPartition
      rw [hpart]
      rfl

variable [DecidableEq ι] [DecidableEq K]

omit [DecidableEq ι] in
theorem sendLoop_id {rounds : ℕ} {t : DeltaTable K V} {r : DeltaTable K V × GlobalTable ι K V D}
    (hok : sendLoop d i rounds t g = .ok r) : r.2.id = g.id := by
  induction rounds generalizing t g with
  | zero => cases hok
  | succ rounds ih =>
    rw [sendLoop] at hok
    obtain ⟨kvData, -, hrest⟩ := bind_eq_ok.mp hok
    split at hrest
    · cases hrest
    · simp only at hrest
      split_ifs at hrest
      · obtain rfl := Except.ok.inj hrest
        rfl
      · exact (ih hrest).trans rfl

theorem sendShard_sameKeys (hok : sendShard d i g = .ok g') : SameKeys g g' := by
  rw [sendShard] at hok
  split_ifs at hok
  · split at hok
    · cases hok
    · next t hpart =>
      obtain ⟨r, hloop, hrest⟩ := bind_eq_ok.mp hok
      obtain rfl := Except.ok.inj hrest
      have hsame : SameKeys g r.2 :=
        ⟨sendLoop_id hloop, fun j => by rw [sendLoop_partitions hloop]⟩
      apply hsame.trans (sameKeys_setPartition _)
      rw [sendLoop_partitions hloop, hpart]
      rfl
  · obtain rfl := Except.ok.inj hok
    exact .refl g

theorem sendUpdates_sameKeys (hok : sendUpdates d g = .ok g') : SameKeys g g' := by
  obtain ⟨g₁, hloop, hrest⟩ := bind_eq_ok.mp hok
  obtain rfl := Except.ok.inj hrest
  have hg₁ : SameKeys g g₁ :=
    forEach_invariant (fun _ _ _ h hok => h.trans (sendShard_sameKeys hok)) (.refl g) hloop
  exact ⟨hg₁.id_eq, hg₁.keyCells_eq⟩

theorem accumulateF1_sameKeys {k : K} {v : V} (hok : accumulateF1 d k v g = .ok g') :
    SameKeys g g' := by
  rw [accumulateF1] at hok
  split_ifs at hok
  · apply onState_sameKeys (fun t t' hcall => ?_) hok
    refine StateTable.keyCells_write (fun b => ?_) hcall
    rfl
  · obtain ⟨g₁, hbuffer, hrest⟩ := bind_eq_ok.mp hok
    have hg₁ : SameKeys g { g₁ with pendingWrites := g₁.pendingWrites + 1 } :=
      ⟨(onDelta_sameKeys hbuffer).id_eq, (onDelta_sameKeys hbuffer).keyCells_eq⟩
    simp only at hrest
    split_ifs at hrest
    · exact hg₁.trans (sendUpdates_sameKeys hrest)
    · obtain rfl := Except.ok.inj hrest
      exact hg₁

theorem accumulateF2_sameKeys {k : K} {v : V} (hok : accumulateF2 d k v g = .ok g') :
    SameKeys g g' := by
  rw [accumulateF2] at hok
  split_ifs at hok
  · apply onState_sameKeys (fun t t' hcall => ?_) hok
    refine StateTable.keyCells_write (fun b => ?_) hcall
    rfl
  · obtain rfl := Except.ok.inj hok
    exact .refl g

theorem updateF1_sameKeys {k : K} {v : V} (hok : updateF1 d k v g = .ok g') : SameKeys g g' := by
  rw [updateF1] at hok
  split_ifs at hok
  · apply onState_sameKeys (fun t t' hcall => ?_) hok
    obtain ⟨t₁, hwrite, hrest⟩ := bind_eq_ok.mp hcall
    obtain rfl := Except.ok.inj hrest
    have hkeys : t₁.keyCells = t.keyCells := by
      refine StateTable.keyCells_write (fun b => ?_) hwrite
      rfl
    exact hkeys
  · exact onDelta_sameKeys hok

theorem applyUpdates_sameKeys {req : KVPairData ι} (hok : applyUpdates d req g = .ok g') :
    SameKeys g g' :=
  forEach_invariant (fun _ _ _ h hok => h.trans (accumulateF1_sameKeys hok)) (.refl g) hok

end GlobalTable

/-! ## Runs of all workers -/

namespace MaiterKernel2

variable {ι K V D : Type*} [DecidableEq ι] [DecidableEq K] {d : TableDescriptor ι K V D}
  {m m' : MaiterKernel2 ι K V D}

theorem absorb_sameKeys {k : K} {data : D} (hok : absorb d k data m = .ok m') :
    m.table.SameKeys m'.table := by
  obtain ⟨refs, -, hrest₁⟩ := bind_eq_ok.mp hok
  obtain ⟨g₁, hwrite, hrest₂⟩ := bind_eq_ok.mp hrest₁
  obtain ⟨g₂, haccumulate, hrest₃⟩ := bind_eq_ok.mp hrest₂
  obtain ⟨refs', -, hrest₄⟩ := bind_eq_ok.mp hrest₃
  obtain ⟨g₃, hupdate, hlast⟩ := bind_eq_ok.mp hrest₄
  obtain rfl := Except.ok.inj hlast
  have h₁ : m.table.SameKeys g₁ := by
    refine GlobalTable.onState_sameKeys (fun t t' hcall => ?_) hwrite
    refine StateTable.keyCells_write (fun b => ?_) hcall
    rfl
  exact h₁.trans ((GlobalTable.accumulateF2_sameKeys haccumulate).trans
    (GlobalTable.updateF1_sameKeys hupdate))

theorem spread_sameKeys (hok : spread d m = .ok m') : m.table.SameKeys m'.table := by
  rw [spread] at hok
  split at hok
  · obtain rfl := Except.ok.inj hok
    exact .refl _
  · obtain ⟨g, haccumulate, hlast⟩ := bind_eq_ok.mp hok
    obtain rfl := Except.ok.inj hlast
    exact GlobalTable.accumulateF1_sameKeys haccumulate

end MaiterKernel2

namespace Cluster

variable {ι K V D : Type*} [DecidableEq ι] [DecidableEq K] {d : TableDescriptor ι K V D}
  {store : K → D} {s s' s'' : Cluster ι K V D}

/-- On every worker the same keys are in the same buckets. -/
def SameKeys (s s' : Cluster ι K V D) : Prop :=
  ∀ w, (s.kernels w).table.SameKeys (s'.kernels w).table

omit [DecidableEq ι] [DecidableEq K] in
theorem SameKeys.refl (s : Cluster ι K V D) : SameKeys s s := fun _ => .refl _

omit [DecidableEq ι] [DecidableEq K] in
theorem SameKeys.trans (h : SameKeys s s') (h' : SameKeys s' s'') : SameKeys s s'' :=
  fun w => (h w).trans (h' w)

omit [DecidableEq K] in
theorem sameKeys_setKernel {w : ι} {m : MaiterKernel2 ι K V D}
    (hm : (s.kernels w).table.SameKeys m.table) : SameKeys s (s.setKernel w m) := by
  intro v
  by_cases hv : v = w
  · subst hv
    rwa [setKernel_self]
  · rw [setKernel_of_ne hv]
    exact .refl _

variable [AddCommMonoid V]

omit [AddCommMonoid V] in
theorem deliver_sameKeys {w : ι} {n : ℕ} {msg : ι × KVPairData ι}
    (hok : deliver d w n msg s = .ok s') : SameKeys s s' := by
  obtain ⟨g, happly, hlast⟩ := bind_eq_ok.mp hok
  obtain rfl := Except.ok.inj hlast
  let src : MaiterKernel2 ι K V D := { s.kernels w with
    table := { (s.kernels w).table with sent := (s.kernels w).table.sent.eraseIdx n } }
  have hsrc : SameKeys s (s.setKernel w src) := sameKeys_setKernel ⟨rfl, fun _ => rfl⟩
  refine hsrc.trans (sameKeys_setKernel ?_)
  exact GlobalTable.applyUpdates_sameKeys happly

/-- **No action moves a key.** -/
theorem step_sameKeys {act : Action ι K} (hok : step d store act s = .ok s') : SameKeys s s' := by
  cases act with
  | absorb w k =>
    rw [step] at hok
    simp only at hok
    split_ifs at hok
    · obtain ⟨m', habsorb, hlast⟩ := bind_eq_ok.mp hok
      obtain rfl := Except.ok.inj hlast
      exact sameKeys_setKernel (MaiterKernel2.absorb_sameKeys habsorb)
    · obtain rfl := Except.ok.inj hok
      exact .refl s
  | spread w =>
    obtain ⟨m', hspread, hlast⟩ := bind_eq_ok.mp hok
    obtain rfl := Except.ok.inj hlast
    exact sameKeys_setKernel (MaiterKernel2.spread_sameKeys hspread)
  | sendUpdates w =>
    obtain ⟨g, hsend, hlast⟩ := bind_eq_ok.mp hok
    obtain rfl := Except.ok.inj hlast
    exact sameKeys_setKernel (GlobalTable.sendUpdates_sameKeys hsend)
  | applyUpdates w n =>
    rw [step] at hok
    cases hmsg : (s.kernels w).table.sent[n]? with
    | none =>
      rw [hmsg] at hok
      obtain rfl := Except.ok.inj hok
      exact .refl s
    | some msg =>
      rw [hmsg] at hok
      exact deliver_sameKeys hok

theorem run_sameKeys {acts : List (Action ι K)} (hrun : run d store acts s = .ok s') :
    SameKeys s s' :=
  forEach_invariant (fun _ _ _ h hok => h.trans (step_sameKeys hok)) (.refl s) hrun

end Cluster

end MaiterStore
