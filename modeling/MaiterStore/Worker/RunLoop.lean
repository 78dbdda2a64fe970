/-
# The main loop of a worker

`run_loop` (`kernel/kernel.h`) asks for an iterator over its shard again and again, and calls
`run_iter` at every bucket that the iterator comes to. Meanwhile all other workers run too: between
two actions of the loop there may be any actions of theirs, and put requests are handled at any
moment.

Since no key moves, an iterator reads the buckets it would have read when it was made, whatever
happens during its pass. So the loop is a run of the cluster that enters `run_iter` for exactly
these vertices, in their order.
-/

import MaiterStore.Worker.FallbackPass
import MaiterStore.Worker.LeastSolution
import MaiterStore.Worker.TableKeys

namespace MaiterStore

open CS.LinearProbing CS.Run CS.DeltaIteration RemoteIteration StateTable

namespace RemoteIteration.TableIterator

variable {K V D : Type*} {t t' : StateTable K V D} {it : TableIterator} {positions : List ℕ}

/-! ## What an iterator has still to read -/

/-- What `Next()` returns. -/
def nextResult (t : StateTable K V D) : TableIterator → Bool
  | .iterator i => i.nextResult t
  | .scheduled _ _ => true

/-- The positions that a loop over the iterator still comes to. -/
def Remaining (t : StateTable K V D) : TableIterator → List ℕ → Prop
  | .iterator i, positions => ∃ n : ℕ, i.pos = n - 1 ∧ positions = t.inUseFrom n
  | .scheduled pos scheduledPos, positions => ∃ n ≤ scheduledPos.length, pos = (n : ℤ) - 1 ∧
      positions = scheduledPos.drop n ∧ ∀ p ∈ scheduledPos, (cellAt t.buckets p).isSome = true

theorem Remaining.of_layout (h : Remaining t it positions) (hlayout : t'.layout = t.layout) :
    Remaining t' it positions := by
  cases it with
  | iterator i =>
    obtain ⟨n, hpos, hpositions⟩ := h
    exact ⟨n, hpos, hpositions.trans (inUseFrom_of_layout hlayout n).symm⟩
  | scheduled pos scheduledPos =>
    obtain ⟨n, hn, hpos, hpositions, huse⟩ := h
    refine ⟨n, hn, hpos, hpositions, fun p hp => ?_⟩
    rw [isSome_cellAt_of_layout hlayout]
    exact huse p hp

/-- One round: the loop ends and nothing remains, or it reads the first position that remains. -/
theorem Remaining.cases (h : Remaining t it positions) :
    positions = [] ∧ (it.done t = true ∨ it.nextResult t = false) ∨
      ∃ pos rest b, positions = pos :: rest ∧ it.done t = false ∧ it.nextResult t = true ∧
        (it.next t).bucket t = .ok b ∧ cellAt t.buckets pos = some b ∧
        Remaining t (it.next t) rest := by
  cases it with
  | iterator i =>
    obtain ⟨n, hpos, rfl⟩ := h
    -- `Next` stops at the next bucket in use, or at the end of the table
    rcases next_spec (t := t) hpos with
      ⟨q, b, hnq, hq, hnext, hbucket, hcell, hcons⟩ | ⟨-, hnext, hnil⟩
    · refine .inr ⟨q, t.inUseFrom (q + 1), b, hcons, ?_, hnext, ?_, hcell, q + 1, ?_, rfl⟩
      · rw [Bool.eq_false_iff, Ne, done, done_iff hpos]
        have hlt : q < t.size_ := lt_length_of_cellAt hcell
        omega
      · simp only [next, bucket, hbucket]
      · rw [hq]
        push_cast
        ring
    · exact .inl ⟨hnil, .inr hnext⟩
  | scheduled pos scheduledPos =>
    obtain ⟨n, hn, rfl, rfl, huse⟩ := h
    -- `Next` goes to the next entry of the schedule, unless `done` says that there is none
    rcases hn.lt_or_eq with hlt | rfl
    · obtain ⟨b, hb⟩ := Option.isSome_iff_exists.mp (huse _ (List.getElem_mem hlt))
      refine .inr ⟨scheduledPos[n], scheduledPos.drop (n + 1), b, List.drop_eq_getElem_cons hlt, ?_,
        rfl, ?_, hb, n + 1, hlt, by push_cast; ring, rfl, huse⟩
      · rw [done, decide_eq_false_iff_not]
        omega
      · have hnat : ((n : ℤ) - 1 + 1).toNat = n := by omega
        have hnonneg : ¬ ((n : ℤ) - 1 + 1 < 0) := by omega
        simp only [next, bucket, if_neg hnonneg, hnat, List.getElem?_eq_getElem hlt,
          Option.bind_some, hb, Option.elim_some]
    · refine .inl ⟨List.drop_length, .inl ?_⟩
      rw [done, decide_eq_true_eq]
      omega

/-- The iterators that `get_typed_iterator` returns, with what they have to read: one over the
table, one over a schedule, or the one of the summing pass, which is at the end of the table. -/
inductive Start (t : StateTable K V D) : TableIterator → List ℕ → Prop
  | iterator : Start t (.iterator Iterator.new) t.inUse
  | scheduled (scheduledPos : List ℕ) (hsub : scheduledPos.Sublist t.inUse) :
      Start t (.scheduled (-1) scheduledPos) scheduledPos
  | summed (i : Iterator) (n : ℕ) (hsize : t.size_ ≤ n) (hpos : i.pos = n - 1) :
      Start t (.iterator i) []

theorem Start.of_layout (h : Start t it positions) (hlayout : t'.layout = t.layout) :
    Start t' it positions := by
  have hinUse : t.inUse = t'.inUse := (inUseFrom_of_layout hlayout 0).symm
  cases h with
  | iterator =>
    rw [hinUse]
    exact .iterator
  | scheduled _ hsub => exact .scheduled positions (hinUse ▸ hsub)
  | summed i n hsize hpos => exact .summed i n (by rwa [size_of_layout hlayout]) hpos

theorem Start.remaining (h : Start t it positions) : Remaining t it positions := by
  cases h with
  | iterator => exact ⟨0, rfl, rfl⟩
  | scheduled _ hsub =>
    refine ⟨0, Nat.zero_le _, rfl, rfl, fun p hp => ?_⟩
    exact (mem_inUseFrom.mp (hsub.subset hp)).2
  | summed i n hsize hpos => exact ⟨n, hpos, (inUseFrom_of_size_le hsize).symm⟩

section Scheduled

variable [LinearOrder V] {kern : IterateKernel K V D}

omit [LinearOrder V] in
theorem positionsWith_sublist (t : StateTable K V D) (test : Bucket K V D → Bool) :
    (positionsWith t test).Sublist t.inUse := by
  have hfilter : positionsWith t test =
      t.inUse.filter fun pos => (cellAt t.buckets pos).any test := by
    rw [positionsWith, inUse, inUseFrom, List.filter_filter, List.range_eq_range', Nat.sub_zero]
    apply List.filter_congr
    intro pos _
    cases cellAt t.buckets pos <;> simp
  rw [hfilter]
  exact List.filter_sublist

/-- So is what the constructor of a `ScheduledIterator` schedules, whatever the sample. -/
theorem start_scheduled (cutIndex : Fin sampleSize) (bfilter : Bool) (draws : Draws t) :
    Start t (.scheduled (-1) (ScheduledIterator.new kern t cutIndex bfilter draws).scheduledPos)
      (ScheduledIterator.new kern t cutIndex bfilter draws).scheduledPos := by
  refine .scheduled _ ?_
  rcases Nat.lt_or_ge sampleSize t.entries with hlt | hle
  · rw [ScheduledIterator.new_of_lt hlt]
    split_ifs
    · exact List.nil_sublist _
    · rw [scheduleBy_eq]
      cases (sampledPriorities t draws.positions)[(cutIndex : ℕ)]? with
      | none => exact List.nil_sublist _
      | some threshold =>
        rw [Option.elim_some]
        split_ifs
        · exact positionsWith_sublist t _
        · exact positionsWith_sublist t _
  · rw [ScheduledIterator.new_of_le hle]

omit [LinearOrder V] in
/-- The iterator that `get_iterator` returns after the last trial has nothing to read. -/
theorem start_summed [AddCommMonoid V] (t : StateTable K V D) :
    ∃ i, sumPass t = .ok (i, t.totalF2) ∧ Start t (.iterator i.toIterator) [] := by
  obtain ⟨i, hsum, n, hsize, hpos⟩ := sumPass_eq t
  exact ⟨i, hsum, .summed _ n hsize hpos⟩

end Scheduled

end RemoteIteration.TableIterator

/-- The keys of the buckets at these positions. -/
def StateTable.keysAt {K V D : Type*} (t : StateTable K V D) (positions : List ℕ) : List K :=
  (positions.filterMap (cellAt t.buckets)).map Bucket.k

theorem StateTable.keysAt_of_keyCells {K V D : Type*} {t t' : StateTable K V D}
    (h : t'.keyCells = t.keyCells) (positions : List ℕ) :
    t'.keysAt positions = t.keysAt positions := by
  rw [keysAt, keysAt, List.map_filterMap, List.map_filterMap]
  congr 1
  funext pos
  exact key_of_keyCells h pos

namespace Cluster

variable {ι K V D : Type*} [DecidableEq ι] [DecidableEq K] [AddCommMonoid V]

/-! ## The loop -/

section Loop

variable (d : TableDescriptor ι K V D) (store : K → D) (w : ι) (i : ℕ)

/-- What the others do, and worker `w` besides entering `run_iter`. -/
def Others (acts : List (Action ι K)) : Prop := ∀ k, Action.absorb w k ∉ acts

/-- The inner loop of `run_loop` on worker `w` over shard `i`, with the vertices that it calls
`run_iter` for. Each call has returned before the next round. -/
inductive Pass : TableIterator → Cluster ι K V D → List K → Cluster ι K V D → Prop
  | stop {it : TableIterator} {s : Cluster ι K V D} {t : StateTable K V D}
      (hpart : (s.kernels w).table.partitions i = .state t)
      (hend : it.done t = true ∨ it.nextResult t = false) : Pass it s [] s
  | visit {it : TableIterator} {s s₁ s₂ : Cluster ι K V D} {t : StateTable K V D} {b : Bucket K V D}
      {acts : List (Action ι K)} {keys : List K}
      (hpart : (s.kernels w).table.partitions i = .state t)
      (hdone : it.done t = false) (hnext : it.nextResult t = true)
      (hbucket : (it.next t).bucket t = .ok b) (hothers : Others w acts)
      (hcall : run d store (.absorb w b.k :: acts) s = .ok s₁)
      (hreturned : (s₁.kernels w).output = []) (hrest : Pass (it.next t) s₁ keys s₂) :
      Pass it s (b.k :: keys) s₂

/-- `run_loop`, with its iterators and the passes over them, until `get_typed_iterator` returns a
null pointer. While it waits for an iterator, put requests are handled. -/
inductive RunLoop :
    Cluster ι K V D → List (TableIterator × List K) → Cluster ι K V D → Prop
  | stop {s s' : Cluster ι K V D} {acts : List (Action ι K)} (hothers : Others w acts)
      (hwait : run d store acts s = .ok s') : RunLoop s [] s'
  | pass {s s₁ s₂ s₃ : Cluster ι K V D} {acts : List (Action ι K)} {t : StateTable K V D}
      {it : TableIterator} {positions : List ℕ} {keys : List K}
      {passes : List (TableIterator × List K)} (hothers : Others w acts)
      (hwait : run d store acts s = .ok s₁)
      (hpart : (s₁.kernels w).table.partitions i = .state t) (hstart : it.Start t positions)
      (hpass : Pass d store w i it s₁ keys s₂) (hrest : RunLoop s₂ passes s₃) :
      RunLoop s ((it, keys) :: passes) s₃

end Loop

theorem run_append {d : TableDescriptor ι K V D}
    {store : K → D} {s s₁ s₂ : Cluster ι K V D} {acts acts' : List (Action ι K)}
    (h : run d store acts s = .ok s₁) (h' : run d store acts' s₁ = .ok s₂) :
    run d store (acts ++ acts') s = .ok s₂ :=
  (forEach_append acts acts' s).trans (bind_eq_ok.mpr ⟨s₁, h, h'⟩)

/-! ## One call of `run_iter` -/

/-- The keys of a table belong to its shard. -/
def OwnKeys (d : TableDescriptor ι K V D) (i : ℕ) (t : StateTable K V D) : Prop :=
  ∀ pos b, cellAt t.buckets pos = some b → d.getShard b.k = i

/-- The vertices of shard `i` that `run_iter` has been entered for. -/
def visits (d : TableDescriptor ι K V D) (i : ℕ) (s : Cluster ι K V D) : List K :=
  (s.history.map Absorption.vertex).filter fun k => d.getShard k = i

variable {d : TableDescriptor ι K V D} {store : K → D} {vertices : Set K} {w : ι} {i : ℕ}
  {s₀ s s' : Cluster ι K V D} {t t' : StateTable K V D}

omit [DecidableEq ι] [DecidableEq K] [AddCommMonoid V] in
theorem OwnKeys.of_keyCells (h : OwnKeys d i t) (hkeys : t'.keyCells = t.keyCells) :
    OwnKeys d i t' := by
  intro pos b hb
  have hkey := key_of_keyCells hkeys pos
  rw [hb] at hkey
  obtain ⟨b', hb', hk⟩ := Option.map_eq_some_iff.mp hkey.symm
  rw [← hk]
  exact h pos b' hb'

variable [Fintype ι]

theorem Inv.step_univ (hkern : d.kern.Additive) (hkeeps : d.kern.KeepsDelta)
    (hinv : Inv d store vertices Set.univ s₀ s) {act : Action ι K}
    (hstep : step d store act s = .ok s') : Inv d store vertices Set.univ s₀ s' :=
  (step_inv hkern hkeeps hinv act).ok_imp hstep fun _ _ => Set.mem_univ _

omit [Fintype ι] in
/-- The output buffer of a worker stays empty unless it enters `run_iter`. -/
theorem step_idle {act : Action ι K} (hact : ∀ k, act ≠ .absorb w k)
    (hidle : (s.kernels w).output = []) (hstep : step d store act s = .ok s') :
    (s'.kernels w).output = [] := by
  cases act with
  | absorb v k =>
    rw [step] at hstep
    simp only at hstep
    split_ifs at hstep
    · obtain ⟨m', -, hlast⟩ := bind_eq_ok.mp hstep
      obtain rfl := Except.ok.inj hlast
      have hne : w ≠ v := fun h => hact k (h ▸ rfl)
      have hkernel : (s.setKernel v m').kernels w = s.kernels w := setKernel_of_ne hne
      exact (congrArg MaiterKernel2.output hkernel).trans hidle
    · obtain rfl := Except.ok.inj hstep
      exact hidle
  | spread v =>
    obtain ⟨m', hspread, hlast⟩ := bind_eq_ok.mp hstep
    obtain rfl := Except.ok.inj hlast
    by_cases hw : w = v
    · subst hw
      rw [MaiterKernel2.spread, hidle] at hspread
      obtain rfl := Except.ok.inj hspread
      rw [setKernel_self, hidle]
    · rw [setKernel_of_ne hw, hidle]
  | sendUpdates v =>
    obtain ⟨g, -, hlast⟩ := bind_eq_ok.mp hstep
    obtain rfl := Except.ok.inj hlast
    refine (apply_setKernel (·.output) ?_ w).trans hidle
    rfl
  | applyUpdates v n =>
    rw [step] at hstep
    cases hmsg : (s.kernels v).table.sent[n]? with
    | none =>
      rw [hmsg] at hstep
      obtain rfl := Except.ok.inj hstep
      exact hidle
    | some msg =>
      rw [hmsg] at hstep
      obtain ⟨g, -, hlast⟩ := bind_eq_ok.mp hstep
      obtain rfl := Except.ok.inj hlast
      -- the message leaves its sender, and then the receiver's table is written
      refine (apply_setKernel (·.output) ?_ w).trans ((apply_setKernel (·.output) ?_ w).trans hidle)
      · rfl
      · rfl

omit [Fintype ι] in
theorem idle_others {acts : List (Action ι K)} (hothers : Others w acts)
    (hidle : (s.kernels w).output = []) (hrun : run d store acts s = .ok s') :
    (s'.kernels w).output = [] := by
  induction acts generalizing s with
  | nil =>
    obtain rfl := Except.ok.inj hrun
    exact hidle
  | cons act acts ih =>
    obtain ⟨s₁, hstep, hrest⟩ := bind_eq_ok.mp hrun
    have hact : ∀ k, act ≠ .absorb w k := fun k h => hothers k (h ▸ List.mem_cons_self)
    exact ih (fun k hk => hothers k (List.mem_cons_of_mem _ hk)) (step_idle hact hidle hstep) hrest

/-- Of the vertices of its shards the worker alone calls `run_iter`. -/
theorem visits_others (hkern : d.kern.Additive) (hkeeps : d.kern.KeepsDelta)
    (hown : d.owner i = w) {acts : List (Action ι K)} (hothers : Others w acts)
    (hinv : Inv d store vertices Set.univ s₀ s) (hrun : run d store acts s = .ok s') :
    Inv d store vertices Set.univ s₀ s' ∧ visits d i s' = visits d i s := by
  induction acts generalizing s with
  | nil =>
    obtain rfl := Except.ok.inj hrun
    exact ⟨hinv, rfl⟩
  | cons act acts ih =>
    obtain ⟨s₁, hstep, hrest⟩ := bind_eq_ok.mp hrun
    obtain ⟨hinv', hvisits⟩ := ih (fun k hk => hothers k (List.mem_cons_of_mem _ hk))
      (hinv.step_univ hkern hkeeps hstep) hrest
    refine ⟨hinv', hvisits.trans ?_⟩
    by_cases hact : ∃ v k, act = .absorb v k
    · obtain ⟨v, k, rfl⟩ := hact
      rcases step_absorb_history hkern hkeeps hinv.sound hstep with hsame | ⟨-, hv, hnew⟩
      · rw [visits, hsame, visits]
      · have hne : d.getShard k ≠ i := by
          rintro rfl
          obtain rfl : v = w := hv.symm.trans hown
          exact hothers k List.mem_cons_self
        rw [visits, hnew, List.map_append, List.filter_append, visits]
        simp [hne]
    · rw [visits, step_history (fun v k h => hact ⟨v, k, h⟩) hstep, visits]

omit [DecidableEq ι] [AddCommMonoid V] [Fintype ι] in
/-- The keys of the table are vertices. -/
theorem Sound.mem_vertices {targets : Set K} {m : MaiterKernel2 ι K V D}
    (hsound : Sound d vertices targets w m) (hi : i < d.numShards) (hown : d.owner i = w)
    (hpart : m.table.partitions i = .state t) (hkeys : OwnKeys d i t) :
    (t.buckets.reduceOption.map Bucket.k).Nodup ∧
      ∀ k, k ∈ t.buckets.reduceOption.map Bucket.k ↔ k ∈ vertices ∧ d.getShard k = i := by
  obtain ⟨t', m', hpart', hrep, hmem⟩ :=
    hsound.wellFormed.state i hi (hown.trans hsound.id_eq.symm)
  obtain rfl := Partition.state.inj (hpart.symm.trans hpart')
  -- what is in a bucket is what `lookup` finds
  have hlook : ∀ k, k ∈ t.buckets.reduceOption.map Bucket.k ↔ k ∈ m' := by
    intro k
    rw [List.mem_map, ← hrep.lookup_isSome_iff]
    constructor
    · rintro ⟨b, hb, rfl⟩
      obtain ⟨pos, hpos⟩ := mem_reduceOption_iff_cellAt.mp hb
      rw [hrep.valid.lookup_eq_some hpos rfl]
      rfl
    · intro hsome
      obtain ⟨b, hb⟩ := Option.isSome_iff_exists.mp hsome
      obtain ⟨hk, pos, hpos⟩ := exists_cellAt_of_lookup hb
      exact ⟨b, mem_reduceOption_iff_cellAt.mpr ⟨pos, hpos⟩, hk⟩
  refine ⟨hrep.valid.nodup_keys, fun k => ?_⟩
  constructor
  · intro hk
    obtain ⟨b, hb, rfl⟩ := List.mem_map.mp hk
    obtain ⟨pos, hpos⟩ := mem_reduceOption_iff_cellAt.mp hb
    have hshard := hkeys pos b hpos
    exact ⟨(hmem b.k hshard).mp ((hlook b.k).mp hk), hshard⟩
  · rintro ⟨hk, hshard⟩
    exact (hlook k).mpr ((hmem k hshard).mpr hk)

/-- A call of `run_iter`, with whatever happens until it has returned. -/
theorem visits_call (hkern : d.kern.Additive) (hkeeps : d.kern.KeepsDelta) (hi : i < d.numShards)
    (hown : d.owner i = w) (hinv : Inv d store vertices Set.univ s₀ s)
    (hidle : (s.kernels w).output = []) (hpart : (s.kernels w).table.partitions i = .state t)
    (hkeys : OwnKeys d i t) {pos : ℕ} {b : Bucket K V D} (hb : cellAt t.buckets pos = some b)
    {acts : List (Action ι K)} (hothers : Others w acts)
    (hcall : run d store (.absorb w b.k :: acts) s = .ok s') :
    Inv d store vertices Set.univ s₀ s' ∧ visits d i s' = visits d i s ++ [b.k] := by
  have hshard : d.getShard b.k = i := hkeys pos b hb
  have hmem : b.k ∈ vertices := by
    have hall := ((hinv.sound w).mem_vertices hi hown hpart hkeys).2 b.k
    exact (hall.mp (List.mem_map_of_mem (mem_reduceOption_iff_cellAt.mpr ⟨pos, hb⟩))).1
  obtain ⟨s₁, hstep, hrest⟩ := bind_eq_ok.mp hcall
  obtain ⟨hinv', hvisits⟩ := visits_others hkern hkeeps hown hothers
    (hinv.step_univ hkern hkeeps hstep) hrest
  refine ⟨hinv', hvisits.trans ?_⟩
  -- the worker is idle and the vertex is its own, so the call is entered
  have hcontains : GlobalTable.contains d b.k (s.kernels w).table = true := by
    rw [GlobalTable.contains_iff (hinv.sound w).wellFormed, hshard, (hinv.sound w).id_eq]
    exact ⟨hown, hmem⟩
  rw [step] at hstep
  simp only [hidle, List.isEmpty_nil, hcontains, Bool.and_self, if_true] at hstep
  obtain ⟨m', -, hlast⟩ := bind_eq_ok.mp hstep
  obtain rfl := Except.ok.inj hlast
  rw [visits, List.map_append, List.filter_append, visits]
  simp [hshard]

/-! ## A pass -/

/-- What a pass amounts to. -/
structure PassOf (d : TableDescriptor ι K V D) (store : K → D) (vertices : Set K) (w : ι) (i : ℕ)
    (s₀ s : Cluster ι K V D) (keys : List K) (s' : Cluster ι K V D) : Prop where
  run_eq : ∃ acts, run d store acts s = .ok s'
  visits_eq : visits d i s' = visits d i s ++ keys
  inv : Inv d store vertices Set.univ s₀ s'
  idle : (s'.kernels w).output = []

/-- **A pass.** Whatever happens meanwhile, the loop over an iterator calls `run_iter` for the keys
of the buckets that it had still to read, in their order. -/
theorem pass_spec (hkern : d.kern.Additive) (hkeeps : d.kern.KeepsDelta) (hi : i < d.numShards)
    (hown : d.owner i = w) {it : TableIterator} {keys : List K}
    (hpass : Pass d store w i it s keys s') (hinv : Inv d store vertices Set.univ s₀ s)
    (hidle : (s.kernels w).output = []) (hpart : (s.kernels w).table.partitions i = .state t)
    (hkeys : OwnKeys d i t) {positions : List ℕ} (hremaining : it.Remaining t positions) :
    keys = t.keysAt positions ∧ PassOf d store vertices w i s₀ s keys s' := by
  induction hpass generalizing t positions with
  | @stop it s t₁ hpart₁ hend =>
    obtain rfl := Partition.state.inj (hpart₁.symm.trans hpart)
    rcases hremaining.cases with ⟨rfl, -⟩ | ⟨pos, rest, b, -, hdone, hnext, -⟩
    · exact ⟨rfl, ⟨[], rfl⟩, by rw [List.append_nil], hinv, hidle⟩
    · rw [hdone, hnext] at hend
      simp at hend
  | @visit it s s₁ s₂ t₁ b acts keys hpart₁ hdone hnext hbucket hothers hcall hreturned _ ih =>
    obtain rfl := Partition.state.inj (hpart₁.symm.trans hpart)
    rcases hremaining.cases with ⟨-, hend⟩ | ⟨pos, rest, b', rfl, -, -, hbucket', hb, hrest⟩
    · rw [hdone, hnext] at hend
      simp at hend
    obtain rfl := Except.ok.inj (hbucket.symm.trans hbucket')
    obtain ⟨hinv₁, hvisits₁⟩ := visits_call hkern hkeeps hi hown hinv hidle hpart hkeys hb hothers
      hcall
    -- the table has changed, but not its keys
    obtain ⟨t', hpart', hsame⟩ := (run_sameKeys hcall w).exists_state hpart
    obtain ⟨hkeys₁, hrun, hvisits, hinv₂, hidle₂⟩ := ih hinv₁ hreturned hpart'
      (hkeys.of_keyCells hsame) (hrest.of_layout (layout_of_keyCells hsame))
    refine ⟨?_, ?_, ?_, hinv₂, hidle₂⟩
    · rw [keysAt, List.filterMap_cons_some hb, List.map_cons, hkeys₁,
        keysAt_of_keyCells hsame, keysAt]
    · obtain ⟨acts', hacts'⟩ := hrun
      exact ⟨(.absorb w b.k :: acts) ++ acts', run_append hcall hacts'⟩
    · rw [hvisits, hvisits₁, List.append_assoc, List.singleton_append]

/-! ## The whole loop -/

/-- **The loop is a run.** All that `run_loop` does on a worker, with whatever the others do
meanwhile, is a run, and it calls `run_iter` for the keys that its iterators have to read when they
are made, pass by pass. -/
theorem runLoop_spec (hkern : d.kern.Additive) (hkeeps : d.kern.KeepsDelta) (hi : i < d.numShards)
    (hown : d.owner i = w) {passes : List (TableIterator × List K)}
    (hloop : RunLoop d store w i s passes s') (hinv : Inv d store vertices Set.univ s₀ s)
    (hidle : (s.kernels w).output = []) (hpart : (s.kernels w).table.partitions i = .state t)
    (hkeys : OwnKeys d i t) :
    (∃ acts, run d store acts s = .ok s') ∧
      visits d i s' = visits d i s ++ (passes.map Prod.snd).flatten ∧
      ∀ pass ∈ passes, ∃ positions, pass.1.Start t positions ∧ pass.2 = t.keysAt positions := by
  induction hloop generalizing t with
  | @stop s s' acts hothers hwait =>
    obtain ⟨-, hvisits⟩ := visits_others hkern hkeeps hown hothers hinv hwait
    exact ⟨⟨acts, hwait⟩, by rw [hvisits]; simp, fun _ h => absurd h List.not_mem_nil⟩
  | @pass s s₁ s₂ s₃ acts t₁ it positions keys passes hothers hwait hpart₁ hstart hpass _ ih =>
    -- until the iterator is made only others act; the pass reads what the table has by then
    obtain ⟨hinv₁, hvisits₁⟩ := visits_others hkern hkeeps hown hothers hinv hwait
    obtain ⟨t', hpart', hsame⟩ := (run_sameKeys hwait w).exists_state hpart
    obtain rfl := Partition.state.inj (hpart₁.symm.trans hpart')
    obtain ⟨hread, hpassOf⟩ := pass_spec hkern hkeeps hi hown hpass hinv₁
      (idle_others hothers hidle hwait) hpart₁ (hkeys.of_keyCells hsame) hstart.remaining
    obtain ⟨acts₂, hrun₂⟩ := hpassOf.run_eq
    obtain ⟨t₂, hpart₂, hsame₂⟩ := (run_sameKeys hrun₂ w).exists_state hpart₁
    obtain ⟨⟨acts₃, hrun₃⟩, hvisits₃, hpasses⟩ := ih hpassOf.inv hpassOf.idle hpart₂
      ((hkeys.of_keyCells hsame).of_keyCells hsame₂)
    refine ⟨⟨acts ++ (acts₂ ++ acts₃), ?_⟩, ?_, fun pass hpass => ?_⟩
    · exact run_append hwait (run_append hrun₂ hrun₃)
    · rw [hvisits₃, hpassOf.visits_eq, hvisits₁, List.map_cons, List.flatten_cons,
        List.append_assoc]
    · -- the iterators of all passes read by the keys of the first table
      rcases List.mem_cons.mp hpass with rfl | hlater
      · refine ⟨positions, hstart.of_layout (layout_of_keyCells hsame).symm, hread.trans ?_⟩
        exact keysAt_of_keyCells hsame positions
      · obtain ⟨positions', hstart', hread'⟩ := hpasses pass hlater
        have hsame' := hsame₂.trans hsame
        exact ⟨positions', hstart'.of_layout (layout_of_keyCells hsame').symm,
          hread'.trans (keysAt_of_keyCells hsame' positions')⟩

omit [DecidableEq K] [AddCommMonoid V] [Fintype ι] [DecidableEq ι] in
/-- The pass of an iterator that has not been moved goes over the whole table. -/
theorem keysAt_of_start_new {positions : List ℕ}
    (hstart : TableIterator.Start t (.iterator Iterator.new) positions) :
    t.keysAt positions = t.buckets.reduceOption.map Bucket.k := by
  have hinUse : t.keysAt t.inUse = t.buckets.reduceOption.map Bucket.k := by
    rw [keysAt, filterMap_inUse]
  cases hstart with
  | iterator => exact hinUse
  | summed i n hsize hpos =>
    have hn : (-1 : ℤ) = n - 1 := hpos
    obtain rfl : n = 0 := by omega
    have hnil : t.inUse = [] := inUseFrom_of_size_le hsize
    rw [← hinUse, hnil]

omit [DecidableEq K] [AddCommMonoid V] [Fintype ι] [DecidableEq ι] in
theorem keysAt_sublist {positions : List ℕ} (hsub : positions.Sublist t.inUse) :
    (t.keysAt positions).Sublist (t.buckets.reduceOption.map Bucket.k) := by
  rw [← filterMap_inUse]
  exact (hsub.filterMap _).map _

omit [DecidableEq K] [AddCommMonoid V] [Fintype ι] [DecidableEq ι] in
theorem length_keysAt {positions : List ℕ} (hsub : positions.Sublist t.inUse) :
    (t.keysAt positions).length = positions.length := by
  have huse : ∀ pos ∈ positions, (cellAt t.buckets pos).isSome = true :=
    fun pos hpos => (mem_inUseFrom.mp (hsub.subset hpos)).2
  rw [keysAt, List.length_map, List.length_filterMap_eq_countP, List.countP_eq_length]
  exact huse

/-- **The main loop visits vertices once a pass.** From any state that a run from the initial tables
has led to, what `run_loop` does on the owner of a shard, together with anything that the others do
meanwhile, is a run, in which `run_iter` is called for the vertices of the passes, one pass after
the other. The pass of an `Iterator` calls it once for every vertex of the shard, and that of a
`ScheduledIterator` for the keys at the positions of its schedule, in their order: whatever the
others do meanwhile, these are the keys that the table had there when the loop began. -/
theorem run_loop_visits_each_vertex_once (hkern : d.kern.Additive) (hkeeps : d.kern.KeepsDelta)
    {seed : D} (hinit : Initial d seed vertices s₀) (hi : i < d.numShards) (hown : d.owner i = w)
    (hkeys : ∀ t, (s₀.kernels w).table.partitions i = .state t → OwnKeys d i t)
    {before : List (Action ι K)} (hbefore : run d store before s₀ = .ok s)
    (hidle : (s.kernels w).output = []) {passes : List (TableIterator × List K)}
    (hloop : RunLoop d store w i s passes s') :
    (∃ acts, run d store acts s = .ok s') ∧
      visits d i s' = visits d i s ++ (passes.map Prod.snd).flatten ∧
      ∀ pass ∈ passes, (pass.1 = .iterator Iterator.new →
          pass.2.Nodup ∧ ∀ k, k ∈ pass.2 ↔ k ∈ vertices ∧ d.getShard k = i) ∧
        ∀ scheduledPos, pass.1 = .scheduled (-1) scheduledPos →
          (∀ t, (s.kernels w).table.partitions i = .state t → pass.2 = t.keysAt scheduledPos) ∧
            pass.2.Nodup ∧ pass.2.length = scheduledPos.length ∧
              ∀ k ∈ pass.2, k ∈ vertices ∧ d.getShard k = i := by
  have hinv : Inv d store vertices Set.univ s₀ s :=
    forEach_invariant (fun _ _ _ h hstep => h.step_univ hkern hkeeps hstep) hinit.inv hbefore
  obtain ⟨t₀, -, hpart₀, -⟩ := hinit.represents hi hown
  -- no run changes the keys of a table, so those of the first table are those of each pass
  obtain ⟨t, hpart, hsame⟩ := (run_sameKeys hbefore w).exists_state hpart₀
  have hkeys' : OwnKeys d i t := (hkeys t₀ hpart₀).of_keyCells hsame
  obtain ⟨hrun, hvisits, hpasses⟩ :=
    runLoop_spec hkern hkeeps hi hown hloop hinv hidle hpart hkeys'
  obtain ⟨hnodup, hmem⟩ := (hinv.sound w).mem_vertices hi hown hpart hkeys'
  refine ⟨hrun, hvisits, fun pass hpass => ?_⟩
  obtain ⟨it, keys⟩ := pass
  obtain ⟨positions, hstart, hread⟩ := hpasses (it, keys) hpass
  dsimp only at hstart hread ⊢
  constructor
  · rintro rfl
    rw [hread, keysAt_of_start_new hstart]
    exact ⟨hnodup, hmem⟩
  · rintro scheduledPos rfl
    cases hstart with
    | scheduled _ hsub =>
      have hkeys := keysAt_sublist hsub
      rw [hread]
      refine ⟨fun t' ht' => ?_, hnodup.sublist hkeys, length_keysAt hsub, fun k hk => ?_⟩
      · rw [Partition.state.inj (hpart.symm.trans ht')]
      · exact (hmem k).mp (hkeys.subset hk)

/-! ## Two vertices, and another worker in between -/

/-- Worker `0` owns the vertices `0` and `2`, and worker `1` the vertex `1`. -/
def threeDescriptor : TableDescriptor (Fin 2) ℕ ℕ Bytes :=
  { MaiterKernel2.evenOdd with owner := (pairDescriptor bytesKernel 100).owner }

/-- The `put`s that fill the state table of shard `i`. -/
def threePuts (i : ℕ) : List (StateTable.Op ℕ ℕ Bytes) :=
  if i = 0 then [.put 0 1 0 [], .put 2 1 0 []] else [.put 1 1 0 []]

def threeTable (i : ℕ) : StateTable ℕ ℕ Bytes :=
  (StateTable.exec threeDescriptor.hash threeDescriptor.kern recursionDepth
    (StateTable.cleared 3 0) (threePuts i)).2

/-- The two workers at the start. -/
def threeCluster : Cluster (Fin 2) ℕ ℕ Bytes where
  kernels w :=
    { table :=
        { id := w
          epoch := 0
          partitions := fun i =>
            if i = w then .state (threeTable i) else .delta (DeltaTable.cleared 1)
          dirty := fun _ => false
          pendingWrites := 0
          sent := [] }
      output := [] }
  history := []

/-- The vertices `0` and `1` have an edge to `2`. -/
def twoEdges (k : ℕ) : Bytes := if k = 2 then [] else [2]

theorem threeTable_refines {i : ℕ} (hi : i < 2) :
    Refines threeDescriptor.hash (threeTable i)
      (specExec threeDescriptor.kern ⟨∅, 3, 0⟩ (threePuts i)).2 := by
  have hfits : Fits threeDescriptor.kern ⟨∅, 3, 0⟩ (threePuts i) := by
    obtain rfl | rfl : i = 0 ∨ i = 1 := by omega
    · exact ⟨by decide +kernel, by decide +kernel, trivial⟩
    · exact ⟨by decide +kernel, trivial⟩
  have hsafe : IndexSafe (threePuts i) := by
    intro n hn
    rw [threePuts] at hn
    split_ifs at hn <;> simp at hn
  exact (exec_refines 1 (refines_cleared _ (by decide) 0) _ hsafe hfits).2

theorem get_threeTable {i k : ℕ} (hi : k % 2 = i) (hk : k < 3) :
    (threeTable i).get threeDescriptor.hash k = .ok (k, 1, 0, []) := by
  subst hi
  obtain rfl | rfl | rfl : k = 0 ∨ k = 1 ∨ k = 2 := by omega
  all_goals decide +kernel

theorem initial_threeCluster : Initial threeDescriptor [] {k | k < 3} threeCluster where
  id_eq _ := rfl
  state w i hi hown := by
    have hiw : i = w := by
      rw [← hown]
      exact (Nat.mod_eq_of_lt hi).symm
    have href := threeTable_refines hi
    refine ⟨threeTable i, by simp only [threeCluster, hiw, if_true], href.represents.valid, ?_⟩
    refine fun k hk => ⟨fun hmem => get_threeTable hk hmem, fun hnot => ?_⟩
    have hlarge : ¬ k < 3 := hnot
    rw [href.contains_eq, decide_eq_false_iff_not, threePuts]
    split_ifs
    · simp only [specExec, specStep, Finmap.mem_insert, not_or]
      exact ⟨by omega, by omega, Finmap.notMem_empty⟩
    · simp only [specExec, specStep, Finmap.mem_insert, not_or]
      exact ⟨by omega, Finmap.notMem_empty⟩
  delta w i hi hown := by
    have hiw : i ≠ w := by
      rintro rfl
      exact hown (Fin.ext (Nat.mod_eq_of_lt w.isLt))
    exact ⟨_, DeltaTable.new_one, by simp only [threeCluster, hiw, if_false]⟩
  sent _ := rfl
  output _ := rfl
  history := rfl

/-- The state that actions lead to. -/
def stateAfter (acts : List (Action (Fin 2) ℕ)) : Cluster (Fin 2) ℕ ℕ Bytes :=
  (run threeDescriptor twoEdges acts threeCluster).toOption.getD threeCluster

/-- The table of worker `w` after actions. -/
def tableAfter (w : Fin 2) (acts : List (Action (Fin 2) ℕ)) : StateTable ℕ ℕ Bytes :=
  match ((stateAfter acts).kernels w).table.partitions w with
  | .state t => t
  | .delta _ => threeTable w

/-- While worker `w` is in `run_iter` for its vertex `0`, worker `v` calls `run_iter` for `1`, and
what this call has output for `2` is sent and delivered. -/
def firstVisit (w v : Fin 2) : List (Action (Fin 2) ℕ) :=
  [.absorb w 0, .absorb v 1, .spread w, .spread v, .sendUpdates v, .applyUpdates v 0]

/-- Worker `0` goes over its two vertices and then over the second one alone. During its first call
worker `1` calls `run_iter` too. -/
theorem run_loop_visits_two_vertices :
    ∃ s', RunLoop threeDescriptor twoEdges 0 0 threeCluster
        [(.iterator Iterator.new, [0, 2]), (.scheduled (-1) [2], [2])] s' ∧
      visits threeDescriptor 0 s' = [0, 2, 2] ∧ visits threeDescriptor 1 s' = [1] ∧
      (threeTable 0).keysAt [2] = [2] := by
  have hkern : threeDescriptor.kern.Additive := ⟨fun _ _ => rfl, rfl⟩
  have hkeeps : threeDescriptor.kern.KeepsDelta := fun _ _ _ _ => rfl
  have hnone : Others 0 ([] : List (Action (Fin 2) ℕ)) := fun _ => List.not_mem_nil
  have hothers : Others 0 (firstVisit 0 1).tail := by
    intro k
    simp [firstVisit]
  have hpart : (threeCluster.kernels 0).table.partitions 0 = .state (threeTable 0) := rfl
  -- the vertex `2` has the output of worker `1` by the time that it is visited
  have hsecond : Pass threeDescriptor twoEdges 0 0
      ((TableIterator.iterator Iterator.new).next (threeTable 0)) (stateAfter (firstVisit 0 1)) [2]
      (stateAfter (firstVisit 0 1 ++ [.absorb 0 2])) :=
    .visit (t := tableAfter 0 (firstVisit 0 1)) (b := ⟨2, 3, 0, [], 3⟩) (by decide +kernel)
      (by decide +kernel) (by decide +kernel) (by decide +kernel) hnone rfl (by decide +kernel)
      (.stop (t := tableAfter 0 (firstVisit 0 1 ++ [.absorb 0 2])) (by decide +kernel)
        (by decide +kernel))
  have hiterator : Pass threeDescriptor twoEdges 0 0 (.iterator Iterator.new) threeCluster [0, 2]
      (stateAfter (firstVisit 0 1 ++ [.absorb 0 2])) :=
    .visit (t := threeTable 0) (b := ⟨0, 1, 0, [], 1⟩) hpart (by decide +kernel)
      (by decide +kernel) (by decide +kernel) hothers
      (rfl : run _ _ (firstVisit 0 1) _ = .ok (stateAfter (firstVisit 0 1))) (by decide +kernel)
      hsecond
  have hscheduled : Pass threeDescriptor twoEdges 0 0 (.scheduled (-1) [2])
      (stateAfter (firstVisit 0 1 ++ [.absorb 0 2])) [2]
      (stateAfter (firstVisit 0 1 ++ [.absorb 0 2, .absorb 0 2])) :=
    .visit (t := tableAfter 0 (firstVisit 0 1 ++ [.absorb 0 2])) (b := ⟨2, 0, 3, [], 0⟩)
      (by decide +kernel) (by decide +kernel) (by decide +kernel) (by decide +kernel) hnone rfl
      (by decide +kernel)
      (.stop (t := tableAfter 0 (firstVisit 0 1 ++ [.absorb 0 2, .absorb 0 2])) (by decide +kernel)
        (by decide +kernel))
  have hinUse : (tableAfter 0 (firstVisit 0 1 ++ [.absorb 0 2])).inUse = [0, 2] := by
    decide +kernel
  have hloop : RunLoop threeDescriptor twoEdges 0 0 threeCluster
      [(.iterator Iterator.new, [0, 2]), (.scheduled (-1) [2], [2])]
      (stateAfter (firstVisit 0 1 ++ [.absorb 0 2, .absorb 0 2])) :=
    .pass hnone rfl hpart .iterator hiterator
      (.pass (t := tableAfter 0 (firstVisit 0 1 ++ [.absorb 0 2])) hnone rfl (by decide +kernel)
        (.scheduled [2] (by rw [hinUse]; decide)) hscheduled (.stop hnone rfl))
  have hkeys : ∀ t, (threeCluster.kernels 0).table.partitions 0 = .state t →
      OwnKeys threeDescriptor 0 t := by
    intro t ht
    obtain rfl := Partition.state.inj (hpart.symm.trans ht)
    have hown : ∀ b ∈ (threeTable 0).buckets.reduceOption, threeDescriptor.getShard b.k = 0 := by
      decide +kernel
    exact fun pos b hb => hown b (mem_reduceOption_iff_cellAt.mpr ⟨pos, hb⟩)
  have hbefore : run threeDescriptor twoEdges [] threeCluster = .ok threeCluster := rfl
  obtain ⟨-, hvisits, hpasses⟩ := run_loop_visits_each_vertex_once hkern hkeeps
    initial_threeCluster (by decide) rfl hkeys hbefore rfl hloop
  obtain ⟨hread, -⟩ := (hpasses (.scheduled (-1) [2], [2]) (by simp)).2 [2] rfl
  exact ⟨_, hloop, hvisits, by decide +kernel, (hread _ hpart).symm⟩

end Cluster

end MaiterStore
