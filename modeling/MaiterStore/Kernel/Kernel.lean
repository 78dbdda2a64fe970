/-
# The iterate kernel on one worker

`MaiterKernel1` fills the state tables of a worker and `MaiterKernel2` works on them
(`kernel/kernel.h`). One call of `run_iter` absorbs the pending delta of a vertex into its
value, lets `g_func` write to the output buffer, resets the delta, and then accumulates
the pairs of the buffer one after the other.

Put requests can be handled inside the `updateF1` of `run_iter`, so that the call is
taken apart there: what comes before is `absorb`, and what comes after are rounds of
`spread`.
-/

import MaiterStore.Kernel.GlobalTable

namespace MaiterStore

open CS.LinearProbing CS.Run CS.DeltaIteration

/-- The table a `MaiterKernel2` works on and its output buffer, as far as the loop of
`run_iter` has not come. -/
structure MaiterKernel2 (ι K V D : Type*) where
  table : GlobalTable ι K V D
  output : List (K × V)

namespace MaiterKernel2

variable {ι K V D : Type*} [DecidableEq ι] [DecidableEq K] (d : TableDescriptor ι K V D)

/-- The fields `value1()` and `value2()` of an iterator that stands at `k`. -/
def current (g : GlobalTable ι K V D) (k : K) : Except (Fault K) (V × V) :=
  match g.partitions (d.getShard k) with
  | .delta _ => .error .nullPointer
  | .state t => t.read d.hash (fun b => (b.v1, b.v2)) k

/-- `run_iter(k, v1, v2, v3)` up to the reset of the delta in `updateF1`. The parameters
`v1` and `v2` refer to the bucket of `k`: what `process_delta_v` makes of them is in the
table, and `g_func` gets the value after `accumulateF2`. -/
def absorb (k : K) (data : D) (m : MaiterKernel2 ι K V D) :
    Except (Fault K) (MaiterKernel2 ι K V D) :=
  (current d m.table k).bind fun refs =>
    -- `process_delta_v(k, v1, v2, v3)`, through references into the bucket
    let processed := d.kern.processDeltaV k refs.1 refs.2 data
    (GlobalTable.onState (d.getShard k) (StateTable.write d.hash k fun b =>
        { b with v1 := processed.1, v2 := processed.2.1 }) m.table).bind fun g₁ =>
      (GlobalTable.accumulateF2 d k processed.1 g₁).bind fun g₂ =>
        (current d g₂ k).bind fun refs' =>
          let emitted := d.kern.gFunc k refs'.1 refs'.2 processed.2.2
          (GlobalTable.updateF1 d k d.kern.defaultV g₂).bind fun g₃ =>
            .ok ⟨g₃, m.output ++ emitted⟩

/-- One round of the loop of `run_iter` over the output buffer. -/
def spread (m : MaiterKernel2 ι K V D) : Except (Fault K) (MaiterKernel2 ι K V D) :=
  match m.output with
  | [] => .ok m
  | kv :: rest => (GlobalTable.accumulateF1 d kv.1 kv.2 m.table).bind fun g => .ok ⟨g, rest⟩

/-- `run_iter(k, v1, v2, v3)`, with no put request in between. -/
def runIter (k : K) (data : D) (m : MaiterKernel2 ι K V D) :
    Except (Fault K) (MaiterKernel2 ι K V D) :=
  (absorb d k data m).bind fun m' => forEach (fun _ => spread d) m'.output m'

end MaiterKernel2

/-- `process_delta_v` is the default, which does nothing. -/
def IterateKernel.KeepsDelta {K V D : Type*} (kern : IterateKernel K V D) : Prop :=
  ∀ k delta value data, kern.processDeltaV k delta value data = (delta, value, data)

namespace MaiterKernel2

variable {ι K V D : Type*} [DecidableEq ι] [DecidableEq K] [AddCommMonoid V]
  {d : TableDescriptor ι K V D} {vertices targets : Set K} {g : GlobalTable ι K V D} {k : K}

open GlobalTable

omit [DecidableEq ι] in
theorem current_eq (hwf : WellFormed d vertices targets g) (hk : k ∈ vertices)
    (hlocal : d.owner (d.getShard k) = g.id) : current d g k = .ok (g.f1 d k, g.f2 d k) := by
  obtain ⟨t, m, hpart, hrep, hmem⟩ := hwf.state _ (d.getShard_lt k) hlocal
  obtain ⟨r, hr⟩ := Finmap.mem_iff.mp ((hmem k rfl).mpr hk)
  have hread := StateTable.read_of_represents (k := k) hrep fun r => (r.1, r.2.1)
  rw [f1_of_state hpart hrep, f2_of_state hpart hrep, hr]
  simp only [current, hpart]
  rw [show t.read d.hash (fun b => (b.v1, b.v2)) k = _ from hread, hr]
  rfl

/-- What `absorb` does to a worker: the delta of `k` moves to its value, `g_func` fills
the output buffer, and nothing else changes. -/
structure AbsorbsAt (d : TableDescriptor ι K V D) (vertices targets : Set K) (k : K) (data : D)
    (m m' : MaiterKernel2 ι K V D) : Prop where
  wellFormed : WellFormed d vertices targets m'.table
  id_eq : m'.table.id = m.table.id
  epoch_eq : m'.table.epoch = m.table.epoch
  sent_eq : m'.table.sent = m.table.sent
  f1_eq : ∀ j, m'.table.f1 d j = if k = j then 0 else m.table.f1 d j
  f2_eq : ∀ j, m'.table.f2 d j = m.table.f2 d j + if k = j then m.table.f1 d k else 0
  output_eq : m'.output = m.output ++
    d.kern.gFunc k (m.table.f1 d k) (m.table.f2 d k + m.table.f1 d k) data

omit [DecidableEq ι] in
/-- Writing back what `process_delta_v` left alone changes nothing. -/
theorem writeBack_spec (hwf : WellFormed d vertices targets g) (hk : k ∈ vertices)
    (hlocal : d.owner (d.getShard k) = g.id) :
    ∃ g', onState (d.getShard k) (StateTable.write d.hash k fun b =>
        { b with v1 := g.f1 d k, v2 := g.f2 d k }) g = .ok g' ∧
      ∃ r, Writes d vertices targets k r (g.f1 d k, g.f2 d k, r.2.2) g g' := by
  have hacts : StateTable.ActsAs (fun b : StateTable.Bucket K V D =>
      { b with v1 := g.f1 d k, v2 := g.f2 d k }) (fun r => (g.f1 d k, g.f2 d k, r.2.2)) :=
    ⟨fun _ => rfl, fun _ => rfl⟩
  obtain ⟨g', r, hok, hwrites⟩ := onState_spec (StateTable.write d.hash k fun b =>
      { b with v1 := g.f1 d k, v2 := g.f2 d k }) hwf hk hlocal
    (f := fun r => (g.f1 d k, g.f2 d k, r.2.2)) fun t m r hrep hr => by
      obtain ⟨buckets, hok, -, hrep'⟩ := StateTable.write_represents hrep hacts hr
      exact ⟨_, hok, hrep'⟩
  exact ⟨g', hok, r, hwrites⟩

theorem absorb_spec (hkern : d.kern.Additive) (hkeeps : d.kern.KeepsDelta)
    {m : MaiterKernel2 ι K V D} (hwf : WellFormed d vertices targets m.table) (hk : k ∈ vertices)
    (hlocal : d.owner (d.getShard k) = m.table.id) (data : D) :
    ∃ m', absorb d k data m = .ok m' ∧ AbsorbsAt d vertices targets k data m m' := by
  -- the three writes of the call, each with what it leaves in the table
  obtain ⟨g₁, hok₁, r₁, hw₁⟩ := writeBack_spec hwf hk hlocal
  have hlocal₁ : d.owner (d.getShard k) = g₁.id := hlocal.trans hw₁.id_eq.symm
  obtain ⟨g₂, r₂, hok₂, hw₂⟩ := onState_spec
    (StateTable.accumulateF2 d.hash d.kern k (m.table.f1 d k))
    (f := fun r => (r.1, d.kern.accumulate r.2.1 (m.table.f1 d k), r.2.2)) hw₁.wellFormed hk hlocal₁
    fun t mp r hrep hr => StateTable.accumulateF2_represents hrep hr d.kern _
  have hlocal₂ : d.owner (d.getShard k) = g₂.id := hlocal₁.trans hw₂.id_eq.symm
  obtain ⟨g₃, r₃, hok₃, hw₃⟩ := onState_spec
    (StateTable.updateF1 d.hash d.kern k d.kern.defaultV)
    (f := fun r => (d.kern.defaultV, r.2)) hw₂.wellFormed hk hlocal₂
    fun t mp r hrep hr => StateTable.updateF1_represents hrep hr d.kern _
  have hf1₁ : ∀ j, g₁.f1 d j = m.table.f1 d j := by
    intro j
    rw [hw₁.f1_eq]
    split_ifs with hj
    · rw [hj]
    · rfl
  have hf2₁ : ∀ j, g₁.f2 d j = m.table.f2 d j := by
    intro j
    rw [hw₁.f2_eq]
    split_ifs with hj
    · rw [hj]
    · rfl
  have hf1₂ : ∀ j, g₂.f1 d j = m.table.f1 d j := by
    intro j
    rw [hw₂.f1_eq]
    split_ifs with hj
    · rw [← hj, ← hf1₁, hw₂.f1_at]
    · exact hf1₁ j
  have hf2₂ : ∀ j, g₂.f2 d j = m.table.f2 d j + if k = j then m.table.f1 d k else 0 := by
    intro j
    rw [hw₂.f2_eq]
    split_ifs with hj
    · rw [hkern.accumulate_eq, ← hj, ← hf2₁ k, hw₂.f2_at]
    · rw [add_zero, hf2₁]
  -- what `g_func` gets: the delta, and the value after `accumulateF2`
  have hcur₂ := current_eq hw₂.wellFormed hk hlocal₂
  rw [hf1₂, hf2₂, if_pos rfl] at hcur₂
  refine ⟨⟨g₃, m.output ++ d.kern.gFunc k (m.table.f1 d k) (m.table.f2 d k + m.table.f1 d k) data⟩,
    ?_, hw₃.wellFormed, ?_, ?_, ?_, ?_, ?_, rfl⟩
  · have hshard₁ : isLocalShard d g₁ (d.getShard k) = true := decide_eq_true hlocal₁
    have hshard₂ : isLocalShard d g₂ (d.getShard k) = true := decide_eq_true hlocal₂
    simp only [absorb, current_eq hwf hk hlocal, hkeeps k, Except.bind, hok₁, accumulateF2,
      hshard₁, if_true, hok₂, hcur₂, updateF1, hshard₂, hok₃]
  · rw [hw₃.id_eq, hw₂.id_eq, hw₁.id_eq]
  · rw [hw₃.epoch_eq, hw₂.epoch_eq, hw₁.epoch_eq]
  · rw [hw₃.sent_eq, hw₂.sent_eq, hw₁.sent_eq]
  · intro j
    rw [hw₃.f1_eq, hf1₂, hkern.defaultV_eq]
  · intro j
    rw [hw₃.f2_eq, ← hf2₂]
    split_ifs with hj
    · rw [← hj, hw₃.f2_at]
    · rfl

/-- A round of the loop moves the first pair of the output buffer to the table. -/
theorem spread_spec (hkern : d.kern.Additive) {m : MaiterKernel2 ι K V D}
    (hwf : WellFormed d vertices targets m.table) (hout : ∀ kv ∈ m.output, kv.1 ∈ targets) :
    Ends (¬ targets ⊆ vertices) (fun m' => Adds d vertices targets m.table m'.table
      (m.output.take 1) ∧ m'.output = m.output.tail) (spread d m) := by
  cases hm : m.output with
  | nil =>
    refine .of_ok (s := m) (by simp only [spread, hm]) ⟨?_, hm⟩
    simpa using Adds.refl hwf
  | cons kv rest =>
    have hk : kv.1 ∈ targets := hout kv (by rw [hm]; exact List.mem_cons_self)
    simp only [spread, hm]
    apply (accumulateF1_spec hkern hwf hk kv.2).bind
    intro g' hadds
    exact .of_ok rfl ⟨by simpa using hadds, rfl⟩

end MaiterKernel2

end MaiterStore
