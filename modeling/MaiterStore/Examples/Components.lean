/-
# Connected components

The kernel of `examples/con_component.cc` starts at every vertex with the vertex itself, takes
maxima, and passes on the value of a vertex, not its delta. In every state of every run the value of
a vertex is not above some vertex with a path to it. The values need no quiescent state to be right:
after more rounds than there are vertices, each is the greatest vertex with a path. Where links go
both ways, two vertices then have the same value just when they are connected.
-/

import Mathlib.Data.Fintype.Order
import Mathlib.Logic.Equiv.List
import Mathlib.Logic.Relation
import Mathlib.Order.CompletePartialOrder
import MaiterStore.Examples.Kernels
import MaiterStore.Worker.Convergence

namespace MaiterStore

open CS.Run CS.DeltaIteration Tropical OrderDual

variable {K : Type*}

/-- There is a path over `vertices` from `i` to `k`. -/
def Connects (store : K → List K) (vertices : Finset K) (i k : K) : Prop :=
  i ∈ vertices ∧ Relation.ReflTransGen (fun a b => b ∈ store a ∧ b ∈ vertices) i k

theorem Connects.mem {store : K → List K} {vertices : Finset K} {i k : K}
    (h : Connects store vertices i k) : k ∈ vertices := by
  obtain ⟨hi, hpath⟩ := h
  cases hpath with
  | refl => exact hi
  | tail _ hlink => exact hlink.2

theorem Connects.trans {store : K → List K} {vertices : Finset K} {i j k : K}
    (h : Connects store vertices i j) (h' : Connects store vertices j k) :
    Connects store vertices i k :=
  ⟨h.1, h.2.trans h'.2⟩

/-- Paths along links that go both ways. -/
theorem Connects.symm {store : K → List K} {vertices : Finset K} {i k : K}
    (hboth : ∀ a ∈ vertices, ∀ b ∈ vertices, b ∈ store a → a ∈ store b)
    (h : Connects store vertices i k) : Connects store vertices k i := by
  obtain ⟨hi, hpath⟩ := h
  induction hpath with
  | refl => exact ⟨hi, .refl⟩
  | @tail b c hprev hlink ih =>
    have hb : b ∈ vertices := Connects.mem ⟨hi, hprev⟩
    have hback : Connects store vertices c b :=
      ⟨hlink.2, .single ⟨hboth b hb c hlink.2 hlink.1, hb⟩⟩
    exact hback.trans ih

/-! ### How long a path has to be -/

section Within

variable [DecidableEq K] {store : K → List K} {vertices : Finset K} {i : K} {n : ℕ}

/-- The vertices in `reached`, and those with a link from one of them. -/
def extend (store : K → List K) (vertices reached : Finset K) : Finset K :=
  reached ∪ vertices.filter fun k => ∃ j ∈ reached, k ∈ store j

/-- The vertices with a path of at most `n` links from `i`. -/
def within (store : K → List K) (vertices : Finset K) (i : K) : ℕ → Finset K
  | 0 => {i}
  | n + 1 => extend store vertices (within store vertices i n)

theorem within_mono : Monotone (within store vertices i) :=
  monotone_nat_of_le_succ fun _ => Finset.subset_union_left

theorem within_subset (hi : i ∈ vertices) (n : ℕ) : within store vertices i n ⊆ vertices := by
  induction n with
  | zero => exact Finset.singleton_subset_iff.mpr hi
  | succ n ih => exact Finset.union_subset ih (Finset.filter_subset _ _)

/-- Paths with as many links as there are vertices lead everywhere. -/
theorem within_card (hi : i ∈ vertices) (h : vertices.card ≤ n) :
    within store vertices i n = within store vertices i vertices.card := by
  have hcard : (within store vertices i n).card = (within store vertices i vertices.card).card := by
    refine Nat.stabilises_of_monotone (f := fun n => (within store vertices i n).card)
      (fun a b hab => Finset.card_le_card (within_mono hab))
      (fun m => Finset.card_le_card (within_subset hi m)) (fun m hm => ?_) h
    have hsame : within store vertices i m = within store vertices i (m + 1) :=
      Finset.eq_of_subset_of_card_le Finset.subset_union_left hm.ge
    exact congrArg (fun reached => (extend store vertices reached).card) hsame
  exact (Finset.eq_of_subset_of_card_le (within_mono h) hcard.le).symm

theorem Connects.mem_within {k : K} (h : Connects store vertices i k) :
    k ∈ within store vertices i vertices.card := by
  obtain ⟨hi, hpath⟩ := h
  induction hpath with
  | refl => exact within_mono (Nat.zero_le _) (Finset.mem_singleton_self i)
  | @tail b c _ hlink ih =>
    rw [← within_card hi (Nat.le_succ _)]
    exact Finset.mem_union_right _ (Finset.mem_filter.mpr ⟨hlink.2, b, ih, hlink.1⟩)

end Within

/-! ### What the kernel contributes -/

variable [LinearOrder K] [OrderBot K] {ι : Type*} [DecidableEq ι] [Fintype ι]
  {d : TableDescriptor ι K (Tropical Kᵒᵈ) (List K)} {store : K → List K} {vertices : Finset K}
  {priority : Tropical Kᵒᵈ → Tropical Kᵒᵈ → Tropical Kᵒᵈ}

/-- A list that sends the same value to all targets. -/
theorem tally_targets (targets : List K) (v : Tropical Kᵒᵈ) (k : K) :
    tally (targets.map fun target => (target, v)) k = if k ∈ targets then v else 0 := by
  induction targets with
  | nil => rfl
  | cons target targets ih =>
    rw [List.map_cons, tally_cons, ih]
    by_cases htarget : target = k
    · subst htarget
      rw [if_pos rfl, if_pos List.mem_cons_self]
      split_ifs
      · exact add_self v
      · exact add_zero v
    · rw [if_neg htarget, zero_add]
      have hmem : k ∈ target :: targets ↔ k ∈ targets := by
        rw [List.mem_cons, or_iff_right (Ne.symm htarget)]
      simp only [hmem]

omit [DecidableEq ι] [Fintype ι] in
/-- A vertex contributes its value, also where it has only output it again. -/
theorem component_accounts (hd : d.kern = componentKernel priority) :
    Accounts (fun j v k => if k ∈ store j then v else 0) (Cluster.emit d store) where
  zero j k := ite_self 0
  grow j value delta k := by
    have hemit : tally (Cluster.emit d store j delta (value + delta)) k =
        if k ∈ store j then value + delta else 0 := by
      rw [Cluster.emit, hd]
      exact tally_targets (store j) (value + delta) k
    rw [hemit]
    split_ifs
    · rw [← add_assoc, add_self]
    · exact add_zero 0

/-- A value is the least vertex, or not above a vertex with a path to `k`. -/
def BelowSource (store : K → List K) (vertices : Finset K) (k : K) (v : Tropical Kᵒᵈ) : Prop :=
  v = 0 ∨ ∃ i, Connects store vertices i k ∧ trop (toDual i) ≤ v

theorem BelowSource.of_le {k : K} {a b : Tropical Kᵒᵈ} (h : BelowSource store vertices k a)
    (hab : a ≤ b) : BelowSource store vertices k b := by
  rcases h with rfl | ⟨i, hi, hle⟩
  · exact .inl (top_le_iff.mp hab)
  · exact .inr ⟨i, hi, hle.trans hab⟩

omit [DecidableEq ι] [Fintype ι] in
theorem component_justifies (hd : d.kern = componentKernel priority) :
    Justifies (vertices : Set K) (fun k => d.kern.initC k []) (Cluster.emit d store)
      fun k v => k ∈ vertices → BelowSource store vertices k v where
  init k hk := by
    rw [hd]
    exact .inr ⟨k, ⟨hk, .refl⟩, le_rfl⟩
  zero k _ := .inl rfl
  add k a b ha hb hk := by
    rcases le_total a b with hab | hab
    · rw [add_eq_left hab]
      exact ha hk
    · rw [add_eq_right hab]
      exact hb hk
  part k a b hab hb hk := (hb hk).of_le (part_iff_le.mp hab)
  emit j hj delta value _ hvalue kv hkv hk := by
    rw [Cluster.emit, hd] at hkv
    obtain ⟨target, htarget, rfl⟩ := List.mem_map.mp hkv
    rcases hvalue hj with hzero | ⟨i, hi, hle⟩
    · exact .inl hzero
    · exact .inr ⟨i, ⟨hi.1, hi.2.tail ⟨htarget, hk⟩⟩, hle⟩

namespace Cluster

variable {s₀ s : Cluster ι K (Tropical Kᵒᵈ) (List K)}

/-- The vertex that the workers have for `k`. -/
def component (d : TableDescriptor ι K (Tropical Kᵒᵈ) (List K))
    (s : Cluster ι K (Tropical Kᵒᵈ) (List K)) (k : K) : K :=
  ofDual (ownerF2 d s k).untrop

omit [DecidableEq ι] [Fintype ι] in
/-- After `n` rounds paths of less than `n` links have been followed. -/
theorem rounds_le_of_mem_within {i k : K} {n : ℕ} (hd : d.kern = componentKernel priority)
    (hi : i ∈ vertices) (hk : k ∈ within store vertices i n) :
    rounds (fun k => d.kern.initC k [])
      (fun j v k => if k ∈ store j then v else 0) vertices (n + 1) k ≤ trop (toDual i) := by
  induction n generalizing k with
  | zero =>
    obtain rfl := Finset.mem_singleton.mp hk
    rw [rounds, hd]
    exact part_iff_le.mp (Part.add_right _ _)
  | succ n ih =>
    rcases Finset.mem_union.mp hk with hprev | hnew
    · have hacc : Accounts (fun j v k => if k ∈ store j then v else 0) (emit d store) :=
        component_accounts hd
      exact (part_iff_le.mp hacc.part_rounds_succ).trans (ih hprev)
    · obtain ⟨hmem, j, hj, hlink⟩ := Finset.mem_filter.mp hnew
      rw [rounds, ← Finset.add_sum_erase _ _ (within_subset hi n hj),
        if_pos hlink, add_left_comm]
      exact le_trans (part_iff_le.mp (Part.add_right _ _)) (ih hj)

/-- In every state that a run reaches, the value of a vertex is not above all vertices with a path
to it. -/
theorem Leads.component_sound (hd : d.kern = componentKernel priority)
    (hinit : Initial d [] vertices s₀) (h : Leads d store s₀ s) {k : K} (hk : k ∈ vertices) :
    component d s k = ⊥ ∨ ∃ i, Connects store vertices i k ∧ component d s k ≤ i := by
  have hcomp : Computes d store [] vertices s := h.computes (hd ▸ componentKernel_additive priority)
    (hd ▸ componentKernel_keepsDelta priority) hinit (by rw [hd]; exact fun _ _ => rfl)
  have hjust := (hcomp.iteration.justified (component_justifies hd) hcomp.vertex).1 k hk
  rw [← hcomp.f2_eq k hk] at hjust
  rcases hjust with hnone | ⟨i, hi, hle⟩
  · refine .inl ?_
    rw [component, hnone]
    rfl
  · exact .inr ⟨i, hi, hle⟩

omit [DecidableEq ι] [Fintype ι] in
/-- A value that is sound and not below any vertex with a path is the greatest of these. -/
theorem isGreatest_of_le {k : K} (hk : k ∈ vertices) (hsound : component d s k = ⊥ ∨
      ∃ i, Connects store vertices i k ∧ component d s k ≤ i)
    (habove : ∀ i, Connects store vertices i k → i ≤ component d s k) :
    IsGreatest {i | Connects store vertices i k} (component d s k) := by
  refine ⟨?_, fun i hi => habove i hi⟩
  have hself : Connects store vertices k k := ⟨hk, .refl⟩
  rcases hsound with hbot | ⟨i, hi, hle⟩
  · have heq : component d s k = k := le_antisymm (hbot.symm ▸ bot_le) (habove k hself)
    rw [heq]
    exact hself
  · have heq : component d s k = i := le_antisymm hle (habove i hi)
    rw [heq]
    exact hi

/-- **Connected components.** In every state of every run on any number of workers, what the workers
have for a vertex is the least vertex or not above some vertex with a path to it. If all links are
to vertices, any number of rounds can follow. After more rounds than there are vertices, with any
schedule, and ever after, each vertex has the greatest vertex with a path to it, and if all links go
both ways, two vertices have the same if and only if there is a path between them. -/
theorem connected_components (hd : d.kern = componentKernel priority)
    (hinit : Initial d [] vertices s₀) {acts : List (Action ι K)}
    (hrun : run d store acts s₀ = .ok s) :
    (∀ k ∈ vertices, component d s k = ⊥ ∨
      ∃ i, Connects store vertices i k ∧ component d s k ≤ i) ∧
    ((∀ j ∈ vertices, ∀ target ∈ store j, target ∈ vertices) →
      ∀ n, ∃ s', Rounds d store vertices n s s') ∧
    ∀ n > vertices.card, ∀ s', Rounds d store vertices n s s' →
      ∀ more s'', run d store more s' = .ok s'' →
      (∀ k ∈ vertices, IsGreatest {i | Connects store vertices i k} (component d s'' k)) ∧
      ((∀ a ∈ vertices, ∀ b ∈ vertices, b ∈ store a → a ∈ store b) →
        ∀ i ∈ vertices, ∀ k ∈ vertices,
          component d s'' i = component d s'' k ↔ Connects store vertices i k) := by
  have hkern : d.kern.Additive := hd ▸ componentKernel_additive priority
  have hkeeps : d.kern.KeepsDelta := hd ▸ componentKernel_keepsDelta priority
  have hzero : ∀ k ∈ vertices, d.kern.initV k [] = d.kern.defaultV := by
    rw [hd]
    exact fun _ _ => rfl
  have h : Leads d store s₀ s := ⟨acts, hrun⟩
  refine ⟨fun k hk => h.component_sound hd hinit hk, fun htargets n => ?_, ?_⟩
  · refine exists_rounds hkern hkeeps hinit hzero (fun j hj delta value kv hkv => ?_) h n
    rw [emit, hd] at hkv
    obtain ⟨target, htarget, rfl⟩ := List.mem_map.mp hkv
    exact htargets j hj target htarget
  · intro n hn s' hrounds more s'' hmore
    have h' : Leads d store s₀ s' := h.trans hrounds.leads
    have hfurther : Leads d store s' s'' := ⟨more, hmore⟩
    -- after that many rounds every vertex with a path has come through
    have hreached : ∀ i k, Connects store vertices i k → i ≤ component d s'' k := by
      intro i k hconnects
      have hpart := hrounds.part_later hkern hkeeps hinit hzero (component_accounts hd) h hfurther
        hn hconnects.mem
      exact (part_iff_le.mp hpart).trans
        (rounds_le_of_mem_within hd hconnects.1 hconnects.mem_within)
    have hgreatest : ∀ k ∈ vertices,
        IsGreatest {i | Connects store vertices i k} (component d s'' k) := by
      intro k hk
      refine isGreatest_of_le hk ?_ fun i hi => hreached i k hi
      exact (h'.trans hfurther).component_sound hd hinit hk
    refine ⟨hgreatest, fun hboth i hi k hk => ⟨fun heq => ?_, fun hik => ?_⟩⟩
    · have hi' : Connects store vertices (component d s'' i) i := (hgreatest i hi).1
      have hk' : Connects store vertices (component d s'' i) k := heq ▸ (hgreatest k hk).1
      exact (hi'.symm hboth).trans hk'
    · refine le_antisymm ?_ ?_
      · exact (hgreatest k hk).2 ((hgreatest i hi).1.trans hik)
      · exact (hgreatest i hi).2 ((hgreatest k hk).1.trans (hik.symm hboth))

/-! ### Two vertices -/

instance : Encodable (Tropical (Fin 2)ᵒᵈ) :=
  .ofEquiv (Fin 2) ⟨fun v => v.untrop.ofDual, fun k => trop (toDual k), fun _ => rfl, fun _ => rfl⟩

/-- A link from each of the vertices `0` and `1` to the other. -/
def bothWays : Fin 2 → List (Fin 2) := fun k => [k.rev]

theorem connected_components_both_ways :
    ∃ d : TableDescriptor (Fin 2) (Fin 2) (Tropical (Fin 2)ᵒᵈ) (List (Fin 2)),
      d.kern = componentKernel (fun _ delta => delta) ∧
      Initial d [] (Finset.univ : Finset (Fin 2))
        (duoCluster (componentKernel fun _ delta => delta) []) ∧
      ∃ s', Rounds d bothWays (Finset.univ : Finset (Fin 2)) 3
          (duoCluster (componentKernel fun _ delta => delta) []) s' ∧
        component d s' 0 = component d s' 1 ∧
        IsGreatest {i | Connects bothWays Finset.univ i 0} (component d s' 0) := by
  let d : TableDescriptor (Fin 2) (Fin 2) (Tropical (Fin 2)ᵒᵈ) (List (Fin 2)) :=
    duoDescriptor (componentKernel fun _ delta => delta)
  have hinit : Initial d [] (Finset.univ : Finset (Fin 2))
      (duoCluster (componentKernel fun _ delta => delta) []) :=
    initial_duoCluster (componentKernel fun _ delta => delta) []
  have hbefore : run d bothWays [] (duoCluster (componentKernel fun _ delta => delta) []) =
      .ok (duoCluster (componentKernel fun _ delta => delta) []) := rfl
  obtain ⟨-, hexists, hafter⟩ := connected_components rfl hinit hbefore
  obtain ⟨s', hrounds⟩ := hexists (fun _ _ _ _ => Finset.mem_univ _) 3
  obtain ⟨hgreatest, hiff⟩ := hafter 3 (by decide) s' hrounds [] s' rfl
  have hlinks : ∀ a ∈ (Finset.univ : Finset (Fin 2)), ∀ b ∈ Finset.univ,
      b ∈ bothWays a → a ∈ bothWays b := by decide
  have hpath : Connects bothWays Finset.univ (0 : Fin 2) 1 :=
    ⟨Finset.mem_univ 0, .single ⟨by decide, Finset.mem_univ 1⟩⟩
  exact ⟨d, rfl, hinit, s', hrounds,
    (hiff hlinks 0 (Finset.mem_univ 0) 1 (Finset.mem_univ 1)).mpr hpath,
    hgreatest 0 (Finset.mem_univ 0)⟩

end Cluster

end MaiterStore
