/-
# Shortest paths

The kernel of `examples/shortestpath.cc` adds the weight of a link to a delta and takes minima.
In every state of every run the value of a vertex is not below the length of some walk to it from
the source, or it is `imax`; in quiescent states it is the length of a shortest walk. Weights may
be negative. After `n` rounds no walk of fewer than `n` links is shorter, and where weights are not
negative, as many rounds as there are vertices are enough.
-/

import Mathlib.Algebra.Order.AddGroupWithTop
import Mathlib.Algebra.Order.Sub.WithTop
import Mathlib.Logic.Equiv.List
import MaiterStore.Examples.Kernels
import MaiterStore.Worker.Convergence

namespace MaiterStore

open CS.Run CS.DeltaIteration Tropical

variable {K W : Type*}

/-- There is a walk over `vertices` from the source to `k`, of the length `w`. -/
inductive Walk [Zero W] [Add W] (store : K → List (Link K W)) (vertices : Finset K) (source : K) :
    K → W → Prop
  | nil : source ∈ vertices → Walk store vertices source source 0
  | snoc {j : K} {w : W} {target : Link K W} : Walk store vertices source j w →
      target ∈ store j → target.end ∈ vertices →
      Walk store vertices source target.end (w + target.weight)

theorem Walk.mem [Zero W] [Add W] {store : K → List (Link K W)} {vertices : Finset K} {source k : K}
    {w : W} (h : Walk store vertices source k w) : k ∈ vertices := by
  cases h with
  | nil hmem => exact hmem
  | snoc _ _ hmem => exact hmem

/-- There is such a walk of `n` links. -/
inductive WalkOf [Zero W] [Add W] (store : K → List (Link K W)) (vertices : Finset K) (source : K) :
    ℕ → K → W → Prop
  | nil : source ∈ vertices → WalkOf store vertices source 0 source 0
  | snoc {n : ℕ} {j : K} {w : W} {target : Link K W} : WalkOf store vertices source n j w →
      target ∈ store j → target.end ∈ vertices →
      WalkOf store vertices source (n + 1) target.end (w + target.weight)

theorem WalkOf.mem [Zero W] [Add W] {store : K → List (Link K W)} {vertices : Finset K}
    {source k : K} {n : ℕ} {w : W} (h : WalkOf store vertices source n k w) : k ∈ vertices := by
  cases h with
  | nil hmem => exact hmem
  | snoc _ _ hmem => exact hmem

variable [DecidableEq K] [LinearOrder W] [AddCancelCommMonoid W] [IsOrderedAddMonoid W]

/-! ### Walks that come to no vertex twice -/

section Simple

variable {store : K → List (Link K W)} {vertices visited : Finset K} {source k : K} {w : W}

/-- There is a walk from the source to `k`, of the length `w`, that comes to each of the vertices in
`visited` once. -/
inductive SimpleWalk (store : K → List (Link K W)) (vertices : Finset K) (source : K) :
    Finset K → K → W → Prop
  | nil : source ∈ vertices → SimpleWalk store vertices source {source} source 0
  | snoc {visited : Finset K} {j : K} {w : W} {target : Link K W} :
      SimpleWalk store vertices source visited j w → target ∈ store j → target.end ∈ vertices →
      target.end ∉ visited →
      SimpleWalk store vertices source (insert target.end visited) target.end (w + target.weight)

omit [IsOrderedAddMonoid W] [LinearOrder W] in
theorem SimpleWalk.walkOf (h : SimpleWalk store vertices source visited k w) :
    visited ⊆ vertices ∧ ∃ n, n + 1 = visited.card ∧ WalkOf store vertices source n k w := by
  induction h with
  | nil hmem => exact ⟨Finset.singleton_subset_iff.mpr hmem, 0, rfl, .nil hmem⟩
  | snoc _ hlink hmem hnew ih =>
    obtain ⟨hsub, n, hn, hwalk⟩ := ih
    refine ⟨Finset.insert_subset hmem hsub, n + 1, ?_, hwalk.snoc hlink hmem⟩
    rw [Finset.card_insert_of_notMem hnew, hn]

/-- What has been visited can be reached at no more cost. -/
theorem SimpleWalk.exists_upTo
    (hweights : ∀ j ∈ vertices, ∀ target ∈ store j, 0 ≤ target.weight)
    (h : SimpleWalk store vertices source visited k w) {j : K} (hj : j ∈ visited) :
    ∃ visited' w', SimpleWalk store vertices source visited' j w' ∧ w' ≤ w := by
  induction h with
  | nil hmem =>
    obtain rfl := Finset.mem_singleton.mp hj
    exact ⟨_, _, .nil hmem, le_rfl⟩
  | @snoc visited i w target hprev hlink hmem hnew ih =>
    rcases Finset.mem_insert.mp hj with rfl | hold
    · exact ⟨_, _, hprev.snoc hlink hmem hnew, le_rfl⟩
    · obtain ⟨visited', w', hwalk, hle⟩ := ih hold
      obtain ⟨-, n, -, hof⟩ := hprev.walkOf
      have hweight := hweights i hof.mem target hlink
      exact ⟨visited', w', hwalk, hle.trans (le_add_of_nonneg_right hweight)⟩

/-- Where weights are not negative, cutting the cycles off a walk makes it no longer. -/
theorem Walk.exists_simple (hweights : ∀ j ∈ vertices, ∀ target ∈ store j, 0 ≤ target.weight)
    (h : Walk store vertices source k w) :
    ∃ visited w', SimpleWalk store vertices source visited k w' ∧ w' ≤ w := by
  induction h with
  | nil hmem => exact ⟨_, _, .nil hmem, le_rfl⟩
  | @snoc j w target hprev hlink hmem ih =>
    obtain ⟨visited, w', hwalk, hle⟩ := ih
    by_cases hold : target.end ∈ visited
    · obtain ⟨visited', w'', hprefix, hle'⟩ := hwalk.exists_upTo hweights hold
      exact ⟨visited', w'', hprefix, (hle'.trans hle).trans
        (le_add_of_nonneg_right (hweights j hprev.mem target hlink))⟩
    · exact ⟨_, _, hwalk.snoc hlink hmem hold, by gcongr⟩

end Simple

/-! ### What the kernel contributes -/

/-- What a vertex contributes to another from its value. -/
def reached (store : K → List (Link K W)) (j : K) (v : Tropical (WithTop W)) (k : K) :
    Tropical (WithTop W) :=
  v * tally ((store j).map fun target => (target.end, trop (target.weight : WithTop W))) k

theorem reached_le {store : K → List (Link K W)} {j : K} {target : Link K W}
    (htarget : target ∈ store j) (v : Tropical (WithTop W)) :
    reached store j v target.end ≤ v * trop (target.weight : WithTop W) := by
  rw [reached]
  have hmem : tally ((store j).map fun l => (l.end, trop (l.weight : WithTop W))) target.end ≤
      trop (target.weight : WithTop W) := by
    rw [← part_iff_le]
    obtain ⟨before, after, hsplit⟩ := List.append_of_mem htarget
    rw [hsplit, List.map_append, List.map_cons, tally_append, tally_cons, if_pos rfl,
      add_left_comm]
    exact Part.add_right _ _
  gcongr

variable [Sub (WithTop W)] {ι : Type*} [DecidableEq ι] [Fintype ι]
  {d : TableDescriptor ι K (Tropical (WithTop W)) (List (Link K W))}
  {store : K → List (Link K W)} {source : K} {vertices : Finset K}

omit [DecidableEq ι] [Fintype ι] in
theorem shortestpath_accounts (hd : d.kern = shortestpathKernel source) :
    Accounts (reached store) (Cluster.emit d store) := by
  refine AdditiveEmission.accounts ⟨fun j k => ?_, fun j a b k => ?_⟩ fun j delta value k => ?_
  · rw [reached]
    exact zero_mul _
  · rw [reached, reached, reached]
    exact add_mul _ _ _
  · rw [Cluster.emit, hd]
    exact tally_map_mul Link.end (fun target : Link K W => trop (target.weight : WithTop W))
      (store j) delta k

/-- A length is not below that of some walk, or is `imax`. -/
def AboveWalk (store : K → List (Link K W)) (vertices : Finset K) (source k : K)
    (v : Tropical (WithTop W)) : Prop :=
  v = 0 ∨ ∃ w, Walk store vertices source k w ∧ trop (w : WithTop W) ≤ v

omit [DecidableEq K] [IsOrderedAddMonoid W] [Sub (WithTop W)] in
theorem AboveWalk.of_le {k : K} {a b : Tropical (WithTop W)}
    (h : AboveWalk store vertices source k a) (hab : a ≤ b) :
    AboveWalk store vertices source k b := by
  rcases h with rfl | ⟨w, hw, hle⟩
  · exact .inl (top_le_iff.mp hab)
  · exact .inr ⟨w, hw, hle.trans hab⟩

omit [DecidableEq ι] [Fintype ι] in
/-- What runs on starts with the walk that stays at the source, and goes over links. -/
theorem shortestpath_justifies (hd : d.kern = shortestpathKernel source) :
    Justifies (vertices : Set K) (fun k => d.kern.initC k []) (Cluster.emit d store)
      fun k v => k ∈ vertices → AboveWalk store vertices source k v where
  init k hk := by
    rw [hd]
    by_cases hsource : k = source
    · subst hsource
      refine .inr ⟨0, .nil hk, ?_⟩
      change trop ((0 : W) : WithTop W) ≤ trop (if k = k then 0 else ⊤)
      rw [if_pos rfl]
      rfl
    · refine .inl ?_
      change trop (if k = source then 0 else ⊤) = trop ⊤
      rw [if_neg hsource]
  zero k _ := .inl rfl
  add k a b ha hb hk := by
    rcases le_total a b with hab | hab
    · rw [add_eq_left hab]
      exact ha hk
    · rw [add_eq_right hab]
      exact hb hk
  part k a b hab hb hk := (hb hk).of_le (part_iff_le.mp hab)
  emit j hj delta value hdelta _ kv hkv hk := by
    rw [Cluster.emit, hd] at hkv
    obtain ⟨target, htarget, rfl⟩ := List.mem_map.mp hkv
    rcases hdelta hj with rfl | ⟨w, hw, hle⟩
    · exact .inl (zero_mul (trop (target.weight : WithTop W)))
    · refine .inr ⟨w + target.weight, hw.snoc htarget hk, ?_⟩
      have hmul : trop (w : WithTop W) * trop (target.weight : WithTop W) ≤
          delta * trop (target.weight : WithTop W) := by gcongr
      exact hmul

namespace Cluster

variable {s₀ s : Cluster ι K (Tropical (WithTop W)) (List (Link K W))}

/-- The length that the workers have for `k`; `imax` is `⊤`. -/
def distance (d : TableDescriptor ι K (Tropical (WithTop W)) (List (Link K W)))
    (s : Cluster ι K (Tropical (WithTop W)) (List (Link K W))) (k : K) : WithTop W :=
  (ownerF2 d s k).untrop

omit [IsOrderedAddMonoid W] [Sub (WithTop W)] [DecidableEq ι] [Fintype ι] in
/-- A length that is sound and not above any walk is exact. -/
theorem exact_of_le {k : K} (hsound : distance d s k = ⊤ ∨
      ∃ w, Walk store vertices source k w ∧ w ≤ distance d s k)
    (hbelow : ∀ w, Walk store vertices source k w → distance d s k ≤ (w : WithTop W)) :
    (distance d s k = ⊤ ∧ ∀ w, ¬ Walk store vertices source k w) ∨
      ∃ w : W, distance d s k = w ∧ IsLeast {w | Walk store vertices source k w} w := by
  by_cases htop : distance d s k = ⊤
  · refine .inl ⟨htop, fun w hw => ?_⟩
    have hle := hbelow w hw
    rw [htop] at hle
    exact WithTop.coe_ne_top (top_le_iff.mp hle)
  · obtain ⟨w, hw, hle⟩ := hsound.resolve_left htop
    have heq : distance d s k = w := le_antisymm (hbelow w hw) hle
    refine .inr ⟨w, heq, hw, fun w' hw' => ?_⟩
    have hle' := hbelow w' hw'
    rw [heq] at hle'
    exact WithTop.coe_le_coe.mp hle'

/-- In every state that a run reaches, lengths are not below those of walks. -/
theorem Leads.distance_sound (hd : d.kern = shortestpathKernel source)
    (hinit : Initial d [] vertices s₀) (h : Leads d store s₀ s) {k : K} (hk : k ∈ vertices) :
    distance d s k = ⊤ ∨ ∃ w, Walk store vertices source k w ∧ w ≤ distance d s k := by
  have hcomp : Computes d store [] vertices s :=
    h.computes (hd ▸ shortestpathKernel_additive source)
    (hd ▸ shortestpathKernel_keepsDelta source) hinit (by rw [hd]; exact fun _ _ => rfl)
  have habove := (hcomp.iteration.justified (shortestpath_justifies hd) hcomp.vertex).1 k hk
  rw [← hcomp.f2_eq k hk] at habove
  rcases habove with hzero | ⟨w, hw, hle⟩
  · exact .inl (by rw [distance, hzero, untrop_zero])
  · exact .inr ⟨w, hw, hle⟩

/-- **Shortest paths.** In every state of every run on any number of workers, what the workers have
for a vertex is `imax` or not below the length of some walk from the source. In quiescent states
it is `imax` where there is no walk, and the length of a shortest walk elsewhere. -/
theorem shortest_walks (hd : d.kern = shortestpathKernel source) (hinit : Initial d [] vertices s₀)
    {acts : List (Action ι K)} (hrun : run d store acts s₀ = .ok s) {k : K} (hk : k ∈ vertices) :
    (distance d s k = ⊤ ∨ ∃ w, Walk store vertices source k w ∧ w ≤ distance d s k) ∧
    (Quiescent d vertices s →
      (distance d s k = ⊤ ∧ ∀ w, ¬ Walk store vertices source k w) ∨
      ∃ w : W, distance d s k = w ∧ IsLeast {w | Walk store vertices source k w} w) := by
  have hkern : d.kern.Additive := hd ▸ shortestpathKernel_additive source
  have hcomp : Computes d store [] vertices s :=
    run_computes hkern (hd ▸ shortestpathKernel_keepsDelta source) hinit
      (by rw [hd]; exact fun _ _ => rfl) acts hrun
  refine ⟨Leads.distance_sound hd hinit ⟨acts, hrun⟩ hk, fun hquiet => ?_⟩
  -- no walk is shorter, by the equation at each of its links
  have hbelow : ∀ j w, Walk store vertices source j w → distance d s j ≤ (w : WithTop W) := by
    intro j w hw
    have hsolution : ∀ j ∈ vertices, ownerF2 d s j =
        d.kern.initC j [] + ∑ i ∈ vertices, reached store i (ownerF2 d s i) j := fun j hj =>
      hcomp.solution (shortestpath_accounts hd) hj (hquiet.pending_eq_zero hkern hcomp.sound hj)
    induction hw with
    | nil hmem =>
      have hle : ownerF2 d s source ≤ d.kern.initC source [] := by
        rw [hsolution source hmem]
        exact part_iff_le.mp (Part.add_right _ _)
      refine (untrop_le_iff.mpr hle).trans (le_of_eq ?_)
      rw [hd]
      change (if source = source then (0 : WithTop W) else ⊤) = _
      rw [if_pos rfl]
      rfl
    | @snoc i w target hprev htarget hmem ih =>
      have hle : ownerF2 d s target.end ≤ reached store i (ownerF2 d s i) target.end := by
        rw [hsolution target.end hmem, ← Finset.add_sum_erase _ _ hprev.mem, add_left_comm]
        exact part_iff_le.mp (Part.add_right _ _)
      have hstep : ownerF2 d s target.end ≤ ownerF2 d s i * trop (target.weight : WithTop W) :=
        hle.trans (reached_le htarget _)
      calc distance d s target.end
          ≤ distance d s i + target.weight := hstep
        _ ≤ w + target.weight := by gcongr
        _ = ((w + target.weight : W) : WithTop W) := (WithTop.coe_add _ _).symm
  exact exact_of_le (Leads.distance_sound hd hinit ⟨acts, hrun⟩ hk) (hbelow k)

omit [DecidableEq ι] [Fintype ι] in
/-- After `n + 1` synchronous rounds, walks of `n` links have been followed. -/
theorem rounds_le_of_walkOf (hd : d.kern = shortestpathKernel source) {n : ℕ}
    {k : K} {w : W} (h : WalkOf store vertices source n k w) :
    rounds (fun k => d.kern.initC k []) (reached store) vertices (n + 1) k ≤
      trop (w : WithTop W) := by
  induction h with
  | nil hmem =>
    have hinitC : d.kern.initC source [] = trop ((0 : W) : WithTop W) := by
      rw [hd]
      change trop (if source = source then (0 : WithTop W) else ⊤) = _
      rw [if_pos rfl]
      rfl
    rw [rounds, hinitC]
    exact part_iff_le.mp (Part.add_right _ _)
  | @snoc n j w target hprev hlink hmem ih =>
    rw [rounds, ← Finset.add_sum_erase _ _ hprev.mem, add_left_comm]
    calc _ ≤
        reached store j (rounds (fun k => d.kern.initC k []) (reached store) vertices (n + 1) j)
          target.end := part_iff_le.mp (Part.add_right _ _)
      _ ≤ rounds (fun k => d.kern.initC k []) (reached store) vertices (n + 1) j *
          trop (target.weight : WithTop W) := reached_le hlink _
      _ ≤ trop (w : WithTop W) * trop (target.weight : WithTop W) := by gcongr
      _ = trop ((w + target.weight : W) : WithTop W) := rfl

/-- **Shortest paths after rounds.** From every state of every run, any number of rounds can follow
if all links are to vertices. After `n` rounds, with any schedule, and ever after, the length of a
vertex is not above that of any walk of fewer than `n` links. If weights are not negative and there
are no more vertices than rounds, it is the length of a shortest walk, or `imax` if there is no
walk. -/
theorem shortest_walks_after_rounds (hd : d.kern = shortestpathKernel source)
    (hinit : Initial d [] vertices s₀) {acts : List (Action ι K)}
    (hrun : run d store acts s₀ = .ok s) :
    ((∀ j ∈ vertices, ∀ target ∈ store j, target.end ∈ vertices) →
      ∀ n, ∃ s', Rounds d store vertices n s s') ∧
    ∀ n s', Rounds d store vertices n s s' → ∀ more s'', run d store more s' = .ok s'' →
      ∀ k ∈ vertices,
        (∀ links < n, ∀ w : W, WalkOf store vertices source links k w → distance d s'' k ≤ w) ∧
        ((∀ j ∈ vertices, ∀ target ∈ store j, 0 ≤ target.weight) → vertices.card ≤ n →
          (distance d s'' k = ⊤ ∧ ∀ w, ¬ Walk store vertices source k w) ∨
          ∃ w : W, distance d s'' k = w ∧ IsLeast {w | Walk store vertices source k w} w) := by
  have hkern : d.kern.Additive := hd ▸ shortestpathKernel_additive source
  have hkeeps : d.kern.KeepsDelta := hd ▸ shortestpathKernel_keepsDelta source
  have hzero : ∀ k ∈ vertices, d.kern.initV k [] = d.kern.defaultV := by
    rw [hd]
    exact fun _ _ => rfl
  have h : Leads d store s₀ s := ⟨acts, hrun⟩
  refine ⟨fun htargets n => ?_, ?_⟩
  · refine exists_rounds hkern hkeeps hinit hzero (fun j hj delta value kv hkv => ?_) h n
    rw [emit, hd] at hkv
    obtain ⟨target, htarget, rfl⟩ := List.mem_map.mp hkv
    exact htargets j hj target htarget
  · intro n s' hrounds more s'' hmore k hk
    have h' : Leads d store s₀ s' := h.trans hrounds.leads
    have hfurther : Leads d store s' s'' := ⟨more, hmore⟩
    have hfollowed : ∀ links < n, ∀ w : W, WalkOf store vertices source links k w →
        distance d s'' k ≤ w := by
      intro links hlinks w hwalk
      have hpart := hrounds.part_later hkern hkeeps hinit hzero
        (shortestpath_accounts hd) h hfurther
        hlinks hk
      exact (part_iff_le.mp hpart).trans (rounds_le_of_walkOf hd hwalk)
    refine ⟨hfollowed, fun hweights hcard => ?_⟩
    refine exact_of_le ((h'.trans hfurther).distance_sound hd hinit hk) fun w hw => ?_
    -- a walk without cycles has fewer links than there are vertices
    obtain ⟨visited, w', hsimple, hle⟩ := hw.exists_simple hweights
    obtain ⟨hsub, links, hlinks, hwalk⟩ := hsimple.walkOf
    have hshort : links < n := by
      have hvisited := Finset.card_le_card hsub
      omega
    exact (hfollowed links hshort w' hwalk).trans (WithTop.coe_le_coe.mpr hle)

/-! ### One link -/

instance : Encodable (Link (Fin 2) ℕ) :=
  .ofLeftInverse (fun target => (target.end, target.weight)) (fun p => ⟨p.1, p.2⟩) fun _ => rfl

instance : Encodable (Tropical (WithTop ℕ)) :=
  .ofEquiv (Option ℕ) ⟨untrop, trop, fun _ => rfl, fun _ => rfl⟩

/-- The link from vertex `0` to vertex `1`. -/
def oneLink : Fin 2 → List (Link (Fin 2) ℕ) := fun k => if k.val = 0 then [⟨k.rev, 5⟩] else []

theorem shortest_walks_one_link :
    ∃ d : TableDescriptor (Fin 2) (Fin 2) (Tropical (WithTop ℕ)) (List (Link (Fin 2) ℕ)),
      d.kern = shortestpathKernel 0 ∧ Initial d [] (Finset.univ : Finset (Fin 2))
        (duoCluster (shortestpathKernel 0) []) ∧
      ∃ s, run d oneLink [.absorb 0 0, .spread 0, .sendUpdates 0, .applyUpdates 0 0, .absorb 1 1]
          (duoCluster (shortestpathKernel 0) []) = .ok s ∧
        Quiescent d Finset.univ s ∧
        ∃ w : ℕ, distance d s 1 = w ∧ IsLeast {w | Walk oneLink Finset.univ 0 1 w} w := by
  let d : TableDescriptor (Fin 2) (Fin 2) (Tropical (WithTop ℕ)) (List (Link (Fin 2) ℕ)) :=
    duoDescriptor (shortestpathKernel 0)
  have hinit : Initial d [] (Finset.univ : Finset (Fin 2)) (duoCluster (shortestpathKernel 0) []) :=
    initial_duoCluster (shortestpathKernel 0) []
  obtain ⟨s, hrun⟩ := run_returns oneLink (shortestpathKernel_additive 0)
    (shortestpathKernel_keepsDelta 0) hinit Finset.mem_univ
    [.absorb 0 0, .spread 0, .sendUpdates 0, .applyUpdates 0 0, .absorb 1 1]
  have hcheck : (match run d oneLink
      [.absorb 0 0, .spread 0, .sendUpdates 0, .applyUpdates 0 0, .absorb 1 1]
      (duoCluster (shortestpathKernel 0) []) with
    | .ok s => decide ((∀ k ∈ Finset.univ,
          (s.kernels (d.owner (d.getShard k))).table.f1 d k = d.kern.defaultV) ∧
        (∀ w, ∀ i < d.numShards, d.owner i ≠ w → ((s.kernels w).table.partitions i).empty = true) ∧
        (∀ w, (s.kernels w).table.sent = []) ∧ (∀ w, (s.kernels w).output = []) ∧
        distance d s 1 ≠ ⊤)
    | .error _ => false) = true := by decide +kernel
  rw [hrun] at hcheck
  obtain ⟨hf1, hbuffers, hsent, houtput, hne⟩ := of_decide_eq_true hcheck
  have hquiet : Quiescent d Finset.univ s := ⟨hf1, hbuffers, hsent, houtput⟩
  refine ⟨d, rfl, hinit, s, hrun, hquiet, ?_⟩
  have hall := (shortest_walks rfl hinit hrun (Finset.mem_univ 1)).2 hquiet
  exact hall.resolve_left fun htop => hne htop.1

theorem shortest_walks_after_rounds_one_link :
    ∃ d : TableDescriptor (Fin 2) (Fin 2) (Tropical (WithTop ℕ)) (List (Link (Fin 2) ℕ)),
      d.kern = shortestpathKernel 0 ∧ Initial d [] (Finset.univ : Finset (Fin 2))
        (duoCluster (shortestpathKernel 0) []) ∧
      ∃ s', Rounds d oneLink (Finset.univ : Finset (Fin 2)) 2 (duoCluster (shortestpathKernel 0) [])
        s' ∧ distance d s' 1 ≤ (5 : ℕ) := by
  let d : TableDescriptor (Fin 2) (Fin 2) (Tropical (WithTop ℕ)) (List (Link (Fin 2) ℕ)) :=
    duoDescriptor (shortestpathKernel 0)
  have hinit : Initial d [] (Finset.univ : Finset (Fin 2)) (duoCluster (shortestpathKernel 0) []) :=
    initial_duoCluster (shortestpathKernel 0) []
  have hbefore : run d oneLink [] (duoCluster (shortestpathKernel 0) []) =
      .ok (duoCluster (shortestpathKernel 0) []) := rfl
  obtain ⟨hexists, hafter⟩ := shortest_walks_after_rounds rfl hinit hbefore
  obtain ⟨s', hrounds⟩ := hexists (fun _ _ _ _ => Finset.mem_univ _) 2
  have hlink : (⟨1, 5⟩ : Link (Fin 2) ℕ) ∈ oneLink 0 := by decide
  have hwalk : WalkOf oneLink Finset.univ 0 1 1 (0 + 5) :=
    .snoc (.nil (Finset.mem_univ 0)) hlink (Finset.mem_univ 1)
  exact ⟨d, rfl, hinit, s', hrounds,
    (hafter 2 s' hrounds [] s' rfl 1 (Finset.mem_univ 1)).1 1 (by decide) (0 + 5) hwalk⟩

end Cluster

end MaiterStore
