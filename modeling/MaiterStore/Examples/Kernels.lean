/-
# The kernels of the examples

What `examples/pagerank.cc`, `examples/katz.cc`, `examples/adsorption.cc`,
`examples/shortestpath.cc` and `examples/con_component.cc` make of an iterate kernel. Values of type
`float` are exact here. Those of the first three are not negative. Those of the fourth are lengths,
with `imax` as the greatest, and those of the last are vertices, with `0` as the least.
-/

import Mathlib.Algebra.Order.Ring.NNRat
import Mathlib.Algebra.Tropical.Basic
import Mathlib.Data.NNRat.BigOperators
import Mathlib.Data.NNRat.Encodable
import MaiterStore.Worker.LeastSolution

namespace MaiterStore

open CS.DeltaIteration

/-- `Link`: an edge with its weight. -/
structure Link (K W : Type*) where
  «end» : K
  weight : W
  deriving DecidableEq, Repr

/-- A kernel that adds up, has the priority `delta` and starts from `init`. -/
def sumUp {K D : Type*} (init : K → ℚ≥0)
    (gFunc : K → (delta value : ℚ≥0) → D → List (K × ℚ≥0)) : IterateKernel K ℚ≥0 D where
  zero := 0
  initC k _ := init k
  initV _ _ := 0
  defaultV := 0
  accumulate a b := a + b
  processDeltaV _ delta value data := (delta, value, data)
  priority _ delta := delta
  gFunc := gFunc

/-- `PagerankIterateKernel`. -/
def pagerankKernel (K : Type*) : IterateKernel K ℚ≥0 (List K) :=
  sumUp (fun _ => 2 / 10) fun _ delta _ data =>
    let outv := delta * (8 / 10) / data.length
    data.map fun target => (target, outv)

/-- `KatzIterateKernel`, with the flags `katz_source` and `katz_beta`. -/
def katzKernel {K : Type*} [DecidableEq K] (source : K) (beta : ℚ≥0) :
    IterateKernel K ℚ≥0 (List K) :=
  sumUp (fun k => if k = source then 1000000 else 0) fun _ delta _ data =>
    let outv := beta * delta
    data.map fun target => (target, outv)

/-- `AdsorptionIterateKernel`, with the flags `adsorption_starts` and `adsorption_damping`. -/
def adsorptionKernel {K : Type*} [LT K] [DecidableLT K] (starts : K) (damping : ℚ≥0) :
    IterateKernel K ℚ≥0 (List (Link K ℚ≥0)) :=
  sumUp (fun k => if k < starts then 10 else 0) fun _ delta _ data =>
    data.map fun target => (target.end, delta * damping * target.weight)

/-- `ShortestpathIterateKernel`, with the flag `shortestpath_source`. The sum of its values is
their minimum. -/
def shortestpathKernel {K W : Type*} [DecidableEq K] [LinearOrder W] [AddCommMonoid W]
    [Sub (WithTop W)] (source : K) : IterateKernel K (Tropical (WithTop W)) (List (Link K W)) where
  zero := .trop 0
  initC k _ := .trop (if k = source then 0 else ⊤)
  initV _ _ := .trop ⊤
  defaultV := .trop ⊤
  accumulate a b := .trop (min a.untrop b.untrop)
  processDeltaV _ delta value data := (delta, value, data)
  priority value delta := .trop (value.untrop - min value.untrop delta.untrop)
  gFunc _ delta _ data :=
    data.map fun target => (target.end, .trop (delta.untrop + target.weight))

/-- `PagerankIterateKernel` of `examples/con_component.cc`. The sum of its values is their maximum.
Its priorities are not positive, so they are no vertices, and are left open. -/
def componentKernel {K : Type*} [LinearOrder K] [OrderBot K]
    (priority : (value delta : Tropical Kᵒᵈ) → Tropical Kᵒᵈ) :
    IterateKernel K (Tropical Kᵒᵈ) (List K) where
  zero := .trop (.toDual ⊥)
  initC k _ := .trop (.toDual k)
  initV _ _ := .trop (.toDual ⊥)
  defaultV := .trop (.toDual ⊥)
  accumulate a b := .trop (.toDual (max a.untrop.ofDual b.untrop.ofDual))
  processDeltaV _ delta value data := (delta, value, data)
  priority := priority
  gFunc _ _ value data := data.map fun target => (target, value)

/-- In the monoid of minima, what has more parts is smaller. -/
theorem part_iff_le {R : Type*} [LinearOrder R] [OrderTop R] {a b : Tropical R} :
    Part a b ↔ b ≤ a := by
  constructor
  · rintro ⟨c, rfl⟩
    rw [← Tropical.untrop_le_iff, Tropical.untrop_add]
    exact min_le_left _ _
  · intro h
    exact ⟨b, Tropical.add_eq_right h⟩

/-! ## Shares of a delta -/

section Shares

variable {K D : Type*} [DecidableEq K]

/-- What `g_func` outputs for a target is a share of the delta. -/
def IterateKernel.Shares (kern : IterateKernel K ℚ≥0 D) (store : K → D) (share : K → K → ℚ≥0) :
    Prop :=
  ∀ j delta value k, tally (kern.gFunc j delta value (store j)) k = delta * share j k

/-- Of `data`, what goes to `k`. -/
def targetsAt (data : List K) (k : K) : ℚ≥0 := tally (data.map fun target => (target, 1)) k

/-- Of the links in `data`, the weights of those to `k`. -/
def weightTo (data : List (Link K ℚ≥0)) (k : K) : ℚ≥0 :=
  tally (data.map fun target => (target.end, target.weight)) k

/-- What `PagerankIterateKernel` gives away. -/
def pagerankShare (store : K → List K) (j k : K) : ℚ≥0 :=
  8 / 10 / (store j).length * targetsAt (store j) k

end Shares

section Additive

variable {K W D : Type*}

theorem sumUp_additive {init : K → ℚ≥0} {gFunc : K → ℚ≥0 → ℚ≥0 → D → List (K × ℚ≥0)} :
    (sumUp init gFunc).Additive :=
  ⟨fun _ _ => rfl, rfl⟩

theorem sumUp_keepsDelta {init : K → ℚ≥0} {gFunc : K → ℚ≥0 → ℚ≥0 → D → List (K × ℚ≥0)} :
    (sumUp init gFunc).KeepsDelta :=
  fun _ _ _ _ => rfl

variable [DecidableEq K] [LinearOrder W] [AddCommMonoid W] [Sub (WithTop W)]

theorem shortestpathKernel_additive (source : K) :
    (shortestpathKernel source : IterateKernel K (Tropical (WithTop W)) _).Additive :=
  ⟨fun _ _ => rfl, rfl⟩

theorem shortestpathKernel_keepsDelta (source : K) :
    (shortestpathKernel source : IterateKernel K (Tropical (WithTop W)) _).KeepsDelta :=
  fun _ _ _ _ => rfl

theorem componentKernel_additive {K : Type*} [LinearOrder K] [OrderBot K]
    (priority : Tropical Kᵒᵈ → Tropical Kᵒᵈ → Tropical Kᵒᵈ) :
    (componentKernel priority).Additive :=
  ⟨fun _ _ => rfl, rfl⟩

theorem componentKernel_keepsDelta {K : Type*} [LinearOrder K] [OrderBot K]
    (priority : Tropical Kᵒᵈ → Tropical Kᵒᵈ → Tropical Kᵒᵈ) :
    (componentKernel priority).KeepsDelta :=
  fun _ _ _ _ => rfl

end Additive

end MaiterStore
