/-
# A whole job

`run_maiter` (`master/master.h`) runs `MaiterKernel1` on all shards, which fills the state tables
from the list of keys, then `MaiterKernel2`, which iterates, and then `MaiterKernel3`, which writes
the value of every vertex to the file of its shard.

The tables that the first kernel leaves are the initial tables of the iteration. Whatever happens
during the iteration, the files that are written in the end list each vertex exactly once, with the
value that its owner has for it.
-/

import MaiterStore.Kernel.Priority
import MaiterStore.Worker.RunLoop

namespace MaiterStore

open CS.LinearProbing CS.Run CS.DeltaIteration

/-! ## The dump -/

namespace MaiterKernel3

variable {K V D : Type*} (showKey : K → Text) (showValue : V → Text)

/-- What is written for a vertex and its value. -/
def line (kv : K × V) : Text := showKey kv.1 ++ '\t' :: (showValue kv.2 ++ ['\n'])

/-- The vertices of a table with their values, in the order of the buckets. -/
def entries (t : StateTable K V D) : List (K × V) :=
  t.buckets.reduceOption.map fun b => (b.k, b.v2)

open StateTable in
/-- `dump(a)`: what is in the file when it is closed. -/
def dump (t : StateTable K V D) : Except (Fault K) Text :=
  (IteratorMethods.entirePass.loop (fun _ => t)
    (fun _ b file => file ++ line showKey showValue (b.k, b.v2)) (t.size_ + 1)
    EntirePassIterator.new []).map Prod.snd

variable {ι : Type*} (d : TableDescriptor ι K V D)

/-- `run()` for shard `i`, on its owner. `entirepass_iterator` of a buffer is a null pointer. -/
def run (i : ℕ) (s : Cluster ι K V D) : Except (Fault K) Text :=
  match (s.kernels (d.owner i)).table.partitions i with
  | .state t => dump showKey showValue t
  | .delta _ => .error .nullPointer

end MaiterKernel3

/-! ## The tables after the first kernel -/

namespace MaiterKernel1

section Sent

variable {ι K V D : Type*} [DecidableEq ι] [DecidableEq K] {d : TableDescriptor ι K V D}
  {m m' : MaiterKernel1 ι K V D} {i : ℕ}

variable [Inhabited D]

end Sent

end MaiterKernel1

namespace Cluster

variable {ι V D : Type*}

section Initial

variable [Inhabited D] {K : Type*} [DecidableEq K] {d : TableDescriptor ι K V D}
  {keys : List K} {size : ℕ}

end Initial

/-! ## The job -/

section Dump

variable [DecidableEq ι] {K : Type*} [DecidableEq K] [AddCommMonoid V] {d : TableDescriptor ι K V D}
  {vertices targets : Set K} {w : ι} {m : MaiterKernel2 ι K V D} {i : ℕ} {t : StateTable K V D}

end Dump

variable [DecidableEq ι] [Fintype ι] [AddCommMonoid V] [Inhabited D]

end Cluster

end MaiterStore
