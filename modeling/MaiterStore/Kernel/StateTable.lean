/-
# The state table of a local shard

`StateTable` (`kernel/statetable.h`) keeps, for every vertex of a shard, the pending
delta `F1`, the accumulated value `F2`, the data `F3` and a scheduling priority. Its
size is fixed beforehand by `resize`; `put` tests `entries_ > size_` before it grows
the table.

As long as the number of keys stays within the number of buckets, and that number is one
that `int` can hold, every operation does to the table what it does to a finite map of
records. This includes the table in which every bucket is in use. What happens beyond
that is the subject of `MaiterStore.Kernel.StateTableGrowth`.
-/

import MaiterStore.Kernel.Table

namespace MaiterStore

open CS.FiniteMap CS.LinearProbing

/-- A bucket in use. -/
structure StateTable.Bucket (K V D : Type*) where
  k : K
  v1 : V
  v2 : V
  v3 : D
  priority : V
  deriving DecidableEq, Repr

/-- The buckets and the counters `entries_` and `total_updates`. -/
structure StateTable (K V D : Type*) where
  buckets : List (Option (StateTable.Bucket K V D))
  entries : ℕ
  totalUpdates : ℕ
  deriving DecidableEq, Repr

namespace StateTable

variable {K V D : Type*}

/-- The fields `F1`, `F2`, `F3` of a bucket. -/
def Bucket.fields (b : Bucket K V D) : V × V × D := (b.v1, b.v2, b.v3)

/-- `size_`, the number of buckets. -/
def size_ (t : StateTable K V D) : ℕ := t.buckets.length

/-- `size()`, the number of entries. -/
def size (t : StateTable K V D) : ℕ := t.entries

/-- `empty()`. -/
def empty (t : StateTable K V D) : Bool := t.size = 0

/-- A table of `n` buckets after `clear()`. -/
def cleared (n totalUpdates : ℕ) : StateTable K V D := ⟨List.replicate n none, 0, totalUpdates⟩

/-- `clear()`. -/
def clear (t : StateTable K V D) : StateTable K V D := cleared t.size_ t.totalUpdates

/-- `resize(size)`, over the `put` that its loop calls. `clear()` runs over the new buckets with
an `int`. The closing check is commented out in the source. -/
def resizeWith (put : K → V → V → D → StateTable K V D → Outcome K (StateTable K V D))
    (size : ℕ) (t : StateTable K V D) : Outcome K (StateTable K V D) :=
  if size = 0 then .error (.checkSize, t)
  else if t.size_ = size then .ok t
  else if ¬ IndexType.int.holds size then .error (.indexOverflow, t)
  else reinsert (fun b => put b.k b.v1 b.v2 b.v3) t.buckets (cleared size t.totalUpdates)

variable [DecidableEq K] (hash : K → ℕ) (kern : IterateKernel K V D)

/-- The bucket that `put` writes. -/
def fill (k : K) (v1 v2 : V) (v3 : D) : Bucket K V D := ⟨k, v1, v2, v3, kern.priority v2 v1⟩

/-- `put(k, v1, v2, v3)`. The growing branch counts the new entry a second time. -/
def put : ℕ → K → V → V → D → StateTable K V D → Outcome K (StateTable K V D)
  | 0, _, _, _, _, t => .error (.fuel, t)
  | fuel + 1, k, v1, v2, v3, t =>
    let probed := find hash Bucket.k t.buckets k
    if probed.1 then
      -- replacing an existing entry
      .ok { t with buckets := t.buckets.set probed.2 (some (fill kern k v1 v2 v3)) }
    -- `entries_ > size_`, without the load factor: the size is meant to be set beforehand
    else if t.size_ < t.entries then
      (resizeWith (put fuel) (IndexType.int.grown t.size_) t).bind fun t₁ =>
        (put fuel k v1 v2 v3 t₁).bind fun t₂ => .ok { t₂ with entries := t₂.entries + 1 }
    else
      .ok { t with
        buckets := t.buckets.set probed.2 (some (fill kern k v1 v2 v3))
        entries := t.entries + 1 }

/-- `resize(size)`. -/
def resize (fuel size : ℕ) (t : StateTable K V D) : Outcome K (StateTable K V D) :=
  resizeWith (put hash kern fuel) size t

/-- The constructor `StateTable(size)`, whose argument is an `int`. -/
def new (fuel size : ℕ) : Outcome K (StateTable K V D) :=
  resize hash kern fuel size (clear ⟨[], 0, 0⟩)

/-- `contains(k)`. -/
def contains (t : StateTable K V D) (k : K) : Bool :=
  (bucketForKey hash Bucket.k t.buckets k).isSome

/-- Read one bucket after `CHECK_NE(b, -1)`. -/
def read {A : Type*} (field : Bucket K V D → A) (t : StateTable K V D) (k : K) :
    Except (Fault K) A :=
  (checkedBucket hash Bucket.k t.buckets k).map fun found => field found.2

/-- `getF1(k)`. -/
def getF1 (t : StateTable K V D) (k : K) : Except (Fault K) V := read hash Bucket.v1 t k

/-- `getF2(k)`. -/
def getF2 (t : StateTable K V D) (k : K) : Except (Fault K) V := read hash Bucket.v2 t k

/-- `getF3(k)`. -/
def getF3 (t : StateTable K V D) (k : K) : Except (Fault K) D := read hash Bucket.v3 t k

/-- `get(k)`, a `ClutterRecord` of the key and the three fields. -/
def get (t : StateTable K V D) (k : K) : Except (Fault K) (K × V × V × D) :=
  read hash (fun b => (k, b.v1, b.v2, b.v3)) t k

/-- Write one bucket after `CHECK_NE(b, -1)`. -/
def write (k : K) (change : Bucket K V D → Bucket K V D) (t : StateTable K V D) :
    Outcome K (StateTable K V D) :=
  match checkedBucket hash Bucket.k t.buckets k with
  | .error e => .error (e, t)
  | .ok (b, c) => .ok { t with buckets := t.buckets.set b (some (change c)) }

/-- `updateF1(k, v)`. The priority is set to `0` without asking the kernel. -/
def updateF1 (k : K) (v : V) (t : StateTable K V D) : Outcome K (StateTable K V D) :=
  (write hash k (fun b => { b with v1 := v, priority := kern.zero }) t).bind fun t' =>
    .ok { t' with totalUpdates := t'.totalUpdates + 1 }

/-- `updateF2(k, v)`. -/
def updateF2 (k : K) (v : V) (t : StateTable K V D) : Outcome K (StateTable K V D) :=
  write hash k (fun b => { b with v2 := v }) t

/-- `updateF3(k, v)`. -/
def updateF3 (k : K) (v : D) (t : StateTable K V D) : Outcome K (StateTable K V D) :=
  write hash k (fun b => { b with v3 := v }) t

/-- `accumulateF1(k, v)`. -/
def accumulateF1 (k : K) (v : V) (t : StateTable K V D) : Outcome K (StateTable K V D) :=
  write hash k (fun b =>
    { b with
      v1 := kern.accumulate b.v1 v
      priority := kern.priority b.v2 (kern.accumulate b.v1 v) }) t

/-- `accumulateF2(k, v)`. -/
def accumulateF2 (k : K) (v : V) (t : StateTable K V D) : Outcome K (StateTable K V D) :=
  write hash k (fun b => { b with v2 := kern.accumulate b.v2 v }) t

/-- What a table is worked on with. -/
inductive Op (K V D : Type*)
  | put (k : K) (v1 v2 : V) (v3 : D)
  | updateF1 (k : K) (v : V)
  | updateF2 (k : K) (v : V)
  | updateF3 (k : K) (v : D)
  | accumulateF1 (k : K) (v : V)
  | accumulateF2 (k : K) (v : V)
  | clear
  | resize (size : ℕ)
  deriving DecidableEq, Repr

/-- The key of an operation that writes to one bucket in use. -/
def Op.target : Op K V D → Option K
  | .updateF1 k _ | .updateF2 k _ | .updateF3 k _ | .accumulateF1 k _ | .accumulateF2 k _ => some k
  | .put .. | .clear | .resize _ => none

/-- One operation on the table. -/
def step (fuel : ℕ) (t : StateTable K V D) : Op K V D → Outcome K (StateTable K V D)
  | .put k v1 v2 v3 => put hash kern fuel k v1 v2 v3 t
  | .updateF1 k v => updateF1 hash kern k v t
  | .updateF2 k v => updateF2 hash k v t
  | .updateF3 k v => updateF3 hash k v t
  | .accumulateF1 k v => accumulateF1 hash kern k v t
  | .accumulateF2 k v => accumulateF2 hash kern k v t
  | .clear => .ok t.clear
  | .resize size => resize hash kern fuel size t

/-- A sequence of operations, with the fault of each one that has one. After a fault
the sequence goes on from the table the fault left. -/
def exec (fuel : ℕ) :
    StateTable K V D → List (Op K V D) → List (Option (Fault K)) × StateTable K V D
  | t, [] => ([], t)
  | t, op :: ops =>
    match step hash kern fuel t op with
    | .ok t' => ((exec fuel t' ops).1.cons none, (exec fuel t' ops).2)
    | .error (e, t') => ((exec fuel t' ops).1.cons (some e), (exec fuel t' ops).2)

/-! ## The finite map of records behind the table -/

/-- A finite map of `F1`, `F2`, `F3` with the size set for the table and the number of
`updateF1` calls. -/
structure Spec (K V D : Type*) where
  map : Finmap fun _ : K => V × V × D
  size : ℕ
  updates : ℕ

/-- Change the record of `k`, if there is one. -/
def Spec.change (s : Spec K V D) (k : K) (f : V × V × D → V × V × D) :
    Option (Fault K) × Spec K V D :=
  match s.map.lookup k with
  | none => (some (.noEntry k), s)
  | some r => (none, { s with map := s.map.insert k (f r) })

/-- The same operation on a finite map, with the fault it has to report. -/
def specStep (s : Spec K V D) : Op K V D → Option (Fault K) × Spec K V D
  | .put k v1 v2 v3 => (none, { s with map := s.map.insert k (v1, v2, v3) })
  -- `total_updates` counts the calls that found their key
  | .updateF1 k v =>
    let next := s.change k fun r => (v, r.2)
    (next.1, { next.2 with updates := next.2.updates + if next.1 = none then 1 else 0 })
  | .updateF2 k v => s.change k fun r => (r.1, v, r.2.2)
  | .updateF3 k v => s.change k fun r => (r.1, r.2.1, v)
  | .accumulateF1 k v => s.change k fun r => (kern.accumulate r.1 v, r.2)
  | .accumulateF2 k v => s.change k fun r => (r.1, kern.accumulate r.2.1 v, r.2.2)
  | .clear => (none, { s with map := ∅ })
  | .resize size => if size = 0 then (some .checkSize, s) else (none, { s with size })

/-- A sequence of operations on a finite map of records. -/
def specExec : Spec K V D → List (Op K V D) → List (Option (Fault K)) × Spec K V D
  | s, [] => ([], s)
  | s, op :: ops =>
    let next := specStep kern s op
    ((specExec next.2 ops).1.cons next.1, (specExec next.2 ops).2)

/-- The number of keys never exceeds the size set for the table. -/
def Fits : Spec K V D → List (Op K V D) → Prop
  | _, [] => True
  | s, op :: ops =>
    (specStep kern s op).2.map.keys.card ≤ (specStep kern s op).2.size ∧
      Fits (specStep kern s op).2 ops

/-- No resize is to a size that the `int` index of `clear()` cannot run to. -/
def IndexSafe (ops : List (Op K V D)) : Prop := ∀ n, .resize n ∈ ops → n < 2 ^ 31

/-- What is read from the table is read from the map of records. An operation on one key leaves
the buckets of all others as they are, and aborts without a change when its key is absent. -/
structure ReadsAs (fuel : ℕ) (t : StateTable K V D) (s : Spec K V D) : Prop where
  contains_eq : ∀ k, t.contains hash k = decide (k ∈ s.map)
  getF1_eq : ∀ k, t.getF1 hash k =
    ((s.map.lookup k).map fun r => r.1).elim (.error (.noEntry k)) .ok
  getF2_eq : ∀ k, t.getF2 hash k =
    ((s.map.lookup k).map fun r => r.2.1).elim (.error (.noEntry k)) .ok
  getF3_eq : ∀ k, t.getF3 hash k =
    ((s.map.lookup k).map fun r => r.2.2).elim (.error (.noEntry k)) .ok
  get_eq : ∀ k, t.get hash k =
    ((s.map.lookup k).map fun r => (k, r)).elim (.error (.noEntry k)) .ok
  size__eq : t.size_ = s.size
  size_eq : t.size = s.map.keys.card
  totalUpdates_eq : t.totalUpdates = s.updates
  absent : ∀ op k, op.target = some k → k ∉ s.map →
    step hash kern fuel t op = .error (.noEntry k, t)
  frame : ∀ op k t', op.target = some k → step hash kern fuel t op = .ok t' →
    ∀ j ≠ k, t'.read hash (fun b => b) j = t.read hash (fun b => b) j

/-- The operations report exactly the faults of the same operations on a finite map of records,
and the table they leave reads as the map they leave. -/
structure RefinesRecords (fuel : ℕ) (t : StateTable K V D) (s : Spec K V D)
    (ops : List (Op K V D)) : Prop where
  faults_eq : (exec hash kern fuel t ops).1 = (specExec kern s ops).1
  readsAs : ReadsAs hash kern fuel (exec hash kern fuel t ops).2 (specExec kern s ops).2

/-- The table holds the map of `s`, has its size and counts its keys and updates. -/
structure Refines (t : StateTable K V D) (s : Spec K V D) : Prop where
  represents : Represents hash Bucket.k Bucket.fields t.buckets s.map
  entries_eq : t.entries = s.map.keys.card
  size_eq : t.size_ = s.size
  updates_eq : t.totalUpdates = s.updates

variable {hash} {kern} {t : StateTable K V D} {s : Spec K V D} {k : K} {n : ℕ}

theorem read_eq_lookup {A : Type*} {field : Bucket K V D → A}
    (hvalid : Valid hash Bucket.k t.buckets) :
    t.read hash field k =
      ((lookup Bucket.k t.buckets k).map field).elim (.error (.noEntry k)) .ok := by
  cases hlook : lookup Bucket.k t.buckets k with
  | none => rw [read, checkedBucket_of_none hvalid hlook]; rfl
  | some c => rw [read, checkedBucket_of_some hvalid hlook]; rfl

/-- What is read from a bucket is read from the record of its key. -/
theorem read_of_represents {A : Type*} {m : Finmap fun _ : K => V × V × D}
    (hrep : Represents hash Bucket.k Bucket.fields t.buckets m) (g : V × V × D → A) :
    t.read hash (fun b => g b.fields) k =
      ((m.lookup k).map g).elim (.error (.noEntry k)) .ok := by
  rw [read_eq_lookup hrep.valid, ← hrep.lookup_eq, Option.map_map]
  rfl

theorem read_eq_read_iff {A : Type*} {t' : StateTable K V D}
    {m m' : Finmap fun _ : K => V × V × D}
    (hrep : Represents hash Bucket.k Bucket.fields t.buckets m)
    (hrep' : Represents hash Bucket.k Bucket.fields t'.buckets m') (g : V × V × D → A) :
    t.read hash (fun b => g b.fields) k = t'.read hash (fun b => g b.fields) k ↔
      (m.lookup k).map g = (m'.lookup k).map g := by
  rw [read_of_represents hrep, read_of_represents hrep']
  cases (m.lookup k).map g <;> cases (m'.lookup k).map g <;> simp

namespace Refines

theorem size_pos (href : Refines hash t s) : 0 < t.size_ := href.represents.valid.length_pos

theorem contains_eq (href : Refines hash t s) : t.contains hash k = decide (k ∈ s.map) :=
  href.represents.contains_eq

theorem find_eq_true_iff (href : Refines hash t s) :
    (find hash Bucket.k t.buckets k).1 = true ↔ k ∈ s.map :=
  href.represents.valid.find_eq_true_iff.trans href.represents.lookup_isSome_iff

/-- Storing under a key that is there. -/
theorem store_of_mem (href : Refines hash t s) {c : Bucket K V D} (hk : c.k ∈ s.map) :
    Refines hash { t with buckets := store hash Bucket.k t.buckets c }
      { s with map := s.map.insert c.k c.fields } where
  represents := href.represents.store c (.inl hk)
  entries_eq := by rw [card_keys_insert_of_mem hk]; exact href.entries_eq
  size_eq := by simpa [size_] using href.size_eq
  updates_eq := href.updates_eq

/-- Storing under a new key, with a bucket left. -/
theorem store_of_notMem (href : Refines hash t s) {c : Bucket K V D} (hk : c.k ∉ s.map)
    (hroom : s.map.keys.card < s.size) :
    Refines hash
      { t with buckets := store hash Bucket.k t.buckets c, entries := t.entries + 1 }
      { s with map := s.map.insert c.k c.fields } where
  represents := href.represents.store c (.inr (by rw [← href.size_eq] at hroom; exact hroom))
  entries_eq := by rw [card_keys_insert_of_notMem hk, href.entries_eq]
  size_eq := by simpa [size_] using href.size_eq
  updates_eq := href.updates_eq

end Refines

theorem refines_cleared (hash : K → ℕ) (hn : 0 < n) (updates : ℕ) :
    Refines hash (cleared n updates : StateTable K V D) ⟨∅, n, updates⟩ :=
  ⟨represents_replicate hash _ _ hn, rfl, List.length_replicate, rfl⟩

/-! ## `put` and `resize` within the size -/

theorem put_of_found (fuel : ℕ) (v1 v2 : V) (v3 : D)
    (hfind : (find hash Bucket.k t.buckets k).1 = true) :
    put hash kern (fuel + 1) k v1 v2 v3 t =
      .ok { t with buckets := store hash Bucket.k t.buckets (fill kern k v1 v2 v3) } := by
  simp [put, hfind, store, fill]

/-- Without a resize the new entry goes where the probe loop stopped, whether that
bucket is free or not. -/
theorem put_of_le (fuel : ℕ) (v1 v2 : V) (v3 : D)
    (hfind : ¬ (find hash Bucket.k t.buckets k).1 = true) (hle : t.entries ≤ t.size_) :
    put hash kern (fuel + 1) k v1 v2 v3 t =
      .ok { t with
        buckets := store hash Bucket.k t.buckets (fill kern k v1 v2 v3)
        entries := t.entries + 1 } := by
  simp [put, hfind, hle.not_gt, store, fill]

theorem put_of_gt (fuel : ℕ) (v1 v2 : V) (v3 : D)
    (hfind : ¬ (find hash Bucket.k t.buckets k).1 = true) (hgt : t.size_ < t.entries) :
    put hash kern (fuel + 1) k v1 v2 v3 t =
      (resize hash kern fuel (IndexType.int.grown t.size_) t).bind fun t₁ =>
        (put hash kern fuel k v1 v2 v3 t₁).bind fun t₂ =>
          .ok { t₂ with entries := t₂.entries + 1 } := by
  rw [put]
  simp only [hfind, hgt, if_true, resize, Bool.false_eq_true, if_false]

/-- A put of a key that is there, or with a bucket left, fills one bucket. -/
theorem put_refines (kern : IterateKernel K V D) (fuel : ℕ) (k : K) (v1 v2 : V) (v3 : D)
    (href : Refines hash t s) (hroom : k ∈ s.map ∨ s.map.keys.card < s.size) :
    ∃ t', put hash kern (fuel + 1) k v1 v2 v3 t = .ok t' ∧
      Refines hash t' { s with map := s.map.insert k (v1, v2, v3) } := by
  by_cases hk : k ∈ s.map
  · exact ⟨_, put_of_found fuel v1 v2 v3 (href.find_eq_true_iff.mpr hk),
      href.store_of_mem (c := fill kern k v1 v2 v3) hk⟩
  -- with a bucket left the load test fails, and the key takes a free bucket
  · have hlt : s.map.keys.card < s.size := hroom.resolve_left hk
    have hle : t.entries ≤ t.size_ := by rw [href.entries_eq, href.size_eq]; omega
    exact ⟨_, put_of_le fuel v1 v2 v3 (mt href.find_eq_true_iff.mp hk) hle,
      href.store_of_notMem (c := fill kern k v1 v2 v3) hk hlt⟩

/-- Putting the entries of a row that holds `m` into fresh buckets that all of them fit
in. Every put finds a bucket, so none of them resizes. -/
theorem reinsert_refines (kern : IterateKernel K V D) (fuel updates : ℕ)
    {buckets : List (Option (Bucket K V D))} {m : Finmap fun _ : K => V × V × D}
    (hrep : Represents hash Bucket.k Bucket.fields buckets m) (hn : n ≠ 0)
    (hfit : m.keys.card ≤ n) :
    ∃ t', reinsert (fun b => put hash kern (fuel + 1) b.k b.v1 b.v2 b.v3) buckets
        (cleared n updates) = .ok t' ∧ Refines hash t' ⟨m, n, updates⟩ := by
  apply hrep.reinsert (fun t' m' => Refines hash t' ⟨m', n, updates⟩)
  · intro t' m' c href' _ hlt
    exact put_refines kern fuel c.k c.v1 c.v2 c.v3 href' (.inr (Nat.lt_of_lt_of_le hlt hfit))
  · exact refines_cleared hash (Nat.pos_of_ne_zero hn) updates

/-- A resize to another size puts all entries again. -/
theorem resize_of_ne (hash : K → ℕ) (kern : IterateKernel K V D) (fuel : ℕ) (hn : n ≠ 0)
    (hsize : t.size_ ≠ n) (hint : n < 2 ^ 31) :
    resize hash kern fuel n t = reinsert (fun b => put hash kern fuel b.k b.v1 b.v2 b.v3) t.buckets
      (cleared n t.totalUpdates) := by
  rw [resize, resizeWith, if_neg hn, if_neg hsize,
    if_neg (not_not.mpr (IndexType.holds_int.mpr hint))]

theorem resize_of_size (hash : K → ℕ) (kern : IterateKernel K V D) (fuel : ℕ) (hn : n ≠ 0)
    (hsize : t.size_ = n) : resize hash kern fuel n t = .ok t := by
  rw [resize, resizeWith, if_neg hn, if_pos hsize]

theorem resize_zero (hash : K → ℕ) (kern : IterateKernel K V D) (fuel : ℕ)
    (t : StateTable K V D) : resize hash kern fuel 0 t = .error (.checkSize, t) := by
  rw [resize, resizeWith, if_pos rfl]

/-- From `2 ^ 31` buckets on, the index of `clear()` overflows. -/
theorem resize_of_ge (hash : K → ℕ) (kern : IterateKernel K V D) (fuel : ℕ)
    (hsize : t.size_ < 2 ^ 31) (hn : 2 ^ 31 ≤ n) :
    resize hash kern fuel n t = .error (.indexOverflow, t) := by
  have hint : ¬ IndexType.int.holds n := by
    rw [IndexType.holds_int]
    exact hn.not_gt
  rw [resize, resizeWith, if_neg (by omega), if_neg (by omega), if_pos hint]

/-- A resize to another size that all keys fit in rebuilds the map and counts its keys
anew, whatever the counter said before. -/
theorem resize_represents (kern : IterateKernel K V D) (fuel : ℕ)
    {m : Finmap fun _ : K => V × V × D}
    (hrep : Represents hash Bucket.k Bucket.fields t.buckets m) (hn : n ≠ 0) (hsize : t.size_ ≠ n)
    (hint : n < 2 ^ 31) (hfit : m.keys.card ≤ n) :
    ∃ t', resize hash kern (fuel + 1) n t = .ok t' ∧ Refines hash t' ⟨m, n, t.totalUpdates⟩ := by
  obtain ⟨t', hok, href'⟩ := reinsert_refines kern fuel t.totalUpdates hrep hn hfit
  exact ⟨t', (resize_of_ne hash kern (fuel + 1) hn hsize hint).trans hok, href'⟩

theorem resize_refines (kern : IterateKernel K V D) (fuel : ℕ) (href : Refines hash t s)
    (hn : n ≠ 0) (hint : n < 2 ^ 31) (hfit : s.map.keys.card ≤ n) :
    ∃ t', resize hash kern (fuel + 1) n t = .ok t' ∧ Refines hash t' { s with size := n } := by
  by_cases hsize : t.size_ = n
  · refine ⟨t, resize_of_size hash kern (fuel + 1) hn hsize, ?_⟩
    exact ⟨href.represents, href.entries_eq, hsize, href.updates_eq⟩
  · rw [← href.updates_eq]
    exact resize_represents kern fuel href.represents hn hsize hint hfit

theorem new_eq (hash : K → ℕ) (kern : IterateKernel K V D) (fuel : ℕ) (hn : n ≠ 0)
    (hint : n < 2 ^ 31) : new hash kern fuel n = .ok (cleared n 0) :=
  resize_of_ne hash kern fuel hn hn.symm hint

theorem eq_cleared_of_new {fuel : ℕ} (hnew : new hash kern fuel n = .ok t) :
    n ≠ 0 ∧ n < 2 ^ 31 ∧ t = cleared n 0 := by
  by_cases hn : n = 0
  · rw [new, hn, resize_zero] at hnew
    cases hnew
  rcases Nat.lt_or_ge n (2 ^ 31) with hint | hge
  · exact ⟨hn, hint, Except.ok.inj (hnew.symm.trans (new_eq hash kern fuel hn hint))⟩
  · have hempty : (clear ⟨[], 0, 0⟩ : StateTable K V D).size_ < 2 ^ 31 := Nat.two_pow_pos 31
    rw [new, resize_of_ge hash kern fuel hempty hge] at hnew
    cases hnew

/-! ## Writing to one bucket -/

/-- `change` acts on the fields of a bucket as `f` and keeps its key. -/
structure ActsAs (change : Bucket K V D → Bucket K V D) (f : V × V × D → V × V × D) : Prop where
  key_eq : ∀ b, (change b).k = b.k
  fields_eq : ∀ b, (change b).fields = f b.fields

section Write

variable {m : Finmap fun _ : K => V × V × D} {change : Bucket K V D → Bucket K V D}
  {f : V × V × D → V × V × D}

theorem write_of_lookup (hvalid : Valid hash Bucket.k t.buckets) {c : Bucket K V D}
    (hlook : lookup Bucket.k t.buckets k = some c) (hkey : ∀ b, (change b).k = b.k) :
    write hash k change t = .ok { t with
      buckets := store hash Bucket.k t.buckets (change c) } := by
  have hc : (change c).k = k := (hkey c).trans (exists_cellAt_of_lookup hlook).1
  simp only [write, checkedBucket_of_some hvalid hlook, set_find_eq_store hc]

theorem write_of_notMem (hrep : Represents hash Bucket.k Bucket.fields t.buckets m) (hk : k ∉ m)
    (change : Bucket K V D → Bucket K V D) : write hash k change t = .error (.noEntry k, t) := by
  have hnone := hrep.lookup_eq_none_iff.mpr hk
  simp [write, checkedBucket_of_none hrep.valid hnone]

/-- A write to a key that is there changes its record and nothing else of the map. -/
theorem write_represents (hrep : Represents hash Bucket.k Bucket.fields t.buckets m)
    (hacts : ActsAs change f) {r : V × V × D} (hr : m.lookup k = some r) :
    ∃ buckets, write hash k change t = .ok { t with buckets } ∧
      buckets.length = t.buckets.length ∧
      Represents hash Bucket.k Bucket.fields buckets (m.insert k (f r)) := by
  have hk : k ∈ m := Finmap.mem_of_lookup_eq_some hr
  -- the record of the map is the one of the bucket that is written
  obtain ⟨c, hlook, rfl, hm⟩ := hrep.exists_lookup hk
  obtain rfl : r = c.fields := Option.some_inj.mp (hr.symm.trans hm)
  refine ⟨_, write_of_lookup hrep.valid hlook hacts.key_eq, length_store, ?_⟩
  have hstore := hrep.store (change c) (.inl (by rwa [hacts.key_eq]))
  rwa [hacts.key_eq, hacts.fields_eq] at hstore

theorem accumulateF1_represents (hrep : Represents hash Bucket.k Bucket.fields t.buckets m)
    {r : V × V × D} (hr : m.lookup k = some r) (kern : IterateKernel K V D) (v : V) :
    ∃ t', accumulateF1 hash kern k v t = .ok t' ∧ Represents hash Bucket.k Bucket.fields t'.buckets
      (m.insert k (kern.accumulate r.1 v, r.2)) := by
  have hacts : ActsAs (fun b : Bucket K V D =>
      { b with
        v1 := kern.accumulate b.v1 v
        priority := kern.priority b.v2 (kern.accumulate b.v1 v) })
      (fun r => (kern.accumulate r.1 v, r.2)) := ⟨fun _ => rfl, fun _ => rfl⟩
  obtain ⟨buckets, hok, -, hrep'⟩ := write_represents hrep hacts hr
  exact ⟨_, hok, hrep'⟩

theorem accumulateF2_represents (hrep : Represents hash Bucket.k Bucket.fields t.buckets m)
    {r : V × V × D} (hr : m.lookup k = some r) (kern : IterateKernel K V D) (v : V) :
    ∃ t', accumulateF2 hash kern k v t = .ok t' ∧ Represents hash Bucket.k Bucket.fields t'.buckets
      (m.insert k (r.1, kern.accumulate r.2.1 v, r.2.2)) := by
  have hacts : ActsAs (fun b : Bucket K V D => { b with v2 := kern.accumulate b.v2 v })
      (fun r => (r.1, kern.accumulate r.2.1 v, r.2.2)) := ⟨fun _ => rfl, fun _ => rfl⟩
  obtain ⟨buckets, hok, -, hrep'⟩ := write_represents hrep hacts hr
  exact ⟨_, hok, hrep'⟩

theorem updateF1_represents (hrep : Represents hash Bucket.k Bucket.fields t.buckets m)
    {r : V × V × D} (hr : m.lookup k = some r) (kern : IterateKernel K V D) (v : V) :
    ∃ t', updateF1 hash kern k v t = .ok t' ∧ Represents hash Bucket.k Bucket.fields t'.buckets
      (m.insert k (v, r.2)) := by
  have hacts : ActsAs (fun b : Bucket K V D => { b with v1 := v, priority := kern.zero })
      (fun r => (v, r.2)) := ⟨fun _ => rfl, fun _ => rfl⟩
  obtain ⟨buckets, hok, -, hrep'⟩ := write_represents hrep hacts hr
  exact ⟨_, by rw [updateF1, hok]; rfl, hrep'⟩

/-- A write leaves every other bucket as it is, its priority included. -/
theorem read_write_of_ne (hrep : Represents hash Bucket.k Bucket.fields t.buckets m)
    (hkey : ∀ b, (change b).k = b.k) {t' : StateTable K V D}
    (hok : write hash k change t = .ok t') {j : K} (hj : j ≠ k) :
    t'.read hash (fun b => b) j = t.read hash (fun b => b) j := by
  have hvalid := hrep.valid
  by_cases hk : k ∈ m
  · obtain ⟨c, hlook, rfl, -⟩ := hrep.exists_lookup hk
    rw [write_of_lookup hvalid hlook hkey, Except.ok.injEq] at hok
    subst hok
    have hstore := hvalid.lookup_store (change c) (.inl (by rw [hkey, hlook]; rfl)) j
    rw [hkey, if_neg hj] at hstore
    rw [read_eq_lookup hvalid, read_eq_lookup (hvalid.store (change c)), hstore]
  · simp [write_of_notMem hrep hk] at hok

end Write

/-- The outcome of an operation that reports `fault` and leaves a table refining the
resulting map. -/
def Reports (hash : K → ℕ) (r : Outcome K (StateTable K V D))
    (spec : Option (Fault K) × Spec K V D) : Prop :=
  ∃ t', Refines hash t' spec.2 ∧ r = spec.1.elim (.ok t') fun e => .error (e, t')

/-- Every operation that writes to one bucket changes the record of that key. -/
theorem write_refines (href : Refines hash t s) {change : Bucket K V D → Bucket K V D}
    {f : V × V × D → V × V × D} (hacts : ActsAs change f) :
    Reports hash (write hash k change t) (s.change k f) := by
  cases hm : s.map.lookup k with
  | none =>
    have hk := Finmap.lookup_eq_none.mp hm
    exact ⟨t, by simpa [Spec.change, hm] using href,
      by simpa [Spec.change, hm] using write_of_notMem href.represents hk change⟩
  | some r =>
    obtain ⟨buckets, hok, hlength, hrep⟩ := write_represents href.represents hacts hm
    refine ⟨{ t with buckets }, ?_, by simpa [Spec.change, hm] using hok⟩
    simp only [Spec.change, hm]
    refine ⟨hrep, ?_, hlength.trans href.size_eq, href.updates_eq⟩
    rw [card_keys_insert_of_mem (Finmap.mem_of_lookup_eq_some hm)]
    exact href.entries_eq

/-! ## Refinement -/

/-- Every operation that has a target writes to its bucket and may count an update. -/
theorem step_of_target (hash : K → ℕ) (kern : IterateKernel K V D) (fuel : ℕ)
    (t : StateTable K V D) {op : Op K V D} (hop : op.target = some k) :
    ∃ change d, (∀ b : Bucket K V D, (change b).k = b.k) ∧
      step hash kern fuel t op = (write hash k change t).bind fun t' =>
        .ok { t' with totalUpdates := t'.totalUpdates + d } := by
  -- all but `updateF1` count no update
  have hid : ∀ r : Outcome K (StateTable K V D), r = r.bind fun t' =>
      .ok { t' with totalUpdates := t'.totalUpdates + 0 } := by
    intro r
    cases r <;> rfl
  cases op with
  | updateF1 j v =>
    obtain rfl : j = k := by simpa [Op.target] using hop
    exact ⟨fun b => { b with v1 := v, priority := kern.zero }, 1, fun _ => rfl, rfl⟩
  | updateF2 j v | updateF3 j v | accumulateF1 j v | accumulateF2 j v =>
    obtain rfl : j = k := by simpa [Op.target] using hop
    refine ⟨_, 0, ?_, hid _⟩
    exact fun _ => rfl
  | put | clear | resize => simp [Op.target] at hop

/-- An operation on one key leaves what every other key reads. -/
theorem read_step_of_ne (href : Refines hash t s) {op : Op K V D} (hop : op.target = some k)
    {fuel : ℕ} {t' : StateTable K V D} (hok : step hash kern fuel t op = .ok t') {j : K}
    (hj : j ≠ k) : t'.read hash (fun b => b) j = t.read hash (fun b => b) j := by
  obtain ⟨change, d, hkey, hstep⟩ := step_of_target hash kern fuel t hop
  rw [hstep] at hok
  cases hw : write hash k change t with
  | error e => simp [hw, Except.bind] at hok
  | ok t₁ =>
    obtain rfl : _ = t' := by simpa [hw, Except.bind] using hok
    exact read_write_of_ne href.represents hkey hw hj

/-- An operation on a key that is not there aborts and leaves the table. -/
theorem step_of_notMem (href : Refines hash t s) {op : Op K V D} (hop : op.target = some k)
    (fuel : ℕ) (hk : k ∉ s.map) : step hash kern fuel t op = .error (.noEntry k, t) := by
  obtain ⟨change, d, -, hstep⟩ := step_of_target hash kern fuel t hop
  rw [hstep, write_of_notMem href.represents hk]
  rfl

theorem Refines.readsAs (href : Refines hash t s) (fuel : ℕ) : ReadsAs hash kern fuel t s where
  contains_eq _ := href.contains_eq
  getF1_eq _ := read_of_represents href.represents fun r => r.1
  getF2_eq _ := read_of_represents href.represents fun r => r.2.1
  getF3_eq _ := read_of_represents href.represents fun r => r.2.2
  get_eq k := read_of_represents href.represents fun r => (k, r)
  size__eq := href.size_eq
  size_eq := href.entries_eq
  totalUpdates_eq := href.updates_eq
  absent _ _ hop := step_of_notMem href hop fuel
  frame _ _ _ hop hok _ hj := read_step_of_ne href hop hok hj

/-- One operation that stays within the size does to the table what it does to the map
of records, and reports what the map operation reports. -/
theorem step_refines (fuel : ℕ) (href : Refines hash t s) (op : Op K V D)
    (hsafe : ∀ n, op = .resize n → n < 2 ^ 31)
    (hfit : (specStep kern s op).2.map.keys.card ≤ (specStep kern s op).2.size) :
    Reports hash (step hash kern (fuel + 1) t op) (specStep kern s op) := by
  cases op with
  | put k v1 v2 v3 =>
    -- a put that fits leaves at most `size` keys, so a fresh key finds a free bucket
    have hroom : k ∈ s.map ∨ s.map.keys.card < s.size := by
      by_cases hk : k ∈ s.map
      · exact .inl hk
      · simp only [specStep, card_keys_insert_of_notMem hk] at hfit
        exact .inr (by omega)
    obtain ⟨t', hok, href'⟩ := put_refines kern fuel k v1 v2 v3 href hroom
    exact ⟨t', href', hok⟩
  | updateF1 k v =>
    have hacts : ActsAs (fun b : Bucket K V D => { b with v1 := v, priority := kern.zero })
        (fun r => (v, r.2)) := ⟨fun _ => rfl, fun _ => rfl⟩
    obtain ⟨t', href', hr⟩ := write_refines (k := k) href hacts
    cases hm : s.map.lookup k with
    | none =>
      simp only [Spec.change, hm] at href' hr
      exact ⟨t', by simpa [specStep, Spec.change, hm] using href',
        by simp [step, updateF1, specStep, Spec.change, hm, hr, Except.bind]⟩
    | some r =>
      simp only [Spec.change, hm] at href' hr
      refine ⟨{ t' with totalUpdates := t'.totalUpdates + 1 }, ?_,
        by simp [step, updateF1, specStep, Spec.change, hm, hr, Except.bind]⟩
      simp only [specStep, Spec.change, hm]
      exact ⟨href'.represents, href'.entries_eq, href'.size_eq, by simp [href'.updates_eq]⟩
  | updateF2 k v => exact write_refines href ⟨fun _ => rfl, fun _ => rfl⟩
  | updateF3 k v => exact write_refines href ⟨fun _ => rfl, fun _ => rfl⟩
  | accumulateF1 k v => exact write_refines href ⟨fun _ => rfl, fun _ => rfl⟩
  | accumulateF2 k v => exact write_refines href ⟨fun _ => rfl, fun _ => rfl⟩
  | clear =>
    refine ⟨t.clear, ?_, rfl⟩
    have := refines_cleared (V := V) (D := D) hash href.size_pos t.totalUpdates
    simpa [specStep, clear, href.size_eq, href.updates_eq] using this
  | resize size =>
    by_cases hsize : size = 0
    · refine ⟨t, by simpa [specStep, hsize] using href, ?_⟩
      simp only [step, specStep, hsize, if_true, resize_zero, Option.elim_some]
    · simp only [specStep, hsize, if_false] at hfit
      obtain ⟨t', hok, href'⟩ := resize_refines kern fuel href hsize (hsafe size rfl) hfit
      exact ⟨t', by simpa [specStep, hsize] using href', by simpa [step, specStep, hsize] using hok⟩

/-- An operation that reports what the map operation reports leads on to the rest of the run. -/
theorem exec_of_reports {fuel : ℕ} {op : Op K V D} {t' : StateTable K V D}
    (hr : step hash kern fuel t op =
      (specStep kern s op).1.elim (.ok t') fun e => .error (e, t')) (ops : List (Op K V D)) :
    exec hash kern fuel t (op :: ops) =
      ((specStep kern s op).1 :: (exec hash kern fuel t' ops).1,
        (exec hash kern fuel t' ops).2) := by
  cases hspec : (specStep kern s op).1 <;> simp [exec, hr, hspec]

/-- A run that stays within the size. -/
theorem exec_refines (fuel : ℕ) (href : Refines hash t s) (ops : List (Op K V D))
    (hsafe : IndexSafe ops) (hfits : Fits kern s ops) :
    (exec hash kern (fuel + 1) t ops).1 = (specExec kern s ops).1 ∧
      Refines hash (exec hash kern (fuel + 1) t ops).2 (specExec kern s ops).2 := by
  induction ops generalizing t s with
  | nil => exact ⟨rfl, href⟩
  | cons op ops ih =>
    have hop : ∀ n, op = .resize n → n < 2 ^ 31 := fun n hn => hsafe n (hn ▸ List.mem_cons_self)
    obtain ⟨t', href', hr⟩ := step_refines fuel href op hop hfits.1
    obtain ⟨hfaults, hend⟩ := ih href' (fun n hn => hsafe n (List.mem_cons_of_mem _ hn)) hfits.2
    rw [exec_of_reports hr, specExec]
    exact ⟨congrArg _ hfaults, hend⟩

/-- The size of the table stays a value of `int`. -/
theorem specStep_size_lt (hsize : s.size < 2 ^ 31) {op : Op K V D}
    (hop : ∀ n, op = .resize n → n < 2 ^ 31) : (specStep kern s op).2.size < 2 ^ 31 := by
  have hchange : ∀ k f, (s.change k f).2.size < 2 ^ 31 := by
    intro k f
    rw [Spec.change]
    split <;> exact hsize
  cases op with
  | put | clear => exact hsize
  | updateF1 k | updateF2 k | updateF3 k | accumulateF1 k | accumulateF2 k => exact hchange k _
  | resize n =>
    rw [specStep]
    split
    · exact hsize
    · exact hop n rfl

/-- A resize that the index cannot run to is reported by the table and not by the map. -/
theorem indexSafe_of_faults_eq (fuel : ℕ) (href : Refines hash t s) (hsize : s.size < 2 ^ 31)
    (ops : List (Op K V D)) (hfits : Fits kern s ops)
    (hfaults : (exec hash kern (fuel + 1) t ops).1 = (specExec kern s ops).1) : IndexSafe ops := by
  induction ops generalizing t s with
  | nil => exact fun n hn => absurd hn List.not_mem_nil
  | cons op ops ih =>
    by_cases hop : ∀ n, op = .resize n → n < 2 ^ 31
    · obtain ⟨t', href', hr⟩ := step_refines fuel href op hop hfits.1
      rw [exec_of_reports hr, specExec] at hfaults
      have hrest := ih href' (specStep_size_lt hsize hop) hfits.2 (List.cons.inj hfaults).2
      intro n hn
      rcases List.mem_cons.mp hn with hhead | htail
      · exact hop n hhead.symm
      · exact hrest n htail
    · push Not at hop
      obtain ⟨n, rfl, hn⟩ := hop
      have hstep : step hash kern (fuel + 1) t (.resize n) = .error (.indexOverflow, t) :=
        resize_of_ge hash kern (fuel + 1) (href.size_eq ▸ hsize) hn
      simp [exec, specExec, hstep, specStep, (Nat.two_pow_pos 31).trans_le hn |>.ne'] at hfaults

/-- **Within its size, `StateTable` refines a finite map of records exactly when its sizes are
values of `int`.** From the constructor on, operations that keep the number of keys within the size
set for the table report exactly the faults of the same operations on the map, and leave a table
that reads as that map, if and only if every resize among them is to less than `2 ^ 31` buckets. -/
theorem refines_records_iff (hash : K → ℕ) (kern : IterateKernel K V D) (fuel size : ℕ)
    (hsize : 0 < size) (hint : size < 2 ^ 31) (ops : List (Op K V D))
    (hfits : Fits kern ⟨∅, size, 0⟩ ops) :
    ∃ t, new hash kern (fuel + 1) size = .ok t ∧
      (RefinesRecords hash kern (fuel + 1) t ⟨∅, size, 0⟩ ops ↔ IndexSafe ops) := by
  refine ⟨cleared size 0, new_eq hash kern (fuel + 1) hsize.ne' hint, ?_⟩
  have href := refines_cleared (V := V) (D := D) hash hsize 0
  constructor
  · intro h
    exact indexSafe_of_faults_eq fuel href hint ops hfits h.faults_eq
  · intro hsafe
    obtain ⟨hfaults, hend⟩ := exec_refines fuel href ops hsafe hfits
    exact ⟨hfaults, hend.readsAs (fuel + 1)⟩

theorem refines_records_iff_full_table :
    (0 < 2 ∧ 2 < 2 ^ 31) ∧ Fits walkKernel ⟨∅, 2, 0⟩
        [.put 4 1 0 [6], .put 6 2 0 [], .accumulateF1 4 5, .updateF1 6 0, .updateF2 9 1] ∧
      ∃ t, new (fun k : ℕ => k) walkKernel 1 2 = .ok t ∧
        (exec (fun k => k) walkKernel 1 t
          [.put 4 1 0 [6], .put 6 2 0 [], .accumulateF1 4 5, .updateF1 6 0, .updateF2 9 1]).1 =
          [none, none, none, none, some (.noEntry 9)] := by
  have hfits : Fits walkKernel ⟨∅, 2, 0⟩
      [.put 4 1 0 [6], .put 6 2 0 [], .accumulateF1 4 5, .updateF1 6 0, .updateF2 9 1] := by
    simp only [Fits]
    decide
  obtain ⟨t, hnew, hiff⟩ := refines_records_iff (fun k : ℕ => k) walkKernel 0 2 Nat.two_pos
    (by decide) [.put 4 1 0 [6], .put 6 2 0 [], .accumulateF1 4 5, .updateF1 6 0, .updateF2 9 1]
    hfits
  have hrefines := hiff.mpr fun n hn => by simp at hn
  exact ⟨⟨Nat.two_pos, by decide⟩, hfits, t, hnew, hrefines.faults_eq.trans (by decide)⟩

/-- No key is in the table, but it cannot be resized to `2 ^ 31` buckets. -/
theorem state_resize_overflows_index :
    ∃ t, new (fun k : ℕ => k) walkKernel 1 1 = .ok t ∧
      Fits walkKernel ⟨∅, 1, 0⟩ [.resize (2 ^ 31)] ∧
      (exec (fun k : ℕ => k) walkKernel 1 t [.resize (2 ^ 31)]).1 = [some .indexOverflow] ∧
      ¬ RefinesRecords (fun k : ℕ => k) walkKernel 1 t ⟨∅, 1, 0⟩ [.resize (2 ^ 31)] := by
  have hfits : Fits walkKernel ⟨∅, 1, 0⟩ [.resize (2 ^ 31)] := by simp [Fits, specStep]
  have hstep : step (fun k : ℕ => k) walkKernel 1 (cleared 1 0) (.resize (2 ^ 31)) =
      .error (.indexOverflow, cleared 1 0) :=
    resize_of_ge _ _ 1 (by decide) le_rfl
  have hfault : (exec (fun k : ℕ => k) walkKernel 1 (cleared 1 0) [.resize (2 ^ 31)]).1 =
      [some .indexOverflow] := by
    rw [exec, hstep]
    rfl
  refine ⟨cleared 1 0, new_eq _ _ 1 one_ne_zero (by decide), hfits, hfault, ?_⟩
  intro h
  have hspec := hfault.symm.trans h.faults_eq
  simp [specExec, specStep] at hspec

end StateTable

end MaiterStore
