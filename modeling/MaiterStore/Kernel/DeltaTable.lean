/-
# The buffer table of a remote shard

`DeltaTable` (`kernel/deltatable.h`) collects the updates a worker makes to a shard
it does not own. It is a closed hash table that grows when a new key meets a load
above `kLoadFactor`, by a `resize` that puts every old entry again, so that `put`
and `resize` call each other.

The recursion is two deep at most. A growing `put` moves the entries into a row more
than twice as long, where no put grows again; a `resize` to a small size may grow in
the middle of its loop, and the loop goes on in the grown table. In every case the
table holds the same finite map as before, which is what the load test and the
closing `CHECK_EQ` rest on.

The index of `clear()` and the size that `put` grows to are of type `int`. A table does
what a finite map does exactly as long as its sizes are below `2 ^ 31`. The buffers of
the propagation model are `unbounded`: there the limits of the type are left out of
account, and whatever the code returns is returned there as well.
-/

import MaiterStore.Kernel.Table

namespace MaiterStore

open CS.FiniteMap CS.LinearProbing CS.Run

/-- A bucket in use. -/
structure DeltaTable.Bucket (K V : Type*) where
  k : K
  v1 : V
  deriving DecidableEq, Repr

/-- The buckets and the `entries_` counter. -/
structure DeltaTable (K V : Type*) where
  buckets : List (Option (DeltaTable.Bucket K V))
  entries : ℕ
  deriving DecidableEq, Repr

namespace DeltaTable

variable {K V : Type*}

/-- `size_`, the number of buckets. -/
def size_ (t : DeltaTable K V) : ℕ := t.buckets.length

/-- `size()`, the number of entries. -/
def size (t : DeltaTable K V) : ℕ := t.entries

/-- `empty()`. -/
def empty (t : DeltaTable K V) : Bool := t.size = 0

/-- A table of `n` buckets after `clear()`. -/
def cleared (n : ℕ) : DeltaTable K V := ⟨List.replicate n none, 0⟩

/-- `clear()`. -/
def clear (t : DeltaTable K V) : DeltaTable K V := cleared t.size_

/-- `resize(size)`, over the `put` that its loop calls. `clear()` runs over the new buckets with
an index of type `index`. -/
def resizeWith (index : IndexType) (put : K → V → DeltaTable K V → Outcome K (DeltaTable K V))
    (size : ℕ) (t : DeltaTable K V) : Outcome K (DeltaTable K V) :=
  if size = 0 then .error (.checkSize, t)
  else if t.size_ = size then .ok t
  else if ¬ index.holds size then .error (.indexOverflow, t)
  else
    (reinsert (fun b => put b.k b.v1) t.buckets (cleared size)).bind fun t' =>
      -- `CHECK_EQ(old_entries, entries_)`
      if t.entries = t'.entries then .ok t' else .error (.checkEntries t.entries t'.entries, t')

/-- The position that the loop of `Iterator::Next` stops at when it starts looking at
`pos`. -/
def seek (t : DeltaTable K V) : ℕ → ℕ → ℕ
  | 0, pos => pos
  | fuel + 1, pos =>
    if pos < t.size_ ∧ cellAt t.buckets pos = none then seek t fuel (pos + 1) else pos

/-- The loop of `serializeToNet` and `serializeToFile` with the iterator at `pos`, over what the
body writes. -/
def serializeLoop {D T : Type*} (m : Marshals K V D) (write : T → Bytes → Bytes → T)
    (t : DeltaTable K V) : ℕ → ℕ → T → Except (Fault K) T
  | 0, _, _ => .error .fuel
  | fuel + 1, pos, out =>
    if pos = t.size_ then .ok out
    else
      match cellAt t.buckets pos with
      | none => .error (.outOfRange pos)
      | some b =>
        serializeLoop m write t fuel (seek t (t.size_ + 1) (pos + 1))
          (write out (m.kmarshal.marshal b.k) (m.v1marshal.marshal b.v1))

/-- `serializeToNet(out)`. The iterator calls `Next()` on construction. -/
def serializeToNet {D : Type*} (m : Marshals K V D) (t : DeltaTable K V) :
    Except (Fault K) KVData :=
  serializeLoop m (fun out k v1 => out ++ [(k, v1)]) t (t.size_ + 1) (seek t (t.size_ + 1) 0) []

variable [DecidableEq K] (hash : K → ℕ) (index : IndexType)

/-- `put(k, v1)`. The load test `entries_ > size_ * kLoadFactor` has
`kLoadFactor = 0.8`. -/
def put : ℕ → K → V → DeltaTable K V → Outcome K (DeltaTable K V)
  | 0, _, _, t => .error (.fuel, t)
  | fuel + 1, k, v1, t =>
    let probed := find hash Bucket.k t.buckets k
    -- `probed.2` is the bucket the probe loop stopped at, in use or not
    if probed.1 then
      -- replacing an existing entry
      .ok { t with buckets := t.buckets.set probed.2 (some ⟨k, v1⟩) }
    else if t.size_ * 4 < t.entries * 5 then
      (resizeWith index (put fuel) (index.grown t.size_) t).bind (put fuel k v1)
    else
      .ok ⟨t.buckets.set probed.2 (some ⟨k, v1⟩), t.entries + 1⟩

/-- `resize(size)`. -/
def resize (fuel : ℕ) (size : ℕ) (t : DeltaTable K V) : Outcome K (DeltaTable K V) :=
  resizeWith index (put hash index fuel) size t

/-- The constructor `DeltaTable(size)`, whose argument is an `int`. -/
def new (fuel : ℕ) (size : ℕ) : Outcome K (DeltaTable K V) :=
  resize hash index fuel size (clear ⟨[], 0⟩)

/-- `reset()`: drop the buckets and start over with one. -/
def reset (fuel : ℕ) : Outcome K (DeltaTable K V) := resize hash index fuel 1 ⟨[], 0⟩

/-- `contains(k)`. -/
def contains (t : DeltaTable K V) (k : K) : Bool :=
  (bucketForKey hash Bucket.k t.buckets k).isSome

/-- `get(k)`. -/
def get (t : DeltaTable K V) (k : K) : Except (Fault K) V :=
  (checkedBucket hash Bucket.k t.buckets k).map fun found => found.2.v1

/-- `update(k, v)`. -/
def update (k : K) (v : V) (t : DeltaTable K V) : Outcome K (DeltaTable K V) :=
  match checkedBucket hash Bucket.k t.buckets k with
  | .error e => .error (e, t)
  | .ok (b, c) => .ok { t with buckets := t.buckets.set b (some { c with v1 := v }) }

/-- `accumulate(k, v)`: merge with the pending delta of `k`, if there is one. -/
def accumulate {D : Type*} (kern : IterateKernel K V D) (fuel : ℕ) (k : K) (v : V)
    (t : DeltaTable K V) : Outcome K (DeltaTable K V) :=
  match bucketForKey hash Bucket.k t.buckets k with
  | none => put hash index fuel k v t
  | some b =>
    match cellAt t.buckets b with
    | none => .error (.outOfRange b, t)
    | some c =>
      .ok { t with buckets := t.buckets.set b (some { c with v1 := kern.accumulate c.v1 v }) }

/-- What a table is worked on with. -/
inductive Op (K V : Type*)
  | put (k : K) (v : V)
  | update (k : K) (v : V)
  | accumulate (k : K) (v : V)
  | clear
  | reset
  | resize (size : ℕ)
  deriving DecidableEq, Repr

variable {D : Type*} (kern : IterateKernel K V D)

/-- One operation on the table. -/
def step (fuel : ℕ) (t : DeltaTable K V) : Op K V → Outcome K (DeltaTable K V)
  | .put k v => put hash index fuel k v t
  | .update k v => update hash k v t
  | .accumulate k v => accumulate hash index kern fuel k v t
  | .clear => .ok t.clear
  | .reset => reset hash index fuel
  | .resize size => resize hash index fuel size t

/-- A sequence of operations, with the fault of each one that has one. After a fault
the sequence goes on from the table the fault left. -/
def exec (fuel : ℕ) : DeltaTable K V → List (Op K V) → List (Option (Fault K)) × DeltaTable K V
  | t, [] => ([], t)
  | t, op :: ops =>
    match step hash index kern fuel t op with
    | .ok t' => ((exec fuel t' ops).1.cons none, (exec fuel t' ops).2)
    | .error (e, t') => ((exec fuel t' ops).1.cons (some e), (exec fuel t' ops).2)

/-! ## The finite map behind the table -/

/-- The same operation on a finite map, with the fault it has to report. -/
def specStep (m : Finmap fun _ : K => V) : Op K V → Option (Fault K) × Finmap fun _ : K => V
  | .put k v => (none, m.insert k v)
  | .update k v => if k ∈ m then (none, m.insert k v) else (some (.noEntry k), m)
  | .accumulate k v =>
    match m.lookup k with
    | none => (none, m.insert k v)
    | some a => (none, m.insert k (kern.accumulate a v))
  | .clear => (none, ∅)
  | .reset => (none, ∅)
  | .resize size => if size = 0 then (some .checkSize, m) else (none, m)

/-- A sequence of operations on a finite map. -/
def specExec : (Finmap fun _ : K => V) → List (Op K V) →
    List (Option (Fault K)) × Finmap fun _ : K => V
  | m, [] => ([], m)
  | m, op :: ops =>
    let next := specStep kern m op
    ((specExec next.2 ops).1.cons next.1, (specExec next.2 ops).2)

/-! ## The number of buckets -/

/-- The size after a put of a new key into a table of `size` buckets that has `count` entries. -/
def sizeAfterPut (size count : ℕ) : ℕ := if size * 4 < count * 5 then 1 + size * 2 else size

/-- The size after `count` keys have been put into a table of `size` free buckets. -/
def sizeAfterPuts (size : ℕ) : ℕ → ℕ
  | 0 => size
  | count + 1 => sizeAfterPut (sizeAfterPuts size count) count

/-- The size after one more operation on a table of `size` buckets that holds `m`. -/
def sizeStep (m : Finmap fun _ : K => V) (size : ℕ) : Op K V → ℕ
  | .put k _ | .accumulate k _ => if k ∈ m then size else sizeAfterPut size m.keys.card
  | .update .. | .clear => size
  | .reset => 1
  | .resize n => if n = 0 ∨ size = n then size else sizeAfterPuts n m.keys.card

/-- Every operation leaves a number of buckets that `int` can hold. -/
def SizesFit : (Finmap fun _ : K => V) → ℕ → List (Op K V) → Prop
  | _, _, [] => True
  | m, size, op :: ops =>
    sizeStep m size op < 2 ^ 31 ∧ SizesFit (specStep kern m op).2 (sizeStep m size op) ops

/-- The operations report exactly the faults of the same operations on a finite map, so that
neither the recursion of `put` and `resize` nor the closing check of `resize` is among them, and
`contains`, `get` and `size` of the table they leave read that map off. -/
structure RefinesFinmap (fuel : ℕ) (t : DeltaTable K V) (ops : List (Op K V)) : Prop where
  faults_eq : (exec hash .int kern fuel t ops).1 = (specExec kern ∅ ops).1
  checkEntries_notMem : ∀ old new, some (.checkEntries old new) ∉ (exec hash .int kern fuel t ops).1
  fuel_notMem : some .fuel ∉ (exec hash .int kern fuel t ops).1
  contains_eq : ∀ k, (exec hash .int kern fuel t ops).2.contains hash k =
    decide (k ∈ (specExec kern ∅ ops).2)
  get_eq : ∀ k, (exec hash .int kern fuel t ops).2.get hash k =
    ((specExec kern ∅ ops).2.lookup k).elim (.error (.noEntry k)) .ok
  size_eq : (exec hash .int kern fuel t ops).2.size = (specExec kern ∅ ops).2.keys.card

/-- The table holds the finite map `m` and counts its keys. -/
structure Refines (t : DeltaTable K V) (m : Finmap fun _ : K => V) : Prop where
  represents : Represents hash Bucket.k Bucket.v1 t.buckets m
  entries_eq : t.entries = m.keys.card

variable {hash} {index} {kern} {t : DeltaTable K V} {m : Finmap fun _ : K => V} {k : K} {v : V}
  {fuel n : ℕ}

namespace Refines

theorem size_pos (href : Refines hash t m) : 0 < t.size_ := href.represents.valid.length_pos

theorem card_le_size (href : Refines hash t m) : m.keys.card ≤ t.size_ := by
  rw [← href.represents.occupied_eq]
  exact occupied_le_length _

theorem contains_eq (href : Refines hash t m) : t.contains hash k = decide (k ∈ m) :=
  href.represents.contains_eq

theorem get_eq (href : Refines hash t m) :
    t.get hash k = (m.lookup k).elim (.error (.noEntry k)) .ok := by
  by_cases hk : k ∈ m
  · obtain ⟨c, hlook, -, hm⟩ := href.represents.exists_lookup hk
    rw [get, checkedBucket_of_some href.represents.valid hlook, hm]
    rfl
  · have hnone := href.represents.lookup_eq_none_iff.mpr hk
    rw [get, checkedBucket_of_none href.represents.valid hnone, Finmap.lookup_eq_none.mpr hk]
    rfl

/-- Writing to the bucket of a key that is there. -/
theorem set_of_mem (href : Refines hash t m) (hk : k ∈ m) (v : V) :
    Refines hash
      { t with buckets := t.buckets.set (find hash Bucket.k t.buckets k).2 (some ⟨k, v⟩) }
      (m.insert k v) := by
  refine ⟨?_, by rw [card_keys_insert_of_mem hk]; exact href.entries_eq⟩
  rw [set_find_eq_store (d := (⟨k, v⟩ : Bucket K V)) rfl]
  exact href.represents.store ⟨k, v⟩ (.inl hk)

/-- Writing a new key to the bucket the probe loop stopped at, with room left. -/
theorem set_of_notMem (href : Refines hash t m) (hk : k ∉ m) (hroom : m.keys.card < t.size_)
    (v : V) :
    Refines hash
      ⟨t.buckets.set (find hash Bucket.k t.buckets k).2 (some ⟨k, v⟩), t.entries + 1⟩
      (m.insert k v) := by
  refine ⟨?_, by rw [card_keys_insert_of_notMem hk, href.entries_eq]⟩
  rw [set_find_eq_store (d := (⟨k, v⟩ : Bucket K V)) rfl]
  exact href.represents.store ⟨k, v⟩ (.inr hroom)

theorem lookup_eq_none_of_empty (href : Refines hash t m) (hempty : t.empty = true) :
    m.lookup k = none := by
  have hcard : m.keys.card = 0 := href.entries_eq.symm.trans (of_decide_eq_true hempty)
  rw [Finmap.lookup_eq_none, ← Finmap.mem_keys, Finset.card_eq_zero.mp hcard]
  exact Finset.notMem_empty k

end Refines

theorem refines_cleared (hash : K → ℕ) (hn : 0 < n) :
    Refines hash (cleared n : DeltaTable K V) ∅ :=
  ⟨represents_replicate hash _ _ hn, rfl⟩

omit [DecidableEq K] in
theorem size_cleared : (cleared n : DeltaTable K V).size_ = n := List.length_replicate

/-! ## `put` and `resize` -/

theorem find_eq_true_iff (href : Refines hash t m) :
    (find hash Bucket.k t.buckets k).1 = true ↔ k ∈ m :=
  href.represents.valid.find_eq_true_iff.trans href.represents.lookup_isSome_iff

/-- A put that does not grow the table. -/
theorem put_of_light (index : IndexType) (fuel : ℕ) (v : V) (href : Refines hash t m)
    (hlight : k ∈ m ∨ m.keys.card * 5 ≤ t.size_ * 4) :
    ∃ t', put hash index (fuel + 1) k v t = .ok t' ∧ Refines hash t' (m.insert k v) ∧
      t'.size_ = t.size_ := by
  by_cases hk : k ∈ m
  · refine ⟨_, ?_, href.set_of_mem hk v, by simp [size_]⟩
    simp [put, (find_eq_true_iff href).mpr hk]
  · have hload : m.keys.card * 5 ≤ t.size_ * 4 := hlight.resolve_left hk
    have hpos := href.size_pos
    refine ⟨_, ?_, href.set_of_notMem hk (by omega) v, by simp [size_]⟩
    have hfind : (find hash Bucket.k t.buckets k).1 = false := by
      rw [Bool.eq_false_iff, Ne, find_eq_true_iff href]
      exact hk
    have hload' : ¬ t.size_ * 4 < t.entries * 5 := by rw [href.entries_eq]; omega
    simp [put, hfind, hload']

/-- A put of a new key into a table with too many entries. -/
theorem put_of_heavy (index : IndexType) (fuel : ℕ) (v : V) (href : Refines hash t m)
    (hk : k ∉ m) (hload : t.size_ * 4 < m.keys.card * 5) :
    put hash index (fuel + 1) k v t =
      (resize hash index fuel (index.grown t.size_) t).bind (put hash index fuel k v) := by
  have hfind : (find hash Bucket.k t.buckets k).1 = false := by
    rw [Bool.eq_false_iff, Ne, find_eq_true_iff href]
    exact hk
  have hload' : t.size_ * 4 < t.entries * 5 := by rw [href.entries_eq]; exact hload
  rw [put]
  simp only [hfind, hload', if_true, Bool.false_eq_true, if_false, resize]

theorem resize_zero (hash : K → ℕ) (index : IndexType) (fuel : ℕ) (t : DeltaTable K V) :
    resize hash index fuel 0 t = .error (.checkSize, t) := by
  rw [resize, resizeWith, if_pos rfl]

theorem resize_of_size (hash : K → ℕ) (index : IndexType) (fuel : ℕ) (hn : n ≠ 0)
    (hsize : t.size_ = n) : resize hash index fuel n t = .ok t := by
  rw [resize, resizeWith, if_neg hn, if_pos hsize]

/-- The index of `clear()` cannot run over the new buckets. -/
theorem resize_of_not_holds (hash : K → ℕ) (fuel : ℕ) (hn : n ≠ 0) (hsize : t.size_ ≠ n)
    (hindex : ¬ index.holds n) :
    resize hash index fuel n t = .error (.indexOverflow, t) := by
  rw [resize, resizeWith, if_neg hn, if_neg hsize, if_pos hindex]

/-- The loop of `resize` rebuilds the map it started from, whatever the puts inside
it do to the size. `P` is what they keep of the table, `E` what is known where one stops. -/
theorem resize_ends {E : Fault K × DeltaTable K V → Prop}
    {P : DeltaTable K V → (Finmap fun _ : K => V) → Prop} (href : Refines hash t m) (hn : n ≠ 0)
    (hsize : t.size_ ≠ n) (hindex : index.holds n)
    (hput : ∀ t' m' k v, P t' m' → Refines hash t' m' → k ∉ m' → m'.keys.card < m.keys.card →
      EndsIn E (fun t'' => P t'' (m'.insert k v) ∧ Refines hash t'' (m'.insert k v))
        (put hash index fuel k v t'))
    (hcleared : P (cleared n) ∅) :
    EndsIn E (fun t' => P t' m ∧ Refines hash t' m) (resize hash index fuel n t) := by
  have hmoved := href.represents.reinsert_ends (fun t' m' => P t' m' ∧ Refines hash t' m')
    (fun t' m' c h hc hlt => hput t' m' c.k c.v1 h.1 h.2 hc hlt)
    ⟨hcleared, refines_cleared hash (Nat.pos_of_ne_zero hn)⟩
  rw [resize, resizeWith, if_neg hn, if_neg hsize, if_neg (not_not.mpr hindex)]
  apply hmoved.bind
  rintro t' ⟨hP, href'⟩
  -- the closing check compares the entries of two tables that hold the same map
  rw [if_pos (href.entries_eq.trans href'.entries_eq.symm)]
  exact ⟨hP, href'⟩

theorem le_sizeAfterPut (size count : ℕ) : size ≤ sizeAfterPut size count := by
  rw [sizeAfterPut]
  split <;> omega

theorem sizeAfterPuts_mono (size : ℕ) : Monotone (sizeAfterPuts size) :=
  monotone_nat_of_le_succ fun _ => le_sizeAfterPut _ _

theorem sizeAfterPut_of_light (k : K) {size : ℕ} (hlight : k ∈ m ∨ m.keys.card * 5 ≤ size * 4) :
    (if k ∈ m then size else sizeAfterPut size m.keys.card) = size := by
  split_ifs with hk
  · rfl
  · rw [sizeAfterPut, if_neg (hlight.resolve_left hk).not_gt]

/-- Every put succeeds with two levels of recursion, unless it has to grow the table to a size
that does not fit: the row a full table is moved to is long enough for the moved entries and for
the new one. -/
theorem put_ends (fuel : ℕ) (k : K) (v : V) (href : Refines hash t m)
    (hheld : index.holds t.size_) {size : ℕ}
    (hsize : size = if k ∈ m then t.size_ else sizeAfterPut t.size_ m.keys.card) :
    EndsIn (fun _ => ¬ index.holds size)
      (fun t' => (t'.size_ = size ∧ index.holds t'.size_) ∧ Refines hash t' (m.insert k v))
      (put hash index (fuel + 2) k v t) := by
  by_cases hlight : k ∈ m ∨ m.keys.card * 5 ≤ t.size_ * 4
  · obtain ⟨t', hok, href', hkept⟩ := put_of_light index (fuel + 1) v href hlight
    rw [sizeAfterPut_of_light k hlight] at hsize
    exact .of_ok hok ⟨⟨hkept.trans hsize.symm, hkept.symm ▸ hheld⟩, href'⟩
  -- the put grows the table: it moves to a row of `1 + 2 * size_` buckets first
  obtain ⟨hk, hload⟩ := not_or.mp hlight
  rw [if_neg hk, sizeAfterPut, if_pos (not_le.mp hload)] at hsize
  rw [put_of_heavy index (fuel + 1) v href hk (not_le.mp hload), hsize]
  have hcard := href.card_le_size
  by_cases hindex : index.holds (1 + t.size_ * 2)
  · -- the moved entries number at most `size_`, well below the load of the longer row
    have hinner : ∀ (t' : DeltaTable K V) (m' : Finmap fun _ : K => V) k v,
        t'.size_ = 1 + t.size_ * 2 → Refines hash t' m' → k ∉ m' → m'.keys.card < m.keys.card →
        EndsIn (fun _ => False) (fun t'' => t''.size_ = 1 + t.size_ * 2 ∧
          Refines hash t'' (m'.insert k v)) (put hash index (fuel + 1) k v t') := by
      intro t' m' k v hsize' href' _ hlt
      obtain ⟨t'', hok, href'', hkept⟩ := put_of_light index fuel v href' (k := k)
        (.inr (by omega))
      exact .of_ok hok ⟨hkept.trans hsize', href''⟩
    obtain ⟨t', hok, hsize', href'⟩ := (resize_ends href (by omega) (by omega) hindex hinner
      size_cleared).exists_ok
    obtain ⟨t'', hok', href'', hkept⟩ := put_of_light index fuel v href' (k := k)
      (.inr (by omega))
    have hsize'' := hkept.trans hsize'
    rw [IndexType.grown, if_pos hindex, hok]
    exact .of_ok hok' ⟨⟨hsize'', hsize''.symm ▸ hindex⟩, href''⟩
  · rw [IndexType.grown, if_neg hindex, resize_zero]
    exact hindex

/-- A resize to another positive size keeps the map, also below the number of entries, unless it
comes to a size that does not fit. -/
theorem resize_ends_of_holds (fuel : ℕ) (href : Refines hash t m) (hn : n ≠ 0)
    (hsize : t.size_ ≠ n) (hindex : index.holds n) :
    EndsIn (fun _ => ¬ index.holds (sizeAfterPuts n m.keys.card))
      (fun t' => (t'.size_ = sizeAfterPuts n m.keys.card ∧ index.holds t'.size_) ∧
        Refines hash t' m)
      (resize hash index (fuel + 2) n t) := by
  apply resize_ends (P := fun t' m' => t'.size_ = sizeAfterPuts n m'.keys.card ∧
    index.holds t'.size_) href hn hsize hindex
  · rintro t' m' k v ⟨hsize', hheld⟩ href' hk hlt
    have hafter : sizeAfterPuts n (m'.insert k v).keys.card =
        if k ∈ m' then t'.size_ else sizeAfterPut t'.size_ m'.keys.card := by
      rw [if_neg hk, hsize', card_keys_insert_of_notMem hk, sizeAfterPuts]
    apply (put_ends fuel k v href' hheld hafter).mono ?_ fun _ h => h
    -- a size that does not fit is not outgrown by the rest of the loop
    intro e hnot hfits
    apply hnot
    rw [card_keys_insert_of_notMem hk]
    exact IndexType.holds_of_le hfits (sizeAfterPuts_mono n hlt)
  · simp [size_cleared, sizeAfterPuts, hindex]

/-- Resizing a table that has no buckets yet. -/
theorem resize_nil (hn : n ≠ 0) (hindex : index.holds n) :
    resize hash index fuel n (⟨[], 0⟩ : DeltaTable K V) = .ok (cleared n) := by
  have hsize : (⟨[], 0⟩ : DeltaTable K V).size_ ≠ n := by simpa [size_] using hn.symm
  rw [resize, resizeWith, if_neg hn, if_neg hsize, if_neg (not_not.mpr hindex)]
  rfl

theorem new_eq (hn : n ≠ 0) (hindex : index.holds n) :
    new hash index fuel n = .ok (cleared n : DeltaTable K V) :=
  resize_nil hn hindex

theorem holds_one (index : IndexType) : index.holds 1 := by cases index <;> rfl

theorem new_one : new hash index fuel 1 = .ok (cleared 1 : DeltaTable K V) :=
  new_eq one_ne_zero (holds_one index)

theorem reset_eq : reset hash index fuel = .ok (cleared 1 : DeltaTable K V) :=
  resize_nil one_ne_zero (holds_one index)

theorem update_refines (v : V) (href : Refines hash t m) (hk : k ∈ m) :
    ∃ t', update hash k v t = .ok t' ∧ t'.size_ = t.size_ ∧ Refines hash t' (m.insert k v) := by
  obtain ⟨c, hlook, hc, -⟩ := href.represents.exists_lookup hk
  refine ⟨_, ?_, by simp [size_], href.set_of_mem hk v⟩
  simp [update, checkedBucket_of_some href.represents.valid hlook, hc]

theorem update_of_notMem (href : Refines hash t m) (hk : k ∉ m) :
    update hash k v t = .error (.noEntry k, t) := by
  have hnone := href.represents.lookup_eq_none_iff.mpr hk
  simp [update, checkedBucket_of_none href.represents.valid hnone]

theorem accumulate_of_notMem (kern : IterateKernel K V D) (fuel : ℕ) (v : V)
    (href : Refines hash t m) (hk : k ∉ m) :
    accumulate hash index kern fuel k v t = put hash index fuel k v t := by
  have hfind := mt (find_eq_true_iff href).mp hk
  simp [accumulate, bucketForKey, hfind]

theorem accumulate_refines_of_mem (kern : IterateKernel K V D) (fuel : ℕ) (v : V)
    (href : Refines hash t m) {a : V} (ha : m.lookup k = some a) :
    ∃ t', accumulate hash index kern fuel k v t = .ok t' ∧ t'.size_ = t.size_ ∧
      Refines hash t' (m.insert k (kern.accumulate a v)) := by
  have hk : k ∈ m := Finmap.mem_of_lookup_eq_some ha
  obtain ⟨c, hlook, hc, hm⟩ := href.represents.exists_lookup hk
  obtain rfl : a = c.v1 := Option.some_inj.mp (ha.symm.trans hm)
  refine ⟨_, ?_, by simp [size_], href.set_of_mem hk _⟩
  simp [accumulate, bucketForKey, (find_eq_true_iff href).mpr hk,
    href.represents.valid.cellAt_find hlook, hc]

/-- `accumulate` inserts an absent key and merges a present one. -/
theorem accumulate_ends (kern : IterateKernel K V D) (fuel : ℕ) (k : K) (v : V)
    (href : Refines hash t m) (hheld : index.holds t.size_) {size : ℕ}
    (hsize : size = if k ∈ m then t.size_ else sizeAfterPut t.size_ m.keys.card) :
    EndsIn (fun _ => ¬ index.holds size)
      (fun t' => (t'.size_ = size ∧ index.holds t'.size_) ∧
        Refines hash t' (m.insert k ((m.lookup k).elim v fun a => kern.accumulate a v)))
      (accumulate hash index kern (fuel + 2) k v t) := by
  cases ha : m.lookup k with
  | none =>
    rw [accumulate_of_notMem kern (fuel + 2) v href (Finmap.lookup_eq_none.mp ha)]
    exact put_ends fuel k v href hheld hsize
  | some a =>
    obtain ⟨t', hok, hkept, href'⟩ := accumulate_refines_of_mem kern (fuel + 2) v href ha
    rw [if_pos (Finmap.mem_of_lookup_eq_some ha)] at hsize
    exact .of_ok hok ⟨⟨hkept.trans hsize.symm, hkept.symm ▸ hheld⟩, href'⟩

/-- Without the limits of `int` nothing stops it. -/
theorem accumulate_refines (kern : IterateKernel K V D) (fuel : ℕ) (k : K) (v : V)
    (href : Refines hash t m) :
    ∃ t', accumulate hash .unbounded kern (fuel + 2) k v t = .ok t' ∧
      Refines hash t' (m.insert k ((m.lookup k).elim v fun a => kern.accumulate a v)) := by
  have hheld : IndexType.unbounded.holds t.size_ := rfl
  have hends := accumulate_ends kern fuel k v href hheld rfl
  obtain ⟨t', hok, -, href'⟩ :=
    (hends.mono (fun _ hnot => hnot rfl) fun _ h => h).exists_ok
  exact ⟨t', hok, href'⟩

/-! ## What is sent -/

section Serialize

omit [DecidableEq K]

/-- `Next` stops at the first bucket in use from `pos` on, or at `size_`. -/
theorem seek_spec (t : DeltaTable K V) (fuel pos : ℕ) (hpos : pos ≤ t.size_)
    (hfuel : t.size_ - pos < fuel) :
    (seek t fuel pos = t.size_ ∧ (t.buckets.drop pos).reduceOption = []) ∨
      ∃ b, cellAt t.buckets (seek t fuel pos) = some b ∧ pos ≤ seek t fuel pos ∧
        (t.buckets.drop pos).reduceOption =
          b :: (t.buckets.drop (seek t fuel pos + 1)).reduceOption := by
  induction fuel generalizing pos with
  | zero => omega
  | succ fuel ih =>
    -- inside the row, look at the bucket at `pos`; at its end the iterator is done
    rcases Nat.lt_or_ge pos t.size_ with hlt | hge
    · have hdrop : t.buckets.drop pos = t.buckets[pos] :: t.buckets.drop (pos + 1) :=
        List.drop_eq_getElem_cons hlt
      have hread : cellAt t.buckets pos = t.buckets[pos] := by
        rw [cellAt, List.getElem?_eq_getElem hlt]
        rfl
      cases hcell : t.buckets[pos] with
      | none =>
        have hnone : cellAt t.buckets pos = none := hread.trans hcell
        have hseek : seek t (fuel + 1) pos = seek t fuel (pos + 1) := by
          rw [seek, if_pos ⟨hlt, hnone⟩]
        rw [hseek, hdrop, hcell, List.reduceOption_cons_of_none]
        rcases ih (pos + 1) hlt (by omega) with hend | ⟨b, hb, hle, hrest⟩
        · exact .inl hend
        · exact .inr ⟨b, hb, by omega, hrest⟩
      | some b =>
        have hsome : cellAt t.buckets pos = some b := hread.trans hcell
        have hseek : seek t (fuel + 1) pos = pos := by simp [seek, hsome]
        rw [hseek, hdrop, hcell]
        exact .inr ⟨b, hsome, le_rfl, rfl⟩
    · obtain rfl : pos = t.size_ := le_antisymm hpos hge
      refine .inl ⟨by simp [seek], ?_⟩
      rw [size_, List.drop_length]
      rfl

/-- Every bucket in use is written once, in the order of the buckets. -/
theorem serializeLoop_eq {D T : Type*} (m : Marshals K V D) (write : T → Bytes → Bytes → T)
    (t : DeltaTable K V) (fuel pos : ℕ) (hpos : pos ≤ t.size_) (hfuel : t.size_ - pos < fuel)
    (out : T) :
    serializeLoop m write t fuel (seek t (t.size_ + 1) pos) out =
      .ok ((t.buckets.drop pos).reduceOption.foldl
        (fun out b => write out (m.kmarshal.marshal b.k) (m.v1marshal.marshal b.v1)) out) := by
  induction fuel generalizing pos out with
  | zero => omega
  | succ fuel ih =>
    -- either nothing is left, or one bucket is written and the iterator moves behind it
    rcases seek_spec t (t.size_ + 1) pos hpos (by omega) with ⟨hend, hnil⟩ | ⟨b, hb, hle, hrest⟩
    · simp [serializeLoop, hend, hnil]
    · have hlt : seek t (t.size_ + 1) pos < t.size_ := lt_length_of_cellAt hb
      rw [serializeLoop, if_neg hlt.ne, hb]
      simp only
      rw [ih _ (by omega) (by omega), hrest, List.foldl_cons]

/-- Every bucket in use is sent once, in the order of the buckets. -/
theorem serializeToNet_eq {D : Type*} (m : Marshals K V D) (t : DeltaTable K V) :
    t.serializeToNet m = .ok (t.buckets.reduceOption.map fun b =>
      (m.kmarshal.marshal b.k, m.v1marshal.marshal b.v1)) := by
  rw [serializeToNet, serializeLoop_eq m _ t _ 0 (Nat.zero_le _) (by omega),
    List.drop_zero, List.foldl_append_eq_append, List.nil_append, ← List.flatMap_def,
    ← List.map_eq_flatMap]

theorem decode_serialized {D : Type*} (m : Marshals K V D) (bs : List (Bucket K V)) :
    m.decode (bs.map fun b => (m.kmarshal.marshal b.k, m.v1marshal.marshal b.v1)) =
      bs.map fun b => (b.k, b.v1) := by
  simp [Marshals.decode, Marshal.unmarshal_marshal]

end Serialize

/-! ## Refinement -/

/-- What an operation that does not stop leaves, when the map operation reports no fault. -/
theorem exists_of_endsIn {size : ℕ} {r : Outcome K (DeltaTable K V)}
    (hends : EndsIn (fun _ => ¬ index.holds size)
      (fun t' => (t'.size_ = size ∧ index.holds t'.size_) ∧ Refines hash t' m) r)
    (hfit : index.holds size) :
    ∃ t', t'.size_ = size ∧ Refines hash t' m ∧ r = .ok t' := by
  obtain ⟨t', hok, hkept, href⟩ := (hends.mono (fun _ hnot => hnot hfit) fun _ h => h).exists_ok
  exact ⟨t', hkept.1, href, hok⟩

/-- One operation that leaves a size that fits does what the same operation does on the map, and
reports what the map operation reports. -/
theorem step_refines (kern : IterateKernel K V D) (fuel : ℕ) (href : Refines hash t m)
    (hheld : index.holds t.size_) (op : Op K V) (hfit : index.holds (sizeStep m t.size_ op)) :
    ∃ t', t'.size_ = sizeStep m t.size_ op ∧ Refines hash t' (specStep kern m op).2 ∧
      step hash index kern (fuel + 2) t op =
        (specStep kern m op).1.elim (.ok t') fun e => .error (e, t') := by
  cases op with
  | put k v => exact exists_of_endsIn (put_ends fuel k v href hheld rfl) hfit
  | update k v =>
    by_cases hk : k ∈ m
    · obtain ⟨t', hok, hkept, href'⟩ := update_refines v href hk
      exact ⟨t', hkept, by simpa [specStep, hk] using href',
        by simpa [step, specStep, hk] using hok⟩
    · exact ⟨t, rfl, by simpa [specStep, hk] using href,
        by simpa [step, specStep, hk] using update_of_notMem href hk⟩
  | accumulate k v =>
    have hends := accumulate_ends kern fuel k v href hheld rfl
    cases ha : m.lookup k with
    | none =>
      rw [ha] at hends
      obtain ⟨t', hkept, href', hok⟩ := exists_of_endsIn hends hfit
      exact ⟨t', hkept, by simpa [specStep, ha] using href',
        by simpa [step, specStep, ha] using hok⟩
    | some a =>
      rw [ha] at hends
      obtain ⟨t', hkept, href', hok⟩ := exists_of_endsIn hends hfit
      exact ⟨t', hkept, by simpa [specStep, ha] using href',
        by simpa [step, specStep, ha] using hok⟩
  | clear => exact ⟨t.clear, size_cleared, refines_cleared hash href.size_pos, rfl⟩
  | reset => exact ⟨cleared 1, size_cleared, refines_cleared hash one_pos, reset_eq⟩
  | resize n =>
    by_cases hn : n = 0
    · refine ⟨t, by simp [sizeStep, hn], by simpa [specStep, hn] using href, ?_⟩
      simp only [step, specStep, hn, if_true, resize_zero, Option.elim_some]
    by_cases hsize : t.size_ = n
    · refine ⟨t, by simp [sizeStep, hsize], by simpa [specStep, hn] using href, ?_⟩
      simp only [step, specStep, hn, if_false, resize_of_size _ _ _ hn hsize, Option.elim_none]
    rw [sizeStep, if_neg (not_or.mpr ⟨hn, hsize⟩)] at hfit ⊢
    have hindex : index.holds n := IndexType.holds_of_le hfit (sizeAfterPuts_mono n (Nat.zero_le _))
    obtain ⟨t', hkept, href', hok⟩ :=
      exists_of_endsIn (resize_ends_of_holds fuel href hn hsize hindex) hfit
    exact ⟨t', hkept, by simpa [specStep, hn] using href', by simpa [step, specStep, hn] using hok⟩

/-- An operation that would leave a size that does not fit stops, and the map operation has no
fault. -/
theorem step_ne_ok (kern : IterateKernel K V D) (fuel : ℕ) (href : Refines hash t m)
    (hheld : index.holds t.size_) (op : Op K V) (hfit : ¬ index.holds (sizeStep m t.size_ op)) :
    (specStep kern m op).1 = none ∧
      ∀ t', step hash index kern (fuel + 2) t op ≠ .ok t' := by
  cases op with
  | put k v =>
    refine ⟨rfl, fun t' hok => hfit ?_⟩
    obtain ⟨⟨hkept, hheld'⟩, -⟩ := (put_ends fuel k v href hheld rfl).ok_imp hok
    rw [sizeStep, ← hkept]
    exact hheld'
  | accumulate k v =>
    refine ⟨by rw [specStep]; split <;> rfl, fun t' hok => hfit ?_⟩
    obtain ⟨⟨hkept, hheld'⟩, -⟩ := (accumulate_ends kern fuel k v href hheld rfl).ok_imp hok
    rw [sizeStep, ← hkept]
    exact hheld'
  | update | clear => exact absurd hheld hfit
  | reset => exact absurd (holds_one index) hfit
  | resize n =>
    by_cases hstay : n = 0 ∨ t.size_ = n
    · rw [sizeStep, if_pos hstay] at hfit
      exact absurd hheld hfit
    rw [sizeStep, if_neg hstay] at hfit
    obtain ⟨hn, hsize⟩ := not_or.mp hstay
    refine ⟨by simp [specStep, hn], fun t' hok => ?_⟩
    rw [step] at hok
    by_cases hindex : index.holds n
    · obtain ⟨⟨hkept, hheld'⟩, -⟩ :=
        (resize_ends_of_holds fuel href hn hsize hindex).ok_imp hok
      exact hfit (hkept ▸ hheld')
    · rw [resize_of_not_holds hash (fuel + 2) hn hsize hindex] at hok
      cases hok

/-- The faults of a run and of the map operations are the same exactly as long as every size
fits. -/
theorem exec_refines_iff (kern : IterateKernel K V D) (fuel : ℕ) (href : Refines hash t m)
    (hheld : t.size_ < 2 ^ 31) (ops : List (Op K V)) :
    (SizesFit kern m t.size_ ops →
      (exec hash .int kern (fuel + 2) t ops).1 = (specExec kern m ops).1 ∧
        Refines hash (exec hash .int kern (fuel + 2) t ops).2 (specExec kern m ops).2) ∧
    ((exec hash .int kern (fuel + 2) t ops).1 = (specExec kern m ops).1 →
      SizesFit kern m t.size_ ops) := by
  induction ops generalizing t m with
  | nil => exact ⟨fun _ => ⟨rfl, href⟩, fun _ => trivial⟩
  | cons op ops ih =>
    have hholds := IndexType.holds_int.mpr hheld
    by_cases hfit : sizeStep m t.size_ op < 2 ^ 31
    · obtain ⟨t', hkept, href', hr⟩ :=
        step_refines kern fuel href hholds op (IndexType.holds_int.mpr hfit)
      -- a fault leaves a table from which the run goes on like after a success
      have hexec : exec hash .int kern (fuel + 2) t (op :: ops) =
          ((specStep kern m op).1 :: (exec hash .int kern (fuel + 2) t' ops).1,
            (exec hash .int kern (fuel + 2) t' ops).2) := by
        cases hspec : (specStep kern m op).1 <;> simp [exec, hr, hspec]
      obtain ⟨hforth, hback⟩ := ih href' (hkept ▸ hfit)
      rw [hexec, specExec, SizesFit, ← hkept]
      constructor
      · intro hfits
        obtain ⟨hfaults, hend⟩ := hforth hfits.2
        exact ⟨congrArg _ hfaults, hend⟩
      · intro hfaults
        exact ⟨hkept ▸ hfit, hback (List.cons.inj hfaults).2⟩
    · -- the table stops where the map does not
      refine ⟨fun hfits => absurd hfits.1 hfit, fun hfaults => ?_⟩
      obtain ⟨hnone, hne⟩ :=
        step_ne_ok kern fuel href hholds op (mt IndexType.holds_int.mp hfit)
      rw [exec, specExec, hnone] at hfaults
      cases hstep : step hash .int kern (fuel + 2) t op with
      | ok t' => exact absurd hstep (hne t')
      | error e =>
        rw [hstep] at hfaults
        cases hfaults

/-- The only faults of the map operations are those of absent keys and of `resize(0)`. -/
theorem specExec_faults (kern : IterateKernel K V D) (m : Finmap fun _ : K => V)
    (ops : List (Op K V)) (e : Fault K) (he : some e ∈ (specExec kern m ops).1) :
    e = .checkSize ∨ ∃ k, e = .noEntry k := by
  induction ops generalizing m with
  | nil => simp [specExec] at he
  | cons op ops ih =>
    simp only [specExec, List.mem_cons] at he
    refine he.elim (fun hhead => ?_) (ih _)
    cases op with
    | put | clear | reset => simp [specStep] at hhead
    | update k v =>
      simp only [specStep] at hhead
      split at hhead
      · simp at hhead
      · exact .inr ⟨k, by simpa using hhead⟩
    | accumulate k v =>
      simp only [specStep] at hhead
      split at hhead <;> simp at hhead
    | resize size =>
      simp only [specStep] at hhead
      split at hhead
      · exact .inl (by simpa using hhead)
      · simp at hhead

/-- **`DeltaTable` refines a finite map exactly as long as its sizes are values of `int`.** From
the constructor on, under any hash function and any fuel from two on, the operations report the
faults of the same operations on a finite map and no others, and `contains`, `get` and `size` read
that map off, if and only if the number of buckets stays below `2 ^ 31`: every resize is to fewer
buckets, and no put of a new key has to grow a table of `2 ^ 30` buckets or more. -/
theorem refines_finmap_iff (hash : K → ℕ) (kern : IterateKernel K V D) (fuel size : ℕ)
    (hsize : 0 < size) (hint : size < 2 ^ 31) (ops : List (Op K V)) :
    ∃ t, new hash .int (fuel + 2) size = .ok t ∧
      (RefinesFinmap hash kern (fuel + 2) t ops ↔ SizesFit kern ∅ size ops) := by
  refine ⟨cleared size, new_eq hsize.ne' (IndexType.holds_int.mpr hint), ?_⟩
  have hcleared : (cleared size : DeltaTable K V).size_ = size := size_cleared
  obtain ⟨hforth, hback⟩ := exec_refines_iff kern fuel (refines_cleared hash hsize)
    (hcleared.symm ▸ hint) ops
  rw [hcleared] at hforth hback
  refine ⟨fun h => hback h.faults_eq, fun hfits => ?_⟩
  obtain ⟨hfaults, href⟩ := hforth hfits
  have hspec := specExec_faults kern ∅ ops
  refine ⟨hfaults, ?_, ?_, fun k => href.contains_eq, fun k => href.get_eq, href.entries_eq⟩
  · intro old new hmem
    rcases hspec _ (hfaults ▸ hmem) with he | ⟨k, he⟩ <;> cases he
  · intro hmem
    rcases hspec _ (hfaults ▸ hmem) with he | ⟨k, he⟩ <;> cases he

theorem refines_finmap_iff_three_colliding_keys :
    (0 < 1 ∧ 1 < 2 ^ 31) ∧ ∃ t, new (fun _ : ℕ => 7) .int 2 1 = .ok t ∧
      (exec (fun _ => 7) .int walkKernel 2 t
        [.put 0 5, .put 1 6, .accumulate 1 2, .accumulate 2 9, .resize 1, .update 8 8]).1 =
        [none, none, none, none, none, some (.noEntry 8)] := by
  obtain ⟨t, hnew, hiff⟩ := refines_finmap_iff (fun _ : ℕ => 7) walkKernel 0 1 one_pos (by decide)
    [.put 0 5, .put 1 6, .accumulate 1 2, .accumulate 2 9, .resize 1, .update 8 8]
  have hrefines := hiff.mpr (by simp only [SizesFit]; decide)
  exact ⟨⟨one_pos, by decide⟩, t, hnew, hrefines.faults_eq.trans (by decide)⟩

/-- An empty table cannot be resized to `2 ^ 31` buckets. -/
theorem delta_resize_overflows_index :
    ∃ t, new (fun k : ℕ => k) .int 2 1 = .ok t ∧
      (exec (fun k : ℕ => k) .int walkKernel 2 t [.resize (2 ^ 31)]).1 = [some .indexOverflow] ∧
      ¬ RefinesFinmap (fun k : ℕ => k) walkKernel 2 t [.resize (2 ^ 31)] := by
  have hstep : step (fun k : ℕ => k) .int walkKernel 2 (cleared 1) (.resize (2 ^ 31)) =
      .error (.indexOverflow, cleared 1) :=
    resize_of_not_holds _ 2 (by decide) (by decide) (by decide)
  have hfault : (exec (fun k : ℕ => k) .int walkKernel 2 (cleared 1) [.resize (2 ^ 31)]).1 =
      [some .indexOverflow] := by
    rw [exec, hstep]
    rfl
  refine ⟨cleared 1, new_one, hfault, fun h => ?_⟩
  have hspec := hfault.symm.trans h.faults_eq
  simp [specExec, specStep] at hspec

/-! ## Without the limits of `int` -/

/-- Without the limits, a table holds a finite map after any operations. -/
theorem exec_unbounded_refines (kern : IterateKernel K V D) (fuel : ℕ) (href : Refines hash t m)
    (ops : List (Op K V)) :
    ∃ m', Refines hash (exec hash .unbounded kern (fuel + 2) t ops).2 m' := by
  induction ops generalizing t m with
  | nil => exact ⟨m, href⟩
  | cons op ops ih =>
    have hheld : IndexType.unbounded.holds t.size_ := rfl
    obtain ⟨t', -, href', hr⟩ := step_refines kern fuel href hheld op rfl
    obtain ⟨m', hend⟩ := ih href'
    refine ⟨m', ?_⟩
    cases hspec : (specStep kern m op).1 <;> simpa [exec, hr, hspec] using hend

omit [DecidableEq K] in
theorem reinsert_ok_of_ok {put put' : K → V → DeltaTable K V → Outcome K (DeltaTable K V)}
    (hput : ∀ k v t t', put k v t = .ok t' → put' k v t = .ok t')
    (cells : List (Option (Bucket K V))) {t t' : DeltaTable K V}
    (hok : reinsert (fun b => put b.k b.v1) cells t = .ok t') :
    reinsert (fun b => put' b.k b.v1) cells t = .ok t' := by
  induction cells generalizing t with
  | nil => exact hok
  | cons x cells ih =>
    cases x with
    | none => exact ih hok
    | some c =>
      obtain ⟨t₁, hok₁, hrest⟩ := bind_eq_ok.mp hok
      rw [reinsert, hput c.k c.v1 t t₁ hok₁]
      exact ih hrest

omit [DecidableEq K] in
theorem resizeWith_ok_of_ok {put put' : K → V → DeltaTable K V → Outcome K (DeltaTable K V)}
    (hput : ∀ k v t t', put k v t = .ok t' → put' k v t = .ok t') {t t' : DeltaTable K V}
    (hok : resizeWith index put n t = .ok t') : resizeWith .unbounded put' n t = .ok t' := by
  rw [resizeWith] at hok ⊢
  split_ifs at hok with hn hsize hindex
  · exact (if_neg hn).trans ((if_pos hsize).trans hok)
  · obtain ⟨t₁, hok₁, hcheck⟩ := bind_eq_ok.mp hok
    have hholds : ¬ ¬ IndexType.unbounded.holds n = true := not_not.mpr rfl
    rw [if_neg hn, if_neg hsize, if_neg hholds, reinsert_ok_of_ok hput _ hok₁]
    exact hcheck

/-- A put that returns also returns without the limits, and the same table. -/
theorem put_unbounded_of_ok (fuel : ℕ) (k : K) (v : V) (t t' : DeltaTable K V)
    (hok : put hash index fuel k v t = .ok t') : put hash .unbounded fuel k v t = .ok t' := by
  induction fuel generalizing k v t t' with
  | zero => exact hok
  | succ fuel ih =>
    rw [put] at hok ⊢
    split_ifs at hok with hfind hload
    · rw [if_pos hfind]
      exact hok
    · -- a size that `int` cannot hold would have stopped the resize
      obtain ⟨t₁, hok₁, hrest⟩ := bind_eq_ok.mp hok
      have hgrown : index.grown t.size_ = IndexType.unbounded.grown t.size_ := by
        by_cases hindex : index.holds (1 + t.size_ * 2)
        · rw [IndexType.grown, if_pos hindex]
          rfl
        · rw [IndexType.grown, if_neg hindex, resizeWith, if_pos rfl] at hok₁
          cases hok₁
      rw [hgrown] at hok₁
      rw [if_neg hfind, if_pos hload, resizeWith_ok_of_ok ih hok₁]
      exact ih k v t₁ t' hrest
    · rw [if_neg hfind, if_neg hload]
      exact hok

/-- What the code returns, the tables of the propagation model return as well. -/
theorem step_unbounded_of_ok (kern : IterateKernel K V D) (fuel : ℕ) {op : Op K V}
    {t' : DeltaTable K V} (hok : step hash index kern fuel t op = .ok t') :
    step hash .unbounded kern fuel t op = .ok t' := by
  cases op with
  | put k v => exact put_unbounded_of_ok fuel k v t t' hok
  | update | clear => exact hok
  | accumulate k v =>
    rw [step, accumulate] at hok ⊢
    cases hb : bucketForKey hash Bucket.k t.buckets k with
    | none =>
      rw [hb] at hok
      exact put_unbounded_of_ok fuel k v t t' hok
    | some b =>
      rw [hb] at hok
      exact hok
  | reset =>
    rw [step, reset, resize] at hok ⊢
    exact resizeWith_ok_of_ok (put_unbounded_of_ok fuel) hok
  | resize n =>
    rw [step, resize] at hok ⊢
    exact resizeWith_ok_of_ok (put_unbounded_of_ok fuel) hok

end DeltaTable

end MaiterStore
