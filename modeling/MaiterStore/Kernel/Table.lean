/-
# The pieces every table is made of

The user's kernel, the ways a table operation can abort, and the bucket search
that `StateTable` and `DeltaTable` share (`kernel/table.h`, `kernel/local-table.h`).

Both tables are closed hash tables. A bucket whose `in_use` flag is off is an empty
cell: no code reads the other fields of such a bucket. Sizes and counters are
natural numbers.
-/

import MaiterStore.CS.FiniteMap
import MaiterStore.CS.LinearProbing

namespace MaiterStore

open CS.FiniteMap CS.LinearProbing CS.Run

/-- What stops a table operation. -/
inductive Fault (K : Type*)
  /-- `CHECK_NE(b, -1) << "No entry for requested key <" ...` -/
  | noEntry (k : K)
  /-- `CHECK_GT(size, 0)` in `resize`. -/
  | checkSize
  /-- `CHECK_EQ(old_entries, entries_)` at the end of `DeltaTable::resize`. -/
  | checkEntries (old new : ℕ)
  /-- A virtual call through a null pointer. -/
  | nullPointer
  /-- The loop of `clear()` over `size_` buckets would overflow its `int` index, which C++
  leaves undefined. -/
  | indexOverflow
  /-- A bucket outside `[0, size_)` is read. -/
  | outOfRange (pos : ℤ)
  /-- A bucket that is not in use is read. -/
  | notInUse (pos : ℤ)
  /-- `PCHECK(fp != NULL)` when a file is opened. -/
  | noFile
  /-- The model stopped the mutual recursion of `put` and `resize`. -/
  | fuel
  deriving DecidableEq, Repr

/-- The outcome of an operation on a table of type `T`. A fault keeps the table as
it was when the operation stopped. -/
abbrev Outcome (K T : Type*) := Except (Fault K × T) T

/-- The table an operation leaves, whether it aborted or not. -/
def Outcome.table {K T : Type*} : Outcome K T → T
  | .ok t => t
  | .error e => e.2

theorem Outcome.of_endsIn {K T : Type*} {P : T → Prop} {r : Outcome K T}
    (hends : EndsIn (fun e => P e.2) P r) : P r.table := by
  cases r <;> exact hends

/-- The user-defined iterate kernel, with the number `zero` of its value type. A
reference parameter that a method fills in is its result; `processDeltaV` returns the
new `delta`, `value` and `data`. -/
structure IterateKernel (K V D : Type*) where
  zero : V
  initC : K → D → V
  initV : K → D → V
  defaultV : V
  accumulate : V → V → V
  processDeltaV : K → V → V → D → V × V × D
  priority : (value delta : V) → V
  gFunc : K → (delta value : V) → D → List (K × V)

/-- A string of bytes. -/
abbrev Bytes := List UInt8

/-- `Marshal<T>`. `read s behind` is what `unmarshal` makes of the string `s` when the bytes
`behind` lie after it in memory: the general `Marshal` copies `sizeof(T)` bytes from where the
string begins, however long it is. A string that `marshal` wrote is long enough. A reference
parameter that a method fills in is its result. -/
structure Marshal (A : Type*) where
  marshal : A → Bytes
  read : Bytes → (ℕ → UInt8) → A
  read_marshal : ∀ a behind, read (marshal a) behind = a

/-- `unmarshal`, for strings that `marshal` wrote: with nothing but zeros behind them. -/
def Marshal.unmarshal {A : Type*} (m : Marshal A) (s : Bytes) : A := m.read s fun _ => 0

theorem Marshal.unmarshal_marshal {A : Type*} (m : Marshal A) (a : A) :
    m.unmarshal (m.marshal a) = a := m.read_marshal a _

/-- The marshallers in the descriptor of a table. -/
structure Marshals (K V D : Type*) where
  kmarshal : Marshal K
  v1marshal : Marshal V
  v2marshal : Marshal V
  v3marshal : Marshal D

/-- The `kv_data` of a `KVPairData` message: marshalled keys and values of `F1`. -/
abbrev KVData := List (Bytes × Bytes)

/-- The pairs that `deserializeFromNet` decodes. -/
def Marshals.decode {K V D : Type*} (m : Marshals K V D) (data : KVData) : List (K × V) :=
  data.map fun kv => (m.kmarshal.unmarshal kv.1, m.v1marshal.unmarshal kv.2)

/-- The type of the index of the loop in `clear()` and of the size that `put` grows a table to.
Both are `int` in the code; `unbounded` leaves the limits of the type out of account. -/
inductive IndexType
  | int
  | unbounded
  deriving DecidableEq, Repr

/-- `n` is a value of the type. -/
def IndexType.holds : IndexType → ℕ → Bool
  | .int, n => n < 2 ^ 31
  | .unbounded, _ => true

/-- `(int)(1 + size_ * 2)`. From `2 ^ 30` buckets on the value is negative, and `resize` refuses it
as it refuses `0`. -/
def IndexType.grown (index : IndexType) (size : ℕ) : ℕ :=
  if index.holds (1 + size * 2) then 1 + size * 2 else 0

theorem IndexType.holds_int {n : ℕ} : IndexType.int.holds n = true ↔ n < 2 ^ 31 :=
  decide_eq_true_iff

theorem IndexType.holds_of_le {index : IndexType} {m n : ℕ} (hn : index.holds n = true)
    (hle : m ≤ n) : index.holds m = true := by
  cases index with
  | int => exact holds_int.mpr (hle.trans_lt (holds_int.mp hn))
  | unbounded => rfl

/-- The pairs as `serializeToNet` encodes them. -/
def Marshals.encode {K V D : Type*} (m : Marshals K V D) (pairs : List (K × V)) : KVData :=
  pairs.map fun kv => (m.kmarshal.marshal kv.1, m.v1marshal.marshal kv.2)

/-- The depth of the recursion of `put` through `resize` that is ever reached. -/
def recursionDepth : ℕ := 2

section Buckets

variable {K B T : Type*} [DecidableEq K]

/-- `bucket_for_key`: the bucket of `k`, or `none` for `-1`. -/
def bucketForKey (hash : K → ℕ) (key : B → K) (buckets : List (Option B)) (k : K) : Option ℕ :=
  if (find hash key buckets k).1 then some (find hash key buckets k).2 else none

/-- `int b = bucket_for_key(k); CHECK_NE(b, -1)`, with the bucket that is then
read. -/
def checkedBucket (hash : K → ℕ) (key : B → K) (buckets : List (Option B)) (k : K) :
    Except (Fault K) (ℕ × B) :=
  match bucketForKey hash key buckets k with
  | none => .error (.noEntry k)
  | some b =>
    match cellAt buckets b with
    | none => .error (.outOfRange b)
    | some c => .ok (b, c)

variable {hash : K → ℕ} {key : B → K} {buckets : List (Option B)} {k : K} {c d : B}

theorem bucketForKey_isSome (hvalid : Valid hash key buckets) :
    (bucketForKey hash key buckets k).isSome = (lookup key buckets k).isSome := by
  rw [bucketForKey, Bool.eq_iff_iff, ← hvalid.find_eq_true_iff]
  split <;> simp_all

theorem checkedBucket_of_some (hvalid : Valid hash key buckets)
    (hlook : lookup key buckets k = some c) :
    checkedBucket hash key buckets k = .ok ((find hash key buckets k).2, c) := by
  have hfind : (find hash key buckets k).1 = true :=
    hvalid.find_eq_true_iff.mpr (by rw [hlook]; rfl)
  simp [checkedBucket, bucketForKey, hfind, hvalid.cellAt_find hlook]

theorem checkedBucket_of_none (hvalid : Valid hash key buckets)
    (hlook : lookup key buckets k = none) :
    checkedBucket hash key buckets k = .error (.noEntry k) := by
  have hfind : (find hash key buckets k).1 = false := by
    rw [Bool.eq_false_iff, Ne, hvalid.find_eq_true_iff, hlook]
    simp
  simp [checkedBucket, bucketForKey, hfind]

/-- Writing to the bucket found for a key is storing an entry with that key. -/
theorem set_find_eq_store (hd : key d = k) :
    buckets.set (find hash key buckets k).2 (some d) = store hash key buckets d := by
  rw [store, hd]

end Buckets

section Represents

variable {K B A : Type*} [DecidableEq K]

/-- A row of buckets holds a finite map: the search is exact and the buckets in use
are the entries of the map. -/
structure Represents (hash : K → ℕ) (key : B → K) (val : B → A) (buckets : List (Option B))
    (m : Finmap fun _ : K => A) : Prop where
  valid : Valid hash key buckets
  lookup_eq : ∀ k, (lookup key buckets k).map val = m.lookup k

variable {hash : K → ℕ} {key : B → K} {val : B → A} {buckets : List (Option B)}
  {m : Finmap fun _ : K => A} {k : K} {c d : B}

namespace Represents

variable (hrep : Represents hash key val buckets m)
include hrep

theorem lookup_eq_none_iff : lookup key buckets k = none ↔ k ∉ m := by
  rw [← Finmap.lookup_eq_none, ← hrep.lookup_eq, Option.map_eq_none_iff]

theorem lookup_isSome_iff : (lookup key buckets k).isSome ↔ k ∈ m := by
  rw [← Finmap.lookup_isSome, ← hrep.lookup_eq, Option.isSome_map]

theorem exists_lookup (hk : k ∈ m) :
    ∃ c, lookup key buckets k = some c ∧ key c = k ∧ m.lookup k = some (val c) := by
  obtain ⟨c, hc⟩ := Option.isSome_iff_exists.mp (hrep.lookup_isSome_iff.mpr hk)
  exact ⟨c, hc, (exists_cellAt_of_lookup hc).1, by rw [← hrep.lookup_eq, hc]; rfl⟩

/-- The number of buckets in use is the number of keys. -/
theorem occupied_eq : occupied buckets = m.keys.card :=
  hrep.valid.occupied_eq_card fun _ => Finmap.mem_keys.trans hrep.lookup_isSome_iff.symm

theorem contains_eq : (bucketForKey hash key buckets k).isSome = decide (k ∈ m) := by
  rw [bucketForKey_isSome hrep.valid, Bool.eq_iff_iff, decide_eq_true_iff, hrep.lookup_isSome_iff]

/-- Storing under a key that is there, or in a row with room, inserts in the map. -/
theorem store (c : B) (hroom : key c ∈ m ∨ m.keys.card < buckets.length) :
    Represents hash key val (store hash key buckets c) (m.insert (key c) (val c)) := by
  refine ⟨hrep.valid.store c, fun k => ?_⟩
  have hstore := hrep.valid.lookup_store c
    (by rwa [hrep.lookup_isSome_iff, hrep.occupied_eq]) k
  rw [hstore]
  split_ifs with hk
  · rw [hk, Finmap.lookup_insert, Option.map_some]
  · rw [Finmap.lookup_insert_of_ne _ hk, hrep.lookup_eq]

end Represents

/-- Moving a row that holds `m` into an empty table rebuilds `m`, unless a put stops. `Q t m'` is
what is known of the new table once the entries in `m'` have been put, `E` what is known where it
stops. -/
theorem Represents.reinsert_ends {ε T : Type*} {put : B → T → Except ε T} {E : ε → Prop}
    (Q : T → (Finmap fun _ : K => A) → Prop) {t₀ : T} (hrep : Represents hash key val buckets m)
    (hput : ∀ t m' c, Q t m' → key c ∉ m' → m'.keys.card < m.keys.card →
      EndsIn E (fun t' => Q t' (m'.insert (key c) (val c))) (put c t))
    (hempty : Q t₀ ∅) : EndsIn E (fun t => Q t m) (reinsert put buckets t₀) := by
  let R : ℕ → (K → Option A) → T → Prop := fun j f t =>
    ∃ m', Q t m' ∧ (∀ k, m'.lookup k = f k) ∧ m'.keys.card = j
  have hstep : ∀ j f t c, j < m.keys.card → R j f t → f (key c) = none →
      EndsIn E (R (j + 1) (Function.update f (key c) (some (val c)))) (put c t) := by
    rintro j f t c hj ⟨m', hQ, hlook, rfl⟩ hfresh
    have hc : key c ∉ m' := Finmap.lookup_eq_none.mp ((hlook _).trans hfresh)
    apply (hput t m' c hQ hc hj).imp
    intro t' hQ'
    refine ⟨_, hQ', fun k => ?_, card_keys_insert_of_notMem hc⟩
    by_cases hk : k = key c
    · rw [hk, Finmap.lookup_insert, Function.update_self]
    · rw [Finmap.lookup_insert_of_ne _ hk, Function.update_of_ne hk, hlook]
  have hcard : 0 + occupied buckets ≤ m.keys.card := by rw [hrep.occupied_eq, Nat.zero_add]
  have hends := reinsert_spec val hstep hcard hrep.valid.nodup_keys (fun _ _ => rfl)
    ⟨∅, hempty, fun _ => Finmap.lookup_empty _, by simp⟩
  apply hends.imp
  rintro t ⟨m', hQ, hlook, -⟩
  have hm : m' = m := Finmap.ext_lookup fun k => by
    rw [← hrep.lookup_eq]
    exact (hlook k).trans Option.or_none
  exact hm ▸ hQ

/-- Where no put stops, the whole row is moved. -/
theorem Represents.reinsert {ε T : Type*} {put : B → T → Except ε T}
    (Q : T → (Finmap fun _ : K => A) → Prop) {t₀ : T} (hrep : Represents hash key val buckets m)
    (hput : ∀ t m' c, Q t m' → key c ∉ m' → m'.keys.card < m.keys.card →
      ∃ t', put c t = .ok t' ∧ Q t' (m'.insert (key c) (val c)))
    (hempty : Q t₀ ∅) :
    ∃ t, reinsert put buckets t₀ = .ok t ∧ Q t m := by
  apply EndsIn.exists_ok
  refine hrep.reinsert_ends Q (fun t m' c hQ hc hlt => ?_) hempty
  obtain ⟨t', hok, hQ'⟩ := hput t m' c hQ hc hlt
  exact .of_ok hok hQ'

/-- A row in which the search is exact holds some finite map. -/
theorem exists_represents (val : B → A) (hvalid : Valid hash key buckets) :
    ∃ m, Represents hash key val buckets m := by
  let entry : B → Sigma fun _ : K => A := fun c => ⟨key c, val c⟩
  refine ⟨(buckets.reduceOption.map entry).toFinmap, hvalid, fun k => ?_⟩
  calc (lookup key buckets k).map val
      = (buckets.reduceOption.map entry).dlookup k := ?_
    _ = (buckets.reduceOption.map entry).dedupKeys.dlookup k := (List.dlookup_dedupKeys k _).symm
  rw [lookup]
  generalize buckets.reduceOption = entries
  induction entries with
  | nil => rfl
  | cons c entries ih =>
    by_cases hk : key c = k
    · subst hk
      simp [entry]
    · simp [entry, hk, Ne.symm hk, ih]

theorem represents_replicate (hash : K → ℕ) (key : B → K) (val : B → A) {n : ℕ} (hn : 0 < n) :
    Represents hash key val (List.replicate n none) ∅ :=
  ⟨valid_replicate hash key hn, fun k => by simp⟩

end Represents

/-- A kernel with values in the naturals that passes its delta on to every neighbour
listed in the data, so that the values count walks. -/
def sumKernel {K D : Type*} (neighbours : D → List K) : IterateKernel K ℕ D where
  zero := 0
  initC _ _ := 1
  initV _ _ := 0
  defaultV := 0
  accumulate a b := a + b
  processDeltaV _ delta value data := (delta, value, data)
  priority _ delta := delta
  gFunc _ delta _ data := (neighbours data).map fun target => (target, delta)

/-- The kernel whose data is the list of neighbours. -/
def walkKernel : IterateKernel ℕ ℕ (List ℕ) := sumKernel fun targets => targets

/-- Numbers as runs of zero bytes. -/
def unaryMarshal : Marshal ℕ :=
  ⟨fun n => List.replicate n 0, fun s _ => s.length, fun _ _ => List.length_replicate⟩

/-- `Marshal<string>`, which goes by the length of the string. -/
def stringMarshal : Marshal Bytes := ⟨fun s => s, fun s _ => s, fun _ _ => rfl⟩

def unaryMarshals : Marshals ℕ ℕ Bytes := ⟨unaryMarshal, unaryMarshal, unaryMarshal, stringMarshal⟩

end MaiterStore
