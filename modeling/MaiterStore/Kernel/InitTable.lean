/-
# Filling the state tables

`MaiterKernel1` (`kernel/kernel.h`) runs once for every shard, on the owner of the shard.
Its first run on a worker puts a state table in place of the buffer of each local shard.
Every run then sets the size of these tables, reads the whole list of keys and puts the
keys of the local shards. So a worker with several shards reads the list several times.

The size of a table is `num_nodes / num_shards + 1`. The keys below `num_nodes` that fall
to one shard of the modulo sharder are no more than that, so that every put of a fresh key
finds a free bucket. With `2 ^ 31` buckets or more for a table, `resize` does not get through.
-/

import Mathlib.Data.Int.CardIntervalMod
import MaiterStore.Kernel.GlobalTable
import MaiterStore.Store.Text

namespace MaiterStore

open CS.LinearProbing CS.Run

/-- `contains(k)` of a partition. -/
def Partition.contains {K V D : Type*} [DecidableEq K] (hash : K → ℕ) (k : K) :
    Partition K V D → Bool
  | .state t => t.contains hash k
  | .delta t => t.contains hash k

/-- A call on a state table, with the table it found. -/
inductive TableCall (K V D : Type*)
  | put (t : StateTable K V D) (k : K)
  | resize (t : StateTable K V D) (size : ℕ)

/-- A put replaces an entry or finds a free bucket, and a resize has nothing to put again. -/
def TableCall.Fits {K V D : Type*} [DecidableEq K] (hash : K → ℕ) : TableCall K V D → Prop
  | .put t k => t.contains hash k = true ∨ occupied t.buckets < t.size_
  | .resize t size => t.size_ = size ∨ occupied t.buckets = 0

/-- The table a `MaiterKernel1` works on and its flag `binit`. `calls` records the calls on
state tables. -/
structure MaiterKernel1 (ι K V D : Type*) where
  table : GlobalTable ι K V D
  binit : Bool
  calls : List (TableCall K V D)

namespace MaiterKernel1

/-! ## The kernel -/

/-- `splitString(line, delimiter)`. After the last delimiter `getline` finds no word in an
empty rest. -/
def splitString (line : Text) (delimiter : Char) : List Text :=
  if delimiter ∈ line then
    let words := line.splitOn delimiter
    if words.getLast? = some [] then words.dropLast else words
  else []

/-- `FileManager::readFully(buffer)`, which stops at `char(-1)`. -/
def readFully (file : Text) : Text := file.takeWhile (· ≠ '\xff')

section Kernel

variable {ι K V D : Type*} [DecidableEq ι] [DecidableEq K] [Inhabited D]
  (d : TableDescriptor ι K V D)

/-- `TypedGlobalTable::put(k, v1, v2, v3)`. A put for a remote shard is only counted. -/
def put (k : K) (v1 v2 : V) (v3 : D) (m : MaiterKernel1 ι K V D) :
    Except (Fault K) (MaiterKernel1 ι K V D) :=
  let shard := d.getShard k
  if m.table.isLocalShard d shard then
    match m.table.partitions shard with
    | .delta _ => .error .nullPointer
    | .state t =>
      match t.put d.hash d.kern recursionDepth k v1 v2 v3 with
      | .error e => .error e.1
      | .ok t' => .ok { m with
          table := m.table.setPartition shard (.state t')
          calls := m.calls ++ [.put t k] }
  else .ok { m with table := { m.table with pendingWrites := m.table.pendingWrites + 1 } }

/-- The body of the loop of `InitStateTable`. The factory constructs a `StateTable(1)`. -/
def createLocal (i : ℕ) (m : MaiterKernel1 ι K V D) : Except (Fault K) (MaiterKernel1 ι K V D) :=
  if m.table.isLocalShard d i then
    match StateTable.new d.hash d.kern recursionDepth 1 with
    | .error e => .error e.1
    | .ok t => .ok { m with table := m.table.setPartition i (.state t) }
  else .ok m

/-- `InitStateTable()`. -/
def initStateTable (m : MaiterKernel1 ι K V D) : Except (Fault K) (MaiterKernel1 ι K V D) :=
  (forEach (createLocal d) (List.range d.numShards) m).map fun m' => { m' with binit := true }

/-- The body of the loop of `resize`. -/
def resizeShard (size i : ℕ) (m : MaiterKernel1 ι K V D) :
    Except (Fault K) (MaiterKernel1 ι K V D) :=
  if m.table.isLocalShard d i then
    match m.table.partitions i with
    | .state t =>
      match t.resize d.hash d.kern recursionDepth size with
      | .error e => .error e.1
      | .ok t' => .ok { m with
          table := m.table.setPartition i (.state t')
          calls := m.calls ++ [.resize t size] }
    | .delta t =>
      match t.resize d.hash .int recursionDepth size with
      | .error e => .error e.1
      | .ok t' => .ok { m with table := m.table.setPartition i (.delta t') }
  else .ok m

/-- `resize(new_size)`. -/
def resize (newSize : ℕ) (m : MaiterKernel1 ι K V D) : Except (Fault K) (MaiterKernel1 ι K V D) :=
  forEach (resizeShard d (newSize / d.numShards + 1)) (List.range d.numShards) m

variable (getKey : Text → K)

/-- A round of the loop of `read_file`. The `data` it passes on is default constructed. -/
def putWord (word : Text) (m : MaiterKernel1 ι K V D) : Except (Fault K) (MaiterKernel1 ι K V D) :=
  let key := getKey word
  let value := d.kern.initV key default
  let delta := d.kern.initC key default
  m.put d key delta value default

/-- `read_file(table)`. -/
def readFile (keysFile : Text) (m : MaiterKernel1 ι K V D) :
    Except (Fault K) (MaiterKernel1 ι K V D) :=
  forEach (putWord d getKey) (splitString (readFully keysFile) '#') m

/-- `run()`, which is `init_table(a)`. -/
def run (numNodes : ℕ) (keysFile : Text) (m : MaiterKernel1 ι K V D) :
    Except (Fault K) (MaiterKernel1 ι K V D) :=
  (if m.binit then .ok m else m.initStateTable d).bind fun m₁ =>
    (m₁.resize d numNodes).bind fun m₂ => m₂.readFile d getKey keysFile

/-- The runs for the shards of a list, one after the other, each on the owner of the shard.
Workers share no table, so that nothing depends on the order of two runs on different
workers. -/
def runAll (numNodes : ℕ) (keysFile : Text) :
    List ℕ → (ι → MaiterKernel1 ι K V D) → Except (Fault K) (ι → MaiterKernel1 ι K V D) :=
  forEach fun i tables =>
    ((tables (d.owner i)).run d getKey numNodes keysFile).map (Function.update tables (d.owner i))

end Kernel

/-! ## The words of the file -/

/-- The file that lists the words, as `BlockWriter::saveKeys` writes it. -/
def fileOf (words : List Text) : Text := words.flatMap (· ++ ['#'])

theorem splitOn_fileOf {words : List Text} (hwords : ∀ t ∈ words, '#' ∉ t) :
    (fileOf words).splitOn '#' = words ++ [[]] := by
  have hjoin : fileOf words = ['#'].intercalate (words ++ [[]]) := by
    induction words with
    | nil => rfl
    | cons t words ih =>
      have hcons : fileOf (t :: words) = t ++ ['#'] ++ fileOf words := rfl
      rw [hcons, ih fun t' ht' => hwords t' (List.mem_cons_of_mem _ ht'), List.cons_append,
        List.intercalate_cons_of_ne_nil (by simp), List.append_assoc]
  rw [hjoin, List.splitOn_intercalate _ _ (by simp)]
  intro t ht
  rcases List.mem_append.mp ht with ht | ht
  · exact hwords t ht
  · rw [List.mem_singleton.mp ht]
    exact List.not_mem_nil

/-- `read_file` finds the words. -/
theorem splitString_fileOf {words : List Text} (hwords : ∀ t ∈ words, '#' ∉ t ∧ '\xff' ∉ t) :
    splitString (readFully (fileOf words)) '#' = words := by
  have hread : readFully (fileOf words) = fileOf words := by
    refine List.takeWhile_eq_self_iff.mpr fun c hc => ?_
    rw [decide_eq_true_eq]
    rintro rfl
    obtain ⟨t, ht, hc⟩ := List.mem_flatMap.mp hc
    rcases List.mem_append.mp hc with hc | hc
    · exact (hwords t ht).2 hc
    · exact absurd (List.mem_singleton.mp hc) (by decide)
  rw [hread, splitString, splitOn_fileOf fun t ht => (hwords t ht).1]
  cases words with
  | nil => rfl
  | cons t words =>
    have hmem : '#' ∈ fileOf (t :: words) := by simp [fileOf]
    have hlast : (t :: words ++ [[]]).getLast? = some [] := List.getLast?_concat
    simp only [if_pos hmem, hlast, if_true, List.dropLast_concat]

/-! ## What the state tables hold -/

section Local

variable {ι K V D : Type*} [DecidableEq K] {d : TableDescriptor ι K V D}

/-- On a worker the partitions of the local shards are state tables with `P`, and the others
are those of `start`. All calls have found room. -/
structure Local (d : TableDescriptor ι K V D) (start : GlobalTable ι K V D)
    (P : ℕ → StateTable K V D → Prop) (m : MaiterKernel1 ι K V D) : Prop where
  id_eq : m.table.id = start.id
  state : ∀ i < d.numShards, d.owner i = start.id → ∃ t, m.table.partitions i = .state t ∧ P i t
  other : ∀ i, d.owner i ≠ start.id → m.table.partitions i = start.partitions i
  calls : ∀ c ∈ m.calls, c.Fits d.hash

variable {start : GlobalTable ι K V D} {P Q : ℕ → StateTable K V D → Prop}
  {m : MaiterKernel1 ι K V D} {i : ℕ}

theorem Local.isLocal_iff [DecidableEq ι] (h : Local d start P m) :
    m.table.isLocalShard d i = true ↔ d.owner i = start.id := by
  rw [GlobalTable.isLocalShard, decide_eq_true_eq, h.id_eq]

theorem Local.imp (h : Local d start P m)
    (himp : ∀ i < d.numShards, d.owner i = start.id → ∀ t, P i t → Q i t) :
    Local d start Q m where
  id_eq := h.id_eq
  state i hi hown := by
    obtain ⟨t, hpart, ht⟩ := h.state i hi hown
    exact ⟨t, hpart, himp i hi hown t ht⟩
  other := h.other
  calls := h.calls

/-- One of the state tables is exchanged, with a call that fits. -/
theorem Local.set (h : Local d start P m) (hown : d.owner i = start.id) {t' : StateTable K V D}
    (ht' : Q i t') (himp : ∀ j t, j ≠ i → P j t → Q j t) {c : TableCall K V D}
    (hc : c.Fits d.hash) :
    Local d start Q
      { m with table := m.table.setPartition i (.state t'), calls := m.calls ++ [c] } where
  id_eq := h.id_eq
  state j hj hown' := by
    rcases eq_or_ne j i with rfl | hji
    · exact ⟨t', GlobalTable.setPartition_self .., ht'⟩
    · obtain ⟨t, hpart, ht⟩ := h.state j hj hown'
      exact ⟨t, (GlobalTable.setPartition_of_ne _ hji _).trans hpart, himp j t hji ht⟩
  other j hj := by
    have hji : j ≠ i := fun hji => hj (hji ▸ hown)
    exact (GlobalTable.setPartition_of_ne _ hji _).trans (h.other j hj)
  calls c' hc' := by
    rcases List.mem_append.mp hc' with hc' | hc'
    · exact h.calls c' hc'
    · exact List.mem_singleton.mp hc' ▸ hc

end Local

/-! ## The steps of a run -/

section Run

variable {ι K V D : Type*} [DecidableEq ι] [DecidableEq K] [Inhabited D]
  {d : TableDescriptor ι K V D} {start : GlobalTable ι K V D} {m : MaiterKernel1 ι K V D}

/-- What a put of `k` stores. -/
def record (d : TableDescriptor ι K V D) (k : K) : V × V × D :=
  (d.kern.initC k default, d.kern.initV k default, default)

/-- The table of shard `i` has the records of some of its keys. Unless it is empty its size
has been set. -/
structure Holds (d : TableDescriptor ι K V D) (keys : List K) (size i : ℕ) (t : StateTable K V D)
    (map : Finmap fun _ : K => V × V × D) : Prop where
  refines : StateTable.Refines d.hash t ⟨map, t.size_, 0⟩
  record_eq : ∀ k r, map.lookup k = some r → k ∈ keys ∧ d.getShard k = i ∧ r = record d k
  sized : t.size_ = size ∨ map = ∅

variable {keys : List K} {size : ℕ}

/-- A table is in one of the stages of a run: it holds some of the keys, or its size is set
as well, or it has all keys of `done` too. -/
def Sized (d : TableDescriptor ι K V D) (keys : List K) (size : ℕ) (done : List K) (i : ℕ)
    (t : StateTable K V D) : Prop :=
  ∃ map, Holds d keys size i t map ∧ t.size_ = size ∧ ∀ k ∈ done, d.getShard k = i → k ∈ map

/-- Nothing has been created yet on worker `w`: every partition is a new buffer. -/
structure Created (d : TableDescriptor ι K V D) (w : ι) (m : MaiterKernel1 ι K V D) : Prop where
  id_eq : m.table.id = w
  binit : m.binit = false
  calls : m.calls = []
  delta : ∀ i, ∃ t, DeltaTable.new d.hash .unbounded recursionDepth 1 = .ok t ∧
    m.table.partitions i = .delta t

/-- What `InitStateTable` has made of the shards in `done`. -/
structure Creating (d : TableDescriptor ι K V D) (start : GlobalTable ι K V D) (done : List ℕ)
    (m : MaiterKernel1 ι K V D) : Prop where
  id_eq : m.table.id = start.id
  calls : m.calls = []
  state : ∀ i ∈ done, d.owner i = start.id → m.table.partitions i = .state (.cleared 1 0)
  other : ∀ i, d.owner i ≠ start.id → m.table.partitions i = start.partitions i

omit [Inhabited D] in
theorem createLocal_spec {done : List ℕ} (hm : Creating d start done m) (i : ℕ) :
    ∃ m', m.createLocal d i = .ok m' ∧ Creating d start (done ++ [i]) m' := by
  by_cases hown : d.owner i = start.id
  · have hlocal : m.table.isLocalShard d i = true := by
      rw [GlobalTable.isLocalShard, decide_eq_true_eq, hm.id_eq, hown]
    refine ⟨{ m with table := m.table.setPartition i (.state (.cleared 1 0)) }, ?_, hm.id_eq,
      hm.calls, fun j hj hown' => ?_, fun j hj => ?_⟩
    · rw [createLocal, if_pos hlocal, StateTable.new_eq d.hash d.kern _ Nat.one_ne_zero
        (by decide)]
    · rcases eq_or_ne j i with rfl | hji
      · exact GlobalTable.setPartition_self ..
      · rw [List.mem_append, List.mem_singleton] at hj
        exact (GlobalTable.setPartition_of_ne _ hji _).trans
          (hm.state j (hj.resolve_right hji) hown')
    · have hji : j ≠ i := fun hji => hj (hji ▸ hown)
      exact (GlobalTable.setPartition_of_ne _ hji _).trans (hm.other j hj)
  · have hlocal : ¬ m.table.isLocalShard d i = true := by
      rw [GlobalTable.isLocalShard, decide_eq_true_eq, hm.id_eq]
      exact hown
    refine ⟨m, by rw [createLocal, if_neg hlocal], hm.id_eq, hm.calls,
      fun j hj hown' => ?_, hm.other⟩
    rcases List.mem_append.mp hj with hj | hj
    · exact hm.state j hj hown'
    · exact absurd (List.mem_singleton.mp hj ▸ hown') hown

omit [Inhabited D] in
/-- `InitStateTable` leaves an empty table for each local shard. -/
theorem initStateTable_creates {w : ι} (hm : Created d w m) :
    ∃ m', m.initStateTable d = .ok m' ∧ m'.binit = true ∧
      Creating d m.table (List.range d.numShards) m' := by
  have hstart : Creating d m.table [] m :=
    ⟨rfl, hm.calls, fun _ hi => absurd hi List.not_mem_nil, fun _ _ => rfl⟩
  have hloop : Ends False (Creating d m.table (List.range d.numShards))
      (forEach (createLocal d) (List.range d.numShards) m) := by
    refine ends_forEach (I := Creating d m.table) _ (fun done i _ m' hm' => ?_) hstart
    obtain ⟨m'', hok, hm''⟩ := createLocal_spec hm' i
    exact .of_ok hok hm''
  obtain ⟨m', hok, hm'⟩ := hloop.exists_ok not_false
  exact ⟨{ m' with binit := true }, by rw [initStateTable, hok]; rfl, rfl, hm'.id_eq, hm'.calls,
    hm'.state, hm'.other⟩

theorem initStateTable_spec {w : ι} (hm : Created d w m) :
    ∃ m', m.initStateTable d = .ok m' ∧ m'.binit = true ∧
      Local d m.table (fun i t => ∃ map, Holds d keys size i t map) m' := by
  obtain ⟨m', hok, hbinit, hm'⟩ := initStateTable_creates hm
  refine ⟨m', hok, hbinit, hm'.id_eq, fun i hi hown => ?_, hm'.other, ?_⟩
  · refine ⟨_, hm'.state i (List.mem_range.mpr hi) hown, ∅, ?_, fun k r hr => ?_, .inr rfl⟩
    · exact StateTable.refines_cleared d.hash Nat.one_pos 0
    · rw [Finmap.lookup_empty] at hr
      cases hr
  · rw [hm'.calls]
    exact fun c hc => absurd hc List.not_mem_nil

/-- While `resize` works on the shards one after the other. -/
def Resizing (d : TableDescriptor ι K V D) (keys : List K) (size : ℕ) (done : List ℕ) (i : ℕ)
    (t : StateTable K V D) : Prop :=
  ∃ map, Holds d keys size i t map ∧ (i ∈ done → t.size_ = size)

omit [Inhabited D] in
theorem resizeShard_of_state {i : ℕ} {t t' : StateTable K V D}
    (hlocal : m.table.isLocalShard d i = true) (hpart : m.table.partitions i = .state t)
    (hok : t.resize d.hash d.kern recursionDepth size = .ok t') :
    m.resizeShard d size i = .ok { m with
      table := m.table.setPartition i (.state t')
      calls := m.calls ++ [.resize t size] } := by
  rw [resizeShard, if_pos hlocal, hpart]
  simp only [hok]

theorem resizeShard_spec (hsize : size ≠ 0) (hint : size < 2 ^ 31) {done : List ℕ} {i : ℕ}
    (hi : i < d.numShards) (hm : Local d start (Resizing d keys size done) m) :
    ∃ m', m.resizeShard d size i = .ok m' ∧ m'.binit = m.binit ∧
      Local d start (Resizing d keys size (done ++ [i])) m' := by
  -- the other shards are in the list only if they were before
  have hother : ∀ j t, j ≠ i → Resizing d keys size done j t →
      Resizing d keys size (done ++ [i]) j t := by
    rintro j t hji ⟨map, hmap, hdone⟩
    refine ⟨map, hmap, fun hj => ?_⟩
    rw [List.mem_append, List.mem_singleton] at hj
    exact hdone (hj.resolve_right hji)
  by_cases hown : d.owner i = start.id
  · obtain ⟨t, hpart, map, hmap, -⟩ := hm.state i hi hown
    have hcard : map.keys.card ≤ size := by
      rcases hmap.sized with hsized | hempty
      · rw [← hmap.refines.represents.occupied_eq, ← hsized]
        exact occupied_le_length t.buckets
      · rw [hempty]
        exact Nat.zero_le _
    obtain ⟨t', hok, href⟩ := StateTable.resize_refines d.kern 1 hmap.refines hsize hint hcard
    have hfits : (TableCall.resize t size).Fits d.hash := by
      refine hmap.sized.imp_right fun hempty => ?_
      rw [hmap.refines.represents.occupied_eq, hempty]
      rfl
    have hsize' : t'.size_ = size := href.size_eq
    refine ⟨_, resizeShard_of_state (hm.isLocal_iff.mpr hown) hpart hok, rfl, hm.set hown
      ⟨map, ⟨?_, hmap.record_eq, .inl hsize'⟩, fun _ => hsize'⟩ hother hfits⟩
    rw [hsize']
    exact href
  · refine ⟨m, by rw [resizeShard, if_neg (mt hm.isLocal_iff.mp hown)], rfl, hm.imp ?_⟩
    exact fun j _ hj t => hother j t fun hji => hown (hji ▸ hj)

theorem resize_spec {n : ℕ} (hsize : size = n / d.numShards + 1) (hint : size < 2 ^ 31)
    (hm : Local d start (fun i t => ∃ map, Holds d keys size i t map) m) :
    ∃ m', m.resize d n = .ok m' ∧ m'.binit = m.binit ∧ Local d start (Sized d keys size []) m' := by
  have hstart : m.binit = m.binit ∧ Local d start (Resizing d keys size []) m := by
    refine ⟨rfl, hm.imp fun i _ _ t ht => ?_⟩
    obtain ⟨map, hmap⟩ := ht
    exact ⟨map, hmap, fun hi => absurd hi List.not_mem_nil⟩
  let I (done : List ℕ) (m' : MaiterKernel1 ι K V D) : Prop :=
    m'.binit = m.binit ∧ Local d start (Resizing d keys size done) m'
  have hloop : Ends False (I (List.range d.numShards))
      (forEach (resizeShard d size) (List.range d.numShards) m) := by
    refine ends_forEach (I := I) _ (fun done i hi m' hm' => ?_) hstart
    obtain ⟨m'', hok, hbinit, hm''⟩ :=
      resizeShard_spec (hsize ▸ Nat.succ_ne_zero _) hint (List.mem_range.mp hi) hm'.2
    exact .of_ok hok ⟨hbinit.trans hm'.1, hm''⟩
  obtain ⟨m', hok, hbinit, hm'⟩ := hloop.exists_ok not_false
  refine ⟨m', by rw [resize, ← hsize, hok], hbinit, hm'.imp fun i hi _ t ht => ?_⟩
  obtain ⟨map, hmap, hdone⟩ := ht
  exact ⟨map, hmap, hdone (List.mem_range.mpr hi), fun k hk => absurd hk List.not_mem_nil⟩

omit [Inhabited D] in
theorem put_of_state {k : K} {v1 v2 : V} {v3 : D} {t t' : StateTable K V D}
    (hlocal : m.table.isLocalShard d (d.getShard k) = true)
    (hpart : m.table.partitions (d.getShard k) = .state t)
    (hok : t.put d.hash d.kern recursionDepth k v1 v2 v3 = .ok t') :
    m.put d k v1 v2 v3 = .ok { m with
      table := m.table.setPartition (d.getShard k) (.state t')
      calls := m.calls ++ [.put t k] } := by
  rw [put]
  simp only [if_pos hlocal, hpart, hok]

omit [Inhabited D] in
theorem put_of_remote {k : K} {v1 v2 : V} {v3 : D}
    (hremote : ¬ m.table.isLocalShard d (d.getShard k) = true) :
    m.put d k v1 v2 v3 = .ok { m with
      table := { m.table with pendingWrites := m.table.pendingWrites + 1 } } := by
  rw [put]
  simp only [if_neg hremote]

/-- A put of a key of the list. -/
theorem put_spec {k : K} (hk : k ∈ keys)
    (hroom : ∀ i (S : Finset K), (∀ k ∈ S, k ∈ keys ∧ d.getShard k = i) → S.card ≤ size)
    {done : List K} (hm : Local d start (Sized d keys size done) m) :
    ∃ m', m.put d k (d.kern.initC k default) (d.kern.initV k default) default = .ok m' ∧
      m'.binit = m.binit ∧ Local d start (Sized d keys size (done ++ [k])) m' := by
  -- the tables of other shards do not get the key
  have hother : ∀ j t, j ≠ d.getShard k → Sized d keys size done j t →
      Sized d keys size (done ++ [k]) j t := by
    rintro j t hj ⟨map, hmap, hsized, hdone⟩
    refine ⟨map, hmap, hsized, fun k' hk' hshard => ?_⟩
    rcases List.mem_append.mp hk' with hk' | hk'
    · exact hdone k' hk' hshard
    · exact absurd (List.mem_singleton.mp hk' ▸ hshard).symm hj
  by_cases hown : d.owner (d.getShard k) = start.id
  · obtain ⟨t, hpart, map, hmap, hsized, hdone⟩ := hm.state _ (d.getShard_lt k) hown
    -- the keys in the table and `k` are keys of one shard
    have hfree : k ∈ map ∨ map.keys.card < t.size_ := by
      by_cases hmem : k ∈ map
      · exact .inl hmem
      · right
        have hcard := hroom (d.getShard k) (insert k map.keys) (by
          intro k' hk'
          rcases Finset.mem_insert.mp hk' with rfl | hk'
          · exact ⟨hk, rfl⟩
          · obtain ⟨r, hr⟩ := Finmap.mem_iff.mp (Finmap.mem_keys.mp hk')
            obtain ⟨hkeys, hshard, -⟩ := hmap.record_eq k' r hr
            exact ⟨hkeys, hshard⟩)
        rw [Finset.card_insert_of_notMem (mt Finmap.mem_keys.mp hmem)] at hcard
        omega
    obtain ⟨t', hok, href⟩ := StateTable.put_refines d.kern 1 k (d.kern.initC k default)
      (d.kern.initV k default) default hmap.refines hfree
    have hfits : (TableCall.put t k).Fits d.hash := by
      refine hfree.imp (fun hmem => ?_) fun hlt => ?_
      · rw [hmap.refines.contains_eq, decide_eq_true_eq]
        exact hmem
      · rwa [hmap.refines.represents.occupied_eq]
    have hsize' : t'.size_ = t.size_ := href.size_eq
    refine ⟨_, put_of_state (hm.isLocal_iff.mpr hown) hpart hok, rfl,
      hm.set hown ⟨map.insert k (record d k), ⟨?_, ?_, .inl (hsize'.trans hsized)⟩,
        hsize'.trans hsized, ?_⟩ hother hfits⟩
    · rw [hsize']
      exact href
    · intro k' r hr
      rcases eq_or_ne k' k with rfl | hne
      · rw [Finmap.lookup_insert] at hr
        exact ⟨hk, rfl, (Option.some.inj hr).symm⟩
      · rw [Finmap.lookup_insert_of_ne _ hne] at hr
        exact hmap.record_eq k' r hr
    · intro k' hk' hshard
      rw [Finmap.mem_insert]
      rcases List.mem_append.mp hk' with hk' | hk'
      · exact .inr (hdone k' hk' hshard)
      · exact .inl (List.mem_singleton.mp hk')
  · refine ⟨_, put_of_remote (mt hm.isLocal_iff.mp hown), rfl, ?_⟩
    have hkept := hm.imp fun j _ hj t => hother j t fun hji => hown (hji ▸ hj)
    exact ⟨hkept.id_eq, hkept.state, hkept.other, hkept.calls⟩

/-- `read_file` puts all keys of the local shards. -/
theorem readFile_spec {getKey : Text → K} {words : List Text}
    (hwords : ∀ t ∈ words, '#' ∉ t ∧ '\xff' ∉ t ∧ getKey t ∈ keys)
    (hroom : ∀ i (S : Finset K), (∀ k ∈ S, k ∈ keys ∧ d.getShard k = i) → S.card ≤ size)
    (hm : Local d start (Sized d keys size []) m) :
    ∃ m', m.readFile d getKey (fileOf words) = .ok m' ∧ m'.binit = m.binit ∧
      Local d start (Sized d keys size (words.map getKey)) m' := by
  have hsplit : splitString (readFully (fileOf words)) '#' = words :=
    splitString_fileOf fun t ht => ⟨(hwords t ht).1, (hwords t ht).2.1⟩
  let I (done : List Text) (m' : MaiterKernel1 ι K V D) : Prop :=
    m'.binit = m.binit ∧ Local d start (Sized d keys size (done.map getKey)) m'
  have hstart : I [] m := ⟨rfl, hm⟩
  have hloop : Ends False (I words) (forEach (putWord d getKey) words m) := by
    refine ends_forEach (I := I) _ (fun done t ht m' hm' => ?_) hstart
    obtain ⟨m'', hok, hbinit, hm''⟩ := put_spec (hwords t ht).2.2 hroom hm'.2
    refine .of_ok hok ⟨hbinit.trans hm'.1, ?_⟩
    rw [List.map_append]
    exact hm''
  obtain ⟨m', hok, hm'⟩ := hloop.exists_ok not_false
  exact ⟨m', by rw [readFile, hsplit, hok], hm'⟩

/-- The worker has not run the kernel yet, or its state tables have all their keys. -/
def Between (d : TableDescriptor ι K V D) (start : GlobalTable ι K V D) (keys : List K) (size : ℕ)
    (ran : Prop) (m : MaiterKernel1 ι K V D) : Prop :=
  ¬ ran ∧ m.table = start ∧ Created d start.id m ∨
    ran ∧ m.binit = true ∧ Local d start (Sized d keys size keys) m

/-- **One run of the kernel.** Whether it is the first one on the worker or not, the state
tables have all keys of the list that belong to them and no others. -/
theorem run_spec {getKey : Text → K} {words : List Text} {n : ℕ} {ran : Prop}
    (hint : n / d.numShards + 1 < 2 ^ 31) (hwords : ∀ t ∈ words, '#' ∉ t ∧ '\xff' ∉ t)
    (hroom : ∀ i (S : Finset K), (∀ k ∈ S, k ∈ words.map getKey ∧ d.getShard k = i) →
      S.card ≤ n / d.numShards + 1)
    (hm : Between d start (words.map getKey) (n / d.numShards + 1) ran m) :
    ∃ m', m.run d getKey n (fileOf words) = .ok m' ∧
      Between d start (words.map getKey) (n / d.numShards + 1) True m' := by
  have hinit : ∃ m₁, (if m.binit then .ok m else m.initStateTable d) = .ok m₁ ∧
      m₁.binit = true ∧
      Local d start (fun i t => ∃ map, Holds d (words.map getKey) (n / d.numShards + 1) i t map)
        m₁ := by
    rcases hm with ⟨-, rfl, hcreated⟩ | ⟨-, hbinit, hfull⟩
    · rw [hcreated.binit, if_neg Bool.false_ne_true]
      exact initStateTable_spec hcreated
    · rw [if_pos hbinit]
      refine ⟨m, rfl, hbinit, hfull.imp fun i _ _ t ht => ?_⟩
      obtain ⟨map, hmap, -⟩ := ht
      exact ⟨map, hmap⟩
  obtain ⟨m₁, hok₁, hbinit₁, hm₁⟩ := hinit
  obtain ⟨m₂, hok₂, hbinit₂, hm₂⟩ := resize_spec rfl hint hm₁
  obtain ⟨m₃, hok₃, hbinit₃, hm₃⟩ := readFile_spec
    (fun t ht => ⟨(hwords t ht).1, (hwords t ht).2, List.mem_map_of_mem ht⟩) hroom hm₂
  refine ⟨m₃, ?_, .inr ⟨trivial, hbinit₃.trans (hbinit₂.trans hbinit₁), hm₃⟩⟩
  rw [run, hok₁]
  simp only [Except.bind, hok₂, hok₃]

end Run

/-! ## Every vertex is initialised once -/

section Vertices

variable {ι V D : Type*}

section Full

variable [Inhabited D] {d : TableDescriptor ι ℕ V D} {keys : List ℕ} {size i : ℕ}
  {t : StateTable ℕ V D}
  {map : Finmap fun _ : ℕ => V × V × D}

/-- The table of a shard with all of its keys. -/
theorem Holds.contains_iff (h : Holds d keys size i t map)
    (hall : ∀ k ∈ keys, d.getShard k = i → k ∈ map) (k : ℕ) :
    t.contains d.hash k = true ↔ k ∈ keys ∧ d.getShard k = i := by
  rw [h.refines.contains_eq, decide_eq_true_eq]
  constructor
  · intro hmem
    obtain ⟨r, hr⟩ := Finmap.mem_iff.mp hmem
    obtain ⟨hkey, hshard, -⟩ := h.record_eq k r hr
    exact ⟨hkey, hshard⟩
  · exact fun ⟨hkey, hshard⟩ => hall k hkey hshard

theorem Holds.fields_eq (h : Holds d keys size i t map) {k : ℕ} (hk : k ∈ map) :
    t.getF1 d.hash k = .ok (d.kern.initC k default) ∧
      t.getF2 d.hash k = .ok (d.kern.initV k default) := by
  obtain ⟨r, hr⟩ := Finmap.mem_iff.mp hk
  obtain ⟨-, -, rfl⟩ := h.record_eq k r hr
  constructor
  · exact (StateTable.read_of_represents h.refines.represents (·.1)).trans (by rw [hr]; rfl)
  · exact (StateTable.read_of_represents h.refines.represents (·.2.1)).trans (by rw [hr]; rfl)

end Full

variable [DecidableEq ι] [Inhabited D]

end Vertices

end MaiterKernel1

end MaiterStore
