/-
# Checkpoints of a local shard

`LocalTable` (`kernel/local-table.cc`) writes the state table of a shard to a record
file, logs the put requests that arrive while the checkpoint is open to a second file,
and reads both back on `restore`.

Two things keep this from working. `serializeToFile` asks for its iterator with a null
helper, which `get_iterator` calls at once, and its loop reads the bucket under the
cursor before it first moves the cursor away from `-1`. Replay goes through
`update_str`, which puts a whole record where the live path accumulates into `F1`.
-/

import MaiterStore.Kernel.StateTableGrowth

namespace MaiterStore

open CS.LinearProbing CS.Run

/-! ## Record files -/

/-- The four chunks of an entry. -/
structure Entry where
  k : Bytes
  v1 : Bytes
  v2 : Bytes
  v3 : Bytes
  deriving DecidableEq, Repr

/-- `LocalTableCoder::WriteEntryToFile`. -/
def writeEntryToFile (file : List Bytes) (e : Entry) : List Bytes :=
  file ++ [e.k, e.v1, e.v2, e.v3]

/-- `RecordFile::readChunk`: whether a chunk was there, the chunk, and the rest of the
file. -/
def readChunk : List Bytes → Bool × Bytes × List Bytes
  | [] => (false, [], [])
  | c :: file => (true, c, file)

/-- `LocalTableCoder::ReadEntryFromFile`. Only the first of its four reads is checked. -/
def readEntryFromFile (file : List Bytes) : Option (Entry × List Bytes) :=
  let k := readChunk file
  let v1 := readChunk k.2.2
  let v2 := readChunk v1.2.2
  let v3 := readChunk v2.2.2
  if k.1 then some (⟨k.2.1, v1.2.1, v2.2.1, v3.2.1⟩, v3.2.2) else none

/-- The bytes that lie in memory behind the strings `k`, `v1`, `v2` and `v3` of a round of
`restore`. -/
structure Behind where
  k : ℕ → UInt8
  v1 : ℕ → UInt8
  v2 : ℕ → UInt8
  v3 : ℕ → UInt8

/-- What is on disk, by path. -/
abbrev Disk := String → Option (List Bytes)

/-! ## The iterator -/

namespace StateTable

variable {K V D : Type*}

/-- `StateTable::Iterator`, over the table given with each call. -/
structure Iterator where
  pos : ℤ
  deriving DecidableEq, Repr

namespace Iterator

/-- The cursor as the constructor leaves it. -/
def new : Iterator := ⟨-1⟩

/-- `done()`. -/
def done (i : Iterator) (t : StateTable K V D) : Bool := i.pos + 1 = t.size_

/-- The loop of `Next()`. From `-1` on it ends within `size_ + 1` rounds. -/
def advance (t : StateTable K V D) : ℕ → ℤ → ℤ
  | 0, pos => pos
  | fuel + 1, pos =>
    if pos + 1 < t.size_ ∧ cellAt t.buckets (pos + 1).toNat = none then advance t fuel (pos + 1)
    else pos + 1

/-- `Next()`, without its result. -/
def next (i : Iterator) (t : StateTable K V D) : Iterator := ⟨advance t (t.size_ + 1) i.pos⟩

/-- The bucket that `key()`, `value1()`, `value2()` and `value3()` read. -/
def bucket (i : Iterator) (t : StateTable K V D) : Except (Fault K) (Bucket K V D) :=
  if i.pos < 0 ∨ (t.size_ : ℤ) ≤ i.pos then .error (.outOfRange i.pos)
  else (cellAt t.buckets i.pos.toNat).elim (.error (.notInUse i.pos)) .ok

/-- The pass over the whole table that `get_iterator` makes when it gives up waiting. -/
def entirePass (t : StateTable K V D) : ℕ → Iterator → Iterator
  | 0, i => i
  | fuel + 1, i =>
    if i.done t then i
    else if t.size_ ≤ (i.next t).pos then i.next t
    else entirePass t fuel (i.next t)

end Iterator

end StateTable

/-! ## A local shard -/

open StateTable (Iterator)

/-- The state table of a shard, the path of its open `delta_file_` with what has been
written to it, and the flag `terminated_`. A file is renamed to its path when it is
closed. -/
structure LocalTable (K V D : Type*) where
  table : StateTable K V D
  deltaFile : Option (String × List Bytes)
  terminated : Bool
  deriving DecidableEq, Repr

/-- What the calls `FlushUpdates` and `HandlePutRequest` of a helper do to a shard. -/
structure TableHelper (T : Type*) where
  flushUpdates : T → T
  handlePutRequest : T → T

namespace LocalTable

variable {K V D : Type*}

/-- The loop of `get_iterator` that waits for a change, with the trials it has left.
`noChange` is the flag that the sample of an iterator sets. -/
def waitForChange (helper : TableHelper (LocalTable K V D)) (bfilter : Bool)
    (noChange : ℕ → LocalTable K V D → Bool) :
    ℕ → LocalTable K V D → Option Iterator × LocalTable K V D
  | 0, lt => (some Iterator.new, lt)
  | trials + 1, lt =>
    let lt := helper.handlePutRequest (helper.flushUpdates lt)
    if lt.terminated then (none, lt)
    -- the last trial gives up waiting and passes over the whole table
    else if trials = 0 then
      (some (Iterator.entirePass lt.table (lt.table.size_ + 1) Iterator.new), lt)
    else if bfilter && noChange trials lt then waitForChange helper bfilter noChange trials lt
    else (some Iterator.new, lt)

/-- `get_iterator(helper, bfilter)`, with `none` for a null pointer on both sides. -/
def getIterator (helper : Option (TableHelper (LocalTable K V D))) (bfilter : Bool)
    (noChange : ℕ → LocalTable K V D → Bool) (lt : LocalTable K V D) :
    Except (Fault K) (Option Iterator × LocalTable K V D) :=
  if lt.terminated then .ok (none, lt)
  else
    match helper with
    | none => .error .nullPointer
    | some helper =>
      let lt := helper.handlePutRequest (helper.flushUpdates lt)
      if noChange 10 lt then .ok (waitForChange helper bfilter noChange 10 lt)
      else .ok (some Iterator.new, lt)

variable (m : Marshals K V D)

/-- A bucket as it is written to a file. -/
def entryOf (b : StateTable.Bucket K V D) : Entry :=
  ⟨m.kmarshal.marshal b.k, m.v1marshal.marshal b.v1, m.v2marshal.marshal b.v2,
    m.v3marshal.marshal b.v3⟩

/-- The loop of `serializeToFile`. -/
def serializeLoop (t : StateTable K V D) :
    ℕ → Iterator → List Bytes → Except (Fault K) (List Bytes)
  | 0, _, _ => .error .fuel
  | fuel + 1, i, file =>
    -- the cursor is tested and read before it is moved for the first time
    if i.done t then .ok file
    else (i.bucket t).bind fun b =>
      serializeLoop t fuel (i.next t) (writeEntryToFile file (entryOf m b))

/-- `serializeToFile(out)`, over the helper it gets its iterator with. -/
def serializeToFileWith (helper : Option (TableHelper (LocalTable K V D)))
    (noChange : ℕ → LocalTable K V D → Bool) (lt : LocalTable K V D) :
    Except (Fault K) (List Bytes × LocalTable K V D) :=
  (getIterator helper false noChange lt).bind fun r =>
    match r.1 with
    | none => .error .nullPointer
    | some i => (serializeLoop m r.2.table (r.2.table.size_ + 2) i []).map fun file => (file, r.2)

/-- `serializeToFile(out)`. -/
def serializeToFile (noChange : ℕ → LocalTable K V D → Bool) (lt : LocalTable K V D) :
    Except (Fault K) (List Bytes × LocalTable K V D) :=
  serializeToFileWith m none noChange lt

/-- The loop of `serializeToNet`. -/
def serializeNetLoop (t : StateTable K V D) : ℕ → Iterator → KVData → Except (Fault K) KVData
  | 0, _, _ => .error .fuel
  | fuel + 1, i, out =>
    if i.done t then .ok out
    else (i.bucket t).bind fun b =>
      serializeNetLoop t fuel (i.next t)
        (out ++ [(m.kmarshal.marshal b.k, m.v1marshal.marshal b.v1)])

/-- `serializeToNet(out)`, over the helper it gets its iterator with. -/
def serializeToNetWith (helper : Option (TableHelper (LocalTable K V D)))
    (noChange : ℕ → LocalTable K V D → Bool) (lt : LocalTable K V D) :
    Except (Fault K) (KVData × LocalTable K V D) :=
  (getIterator helper false noChange lt).bind fun r =>
    match r.1 with
    | none => .error .nullPointer
    | some i => (serializeNetLoop m r.2.table (r.2.table.size_ + 2) i []).map fun out => (out, r.2)

/-- `serializeToNet(out)`. -/
def serializeToNet (noChange : ℕ → LocalTable K V D → Bool) (lt : LocalTable K V D) :
    Except (Fault K) (KVData × LocalTable K V D) :=
  serializeToNetWith m none noChange lt

/-- `start_checkpoint(f)`. -/
def startCheckpoint (noChange : ℕ → LocalTable K V D → Bool) (f : String) (lt : LocalTable K V D)
    (disk : Disk) : Except (Fault K) (LocalTable K V D × Disk) :=
  (serializeToFile m noChange lt).map fun r =>
    ({ r.2 with deltaFile := some (f ++ ".delta", []) }, Function.update disk f (some r.1))

/-- `finish_checkpoint()`. -/
def finishCheckpoint (lt : LocalTable K V D) (disk : Disk) : LocalTable K V D × Disk :=
  match lt.deltaFile with
  | none => (lt, disk)
  | some (path, file) => ({ lt with deltaFile := none }, Function.update disk path (some file))

/-- The text `"0"`. -/
def zeroText : Bytes := [48]

/-- What `write_delta` writes for one pair. -/
def deltaEntry (kv : Bytes × Bytes) : Entry := ⟨kv.1, kv.2, zeroText, zeroText⟩

/-- `write_delta(put)`. -/
def writeDelta (put : KVData) (lt : LocalTable K V D) : Except (Fault K) (LocalTable K V D) :=
  match lt.deltaFile with
  | none => if put = [] then .ok lt else .error .nullPointer
  | some (path, file) =>
    .ok { lt with deltaFile := some (path, (put.map deltaEntry).foldl writeEntryToFile file) }

variable [DecidableEq K] (hash : K → ℕ) (kern : IterateKernel K V D)

/-- `update_str(k, v1, v2, v3)`. -/
def updateStr (fuel : ℕ) (e : Entry) (behind : Behind) (t : StateTable K V D) :
    Outcome K (StateTable K V D) :=
  t.put hash kern fuel (m.kmarshal.read e.k behind.k) (m.v1marshal.read e.v1 behind.v1)
    (m.v2marshal.read e.v2 behind.v2) (m.v3marshal.read e.v3 behind.v3)

/-- The loop of `restore` over one file, with the memory behind the strings of each round. Every
round reads a chunk, so a file of `n` chunks is left within `n + 1` rounds. -/
def replay (fuel : ℕ) :
    ℕ → List Bytes → (ℕ → Behind) → StateTable K V D → Outcome K (StateTable K V D)
  | 0, _, _, t => .error (.fuel, t)
  | rounds + 1, file, memory, t =>
    match readEntryFromFile file with
    | none => .ok t
    | some (e, rest) => (updateStr m hash kern fuel e (memory 0) t).bind
        (replay fuel rounds rest fun i => memory (i + 1))

/-- `restore(f)`. `base` and `log` are the memory behind the strings in its two loops. -/
def restore (fuel : ℕ) (f : String) (disk : Disk) (base log : ℕ → Behind) (t : StateTable K V D) :
    Outcome K (StateTable K V D) :=
  match disk f with
  | none => .ok t
  | some file =>
    (replay m hash kern fuel (file.length + 1) file base t).bind fun t' =>
      -- the log is opened without a test whether it exists
      match disk (f ++ ".delta") with
      | none => .error (.noFile, t')
      | some delta => replay m hash kern fuel (delta.length + 1) delta log t'

/-- What `ApplyUpdates` does to the shard of a put request: decode the pairs and
accumulate each of them into `F1`. -/
def applyUpdates (put : KVData) (t : StateTable K V D) : Outcome K (StateTable K V D) :=
  forEach (fun kv t => t.accumulateF1 hash kern (m.kmarshal.unmarshal kv.1)
    (m.v1marshal.unmarshal kv.2)) put t

/-! ## Writing a checkpoint -/

/-- A checkpoint without logged updates, restored into a fresh table of the same size,
gives back what every key reads. -/
def CheckpointRestores (noChange : ℕ → LocalTable K V D → Bool) (fuel : ℕ) (f : String)
    (disk : Disk) (base log : ℕ → Behind) (lt : LocalTable K V D) : Prop :=
  ∃ lt' disk', startCheckpoint m noChange f lt disk = .ok (lt', disk') ∧
    ∃ fresh restored, StateTable.new hash kern fuel lt.table.size_ = .ok fresh ∧
      restore m hash kern fuel f (finishCheckpoint lt' disk').2 base log fresh = .ok restored ∧
      ∀ k, restored.get hash k = lt.table.get hash k

variable {m} {hash} {kern}

omit [DecidableEq K] in
/-- `serializeToFile` goes through a null pointer: that of the helper, or that of the
iterator once the table is terminated. -/
theorem serializeToFile_eq (noChange : ℕ → LocalTable K V D → Bool) (lt : LocalTable K V D) :
    serializeToFile m noChange lt = .error .nullPointer := by
  cases hterm : lt.terminated <;>
    simp [serializeToFile, serializeToFileWith, getIterator, hterm, Except.bind]

omit [DecidableEq K] in
/-- `serializeToNet` asks for its iterator in the same way. -/
theorem serializeToNet_eq (noChange : ℕ → LocalTable K V D → Bool) (lt : LocalTable K V D) :
    serializeToNet m noChange lt = .error .nullPointer := by
  cases hterm : lt.terminated <;>
    simp [serializeToNet, serializeToNetWith, getIterator, hterm, Except.bind]

omit [DecidableEq K] in
/-- The loop reads the bucket under a new cursor, which is bucket `-1`. -/
theorem serializeLoop_new (t : StateTable K V D) (hsize : 0 < t.size_) (rounds : ℕ)
    (file : List Bytes) :
    serializeLoop m t (rounds + 1) Iterator.new file = .error (.outOfRange (-1)) := by
  -- `done()` compares `pos + 1`, which is `0`, with the number of buckets
  have hne : ¬ (-1 + 1 : ℤ) = t.size_ := by omega
  have hdone : Iterator.new.done t = false := decide_eq_false hne
  have hbucket : Iterator.new.bucket t = .error (.outOfRange (-1)) := by
    simp [Iterator.bucket, Iterator.new]
  simp [serializeLoop, hdone, hbucket, Except.bind]

omit [DecidableEq K] in
/-- A helper alone would not have been enough: whatever its calls do to a table, as long
as the table keeps a bucket, the serializer aborts. -/
theorem serializeToFileWith_helper (helper : TableHelper (LocalTable K V D))
    (hkeep : ∀ lt, 0 < lt.table.size_ →
      0 < (helper.handlePutRequest (helper.flushUpdates lt)).table.size_)
    (noChange : ℕ → LocalTable K V D → Bool) (lt : LocalTable K V D) (hsize : 0 < lt.table.size_) :
    serializeToFileWith m (some helper) noChange lt = .error .nullPointer ∨
      serializeToFileWith m (some helper) noChange lt = .error (.outOfRange (-1)) := by
  cases hterm : lt.terminated with
  | true => exact .inl (by simp [serializeToFileWith, getIterator, hterm, Except.bind])
  | false =>
    have hsize₁ := hkeep lt hsize
    generalize hlt₁ : helper.handlePutRequest (helper.flushUpdates lt) = lt₁ at hsize₁
    by_cases hsample : noChange 10 lt₁
    · -- the iterator of the first trial is made without the filter, so the wait ends there
      have hsize₂ := hkeep lt₁ hsize₁
      generalize hlt₂ : helper.handlePutRequest (helper.flushUpdates lt₁) = lt₂ at hsize₂
      cases hterm₂ : lt₂.terminated with
      | true =>
        exact .inl (by
          simp [serializeToFileWith, getIterator, hterm, hlt₁, hsample, waitForChange, hlt₂,
            hterm₂, Except.bind])
      | false =>
        exact .inr (by
          simp [serializeToFileWith, getIterator, hterm, hlt₁, hsample, waitForChange, hlt₂,
            hterm₂, Except.bind, serializeLoop_new _ hsize₂, Except.map])
    · exact .inr (by
        simp [serializeToFileWith, getIterator, hterm, hlt₁, hsample, Except.bind,
          serializeLoop_new _ hsize₁, Except.map])

/-- **No checkpoint is ever written.** Starting one aborts on a null pointer for every
shard, so that nothing can be restored from it. -/
theorem checkpoint_never_restores (m : Marshals K V D) (hash : K → ℕ) (kern : IterateKernel K V D)
    (noChange : ℕ → LocalTable K V D → Bool) (fuel : ℕ) (f : String) (disk : Disk)
    (base log : ℕ → Behind) (lt : LocalTable K V D) :
    startCheckpoint m noChange f lt disk = .error .nullPointer ∧
      ¬ CheckpointRestores m hash kern noChange fuel f disk base log lt := by
  have hstart : startCheckpoint m noChange f lt disk = .error .nullPointer := by
    rw [startCheckpoint, serializeToFile_eq]
    rfl
  refine ⟨hstart, ?_⟩
  rintro ⟨lt', disk', hok, -⟩
  rw [hstart] at hok
  cases hok

/-- Zeros in memory. -/
def zeros : Behind := ⟨fun _ => 0, fun _ => 0, fun _ => 0, fun _ => 0⟩

/-- A shard of one vertex is not restored. -/
theorem checkpoint_of_one_vertex_aborts :
    startCheckpoint unaryMarshals (fun _ _ => false) "shard"
        ⟨⟨[some ⟨0, 5, 7, [], 5⟩], 1, 0⟩, none, false⟩ (fun _ => none) = .error .nullPointer ∧
      ¬ CheckpointRestores unaryMarshals (fun k => k) (sumKernel fun _ => []) (fun _ _ => false) 2
        "shard" (fun _ => none) (fun _ => zeros) (fun _ => zeros)
        ⟨⟨[some ⟨0, 5, 7, [], 5⟩], 1, 0⟩, none, false⟩ := by
  refine ⟨rfl, ?_⟩
  rintro ⟨lt', disk', hok, -⟩
  cases hok

end LocalTable

end MaiterStore
