/-
# Iterating over a remote shard

A worker serves the entries of a shard page by page: `HandleIteratorRequest`
(`worker/worker.cc`) asks the table for an iterator at the first request, moves it to the
next entry at the start of each further one, and between the rows of a page.

The iterators of a `StateTable` start before the first bucket (`kernel/statetable.h`); their
users call `Next()` before they read. The first request reads at once, so it reads the
bucket at `-1` unless the iterator is done from the start. With a schedule portion below `1`
that is the case when nothing is scheduled, in particular on an empty table.
-/

import MaiterStore.Kernel.LocalTable
import Mathlib.Data.List.Sort

namespace MaiterStore

open CS.LinearProbing CS.Run

namespace RemoteIteration

/-! ## Iterators of a shard -/

/-- `sample_size`. -/
def sampleSize : ℕ := 1000

/-- A local shard. `cutIndex` is `sample_size * schedule_portion` for a schedule portion
below `1`, and `none` for one from `1` on. -/
structure Shard (K V D : Type*) where
  table : StateTable K V D
  size_pos : 0 < table.size_
  terminated : Bool
  cutIndex : Option (Fin sampleSize)

/-- The buckets in use that random sampling comes to. It does not end on a table without a
bucket in use. -/
inductive Sampling {K V D : Type*} (t : StateTable K V D)
  | unending (hnone : ∀ pos, cellAt t.buckets pos = none)
  | drawn (positions : List ℕ) (hlength : positions.length = sampleSize)
      (huse : ∀ pos ∈ positions, ∃ b, cellAt t.buckets pos = some b)

/-- What goes wrong in a request. -/
inductive RequestFault
  /-- A call through a null iterator. -/
  | nullPointer
  /-- `CHECK_NE(it, (void *)NULL)` -/
  | noIterator
  /-- An entry outside of the table or of the schedule is read. -/
  | outOfRange (pos : ℤ)
  /-- The call does not return. -/
  | unending
  deriving DecidableEq

/-- `StateTable::Iterator` or `StateTable::ScheduledIterator`. -/
inductive TableIterator
  | iterator (i : StateTable.Iterator)
  | scheduled (pos : ℤ) (scheduledPos : List ℕ)

namespace TableIterator

variable {K V D : Type*}

/-- `done()`. -/
def done (t : StateTable K V D) : TableIterator → Bool
  | .iterator i => i.done t
  | .scheduled pos scheduledPos => pos + 1 = scheduledPos.length

/-- `Next()`. -/
def next (t : StateTable K V D) : TableIterator → TableIterator
  | .iterator i => .iterator (i.next t)
  | .scheduled pos scheduledPos => .scheduled (pos + 1) scheduledPos

/-- The bucket that `key()` and `value1()` read. -/
def bucket (t : StateTable K V D) : TableIterator → Except RequestFault (StateTable.Bucket K V D)
  | .iterator i =>
    match i.bucket t with
    | .error _ => .error (.outOfRange i.pos)
    | .ok b => .ok b
  | .scheduled pos scheduledPos =>
    if pos < 0 then .error (.outOfRange pos)
    else ((scheduledPos[pos.toNat]?).bind (cellAt t.buckets)).elim (.error (.outOfRange pos)) .ok

end TableIterator

section Handler

variable {K V D : Type*} [LinearOrder V]

/-- The positions that pass `test`, in the order of the buckets. -/
def positionsWith (t : StateTable K V D) (test : StateTable.Bucket K V D → Bool) : List ℕ :=
  (List.range t.size_).filter fun pos => (cellAt t.buckets pos).any test

/-- The schedule of a `ScheduledIterator` on a table with more than `sample_size` entries.
The cut is made in the sample, sorted by falling priorities. -/
def scheduleBy (kern : IterateKernel K V D) (t : StateTable K V D) (cutIndex : ℕ)
    (sampled : List ℕ) : List ℕ :=
  let priorities :=
    (sampled.filterMap fun pos => (cellAt t.buckets pos).map (·.priority)).insertionSort
    (· ≥ ·)
  match priorities[cutIndex]? with
  | none => []
  | some threshold =>
    if cutIndex = 0 ∨ priorities.head? = some threshold then
      positionsWith t fun b => !decide (b.v1 = kern.defaultV) && decide (threshold ≤ b.priority)
    else positionsWith t fun b => !decide (b.v1 = kern.defaultV) && decide (threshold < b.priority)

variable (kern : IterateKernel K V D)

/-- `TypedGlobalTable::get_iterator(shard, false)`, with `none` for a null pointer. The
helper's calls before the iterator is made leave the shard as it is. -/
def getIterator (shard : Shard K V D) (sampling : Sampling shard.table) :
    Except RequestFault (Option TableIterator) :=
  if shard.terminated then .ok none
  else
    match shard.cutIndex with
    | some cutIndex =>
      -- `schedule_iterator`: without a filter there is no waiting for a change
      if shard.table.entries ≤ sampleSize then
        .ok (some (.scheduled (-1) (positionsWith shard.table fun _ => true)))
      else
        match sampling with
        | .unending _ => .error .unending
        | .drawn positions _ _ =>
          .ok (some (.scheduled (-1) (scheduleBy kern shard.table cutIndex positions)))
    | none =>
      match sampling with
      | .unending _ => .error .unending
      | .drawn positions _ _ =>
        -- the first iterator is made with the filter, to see whether to wait
        let noChange := positions.all fun pos =>
          (cellAt shard.table.buckets pos).any fun b => b.v1 ≠ kern.defaultV
        match LocalTable.getIterator (some ⟨fun lt => lt, fun lt => lt⟩) false (fun _ _ => noChange)
          ⟨shard.table, none, shard.terminated⟩ with
        | .error _ => .error .nullPointer
        | .ok (it, _) => .ok (it.map .iterator)

/-- An `IteratorRequest`, with `none` for the id `-1`. -/
structure IteratorRequest where
  id : Option ℕ
  rowCount : ℕ

/-- An `IteratorResponse`. -/
structure IteratorResponse where
  id : ℕ
  done : Bool
  key : List Bytes
  value : List Bytes
  rowCount : ℕ
  deriving DecidableEq

/-- The members `iterators_` and `iterator_id_` of a worker. -/
structure Iterators where
  iterators : ℕ → Option TableIterator
  iteratorId : ℕ

variable (m : Marshals K V D)

/-- The loop over the rows of a response from row `i` on, with the number of rows left. -/
def fillRows (t : StateTable K V D) : ℕ → ℕ → TableIterator → IteratorResponse →
    Except RequestFault (IteratorResponse × TableIterator)
  | 0, _, it, resp => .ok (resp, it)
  | left + 1, i, it, resp =>
    if it.done t then .ok ({ resp with done := true }, it)
    else
      (it.bucket t).bind fun b =>
        let resp := { resp with
          done := false
          key := resp.key ++ [m.kmarshal.marshal b.k]
          value := resp.value ++ [m.v1marshal.marshal b.v1]
          rowCount := i }
        if left = 0 then .ok (resp, it) else fillRows t left (i + 1) (it.next t) resp

/-- `HandleIteratorRequest(iterator_req, iterator_resp)`. -/
def handleIteratorRequest (shard : Shard K V D) (sampling : Sampling shard.table)
    (req : IteratorRequest) (w : Iterators) : Except RequestFault (IteratorResponse × Iterators) :=
  let found : Except RequestFault (ℕ × Option TableIterator × ℕ) :=
    match req.id with
    | none => (getIterator kern shard sampling).map fun it => (w.iteratorId, it, w.iteratorId + 1)
    | some id =>
      match w.iterators id with
      | none => .error .noIterator
      | some it => .ok (id, some (it.next shard.table), w.iteratorId)
  found.bind fun r =>
    match r.2.1 with
    | none => .error .nullPointer
    | some it =>
      (fillRows m shard.table req.rowCount 1 it ⟨r.1, false, [], [], 0⟩).map fun filled =>
        (filled.1, ⟨Function.update w.iterators r.1 (some filled.2), r.2.2⟩)

/-- The requests of a client with these row counts, up to the first response with `done`. -/
def session (shard : Shard K V D) (sampling : Sampling shard.table) :
    List ℕ → Option ℕ → Iterators → Except RequestFault (List IteratorResponse)
  | [], _, _ => .ok []
  | rowCount :: counts, id, w =>
    (handleIteratorRequest kern m shard sampling ⟨id, rowCount⟩ w).bind fun r =>
      if r.1.done then .ok [r.1]
      else (session shard sampling counts (some r.1.id) r.2).map (r.1 :: ·)

/-- The rows of a response. -/
def IteratorResponse.rows (resp : IteratorResponse) : List (Bytes × Bytes) :=
  resp.key.zip resp.value

/-- The entries of a table, as they are sent. -/
def entryRows (t : StateTable K V D) : List (Bytes × Bytes) :=
  t.buckets.reduceOption.map fun b => (m.kmarshal.marshal b.k, m.v1marshal.marshal b.v1)

/-- All requests of the client are answered with as many keys and values as rows, and after
the response with `done` the rows are the entries of the shard. -/
structure ReturnsEachOnce (shard : Shard K V D) (sampling : Sampling shard.table)
    (counts : List ℕ) (w : Iterators) : Prop where
  answered : ∃ responses, session kern m shard sampling counts none w = .ok responses ∧
    (∀ resp ∈ responses, resp.rowCount = resp.key.length ∧ resp.rowCount = resp.value.length) ∧
    ∀ resp, responses.getLast? = some resp → resp.done = true →
      (responses.flatMap IteratorResponse.rows).Perm (entryRows m shard.table)

end Handler

/-! ## The first response -/

section First

variable {K V D : Type*} [LinearOrder V] {kern : IterateKernel K V D} {m : Marshals K V D}
  {shard : Shard K V D} {sampling : Sampling shard.table} {w : Iterators} {it : TableIterator}
  {rowCount : ℕ} {counts : List ℕ}

/-- An iterator that is done from the start ends the session with an empty response. -/
theorem session_of_done (hit : getIterator kern shard sampling = .ok (some it))
    (hdone : it.done shard.table = true) (hcount : 1 ≤ rowCount) :
    session kern m shard sampling (rowCount :: counts) none w =
      .ok [⟨w.iteratorId, true, [], [], 0⟩] := by
  obtain ⟨left, rfl⟩ := Nat.exists_eq_add_of_le' hcount
  simp [session, handleIteratorRequest, hit, fillRows, hdone, Except.map, Except.bind]

/-- Otherwise the first row is read where the iterator stands. -/
theorem session_of_bucket_error (hit : getIterator kern shard sampling = .ok (some it))
    (hdone : it.done shard.table = false) {e : RequestFault}
    (hbucket : it.bucket shard.table = .error e) (hcount : 1 ≤ rowCount) :
    session kern m shard sampling (rowCount :: counts) none w = .error e := by
  obtain ⟨left, rfl⟩ := Nat.exists_eq_add_of_le' hcount
  simp [session, handleIteratorRequest, hit, fillRows, hdone, hbucket, Except.map, Except.bind]

theorem session_of_error {e : RequestFault} (hit : getIterator kern shard sampling = .error e) :
    session kern m shard sampling (rowCount :: counts) none w = .error e := by
  simp [session, handleIteratorRequest, hit, Except.map, Except.bind]

theorem session_of_null (hit : getIterator kern shard sampling = .ok none) :
    session kern m shard sampling (rowCount :: counts) none w = .error .nullPointer := by
  simp [session, handleIteratorRequest, hit, Except.map, Except.bind]

theorem not_returnsEachOnce_of_error {e : RequestFault}
    (herror : session kern m shard sampling counts none w = .error e) :
    ¬ ReturnsEachOnce kern m shard sampling counts w := by
  rintro ⟨responses, hok, -⟩
  rw [herror] at hok
  cases hok

omit [LinearOrder V] in
theorem bucket_new (t : StateTable K V D) :
    (TableIterator.iterator StateTable.Iterator.new).bucket t = .error (.outOfRange (-1)) := by
  simp [TableIterator.bucket, StateTable.Iterator.bucket, StateTable.Iterator.new]

omit [LinearOrder V] in
theorem done_new {t : StateTable K V D} (hpos : 0 < t.size_) :
    (TableIterator.iterator StateTable.Iterator.new).done t = false := by
  have hne : (0 : ℤ) ≠ t.size_ := by omega
  simp [TableIterator.done, StateTable.Iterator.done, StateTable.Iterator.new, hne]

/-- A schedule with an entry is read before its start. -/
theorem session_of_scheduled {scheduledPos : List ℕ}
    (hit : getIterator kern shard sampling = .ok (some (.scheduled (-1) scheduledPos)))
    (hne : scheduledPos ≠ []) (hcount : 1 ≤ rowCount) :
    session kern m shard sampling (rowCount :: counts) none w = .error (.outOfRange (-1)) := by
  have hlength : (0 : ℤ) ≠ scheduledPos.length := by
    have := List.length_pos_iff.mpr hne
    omega
  refine session_of_bucket_error hit ?_ ?_ hcount
  · simp [TableIterator.done, hlength]
  · simp [TableIterator.bucket]

omit [LinearOrder V] in
theorem positionsWith_eq_nil_iff (t : StateTable K V D) :
    (positionsWith t fun _ => true) = [] ↔ ∀ pos, cellAt t.buckets pos = none := by
  rw [positionsWith, List.filter_eq_nil_iff]
  constructor
  · intro hall pos
    cases hb : cellAt t.buckets pos with
    | none => rfl
    | some b =>
      have hlt : pos < t.size_ := lt_length_of_cellAt hb
      exact absurd (by simp [hb]) (hall pos (List.mem_range.mpr hlt))
  · intro hnone pos _
    simp [hnone pos]

omit [LinearOrder V] in
theorem entryRows_eq_nil {t : StateTable K V D} (hnil : entryRows m t = []) (pos : ℕ) :
    cellAt t.buckets pos = none := by
  cases hb : cellAt t.buckets pos with
  | none => rfl
  | some b =>
    have hmem : b ∈ t.buckets.reduceOption := mem_reduceOption_iff_cellAt.mpr ⟨pos, hb⟩
    rw [List.map_eq_nil_iff.mp hnil] at hmem
    cases hmem

/-- Vacant is in use, nothing is waited for, and the iterator is done at once. -/
structure Vacant (shard : Shard K V D) : Prop where
  not_terminated : shard.terminated = false
  portion : shard.cutIndex.isSome = true
  not_in_use : ∀ pos, cellAt shard.table.buckets pos = none
  entries_le : shard.table.entries ≤ sampleSize

theorem returnsEachOnce_of_vacant (hvacant : Vacant shard) (hcount : 1 ≤ rowCount) :
    ReturnsEachOnce kern m shard sampling (rowCount :: counts) w := by
  obtain ⟨cut, hcut⟩ := Option.isSome_iff_exists.mp hvacant.portion
  have hnil := (positionsWith_eq_nil_iff shard.table).mpr hvacant.not_in_use
  have hit : getIterator kern shard sampling = .ok (some (.scheduled (-1) [])) := by
    simp [getIterator, hvacant.not_terminated, hcut, hvacant.entries_le, hnil]
  refine ⟨_, session_of_done hit (by simp [TableIterator.done]) hcount, by simp, ?_⟩
  have hrows : entryRows m shard.table = [] := by
    rw [entryRows, List.map_eq_nil_iff, List.eq_nil_iff_forall_not_mem]
    intro b hb
    obtain ⟨pos, hpos⟩ := mem_reduceOption_iff_cellAt.mp hb
    rw [hvacant.not_in_use pos] at hpos
    cases hpos
  intro resp _ _
  rw [hrows]
  exact .refl _

theorem vacant_of_returnsEachOnce (hcount : 1 ≤ rowCount)
    (hreturns : ReturnsEachOnce kern m shard sampling (rowCount :: counts) w) : Vacant shard := by
  have hterm : shard.terminated = false := by
    by_contra hterm
    have hit : getIterator kern shard sampling = .ok none := by simp [getIterator, hterm]
    exact not_returnsEachOnce_of_error (session_of_null hit) hreturns
  cases hcut : shard.cutIndex with
  | none =>
    exfalso
    cases sampling with
    | unending hnone =>
      have hit : getIterator kern shard (.unending hnone) = .error .unending := by
        simp [getIterator, hterm, hcut]
      exact not_returnsEachOnce_of_error (session_of_error hit) hreturns
    | drawn positions hlength huse =>
      have hit : getIterator kern shard (.drawn positions hlength huse) =
          .ok (some (.iterator StateTable.Iterator.new)) := by
        simp only [getIterator, hterm, hcut, LocalTable.getIterator, Bool.false_eq_true, if_false]
        split_ifs <;> simp [LocalTable.waitForChange]
      exact not_returnsEachOnce_of_error
        (session_of_bucket_error hit (done_new shard.size_pos) (bucket_new _) hcount) hreturns
  | some cut =>
    by_cases hentries : shard.table.entries ≤ sampleSize
    · have hit : getIterator kern shard sampling =
          .ok (some (.scheduled (-1) (positionsWith shard.table fun _ => true))) := by
        simp [getIterator, hterm, hcut, hentries]
      refine ⟨hterm, by rw [hcut]; rfl, (positionsWith_eq_nil_iff shard.table).mp ?_, hentries⟩
      by_contra hne
      exact not_returnsEachOnce_of_error (session_of_scheduled hit hne hcount) hreturns
    -- a schedule made from a sample may be empty, but the table is not
    · exfalso
      cases sampling with
      | unending hnone =>
        have hit : getIterator kern shard (.unending hnone) = .error .unending := by
          simp [getIterator, hterm, hcut, hentries]
        exact not_returnsEachOnce_of_error (session_of_error hit) hreturns
      | drawn positions hlength huse =>
        have hit : getIterator kern shard (.drawn positions hlength huse) =
            .ok (some (.scheduled (-1) (scheduleBy kern shard.table cut positions))) := by
          simp [getIterator, hterm, hcut, hentries]
        by_cases hnil : scheduleBy kern shard.table cut positions = []
        · rw [hnil] at hit
          obtain ⟨responses, hok, -, hrows⟩ := hreturns
          rw [session_of_done hit (by simp [TableIterator.done]) hcount] at hok
          obtain rfl := Except.ok.inj hok
          have hperm := hrows _ rfl rfl
          have hempty : entryRows m shard.table = [] := hperm.symm.eq_nil
          obtain ⟨pos, hpos⟩ : ∃ pos, pos ∈ positions := by
            apply List.exists_mem_of_length_pos
            rw [hlength]
            decide
          obtain ⟨b, hb⟩ := huse pos hpos
          rw [entryRows_eq_nil hempty pos] at hb
          cases hb
        · exact not_returnsEachOnce_of_error (session_of_scheduled hit hnil hcount) hreturns

/-- **Remote iteration works only on nothing.** For every shard, every sample, every state of
the worker and all row counts from `1` on, the responses up to the first with `done` are right
if and only if the shard is not terminated, has a schedule portion below `1` and no bucket in
use. -/
theorem returnsEachOnce_iff (kern : IterateKernel K V D) (m : Marshals K V D)
    (shard : Shard K V D) (sampling : Sampling shard.table) (w : Iterators) {rowCount : ℕ}
    {counts : List ℕ} (hcounts : ∀ c ∈ rowCount :: counts, 1 ≤ c) :
    ReturnsEachOnce kern m shard sampling (rowCount :: counts) w ↔ Vacant shard := by
  have hcount : 1 ≤ rowCount := hcounts rowCount List.mem_cons_self
  exact ⟨vacant_of_returnsEachOnce hcount, fun hvacant => returnsEachOnce_of_vacant hvacant hcount⟩

end First

/-- A shard of two free buckets, half of whose entries are to be scheduled. -/
def freeShard : Shard ℕ ℕ Bytes :=
  ⟨.cleared 2 0, by decide, false, some ⟨500, by decide⟩⟩

theorem returnsEachOnce_free_shard :
    (∀ c ∈ [3, 1], 1 ≤ c) ∧ Vacant freeShard ∧
      ReturnsEachOnce (sumKernel fun _ => []) unaryMarshals freeShard
        (.unending fun _ => cellAt_replicate 2) [3, 1] ⟨fun _ => none, 0⟩ := by
  have hvacant : Vacant freeShard := ⟨rfl, rfl, fun _ => cellAt_replicate 2, by decide⟩
  exact ⟨by decide, hvacant, (returnsEachOnce_iff _ _ _ _ _ (by decide)).mpr hvacant⟩

/-- A shard with one entry, under the default schedule portion of `1`. -/
def oneEntry : Shard ℕ ℕ Bytes :=
  ⟨⟨[some ⟨3, 5, 0, [], 5⟩], 1, 0⟩, by decide, false, none⟩

/-- The sample of a table with one bucket. -/
def oneEntrySample : Sampling oneEntry.table :=
  .drawn (List.replicate sampleSize 0) List.length_replicate
    fun _ hpos => ⟨⟨3, 5, 0, [], 5⟩, by rw [List.eq_of_mem_replicate hpos]; rfl⟩

/-- The first request reads the bucket at `-1`. -/
theorem first_response_reads_before_table :
    session (sumKernel fun _ => []) unaryMarshals oneEntry oneEntrySample [1] none
        ⟨fun _ => none, 0⟩ = .error (.outOfRange (-1)) ∧
      ¬ ReturnsEachOnce (sumKernel fun _ => []) unaryMarshals oneEntry oneEntrySample [1]
        ⟨fun _ => none, 0⟩ := by
  have hit : getIterator (sumKernel fun _ => []) oneEntry oneEntrySample =
      .ok (some (.iterator StateTable.Iterator.new)) := by
    simp only [getIterator, oneEntry, oneEntrySample, LocalTable.getIterator, Bool.false_eq_true,
      if_false]
    split_ifs <;> simp [LocalTable.waitForChange]
  have herror : session (sumKernel fun _ => []) unaryMarshals oneEntry oneEntrySample [1] none
      ⟨fun _ => none, 0⟩ = .error (.outOfRange (-1)) :=
    session_of_bucket_error hit (done_new oneEntry.size_pos) (bucket_new _) (le_refl 1)
  exact ⟨herror, not_returnsEachOnce_of_error herror⟩

end RemoteIteration

end MaiterStore
