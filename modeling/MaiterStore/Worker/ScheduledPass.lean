/-
# Filters and schedules

An `Iterator` over a state table and a `ScheduledIterator` (`kernel/statetable.h`) both look,
when they are made with a filter, for a sign of change: at a sample of the buckets in use, or
at all of them in a small table. The flag `b_no_change` is folded from the same test in three
places, and in two of them the test is the wrong way round.

On a large table a `ScheduledIterator` takes the priority at the cut index of the sorted
sample as a threshold. What it schedules is closed under higher priorities, and it is not
empty as long as pending vertices have the higher priorities.
-/

import MaiterStore.Kernel.TablePass
import MaiterStore.Worker.RemoteIteration

namespace MaiterStore.StateTable

open CS.LinearProbing RemoteIteration

variable {K V D : Type*}

/-- The buckets in use that random sampling comes to, in the order they are drawn. -/
structure Draws (t : StateTable K V D) where
  positions : List ℕ
  length_eq : positions.length = sampleSize
  in_use : ∀ pos ∈ positions, ∃ b, cellAt t.buckets pos = some b

theorem Draws.ne_nil {t : StateTable K V D} (draws : Draws t) : draws.positions ≠ [] := by
  intro hnil
  have hlength := draws.length_eq
  rw [hnil] at hlength
  cases hlength

theorem Draws.inUse_ne_nil {t : StateTable K V D} (draws : Draws t) : t.inUse ≠ [] := by
  obtain ⟨pos, hpos⟩ := List.exists_mem_of_ne_nil _ draws.ne_nil
  exact List.ne_nil_of_mem (mem_inUse.mpr (draws.in_use pos hpos))

/-- `StateTable::ScheduledIterator`. -/
structure ScheduledIterator where
  pos : ℤ
  scheduledPos : List ℕ
  bNoChange : Bool
  deriving DecidableEq, Repr

section Constructors

variable [LinearOrder V] (kern : IterateKernel K V D)

/-- The `v1` of a bucket differs from `default_v()`. -/
def pendingAt (t : StateTable K V D) (pos : ℕ) : Bool :=
  (cellAt t.buckets pos).any fun b => b.v1 ≠ kern.defaultV

namespace Iterator

/-- The loop of the filter over the draws: `b_no_change`, and the positions it looks at. -/
def filterLoop (t : StateTable K V D) : List ℕ → Bool × List ℕ
  | [] => (true, [])
  | pos :: draws =>
    -- the loop goes on as long as `b_no_change` holds
    if pendingAt kern t pos then ((filterLoop t draws).1, pos :: (filterLoop t draws).2)
    else (false, [pos])

/-- The `b_no_change` of `Iterator(parent, bfilter)`. -/
def bNoChange (t : StateTable K V D) (bfilter : Bool) (draws : Draws t) : Bool :=
  if bfilter then (filterLoop kern t draws.positions).1 else false

/-- The positions that the filter looks at. -/
def examined (t : StateTable K V D) (draws : Draws t) : List ℕ :=
  (filterLoop kern t draws.positions).2

end Iterator

namespace ScheduledIterator

/-- The loop of the constructor over a small table. -/
def scheduleAll (t : StateTable K V D) : List ℕ × Bool :=
  (List.range t.size_).foldl
    (fun r i => (cellAt t.buckets i).elim r fun b =>
      (r.1 ++ [i], r.2 && decide (b.v1 ≠ kern.defaultV))) ([], true)

/-- The constructor `ScheduledIterator(parent, bfilter)`. `cutIndex` is
`sample_size * schedule_portion` for a schedule portion in `[0, 1)`. -/
def new (t : StateTable K V D) (cutIndex : Fin sampleSize) (bfilter : Bool) (draws : Draws t) :
    ScheduledIterator :=
  if t.entries ≤ sampleSize then
    let all := scheduleAll kern t
    if all.2 && bfilter then ⟨-1, all.1, all.2⟩
    else ⟨-1, all.1, if !bfilter then false else all.2⟩
  else
    let bNoChange := draws.positions.foldl (fun r pos =>
      r && (cellAt t.buckets pos).any fun b => b.v1 = kern.defaultV) true
    if bNoChange && bfilter then ⟨-1, [], bNoChange⟩
    else ⟨-1, scheduleBy kern t cutIndex draws.positions, if !bfilter then false else bNoChange⟩

/-- The positions that the filter looks at. -/
def examined (t : StateTable K V D) (draws : Draws t) : List ℕ :=
  if t.entries ≤ sampleSize then t.inUse else draws.positions

end ScheduledIterator

end Constructors

/-! ## What the filters test -/

section Filters

variable [LinearOrder V] {kern : IterateKernel K V D} {t : StateTable K V D}

theorem pendingAt_iff {pos : ℕ} :
    pendingAt kern t pos = true ↔ ∃ b, cellAt t.buckets pos = some b ∧ b.v1 ≠ kern.defaultV := by
  rw [pendingAt, Option.any_eq_true]
  simp only [decide_eq_true_eq, ne_eq]

theorem foldl_and {A : Type*} (p : A → Bool) (l : List A) (r : Bool) :
    l.foldl (fun r a => r && p a) r = (r && l.all p) := by
  induction l generalizing r with
  | nil => simp
  | cons a l ih => rw [List.foldl_cons, ih, List.all_cons, Bool.and_assoc]

namespace Iterator

/-- The loop says whether all that it looked at is pending. -/
theorem filterLoop_fst (draws : List ℕ) :
    (filterLoop kern t draws).1 = (filterLoop kern t draws).2.all (pendingAt kern t) := by
  induction draws with
  | nil => rfl
  | cons pos draws ih =>
    rw [filterLoop]
    split_ifs with hpending
    · rw [ih, List.all_cons, hpending, Bool.true_and]
    · rw [List.all_cons, Bool.eq_false_iff.mpr hpending, Bool.false_and]

theorem filterLoop_subset (draws : List ℕ) : (filterLoop kern t draws).2 ⊆ draws := by
  induction draws with
  | nil => exact List.Subset.refl _
  | cons pos draws ih =>
    rw [filterLoop]
    split_ifs
    · exact List.cons_subset_cons pos ih
    · exact List.cons_subset_cons pos (List.nil_subset _)

/-- It looks at an entry that is not pending if there is one. -/
theorem exists_not_pending_iff (draws : List ℕ) :
    (∃ pos ∈ (filterLoop kern t draws).2, pendingAt kern t pos = false) ↔
      ∃ pos ∈ draws, pendingAt kern t pos = false := by
  constructor
  · rintro ⟨pos, hpos, hpending⟩
    exact ⟨pos, filterLoop_subset draws hpos, hpending⟩
  · intro hex
    induction draws with
    | nil => exact hex
    | cons pos draws ih =>
      rw [filterLoop]
      split_ifs with hpending
      · obtain ⟨pos', hpos', hfalse⟩ := hex
        rcases List.mem_cons.mp hpos' with rfl | hmem
        · rw [hpending] at hfalse
          cases hfalse
        · obtain ⟨q, hq, hqfalse⟩ := ih ⟨pos', hmem, hfalse⟩
          exact ⟨q, List.mem_cons_of_mem _ hq, hqfalse⟩
      · exact ⟨pos, List.mem_cons_self, Bool.eq_false_iff.mpr hpending⟩

/-- It looks at a pending entry if the first draw is one. -/
theorem exists_pending_iff (draws : List ℕ) :
    (∃ pos ∈ (filterLoop kern t draws).2, pendingAt kern t pos = true) ↔
      ∃ pos ∈ draws.head?, pendingAt kern t pos = true := by
  cases draws with
  | nil => simp [filterLoop]
  | cons pos draws =>
    rw [filterLoop]
    split_ifs with hpending
    · simp [hpending]
    · simp [hpending]

end Iterator

namespace ScheduledIterator

theorem scheduleAll_eq : scheduleAll kern t = (t.inUse, t.inUse.all (pendingAt kern t)) := by
  have hfold : ∀ (l acc : List ℕ) (r : Bool),
      l.foldl (fun r i => (cellAt t.buckets i).elim r fun b =>
          (r.1 ++ [i], r.2 && decide (b.v1 ≠ kern.defaultV))) (acc, r) =
        (acc ++ l.filter fun pos => (cellAt t.buckets pos).isSome,
          r && (l.filter fun pos => (cellAt t.buckets pos).isSome).all (pendingAt kern t)) := by
    intro l
    induction l with
    | nil => simp
    | cons i l ih =>
      intro acc r
      rw [List.foldl_cons]
      cases hcell : cellAt t.buckets i with
      | none =>
        rw [Option.elim_none, ih, List.filter_cons, hcell]
        rfl
      | some b =>
        have hpending : pendingAt kern t i = decide (b.v1 ≠ kern.defaultV) := by
          rw [pendingAt, hcell]
          rfl
        rw [Option.elim_some, ih, List.filter_cons, hcell]
        simp [hpending, Bool.and_assoc]
  have h := hfold (List.range t.size_) [] true
  rw [List.nil_append, Bool.true_and, List.range_eq_range'] at h
  rw [scheduleAll, List.range_eq_range', h, inUse, inUseFrom, Nat.sub_zero]

/-- On a small table everything is scheduled, and the filter asks whether everything is
pending. -/
theorem new_of_le (hle : t.entries ≤ sampleSize) (cutIndex : Fin sampleSize) (bfilter : Bool)
    (draws : Draws t) : new kern t cutIndex bfilter draws =
      ⟨-1, t.inUse, bfilter && t.inUse.all (pendingAt kern t)⟩ := by
  rw [new, if_pos hle, scheduleAll_eq]
  cases bfilter <;> cases t.inUse.all (pendingAt kern t) <;> rfl

/-- On a large table the filter asks whether nothing in the sample is pending. -/
theorem new_of_lt (hlt : sampleSize < t.entries) (cutIndex : Fin sampleSize) (bfilter : Bool)
    (draws : Draws t) : new kern t cutIndex bfilter draws =
      if bfilter && draws.positions.all fun pos => !pendingAt kern t pos then ⟨-1, [], true⟩
      else ⟨-1, scheduleBy kern t cutIndex draws.positions, false⟩ := by
  have hall : draws.positions.foldl (fun r pos =>
      r && (cellAt t.buckets pos).any fun b => b.v1 = kern.defaultV) true =
        draws.positions.all fun pos => !pendingAt kern t pos := by
    rw [foldl_and, Bool.true_and, Bool.eq_iff_iff, List.all_eq_true, List.all_eq_true]
    refine forall₂_congr fun pos hpos => ?_
    obtain ⟨b, hb⟩ := draws.in_use pos hpos
    simp [pendingAt, hb]
  rw [new, if_neg hlt.not_ge, hall]
  cases bfilter <;> cases draws.positions.all fun pos => !pendingAt kern t pos <;> rfl

/-- Without a filter the schedule is the one of a remote iteration. -/
theorem new_unfiltered (cutIndex : Fin sampleSize) (draws : Draws t) :
    (new kern t cutIndex false draws).scheduledPos =
      if t.entries ≤ sampleSize then positionsWith t fun _ => true
      else scheduleBy kern t cutIndex draws.positions := by
  rcases Nat.lt_or_ge sampleSize t.entries with hlt | hle
  · rw [new_of_lt hlt, if_neg hlt.not_ge]
    rfl
  · rw [new_of_le hle, if_pos hle, inUse, inUseFrom, positionsWith, List.range_eq_range',
      Nat.sub_zero]
    apply List.filter_congr
    intro pos _
    cases cellAt t.buckets pos <;> rfl

end ScheduledIterator

/-! ### Three copies of one test -/

/-- No entry at these positions has a `v1` other than `default_v()`. -/
def Unchanged (kern : IterateKernel K V D) (t : StateTable K V D) (positions : List ℕ) : Prop :=
  ∀ pos ∈ positions, ∀ b, cellAt t.buckets pos = some b → b.v1 = kern.defaultV

/-- Both filters say that nothing has changed when this is so for what they look at. -/
structure FiltersMeanNoChange (kern : IterateKernel K V D) (t : StateTable K V D)
    (cutIndex : Fin sampleSize) (draws draws' : Draws t) : Prop where
  iterator : Iterator.bNoChange kern t true draws = true ↔
    Unchanged kern t (Iterator.examined kern t draws)
  scheduled : (ScheduledIterator.new kern t cutIndex true draws').bNoChange = true ↔
    Unchanged kern t (ScheduledIterator.examined t draws')

theorem unchanged_iff {positions : List ℕ} :
    Unchanged kern t positions ↔ ∀ pos ∈ positions, pendingAt kern t pos = false := by
  refine forall₂_congr fun pos _ => ?_
  rw [Bool.eq_false_iff, Ne, pendingAt_iff]
  push Not
  rfl

/-- The inverted test gives the right answer where both kinds of entries are looked at. -/
theorem all_pending_iff_unchanged_iff (kern : IterateKernel K V D) (t : StateTable K V D)
    {positions : List ℕ} (hne : positions ≠ []) :
    (positions.all (pendingAt kern t) = true ↔ Unchanged kern t positions) ↔
      (∃ pos ∈ positions, pendingAt kern t pos = true) ∧
        ∃ pos ∈ positions, pendingAt kern t pos = false := by
  rw [List.all_eq_true, unchanged_iff]
  obtain ⟨pos, hpos⟩ := List.exists_mem_of_ne_nil positions hne
  constructor
  · intro hiff
    -- the entry there is gives one of the two kinds, and without the other the sides differ
    cases hpending : pendingAt kern t pos with
    | true =>
      refine ⟨⟨pos, hpos, hpending⟩, ?_⟩
      by_contra hnone
      push Not at hnone
      have hfalse := hiff.mp (fun q hq => Bool.eq_true_of_not_eq_false (hnone q hq)) pos hpos
      rw [hpending] at hfalse
      cases hfalse
    | false =>
      refine ⟨?_, pos, hpos, hpending⟩
      by_contra hnone
      push Not at hnone
      have htrue := hiff.mpr (fun q hq => Bool.eq_false_of_not_eq_true (hnone q hq)) pos hpos
      rw [hpending] at htrue
      cases htrue
  · rintro ⟨⟨p, hp, hpending⟩, q, hq, hquiet⟩
    constructor
    · intro hall
      rw [hall q hq] at hquiet
      cases hquiet
    · intro hall
      rw [hall p hp] at hpending
      cases hpending

theorem Iterator.examined_ne_nil (kern : IterateKernel K V D) (draws : Draws t) :
    Iterator.examined kern t draws ≠ [] := by
  rw [Iterator.examined]
  cases hpositions : draws.positions with
  | nil => exact absurd hpositions draws.ne_nil
  | cons pos positions =>
    rw [Iterator.filterLoop]
    split_ifs
    · exact List.cons_ne_nil _ _
    · exact List.cons_ne_nil _ _

/-- **When the filters mean what they say.** The filter of `Iterator` needs a sample whose
first draw is pending and that has another draw which is not, and the filter of
`ScheduledIterator` on a small table needs entries of both kinds. On a large table the test
is the right way round. -/
theorem filters_mean_no_change_iff (kern : IterateKernel K V D) (t : StateTable K V D)
    (cutIndex : Fin sampleSize) (draws draws' : Draws t) :
    FiltersMeanNoChange kern t cutIndex draws draws' ↔
      ((∃ pos ∈ draws.positions.head?, pendingAt kern t pos = true) ∧
        ∃ pos ∈ draws.positions, pendingAt kern t pos = false) ∧
      (t.entries ≤ sampleSize → (∃ pos ∈ t.inUse, pendingAt kern t pos = true) ∧
        ∃ pos ∈ t.inUse, pendingAt kern t pos = false) := by
  have hiterator : (Iterator.bNoChange kern t true draws = true ↔
      Unchanged kern t (Iterator.examined kern t draws)) ↔
      (∃ pos ∈ draws.positions.head?, pendingAt kern t pos = true) ∧
        ∃ pos ∈ draws.positions, pendingAt kern t pos = false := by
    have hmixed := all_pending_iff_unchanged_iff kern t (Iterator.examined_ne_nil kern draws)
    rw [Iterator.examined, Iterator.exists_pending_iff, Iterator.exists_not_pending_iff,
      ← Iterator.filterLoop_fst] at hmixed
    exact hmixed
  have hscheduled : ((ScheduledIterator.new kern t cutIndex true draws').bNoChange = true ↔
      Unchanged kern t (ScheduledIterator.examined t draws')) ↔
      (t.entries ≤ sampleSize → (∃ pos ∈ t.inUse, pendingAt kern t pos = true) ∧
        ∃ pos ∈ t.inUse, pendingAt kern t pos = false) := by
    -- a large table is sampled, and its test is not inverted
    rcases Nat.lt_or_ge sampleSize t.entries with hlt | hle
    · refine iff_of_true ?_ fun hle => absurd hle hlt.not_ge
      rw [ScheduledIterator.new_of_lt hlt, ScheduledIterator.examined, if_neg hlt.not_ge,
        unchanged_iff, Bool.true_and]
      split_ifs with hall
      · simpa using hall
      · simpa using hall
    · rw [ScheduledIterator.new_of_le hle, ScheduledIterator.examined, if_pos hle, Bool.true_and,
        all_pending_iff_unchanged_iff kern t draws'.inUse_ne_nil]
      exact ⟨fun h _ => h, fun h => h hle⟩
  exact ⟨fun h => ⟨hiterator.mp h.iterator, hscheduled.mp h.scheduled⟩,
    fun h => ⟨hiterator.mpr h.1, hscheduled.mpr h.2⟩⟩

end Filters

/-- A table with one pending vertex. -/
def oneVertex : StateTable ℕ ℕ (List ℕ) := ⟨[some ⟨0, 5, 7, [], 5⟩], 1, 0⟩

theorem oneVertex_in_use (pos : ℕ) (hpos : pos ∈ List.replicate sampleSize 0) :
    ∃ b, cellAt oneVertex.buckets pos = some b := by
  rw [List.eq_of_mem_replicate hpos]
  exact ⟨_, rfl⟩

theorem length_first_bucket : (List.replicate sampleSize 0).length = sampleSize :=
  List.length_replicate

def oneVertexDraws : Draws oneVertex :=
  ⟨List.replicate sampleSize 0, length_first_bucket, oneVertex_in_use⟩

theorem sampleSize_pos : 0 < sampleSize := Nat.succ_pos 999

/-- The only vertex is pending, and still both filters report no change. -/
theorem one_pending_vertex_filtered :
    ¬ FiltersMeanNoChange (sumKernel fun _ => []) oneVertex ⟨0, sampleSize_pos⟩
      oneVertexDraws oneVertexDraws := by
  intro h
  have hunchanged := h.scheduled.mp rfl 0 List.mem_cons_self _ rfl
  cases hunchanged

/-! ## The schedule of a large table -/

section Schedule

variable [LinearOrder V] {kern : IterateKernel K V D} {t : StateTable K V D}

/-- A schedule has pending vertices only, each once, and with a vertex all those of the same
or a higher priority. If pending vertices are told from the others by their priorities, it
leaves not all of them out. -/
structure PrioritySchedule (kern : IterateKernel K V D) (t : StateTable K V D)
    (scheduledPos : List ℕ) : Prop where
  nodup : scheduledPos.Nodup
  pending : ∀ pos ∈ scheduledPos, ∃ b, cellAt t.buckets pos = some b ∧ b.v1 ≠ kern.defaultV
  upward_closed : ∀ {pos pos' b b'}, pos ∈ scheduledPos → cellAt t.buckets pos = some b →
    cellAt t.buckets pos' = some b' → b'.v1 ≠ kern.defaultV → b.priority ≤ b'.priority →
    pos' ∈ scheduledPos
  progress : (∀ pos b, cellAt t.buckets pos = some b → kern.zero ≤ b.priority) →
    (∀ pos b, cellAt t.buckets pos = some b → b.v1 = kern.defaultV → b.priority = kern.zero) →
    (∃ pos b, cellAt t.buckets pos = some b ∧ b.v1 ≠ kern.defaultV) → scheduledPos ≠ []

omit [LinearOrder V] in
theorem mem_positionsWith {test : Bucket K V D → Bool} {pos : ℕ} :
    pos ∈ positionsWith t test ↔ ∃ b, cellAt t.buckets pos = some b ∧ test b = true := by
  rw [positionsWith, List.mem_filter, List.mem_range, Option.any_eq_true]
  refine and_iff_right_of_imp ?_
  rintro ⟨b, hb, -⟩
  exact lt_length_of_cellAt hb

/-- The priorities of the sample, from the highest on. -/
def sampledPriorities (t : StateTable K V D) (sampled : List ℕ) : List V :=
  (sampled.filterMap fun pos => (cellAt t.buckets pos).map (·.priority)).insertionSort (· ≥ ·)

theorem mem_sampledPriorities {sampled : List ℕ} {p : V} :
    p ∈ sampledPriorities t sampled ↔ ∃ pos ∈ sampled, ∃ b, cellAt t.buckets pos = some b ∧
      b.priority = p := by
  rw [sampledPriorities, List.mem_insertionSort, List.mem_filterMap]
  simp only [Option.map_eq_some_iff]

theorem length_sampledPriorities (draws : Draws t) :
    (sampledPriorities t draws.positions).length = sampleSize := by
  rw [sampledPriorities, List.length_insertionSort, ← draws.length_eq,
    List.filterMap_length_eq_length]
  intro pos hpos
  obtain ⟨b, hb⟩ := draws.in_use pos hpos
  rw [hb]
  rfl

/-- The schedule by its threshold. -/
theorem scheduleBy_eq (kern : IterateKernel K V D) (t : StateTable K V D) (cutIndex : ℕ)
    (sampled : List ℕ) : scheduleBy kern t cutIndex sampled =
      (sampledPriorities t sampled)[cutIndex]?.elim [] fun threshold =>
        if cutIndex = 0 ∨ (sampledPriorities t sampled).head? = some threshold then
          positionsWith t fun b => !decide (b.v1 = kern.defaultV) && decide (threshold ≤ b.priority)
        else positionsWith t fun b =>
          !decide (b.v1 = kern.defaultV) && decide (threshold < b.priority) := by
  unfold scheduleBy sampledPriorities
  dsimp only
  split
  all_goals
    rename_i hget
    rw [hget]
    rfl

/-- The threshold is a priority of the sample. Where it is the highest one, entries with this
priority are scheduled too. -/
theorem exists_threshold (kern : IterateKernel K V D) (cutIndex : Fin sampleSize)
    (draws : Draws t) :
    ∃ threshold top, top ∈ sampledPriorities t draws.positions ∧
      threshold ∈ sampledPriorities t draws.positions ∧
      ((threshold = top ∧ scheduleBy kern t cutIndex draws.positions = positionsWith t fun b =>
          !decide (b.v1 = kern.defaultV) && decide (threshold ≤ b.priority)) ∨
        threshold < top ∧ scheduleBy kern t cutIndex draws.positions = positionsWith t fun b =>
          !decide (b.v1 = kern.defaultV) && decide (threshold < b.priority)) := by
  have hlength := length_sampledPriorities draws
  have hsorted : (sampledPriorities t draws.positions).Pairwise (· ≥ ·) :=
    List.pairwise_insertionSort ..
  have hschedule := scheduleBy_eq kern t cutIndex draws.positions
  generalize sampledPriorities t draws.positions = priorities at hlength hsorted hschedule ⊢
  cases priorities with
  | nil => cases hlength
  | cons top priorities =>
    have hcut : cutIndex.val < (top :: priorities).length := by
      rw [hlength]
      exact cutIndex.isLt
    have hmem := List.getElem_mem hcut
    have hget := List.getElem?_eq_getElem hcut
    generalize (top :: priorities)[cutIndex.val] = threshold at hmem hget
    have hle : threshold ≤ top := by
      rcases List.mem_cons.mp hmem with rfl | hmem'
      · exact le_rfl
      · exact List.rel_of_pairwise_cons hsorted hmem'
    rw [hget] at hschedule
    refine ⟨threshold, top, List.mem_cons_self, hmem, ?_⟩
    -- equal to the head of the sample, the test is `≤`, and otherwise it is `<`
    rcases hle.eq_or_lt with rfl | hlt
    · exact .inl ⟨rfl, hschedule.trans (if_pos (.inr rfl))⟩
    · refine .inr ⟨hlt, hschedule.trans (if_neg ?_)⟩
      rintro (hzero | hhead)
      · rw [hzero] at hget
        exact hlt.ne (Option.some.inj hget).symm
      · exact hlt.ne (Option.some.inj hhead).symm

/-- What passes an upward closed test of its priority. -/
theorem prioritySchedule_of_test (test : V → Bool)
    (hup : ∀ {p q}, p ≤ q → test p = true → test q = true)
    (hprogress : (∀ pos b, cellAt t.buckets pos = some b → kern.zero ≤ b.priority) →
      (∀ pos b, cellAt t.buckets pos = some b → b.v1 = kern.defaultV → b.priority = kern.zero) →
      (∃ pos b, cellAt t.buckets pos = some b ∧ b.v1 ≠ kern.defaultV) →
      ∃ pos b, cellAt t.buckets pos = some b ∧ b.v1 ≠ kern.defaultV ∧ test b.priority = true) :
    PrioritySchedule kern t
      (positionsWith t fun b => !decide (b.v1 = kern.defaultV) && test b.priority) := by
  have hmem : ∀ {pos},
      pos ∈ positionsWith t (fun b => !decide (b.v1 = kern.defaultV) && test b.priority) ↔
      ∃ b, cellAt t.buckets pos = some b ∧ b.v1 ≠ kern.defaultV ∧ test b.priority = true := by
    intro pos
    rw [mem_positionsWith]
    simp only [Bool.and_eq_true, Bool.not_eq_true', decide_eq_false_iff_not, ne_eq]
  refine ⟨List.nodup_range.filter _, ?_, ?_, ?_⟩
  · intro pos hpos
    obtain ⟨b, hb, hne, -⟩ := hmem.mp hpos
    exact ⟨b, hb, hne⟩
  · intro pos pos' b b' hpos hb hb' hne hle
    obtain ⟨c, hc, -, htest⟩ := hmem.mp hpos
    obtain rfl : c = b := Option.some.inj (hc.symm.trans hb)
    exact hmem.mpr ⟨b', hb', hne, hup hle htest⟩
  · intro hnonneg hzero hpending
    obtain ⟨pos, b, hb, hne, htest⟩ := hprogress hnonneg hzero hpending
    exact List.ne_nil_of_mem (hmem.mpr ⟨b, hb, hne, htest⟩)

/-- **Priority scheduling is upward closed and makes progress.** This holds for every sample
and every cut, unless the filter has stopped the constructor. -/
theorem priority_schedule (hlarge : sampleSize < t.entries) (cutIndex : Fin sampleSize)
    (bfilter : Bool) (draws : Draws t)
    (hgoesOn : ¬ (bfilter = true ∧ Unchanged kern t draws.positions)) :
    PrioritySchedule kern t (ScheduledIterator.new kern t cutIndex bfilter draws).scheduledPos := by
  have hnot : ¬ (bfilter && draws.positions.all fun pos => !pendingAt kern t pos) = true := by
    rw [Bool.and_eq_true, List.all_eq_true]
    rintro ⟨hfilter, hall⟩
    exact hgoesOn ⟨hfilter, unchanged_iff.mpr fun pos hpos => by simpa using hall pos hpos⟩
  rw [ScheduledIterator.new_of_lt hlarge, if_neg hnot]
  obtain ⟨threshold, top, htop, hthreshold, hcase⟩ := exists_threshold kern cutIndex draws
  obtain ⟨p, -, b, hb, rfl⟩ := mem_sampledPriorities.mp htop
  -- a bucket with a priority above zero is pending
  have hpending : (∀ pos b, cellAt t.buckets pos = some b → b.v1 = kern.defaultV →
      b.priority = kern.zero) → kern.zero < b.priority → b.v1 ≠ kern.defaultV :=
    fun hzero hpos hdefault => hpos.ne (hzero p b hb hdefault).symm
  rcases hcase with ⟨rfl, hschedule⟩ | ⟨hlt, hschedule⟩
  · rw [hschedule]
    apply prioritySchedule_of_test fun q => decide (b.priority ≤ q)
    · intro q r hqr hq
      exact decide_eq_true ((of_decide_eq_true hq).trans hqr)
    · rintro hnonneg hzero ⟨pos, c, hc, hne⟩
      rcases (hnonneg p b hb).eq_or_lt with heq | hpos
      · exact ⟨pos, c, hc, hne, decide_eq_true (heq ▸ hnonneg pos c hc)⟩
      · exact ⟨p, b, hb, hpending hzero hpos, decide_eq_true le_rfl⟩
  · rw [hschedule]
    apply prioritySchedule_of_test fun q => decide (threshold < q)
    · intro q r hqr hq
      exact decide_eq_true ((of_decide_eq_true hq).trans_le hqr)
    · rintro hnonneg hzero -
      obtain ⟨q, -, c, hc, rfl⟩ := mem_sampledPriorities.mp hthreshold
      have hpos := (hnonneg q c hc).trans_lt hlt
      exact ⟨p, b, hb, hpending hzero hpos, decide_eq_true hlt⟩

end Schedule

/-- A table in which every vertex is pending. -/
def busyTable (n : ℕ) : StateTable ℕ ℕ (List ℕ) :=
  ⟨(List.range n).map fun k => some ⟨k, 1, 0, [], 1⟩, n, 0⟩

theorem cellAt_busyTable {n pos : ℕ} (hpos : pos < n) :
    cellAt (busyTable n).buckets pos = some ⟨pos, 1, 0, [], 1⟩ := by
  rw [cellAt_eq_some_iff, busyTable, List.getElem?_map, List.getElem?_range hpos]
  rfl

theorem busyTable_in_use (pos : ℕ) (hpos : pos ∈ List.replicate sampleSize 0) :
    ∃ b, cellAt (busyTable (sampleSize + 1)).buckets pos = some b := by
  rw [List.eq_of_mem_replicate hpos]
  exact ⟨_, cellAt_busyTable (Nat.succ_pos _)⟩

def busyDraws : Draws (busyTable (sampleSize + 1)) :=
  ⟨List.replicate sampleSize 0, length_first_bucket, busyTable_in_use⟩

theorem priority_schedule_busyTable :
    PrioritySchedule (sumKernel fun _ => []) (busyTable (sampleSize + 1))
      (ScheduledIterator.new (sumKernel fun _ => []) (busyTable (sampleSize + 1))
        ⟨0, sampleSize_pos⟩ true busyDraws).scheduledPos := by
  apply priority_schedule (Nat.lt_succ_self _)
  rintro ⟨-, hunchanged⟩
  have hmem : 0 ∈ busyDraws.positions := List.mem_replicate.mpr ⟨sampleSize_pos.ne', rfl⟩
  have hdefault := hunchanged 0 hmem _ (cellAt_busyTable (Nat.succ_pos _))
  cases hdefault

end MaiterStore.StateTable
