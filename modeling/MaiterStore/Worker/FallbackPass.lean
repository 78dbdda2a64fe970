/-
# Giving up the wait for a change

`get_iterator` and `schedule_iterator` (`kernel/statetable.h`) wait as long as the filter of
the iterator reports no change. After ten trials they give up: they sum up `v2` over the
table, send the sum to the master, and return the iterator they summed up with, to "perform
a pass of the current table".

That iterator has come to the end of the table, so the loop of the caller visits nothing.
`schedule_iterator` moreover ignores what `Next()` returns, and reads the bucket behind the
table when the last bucket is not in use.
-/

import MaiterStore.Worker.ScheduledPass

namespace MaiterStore.StateTable

open CS.LinearProbing CS.Run

variable {K V D I : Type*}

/-! ## The two functions -/

/-- The arguments of `SendTermcheck`. -/
structure Termcheck (V : Type*) where
  index : ℤ
  updates : ℕ
  current : V
  deriving DecidableEq, Repr

/-- What is returned: the iterator of the last trial, or that of the pass over the whole table
with what has been sent. -/
inductive Returned (I V : Type*)
  | iter (i : I)
  | entireIter (i : EntirePassIterator) (sent : Termcheck V)

section Calls

variable [Zero V] [Add V]

/-- The summing loop of `get_iterator`. -/
def sumPass (t : StateTable K V D) : Except (Fault K) (EntirePassIterator × V) :=
  IteratorMethods.entirePass.loop (fun _ => t) (fun _ b total => total + b.v2) (t.size_ + 1)
    EntirePassIterator.new 0

/-- The summing loop of `schedule_iterator`, which goes on whatever `Next()` returns. -/
def sumPassLoop (t : StateTable K V D) :
    ℕ → EntirePassIterator → V → Except (Fault K) (EntirePassIterator × V)
  | 0, _, _ => .error .fuel
  | rounds + 1, i, total =>
    if i.done t then .ok (i, total)
    else ((i.next t).bucket t).bind fun b => sumPassLoop t rounds (i.next t) (total + b.v2)

/-- The summing loop of `schedule_iterator`. -/
def sumScheduledPass (t : StateTable K V D) : Except (Fault K) (EntirePassIterator × V) :=
  sumPassLoop t (t.size_ + 1) EntirePassIterator.new 0

variable (helper : TableHelper (LocalTable K V D))
  (sum : StateTable K V D → Except (Fault K) (EntirePassIterator × V))
  (make : ℕ → LocalTable K V D → I × Bool)

/-- `FlushUpdates` and `HandlePutRequest`. -/
def receive (lt : LocalTable K V D) : LocalTable K V D :=
  helper.handlePutRequest (helper.flushUpdates lt)

omit [Zero V] [Add V] in
/-- The loop that waits for a put, with the trials it has left. `make` makes the iterator of a
trial, with its `b_no_change`. -/
def waitForPut : ℕ → LocalTable K V D → Except (Fault K) (Option (Returned I V) × LocalTable K V D)
  | 0, lt => .ok (none, lt)
  | trials + 1, lt =>
    let lt := receive helper lt
    if lt.terminated then .ok (none, lt)
    else if trials = 0 then
      (sum lt.table).map fun r => (some (.entireIter r.1 ⟨-1, lt.table.totalUpdates, r.2⟩), lt)
    else if (make trials lt).2 then waitForPut trials lt
    else .ok (some (.iter (make trials lt).1), lt)

/-- What `get_iterator` and `schedule_iterator` have in common. -/
def callIterator (lt : LocalTable K V D) :
    Except (Fault K) (Option (Returned I V) × LocalTable K V D) :=
  if lt.terminated then .ok (none, lt)
  else
    let lt := receive helper lt
    if (make 10 lt).2 then waitForPut helper sum make 10 lt
    else .ok (some (.iter (make 10 lt).1), lt)

/-- The iterator of a trial of `get_iterator`. The first one is made with the filter in any
case. `noChange` says what the filter finds. -/
def makeIterator (bfilter : Bool) (noChange : ℕ → LocalTable K V D → Bool) (trials : ℕ)
    (lt : LocalTable K V D) : Iterator × Bool :=
  (Iterator.new, (trials == 10 || bfilter) && noChange trials lt)

/-- `get_iterator(helper, bfilter)`. -/
def getIterator (bfilter : Bool) (noChange : ℕ → LocalTable K V D → Bool) (lt : LocalTable K V D) :
    Except (Fault K) (Option (Returned Iterator V) × LocalTable K V D) :=
  callIterator helper sumPass (makeIterator bfilter noChange) lt

/-- The iterator of a trial of `schedule_iterator`. -/
def makeScheduled (new : ℕ → LocalTable K V D → ScheduledIterator) (trials : ℕ)
    (lt : LocalTable K V D) : ScheduledIterator × Bool :=
  (new trials lt, (new trials lt).bNoChange)

/-- `schedule_iterator(helper, bfilter)`, over the constructor of its iterators. -/
def scheduleIterator (new : ℕ → LocalTable K V D → ScheduledIterator) (lt : LocalTable K V D) :
    Except (Fault K) (Option (Returned ScheduledIterator V) × LocalTable K V D) :=
  callIterator helper sumScheduledPass (makeScheduled new) lt

end Calls

/-! ## The sums -/

section Sums

variable {t : StateTable K V D}

theorem filterMap_range_cellAt {B : Type*} (cells : List (Option B)) :
    (List.range cells.length).filterMap (cellAt cells) = cells.reduceOption := by
  induction cells with
  | nil => rfl
  | cons c cells ih =>
    have htail : (fun i => cellAt (c :: cells) (i + 1)) = cellAt cells := by
      funext i
      rw [cellAt, cellAt, List.getElem?_cons_succ]
    have hhead : cellAt (c :: cells) 0 = c := rfl
    rw [List.length_cons, List.range_succ_eq_map, List.filterMap_cons, List.filterMap_map, hhead]
    have hrest : (List.range cells.length).filterMap (cellAt (c :: cells) ∘ Nat.succ) =
        cells.reduceOption := (congrArg (List.filterMap · _) htail).trans ih
    rw [hrest]
    cases c <;> rfl

theorem filterMap_inUse (t : StateTable K V D) :
    t.inUse.filterMap (cellAt t.buckets) = t.buckets.reduceOption := by
  rw [← filterMap_range_cellAt, inUse, inUseFrom, List.range_eq_range', List.filterMap_filter,
    Nat.sub_zero, size_]
  congr 1
  funext pos
  cases cellAt t.buckets pos <;> rfl

theorem foldl_visitAt_const {S : Type*} (f : S → Bucket K V D → S) (positions : List ℕ) (s : S) :
    positions.foldl (visitAt (fun _ => t) fun _ b s => f s b) s =
      (positions.filterMap (cellAt t.buckets)).foldl f s := by
  induction positions generalizing s with
  | nil => rfl
  | cons pos positions ih =>
    rw [List.foldl_cons, ih, visitAt]
    cases hcell : cellAt t.buckets pos with
    | none => rw [List.filterMap_cons_none hcell]; rfl
    | some b => rw [List.filterMap_cons_some hcell]; rfl

/-- The last bucket is in use, or there is none. -/
def LastInUse (t : StateTable K V D) : Prop :=
  t.size_ = 0 ∨ ∃ b, cellAt t.buckets (t.size_ - 1) = some b

theorem LastInUse.inUse_eq_nil_iff (hlast : t.LastInUse) : t.inUse = [] ↔ t.size_ = 0 := by
  refine ⟨fun hnil => hlast.resolve_right ?_, fun hsize => inUseFrom_of_size_le hsize.le⟩
  intro hb
  have hmem := mem_inUse.mpr hb
  rw [hnil] at hmem
  cases hmem

variable [Add V]

section Loop

variable {rounds n : ℕ} {i : EntirePassIterator}

theorem sumPassLoop_of_end (hpos : i.pos = t.size_ - 1) (rounds : ℕ) (total : V) :
    sumPassLoop t (rounds + 1) i total = .ok (i, total) := by
  rw [sumPassLoop, if_pos ((done_iff hpos).mpr rfl)]

/-- A round goes to the next bucket in use, or reads a bucket behind the table. -/
theorem sumPassLoop_round (hpos : i.pos = n - 1) (hlt : n < t.size_) (rounds : ℕ) (total : V) :
    (∃ (q : ℕ) (b : Bucket K V D), n ≤ q ∧ (i.next t).pos = (q + 1 : ℕ) - 1 ∧
        cellAt t.buckets q = some b ∧ t.inUseFrom n = q :: t.inUseFrom (q + 1) ∧
        sumPassLoop t (rounds + 1) i total = sumPassLoop t rounds (i.next t) (total + b.v2)) ∨
      t.inUseFrom n = [] ∧
        ∃ q : ℕ, t.size_ ≤ q ∧ sumPassLoop t (rounds + 1) i total = .error (.outOfRange q) := by
  have hdone : ¬ i.done t = true := by
    rw [done_iff hpos]
    omega
  rw [sumPassLoop, if_neg hdone]
  rcases next_spec (t := t) hpos with
    ⟨q, b, hnq, hq, -, hbucket, hcell, hcons⟩ | ⟨⟨q, hsize, hq⟩, -, hnil⟩
  · have hq' : (i.next t).pos = (q + 1 : ℕ) - 1 := by
      rw [EntirePassIterator.next, hq]
      push_cast
      omega
    have hbucket' : (i.next t).bucket t = .ok b := hbucket
    refine .inl ⟨q, b, hnq, hq', hcell, hcons, ?_⟩
    rw [hbucket', ok_bind]
  · have hbucket : (i.next t).bucket t = .error (.outOfRange q) := by
      have hout : (q : ℤ) < 0 ∨ (t.size_ : ℤ) ≤ q := by omega
      rw [Iterator.bucket, EntirePassIterator.next, hq, if_pos hout]
    refine .inr ⟨hnil, q, hsize, ?_⟩
    rw [hbucket]
    rfl

/-- With the last bucket in use, the loop of `schedule_iterator` sums up the entries from
position `n` on. -/
theorem sumPassLoop_of_last {b : Bucket K V D} (hlast : cellAt t.buckets (t.size_ - 1) = some b)
    (hpos : i.pos = n - 1) (hn : n ≤ t.size_) (hrounds : t.size_ ≤ n + rounds) (total : V) :
    ∃ i', sumPassLoop t (rounds + 1) i total = .ok (i', (t.inUseFrom n).foldl
        (visitAt (fun _ => t) fun _ b total => total + b.v2) total) ∧ i'.pos = t.size_ - 1 := by
  induction rounds generalizing n i total with
  | zero =>
    obtain rfl : n = t.size_ := by omega
    refine ⟨i, ?_, hpos⟩
    rw [sumPassLoop_of_end hpos, inUseFrom_of_size_le le_rfl]
    rfl
  | succ rounds ih =>
    rcases hn.eq_or_lt with rfl | hlt
    · refine ⟨i, ?_, hpos⟩
      rw [sumPassLoop_of_end hpos, inUseFrom_of_size_le le_rfl]
      rfl
    · rcases sumPassLoop_round hpos hlt (rounds + 1) total with
        ⟨q, c, hnq, hq, hcell, hcons, hround⟩ | ⟨hnil, -⟩
      · have hqlt : q < t.size_ := lt_length_of_cellAt hcell
        obtain ⟨i', hloop, hend⟩ := ih hq hqlt (by omega) (total + c.v2)
        have hvisit : visitAt (fun _ => t) (fun _ b total => total + b.v2) total q =
          total + c.v2 := by
          rw [visitAt, hcell]
          rfl
        refine ⟨i', ?_, hend⟩
        rw [hround, hloop, hcons, List.foldl_cons, hvisit]
      · -- the last bucket is still ahead
        have hmem : t.size_ - 1 ∈ t.inUseFrom n := by
          rw [mem_inUseFrom, hlast]
          exact ⟨by omega, rfl⟩
        rw [hnil] at hmem
        cases hmem

/-- Otherwise it reads a bucket behind the table. -/
theorem sumPassLoop_of_not_last (hlast : cellAt t.buckets (t.size_ - 1) = none)
    (hpos : i.pos = n - 1) (hn : n < t.size_) (hrounds : t.size_ ≤ n + rounds) (total : V) :
    ∃ q : ℕ, t.size_ ≤ q ∧ sumPassLoop t (rounds + 1) i total = .error (.outOfRange q) := by
  induction rounds generalizing n i total with
  | zero => omega
  | succ rounds ih =>
    rcases sumPassLoop_round hpos hn (rounds + 1) total with
      ⟨q, c, hnq, hq, hcell, -, hround⟩ | ⟨-, hout⟩
    · have hqlt : q < t.size_ := lt_length_of_cellAt hcell
      have hne : q ≠ t.size_ - 1 := by
        rintro rfl
        rw [hlast] at hcell
        cases hcell
      rw [hround]
      exact ih hq (by omega) (by omega) (total + c.v2)
    · exact hout

end Loop

variable [Zero V]

/-- The sum of `v2` over the entries, in the order of the buckets. -/
def totalF2 (t : StateTable K V D) : V :=
  t.buckets.reduceOption.foldl (fun total b => total + b.v2) 0

theorem foldl_inUse_eq_totalF2 (t : StateTable K V D) :
    t.inUse.foldl (visitAt (fun _ => t) fun _ b total => total + b.v2) 0 = t.totalF2 := by
  rw [foldl_visitAt_const fun total b => total + b.v2, filterMap_inUse]
  rfl

/-- The loop of `get_iterator` ends with the sum, and with the iterator at the end. -/
theorem sumPass_eq (t : StateTable K V D) : ∃ i, sumPass t = .ok (i, t.totalF2) ∧
    ∃ n : ℕ, t.size_ ≤ n ∧ i.pos = n - 1 := by
  obtain ⟨i, hloop, hend⟩ := loop_spec .entirePass (fun _ => t) (fun _ b total => total + b.v2)
    (i := EntirePassIterator.new) (s := (0 : V)) (n := 0) (fun _ _ _ => rfl) t.size_ rfl
    (Nat.le_add_left ..)
  refine ⟨i, ?_, hend⟩
  rw [← foldl_inUse_eq_totalF2]
  exact hloop

/-- The loop of `schedule_iterator` ends with the sum if the last bucket is in use. -/
theorem sumScheduledPass_of_last (hlast : t.LastInUse) :
    ∃ i, sumScheduledPass t = .ok (i, t.totalF2) ∧ i.pos = t.size_ - 1 := by
  have hnew : (EntirePassIterator.new).pos = (0 : ℕ) - 1 := rfl
  rw [← foldl_inUse_eq_totalF2]
  rcases hlast with hsize | ⟨b, hb⟩
  · have hpos : (EntirePassIterator.new).pos = (t.size_ : ℤ) - 1 := by rw [hnew, hsize]
    refine ⟨_, ?_, hpos⟩
    rw [sumScheduledPass, sumPassLoop_of_end hpos, inUse, inUseFrom_of_size_le hsize.le]
    rfl
  · exact sumPassLoop_of_last hb hnew (Nat.zero_le _) (Nat.le_add_left ..) 0

theorem sumScheduledPass_of_not_last (hlast : ¬ t.LastInUse) :
    ∃ q : ℕ, t.size_ ≤ q ∧ sumScheduledPass t = .error (.outOfRange q) := by
  rw [LastInUse, not_or] at hlast
  refine sumPassLoop_of_not_last ?_ (n := 0) rfl (Nat.pos_of_ne_zero hlast.1) (Nat.le_add_left ..) 0
  by_contra hsome
  exact hlast.2 (Option.ne_none_iff_exists'.mp hsome)

end Sums

/-! ## The cursor alone

`LocalTable.getIterator` follows the same calls without the sum. -/

section Cursor

variable [Zero V] [Add V]

/-- The cursor of what is returned by `get_iterator`. -/
def Returned.cursor : Returned Iterator V → Iterator
  | .iter i => i
  | .entireIter i _ => i.toIterator

omit [Zero V] [Add V] in
theorem receive_eq (helper : TableHelper (LocalTable K V D)) (lt : LocalTable K V D) :
    helper.handlePutRequest (helper.flushUpdates lt) = receive helper lt := rfl

omit [Zero V] [Add V] in
theorem entirePass_of_loop {S : Type*} {it : IteratorMethods I K V D} {t : StateTable K V D}
    {visit : ℤ → Bucket K V D → S → S} {rounds : ℕ} {i i' : I} {s s' : S}
    (hloop : it.loop (fun _ => t) visit rounds i s = .ok (i', s')) :
    Iterator.entirePass t rounds (it.toIterator i) = it.toIterator i' := by
  induction rounds generalizing i s with
  | zero => cases hloop
  | succ rounds ih =>
    rw [IteratorMethods.loop] at hloop
    rw [Iterator.entirePass]
    split_ifs at hloop with hdone hnext
    · obtain ⟨rfl, -⟩ := Prod.mk.inj (Except.ok.inj hloop)
      exact if_pos hdone
    · obtain ⟨rfl, -⟩ := Prod.mk.inj (Except.ok.inj hloop)
      rw [Bool.not_eq_true', Iterator.nextResult, decide_eq_false_iff_not, not_lt] at hnext
      rw [if_neg hdone, if_pos hnext, it.toIterator_next]
    · rw [Bool.not_eq_true', Bool.not_eq_false, Iterator.nextResult, decide_eq_true_eq] at hnext
      obtain ⟨b, -, hrest⟩ := bind_eq_ok.mp hloop
      rw [if_neg hdone, if_neg hnext.not_ge, ← it.toIterator_next]
      exact ih hrest

/-- The wait, of which `get_iterator` has made the first trial. -/
theorem waitForPut_cursor (helper : TableHelper (LocalTable K V D)) (bfilter : Bool)
    (noChange : ℕ → LocalTable K V D → Bool) {trials : ℕ} (htrials : trials < 10)
    (lt : LocalTable K V D) :
    (waitForPut helper sumPass (makeIterator bfilter noChange) (trials + 1) lt).map
        (fun r => (r.1.map Returned.cursor, r.2)) =
      .ok (LocalTable.waitForChange helper bfilter noChange (trials + 1) lt) := by
  induction trials generalizing lt with
  -- the last trial: the pass over the whole table ends the wait
  | zero =>
    obtain ⟨i, hsum, -⟩ := sumPass_eq (receive helper lt).table
    have hcursor : Iterator.entirePass (receive helper lt).table
        ((receive helper lt).table.size_ + 1) Iterator.new = i.toIterator := entirePass_of_loop hsum
    cases hterm : (receive helper lt).terminated with
    | true =>
      simp only [waitForPut, LocalTable.waitForChange, hterm, if_true, receive_eq]
      rfl
    | false =>
      simp only [waitForPut, LocalTable.waitForChange, hterm, Bool.false_eq_true, if_false, if_true,
        receive_eq, hsum, hcursor]
      rfl
  -- fewer than ten trials are left, so the filter decides alone
  | succ trials ih =>
    have hmake : (makeIterator bfilter noChange (trials + 1) (receive helper lt)).2 =
        (bfilter && noChange (trials + 1) (receive helper lt)) := by
      have hne : (trials + 1 == 10) = false := by
        rw [beq_eq_false_iff_ne]
        omega
      rw [makeIterator, hne, Bool.false_or]
    rw [waitForPut, LocalTable.waitForChange]
    cases hterm : (receive helper lt).terminated with
    | true =>
      simp only [receive_eq, hterm, if_true]
      rfl
    | false =>
      cases hwait : (bfilter && noChange (trials + 1) (receive helper lt)) with
      | true =>
        simp only [receive_eq, hterm, Bool.false_eq_true, if_false, Nat.succ_ne_zero,
          hmake.trans hwait, hwait, if_true]
        exact ih (by omega) (receive helper lt)
      | false =>
        simp only [receive_eq, hterm, Bool.false_eq_true, if_false, Nat.succ_ne_zero,
          hmake.trans hwait, hwait]
        rfl

/-- `get_iterator` goes where `LocalTable.getIterator` says. -/
theorem getIterator_cursor (helper : TableHelper (LocalTable K V D)) (bfilter : Bool)
    (noChange : ℕ → LocalTable K V D → Bool) (lt : LocalTable K V D) :
    (getIterator helper bfilter noChange lt).map (fun r => (r.1.map Returned.cursor, r.2)) =
      LocalTable.getIterator (some helper) bfilter noChange lt := by
  have hmake : (makeIterator bfilter noChange 10 (receive helper lt)).2 =
      noChange 10 (receive helper lt) := rfl
  rw [getIterator, callIterator, LocalTable.getIterator]
  by_cases hterm : lt.terminated = true
  · rw [if_pos hterm, if_pos hterm]
    rfl
  · rw [if_neg hterm, if_neg hterm]
    cases hwait : noChange 10 (receive helper lt) with
    | true =>
      simp only [receive_eq, hmake.trans hwait, hwait, if_true]
      exact waitForPut_cursor helper bfilter noChange (Nat.lt_succ_self 9) (receive helper lt)
    | false =>
      simp only [receive_eq, hmake.trans hwait, hwait, Bool.false_eq_true, if_false]
      rfl

end Cursor

/-! ## After ten trials -/

section GivesUp

variable {helper : TableHelper (LocalTable K V D)}
  {make : ℕ → LocalTable K V D → I × Bool} {lt : LocalTable K V D}

/-- The iterators of all trials report no change, and the table is not terminated meanwhile. -/
structure GivesUp (helper : TableHelper (LocalTable K V D)) (make : ℕ → LocalTable K V D → I × Bool)
    (lt : LocalTable K V D) : Prop where
  called : lt.terminated = false
  waits : ∀ k < 10, (make (10 - k) ((receive helper)^[k + 1] lt)).2 = true
  alive : ∀ k < 10, ((receive helper)^[k + 2] lt).terminated = false

/-- The shard when the last trial is made. -/
def lastTrial (helper : TableHelper (LocalTable K V D)) (lt : LocalTable K V D) :
    LocalTable K V D :=
  (receive helper)^[11] lt

/-- The wait from trial `k` on. -/
theorem waitForPut_of_givesUp (sum : StateTable K V D → Except (Fault K) (EntirePassIterator × V))
    (h : GivesUp helper make lt) {trials k : ℕ}
    (hk : k + (trials + 1) = 10) :
    waitForPut helper sum make (trials + 1) ((receive helper)^[k + 1] lt) =
      (sum (lastTrial helper lt).table).map fun r =>
        (some (.entireIter r.1 ⟨-1, (lastTrial helper lt).table.totalUpdates, r.2⟩),
          lastTrial helper lt) := by
  induction trials generalizing k with
  | zero =>
    obtain rfl : k = 9 := by omega
    have halive := h.alive 9 (by omega)
    rw [Function.iterate_succ_apply'] at halive
    rw [waitForPut, if_neg (by rw [halive]; exact Bool.false_ne_true), if_pos rfl, lastTrial,
      Function.iterate_succ_apply' _ 10]
  | succ trials ih =>
    have halive := h.alive k (by omega)
    have hwaits := h.waits (k + 1) (by omega)
    have htrials : 10 - (k + 1) = trials + 1 := by omega
    rw [Function.iterate_succ_apply'] at halive
    rw [htrials, Function.iterate_succ_apply'] at hwaits
    rw [waitForPut, if_neg (by rw [halive]; exact Bool.false_ne_true),
      if_neg (Nat.succ_ne_zero trials), if_pos hwaits, ← ih (k := k + 1) (by omega),
      Function.iterate_succ_apply' _ (k + 1)]

theorem callIterator_of_givesUp (sum : StateTable K V D → Except (Fault K) (EntirePassIterator × V))
    (h : GivesUp helper make lt) :
    callIterator helper sum make lt = (sum (lastTrial helper lt).table).map fun r =>
      (some (.entireIter r.1 ⟨-1, (lastTrial helper lt).table.totalUpdates, r.2⟩),
        lastTrial helper lt) := by
  have hfirst := h.waits 0 (by omega)
  rw [callIterator, if_neg (by rw [h.called]; exact Bool.false_ne_true)]
  exact (if_pos hfirst).trans (waitForPut_of_givesUp sum h (k := 0) rfl)

end GivesUp

/-! ## The pass that is announced -/

section Delivers

variable [Zero V] [Add V] {t : StateTable K V D}

/-- A call has given up with the sum over the table, and the loop of its caller makes a pass
over the table. -/
structure Delivers (result : Except (Fault K) (Option (Returned I V) × LocalTable K V D))
    (lt : LocalTable K V D) : Prop where
  passes : ∃ i,
    result = .ok (some (.entireIter i ⟨-1, lt.table.totalUpdates, lt.table.totalF2⟩), lt) ∧
    LoopBody.read.VisitsEachOnce .entirePass i lt.table

/-- A call has given up with the sum over the table. -/
def ReportsTotal (result : Except (Fault K) (Option (Returned I V) × LocalTable K V D))
    (lt : LocalTable K V D) : Prop :=
  ∃ i, result = .ok (some (.entireIter i ⟨-1, lt.table.totalUpdates, lt.table.totalF2⟩), lt)

omit [Zero V] [Add V] in
/-- From the end of a table on, a pass visits nothing. -/
theorem visitsEachOnce_of_end {i : EntirePassIterator} {n : ℕ} (hn : t.size_ ≤ n)
    (hpos : i.pos = n - 1) :
    LoopBody.read.VisitsEachOnce .entirePass i t ↔ t.inUse = [] := by
  obtain ⟨i', hloop, -⟩ := loop_of_nil .entirePass Prod.fst LoopBody.read.visitAndRecord
    (i := i) (s := (t, [])) hpos (inUseFrom_of_size_le hn) t.size_
  constructor
  · rintro ⟨j, t', seen, hpass, -, hmem⟩
    have hseen : (t, []) = (t', seen.map Nat.cast) :=
      (Prod.mk.inj (Except.ok.inj (hloop.symm.trans hpass))).2
    have hnil : seen = [] := List.map_eq_nil_iff.mp (Prod.mk.inj hseen).2.symm
    rw [List.eq_nil_iff_forall_not_mem]
    intro pos hpos
    have hin := (hmem pos).mpr (mem_inUse.mp hpos)
    rw [hnil] at hin
    cases hin
  · intro hnil
    refine ⟨i', t, [], hloop, .nil, fun pos => ?_⟩
    rw [← hnil]
    exact mem_inUse

/-- Whether a call that has given up delivers depends on its sum and on where it leaves the
iterator. -/
theorem delivers_iff {result : Except (Fault K) (Option (Returned I V) × LocalTable K V D)}
    {lt : LocalTable K V D} {i : EntirePassIterator} {n : ℕ}
    (hresult :
      result = .ok (some (.entireIter i ⟨-1, lt.table.totalUpdates, lt.table.totalF2⟩), lt))
    (hn : lt.table.size_ ≤ n) (hpos : i.pos = n - 1) :
    Delivers result lt ↔ lt.table.inUse = [] := by
  rw [← visitsEachOnce_of_end hn hpos]
  constructor
  · rintro ⟨j, hj, hvisits⟩
    obtain rfl : i = j := by
      injection (Prod.mk.inj (Except.ok.inj (hresult.symm.trans hj))).1 with hreturned
      injection hreturned
    exact hvisits
  · exact fun hvisits => ⟨i, hresult, hvisits⟩

theorem getIterator_gives_up {helper : TableHelper (LocalTable K V D)} {bfilter : Bool}
    {noChange : ℕ → LocalTable K V D → Bool} {lt : LocalTable K V D}
    (h : GivesUp helper (makeIterator bfilter noChange) lt) :
    ReportsTotal (getIterator helper bfilter noChange lt) (lastTrial helper lt) ∧
      (Delivers (getIterator helper bfilter noChange lt) (lastTrial helper lt) ↔
        (lastTrial helper lt).table.inUse = []) := by
  obtain ⟨i, hsum, n, hn, hpos⟩ := sumPass_eq (lastTrial helper lt).table
  have hcall := callIterator_of_givesUp sumPass h
  rw [hsum] at hcall
  exact ⟨⟨i, hcall⟩, delivers_iff hcall hn hpos⟩

theorem scheduleIterator_gives_up {helper : TableHelper (LocalTable K V D)}
    {new : ℕ → LocalTable K V D → ScheduledIterator} {lt : LocalTable K V D}
    (h : GivesUp helper (makeScheduled new) lt) :
    (ReportsTotal (scheduleIterator helper new lt) (lastTrial helper lt) ↔
        (lastTrial helper lt).table.LastInUse) ∧
      (¬ (lastTrial helper lt).table.LastInUse → ∃ q : ℕ, (lastTrial helper lt).table.size_ ≤ q ∧
        scheduleIterator helper new lt = .error (.outOfRange q)) ∧
      (Delivers (scheduleIterator helper new lt) (lastTrial helper lt) ↔
        (lastTrial helper lt).table.size_ = 0) := by
  have hcall := callIterator_of_givesUp sumScheduledPass h
  generalize lastTrial helper lt = last at hcall ⊢
  by_cases hlast : last.table.LastInUse
  · obtain ⟨i, hsum, hpos⟩ := sumScheduledPass_of_last hlast
    rw [hsum] at hcall
    refine ⟨iff_of_true ⟨i, hcall⟩ hlast, absurd hlast, ?_⟩
    exact (delivers_iff hcall le_rfl hpos).trans hlast.inUse_eq_nil_iff
  · obtain ⟨q, hq, hsum⟩ := sumScheduledPass_of_not_last hlast
    rw [hsum] at hcall
    have hnot : ¬ ReportsTotal (scheduleIterator helper new lt) last := by
      rintro ⟨i, hi⟩
      cases hcall.symm.trans hi
    refine ⟨iff_of_false hnot hlast, fun _ => ⟨q, hq, hcall⟩, ?_⟩
    refine iff_of_false ?_ fun hsize => hlast (.inl hsize)
    rintro ⟨i, hi, -⟩
    exact hnot ⟨i, hi⟩

/-- **The fallback passes.** After ten trials without a change, `get_iterator` reports the
right total and `schedule_iterator` does so if the last bucket is in use, and otherwise reads
behind the table. The announced pass visits nothing, so that it is delivered only where there
is nothing to visit. -/
theorem fallback_passes_deliver_iff {helper : TableHelper (LocalTable K V D)} {bfilter : Bool}
    {noChange : ℕ → LocalTable K V D → Bool} {new : ℕ → LocalTable K V D → ScheduledIterator}
    {lt : LocalTable K V D} (hget : GivesUp helper (makeIterator bfilter noChange) lt)
    (hschedule : GivesUp helper (makeScheduled new) lt) :
    ((Delivers (getIterator helper bfilter noChange lt) (lastTrial helper lt) ∧
        Delivers (scheduleIterator helper new lt) (lastTrial helper lt)) ↔
      (lastTrial helper lt).table.size_ = 0) ∧
    ReportsTotal (getIterator helper bfilter noChange lt) (lastTrial helper lt) ∧
    (Delivers (getIterator helper bfilter noChange lt) (lastTrial helper lt) ↔
      (lastTrial helper lt).table.inUse = []) ∧
    (ReportsTotal (scheduleIterator helper new lt) (lastTrial helper lt) ↔
      (lastTrial helper lt).table.LastInUse) ∧
    (¬ (lastTrial helper lt).table.LastInUse → ∃ q : ℕ, (lastTrial helper lt).table.size_ ≤ q ∧
      scheduleIterator helper new lt = .error (.outOfRange q)) := by
  obtain ⟨hreports, hdelivers⟩ := getIterator_gives_up hget
  obtain ⟨hreports', hbehind, hdelivers'⟩ := scheduleIterator_gives_up hschedule
  refine ⟨?_, hreports, hdelivers, hreports', hbehind⟩
  rw [hdelivers, hdelivers']
  exact and_iff_right_of_imp fun hsize => inUseFrom_of_size_le hsize.le

end Delivers

/-! ### A shard with one pending vertex -/

def quietHelper : TableHelper (LocalTable ℕ ℕ (List ℕ)) := ⟨fun lt => lt, fun lt => lt⟩

/-- What the filter of an `Iterator` finds there. -/
def oneVertexFilter (_ : ℕ) (_ : LocalTable ℕ ℕ (List ℕ)) : Bool :=
  Iterator.bNoChange (sumKernel fun _ => []) oneVertex true oneVertexDraws

theorem oneVertexFilter_eq (trials : ℕ) (lt : LocalTable ℕ ℕ (List ℕ)) :
    oneVertexFilter trials lt = true := by
  rw [oneVertexFilter, Iterator.bNoChange, if_pos rfl, Iterator.filterLoop_fst, List.all_eq_true]
  intro pos hpos
  rw [List.eq_of_mem_replicate (Iterator.filterLoop_subset _ hpos)]
  rfl

def oneVertexShard : LocalTable ℕ ℕ (List ℕ) := ⟨oneVertex, none, false⟩

theorem receive_quietHelper (lt : LocalTable ℕ ℕ (List ℕ)) (k : ℕ) :
    (receive quietHelper)^[k] lt = lt :=
  Function.iterate_fixed rfl k

theorem givesUp_oneVertexShard {make : ℕ → LocalTable ℕ ℕ (List ℕ) → I × Bool}
    (hwaits : ∀ trials, 0 < trials → (make trials oneVertexShard).2 = true) :
    GivesUp quietHelper make oneVertexShard where
  called := rfl
  waits k hk := by
    rw [receive_quietHelper]
    exact hwaits (10 - k) (by omega)
  alive k _ := by rw [receive_quietHelper]; rfl

/-- The schedule of the shard, as the constructor makes it with the filter. -/
def oneVertexSchedule : ScheduledIterator :=
  ScheduledIterator.new (sumKernel fun _ => []) oneVertex ⟨0, sampleSize_pos⟩ true oneVertexDraws

theorem getIterator_givesUp_oneVertexShard :
    GivesUp quietHelper (makeIterator true oneVertexFilter) oneVertexShard :=
  givesUp_oneVertexShard fun _ _ => by simp [makeIterator, oneVertexFilter_eq]

theorem scheduleIterator_givesUp_oneVertexShard :
    GivesUp quietHelper (makeScheduled fun _ _ => oneVertexSchedule) oneVertexShard :=
  givesUp_oneVertexShard fun _ _ => rfl

theorem lastTrial_oneVertexShard : lastTrial quietHelper oneVertexShard = oneVertexShard :=
  receive_quietHelper _ 11

theorem fallback_passes_deliver_iff_oneVertexShard :
    ((Delivers (getIterator quietHelper true oneVertexFilter oneVertexShard)
          (lastTrial quietHelper oneVertexShard) ∧
        Delivers (scheduleIterator quietHelper (fun _ _ => oneVertexSchedule) oneVertexShard)
          (lastTrial quietHelper oneVertexShard)) ↔
      (lastTrial quietHelper oneVertexShard).table.size_ = 0) ∧
    ReportsTotal (getIterator quietHelper true oneVertexFilter oneVertexShard)
      (lastTrial quietHelper oneVertexShard) :=
  have h := fallback_passes_deliver_iff getIterator_givesUp_oneVertexShard
    scheduleIterator_givesUp_oneVertexShard
  ⟨h.1, h.2.1⟩

/-- Both functions give up on the shard, and neither makes the pass. -/
theorem one_vertex_not_visited :
    GivesUp quietHelper (makeIterator true oneVertexFilter) oneVertexShard ∧
      GivesUp quietHelper (makeScheduled fun _ _ => oneVertexSchedule) oneVertexShard ∧
      ¬ Delivers (getIterator quietHelper true oneVertexFilter oneVertexShard) oneVertexShard ∧
      ¬ Delivers (scheduleIterator quietHelper (fun _ _ => oneVertexSchedule) oneVertexShard)
        oneVertexShard := by
  have hget := (getIterator_gives_up getIterator_givesUp_oneVertexShard).2
  have hschedule := (scheduleIterator_gives_up scheduleIterator_givesUp_oneVertexShard).2.2
  rw [lastTrial_oneVertexShard] at hget hschedule
  refine ⟨getIterator_givesUp_oneVertexShard, scheduleIterator_givesUp_oneVertexShard, ?_, ?_⟩
  · rw [hget]
    exact List.cons_ne_nil 0 []
  · rw [hschedule]
    exact Nat.one_ne_zero

end MaiterStore.StateTable
