/-
# A pass over the state table

The loops of `run_loop` and `dump` (`kernel/kernel.h`) and of `estimate_prog`
(`kernel/table.h`) are one loop, `while (!done()) { if (!Next()) break; ... }`. It has two
ways out. If the last bucket is in use, `done()` is true once that bucket has been visited;
otherwise `Next()` runs past the end of the table and says so. Either way each bucket in use
is visited once.

What the body of the loop does to the table does not matter as long as no bucket comes into
use or goes out of use.
-/

import MaiterStore.Kernel.LocalTable

namespace MaiterStore.StateTable

open CS.LinearProbing CS.Run

variable {K V D : Type*}

/-! ## Buckets in use -/

/-- Which buckets are in use. -/
def layout (t : StateTable K V D) : List Bool := t.buckets.map Option.isSome

/-- The positions of the buckets in use, from position `n` on. -/
def inUseFrom (t : StateTable K V D) (n : ℕ) : List ℕ :=
  (List.range' n (t.size_ - n)).filter fun pos => (cellAt t.buckets pos).isSome

/-- The positions of all buckets in use. -/
def inUse (t : StateTable K V D) : List ℕ := t.inUseFrom 0

section InUse

variable {t t' : StateTable K V D} {n pos : ℕ} {b : Bucket K V D}

theorem mem_inUseFrom : pos ∈ t.inUseFrom n ↔ n ≤ pos ∧ (cellAt t.buckets pos).isSome = true := by
  rw [inUseFrom, List.mem_filter, List.mem_range'_1]
  refine and_congr_left fun hsome => ⟨fun h => h.1, fun h => ⟨h, ?_⟩⟩
  obtain ⟨b, hb⟩ := Option.isSome_iff_exists.mp hsome
  have hlt : pos < t.size_ := lt_length_of_cellAt hb
  omega

theorem mem_inUse : pos ∈ t.inUse ↔ ∃ b, cellAt t.buckets pos = some b := by
  rw [inUse, mem_inUseFrom, Option.isSome_iff_exists]
  exact and_iff_right (Nat.zero_le pos)

theorem pairwise_inUseFrom (t : StateTable K V D) (n : ℕ) : (t.inUseFrom n).Pairwise (· < ·) :=
  List.Pairwise.filter _ (List.pairwise_lt_range' ..)

theorem inUseFrom_of_size_le (h : t.size_ ≤ n) : t.inUseFrom n = [] := by
  rw [inUseFrom, Nat.sub_eq_zero_of_le h]
  rfl

theorem inUseFrom_of_lt (h : n < t.size_) : t.inUseFrom n =
    if (cellAt t.buckets n).isSome then n :: t.inUseFrom (n + 1) else t.inUseFrom (n + 1) := by
  have hsize : t.size_ - n = t.size_ - (n + 1) + 1 := by omega
  rw [inUseFrom, hsize, List.range'_succ, List.filter_cons]
  rfl

theorem isSome_cellAt_of_layout (h : t'.layout = t.layout) (pos : ℕ) :
    (cellAt t'.buckets pos).isSome = (cellAt t.buckets pos).isSome := by
  have hjoin : ∀ t : StateTable K V D,
      (cellAt t.buckets pos).isSome = (t.layout[pos]?.getD false) := by
    intro t
    rw [cellAt, layout, List.getElem?_map]
    rcases t.buckets[pos]? with - | - | b <;> rfl
  rw [hjoin, hjoin, h]

theorem size_of_layout (h : t'.layout = t.layout) : t'.size_ = t.size_ := by
  have hlen := congrArg List.length h
  rwa [layout, layout, List.length_map, List.length_map] at hlen

theorem inUseFrom_of_layout (h : t'.layout = t.layout) (n : ℕ) :
    t'.inUseFrom n = t.inUseFrom n := by
  rw [inUseFrom, inUseFrom, size_of_layout h]
  apply List.filter_congr
  intro pos _
  exact isSome_cellAt_of_layout h pos

section Write

variable [DecidableEq K] (hash : K → ℕ) (kern : IterateKernel K V D)

/-- Writing to a bucket in use leaves the same buckets in use. -/
theorem layout_write (t : StateTable K V D) (k : K) (change : Bucket K V D → Bucket K V D) :
    (t.write hash k change).table.layout = t.layout := by
  rw [write, checkedBucket]
  cases bucketForKey hash Bucket.k t.buckets k with
  | none => rfl
  | some p =>
    cases hcell : cellAt t.buckets p with
    | none =>
      simp only [hcell]
      rfl
    | some c =>
      have hp : t.layout[p]? = some true := by
        rw [layout, List.getElem?_map, cellAt_eq_some_iff.mp hcell]
        rfl
      obtain ⟨hlt, hget⟩ := List.getElem?_eq_some_iff.mp hp
      simp only [hcell]
      calc (t.buckets.set p (some (change c))).map Option.isSome
          = t.layout.set p true := List.map_set
        _ = t.layout.set p t.layout[p] := by rw [hget]
        _ = t.layout := List.set_getElem_self hlt

/-- So do the operations that write to one key. -/
theorem layout_step {op : Op K V D} (htarget : op.target.isSome = true) (fuel : ℕ) :
    (step hash kern fuel t op).table.layout = t.layout := by
  cases op with
  | updateF1 k v =>
    rw [← layout_write hash t k fun b => { b with v1 := v, priority := kern.zero }]
    rw [step, updateF1]
    cases write hash k (fun b => { b with v1 := v, priority := kern.zero }) t <;> rfl
  | updateF2 | updateF3 | accumulateF1 | accumulateF2 => exact layout_write ..
  | put | clear | resize => simp [Op.target] at htarget

theorem layout_exec {ops : List (Op K V D)} (htarget : ∀ op ∈ ops, op.target.isSome = true)
    (fuel : ℕ) : (exec hash kern fuel t ops).2.layout = t.layout := by
  induction ops generalizing t with
  | nil => rfl
  | cons op ops ih =>
    have hops := fun op hop => htarget op (List.mem_cons_of_mem _ hop)
    have hop := layout_step hash kern (t := t) (htarget op List.mem_cons_self) fuel
    rw [exec]
    cases hstep : step hash kern fuel t op with
    | ok t' | error e =>
      rw [hstep] at hop
      exact (ih hops).trans hop

end Write

end InUse

/-! ## Iterators -/

/-- `StateTable::EntirePassIterator`, which also counts the calls of `Next()`. -/
structure EntirePassIterator extends Iterator where
  total : ℕ
  deriving DecidableEq, Repr

namespace Iterator

/-- What `Next()` returns. -/
def nextResult (i : Iterator) (t : StateTable K V D) : Bool := (i.next t).pos < t.size_

end Iterator

namespace EntirePassIterator

/-- The constructor. -/
def new : EntirePassIterator := ⟨Iterator.new, 0⟩

/-- `Next()`, without its result. -/
def next (i : EntirePassIterator) (t : StateTable K V D) : EntirePassIterator :=
  ⟨i.toIterator.next t, i.total + 1⟩

end EntirePassIterator

/-- What a loop uses of an iterator: its methods, which go by the position in the same way for
all iterators over the buckets of a table. -/
structure IteratorMethods (I K V D : Type*) where
  toIterator : I → Iterator
  next : I → StateTable K V D → I
  toIterator_next : ∀ i t, toIterator (next i t) = (toIterator i).next t

namespace IteratorMethods

def iterator : IteratorMethods Iterator K V D := ⟨id, Iterator.next, fun _ _ => rfl⟩

def entirePass : IteratorMethods EntirePassIterator K V D :=
  ⟨EntirePassIterator.toIterator, EntirePassIterator.next, fun _ _ => rfl⟩

variable {I : Type*} {S : Type*} (it : IteratorMethods I K V D) (table : S → StateTable K V D)
  (visit : ℤ → Bucket K V D → S → S)

/-- `while (!done()) { if (!Next()) break; visit }`, for some rounds, over a state with the
table in it. -/
def loop : ℕ → I → S → Except (Fault K) (I × S)
  | 0, _, _ => .error .fuel
  | rounds + 1, i, s =>
    if (it.toIterator i).done (table s) then .ok (i, s)
    else if !(it.toIterator i).nextResult (table s) then .ok (it.next i (table s), s)
    else
      let i := it.next i (table s)
      ((it.toIterator i).bucket (table s)).bind fun b =>
        loop rounds i (visit (it.toIterator i).pos b s)

end IteratorMethods

/-! ## One call of `Next()` -/

section Next

variable {t : StateTable K V D}

/-- The loop of `Next()` stops at the first bucket in use from `n` on, or behind the last
bucket. -/
theorem advance_spec (fuel : ℕ) {n : ℕ} (hfuel : t.size_ ≤ n + fuel) :
    ∃ q : ℕ, n ≤ q ∧ Iterator.advance t (fuel + 1) (n - 1) = q ∧
      ((∃ b, cellAt t.buckets q = some b) ∧ t.inUseFrom n = q :: t.inUseFrom (q + 1) ∨
        t.size_ ≤ q ∧ t.inUseFrom n = []) := by
  induction fuel generalizing n with
  | zero =>
    have hstop : ¬ ((n : ℤ) < t.size_ ∧ cellAt t.buckets n = none) := by omega
    refine ⟨n, le_rfl, ?_, .inr ⟨hfuel, inUseFrom_of_size_le hfuel⟩⟩
    rw [Iterator.advance, sub_add_cancel, Int.toNat_natCast, if_neg hstop]
  | succ fuel ih =>
    rw [Iterator.advance, sub_add_cancel, Int.toNat_natCast]
    by_cases hgo : (n : ℤ) < t.size_ ∧ cellAt t.buckets n = none
    · obtain ⟨q, hnq, hq, hrest⟩ := ih (n := n + 1) (by omega)
      have hskip : t.inUseFrom n = t.inUseFrom (n + 1) := by
        rw [inUseFrom_of_lt (Int.ofNat_lt.mp hgo.1), hgo.2]
        rfl
      rw [Nat.cast_succ, add_sub_cancel_right] at hq
      rw [if_pos hgo, hskip]
      exact ⟨q, by omega, hq, hrest⟩
    · refine ⟨n, le_rfl, if_neg hgo, ?_⟩
      rcases Nat.lt_or_ge n t.size_ with hlt | hge
      · obtain ⟨b, hb⟩ := Option.ne_none_iff_exists'.mp fun hnone =>
          hgo ⟨Int.ofNat_lt.mpr hlt, hnone⟩
        refine .inl ⟨⟨b, hb⟩, ?_⟩
        rw [inUseFrom_of_lt hlt, hb]
        rfl
      · exact .inr ⟨hge, inUseFrom_of_size_le hge⟩

theorem done_iff {i : Iterator} {n : ℕ} (hpos : i.pos = n - 1) : i.done t = true ↔ n = t.size_ := by
  rw [Iterator.done, hpos, sub_add_cancel, decide_eq_true_eq]
  exact Int.ofNat_inj

/-- `Next()` goes to the next bucket in use, or behind the table if there is none. -/
theorem next_spec {i : Iterator} {n : ℕ} (hpos : i.pos = n - 1) :
    (∃ (q : ℕ) (b : Bucket K V D), n ≤ q ∧ (i.next t).pos = q ∧ i.nextResult t = true ∧
        (i.next t).bucket t = .ok b ∧ cellAt t.buckets q = some b ∧
        t.inUseFrom n = q :: t.inUseFrom (q + 1)) ∨
      (∃ q : ℕ, t.size_ ≤ q ∧ (i.next t).pos = q) ∧ i.nextResult t = false ∧
        t.inUseFrom n = [] := by
  obtain ⟨q, hnq, hq, hrest⟩ := advance_spec (t := t) (n := n) t.size_ (by omega)
  rw [← hpos] at hq
  have hnext : (i.next t).pos = q := hq
  rcases hrest with ⟨⟨b, hb⟩, hcons⟩ | ⟨hsize, hnil⟩
  · have hlt : q < t.size_ := lt_length_of_cellAt hb
    refine .inl ⟨q, b, hnq, hnext, ?_, ?_, hb, hcons⟩
    · rw [Iterator.nextResult, hnext]
      simpa using hlt
    · have hin : ¬ ((q : ℤ) < 0 ∨ (t.size_ : ℤ) ≤ q) := by omega
      rw [Iterator.bucket, hnext, if_neg hin, Int.toNat_natCast, hb]
      rfl
  · refine .inr ⟨⟨q, hsize, hnext⟩, ?_, hnil⟩
    rw [Iterator.nextResult, hnext]
    simpa using hsize

end Next

/-! ## The loop -/

section Loop

variable {I S : Type*} {it : IteratorMethods I K V D} {table : S → StateTable K V D}
  {visit : ℤ → Bucket K V D → S → S} {i : I} {n : ℕ}

/-- What a round of the loop does at a position in use. -/
def visitAt (table : S → StateTable K V D) (visit : ℤ → Bucket K V D → S → S) (s : S)
    (pos : ℕ) : S :=
  (cellAt (table s).buckets pos).elim s (visit pos · s)

variable (it) (table) (visit)

/-- With no bucket in use from `n` on, the loop visits nothing and leaves the iterator at the
end of the table. -/
theorem loop_of_nil {s : S} (hpos : (it.toIterator i).pos = n - 1)
    (hnil : (table s).inUseFrom n = []) (rounds : ℕ) :
    ∃ i', it.loop table visit (rounds + 1) i s = .ok (i', s) ∧
      ∃ m : ℕ, (table s).size_ ≤ m ∧ (it.toIterator i').pos = m - 1 := by
  by_cases hdone : (it.toIterator i).done (table s) = true
  · refine ⟨i, ?_, n, ((done_iff hpos).mp hdone).ge, hpos⟩
    rw [IteratorMethods.loop, if_pos hdone]
  · rcases next_spec (t := table s) hpos with
      ⟨q, b, -, -, -, -, -, hcons⟩ | ⟨⟨q, hsize, hq⟩, hnext, -⟩
    · rw [hnil] at hcons
      cases hcons
    · refine ⟨it.next i (table s), ?_, q + 1, by omega, ?_⟩
      · rw [IteratorMethods.loop, if_neg hdone, hnext]
        rfl
      · rw [it.toIterator_next, hq]
        push_cast
        omega

/-- From position `n` on, the loop visits the buckets in use one after the other, and leaves
the iterator at the end of the table. -/
theorem loop_spec (hkeep : ∀ pos b s, (table (visit pos b s)).layout = (table s).layout)
    (rounds : ℕ) {s : S} (hpos : (it.toIterator i).pos = n - 1)
    (hrounds : (table s).size_ ≤ n + rounds) :
    ∃ i', it.loop table visit (rounds + 1) i s =
        .ok (i', ((table s).inUseFrom n).foldl (visitAt table visit) s) ∧
      ∃ m : ℕ, (table s).size_ ≤ m ∧ (it.toIterator i').pos = m - 1 := by
  induction rounds generalizing i n s with
  | zero =>
    have hnil : (table s).inUseFrom n = [] := inUseFrom_of_size_le hrounds
    rw [hnil]
    exact loop_of_nil it table visit hpos hnil 0
  | succ rounds ih =>
    -- `Next` finds the next bucket in use, or there is none and the loop ends
    rcases next_spec (t := table s) hpos with
      ⟨q, b, hnq, hq, hnext, hbucket, hcell, hcons⟩ | ⟨-, -, hnil⟩
    · -- the body of the loop may have changed the table, but not its layout
      have hlayout := hkeep q b s
      obtain ⟨i', hloop, hend⟩ := ih (i := it.next i (table s)) (n := q + 1) (s := visit q b s)
        (by rw [it.toIterator_next, hq]; push_cast; omega)
        (by rw [size_of_layout hlayout]; omega)
      rw [inUseFrom_of_layout hlayout] at hloop
      rw [size_of_layout hlayout] at hend
      have hdone : ¬ (it.toIterator i).done (table s) = true := by
        rw [done_iff hpos]
        have hlt : q < (table s).size_ := lt_length_of_cellAt hcell
        omega
      have hvisit : visitAt table visit s q = visit q b s := by
        rw [visitAt, hcell]
        rfl
      refine ⟨i', ?_, hend⟩
      rw [IteratorMethods.loop, if_neg hdone, hnext]
      simp only [Bool.not_true, Bool.false_eq_true, if_false, it.toIterator_next, hbucket,
        hq, ok_bind]
      rw [hloop, hcons, List.foldl_cons, hvisit]
    · rw [hnil]
      exact loop_of_nil it table visit hpos hnil _

end Loop

/-! ## A whole pass -/

/-- The body of a loop over the table. It may change what is in the buckets. -/
structure LoopBody (K V D : Type*) where
  visit : Bucket K V D → StateTable K V D → StateTable K V D
  layout_visit : ∀ b t, (visit b t).layout = t.layout

namespace LoopBody

variable {I : Type*}

/-- A body that reads, as in `dump` and `estimate_prog`. -/
def read : LoopBody K V D := ⟨fun _ t => t, fun _ _ => rfl⟩

/-- A body that writes to keys of the table, as `run_iter` does. -/
def update [DecidableEq K] (hash : K → ℕ) (kern : IterateKernel K V D) (fuel : ℕ)
    (ops : Bucket K V D → List (Op K V D)) (htarget : ∀ b, ∀ op ∈ ops b, op.target.isSome = true) :
    LoopBody K V D :=
  ⟨fun b t => (exec hash kern fuel t (ops b)).2, fun b _ => layout_exec hash kern (htarget b) fuel⟩

/-- The body, with a record of the positions visited. -/
def visitAndRecord (body : LoopBody K V D) (pos : ℤ) (b : Bucket K V D)
    (s : StateTable K V D × List ℤ) : StateTable K V D × List ℤ :=
  (body.visit b s.1, s.2 ++ [pos])

/-- The loop with this body, with the positions that it visits. -/
def pass (body : LoopBody K V D) (it : IteratorMethods I K V D) (start : I) (t : StateTable K V D) :
    Except (Fault K) (I × StateTable K V D × List ℤ) :=
  it.loop Prod.fst body.visitAndRecord (t.size_ + 1) start (t, [])

/-- The pass comes to its end and goes through the positions in use in increasing order. -/
structure VisitsEachOnce (body : LoopBody K V D) (it : IteratorMethods I K V D) (start : I)
    (t : StateTable K V D) : Prop where
  visits : ∃ i t', ∃ seen : List ℕ, body.pass it start t = .ok (i, t', seen.map Nat.cast) ∧
    seen.Pairwise (· < ·) ∧ ∀ pos, pos ∈ seen ↔ ∃ b, cellAt t.buckets pos = some b

theorem foldl_visitAt (body : LoopBody K V D) {t : StateTable K V D} (positions : List ℕ)
    (hin : ∀ pos ∈ positions, (cellAt t.buckets pos).isSome = true) (seen : List ℤ) :
    ∃ t', positions.foldl (visitAt Prod.fst body.visitAndRecord) (t, seen) =
      (t', seen ++ positions.map Nat.cast) := by
  induction positions generalizing t seen with
  | nil => exact ⟨t, by simp⟩
  | cons pos positions ih =>
    obtain ⟨b, hb⟩ := Option.isSome_iff_exists.mp (hin pos List.mem_cons_self)
    have hvisit : visitAt Prod.fst body.visitAndRecord (t, seen) pos =
        (body.visit b t, seen ++ [(pos : ℤ)]) := by
      simp [visitAt, visitAndRecord, hb]
    obtain ⟨t', ht'⟩ := ih (t := body.visit b t) (by
      intro pos' hpos'
      rw [isSome_cellAt_of_layout (body.layout_visit b t)]
      exact hin pos' (List.mem_cons_of_mem _ hpos')) (seen ++ [(pos : ℤ)])
    refine ⟨t', ?_⟩
    rw [List.foldl_cons, hvisit, ht', List.map_cons, List.append_assoc, List.singleton_append]

theorem visitsEachOnce (body : LoopBody K V D) {it : IteratorMethods I K V D} {start : I}
    (hstart : it.toIterator start = Iterator.new) (t : StateTable K V D) :
    body.VisitsEachOnce it start t := by
  have hpos : (it.toIterator start).pos = (0 : ℕ) - 1 := by
    rw [hstart]
    rfl
  obtain ⟨i, hloop, -⟩ := loop_spec it Prod.fst body.visitAndRecord (s := (t, []))
    (fun _ b s => body.layout_visit b s.1) t.size_ hpos (Nat.le_add_left ..)
  obtain ⟨t', hseen⟩ := body.foldl_visitAt t.inUse (fun pos hmem => (mem_inUseFrom.mp hmem).2) []
  refine ⟨i, t', t.inUse, hloop.trans ?_, pairwise_inUseFrom t 0, fun _ => mem_inUse⟩
  exact congrArg (fun s => Except.ok (i, s)) hseen

end LoopBody

/-- **A pass visits every vertex once.** This holds for both iterators, whatever buckets are
in use. -/
theorem pass_visits_each_bucket_once (body : LoopBody K V D) (t : StateTable K V D) :
    body.VisitsEachOnce .iterator Iterator.new t ∧
      body.VisitsEachOnce .entirePass EntirePassIterator.new t :=
  ⟨body.visitsEachOnce rfl t, body.visitsEachOnce rfl t⟩

end MaiterStore.StateTable
