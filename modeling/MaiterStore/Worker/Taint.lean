/-
# The taint of a moved shard

A worker that is given a shard of another worker marks it as tainted, until it has received
updates from the old owner (`worker/worker.cc`). `HandlePutRequest` clears the mark with any
put request for the shard that has its `done` flag set, and `SendUpdates` sets this flag on
every message, whoever sends it.

So the mark can be lost to a third worker. It is kept as long as the put requests that a
worker reads for a shard it waits for come from the old owner, which sent them when it knew
that it had lost the shard.
-/

import Mathlib.Data.List.Basic
import MaiterStore.Worker.ShardAssignment

namespace MaiterStore

open CS.Run

/-- A put request under way to the worker `dst`. `sentAt` is the number of assignments that
its sender had handled when it sent the request. -/
structure PutRequest (τ : Type*) where
  dst : ℤ
  table : τ
  put : KVPairData ℤ
  sentAt : ℕ

/-- The workers, the assignments of the master with how many of them each worker has handled,
and the put requests under way. `awaiting` is kept for the record: the shards a worker has
marked as tainted and has had no put request for from the old owner, with this owner and the
number of the assignment. -/
structure Migration (τ K V D : Type*) where
  workers : ℤ → Worker τ K V D
  assignments : List (ShardAssignment τ)
  handled : ℤ → ℕ
  network : List (PutRequest τ)
  awaiting : ℤ → τ → ℕ → Option (ℤ × ℕ)

/-- The request has been sent by the old owner, which had handled the assignment. -/
def PutRequest.Answers {τ : Type*} (m : PutRequest τ) (old : ℤ × ℕ) : Prop :=
  m.put.source = old.1 ∧ old.2 ≤ m.sentAt

instance {τ : Type*} (m : PutRequest τ) : DecidablePred m.Answers := fun old =>
  inferInstanceAs (Decidable (m.put.source = old.1 ∧ old.2 ≤ m.sentAt))

/-- What a kernel does with one of the tables. -/
def Worker.accumulateF1 {τ K V D : Type*} [DecidableEq τ] [DecidableEq K] (a : τ) (k : K) (v : V)
    (w : Worker τ K V D) : Except (Fault K) (Worker τ K V D) :=
  let t := w.tables a
  (t.table.accumulateF1 t.info k v).map fun g => w.setTable a { t with table := g }

namespace Migration

variable {τ K V D : Type*} [DecidableEq τ] [DecidableEq K]

/-- A step of the master or of a worker. Any request under way may be the next one that is
read. -/
inductive Step (τ K V : Type*)
  | reassign (x : ShardAssignment τ)
  | handleShardAssignment (p : ℤ)
  | accumulateF1 (p : ℤ) (a : τ) (k : K) (v : V)
  | sendUpdates (p : ℤ) (a : τ)
  | handlePutRequest (n : ℕ)

/-- The workers at the start, with nothing under way. -/
def start (workers : ℤ → Worker τ K V D) : Migration τ K V D :=
  ⟨workers, [], fun _ => 0, [], fun _ _ _ => none⟩

/-- Worker `p` is `w` now, and what it has sent for table `a` is under way. -/
def collect (s : Migration τ K V D) (p : ℤ) (a : τ) (w : Worker τ K V D) : Migration τ K V D :=
  let t := w.tables a
  { s with
    workers := Function.update s.workers p
      (w.setTable a { t with table := { t.table with sent := [] } })
    network := s.network ++ t.table.sent.map fun msg => ⟨msg.1, a, msg.2, s.handled p⟩ }

def setAwaiting (s : Migration τ K V D) (p : ℤ) (a : τ) (i : ℕ) (old : Option (ℤ × ℕ)) :
    Migration τ K V D :=
  { s with awaiting := Function.update s.awaiting p (Function.update (s.awaiting p) a
      (Function.update (s.awaiting p a) i old)) }

/-- One step. A call that aborts its process is no step. -/
def step (s : Migration τ K V D) : Step τ K V → Migration τ K V D
  | .reassign x => { s with assignments := s.assignments ++ [x] }
  | .handleShardAssignment p =>
    match s.assignments[s.handled p]? with
    | none => s
    | some x =>
      let w := s.workers p
      let oldOwner := (w.tables x.table).info.owner x.shard
      let s' := { s with
        workers := Function.update s.workers p (w.assign x)
        handled := Function.update s.handled p (s.handled p + 1) }
      if x.newWorker = w.id ∧ oldOwner ≠ w.id ∧ oldOwner ≠ -1 then
        s'.setAwaiting p x.table x.shard (some (oldOwner, s.handled p + 1))
      else s'
  | .accumulateF1 p a k v =>
    match (s.workers p).accumulateF1 a k v with
    | .error _ => s
    | .ok w => s.collect p a w
  | .sendUpdates p a =>
    match Worker.sendUpdates a (s.workers p) with
    | .error _ => s
    | .ok w => s.collect p a w
  | .handlePutRequest n =>
    match s.network[n]? with
    | none => s
    | some m =>
      match (s.workers m.dst).handlePutRequest [(m.table, m.put)] with
      | .error _ => s
      | .ok w =>
        let s' := ({ s with network := s.network.eraseIdx n } : Migration τ K V D).collect m.dst
          m.table w
        match s.awaiting m.dst m.table m.put.shard with
        | none => s'
        | some old => if m.Answers old then s'.setAwaiting m.dst m.table m.put.shard none else s'

/-- A shard that a worker has marked stays tainted until the old owner's put request. -/
def TaintKept (s : Migration τ K V D) : Prop :=
  ∀ p a i, s.awaiting p a i ≠ none → ((s.workers p).tables a).tainted i = true

/-- A put request that is read for a shard the worker waits for is from the old owner, which
had lost the shard. -/
def ReadsFromOldOwner (s : Migration τ K V D) : Step τ K V → Prop
  | .handlePutRequest n => ∀ m, s.network[n]? = some m →
      ∀ old, s.awaiting m.dst m.table m.put.shard = some old → m.put.done = true → m.Answers old
  | _ => True

variable {s : Migration τ K V D} {p : ℤ} {a : τ} {w : Worker τ K V D}

omit [DecidableEq τ] [DecidableEq K] in
theorem taintKept_start (workers : ℤ → Worker τ K V D) : TaintKept (start workers) :=
  fun _ _ _ hawaiting => absurd rfl hawaiting

/-! ## What a worker does to its marks -/

/-- The marks of `w` are kept. -/
def Keeps (w w' : Worker τ K V D) : Prop :=
  ∀ b i, (w.tables b).tainted i = true → (w'.tables b).tainted i = true

omit [DecidableEq K] in
theorem keeps_setTable {t : TableView K V D}
    (ht : ∀ i, (w.tables a).tainted i = true → t.tainted i = true) : Keeps w (w.setTable a t) := by
  intro b i htainted
  rw [Worker.setTable]
  rcases eq_or_ne b a with rfl | hba
  · simp only [Function.update_self]
    exact ht i htainted
  · simp only [Function.update_of_ne hba]
    exact htainted

omit [DecidableEq K] in
/-- An assignment only adds marks. -/
theorem keeps_assign (w : Worker τ K V D) (x : ShardAssignment τ) : Keeps w (w.assign x) := by
  unfold Worker.assign
  dsimp only
  split_ifs with hgain hhad hlose
  · refine keeps_setTable fun i hi => ?_
    rcases eq_or_ne i x.shard with rfl | hne
    · exact Function.update_self ..
    · exact (Function.update_of_ne hne ..).trans hi
  · exact keeps_setTable fun _ hi => hi
  · exact keeps_setTable (w := w) fun _ hi => hi
  · exact keeps_setTable fun _ hi => hi

omit [DecidableEq K] in
theorem tainted_assign {x : ShardAssignment τ} (hnew : x.newWorker = w.id)
    (hold : (w.tables x.table).info.owner x.shard ≠ w.id)
    (hnone : (w.tables x.table).info.owner x.shard ≠ -1) :
    ((w.assign x).tables x.table).tainted x.shard = true := by
  simp only [Worker.assign]
  rw [if_pos ⟨hnew, hold⟩, if_pos hnone, Worker.setTable]
  simp only [Function.update_self]
  exact Function.update_self ..

theorem keeps_accumulateF1 {k : K} {v : V} {w' : Worker τ K V D}
    (hok : w.accumulateF1 a k v = .ok w') : Keeps w w' := by
  obtain ⟨g, -, rfl⟩ := map_eq_ok.mp hok
  exact keeps_setTable fun _ hi => hi

theorem keeps_sendUpdates {w' : Worker τ K V D} (hok : Worker.sendUpdates a w = .ok w') :
    Keeps w w' := by
  obtain ⟨g, -, rfl⟩ := map_eq_ok.mp hok
  exact keeps_setTable fun _ hi => hi

/-- A put request takes at most the mark of its shard away, and this only if it is done. -/
theorem tainted_handlePutRequest {put : KVPairData ℤ} {w' : Worker τ K V D} {b : τ} {i : ℕ}
    (hok : w.handlePutRequest [(a, put)] = .ok w') (htainted : (w.tables b).tainted i = true)
    (hkeep : b = a → i = put.shard → put.done = false) : (w'.tables b).tainted i = true := by
  obtain ⟨w₁, hround, hrest⟩ := bind_eq_ok.mp hok
  obtain rfl := Except.ok.inj hrest
  obtain ⟨g, -, rfl⟩ := map_eq_ok.mp hround
  rw [Worker.setTable]
  rcases eq_or_ne b a with rfl | hba
  · simp only [Function.update_self]
    split_ifs with hclear
    · have hne : i ≠ put.shard := by
        intro hi
        simp [hkeep rfl hi] at hclear
      exact (Function.update_of_ne hne ..).trans htainted
    · exact htainted
  · simp only [Function.update_of_ne hba]
    exact htainted

/-! ## What a step does to the marks -/

omit [DecidableEq τ] [DecidableEq K] in
/-- A step of worker `p` matters to the marks of this worker only. -/
theorem TaintKept.of_worker (hs : TaintKept s) {s' : Migration τ K V D} (p : ℤ)
    (hother : ∀ q ≠ p, s'.workers q = s.workers q ∧ s'.awaiting q = s.awaiting q)
    (hself : ∀ b i, s'.awaiting p b i ≠ none → ((s'.workers p).tables b).tainted i = true) :
    TaintKept s' := by
  intro q b i hawaiting
  rcases eq_or_ne q p with rfl | hqp
  · exact hself b i hawaiting
  · obtain ⟨hworker, hsame⟩ := hother q hqp
    rw [hsame] at hawaiting
    rw [hworker]
    exact hs q b i hawaiting

omit [DecidableEq K] in
theorem tainted_collect (s : Migration τ K V D) (p : ℤ) (a b : τ) (w : Worker τ K V D) :
    (((s.collect p a w).workers p).tables b).tainted = (w.tables b).tainted := by
  simp only [collect, Function.update_self, Worker.setTable]
  rcases eq_or_ne b a with rfl | hba
  · rw [Function.update_self]
  · rw [Function.update_of_ne hba]

omit [DecidableEq K] in
theorem workers_collect_of_ne (s : Migration τ K V D) (a : τ) (w : Worker τ K V D) {q : ℤ}
    (hqp : q ≠ p) : (s.collect p a w).workers q = s.workers q :=
  Function.update_of_ne hqp ..

omit [DecidableEq K] in
theorem awaiting_setAwaiting (s : Migration τ K V D) (p : ℤ) (a b : τ) (i j : ℕ)
    (old : Option (ℤ × ℕ)) :
    (s.setAwaiting p a i old).awaiting p b j = if b = a ∧ j = i then old else s.awaiting p b j := by
  simp only [setAwaiting, Function.update_self]
  rcases eq_or_ne b a with rfl | hba
  · rw [Function.update_self]
    rcases eq_or_ne j i with rfl | hji
    · rw [Function.update_self, if_pos ⟨rfl, rfl⟩]
    · rw [Function.update_of_ne hji, if_neg fun h => hji h.2]
  · rw [Function.update_of_ne hba, if_neg fun h => hba h.1]

omit [DecidableEq K] in
theorem awaiting_setAwaiting_of_ne (s : Migration τ K V D) (a : τ) (i : ℕ)
    (old : Option (ℤ × ℕ)) {q : ℤ} (hqp : q ≠ p) :
    (s.setAwaiting p a i old).awaiting q = s.awaiting q :=
  Function.update_of_ne hqp ..

omit [DecidableEq K] in
/-- The worker `w` has the marks that worker `p` waits with. -/
theorem TaintKept.collect (hs : TaintKept s) (a : τ)
    (hw : ∀ b i, s.awaiting p b i ≠ none → (w.tables b).tainted i = true) :
    TaintKept (s.collect p a w) := by
  refine hs.of_worker p (fun q hqp => ⟨workers_collect_of_ne s a w hqp, rfl⟩)
    fun b i hawaiting => ?_
  rw [tainted_collect]
  exact hw b i hawaiting

omit [DecidableEq τ] [DecidableEq K] in
theorem TaintKept.of_keeps (hs : TaintKept s) (hkeeps : Keeps (s.workers p) w) (b : τ) (i : ℕ)
    (hawaiting : s.awaiting p b i ≠ none) : (w.tables b).tainted i = true :=
  hkeeps b i (hs p b i hawaiting)

theorem TaintKept.handleShardAssignment (hs : TaintKept s) (p : ℤ) :
    TaintKept (s.step (.handleShardAssignment p)) := by
  simp only [step]
  cases hx : s.assignments[s.handled p]? with
  | none => exact hs
  | some x =>
    have hkeeps := keeps_assign (s.workers p) x
    simp only
    split_ifs with hgain
    · refine hs.of_worker p (fun q hqp => ⟨Function.update_of_ne hqp ..,
        awaiting_setAwaiting_of_ne _ _ _ _ hqp⟩) fun b i hawaiting => ?_
      rw [awaiting_setAwaiting] at hawaiting
      simp only [setAwaiting, Function.update_self]
      split_ifs at hawaiting with hshard
      · obtain ⟨rfl, rfl⟩ := hshard
        exact tainted_assign hgain.1 hgain.2.1 hgain.2.2
      · exact hs.of_keeps hkeeps b i hawaiting
    · refine hs.of_worker p (fun q hqp => ⟨Function.update_of_ne hqp .., rfl⟩)
        fun b i hawaiting => ?_
      simp only [Function.update_self]
      exact hs.of_keeps hkeeps b i hawaiting

theorem TaintKept.handlePutRequest (hs : TaintKept s) {n : ℕ}
    (hguard : s.ReadsFromOldOwner (.handlePutRequest n)) :
    TaintKept (s.step (.handlePutRequest n)) := by
  simp only [step]
  cases hm : s.network[n]? with
  | none => exact hs
  | some m =>
    simp only
    cases hok : (s.workers m.dst).handlePutRequest [(m.table, m.put)] with
    | error e => exact hs
    | ok w =>
      simp only
      have hkept : ∀ b i, s.awaiting m.dst b i ≠ none →
          (b = m.table → i = m.put.shard → m.put.done = false) →
          (w.tables b).tainted i = true := fun b i hawaiting hkeep =>
        tainted_handlePutRequest hok (hs m.dst b i hawaiting) hkeep
      have hnetwork : TaintKept { s with network := s.network.eraseIdx n } := hs
      cases hold : s.awaiting m.dst m.table m.put.shard with
      -- the worker does not wait for this shard
      | none =>
        refine hnetwork.collect m.table fun b i hawaiting => hkept b i hawaiting ?_
        rintro rfl rfl
        exact absurd hold hawaiting
      | some old =>
        simp only
        split_ifs with hanswers
        -- it has waited for this request
        · refine hs.of_worker m.dst (fun q hq => ⟨workers_collect_of_ne _ _ _ hq,
            awaiting_setAwaiting_of_ne _ _ _ _ hq⟩) fun b i hawaiting => ?_
          rw [awaiting_setAwaiting] at hawaiting
          split_ifs at hawaiting with hshard
          · exact absurd rfl hawaiting
          · change (((Migration.collect _ _ _ _).workers _).tables b).tainted i = true
            rw [tainted_collect]
            exact hkept b i hawaiting fun hb hi => absurd ⟨hb, hi⟩ hshard
        · have hdone : m.put.done = false := by
            by_contra hdone
            exact hanswers (hguard m hm old hold (by simpa using hdone))
          exact hnetwork.collect m.table fun b i hawaiting => hkept b i hawaiting fun _ _ => hdone

theorem TaintKept.step (s : Migration τ K V D) (act : Step τ K V) (hs : TaintKept s)
    (hguard : s.ReadsFromOldOwner act) : TaintKept (s.step act) := by
  cases act with
  | reassign x => exact hs
  | handleShardAssignment p => exact hs.handleShardAssignment p
  | accumulateF1 p a k v =>
    simp only [Migration.step]
    cases hok : (s.workers p).accumulateF1 a k v with
    | error e => exact hs
    | ok w => exact hs.collect a (hs.of_keeps (keeps_accumulateF1 hok))
  | sendUpdates p a =>
    simp only [Migration.step]
    cases hok : Worker.sendUpdates a (s.workers p) with
    | error e => exact hs
    | ok w => exact hs.collect a (hs.of_keeps (keeps_sendUpdates hok))
  | handlePutRequest n => exact hs.handlePutRequest hguard

/-- **A tainted shard waits for its old owner**, in every run in which the put requests that
are read for it come from this owner, sent when it had lost the shard. -/
theorem taint_kept (workers : ℤ → Worker τ K V D) (acts : List (Step τ K V))
    (hrun : Guarded step ReadsFromOldOwner (start workers) acts) :
    TaintKept (acts.foldl step (start workers)) :=
  hrun.invariant TaintKept.step (taintKept_start workers)

/-! ## Three workers -/

/-- A table of one shard with vertex 0 on three workers. Worker 1 owns the shard, and worker 2
has an update for it in its buffer. -/
def threeWorkers (p : ℤ) : Worker Unit ℕ ℕ Bytes where
  id := p
  tables _ :=
    ⟨⟨1, fun _ => 0, fun _ => Nat.one_pos, fun _ => 1, fun k => k, sumKernel fun _ => [],
      unaryMarshals, 10⟩,
      ⟨p, 0, fun _ => if p = 1 then .state ⟨[some ⟨0, 5, 7, [], 5⟩], 1, 0⟩
        else if p = 2 then .delta ⟨[some ⟨0, 3⟩], 1⟩ else .delta (.cleared 1),
        fun _ => false, 0, []⟩, fun _ => false⟩
  dirtyTables := []

/-- The shard is moved to worker 0 and back to worker 1. -/
def movedTwice : List (Step Unit ℕ ℕ) :=
  [.reassign ⟨(), 0, 0⟩, .reassign ⟨(), 0, 1⟩, .handleShardAssignment 0, .handleShardAssignment 0,
    .handleShardAssignment 1, .handleShardAssignment 1, .handleShardAssignment 2,
    .handleShardAssignment 2]

/-- Worker `p` sends its updates, and worker 1 reads them. -/
def updatesFrom (p : ℤ) : List (Step Unit ℕ ℕ) :=
  movedTwice ++ [.sendUpdates p (), .handlePutRequest 0]

/-- Worker 0, the old owner, has nothing for the shard and sends an empty request. -/
theorem taint_kept_moved_twice :
    TaintKept ((updatesFrom 0).foldl step (start threeWorkers)) := by
  refine taint_kept threeWorkers (updatesFrom 0)
    ⟨trivial, trivial, trivial, trivial, trivial, trivial, trivial, trivial, trivial, ?_, trivial⟩
  intro m hm old hold _
  obtain rfl : (⟨1, (), ⟨0, 0, 0, true, []⟩, 2⟩ : PutRequest Unit) = m := Option.some.inj hm
  obtain rfl : ((0 : ℤ), 2) = old := Option.some.inj hold
  exact ⟨rfl, le_rfl⟩

/-- With the update of worker 2, worker 1 takes itself for canonical, and has nothing from
worker 0. -/
theorem taint_cleared_by_third_worker :
    ∃ (workers : ℤ → Worker Unit ℕ ℕ Bytes) (acts : List (Step Unit ℕ ℕ)),
      ¬ TaintKept (acts.foldl step (start workers)) := by
  refine ⟨threeWorkers, updatesFrom 2, ?_⟩
  intro hkept
  have hawaiting : ((updatesFrom 2).foldl step (start threeWorkers)).awaiting 1 () 0 =
    some (0, 2) :=
    rfl
  have hclear :
      ((((updatesFrom 2).foldl step (start threeWorkers)).workers 1).tables ()).tainted 0 =
      false := rfl
  have htainted := hkept 1 () 0 (by rw [hawaiting]; nofun)
  rw [hclear] at htainted
  cases htainted

end Migration

end MaiterStore
