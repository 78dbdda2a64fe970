/-
# Deciding termination

Workers send a `TermcheckDelta` from time to time. `Master::termcheck` (`master/master.cc`)
reads what has arrived, worker after worker, and keeps the last report of each with a flag.
Only when every flag is set does it ask the user's term checker; after a negative answer it
clears the flags and drops what has arrived meanwhile. `Master::barrier` makes no further
check after a positive one.

Reports arrive at any time, also between two reads of one call, so a call is taken apart at
its reads. What the master has done is kept in a log; the reports behind a decision are then
found in the part of the log since the decision before it.
-/

import MaiterStore.CS.Run
import Mathlib.Algebra.Order.Group.Abs
import Mathlib.Algebra.Order.Group.Int
import Mathlib.Algebra.Ring.Int.Defs
import Mathlib.Data.Fintype.Basic
import Mathlib.Data.List.DropRight
import Mathlib.Data.List.OfFn
import Mathlib.Logic.Function.Basic

namespace MaiterStore

open CS.Run

/-- A `TermcheckDelta` message. -/
structure TermcheckDelta (R : Type*) where
  delta : R
  updates : ℤ
  deriving DecidableEq, Repr

/-- The user's term checker, with its members as a state. -/
structure TermChecker (C R : Type*) where
  terminate : C → List R → Bool × C

namespace Termcheck

/-- What the master keeps of a worker's reports. -/
structure WorkerState (R : Type*) where
  current : R
  updates : ℤ
  termchecking : Bool

/-- Where the master stands in `termcheck`. -/
inductive Phase
  /-- Outside of a call. -/
  | idle
  /-- In the loop that reads the reports, at a worker. -/
  | reading (i : ℕ)
  /-- In the loop that resets the workers, at a worker. -/
  | resetting (i : ℕ)
  deriving DecidableEq

/-- What the master does. -/
inductive Event (n : ℕ) (R : Type*)
  /-- A report is read and kept. -/
  | read (w : Fin n) (report : TermcheckDelta R)
  /-- A report is read and dropped by a reset. -/
  | dropped (w : Fin n) (report : TermcheckDelta R)
  /-- `terminate(partials)` is evaluated. -/
  | evaluated (partials : List R) (totalUpdates : ℤ) (bterm : Bool)
  /-- `termcheck` returns. -/
  | returned (result : Bool)
  deriving DecidableEq

/-- The master with the reports that have arrived and are not read. -/
structure State (n : ℕ) (C R : Type*) where
  queues : Fin n → List (TermcheckDelta R)
  workers : Fin n → WorkerState R
  checker : C
  phase : Phase
  terminated : Bool
  log : List (Event n R)

inductive Action (n : ℕ) (R : Type*)
  /-- A report arrives. -/
  | arrive (w : Fin n) (report : TermcheckDelta R)
  /-- The master goes on, or starts a call when it is outside of one. -/
  | master

section Step

variable {n : ℕ} {C R : Type*} (tc : TermChecker C R)

/-- The state after construction of the master. -/
def init (zero : R) (checker : C) : State n C R :=
  ⟨fun _ => [], fun _ => ⟨zero, 0, false⟩, checker, .idle, false, []⟩

/-- The number of workers with a report. -/
def receivedNum (s : State n C R) : ℕ :=
  ((List.finRange n).filter fun w => (s.workers w).termchecking).length

/-- The reports, in the order of the workers. -/
def partials (s : State n C R) : List R := List.ofFn fun w => (s.workers w).current

def totalUpdates (s : State n C R) : ℤ := (List.ofFn fun w => (s.workers w).updates).sum

/-- `termcheck` behind the loop that reads. -/
def conclude (s : State n C R) : State n C R :=
  if receivedNum s < n then { s with phase := .idle, log := s.log ++ [.returned false] }
  else
    let answer := tc.terminate s.checker (partials s)
    let event := .evaluated (partials s) (totalUpdates s) answer.1
    if answer.1 then
      -- `barrier` sets `terminated_`
      { s with
        checker := answer.2
        phase := .idle
        terminated := true
        log := s.log ++ [event, .returned true] }
    else { s with checker := answer.2, phase := .resetting 0, log := s.log ++ [event] }

/-- One `TryRead` of the loop that reads. -/
def readReport (w : Fin n) (s : State n C R) : State n C R :=
  match s.queues w with
  | [] => { s with phase := .reading (w + 1) }
  | report :: rest => { s with
      queues := Function.update s.queues w rest
      workers := Function.update s.workers w ⟨report.delta, report.updates, true⟩
      log := s.log ++ [.read w report] }

/-- One `TryRead` of the loop that resets. The flag is off from the first one on. -/
def dropReport (w : Fin n) (s : State n C R) : State n C R :=
  let workers := Function.update s.workers w { s.workers w with termchecking := false }
  match s.queues w with
  | [] => { s with workers := workers, phase := .resetting (w + 1) }
  | report :: rest => { s with
      queues := Function.update s.queues w rest
      workers := workers
      log := s.log ++ [.dropped w report] }

/-- The master goes on. -/
def advance (s : State n C R) : State n C R :=
  match s.phase with
  | .idle => if s.terminated then s else { s with phase := .reading 0 }
  | .reading i => if hi : i < n then readReport ⟨i, hi⟩ s else conclude tc s
  | .resetting i =>
    if hi : i < n then dropReport ⟨i, hi⟩ s
    else { s with phase := .idle, log := s.log ++ [.returned false] }

def step (s : State n C R) : Action n R → State n C R
  | .arrive w report =>
    { s with queues := Function.update s.queues w (s.queues w ++ [report]) }
  | .master => advance tc s

/-- The state after some actions. -/
def run (zero : R) (checker : C) (actions : List (Action n R)) : State n C R :=
  actions.foldl (step tc) (init zero checker)

end Step

/-- The members of `TermCheckers::Diff`. -/
structure Diff (R : Type*) where
  last : R
  curr : R

/-- `TermCheckers::Diff`: the sum of the reports has changed by the threshold at most. -/
def diff {R : Type*} [AddCommGroup R] [LinearOrder R] (threshold : R) : TermChecker (Diff R) R where
  terminate c localReports :=
    let curr := localReports.foldl (· + ·) 0
    if |curr - c.last| ≤ threshold then (true, { c with curr }) else (false, ⟨curr, curr⟩)

/-! ## The log -/

section Log

variable {n : ℕ} {R : Type*}

def Event.isEvaluated : Event n R → Bool
  | .evaluated .. => true
  | _ => false

/-- The events since the last evaluation, or since the start. -/
def sinceEvaluation (log : List (Event n R)) : List (Event n R) :=
  log.rtakeWhile fun e => !e.isEvaluated

/-- The last report of `w` that is read in these events is kept, and has the value `v`. -/
def LastReport (w : Fin n) (events : List (Event n R)) (v : R) : Prop :=
  ∃ before report after, events = before ++ .read w report :: after ∧ report.delta = v ∧
    ∀ report', .read w report' ∉ after ∧ .dropped w report' ∉ after

/-- One value for each worker, in their order, each from the last report of the worker, which
has been read since the last evaluation. -/
structure Fresh (log : List (Event n R)) (partials : List R) : Prop where
  length_eq : partials.length = n
  last : ∀ w : Fin n, ∃ v, partials[w.val]? = some v ∧ LastReport w (sinceEvaluation log) v

/-- Every evaluation in the log is of fresh reports. -/
def AllFresh (log : List (Event n R)) : Prop :=
  ∀ before partials updates bterm after,
    log = before ++ .evaluated partials updates bterm :: after → Fresh before partials

variable {log : List (Event n R)} {e : Event n R} {w : Fin n} {v : R}

theorem sinceEvaluation_concat (he : e.isEvaluated = false) :
    sinceEvaluation (log ++ [e]) = sinceEvaluation log ++ [e] :=
  List.rtakeWhile_concat_pos _ _ _ (by rw [he]; rfl)

theorem sinceEvaluation_concat_evaluated (he : e.isEvaluated = true) :
    sinceEvaluation (log ++ [e]) = [] :=
  List.rtakeWhile_concat_neg _ _ _ (by rw [he]; exact Bool.false_ne_true)

/-- What has been read since the last evaluation has been read behind every evaluation. -/
theorem sinceEvaluation_suffix (log : List (Event n R)) (he : e.isEvaluated = true)
    (log' : List (Event n R)) : sinceEvaluation (log ++ e :: log') <:+ log' := by
  induction log' using List.reverseRecOn with
  | nil =>
    rw [sinceEvaluation_concat_evaluated he]
  | append_singleton log' e' ih =>
    rw [← List.cons_append, ← List.append_assoc]
    cases he' : e'.isEvaluated with
    | true =>
      rw [sinceEvaluation_concat_evaluated he']
      exact List.nil_suffix
    | false =>
      rw [sinceEvaluation_concat he']
      obtain ⟨front, hfront⟩ := ih
      refine ⟨front, ?_⟩
      rw [← List.append_assoc, hfront]

theorem LastReport.of_suffix {events events' : List (Event n R)} (hlast : LastReport w events v)
    (hsuffix : events <:+ events') : LastReport w events' v := by
  obtain ⟨before, report, after, rfl, hv, hafter⟩ := hlast
  obtain ⟨front, rfl⟩ := hsuffix
  exact ⟨front ++ before, report, after, (List.append_assoc ..).symm, hv, hafter⟩

theorem LastReport.concat {events : List (Event n R)} (hlast : LastReport w events v)
    (he : ∀ report, e ≠ .read w report ∧ e ≠ .dropped w report) :
    LastReport w (events ++ [e]) v := by
  obtain ⟨before, report, after, rfl, hv, hafter⟩ := hlast
  refine ⟨before, report, after ++ [e], by simp, hv, fun report' => ⟨?_, ?_⟩⟩
  · intro hmem
    rcases List.mem_append.mp hmem with hold | hnew
    · exact (hafter report').1 hold
    · exact (he report').1 (List.mem_singleton.mp hnew).symm
  · intro hmem
    rcases List.mem_append.mp hmem with hold | hnew
    · exact (hafter report').2 hold
    · exact (he report').2 (List.mem_singleton.mp hnew).symm

theorem lastReport_concat_read (events : List (Event n R)) (w : Fin n)
    (report : TermcheckDelta R) : LastReport w (events ++ [.read w report]) report.delta :=
  ⟨events, report, [], rfl, rfl, fun _ => ⟨List.not_mem_nil, List.not_mem_nil⟩⟩

theorem LastReport.exists_mem {events : List (Event n R)} (hlast : LastReport w events v) :
    ∃ report, .read w report ∈ events := by
  obtain ⟨before, report, after, rfl, -⟩ := hlast
  exact ⟨report, List.mem_append_right _ List.mem_cons_self⟩

theorem allFresh_concat (hlog : AllFresh log) (he : e.isEvaluated = false) :
    AllFresh (log ++ [e]) := by
  intro before partials updates bterm after heq
  induction after using List.reverseRecOn with
  | nil =>
    obtain ⟨-, hlast⟩ := List.append_inj' heq rfl
    rw [List.singleton_inj.mp hlast] at he
    cases he
  | append_singleton after e' _ =>
    rw [← List.cons_append, ← List.append_assoc] at heq
    exact hlog before partials updates bterm after (List.append_inj' heq rfl).1

theorem allFresh_concat_evaluated (hlog : AllFresh log) {values : List R}
    (hfresh : Fresh log values) (total : ℤ) (answer : Bool) :
    AllFresh (log ++ [.evaluated values total answer]) := by
  intro before partials updates bterm after heq
  induction after using List.reverseRecOn with
  | nil =>
    obtain ⟨rfl, hlast⟩ := List.append_inj' heq rfl
    obtain ⟨rfl, -⟩ := Event.evaluated.inj (List.singleton_inj.mp hlast)
    exact hfresh
  | append_singleton after e' _ =>
    rw [← List.cons_append, ← List.append_assoc] at heq
    exact hlog before partials updates bterm after (List.append_inj' heq rfl).1

end Log

/-! ## The flags and the log -/

section Invariant

variable {n : ℕ} {C R : Type*} {tc : TermChecker C R} {s : State n C R}

/-- The master is not done, and not in the middle of a reset. -/
structure Collecting (s : State n C R) : Prop where
  not_terminated : s.terminated = false
  not_resetting : ∀ i, s.phase ≠ .resetting i

/-- While the master collects, a flag says that the worker's report has been read since the
last evaluation. -/
structure Valid (s : State n C R) : Prop where
  fresh : AllFresh s.log
  stopped : s.terminated = true → s.phase = .idle
  kept : Collecting s → ∀ w, (s.workers w).termchecking = true →
    LastReport w (sinceEvaluation s.log) (s.workers w).current
  flagged : Collecting s → ∀ w report, .read w report ∈ sinceEvaluation s.log →
    (s.workers w).termchecking = true
  reset : ∀ i, s.phase = .resetting i →
    (∀ w : Fin n, w.val < i → (s.workers w).termchecking = false) ∧
    ∀ w report, .read w report ∉ sinceEvaluation s.log

theorem valid_init (zero : R) (checker : C) : Valid (init zero checker : State n C R) where
  fresh := by
    intro before partials updates bterm after heq
    exact absurd heq.symm (List.append_ne_nil_of_right_ne_nil _ (List.cons_ne_nil _ _))
  stopped := nofun
  kept _ _ := nofun
  flagged _ _ _ hmem := by cases hmem
  reset _ := nofun

theorem Valid.terminated_eq (hs : Valid s) (hphase : s.phase ≠ .idle) : s.terminated = false := by
  cases hterm : s.terminated with
  | false => rfl
  | true => exact absurd (hs.stopped hterm) hphase

theorem Valid.collecting (hs : Valid s) {i : ℕ} (hphase : s.phase = .reading i) : Collecting s where
  not_terminated := hs.terminated_eq (by rw [hphase]; nofun)
  not_resetting j := by rw [hphase]; nofun

/-- Going on in the loops over the workers without a report. -/
theorem Valid.setReading (hs : Valid s) (hc : Collecting s) (i : ℕ) :
    Valid { s with phase := .reading i } where
  fresh := hs.fresh
  stopped hterm := by
    have hfalse := hc.not_terminated
    rw [show s.terminated = true from hterm] at hfalse
    cases hfalse
  kept _ := hs.kept hc
  flagged _ := hs.flagged hc
  reset _ := nofun

theorem valid_readReport (hs : Valid s) {w : Fin n} (hphase : s.phase = .reading w) :
    Valid (readReport w s) := by
  have hc := hs.collecting hphase
  rw [readReport]
  split
  · exact hs.setReading hc _
  · next report rest hqueue =>
    -- the report joins those read since the last evaluation, and sets the flag of its worker
    have hsince : sinceEvaluation (s.log ++ [.read w report]) =
        sinceEvaluation s.log ++ [.read w report] := sinceEvaluation_concat rfl
    refine ⟨allFresh_concat hs.fresh rfl, hs.stopped, fun _ w' hflag => ?_,
      fun _ w' report' hmem => ?_, fun i hi => absurd hi (hc.not_resetting i)⟩
    · change LastReport w' (sinceEvaluation (s.log ++ [.read w report])) _
      rw [hsince]
      by_cases hw : w' = w
      · subst hw
        simp only [Function.update_self]
        exact lastReport_concat_read _ w' report
      · simp only [Function.update_of_ne hw] at hflag ⊢
        refine (hs.kept hc w' hflag).concat fun report' => ⟨?_, nofun⟩
        intro heq
        exact hw (Event.read.inj heq).1.symm
    · change .read w' report' ∈ sinceEvaluation (s.log ++ [.read w report]) at hmem
      rw [hsince] at hmem
      by_cases hw : w' = w
      · subst hw
        simp only [Function.update_self]
      · simp only [Function.update_of_ne hw]
        rcases List.mem_append.mp hmem with hold | hnew
        · exact hs.flagged hc w' report' hold
        · exact absurd (Event.read.inj (List.mem_singleton.mp hnew)).1 hw

/-- All flags are set when no report is missing. -/
theorem termchecking_of_receivedNum (hnum : ¬ receivedNum s < n) (w : Fin n) :
    (s.workers w).termchecking = true := by
  have hlength : ((List.finRange n).filter fun w => (s.workers w).termchecking).length =
      (List.finRange n).length := by
    apply le_antisymm (List.length_filter_le _ _)
    rw [List.length_finRange]
    exact Nat.le_of_not_lt hnum
  have hall := List.length_filter_eq_length_iff.mp hlength
  exact hall w (List.mem_finRange w)

/-- When the term checker is asked, it gets fresh reports. -/
theorem fresh_partials (hs : Valid s) (hc : Collecting s) (hnum : ¬ receivedNum s < n) :
    Fresh s.log (partials s) where
  length_eq := List.length_ofFn
  last w := by
    refine ⟨(s.workers w).current, ?_, hs.kept hc w (termchecking_of_receivedNum hnum w)⟩
    rw [partials, List.getElem?_ofFn, dif_pos w.isLt]

/-- `termcheck` returns without a decision. -/
theorem valid_ignore (hs : Valid s) (hc : Collecting s) :
    Valid { s with phase := .idle, log := s.log ++ [.returned false] } := by
  have hsince : sinceEvaluation (s.log ++ [.returned false]) =
      sinceEvaluation s.log ++ [.returned false] := sinceEvaluation_concat rfl
  refine ⟨allFresh_concat hs.fresh rfl, fun _ => rfl, fun _ w hflag => ?_,
    fun _ w report hmem => ?_, fun _ => nofun⟩
  · change LastReport w (sinceEvaluation (s.log ++ [.returned false])) _
    rw [hsince]
    exact (hs.kept hc w hflag).concat fun _ => ⟨nofun, nofun⟩
  · change .read w report ∈ sinceEvaluation (s.log ++ [.returned false]) at hmem
    rw [hsince] at hmem
    rcases List.mem_append.mp hmem with hold | hnew
    · exact hs.flagged hc w report hold
    · cases List.mem_singleton.mp hnew

theorem valid_conclude (hs : Valid s) {i : ℕ} (hphase : s.phase = .reading i) :
    Valid (conclude tc s) := by
  have hc := hs.collecting hphase
  rw [conclude]
  by_cases hnum : receivedNum s < n
  · rw [if_pos hnum]
    exact valid_ignore hs hc
  rw [if_neg hnum]
  have hfresh := allFresh_concat_evaluated hs.fresh (fresh_partials hs hc hnum) (totalUpdates s)
  cases hanswer : (tc.terminate s.checker (partials s)).1 with
  | true =>
    simp only [hanswer, if_true]
    refine ⟨?_, fun _ => rfl, fun hc' => ?_, fun hc' => ?_, fun _ => nofun⟩
    · rw [show s.log ++ [.evaluated (partials s) (totalUpdates s) true, .returned true] =
        s.log ++ [.evaluated (partials s) (totalUpdates s) true] ++ [.returned true] by simp]
      exact allFresh_concat (hfresh true) rfl
    -- after a positive answer nothing is collected any more
    · cases hc'.not_terminated
    · cases hc'.not_terminated
  | false =>
    simp only [hanswer, Bool.false_eq_true, if_false]
    have hnone : sinceEvaluation
        (s.log ++ [.evaluated (partials s) (totalUpdates s) false]) = [] :=
      sinceEvaluation_concat_evaluated rfl
    refine ⟨hfresh false, fun hterm => ?_, fun hc' => absurd rfl (hc'.not_resetting 0),
      fun hc' => absurd rfl (hc'.not_resetting 0), fun i hi => ⟨?_, ?_⟩⟩
    · have hfalse := hc.not_terminated
      rw [show s.terminated = true from hterm] at hfalse
      cases hfalse
    · obtain rfl : 0 = i := Phase.resetting.inj hi
      intro w hw
      exact absurd hw (Nat.not_lt_zero _)
    · intro w report hmem
      change .read w report ∈ sinceEvaluation
        (s.log ++ [.evaluated (partials s) (totalUpdates s) false]) at hmem
      rw [hnone] at hmem
      cases hmem

theorem valid_dropReport (hs : Valid s) {w : Fin n} (hphase : s.phase = .resetting w) :
    Valid (dropReport w s) := by
  obtain ⟨hcleared, hnone⟩ := hs.reset w hphase
  have hterm : s.terminated = true → False := by
    intro hterm
    have hidle := hs.stopped hterm
    rw [hphase] at hidle
    cases hidle
  -- the flags are cleared in the order of the workers
  have hflags : ∀ w' : Fin n, w'.val < w.val + 1 →
      (Function.update s.workers w { s.workers w with termchecking := false } w').termchecking =
        false := by
    intro w' hw'
    by_cases hw : w' = w
    · rw [hw, Function.update_self]
    · rw [Function.update_of_ne hw]
      have hne : w'.val ≠ w.val := fun heq => hw (Fin.ext heq)
      exact hcleared w' (by omega)
  rw [dropReport]
  split
  · refine ⟨hs.fresh, fun h => (hterm h).elim, fun hc => absurd rfl (hc.not_resetting _),
      fun hc => absurd rfl (hc.not_resetting _), fun i hi => ⟨?_, hnone⟩⟩
    obtain rfl : w.val + 1 = i := Phase.resetting.inj hi
    exact hflags
  · next report rest hqueue =>
    refine ⟨allFresh_concat hs.fresh rfl, fun h => (hterm h).elim,
      fun hc => absurd hphase (hc.not_resetting _), fun hc => absurd hphase (hc.not_resetting _),
      fun i hi => ⟨?_, fun w' report' hmem => ?_⟩⟩
    · obtain rfl : w.val = i := Phase.resetting.inj (hphase.symm.trans hi)
      intro w' hw'
      exact hflags w' (by omega)
    · change .read w' report' ∈ sinceEvaluation (s.log ++ [.dropped w report]) at hmem
      rw [sinceEvaluation_concat rfl] at hmem
      rcases List.mem_append.mp hmem with hold | hnew
      · exact hnone w' report' hold
      · cases List.mem_singleton.mp hnew

theorem valid_advance (hs : Valid s) : Valid (advance tc s) := by
  rw [advance]
  split
  · next hphase =>
    split_ifs with hterm
    · exact hs
    · exact hs.setReading ⟨Bool.eq_false_iff.mpr hterm, fun i => by rw [hphase]; nofun⟩ 0
  · next i hphase =>
    split_ifs with hi
    · exact valid_readReport hs hphase
    · exact valid_conclude hs hphase
  · next i hphase =>
    split_ifs with hi
    · exact valid_dropReport hs hphase
    · obtain ⟨hcleared, hnone⟩ := hs.reset i hphase
      have hfalse : ∀ w : Fin n, (s.workers w).termchecking = false :=
        fun w => hcleared w (by omega)
      refine ⟨allFresh_concat hs.fresh rfl, fun _ => rfl, fun _ w hflag => ?_,
        fun _ w report hmem => ?_, fun _ => nofun⟩
      · exact absurd ((hfalse w).symm.trans hflag) Bool.false_ne_true
      · change .read w report ∈ sinceEvaluation (s.log ++ [.returned false]) at hmem
        rw [sinceEvaluation_concat rfl] at hmem
        rcases List.mem_append.mp hmem with hold | hnew
        · exact absurd hold (hnone w report)
        · cases List.mem_singleton.mp hnew

theorem valid_step (hs : Valid s) (a : Action n R) : Valid (step tc s a) := by
  cases a with
  | arrive w report => exact ⟨hs.fresh, hs.stopped, fun hc => hs.kept ⟨hc.1, hc.2⟩,
      fun hc => hs.flagged ⟨hc.1, hc.2⟩, hs.reset⟩
  | master => exact valid_advance hs

/-- A worker without a report since the last evaluation is noticed. -/
theorem receivedNum_lt (hs : Valid s) (hc : Collecting s) {w : Fin n}
    (hsilent : ∀ report, .read w report ∉ sinceEvaluation s.log) : receivedNum s < n := by
  by_contra hnum
  obtain ⟨v, -, hlast⟩ := (fresh_partials hs hc hnum).last w
  obtain ⟨report, hmem⟩ := hlast.exists_mem
  exact hsilent report hmem

/-- **Termination is decided on fresh reports.** Whatever arrives between and during the
calls of `termcheck`, in every state reached:
every evaluation got one value for each worker, from the last report read of that worker,
which was read since the evaluation before; of two evaluations the later one used reports
read between the two; and if the reports have been read but one worker has none since the
last evaluation, `termcheck` returns false and changes nothing else. -/
theorem termcheck_on_fresh_reports (tc : TermChecker C R) (zero : R) (checker : C)
    (actions : List (Action n R)) :
    let s := run tc zero checker actions
    (∀ before partials updates bterm after,
      s.log = before ++ .evaluated partials updates bterm :: after → Fresh before partials) ∧
    (∀ before partials updates bterm between partials' updates' bterm' after,
      s.log = before ++ .evaluated partials updates bterm ::
        (between ++ .evaluated partials' updates' bterm' :: after) →
      ∀ w : Fin n, ∃ v, partials'[w.val]? = some v ∧ LastReport w between v) ∧
    (∀ i, s.phase = .reading i → n ≤ i →
      ∀ w, (∀ report, .read w report ∉ sinceEvaluation s.log) → advance tc s =
        { s with phase := .idle, log := s.log ++ [.returned false] }) := by
  intro s
  have hvalid : Valid s :=
    foldl_invariant (I := Valid) (fun s a hs => valid_step hs a) actions (valid_init zero checker)
  refine ⟨hvalid.fresh, ?_, ?_⟩
  · intro before partials updates bterm between partials' updates' bterm' after hlog w
    rw [← List.cons_append, ← List.append_assoc] at hlog
    obtain ⟨v, hv, hlast⟩ := (hvalid.fresh _ _ _ _ _ hlog).last w
    exact ⟨v, hv, hlast.of_suffix (sinceEvaluation_suffix before rfl between)⟩
  · intro i hphase hi w hsilent
    have hnum := receivedNum_lt hvalid (hvalid.collecting hphase) hsilent
    simp only [advance, hphase, hi.not_gt, dite_false, conclude, if_pos hnum]

/-- Worker `1` is silent in the first call. In the second one both reports are there, and the
later of the two of worker `0` counts. -/
example : (run (diff (1 : ℤ)) 0 ⟨-100, 0⟩
    ([.arrive 0 ⟨5, 1⟩, .master, .master, .master, .master, .master, .arrive 0 ⟨6, 2⟩,
      .arrive 1 ⟨3, 1⟩] ++ List.replicate 6 .master)).log =
    [.read (n := 2) 0 ⟨5, 1⟩, .returned false, .read 0 ⟨6, 2⟩, .read 1 ⟨3, 1⟩,
      .evaluated [6, 3] 3 false] := by
  decide

end Invariant

end Termcheck

end MaiterStore
