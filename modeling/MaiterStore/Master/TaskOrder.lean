/-
# The order of the pending tasks

`get_next` and `steal_work` (`master/master.cc`) take the largest of the pending tasks of a
worker by `std::max_element` with `WeightCompare`. Stolen tasks are meant to come below all
others, and within each group the size decides. `WeightCompare` asks whether the first task is
stolen and the second is not, but not whether it is the other way: then it compares the sizes,
and a stolen task that is larger than one that is not stolen is both below and above it.

So `WeightCompare` is an order, the intended one, on tasks of which no stolen one is larger
than one that is not stolen. What `max_element` returns, in whatever order the tasks come, is
right already if the stolen tasks are not larger than the largest one that is not stolen.
-/

import Mathlib.Data.Prod.Lex
import Mathlib.Order.RelClasses
import Mathlib.Data.List.MinMax
import MaiterStore.Master.Ownership

namespace MaiterStore.Scheduler

variable {m : ℕ} {a b : TaskState m} {tasks : List (TaskState m)}

/-! ## The intended order -/

namespace TaskState

/-- Tasks that are not stolen rank above those that are, and then the size decides. -/
def rank (t : TaskState m) : Bool ×ₗ ℤ := toLex (!t.stolen, t.size)

theorem rank_lt_iff : a.rank < b.rank ↔
    a.stolen = true ∧ b.stolen = false ∨ a.stolen = b.stolen ∧ a.size < b.size := by
  rw [rank, rank, Prod.Lex.toLex_lt_toLex]
  cases a.stolen <;> cases b.stolen <;> simp

theorem weightCompare_iff : a.weightCompare b = true ↔
    a.stolen = true ∧ b.stolen = false ∨ a.size < b.size := by
  simp [weightCompare]

/-- The two orders differ where a stolen task is larger than one that is not stolen. -/
theorem weightCompare_iff_rank_lt (h : b.stolen = true → a.stolen = false → b.size ≤ a.size) :
    a.weightCompare b = true ↔ a.rank < b.rank := by
  rw [weightCompare_iff, rank_lt_iff]
  cases ha : a.stolen <;> cases hb : b.stolen <;> simp
  exact h hb ha

end TaskState

/-- No stolen task is larger than a task that is not stolen. -/
def NoLargerStolen (tasks : List (TaskState m)) : Prop :=
  ∀ s ∈ tasks, ∀ u ∈ tasks, s.stolen = true → u.stolen = false → s.size ≤ u.size

/-- A task to take from `tasks`: not stolen if there is such a task, and the largest of these. -/
def IsBest (tasks : List (TaskState m)) (best : TaskState m) : Prop :=
  (∃ u ∈ tasks, u.stolen = false) →
    best.stolen = false ∧ ∀ u ∈ tasks, u.stolen = false → u.size ≤ best.size

/-- `max_element` returns such a task, in whatever order the tasks come. -/
def SelectsBest (tasks : List (TaskState m)) : Prop :=
  ∀ l, l.Perm tasks → ∀ best, maxElement TaskState.weightCompare l = some best → IsBest tasks best

/-- What is expected of `WeightCompare` on the pending tasks of a worker, and of the functions
that use it. -/
structure FollowsOneOrder (tasks : List (TaskState m)) : Prop where
  strict_weak : IsStrictWeakOrder {t // t ∈ tasks} fun a b => a.1.weightCompare b.1 = true
  stolen_below : ∀ s ∈ tasks, ∀ u ∈ tasks, s.stolen = true → u.stolen = false →
    s.weightCompare u = true ∧ u.weightCompare s = false
  by_size : ∀ a ∈ tasks, ∀ b ∈ tasks, a.stolen = b.stolen →
    (a.weightCompare b = true ↔ a.size < b.size)
  selects : SelectsBest tasks
  get_next : ∀ (table : Fin m) (w : WorkerState m), w.pending.Perm tasks →
    ∀ r, w.getNext table = some r → ∃ best ∈ w.pending,
      r = (⟨table, best.id.shard⟩, w.setStatus best.id .active) ∧ IsBest tasks best
  -- `worth` leaves no other reason to refuse
  steal_work : ∀ {n : ℕ} (cfg : Config n m) (dst src : Fin n) (ws : Fin n → WorkerState m),
    cfg.alive dst = true →
    maxElement (fun a b => (ws a).numPending < (ws b).numPending) (List.finRange n) = some src →
    (ws src).pending.Perm tasks → tasks ≠ [] → stealWork cfg true dst ws = .ok (ws, false) →
    ∀ t ∈ tasks, t.stolen = true

/-! ## What `max_element` returns -/

section Selection

/-- A task that is not stolen and as large as any that is not stolen. -/
def IsTop (tasks : List (TaskState m)) (t : TaskState m) : Prop :=
  t.stolen = false ∧ ∀ u ∈ tasks, u.stolen = false → u.size ≤ t.size

/-- The stolen tasks are not larger than the largest task that is not stolen. -/
def TopLargest (tasks : List (TaskState m)) : Prop :=
  ∀ s ∈ tasks, s.stolen = true → (∃ u ∈ tasks, u.stolen = false) →
    ∃ u ∈ tasks, u.stolen = false ∧ s.size ≤ u.size

theorem exists_isTop (h : ∃ u ∈ tasks, u.stolen = false) : ∃ t ∈ tasks, IsTop tasks t := by
  have hmem : ∀ {u : TaskState m}, u ∈ tasks.filter (fun t => !t.stolen) ↔
      u ∈ tasks ∧ u.stolen = false := by
    intro u
    rw [List.mem_filter, Bool.not_eq_true']
  cases hmax : (tasks.filter fun t => !t.stolen).argmax TaskState.size with
  | none =>
    obtain ⟨u, hu⟩ := h
    have hnil := List.argmax_eq_none.mp hmax
    have hu' := hmem.mpr hu
    rw [hnil] at hu'
    cases hu'
  | some t =>
    obtain ⟨ht, hstolen⟩ := hmem.mp (List.argmax_mem hmax)
    exact ⟨t, ht, hstolen, fun u hu hu' => List.le_of_mem_argmax (hmem.mpr ⟨hu, hu'⟩) hmax⟩

/-- One step of `max_element`. -/
def larger (best b : TaskState m) : TaskState m := if best.weightCompare b then b else best

theorem larger_mem_pair (best b : TaskState m) : larger best b = best ∨ larger best b = b := by
  rw [larger]
  split_ifs
  · exact .inr rfl
  · exact .inl rfl

/-- A top task is kept, -/
theorem IsTop.larger_left (htop : TopLargest tasks) {best : TaskState m} (hbest : IsTop tasks best)
    (hmem : best ∈ tasks) (hb : b ∈ tasks) : IsTop tasks (larger best b) := by
  have hle : b.size ≤ best.size := by
    cases hstolen : b.stolen with
    | false => exact hbest.2 b hb hstolen
    | true =>
      obtain ⟨u, hu, hu', hle⟩ := htop b hb hstolen ⟨best, hmem, hbest.1⟩
      exact hle.trans (hbest.2 u hu hu')
  have hkeep : ¬ best.weightCompare b = true := by
    rw [TaskState.weightCompare_iff, hbest.1]
    rintro (⟨hfalse, -⟩ | hlt)
    · cases hfalse
    · exact absurd hlt hle.not_gt
  rw [larger, if_neg hkeep]
  exact hbest

/-- and is taken, or one of the same size is kept. -/
theorem IsTop.larger_right (hb : IsTop tasks b) (best : TaskState m) :
    IsTop tasks (larger best b) := by
  rw [larger]
  split_ifs with htake
  · exact hb
  · rw [TaskState.weightCompare_iff, hb.1] at htake
    push Not at htake
    have hstolen : best.stolen = false := by
      cases hstolen : best.stolen with
      | false => rfl
      | true => exact absurd rfl (htake.1 hstolen)
    exact ⟨hstolen, fun u hu hu' => (hb.2 u hu hu').trans htake.2⟩

theorem isTop_foldl (htop : TopLargest tasks) {l : List (TaskState m)} (hl : ∀ t ∈ l, t ∈ tasks)
    {best : TaskState m} (hmem : best ∈ tasks) (hex : IsTop tasks best ∨ ∃ b ∈ l, IsTop tasks b) :
    IsTop tasks (l.foldl larger best) := by
  induction l generalizing best with
  | nil =>
    rcases hex with hbest | ⟨b, hb, -⟩
    · exact hbest
    · cases hb
  | cons c l ih =>
    have hc := hl c List.mem_cons_self
    have hmem' : larger best c ∈ tasks := by
      rcases larger_mem_pair best c with heq | heq
      · rwa [heq]
      · rwa [heq]
    rw [List.foldl_cons]
    apply ih (fun t ht => hl t (List.mem_cons_of_mem _ ht)) hmem'
    rcases hex with hbest | ⟨b, hb, hbtop⟩
    · exact .inl (hbest.larger_left htop hmem hc)
    · rcases List.mem_cons.mp hb with rfl | hb
      · exact .inl (hbtop.larger_right best)
      · exact .inr ⟨b, hb, hbtop⟩

theorem maxElement_cons (a : TaskState m) (l : List (TaskState m)) :
    maxElement TaskState.weightCompare (a :: l) = some (l.foldl larger a) := rfl

/-- The largest task comes out in any order if no stolen task is larger. -/
theorem TopLargest.selectsBest (htop : TopLargest tasks) : SelectsBest tasks := by
  intro l hperm best hbest hex
  have hmem : ∀ t ∈ l, t ∈ tasks := fun t ht => hperm.mem_iff.mp ht
  obtain ⟨t, ht, htop'⟩ := exists_isTop hex
  cases l with
  | nil => cases hbest
  | cons a l =>
    rw [maxElement_cons, Option.some.injEq] at hbest
    rw [← hbest]
    apply isTop_foldl htop (fun t ht => hmem t (List.mem_cons_of_mem _ ht))
      (hmem a List.mem_cons_self)
    rcases List.mem_cons.mp (hperm.mem_iff.mpr ht) with rfl | hl
    · exact .inl htop'
    · exact .inr ⟨t, hl, htop'⟩

/-- Otherwise a stolen task comes out if it comes last. -/
theorem SelectsBest.topLargest (h : SelectsBest tasks) : TopLargest tasks := by
  intro s hs hstolen hex
  by_contra hnone
  push Not at hnone
  -- the order in which `s` is the last task that is compared
  have hperm : (tasks.erase s ++ [s]).Perm tasks :=
    (List.perm_append_singleton s _).trans (List.perm_cons_erase hs).symm
  obtain ⟨u, hu, hu'⟩ := hex
  have hu'' : u ∈ tasks.erase s := by
    refine (List.mem_erase_of_ne ?_).mpr hu
    rintro rfl
    rw [hstolen] at hu'
    cases hu'
  cases hrest : tasks.erase s with
  | nil =>
    rw [hrest] at hu''
    cases hu''
  | cons a rest =>
    have hbest : maxElement TaskState.weightCompare (tasks.erase s ++ [s]) =
        some (larger (rest.foldl larger a) s) := by
      rw [hrest, List.cons_append, maxElement_cons, List.foldl_append]
      rfl
    have hresult := (h _ hperm _ hbest ⟨u, hu, hu'⟩).1
    have hbefore : rest.foldl larger a ∈ tasks := by
      have hmem : rest.foldl larger a ∈ a :: rest := maxElement_mem (maxElement_cons a rest)
      rw [← hrest] at hmem
      exact List.mem_of_mem_erase hmem
    rw [larger] at hresult
    split_ifs at hresult with htake
    · rw [hstolen] at hresult
      cases hresult
    · -- the task before is not stolen, so the larger stolen one is taken
      exact htake (TaskState.weightCompare_iff.mpr (.inr (hnone _ hbefore hresult)))

theorem selectsBest_iff : SelectsBest tasks ↔ TopLargest tasks :=
  ⟨SelectsBest.topLargest, TopLargest.selectsBest⟩

end Selection

/-! ## The functions of the master -/

theorem SelectsBest.getNext (h : SelectsBest tasks) (table : Fin m) {w : WorkerState m}
    (hperm : w.pending.Perm tasks) {r : Taskid m × WorkerState m}
    (hnext : w.getNext table = some r) :
    ∃ best ∈ w.pending, r = (⟨table, best.id.shard⟩, w.setStatus best.id .active) ∧
      IsBest tasks best := by
  rw [WorkerState.getNext, Option.map_eq_some_iff] at hnext
  obtain ⟨best, hbest, rfl⟩ := hnext
  exact ⟨best, maxElement_mem hbest, rfl, h _ hperm best hbest⟩

/-- `steal_work` refuses with a stolen task in hand. -/
theorem stolen_of_stealWork {n : ℕ} {cfg : Config n m} {dst src : Fin n}
    {ws : Fin n → WorkerState m}
    (halive : cfg.alive dst = true)
    (hsrc :
      maxElement (fun a b => (ws a).numPending < (ws b).numPending) (List.finRange n) = some src)
    {task : TaskState m} (htask : maxElement TaskState.weightCompare (ws src).pending = some task)
    (hrefused : stealWork cfg true dst ws = .ok (ws, false)) : task.stolen = true := by
  by_contra hstolen
  rw [Bool.not_eq_true] at hstolen
  rw [stealWork, halive, hsrc] at hrefused
  simp only [Bool.not_true, Bool.false_eq_true, if_false, htask, hstolen, Bool.or_false,
    CS.Run.map_eq_ok, Prod.mk.injEq] at hrefused
  obtain ⟨ws', -, -, htrue⟩ := hrefused
  cases htrue

theorem SelectsBest.stealWork (h : SelectsBest tasks) {n : ℕ} {cfg : Config n m} {dst src : Fin n}
    {ws : Fin n → WorkerState m} (halive : cfg.alive dst = true)
    (hsrc :
      maxElement (fun a b => (ws a).numPending < (ws b).numPending) (List.finRange n) = some src)
    (hperm : (ws src).pending.Perm tasks) (hne : tasks ≠ [])
    (hrefused : Scheduler.stealWork cfg true dst ws = .ok (ws, false)) :
    ∀ t ∈ tasks, t.stolen = true := by
  cases htask : maxElement TaskState.weightCompare (ws src).pending with
  | none =>
    rw [maxElement_eq_none] at htask
    rw [htask] at hperm
    exact absurd hperm.symm.eq_nil hne
  | some task =>
    have hstolen := stolen_of_stealWork halive hsrc htask hrefused
    intro t ht
    by_contra hnot
    have hbest := h _ hperm task htask ⟨t, ht, Bool.eq_false_of_not_eq_true hnot⟩
    rw [hstolen] at hbest
    cases hbest.1

theorem NoLargerStolen.topLargest (h : NoLargerStolen tasks) : TopLargest tasks := by
  rintro s hs hstolen ⟨u, hu, hu'⟩
  exact ⟨u, hu, hu', h s hs u hu hstolen hu'⟩

theorem NoLargerStolen.followsOneOrder (h : NoLargerStolen tasks) : FollowsOneOrder tasks := by
  -- among these tasks the comparison is that of the ranks
  have hrank : ∀ a ∈ tasks, ∀ b ∈ tasks, (a.weightCompare b = true ↔ a.rank < b.rank) :=
    fun a ha b hb => TaskState.weightCompare_iff_rank_lt fun hbs has => h b hb a ha hbs has
  have hselects := h.topLargest.selectsBest
  refine ⟨?_, ?_, ?_, hselects, ?_, ?_⟩
  · have hrel : (fun a b : {t // t ∈ tasks} => a.1.weightCompare b.1 = true) =
        fun a b => a.1.rank < b.1.rank := by
      funext a b
      exact propext (hrank a.1 a.2 b.1 b.2)
    rw [hrel]
    exact
      { irrefl := fun a => lt_irrefl a.1.rank
        trans := fun a b c => lt_trans
        incomp_trans := by
          rintro a b c ⟨hab, hba⟩ ⟨hbc, hcb⟩
          rw [not_lt] at hab hba hbc hcb ⊢
          exact ⟨hbc.trans hab, not_lt.mpr (hba.trans hcb)⟩ }
  · intro s hs u hu hstolen hnot
    have hlt : s.rank < u.rank := TaskState.rank_lt_iff.mpr (.inl ⟨hstolen, hnot⟩)
    refine ⟨(hrank s hs u hu).mpr hlt, ?_⟩
    rw [Bool.eq_false_iff, Ne, hrank u hu s hs]
    exact hlt.asymm
  · intro a ha b hb hsame
    rw [hrank a ha b hb, TaskState.rank_lt_iff]
    constructor
    · rintro (⟨ha', hb'⟩ | ⟨-, hlt⟩)
      · rw [hsame, hb'] at ha'
        cases ha'
      · exact hlt
    · exact fun hlt => .inr ⟨hsame, hlt⟩
  · exact fun table w hperm r hnext => hselects.getNext table hperm hnext
  · exact fun cfg dst src ws halive hsrc hperm hne hrefused =>
      hselects.stealWork halive hsrc hperm hne hrefused

theorem FollowsOneOrder.noLargerStolen (h : FollowsOneOrder tasks) : NoLargerStolen tasks := by
  intro s hs u hu hstolen hnot
  have hbelow := (h.stolen_below s hs u hu hstolen hnot).2
  rw [Bool.eq_false_iff, Ne, TaskState.weightCompare_iff, not_or, not_lt] at hbelow
  exact hbelow.2

/-- **When task selection follows one order.** `WeightCompare` is the intended order on the
pending tasks exactly if no stolen task is larger than one that is not stolen; for the
selection alone it is enough that the stolen tasks are not larger than the largest other. -/
theorem task_selection_follows_one_order_iff (tasks : List (TaskState m)) :
    (FollowsOneOrder tasks ↔
      ∀ s ∈ tasks, ∀ u ∈ tasks, s.stolen = true → u.stolen = false → s.size ≤ u.size) ∧
    (SelectsBest tasks ↔
      ∀ s ∈ tasks, s.stolen = true → (∃ u ∈ tasks, u.stolen = false) →
        ∃ u ∈ tasks, u.stolen = false ∧ s.size ≤ u.size) :=
  ⟨⟨FollowsOneOrder.noLargerStolen, NoLargerStolen.followsOneOrder⟩, selectsBest_iff⟩

/-- A task of size `1` and a stolen one of size `5`. -/
def mixedTasks : List (TaskState 1) :=
  [⟨⟨0, 0⟩, .pending, 1, false⟩, ⟨⟨0, 1⟩, .pending, 5, true⟩]

/-- The stolen task is selected, and the two tasks are below each other. -/
theorem stolen_task_selected :
    ¬ FollowsOneOrder mixedTasks ∧ ¬ SelectsBest mixedTasks := by
  constructor
  · intro h
    exact absurd (h.noLargerStolen _ (.tail _ (.head _)) _ (.head _) rfl rfl) (by decide)
  · intro h
    have hbest := h mixedTasks (.refl _) ⟨⟨0, 1⟩, .pending, 5, true⟩ rfl ⟨_, .head _, rfl⟩
    cases hbest.1

end MaiterStore.Scheduler
