/-
# Which worker serves a shard

The operations of the master keep the shards of the workers apart, and a shard number stays
with one worker for all tables that have it. Tasks are where their shards are. Each operation
also says what it does to the tasks of a worker.
-/

import MaiterStore.Master.Scheduler

namespace MaiterStore.Scheduler

open CS.Run

/-! ## Lists -/

section Lists

variable {A B : Type*}

theorem maxElement_mem {comp : A → A → Bool} {l : List A} {a : A} (h : maxElement comp l = some a) :
    a ∈ l := by
  cases l with
  | nil => cases h
  | cons b l =>
    obtain rfl := Option.some.inj h
    clear h
    induction l generalizing b with
    | nil => exact List.mem_cons_self
    | cons c l ih =>
      rw [List.foldl_cons]
      split_ifs
      · exact List.mem_cons_of_mem _ (ih c)
      · rcases List.mem_cons.mp (ih b) with hb | hl
        · rw [hb]
          exact List.mem_cons_self
        · exact List.mem_cons_of_mem _ (List.mem_cons_of_mem _ hl)

theorem maxElement_eq_none {comp : A → A → Bool} {l : List A} :
    maxElement comp l = none ↔ l = [] := by
  cases l with
  | nil => exact ⟨fun _ => rfl, fun _ => rfl⟩
  | cons a l => exact ⟨nofun, nofun⟩

/-- Replacing the element with a given key. -/
theorem exists_perm_map {key : A → B} {l : List A} (hkeys : (l.map key).Nodup) {t : A} (ht : t ∈ l)
    {f : A → A} (hf : ∀ u ∈ l, key u ≠ key t → f u = u) :
    ∃ rest, l.Perm (t :: rest) ∧ (l.map f).Perm (f t :: rest) := by
  obtain ⟨l₁, l₂, rfl⟩ := List.append_of_mem ht
  have hkeys' : ∀ u ∈ l₁ ++ l₂, key u ≠ key t := by
    rw [List.map_append, List.map_cons] at hkeys
    have hnotMem := (List.nodup_middle.mp hkeys).notMem
    rw [← List.map_append] at hnotMem
    intro u hu heq
    exact hnotMem (List.mem_map.mpr ⟨u, hu, heq⟩)
  have hrest : (l₁ ++ l₂).map f = l₁ ++ l₂ := by
    refine (List.map_congr_left fun u hu => hf u ?_ (hkeys' u hu)).trans (List.map_id _)
    rcases List.mem_append.mp hu with h | h
    · exact List.mem_append_left _ h
    · exact List.mem_append_right _ (List.mem_cons_of_mem _ h)
  refine ⟨l₁ ++ l₂, List.perm_middle, ?_⟩
  have hmap : ((l₁ ++ t :: l₂).map f).Perm ((t :: (l₁ ++ l₂)).map f) := List.perm_middle.map f
  rwa [List.map_cons, hrest] at hmap

end Lists

/-! ## `WorkerState` -/

namespace WorkerState

variable {m : ℕ} {w : WorkerState m} {s t : TaskState m}

/-- The keys of `work` are distinct. -/
def Keyed (w : WorkerState m) : Prop := (w.work.map TaskState.id).Nodup

theorem Keyed.eq (hw : w.Keyed) (hs : s ∈ w.work) (ht : t ∈ w.work) (hid : s.id = t.id) : s = t :=
  List.inj_on_of_nodup_map hw hs ht hid

theorem mem_assignTask : t ∈ (w.assignTask s).work ↔ t = s ∨ t ∈ w.work ∧ t.id ≠ s.id := by
  rw [assignTask]
  dsimp only
  split_ifs with hmem
  · obtain ⟨u, hu, hid⟩ := List.mem_map.mp hmem
    rw [List.mem_map]
    constructor
    · rintro ⟨v, hv, rfl⟩
      split_ifs with hvid
      · exact .inl rfl
      · exact .inr ⟨hv, hvid⟩
    · rintro (rfl | ⟨ht, hne⟩)
      · exact ⟨u, hu, if_pos hid⟩
      · exact ⟨t, ht, if_neg hne⟩
  · rw [List.mem_orderedInsert]
    refine or_congr_right ⟨fun ht => ⟨ht, fun hid => ?_⟩, fun h => h.1⟩
    exact hmem (List.mem_map.mpr ⟨t, ht, hid⟩)

/-- A task with a new key. -/
theorem assignTask_perm (hnew : ∀ u ∈ w.work, u.id ≠ s.id) :
    (w.assignTask s).work.Perm (s :: w.work) := by
  have hmem : s.id ∉ w.work.map TaskState.id := by
    intro h
    obtain ⟨u, hu, hid⟩ := List.mem_map.mp h
    exact hnew u hu hid
  rw [assignTask]
  dsimp only
  rw [if_neg hmem]
  exact List.perm_orderedInsert ..

theorem Keyed.assignTask (hw : w.Keyed) (s : TaskState m) : (w.assignTask s).Keyed := by
  by_cases hmem : s.id ∈ w.work.map TaskState.id
  · have hids : (w.assignTask s).work.map TaskState.id = w.work.map TaskState.id := by
      rw [WorkerState.assignTask]
      dsimp only
      rw [if_pos hmem, List.map_map]
      refine List.map_congr_left fun u hu => ?_
      rw [Function.comp_apply]
      split_ifs with hid
      · exact hid.symm
      · rfl
    rw [Keyed, hids]
    exact hw
  · have hnew : ∀ u ∈ w.work, u.id ≠ s.id := fun u hu hid =>
      hmem (List.mem_map.mpr ⟨u, hu, hid⟩)
    rw [Keyed, ((assignTask_perm hnew).map _).nodup_iff, List.map_cons]
    exact List.nodup_cons.mpr ⟨hmem, hw⟩

theorem setStatus_perm (hw : w.Keyed) (ht : t ∈ w.work) (status : Status) :
    ∃ rest, w.work.Perm (t :: rest) ∧
      (w.setStatus t.id status).work.Perm ({ t with status := status } :: rest) := by
  obtain ⟨rest, hbefore, hafter⟩ := exists_perm_map hw ht
    (f := fun u => if u.id = t.id then { u with status := status } else u) fun u _ hne => if_neg hne
  rw [if_pos rfl] at hafter
  exact ⟨rest, hbefore, hafter⟩

theorem setStatus_ids (id : Taskid m) (status : Status) :
    (w.setStatus id status).work.map TaskState.id = w.work.map TaskState.id := by
  rw [setStatus]
  dsimp only
  rw [List.map_map]
  refine List.map_congr_left fun u _ => ?_
  rw [Function.comp_apply]
  split_ifs <;> rfl

theorem removeTask_perm (hw : w.Keyed) (ht : t ∈ w.work) :
    w.work.Perm (t :: (w.removeTask t).work) := by
  obtain ⟨u, l₁, l₂, -, hu, hsplit, herase⟩ :=
    List.exists_of_eraseP (p := fun u : TaskState m => u.id = t.id) ht (by simp)
  have hmem : u ∈ w.work := hsplit ▸ List.mem_append_right _ List.mem_cons_self
  obtain rfl : u = t := hw.eq hmem ht (of_decide_eq_true hu)
  rw [removeTask]
  dsimp only
  rw [herase, hsplit]
  exact List.perm_middle

section AssignShard

variable {numShards : Fin m → ℕ} {shard : ℕ}

/-- The shards of `w` and the shard number `shard` of the tables in `done`. -/
structure Adds (numShards : Fin m → ℕ) (shard : ℕ) (w : WorkerState m) (done : List (Fin m))
    (w' : WorkerState m) : Prop where
  work : w'.work = w.work
  shards : ∀ t, t ∈ w'.shards ↔
    t ∈ w.shards ∨ t.table ∈ done ∧ t.shard = shard ∧ shard < numShards t.table
  nodup : w.shards.Nodup → w'.shards.Nodup

theorem Adds.concat {w' : WorkerState m} {done : List (Fin m)} (h : Adds numShards shard w done w')
    (table : Fin m) : EndsIn (fun _ => False) (Adds numShards shard w (done ++ [table]))
      (assignShardOf numShards shard true table w') := by
  have hmem : ∀ t : Taskid m,
      t.table ∈ done ++ [table] ∧ t.shard = shard ∧ shard < numShards t.table ↔
      (t.table ∈ done ∧ t.shard = shard ∧ shard < numShards t.table) ∨
        t = ⟨table, shard⟩ ∧ shard < numShards table := by
    rintro ⟨a, b⟩
    simp only [List.mem_append, List.mem_singleton, Taskid.mk.injEq]
    constructor
    · rintro ⟨ha | rfl, hb, hlt⟩
      · exact .inl ⟨ha, hb, hlt⟩
      · exact .inr ⟨⟨rfl, hb⟩, hlt⟩
    · rintro (⟨ha, hb, hlt⟩ | ⟨⟨rfl, hb⟩, hlt⟩)
      · exact ⟨.inl ha, hb, hlt⟩
      · exact ⟨.inr rfl, hb, hlt⟩
  simp only [assignShardOf, if_true]
  -- the shard is there already, is inserted, or is beyond those of the table
  split_ifs with hlt hin
  · refine ⟨h.work, fun t => ?_, h.nodup⟩
    rw [hmem, ← or_assoc, ← h.shards]
    refine ⟨.inl, fun ht => ht.elim (fun hold => hold) ?_⟩
    rintro ⟨rfl, -⟩
    exact hin
  · refine ⟨h.work, fun t => ?_, fun hnodup => ?_⟩
    · rw [hmem, ← or_assoc, ← h.shards, List.mem_orderedInsert]
      exact ⟨fun ht => ht.elim (fun heq => .inr ⟨heq, hlt⟩) .inl,
        fun ht => ht.elim .inr fun heq => .inl heq.1⟩
    · dsimp only
      rw [(List.perm_orderedInsert ..).nodup_iff]
      exact List.nodup_cons.mpr ⟨hin, h.nodup hnodup⟩
  · refine ⟨h.work, fun t => ?_, h.nodup⟩
    rw [hmem, ← or_assoc, ← h.shards]
    exact ⟨.inl, fun ht => ht.elim (fun hold => hold) fun hnew => absurd hnew.2 hlt⟩

/-- `assign_shard(shard, true)` adds the shard number for all tables that have it. -/
theorem assignShard_true (numShards : Fin m → ℕ) (shard : ℕ) (w : WorkerState m) :
    EndsIn (fun _ => False) (Adds numShards shard w (List.finRange m))
      (w.assignShard numShards shard true) := by
  have hinit : Adds numShards shard w [] w := ⟨rfl, by simp, id⟩
  exact endsIn_forEach (List.finRange m) (fun _ table _ _ _ h => h.concat table) hinit

/-- The shards of `w` without the shard number `shard` of the tables in `done`. -/
structure Drops (numShards : Fin m → ℕ) (shard : ℕ) (w : WorkerState m) (done : List (Fin m))
    (w' : WorkerState m) : Prop where
  work : w'.work = w.work
  shards : ∀ t, t ∈ w'.shards ↔
    t ∈ w.shards ∧ ¬ (t.table ∈ done ∧ t.shard = shard ∧ shard < numShards t.table)
  nodup : w'.shards.Nodup

/-- `assign_shard(shard, false)` finds the shard number for all tables that have it if the
worker serves them. -/
theorem assignShard_false (hnodup : w.shards.Nodup)
    (hserves : ∀ t : Taskid m, t.shard = shard → shard < numShards t.table → t ∈ w.shards) :
    EndsIn (fun _ => False) (Drops numShards shard w (List.finRange m))
      (w.assignShard numShards shard false) := by
  have hinit : Drops numShards shard w [] w := ⟨rfl, by simp, hnodup⟩
  refine endsIn_forEach (List.finRange m) (fun done table after htables w' h => ?_) hinit
  -- no table comes twice, so the element is still there when its round comes
  have hfresh : table ∉ done := by
    have htwice := List.nodup_finRange m
    rw [htables] at htwice
    exact fun hmem => (List.nodup_append.mp htwice).2.2 table hmem table List.mem_cons_self rfl
  simp only [assignShardOf, Bool.false_eq_true, if_false]
  split_ifs with hlt hin
  · refine ⟨h.work, fun t => ?_, h.nodup.erase _⟩
    dsimp only
    rw [h.nodup.mem_erase_iff, h.shards]
    obtain ⟨a, b⟩ := t
    simp only [List.mem_append, List.mem_singleton, Taskid.mk.injEq, ne_eq]
    constructor
    · rintro ⟨hne, hw, hdone⟩
      refine ⟨hw, ?_⟩
      rintro ⟨ha | rfl, hb, hlt'⟩
      · exact hdone ⟨ha, hb, hlt'⟩
      · exact hne ⟨rfl, hb⟩
    · rintro ⟨hw, hdone⟩
      refine ⟨?_, hw, fun h => hdone ⟨.inl h.1, h.2⟩⟩
      rintro ⟨rfl, hb⟩
      exact hdone ⟨.inr rfl, hb, hlt⟩
  · exact hin ((h.shards _).mpr ⟨hserves _ rfl hlt, fun h => hfresh h.1⟩)
  · refine ⟨h.work, fun t => ?_, h.nodup⟩
    rw [h.shards]
    simp only [List.mem_append, List.mem_singleton]
    refine and_congr_right fun _ => not_congr ⟨fun h => ⟨.inl h.1, h.2⟩, ?_⟩
    rintro ⟨ha | rfl, hb, hlt'⟩
    · exact ⟨ha, hb, hlt'⟩
    · exact absurd hlt' hlt

end AssignShard

end WorkerState

/-! ## The operations of the master -/

section Master

variable {n m : ℕ} {cfg : Config n m} {ws ws' : Fin n → WorkerState m} {id : Taskid m}
  {dst src : Fin n} {task : TaskState m}

/-- A shard has one worker, which serves the shard number for all tables that have it, and
tasks are where their shards are. -/
structure Owned (cfg : Config n m) (ws : Fin n → WorkerState m) : Prop where
  unique : ∀ {u v t}, t ∈ (ws u).shards → t ∈ (ws v).shards → u = v
  valid : ∀ {w t}, t ∈ (ws w).shards → t.shard < cfg.numShards t.table
  together : ∀ {w} {t t' : Taskid m}, t ∈ (ws w).shards → t'.shard = t.shard →
    t'.shard < cfg.numShards t'.table → t' ∈ (ws w).shards
  nodup : ∀ w, (ws w).shards.Nodup
  held : ∀ {w task}, task ∈ (ws w).work → task.id ∈ (ws w).shards
  keyed : ∀ w, (ws w).Keyed

/-- A task is at one worker. -/
theorem Owned.eq_of_mem (h : Owned cfg ws) {u v : Fin n} {s t : TaskState m} (hs : s ∈ (ws u).work)
    (ht : t ∈ (ws v).work) (hid : s.id = t.id) : u = v ∧ s = t := by
  have huv : u = v := h.unique (h.held hs) (hid ▸ h.held ht)
  subst huv
  exact ⟨rfl, (h.keyed u).eq hs ht hid⟩

/-- What an operation does to the state of the tasks does not matter. -/
theorem Owned.congr (h : Owned cfg ws) (hshards : ∀ w, (ws' w).shards = (ws w).shards)
    (hids : ∀ w, (ws' w).work.map TaskState.id = (ws w).work.map TaskState.id) : Owned cfg ws' where
  unique hu hv := by
    rw [hshards] at hu hv
    exact h.unique hu hv
  valid ht := by
    rw [hshards] at ht
    exact h.valid ht
  together ht hshard hlt := by
    rw [hshards] at ht ⊢
    exact h.together ht hshard hlt
  nodup w := hshards w ▸ h.nodup w
  held {w task} htask := by
    have hmem : task.id ∈ (ws w).work.map TaskState.id := hids w ▸ List.mem_map_of_mem htask
    obtain ⟨t, ht, hid⟩ := List.mem_map.mp hmem
    rw [hshards, ← hid]
    exact h.held ht
  keyed w := by
    rw [WorkerState.Keyed, hids]
    exact h.keyed w

theorem Owned.clearTasks (h : Owned cfg ws) : Owned cfg fun w => (ws w).clearTasks :=
  ⟨h.unique, h.valid, h.together, h.nodup, fun htask => absurd htask List.not_mem_nil,
    fun _ => List.nodup_nil⟩

/-- A worker is given shards that nobody serves, and tasks for shards it then serves. -/
theorem Owned.update (h : Owned cfg ws) {v : Fin n} {x : WorkerState m}
    (hold : ∀ t ∈ (ws v).shards, t ∈ x.shards)
    (hnew : ∀ t ∈ x.shards, t ∈ (ws v).shards ∨
      t.shard < cfg.numShards t.table ∧ ∀ u, t ∉ (ws u).shards)
    (htogether : ∀ {t t' : Taskid m}, t ∈ x.shards → t'.shard = t.shard →
      t'.shard < cfg.numShards t'.table → t' ∈ x.shards)
    (hnodup : x.shards.Nodup) (hheld : ∀ task ∈ x.work, task.id ∈ x.shards) (hkeyed : x.Keyed) :
    Owned cfg (Function.update ws v x) where
  -- two workers with a shard: where one of them is `v`, it had the shard or nobody had
  unique {a b t} ha hb := by
    by_cases hav : a = v
    · by_cases hbv : b = v
      · exact hav.trans hbv.symm
      · subst hav
        rw [Function.update_self] at ha
        rw [Function.update_of_ne hbv] at hb
        rcases hnew t ha with hin | ⟨-, hfresh⟩
        · exact h.unique hin hb
        · exact absurd hb (hfresh b)
    · rw [Function.update_of_ne hav] at ha
      by_cases hbv : b = v
      · subst hbv
        rw [Function.update_self] at hb
        rcases hnew t hb with hin | ⟨-, hfresh⟩
        · exact h.unique ha hin
        · exact absurd ha (hfresh a)
      · rw [Function.update_of_ne hbv] at hb
        exact h.unique ha hb
  valid {w t} ht := by
    by_cases hw : w = v
    · subst hw
      rw [Function.update_self] at ht
      exact (hnew t ht).elim h.valid fun hfresh => hfresh.1
    · rw [Function.update_of_ne hw] at ht
      exact h.valid ht
  together {w t t'} ht hshard hlt := by
    by_cases hw : w = v
    · subst hw
      rw [Function.update_self] at ht ⊢
      exact htogether ht hshard hlt
    · rw [Function.update_of_ne hw] at ht ⊢
      exact h.together ht hshard hlt
  nodup :=
    (Function.forall_update_iff ws fun _ w => w.shards.Nodup).mpr ⟨hnodup, fun w _ => h.nodup w⟩
  held {w task} htask := by
    by_cases hw : w = v
    · subst hw
      rw [Function.update_self] at htask ⊢
      exact hheld task htask
    · rw [Function.update_of_ne hw] at htask ⊢
      exact h.held htask
  keyed := (Function.forall_update_iff ws fun _ w => w.Keyed).mpr ⟨hkeyed, fun w _ => h.keyed w⟩

/-- What stops the master before a run: no worker is alive, or the run has a shard that its
table does not have. -/
def Refused (cfg : Config n m) : Abort m → Prop
  | .ranOutOfWorkers => ∀ w, cfg.alive w = false
  | .outOfRange id => cfg.numShards id.table ≤ id.shard
  | .notAssigned _ | .notActive _ | .eraseEnd _ | .notFinished | .cannotWorkOn _ => False

/-- The loop over the workers finds nothing only if none of them is alive. -/
theorem foldl_leastShards_eq_none {l : List (Fin n)} {start : Option (Fin n)}
    (hfold : l.foldl (fun best i =>
      if cfg.alive i && best.all fun b => (ws i).shards.length < (ws b).shards.length then some i
      else best) start = none) : start = none ∧ ∀ i ∈ l, cfg.alive i = false := by
  induction l generalizing start with
  | nil => exact ⟨hfold, nofun⟩
  | cons i l ih =>
    obtain ⟨hnone, hl⟩ := ih hfold
    cases start with
    | some b =>
      dsimp only at hnone
      split_ifs at hnone
    | none =>
      have hi : cfg.alive i = false := by
        cases halive : cfg.alive i with
        | false => rfl
        | true => simp [halive] at hnone
      exact ⟨rfl, List.forall_mem_cons.mpr ⟨hi, hl⟩⟩

theorem leastShards_eq_none (h : leastShards cfg ws = none) (w : Fin n) : cfg.alive w = false :=
  (foldl_leastShards_eq_none h).2 w (List.mem_finRange w)

/-- The workers after `assign_worker`. -/
structure Assigns (cfg : Config n m) (size : Taskid m → ℤ) (id : Taskid m)
    (ws ws' : Fin n → WorkerState m) : Prop where
  owned : Owned cfg ws'
  grows : ∀ {w t}, t ∈ (ws w).shards → t ∈ (ws' w).shards
  served : ∃ w, id ∈ (ws' w).shards
  same : (∃ w, id ∈ (ws w).shards) → ∀ w, (ws' w).shards = (ws w).shards
  tasks : ∀ task, (∃ w, task ∈ (ws' w).work) ↔
    task = .new id (size id) ∨ (∃ w, task ∈ (ws w).work) ∧ task.id ≠ id

theorem assigns_update (size : Taskid m → ℤ) {v : Fin n} {x : WorkerState m}
    (hwork : x.work = (ws v).work) (hid : id ∈ x.shards)
    (hold : ∀ {t}, t ∈ (ws v).shards → t ∈ x.shards)
    (hsame : (∃ w, id ∈ (ws w).shards) → x.shards = (ws v).shards)
    (howned : Owned cfg (Function.update ws v (x.assignTask (.new id (size id))))) :
    Assigns cfg size id ws (Function.update ws v (x.assignTask (.new id (size id)))) where
  owned := howned
  grows {w t} ht := by
    by_cases hw : w = v
    · subst hw
      rw [Function.update_self]
      exact hold ht
    · rwa [Function.update_of_ne hw]
  served := ⟨v, by rw [Function.update_self]; exact hid⟩
  same hserved w := by
    by_cases hw : w = v
    · subst hw
      rw [Function.update_self]
      exact hsame hserved
    · rw [Function.update_of_ne hw]
  tasks task := by
    constructor
    · rintro ⟨w, htask⟩
      by_cases hw : w = v
      · subst hw
        rw [Function.update_self, WorkerState.mem_assignTask, hwork] at htask
        exact htask.imp (fun heq => heq) fun hold => ⟨⟨w, hold.1⟩, hold.2⟩
      -- the shard of the new task is at `v`, so no other worker has a task for it
      · refine .inr ⟨⟨w, by rwa [Function.update_of_ne hw] at htask⟩, fun heq => hw ?_⟩
        refine howned.unique (howned.held htask) ?_
        rw [heq, Function.update_self]
        exact hid
    · rintro (rfl | ⟨⟨w, htask⟩, hne⟩)
      · exact ⟨v, by rw [Function.update_self]; exact WorkerState.mem_assignTask.mpr (.inl rfl)⟩
      · by_cases hw : w = v
        · subst hw
          refine ⟨w, ?_⟩
          rw [Function.update_self, WorkerState.mem_assignTask, hwork]
          exact .inr ⟨htask, hne⟩
        · exact ⟨w, by rwa [Function.update_of_ne hw]⟩

theorem assignWorker_spec (h : Owned cfg ws) (size : Taskid m → ℤ) (id : Taskid m) :
    EndsIn (Refused cfg) (Assigns cfg size id ws) (assignWorker cfg size id ws) := by
  rw [assignWorker]
  split_ifs with hrange
  · exact hrange
  · have hlt : id.shard < cfg.numShards id.table := Nat.lt_of_not_le hrange
    cases hfind : workerForShard id ws with
    | some v =>
      have hserves : id ∈ (ws v).shards := by
        have hv := List.find?_some hfind
        exact of_decide_eq_true hv
      refine assigns_update size rfl hserves (fun ht => ht) (fun _ => rfl) ?_
      refine h.update (fun t ht => ht) (fun t ht => .inl ht) h.together (h.nodup v)
        (fun task htask => ?_) ((h.keyed v).assignTask _)
      rcases WorkerState.mem_assignTask.mp htask with rfl | ⟨hold, -⟩
      · exact hserves
      · exact h.held hold
    | none =>
      have hfree : ∀ u, id ∉ (ws u).shards := by
        intro u hu
        have hnot := List.find?_eq_none.mp hfind u (List.mem_finRange u)
        exact hnot (decide_eq_true hu)
      cases hbest : leastShards cfg ws with
      | none => exact leastShards_eq_none hbest
      | some v =>
        obtain ⟨x, hok, hadds⟩ :=
          (WorkerState.assignShard_true cfg.numShards id.shard (ws v)).exists_ok
        have hmem : ∀ t, t ∈ x.shards ↔
            t ∈ (ws v).shards ∨ t.shard = id.shard ∧ id.shard < cfg.numShards t.table := by
          intro t
          rw [hadds.shards]
          simp only [List.mem_finRange, true_and]
        simp only [hok]
        refine assigns_update size hadds.work ((hmem id).mpr (.inr ⟨rfl, hlt⟩))
          (fun ht => (hmem _).mpr (.inl ht)) (fun ⟨u, hu⟩ => absurd hu (hfree u)) ?_
        refine h.update (fun t ht => (hmem t).mpr (.inl ht)) (fun t ht => ?_)
          (fun {t t'} ht hshard hlt' => ?_) (hadds.nodup (h.nodup v)) (fun task htask => ?_) ?_
        · refine ((hmem t).mp ht).imp (fun hold => hold) fun hnew => ?_
          -- a worker with the shard number of another table would serve `id` too
          refine ⟨hnew.1.symm ▸ hnew.2, fun u hu => hfree u (h.together hu hnew.1.symm hlt)⟩
        · rcases (hmem t).mp ht with hold | hnew
          · exact (hmem t').mpr (.inl (h.together hold hshard hlt'))
          · have hid : t'.shard = id.shard := hshard.trans hnew.1
            exact (hmem t').mpr (.inr ⟨hid, hid ▸ hlt'⟩)
        · rcases WorkerState.mem_assignTask.mp htask with rfl | ⟨hold, -⟩
          · exact (hmem id).mpr (.inr ⟨rfl, hlt⟩)
          · rw [hadds.work] at hold
            exact (hmem _).mpr (.inl (h.held hold))
        · refine WorkerState.Keyed.assignTask ?_ _
          rw [WorkerState.Keyed, hadds.work]
          exact h.keyed v

theorem mem_allShards : id ∈ allShards cfg ↔ id.shard < cfg.numShards id.table := by
  simp only [allShards, List.mem_flatMap, List.mem_map, List.mem_range, List.mem_finRange, true_and]
  constructor
  · rintro ⟨table, shard, hlt, rfl⟩
    exact hlt
  · exact fun hlt => ⟨id.table, id.shard, hlt, rfl⟩

/-- After `assign_tables` every shard has a worker. -/
theorem assignTables_spec (h : Owned cfg ws) (size : Taskid m → ℤ)
    (hidle : ∀ w, ∀ task ∈ (ws w).work, task.status ≠ .active) :
    EndsIn (Refused cfg) (fun ws' => Owned cfg ws' ∧
      (∀ t ∈ allShards cfg, ∃ w, t ∈ (ws' w).shards) ∧
      ∀ w, ∀ task ∈ (ws' w).work, task.status ≠ .active) (assignTables cfg size ws) := by
  refine endsIn_forEach (I := fun before ws' => Owned cfg ws' ∧
    (∀ t ∈ before, ∃ w, t ∈ (ws' w).shards) ∧ ∀ w, ∀ task ∈ (ws' w).work, task.status ≠ .active)
    (allShards cfg) (fun before id after _ ws₁ ⟨howned, hserved, hidle₁⟩ => ?_) ⟨h, nofun, hidle⟩
  refine (assignWorker_spec howned size id).imp fun ws₂ hassigns => ⟨hassigns.owned, ?_, ?_⟩
  · intro t ht
    rcases List.mem_append.mp ht with hold | hnew
    · obtain ⟨w, hw⟩ := hserved t hold
      exact ⟨w, hassigns.grows hw⟩
    · rw [List.mem_singleton.mp hnew]
      exact hassigns.served
  · intro w task htask
    rcases (hassigns.tasks task).mp ⟨w, htask⟩ with rfl | ⟨⟨v, hv⟩, -⟩
    · exact Status.noConfusion
    · exact hidle₁ v task hv

/-- After `assign_tasks` there is a new task for each shard of the run, and the shards have
not moved. -/
theorem assignTasks_spec (h : Owned cfg ws) (size : Taskid m → ℤ) (r : RunDescriptor m)
    (hserved : ∀ t ∈ allShards cfg, ∃ w, t ∈ (ws w).shards) :
    EndsIn (Refused cfg) (fun ws' => Owned cfg ws' ∧ (∀ w, (ws' w).shards = (ws w).shards) ∧
      ∀ task, (∃ w, task ∈ (ws' w).work) ↔
        ∃ shard ∈ r.shards, task = .new ⟨r.table, shard⟩ (size ⟨r.table, shard⟩))
      (assignTasks cfg size r ws) := by
  refine endsIn_forEach (I := fun before ws' => Owned cfg ws' ∧
    (∀ w, (ws' w).shards = (ws w).shards) ∧ ∀ task, (∃ w, task ∈ (ws' w).work) ↔
      ∃ shard ∈ before, task = .new ⟨r.table, shard⟩ (size ⟨r.table, shard⟩))
    r.shards (fun before shard after _ ws₁ ⟨howned, hshards, htasks⟩ => ?_)
    ⟨h.clearTasks, fun _ => rfl, ?_⟩
  · by_cases hrange : cfg.numShards r.table ≤ shard
    · rw [assignWorker, if_pos hrange]
      exact hrange
    · refine (assignWorker_spec howned size ⟨r.table, shard⟩).imp fun ws₂ hassigns =>
        ⟨hassigns.owned, fun w => ?_, fun task => ?_⟩
      -- the shard is served already, so no worker is given another one
      · refine (hassigns.same ?_ w).trans (hshards w)
        obtain ⟨v, hv⟩ := hserved ⟨r.table, shard⟩ (mem_allShards.mpr (Nat.lt_of_not_le hrange))
        exact ⟨v, by rwa [hshards]⟩
      · rw [hassigns.tasks, htasks]
        constructor
        · rintro (rfl | ⟨⟨j, hj, rfl⟩, -⟩)
          · exact ⟨shard, List.mem_append_right _ List.mem_cons_self, rfl⟩
          · exact ⟨j, List.mem_append_left _ hj, rfl⟩
        · rintro ⟨j, hj, rfl⟩
          by_cases hjs : j = shard
          · rw [hjs]
            exact .inl rfl
          · rcases List.mem_append.mp hj with hold | hnew
            · refine .inr ⟨⟨j, hold, rfl⟩, fun heq => hjs ?_⟩
              exact congrArg Taskid.shard heq
            · exact absurd (List.mem_singleton.mp hnew) hjs
  · intro task
    constructor
    · rintro ⟨w, htask⟩
      exact absurd htask List.not_mem_nil
    · rintro ⟨_, hnil, -⟩
      exact absurd hnil List.not_mem_nil

/-- `t` is the shard number `shard` of a table that has it. -/
def Numbered (cfg : Config n m) (shard : ℕ) (t : Taskid m) : Prop :=
  t.shard = shard ∧ shard < cfg.numShards t.table

/-- A shard number has gone to `dst` for all tables. -/
theorem Owned.shift (h : Owned cfg ws) {shard : ℕ}
    (hmem : ∀ w t, t ∈ (ws' w).shards ↔
      Numbered cfg shard t ∧ w = dst ∨ ¬ Numbered cfg shard t ∧ t ∈ (ws w).shards)
    (hnodup : ∀ w, (ws' w).shards.Nodup) (hheld : ∀ w, ∀ t ∈ (ws' w).work, t.id ∈ (ws' w).shards)
    (hkeyed : ∀ w, (ws' w).Keyed) : Owned cfg ws' where
  unique {u v t} hu hv := by
    rcases (hmem u t).mp hu with ⟨hnum, hudst⟩ | ⟨hstay, hu⟩
    · rcases (hmem v t).mp hv with ⟨-, hvdst⟩ | ⟨hstay, -⟩
      · exact hudst.trans hvdst.symm
      · exact absurd hnum hstay
    · rcases (hmem v t).mp hv with ⟨hnum, -⟩ | ⟨-, hv⟩
      · exact absurd hnum hstay
      · exact h.unique hu hv
  valid {w t} ht := by
    rcases (hmem w t).mp ht with ⟨hnum, -⟩ | ⟨-, hold⟩
    · exact hnum.1 ▸ hnum.2
    · exact h.valid hold
  together {w t t'} ht hshard hlt := by
    rcases (hmem w t).mp ht with ⟨hnum, hw⟩ | ⟨hstay, hold⟩
    · have hshard' : t'.shard = shard := hshard.trans hnum.1
      exact (hmem w t').mpr (.inl ⟨⟨hshard', hshard' ▸ hlt⟩, hw⟩)
    · refine (hmem w t').mpr (.inr ⟨fun hnum => hstay ?_, h.together hold hshard hlt⟩)
      have hshard' : t.shard = shard := hshard.symm.trans hnum.1
      exact ⟨hshard', hshard' ▸ h.valid hold⟩
  nodup := hnodup
  held {w task} htask := hheld w task htask
  keyed := hkeyed

/-- The workers after `task` has gone from `src` to `dst`. -/
structure Moves (cfg : Config n m) (dst src : Fin n) (task : TaskState m)
    (ws ws' : Fin n → WorkerState m) : Prop where
  owned : Owned cfg ws'
  served : ∀ t, (∃ w, t ∈ (ws w).shards) → ∃ w, t ∈ (ws' w).shards
  src_perm : (ws src).work.Perm (task :: (ws' src).work)
  dst_perm : (ws' dst).work.Perm ({ task with stolen := true } :: (ws dst).work)
  other : ∀ w, w ≠ dst → w ≠ src → ws' w = ws w

/-- What `moveTask` does to the workers, one by one. -/
structure HandsOver (cfg : Config n m) (dst src : Fin n) (task : TaskState m)
    (ws ws' : Fin n → WorkerState m) : Prop where
  dst_shards : ∀ t, t ∈ (ws' dst).shards ↔ t ∈ (ws dst).shards ∨ Numbered cfg task.id.shard t
  src_shards : ∀ t, t ∈ (ws' src).shards ↔ t ∈ (ws src).shards ∧ ¬ Numbered cfg task.id.shard t
  nodup : ∀ w, (ws' w).shards.Nodup
  src_perm : (ws src).work.Perm (task :: (ws' src).work)
  dst_perm : (ws' dst).work.Perm ({ task with stolen := true } :: (ws dst).work)
  other : ∀ w, w ≠ dst → w ≠ src → ws' w = ws w

/-- The worker of a task serves its shard number for all tables. -/
theorem Owned.serves (h : Owned cfg ws) (htask : task ∈ (ws src).work) {t : Taskid m}
    (ht : Numbered cfg task.id.shard t) : t ∈ (ws src).shards :=
  h.together (h.held htask) ht.1 (ht.1 ▸ ht.2)

theorem moveTask_handsOver (h : Owned cfg ws) (hne : dst ≠ src) (htask : task ∈ (ws src).work) :
    EndsIn (fun _ => False) (HandsOver cfg dst src task ws) (moveTask cfg dst src task ws) := by
  obtain ⟨x, hadd, hx⟩ :=
    (WorkerState.assignShard_true cfg.numShards task.id.shard (ws dst)).exists_ok
  obtain ⟨y, hdrop, hy⟩ := (WorkerState.assignShard_false (h.nodup src)
    fun t hshard hlt => h.serves htask ⟨hshard, hlt⟩).exists_ok
  -- `dst` is updated twice, with the shards before `src` gives them up and with the task after
  let dst' := x.assignTask { task with stolen := true }
  let src' := y.removeTask task
  have hresult : moveTask cfg dst src task ws =
      .ok (Function.update (Function.update (Function.update ws dst x) src src') dst dst') := by
    simp only [moveTask, hadd, Except.bind, Function.update_of_ne hne.symm, hdrop, Except.map,
      Function.update_of_ne hne, Function.update_self, src', dst']
  generalize hws' : Function.update (Function.update (Function.update ws dst x) src src') dst dst' =
    ws' at hresult
  have hdst : ws' dst = dst' := by rw [← hws', Function.update_self]
  have hsrc : ws' src = src' := by
    rw [← hws', Function.update_of_ne hne.symm, Function.update_self]
  have hother : ∀ w, w ≠ dst → w ≠ src → ws' w = ws w := by
    intro w hwd hws
    rw [← hws', Function.update_of_ne hwd, Function.update_of_ne hws, Function.update_of_ne hwd]
  rw [hresult]
  refine ⟨fun t => ?_, fun t => ?_, fun w => ?_, ?_, ?_, hother⟩
  · rw [hdst]
    refine (hx.shards t).trans ?_
    simp only [List.mem_finRange, true_and, Numbered]
  · rw [hsrc]
    refine (hy.shards t).trans ?_
    simp only [List.mem_finRange, true_and, Numbered]
  · by_cases hwd : w = dst
    · rw [hwd, hdst]
      exact hx.nodup (h.nodup dst)
    · by_cases hws : w = src
      · rw [hws, hsrc]
        exact hy.nodup
      · rw [hother w hwd hws]
        exact h.nodup w
  · rw [hsrc, ← hy.work]
    refine WorkerState.removeTask_perm ?_ ?_
    · rw [WorkerState.Keyed, hy.work]
      exact h.keyed src
    · rw [hy.work]
      exact htask
  · rw [hdst, ← hx.work]
    refine WorkerState.assignTask_perm fun u hu hid => hne ?_
    rw [hx.work] at hu
    exact (h.eq_of_mem hu htask hid).1

section HandsOver

variable (hmove : HandsOver cfg dst src task ws ws') (h : Owned cfg ws) (hne : dst ≠ src)
  (htask : task ∈ (ws src).work)

include hmove h hne htask

/-- The shard number of the task is at `dst`, the others are where they were. -/
theorem HandsOver.mem_shards (w : Fin n) (t : Taskid m) : t ∈ (ws' w).shards ↔
    Numbered cfg task.id.shard t ∧ w = dst ∨
      ¬ Numbered cfg task.id.shard t ∧ t ∈ (ws w).shards := by
  by_cases hwd : w = dst
  · rw [hwd, hmove.dst_shards]
    tauto
  · by_cases hws : w = src
    · rw [hws, hmove.src_shards]
      have hsrc : src ≠ dst := hne.symm
      tauto
    -- `src` serves all shards of the number, so no third worker has one
    · have hstay : Numbered cfg task.id.shard t → t ∉ (ws w).shards :=
        fun hnum ht => hws (h.unique ht (h.serves htask hnum))
      rw [hmove.other w hwd hws]
      tauto

theorem HandsOver.keyed (w : Fin n) : (ws' w).Keyed := by
  by_cases hwd : w = dst
  · rw [hwd, WorkerState.Keyed, (hmove.dst_perm.map _).nodup_iff]
    refine List.nodup_cons.mpr ⟨fun hmem => ?_, h.keyed dst⟩
    obtain ⟨u, hu, hid⟩ := List.mem_map.mp hmem
    exact hne (h.eq_of_mem hu htask hid).1
  · by_cases hws : w = src
    · have hnodup := (hmove.src_perm.map TaskState.id).nodup_iff.mp (h.keyed src)
      rw [hws]
      exact (List.nodup_cons.mp hnodup).2
    · rw [hmove.other w hwd hws]
      exact h.keyed w

/-- A task of the run with the shard number of `task` is `task`, so the others stay held. -/
theorem HandsOver.held (htable : ∀ t ∈ (ws src).work, t.id.table = task.id.table) (w : Fin n)
    (t : TaskState m) (ht : t ∈ (ws' w).work) : t.id ∈ (ws' w).shards := by
  rw [hmove.mem_shards h hne htask]
  by_cases hwd : w = dst
  · subst hwd
    rcases List.mem_cons.mp (hmove.dst_perm.mem_iff.mp ht) with rfl | hold
    · exact .inl ⟨⟨rfl, h.valid (h.held htask)⟩, rfl⟩
    · have hin := h.held hold
      tauto
  · by_cases hws : w = src
    · subst hws
      have hold : t ∈ (ws w).work := hmove.src_perm.mem_iff.mpr (List.mem_cons_of_mem _ ht)
      have hnodup := (hmove.src_perm.map TaskState.id).nodup_iff.mp (h.keyed w)
      refine .inr ⟨fun hnum => (List.nodup_cons.mp hnodup).1 ?_, h.held hold⟩
      have hid : t.id = task.id := Taskid.ext (htable t hold) hnum.1
      exact List.mem_map.mpr ⟨t, ht, hid⟩
    · rw [hmove.other w hwd hws] at ht
      have hin := h.held ht
      exact .inr ⟨fun hnum => hws (h.unique hin (h.serves htask hnum)), hin⟩

end HandsOver

/-- Stealing a task of a run, all of whose tasks are for one table. -/
theorem moveTask_spec (h : Owned cfg ws) (hne : dst ≠ src) (htask : task ∈ (ws src).work)
    (htable : ∀ t ∈ (ws src).work, t.id.table = task.id.table) :
    EndsIn (fun _ => False) (Moves cfg dst src task ws) (moveTask cfg dst src task ws) := by
  refine (moveTask_handsOver h hne htask).imp fun ws' hmove => ?_
  have hmem := hmove.mem_shards h hne htask
  refine ⟨h.shift hmem hmove.nodup (hmove.held h hne htask htable) (hmove.keyed h hne htask), ?_,
    hmove.src_perm, hmove.dst_perm, hmove.other⟩
  rintro t ⟨w, hw⟩
  by_cases hnum : Numbered cfg task.id.shard t
  · exact ⟨dst, (hmem dst t).mpr (.inl ⟨hnum, rfl⟩)⟩
  · exact ⟨w, (hmem w t).mpr (.inr ⟨hnum, hw⟩)⟩

/-- Stealing leaves the tasks alone that are not pending. -/
theorem Moves.filter_perm (h : Moves cfg dst src task ws ws') {status : Status}
    (hstatus : task.status ≠ status) (w : Fin n) :
    ((ws' w).work.filter fun t => t.status = status).Perm
      ((ws w).work.filter fun t => t.status = status) := by
  by_cases hdst : w = dst
  · rw [hdst]
    have hperm := h.dst_perm.filter fun t => t.status = status
    rwa [List.filter_cons_of_neg (by rw [decide_eq_true_iff]; exact hstatus)] at hperm
  · by_cases hsrc : w = src
    · rw [hsrc]
      have hperm := h.src_perm.filter fun t => t.status = status
      rw [List.filter_cons_of_neg (by rw [decide_eq_true_iff]; exact hstatus)] at hperm
      exact hperm.symm
    · rw [h.other w hdst hsrc]

theorem Moves.counts (h : Moves cfg dst src task ws ws') (hpending : task.status = .pending)
    (w : Fin n) :
    (ws' w).numActive = (ws w).numActive ∧ (ws' w).numFinished = (ws w).numFinished := by
  simp only [WorkerState.numActive, WorkerState.numFinished, List.countP_eq_length_filter]
  exact ⟨(h.filter_perm (by rw [hpending]; nofun) w).length_eq,
    (h.filter_perm (by rw [hpending]; nofun) w).length_eq⟩

/-- The keys and the states of the tasks are the same. -/
theorem Moves.mem (h : Moves cfg dst src task ws ws') (htask : task ∈ (ws src).work) {id : Taskid m}
    {status : Status} :
    (∃ w, ∃ t ∈ (ws' w).work, t.id = id ∧ t.status = status) ↔
      ∃ w, ∃ t ∈ (ws w).work, t.id = id ∧ t.status = status := by
  constructor
  · rintro ⟨w, t, ht, hid⟩
    by_cases hdst : w = dst
    · subst hdst
      rcases List.mem_cons.mp (h.dst_perm.mem_iff.mp ht) with rfl | hold
      · exact ⟨src, task, htask, hid⟩
      · exact ⟨w, t, hold, hid⟩
    · by_cases hsrc : w = src
      · subst hsrc
        exact ⟨w, t, h.src_perm.mem_iff.mpr (List.mem_cons_of_mem _ ht), hid⟩
      · rw [h.other w hdst hsrc] at ht
        exact ⟨w, t, ht, hid⟩
  · rintro ⟨w, t, ht, hid⟩
    by_cases hdst : w = dst
    · subst hdst
      exact ⟨w, t, h.dst_perm.mem_iff.mpr (List.mem_cons_of_mem _ ht), hid⟩
    · by_cases hsrc : w = src
      · subst hsrc
        rcases List.mem_cons.mp (h.src_perm.mem_iff.mp ht) with rfl | hstay
        · exact ⟨dst, _, h.dst_perm.mem_iff.mpr List.mem_cons_self, hid⟩
        · exact ⟨w, t, hstay, hid⟩
      · exact ⟨w, t, by rwa [h.other w hdst hsrc], hid⟩

theorem mem_pending {w : WorkerState m} {t : TaskState m} (ht : t ∈ w.pending) :
    t ∈ w.work ∧ t.status = .pending :=
  ⟨(List.mem_filter.mp ht).1, of_decide_eq_true (List.mem_filter.mp ht).2⟩

/-- `steal_work` for a worker whose tasks are finished moves a pending task of another worker,
or nothing. -/
theorem stealWork_spec (h : Owned cfg ws) {table : Fin m}
    (htable : ∀ w, ∀ t ∈ (ws w).work, t.id.table = table)
    (hidle : (ws dst).numFinished = (ws dst).work.length) (worth : Bool) :
    EndsIn (fun _ => False) (fun r => r = (ws, false) ∨ r.2 = true ∧ ∃ src task,
      dst ≠ src ∧ task ∈ (ws src).work ∧ task.status = .pending ∧ Moves cfg dst src task ws r.1)
      (stealWork cfg worth dst ws) := by
  rw [stealWork]
  split_ifs with hdead
  · exact .inl rfl
  · cases maxElement (fun a b => decide ((ws a).numPending < (ws b).numPending))
      (List.finRange n) with
    | none => exact .inl rfl
    | some src =>
      dsimp only
      cases hbest : maxElement TaskState.weightCompare (ws src).pending with
      | none => exact .inl rfl
      | some task =>
        obtain ⟨htask, hpending⟩ := mem_pending (maxElement_mem hbest)
        dsimp only
        split_ifs with hkeep
        · exact .inl rfl
        · have hne : dst ≠ src := by
            rintro rfl
            have hall := List.countP_eq_length.mp hidle task htask
            rw [of_decide_eq_true hall] at hpending
            cases hpending
          refine (moveTask_spec h hne htask fun t ht => ?_).map fun ws' hmoves =>
            .inr ⟨rfl, src, task, hne, htask, hpending, hmoves⟩
          rw [htable src t ht, htable src task htask]

end Master

end MaiterStore.Scheduler
