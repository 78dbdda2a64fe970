/-
# The initial assignment of shards

`assign_tables` (`master/master.cc`) gives every shard of every table a worker before the
first run. A shard that nobody serves goes to a worker that is alive and serves the fewest
shards, and takes the shard number of all other tables with it. So the shards of the first
table are dealt out, each step adds one entry for each table to a worker with the fewest
entries, and the shards of the other tables are found to be served already.
-/

import MaiterStore.Master.Ownership

namespace MaiterStore.Scheduler

open CS.Run

variable {n m : ℕ} {cfg : Config n m} {ws ws' : Fin n → WorkerState m} {id : Taskid m}

/-- The workers as the master creates them. -/
def newWorkers : Fin n → WorkerState m := fun _ => ⟨[], []⟩

theorem owned_newWorkers (cfg : Config n m) : Owned cfg newWorkers where
  unique ht := absurd ht List.not_mem_nil
  valid ht := absurd ht List.not_mem_nil
  together ht := absurd ht List.not_mem_nil
  nodup _ := List.nodup_nil
  held ht := absurd ht List.not_mem_nil
  keyed _ := List.nodup_nil

/-! ## One call of `assign_worker` -/

/-- What the loop over the workers finds is alive, and has no more shards than what it began with
and than any of the workers that are alive. -/
theorem foldl_leastShards {l : List (Fin n)} {start : Option (Fin n)} {best : Fin n}
    (halive : ∀ b, start = some b → cfg.alive b = true)
    (hfold : l.foldl (fun best i =>
      if cfg.alive i && best.all fun b => (ws i).shards.length < (ws b).shards.length then some i
      else best) start = some best) :
    cfg.alive best = true ∧
      (∀ b, start = some b → (ws best).shards.length ≤ (ws b).shards.length) ∧
      ∀ i ∈ l, cfg.alive i = true → (ws best).shards.length ≤ (ws i).shards.length := by
  induction l generalizing start with
  | nil =>
    have hstart : start = some best := hfold
    refine ⟨halive best hstart, fun b hb => ?_, nofun⟩
    rw [← Option.some.inj (hstart.symm.trans hb)]
  | cons i l ih =>
    rw [List.foldl_cons] at hfold
    split_ifs at hfold with htake
    · -- the worker is the best so far, with fewer shards than the best before
      rw [Bool.and_eq_true] at htake
      obtain ⟨hbest, hle, hrest⟩ := ih (fun b hb => Option.some.inj hb ▸ htake.1) hfold
      refine ⟨hbest, fun b hb => ?_, fun j hj hj' => ?_⟩
      · have hlt := htake.2
        rw [hb, Option.all_some, decide_eq_true_eq] at hlt
        exact (hle i rfl).trans hlt.le
      · rcases List.mem_cons.mp hj with rfl | hj
        · exact hle j rfl
        · exact hrest j hj hj'
    · obtain ⟨hbest, hle, hrest⟩ := ih halive hfold
      refine ⟨hbest, hle, fun j hj hj' => ?_⟩
      rcases List.mem_cons.mp hj with rfl | hj
      · -- the worker is alive and was not taken, so there was one with no more shards
        rw [hj', Bool.true_and, Bool.not_eq_true] at htake
        cases start with
        | none => cases htake
        | some b =>
          rw [Option.all_some, decide_eq_false_iff_not, not_lt] at htake
          exact (hle b rfl).trans htake
      · exact hrest j hj hj'

/-- The loop over the workers finds one that is alive and has the fewest shards. -/
theorem leastShards_spec {best : Fin n} (h : leastShards cfg ws = some best) :
    cfg.alive best = true ∧
      ∀ w, cfg.alive w = true → (ws best).shards.length ≤ (ws w).shards.length := by
  obtain ⟨halive, -, hle⟩ :=
    foldl_leastShards (fun _ hb => absurd hb (Option.some_ne_none _).symm) h
  exact ⟨halive, fun w hw => hle w (List.mem_finRange w) hw⟩

/-- What `assign_worker` does for a shard that its table has, with a worker alive. -/
theorem assignWorker_cases (size : Taskid m → ℤ) (hid : id.shard < cfg.numShards id.table)
    (halive : ∃ w, cfg.alive w = true) (ws : Fin n → WorkerState m) :
    (∃ v, id ∈ (ws v).shards ∧ assignWorker cfg size id ws =
        .ok (Function.update ws v ((ws v).assignTask (.new id (size id))))) ∨
      (∀ u, id ∉ (ws u).shards) ∧ ∃ best x, leastShards cfg ws = some best ∧
        WorkerState.Adds cfg.numShards id.shard (ws best) (List.finRange m) x ∧
        assignWorker cfg size id ws =
          .ok (Function.update ws best (x.assignTask (.new id (size id)))) := by
  rw [assignWorker, if_neg hid.not_ge]
  cases hfind : workerForShard id ws with
  | some v =>
    have hv := List.find?_some hfind
    exact .inl ⟨v, of_decide_eq_true hv, rfl⟩
  | none =>
    have hfree : ∀ u, id ∉ (ws u).shards := by
      intro u hu
      exact List.find?_eq_none.mp hfind u (List.mem_finRange u) (decide_eq_true hu)
    refine .inr ⟨hfree, ?_⟩
    cases hbest : leastShards cfg ws with
    | none =>
      obtain ⟨w, hw⟩ := halive
      rw [leastShards_eq_none hbest w] at hw
      cases hw
    | some best =>
      obtain ⟨x, hok, hadds⟩ :=
        (WorkerState.assignShard_true cfg.numShards id.shard (ws best)).exists_ok
      refine ⟨best, x, rfl, hadds, ?_⟩
      simp only [hok]
      rfl

/-- A shard number that nobody serves adds one entry for each table. -/
theorem length_shards_of_adds {k : ℕ} (hsame : ∀ t, cfg.numShards t = k) (h : Owned cfg ws)
    (hid : id.shard < k) {v : Fin n} (hfree : id ∉ (ws v).shards) {x : WorkerState m}
    (hadds : WorkerState.Adds cfg.numShards id.shard (ws v) (List.finRange m) x) :
    x.shards.length = (ws v).shards.length + m := by
  have hnew : ((List.finRange m).map fun table => (⟨table, id.shard⟩ : Taskid m)).Nodup :=
    (List.nodup_finRange m).map fun a b hab => congrArg Taskid.table hab
  have hmem : ∀ t, t ∈ (List.finRange m).map (fun table => (⟨table, id.shard⟩ : Taskid m)) ↔
      t.shard = id.shard := by
    intro t
    rw [List.mem_map]
    constructor
    · rintro ⟨table, -, rfl⟩
      rfl
    · exact fun ht => ⟨t.table, List.mem_finRange _, by rw [← ht]⟩
  have hperm : x.shards.Perm
      ((ws v).shards ++ (List.finRange m).map fun table => (⟨table, id.shard⟩ : Taskid m)) := by
    rw [List.perm_ext_iff_of_nodup (hadds.nodup (h.nodup v))]
    · intro t
      rw [hadds.shards, List.mem_append, hmem]
      simp only [List.mem_finRange, true_and, hsame, hid, and_true]
    · rw [List.nodup_append]
      refine ⟨h.nodup v, hnew, ?_⟩
      rintro t ht _ ht' rfl
      -- a worker with the shard number of another table serves that of this table too
      refine hfree (h.together ht ((hmem t).mp ht').symm ?_)
      rwa [hsame]
  rw [hperm.length_eq, List.length_append, List.length_map, List.length_finRange]

/-! ## All shards -/

/-- Dead workers serve nothing, and the numbers of entries of two workers that are alive
differ by at most the number of tables. -/
structure Balanced (cfg : Config n m) (ws : Fin n → WorkerState m) : Prop where
  dead : ∀ w, cfg.alive w = false → (ws w).shards = []
  alive : ∀ u v, cfg.alive u = true → cfg.alive v = true →
    (ws u).shards.length ≤ (ws v).shards.length + m

theorem Balanced.congr (h : Balanced cfg ws) (hshards : ∀ w, (ws' w).shards = (ws w).shards) :
    Balanced cfg ws' where
  dead w hw := (hshards w).trans (h.dead w hw)
  alive u v hu hv := by
    rw [hshards, hshards]
    exact h.alive u v hu hv

/-- A worker with the fewest entries is given one for each table. -/
theorem Balanced.update (h : Balanced cfg ws) {best : Fin n} (halive : cfg.alive best = true)
    (hleast : ∀ w, cfg.alive w = true → (ws best).shards.length ≤ (ws w).shards.length)
    {x : WorkerState m} (hlength : x.shards.length = (ws best).shards.length + m) :
    Balanced cfg (Function.update ws best x) where
  dead w hw := by
    have hne : w ≠ best := by
      rintro rfl
      rw [halive] at hw
      cases hw
    rw [Function.update_of_ne hne]
    exact h.dead w hw
  alive u v hu hv := by
    by_cases hub : u = best
    · subst hub
      by_cases hvb : v = u
      · rw [hvb]
        exact Nat.le_add_right ..
      · rw [Function.update_self, Function.update_of_ne hvb, hlength]
        exact Nat.add_le_add_right (hleast v hv) m
    · by_cases hvb : v = best
      · subst hvb
        rw [Function.update_self, Function.update_of_ne hub, hlength]
        exact (h.alive u v hu hv).trans (Nat.le_add_right ..)
      · rw [Function.update_of_ne hub, Function.update_of_ne hvb]
        exact h.alive u v hu hv

theorem Balanced.assignWorker {k : ℕ} (hsame : ∀ t, cfg.numShards t = k)
    (halive : ∃ w, cfg.alive w = true) (howned : Owned cfg ws) (h : Balanced cfg ws)
    (size : Taskid m → ℤ) (hid : id.shard < k) :
    ∃ ws', Scheduler.assignWorker cfg size id ws = .ok ws' ∧ Balanced cfg ws' := by
  have hid' : id.shard < cfg.numShards id.table := by rwa [hsame]
  rcases assignWorker_cases size hid' halive ws with
    ⟨v, -, hok⟩ | ⟨hfree, best, x, hbest, hadds, hok⟩
  · refine ⟨_, hok, h.congr fun w => ?_⟩
    by_cases hw : w = v
    · rw [hw, Function.update_self]
      rfl
    · rw [Function.update_of_ne hw]
  · obtain ⟨hbestAlive, hleast⟩ := leastShards_spec hbest
    have hlength := length_shards_of_adds hsame howned hid (hfree best) hadds
    exact ⟨_, hok, h.update hbestAlive hleast hlength⟩

/-- Every shard of every table is served by one worker, which is alive, and the shards are
spread evenly. -/
structure InitialAssignment (cfg : Config n m) (ws : Fin n → WorkerState m) : Prop where
  served : ∀ t : Taskid m, t.shard < cfg.numShards t.table →
    ∃ w, cfg.alive w = true ∧ (ws w).serves t = true ∧ ∀ w', (ws w').serves t = true → w' = w
  nodup : ∀ w, (ws w).shards.Nodup
  balanced : Balanced cfg ws

/-- What holds after the shards `before` have been assigned. -/
structure AssignedSoFar (cfg : Config n m) (before : List (Taskid m)) (ws : Fin n → WorkerState m) :
    Prop where
  owned : Owned cfg ws
  balanced : Balanced cfg ws
  served : ∀ t ∈ before, ∃ w, t ∈ (ws w).shards

theorem assignedSoFar_newWorkers (cfg : Config n m) : AssignedSoFar cfg [] newWorkers where
  owned := owned_newWorkers cfg
  balanced := ⟨fun _ _ => rfl, fun _ _ _ _ => Nat.zero_le _⟩
  served _ ht := absurd ht List.not_mem_nil

theorem AssignedSoFar.assignWorker {k : ℕ} (hsame : ∀ t, cfg.numShards t = k)
    (halive : ∃ w, cfg.alive w = true) {before : List (Taskid m)} (h : AssignedSoFar cfg before ws)
    (size : Taskid m → ℤ) (hid : id.shard < k) :
    EndsIn (fun _ => False) (AssignedSoFar cfg (before ++ [id]))
    (Scheduler.assignWorker cfg size id ws) := by
  obtain ⟨ws', hok, hbalanced⟩ := h.balanced.assignWorker hsame halive h.owned size hid
  have hassigns := assignWorker_spec h.owned size id
  rw [hok] at hassigns ⊢
  refine ⟨hassigns.owned, hbalanced, fun t ht => ?_⟩
  rcases List.mem_append.mp ht with hold | hnew
  · obtain ⟨w, hw⟩ := h.served t hold
    exact ⟨w, hassigns.grows hw⟩
  · rw [List.mem_singleton.mp hnew]
    exact hassigns.served

theorem AssignedSoFar.initialAssignment (h : AssignedSoFar cfg (allShards cfg) ws) :
    InitialAssignment cfg ws where
  served t ht := by
    obtain ⟨w, hw⟩ := h.served t (mem_allShards.mpr ht)
    refine ⟨w, ?_, decide_eq_true hw, fun w' hw' => h.owned.unique (of_decide_eq_true hw') hw⟩
    by_contra hdead
    rw [h.balanced.dead w (Bool.eq_false_of_not_eq_true hdead)] at hw
    cases hw
  nodup := h.owned.nodup
  balanced := h.balanced

/-- **The initial assignment is complete and balanced**, and there is always a worker left. -/
theorem assignTables_initial {k : ℕ} (hsame : ∀ t, cfg.numShards t = k)
    (halive : ∃ w, cfg.alive w = true) (size : Taskid m → ℤ) :
    ∃ ws, assignTables cfg size newWorkers = .ok ws ∧ InitialAssignment cfg ws := by
  have hloop : EndsIn (fun _ => False) (AssignedSoFar cfg (allShards cfg))
      (assignTables cfg size newWorkers) := by
    refine endsIn_forEach (allShards cfg) (fun before id after hall ws h => ?_)
      (assignedSoFar_newWorkers cfg)
    have hmem : id ∈ allShards cfg := by
      rw [hall]
      exact List.mem_append_right _ List.mem_cons_self
    apply h.assignWorker hsame halive size
    rw [← hsame id.table]
    exact mem_allShards.mp hmem
  obtain ⟨ws, hok, h⟩ := hloop.exists_ok
  exact ⟨ws, hok, h.initialAssignment⟩

/-- Two tables of three shards, and three workers of which one is dead. -/
def threeWorkers : Config 3 2 := ⟨fun _ => 3, fun w => w.val != 1⟩

theorem assignTables_initial_threeWorkers :
    ∃ ws, assignTables threeWorkers (fun _ => 0) newWorkers = .ok ws ∧
      InitialAssignment threeWorkers ws :=
  assignTables_initial (fun _ => rfl) ⟨⟨0, Nat.succ_pos 2⟩, rfl⟩ fun _ => 0

end MaiterStore.Scheduler
