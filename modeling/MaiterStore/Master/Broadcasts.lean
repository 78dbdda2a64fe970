/-
# What the master broadcasts

The master broadcasts table assignments, the two round trips at the end of a kernel, and, from
`restore`, the epoch of a checkpoint (`master/master.cc`). A worker registers its callbacks when it
is made (`worker/worker.cc`). `MTYPE_RESTORE` is not among them: `CheckForMasterUpdates` reads it
from the queue, and `Restore` sends an `MTYPE_RESTORE_DONE` that nobody reads. So a restore never
returns, while all other broadcasts always can.
-/

import MaiterStore.Util.BroadcastProgress

namespace MaiterStore

/-! `MessageTypes` (`util/common.proto`). -/

namespace MessageTypes

abbrev restore : ℕ := 13
abbrev workerFlush : ℕ := 15
abbrev shardAssignment : ℕ := 17
abbrev iterator : ℕ := 20
abbrev termination : ℕ := 22
abbrev workerApply : ℕ := 33
abbrev swapTable : ℕ := 35
abbrev clearTable : ℕ := 37
abbrev enableTrigger : ℕ := 38

end MessageTypes

open MessageTypes

/-- The types for which the constructor of `Worker` calls `RegisterCallback`. -/
def Worker.callbackTypes : List ℕ :=
  [shardAssignment, iterator, clearTable, swapTable, workerFlush, workerApply, enableTrigger,
    termination]

/-- Every process but the master is a worker. -/
structure WorkerCallbacks {n : ℕ} {M : Type*}
    (callbacks : Fin (n + 1) → ℕ → Option (CallbackInfo (Fin (n + 1)) M)) : Prop where
  isSome_iff : ∀ b, b ≠ 0 → ∀ type, (callbacks b type).isSome ↔ type ∈ Worker.callbackTypes

/-- The methods of `SyncBroadcast` in `send_table_assignments`, `barrier` and `restore`, and in
`swap` and `clear` of a table (`kernel/global-table.cc`). -/
def Master.broadcastTypes : List ℕ :=
  [shardAssignment, workerFlush, workerApply, MessageTypes.restore, swapTable, clearTable]

namespace Broadcaster

variable {n : ℕ} {M : Type*} [Inhabited M]

/-- **A restore never returns, and everything else can.** A sequence of broadcasts of a master with
at least one worker has a run in which all of them return if and only if none of them is that of
`restore`; and no call that returns in any run is that of `restore`. In these runs no other thread
sends requests with the methods of the broadcasts or takes replies to them, and there are fewer than
`kMaxHosts` processes and `kMaxMethods` tags. -/
theorem broadcasts_return_iff
    (callbacks : Fin (n + 2) → ℕ → Option (CallbackInfo (Fin (n + 2)) M))
    (hworker : WorkerCallbacks callbacks) (calls : List (ℕ × M))
    (hcalls : ∀ call ∈ calls, call.1 ∈ Master.broadcastTypes) :
    ((∃ events : List (Event (n + 1) M), (∀ e ∈ events, e.Foreign (calls.map Prod.fst)) ∧
        (events.foldl (step callbacks) (init calls)).returned = calls) ↔
      ∀ call ∈ calls, call.1 ≠ MessageTypes.restore) ∧
    ∀ events : List (Event (n + 1) M), (∀ e ∈ events, e.Foreign (calls.map Prod.fst)) →
      ∀ call ∈ (events.foldl (step callbacks) (init calls)).returned,
        call.1 ≠ MessageTypes.restore := by
  have hnever : ∀ events : List (Event (n + 1) M),
      (∀ e ∈ events, e.Foreign (calls.map Prod.fst)) →
      ∀ call ∈ (events.foldl (step callbacks) (init calls)).returned,
        call.1 ≠ MessageTypes.restore := by
    intro events hforeign call hcall hrestore
    -- a call only returns if all workers have a callback for it
    have hsome := isSome_of_returned hforeign hcall (b := Fin.last _) (Fin.last_pos).ne'
    have htype := (hworker.isSome_iff _ (Fin.last_pos).ne' _).mp hsome
    rw [hrestore] at htype
    revert htype
    decide
  refine ⟨⟨?_, ?_⟩, hnever⟩
  · rintro ⟨events, hforeign, hreturned⟩ call hcall
    exact hnever events hforeign call (by rwa [hreturned])
  · intro hne
    have hcb : ∀ b, b ≠ 0 → ∀ call ∈ calls, (callbacks b call.1).isSome := by
      intro b hb call hcall
      refine (hworker.isSome_iff b hb _).mpr ?_
      have htype := hcalls call hcall
      have hother := hne call hcall
      simp [Master.broadcastTypes, Worker.callbackTypes] at htype hother ⊢
      omega
    obtain ⟨events, hinternal, -, hreturned⟩ := exists_run_returned hcb [] (by simp)
    exact ⟨events, fun e he => (hinternal e he).foreign _, hreturned⟩

/-- A flush and a restore with two workers. -/
theorem broadcasts_return_iff_flush_restore :
    ¬ ∃ events : List (Event 2 ℕ),
      (∀ e ∈ events, e.Foreign ([(workerFlush, 0), (MessageTypes.restore, 7)].map Prod.fst)) ∧
      (events.foldl (step fun _ type =>
          if type ∈ Worker.callbackTypes then some ⟨type == workerFlush, fun _ m => m⟩ else none)
        (init [(workerFlush, 0), (MessageTypes.restore, 7)])).returned =
        [(workerFlush, 0), (MessageTypes.restore, 7)] := by
  have hworker : WorkerCallbacks (n := 2) (M := ℕ) fun _ type =>
      if type ∈ Worker.callbackTypes then some ⟨type == workerFlush, fun _ m => m⟩ else none := by
    refine ⟨fun b _ type => ?_⟩
    by_cases h : type ∈ Worker.callbackTypes <;> simp [h]
  have hiff := (broadcasts_return_iff _ hworker [(workerFlush, 0), (MessageTypes.restore, 7)]
    (by simp [Master.broadcastTypes])).1
  rw [hiff]
  simp

end Broadcaster

end MaiterStore
