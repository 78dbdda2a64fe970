/-
# The protocol of rolling checkpoints

`Master::checkpoint` (`master/master.cc`) sends `START_CHECKPOINT` to every worker and then
reads one `CHECKPOINT_DONE` from each of them. A worker starts a checkpoint when it reads
the message of the master, or when the marker of a peer comes first, and sends markers to
all workers, itself included. It finishes when it has the markers of all of them
(`worker/worker.cc`).

Messages are read in any order. Since the master waits for all workers, the markers under
way are all of the current epoch, and a worker has the marker of a peer, or it is still
under way, or the peer has not started. So a worker finishes an epoch once.
-/

import Mathlib.Data.Fintype.Basic
import Mathlib.Data.List.Count
import MaiterStore.CS.Run
import MaiterStore.Worker.Checkpoint

namespace MaiterStore

open CS.Run

/-- `peers_[peer]->epoch = peer_epoch`. -/
def Checkpointer.setPeer {ι : Type*} [DecidableEq ι] (peer : ι) (epoch : ℕ) (c : Checkpointer ι) :
    Checkpointer ι :=
  { c with peers := Function.update c.peers peer epoch }

section SetPeer

variable {ι : Type*} [DecidableEq ι] {c : Checkpointer ι} {u v : ι} {epoch : ℕ}

@[simp] theorem Checkpointer.setPeer_epoch : (c.setPeer u epoch).epoch = c.epoch := rfl

@[simp] theorem Checkpointer.setPeer_peers_self : (c.setPeer u epoch).peers u = epoch :=
  Function.update_self ..

theorem Checkpointer.setPeer_peers_of_ne (hv : v ≠ u) :
    (c.setPeer u epoch).peers v = c.peers v :=
  Function.update_of_ne hv ..

end SetPeer

namespace Rolling

/-! ## Master and workers -/

/-- What a worker does for a checkpoint. -/
inductive Event (n : ℕ)
  /-- The table part of `StartCheckpoint`. -/
  | tables (epoch : ℕ)
  /-- The marker of a peer has been processed. -/
  | marker (peer : Fin n) (epoch : ℕ)
  /-- `FinishCheckpoint`. -/
  | finish (epoch : ℕ)
  deriving DecidableEq, Repr

/-- Where the master is in `checkpoint`. -/
inductive Phase
  | idle
  /-- The loop of `start_checkpoint` has come to a worker. -/
  | starting (next : ℕ)
  /-- The loop of `finish_checkpoint` has come to a worker. -/
  | finishing (next : ℕ)
  /-- A `CHECK` has failed. -/
  | aborted
  deriving DecidableEq, Repr

/-- The master has sent `START_CHECKPOINT` to worker `w` in this epoch. -/
def Phase.asked : Phase → ℕ → Prop
  | .starting next, w => w < next
  | .idle, _ | .finishing _, _ => True
  | .aborted, _ => False

/-- The master has read the reply of worker `w` in this epoch. -/
def Phase.read : Phase → ℕ → Bool
  | .idle, _ => true
  | .finishing next, w => w < next
  | .starting _, _ | .aborted, _ => false

/-- The flag `checkpointing` of worker `w`. -/
def Phase.flag : Phase → ℕ → Bool
  | .starting next, w => w < next
  | .finishing next, w => next ≤ w
  | .idle, _ | .aborted, _ => false

/-- The master and `n` workers. `checkpointing` is the flag that the master keeps for a
worker, `starts` and `markers` hold the unread messages, and `dones` counts the unread
`CHECKPOINT_DONE` messages. For the statements, `log` records what a worker has done, and
`receipts` the replies that the master has read, with the epoch it was in. -/
structure Job (n : ℕ) where
  epoch : ℕ
  phase : Phase
  checkpointing : Fin n → Bool
  workers : Fin n → Checkpointer (Fin n)
  starts : Fin n → List ℕ
  markers : Fin n → Fin n → List ℕ
  dones : Fin n → ℕ
  log : Fin n → List (Event n)
  receipts : List (Fin n × ℕ)

namespace Job

variable {n : ℕ}

def init : Job n :=
  ⟨0, .idle, fun _ => false, fun _ => .init, fun _ => [], fun _ _ => [], fun _ => 0,
    fun _ => [], []⟩

/-- Worker `w` with the state `c` and one more event. -/
def act (s : Job n) (w : Fin n) (c : Checkpointer (Fin n)) (e : Event n) : Job n :=
  { s with
    workers := Function.update s.workers w c
    log := Function.update s.log w (s.log w ++ [e]) }

/-- `StartCheckpoint(epoch, CP_ROLLING)` on worker `w`. -/
def startCheckpoint (w : Fin n) (epoch : ℕ) (s : Job n) : Job n :=
  match (s.workers w).startCheckpoint epoch .rolling with
  -- `epoch_ >= epoch`: the checkpoint is skipped
  | none => s
  | some c =>
    { s.act w c (.tables epoch) with
      markers := fun u v => if u = w then s.markers u v ++ [epoch] else s.markers u v }

/-- `FinishCheckpoint()` on worker `w`. -/
def finishCheckpoint (w : Fin n) (s : Job n) : Job n :=
  { s.act w (s.workers w).finishCheckpoint (.finish (s.workers w).epoch) with
    dones := Function.update s.dones w (s.dones w + 1) }

/-- `UpdateEpoch(peer, peer_epoch)` on worker `w`, after the test for a new epoch. -/
def markPeer (w peer : Fin n) (epoch : ℕ) (s : Job n) : Job n :=
  let c := (s.workers w).setPeer peer epoch
  let s := s.act w c (.marker peer epoch)
  if ∀ u, c.peers u = c.epoch then s.finishCheckpoint w else s

/-- `UpdateEpoch(peer, peer_epoch)` on worker `w`. -/
def updateEpoch (w peer : Fin n) (epoch : ℕ) (s : Job n) : Job n :=
  (if (s.workers w).epoch < epoch then s.startCheckpoint w epoch else s).markPeer w peer epoch

/-- The next thing the master does. -/
def advance (s : Job n) : Job n :=
  match s.phase with
  | .idle => { s with epoch := s.epoch + 1, phase := .starting 0 }
  | .starting i =>
    if h : i < n then
      let w : Fin n := ⟨i, h⟩
      if s.checkpointing w then { s with phase := .starting (i + 1) }
      else
        { s with
          phase := .starting (i + 1)
          checkpointing := Function.update s.checkpointing w true
          starts := Function.update s.starts w (s.starts w ++ [s.epoch]) }
    else { s with phase := .finishing 0 }
  | .finishing i =>
    if h : i < n then
      let w : Fin n := ⟨i, h⟩
      -- `CHECK_EQ(workers_[worker_id]->checkpointing, true)`
      if s.checkpointing w = false then { s with phase := .aborted }
      else
        match s.dones w with
        -- `network_->Read` waits for a reply
        | 0 => s
        | k + 1 =>
          { s with
            phase := .finishing (i + 1)
            checkpointing := Function.update s.checkpointing w false
            dones := Function.update s.dones w k
            receipts := s.receipts ++ [(w, s.epoch)] }
    else { s with phase := .idle }
  | .aborted => s

/-- Worker `w` takes a `START_CHECKPOINT` from its queue. -/
def takeStart (w : Fin n) (epoch : ℕ) (s : Job n) : Job n :=
  { s with starts := Function.update s.starts w ((s.starts w).erase epoch) }

/-- Worker `w` takes a marker of `peer` from its queue. -/
def takeMarker (peer w : Fin n) (epoch : ℕ) (s : Job n) : Job n :=
  { s with markers := fun u v =>
      if u = peer ∧ v = w then (s.markers u v).erase epoch else s.markers u v }

section Act

variable (s : Job n) (w : Fin n) (c : Checkpointer (Fin n)) (e : Event n)

@[simp] theorem act_workers_self : (s.act w c e).workers w = c := Function.update_self ..

@[simp] theorem act_log_self : (s.act w c e).log w = s.log w ++ [e] := Function.update_self ..

@[simp] theorem finishCheckpoint_workers_self :
    (s.finishCheckpoint w).workers w = (s.workers w).finishCheckpoint :=
  Function.update_self ..

@[simp] theorem finishCheckpoint_log_self :
    (s.finishCheckpoint w).log w = s.log w ++ [.finish (s.workers w).epoch] :=
  Function.update_self ..

@[simp] theorem finishCheckpoint_dones_self : (s.finishCheckpoint w).dones w = s.dones w + 1 :=
  Function.update_self ..

end Act

/-- What can happen next. -/
inductive Action (n : ℕ)
  | advance
  /-- Worker `w` reads one of its `START_CHECKPOINT` messages. -/
  | readStart (w : Fin n) (epoch : ℕ)
  /-- Worker `w` reads one of the markers of `peer`. -/
  | readMarker (peer w : Fin n) (epoch : ℕ)
  deriving DecidableEq, Repr

/-- One action. A message that is not there cannot be read. -/
def step (s : Job n) : Action n → Job n
  | .advance => s.advance
  | .readStart w epoch =>
    if epoch ∈ s.starts w then (s.takeStart w epoch).startCheckpoint w epoch else s
  | .readMarker peer w epoch =>
    if epoch ∈ s.markers peer w then (s.takeMarker peer w epoch).updateEpoch w peer epoch else s

/-! ## What a worker has done -/

/-- The log of a worker after `k` epochs: for each of them the tables, the markers of all
peers in some order, and the end. -/
inductive History : ℕ → List (Event n) → Prop
  | nil : History 0 []
  | epoch {k : ℕ} {log : List (Event n)} {peers : List (Fin n)} (hlog : History k log)
      (hnodup : peers.Nodup) (hall : ∀ u, u ∈ peers) :
      History (k + 1)
        (log ++ .tables (k + 1) :: (peers.map fun u => .marker u (k + 1)) ++ [.finish (k + 1)])

/-- The state of a worker while the master is in `epoch`. -/
inductive Fits (epoch : ℕ) (c : Checkpointer (Fin n)) (log : List (Event n)) : Prop
  /-- It has not started the checkpoint. -/
  | before (hepoch : epoch = c.epoch + 1) (hlog : History c.epoch log) (hactive : c.active = .none)
      (hpeers : ∀ u, c.peers u = c.epoch)
  /-- It has the markers of some peers. -/
  | inside (k : ℕ) (log₀ : List (Event n)) (peers : List (Fin n)) (hepoch : c.epoch = epoch)
      (hk : epoch = k + 1) (hlog₀ : History k log₀)
      (hlog : log = log₀ ++ .tables epoch :: peers.map fun u => .marker u epoch)
      (hnodup : peers.Nodup) (hactive : c.active = .rolling)
      (hpeers : ∀ u, c.peers u = if u ∈ peers then epoch else k) (hopen : ∃ u, u ∉ peers)
  /-- It has sent its reply, or there was no checkpoint yet. -/
  | done (hepoch : c.epoch = epoch) (hlog : History epoch log) (hactive : c.active = .none)
      (hpeers : ∀ u, c.peers u = epoch)

/-- What holds in every state. A marker is under way if its sender has started the current
epoch and its receiver has not read it. -/
structure Inv (s : Job n) : Prop where
  fits : ∀ w, Fits s.epoch (s.workers w) (s.log w)
  seen : ∀ u w, (s.workers w).peers u = s.epoch → (s.workers u).epoch = s.epoch
  markers : ∀ u w, s.markers u w =
    if (s.workers u).epoch = s.epoch ∧ (s.workers w).peers u ≠ s.epoch then [s.epoch] else []
  starts : ∀ w, ∀ e ∈ s.starts w, e ≤ s.epoch
  asked : ∀ w : Fin n, s.phase.asked w → (s.workers w).epoch ≠ s.epoch → s.epoch ∈ s.starts w
  dones : ∀ w : Fin n, s.dones w =
    if .finish s.epoch ∈ s.log w ∧ s.phase.read w = false then 1 else 0
  read : ∀ w : Fin n, s.phase.read w = true →
    (s.workers w).epoch = s.epoch ∧ (s.workers w).active = .none
  flags : ∀ w : Fin n, s.checkpointing w = s.phase.flag w
  receipts : ∀ (w : Fin n) e, s.receipts.count (w, e) =
    if 1 ≤ e ∧ (e < s.epoch ∨ e = s.epoch ∧ s.phase.read w = true) then 1 else 0
  running : s.phase ≠ .aborted
  started : s.phase = .idle ∨ 1 ≤ s.epoch

theorem inv_init : Inv (init : Job n) where
  fits w := .done rfl .nil rfl fun _ => rfl
  seen _ _ _ := rfl
  markers u w := by simp [init, Checkpointer.init]
  starts w e he := absurd he List.not_mem_nil
  asked w _ hne := absurd rfl hne
  dones w := by simp [init]
  read w _ := ⟨rfl, rfl⟩
  flags w := rfl
  receipts w e := by
    have hcond : ¬ (1 ≤ e ∧ (e < 0 ∨ e = 0 ∧ Phase.idle.read w = true)) := by omega
    exact (if_neg hcond).symm
  running := nofun
  started := .inl rfl

/-! ### Counting in the log -/

section History

variable {k e : ℕ} {log : List (Event n)}

theorem count_markers (peers : List (Fin n)) {x : Event n} (hx : ∀ u, x ≠ .marker u k) :
    (peers.map fun u => (.marker u k : Event n)).count x = 0 := by
  refine List.count_eq_zero.mpr fun hmem => ?_
  obtain ⟨u, -, hu⟩ := List.mem_map.mp hmem
  exact hx u hu.symm

/-- The tables are checkpointed once in each epoch, and each epoch is finished once. -/
theorem History.count_eq (h : History k log) {x : Event n} (hx : x = .tables e ∨ x = .finish e) :
    log.count x = if 1 ≤ e ∧ e ≤ k then 1 else 0 := by
  induction h with
  | nil => rw [if_neg (by omega), List.count_nil]
  | @epoch k log peers hlog hnodup hall ih =>
    rw [List.count_append, List.count_append, ih, List.count_cons, count_markers peers,
      List.count_singleton]
    · by_cases hek : e = k + 1
      · rcases hx with rfl | rfl <;> simp [hek]
      · have hiff : 1 ≤ e ∧ e ≤ k ↔ 1 ≤ e ∧ e ≤ k + 1 := by omega
        rcases hx with rfl | rfl <;> simp [Ne.symm hek, hiff]
    · rcases hx with rfl | rfl <;> simp

theorem History.finish_mem_iff (h : History k log) : .finish e ∈ log ↔ 1 ≤ e ∧ e ≤ k := by
  rw [← List.count_pos_iff, h.count_eq (.inr rfl)]
  split_ifs with hcond
  · simp [hcond]
  · simp [hcond]

/-- The tables and the markers of an epoch come before its end, also where the epoch is not
finished. -/
def Ordered (log : List (Event n)) : Prop :=
  ∀ before after e, log = before ++ .finish e :: after →
    .tables e ∈ before ∧ ∀ u, .marker u e ∈ before

theorem ordered_nil : Ordered ([] : List (Event n)) := by
  intro before after e h
  simp at h

theorem Ordered.concat (h : Ordered log) {x : Event n}
    (hx : ∀ e, x = .finish e → .tables e ∈ log ∧ ∀ u, .marker u e ∈ log) :
    Ordered (log ++ [x]) := by
  intro before after e heq
  rcases List.eq_nil_or_concat after with rfl | ⟨after', y, rfl⟩
  · obtain ⟨rfl, hlast⟩ := List.append_inj' heq rfl
    exact hx e (List.cons.inj hlast).1
  · have heq' : log ++ [x] = (before ++ .finish e :: after') ++ [y] := by
      rw [heq]
      simp
    obtain ⟨hlog, -⟩ := List.append_inj' heq' rfl
    exact h before after' e hlog

theorem Ordered.append (h : Ordered log) {xs : List (Event n)} (hxs : ∀ e, .finish e ∉ xs) :
    Ordered (log ++ xs) := by
  induction xs generalizing log with
  | nil => rwa [List.append_nil]
  | cons x xs ih =>
    rw [List.append_cons]
    refine ih (h.concat fun e hx => ?_) fun e hmem => hxs e (List.mem_cons_of_mem _ hmem)
    exact absurd (hx ▸ List.mem_cons_self) (hxs e)

theorem History.ordered (h : History k log) : Ordered log := by
  induction h with
  | nil => exact ordered_nil
  | @epoch k log peers hlog hnodup hall ih =>
    refine (ih.append (by simp)).concat fun e he => ?_
    cases he
    exact ⟨by simp, fun u => by simp [hall u]⟩

end History

/-! ### A worker in an epoch -/

section Worker

variable {epoch : ℕ} {c : Checkpointer (Fin n)} {log : List (Event n)} {u : Fin n}

theorem Fits.epoch_le (h : Fits epoch c log) : c.epoch ≤ epoch := by
  cases h with
  | before hepoch => omega
  | inside _ _ _ hepoch => exact hepoch.le
  | done hepoch => exact hepoch.le

/-- A worker that is not in the epoch is in the one before. -/
theorem Fits.of_ne (h : Fits epoch c log) (hne : c.epoch ≠ epoch) :
    epoch = c.epoch + 1 ∧ History c.epoch log ∧ ∀ u, c.peers u = c.epoch := by
  cases h with
  | before hepoch hlog _ hpeers => exact ⟨hepoch, hlog, hpeers⟩
  | inside _ _ _ hepoch => exact absurd hepoch hne
  | done hepoch => exact absurd hepoch hne

/-- `FinishCheckpoint` has run for an epoch if the worker is in it and not in a checkpoint. -/
theorem Fits.finish_mem_iff (h : Fits epoch c log) :
    .finish epoch ∈ log ↔ 1 ≤ epoch ∧ c.epoch = epoch ∧ c.active = .none := by
  cases h with
  | before hepoch hlog =>
    rw [hlog.finish_mem_iff]
    constructor <;> intro <;> omega
  | inside k log₀ peers hepoch hk hlog₀ hlog _ hactive =>
    refine iff_of_false ?_ fun h => CheckpointType.noConfusion (hactive.symm.trans h.2.2)
    rw [hlog, List.mem_append, hlog₀.finish_mem_iff]
    simp only [List.mem_cons, List.mem_map, reduceCtorEq, and_false, exists_false, or_false]
    omega
  | done hepoch hlog hactive =>
    rw [hlog.finish_mem_iff]
    exact ⟨fun h => ⟨h.1, hepoch, hactive⟩, fun h => ⟨h.1, le_refl _⟩⟩

/-- A worker that waits for a marker is in the checkpoint. -/
theorem Fits.rolling (h : Fits epoch c log) (hepoch : c.epoch = epoch) (hpeer : c.peers u ≠ epoch) :
    c.active = .rolling := by
  cases h with
  | before hbefore => omega
  | inside _ _ _ _ _ _ _ _ hactive => exact hactive
  | done _ _ _ hpeers => exact absurd (hpeers u) hpeer

/-- The table part of `StartCheckpoint`. -/
theorem Fits.start (h : Fits epoch c log) (hne : c.epoch ≠ epoch) (w : Fin n) :
    Fits epoch { c with epoch := epoch, active := .rolling } (log ++ [.tables epoch]) := by
  obtain ⟨hepoch, hlog, hpeers⟩ := h.of_ne hne
  exact .inside c.epoch log [] rfl hepoch hlog rfl List.nodup_nil rfl
    (fun u => (hpeers u).trans (if_neg List.not_mem_nil).symm) ⟨w, List.not_mem_nil⟩

/-- The marker of a peer is processed. With the last one the checkpoint is finished. -/
theorem Fits.setPeer (h : Fits epoch c log) (hepoch : c.epoch = epoch) (hpeer : c.peers u ≠ epoch) :
    ((∀ v, (c.setPeer u epoch).peers v = c.epoch) →
      Fits epoch (c.setPeer u epoch).finishCheckpoint
        (log ++ [.marker u epoch] ++ [.finish epoch])) ∧
    ((¬ ∀ v, (c.setPeer u epoch).peers v = c.epoch) →
      Fits epoch (c.setPeer u epoch) (log ++ [.marker u epoch])) := by
  cases h with
  | before hbefore => omega
  | done _ _ _ hpeers => exact absurd (hpeers u) hpeer
  | inside k log₀ peers _ hk hlog₀ hlog hnodup hactive hpeers =>
    have hu : u ∉ peers := fun hmem => hpeer ((hpeers u).trans (if_pos hmem))
    have hnodup' : (peers ++ [u]).Nodup := by
      rw [List.nodup_append_comm]
      exact List.nodup_cons.mpr ⟨hu, hnodup⟩
    have hlog' : log ++ [.marker u epoch] =
        log₀ ++ .tables epoch :: (peers ++ [u]).map fun v => .marker v epoch := by
      rw [hlog]
      simp
    have hpeers' : ∀ v, (c.setPeer u epoch).peers v = if v ∈ peers ++ [u] then epoch else k := by
      intro v
      rcases eq_or_ne v u with rfl | hv
      · simp
      · simp [Checkpointer.setPeer_peers_of_ne hv, hpeers, hv]
    -- the finish test says that all peers are in the list
    have htest : (∀ v, (c.setPeer u epoch).peers v = c.epoch) ↔ ∀ v, v ∈ peers ++ [u] := by
      refine forall_congr' fun v => ?_
      rw [hpeers', hepoch]
      split_ifs with hv
      · simp [hv]
      · exact iff_of_false (by omega) hv
    constructor
    · intro hall
      have hdone : History epoch (log ++ [.marker u epoch] ++ [.finish epoch]) := by
        rw [hlog', hk]
        exact .epoch hlog₀ hnodup' (htest.mp hall)
      exact .done hepoch hdone rfl fun _ => hepoch
    · intro hall
      refine .inside k log₀ _ hepoch hk hlog₀ hlog' hnodup' hactive hpeers' ?_
      by_contra hopen
      exact hall (htest.mpr fun v => not_not.mp fun hv => hopen ⟨v, hv⟩)

end Worker

/-! ### What a step preserves -/

section Step

variable {s : Job n}

/-- Only worker `w` and the markers are changed. -/
structure Changes (w : Fin n) (s s' : Job n) : Prop where
  epoch : s'.epoch = s.epoch
  phase : s'.phase = s.phase
  checkpointing : s'.checkpointing = s.checkpointing
  starts : s'.starts = s.starts
  receipts : s'.receipts = s.receipts
  workers : ∀ v, v ≠ w → s'.workers v = s.workers v
  log : ∀ v, v ≠ w → s'.log v = s.log v
  dones : ∀ v, v ≠ w → s'.dones v = s.dones v

/-- What has to be shown of a change of one worker that is now in the current epoch. -/
theorem Inv.of_changes (hs : Inv s) {s' : Job n} {w : Fin n} (h : Changes w s s')
    (hfits : Fits s.epoch (s'.workers w) (s'.log w)) (hepoch : (s'.workers w).epoch = s.epoch)
    (hseen : ∀ u, (s'.workers w).peers u = s.epoch → (s'.workers u).epoch = s.epoch)
    (hmarkers : ∀ u v, s'.markers u v =
      if (s'.workers u).epoch = s.epoch ∧ (s'.workers v).peers u ≠ s.epoch then [s.epoch] else [])
    (hread : s.phase.read w = false)
    (hdones : s'.dones w = if .finish s.epoch ∈ s'.log w then 1 else 0) : Inv s' where
  -- worker `w` by what is shown of it, all others as before
  fits v := by
    rw [h.epoch]
    rcases eq_or_ne v w with rfl | hv
    · exact hfits
    · rw [h.workers v hv, h.log v hv]
      exact hs.fits v
  seen u v hpeer := by
    rw [h.epoch] at hpeer ⊢
    rcases eq_or_ne v w with rfl | hv
    · exact hseen u hpeer
    · rw [h.workers v hv] at hpeer
      rcases eq_or_ne u w with rfl | hu
      · exact hepoch
      · rw [h.workers u hu]
        exact hs.seen u v hpeer
  markers u v := by
    rw [h.epoch]
    exact hmarkers u v
  starts v e he := by
    rw [h.starts] at he
    rw [h.epoch]
    exact hs.starts v e he
  asked v hv hne := by
    rw [h.epoch] at hne ⊢
    rw [h.phase] at hv
    rw [h.starts]
    rcases eq_or_ne v w with rfl | hvw
    · exact absurd hepoch hne
    · rw [h.workers v hvw] at hne
      exact hs.asked v hv hne
  dones v := by
    rw [h.epoch, h.phase]
    rcases eq_or_ne v w with rfl | hv
    · simpa only [hread, and_true] using hdones
    · rw [h.dones v hv, h.log v hv]
      exact hs.dones v
  read v hv := by
    rw [h.phase] at hv
    have hvw : v ≠ w := by
      rintro rfl
      exact Bool.false_ne_true (hread.symm.trans hv)
    rw [h.workers v hvw, h.epoch]
    exact hs.read v hv
  flags v := by
    rw [h.checkpointing, h.phase]
    exact hs.flags v
  receipts v e := by
    rw [h.receipts, h.epoch, h.phase]
    exact hs.receipts v e
  running := h.phase ▸ hs.running
  started := by
    rw [h.phase, h.epoch]
    exact hs.started

/-- No peer has the marker of a worker that has not started. -/
theorem Inv.peers_ne (hs : Inv s) {w : Fin n} (hne : (s.workers w).epoch ≠ s.epoch) (v : Fin n) :
    (s.workers v).peers w ≠ s.epoch :=
  fun hpeer => hne (hs.seen w v hpeer)

theorem startCheckpoint_of_le {w : Fin n} {e : ℕ} (hle : e ≤ (s.workers w).epoch) :
    s.startCheckpoint w e = s := by
  rw [startCheckpoint, Checkpointer.startCheckpoint, if_pos hle]

theorem startCheckpoint_of_lt {w : Fin n} {e : ℕ} (hlt : (s.workers w).epoch < e) :
    s.startCheckpoint w e =
      { s.act w { s.workers w with epoch := e, active := .rolling } (.tables e) with
        markers := fun u v => if u = w then s.markers u v ++ [e] else s.markers u v } := by
  rw [startCheckpoint, Checkpointer.startCheckpoint, if_neg (Nat.not_le_of_lt hlt)]

theorem epoch_startCheckpoint (s : Job n) (w : Fin n) (e : ℕ) :
    (s.startCheckpoint w e).epoch = s.epoch := by
  rcases Nat.lt_or_ge (s.workers w).epoch e with hlt | hle
  · rw [startCheckpoint_of_lt hlt]
    rfl
  · rw [startCheckpoint_of_le hle]

theorem Inv.epoch_lt (hs : Inv s) {w : Fin n} (hne : (s.workers w).epoch ≠ s.epoch) :
    (s.workers w).epoch < s.epoch :=
  lt_of_le_of_ne (hs.fits w).epoch_le hne

/-- A worker that the master has read a reply of is in the epoch and not in a checkpoint. -/
theorem Inv.read_eq_false (hs : Inv s) {w : Fin n}
    (h : ¬ ((s.workers w).epoch = s.epoch ∧ (s.workers w).active = .none)) :
    s.phase.read w = false :=
  Bool.eq_false_iff.mpr fun hread => h (hs.read w hread)

/-- The first message of the epoch starts the checkpoint, and the markers go out. -/
theorem Inv.startCheckpoint (hs : Inv s) {w : Fin n} (hne : (s.workers w).epoch ≠ s.epoch) :
    Inv (s.startCheckpoint w s.epoch) ∧
      ((s.startCheckpoint w s.epoch).workers w).epoch = s.epoch := by
  have hfits := (hs.fits w).start hne w
  -- the worker is inside the epoch from now on, so it has not finished it
  have hno : .finish s.epoch ∉ s.log w ++ [.tables s.epoch] := fun hmem => by
    have h := hfits.finish_mem_iff.mp hmem
    exact CheckpointType.noConfusion h.2.2
  have hdone : s.dones w = 0 := by
    rw [hs.dones, if_neg fun h => hne ((hs.fits w).finish_mem_iff.mp h.1).2.1]
  rw [startCheckpoint_of_lt (hs.epoch_lt hne), act]
  have hself : ∀ c : Checkpointer (Fin n), Function.update s.workers w c w = c :=
    fun c => Function.update_self ..
  have hpeers : ∀ v, (Function.update s.workers w
      { s.workers w with epoch := s.epoch, active := .rolling } v).peers = (s.workers v).peers := by
    intro v
    rcases eq_or_ne v w with rfl | hv
    · rw [hself]
    · rw [Function.update_of_ne hv]
  have hepoch : ∀ u, (Function.update s.workers w
      { s.workers w with epoch := s.epoch, active := .rolling } u).epoch = s.epoch ↔
        (s.workers u).epoch = s.epoch ∨ u = w := by
    intro u
    rcases eq_or_ne u w with rfl | hu
    · rw [hself]
      simp
    · rw [Function.update_of_ne hu]
      simp [hu]
  refine ⟨hs.of_changes (w := w) ⟨rfl, rfl, rfl, rfl, rfl, fun v hv => Function.update_of_ne hv ..,
    fun v hv => Function.update_of_ne hv .., fun _ _ => rfl⟩ ?_ ?_ ?_ ?_ ?_ ?_, ?_⟩
  · simpa only [Function.update_self] using hfits
  · exact (hepoch w).mpr (.inr rfl)
  · intro u hpeer
    rw [hpeers] at hpeer
    exact (hepoch u).mpr (.inl (hs.seen u w hpeer))
  · intro u v
    dsimp only
    rw [hpeers, hs.markers]
    rcases eq_or_ne u w with rfl | hu
    · -- the worker had not started, so no peer has its marker
      have hpeer := hs.peers_ne hne v
      simp [hne, hpeer]
    · simp [hu]
  · exact hs.read_eq_false fun h => hne h.1
  · simp only [Function.update_self, hdone]
    rw [if_neg hno]
  · exact (hepoch w).mpr (.inr rfl)

/-- What a marker under way says. -/
theorem Inv.of_mem_markers (hs : Inv s) {u w : Fin n} {e : ℕ} (hmem : e ∈ s.markers u w) :
    e = s.epoch ∧ (s.workers u).epoch = s.epoch ∧ (s.workers w).peers u ≠ s.epoch ∧
      s.markers u w = [s.epoch] := by
  have hlist := hs.markers u w
  split_ifs at hlist with hcond
  · rw [hlist, List.mem_singleton] at hmem
    exact ⟨hmem, hcond.1, hcond.2, hlist⟩
  · rw [hlist] at hmem
    exact absurd hmem List.not_mem_nil

/-- A marker has been read and noted, whether the checkpoint is finished with it or not. -/
theorem Inv.of_marked (hs : Inv s) {s' : Job n} {u w : Fin n} (hmem : s.epoch ∈ s.markers u w)
    (hepoch : (s.workers w).epoch = s.epoch) (h : Changes w s s')
    (hfits : Fits s.epoch (s'.workers w) (s'.log w)) (hepoch' : (s'.workers w).epoch = s.epoch)
    (hpeers : ∀ x, (s'.workers w).peers x = ((s.workers w).setPeer u s.epoch).peers x)
    (hmarkers : s'.markers = (s.takeMarker u w s.epoch).markers)
    (hdones : s'.dones w = if .finish s.epoch ∈ s'.log w then 1 else 0) : Inv s' := by
  obtain ⟨-, hu, hpeer, hlist⟩ := hs.of_mem_markers hmem
  -- who is in the epoch does not change, so of the markers only the one read is gone
  have hepochs : ∀ v, (s'.workers v).epoch = s.epoch ↔ (s.workers v).epoch = s.epoch := by
    intro v
    rcases eq_or_ne v w with rfl | hv
    · exact iff_of_true hepoch' hepoch
    · rw [h.workers v hv]
  refine hs.of_changes h hfits hepoch' (fun x hx => ?_) (fun a b => ?_)
    (hs.read_eq_false fun hread => ?_) hdones
  · rw [hepochs]
    rw [hpeers] at hx
    rcases eq_or_ne x u with rfl | hxu
    · exact hu
    · rw [Checkpointer.setPeer_peers_of_ne hxu] at hx
      exact hs.seen x w hx
  · rw [hmarkers, takeMarker]
    dsimp only
    simp only [hepochs]
    rcases eq_or_ne b w with rfl | hb
    · rw [hpeers]
      rcases eq_or_ne a u with rfl | ha
      · simp [hlist]
      · simp [ha, hs.markers, Checkpointer.setPeer_peers_of_ne ha]
    · rw [h.workers b hb, if_neg fun hab => hb hab.2, hs.markers]
  · exact CheckpointType.noConfusion (((hs.fits w).rolling hepoch hpeer).symm.trans hread.2)

theorem changes_act (s : Job n) (w : Fin n) (c : Checkpointer (Fin n)) (e : Event n) :
    Changes w s (s.act w c e) :=
  ⟨rfl, rfl, rfl, rfl, rfl, fun _ hv => Function.update_of_ne hv .., fun _ hv =>
    Function.update_of_ne hv .., fun _ _ => rfl⟩

theorem changes_finishCheckpoint (s : Job n) (w : Fin n) : Changes w s (s.finishCheckpoint w) :=
  ⟨rfl, rfl, rfl, rfl, rfl, fun _ hv => Function.update_of_ne hv .., fun _ hv =>
    Function.update_of_ne hv .., fun _ hv => Function.update_of_ne hv ..⟩

theorem Changes.trans {s₁ s₂ : Job n} {w : Fin n} (h : Changes w s s₁) (h' : Changes w s₁ s₂) :
    Changes w s s₂ where
  epoch := h'.epoch.trans h.epoch
  phase := h'.phase.trans h.phase
  checkpointing := h'.checkpointing.trans h.checkpointing
  starts := h'.starts.trans h.starts
  receipts := h'.receipts.trans h.receipts
  workers v hv := (h'.workers v hv).trans (h.workers v hv)
  log v hv := (h'.log v hv).trans (h.log v hv)
  dones v hv := (h'.dones v hv).trans (h.dones v hv)

/-- A marker is processed by a worker that is in the epoch. -/
theorem Inv.markPeer (hs : Inv s) {u w : Fin n} (hmem : s.epoch ∈ s.markers u w)
    (hepoch : (s.workers w).epoch = s.epoch) :
    Inv ((s.takeMarker u w s.epoch).markPeer w u s.epoch) := by
  obtain ⟨-, -, hpeer, -⟩ := hs.of_mem_markers hmem
  obtain ⟨hlast, hopen⟩ := (hs.fits w).setPeer hepoch hpeer
  have hrolling := (hs.fits w).rolling hepoch hpeer
  -- a marker was missing, so `w` has not finished and sent no reply yet
  have hno : .finish s.epoch ∉ s.log w := fun hfinish =>
    CheckpointType.noConfusion (hrolling.symm.trans ((hs.fits w).finish_mem_iff.mp hfinish).2.2)
  have hnone : s.dones w = 0 := by
    rw [hs.dones, if_neg fun h => hno h.1]
  have htaken : Changes w s (s.takeMarker u w s.epoch) :=
    ⟨rfl, rfl, rfl, rfl, rfl, fun _ _ => rfl, fun _ _ => rfl, fun _ _ => rfl⟩
  have hmarked := htaken.trans
    (changes_act _ w ((s.workers w).setPeer u s.epoch) (.marker u s.epoch))
  have hcepoch : ((s.workers w).setPeer u s.epoch).epoch = s.epoch := hepoch
  by_cases htest : ∀ v, ((s.workers w).setPeer u s.epoch).peers v = (s.workers w).epoch
  · -- the checkpoint is finished, and the reply is sent
    have hstate : (s.takeMarker u w s.epoch).markPeer w u s.epoch =
        ((s.takeMarker u w s.epoch).act w ((s.workers w).setPeer u s.epoch)
          (.marker u s.epoch)).finishCheckpoint w := if_pos htest
    rw [hstate]
    refine hs.of_marked hmem hepoch (hmarked.trans (changes_finishCheckpoint _ w)) ?_ ?_
      (fun x => ?_) rfl ?_
    · rw [finishCheckpoint_workers_self, finishCheckpoint_log_self, act_workers_self, act_log_self,
        hcepoch]
      exact hlast htest
    · rw [finishCheckpoint_workers_self, act_workers_self]
      exact hcepoch
    · rw [htest]
      simp [Checkpointer.finishCheckpoint]
    · rw [finishCheckpoint_log_self, act_workers_self, hcepoch, if_pos (by simp),
        finishCheckpoint_dones_self]
      exact congrArg (· + 1) hnone
  · -- another marker is missing, and the log only gets this one
    have hstate : (s.takeMarker u w s.epoch).markPeer w u s.epoch =
        (s.takeMarker u w s.epoch).act w ((s.workers w).setPeer u s.epoch) (.marker u s.epoch) :=
      if_neg htest
    rw [hstate]
    refine hs.of_marked hmem hepoch hmarked ?_ ?_ (fun x => ?_) rfl ?_
    · rw [act_workers_self, act_log_self]
      exact hopen htest
    · rw [act_workers_self]
      exact hcepoch
    · rw [act_workers_self]
    · rw [act_log_self, if_neg]
      · exact hnone
      · rw [List.mem_append]
        rintro (hfinish | hfinish)
        · exact hno hfinish
        · simp at hfinish

/-- A marker is read, whether it starts the checkpoint or not. -/
theorem Inv.readMarker (hs : Inv s) (u w : Fin n) (e : ℕ) : Inv (s.step (.readMarker u w e)) := by
  rw [step]
  split_ifs with hmem
  · obtain ⟨rfl, hu, hpeer, hlist⟩ := hs.of_mem_markers hmem
    have hle := (hs.fits w).epoch_le
    rw [updateEpoch]
    split_ifs with hlt
    · have hne : (s.workers w).epoch ≠ s.epoch := Nat.ne_of_lt hlt
      obtain ⟨hstart, hepoch⟩ := hs.startCheckpoint hne
      have hepoch' := epoch_startCheckpoint s w s.epoch
      have huw : u ≠ w := by
        rintro rfl
        exact hne hu
      -- taking the marker and starting the checkpoint can be exchanged
      have hcomm : (s.takeMarker u w s.epoch).startCheckpoint w s.epoch =
          (s.startCheckpoint w s.epoch).takeMarker u w s.epoch := by
        rw [startCheckpoint_of_lt hlt, startCheckpoint_of_lt (hs.epoch_lt hne)]
        dsimp only [takeMarker, act]
        congr 1
        funext a b
        rcases eq_or_ne a w with rfl | ha
        · simp [huw.symm]
        · simp [ha]
      have hmem' : s.epoch ∈ (s.startCheckpoint w s.epoch).markers u w := by
        rw [startCheckpoint_of_lt (hs.epoch_lt hne)]
        simp [huw, hlist]
      have hfinal := hstart.markPeer (u := u) (w := w) (by rwa [hepoch']) (by rwa [hepoch'])
      rwa [hepoch', ← hcomm] at hfinal
    · have hepoch : (s.workers w).epoch = s.epoch := by
        have hnlt : ¬ (s.workers w).epoch < s.epoch := hlt
        omega
      exact hs.markPeer hmem hepoch
  · exact hs

/-- A `START_CHECKPOINT` is taken from the queue. It is one of an earlier epoch, or the
worker has started. -/
theorem Inv.takeStart (hs : Inv s) {w : Fin n} {e : ℕ}
    (h : (s.workers w).epoch ≠ s.epoch → e ≠ s.epoch) : Inv (s.takeStart w e) where
  fits := hs.fits
  seen := hs.seen
  markers := hs.markers
  starts v x hx := by
    rcases eq_or_ne v w with rfl | hv
    · have hx' : x ∈ (s.starts v).erase e := by
        simpa only [Job.takeStart, Function.update_self] using hx
      exact hs.starts v x (List.mem_of_mem_erase hx')
    · have hx' : x ∈ s.starts v := by
        simpa only [Job.takeStart, Function.update_of_ne hv] using hx
      exact hs.starts v x hx'
  asked v hv hne := by
    have hmem := hs.asked v hv hne
    rcases eq_or_ne v w with rfl | hvw
    · have hmem' : s.epoch ∈ (s.starts v).erase e := (List.mem_erase_of_ne (h hne).symm).mpr hmem
      simpa only [Job.takeStart, Function.update_self] using hmem'
    · simpa only [Job.takeStart, Function.update_of_ne hvw] using hmem
  dones := hs.dones
  read := hs.read
  flags := hs.flags
  receipts := hs.receipts
  running := hs.running
  started := hs.started

theorem Inv.readStart (hs : Inv s) (w : Fin n) (e : ℕ) : Inv (s.step (.readStart w e)) := by
  rw [step]
  split_ifs with hmem
  · have hle := hs.starts w e hmem
    by_cases hskip : e ≤ (s.workers w).epoch
    · -- the worker has started the epoch of this message before
      rw [startCheckpoint_of_le (s := s.takeStart w e) hskip]
      refine hs.takeStart fun hne he => ?_
      have := (hs.fits w).epoch_le
      omega
    · have hepoch_le := (hs.fits w).epoch_le
      have hne : (s.workers w).epoch ≠ s.epoch := by omega
      obtain rfl : e = s.epoch := by
        have := ((hs.fits w).of_ne hne).1
        omega
      obtain ⟨hstart, hepoch⟩ := hs.startCheckpoint hne
      have hepoch' := epoch_startCheckpoint s w s.epoch
      have hcomm : (s.takeStart w s.epoch).startCheckpoint w s.epoch =
          (s.startCheckpoint w s.epoch).takeStart w s.epoch := by
        rw [startCheckpoint_of_lt (hs.epoch_lt hne),
          startCheckpoint_of_lt (s := s.takeStart w s.epoch) (hs.epoch_lt hne)]
        rfl
      rw [hcomm]
      exact hstart.takeStart fun hne' => absurd (hepoch.trans hepoch'.symm) hne'
  · exact hs

/-- The next epoch starts when all workers have replied. -/
theorem Inv.advance_idle (hs : Inv s) (hphase : s.phase = .idle) :
    Inv { s with epoch := s.epoch + 1, phase := .starting 0 } := by
  -- the replies of all workers are read, so each has left the epoch
  have hdone : ∀ w, (s.workers w).epoch = s.epoch ∧ History s.epoch (s.log w) ∧
      (s.workers w).active = .none ∧ ∀ u, (s.workers w).peers u = s.epoch := by
    intro w
    obtain ⟨hepoch, hactive⟩ := hs.read w (by rw [hphase]; rfl)
    cases hs.fits w with
    | before hbefore => omega
    | inside _ _ _ _ _ _ _ _ hrolling =>
      exact CheckpointType.noConfusion (hrolling.symm.trans hactive)
    | done _ hlog _ hpeers => exact ⟨hepoch, hlog, hactive, hpeers⟩
  refine ⟨fun w => ?_, fun u w hpeer => ?_, fun u w => ?_, fun w e he => ?_, fun w hw => ?_,
    fun w => ?_, fun w hw => ?_, fun w => ?_, fun w e => ?_, nofun, .inr (Nat.succ_pos _)⟩
  · obtain ⟨hepoch, hlog, hactive, hpeers⟩ := hdone w
    exact .before (by rw [hepoch]) (hepoch ▸ hlog) hactive fun u => (hpeers u).trans hepoch.symm
  · have hold := (hdone w).2.2.2 u
    have hnew : (s.workers w).peers u = s.epoch + 1 := hpeer
    omega
  -- no marker is left over, and nobody has sent one for the new epoch
  · have hne : (s.workers u).epoch ≠ s.epoch + 1 := by
      rw [(hdone u).1]
      omega
    have hnil : s.markers u w = [] := by
      rw [hs.markers, if_neg fun h => h.2 ((hdone w).2.2.2 u)]
    rw [if_neg fun h => hne h.1]
    exact hnil
  · exact (hs.starts w e he).trans (Nat.le_succ _)
  · exact absurd hw (Nat.not_lt_zero _)
  -- no reply is left over either
  · have hno : .finish (s.epoch + 1) ∉ s.log w := by
      rw [(hdone w).2.1.finish_mem_iff]
      omega
    rw [if_neg fun h => hno h.1]
    refine (hs.dones w).trans (if_neg fun h => ?_)
    rw [hphase] at h
    exact Bool.noConfusion h.2
  · exact Bool.noConfusion hw
  · refine (hs.flags w).trans ?_
    rw [hphase]
    exact (decide_eq_false (Nat.not_lt_zero w.1)).symm
  · refine (hs.receipts w e).trans ?_
    rw [hphase]
    have hiff : 1 ≤ e ∧ (e < s.epoch ∨ e = s.epoch ∧ Phase.idle.read w = true) ↔
        1 ≤ e ∧ (e < s.epoch + 1 ∨ e = s.epoch + 1 ∧ (Phase.starting 0).read w = true) := by
      simp only [Phase.read, Bool.false_eq_true, and_false, or_false, and_true]
      omega
    exact if_congr hiff rfl rfl

/-- The master asks the next worker. -/
theorem Inv.advance_ask (hs : Inv s) {w : Fin n} (hphase : s.phase = .starting w) :
    Inv { s with
      phase := .starting (w + 1)
      checkpointing := Function.update s.checkpointing w true
      starts := Function.update s.starts w (s.starts w ++ [s.epoch]) } := by
  have hfalse : ∀ v : Fin n, s.phase.read v = false := fun v => by
    rw [hphase]
    rfl
  -- what is said of the workers asked so far now includes `w`; no worker has been read
  refine ⟨hs.fits, hs.seen, hs.markers, fun v e he => ?_, fun v hv hne => ?_, fun v => ?_,
    fun v hv => Bool.noConfusion hv, fun v => ?_, fun v e => ?_, nofun, .inr ?_⟩
  · dsimp only at he ⊢
    rcases eq_or_ne v w with rfl | hvw
    · rw [Function.update_self, List.mem_append, List.mem_singleton] at he
      exact he.elim (hs.starts v e) fun h => h.le
    · rw [Function.update_of_ne hvw] at he
      exact hs.starts v e he
  · dsimp only at hne ⊢
    rcases eq_or_ne v w with rfl | hvw
    · rw [Function.update_self]
      exact List.mem_append_right _ List.mem_cons_self
    · rw [Function.update_of_ne hvw]
      refine hs.asked v ?_ hne
      rw [hphase]
      have hlt : (v : ℕ) < w + 1 := hv
      have hval : (v : ℕ) ≠ w := fun h => hvw (Fin.ext h)
      exact Nat.lt_of_le_of_ne (Nat.le_of_lt_succ hlt) hval
  · refine (hs.dones v).trans ?_
    rw [hphase]
    rfl
  · dsimp only [Phase.flag]
    rcases eq_or_ne v w with rfl | hvw
    · rw [Function.update_self]
      exact (decide_eq_true (Nat.lt_succ_self _)).symm
    · have hval : (v : ℕ) ≠ w := fun h => hvw (Fin.ext h)
      rw [Function.update_of_ne hvw, hs.flags, hphase]
      exact decide_eq_decide.mpr (by omega)
  · refine (hs.receipts v e).trans ?_
    rw [hphase]
    rfl
  · exact hs.started.resolve_left (by rw [hphase]; nofun)

/-- All workers have been asked. -/
theorem Inv.advance_wait (hs : Inv s) {i : ℕ} (hphase : s.phase = .starting i) (hi : n ≤ i) :
    Inv { s with phase := .finishing 0 } := by
  have hasked : ∀ v : Fin n, s.phase.asked v := fun v => by
    rw [hphase]
    exact v.isLt.trans_le hi
  have hzero : ∀ v : Fin n, (Phase.finishing 0).read v = s.phase.read v := fun v => by
    rw [hphase]
    exact decide_eq_false (Nat.not_lt_zero v.1)
  refine ⟨hs.fits, hs.seen, hs.markers, hs.starts, fun v _ hne => hs.asked v (hasked v) hne,
    fun v => ?_, fun v hv => ?_, fun v => ?_, fun v e => ?_, nofun, .inr ?_⟩
  · dsimp only
    rw [hzero]
    exact hs.dones v
  · dsimp only at hv ⊢
    rw [hzero] at hv
    exact hs.read v hv
  · refine (hs.flags v).trans ?_
    rw [hphase]
    exact decide_eq_decide.mpr (iff_of_true (v.isLt.trans_le hi) (Nat.zero_le v.1))
  · dsimp only
    rw [hzero]
    exact hs.receipts v e
  · exact hs.started.resolve_left (by rw [hphase]; nofun)

/-- The master reads the reply of the next worker. -/
theorem Inv.advance_reply (hs : Inv s) {w : Fin n} (hphase : s.phase = .finishing w) {k : ℕ}
    (hdones : s.dones w = k + 1) :
    Inv { s with
      phase := .finishing (w + 1)
      checkpointing := Function.update s.checkpointing w false
      dones := Function.update s.dones w k
      receipts := s.receipts ++ [(w, s.epoch)] } := by
  have hsent : .finish s.epoch ∈ s.log w ∧ k = 0 := by
    have h := hs.dones w
    rw [hdones] at h
    split_ifs at h with hcond
    · exact ⟨hcond.1, by omega⟩
  obtain ⟨hpos, hepoch, hactive⟩ := (hs.fits w).finish_mem_iff.mp hsent.1
  have hself : (Phase.finishing (w + 1)).read w = true := decide_eq_true (Nat.lt_succ_self _)
  have hunread : s.phase.read w = false := by
    rw [hphase]
    exact decide_eq_false (lt_irrefl _)
  -- what the master knows of the other workers does not change
  have hval : ∀ v : Fin n, v ≠ w → (v : ℕ) ≠ w := fun v hvw h => hvw (Fin.ext h)
  have hread : ∀ v : Fin n, v ≠ w → (Phase.finishing (w + 1)).read v = s.phase.read v := by
    intro v hvw
    have := hval v hvw
    rw [hphase]
    exact decide_eq_decide.mpr (by omega)
  refine ⟨hs.fits, hs.seen, hs.markers, hs.starts, fun v _ hne => hs.asked v ?_ hne,
    fun v => ?_, fun v hv => ?_, fun v => ?_, fun v e => ?_, nofun, .inr hpos⟩
  · rw [hphase]
    trivial
  · dsimp only
    rcases eq_or_ne v w with rfl | hvw
    · rw [Function.update_self, hself, if_neg (by simp)]
      exact hsent.2
    · rw [Function.update_of_ne hvw, hread v hvw]
      exact hs.dones v
  · dsimp only at hv ⊢
    rcases eq_or_ne v w with rfl | hvw
    · exact ⟨hepoch, hactive⟩
    · rw [hread v hvw] at hv
      exact hs.read v hv
  · dsimp only [Phase.flag]
    rcases eq_or_ne v w with rfl | hvw
    · rw [Function.update_self]
      exact (decide_eq_false (by omega)).symm
    · have := hval v hvw
      rw [Function.update_of_ne hvw, hs.flags, hphase]
      exact decide_eq_decide.mpr (by omega)
  · dsimp only
    rw [List.count_append, hs.receipts, List.count_singleton]
    rcases eq_or_ne v w with rfl | hvw
    · rw [hself, hunread]
      rcases eq_or_ne e s.epoch with rfl | he
      · simp [hpos]
      · simp [he, he.symm]
    · rw [hread v hvw]
      simp [hvw.symm]

/-- All workers have replied. -/
theorem Inv.advance_end (hs : Inv s) {i : ℕ} (hphase : s.phase = .finishing i) (hi : n ≤ i) :
    Inv { s with phase := .idle } := by
  have hread : ∀ v : Fin n, s.phase.read v = Phase.idle.read v := fun v => by
    rw [hphase]
    exact decide_eq_true (v.isLt.trans_le hi)
  refine ⟨hs.fits, hs.seen, hs.markers, hs.starts, fun v _ hne => hs.asked v ?_ hne,
    fun v => ?_, fun v hv => ?_, fun v => ?_, fun v e => ?_, nofun, .inl rfl⟩
  · rw [hphase]
    trivial
  · dsimp only
    rw [← hread]
    exact hs.dones v
  · dsimp only at hv ⊢
    rw [← hread] at hv
    exact hs.read v hv
  · refine (hs.flags v).trans ?_
    rw [hphase]
    exact decide_eq_false (by omega)
  · dsimp only
    rw [← hread]
    exact hs.receipts v e

theorem Inv.advance (hs : Inv s) : Inv s.advance := by
  rw [Job.advance]
  split
  next hphase => exact hs.advance_idle hphase
  next i hphase =>
    split_ifs with hi
    · have hflag : s.checkpointing ⟨i, hi⟩ = false := by
        rw [hs.flags, hphase]
        exact decide_eq_false (lt_irrefl i)
      simp only [hflag, Bool.false_eq_true, if_false]
      exact hs.advance_ask (w := ⟨i, hi⟩) hphase
    · exact hs.advance_wait hphase (Nat.le_of_not_lt hi)
  next i hphase =>
    split_ifs with hi
    · -- the check does not fail
      have hflag : s.checkpointing ⟨i, hi⟩ = true := by
        rw [hs.flags, hphase]
        exact decide_eq_true (le_refl i)
      simp only [hflag, Bool.true_eq_false, if_false]
      split
      next => exact hs
      next k hdones => exact hs.advance_reply (w := ⟨i, hi⟩) hphase hdones
    · exact hs.advance_end hphase (Nat.le_of_not_lt hi)
  next hphase => exact absurd hphase hs.running

theorem Inv.step (hs : Inv s) (a : Action n) : Inv (s.step a) := by
  cases a with
  | advance => exact hs.advance
  | readStart w e => exact hs.readStart w e
  | readMarker u w e => exact hs.readMarker u w e

end Step

/-! ## Counts over whole runs -/

section Counts

variable {s : Job n} {epoch : ℕ} {c : Checkpointer (Fin n)} {log : List (Event n)}

/-- The tables of an epoch have been checkpointed once if the worker has entered it. -/
theorem Fits.count_tables (h : Fits epoch c log) (e : ℕ) :
    log.count (.tables e) = if 1 ≤ e ∧ e ≤ c.epoch then 1 else 0 := by
  cases h with
  | before _ hlog => exact hlog.count_eq (.inl rfl)
  | inside k log₀ peers hepoch hk hlog₀ hlog =>
    rw [hlog, List.count_append, hlog₀.count_eq (.inl rfl), List.count_cons,
      count_markers peers (by simp), hepoch, hk]
    by_cases hek : e = k + 1
    · simp [hek]
    · have hiff : 1 ≤ e ∧ e ≤ k ↔ 1 ≤ e ∧ e ≤ k + 1 := by omega
      simp [Ne.symm hek, hiff]
  | done hepoch hlog =>
    rw [hepoch]
    exact hlog.count_eq (.inl rfl)

/-- An epoch has been finished once if the worker has left it. -/
theorem Fits.count_finish (h : Fits epoch c log) (e : ℕ) :
    log.count (.finish e) =
      if 1 ≤ e ∧ (e < c.epoch ∨ e = c.epoch ∧ c.active = .none) then 1 else 0 := by
  cases h with
  | before _ hlog hactive =>
    rw [hlog.count_eq (.inr rfl)]
    refine if_congr ?_ rfl rfl
    simp only [hactive, and_true]
    omega
  | inside k log₀ peers hepoch hk hlog₀ hlog _ hactive =>
    rw [hlog, List.count_append, hlog₀.count_eq (.inr rfl), List.count_cons,
      count_markers peers (by simp), hepoch, hk]
    simp only [hactive, reduceCtorEq, and_false, or_false, beq_iff_eq, if_false, Nat.add_zero]
    refine if_congr ?_ rfl rfl
    omega
  | done hepoch hlog hactive =>
    rw [hlog.count_eq (.inr rfl)]
    refine if_congr ?_ rfl rfl
    simp only [hepoch, hactive, and_true]
    omega

theorem Fits.ordered (h : Fits epoch c log) : Ordered log := by
  cases h with
  | before _ hlog => exact hlog.ordered
  | inside k log₀ peers _ _ hlog₀ hlog =>
    rw [hlog]
    exact hlog₀.ordered.append (by simp)
  | done _ hlog => exact hlog.ordered

/-- A worker is in the epoch of the master, or it has finished the one before. -/
theorem Fits.epoch_eq (h : Fits epoch c log) :
    c.epoch = epoch ∨ c.epoch + 1 = epoch ∧ c.active = .none := by
  cases h with
  | before hepoch _ hactive => exact .inr ⟨hepoch.symm, hactive⟩
  | inside _ _ _ hepoch => exact .inl hepoch
  | done hepoch => exact .inl hepoch

/-- With no message left, a worker that the master waits for has replied. -/
theorem Inv.replied (hs : Inv s) {i : ℕ} (hphase : s.phase = .finishing i)
    (hstarts : ∀ w, s.starts w = []) (hmarkers : ∀ u w, s.markers u w = []) (w : Fin n) :
    .finish s.epoch ∈ s.log w := by
  have hepoch : ∀ v, (s.workers v).epoch = s.epoch := by
    intro v
    by_contra hne
    have hmem := hs.asked v (by rw [hphase]; trivial) hne
    rw [hstarts] at hmem
    exact absurd hmem List.not_mem_nil
  have hpeers : ∀ u, (s.workers w).peers u = s.epoch := by
    intro u
    by_contra hne
    have hlist := hs.markers u w
    rw [if_pos ⟨hepoch u, hne⟩, hmarkers] at hlist
    cases hlist
  have hpos : 1 ≤ s.epoch := hs.started.resolve_left (by rw [hphase]; nofun)
  refine (hs.fits w).finish_mem_iff.mpr ⟨hpos, hepoch w, ?_⟩
  cases hs.fits w with
  | before _ _ hactive => exact hactive
  | inside k _ peers _ hk _ _ _ _ hsome hopen =>
    obtain ⟨u, hu⟩ := hopen
    have := hpeers u
    rw [hsome, if_neg hu] at this
    omega
  | done _ _ hactive => exact hactive

/-- What is to hold of the counts, whatever the number of workers and the order in which messages
are read. -/
structure Counts (s : Job n) : Prop where
  /-- A worker has run the table part of `StartCheckpoint` once for each epoch it has entered. -/
  tables : ∀ w e, (s.log w).count (.tables e) = if 1 ≤ e ∧ e ≤ (s.workers w).epoch then 1 else 0
  /-- It has run `FinishCheckpoint` once for each epoch it has left. -/
  finish : ∀ w e, (s.log w).count (.finish e) =
    if 1 ≤ e ∧ (e < (s.workers w).epoch ∨ e = (s.workers w).epoch ∧ (s.workers w).active = .none)
    then 1 else 0
  /-- It has run it after the tables and the markers of all workers for that epoch. -/
  ordered : ∀ w before after e, s.log w = before ++ .finish e :: after →
    .tables e ∈ before ∧ ∀ u, .marker u e ∈ before
  /-- No worker is more than one epoch behind the master, and one that is has finished its own. -/
  epoch_eq : ∀ w, (s.workers w).epoch = s.epoch ∨
    (s.workers w).epoch + 1 = s.epoch ∧ (s.workers w).active = .none
  /-- In each epoch before the current one, and in the current one when the master is idle, all
  workers have run both parts once, and the master has read one reply of each of them. -/
  past : ∀ e, 1 ≤ e → e < s.epoch ∨ e = s.epoch ∧ s.phase = .idle → ∀ w,
    (s.log w).count (.tables e) = 1 ∧ (s.log w).count (.finish e) = 1 ∧
      s.receipts.count (w, e) = 1
  receipts_le : ∀ w e, s.receipts.count (w, e) ≤ (s.log w).count (.finish e)
  /-- No check of the master fails. -/
  running : s.phase ≠ .aborted
  /-- It never has more than one unread reply of a worker, and none when it is idle. -/
  dones_le : ∀ w, s.dones w ≤ 1 ∧ (s.phase = .idle → s.dones w = 0)
  /-- Where it waits for a reply with no other message left, the reply is there. -/
  reply : ∀ w : Fin n, s.phase = .finishing w → (∀ v, s.starts v = []) →
    (∀ u v, s.markers u v = []) → s.dones w = 1

/-- A worker has left every epoch for which the master has its reply. -/
theorem Inv.left (hs : Inv s) {e : ℕ} {w : Fin n}
    (hread : e < s.epoch ∨ e = s.epoch ∧ s.phase.read w = true) :
    e < (s.workers w).epoch ∨ e = (s.workers w).epoch ∧ (s.workers w).active = .none := by
  rcases hread with hlt | ⟨rfl, hread⟩
  · rcases (hs.fits w).epoch_eq with hepoch | ⟨hepoch, hactive⟩
    · exact .inl (hepoch ▸ hlt)
    · rcases Nat.lt_or_eq_of_le (Nat.le_of_lt_succ (hepoch ▸ hlt)) with hlt' | heq
      · exact .inl hlt'
      · exact .inr ⟨heq, hactive⟩
  · obtain ⟨hepoch, hactive⟩ := hs.read w hread
    exact .inr ⟨hepoch.symm, hactive⟩

theorem Inv.past (hs : Inv s) {e : ℕ} (he : 1 ≤ e)
    (hpast : e < s.epoch ∨ e = s.epoch ∧ s.phase = .idle) (w : Fin n) :
    (s.log w).count (.tables e) = 1 ∧ (s.log w).count (.finish e) = 1 ∧
      s.receipts.count (w, e) = 1 := by
  have hread : e < s.epoch ∨ e = s.epoch ∧ s.phase.read w = true := by
    refine hpast.imp_right fun h => ⟨h.1, ?_⟩
    rw [h.2]
    rfl
  have hdone := hs.left hread
  have hle : e ≤ (s.workers w).epoch := hdone.elim Nat.le_of_lt fun h => h.1.le
  refine ⟨?_, ?_, ?_⟩
  · rw [(hs.fits w).count_tables, if_pos ⟨he, hle⟩]
  · rw [(hs.fits w).count_finish, if_pos ⟨he, hdone⟩]
  · rw [hs.receipts, if_pos ⟨he, hread⟩]

/-- A reply that was read was sent by `FinishCheckpoint`. -/
theorem Inv.receipts_le (hs : Inv s) (w : Fin n) (e : ℕ) :
    s.receipts.count (w, e) ≤ (s.log w).count (.finish e) := by
  rw [hs.receipts, (hs.fits w).count_finish]
  split_ifs with hread hdone
  · exact le_refl 1
  · exact absurd ⟨hread.1, hs.left hread.2⟩ hdone
  · exact Nat.zero_le _
  · exact Nat.zero_le _

theorem Inv.dones_le (hs : Inv s) (w : Fin n) :
    s.dones w ≤ 1 ∧ (s.phase = .idle → s.dones w = 0) := by
  refine ⟨?_, fun hidle => ?_⟩
  · rw [hs.dones]
    split_ifs
    · exact le_refl 1
    · exact Nat.zero_le 1
  · rw [hs.dones, if_neg]
    rw [hidle]
    exact fun h => Bool.noConfusion h.2

theorem Inv.reply (hs : Inv s) {w : Fin n} (hphase : s.phase = .finishing w)
    (hstarts : ∀ v, s.starts v = []) (hmarkers : ∀ u v, s.markers u v = []) : s.dones w = 1 := by
  have hunread : s.phase.read w = false := by
    rw [hphase]
    exact decide_eq_false (lt_irrefl _)
  rw [hs.dones, if_pos ⟨hs.replied hphase hstarts hmarkers w, hunread⟩]

/-- As long as the table part of `StartCheckpoint` returns, the counts are right. -/
theorem Inv.counts (hs : Inv s) : Counts s where
  tables w := (hs.fits w).count_tables
  finish w := (hs.fits w).count_finish
  ordered w := (hs.fits w).ordered
  epoch_eq w := (hs.fits w).epoch_eq
  past _ he hpast w := hs.past he hpast w
  receipts_le := hs.receipts_le
  running := hs.running
  dones_le := hs.dones_le
  reply _ := hs.reply

/-- One epoch of two workers. Worker 1 is started by the marker of worker 0. -/
example : (([.advance, .advance, .readStart 0 1, .readMarker 0 1 1, .readMarker 1 0 1,
    .readMarker 0 0 1, .readMarker 1 1 1, .advance, .readStart 1 1, .advance, .advance, .advance,
    .advance] : List (Action 2)).foldl Job.step init).receipts = [(0, 1), (1, 1)] := by
  decide

end Counts

end Job

end Rolling

end MaiterStore
