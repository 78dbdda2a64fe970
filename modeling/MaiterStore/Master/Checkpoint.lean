/-
# Checkpoints controlled by the master

`Master::start_checkpoint` sends `START_CHECKPOINT` to every worker, and
`finish_checkpoint` goes through the workers, sends each of them `FINISH_CHECKPOINT` and
waits for its `CHECKPOINT_DONE` (`master/master.cc`). Messages from the master to a worker
arrive in any order, since `pending_sends_` is a stack.

A worker that finds no `START_CHECKPOINT`, and then a `FINISH_CHECKPOINT` that has arrived
before it or together with it in the meantime, reports a checkpoint it has not taken. As
long as no worker does so, every checkpoint reported is one that was taken.
-/

import MaiterStore.CS.Run
import MaiterStore.Worker.Checkpoint

namespace MaiterStore

open CS.Run

namespace Master

/-- Where the master is in a checkpoint. -/
inductive Phase
  /-- `checkpointing_` is false. -/
  | idle
  /-- The loop of `start_checkpoint` has come to a worker. -/
  | starting (next : ℕ)
  /-- Between `start_checkpoint` and `finish_checkpoint`. -/
  | started
  /-- The loop of `finish_checkpoint` has come to a worker. -/
  | finishing (next : ℕ)
  /-- `finish_worker_checkpoint` reads the reply of a worker. -/
  | awaiting (worker : ℕ)
  deriving DecidableEq, Repr

/-- A `CHECKPOINT_DONE` that `finish_worker_checkpoint` has read: the worker, the value of
`checkpoint_epoch_` and the epochs the worker had taken when it sent it. -/
structure Receipt where
  worker : ℕ
  epoch : ℕ
  taken : List ℕ
  deriving DecidableEq, Repr

/-- The master and its workers. -/
structure Job where
  epoch : ℕ
  phase : Phase
  receipts : List Receipt
  workers : ℕ → PollingWorker

namespace Job

def init : Job := ⟨0, .idle, [], fun _ => .init⟩

def setWorker (s : Job) (i : ℕ) (w : PollingWorker) : Job :=
  { s with workers := Function.update s.workers i w }

/-- Send a message to a worker. -/
def post (s : Job) (i : ℕ) (msg : MasterMessage) : Job :=
  s.setWorker i { s.workers i with channel := (s.workers i).channel ++ [msg] }

/-- The next thing the master of `n` workers does. -/
def advance (n : ℕ) (s : Job) : Job :=
  match s.phase with
  | .idle => { s with epoch := s.epoch + 1, phase := .starting 0 }
  | .starting i =>
    if i < n then
      { s.post i (.start s.epoch .masterControlled) with phase := .starting (i + 1) }
    else { s with phase := .started }
  | .started => { s with phase := .finishing 0 }
  | .finishing i =>
    if i < n then { s.post i .finish with phase := .awaiting i } else { s with phase := .idle }
  -- `network_->Read` waits for a reply
  | .awaiting i =>
    match (s.workers i).dones with
    | [] => s
    | taken :: rest =>
      { s.setWorker i { s.workers i with dones := rest } with
        phase := .finishing (i + 1)
        receipts := s.receipts ++ [⟨i, s.epoch, taken⟩] }

/-- What can happen next. -/
inductive Action
  | advance
  | deliver (i k : ℕ)
  | poll (i : ℕ)
  deriving DecidableEq, Repr

/-- One action. -/
def step (n : ℕ) (s : Job) : Action → Job
  | .advance => s.advance n
  | .deliver i k => s.setWorker i { s.workers i with toMasterLink := (s.workers i).deliver k }
  | .poll i => s.setWorker i (s.workers i).checkForMasterUpdates

/-- Every checkpoint reported for an epoch was taken, and its worker is not in a
checkpoint from its reply on until it starts the one of a later epoch. -/
def ReportsTaken (n : ℕ) (s : Job) : Prop :=
  (∀ r ∈ s.receipts, r.epoch ∈ r.taken) ∧
  (∀ r ∈ s.receipts, (s.workers r.worker).ctl.epoch ≤ r.epoch →
    (s.workers r.worker).ctl.active = .none) ∧
  ∀ i < n, (s.workers i).dones ≠ [] → (s.workers i).ctl.active = .none

/-- A worker that is about to read a `FINISH_CHECKPOINT` has read every `START_CHECKPOINT` that was
sent to it: none has arrived, and none is under way. -/
def ReadsStartFirst (s : Job) : Action → Prop
  | .poll i => (s.workers i).poll = .finish → (s.workers i).finishes ≠ 0 →
    (s.workers i).starts = [] ∧ ∀ epoch type, .start epoch type ∉ (s.workers i).channel
  | _ => True

/-! ## Where a worker is in the checkpoint -/

/-- How far the master has come with a worker. -/
inductive Stage
  /-- `START_CHECKPOINT` has not been sent. -/
  | before
  | started
  /-- `FINISH_CHECKPOINT` has been sent and its reply has not been read. -/
  | finishing
  | done

/-- The stage of worker `i`. -/
def stage (i : ℕ) : Phase → Stage
  | .idle => .done
  | .starting next => if i < next then .started else .before
  | .started => .started
  | .finishing next => if i < next then .done else .started
  | .awaiting j => if i < j then .done else if i = j then .finishing else .started

section Stage

variable {i j : ℕ}

theorem stage_starting_self : stage i (.starting i) = .before := if_neg (lt_irrefl i)

theorem stage_starting_succ : stage i (.starting (i + 1)) = .started := if_pos (Nat.lt_succ_self i)

theorem stage_starting_of_ne (hj : j ≠ i) :
    stage j (.starting (i + 1)) = stage j (.starting i) := by
  simp only [stage]
  split_ifs <;> first | rfl | omega

theorem stage_finishing_self : stage i (.finishing i) = .started := if_neg (lt_irrefl i)

theorem stage_finishing_succ : stage i (.finishing (i + 1)) = .done := if_pos (Nat.lt_succ_self i)

theorem stage_awaiting_self : stage i (.awaiting i) = .finishing := by
  rw [stage, if_neg (lt_irrefl i), if_pos rfl]

theorem stage_awaiting_of_ne (hj : j ≠ i) : stage j (.awaiting i) = stage j (.finishing i) := by
  rw [stage, stage, if_neg hj]

theorem stage_finishing_of_ne (hj : j ≠ i) :
    stage j (.finishing (i + 1)) = stage j (.awaiting i) := by
  simp only [stage]
  split_ifs <;> first | rfl | omega

end Stage

/-- The messages between the master and a worker. -/
structure Queues (w : MasterLink) (channel : List MasterMessage)
    (starts : List (ℕ × CheckpointType)) (finishes : ℕ) (dones : List (List ℕ)) : Prop where
  channel_eq : w.channel = channel
  starts_eq : w.starts = starts
  finishes_eq : w.finishes = finishes
  dones_eq : w.dones = dones

/-- The worker is in an earlier epoch. -/
structure Waiting (epoch : ℕ) (w : MasterLink) : Prop where
  epoch_lt : w.ctl.epoch < epoch
  active_eq : w.ctl.active = .none

/-- The worker has taken the checkpoint of the epoch. -/
structure HasTaken (epoch : ℕ) (w : MasterLink) : Prop where
  epoch_eq : w.ctl.epoch = epoch
  mem_taken : epoch ∈ w.taken

/-- The worker is in the epoch and not in a checkpoint. -/
structure AtRest (epoch : ℕ) (w : MasterLink) : Prop where
  epoch_eq : w.ctl.epoch = epoch
  active_eq : w.ctl.active = .none

/-- What a worker is like at each stage of the checkpoint of an epoch. -/
inductive Fits (epoch : ℕ) (w : MasterLink) : Stage → Prop
  | before (hq : Queues w [] [] 0 []) (hw : Waiting epoch w) : Fits epoch w .before
  | startSent (hq : Queues w [.start epoch .masterControlled] [] 0 []) (hw : Waiting epoch w) :
    Fits epoch w .started
  | startArrived (hq : Queues w [] [(epoch, .masterControlled)] 0 []) (hw : Waiting epoch w) :
    Fits epoch w .started
  | taken (hq : Queues w [] [] 0 []) (hw : HasTaken epoch w) : Fits epoch w .started
  | bothSent (hq : Queues w [.start epoch .masterControlled, .finish] [] 0 [])
    (hw : Waiting epoch w) : Fits epoch w .finishing
  | finishSent (hq : Queues w [.finish] [(epoch, .masterControlled)] 0 []) (hw : Waiting epoch w) :
    Fits epoch w .finishing
  | startLate (hq : Queues w [.start epoch .masterControlled] [] 1 []) (hw : Waiting epoch w) :
    Fits epoch w .finishing
  | bothArrived (hq : Queues w [] [(epoch, .masterControlled)] 1 []) (hw : Waiting epoch w) :
    Fits epoch w .finishing
  | takenFinishSent (hq : Queues w [.finish] [] 0 []) (hw : HasTaken epoch w) :
    Fits epoch w .finishing
  | takenFinishArrived (hq : Queues w [] [] 1 []) (hw : HasTaken epoch w) : Fits epoch w .finishing
  | replied {taken : List ℕ} (hq : Queues w [] [] 0 [taken]) (htaken : epoch ∈ taken)
    (hw : AtRest epoch w) : Fits epoch w .finishing
  | done (hq : Queues w [] [] 0 []) (hw : AtRest epoch w) : Fits epoch w .done

section Worker

variable {epoch : ℕ} {w : MasterLink} {st : Stage}

/-- A worker in an earlier epoch, or with a reply to be read, is not in a checkpoint. -/
theorem Fits.active_of_lt (hfits : Fits epoch w st) (hlt : w.ctl.epoch < epoch) :
    w.ctl.active = .none := by
  cases hfits with
  | before _ hw | startSent _ hw | startArrived _ hw | bothSent _ hw | finishSent _ hw
  | startLate _ hw | bothArrived _ hw => exact hw.active_eq
  | taken _ hw | takenFinishSent _ hw | takenFinishArrived _ hw =>
    exact absurd hw.epoch_eq hlt.ne
  | replied _ _ hw | done _ hw => exact hw.active_eq

theorem Fits.active_of_dones (hfits : Fits epoch w st) (hdones : w.dones ≠ []) :
    w.ctl.active = .none := by
  cases hfits with
  | before hq _ | startSent hq _ | startArrived hq _ | bothSent hq _ | finishSent hq _
  | startLate hq _ | bothArrived hq _ | taken hq _ | takenFinishSent hq _
  | takenFinishArrived hq _ | done hq _ => exact absurd hq.dones_eq hdones
  | replied _ _ hw => exact hw.active_eq

/-- An arriving message does not change the stage. -/
theorem Fits.deliver (hfits : Fits epoch w st) (k : ℕ) : Fits epoch (w.deliver k) st := by
  cases hmsg : w.channel[k]? with
  | none => rwa [show w.deliver k = w by simp only [MasterLink.deliver, hmsg]]
  | some msg =>
    have hk : k < w.channel.length := (List.getElem?_eq_some_iff.mp hmsg).1
    obtain ⟨ctl, channel, starts, finishes, dones, taken⟩ := w
    cases hfits with
    | startSent hq hw =>
      obtain ⟨rfl, rfl, rfl, rfl⟩ := hq
      obtain rfl : k = 0 := Nat.lt_one_iff.mp hk
      exact .startArrived ⟨rfl, rfl, rfl, rfl⟩ ⟨hw.epoch_lt, hw.active_eq⟩
    | bothSent hq hw =>
      obtain ⟨rfl, rfl, rfl, rfl⟩ := hq
      -- either of the two may arrive first
      obtain rfl | rfl : k = 0 ∨ k = 1 := Nat.le_one_iff_eq_zero_or_eq_one.mp (Nat.le_of_lt_succ hk)
      · exact .finishSent ⟨rfl, rfl, rfl, rfl⟩ ⟨hw.epoch_lt, hw.active_eq⟩
      · exact .startLate ⟨rfl, rfl, rfl, rfl⟩ ⟨hw.epoch_lt, hw.active_eq⟩
    | finishSent hq hw =>
      obtain ⟨rfl, rfl, rfl, rfl⟩ := hq
      obtain rfl : k = 0 := Nat.lt_one_iff.mp hk
      exact .bothArrived ⟨rfl, rfl, rfl, rfl⟩ ⟨hw.epoch_lt, hw.active_eq⟩
    | startLate hq hw =>
      obtain ⟨rfl, rfl, rfl, rfl⟩ := hq
      obtain rfl : k = 0 := Nat.lt_one_iff.mp hk
      exact .bothArrived ⟨rfl, rfl, rfl, rfl⟩ ⟨hw.epoch_lt, hw.active_eq⟩
    | takenFinishSent hq hw =>
      obtain ⟨rfl, rfl, rfl, rfl⟩ := hq
      obtain rfl : k = 0 := Nat.lt_one_iff.mp hk
      exact .takenFinishArrived ⟨rfl, rfl, rfl, rfl⟩ ⟨hw.epoch_eq, hw.mem_taken⟩
    | before hq _ | startArrived hq _ | taken hq _ | bothArrived hq _ | takenFinishArrived hq _
    | replied hq _ _ | done hq _ =>
      rw [hq.channel_eq] at hk
      exact absurd hk (Nat.not_lt_zero k)

/-- A worker that reads its `START_CHECKPOINT` takes the checkpoint. -/
theorem Fits.readStart (hfits : Fits epoch w st) {first : ℕ × CheckpointType}
    {rest : List (ℕ × CheckpointType)} (hstarts : w.starts = first :: rest) :
    ∃ ctl, w.ctl.startCheckpoint first.1 first.2 = some ctl ∧
      Fits epoch { w with ctl := ctl, starts := rest, taken := w.taken ++ [first.1] } st := by
  obtain ⟨ctl, channel, starts, finishes, dones, taken⟩ := w
  -- the worker is in an earlier epoch, so `StartCheckpoint` does not skip
  have hstart : ctl.epoch < epoch →
      ∃ ctl', ctl.startCheckpoint epoch .masterControlled = some ctl' ∧
      ctl'.epoch = epoch := by
    intro hlt
    exact ⟨_, if_neg hlt.not_ge, rfl⟩
  cases hfits with
  | startArrived hq hw =>
    obtain ⟨rfl, rfl, rfl, rfl⟩ := hq
    obtain ⟨rfl, rfl⟩ := List.cons.inj hstarts
    obtain ⟨ctl', hsome, hepoch⟩ := hstart hw.epoch_lt
    exact ⟨ctl', hsome, .taken ⟨rfl, rfl, rfl, rfl⟩ ⟨hepoch, by simp⟩⟩
  | finishSent hq hw =>
    obtain ⟨rfl, rfl, rfl, rfl⟩ := hq
    obtain ⟨rfl, rfl⟩ := List.cons.inj hstarts
    obtain ⟨ctl', hsome, hepoch⟩ := hstart hw.epoch_lt
    exact ⟨ctl', hsome, .takenFinishSent ⟨rfl, rfl, rfl, rfl⟩ ⟨hepoch, by simp⟩⟩
  | bothArrived hq hw =>
    obtain ⟨rfl, rfl, rfl, rfl⟩ := hq
    obtain ⟨rfl, rfl⟩ := List.cons.inj hstarts
    obtain ⟨ctl', hsome, hepoch⟩ := hstart hw.epoch_lt
    exact ⟨ctl', hsome, .takenFinishArrived ⟨rfl, rfl, rfl, rfl⟩ ⟨hepoch, by simp⟩⟩
  | before hq _ | startSent hq _ | taken hq _ | bothSent hq _ | startLate hq _
  | takenFinishSent hq _ | takenFinishArrived hq _ | replied hq _ _ | done hq _ =>
    rw [hq.starts_eq] at hstarts
    cases hstarts

/-- A worker that reads its `FINISH_CHECKPOINT` with no `START_CHECKPOINT` left or under way has
taken the checkpoint. -/
theorem Fits.readFinish (hfits : Fits epoch w st) (hstarts : w.starts = [])
    (hchannel : ∀ epoch type, .start epoch type ∉ w.channel) {n : ℕ}
    (hfinishes : w.finishes = n + 1) :
    Fits epoch { w with
      ctl := w.ctl.finishCheckpoint, finishes := n, dones := w.dones ++ [w.taken] } st := by
  obtain ⟨ctl, channel, starts, finishes, dones, taken⟩ := w
  cases hfits with
  | takenFinishArrived hq hw =>
    obtain ⟨rfl, rfl, rfl, rfl⟩ := hq
    obtain rfl : 0 = n := Nat.succ.inj hfinishes
    exact .replied ⟨rfl, rfl, rfl, rfl⟩ hw.mem_taken ⟨hw.epoch_eq, rfl⟩
  | bothArrived hq _ =>
    rw [hq.starts_eq] at hstarts
    cases hstarts
  | startLate hq _ => exact absurd (hq.channel_eq ▸ List.mem_cons_self) (hchannel epoch _)
  | before hq _ | startSent hq _ | startArrived hq _ | taken hq _ | bothSent hq _ | finishSent hq _
  | takenFinishSent hq _ | replied hq _ _ | done hq _ =>
    rw [hq.finishes_eq] at hfinishes
    cases hfinishes

/-- A round of `CheckForMasterUpdates` does not change the stage. -/
theorem Fits.poll {w : PollingWorker} (hfits : Fits epoch w.toMasterLink st)
    (hfirst : w.poll = .finish → w.finishes ≠ 0 →
      w.starts = [] ∧ ∀ epoch type, .start epoch type ∉ w.channel) :
    Fits epoch w.checkForMasterUpdates.toMasterLink st := by
  cases hpoll : w.poll with
  | outside => simpa only [PollingWorker.checkForMasterUpdates, hpoll] using hfits
  | start =>
    cases hstarts : w.starts with
    | nil => simpa only [PollingWorker.checkForMasterUpdates, hpoll, hstarts] using hfits
    | cons first rest =>
      obtain ⟨ctl, hsome, htaken⟩ := hfits.readStart hstarts
      simpa only [PollingWorker.checkForMasterUpdates, hpoll, hstarts, hsome] using htaken
  | finish =>
    cases hfinishes : w.finishes with
    | zero => simpa only [PollingWorker.checkForMasterUpdates, hpoll, hfinishes] using hfits
    | succ n =>
      -- here the worker would reply too early if a start were left or under way
      obtain ⟨hstarts, hchannel⟩ := hfirst hpoll (by rw [hfinishes]; exact n.succ_ne_zero)
      have hreplied := hfits.readFinish hstarts hchannel hfinishes
      simpa only [PollingWorker.checkForMasterUpdates, hpoll, hfinishes] using hreplied

theorem Fits.nextEpoch (hfits : Fits epoch w .done) : Fits (epoch + 1) w .before := by
  cases hfits with
  | done hq hw => exact .before hq ⟨hw.epoch_eq ▸ Nat.lt_succ_self _, hw.active_eq⟩

theorem Fits.sendStart (hfits : Fits epoch w .before) :
    Fits epoch { w with channel := w.channel ++ [.start epoch .masterControlled] } .started := by
  obtain ⟨ctl, channel, starts, finishes, dones, taken⟩ := w
  cases hfits with
  | before hq hw =>
    obtain ⟨rfl, rfl, rfl, rfl⟩ := hq
    exact .startSent ⟨rfl, rfl, rfl, rfl⟩ ⟨hw.epoch_lt, hw.active_eq⟩

theorem Fits.sendFinish (hfits : Fits epoch w .started) :
    Fits epoch { w with channel := w.channel ++ [.finish] } .finishing := by
  obtain ⟨ctl, channel, starts, finishes, dones, taken⟩ := w
  cases hfits with
  | startSent hq hw =>
    obtain ⟨rfl, rfl, rfl, rfl⟩ := hq
    exact .bothSent ⟨rfl, rfl, rfl, rfl⟩ ⟨hw.epoch_lt, hw.active_eq⟩
  | startArrived hq hw =>
    obtain ⟨rfl, rfl, rfl, rfl⟩ := hq
    exact .finishSent ⟨rfl, rfl, rfl, rfl⟩ ⟨hw.epoch_lt, hw.active_eq⟩
  | taken hq hw =>
    obtain ⟨rfl, rfl, rfl, rfl⟩ := hq
    exact .takenFinishSent ⟨rfl, rfl, rfl, rfl⟩ ⟨hw.epoch_eq, hw.mem_taken⟩

/-- The reply that the master reads is for the epoch it is in. -/
theorem Fits.readDone (hfits : Fits epoch w .finishing) {taken : List ℕ} {rest : List (List ℕ)}
    (hdones : w.dones = taken :: rest) :
    epoch ∈ taken ∧ Fits epoch { w with dones := rest } .done := by
  obtain ⟨ctl, channel, starts, finishes, dones, taken⟩ := w
  cases hfits with
  | replied hq htaken hw =>
    obtain ⟨rfl, rfl, rfl, rfl⟩ := hq
    obtain ⟨rfl, rfl⟩ := List.cons.inj hdones
    exact ⟨htaken, .done ⟨rfl, rfl, rfl, rfl⟩ ⟨hw.epoch_eq, hw.active_eq⟩⟩
  | bothSent hq _ | finishSent hq _ | startLate hq _ | bothArrived hq _ | takenFinishSent hq _
  | takenFinishArrived hq _ =>
    rw [hq.dones_eq] at hdones
    cases hdones

end Worker

/-! ## Every checkpoint reported was taken -/

/-- What holds in every state in which no worker has read a `FINISH_CHECKPOINT` too early. -/
structure Inv (n : ℕ) (s : Job) : Prop where
  fits : ∀ i < n, Fits s.epoch (s.workers i).toMasterLink (stage i s.phase)
  receipts : ∀ r ∈ s.receipts, r.worker < n ∧ r.epoch ∈ r.taken ∧ r.epoch ≤ s.epoch ∧
    (r.epoch = s.epoch → stage r.worker s.phase = .done)
  awaiting_lt : ∀ i, s.phase = .awaiting i → i < n

variable {n : ℕ} {s : Job}

theorem Inv.reportsTaken (hinv : Inv n s) : ReportsTaken n s := by
  refine ⟨fun r hr => (hinv.receipts r hr).2.1, fun r hr hle => ?_, fun i hi hdones => ?_⟩
  · obtain ⟨hworker, -, hepoch, hdone⟩ := hinv.receipts r hr
    have hfits := hinv.fits r.worker hworker
    -- a receipt of an earlier epoch, or of the checkpoint the master is in
    rcases hepoch.lt_or_eq with hlt | heq
    · exact hfits.active_of_lt (hle.trans_lt hlt)
    · rw [hdone heq] at hfits
      cases hfits with
      | done _ hw => exact hw.active_eq
  · exact (hinv.fits i hi).active_of_dones hdones

theorem init_inv : Inv n init :=
  ⟨fun _ _ => .done ⟨rfl, rfl, rfl, rfl⟩ ⟨rfl, rfl⟩, nofun, nofun⟩

/-- A change of one worker that keeps its stage. -/
theorem Inv.setWorker (hinv : Inv n s) {i : ℕ} {w : PollingWorker}
    (hw : i < n → Fits s.epoch w.toMasterLink (stage i s.phase)) : Inv n (s.setWorker i w) := by
  refine ⟨fun j hj => ?_, hinv.receipts, hinv.awaiting_lt⟩
  by_cases hji : j = i
  · subst hji
    simpa only [Job.setWorker, Function.update_self] using hw hj
  · simpa only [Job.setWorker, Function.update_of_ne hji] using hinv.fits j hj

/-- The master goes on to a phase in which every worker is at the same stage. -/
theorem Inv.setPhase (hinv : Inv n s) {phase : Phase}
    (hstage : ∀ j < n, stage j phase = stage j s.phase) (hlt : ∀ j, phase = .awaiting j → j < n) :
    Inv n { s with phase := phase } := by
  refine ⟨fun j hj => ?_, fun r hr => ?_, hlt⟩
  · rw [hstage j hj]
    exact hinv.fits j hj
  · obtain ⟨hworker, htaken, hepoch, hdone⟩ := hinv.receipts r hr
    exact ⟨hworker, htaken, hepoch, fun heq => (hstage _ hworker).trans (hdone heq)⟩

/-- The master goes on with worker `i`, which has not been done. -/
theorem Inv.advance (hinv : Inv n s) {i : ℕ} {w : PollingWorker} {phase : Phase}
    (hw : Fits s.epoch w.toMasterLink (stage i phase)) (hnot : stage i s.phase ≠ .done)
    (hstage : ∀ j ≠ i, stage j phase = stage j s.phase) (hlt : ∀ j, phase = .awaiting j → j < n) :
    Inv n { s.setWorker i w with phase := phase } := by
  refine ⟨fun j hj => ?_, fun r hr => ?_, hlt⟩
  · by_cases hji : j = i
    · subst hji
      simpa only [Job.setWorker, Function.update_self] using hw
    · simp only [Job.setWorker, Function.update_of_ne hji]
      rw [hstage j hji]
      exact hinv.fits j hj
  · obtain ⟨hworker, htaken, hepoch, hdone⟩ := hinv.receipts r hr
    refine ⟨hworker, htaken, hepoch, fun heq => ?_⟩
    -- worker `i` has no receipt for this epoch yet
    have hri : r.worker ≠ i := fun hri => hnot (hri ▸ hdone heq)
    exact (hstage _ hri).trans (hdone heq)

/-- A checkpoint begins: every worker is before it. -/
theorem Inv.begin (hinv : Inv n s) (hphase : s.phase = .idle) :
    Inv n { s with epoch := s.epoch + 1, phase := .starting 0 } := by
  refine ⟨fun i hi => ?_, fun r hr => ?_, nofun⟩
  · have hfits := hinv.fits i hi
    rw [hphase] at hfits
    exact hfits.nextEpoch
  · obtain ⟨hworker, htaken, hepoch, -⟩ := hinv.receipts r hr
    exact ⟨hworker, htaken, Nat.le_succ_of_le hepoch,
      fun heq => absurd heq (Nat.lt_succ_of_le hepoch).ne⟩

theorem Inv.sendStart (hinv : Inv n s) {i : ℕ} (hi : i < n) (hphase : s.phase = .starting i) :
    Inv n { s.post i (.start s.epoch .masterControlled) with phase := .starting (i + 1) } := by
  have hfits := hinv.fits i hi
  rw [hphase, stage_starting_self] at hfits
  apply hinv.advance
  · rw [stage_starting_succ]
    exact hfits.sendStart
  · rw [hphase, stage_starting_self]
    nofun
  · intro j hj
    rw [hphase, stage_starting_of_ne hj]
  · nofun

theorem Inv.sendFinish (hinv : Inv n s) {i : ℕ} (hi : i < n) (hphase : s.phase = .finishing i) :
    Inv n { s.post i .finish with phase := .awaiting i } := by
  have hfits := hinv.fits i hi
  rw [hphase, stage_finishing_self] at hfits
  apply hinv.advance
  · rw [stage_awaiting_self]
    exact hfits.sendFinish
  · rw [hphase, stage_finishing_self]
    nofun
  · intro j hj
    rw [hphase, stage_awaiting_of_ne hj]
  · rintro j ⟨⟩
    exact hi

theorem Inv.readDone (hinv : Inv n s) {i : ℕ} (hphase : s.phase = .awaiting i)
    {taken : List ℕ} {rest : List (List ℕ)} (hdones : (s.workers i).dones = taken :: rest) :
    Inv n { s.setWorker i { s.workers i with dones := rest } with
      phase := .finishing (i + 1), receipts := s.receipts ++ [⟨i, s.epoch, taken⟩] } := by
  have hi := hinv.awaiting_lt i hphase
  have hfits := hinv.fits i hi
  rw [hphase, stage_awaiting_self] at hfits
  obtain ⟨htaken, hdone⟩ := hfits.readDone hdones
  have hinv' : Inv n { s.setWorker i { s.workers i with dones := rest } with
      phase := .finishing (i + 1) } := by
    apply hinv.advance
    · rwa [stage_finishing_succ]
    · rw [hphase, stage_awaiting_self]
      nofun
    · intro j hj
      rw [hphase, stage_finishing_of_ne hj]
    · nofun
  refine ⟨hinv'.fits, fun r hr => ?_, nofun⟩
  rcases List.mem_append.mp hr with hold | hnew
  · exact hinv'.receipts r hold
  · rw [List.mem_singleton.mp hnew]
    exact ⟨hi, htaken, le_rfl, fun _ => stage_finishing_succ⟩

theorem advance_inv (hinv : Inv n s) : Inv n (s.advance n) := by
  cases hphase : s.phase with
  | idle =>
    simp only [Job.advance, hphase]
    exact hinv.begin hphase
  | starting i =>
    by_cases hi : i < n
    · simp only [Job.advance, hphase, hi, if_true]
      exact hinv.sendStart hi hphase
    · simp only [Job.advance, hphase, hi, if_false]
      refine hinv.setPhase (fun j hj => ?_) nofun
      rw [hphase, stage, stage, if_pos (by omega)]
  | started =>
    simp only [Job.advance, hphase]
    refine hinv.setPhase (fun j _ => ?_) nofun
    rw [hphase, stage, stage, if_neg (Nat.not_lt_zero j)]
  | finishing i =>
    by_cases hi : i < n
    · simp only [Job.advance, hphase, hi, if_true]
      exact hinv.sendFinish hi hphase
    · simp only [Job.advance, hphase, hi, if_false]
      refine hinv.setPhase (fun j hj => ?_) nofun
      rw [hphase, stage, stage, if_pos (by omega)]
  | awaiting i =>
    cases hdones : (s.workers i).dones with
    | nil => simpa only [Job.advance, hphase, hdones] using hinv
    | cons taken rest =>
      simp only [Job.advance, hphase, hdones]
      exact hinv.readDone hphase hdones

theorem step_inv (act : Action) (hinv : Inv n s) (hfirst : ReadsStartFirst s act) :
    Inv n (s.step n act) := by
  cases act with
  | advance => exact advance_inv hinv
  | deliver i k => exact hinv.setWorker fun hi => (hinv.fits i hi).deliver k
  | poll i => exact hinv.setWorker fun hi => (hinv.fits i hi).poll hfirst

/-- **A checkpoint reported finished was taken**, in every run in which a worker reads a
`FINISH_CHECKPOINT` only when it has read every `START_CHECKPOINT` that was sent to it. -/
theorem reported_checkpoints_taken (n : ℕ) (acts : List Action)
    (hfirst : Guarded (step n) ReadsStartFirst init acts) :
    ReportsTaken n (acts.foldl (step n) init) := by
  have hinv : Inv n (acts.foldl (step n) init) :=
    hfirst.invariant (fun _ act hinv hact => step_inv act hinv hact) init_inv
  exact hinv.reportsTaken

/-- The messages overtake each other, but the worker polls for both after both have arrived. -/
theorem reported_checkpoints_taken_one_worker :
    Guarded (step 1) ReadsStartFirst init [.advance, .advance, .advance, .advance, .advance,
        .deliver 0 1, .deliver 0 0, .poll 0, .poll 0, .poll 0, .poll 0, .advance] ∧
      ReportsTaken 1 ([Action.advance, .advance, .advance, .advance, .advance,
        .deliver 0 1, .deliver 0 0, .poll 0, .poll 0, .poll 0, .poll 0, .advance].foldl
          (step 1) init) := by
  have hfirst : Guarded (step 1) ReadsStartFirst init [.advance, .advance, .advance, .advance,
      .advance, .deliver 0 1, .deliver 0 0, .poll 0, .poll 0, .poll 0, .poll 0, .advance] := by
    refine ⟨trivial, trivial, trivial, trivial, trivial, trivial, trivial, ?_⟩
    exact ⟨nofun, nofun, nofun, fun _ _ => ⟨rfl, fun _ _ => List.not_mem_nil⟩, trivial, trivial⟩
  exact ⟨hfirst, reported_checkpoints_taken 1 _ hfirst⟩

/-- Both messages arrive, in the order they were sent, between the two loops of the worker, which
then replies before it has taken the checkpoint and stays in the checkpoint afterwards. -/
theorem finish_overtakes_start :
    ¬ ReportsTaken 1 ([Action.advance, .poll 0, .poll 0, .advance, .advance, .advance, .advance,
        .deliver 0 0, .deliver 0 0, .poll 0, .advance].foldl (step 1) init) ∧
      ([Action.advance, .poll 0, .poll 0, .advance, .advance, .advance, .advance, .deliver 0 0,
        .deliver 0 0, .poll 0, .advance, .poll 0, .poll 0, .poll 0].foldl (step 1) init |>.workers 0
          |>.ctl.active) = .masterControlled := by
  refine ⟨fun hreports => ?_, by decide⟩
  exact absurd (hreports.1 ⟨0, 1, []⟩ (by decide)) (by decide)

end Job

end Master

end MaiterStore
