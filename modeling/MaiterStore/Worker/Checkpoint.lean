/-
# The checkpoint state of a worker

What a worker keeps about checkpoints (`worker/worker.cc`): the epoch it is in, the kind
of checkpoint that is active and the last epoch each peer has announced. The master asks
for a checkpoint with `START_CHECKPOINT` and ends one that it controls with
`FINISH_CHECKPOINT`. The two have different tags, and the worker looks for them one after
the other in `CheckForMasterUpdates`.
-/

import Mathlib.Data.Fintype.Defs

namespace MaiterStore

/-- `CheckpointType`. -/
inductive CheckpointType
  | none
  | masterControlled
  | rolling
  deriving DecidableEq, Repr

/-- The fields `epoch_`, `active_checkpoint_` and `peers_[i]->epoch` of a worker. -/
structure Checkpointer (ι : Type*) where
  epoch : ℕ
  active : CheckpointType
  peers : ι → ℕ

namespace Checkpointer

variable {ι : Type*}

/-- The fields as the constructor of `Worker` sets them. -/
def init : Checkpointer ι := ⟨0, .none, fun _ => 0⟩

/-- `StartCheckpoint(epoch, type)`, or `none` if the checkpoint is skipped. Otherwise the
tables are checkpointed as well. -/
def startCheckpoint (epoch : ℕ) (type : CheckpointType) (c : Checkpointer ι) :
    Option (Checkpointer ι) :=
  if epoch ≤ c.epoch then none else some { c with epoch := epoch, active := type }

/-- `FinishCheckpoint()`, which also sends `CHECKPOINT_DONE`. -/
def finishCheckpoint (c : Checkpointer ι) : Checkpointer ι :=
  { c with active := .none, peers := fun _ => c.epoch }

end Checkpointer

/-- What the master sends to a worker during a checkpoint. -/
inductive MasterMessage
  | start (epoch : ℕ) (type : CheckpointType)
  | finish
  deriving DecidableEq, Repr

/-- Where a worker is in `CheckForMasterUpdates`. -/
inductive PollPoint
  | outside
  /-- The loop over `START_CHECKPOINT`. -/
  | start
  /-- The loop over `FINISH_CHECKPOINT`. -/
  | finish
  deriving DecidableEq, Repr

/-- A worker between the master's messages and its own `CHECKPOINT_DONE`. `channel` holds the
messages under way, `starts` and `finishes` the arrived ones by tag, and `dones` the replies that
the master has not read. For the statements, `taken` records the epochs whose `StartCheckpoint` has
run to its end, and a reply is the `taken` it was sent with. -/
structure MasterLink where
  ctl : Checkpointer ℕ
  channel : List MasterMessage
  starts : List (ℕ × CheckpointType)
  finishes : ℕ
  dones : List (List ℕ)
  taken : List ℕ

/-- A worker in its idle loop. -/
structure PollingWorker extends MasterLink where
  poll : PollPoint

/-- A message under way arrives. The sender takes its messages from a stack, so that it need not
be the oldest one. -/
def MasterLink.deliver (k : ℕ) (w : MasterLink) : MasterLink :=
  match w.channel[k]? with
  | none => w
  | some (.start epoch type) =>
    { w with channel := w.channel.eraseIdx k, starts := w.starts ++ [(epoch, type)] }
  | some .finish => { w with channel := w.channel.eraseIdx k, finishes := w.finishes + 1 }

namespace PollingWorker

def init : PollingWorker := ⟨⟨.init, [], [], 0, [], []⟩, .outside⟩

/-- The next test of `CheckForMasterUpdates`, with what it leads to. -/
def checkForMasterUpdates (w : PollingWorker) : PollingWorker :=
  match w.poll with
  | .outside => { w with poll := .start }
  | .start =>
    match w.starts with
    | [] => { w with poll := .finish }
    | (epoch, type) :: rest =>
      match w.ctl.startCheckpoint epoch type with
      -- `epoch_ >= epoch`: the checkpoint is skipped
      | none => { w with starts := rest }
      | some ctl => { w with ctl, starts := rest, taken := w.taken ++ [epoch] }
  | .finish =>
    match w.finishes with
    -- no `FINISH_CHECKPOINT` is left
    | 0 => { w with poll := .outside }
    | n + 1 =>
      { w with ctl := w.ctl.finishCheckpoint, finishes := n, dones := w.dones ++ [w.taken] }

end PollingWorker

end MaiterStore
