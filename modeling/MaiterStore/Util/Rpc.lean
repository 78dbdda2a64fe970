/-
# Message order between two processes

Every process has a network thread (`util/rpc.cc`). `Send` pushes a request to the back
of `pending_sends_`, and the loop of the network thread takes requests from the back
of it and passes them to MPI. What arrives is appended to a queue for its tag and
source, and `TryRead` takes from the front of that queue.

`pending_sends_` is thus a stack. Messages arrive in the order of the `Send` calls as
long as no two of them for the same destination and tag wait there together. Two that do
can arrive in reverse.

MPI is taken to keep the order of the messages between two processes.
-/

import Mathlib.Logic.Function.Basic
import Mathlib.Data.List.Infix
import MaiterStore.CS.Run

namespace MaiterStore

open CS.Run

/-- A request for transmission, with the flag of its header. -/
structure RPCRequest (ι M : Type*) where
  target : ι
  rpcType : ℕ
  isReply : Bool
  payload : M
  deriving DecidableEq, Repr

/-- A message on its way. -/
structure Packet (M : Type*) where
  tag : ℕ
  isReply : Bool
  data : M
  deriving DecidableEq, Repr

/-- A registered callback, with the response it computes for a source and a message. -/
structure CallbackInfo (ι M : Type*) where
  spawnThread : Bool
  call : ι → M → M

/-- The network thread of one process. `draining` tells whether its loop is at the
`while` over `pending_sends_` or before the probe. -/
structure NetworkThread (ι M : Type*) where
  pendingSends : List (RPCRequest ι M)
  activeSends : List (RPCRequest ι M)
  requests : ℕ → ι → List M
  replies : ℕ → ι → List M
  draining : Bool

namespace NetworkThread

variable {ι M : Type*} [DecidableEq ι]

/-- A network thread before its first round. -/
def new : NetworkThread ι M := ⟨[], [], fun _ _ => [], fun _ _ => [], false⟩

/-- Replace the queue of a tag and a source. -/
def setQueue (queues : ℕ → ι → List M) (tag : ℕ) (source : ι) (queue : List M) : ℕ → ι → List M :=
  Function.update queues tag (Function.update (queues tag) source queue)

/-- `Send(req)`. -/
def send (t : NetworkThread ι M) (r : RPCRequest ι M) : NetworkThread ι M :=
  { t with pendingSends := t.pendingSends ++ [r] }

/-- What `Run` does with a message it received. A callback with `spawn_thread` answers by
a `Send` of its own thread. -/
def receive (callbacks : ℕ → Option (CallbackInfo ι M)) (source : ι) (p : Packet M)
    (t : NetworkThread ι M) : NetworkThread ι M :=
  if p.isReply then
    { t with replies := setQueue t.replies p.tag source (t.replies p.tag source ++ [p.data]) }
  else
    match callbacks p.tag with
    | some ci =>
      if ci.spawnThread then t else t.send ⟨source, p.tag, true, ci.call source p.data⟩
    | none =>
      { t with requests := setQueue t.requests p.tag source (t.requests p.tag source ++ [p.data]) }

/-- `check_request_queue(src, type, data)`. -/
def checkRequestQueue (src : ι) (type : ℕ) (t : NetworkThread ι M) :
    Option M × NetworkThread ι M :=
  match t.requests type src with
  | [] => (none, t)
  | m :: queue => (some m, { t with requests := setQueue t.requests type src queue })

/-- `TryRead(src, type, data, source)`. `MPI::ANY_SOURCE` stands for the list of all
sources. -/
def tryRead (type : ℕ) : List ι → NetworkThread ι M → Option (ι × M) × NetworkThread ι M
  | [], t => (none, t)
  | src :: srcs, t =>
    match checkRequestQueue src type t with
    | (some m, t') => (some (src, m), t')
    | (none, _) => tryRead type srcs t

end NetworkThread

/-- All processes and the messages between them. `sent` records the calls of `Send` at a
process and `returned` what `TryRead` has returned, by reader, tag and source. -/
structure Network (ι M : Type*) where
  threads : ι → NetworkThread ι M
  channel : ι → ι → List (Packet M)
  sent : ι → List (RPCRequest ι M)
  returned : ι → ℕ → ι → List M

namespace Network

variable {ι M : Type*} [DecidableEq ι]

/-- Before any message is sent. -/
def init : Network ι M :=
  ⟨fun _ => NetworkThread.new, fun _ _ => [], fun _ => [], fun _ _ _ => []⟩

/-- A call of `Send` by some thread of `p`, one step of the network thread of `p`, or a
call of `TryRead` at `p`. `probe` is the source that `Iprobe` reports if it has a message
for `p`, and `finished` the outcome of the tests in `CollectActive`. -/
inductive Action (ι M : Type*)
  | send (p : ι) (r : RPCRequest ι M)
  | run (p : ι) (probe : ι) (finished : RPCRequest ι M → Bool)
  | tryRead (p : ι) (srcs : List ι) (type : ℕ)

/-- Replace the messages from `a` to `b`. -/
def setChannel (s : Network ι M) (a b : ι) (packets : List (Packet M)) : Network ι M :=
  { s with channel := Function.update s.channel a (Function.update (s.channel a) b packets) }

def setThread (s : Network ι M) (p : ι) (t : NetworkThread ι M) : Network ι M :=
  { s with threads := Function.update s.threads p t }

/-- `Isend`: the last pending request goes to MPI and becomes active. -/
def isend (s : Network ι M) (p : ι) (r : RPCRequest ι M) : Network ι M :=
  (s.setThread p { s.threads p with
      pendingSends := (s.threads p).pendingSends.dropLast
      activeSends := (s.threads p).activeSends ++ [r] }).setChannel p r.target
    (s.channel p r.target ++ [⟨r.rpcType, r.isReply, r.payload⟩])

/-- One step of `Run`: a round of the `while` over `pending_sends_`, `CollectActive` once
it is empty, or the probe with what follows it. -/
def runStep (callbacks : ι → ℕ → Option (CallbackInfo ι M)) (s : Network ι M) (p probe : ι)
    (finished : RPCRequest ι M → Bool) : Network ι M :=
  if (s.threads p).draining then
    match (s.threads p).pendingSends.getLast? with
    -- the `while` takes the request at the back of `pending_sends_`
    | some r => s.isend p r
    | none =>
      s.setThread p { s.threads p with
        activeSends := (s.threads p).activeSends.filter fun r => !finished r
        draining := false }
  else
    match s.channel probe p with
    | [] => s.setThread p { s.threads p with draining := true }
    | packet :: packets =>
      (s.setThread p { (s.threads p).receive (callbacks p) probe packet with
        draining := true }).setChannel probe p packets

def step (callbacks : ι → ℕ → Option (CallbackInfo ι M)) (s : Network ι M) :
    Action ι M → Network ι M
  | .send p r =>
    { s.setThread p ((s.threads p).send r) with
      sent := Function.update s.sent p (s.sent p ++ [r]) }
  | .run p probe finished => runStep callbacks s p probe finished
  | .tryRead p srcs type =>
    match (s.threads p).tryRead type srcs with
    | (none, t) => s.setThread p t
    | (some (src, m), t) =>
      { s.setThread p t with
        returned := Function.update s.returned p
          (NetworkThread.setQueue (s.returned p) type src (s.returned p type src ++ [m])) }

/-! ## The messages from one process to another -/

/-- A request to `b` with this tag. -/
def isFor (b : ι) (tag : ℕ) (r : RPCRequest ι M) : Bool :=
  r.target = b ∧ r.rpcType = tag ∧ r.isReply = false

/-- The messages for `b` with this tag among `rs`. -/
def messagesFor (b : ι) (tag : ℕ) (rs : List (RPCRequest ι M)) : List M :=
  (rs.filter (isFor b tag)).map RPCRequest.payload

/-- The requests with this tag among `packets`. -/
def requestsOn (tag : ℕ) (packets : List (Packet M)) : List M :=
  (packets.filter fun p => p.tag = tag ∧ p.isReply = false).map Packet.data

/-- What has been appended to the request queue of `b` for this tag and source. -/
def appended (s : Network ι M) (a b : ι) (tag : ℕ) : List M :=
  s.returned b tag a ++ (s.threads b).requests tag a

/-- Nothing from `a` to `b` with this tag is lost or overtaken, and at most one such
message waits in `pending_sends_`. -/
structure Ordered (s : Network ι M) (a b : ι) (tag : ℕ) : Prop where
  order : s.appended a b tag ++ requestsOn tag (s.channel a b) ++
    messagesFor b tag (s.threads a).pendingSends = messagesFor b tag (s.sent a)
  single : (messagesFor b tag (s.threads a).pendingSends).length ≤ 1

/-- A `Send` from `a` to `b` with this tag comes when no earlier one waits. -/
def SendsSingly (a b : ι) (tag : ℕ) (s : Network ι M) : Action ι M → Prop
  | .send p r =>
    p = a → isFor b tag r → messagesFor b tag (s.threads a).pendingSends = []
  | .run .. | .tryRead .. => True

section Messages

variable {b : ι} {tag : ℕ} {r : RPCRequest ι M} {rs : List (RPCRequest ι M)} {p : Packet M}

@[simp] theorem messagesFor_append_singleton :
    messagesFor b tag (rs ++ [r]) =
      messagesFor b tag rs ++ if isFor b tag r then [r.payload] else [] := by
  by_cases hr : isFor b tag r <;> simp [messagesFor, hr]

@[simp] theorem requestsOn_append_singleton {packets : List (Packet M)} :
    requestsOn tag (packets ++ [p]) =
      requestsOn tag packets ++ if p.tag = tag ∧ p.isReply = false then [p.data] else [] := by
  by_cases hp : p.tag = tag ∧ p.isReply = false <;> simp [requestsOn, hp]

@[simp] theorem requestsOn_cons {packets : List (Packet M)} :
    requestsOn tag (p :: packets) =
      (if p.tag = tag ∧ p.isReply = false then [p.data] else []) ++ requestsOn tag packets := by
  by_cases hp : p.tag = tag ∧ p.isReply = false <;> simp [requestsOn, hp]

theorem messagesFor_dropLast (b : ι) (tag : ℕ) (hlast : rs.getLast? = some r) :
    messagesFor b tag rs =
      messagesFor b tag rs.dropLast ++ if isFor b tag r then [r.payload] else [] := by
  obtain ⟨init, rfl⟩ := List.getLast?_eq_some_iff.mp hlast
  simp

/-- A reply that is sent on reception is no request. -/
theorem messagesFor_receive (callbacks : ℕ → Option (CallbackInfo ι M)) (source : ι)
    (t : NetworkThread ι M) :
    messagesFor b tag (t.receive callbacks source p).pendingSends =
      messagesFor b tag t.pendingSends := by
  rw [NetworkThread.receive]
  split
  · rfl
  · split
    · split
      · rfl
      · simp [NetworkThread.send, isFor]
    · rfl

/-- A received request without a callback goes to the back of its queue. -/
theorem requests_receive {callbacks : ℕ → Option (CallbackInfo ι M)} (hcb : callbacks tag = none)
    (source a : ι) (t : NetworkThread ι M) :
    (t.receive callbacks source p).requests tag a = t.requests tag a ++
      if source = a ∧ p.tag = tag ∧ p.isReply = false then [p.data] else [] := by
  rw [NetworkThread.receive]
  cases hreply : p.isReply with
  | true => simp
  | false =>
    by_cases htag : p.tag = tag
    · subst htag
      by_cases ha : a = source
      · subst ha
        simp [hcb, NetworkThread.setQueue]
      · simp [hcb, NetworkThread.setQueue, ha, Ne.symm ha]
    · cases hother : callbacks p.tag with
      | none => simp [htag, NetworkThread.setQueue, Ne.symm htag]
      | some ci => cases hspawn : ci.spawnThread <;> simp [htag, hspawn, NetworkThread.send]

end Messages

/-! ## One step -/

variable {callbacks : ι → ℕ → Option (CallbackInfo ι M)} {s : Network ι M} {a b : ι} {tag : ℕ}

/-- `Ordered` reads the arrived and travelling, the pending and the sent messages off the
network. -/
theorem Ordered.of_eq {s' : Network ι M} (hord : s.Ordered a b tag)
    (hpast : s'.appended a b tag ++ requestsOn tag (s'.channel a b) =
      s.appended a b tag ++ requestsOn tag (s.channel a b))
    (hpend : messagesFor b tag (s'.threads a).pendingSends =
      messagesFor b tag (s.threads a).pendingSends)
    (hsent : messagesFor b tag (s'.sent a) = messagesFor b tag (s.sent a)) :
    s'.Ordered a b tag :=
  ⟨by rw [hpast, hpend, hsent, hord.order], by rw [hpend]; exact hord.single⟩

omit [DecidableEq ι] in
theorem appended_eq {s' : Network ι M} (hreq : (s'.threads b).requests = (s.threads b).requests)
    (hret : s'.returned = s.returned) : s'.appended a b tag = s.appended a b tag := by
  rw [appended, appended, hreq, hret]

theorem step_send_ordered (hord : s.Ordered a b tag) (p : ι) (r : RPCRequest ι M)
    (hsingly : SendsSingly a b tag s (.send p r)) :
    (step callbacks s (.send p r)).Ordered a b tag := by
  have happ : (step callbacks s (.send p r)).appended a b tag = s.appended a b tag := by
    refine appended_eq ?_ rfl
    by_cases hb : b = p
    · subst hb
      simp [step, setThread, NetworkThread.send]
    · simp [step, setThread, hb]
  -- only a message of this channel bears on the order, and none of them waits
  by_cases hp : p = a
  · subst hp
    by_cases hr : isFor b tag r = true
    · have hnil := hsingly rfl hr
      have hord' := hord.order
      rw [hnil, List.append_nil] at hord'
      refine ⟨?_, ?_⟩
      · rw [happ]
        simp [step, setThread, NetworkThread.send, hr, hnil, ← hord']
      · simp [step, setThread, NetworkThread.send, hr, hnil]
    · refine hord.of_eq (by rw [happ]; rfl) ?_ ?_
      · simp [step, setThread, NetworkThread.send, hr]
      · simp [step, hr]
  · refine hord.of_eq (by rw [happ]; rfl) ?_ ?_
    · simp [step, setThread, Ne.symm hp]
    · simp [step, Ne.symm hp]

/-- Passing the last pending request on. -/
theorem isend_ordered (hord : s.Ordered a b tag) (p : ι) {r : RPCRequest ι M}
    (hlast : (s.threads p).pendingSends.getLast? = some r) :
    (s.isend p r).Ordered a b tag := by
  have happ : (s.isend p r).appended a b tag = s.appended a b tag := by
    refine appended_eq ?_ rfl
    by_cases hb : b = p
    · subst hb
      simp [isend, setThread, setChannel]
    · simp [isend, setThread, setChannel, hb]
  by_cases hp : p = a
  · subst hp
    have hpend := messagesFor_dropLast b tag hlast
    have hnew : ((s.isend p r).threads p).pendingSends = (s.threads p).pendingSends.dropLast := by
      simp [isend, setThread, setChannel]
    by_cases hr : isFor b tag r = true
    · -- the request taken is the only one for this channel
      rw [hr, if_pos rfl] at hpend
      have hnil : messagesFor b tag (s.threads p).pendingSends.dropLast = [] := by
        have hsingle := hord.single
        rw [hpend, List.length_append, List.length_singleton] at hsingle
        exact List.length_eq_zero_iff.mp (by omega)
      have hwire : requestsOn tag ((s.isend p r).channel p b) =
          requestsOn tag (s.channel p b) ++ [r.payload] := by
        obtain ⟨rfl, rfl, hreply⟩ : r.target = b ∧ r.rpcType = tag ∧ r.isReply = false := by
          simpa [isFor] using hr
        simp [isend, setChannel, setThread, hreply]
      have hord' := hord.order
      rw [hpend, hnil, List.nil_append] at hord'
      refine ⟨?_, by rw [hnew, hnil]; exact Nat.zero_le 1⟩
      rw [happ, hwire, hnew, hnil, List.append_nil, ← List.append_assoc]
      exact hord'
    -- the request is for another process or tag, or a reply
    · rw [if_neg hr, List.append_nil] at hpend
      refine hord.of_eq ?_ (by rw [hnew, hpend]) rfl
      rw [happ]
      by_cases hb : b = r.target
      · subst hb
        have hskip : ¬ (r.rpcType = tag ∧ r.isReply = false) := by simpa [isFor] using hr
        simp [isend, setChannel, setThread, hskip]
      · simp [isend, setChannel, setThread, hb]
  · refine hord.of_eq ?_ ?_ rfl
    · rw [happ]
      simp [isend, setChannel, setThread, Ne.symm hp]
    · simp [isend, setThread, setChannel, Ne.symm hp]

/-- The probe, and the handling of the message it finds. -/
theorem probe_ordered (hcb : callbacks b tag = none) (hord : s.Ordered a b tag) (p probe : ι)
    {packet : Packet M} {packets : List (Packet M)}
    (hchan : s.channel probe p = packet :: packets) :
    ((s.setThread p { (s.threads p).receive (callbacks p) probe packet with
      draining := true }).setChannel probe p packets).Ordered a b tag := by
  refine hord.of_eq ?_ ?_ rfl
  · by_cases hb : b = p
    · subst hb
      -- the message found moves from the channel to the back of its queue
      by_cases ha : a = probe
      · subst ha
        simp [appended, setThread, setChannel, requests_receive hcb, hchan]
      · simp [appended, setThread, setChannel, requests_receive hcb, ha, Ne.symm ha]
    · have hchan' : ((s.setThread p { (s.threads p).receive (callbacks p) probe packet with
          draining := true }).setChannel probe p packets).channel a b = s.channel a b := by
        by_cases ha : a = probe
        · subst ha
          simp [setThread, setChannel, hb]
        · simp [setThread, setChannel, ha]
      rw [hchan']
      simp [appended, setThread, setChannel, hb]
  · by_cases ha : a = p
    · subst ha
      simp [setThread, setChannel, messagesFor_receive]
    · simp [setThread, setChannel, ha]

theorem runStep_ordered (hcb : callbacks b tag = none) (hord : s.Ordered a b tag) (p probe : ι)
    (finished : RPCRequest ι M → Bool) :
    (runStep callbacks s p probe finished).Ordered a b tag := by
  -- a change of a thread that leaves its request queues and pending sends
  have hquiet : ∀ t : NetworkThread ι M, t.requests = (s.threads p).requests →
      t.pendingSends = (s.threads p).pendingSends → (s.setThread p t).Ordered a b tag := by
    intro t hreq hpend
    refine hord.of_eq ?_ ?_ rfl
    · by_cases hb : b = p
      · subst hb
        simp [appended, setThread, hreq]
      · simp [appended, setThread, hb]
    · by_cases ha : a = p
      · subst ha
        simp [setThread, hpend]
      · simp [setThread, ha]
  rw [runStep]
  split
  · split
    next r hlast => exact isend_ordered hord p hlast
    next => exact hquiet _ rfl rfl
  · split
    next => exact hquiet _ rfl rfl
    next packet packets hchan => exact probe_ordered hcb hord p probe hchan

/-- `TryRead` moves the front of a queue to what has been returned. -/
theorem tryRead_spec (t : NetworkThread ι M) (type : ℕ) (srcs : List ι) :
    ((t.tryRead type srcs).1 = none ∧ (t.tryRead type srcs).2 = t) ∨
      ∃ src m queue, t.requests type src = m :: queue ∧ (t.tryRead type srcs).1 = some (src, m) ∧
        (t.tryRead type srcs).2 =
          { t with requests := NetworkThread.setQueue t.requests type src queue } := by
  induction srcs with
  | nil => exact .inl ⟨rfl, rfl⟩
  | cons src srcs ih =>
    cases hq : t.requests type src with
    | nil => simpa [NetworkThread.tryRead, NetworkThread.checkRequestQueue, hq] using ih
    | cons m queue =>
      exact .inr ⟨src, m, queue, hq, by simp [NetworkThread.tryRead,
        NetworkThread.checkRequestQueue, hq], by simp [NetworkThread.tryRead,
        NetworkThread.checkRequestQueue, hq]⟩

theorem step_tryRead_ordered (hord : s.Ordered a b tag) (p : ι) (srcs : List ι) (type : ℕ) :
    (step callbacks s (.tryRead p srcs type)).Ordered a b tag := by
  rw [step]
  rcases tryRead_spec (s.threads p) type srcs with ⟨hnone, hsame⟩ | ⟨src, m, queue, hq, hsome, hnew⟩
  · rw [← Prod.eta ((s.threads p).tryRead type srcs), hnone, hsame]
    simpa [setThread] using hord
  -- the front of the queue moves to the back of what has been returned
  · rw [← Prod.eta ((s.threads p).tryRead type srcs), hsome, hnew]
    refine hord.of_eq ?_ ?_ rfl
    · by_cases hb : b = p
      · subst hb
        by_cases htype : tag = type
        · subst htype
          by_cases ha : a = src
          · subst ha
            simp [appended, setThread, NetworkThread.setQueue, hq]
          · simp [appended, setThread, NetworkThread.setQueue, ha]
        · simp [appended, setThread, NetworkThread.setQueue, htype]
      · simp [appended, setThread, hb]
    · by_cases ha : a = p
      · subst ha
        simp [setThread]
      · simp [setThread, ha]

theorem step_ordered (hcb : callbacks b tag = none) (hord : s.Ordered a b tag) (act : Action ι M)
    (hsingly : SendsSingly a b tag s act) : (step callbacks s act).Ordered a b tag := by
  cases act with
  | send p r => exact step_send_ordered hord p r hsingly
  | run p probe finished => exact runStep_ordered hcb hord p probe finished
  | tryRead p srcs type => exact step_tryRead_ordered hord p srcs type

theorem init_ordered (a b : ι) (tag : ℕ) : (init : Network ι M).Ordered a b tag :=
  ⟨rfl, Nat.zero_le 1⟩

/-! ## Whole runs -/

/-- **Messages arrive in the order of the `Send` calls** in every run in which a `Send`
from `a` to `b` with this tag is never called while an earlier one still waits in
`pending_sends_`: what has been appended to the request queue of `b`, and what `TryRead`
has returned from it, are the first messages that were sent. -/
theorem delivered_in_order (callbacks : ι → ℕ → Option (CallbackInfo ι M)) (a b : ι) (tag : ℕ)
    (hcb : callbacks b tag = none) (acts : List (Action ι M))
    (hsingly : Guarded (step callbacks) (SendsSingly a b tag) init acts) :
    (acts.foldl (step callbacks) init).appended a b tag <+:
        messagesFor b tag ((acts.foldl (step callbacks) init).sent a) ∧
      (acts.foldl (step callbacks) init).returned b tag a <+:
        messagesFor b tag ((acts.foldl (step callbacks) init).sent a) := by
  have hord : (acts.foldl (step callbacks) init).Ordered a b tag :=
    hsingly.invariant (I := fun s => s.Ordered a b tag)
      (fun s act hord => step_ordered hcb hord act) (init_ordered a b tag)
  have happ : (acts.foldl (step callbacks) init).appended a b tag <+:
      messagesFor b tag ((acts.foldl (step callbacks) init).sent a) := by
    rw [← hord.order, List.append_assoc]
    exact List.prefix_append _ _
  exact ⟨happ, (List.prefix_append _ _).trans happ⟩

/-- Two messages, each passed on before the next is sent. -/
theorem delivered_in_order_one_at_a_time :
    let acts : List (Action ℕ ℕ) := [.send 1 ⟨2, 4, false, 10⟩, .run 1 2 fun _ => false,
      .run 1 2 fun _ => false, .send 1 ⟨2, 4, false, 20⟩, .run 1 2 fun _ => false,
      .run 2 1 fun _ => false, .run 2 1 fun _ => false, .run 2 1 fun _ => false,
      .tryRead 2 [0, 1, 2] 4]
    Guarded (step fun _ _ => none) (SendsSingly 1 2 4) init acts ∧
      (acts.foldl (step fun _ _ => none) init).appended 1 2 4 = [10, 20] ∧
      (acts.foldl (step fun _ _ => none) init).returned 2 4 1 <+: [10, 20] := by
  intro acts
  have hsingly : Guarded (step fun _ _ => none) (SendsSingly 1 2 4) init acts := by
    simp only [acts, Guarded, SendsSingly]
    decide
  exact ⟨hsingly, by decide, (delivered_in_order _ 1 2 4 rfl acts hsingly).2⟩

/-- Two messages that wait together arrive in reverse. -/
theorem sent_together_arrive_reversed :
    let acts : List (Action ℕ ℕ) := [.send 1 ⟨2, 4, false, 10⟩, .send 1 ⟨2, 4, false, 20⟩,
      .run 1 2 fun _ => false, .run 1 2 fun _ => false, .run 1 2 fun _ => false,
      .run 2 1 fun _ => false, .run 2 1 fun _ => false, .run 2 1 fun _ => false]
    messagesFor 2 4 ((acts.foldl (step fun _ _ => none) init).sent 1) = [10, 20] ∧
      (acts.foldl (step fun _ _ => none) init).appended 1 2 4 = [20, 10] ∧
      ¬ (acts.foldl (step fun _ _ => none) init).appended 1 2 4 <+:
        messagesFor 2 4 ((acts.foldl (step fun _ _ => none) init).sent 1) := by
  decide

end Network

end MaiterStore
