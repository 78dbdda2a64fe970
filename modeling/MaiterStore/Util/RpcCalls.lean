/-
# Calls

A process registers callbacks for tags (`util/rpc.h`). The network thread of `util/rpc.cc` runs
the callback when a request with its tag arrives, and sends the response back as a reply. A
callback with `spawn_thread` runs in a thread of its own, in `InvokeCallback`. All of them parse
the request into the one buffer that the callback has for its requests.

A round trip is what one process asks another with one tag. Whatever the processes do, a step moves
at most one message of one round trip from one place to the next.
-/

import Mathlib.Data.List.Perm.Basic
import MaiterStore.Util.Rpc

namespace MaiterStore

/-- `check_reply_queue(src, type, data)`. -/
def NetworkThread.checkReplyQueue {ι M : Type*} [DecidableEq ι] (src : ι) (type : ℕ)
    (t : NetworkThread ι M) : Option M × NetworkThread ι M :=
  match t.replies type src with
  | [] => (none, t)
  | m :: queue => (some m, { t with replies := setQueue t.replies type src queue })

/-- The processes with the threads of their callbacks. `req` is where a callback has its request
parsed, and `spawned` are the threads that have not run `InvokeCallback`. `called` records what the
callbacks were called with and `taken` what `check_reply_queue` has removed, by reader, tag and
source. -/
structure RpcSystem (ι M : Type*) where
  net : Network ι M
  req : ι → ℕ → M
  spawned : ι → List (ι × ℕ)
  called : ι → List (ι × ℕ × M)
  taken : ι → ℕ → ι → List M

namespace RpcSystem

variable {ι M : Type*} [DecidableEq ι]

/-- Before any message is sent. -/
def init [Inhabited M] : RpcSystem ι M :=
  ⟨.init, fun _ _ => default, fun _ => [], fun _ => [], fun _ _ _ => []⟩

/-- `Send(dst, method, msg)` by some thread of `p`, one step of the network thread of `p`, the end
of `InvokeCallback` in the `i`-th spawned thread of `p`, or a test of a queue of `p`. -/
inductive Action (ι M : Type*)
  | send (p dst : ι) (method : ℕ) (msg : M)
  | run (p probe : ι) (finished : RPCRequest ι M → Bool)
  | invokeCallback (p : ι) (i : ℕ)
  | tryRead (p : ι) (srcs : List ι) (type : ℕ)
  | checkReplyQueue (p src : ι) (type : ℕ)

/-- The message that the network thread of `p` takes from MPI in its next step. -/
def probed (p probe : ι) (s : RpcSystem ι M) : Option (Packet M) :=
  if (s.net.threads p).draining then none else (s.net.channel probe p).head?

/-- The buffer of the callback for `tag` gets a message. -/
def parse (p : ι) (tag : ℕ) (m : M) (s : RpcSystem ι M) : RpcSystem ι M :=
  { s with req := Function.update s.req p (Function.update (s.req p) tag m) }

/-- What `Run` does with a message besides `NetworkThread.receive`. -/
def accept (callbacks : ι → ℕ → Option (CallbackInfo ι M)) (p source : ι) (packet : Packet M)
    (s : RpcSystem ι M) : RpcSystem ι M :=
  if packet.isReply then s
  else
    match callbacks p packet.tag with
    | none => s
    | some ci =>
      let s := s.parse p packet.tag packet.data
      if ci.spawnThread then
        { s with spawned := Function.update s.spawned p (s.spawned p ++ [(source, packet.tag)]) }
      else
        { s with
          called := Function.update s.called p (s.called p ++ [(source, packet.tag, packet.data)]) }

/-- A step of `Run`. -/
def run (callbacks : ι → ℕ → Option (CallbackInfo ι M)) (p probe : ι)
    (finished : RPCRequest ι M → Bool) (s : RpcSystem ι M) : RpcSystem ι M :=
  let s' := (s.probed p probe).elim s fun packet => s.accept callbacks p probe packet
  { s' with net := s.net.runStep callbacks p probe finished }

/-- `InvokeCallback(ci, rpc)`. -/
def invokeCallback (callbacks : ι → ℕ → Option (CallbackInfo ι M)) (p : ι) (i : ℕ)
    (s : RpcSystem ι M) : RpcSystem ι M :=
  match (s.spawned p)[i]? with
  | none => s
  | some (source, tag) =>
    match callbacks p tag with
    | none => s
    | some ci =>
      { s with
        net := s.net.step callbacks (.send p ⟨source, tag, true, ci.call source (s.req p tag)⟩)
        spawned := Function.update s.spawned p ((s.spawned p).eraseIdx i)
        called := Function.update s.called p (s.called p ++ [(source, tag, s.req p tag)]) }

/-- A test of the reply queue of `p` for a source and a tag. -/
def checkReplyQueue (p src : ι) (type : ℕ) (s : RpcSystem ι M) : RpcSystem ι M :=
  match (s.net.threads p).checkReplyQueue src type with
  | (none, t) => { s with net := s.net.setThread p t }
  | (some m, t) =>
    { s with
      net := s.net.setThread p t
      taken := Function.update s.taken p
        (NetworkThread.setQueue (s.taken p) type src (s.taken p type src ++ [m])) }

def step (callbacks : ι → ℕ → Option (CallbackInfo ι M)) (s : RpcSystem ι M) :
    Action ι M → RpcSystem ι M
  | .send p dst method msg =>
    { s with net := s.net.step callbacks (.send p ⟨dst, method, false, msg⟩) }
  | .run p probe finished => s.run callbacks p probe finished
  | .invokeCallback p i => s.invokeCallback callbacks p i
  | .tryRead p srcs type => { s with net := s.net.step callbacks (.tryRead p srcs type) }
  | .checkReplyQueue p src type => s.checkReplyQueue p src type

end RpcSystem

/-! ## Round trips -/

namespace Network

variable {ι M : Type*} [DecidableEq ι]

/-- A reply to `a` with this tag. -/
def isReplyFor (a : ι) (tag : ℕ) (r : RPCRequest ι M) : Bool :=
  r.target = a ∧ r.rpcType = tag ∧ r.isReply = true

/-- The replies for `a` with this tag among `rs`. -/
def repliesFor (a : ι) (tag : ℕ) (rs : List (RPCRequest ι M)) : List M :=
  (rs.filter (isReplyFor a tag)).map RPCRequest.payload

/-- The replies with this tag among `packets`. -/
def repliesOn (tag : ℕ) (packets : List (Packet M)) : List M :=
  (packets.filter fun p => p.tag = tag ∧ p.isReply = true).map Packet.data

section Messages

variable {a b : ι} {tag : ℕ} {r : RPCRequest ι M} {rs : List (RPCRequest ι M)} {p : Packet M}

@[simp] theorem repliesFor_append_singleton :
    repliesFor a tag (rs ++ [r]) =
      repliesFor a tag rs ++ if isReplyFor a tag r then [r.payload] else [] := by
  by_cases hr : isReplyFor a tag r <;> simp [repliesFor, hr]

@[simp] theorem repliesOn_append_singleton {packets : List (Packet M)} :
    repliesOn tag (packets ++ [p]) =
      repliesOn tag packets ++ if p.tag = tag ∧ p.isReply = true then [p.data] else [] := by
  by_cases hp : p.tag = tag ∧ p.isReply = true <;> simp [repliesOn, hp]

@[simp] theorem repliesOn_cons {packets : List (Packet M)} :
    repliesOn tag (p :: packets) =
      (if p.tag = tag ∧ p.isReply = true then [p.data] else []) ++ repliesOn tag packets := by
  by_cases hp : p.tag = tag ∧ p.isReply = true <;> simp [repliesOn, hp]

theorem isFor_of_isReply (hr : r.isReply = true) : isFor b tag r = false := by
  simp [isFor, hr]

theorem isReplyFor_of_not_isReply (hr : r.isReply = false) : isReplyFor a tag r = false := by
  simp [isReplyFor, hr]

end Messages

/-! The channels and the threads after the two steps that move messages. -/

variable {s : Network ι M} {p : ι} {r : RPCRequest ι M}

theorem isend_channel (a b : ι) : (s.isend p r).channel a b =
    s.channel a b ++ if a = p ∧ b = r.target then [⟨r.rpcType, r.isReply, r.payload⟩] else [] := by
  by_cases ha : a = p
  · subst ha
    by_cases hb : b = r.target
    · subst hb
      simp [isend, setChannel, setThread]
    · simp [isend, setChannel, setThread, hb]
  · simp [isend, setChannel, setThread, ha]

theorem isend_pendingSends {rs : List (RPCRequest ι M)}
    (hpend : (s.threads p).pendingSends = rs ++ [r]) (a : ι) :
    (s.threads a).pendingSends =
      ((s.isend p r).threads a).pendingSends ++ if a = p then [r] else [] := by
  by_cases ha : a = p
  · subst ha
    simp [isend, setChannel, setThread, hpend]
  · simp [isend, setChannel, setThread, ha]

theorem isend_replies (a : ι) : ((s.isend p r).threads a).replies = (s.threads a).replies := by
  by_cases ha : a = p
  · subst ha
    simp [isend, setChannel, setThread]
  · simp [isend, setChannel, setThread, ha]

theorem isend_requests (a : ι) : ((s.isend p r).threads a).requests = (s.threads a).requests := by
  by_cases ha : a = p
  · subst ha
    simp [isend, setChannel, setThread]
  · simp [isend, setChannel, setThread, ha]

/-- The network after `p` has taken a message from `probe`, which leaves `packets`. -/
def received (s : Network ι M) (p probe : ι) (t : NetworkThread ι M) (packets : List (Packet M)) :
    Network ι M :=
  (s.setThread p t).setChannel probe p packets

variable {probe : ι} {t : NetworkThread ι M} {packet : Packet M} {packets : List (Packet M)}

theorem received_channel (a b : ι) : (s.received p probe t packets).channel a b =
    if a = probe ∧ b = p then packets else s.channel a b := by
  by_cases ha : a = probe
  · subst ha
    by_cases hb : b = p
    · subst hb
      simp [received, setChannel, setThread]
    · simp [received, setChannel, setThread, hb]
  · simp [received, setChannel, setThread, ha]

@[simp] theorem received_threads_self : (s.received p probe t packets).threads p = t := by
  simp [received, setChannel, setThread]

@[simp] theorem received_returned : (s.received p probe t packets).returned = s.returned := rfl

theorem received_threads_of_ne {a : ι} (ha : a ≠ p) :
    (s.received p probe t packets).threads a = s.threads a := by
  simp [received, setChannel, setThread, ha]

/-- What the new thread has in common with the old one is the same at every process. -/
theorem received_threads_congr {X : Type*} (f : NetworkThread ι M → X) {a : ι}
    (hf : a = p → f t = f (s.threads p)) :
    f ((s.received p probe t packets).threads a) = f (s.threads a) := by
  by_cases ha : a = p
  · rw [ha, received_threads_self, hf ha]
  · rw [received_threads_of_ne ha]

theorem appended_received {a b : ι} {tag : ℕ}
    (hrequests : b = p → t.requests tag a = (s.threads p).requests tag a) :
    (s.received p probe t packets).appended a b tag = s.appended a b tag :=
  congrArg _ (received_threads_congr (fun t => t.requests tag a) hrequests)

theorem received_travelling (hchan : s.channel probe p = packet :: packets) (a b : ι) (tag : ℕ) :
    requestsOn tag (s.channel a b) =
      (if (a = probe ∧ b = p) ∧ packet.tag = tag ∧ packet.isReply = false then [packet.data]
        else []) ++ requestsOn tag ((s.received p probe t packets).channel a b) := by
  rw [received_channel]
  by_cases hab : a = probe ∧ b = p
  · obtain ⟨rfl, rfl⟩ := hab
    simp [hchan]
  · rw [if_neg hab, if_neg fun h => hab h.1, List.nil_append]

theorem received_returning (hchan : s.channel probe p = packet :: packets) (a b : ι) (tag : ℕ) :
    repliesOn tag (s.channel b a) =
      (if (b = probe ∧ a = p) ∧ packet.tag = tag ∧ packet.isReply = true then [packet.data]
        else []) ++ repliesOn tag ((s.received p probe t packets).channel b a) := by
  rw [received_channel]
  by_cases hab : b = probe ∧ a = p
  · obtain ⟨rfl, rfl⟩ := hab
    simp [hchan]
  · rw [if_neg hab, if_neg fun h => hab h.1, List.nil_append]

end Network

/-- Where the messages of a round trip are: in `pending_sends_` and the channel of the process that
asks, in the queue or the threads of the process that it asks, and on the way back to the queue of
the first. `sent`, `queued`, `called` and `taken` are all that ever came to these places. -/
@[ext] structure Trip (M : Type*) where
  sent : List M
  requested : List M
  travelling : List M
  queued : List M
  spawned : ℕ
  called : List M
  answered : List M
  returning : List M
  arrived : List M
  taken : List M

/-- What the process that is asked does in a step. -/
inductive Trip.Event (M : Type*)
  | idle
  /-- A request is parsed, for a thread of its own. -/
  | spawn (m : M)
  /-- A request is parsed and the callback runs. -/
  | call (m : M)
  /-- The callback runs in its thread. -/
  | invoke (m : M)

/-- The messages that the callback gets. -/
@[simp] def Trip.Event.called {M : Type*} : Event M → List M
  | .idle | .spawn _ => []
  | .call m | .invoke m => [m]

/-- The message that is put into the buffer of the callback. -/
@[simp] def Trip.Event.parsed {M : Type*} : Event M → Option M
  | .idle | .invoke _ => none
  | .spawn m | .call m => some m

/-- One step of one message. `cb` is the callback of the process that is asked, `buf` its buffer and
`a` the process that asks. -/
inductive Trip.Hop {ι M : Type*} (cb : Option (CallbackInfo ι M)) (a : ι) (buf : M) :
    Event M → Trip M → Trip M → Prop
  | isend {t : Trip M} {rs : List M} {m : M} : t.requested = rs ++ [m] →
      Hop cb a buf .idle t { t with requested := rs, travelling := t.travelling ++ [m] }
  | queue {t : Trip M} {m : M} {ms : List M} : cb = none → t.travelling = m :: ms →
      Hop cb a buf .idle t { t with travelling := ms, queued := t.queued ++ [m] }
  | spawn {t : Trip M} {m : M} {ms : List M} {ci : CallbackInfo ι M} : cb = some ci →
      ci.spawnThread = true → t.travelling = m :: ms →
      Hop cb a buf (.spawn m) t { t with travelling := ms, spawned := t.spawned + 1 }
  | call {t : Trip M} {m : M} {ms : List M} {ci : CallbackInfo ι M} : cb = some ci →
      ci.spawnThread = false → t.travelling = m :: ms →
      Hop cb a buf (.call m) t { t with
        travelling := ms, called := t.called ++ [m], answered := t.answered ++ [ci.call a m] }
  | invoke {t : Trip M} {k : ℕ} {ci : CallbackInfo ι M} : cb = some ci → t.spawned = k + 1 →
      Hop cb a buf (.invoke buf) t { t with
        spawned := k, called := t.called ++ [buf], answered := t.answered ++ [ci.call a buf] }
  | answer {t : Trip M} {rs : List M} {m : M} : t.answered = rs ++ [m] →
      Hop cb a buf .idle t { t with answered := rs, returning := t.returning ++ [m] }
  | deliver {t : Trip M} {m : M} {ms : List M} : t.returning = m :: ms →
      Hop cb a buf .idle t { t with returning := ms, arrived := t.arrived ++ [m] }

namespace RpcSystem

variable {ι M : Type*} [DecidableEq ι]

open Network Trip

/-- What the callback of `b` for a tag was called with by `a`. -/
def calledBy (a : ι) (tag : ℕ) (calls : List (ι × ℕ × M)) : List M :=
  (calls.filter fun c => c.1 = a ∧ c.2.1 = tag).map fun c => c.2.2

/-- What `a` asks `b` with this tag. -/
def trip (a b : ι) (tag : ℕ) (s : RpcSystem ι M) : Trip M where
  sent := messagesFor b tag (s.net.sent a)
  requested := messagesFor b tag (s.net.threads a).pendingSends
  travelling := requestsOn tag (s.net.channel a b)
  queued := s.net.appended a b tag
  spawned := (s.spawned b).count (a, tag)
  called := calledBy a tag (s.called b)
  answered := repliesFor a tag (s.net.threads b).pendingSends
  returning := repliesOn tag (s.net.channel b a)
  arrived := (s.net.threads a).replies tag b
  taken := s.taken a tag b

/-- Between `s` and `s'` one message moves, in the round trip of `a`, `b` and `tag`. -/
structure Moves (callbacks : ι → ℕ → Option (CallbackInfo ι M)) (a b : ι) (tag : ℕ)
    (e : Event M) (s s' : RpcSystem ι M) : Prop where
  hop : Hop (callbacks b tag) a (s.req b tag) e (s.trip a b tag) (s'.trip a b tag)
  rest : ∀ a' b' tag', (a', b', tag') ≠ (a, b, tag) → s'.trip a' b' tag' = s.trip a' b' tag'
  called : s'.called = Function.update s.called b
    (s.called b ++ e.called.map fun m => (a, tag, m))
  req : s'.req = (e.parsed.elim s (s.parse b tag)).req

/-- Between `s` and `s'` no message moves. -/
structure Rests (s s' : RpcSystem ι M) : Prop where
  trip : ∀ a b tag, s'.trip a b tag = s.trip a b tag
  called : s'.called = s.called
  req : s'.req = s.req

theorem Rests.refl (s : RpcSystem ι M) : Rests s s := ⟨fun _ _ _ => rfl, rfl, rfl⟩

variable {callbacks : ι → ℕ → Option (CallbackInfo ι M)} {s : RpcSystem ι M} {p : ι}

section Isend

variable {r : RPCRequest ι M} {rs : List (RPCRequest ι M)}

theorem isend_requested (hpend : (s.net.threads p).pendingSends = rs ++ [r]) (a b : ι) (tag : ℕ) :
    messagesFor b tag (s.net.threads a).pendingSends =
      messagesFor b tag ((s.net.isend p r).threads a).pendingSends ++
        if a = p ∧ isFor b tag r then [r.payload] else [] := by
  rw [isend_pendingSends hpend a]
  by_cases ha : a = p
  · simp [ha]
  · simp [ha]

theorem isend_answered (hpend : (s.net.threads p).pendingSends = rs ++ [r]) (a b : ι) (tag : ℕ) :
    repliesFor a tag (s.net.threads b).pendingSends =
      repliesFor a tag ((s.net.isend p r).threads b).pendingSends ++
        if b = p ∧ isReplyFor a tag r then [r.payload] else [] := by
  rw [isend_pendingSends hpend b]
  by_cases hb : b = p
  · simp [hb]
  · simp [hb]

theorem isend_travelling (a b : ι) (tag : ℕ) :
    requestsOn tag ((s.net.isend p r).channel a b) = requestsOn tag (s.net.channel a b) ++
      if a = p ∧ isFor b tag r then [r.payload] else [] := by
  rw [isend_channel]
  by_cases ha : a = p ∧ b = r.target
  · obtain ⟨rfl, rfl⟩ := ha
    simp [isFor]
  · have hno : ¬ (a = p ∧ isFor b tag r = true) := by
      rintro ⟨rfl, hfor⟩
      exact ha ⟨rfl, (by simpa [isFor] using hfor : r.target = b ∧ _).1.symm⟩
    rw [if_neg ha, if_neg hno, List.append_nil, List.append_nil]

theorem isend_returning (a b : ι) (tag : ℕ) :
    repliesOn tag ((s.net.isend p r).channel b a) = repliesOn tag (s.net.channel b a) ++
      if b = p ∧ isReplyFor a tag r then [r.payload] else [] := by
  rw [isend_channel]
  by_cases hb : b = p ∧ a = r.target
  · obtain ⟨rfl, rfl⟩ := hb
    simp [isReplyFor]
  · have hno : ¬ (b = p ∧ isReplyFor a tag r = true) := by
      rintro ⟨rfl, hfor⟩
      exact hb ⟨rfl, (by simpa [isReplyFor] using hfor : r.target = a ∧ _).1.symm⟩
    rw [if_neg hb, if_neg hno, List.append_nil, List.append_nil]

theorem trip_isend_of_not (hpend : (s.net.threads p).pendingSends = rs ++ [r]) {a b : ι} {tag : ℕ}
    (hask : ¬ (a = p ∧ isFor b tag r = true)) (hanswer : ¬ (b = p ∧ isReplyFor a tag r = true)) :
    trip a b tag { s with net := s.net.isend p r } = s.trip a b tag := by
  have hrequested := isend_requested hpend a b tag
  have hanswered := isend_answered hpend a b tag
  rw [if_neg hask, List.append_nil] at hrequested
  rw [if_neg hanswer, List.append_nil] at hanswered
  refine Trip.ext rfl hrequested.symm ?_ (appended_eq (isend_requests b) rfl) rfl rfl
    hanswered.symm ?_ (by simp only [trip, isend_replies]) rfl
  · simp only [trip, isend_travelling, if_neg hask, List.append_nil]
  · simp only [trip, isend_returning, if_neg hanswer, List.append_nil]

/-- A request or a reply is passed to MPI. -/
theorem moves_isend (hpend : (s.net.threads p).pendingSends = rs ++ [r]) :
    ∃ a b, Moves callbacks a b r.rpcType .idle s { s with net := s.net.isend p r } := by
  -- a request begins the way out from `p`, a reply the way back to where `p` was called from
  cases hreply : r.isReply with
  | false =>
    have hnot : ∀ a b tag, ¬ (b = p ∧ isReplyFor a tag r = true) := by
      simp [isReplyFor_of_not_isReply hreply]
    have hfor : p = p ∧ isFor r.target r.rpcType r = true := by simp [isFor, hreply]
    have hrequested := isend_requested hpend p r.target r.rpcType
    have hanswered := isend_answered hpend p r.target r.rpcType
    rw [if_pos hfor] at hrequested
    rw [if_neg (hnot _ _ _), List.append_nil] at hanswered
    refine ⟨p, r.target, ?_, ?_, by simp, rfl⟩
    · have hmoved : trip p r.target r.rpcType { s with net := s.net.isend p r } =
          { s.trip p r.target r.rpcType with
            requested := messagesFor r.target r.rpcType ((s.net.isend p r).threads p).pendingSends
            travelling := (s.trip p r.target r.rpcType).travelling ++ [r.payload] } := by
        refine Trip.ext rfl rfl ?_ (appended_eq (isend_requests _) rfl) rfl rfl hanswered.symm ?_
          (by simp only [trip, isend_replies]) rfl
        · exact (isend_travelling _ _ _).trans (by rw [if_pos hfor]; rfl)
        · simp only [trip, isend_returning, if_neg (hnot _ _ _), List.append_nil]
      rw [hmoved]
      exact .isend hrequested
    · intro a b tag hne
      refine trip_isend_of_not hpend ?_ (hnot a b tag)
      rintro ⟨rfl, hr⟩
      obtain ⟨rfl, rfl, -⟩ : r.target = b ∧ r.rpcType = tag ∧ r.isReply = false := by
        simpa [isFor] using hr
      exact hne rfl
  | true =>
    have hnot : ∀ a b tag, ¬ (a = p ∧ isFor b tag r = true) := by
      simp [isFor_of_isReply hreply]
    have hfor : p = p ∧ isReplyFor r.target r.rpcType r = true := by simp [isReplyFor, hreply]
    have hrequested := isend_requested hpend r.target p r.rpcType
    have hanswered := isend_answered hpend r.target p r.rpcType
    rw [if_neg (hnot _ _ _), List.append_nil] at hrequested
    rw [if_pos hfor] at hanswered
    refine ⟨r.target, p, ?_, ?_, by simp, rfl⟩
    · have hmoved : trip r.target p r.rpcType { s with net := s.net.isend p r } =
          { s.trip r.target p r.rpcType with
            answered := repliesFor r.target r.rpcType ((s.net.isend p r).threads p).pendingSends
            returning := (s.trip r.target p r.rpcType).returning ++ [r.payload] } := by
        refine Trip.ext rfl hrequested.symm ?_ (appended_eq (isend_requests _) rfl) rfl rfl rfl ?_
          (by simp only [trip, isend_replies]) rfl
        · simp only [trip, isend_travelling, if_neg (hnot _ _ _), List.append_nil]
        · exact (isend_returning _ _ _).trans (by rw [if_pos hfor]; rfl)
      rw [hmoved]
      exact .answer hanswered
    · intro a b tag hne
      refine trip_isend_of_not hpend (hnot a b tag) ?_
      rintro ⟨rfl, hr⟩
      obtain ⟨rfl, rfl, -⟩ : r.target = a ∧ r.rpcType = tag ∧ r.isReply = true := by
        simpa [isReplyFor] using hr
      exact hne rfl

end Isend

section Receive

variable {probe : ι} {packet : Packet M} {packets : List (Packet M)}

/-- The thread of `p` agrees with `t` on a round trip, and the message taken is not part of it. -/
theorem trip_received_of_not {s' : RpcSystem ι M} {t : NetworkThread ι M}
    (hchan : s.net.channel probe p = packet :: packets)
    (hnet : s'.net = s.net.received p probe t packets) (htaken : s'.taken = s.taken)
    {a b : ι} {tag : ℕ}
    (hask : ¬ ((a = probe ∧ b = p) ∧ packet.tag = tag ∧ packet.isReply = false))
    (hanswer : ¬ ((b = probe ∧ a = p) ∧ packet.tag = tag ∧ packet.isReply = true))
    (hrequested : messagesFor b tag t.pendingSends =
      messagesFor b tag (s.net.threads p).pendingSends)
    (hqueue : b = p → t.requests tag a = (s.net.threads p).requests tag a)
    (hreplies : a = p → t.replies tag b = (s.net.threads p).replies tag b)
    (hanswered : b = p →
      repliesFor a tag t.pendingSends = repliesFor a tag (s.net.threads p).pendingSends)
    (hspawned : (s'.spawned b).count (a, tag) = (s.spawned b).count (a, tag))
    (hcalled : calledBy a tag (s'.called b) = calledBy a tag (s.called b)) :
    s'.trip a b tag = s.trip a b tag := by
  have htravelling := received_travelling (t := t) hchan a b tag
  have hreturning := received_returning (t := t) hchan a b tag
  rw [if_neg hask, List.nil_append] at htravelling
  rw [if_neg hanswer, List.nil_append] at hreturning
  refine Trip.ext ?_ ?_ ?_ ?_ hspawned hcalled ?_ ?_ ?_ ?_ <;> simp only [trip, hnet, htaken]
  · rfl
  · exact received_threads_congr (fun t => messagesFor b tag t.pendingSends) fun _ => hrequested
  · exact htravelling.symm
  · exact appended_received hqueue
  · exact received_threads_congr (fun t => repliesFor a tag t.pendingSends) hanswered
  · exact hreturning.symm
  · exact received_threads_congr (fun t => t.replies tag b) hreplies

/-- A reply is put into the queue of its tag and source. -/
theorem moves_deliver {t : NetworkThread ι M} (hchan : s.net.channel probe p = packet :: packets)
    (hreply : packet.isReply = true) (hpend : t.pendingSends = (s.net.threads p).pendingSends)
    (hrequests : t.requests = (s.net.threads p).requests)
    (hreplies : t.replies = NetworkThread.setQueue (s.net.threads p).replies packet.tag probe
      ((s.net.threads p).replies packet.tag probe ++ [packet.data])) :
    Moves callbacks p probe packet.tag .idle s
      { s with net := s.net.received p probe t packets } := by
  refine ⟨?_, ?_, by simp, rfl⟩
  · have htravelling := received_travelling (t := t) hchan p probe packet.tag
    rw [if_neg (by simp [hreply]), List.nil_append] at htravelling
    have hmoved : trip p probe packet.tag { s with net := s.net.received p probe t packets } =
        { s.trip p probe packet.tag with
          returning := repliesOn packet.tag packets
          arrived := (s.trip p probe packet.tag).arrived ++ [packet.data] } := by
      refine Trip.ext rfl ?_ htravelling.symm ?_ rfl rfl ?_ ?_ ?_ rfl
      · exact received_threads_congr (fun t => messagesFor probe packet.tag t.pendingSends)
          fun _ => by rw [hpend]
      · exact appended_received fun _ => by rw [hrequests]
      · exact received_threads_congr (fun t => repliesFor p packet.tag t.pendingSends)
          fun _ => by rw [hpend]
      · simp [trip, received_channel]
      · simp [trip, hreplies, NetworkThread.setQueue]
    rw [hmoved]
    exact .deliver (by simp [trip, hchan, hreply])
  · intro a b tag hne
    -- the packet belongs to no other trip
    have hmatch : ¬ ((b = probe ∧ a = p) ∧ packet.tag = tag ∧ packet.isReply = true) := by
      rintro ⟨⟨rfl, rfl⟩, rfl, -⟩
      exact hne rfl
    apply trip_received_of_not hchan (by rfl) (by rfl) (by simp [hreply]) hmatch
    · rw [hpend]
    · rw [hrequests]; exact fun _ => rfl
    · intro ha
      by_cases htag : tag = packet.tag
      · have hb : b ≠ probe := fun h => hmatch ⟨⟨h, ha⟩, htag.symm, hreply⟩
        simp [hreplies, NetworkThread.setQueue, htag, hb]
      · simp [hreplies, NetworkThread.setQueue, htag]
    · rw [hpend]; exact fun _ => rfl
    · rfl
    · rfl

/-- A request without a callback is put into the queue of its tag and source. -/
theorem moves_queue {t : NetworkThread ι M} (hchan : s.net.channel probe p = packet :: packets)
    (hreply : packet.isReply = false) (hcb : callbacks p packet.tag = none)
    (hpend : t.pendingSends = (s.net.threads p).pendingSends)
    (hrequests : t.requests = NetworkThread.setQueue (s.net.threads p).requests packet.tag probe
      ((s.net.threads p).requests packet.tag probe ++ [packet.data]))
    (hreplies : t.replies = (s.net.threads p).replies) :
    Moves callbacks probe p packet.tag .idle s
      { s with net := s.net.received p probe t packets } := by
  refine ⟨?_, ?_, by simp, rfl⟩
  · have hreturning := received_returning (t := t) hchan probe p packet.tag
    rw [if_neg (by simp [hreply]), List.nil_append] at hreturning
    have hmoved : trip probe p packet.tag { s with net := s.net.received p probe t packets } =
        { s.trip probe p packet.tag with
          travelling := requestsOn packet.tag packets
          queued := (s.trip probe p packet.tag).queued ++ [packet.data] } := by
      refine Trip.ext rfl ?_ ?_ ?_ rfl rfl ?_ hreturning.symm ?_ rfl
      · exact received_threads_congr (fun t => messagesFor p packet.tag t.pendingSends)
          fun _ => by rw [hpend]
      · simp [trip, received_channel]
      · simp [trip, appended, hrequests, NetworkThread.setQueue]
      · exact received_threads_congr (fun t => repliesFor probe packet.tag t.pendingSends)
          fun _ => by rw [hpend]
      · exact received_threads_congr (fun t => t.replies packet.tag p) fun _ => by rw [hreplies]
    rw [hmoved]
    exact .queue hcb (by simp [trip, hchan, hreply])
  · intro a b tag hne
    -- the packet belongs to no other trip
    have hmatch : ¬ ((a = probe ∧ b = p) ∧ packet.tag = tag ∧ packet.isReply = false) := by
      rintro ⟨⟨rfl, rfl⟩, rfl, -⟩
      exact hne rfl
    apply trip_received_of_not hchan (by rfl) (by rfl) hmatch (by simp [hreply])
    · rw [hpend]
    · intro hb
      by_cases htag : tag = packet.tag
      · have ha : a ≠ probe := fun h => hmatch ⟨⟨h, hb⟩, htag.symm, hreply⟩
        simp [hrequests, NetworkThread.setQueue, htag, ha]
      · simp [hrequests, NetworkThread.setQueue, htag]
    · rw [hreplies]; exact fun _ => rfl
    · rw [hpend]; exact fun _ => rfl
    · rfl
    · rfl

/-- A request is parsed for the callback, which will run in a thread of its own. -/
theorem moves_spawn {t : NetworkThread ι M} {ci : CallbackInfo ι M}
    (hchan : s.net.channel probe p = packet :: packets) (hreply : packet.isReply = false)
    (hcb : callbacks p packet.tag = some ci) (hspawn : ci.spawnThread = true)
    (hpend : t.pendingSends = (s.net.threads p).pendingSends)
    (hrequests : t.requests = (s.net.threads p).requests)
    (hreplies : t.replies = (s.net.threads p).replies) :
    Moves callbacks probe p packet.tag (.spawn packet.data) s
      { s.parse p packet.tag packet.data with
        net := s.net.received p probe t packets
        spawned := Function.update s.spawned p (s.spawned p ++ [(probe, packet.tag)]) } := by
  refine ⟨?_, ?_, by simp [parse], rfl⟩
  · have hreturning := received_returning (t := t) hchan probe p packet.tag
    rw [if_neg (by simp [hreply]), List.nil_append] at hreturning
    have hmoved : trip probe p packet.tag { s.parse p packet.tag packet.data with
          net := s.net.received p probe t packets
          spawned := Function.update s.spawned p (s.spawned p ++ [(probe, packet.tag)]) } =
        { s.trip probe p packet.tag with
          travelling := requestsOn packet.tag packets
          spawned := (s.trip probe p packet.tag).spawned + 1 } := by
      refine Trip.ext rfl ?_ ?_ ?_ ?_ rfl ?_ hreturning.symm ?_ rfl
      · exact received_threads_congr (fun t => messagesFor p packet.tag t.pendingSends)
          fun _ => by rw [hpend]
      · simp [trip, received_channel]
      · exact appended_received fun _ => by rw [hrequests]
      · simp [trip]
      · exact received_threads_congr (fun t => repliesFor probe packet.tag t.pendingSends)
          fun _ => by rw [hpend]
      · exact received_threads_congr (fun t => t.replies packet.tag p) fun _ => by rw [hreplies]
    rw [hmoved]
    exact .spawn hcb hspawn (by simp [trip, hchan, hreply])
  · intro a b tag hne
    -- the packet belongs to no other trip, and the thread is for its tag and source
    have hmatch : ¬ ((a = probe ∧ b = p) ∧ packet.tag = tag ∧ packet.isReply = false) := by
      rintro ⟨⟨rfl, rfl⟩, rfl, -⟩
      exact hne rfl
    apply trip_received_of_not hchan (by rfl) (by rfl) hmatch (by simp [hreply])
    · rw [hpend]
    · rw [hrequests]; exact fun _ => rfl
    · rw [hreplies]; exact fun _ => rfl
    · rw [hpend]; exact fun _ => rfl
    · by_cases hb : b = p
      · have hpair : (probe, packet.tag) ≠ (a, tag) := by
          rintro ⟨⟩
          exact hmatch ⟨⟨rfl, hb⟩, rfl, hreply⟩
        simp [hb, hpair]
      · simp [hb]
    · rfl

/-- A request is parsed, the callback runs, and its reply waits in `pending_sends_`. -/
theorem moves_call {t : NetworkThread ι M} {ci : CallbackInfo ι M}
    (hchan : s.net.channel probe p = packet :: packets) (hreply : packet.isReply = false)
    (hcb : callbacks p packet.tag = some ci) (hspawn : ci.spawnThread = false)
    (hpend : t.pendingSends = (s.net.threads p).pendingSends ++
      [⟨probe, packet.tag, true, ci.call probe packet.data⟩])
    (hrequests : t.requests = (s.net.threads p).requests)
    (hreplies : t.replies = (s.net.threads p).replies) :
    Moves callbacks probe p packet.tag (.call packet.data) s
      { s.parse p packet.tag packet.data with
        net := s.net.received p probe t packets
        called := Function.update s.called p
          (s.called p ++ [(probe, packet.tag, packet.data)]) } := by
  refine ⟨?_, ?_, by simp, rfl⟩
  · have hreturning := received_returning (t := t) hchan probe p packet.tag
    rw [if_neg (by simp [hreply]), List.nil_append] at hreturning
    have hmoved : trip probe p packet.tag { s.parse p packet.tag packet.data with
          net := s.net.received p probe t packets
          called := Function.update s.called p
            (s.called p ++ [(probe, packet.tag, packet.data)]) } =
        { s.trip probe p packet.tag with
          travelling := requestsOn packet.tag packets
          called := (s.trip probe p packet.tag).called ++ [packet.data]
          answered := (s.trip probe p packet.tag).answered ++ [ci.call probe packet.data] } := by
      refine Trip.ext rfl ?_ ?_ ?_ rfl ?_ ?_ hreturning.symm ?_ rfl
      · exact received_threads_congr (fun t => messagesFor p packet.tag t.pendingSends)
          fun _ => by simp [hpend, isFor]
      · simp [trip, received_channel]
      · exact appended_received fun _ => by rw [hrequests]
      · simp [trip, calledBy]
      · simp [trip, hpend, isReplyFor]
      · exact received_threads_congr (fun t => t.replies packet.tag p) fun _ => by rw [hreplies]
    rw [hmoved]
    exact .call hcb hspawn (by simp [trip, hchan, hreply])
  · intro a b tag hne
    -- the packet belongs to no other trip, and the reply goes back on its own
    have hmatch : ¬ ((a = probe ∧ b = p) ∧ packet.tag = tag ∧ packet.isReply = false) := by
      rintro ⟨⟨rfl, rfl⟩, rfl, -⟩
      exact hne rfl
    apply trip_received_of_not hchan (by rfl) (by rfl) hmatch (by simp [hreply])
    · simp [hpend, isFor]
    · rw [hrequests]; exact fun _ => rfl
    · rw [hreplies]; exact fun _ => rfl
    · intro hb
      have hother : ¬ (probe = a ∧ packet.tag = tag) :=
        fun h => hmatch ⟨⟨h.1.symm, hb⟩, h.2, hreply⟩
      simp [hpend, isReplyFor, hother]
    · rfl
    · by_cases hb : b = p
      · have hother : ¬ (probe = a ∧ packet.tag = tag) :=
          fun h => hmatch ⟨⟨h.1.symm, hb⟩, h.2, hreply⟩
        simp [hb, calledBy, hother]
      · simp [hb]

end Receive

/-! ## One step -/

theorem setThread_congr {X : Type*} {t : NetworkThread ι M} (f : NetworkThread ι M → X) {a : ι}
    (hf : a = p → f t = f (s.net.threads p)) :
    f ((s.net.setThread p t).threads a) = f (s.net.threads a) := by
  by_cases ha : a = p
  · subst ha
    simpa [setThread] using hf rfl
  · simp [setThread, ha]

/-- A new thread of `p` with the messages of the old one. -/
theorem rests_setThread {t : NetworkThread ι M}
    (hpend : t.pendingSends = (s.net.threads p).pendingSends)
    (hrequests : t.requests = (s.net.threads p).requests)
    (hreplies : t.replies = (s.net.threads p).replies) :
    Rests s { s with net := s.net.setThread p t } := by
  refine ⟨fun a b tag => ?_, rfl, rfl⟩
  refine Trip.ext rfl ?_ rfl ?_ rfl rfl ?_ rfl ?_ rfl
  · exact setThread_congr (fun t => messagesFor b tag t.pendingSends) fun _ => by rw [hpend]
  · exact congrArg (s.net.returned b tag a ++ ·)
      (setThread_congr (fun t => t.requests tag a) fun _ => by rw [hrequests])
  · exact setThread_congr (fun t => repliesFor a tag t.pendingSends) fun _ => by rw [hpend]
  · exact setThread_congr (fun t => t.replies tag b) fun _ => by rw [hreplies]

/-- The network thread of a process moves at most one message. -/
theorem run_effect (callbacks : ι → ℕ → Option (CallbackInfo ι M)) (p probe : ι)
    (finished : RPCRequest ι M → Bool) (s : RpcSystem ι M) :
    Rests s (s.run callbacks p probe finished) ∨
      ∃ a b tag e, Moves callbacks a b tag e s (s.run callbacks p probe finished) := by
  -- either the last of `pending_sends_` is passed on, or a packet that has come in is dealt with
  rw [run, probed, runStep]
  by_cases hdrain : (s.net.threads p).draining = true
  · rw [if_pos hdrain, if_pos hdrain]
    cases hlast : (s.net.threads p).pendingSends.getLast? with
    | none => exact .inl (rests_setThread rfl rfl rfl)
    | some r =>
      obtain ⟨rs, hpend⟩ := List.getLast?_eq_some_iff.mp hlast
      have hmoves : ∃ a b, Moves callbacks a b r.rpcType .idle s _ := moves_isend hpend
      obtain ⟨a, b, hmoves⟩ := hmoves
      exact .inr ⟨a, b, _, _, hmoves⟩
  · rw [if_neg hdrain, if_neg hdrain]
    cases hchan : s.net.channel probe p with
    | nil => exact .inl (rests_setThread rfl rfl rfl)
    | cons packet packets =>
      refine .inr ?_
      cases hreply : packet.isReply with
      | true =>
        refine ⟨p, probe, packet.tag, .idle, ?_⟩
        simp only [List.head?_cons, Option.elim, accept, hreply, if_true]
        apply moves_deliver hchan hreply <;> simp [NetworkThread.receive, hreply]
      | false =>
        -- a request is queued for `TryRead`, or its callback runs in a thread of its own or here
        cases hcb : callbacks p packet.tag with
        | none =>
          refine ⟨probe, p, packet.tag, .idle, ?_⟩
          simp only [List.head?_cons, Option.elim, accept, hreply, hcb,
            Bool.false_eq_true, if_false]
          apply moves_queue hchan hreply hcb <;> simp [NetworkThread.receive, hreply, hcb]
        | some ci =>
          cases hspawn : ci.spawnThread with
          | true =>
            refine ⟨probe, p, packet.tag, .spawn packet.data, ?_⟩
            simp only [List.head?_cons, Option.elim, accept, hreply, hcb, hspawn,
              Bool.false_eq_true, if_false, if_true]
            apply moves_spawn hchan hreply hcb hspawn <;>
              simp [NetworkThread.receive, hreply, hcb, hspawn]
          | false =>
            refine ⟨probe, p, packet.tag, .call packet.data, ?_⟩
            simp only [List.head?_cons, Option.elim, accept, hreply, hcb, hspawn,
              Bool.false_eq_true, if_false]
            apply moves_call hchan hreply hcb hspawn <;>
              simp [NetworkThread.receive, NetworkThread.send, hreply, hcb, hspawn]

section Send

variable (callbacks) (p) (r : RPCRequest ι M)

theorem send_congr {X : Type*} (f : NetworkThread ι M → X) {a : ι}
    (hf : a = p → f ((s.net.threads p).send r) = f (s.net.threads p)) :
    f ((s.net.step callbacks (.send p r)).threads a) = f (s.net.threads a) :=
  setThread_congr f hf

theorem send_sent (a b : ι) (tag : ℕ) :
    messagesFor b tag ((s.net.step callbacks (.send p r)).sent a) =
      messagesFor b tag (s.net.sent a) ++ if a = p ∧ isFor b tag r then [r.payload] else [] := by
  by_cases ha : a = p
  · subst ha
    simp [Network.step]
  · simp [Network.step, ha]

theorem send_requested (a b : ι) (tag : ℕ) :
    messagesFor b tag ((s.net.step callbacks (.send p r)).threads a).pendingSends =
      messagesFor b tag (s.net.threads a).pendingSends ++
        if a = p ∧ isFor b tag r then [r.payload] else [] := by
  by_cases ha : a = p
  · subst ha
    simp [Network.step, setThread, NetworkThread.send]
  · simp [Network.step, setThread, ha]

theorem send_answered (a b : ι) (tag : ℕ) :
    repliesFor a tag ((s.net.step callbacks (.send p r)).threads b).pendingSends =
      repliesFor a tag (s.net.threads b).pendingSends ++
        if b = p ∧ isReplyFor a tag r then [r.payload] else [] := by
  by_cases hb : b = p
  · subst hb
    simp [Network.step, setThread, NetworkThread.send]
  · simp [Network.step, setThread, hb]

theorem send_appended (a b : ι) (tag : ℕ) :
    (s.net.step callbacks (.send p r)).appended a b tag = s.net.appended a b tag :=
  congrArg (s.net.returned b tag a ++ ·)
    (send_congr callbacks p r (fun t => t.requests tag a) fun _ => rfl)

theorem send_replies (a b : ι) (tag : ℕ) :
    ((s.net.step callbacks (.send p r)).threads a).replies tag b =
      (s.net.threads a).replies tag b :=
  send_congr callbacks p r (fun t => t.replies tag b) fun _ => rfl

end Send

/-- A `Send` adds its message to the round trip with its tag. -/
theorem trip_send (callbacks : ι → ℕ → Option (CallbackInfo ι M)) (p dst : ι) (method : ℕ) (msg : M)
    (s : RpcSystem ι M) (a b : ι) (tag : ℕ) :
    (s.step callbacks (.send p dst method msg)).trip a b tag =
      if a = p ∧ b = dst ∧ tag = method then
        { s.trip a b tag with
          sent := (s.trip a b tag).sent ++ [msg]
          requested := (s.trip a b tag).requested ++ [msg] }
      else s.trip a b tag := by
  have hfor : (a = p ∧ isFor b tag (⟨dst, method, false, msg⟩ : RPCRequest ι M) = true) ↔
      a = p ∧ b = dst ∧ tag = method := by
    simp [isFor, eq_comm (a := dst), eq_comm (a := method)]
  have hno : ¬ (b = p ∧ isReplyFor a tag (⟨dst, method, false, msg⟩ : RPCRequest ι M) = true) := by
    simp [isReplyFor]
  have hsent := send_sent (s := s) callbacks p ⟨dst, method, false, msg⟩ a b tag
  have hrequested := send_requested (s := s) callbacks p ⟨dst, method, false, msg⟩ a b tag
  have hanswered := send_answered (s := s) callbacks p ⟨dst, method, false, msg⟩ a b tag
  rw [if_neg hno, List.append_nil] at hanswered
  simp only [hfor] at hsent hrequested
  split_ifs at hsent hrequested ⊢
  · exact Trip.ext hsent hrequested rfl (send_appended callbacks ..) rfl rfl hanswered rfl
      (send_replies callbacks ..) rfl
  · rw [List.append_nil] at hsent hrequested
    exact Trip.ext hsent hrequested rfl (send_appended callbacks ..) rfl rfl hanswered rfl
      (send_replies callbacks ..) rfl

/-- The end of `InvokeCallback` in a spawned thread. -/
theorem moves_invoke {source : ι} {tag i : ℕ} {ci : CallbackInfo ι M}
    (hi : (s.spawned p)[i]? = some (source, tag)) (hcb : callbacks p tag = some ci) :
    Moves callbacks source p tag (.invoke (s.req p tag)) s (s.invokeCallback callbacks p i) := by
  have hperm : List.Perm ((source, tag) :: (s.spawned p).eraseIdx i) (s.spawned p) := by
    obtain ⟨hlt, hget⟩ := List.getElem?_eq_some_iff.mp hi
    rw [← hget]
    exact List.getElem_cons_eraseIdx_perm hlt
  -- one thread less is at work for this tag and source, and as many for the others
  have hcount : ∀ x, (s.spawned p).count x =
      ((s.spawned p).eraseIdx i).count x + if (source, tag) = x then 1 else 0 := by
    intro x
    rw [← hperm.count_eq x, List.count_cons]
    simp
  simp only [invokeCallback, hi, hcb]
  generalize hr : (⟨source, tag, true, ci.call source (s.req p tag)⟩ : RPCRequest ι M) = r
  have hpayload : r.payload = ci.call source (s.req p tag) := by rw [← hr]
  have hno : ∀ a b tag', ¬ (a = p ∧ isFor b tag' r = true) := by simp [← hr, isFor]
  have hfor : ∀ a tag', isReplyFor a tag' r = true ↔ source = a ∧ tag = tag' := by
    simp [← hr, isReplyFor]
  have hsent := send_sent (s := s) callbacks p r
  have hrequested := send_requested (s := s) callbacks p r
  have hanswered := send_answered (s := s) callbacks p r
  simp only [hno, if_false, List.append_nil] at hsent hrequested
  simp only [hfor] at hanswered
  refine ⟨?_, ?_, by simp, rfl⟩
  · have hmoved : trip source p tag { s with
          net := s.net.step callbacks (.send p r)
          spawned := Function.update s.spawned p ((s.spawned p).eraseIdx i)
          called := Function.update s.called p (s.called p ++ [(source, tag, s.req p tag)]) } =
        { s.trip source p tag with
          spawned := ((s.spawned p).eraseIdx i).count (source, tag)
          called := (s.trip source p tag).called ++ [s.req p tag]
          answered := (s.trip source p tag).answered ++ [ci.call source (s.req p tag)] } := by
      refine Trip.ext (hsent ..) (hrequested ..) rfl (send_appended callbacks ..) ?_ ?_ ?_ rfl
        (send_replies callbacks ..) rfl
      · simp [trip]
      · simp [trip, calledBy]
      · simp [trip, hanswered, hpayload]
    rw [hmoved]
    exact .invoke hcb (by simp [trip, hcount])
  · intro a b tag' hne
    have hother : b = p → ¬ (source = a ∧ tag = tag') := by
      rintro rfl ⟨rfl, rfl⟩
      exact hne rfl
    refine Trip.ext (hsent ..) (hrequested ..) rfl (send_appended callbacks ..) ?_ ?_ ?_ rfl
      (send_replies callbacks ..) rfl
    · by_cases hb : b = p
      · simp [trip, hb, hcount, hother hb]
      · simp [trip, hb]
    · by_cases hb : b = p
      · simp [trip, calledBy, hb, hother hb]
      · simp [trip, hb]
    · refine (hanswered ..).trans ?_
      rw [if_neg fun h => hother h.1 h.2, List.append_nil]
      rfl

/-- `InvokeCallback` finishes at most one thread. -/
theorem invokeCallback_effect (callbacks : ι → ℕ → Option (CallbackInfo ι M)) (p : ι) (i : ℕ)
    (s : RpcSystem ι M) :
    Rests s (s.invokeCallback callbacks p i) ∨
      ∃ a b tag e, Moves callbacks a b tag e s (s.invokeCallback callbacks p i) := by
  cases hi : (s.spawned p)[i]? with
  | none => exact .inl (by simp [invokeCallback, hi, Rests.refl])
  | some rpc =>
    obtain ⟨source, tag⟩ := rpc
    cases hcb : callbacks p tag with
    | none => exact .inl (by simp [invokeCallback, hi, hcb, Rests.refl])
    | some ci => exact .inr ⟨_, _, _, _, moves_invoke hi hcb⟩

/-- `TryRead` changes where the requests without a callback are, but not which have come. -/
theorem tryRead_effect (callbacks : ι → ℕ → Option (CallbackInfo ι M)) (p : ι) (srcs : List ι)
    (type : ℕ) (s : RpcSystem ι M) : Rests s (s.step callbacks (.tryRead p srcs type)) := by
  rw [step, Network.step]
  rcases tryRead_spec (s.net.threads p) type srcs with
    ⟨hnone, hsame⟩ | ⟨src, m, queue, hq, hsome, hnew⟩
  · rw [← Prod.eta ((s.net.threads p).tryRead type srcs), hnone, hsame]
    exact rests_setThread rfl rfl rfl
  · rw [← Prod.eta ((s.net.threads p).tryRead type srcs), hsome, hnew]
    refine ⟨fun a b tag => ?_, rfl, rfl⟩
    refine Trip.ext rfl ?_ rfl ?_ rfl rfl ?_ rfl ?_ rfl
    · exact setThread_congr (fun t => messagesFor b tag t.pendingSends) fun _ => rfl
    -- what is taken from the queue is now returned, so the two together are as they were
    · by_cases hb : b = p
      · by_cases htag : tag = type
        · by_cases ha : a = src
          · simp [trip, appended, setThread, NetworkThread.setQueue, hb, htag, ha, hq]
          · simp [trip, appended, setThread, NetworkThread.setQueue, hb, htag, ha]
        · simp [trip, appended, setThread, NetworkThread.setQueue, hb, htag]
      · simp [trip, appended, setThread, hb]
    · exact setThread_congr (fun t => repliesFor a tag t.pendingSends) fun _ => rfl
    · exact setThread_congr (fun t => t.replies tag b) fun _ => rfl

/-- `check_reply_queue` takes the first reply that has arrived, if there is one. -/
theorem trip_checkReplyQueue (p src : ι) (type : ℕ) (s : RpcSystem ι M) (a b : ι) (tag : ℕ) :
    (s.checkReplyQueue p src type).trip a b tag =
      if a = p ∧ b = src ∧ tag = type then
        { s.trip a b tag with
          arrived := (s.trip a b tag).arrived.tail
          taken := (s.trip a b tag).taken ++ (s.trip a b tag).arrived.head?.toList }
      else s.trip a b tag := by
  rw [checkReplyQueue, NetworkThread.checkReplyQueue]
  cases hq : (s.net.threads p).replies type src with
  | nil =>
    refine ((rests_setThread rfl rfl rfl).trip a b tag).trans ?_
    split_ifs with h
    · obtain ⟨rfl, rfl, rfl⟩ := h
      simp [trip, hq]
    · rfl
  | cons m queue =>
    have hpend : ∀ c : ι, ((s.net.setThread p { s.net.threads p with
        replies := NetworkThread.setQueue (s.net.threads p).replies type src queue }).threads
          c).pendingSends = (s.net.threads c).pendingSends :=
      fun c => setThread_congr (fun t => t.pendingSends) fun _ => rfl
    have hrequests : (s.net.setThread p { s.net.threads p with
        replies := NetworkThread.setQueue (s.net.threads p).replies type src queue }).appended a b
          tag = s.net.appended a b tag :=
      congrArg (s.net.returned b tag a ++ ·)
        (setThread_congr (fun t => t.requests tag a) fun _ => rfl)
    split_ifs with h
    · obtain ⟨rfl, rfl, rfl⟩ := h
      refine Trip.ext rfl ?_ rfl hrequests rfl rfl ?_ rfl ?_ ?_
      · exact congrArg (messagesFor b tag) (hpend a)
      · exact congrArg (repliesFor a tag) (hpend b)
      · simp [trip, setThread, NetworkThread.setQueue, hq]
      · simp [trip, NetworkThread.setQueue, hq]
    · refine Trip.ext rfl ?_ rfl hrequests rfl rfl ?_ rfl ?_ ?_
      · exact congrArg (messagesFor b tag) (hpend a)
      · exact congrArg (repliesFor a tag) (hpend b)
      · by_cases ha : a = p
        · by_cases htag : tag = type
          · have hb : b ≠ src := fun hb => h ⟨ha, hb, htag⟩
            simp [trip, setThread, NetworkThread.setQueue, ha, htag, hb]
          · simp [trip, setThread, NetworkThread.setQueue, ha, htag]
        · simp [trip, setThread, ha]
      · by_cases ha : a = p
        · by_cases htag : tag = type
          · have hb : b ≠ src := fun hb => h ⟨ha, hb, htag⟩
            simp [trip, NetworkThread.setQueue, ha, htag, hb]
          · simp [trip, NetworkThread.setQueue, ha, htag]
        · simp [trip, ha]

end RpcSystem

end MaiterStore
