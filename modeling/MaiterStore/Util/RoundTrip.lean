/-
# Round trips

A request that is alone in its round trip goes through stages: it is sent, travels, is handled, and
its reply comes back (`util/rpc.cc`). Each step of the network takes it to the next stage or leaves
it where it is. The network threads and callbacks can take it from any stage to the next, whatever
else waits with it.
-/

import MaiterStore.Util.RpcCalls

namespace MaiterStore

open Trip

/-! ## One round trip -/

/-- No message of the round trip is anywhere. -/
structure Trip.Quiet {M : Type*} (t : Trip M) : Prop where
  requested : t.requested = []
  travelling : t.travelling = []
  spawned : t.spawned = 0
  answered : t.answered = []
  returning : t.returning = []
  arrived : t.arrived = []

theorem Trip.Quiet.not_hop {ι M : Type*} {cb : Option (CallbackInfo ι M)} {a : ι} {buf : M}
    {e : Event M} {t t' : Trip M} (ht : t.Quiet) (hhop : Hop cb a buf e t t') : False := by
  cases hhop with
  | isend h => simp [ht.requested] at h
  | queue _ h => simp [ht.travelling] at h
  | spawn _ _ h => simp [ht.travelling] at h
  | call _ _ h => simp [ht.travelling] at h
  | invoke _ h => simp [ht.spawned] at h
  | answer h => simp [ht.answered] at h
  | deliver h => simp [ht.returning] at h

theorem Trip.Hop.spawned_of_invoke {ι M : Type*} {cb : Option (CallbackInfo ι M)} {a : ι}
    {buf m : M} {t t' : Trip M} (h : Hop cb a buf (.invoke m) t t') :
    t.spawned = t'.spawned + 1 := by
  cases h with
  | invoke _ hspawned => exact hspawned

/-- How far a round trip is. -/
inductive Stage
  | unsent
  | requested
  | travelling
  /-- In the queue for requests without a callback. -/
  | queued
  | spawned
  | answered
  | returning
  | arrived
  | taken
  deriving DecidableEq

namespace Stage

variable {ι M : Type*}

/-- The round trip for the request `m` with the reply `r`, after what was in `t`. -/
def trip (t : Trip M) (m r : M) : Stage → Trip M
  | .unsent => t
  | .requested => { t with sent := t.sent ++ [m], requested := [m] }
  | .travelling => { t with sent := t.sent ++ [m], travelling := [m] }
  | .queued => { t with sent := t.sent ++ [m], queued := t.queued ++ [m] }
  | .spawned => { t with sent := t.sent ++ [m], spawned := 1 }
  | .answered => { t with sent := t.sent ++ [m], called := t.called ++ [m], answered := [r] }
  | .returning => { t with sent := t.sent ++ [m], called := t.called ++ [m], returning := [r] }
  | .arrived => { t with sent := t.sent ++ [m], called := t.called ++ [m], arrived := [r] }
  | .taken => { t with sent := t.sent ++ [m], called := t.called ++ [m], taken := t.taken ++ [r] }

/-- The callback has run. -/
def served : Stage → Bool
  | .unsent | .requested | .travelling | .queued | .spawned => false
  | .answered | .returning | .arrived | .taken => true

/-- The steps of a round trip at a process with the callback `cb`. -/
inductive Next (cb : Option (CallbackInfo ι M)) (m : M) : Event M → Stage → Stage → Prop
  | isend : Next cb m .idle .requested .travelling
  | queue : cb = none → Next cb m .idle .travelling .queued
  | spawn {ci : CallbackInfo ι M} : cb = some ci → ci.spawnThread = true →
      Next cb m (.spawn m) .travelling .spawned
  | call {ci : CallbackInfo ι M} : cb = some ci → Next cb m (.call m) .travelling .answered
  | invoke {ci : CallbackInfo ι M} : cb = some ci → Next cb m (.invoke m) .spawned .answered
  | answer : Next cb m .idle .answered .returning
  | deliver : Next cb m .idle .returning .arrived

variable {cb : Option (CallbackInfo ι M)} {a : ι} {buf m r : M} {e : Event M} {t t' : Trip M}
  {st : Stage}

section Quiet

variable (ht : t.Quiet)
include ht

theorem trip_requested : (st.trip t m r).requested = if st = .requested then [m] else [] := by
  cases st <;> simp [trip, ht.requested]

theorem trip_travelling : (st.trip t m r).travelling = if st = .travelling then [m] else [] := by
  cases st <;> simp [trip, ht.travelling]

theorem trip_spawned : (st.trip t m r).spawned = if st = .spawned then 1 else 0 := by
  cases st <;> simp [trip, ht.spawned]

theorem trip_answered : (st.trip t m r).answered = if st = .answered then [r] else [] := by
  cases st <;> simp [trip, ht.answered]

theorem trip_returning : (st.trip t m r).returning = if st = .returning then [r] else [] := by
  cases st <;> simp [trip, ht.returning]

theorem trip_arrived : (st.trip t m r).arrived = if st = .arrived then [r] else [] := by
  cases st <;> simp [trip, ht.arrived]

end Quiet

theorem ite_eq_append_singleton {p : Prop} [Decidable p] {x y : M} {xs : List M}
    (h : (if p then [x] else []) = xs ++ [y]) : p ∧ xs = [] ∧ y = x := by
  split_ifs at h with hp
  · obtain ⟨rfl, hx⟩ := List.append_eq_singleton_iff.mp h.symm |>.resolve_right (by simp)
    exact ⟨hp, rfl, by simpa using hx⟩
  · simp at h

theorem ite_eq_cons {p : Prop} [Decidable p] {x y : M} {xs : List M}
    (h : (if p then [x] else []) = y :: xs) : p ∧ xs = [] ∧ y = x := by
  split_ifs at h with hp
  · obtain ⟨rfl, rfl⟩ := List.cons.inj h
    exact ⟨hp, rfl, rfl⟩

/-- What moves in a round trip is its one message. -/
theorem next_of_hop (ht : t.Quiet) (hbuf : st = .spawned → buf = m)
    (hr : ∀ ci, cb = some ci → ci.call a m = r) (hhop : Hop cb a buf e (st.trip t m r) t') :
    ∃ st', Next cb m e st st' ∧ t' = st'.trip t m r := by
  generalize hT : st.trip t m r = T at hhop
  -- each hop needs a message where the trip has one at its stage only, so that stage it is, and the
  -- message there is the one of the trip
  cases hhop with
  | isend hrequested =>
    rw [← hT, trip_requested ht] at hrequested
    obtain ⟨rfl, rfl, rfl⟩ := ite_eq_append_singleton hrequested
    subst hT
    exact ⟨.travelling, .isend, by simp [trip, ht.travelling, ← ht.requested]⟩
  | queue hcb htravelling =>
    rw [← hT, trip_travelling ht] at htravelling
    obtain ⟨rfl, rfl, rfl⟩ := ite_eq_cons htravelling
    subst hT
    exact ⟨.queued, .queue hcb, by simp [trip, ← ht.travelling]⟩
  | spawn hcb hspawn htravelling =>
    rw [← hT, trip_travelling ht] at htravelling
    obtain ⟨rfl, rfl, rfl⟩ := ite_eq_cons htravelling
    subst hT
    exact ⟨.spawned, .spawn hcb hspawn, by simp [trip, ht.spawned, ← ht.travelling]⟩
  | call hcb hspawn htravelling =>
    rw [← hT, trip_travelling ht] at htravelling
    obtain ⟨rfl, rfl, rfl⟩ := ite_eq_cons htravelling
    subst hT
    exact ⟨.answered, .call hcb, by simp [trip, hr _ hcb, ht.answered, ← ht.travelling]⟩
  | @invoke _ k ci hcb hspawned =>
    rw [← hT, trip_spawned ht] at hspawned
    split_ifs at hspawned with hst
    subst hst hT
    obtain rfl := hbuf rfl
    obtain rfl : k = 0 := by omega
    exact ⟨.answered, .invoke hcb, by simp [trip, hr _ hcb, ht.answered, ht.spawned]⟩
  | answer hanswered =>
    rw [← hT, trip_answered ht] at hanswered
    obtain ⟨rfl, rfl, rfl⟩ := ite_eq_append_singleton hanswered
    subst hT
    exact ⟨.returning, .answer, by simp [trip, ht.returning, ← ht.answered]⟩
  | deliver hreturning =>
    rw [← hT, trip_returning ht] at hreturning
    obtain ⟨rfl, rfl, rfl⟩ := ite_eq_cons hreturning
    subst hT
    exact ⟨.arrived, .deliver, by simp [trip, ht.arrived, ← ht.returning]⟩

variable {st' : Stage}

theorem Next.ne_unsent (h : Next cb m e st st') : st ≠ .unsent ∧ st' ≠ .unsent := by
  cases h <;> exact ⟨nofun, nofun⟩

theorem Next.ne_taken (h : Next cb m e st st') : st ≠ .taken ∧ st' ≠ .taken := by
  cases h <;> exact ⟨nofun, nofun⟩

theorem Next.event_eq_spawn (h : Next cb m e st .spawned) : e = .spawn m := by
  cases h
  rfl

theorem Next.cb_eq_none (h : Next cb m e st .queued) : cb = none := by
  cases h with
  | queue hcb => exact hcb

/-- The calls of a callback, with their tag. -/
theorem Next.calls_eq (tag : ℕ) (h : Next cb m e st st') :
    (if st'.served then [(tag, m)] else []) =
      (if st.served then [(tag, m)] else []) ++ e.called.map fun m => (tag, m) := by
  cases h <;> rfl

/-- The stages in their order. -/
def rank : Stage → ℕ
  | .unsent => 0
  | .requested => 1
  | .travelling => 2
  | .queued => 3
  | .spawned => 4
  | .answered => 5
  | .returning => 6
  | .arrived => 7
  | .taken => 8

theorem rank_injective : Function.Injective rank := by
  intro st st' h
  cases st <;> cases st' <;> first | rfl | exact absurd h (by decide)

theorem rank_le (st : Stage) : st.rank ≤ 8 := by
  cases st <;> decide

theorem Next.rank_lt (h : Next cb m e st st') : st.rank < st'.rank := by
  cases h <;> decide

end Stage

/-- Other threads neither send requests with these methods nor wait for replies to them. -/
def RpcSystem.Action.Foreign {ι M : Type*} (methods : List ℕ) : Action ι M → Prop
  | .send _ _ method _ => method ∉ methods
  | .checkReplyQueue _ _ type => type ∉ methods
  | .run .. | .invokeCallback .. | .tryRead .. => True

namespace RpcSystem

open Network

variable {ι M : Type*} [DecidableEq ι] {callbacks : ι → ℕ → Option (CallbackInfo ι M)}
  {s s' s'' : RpcSystem ι M} {p q : ι}

/-- A step of a network thread or of a callback. -/
def Action.Internal : Action ι M → Prop
  | .run .. | .invokeCallback .. => True
  | .send .. | .tryRead .. | .checkReplyQueue .. => False

omit [DecidableEq ι] in
theorem Action.Internal.foreign {act : Action ι M} (h : act.Internal)
    (methods : List ℕ) : act.Foreign methods := by
  cases act <;> trivial

/-- Network threads and callbacks can lead from `s` to `s'`. -/
def Reaches (callbacks : ι → ℕ → Option (CallbackInfo ι M)) (s s' : RpcSystem ι M) : Prop :=
  ∃ acts : List (Action ι M), (∀ act ∈ acts, act.Internal) ∧ acts.foldl (step callbacks) s = s'

theorem Reaches.refl (s : RpcSystem ι M) : Reaches callbacks s s := ⟨[], by simp, rfl⟩

theorem Reaches.trans (h : Reaches callbacks s s') (h' : Reaches callbacks s' s'') :
    Reaches callbacks s s'' := by
  obtain ⟨acts, hinternal, rfl⟩ := h
  obtain ⟨acts', hinternal', rfl⟩ := h'
  exact ⟨acts ++ acts', List.forall_mem_append.mpr ⟨hinternal, hinternal'⟩, List.foldl_append⟩

theorem reaches_step (s : RpcSystem ι M) (act : Action ι M) (hact : act.Internal) :
    Reaches callbacks s (s.step callbacks act) :=
  ⟨[act], by simpa using hact, rfl⟩

/-! ## The way of a message -/

/-- The `while` over `pending_sends_` comes to its end. -/
theorem exists_drained (callbacks : ι → ℕ → Option (CallbackInfo ι M))
    (hdrain : (s.net.threads p).draining = true) :
    ∃ s', Reaches callbacks s s' ∧ (s'.net.threads p).pendingSends = [] ∧
      (s'.net.threads p).draining = false ∧
      ∀ a, a ≠ p → ∀ b, s'.net.channel a b = s.net.channel a b := by
  induction hlen : (s.net.threads p).pendingSends.length generalizing s with
  | zero =>
    have hnil := List.length_eq_zero_iff.mp hlen
    refine ⟨_, reaches_step s (.run p p fun _ => false) trivial, ?_⟩
    simp [step, run, runStep, hdrain, hnil, setThread]
  | succ k ih =>
    obtain ⟨rs, r, hrs⟩ := List.eq_nil_or_concat (s.net.threads p).pendingSends |>.resolve_left
      (by intro hnil; simp [hnil] at hlen)
    have hnet : (s.step callbacks (.run p p fun _ => false)).net = s.net.isend p r := by
      simp [step, run, runStep, hdrain, hrs]
    have hthread : ((s.net.isend p r).threads p).draining = true ∧
        ((s.net.isend p r).threads p).pendingSends = rs := by
      simp [isend, setThread, setChannel, hdrain, hrs]
    obtain ⟨s', hreach, hpend, hdrain', hchannel⟩ := ih (s := s.step callbacks
      (.run p p fun _ => false)) (by rw [hnet]; exact hthread.1) (by
        rw [hnet, hthread.2]
        simpa [hrs] using hlen)
    refine ⟨s', (reaches_step s (.run p p fun _ => false) trivial).trans hreach, hpend, hdrain',
      fun a ha b => ?_⟩
    rw [hchannel a ha b, hnet, isend_channel, if_neg fun h => ha h.1, List.append_nil]

/-- After the probe the loop over `pending_sends_` begins. -/
theorem draining_of_run (callbacks : ι → ℕ → Option (CallbackInfo ι M)) (q : ι)
    (hdrain : (s.net.threads p).draining = false) :
    ((s.step callbacks (.run p q fun _ => false)).net.threads p).draining = true := by
  cases hchan : s.net.channel q p with
  | nil => simp [step, run, runStep, hdrain, hchan, setThread]
  | cons packet packets => simp [step, run, runStep, hdrain, hchan, setThread, setChannel]

/-- Everything in `pending_sends_` is passed to MPI. -/
theorem exists_sent (callbacks : ι → ℕ → Option (CallbackInfo ι M)) (p : ι) (s : RpcSystem ι M) :
    ∃ s', Reaches callbacks s s' ∧ (s'.net.threads p).pendingSends = [] := by
  cases hdrain : (s.net.threads p).draining with
  | true =>
    obtain ⟨s', hreach, hpend, -⟩ := exists_drained callbacks hdrain
    exact ⟨s', hreach, hpend⟩
  | false =>
    obtain ⟨s', hreach, hpend, -⟩ := exists_drained callbacks
      (draining_of_run callbacks p hdrain)
    exact ⟨s', (reaches_step s (.run p p fun _ => false) trivial).trans hreach, hpend⟩

/-- Everything that `q` has on its way to another process is received. -/
theorem exists_received (callbacks : ι → ℕ → Option (CallbackInfo ι M)) (hne : q ≠ p)
    (s : RpcSystem ι M) : ∃ s', Reaches callbacks s s' ∧ s'.net.channel q p = [] := by
  induction hlen : (s.net.channel q p).length generalizing s with
  | zero => exact ⟨s, .refl s, List.length_eq_zero_iff.mp hlen⟩
  | succ k ih =>
    -- the loop over `pending_sends_` ends before the next probe
    obtain ⟨s₁, hreach₁, hdrain, hchannel⟩ : ∃ s₁, Reaches callbacks s s₁ ∧
        (s₁.net.threads p).draining = false ∧ s₁.net.channel q p = s.net.channel q p := by
      cases hdrain : (s.net.threads p).draining with
      | true =>
        obtain ⟨s₁, hreach, -, hdrain', hchannel⟩ := exists_drained callbacks hdrain
        exact ⟨s₁, hreach, hdrain', hchannel q hne p⟩
      | false => exact ⟨s, .refl s, hdrain, rfl⟩
    obtain ⟨packet, packets, hchan⟩ := List.exists_cons_of_length_eq_add_one
      (hchannel ▸ hlen : (s₁.net.channel q p).length = k + 1)
    have hpopped : (s₁.step callbacks (.run p q fun _ => false)).net.channel q p = packets := by
      simp [step, run, runStep, hdrain, hchan, setChannel]
    obtain ⟨s', hreach, hnil⟩ := ih (s := s₁.step callbacks (.run p q fun _ => false)) (by
      rw [hpopped]
      rw [← hchannel, hchan] at hlen
      exact Nat.succ.inj hlen)
    exact ⟨s', hreach₁.trans ((reaches_step s₁ (.run p q fun _ => false) trivial).trans
      hreach), hnil⟩

/-- A message that is alone in its round trip gets on, if there is a callback. -/
theorem exists_moved {a b : ι} (hne : a ≠ b) {tag : ℕ} (hcb : (callbacks b tag).isSome)
    {t : Trip M} (ht : t.Quiet) {m r : M} {st : Stage} (htrip : s.trip a b tag = st.trip t m r)
    (hunsent : st ≠ .unsent) (hqueued : st ≠ .queued) (hrank : st.rank < 7) :
    ∃ s', Reaches callbacks s s' ∧
      ∀ t' : Trip M, t'.Quiet → s'.trip a b tag ≠ st.trip t' m r := by
  -- for each stage, the run that takes everything out of where the message is at that stage leaves
  -- nothing there, so the trip is at that stage no more
  cases st with
  | unsent => exact absurd rfl hunsent
  | requested =>
    obtain ⟨s', hreach, hpend⟩ := exists_sent callbacks a s
    refine ⟨s', hreach, fun t' ht' htrip' => ?_⟩
    have := congrArg Trip.requested htrip'
    simp [Stage.trip_requested ht', RpcSystem.trip, hpend, Network.messagesFor] at this
  | travelling =>
    obtain ⟨s', hreach, hchan⟩ := exists_received callbacks hne s
    refine ⟨s', hreach, fun t' ht' htrip' => ?_⟩
    have := congrArg Trip.travelling htrip'
    simp [Stage.trip_travelling ht', RpcSystem.trip, hchan, Network.requestsOn] at this
  | queued => exact absurd rfl hqueued
  | spawned =>
    have hspawned := congrArg Trip.spawned htrip
    rw [Stage.trip_spawned ht, if_pos rfl] at hspawned
    obtain ⟨ci, hci⟩ := Option.isSome_iff_exists.mp hcb
    have hthread : (a, tag) ∈ s.spawned b := List.count_pos_iff.mp (by
      rw [show (s.spawned b).count (a, tag) = 1 from hspawned]
      exact Nat.one_pos)
    obtain ⟨i, hi⟩ := List.mem_iff_getElem?.mp hthread
    refine ⟨_, reaches_step s (.invokeCallback b i) trivial, fun t' ht' htrip' => ?_⟩
    have hspawned' := congrArg Trip.spawned htrip'
    rw [Stage.trip_spawned ht', if_pos rfl] at hspawned'
    have hone := (moves_invoke hi hci).hop.spawned_of_invoke
    rw [hspawned] at hone
    rw [RpcSystem.step] at hspawned'
    omega
  | answered =>
    obtain ⟨s', hreach, hpend⟩ := exists_sent callbacks b s
    refine ⟨s', hreach, fun t' ht' htrip' => ?_⟩
    have := congrArg Trip.answered htrip'
    simp [Stage.trip_answered ht', RpcSystem.trip, hpend, Network.repliesFor] at this
  | returning =>
    obtain ⟨s', hreach, hchan⟩ := exists_received callbacks hne.symm s
    refine ⟨s', hreach, fun t' ht' htrip' => ?_⟩
    have := congrArg Trip.returning htrip'
    simp [Stage.trip_returning ht', RpcSystem.trip, hchan, Network.repliesOn] at this
  | arrived => exact absurd hrank (by decide)
  | taken => exact absurd hrank (by decide)

end RpcSystem

end MaiterStore
