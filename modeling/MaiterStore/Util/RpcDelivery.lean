/-
# Calls are answered once

A call may pass others on its way: `pending_sends_` is a stack, and so is what the replies wait in.
None is lost and none is doubled, though. Whatever the processes do, each request that was sent is
in exactly one place, each call of a callback has exactly one answer, and it is the response to the
message of the call.

For a callback with `spawn_thread` only the numbers agree: a thread reads its message from the
buffer of the callback, where the next request may have replaced it.
-/

import Mathlib.Algebra.Order.Group.Multiset
import Mathlib.Tactic.Abel
import MaiterStore.Util.RpcCalls

namespace MaiterStore

namespace Trip

variable {ι M : Type*}

/-- The requests that have not reached the process that is asked. -/
def outbound (t : Trip M) : Multiset M := t.requested + t.travelling

/-- The replies, wherever they are. -/
def inbound (t : Trip M) : Multiset M := t.answered + t.returning + t.arrived + t.taken

/-- The messages of a round trip are accounted for. `cb` is the callback of the process that is
asked and `a` the process that asks. -/
structure Exact (cb : Option (CallbackInfo ι M)) (a : ι) (t : Trip M) : Prop where
  queued : cb = none → (t.sent : Multiset M) = t.outbound + t.queued
  uncalled : cb = none → t.spawned = 0 ∧ t.called = [] ∧ t.inbound = 0
  called : ∀ ci, cb = some ci → ci.spawnThread = false →
    t.spawned = 0 ∧ (t.sent : Multiset M) = t.outbound + t.called
  spawned : ∀ ci, cb = some ci → ci.spawnThread = true →
    t.sent.length = t.outbound.card + t.spawned + t.called.length
  answered : ∀ ci, cb = some ci → (t.called.map (ci.call a) : Multiset M) = t.inbound

variable {cb : Option (CallbackInfo ι M)} {a : ι} {t t' : Trip M}

/-- A step that moves a message within `outbound` or within `inbound`. -/
theorem Exact.of_eq (ht : t.Exact cb a) (hsent : t'.sent = t.sent)
    (houtbound : t'.outbound = t.outbound) (hinbound : t'.inbound = t.inbound)
    (hqueued : t'.queued = t.queued) (hspawned : t'.spawned = t.spawned)
    (hcalled : t'.called = t.called) : t'.Exact cb a where
  queued hcb := by rw [hsent, houtbound, hqueued, ht.queued hcb]
  uncalled hcb := by rw [hspawned, hcalled, hinbound]; exact ht.uncalled hcb
  called ci hcb hspawn := by
    rw [hspawned, hsent, houtbound, hcalled]
    exact ht.called ci hcb hspawn
  spawned ci hcb hspawn := by
    rw [hsent, houtbound, hspawned, hcalled]
    exact ht.spawned ci hcb hspawn
  answered ci hcb := by rw [hcalled, hinbound, ht.answered ci hcb]

theorem outbound_of_travelling {m : M} {ms : List M} (htravelling : t.travelling = m :: ms) :
    t.outbound = { t with travelling := ms }.outbound + {m} := by
  rw [outbound, outbound, htravelling, ← Multiset.cons_coe, ← Multiset.singleton_add]
  abel

/-- Without a callback a request is put into the queue. -/
theorem Exact.queue (ht : t.Exact none a) {m : M} {ms : List M}
    (htravelling : t.travelling = m :: ms) :
    { t with travelling := ms, queued := t.queued ++ [m] }.Exact none a where
  queued _ := by
    have hqueued := ht.queued rfl
    rw [outbound_of_travelling htravelling] at hqueued
    rw [hqueued]
    simp only [outbound, ← Multiset.coe_add, Multiset.coe_singleton]
    abel
  uncalled := ht.uncalled
  called _ hcb := by cases hcb
  spawned _ hcb := by cases hcb
  answered _ hcb := by cases hcb

section Callback

variable {ci : CallbackInfo ι M} {m : M}

/-- A thread is started for a request. -/
theorem Exact.spawn (ht : t.Exact (some ci) a) (hspawn : ci.spawnThread = true) {ms : List M}
    (htravelling : t.travelling = m :: ms) :
    { t with travelling := ms, spawned := t.spawned + 1 }.Exact (some ci) a where
  queued hcb := by cases hcb
  uncalled hcb := by cases hcb
  called := by
    rintro _ ⟨⟩ hno
    rw [hspawn] at hno
    cases hno
  spawned := by
    rintro _ ⟨⟩ -
    have hlen := ht.spawned ci rfl hspawn
    rw [outbound_of_travelling htravelling, Multiset.card_add, Multiset.card_singleton] at hlen
    rw [hlen]
    simp only [outbound]
    omega
  answered := ht.answered

/-- A call of the callback adds its message to the calls and its answer to the replies. -/
theorem Exact.answered_call (ht : t.Exact (some ci) a) :
    ((t.called ++ [m]).map (ci.call a) : Multiset M) =
      { t with answered := t.answered ++ [ci.call a m] }.inbound := by
  rw [List.map_append, ← Multiset.coe_add, ht.answered ci rfl]
  simp only [inbound, ← Multiset.coe_add, List.map_cons, List.map_nil]
  abel

/-- The network thread calls the callback for a request. -/
theorem Exact.call (ht : t.Exact (some ci) a) (hspawn : ci.spawnThread = false) {ms : List M}
    (htravelling : t.travelling = m :: ms) :
    { t with
      travelling := ms
      called := t.called ++ [m]
      answered := t.answered ++ [ci.call a m] }.Exact (some ci) a where
  queued hcb := by cases hcb
  uncalled hcb := by cases hcb
  called := by
    rintro _ ⟨⟩ -
    obtain ⟨hspawned, hsent⟩ := ht.called ci rfl hspawn
    refine ⟨hspawned, ?_⟩
    rw [hsent, outbound_of_travelling htravelling]
    simp only [outbound, ← Multiset.coe_add, Multiset.coe_singleton]
    abel
  spawned := by
    rintro _ ⟨⟩ hyes
    rw [hspawn] at hyes
    cases hyes
  answered := by
    rintro _ ⟨⟩
    exact ht.answered_call

/-- A thread that was started calls the callback. -/
theorem Exact.invoke (ht : t.Exact (some ci) a) {k : ℕ} (hspawned : t.spawned = k + 1) :
    { t with
      spawned := k
      called := t.called ++ [m]
      answered := t.answered ++ [ci.call a m] }.Exact (some ci) a where
  queued hcb := by cases hcb
  uncalled hcb := by cases hcb
  called := by
    rintro _ ⟨⟩ hspawn
    -- without `spawn_thread` there is no thread
    have hzero := (ht.called ci rfl hspawn).1
    rw [hspawned] at hzero
    cases hzero
  spawned := by
    rintro _ ⟨⟩ hspawn
    have hlen := ht.spawned ci rfl hspawn
    rw [hspawned] at hlen
    rw [hlen, List.length_append, List.length_singleton]
    simp only [outbound]
    omega
  answered := by
    rintro _ ⟨⟩
    exact ht.answered_call

end Callback

/-- A step keeps the messages accounted for. -/
theorem Hop.exact {buf : M} {e : Event M} (hhop : Hop cb a buf e t t') (ht : t.Exact cb a) :
    t'.Exact cb a := by
  cases hhop with
  | @isend _ rs m hrequested =>
    refine ht.of_eq rfl ?_ rfl rfl rfl rfl
    rw [outbound, outbound, hrequested, ← Multiset.coe_add, ← Multiset.coe_add]
    abel
  | queue hcb htravelling =>
    obtain rfl := hcb
    exact ht.queue htravelling
  | spawn hcb hspawn htravelling =>
    obtain rfl := hcb
    exact ht.spawn hspawn htravelling
  | call hcb hspawn htravelling =>
    obtain rfl := hcb
    exact ht.call hspawn htravelling
  | invoke hcb hspawned =>
    obtain rfl := hcb
    exact ht.invoke hspawned
  | @answer _ rs m hanswered =>
    refine ht.of_eq rfl rfl ?_ rfl rfl rfl
    rw [inbound, inbound, hanswered, ← Multiset.coe_add, ← Multiset.coe_add]
    abel
  | @deliver _ m ms hreturning =>
    refine ht.of_eq rfl rfl ?_ rfl rfl rfl
    rw [inbound, inbound, hreturning, ← Multiset.cons_coe, ← Multiset.singleton_add]
    simp only [← Multiset.coe_add, Multiset.coe_singleton]
    abel

/-- One more request. -/
theorem Exact.send (ht : t.Exact cb a) (m : M) :
    { t with sent := t.sent ++ [m], requested := t.requested ++ [m] }.Exact cb a where
  queued hcb := by
    simp only [outbound, ← Multiset.coe_add, ht.queued hcb]
    abel
  uncalled := ht.uncalled
  called ci hcb hspawn := by
    obtain ⟨hspawned, hsent⟩ := ht.called ci hcb hspawn
    refine ⟨hspawned, ?_⟩
    simp only [outbound, ← Multiset.coe_add, hsent]
    abel
  spawned ci hcb hspawn := by
    have hlen := ht.spawned ci hcb hspawn
    simp only [outbound, Multiset.card_add, Multiset.coe_card, List.length_append,
      List.length_singleton] at hlen ⊢
    omega
  answered := ht.answered

/-- A reply is taken. -/
theorem Exact.take (ht : t.Exact cb a) :
    { t with
      arrived := t.arrived.tail
      taken := t.taken ++ t.arrived.head?.toList }.Exact cb a := by
  refine ht.of_eq rfl rfl ?_ rfl rfl rfl
  cases harrived : t.arrived with
  | nil => simp [inbound, harrived]
  | cons m ms =>
    simp only [inbound, harrived, List.tail_cons, List.head?_cons, Option.toList_some,
      ← Multiset.coe_add, ← Multiset.cons_coe m ms, ← Multiset.singleton_add,
      Multiset.coe_singleton]
    abel

end Trip

namespace RpcSystem

variable {ι M : Type*} [DecidableEq ι] {callbacks : ι → ℕ → Option (CallbackInfo ι M)}
  {s s' : RpcSystem ι M}

theorem Moves.exact {a b : ι} {tag : ℕ} {e : Trip.Event M} (h : Moves callbacks a b tag e s s')
    (hs : ∀ a b tag, (s.trip a b tag).Exact (callbacks b tag) a) (a' b' : ι) (tag' : ℕ) :
    (s'.trip a' b' tag').Exact (callbacks b' tag') a' := by
  by_cases heq : (a', b', tag') = (a, b, tag)
  · obtain ⟨rfl, rfl, rfl⟩ : a' = a ∧ b' = b ∧ tag' = tag := by simpa using heq
    exact h.hop.exact (hs a' b' tag')
  · rw [h.rest a' b' tag' heq]
    exact hs a' b' tag'

theorem step_exact (hs : ∀ a b tag, (s.trip a b tag).Exact (callbacks b tag) a)
    (act : Action ι M) (a b : ι) (tag : ℕ) :
    ((s.step callbacks act).trip a b tag).Exact (callbacks b tag) a := by
  cases act with
  | send p dst method msg =>
    rw [trip_send]
    split_ifs
    · exact (hs a b tag).send msg
    · exact hs a b tag
  | run p probe finished =>
    rcases run_effect callbacks p probe finished s with hrests | ⟨_, _, _, _, hmoves⟩
    · exact hrests.trip a b tag ▸ hs a b tag
    · exact hmoves.exact hs a b tag
  | invokeCallback p i =>
    rcases invokeCallback_effect callbacks p i s with hrests | ⟨_, _, _, _, hmoves⟩
    · exact hrests.trip a b tag ▸ hs a b tag
    · exact hmoves.exact hs a b tag
  | tryRead p srcs type =>
    exact (tryRead_effect callbacks p srcs type s).trip a b tag ▸ hs a b tag
  | checkReplyQueue p src type =>
    rw [step, trip_checkReplyQueue]
    split_ifs
    · exact (hs a b tag).take
    · exact hs a b tag

theorem init_exact [Inhabited M] (callbacks : ι → ℕ → Option (CallbackInfo ι M)) (a b : ι)
    (tag : ℕ) : ((init : RpcSystem ι M).trip a b tag).Exact (callbacks b tag) a :=
  ⟨fun _ => rfl, fun _ => ⟨rfl, rfl, rfl⟩, fun _ _ _ => ⟨rfl, rfl⟩, fun _ _ _ => rfl,
    fun _ _ => rfl⟩

/-- **Nothing is lost or doubled between two processes**, whatever the processes do in which order.
Every request with a tag is in `pending_sends_` or on its way, or it has come to the queue of its
tag exactly once, or the callback of the tag has been called with it exactly once. And for every
call of the callback there is exactly one reply, waiting, on its way, arrived or taken, and that is
the response to the message of the call. -/
theorem calls_answered_exactly_once [Inhabited M]
    (callbacks : ι → ℕ → Option (CallbackInfo ι M)) (acts : List (Action ι M)) (a b : ι) (tag : ℕ) :
    ((acts.foldl (step callbacks) init).trip a b tag).Exact (callbacks b tag) a := by
  induction acts using List.reverseRecOn generalizing a b tag with
  | nil => exact init_exact callbacks a b tag
  | append_singleton acts act ih =>
    rw [List.foldl_append]
    exact step_exact ih act a b tag

end RpcSystem

end MaiterStore
