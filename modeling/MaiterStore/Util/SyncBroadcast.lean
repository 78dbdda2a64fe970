/-
# Synchronous broadcasts

`SyncBroadcast(method, msg)` (`util/rpc.cc`) sends a message to every process but the first, and
then takes replies from the queues of the method, process after process, until it has counted as
many as there are processes that it asked. The master uses it to hand out shards, to flush and apply
the updates, to clear and swap tables, and to restore a checkpoint.

It is a barrier. Whatever else is sent in between, once a call has returned, every process has run
the callback of the method for it, exactly once and after those of all earlier calls. As long as
every process has a callback for the method, the call can always return. If one has none, it never
does.
-/

import Mathlib.Data.Fintype.Card
import MaiterStore.Util.RoundTrip

namespace MaiterStore

open Trip

/-- Where the thread that calls `SyncBroadcast(method, msg)` is: in the loop of `Broadcast` before
`Send(i, method, msg)`, or in `WaitForSync` with `count` before the test of the queue of `i`. -/
inductive SyncBroadcast (M : Type*)
  | idle
  | broadcast (method : ℕ) (msg : M) (i : ℕ)
  | wait (method : ℕ) (msg : M) (count : ℤ) (i : ℕ)

/-- The call that is being made. -/
def SyncBroadcast.current {M : Type*} : SyncBroadcast M → Option (ℕ × M)
  | .idle => none
  | .broadcast method msg _ | .wait method msg _ _ => some (method, msg)

/-- `n + 1` processes, the first of which makes a sequence of calls. -/
structure Broadcaster (n : ℕ) (M : Type*) where
  rpc : RpcSystem (Fin (n + 1)) M
  sync : SyncBroadcast M
  calls : List (ℕ × M)
  returned : List (ℕ × M)

namespace Broadcaster

variable {n : ℕ} {M : Type*}

/-- Before the first of the calls. -/
def init [Inhabited M] (calls : List (ℕ × M)) : Broadcaster n M := ⟨.init, .idle, calls, []⟩

/-- A step of the thread that makes the calls. -/
def advance (callbacks : Fin (n + 1) → ℕ → Option (CallbackInfo (Fin (n + 1)) M))
    (s : Broadcaster n M) : Broadcaster n M :=
  match s.sync with
  | .idle =>
    match s.calls with
    | [] => s
    | (method, msg) :: calls => { s with sync := .broadcast method msg 1, calls := calls }
  | .broadcast method msg i =>
    if h : i < n + 1 then
      { s with
        rpc := s.rpc.step callbacks (.send 0 ⟨i, h⟩ method msg)
        sync := .broadcast method msg (i + 1) }
    -- `WaitForSync(method, world_->Get_size() - 1)` begins with the test of its `while`
    else { s with sync := .wait method msg n (n + 1) }
  | .wait method msg count i =>
    if h : i < n + 1 then
      { s with
        rpc := s.rpc.checkReplyQueue 0 ⟨i, h⟩ method
        sync := .wait method msg
          (if ((s.rpc.net.threads 0).checkReplyQueue ⟨i, h⟩ method).1.isSome then count - 1
            else count) (i + 1) }
    else if 0 < count then { s with sync := .wait method msg count 0 }
    else { s with sync := .idle, returned := s.returned ++ [(method, msg)] }

/-- A step of the thread that makes the calls, or of any other thread. -/
inductive Event (n : ℕ) (M : Type*)
  | advance
  | rpc (act : RpcSystem.Action (Fin (n + 1)) M)

def step (callbacks : Fin (n + 1) → ℕ → Option (CallbackInfo (Fin (n + 1)) M))
    (s : Broadcaster n M) : Event n M → Broadcaster n M
  | .advance => s.advance callbacks
  | .rpc act => { s with rpc := s.rpc.step callbacks act }

end Broadcaster

/-- The others leave the methods of the calls alone. -/
def Broadcaster.Event.Foreign {n : ℕ} {M : Type*} (methods : List ℕ) : Event n M → Prop
  | .advance => True
  | .rpc act => act.Foreign methods

/-! ## All round trips of a call -/

namespace RpcSystem

variable {n : ℕ} {M : Type*}

/-- What `b` responds to a call of the first process. -/
def response (callbacks : Fin (n + 1) → ℕ → Option (CallbackInfo (Fin (n + 1)) M))
    (b : Fin (n + 1)) (call : ℕ × M) : M :=
  ((callbacks b call.1).map fun ci => ci.call 0 call.2).getD call.2

/-- The stage of a round trip, if `stage` gives those of the current call. -/
def stageAt (stage : Fin (n + 1) → Stage) (call : ℕ × M) (a b : Fin (n + 1)) (tag : ℕ) : Stage :=
  if a = 0 ∧ tag = call.1 then stage b else .unsent

/-- Of the requests with these methods only those of `call` are on their way, each at its stage.
`done` are the calls before it. -/
structure Carries (callbacks : Fin (n + 1) → ℕ → Option (CallbackInfo (Fin (n + 1)) M))
    (methods : List ℕ) (call : ℕ × M) (stage : Fin (n + 1) → Stage) (done : List (ℕ × M))
    (s : RpcSystem (Fin (n + 1)) M) : Prop where
  trip : ∀ a b tag, tag ∈ methods → ∃ t : Trip M, t.Quiet ∧ s.trip a b tag =
    (stageAt stage call a b tag).trip t call.2 (response callbacks b call)
  called : ∀ b, b ≠ 0 → (s.called b).filter (fun c => c.2.1 ∈ methods) =
    (done ++ if (stage b).served then [call] else []).map fun c => (0, c)
  req : ∀ b, stage b = .spawned → s.req b call.1 = call.2
  mem : ∀ b, stage b ≠ .unsent → call.1 ∈ methods
  unheard : ∀ b, stage b = .queued → callbacks b call.1 = none
  first : stage 0 = .unsent

variable {callbacks : Fin (n + 1) → ℕ → Option (CallbackInfo (Fin (n + 1)) M)} {methods : List ℕ}
  {call : ℕ × M} {stage : Fin (n + 1) → Stage} {done : List (ℕ × M)}
  {s s' : RpcSystem (Fin (n + 1)) M}

/-- Some round trips go on to their next stage. -/
def Advances (callbacks : Fin (n + 1) → ℕ → Option (CallbackInfo (Fin (n + 1)) M))
    (call : ℕ × M) (stage stage' : Fin (n + 1) → Stage) : Prop :=
  ∀ b, stage' b = stage b ∨ ∃ e, Stage.Next (callbacks b call.1) call.2 e (stage b) (stage' b)

theorem Carries.rests (hs : Carries callbacks methods call stage done s) (h : Rests s s') :
    Carries callbacks methods call stage done s' where
  trip a b tag htag := h.trip a b tag ▸ hs.trip a b tag htag
  called b hb := h.called ▸ hs.called b hb
  req b hb := h.req ▸ hs.req b hb
  mem := hs.mem
  unheard := hs.unheard
  first := hs.first

theorem Moves.req_of_ne {a b : Fin (n + 1)} {tag : ℕ} {e : Event M}
    (h : Moves callbacks a b tag e s s') {b' : Fin (n + 1)} {tag' : ℕ} (hne : b' = b → tag' ≠ tag) :
    s'.req b' tag' = s.req b' tag' := by
  have hparse : ∀ m, (s.parse b tag m).req b' tag' = s.req b' tag' := by
    intro m
    by_cases hb : b' = b
    · simp [parse, hb, hne hb]
    · simp [parse, hb]
  rw [h.req]
  cases e.parsed with
  | none => rfl
  | some m => exact hparse m

/-- A message of another method moves. -/
theorem Carries.moves_of_notMem (hs : Carries callbacks methods call stage done s)
    {a b : Fin (n + 1)} {tag : ℕ} {e : Event M} (h : Moves callbacks a b tag e s s')
    (htag : tag ∉ methods) : Carries callbacks methods call stage done s' where
  trip a' b' tag' htag' := by
    have hne : (a', b', tag') ≠ (a, b, tag) := by
      rintro ⟨⟩
      exact htag htag'
    rw [h.rest a' b' tag' hne]
    exact hs.trip a' b' tag' htag'
  called b' hb' := by
    rw [← hs.called b' hb', h.called]
    by_cases hb : b' = b
    · subst hb
      simp [List.filter_append, htag]
    · simp [hb]
  req b' hb' := by
    have hmem : call.1 ∈ methods := hs.mem b' (by simp [hb'])
    rw [h.req_of_ne fun _ heq => htag (heq ▸ hmem)]
    exact hs.req b' hb'
  mem := hs.mem
  unheard := hs.unheard
  first := hs.first

theorem stageAt_call (stage : Fin (n + 1) → Stage) (call : ℕ × M) (b : Fin (n + 1)) :
    stageAt stage call 0 b call.1 = stage b :=
  if_pos ⟨rfl, rfl⟩

theorem stageAt_update_of_ne (stage : Fin (n + 1) → Stage) (call : ℕ × M) {a b b' : Fin (n + 1)}
    {tag : ℕ} {st : Stage} (hne : (a, b', tag) ≠ (0, b, call.1)) :
    stageAt (Function.update stage b st) call a b' tag = stageAt stage call a b' tag := by
  rw [stageAt, stageAt]
  split_ifs with h
  · have hb : b' ≠ b := by
      rintro rfl
      exact hne (by rw [h.1, h.2])
    rw [Function.update_of_ne hb]
  · rfl

/-- A message of the call moves, and with it a round trip. -/
theorem Carries.moves_of_mem (hs : Carries callbacks methods call stage done s)
    {a b : Fin (n + 1)} {tag : ℕ} {e : Event M} (h : Moves callbacks a b tag e s s')
    (htag : tag ∈ methods) :
    ∃ stage', Carries callbacks methods call stage' done s' ∧
      Advances callbacks call stage stage' := by
  obtain ⟨t, ht, htrip⟩ := hs.trip a b tag htag
  have hhop := h.hop
  rw [htrip] at hhop
  -- only the trips of the call are under way
  obtain ⟨rfl, rfl⟩ : a = 0 ∧ tag = call.1 := by
    by_contra hno
    rw [stageAt, if_neg hno] at hhop
    exact ht.not_hop hhop
  rw [stageAt_call] at hhop
  obtain ⟨st, hnext, htrip'⟩ := Stage.next_of_hop ht (hs.req b)
    (fun ci hci => by rw [response, hci]; rfl) hhop
  have hstage : ∀ b', b' ≠ b → Function.update stage b st b' = stage b' :=
    fun _ hb => Function.update_of_ne hb ..
  refine ⟨Function.update stage b st, ⟨?_, ?_, ?_, ?_, ?_, ?_⟩, ?_⟩
  · intro a' b' tag' htag'
    by_cases heq : (a', b', tag') = (0, b, call.1)
    · obtain ⟨rfl, rfl, rfl⟩ : a' = 0 ∧ b' = b ∧ tag' = call.1 := by simpa using heq
      exact ⟨t, ht, by rw [htrip', stageAt_call, Function.update_self]⟩
    · rw [h.rest a' b' tag' heq, stageAt_update_of_ne stage call heq]
      exact hs.trip a' b' tag' htag'
  · intro b' hb'
    rw [h.called]
    by_cases hb : b' = b
    · subst hb
      have hkept : (e.called.map fun m => ((0 : Fin (n + 1)), call.1, m)).filter
          (fun c => c.2.1 ∈ methods) = e.called.map fun m => (0, call.1, m) :=
        List.filter_eq_self.mpr (by simp [htag])
      rw [Function.update_self, Function.update_self, hnext.calls_eq call.1, List.filter_append,
        hs.called b' hb', hkept, ← List.append_assoc]
      simp
    · rw [Function.update_of_ne hb, hstage b' hb]
      exact hs.called b' hb'
  · intro b' hb'
    by_cases hb : b' = b
    · subst hb
      rw [Function.update_self] at hb'
      subst hb'
      rw [h.req, hnext.event_eq_spawn]
      simp [parse]
    · rw [hstage b' hb] at hb'
      rw [h.req_of_ne fun heq => absurd heq hb]
      exact hs.req b' hb'
  · exact fun _ _ => htag
  · intro b' hb'
    by_cases hb : b' = b
    · subst hb
      rw [Function.update_self] at hb'
      subst hb'
      exact hnext.cb_eq_none
    · rw [hstage b' hb] at hb'
      exact hs.unheard b' hb'
  · have hb : b ≠ 0 := by
      rintro rfl
      exact hnext.ne_unsent.1 hs.first
    rw [hstage 0 hb.symm, hs.first]
  · intro b'
    by_cases hb : b' = b
    · subst hb
      exact .inr ⟨e, by simpa using hnext⟩
    · exact .inl (hstage b' hb)

/-- Whatever moves, the round trips of the call go on. -/
theorem Carries.effect (hs : Carries callbacks methods call stage done s)
    (h : Rests s s' ∨ ∃ a b tag e, Moves callbacks a b tag e s s') :
    ∃ stage', Carries callbacks methods call stage' done s' ∧
      Advances callbacks call stage stage' := by
  rcases h with hrests | ⟨a, b, tag, e, hmoves⟩
  · exact ⟨stage, hs.rests hrests, fun _ => .inl rfl⟩
  · by_cases htag : tag ∈ methods
    · exact hs.moves_of_mem hmoves htag
    · exact ⟨stage, hs.moves_of_notMem hmoves htag, fun _ => .inl rfl⟩

theorem checkReplyQueue_called (p src : Fin (n + 1)) (type : ℕ) (s : RpcSystem (Fin (n + 1)) M) :
    (s.checkReplyQueue p src type).called = s.called ∧
      (s.checkReplyQueue p src type).req = s.req := by
  rw [checkReplyQueue]
  rcases (s.net.threads p).checkReplyQueue src type with ⟨_ | m, t⟩ <;> exact ⟨rfl, rfl⟩

/-- A step of another thread. -/
theorem Carries.step (hs : Carries callbacks methods call stage done s)
    {act : Action (Fin (n + 1)) M} (hact : act.Foreign methods) :
    ∃ stage', Carries callbacks methods call stage' done (s.step callbacks act) ∧
      Advances callbacks call stage stage' := by
  cases act with
  | send p dst method msg =>
    refine ⟨stage, ⟨fun a b tag htag => ?_, hs.called, hs.req, hs.mem, hs.unheard, hs.first⟩,
      fun _ => .inl rfl⟩
    have hne : ¬ (a = p ∧ b = dst ∧ tag = method) := fun h => hact (h.2.2 ▸ htag)
    rw [trip_send, if_neg hne]
    exact hs.trip a b tag htag
  | run p probe finished => exact hs.effect (run_effect callbacks p probe finished s)
  | invokeCallback p i => exact hs.effect (invokeCallback_effect callbacks p i s)
  | tryRead p srcs type => exact hs.effect (.inl (tryRead_effect callbacks p srcs type s))
  | checkReplyQueue p src type =>
    obtain ⟨hcalled, hreq⟩ := checkReplyQueue_called p src type s
    refine ⟨stage, ⟨fun a b tag htag => ?_, ?_, ?_, hs.mem, hs.unheard, hs.first⟩,
      fun _ => .inl rfl⟩
    · have hne : ¬ (a = p ∧ b = src ∧ tag = type) := fun h => hact (h.2.2 ▸ htag)
      rw [RpcSystem.step, trip_checkReplyQueue, if_neg hne]
      exact hs.trip a b tag htag
    · rw [RpcSystem.step, hcalled]
      exact hs.called
    · rw [RpcSystem.step, hreq]
      exact hs.req

/-- `Broadcast` sends the request of the call to `b`. -/
theorem Carries.send (hs : Carries callbacks methods call stage done s) {b : Fin (n + 1)}
    (hb : b ≠ 0) (hstage : stage b = .unsent) (hmem : call.1 ∈ methods) :
    Carries callbacks methods call (Function.update stage b .requested) done
      (s.step callbacks (.send 0 b call.1 call.2)) where
  -- the trip to `b` begins; those of other receivers and tags are left alone
  trip a b' tag htag := by
    obtain ⟨t, ht, htrip⟩ := hs.trip a b' tag htag
    refine ⟨t, ht, ?_⟩
    rw [trip_send]
    by_cases heq : (a, b', tag) = (0, b, call.1)
    · obtain ⟨rfl, rfl, rfl⟩ : a = 0 ∧ b' = b ∧ tag = call.1 := by simpa using heq
      rw [if_pos ⟨rfl, rfl, rfl⟩, htrip, stageAt_call, stageAt_call, hstage, Function.update_self]
      simp [Stage.trip, ht.requested]
    · rw [if_neg (by simpa using heq), stageAt_update_of_ne stage call heq, htrip]
  called b' hb' := by
    by_cases h : b' = b
    · rw [h, Function.update_self]
      exact (hs.called b hb).trans (by rw [hstage]; rfl)
    · rw [Function.update_of_ne h]
      exact hs.called b' hb'
  req b' hb' := by
    by_cases h : b' = b
    · rw [h, Function.update_self] at hb'
      cases hb'
    · rw [Function.update_of_ne h] at hb'
      exact hs.req b' hb'
  mem _ _ := hmem
  unheard b' hb' := by
    by_cases h : b' = b
    · rw [h, Function.update_self] at hb'
      cases hb'
    · rw [Function.update_of_ne h] at hb'
      exact hs.unheard b' hb'
  first := by rw [Function.update_of_ne hb.symm, hs.first]

/-- `WaitForSync` finds a reply in the queue of `b` if it has arrived. -/
theorem Carries.isSome_checkReplyQueue (hs : Carries callbacks methods call stage done s)
    (hmem : call.1 ∈ methods) (b : Fin (n + 1)) :
    ((s.net.threads 0).checkReplyQueue b call.1).1.isSome = true ↔ stage b = .arrived := by
  obtain ⟨t, ht, htrip⟩ := hs.trip 0 b call.1 hmem
  have harrived := congrArg Trip.arrived htrip
  rw [Stage.trip_arrived ht, stageAt_call] at harrived
  have hreplies : (s.net.threads 0).replies call.1 b =
      if stage b = .arrived then [response callbacks b call] else [] := harrived
  rw [NetworkThread.checkReplyQueue, hreplies]
  split_ifs with h <;> simp [h]

/-- `WaitForSync` tests the queue of `b`. -/
theorem Carries.checkReplyQueue (hs : Carries callbacks methods call stage done s)
    (b : Fin (n + 1)) :
    Carries callbacks methods call
      (Function.update stage b (if stage b = .arrived then .taken else stage b)) done
      (s.checkReplyQueue 0 b call.1) where
  trip a b' tag htag := by
    obtain ⟨t, ht, htrip⟩ := hs.trip a b' tag htag
    refine ⟨t, ht, ?_⟩
    rw [trip_checkReplyQueue]
    by_cases heq : (a, b', tag) = (0, b, call.1)
    · obtain ⟨rfl, rfl, rfl⟩ : a = 0 ∧ b' = b ∧ tag = call.1 := by simpa using heq
      rw [stageAt_call] at htrip
      rw [if_pos ⟨rfl, rfl, rfl⟩, stageAt_call, Function.update_self, htrip, Stage.trip_arrived ht]
      -- the reply is taken, or there was none
      split_ifs with hstage
      · rw [hstage]
        simp [Stage.trip, ht.arrived]
      · have harrived : ((stage b').trip t call.2 (response callbacks b' call)).arrived = [] := by
          rw [Stage.trip_arrived ht, if_neg hstage]
        refine Trip.ext rfl rfl rfl rfl rfl rfl rfl rfl harrived.symm ?_
        exact List.append_nil _
    · rw [if_neg (by simpa using heq), stageAt_update_of_ne stage call heq, htrip]
  called b' hb' := by
    rw [(checkReplyQueue_called 0 b call.1 s).1, hs.called b' hb']
    by_cases h : b' = b
    · subst h
      rw [Function.update_self]
      by_cases hstage : stage b' = .arrived
      · simp [hstage, Stage.served]
      · rw [if_neg hstage]
    · rw [Function.update_of_ne h]
  req b' hb' := by
    rw [(checkReplyQueue_called 0 b call.1 s).2]
    refine hs.req b' ?_
    by_cases h : b' = b
    · subst h
      rw [Function.update_self] at hb'
      split_ifs at hb' with hstage
      exact hb'
    · rwa [Function.update_of_ne h] at hb'
  mem b' hb' := by
    refine hs.mem b' fun hunsent => hb' ?_
    by_cases h : b' = b
    · subst h
      rw [Function.update_self, hunsent]
      rfl
    · rwa [Function.update_of_ne h]
  unheard b' hb' := by
    refine hs.unheard b' ?_
    by_cases h : b' = b
    · subst h
      rw [Function.update_self] at hb'
      split_ifs at hb' with hstage
      exact hb'
    · rwa [Function.update_of_ne h] at hb'
  first := by
    by_cases h : (0 : Fin (n + 1)) = b
    · rw [← h, Function.update_self, hs.first]
      rfl
    · rw [Function.update_of_ne h, hs.first]

theorem carries_of_quiet (hquiet : ∀ a b tag, tag ∈ methods → (s.trip a b tag).Quiet)
    (hcalled : ∀ b, b ≠ 0 → (s.called b).filter (fun c => c.2.1 ∈ methods) =
      done.map fun c => (0, c)) (call : ℕ × M) :
    Carries callbacks methods call (fun _ => .unsent) done s where
  trip a b tag htag := ⟨_, hquiet a b tag htag, by rw [stageAt, ite_self]; rfl⟩
  called b hb := by rw [hcalled b hb, Stage.served, if_neg (by simp), List.append_nil]
  req _ hb := by cases hb
  mem _ hb := absurd rfl hb
  unheard _ hb := by cases hb
  first := rfl

theorem carries_init [Inhabited M]
    (callbacks : Fin (n + 1) → ℕ → Option (CallbackInfo (Fin (n + 1)) M)) (methods : List ℕ)
    (call : ℕ × M) : Carries callbacks methods call (fun _ => .unsent) [] init :=
  carries_of_quiet (fun _ _ _ _ => ⟨rfl, rfl, rfl, rfl, rfl, rfl⟩) (fun _ _ => rfl) call

/-- Before its messages are sent, any call may be the current one. -/
theorem Carries.start (hs : Carries callbacks methods call stage done s)
    (hunsent : ∀ b, stage b = .unsent) (call' : ℕ × M) :
    Carries callbacks methods call' (fun _ => .unsent) done s := by
  refine carries_of_quiet (fun a b tag htag => ?_) (fun b hb => ?_) call'
  · obtain ⟨t, ht, htrip⟩ := hs.trip a b tag htag
    rw [htrip, stageAt, hunsent, ite_self]
    exact ht
  · rw [hs.called b hb, hunsent, Stage.served, if_neg (by simp), List.append_nil]

/-- All replies have been taken. -/
theorem Carries.complete (hs : Carries callbacks methods call stage done s)
    (htaken : ∀ b, b ≠ 0 → stage b = .taken) :
    Carries callbacks methods call (fun _ => .unsent) (done ++ [call]) s := by
  refine carries_of_quiet (fun a b tag htag => ?_) (fun b hb => ?_) call
  · obtain ⟨t, ht, htrip⟩ := hs.trip a b tag htag
    rw [htrip, stageAt]
    split_ifs
    · by_cases hb : b = 0
      · rw [hb, hs.first]
        exact ht
      · rw [htaken b hb]
        exact ⟨ht.1, ht.2, ht.3, ht.4, ht.5, ht.6⟩
    · exact ht
  · rw [hs.called b hb, htaken b hb, Stage.served, if_pos rfl]

end RpcSystem

/-! ## The barrier -/

namespace Broadcaster

open RpcSystem

variable {n : ℕ} {M : Type*}

/-- The processes whose replies are not counted yet. -/
def outstanding (stage : Fin (n + 1) → Stage) : Finset (Fin (n + 1)) :=
  Finset.univ.filter fun b => b ≠ 0 ∧ stage b ≠ .taken

/-- Where the round trips may be while the thread that makes the calls is somewhere. -/
def Phase (methods : List ℕ) (call : ℕ × M) (stage : Fin (n + 1) → Stage) :
    SyncBroadcast M → Prop
  | .idle => ∀ b, stage b = .unsent
  | .broadcast method msg i => call = (method, msg) ∧ method ∈ methods ∧ 1 ≤ i ∧
      ∀ b, b ≠ 0 → stage b ≠ .taken ∧ (stage b = .unsent ↔ i ≤ b.val)
  | .wait method msg count _ => call = (method, msg) ∧ method ∈ methods ∧
      (∀ b, b ≠ 0 → stage b ≠ .unsent) ∧ count = (outstanding stage).card

structure Inv (callbacks : Fin (n + 1) → ℕ → Option (CallbackInfo (Fin (n + 1)) M))
    (methods : List ℕ) (call : ℕ × M) (stage : Fin (n + 1) → Stage) (s : Broadcaster n M) :
    Prop where
  carries : s.rpc.Carries callbacks methods call stage s.returned
  calls : ∀ c ∈ s.calls, c.1 ∈ methods
  phase : Phase methods call stage s.sync

variable {callbacks : Fin (n + 1) → ℕ → Option (CallbackInfo (Fin (n + 1)) M)} {methods : List ℕ}
  {call : ℕ × M} {stage stage' : Fin (n + 1) → Stage} {s : Broadcaster n M}

theorem unsent_iff_of_advances (h : Advances callbacks call stage stage') (b : Fin (n + 1)) :
    stage' b = .unsent ↔ stage b = .unsent := by
  rcases h b with heq | ⟨e, hnext⟩
  · rw [heq]
  · exact iff_of_false hnext.ne_unsent.2 hnext.ne_unsent.1

theorem taken_iff_of_advances (h : Advances callbacks call stage stage') (b : Fin (n + 1)) :
    stage' b = .taken ↔ stage b = .taken := by
  rcases h b with heq | ⟨e, hnext⟩
  · rw [heq]
  · exact iff_of_false hnext.ne_taken.2 hnext.ne_taken.1

/-- What the network does leaves the count of the replies right. -/
theorem Phase.advances {sync : SyncBroadcast M} (hphase : Phase methods call stage sync)
    (h : Advances callbacks call stage stage') : Phase methods call stage' sync := by
  have hunsent := unsent_iff_of_advances h
  have htaken := taken_iff_of_advances h
  cases sync with
  | idle => exact fun b => (hunsent b).mpr (hphase b)
  | broadcast method msg i =>
    obtain ⟨hcall, hmem, hi, hstage⟩ := hphase
    refine ⟨hcall, hmem, hi, fun b hb => ?_⟩
    rw [Ne, htaken, hunsent]
    exact hstage b hb
  | wait method msg count i =>
    obtain ⟨hcall, hmem, hstage, hcount⟩ := hphase
    refine ⟨hcall, hmem, fun b hb => ?_, ?_⟩
    · rw [Ne, hunsent]
      exact hstage b hb
    · simp only [hcount, outstanding, Ne, htaken]

theorem Inv.rpc_step (hs : Inv callbacks methods call stage s) {act : Action (Fin (n + 1)) M}
    (hact : act.Foreign methods) :
    ∃ stage', Inv callbacks methods call stage' (s.step callbacks (.rpc act)) ∧
      Advances callbacks call stage stage' := by
  obtain ⟨stage', hcarries, hadv⟩ := hs.carries.step hact
  exact ⟨stage', ⟨hcarries, hs.calls, hs.phase.advances hadv⟩, hadv⟩

theorem card_outstanding (hstage : ∀ b, b ≠ 0 → stage b ≠ .taken) :
    (outstanding stage).card = n := by
  have houtstanding : outstanding stage = Finset.univ.erase 0 := by
    ext b
    simpa [outstanding] using hstage b
  rw [houtstanding, Finset.card_erase_of_mem (Finset.mem_univ _), Finset.card_univ,
    Fintype.card_fin, Nat.add_sub_cancel]

/-- A reply that is found is one less to wait for. -/
theorem card_outstanding_update {b : Fin (n + 1)} (hb : b ≠ 0) (hstage : stage b = .arrived) :
    (outstanding (Function.update stage b .taken)).card + 1 = (outstanding stage).card := by
  have hmem : b ∈ outstanding stage := by simp [outstanding, hb, hstage]
  have herase : outstanding (Function.update stage b .taken) = (outstanding stage).erase b := by
    ext c
    by_cases hc : c = b
    · simp [outstanding, hc]
    · simp [outstanding, hc]
  rw [herase, Finset.card_erase_add_one hmem]

section Advance

variable {method i : ℕ} {msg : M} {count : ℤ}

theorem advance_of_broadcast (hsync : s.sync = .broadcast method msg i) (h : i < n + 1) :
    s.advance callbacks = { s with
      rpc := s.rpc.step callbacks (.send 0 ⟨i, h⟩ method msg)
      sync := .broadcast method msg (i + 1) } := by
  rw [Broadcaster.advance, hsync]
  exact dif_pos h

theorem advance_of_broadcast_end (hsync : s.sync = .broadcast method msg i) (h : ¬ i < n + 1) :
    s.advance callbacks = { s with sync := .wait method msg n (n + 1) } := by
  rw [Broadcaster.advance, hsync]
  exact dif_neg h

theorem advance_of_wait (hsync : s.sync = .wait method msg count i) (h : i < n + 1) :
    s.advance callbacks = { s with
      rpc := s.rpc.checkReplyQueue 0 ⟨i, h⟩ method
      sync := .wait method msg
        (if ((s.rpc.net.threads 0).checkReplyQueue ⟨i, h⟩ method).1.isSome then count - 1
          else count) (i + 1) } := by
  rw [Broadcaster.advance, hsync]
  exact dif_pos h

theorem advance_of_wait_end (hsync : s.sync = .wait method msg count i) (h : ¬ i < n + 1) :
    s.advance callbacks = if 0 < count then { s with sync := .wait method msg count 0 }
      else { s with sync := .idle, returned := s.returned ++ [(method, msg)] } := by
  rw [Broadcaster.advance, hsync]
  exact dif_neg h

theorem Inv.advance_idle (hs : Inv callbacks methods call stage s) (hsync : s.sync = .idle)
    {calls : List (ℕ × M)} (hcalls : s.calls = (method, msg) :: calls) :
    Inv callbacks methods (method, msg) (fun _ => .unsent) (s.advance callbacks) := by
  have hphase := hs.phase
  have hmem := hs.calls
  rw [hsync] at hphase
  rw [hcalls] at hmem
  rw [Broadcaster.advance, hsync, hcalls]
  refine ⟨hs.carries.start hphase _, fun c hc => hmem c (List.mem_cons_of_mem _ hc), rfl,
    hmem _ List.mem_cons_self, le_rfl, fun b hb => ⟨nofun, ?_⟩⟩
  exact iff_of_true rfl (Nat.one_le_iff_ne_zero.mpr (Fin.val_ne_zero_iff.mpr hb))

theorem Inv.advance_broadcast (hs : Inv callbacks methods call stage s)
    (hsync : s.sync = .broadcast method msg i) (h : i < n + 1) :
    Inv callbacks methods call (Function.update stage ⟨i, h⟩ .requested)
      (s.advance callbacks) := by
  have hphase := hs.phase
  rw [hsync] at hphase
  obtain ⟨rfl, hmem, hi, hstage⟩ := hphase
  rw [advance_of_broadcast hsync h]
  have hb : (⟨i, h⟩ : Fin (n + 1)) ≠ 0 := Fin.ne_of_val_ne (by simpa using (by omega : i ≠ 0))
  refine ⟨hs.carries.send hb ((hstage _ hb).2.mpr le_rfl) hmem, hs.calls, rfl, hmem,
    Nat.le_add_left .., fun b hb' => ?_⟩
  by_cases hbi : b = ⟨i, h⟩
  · subst hbi
    simp
  · have hne : b.val ≠ i := fun heq => hbi (Fin.ext heq)
    rw [Function.update_of_ne hbi, (hstage b hb').2]
    exact ⟨(hstage b hb').1, by omega⟩

theorem Inv.advance_broadcast_end (hs : Inv callbacks methods call stage s)
    (hsync : s.sync = .broadcast method msg i) (h : ¬ i < n + 1) :
    Inv callbacks methods call stage (s.advance callbacks) := by
  have hphase := hs.phase
  rw [hsync] at hphase
  obtain ⟨rfl, hmem, hi, hstage⟩ := hphase
  rw [advance_of_broadcast_end hsync h]
  refine ⟨hs.carries, hs.calls, rfl, hmem, fun b hb hunsent => ?_, ?_⟩
  · have := (hstage b hb).2.mp hunsent
    omega
  · rw [card_outstanding fun b hb => (hstage b hb).1]

theorem Inv.advance_wait (hs : Inv callbacks methods call stage s)
    (hsync : s.sync = .wait method msg count i) (h : i < n + 1) :
    Inv callbacks methods call (Function.update stage ⟨i, h⟩
      (if stage ⟨i, h⟩ = .arrived then .taken else stage ⟨i, h⟩)) (s.advance callbacks) := by
  have hphase := hs.phase
  rw [hsync] at hphase
  obtain ⟨rfl, hmem, hstage, hcount⟩ := hphase
  rw [advance_of_wait hsync h]
  refine ⟨hs.carries.checkReplyQueue ⟨i, h⟩, hs.calls, rfl, hmem, fun b hb => ?_, ?_⟩
  · by_cases hbi : b = ⟨i, h⟩
    · subst hbi
      rw [Function.update_self]
      split_ifs
      · nofun
      · exact hstage _ hb
    · rw [Function.update_of_ne hbi]
      exact hstage b hb
  · have hsome := hs.carries.isSome_checkReplyQueue hmem ⟨i, h⟩
    by_cases harrived : stage ⟨i, h⟩ = .arrived
    · have hb : (⟨i, h⟩ : Fin (n + 1)) ≠ 0 := by
        intro heq
        rw [heq, hs.carries.first] at harrived
        cases harrived
      rw [if_pos (hsome.mpr harrived), if_pos harrived, hcount,
        ← card_outstanding_update hb harrived]
      omega
    · rw [if_neg fun hyes => harrived (hsome.mp hyes), if_neg harrived, Function.update_eq_self]
      exact hcount

theorem Inv.advance_wait_end (hs : Inv callbacks methods call stage s)
    (hsync : s.sync = .wait method msg count i) (h : ¬ i < n + 1) :
    ∃ stage', Inv callbacks methods call stage' (s.advance callbacks) := by
  have hphase := hs.phase
  rw [hsync] at hphase
  obtain ⟨rfl, hmem, hstage, hcount⟩ := hphase
  rw [advance_of_wait_end hsync h]
  split_ifs with hpos
  · exact ⟨stage, hs.carries, hs.calls, rfl, hmem, hstage, hcount⟩
  · have hnone : outstanding stage = ∅ := Finset.card_eq_zero.mp (by omega)
    have htaken : ∀ b, b ≠ 0 → stage b = .taken := by
      intro b hb
      by_contra hno
      have : b ∈ outstanding stage := by simp [outstanding, hb, hno]
      simp [hnone] at this
    exact ⟨_, hs.carries.complete htaken, hs.calls, fun _ => rfl⟩

end Advance

theorem Inv.advance (hs : Inv callbacks methods call stage s) :
    ∃ call' stage', Inv callbacks methods call' stage' (s.advance callbacks) := by
  cases hsync : s.sync with
  | idle =>
    cases hcalls : s.calls with
    | nil =>
      rw [Broadcaster.advance, hsync, hcalls]
      exact ⟨call, stage, hs⟩
    | cons next calls => exact ⟨_, _, hs.advance_idle hsync hcalls⟩
  | broadcast method msg i =>
    by_cases h : i < n + 1
    · exact ⟨_, _, hs.advance_broadcast hsync h⟩
    · exact ⟨_, _, hs.advance_broadcast_end hsync h⟩
  | wait method msg count i =>
    by_cases h : i < n + 1
    · exact ⟨_, _, hs.advance_wait hsync h⟩
    · exact ⟨_, hs.advance_wait_end hsync h⟩

theorem inv_init [Inhabited M]
    (callbacks : Fin (n + 1) → ℕ → Option (CallbackInfo (Fin (n + 1)) M)) (calls : List (ℕ × M)) :
    Inv callbacks (calls.map Prod.fst) (0, default) (fun _ => .unsent) (init calls) where
  carries := carries_init callbacks _ _
  calls _ hc := List.mem_map_of_mem hc
  phase _ := rfl

theorem run_inv [Inhabited M]
    (callbacks : Fin (n + 1) → ℕ → Option (CallbackInfo (Fin (n + 1)) M)) (calls : List (ℕ × M))
    {events : List (Event n M)} (hforeign : ∀ e ∈ events, e.Foreign (calls.map Prod.fst)) :
    ∃ call stage, Inv callbacks (calls.map Prod.fst) call stage
      (events.foldl (step callbacks) (init calls)) := by
  induction events using List.reverseRecOn with
  | nil => exact ⟨_, _, inv_init callbacks calls⟩
  | append_singleton events e ih =>
    obtain ⟨call, stage, hinv⟩ := ih fun e he => hforeign e (List.mem_append_left _ he)
    rw [List.foldl_append]
    cases e with
    | advance => exact hinv.advance
    | rpc act =>
      obtain ⟨stage', hinv', -⟩ := hinv.rpc_step
        (hforeign (.rpc act) (List.mem_append_right _ (List.mem_singleton_self _)))
      exact ⟨call, stage', hinv'⟩

/-- The calls are made one after the other. -/
theorem step_program (callbacks : Fin (n + 1) → ℕ → Option (CallbackInfo (Fin (n + 1)) M))
    (s : Broadcaster n M) (e : Event n M) :
    (s.step callbacks e).returned ++ (s.step callbacks e).sync.current.toList ++
        (s.step callbacks e).calls =
      s.returned ++ s.sync.current.toList ++ s.calls := by
  cases e with
  | rpc act => rfl
  | advance =>
    rw [step, Broadcaster.advance]
    split
    · split
      · rfl
      next hsync _ method msg calls hcalls => simp [hsync, hcalls, SyncBroadcast.current]
    · split <;> simp_all [SyncBroadcast.current]
    · split_ifs <;> simp_all [SyncBroadcast.current]

theorem run_program [Inhabited M]
    (callbacks : Fin (n + 1) → ℕ → Option (CallbackInfo (Fin (n + 1)) M)) (calls : List (ℕ × M))
    (events : List (Event n M)) :
    (events.foldl (step callbacks) (init calls)).returned ++
        (events.foldl (step callbacks) (init calls)).sync.current.toList ++
        (events.foldl (step callbacks) (init calls)).calls = calls := by
  induction events using List.reverseRecOn with
  | nil => rfl
  | append_singleton events e ih =>
    rw [List.foldl_append]
    exact (step_program callbacks _ e).trans ih

/-- **A synchronous broadcast is a barrier.** In every run in which no other thread sends requests
with the methods of the calls or takes replies to them, what every process but the first has run
its callbacks of these methods for, are the calls that have returned, in their order and each once.
The one that is being made may have been added to them. -/
theorem sync_broadcast_is_barrier [Inhabited M]
    (callbacks : Fin (n + 1) → ℕ → Option (CallbackInfo (Fin (n + 1)) M)) (calls : List (ℕ × M))
    (events : List (Event n M)) (hforeign : ∀ e ∈ events, e.Foreign (calls.map Prod.fst)) :
    let s : Broadcaster n M := events.foldl (step callbacks) (init calls)
    s.returned ++ s.sync.current.toList ++ s.calls = calls ∧
      ∀ b, b ≠ 0 → ∃ made, (made = s.returned ∨ made = s.returned ++ s.sync.current.toList) ∧
        (s.rpc.called b).filter (fun c => c.2.1 ∈ calls.map Prod.fst) =
          made.map fun c => (0, c) := by
  intro s
  obtain ⟨call, stage, hinv⟩ := run_inv callbacks calls hforeign
  refine ⟨run_program callbacks calls events, fun b hb => ?_⟩
  have hcalled := hinv.carries.called b hb
  have hphase := hinv.phase
  refine ⟨_, ?_, hcalled⟩
  by_cases hserved : (stage b).served = true
  · rw [if_pos hserved]
    cases hsync : s.sync with
    | idle =>
      rw [hsync] at hphase
      rw [hphase b] at hserved
      cases hserved
    | broadcast method msg i =>
      rw [hsync] at hphase
      exact .inr (by rw [hphase.1]; rfl)
    | wait method msg count i =>
      rw [hsync] at hphase
      exact .inr (by rw [hphase.1]; rfl)
  · rw [if_neg hserved, List.append_nil]
    exact .inl rfl

/-- A flush, which runs in a thread of its own, while a request of another kind is sent. -/
theorem sync_broadcast_is_barrier_flush :
    let callbacks : Fin 2 → ℕ → Option (CallbackInfo (Fin 2) ℕ) := fun _ method =>
      if method = 15 then some ⟨true, fun _ m => m + 1⟩ else none
    let events : List (Event 1 ℕ) := [.rpc (.send 0 1 4 9), .advance, .advance, .advance,
      .rpc (.run 0 1 fun _ => false), .rpc (.run 0 1 fun _ => false),
      .rpc (.run 0 1 fun _ => false), .rpc (.run 0 1 fun _ => false),
      .rpc (.run 1 0 fun _ => false), .rpc (.invokeCallback 1 0), .rpc (.run 1 0 fun _ => false),
      .rpc (.run 1 0 fun _ => true), .rpc (.run 0 1 fun _ => true), .advance, .advance, .advance,
      .advance]
    let s : Broadcaster 1 ℕ := events.foldl (step callbacks) (init [(15, 7)])
    s.returned = [(15, 7)] ∧ s.sync.current = none ∧
      ∀ b, b ≠ 0 → ∃ made, (made = s.returned ∨ made = s.returned ++ s.sync.current.toList) ∧
        (s.rpc.called b).filter (fun c => c.2.1 ∈ [(15, 7)].map Prod.fst) =
          made.map fun c => (0, c) := by
  intro callbacks events
  have hforeign : ∀ e ∈ events, e.Foreign ([(15, 7)].map Prod.fst) := by
    simp [events, Event.Foreign, Action.Foreign]
  exact ⟨by decide, by decide, (sync_broadcast_is_barrier callbacks [(15, 7)] events hforeign).2⟩

end Broadcaster

end MaiterStore
