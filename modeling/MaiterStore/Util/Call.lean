/-
# Calls that wait for their reply

`Call(dst, method, msg, reply)` (`util/rpc.cc`) sends a request and takes the first reply of its
method that it finds in the queue of `dst`. Nothing in a reply says which request it answers. A
process that makes its calls one after the other still gets the response to its own message, however
many processes call the same method at the same time, if the callback does not run in a thread of
its own. All callbacks of a worker but that of `MTYPE_WORKER_FLUSH` are like that.
-/

import MaiterStore.Util.RoundTrip

namespace MaiterStore

open Trip

/-- The arguments of `Call`. -/
structure CallRequest (ι M : Type*) where
  dst : ι
  method : ℕ
  msg : M
  deriving DecidableEq, Repr

/-- Processes that make calls. `waiting` are those that loop over `check_reply_queue`, `returned`
records the calls that have returned with their replies. -/
structure Callers (ι M : Type*) where
  rpc : RpcSystem ι M
  calls : ι → List (CallRequest ι M)
  waiting : ι → Option (CallRequest ι M)
  returned : ι → List (CallRequest ι M × M)

namespace Callers

variable {ι M : Type*} [DecidableEq ι]

/-- Before the first calls. -/
def init [Inhabited M] (program : ι → List (CallRequest ι M)) : Callers ι M :=
  ⟨.init, program, fun _ => none, fun _ => []⟩

/-- A step of the thread of `p` that makes the calls: the `Send` of `Call`, or one round of its
loop. -/
def advance (callbacks : ι → ℕ → Option (CallbackInfo ι M)) (p : ι) (s : Callers ι M) :
    Callers ι M :=
  match s.waiting p with
  | none =>
    match s.calls p with
    | [] => s
    | c :: calls => { s with
        rpc := s.rpc.step callbacks (.send p c.dst c.method c.msg)
        calls := Function.update s.calls p calls
        waiting := Function.update s.waiting p (some c) }
  | some c =>
    match ((s.rpc.net.threads p).checkReplyQueue c.dst c.method).1 with
    | none => { s with rpc := s.rpc.checkReplyQueue p c.dst c.method }
    | some reply => { s with
        rpc := s.rpc.checkReplyQueue p c.dst c.method
        waiting := Function.update s.waiting p none
        returned := Function.update s.returned p (s.returned p ++ [(c, reply)]) }

/-- A step of a thread that makes calls, or of any other thread. -/
inductive Event (ι M : Type*)
  | advance (p : ι)
  | rpc (act : RpcSystem.Action ι M)

def step (callbacks : ι → ℕ → Option (CallbackInfo ι M)) (s : Callers ι M) :
    Event ι M → Callers ι M
  | .advance p => s.advance callbacks p
  | .rpc act => { s with rpc := s.rpc.step callbacks act }

/-- The others leave the methods of the calls alone. -/
def Event.Foreign (methods : List ℕ) : Event ι M → Prop
  | .advance _ => True
  | .rpc act => act.Foreign methods

end Callers

/-! ## One call -/

/-- What the callback `cb` answers, if there is one. -/
def answer {ι M : Type*} (cb : Option (CallbackInfo ι M)) (a : ι) (m : M) : M :=
  (cb.map fun ci => ci.call a m).getD m

/-- The round trip has the request `m` of `a` under way, at stage `k` at least. -/
structure Trip.Asked {ι M : Type*} (cb : Option (CallbackInfo ι M)) (a : ι) (m : M) (k : ℕ)
    (t : Trip M) (st : Stage) : Prop where
  eq : ∃ t₀ : Trip M, t₀.Quiet ∧ t = st.trip t₀ m (answer cb a m)
  rank : k ≤ st.rank
  bounds : 0 < st.rank ∧ st.rank < 8
  spawned : st ≠ .spawned
  queued : st = .queued → cb = none
  served : st.served = true → cb.isSome = true

namespace Trip

variable {ι M : Type*} {cb : Option (CallbackInfo ι M)} {a : ι} {m : M} {k : ℕ} {t t' : Trip M}
  {st : Stage}

/-- Whatever moves in it is that request. -/
theorem Asked.hop {buf : M} {e : Event M} (h : t.Asked cb a m k st)
    (hspawn : ∀ ci, cb = some ci → ci.spawnThread = false) (hhop : Hop cb a buf e t t') :
    ∃ st', t'.Asked cb a m k st' := by
  obtain ⟨t₀, ht₀, rfl⟩ := h.eq
  obtain ⟨st', hnext, rfl⟩ := Stage.next_of_hop ht₀ (fun hst => absurd hst h.spawned)
    (fun ci hci => by rw [answer, hci]; rfl) hhop
  refine ⟨st', ⟨t₀, ht₀, rfl⟩, h.rank.trans hnext.rank_lt.le, ?_, ?_, ?_, ?_⟩
  · exact ⟨h.bounds.1.trans hnext.rank_lt, by cases hnext <;> decide⟩
  · rintro rfl
    cases hnext with
    | spawn hci hyes => rw [hspawn _ hci] at hyes; cases hyes
  · rintro rfl
    exact hnext.cb_eq_none
  · cases hnext with
    | isend => nofun
    | queue _ => nofun
    | spawn _ _ => nofun
    | call hci => rw [hci]; exact fun _ => rfl
    | invoke hci => rw [hci]; exact fun _ => rfl
    | answer => exact fun _ => h.served rfl
    | deliver => exact fun _ => h.served rfl

end Trip

/-! ## All calls -/

namespace Callers

open RpcSystem

variable {ι M : Type*} [DecidableEq ι]

/-- Of the requests with these methods only those of the calls under way are anywhere, and the calls
that have returned got the responses to their messages. -/
structure Inv (callbacks : ι → ℕ → Option (CallbackInfo ι M)) (methods : List ℕ)
    (s : Callers ι M) : Prop where
  calls : ∀ p, ∀ c ∈ s.calls p, c.method ∈ methods
  waiting : ∀ p c, s.waiting p = some c → c.method ∈ methods
  quiet : ∀ a b tag, tag ∈ methods → (∀ m, s.waiting a ≠ some ⟨b, tag, m⟩) →
    (s.rpc.trip a b tag).Quiet
  asked : ∀ a c, s.waiting a = some c →
    ∃ st, (s.rpc.trip a c.dst c.method).Asked (callbacks c.dst c.method) a c.msg 1 st
  returned : ∀ p, ∀ r ∈ s.returned p,
    ∃ ci, callbacks r.1.dst r.1.method = some ci ∧ r.2 = ci.call p r.1.msg

variable {callbacks : ι → ℕ → Option (CallbackInfo ι M)} {methods : List ℕ} {s : Callers ι M}
  {rpc : RpcSystem ι M}

theorem inv_init [Inhabited M] {program : ι → List (CallRequest ι M)}
    (hmethods : ∀ p, ∀ c ∈ program p, c.method ∈ methods) :
    Inv callbacks methods (init program) where
  calls := hmethods
  waiting _ _ h := by cases h
  quiet _ _ _ _ _ := ⟨rfl, rfl, rfl, rfl, rfl, rfl⟩
  asked _ _ h := by cases h
  returned _ _ h := by cases h

/-- The round trips of the calls under way get no further from their ends. -/
def Forward (callbacks : ι → ℕ → Option (CallbackInfo ι M)) (s s' : Callers ι M) : Prop :=
  ∀ a c k st, s.waiting a = some c →
    (s.rpc.trip a c.dst c.method).Asked (callbacks c.dst c.method) a c.msg k st →
    ∃ st', (s'.rpc.trip a c.dst c.method).Asked (callbacks c.dst c.method) a c.msg k st'

/-- A step that leaves the round trips of these methods as they are. -/
theorem Inv.of_trip_eq (hs : Inv callbacks methods s)
    (htrip : ∀ a b tag, tag ∈ methods → rpc.trip a b tag = s.rpc.trip a b tag) :
    Inv callbacks methods { s with rpc := rpc } ∧ Forward callbacks s { s with rpc := rpc } := by
  refine ⟨⟨hs.calls, hs.waiting, fun a b tag htag hno => ?_, fun a c hc => ?_, hs.returned⟩,
    fun a c k st hc hasked => ⟨st, ?_⟩⟩
  · rw [htrip a b tag htag]
    exact hs.quiet a b tag htag hno
  · rw [htrip a _ _ (hs.waiting a c hc)]
    exact hs.asked a c hc
  · rw [htrip a _ _ (hs.waiting a c hc)]
    exact hasked

theorem Inv.moves (hs : Inv callbacks methods s)
    (hspawn : ∀ b, ∀ tag ∈ methods, ∀ ci, callbacks b tag = some ci → ci.spawnThread = false)
    {a b : ι} {tag : ℕ} {e : Trip.Event M} (h : Moves callbacks a b tag e s.rpc rpc) :
    Inv callbacks methods { s with rpc := rpc } ∧ Forward callbacks s { s with rpc := rpc } := by
  by_cases htag : tag ∈ methods
  · -- the trip that moves has a call under way
    obtain ⟨m, hwaiting⟩ : ∃ m, s.waiting a = some ⟨b, tag, m⟩ := by
      by_contra hno
      exact (hs.quiet a b tag htag fun m hm => hno ⟨m, hm⟩).not_hop h.hop
    have hforward : Forward callbacks s { s with rpc := rpc } := by
      intro a' c k st hc hasked
      by_cases heq : (a', c.dst, c.method) = (a, b, tag)
      · obtain ⟨rfl, rfl, rfl⟩ : a' = a ∧ c.dst = b ∧ c.method = tag := by simpa using heq
        exact hasked.hop (hspawn _ _ htag) h.hop
      · exact ⟨st, by rw [h.rest _ _ _ heq]; exact hasked⟩
    refine ⟨⟨hs.calls, hs.waiting, fun a' b' tag' htag' hno => ?_, fun a' c hc => ?_,
      hs.returned⟩, hforward⟩
    · have hne : (a', b', tag') ≠ (a, b, tag) := by
        rintro ⟨⟩
        exact hno m hwaiting
      rw [h.rest _ _ _ hne]
      exact hs.quiet a' b' tag' htag' hno
    · obtain ⟨st, hasked⟩ := hs.asked a' c hc
      exact hforward a' c 1 st hc hasked
  · refine hs.of_trip_eq fun a' b' tag' htag' => h.rest a' b' tag' ?_
    rintro ⟨⟩
    exact htag htag'

/-- A step of another thread. -/
theorem Inv.rpc_step (hs : Inv callbacks methods s)
    (hspawn : ∀ b, ∀ tag ∈ methods, ∀ ci, callbacks b tag = some ci → ci.spawnThread = false)
    {act : Action ι M} (hact : act.Foreign methods) :
    Inv callbacks methods (s.step callbacks (.rpc act)) ∧
      Forward callbacks s (s.step callbacks (.rpc act)) := by
  have heffect : ∀ {rpc}, Rests s.rpc rpc ∨ (∃ a b tag e, Moves callbacks a b tag e s.rpc rpc) →
      Inv callbacks methods { s with rpc := rpc } ∧ Forward callbacks s { s with rpc := rpc } := by
    rintro rpc (hrests | ⟨a, b, tag, e, hmoves⟩)
    · exact hs.of_trip_eq fun a b tag _ => hrests.trip a b tag
    · exact hs.moves hspawn hmoves
  cases act with
  | send p dst method msg =>
    refine hs.of_trip_eq fun a b tag htag => ?_
    have hne : ¬ (a = p ∧ b = dst ∧ tag = method) := fun h => hact (h.2.2 ▸ htag)
    rw [trip_send, if_neg hne]
  | run p probe finished => exact heffect (run_effect callbacks p probe finished s.rpc)
  | invokeCallback p i => exact heffect (invokeCallback_effect callbacks p i s.rpc)
  | tryRead p srcs type => exact heffect (.inl (tryRead_effect callbacks p srcs type s.rpc))
  | checkReplyQueue p src type =>
    refine hs.of_trip_eq fun a b tag htag => ?_
    have hne : ¬ (a = p ∧ b = src ∧ tag = type) := fun h => hact (h.2.2 ▸ htag)
    rw [RpcSystem.step, trip_checkReplyQueue, if_neg hne]

section Advance

variable {p : ι} {c : CallRequest ι M}

theorem advance_of_idle {calls : List (CallRequest ι M)} (hidle : s.waiting p = none)
    (hcalls : s.calls p = c :: calls) : s.advance callbacks p = { s with
      rpc := s.rpc.step callbacks (.send p c.dst c.method c.msg)
      calls := Function.update s.calls p calls
      waiting := Function.update s.waiting p (some c) } := by
  rw [advance, hidle, hcalls]

theorem checkReplyQueue_fst (t : NetworkThread ι M) (src : ι) (type : ℕ) :
    (t.checkReplyQueue src type).1 = (t.replies type src).head? := by
  rw [NetworkThread.checkReplyQueue]
  cases t.replies type src <;> rfl

theorem advance_of_waiting (hwaiting : s.waiting p = some c)
    (harrived : (s.rpc.trip p c.dst c.method).arrived = []) :
    s.advance callbacks p = { s with rpc := s.rpc.checkReplyQueue p c.dst c.method } := by
  have hreply : ((s.rpc.net.threads p).checkReplyQueue c.dst c.method).1 = none := by
    rw [checkReplyQueue_fst]
    exact congrArg List.head? harrived
  rw [advance, hwaiting]
  dsimp only
  rw [hreply]

theorem advance_of_arrived (hwaiting : s.waiting p = some c) {reply : M} {replies : List M}
    (harrived : (s.rpc.trip p c.dst c.method).arrived = reply :: replies) :
    s.advance callbacks p = { s with
      rpc := s.rpc.checkReplyQueue p c.dst c.method
      waiting := Function.update s.waiting p none
      returned := Function.update s.returned p (s.returned p ++ [(c, reply)]) } := by
  have hreply : ((s.rpc.net.threads p).checkReplyQueue c.dst c.method).1 = some reply := by
    rw [checkReplyQueue_fst]
    exact congrArg List.head? harrived
  rw [advance, hwaiting]
  dsimp only
  rw [hreply]

end Advance

/-- The `Send` of a call. -/
theorem Inv.advance_send (hs : Inv callbacks methods s) {p : ι} (hidle : s.waiting p = none)
    {c : CallRequest ι M} {calls : List (CallRequest ι M)} (hcalls : s.calls p = c :: calls) :
    Inv callbacks methods (s.advance callbacks p) := by
  have hmem : c.method ∈ methods := hs.calls p c (by rw [hcalls]; exact List.mem_cons_self)
  have hquiet : (s.rpc.trip p c.dst c.method).Quiet :=
    hs.quiet p c.dst c.method hmem fun m => by rw [hidle]; nofun
  rw [advance_of_idle hidle hcalls]
  -- nothing is under way on the trip of this call, which begins; the other trips stay as they are
  refine ⟨fun q c' hc' => ?_, fun q c' hc' => ?_, fun a b tag htag hno => ?_, fun a c' hc' => ?_,
    hs.returned⟩
  · dsimp only at hc'
    by_cases hq : q = p
    · subst hq
      rw [Function.update_self] at hc'
      exact hs.calls q c' (hcalls ▸ List.mem_cons_of_mem _ hc')
    · rw [Function.update_of_ne hq] at hc'
      exact hs.calls q c' hc'
  · dsimp only at hc'
    by_cases hq : q = p
    · subst hq
      rw [Function.update_self] at hc'
      exact Option.some.inj hc' ▸ hmem
    · rw [Function.update_of_ne hq] at hc'
      exact hs.waiting q c' hc'
  · dsimp only at hno ⊢
    rw [trip_send]
    by_cases ha : a = p
    · subst ha
      rw [Function.update_self] at hno
      have hne : ¬ (a = a ∧ b = c.dst ∧ tag = c.method) := by
        rintro ⟨-, rfl, rfl⟩
        exact hno c.msg rfl
      rw [if_neg hne]
      exact hs.quiet a b tag htag fun m => by rw [hidle]; nofun
    · rw [Function.update_of_ne ha] at hno
      rw [if_neg fun h => ha h.1]
      exact hs.quiet a b tag htag hno
  · dsimp only at hc' ⊢
    rw [trip_send]
    by_cases ha : a = p
    · subst ha
      rw [Function.update_self] at hc'
      obtain rfl := Option.some.inj hc'
      rw [if_pos ⟨rfl, rfl, rfl⟩]
      exact ⟨.requested, ⟨_, hquiet, by simp [Stage.trip, hquiet.requested]⟩, le_rfl,
        ⟨by decide, by decide⟩, nofun, nofun, nofun⟩
    · rw [Function.update_of_ne ha] at hc'
      rw [if_neg fun h => ha h.1]
      exact hs.asked a c' hc'

/-- A test of the queue concerns one round trip. -/
theorem trip_checkReplyQueue_of_ne {p src a b : ι} {type tag : ℕ}
    (hne : (a, b, tag) ≠ (p, src, type)) :
    (rpc.checkReplyQueue p src type).trip a b tag = rpc.trip a b tag := by
  rw [trip_checkReplyQueue, if_neg (by simpa using hne)]

/-- A test of an empty queue changes nothing. -/
theorem trip_checkReplyQueue_of_nil {p src : ι} {type : ℕ}
    (harrived : (rpc.trip p src type).arrived = []) (a b : ι) (tag : ℕ) :
    (rpc.checkReplyQueue p src type).trip a b tag = rpc.trip a b tag := by
  by_cases heq : (a, b, tag) = (p, src, type)
  · obtain ⟨rfl, rfl, rfl⟩ : a = p ∧ b = src ∧ tag = type := by simpa using heq
    rw [trip_checkReplyQueue, if_pos ⟨rfl, rfl, rfl⟩, harrived]
    exact Trip.ext rfl rfl rfl rfl rfl rfl rfl rfl harrived.symm (List.append_nil _)
  · exact trip_checkReplyQueue_of_ne heq

/-- The call goes on waiting. -/
theorem Inv.advance_poll (hs : Inv callbacks methods s) {p : ι} {c : CallRequest ι M}
    (hwaiting : s.waiting p = some c) (harrived : (s.rpc.trip p c.dst c.method).arrived = []) :
    Inv callbacks methods (s.advance callbacks p) := by
  rw [advance_of_waiting hwaiting harrived]
  exact (hs.of_trip_eq fun a b tag _ => trip_checkReplyQueue_of_nil harrived a b tag).1

/-- The call takes its reply and returns. Its round trip is over, the others stay as they are. -/
theorem Inv.advance_return (hs : Inv callbacks methods s) {p : ι} {c : CallRequest ι M}
    (hwaiting : s.waiting p = some c)
    (hasked : (s.rpc.trip p c.dst c.method).Asked (callbacks c.dst c.method) p c.msg 1 .arrived) :
    Inv callbacks methods (s.advance callbacks p) := by
  obtain ⟨t₀, ht₀, htrip⟩ := hasked.eq
  have harrived : (s.rpc.trip p c.dst c.method).arrived =
      [answer (callbacks c.dst c.method) p c.msg] := by
    rw [htrip, Stage.trip_arrived ht₀, if_pos rfl]
  rw [advance_of_arrived hwaiting harrived]
  -- a call that still waits is one of another process
  have hother : ∀ {a c'}, Function.update s.waiting p none a = some c' →
      a ≠ p ∧ s.waiting a = some c' := by
    intro a c' hc'
    by_cases ha : a = p
    · subst ha
      simp at hc'
    · exact ⟨ha, by rwa [Function.update_of_ne ha] at hc'⟩
  refine ⟨hs.calls, fun q c' hc' => hs.waiting q c' (hother hc').2, fun a b tag htag hno => ?_,
    fun a c' hc' => ?_, fun q r hr => ?_⟩
  · dsimp only at hno ⊢
    by_cases heq : (a, b, tag) = (p, c.dst, c.method)
    · obtain ⟨rfl, rfl, rfl⟩ : a = p ∧ b = c.dst ∧ tag = c.method := by simpa using heq
      rw [trip_checkReplyQueue, if_pos ⟨rfl, rfl, rfl⟩, htrip]
      exact ⟨ht₀.1, ht₀.2, ht₀.3, ht₀.4, ht₀.5, rfl⟩
    · rw [trip_checkReplyQueue_of_ne heq]
      refine hs.quiet a b tag htag fun m hm => ?_
      by_cases ha : a = p
      · subst ha
        rw [hwaiting] at hm
        obtain rfl := Option.some.inj hm
        exact heq rfl
      · exact hno m (by rw [Function.update_of_ne ha]; exact hm)
  · obtain ⟨ha, hc⟩ := hother hc'
    dsimp only
    rw [trip_checkReplyQueue_of_ne fun heq => ha (Prod.ext_iff.mp heq).1]
    exact hs.asked a c' hc
  · dsimp only at hr
    by_cases hq : q = p
    · subst hq
      rw [Function.update_self] at hr
      rcases List.mem_append.mp hr with hr | hr
      · exact hs.returned q r hr
      · obtain rfl := List.mem_singleton.mp hr
        obtain ⟨ci, hci⟩ := Option.isSome_iff_exists.mp (hasked.served rfl)
        exact ⟨ci, hci, by rw [answer, hci]; rfl⟩
    · rw [Function.update_of_ne hq] at hr
      exact hs.returned q r hr

/-- One round of the loop of a call: it takes the reply if it has arrived. -/
theorem Inv.advance_wait (hs : Inv callbacks methods s) {p : ι} {c : CallRequest ι M}
    (hwaiting : s.waiting p = some c) : Inv callbacks methods (s.advance callbacks p) := by
  obtain ⟨st, hasked⟩ := hs.asked p c hwaiting
  by_cases hst : st = .arrived
  · exact hs.advance_return hwaiting (hst ▸ hasked)
  · obtain ⟨t₀, ht₀, htrip⟩ := hasked.eq
    exact hs.advance_poll hwaiting (by rw [htrip, Stage.trip_arrived ht₀, if_neg hst])

theorem Inv.step (hs : Inv callbacks methods s)
    (hspawn : ∀ b, ∀ tag ∈ methods, ∀ ci, callbacks b tag = some ci → ci.spawnThread = false)
    {e : Event ι M} (he : e.Foreign methods) : Inv callbacks methods (s.step callbacks e) := by
  cases e with
  | rpc act => exact (hs.rpc_step hspawn he).1
  | advance p =>
    cases hwaiting : s.waiting p with
    | some c => exact hs.advance_wait hwaiting
    | none =>
      cases hcalls : s.calls p with
      | nil =>
        rw [Callers.step, Callers.advance, hwaiting, hcalls]
        exact hs
      | cons c calls => exact hs.advance_send hwaiting hcalls

theorem run_inv (hs : Inv callbacks methods s)
    (hspawn : ∀ b, ∀ tag ∈ methods, ∀ ci, callbacks b tag = some ci → ci.spawnThread = false)
    {events : List (Event ι M)} (hforeign : ∀ e ∈ events, e.Foreign methods) :
    Inv callbacks methods (events.foldl (Callers.step callbacks) s) := by
  induction events generalizing s with
  | nil => exact hs
  | cons e events ih =>
    exact ih (hs.step hspawn (hforeign e List.mem_cons_self)) fun e' he' =>
      hforeign e' (List.mem_cons_of_mem _ he')

/-- A process makes its calls one after the other. -/
theorem step_program (callbacks : ι → ℕ → Option (CallbackInfo ι M)) (s : Callers ι M)
    (e : Event ι M) (p : ι) :
    ((s.step callbacks e).returned p).map Prod.fst ++ ((s.step callbacks e).waiting p).toList ++
        (s.step callbacks e).calls p =
      (s.returned p).map Prod.fst ++ (s.waiting p).toList ++ s.calls p := by
  cases e with
  | rpc act => rfl
  | advance q =>
    rw [Callers.step]
    by_cases hq : p = q
    · subst hq
      cases hwaiting : s.waiting p with
      | none =>
        cases hcalls : s.calls p with
        | nil => rw [Callers.advance, hwaiting, hcalls, hwaiting, hcalls]
        | cons c calls => simp [advance_of_idle hwaiting hcalls]
      | some c =>
        cases harrived : (s.rpc.trip p c.dst c.method).arrived with
        | nil => simp [advance_of_waiting hwaiting harrived, hwaiting]
        | cons reply replies => simp [advance_of_arrived hwaiting harrived]
    · cases hwaiting : s.waiting q with
      | none =>
        cases hcalls : s.calls q with
        | nil => rw [Callers.advance, hwaiting, hcalls]
        | cons c calls => simp [advance_of_idle hwaiting hcalls, hq]
      | some c =>
        cases harrived : (s.rpc.trip q c.dst c.method).arrived with
        | nil => simp [advance_of_waiting hwaiting harrived]
        | cons reply replies => simp [advance_of_arrived hwaiting harrived, hq]

theorem run_program (callbacks : ι → ℕ → Option (CallbackInfo ι M)) (s : Callers ι M)
    (events : List (Event ι M)) (p : ι) :
    ((events.foldl (Callers.step callbacks) s).returned p).map Prod.fst ++
        ((events.foldl (Callers.step callbacks) s).waiting p).toList ++
        (events.foldl (Callers.step callbacks) s).calls p =
      (s.returned p).map Prod.fst ++ (s.waiting p).toList ++ s.calls p := by
  induction events generalizing s with
  | nil => rfl
  | cons e events ih => exact (ih _).trans (step_program callbacks s e p)

/-- **A call returns the response to its own message.** Any number of processes make calls, each one
after the other, of methods whose callbacks do not run in threads of their own. If no other thread
sends requests with these methods or takes replies to them, the calls of every process that have
returned are its first ones, and each has got what the callback of the process that it called
responds to it. -/
theorem calls_return_own_responses [Inhabited M]
    (callbacks : ι → ℕ → Option (CallbackInfo ι M)) (program : ι → List (CallRequest ι M))
    (methods : List ℕ) (hmethods : ∀ p, ∀ c ∈ program p, c.method ∈ methods)
    (hspawn : ∀ b, ∀ tag ∈ methods, ∀ ci, callbacks b tag = some ci → ci.spawnThread = false)
    (events : List (Event ι M)) (hforeign : ∀ e ∈ events, e.Foreign methods) :
    let s : Callers ι M := events.foldl (Callers.step callbacks) (init program)
    ∀ p, (s.returned p).map Prod.fst ++ (s.waiting p).toList ++ s.calls p = program p ∧
      ∀ r ∈ s.returned p,
        ∃ ci, callbacks r.1.dst r.1.method = some ci ∧ r.2 = ci.call p r.1.msg := by
  intro s p
  have hinv : Inv callbacks methods s := run_inv (inv_init hmethods) hspawn hforeign
  exact ⟨run_program callbacks (init program) events p, hinv.returned p⟩

/-- Two processes call each other. The first call has returned, the other one waits. -/
theorem calls_return_own_responses_crossed :
    let callbacks : Fin 2 → ℕ → Option (CallbackInfo (Fin 2) ℕ) := fun b type =>
      if type = 5 then some ⟨false, fun a m => 100 * b.val + 10 * a.val + m⟩ else none
    let program : Fin 2 → List (CallRequest (Fin 2) ℕ) := fun p => [⟨1 - p, 5, 3 + p.val⟩]
    let events : List (Event (Fin 2) ℕ) := [.advance 0, .advance 1,
      .rpc (.run 0 1 fun _ => false), .rpc (.run 0 1 fun _ => false),
      .rpc (.run 1 0 fun _ => false), .rpc (.run 1 0 fun _ => false),
      .rpc (.run 1 0 fun _ => false), .rpc (.run 1 0 fun _ => false),
      .rpc (.run 0 1 fun _ => false), .rpc (.run 0 1 fun _ => false),
      .rpc (.run 0 1 fun _ => false), .rpc (.run 0 1 fun _ => true),
      .rpc (.run 0 1 fun _ => true), .advance 0]
    let s : Callers (Fin 2) ℕ := events.foldl (Callers.step callbacks) (init program)
    s.returned 0 = [(⟨1, 5, 3⟩, 103)] ∧ s.waiting 1 = some ⟨0, 5, 4⟩ ∧
      ∀ r ∈ s.returned 0,
        ∃ ci, callbacks r.1.dst r.1.method = some ci ∧ r.2 = ci.call 0 r.1.msg := by
  intro callbacks program events
  have hmethods : ∀ p, ∀ c ∈ program p, c.method ∈ [5] := by simp [program]
  have hspawn : ∀ b, ∀ tag ∈ [5], ∀ ci, callbacks b tag = some ci → ci.spawnThread = false := by
    intro b tag htag ci hci
    obtain rfl := List.mem_singleton.mp htag
    exact Option.some.inj hci ▸ rfl
  have hforeign : ∀ e ∈ events, e.Foreign [5] := by
    simp [events, Event.Foreign, Action.Foreign]
  exact ⟨by decide, by decide,
    (calls_return_own_responses callbacks program [5] hmethods hspawn events hforeign 0).2⟩

/-! ## The calls can return -/

/-- A step of process `p`, of a network thread or of a callback. -/
def Event.Internal (p : ι) : Event ι M → Prop
  | .advance q => q = p
  | .rpc act => act.Internal

omit [DecidableEq ι] in
theorem Event.Internal.foreign {p : ι} {e : Event ι M} (h : e.Internal p) (methods : List ℕ) :
    e.Foreign methods := by
  cases e with
  | advance q => trivial
  | rpc act => exact Action.Internal.foreign h methods

/-- Such steps can lead from `s` to `s'`. -/
def Continues (callbacks : ι → ℕ → Option (CallbackInfo ι M)) (p : ι) (s s' : Callers ι M) : Prop :=
  ∃ events : List (Event ι M), (∀ e ∈ events, e.Internal p) ∧
    events.foldl (Callers.step callbacks) s = s'

theorem Continues.refl (p : ι) (s : Callers ι M) : Continues callbacks p s s := ⟨[], by simp, rfl⟩

theorem Continues.trans {p : ι} {s' s'' : Callers ι M} (h : Continues callbacks p s s')
    (h' : Continues callbacks p s' s'') : Continues callbacks p s s'' := by
  obtain ⟨events, hinternal, rfl⟩ := h
  obtain ⟨events', hinternal', rfl⟩ := h'
  exact ⟨events ++ events', List.forall_mem_append.mpr ⟨hinternal, hinternal'⟩, List.foldl_append⟩

theorem continues_advance (p : ι) (s : Callers ι M) :
    Continues callbacks p s (s.advance callbacks p) :=
  ⟨[.advance p], by simp [Event.Internal], rfl⟩

section Reply

variable (hspawn : ∀ b, ∀ tag ∈ methods, ∀ ci, callbacks b tag = some ci → ci.spawnThread = false)
include hspawn

/-- Network threads and callbacks keep the round trips going forward. -/
theorem Inv.reaches (p : ι) (hs : Inv callbacks methods s) (h : Reaches callbacks s.rpc rpc) :
    Inv callbacks methods { s with rpc := rpc } ∧ Forward callbacks s { s with rpc := rpc } ∧
      Continues callbacks p s { s with rpc := rpc } := by
  obtain ⟨acts, hinternal, rfl⟩ := h
  induction acts using List.reverseRecOn with
  | nil => exact ⟨hs, fun a c k st _ hasked => ⟨st, hasked⟩, .refl p s⟩
  | append_singleton acts act ih =>
    obtain ⟨hs₁, hforward₁, hcont₁⟩ := ih fun a ha => hinternal a (List.mem_append_left _ ha)
    have hact := hinternal act (List.mem_append_right _ (List.mem_singleton_self _))
    obtain ⟨hs', hforward⟩ := hs₁.rpc_step hspawn (hact.foreign methods)
    rw [List.foldl_append]
    refine ⟨hs', fun a c k st hc hasked => ?_, hcont₁.trans ⟨[.rpc act], ?_, rfl⟩⟩
    · obtain ⟨st₁, hasked₁⟩ := hforward₁ a c k st hc hasked
      exact hforward a c k st₁ hc hasked₁
    · simpa [Event.Internal] using hact

/-- The reply to a call can arrive. -/
theorem Inv.exists_arrived (hs : Inv callbacks methods s) {p : ι} {c : CallRequest ι M}
    (hwaiting : s.waiting p = some c) (hne : p ≠ c.dst)
    (hcb : (callbacks c.dst c.method).isSome) {k : ℕ} {st : Stage}
    (hasked : (s.rpc.trip p c.dst c.method).Asked (callbacks c.dst c.method) p c.msg k st) :
    ∃ rpc, Inv callbacks methods { s with rpc := rpc } ∧
      Continues callbacks p s { s with rpc := rpc } ∧
      (rpc.trip p c.dst c.method).arrived = [answer (callbacks c.dst c.method) p c.msg] := by
  induction hk : 8 - st.rank using Nat.strong_induction_on generalizing s st k with
  | _ d ih =>
    obtain ⟨t, ht, htrip⟩ := hasked.eq
    by_cases harrived : st = .arrived
    · refine ⟨s.rpc, hs, .refl p s, ?_⟩
      rw [htrip, Stage.trip_arrived ht, if_pos harrived]
    · have hunsent : st ≠ .unsent := by
        rintro rfl
        exact absurd hasked.bounds.1 (by decide)
      have hqueued : st ≠ .queued := fun hst => by
        rw [hasked.queued hst] at hcb
        cases hcb
      have hrank : st.rank < 7 :=
        lt_of_le_of_ne (Nat.le_of_lt_succ hasked.bounds.2) fun h =>
          harrived (Stage.rank_injective h)
      obtain ⟨rpc₁, hreach, hmoved⟩ := exists_moved hne hcb ht htrip hunsent hqueued hrank
      obtain ⟨hs₁, hforward, hcont⟩ := hs.reaches hspawn p hreach
      -- the stage is another one, and none before
      obtain ⟨st₁, hasked₁⟩ := hforward p c st.rank st hwaiting
        ⟨hasked.eq, le_rfl, hasked.bounds, hasked.spawned, hasked.queued, hasked.served⟩
      obtain ⟨t₁, ht₁, htrip₁⟩ := hasked₁.eq
      have hst₁ : st ≠ st₁ := fun heq => hmoved t₁ ht₁ (heq ▸ htrip₁)
      have hlt : st.rank < st₁.rank :=
        lt_of_le_of_ne hasked₁.rank fun h => hst₁ (Stage.rank_injective h)
      have hbound := hasked₁.bounds.2
      obtain ⟨rpc, hs', hcont', hreply⟩ := ih (8 - st₁.rank) (by omega) hs₁ hwaiting hasked₁ rfl
      exact ⟨rpc, hs', hcont.trans hcont', hreply⟩

/-- The call that a process is making can return. -/
theorem Inv.exists_returned (hs : Inv callbacks methods s) {p : ι} {c : CallRequest ι M}
    (hwaiting : s.waiting p = some c) (hne : p ≠ c.dst)
    (hcb : (callbacks c.dst c.method).isSome) :
    ∃ s', Inv callbacks methods s' ∧ Continues callbacks p s s' ∧ s'.waiting p = none ∧
      s'.calls = s.calls := by
  obtain ⟨st, hasked⟩ := hs.asked p c hwaiting
  obtain ⟨rpc, hs₁, hcont, harrived⟩ := hs.exists_arrived hspawn hwaiting hne hcb hasked
  have hwaiting₁ : ({ s with rpc := rpc } : Callers ι M).waiting p = some c := hwaiting
  have hadvance : ({ s with rpc := rpc } : Callers ι M).advance callbacks p = _ :=
    advance_of_arrived hwaiting₁ harrived
  refine ⟨_, hs₁.advance_wait hwaiting₁, hcont.trans (continues_advance p _), ?_, ?_⟩
  · rw [hadvance]
    exact Function.update_self ..
  · rw [hadvance]

/-- All calls of a process can return. -/
theorem Inv.exists_all_returned (hs : Inv callbacks methods s) {p : ι}
    (hcb : ∀ c, s.waiting p = some c ∨ c ∈ s.calls p →
      p ≠ c.dst ∧ (callbacks c.dst c.method).isSome) :
    ∃ s', Inv callbacks methods s' ∧ Continues callbacks p s s' ∧ s'.waiting p = none ∧
      s'.calls p = [] := by
  induction hk : (s.calls p).length generalizing s with
  | zero =>
    have hnil := List.length_eq_zero_iff.mp hk
    cases hwaiting : s.waiting p with
    | none => exact ⟨s, hs, .refl p s, hwaiting, hnil⟩
    | some c =>
      obtain ⟨hne, hsome⟩ := hcb c (.inl hwaiting)
      obtain ⟨s', hs', hcont, hidle, hcalls⟩ := hs.exists_returned hspawn hwaiting hne hsome
      exact ⟨s', hs', hcont, hidle, by rw [hcalls, hnil]⟩
  | succ k ih =>
    -- the call under way returns, and the next one is sent
    obtain ⟨s₁, hs₁, hcont₁, hidle₁, hcalls₁⟩ : ∃ s₁, Inv callbacks methods s₁ ∧
        Continues callbacks p s s₁ ∧ s₁.waiting p = none ∧ s₁.calls = s.calls := by
      cases hwaiting : s.waiting p with
      | none => exact ⟨s, hs, .refl p s, hwaiting, rfl⟩
      | some c =>
        obtain ⟨hne, hsome⟩ := hcb c (.inl hwaiting)
        exact hs.exists_returned hspawn hwaiting hne hsome
    obtain ⟨c, calls, hcalls⟩ := List.exists_cons_of_length_eq_add_one hk
    have hsend : s₁.advance callbacks p = _ :=
      advance_of_idle hidle₁ ((congrFun hcalls₁ p).trans hcalls)
    have hwaiting₂ : (s₁.advance callbacks p).waiting p = some c := by
      rw [hsend]
      exact Function.update_self ..
    have hcalls₂ : (s₁.advance callbacks p).calls p = calls := by
      rw [hsend]
      exact Function.update_self ..
    obtain ⟨s', hs', hcont', hidle', hnil'⟩ := ih
      (hs₁.advance_send hidle₁ ((congrFun hcalls₁ p).trans hcalls)) (fun c' hc' => by
        refine hcb c' (.inr ?_)
        rw [hcalls]
        rcases hc' with hc' | hc'
        · rw [hwaiting₂] at hc'
          exact Option.some.inj hc' ▸ List.mem_cons_self
        · rw [hcalls₂] at hc'
          exact List.mem_cons_of_mem _ hc') (by
        rw [hcalls₂]
        rw [hcalls] at hk
        exact Nat.succ.inj hk)
    exact ⟨s', hs', (hcont₁.trans (continues_advance p s₁)).trans hcont', hidle', hnil'⟩

end Reply

/-- **Calls return.** However far the calls have come, the network threads, the callbacks and the
process `p` itself can bring all calls of `p` to their return, if `p` calls other processes only and
these have callbacks for its methods. No other thread sends requests with these methods or takes
replies to them, and the tables of the network threads are large enough: fewer than `kMaxHosts`
processes and `kMaxMethods` tags. -/
theorem calls_can_return [Inhabited M]
    (callbacks : ι → ℕ → Option (CallbackInfo ι M)) (program : ι → List (CallRequest ι M))
    (methods : List ℕ) (hmethods : ∀ p, ∀ c ∈ program p, c.method ∈ methods)
    (hspawn : ∀ b, ∀ tag ∈ methods, ∀ ci, callbacks b tag = some ci → ci.spawnThread = false)
    (events : List (Event ι M)) (hforeign : ∀ e ∈ events, e.Foreign methods) (p : ι)
    (hcb : ∀ c ∈ program p, p ≠ c.dst ∧ (callbacks c.dst c.method).isSome) :
    ∃ more : List (Event ι M), (∀ e ∈ more, e.Internal p) ∧
      (((events ++ more).foldl (Callers.step callbacks) (init program)).returned p).map Prod.fst =
        program p := by
  have hinv := run_inv (inv_init hmethods) hspawn hforeign
  have hprogram := run_program callbacks (init program) events p
  obtain ⟨s', -, ⟨more, hinternal, hmore⟩, hidle, hnil⟩ :=
    hinv.exists_all_returned hspawn (p := p) fun c hc => by
      refine hcb c ?_
      change _ = program p at hprogram
      rw [← hprogram]
      rcases hc with hc | hc
      · simp [hc]
      · simp [hc]
  refine ⟨more, hinternal, ?_⟩
  have hreturned := run_program callbacks (init program) (events ++ more) p
  rw [List.foldl_append, hmore] at hreturned ⊢
  rw [hidle, hnil, List.append_nil, Option.toList_none, List.append_nil] at hreturned
  exact hreturned

/-- From the middle of the crossed calls, the second call can return too. -/
theorem calls_can_return_crossed :
    ∃ more : List (Event (Fin 2) ℕ), (∀ e ∈ more, e.Internal 1) ∧
      ((([.advance 0, .advance 1, .rpc (.run 0 1 fun _ => false)] ++ more :
        List (Event (Fin 2) ℕ)).foldl (Callers.step fun b type =>
          if type = 5 then some ⟨false, fun a m => 100 * b.val + 10 * a.val + m⟩ else none)
        (init fun p => [⟨1 - p, 5, 3 + p.val⟩, ⟨1 - p, 5, 0⟩])).returned 1).map Prod.fst =
        [⟨0, 5, 4⟩, ⟨0, 5, 0⟩] := by
  refine calls_can_return _ _ [5] (by simp) ?_ _
    (by simp [Event.Foreign, Action.Foreign]) 1 (by simp)
  intro b tag htag ci hci
  obtain rfl := List.mem_singleton.mp htag
  exact Option.some.inj hci ▸ rfl

end Callers

end MaiterStore
