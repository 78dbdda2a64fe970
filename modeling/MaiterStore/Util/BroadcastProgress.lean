/-
# Synchronous broadcasts return

`WaitForSync` (`util/rpc.cc`) has no way out but the replies. From every state that can come up, the
network threads and the callbacks can bring them, without any further `Send`: the requests leave
`pending_sends_`, come to the front of their channels, are handled, and their replies come back the
same way. This takes a callback for the method at every process. Where there is none, the request
stays in a queue that nothing answers.
-/

import Mathlib.Algebra.Order.BigOperators.Group.Finset
import MaiterStore.Util.RpcDelivery
import MaiterStore.Util.SyncBroadcast

namespace MaiterStore

/-! ## One call -/

namespace RpcSystem

variable {n : ℕ} {M : Type*} {callbacks : Fin (n + 1) → ℕ → Option (CallbackInfo (Fin (n + 1)) M)}
  {methods : List ℕ} {call : ℕ × M} {stage stage' : Fin (n + 1) → Stage} {done : List (ℕ × M)}
  {s s' : RpcSystem (Fin (n + 1)) M}

/-- Round trips go on, any number of stages. -/
def Later (callbacks : Fin (n + 1) → ℕ → Option (CallbackInfo (Fin (n + 1)) M)) (call : ℕ × M) :
    (Fin (n + 1) → Stage) → (Fin (n + 1) → Stage) → Prop :=
  Relation.ReflTransGen (Advances callbacks call)

theorem Later.rank_le (h : Later callbacks call stage stage') (b : Fin (n + 1)) :
    (stage b).rank ≤ (stage' b).rank := by
  induction h with
  | refl => exact le_rfl
  | tail _ hadv ih =>
    rcases hadv b with heq | ⟨e, hnext⟩
    · rwa [heq]
    · exact ih.trans hnext.rank_lt.le

theorem Carries.reaches (hs : Carries callbacks methods call stage done s)
    (h : Reaches callbacks s s') :
    ∃ stage', Carries callbacks methods call stage' done s' ∧
      Later callbacks call stage stage' := by
  obtain ⟨acts, hinternal, rfl⟩ := h
  induction acts using List.reverseRecOn with
  | nil => exact ⟨stage, hs, .refl⟩
  | append_singleton acts act ih =>
    obtain ⟨stage₁, hs₁, hlater⟩ := ih fun a ha => hinternal a (List.mem_append_left _ ha)
    have hact := hinternal act (List.mem_append_right _ (List.mem_singleton_self _))
    rw [List.foldl_append]
    obtain ⟨stage', hs', hadv⟩ := hs₁.step (hact.foreign methods)
    exact ⟨stage', hs', hlater.tail hadv⟩

/-- The trip of a process in the current call. -/
theorem Carries.trip_call (hs : Carries callbacks methods call stage done s) (b : Fin (n + 1))
    (hb : stage b ≠ .unsent) :
    ∃ t : Trip M, t.Quiet ∧
      s.trip 0 b call.1 = (stage b).trip t call.2 (response callbacks b call) := by
  obtain ⟨t, ht, htrip⟩ := hs.trip 0 b call.1 (hs.mem b hb)
  exact ⟨t, ht, stageAt_call stage call b ▸ htrip⟩

/-- The message of a process gets on. -/
theorem Carries.exists_next (hcb : ∀ b, b ≠ 0 → ∀ method ∈ methods, (callbacks b method).isSome)
    (hs : Carries callbacks methods call stage done s) {b : Fin (n + 1)}
    (hunsent : stage b ≠ .unsent) (hrank : (stage b).rank < 7) :
    ∃ s', Reaches callbacks s s' ∧
      ∀ stage', Carries callbacks methods call stage' done s' → stage' b ≠ stage b := by
  have hb : b ≠ 0 := fun h => hunsent (h ▸ hs.first)
  have hsome := hcb b hb call.1 (hs.mem b hunsent)
  have hqueued : stage b ≠ .queued := fun hst => by
    rw [hs.unheard b hst] at hsome
    cases hsome
  obtain ⟨t, ht, htrip⟩ := hs.trip_call b hunsent
  obtain ⟨s', hreach, hmoved⟩ := exists_moved hb.symm hsome ht htrip hunsent hqueued hrank
  refine ⟨s', hreach, fun stage' hs' heq => ?_⟩
  obtain ⟨t', ht', htrip'⟩ := hs'.trip_call b (heq ▸ hunsent)
  exact hmoved t' ht' (heq ▸ htrip')

/-- How much the round trips of the call have before them. -/
def remaining (stage : Fin (n + 1) → Stage) : ℕ := ∑ b, (8 - (stage b).rank)

theorem Later.remaining_lt (h : Later callbacks call stage stage') {b : Fin (n + 1)}
    (hne : stage' b ≠ stage b) : remaining stage' < remaining stage := by
  have hle := h.rank_le
  have hlt : (stage b).rank < (stage' b).rank :=
    lt_of_le_of_ne (hle b) fun heq => hne (Stage.rank_injective heq.symm)
  refine Finset.sum_lt_sum (fun c _ => Nat.sub_le_sub_left (hle c) 8) ⟨b, Finset.mem_univ b, ?_⟩
  have := (stage' b).rank_le
  omega

/-- All replies to the requests that were sent can arrive. -/
theorem Carries.exists_settled
    (hcb : ∀ b, b ≠ 0 → ∀ method ∈ methods, (callbacks b method).isSome)
    (hs : Carries callbacks methods call stage done s) :
    ∃ s' stage', Reaches callbacks s s' ∧ Carries callbacks methods call stage' done s' ∧
      Later callbacks call stage stage' ∧
      ∀ b, stage' b = .unsent ∨ stage' b = .arrived ∨ stage' b = .taken := by
  induction hk : remaining stage using Nat.strong_induction_on generalizing s stage with
  | _ k ih =>
    by_cases hall : ∀ b, stage b = .unsent ∨ 7 ≤ (stage b).rank
    · refine ⟨s, stage, .refl s, hs, .refl, fun b => ?_⟩
      rcases hall b with hunsent | hrank
      · exact .inl hunsent
      · cases hst : stage b <;> simp_all [Stage.rank]
    · obtain ⟨b, hb⟩ := not_forall.mp hall
      obtain ⟨hunsent, hrank⟩ := not_or.mp hb
      obtain ⟨s₁, hreach₁, hne⟩ := hs.exists_next hcb hunsent (not_le.mp hrank)
      obtain ⟨stage₁, hs₁, hlater₁⟩ := hs.reaches hreach₁
      obtain ⟨s', stage', hreach, hs', hlater, hsettled⟩ :=
        ih _ (hk ▸ hlater₁.remaining_lt (hne stage₁ hs₁)) hs₁ rfl
      exact ⟨s', stage', hreach₁.trans hreach, hs', hlater₁.trans hlater, hsettled⟩

end RpcSystem

/-! ## All calls -/

namespace Broadcaster

open RpcSystem

variable {n : ℕ} {M : Type*} {callbacks : Fin (n + 1) → ℕ → Option (CallbackInfo (Fin (n + 1)) M)}
  {methods : List ℕ} {call : ℕ × M} {stage stage' : Fin (n + 1) → Stage}
  {s s' s'' : Broadcaster n M}

/-- A step of the thread that makes the calls, of a network thread or of a callback. -/
def Event.Internal : Event n M → Prop
  | .advance => True
  | .rpc act => act.Internal

theorem Event.Internal.foreign {e : Event n M} (h : e.Internal) (methods : List ℕ) :
    e.Foreign methods := by
  cases e with
  | advance => trivial
  | rpc act => exact Action.Internal.foreign h methods

/-- Such steps can lead from `s` to `s'`. -/
def Continues (callbacks : Fin (n + 1) → ℕ → Option (CallbackInfo (Fin (n + 1)) M))
    (s s' : Broadcaster n M) : Prop :=
  ∃ events : List (Event n M), (∀ e ∈ events, e.Internal) ∧ events.foldl (step callbacks) s = s'

theorem Continues.refl (s : Broadcaster n M) : Continues callbacks s s := ⟨[], by simp, rfl⟩

theorem Continues.trans (h : Continues callbacks s s') (h' : Continues callbacks s' s'') :
    Continues callbacks s s'' := by
  obtain ⟨events, hinternal, rfl⟩ := h
  obtain ⟨events', hinternal', rfl⟩ := h'
  exact ⟨events ++ events', List.forall_mem_append.mpr ⟨hinternal, hinternal'⟩, List.foldl_append⟩

theorem continues_advance (s : Broadcaster n M) : Continues callbacks s (s.advance callbacks) :=
  ⟨[.advance], by simp [Event.Internal], rfl⟩

theorem continues_rpc (s : Broadcaster n M) {rpc : RpcSystem (Fin (n + 1)) M}
    (h : Reaches callbacks s.rpc rpc) : Continues callbacks s { s with rpc := rpc } := by
  obtain ⟨acts, hinternal, rfl⟩ := h
  refine ⟨acts.map .rpc, by simpa [Event.Internal] using hinternal, ?_⟩
  clear hinternal
  induction acts generalizing s with
  | nil => rfl
  | cons act acts ih => exact ih (s.step callbacks (.rpc act))

section Wait

variable {method i : ℕ} {msg : M} {count : ℤ}

/-- The loop of `Broadcast` comes to its end. -/
theorem exists_waiting (hs : Inv callbacks methods call stage s)
    (hsync : s.sync = .broadcast method msg i) :
    ∃ s' stage' count', Continues callbacks s s' ∧ Inv callbacks methods call stage' s' ∧
      s'.sync = .wait method msg count' (n + 1) ∧ s'.calls = s.calls := by
  induction hk : n + 1 - i generalizing s stage i with
  | zero =>
    have h : ¬ i < n + 1 := by omega
    exact ⟨_, stage, n, continues_advance s, hs.advance_broadcast_end hsync h,
      by rw [advance_of_broadcast_end hsync h], by rw [advance_of_broadcast_end hsync h]⟩
  | succ k ih =>
    have h : i < n + 1 := by omega
    obtain ⟨s', stage', count', hcont, hs', hsync', hcalls⟩ :=
      ih (hs.advance_broadcast hsync h) (by rw [advance_of_broadcast hsync h]) (by omega)
    refine ⟨s', stage', count', (continues_advance s).trans hcont, hs', hsync', ?_⟩
    rw [hcalls, advance_of_broadcast hsync h]

/-- A round of `WaitForSync` takes all replies that have arrived. -/
theorem exists_polled (hs : Inv callbacks methods call stage s)
    (hsync : s.sync = .wait method msg count i)
    (hsettled : ∀ b, b ≠ 0 → stage b = .arrived ∨ stage b = .taken) :
    ∃ s' stage' count' j, Continues callbacks s s' ∧ Inv callbacks methods call stage' s' ∧
      (s'.sync = .wait method msg count' j ∧ ¬ j < n + 1) ∧ s'.calls = s.calls ∧
      (∀ b, b ≠ 0 → stage' b = .arrived ∨ stage' b = .taken) ∧
      ∀ b, b ≠ 0 → i ≤ b.val ∨ stage b = .taken → stage' b = .taken := by
  induction hk : n + 1 - i generalizing s stage i count with
  | zero =>
    exact ⟨s, stage, count, i, .refl s, hs, ⟨hsync, by omega⟩, rfl, hsettled,
      fun b _ hb => hb.resolve_left (by omega)⟩
  | succ k ih =>
    have h : i < n + 1 := by omega
    -- the process that is polled has its reply taken, the others are as before
    have hpolled : ∀ b, b ≠ 0 → b = ⟨i, h⟩ ∨ stage b = .taken → Function.update stage ⟨i, h⟩
        (if stage ⟨i, h⟩ = .arrived then .taken else stage ⟨i, h⟩) b = .taken := by
      intro b hb hor
      by_cases hbi : b = ⟨i, h⟩
      · subst hbi
        rcases hsettled _ hb with harrived | htaken
        · rw [Function.update_self, if_pos harrived]
        · rw [Function.update_self, htaken, if_neg (by decide)]
      · rw [Function.update_of_ne hbi]
        exact hor.resolve_left hbi
    have hsettled₁ : ∀ b, b ≠ 0 → Function.update stage ⟨i, h⟩
        (if stage ⟨i, h⟩ = .arrived then .taken else stage ⟨i, h⟩) b = .arrived ∨
      Function.update stage ⟨i, h⟩
        (if stage ⟨i, h⟩ = .arrived then .taken else stage ⟨i, h⟩) b = .taken := by
      intro b hb
      by_cases hbi : b = ⟨i, h⟩
      · exact .inr (hpolled b hb (.inl hbi))
      · rw [Function.update_of_ne hbi]
        exact hsettled b hb
    obtain ⟨s', stage', count', j, hcont, hs', hsync', hcalls, hsettled', htaken⟩ :=
      ih (hs.advance_wait hsync h) (by rw [advance_of_wait hsync h]) hsettled₁ (by omega)
    refine ⟨s', stage', count', j, (continues_advance s).trans hcont, hs', hsync', ?_,
      hsettled', ?_⟩
    · rw [hcalls, advance_of_wait hsync h]
    · intro b hb hor
      refine htaken b hb ?_
      rcases hor with hle | hold
      · rcases hle.eq_or_lt with heq | hlt
        · exact .inr (hpolled b hb (.inl (Fin.ext heq.symm)))
        · exact .inl hlt
      · exact .inr (hpolled b hb (.inr hold))

/-- Once all replies have arrived, `WaitForSync` returns: the round that it is in may have passed
some of them, the next takes the rest. -/
theorem exists_returned_of_settled (hs : Inv callbacks methods call stage s)
    (hsync : s.sync = .wait method msg count i)
    (hsettled : ∀ b, b ≠ 0 → stage b = .arrived ∨ stage b = .taken) :
    ∃ s' call' stage', Continues callbacks s s' ∧ Inv callbacks methods call' stage' s' ∧
      s'.sync = .idle ∧ s'.calls = s.calls := by
  obtain ⟨s₁, stage₁, count₁, j₁, hcont₁, hs₁, ⟨hsync₁, hend₁⟩, hcalls₁, hsettled₁, -⟩ :=
    exists_polled hs hsync hsettled
  -- some replies may have arrived behind the round, which then begins again
  by_cases hcount₁ : 0 < count₁
  · have hadv : s₁.advance callbacks = { s₁ with sync := .wait method msg count₁ 0 } := by
      rw [advance_of_wait_end hsync₁ hend₁, if_pos hcount₁]
    have hs₂ : Inv callbacks methods call stage₁ (s₁.advance callbacks) := by
      have hphase := hs₁.phase
      rw [hsync₁] at hphase
      rw [hadv]
      exact ⟨hs₁.carries, hs₁.calls, hphase⟩
    obtain ⟨s₃, stage₃, count₃, j₃, hcont₃, hs₃, ⟨hsync₃, hend₃⟩, hcalls₃, -, htaken₃⟩ :=
      exists_polled hs₂ (by rw [hadv]) hsettled₁
    -- the second round has tested every queue after the last reply arrived
    have hcount₃ : count₃ = 0 := by
      have hphase := hs₃.phase
      rw [hsync₃] at hphase
      rw [hphase.2.2.2, Int.natCast_eq_zero, Finset.card_eq_zero, outstanding,
        Finset.filter_eq_empty_iff]
      rintro b - ⟨hb, hne⟩
      exact hne (htaken₃ b hb (.inl (Nat.zero_le _)))
    have hadv₃ : s₃.advance callbacks = _ := advance_of_wait_end hsync₃ hend₃
    rw [if_neg (by omega)] at hadv₃
    obtain ⟨call', stage', hs'⟩ := hs₃.advance
    refine ⟨_, call', stage', ((hcont₁.trans (continues_advance s₁)).trans hcont₃).trans
      (continues_advance s₃), hs', by rw [hadv₃], ?_⟩
    rw [hadv₃, hcalls₃, hadv, hcalls₁]
  · have hadv₁ : s₁.advance callbacks = _ := advance_of_wait_end hsync₁ hend₁
    rw [if_neg hcount₁] at hadv₁
    obtain ⟨call', stage', hs'⟩ := hs₁.advance
    exact ⟨_, call', stage', hcont₁.trans (continues_advance s₁), hs', by rw [hadv₁],
      by rw [hadv₁, hcalls₁]⟩

end Wait

theorem Phase.later {sync : SyncBroadcast M} (hphase : Phase methods call stage sync)
    (h : Later callbacks call stage stage') : Phase methods call stage' sync := by
  induction h with
  | refl => exact hphase
  | tail _ hadv ih => exact ih.advances hadv

/-- The call that is being made can return. -/
theorem exists_returned (hcb : ∀ b, b ≠ 0 → ∀ method ∈ methods, (callbacks b method).isSome)
    (hs : Inv callbacks methods call stage s) :
    ∃ s' call' stage', Continues callbacks s s' ∧ Inv callbacks methods call' stage' s' ∧
      s'.sync = .idle ∧ s'.calls = s.calls := by
  have hwait : ∀ {s : Broadcaster n M} {stage : Fin (n + 1) → Stage} {method i : ℕ} {msg : M}
      {count : ℤ}, Inv callbacks methods call stage s → s.sync = .wait method msg count i →
      ∃ s' call' stage', Continues callbacks s s' ∧ Inv callbacks methods call' stage' s' ∧
        s'.sync = .idle ∧ s'.calls = s.calls := by
    intro s stage method i msg count hs hsync
    -- first the replies arrive, then they are counted
    obtain ⟨rpc, stage₁, hreach, hcarries, hlater, hsettled⟩ := hs.carries.exists_settled hcb
    have hs₁ : Inv callbacks methods call stage₁ { s with rpc := rpc } :=
      ⟨hcarries, hs.calls, hs.phase.later hlater⟩
    have hunsent : ∀ b, b ≠ 0 → stage₁ b ≠ .unsent := by
      have hphase := hs₁.phase
      rw [show ({ s with rpc := rpc } : Broadcaster n M).sync = _ from hsync] at hphase
      exact hphase.2.2.1
    obtain ⟨s', call', stage', hcont, hs', hidle, hcalls⟩ :=
      exists_returned_of_settled hs₁ hsync fun b hb => (hsettled b).resolve_left (hunsent b hb)
    exact ⟨s', call', stage', (continues_rpc s hreach).trans hcont, hs', hidle, hcalls⟩
  cases hsync : s.sync with
  | idle => exact ⟨s, call, stage, .refl s, hs, hsync, rfl⟩
  | broadcast method msg i =>
    obtain ⟨s₁, stage₁, count₁, hcont₁, hs₁, hsync₁, hcalls₁⟩ := exists_waiting hs hsync
    obtain ⟨s', call', stage', hcont, hs', hidle, hcalls⟩ := hwait hs₁ hsync₁
    exact ⟨s', call', stage', hcont₁.trans hcont, hs', hidle, hcalls.trans hcalls₁⟩
  | wait method msg count i => exact hwait hs hsync

/-- All calls can return. -/
theorem exists_all_returned
    (hcb : ∀ b, b ≠ 0 → ∀ method ∈ methods, (callbacks b method).isSome)
    (hs : Inv callbacks methods call stage s) :
    ∃ s' call' stage', Continues callbacks s s' ∧ Inv callbacks methods call' stage' s' ∧
      s'.sync = .idle ∧ s'.calls = [] := by
  induction hcalls : s.calls generalizing s call stage with
  | nil =>
    obtain ⟨s', call', stage', hcont, hs', hidle, hcalls'⟩ := exists_returned hcb hs
    exact ⟨s', call', stage', hcont, hs', hidle, hcalls'.trans hcalls⟩
  | cons next calls ih =>
    obtain ⟨s₁, call₁, stage₁, hcont₁, hs₁, hidle₁, hcalls₁⟩ := exists_returned hcb hs
    have hcalls₂ : (s₁.advance callbacks).calls = calls := by
      rw [Broadcaster.advance, hidle₁, hcalls₁, hcalls]
    obtain ⟨s', call', stage', hcont, hs', hidle, hnil⟩ :=
      ih (hs₁.advance_idle hidle₁ (hcalls₁.trans hcalls)) hcalls₂
    exact ⟨s', call', stage', (hcont₁.trans (continues_advance s₁)).trans hcont, hs', hidle, hnil⟩

/-- The run of the program from any state can be completed. -/
theorem exists_run_returned [Inhabited M] {calls : List (ℕ × M)}
    (hcb : ∀ b, b ≠ 0 → ∀ call ∈ calls, (callbacks b call.1).isSome) (events : List (Event n M))
    (hforeign : ∀ e ∈ events, e.Foreign (calls.map Prod.fst)) :
    ∃ more : List (Event n M), (∀ e ∈ more, e.Internal) ∧
      ((events ++ more).foldl (step callbacks) (init calls)).sync = .idle ∧
      ((events ++ more).foldl (step callbacks) (init calls)).returned = calls := by
  obtain ⟨call, stage, hinv⟩ := run_inv callbacks calls hforeign
  obtain ⟨s', call', stage', ⟨more, hinternal, hmore⟩, -, hidle, hnil⟩ :=
    exists_all_returned (by simpa using hcb) hinv
  have hrun : (events ++ more).foldl (step callbacks) (init calls) = s' := by
    rw [List.foldl_append, hmore]
  have hprogram := run_program callbacks calls (events ++ more)
  rw [hrun, hidle, hnil] at hprogram
  refine ⟨more, hinternal, by rw [hrun, hidle], ?_⟩
  rw [hrun]
  simpa [SyncBroadcast.current] using hprogram

/-- **The calls of `SyncBroadcast` can always return**, if every process has a callback for each of
their methods and no other thread sends requests with these methods or takes replies to them. From
every state of every run there is a continuation without any further `Send` of another thread after
which all calls have returned, and every process has run its callbacks for all of them. The tables
of the network threads are large enough: fewer than `kMaxHosts` processes and `kMaxMethods` tags. -/
theorem sync_broadcasts_can_return [Inhabited M]
    (callbacks : Fin (n + 1) → ℕ → Option (CallbackInfo (Fin (n + 1)) M)) (calls : List (ℕ × M))
    (hcb : ∀ b, b ≠ 0 → ∀ call ∈ calls, (callbacks b call.1).isSome)
    (events : List (Event n M)) (hforeign : ∀ e ∈ events, e.Foreign (calls.map Prod.fst)) :
    ∃ more : List (Event n M), (∀ e ∈ more, e.Internal) ∧
      let s : Broadcaster n M := (events ++ more).foldl (step callbacks) (init calls)
      s.sync = .idle ∧ s.returned = calls ∧
        ∀ b, b ≠ 0 → (s.rpc.called b).filter (fun c => c.2.1 ∈ calls.map Prod.fst) =
          calls.map fun c => (0, c) := by
  obtain ⟨more, hinternal, hidle, hreturned⟩ := exists_run_returned hcb events hforeign
  refine ⟨more, hinternal, hidle, hreturned, fun b hb => ?_⟩
  have hall : ∀ e ∈ events ++ more, e.Foreign (calls.map Prod.fst) :=
    List.forall_mem_append.mpr ⟨hforeign, fun e he => (hinternal e he).foreign _⟩
  obtain ⟨call, stage, hinv⟩ := run_inv callbacks calls hall
  have hphase := hinv.phase
  rw [hidle] at hphase
  rw [hinv.carries.called b hb, hphase b, Stage.served, if_neg (by simp), List.append_nil,
    hreturned]

/-- A flush and then an apply at two other processes, from the middle of the first. -/
theorem sync_broadcasts_can_return_flush_apply :
    ∃ more : List (Event 2 ℕ), (∀ e ∈ more, e.Internal) ∧
      let s : Broadcaster 2 ℕ := ([.advance, .rpc (.send 1 2 4 9), .advance] ++ more :
        List (Event 2 ℕ)).foldl (step fun _ method =>
          if method = 4 then none else some ⟨method == 15, fun _ m => m + 1⟩)
        (init [(15, 7), (33, 8)])
      s.sync = .idle ∧ s.returned = [(15, 7), (33, 8)] ∧
        ∀ b, b ≠ 0 → (s.rpc.called b).filter (fun c => c.2.1 ∈ [(15, 7), (33, 8)].map Prod.fst) =
          [(15, 7), (33, 8)].map fun c => (0, c) :=
  sync_broadcasts_can_return _ [(15, 7), (33, 8)] (by simp) _
    (by simp [Event.Foreign, Action.Foreign])

/-! ## Methods without a callback -/

theorem step_rpc (callbacks : Fin (n + 1) → ℕ → Option (CallbackInfo (Fin (n + 1)) M))
    (s : Broadcaster n M) (e : Event n M) :
    (s.step callbacks e).rpc = s.rpc ∨
      ∃ act, (s.step callbacks e).rpc = s.rpc.step callbacks act := by
  cases e with
  | rpc act => exact .inr ⟨act, rfl⟩
  | advance =>
    rw [step]
    cases hsync : s.sync with
    | idle => cases hcalls : s.calls <;> exact .inl (by rw [Broadcaster.advance, hsync, hcalls])
    | broadcast method msg i =>
      by_cases h : i < n + 1
      · exact .inr ⟨.send 0 ⟨i, h⟩ method msg, by rw [advance_of_broadcast hsync h]⟩
      · exact .inl (by rw [advance_of_broadcast_end hsync h])
    | wait method msg count i =>
      by_cases h : i < n + 1
      · exact .inr ⟨.checkReplyQueue 0 ⟨i, h⟩ method, by rw [advance_of_wait hsync h]; rfl⟩
      · rw [advance_of_wait_end hsync h]
        split_ifs <;> exact .inl rfl

theorem run_exact [Inhabited M]
    (callbacks : Fin (n + 1) → ℕ → Option (CallbackInfo (Fin (n + 1)) M)) (calls : List (ℕ × M))
    (events : List (Event n M)) (a b : Fin (n + 1)) (tag : ℕ) :
    ((events.foldl (step callbacks) (init calls)).rpc.trip a b tag).Exact (callbacks b tag) a := by
  induction events using List.reverseRecOn generalizing a b tag with
  | nil => exact init_exact callbacks a b tag
  | append_singleton events e ih =>
    rw [List.foldl_append]
    rcases step_rpc callbacks (events.foldl (step callbacks) (init calls)) e
      with hsame | ⟨act, hstep⟩
    · rw [List.foldl_cons, List.foldl_nil, hsame]
      exact ih a b tag
    · rw [List.foldl_cons, List.foldl_nil, hstep]
      exact step_exact ih act a b tag

/-- A call returns only if every process has a callback for its method. -/
theorem isSome_of_returned [Inhabited M] {calls : List (ℕ × M)} {events : List (Event n M)}
    (hforeign : ∀ e ∈ events, e.Foreign (calls.map Prod.fst)) {call : ℕ × M}
    (hcall : call ∈ (events.foldl (step callbacks) (init calls)).returned) {b : Fin (n + 1)}
    (hb : b ≠ 0) : (callbacks b call.1).isSome = true := by
  obtain ⟨current, stage, hinv⟩ := run_inv callbacks calls hforeign
  have hcalled : (0, call) ∈ (events.foldl (step callbacks) (init calls)).rpc.called b := by
    refine List.mem_of_mem_filter (p := fun c => c.2.1 ∈ calls.map Prod.fst) ?_
    rw [hinv.carries.called b hb]
    exact List.mem_map_of_mem (List.mem_append_left _ hcall)
  by_contra hnone
  have hempty := ((run_exact callbacks calls events 0 b call.1).uncalled
    (Option.not_isSome_iff_eq_none.mp hnone)).2.1
  have hmem : call.2 ∈
      ((events.foldl (step callbacks) (init calls)).rpc.trip 0 b call.1).called :=
    List.mem_map.mpr ⟨(0, call), List.mem_filter.mpr ⟨hcalled, by simp⟩, rfl⟩
  rw [hempty] at hmem
  cases hmem

end Broadcaster

end MaiterStore
