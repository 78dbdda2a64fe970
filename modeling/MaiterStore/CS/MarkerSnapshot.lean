/-
# Snapshots with markers on FIFO channels

Processes hold values of a commutative monoid, take in new value, and send parts of what
they hold over FIFO channels. Every message carries the epoch of its sender. A snapshot
begins a new epoch: every process switches to it at some moment, saves part of its value
and sends a marker on all of its channels. Until it has heard the markers of all
processes, it logs what it receives from earlier epochs.

All value is sent to one process, `home`. What `home` saves and logs, and what any process
had and did not save when it switched, is together what was there at the start and what
every process had taken in before its own switch. If nothing is left unsaved, the snapshot
is a consistent cut.
-/

import Mathlib.Logic.Relation
import MaiterStore.CS.DeltaIteration

namespace CS.MarkerSnapshot

open CS.DeltaIteration

variable {ι M : Type*} [DecidableEq ι]

/-- What travels on a channel. -/
inductive Item (M : Type*)
  | put (epoch : ℕ) (x : M)
  | marker (epoch : ℕ)

/-- The processes, the channels between them and what is known of snapshots. `current` is
the epoch of the last snapshot begun and `busy` says that it has not been ended; `saved`,
`lost`, `logged` and `inputAt` are by epoch. -/
@[ext] structure State (ι M : Type*) where
  current : ℕ
  busy : Bool
  epoch : ι → ℕ
  recording : ι → Bool
  heard : ι → ι → ℕ
  done : ι → ℕ
  value : ι → M
  input : ι → M
  channel : ι × ι → List (Item M)
  saved : ι → ℕ → M
  lost : ι → ℕ → M
  logged : ι → ℕ → M
  inputAt : ι → ℕ → M

/-- Append to the channels from `u`. -/
def post {A : Type*} (channel : ι × ι → List A) (u : ι) (new : ι → List A) : ι × ι → List A :=
  fun p => if p.1 = u then channel p ++ new p.2 else channel p

theorem map_post {A B : Type*} (f : A → B) (channel : ι × ι → List A) (u : ι) (new : ι → List A)
    (p : ι × ι) : (post channel u new p).map f =
      post (fun q => (channel q).map f) u (fun v => (new v).map f) p := by
  simp only [post]
  split_ifs
  · exact List.map_append
  · rfl

/-- The messages for `v` among `msgs`, in order. -/
def puts (epoch : ℕ) (msgs : List (ι × M)) (v : ι) : List (Item M) :=
  (msgs.filter fun msg => msg.1 = v).map fun msg => .put epoch msg.2

section Steps

variable [AddCommMonoid M] [Fintype ι]

/-- The state after `w` has taken in `x` and has sent `msgs`, with `y` left. -/
def worked (s : State ι M) (w : ι) (x y : M) (msgs : List (ι × M)) : State ι M :=
  { s with
    value := Function.update s.value w y
    input := Function.update s.input w (s.input w + x)
    channel := post s.channel w (puts (s.epoch w) msgs) }

/-- The state after `v` has received `x`, sent by `u` in epoch `e`. -/
def received (s : State ι M) (u v : ι) (e : ℕ) (x : M) (rest : List (Item M)) : State ι M :=
  { s with
    channel := Function.update s.channel (u, v) rest
    value := Function.update s.value v (s.value v + x)
    -- only messages of earlier epochs are part of the snapshot of `v`
    logged := if s.recording v = true ∧ e < s.epoch v then
        Function.update s.logged v
          (Function.update (s.logged v) (s.epoch v) (s.logged v (s.epoch v) + x))
      else s.logged }

/-- The state after `w` has switched to the current epoch and has saved `kept` and left
`left` out. -/
def switched (s : State ι M) (w : ι) (kept left : M) : State ι M :=
  { s with
    epoch := Function.update s.epoch w s.current
    recording := Function.update s.recording w true
    channel := post s.channel w fun _ => [.marker s.current]
    saved := Function.update s.saved w (Function.update (s.saved w) s.current kept)
    lost := Function.update s.lost w (Function.update (s.lost w) s.current left)
    logged := Function.update s.logged w (Function.update (s.logged w) s.current 0)
    inputAt := Function.update s.inputAt w (Function.update (s.inputAt w) s.current (s.input w)) }

/-- The state after `v` has heard the marker of `u`. -/
def hear (s : State ι M) (u v : ι) (e : ℕ) (rest : List (Item M)) : State ι M :=
  let heard := Function.update (s.heard v) u e
  let s' := { s with
    channel := Function.update s.channel (u, v) rest
    heard := Function.update s.heard v heard }
  if ∀ i, heard i = s.epoch v then
    { s' with
      recording := Function.update s.recording v false
      heard := Function.update s.heard v fun _ => s.epoch v
      done := Function.update s.done v (s.done v + 1) }
  else s'

/-- What can happen. All value is sent to `home`, and only `home` saves any. -/
inductive Step (home : ι) (s : State ι M) : State ι M → Prop
  /-- Process `w` takes in `x` and sends messages. -/
  | work (w : ι) (x y : M) (msgs : List (ι × M))
    (hsum : s.value w + x = y + (msgs.map Prod.snd).sum)
    (haway : ∀ msg ∈ msgs, msg.1 ≠ home → msg.2 = 0) :
    Step home s (worked s w x y msgs)
  /-- A message arrives. -/
  | receive (u v : ι) (e : ℕ) (x : M) (rest : List (Item M))
    (hitem : s.channel (u, v) = .put e x :: rest) : Step home s (received s u v e x rest)
  | switch (w : ι) (kept left : M) (hlt : s.epoch w < s.current) (hsplit : s.value w = kept + left)
    (haway : w ≠ home → kept = 0) : Step home s (switched s w kept left)
  /-- A marker arrives at a process that has switched. -/
  | hear (u v : ι) (e : ℕ) (rest : List (Item M)) (hitem : s.channel (u, v) = .marker e :: rest)
    (hle : e ≤ s.epoch v) : Step home s (hear s u v e rest)
  /-- A new snapshot begins. -/
  | begin (hidle : s.busy = false) : Step home s { s with current := s.current + 1, busy := true }
  /-- The snapshot ends once every process is done. -/
  | finish (hbusy : s.busy = true) (hdone : ∀ w, s.done w ≠ 0) :
    Step home s { s with busy := false, done := fun w => s.done w - 1 }

end Steps

/-! ## The invariant of a channel -/

section Link

/-- Messages only, of epochs that meet `P`. -/
def AllPuts (P : ℕ → Prop) (items : List (Item M)) : Prop :=
  ∀ item ∈ items, ∃ e x, item = .put e x ∧ P e

/-- A channel whose sender is in `epoch` and whose receiver has heard of `heard`: the
marker of the current epoch separates the messages of earlier epochs from the later ones. -/
inductive Link (current epoch heard : ℕ) (items : List (Item M)) : Prop
  | behind (hepoch : epoch < current) (hheard : heard < current)
    (hitems : AllPuts (· < current) items)
  | marked (hepoch : epoch = current) (hheard : heard < current) (early late : List (Item M))
    (hitems : items = early ++ .marker current :: late) (hearly : AllPuts (· < current) early)
    (hlate : AllPuts (· = current) late)
  | heard (hepoch : epoch = current) (hheard : heard = current)
    (hitems : AllPuts (· = current) items)

variable {current epoch heard e : ℕ} {items rest new : List (Item M)} {x : M} {P : ℕ → Prop}

theorem AllPuts.append (h : AllPuts P items) (h' : AllPuts P new) : AllPuts P (items ++ new) := by
  intro item hitem
  rcases List.mem_append.mp hitem with hold | hnew
  · exact h item hold
  · exact h' item hnew

theorem AllPuts.tail (h : AllPuts P (.put e x :: rest)) : P e ∧ AllPuts P rest := by
  refine ⟨?_, fun item hitem => h item (List.mem_cons_of_mem _ hitem)⟩
  obtain ⟨e', x', heq, he⟩ := h _ List.mem_cons_self
  cases heq
  exact he

theorem not_allPuts_marker : ¬ AllPuts P (.marker e :: rest : List (Item M)) := by
  intro h
  obtain ⟨_, _, heq, _⟩ := h _ List.mem_cons_self
  cases heq

theorem allPuts_puts {msgs : List (ι × M)} {v : ι} (he : P e) : AllPuts P (puts e msgs v) := by
  intro item hitem
  obtain ⟨msg, -, rfl⟩ := List.mem_map.mp hitem
  exact ⟨e, msg.2, rfl, he⟩

/-- The sender sends messages of its epoch. -/
theorem Link.append (hlink : Link current epoch heard items) (hnew : AllPuts (· = epoch) new) :
    Link current epoch heard (items ++ new) := by
  cases hlink with
  | behind hepoch hheard hitems =>
    refine .behind hepoch hheard (hitems.append fun item hitem => ?_)
    obtain ⟨e, x, rfl, rfl⟩ := hnew item hitem
    exact ⟨_, x, rfl, hepoch⟩
  -- behind the marker
  | marked hepoch hheard early late hitems hearly hlate =>
    subst hepoch
    refine .marked rfl hheard early (late ++ new) ?_ hearly (hlate.append hnew)
    rw [hitems, List.append_assoc, List.cons_append]
  | heard hepoch hheard hitems =>
    subst hepoch
    exact .heard rfl hheard (hitems.append hnew)

/-- The sender switches. -/
theorem Link.switch (hlink : Link current epoch heard items) (hlt : epoch < current) :
    Link current current heard (items ++ [.marker current]) := by
  cases hlink with
  | behind _ hheard hitems => exact .marked rfl hheard items [] rfl hitems nofun
  | marked hepoch | heard hepoch => exact absurd hepoch hlt.ne

/-- A message that arrives is of an earlier epoch exactly if the marker has not been heard. -/
theorem Link.receive (hlink : Link current epoch heard (.put e x :: rest)) :
    Link current epoch heard rest ∧
      (e < current ∧ heard < current ∨ e = current ∧ heard = current) := by
  cases hlink with
  | behind hepoch hheard hitems =>
    obtain ⟨he, hrest⟩ := hitems.tail
    exact ⟨.behind hepoch hheard hrest, .inl ⟨he, hheard⟩⟩
  | marked hepoch hheard early late hitems hearly hlate =>
    cases early with
    | nil => cases hitems
    | cons item early =>
      obtain ⟨rfl, rfl⟩ := List.cons.inj hitems
      obtain ⟨he, hrest⟩ := hearly.tail
      exact ⟨.marked hepoch hheard early late rfl hrest hlate, .inl ⟨he, hheard⟩⟩
  | heard hepoch hheard hitems =>
    obtain ⟨he, hrest⟩ := hitems.tail
    exact ⟨.heard hepoch hheard hrest, .inr ⟨he, hheard⟩⟩

/-- A marker that arrives is the one of the current epoch, and nothing earlier is left. -/
theorem Link.hear (hlink : Link current epoch heard (.marker e :: rest)) :
    e = current ∧ epoch = current ∧ heard < current ∧ AllPuts (· = current) rest := by
  cases hlink with
  | behind _ _ hitems | heard _ _ hitems => exact absurd hitems not_allPuts_marker
  | marked hepoch hheard early late hitems hearly hlate =>
    cases early with
    | nil =>
      obtain ⟨heq, rfl⟩ := List.cons.inj hitems
      cases heq
      exact ⟨rfl, hepoch, hheard, hlate⟩
    | cons item early =>
      obtain ⟨rfl, -⟩ := List.cons.inj hitems
      exact absurd hearly not_allPuts_marker

/-- A channel between snapshots is one of the epoch before the next snapshot. -/
theorem Link.begin (hlink : Link current epoch heard items) (hheard : heard = current) :
    Link (current + 1) epoch heard items := by
  cases hlink with
  | behind _ hlt | marked _ hlt => exact absurd hheard hlt.ne
  | heard hepoch _ hitems =>
    refine .behind (by omega) (by omega) fun item hitem => ?_
    obtain ⟨e, x, heq, rfl⟩ := hitems item hitem
    exact ⟨e, x, heq, Nat.lt_succ_self e⟩

end Link

/-! ## Sums over all channels -/

section Flow

variable [AddCommMonoid M] [Fintype ι] {f : Item M → M} {channel : ι × ι → List (Item M)}

/-- The value of an item. -/
def amount : Item M → M
  | .put _ x => x
  | .marker _ => 0

/-- The value of an item that was sent before the snapshot. -/
def earlyAmount (current : ℕ) : Item M → M
  | .put e x => if e < current then x else 0
  | .marker _ => 0

/-- The sum of `f` over all items under way. -/
def flow (f : Item M → M) (channel : ι × ι → List (Item M)) : M :=
  ∑ p, ((channel p).map f).sum

theorem flow_pop {p : ι × ι} {item : Item M} {rest : List (Item M)}
    (hitem : channel p = item :: rest) :
    flow f (Function.update channel p rest) + f item = flow f channel := by
  have hsum : ((rest.map f).sum + f item) = ((channel p).map f).sum + 0 := by
    rw [hitem, List.map_cons, List.sum_cons, add_zero, add_comm]
  have hflow := sum_update (fun items : List (Item M) => (items.map f).sum) channel p hsum
  rwa [add_zero] at hflow

theorem flow_post (u : ι) (new : ι → List (Item M)) :
    flow f (post channel u new) = flow f channel + ∑ v, ((new v).map f).sum := by
  have hterm : ∀ p : ι × ι, ((post channel u new p).map f).sum =
      ((channel p).map f).sum + if p.1 = u then ((new p.2).map f).sum else 0 := by
    intro p
    by_cases hp : p.1 = u
    · rw [post, if_pos hp, if_pos hp, List.map_append, List.sum_append]
    · rw [post, if_neg hp, if_neg hp, add_zero]
  rw [flow, Finset.sum_congr rfl fun p _ => hterm p, Finset.sum_add_distrib, flow]
  congr 1
  rw [Fintype.sum_prod_type]
  simp

theorem sum_puts (e : ℕ) (msgs : List (ι × M)) :
    ∑ v, ((puts e msgs v).map f).sum = (msgs.map fun msg => f (.put e msg.2)).sum := by
  induction msgs with
  | nil => simp [puts]
  | cons msg msgs ih =>
    have hcons : ∀ v, ((puts e (msg :: msgs) v).map f).sum =
        (if msg.1 = v then f (.put e msg.2) else 0) + ((puts e msgs v).map f).sum := by
      intro v
      by_cases hv : msg.1 = v <;> simp [puts, hv]
    rw [Finset.sum_congr rfl fun v _ => hcons v, Finset.sum_add_distrib, ih, List.map_cons,
      List.sum_cons]
    simp

/-- On a channel without earlier messages nothing is early. -/
theorem sum_earlyAmount_eq_zero {current : ℕ} {items : List (Item M)}
    (hitems : ∀ e x, .put e x ∈ items → e < current → x = 0) :
    (items.map (earlyAmount current)).sum = 0 := by
  apply List.sum_eq_zero
  intro a ha
  obtain ⟨item, hitem, rfl⟩ := List.mem_map.mp ha
  cases item with
  | marker e => rfl
  | put e x =>
    rw [earlyAmount]
    split_ifs with he
    · exact hitems e x hitem he
    · rfl

end Flow

/-! ## The invariant of all processes -/

section Invariant

variable [AddCommMonoid M] [Fintype ι]

/-- What counts for the cut at `w`: its snapshot and what it left out once it has
switched, and all it holds before. -/
def part (s : State ι M) (w : ι) : M :=
  if s.epoch w = s.current then s.saved w s.current + s.logged w s.current + s.lost w s.current
  else s.value w

/-- What `w` has taken in on its side of the cut. -/
def inputBefore (s : State ι M) (w : ι) : M :=
  if s.epoch w = s.current then s.inputAt w s.current else s.input w

/-- The snapshot of epoch `e` is complete at `v`. -/
def Finished (s : State ι M) (v : ι) (e : ℕ) : Prop :=
  e < s.epoch v ∨ e = s.epoch v ∧ s.recording v = false

/-- How the epochs of the processes and the markers on the channels fit together. -/
structure Control (s : State ι M) : Prop where
  epoch_cases : ∀ w, s.epoch w = s.current ∨ s.epoch w + 1 = s.current
  link : ∀ u v, Link s.current (s.epoch u) (s.heard v u) (s.channel (u, v))
  epoch_of_heard : ∀ u v, s.heard v u = s.current → s.epoch v = s.current
  heard_of_idle : s.busy = false → ∀ u v, s.heard v u = s.current
  recording_iff : ∀ v, s.recording v = true ↔ s.epoch v = s.current ∧ ∃ u, s.heard v u ≠ s.current
  done_eq : ∀ v, s.done v = if s.busy = true ∧ ∀ u, s.heard v u = s.current then 1 else 0

/-- What holds in every state of a run in which `total` was there at the start. -/
structure Inv (home : ι) (total : M) (s : State ι M) : Prop extends Control s where
  away : ∀ u v, v ≠ home → ∀ e x, .put e x ∈ s.channel (u, v) → x = 0
  saved_away : ∀ w, w ≠ home → ∀ e, s.saved w e + s.logged w e = 0
  conserved : ∑ w, s.value w + flow amount s.channel = total + ∑ w, s.input w
  cut : s.busy = true →
    ∑ w, part s w + flow (earlyAmount s.current) s.channel = total + ∑ w, inputBefore s w
  finished : ∀ e, 0 < e → Finished s home e →
    s.saved home e + s.logged home e + ∑ w, s.lost w e = total + ∑ w, s.inputAt w e

end Invariant

/-! ### Epochs and markers -/

section Control

variable [Fintype ι] {s : State ι M} {u v w : ι} {e : ℕ} {x : M} {rest : List (Item M)}

omit [DecidableEq ι] in
theorem Control.busy_of_lt (hctl : Control s) (hlt : s.heard v u < s.current) : s.busy = true := by
  by_contra hidle
  exact hlt.ne (hctl.heard_of_idle (Bool.eq_false_iff.mpr hidle) u v)

omit [DecidableEq ι] in
theorem Control.epoch_of_heard_sender (hctl : Control s) (hheard : s.heard v u = s.current) :
    s.epoch u = s.current := by
  cases hctl.link u v with
  | behind _ hlt | marked _ hlt => exact absurd hheard hlt.ne
  | heard hepoch => exact hepoch

omit [DecidableEq ι] in
/-- A process that has not switched has heard nothing of the snapshot. -/
theorem Control.heard_lt (hctl : Control s) (hne : s.epoch v ≠ s.current) (u : ι) :
    s.heard v u < s.current := by
  cases hctl.link u v with
  | behind _ hlt | marked _ hlt => exact hlt
  | heard _ hheard => exact absurd (hctl.epoch_of_heard u v hheard) hne

theorem link_post (hctl : Control s) {new : ι → List (Item M)}
    (hnew : ∀ v, AllPuts (· = s.epoch w) (new v)) (u v : ι) :
    Link s.current (s.epoch u) (s.heard v u) (post s.channel w new (u, v)) := by
  by_cases hu : u = w
  · subst hu
    rw [post, if_pos rfl]
    exact (hctl.link u v).append (hnew v)
  · rw [post, if_neg hu]
    exact hctl.link u v

theorem link_pop (hctl : Control s) (hrest : Link s.current (s.epoch u) (s.heard v u) rest)
    (u' v' : ι) : Link s.current (s.epoch u') (s.heard v' u')
      (Function.update s.channel (u, v) rest (u', v')) := by
  by_cases hp : (u', v') = (u, v)
  · rw [hp, Function.update_self]
    obtain ⟨rfl, rfl⟩ := Prod.mk.inj hp
    exact hrest
  · rw [Function.update_of_ne hp]
    exact hctl.link u' v'

theorem Control.switch [AddCommMonoid M] (hctl : Control s) (hlt : s.epoch w < s.current)
    (kept left : M) : Control (switched s w kept left) where
  epoch_cases w' := by
    by_cases hw : w' = w
    · subst hw
      exact .inl (Function.update_self ..)
    · simpa only [switched, Function.update_of_ne hw] using hctl.epoch_cases w'
  link u v := by
    by_cases hu : u = w
    · subst hu
      simp only [switched, Function.update_self, post, if_true]
      exact (hctl.link u v).switch hlt
    · simpa only [switched, Function.update_of_ne hu, post, hu, if_false] using hctl.link u v
  epoch_of_heard u v hheard := by
    by_cases hv : v = w
    · subst hv
      exact Function.update_self ..
    · simpa only [switched, Function.update_of_ne hv] using hctl.epoch_of_heard u v hheard
  heard_of_idle := hctl.heard_of_idle
  recording_iff v := by
    by_cases hv : v = w
    · subst hv
      simp only [switched, Function.update_self, true_and, true_iff]
      exact ⟨v, (hctl.heard_lt hlt.ne v).ne⟩
    · simpa only [switched, Function.update_of_ne hv] using hctl.recording_iff v
  done_eq := hctl.done_eq

/-- The state after a marker, field by field. -/
theorem hear_eq (s : State ι M) (u v : ι) (e : ℕ) (rest : List (Item M)) :
    hear s u v e rest = { s with
      channel := Function.update s.channel (u, v) rest
      heard := Function.update s.heard v (Function.update (s.heard v) u e)
      recording := if ∀ i, Function.update (s.heard v) u e i = s.epoch v then
        Function.update s.recording v false else s.recording
      done := if ∀ i, Function.update (s.heard v) u e i = s.epoch v then
        Function.update s.done v (s.done v + 1) else s.done } := by
  by_cases hall : ∀ i, Function.update (s.heard v) u e i = s.epoch v
  · have hheard : Function.update (s.heard v) u e = fun _ => s.epoch v := funext hall
    simp only [hear, hheard, implies_true, if_true]
  · simp only [hear, hall, if_false]

omit [DecidableEq ι] in
/-- What is known when a marker arrives at a process that has switched. -/
theorem Control.of_marker (hctl : Control s) (hitem : s.channel (u, v) = .marker e :: rest)
    (hle : e ≤ s.epoch v) :
    e = s.current ∧ s.epoch u = s.current ∧ s.epoch v = s.current ∧ s.heard v u < s.current ∧
      AllPuts (· = s.current) rest := by
  have hlink := hctl.link u v
  rw [hitem] at hlink
  obtain ⟨rfl, hepoch, hheard, hrest⟩ := hlink.hear
  refine ⟨rfl, hepoch, ?_, hheard, hrest⟩
  rcases hctl.epoch_cases v with heq | hsucc
  · exact heq
  · omega

theorem Control.hear (hctl : Control s) (hitem : s.channel (u, v) = .marker e :: rest)
    (hle : e ≤ s.epoch v) : Control (hear s u v e rest) := by
  obtain ⟨rfl, hu, hv, hlt, hrest⟩ := hctl.of_marker hitem hle
  have hbusy := hctl.busy_of_lt hlt
  rw [hear_eq]
  refine ⟨hctl.epoch_cases, fun u' v' => ?_, fun u' v' => ?_, fun hidle => ?_, fun v' => ?_,
    fun v' => ?_⟩
  · by_cases hp : (u', v') = (u, v)
    · obtain ⟨rfl, rfl⟩ := Prod.mk.inj hp
      simp only [Function.update_self]
      exact .heard hu rfl hrest
    · have hold := hctl.link u' v'
      simp only [Function.update_of_ne hp]
      by_cases hv' : v' = v
      · subst hv'
        have hu' : u' ≠ u := fun heq => hp (heq ▸ rfl)
        simpa only [Function.update_self, Function.update_of_ne hu'] using hold
      · simpa only [Function.update_of_ne hv'] using hold
  · by_cases hv' : v' = v
    · subst hv'
      exact fun _ => hv
    · simpa only [Function.update_of_ne hv'] using hctl.epoch_of_heard u' v'
  · exact absurd (hidle.symm.trans hbusy) Bool.false_ne_true
  · by_cases hv' : v' = v
    · subst hv'
      simp only [Function.update_self]
      by_cases hall : ∀ i, Function.update (s.heard v') u s.current i = s.epoch v'
      · simp only [hall, implies_true, if_true, Function.update_self, Bool.false_eq_true, hv,
          ne_eq, not_true_eq_false, exists_false, and_false]
      · rw [if_neg hall, hctl.recording_iff v']
        simp only [hv, true_and]
        rw [hv] at hall
        exact ⟨fun _ => not_forall.mp hall, fun _ => ⟨u, hlt.ne⟩⟩
    · have hold := hctl.recording_iff v'
      simp only [Function.update_of_ne hv']
      split_ifs
      · rwa [Function.update_of_ne hv']
      · exact hold
  · have hold := hctl.done_eq v'
    by_cases hv' : v' = v
    · subst hv'
      rw [if_neg fun hall => hlt.ne (hall.2 u)] at hold
      simp only [Function.update_self, hbusy, true_and, hv]
      split_ifs
      · rw [Function.update_self, hold]
      · exact hold
    · simp only [Function.update_of_ne hv']
      split_ifs at hold ⊢ <;> first | exact hold | rwa [Function.update_of_ne hv']

omit [DecidableEq ι] in
theorem Control.begin (hctl : Control s) (hidle : s.busy = false) :
    Control { s with current := s.current + 1, busy := true } := by
  have hheard := hctl.heard_of_idle hidle
  have hepoch : ∀ w, s.epoch w = s.current := fun w => hctl.epoch_of_heard w w (hheard w w)
  refine ⟨fun w => .inr (by rw [hepoch]), fun u v => (hctl.link u v).begin (hheard u v), ?_, nofun,
    ?_, ?_⟩
  · intro u v heq
    exact absurd ((hheard u v).symm.trans heq) (Nat.lt_succ_self _).ne
  · intro v
    rw [hctl.recording_iff]
    simp only [hheard, hepoch, ne_eq, not_true_eq_false, exists_false, and_false, false_iff]
    exact fun h => absurd h.1 (Nat.lt_succ_self _).ne
  · intro v
    rw [hctl.done_eq, hidle, if_neg (fun h => Bool.false_ne_true h.1), if_neg]
    exact fun h => absurd ((hheard v v).symm.trans (h.2 v)) (Nat.lt_succ_self _).ne

omit [DecidableEq ι] in
theorem Control.finish (hctl : Control s) (hdone : ∀ w, s.done w ≠ 0) :
    Control { s with busy := false, done := fun w => s.done w - 1 } := by
  have hall : ∀ w, s.busy = true ∧ ∀ u, s.heard w u = s.current := by
    intro w
    by_contra hnot
    exact hdone w ((hctl.done_eq w).trans (if_neg hnot))
  refine ⟨hctl.epoch_cases, hctl.link, hctl.epoch_of_heard, fun _ u v => (hall v).2 u,
    hctl.recording_iff, fun v => ?_⟩
  simp only [Bool.false_eq_true, false_and, if_false]
  rw [hctl.done_eq, if_pos (hall v)]

end Control

/-! ### What the snapshot accounts for -/

section Accounting

variable [AddCommMonoid M] [Fintype ι] {home : ι} {total : M} {s : State ι M} {u v w : ι} {e : ℕ}
  {x y : M} {rest : List (Item M)} {msgs : List (ι × M)}

omit [AddCommMonoid M] [Fintype ι] in
theorem mem_post_puts {channel : ι × ι → List (Item M)} {item : Item M} {p : ι × ι}
    (hitem : item ∈ post channel w (puts e msgs) p) :
    item ∈ channel p ∨ ∃ msg ∈ msgs, msg.1 = p.2 ∧ item = .put e msg.2 := by
  rw [post] at hitem
  split_ifs at hitem with hp
  · rcases List.mem_append.mp hitem with hold | hnew
    · exact .inl hold
    · obtain ⟨msg, hmsg, rfl⟩ := List.mem_map.mp hnew
      obtain ⟨hmem, hdst⟩ := List.mem_filter.mp hmsg
      exact .inr ⟨msg, hmem, of_decide_eq_true hdst, rfl⟩
  · exact .inl hitem

theorem Inv.conserved_worked (hinv : Inv home total s)
    (hsum : s.value w + x = y + (msgs.map Prod.snd).sum) :
    ∑ j, (worked s w x y msgs).value j + flow amount (worked s w x y msgs).channel =
      total + ∑ j, (worked s w x y msgs).input j := by
  have hvalue : ∑ j, (worked s w x y msgs).value j + (msgs.map Prod.snd).sum =
      ∑ j, s.value j + x := by
    apply sum_update (fun a => a) s.value w
    rw [hsum]
  have hinput : ∑ j, (worked s w x y msgs).input j + 0 = ∑ j, s.input j + x := by
    apply sum_update (fun a => a) s.input w
    rw [add_zero]
  have hflow : flow amount (worked s w x y msgs).channel =
      flow amount s.channel + (msgs.map Prod.snd).sum := by
    rw [worked, flow_post, sum_puts]
    rfl
  calc ∑ j, (worked s w x y msgs).value j + flow amount (worked s w x y msgs).channel
      = ∑ j, s.value j + x + flow amount s.channel := by
        rw [hflow, ← hvalue, add_right_comm, add_assoc]
    _ = total + (∑ j, s.input j + x) := by rw [add_right_comm, hinv.conserved, add_assoc]
    _ = total + ∑ j, (worked s w x y msgs).input j := by rw [← hinput, add_zero]

/-- Work at a process that has switched is after the cut, and at the others before it. -/
theorem Inv.cut_worked (hinv : Inv home total s) (hbusy : s.busy = true)
    (hsum : s.value w + x = y + (msgs.map Prod.snd).sum) :
    ∑ j, part (worked s w x y msgs) j +
        flow (earlyAmount s.current) (worked s w x y msgs).channel =
      total + ∑ j, inputBefore (worked s w x y msgs) j := by
  have hpart_ne : ∀ j, j ≠ w → part (worked s w x y msgs) j = part s j := by
    intro j hj
    simp only [part, worked, Function.update_of_ne hj]
  have hinput_ne : ∀ j, j ≠ w → inputBefore (worked s w x y msgs) j = inputBefore s j := by
    intro j hj
    simp only [inputBefore, worked, Function.update_of_ne hj]
  have hflow : flow (earlyAmount s.current) (worked s w x y msgs).channel =
      flow (earlyAmount s.current) s.channel +
        (msgs.map fun msg => earlyAmount s.current (.put (s.epoch w) msg.2)).sum := by
    rw [worked, flow_post, sum_puts]
  by_cases hw : s.epoch w = s.current
  -- after the switch neither the work nor its messages count
  · have hpart : ∑ j, part (worked s w x y msgs) j + 0 = ∑ j, part s j + 0 := by
      apply sum_add_eq_of_ne w hpart_ne
      simp only [part, worked, hw, if_true]
    have hinput : ∑ j, inputBefore (worked s w x y msgs) j + 0 = ∑ j, inputBefore s j + 0 := by
      apply sum_add_eq_of_ne w hinput_ne
      simp only [inputBefore, worked, hw, if_true]
    have hlate : (msgs.map fun msg => earlyAmount s.current (.put (s.epoch w) msg.2)).sum = 0 := by
      simp only [earlyAmount, hw, lt_irrefl, if_false]
      exact List.sum_map_zero
    rw [hflow, hlate, add_zero, ← add_zero (∑ j, part _ j), hpart, add_zero, hinv.cut hbusy,
      ← add_zero (∑ j, inputBefore (worked s w x y msgs) j), hinput, add_zero]
  · have hlt : s.epoch w < s.current := by
      have := hinv.epoch_cases w
      omega
    have hpart : ∑ j, part (worked s w x y msgs) j + (msgs.map Prod.snd).sum =
        ∑ j, part s j + x := by
      apply sum_add_eq_of_ne w hpart_ne
      simp only [part, worked, hw, if_false, Function.update_self, hsum]
    have hinput : ∑ j, inputBefore (worked s w x y msgs) j + 0 = ∑ j, inputBefore s j + x := by
      apply sum_add_eq_of_ne w hinput_ne
      simp only [inputBefore, worked, hw, if_false, Function.update_self, add_zero]
    have hearly : (msgs.map fun msg => earlyAmount s.current (.put (s.epoch w) msg.2)).sum =
        (msgs.map Prod.snd).sum := by
      simp only [earlyAmount, hlt, if_true]
    calc ∑ j, part (worked s w x y msgs) j +
          flow (earlyAmount s.current) (worked s w x y msgs).channel
        = ∑ j, part s j + x + flow (earlyAmount s.current) s.channel := by
          rw [hflow, hearly, ← hpart, add_right_comm, add_assoc]
      _ = total + (∑ j, inputBefore s j + x) := by rw [add_right_comm, hinv.cut hbusy, add_assoc]
      _ = total + ∑ j, inputBefore (worked s w x y msgs) j := by rw [← hinput, add_zero]

theorem Inv.work (hinv : Inv home total s)
    (hsum : s.value w + x = y + (msgs.map Prod.snd).sum)
    (haway : ∀ msg ∈ msgs, msg.1 ≠ home → msg.2 = 0) : Inv home total (worked s w x y msgs) := by
  refine ⟨⟨hinv.epoch_cases, link_post hinv.toControl fun v => allPuts_puts rfl,
    hinv.epoch_of_heard, hinv.heard_of_idle, hinv.recording_iff, hinv.done_eq⟩, ?_,
    hinv.saved_away, hinv.conserved_worked hsum, fun hbusy => hinv.cut_worked hbusy hsum,
    hinv.finished⟩
  intro u v hv e x hitem
  rcases mem_post_puts hitem with hold | ⟨msg, hmsg, hdst, heq⟩
  · exact hinv.away u v hv e x hold
  · cases heq
    exact haway msg hmsg (hdst ▸ hv)

/-- What is under way to a process other than `home` stays without value. -/
theorem Inv.away_pop (hinv : Inv home total s) {item : Item M}
    (hitem : s.channel (u, v) = item :: rest) (u' v' : ι) (hv' : v' ≠ home) (e' : ℕ) (x' : M)
    (hmem : .put e' x' ∈ Function.update s.channel (u, v) rest (u', v')) : x' = 0 := by
  by_cases hp : (u', v') = (u, v)
  · obtain ⟨rfl, rfl⟩ := Prod.mk.inj hp
    rw [Function.update_self] at hmem
    exact hinv.away u' v' hv' e' x' (hitem ▸ List.mem_cons_of_mem _ hmem)
  · rw [Function.update_of_ne hp] at hmem
    exact hinv.away u' v' hv' e' x' hmem

/-- A message that arrives counts for the cut at its receiver exactly if it was sent before
the cut: a receiver that has switched logs it until it hears the marker of the sender. -/
theorem Inv.part_received (hinv : Inv home total s)
    (hitem : s.channel (u, v) = .put e x :: rest) :
    part (received s u v e x rest) v = part s v + earlyAmount s.current (.put e x) := by
  have hlink := hinv.link u v
  rw [hitem] at hlink
  by_cases hv : s.epoch v = s.current
  -- the marker of `u` is still to come exactly if the message is early
  · rcases hlink.receive.2 with ⟨hlt, hheard⟩ | ⟨rfl, -⟩
    · have hrec : s.recording v = true := (hinv.recording_iff v).mpr ⟨hv, u, hheard.ne⟩
      simp only [part, received, hv, if_true, hrec, hlt, true_and, Function.update_self,
        earlyAmount, ← add_assoc]
      exact add_right_comm ..
    · simp only [part, received, hv, if_true, lt_irrefl, and_false, if_false, earlyAmount, add_zero]
  · rcases hlink.receive.2 with ⟨hlt, -⟩ | ⟨-, hheard⟩
    · simp only [part, received, hv, if_false, Function.update_self, earlyAmount, hlt, if_true]
    · exact absurd (hinv.epoch_of_heard u v hheard) hv

omit [Fintype ι] in
/-- A finished snapshot is not logged to. -/
theorem logged_received_of_finished {w : ι} {e' : ℕ} (hfin : Finished s w e') :
    (received s u v e x rest).logged w e' = s.logged w e' := by
  rw [received]
  split_ifs with hlog
  · by_cases hw : w = v
    · subst hw
      have hne : e' ≠ s.epoch w := by
        rintro rfl
        rcases hfin with hlt | ⟨-, hidle⟩
        · exact lt_irrefl _ hlt
        · exact absurd (hidle.symm.trans hlog.1) Bool.false_ne_true
      simp only [Function.update_self, Function.update_of_ne hne]
    · simp only [Function.update_of_ne hw]
  · rfl

omit [Fintype ι] in
theorem logged_received_of_ne (hw : w ≠ v) :
    (received s u v e x rest).logged w = s.logged w := by
  rw [received]
  split_ifs
  · exact Function.update_of_ne hw ..
  · rfl

theorem Inv.saved_away_received (hinv : Inv home total s)
    (hitem : s.channel (u, v) = .put e x :: rest) (hw : w ≠ home) (e' : ℕ) :
    s.saved w e' + (received s u v e x rest).logged w e' = 0 := by
  have hold := hinv.saved_away w hw e'
  by_cases hwv : w = v
  · subst hwv
    have hx : x = 0 := hinv.away u w hw e x (hitem ▸ List.mem_cons_self)
    have hadd : Function.update (s.logged w) (s.epoch w) (s.logged w (s.epoch w) + x) =
        s.logged w := by
      rw [hx, add_zero, Function.update_eq_self]
    simp only [received]
    split_ifs
    · rwa [Function.update_self, hadd]
    · exact hold
  · rwa [logged_received_of_ne hwv]

theorem Inv.conserved_received (hinv : Inv home total s)
    (hitem : s.channel (u, v) = .put e x :: rest) :
    ∑ j, (received s u v e x rest).value j + flow amount (received s u v e x rest).channel =
      total + ∑ j, s.input j := by
  have hvalue : ∑ j, (received s u v e x rest).value j + 0 = ∑ j, s.value j + x := by
    apply sum_update (fun a => a) s.value v
    rw [add_zero]
  have hflow : flow amount (received s u v e x rest).channel + x = flow amount s.channel :=
    flow_pop (f := amount) hitem
  rw [← add_zero (∑ j, (received s u v e x rest).value j), hvalue, add_right_comm, add_assoc, hflow]
  exact hinv.conserved

theorem Inv.cut_received (hinv : Inv home total s) (hbusy : s.busy = true)
    (hitem : s.channel (u, v) = .put e x :: rest) :
    ∑ j, part (received s u v e x rest) j +
        flow (earlyAmount s.current) (received s u v e x rest).channel =
      total + ∑ j, inputBefore s j := by
  have hpart : ∑ j, part (received s u v e x rest) j + 0 =
      ∑ j, part s j + earlyAmount s.current (.put e x) := by
    apply sum_add_eq_of_ne v
    · intro j hj
      simp only [part, logged_received_of_ne hj]
      simp only [received, Function.update_of_ne hj]
    · rw [add_zero, hinv.part_received hitem]
  have hflow : flow (earlyAmount s.current) (received s u v e x rest).channel +
      earlyAmount s.current (.put e x) = flow (earlyAmount s.current) s.channel :=
    flow_pop (f := earlyAmount s.current) hitem
  rw [← add_zero (∑ j, part (received s u v e x rest) j), hpart, add_right_comm, add_assoc, hflow]
  exact hinv.cut hbusy

theorem Inv.receive (hinv : Inv home total s) (hitem : s.channel (u, v) = .put e x :: rest) :
    Inv home total (received s u v e x rest) := by
  have hlink := hinv.link u v
  rw [hitem] at hlink
  refine ⟨⟨hinv.epoch_cases, link_pop hinv.toControl hlink.receive.1, hinv.epoch_of_heard,
    hinv.heard_of_idle, hinv.recording_iff, hinv.done_eq⟩, hinv.away_pop hitem,
    fun w hw e' => hinv.saved_away_received hitem hw e', hinv.conserved_received hitem,
    fun hbusy => hinv.cut_received hbusy hitem, ?_⟩
  intro e' he' hfin
  have hlogged : (received s u v e x rest).logged home e' = s.logged home e' :=
    logged_received_of_finished hfin
  rw [hlogged]
  exact hinv.finished e' he' hfin

/-- A snapshot that is finished after a switch was finished before, and is an earlier one. -/
theorem Control.finished_of_switched (hctl : Control s) (hlt : s.epoch w < s.current)
    {kept left : M} (hfin : Finished (switched s w kept left) v e) :
    e ≠ s.current ∧ Finished s v e := by
  by_cases hv : v = w
  · subst hv
    simp only [Finished, switched, Function.update_self, Bool.true_eq_false, and_false,
      or_false] at hfin
    refine ⟨hfin.ne, ?_⟩
    -- before its switch `v` was not recording, so its last snapshot was finished
    have hidle : s.recording v = false := by
      by_contra hrec
      exact hlt.ne ((hctl.recording_iff v).mp (Bool.not_eq_false _ ▸ hrec)).1
    rcases Nat.lt_or_ge e (s.epoch v) with he | he
    · exact .inl he
    · have := hctl.epoch_cases v
      exact .inr ⟨by omega, hidle⟩
  · simp only [Finished, switched, Function.update_of_ne hv] at hfin
    refine ⟨?_, hfin⟩
    rintro rfl
    have hcases := hctl.epoch_cases v
    -- the current snapshot would be finished at `v` although `w` has not switched
    obtain ⟨hepoch, hidle⟩ : s.current = s.epoch v ∧ s.recording v = false := by
      rcases hfin with he | he
      · omega
      · exact he
    have hheard : s.heard v w = s.current := by
      by_contra hne
      exact absurd (hidle.symm.trans ((hctl.recording_iff v).mpr ⟨hepoch.symm, w, hne⟩))
        Bool.false_ne_true
    exact hlt.ne (hctl.epoch_of_heard_sender hheard)

theorem flow_post_marker (f : Item M → M) (hf : ∀ e, f (.marker e) = 0)
    (channel : ι × ι → List (Item M)) : flow f (post channel w fun _ => [.marker e]) =
      flow f channel := by
  rw [flow_post]
  simp [hf]

theorem Inv.switch (hinv : Inv home total s) {kept left : M} (hlt : s.epoch w < s.current)
    (hsplit : s.value w = kept + left) (haway : w ≠ home → kept = 0) :
    Inv home total (switched s w kept left) := by
  refine ⟨hinv.toControl.switch hlt kept left, ?_, ?_, ?_, ?_, ?_⟩
  · intro u v hv e x hitem
    have hold : .put e x ∈ s.channel (u, v) := by
      simp only [switched, post] at hitem
      split_ifs at hitem
      · simpa using hitem
      · exact hitem
    exact hinv.away u v hv e x hold
  · intro j hj e
    have hold := hinv.saved_away j hj e
    by_cases hw : j = w
    · subst hw
      by_cases he : e = s.current
      · subst he
        simp only [switched, Function.update_self, haway hj, add_zero]
      · simpa only [switched, Function.update_self, Function.update_of_ne he] using hold
    · simpa only [switched, Function.update_of_ne hw] using hold
  · change ∑ j, s.value j + flow amount (post s.channel w fun _ => [.marker s.current]) = _
    rw [flow_post_marker amount fun _ => rfl]
    exact hinv.conserved
  · intro hbusy
    have hpart : ∀ j, part (switched s w kept left) j = part s j := by
      intro j
      by_cases hw : j = w
      · subst hw
        simp only [part, switched, Function.update_self, if_true, add_zero, hlt.ne,
          if_false, hsplit]
      · simp only [part, switched, Function.update_of_ne hw]
    have hinput : ∀ j, inputBefore (switched s w kept left) j = inputBefore s j := by
      intro j
      by_cases hw : j = w
      · subst hw
        simp only [inputBefore, switched, Function.update_self, if_true, hlt.ne, if_false]
      · simp only [inputBefore, switched, Function.update_of_ne hw]
    have hflow : flow (earlyAmount s.current) (switched s w kept left).channel =
        flow (earlyAmount s.current) s.channel := flow_post_marker _ (fun _ => rfl) _
    rw [Finset.sum_congr rfl fun j _ => hpart j, Finset.sum_congr rfl fun j _ => hinput j]
    exact hflow ▸ hinv.cut hbusy
  · intro e he hfin
    obtain ⟨hne, hfin'⟩ := hinv.toControl.finished_of_switched hlt hfin
    have hupdate : ∀ (f : ι → ℕ → M) (x : M) (j : ι),
        Function.update f w (Function.update (f w) s.current x) j e = f j e := by
      intro f x j
      by_cases hj : j = w
      · subst hj
        rw [Function.update_self, Function.update_of_ne hne]
      · rw [Function.update_of_ne hj]
    simp only [switched, hupdate]
    exact hinv.finished e he hfin'

/-- The snapshot at `home` is complete once the markers of all processes have come. -/
theorem finished_of_cut (hctl : Control s)
    (haway : ∀ u v, v ≠ home → ∀ e x, .put e x ∈ s.channel (u, v) → x = 0)
    (hsaved : ∀ w, w ≠ home → ∀ e, s.saved w e + s.logged w e = 0)
    (hcut : ∑ w, part s w + flow (earlyAmount s.current) s.channel = total + ∑ w, inputBefore s w)
    (hfin : Finished s home s.current) :
    s.saved home s.current + s.logged home s.current + ∑ w, s.lost w s.current =
      total + ∑ w, s.inputAt w s.current := by
  have hcases := hctl.epoch_cases home
  obtain ⟨hepoch, hidle⟩ : s.current = s.epoch home ∧ s.recording home = false := by
    rcases hfin with he | he
    · omega
    · exact he
  have hheard : ∀ u, s.heard home u = s.current := by
    intro u
    by_contra hne
    exact absurd (hidle.symm.trans ((hctl.recording_iff home).mpr ⟨hepoch.symm, u, hne⟩))
      Bool.false_ne_true
  have hall : ∀ u, s.epoch u = s.current := fun u => hctl.epoch_of_heard_sender (hheard u)
  have hflow : flow (earlyAmount s.current) s.channel = 0 := by
    apply Finset.sum_eq_zero
    rintro ⟨u, v⟩ -
    apply sum_earlyAmount_eq_zero
    intro e x hitem he
    by_cases hv : v = home
    · subst hv
      cases hctl.link u v with
      | behind _ hlt | marked _ hlt => exact absurd (hheard u) hlt.ne
      | heard _ _ hitems =>
        obtain ⟨e', x', heq, rfl⟩ := hitems _ hitem
        cases heq
        exact absurd he (lt_irrefl _)
    · exact haway u v hv e x hitem
  have hpart : ∑ w, part s w =
      s.saved home s.current + s.logged home s.current + ∑ w, s.lost w s.current := by
    simp only [part, hall, if_true]
    rw [Finset.sum_add_distrib, Finset.sum_eq_single home]
    · exact fun w _ hw => hsaved w hw s.current
    · exact fun hnot => absurd (Finset.mem_univ home) hnot
  simp only [inputBefore, hall, if_true] at hcut
  rw [← hpart, ← hcut, hflow, add_zero]

theorem Inv.hear (hinv : Inv home total s) (hitem : s.channel (u, v) = .marker e :: rest)
    (hle : e ≤ s.epoch v) : Inv home total (hear s u v e rest) := by
  have hctl := hinv.toControl.hear hitem hle
  obtain ⟨rfl, -, hv, hlt, -⟩ := hinv.toControl.of_marker hitem hle
  have hbusy := hinv.toControl.busy_of_lt hlt
  have hflow : ∀ f : Item M → M, f (.marker s.current) = 0 →
      flow f (Function.update s.channel (u, v) rest) = flow f s.channel := by
    intro f hf
    have hpop := flow_pop (f := f) hitem
    rwa [hf, add_zero] at hpop
  have hcut : ∑ w, part s w +
      flow (earlyAmount s.current) (Function.update s.channel (u, v) rest) =
        total + ∑ w, inputBefore s w := by
    rw [hflow _ rfl]
    exact hinv.cut hbusy
  rw [hear_eq] at hctl ⊢
  refine ⟨hctl, hinv.away_pop hitem, hinv.saved_away, ?_, fun _ => hcut, ?_⟩
  · rw [hflow amount rfl]
    exact hinv.conserved
  · intro e' he' hfin
    by_cases hcur : e' = s.current
    · subst hcur
      exact finished_of_cut hctl (hinv.away_pop hitem) hinv.saved_away hcut hfin
    · -- only a process in the current epoch can have stopped recording
      refine hinv.finished e' he' ?_
      rcases hfin with hearly | ⟨rfl, hidle⟩
      · exact .inl hearly
      · have hne : home ≠ v := fun heq => hcur (heq ▸ hv)
        refine .inr ⟨rfl, ?_⟩
        simp only at hidle
        split_ifs at hidle
        · rwa [Function.update_of_ne hne] at hidle
        · exact hidle

omit [DecidableEq ι] in
theorem Inv.begin (hinv : Inv home total s) (hidle : s.busy = false) :
    Inv home total { s with current := s.current + 1, busy := true } := by
  have hheard := hinv.heard_of_idle hidle
  have hepoch : ∀ w, s.epoch w ≠ s.current + 1 := by
    intro w
    rw [hinv.epoch_of_heard w w (hheard w w)]
    exact (Nat.lt_succ_self _).ne
  refine ⟨hinv.toControl.begin hidle, hinv.away, hinv.saved_away, hinv.conserved, fun _ => ?_,
    hinv.finished⟩
  have hearly : ∀ p, ∀ item ∈ s.channel p, earlyAmount (s.current + 1) item = amount item := by
    rintro ⟨u, v⟩ item hitem
    cases hinv.link u v with
    | behind _ hlt | marked _ hlt => exact absurd (hheard u v) hlt.ne
    | heard _ _ hitems =>
      obtain ⟨e, x, rfl, rfl⟩ := hitems item hitem
      exact if_pos (Nat.lt_succ_self _)
  have hflow : flow (earlyAmount (s.current + 1)) s.channel = flow amount s.channel := by
    apply Finset.sum_congr rfl
    intro p _
    rw [List.map_congr_left (hearly p)]
  simp only [part, inputBefore, hepoch, if_false, hflow]
  exact hinv.conserved

omit [DecidableEq ι] in
theorem Inv.finish (hinv : Inv home total s) (hdone : ∀ w, s.done w ≠ 0) :
    Inv home total { s with busy := false, done := fun w => s.done w - 1 } :=
  ⟨hinv.toControl.finish hdone, hinv.away, hinv.saved_away, hinv.conserved, nofun, hinv.finished⟩

/-- Every step keeps the invariant. -/
theorem Step.inv {s' : State ι M} (hstep : Step home s s') (hinv : Inv home total s) :
    Inv home total s' := by
  cases hstep with
  | work w x y msgs hsum haway => exact hinv.work hsum haway
  | receive u v e x rest hitem => exact hinv.receive hitem
  | switch w kept left hlt hsplit haway => exact hinv.switch hlt hsplit haway
  | hear u v e rest hitem hle => exact hinv.hear hitem hle
  | begin hidle => exact hinv.begin hidle
  | finish hbusy hdone => exact hinv.finish hdone

/-- A run keeps the invariant. -/
theorem Inv.of_steps {s' : State ι M} (hinv : Inv home total s)
    (hsteps : Relation.ReflTransGen (Step home) s s') : Inv home total s' := by
  induction hsteps with
  | refl => exact hinv
  | tail _ hstep ih => exact hstep.inv ih

end Accounting

end CS.MarkerSnapshot
