/-
# Runs

A run applies one action after the other. Two kinds of step are used: a total step,
whose runs are folds, and a step that may stop the run. For both, what one step keeps,
a whole run keeps; for a total step also under a condition on each action and the
state it is taken in. What runs can bring about for one element after the other, they
can bring about for all of a finite set.
-/

import Mathlib.Data.Finset.Insert
import Mathlib.Data.List.Basic

namespace CS.Run

section Total

variable {σ α : Type*} {step : σ → α → σ} {guard : σ → α → Prop} {s : σ} {as : List α}

/-- What every step keeps holds at the end of a run. -/
theorem foldl_invariant {I : σ → Prop} (hstep : ∀ s a, I s → I (step s a)) (as : List α)
    (hinit : I s) : I (as.foldl step s) := by
  induction as generalizing s with
  | nil => exact hinit
  | cons a as ih => exact ih (hstep s a hinit)

/-- Every action of the run meets `guard` in the state it is taken in. -/
def Guarded (step : σ → α → σ) (guard : σ → α → Prop) : σ → List α → Prop
  | _, [] => True
  | s, a :: as => guard s a ∧ Guarded step guard (step s a) as

/-- What every guarded step keeps holds at the end of a guarded run. -/
theorem Guarded.invariant {I : σ → Prop} (hstep : ∀ s a, I s → guard s a → I (step s a))
    (hinit : I s) (hrun : Guarded step guard s as) : I (as.foldl step s) := by
  induction as generalizing s with
  | nil => exact hinit
  | cons a as ih => exact ih (hstep s a hinit hrun.1) hrun.2

/-- Where the guard is exactly what a step needs for `P`, the guarded runs are those with `P` in all
their states. -/
theorem forall_take_iff_guarded {I P : σ → Prop} (hstep : ∀ s a, I s → guard s a → I (step s a))
    (hgood : ∀ s, I s → P s) (hbad : ∀ s a, I s → ¬ guard s a → ¬ P (step s a)) (hinit : I s) :
    (∀ k, P ((as.take k).foldl step s)) ↔ Guarded step guard s as := by
  induction as generalizing s with
  | nil => exact iff_of_true (fun k => by simpa using hgood s hinit) trivial
  | cons a as ih =>
    constructor
    · intro hall
      have hguard : guard s a := by
        by_contra hnot
        exact hbad s a hinit hnot (hall 1)
      exact ⟨hguard, (ih (hstep s a hinit hguard)).mp fun k => hall (k + 1)⟩
    · rintro ⟨hguard, hrest⟩ k
      cases k with
      | zero => exact hgood s hinit
      | succ k => exact (ih (hstep s a hinit hguard)).mpr hrest k

/-- The actions of a guarded run up to any of them are a guarded run, and that one meets the
guard where they end. -/
theorem Guarded.at_append {before after : List α} {a : α}
    (hrun : Guarded step guard s (before ++ a :: after)) :
    Guarded step guard s before ∧ guard (before.foldl step s) a := by
  induction before generalizing s with
  | nil => exact ⟨trivial, hrun.1⟩
  | cons b before ih =>
    obtain ⟨hbefore, hguard⟩ := ih hrun.2
    exact ⟨⟨hrun.1, hbefore⟩, hguard⟩

end Total

section Stopping

variable {α β σ ε : Type*} {body : α → σ → Except ε σ}

theorem ok_bind {τ : Type*} (s : σ) (f : σ → Except ε τ) : (Except.ok s).bind f = f s := rfl

/-- A computation that returns has returned a result of its first part. -/
theorem bind_eq_ok {τ : Type*} {r : Except ε σ} {f : σ → Except ε τ} {t : τ} :
    r.bind f = .ok t ↔ ∃ s, r = .ok s ∧ f s = .ok t := by
  cases r with
  | error e => exact ⟨nofun, nofun⟩
  | ok s => exact ⟨fun h => ⟨s, rfl, h⟩, fun ⟨_, hs, ht⟩ => Except.ok.inj hs ▸ ht⟩

theorem map_eq_ok {τ : Type*} {r : Except ε σ} {f : σ → τ} {t : τ} :
    r.map f = .ok t ↔ ∃ s, r = .ok s ∧ f s = t := by
  cases r with
  | error e => exact ⟨nofun, nofun⟩
  | ok s => exact ⟨fun h => ⟨s, rfl, Except.ok.inj h⟩, fun ⟨_, hs, ht⟩ => hs ▸ ht ▸ rfl⟩

/-- A loop over `as` whose body may stop it. -/
def forEach (body : α → σ → Except ε σ) : List α → σ → Except ε σ
  | [], s => .ok s
  | a :: as, s => (body a s).bind (forEach body as)

theorem forEach_append (as bs : List α) (s : σ) :
    forEach body (as ++ bs) s = (forEach body as s).bind (forEach body bs) := by
  induction as generalizing s with
  | nil => rfl
  | cons a as ih =>
    simp only [List.cons_append, forEach]
    cases body a s with
    | error e => rfl
    | ok s' => exact ih s'

theorem forEach_map (f : β → α) (bs : List β) (s : σ) :
    forEach body (bs.map f) s = forEach (fun b => body (f b)) bs s := by
  induction bs generalizing s with
  | nil => rfl
  | cons b bs ih =>
    rw [List.map_cons, forEach, forEach]
    congr 1
    funext s'
    exact ih s'

/-- The computation returns a result with `P`, or it stops, which only `stray` allows. -/
def Ends (stray : Prop) (P : σ → Prop) : Except ε σ → Prop
  | .ok s => P s
  | .error _ => stray

section Ends

variable {τ : Type*} {stray : Prop} {P : σ → Prop} {Q : τ → Prop} {r : Except ε σ}
  {f : σ → Except ε τ}

theorem Ends.of_ok {s : σ} (hr : r = .ok s) (hs : P s) : Ends stray P r := by
  rw [hr]
  exact hs

theorem Ends.of_error {e : ε} (hr : r = .error e) (hstray : stray) : Ends stray P r := by
  rw [hr]
  exact hstray

theorem Ends.ok_imp {s : σ} (hends : Ends stray P r) (hr : r = .ok s) : P s := by
  rw [hr] at hends
  exact hends

theorem Ends.exists_ok (hends : Ends stray P r) (hstray : ¬ stray) : ∃ s, r = .ok s ∧ P s := by
  cases r with
  | ok s => exact ⟨s, rfl, hends⟩
  | error e => exact absurd hends hstray

theorem Ends.imp {P' : σ → Prop} (hends : Ends stray P r) (himp : ∀ s, P s → P' s) :
    Ends stray P' r := by
  cases r with
  | ok s => exact himp s hends
  | error e => exact hends

theorem Ends.bind (hends : Ends stray P r) (hf : ∀ s, P s → Ends stray Q (f s)) :
    Ends stray Q (r.bind f) := by
  cases r with
  | ok s => exact hf s hends
  | error e => exact hends

/-- A loop whose body leads from `I as` to `I (as ++ [a])`. -/
theorem ends_forEach {I : List α → σ → Prop} (as : List α)
    (hbody : ∀ done, ∀ a ∈ as, ∀ s, I done s → Ends stray (I (done ++ [a])) (body a s))
    {done : List α} {s : σ} (hinit : I done s) :
    Ends stray (I (done ++ as)) (forEach body as s) := by
  induction as generalizing done s with
  | nil =>
    rw [List.append_nil]
    exact hinit
  | cons a as ih =>
    apply (hbody done a List.mem_cons_self s hinit).bind
    intro s' hs'
    -- the rounds done so far are now `done ++ [a]`
    have hrest := ih (fun done' b hb => hbody done' b (List.mem_cons_of_mem _ hb)) hs'
    rwa [List.append_assoc, List.singleton_append] at hrest

end Ends

/-- The computation returns a result with `P`, or it stops with an error in `E`. -/
def EndsIn (E : ε → Prop) (P : σ → Prop) : Except ε σ → Prop
  | .ok s => P s
  | .error e => E e

section EndsIn

variable {τ : Type*} {E : ε → Prop} {P : σ → Prop} {Q : τ → Prop} {r : Except ε σ}
  {f : σ → Except ε τ}

theorem EndsIn.of_ok {s : σ} (hr : r = .ok s) (hs : P s) : EndsIn E P r := by
  rw [hr]
  exact hs

theorem EndsIn.of_error {e : ε} (hr : r = .error e) (he : E e) : EndsIn E P r := by
  rw [hr]
  exact he

theorem EndsIn.ok_imp {s : σ} (hends : EndsIn E P r) (hr : r = .ok s) : P s := by
  rw [hr] at hends
  exact hends

theorem EndsIn.error_imp {e : ε} (hends : EndsIn E P r) (hr : r = .error e) : E e := by
  rw [hr] at hends
  exact hends

theorem EndsIn.bind (hends : EndsIn E P r) (hf : ∀ s, P s → EndsIn E Q (f s)) :
    EndsIn E Q (r.bind f) := by
  cases r with
  | ok s => exact hf s hends
  | error e => exact hends

theorem EndsIn.map {f : σ → τ} (hends : EndsIn E P r) (hf : ∀ s, P s → Q (f s)) :
    EndsIn E Q (r.map f) := by
  cases r with
  | ok s => exact hf s hends
  | error e => exact hends

theorem EndsIn.mono {E' : ε → Prop} {P' : σ → Prop} (hends : EndsIn E P r)
    (herror : ∀ e, E e → E' e) (himp : ∀ s, P s → P' s) : EndsIn E' P' r := by
  cases r with
  | ok s => exact himp s hends
  | error e => exact herror e hends

theorem EndsIn.imp {P' : σ → Prop} (hends : EndsIn E P r) (himp : ∀ s, P s → P' s) :
    EndsIn E P' r := by
  cases r with
  | ok s => exact himp s hends
  | error e => exact hends

/-- The result is also known to be one of the computation. -/
theorem EndsIn.imp_of_eq_ok {P' : σ → Prop} (hends : EndsIn E P r)
    (himp : ∀ s, r = .ok s → P s → P' s) : EndsIn E P' r := by
  cases r with
  | ok s => exact himp s rfl hends
  | error e => exact hends

theorem EndsIn.exists_ok (hends : EndsIn (fun _ => False) P r) : ∃ s, r = .ok s ∧ P s := by
  cases r with
  | ok s => exact ⟨s, rfl, hends⟩
  | error e => exact hends.elim

/-- A loop with an invariant about the rounds done. -/
theorem endsIn_forEach {I : List α → σ → Prop} (as : List α)
    (hbody : ∀ before a after, as = before ++ a :: after → ∀ s, I before s →
      EndsIn E (I (before ++ [a])) (body a s)) {s : σ} (hinit : I [] s) :
    EndsIn E (I as) (forEach body as s) := by
  have hrest : ∀ after before, as = before ++ after → ∀ s, I before s →
      EndsIn E (I as) (forEach body after s) := by
    intro after
    induction after with
    | nil =>
      intro before has s hs
      rw [List.append_nil] at has
      exact has ▸ hs
    | cons a after ih =>
      intro before has s hs
      apply (hbody before a after has s hs).bind
      intro s' hs'
      exact ih (before ++ [a]) (by rw [has, List.append_assoc, List.singleton_append]) s' hs'
  exact hrest as [] rfl s hinit

end EndsIn

/-- What every round that returns keeps holds at the end of a loop that returns. -/
theorem forEach_invariant {I : σ → Prop} (hbody : ∀ a s s', I s → body a s = .ok s' → I s')
    {as : List α} {s s' : σ} (hinit : I s) (hrun : forEach body as s = .ok s') : I s' := by
  induction as generalizing s with
  | nil =>
    cases hrun
    exact hinit
  | cons a as ih =>
    rw [forEach] at hrun
    cases hstep : body a s with
    | error e => rw [hstep] at hrun; cases hrun
    | ok s₁ =>
      rw [hstep] at hrun
      exact ih (hbody a s s₁ hinit hstep) hrun

/-- Every round that the loop comes to meets `guard` in the state it starts in. -/
def GuardedEach (body : α → σ → Except ε σ) (guard : σ → α → Prop) : σ → List α → Prop
  | _, [] => True
  | s, a :: as => guard s a ∧ ∀ s', body a s = .ok s' → GuardedEach body guard s' as

instance instDecidableGuardedEach {guard : σ → α → Prop} [∀ s a, Decidable (guard s a)] :
    ∀ s as, Decidable (GuardedEach body guard s as)
  | _, [] => inferInstanceAs (Decidable True)
  | s, a :: as =>
    match hbody : body a s with
    | .error e => decidable_of_iff (guard s a)
        ⟨fun h => ⟨h, fun s' hs' => by rw [hbody] at hs'; cases hs'⟩, And.left⟩
    | .ok s₁ =>
      have : Decidable (GuardedEach body guard s₁ as) := instDecidableGuardedEach s₁ as
      decidable_of_iff (guard s a ∧ GuardedEach body guard s₁ as)
        ⟨fun h => ⟨h.1, fun s' hs' => Except.ok.inj (hbody.symm.trans hs') ▸ h.2⟩,
          fun h => ⟨h.1, h.2 s₁ hbody⟩⟩

/-- What every guarded round that returns keeps holds at the end of a guarded loop that returns. -/
theorem GuardedEach.invariant {guard : σ → α → Prop} {I : σ → Prop}
    (hbody : ∀ a s s', I s → guard s a → body a s = .ok s' → I s') {as : List α} {s s' : σ}
    (hguarded : GuardedEach body guard s as) (hinit : I s) (hrun : forEach body as s = .ok s') :
    I s' := by
  induction as generalizing s with
  | nil =>
    cases hrun
    exact hinit
  | cons a as ih =>
    obtain ⟨s₁, hstep, hrest⟩ := bind_eq_ok.mp hrun
    exact ih (hguarded.2 s₁ hstep) (hbody a s s₁ hinit hguarded.1 hstep) hrest

/-- A loop does not return if one of its rounds never does while `I` holds. -/
theorem forEach_ne_ok {I : σ → Prop} (hbody : ∀ a s s', I s → body a s = .ok s' → I s')
    {a : α} {as : List α} (ha : a ∈ as) (hstop : ∀ s s', I s → body a s ≠ .ok s') {s : σ}
    (hinit : I s) (s' : σ) : forEach body as s ≠ .ok s' := by
  intro hrun
  obtain ⟨before, after, rfl⟩ := List.append_of_mem ha
  rw [forEach_append] at hrun
  cases hbefore : forEach body before s with
  | error e =>
    rw [hbefore] at hrun
    cases hrun
  | ok s₁ =>
    have hs₁ : I s₁ := forEach_invariant hbody hinit hbefore
    rw [hbefore, Except.bind, forEach] at hrun
    cases hround : body a s₁ with
    | error e =>
      rw [hround] at hrun
      cases hrun
    | ok s₂ => exact hstop s₁ s₂ hs₁ hround

/-- A body that always returns and keeps `I` makes a loop that does. -/
theorem forEach_total {I : σ → Prop} (hbody : ∀ a s, I s → ∃ s', body a s = .ok s' ∧ I s')
    (as : List α) {s : σ} (hinit : I s) : ∃ s', forEach body as s = .ok s' ∧ I s' := by
  induction as generalizing s with
  | nil => exact ⟨s, rfl, hinit⟩
  | cons a as ih =>
    obtain ⟨s₁, hok, hs₁⟩ := hbody a s hinit
    rw [forEach, hok]
    exact ih hs₁

end Stopping

section Progress

variable {σ α : Type*} {I : σ → Prop} {P : α → σ → Prop} {s : σ}

/-- What can be brought about for each element, and then stays when it is the turn of another, can
be brought about for all. -/
theorem exists_forall_mem (hinit : I s) (as : Finset α)
    (hturn : ∀ s, I s → ∀ a ∈ as,
      ∃ s', I s' ∧ P a s' ∧ ∀ b ∈ as, b ≠ a → P b s → P b s') :
    ∃ s', I s' ∧ ∀ a ∈ as, P a s' := by
  classical
  induction as using Finset.induction_on with
  | empty => exact ⟨s, hinit, fun a ha => absurd ha (Finset.notMem_empty a)⟩
  | insert a as _ ih =>
    have hbefore : ∀ s, I s → ∀ b ∈ as,
        ∃ s', I s' ∧ P b s' ∧ ∀ c ∈ as, c ≠ b → P c s → P c s' := by
      intro s hs b hb
      obtain ⟨s', hs', hdone, hstays⟩ := hturn s hs b (Finset.mem_insert_of_mem hb)
      exact ⟨s', hs', hdone, fun c hc => hstays c (Finset.mem_insert_of_mem hc)⟩
    obtain ⟨s₁, hs₁, hall⟩ := ih hbefore
    obtain ⟨s', hs', hdone, hstays⟩ := hturn s₁ hs₁ a (Finset.mem_insert_self a as)
    refine ⟨s', hs', fun b hb => ?_⟩
    by_cases hba : b = a
    · subst hba
      exact hdone
    · exact hstays b hb hba (hall b (Finset.mem_of_mem_insert_of_ne hb hba))

end Progress

end CS.Run
