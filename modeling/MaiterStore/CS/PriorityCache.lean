/-
# Caches that keep the highest priorities

A cache holds a bounded number of keys with a priority each. A request for a key that is
held replaces its priority. A key that is not held is taken in while there is room; in a
full cache it replaces an entry of minimal priority if its own priority exceeds that one,
and is rejected otherwise.

If priorities are compared after one of them is raised by a monotone function, and the
priorities requested for a key never decrease, then no key left outside was last requested
with more than the raised minimum of the cache: the minimum of a full cache never falls.
-/

import Mathlib.Order.Monotone.Basic
import MaiterStore.CS.FiniteMap

namespace CS.PriorityCache

open CS.FiniteMap

variable {K P : Type*} [DecidableEq K]

/-- The keys held, with their priorities. -/
abbrev Held (K P : Type*) := Finmap fun _ : K => P

variable [LinearOrder P]

/-- An entry of minimal priority. -/
structure IsMin (held : Held K P) (j : K) (q : P) : Prop where
  lookup_eq : held.lookup j = some q
  le : ∀ i r, held.lookup i = some r → q ≤ r

theorem IsMin.mem {held : Held K P} {j : K} {q : P} (h : IsMin held j q) : j ∈ held :=
  Finmap.mem_iff.mpr ⟨q, h.lookup_eq⟩

/-- What a request for `k` with priority `p` can do to the cache. -/
inductive Step (capacity : ℕ) (exceeds : P → P → Prop) (held : Held K P) (k : K) (p : P) :
    Held K P → Prop
  | hit (hk : k ∈ held) : Step capacity exceeds held k p (held.insert k p)
  | add (hk : k ∉ held) (hroom : held.keys.card < capacity) :
      Step capacity exceeds held k p (held.insert k p)
  | reject {j : K} {q : P} (hk : k ∉ held) (hfull : capacity ≤ held.keys.card)
      (hmin : IsMin held j q) (hlow : ¬ exceeds q p) : Step capacity exceeds held k p held
  | evict {j : K} {q : P} (hk : k ∉ held) (hfull : capacity ≤ held.keys.card)
      (hmin : IsMin held j q) (hhigh : exceeds q p) :
      Step capacity exceeds held k p ((held.erase j).insert k p)

variable {capacity : ℕ} {exceeds : P → P → Prop} {held held' : Held K P} {k : K} {p : P}

omit [LinearOrder P] in
/-- An eviction keeps the number of keys. -/
theorem card_evict {j : K} (hk : k ∉ held) (hj : j ∈ held) :
    ((held.erase j).insert k p).keys.card = held.keys.card := by
  rw [card_keys_insert_of_notMem (notMem_erase_of_notMem hk), card_keys_erase_add_one hj]

/-- The cache never holds more than its capacity. -/
theorem Step.card_le (hstep : Step capacity exceeds held k p held')
    (hle : held.keys.card ≤ capacity) : held'.keys.card ≤ capacity := by
  cases hstep with
  | hit hk => rwa [card_keys_insert_of_mem hk]
  | add hk hroom =>
    rw [card_keys_insert_of_notMem hk]
    exact hroom
  | reject => exact hle
  | evict hk hfull hmin hhigh => rwa [card_evict hk hmin.mem]

/-! ## The bound on what is left outside -/

/-- The priorities held are the last ones requested, and a key that was requested and is
not held was last requested with at most the raised priority of any key in the cache,
which is full. -/
structure Bounded (capacity : ℕ) (raise : P → P) (last : K → Option P) (held : Held K P) :
    Prop where
  card_le : held.keys.card ≤ capacity
  last_eq : ∀ k p, held.lookup k = some p → last k = some p
  full : ∀ k p, last k = some p → k ∉ held → held.keys.card = capacity
  le_raise : ∀ k p, last k = some p → k ∉ held → ∀ j q, held.lookup j = some q → p ≤ raise q

variable {raise : P → P} {last : K → Option P}

theorem bounded_empty (capacity : ℕ) (raise : P → P) :
    Bounded capacity raise (fun _ : K => none) (∅ : Held K P) where
  card_le := by simp
  last_eq k p h := by simp at h
  full k p h := by simp at h
  le_raise k p h := by simp at h

omit [LinearOrder P] in
theorem last_update_insert (hlast : ∀ k p, held.lookup k = some p → last k = some p) (k : K)
    (p : P) : ∀ j q, (held.insert k p).lookup j = some q →
      Function.update last k (some p) j = some q := by
  intro j q hj
  rcases lookup_insert_eq_some_iff.mp hj with ⟨rfl, rfl⟩ | ⟨hne, hold⟩
  · exact Function.update_self ..
  · rw [Function.update_of_ne hne]
    exact hlast j q hold

theorem Bounded.hit (hb : Bounded capacity raise last held) (hmono : Monotone raise)
    (hk : k ∈ held) (hgrow : ∀ p₀, last k = some p₀ → p₀ ≤ p) :
    Bounded capacity raise (Function.update last k (some p)) (held.insert k p) where
  card_le := (card_keys_insert_of_mem hk).trans_le hb.card_le
  last_eq := last_update_insert hb.last_eq k p
  full i r hi hout := by
    obtain ⟨hne, hout⟩ := not_or.mp (mt Finmap.mem_insert.mpr hout)
    rw [Function.update_of_ne hne] at hi
    rw [card_keys_insert_of_mem hk]
    exact hb.full i r hi hout
  le_raise i r hi hout j q hj := by
    obtain ⟨hne, hout'⟩ := not_or.mp (mt Finmap.mem_insert.mpr hout)
    rw [Function.update_of_ne hne] at hi
    rcases lookup_insert_eq_some_iff.mp hj with ⟨rfl, rfl⟩ | ⟨-, hold⟩
    -- the entry of `k` has grown, so it still bounds what is outside
    · obtain ⟨p₀, hp₀⟩ := Finmap.mem_iff.mp hk
      exact (hb.le_raise i r hi hout' _ _ hp₀).trans (hmono (hgrow p₀ (hb.last_eq _ _ hp₀)))
    · exact hb.le_raise i r hi hout' j q hold

theorem Bounded.add (hb : Bounded capacity raise last held) (hk : k ∉ held)
    (hroom : held.keys.card < capacity) :
    Bounded capacity raise (Function.update last k (some p)) (held.insert k p) := by
  -- as long as there is room, every key that was requested is held
  have hall : ∀ i r, Function.update last k (some p) i = some r → i ∈ held.insert k p := by
    intro i r hi
    by_contra hout
    obtain ⟨hne, hout⟩ := not_or.mp (mt Finmap.mem_insert.mpr hout)
    rw [Function.update_of_ne hne] at hi
    exact hroom.ne (hb.full i r hi hout)
  exact ⟨(card_keys_insert_of_notMem hk).trans_le hroom, last_update_insert hb.last_eq k p,
    fun i r hi hout => absurd (hall i r hi) hout, fun i r hi hout => absurd (hall i r hi) hout⟩

theorem Bounded.reject (hb : Bounded capacity raise last held) (hmono : Monotone raise) {j : K}
    {q : P} (hk : k ∉ held) (hfull : capacity ≤ held.keys.card) (hmin : IsMin held j q)
    (hlow : ¬ raise q < p) : Bounded capacity raise (Function.update last k (some p)) held where
  card_le := hb.card_le
  last_eq i r hi := by
    have hne : i ≠ k := by
      rintro rfl
      exact hk (Finmap.mem_iff.mpr ⟨r, hi⟩)
    rw [Function.update_of_ne hne]
    exact hb.last_eq i r hi
  full _ _ _ _ := le_antisymm hb.card_le hfull
  le_raise i r hi hout j' q' hj' := by
    by_cases hne : i = k
    · subst hne
      rw [Function.update_self, Option.some_inj] at hi
      rw [← hi]
      exact (not_lt.mp hlow).trans (hmono (hmin.le j' q' hj'))
    · rw [Function.update_of_ne hne] at hi
      exact hb.le_raise i r hi hout j' q' hj'

theorem Bounded.evict (hb : Bounded capacity raise last held) (hle : ∀ q, q ≤ raise q) {j : K}
    {q : P} (hk : k ∉ held) (hfull : capacity ≤ held.keys.card) (hmin : IsMin held j q)
    (hhigh : raise q < p) :
    Bounded capacity raise (Function.update last k (some p)) ((held.erase j).insert k p) where
  card_le := (card_evict hk hmin.mem).trans_le hb.card_le
  last_eq := by
    refine last_update_insert (fun i r hi => ?_) k p
    exact hb.last_eq i r (lookup_erase_eq_some_iff.mp hi).2
  full _ _ _ _ := (card_evict hk hmin.mem).trans (le_antisymm hb.card_le hfull)
  le_raise i r hi hout i' q' hi' := by
    obtain ⟨hne, hout⟩ := not_or.mp (mt Finmap.mem_insert.mpr hout)
    rw [Function.update_of_ne hne] at hi
    -- the key outside is the one just evicted, or was outside before
    have hbound : r ≤ raise q ∧ ∀ i' q', held.lookup i' = some q' → r ≤ raise q' := by
      by_cases hij : i = j
      · subst hij
        have hr : r = q := Option.some_inj.mp (hi.symm.trans (hb.last_eq _ _ hmin.lookup_eq))
        rw [hr]
        exact ⟨hle q, fun i' q' h => (hmin.le i' q' h).trans (hle q')⟩
      · have hout' : i ∉ held := fun hmem => hout (Finmap.mem_erase.mpr ⟨hij, hmem⟩)
        exact ⟨hb.le_raise i r hi hout' j q hmin.lookup_eq, hb.le_raise i r hi hout'⟩
    rcases lookup_insert_eq_some_iff.mp hi' with ⟨-, rfl⟩ | ⟨-, hold⟩
    · exact hbound.1.trans (hhigh.le.trans (hle _))
    · exact hbound.2 i' q' (lookup_erase_eq_some_iff.mp hold).2

/-- A request keeps the bound, if its priority is no less than the last one of its key. -/
theorem Step.bounded (hstep : Step capacity (fun q p => raise q < p) held k p held')
    (hmono : Monotone raise) (hle : ∀ q, q ≤ raise q) (hb : Bounded capacity raise last held)
    (hgrow : ∀ p₀, last k = some p₀ → p₀ ≤ p) :
    Bounded capacity raise (Function.update last k (some p)) held' := by
  cases hstep with
  | hit hk => exact hb.hit hmono hk hgrow
  | add hk hroom => exact hb.add hk hroom
  | reject hk hfull hmin hlow => exact hb.reject hmono hk hfull hmin hlow
  | evict hk hfull hmin hhigh => exact hb.evict hle hk hfull hmin hhigh

end CS.PriorityCache
