/-
# Finite maps

What insertion and removal do to the keys and the entries of a finite map.
-/

import Mathlib.Data.Finmap

namespace CS.FiniteMap

variable {K A : Type*} [DecidableEq K] {m : Finmap fun _ : K => A} {j k : K} {a b : A}

theorem keys_insert (m : Finmap fun _ : K => A) (k : K) (a : A) :
    (m.insert k a).keys = insert k m.keys := by
  ext j
  simp [Finmap.mem_keys]

/-- Inserting a fresh key adds one key to a finite map. -/
theorem card_keys_insert_of_notMem (hk : k ∉ m) :
    (m.insert k a).keys.card = m.keys.card + 1 := by
  rw [keys_insert, Finset.card_insert_of_notMem (by rwa [Finmap.mem_keys])]

theorem card_keys_insert_of_mem (hk : k ∈ m) : (m.insert k a).keys.card = m.keys.card := by
  rw [keys_insert, Finset.insert_eq_of_mem (by rwa [Finmap.mem_keys])]

theorem card_keys_insert_le : (m.insert k a).keys.card ≤ m.keys.card + 1 := by
  by_cases hk : k ∈ m
  · rw [card_keys_insert_of_mem hk]
    exact Nat.le_succ _
  · rw [card_keys_insert_of_notMem hk]

theorem card_keys_erase_add_one (hk : k ∈ m) : (m.erase k).keys.card + 1 = m.keys.card := by
  have hkeys : (m.erase k).keys = m.keys.erase k := by
    ext j
    rw [Finmap.mem_keys, Finmap.mem_erase, Finset.mem_erase, Finmap.mem_keys]
  rw [hkeys, Finset.card_erase_add_one (by rwa [Finmap.mem_keys])]

theorem notMem_erase_of_notMem (hk : k ∉ m) : k ∉ m.erase j :=
  fun hmem => hk (Finmap.mem_erase.mp hmem).2

theorem lookup_insert_eq_some_iff :
    (m.insert k a).lookup j = some b ↔ j = k ∧ b = a ∨ j ≠ k ∧ m.lookup j = some b := by
  by_cases hj : j = k
  · subst hj
    simp [eq_comm]
  · simp [Finmap.lookup_insert_of_ne _ hj, hj]

theorem lookup_erase_eq_some_iff :
    (m.erase k).lookup j = some b ↔ j ≠ k ∧ m.lookup j = some b := by
  by_cases hj : j = k
  · subst hj
    simp
  · simp [Finmap.lookup_erase_ne hj, hj]

theorem insert_erase_self (m : Finmap fun _ : K => A) (k : K) (a : A) :
    (m.erase k).insert k a = m.insert k a := by
  refine Finmap.ext_lookup fun j => ?_
  by_cases hj : j = k
  · rw [hj, Finmap.lookup_insert, Finmap.lookup_insert]
  · rw [Finmap.lookup_insert_of_ne _ hj, Finmap.lookup_insert_of_ne _ hj, Finmap.lookup_erase_ne hj]

end CS.FiniteMap
