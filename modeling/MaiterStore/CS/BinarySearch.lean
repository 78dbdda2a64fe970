/-
# Binary search

The position after the elements of a sorted list that are at most a given one, by halving the
part of the list in which it can be, and what is before and after that position.
-/

import Mathlib.Order.Basic
import Mathlib.Algebra.Order.Group.Nat
import Mathlib.Data.List.Basic

namespace CS.BinarySearch

variable {α : Type*} [LinearOrder α] {l pre post : List α} {key : α} {p q : ℕ}

/-- The loop over the `len` elements from `first` on, for some rounds. -/
def upperBoundLoop (l : List α) (key : α) : ℕ → ℕ → ℕ → ℕ
  | 0, first, _ => first
  | rounds + 1, first, len =>
    if 0 < len then
      let half := len / 2
      if l[first + half]?.any (key < ·) then upperBoundLoop l key rounds first half
      else upperBoundLoop l key rounds (first + half + 1) (len - half - 1)
    else first

/-- The position of the first element above `key`. -/
def upperBound (l : List α) (key : α) : ℕ := upperBoundLoop l key l.length 0 l.length

/-- The elements before `p` are at most `key`, and those from `p` on are above it. -/
structure IsUpperBound (l : List α) (key : α) (p : ℕ) : Prop where
  le_length : p ≤ l.length
  before : ∀ x ∈ l.take p, x ≤ key
  after : ∀ x ∈ l.drop p, key < x

theorem isUpperBound_append (hpre : ∀ x ∈ pre, x ≤ key) (hpost : ∀ x ∈ post, key < x) :
    IsUpperBound (pre ++ post) key pre.length where
  le_length := by
    rw [List.length_append]
    exact Nat.le_add_right _ _
  before := by
    rw [List.take_left]
    exact hpre
  after := by
    rw [List.drop_left]
    exact hpost

theorem IsUpperBound.le (hp : IsUpperBound l key p) (hq : IsUpperBound l key q) : p ≤ q := by
  by_contra hlt
  have hq' : q < l.length := (not_le.mp hlt).trans_le hp.le_length
  have hmem : l[q] ∈ l.take p := List.mem_take_iff_getElem.mpr ⟨q, by omega, rfl⟩
  have hmem' : l[q] ∈ l.drop q := by
    rw [List.drop_eq_getElem_cons hq']
    exact List.mem_cons_self
  exact absurd (hp.before _ hmem) (hq.after _ hmem').not_ge

theorem IsUpperBound.unique (hp : IsUpperBound l key p) (hq : IsUpperBound l key q) : p = q :=
  (hp.le hq).antisymm (hq.le hp)

section Sorted

variable (hsorted : l.Pairwise (· ≤ ·))

include hsorted

theorem le_of_mem_take_drop {m : ℕ} {x y : α} (hx : x ∈ l.take m) (hy : y ∈ l.drop m) : x ≤ y := by
  rw [← List.take_append_drop m l] at hsorted
  exact (List.pairwise_append.mp hsorted).2.2 x hx y hy

/-- The loop keeps that the position is in the part that is left. -/
theorem upperBoundLoop_spec {rounds first len : ℕ} (hrounds : len ≤ rounds)
    (hlen : first + len ≤ l.length) (hbefore : ∀ x ∈ l.take first, x ≤ key)
    (hafter : ∀ x ∈ l.drop (first + len), key < x) :
    IsUpperBound l key (upperBoundLoop l key rounds first len) := by
  induction rounds generalizing first len with
  | zero =>
    obtain rfl : len = 0 := Nat.le_zero.mp hrounds
    exact ⟨hlen, hbefore, hafter⟩
  | succ rounds ih =>
    rw [upperBoundLoop]
    by_cases hpos : 0 < len
    · have hmid : first + len / 2 < l.length := by omega
      have htake := List.take_succ_eq_append_getElem hmid
      have hdrop := List.drop_eq_getElem_cons hmid
      rw [if_pos hpos]
      simp only [List.getElem?_eq_getElem hmid, Option.any_some, decide_eq_true_eq]
      by_cases hkey : key < l[first + len / 2]
      · -- the middle element and all after it are above the key
        rw [if_pos hkey]
        refine ih (by omega) (by omega) hbefore fun x hx => ?_
        rw [hdrop] at hx
        rcases List.mem_cons.mp hx with rfl | hx
        · exact hkey
        · refine hkey.trans_le (le_of_mem_take_drop hsorted ?_ hx)
          rw [htake]
          exact List.mem_append_right _ List.mem_cons_self
      · -- the middle element and all before it are at most the key
        rw [if_neg hkey]
        refine ih (by omega) (by omega) (fun x hx => ?_) fun x hx => hafter x ?_
        · rw [htake] at hx
          rcases List.mem_append.mp hx with hx | hx
          · refine (le_of_mem_take_drop hsorted hx ?_).trans (not_lt.mp hkey)
            rw [hdrop]
            exact List.mem_cons_self
          · rw [List.mem_singleton.mp hx]
            exact not_lt.mp hkey
        · have hend : first + len / 2 + 1 + (len - len / 2 - 1) = first + len := by omega
          rwa [hend] at hx
    -- nothing is left between the two parts
    · obtain rfl : len = 0 := Nat.eq_zero_of_not_pos hpos
      rw [if_neg hpos]
      exact ⟨hlen, hbefore, hafter⟩

/-- **Binary search** finds the position in a sorted list. -/
theorem upperBound_spec (key : α) : IsUpperBound l key (upperBound l key) := by
  refine upperBoundLoop_spec hsorted le_rfl (by omega) ?_ ?_
  · rw [List.take_zero]
    exact fun x hx => absurd hx List.not_mem_nil
  · rw [Nat.zero_add, List.drop_length]
    exact fun x hx => absurd hx List.not_mem_nil

end Sorted

end CS.BinarySearch
