/-
# Strings

What the store uses of the string functions of Boost: `trim_right`, and `lexical_cast`
for decimal numerals of type `long`. A string is a list of characters.
-/

import Mathlib.Data.List.DropRight
import Mathlib.Data.List.Forall2
import Mathlib.Algebra.Group.Int.Defs
import Mathlib.Data.Int.Notation

namespace MaiterStore

/-- A string. -/
abbrev Text := List Char

/-- `is_space()` in the classic locale. -/
def isSpace (c : Char) : Bool := c = ' ' || ('\t' ≤ c && c ≤ '\r')

/-- `trim_right(s)`. -/
def trimRight (s : Text) : Text := s.rdropWhile isSpace

theorem trimRight_isPrefix (s : Text) : trimRight s <+: s := List.rdropWhile_prefix _ _

theorem trimRight_append {s t : Text} (ht : trimRight t ≠ []) :
    trimRight (s ++ t) = s ++ trimRight t := by
  have hrev : (t.reverse.dropWhile isSpace).isEmpty = false := by
    rw [trimRight, List.rdropWhile, Ne, List.reverse_eq_nil_iff] at ht
    simpa using ht
  rw [trimRight, trimRight, List.rdropWhile, List.rdropWhile, List.reverse_append,
    List.dropWhile_append, hrev]
  simp

theorem isSpace_of_isDigit {c : Char} (hc : c.isDigit = true) : isSpace c = false := by
  have hlower : 48 ≤ c.toNat := by
    simp only [Char.isDigit, Bool.and_eq_true, decide_eq_true_iff] at hc
    exact hc.1
  have hcr : ¬ c ≤ '\r' := by
    intro hle
    have : c.toNat ≤ 13 := hle
    omega
  have hblank : c ≠ ' ' := by
    rintro rfl
    exact absurd hc (by decide)
  simp [isSpace, hcr, hblank]

/-! ## Parts between separators -/

theorem takeWhile_ne_eq_self {c : Char} {s : Text} (h : c ∉ s) : s.takeWhile (· ≠ c) = s := by
  rw [List.takeWhile_eq_self_iff]
  intro x hx
  rw [decide_eq_true_eq]
  rintro rfl
  exact h hx

theorem takeWhile_ne_append {c : Char} {s : Text} (h : c ∉ s) (t : Text) :
    (s ++ c :: t).takeWhile (· ≠ c) = s := by
  rw [List.takeWhile_append_of_pos (List.takeWhile_eq_self_iff.mp (takeWhile_ne_eq_self h))]
  simp

/-- Joined parts with one more separator are the parts with a separator after each of them. -/
theorem intercalate_append_singleton {c : Char} {parts : List Text} (hne : parts ≠ []) :
    [c].intercalate parts ++ [c] = parts.flatMap fun s => s ++ [c] := by
  induction parts with
  | nil => exact absurd rfl hne
  | cons s parts ih =>
    cases parts with
    | nil => simp
    | cons s' parts =>
      rw [List.intercalate_cons_cons, List.flatMap_cons, ← ih (List.cons_ne_nil _ _)]
      simp only [List.append_assoc]

/-- Parts with a separator after each of them are split into the parts, and nothing at the end. -/
theorem splitOn_terminated {c : Char} {parts : List Text} (hparts : ∀ s ∈ parts, c ∉ s) :
    (parts.flatMap fun s => s ++ [c]).splitOn c = parts ++ [[]] := by
  induction parts with
  | nil => rfl
  | cons s parts ih =>
    obtain ⟨hs, hrest⟩ := List.forall_mem_cons.mp hparts
    rw [List.flatMap_cons, List.append_assoc, List.singleton_append,
      List.splitOn_append_cons_self_of_not_mem hs, ih hrest]
    rfl

/-! ## Numerals -/

/-- The number that decimal digits stand for. -/
def decimal (digits : Text) : ℕ := digits.foldl (fun n c => 10 * n + (c.toNat - '0'.toNat)) 0

/-- One or more decimal digits. -/
def IsDigits (s : Text) : Prop := s ≠ [] ∧ ∀ c ∈ s, c.isDigit

instance (s : Text) : Decidable (IsDigits s) := inferInstanceAs (Decidable (_ ∧ _))

/-- A value of type `long`. -/
def IsLong (v : ℤ) : Prop := -2 ^ 63 ≤ v ∧ v < 2 ^ 63

instance (v : ℤ) : Decidable (IsLong v) := inferInstanceAs (Decidable (_ ∧ _))

/-- The text is a numeral for `v`, a value of type `long`. -/
inductive IsNumeral : Text → ℤ → Prop
  | unsigned {digits : Text} : IsDigits digits → IsLong (decimal digits) →
      IsNumeral digits (decimal digits)
  | plus {digits : Text} : IsDigits digits → IsLong (decimal digits) →
      IsNumeral ('+' :: digits) (decimal digits)
  | minus {digits : Text} : IsDigits digits → IsLong (-decimal digits) →
      IsNumeral ('-' :: digits) (-decimal digits)

/-- The value `v` of `digits`, if it is a `long`. -/
def longOf (digits : Text) (v : ℤ) : Option ℤ :=
  if IsDigits digits ∧ IsLong v then some v else none

/-- `lexical_cast<long>(s)`, where `none` is `bad_lexical_cast`. -/
def lexicalCast : Text → Option ℤ
  | '-' :: digits => longOf digits (-decimal digits)
  | '+' :: digits => longOf digits (decimal digits)
  | digits => longOf digits (decimal digits)

theorem longOf_eq_some_iff {digits : Text} {v u : ℤ} :
    longOf digits v = some u ↔ IsDigits digits ∧ IsLong v ∧ v = u := by
  rw [longOf]
  split_ifs with h
  · simp [h.1, h.2]
  · constructor
    · nofun
    · exact fun h' => absurd ⟨h'.1, h'.2.1⟩ h

theorem isDigits_singleton {c : Char} (hc : c.isDigit = true) : IsDigits [c] := by
  refine ⟨List.cons_ne_nil _ _, fun x hx => ?_⟩
  rw [List.mem_singleton.mp hx]
  exact hc

theorem IsDigits.head_ne {c : Char} {digits : Text} (h : IsDigits (c :: digits))
    {x : Char} (hx : x.isDigit = false) : c ≠ x := by
  rintro rfl
  have hc := h.2 c List.mem_cons_self
  rw [hx] at hc
  exact Bool.false_ne_true hc

theorem lexicalCast_of_isDigits {digits : Text} (h : IsDigits digits) :
    lexicalCast digits = longOf digits (decimal digits) := by
  unfold lexicalCast
  split
  · exact absurd rfl (h.head_ne (x := '-') (by decide))
  · exact absurd rfl (h.head_ne (x := '+') (by decide))
  · rfl

/-- `lexical_cast` accepts the numerals. -/
theorem lexicalCast_eq_some_iff {s : Text} {v : ℤ} : lexicalCast s = some v ↔ IsNumeral s v := by
  constructor
  · intro h
    unfold lexicalCast at h
    split at h
    all_goals
      obtain ⟨hdigits, hlong, rfl⟩ := longOf_eq_some_iff.mp h
    · exact .minus hdigits hlong
    · exact .plus hdigits hlong
    · exact .unsigned hdigits hlong
  · intro h
    cases h with
    | unsigned hdigits hlong =>
      rw [lexicalCast_of_isDigits hdigits]
      exact longOf_eq_some_iff.mpr ⟨hdigits, hlong, rfl⟩
    | plus hdigits hlong => exact longOf_eq_some_iff.mpr ⟨hdigits, hlong, rfl⟩
    | minus hdigits hlong => exact longOf_eq_some_iff.mpr ⟨hdigits, hlong, rfl⟩

theorem IsDigits.not_mem {digits : Text} (h : IsDigits digits) {c : Char}
    (hc : c.isDigit = false) : c ∉ digits := by
  intro hmem
  have hdigit := h.2 c hmem
  rw [hc] at hdigit
  exact Bool.false_ne_true hdigit

/-- A numeral has digits and signs only. -/
theorem IsNumeral.not_mem {s : Text} {v : ℤ} (h : IsNumeral s v) {c : Char}
    (hdigit : c.isDigit = false) (hplus : c ≠ '+') (hminus : c ≠ '-') : c ∉ s := by
  cases h with
  | unsigned hd _ => exact hd.not_mem hdigit
  | plus hd _ => exact List.not_mem_cons_of_ne_of_not_mem hplus (hd.not_mem hdigit)
  | minus hd _ => exact List.not_mem_cons_of_ne_of_not_mem hminus (hd.not_mem hdigit)

/-- A numeral ends with a digit and has no spaces. -/
theorem IsNumeral.chars {s : Text} {v : ℤ} (h : IsNumeral s v) :
    ' ' ∉ s ∧ ∃ c, s.getLast? = some c ∧ c.isDigit := by
  refine ⟨h.not_mem (by decide) (by decide) (by decide), ?_⟩
  have hdigits : ∀ digits : Text, IsDigits digits →
      ∃ c, digits.getLast? = some c ∧ c.isDigit := by
    intro digits hd
    exact ⟨digits.getLast hd.1, List.getLast?_eq_some_getLast hd.1, hd.2 _ (List.getLast_mem hd.1)⟩
  cases h with
  | unsigned hd _ => exact hdigits _ hd
  | plus hd _ | minus hd _ =>
    obtain ⟨c, hlast, hc⟩ := hdigits _ hd
    refine ⟨c, ?_, hc⟩
    rw [List.getLast?_cons, hlast]
    rfl

/-- A list of words is accepted if all of them are numerals. -/
theorem mapM_lexicalCast_eq_some_iff {tokens : List Text} {row : List ℤ} :
    tokens.mapM lexicalCast = some row ↔ List.Forall₂ IsNumeral tokens row := by
  induction tokens generalizing row with
  | nil =>
    rw [List.forall₂_nil_left_iff, List.mapM_nil]
    exact Option.some_inj.trans eq_comm
  | cons token tokens ih =>
    rw [List.mapM_cons, List.forall₂_cons_left_iff]
    simp only [Option.bind_eq_bind, Option.bind_eq_some_iff, lexicalCast_eq_some_iff, ih,
      Option.pure_def, Option.some.injEq]
    constructor
    · rintro ⟨v, hv, rest, hrest, rfl⟩
      exact ⟨v, rest, hv, hrest, rfl⟩
    · rintro ⟨v, rest, hv, hrest, rfl⟩
      exact ⟨v, hv, rest, hrest, rfl⟩

end MaiterStore
