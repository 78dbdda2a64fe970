/-
# Which checkpoint is restored

`Master::start_checkpoint` makes the directory of an epoch with the format `epoch_%05d`,
and `finish_checkpoint` leaves the file `checkpoint.finished` in it. `Master::restore`
(`master/master.cc`) takes the last of the matching files in the order of `glob`, scans the
epoch out of its name with the same format, and broadcasts it.

Printing pads to five digits and scanning reads at most five. Up to epoch `99999` both agree
and the last name is that of the newest epoch. From `100000` on the names are longer, so that
they come before others, and the scan stops short.
-/

import MaiterStore.CS.FixedWidth
import MaiterStore.Store.Text
import Mathlib.Data.List.Pairwise
import Mathlib.Data.List.Sort

namespace MaiterStore

open CS.FixedWidth

/-! ## The standard library -/

/-- `%05d` of `printf`, for a number that is not negative. -/
def printEpoch (n : ℕ) : Text := List.leftpad 5 '0' (Nat.toDigits 10 n)

/-- The part of a `scanf` format without conversions: what is left of the input, or `none`
if it does not match. A space in the format matches any number of spaces. -/
def scanLiteral : Text → Text → Option Text
  | [], input => some input
  | c :: format, input =>
    if isSpace c then scanLiteral format (input.dropWhile isSpace)
    else
      match input with
      | [] => none
      | x :: rest => if x = c then scanLiteral format rest else none

/-- The digits that a `%d` of the given width reads. -/
def scanDigits (width : ℕ) (input : Text) : Text := (input.take width).takeWhile Char.isDigit

/-- The value of the digits, if there are any. -/
def numberOf (digits : Text) (value : ℕ → ℤ) : Option ℤ :=
  if digits = [] then none else some (value (decimal digits))

/-- `%<width>d` of `scanf`: leading spaces are skipped, and a sign counts to the width. -/
def scanNumber (width : ℕ) (input : Text) : Option ℤ :=
  match input.dropWhile isSpace with
  | '-' :: rest => numberOf (scanDigits (width - 1) rest) fun n => -n
  | '+' :: rest => numberOf (scanDigits (width - 1) rest) fun n => n
  | rest => numberOf (scanDigits width rest) fun n => n

/-! ## The master -/

/-- A value of the flag `checkpoint_read_dir`. It becomes part of the format of `sscanf`,
so it has no conversions in it. -/
structure CheckpointDir where
  path : Text
  noConversion : '%' ∉ path

namespace Master

/-- The file that `finish_checkpoint` writes for an epoch. -/
def finishedFile (dir : CheckpointDir) (epoch : ℕ) : Text :=
  dir.path ++ "/epoch_".toList ++ printEpoch epoch ++ "/checkpoint.finished".toList

/-- `File::MatchingFilenames(checkpoint_read_dir + "/*/checkpoint.finished")`, with the
finished epochs given in any order. -/
def matchingFilenames (dir : CheckpointDir) (epochs : List ℕ) : List Text :=
  (epochs.map (finishedFile dir)).insertionSort (· ≤ ·)

/-- `sscanf(fname, (checkpoint_read_dir + "/epoch_%05d/checkpoint.finished").c_str(), &epoch)`.
The epoch is assigned, and `1` returned, also if the text after it does not match. -/
def scanEpoch (dir : CheckpointDir) (fname : Text) : Option ℤ :=
  (scanLiteral (dir.path ++ "/epoch_".toList) fname).bind (scanNumber 5)

/-- What comes of a restore. -/
inductive Restored
  /-- There is no finished checkpoint. -/
  | nothing
  /-- `CHECK_EQ(sscanf(...), 1) << "Unexpected filename: " << fname` -/
  | unexpected (fname : Text)
  /-- `StartRestore` goes to all workers. -/
  | startRestore (epoch : ℤ)
  deriving DecidableEq

/-- `restore()`, as far as the epoch is concerned. -/
def restore (dir : CheckpointDir) (epochs : List ℕ) : Restored :=
  match (matchingFilenames dir epochs).getLast? with
  | none => .nothing
  | some fname =>
    match scanEpoch dir fname with
    | none => .unexpected fname
    | some epoch => .startRestore epoch

/-! ## Scanning -/

/-- Spaces at the start of the input make no difference to a format that has them, or that
has none to match. -/
theorem scanLiteral_dropWhile (literal : Text) {c : Char} (hc : isSpace c = false) (input : Text) :
    scanLiteral (literal ++ [c]) ((literal ++ c :: input).dropWhile isSpace) =
      scanLiteral (literal ++ [c]) (literal ++ c :: input) := by
  cases literal with
  | nil =>
    have hdrop : (c :: input).dropWhile isSpace = c :: input :=
      List.dropWhile_cons_of_neg (by simp [hc])
    rw [List.nil_append, List.nil_append, hdrop]
  | cons x literal =>
    cases hx : isSpace x with
    | true => simp only [List.cons_append, scanLiteral, hx, if_true, List.dropWhile_idempotent]
    | false => rw [List.cons_append, List.cons_append, List.dropWhile_cons_of_neg (by simp [hx])]

/-- A literal that does not end with a space matches a text that starts with it. -/
theorem scanLiteral_append (literal : Text) {c : Char} (hc : isSpace c = false) (input : Text) :
    scanLiteral (literal ++ [c]) (literal ++ c :: input) = some input := by
  induction literal with
  | nil => simp [scanLiteral, hc]
  | cons x literal ih =>
    cases hx : isSpace x with
    | true =>
      rw [List.cons_append, List.cons_append, scanLiteral, if_pos hx,
        List.dropWhile_cons_of_pos hx, scanLiteral_dropWhile literal hc, ih]
    | false =>
      rw [List.cons_append, List.cons_append, scanLiteral, if_neg (by simp [hx])]
      simp only [if_true, ih]

theorem scanEpoch_finishedFile (dir : CheckpointDir) (epoch : ℕ) :
    scanEpoch dir (finishedFile dir epoch) =
      scanNumber 5 (printEpoch epoch ++ "/checkpoint.finished".toList) := by
  have hlit : dir.path ++ "/epoch_".toList = dir.path ++ "/epoch".toList ++ ['_'] := by
    rw [List.append_assoc]
    rfl
  have hfile : finishedFile dir epoch = dir.path ++ "/epoch".toList ++
      '_' :: (printEpoch epoch ++ "/checkpoint.finished".toList) := by
    rw [finishedFile, hlit]
    simp only [List.append_assoc, List.cons_append, List.nil_append]
  rw [scanEpoch, hlit, hfile, scanLiteral_append _ (by decide)]
  rfl

theorem decimal_lt (digits : Text) (hdigits : ∀ c ∈ digits, c.isDigit = true) :
    decimal digits < 10 ^ digits.length := by
  induction digits using List.reverseRecOn with
  | nil => decide
  | append_singleton digits c ih =>
    have hc : c.toNat ≤ 57 := by
      have := hdigits c (by simp)
      simp only [Char.isDigit, Bool.and_eq_true, decide_eq_true_iff] at this
      exact this.2
    have hrest := ih fun x hx => hdigits x (List.mem_append_left _ hx)
    have hdec : decimal (digits ++ [c]) = 10 * decimal digits + (c.toNat - '0'.toNat) := by
      rw [decimal, List.foldl_append]
      rfl
    have hzero : '0'.toNat = 48 := rfl
    rw [hdec, List.length_append, List.length_singleton, Nat.pow_succ]
    omega

theorem scanDigits_spec (width : ℕ) (input : Text) :
    decimal (scanDigits width input) < 10 ^ width := by
  have hlength : (scanDigits width input).length ≤ width :=
    (List.takeWhile_prefix _).length_le.trans (List.length_take_le _ _)
  have hdigits : ∀ c ∈ scanDigits width input, c.isDigit = true := by
    intro c hc
    exact List.mem_takeWhile_imp hc
  calc decimal (scanDigits width input)
      < 10 ^ (scanDigits width input).length := decimal_lt _ hdigits
    _ ≤ 10 ^ width := Nat.pow_le_pow_right (by decide) hlength

/-- A number of at most five characters is below `100000`. -/
theorem scanNumber_lt {input : Text} {v : ℤ} (hscan : scanNumber 5 input = some v) :
    v < 100000 := by
  have hnumber : ∀ (width : ℕ) (rest : Text) (value : ℕ → ℤ), width ≤ 5 → (∀ n, value n ≤ n) →
      numberOf (scanDigits width rest) value = some v → v < 100000 := by
    intro width rest value hwidth hvalue hv
    rw [numberOf] at hv
    split_ifs at hv
    obtain rfl := Option.some.inj hv
    have hlt := scanDigits_spec width rest
    have hle : 10 ^ width ≤ 10 ^ 5 := Nat.pow_le_pow_right (by decide) hwidth
    have hpow : 10 ^ 5 = 100000 := rfl
    have := hvalue (decimal (scanDigits width rest))
    omega
  rw [scanNumber] at hscan
  split at hscan
  · exact hnumber _ _ _ (by decide) (fun n => by omega) hscan
  · exact hnumber _ _ _ (by decide) (fun n => le_refl _) hscan
  · exact hnumber _ _ _ (by decide) (fun n => le_refl _) hscan

theorem printEpoch_eq {n : ℕ} (hn : n < 100000) : printEpoch n = numeral 5 n :=
  leftpad_toDigits (w := 4) hn

/-- Five digits are read back. -/
theorem scanNumber_digits {digits : Text} (hlength : digits.length = 5)
    (hdigits : ∀ c ∈ digits, c.isDigit = true) (rest : Text) :
    scanNumber 5 (digits ++ rest) = some (decimal digits : ℤ) := by
  have htake : scanDigits 5 (digits ++ rest) = digits := by
    rw [scanDigits, ← hlength, List.take_left, List.takeWhile_eq_self_iff]
    exact hdigits
  have hne : digits ≠ [] := by
    rintro rfl
    simp at hlength
  have hhead : ∀ c tail, digits ++ rest = c :: tail → c.isDigit = true := by
    intro c tail heq
    apply hdigits
    cases digits with
    | nil => exact absurd rfl hne
    | cons x digits =>
      obtain rfl := (List.cons.inj heq).1
      exact List.mem_cons_self
  have hspace : (digits ++ rest).dropWhile isSpace = digits ++ rest := by
    cases heq : digits ++ rest with
    | nil => rfl
    | cons c tail =>
      exact List.dropWhile_cons_of_neg (by simp [isSpace_of_isDigit (hhead c tail heq)])
  rw [scanNumber, hspace]
  split
  · next heq => exact absurd (hhead _ _ heq) (by decide)
  · next heq => exact absurd (hhead _ _ heq) (by decide)
  · rw [htake, numberOf, if_neg hne]

theorem scanEpoch_of_lt (dir : CheckpointDir) {n : ℕ} (hn : n < 100000) :
    scanEpoch dir (finishedFile dir n) = some (n : ℤ) := by
  have hdecimal : decimal (numeral 5 n) = n := ofDigitChars_numeral hn
  rw [scanEpoch_finishedFile, printEpoch_eq hn, scanNumber_digits (length_numeral 5 n)
    fun c => isDigit_of_mem_numeral, hdecimal]

/-- The names of epochs with five digits have the order of the epochs. -/
theorem finishedFile_lt (dir : CheckpointDir) {m n : ℕ} (hn : n < 100000) (hmn : m < n) :
    finishedFile dir m < finishedFile dir n := by
  rw [finishedFile, finishedFile, printEpoch_eq hn, printEpoch_eq (hmn.trans hn), List.append_assoc,
    List.append_assoc _ (numeral 5 n)]
  apply List.Lex.append_left
  exact append_lt_append (by simp) (numeral_lt hn hmn)

theorem getLast_matchingFilenames (dir : CheckpointDir) {epochs : List ℕ} (hne : epochs ≠ []) :
    ∃ e ∈ epochs, (matchingFilenames dir epochs).getLast? = some (finishedFile dir e) ∧
      ∀ e' ∈ epochs, finishedFile dir e' ≤ finishedFile dir e := by
  have hmem : ∀ f, f ∈ matchingFilenames dir epochs ↔ ∃ e ∈ epochs, finishedFile dir e = f := by
    intro f
    rw [matchingFilenames, List.mem_insertionSort, List.mem_map]
  have hne' : matchingFilenames dir epochs ≠ [] := by
    obtain ⟨e, he⟩ := List.exists_mem_of_ne_nil epochs hne
    exact List.ne_nil_of_mem ((hmem _).mpr ⟨e, he, rfl⟩)
  have hsorted : (matchingFilenames dir epochs).Pairwise (· ≤ ·) := List.pairwise_insertionSort _ _
  obtain ⟨e, he, hlast⟩ := (hmem _).mp (List.getLast_mem hne')
  refine ⟨e, he, ?_, ?_⟩
  · rw [hlast, List.getLast?_eq_some_getLast hne']
  · intro e' he'
    rw [hlast]
    exact hsorted.rel_getLast ((hmem _).mpr ⟨e', he', rfl⟩)

/-- The epoch of the last file, up to what `sscanf` reads of it. -/
theorem restore_eq (dir : CheckpointDir) {epochs : List ℕ} (hne : epochs ≠ []) :
    ∃ e ∈ epochs, (∀ e' ∈ epochs, finishedFile dir e' ≤ finishedFile dir e) ∧
      ∀ epoch, restore dir epochs = .startRestore epoch ↔
        scanEpoch dir (finishedFile dir e) = some epoch := by
  obtain ⟨e, he, hlast, hmax⟩ := getLast_matchingFilenames dir hne
  refine ⟨e, he, hmax, fun epoch => ?_⟩
  rw [restore, hlast]
  cases hscan : scanEpoch dir (finishedFile dir e) with
  | none => simp [hscan]
  | some epoch' => simp [hscan]

/-- **The newest checkpoint is restored exactly while epochs have five digits.** Whatever
the finished epochs are, `StartRestore` has the greatest of them if and only if all are
below `100000`. -/
theorem restore_newest_iff (dir : CheckpointDir) {epochs : List ℕ} (hne : epochs ≠ []) :
    (∃ newest ∈ epochs, (∀ e ∈ epochs, e ≤ newest) ∧
      restore dir epochs = .startRestore newest) ↔ ∀ e ∈ epochs, e < 100000 := by
  obtain ⟨e, he, hmax, hrestore⟩ := restore_eq dir hne
  constructor
  · rintro ⟨newest, -, hnewest, hok⟩ e' he'
    have hscan : scanEpoch dir (finishedFile dir e) = some (newest : ℤ) := (hrestore _).mp hok
    rw [scanEpoch_finishedFile] at hscan
    have hlt := scanNumber_lt hscan
    have := hnewest e' he'
    omega
  · intro hall
    refine ⟨e, he, fun e' he' => ?_, (hrestore _).mpr (scanEpoch_of_lt dir (hall e he))⟩
    -- a greater epoch would have a name further back
    by_contra hlt
    exact (hmax e' he').not_gt (finishedFile_lt dir (hall e' he') (by omega))

/-- The default of the flag. -/
def defaultDir : CheckpointDir := ⟨"/scratch/power/checkpoints".toList, by decide⟩

theorem restore_newest_of_three :
    [7, 99999, 12] ≠ [] ∧ ∃ newest ∈ [7, 99999, 12], (∀ e ∈ ([7, 99999, 12] : List ℕ), e ≤ newest) ∧
      restore defaultDir [7, 99999, 12] = .startRestore newest := by
  have hne : [7, 99999, 12] ≠ [] := by decide
  exact ⟨hne, (restore_newest_iff defaultDir hne).mpr (by decide)⟩

/-- The name of epoch `100000` comes before that of `99999`. -/
theorem restore_older_than_newest :
    restore defaultDir [99999, 100000] = .startRestore 99999 ∧
      ¬ ∃ newest ∈ [99999, 100000], (∀ e ∈ ([99999, 100000] : List ℕ), e ≤ newest) ∧
        restore defaultDir [99999, 100000] = .startRestore newest := by
  have hok : restore defaultDir [99999, 100000] = .startRestore 99999 := by decide +kernel
  refine ⟨hok, ?_⟩
  rintro ⟨newest, -, hnewest, hok'⟩
  have hge : 100000 ≤ newest := hnewest 100000 (by decide)
  rw [hok, Restored.startRestore.injEq] at hok'
  omega

end Master

end MaiterStore
