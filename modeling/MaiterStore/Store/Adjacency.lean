/-
# The adjacency store

`Writer` (`store/writer.cpp`) turns a text file with one line of numbers per vertex into
two flat files of longs. The data file holds the numbers of all lines, the header file the
running totals of their counts, from 0 on. `Reader` (`store/reader.cpp`) maps both files
and takes the numbers of a line from between two consecutive totals.

A line that `handleLine` cannot read ends the loop with an exception before anything of it
is written. The count of a line goes through an `unsigned int` and then an `int`, so the
two files fit together exactly as long as no line has 2^31 numbers or more.

A flat file is the list of longs in it. The input file has less than 2^63 bytes, so that
the running total does not overflow.
-/

import Mathlib.Algebra.BigOperators.Group.List.Lemmas
import Mathlib.Algebra.Order.BigOperators.Group.List
import Mathlib.Algebra.Order.Group.Nat
import Mathlib.Algebra.Order.Ring.Int
import Mathlib.Data.List.Flatten
import Mathlib.Data.List.TakeWhile
import MaiterStore.Store.Text

namespace MaiterStore

/-- The header file and the data file. -/
structure Files where
  hdr : List ℤ
  data : List ℤ
  deriving DecidableEq, Repr

/-! ## Lines -/

namespace Writer

/-- `Writer::handleLine(value)`, where `none` is an exception. -/
def handleLine (value : Text) : Option (List ℤ) :=
  ((trimRight value).splitOn ' ').mapM lexicalCast

/-- Without trailing white space the line is `row` in numerals, with single spaces between
them. -/
def IsRow (line : Text) (row : List ℤ) : Prop :=
  ∃ numerals ≠ [], trimRight line = [' '].intercalate numerals ∧
    List.Forall₂ IsNumeral numerals row

/-- `handleLine` accepts the lines of numerals. -/
theorem handleLine_eq_some_iff {line : Text} {row : List ℤ} :
    handleLine line = some row ↔ IsRow line row := by
  rw [handleLine, mapM_lexicalCast_eq_some_iff]
  constructor
  · exact fun h => ⟨_, List.splitOn_ne_nil ' ' _, (List.intercalate_splitOn ' ').symm, h⟩
  · rintro ⟨numerals, hne, htrim, hrow⟩
    have hspace : ∀ token ∈ numerals, ' ' ∉ token := by
      intro token htoken
      obtain ⟨i, hi, rfl⟩ := List.getElem_of_mem htoken
      exact (List.forall₂_iff_get.mp hrow).2 i hi
        ((List.forall₂_iff_get.mp hrow).1 ▸ hi) |>.chars.1
    rwa [htrim, List.splitOn_intercalate ' ' hspace hne]

/-! ## Writing -/

/-- An `unsigned int` as an `int`. -/
def toInt (n : ℕ) : ℤ := if n < 2 ^ 31 then n else n - 2 ^ 32

/-- `flatwrite(value, size)`. With a negative size the byte count is beyond `SSIZE_MAX`,
and `write` fails. -/
def flatwrite (file value : List ℤ) (size : ℤ) : List ℤ :=
  if size < 0 then file else file ++ value.take size.toNat

/-- `unsigned int size = adjvec.size()`. -/
def rowSize (row : List ℤ) : ℕ := row.length % 2 ^ 32

/-- The loop of `Writer::write`, with the running total. It ends with the files as they are
when it returns or, as an error, when it throws. -/
def writeLoop : List Text → ℕ → Files → Except Files Files
  | [], _, f => .ok f
  | line :: lines, total, f =>
    match handleLine line with
    | none => .error f
    | some adjvec =>
      let total' := total + rowSize adjvec
      writeLoop lines total'
        ⟨f.hdr ++ [(total' : ℤ)], flatwrite f.data adjvec (toInt (rowSize adjvec))⟩

/-- `Writer::write()`. -/
def write (lines : List Text) : Except Files Files := writeLoop lines 0 ⟨[0], []⟩

/-- The files after a call of `write`, whether it has returned or thrown. -/
def filesOf : Except Files Files → Files
  | .ok f => f
  | .error f => f

end Writer

/-! ## Reading -/

/-- What stops a reader. -/
inductive ReadFault
  /-- `mmap` of an empty file fails. -/
  | mmap
  /-- A long outside one of the files is read. -/
  | outOfRange
  deriving DecidableEq, Repr

/-- The two mapped files. -/
structure Reader where
  hdr : List ℤ
  data : List ℤ
  deriving DecidableEq, Repr

namespace Reader

/-- The constructor `Reader()`. -/
def new (f : Files) : Except ReadFault Reader :=
  if f.hdr = [] ∨ f.data = [] then .error .mmap else .ok ⟨f.hdr, f.data⟩

/-- The long at an index of a mapped file. -/
def at_ (file : List ℤ) (index : ℤ) : Except ReadFault ℤ :=
  if index < 0 then .error .outOfRange
  else (file[index.toNat]?).elim (.error .outOfRange) .ok

/-- `read(index)`. -/
def read (r : Reader) (index : ℤ) : Except ReadFault (List ℤ) :=
  (at_ r.hdr index).bind fun pos =>
    (at_ r.hdr (index + 1)).bind fun next =>
      -- the vector is copied from `data_ptr + pos` to `data_ptr + next`
      if 0 ≤ pos ∧ pos ≤ next ∧ next ≤ r.data.length then
        .ok ((r.data.drop pos.toNat).take (next - pos).toNat)
      else .error .outOfRange

end Reader

/-! ## What the files hold -/

namespace Writer

/-- The lines before the first one that is rejected. -/
def accepted (lines : List Text) : List Text := lines.takeWhile fun line => (handleLine line).isSome

/-- The two files fit together, and each accepted line can be read back. -/
structure Agrees (lines : List Text) (f : Files) : Prop where
  length_eq : f.hdr.length = (accepted lines).length + 1
  head_eq : f.hdr.head? = some 0
  sorted : f.hdr.Pairwise (· ≤ ·)
  last_eq : f.hdr.getLast? = some (f.data.length : ℤ)
  read_eq : ∀ i < (accepted lines).length, ∃ row, (lines[i]?).bind handleLine = some row ∧
    ((Reader.new f).bind fun r => r.read i) = .ok row

/-- The numbers of the accepted lines. -/
def rows (lines : List Text) : List (List ℤ) := (accepted lines).filterMap handleLine

/-- What is stored of a row. -/
def stored (row : List ℤ) : List ℤ := flatwrite [] row (toInt (rowSize row))

/-- The totals after each of the rows. -/
def totals (total : ℕ) : List (List ℤ) → List ℤ
  | [] => []
  | row :: rest => (total + rowSize row : ℕ) :: totals (total + rowSize row) rest

theorem flatwrite_eq_append (file value : List ℤ) (size : ℤ) :
    flatwrite file value size = file ++ flatwrite [] value size := by
  rw [flatwrite, flatwrite]
  split <;> simp

theorem rows_cons_of_some {line : Text} {row : List ℤ} (h : handleLine line = some row)
    (lines : List Text) : rows (line :: lines) = row :: rows lines := by
  rw [rows, accepted, List.takeWhile_cons_of_pos (by rw [h]; rfl), List.filterMap_cons_some h]
  rfl

theorem rows_cons_of_none {line : Text} (h : handleLine line = none) (lines : List Text) :
    rows (line :: lines) = [] := by
  rw [rows, accepted, List.takeWhile_cons_of_neg (by rw [h]; nofun), List.filterMap_nil]

/-- The loop appends the totals to the header and the rows to the data, up to the first
line that is rejected. -/
theorem filesOf_writeLoop (lines : List Text) (total : ℕ) (f : Files) :
    filesOf (writeLoop lines total f) =
      ⟨f.hdr ++ totals total (rows lines), f.data ++ (rows lines).flatMap stored⟩ := by
  induction lines generalizing total f with
  | nil => simp [writeLoop, filesOf, rows, accepted, totals]
  | cons line lines ih =>
    cases hline : handleLine line with
    | none => simp [writeLoop, hline, filesOf, rows_cons_of_none hline, totals]
    | some row =>
      simp only [writeLoop, hline, ih, rows_cons_of_some hline, totals, List.flatMap_cons]
      rw [flatwrite_eq_append, ← stored, List.append_assoc, List.append_assoc]
      rfl

theorem filesOf_write (lines : List Text) :
    filesOf (write lines) = ⟨0 :: totals 0 (rows lines), (rows lines).flatMap stored⟩ :=
  filesOf_writeLoop lines 0 ⟨[0], []⟩

/-- Each accepted line has its row. -/
theorem rows_getElem? {lines : List Text} {i : ℕ} (hi : i < (accepted lines).length) :
    (rows lines)[i]? = (lines[i]?).bind handleLine ∧ ((rows lines)[i]?).isSome := by
  induction lines generalizing i with
  | nil => simp [accepted] at hi
  | cons line lines ih =>
    cases hline : handleLine line with
    | none => simp [accepted, hline] at hi
    | some row =>
      rw [rows_cons_of_some hline]
      cases i with
      | zero => simp [hline]
      | succ i =>
        have hi' : i < (accepted lines).length := by simpa [accepted, hline] using hi
        simpa using ih hi'

theorem length_rows (lines : List Text) : (rows lines).length = (accepted lines).length := by
  induction lines with
  | nil => rfl
  | cons line lines ih =>
    cases hline : handleLine line with
    | none => simp [rows_cons_of_none hline, accepted, hline]
    | some row => simpa [rows_cons_of_some hline, accepted, hline] using ih

@[simp] theorem length_totals (total : ℕ) (rs : List (List ℤ)) :
    (totals total rs).length = rs.length := by
  induction rs generalizing total with
  | nil => rfl
  | cons row rest ih => simp [totals, ih]

/-- The header entry `i` is the sum of the first `i` sizes. -/
theorem getElem?_totals (total : ℕ) {rs : List (List ℤ)} {i : ℕ} (hi : i ≤ rs.length) :
    ((total : ℤ) :: totals total rs)[i]? =
      some ((total + ((rs.map rowSize).take i).sum : ℕ) : ℤ) := by
  induction rs generalizing total i with
  | nil =>
    obtain rfl : i = 0 := Nat.le_zero.mp hi
    simp
  | cons row rest ih =>
    cases i with
    | zero => simp
    | succ i =>
      rw [List.getElem?_cons_succ, totals, ih _ (Nat.le_of_succ_le_succ hi), List.map_cons,
        List.take_succ_cons, List.sum_cons, Nat.add_assoc]

theorem pairwise_totals (total : ℕ) (rs : List (List ℤ)) :
    ((total : ℤ) :: totals total rs).Pairwise (· ≤ ·) := by
  induction rs generalizing total with
  | nil => simp [totals]
  | cons row rest ih =>
    have hrest := ih (total + rowSize row)
    refine List.pairwise_cons.mpr ⟨fun v hv => ?_, hrest⟩
    have hstep : (total : ℤ) ≤ (total + rowSize row : ℕ) := by omega
    rcases List.mem_cons.mp hv with rfl | hv
    · exact hstep
    · exact hstep.trans ((List.pairwise_cons.mp hrest).1 v hv)

/-! ## When they fit together -/

theorem length_stored (row : List ℤ) :
    (stored row).length = if rowSize row < 2 ^ 31 then rowSize row else 0 := by
  have hle : rowSize row ≤ row.length := Nat.mod_le _ _
  have hlt : rowSize row < 2 ^ 32 := Nat.mod_lt _ (by decide)
  rw [stored, flatwrite, toInt]
  split_ifs <;> first | omega | simp [hle]

theorem stored_of_lt {row : List ℤ} (h : row.length < 2 ^ 31) : stored row = row := by
  have hsize : rowSize row = row.length := Nat.mod_eq_of_lt (h.trans (by decide))
  rw [stored, hsize, toInt, if_pos h, flatwrite, if_neg (by omega)]
  simp

/-- A reader that reads something has opened both files. -/
theorem read_of_new {f : Files} {i : ℤ} {row : List ℤ}
    (h : ((Reader.new f).bind fun r => r.read i) = .ok row) :
    Reader.read ⟨f.hdr, f.data⟩ i = .ok row := by
  rw [Reader.new] at h
  split at h
  · cases h
  · exact h

theorem at_of_getElem? {file : List ℤ} {i : ℕ} {v : ℤ} (h : file[i]? = some v) :
    Reader.at_ file i = .ok v := by
  rw [Reader.at_, if_neg (by omega), Int.toNat_natCast, h]
  rfl

/-- Reading row `i` from the totals of `rs`. -/
theorem read_totals {rs : List (List ℤ)} {data : List ℤ} {i : ℕ} (hi : i < rs.length) :
    Reader.read ⟨0 :: totals 0 rs, data⟩ i =
      if ((rs.map rowSize).take (i + 1)).sum ≤ data.length then
        .ok ((data.take ((rs.map rowSize).take (i + 1)).sum).drop ((rs.map rowSize).take i).sum)
      else .error .outOfRange := by
  have hpos := at_of_getElem? (getElem?_totals 0 hi.le)
  have hnext := at_of_getElem? (getElem?_totals 0 (Nat.succ_le_of_lt hi))
  have hmono : ((rs.map rowSize).take i).sum ≤ ((rs.map rowSize).take (i + 1)).sum := by
    rw [List.take_add_one, List.sum_append]
    exact Nat.le_add_right _ _
  generalize ((rs.map rowSize).take i).sum = pos at *
  generalize ((rs.map rowSize).take (i + 1)).sum = next at *
  rw [Nat.zero_add, Nat.cast_zero] at hpos hnext
  rw [Nat.succ_eq_add_one, Nat.cast_succ] at hnext
  simp only [Reader.read, hpos, hnext, Except.bind]
  by_cases hle : next ≤ data.length
  · rw [if_pos ⟨by omega, by omega, by omega⟩, if_pos hle, List.drop_take]
    congr 3
    omega
  · rw [if_neg (by omega), if_neg hle]

/-- The last total is the sum of all sizes. -/
theorem getLast?_totals (rs : List (List ℤ)) :
    (0 :: totals 0 rs).getLast? = some (((rs.map rowSize).sum : ℕ) : ℤ) := by
  have hlast := getElem?_totals 0 (le_refl rs.length)
  rw [List.take_of_length_le (by simp), Nat.zero_add, Nat.cast_zero] at hlast
  rw [List.getLast?_eq_getElem?, List.length_cons, length_totals, Nat.add_sub_cancel]
  exact hlast

theorem length_flatMap_stored (rs : List (List ℤ)) :
    (rs.flatMap stored).length = (rs.map fun row => (stored row).length).sum :=
  List.length_flatMap ..

/-- If the last total is the length of the data, then no size was too large for an `int`. -/
theorem rowSize_lt_of_sum_eq {rs : List (List ℤ)}
    (hsum : (rs.map rowSize).sum = (rs.flatMap stored).length) :
    ∀ row ∈ rs, rowSize row < 2 ^ 31 := by
  intro row hrow
  by_contra hlarge
  have hle : ∀ r ∈ rs, (stored r).length ≤ rowSize r := by
    intro r _
    rw [length_stored]
    split <;> omega
  have hlt : (stored row).length < rowSize row := by
    rw [length_stored, if_neg hlarge]
    omega
  have hless := List.sum_lt_sum _ _ hle ⟨row, hrow, hlt⟩
  rw [← length_flatMap_stored] at hless
  omega

/-- Rows that an `int` can count are stored as they are. -/
theorem read_write {rs : List (List ℤ)} (hrs : ∀ row ∈ rs, row.length < 2 ^ 31) {i : ℕ}
    (hi : i < rs.length) :
    Reader.read ⟨0 :: totals 0 rs, rs.flatMap stored⟩ i = .ok (rs.get ⟨i, hi⟩) := by
  have hdata : rs.flatMap stored = rs.flatten := by
    rw [List.flatMap_def, List.map_congr_left fun row hrow => stored_of_lt (hrs row hrow),
      List.map_id']
  have hsizes : rs.map rowSize = rs.map List.length := by
    refine List.map_congr_left fun row hrow => ?_
    exact Nat.mod_eq_of_lt ((hrs row hrow).trans (by decide))
  have hle : ((rs.map List.length).take (i + 1)).sum ≤ rs.flatten.length := by
    rw [List.length_flatten]
    exact (List.take_sublist _ _).sum_le_sum fun _ _ => Nat.zero_le _
  rw [read_totals hi, hdata, hsizes, if_pos hle, List.drop_take_succ_flatten_eq_getElem rs i hi]
  rfl

/-- A line that is accepted has a number. -/
theorem rows_ne_nil {lines : List Text} {row : List ℤ} (hrow : row ∈ rows lines) : row ≠ [] := by
  obtain ⟨line, -, hline⟩ := List.mem_filterMap.mp hrow
  obtain ⟨numerals, hne, -, hall⟩ := handleLine_eq_some_iff.mp hline
  rintro rfl
  exact hne (List.forall₂_nil_right_iff.mp hall)

/-- The files fit together exactly if no accepted line has 2^31 numbers or more. -/
theorem agrees_iff_rows (lines : List Text) :
    Agrees lines (filesOf (write lines)) ↔ ∀ row ∈ rows lines, row.length < 2 ^ 31 := by
  rw [filesOf_write]
  constructor
  · intro h row hrow
    have hsum : ((rows lines).map rowSize).sum = ((rows lines).flatMap stored).length := by
      have hlast := (getLast?_totals (rows lines)).symm.trans h.last_eq
      exact_mod_cast Option.some.inj hlast
    have hsize := rowSize_lt_of_sum_eq hsum row hrow
    -- what is read for the row has as many numbers as its size says
    obtain ⟨i, hi, rfl⟩ := List.getElem_of_mem hrow
    obtain ⟨row', hline, hread⟩ := h.read_eq i (length_rows lines ▸ hi)
    have hrow' : row' = (rows lines)[i] := by
      have hget := (rows_getElem? (length_rows lines ▸ hi)).1
      rw [hline, List.getElem?_eq_getElem hi] at hget
      exact (Option.some.inj hget).symm
    have hslice := read_of_new hread
    rw [read_totals hi] at hslice
    split_ifs at hslice with hle
    have hlength := congrArg List.length (Except.ok.inj hslice)
    have hnext : (((rows lines).map rowSize).take (i + 1)).sum =
        (((rows lines).map rowSize).take i).sum + rowSize (rows lines)[i] := by
      rw [List.take_add_one, List.getElem?_map, List.getElem?_eq_getElem hi, List.sum_append]
      rfl
    rw [List.length_drop, List.length_take, Nat.min_eq_left hle, hrow', hnext] at hlength
    omega
  · intro hrs
    refine ⟨by simp [length_rows], rfl, pairwise_totals 0 _, ?_, fun i hi => ?_⟩
    · rw [getLast?_totals, length_flatMap_stored]
      congr 3
      refine List.map_congr_left fun row hrow => ?_
      rw [stored_of_lt (hrs row hrow)]
      exact Nat.mod_eq_of_lt ((hrs row hrow).trans (by decide))
    · obtain ⟨hline, hsome⟩ := rows_getElem? hi
      have hi' : i < (rows lines).length := length_rows lines ▸ hi
      refine ⟨(rows lines).get ⟨i, hi'⟩, ?_, ?_⟩
      · rw [← hline, List.getElem?_eq_getElem hi']
        rfl
      · have hdata : (rows lines).flatMap stored ≠ [] := by
          have hmem : (rows lines)[i] ∈ rows lines := List.getElem_mem hi'
          intro hnil
          apply rows_ne_nil hmem
          rw [← stored_of_lt (hrs _ hmem)]
          exact List.flatMap_eq_nil_iff.mp hnil _ hmem
        rw [Reader.new, if_neg (by simp [hdata])]
        exact read_write hrs hi'

/-- **The two files of the adjacency store fit together**, whether `write` returns or throws,
and every accepted line reads back as it was, exactly if no accepted line has 2^31 numbers
or more. The accepted lines are those of numerals with single spaces between them. -/
theorem adjacency_files_agree_iff (lines : List Text) :
    (∀ line row, handleLine line = some row ↔ IsRow line row) ∧
      (Agrees lines (filesOf (write lines)) ↔
        ∀ line ∈ accepted lines, ∀ row, IsRow line row → row.length < 2 ^ 31) := by
  refine ⟨fun line row => handleLine_eq_some_iff, ?_⟩
  rw [agrees_iff_rows]
  constructor
  · intro h line hline row hrow
    exact h row (List.mem_filterMap.mpr ⟨line, hline, handleLine_eq_some_iff.mpr hrow⟩)
  · intro h row hrow
    obtain ⟨line, hline, hhandle⟩ := List.mem_filterMap.mp hrow
    exact h line hline row (handleLine_eq_some_iff.mp hhandle)

/-- A line of `n` zeros. -/
def zeroLine (n : ℕ) : Text := [' '].intercalate (List.replicate n ['0'])

theorem getLast?_zeroLine (n : ℕ) : (zeroLine (n + 1)).getLast? = some '0' := by
  induction n with
  | zero => rfl
  | succ n ih =>
    have hcons : zeroLine (n + 1 + 1) = '0' :: ' ' :: zeroLine (n + 1) :=
      List.intercalate_cons_cons
    rw [hcons, List.getLast?_cons_cons, List.getLast?_cons, ih]
    rfl

theorem handleLine_zeroLine (n : ℕ) :
    handleLine (zeroLine (n + 1)) = some (List.replicate (n + 1) 0) := by
  refine handleLine_eq_some_iff.mpr ⟨List.replicate (n + 1) ['0'], by simp, ?_, ?_⟩
  · refine List.rdropWhile_eq_self_iff.mpr fun hne => ?_
    have hlast := getLast?_zeroLine n
    rw [List.getLast?_eq_some_getLast hne, Option.some_inj] at hlast
    rw [hlast]
    decide
  · have hzero : IsNumeral ['0'] 0 := .unsigned (isDigits_singleton rfl) (by decide)
    exact List.forall₂_iff_get.mpr ⟨by simp, fun i h h' => by simpa using hzero⟩

theorem not_agrees_zeroLine {n : ℕ} (hn : 2 ^ 31 ≤ n + 1) :
    ¬ Agrees [zeroLine (n + 1)] (filesOf (write [zeroLine (n + 1)])) := by
  rw [agrees_iff_rows, rows_cons_of_some (handleLine_zeroLine n)]
  intro h
  have hshort := h _ List.mem_cons_self
  rw [List.length_replicate] at hshort
  exact absurd hshort (Nat.not_lt.mpr hn)

/-- The size of a line of 2^32 zeros is taken for 0: nothing of it is stored. -/
theorem long_line_not_stored :
    ¬ Agrees [zeroLine (2 ^ 32)] (filesOf (write [zeroLine (2 ^ 32)])) := by
  obtain ⟨n, hn⟩ : ∃ n, 2 ^ 32 = n + 1 := ⟨2 ^ 32 - 1, by omega⟩
  rw [hn]
  apply not_agrees_zeroLine
  omega

end Writer

end MaiterStore
