/-
# Where the blocks are written

`BlockWriter::batchedWrite` (`store/blockwriter.h`) tests whether the next line still fits into
the block, but what it puts there is the record of the line. `handleLine` replaces the tab by
`=` and appends a `#`, so the record is one byte longer than a line that has no second tab and
no white space at its end. If such a line fills the block exactly, the block runs over by a byte
into the place of the next one.

The offset of a block is an `int`. Block `2 ^ 18` is at 2 GB, and its offset is negative.

A line whose value is blank loses its tab with the white space at its end, and `handleLine`
then takes a second part that is not there.
-/

import MaiterStore.CS.Run
import MaiterStore.Store.BlockRoundTrip

namespace MaiterStore

open CS.BlockFile CS.Run

/-! ## The record of a line -/

/-- The record that `handleLine` makes of a line. -/
def recordOf (line : Text) : Option Text :=
  match (trimRight line).splitOn '\t' with
  | key :: value :: _ => some (key ++ ['='] ++ value ++ ['#'])
  | _ => none

/-- The record of the line is longer than the line. -/
def Lengthens (line : Text) : Prop := line.count '\t' = 1 ∧ trimRight line = line

section Record

variable {line r : Text}

theorem handleLine_eq (line : Text) (w : BlockWriter) :
    w.handleLine line = (recordOf line).map fun r =>
      (r, { w with keys := w.keys ++ ((trimRight line).splitOn '\t').headD [] ++ ['#'] }) := by
  unfold BlockWriter.handleLine recordOf
  rcases (trimRight line).splitOn '\t' with _ | ⟨key, _ | ⟨value, more⟩⟩
  all_goals rfl

theorem recordOf_eq_none (h : '\t' ∉ trimRight line) : recordOf line = none := by
  rw [recordOf, List.splitOn_eq_singleton h]

/-- The key is what is before the first tab, and the value goes to the second one. -/
theorem recordOf_eq_some {key rest : Text} (hkey : '\t' ∉ key)
    (hline : trimRight line = key ++ '\t' :: rest) :
    recordOf line = some (key ++ ['='] ++ rest.takeWhile (· ≠ '\t') ++ ['#']) := by
  rw [recordOf, hline, List.splitOn_append_cons_self_of_not_mem hkey]
  by_cases hrest : '\t' ∈ rest
  · obtain ⟨value, more, rfl, hvalue⟩ := List.eq_append_cons_of_mem hrest
    rw [List.splitOn_append_cons_self_of_not_mem hvalue, takeWhile_ne_append hvalue]
  · rw [List.splitOn_eq_singleton hrest, takeWhile_ne_eq_self hrest]

theorem exists_recordOf (h : '\t' ∈ trimRight line) : ∃ key rest,
    trimRight line = key ++ '\t' :: rest ∧ '\t' ∉ key ∧
      recordOf line = some (key ++ ['='] ++ rest.takeWhile (· ≠ '\t') ++ ['#']) := by
  obtain ⟨key, rest, hline, hkey⟩ := List.eq_append_cons_of_mem h
  exact ⟨key, rest, hline, hkey, recordOf_eq_some hkey hline⟩

theorem mem_of_recordOf_eq_some (h : recordOf line = some r) : '\t' ∈ trimRight line := by
  by_contra hnot
  rw [recordOf_eq_none hnot] at h
  cases h

theorem takeWhile_length_eq_iff {s : Text} :
    (s.takeWhile (· ≠ '\t')).length = s.length ↔ s.count '\t' = 0 := by
  rw [List.count_eq_zero]
  constructor
  · intro hlen hmem
    have hself := (List.takeWhile_prefix (· ≠ '\t')).eq_of_length hlen
    have hne := List.takeWhile_eq_self_iff.mp hself _ hmem
    simp at hne
  · intro hnot
    rw [takeWhile_ne_eq_self hnot]

/-- A record is at most one byte longer than its line. -/
theorem recordOf_length (h : recordOf line = some r) : 0 < r.length ∧
    r.length ≤ line.length + 1 ∧ (r.length = line.length + 1 ↔ Lengthens line) := by
  obtain ⟨key, rest, hline, hkey, hrecord⟩ := exists_recordOf (mem_of_recordOf_eq_some h)
  obtain rfl : key ++ ['='] ++ rest.takeWhile (· ≠ '\t') ++ ['#'] = r :=
    Option.some.inj (hrecord.symm.trans h)
  have htrim := (trimRight_isPrefix line).length_le
  have hparts : (trimRight line).length = key.length + (rest.length + 1) := by
    rw [hline, List.length_append, List.length_cons]
  have hvalue := (List.takeWhile_prefix (l := rest) (· ≠ '\t')).length_le
  have hcount : (trimRight line).count '\t' = rest.count '\t' + 1 := by
    rw [hline, List.count_append, List.count_eq_zero.mpr hkey, List.count_cons_self, Nat.zero_add]
  simp only [List.length_append, List.length_singleton]
  refine ⟨by omega, by omega, fun hlen => ?_, fun hlong => ?_⟩
  · have hself : trimRight line = line := (trimRight_isPrefix line).eq_of_length (by omega)
    rw [hself] at hcount
    refine ⟨?_, hself⟩
    rw [hcount, takeWhile_length_eq_iff.mp (by omega)]
  · obtain ⟨hone, hself⟩ := hlong
    rw [hself] at hcount hparts
    have hrest : (rest.takeWhile (· ≠ '\t')).length = rest.length :=
      takeWhile_length_eq_iff.mpr (by omega)
    omega

end Record

/-! ## The calls of `write` -/

/-- The calls `write(i, buffer)` of the loop of `batchedWrite`, from the number of the block and
what is in the buffer. -/
def issuedLoop : List Text → ℕ → Text → Option (List (ℕ × Text))
  | [], i, buffer => some (if buffer = [] then [] else [(i, buffer)])
  | line :: lines, i, buffer =>
    (recordOf line).bind fun r =>
      if blockSize < buffer.length + line.length then
        (issuedLoop lines (i + 1) r).map
          ((i, buffer ++ List.replicate (blockSize - buffer.length) '#') :: ·)
      else issuedLoop lines i (buffer ++ r)

/-- The calls of `write` that `batchedWrite` issues, in their order. -/
def issued (lines : List Text) : Option (List (ℕ × Text)) := issuedLoop lines 0 []

/-- The offset that `write` computes for a block. -/
def offset (blockStart : ℕ) : ℤ := ((blockStart * blockSize : ℕ) : ℤ).bmod (2 ^ 32)

section Calls

variable {lines : List Text} {i : ℕ} {buffer : Text} {calls : List (ℕ × Text)} {w w' : BlockWriter}

theorem write_eq (i : ℕ) (buf : Text) (w : BlockWriter) :
    w.write i buf = if w.out.failed then w
      else if offset i < 0 then { w with out := { w.out with failed := true } }
      else { w with out := { w.out with
        bytes := writeAt '\x00' w.out.bytes (offset i).toNat buf } } :=
  rfl

/-- What `write` does to the file depends on the file only. -/
theorem write_out_congr (i : ℕ) (buf : Text) (h : w.out = w'.out) :
    (w.write i buf).out = (w'.write i buf).out := by
  rw [write_eq, write_eq, ← h]
  split_ifs
  · exact h
  · rfl
  · rfl

theorem flush_out (i : ℕ) (w : BlockWriter) :
    (w.flush i).out = (w.write i w.fillBuffer.buffer).out := by
  rw [BlockWriter.flush]
  exact write_out_congr i _ rfl

theorem foldl_write_out (h : w.out = w'.out) :
    (calls.foldl (fun w c => w.write c.1 c.2) w).out =
      (calls.foldl (fun w c => w.write c.1 c.2) w').out := by
  induction calls generalizing w w' with
  | nil => exact h
  | cons c calls ih =>
    exact ih (write_out_congr c.1 c.2 h)

/-- The loop of `batchedWrite` does its calls of `write`. -/
theorem writeLoop_out (lines : List Text) (i : ℕ) (w : BlockWriter) :
    (BlockWriter.writeLoop lines i w).map BlockWriter.out =
      (issuedLoop lines i w.buffer).map fun calls =>
        (calls.foldl (fun w c => w.write c.1 c.2) w).out := by
  induction lines generalizing i w with
  | nil =>
    rw [BlockWriter.writeLoop, issuedLoop, Option.map_some, Option.map_some]
    -- what is left in the buffer is the last call
    by_cases hbuffer : w.buffer = []
    · rw [if_pos hbuffer, BlockWriter.writeLast, if_neg (by simp [hbuffer])]
      rfl
    · rw [if_neg hbuffer, BlockWriter.writeLast_out (by simpa using hbuffer)]
      exact congrArg some (write_out_congr i w.buffer rfl)
  | cons line lines ih =>
    rw [BlockWriter.writeLoop, issuedLoop]
    by_cases hfull : blockSize < w.buffer.length + line.length
    · -- the buffer is written first, which is one call more
      simp only [if_pos hfull]
      rw [handleLine_eq]
      cases recordOf line with
      | none => rfl
      | some r =>
        simp only [Option.map_some, Option.bind_some, ih, Option.map_map]
        have hbuffer : (w.flush i).buffer = [] := rfl
        rw [hbuffer, List.nil_append]
        refine Option.map_congr fun calls _ => ?_
        exact foldl_write_out (flush_out i w)
    · simp only [if_neg hfull]
      rw [handleLine_eq]
      cases recordOf line with
      | none => rfl
      | some r =>
        simp only [Option.map_some, Option.bind_some, ih]
        congr 1
        funext calls
        exact foldl_write_out rfl

/-- What is in the buffer is written to the block next. -/
theorem issuedLoop_head (hbuffer : buffer ≠ []) (h : issuedLoop lines i buffer = some calls) :
    ∃ buf ∈ calls.head?, buf.1 = i ∧ buffer.length ≤ buf.2.length := by
  induction lines generalizing buffer with
  | nil =>
    rw [issuedLoop, if_neg hbuffer] at h
    obtain rfl := Option.some.inj h
    exact ⟨(i, buffer), rfl, rfl, le_rfl⟩
  | cons line lines ih =>
    rw [issuedLoop] at h
    obtain ⟨r, -, h⟩ := Option.bind_eq_some_iff.mp h
    split_ifs at h with hfull
    · obtain ⟨rest, -, rfl⟩ := Option.map_eq_some_iff.mp h
      refine ⟨_, rfl, rfl, ?_⟩
      rw [List.length_append]
      exact Nat.le_add_right _ _
    · obtain ⟨buf, hbuf, hi, hlen⟩ := ih (List.append_ne_nil_of_left_ne_nil hbuffer r) h
      rw [List.length_append] at hlen
      exact ⟨buf, hbuf, hi, (Nat.le_add_right _ _).trans hlen⟩

/-- The blocks are written one after the other. -/
theorem issuedLoop_fst (h : issuedLoop lines i buffer = some calls) :
    calls.map Prod.fst = List.range' i calls.length := by
  induction lines generalizing i buffer calls with
  | nil =>
    rw [issuedLoop] at h
    obtain rfl := Option.some.inj h
    split_ifs
    all_goals rfl
  | cons line lines ih =>
    rw [issuedLoop] at h
    obtain ⟨r, -, h⟩ := Option.bind_eq_some_iff.mp h
    split_ifs at h with hfull
    · obtain ⟨rest, hrest, rfl⟩ := Option.map_eq_some_iff.mp h
      rw [List.map_cons, ih hrest, List.length_cons, List.range'_succ]
    · exact ih h

end Calls

/-! ## Blocks that do not overlap -/

/-- What is expected of the calls of `write`: a block has at most its size, and is written at
its own offset. So a later call changes no byte that the file has in an earlier block. -/
structure CallsApart (calls : List (ℕ × Text)) : Prop where
  short : ∀ c ∈ calls, c.2.length ≤ blockSize
  offset_eq : ∀ c ∈ calls, offset c.1 = (c.1 * blockSize : ℕ)
  unchanged : calls.Pairwise fun c d => ∀ (w : BlockWriter) (p : ℕ),
    c.1 * blockSize ≤ p → p < (c.1 + 1) * blockSize → p < w.out.bytes.length →
      (w.write d.1 d.2).out.bytes[p]? = w.out.bytes[p]?

/-- `batchedWrite` writes the lines, by calls of `write` that do not overlap. -/
def BlocksApart (lines : List Text) : Prop :=
  ∃ w calls, BlockWriter.batchedWrite lines = some w ∧ issued lines = some calls ∧
    w.out = (calls.foldl (fun w c => w.write c.1 c.2) BlockWriter.new).out ∧ CallsApart calls

/-- The number of the block, and the bytes in the buffer. -/
structure Filling where
  block : ℕ
  bytes : ℕ

/-- The bytes of the record of a line. -/
def recordLength (line : Text) : ℕ := ((recordOf line).getD []).length

/-- A line of the loop. -/
def Filling.step (s : Filling) (line : Text) : Filling :=
  if blockSize < s.bytes + line.length then ⟨s.block + 1, recordLength line⟩
  else ⟨s.block, s.bytes + recordLength line⟩

/-- The value of the line is not blank, the line does not fill the block exactly if its record
is longer, and if it needs a new block, that one begins before 2 GB. -/
structure Filling.Fits (s : Filling) (line : Text) : Prop where
  tab : '\t' ∈ trimRight line
  exact_fit : s.bytes + line.length = blockSize → ¬ Lengthens line
  block : blockSize < s.bytes + line.length → s.block + 1 < maxBlocks

section Apart

variable {lines : List Text} {i : ℕ} {buffer : Text} {calls : List (ℕ × Text)}

theorem write_of_offset_eq (hoffset : offset i = (i * blockSize : ℕ)) (buf : Text)
    (w : BlockWriter) :
    (w.write i buf).out.bytes =
      if w.out.failed then w.out.bytes else writeAt '\x00' w.out.bytes (i * blockSize) buf := by
  have hnot : ¬ offset i < 0 := by
    rw [hoffset]
    exact not_lt.mpr (Int.natCast_nonneg _)
  have hnat : (offset i).toNat = i * blockSize := by
    rw [hoffset, Int.toNat_natCast]
  rw [← hnat]
  rcases hfailed : w.out.failed with _ | _
  · rw [write_eq, hfailed, if_neg Bool.false_ne_true, if_neg Bool.false_ne_true, if_neg hnot]
  · rw [write_eq, if_pos hfailed, if_pos rfl]

/-- Calls with the right lengths and offsets do not overlap. -/
theorem callsApart_of_issued (h : issuedLoop lines i buffer = some calls)
    (hcalls : ∀ c ∈ calls, c.2.length ≤ blockSize ∧ offset c.1 = (c.1 * blockSize : ℕ)) :
    CallsApart calls where
  short c hc := (hcalls c hc).1
  offset_eq c hc := (hcalls c hc).2
  unchanged := by
    have hsorted : (calls.map Prod.fst).Pairwise (· < ·) := by
      rw [issuedLoop_fst h]
      exact List.pairwise_lt_range'
    rw [List.pairwise_map] at hsorted
    -- a later call begins where the next block does, or after it
    refine hsorted.imp_of_mem fun {c d} hc hd hlt w p hfrom hto hfile => ?_
    rw [write_of_offset_eq (hcalls d hd).2]
    split_ifs
    · rfl
    · have hnext : (c.1 + 1) * blockSize ≤ d.1 * blockSize := Nat.mul_le_mul_right _ hlt
      exact getElem?_writeAt_of_lt _ _ (hto.trans_le hnext) hfile

theorem recordLength_eq {line r : Text} (h : recordOf line = some r) :
    recordLength line = r.length := by
  rw [recordLength, h]
  rfl

theorem offset_maxBlocks_ne : offset maxBlocks ≠ (maxBlocks * blockSize : ℕ) := by
  intro heq
  have hneg : offset maxBlocks < 0 := offset_maxBlocks
  rw [heq] at hneg
  exact absurd hneg (not_lt.mpr (Int.natCast_nonneg _))

/-- The call has the right length and the right offset. -/
def InPlace (c : ℕ × Text) : Prop := c.2.length ≤ blockSize ∧ offset c.1 = (c.1 * blockSize : ℕ)

/-- What is in the buffer is written, so it has to be in place. -/
theorem inPlace_of_issuedLoop (hbuffer : buffer ≠ []) (h : issuedLoop lines i buffer = some calls)
    (hcalls : ∀ c ∈ calls, InPlace c) : buffer.length ≤ blockSize ∧ i ≠ maxBlocks := by
  obtain ⟨c, hc, hfst, hlen⟩ := issuedLoop_head hbuffer h
  have hplace := hcalls c (List.mem_of_mem_head? hc)
  refine ⟨hlen.trans hplace.1, ?_⟩
  rintro rfl
  refine offset_maxBlocks_ne ?_
  rw [← hfst]
  exact hplace.2

theorem inPlace_filled (hi : i < maxBlocks) (hbuffer : buffer.length ≤ blockSize) :
    InPlace (i, buffer ++ List.replicate (blockSize - buffer.length) '#') := by
  refine ⟨?_, offset_eq hi⟩
  rw [List.length_append, List.length_replicate]
  omega

section Line

variable {line r : Text} {n : ℕ} (hrecord : recordOf line = some r)

include hrecord

theorem step_of_full (i : ℕ) (hfull : blockSize < n + line.length) :
    Filling.step ⟨i, n⟩ line = ⟨i + 1, r.length⟩ := by
  rw [Filling.step, if_pos hfull, recordLength_eq hrecord]

theorem step_of_room (i : ℕ) (hroom : ¬ blockSize < n + line.length) :
    Filling.step ⟨i, n⟩ line = ⟨i, n + r.length⟩ := by
  rw [Filling.step, if_neg hroom, recordLength_eq hrecord]

/-- A line for which there is no room needs a block that begins before 2 GB. -/
theorem fits_iff_of_full (i : ℕ) (hfull : blockSize < n + line.length) :
    Filling.Fits ⟨i, n⟩ line ↔ i + 1 < maxBlocks :=
  ⟨fun h => h.block hfull, fun h =>
    ⟨mem_of_recordOf_eq_some hrecord, fun hfit => absurd hfit hfull.ne', fun _ => h⟩⟩

/-- The record of a line for which there is room runs over only by the byte that the test does
not count. -/
theorem fits_iff_of_room (i : ℕ) (hroom : ¬ blockSize < n + line.length) :
    Filling.Fits ⟨i, n⟩ line ↔ n + r.length ≤ blockSize := by
  obtain ⟨-, hle, hlong⟩ := recordOf_length hrecord
  constructor
  · intro hfits
    by_contra hover
    have hfit : n + line.length = blockSize := by omega
    exact hfits.exact_fit hfit (hlong.mp (by omega))
  · intro hend
    refine ⟨mem_of_recordOf_eq_some hrecord, fun hfit hlengthens => ?_, fun h => absurd h hroom⟩
    have hlonger := hlong.mpr hlengthens
    have hfit' : n + line.length = blockSize := hfit
    omega

end Line

/-- **The loop of `batchedWrite`.** Its calls are in place if all lines fit. -/
theorem guarded_fits_iff (hshort : ∀ line ∈ lines, line.length < blockSize) (hi : i < maxBlocks)
    (hbuffer : buffer.length ≤ blockSize) :
    Guarded Filling.step Filling.Fits ⟨i, buffer.length⟩ lines ↔
      ∃ calls, issuedLoop lines i buffer = some calls ∧ ∀ c ∈ calls, InPlace c := by
  induction lines generalizing i buffer with
  | nil =>
    refine ⟨fun _ => ⟨_, rfl, fun c hc => ?_⟩, fun _ => trivial⟩
    split_ifs at hc
    · exact absurd hc List.not_mem_nil
    · rw [List.mem_singleton.mp hc]
      exact ⟨hbuffer, offset_eq hi⟩
  | cons line lines ih =>
    have hline := hshort line List.mem_cons_self
    have hlines : ∀ l ∈ lines, l.length < blockSize :=
      fun l hl => hshort l (List.mem_cons_of_mem _ hl)
    rw [Guarded, issuedLoop]
    cases hrecord : recordOf line with
    | none =>
      refine ⟨fun ⟨hfits, _⟩ => ?_, nofun⟩
      obtain ⟨_, _, -, -, hsome⟩ := exists_recordOf hfits.tab
      rw [hrecord] at hsome
      cases hsome
    | some r =>
      obtain ⟨hpos, hle, -⟩ := recordOf_length hrecord
      have hr : r ≠ [] := List.ne_nil_of_length_pos hpos
      rw [Option.bind_some]
      by_cases hfull : blockSize < buffer.length + line.length
      · rw [if_pos hfull, step_of_full hrecord i hfull, fits_iff_of_full hrecord i hfull]
        constructor
        · rintro ⟨hblock, hrest⟩
          obtain ⟨calls, hcalls, hplace⟩ := (ih hlines hblock (by omega)).mp hrest
          refine ⟨_, Option.map_eq_some_iff.mpr ⟨calls, hcalls, rfl⟩, ?_⟩
          exact List.forall_mem_cons.mpr ⟨inPlace_filled hi hbuffer, hplace⟩
        · rintro ⟨calls, hcalls, hplace⟩
          obtain ⟨rest, hrest, rfl⟩ := Option.map_eq_some_iff.mp hcalls
          have hplace' := (List.forall_mem_cons.mp hplace).2
          -- the record opens block `i + 1`, which is written in its turn
          have hblock : i + 1 < maxBlocks := by
            have hne := (inPlace_of_issuedLoop hr hrest hplace').2
            omega
          exact ⟨hblock, (ih hlines hblock (by omega)).mpr ⟨rest, hrest, hplace'⟩⟩
      · rw [if_neg hfull, step_of_room hrecord i hfull, fits_iff_of_room hrecord i hfull,
          ← List.length_append]
        constructor
        · rintro ⟨hroom, hrest⟩
          exact (ih hlines hi hroom).mp hrest
        · rintro ⟨calls, hcalls, hplace⟩
          have hroom := (inPlace_of_issuedLoop (List.append_ne_nil_of_right_ne_nil buffer hr)
            hcalls hplace).1
          exact ⟨hroom, (ih hlines hi hroom).mpr ⟨calls, hcalls, hplace⟩⟩

/-- The blocks do not overlap if and only if all lines fit. -/
theorem blocksApart_iff_guarded (hshort : ∀ line ∈ lines, line.length < blockSize) :
    BlocksApart lines ↔ Guarded Filling.step Filling.Fits ⟨0, 0⟩ lines := by
  have hguarded : Guarded Filling.step Filling.Fits ⟨0, ([] : Text).length⟩ lines ↔ _ :=
    guarded_fits_iff hshort (Nat.two_pow_pos 18) (Nat.zero_le _)
  rw [List.length_nil] at hguarded
  rw [hguarded]
  constructor
  · rintro ⟨_, calls, -, hcalls, -, hapart⟩
    exact ⟨calls, hcalls, fun c hc => ⟨hapart.short c hc, hapart.offset_eq c hc⟩⟩
  · rintro ⟨calls, hcalls, hplace⟩
    have hout := writeLoop_out lines 0 BlockWriter.new
    have hnew : BlockWriter.new.buffer = [] := rfl
    rw [hnew, hcalls, Option.map_some] at hout
    obtain ⟨w, hw, hwout⟩ := Option.map_eq_some_iff.mp hout
    exact ⟨w, calls, hw, hcalls, hwout, callsApart_of_issued hcalls hplace⟩

/-- **Blocks do not overlap exactly if the lines fit.** For lines with a tab, shorter than a
block: each line in its turn has a value that is not blank, does not fill up the block exactly
with a record that is longer than the line, and needs no block that begins at 2 GB or beyond. -/
theorem blocks_apart_iff (lines : List Text)
    (hlines : ∀ line ∈ lines, '\t' ∈ line ∧ line.length < blockSize) :
    BlocksApart lines ↔ Guarded Filling.step Filling.Fits ⟨0, 0⟩ lines :=
  blocksApart_iff_guarded fun line hline => (hlines line hline).2

/-- A line with a numeral of `n` digits for its value. -/
def digitLine (c : Char) (n : ℕ) : Text := c :: '\t' :: List.replicate n '7'

theorem length_digitLine (c : Char) (n : ℕ) : (digitLine c n).length = n + 2 := by
  rw [digitLine, List.length_cons, List.length_cons, List.length_replicate]

theorem lengthens_digitLine {c : Char} (hc : c ≠ '\t') (n : ℕ) :
    Lengthens (digitLine c (n + 1)) := by
  constructor
  · rw [digitLine, List.count_cons_of_ne hc, List.count_cons_self, List.count_replicate,
      if_neg (by decide)]
  · have hlast : digitLine c (n + 1) = (c :: '\t' :: List.replicate n '7') ++ ['7'] := by
      rw [digitLine, List.replicate_succ']
      rfl
    rw [trimRight, hlast]
    exact List.rdropWhile_concat_neg _ _ _ (by decide)

theorem recordOf_digitLine {c : Char} (hc : c ≠ '\t') (n : ℕ) :
    '\t' ∈ trimRight (digitLine c (n + 1)) ∧ recordLength (digitLine c (n + 1)) = n + 4 := by
  have hlong := lengthens_digitLine hc n
  have htab : '\t' ∈ trimRight (digitLine c (n + 1)) := by
    rw [hlong.2, digitLine]
    exact .tail _ (.head _)
  obtain ⟨_, _, -, -, hrecord⟩ := exists_recordOf htab
  refine ⟨htab, ?_⟩
  rw [recordLength_eq hrecord, (recordOf_length hrecord).2.2.mpr hlong, length_digitLine]

theorem blockSize_eq : blockSize = 8192 := rfl

theorem step_digitLine : Filling.step ⟨0, 0⟩ (digitLine '1' 4094) = ⟨0, 4097⟩ := by
  obtain ⟨htab, hlen⟩ := recordOf_digitLine (c := '1') (by decide) 4093
  obtain ⟨_, _, -, -, hrecord⟩ := exists_recordOf htab
  rw [recordLength_eq hrecord] at hlen
  rw [step_of_room hrecord 0 (by simp [length_digitLine, blockSize_eq]), hlen]

theorem short_digitLine {c : Char} {n : ℕ} (hn : n + 2 < blockSize) :
    '\t' ∈ digitLine c n ∧ (digitLine c n).length < blockSize :=
  ⟨.tail _ (.head _), by rwa [length_digitLine]⟩

/-- Two lines of 4096 and 4096 bytes: after the first one the second is too long by a byte, and
has a block of its own. -/
theorem blocks_apart_iff_two_blocks :
    BlocksApart [digitLine '1' 4094, digitLine '2' 4094] := by
  refine (blocks_apart_iff _ ?_).mpr ⟨⟨?_, ?_, ?_⟩, ?_, trivial⟩
  · intro line hline
    rcases List.mem_pair.mp hline with rfl | rfl
    all_goals exact short_digitLine (by rw [blockSize_eq]; omega)
  · exact (recordOf_digitLine (by decide) 4093).1
  · simp [length_digitLine, blockSize_eq]
  · simp [length_digitLine, blockSize_eq]
  · rw [step_digitLine]
    refine ⟨(recordOf_digitLine (by decide) 4093).1, ?_, ?_⟩
    · simp [length_digitLine, blockSize_eq]
    · simp [maxBlocks]

/-- Two lines of 4096 and 4095 bytes: their records have 4097 and 4096 bytes, and are written as
one block. -/
theorem exact_fit_overlaps :
    ¬ ∀ lines : List Text, (∀ line ∈ lines, '\t' ∈ line ∧ line.length < blockSize) →
      BlocksApart lines := by
  intro h
  have hlines : ∀ line ∈ [digitLine '1' 4094, digitLine '2' 4093],
      '\t' ∈ line ∧ line.length < blockSize := by
    intro line hline
    rcases List.mem_pair.mp hline with rfl | rfl
    all_goals exact short_digitLine (by rw [blockSize_eq]; omega)
  obtain ⟨-, hsecond, -⟩ :=
    (blocksApart_iff_guarded fun line hline => (hlines line hline).2).mp (h _ hlines)
  rw [step_digitLine] at hsecond
  refine hsecond.exact_fit ?_ (lengthens_digitLine (by decide) 4092)
  rw [length_digitLine, blockSize_eq]

end Apart

end MaiterStore
