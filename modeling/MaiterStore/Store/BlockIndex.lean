/-
# The index of the blocks

`BlockWriter::batchedWrite` (`store/blockwriter.h`) keeps the first key of every block in a
string, each with a `#` after it. `Index` (`store/index.h`) reads these keys and looks for the
block of a key by `std::upper_bound`: the block before the first one that begins above the key.

The keys of the file increase, so the first keys of the blocks do, and the keys of a block are
between its own first key and that of the next block.

The number of a block is an `int`.
-/

import MaiterStore.CS.BinarySearch
import MaiterStore.Store.BlockLayout

namespace MaiterStore

open CS.BinarySearch

/-! ## The index -/

namespace Index

/-- The words that `getline` reads up to each delimiter. After the last delimiter there is one
more word only if it is not empty. -/
def words (line : Text) (delimiter : Char) : List Text :=
  let parts := line.splitOn delimiter
  if parts.getLast? = some [] then parts.dropLast else parts

/-- `splitString(line, delimiter)`, where `none` is `bad_lexical_cast`. -/
def splitString (line : Text) (delimiter : Char) : Option (List ℤ) :=
  if delimiter ∉ line then some [] else (words line delimiter).mapM lexicalCast

/-- `initIndex(keys)`, with the index it assigns. -/
def initIndex (keys : Text) : Option (List ℤ) := splitString keys '#'

/-- `getBlockAddr(key)`. -/
def getBlockAddr (index : List ℤ) (key : ℤ) : ℤ :=
  ((upperBound index key : ℤ).bmod (2 ^ 32) - 1).bmod (2 ^ 32)

end Index

/-! ## The input file -/

/-- A line of the input file: an integer key, a tab, and a value that is not blank. -/
structure InputLine where
  key : Text
  value : Text
  id : ℤ
  isNumeral : IsNumeral key id
  not_blank : trimRight value ≠ []
  short : (key ++ '\t' :: value).length ≤ blockSize

/-- The lines of an input file, with increasing keys. -/
structure InputFile where
  lines : List InputLine
  increasing : (lines.map InputLine.id).Pairwise (· < ·)

namespace InputLine

/-- The line as it is in the file. -/
def text (l : InputLine) : Text := l.key ++ '\t' :: l.value

/-- The record of the line. -/
def record (l : InputLine) : Text :=
  l.key ++ ['='] ++ (trimRight l.value).takeWhile (· ≠ '\t') ++ ['#']

variable {l : InputLine}

theorem not_mem_key (l : InputLine) {c : Char} (hdigit : c.isDigit = false) (hplus : c ≠ '+')
    (hminus : c ≠ '-') : c ∉ l.key :=
  l.isNumeral.not_mem hdigit hplus hminus

theorem recordOf_text (l : InputLine) : recordOf l.text = some l.record := by
  refine recordOf_eq_some (l.not_mem_key (by decide) (by decide) (by decide)) ?_
  have hsplit : l.text = (l.key ++ ['\t']) ++ l.value := by
    rw [text, List.append_assoc]
    rfl
  rw [hsplit, trimRight_append l.not_blank, List.append_assoc]
  rfl

end InputLine

/-! ## What is packed into the blocks -/

/-- The records of a block. -/
def records (b : List InputLine) : Text := b.flatMap InputLine.record

/-- The calls of `write` are for the blocks, one after the other: call `j` has the number `j`,
and the records of block `j` with some `#` after them. -/
structure Packs (calls : List (ℕ × Text)) (blocks : List (List InputLine))
    (lines : List InputLine) : Prop where
  flatten_eq : blocks.flatten = lines
  ne_nil : ∀ b ∈ blocks, b ≠ []
  numbers : calls.map Prod.fst = List.range blocks.length
  buffers : List.Forall₂ (fun c b => ∃ n, c.2 = records b ++ List.replicate n '#') calls blocks

/-- The key of the first line of a block, as text. -/
def firstText (b : List InputLine) : Text := (b.map InputLine.key).headD []

/-- The key of the first line of a block. -/
def firstKey (b : List InputLine) : ℤ := (b.map InputLine.id).headD 0

section Packing

variable {cur b : List InputLine} {w : BlockWriter}

theorem records_eq_nil_iff : records cur = [] ↔ cur = [] := by
  cases cur with
  | nil => exact ⟨fun _ => rfl, fun _ => rfl⟩
  | cons l cur => simp [records, InputLine.record]

theorem takeWhile_records (hb : b ≠ []) : (records b).takeWhile (· ≠ '=') = firstText b := by
  obtain ⟨l, rest, rfl⟩ := List.exists_cons_of_ne_nil hb
  have hrecords : records (l :: rest) = l.key ++ '=' ::
      ((trimRight l.value).takeWhile (· ≠ '\t') ++ ['#'] ++ records rest) := by
    simp [records, InputLine.record]
  rw [hrecords, takeWhile_ne_append (l.not_mem_key (by decide) (by decide) (by decide))]
  rfl

theorem write_masters (i : ℕ) (buf : Text) (w : BlockWriter) :
    (w.write i buf).masters = w.masters := by
  rw [write_eq]
  split_ifs
  all_goals rfl

theorem flush_masters (i : ℕ) (hbuffer : w.buffer = records cur) (hcur : cur ≠ []) :
    (w.flush i).masters = w.masters ++ (firstText cur ++ ['#']) := by
  rw [← takeWhile_records hcur, ← hbuffer, ← List.append_assoc]
  exact write_masters i _ _

theorem writeLast_masters (i : ℕ) (hbuffer : w.buffer = records cur) (hcur : cur ≠ []) :
    (w.writeLast i).masters = w.masters ++ (firstText cur ++ ['#']) := by
  have hne : w.buffer.length ≠ 0 := by
    rw [hbuffer, Ne, List.length_eq_zero_iff, records_eq_nil_iff]
    exact hcur
  rw [BlockWriter.writeLast, if_pos hne, ← takeWhile_records hcur, ← hbuffer, ← List.append_assoc]
  exact write_masters i _ _

/-- **The loop of `batchedWrite`.** The lines go into blocks, and `masters` has the first key of
each block. -/
theorem writeLoop_packs (lines : List InputLine) (i : ℕ) (w : BlockWriter) (cur : List InputLine)
    (hbuffer : w.buffer = records cur) :
    ∃ w' calls blocks, BlockWriter.writeLoop (lines.map InputLine.text) i w = some w' ∧
      issuedLoop (lines.map InputLine.text) i w.buffer = some calls ∧
      blocks.flatten = cur ++ lines ∧ (∀ b ∈ blocks, b ≠ []) ∧
      List.Forall₂ (fun c b => ∃ n, c.2 = records b ++ List.replicate n '#') calls blocks ∧
      w'.masters = w.masters ++ blocks.flatMap fun b => firstText b ++ ['#'] := by
  induction lines generalizing i w cur with
  | nil =>
    rw [List.map_nil, BlockWriter.writeLoop, issuedLoop, List.append_nil]
    by_cases hcur : cur = []
    · have hempty : w.buffer = [] := hbuffer.trans (records_eq_nil_iff.mpr hcur)
      refine ⟨w, [], [], ?_, by rw [if_pos hempty], hcur.symm, by simp, .nil, by simp⟩
      rw [BlockWriter.writeLast, if_neg (by simp [hempty])]
    · have hne : w.buffer ≠ [] := by
        rw [hbuffer, Ne, records_eq_nil_iff]
        exact hcur
      refine ⟨w.writeLast i, [(i, w.buffer)], [cur], rfl, by rw [if_neg hne], by simp,
        by simpa, ?_, ?_⟩
      · exact .cons ⟨0, by simp [hbuffer]⟩ .nil
      · rw [writeLast_masters i hbuffer hcur]
        simp
  | cons l lines ih =>
    rw [List.map_cons, BlockWriter.writeLoop, issuedLoop, l.recordOf_text, Option.bind_some]
    simp only [handleLine_eq, l.recordOf_text, Option.map_some, Option.bind_some]
    by_cases hfull : blockSize < w.buffer.length + l.text.length
    · simp only [if_pos hfull]
      -- a line of at most a block always fits into an empty one
      have hcur : cur ≠ [] := by
        rintro rfl
        have hshort : l.text.length ≤ blockSize := l.short
        rw [hbuffer] at hfull
        simp [records] at hfull
        omega
      have hnext : (w.flush i).buffer ++ l.record = records [l] := by
        simp [BlockWriter.flush, records]
      obtain ⟨w', calls, blocks, hw', hcalls, hflatten, hne, hbuffers, hmasters⟩ :=
        ih (i + 1) { w.flush i with
          buffer := (w.flush i).buffer ++ l.record
          keys := (w.flush i).keys ++ ((trimRight l.text).splitOn '\t').headD [] ++ ['#'] }
          [l] hnext
      have hrecord : (w.flush i).buffer ++ l.record = l.record := rfl
      rw [hrecord] at hcalls
      refine ⟨w', _, cur :: blocks, hw', Option.map_eq_some_iff.mpr ⟨calls, hcalls, rfl⟩,
        ?_, ?_, ?_, ?_⟩
      · rw [List.flatten_cons, hflatten]
        rfl
      · exact List.forall_mem_cons.mpr ⟨hcur, hne⟩
      · exact .cons ⟨_, by rw [hbuffer]⟩ hbuffers
      · rw [hmasters, flush_masters i hbuffer hcur, List.append_assoc]
        rfl
    · simp only [if_neg hfull]
      have hnext : w.buffer ++ l.record = records (cur ++ [l]) := by
        simp [hbuffer, records]
      obtain ⟨w', calls, blocks, hw', hcalls, hflatten, hne, hbuffers, hmasters⟩ :=
        ih i { w with
          buffer := w.buffer ++ l.record
          keys := w.keys ++ ((trimRight l.text).splitOn '\t').headD [] ++ ['#'] } (cur ++ [l]) hnext
      refine ⟨w', calls, blocks, hw', hcalls, ?_, hne, hbuffers, hmasters⟩
      rw [hflatten, List.append_assoc]
      rfl

end Packing

/-! ## The keys of the blocks -/

section Keys

variable {blocks pre post : List (List InputLine)} {b : List InputLine} {key : ℤ}

theorem isNumeral_firstText (hb : b ≠ []) : IsNumeral (firstText b) (firstKey b) := by
  obtain ⟨l, rest, rfl⟩ := List.exists_cons_of_ne_nil hb
  exact l.isNumeral

/-- The index has the first keys of the blocks. -/
theorem initIndex_masters (hne : ∀ b ∈ blocks, b ≠ []) :
    Index.initIndex (blocks.flatMap fun b => firstText b ++ ['#']) =
      some (blocks.map firstKey) := by
  have hmasters : (blocks.flatMap fun b => firstText b ++ ['#']) =
      (blocks.map firstText).flatMap fun s => s ++ ['#'] := by
    rw [List.flatMap_map]
  have hparts : ∀ s ∈ blocks.map firstText, '#' ∉ s := by
    intro s hs
    obtain ⟨b, hb, rfl⟩ := List.mem_map.mp hs
    exact (isNumeral_firstText (hne b hb)).not_mem (by decide) (by decide) (by decide)
  have hcast : (blocks.map firstText).mapM lexicalCast = some (blocks.map firstKey) := by
    rw [mapM_lexicalCast_eq_some_iff, List.forall₂_map_left_iff, List.forall₂_map_right_iff,
      List.forall₂_same]
    exact fun b hb => isNumeral_firstText (hne b hb)
  rw [Index.initIndex, Index.splitString, Index.words, hmasters, splitOn_terminated hparts]
  cases blocks with
  | nil => rfl
  | cons b blocks =>
    -- nothing is left after the last `#`, so `getline` returns no word for it
    rw [if_neg (by simp), if_pos List.getLast?_concat, List.dropLast_concat, hcast]

theorem exists_firstKey (hb : b ≠ []) : ∃ l ∈ b, firstKey b = l.id := by
  obtain ⟨l, rest, rfl⟩ := List.exists_cons_of_ne_nil hb
  exact ⟨l, List.mem_cons_self, rfl⟩

theorem firstKey_le (hsorted : b.Pairwise fun l l' => l.id < l'.id) {l : InputLine} (hl : l ∈ b) :
    firstKey b ≤ l.id := by
  obtain ⟨first, rest, rfl⟩ := List.exists_cons_of_ne_nil (List.ne_nil_of_mem hl)
  rcases List.mem_cons.mp hl with rfl | hl
  · exact le_rfl
  · exact ((List.pairwise_cons.mp hsorted).1 l hl).le

section Increasing

variable (hne : ∀ b ∈ blocks, b ≠ [])
  (hsorted : blocks.flatten.Pairwise fun l l' => l.id < l'.id)

include hne hsorted

theorem pairwise_firstKey : (blocks.map firstKey).Pairwise (· ≤ ·) := by
  rw [List.pairwise_map]
  refine (List.pairwise_flatten.mp hsorted).2.imp_of_mem fun {b b'} hb hb' hlt => ?_
  obtain ⟨l, hl, heq⟩ := exists_firstKey (hne b hb)
  obtain ⟨l', hl', heq'⟩ := exists_firstKey (hne b' hb')
  rw [heq, heq']
  exact (hlt l hl l' hl').le

/-- A key is above the first keys up to that of its own block, and below those of the blocks
after it. -/
theorem upperBound_of_mem (hblocks : blocks = pre ++ b :: post) {l : InputLine} (hl : l ∈ b) :
    upperBound (blocks.map firstKey) l.id = pre.length + 1 := by
  have hfirsts := upperBound_spec (pairwise_firstKey hne hsorted) l.id
  obtain ⟨hwithin, hbetween⟩ := List.pairwise_flatten.mp hsorted
  subst hblocks
  obtain ⟨-, hrest, hpre⟩ := List.pairwise_append.mp hbetween
  have hpost := (List.pairwise_cons.mp hrest).1
  have hindex :
      (pre ++ b :: post).map firstKey = (pre ++ [b]).map firstKey ++ post.map firstKey := by
    rw [← List.map_append, List.append_assoc]
    rfl
  have hlength : pre.length + 1 = ((pre ++ [b]).map firstKey).length := by
    rw [List.length_map, List.length_append, List.length_singleton]
  rw [hindex] at hfirsts ⊢
  rw [hlength]
  refine hfirsts.unique (isUpperBound_append ?_ ?_)
  · intro x hx
    obtain ⟨b', hb', rfl⟩ := List.mem_map.mp hx
    rcases List.mem_append.mp hb' with hb' | hb'
    · obtain ⟨l', hl', heq⟩ := exists_firstKey (hne b' (List.mem_append_left _ hb'))
      rw [heq]
      exact (hpre b' hb' b List.mem_cons_self l' hl' l hl).le
    · rw [List.mem_singleton.mp hb']
      exact firstKey_le (hwithin b (List.mem_append_right _ List.mem_cons_self)) hl
  · intro x hx
    obtain ⟨b', hb', rfl⟩ := List.mem_map.mp hx
    obtain ⟨l', hl', heq⟩ := exists_firstKey
      (hne b' (List.mem_append_right _ (List.mem_cons_of_mem _ hb')))
    rw [heq]
    exact hpost b' hb' l hl l' hl'

/-- The block before the first one that begins above the key, if there is one. -/
theorem upperBound_cases (key : ℤ) :
    (upperBound (blocks.map firstKey) key = 0 ∧ ∀ b ∈ blocks, key < firstKey b) ∨
      ∃ pre b post, blocks = pre ++ b :: post ∧ firstKey b ≤ key ∧
        (∀ b' ∈ post, key < firstKey b') ∧
        upperBound (blocks.map firstKey) key = pre.length + 1 := by
  obtain ⟨hle, hbefore, hafter⟩ := upperBound_spec (pairwise_firstKey hne hsorted) key
  rcases hbound : upperBound (blocks.map firstKey) key with _ | n
  · rw [hbound, List.drop_zero] at hafter
    exact .inl ⟨rfl, fun b hb => hafter _ (List.mem_map_of_mem hb)⟩
  · rw [hbound, List.length_map] at hle
    rw [hbound, ← List.map_take] at hbefore
    rw [hbound, ← List.map_drop] at hafter
    have hn : n < blocks.length := hle
    refine .inr ⟨blocks.take n, blocks[n], blocks.drop (n + 1), ?_, ?_, ?_, ?_⟩
    · rw [← List.drop_eq_getElem_cons hn, List.take_append_drop]
    · refine hbefore _ (List.mem_map_of_mem ?_)
      rw [List.take_succ_eq_append_getElem hn]
      exact List.mem_append_right _ List.mem_cons_self
    · exact fun b' hb' => hafter _ (List.mem_map_of_mem hb')
    · rw [List.length_take, Nat.min_eq_left hn.le]

end Increasing

end Keys

/-! ## Routing -/

/-- The value of an `int` that has been counted up to `n`. -/
def intOf (n : ℕ) : ℤ := (n : ℤ).bmod (2 ^ 32)

theorem intOf_of_lt {n : ℕ} (hn : n < 2 ^ 31) : intOf n = n := by
  unfold intOf
  rw [Int.bmod_def]
  omega

theorem getBlockAddr_zero {index : List ℤ} {key : ℤ} (h : upperBound index key = 0) :
    Index.getBlockAddr index key = -1 := by
  unfold Index.getBlockAddr
  rw [h]
  decide

theorem getBlockAddr_succ {index : List ℤ} {key : ℤ} {n : ℕ} (h : upperBound index key = n + 1) :
    Index.getBlockAddr index key = intOf n := by
  unfold Index.getBlockAddr intOf
  rw [h, Int.bmod_sub_bmod, Nat.cast_succ, add_sub_cancel_right]

/-- What `getBlockAddr` returns: for a key of the file the number of the block that has its
record, and for any other key the number of the last block that begins below it, or `-1`. -/
structure Routes (index : List ℤ) (blocks : List (List InputLine)) : Prop where
  of_mem : ∀ pre b post, blocks = pre ++ b :: post → ∀ l ∈ b,
    Index.getBlockAddr index l.id = intOf pre.length
  of_not_mem : ∀ key, (∀ l ∈ blocks.flatten, l.id ≠ key) →
    (Index.getBlockAddr index key = -1 ∧ ∀ b ∈ blocks, key < firstKey b) ∨
      ∃ pre b post, blocks = pre ++ b :: post ∧ Index.getBlockAddr index key = intOf pre.length ∧
        firstKey b < key ∧ ∀ b' ∈ post, key < firstKey b'

theorem routes_of_sorted {blocks : List (List InputLine)} (hne : ∀ b ∈ blocks, b ≠ [])
    (hsorted : blocks.flatten.Pairwise fun l l' => l.id < l'.id) :
    Routes (blocks.map firstKey) blocks where
  of_mem pre b post hblocks l hl := getBlockAddr_succ (upperBound_of_mem hne hsorted hblocks hl)
  of_not_mem key hkey := by
    rcases upperBound_cases hne hsorted key with ⟨hzero, habove⟩ | hsome
    · exact .inl ⟨getBlockAddr_zero hzero, habove⟩
    · obtain ⟨pre, b, post, hblocks, hle, habove, hbound⟩ := hsome
      refine .inr ⟨pre, b, post, hblocks, getBlockAddr_succ hbound, lt_of_le_of_ne hle ?_, habove⟩
      have hb : b ∈ blocks := hblocks ▸ List.mem_append_right _ List.mem_cons_self
      obtain ⟨l, hl, heq⟩ := exists_firstKey (hne b hb)
      rw [heq]
      exact hkey l (List.mem_flatten.mpr ⟨b, hb, hl⟩)

/-- **Block routing.** `batchedWrite` packs the lines of a file into blocks, and an index
initialised from its `masters` finds the block of every key. With fewer than 2^31 blocks the
numbers it returns are those of the blocks. -/
theorem block_routing (file : InputFile) :
    ∃ w calls index blocks,
      BlockWriter.batchedWrite (file.lines.map InputLine.text) = some w ∧
      issued (file.lines.map InputLine.text) = some calls ∧
      w.out = (calls.foldl (fun w c => w.write c.1 c.2) BlockWriter.new).out ∧
      Packs calls blocks file.lines ∧
      Index.initIndex w.masters = some index ∧ Routes index blocks ∧
      (blocks.length ≤ 2 ^ 31 → ∀ n < blocks.length, intOf n = n) := by
  obtain ⟨w, calls, blocks, hw, hcalls, hflatten, hne, hbuffers, hmasters⟩ :=
    writeLoop_packs file.lines 0 BlockWriter.new [] rfl
  have hout := writeLoop_out (file.lines.map InputLine.text) 0 BlockWriter.new
  rw [hw, hcalls] at hout
  rw [List.nil_append] at hflatten
  have hsorted : blocks.flatten.Pairwise fun l l' => l.id < l'.id := by
    rw [hflatten, ← List.pairwise_map]
    exact file.increasing
  have hpacks : Packs calls blocks file.lines := by
    refine ⟨hflatten, hne, ?_, hbuffers⟩
    rw [issuedLoop_fst hcalls, hbuffers.length_eq, List.range_eq_range']
  refine ⟨w, calls, _, blocks, hw, hcalls, Option.some.inj hout, hpacks, ?_,
    routes_of_sorted hne hsorted, fun hlen n hn => intOf_of_lt (hn.trans_le hlen)⟩
  rw [hmasters]
  exact initIndex_masters hne

/-! ## A file of two blocks -/

theorem trimRight_replicate (n : ℕ) : trimRight (List.replicate n 'x') = List.replicate n 'x' := by
  cases n with
  | zero => rfl
  | succ n =>
    have hx : ¬ isSpace 'x' := by decide
    rw [List.replicate_succ', trimRight, List.rdropWhile_concat_neg _ _ _ hx]

theorem InputLine.length_text (l : InputLine) :
    l.text.length = l.key.length + (l.value.length + 1) := by
  rw [text, List.length_append, List.length_cons]

theorem InputLine.length_record (l : InputLine) (hright : trimRight l.value = l.value)
    (htab : '\t' ∉ l.value) : l.record.length = l.key.length + 1 + l.value.length + 1 := by
  rw [record, hright, takeWhile_ne_eq_self htab, List.length_append, List.length_append,
    List.length_append, List.length_singleton, List.length_singleton]

/-- A value that takes more than half of a block. -/
@[irreducible] def longValue : Text := List.replicate 5000 'x'

theorem length_longValue : longValue.length = 5000 := by rw [longValue, List.length_replicate]

theorem trimRight_longValue : trimRight longValue = longValue := by
  rw [longValue, trimRight_replicate]

theorem tab_notMem_longValue : '\t' ∉ longValue := by
  rw [longValue, List.mem_replicate]
  decide

def longLine (digit : Char) (hdigit : digit.isDigit = true) (hlong : IsLong (decimal [digit])) :
    InputLine where
  key := [digit]
  value := longValue
  id := decimal [digit]
  isNumeral := .unsigned (isDigits_singleton hdigit) hlong
  not_blank := by
    rw [trimRight_longValue]
    exact List.ne_nil_of_length_eq_add_one length_longValue
  short := by
    rw [List.length_append, List.length_cons, List.length_cons, length_longValue]
    decide

/-- Two lines that are too long for one block. -/
theorem issued_pair {l l' : InputLine} (hright : trimRight l.value = l.value)
    (htab : '\t' ∉ l.value) (hlong : blockSize < l.value.length + l'.value.length) :
    issued [l.text, l'.text] =
      some [(0, l.record ++ List.replicate (blockSize - l.record.length) '#'), (1, l'.record)] := by
  have hempty : ¬ blockSize < ([] : Text).length + l.text.length := by
    have hshort : l.text.length ≤ blockSize := l.short
    rw [List.length_nil]
    omega
  have hfull : blockSize < l.record.length + l'.text.length := by
    rw [l.length_record hright htab, l'.length_text]
    omega
  have hrecord : l'.record ≠ [] := by simp [InputLine.record]
  rw [issued, issuedLoop, l.recordOf_text, Option.bind_some, if_neg hempty, List.nil_append,
    issuedLoop, l'.recordOf_text, Option.bind_some, if_pos hfull, issuedLoop, if_neg hrecord]
  rfl

/-- The lines with the keys `2` and `5`. -/
def twoLines : InputFile where
  lines := [longLine '2' rfl (by decide), longLine '5' rfl (by decide)]
  increasing := by decide

theorem block_routing_two_blocks : ∃ w index,
    BlockWriter.batchedWrite (twoLines.lines.map InputLine.text) = some w ∧
      Index.initIndex w.masters = some index ∧
      Index.getBlockAddr index 2 = 0 ∧ Index.getBlockAddr index 5 = 1 ∧
      Index.getBlockAddr index 1 = -1 ∧ Index.getBlockAddr index 3 = 0 := by
  obtain ⟨w, calls, index, blocks, hw, hcalls, -, hpacks, hindex, hroutes, -⟩ :=
    block_routing twoLines
  have hlong : blockSize < longValue.length + longValue.length := by
    rw [length_longValue]
    decide
  obtain rfl := Option.some.inj (hcalls.symm.trans
    (issued_pair trimRight_longValue tab_notMem_longValue hlong))
  -- two calls are two blocks, and no block is empty
  obtain ⟨b, b', rfl⟩ := List.length_eq_two.mp hpacks.buffers.length_eq.symm
  have hflatten : b ++ b' = twoLines.lines := by simpa using hpacks.flatten_eq
  have hb : b.length ≠ 0 := fun h => hpacks.ne_nil b (by simp) (List.length_eq_zero_iff.mp h)
  have hb' : b'.length ≠ 0 := fun h => hpacks.ne_nil b' (by simp) (List.length_eq_zero_iff.mp h)
  have hlength : b.length + b'.length = 2 := by
    rw [← List.length_append, hflatten]
    rfl
  have hone : b.length = 1 := by omega
  obtain ⟨l, rfl⟩ := List.length_eq_one_iff.mp hone
  obtain ⟨rfl, rfl⟩ := List.cons.inj hflatten
  have htwo := hroutes.of_mem [] _ _ rfl _ (List.mem_singleton.mpr rfl)
  have hfive := hroutes.of_mem [_] _ _ rfl _ (List.mem_singleton.mpr rfl)
  refine ⟨w, index, hw, hindex, htwo, hfive, ?_, ?_⟩
  · rcases hroutes.of_not_mem 1 (by decide) with ⟨hnone, -⟩ | ⟨pre, b, post, hblocks, -, hlt, -⟩
    · exact hnone
    · have hmem : b ∈ pre ++ b :: post := List.mem_append_right _ List.mem_cons_self
      rw [← hblocks, List.mem_pair] at hmem
      rcases hmem with rfl | rfl <;> exact absurd hlt (by decide)
  · rcases hroutes.of_not_mem 3 (by decide)
      with ⟨-, habove⟩ | ⟨pre, b, post, hblocks, haddr, hlt, -⟩
    · exact absurd (habove _ List.mem_cons_self) (by decide)
    · rcases pre with _ | ⟨b₀, pre⟩
      · exact haddr
      -- a block with one before it is the second one, which begins with `5`
      · have hrest : [[longLine '5' rfl (by decide)]] = pre ++ b :: post :=
          (List.cons.inj hblocks).2
        have hmem : b ∈ pre ++ b :: post := List.mem_append_right _ List.mem_cons_self
        rw [← hrest, List.mem_singleton] at hmem
        exact absurd hlt (by rw [hmem]; decide)
end MaiterStore
