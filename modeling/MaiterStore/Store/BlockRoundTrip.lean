/-
# What is read back of a file of blocks

`BlockWriter::batchedWrite` writes each block at its own offset, so at the index of a block
the file has what was in the buffer, cut off at the end of the block. `Written` says so
while the loop runs and `Stored` when it is done, for the blocks whose offset is an `int`.

A block is read back if it has been filled up by three or more `#`.
-/

import MaiterStore.Store.Block

namespace MaiterStore

open CS.BlockFile

/-! ## What is written -/

/-- The number of blocks whose offset is an `int`. -/
def maxBlocks : ℕ := 2 ^ 18

/-- The file has the blocks, up to the first one whose offset is negative. The last of them
may run over by the `#` at the end of its last record. -/
structure Written (out : OutStream) (blocks : List (List Record)) : Prop where
  failed : out.failed = decide (maxBlocks < blocks.length)
  holds : Holds blockSize out.bytes ((blocks.take maxBlocks).map filled)
  overrun : out.bytes.length ≤ (blocks.take maxBlocks).length * blockSize + 1

theorem one_lt_blockSize : 1 < blockSize := by
  unfold blockSize
  omega

theorem written_nil : Written ⟨[], false⟩ [] where
  failed := (decide_eq_false (Nat.not_lt_zero _)).symm
  holds := by
    rw [List.take_nil, List.map_nil]
    exact holds_nil (Nat.zero_lt_one.trans one_lt_blockSize)
  overrun := by
    rw [List.length_nil]
    exact Nat.zero_le _

theorem offset_eq {i : ℕ} (hi : i < maxBlocks) :
    ((i * blockSize : ℕ) : ℤ).bmod (2 ^ 32) = (i * blockSize : ℕ) := by
  unfold maxBlocks blockSize at *
  rw [Int.bmod_def]
  omega

theorem offset_maxBlocks : ((maxBlocks * blockSize : ℕ) : ℤ).bmod (2 ^ 32) < 0 := by
  decide

theorem length_filled {b : List Record} (hlen : (packed b).length ≤ blockSize + 1) :
    blockSize ≤ (filled b).length ∧ (filled b).length ≤ blockSize + 1 := by
  rw [filled, List.length_append, List.length_replicate]
  omega

namespace BlockWriter

variable {w : BlockWriter} {blocks : List (List Record)} {cur : List Record} {buf : Text} {i : ℕ}

theorem write_of_lt (hi : i < maxBlocks) (hfailed : w.out.failed = false) :
    (w.write i buf).out = ⟨writeAt '\x00' w.out.bytes (i * blockSize) buf, false⟩ := by
  have hoffset := offset_eq hi
  simp only [write, hfailed, hoffset, Int.toNat_natCast]
  rw [if_neg Bool.false_ne_true, if_neg (by omega)]

theorem write_maxBlocks (hfailed : w.out.failed = false) :
    (w.write maxBlocks buf).out = { w.out with failed := true } := by
  simp only [write, hfailed]
  rw [if_neg Bool.false_ne_true, if_pos offset_maxBlocks]

theorem write_of_failed (hfailed : w.out.failed = true) : (w.write i buf).out = w.out := by
  rw [write, if_pos hfailed]

/-- A full block is appended to those that are written. -/
theorem written_write (h : Written w.out blocks) (hlen : (packed cur).length ≤ blockSize + 1) :
    Written (w.write blocks.length (filled cur)).out (blocks ++ [cur]) := by
  obtain ⟨hfull, hover⟩ := length_filled hlen
  have hlength : (blocks ++ [cur]).length = blocks.length + 1 := by
    rw [List.length_append, List.length_singleton]
  -- there is room for the block, or the stream fails at it or has failed before
  rcases lt_or_ge blocks.length maxBlocks with hlt | hge
  · have htake : blocks.take maxBlocks = blocks := List.take_of_length_le hlt.le
    have htake' : (blocks ++ [cur]).take maxBlocks = blocks ++ [cur] :=
      List.take_of_length_le (hlength ▸ hlt)
    obtain ⟨hfailed, hholds, hrest⟩ := h
    rw [htake] at hholds hrest
    rw [decide_eq_false hlt.not_gt] at hfailed
    have hnext := hholds.writeAt '\x00' hfull (hover.trans_lt (by linarith [one_lt_blockSize]))
    have hlast := hholds.length_writeAt '\x00' (filled cur) (by
      rw [List.length_map]
      linarith [one_lt_blockSize])
    rw [List.length_map] at hnext hlast
    rw [write_of_lt hlt hfailed]
    refine ⟨(decide_eq_false (hlength ▸ (Nat.succ_le_of_lt hlt).not_gt)).symm, ?_, ?_⟩
    · rw [htake', List.map_append]
      exact hnext
    · rw [htake', hlength, hlast, Nat.succ_mul]
      omega
  · have htake : (blocks ++ [cur]).take maxBlocks = blocks.take maxBlocks :=
      List.take_append_of_le_length hge
    have hout : (w.write blocks.length (filled cur)).out = { w.out with failed := true } := by
      rcases hge.eq_or_lt with heq | hgt
      · rw [← heq]
        exact write_maxBlocks (by rw [h.failed, decide_eq_false heq.not_lt])
      · have hfailed : w.out.failed = true := by rw [h.failed, decide_eq_true hgt]
        rw [write_of_failed hfailed, ← hfailed]
    rw [hout]
    refine ⟨(decide_eq_true (hlength ▸ Nat.lt_succ_of_le hge)).symm, ?_, ?_⟩
    · rw [htake]
      exact h.holds
    · rw [htake]
      exact h.overrun

end BlockWriter

/-- What the file has at the index of each block, after `batchedWrite`. -/
structure Stored (bytes : List Char) (blocks : List (List Record)) : Prop where
  full : ∀ i (hi : i + 1 < blocks.length), i < maxBlocks →
    blockAt blockSize bytes i = (filled (blocks.get ⟨i, Nat.lt_of_succ_lt hi⟩)).take blockSize
  last : ∀ i (hi : i < blocks.length), i + 1 = blocks.length → i < maxBlocks →
    blockAt blockSize bytes i = (packed (blocks.get ⟨i, hi⟩)).take blockSize
  beyond : ∀ i, maxBlocks ≤ i → i < blocks.length → (blockAt blockSize bytes i).length ≤ 1

namespace BlockWriter

variable {w : BlockWriter} {blocks : List (List Record)} {cur : List Record}

/-- The last block is written as it is. -/
theorem stored_write_last (h : Written w.out blocks) (hcur : packed cur ≠ []) :
    Stored (w.write blocks.length (packed cur)).out.bytes (blocks ++ [cur]) := by
  have hlength : (blocks ++ [cur]).length = blocks.length + 1 := by
    rw [List.length_append, List.length_singleton]
  have hpos : 0 < (packed cur).length := List.length_pos_of_ne_nil hcur
  obtain ⟨hfailed, hholds, hrest⟩ := h
  -- the block is written behind the others, or the stream does not write it any more
  rcases lt_or_ge blocks.length maxBlocks with hlt | hge
  · rw [List.take_of_length_le hlt.le] at hholds hrest
    rw [decide_eq_false hlt.not_gt] at hfailed
    obtain ⟨hbefore, hat⟩ := hholds.blockAt_writeAt '\x00' (packed cur) (by
      rw [List.length_map]
      omega)
    rw [List.length_map] at hbefore hat
    rw [write_of_lt hlt hfailed]
    refine ⟨fun i hi _ => ?_, fun i hi heq _ => ?_, fun i hi hi' => by omega⟩
    · have hi' : i < blocks.length := by omega
      rw [hbefore i hi', hholds.blockAt_eq (by simpa using hi')]
      simp [List.getElem_append_left hi']
    · obtain rfl : i = blocks.length := by omega
      rw [hat]
      simp
  · have hbytes : (w.write blocks.length (packed cur)).out.bytes = w.out.bytes := by
      rcases hge.eq_or_lt with heq | hgt
      · rw [← heq, write_maxBlocks (by rw [hfailed, decide_eq_false heq.not_lt])]
      · rw [write_of_failed (by rw [hfailed, decide_eq_true hgt])]
    have htake : (blocks.take maxBlocks).length = maxBlocks := by
      rw [List.length_take, Nat.min_eq_left hge]
    rw [hbytes]
    refine ⟨fun i hi hmax => ?_, fun i hi heq _ => by omega, fun i hi _ => ?_⟩
    · have hi' : i < blocks.length := hmax.trans_le hge
      rw [hholds.blockAt_eq (by rw [List.length_map, htake]; exact hmax)]
      simp [List.getElem_append_left hi']
    · rw [htake] at hrest
      rw [blockAt, List.length_take, List.length_drop]
      have hle := Nat.mul_le_mul_right blockSize hi
      omega

theorem written_flush (h : Written w.out blocks) (hbuffer : w.buffer = packed cur)
    (hlen : (packed cur).length ≤ blockSize + 1) :
    Written (w.flush blocks.length).out (blocks ++ [cur]) := by
  have hfill : ((w.setMasters w.buffer).fillBuffer).buffer = filled cur := by
    rw [filled, ← hbuffer]
    rfl
  have hout : (w.flush blocks.length).out =
      (((w.setMasters w.buffer).fillBuffer).write blocks.length (filled cur)).out := by
    rw [← hfill]
    rfl
  rw [hout]
  exact written_write h hlen

/-- What `handleLine` makes of a line. -/
theorem handleLine_line {r : Record} (h : r.IsLine) (w : BlockWriter) :
    w.handleLine r.line = some (r.text, { w with keys := w.keys ++ r.key ++ ['#'] }) := by
  obtain ⟨v, d, hvalue, hd⟩ := h.value_chars.2
  have htrim : trimRight r.line = r.line := by
    rw [trimRight, Record.line, hvalue, ← List.append_assoc]
    exact List.rdropWhile_concat_neg _ _ _ (by simp [isSpace_of_isDigit hd])
  have hsplit : r.line.splitOn '\t' = [r.key, r.value] := by
    obtain ⟨hkey, hvalue⟩ := h.not_mem (c := '\t') (by decide) (by decide)
    have hline : r.line = ['\t'].intercalate [r.key, r.value] := by
      rw [List.intercalate_cons_cons, List.intercalate_singleton, Record.line]
    rw [hline, List.splitOn_intercalate _ (by simp [hkey, hvalue]) (by simp)]
  rw [handleLine, htrim, hsplit]
  rfl

theorem writeLast_out (hne : w.buffer.length ≠ 0) (i : ℕ) :
    (w.writeLast i).out = ((w.setMasters w.buffer).write i w.buffer).out := by
  rw [writeLast, if_pos hne]
  rfl

theorem packed_ne_nil (hcur : cur ≠ []) : packed cur ≠ [] := by
  rw [packed_eq_intercalate hcur]
  exact List.append_ne_nil_of_right_ne_nil _ (List.cons_ne_nil _ _)

/-- **The loop of `batchedWrite`.** The file gets the blocks of the packing. -/
theorem writeLoop_spec {rs : List Record} (hrs : ∀ r ∈ rs, r.IsLine)
    (h : Written w.out blocks) (hbuffer : w.buffer = packed cur)
    (hlen : (packed cur).length ≤ blockSize + 1) (hfirst : cur = [] → blocks = []) :
    ∃ w', writeLoop (rs.map Record.line) blocks.length w = some w' ∧
      Stored w'.out.bytes (blocks ++ packLoop rs cur) := by
  induction rs generalizing w blocks cur with
  | nil =>
    refine ⟨w.writeLast blocks.length, rfl, ?_⟩
    rw [packLoop]
    -- with nothing in the buffer no line was read, and the file is empty
    by_cases hcur : cur = []
    · rw [if_pos hcur, hfirst hcur, List.append_nil]
      exact ⟨fun _ hi => absurd hi (Nat.not_lt_zero _), fun _ hi => absurd hi (Nat.not_lt_zero _),
        fun _ _ hi => absurd hi (Nat.not_lt_zero _)⟩
    · have hne : w.buffer.length ≠ 0 := by
        rw [hbuffer]
        exact mt List.length_eq_zero_iff.mp (packed_ne_nil hcur)
      rw [if_neg hcur, writeLast_out hne, hbuffer]
      exact stored_write_last h (packed_ne_nil hcur)
  | cons r rs ih =>
    have hr := hrs r List.mem_cons_self
    have hrs' : ∀ r' ∈ rs, r'.IsLine := fun r' hr' => hrs r' (List.mem_cons_of_mem _ hr')
    rw [List.map_cons, writeLoop, packLoop, hbuffer]
    by_cases hfull : blockSize < (packed cur).length + r.line.length
    · -- the block is full, and the line is the first of the next one
      simp only [if_pos hfull]
      rw [handleLine_line hr, Option.bind_some]
      have hcur : cur ≠ [] := by
        rintro rfl
        exact absurd hr.short (by simpa [packed] using hfull.not_gt)
      have hpacked : packed [r] = r.text := by simp [packed]
      have hshort : (packed [r]).length ≤ blockSize + 1 := by
        rw [hpacked, r.length_text]
        exact Nat.succ_le_succ hr.short.le
      let next : BlockWriter := { w.flush blocks.length with
        buffer := r.text, keys := (w.flush blocks.length).keys ++ r.key ++ ['#'] }
      obtain ⟨w', hw', hstored⟩ := ih hrs' (w := next) (written_flush h hbuffer hlen)
        hpacked.symm hshort (by simp)
      rw [List.append_assoc] at hstored
      rw [List.length_append] at hw'
      exact ⟨w', hw', hstored⟩
    · -- the line still fits, and the block with it has at most one byte too many
      simp only [if_neg hfull]
      rw [handleLine_line hr, Option.bind_some]
      have hpacked : packed (cur ++ [r]) = packed cur ++ r.text := by simp [packed]
      have hshort : (packed (cur ++ [r])).length ≤ blockSize + 1 := by
        rw [hpacked, List.length_append, r.length_text]
        omega
      exact ih hrs' h (by rw [hpacked, hbuffer]) hshort (by simp)

end BlockWriter

/-! ## Which blocks are read back -/

section RoundTrip

variable {rs cur : List Record}

theorem packLoop_flatten (rs cur : List Record) : (packLoop rs cur).flatten = cur ++ rs := by
  induction rs generalizing cur with
  | nil =>
    rw [packLoop]
    split_ifs with hcur
    · rw [hcur]
      rfl
    · simp
  | cons r rs ih =>
    rw [packLoop]
    split_ifs
    · rw [List.flatten_cons, ih]
      simp
    · rw [ih]
      simp

theorem packLoop_ne_nil (hrs : ∀ r ∈ rs, r.IsLine) {b : List Record} (hb : b ∈ packLoop rs cur) :
    b ≠ [] := by
  induction rs generalizing cur with
  | nil =>
    rw [packLoop] at hb
    split_ifs at hb with hcur
    · exact absurd hb List.not_mem_nil
    · exact List.mem_singleton.mp hb ▸ hcur
  | cons r rs ih =>
    have hrs' : ∀ r' ∈ rs, r'.IsLine := fun r' hr' => hrs r' (List.mem_cons_of_mem _ hr')
    rw [packLoop] at hb
    split_ifs at hb with hfull
    · rcases List.mem_cons.mp hb with rfl | hb
      · rintro rfl
        exact absurd (hrs r List.mem_cons_self).short (by simpa [packed] using hfull.not_gt)
      · exact ih hrs' hb
    · exact ih hrs' hb

theorem blockText_isPrefix (bytes : List Char) (i : ℕ) :
    blockText bytes i <+: blockAt blockSize bytes i :=
  List.takeWhile_prefix _

/-- A block that is not the last one, with room for three more `#`, is read back. -/
theorem readsBack_filled {b : List Record} (hb : ∀ r ∈ b, r.IsLine) (hne : b ≠ [])
    (hroom : (packed b).length + 3 ≤ blockSize) {bytes : List Char} {i : ℕ}
    (hat : blockAt blockSize bytes i = (filled b).take blockSize) : ReadsBack bytes i b := by
  have hlen : (filled b).length = blockSize := by
    rw [filled, List.length_append, List.length_replicate]
    omega
  have hnul : ∀ c ∈ filled b, decide (c ≠ '\x00') = true := by
    intro c hc
    rw [decide_eq_true_eq]
    rintro rfl
    rw [filled, packed, List.mem_append, List.mem_flatMap, List.mem_replicate] at hc
    rcases hc with ⟨r, hr, hc⟩ | ⟨-, hc⟩
    · have hbody := (hb r hr).not_mem_body (c := '\x00') (by decide) (by decide) (by decide)
      rcases List.mem_append.mp hc with hc | hc
      · exact hbody hc
      · exact absurd (List.mem_singleton.mp hc) (by decide)
    · exact absurd hc (by decide)
  refine ⟨1, ?_⟩
  rw [blockText, hat, List.take_of_length_le hlen.le, List.takeWhile_eq_self_iff.mpr hnul, filled]
  exact getRecordList_filled hb hne (by omega)

/-- **The blocks that are read back.** -/
theorem readsBack_iff {bytes : List Char} {blocks : List (List Record)}
    (hstored : Stored bytes blocks) (hlines : ∀ b ∈ blocks, ∀ r ∈ b, r.IsLine)
    (hne : ∀ b ∈ blocks, b ≠ []) (i : ℕ) (hi : i < blocks.length) :
    ReadsBack bytes i (blocks.get ⟨i, hi⟩) ↔ i + 1 < blocks.length ∧
      (packed (blocks.get ⟨i, hi⟩)).length + 3 ≤ blockSize ∧ i < maxBlocks := by
  have hmem : blocks.get ⟨i, hi⟩ ∈ blocks := List.get_mem _ _
  generalize hget : blocks.get ⟨i, hi⟩ = b at hmem
  have hb := hlines b hmem
  constructor
  · rintro ⟨rounds, hread⟩
    by_contra hcond
    refine Option.some_ne_none b (hread.symm.trans ?_)
    -- the end marker is cut off, never written, or lies behind the end of the file
    rcases lt_or_ge i maxBlocks with hmax | hmax
    · rcases Nat.lt_or_ge (i + 1) blocks.length with hlt | hge
      · -- at most two `#` were added
        have hfull := hstored.full i hlt hmax
        rw [hget] at hfull
        refine getRecordList_crowded hb (f := blockSize - (packed b).length) (by omega) ?_ rounds
        exact (blockText_isPrefix bytes i).trans (hfull ▸ List.take_prefix _ _)
      · have hlast := hstored.last i hi (by omega) hmax
        rw [hget] at hlast
        refine getRecordList_crowded hb (f := 0) (Nat.zero_le 2) ?_ rounds
        rw [List.replicate_zero, List.append_nil]
        exact (blockText_isPrefix bytes i).trans (hlast ▸ List.take_prefix _ _)
    · refine KVReader.getRecordList_eq_none (fun hmarker => ?_) rounds
      have hlen := (hmarker.trans (blockText_isPrefix bytes i).isInfix).length_le
      have hend : endMarker.length = 4 := rfl
      linarith [hstored.beyond i hmax hi]
  · rintro ⟨hlt, hroom, hmax⟩
    exact readsBack_filled hb (hne b hmem) hroom (hget ▸ hstored.full i hlt hmax)

/-- What `batchedWrite` stores, and what is read back of it. -/
theorem batchedWrite_spec (hrs : ∀ r ∈ rs, r.IsLine) :
    ∃ w, BlockWriter.batchedWrite (rs.map Record.line) = some w ∧
      ∀ i (hi : i < (pack rs).length), ReadsBack w.out.bytes i ((pack rs).get ⟨i, hi⟩) ↔
        i + 1 < (pack rs).length ∧ (packed ((pack rs).get ⟨i, hi⟩)).length + 3 ≤ blockSize ∧
          i < maxBlocks := by
  obtain ⟨w, hw, hstored⟩ := BlockWriter.writeLoop_spec (w := .new) hrs written_nil
    (rfl : _ = packed []) (Nat.zero_le _) fun _ => rfl
  rw [List.nil_append] at hstored
  refine ⟨w, hw, readsBack_iff hstored (fun b hb r hr => hrs r ?_)
    fun b hb => packLoop_ne_nil hrs hb⟩
  have hmem : r ∈ (packLoop rs []).flatten := List.mem_flatten.mpr ⟨b, hb, hr⟩
  rwa [packLoop_flatten] at hmem

/-- **The block format.** Each line is packed into one block, in order. A block is read back
exactly if it is not the last one, its records leave three bytes of it, and its offset is an
`int`. So all blocks are read back only if there are none. -/
theorem block_read_back_iff (hrs : ∀ r ∈ rs, r.IsLine) :
    ∃ w, BlockWriter.batchedWrite (rs.map Record.line) = some w ∧ (pack rs).flatten = rs ∧
      (∀ i (hi : i < (pack rs).length), ReadsBack w.out.bytes i ((pack rs).get ⟨i, hi⟩) ↔
        i + 1 < (pack rs).length ∧ (packed ((pack rs).get ⟨i, hi⟩)).length + 3 ≤ blockSize ∧
          i < maxBlocks) ∧
      ((∀ i (hi : i < (pack rs).length), ReadsBack w.out.bytes i ((pack rs).get ⟨i, hi⟩)) ↔
        rs = []) := by
  obtain ⟨w, hw, hread⟩ := batchedWrite_spec hrs
  have hflatten : (pack rs).flatten = rs := packLoop_flatten rs []
  refine ⟨w, hw, hflatten, hread, fun hall => ?_, ?_⟩
  · rcases Nat.eq_zero_or_pos (pack rs).length with hzero | hpos
    · rw [← hflatten, List.length_eq_zero_iff.mp hzero]
      rfl
    · -- the last block is not read back
      have hlast := (hread _ (Nat.sub_lt hpos Nat.zero_lt_one)).mp (hall _ _)
      omega
  · rintro rfl i hi
    exact absurd hi (Nat.not_lt_zero _)

/-- A record of 5002 bytes, of which a block holds one. -/
def longRecord : Record := ⟨['1'], List.replicate 5000 '7'⟩

theorem longRecord_isLine : longRecord.IsLine where
  key := isDigits_singleton rfl
  value := by
    refine ⟨[List.replicate 5000 '7'], List.cons_ne_nil _ _, List.intercalate_singleton.symm, ?_⟩
    intro s hs
    rw [List.mem_singleton.mp hs]
    refine ⟨List.ne_nil_of_length_pos (by rw [List.length_replicate]; omega), fun c hc => ?_⟩
    rw [List.eq_of_mem_replicate hc]
    decide
  short := by
    simp only [longRecord, Record.line, List.length_append, List.length_replicate,
      List.length_singleton, blockSize]
    omega

theorem length_packed_longRecord : (packed [longRecord]).length = 5003 := by
  rw [packed, List.flatMap_singleton, Record.length_text]
  simp only [longRecord, Record.line, List.length_append, List.length_replicate,
    List.length_singleton]

theorem pack_two_longRecords : pack [longRecord, longRecord] = [[longRecord], [longRecord]] := by
  have hline : longRecord.line.length = 5002 := by
    simp only [longRecord, Record.line, List.length_append, List.length_replicate,
      List.length_singleton]
  have hnil : (packed []).length = 0 := rfl
  rw [pack, packLoop, if_neg (by rw [hnil, hline, blockSize]; omega), List.nil_append, packLoop,
    if_pos (by rw [length_packed_longRecord, hline, blockSize]; omega), packLoop,
    if_neg (List.cons_ne_nil _ _)]

/-- Of two blocks the first one is read back, and the second one is not. -/
theorem block_read_back_iff_two_blocks :
    ∃ w, BlockWriter.batchedWrite ([longRecord, longRecord].map Record.line) = some w ∧
      ReadsBack w.out.bytes 0 [longRecord] ∧ ¬ ReadsBack w.out.bytes 1 [longRecord] := by
  have hlines : ∀ r ∈ [longRecord, longRecord], r.IsLine := by
    intro r hr
    rw [List.mem_pair.mp hr |>.elim id id]
    exact longRecord_isLine
  obtain ⟨w, hw, -, hread, -⟩ := block_read_back_iff hlines
  rw [pack_two_longRecords] at hread
  refine ⟨w, hw, (hread 0 (by decide)).mpr ⟨by decide, ?_, by decide⟩, fun hback => ?_⟩
  · have hlength := length_packed_longRecord
    change (packed [longRecord]).length + 3 ≤ blockSize
    rw [hlength, blockSize]
    omega
  · exact absurd ((hread 1 (by decide)).mp hback).1 (by decide)

/-- The only block of a file with one line is not read back: the loop that looks for its end
marker does not end. -/
theorem one_line_not_read_back :
    ¬ ∀ rs : List Record, (∀ r ∈ rs, r.IsLine) →
      ∃ w, BlockWriter.batchedWrite (rs.map Record.line) = some w ∧
        (∀ i (hi : i < (pack rs).length), ReadsBack w.out.bytes i ((pack rs).get ⟨i, hi⟩)) ∧
          (pack rs).flatten = rs := by
  intro h
  have hline : ∀ r ∈ [(⟨['1'], ['2']⟩ : Record)], r.IsLine := by
    intro r hr
    rw [List.mem_singleton.mp hr]
    refine ⟨isDigits_singleton rfl, ⟨[['2']], List.cons_ne_nil _ _, rfl, fun s hs => ?_⟩, by decide⟩
    rw [List.mem_singleton.mp hs]
    exact isDigits_singleton rfl
  obtain ⟨w, hw, hread, -⟩ := h [⟨['1'], ['2']⟩] hline
  obtain ⟨w', hw', hiff⟩ := batchedWrite_spec hline
  obtain rfl : w = w' := Option.some.inj (hw.symm.trans hw')
  have hlast := (hiff 0 (by decide)).mp (hread 0 (by decide))
  exact absurd hlast.1 (by decide)

end RoundTrip

end MaiterStore
