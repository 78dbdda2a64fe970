/-
# Compressed files

`LZOFile` (`util/file.cc`) collects what is written in a block of `kBlockSize` bytes and
puts the compressed block into a `LocalFile`, behind its compressed size. A piece that does
not fit into the block is preceded by the block as it is. The reader keeps one block and a
position in it.

The strings that have been written, one after the other, are a stream. The invariant of the
writer is that this stream is the blocks in the file and then the open block. The reader is
at a suffix of it.
-/

import MaiterStore.Util.RecordFile

namespace MaiterStore

open CS.Framing CS.Run

namespace LZOFile

def kBlockSize : ℕ := 512000

def kCompressedBlockSize : ℕ := kBlockSize + kBlockSize / 16 + 64 + 3

/-- A block that is written. -/
def IsBlock (b : Bytes) : Prop := 1 ≤ b.length ∧ b.length ≤ kBlockSize

end LZOFile

/-- The compression library: `lzo1x_1_15_compress`, and `lzo1x_decompress_safe` into
`kBlockSize` bytes, with `none` for a result that is not 0. -/
structure Lzo where
  compress : Bytes → Bytes
  decompress : Bytes → Option Bytes
  /-- Decompression inverts the compression of a block. -/
  decompress_compress : ∀ b, LZOFile.IsBlock b → decompress (compress b) = some b
  /-- The size of a compressed block. -/
  length_compress : ∀ b, LZOFile.IsBlock b →
    0 < (compress b).length ∧ (compress b).length ≤ LZOFile.kCompressedBlockSize

/-- Compression of a block of up to 20 bytes: one run of literal bytes and the end marker.
Longer blocks are kept as they are. -/
def literalLzo : Lzo where
  compress b := if b.length ≤ 20 then UInt8.ofNat (17 + b.length) :: (b ++ [17, 0, 0]) else 0 :: b
  decompress
    | [] => none
    | t :: c => if t.toNat = 0 then some c else some (c.take (t.toNat - 17))
  decompress_compress b _ := by
    split_ifs with hshort
    · have ht : (UInt8.ofNat (17 + b.length)).toNat = 17 + b.length := by
        rw [UInt8.toNat_ofNat']
        exact Nat.mod_eq_of_lt (by omega)
      simp only [ht]
      rw [if_neg (by omega), Nat.add_sub_cancel_left, List.take_left]
    · rfl
  length_compress b hb := by
    have hle := hb.2
    have hsize : LZOFile.kBlockSize + 4 ≤ LZOFile.kCompressedBlockSize := by decide
    split_ifs <;> simp <;> omega

namespace LZOFile

variable (lzo : Lzo)

/-! ## Writing -/

/-- A file that is written: what has been given to the `LocalFile`, and `block.raw` up to
`block.len`. -/
structure Writer where
  f_ : Bytes
  block : Bytes
  deriving DecidableEq, Repr

/-- A file after `init`. -/
def Writer.new : Writer := ⟨[], []⟩

/-- A compressed block behind its size. -/
def blockBytes (b : Bytes) : Bytes := intBytes (lzo.compress b).length ++ lzo.compress b

/-- `write_block`. -/
def writeBlock (w : Writer) : Writer :=
  if w.block.length = 0 then w else ⟨w.f_ ++ blockBytes lzo w.block, []⟩

/-- One round of the loop of `write`, with the bytes that are left after it. -/
def writeRound (data : Bytes) (w : Writer) : Except FileFault (Bytes × Writer) :=
  if 2 ^ 31 ≤ w.block.length + data.length then .error .overflow
  else
    let w := if kBlockSize < w.block.length + data.length then writeBlock lzo w else w
    let bytesToWrite := min (kBlockSize - w.block.length) data.length
    .ok (data.drop bytesToWrite, ⟨w.f_, w.block ++ data.take bytesToWrite⟩)

/-- The loop of `write`. -/
def writeLoop : ℕ → Bytes → Writer → Except FileFault Writer
  | 0, _, _ => .error .fuel
  | fuel + 1, data, w =>
    (writeRound lzo data w).bind fun r =>
      if 0 < r.1.length then writeLoop fuel r.1 r.2 else .ok r.2

/-- `LZOFile::write`. -/
def write : Write Writer := fun data w => writeLoop lzo (data.length + 1) data w

/-- `~LZOFile`: what is in the file when it has been closed. -/
def close (w : Writer) : Bytes := (writeBlock lzo w).f_

/-- The stream `s` has been written: it is the blocks in the file and then the open block. -/
structure Written (w : Writer) (s : Bytes) (blocks : List Bytes) : Prop where
  f_eq : w.f_ = blocks.flatMap (blockBytes lzo)
  stream_eq : blocks.flatten ++ w.block = s
  isBlock : ∀ b ∈ blocks, IsBlock b
  length_block : w.block.length ≤ kBlockSize

variable {lzo} {w : Writer} {s data : Bytes} {blocks : List Bytes}

theorem written_new : Written lzo Writer.new [] [] where
  f_eq := rfl
  stream_eq := rfl
  isBlock := nofun
  length_block := Nat.zero_le _

/-- `write_block` moves the open block to the blocks in the file. -/
theorem Written.writeBlock (hw : Written lzo w s blocks) :
    ∃ blocks', Written lzo (writeBlock lzo w) s blocks' ∧
      (LZOFile.writeBlock lzo w).block = [] := by
  rw [LZOFile.writeBlock]
  split_ifs with hempty
  · exact ⟨blocks, hw, List.eq_nil_of_length_eq_zero hempty⟩
  · refine ⟨blocks ++ [w.block], ⟨?_, ?_, ?_, Nat.zero_le _⟩, rfl⟩
    · simp [hw.f_eq]
    · simpa using hw.stream_eq
    · intro b hb
      rcases List.mem_append.mp hb with hb | hb
      · exact hw.isBlock b hb
      · rw [List.mem_singleton.mp hb]
        exact ⟨Nat.one_le_iff_ne_zero.mpr hempty, hw.length_block⟩

/-- Bytes that fit are put into the open block. -/
theorem Written.append (hw : Written lzo w s blocks) {part : Bytes}
    (hfit : w.block.length + part.length ≤ kBlockSize) :
    Written lzo ⟨w.f_, w.block ++ part⟩ (s ++ part) blocks where
  f_eq := hw.f_eq
  stream_eq := by rw [← List.append_assoc, hw.stream_eq]
  isBlock := hw.isBlock
  length_block := by rwa [List.length_append]

/-- A round writes data that fits into the block, or begins a new block with it. -/
theorem Written.writeRound (hw : Written lzo w s blocks)
    (hdata : w.block.length + data.length < 2 ^ 31) :
    ∃ k w' blocks', LZOFile.writeRound lzo data w = .ok (data.drop k, w') ∧
      Written lzo w' (s ++ data.take k) blocks' ∧
      (data.length ≤ k ∨ 0 < k ∧ w'.block.length = k) := by
  rw [LZOFile.writeRound, if_neg (Nat.not_le.mpr hdata)]
  by_cases hfit : kBlockSize < w.block.length + data.length
  · obtain ⟨blocks', hw', hempty⟩ := hw.writeBlock
    have hk : min (kBlockSize - (LZOFile.writeBlock lzo w).block.length) data.length =
        min kBlockSize data.length := by
      rw [hempty]
      rfl
    have hpart : (data.take (min kBlockSize data.length)).length = min kBlockSize data.length :=
      List.length_take_of_le (Nat.min_le_right _ _)
    simp only [if_pos hfit, hk]
    refine ⟨_, _, blocks', rfl, hw'.append ?_, ?_⟩
    · rw [hempty, hpart]
      exact (Nat.zero_add _).trans_le (Nat.min_le_left _ _)
    · rw [hempty, List.nil_append, hpart]
      have : 0 < kBlockSize := by decide
      omega
  · have hk : min (kBlockSize - w.block.length) data.length = data.length := by omega
    simp only [if_neg hfit, hk]
    refine ⟨_, _, blocks, rfl, hw.append ?_, Or.inl le_rfl⟩
    rw [List.take_length]
    exact Nat.le_of_not_lt hfit

theorem Written.writeLoop (hw : Written lzo w s blocks)
    (hdata : w.block.length + data.length < 2 ^ 31) {fuel : ℕ} (hfuel : data.length < fuel) :
    ∃ w' blocks', LZOFile.writeLoop lzo fuel data w = .ok w' ∧
      Written lzo w' (s ++ data) blocks' := by
  induction fuel generalizing data w s blocks with
  | zero => exact absurd hfuel (Nat.not_lt_zero _)
  | succ fuel ih =>
    obtain ⟨k, w₁, blocks₁, heq, hw₁, hk⟩ := hw.writeRound hdata
    rw [LZOFile.writeLoop, heq]
    simp only [Except.bind]
    split_ifs with hleft
    · rw [List.length_drop] at hleft
      obtain ⟨hpos, hblock⟩ := hk.resolve_left (by omega)
      -- the rest and the block it is put behind are together as long as the data
      have hrest : w₁.block.length + (data.drop k).length < 2 ^ 31 := by
        rw [hblock, List.length_drop]
        omega
      have hshort : (data.drop k).length < fuel := by
        rw [List.length_drop]
        omega
      obtain ⟨w₂, blocks₂, heq₂, hw₂⟩ := ih hw₁ hrest hshort
      rw [List.append_assoc, List.take_append_drop] at hw₂
      exact ⟨w₂, blocks₂, heq₂, hw₂⟩
    · have hall : data.length ≤ k := by
        rw [List.length_drop] at hleft
        omega
      rw [List.take_of_length_le hall] at hw₁
      exact ⟨w₁, blocks₁, rfl, hw₁⟩

theorem writesStream :
    WritesStream (write lzo) (fun w s => ∃ blocks, Written lzo w s blocks)
    (2 ^ 31 - kBlockSize) := by
  rintro w s data ⟨blocks, hw⟩ hdata
  have hsum : w.block.length + data.length < 2 ^ 31 := by
    have := hw.length_block
    omega
  obtain ⟨w', blocks', heq, hw'⟩ := hw.writeLoop hsum (Nat.lt_succ_self _)
  exact ⟨w', heq, blocks', hw'⟩

/-- The file after it has been closed. -/
theorem Written.close (hw : Written lzo w s blocks) :
    ∃ blocks' : List Bytes, LZOFile.close lzo w = blocks'.flatMap (blockBytes lzo) ∧
      blocks'.flatten = s ∧
      ∀ b ∈ blocks', IsBlock b := by
  obtain ⟨blocks', hw', hempty⟩ := hw.writeBlock
  refine ⟨blocks', hw'.f_eq, ?_, hw'.isBlock⟩
  rw [← hw'.stream_eq, hempty, List.append_nil]

/-- The sum of the first test does not fit into an `int`. -/
theorem write_overflow (hdata : 2 ^ 31 ≤ w.block.length + data.length) :
    write lzo data w = .error .overflow := by
  rw [write, LZOFile.writeLoop, LZOFile.writeRound, if_pos hdata]
  rfl

/-! ## Reading -/

/-- A file that is read: the rest of the `LocalFile`, `block.raw` up to `block.len`, and
`block.pos`. -/
structure Reader where
  f_ : Bytes
  block : Bytes
  pos : ℕ
  deriving DecidableEq, Repr

variable (lzo) in
/-- `read_block`, with what it returns. It does not compare the size of a compressed block
with its buffer. -/
def readBlock (r : Reader) : Except FileFault (Bool × Reader) :=
  (LocalFile.read 4 r.f_).bind fun header =>
    if header.count ≠ 4 then .ok (false, ⟨header.file, [], 0⟩)
    else
      let compSize := intOfBytes header.stored
      if compSize < 0 then .error (.negativeSize compSize)
      else if kCompressedBlockSize < compSize.toNat then .error .overrun
      else
        (LocalFile.read compSize.toNat header.file).bind fun comp =>
          if comp.count ≠ compSize.toNat then .error .check
          else if compSize.toNat = 0 then .error .check
          else
            match lzo.decompress comp.stored with
            | none => .error .check
            | some raw => .ok (true, ⟨comp.file, raw, 0⟩)

variable (lzo) in
/-- A file opened with mode `"r"`. -/
def Reader.new (file : Bytes) : Except FileFault Reader :=
  (readBlock lzo ⟨file, [], 0⟩).map Prod.snd

variable (lzo) in
/-- `read` asks for a block when it is at the end of one. -/
def refill (r : Reader) : Except FileFault (Bool × Reader) :=
  if r.pos = r.block.length then readBlock lzo r else .ok (true, r)

variable (lzo) in
/-- The loop of `read`, for `len` bytes of which `left` are left. -/
def readLoop (len : ℕ) : ℕ → ℕ → Bytes → Reader → Except FileFault (ReadResult Reader)
  | 0, _, _, _ => .error .fuel
  | fuel + 1, left, stored, r =>
    (refill lzo r).bind fun b =>
      if b.1 then
        let bytesToRead := min left (b.2.block.length - b.2.pos)
        let stored := stored ++ (b.2.block.drop b.2.pos).take bytesToRead
        let r := { b.2 with pos := b.2.pos + bytesToRead }
        if 0 < left - bytesToRead then readLoop len fuel (left - bytesToRead) stored r
        else .ok ⟨len, stored, r⟩
      -- what has been read so far stays in the buffer
      else .ok ⟨0, stored, b.2⟩

variable (lzo) in
/-- `LZOFile::read`. -/
def read : Read Reader := fun len r => readLoop lzo len (len + r.f_.length + 1) len [] r

variable (lzo) in
/-- The stream `s` is left: it is the rest of the block and then the blocks in the file. -/
structure Reading (r : Reader) (s : Bytes) (blocks : List Bytes) : Prop where
  f_eq : r.f_ = blocks.flatMap (blockBytes lzo)
  stream_eq : r.block.drop r.pos ++ blocks.flatten = s
  isBlock : ∀ b ∈ blocks, IsBlock b
  pos_le : r.pos ≤ r.block.length

variable {r : Reader}

theorem readBlock_nil (hf : r.f_ = []) : readBlock lzo r = .ok (false, ⟨[], [], 0⟩) := by
  rw [readBlock, hf]
  rfl

/-- A block that has been written is read. -/
theorem readBlock_blockBytes {b rest : Bytes} (hb : IsBlock b)
    (hf : r.f_ = blockBytes lzo b ++ rest) : readBlock lzo r = .ok (true, ⟨rest, b, 0⟩) := by
  obtain ⟨hpos, hle⟩ := lzo.length_compress b hb
  have hint : (lzo.compress b).length < 2 ^ 31 :=
    hle.trans_lt (by decide)
  have hheader : LocalFile.read 4 r.f_ =
      .ok ⟨4, intBytes (lzo.compress b).length, lzo.compress b ++ rest⟩ := by
    rw [hf, blockBytes, List.append_assoc]
    exact LocalFile.read_append (intBytes (lzo.compress b).length) _
  have hcomp : LocalFile.read (lzo.compress b).length (lzo.compress b ++ rest) =
      .ok ⟨(lzo.compress b).length, lzo.compress b, rest⟩ := LocalFile.read_append _ _
  have hsize : (intOfBytes (intBytes (lzo.compress b).length)).toNat = (lzo.compress b).length := by
    rw [intOfBytes_intBytes hint, Int.toNat_natCast]
  have hnonneg : ¬ intOfBytes (intBytes (lzo.compress b).length) < 0 := by
    rw [intOfBytes_intBytes hint]
    exact Int.not_lt.mpr (Int.natCast_nonneg _)
  have hfull : ¬ (4 : ℕ) ≠ 4 := not_not.mpr rfl
  have hread : ¬ (lzo.compress b).length ≠ (lzo.compress b).length := not_not.mpr rfl
  rw [readBlock, hheader, ok_bind, if_neg hfull, if_neg hnonneg, hsize,
    if_neg (Nat.not_lt.mpr hle), hcomp, ok_bind, if_neg hread, if_neg (Nat.ne_of_gt hpos),
    lzo.decompress_compress b hb]

theorem Reading.refill (hr : Reading lzo r s blocks) :
    (s = [] ∧ LZOFile.refill lzo r = .ok (false, ⟨[], [], 0⟩)) ∨
      ∃ r' blocks', LZOFile.refill lzo r = .ok (true, r') ∧ Reading lzo r' s blocks' ∧
        r'.pos < r'.block.length := by
  have hstream := hr.stream_eq
  rw [LZOFile.refill]
  split_ifs with hend
  · rw [hend, List.drop_length, List.nil_append] at hstream
    cases blocks with
    | nil =>
      left
      exact ⟨hstream.symm, readBlock_nil hr.f_eq⟩
    | cons b blocks =>
      right
      have hb : IsBlock b := hr.isBlock b List.mem_cons_self
      refine ⟨_, blocks, readBlock_blockBytes hb hr.f_eq, ⟨rfl, hstream, ?_, Nat.zero_le _⟩, hb.1⟩
      exact fun b' hb' => hr.isBlock b' (List.mem_cons_of_mem b hb')
  · right
    exact ⟨r, blocks, rfl, hr, lt_of_le_of_ne hr.pos_le hend⟩

/-- The bytes that a round takes from the block. -/
theorem Reading.advance (hr : Reading lzo r s blocks) {n : ℕ} (hn : n ≤ r.block.length - r.pos) :
    (r.block.drop r.pos).take n = s.take n ∧
      Reading lzo { r with pos := r.pos + n } (s.drop n) blocks := by
  have hlength : n ≤ (r.block.drop r.pos).length := by rwa [List.length_drop]
  have hpos := hr.pos_le
  rw [← hr.stream_eq, List.take_append_of_le_length hlength, List.drop_append_of_le_length hlength,
    List.drop_drop]
  exact ⟨rfl, hr.f_eq, rfl, hr.isBlock, by simp only; omega⟩

theorem Reading.length_le (hr : Reading lzo r s blocks) : r.block.length - r.pos ≤ s.length := by
  rw [← hr.stream_eq, List.length_append, List.length_drop]
  exact Nat.le_add_right _ _

/-- The loop of `read` ends, with as many bytes as were asked for unless the stream ends
before. -/
theorem Reading.readLoop {len fuel : ℕ} (left : ℕ) (stored : Bytes) (hr : Reading lzo r s blocks)
    (hleft : left ≤ len) (hzero : left = 0 → len = 0) (hfuel : left < fuel) :
    ∃ count r' blocks', LZOFile.readLoop lzo len fuel left stored r =
        .ok ⟨count, stored ++ s.take left, r'⟩ ∧
      (count < len ↔ s.length < left) ∧ Reading lzo r' (s.drop left) blocks' := by
  induction fuel generalizing left stored r s blocks with
  | zero => exact absurd hfuel (Nat.not_lt_zero _)
  | succ fuel ih =>
    rw [LZOFile.readLoop]
    rcases hr.refill with ⟨rfl, heq⟩ | ⟨r₁, blocks₁, heq, hr₁, hpos⟩
    -- the end of the file
    · rw [heq, ok_bind, if_neg Bool.false_ne_true, List.take_nil, List.append_nil, List.drop_nil]
      refine ⟨0, ⟨[], [], 0⟩, [], rfl, ?_, rfl, rfl, nofun, Nat.zero_le _⟩
      rw [List.length_nil]
      omega
    · rw [heq, ok_bind, if_pos rfl]
      have hlength := hr₁.length_le
      obtain ⟨n, hn⟩ : ∃ n, n = min left (r₁.block.length - r₁.pos) := ⟨_, rfl⟩
      obtain ⟨htake, hr₂⟩ := hr₁.advance (hn.trans_le (Nat.min_le_right _ _))
      simp only [← hn, htake]
      split_ifs with hmore
      · obtain ⟨count, r₃, blocks₃, heq₃, hcount, hr₃⟩ :=
          ih (left - n) (stored ++ s.take n) hr₂ (by omega) (by omega) (by omega)
        have hsum : n + (left - n) = left := by omega
        rw [List.append_assoc, ← List.take_add, hsum] at heq₃
        rw [List.drop_drop, hsum] at hr₃
        rw [List.length_drop] at hcount
        refine ⟨count, r₃, blocks₃, heq₃, hcount.trans ?_, hr₃⟩
        omega
      · have hall : n = left := by omega
        rw [hall] at hr₂ ⊢
        refine ⟨len, _, blocks₁, rfl, ?_, hr₂⟩
        omega

theorem readsStream : ReadsStream (read lzo) (fun r s => ∃ blocks, Reading lzo r s blocks) := by
  rintro r s len ⟨blocks, hr⟩
  have hfuel : len < len + r.f_.length + 1 := by omega
  obtain ⟨count, r', blocks', heq, hcount, hr'⟩ := hr.readLoop len [] le_rfl id hfuel
  exact ⟨count, r', heq, hcount, blocks', hr'⟩

variable (lzo) in
/-- The reader begins with the stream of the blocks in the file. -/
theorem exists_reading_new (hblocks : ∀ b ∈ blocks, IsBlock b) :
    ∃ r blocks', Reader.new lzo (blocks.flatMap (blockBytes lzo)) = .ok r ∧
      Reading lzo r blocks.flatten blocks' := by
  have hempty : Reading lzo ⟨blocks.flatMap (blockBytes lzo), [], 0⟩ blocks.flatten blocks :=
    ⟨rfl, rfl, hblocks, le_rfl⟩
  have hrefill : LZOFile.refill lzo ⟨blocks.flatMap (blockBytes lzo), [], 0⟩ =
      readBlock lzo ⟨blocks.flatMap (blockBytes lzo), [], 0⟩ := if_pos rfl
  rw [Reader.new, ← hrefill]
  rcases hempty.refill with ⟨hnil, heq⟩ | ⟨r, blocks', heq, hr, -⟩
  · rw [heq, hnil]
    exact ⟨_, [], rfl, rfl, rfl, nofun, le_rfl⟩
  · rw [heq]
    exact ⟨r, blocks', rfl, hr⟩

/-- A file to which chunks have been written, closed and opened again. -/
theorem Written.hasChunks {cs : List StringPiece} (hw : Written lzo w (chunkBytes cs) blocks) :
    ∃ (blocks' : List Bytes) (r : Reader),
      LZOFile.close lzo w = blocks'.flatMap (blockBytes lzo) ∧ (∀ b ∈ blocks', IsBlock b) ∧
      Reader.new lzo (LZOFile.close lzo w) = .ok r ∧
      HasChunks (fun r s => ∃ blocks, Reading lzo r s blocks) r (cs.map StringPiece.data) := by
  obtain ⟨blocks', hclose, hflatten, hblocks⟩ := hw.close
  obtain ⟨r, blocks'', hnew, hr⟩ := exists_reading_new lzo hblocks
  rw [hflatten] at hr
  exact ⟨blocks', r, hclose, hblocks, hclose ▸ hnew, hasChunks_chunkBytes ⟨blocks'', hr⟩⟩

end LZOFile

end MaiterStore
