/-
# Record files are read back

Entries written to a compressed record file, and chunks written to a record file without
compression, are read back in their order, and then the reader returns false. Every block of
the compressed file has between 1 and `kBlockSize` bytes.

A length is an `int`. A string of `2 ^ 31` bytes has none, and `LZOFile::write` adds the length
of the open block to that of the string, so that a string that is close to this bound stops
it.
-/

import MaiterStore.Util.LzoFile

namespace MaiterStore

open CS.Framing CS.Run

/-- The conversions of the arguments of `WriteEntryToFile`. -/
def EntryPieces.ofEntry (e : Entry) : Except FileFault EntryPieces :=
  (StringPiece.ofString e.k).bind fun k =>
    (StringPiece.ofString e.v1).bind fun v1 =>
      (StringPiece.ofString e.v2).bind fun v2 =>
        (StringPiece.ofString e.v3).bind fun v3 => .ok ⟨k, v1, v2, v3⟩

section Write

variable {σ : Type*} (write : Write σ)

/-- `WriteEntryToFile` for one entry after the other. -/
def writeEntries (es : List Entry) (fp : σ) : Except FileFault σ :=
  forEach (fun e fp =>
    (EntryPieces.ofEntry e).bind fun p => LocalTableCoder.writeEntryToFile write p fp) es fp

/-- `writeChunk` for one string after the other. -/
def writeStrings (cs : List Bytes) (fp : σ) : Except FileFault σ :=
  forEach (fun c fp =>
    (StringPiece.ofString c).bind fun p => RecordFile.writeChunk write p fp) cs fp

theorem EntryPieces.exists_ofEntry {e : Entry} (he : ∀ c ∈ e.chunks, c.length < 2 ^ 31) :
    ∃ p, EntryPieces.ofEntry e = .ok p ∧ p.toEntry = e := by
  simp only [Entry.chunks, List.forall_mem_cons] at he
  obtain ⟨hk, hv1, hv2, hv3, -⟩ := he
  refine ⟨⟨⟨e.k, hk⟩, ⟨e.v1, hv1⟩, ⟨e.v2, hv2⟩, ⟨e.v3, hv3⟩⟩, ?_, rfl⟩
  rw [EntryPieces.ofEntry, StringPiece.ofString_of_length_lt hk, ok_bind,
    StringPiece.ofString_of_length_lt hv1, ok_bind, StringPiece.ofString_of_length_lt hv2, ok_bind,
    StringPiece.ofString_of_length_lt hv3, ok_bind]

/-- Entries whose strings have a length are written as they are. -/
theorem exists_writeEntries {es : List Entry} (hes : ∀ e ∈ es, ∀ c ∈ e.chunks, c.length < 2 ^ 31) :
    ∃ ps : List EntryPieces, ps.map EntryPieces.toEntry = es ∧
      ∀ fp, writeEntries write es fp =
        forEach (RecordFile.writeChunk write) (ps.flatMap EntryPieces.chunks) fp := by
  induction es with
  | nil => exact ⟨[], rfl, fun _ => rfl⟩
  | cons e es ih =>
    obtain ⟨p, heq, hp⟩ := EntryPieces.exists_ofEntry (hes e List.mem_cons_self)
    obtain ⟨ps, hps, hwrite⟩ := ih fun e' he' => hes e' (List.mem_cons_of_mem e he')
    refine ⟨p :: ps, by rw [List.map_cons, hp, hps], ?_⟩
    intro fp
    rw [writeEntries, forEach, heq, ok_bind, LocalTableCoder.writeEntryToFile_eq, List.flatMap_cons,
      forEach_append]
    congr 1
    funext fp'
    exact hwrite fp'

theorem exists_writeStrings {cs : List Bytes} (hcs : ∀ c ∈ cs, c.length < 2 ^ 31) :
    ∃ ps : List StringPiece, ps.map StringPiece.data = cs ∧
      ∀ fp, writeStrings write cs fp = forEach (RecordFile.writeChunk write) ps fp := by
  induction cs with
  | nil => exact ⟨[], rfl, fun _ => rfl⟩
  | cons c cs ih =>
    have hc := hcs c List.mem_cons_self
    obtain ⟨ps, hps, hwrite⟩ := ih fun c' hc' => hcs c' (List.mem_cons_of_mem c hc')
    refine ⟨⟨c, hc⟩ :: ps, by rw [List.map_cons, hps], ?_⟩
    intro fp
    rw [writeStrings, forEach, StringPiece.ofString_of_length_lt hc, ok_bind, forEach]
    congr 1
    funext fp'
    exact hwrite fp'

end Write

/-- Compressed entries. -/
theorem LZOFile.round_trip (lzo : Lzo) {es : List Entry}
    (hes : ∀ e ∈ es, ∀ c ∈ e.chunks, c.length + LZOFile.kBlockSize < 2 ^ 31) :
    ∃ (w : LZOFile.Writer) (blocks : List Bytes) (r : LZOFile.Reader),
      writeEntries (LZOFile.write lzo) es LZOFile.Writer.new = .ok w ∧
      LZOFile.close lzo w = blocks.flatMap (LZOFile.blockBytes lzo) ∧
      (∀ b ∈ blocks, LZOFile.IsBlock b) ∧ LZOFile.Reader.new lzo (LZOFile.close lzo w) = .ok r ∧
      Reads (LocalTableCoder.readEntryFromFile (LZOFile.read lzo)) r es := by
  have hlength : ∀ e ∈ es, ∀ c ∈ e.chunks, c.length < 2 ^ 31 := by
    intro e he c hc
    exact (Nat.le_add_right _ _).trans_lt (hes e he c hc)
  obtain ⟨ps, hps, hwrite⟩ := exists_writeEntries (LZOFile.write lzo) hlength
  have hdata := map_data_chunks ps
  rw [hps] at hdata
  have hsize : ∀ p ∈ ps.flatMap EntryPieces.chunks, p.size < 2 ^ 31 - LZOFile.kBlockSize := by
    intro p hp
    have hmem : p.data ∈ es.flatMap Entry.chunks := hdata ▸ List.mem_map_of_mem hp
    obtain ⟨e, he, hc⟩ := List.mem_flatMap.mp hmem
    have := hes e he p.data hc
    rw [StringPiece.size]
    omega
  have hempty : ∃ blocks, LZOFile.Written lzo LZOFile.Writer.new [] blocks :=
    ⟨[], LZOFile.written_new⟩
  obtain ⟨w, heq, blocks, hw⟩ := LZOFile.writesStream.writeChunks (by decide) hsize hempty
  rw [List.nil_append] at hw
  obtain ⟨blocks', r, hclose, hblocks, hnew, hchunks⟩ := hw.hasChunks
  rw [hdata] at hchunks
  exact ⟨w, blocks', r, (hwrite _).trans heq, hclose, hblocks, hnew,
    hchunks.readsEntries LZOFile.readsStream (reads_nextEntry es)⟩

/-- Chunks without compression. -/
theorem LocalFile.round_trip {cs : List Bytes} (hcs : ∀ c ∈ cs, c.length < 2 ^ 31) :
    ∃ file, writeStrings LocalFile.write cs [] = .ok file ∧
      Reads (RecordFile.nextChunk LocalFile.read) file cs := by
  obtain ⟨ps, hps, hwrite⟩ := exists_writeStrings LocalFile.write hcs
  have hsize : ∀ p ∈ ps, p.size < 2 ^ 31 := fun p _ => p.size_lt
  obtain ⟨file, heq, hfile⟩ :=
    (LocalFile.writesStream (2 ^ 31)).writeChunks (by decide) hsize (rfl : ([] : Bytes) = [])
  refine ⟨file, (hwrite []).trans heq, ?_⟩
  rw [← hps]
  exact (hasChunks_chunkBytes (R := (· = ·)) hfile).reads LocalFile.readsStream

/-- Record files round-trip: entries with compression, and chunks without. -/
theorem record_files_round_trip (lzo : Lzo) :
    (∀ es : List Entry,
      (∀ e ∈ es, ∀ c ∈ e.chunks, c.length + LZOFile.kBlockSize < 2 ^ 31) →
      ∃ (w : LZOFile.Writer) (blocks : List Bytes) (r : LZOFile.Reader),
        writeEntries (LZOFile.write lzo) es LZOFile.Writer.new = .ok w ∧
        LZOFile.close lzo w = blocks.flatMap (LZOFile.blockBytes lzo) ∧
        (∀ b ∈ blocks, LZOFile.IsBlock b) ∧
        LZOFile.Reader.new lzo (LZOFile.close lzo w) = .ok r ∧
        ∀ fuel, es.length < fuel →
          readAll (LocalTableCoder.readEntryFromFile (LZOFile.read lzo)) fuel r = .ok (some es)) ∧
    ∀ cs : List Bytes, (∀ c ∈ cs, c.length < 2 ^ 31) →
      ∃ file, writeStrings LocalFile.write cs [] = .ok file ∧
        ∀ fuel, cs.length < fuel →
          readAll (RecordFile.nextChunk LocalFile.read) fuel file = .ok (some cs) := by
  constructor
  · intro es hes
    obtain ⟨w, blocks, r, heq, hclose, hblocks, hnew, hreads⟩ := LZOFile.round_trip lzo hes
    exact ⟨w, blocks, r, heq, hclose, hblocks, hnew, fun fuel hfuel => hreads.readAll_eq hfuel⟩
  · intro cs hcs
    obtain ⟨file, heq, hreads⟩ := LocalFile.round_trip hcs
    exact ⟨file, heq, fun fuel hfuel => hreads.readAll_eq hfuel⟩

theorem record_files_round_trip_literal :
    (∃ (w : LZOFile.Writer) (blocks : List Bytes) (r : LZOFile.Reader),
      writeEntries (LZOFile.write literalLzo) [⟨[107], [], [], []⟩] LZOFile.Writer.new = .ok w ∧
      LZOFile.close literalLzo w = blocks.flatMap (LZOFile.blockBytes literalLzo) ∧
      (∀ b ∈ blocks, LZOFile.IsBlock b) ∧
      LZOFile.Reader.new literalLzo (LZOFile.close literalLzo w) = .ok r ∧
      ∀ fuel, 1 < fuel →
        readAll (LocalTableCoder.readEntryFromFile (LZOFile.read literalLzo)) fuel r =
          .ok (some [⟨[107], [], [], []⟩])) ∧
    ∃ file, writeStrings LocalFile.write [[107], []] [] = .ok file ∧
      ∀ fuel, 2 < fuel →
        readAll (RecordFile.nextChunk LocalFile.read) fuel file = .ok (some [[107], []]) :=
  ⟨(record_files_round_trip literalLzo).1 [⟨[107], [], [], []⟩]
      (by simp [Entry.chunks, LZOFile.kBlockSize]),
    (record_files_round_trip literalLzo).2 [[107], []] (by simp)⟩

/-! ## Strings that are too long -/

theorem toInt_natCast_of_ge {n : ℕ} (hlow : 2 ^ 31 ≤ n) (hhigh : n < 2 ^ 32) :
    toInt n = n - 2 ^ 32 := by
  have hmod : (n : ℤ) % (2 ^ 32 : ℕ) = n :=
    Int.emod_eq_of_lt (Int.natCast_nonneg n) (by omega)
  rw [toInt, Int.bmod, hmod]
  split_ifs <;> omega

theorem StringPiece.ofString_of_le_length {s : Bytes} (hlow : 2 ^ 31 ≤ s.length)
    (hhigh : s.length < 2 ^ 32) : ofString s = .error (.negativeSize (s.length - 2 ^ 32)) := by
  have hneg : ¬ 0 ≤ toInt s.length := by
    rw [toInt_natCast_of_ge hlow hhigh]
    omega
  rw [ofString, if_neg hneg, toInt_natCast_of_ge hlow hhigh]

/-- The length of a key is in the open block when the key is written. -/
theorem LZOFile.writeEntries_overflow (lzo : Lzo) {e : Entry}
    (he : ∀ c ∈ e.chunks, c.length < 2 ^ 31) (hk : 2 ^ 31 ≤ 4 + e.k.length) (es : List Entry) :
    writeEntries (LZOFile.write lzo) (e :: es) LZOFile.Writer.new = .error .overflow := by
  obtain ⟨p, heq, hp⟩ := EntryPieces.exists_ofEntry he
  have hdata : p.k.data = e.k := by rw [← hp]; rfl
  have hheader : LZOFile.write lzo (intBytes p.k.size) LZOFile.Writer.new =
      .ok ⟨[], intBytes p.k.size⟩ := rfl
  have hkey : LZOFile.write lzo p.k.data ⟨[], intBytes p.k.size⟩ = .error .overflow :=
    LZOFile.write_overflow (by rw [hdata]; exact hk)
  rw [writeEntries, forEach, heq, ok_bind, LocalTableCoder.writeEntryToFile, RecordFile.writeChunk,
    hheader, ok_bind, hkey]
  rfl

/-- A key of `2 ^ 31 - 1` bytes stops the compressed file, and a chunk of `2 ^ 31` bytes
the file without compression. -/
theorem long_strings_not_written :
    (∃ es : List Entry, ∀ (lzo : Lzo) (w : LZOFile.Writer),
      writeEntries (LZOFile.write lzo) es LZOFile.Writer.new ≠ .ok w) ∧
    ∃ cs : List Bytes, ∀ file, writeStrings LocalFile.write cs [] ≠ .ok file := by
  constructor
  · refine ⟨[⟨List.replicate (2 ^ 31 - 1) 0, [], [], []⟩], ?_⟩
    intro lzo w hw
    rw [LZOFile.writeEntries_overflow lzo] at hw
    · cases hw
    · simp only [Entry.chunks, List.forall_mem_cons, List.length_replicate]
      simp
    · rw [List.length_replicate]
      omega
  · refine ⟨[List.replicate (2 ^ 31) 0], ?_⟩
    intro file hfile
    have hlength : (List.replicate (2 ^ 31) (0 : UInt8)).length = 2 ^ 31 := List.length_replicate
    rw [writeStrings, forEach, StringPiece.ofString_of_le_length hlength.ge
      (by rw [hlength]; decide)] at hfile
    cases hfile

end MaiterStore
