/-
# Record files

A `RecordFile` (`util/file.cc`) is a row of chunks, each behind its length as an `int`. Four
chunks are an entry of a checkpoint. `readChunk` checks the bytes it gets for the length
only, and `ReadEntryFromFile` checks its first chunk only.

A file that has been cut off in the body of a chunk still gives this chunk, at its full
length and with zero bytes at its end. A file that has been cut off behind the length of the
first chunk of an entry still gives this entry.
-/

import MaiterStore.CS.FixedWidth
import MaiterStore.CS.Framing
import MaiterStore.Kernel.DeltaLog

namespace MaiterStore

open CS.FixedWidth CS.Framing CS.Run

/-- What stops an operation on a file. -/
inductive FileFault
  /-- A size below zero is taken for a number of bytes. -/
  | negativeSize (len : ℤ)
  /-- A sum that is no `int`. -/
  | overflow
  /-- `CHECK_EQ` and `CHECK_GT` in `LZOFile`. -/
  | check
  /-- Bytes are put behind the end of a buffer. -/
  | overrun
  /-- The model stopped a loop. -/
  | fuel
  deriving DecidableEq, Repr

/-! ## Strings and lengths -/

/-- The narrowing of a number to an `int`. -/
def toInt (n : ℤ) : ℤ := n.bmod (2 ^ 32)

theorem toInt_natCast {n : ℕ} (hn : n < 2 ^ 31) : toInt n = n := by
  have hlow : -((2 ^ 32 : ℕ) : ℤ) ≤ (n : ℤ) * 2 := by omega
  have hhigh : (n : ℤ) * 2 < (2 ^ 32 : ℕ) := by omega
  exact Int.bmod_eq_of_le_mul_two hlow hhigh

theorem toInt_lt (n : ℤ) : toInt n < 2 ^ 31 := by
  have hlt : n.bmod (2 ^ 32) < ((2 ^ 32 : ℕ) + 1) / 2 := Int.bmod_lt (by decide)
  rw [toInt]
  omega

-- a comparison with a narrowed number is never decided by evaluating it
attribute [irreducible] toInt

/-- A `StringPiece`, whose length is an `int`. -/
structure StringPiece where
  data : Bytes
  size_lt : data.length < 2 ^ 31
  deriving DecidableEq, Repr

namespace StringPiece

/-- `size()`. -/
def size (s : StringPiece) : ℕ := s.data.length

/-- `StringPiece(const string&)`. The length of the string is narrowed to an `int`. -/
def ofString (s : Bytes) : Except FileFault StringPiece :=
  if 0 ≤ toInt s.length then
    .ok ⟨s.take (toInt s.length).toNat, by
      have := toInt_lt s.length
      rw [List.length_take]
      omega⟩
  else .error (.negativeSize (toInt s.length))

theorem ofString_of_length_lt {s : Bytes} (hs : s.length < 2 ^ 31) :
    ofString s = .ok ⟨s, hs⟩ := by
  have htake : s.take (s.length : ℤ).toNat = s := by
    rw [Int.toNat_natCast, List.take_length]
  simp only [ofString, toInt_natCast hs, htake]
  exact if_pos (Int.natCast_nonneg _)

end StringPiece

/-- The bytes of an `int` that is not negative. -/
def intBytes (n : ℕ) : Bytes :=
  [UInt8.ofNat n, UInt8.ofNat (n / 2 ^ 8), UInt8.ofNat (n / 2 ^ 16), UInt8.ofNat (n / 2 ^ 24)]

/-- The `int` with the given bytes. -/
def intOfBytes (b : Bytes) : ℤ := toInt (b.foldr (fun byte n => byte.toNat + 2 ^ 8 * n) 0 : ℕ)

theorem intBytes_eq_leBytes (n : ℕ) : intBytes n = leBytes 4 n := by
  simp only [intBytes, leBytes, Nat.div_div_eq_div_mul, ← Nat.pow_add, Nat.reduceAdd]

theorem intOfBytes_intBytes {n : ℕ} (hn : n < 2 ^ 31) : intOfBytes (intBytes n) = n := by
  have hlt : n < 2 ^ (8 * 4) := hn.trans (by decide)
  have hsum : ofLeBytes (intBytes n) = n := by
    rw [intBytes_eq_leBytes, ofLeBytes_leBytes hlt]
  change toInt (ofLeBytes (intBytes n) : ℕ) = n
  rw [hsum, toInt_natCast hn]

/-- The size that the bytes of an `int` stand for. -/
def sizeOfBytes (b : Bytes) : Option ℕ :=
  if 0 ≤ intOfBytes b then some (intOfBytes b).toNat else none

theorem sizeOfBytes_intBytes {n : ℕ} (hn : n < 2 ^ 31) : sizeOfBytes (intBytes n) = some n := by
  rw [sizeOfBytes, intOfBytes_intBytes hn, if_pos (Int.natCast_nonneg n), Int.toNat_natCast]

/-- The length in front of a chunk. -/
def intField : LengthField UInt8 where
  width := 4
  width_pos := by decide
  limit := 2 ^ 31
  encode := intBytes
  decode := sizeOfBytes
  length_encode _ := rfl
  decode_encode _ := sizeOfBytes_intBytes

theorem intField_width : intField.width = 4 := rfl

theorem intField_decode : intField.decode = sizeOfBytes := rfl

/-! ## Files -/

/-- The result of `File::read`: the number it returns, the bytes it has put into the buffer,
and the file after it. -/
structure ReadResult (σ : Type*) where
  count : ℕ
  stored : Bytes
  file : σ

/-- The virtual `File::read`. -/
abbrev Read (σ : Type*) := ℕ → σ → Except FileFault (ReadResult σ)

/-- The virtual `File::write`. -/
abbrev Write (σ : Type*) := Bytes → σ → Except FileFault σ

/-- `LocalFile::read` on the bytes up to the end of the file. -/
def LocalFile.read : Read Bytes := fun len file =>
  .ok ⟨(file.take len).length, file.take len, file.drop len⟩

theorem LocalFile.read_append (b rest : Bytes) :
    LocalFile.read b.length (b ++ rest) = .ok ⟨b.length, b, rest⟩ := by
  rw [LocalFile.read, List.take_left, List.drop_left]

/-- `LocalFile::write`. -/
def LocalFile.write : Write Bytes := fun data file => .ok (file ++ data)

namespace RecordFile

variable {σ : Type*}

/-- `RecordFile::writeChunk`. -/
def writeChunk (write : Write σ) (data : StringPiece) (fp : σ) : Except FileFault σ :=
  (write (intBytes data.size) fp).bind (write data.data)

/-- `RecordFile::readChunk`: what it returns, the chunk, and the file after it. The result of
the second read is not looked at. -/
def readChunk (read : Read σ) (fp : σ) : Except FileFault (Bool × Bytes × σ) :=
  (read 4 fp).bind fun header =>
    if header.count < 4 then .ok (false, [], header.file)
    else
      let len := intOfBytes header.stored
      if len < 0 then .error (.negativeSize len)
      else
        (read len.toNat header.file).map fun payload =>
          (true, fill 0 len.toNat payload.stored, payload.file)

/-- A chunk for a loop that runs as long as `readChunk` returns true. -/
def nextChunk (read : Read σ) (fp : σ) : Except FileFault (Option (Bytes × σ)) :=
  (readChunk read fp).map fun r => if r.1 then some r.2 else none

end RecordFile

/-- The four strings of an entry that is written. -/
structure EntryPieces where
  k : StringPiece
  v1 : StringPiece
  v2 : StringPiece
  v3 : StringPiece
  deriving DecidableEq, Repr

namespace EntryPieces

def toEntry (e : EntryPieces) : Entry := ⟨e.k.data, e.v1.data, e.v2.data, e.v3.data⟩

def chunks (e : EntryPieces) : List StringPiece := [e.k, e.v1, e.v2, e.v3]

end EntryPieces

namespace LocalTableCoder

variable {σ : Type*}

/-- `LocalTableCoder::WriteEntryToFile`. -/
def writeEntryToFile (write : Write σ) (e : EntryPieces) (fp : σ) : Except FileFault σ :=
  (RecordFile.writeChunk write e.k fp).bind fun fp =>
    (RecordFile.writeChunk write e.v1 fp).bind fun fp =>
      (RecordFile.writeChunk write e.v2 fp).bind fun fp =>
        RecordFile.writeChunk write e.v3 fp

/-- `LocalTableCoder::ReadEntryFromFile`, with `none` for false. -/
def readEntryFromFile (read : Read σ) (fp : σ) : Except FileFault (Option (Entry × σ)) :=
  (RecordFile.readChunk read fp).bind fun k =>
    if k.1 then
      (RecordFile.readChunk read k.2.2).bind fun v1 =>
        (RecordFile.readChunk read v1.2.2).bind fun v2 =>
          (RecordFile.readChunk read v2.2.2).map fun v3 =>
            some (⟨k.2.1, v1.2.1, v2.2.1, v3.2.1⟩, v3.2.2)
    else .ok none

theorem writeEntryToFile_eq (write : Write σ) (e : EntryPieces) (fp : σ) :
    writeEntryToFile write e fp = forEach (RecordFile.writeChunk write) e.chunks fp := by
  simp only [writeEntryToFile, EntryPieces.chunks, forEach]
  congr 1
  funext fp
  congr 1
  funext fp
  congr 1
  funext fp
  cases RecordFile.writeChunk write e.v3 fp <;> rfl

end LocalTableCoder

/-! ## The chunks of a file -/

/-- `read` reads the stream that `R` relates to a file. -/
def ReadsStream {σ : Type*} (read : Read σ) (R : σ → Bytes → Prop) : Prop :=
  ∀ fp s len, R fp s → ∃ count fp', read len fp = .ok ⟨count, s.take len, fp'⟩ ∧
    (count < len ↔ s.length < len) ∧ R fp' (s.drop len)

theorem LocalFile.readsStream : ReadsStream LocalFile.read (· = ·) := by
  rintro fp _ len rfl
  refine ⟨_, _, rfl, ?_, rfl⟩
  rw [List.length_take]
  omega

/-- The chunks that `readChunk` finds in a file. -/
def HasChunks {σ : Type*} (R : σ → Bytes → Prop) (fp : σ) (cs : List Bytes) : Prop :=
  ∃ s, R fp s ∧ Reads (readFrame intField 0) s cs

/-- The next entry of a row of chunks. -/
def nextEntry (cs : List Bytes) : Except FileFault (Option (Entry × List Bytes)) :=
  .ok (readEntryFromFile cs)

section HasChunks

variable {σ : Type*} {read : Read σ} {R : σ → Bytes → Prop} {fp : σ} {cs : List Bytes}

theorem HasChunks.readChunk_nil (hread : ReadsStream read R) (hfp : HasChunks R fp []) :
    ∃ fp', RecordFile.readChunk read fp = .ok (false, [], fp') ∧ HasChunks R fp' [] := by
  obtain ⟨s, hR, hreads⟩ := hfp
  cases hreads with
  | done hnext =>
    have hlength : s.length < 4 := length_lt_of_readFrame_eq_none hnext
    obtain ⟨count, fp', heq, hcount, hR'⟩ := hread fp s 4 hR
    refine ⟨fp', ?_, s.drop 4, hR', reads_of_length_lt ?_⟩
    · simp only [RecordFile.readChunk, heq, Except.bind, if_pos (hcount.mpr hlength)]
    · rw [List.length_drop]
      exact lt_of_le_of_lt (Nat.sub_le _ _) hlength

theorem HasChunks.readChunk_cons {c : Bytes} (hread : ReadsStream read R)
    (hfp : HasChunks R fp (c :: cs)) :
    ∃ fp', RecordFile.readChunk read fp = .ok (true, c, fp') ∧ HasChunks R fp' cs := by
  obtain ⟨s, hR, hreads⟩ := hfp
  cases hreads with
  | more hnext hrest =>
    obtain ⟨hwidth, len, hdecode, hr⟩ := exists_decode_of_readFrame_eq_some hnext
    obtain ⟨rfl, rfl⟩ := Prod.mk.inj hr
    obtain ⟨count, fp₁, heq₁, hcount, hR₁⟩ := hread fp s 4 hR
    obtain ⟨_, fp₂, heq₂, -, hR₂⟩ := hread fp₁ (s.drop 4) len hR₁
    have hfull : ¬ count < 4 := fun hlt => Nat.not_lt.mpr hwidth (hcount.mp hlt)
    have hlen : ¬ intOfBytes (s.take 4) < 0 ∧ (intOfBytes (s.take 4)).toNat = len := by
      simp only [intField_decode, intField_width, sizeOfBytes,
        Option.ite_none_right_eq_some] at hdecode
      exact ⟨not_lt.mpr hdecode.1, Option.some.inj hdecode.2⟩
    refine ⟨fp₂, ?_, _, hR₂, hrest⟩
    simp only [RecordFile.readChunk, heq₁, Except.bind, if_neg hfull, if_neg hlen.1, hlen.2, heq₂]
    rfl

/-- `readChunk` on the bytes does what it does on the chunks. -/
theorem HasChunks.readChunk_eq (hread : ReadsStream read R) (hfp : HasChunks R fp cs) :
    ∃ fp', RecordFile.readChunk read fp = .ok ((readChunk cs).1, (readChunk cs).2.1, fp') ∧
      HasChunks R fp' (readChunk cs).2.2 := by
  cases cs with
  | nil => exact hfp.readChunk_nil hread
  | cons c cs => exact hfp.readChunk_cons hread

theorem HasChunks.reads (hread : ReadsStream read R) (hfp : HasChunks R fp cs) :
    Reads (RecordFile.nextChunk read) fp cs := by
  induction cs generalizing fp with
  | nil =>
    obtain ⟨fp', heq, -⟩ := hfp.readChunk_nil hread
    apply Reads.done
    rw [RecordFile.nextChunk, heq]
    rfl
  | cons c cs ih =>
    obtain ⟨fp', heq, hfp'⟩ := hfp.readChunk_cons hread
    have hnext : RecordFile.nextChunk read fp = .ok (some (c, fp')) := by
      rw [RecordFile.nextChunk, heq]
      rfl
    exact .more hnext (ih hfp')

/-- `ReadEntryFromFile` on the bytes does what it does on the chunks. -/
theorem HasChunks.readEntryFromFile_none (hread : ReadsStream read R) (hfp : HasChunks R fp cs)
    (hcs : readEntryFromFile cs = none) :
    LocalTableCoder.readEntryFromFile read fp = .ok none := by
  cases cs with
  | nil =>
    obtain ⟨fp', heq, -⟩ := hfp.readChunk_nil hread
    rw [LocalTableCoder.readEntryFromFile, heq]
    rfl
  | cons c cs => cases hcs

theorem HasChunks.readEntryFromFile_some {e : Entry} {cs' : List Bytes}
    (hread : ReadsStream read R) (hfp : HasChunks R fp cs)
    (hcs : readEntryFromFile cs = some (e, cs')) :
    ∃ fp', LocalTableCoder.readEntryFromFile read fp = .ok (some (e, fp')) ∧
      HasChunks R fp' cs' := by
  obtain ⟨fp₁, heq₁, hfp₁⟩ := hfp.readChunk_eq hread
  obtain ⟨fp₂, heq₂, hfp₂⟩ := hfp₁.readChunk_eq hread
  obtain ⟨fp₃, heq₃, hfp₃⟩ := hfp₂.readChunk_eq hread
  obtain ⟨fp₄, heq₄, hfp₄⟩ := hfp₃.readChunk_eq hread
  simp only [readEntryFromFile, Option.ite_none_right_eq_some, Option.some.injEq,
    Prod.mk.injEq] at hcs
  obtain ⟨htrue, he, hrest⟩ := hcs
  refine ⟨fp₄, ?_, hrest ▸ hfp₄⟩
  simp only [LocalTableCoder.readEntryFromFile, heq₁, Except.bind, htrue, if_true, heq₂, heq₃, heq₄,
    ← he]
  rfl

/-- The entries of a row of chunks, with any file that holds them. -/
theorem HasChunks.readsEntries {es : List Entry} (hread : ReadsStream read R)
    (hfp : HasChunks R fp cs)
    (hes : Reads nextEntry cs es) :
    Reads (LocalTableCoder.readEntryFromFile read) fp es := by
  refine hes.simulation (R := fun cs fp => HasChunks R fp cs) ?_ ?_ hfp
  · intro cs fp hfp hnone
    exact hfp.readEntryFromFile_none hread (Except.ok.inj hnone)
  · intro cs fp e cs' hfp hsome
    exact hfp.readEntryFromFile_some hread (Except.ok.inj hsome)

end HasChunks

/-- The bytes of chunks. -/
def chunkBytes (cs : List StringPiece) : Bytes := (cs.map StringPiece.data).flatMap (frame intField)

theorem chunkBytes_append (cs cs' : List StringPiece) :
    chunkBytes (cs ++ cs') = chunkBytes cs ++ chunkBytes cs' := by
  rw [chunkBytes, List.map_append, List.flatMap_append, chunkBytes, chunkBytes]

theorem data_length_lt (cs : List StringPiece) :
    ∀ c ∈ cs.map StringPiece.data, c.length < intField.limit := by
  intro c hc
  obtain ⟨c', -, rfl⟩ := List.mem_map.mp hc
  exact c'.size_lt

/-- The file holds the bytes of the chunks. -/
theorem hasChunks_chunkBytes {σ : Type*} {R : σ → Bytes → Prop} {fp : σ} {cs : List StringPiece}
    (hfp : R fp (chunkBytes cs)) : HasChunks R fp (cs.map StringPiece.data) :=
  ⟨_, hfp, reads_frames (data_length_lt cs)⟩

/-! ## Writing chunks -/

/-- `write` appends strings of fewer than `limit` bytes to the stream that `W` relates to a
file. -/
def WritesStream {σ : Type*} (write : Write σ) (W : σ → Bytes → Prop) (limit : ℕ) : Prop :=
  ∀ fp s data, W fp s → data.length < limit → ∃ fp', write data fp = .ok fp' ∧ W fp' (s ++ data)

theorem LocalFile.writesStream (limit : ℕ) : WritesStream LocalFile.write (· = ·) limit := by
  rintro fp _ data rfl -
  exact ⟨_, rfl, rfl⟩

section WritesStream

variable {σ : Type*} {write : Write σ} {W : σ → Bytes → Prop} {limit : ℕ} {fp : σ} {s : Bytes}

theorem WritesStream.writeChunk (hwrite : WritesStream write W limit) (hlimit : 4 < limit)
    {c : StringPiece} (hc : c.size < limit) (hfp : W fp s) :
    ∃ fp', RecordFile.writeChunk write c fp = .ok fp' ∧ W fp' (s ++ frame intField c.data) := by
  obtain ⟨fp₁, heq₁, hfp₁⟩ := hwrite fp s (intBytes c.size) hfp hlimit
  obtain ⟨fp₂, heq₂, hfp₂⟩ := hwrite fp₁ _ c.data hfp₁ hc
  refine ⟨fp₂, ?_, ?_⟩
  · rw [RecordFile.writeChunk, heq₁]
    exact heq₂
  · rwa [List.append_assoc] at hfp₂

theorem WritesStream.writeChunks (hwrite : WritesStream write W limit) (hlimit : 4 < limit)
    {cs : List StringPiece} (hcs : ∀ c ∈ cs, c.size < limit) (hfp : W fp s) :
    ∃ fp', forEach (RecordFile.writeChunk write) cs fp = .ok fp' ∧
      W fp' (s ++ chunkBytes cs) := by
  induction cs generalizing fp s with
  | nil => exact ⟨fp, rfl, by simpa [chunkBytes] using hfp⟩
  | cons c cs ih =>
    obtain ⟨fp₁, heq₁, hfp₁⟩ := hwrite.writeChunk hlimit (hcs c List.mem_cons_self) hfp
    obtain ⟨fp₂, heq₂, hfp₂⟩ := ih (fun c' hc' => hcs c' (List.mem_cons_of_mem c hc')) hfp₁
    refine ⟨fp₂, ?_, ?_⟩
    · rw [forEach, heq₁]
      exact heq₂
    · rwa [List.append_assoc, chunkBytes, ← List.flatMap_cons, ← List.map_cons,
        ← chunkBytes] at hfp₂

end WritesStream

theorem forEach_writeEntryToFile {σ : Type*} (write : Write σ) (es : List EntryPieces) (fp : σ) :
    forEach (LocalTableCoder.writeEntryToFile write) es fp =
      forEach (RecordFile.writeChunk write) (es.flatMap EntryPieces.chunks) fp := by
  induction es generalizing fp with
  | nil => rfl
  | cons e es ih =>
    rw [forEach, List.flatMap_cons, forEach_append, LocalTableCoder.writeEntryToFile_eq]
    congr 1
    funext fp'
    exact ih fp'

/-! ## Entries of a row of chunks -/

theorem map_data_chunks (es : List EntryPieces) :
    (es.flatMap EntryPieces.chunks).map StringPiece.data =
      (es.map EntryPieces.toEntry).flatMap Entry.chunks := by
  rw [List.map_flatMap, List.flatMap_map]
  rfl

theorem reads_entries_append {cs : List Bytes} {xs : List Entry} (hcs : Reads nextEntry cs xs)
    (es : List Entry) : Reads nextEntry (es.flatMap Entry.chunks ++ cs) (es ++ xs) := by
  induction es with
  | nil => exact hcs
  | cons e es ih =>
    rw [List.flatMap_cons, List.append_assoc]
    exact .more rfl ih

theorem reads_nextEntry (es : List Entry) : Reads nextEntry (es.flatMap Entry.chunks) es := by
  have hnil : Reads nextEntry [] [] := .done rfl
  simpa using reads_entries_append hnil es

/-- A part of an entry is taken for an entry. -/
theorem exists_reads_partial {cs : List Bytes} (hne : cs ≠ []) (hcs : cs.length ≤ 4) :
    ∃ e, Reads nextEntry cs [e] := by
  cases cs with
  | nil => exact absurd rfl hne
  | cons c cs =>
    have hrest : cs.drop 3 = [] := List.drop_eq_nil_of_le (Nat.le_of_succ_le_succ hcs)
    have hnext : ∃ e, nextEntry (c :: cs) = .ok (some (e, cs.drop 3)) := by
      rcases cs with _ | ⟨c₁, _ | ⟨c₂, _ | ⟨c₃, cs⟩⟩⟩ <;> exact ⟨_, rfl⟩
    obtain ⟨e, heq⟩ := hnext
    rw [hrest] at heq
    exact ⟨e, .more heq (.done rfl)⟩

end MaiterStore
