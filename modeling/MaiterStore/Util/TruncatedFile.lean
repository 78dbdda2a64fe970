/-
# Record files that have been cut off

A crash leaves a prefix of a record file. Repeating `readChunk` on it gives a prefix of the
chunks if and only if the bytes that the cut has taken from the body of a chunk were zero:
`resize` has put zero bytes there before the read. Reading entries gives entries that were
completely in the file if and only if the cut is in no entry behind the length of its key.
-/

import MaiterStore.Util.RecordFile

namespace MaiterStore

open CS.Framing CS.Run

/-- The bytes of a chunk in the file: its length and its body. -/
def StringPiece.stored (c : StringPiece) : ℕ := 4 + c.size

/-- The bytes of an entry in the file. -/
def EntryPieces.stored (e : EntryPieces) : ℕ := extent StringPiece.stored e.chunks

/-- The file with the given chunks. -/
def RecordFile.ofChunks (cs : List StringPiece) : Except FileFault Bytes :=
  forEach (RecordFile.writeChunk LocalFile.write) cs []

/-- The file with the given entries. -/
def LocalTableCoder.ofEntries (es : List EntryPieces) : Except FileFault Bytes :=
  forEach (LocalTableCoder.writeEntryToFile LocalFile.write) es []

/-- Repeating `readChunk` until it returns false gives a prefix of `cs`. -/
def RecordFile.YieldsPrefix (cs : List StringPiece) (file : Bytes) : Prop :=
  ∃ fuel got, readAll (RecordFile.nextChunk LocalFile.read) fuel file = .ok (some got) ∧
    got <+: cs.map StringPiece.data

/-- Repeating `ReadEntryFromFile` until it returns false gives a prefix of `es`, all entries
of which are in the first `n` bytes. -/
def LocalTableCoder.YieldsComplete (es : List EntryPieces) (n : ℕ) (file : Bytes) : Prop :=
  ∃ fuel got, readAll (LocalTableCoder.readEntryFromFile LocalFile.read) fuel file =
    .ok (some (got.map EntryPieces.toEntry)) ∧ got <+: es ∧ extent EntryPieces.stored got ≤ n

variable {n : ℕ} {cs : List StringPiece} {es : List EntryPieces} {file : Bytes}

theorem extent_data (cs : List StringPiece) :
    extent (frameSize intField) (cs.map StringPiece.data) = extent StringPiece.stored cs := by
  rw [extent, List.map_map]
  rfl

theorem extent_chunks (es : List EntryPieces) :
    extent StringPiece.stored (es.flatMap EntryPieces.chunks) = extent EntryPieces.stored es := by
  induction es with
  | nil => rfl
  | cons e es ih => rw [List.flatMap_cons, extent_append, extent_cons, ih, EntryPieces.stored]

theorem RecordFile.ofChunks_eq (cs : List StringPiece) :
    RecordFile.ofChunks cs = .ok (chunkBytes cs) := by
  have hcs : ∀ c ∈ cs, c.size < 2 ^ 31 := fun c _ => c.size_lt
  obtain ⟨file, heq, hfile⟩ :=
    (LocalFile.writesStream (2 ^ 31)).writeChunks (by decide) hcs (rfl : ([] : Bytes) = [])
  rw [RecordFile.ofChunks, heq, hfile, List.nil_append]

theorem LocalTableCoder.ofEntries_eq (es : List EntryPieces) :
    LocalTableCoder.ofEntries es = RecordFile.ofChunks (es.flatMap EntryPieces.chunks) :=
  forEach_writeEntryToFile LocalFile.write es []

/-- On a local file `readChunk` is the reader of frames. -/
theorem nextChunk_eq (file : Bytes) :
    RecordFile.nextChunk LocalFile.read file =
      (readFrame intField 0 file).mapError fun b => .negativeSize (intOfBytes b) := by
  have hcount : (file.take 4).length < 4 ↔ file.length < intField.width := by
    rw [List.length_take, intField_width]
    omega
  simp only [RecordFile.nextChunk, RecordFile.readChunk, LocalFile.read, Except.bind]
  rw [readFrame]
  by_cases hlt : file.length < intField.width
  · rw [if_pos (hcount.mpr hlt), if_pos hlt]
    rfl
  · rw [if_neg (mt hcount.mp hlt), if_neg hlt]
    rw [intField_width, intField_decode, sizeOfBytes]
    by_cases hsize : intOfBytes (file.take 4) < 0
    · rw [if_pos hsize, if_neg (not_le.mpr hsize)]
      rfl
    · rw [if_neg hsize, if_pos (not_lt.mp hsize)]
      rfl

theorem reads_nextChunk_iff {got : List Bytes} :
    Reads (RecordFile.nextChunk LocalFile.read) file got ↔
      Reads (readFrame intField 0) file got := by
  rw [funext nextChunk_eq]
  exact reads_mapError_iff

/-- Chunks that are read from a file that has been cut off. -/
theorem RecordFile.yieldsPrefix_iff (hfile : RecordFile.ofChunks cs = .ok file) (n : ℕ) :
    RecordFile.YieldsPrefix cs (file.take n) ↔
      ∀ before c after, cs = before ++ c :: after →
        extent StringPiece.stored before + 4 ≤ n →
        n < extent StringPiece.stored before + c.stored →
        ∀ b ∈ c.data.drop (n - extent StringPiece.stored before - 4), b = 0 := by
  rw [RecordFile.ofChunks_eq] at hfile
  obtain rfl := Except.ok.inj hfile
  calc RecordFile.YieldsPrefix cs ((chunkBytes cs).take n)
      ↔ ∃ got, Reads (readFrame intField 0) ((chunkBytes cs).take n) got ∧
          got <+: cs.map StringPiece.data := by
        simp only [← reads_nextChunk_iff]
        constructor
        · rintro ⟨fuel, got, hread, hgot⟩
          exact ⟨got, reads_of_readAll hread, hgot⟩
        · rintro ⟨got, hreads, hgot⟩
          exact ⟨_, got, hreads.readAll_eq (Nat.lt_succ_self _), hgot⟩
    _ ↔ _ := reads_prefix_iff (data_length_lt cs) n
    _ ↔ _ := by
        constructor
        · rintro hlost before c after rfl hlow hhigh
          have := hlost (before.map StringPiece.data) c.data (after.map StringPiece.data) (by simp)
          rw [extent_data] at this
          exact this hlow hhigh
        · intro hlost before c after hsplit hlow hhigh
          obtain ⟨before, _, rfl, rfl, hcons⟩ := List.map_eq_append_iff.mp hsplit
          obtain ⟨c, after, rfl, rfl, rfl⟩ := List.map_eq_cons_iff.mp hcons
          rw [extent_data] at hlow hhigh ⊢
          exact hlost before c after rfl hlow hhigh

/-! ## Entries that are read from a file that has been cut off -/

theorem length_chunkBytes (cs : List StringPiece) :
    (chunkBytes cs).length = extent StringPiece.stored cs := by
  rw [chunkBytes, length_frames, extent_data]

/-- What is left of a file that is cut within an entry. -/
theorem take_chunkBytes {before after : List EntryPieces} {e : EntryPieces}
    (hlow : extent EntryPieces.stored before ≤ n)
    (hhigh : n < extent EntryPieces.stored before + e.stored) :
    (chunkBytes ((before ++ e :: after).flatMap EntryPieces.chunks)).take n =
      chunkBytes (before.flatMap EntryPieces.chunks) ++
        (chunkBytes e.chunks).take (n - extent EntryPieces.stored before) := by
  have hbefore : (chunkBytes (before.flatMap EntryPieces.chunks)).length =
      extent EntryPieces.stored before := by
    rw [length_chunkBytes, extent_chunks]
  have he : n - (chunkBytes (before.flatMap EntryPieces.chunks)).length ≤
      (chunkBytes e.chunks).length := by
    rw [hbefore, length_chunkBytes, ← EntryPieces.stored]
    omega
  rw [List.flatMap_append, List.flatMap_cons, chunkBytes_append, chunkBytes_append,
    List.take_append, List.take_append_of_le_length he, List.take_of_length_le (hbefore ▸ hlow),
    hbefore]

/-- Complete entries in front of what the readers of chunks and entries take for `g` and
`xs`. -/
theorem reads_entries_of_tail {t : Bytes} {g : List Bytes} {xs : List Entry}
    (ht : Reads (readFrame intField 0) t g) (hg : Reads nextEntry g xs) (es : List EntryPieces) :
    Reads (LocalTableCoder.readEntryFromFile LocalFile.read)
      (chunkBytes (es.flatMap EntryPieces.chunks) ++ t) (es.map EntryPieces.toEntry ++ xs) := by
  have hchunks : HasChunks (· = ·) (chunkBytes (es.flatMap EntryPieces.chunks) ++ t)
      ((es.map EntryPieces.toEntry).flatMap Entry.chunks ++ g) := by
    refine ⟨_, rfl, ?_⟩
    rw [← map_data_chunks]
    exact ht.frames_append (data_length_lt _)
  exact hchunks.readsEntries LocalFile.readsStream (reads_entries_append hg _)

/-- The chunks of an entry that is cut off behind the length of its key. -/
theorem exists_reads_cut_entry {e : EntryPieces} {m : ℕ} (hlow : 4 ≤ m) (hhigh : m < e.stored) :
    ∃ g, Reads (readFrame intField 0) ((chunkBytes e.chunks).take m) g ∧ g ≠ [] ∧ g.length ≤ 4 := by
  have hlimit := data_length_lt e.chunks
  have hcount : (e.chunks.map StringPiece.data).length = 4 := rfl
  rw [EntryPieces.stored, ← extent_data] at hhigh
  rw [chunkBytes]
  cases cut (frameSize intField) (e.chunks.map StringPiece.data) m with
  | behind hm => exact absurd hhigh (Nat.not_lt.mpr hm)
  | within before c after hsplit hm hm' =>
    rw [hsplit] at hlimit hcount ⊢
    rw [List.length_append, List.length_cons] at hcount
    refine ⟨_, reads_take_within hlimit hm hm', ?_, ?_⟩
    · split_ifs with hfield
      · rintro rfl
        rw [intField_width, extent_nil] at hfield
        omega
      · exact List.append_ne_nil_of_right_ne_nil _ (List.cons_ne_nil _ _)
    · split_ifs with hfield
      · omega
      · rw [List.length_append, List.length_singleton]
        omega

/-- A file that is cut off in an entry, but behind the length of its key, gives an entry
more than it completely has. -/
theorem reads_entry_of_cut {before : List EntryPieces} {e : EntryPieces}
    (after : List EntryPieces) (hlow : extent EntryPieces.stored before + 4 ≤ n)
    (hhigh : n < extent EntryPieces.stored before + e.stored) :
    ∃ x, Reads (LocalTableCoder.readEntryFromFile LocalFile.read)
      ((chunkBytes ((before ++ e :: after).flatMap EntryPieces.chunks)).take n)
      (before.map EntryPieces.toEntry ++ [x]) := by
  obtain ⟨g, hg, hne, hcount⟩ := exists_reads_cut_entry
    (m := n - extent EntryPieces.stored before) (e := e) (by omega) (by omega)
  obtain ⟨x, hx⟩ := exists_reads_partial hne hcount
  rw [take_chunkBytes (by omega) hhigh]
  exact ⟨x, reads_entries_of_tail hg hx before⟩

/-- A file that is cut off in the length of a key. -/
theorem reads_entries_of_cut_key {before after : List EntryPieces} {e : EntryPieces}
    (hlow : extent EntryPieces.stored before ≤ n)
    (hhigh : n < extent EntryPieces.stored before + e.stored)
    (hkey : n < extent EntryPieces.stored before + 4) :
    Reads (LocalTableCoder.readEntryFromFile LocalFile.read)
      ((chunkBytes ((before ++ e :: after).flatMap EntryPieces.chunks)).take n)
      (before.map EntryPieces.toEntry) := by
  have hend : ((chunkBytes e.chunks).take (n - extent EntryPieces.stored before)).length <
      intField.width := by
    rw [List.length_take, intField_width]
    omega
  rw [take_chunkBytes hlow hhigh, ← List.append_nil (before.map EntryPieces.toEntry)]
  exact reads_entries_of_tail (reads_of_length_lt hend) (.done rfl) before

/-- Entries that are read from a file that has been cut off. -/
theorem LocalTableCoder.yieldsComplete_iff
    (hfile : LocalTableCoder.ofEntries es = .ok file) (n : ℕ) :
    LocalTableCoder.YieldsComplete es n (file.take n) ↔
      ∀ before e after, es = before ++ e :: after →
        ¬ (extent EntryPieces.stored before + 4 ≤ n ∧
          n < extent EntryPieces.stored before + e.stored) := by
  rw [LocalTableCoder.ofEntries_eq, RecordFile.ofChunks_eq] at hfile
  obtain rfl := Except.ok.inj hfile
  constructor
  · rintro ⟨fuel, got, hread, hgot, hcomplete⟩ before e after rfl ⟨hlow, hhigh⟩
    obtain ⟨x, hx⟩ := reads_entry_of_cut after hlow hhigh
    have hsame : got.map EntryPieces.toEntry = before.map EntryPieces.toEntry ++ [x] :=
      (reads_of_readAll hread).unique hx
    have hlength : got.length = before.length + 1 := by
      simpa using congrArg List.length hsame
    -- a prefix of this length ends with the entry that is cut
    obtain rfl : got = before ++ [e] := by
      rw [List.prefix_iff_eq_take.mp hgot, hlength, List.take_length_add_append]
      rfl
    rw [extent_append, extent_cons, extent_nil] at hcomplete
    omega
  · intro hcut
    cases cut EntryPieces.stored es n with
    | behind hn =>
      refine ⟨es.length + 1, es, ?_, List.prefix_refl es, hn⟩
      rw [List.take_of_length_le (by rwa [length_chunkBytes, extent_chunks])]
      have hnil : Reads (readFrame intField 0) [] [] := reads_of_length_lt intField.width_pos
      have hreads := reads_entries_of_tail hnil (.done rfl) es
      rw [List.append_nil, List.append_nil] at hreads
      exact hreads.readAll_eq (by rw [List.length_map]; exact Nat.lt_succ_self _)
    | within before e after hsplit hlow hhigh =>
      have hkey : n < extent EntryPieces.stored before + 4 := by
        have := hcut before e after hsplit
        omega
      subst hsplit
      refine ⟨before.length + 1, before, ?_, List.prefix_append _ _, hlow⟩
      exact (reads_entries_of_cut_key hlow hhigh hkey).readAll_eq
        (by rw [List.length_map]; exact Nat.lt_succ_self _)

/-- A record file that has been cut off after `n` bytes. Its chunks are a prefix of those
written if and only if the bytes that the cut has taken from the body of a chunk are zero.
Its entries were completely in the file if and only if the cut is in no entry behind the
length of its key. -/
theorem truncated_file_iff (n : ℕ) :
    (∀ cs, ∃ file, RecordFile.ofChunks cs = .ok file ∧
      (RecordFile.YieldsPrefix cs (file.take n) ↔
        ∀ before c after, cs = before ++ c :: after →
          extent StringPiece.stored before + 4 ≤ n →
          n < extent StringPiece.stored before + c.stored →
          ∀ b ∈ c.data.drop (n - extent StringPiece.stored before - 4), b = 0)) ∧
    ∀ es, ∃ file, LocalTableCoder.ofEntries es = .ok file ∧
      (LocalTableCoder.YieldsComplete es n (file.take n) ↔
        ∀ before e after, es = before ++ e :: after →
          ¬ (extent EntryPieces.stored before + 4 ≤ n ∧
            n < extent EntryPieces.stored before + e.stored)) := by
  constructor
  · intro cs
    have hfile := RecordFile.ofChunks_eq cs
    exact ⟨_, hfile, RecordFile.yieldsPrefix_iff hfile n⟩
  · intro es
    have hfile : LocalTableCoder.ofEntries es =
      .ok (chunkBytes (es.flatMap EntryPieces.chunks)) := by
      rw [LocalTableCoder.ofEntries_eq, RecordFile.ofChunks_eq]
    exact ⟨_, hfile, LocalTableCoder.yieldsComplete_iff hfile n⟩

/-- A file with the chunk `[1, 2]` that has lost its last byte gives the chunk `[1, 0]`. A
file that has lost all of an entry behind its key gives an entry. -/
theorem fabricated_of_truncated :
    (∃ cs n file, RecordFile.ofChunks cs = .ok file ∧ ¬ RecordFile.YieldsPrefix cs (file.take n)) ∧
    ∃ es n file, LocalTableCoder.ofEntries es = .ok file ∧
      ¬ LocalTableCoder.YieldsComplete es n (file.take n) := by
  let c : StringPiece := ⟨[1, 2], by decide⟩
  let e : EntryPieces := ⟨c, c, c, c⟩
  constructor
  · refine ⟨[c], 5, _, RecordFile.ofChunks_eq [c], ?_⟩
    intro hyields
    have hlost := (RecordFile.yieldsPrefix_iff (RecordFile.ofChunks_eq [c]) 5).mp hyields
    exact absurd (hlost [] c [] rfl (by decide) (by decide) 2 (by decide)) (by decide)
  · have hfile : LocalTableCoder.ofEntries [e] = .ok (chunkBytes e.chunks) := by
      rw [LocalTableCoder.ofEntries_eq, RecordFile.ofChunks_eq]
      rfl
    refine ⟨[e], 6, _, hfile, ?_⟩
    intro hyields
    exact (LocalTableCoder.yieldsComplete_iff hfile 6).mp hyields [] e [] rfl
      ⟨by decide, by decide⟩

end MaiterStore
