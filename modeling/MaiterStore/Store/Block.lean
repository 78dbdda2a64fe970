/-
# The block format

`BlockWriter` (`store/blockwriter.h`) packs the lines `key<TAB>value` of a text file into
blocks, as records `key=value#`. A block that has no room for the next line is filled up
with `#` and written. `KVReader` (`store/kvreader.h`) takes the text of a block, cuts it
back to where it ends with `####`, and splits what is left into records.

The loop that cuts the text back ends only if there is a `####`. A record that ends a block
contributes one `#`, so a block needs three more to be readable. The last block is written
before it is filled up, and it is never readable.

A byte is a character. Block offsets are values of type `int`.
-/

import MaiterStore.CS.BlockFile
import MaiterStore.Store.Text

namespace MaiterStore

open CS.BlockFile

/-- `BLOCK_SIZE` (`store/const.h`). -/
def blockSize : ℕ := 1024 * 8

/-- `Record` (`store/record.h`). -/
structure Record where
  key : Text
  value : Text
  deriving DecidableEq, Repr

/-- `Record::set(record)`. Without a `=` both substrings are the whole of it. -/
def Record.set (record : Text) : Record :=
  if '=' ∈ record then
    ⟨record.takeWhile (· ≠ '='), (record.dropWhile (· ≠ '=')).tail⟩
  else ⟨record, record⟩

/-! ## Writing -/

/-- The output stream: what the file has, and whether an operation has failed. -/
structure OutStream where
  bytes : List Char
  failed : Bool
  deriving DecidableEq, Repr

/-- `BlockWriter` (`store/blockwriter.h`). -/
structure BlockWriter where
  masters : Text
  buffer : Text
  keys : Text
  out : OutStream
  deriving DecidableEq, Repr

namespace BlockWriter

/-- The constructor. -/
def new : BlockWriter := ⟨[], [], [], ⟨[], false⟩⟩

/-- `write(blockStart, buf, len)`. A negative offset fails the stream, and a failed stream
writes nothing any more. -/
def write (blockStart : ℕ) (buf : Text) (w : BlockWriter) : BlockWriter :=
  let offset : ℤ := ((blockStart * blockSize : ℕ) : ℤ).bmod (2 ^ 32)
  if w.out.failed then w
  else if offset < 0 then { w with out := { w.out with failed := true } }
  else { w with out := { w.out with bytes := writeAt '\x00' w.out.bytes offset.toNat buf } }

/-- `fillBuffer()`. -/
def fillBuffer (w : BlockWriter) : BlockWriter :=
  { w with buffer := w.buffer ++ List.replicate (blockSize - w.buffer.length) '#' }

/-- `setMasters(buf)`. -/
def setMasters (buf : Text) (w : BlockWriter) : BlockWriter :=
  { w with masters := w.masters ++ buf.takeWhile (· ≠ '=') ++ ['#'] }

/-- `handleLine(line)`, with the record it returns. A line without a tab has no second
part. -/
def handleLine (line : Text) (w : BlockWriter) : Option (Text × BlockWriter) :=
  match (trimRight line).splitOn '\t' with
  | key :: value :: _ =>
    some (key ++ ['='] ++ value ++ ['#'], { w with keys := w.keys ++ key ++ ['#'] })
  | _ => none

/-- The branch of `batchedWrite` for a full buffer. -/
def flush (i : ℕ) (w : BlockWriter) : BlockWriter :=
  let w := (w.setMasters w.buffer).fillBuffer
  { w.write i w.buffer with buffer := [] }

/-- The end of `batchedWrite`. The buffer is filled up only after it has been written. -/
def writeLast (i : ℕ) (w : BlockWriter) : BlockWriter :=
  if w.buffer.length ≠ 0 then
    let w := w.setMasters w.buffer
    (w.write i w.buffer).fillBuffer
  else w

/-- The loop of `batchedWrite`, with the index of the next block. -/
def writeLoop : List Text → ℕ → BlockWriter → Option BlockWriter
  | [], i, w => some (w.writeLast i)
  | line :: lines, i, w =>
    let full := blockSize < w.buffer.length + line.length
    let w := if full then w.flush i else w
    (w.handleLine line).bind fun r =>
      writeLoop lines (if full then i + 1 else i) { r.2 with buffer := r.2.buffer ++ r.1 }

/-- `batchedWrite()`. -/
def batchedWrite (lines : List Text) : Option BlockWriter := writeLoop lines 0 new

end BlockWriter

/-! ## Reading -/

/-- The text of block `i`: its bytes up to the first NUL or the end of the block. -/
def blockText (file : List Char) (i : ℕ) : Text :=
  (blockAt blockSize file i).takeWhile (· ≠ '\x00')

/-- The text `####`. -/
def endMarker : Text := ['#', '#', '#', '#']

namespace KVReader

/-- The loop `while (!ends_with(text, "####")) erase_tail(text, 1)`, for some rounds. -/
def eraseLoop : ℕ → Text → Option Text
  | 0, _ => none
  | rounds + 1, text => if endMarker <:+ text then some text else eraseLoop rounds text.dropLast

/-- One separator in place of each run of them, for `token_compress_on`. -/
def compress (sep : Char) : Text → Text
  | a :: b :: s => if a = sep ∧ b = sep then compress sep (b :: s) else a :: compress sep (b :: s)
  | s => s

/-- `splitString(text, delimiter)`. -/
def splitString (rounds : ℕ) (text : Text) (delimiter : Char) : Option (List Text) :=
  (eraseLoop rounds text).map fun text =>
    (compress delimiter (text.rdropWhile fun c => !c.isDigit)).splitOn delimiter

/-- `getRecordList(text)`, or `none` if the loop has not ended within the rounds. -/
def getRecordList (rounds : ℕ) (text : Text) : Option (List Record) :=
  (splitString rounds text '#').map fun result => result.map Record.set

end KVReader

/-! ## Records and their packing -/

/-- A record as it is written to a block. -/
def Record.text (r : Record) : Text := r.key ++ ['='] ++ r.value ++ ['#']

/-- A record as a line of the input file. -/
def Record.line (r : Record) : Text := r.key ++ ['\t'] ++ r.value

/-- A line of the input file: a decimal key and decimal numbers with single spaces between
them, shorter than a block. -/
structure Record.IsLine (r : Record) : Prop where
  key : IsDigits r.key
  value : ∃ numbers ≠ [], r.value = [' '].intercalate numbers ∧ ∀ s ∈ numbers, IsDigits s
  short : r.line.length < blockSize

/-- The bytes of a list of records. -/
def packed (rs : List Record) : Text := rs.flatMap Record.text

/-- The records of each block, from the records not yet packed and those in the current
block. -/
def packLoop : List Record → List Record → List (List Record)
  | [], cur => if cur = [] then [] else [cur]
  | r :: rs, cur =>
    if blockSize < (packed cur).length + r.line.length then cur :: packLoop rs [r]
    else packLoop rs (cur ++ [r])

/-- The records of each block. -/
def pack (rs : List Record) : List (List Record) := packLoop rs []

/-- The text of block `i` is read back as `block`. -/
def ReadsBack (file : List Char) (i : ℕ) (block : List Record) : Prop :=
  ∃ rounds, KVReader.getRecordList rounds (blockText file i) = some block

/-! ## What the loop of the reader finds -/

/-- What has no `c` is in one of the two parts around a `c`. -/
theorem infix_append_cons {s l₁ l₂ : Text} {c : Char} (hc : c ∉ s) (h : s <:+: l₁ ++ c :: l₂) :
    s <:+: l₁ ∨ s <:+: l₂ := by
  obtain ⟨p, q, hpq⟩ := h
  rcases List.append_eq_append_iff.mp hpq with ⟨a, hl₁, -⟩ | ⟨a, hps, hcl⟩
  · exact .inl ⟨p, a, hl₁.symm⟩
  · rcases List.cons_eq_append_iff.mp hcl with ⟨rfl, -⟩ | ⟨a', rfl, hl₂⟩
    · exact .inl ⟨p, [], by simpa using hps⟩
    · -- the `c` is in `p ++ s`, so it is in `p`
      rcases List.append_eq_append_iff.mp hps with ⟨b, -, hs⟩ | ⟨b, -, hb⟩
      · exact absurd (hs ▸ List.mem_append_right _ List.mem_cons_self) hc
      · rcases List.cons_eq_append_iff.mp hb with ⟨-, hs⟩ | ⟨b', -, hs⟩
        · exact absurd (hs ▸ List.mem_cons_self) hc
        · exact .inr ⟨b', q, by rw [hl₂, hs]⟩

namespace KVReader

variable {text : Text}

/-- Without a `####` the loop does not end. -/
theorem eraseLoop_eq_none (h : ¬ endMarker <:+: text) (rounds : ℕ) :
    eraseLoop rounds text = none := by
  induction rounds generalizing text with
  | zero => rfl
  | succ rounds ih =>
    rw [eraseLoop, if_neg fun hsuffix => h hsuffix.isInfix]
    exact ih fun hmarker => h (hmarker.trans (List.dropLast_prefix text).isInfix)

theorem getRecordList_eq_none (h : ¬ endMarker <:+: text) (rounds : ℕ) :
    getRecordList rounds text = none := by
  rw [getRecordList, splitString, eraseLoop_eq_none h]
  rfl

theorem eraseLoop_eq_some (h : endMarker <:+ text) (rounds : ℕ) :
    eraseLoop (rounds + 1) text = some text :=
  if_pos h

/-- Where no two separators stand together there is nothing to compress. -/
theorem compress_eq_self {sep : Char} (h : ¬ [sep, sep] <:+: text) : compress sep text = text := by
  fun_induction compress sep text with
  | case1 a b s hab =>
    obtain ⟨rfl, rfl⟩ := hab
    exact absurd ⟨[], s, rfl⟩ h
  | case2 a b s hab ih =>
    rw [ih fun hmarker => h (hmarker.trans (List.suffix_cons a (b :: s)).isInfix)]
  | case3 s => rfl

end KVReader

/-! ## The characters of a record -/

/-- Joined parts have the characters of the parts and the separator, and the end of the
last part. -/
theorem intercalate_chars {x : Char} {p q : Char → Prop} {parts : List Text} (hne : parts ≠ [])
    (hparts : ∀ s ∈ parts, (∀ c ∈ s, p c) ∧ ∃ v d, s = v ++ [d] ∧ q d) :
    (∀ c ∈ [x].intercalate parts, p c ∨ c = x) ∧
      ∃ v d, [x].intercalate parts = v ++ [d] ∧ q d := by
  induction parts with
  | nil => exact absurd rfl hne
  | cons s parts ih =>
    obtain ⟨hs, hlast⟩ := hparts s List.mem_cons_self
    cases parts with
    | nil =>
      rw [List.intercalate_singleton]
      exact ⟨fun c hc => .inl (hs c hc), hlast⟩
    | cons s' parts =>
      obtain ⟨hchars, v, d, heq, hd⟩ :=
        ih (List.cons_ne_nil _ _) fun t ht => hparts t (List.mem_cons_of_mem _ ht)
      rw [List.intercalate_cons_cons]
      refine ⟨fun c hc => ?_, s ++ [x] ++ v, d, by rw [heq, ← List.append_assoc], hd⟩
      rcases List.mem_append.mp hc with hc | hc
      · rcases List.mem_append.mp hc with hc | hc
        · exact .inl (hs c hc)
        · exact .inr (List.mem_singleton.mp hc)
      · exact hchars c hc

theorem rdropWhile_append_replicate {p : Char → Bool} {c : Char} (hc : p c = true)
    (l : Text) (n : ℕ) :
    (l ++ List.replicate n c).rdropWhile p = l.rdropWhile p := by
  induction n with
  | zero => rw [List.replicate_zero, List.append_nil]
  | succ n ih =>
    rw [List.replicate_succ', ← List.append_assoc, List.rdropWhile_concat_pos _ _ _ hc, ih]

theorem IsDigits.chars {s : Text} (h : IsDigits s) :
    (∀ c ∈ s, c.isDigit = true) ∧ ∃ v d, s = v ++ [d] ∧ d.isDigit = true :=
  ⟨h.2, s.dropLast, s.getLast h.1, (List.dropLast_append_getLast h.1).symm,
    h.2 _ (List.getLast_mem h.1)⟩

namespace Record

/-- A record without the `#` at its end. -/
def body (r : Record) : Text := r.key ++ ['='] ++ r.value

variable {r : Record}

theorem length_text (r : Record) : r.text.length = r.line.length + 1 := by
  simp only [text, line, List.length_append, List.length_singleton]

theorem IsLine.value_chars (h : r.IsLine) :
    (∀ c ∈ r.value, c.isDigit = true ∨ c = ' ') ∧ ∃ v d, r.value = v ++ [d] ∧ d.isDigit = true := by
  obtain ⟨numbers, hne, heq, hdigits⟩ := h.value
  rw [heq]
  exact intercalate_chars hne fun s hs => (hdigits s hs).chars

/-- The key and the value have no character that is neither a digit nor a space. -/
theorem IsLine.not_mem (h : r.IsLine) {c : Char} (hdigit : c.isDigit = false) (hspace : c ≠ ' ') :
    c ∉ r.key ∧ c ∉ r.value := by
  refine ⟨h.key.not_mem hdigit, fun hc => ?_⟩
  rcases h.value_chars.1 c hc with hc | hc
  · rw [hc] at hdigit
    exact Bool.noConfusion hdigit
  · exact hspace hc

theorem IsLine.not_mem_body (h : r.IsLine) {c : Char} (hdigit : c.isDigit = false)
    (hspace : c ≠ ' ') (heq : c ≠ '=') : c ∉ r.body := by
  obtain ⟨hkey, hvalue⟩ := h.not_mem hdigit hspace
  simp [body, hkey, hvalue, heq]

theorem IsLine.set_body (h : r.IsLine) : Record.set r.body = r := by
  have hkey : ∀ c ∈ r.key, decide (c ≠ '=') = true := by
    intro c hc
    rw [decide_eq_true_eq]
    rintro rfl
    exact (h.not_mem (by decide) (by decide)).1 hc
  have hmem : '=' ∈ r.body := by simp [body]
  rw [Record.set, if_pos hmem, body, List.append_assoc, List.takeWhile_append_of_pos hkey,
    List.dropWhile_append_of_pos hkey]
  simp

end Record

/-- The records of a block without the `#` at its end, which is the only place where two
separators could meet. -/
theorem packed_eq_intercalate {b : List Record} (hne : b ≠ []) :
    packed b = ['#'].intercalate (b.map Record.body) ++ ['#'] := by
  rw [intercalate_append_singleton (by simpa using hne), List.flatMap_map]
  rfl

/-- **The runs of `#` in a block.** Between two records there is one. -/
theorem not_infix_packed {b : List Record} (hb : ∀ r ∈ b, r.IsLine) {k : ℕ} (hk : 1 < k)
    {a t : Text} (ha : a.length ≤ 1) (ht : t.length + 1 < k) :
    ¬ List.replicate k '#' <:+: a ++ packed b ++ t := by
  induction b generalizing a with
  | nil =>
    intro h
    have hlen := h.length_le
    simp [packed] at hlen
    omega
  | cons r b ih =>
    intro h
    have hr := hb r List.mem_cons_self
    obtain ⟨v, d, hvalue, hd⟩ := hr.value_chars.2
    obtain ⟨x, key, hkey⟩ := List.exists_cons_of_ne_nil hr.key.1
    have hx := hr.key.2 x (hkey ▸ List.mem_cons_self)
    have hne : ∀ c : Char, c.isDigit = true → c ∉ List.replicate k '#' := by
      intro c hc hmem
      rw [List.eq_of_mem_replicate hmem] at hc
      exact absurd hc (by decide)
    -- the key begins and the value ends with a character that is no `#`, so a run of `#` lies
    -- before the record, in it, or behind it
    have hsplit : a ++ packed (r :: b) ++ t =
        a ++ x :: ((key ++ ['='] ++ v) ++ d :: (['#'] ++ packed b ++ t)) := by
      simp [packed, Record.text, hkey, hvalue]
    rw [hsplit] at h
    rcases infix_append_cons (hne x hx) h with h | h
    · have hlen := h.length_le
      rw [List.length_replicate] at hlen
      omega
    · rcases infix_append_cons (hne d hd) h with h | h
      · -- the record has no `#` but the one at its end
        have hmem : '#' ∈ key ++ ['='] ++ v :=
          h.subset (List.mem_replicate.mpr ⟨by omega, rfl⟩)
        obtain ⟨hk', hv'⟩ := hr.not_mem (c := '#') (by decide) (by decide)
        simp [hkey, hvalue] at hk' hv' hmem
        grind
      · exact ih (fun r' hr' => hb r' (List.mem_cons_of_mem _ hr')) (by simp) h

/-! ## Reading a block -/

/-- The buffer of a block, filled up. -/
def filled (b : List Record) : Text :=
  packed b ++ List.replicate (blockSize - (packed b).length) '#'

section ReadBlock

variable {b : List Record}

/-- Up to two more `#` are no end marker, also not where a part of the text is cut off. -/
theorem getRecordList_crowded (hb : ∀ r ∈ b, r.IsLine) {f : ℕ} (hf : f ≤ 2) {text : Text}
    (htext : text <+: packed b ++ List.replicate f '#') (rounds : ℕ) :
    KVReader.getRecordList rounds text = none := by
  refine KVReader.getRecordList_eq_none (fun h => ?_) rounds
  have hlen : (List.replicate f '#').length + 1 < 4 := by
    rw [List.length_replicate]
    omega
  exact not_infix_packed (a := []) hb (by omega) (by simp) hlen (h.trans htext.isInfix)

/-- With three more `#` the records are read back. -/
theorem getRecordList_filled (hb : ∀ r ∈ b, r.IsLine) (hne : b ≠ []) {f : ℕ} (hf : 3 ≤ f) :
    KVReader.getRecordList 1 (packed b ++ List.replicate f '#') = some b := by
  have hmap : b.map Record.body ≠ [] := by simpa using hne
  obtain ⟨-, v, d, hlast, hd⟩ :=
    intercalate_chars (x := '#') (p := fun _ => True) (q := fun c => c.isDigit = true) hmap (by
      intro s hs
      obtain ⟨r, hr, rfl⟩ := List.mem_map.mp hs
      obtain ⟨v, d, hvalue, hd⟩ := (hb r hr).value_chars.2
      exact ⟨fun _ _ => trivial, r.key ++ ['='] ++ v, d,
        by simp only [Record.body, hvalue, List.append_assoc], hd⟩)
  have htext : packed b ++ List.replicate f '#' =
      ['#'].intercalate (b.map Record.body) ++ List.replicate (f + 1) '#' := by
    rw [packed_eq_intercalate hne, List.append_assoc, List.replicate_succ]
    rfl
  have hsuffix : endMarker <:+ packed b ++ List.replicate f '#' := by
    rw [htext]
    refine List.IsSuffix.trans ⟨List.replicate (f - 3) '#', ?_⟩ (List.suffix_append _ _)
    have h4 : endMarker = List.replicate 4 '#' := rfl
    rw [h4, List.replicate_append_replicate]
    congr 1
    omega
  -- a body ends with a digit, so the trimming stops at the last one
  have htrim : (packed b ++ List.replicate f '#').rdropWhile (fun c => !c.isDigit) =
      ['#'].intercalate (b.map Record.body) := by
    rw [htext, rdropWhile_append_replicate (by decide), hlast]
    exact List.rdropWhile_concat_neg _ _ _ (by simp [hd])
  -- no two separators stand together, so there is nothing to compress
  have hcompress : ¬ ['#', '#'] <:+: ['#'].intercalate (b.map Record.body) := by
    intro h
    refine not_infix_packed (a := []) (t := []) (k := 2) hb (by omega) (by simp) (by simp) ?_
    rw [List.nil_append, List.append_nil, packed_eq_intercalate hne]
    exact h.trans (List.prefix_append _ _).isInfix
  have hnot : ∀ s ∈ b.map Record.body, '#' ∉ s := by
    intro s hs
    obtain ⟨r, hr, rfl⟩ := List.mem_map.mp hs
    exact (hb r hr).not_mem_body (by decide) (by decide) (by decide)
  rw [KVReader.getRecordList, KVReader.splitString, KVReader.eraseLoop_eq_some hsuffix,
    Option.map_some, htrim, KVReader.compress_eq_self hcompress,
    List.splitOn_intercalate _ hnot hmap, Option.map_some, List.map_map]
  congr 1
  calc b.map (Record.set ∘ Record.body) = b.map id :=
        List.map_congr_left fun r hr => (hb r hr).set_body
    _ = b := List.map_id b

end ReadBlock

end MaiterStore
