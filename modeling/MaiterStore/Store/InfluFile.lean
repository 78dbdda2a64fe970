/-
# The influence file

The constructor of `Cache` (`store/cache.h`) reads the vertices with the greatest influence and
their targets from a text file, one line `source<TAB>target target ...` each. It looks for a space
after every target. If the line does not end with one, a space is to be appended, but the test
reads the character after the last one, which is the terminating NUL, and so a space is always
appended. For the empty word that this leaves at the end of a line with a space, and for an empty
list, the loop pushes a variable that has no value yet.

A target is kept in an `int` before it is pushed.

What an uninitialised variable holds is a parameter: `stale i n` is the value of `to` at line `i`
after `n` targets.
-/

import MaiterStore.Store.Cache

namespace MaiterStore

/-! ## The constructor -/

/-- `int pos = s.find(c)`. If there is no `c`, `npos` becomes `-1`. -/
def findInt (c : Char) (s : Text) : ℤ :=
  if c ∈ s then ((s.takeWhile (· ≠ c)).length : ℤ).bmod (2 ^ 32) else -1

/-- `*s.end()`. -/
def endChar (_ : Text) : Char := '\x00'

namespace Cache

/-- The loop over the links of a line, for some rounds. `none` is an exception: of
`lexical_cast`, or of `substr` behind the end. -/
def linkLoop (stale : ℕ → ℤ) : ℕ → Text → List ℤ → Option (List ℤ)
  | 0, _, _ => none
  | rounds + 1, links, linkvec =>
    let spacepos := findInt ' ' links
    if spacepos = -1 then some linkvec
    else if spacepos < 0 then none
    else
      let target :=
        if 0 < spacepos then
          (lexicalCast (links.take spacepos.toNat)).map fun v => v.bmod (2 ^ 32)
        else some (stale linkvec.length)
      target.bind fun target =>
        linkLoop stale rounds (links.drop (spacepos.toNat + 1)) (linkvec ++ [target])

/-- The loop over the lines, with the number of the next one. A line without a tab ends it. -/
def loadLoop (stale : ℕ → ℕ → ℤ) :
    ℕ → List Text → KVMap ℤ (List ℤ) → Option (KVMap ℤ (List ℤ))
  | _, [], influMap => some influMap
  | i, linestr :: lines, influMap =>
    let pos := findInt '\t' linestr
    if pos = -1 then some influMap
    -- with any other negative length the substring is the whole line, which is no numeral
    else if pos < 0 then none
    else
      (lexicalCast (linestr.take pos.toNat)).bind fun source =>
        let links := linestr.drop (pos.toNat + 1)
        let links := if endChar links ≠ ' ' then links ++ [' '] else links
        (linkLoop (stale i) (links.length + 1) links []).bind fun linkvec =>
          loadLoop stale (i + 1) lines (influMap.add source linkvec)

/-- `Cache()`, with the map it loads from the lines of the file. -/
def load (stale : ℕ → ℕ → ℤ) (lines : List Text) : Option (KVMap ℤ (List ℤ)) :=
  loadLoop stale 0 lines ∅

end Cache

/-! ## The file -/

/-- An id as it is written in the file. -/
structure IdText where
  text : Text
  value : ℤ
  isNumeral : IsNumeral text value
  short : text.length < 2 ^ 31

/-- A line of the file, with or without a space at its end. -/
structure InfluLine where
  source : IdText
  targets : List IdText
  trailing : Bool

/-- The line as it is in the file. -/
def InfluLine.text (l : InfluLine) : Text :=
  l.source.text ++ '\t' :: ([' '].intercalate (l.targets.map IdText.text) ++
    if l.trailing then [' '] else [])

/-- The list of targets that was written. -/
def InfluLine.written (l : InfluLine) : List ℤ := l.targets.map IdText.value

/-- `l` is the last line of its source. -/
def IsLastLine (lines : List InfluLine) (l : InfluLine) : Prop :=
  ∃ before after, lines = before ++ l :: after ∧ ∀ l' ∈ after, l'.source.value ≠ l.source.value

/-- The cache serves exactly the sources of the file from its map, each with the list of targets
that was last written for it. -/
structure ServesWritten (influMap : KVMap ℤ (List ℤ)) (lines : List InfluLine) : Prop where
  contains_iff : ∀ (P : Type) k,
    (Cache.new influMap : Cache ℤ (List ℤ) P).containsInfluKey k = true ↔
      ∃ l ∈ lines, l.source.value = k
  getValue_eq : ∀ (P : Type) l, IsLastLine lines l →
    (Cache.new influMap : Cache ℤ (List ℤ) P).getValue l.source.value = .ok l.written

/-- The list is not empty, no space follows it, and its targets are values of type `int`. -/
structure InfluLine.Plain (l : InfluLine) : Prop where
  ne_nil : l.targets ≠ []
  not_trailing : l.trailing = false
  int : ∀ t ∈ l.targets, -2 ^ 31 ≤ t.value ∧ t.value < 2 ^ 31

/-! ## A line -/

theorem findInt_append {c : Char} {s : Text} (hs : c ∉ s) (hshort : s.length < 2 ^ 31) (t : Text) :
    findInt c (s ++ c :: t) = s.length := by
  unfold findInt
  rw [if_pos (List.mem_append_right _ List.mem_cons_self), takeWhile_ne_append hs, Int.bmod_def]
  omega

theorem bmod_eq_self_iff {v : ℤ} : v.bmod (2 ^ 32) = v ↔ -2 ^ 31 ≤ v ∧ v < 2 ^ 31 := by
  rw [Int.bmod_def]
  omega

/-- The text of a word: of an id, or of nothing. -/
def wordText (word : Option IdText) : Text := word.elim [] IdText.text

/-- What is pushed for a word after `n` targets. -/
def wordValue (stale : ℕ → ℤ) (n : ℕ) (word : Option IdText) : ℤ :=
  word.elim (stale n) fun t => t.value.bmod (2 ^ 32)

/-- The words of a line, each of which has a space after it once the constructor has appended
one. -/
def InfluLine.words (l : InfluLine) : List (Option IdText) :=
  (if l.targets = [] then [none] else l.targets.map some) ++ if l.trailing then [none] else []

theorem InfluLine.words_eq_map (l : InfluLine) (hne : l.targets ≠ [])
    (htrailing : l.trailing = false) :
    l.words = l.targets.map some := by
  rw [words, if_neg hne, htrailing, if_neg Bool.false_ne_true, List.append_nil]

/-- An empty list and a space at the end of the line each make a word too many. -/
theorem InfluLine.length_words_eq_iff (l : InfluLine) :
    l.words.length = l.targets.length ↔ l.targets ≠ [] ∧ l.trailing = false := by
  rw [words, List.length_append]
  by_cases hnil : l.targets = []
  · simp [hnil]
  · rw [if_neg hnil, List.length_map]
    cases l.trailing
    all_goals simp [hnil]

/-- The list that the constructor makes of the line. -/
def InfluLine.pushed (stale : ℕ → ℤ) (l : InfluLine) : List ℤ := l.words.mapIdx (wordValue stale)

/-- It is what was written if the line is plain. -/
theorem InfluLine.pushed_eq_written_iff (stale : ℕ → ℤ) (l : InfluLine) :
    l.pushed stale = l.written ↔ l.Plain := by
  have hvalues : l.words = l.targets.map some →
      l.pushed stale = l.targets.map fun t => t.value.bmod (2 ^ 32) := by
    intro hwords
    rw [pushed, hwords]
    ext1 n
    rw [List.getElem?_mapIdx, List.getElem?_map, List.getElem?_map, Option.map_map]
    rfl
  constructor
  · intro hpushed
    have hcount : l.words.length = l.targets.length := by
      rw [← List.length_mapIdx (f := wordValue stale), ← pushed, hpushed, written, List.length_map]
    obtain ⟨hne, htrailing⟩ := l.length_words_eq_iff.mp hcount
    have hsame := (hvalues (l.words_eq_map hne htrailing)).symm.trans hpushed
    refine ⟨hne, htrailing, fun t ht => ?_⟩
    exact bmod_eq_self_iff.mp (List.map_inj_left.mp hsame t ht)
  · intro hplain
    rw [hvalues (l.words_eq_map hplain.ne_nil hplain.not_trailing)]
    exact List.map_congr_left fun t ht => bmod_eq_self_iff.mpr (hplain.int t ht)

theorem InfluLine.links_eq (l : InfluLine) :
    ([' '].intercalate (l.targets.map IdText.text) ++ if l.trailing then [' '] else []) ++ [' '] =
      l.words.flatMap fun word => wordText word ++ [' '] := by
  have hwords : (l.targets.map some).flatMap (fun word => wordText word ++ [' ']) =
      (l.targets.map IdText.text).flatMap fun s => s ++ [' '] := by
    rw [List.flatMap_map, List.flatMap_map]
    rfl
  rw [words, List.flatMap_append]
  by_cases hnil : l.targets = []
  · rw [if_pos hnil, hnil]
    cases l.trailing
    all_goals rfl
  · rw [if_neg hnil, hwords, ← intercalate_append_singleton (by simpa using hnil)]
    cases l.trailing
    all_goals simp [wordText]

namespace Cache

variable {stale : ℕ → ℤ} {links : Text} {linkvec : List ℤ}

theorem linkLoop_nil (stale : ℕ → ℤ) (rounds : ℕ) (linkvec : List ℤ) :
    linkLoop stale (rounds + 1) [] linkvec = some linkvec :=
  rfl

/-- A round of the loop. -/
theorem linkLoop_word (stale : ℕ → ℤ) (rounds : ℕ) (word : Option IdText) (links : Text)
    (linkvec : List ℤ) :
    linkLoop stale (rounds + 1) (wordText word ++ ' ' :: links) linkvec =
      linkLoop stale rounds links (linkvec ++ [wordValue stale linkvec.length word]) := by
  -- a word is short and ends at the first space, so the loop takes it off as a whole
  have hspace : ' ' ∉ wordText word := by
    cases word with
    | none => exact List.not_mem_nil
    | some t => exact t.isNumeral.chars.1
  have hshort : (wordText word).length < 2 ^ 31 := by
    cases word with
    | none => exact Nat.two_pow_pos 31
    | some t => exact t.short
  have hdrop : (wordText word ++ ' ' :: links).drop ((wordText word).length + 1) = links := by
    rw [List.drop_append]
    simp
  rw [linkLoop, findInt_append hspace hshort]
  simp only [Int.toNat_natCast, hdrop, List.take_left]
  rw [if_neg (by omega), if_neg (by omega)]
  cases word with
  | none => rfl
  | some t =>
    have hpos : (0 : ℤ) < (wordText (some t)).length := by
      obtain ⟨c, hlast, -⟩ := t.isNumeral.chars.2
      have hne : t.text ≠ [] := by
        rintro hnil
        rw [hnil] at hlast
        cases hlast
      exact Int.natCast_pos.mpr (List.length_pos_of_ne_nil hne)
    have hcast : lexicalCast (wordText (some t)) = some t.value :=
      lexicalCast_eq_some_iff.mpr t.isNumeral
    rw [if_pos hpos, hcast]
    rfl

/-- **The loop over the links.** It pushes something for every word. -/
theorem linkLoop_words (words : List (Option IdText)) (rounds : ℕ) (linkvec : List ℤ)
    (hrounds : words.length < rounds) :
    linkLoop stale rounds (words.flatMap fun word => wordText word ++ [' ']) linkvec =
      some (linkvec ++ words.mapIdx fun n => wordValue stale (linkvec.length + n)) := by
  induction words generalizing rounds linkvec with
  | nil =>
    obtain ⟨rounds, rfl⟩ := Nat.exists_eq_succ_of_ne_zero (Nat.ne_zero_of_lt hrounds)
    rw [List.mapIdx_nil, List.append_nil]
    exact linkLoop_nil stale rounds linkvec
  | cons word words ih =>
    obtain ⟨rounds, rfl⟩ := Nat.exists_eq_succ_of_ne_zero (Nat.ne_zero_of_lt hrounds)
    rw [List.flatMap_cons, List.append_assoc, List.singleton_append, Nat.succ_eq_add_one,
      linkLoop_word, ih rounds _ (Nat.lt_of_succ_lt_succ hrounds), List.mapIdx_cons,
      List.append_assoc, List.length_append, List.length_singleton]
    simp only [Nat.add_assoc, Nat.add_comm 1, List.singleton_append, Nat.add_zero]

/-- What is pushed for a line. -/
theorem linkLoop_line (stale : ℕ → ℤ) (l : InfluLine) :
    linkLoop stale ((l.words.flatMap fun word => wordText word ++ [' ']).length + 1)
        (l.words.flatMap fun word => wordText word ++ [' ']) [] = some (l.pushed stale) := by
  have hrounds : l.words.length <
      (l.words.flatMap fun word => wordText word ++ [' ']).length + 1 := by
    rw [List.length_flatMap, Nat.lt_succ_iff]
    calc l.words.length = (l.words.map fun word => (wordText word ++ [' ']).length).length :=
          (List.length_map _).symm
      _ ≤ (l.words.map fun word => (wordText word ++ [' ']).length).sum := by
          refine List.length_le_sum_of_one_le _ fun n hn => ?_
          obtain ⟨word, -, rfl⟩ := List.mem_map.mp hn
          simp
  rw [linkLoop_words l.words _ [] hrounds]
  simp only [List.nil_append, List.length_nil, Nat.zero_add]
  rfl

theorem loadLoop_line (stale : ℕ → ℕ → ℤ) (i : ℕ) (l : InfluLine) (lines : List Text)
    (influMap : KVMap ℤ (List ℤ)) :
    loadLoop stale i (l.text :: lines) influMap =
      loadLoop stale (i + 1) lines (influMap.add l.source.value (l.pushed (stale i))) := by
  have htab : '\t' ∉ l.source.text :=
    l.source.isNumeral.not_mem (by decide) (by decide) (by decide)
  have hcast : lexicalCast l.source.text = some l.source.value :=
    lexicalCast_eq_some_iff.mpr l.source.isNumeral
  -- the test sees the NUL, not the last character
  have hend : endChar (l.text.drop (l.source.text.length + 1)) ≠ ' ' := by
    unfold endChar
    decide
  have hlinks : l.text.drop (l.source.text.length + 1) ++ [' '] =
      l.words.flatMap fun word => wordText word ++ [' '] := by
    rw [← l.links_eq, InfluLine.text, List.drop_append]
    simp
  rw [loadLoop]
  conv_lhs =>
    rw [InfluLine.text, findInt_append htab l.source.short]
  rw [← InfluLine.text]
  simp only [Int.toNat_natCast]
  rw [if_neg (by omega), if_neg (by omega), if_pos hend, hlinks, linkLoop_line]
  have htake : l.text.take l.source.text.length = l.source.text := List.take_left
  rw [htake, hcast]
  rfl

/-! ## The whole file -/

/-- **The loop over the lines.** Each source is mapped to what is pushed for its last line. -/
theorem loadLoop_spec (stale : ℕ → ℕ → ℤ) (lines : List InfluLine) (i : ℕ)
    (influMap : KVMap ℤ (List ℤ)) :
    ∃ loaded, loadLoop stale i (lines.map InfluLine.text) influMap = some loaded ∧
      (∀ before l after, lines = before ++ l :: after →
        (∀ l' ∈ after, l'.source.value ≠ l.source.value) →
          loaded.lookup l.source.value = some (l.pushed (stale (i + before.length)))) ∧
      ∀ k, (∀ l ∈ lines, l.source.value ≠ k) → loaded.lookup k = influMap.lookup k := by
  induction lines generalizing i influMap with
  | nil => exact ⟨influMap, rfl, fun before l after h => absurd h (by simp), fun k _ => rfl⟩
  | cons line lines ih =>
    obtain ⟨loaded, hload, hlast, hother⟩ :=
      ih (i + 1) (influMap.add line.source.value (line.pushed (stale i)))
    refine ⟨loaded, by rw [List.map_cons, loadLoop_line, hload], ?_, fun k hk => ?_⟩
    · intro before l after hlines hafter
      cases before with
      | nil =>
        -- no later line replaces what is added for this one
        obtain ⟨rfl, rfl⟩ := List.cons.inj hlines
        rw [hother _ hafter]
        exact Finmap.lookup_insert _
      | cons first before =>
        obtain ⟨-, hrest⟩ := List.cons.inj hlines
        rw [hlast before l after hrest hafter, List.length_cons, Nat.add_assoc, Nat.add_comm 1]
    · obtain ⟨hne, hrest⟩ := List.forall_mem_cons.mp hk
      rw [hother k hrest]
      exact Finmap.lookup_insert_of_ne _ hne.symm

end Cache

/-- A source of the file has a last line. -/
theorem exists_isLastLine {lines : List InfluLine} {k : ℤ} (h : ∃ l ∈ lines, l.source.value = k) :
    ∃ l, IsLastLine lines l ∧ l.source.value = k := by
  induction lines with
  | nil =>
    obtain ⟨l, hl, -⟩ := h
    exact absurd hl List.not_mem_nil
  | cons line lines ih =>
    by_cases hrest : ∃ l ∈ lines, l.source.value = k
    · obtain ⟨l, ⟨before, after, hlines, hafter⟩, hk⟩ := ih hrest
      exact ⟨l, ⟨line :: before, after, congrArg (line :: ·) hlines, hafter⟩, hk⟩
    · obtain ⟨l, hl, hk⟩ := h
      rcases List.mem_cons.mp hl with rfl | hl
      · refine ⟨l, ⟨[], lines, rfl, fun l' hl' heq => ?_⟩, hk⟩
        exact hrest ⟨l', hl', heq.trans hk⟩
      · exact absurd ⟨l, hl, hk⟩ hrest

section Load

variable {influMap : KVMap ℤ (List ℤ)} {P : Type} {k : ℤ} {vs : List ℤ}

theorem getValue_of_lookup (h : influMap.lookup k = some vs) :
    (Cache.new influMap : Cache ℤ (List ℤ) P).getValue k = .ok vs := by
  have hmem : (Cache.new influMap : Cache ℤ (List ℤ) P).containsInfluKey k = true :=
    decide_eq_true (Finmap.mem_of_lookup_eq_some h)
  have hget : influMap.get k = .ok vs := by
    rw [KVMap.get, h]
    rfl
  rw [Cache.getValue, if_pos hmem]
  exact hget

variable (stale : ℕ → ℕ → ℤ) (lines : List InfluLine)

/-- What the cache serves after its constructor. -/
theorem load_spec :
    ∃ loaded, Cache.load stale (lines.map InfluLine.text) = some loaded ∧
      (ServesWritten loaded lines ↔ ∀ l, IsLastLine lines l → l.Plain) := by
  obtain ⟨loaded, hload, hlast, hother⟩ := Cache.loadLoop_spec stale lines 0 ∅
  refine ⟨loaded, hload, fun hserves l hl => ?_, fun hplain => ⟨fun P k => ?_, fun P l hl => ?_⟩⟩
  · obtain ⟨before, after, hlines, hafter⟩ := hl
    have hvalue := hserves.getValue_eq Unit l ⟨before, after, hlines, hafter⟩
    rw [getValue_of_lookup (hlast before l after hlines hafter)] at hvalue
    exact (l.pushed_eq_written_iff _).mp (Except.ok.inj hvalue)
  · have hcontains :
        (Cache.new loaded : Cache ℤ (List ℤ) P).containsInfluKey k = true ↔ k ∈ loaded :=
      decide_eq_true_iff
    rw [hcontains]
    constructor
    · intro hk
      by_contra hnot
      have hnone := hother k fun l hl heq => hnot ⟨l, hl, heq⟩
      rw [Finmap.lookup_empty] at hnone
      exact Finmap.lookup_eq_none.mp hnone hk
    · intro hk
      obtain ⟨l, ⟨before, after, hlines, hafter⟩, rfl⟩ := exists_isLastLine hk
      exact Finmap.mem_of_lookup_eq_some (hlast before l after hlines hafter)
  · obtain ⟨before, after, hlines, hafter⟩ := hl
    have hpushed := (l.pushed_eq_written_iff (stale (0 + before.length))).mpr
      (hplain l ⟨before, after, hlines, hafter⟩)
    rw [← hpushed]
    exact getValue_of_lookup (hlast before l after hlines hafter)

/-- **The influence file is read exactly if its lines are plain.** Whatever the uninitialised
variable holds, the cache serves the lists that were written if and only if the last line of
every source has a list that is not empty, no space at its end, and targets of type `int`. -/
theorem influ_file_read_iff :
    (∃ loaded, Cache.load stale (lines.map InfluLine.text) = some loaded ∧
      ServesWritten loaded lines) ↔
      ∀ l, IsLastLine lines l → l.targets ≠ [] ∧ l.trailing = false ∧
        ∀ t ∈ l.targets, -2 ^ 31 ≤ t.value ∧ t.value < 2 ^ 31 := by
  obtain ⟨loaded, hload, hserves⟩ := load_spec stale lines
  have hplain : ∀ l : InfluLine, l.Plain ↔ l.targets ≠ [] ∧ l.trailing = false ∧
      ∀ t ∈ l.targets, -2 ^ 31 ≤ t.value ∧ t.value < 2 ^ 31 :=
    fun l => ⟨fun h => ⟨h.ne_nil, h.not_trailing, h.int⟩, fun ⟨hne, ht, hint⟩ => ⟨hne, ht, hint⟩⟩
  simp only [← hplain]
  rw [← hserves]
  constructor
  · rintro ⟨loaded', hload', hserves'⟩
    obtain rfl : loaded' = loaded := Option.some.inj (hload'.symm.trans hload)
    exact hserves'
  · exact fun h => ⟨loaded, hload, h⟩

end Load

theorem isLong_of_lt {n : ℕ} (hn : n < 10) : IsLong n := by
  constructor
  · omega
  · omega

theorem isNumeral_one : IsNumeral ['1'] 1 :=
  .unsigned (isDigits_singleton rfl) (isLong_of_lt (by decide))

theorem isNumeral_two : IsNumeral ['2'] 2 :=
  .unsigned (isDigits_singleton rfl) (isLong_of_lt (by decide))

theorem length_singleton_lt (c : Char) : [c].length < 2 ^ 31 := Nat.one_lt_two_pow (by omega)

/-- The line `1<TAB>2` with a space at its end, as the graph generator writes it. -/
def generatedLine : InfluLine where
  source := ⟨['1'], 1, isNumeral_one, length_singleton_lt '1'⟩
  targets := [⟨['2'], 2, isNumeral_two, length_singleton_lt '2'⟩]
  trailing := true

/-- A target too many is served for it. -/
theorem generated_line_misread :
    generatedLine.text = "1\t2 ".toList ∧ ∀ stale : ℕ → ℕ → ℤ,
      ¬ ∃ loaded, Cache.load stale ([generatedLine].map InfluLine.text) = some loaded ∧
        ServesWritten loaded [generatedLine] := by
  refine ⟨rfl, ?_⟩
  rintro stale ⟨loaded, hload, hserves⟩
  obtain ⟨loaded', hload', hiff⟩ := load_spec stale [generatedLine]
  obtain rfl : loaded = loaded' := Option.some.inj (hload.symm.trans hload')
  have hplain := hiff.mp hserves generatedLine ⟨[], [], rfl, by simp⟩
  exact Bool.noConfusion hplain.not_trailing

end MaiterStore
