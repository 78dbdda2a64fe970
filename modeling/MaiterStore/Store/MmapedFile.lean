/-
# Mapped files

`MMapedFile` (`store/mmaped_file.h`, `store/flat_file.cpp`) maps a part of a file, keeps what it
has mapped, and gives out pointers into it again as long as a request fits. Three things go
wrong. The offset and the length of a request are rounded to pages separately, so the range that
is mapped need not reach the end of the request. A whole file is mapped without a look at the
request. And the area, its offset and its size are not changed together: a mapping that fails or
is refused leaves the bounds of the area before it, and closing the file leaves all three, so
that a later request is served from an area that is not mapped any more.

The system calls succeed or fail as they like; what they return in a call belongs to its
arguments. The access mode is left out: it selects flags for `open` and `mmap`. An area shows
the bytes it was mapped for, and unmapping takes away whole pages. `NULL` is 0.
-/

import Mathlib.Tactic.Linarith
import MaiterStore.CS.PageAlign
import MaiterStore.CS.Run

namespace MaiterStore

open CS.PageAlign CS.Run

/-- `SStoreException`. -/
structure SStoreException where
  message : String
  deriving DecidableEq, Repr

/-- `MAP_FAILED`. -/
def mapFailed : ℤ := -1

/-- `MMapedFile` (`store/mmaped_file.h`). -/
structure MMapedFile where
  fd : ℤ
  memoryArea : ℤ
  sizeMapped : UInt64
  offsetMapped : Int64
  referenceCount : Int32
  deriving DecidableEq, Repr

/-- A process with such an object, and the byte of the file that each address shows. For the
record only: `intact` is set when an area is mapped, and cleared when one is unmapped or a mapping
fails. -/
structure Process where
  file : MMapedFile
  view : ℤ → Option ℤ
  intact : Bool

namespace Process

/-- The constructor of the object. -/
def start : Process := ⟨⟨-1, 0, 0, 0, 0⟩, fun _ => none, false⟩

/-- `munmap(addr, len)` when it succeeds, for pages of `2 ^ k` bytes. -/
def munmap (k : ℕ) (addr : ℤ) (len : UInt64) (p : Process) : Process :=
  { p with
    view := fun a =>
      if addr / 2 ^ k ≤ a / 2 ^ k ∧ a / 2 ^ k < (addr + len.toNat + (2 ^ k - 1)) / 2 ^ k then none
      else p.view a
    intact := false }

/-- The view once `mmap` has mapped `len` bytes from `offset` on at `addr`. -/
def mapped (addr : ℤ) (len : UInt64) (offset : Int64) (p : Process) : ℤ → Option ℤ := fun a =>
  if addr ≤ a ∧ a < addr + len.toNat then some (offset.toInt + (a - addr)) else p.view a

end Process

/-! ## Opening -/

/-- `ALIGN_TO_PAGE(x)` of an `off_t`, where `getpagesize()` is `2 ^ k`. -/
def alignToPage (k : ℕ) (x : Int64) : Int64 := x &&& ~~~(Int64.ofNat (2 ^ k) - 1)

/-- `UPPER_ALIGN_TO_PAGE(x)` of a `size_t`. -/
def upperAlignToPage (k : ℕ) (x : UInt64) : UInt64 :=
  (x + (UInt64.ofNat (2 ^ k) - 1)) &&& ~~~(UInt64.ofNat (2 ^ k) - 1)

/-- The arguments of `openAndMmapFile`, and what the system calls in it return: `open`, `fstat`,
`munmap` of the old area, `mmap`, and `munmap` of an area that is not where it should be. -/
structure OpenCall where
  filename : String
  offset : Int64
  length : UInt64
  mapWholeFile : Bool
  allowRemap : Bool
  openResult : ℤ
  fileSize : Option UInt64
  munmapOld : Bool
  mmapResult : ℤ
  munmapNew : Bool

/-- The two tests for reusing the area that is mapped. The second one is made in `size_t`. -/
def MMapedFile.reuses (f : MMapedFile) (offsetToMap : Int64) (lengthToMap : UInt64) : Bool :=
  offsetToMap = f.offsetMapped && lengthToMap = f.sizeMapped ||
    f.offsetMapped ≤ offsetToMap &&
      lengthToMap + offsetToMap.toUInt64 - f.offsetMapped.toUInt64 ≤ f.sizeMapped

namespace OpenCall

/-- The offset and the length to map, unless `filesize` throws. -/
def rangeToMap (k : ℕ) (c : OpenCall) : Option (Int64 × UInt64) :=
  if c.mapWholeFile then c.fileSize.map fun size => (0, size)
  else some (alignToPage k c.offset, upperAlignToPage k c.length)

/-- The file is opened if it is not open. -/
def openFile (c : OpenCall) (p : Process) : Process :=
  if p.file.fd = -1 then { p with file := { p.file with fd := c.openResult } } else p

/-- The end of `openAndMmapFile`, from `mmap` on. -/
def remap (k : ℕ) (c : OpenCall) (addressToMap : ℤ) (offsetToMap : Int64) (lengthToMap : UInt64)
    (p : Process) : Except SStoreException ℤ × Process :=
  let view := if c.mmapResult = mapFailed then p.view
    else p.mapped c.mmapResult lengthToMap offsetToMap
  let q : Process := ⟨{ p.file with memoryArea := c.mmapResult }, view, false⟩
  if addressToMap ≠ 0 ∧ c.allowRemap = false ∧ c.mmapResult ≠ mapFailed ∧
      c.mmapResult ≠ addressToMap then
    if c.munmapNew = false then (.error ⟨"Error in munmap" ++ c.filename⟩, q)
    else
      (.error
        ⟨"Request to remap area but allow_remap is not given (remapping " ++ c.filename ++ ")"⟩,
        q.munmap k c.mmapResult lengthToMap)
  else if c.mmapResult = mapFailed then (.error ⟨"Error in mmap " ++ c.filename⟩, q)
  else
    (.ok (c.mmapResult + c.offset.toInt - offsetToMap.toInt),
      { q with
        file := { q.file with
          offsetMapped := offsetToMap
          sizeMapped := lengthToMap
          referenceCount := q.file.referenceCount + 1 }
        intact := true })

/-- `openAndMmapFile(...)`: the pointer or the exception, and what it leaves behind. -/
def openAndMmapFile (k : ℕ) (c : OpenCall) (p : Process) : Except SStoreException ℤ × Process :=
  if c.filename.toList.headD '\x00' = '\x00' then (.error ⟨"filename is empty."⟩, p)
  else
    let q := c.openFile p
    if p.file.fd = -1 ∧ q.file.fd < 0 then
      (.error ⟨"Error opening file " ++ c.filename⟩, q)
    else
      match c.rangeToMap k with
      | none => (.error ⟨"Cannot stat file" ++ c.filename⟩, q)
      | some (offsetToMap, lengthToMap) =>
        if q.file.reuses offsetToMap lengthToMap then
          (.ok (q.file.memoryArea + c.offset.toInt - q.file.offsetMapped.toInt),
            { q with file := { q.file with referenceCount := q.file.referenceCount + 1 } })
        else if q.file.memoryArea ≠ 0 ∧ c.munmapOld = false then
          (.error ⟨"Error in munmap file " ++ c.filename⟩, q)
        else
          let r := if q.file.memoryArea ≠ 0 then q.munmap k q.file.memoryArea q.file.sizeMapped
            else q
          c.remap k q.file.memoryArea offsetToMap lengthToMap r

end OpenCall

/-! ## Closing -/

/-- What the system calls in `munmapAndCloseFile` return. -/
structure CloseCall where
  munmapResult : Bool
  closeResult : Bool

/-- `munmapAndCloseFile()`. -/
def CloseCall.munmapAndCloseFile (k : ℕ) (c : CloseCall) (p : Process) :
    Except SStoreException Bool × Process :=
  if c.munmapResult = false then (.error ⟨"Error in munmap"⟩, p)
  else
    let q := p.munmap k p.file.memoryArea p.file.sizeMapped
    if c.closeResult = false then (.error ⟨"Error in close"⟩, q)
    else (.ok true, { q with file := { q.file with fd := -1 } })

/-! ## Runs -/

/-- A call of one of the two functions. -/
inductive FileCall
  | openAndMmapFile (c : OpenCall)
  | munmapAndCloseFile (c : CloseCall)

/-- What a call leaves behind. -/
def FileCall.step (k : ℕ) (p : Process) : FileCall → Process
  | .openAndMmapFile c => (c.openAndMmapFile k p).2
  | .munmapAndCloseFile c => (c.munmapAndCloseFile k p).2

/-- The pointer shows the byte at the offset of the request, and all of the range. -/
def PointsInto (p : Process) (c : OpenCall) (pointer : ℤ) : Prop :=
  ∀ j : ℤ, 0 ≤ j → j < max 1 c.length.toNat → p.view (pointer + j) = some (c.offset.toInt + j)

/-- Every pointer that is returned in the run points into what is mapped. -/
def PointersValid (k : ℕ) (run : List FileCall) : Prop :=
  ∀ before c after, run = before ++ .openAndMmapFile c :: after → ∀ pointer p,
    c.openAndMmapFile k (before.foldl (FileCall.step k) .start) = (.ok pointer, p) →
      PointsInto p c pointer

/-! ## Requests that are inside the area -/

/-- The range of `len` bytes from `base` on has all of the request, and its first byte also if the
request is empty. -/
def OpenCall.Within (c : OpenCall) (base : Int64) (len : UInt64) : Prop :=
  base.toInt ≤ c.offset.toInt ∧ c.offset.toInt + max 1 c.length.toNat ≤ base.toInt + len.toNat

/-- There is a file to map: it has a name, and it is open or can be opened. -/
def OpenCall.Opens (c : OpenCall) (p : Process) : Prop :=
  c.filename.toList.headD '\x00' ≠ '\x00' ∧ (p.file.fd = -1 → 0 ≤ c.openResult)

/-- The area can be mapped: the old one is unmapped if there is one, `mmap` does not fail, and the
new one is where the old one was, unless it may be elsewhere. -/
def OpenCall.Granted (c : OpenCall) (p : Process) : Prop :=
  c.mmapResult ≠ mapFailed ∧
    (p.file.memoryArea ≠ 0 → c.munmapOld = true ∧
      (c.allowRemap = true ∨ c.mmapResult = p.file.memoryArea))

/-- A request that reuses the area does so while it is the one that was mapped last, and is within
its bounds. A request for which an area is mapped is within the range that is mapped. -/
structure OpenCall.Fits (k : ℕ) (c : OpenCall) (p : Process) : Prop where
  reused : ∀ base len, c.rangeToMap k = some (base, len) → p.file.reuses base len = true →
    p.intact = true ∧ c.Within p.file.offsetMapped p.file.sizeMapped
  mapped : ∀ base len, c.rangeToMap k = some (base, len) → p.file.reuses base len = false →
    c.Granted p → c.Within base len

/-- The condition on a call: one that gets to the file has a request that fits. -/
def FileCall.Fits (k : ℕ) (p : Process) : FileCall → Prop
  | .openAndMmapFile c => c.Opens p → c.Fits k p
  | .munmapAndCloseFile _ => True

/-- The area at `addr` shows `len` bytes of the file, from `base` on. -/
def Shows (view : ℤ → Option ℤ) (addr : ℤ) (len : UInt64) (base : Int64) : Prop :=
  ∀ a, addr ≤ a → a < addr + len.toNat → view a = some (base.toInt + (a - addr))

/-- An area that is intact shows what the object has recorded. -/
def Process.Inv (p : Process) : Prop :=
  p.intact = true → Shows p.view p.file.memoryArea p.file.sizeMapped p.file.offsetMapped

section Invariant

variable {k : ℕ} {p q : Process} {c : OpenCall} {base : Int64} {len : UInt64} {addr pointer : ℤ}

theorem Process.Inv.of_not_intact (h : p.intact = false) : p.Inv := by
  intro hintact
  rw [h] at hintact
  cases hintact

/-- A request within an area gets a pointer into it. -/
theorem Shows.pointsInto (h : Shows p.view addr len base) (hwithin : c.Within base len) :
    PointsInto p c (addr + c.offset.toInt - base.toInt) := by
  obtain ⟨hbase, hend⟩ := hwithin
  intro j hj hlt
  rw [h _ (by omega) (by omega)]
  congr 1
  omega

theorem shows_mapped (addr : ℤ) (len : UInt64) (base : Int64) (p : Process) :
    Shows (p.mapped addr len base) addr len base :=
  fun _ hfrom hto => if_pos ⟨hfrom, hto⟩

/-- What happens from `mmap` on: if the area is granted, the request is served from it. -/
theorem remap_spec {addressToMap : ℤ}
    (hwithin : c.mmapResult ≠ mapFailed → (addressToMap ≠ 0 → c.allowRemap = true ∨
      c.mmapResult = addressToMap) → c.Within base len) :
    (c.remap k addressToMap base len p).2.Inv ∧
      ∀ pointer, (c.remap k addressToMap base len p).1 = .ok pointer →
        PointsInto (c.remap k addressToMap base len p).2 c pointer := by
  unfold OpenCall.remap
  by_cases hrefused : addressToMap ≠ 0 ∧ c.allowRemap = false ∧ c.mmapResult ≠ mapFailed ∧
      c.mmapResult ≠ addressToMap
  · -- the new area is where it must not be: only `memoryArea` is changed
    simp only [if_pos hrefused]
    split_ifs
    all_goals exact ⟨.of_not_intact rfl, nofun⟩
  · simp only [if_neg hrefused]
    by_cases hfailed : c.mmapResult = mapFailed
    · simp only [if_pos hfailed]
      exact ⟨.of_not_intact rfl, nofun⟩
    · -- from here on the object has recorded what is mapped
      simp only [if_neg hfailed]
      have hshows := shows_mapped c.mmapResult len base p
      refine ⟨fun _ => hshows, fun pointer hpointer => ?_⟩
      obtain rfl := Except.ok.inj hpointer
      refine Shows.pointsInto hshows (hwithin hfailed fun hold => ?_)
      by_contra hnot
      rw [not_or, Bool.not_eq_true] at hnot
      exact hrefused ⟨hold, hnot.1, hfailed, hnot.2⟩

/-- Opening the file changes the descriptor only. -/
theorem openFile_eq (c : OpenCall) (p : Process) :
    ∃ fd, c.openFile p = { p with file := { p.file with fd } } ∧
      (p.file.fd = -1 → fd = c.openResult) := by
  unfold OpenCall.openFile
  split_ifs with hfd
  · exact ⟨c.openResult, rfl, fun _ => rfl⟩
  · exact ⟨p.file.fd, rfl, fun h => absurd h hfd⟩

/-- **A call of `openAndMmapFile`.** It keeps the invariant, and a request that fits gets a
pointer into what is mapped. -/
theorem openAndMmapFile_spec (hinv : p.Inv) (hfits : c.Opens p → c.Fits k p) :
    (c.openAndMmapFile k p).2.Inv ∧
      ∀ pointer, (c.openAndMmapFile k p).1 = .ok pointer →
        PointsInto (c.openAndMmapFile k p).2 c pointer := by
  obtain ⟨fd, hopen, hfd⟩ := openFile_eq c p
  unfold OpenCall.openAndMmapFile
  by_cases hname : c.filename.toList.headD '\x00' = '\x00'
  · rw [if_pos hname]
    exact ⟨hinv, nofun⟩
  rw [if_neg hname, hopen]
  by_cases herror : p.file.fd = -1 ∧ fd < 0
  · simp only [if_pos herror]
    exact ⟨hinv, nofun⟩
  -- past the checks of name and descriptor, the call is one that has to fit
  have hopens : c.Opens p := by
    refine ⟨hname, fun hclosed => ?_⟩
    rw [← hfd hclosed]
    exact not_lt.mp fun hlt => herror ⟨hclosed, hlt⟩
  obtain ⟨hreused, hmapped⟩ := hfits hopens
  simp only [if_neg herror]
  rcases hrange : c.rangeToMap k with _ | ⟨base, len⟩
  · exact ⟨hinv, nofun⟩
  have hsame : (MMapedFile.reuses { p.file with fd } base len) = p.file.reuses base len := rfl
  simp only [hsame]
  rcases htest : p.file.reuses base len with _ | _
  · -- an area has to be mapped
    rw [if_neg Bool.false_ne_true]
    by_cases hkept : p.file.memoryArea ≠ 0 ∧ c.munmapOld = false
    · rw [if_pos hkept]
      exact ⟨hinv, nofun⟩
    · rw [if_neg hkept]
      refine remap_spec fun hfailed hplace =>
        hmapped base len hrange htest ⟨hfailed, fun hold => ?_⟩
      refine ⟨?_, hplace hold⟩
      rw [not_and, Bool.not_eq_false] at hkept
      exact hkept hold
  · -- the area is served again, from the bounds that are recorded
    rw [if_pos rfl]
    obtain ⟨hintact, hwithin⟩ := hreused base len hrange htest
    refine ⟨hinv, fun pointer hpointer => ?_⟩
    obtain rfl := Except.ok.inj hpointer
    exact Shows.pointsInto (p := p) (hinv hintact) hwithin

/-- Closing leaves nothing that is intact. -/
theorem munmapAndCloseFile_inv (c : CloseCall) (hinv : p.Inv) :
    (c.munmapAndCloseFile k p).2.Inv := by
  unfold CloseCall.munmapAndCloseFile
  by_cases hfailed : c.munmapResult = false
  · rw [if_pos hfailed]
    exact hinv
  · rw [if_neg hfailed]
    dsimp only
    split_ifs
    all_goals exact .of_not_intact rfl

theorem step_inv (call : FileCall) (hinv : p.Inv) (hfits : call.Fits k p) :
    (call.step k p).Inv := by
  cases call with
  | openAndMmapFile c => exact (openAndMmapFile_spec hinv hfits).1
  | munmapAndCloseFile c => exact munmapAndCloseFile_inv c hinv

theorem start_inv : Process.start.Inv := .of_not_intact rfl

/-- **Pointers into what is mapped.** In a run whose requests fit, every pointer that is returned
shows the byte at the offset of its request and the whole range, whichever system calls fail. -/
theorem mapped_pointers_valid (k : ℕ) (run : List FileCall)
    (hrun : Guarded (FileCall.step k) (FileCall.Fits k) .start run) : PointersValid k run := by
  intro before c after hsplit pointer p hcall
  rw [hsplit] at hrun
  obtain ⟨hbefore, hfits⟩ := hrun.at_append
  have hinv := hbefore.invariant (I := Process.Inv)
    (fun p call hinv hfits => step_inv call hinv hfits) start_inv
  have hspec := (openAndMmapFile_spec hinv hfits).2 pointer
  rw [hcall] at hspec
  exact hspec rfl

end Invariant

/-! ## Which requests fit -/

section Aligned

variable {k : ℕ} {c : OpenCall}

theorem toInt_alignToPage (hk : k ≤ 30) (x : Int64) :
    (alignToPage k x).toInt = x.toInt - x.toInt % 2 ^ k :=
  toInt_alignDown (w := 64) (by omega) x.toBitVec

/-- Unless the sum overflows, a length is rounded up. -/
theorem toNat_upperAlignToPage (hk : k ≤ 30) {x : UInt64} (hx : x.toNat + 2 ^ k ≤ 2 ^ 64) :
    (upperAlignToPage k x).toNat = x.toNat + (2 ^ k - 1) - (x.toNat + (2 ^ k - 1)) % 2 ^ k := by
  have hpow : 2 ^ k ≤ 2 ^ 30 := Nat.pow_le_pow_right Nat.two_pos hk
  have hpos : 0 < 2 ^ k := Nat.two_pow_pos k
  have hpage : (UInt64.ofNat (2 ^ k)).toNat = 2 ^ k := by
    rw [UInt64.toNat_ofNat', Nat.mod_eq_of_lt (by omega)]
  have hlow : (UInt64.ofNat (2 ^ k) - 1).toNat = 2 ^ k - 1 := by
    have hone : (1 : UInt64) ≤ UInt64.ofNat (2 ^ k) := by
      rw [UInt64.le_iff_toNat_le, hpage]
      exact hpos
    rw [UInt64.toNat_sub_of_le _ _ hone, hpage]
    rfl
  have hsum : (x + (UInt64.ofNat (2 ^ k) - 1)).toNat = x.toNat + (2 ^ k - 1) := by
    rw [UInt64.toNat_add, hlow, Nat.mod_eq_of_lt (by omega)]
  rw [← hsum]
  exact toNat_alignDown (w := 64) (by omega) (x + (UInt64.ofNat (2 ^ k) - 1)).toBitVec

/-- The two ends of a request are rounded separately: what its offset has beyond the beginning of
a page, its length has to leave in its last page. -/
theorem within_pages_iff (hk : k ≤ 30) (c : OpenCall) (hlen : c.length.toNat + 2 ^ k ≤ 2 ^ 64) :
    c.Within (alignToPage k c.offset) (upperAlignToPage k c.length) ↔
      c.offset.toInt % 2 ^ k + max 1 c.length.toNat ≤
        ((c.length.toNat + (2 ^ k - 1) - (c.length.toNat + (2 ^ k - 1)) % 2 ^ k : ℕ) : ℤ) := by
  have hnonneg : 0 ≤ c.offset.toInt % 2 ^ k := Int.emod_nonneg _ (by positivity)
  rw [OpenCall.Within, toInt_alignToPage hk, toNat_upperAlignToPage hk hlen]
  omega

/-- So a request at the beginning of a page is within the pages that are mapped for it. -/
theorem within_pages_of_aligned (hk : k ≤ 30) (c : OpenCall) (hoffset : c.offset.toInt % 2 ^ k = 0)
    (hpos : 0 < c.length.toNat) (hlen : c.length.toNat + 2 ^ k ≤ 2 ^ 64) :
    c.Within (alignToPage k c.offset) (upperAlignToPage k c.length) := by
  have hpage : 0 < 2 ^ k := Nat.two_pow_pos k
  have hmod := Nat.mod_lt (c.length.toNat + (2 ^ k - 1)) hpage
  rw [within_pages_iff hk c hlen, hoffset]
  omega

end Aligned

/-! ## A run -/

/-- A request for the bytes from 0 on in pages of 4096 bytes, for which an area at address 65536
is mapped if need be. -/
def pageCall (length : UInt64) : OpenCall where
  filename := "data"
  offset := 0
  length := length
  mapWholeFile := false
  allowRemap := false
  openResult := 3
  fileSize := some 8192
  munmapOld := true
  mmapResult := 65536
  munmapNew := true

/-- The file is mapped, served again, closed, and mapped with another length. -/
def reopeningRun : List FileCall :=
  [.openAndMmapFile (pageCall 4096), .openAndMmapFile (pageCall 100),
    .munmapAndCloseFile ⟨true, true⟩, .openAndMmapFile (pageCall 8192)]

theorem fits_iff_of_range {k : ℕ} {c : OpenCall} {p : Process} {base : Int64} {len : UInt64}
    (hrange : c.rangeToMap k = some (base, len)) : c.Fits k p ↔
      (p.file.reuses base len = true → p.intact = true ∧
        c.Within p.file.offsetMapped p.file.sizeMapped) ∧
        (p.file.reuses base len = false → c.Granted p → c.Within base len) := by
  refine ⟨fun h => ⟨h.reused base len hrange, h.mapped base len hrange⟩, fun h => ⟨?_, ?_⟩⟩
  all_goals
    intro base' len' hrange'
    rw [hrange] at hrange'
    cases hrange'
  · exact h.1
  · exact h.2

instance (c : OpenCall) (base : Int64) (len : UInt64) : Decidable (c.Within base len) :=
  inferInstanceAs (Decidable (_ ∧ _))

instance (c : OpenCall) (p : Process) : Decidable (c.Granted p) :=
  inferInstanceAs (Decidable (_ ∧ (_ → _)))

theorem mapped_pointers_valid_reopening : PointersValid 12 reopeningRun :=
  mapped_pointers_valid 12 reopeningRun
    ⟨fun _ => (fits_iff_of_range rfl).mpr (by decide),
      fun _ => (fits_iff_of_range rfl).mpr (by decide), trivial,
      fun _ => (fits_iff_of_range rfl).mpr (by decide), trivial⟩

/-- After it has been closed, the file is served from where it was mapped. -/
theorem closed_file_served :
    ¬ PointersValid 12 [.openAndMmapFile (pageCall 4096), .munmapAndCloseFile ⟨true, true⟩,
      .openAndMmapFile (pageCall 4096)] := by
  intro hvalid
  have hpointer := hvalid [_, _] (pageCall 4096) [] rfl 65536 _ rfl 0 le_rfl (by decide)
  exact absurd hpointer (by decide)

end MaiterStore
