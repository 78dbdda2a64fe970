/-
# Crashes of a process that writes a record file

What has been written to a `RecordFile` is in up to three places: in the block of the
`LZOFile`, in the buffer that stdio keeps for the `LocalFile`, and with the operating system.
A crash leaves what is with the operating system, which stdio gives its bytes when it likes
and at `fflush`.

`~RecordFile` renames the file to its final path before it deletes `fp`, and only the
destructors of `fp` write the block and call `fflush`; `sync()` calls `fsync`, which is below
stdio. So a crash behind `rename` can leave a file under its final path that lacks chunks.
This does not happen if the block and the buffer of stdio are empty when the file is renamed.
-/

import MaiterStore.Util.LzoFile

namespace MaiterStore

open CS.Framing CS.Run

/-! ## Files that are written -/

/-- A kind of file with what the steps of a `RecordFile` need of it. -/
structure OutputFile (σ : Type*) where
  /-- The file after it has been opened. -/
  new : σ
  /-- `write`. -/
  write : Write σ
  /-- What the `LocalFile` has been given. -/
  localFile : σ → Bytes
  /-- `block.len`, which is 0 without a block. -/
  blockLen : σ → ℕ
  /-- What the destructor does before the `LocalFile` is closed. -/
  destroy : σ → σ
  /-- Reading the file gives the chunks, and then false. -/
  Yields : Bytes → List Bytes → Prop

/-- A record file without compression. -/
def LocalFile.output : OutputFile Bytes where
  new := []
  write := LocalFile.write
  localFile fp := fp
  blockLen _ := 0
  destroy fp := fp
  Yields file cs :=
    ∃ fuel, readAll (RecordFile.nextChunk LocalFile.read) fuel file = .ok (some cs)

/-- A record file with compression. -/
def LZOFile.output (lzo : Lzo) : OutputFile LZOFile.Writer where
  new := LZOFile.Writer.new
  write := LZOFile.write lzo
  localFile fp := fp.f_
  blockLen fp := fp.block.length
  destroy := LZOFile.writeBlock lzo
  Yields file cs :=
    ∃ r fuel, LZOFile.Reader.new lzo file = .ok r ∧
      readAll (RecordFile.nextChunk (LZOFile.read lzo)) fuel r = .ok (some cs)

namespace OutputFile

variable {σ : Type*} (o : OutputFile σ)

/-- The calls of `write` that `writeChunk` makes. -/
def calls (c : StringPiece) : List Bytes := [intBytes c.size, c.data]

/-- `writeChunk` is these calls. -/
theorem writeChunk_eq (c : StringPiece) (fp : σ) :
    RecordFile.writeChunk o.write c fp = forEach o.write (calls c) fp := by
  rw [RecordFile.writeChunk, calls, forEach]
  congr 1
  funext fp'
  rw [forEach]
  cases o.write c.data fp' <;> rfl

theorem flatten_calls (cs : List StringPiece) : (cs.flatMap calls).flatten = chunkBytes cs := by
  induction cs with
  | nil => rfl
  | cons c cs ih =>
    rw [List.flatMap_cons, List.flatten_append, ih, chunkBytes, chunkBytes, List.map_cons,
      List.flatMap_cons]
    congr 1
    rw [calls, List.flatten_cons, List.flatten_singleton]
    rfl

/-! ## The steps of writing and closing -/

/-- Where a process that writes a record file is: it writes, it has been stopped by a fault,
or it is in `~RecordFile`, behind `sync`, `rename`, the destructor of `LZOFile` or the
closing of the `LocalFile`. -/
inductive Phase
  | writing
  | stopped
  | synced
  | renamed
  | destroyed
  | closed
  deriving DecidableEq, Repr

/-- The file is under its final path. -/
def Phase.Final (phase : Phase) : Prop :=
  phase = .renamed ∨ phase = .destroyed ∨ phase = .closed

instance : DecidablePred Phase.Final :=
  fun phase => inferInstanceAs (Decidable (phase = .renamed ∨ phase = .destroyed ∨ phase = .closed))

/-- A record file that is written: the calls of `write` to come, and how many bytes of the
`LocalFile` the operating system has. -/
structure Process (σ : Type*) where
  phase : Phase
  todo : List Bytes
  fp : σ
  handed : ℕ
  deriving Repr

/-- A step of the process, or of stdio, which may hand over bytes at any time. -/
inductive Step
  | write
  | handOver (k : ℕ)
  | sync
  | rename
  | destroy
  | close
  deriving DecidableEq, Repr

/-- A process that is to write the chunks `cs`. -/
def start (cs : List StringPiece) : Process σ := ⟨.writing, cs.flatMap calls, o.new, 0⟩

/-- One step. A step whose turn it is not does nothing. -/
def step (p : Process σ) : Step → Process σ
  | .write =>
    match p.phase, p.todo with
    | .writing, data :: todo =>
      match o.write data p.fp with
      | .ok fp => { p with todo := todo, fp := fp }
      | .error _ => { p with phase := .stopped }
    | _, _ => p
  | .handOver k => { p with handed := min (p.handed + k) (o.localFile p.fp).length }
  -- `fsync` waits for the bytes that the operating system has
  | .sync => if p.phase = .writing ∧ p.todo = [] then { p with phase := .synced } else p
  | .rename => if p.phase = .synced then { p with phase := .renamed } else p
  | .destroy =>
    if p.phase = .renamed then { p with phase := .destroyed, fp := o.destroy p.fp } else p
  | .close =>
    if p.phase = .destroyed then
      { p with phase := .closed, handed := (o.localFile p.fp).length }
    else p

/-- The file under its final path after a crash. -/
def finalFile (p : Process σ) : Option Bytes :=
  if p.phase.Final then some ((o.localFile p.fp).take p.handed) else none

/-- The block is empty, and all bytes of the `LocalFile` have been handed over. -/
def AllHanded (p : Process σ) : Prop :=
  o.blockLen p.fp = 0 ∧ (o.localFile p.fp).length ≤ p.handed

/-- A step that renames the file finds all of it handed over. -/
def RenamesComplete (p : Process σ) (a : Step) : Prop :=
  a = .rename → p.phase = .synced → o.AllHanded p

/-- What holds of the files of a kind. `W` relates a file to the stream written to it. -/
structure Lawful (W : σ → Bytes → Prop) : Prop where
  new : W o.new []
  write : ∀ fp s data fp', W fp s → o.write data fp = .ok fp' → W fp' (s ++ data)
  destroy : ∀ fp, o.blockLen fp = 0 → o.localFile (o.destroy fp) = o.localFile fp
  yields : ∀ fp (cs : List StringPiece), W fp (chunkBytes cs) →
    o.Yields (o.localFile (o.destroy fp)) (cs.map StringPiece.data)

end OutputFile

theorem LocalFile.lawful : LocalFile.output.Lawful (· = ·) where
  new := rfl
  write := by
    rintro fp _ data fp' rfl hfp
    exact (Except.ok.inj hfp).symm
  destroy _ _ := rfl
  yields fp cs hfp := by
    have hchunks : HasChunks (· = ·) fp (cs.map StringPiece.data) := hasChunks_chunkBytes hfp
    exact reads_iff.mp (hchunks.reads LocalFile.readsStream)

theorem LZOFile.lawful (lzo : Lzo) :
    (LZOFile.output lzo).Lawful (fun w s => ∃ blocks, LZOFile.Written lzo w s blocks) where
  new := ⟨[], LZOFile.written_new⟩
  write := by
    rintro w s data w' ⟨blocks, hw⟩ hok
    -- a sum that overflows stops the process
    rcases Nat.lt_or_ge (w.block.length + data.length) (2 ^ 31) with hlt | hge
    · obtain ⟨w₁, blocks₁, heq, hw₁⟩ := hw.writeLoop hlt (Nat.lt_succ_self _)
      obtain rfl : w₁ = w' := Except.ok.inj (heq.symm.trans hok)
      exact ⟨blocks₁, hw₁⟩
    · have hfault : LZOFile.write lzo data w = .error .overflow := LZOFile.write_overflow hge
      cases hfault.symm.trans hok
  destroy w hempty := congrArg LZOFile.Writer.f_ (if_pos hempty)
  yields w cs := by
    rintro ⟨blocks, hw⟩
    obtain ⟨_, r, -, -, hnew, hchunks⟩ := hw.hasChunks
    obtain ⟨fuel, hread⟩ := reads_iff.mp (hchunks.reads LZOFile.readsStream)
    exact ⟨r, fuel, hnew, hread⟩

namespace OutputFile

variable {σ : Type*} {o : OutputFile σ} {W : σ → Bytes → Prop} {cs : List StringPiece}
  {p : Process σ}

/-- The invariant of a process that writes the chunks `cs`: the calls it has made have been
written, and a file under its final path has everything. -/
structure Sound (o : OutputFile σ) (W : σ → Bytes → Prop) (cs : List StringPiece)
    (p : Process σ) : Prop where
  written : p.phase = .writing ∨ p.phase = .synced →
    ∃ made, made ++ p.todo = cs.flatMap calls ∧ W p.fp made.flatten
  synced : p.phase = .synced → p.todo = []
  renamed : p.phase = .renamed → o.localFile (o.destroy p.fp) = o.localFile p.fp
  final : p.phase.Final → (o.localFile p.fp).take p.handed = o.localFile p.fp ∧
    o.Yields (o.localFile p.fp) (cs.map StringPiece.data)

theorem sound_start (ho : o.Lawful W) (cs : List StringPiece) : Sound o W cs (o.start cs) where
  written _ := ⟨[], rfl, ho.new⟩
  synced := nofun
  renamed := nofun
  final := by simp [start, Phase.Final]

theorem Sound.write (ho : o.Lawful W) (hp : Sound o W cs p) : Sound o W cs (o.step p .write) := by
  rw [step]
  split
  case h_1 data todo hphase htodo =>
    split
    case h_1 fp hok =>
      refine ⟨?_, ?_, ?_, ?_⟩
      · intro _
        obtain ⟨made, hmade, hW⟩ := hp.written (.inl hphase)
        refine ⟨made ++ [data], ?_, ?_⟩
        · rw [← hmade, htodo, List.append_assoc]
          rfl
        · rw [List.flatten_append, List.flatten_singleton]
          exact ho.write _ _ _ _ hW hok
      · simp [hphase]
      · simp [hphase]
      · simp [hphase, Phase.Final]
    case h_2 => exact ⟨by simp, by simp, by simp, by simp [Phase.Final]⟩
  case h_2 => exact hp

/-- Of a file that is complete, all bytes have been handed over before. -/
theorem Sound.handOver (hp : Sound o W cs p) (k : ℕ) : Sound o W cs (o.step p (.handOver k)) := by
  refine ⟨hp.written, hp.synced, hp.renamed, ?_⟩
  intro hfinal
  obtain ⟨hall, hyields⟩ := hp.final hfinal
  have hle : (o.localFile p.fp).length ≤ p.handed := List.take_eq_self_iff _ |>.mp hall
  refine ⟨List.take_of_length_le ?_, hyields⟩
  exact Nat.le_min.mpr ⟨hle.trans (Nat.le_add_right _ _), le_rfl⟩

theorem Sound.sync (hp : Sound o W cs p) : Sound o W cs (o.step p .sync) := by
  rw [step]
  split_ifs with hturn
  · exact ⟨fun _ => hp.written (.inl hturn.1), fun _ => hturn.2, by simp, by simp [Phase.Final]⟩
  · exact hp

theorem Sound.rename (ho : o.Lawful W) (hp : Sound o W cs p)
    (hguard : o.RenamesComplete p .rename) : Sound o W cs (o.step p .rename) := by
  rw [step]
  split_ifs with hturn
  · obtain ⟨hempty, hall⟩ := hguard rfl hturn
    have hsame := ho.destroy p.fp hempty
    refine ⟨by simp, by simp, fun _ => hsame, ?_⟩
    intro _
    refine ⟨List.take_of_length_le hall, ?_⟩
    obtain ⟨made, hmade, hW⟩ := hp.written (.inr hturn)
    rw [hp.synced hturn, List.append_nil] at hmade
    rw [hmade, flatten_calls] at hW
    exact hsame ▸ ho.yields p.fp cs hW
  · exact hp

theorem Sound.destroy (hp : Sound o W cs p) : Sound o W cs (o.step p .destroy) := by
  rw [step]
  split_ifs with hturn
  · refine ⟨by simp, by simp, by simp, ?_⟩
    intro _
    have hfinal := hp.final (.inl hturn)
    rw [← hp.renamed hturn] at hfinal
    exact hfinal
  · exact hp

theorem Sound.close (hp : Sound o W cs p) : Sound o W cs (o.step p .close) := by
  rw [step]
  split_ifs with hturn
  · refine ⟨by simp, by simp, by simp, ?_⟩
    intro _
    exact ⟨List.take_length, (hp.final (.inr (.inl hturn))).2⟩
  · exact hp

theorem Sound.step (ho : o.Lawful W) (p : Process σ) (a : Step) (hp : Sound o W cs p)
    (hguard : o.RenamesComplete p a) : Sound o W cs (o.step p a) := by
  cases a with
  | write => exact hp.write ho
  | handOver k => exact hp.handOver k
  | sync => exact hp.sync
  | rename => exact hp.rename ho hguard
  | destroy => exact hp.destroy
  | close => exact hp.close

/-- A file that is renamed when it is complete is complete after every crash. -/
theorem yields_of_guarded (ho : o.Lawful W) {as : List Step}
    (hrun : Guarded o.step o.RenamesComplete (o.start cs) as) {file : Bytes}
    (hfile : o.finalFile (as.foldl o.step (o.start cs)) = some file) :
    o.Yields file (cs.map StringPiece.data) := by
  have hsound : Sound o W cs (as.foldl o.step (o.start cs)) :=
    hrun.invariant (fun p a hp hguard => hp.step ho p a hguard) (sound_start ho cs)
  rw [finalFile] at hfile
  split_ifs at hfile with hfinal
  obtain ⟨hall, hyields⟩ := hsound.final hfinal
  obtain rfl := Option.some.inj hfile
  rw [hall]
  exact hyields

end OutputFile

/-- In every run of a process that writes a record file, with or without compression, in
which nothing is in the block or in the buffer of stdio when the file is renamed, a file under the
final path yields all chunks. -/
theorem visible_record_file_complete (lzo : Lzo) (cs : List StringPiece)
    (as : List OutputFile.Step) :
    (Guarded LocalFile.output.step LocalFile.output.RenamesComplete (LocalFile.output.start cs) as →
      ∀ file, LocalFile.output.finalFile
          (as.foldl LocalFile.output.step (LocalFile.output.start cs)) = some file →
        LocalFile.output.Yields file (cs.map StringPiece.data)) ∧
    (Guarded (LZOFile.output lzo).step (LZOFile.output lzo).RenamesComplete
        ((LZOFile.output lzo).start cs) as →
      ∀ file, (LZOFile.output lzo).finalFile
          (as.foldl (LZOFile.output lzo).step ((LZOFile.output lzo).start cs)) = some file →
        (LZOFile.output lzo).Yields file (cs.map StringPiece.data)) :=
  ⟨fun hrun _ hfile => OutputFile.yields_of_guarded LocalFile.lawful hrun hfile,
    fun hrun _ hfile => OutputFile.yields_of_guarded (LZOFile.lawful lzo) hrun hfile⟩

/-- Without compression, stdio hands over the five bytes of a chunk before the file is renamed.
With compression, no chunk is written. -/
theorem visible_record_file_complete_handed :
    (∃ file, LocalFile.output.finalFile
        ([.write, .write, .handOver 5, .sync, .rename, .destroy].foldl LocalFile.output.step
          (LocalFile.output.start [⟨[1], by decide⟩])) = some file ∧
      LocalFile.output.Yields file [[1]]) ∧
    ∃ file, (LZOFile.output literalLzo).finalFile
        ([.sync, .rename, .destroy].foldl (LZOFile.output literalLzo).step
          ((LZOFile.output literalLzo).start [])) = some file ∧
      (LZOFile.output literalLzo).Yields file [] := by
  constructor
  · have hrun : Guarded LocalFile.output.step LocalFile.output.RenamesComplete
        (LocalFile.output.start [⟨[1], by decide⟩])
        [.write, .write, .handOver 5, .sync, .rename, .destroy] :=
      ⟨nofun, nofun, nofun, nofun, fun _ _ => ⟨rfl, le_rfl⟩, nofun, trivial⟩
    exact ⟨_, rfl, (visible_record_file_complete literalLzo _ _).1 hrun _ rfl⟩
  · have hrun : Guarded (LZOFile.output literalLzo).step (LZOFile.output literalLzo).RenamesComplete
        ((LZOFile.output literalLzo).start []) [.sync, .rename, .destroy] :=
      ⟨nofun, fun _ _ => ⟨rfl, le_rfl⟩, nofun, trivial⟩
    exact ⟨_, rfl, (visible_record_file_complete literalLzo _ _).2 hrun _ rfl⟩

/-! ## A crash behind `rename` -/

theorem LocalFile.not_yields_nil (c : Bytes) (cs : List Bytes) :
    ¬ LocalFile.output.Yields [] (c :: cs) := by
  rintro ⟨fuel, hread⟩
  have hnil : Reads (RecordFile.nextChunk LocalFile.read) [] [] := .done rfl
  cases (reads_of_readAll hread).unique hnil

theorem LZOFile.not_yields_nil (lzo : Lzo) (c : Bytes) (cs : List Bytes) :
    ¬ (LZOFile.output lzo).Yields [] (c :: cs) := by
  rintro ⟨r, fuel, hnew, hread⟩
  have hempty : LZOFile.Reader.new lzo [] = .ok ⟨[], [], 0⟩ := rfl
  obtain rfl : (⟨[], [], 0⟩ : LZOFile.Reader) = r := Except.ok.inj (hempty.symm.trans hnew)
  have hnil : Reads (RecordFile.nextChunk (LZOFile.read lzo)) ⟨[], [], 0⟩ [] := .done rfl
  cases (reads_of_readAll hread).unique hnil

/-- The writing of the chunk `[1]`, a crash right behind `rename`, and the file that is left. -/
theorem LZOFile.finalFile_of_crash (lzo : Lzo) :
    (LZOFile.output lzo).finalFile
      ([.write, .write, .sync, .rename].foldl (LZOFile.output lzo).step
        ((LZOFile.output lzo).start [⟨[1], by decide⟩])) = some [] := by
  have hheader : LZOFile.write lzo [1, 0, 0, 0] LZOFile.Writer.new = .ok ⟨[], [1, 0, 0, 0]⟩ := rfl
  have hdata : LZOFile.write lzo [1] ⟨[], [1, 0, 0, 0]⟩ = .ok ⟨[], [1, 0, 0, 0, 1]⟩ := rfl
  have hcalls : OutputFile.calls ⟨[1], by decide⟩ = [[1, 0, 0, 0], [1]] := rfl
  have hrun : [.write, .write, .sync, .rename].foldl (LZOFile.output lzo).step
      ((LZOFile.output lzo).start [⟨[1], by decide⟩]) =
        ⟨.renamed, [], ⟨[], [1, 0, 0, 0, 1]⟩, 0⟩ := by
    simp [OutputFile.start, OutputFile.step, LZOFile.output, hcalls, hheader, hdata]
  rw [hrun]
  rfl

/-- The process crashes right behind `rename`. Its chunk is in the buffer of stdio, or in the
block of the `LZOFile`, and the file under the final path is empty. -/
theorem empty_record_file_visible :
    (∃ (cs : List StringPiece) (as : List OutputFile.Step) (file : Bytes),
      LocalFile.output.finalFile
          (as.foldl LocalFile.output.step (LocalFile.output.start cs)) = some file ∧
        ¬ LocalFile.output.Yields file (cs.map StringPiece.data)) ∧
    ∀ lzo, ∃ (cs : List StringPiece) (as : List OutputFile.Step) (file : Bytes),
      (LZOFile.output lzo).finalFile
          (as.foldl (LZOFile.output lzo).step ((LZOFile.output lzo).start cs)) = some file ∧
        ¬ (LZOFile.output lzo).Yields file (cs.map StringPiece.data) :=
  ⟨⟨[⟨[1], by decide⟩], [.write, .write, .sync, .rename], [], rfl, LocalFile.not_yields_nil _ _⟩,
    fun lzo => ⟨_, _, [], LZOFile.finalFile_of_crash lzo, LZOFile.not_yields_nil lzo _ _⟩⟩

end MaiterStore
