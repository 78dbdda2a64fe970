/-
# Files of blocks

A file is written block by block, each block at its own offset. A block that is longer
than the block size runs into the place of the next one, which then overwrites what is too
much. So at every block index the file has the first `n` elements of what was written
there.
-/

import Mathlib.Data.List.Flatten
import Mathlib.Algebra.BigOperators.Group.List.Lemmas
import Mathlib.Algebra.Order.Group.Nat
import Mathlib.Tactic.Linarith

namespace CS.BlockFile

variable {α : Type*} {n i : ℕ} {file buf : List α} {blocks : List (List α)}

/-- The block at an index. -/
def blockAt (n : ℕ) (file : List α) (i : ℕ) : List α := (file.drop (i * n)).take n

/-- Write `buf` at an offset. A gap before it is filled with `pad`. -/
def writeAt (pad : α) (file : List α) (offset : ℕ) (buf : List α) : List α :=
  file.take offset ++ List.replicate (offset - file.length) pad ++ buf ++
    file.drop (offset + buf.length)

/-- At the end of a file, or into what runs over it, writing appends. -/
theorem writeAt_eq (pad : α) (buf : List α) {offset : ℕ} (hle : offset ≤ file.length)
    (hover : file.length ≤ offset + buf.length) :
    writeAt pad file offset buf = file.take offset ++ buf := by
  rw [writeAt, Nat.sub_eq_zero_of_le hle, List.drop_of_length_le hover]
  simp

/-- What the file has before the offset stays. -/
theorem getElem?_writeAt_of_lt (pad : α) (buf : List α) {offset p : ℕ} (hp : p < offset)
    (hfile : p < file.length) : (writeAt pad file offset buf)[p]? = file[p]? := by
  have htake : p < (file.take offset).length := by
    rw [List.length_take]
    omega
  rw [writeAt, List.append_assoc, List.append_assoc, List.getElem?_append_left htake,
    List.getElem?_take_of_lt hp]

/-- The file has the first `n` elements of each of the blocks, and less than a block after
them. -/
structure Holds (n : ℕ) (file : List α) (blocks : List (List α)) : Prop where
  full : ∀ b ∈ blocks, n ≤ b.length
  take_eq : file.take (blocks.length * n) = (blocks.map (List.take n)).flatten
  le_length : blocks.length * n ≤ file.length
  length_lt : file.length < blocks.length * n + n

theorem holds_nil (hn : 0 < n) : Holds n ([] : List α) [] where
  full _ h := absurd h List.not_mem_nil
  take_eq := by simp
  le_length := by simp
  length_lt := by simpa using hn

/-- What is before the offset of a block does not depend on what follows. -/
theorem blockAt_take (file : List α) {j : ℕ} (hi : i < j) :
    blockAt n (file.take (j * n)) i = blockAt n file i := by
  have hle : i * n + n ≤ j * n := by
    rw [← Nat.succ_mul]
    exact Nat.mul_le_mul_right n hi
  rw [blockAt, blockAt, List.drop_take, List.take_take, Nat.min_eq_left (by omega)]

theorem sum_map_length_take (hfull : ∀ b ∈ blocks, n ≤ b.length) (i : ℕ) (hi : i ≤ blocks.length) :
    (((blocks.map (List.take n)).map List.length).take i).sum = i * n := by
  have hlengths : (blocks.map (List.take n)).map List.length = List.replicate blocks.length n := by
    rw [List.map_map, ← List.map_const']
    refine List.map_congr_left fun b hb => ?_
    simpa using hfull b hb
  rw [hlengths, List.take_replicate, Nat.min_eq_left hi, List.sum_replicate_nat]

theorem Holds.blockAt_eq (h : Holds n file blocks) (hi : i < blocks.length) :
    blockAt n file i = (blocks.get ⟨i, hi⟩).take n := by
  have hi' : i < (blocks.map (List.take n)).length := by simpa using hi
  have hslice := List.drop_take_succ_flatten_eq_getElem (blocks.map (List.take n)) i hi'
  rw [sum_map_length_take h.full _ hi.le, sum_map_length_take h.full _ hi, List.drop_take,
    Nat.succ_mul, Nat.add_sub_cancel_left, List.getElem_map] at hslice
  rw [← blockAt_take file hi, h.take_eq, blockAt, hslice]
  rfl

theorem Holds.length_writeAt (h : Holds n file blocks) (pad : α) (buf : List α)
    (hover : file.length ≤ blocks.length * n + buf.length) :
    (writeAt pad file (blocks.length * n) buf).length = blocks.length * n + buf.length := by
  rw [writeAt_eq pad buf h.le_length hover, List.length_append, List.length_take,
    Nat.min_eq_left h.le_length]

/-- The next block. -/
theorem Holds.writeAt (h : Holds n file blocks) (pad : α) (hbuf : n ≤ buf.length)
    (hover : buf.length < n + n) :
    Holds n (writeAt pad file (blocks.length * n) buf) (blocks ++ [buf]) := by
  have heq := writeAt_eq pad buf h.le_length (by linarith [h.length_lt])
  have hlen : (file.take (blocks.length * n)).length = blocks.length * n := by
    rw [List.length_take, Nat.min_eq_left h.le_length]
  have hblocks : (blocks ++ [buf]).length * n = blocks.length * n + n := by
    rw [List.length_append, List.length_singleton, Nat.succ_mul]
  refine ⟨fun b hb => ?_, ?_, ?_, ?_⟩
  · rcases List.mem_append.mp hb with hb | hb
    · exact h.full b hb
    · exact List.mem_singleton.mp hb ▸ hbuf
  · rw [heq, hblocks, List.take_append, hlen, List.take_of_length_le (by omega), h.take_eq,
      Nat.add_sub_cancel_left, List.map_append, List.flatten_append]
    simp
  · rw [heq, hblocks, List.length_append, hlen]
    omega
  · rw [heq, hblocks, List.length_append, hlen]
    omega

/-- The last block, which need not be full. It reaches beyond what runs over. -/
theorem Holds.blockAt_writeAt (h : Holds n file blocks) (pad : α) (buf : List α)
    (hover : file.length ≤ blocks.length * n + buf.length) :
    (∀ i, i < blocks.length →
      blockAt n (BlockFile.writeAt pad file (blocks.length * n) buf) i = blockAt n file i) ∧
      blockAt n (BlockFile.writeAt pad file (blocks.length * n) buf) blocks.length =
        buf.take n := by
  have heq := writeAt_eq pad buf h.le_length hover
  have hlen : (file.take (blocks.length * n)).length = blocks.length * n := by
    rw [List.length_take, Nat.min_eq_left h.le_length]
  constructor
  · intro i hi
    rw [heq, ← blockAt_take _ hi, ← blockAt_take file hi]
    rw [List.take_append_of_le_length hlen.ge, List.take_take, Nat.min_self]
  · rw [heq, blockAt, List.drop_append, hlen, Nat.sub_self, List.drop_zero,
      List.drop_of_length_le hlen.le, List.nil_append]

end CS.BlockFile
