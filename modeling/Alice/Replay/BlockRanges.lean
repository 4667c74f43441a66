import Alice.Replay.SpecialWrite
import Mathlib.Order.CompletePartialOrder
import Mathlib.Order.Interval.Set.Disjoint

/-! # The ranges of a large special write

The block path of `replay_disk_ops` divides a write into the bytes in front of
the first block, whole blocks, and the bytes behind them.  The block size is
never larger than the write, so `post_blocks_offset` is always assigned. -/

namespace Alice

open Checked

/-! ## The numbers -/

/-- The numbers that the block path computes.  `post_blocks_offset` is not
assigned if all bytes are in front of the blocks. -/
structure BlockRanges where
  size : ℕ
  preBlocksOffset : ℕ
  preBlocksCount : ℤ
  blocksOffset : ℚ
  blocksCount : ℤ
  postBlocksOffset : Option ℤ
  postBlocksCount : ℤ

/-- The block path up to the first command. -/
def blockRanges (offset count : ℕ) : Except ReplayError BlockRanges := do
  let size := blockSize count
  let blocksByteOffset := firstBlock offset size * size
  let blocksCount := wholeBlocks (offset + count - blocksByteOffset).toNat size
  let blocksByteCount := blocksCount * size
  let blocksOffset := Binary64.rounded (blocksByteOffset / size)
  let preBlocksOffset := offset
  let preBlocksCount ← preBlocks count (blocksByteOffset - offset) blocksByteCount
  ensure (0 ≤ preBlocksCount)
  let postBlocksOffset := blocksByteOffset + blocksByteCount
  let postBlocksCount ← postBlocks offset count size preBlocksCount postBlocksOffset
  ensure (0 ≤ preBlocksCount)
  ensure (0 ≤ blocksCount)
  ensure (0 ≤ postBlocksCount)
  ensure (preBlocksCount + blocksCount * size + postBlocksCount = count)
  ensure (preBlocksOffset = offset)
  ensure (preBlocksCount < count →
    Binary64.mul blocksOffset size =
      ((preBlocksOffset + preBlocksCount : ℤ) : ℚ))
  ensure (0 < postBlocksCount →
    Binary64.mul (Binary64.add blocksOffset (Binary64.rounded blocksCount))
      size = (postBlocksOffset : ℚ))
  pure
    { size, preBlocksOffset, preBlocksCount, blocksOffset, blocksCount,
      postBlocksOffset :=
        if preBlocksCount < count then some postBlocksOffset else none
      postBlocksCount }

namespace BlockRanges

def commands (ranges : BlockRanges) : List DdCommand :=
  (if 0 < ranges.preBlocksCount then
      [⟨.int ranges.preBlocksOffset, ranges.preBlocksCount, 1⟩]
    else []) ++
  (if 0 < ranges.blocksCount then
      [⟨.float ranges.blocksOffset, ranges.blocksCount, ranges.size⟩]
    else []) ++
  (if 0 < ranges.postBlocksCount then
      [⟨.int (ranges.postBlocksOffset.getD 0), ranges.postBlocksCount, 1⟩]
    else [])

def preRange (ranges : BlockRanges) : Set ℚ :=
  Set.Ico ranges.preBlocksOffset (ranges.preBlocksOffset + ranges.preBlocksCount)

def blocksRange (ranges : BlockRanges) : Set ℚ :=
  Set.Ico (ranges.blocksOffset * ranges.size)
    (ranges.blocksOffset * ranges.size + ranges.blocksCount * ranges.size)

/-- The bytes behind the blocks, which start at `postBlocksOffset`. -/
def postRange (ranges : BlockRanges) (postBlocksOffset : ℤ) : Set ℚ :=
  Set.Ico (postBlocksOffset : ℚ) (postBlocksOffset + ranges.postBlocksCount)

/-- The ranges follow each other from the offset on, and `count` bytes are in
them. -/
structure Partition (ranges : BlockRanges) (offset count : ℕ) : Prop where
  pre_offset : ranges.preBlocksOffset = offset
  pre_count : 0 ≤ ranges.preBlocksCount
  blocks_offset : ranges.blocksOffset * ranges.size = ranges.preBlocksOffset + ranges.preBlocksCount
  blocks_count : 0 ≤ ranges.blocksCount
  post_count : 0 ≤ ranges.postBlocksCount
  post : ∃ postBlocksOffset,
    ranges.postBlocksOffset = some postBlocksOffset ∧
      (postBlocksOffset : ℚ) = ranges.blocksOffset * ranges.size +
        ranges.blocksCount * ranges.size ∧
      (postBlocksOffset + ranges.postBlocksCount : ℚ) = offset + count

namespace Partition

variable {ranges : BlockRanges} {offset count : ℕ}

theorem covers (partition : Partition ranges offset count) : ∃ postBlocksOffset,
      ranges.postBlocksOffset = some postBlocksOffset ∧
        Disjoint ranges.preRange ranges.blocksRange ∧
        Disjoint (ranges.preRange ∪ ranges.blocksRange) (ranges.postRange postBlocksOffset) ∧
        ranges.preRange ∪ ranges.blocksRange ∪ ranges.postRange postBlocksOffset =
          Set.Ico (offset : ℚ) (offset + count) := by
  obtain ⟨postBlocksOffset, isPost, follows, stop⟩ := partition.post
  have preNonneg : (0 : ℚ) ≤ ranges.preBlocksCount := Int.cast_nonneg partition.pre_count
  have blocksNonneg : (0 : ℚ) ≤ ranges.blocksCount * ranges.size :=
    mul_nonneg (Int.cast_nonneg partition.blocks_count) (Nat.cast_nonneg _)
  have postNonneg : (0 : ℚ) ≤ ranges.postBlocksCount := Int.cast_nonneg partition.post_count
  have front : ranges.preRange ∪ ranges.blocksRange = Set.Ico (offset : ℚ) postBlocksOffset := by
    rw [preRange, blocksRange, ← follows, partition.blocks_offset, partition.pre_offset]
    refine Set.Ico_union_Ico_eq_Ico (le_add_of_nonneg_right preNonneg) ?_
    rw [follows, partition.blocks_offset, partition.pre_offset]
    exact le_add_of_nonneg_right blocksNonneg
  refine ⟨postBlocksOffset, isPost, ?_, ?_, ?_⟩
  · rw [preRange, blocksRange, partition.blocks_offset]
    exact Set.Ico_disjoint_Ico_same
  · rw [front, postRange]
    exact Set.Ico_disjoint_Ico_same
  · rw [front, postRange, stop]
    refine Set.Ico_union_Ico_eq_Ico ?_ ?_
    · rw [follows, partition.blocks_offset, partition.pre_offset, add_assoc]
      exact le_add_of_nonneg_right (add_nonneg preNonneg blocksNonneg)
    · rw [← stop]
      exact le_add_of_nonneg_right postNonneg

end Partition

end BlockRanges

/-! ## The commands -/

theorem bind_eq_map_bind {α β γ : Type} {x : Except ReplayError α} {f : α → Except ReplayError β}
    {g : α → Except ReplayError γ} {h : γ → β} (same : ∀ a, x = .ok a → f a = (g a).map h) :
    (x >>= f) = (x >>= g).map h := by
  cases x with
  | error => rfl
  | ok a => exact same a rfl

theorem blockCommands_eq (offset count : ℕ) : blockCommands offset count =
      (blockRanges offset count).map BlockRanges.commands := by
  simp only [blockCommands, blockRanges]
  refine bind_eq_map_bind fun preBlocksCount _ => ?_
  refine bind_eq_map_bind fun _ preNonneg => ?_
  refine bind_eq_map_bind fun postBlocksCount isPost => ?_
  rw [preNonneg, ok_bind]
  refine bind_eq_map_bind fun _ _ => ?_
  refine bind_eq_map_bind fun _ _ => ?_
  refine bind_eq_map_bind fun _ _ => ?_
  refine bind_eq_map_bind fun _ _ => ?_
  refine bind_eq_map_bind fun _ _ => ?_
  -- Bytes behind the blocks are there only if `post_blocks_offset` is assigned.
  have assigned : 0 < postBlocksCount → preBlocksCount < count := by
    intro some
    unfold postBlocks at isPost
    split_ifs at isPost with less
    · exact less
    · rw [pure_eq_ok_iff] at isPost
      omega
  refine congrArg Except.ok ?_
  simp only [BlockRanges.commands]
  split_ifs with some <;> simp_all

/-! ## Exact numbers -/

section

variable {offset count : ℕ}

/-- The first block starts less than a block behind the offset. -/
theorem firstBlock_bounds
    (small : offset < 2 ^ 53) :
    (offset : ℤ) ≤ firstBlock offset (blockSize count) * blockSize count ∧
      firstBlock offset (blockSize count) * blockSize count < (offset + blockSize count : ℤ) := by
  have exact := Binary64.rounded_natCast small
  have reached := (firstBlock_le_iff offset count _).1 le_rfl
  have before := (firstBlock_le_iff offset count
    (firstBlock offset (blockSize count) - 1)).not.1 (by omega)
  rw [exact] at reached before
  constructor
  · exact_mod_cast reached
  · have before : (firstBlock offset (blockSize count) - 1) * blockSize count < (offset : ℤ) := by
      exact_mod_cast not_le.1 before
    rw [sub_mul] at before
    omega

/-- Less than a block is left behind the whole blocks. -/
theorem wholeBlocks_bounds
    {bytes : ℕ} (small : bytes < 2 ^ 53) :
    wholeBlocks bytes (blockSize count) * blockSize count ≤ (bytes : ℤ) ∧
      (bytes : ℤ) < wholeBlocks bytes (blockSize count) * blockSize count +
        blockSize count := by
  have positive : (0 : ℚ) < blockSize count := Nat.cast_pos.2 (blockSize_pos count)
  have isFloor : wholeBlocks bytes (blockSize count) = ⌊(bytes : ℚ) / blockSize count⌋ := by
    rw [wholeBlocks, div_blockSize, Binary64.rounded_natCast small]
  have lower := Int.floor_le ((bytes : ℚ) / blockSize count)
  have upper := Int.lt_floor_add_one ((bytes : ℚ) / blockSize count)
  rw [← isFloor] at lower upper
  rw [le_div_iff₀ positive] at lower
  rw [div_lt_iff₀ positive, add_mul, one_mul] at upper
  exact ⟨by exact_mod_cast lower, by exact_mod_cast upper⟩

theorem blockSize_le (large : 4096 < count) : blockSize count ≤ count := by
  unfold blockSize
  split <;> omega

theorem rounded_intCast {n : ℤ} (nonneg : 0 ≤ n) (small : n < 2 ^ 53) :
    Binary64.rounded (n : ℚ) = n := by
  refine Binary64.rounded_of_representable (Binary64.representable_intCast ?_)
  rw [abs_of_nonneg nonneg]
  exact small.le

end

section

variable {offset count : ℕ} {first whole : ℤ}

/-- All bytes in front of the first block, which starts inside of the range,
are to be written. -/
theorem preBlocks_of_inside (inside : first * blockSize count < (offset + count : ℤ)) :
    preBlocks count (first * blockSize count - offset) (whole * blockSize count) =
      .ok (first * blockSize count - offset) := by
  rw [preBlocks, if_neg (by omega), pure_eq_ok_iff]

theorem postBlocks_of_inside (inside : first * blockSize count < (offset + count : ℤ)) :
    postBlocks offset count (blockSize count) (first * blockSize count - offset)
        (first * blockSize count + whole * blockSize count) = .ok (offset + count -
        (first * blockSize count + whole * blockSize count)) := by
  have aligned : (first * blockSize count + whole * blockSize count) % blockSize count = 0 := by
    rw [← add_mul, Int.mul_emod_left]
  rw [postBlocks, if_pos (by omega), ensure_of aligned, ok_bind, pure_eq_ok_iff]

/-- The end of the blocks is computed without an error. -/
theorem mul_add_blocks (firstNonneg : 0 ≤ first) (wholeNonneg : 0 ≤ whole)
    (small : first * blockSize count + whole * blockSize count < 2 ^ 53) :
    Binary64.mul (Binary64.add first (Binary64.rounded whole)) (blockSize count) =
      ((first * blockSize count + whole * blockSize count : ℤ) : ℚ) := by
  have positive : (1 : ℤ) ≤ blockSize count := by exact_mod_cast blockSize_pos count
  have firstLe : first ≤ first * blockSize count := le_mul_of_one_le_right firstNonneg positive
  have wholeLe : whole ≤ whole * blockSize count := le_mul_of_one_le_right wholeNonneg positive
  have sum : Binary64.add first (Binary64.rounded whole) = ((first + whole : ℤ) : ℚ) := by
    rw [rounded_intCast wholeNonneg (by omega), Binary64.add, ← Int.cast_add]
    exact rounded_intCast (by omega) (by omega)
  have product : ((first + whole : ℤ) : ℚ) * blockSize count =
      ((first * blockSize count + whole * blockSize count : ℤ) : ℚ) := by
    push_cast
    rw [add_mul]
  rw [sum, Binary64.mul, product]
  exact rounded_intCast (by omega) small

end

theorem exists_blockRanges {offset count : ℕ} (large : 4096 < count)
    (small : offset + count < 2 ^ 53) : ∃ ranges, blockRanges offset count = .ok ranges ∧
      ranges.size = blockSize count ∧ ranges.Partition offset count := by
  obtain ⟨notBefore, near⟩ := @firstBlock_bounds offset count (by omega)
  have sizeLe := blockSize_le large
  have firstNonneg := firstBlock_nonneg offset count
  have offsetExact := rounded_blocksOffset offset count
  have startExact := mul_firstBlock offset count
  have wholeNonneg := wholeBlocks_nonneg count (offset + count -
    firstBlock offset (blockSize count) * blockSize count).toNat
  have wholeLe := (@wholeBlocks_bounds count (offset + count -
    firstBlock offset (blockSize count) * blockSize count).toNat (by omega)).1
  simp only [blockRanges, offsetExact, startExact]
  generalize wholeBlocks _ _ = whole at wholeNonneg wholeLe ⊢
  generalize firstBlock _ _ = first at *
  have inside : first * blockSize count < (offset + count : ℤ) := by omega
  rw [preBlocks_of_inside inside, ok_bind, ensure_of (by omega), ok_bind,
    postBlocks_of_inside inside, ok_bind, ok_bind, ensure_of wholeNonneg, ok_bind,
    ensure_of (by omega), ok_bind, ensure_of (by omega), ok_bind, ensure_of trivial, ok_bind,
    ensure_of (fun _ => by push_cast; ring), ok_bind,
    ensure_of (fun _ => mul_add_blocks firstNonneg wholeNonneg (by omega)),
    ok_bind, if_pos (by omega)]
  refine ⟨_, rfl, rfl, rfl, ?_, ?_, wholeNonneg, ?_, _, rfl, ?_, ?_⟩
  · simp only
    omega
  · push_cast
    ring
  · simp only
    omega
  · push_cast
    rfl
  · push_cast
    ring

/-- No assertion fails, and the three ranges are a partition of the bytes to
write. -/
theorem block_ranges_exact
    (offset count : ℕ)
    (large : 4096 < count)
    (small : offset + count < 2 ^ 53) :
    ∃ ranges postBlocksOffset, blockRanges offset count = .ok ranges ∧
      ranges.size = blockSize count ∧
      ranges.Partition offset count ∧
      ranges.postBlocksOffset = some postBlocksOffset ∧
      Disjoint ranges.preRange ranges.blocksRange ∧
      Disjoint (ranges.preRange ∪ ranges.blocksRange)
        (ranges.postRange postBlocksOffset) ∧
      ranges.preRange ∪ ranges.blocksRange ∪
          ranges.postRange postBlocksOffset =
        Set.Ico (offset : ℚ) (offset + count) := by
  obtain ⟨ranges, computed, isSize, partition⟩ := exists_blockRanges large small
  obtain ⟨postBlocksOffset, covers⟩ := partition.covers
  exact ⟨ranges, postBlocksOffset, computed, isSize, partition, covers⟩

/-- A write of 4097 bytes that starts at the last byte of a block. -/
theorem block_ranges_exact_unaligned :
    ∃ ranges postBlocksOffset, blockRanges 4095 4097 = .ok ranges ∧
      ranges.size = blockSize 4097 ∧
      ranges.Partition 4095 4097 ∧
      ranges.postBlocksOffset = some postBlocksOffset ∧
      Disjoint ranges.preRange ranges.blocksRange ∧
      Disjoint (ranges.preRange ∪ ranges.blocksRange)
        (ranges.postRange postBlocksOffset) ∧
      ranges.preRange ∪ ranges.blocksRange ∪
          ranges.postRange postBlocksOffset =
        Set.Ico ((4095 : ℕ) : ℚ) ((4095 : ℕ) + (4097 : ℕ)) :=
  block_ranges_exact 4095 4097 (by decide) (by decide)

end Alice
