import Alice.Binary64
import Alice.Checked
import Alice.Replay.FileData

/-! # Writing garbage and zeros

Up to 4096 bytes are written at once, more by `dd` in up to three commands.
The position of the whole blocks is computed with `/`, which gives a floating
point number, and `dd` refuses its text.  Neither files nor floating point
numbers are limited in size. -/

namespace Alice

open Checked
open Posix (Bytes)
open FileContent

/-! ## `dd` -/

inductive ReplayError where
  | assertionError
  | calledProcessError
  deriving DecidableEq, Repr

/-- A number as it is put into the text of a command.  The text of a float has
a point or an exponent in it. -/
inductive PyNumber where
  | int (value : ℤ)
  | float (value : ℚ)

structure DdCommand where
  seek : PyNumber
  count : ℤ
  bs : ℕ

/-- `dd`, called by `check_call`, with the bytes that it reads. -/
def DdCommand.run (command : DdCommand) (input : ℕ → UInt8) (content : Bytes) :
    Except ReplayError Bytes :=
  match command.seek, command.count with
  | .int (.ofNat seek), .ofNat count =>
      .ok (pwrite content (seek * command.bs) ((List.range (count * command.bs)).map input))
  | _, _ => .error .calledProcessError

def runCommands (input : DdCommand → ℕ → UInt8) : List DdCommand → Bytes → Except ReplayError Bytes
  | [], content => .ok content
  | command :: rest, content => do
      runCommands input rest (← command.run (input command) content)

/-! ## The branch -/

def ensure (condition : Prop) [Decidable condition] : Except ReplayError Unit :=
  if condition then .ok () else .error .assertionError

def blockSize (count : ℕ) : ℕ :=
  if 4 * 1024 * 1024 < count then 1024 * 1024 else 4096

/-- `int(math.ceil(float(offset) / BLOCK_SIZE))`. -/
def firstBlock (offset size : ℕ) : ℤ :=
  ⌈Binary64.div (Binary64.rounded offset) size⌉

/-- `int(math.floor(float(bytes) / BLOCK_SIZE))`. -/
def wholeBlocks (bytes size : ℕ) : ℤ :=
  ⌊Binary64.div (Binary64.rounded bytes) size⌋

/-- `pre_blocks_count`, of which there are not more than bytes to write. -/
def preBlocks (count beforeBlocks blocksByteCount : ℤ) : Except ReplayError ℤ :=
  if count < beforeBlocks then do
    ensure (blocksByteCount = 0)
    pure count
  else
    pure beforeBlocks

def postBlocks (offset count size : ℕ)
    (preBlocksCount postBlocksOffset : ℤ) : Except ReplayError ℤ :=
  if preBlocksCount < count then do
    ensure (postBlocksOffset % size = 0)
    pure (offset + count - postBlocksOffset)
  else
    pure 0

/-- The commands for a write of more than 4096 bytes. -/
def blockCommands (offset count : ℕ) : Except ReplayError (List DdCommand) := do
  let size := blockSize count
  let blocksByteOffset := firstBlock offset size * size
  let blocksCount := wholeBlocks (offset + count - blocksByteOffset).toNat size
  let blocksByteCount := blocksCount * size
  let blocksOffset := Binary64.rounded (blocksByteOffset / size)
  let preBlocksCount ← preBlocks count (blocksByteOffset - offset) blocksByteCount
  ensure (0 ≤ preBlocksCount)
  let postBlocksOffset := blocksByteOffset + blocksByteCount
  let postBlocksCount ← postBlocks offset count size preBlocksCount postBlocksOffset
  ensure (0 ≤ blocksCount)
  ensure (0 ≤ postBlocksCount)
  ensure (preBlocksCount + blocksCount * size + postBlocksCount = count)
  ensure (preBlocksCount < count →
    Binary64.mul blocksOffset size = ((offset + preBlocksCount : ℤ) : ℚ))
  ensure (0 < postBlocksCount →
    Binary64.mul (Binary64.add blocksOffset (Binary64.rounded blocksCount))
      size = (postBlocksOffset : ℚ))
  pure ((if 0 < preBlocksCount then [⟨.int offset, preBlocksCount, 1⟩]
      else []) ++
    (if 0 < blocksCount then [⟨.float blocksOffset, blocksCount, size⟩]
      else []) ++
    (if 0 < postBlocksCount then
      [⟨.int postBlocksOffset, postBlocksCount, 1⟩]
    else []))

/-- What is read from `/dev/urandom`, and what `random.choice` returns. -/
structure RandomSource where
  urandom : DdCommand → ℕ → UInt8
  choice : ℕ → Fin 36

/-- `string.ascii_uppercase + string.digits`. -/
def garbageByte (choice : Fin 36) : UInt8 :=
  if choice < 26 then UInt8.ofNat (65 + choice) else UInt8.ofNat (22 + choice)

namespace SpecialWrite

def input (random : RandomSource) : SpecialWrite → DdCommand → ℕ → UInt8
  | .garbage => random.urandom
  | .zeros => fun _ _ => 0

def buf (random : RandomSource) (count : ℕ) : SpecialWrite → Bytes
  | .garbage =>
      (List.range count).map fun i => garbageByte (random.choice i)
  | .zeros => List.replicate count 0

end SpecialWrite

def specialWrite (random : RandomSource) (special : SpecialWrite)
    (offset count : ℕ) (content : Bytes) : Except ReplayError Bytes :=
  if 4096 < count then do
    runCommands (special.input random) (← blockCommands offset count) content
  else
    .ok (pwrite content offset (special.buf random count))

/-! ## Block numbers -/

theorem blockSize_eq_two_pow (count : ℕ) : ∃ k ≤ 20, blockSize count = 2 ^ k := by
  unfold blockSize
  split
  · exact ⟨20, le_rfl, rfl⟩
  · exact ⟨12, by decide, rfl⟩

theorem blockSize_pos (count : ℕ) : 0 < blockSize count := by
  unfold blockSize
  split <;> decide

section

variable (offset count : ℕ)

theorem div_blockSize (n : ℕ) : Binary64.div (Binary64.rounded n) (blockSize count) =
      Binary64.rounded n / blockSize count := by
  obtain ⟨k, small, isPower⟩ := blockSize_eq_two_pow count
  rw [Binary64.div, isPower]
  push_cast
  exact Binary64.rounded_div_two_pow (by omega) n

theorem firstBlock_nonneg : 0 ≤ firstBlock offset (blockSize count) := by
  have nonneg : 0 ≤ Binary64.rounded (offset : ℚ) / blockSize count :=
    div_nonneg (Binary64.rounded_nonneg (Nat.cast_nonneg _)) (Nat.cast_nonneg _)
  rw [firstBlock, div_blockSize]
  exact Int.ceil_nonneg nonneg

/-- A multiple of the block size is not before the first block if it is not
before the offset, rounded to a floating point number. -/
theorem firstBlock_le_iff (block : ℤ) : firstBlock offset (blockSize count) ≤ block ↔
      Binary64.rounded offset ≤ block * blockSize count := by
  have positive : (0 : ℚ) < blockSize count := Nat.cast_pos.2 (blockSize_pos count)
  rw [firstBlock, div_blockSize, Int.ceil_le, div_le_iff₀ positive]

theorem wholeBlocks_nonneg (bytes : ℕ) : 0 ≤ wholeBlocks bytes (blockSize count) := by
  have nonneg : 0 ≤ Binary64.rounded (bytes : ℚ) / blockSize count :=
    div_nonneg (Binary64.rounded_nonneg (Nat.cast_nonneg _)) (Nat.cast_nonneg _)
  rw [wholeBlocks, div_blockSize]
  exact Int.floor_nonneg.2 nonneg

theorem wholeBlocks_pos_iff (bytes : ℕ) :
    0 < wholeBlocks bytes (blockSize count) ↔ blockSize count ≤ bytes := by
  have positive : (0 : ℚ) < blockSize count := Nat.cast_pos.2 (blockSize_pos count)
  obtain ⟨k, small, isPower⟩ := blockSize_eq_two_pow count
  rw [wholeBlocks, div_blockSize, Int.floor_pos, one_le_div positive, isPower]
  push_cast
  exact Binary64.two_pow_le_rounded_iff (by omega) bytes

theorem rounded_firstBlock : Binary64.rounded (firstBlock offset (blockSize count) : ℚ) =
      firstBlock offset (blockSize count) :=
  Binary64.rounded_of_representable (Binary64.representable_rounded _).ceil

theorem mul_firstBlock : Binary64.mul (firstBlock offset (blockSize count)) (blockSize count) =
      firstBlock offset (blockSize count) * blockSize count := by
  obtain ⟨k, _, isPower⟩ := blockSize_eq_two_pow count
  have representable : Binary64.Representable (firstBlock offset (blockSize count) : ℚ) :=
    (Binary64.representable_rounded _).ceil
  apply Binary64.rounded_of_representable
  have scaled := representable.mul_two_pow k
  rw [isPower] at scaled ⊢
  push_cast
  exact scaled

/-- The position of the blocks is computed without an error. -/
theorem rounded_blocksOffset : Binary64.rounded
        ((firstBlock offset (blockSize count) * blockSize count : ℤ) / (blockSize count : ℕ)) =
      firstBlock offset (blockSize count) := by
  have nonzero : ((blockSize count : ℕ) : ℚ) ≠ 0 := (Nat.cast_pos.2 (blockSize_pos count)).ne'
  push_cast
  rw [mul_div_assoc, div_self nonzero, mul_one, rounded_firstBlock]

end

/-! ## The commands -/

theorem ensure_eq_ok_iff {condition : Prop} [Decidable condition] {u : Unit} :
    ensure condition = .ok u ↔ condition := by
  unfold ensure
  split <;> simp [*]

theorem ensure_of {condition : Prop} [Decidable condition] (holds : condition)
    : ensure condition = .ok () :=
  if_pos holds

section

variable {offset count : ℕ} {commands : List DdCommand}

/-- If the assertions hold, the blocks are not before the offset, and whole
blocks are written by a command with a float in it. -/
theorem blocks_of_blockCommands (ran : blockCommands offset count = .ok commands) :
    (offset : ℤ) ≤ firstBlock offset (blockSize count) * blockSize count ∧
      (0 < wholeBlocks (offset + count - firstBlock offset (blockSize count) *
          blockSize count).toNat (blockSize count) →
        ∃ command ∈ commands, ∃ value, command.seek = .float value) := by
  obtain ⟨preBlocksCount, isPre, ran⟩ := bind_eq_ok_iff.1 ran
  obtain ⟨_, preNonneg, ran⟩ := bind_eq_ok_iff.1 ran
  obtain ⟨postBlocksCount, _, ran⟩ := bind_eq_ok_iff.1 ran
  obtain ⟨_, _, ran⟩ := bind_eq_ok_iff.1 ran
  obtain ⟨_, _, ran⟩ := bind_eq_ok_iff.1 ran
  obtain ⟨_, _, ran⟩ := bind_eq_ok_iff.1 ran
  obtain ⟨_, _, ran⟩ := bind_eq_ok_iff.1 ran
  obtain ⟨_, _, ran⟩ := bind_eq_ok_iff.1 ran
  rw [pure_eq_ok_iff] at ran
  subst ran
  constructor
  · unfold preBlocks at isPre
    split_ifs at isPre with less
    · omega
    · rw [pure_eq_ok_iff] at isPre
      have := ensure_eq_ok_iff.1 preNonneg
      omega
  · intro some
    rw [if_pos some]
    exact ⟨_, List.mem_append_left _ (List.mem_append_right _ (List.mem_singleton_self _)), _, rfl⟩

theorem seek_of_runCommands {input : DdCommand → ℕ → UInt8} {content after : Bytes}
    (ran : runCommands input commands content = .ok after) :
    ∀ command ∈ commands, ∀ value, command.seek ≠ .float value := by
  induction commands generalizing content with
  | nil => exact fun _ member => absurd member List.not_mem_nil
  | cons command commands ih =>
    obtain ⟨middle, first, later⟩ := bind_eq_ok_iff.1 ran
    rw [List.forall_mem_cons]
    refine ⟨fun value isFloat => ?_, ih later⟩
    rw [DdCommand.run, isFloat] at first
    cases first

/-- A command for single bytes, if there are any. -/
def byteCommand (offset count : ℕ) : List DdCommand :=
  if 0 < count then [⟨.int offset, count, 1⟩] else []

theorem runCommands_byteCommand (input : DdCommand → ℕ → UInt8) (offset count : ℕ)
    (rest : List DdCommand) (content : Bytes) :
    runCommands input (byteCommand offset count ++ rest) content =
      runCommands input rest (pwrite content offset
        ((List.range count).map (input ⟨.int offset, count, 1⟩))) := by
  unfold byteCommand
  split_ifs with some
  · simp only [List.singleton_append, runCommands, DdCommand.run]
    simp
  · obtain rfl := Nat.eq_zero_of_not_pos some
    simp

/-- Without whole blocks two commands write the bytes in front of a multiple
of the block size and those behind it. -/
theorem blockCommands_of_noBlock
    (notBefore : (offset : ℤ) ≤ firstBlock offset (blockSize count) * blockSize count)
    (noBlock : (offset + count : ℤ) < firstBlock offset (blockSize count) * blockSize count +
        blockSize count) : ∃ front back, front + back = count ∧ blockCommands offset count =
        .ok (byteCommand offset front ++ byteCommand (offset + front) back) := by
  have sizePositive := blockSize_pos count
  have noneWhole : wholeBlocks (offset + count - firstBlock offset
      (blockSize count) * blockSize count).toNat (blockSize count) = 0 := by
    refine le_antisymm (not_lt.1 fun some => ?_) (wholeBlocks_nonneg _ _)
    have := (wholeBlocks_pos_iff _ _).1 some
    omega
  obtain ⟨before, isBefore⟩ := Int.eq_ofNat_of_zero_le (sub_nonneg.2 notBefore)
  have front : preBlocks count (firstBlock offset (blockSize count) *
      blockSize count - offset) 0 = .ok (min count before : ℕ) := by
    rw [preBlocks, isBefore]
    split_ifs with less
    · rw [ensure_of rfl, ok_bind, pure_eq_ok_iff]
      omega
    · rw [pure_eq_ok_iff]
      omega
  have back : postBlocks offset count (blockSize count) (min count before : ℕ)
      (firstBlock offset (blockSize count) * blockSize count) = .ok (count - before : ℕ) := by
    rw [postBlocks]
    split_ifs with less
    · rw [ensure_of (Int.mul_emod_left _ _), ok_bind, pure_eq_ok_iff]
      omega
    · rw [pure_eq_ok_iff]
      omega
  have whole : ((min count before : ℕ) : ℤ) + (count - before : ℕ) =
      count := by
    omega
  have position : ((min count before : ℕ) : ℤ) < count →
      firstBlock offset (blockSize count) * blockSize count =
        ((offset + (min count before : ℕ) : ℤ) : ℚ) := by
    intro less
    have : firstBlock offset (blockSize count) * blockSize count =
        (offset + (min count before : ℕ) : ℤ) := by
      omega
    exact_mod_cast this
  have noOffset : Binary64.add (firstBlock offset (blockSize count))
      (Binary64.rounded (0 : ℤ)) = firstBlock offset (blockSize count) := by
    have zero : Binary64.rounded ((0 : ℤ) : ℚ) = 0 := by simp [Binary64.rounded, Binary64.roundEven]
    rw [zero, Binary64.add, add_zero, rounded_firstBlock]
  refine ⟨min count before, count - before, by omega, ?_⟩
  simp only [blockCommands, noneWhole, zero_mul, add_zero, front, back,
    ok_bind, rounded_blocksOffset, mul_firstBlock, noOffset]
  rw [ensure_of (Int.natCast_nonneg _), ok_bind, ensure_of le_rfl, ok_bind,
    ensure_of (Int.natCast_nonneg _), ok_bind, ensure_of whole, ok_bind,
    ensure_of position, ok_bind, ensure_of fun _ => by push_cast; rfl, ok_bind, pure_eq_ok_iff]
  congr 1
  · simp [byteCommand]
  · have start : 0 < count - before → firstBlock offset (blockSize count) * blockSize count =
          ((offset + min count before : ℕ) : ℤ) := by
      omega
    simp only [byteCommand, Int.natCast_pos]
    split_ifs with some
    · rw [start some]
    · rfl

theorem runCommands_byteCommands (input : DdCommand → ℕ → UInt8) (offset front back : ℕ)
    (content : Bytes) : ∃ data, runCommands input (byteCommand offset front ++
        byteCommand (offset + front) back) content = .ok (pwrite content offset data) ∧
      data.length = front + back ∧ ((∀ command i, input command i = 0) →
        data = List.replicate (front + back) 0) := by
  refine ⟨(List.range front).map (input ⟨.int offset, front, 1⟩) ++
    (List.range back).map (input ⟨.int (offset + front : ℕ), back, 1⟩), ?_, by simp, ?_⟩
  · have second := runCommands_byteCommand input (offset + front) back []
    rw [List.append_nil] at second
    rw [runCommands_byteCommand, second, runCommands,
      ← pwrite_pwrite_append, List.length_map, List.length_range]
  · intro allZero
    have zeros : ∀ command n, (List.range n).map (input command) = List.replicate n 0 := by
      intro command n
      rw [List.map_congr_left fun i _ => allZero command i, List.map_const', List.length_range]
    rw [zeros, zeros, List.replicate_add]

end

/-! ## Overwriting a range -/

/-- The write completes and overwrites the bytes from the offset on, with
zeros if it is one of zeros. -/
def OverwritesRange (random : RandomSource) (special : SpecialWrite)
    (offset count : ℕ) (content : Bytes) : Prop :=
  ∃ data, specialWrite random special offset count content =
      .ok (pwrite content offset data) ∧
    data.length = count ∧
    (special = .zeros → data = List.replicate count 0)

section

variable {random : RandomSource} {special : SpecialWrite} {offset count : ℕ}
  {content : Bytes}

theorem noBlock_of_specialWrite {after : Bytes} (large : 4096 < count)
    (ran : specialWrite random special offset count content = .ok after) {block : ℕ}
    (reached : Binary64.rounded offset ≤ block * blockSize count) :
    offset ≤ block * blockSize count ∧ offset + count < (block + 1) * blockSize count := by
  rw [specialWrite, if_pos large] at ran
  obtain ⟨commands, planned, ran⟩ := bind_eq_ok_iff.1 ran
  obtain ⟨notBefore, float⟩ := blocks_of_blockCommands planned
  have noBlock : ¬ blockSize count ≤ (offset + count - firstBlock offset
      (blockSize count) * blockSize count).toNat := by
    rw [← wholeBlocks_pos_iff]
    intro some
    obtain ⟨command, member, value, isFloat⟩ := float some
    exact seek_of_runCommands ran command member value isFloat
  have first := (firstBlock_le_iff offset count block).2 (by exact_mod_cast reached)
  have start := mul_le_mul_of_nonneg_right first (Int.natCast_nonneg (blockSize count))
  rw [Nat.succ_mul]
  constructor <;> zify <;> omega

theorem overwritesRange_of_noBlock (large : 4096 < count)
    (noBlock : ∀ block : ℕ, Binary64.rounded offset ≤ block * blockSize count →
        offset ≤ block * blockSize count ∧ offset + count < (block + 1) * blockSize count) :
    OverwritesRange random special offset count content := by
  obtain ⟨block, isBlock⟩ := Int.eq_ofNat_of_zero_le (firstBlock_nonneg offset count)
  have reached := (firstBlock_le_iff offset count block).1 isBlock.le
  obtain ⟨notBefore, less⟩ := noBlock block (by exact_mod_cast reached)
  rw [Nat.succ_mul] at less
  obtain ⟨front, back, sum, planned⟩ := @blockCommands_of_noBlock offset count
      (by rw [isBlock]; exact_mod_cast notBefore) (by rw [isBlock]; exact_mod_cast less)
  obtain ⟨data, ran, isCount, zeros⟩ := runCommands_byteCommands
    (special.input random) offset front back content
  rw [OverwritesRange, specialWrite, if_pos large, planned, ok_bind]
  refine ⟨data, ran, isCount.trans sum, ?_⟩
  rintro rfl
  rw [← sum]
  exact zeros fun _ _ => rfl

theorem noBlock_of_overwritesRange (large : 4096 < count)
    (overwrites : OverwritesRange random special offset count content) {block : ℕ}
    (reached : Binary64.rounded offset ≤ block * blockSize count) :
    offset ≤ block * blockSize count ∧ offset + count < (block + 1) * blockSize count := by
  obtain ⟨data, ran, _⟩ := overwrites
  exact noBlock_of_specialWrite large ran reached

theorem overwritesRange_of_le (small : count ≤ 4096) :
    OverwritesRange random special offset count content := by
  refine ⟨special.buf random count, if_neg (not_lt.2 small), ?_, ?_⟩
  · cases special <;> simp [SpecialWrite.buf]
  · rintro rfl
    rfl

theorem overwritesRange_of_ok {after : Bytes}
    (ran : specialWrite random special offset count content = .ok after) :
    OverwritesRange random special offset count content := by
  rcases le_or_gt count 4096 with small | large
  · exact overwritesRange_of_le small
  · exact overwritesRange_of_noBlock large fun _ => noBlock_of_specialWrite large ran

end

/-- A write of more than 4096 bytes is right if there is no whole block
between the offset, rounded to a floating point number, and the end. -/
theorem overwrites_range_iff
    (random : RandomSource) (special : SpecialWrite) (offset count : ℕ)
    (content : Bytes) :
    OverwritesRange random special offset count content ↔
      count ≤ 4096 ∨ ∀ block : ℕ,
        Binary64.rounded offset ≤ block * blockSize count →
          offset ≤ block * blockSize count ∧
            offset + count < (block + 1) * blockSize count := by
  rcases le_or_gt count 4096 with small | large
  · exact iff_of_true (overwritesRange_of_le small) (.inl small)
  · rw [or_iff_right (not_le.2 large)]
    exact ⟨fun overwrites _ => noBlock_of_overwritesRange large overwrites,
      overwritesRange_of_noBlock large⟩

/-- The start of a file is the start of a block. -/
theorem rounded_zero_le (size : ℕ) : Binary64.rounded ((0 : ℕ) : ℚ) ≤ ((0 : ℕ) : ℚ) * size := by
  rw [Binary64.rounded_natCast (by norm_num)]
  simp

/-- Two whole blocks at the start of a file are not written. -/
theorem two_blocks_fail : ¬ OverwritesRange ⟨fun _ _ => 0, fun _ => 0⟩ .zeros 0 8192 [] := by
  intro overwrites
  have noBlock := noBlock_of_overwritesRange (by decide) overwrites
    (rounded_zero_le (blockSize 8192))
  exact absurd noBlock.2 (by decide)

end Alice
