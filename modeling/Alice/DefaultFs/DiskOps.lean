import Mathlib.Data.List.ModifyLast
import Alice.Operations
import Alice.Slicing

/-! # `defaultfs.get_disk_ops`

Changes of size and writes are cut into slices, at multiples of `splits` (mode
`aligned`) or into `splits` parts of equal length (mode `count`).  The
`atomicity` text of a disk operation describes the state behind it. -/

namespace Alice

open Posix (Path)
open Slicing

/-! ## The file system and its slices -/

inductive SplitMode where
  | aligned
  | count
  deriving DecidableEq, Repr

def SplitMode.text : SplitMode → String
  | aligned => "aligned"
  | count => "count"

/-- `int(math.ceil(float(a) / b))`.  The quotient is a rounded one: it is
known to be exact for dividends below `2 ^ 53`, and positive for positive
dividends. -/
structure FloatCeilDiv where
  toFun : ℕ → ℕ → ℕ
  pos : ∀ a b, 0 < a → 0 < b → 0 < toFun a b
  exact : ∀ a b, 0 < b → a < 2 ^ 53 → toFun a b = (a + b - 1) / b

def FloatCeilDiv.unrounded : FloatCeilDiv where
  toFun a b := (a + b - 1) / b
  pos a b := by
    intro aPos bPos
    apply Nat.div_pos <;> omega
  exact a b := by
    intro _ _
    rfl

/-- A `defaultfs` object with `splits >= 1`. -/
structure Defaultfs where
  splitMode : SplitMode
  splits : ℕ
  splitsPos : 0 < splits
  ceilDiv : FloatCeilDiv

namespace Defaultfs

/-- The `count` of the next slice of a range with `total` bytes. -/
def sliceSize (fs : Defaultfs) (total start remaining : ℕ) : ℕ :=
  match fs.splitMode with
  | .aligned => min (fs.splits - start % fs.splits) remaining
  | .count => min (fs.ceilDiv.toFun total fs.splits) remaining

/-- The slices which the loops of `trunc_disk_ops` and of the `write` branch
run through. -/
def slices (fs : Defaultfs) (start total : ℕ) : List Slice :=
  cut (fs.sliceSize total) start total

/-- `str(splits) + ' ' + split_mode`. -/
def splitText (fs : Defaultfs) : String :=
  toString fs.splits ++ " " ++ fs.splitMode.text

/-- `verb (... splits)` for every slice but the last. -/
def semi (fs : Defaultfs) (verb : String) (slice : Slice) : String :=
  if slice.last then "" else verb ++ " (" ++ fs.splitText ++ " splits)"

/-! ## Changes of size -/

/-- `write` of zeros or garbage over a slice. -/
def specialSlice (inode : Inode) (special : SpecialWrite) (atomicity : String)
    (slice : Slice) : DiskOp :=
  .write ⟨inode, slice.start, slice.count, none, 0, some special, atomicity⟩

/-- One round of the loop for a size-decreasing truncate, with the two sizes
still in the order of the loop. -/
def truncateSlice (fs : Defaultfs) (inode : Inode) (atomicityPrefix : String)
    (slice : Slice) : DiskOp :=
  .truncate inode slice.start slice.stop (atomicityPrefix ++ fs.semi " semi-truncated" slice)

def growSlice (fs : Defaultfs) (inode : Inode) (atomicityPrefix : String)
    (slice : Slice) : List DiskOp :=
  [specialSlice inode .garbage
      (atomicityPrefix ++ "garbage written" ++ fs.semi " semi-expanded" slice)
      slice,
    specialSlice inode .zeros
      (atomicityPrefix ++ fs.semi "semi-expanded" slice) slice]

def appendSlice (fs : Defaultfs) (append : DataRange) (atomicityPrefix : String)
    (slice : Slice) : List DiskOp :=
  [specialSlice append.inode .zeros
      (atomicityPrefix ++ "zero written" ++ fs.semi " semi-expanded" slice)
      slice,
    specialSlice append.inode .garbage
      (atomicityPrefix ++ "garbage written" ++ fs.semi " semi-expanded" slice)
      slice,
    .write ⟨append.inode, slice.start, slice.count, some append.dumpFile,
      append.dumpOffset + (slice.start - append.offset), none,
      atomicityPrefix ++ fs.semi "semi-expanded" slice⟩]

def swapSizes : DiskOp → DiskOp
  | .truncate inode initialSize finalSize atomicity =>
      .truncate inode finalSize initialSize atomicity
  | op => op

def truncDiskOps (fs : Defaultfs) (inode : Inode) (initialSize finalSize : ℕ)
    (append : Option DataRange) (atomicityPrefix : String) : Except PyError (List DiskOp) :=
  if initialSize = finalSize then
    .ok []
  else if finalSize < initialSize then do
    assertThat (append = none)
    let slices := fs.slices finalSize (initialSize - finalSize)
    assertThat (endOf slices = initialSize)
    pure ((slices.map (fs.truncateSlice inode atomicityPrefix)).reverse.map swapSizes)
  else do
    let slices := fs.slices initialSize (finalSize - initialSize)
    match append with
    | none =>
        assertThat (endOf slices = finalSize)
        pure (slices.flatMap (fs.growSlice inode atomicityPrefix))
    | some append =>
        assertThat (append.inode = inode)
        assertThat (append.offset = initialSize)
        assertThat (append.count = finalSize - initialSize)
        assertThat (endOf slices = finalSize)
        pure (slices.flatMap (fs.appendSlice append atomicityPrefix))

/-! ## Directory entries -/

/-- `ops[-1].atomicity = text`, for a list that is not empty. -/
def setLastAtomicity (text : String) (ops : List DiskOp) : List DiskOp :=
  ops.modifyLast (DiskOp.setAtomicity text)

def unlinkDiskOps (fs : Defaultfs) (parent inode : Inode) (name : Path)
    (size hardlinks : ℕ) (entryType : EntryType) (atomicityPrefix : String) :
    Except PyError (List DiskOp) := do
  let truncates ←
    if hardlinks = 1 then
      fs.truncDiskOps inode size 0 none atomicityPrefix
    else
      pure []
  pure (setLastAtomicity (atomicityPrefix ++ "fully truncated") truncates ++
    [.deleteDirEntry parent name inode entryType none])

def linkDiskOps (parent inode : Inode) (name : Path) (mode : Option Mode)
    (entryType : EntryType) : List DiskOp :=
  [.createDirEntry parent name inode mode entryType]

/-- The `rename` branch.  A `dest_inode` of `False` equals zero. -/
def renameDiskOps (fs : Defaultfs) (info : RenameInfo) : Except PyError (List DiskOp) := do
  let destUnlinked ←
    if 1 ≤ info.destHardlinks then do
      let unlinked ←
        fs.unlinkDiskOps info.destParent (info.destInode.getD 0) info.dest
          info.destSize info.destHardlinks .typeFile
          "destination unlinking partial "
      pure (setLastAtomicity "destination unlinked fully, source untouched" unlinked)
    else
      pure []
  let sourceUnlinked ←
    fs.unlinkDiskOps info.sourceParent info.sourceInode info.source
      info.sourceSize 2 .typeFile
      "destination unlinked fully, source unlinking partial "
  pure (setLastAtomicity "destination and source unlinked fully"
      (destUnlinked ++ sourceUnlinked) ++
    linkDiskOps info.destParent info.sourceInode info.dest none .typeFile)

/-! ## Writes and all branches -/

/-- One round of the loop of the `write` branch. -/
def writeSlice (fs : Defaultfs) (range : DataRange) (slice : Slice) : DiskOp :=
  .write ⟨range.inode, slice.start, slice.count, some range.dumpFile,
    range.dumpOffset + (slice.start - range.offset), none,
    fs.splitText ++ " split"⟩

/-- `get_disk_ops`: the list it stores in `hidden_disk_ops`. -/
def getDiskOps (fs : Defaultfs) : MicroOpKind → Except PyError (List DiskOp)
  | .creat name mode inode parent =>
      .ok (linkDiskOps parent inode name (some mode) .typeFile)
  | .unlink name inode parent size hardlinks =>
      fs.unlinkDiskOps parent inode name size hardlinks .typeFile ""
  | .link dest sourceInode destParent =>
      .ok (linkDiskOps destParent sourceInode dest none .typeFile)
  | .rename info => fs.renameDiskOps info
  | .trunc inode initialSize finalSize =>
      fs.truncDiskOps inode initialSize finalSize none ""
  | .append range =>
      fs.truncDiskOps range.inode range.offset (range.offset + range.count) (some range) ""
  | .write range => do
      assertThat (0 < range.count)
      pure ((fs.slices range.offset range.count).map (fs.writeSlice range))
  | .mkdir name mode inode parent => do
      let value ← evalMode mode
      pure (linkDiskOps parent inode name (some (.number value)) .typeDir)
  | .rmdir name inode parent =>
      fs.unlinkDiskOps parent inode name 0 0 .typeDir ""
  | .fsync inode size | .fdatasync inode size => .ok [.sync inode 0 size]
  | .fileSyncRange inode offset count => .ok [.sync inode offset count]
  | .sync hiddenFiles =>
      .ok (hiddenFiles.map fun file => .sync file.inode 0 file.size)
  | .stdout data => .ok [.stdout data]

/-- The disk operations of one logical operation, with the call it comes
from. -/
def tracedOps (fs : Defaultfs) (microOp : MicroOp) : Except PyError (List TracedOp) :=
  (fs.getDiskOps microOp.kind).map fun ops =>
    ops.map fun op => ⟨op, microOp.syscall⟩

/-- The list `all_diskops` of `set_fs`. -/
def allDiskOps (fs : Defaultfs) (microOps : List MicroOp) : Except PyError (List TracedOp) :=
  (microOps.mapM fs.tracedOps).map List.flatten

end Defaultfs

end Alice
