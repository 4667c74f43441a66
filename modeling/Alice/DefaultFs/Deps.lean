import Mathlib.Data.Finset.Option
import Alice.Operations

/-! # `defaultfs.get_deps`

A disk operation depends on the nearest earlier `sync` or `stdout`, a `sync`
also on what it flushes.

The two warning branches call `traceback.print_stack`, which is not imported.
`Names.imported` reads the warnings as no-ops, `Names.asWritten` is the module
as it stands. -/

namespace Alice

/-- Whether `traceback` and `sys` are defined where the warnings use them. -/
inductive Names where
  | asWritten
  | imported
  deriving DecidableEq, Repr

/-- What `ops[i]` contributes to the scan for a `sync` at `i`. -/
structure SyncPoint where
  inode : Inode
  offset : ℕ
  count : ℕ
  syscall : Syscall
  deriving DecidableEq, Repr

namespace SyncPoint

def final (point : SyncPoint) : ℕ :=
  point.offset + point.count

/-- A position of the file lies in the range, whose two ends are included. -/
def within (point : SyncPoint) (position : ℕ) : Bool :=
  point.offset ≤ position && position ≤ point.final

end SyncPoint

/-- Outcome of the loop body for one earlier operation: leave the loop, go on,
add the operation as a dependency and go on, or raise. -/
inductive ScanStep where
  | stop
  | skip
  | take
  | raise (error : PyError)
  deriving DecidableEq, Repr

def warn (names : Names) (next : ScanStep) : ScanStep :=
  match names with
  | .asWritten => .raise .nameError
  | .imported => next

/-- Body of the inner loop of `get_deps`. -/
def scanStep (names : Names) (point : SyncPoint) : DiskOp → ScanStep
  | .sync inode offset count =>
      if inode ≠ point.inode then
        .skip
      else if offset ≤ point.offset ∧ point.final ≤ offset + count then
        .stop
      else
        .skip
  | .truncate inode _ _ _ =>
      if inode ≠ point.inode then
        .skip
      else if point.syscall ∈ [.fsync, .fdatasync, .sync] then
        .take
      else
        .raise .assertionError
  | .write op =>
      if op.inode ≠ point.inode then
        .skip
      else if point.within op.offset then
        if point.within (op.offset + op.count) then
          .take
        else
          warn names .take
      else if point.within (op.offset + op.count) then
        warn names .skip
      else
        .skip
  | .createDirEntry parent _ _ _ _ | .deleteDirEntry parent _ _ _ _ =>
      if parent ≠ point.inode then
        .skip
      else if point.syscall ∈ [.fsync, .sync] then
        .take
      else
        .raise .assertionError
  | .stdout _ => .skip

/-- `for j in range(i - 1, -1, -1)`, with `i` as the first argument. -/
def syncScan (names : Names) (ops : List TracedOp) (point : SyncPoint) :
    ℕ → Except PyError (Finset ℕ)
  | 0 => .ok ∅
  | j + 1 =>
      match ops[j]? with
      | none => .error .indexError
      | some earlier =>
          match scanStep names point earlier.op with
          | .stop => .ok ∅
          | .skip => syncScan names ops point j
          | .take => (syncScan names ops point j).map (insert j)
          | .raise error => .error error

/-- The scan of the operation at `i`, which only a `sync` makes. -/
def ownDeps (names : Names) (ops : List TracedOp) (i : ℕ) (traced : TracedOp) :
    Except PyError (Finset ℕ) :=
  match traced.op with
  | .sync inode offset count =>
      syncScan names ops ⟨inode, offset, count, traced.syscall⟩ i
  | _ => .ok ∅

/-- The outer loop from position `i` on, with the current `last_sync`. -/
def getDepsFrom (names : Names) (ops : List TracedOp) :
    ℕ → Option ℕ → List TracedOp → Except PyError (List (Finset ℕ))
  | _, _, [] => .ok []
  | i, lastSync, traced :: rest => do
      let own ← ownDeps names ops i traced
      let later ←
        getDepsFrom names ops (i + 1)
          (if traced.op.isBarrier then some i else lastSync) rest
      pure ((lastSync.toFinset ∪ own) :: later)

/-- `get_deps`: the list of all `hidden_dependencies`. -/
def getDeps (names : Names) (ops : List TracedOp) : Except PyError (List (Finset ℕ)) :=
  getDepsFrom names ops 0 none ops

end Alice
