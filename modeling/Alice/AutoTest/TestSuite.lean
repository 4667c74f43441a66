import Mathlib.Data.Finset.Option
import Alice.BackwardGraph
import Alice.Operations

/-! # `Operation` and `ALCTestSuite`

Operations share module globals: the dirty operations of every inode and the
latest `sync`.  An operation is named by its position in `op_list`, and a
`deps` dictionary is the set of its keys.  File names, which only serve
printing, and the bit vectors of `deps` are left out. -/

namespace Alice

open BackwardGraph

/-- An element of `micro_op_list`.  Inodes are integers because `set_fs`
passes terminal output as a write to inode `-1`. -/
inductive SuiteOp where
  | write (inode : ℤ) (offset count : ℕ)
  | sync (inode : ℤ) (offset count : ℕ)
  | truncate (inode : ℤ) (finalSize : ℕ)
  | createDirEntry (parent : ℤ)
  | deleteDirEntry (parent : ℤ)
  deriving DecidableEq, Repr

namespace SuiteOp

/-- The key of `dirty_write_ops_inode` under which an operation is entered. -/
def dirtyInode : SuiteOp → Option ℤ
  | write inode _ _ => some inode
  | truncate inode _ => some inode
  | createDirEntry parent => some parent
  | deleteDirEntry parent => some parent
  | sync .. => none

def isIncludedInSyncRange (offset count : ℕ) : SuiteOp → Bool
  | write _ writeStart writeCount =>
      offset ≤ writeStart && writeStart + writeCount ≤ offset + count
  | truncate _ finalSize => offset ≤ finalSize && finalSize ≤ offset + count
  | createDirEntry _ => true
  | deleteDirEntry _ => true
  | sync .. => false

end SuiteOp

/-- The operations made so far and the module globals. -/
structure Globals where
  opList : List SuiteOp
  deps : ℕ → Finset ℕ
  dirtyWriteOpsInode : ℤ → Finset ℕ
  latestFsyncOnAnyFile : Option ℕ

namespace Globals

/-- The globals after the constructor of `ALCTestSuite` has reset them. -/
def reset : Globals where
  opList := []
  deps := fun _ => ∅
  dirtyWriteOpsInode := fun _ => ∅
  latestFsyncOnAnyFile := none

/-- An earlier operation is included in a sync range. -/
def includedAt (globals : Globals) (offset count id : ℕ) : Bool :=
  match globals.opList[id]? with
  | some op => op.isIncludedInSyncRange offset count
  | none => false

def updateDirtyWriteCollection (globals : Globals) (op : SuiteOp) : Globals :=
  match op.dirtyInode with
  | some inode =>
      { globals with
        dirtyWriteOpsInode :=
          Function.update globals.dirtyWriteOpsInode inode
            (insert globals.opList.length
              (globals.dirtyWriteOpsInode inode)) }
  | none => globals

/-- The dirty operations that a `sync` finds in its range. -/
def dirtyInRange (globals : Globals) : SuiteOp → Finset ℕ
  | .sync inode offset count =>
      (globals.dirtyWriteOpsInode inode).filter fun id =>
        globals.includedAt offset count id
  | _ => ∅

/-- `calculate_dependencies`: each operation found is entered with its own
dependencies. -/
def calculateDependencies (globals : Globals) (op : SuiteOp) : Finset ℕ :=
  let found := (globals.dirtyInRange op).biUnion fun wop => globals.deps wop ∪ {wop}
  match globals.latestFsyncOnAnyFile with
  | some latest => found ∪ globals.deps latest ∪ {latest}
  | none => found

def clearDirtyWriteCollection (globals : Globals) (op : SuiteOp) : Globals :=
  match op with
  | .sync inode _ _ =>
      { globals with
        dirtyWriteOpsInode :=
          Function.update globals.dirtyWriteOpsInode inode
            (globals.dirtyWriteOpsInode inode \ globals.dirtyInRange op)
        latestFsyncOnAnyFile := some globals.opList.length }
  | _ => globals

/-- `Operation.__init__`, and the new operation appended to `op_list`. -/
def addOperation (globals : Globals) (op : SuiteOp) : Globals :=
  let updated := globals.updateDirtyWriteCollection op
  let deps := updated.calculateDependencies op
  let cleared := updated.clearDirtyWriteCollection op
  { cleared with
    opList := globals.opList ++ [op]
    deps := Function.update globals.deps globals.opList.length deps }

/-- The operations that `calculate_dependencies` names itself, without the
dependencies these bring along. -/
def directDependencies (globals : Globals) (op : SuiteOp) : Finset ℕ :=
  globals.dirtyInRange op ∪ globals.latestFsyncOnAnyFile.toFinset

end Globals

/-- An `ALCTestSuite`: its operations and their `deps`. -/
structure ALCTestSuite where
  opList : List SuiteOp
  deps : ℕ → Finset ℕ

namespace ALCTestSuite

/-- The globals after the constructor has handled the operations of
`microOpList`. -/
def globalsAfter (microOpList : List SuiteOp) : Globals :=
  microOpList.foldl Globals.addOperation Globals.reset

/-- `ALCTestSuite.__init__`. -/
def construct (microOpList : List SuiteOp) : ALCTestSuite where
  opList := (globalsAfter microOpList).opList
  deps := (globalsAfter microOpList).deps

/-- The direct edges of `calculate_dependencies` at position `x`. -/
def directEdges (microOpList : List SuiteOp) (x : ℕ) : Finset ℕ :=
  match microOpList[x]? with
  | some op =>
      ((globalsAfter (microOpList.take x)).updateDirtyWriteCollection op ).directDependencies op
  | none => ∅

/-- `test_combo_validity`, by way of `test_validity`. -/
def testComboValidity (suite : ALCTestSuite) (combo : Finset ℕ) : Except PyError Bool :=
  if ∀ id ∈ combo, id < suite.opList.length then
    .ok (decide (∀ id ∈ combo, suite.deps id ⊆ combo))
  else
    .error .keyError

/-- `add_dep` for the tuple `(x, y)`. -/
def addDep (count : ℕ) (deps : ℕ → Finset ℕ) (tuple : ℕ × ℕ) : Except PyError (ℕ → Finset ℕ) :=
  if tuple.1 < count ∧ tuple.2 < count then
    .ok (Function.update deps tuple.1 (deps tuple.1 ∪ deps tuple.2 ∪ {tuple.2}))
  else
    .error .keyError

/-- The order of tuples in Python. -/
def tupleLe (left right : ℕ × ℕ) : Prop :=
  left.1 < right.1 ∨ left.1 = right.1 ∧ left.2 ≤ right.2

instance : DecidableRel tupleLe := fun left right =>
  inferInstanceAs (Decidable (left.1 < right.1 ∨ left.1 = right.1 ∧ left.2 ≤ right.2))

/-- `add_deps_to_ops`.  The last loop replaces the `deps` of every operation,
in the order of `op_list`, by their union with the `deps` of their members. -/
def addDepsToOps (suite : ALCTestSuite) (depList : List (ℕ × ℕ)) : Except PyError ALCTestSuite :=
  ((depList.insertionSort tupleLe).foldlM (addDep suite.opList.length) suite.deps).map fun deps =>
    { suite with deps := forwardPass deps suite.opList.length }

end ALCTestSuite

end Alice
