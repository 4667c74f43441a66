import Alice.Legality.Suite
import Alice.DefaultFs.DiskOps
import Alice.Replay.Rows

/-! # `Replayer`

`is_legal` and `construct_crashed_dir` run through the disk operations up to
the end point in two loops of their own: the first asks the test suite about
the retained ones, the second replays what it has collected so far after each
disk operation. -/

namespace Alice

structure DiskOpState where
  op : DiskOp
  /-- `hidden_omitted`. -/
  omitted : Bool
  deriving DecidableEq, Repr

structure MicroOpState where
  microOp : MicroOp
  diskOps : List DiskOpState
  deriving DecidableEq, Repr

def MicroOpKind.isSync : MicroOpKind → Bool
  | sync _ => true
  | _ => false

def MicroOpKind.isStdout : MicroOpKind → Bool
  | stdout _ => true
  | _ => false

def MicroOpState.isSync (state : MicroOpState) : Bool :=
  state.microOp.kind.isSync

def MicroOpState.isStdout (state : MicroOpState) : Bool :=
  state.microOp.kind.isStdout

/-- A `Replayer` after `set_fs`. -/
structure Replayer where
  snapshot : Snapshot
  microOps : List MicroOpState
  microEnd : ℕ
  diskEnd : ℤ
  testSuite : ALCTestSuite

namespace Replayer

/-! ## Setting up -/

/-- What `get_disk_ops` and the inner loop of `set_fs` do to a logical
operation. -/
def expand (fs : Defaultfs) (microOp : MicroOp) : Except PyError MicroOpState :=
  (fs.getDiskOps microOp.kind).map fun ops =>
    ⟨microOp, ops.map fun op => ⟨op, false⟩⟩

/-- All disk operations, each with the call behind it. -/
def flatOps (microOps : List MicroOpState) : List TracedOp :=
  microOps.flatMap fun state =>
    state.diskOps.map fun disk => ⟨disk.op, state.microOp.syscall⟩

/-- `set_fs` on a replayer whose end point is at the logical operation
`microEnd`. -/
def setFs (names : Names) (fs : Defaultfs) (snapshot : Snapshot)
    (microOps : List MicroOp) (microEnd : ℕ) (diskEnd : ℤ) :
    Except PyError Replayer := do
  let expanded ← microOps.mapM (expand fs)
  let suite ← testSuiteOf names (flatOps expanded)
  pure
    { snapshot := snapshot
      microOps := expanded
      microEnd := microEnd
      diskEnd :=
        match expanded[microEnd]? with
        | some state => state.diskOps.length - 1
        | none => diskEnd
      testSuite := suite }

def dopsLen (replayer : Replayer) (i : ℕ) : Except PyError ℕ :=
  match replayer.microOps[i]? with
  | some state => .ok state.diskOps.length
  | none => .error .assertionError

def dopsEndAt (replayer : Replayer) (i : ℕ) (j : ℤ) : Replayer :=
  { replayer with microEnd := i, diskEnd := j }

/-- Set `hidden_omitted` of one disk operation, after `__dops_get_i_j`. -/
def setOmitted (replayer : Replayer) (i j : ℕ) (omitted : Bool) : Except PyError Replayer :=
  match replayer.microOps[i]? with
  | none => .error .assertionError
  | some state =>
      if j < state.diskOps.length then
        .ok { replayer with
          microOps := replayer.microOps.set i { state with
            diskOps := state.diskOps.modify j fun disk =>
              { disk with omitted := omitted } } }
      else
        .error .assertionError

/-- `dops_omit`, which leaves terminal output alone. -/
def dopsOmit (replayer : Replayer) (i j : ℕ) : Except PyError Replayer :=
  match replayer.microOps[i]? with
  | none => .error .assertionError
  | some state =>
      if j < state.diskOps.length ∧ state.isStdout = true then
        .ok replayer
      else
        replayer.setOmitted i j true

def dopsInclude (replayer : Replayer) (i j : ℕ) : Except PyError Replayer :=
  replayer.setOmitted i j false

/-! ## The two loops -/

/-- `till`: how many disk operations of the logical operation `i` lie at or
before the end point. -/
def till (replayer : Replayer) (i : ℕ) (state : MicroOpState) : ℕ :=
  if replayer.microEnd = i then
    (replayer.diskEnd + 1).toNat
  else
    state.diskOps.length

/-- The inner loop of `is_legal`, with `diskops_index` and
`included_diskops`.  The result `none` stands for `return False`. -/
def legalDiskLoop (state : MicroOpState) :
    List ℕ → ℕ → List ℕ → Except PyError (Option (ℕ × List ℕ))
  | [], index, included => .ok (some (index, included))
  | j :: rest, index, included =>
      match state.diskOps[j]? with
      | none => .error .indexError
      | some disk =>
          if !disk.omitted then
            legalDiskLoop state rest (index + 1) (included ++ [index])
          else if state.isSync then
            .ok none
          else
            legalDiskLoop state rest (index + 1) included

def legalMicroLoop (replayer : Replayer) : List ℕ → ℕ → List ℕ → Except PyError (Option (List ℕ))
  | [], _, included => .ok (some included)
  | i :: rest, index, included =>
      match replayer.microOps[i]? with
      | none => .error .indexError
      | some state => do
          match ← legalDiskLoop state (List.range (replayer.till i state)) index included with
          | none => pure none
          | some (index, included) =>
              legalMicroLoop replayer rest index included

/-- The numbers that `is_legal` passes to the test suite, `none` if it
returns `False` before. -/
def legalIndices (replayer : Replayer) : Except PyError (Option (List ℕ)) :=
  match replayer.microOps[replayer.microEnd]? with
  | none => .error .indexError
  | some state =>
      if state.isSync = true ∧ replayer.diskEnd < state.diskOps.length - 1 then
        .ok none
      else
        replayer.legalMicroLoop (List.range (replayer.microEnd + 1)) 0 []

def isLegal (replayer : Replayer) : Except PyError Bool := do
  match ← replayer.legalIndices with
  | none => pure false
  | some included => replayer.testSuite.testComboValidity included.toFinset

/-- The inner loop of `construct_crashed_dir`, with `to_replay` and the state
of the directory. -/
def constructDiskLoop (env : ReplayEnv) (snapshot : Snapshot) (state : MicroOpState) :
    List ℕ → List DiskOp → Option CrashState →
      Except PyError (List DiskOp × Option CrashState)
  | [], toReplay, dir => .ok (toReplay, dir)
  | j :: rest, toReplay, _ =>
      match state.diskOps[j]? with
      | none => .error .indexError
      | some disk => do
          let toReplay :=
            if !disk.omitted then toReplay ++ [disk.op] else toReplay
          let crashed ← replayDiskOps env snapshot toReplay
          constructDiskLoop env snapshot state rest toReplay (some crashed)

def constructMicroLoop (env : ReplayEnv) (replayer : Replayer) :
    List ℕ → List DiskOp → Option CrashState →
      Except PyError (Option CrashState)
  | [], _, dir => .ok dir
  | i :: rest, toReplay, dir =>
      match replayer.microOps[i]? with
      | none => .error .indexError
      | some state => do
          let (toReplay, dir) ←
            constructDiskLoop env replayer.snapshot state
              (List.range (replayer.till i state)) toReplay dir
          constructMicroLoop env replayer rest toReplay dir

/-- `construct_crashed_dir`, given what `dirname` holds before, if it
exists. -/
def constructCrashedDir (env : ReplayEnv) (replayer : Replayer) (dir : Option CrashState) :
    Except PyError (Option CrashState) :=
  constructMicroLoop env replayer (List.range (replayer.microEnd + 1)) [] dir

end Replayer

end Alice
