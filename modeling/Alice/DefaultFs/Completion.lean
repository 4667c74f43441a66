import Alice.DefaultFs.Flush
import Alice.Parser.MicroOps

/-! # Traces on which `get_deps` returns

`get_deps` raises when the scan of a `sync` meets a truncation or an entry
operation before a range sync, or a write with exactly one end in the range.
Two writes to a file opened with `O_SYNC` suffice: both ends of a range count
as inside. -/

namespace Alice

/-- No scan of a `sync` meets an operation that makes it raise. -/
def ScansPass (ops : List TracedOp) : Prop :=
  ∀ s point, syncPointAt ops s = some point →
    ∀ j < s, Exposed ops point s j →
      HoldsAt ops j (Harmless .asWritten point)

/-- On the disk operations of a list of logical operations, whatever the file
system they were expanded by, `get_deps` returns exactly when the scans
pass. -/
theorem getDeps_completes_iff
    (fs : Defaultfs) (microOps : List MicroOp) (ops : List TracedOp)
    (expanded : fs.allDiskOps microOps = .ok ops) :
    (∃ deps, (fs.allDiskOps microOps).bind (getDeps .asWritten) = .ok deps) ↔
      ScansPass ops := by
  have onOps : (fs.allDiskOps microOps).bind (getDeps .asWritten) = getDeps .asWritten ops := by
    rw [expanded]
    rfl
  rw [onOps, getDeps_returns_iff]
  constructor
  · intro passes s point pointEq j below exposed
    exact passes s point pointEq j ⟨below, exposed⟩
  · intro passes s point pointEq j scanned
    exact passes s point pointEq j scanned.1 scanned.2

/-- An empty directory as the initial snapshot. -/
def emptyScratchpad : Scratchpad where
  tree := ⟨fun ino => if ino = 2 then some (.dir ∅) else none, 2⟩
  inodes := [2]

def workloadEnv : ParserEnv where
  basePath := ["workload"]
  dirStat _ _ := (4096, 2)
  dumps _ := none
  ignoreMmap := false
  mtraceRecorded := false

/-- Two writes of one byte each to a new file that is opened with
`O_SYNC`. -/
def syncedAppends : List Line :=
  [⟨.openFile ["workload", "log"] [.oCreat, .oWronly, .oSync]
      (some "0666"), 3, 12, ""⟩,
    ⟨.write 3 1 ⟨"dump", 0⟩, 1, 0, ""⟩,
    ⟨.write 3 1 ⟨"dump", 1⟩, 1, 0, ""⟩]

def syncedAppendsMicroOps : List MicroOp :=
  [⟨.creat ["workload", "log"] (.text "0666") 12 2, .openFile⟩,
    ⟨.append ⟨12, 0, 1, "dump", 0⟩, .write⟩,
    ⟨.fileSyncRange 12 0 1, .write⟩,
    ⟨.append ⟨12, 1, 1, "dump", 1⟩, .write⟩,
    ⟨.fileSyncRange 12 1 1, .write⟩]

def wholeSplit : Defaultfs :=
  ⟨.count, 1, Nat.one_pos, .unrounded⟩

theorem getDeps_completes_iff_firstAppend :
    ∃ ops, wholeSplit.allDiskOps (syncedAppendsMicroOps.take 3) = .ok ops ∧
      ((∃ deps,
        (wholeSplit.allDiskOps (syncedAppendsMicroOps.take 3)).bind
          (getDeps .asWritten) = .ok deps) ↔ ScansPass ops) :=
  ⟨_, rfl, getDeps_completes_iff wholeSplit _ _ rfl⟩

/-- The trace is parsed, but the range of the second `sync` touches the first
write. -/
theorem syncedAppends_raise :
    getMicroOps workloadEnv (.init emptyScratchpad) syncedAppends =
        .ok syncedAppendsMicroOps ∧
      (wholeSplit.allDiskOps syncedAppendsMicroOps).bind
        (getDeps .asWritten) = .error .nameError := by
  decide

end Alice
