import Alice.Parser.MicroOps

/-! # Processes of a trace

A thread that is met for the first time gets a tracker of its own, a clone
with `CLONE_VM` shares that of its parent, and a fork gets a copy of it.  The
scratchpad and the two global tables are common to all processes.

Paths are given as `original_path` returns them; an `open` whose path could
not be read is given with the address printed in its place. -/

namespace Alice

open Posix (Ino Path)

/-! ## Rows -/

/-- The flags of `clone` that are looked at. -/
structure CloneFlags where
  vm : Bool
  files : Bool
  fs : Bool
  deriving DecidableEq, Repr

inductive SystemCall where
  | plain (call : Call)
  /-- `open` or `openat`; the address is `NULL` if it is not given. -/
  | openFault (address : Option ℕ)
  | chdir (path : Path)
  | clone (flags : CloneFlags)
  | vfork
  | execve
  | mremap (addr length : ℕ)
  deriving DecidableEq, Repr

structure TraceRow where
  tid : ℤ
  call : SystemCall
  ret : ℤ
  fresh : Ino
  uuid : String
  deriving DecidableEq, Repr

/-! ## State -/

/-- The attributes of a `ProcessTracker`. -/
structure TracedProcess where
  pid : ℤ
  tracker : ProcessTracker
  cwd : Path
  childTids : List ℤ

/-- `host` is the configuration without `mtrace_recorded`. -/
structure SystemEnv where
  host : ParserEnv
  mtraceRecorded : List ℤ
  startingCwd : Path

/-- The configuration for the calls of one thread. -/
def SystemEnv.forThread (env : SystemEnv) (tid : ℤ) : ParserEnv :=
  { env.host with mtraceRecorded := decide (tid ∈ env.mtraceRecorded) }

def TracedProcess.init (env : SystemEnv) (pid : ℤ) : TracedProcess :=
  ⟨pid, .init, env.startingCwd, []⟩

/-- All trackers, in the order in which they are made, and `trackers_map`, in
which a thread has the number of a tracker or `None`. -/
structure ParserSystem where
  pad : Scratchpad
  myTracker : List (ℤ × ℤ)
  directorySymlinks : List Ino
  processes : List TracedProcess
  trackersMap : AList fun _ : ℤ => Option ℕ

def ParserSystem.init (pad : Scratchpad) : ParserSystem :=
  ⟨pad, [], [], [], ∅⟩

namespace FileDescriptorTracker

/-- `get_fds_attribs('O_CLOEXEC')`. -/
def cloexecFds (tracker : FileDescriptorTracker) : List ℤ :=
  tracker.fdsWhere fun details => decide (FdAttrib.oCloexec ∈ details.attribs)

/-- The loop of `record_execve` over a table.  The descriptors are keys of the
table, so that `remove_fd_mapping` finds them. -/
def closeOnExec (tracker : FileDescriptorTracker) : FileDescriptorTracker :=
  { tracker with
    fds := tracker.cloexecFds.foldl (fun fds fd => fds.erase fd) tracker.fds }

end FileDescriptorTracker

namespace ParserSystem

variable (env : SystemEnv) (system : ParserSystem)

/-- `get_proctracker`, with the number of the tracker. -/
def getProctracker (tid : ℤ) : Except PyError (ParserSystem × ℕ × TracedProcess) :=
  match system.trackersMap.lookup tid with
  | none =>
      .ok ({ system with
          processes := system.processes ++ [.init env tid]
          trackersMap := system.trackersMap.insert tid (some system.processes.length) },
        system.processes.length, .init env tid)
  | some none => .error .attributeError
  | some (some number) =>
      match system.processes[number]? with
      | none => .error .assertionError
      | some process =>
          if process.pid = tid ∨ tid ∈ process.childTids then
            .ok (system, number, process)
          else
            .error .assertionError

def setProcess (number : ℕ) (process : TracedProcess) : ParserSystem :=
  { system with processes := system.processes.set number process }

/-- What the branches of one process work on. -/
def stateOf (process : TracedProcess) : ParserState :=
  ⟨system.pad, process.tracker, system.myTracker, system.directorySymlinks⟩

def withState (number : ℕ) (process : TracedProcess) (state : ParserState) : ParserSystem where
  pad := state.pad
  myTracker := state.myTracker
  directorySymlinks := state.directorySymlinks
  processes := system.processes.set number { process with tracker := state.tracker }
  trackersMap := system.trackersMap

def recordFork (process : TracedProcess) (forkedTid : ℤ) : Except PyError ParserSystem := do
  assertThat (forkedTid ∉ system.trackersMap)
  pure { system with
    processes := system.processes ++ [{ process with pid := forkedTid, childTids := [] }]
    trackersMap := system.trackersMap.insert forkedTid (some system.processes.length) }

def recordClone (number : ℕ) (process : TracedProcess) (clonedTid : ℤ) :
    Except PyError ParserSystem := do
  assertThat (clonedTid ∉ system.trackersMap)
  pure { system with
    processes := system.processes.set number
      { process with childTids := process.childTids ++ [clonedTid] }
    trackersMap := system.trackersMap.insert clonedTid (some number) }

def recordExecve (number : ℕ) (process : TracedProcess) : ParserSystem :=
  { system with
    processes := system.processes.set number
      { process with
        tracker :=
          { process.tracker with
            memtracker := ⟨[]⟩
            fdtracker := process.tracker.fdtracker.closeOnExec
            fdtrackerUnwatched := process.tracker.fdtrackerUnwatched.closeOnExec }
        childTids := [] }
    trackersMap := process.childTids.foldl
      (fun trackersMap tid => trackersMap.insert tid none)
      system.trackersMap }

/-! ## Branches -/

def cloneBranch (number : ℕ) (process : TracedProcess) (newTid : ℤ)
    (flags : CloneFlags) : Except PyError ParserSystem := do
  if newTid ≠ -1 then
    if flags.vm then
      assertThat (flags.files = true)
      assertThat (flags.fs = true)
      system.recordClone number process newTid
    else
      assertThat (flags.files = false)
      assertThat (flags.fs = false)
      system.recordFork process newTid
  else
    pure system

def vforkBranch (process : TracedProcess) (newPid : ℤ) : Except PyError ParserSystem :=
  if newPid ≠ -1 then system.recordFork process newPid else .ok system

def chdirBranch (number : ℕ) (process : TracedProcess) (ret : ℤ) (path : Path) : ParserSystem :=
  if ret = 0 then
    system.setProcess number { process with cwd := path }
  else
    system

def mremapBranch (process : TracedProcess) (ret : ℤ) (addr length : ℕ) :
    Except PyError ParserSystem := do
  if ret ≠ -1 then
    let regions ← process.tracker.memtracker.resolveRange addr (addr + length - 1)
    assertThat (regions = [])
    pure system
  else
    pure system

/-- An expression that is no string is given to `original_path`. -/
def openFaultError : Option ℕ → PyError
  | none => .nameError
  | some _ => .attributeError

/-- `__get_micro_op`, after `get_proctracker`. -/
def translateCall (row : TraceRow) (number : ℕ) (process : TracedProcess) :
    Except PyError (ParserSystem × List MicroOpKind) :=
  match row.call with
  | .plain call =>
      (emit (env.forThread row.tid) (system.stateOf process)
        ⟨call, row.ret, row.fresh, row.uuid⟩).map fun emitted =>
          (system.withState number process emitted.1, emitted.2)
  | .openFault address => .error (openFaultError address)
  | .chdir path =>
      .ok (system.chdirBranch number process row.ret path, [])
  | .clone flags =>
      (system.cloneBranch number process row.ret flags).map fun after =>
        (after, [])
  | .vfork =>
      (system.vforkBranch process row.ret).map fun after => (after, [])
  | .execve => .ok (system.recordExecve number process, [])
  | .mremap addr length =>
      (system.mremapBranch process row.ret addr length).map fun after =>
        (after, [])

/-- `__get_micro_op`, without the attributes that tell where an operation
comes from. -/
def translate (row : TraceRow) : Except PyError (ParserSystem × List MicroOpKind) :=
  system.getProctracker env row.tid >>= fun found =>
    found.1.translateCall env row found.2.1 found.2.2

def translateAll (env : SystemEnv) :
    ParserSystem → List TraceRow →
      Except PyError (ParserSystem × List MicroOpKind)
  | system, [] => .ok (system, [])
  | system, row :: rest => do
      let (system, here) ← system.translate env row
      let (system, later) ← translateAll env system rest
      pure (system, here ++ later)

end ParserSystem

end Alice
