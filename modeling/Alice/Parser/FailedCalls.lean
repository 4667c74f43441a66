import Alice.Parser.DescriptorTables
import Alice.Parser.Processes

/-! # Failed calls

Three branches do not test the return value first: `execve` resets the
tracker, `mmap` leaves the function without a list, and `open` evaluates its
path and checks its flags. -/

namespace Alice

open Checked
open Posix (Path)

/-! ## Finding the tracker -/

namespace ParserSystem

variable (env : SystemEnv) (system : ParserSystem)

/-- The thread has a tracker, or is going to get a new one. -/
def ProcessOf (tid : ℤ) (process : TracedProcess) : Prop :=
  (system.trackersMap.lookup tid = none ∧ process = .init env tid) ∨
    ∃ number, system.trackersMap.lookup tid = some (some number) ∧
      system.processes[number]? = some process ∧
      (process.pid = tid ∨ tid ∈ process.childTids)

/-- The system in which the thread has its tracker.  Nothing else is
changed. -/
def entered (tid : ℤ) : ParserSystem :=
  match system.trackersMap.lookup tid with
  | none =>
      { system with
        processes := system.processes ++ [.init env tid]
        trackersMap := system.trackersMap.insert tid (some system.processes.length) }
  | some _ => system

variable {env system}

variable {process : TracedProcess} {number : ℕ}

theorem getProctracker_of_processOf {tid : ℤ} (found : system.ProcessOf env tid process) : ∃ number,
      system.getProctracker env tid = .ok (system.entered env tid, number, process) ∧
        (system.entered env tid).processes[number]? = some process := by
  rcases found with ⟨unknown, isInit⟩ | ⟨number, known, lookup, own⟩
  · subst isInit
    refine ⟨system.processes.length, ?_, ?_⟩
    · simp only [getProctracker, entered, unknown]
    · simp [entered, unknown]
  · refine ⟨number, ?_, ?_⟩
    · simp only [getProctracker, entered, known, lookup, if_pos own]
    · simp only [entered, known, lookup]

/-- What `get_proctracker` returns. -/
structure Tracked (env : SystemEnv) (system : ParserSystem) (tid : ℤ)
    (found : ParserSystem) (number : ℕ) (process : TracedProcess) : Prop where
  entered : found = system.entered env tid
  processOf : system.ProcessOf env tid process
  known : found.trackersMap.lookup tid = some (some number)
  lookup : found.processes[number]? = some process
  own : process.pid = tid ∨ tid ∈ process.childTids
  pad : found.pad = system.pad
  myTracker : found.myTracker = system.myTracker

theorem tracked_of_getProctracker {tid : ℤ} {found : ParserSystem}
    (ran : system.getProctracker env tid = .ok (found, number, process)) :
    Tracked env system tid found number process := by
  unfold getProctracker at ran
  split at ran
  · rename_i unknown
    cases ran
    refine ⟨?_, Or.inl ⟨unknown, rfl⟩, AList.lookup_insert _, by simp, Or.inl rfl, rfl, rfl⟩
    simp only [ParserSystem.entered, unknown]
  · cases ran
  · rename_i index known
    split at ran
    · cases ran
    · rename_i held lookup
      split_ifs at ran with own
      cases ran
      refine ⟨?_, Or.inr ⟨number, known, lookup, own⟩, known, lookup, own,
        rfl, rfl⟩
      simp only [ParserSystem.entered, known]

theorem setProcess_self (found : system.processes[number]? = some process) :
    system.setProcess number process = system := by
  rcases List.getElem?_eq_some_iff.1 found with ⟨inside, equal⟩
  rw [setProcess, ← equal, List.set_getElem_self]

theorem withState_eq_self_iff {state : ParserState}
    (found : system.processes[number]? = some process) :
    system.withState number process state = system ↔ state = system.stateOf process := by
  constructor
  · intro unchanged
    rcases List.getElem?_eq_some_iff.1 found with ⟨inside, -⟩
    have processes := congrArg ParserSystem.processes unchanged
    have same := congrArg (fun list => list[number]?) processes
    simp only [withState, List.getElem?_set_self inside, found, Option.some.injEq] at same
    rcases state with ⟨pad, tracker, myTracker, directorySymlinks⟩
    have samePad := congrArg ParserSystem.pad unchanged
    have sameAliases := congrArg ParserSystem.myTracker unchanged
    have sameLinks := congrArg ParserSystem.directorySymlinks unchanged
    have sameTracker := congrArg TracedProcess.tracker same
    subst samePad sameAliases sameLinks sameTracker
    rfl
  · intro isState
    subst isState
    exact setProcess_self found

end ParserSystem

/-! ## What a failed call must not meet -/

def SystemCall.mayFail : SystemCall → Bool
  | .plain call =>
      match call with
      | .openFile .. | .openat .. | .close .. | .link .. | .rename ..
      | .unlink .. | .lseek .. | .mkdir .. | .rmdir .. | .mmap ..
      | .munmap .. | .msync .. | .dup .. | .dup2 .. | .symlink .. => true
      | _ => false
  | .openFault _ | .chdir _ | .clone _ | .vfork | .execve | .mremap _ _ =>
      true

def FlagsAccepted (env : ParserEnv) (path : Path) (flags : List OpenFlag) : Prop :=
  env.isInteresting path = true → ParserState.Writable flags →
    OpenFlag.oAsync ∉ flags ∧ OpenFlag.oDirectory ∉ flags

/-- Nothing in the tracker is reset by `execve`. -/
structure NothingToReset (process : TracedProcess) : Prop where
  watched : process.tracker.fdtracker.cloexecFds = []
  unwatched : process.tracker.fdtrackerUnwatched.cloexecFds = []
  regions : process.tracker.memtracker.regions = []
  childTids : process.childTids = []

/-- The condition under which the call has no effect if it fails. -/
def SystemCall.HarmlessIfFailed (env : ParserEnv) (process : TracedProcess) : SystemCall → Prop
  | .plain (.openFile path flags _) | .plain (.openat path flags _) =>
      FlagsAccepted env path flags
  | .plain (.mmap ..) => False
  | .openFault _ => False
  | .execve => NothingToReset process
  | _ => True

/-! ## Each call -/

section

variable {env : ParserEnv} {state : ParserState} {line : Line}

theorem openBranch_failed_iff {path : Path} {flags : List OpenFlag} {mode : Option String}
    (failed : line.ret = -1) : state.openBranch env line path flags mode = .ok (state, []) ↔
      FlagsAccepted env path flags := by
  have noDescriptor : ¬ 0 ≤ line.ret := by omega
  unfold ParserState.openBranch FlagsAccepted
  by_cases interesting : env.isInteresting path = true
  · simp only [interesting, if_true, noDescriptor, false_and, if_false, true_imp_iff]
    rw [bind_eq_ok_iff]
    constructor
    · intro passed
      rcases passed with ⟨⟨⟩, checked, -⟩
      exact assertThat_eq_ok_iff.1 checked
    · intro accepted
      exact ⟨(), assertThat_eq_ok_iff.2 accepted, rfl⟩
  · simp [interesting, noDescriptor]

/-- The other branches test the return value. -/
theorem emit_failed (failed : line.ret = -1)
    (mayFail : (SystemCall.plain line.call).mayFail = true)
    (notOpen : ∀ path flags mode, line.call ≠ .openFile path flags mode ∧
      line.call ≠ .openat path flags mode)
    (notMmap : ∀ addr length flags fd offset, line.call ≠ .mmap addr length flags fd offset) :
    emit env state line = .ok (state, []) := by
  unfold emit
  cases call : line.call with
  | openFile path flags mode => exact absurd call (notOpen path flags mode).1
  | openat path flags mode => exact absurd call (notOpen path flags mode).2
  | mmap addr length flags fd offset => exact absurd call (notMmap addr length flags fd offset)
  | close | link | rename | unlink | lseek | mkdir | rmdir | munmap | msync
  | dup | dup2 | symlink =>
    simp [ParserState.closeBranch, ParserState.linkBranch, ParserState.renameBranch,
      ParserState.unlinkBranch, ParserState.lseekBranch, ParserState.mkdirBranch,
      ParserState.rmdirBranch, ParserState.munmapBranch, ParserState.msyncBranch,
      ParserState.dupBranch, ParserState.symlinkBranch, failed]
  | _ =>
    rw [call] at mayFail
    cases mayFail

theorem emit_failed_iff
    {process : TracedProcess} (failed : line.ret = -1)
    (mayFail : (SystemCall.plain line.call).mayFail = true) :
    emit env state line = .ok (state, []) ↔
      (SystemCall.plain line.call).HarmlessIfFailed env process := by
  cases call : line.call with
  | openFile path flags mode | openat path flags mode =>
    simp only [emit, call]
    exact openBranch_failed_iff failed
  | mmap addr length flags fd offset =>
    simp [emit, call, ParserState.mmapBranch, failed, SystemCall.HarmlessIfFailed]
  | _ =>
    have unchanged : emit env state line = .ok (state, []) := by
      apply emit_failed failed mayFail
      · simp [call]
      · simp [call]
    simp [unchanged, SystemCall.HarmlessIfFailed]

end

theorem lookup_foldl_erase (list : List ℤ) (fds : AList fun _ : ℤ => ℕ) (fd : ℤ) :
    (list.foldl (fun fds fd => fds.erase fd) fds).lookup fd =
      if fd ∈ list then none else fds.lookup fd := by
  induction list generalizing fds with
  | nil => simp
  | cons first rest ih =>
    rw [List.foldl_cons, ih]
    by_cases same : fd = first
    · subst same
      simp
    · simp [same, AList.lookup_erase_ne same]

theorem closeOnExec_eq_self_iff (tracker : FileDescriptorTracker) :
    tracker.closeOnExec = tracker ↔ tracker.cloexecFds = [] := by
  constructor
  · intro equal
    apply List.eq_nil_iff_forall_not_mem.2
    intro fd member
    have key : fd ∈ tracker.fds := by
      have inKeys := (List.mem_filter.1 member).1
      exact AList.mem_keys.1 inKeys
    have removed := lookup_foldl_erase tracker.cloexecFds tracker.fds fd
    rw [if_pos member] at removed
    have same : tracker.closeOnExec.fds.lookup fd = none := removed
    rw [equal, AList.lookup_eq_none] at same
    exact same key
  · intro empty
    rw [FileDescriptorTracker.closeOnExec, empty]
    rfl

section

variable {number : ℕ} {process : TracedProcess} {system : ParserSystem}
  (found : system.processes[number]? = some process)
include found

/-- `execve` without anything to reset, and only then, leaves the system as it
is. -/
theorem recordExecve_eq_self_iff :
    system.recordExecve number process = system ↔
      NothingToReset process := by
  rcases List.getElem?_eq_some_iff.1 found with ⟨inside, equal⟩
  constructor
  · intro unchanged
    have processes := congrArg ParserSystem.processes unchanged
    have same := congrArg (fun list => list[number]?) processes
    simp only [ParserSystem.recordExecve, List.getElem?_set_self inside,
      found, Option.some.injEq] at same
    have tracker := congrArg TracedProcess.tracker same
    refine ⟨?_, ?_, ?_, ?_⟩
    · apply (closeOnExec_eq_self_iff _).1
      exact congrArg ProcessTracker.fdtracker tracker
    · apply (closeOnExec_eq_self_iff _).1
      exact congrArg ProcessTracker.fdtrackerUnwatched tracker
    · have memtracker := congrArg ProcessTracker.memtracker tracker
      exact (congrArg MemregionTracker.regions memtracker).symm
    · exact (congrArg TracedProcess.childTids same).symm
  · intro nothing
    rcases process with ⟨pid, ⟨⟨regions⟩, fds, std, unwatchedFds⟩, cwd, tids⟩
    have watched := (closeOnExec_eq_self_iff _).2 nothing.watched
    have unwatched := (closeOnExec_eq_self_iff _).2 nothing.unwatched
    have noRegions := nothing.regions
    have noTids := nothing.childTids
    subst noRegions noTids
    simp only [ParserSystem.recordExecve, watched, unwatched, List.foldl_nil]
    exact ParserSystem.setProcess_self found

theorem translateCall_failed_iff {env : SystemEnv} {row : TraceRow} (failed : row.ret = -1)
    (mayFail : row.call.mayFail = true) :
    system.translateCall env row number process = .ok (system, []) ↔
      row.call.HarmlessIfFailed (env.forThread row.tid) process := by
  unfold ParserSystem.translateCall
  cases call : row.call with
  | plain call' =>
    rw [call] at mayFail
    have spec := @emit_failed_iff (env.forThread row.tid)
      (system.stateOf process) ⟨call', row.ret, row.fresh, row.uuid⟩ process failed mayFail
    rw [← spec, map_eq_ok_iff]
    constructor
    · intro returned
      rcases returned with ⟨⟨state, ops⟩, ran, equal⟩
      rcases Prod.mk.inj equal with ⟨unchanged, noOps⟩
      have sameState := (ParserSystem.withState_eq_self_iff found).1 unchanged
      simp only at sameState noOps
      rw [ran, sameState, noOps]
    · intro ran
      refine ⟨_, ran, ?_⟩
      rw [(ParserSystem.withState_eq_self_iff found).2 rfl]
  | openFault address => simp [SystemCall.HarmlessIfFailed]
  | chdir path => simp [ParserSystem.chdirBranch, failed, SystemCall.HarmlessIfFailed]
  | clone flags =>
    simp [ParserSystem.cloneBranch, failed, SystemCall.HarmlessIfFailed,
      Except.map, pure, Except.pure]
  | vfork => simp [ParserSystem.vforkBranch, failed, SystemCall.HarmlessIfFailed, Except.map]
  | execve =>
    simp only [Except.ok.injEq, Prod.mk.injEq, and_true]
    exact recordExecve_eq_self_iff found
  | mremap addr length =>
    simp [ParserSystem.mremapBranch, failed, SystemCall.HarmlessIfFailed,
      Except.map, pure, Except.pure]

end

/-! ## All of them -/

def workloadSystemEnv : SystemEnv :=
  ⟨workloadEnv, [], ["workload"]⟩

/-- A file is opened with `O_CLOEXEC`, and a program is not found. -/
def failedExecve : List TraceRow :=
  [⟨100, .plain (.openFile ["workload", "log"]
      [.oCreat, .oWronly, .oCloexec] (some "0666")), 3, 12, ""⟩,
    ⟨100, .execve, -1, 0, ""⟩]

end Alice
