import Alice.Parser.Duplication

/-! # What is recorded of the terminal

A write is recorded if its descriptor was ever returned by `F_DUPFD` of
descriptor `1`, with as many bytes as `args[2]` says, which for the calls on
vectors is the number of buffers.  Nothing is said about the calls on files,
except that the parser gets through them. -/

namespace Alice

open Checked ParserState
open Posix (Path Bytes Descriptors DescriptorCall)

/-! ## The record -/

def MicroOpKind.stdoutData : MicroOpKind → Bytes
  | .stdout data => data
  | _ => []

def printed (ops : List MicroOpKind) : Bytes :=
  ops.flatMap MicroOpKind.stdoutData

theorem printed_nil : printed [] = [] :=
  rfl

theorem printed_append (front back : List MicroOpKind) :
    printed (front ++ back) = printed front ++ printed back :=
  List.flatMap_append

/-! ## The terminal -/

/-- What a descriptor refers to. -/
inductive Description where
  | terminal
  | other
  deriving DecidableEq, Repr

/-- The descriptors that a process inherits: descriptor `1` refers to the
terminal, whatever there is beside it. -/
def terminalTable (inherited : Descriptors Description) : Descriptors Description :=
  Function.update inherited 1 (some .terminal)

/-- The bytes that the tracer has dumped for a write. -/
def WriteArgs.dumped (env : ParserEnv) (args : WriteArgs) : Bytes :=
  (((env.dumps args.dump.file).getD []).drop args.dump.offset).take args.count

namespace Line

def terminalCall (line : Line) : DescriptorCall Description :=
  line.descriptorCall (some .other)

/-- The bytes that the line writes to the terminal. -/
def terminalBytes (env : ParserEnv) (table : Descriptors Description) (line : Line) : Bytes :=
  match line.call.writeArgs? with
  | some args =>
      if table args.fd = some .terminal then args.dumped env else []
  | none => []

def Dumped (env : ParserEnv) (line : Line) : Prop :=
  ∀ args, line.call.writeArgs? = some args →
    ∃ content, env.dumps args.dump.file = some content ∧
      args.dump.offset + args.count ≤ content.length

/-- A line that is about a file: every call but those that close and duplicate
descriptors, and the writes to descriptors that are not watched. -/
def AboutFile (state : ParserState) (line : Line) : Prop :=
  match line.call with
  | .close _ | .dup _ | .dup2 _ | .fcntlDupfd _ => False
  | .write fd _ _ | .writev fd _ _ _ | .pwrite fd _ _ _
  | .pwritev fd _ _ _ _ => state.tracker.fdtracker.isWatched fd = true
  | _ => True

end Line

def terminalOutput (env : ParserEnv) : Descriptors Description → List Line → Bytes
  | _, [] => []
  | table, line :: rest =>
      line.terminalBytes env table ++ terminalOutput env (line.terminalCall.apply table) rest

def PossibleCalls : Descriptors Description → List Line → Prop
  | _, [] => True
  | table, line :: rest =>
      line.terminalCall.Allowed table ∧ PossibleCalls (line.terminalCall.apply table) rest

/-- The parser gets through the calls on files. -/
def FilesPass (env : ParserEnv) : ParserState → List Line → Prop
  | _, [] => True
  | state, line :: rest =>
      (line.AboutFile state → ∃ after ops, emit env state line = .ok (after, ops)) ∧
        match emit env state line with
        | .ok (after, _) => FilesPass env after rest
        | .error _ => True

/-- The operations of the trace hold what it writes to the terminal. -/
def RecordsTerminal (env : ParserEnv) (state : ParserState)
    (table : Descriptors Description) (lines : List Line) : Prop :=
  ∃ ops, getMicroOps env state lines = .ok ops ∧
    printed (ops.map MicroOp.kind) = terminalOutput env table lines

/-- What the parser needs of a line.  The numbers that `F_DUPFD` of descriptor
`1` has returned are those of the terminal, at every write that is not empty,
and a call on a vector has as many buffers as bytes, if it is recorded. -/
def Line.TerminalFits (env : ParserEnv) (state : ParserState) (aliases : List ℤ)
    (table : Descriptors Description) (line : Line) : Prop :=
  match line.call with
  | .write fd count _ | .pwrite fd count _ _ =>
      count = 0 ∨ (table fd = some .terminal ↔ fd ∈ aliases)
  | .writev fd iovcnt count dump | .pwritev fd iovcnt _ count dump =>
      if fd ∈ aliases then
        min iovcnt (((env.dumps dump.file).getD []).length - dump.offset) =
          if table fd = some .terminal then count else 0
      else
        table fd = some .terminal → count = 0
  | .fcntlDupfd fd => state.DupfdFits line fd
  | _ => True

/-- Every line fits, in the state in which it is met. -/
def TerminalFitsTrace (env : ParserEnv) :
    ParserState → List ℤ → Descriptors Description → List Line → Prop
  | _, _, _, [] => True
  | state, aliases, table, line :: rest =>
      line.TerminalFits env state aliases table ∧
        match emit env state line with
        | .ok (after, _) =>
            TerminalFitsTrace env after
              (line.stdoutAlias?.toList ++ aliases)
              (line.terminalCall.apply table) rest
        | .error _ => True

/-! ## Calls that leave the descriptors alone -/

namespace ParserState

variable
  {env : ParserEnv} {state after : ParserState} {line : Line}
  {ops : List MicroOpKind}

/-- The descriptors are left alone, and nothing is recorded. -/
structure Silent (state after : ParserState) (ops : List MicroOpKind) : Prop where
  table : after.tracker.fdtracker.table = state.tracker.fdtracker.table
  outside : after.outsideTable = state.outsideTable
  terminal : SameTerminal state after
  silent : printed ops = []

/-- The watched descriptors keep their positions too. -/
structure Spared (state after : ParserState) (ops : List MicroOpKind) : Prop
    extends Silent state after ops where
  fds : after.tracker.fdtracker = state.tracker.fdtracker

theorem Spared.of_tracker
    (same : after.tracker = state.tracker ∧ after.myTracker = state.myTracker)
    (silent : printed ops = []) : Spared state after ops := by
  obtain ⟨tracker, myTracker⟩ := same
  refine ⟨⟨by rw [tracker], ?_, ⟨myTracker, by rw [tracker]⟩, silent⟩, by rw [tracker]⟩
  unfold outsideTable
  rw [tracker]

theorem spared_refl (state : ParserState) : Spared state state [] :=
  .of_tracker ⟨rfl, rfl⟩ rfl

variable {path dest source name : Path} {fd : ℤ} {args : WriteArgs}

theorem tracker_moveAway {uuid : String} (ran : state.moveAway env path uuid = .ok after) :
    after.tracker = state.tracker ∧ after.myTracker = state.myTracker := by
  obtain ⟨pad, -, result⟩ := map_eq_ok_iff.1 ran
  rw [← result]
  exact ⟨rfl, rfl⟩

theorem tracker_replayedTruncate {newSize : ℕ}
    (ran : state.replayedTruncate env path newSize = .ok after) :
    after.tracker = state.tracker ∧ after.myTracker = state.myTracker := by
  obtain ⟨pad, -, result⟩ := map_eq_ok_iff.1 ran
  rw [← result]
  exact ⟨rfl, rfl⟩

theorem tracker_clearDest (ran : state.clearDest env line dest = .ok after) :
    after.tracker = state.tracker ∧ after.myTracker = state.myTracker := by
  unfold clearDest at ran
  split at ran
  · split_ifs at ran
    · obtain ⟨-, -, ran⟩ := bind_eq_ok_iff.1 ran
      obtain ⟨-, -, ran⟩ := bind_eq_ok_iff.1 ran
      exact tracker_moveAway ran
    · cases ran
      exact ⟨rfl, rfl⟩
  · cases ran
    exact ⟨rfl, rfl⟩

theorem linkBranch_spared (ran : state.linkBranch env line source dest = .ok (after, ops)) :
    Spared state after ops := by
  unfold linkBranch at ran
  split_ifs at ran
  · cases ran
    exact spared_refl state
  · obtain ⟨-, -, ran⟩ := bind_eq_ok_iff.1 ran
    obtain ⟨-, -, ran⟩ := bind_eq_ok_iff.1 ran
    obtain ⟨-, -, ran⟩ := bind_eq_ok_iff.1 ran
    obtain ⟨stat, -, ran⟩ := bind_eq_ok_iff.1 ran
    obtain ⟨parent, -, ran⟩ := bind_eq_ok_iff.1 ran
    obtain ⟨destParent, -, ran⟩ := bind_eq_ok_iff.1 ran
    obtain ⟨pad, -, ran⟩ := bind_eq_ok_iff.1 ran
    cases ran
    exact .of_tracker ⟨rfl, rfl⟩ rfl
  · obtain ⟨-, -, ran⟩ := bind_eq_ok_iff.1 ran
    cases ran
    exact spared_refl state

theorem renameBranch_spared (ran : state.renameBranch env line source dest = .ok (after, ops)) :
    Spared state after ops := by
  rcases renameBranch_cases ran with
    ⟨same, nothing⟩ | ⟨-, -, cleared, pad, info, clearing, -, result, isOp⟩
  · rw [same, nothing]
    exact spared_refl state
  · have same := tracker_clearDest clearing
    rw [result, isOp]
    exact .of_tracker ⟨same.1, same.2⟩ rfl

theorem unlinkBranch_spared (ran : state.unlinkBranch env line name = .ok (after, ops)) :
    Spared state after ops := by
  unfold unlinkBranch at ran
  split_ifs at ran
  · cases ran
    exact spared_refl state
  · obtain ⟨-, -, ran⟩ := bind_eq_ok_iff.1 ran
    obtain ⟨stat, -, ran⟩ := bind_eq_ok_iff.1 ran
    obtain ⟨parent, -, ran⟩ := bind_eq_ok_iff.1 ran
    split_ifs at ran
    · obtain ⟨-, -, ran⟩ := bind_eq_ok_iff.1 ran
      obtain ⟨moved, moving, ran⟩ := bind_eq_ok_iff.1 ran
      cases ran
      exact .of_tracker (tracker_moveAway moving) rfl
    · obtain ⟨pad, -, ran⟩ := bind_eq_ok_iff.1 ran
      cases ran
      exact .of_tracker ⟨rfl, rfl⟩ rfl
    · obtain ⟨moved, moving, ran⟩ := bind_eq_ok_iff.1 ran
      cases ran
      exact .of_tracker (tracker_moveAway moving) rfl
  · cases ran
    exact spared_refl state

theorem Spared.of_truncates {size : ℕ} (truncates : Truncates env size state after ops) :
    Spared state after ops := by
  rcases truncates with ⟨rfl, rfl⟩ | ⟨path, inode, initSize, truncation, rfl⟩
  · exact spared_refl after
  · exact .of_tracker (tracker_replayedTruncate truncation) rfl

theorem mkdirBranch_spared {mode : String}
    (ran : state.mkdirBranch env line name mode = .ok (after, ops)) :
    Spared state after ops := by
  unfold mkdirBranch at ran
  by_cases made : line.ret ≠ -1 ∧ env.isInteresting name = true
  · rw [if_pos made] at ran
    obtain ⟨-, -, ran⟩ := bind_eq_ok_iff.1 ran
    obtain ⟨pad, -, ran⟩ := bind_eq_ok_iff.1 ran
    obtain ⟨stat, -, ran⟩ := bind_eq_ok_iff.1 ran
    obtain ⟨parent, -, ran⟩ := bind_eq_ok_iff.1 ran
    cases ran
    exact .of_tracker ⟨rfl, rfl⟩ rfl
  · rw [if_neg made] at ran
    cases ran
    exact spared_refl state

theorem rmdirBranch_spared (ran : state.rmdirBranch env line name = .ok (after, ops)) :
    Spared state after ops := by
  unfold rmdirBranch at ran
  split_ifs at ran
  · obtain ⟨stat, -, ran⟩ := bind_eq_ok_iff.1 ran
    obtain ⟨parent, -, ran⟩ := bind_eq_ok_iff.1 ran
    obtain ⟨moved, moving, ran⟩ := bind_eq_ok_iff.1 ran
    cases ran
    exact .of_tracker (tracker_moveAway moving) rfl
  · cases ran
    exact spared_refl state

theorem symlinkBranch_spared (ran : state.symlinkBranch env line source dest = .ok (after, ops)) :
    Spared state after ops := by
  simp only [symlinkBranch] at ran
  split_ifs at ran
  · obtain ⟨pad, -, ran⟩ := bind_eq_ok_iff.1 ran
    obtain ⟨stat, -, ran⟩ := bind_eq_ok_iff.1 ran
    obtain ⟨parent, -, ran⟩ := bind_eq_ok_iff.1 ran
    cases ran
    exact .of_tracker ⟨rfl, rfl⟩ rfl
  · obtain ⟨pad, -, ran⟩ := bind_eq_ok_iff.1 ran
    obtain ⟨stat, -, ran⟩ := bind_eq_ok_iff.1 ran
    obtain ⟨parent, -, ran⟩ := bind_eq_ok_iff.1 ran
    cases ran
    exact .of_tracker ⟨rfl, rfl⟩ rfl
  · cases ran
    exact spared_refl state

theorem silent_of_data (data : ∀ op ∈ ops, ∃ inode, op.OnData inode) : printed ops = [] := by
  rw [printed, List.flatMap_eq_nil_iff]
  intro op member
  obtain ⟨inode, onData⟩ := data op member
  cases op with
  | stdout => cases onData
  | _ => rfl

theorem Spared.of_aside (aside : Aside state after ops) : Spared state after ops := by
  obtain ⟨memtracker, isAfter⟩ := aside.regions
  subst isAfter
  refine ⟨⟨rfl, rfl, ⟨rfl, rfl⟩, List.flatMap_eq_nil_iff.2 fun op member => ?_⟩, rfl⟩
  cases op with
  | stdout data => exact absurd rfl ((aside.plain _ member).2 data)
  | _ => rfl

theorem lseekBranch_silent (ran : state.lseekBranch line fd = .ok (after, ops)) :
    Silent state after ops := by
  have moved := lseekBranch_spec ran
  unfold lseekBranch at ran
  split_ifs at ran
  · obtain ⟨fds, -, ran⟩ := bind_eq_ok_iff.1 ran
    cases ran
    exact ⟨moved.table, rfl, moved.terminal, rfl⟩
  · cases ran
    exact (spared_refl state).toSilent

theorem outsideTable_movePos {position : Option ℕ} {pos : ℕ}
    (ran : state.movePos fd position pos = .ok after) :
    after.outsideTable = state.outsideTable := by
  cases position with
  | some _ =>
    cases ran
    rfl
  | none =>
    obtain ⟨fds, -, result⟩ := map_eq_ok_iff.1 ran
    subst result
    rfl

/-- Every call that neither moves a position nor changes the descriptors. -/
theorem spared_of_emit (offTable : line.call.onTable = false)
    (notWrite : line.call.writeArgs? = none) (notSeek : ∀ fd, line.call ≠ .lseek fd)
    (ran : emit env state line = .ok (after, ops)) :
    Spared state after ops := by
  unfold emit at ran
  cases call : line.call <;> rw [call] at ran offTable notWrite
  case link => exact linkBranch_spared ran
  case rename => exact renameBranch_spared ran
  case unlink => exact unlinkBranch_spared ran
  case truncate => exact .of_truncates (truncateBranch_truncates ran)
  case ftruncate => exact .of_truncates (ftruncateBranch_truncates ran)
  case fallocate => exact .of_aside (fallocateBranch_aside ran)
  case fsync => exact .of_aside (fsyncBranch_aside (by simp [MicroOpKind.created?]) ran)
  case fdatasync => exact .of_aside (fsyncBranch_aside (by simp [MicroOpKind.created?]) ran)
  case sync => exact .of_aside (syncBranch_aside ran)
  case mkdir => exact mkdirBranch_spared ran
  case rmdir => exact rmdirBranch_spared ran
  case mmap => exact .of_aside (mmapBranch_aside ran)
  case munmap => exact .of_aside (munmapBranch_aside ran)
  case msync => exact .of_aside (msyncBranch_aside ran)
  case mwrite => exact .of_aside (mwriteBranch_aside ran)
  case symlink => exact symlinkBranch_spared ran
  case lseek => exact absurd call (notSeek _)
  case write | writev | pwrite | pwritev => cases notWrite
  all_goals cases offTable

theorem silent_of_emit (offTable : line.call.onTable = false)
    (notWrite : line.call.writeArgs? = none) (ran : emit env state line = .ok (after, ops)) :
    Silent state after ops := by
  by_cases isSeek : ∃ fd, line.call = .lseek fd
  · obtain ⟨fd, call⟩ := isSeek
    rw [emit, call] at ran
    exact lseekBranch_silent ran
  · exact (spared_of_emit offTable notWrite (fun fd call => isSeek ⟨fd, call⟩) ran).toSilent

/-! ## Writes -/

/-- A write is recorded exactly if its descriptor is an alias. -/
theorem printed_of_write (isWrite : line.call.writeArgs? = some args)
    (ran : emit env state line = .ok (after, ops)) : printed ops =
      if (args.fd, 1) ∈ state.myTracker then
        (((env.dumps args.dump.file).getD []).drop args.dump.offset).take args.thirdArg
      else
        [] := by
  by_cases aliased : (args.fd, 1) ∈ state.myTracker
  · rw [if_pos aliased]
    rw [emit_of_writeArgs isWrite, writeBranch_of_alias aliased] at ran
    obtain ⟨data, read, result⟩ := map_eq_ok_iff.1 ran
    cases result
    unfold readDump at read
    cases held : env.dumps args.dump.file with
    | none =>
      rw [held] at read
      cases read
    | some content =>
      rw [held] at read
      cases read
      exact List.append_nil _
  · rw [if_neg aliased]
    rcases emit_write_cases isWrite ran with
      ⟨isAlias, -⟩ | ⟨-, -, nothing⟩ | ⟨details, stat, -, -, written⟩
    · exact absurd isAlias aliased
    · rw [nothing, printed_nil]
    · rw [written.ops_eq]
      apply silent_of_data
      intro op member
      exact ⟨details.inode, onData_of_mem_splitOps member⟩

/-- The data of a write is there, so that it is translated unless it is about
a file. -/
theorem exists_write (isWrite : line.call.writeArgs? = some args) {content : Bytes}
    (dumped : env.dumps args.dump.file = some content)
    (notFile : state.tracker.fdtracker.isWatched args.fd = false) :
    ∃ after ops, emit env state line = .ok (after, ops) := by
  rw [emit_of_writeArgs isWrite]
  by_cases aliased : (args.fd, 1) ∈ state.myTracker
  · rw [writeBranch_of_alias aliased, readDump, dumped]
    exact ⟨_, _, rfl⟩
  · rw [writeBranch_of_unwatched aliased notFile]
    exact ⟨_, _, rfl⟩

theorem write_tables (isWrite : line.call.writeArgs? = some args)
    (ran : emit env state line = .ok (after, ops)) :
    after.tracker.fdtracker.table = state.tracker.fdtracker.table ∧
      after.outsideTable = state.outsideTable ∧
        SameTerminal state after := by
  rcases emit_write_spec isWrite ran with
    ⟨-, same⟩ | ⟨details, stat, -, -, written, moved⟩
  · rw [same]
    exact ⟨rfl, rfl, rfl, rfl⟩
  · obtain ⟨grown, growth, movement⟩ := written.moves
    refine ⟨moved.table, ?_, moved.terminal⟩
    rw [outsideTable_movePos movement, outsideTable, growFile_tracker growth]
    rfl

/-! ## Opening and duplicating -/

theorem openBranch_silent {flags : List OpenFlag} {mode : Option String}
    (ran : state.openBranch env line path flags mode = .ok (after, ops)) : printed ops = [] := by
  by_cases watched : env.isInteresting path = true ∧ 0 ≤ line.ret ∧ OpenFlag.oDirectory ∉ flags
  · obtain ⟨_, createOps, _, _, truncOps, _, _, creation, -, truncation, -, -, isAfter⟩ :=
      steps_of_openBranch watched.1 watched.2 ran
    cases isAfter
    have front : printed createOps = [] := by
      rcases openCreate_cases creation with
        ⟨-, -, nothing⟩ | ⟨-, pad, mode, stat, parent, -, -, -, isOp⟩
      · rw [nothing, printed_nil]
      · rw [isOp]
        rfl
    have back : printed truncOps = [] := by
      rcases openTrunc_cases truncation with ⟨-, nothing⟩ | ⟨size, -, isOp⟩
      · rw [nothing, printed_nil]
      · rw [isOp]
        rfl
    rw [printed_append, front, back]
    rfl
  · rw [openBranch] at ran
    grind [bind_eq_ok_iff, pure_eq_ok_iff, printed_nil]

theorem printed_of_onTable (onTable : line.call.onTable = true)
    (ran : emit env state line = .ok (after, ops)) : printed ops = [] := by
  unfold emit at ran
  cases call : line.call with
  | openFile path flags mode | openat path flags mode =>
    rw [call] at ran
    exact openBranch_silent ran
  | close fd =>
    simp only [closeBranch] at ran
    grind [bind_eq_ok_iff, pure_eq_ok_iff, printed_nil]
  | dup old | dup2 old =>
    simp only [dupBranch] at ran
    grind [bind_eq_ok_iff, pure_eq_ok_iff, printed_nil]
  | fcntlDupfd fd =>
    simp only [fcntlDupfdBranch] at ran
    grind [bind_eq_ok_iff, pure_eq_ok_iff, printed_nil]
  | _ =>
    rw [call] at onTable
    cases onTable

theorem printed_of_other (notWrite : line.call.writeArgs? = none)
    (ran : emit env state line = .ok (after, ops)) : printed ops = [] := by
  cases onTable : line.call.onTable with
  | true => exact printed_of_onTable onTable ran
  | false => exact (silent_of_emit onTable notWrite ran).silent

end ParserState

/-! ## One line -/

variable {line : Line}

theorem Line.aboutFile_of_write {state : ParserState} {args : WriteArgs}
    (isWrite : line.call.writeArgs? = some args) : line.AboutFile state ↔
      state.tracker.fdtracker.isWatched args.fd = true := by
  unfold Line.AboutFile
  cases call : line.call with
  | write | writev | pwrite | pwritev =>
    rw [call] at isWrite
    cases isWrite
    rfl
  | _ =>
    rw [call] at isWrite
    cases isWrite

theorem Line.descriptorCall_of_offTable {δ : Type} (offTable : line.call.onTable = false)
    (target : Option δ) : line.descriptorCall target = .keeps := by
  unfold Line.descriptorCall
  cases call : line.call with
  | openFile | openat | close | dup | dup2 | fcntlDupfd =>
    rw [call] at offTable
    cases offTable
  | _ => rfl

theorem Line.stdoutAlias?_of_offTable (offTable : line.call.onTable = false) :
    line.stdoutAlias? = none := by
  unfold Line.stdoutAlias?
  cases call : line.call with
  | fcntlDupfd =>
    rw [call] at offTable
    cases offTable
  | _ => rfl

theorem Line.apart_descriptorCall {first second : Descriptors ℕ}
    (apart : ∀ fd, first fd ≠ none → second fd = none) (line : Line) {target target' : Option ℕ}
    (only : target ≠ none → target' = none) (fd : ℤ) :
    (followed (line.descriptorCall target)).apply first fd ≠ none →
      (followed (line.descriptorCall target')).apply second fd = none := by
  have updated : ∀ {value value' : Option ℕ} (changed : ℤ), (value ≠ none → value' = none) →
        Function.update first changed value fd ≠ none →
          Function.update second changed value' fd = none := by
    intro value value' changed onlyHere
    by_cases same : fd = changed
    · subst same
      rw [Function.update_self, Function.update_self]
      exact onlyHere
    · rw [Function.update_of_ne same, Function.update_of_ne same]
      exact apart fd
  have closed : ∀ changed : ℤ, Function.update first changed none fd ≠ none →
        Function.update second changed none fd = none := fun changed => updated changed fun _ => rfl
  have duplicated : ∀ old new : ℤ, Function.update first new (first old) fd ≠ none →
        Function.update second new (second old) fd = none := fun old new => updated new (apart old)
  unfold Line.descriptorCall
  cases line.call with
  | openFile | openat =>
    simp only
    split_ifs
    · exact updated line.ret only
    · exact apart fd
  | close released =>
    simp only
    split_ifs
    · exact apart fd
    · exact closed released
  | dup old | fcntlDupfd old =>
    simp only
    split_ifs
    · exact apart fd
    · exact duplicated old line.ret
  | dup2 old =>
    simp only
    split_ifs
    · exact apart fd
    · simp only [followed]
      split_ifs
      · exact closed old
      · exact duplicated old line.ret
  | _ => exact apart fd

/-- What a line has done to the two tables and to the aliases. -/
structure Traced (state : ParserState) (line : Line) (after : ParserState) : Prop where
  tables : ∃ watched outside : Option ℕ,
    (watched ≠ none → outside = none) ∧
      after.tracker.fdtracker.table =
        (followed (line.descriptorCall watched)).apply
          state.tracker.fdtracker.table ∧
      after.outsideTable =
        (followed (line.descriptorCall outside)).apply state.outsideTable
  terminal : after.tracker.stdtracker.isWatched 1 = true
  aliases : ∀ fd, (fd, 1) ∈ after.myTracker ↔
    line.stdoutAlias? = some fd ∨ (fd, 1) ∈ state.myTracker

section

variable
  {env : ParserEnv} {state after : ParserState} {line : Line}
  {ops : List MicroOpKind}

theorem Traced.of_offTable (offTable : line.call.onTable = false)
    (terminal : state.tracker.stdtracker.isWatched 1 = true)
    (ran : emit env state line = .ok (after, ops)) :
    Traced state line after := by
  have spec : after.tracker.fdtracker.table = state.tracker.fdtracker.table ∧
        after.outsideTable = state.outsideTable ∧
          SameTerminal state after := by
    cases isWrite : line.call.writeArgs? with
    | some args => exact write_tables isWrite ran
    | none =>
      have silent := silent_of_emit offTable isWrite ran
      exact ⟨silent.table, silent.outside, silent.terminal⟩
  obtain ⟨table, outside, same⟩ := spec
  refine ⟨⟨none, none, fun _ => rfl, ?_, ?_⟩, ?_,
    aliases_of_same same (Line.stdoutAlias?_of_offTable offTable)⟩
  · rw [Line.descriptorCall_of_offTable offTable, table]
    rfl
  · rw [Line.descriptorCall_of_offTable offTable, outside]
    rfl
  · rw [same.stdtracker]
    exact terminal

theorem Traced.of_onTable (apart : state.Apart) (admits : state.Admits line)
    (onTable : line.call.onTable = true) (terminal : state.tracker.stdtracker.isWatched 1 = true)
    (ran : emit env state line = .ok (after, ops)) :
    Traced state line after := by
  obtain ⟨outside, only, outsideEq⟩ := exists_outsideTable_eq apart admits onTable ran
  have registered := registered_of_emit (Call.onDescriptors_of_onTable onTable) terminal
    (fun fd takes => (admits fd takes).1) ran
  refine ⟨⟨_, outside, fun watched => ?_, registered.table, outsideEq⟩,
    registered.terminal, registered.aliases⟩
  by_contra isSome
  rw [only isSome] at watched
  exact watched rfl

theorem traced_of_emit (apart : state.Apart) (admits : state.Admits line)
    (terminal : state.tracker.stdtracker.isWatched 1 = true)
    (ran : emit env state line = .ok (after, ops)) :
    Traced state line after := by
  cases onTable : line.call.onTable with
  | true => exact .of_onTable apart admits onTable terminal ran
  | false => exact .of_offTable onTable terminal ran

/-- The tables of the parser have no descriptor that the process has not, and
none is in both of them. -/
structure WithinTable (state : ParserState) (aliases : List ℤ)
    (table : Descriptors Description) : Prop where
  watched : (state.tracker.fdtracker.table.view fun _ => some ()).Within
    (table.view fun _ => some ())
  outside : (state.outsideTable.view fun _ => some ()).Within (table.view fun _ => some ())
  apart : state.Apart
  terminal : state.tracker.stdtracker.isWatched 1 = true
  aliases_iff : ∀ fd, (fd, 1) ∈ state.myTracker ↔ fd ∈ aliases

namespace WithinTable

variable {aliases : List ℤ} {table : Descriptors Description}

theorem init (pad : Scratchpad) (table : Descriptors Description) :
    WithinTable (.init pad) [] table := by
  refine ⟨?_, ?_, ?_, rfl, ?_⟩
  · intro fd target held
    cases held
  · intro fd target held
    cases held
  · intro fd held
    exact absurd rfl held
  · intro fd
    exact ⟨fun member => absurd member List.not_mem_nil,
      fun member => absurd member List.not_mem_nil⟩

theorem admits (within : WithinTable state aliases table)
    (allowed : line.terminalCall.Allowed table) : state.Admits line := by
  intro fd takes
  have unused : table.view (fun _ => some ()) fd = none := by
    rw [Descriptors.view, allowed.free, Option.bind_none]
    rw [← takes]
    exact line.taken_descriptorCall _ _
  have seen := within.watched.free unused
  have seenOutside := within.outside.free unused
  unfold Descriptors.view at seen seenOutside
  constructor
  · cases held : state.tracker.fdtracker.table fd with
    | none => rfl
    | some number =>
      rw [held] at seen
      cases seen
  · cases held : state.outsideTable fd with
    | none => rfl
    | some number =>
      rw [held] at seenOutside
      cases seenOutside

theorem within_next {part : Descriptors ℕ}
    (within : (part.view fun _ => some ()).Within (table.view fun _ => some ())) (line : Line)
    (target : Option ℕ) : (((followed (line.descriptorCall target)).apply part).view
      fun _ => some ()).Within ((line.terminalCall.apply table).view fun _ => some ()) := by
  rw [Descriptors.view_apply, view_followed, Line.view_descriptorCall,
    Descriptors.view_apply, Line.terminalCall, Line.view_descriptorCall]
  exact Line.within_descriptorCall within line fun _ _ => rfl

theorem next (within : WithinTable state aliases table)
    (allowed : line.terminalCall.Allowed table) (ran : emit env state line = .ok (after, ops)) :
    WithinTable after (line.stdoutAlias?.toList ++ aliases) (line.terminalCall.apply table) := by
  have traced := traced_of_emit within.apart (within.admits allowed) within.terminal ran
  obtain ⟨target, target', only, watchedEq, outsideEq⟩ := traced.tables
  refine ⟨?_, ?_, ?_, traced.terminal, ?_⟩
  · rw [watchedEq]
    exact within_next within.watched line target
  · rw [outsideEq]
    exact within_next within.outside line target'
  · intro fd held
    rw [watchedEq] at held
    rw [outsideEq]
    exact Line.apart_descriptorCall within.apart line only fd held
  · intro fd
    rw [traced.aliases, within.aliases_iff, List.mem_append, Option.mem_toList]

end WithinTable

/-! ## What a line records -/

/-- Two beginnings of what the dump holds are equal if they are equally
long. -/
theorem recorded_eq_iff {rest : Bytes} {thirdArg count : ℕ} (held : count ≤ rest.length)
    {recorded refers : Prop} [Decidable recorded] [Decidable refers] :
    (if recorded then rest.take thirdArg else []) = (if refers then rest.take count else []) ↔
      min (if recorded then thirdArg else 0) rest.length =
        if refers then count else 0 := by
  have size : ∀ condition : Prop, ∀ [Decidable condition], ∀ wanted : ℕ,
      (if condition then rest.take wanted else []) =
        rest.take (if condition then wanted else 0) := by
    intro condition _ wanted
    split_ifs
    · rfl
    · rw [List.take_zero]
  have whole : min (if refers then count else 0) rest.length =
      if refers then count else 0 := by
    split_ifs
    · exact min_eq_left held
    · exact Nat.zero_min _
  rw [size recorded, size refers, List.take_eq_take_iff, whole]

namespace WithinTable

variable {aliases : List ℤ} {table : Descriptors Description}

/-- The calls that are not about a file return, but for `F_DUPFD` of a
standard descriptor. -/
theorem returns_iff (within : WithinTable state aliases table)
    (notWrite : line.call.writeArgs? = none) (allowed : line.terminalCall.Allowed table)
    (passes : line.AboutFile state → ∃ after ops, emit env state line = .ok (after, ops)) :
    line.TerminalFits env state aliases table ↔
      ∃ after ops, emit env state line = .ok (after, ops) := by
  have admits := within.admits allowed
  unfold Line.AboutFile at passes
  unfold Line.TerminalFits
  cases call : line.call with
  | close fd =>
    obtain ⟨after, ran, -⟩ := @ParserState.exists_closeBranch state line within.apart fd
    simp only [emit, call, true_iff]
    exact ⟨after, [], ran⟩
  | dup old =>
    have free := admits.of_dup (Or.inl call)
    obtain ⟨after, ran, -⟩ := exists_dupBranch within.apart
      old (fun succeeded => (free succeeded).1) (fun succeeded => (free succeeded).2)
    simp only [emit, call, true_iff]
    exact ⟨after, [], ran⟩
  | dup2 old =>
    obtain ⟨after, ran, -⟩ := @ParserState.exists_dup2Branch state line within.apart old
    simp only [emit, call, true_iff]
    exact ⟨after, [], ran⟩
  | fcntlDupfd fd =>
    have free := admits.of_dup (Or.inr call)
    simp only [emit, call]
    rw [exists_fcntlDupfdBranch_iff (fun succeeded => (free succeeded).1)
      (fun succeeded => (free succeeded).2)]
  | write | writev | pwrite | pwritev =>
    rw [call] at notWrite
    cases notWrite
  | _ =>
    rw [call] at passes
    exact ⟨fun _ => passes trivial, fun _ => trivial⟩

/-- A write fits exactly if it is recorded as it is dumped. -/
theorem write_fits_iff (within : WithinTable state aliases table) {args : WriteArgs}
    (isWrite : line.call.writeArgs? = some args) (dumped : line.Dumped env)
    (ran : emit env state line = .ok (after, ops)) : line.TerminalFits env state aliases table ↔
      printed ops = line.terminalBytes env table := by
  obtain ⟨content, content_eq, inside⟩ := dumped args isWrite
  have held : args.count ≤ (content.drop args.dump.offset).length := by
    rw [List.length_drop]
    omega
  have recorded : printed ops = line.terminalBytes env table ↔
      min (if args.fd ∈ aliases then args.thirdArg else 0) (content.length - args.dump.offset) =
        if table args.fd = some .terminal then args.count else 0 := by
    rw [printed_of_write isWrite ran, Line.terminalBytes,
      isWrite, ← List.length_drop, ← recorded_eq_iff held]
    simp only [within.aliases_iff, WriteArgs.dumped, content_eq, Option.getD_some]
  rw [recorded]
  unfold Line.TerminalFits
  cases call : line.call with
  | write fd count dump | pwrite fd count pos dump =>
    rw [call] at isWrite
    cases isWrite
    split_ifs <;> simp_all
    omega
  | writev fd iovcnt count dump | pwritev fd iovcnt pos count dump =>
    rw [call] at isWrite
    cases isWrite
    simp only [content_eq, Option.getD_some]
    split_ifs <;> simp_all [eq_comm]
  | _ =>
    rw [call] at isWrite
    cases isWrite

/-- A line fits exactly if it is translated and recorded as it should be. -/
theorem fits_iff (within : WithinTable state aliases table)
    (allowed : line.terminalCall.Allowed table) (dumped : line.Dumped env)
    (passes : line.AboutFile state → ∃ after ops, emit env state line = .ok (after, ops)) :
    line.TerminalFits env state aliases table ↔
      ∃ after ops, emit env state line = .ok (after, ops) ∧
        printed ops = line.terminalBytes env table := by
  cases isWrite : line.call.writeArgs? with
  | some args =>
    have returns : ∃ after ops, emit env state line = .ok (after, ops) := by
      cases watched : state.tracker.fdtracker.isWatched args.fd with
      | true => exact passes ((Line.aboutFile_of_write isWrite).2 watched)
      | false =>
        obtain ⟨content, content_eq, -⟩ := dumped args isWrite
        exact exists_write isWrite content_eq watched
    obtain ⟨after, ops, ran⟩ := returns
    rw [within.write_fits_iff isWrite dumped ran]
    constructor
    · intro same
      exact ⟨after, ops, ran, same⟩
    · rintro ⟨other, otherOps, otherRan, same⟩
      rw [ran] at otherRan
      cases otherRan
      exact same
  | none =>
    have nothing : line.terminalBytes env table = [] := by rw [Line.terminalBytes, isWrite]
    have returns_iff : line.TerminalFits env state aliases table ↔ ∃ after ops, emit env state line
      = .ok (after, ops) := within.returns_iff isWrite allowed passes
    rw [returns_iff]
    constructor
    · rintro ⟨after, ops, ran⟩
      refine ⟨after, ops, ran, ?_⟩
      rw [nothing, printed_of_other isWrite ran]
    · rintro ⟨after, ops, ran, -⟩
      exact ⟨after, ops, ran⟩

end WithinTable

/-! ## Traces -/

/-- The operations of a line record what its branch records. -/
theorem exists_getMicroOp (ran : emit env state line = .ok (after, ops)) :
    ∃ here, getMicroOp env state line = .ok (after, here) ∧
      printed (here.map MicroOp.kind) = printed ops := by
  unfold getMicroOp
  rw [ran, ok_bind]
  cases syscall : line.call.syscall with
  | some name =>
    refine ⟨ops.map fun kind => ⟨kind, name⟩, rfl, ?_⟩
    rw [List.map_map]
    exact congrArg printed (List.map_id ops)
  | none =>
    refine ⟨[], rfl, ?_⟩
    have notWrite : line.call.writeArgs? = none := by
      unfold Call.syscall at syscall
      unfold Call.writeArgs?
      cases call : line.call <;> simp_all
    rw [printed_of_other notWrite ran]
    rfl

theorem exists_emit_of_getMicroOps {rest : List Line} {all : List MicroOp}
    (ran : getMicroOps env state (line :: rest) = .ok all) :
    ∃ after ops, emit env state line = .ok (after, ops) := by
  obtain ⟨⟨after, here⟩, ranHere, -⟩ := bind_eq_ok_iff.1 ran
  obtain ⟨⟨middle, ops⟩, ranEmit, -⟩ := bind_eq_ok_iff.1 ranHere
  exact ⟨middle, ops, ranEmit⟩

section

variable {table : Descriptors Description} {rest : List Line}

/-- A line that is recorded as it should be can be left out. -/
theorem recordsTerminal_cons_iff (ran : emit env state line = .ok (after, ops))
    (same : printed ops = line.terminalBytes env table) :
    RecordsTerminal env state table (line :: rest) ↔
      RecordsTerminal env after (line.terminalCall.apply table) rest := by
  obtain ⟨here, ranHere, printedHere⟩ := exists_getMicroOp ran
  have runs : getMicroOps env state (line :: rest) =
      (getMicroOps env after rest).map (here ++ ·) := by
    simp only [getMicroOps, ranHere, ok_bind]
    cases getMicroOps env after rest <;> rfl
  unfold RecordsTerminal
  rw [runs, terminalOutput]
  constructor
  · rintro ⟨all, ranAll, record⟩
    obtain ⟨more, ranRest, isAll⟩ := map_eq_ok_iff.1 ranAll
    subst isAll
    refine ⟨more, ranRest, ?_⟩
    rw [List.map_append, printed_append, printedHere, same] at record
    exact List.append_cancel_left record
  · rintro ⟨more, ranRest, record⟩
    refine ⟨here ++ more, map_eq_ok_iff.2 ⟨more, ranRest, rfl⟩, ?_⟩
    rw [List.map_append, printed_append, printedHere, same, record]

theorem exists_of_recordsTerminal_singleton (records : RecordsTerminal env state table [line]) :
    ∃ after ops, emit env state line = .ok (after, ops) ∧
      printed ops = line.terminalBytes env table := by
  obtain ⟨all, ranAll, record⟩ := records
  obtain ⟨after, ops, ran⟩ := exists_emit_of_getMicroOps ranAll
  obtain ⟨here, ranHere, printedHere⟩ := exists_getMicroOp ran
  refine ⟨after, ops, ran, ?_⟩
  rw [getMicroOps, ranHere, ok_bind] at ranAll
  cases ranAll
  rw [List.append_nil, printedHere, terminalOutput, terminalOutput, List.append_nil] at record
  exact record

end

theorem WithinTable.recordsTerminal_iff {aliases : List ℤ} {table : Descriptors Description}
    {lines : List Line} (within : WithinTable state aliases table)
    (possible : PossibleCalls table lines) (dumped : ∀ line ∈ lines, line.Dumped env)
    (files : FilesPass env state lines) :
    (∀ front, front <+: lines → RecordsTerminal env state table front) ↔
      TerminalFitsTrace env state aliases table lines := by
  induction lines generalizing state aliases table with
  | nil =>
    refine ⟨fun _ => trivial, fun _ front isPrefix => ?_⟩
    rw [List.prefix_nil.1 isPrefix]
    exact ⟨[], rfl, rfl⟩
  | cons line rest ih =>
    obtain ⟨allowed, further⟩ := possible
    obtain ⟨passes, filesRest⟩ := files
    obtain ⟨dumpedHere, dumpedRest⟩ := List.forall_mem_cons.1 dumped
    have fits := within.fits_iff allowed dumpedHere passes
    constructor
    · intro records
      obtain ⟨next, nextOps, ran, same⟩ :=
        exists_of_recordsTerminal_singleton (records [line] ⟨rest, rfl⟩)
      refine ⟨fits.2 ⟨next, nextOps, ran, same⟩, ?_⟩
      simp only [ran] at filesRest ⊢
      apply (ih (within.next allowed ran) further dumpedRest filesRest).1
      intro front isPrefix
      exact (recordsTerminal_cons_iff ran same).1
        (records (line :: front) (List.cons_prefix_cons.2 ⟨rfl, isPrefix⟩))
    · rintro ⟨lineFits, restFits⟩ front isPrefix
      obtain ⟨next, nextOps, ran, same⟩ := fits.1 lineFits
      simp only [ran] at filesRest restFits
      cases front with
      | nil => exact ⟨[], rfl, rfl⟩
      | cons first more =>
        obtain ⟨isFirst, isFront⟩ := List.cons_prefix_cons.1 isPrefix
        subst isFirst
        exact (recordsTerminal_cons_iff ran same).2 ((ih (within.next allowed ran) further
            dumpedRest filesRest).2 restFits more isFront)

end

/-- After every prefix of a trace the record is what the process has written to
the terminal, exactly if every line fits. -/
theorem terminal_recorded_iff
    {env : ParserEnv} {pad : Scratchpad}
    {inherited : Descriptors Description} {lines : List Line}
    (possible : PossibleCalls (terminalTable inherited) lines)
    (dumped : ∀ line ∈ lines, line.Dumped env)
    (files : FilesPass env (.init pad) lines) :
    (∀ front, front <+: lines →
        RecordsTerminal env (.init pad) (terminalTable inherited) front) ↔
      TerminalFitsTrace env (.init pad) [] (terminalTable inherited)
        lines :=
  (WithinTable.init pad _).recordsTerminal_iff possible dumped files

/-- Standard input and standard error are no terminals. -/
def redirectedFds : Descriptors Description :=
  fun fd => if fd = 0 ∨ fd = 2 then some .other else none

/-- Standard output is duplicated as descriptor `10`, and something is written
there. -/
def aliasedWrite (duplicate write : Call) : List Line :=
  [⟨duplicate, 10, 0, ""⟩, ⟨write, 4, 0, ""⟩]

theorem terminal_recorded_iff_alias :
    (∀ front,
        front <+: aliasedWrite (.fcntlDupfd 1) (.write 10 4 ⟨"dump", 0⟩) →
          RecordsTerminal dumpedSystemEnv.host (.init emptyScratchpad)
            (terminalTable redirectedFds) front) ↔
      TerminalFitsTrace dumpedSystemEnv.host (.init emptyScratchpad) []
        (terminalTable redirectedFds)
        (aliasedWrite (.fcntlDupfd 1) (.write 10 4 ⟨"dump", 0⟩)) := by
  apply terminal_recorded_iff
  · exact ⟨⟨rfl, rfl⟩, trivial, trivial⟩
  · simp [aliasedWrite, Line.Dumped, Call.writeArgs?, dumpedSystemEnv]
  · exact ⟨nofun, nofun, trivial⟩

/-- The terminal output of the trace is not what is recorded, although its
data is there and every call on a file is translated. -/
def MissesTerminal (lines : List Line) : Prop :=
  PossibleCalls (terminalTable redirectedFds) lines ∧
    (∀ line ∈ lines, line.Dumped dumpedSystemEnv.host) ∧
    FilesPass dumpedSystemEnv.host (.init emptyScratchpad) lines ∧
    ¬ RecordsTerminal dumpedSystemEnv.host (.init emptyScratchpad)
      (terminalTable redirectedFds) lines

theorem missesTerminal_of_ops {lines : List Line} {ops : List MicroOp}
    (possible : PossibleCalls (terminalTable redirectedFds) lines)
    (dumped : ∀ line ∈ lines, ∀ args, line.call.writeArgs? = some args →
      args.dump.offset + args.count ≤ 4)
    (files : FilesPass dumpedSystemEnv.host (.init emptyScratchpad) lines)
    (ran : getMicroOps dumpedSystemEnv.host (.init emptyScratchpad) lines = .ok ops)
    (differs : printed (ops.map MicroOp.kind) ≠
      terminalOutput dumpedSystemEnv.host (terminalTable redirectedFds) lines) :
    MissesTerminal lines := by
  refine ⟨possible, ?_, files, ?_⟩
  · intro line member args isWrite
    exact ⟨[1, 2, 3, 4], rfl, dumped line member args isWrite⟩
  · rintro ⟨same, ranSame, record⟩
    rw [ran] at ranSame
    cases ranSame
    exact differs record

/-- Nothing is recorded of a write to descriptor `1` or to a duplicate that
`dup` has made, only as many bytes as there are buffers of a write of a vector,
and what goes elsewhere if the number of an alias is used again. -/
theorem terminal_not_recorded :
    MissesTerminal [⟨.write 1 4 ⟨"dump", 0⟩, 4, 0, ""⟩] ∧
      MissesTerminal (aliasedWrite (.dup 1) (.write 10 4 ⟨"dump", 0⟩)) ∧
      MissesTerminal
        (aliasedWrite (.fcntlDupfd 1) (.writev 10 1 4 ⟨"dump", 0⟩)) ∧
      MissesTerminal (⟨.fcntlDupfd 1, 10, 0, ""⟩ ::
        aliasedWrite (.dup2 0) (.write 10 4 ⟨"dump", 0⟩)) := by
  refine ⟨?_, ?_, ?_, ?_⟩
  · exact missesTerminal_of_ops ⟨trivial, trivial⟩
      (by simp [Call.writeArgs?]) ⟨nofun, trivial⟩ rfl (by decide)
  · exact missesTerminal_of_ops ⟨⟨rfl, rfl⟩, trivial, trivial⟩
      (by simp [aliasedWrite, Call.writeArgs?]) ⟨nofun, nofun, trivial⟩ rfl (by decide)
  · exact missesTerminal_of_ops ⟨⟨rfl, rfl⟩, trivial, trivial⟩
      (by simp [aliasedWrite, Call.writeArgs?]) ⟨nofun, nofun, trivial⟩ rfl (by decide)
  · exact missesTerminal_of_ops ⟨⟨rfl, rfl⟩, rfl, trivial, trivial⟩
      (by simp [aliasedWrite, Call.writeArgs?]) ⟨nofun, nofun, nofun, trivial⟩ rfl (by decide)

end Alice
