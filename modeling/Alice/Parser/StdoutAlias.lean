import Alice.Parser.ProcessTables

/-! # Writes that are taken for terminal output

`my_tracker` holds the descriptors that `F_DUPFD` has made from descriptor
`1`, for all processes, and nothing is ever removed from it.  A write goes to
the terminal if its descriptor is found there. -/

namespace Alice

open Checked
open Posix (Ino Path Descriptors DescriptorCall Processes)

/-! ## The tables of the processes -/

/-- The descriptor table of a process, and the part of it that the parser
follows.  A descriptor refers to a watched file, given by the path that it was
opened by, or to something else. -/
structure FileTables where
  table : Descriptors (Option Path)
  known : Descriptors (Option Path)

namespace FileTables

/-- A process with the descriptors that it has inherited. -/
def start (inherited : ℤ → Bool) : FileTables where
  table fd := if inherited fd then some none else none
  known fd := if inherited fd then some none else none

variable (env : ParserEnv) (line : Line) (tables : FileTables)

def callOf : DescriptorCall (Option Path) :=
  line.descriptorCall (some (line.watchedPath? env))

def next : FileTables where
  table := (callOf env line).apply tables.table
  known := (followed (callOf env line)).apply tables.known

end FileTables

/-- The tables of all processes, and the descriptors that any of them has made
an alias of the terminal. -/
structure SystemTables where
  processes : Processes FileTables
  aliases : List ℤ

def SystemCall.onTables : SystemCall → Bool
  | .plain call => call.onDescriptors
  | .clone _ | .vfork => true
  | _ => false

namespace SystemTables

def init : SystemTables :=
  ⟨.empty, []⟩

variable (env : SystemEnv) (inherited : ℤ → ℤ → Bool) (row : TraceRow)
  (tables : SystemTables)

/-- A thread that no row has made is the first of its process. -/
def enter : SystemTables :=
  { tables with
    processes := tables.processes.enter (.start (inherited row.tid)) row.tid }

def call (line : Line) : SystemTables where
  processes := tables.processes.modify row.tid (.next env.host line)
  aliases := line.stdoutAlias?.toList ++ tables.aliases

/-- Threads share a table if `clone` is told so, and other processes get a
copy. -/
def makes (sharesFiles : Bool) : SystemTables :=
  if row.ret = -1 then
    tables
  else if sharesFiles then
    { tables with processes := tables.processes.share row.tid row.ret }
  else
    { tables with processes := tables.processes.fork row.tid row.ret id }

/-- What a row does, after its thread has been entered. -/
def after : SystemTables :=
  match row.call with
  | .plain call =>
      tables.call env row ⟨call, row.ret, row.fresh, row.uuid⟩
  | .clone flags => tables.makes row flags.files
  | .vfork => tables.makes row false
  | _ => tables

/-- The row is a possible one: a descriptor that is used is there, and one
that is taken into use is not. -/
def Allows : Prop :=
  match row.call with
  | .plain call =>
      ∀ files, tables.processes.stateOf row.tid = some files →
        (FileTables.callOf env.host
          ⟨call, row.ret, row.fresh, row.uuid⟩).Allowed files.table
  | _ => True

end SystemTables

/-! ## One process -/

def nameAt (files : List (Path × Inode)) (number : ℕ) : Option Path :=
  files[number]?.map Prod.fst

/-- What a tracker knows of the files of its process. -/
def FileDescriptorTracker.files (tracker : FileDescriptorTracker) : List (Path × Inode) :=
  tracker.structs.map FdDetails.file

/-- The tracker of a process has the descriptors that the parser follows, with
their files, which are found under their names. -/
structure Agrees (env : ParserEnv) (pad : Scratchpad) (tracker : ProcessTracker)
    (tables : FileTables) : Prop where
  names : tracker.fdtracker.table.view (nameAt tracker.fdtracker.files) = tables.known.view id
  bound : ∀ fd number, tracker.fdtracker.table fd = some number →
    number < tracker.fdtracker.files.length
  inodes : ∀ file ∈ tracker.fdtracker.files,
    pad.tree.resolve (env.replayedPath file.1) = some file.2
  within : tables.known.Within tables.table
  terminal : tracker.stdtracker.isWatched 1 = true

section

variable {env : ParserEnv} {pad : Scratchpad} {tracker : ProcessTracker}
  {tables : FileTables} {state after : ParserState} {line : Line}
  {ops : List MicroOpKind}

theorem agrees_init (env : ParserEnv) (pad : Scratchpad) (inherited : ℤ → Bool) :
    Agrees env pad .init (.start inherited) := by
  refine ⟨?_, ?_, ?_, ?_, rfl⟩
  · funext fd
    simp only [FileTables.start, Descriptors.view]
    split_ifs <;> rfl
  · intro fd number held
    cases held
  · intro file member
    cases member
  · intro fd target held
    exact held

theorem Agrees.mono {pad' : Scratchpad} (agrees : Agrees env pad tracker tables)
    (paths : pad.tree.KeepsPaths pad'.tree) :
    Agrees env pad' tracker tables :=
  { agrees with
    inodes := fun file member => paths _ _ (agrees.inodes file member) }

variable {fd : ℤ}

theorem Agrees.free (agrees : Agrees env pad tracker tables) (unknown : tables.known fd = none) :
    tracker.fdtracker.table fd = none := by
  cases held : tracker.fdtracker.table fd with
  | none => rfl
  | some number =>
    have names := congrFun agrees.names fd
    have inside := agrees.bound fd number held
    simp [Descriptors.view, held, unknown, nameAt, List.getElem?_eq_getElem inside] at names

theorem nameAt_eq (files : List (Path × Inode)) :
    nameAt files = fun number => (files.map Prod.fst)[number]? := by
  funext number
  rw [nameAt, List.getElem?_map]

section

variable (agrees : Agrees env state.pad state.tracker tables)
  (translated : Translated env state line after)
include agrees translated

theorem Agrees.names_next : after.tracker.fdtracker.table.view
        (nameAt after.tracker.fdtracker.files) = (tables.next env line).known.view id := by
  obtain ⟨opened, files, names, -⟩ := translated.files
  have filesEq : after.tracker.fdtracker.files = state.tracker.fdtracker.files ++ opened := files
  have length : state.tracker.fdtracker.structs.length =
      (state.tracker.fdtracker.files.map Prod.fst).length := by
    simp [FileDescriptorTracker.files]
  have target : ((line.watchedPath? env).bind fun _ =>
      (opened.map Prod.fst).head?) = line.watchedPath? env := by
    rw [names]
    cases line.watchedPath? env <;> rfl
  rw [translated.table, nameAt_eq, filesEq, List.map_append, length,
    Line.view_followed_apply line (by
      simpa [FileDescriptorTracker.files] using agrees.bound),
    ← nameAt_eq, agrees.names, target]
  rw [FileTables.next, Descriptors.view_apply, view_followed,
    FileTables.callOf, Line.view_descriptorCall]
  rfl

theorem Agrees.bound_next {number : ℕ} (held : after.tracker.fdtracker.table fd = some number) :
    number < after.tracker.fdtracker.files.length := by
  obtain ⟨opened, files, names, -⟩ := translated.files
  have filesEq : after.tracker.fdtracker.files = state.tracker.fdtracker.files ++ opened := files
  have length : state.tracker.fdtracker.structs.length = state.tracker.fdtracker.files.length := by
    simp [FileDescriptorTracker.files]
  rw [translated.table, length] at held
  rw [filesEq]
  refine Line.lt_length_of_followed_apply line agrees.bound ?_ held
  rintro isOpened rfl
  cases isPath : line.watchedPath? env with
  | none => exact isOpened isPath
  | some path =>
    rw [isPath] at names
    cases names

theorem Agrees.next :
    Agrees env after.pad after.tracker (tables.next env line) := by
  refine ⟨agrees.names_next translated, ?_, ?_, ?_, translated.terminal⟩
  · intro fd number held
    exact agrees.bound_next translated held
  · intro file member
    rcases translated.files with ⟨opened, filesEq, -, found⟩
    rw [FileDescriptorTracker.files, filesEq] at member
    rcases List.mem_append.1 member with isOld | isNew
    · exact translated.paths _ _ (agrees.inodes file isOld)
    · exact found file isNew
  · exact within_followed agrees.within _

end

theorem Agrees.untaken (agrees : Agrees env pad tracker tables)
    (allowed : (FileTables.callOf env line).Allowed tables.table)
    (takes : (line.descriptorCall (none : Option ℕ)).taken = some fd) :
    tracker.fdtracker.table fd = none := by
  apply agrees.free
  apply agrees.within.free
  apply allowed.free
  rw [← takes]
  exact line.taken_descriptorCall _ _

/-- A descriptor of a watched file that is followed has a `Struct` with the
name and the inode of the file. -/
theorem Agrees.exists_details (agrees : Agrees env pad tracker tables) {path : Path}
    (known : tables.known fd = some (some path)) :
    ∃ details, tracker.fdtracker.details fd = .ok details ∧ details.name = path ∧
        pad.tree.resolve (env.replayedPath path) = some details.inode := by
  have seen := congrFun agrees.names fd
  simp only [Descriptors.view, known, Option.bind_some, id] at seen
  rcases Option.bind_eq_some_iff.1 seen with ⟨number, held, named⟩
  rcases Option.map_eq_some_iff.1 named with ⟨file, isFile, name⟩
  rw [FileDescriptorTracker.files, List.getElem?_map] at isFile
  rcases Option.map_eq_some_iff.1 isFile with ⟨details, lookup, fileEq⟩
  have nameEq : details.name = path := by
    rw [← name, ← fileEq]
    rfl
  have member : details.file ∈ tracker.fdtracker.files :=
    List.mem_map_of_mem (List.mem_of_getElem? lookup)
  have found := agrees.inodes details.file member
  rw [FdDetails.file, nameEq] at found
  exact ⟨details, FileDescriptorTracker.details_eq_ok_iff.2 ⟨number, held, lookup⟩, nameEq, found⟩

theorem Agrees.details (agrees : Agrees env pad tracker tables) {path : Path} {ino : Ino}
    (refers : tables.table fd = some (some path)) (followed : tables.known fd ≠ none)
    (leads : pad.tree.resolve (env.replayedPath path) = some ino) :
    ∃ details, tracker.fdtracker.details fd = .ok details ∧
      details.name = path ∧ details.inode = ino := by
  rcases Option.ne_none_iff_exists'.1 followed with ⟨target, known⟩
  have same := agrees.within fd target known
  rw [refers, Option.some.injEq] at same
  subst same
  rcases agrees.exists_details known with ⟨details, found, nameEq, inodeEq⟩
  rw [leads, Option.some.injEq] at inodeEq
  exact ⟨details, found, nameEq, inodeEq.symm⟩

/-- The operations write to the data of the given file, and nothing else.  The
range of a file that is opened with `O_SYNC` is synced as well. -/
def WritesTo (ino : Inode) (ops : List MicroOpKind) : Prop :=
  (∀ op ∈ ops, op.OnData ino) ∧ ∃ range, .write range ∈ ops ∨ .append range ∈ ops

theorem writesTo_splitOps (details : FdDetails) (dump : Dump) (pos : ℕ) {count : ℕ} (size : ℕ)
    (nonempty : 0 < count) : WritesTo details.inode (splitOps details dump pos count size) := by
  refine ⟨fun op member => onData_of_mem_splitOps member, ?_⟩
  by_cases within : pos + count ≤ size
  · rw [splitOps_within details dump nonempty within]
    exact ⟨_, Or.inl (List.mem_cons_self ..)⟩
  · rcases exists_append_mem_splitOps details dump nonempty
      (Nat.lt_of_not_le within) with ⟨range, member⟩
    exact ⟨range, Or.inr member⟩

theorem emit_writesTo_iff
    {args : WriteArgs} {path : Path} {ino : Ino} {bytes : Posix.Bytes}
    (agrees : Agrees env state.pad state.tracker tables)
    (isWrite : line.call.writeArgs? = some args) (nonempty : 0 < args.count)
    (refers : tables.table args.fd = some (some path))
    (leads : state.pad.tree.resolve (env.replayedPath path) = some ino)
    (isFile : state.pad.tree.content ino = some bytes) :
    (∃ after ops, emit env state line = .ok (after, ops) ∧ WritesTo ino ops) ↔
      (args.fd, 1) ∉ state.myTracker ∧ tables.known args.fd ≠ none ∧ line.ret = args.count := by
  constructor
  · intro written
    rcases written with ⟨after, ops, ran, onData, range, member⟩
    have notAlias := not_alias_of_onData isWrite ran onData
    have known : tables.known args.fd ≠ none := by
      intro unknown
      have unwatched := FileDescriptorTracker.isWatched_eq_false_iff.2 (agrees.free unknown)
      rw [emit_of_writeArgs isWrite, ParserState.writeBranch_of_unwatched notAlias unwatched] at ran
      cases ran
      simp at member
    rcases agrees.details refers known leads with ⟨details, found, -, -⟩
    rcases (emit_write_eq_ok_iff isWrite notAlias found after ops).1 ran with ⟨stat, written⟩
    exact ⟨notAlias, known, written.ret_eq⟩
  · intro condition
    rcases condition with ⟨notAlias, known, returned⟩
    rcases agrees.details refers known leads with
      ⟨details, found, nameEq, inodeEq⟩
    have statEq : state.stat? env details.name =
        some ⟨ino, bytes.length, state.pad.links ino, false⟩ := by
      rw [nameEq]
      simp only [ParserState.stat?, Scratchpad.replayedStat, leads, Option.bind_some]
      exact Scratchpad.statInode_of_content isFile
    rcases exists_written found returned statEq (Or.inl rfl) (Or.inl nonempty) with ⟨after, written⟩
    refine ⟨after, _, (emit_write_eq_ok_iff isWrite notAlias found after _).2 ⟨_, written⟩, ?_⟩
    rw [← inodeEq]
    exact writesTo_splitOps details args.dump _ _ nonempty

end

/-! ## All processes -/

/-- The trackers of a system follow the tables of its processes. -/
structure Follows (env : SystemEnv) (system : ParserSystem) (tables : SystemTables) : Prop where
  processes : Processes.Related (fun process files =>
      Agrees env.host system.pad process.tracker files)
    system.asProcesses tables.processes
  allFound : system.AllFound env
  aliases : ∀ fd, (fd, 1) ∈ system.myTracker ↔ fd ∈ tables.aliases

section

variable {env : SystemEnv} {inherited : ℤ → ℤ → Bool}
  {system found after : ParserSystem} {tables : SystemTables}
  {row : TraceRow} {number : ℕ} {process : TracedProcess}
  {ops : List MicroOpKind}

section

variable (follows : Follows env system tables)
include follows

theorem Follows.beside : Beside env (Agrees env.host system.pad) system tables.processes :=
  ⟨follows.processes, follows.allFound⟩

omit follows in
theorem follows_init (env : SystemEnv) (pad : Scratchpad) : Follows env (.init pad) .init := by
  have beside : Beside env (Agrees env.host pad) (.init pad) Processes.empty := .init env pad
  refine ⟨beside.processes, beside.allFound, fun fd => ?_⟩
  simp [ParserSystem.init, SystemTables.init]

theorem Follows.enter (tracked : ParserSystem.Tracked env system row.tid found number process) :
    Follows env found (tables.enter inherited row) := by
  have beside := follows.beside.enter (agrees_init env.host system.pad (inherited row.tid)) tracked
  rw [← tracked.pad] at beside
  refine ⟨beside.processes, beside.allFound, ?_⟩
  rw [tracked.myTracker]
  exact follows.aliases

omit follows in
theorem Follows.call
    {call : Call} {state : ParserState} (follows : Follows env system tables)
    (known : system.trackersMap.lookup row.tid = some (some number))
    (lookup : system.processes[number]? = some process) (isPlain : row.call = .plain call)
    (onDescriptors : call.onDescriptors = true) (unused : system.pad.tree.node row.fresh = none)
    (allows : tables.Allows env row) (ran : emit (env.forThread row.tid) (system.stateOf process)
      ⟨call, row.ret, row.fresh, row.uuid⟩ = .ok (state, ops)) :
    Follows env (system.withState number process state)
      (tables.call env row ⟨call, row.ret, row.fresh, row.uuid⟩) := by
  obtain ⟨files, filesEq, agrees⟩ := follows.beside.exists_table known lookup
  have allowed : (FileTables.callOf env.host
      ⟨call, row.ret, row.fresh, row.uuid⟩).Allowed files.table := by
    unfold SystemTables.Allows at allows
    rw [isPlain] at allows
    exact allows files filesEq
  have translated : Translated env.host (system.stateOf process)
      ⟨call, row.ret, row.fresh, row.uuid⟩ state := by
    have spec := translated_of_emit onDescriptors unused agrees.terminal
      (fun fd takes => agrees.untaken allowed takes) ran
    exact ⟨spec.table, spec.files, spec.paths, spec.terminal, spec.aliases⟩
  have weaker := follows.beside.mono fun tracker files agrees => agrees.mono translated.paths
  have beside := @Beside.call _ _ _ _ _ _ _ _ state
    (FileTables.next env.host ⟨call, row.ret, row.fresh, row.uuid⟩) weaker
    known lookup fun files' filesEq' _ => by
      rw [filesEq, Option.some.injEq] at filesEq'
      subst filesEq'
      exact Agrees.next agrees translated
  refine ⟨beside.processes, beside.allFound, fun fd => ?_⟩
  change (fd, 1) ∈ state.myTracker ↔ _
  rw [translated.aliases fd]
  change _ ∨ (fd, 1) ∈ system.myTracker ↔ _
  rw [follows.aliases fd]
  simp [SystemTables.call]

theorem Follows.makes {sharesFiles : Bool} (samePad : after.pad = system.pad)
    (sameTracker : after.myTracker = system.myTracker)
    (beside : Beside env (Agrees env.host system.pad) after
      (tablesMade row sharesFiles tables.processes)) :
    Follows env after (tables.makes row sharesFiles) := by
  have processes : (tables.makes row sharesFiles).processes =
      tablesMade row sharesFiles tables.processes := by
    unfold SystemTables.makes tablesMade
    split_ifs <;> rfl
  have aliases : (tables.makes row sharesFiles).aliases = tables.aliases := by
    unfold SystemTables.makes
    split_ifs <;> rfl
  rw [← samePad, ← processes] at beside
  refine ⟨beside.processes, beside.allFound, ?_⟩
  rw [sameTracker, aliases]
  exact follows.aliases

section

variable (known : system.trackersMap.lookup row.tid = some (some number))
  (lookup : system.processes[number]? = some process)
include known lookup

theorem Follows.vforkBranch (ran : system.vforkBranch process row.ret = .ok after) :
    Follows env after (tables.makes row false) := by
  have same : after.pad = system.pad ∧ after.myTracker = system.myTracker := by
    unfold ParserSystem.vforkBranch ParserSystem.recordFork at ran
    grind [bind_eq_ok_iff, pure_eq_ok_iff]
  exact follows.makes same.1 same.2 (follows.beside.vforkBranch known lookup ran)

theorem Follows.cloneBranch {flags : CloneFlags}
    (ran : system.cloneBranch number process row.ret flags = .ok after) :
    Follows env after (tables.makes row flags.files) := by
  have same : after.pad = system.pad ∧ after.myTracker = system.myTracker := by
    unfold ParserSystem.cloneBranch ParserSystem.recordClone ParserSystem.recordFork at ran
    grind [bind_eq_ok_iff, pure_eq_ok_iff]
  exact follows.makes same.1 same.2 (follows.beside.cloneBranch known lookup ran)

end

theorem Follows.translate (listed : row.call.onTables = true)
    (unused : system.pad.tree.node row.fresh = none)
    (allows : (tables.enter inherited row).Allows env row)
    (ran : system.translate env row = .ok (after, ops)) :
    Follows env after ((tables.enter inherited row).after env row) := by
  rcases bind_eq_ok_iff.1 ran with ⟨⟨found, number, process⟩, searched, ran⟩
  have tracked := ParserSystem.tracked_of_getProctracker searched
  have entered : Follows env found (tables.enter inherited row) := follows.enter tracked
  unfold ParserSystem.translateCall at ran
  unfold SystemTables.after
  cases call : row.call with
  | plain call =>
    rw [call] at ran listed
    rcases map_eq_ok_iff.1 ran with ⟨⟨state, emitted⟩, emits, equal⟩
    cases equal
    rw [← tracked.pad] at unused
    exact entered.call tracked.known tracked.lookup call listed unused allows emits
  | clone flags =>
    rw [call] at ran
    rcases map_eq_ok_iff.1 ran with ⟨made, making, equal⟩
    cases equal
    exact entered.cloneBranch tracked.known tracked.lookup making
  | vfork =>
    rw [call] at ran
    rcases map_eq_ok_iff.1 ran with ⟨made, making, equal⟩
    cases equal
    exact entered.vforkBranch tracked.known tracked.lookup making
  | openFault | chdir | execve | mremap =>
    rw [call] at listed
    cases listed

end

end

/-! ## Whole traces -/

/-- A trace of calls on descriptors and of calls that make processes, in any
order, that is possible in the tables of the processes.  The new file of an
`open` gets an inode that no other file has. -/
inductive TablesRun (env : SystemEnv) (inherited : ℤ → ℤ → Bool) (pad : Scratchpad) :
    List TraceRow → ParserSystem → SystemTables → Prop where
  | start : TablesRun env inherited pad [] (.init pad) .init
  | row {rows : List TraceRow} {system after : ParserSystem}
      {tables : SystemTables} {row : TraceRow} {ops : List MicroOpKind}
      (run : TablesRun env inherited pad rows system tables)
      (listed : row.call.onTables = true)
      (unused : system.pad.tree.node row.fresh = none)
      (allows : (tables.enter inherited row).Allows env row)
      (ran : system.translate env row = .ok (after, ops)) :
      TablesRun env inherited pad (rows ++ [row]) after
        ((tables.enter inherited row).after env row)

section

variable {env : SystemEnv} {inherited : ℤ → ℤ → Bool} {pad : Scratchpad}
  {rows : List TraceRow} {system : ParserSystem} {tables : SystemTables}
  {row : TraceRow}

theorem follows_of_run (run : TablesRun env inherited pad rows system tables) :
    Follows env system tables := by
  induction run with
  | start => exact follows_init env pad
  | row _ listed unused allows ran ih => exact ih.translate listed unused allows ran

/-- A write of at least one byte through a descriptor that refers to a watched
file is translated to operations on this file exactly if no process has ever
got the number of the descriptor from `F_DUPFD` of descriptor `1`, the parser
still follows the descriptor, which it loses if it is duplicated onto itself,
and every byte is written. -/
theorem write_reaches_file_iff
    {files : FileTables} {call : Call} {args : WriteArgs} {path : Path}
    {ino : Ino} {bytes : Posix.Bytes}
    (run : TablesRun env inherited pad rows system tables)
    (isPlain : row.call = .plain call)
    (isWrite : call.writeArgs? = some args)
    (nonempty : 0 < args.count)
    (ownTable : tables.processes.stateOf row.tid = some files)
    (refers : files.table args.fd = some (some path))
    (leads : system.pad.tree.resolve (env.host.replayedPath path) =
      some ino)
    (isFile : system.pad.tree.content ino = some bytes) :
    (∃ after ops, system.translate env row = .ok (after, ops) ∧
        WritesTo ino ops) ↔
      args.fd ∉ tables.aliases ∧ files.known args.fd ≠ none ∧
        row.ret = args.count := by
  have follows := follows_of_run run
  rcases follows.beside.translate_plain ownTable isPlain with
    ⟨number, process, agrees, translates⟩
  have atProcess : Agrees (env.forThread row.tid)
      (system.stateOf process).pad (system.stateOf process).tracker files :=
    ⟨agrees.names, agrees.bound, agrees.inodes, agrees.within, agrees.terminal⟩
  have emitted := @emit_writesTo_iff (env.forThread row.tid) files
    (system.stateOf process) ⟨call, row.ret, row.fresh, row.uuid⟩ args path
    ino bytes atProcess isWrite nonempty refers leads isFile
  rw [← follows.aliases, translates]
  refine Iff.trans ?_ emitted
  constructor
  · intro written
    rcases written with ⟨after, ops, ran, writes⟩
    rcases map_eq_ok_iff.1 ran with ⟨⟨state, kinds⟩, emits, equal⟩
    cases equal
    exact ⟨state, kinds, emits, writes⟩
  · intro written
    rcases written with ⟨state, ops, emits, writes⟩
    exact ⟨_, ops, map_eq_ok_iff.2 ⟨_, emits, rfl⟩, writes⟩

end

def standardFds (_ fd : ℤ) : Bool :=
  decide (0 ≤ fd ∧ fd ≤ 2)

theorem write_reaches_file_iff_opened :
    ∃ system tables files,
      TablesRun workloadSystemEnv standardFds emptyScratchpad
        [logOpened.row 100] system tables ∧
      tables.processes.stateOf 100 = some files ∧
      ((∃ after ops,
          system.translate workloadSystemEnv (logWritten.row 100) =
            .ok (after, ops) ∧ WritesTo 12 ops) ↔
        3 ∉ tables.aliases ∧ files.known 3 ≠ none ∧ (4 : ℤ) = 4) := by
  have run := @TablesRun.row workloadSystemEnv standardFds emptyScratchpad
    [] _ _ _ (logOpened.row 100) _ .start rfl rfl (by rintro files ⟨⟩; exact ⟨rfl, rfl⟩) rfl
  refine ⟨_, _, _, run, rfl, ?_⟩
  exact @write_reaches_file_iff workloadSystemEnv standardFds
    emptyScratchpad _ _ _ (logWritten.row 100) _ logWritten.call _
    ["workload", "log"] 12 [] run rfl rfl (by decide) rfl rfl rfl rfl

/-- The dumps of the traced writes can be read. -/
def dumpedSystemEnv : SystemEnv :=
  { workloadSystemEnv with
    host := { workloadEnv with dumps := fun _ => some [1, 2, 3, 4] } }

/-- Standard output is duplicated as descriptor `10`, which is closed and then
used for a file. -/
def reusedAlias : List TraceRow :=
  [⟨100, .plain (.fcntlDupfd 1), 10, 0, ""⟩,
    ⟨100, .plain (.close 10), 0, 0, ""⟩,
    ⟨100, .plain (.openFile ["workload", "log"] [.oCreat, .oRdwr]
      (some "0666")), 10, 12, ""⟩]

/-- The write to the file is translated as output to the terminal. -/
theorem reusedAlias_write_is_stdout :
    ∃ system tables files after,
      TablesRun dumpedSystemEnv standardFds emptyScratchpad reusedAlias
        system tables ∧
      tables.processes.stateOf 100 = some files ∧
      files.table 10 = some (some ["workload", "log"]) ∧
      system.translate dumpedSystemEnv
          ⟨100, .plain (.write 10 4 ⟨"dump", 0⟩), 4, 0, ""⟩ =
        .ok (after, [.stdout [1, 2, 3, 4]]) := by
  have duplicated := @TablesRun.row dumpedSystemEnv standardFds
    emptyScratchpad [] _ _ _ ⟨100, .plain (.fcntlDupfd 1), 10, 0, ""⟩ _
    .start rfl rfl (by rintro files ⟨⟩; exact ⟨rfl, rfl⟩) rfl
  have closed := @TablesRun.row dumpedSystemEnv standardFds
    emptyScratchpad _ _ _ _ ⟨100, .plain (.close 10), 0, 0, ""⟩ _
    duplicated rfl rfl (by rintro files ⟨⟩; exact rfl) rfl
  have opened := @TablesRun.row dumpedSystemEnv standardFds
    emptyScratchpad _ _ _ _ ⟨100, .plain (.openFile ["workload", "log"]
      [.oCreat, .oRdwr] (some "0666")), 10, 12, ""⟩ _
    closed rfl rfl (by rintro files ⟨⟩; exact ⟨rfl, rfl⟩) rfl
  exact ⟨_, _, _, _, opened, rfl, rfl, rfl⟩

end Alice
