import Alice.Parser.TerminalOutput

/-! # Descriptors that are synced

An `fsync` is translated if its descriptor is watched and some path of the
scratchpad leads to its inode.  The module follows the descriptors that refer
to interesting paths, whatever flags they were opened with.  An `execve` is
left out. -/

namespace Alice

open Checked
open Posix (Ino Path Tree Descriptors DescriptorCall Processes)

/-! ## The paths of an inode -/

namespace Scratchpad

variable {pad : Scratchpad} {ino start : Ino} {path front : Path} {depth : ℕ}

theorem mem_find (leads : pad.tree.resolveFrom start path = some ino)
    (shallow : path.length ≤ depth) (front : Path) :
    (front ++ path, ino) ∈ pad.find depth front start := by
  induction path generalizing depth start front with
  | nil =>
    cases leads
    rw [List.append_nil]
    cases depth <;> exact List.mem_cons_self
  | cons name path ih =>
    obtain ⟨next, child, leads⟩ := Option.bind_eq_some_iff.1 leads
    obtain ⟨entries, isDir, bound⟩ := Option.bind_eq_some_iff.1 child
    cases depth with
    | zero => cases shallow
    | succ depth =>
      have found := ih leads (Nat.le_of_succ_le_succ shallow) (front ++ [name])
      rw [List.append_assoc] at found
      rw [find, isDir]
      refine List.mem_cons_of_mem _ (List.mem_flatMap.2 ⟨⟨name, next⟩, ?_, found⟩)
      exact AList.mem_lookup_iff.1 bound

theorem exists_of_mem_find (found : (path, ino) ∈ pad.find depth front start) :
    ∃ back, path = front ++ back ∧ pad.tree.resolveFrom start back = some ino := by
  induction depth generalizing front start with
  | zero =>
    obtain ⟨rfl, rfl⟩ := Prod.mk.inj (List.mem_singleton.1 found)
    exact ⟨[], (List.append_nil _).symm, rfl⟩
  | succ depth ih =>
    rcases List.mem_cons.1 found with isHere | below
    · obtain ⟨rfl, rfl⟩ := Prod.mk.inj isHere
      exact ⟨[], (List.append_nil _).symm, rfl⟩
    · cases isDir : pad.tree.entries start with
      | none =>
        rw [isDir] at below
        cases below
      | some entries =>
        rw [isDir] at below
        obtain ⟨⟨name, next⟩, entry, below⟩ := List.mem_flatMap.1 below
        obtain ⟨back, isPath, leads⟩ := ih below
        refine ⟨name :: back, by rw [isPath, List.append_assoc]; rfl, ?_⟩
        rw [Tree.resolveFrom, Tree.child, isDir, Option.bind_some, AList.mem_lookup_iff.2 entry]
        exact leads

theorem Sound.length_le (sound : pad.Sound) (leads : pad.tree.resolve path = some ino) :
    path.length ≤ pad.inodes.length := by
  have passes : ∀ index < path.length, ∃ dir,
      pad.tree.resolve (path.take index) = some dir ∧ pad.tree.isDir dir = true := by
    intro index inside
    rw [← List.take_append_drop index path, List.drop_eq_getElem_cons inside,
      Tree.resolve, Tree.resolveFrom_append] at leads
    obtain ⟨dir, passed, leads⟩ := Option.bind_eq_some_iff.1 leads
    obtain ⟨next, child, -⟩ := Option.bind_eq_some_iff.1 leads
    exact ⟨dir, passed, Tree.isDir_of_child child⟩
  choose! dir passed isDirectory using passes
  have different : Set.InjOn dir (Finset.range path.length) := by
    intro first inFirst second inSecond same
    rw [Finset.coe_range, Set.mem_Iio] at inFirst inSecond
    have samePath := Tree.path_unique sound.rooted.root_unbound sound.rooted.bound_once
      (passed first inFirst) (same ▸ passed second inSecond) (isDirectory first inFirst)
    have sameLength := congrArg List.length samePath
    rw [List.length_take_of_le (Nat.le_of_lt inFirst),
      List.length_take_of_le (Nat.le_of_lt inSecond)] at sameLength
    exact sameLength
  have listed : Set.MapsTo dir (Finset.range path.length) pad.inodes.toFinset := by
    intro index inside
    rw [Finset.coe_range, Set.mem_Iio] at inside
    rw [List.coe_toFinset]
    exact sound.listed _ (isDirectory index inside)
  calc path.length = (Finset.range path.length).card := (Finset.card_range _).symm
    _ ≤ pad.inodes.toFinset.card := Finset.card_le_card_of_injOn dir listed different
    _ ≤ pad.inodes.length := List.toFinset_card_le _

theorem resolve_of_mem_getFilesFromInode (found : path ∈ pad.getFilesFromInode ino) :
    pad.tree.resolve path = some ino := by
  obtain ⟨⟨other, target⟩, member, rfl⟩ := List.mem_map.1 found
  obtain ⟨member, same⟩ := List.mem_filter.1 member
  obtain ⟨back, isPath, leads⟩ := exists_of_mem_find member
  obtain rfl := of_decide_eq_true same
  rw [isPath]
  exact leads

theorem Sound.mem_getFilesFromInode (sound : pad.Sound) (leads : pad.tree.resolve path = some ino) :
    path ∈ pad.getFilesFromInode ino :=
  List.mem_map.2 ⟨(path, ino), List.mem_filter.2
    ⟨mem_find leads (sound.length_le leads) [], decide_eq_true rfl⟩, rfl⟩

end Scratchpad

theorem ParserState.exists_sizeByInode_iff
    {env : ParserEnv} {state : ParserState} {ino : Ino} (sound : state.pad.Sound) :
    (∃ size, state.sizeByInode env ino = .ok size) ↔ state.pad.tree.Reaches ino := by
  unfold sizeByInode
  cases files : state.pad.getFilesFromInode ino with
  | nil =>
    constructor
    · rintro ⟨size, impossible⟩
      cases impossible
    · rintro ⟨path, leads⟩
      have found := sound.mem_getFilesFromInode leads
      rw [files] at found
      cases found
  | cons file rest =>
    have leads := Scratchpad.resolve_of_mem_getFilesFromInode
      (files ▸ List.mem_cons_self : file ∈ state.pad.getFilesFromInode ino)
    refine ⟨fun _ => ⟨file, leads⟩, fun reached => ?_⟩
    obtain ⟨stat, isStat⟩ : ∃ stat, state.pad.replayedStat env.dirStat file = some stat := by
      obtain ⟨node, isNode⟩ := Option.ne_none_iff_exists'.1 (sound.rooted.node_of_reaches reached)
      rw [Scratchpad.replayedStat, leads, Option.bind_some, Scratchpad.statInode, isNode]
      cases node <;> exact ⟨_, rfl⟩
    simp only [isStat]
    exact ⟨stat.size, rfl⟩

/-- A successful `fsync` is translated exactly if its descriptor is watched and
its inode is found. -/
theorem ParserState.exists_fsyncBranch_iff {env : ParserEnv} {state : ParserState} {line : Line}
    {fd : ℤ} {ino : Ino} (sound : state.pad.Sound) (succeeded : line.ret = 0) :
    (∃ after size, state.fsyncBranch env .fsync line fd = .ok (after, [.fsync ino size])) ↔
      (∃ details, state.tracker.fdtracker.details fd = .ok details ∧ details.inode = ino) ∧
        state.pad.tree.Reaches ino := by
  have assertion : assertThat (line.ret = 0) = .ok () := assertThat_eq_ok_iff.2 succeeded
  rw [fsyncBranch, assertion, ok_bind]
  constructor
  · rintro ⟨after, size, ran⟩
    split_ifs at ran
    · obtain ⟨details, found, ran⟩ := bind_eq_ok_iff.1 ran
      obtain ⟨measured, measuring, ran⟩ := bind_eq_ok_iff.1 ran
      cases ran
      exact ⟨⟨details, found, rfl⟩, (exists_sizeByInode_iff sound).1 ⟨size, measuring⟩⟩
    · cases ran
  · rintro ⟨⟨details, found, rfl⟩, reached⟩
    obtain ⟨size, measuring⟩ := (@exists_sizeByInode_iff env state details.inode sound).2 reached
    rw [if_pos (isWatched_of_details found), found, ok_bind, measuring, ok_bind]
    exact ⟨state, size, rfl⟩

/-! ## One line -/

/-- The inodes of the files that were watched. -/
def FileDescriptorTracker.inodes (tracker : FileDescriptorTracker) : List Inode :=
  tracker.structs.map FdDetails.inode

/-- What a line has done to the watched descriptors and their inodes. -/
structure Redirected (env : ParserEnv) (state : ParserState) (line : Line)
    (after : ParserState) : Prop where
  table : after.tracker.fdtracker.table =
    (followed (line.descriptorCall ((line.watchedPath? env).map fun _ =>
      state.tracker.fdtracker.inodes.length))).apply state.tracker.fdtracker.table
  inodes : ∃ opened,
    after.tracker.fdtracker.inodes =
        state.tracker.fdtracker.inodes ++ opened ∧
      opened.map some = (line.watchedPath? env).toList.map fun path =>
        after.pad.tree.resolve (env.replayedPath path)
  terminal : after.tracker.stdtracker.isWatched 1 = true

section

variable
  {env : ParserEnv} {state after : ParserState} {line : Line}
  {ops : List MicroOpKind}

theorem Registered.redirected (registered : Registered env state line after) :
    Redirected env state line after := by
  obtain ⟨opened, files, names, leads⟩ := registered.files
  refine ⟨?_, ⟨opened.map Prod.snd, ?_, ?_⟩, registered.terminal⟩
  · rw [FileDescriptorTracker.inodes, List.length_map]
    exact registered.table
  · have inodes := congrArg (List.map Prod.snd) files
    rw [List.map_append, List.map_map, List.map_map] at inodes
    exact inodes
  · rw [← names, List.map_map, List.map_map]
    exact List.map_congr_left fun file member => (leads file member).symm

theorem Line.watchedPath?_of_offTable (offTable : line.call.onTable = false) :
    line.watchedPath? env = none := by
  unfold Line.watchedPath?
  cases call : line.call with
  | openFile | openat =>
    rw [call] at offTable
    cases offTable
  | _ => rfl

theorem Call.others_of_onDescriptors {call : Call} (other : call.onDescriptors = false) :
    call.onTable = false ∧ call.writeArgs? = none ∧ ∀ fd, call ≠ .lseek fd := by
  cases call with
  | openFile | openat | write | writev | pwrite | pwritev | close | lseek
  | dup | dup2 | fcntlDupfd => cases other
  | _ => exact ⟨rfl, rfl, fun _ isSeek => nomatch isSeek⟩

/-- Every line changes the watched descriptors as its call changes the
descriptors of the process, except for those that are lost. -/
theorem redirected_of_emit (terminal : state.tracker.stdtracker.isWatched 1 = true)
    (free : ∀ fd, (line.descriptorCall (none : Option ℕ)).taken = some fd →
        state.tracker.fdtracker.table fd = none) (ran : emit env state line = .ok (after, ops)) :
    Redirected env state line after := by
  cases onDescriptors : line.call.onDescriptors with
  | true => exact (registered_of_emit onDescriptors terminal free ran).redirected
  | false =>
    have others := Call.others_of_onDescriptors onDescriptors
    have spared := ParserState.spared_of_emit others.1 others.2.1 others.2.2 ran
    refine ⟨?_, ⟨[], ?_, ?_⟩, ?_⟩
    · rw [Line.descriptorCall_of_offTable others.1, spared.fds]
      rfl
    · rw [spared.fds, List.append_nil]
    · rw [Line.watchedPath?_of_offTable others.1]
      rfl
    · rw [spared.terminal.stdtracker]
      exact terminal

end

/-! ## The tables of the processes -/

/-- A description that was made by opening an interesting path: the inode that
the path leads to, and whether `O_DIRECTORY` was given. -/
structure OpenedPath where
  ino : Option Ino
  directory : Bool
  deriving DecidableEq, Repr

/-- The parser passes over a path that is opened with `O_DIRECTORY`. -/
def watchedInode : Option OpenedPath → Option Ino
  | some opened => if opened.directory then none else opened.ino
  | none => none

/-- What the line opens, if it is an interesting path. -/
def Line.openedPath? (env : ParserEnv) (pad : Scratchpad) (line : Line) : Option OpenedPath :=
  match line.call with
  | .openFile path flags _ | .openat path flags _ =>
      if 0 ≤ line.ret ∧ env.isInteresting path = true then
        some ⟨pad.tree.resolve (env.replayedPath path), decide (OpenFlag.oDirectory ∈ flags)⟩
      else
        none
  | _ => none

/-- The descriptor table of a process, and the part of it that the parser
could follow: a descriptor that is duplicated onto itself is lost. -/
structure SyncTables where
  table : Descriptors (Option OpenedPath)
  known : Descriptors (Option OpenedPath)

namespace SyncTables

/-- A process with the descriptors that it has inherited. -/
def start (inherited : ℤ → Bool) : SyncTables where
  table fd := if inherited fd then some none else none
  known fd := if inherited fd then some none else none

variable (env : ParserEnv) (pad : Scratchpad) (line : Line)

def callOf : DescriptorCall (Option OpenedPath) :=
  line.descriptorCall (some (line.openedPath? env pad))

def next (tables : SyncTables) : SyncTables where
  table := (callOf env pad line).apply tables.table
  known := (followed (callOf env pad line)).apply tables.known

end SyncTables

/-- The tracker watches the descriptors that the parser follows, with the
inodes of their files. -/
structure Watches (tracker : ProcessTracker) (tables : SyncTables) : Prop where
  inodes : tracker.fdtracker.table.view
      (fun number => tracker.fdtracker.inodes[number]?) =
    tables.known.view watchedInode
  bound : ∀ fd number, tracker.fdtracker.table fd = some number →
    number < tracker.fdtracker.inodes.length
  within : tables.known.Within tables.table
  terminal : tracker.stdtracker.isWatched 1 = true

section

variable
  {env : ParserEnv} {state after : ParserState} {line : Line}
  {ops : List MicroOpKind} {tracker : ProcessTracker} {tables : SyncTables}
  {pad : Scratchpad} {fd : ℤ}

theorem watches_init (inherited : ℤ → Bool) : Watches .init (.start inherited) := by
  refine ⟨?_, ?_, fun fd target held => held, rfl⟩
  · funext fd
    simp only [SyncTables.start, Descriptors.view]
    split_ifs <;> rfl
  · intro fd number held
    cases held

theorem watchedInode_openedPath? : watchedInode (line.openedPath? env pad) =
      (line.watchedPath? env).bind fun path =>
        pad.tree.resolve (env.replayedPath path) := by
  have opening : ∀ (path : Path) (flags : List OpenFlag), watchedInode
          (if 0 ≤ line.ret ∧ env.isInteresting path = true then
            some ⟨pad.tree.resolve (env.replayedPath path), decide (OpenFlag.oDirectory ∈ flags)⟩
          else
            none) =
        (if 0 ≤ line.ret ∧ env.isInteresting path = true ∧ OpenFlag.oDirectory ∉ flags then
          some path
        else
          none).bind fun path =>
            pad.tree.resolve (env.replayedPath path) := by
    intro path flags
    by_cases interesting : 0 ≤ line.ret ∧ env.isInteresting path = true
    · by_cases dir : OpenFlag.oDirectory ∈ flags
      · simp [watchedInode, interesting, dir]
      · simp [watchedInode, interesting, dir]
    · rw [if_neg interesting, if_neg fun all => interesting ⟨all.1, all.2.1⟩]
      rfl
  unfold Line.openedPath? Line.watchedPath?
  cases line.call with
  | openFile path flags mode | openat path flags mode => exact opening path flags
  | _ => rfl

theorem Watches.free (watches : Watches tracker tables) (unknown : tables.known fd = none) :
    tracker.fdtracker.table fd = none := by
  cases held : tracker.fdtracker.table fd with
  | none => rfl
  | some number =>
    have seen := congrFun watches.inodes fd
    rw [Descriptors.view, Descriptors.view, held, unknown,
      Option.bind_some, List.getElem?_eq_getElem (watches.bound fd number held)] at seen
    cases seen

theorem Watches.untaken (watches : Watches tracker tables)
    (allowed : (SyncTables.callOf env pad line).Allowed tables.table)
    (takes : (line.descriptorCall (none : Option ℕ)).taken = some fd) :
    tracker.fdtracker.table fd = none := by
  apply watches.free
  apply watches.within.free
  apply allowed.free
  rw [← takes]
  exact line.taken_descriptorCall _ _

theorem Watches.next (watches : Watches state.tracker tables)
    (redirected : Redirected env state line after) :
    Watches after.tracker (tables.next env after.pad line) := by
  obtain ⟨opened, inodes, leads⟩ := redirected.inodes
  have target : ((line.watchedPath? env).bind fun _ => opened.head?) =
      watchedInode (line.openedPath? env after.pad) := by
    rw [watchedInode_openedPath?]
    cases isPath : line.watchedPath? env with
    | none => rfl
    | some path =>
      rw [isPath] at leads
      have first := congrArg List.head? leads
      rw [List.head?_map] at first
      cases head : opened.head? with
      | none =>
        rw [head] at first
        cases first
      | some ino =>
        rw [head] at first
        exact Option.some.inj first
  refine ⟨?_, ?_, within_followed watches.within _, redirected.terminal⟩
  · rw [redirected.table, inodes, Line.view_followed_apply line
      watches.bound, watches.inodes, target, SyncTables.next,
      Descriptors.view_apply, view_followed, SyncTables.callOf, Line.view_descriptorCall]
    rfl
  · intro fd number held
    rw [redirected.table] at held
    rw [inodes]
    refine Line.lt_length_of_followed_apply line watches.bound ?_ held
    rintro isOpened rfl
    cases isPath : line.watchedPath? env with
    | none => exact isOpened isPath
    | some path =>
      rw [isPath] at leads
      cases leads

/-- The descriptor of a description that was made without `O_DIRECTORY` is
watched, unless it was lost. -/
theorem Watches.details_iff {ino : Ino} {dir : Bool} (watches : Watches tracker tables)
    (refers : tables.table fd = some (some ⟨some ino, dir⟩)) :
    (∃ details, tracker.fdtracker.details fd = .ok details ∧ details.inode = ino) ↔
      dir = false ∧ tables.known fd ≠ none := by
  have seen := congrFun watches.inodes fd
  rw [Descriptors.view, Descriptors.view] at seen
  have isInode : (∃ details, tracker.fdtracker.details fd = .ok details ∧ details.inode = ino) ↔
        (tracker.fdtracker.table fd).bind
          (fun number => tracker.fdtracker.inodes[number]?) = some ino := by
    simp only [FileDescriptorTracker.details_eq_ok_iff, Option.bind_eq_some_iff,
      FileDescriptorTracker.inodes, List.getElem?_map, Option.map_eq_some_iff]
    constructor
    · rintro ⟨details, ⟨number, held, lookup⟩, same⟩
      exact ⟨number, held, details, lookup, same⟩
    · rintro ⟨number, held, details, lookup, same⟩
      exact ⟨details, ⟨number, held, lookup⟩, same⟩
  rw [isInode, seen]
  cases known : tables.known fd with
  | none => simp
  | some target =>
    have same := watches.within fd target known
    rw [refers, Option.some.injEq] at same
    subst same
    cases dir <;> simp [watchedInode]

end

/-! ## Whole traces -/

namespace TraceRow

variable (env : SystemEnv) (pad : Scratchpad) (row : TraceRow)

def syncChange (tables : SyncTables) : SyncTables :=
  match row.line? with
  | some line => tables.next env.host pad line
  | none => tables

def SyncAllowed (tables : Processes SyncTables) : Prop :=
  ∀ line ∈ row.line?, ∀ files, tables.stateOf row.tid = some files →
    (SyncTables.callOf env.host pad line).Allowed files.table

end TraceRow

/-- A trace of any calls but `execve`, in any order, that has been translated
and that is possible in the tables of the processes. -/
inductive SyncRun (env : SystemEnv) (inherited : ℤ → ℤ → Bool) (pad : Scratchpad) :
    List TraceRow → ParserSystem → Processes SyncTables → Prop where
  | start : SyncRun env inherited pad [] (.init pad) .empty
  | row {rows : List TraceRow} {system after : ParserSystem}
      {tables : Processes SyncTables} {row : TraceRow}
      {ops : List MicroOpKind}
      (run : SyncRun env inherited pad rows system tables)
      (notExecve : row.call ≠ .execve)
      (served : row.Served env system.pad)
      (allowed : row.SyncAllowed env after.pad
        (tables.enter (.start (inherited row.tid)) row.tid))
      (ran : system.translate env row = .ok (after, ops)) :
      SyncRun env inherited pad (rows ++ [row]) after
        (tablesAfter row (row.syncChange env after.pad)
          (tables.enter (.start (inherited row.tid)) row.tid))

section

variable {env : SystemEnv} {inherited : ℤ → ℤ → Bool} {pad : Scratchpad}
  {rows : List TraceRow} {system : ParserSystem}
  {tables : Processes SyncTables} {row : TraceRow}

theorem watches_of_run (sound : pad.Sound) (run : SyncRun env inherited pad rows system tables) :
    Beside env Watches system tables ∧ system.pad.Sound := by
  induction run with
  | start => exact ⟨.init env pad, sound⟩
  | @row rows system after tables row ops _ notExecve served allowed ran ih =>
    obtain ⟨beside, padSound⟩ := ih
    refine ⟨beside.translate (watches_init (inherited row.tid)) notExecve
      ?_ ran, (ParserSystem.rowOutcome_of_translate padSound served ran).advances.sound⟩
    intro call process files state emitted isPlain isTable watches emits samePad
    have isLine : row.line? = some ⟨call, row.ret, row.fresh, row.uuid⟩ := by
      rw [TraceRow.line?, isPlain]
    have redirected := redirected_of_emit watches.terminal
      (fun fd takes => watches.untaken (allowed _ isLine files isTable) takes) emits
    rw [TraceRow.syncChange, isLine, samePad]
    exact Watches.next watches ⟨redirected.table, redirected.inodes, redirected.terminal⟩

end

def directoryOpened : TraceRow :=
  ⟨100, .plain (.openFile ["workload"] [.oDirectory] none), 3, 0, ""⟩

end Alice
