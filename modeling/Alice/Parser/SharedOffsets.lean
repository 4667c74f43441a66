import Alice.Parser.FailedCalls
import Alice.Parser.Offsets

/-! # Offsets after a fork

A forked process shares the open file descriptions of its parent, but the
parser gives it a copy of the tracker.  The position of a process is right as
long as what the other has moved, since its own last seek, adds up to
nothing. -/

namespace Alice

open Checked FileDescriptorTracker
open Posix (Path DescriptorCall)

/-! ## The shared description -/

/-- The calls that move the offset through the given descriptor. -/
def Line.MovesThrough (fd : ℤ) (line : Line) : Prop :=
  match line.call with
  | .write other _ _ | .writev other _ _ _ | .lseek other => other = fd
  | _ => False

def Line.sought (line : Line) : Bool :=
  match line.call with
  | .lseek _ => decide (line.ret ≠ -1)
  | _ => false

/-- An open file description and the size of its file. -/
structure SharedFile where
  append : Bool
  offset : ℕ
  size : ℕ

namespace SharedFile

def begins (file : SharedFile) : ℕ :=
  if file.append then file.size else file.offset

/-- What the kernel does.  An empty or failed write moves nothing. -/
def next (file : SharedFile) (line : Line) : SharedFile :=
  match line.call with
  | .lseek _ =>
      if line.ret = -1 then file else { file with offset := line.ret.toNat }
  | _ =>
      if 0 < line.ret then
        { file with
          offset := file.begins + line.ret.toNat
          size := max file.size (file.begins + line.ret.toNat) }
      else
        file

theorem begins_next_of_seek {line : Line} (file : SharedFile) (sought : line.sought = false)
    {fd : ℤ} (isSeek : line.call = .lseek fd) : (file.next line).begins = file.begins := by
  have failed : line.ret = -1 := by simpa [Line.sought, isSeek] using sought
  simp [next, isSeek, failed]

theorem begins_next_of_write {line : Line} {args : WriteArgs} (file : SharedFile)
    (isWrite : line.call.writeArgs? = some args) (returned : line.ret = args.count) :
    (file.next line).begins = file.begins + args.count := by
  have notSeek : ∀ fd, line.call ≠ .lseek fd := by
    intro fd isSeek
    rw [isSeek] at isWrite
    cases isWrite
  have unfolded : file.next line =
      if 0 < line.ret then
        { file with
          offset := file.begins + line.ret.toNat
          size := max file.size (file.begins + line.ret.toNat) }
      else
        file := by
    unfold next
    split
    · rename_i fd isSeek
      exact absurd isSeek (notSeek fd)
    · rfl
  rw [unfolded, returned]
  by_cases empty : args.count = 0
  · simp [empty]
  · have positive : (0 : ℤ) < args.count := by omega
    rw [if_pos positive]
    cases appends : file.append with
    | true => simp [begins, appends]
    | false => simp [begins, appends]

end SharedFile

/-- A description that several processes share, and for each of them the sum
of the movements that others have made since its own last seek. -/
structure Shared where
  file : SharedFile
  lag : ℤ → ℤ

namespace Shared

/-- The description as it is opened.  With `O_APPEND` the parser takes the
size that the scratchpad has for the file, whatever the file has. -/
def opened (flags : List OpenFlag) (size padSize : ℕ) : Shared where
  file := ⟨decide (OpenFlag.oAppend ∈ flags), 0, size⟩
  lag _ := if OpenFlag.oAppend ∈ flags then (size : ℤ) - padSize else 0

/-- A call of the thread `mover`. -/
def next (shared : Shared) (mover : ℤ) (line : Line) : Shared where
  file := shared.file.next line
  lag who :=
    if who = mover then
      if line.sought then
        ((shared.file.next line).begins : ℤ) - line.ret.toNat
      else
        shared.lag who
    else
      shared.lag who + (((shared.file.next line).begins : ℤ) - shared.file.begins)

/-- The child has seen what its parent has seen. -/
def fork (shared : Shared) (parent child : ℤ) : Shared :=
  { shared with
    lag := Function.update shared.lag child (shared.lag parent) }

end Shared

/-! ## Trackers that hold the descriptor -/

/-- The thread has the tracker of the given number, with this state of the
descriptor. -/
structure Keeps (system : ParserSystem) (fd tid : ℤ) (number : ℕ) (details : FdDetails) : Prop where
  known : system.trackersMap.lookup tid = some (some number)
  process : ∃ process, system.processes[number]? = some process ∧
    (process.pid = tid ∨ tid ∈ process.childTids) ∧
    process.tracker.fdtracker.details fd = .ok details

def Line.row (tid : ℤ) (line : Line) : TraceRow :=
  ⟨tid, .plain line.call, line.ret, line.fresh, line.uuid⟩

section

variable {env : SystemEnv} {system after : ParserSystem} {fd tid : ℤ}
  {number : ℕ} {details : FdDetails} {line : Line} {ops : List MicroOpKind}

theorem Keeps.tracked (holds : Keeps system fd tid number details) (env : SystemEnv) :
    ∃ process, system.getProctracker env tid = .ok (system, number, process) ∧
      system.processes[number]? = some process ∧ (process.pid = tid ∨ tid ∈ process.childTids) ∧
      process.tracker.fdtracker.details fd = .ok details := by
  rcases holds.process with ⟨process, lookup, own, found⟩
  refine ⟨process, ?_, lookup, own, found⟩
  simp only [ParserSystem.getProctracker, holds.known, lookup, if_pos own]

theorem Keeps.number_lt (holds : Keeps system fd tid number details) :
    number < system.processes.length := by
  rcases holds.process with ⟨process, lookup, -⟩
  exact (List.getElem?_eq_some_iff.1 lookup).1

theorem Keeps.translate (holds : Keeps system fd tid number details)
    (ran : system.translate env (line.row tid) = .ok (after, ops)) : ∃ process state,
      (process.pid = tid ∨ tid ∈ process.childTids) ∧
      process.tracker.fdtracker.details fd = .ok details ∧
      emit (env.forThread tid) (system.stateOf process) line = .ok (state, ops) ∧
      after = system.withState number process state := by
  rcases holds.tracked env with ⟨process, tracked, -, own, found⟩
  rw [ParserSystem.translate, Line.row, tracked, ok_bind] at ran
  rcases map_eq_ok_iff.1 ran with ⟨⟨state, emitted⟩, emits, equal⟩
  cases equal
  exact ⟨process, state, own, found, emits, rfl⟩

variable {process : TracedProcess}

theorem Keeps.withState (holds : Keeps system fd tid number details) {state : ParserState}
    {moved : FdDetails} (own : process.pid = tid ∨ tid ∈ process.childTids)
    (found : state.tracker.fdtracker.details fd = .ok moved) :
    Keeps (system.withState number process state) fd tid number moved := by
  refine ⟨holds.known, { process with tracker := state.tracker }, ?_, own, found⟩
  exact List.getElem?_set_self holds.number_lt

theorem Keeps.other (holds : Keeps system fd tid number details) {other : ℕ}
    (different : other ≠ number) (process : TracedProcess) (state : ParserState) :
    Keeps (system.withState other process state) fd tid number details := by
  rcases holds.process with ⟨own, lookup, rest⟩
  refine ⟨holds.known, own, ?_, rest⟩
  rw [← lookup]
  exact List.getElem?_set_ne different

/-- The threads that are there when a process is forked are no children of
the fork. -/
theorem Keeps.ne_forked (holds : Keeps system fd tid number details) {child : ℤ}
    (forked : system.recordFork process child = .ok after) : tid ≠ child := by
  intro equal
  rcases bind_eq_ok_iff.1 forked with ⟨⟨⟩, new, -⟩
  have absent : child ∉ system.trackersMap := assertThat_eq_ok_iff.1 new
  have known := holds.known
  rw [equal, AList.lookup_eq_none.2 absent] at known
  cases known

theorem Keeps.forked
    (holds : Keeps system fd tid number details) {process : TracedProcess} {child : ℤ}
    (forked : system.recordFork process child = .ok after) :
    Keeps after fd tid number details := by
  have different := holds.ne_forked forked
  rcases bind_eq_ok_iff.1 forked with ⟨⟨⟩, -, forked⟩
  cases forked
  rcases holds.process with ⟨held, lookup, rest⟩
  refine ⟨(AList.lookup_insert_ne different).trans holds.known, held, ?_, rest⟩
  exact (List.getElem?_append_left holds.number_lt).trans lookup

/-- The child starts with the descriptors of its parent. -/
theorem keeps_child {child : ℤ} (found : process.tracker.fdtracker.details fd = .ok details)
    (forked : system.recordFork process child = .ok after) :
    Keeps after fd child system.processes.length details := by
  rcases bind_eq_ok_iff.1 forked with ⟨⟨⟩, -, forked⟩
  cases forked
  exact ⟨AList.lookup_insert _, { process with pid := child, childTids := [] },
    List.getElem?_concat_length, Or.inl rfl, found⟩

end

/-! ## The position of one process -/

section

variable {env : ParserEnv} {state after : ParserState} {fd : ℤ}
  {details : FdDetails} {line : Line} {ops : List MicroOpKind}

theorem details_of_moved {pos : ℕ} (moved : ParserState.Moved state after fd (some pos))
    (found : state.tracker.fdtracker.details fd = .ok details) :
    after.tracker.fdtracker.details fd = .ok { details with pos := pos } := by
  rcases details_eq_ok_iff.1 found with
    ⟨number, held, lookup⟩
  apply details_eq_ok_iff.2
  refine ⟨number, ?_, ?_⟩
  · rw [moved.table, held]
  · rw [moved.structs, held]
    simp [lookup]

theorem details_of_unmoved (moved : ParserState.Moved state after fd none)
    (found : state.tracker.fdtracker.details fd = .ok details) :
    after.tracker.fdtracker.details fd = .ok details := by
  rcases details_eq_ok_iff.1 found with
    ⟨number, held, lookup⟩
  apply details_eq_ok_iff.2
  refine ⟨number, ?_, ?_⟩
  · rw [moved.table, held]
  · rw [moved.structs]
    exact lookup

/-- The position moves as the beginning of the next write does. -/
theorem details_of_write {args : WriteArgs} (isWrite : line.call.writeArgs? = some args)
    (sequential : args.position = none) (notAlias : (args.fd, 1) ∉ state.myTracker)
    (found : state.tracker.fdtracker.details args.fd = .ok details)
    (ran : emit env state line = .ok (after, ops)) (file : SharedFile) :
    ∃ moved, after.tracker.fdtracker.details args.fd = .ok moved ∧
      (moved.pos : ℤ) = (details.pos : ℤ) + (((file.next line).begins : ℤ) - file.begins) := by
  rcases emit_write_spec isWrite ran with ⟨hidden, -⟩ | translated
  · rcases hidden with aliased | unwatched
    · exact absurd aliased notAlias
    · have watched := ParserState.isWatched_of_details found
      rw [isWatched_eq_false_iff.2 unwatched] at watched
      cases watched
  · rcases translated with ⟨details', stat, -, found', written, moved⟩
    rw [found] at found'
    cases found'
    rw [if_pos sequential] at moved
    refine ⟨_, details_of_moved moved found, ?_⟩
    rw [file.begins_next_of_write isWrite written.ret_eq]
    simp [WriteArgs.pos, sequential]

/-- The same for all calls through the descriptor, except that a seek sets the
position. -/
theorem details_of_emit (moves : line.MovesThrough fd) (notAlias : (fd, 1) ∉ state.myTracker)
    (found : state.tracker.fdtracker.details fd = .ok details)
    (ran : emit env state line = .ok (after, ops)) (file : SharedFile) :
    ∃ moved, after.tracker.fdtracker.details fd = .ok moved ∧ (moved.pos : ℤ) =
        if line.sought then
          (line.ret.toNat : ℤ)
        else
          (details.pos : ℤ) + (((file.next line).begins : ℤ) - file.begins) := by
  have watched := ParserState.isWatched_of_details found
  unfold Line.MovesThrough at moves
  cases call : line.call with
  | write other count dump | writev other iovcnt count dump =>
    rw [call] at moves
    have same : other = fd := moves
    subst same
    have notSought : line.sought = false := by simp [Line.sought, call]
    rw [notSought]
    exact details_of_write (congrArg Call.writeArgs? call) rfl notAlias found ran file
  | lseek other =>
    rw [call] at moves
    have same : other = fd := moves
    subst same
    unfold emit at ran
    rw [call] at ran
    have moved := ParserState.lseekBranch_spec ran
    cases sought : line.sought with
    | true =>
      have succeeded : line.ret ≠ -1 := by simpa [Line.sought, call] using sought
      rw [if_pos ⟨succeeded, watched⟩] at moved
      exact ⟨_, details_of_moved moved found, rfl⟩
    | false =>
      have failed : line.ret = -1 := by simpa [Line.sought, call] using sought
      rw [if_neg (by simp [failed])] at moved
      refine ⟨_, details_of_unmoved moved found, ?_⟩
      rw [file.begins_next_of_seek sought call]
      simp
  | _ =>
    rw [call] at moves
    exact moves.elim

theorem myTracker_of_emit (moves : line.MovesThrough fd)
    (ran : emit env state line = .ok (after, ops)) : after.myTracker = state.myTracker := by
  have written : ∀ args, line.call.writeArgs? = some args → after.myTracker = state.myTracker := by
    intro args isWrite
    rcases emit_write_spec isWrite ran with ⟨-, same⟩ | translated
    · rw [same]
    · rcases translated with ⟨details', stat, -, -, -, moved⟩
      exact moved.terminal.myTracker
  unfold Line.MovesThrough at moves
  cases call : line.call with
  | write | writev => exact written _ (congrArg Call.writeArgs? call)
  | lseek other =>
    unfold emit at ran
    rw [call] at ran
    exact (ParserState.lseekBranch_spec ran).terminal.myTracker
  | _ =>
    rw [call] at moves
    exact moves.elim

end

def ParserSystem.sizeAt (env : SystemEnv) (system : ParserSystem) (path : Path) : ℕ :=
  ((system.pad.replayedStat env.host.dirStat (env.host.replayedPath path)).map Stat.size).getD 0

theorem details_of_open {env : ParserEnv} {state after : ParserState} {line : Line} {name : Path}
    {flags : List OpenFlag} {mode : Option String} {ops : List MicroOpKind}
    (interesting : env.isInteresting name = true)
    (succeeded : 0 ≤ line.ret ∧ OpenFlag.oDirectory ∉ flags)
    (ran : state.openBranch env line name flags mode = .ok (after, ops)) : ∃ details,
      after.tracker.fdtracker.details line.ret = .ok details ∧ details.pos =
        if OpenFlag.oAppend ∈ flags then
          ((after.stat? env name).map Stat.size).getD 0
        else
          0 := by
  obtain ⟨_, _, stat, truncated, _, pos, fds, -, -, -, posEq, mapped, isAfter⟩ :=
    ParserState.steps_of_openBranch interesting succeeded ran
  cases isAfter
  have spec := newFdMapping_ok mapped
  refine ⟨⟨name, pos, ParserState.openAttribs flags, stat.ino⟩, ?_, ?_⟩
  · apply details_eq_ok_iff.2
    refine ⟨truncated.tracker.fdtracker.structs.length, ?_, ?_⟩
    · change fds.table line.ret = _
      rw [spec.2.1, DescriptorCall.apply, Function.update_self]
    · change fds.structs[_]? = _
      rw [spec.2.2]
      simp
  · simp only [ParserState.openPos] at posEq
    split_ifs at posEq ⊢
    · rcases map_eq_ok_iff.1 posEq with ⟨found, statEq, sizeEq⟩
      have sameStat : (truncated.withFds fds).stat? env name = some found := stat_eq_ok_iff.1 statEq
      rw [sameStat, ← sizeEq]
      rfl
    · exact (Except.ok.inj posEq).symm

/-! ## All processes that share the description -/

/-- Each of the threads has a tracker of its own for the description, and the
movements of the others are what its position lacks. -/
structure Sharing (system : ParserSystem) (fd : ℤ) (shared : Shared) (numbers : ℤ → ℕ)
    (sides : List ℤ) : Prop where
  keeps : ∀ tid ∈ sides, ∃ details,
    Keeps system fd tid (numbers tid) details ∧
      (details.pos : ℤ) + shared.lag tid = shared.file.begins
  apart : ∀ tid ∈ sides, ∀ other ∈ sides, numbers tid = numbers other → tid = other

section

variable {env : SystemEnv} {system after : ParserSystem} {fd : ℤ}
  {shared : Shared} {numbers : ℤ → ℕ} {sides : List ℤ} {line : Line}
  {ops : List MicroOpKind}

theorem myTracker_of_translate {mover : ℤ} (moves : line.MovesThrough fd)
    (ran : system.translate env (line.row mover) = .ok (after, ops)) :
    after.myTracker = system.myTracker := by
  rcases bind_eq_ok_iff.1 ran with ⟨⟨found, number, process⟩, tracked, ran⟩
  rcases map_eq_ok_iff.1 ran with ⟨⟨state, emitted⟩, emits, equal⟩
  cases equal
  have same := myTracker_of_emit moves emits
  rw [← (ParserSystem.tracked_of_getProctracker tracked).myTracker]
  exact same

theorem Sharing.next (sharing : Sharing system fd shared numbers sides) {mover : ℤ}
    (member : mover ∈ sides) (moves : line.MovesThrough fd) (notAlias : (fd, 1) ∉ system.myTracker)
    (ran : system.translate env (line.row mover) = .ok (after, ops)) :
    Sharing after fd (shared.next mover line) numbers sides := by
  rcases sharing.keeps mover member with ⟨details, kept, agrees⟩
  rcases kept.translate ran with
    ⟨process, state, own, found, emits, equal⟩
  subst equal
  refine ⟨?_, sharing.apart⟩
  intro tid tidMember
  by_cases same : tid = mover
  · subst same
    rcases details_of_emit moves notAlias found emits shared.file with
      ⟨moved, movedFound, movedPos⟩
    refine ⟨moved, kept.withState own movedFound, ?_⟩
    simp only [Shared.next, if_true]
    rw [movedPos]
    split_ifs <;> omega
  · rcases sharing.keeps tid tidMember with ⟨other, otherKept, otherAgrees⟩
    have different : numbers mover ≠ numbers tid := by
      intro equal
      exact same (sharing.apart mover member tid tidMember equal).symm
    refine ⟨other, otherKept.other different process state, ?_⟩
    simp only [Shared.next, if_neg same]
    omega

/-- The row makes a process that is no thread of its parent. -/
def TraceRow.Forks (row : TraceRow) : Prop :=
  row.ret ≠ -1 ∧ (row.call = .vfork ∨ ∃ flags, row.call = .clone flags ∧ flags.vm = false)

theorem recordFork_of_translate {row : TraceRow} (forks : row.Forks)
    (ran : system.translate env row = .ok (after, ops)) : ∃ found number process,
      system.getProctracker env row.tid = .ok (found, number, process) ∧
      found.recordFork process row.ret = .ok after := by
  rcases bind_eq_ok_iff.1 ran with ⟨⟨found, number, process⟩, tracked, ran⟩
  refine ⟨found, number, process, tracked, ?_⟩
  unfold ParserSystem.translateCall at ran
  rcases forks with ⟨succeeded, isVfork | ⟨flags, isClone, notThread⟩⟩
  · rw [isVfork] at ran
    rcases map_eq_ok_iff.1 ran with ⟨forked, forking, equal⟩
    cases equal
    rw [ParserSystem.vforkBranch, if_pos succeeded] at forking
    exact forking
  · rw [isClone] at ran
    rcases map_eq_ok_iff.1 ran with ⟨forked, forking, equal⟩
    cases equal
    simp only [ParserSystem.cloneBranch, if_pos succeeded, notThread,
      Bool.false_eq_true, if_false] at forking
    rcases bind_eq_ok_iff.1 forking with ⟨-, -, forking⟩
    rcases bind_eq_ok_iff.1 forking with ⟨-, -, forking⟩
    exact forking

theorem myTracker_of_fork {row : TraceRow} (forks : row.Forks)
    (ran : system.translate env row = .ok (after, ops)) : after.myTracker = system.myTracker := by
  rcases recordFork_of_translate forks ran with
    ⟨found, number, process, tracked, forked⟩
  rcases bind_eq_ok_iff.1 forked with ⟨-, -, forked⟩
  cases forked
  exact (ParserSystem.tracked_of_getProctracker tracked).myTracker

theorem Sharing.fork (sharing : Sharing system fd shared numbers sides) {row : TraceRow}
    (member : row.tid ∈ sides) (forks : row.Forks)
    (ran : system.translate env row = .ok (after, ops)) :
    Sharing after fd (shared.fork row.tid row.ret)
      (Function.update numbers row.ret system.processes.length) (row.ret :: sides) := by
  rcases recordFork_of_translate forks ran with
    ⟨found, number, process, tracked, forked⟩
  rcases sharing.keeps row.tid member with ⟨details, kept, agrees⟩
  rcases kept.tracked env with ⟨process', same, -, -, fdFound⟩
  rw [same] at tracked
  cases tracked
  have old : ∀ tid ∈ sides, tid ≠ row.ret := by
    intro tid tidMember
    rcases sharing.keeps tid tidMember with ⟨other, otherKept, -⟩
    exact otherKept.ne_forked forked
  have inside : ∀ tid ∈ sides, numbers tid < system.processes.length := by
    intro tid tidMember
    rcases sharing.keeps tid tidMember with ⟨other, otherKept, -⟩
    exact otherKept.number_lt
  refine ⟨?_, ?_⟩
  · intro tid tidMember
    rcases List.mem_cons.1 tidMember with isChild | isOld
    · subst isChild
      simp only [Shared.fork, Function.update_self]
      exact ⟨details, keeps_child fdFound forked, agrees⟩
    · rcases sharing.keeps tid isOld with ⟨other, otherKept, otherAgrees⟩
      simp only [Shared.fork, Function.update_of_ne (old tid isOld)]
      exact ⟨other, otherKept.forked forked, otherAgrees⟩
  · intro tid tidMember other otherMember equal
    rcases List.mem_cons.1 tidMember with isChild | isOld
    · rcases List.mem_cons.1 otherMember with isChild' | isOld'
      · rw [isChild, isChild']
      · rw [isChild, Function.update_self, Function.update_of_ne (old other isOld')] at equal
        have bounded := inside other isOld'
        omega
    · rcases List.mem_cons.1 otherMember with isChild' | isOld'
      · rw [isChild', Function.update_self, Function.update_of_ne (old tid isOld)] at equal
        have bounded := inside tid isOld
        omega
      · rw [Function.update_of_ne (old tid isOld),
          Function.update_of_ne (old other isOld')] at equal
        exact sharing.apart tid isOld other isOld' equal

theorem sharing_of_open {parent : ℤ} {call : Call} {path : Path} {flags : List OpenFlag}
    {mode : Option String} {fresh : Posix.Ino} {uuid : String}
    (isOpen : call = .openFile path flags mode ∨ call = .openat path flags mode)
    (interesting : env.host.isInteresting path = true)
    (succeeded : 0 ≤ fd ∧ OpenFlag.oDirectory ∉ flags)
    (ran : system.translate env ⟨parent, .plain call, fd, fresh, uuid⟩ = .ok (after, ops))
    (size : ℕ) : ∃ number, Sharing after fd
      (.opened flags size (after.sizeAt env path)) (fun _ => number) [parent] := by
  rcases bind_eq_ok_iff.1 ran with ⟨⟨found, number, process⟩, tracked, ran⟩
  have isTracked := ParserSystem.tracked_of_getProctracker tracked
  rcases map_eq_ok_iff.1 ran with ⟨⟨state, emitted⟩, emits, equal⟩
  rcases Prod.mk.inj equal with ⟨isAfter, -⟩
  have opens : (found.stateOf process).openBranch (env.forThread parent)
      ⟨call, fd, fresh, uuid⟩ path flags mode = .ok (state, emitted) := by
    unfold emit at emits
    rcases isOpen with isOpen | isOpen <;> simpa [isOpen] using emits
  have inWorkload : (env.forThread parent).isInteresting path = true := interesting
  rcases details_of_open inWorkload succeeded opens with
    ⟨details, fdFound, posEq⟩
  have sameSize : ((state.stat? (env.forThread parent) path).map Stat.size).getD 0 =
        after.sizeAt env path := by
    rw [← isAfter]
    rfl
  rcases List.getElem?_eq_some_iff.1 isTracked.lookup with ⟨inside, -⟩
  refine ⟨number, ?_, ?_⟩
  · intro tid member
    rw [List.mem_singleton.1 member]
    have kept : Keeps after fd parent number details := by
      rw [← isAfter]
      exact ⟨isTracked.known, { process with tracker := state.tracker },
        List.getElem?_set_self inside, isTracked.own, fdFound⟩
    refine ⟨details, kept, ?_⟩
    rw [posEq]
    simp only [Shared.opened, SharedFile.begins, decide_eq_true_eq]
    split_ifs
    · omega
    · simp
  · intro tid member other otherMember _
    rw [List.mem_singleton.1 member, List.mem_singleton.1 otherMember]

end

/-! ## Whole traces -/

/-- A trace in which a process opens a file of the given size, and it and its
descendants fork, write and seek through the descriptor, in any order.  What
has been translated before is arbitrary. -/
inductive SharedRun (env : SystemEnv) (fd : ℤ) (size : ℕ) :
    List TraceRow → ParserSystem → Shared → List ℤ → Prop where
  | opened {system after : ParserSystem} {parent : ℤ} {call : Call}
      {path : Path} {flags : List OpenFlag} {mode : Option String}
      {fresh : Posix.Ino} {uuid : String} {ops : List MicroOpKind}
      (isOpen : call = .openFile path flags mode ∨
        call = .openat path flags mode)
      (interesting : env.host.isInteresting path = true)
      (succeeded : 0 ≤ fd ∧ OpenFlag.oDirectory ∉ flags)
      (ran : system.translate env ⟨parent, .plain call, fd, fresh, uuid⟩ =
        .ok (after, ops)) :
      SharedRun env fd size [⟨parent, .plain call, fd, fresh, uuid⟩] after
        (.opened flags size (after.sizeAt env path)) [parent]
  | moved {rows : List TraceRow} {system after : ParserSystem}
      {shared : Shared} {sides : List ℤ} {mover : ℤ} {line : Line}
      {ops : List MicroOpKind}
      (run : SharedRun env fd size rows system shared sides)
      (member : mover ∈ sides) (moves : line.MovesThrough fd)
      (ran : system.translate env (line.row mover) = .ok (after, ops)) :
      SharedRun env fd size (rows ++ [line.row mover]) after
        (shared.next mover line) sides
  | forked {rows : List TraceRow} {system after : ParserSystem}
      {shared : Shared} {sides : List ℤ} {row : TraceRow}
      {ops : List MicroOpKind}
      (run : SharedRun env fd size rows system shared sides)
      (member : row.tid ∈ sides) (forks : row.Forks)
      (ran : system.translate env row = .ok (after, ops)) :
      SharedRun env fd size (rows ++ [row]) after
        (shared.fork row.tid row.ret) (row.ret :: sides)

theorem sharing_of_run {env : SystemEnv} {fd : ℤ} {size : ℕ} {rows : List TraceRow}
    {system : ParserSystem} {shared : Shared} {sides : List ℤ}
    (run : SharedRun env fd size rows system shared sides) (notAlias : (fd, 1) ∉ system.myTracker) :
    ∃ numbers, Sharing system fd shared numbers sides := by
  induction run with
  | opened isOpen interesting succeeded ran =>
    rcases sharing_of_open isOpen interesting succeeded ran size with
      ⟨number, sharing⟩
    exact ⟨_, sharing⟩
  | moved _ member moves ran ih =>
    rw [myTracker_of_translate moves ran] at notAlias
    rcases ih notAlias with ⟨numbers, sharing⟩
    exact ⟨numbers, sharing.next member moves notAlias ran⟩
  | forked _ member forks ran ih =>
    rw [myTracker_of_fork forks ran] at notAlias
    rcases ih notAlias with ⟨numbers, sharing⟩
    exact ⟨_, sharing.fork member forks ran⟩

def forkRow : TraceRow :=
  ⟨100, .vfork, 101, 0, ""⟩

end Alice
