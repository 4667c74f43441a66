import Alice.Parser.DescriptorTables

/-! # File offsets

The parser moves a position with the writes and seeks that it translates.  It
does not see reads, nor what is done through descriptors that it has lost or
takes for the terminal.  The position is right as long as what was not seen,
since the last seek that was, adds up to nothing. -/

namespace Alice

open Checked ParserState
open Posix (Path Descriptors DescriptorCall)

/-! ## Offsets of operations -/

/-- The writes and appends lie one after the other from the given offset on,
and a range is synced right after it is written. -/
def OffsetsFrom : ℕ → List MicroOpKind → Prop
  | _, [] => True
  | offset, .write range :: rest =>
      range.offset = offset ∧ OffsetsFrom (offset + range.count) rest
  | offset, .append range :: rest =>
      range.offset = offset ∧ OffsetsFrom (offset + range.count) rest
  | offset, .fileSyncRange _ start count :: rest =>
      start + count = offset ∧ OffsetsFrom offset rest
  | offset, _ :: rest => OffsetsFrom offset rest

theorem offsetsFrom_splitOps (details : FdDetails) (dump : Dump) (pos count size : ℕ) :
    OffsetsFrom pos (splitOps details dump pos count size) := by
  by_cases starts : pos < size
  · simp only [splitOps, overwriteOps, gapOps, appendOps, syncedRange, if_pos starts]
    split_ifs <;> simp [OffsetsFrom]
  · have nothing : overwriteSize pos count size = 0 := by simp [overwriteSize, starts]
    simp only [splitOps, overwriteOps, gapOps, appendOps, syncedRange, if_neg starts, nothing]
    split_ifs <;> simp [OffsetsFrom]

/-- The first byte of a write that has one tells where it begins. -/
theorem eq_of_offsetsFrom_splitOps {details : FdDetails} {dump : Dump} {pos count size offset : ℕ}
    (nonempty : 0 < count) (lies : OffsetsFrom offset (splitOps details dump pos count size)) :
    pos = offset := by
  by_cases starts : pos < size
  · simp only [splitOps, overwriteOps, if_pos starts, List.append_assoc,
      List.cons_append, OffsetsFrom] at lies
    exact lies.1
  · have nothing : overwriteSize pos count size = 0 := by simp [overwriteSize, starts]
    have tail : max size pos < pos + count := by omega
    simp only [splitOps, overwriteOps, gapOps, appendOps, if_neg starts,
      nothing, Nat.add_zero, Nat.sub_zero, if_pos tail] at lies
    split_ifs at lies
    · exact lies.1
    · exact lies.1

theorem offsetsFrom_splitOps_iff {details : FdDetails} {dump : Dump} {pos count size offset : ℕ}
    (overwrites : pos < size → 0 < overwriteSize pos count size) :
    OffsetsFrom offset (splitOps details dump pos count size) ↔ count = 0 ∨ pos = offset := by
  constructor
  · intro lies
    by_cases empty : count = 0
    · exact Or.inl empty
    · exact Or.inr (eq_of_offsetsFrom_splitOps (Nat.pos_of_ne_zero empty) lies)
  · intro condition
    by_cases empty : count = 0
    · subst empty
      have atEnd : ¬ pos < size := by
        intro starts
        have bounded := overwriteSize_le pos 0 size
        omega
      have nothing : overwriteSize pos 0 size = 0 := by simp [overwriteSize, atEnd]
      have noTail : ¬ max size pos < pos := by omega
      simp only [splitOps, overwriteOps, gapOps, appendOps, if_neg atEnd,
        nothing, Nat.add_zero, Nat.sub_zero, if_neg noTail]
      split_ifs <;> simp [OffsetsFrom]
    · rw [← condition.resolve_left empty]
      exact offsetsFrom_splitOps details dump pos count size

/-! ## The open file descriptions of a process -/

/-- A line of the trace of one process.  Reads are innocent calls. -/
inductive FileEvent where
  | read (fd ret : ℤ)
  | call (line : Line)

/-- The rows of a trace: the lines of innocent calls are left out. -/
def visible (events : List FileEvent) : List Line :=
  events.filterMap fun
    | .read _ _ => none
    | .call line => some line

namespace FileEvent

def watchedPath? (env : ParserEnv) : FileEvent → Option Path
  | .read _ _ => none
  | .call line => line.watchedPath? env

def descriptorCall {δ : Type} (target : Option δ) : FileEvent → DescriptorCall δ
  | .read _ _ => .keeps
  | .call line => line.descriptorCall target

def stdoutAlias? : FileEvent → Option ℤ
  | .read _ _ => none
  | .call line => line.stdoutAlias?

/-- The descriptor through which an offset is moved. -/
def movedFd? : FileEvent → Option ℤ
  | .read fd _ => some fd
  | .call line =>
      match line.call with
      | .write fd _ _ | .writev fd _ _ _ => some fd
      | .lseek fd => if line.ret = -1 then none else some fd
      | _ => none

def seeks : FileEvent → Bool
  | .read _ _ => false
  | .call line =>
      match line.call with
      | .lseek _ => true
      | _ => false

/-- Where the offset is afterwards.  A failed read or write moves it
nowhere. -/
def newOffset (event : FileEvent) (offset : ℕ) : ℕ :=
  match event with
  | .read _ ret => offset + ret.toNat
  | .call line =>
      if event.seeks then line.ret.toNat else offset + line.ret.toNat

end FileEvent

/-- What the kernel keeps for a process: its descriptors, which refer to
numbered open file descriptions or to something else than a watched file, and
the offsets of the descriptions. -/
structure OpenFiles where
  table : Descriptors (Option ℕ)
  opened : ℕ
  offsets : ℕ → ℕ

/-- What the parser knows of it: the descriptors that it follows, those that
it takes for the terminal, and for each description the sum of the movements
that it has not seen since the last seek that it saw. -/
structure Sight where
  known : Descriptors (Option ℕ)
  aliases : List ℤ
  unseen : ℕ → ℤ

namespace OpenFiles

/-- A process with the descriptors that it has inherited. -/
def start (inherited : ℤ → Bool) : OpenFiles where
  table fd := if inherited fd then some none else none
  opened := 0
  offsets _ := 0

variable (env : ParserEnv) (files : OpenFiles) (event : FileEvent)

def target (fd : ℤ) : Option ℕ :=
  (files.table fd).join

/-- The call, with a new description for a file that is opened. -/
def callOf : DescriptorCall (Option ℕ) :=
  event.descriptorCall (some ((event.watchedPath? env).map fun _ => files.opened))

def next : OpenFiles where
  table := (files.callOf env event).apply files.table
  opened := files.opened + (event.watchedPath? env).toList.length
  offsets :=
    match event.movedFd?.bind files.target with
    | some number =>
        Function.update files.offsets number (event.newOffset (files.offsets number))
    | none =>
        if (event.watchedPath? env).isSome then
          Function.update files.offsets files.opened 0
        else
          files.offsets

end OpenFiles

namespace Sight

def start (inherited : ℤ → Bool) : Sight where
  known := (OpenFiles.start inherited).table
  aliases := []
  unseen _ := 0

variable (env : ParserEnv) (files : OpenFiles) (sight : Sight)
  (event : FileEvent)

def sees : Bool :=
  match event with
  | .read _ _ => false
  | .call line =>
      match line.call with
      | .write fd _ _ | .writev fd _ _ _ =>
          (sight.known fd).isSome && decide (fd ∉ sight.aliases)
      | .lseek fd => (sight.known fd).isSome
      | _ => false

def next : Sight where
  known := (followed (files.callOf env event)).apply sight.known
  aliases := event.stdoutAlias?.toList ++ sight.aliases
  unseen :=
    match event.movedFd?.bind files.target with
    | some number =>
        Function.update sight.unseen number (if sight.sees event then
            if event.seeks then 0 else sight.unseen number
          else
            sight.unseen number + (event.newOffset (files.offsets number) - files.offsets number))
    | none =>
        if (event.watchedPath? env).isSome then
          Function.update sight.unseen files.opened 0
        else
          sight.unseen

end Sight

/-! ## Positions and offsets -/

/-- The position that is kept for a description and the movements that were
not seen give its offset. -/
def PositionsAgree (structs : List FdDetails) (unseen : ℕ → ℤ) (offsets : ℕ → ℕ) : Prop :=
  ∀ number details, structs[number]? = some details →
    (details.pos : ℤ) + unseen number = offsets number

section

variable {structs : List FdDetails} {unseen : ℕ → ℤ} {offsets : ℕ → ℕ}

theorem PositionsAgree.missed (agree : PositionsAgree structs unseen offsets) (number offset : ℕ) :
    PositionsAgree structs (Function.update unseen number
        (unseen number + (offset - offsets number))) (Function.update offsets number offset) := by
  intro tested details found
  by_cases same : tested = number
  · subst same
    rw [Function.update_self, Function.update_self]
    have before := agree tested details found
    omega
  · rw [Function.update_of_ne same, Function.update_of_ne same]
    exact agree tested details found

theorem PositionsAgree.set (agree : PositionsAgree structs unseen offsets) {number pos offset : ℕ}
    {rest : ℤ} (fits : ∀ details, structs[number]? = some details → (pos : ℤ) + rest = offset) :
    PositionsAgree (structs.modify number fun details => { details with pos := pos })
      (Function.update unseen number rest) (Function.update offsets number offset) := by
  intro tested details found
  by_cases same : tested = number
  · subst same
    rw [List.getElem?_modify_eq] at found
    rcases Option.map_eq_some_iff.1 found with ⟨old, oldFound, equal⟩
    subst equal
    rw [Function.update_self, Function.update_self]
    exact fits old oldFound
  · rw [List.getElem?_modify_ne _ _ (Ne.symm same)] at found
    rw [Function.update_of_ne same, Function.update_of_ne same]
    exact agree tested details found

theorem PositionsAgree.opened
    (agree : PositionsAgree structs unseen offsets) {details : FdDetails}
    (starts : details.pos = 0) : PositionsAgree (structs ++ [details])
      (Function.update unseen structs.length 0) (Function.update offsets structs.length 0) := by
  intro tested found lookup
  by_cases same : tested = structs.length
  · subst same
    rw [Function.update_self, Function.update_self]
    simp only [List.getElem?_concat_length, Option.some.injEq] at lookup
    rw [← lookup, starts]
    rfl
  · rw [Function.update_of_ne same, Function.update_of_ne same]
    have inside : tested < structs.length := by
      have bounded := (List.getElem?_eq_some_iff.1 lookup).1
      rw [List.length_append, List.length_singleton] at bounded
      omega
    rw [List.getElem?_append_left inside] at lookup
    exact agree tested found lookup

end

/-! ## What the parser keeps -/

/-- The tracker of the process agrees with what the parser knows. -/
structure Tracks (state : ParserState) (files : OpenFiles) (sight : Sight) : Prop where
  opened : state.tracker.fdtracker.structs.length = files.opened
  table : state.tracker.fdtracker.table = sight.known.view id
  within : sight.known.Within files.table
  positions : PositionsAgree state.tracker.fdtracker.structs sight.unseen files.offsets
  aliases : ∀ fd, fd ∈ sight.aliases ↔ (fd, 1) ∈ state.myTracker
  terminal : state.tracker.stdtracker.isWatched 1 = true

/-- No file is opened with `O_APPEND`. -/
def Call.opensForAppend : Call → Bool
  | .openFile _ flags _ | .openat _ flags _ =>
      decide (OpenFlag.oAppend ∈ flags)
  | _ => false

section

variable {env : ParserEnv} {state after : ParserState} {files : OpenFiles}
  {sight : Sight} {line : Line} {ops : List MicroOpKind}

variable {fd : ℤ}

section

variable (tracks : Tracks state files sight)
include tracks

/-- A watched descriptor refers to the description with the number of its
`Struct`. -/
theorem Tracks.target_of_table {number : ℕ}
    (held : state.tracker.fdtracker.table fd = some number) :
    sight.known fd = some (some number) ∧ files.target fd = some number := by
  rw [tracks.table] at held
  rcases Option.bind_eq_some_iff.1 held with ⟨target, known, equal⟩
  have isNumber : target = some number := equal
  subst isNumber
  refine ⟨known, ?_⟩
  rw [OpenFiles.target, tracks.within fd _ known]
  rfl

/-- A descriptor that is followed and refers to a description is watched. -/
theorem Tracks.table_of_target {number : ℕ} (refers : files.target fd = some number)
    (known : sight.known fd ≠ none) :
    state.tracker.fdtracker.table fd = some number := by
  rcases Option.ne_none_iff_exists'.1 known with ⟨target, known⟩
  have held := tracks.within fd target known
  rw [OpenFiles.target, held] at refers
  rw [tracks.table, Posix.Descriptors.view, known]
  exact refers

/-- The number of descriptors and objects after a call that is followed. -/
theorem Tracks.table_next (translated : Translated env state line after)
    : after.tracker.fdtracker.table =
      (sight.next env files (.call line)).known.view id := by
  have callEq : (followed (files.callOf env (.call line))).view id =
      followed (line.descriptorCall ((line.watchedPath? env).map fun _ =>
        state.tracker.fdtracker.structs.length)) := by
    rw [view_followed, tracks.opened]
    exact congrArg followed (line.view_descriptorCall _ id)
  rw [translated.table, Sight.next, Posix.Descriptors.view_apply, callEq, tracks.table]

theorem Tracks.opened_next (translated : Translated env state line after)
    : after.tracker.fdtracker.structs.length =
      (files.next env (.call line)).opened := by
  rcases translated.files with ⟨opened, filesEq, names, -⟩
  have lengths := congrArg List.length filesEq
  have added := congrArg List.length names
  rw [List.length_append, List.length_map, List.length_map] at lengths
  rw [List.length_map] at added
  rw [lengths, added, tracks.opened]
  rfl

end

theorem structs_of_quiet
    (quiet : match line.call with
      | .close _ | .dup _ | .dup2 _ | .fcntlDupfd _ => True
      | _ => False) (terminal : state.tracker.stdtracker.isWatched 1 = true)
    (free : ∀ fd, (line.descriptorCall (none : Option ℕ)).taken = some fd →
        state.tracker.fdtracker.table fd = none) (ran : emit env state line = .ok (after, ops)) :
    after.tracker.fdtracker.structs = state.tracker.fdtracker.structs := by
  unfold emit at ran
  unfold Line.descriptorCall at free
  cases call : line.call with
  | close fd =>
    rw [call] at ran
    exact (closeBranch_spec ran).1.structs
  | dup old =>
    rw [call] at ran free
    apply (dupBranch_spec ran _).1.structs
    intro _ succeeded
    exact free _ (by simp [succeeded, DescriptorCall.taken])
  | dup2 old =>
    rw [call] at ran
    apply (dupBranch_spec ran _).1.structs
    intro impossible
    cases impossible
  | fcntlDupfd fd =>
    rw [call] at ran free
    apply (fcntlDupfdBranch_spec ran _ terminal).1.structs
    intro succeeded
    exact free _ (by simp [succeeded, DescriptorCall.taken])
  | _ =>
    rw [call] at quiet
    exact quiet.elim

theorem Tracks.positions_missed (tracks : Tracks state files sight) {event : FileEvent}
    (unopened : event.watchedPath? env = none)
    (missed : ∀ number, event.movedFd?.bind files.target = some number → sight.sees event = false) :
    PositionsAgree state.tracker.fdtracker.structs (sight.next env files event).unseen
      (files.next env event).offsets := by
  unfold Sight.next OpenFiles.next
  cases moved : event.movedFd?.bind files.target with
  | none =>
    simp only [unopened, Option.isSome_none, Bool.false_eq_true, if_false]
    exact tracks.positions
  | some number =>
    simp only [missed number moved, Bool.false_eq_true, if_false]
    exact tracks.positions.missed number _

section

variable {args : WriteArgs}

section

variable (isWrite : line.call.writeArgs? = some args)
include isWrite

theorem movedFd?_of_writeArgs : (FileEvent.call line).movedFd? =
      if args.position = none then some args.fd else none := by
  rcases line with ⟨call, ret, fresh, uuid⟩
  cases call <;> cases isWrite <;> rfl

theorem sees_of_writeArgs : sight.sees (.call line) = true ↔
      args.position = none ∧ sight.known args.fd ≠ none ∧ args.fd ∉ sight.aliases := by
  rcases line with ⟨call, ret, fresh, uuid⟩
  cases call <;> cases isWrite <;>
    simp [Sight.sees, Option.isSome_iff_ne_none]

theorem seeks_of_writeArgs : (FileEvent.call line).seeks = false := by
  rcases line with ⟨call, ret, fresh, uuid⟩
  cases call <;> cases isWrite <;> rfl

theorem watchedPath?_of_writeArgs : line.watchedPath? env = none := by
  rcases line with ⟨call, ret, fresh, uuid⟩
  cases call <;> cases isWrite <;> rfl

end

theorem Tracks.positions_write (tracks : Tracks state files sight)
    (isWrite : line.call.writeArgs? = some args) (ran : emit env state line = .ok (after, ops)) :
    PositionsAgree after.tracker.fdtracker.structs (sight.next env files (.call line)).unseen
      (files.next env (.call line)).offsets := by
  have unopened : (FileEvent.call line).watchedPath? env = none := watchedPath?_of_writeArgs isWrite
  rcases emit_write_spec isWrite ran with ⟨hidden, same⟩ | translated
  · subst same
    apply tracks.positions_missed unopened
    intro number moved
    rw [← Bool.not_eq_true]
    intro sees
    rw [sees_of_writeArgs isWrite] at sees
    rw [movedFd?_of_writeArgs isWrite, if_pos sees.1, Option.bind_some] at moved
    rcases hidden with aliased | unwatched
    · exact sees.2.2 ((tracks.aliases args.fd).2 aliased)
    · rw [tracks.table_of_target moved sees.2.1] at unwatched
      cases unwatched
  · rcases translated with ⟨details, stat, notAlias, found, written, moved⟩
    rcases FileDescriptorTracker.details_eq_ok_iff.1 found with
      ⟨number, held, lookup⟩
    have target := tracks.target_of_table held
    by_cases sequential : args.position = none
    · have sees : sight.sees (.call line) = true := by
        rw [sees_of_writeArgs isWrite, tracks.aliases, target.1]
        exact ⟨sequential, by simp, notAlias⟩
      have movedTo : (FileEvent.call line).movedFd?.bind files.target =
          some number := by
        rw [movedFd?_of_writeArgs isWrite, if_pos sequential]
        exact target.2
      have structs := moved.structs
      rw [if_pos sequential, held] at structs
      rw [structs]
      simp only [Sight.next, OpenFiles.next, movedTo, sees, if_true,
        seeks_of_writeArgs isWrite, Bool.false_eq_true, if_false]
      apply tracks.positions.set
      intro found' lookup'
      rw [lookup] at lookup'
      have before := tracks.positions number details lookup
      have starts : args.pos details = details.pos := by
        rw [WriteArgs.pos, sequential]
        rfl
      have ends : (FileEvent.call line).newOffset (files.offsets number) =
          files.offsets number + args.count := by
        rw [FileEvent.newOffset, seeks_of_writeArgs isWrite, if_neg (by simp), written.ret_eq]
        rfl
      omega
    · have structs := moved.structs
      rw [if_neg sequential] at structs
      rw [structs]
      apply tracks.positions_missed unopened
      intro number' moved'
      rw [movedFd?_of_writeArgs isWrite, if_neg sequential] at moved'
      cases moved'

end

section

variable (tracks : Tracks state files sight)
include tracks

theorem Tracks.positions_lseek (isSeek : line.call = .lseek fd)
    (ran : emit env state line = .ok (after, ops)) : PositionsAgree after.tracker.fdtracker.structs
      (sight.next env files (.call line)).unseen (files.next env (.call line)).offsets := by
  unfold emit at ran
  rw [isSeek] at ran
  have moved := lseekBranch_spec ran
  have unopened : (FileEvent.call line).watchedPath? env = none := by
    simp [FileEvent.watchedPath?, Line.watchedPath?, isSeek]
  have movedFd : (FileEvent.call line).movedFd? =
      if line.ret = -1 then none else some fd := by
    simp [FileEvent.movedFd?, isSeek]
  have seesEq : sight.sees (.call line) = (sight.known fd).isSome := by simp [Sight.sees, isSeek]
  by_cases set : line.ret ≠ -1 ∧ state.tracker.fdtracker.isWatched fd = true
  · rw [if_pos set] at moved
    rcases Option.isSome_iff_exists.1 set.2 with ⟨number, held⟩
    have inTable : state.tracker.fdtracker.table fd = some number := held
    have target := tracks.target_of_table inTable
    have sees : sight.sees (.call line) = true := by
      rw [seesEq, target.1]
      rfl
    have movedTo : (FileEvent.call line).movedFd?.bind files.target =
        some number := by
      rw [movedFd, if_neg set.1]
      exact target.2
    have seeks : (FileEvent.call line).seeks = true := by simp [FileEvent.seeks, isSeek]
    have structs := moved.structs
    rw [inTable] at structs
    rw [structs]
    simp only [Sight.next, OpenFiles.next, movedTo, sees, seeks, if_true]
    apply tracks.positions.set
    rw [FileEvent.newOffset, seeks]
    simp
  · rw [if_neg set] at moved
    rw [moved.structs]
    apply tracks.positions_missed unopened
    intro number movedTo
    rw [← Bool.not_eq_true, seesEq, Option.isSome_iff_ne_none]
    intro sees
    by_cases failed : line.ret = -1
    · rw [movedFd, if_pos failed] at movedTo
      cases movedTo
    · rw [movedFd, if_neg failed] at movedTo
      have held := tracks.table_of_target movedTo sees
      apply set
      refine ⟨failed, ?_⟩
      change (state.tracker.fdtracker.table fd).isSome = true
      rw [held]
      rfl

theorem Tracks.positions_open {path : Path} {flags : List OpenFlag} {mode : Option String}
    (isOpen : line.call = .openFile path flags mode ∨ line.call = .openat path flags mode)
    (noAppend : OpenFlag.oAppend ∉ flags) (unused : state.pad.tree.node line.fresh = none)
    (ran : state.openBranch env line path flags mode = .ok (after, ops)) :
    PositionsAgree after.tracker.fdtracker.structs (sight.next env files (.call line)).unseen
      (files.next env (.call line)).offsets := by
  have watchedEq : (FileEvent.call line).watchedPath? env =
      if 0 ≤ line.ret ∧ env.isInteresting path = true ∧ OpenFlag.oDirectory ∉ flags then
        some path
      else
        none := by
    unfold FileEvent.watchedPath? Line.watchedPath?
    rcases isOpen with call | call <;> simp only [call]
  have still : (FileEvent.call line).movedFd? = none := by
    unfold FileEvent.movedFd?
    rcases isOpen with call | call <;> simp only [call]
  by_cases watched : 0 ≤ line.ret ∧ env.isInteresting path = true ∧ OpenFlag.oDirectory ∉ flags
  · rw [if_pos watched] at watchedEq
    rcases openBranch_watched unused watched.2.1
      ⟨watched.1, watched.2.2⟩ ran with ⟨details, opened, starts⟩
    rw [opened.structs]
    simp only [Sight.next, OpenFiles.next, still, Option.bind_none,
      watchedEq, Option.isSome_some, if_true, ← tracks.opened]
    exact tracks.positions.opened (starts noAppend)
  · rw [if_neg watched] at watchedEq
    rw [(openBranch_unwatched watched ran).1.structs]
    apply tracks.positions_missed watchedEq
    intro number moved
    rw [still] at moved
    cases moved

theorem Tracks.free (allowed : (files.callOf env (.call line)).Allowed files.table)
    (takes : (line.descriptorCall (none : Option ℕ)).taken = some fd) :
    state.tracker.fdtracker.table fd = none := by
  have takesToo : (files.callOf env (.call line)).taken = some fd := by
    rw [← takes]
    exact line.taken_descriptorCall _ _
  rw [tracks.table, Posix.Descriptors.view, tracks.within.free (allowed.free takesToo)]
  rfl

theorem Tracks.positions_quiet
    (quiet : match line.call with
      | .close _ | .dup _ | .dup2 _ | .fcntlDupfd _ => True
      | _ => False) (unopened : (FileEvent.call line).watchedPath? env = none)
    (still : (FileEvent.call line).movedFd? = none)
    (free : ∀ fd, (line.descriptorCall (none : Option ℕ)).taken = some fd →
        state.tracker.fdtracker.table fd = none) (ran : emit env state line = .ok (after, ops)) :
    PositionsAgree after.tracker.fdtracker.structs (sight.next env files (.call line)).unseen
      (files.next env (.call line)).offsets := by
  rw [structs_of_quiet quiet tracks.terminal free ran]
  apply tracks.positions_missed unopened
  intro number moved
  rw [still] at moved
  cases moved

section

variable (onDescriptors : line.call.onDescriptors = true)
  (noAppend : line.call.opensForAppend = false) (unused : state.pad.tree.node line.fresh = none)
include onDescriptors noAppend unused

theorem Tracks.positions_next
    (free : ∀ fd, (line.descriptorCall (none : Option ℕ)).taken = some fd →
        state.tracker.fdtracker.table fd = none) (ran : emit env state line = .ok (after, ops)) :
    PositionsAgree after.tracker.fdtracker.structs (sight.next env files (.call line)).unseen
      (files.next env (.call line)).offsets := by
  cases call : line.call with
  | openFile path flags mode =>
    apply tracks.positions_open (Or.inl call) _ unused
    · simpa [emit, call] using ran
    · simpa [Call.opensForAppend, call] using noAppend
  | openat path flags mode =>
    apply tracks.positions_open (Or.inr call) _ unused
    · simpa [emit, call] using ran
    · simpa [Call.opensForAppend, call] using noAppend
  | write | writev | pwrite | pwritev =>
    exact tracks.positions_write (congrArg Call.writeArgs? call) ran
  | lseek fd => exact tracks.positions_lseek call ran
  | close | dup | dup2 | fcntlDupfd =>
    apply tracks.positions_quiet _ _ _ free ran
    · simp [call]
    · simp [FileEvent.watchedPath?, Line.watchedPath?, call]
    · simp [FileEvent.movedFd?, call]
  | _ =>
    rw [call] at onDescriptors
    cases onDescriptors

theorem Tracks.next (allowed : (files.callOf env (.call line)).Allowed files.table)
    (ran : emit env state line = .ok (after, ops)) : Tracks after (files.next env (.call line))
      (sight.next env files (.call line)) := by
  have free : ∀ fd, (line.descriptorCall (none : Option ℕ)).taken = some fd →
        state.tracker.fdtracker.table fd = none := fun fd takes => tracks.free allowed takes
  have translated := translated_of_emit onDescriptors unused tracks.terminal free ran
  refine ⟨tracks.opened_next translated, tracks.table_next translated, within_followed tracks.within
    _, tracks.positions_next onDescriptors noAppend unused free ran, ?_, translated.terminal⟩
  intro fd
  rw [translated.aliases, ← tracks.aliases]
  simp [Sight.next, FileEvent.stdoutAlias?]

end

theorem Tracks.next_read (fd ret : ℤ) : Tracks state (files.next env (.read fd ret))
      (sight.next env files (.read fd ret)) := by
  refine ⟨tracks.opened, tracks.table, tracks.within, ?_, tracks.aliases, tracks.terminal⟩
  apply tracks.positions_missed rfl
  intro number _
  rfl

end

end

/-! ## Whole traces -/

/-- A trace of one process that starts with some inherited descriptors, with
what the parser, the kernel and the parser's knowledge of it have come to.
The descriptors that calls return are those of a kernel, and the scratchpad
gives out numbers that it does not use. -/
inductive OffsetRun (env : ParserEnv) (pad : Scratchpad) :
    List FileEvent → ParserState → OpenFiles → Sight → Prop where
  | start (inherited : ℤ → Bool) :
      OffsetRun env pad [] (.init pad) (.start inherited) (.start inherited)
  | read {events : List FileEvent} {state : ParserState}
      {files : OpenFiles} {sight : Sight} (fd ret : ℤ)
      (run : OffsetRun env pad events state files sight) :
      OffsetRun env pad (events ++ [.read fd ret]) state
        (files.next env (.read fd ret)) (sight.next env files (.read fd ret))
  | call {events : List FileEvent} {state after : ParserState}
      {files : OpenFiles} {sight : Sight} {line : Line}
      {ops : List MicroOpKind}
      (run : OffsetRun env pad events state files sight)
      (onDescriptors : line.call.onDescriptors = true)
      (noAppend : line.call.opensForAppend = false)
      (unused : state.pad.tree.node line.fresh = none)
      (allowed : (files.callOf env (.call line)).Allowed files.table)
      (ran : emit env state line = .ok (after, ops)) :
      OffsetRun env pad (events ++ [.call line]) after
        (files.next env (.call line)) (sight.next env files (.call line))

section

variable {events : List FileEvent} {sight : Sight} {files : OpenFiles} {pad : Scratchpad}
  {env : ParserEnv} {state : ParserState} (run : OffsetRun env pad events state files sight)
include run

theorem tracks_of_run :
    Tracks state files sight := by
  induction run with
  | start inherited =>
    refine ⟨rfl, ?_, fun _ _ known => known, ?_, ?_, rfl⟩
    · funext fd
      simp only [Posix.Descriptors.view, Sight.start, OpenFiles.start]
      split_ifs <;> rfl
    · intro number details lookup
      cases lookup
    · intro fd
      simp [Sight.start, ParserState.init]
  | read fd ret _ ih => exact ih.next_read fd ret
  | call _ onDescriptors noAppend unused allowed ran ih =>
    exact ih.next onDescriptors noAppend unused allowed ran

/-- The run is the one that `get_micro_ops` makes over the rows of the
trace. -/
theorem getMicroOps_of_run : ∃ earlier, ∀ rest,
      getMicroOps env (.init pad) (visible events ++ rest) =
        (getMicroOps env state rest).map fun later => earlier ++ later := by
  induction run with
  | start inherited =>
    refine ⟨[], ?_⟩
    intro rest
    simp only [visible, List.filterMap_nil, List.nil_append]
    cases getMicroOps env (.init pad) rest <;> rfl
  | read fd ret _ ih =>
    rcases ih with ⟨earlier, parsed⟩
    refine ⟨earlier, ?_⟩
    intro rest
    simpa [visible] using parsed rest
  | @call events state after _ _ line kinds _ _ _ _ _ ran ih =>
    rcases ih with ⟨earlier, parsed⟩
    have translated : ∃ here, getMicroOp env state line = .ok (after, here) := by
      unfold getMicroOp
      rw [ran, ok_bind]
      cases line.call.syscall with
      | none => exact ⟨_, rfl⟩
      | some syscall => exact ⟨_, rfl⟩
    rcases translated with ⟨here, translated⟩
    refine ⟨earlier ++ here, ?_⟩
    intro rest
    have rows : visible (events ++ [.call line]) ++ rest = visible events ++ line :: rest := by
      simp [visible]
    rw [rows, parsed, getMicroOps, translated, ok_bind]
    simp only
    cases getMicroOps env after rest with
    | error error => rfl
    | ok later =>
      simp [Except.map, pure, Except.pure]

end

/-- The operations of a `write` or `writev` begin at the offset of the open
file description exactly if the write is empty, or it is not seen as a write to
this file at all, or the movements of the offset that the parser has not seen
since the last seek that it saw add up to nothing. -/
theorem offsetsFrom_kernel_iff
    {env : ParserEnv} {pad : Scratchpad} {events : List FileEvent}
    {state after : ParserState} {files : OpenFiles} {sight : Sight}
    {line : Line} {args : WriteArgs} {ops : List MicroOpKind} {number : ℕ}
    (run : OffsetRun env pad events state files sight)
    (isWrite : line.call.writeArgs? = some args)
    (sequential : args.position = none)
    (refers : files.target args.fd = some number)
    (ran : emit env state line = .ok (after, ops)) :
    OffsetsFrom (files.offsets number) ops ↔
      args.count = 0 ∨ args.fd ∈ sight.aliases ∨
        sight.known args.fd = none ∨ sight.unseen number = 0 := by
  have tracks := tracks_of_run run
  by_cases aliased : (args.fd, 1) ∈ state.myTracker
  · rcases ops_of_alias isWrite aliased ran with ⟨data, terminal⟩
    subst terminal
    exact iff_of_true trivial (Or.inr (Or.inl ((tracks.aliases args.fd).2 aliased)))
  · have notAlias : args.fd ∉ sight.aliases := by
      rw [tracks.aliases]
      exact aliased
    by_cases lost : sight.known args.fd = none
    · have unwatched : state.tracker.fdtracker.isWatched args.fd = false := by
        rw [FileDescriptorTracker.isWatched_eq_false_iff, tracks.table,
          Posix.Descriptors.view, lost]
        rfl
      rw [emit_of_writeArgs isWrite, writeBranch_of_unwatched aliased unwatched] at ran
      cases ran
      exact iff_of_true trivial (Or.inr (Or.inr (Or.inl lost)))
    · have held := tracks.table_of_target refers lost
      rcases emit_write_spec isWrite ran with ⟨hidden, -⟩ | translated
      · rcases hidden with isAlias | unwatched
        · exact absurd isAlias aliased
        · rw [held] at unwatched
          cases unwatched
      · rcases translated with ⟨details, stat, -, found, written, -⟩
        rcases FileDescriptorTracker.details_eq_ok_iff.1 found with
          ⟨number', held', lookup⟩
        rw [held] at held'
        cases held'
        have agree := tracks.positions number details lookup
        have starts : args.pos details = details.pos := by
          rw [WriteArgs.pos, sequential]
          rfl
        rw [written.ops_eq, offsetsFrom_splitOps_iff written.overwrites, starts]
        have unseenIff : details.pos = files.offsets number ↔ sight.unseen number = 0 := by
          omega
        rw [unseenIff]
        simp [notAlias, lost]

/-- A new file is opened. -/
def logOpened : Line :=
  ⟨.openFile ["workload", "log"] [.oCreat, .oRdwr] (some "0666"), 3, 12, ""⟩

def logWritten : Line :=
  ⟨.write 3 4 ⟨"dump", 0⟩, 4, 0, ""⟩

def logRewound : Line :=
  ⟨.lseek 3, 0, 0, ""⟩

theorem offsetsFrom_kernel_iff_opened :
    ∃ state files sight after ops,
      OffsetRun workloadEnv emptyScratchpad [.call logOpened] state files
        sight ∧
      emit workloadEnv state logWritten = .ok (after, ops) ∧
      (OffsetsFrom (files.offsets 0) ops ↔
        4 = 0 ∨ 3 ∈ sight.aliases ∨ sight.known 3 = none ∨
          sight.unseen 0 = 0) := by
  have run := @OffsetRun.call workloadEnv emptyScratchpad [] _ _ _ _
    logOpened _ (.start fun _ => false) rfl rfl rfl ⟨rfl, rfl⟩ rfl
  refine ⟨_, _, _, _, _, run, rfl, ?_⟩
  exact @offsetsFrom_kernel_iff workloadEnv emptyScratchpad _ _ _ _ _
    logWritten _ _ 0 run rfl rfl rfl rfl

/-- The last write is translated at offset zero, while the read has moved the
offset to two. -/
theorem offset_after_read_is_missed :
    ∃ state files sight after,
      OffsetRun workloadEnv emptyScratchpad
        [.call logOpened, .call logWritten, .call logRewound, .read 3 2]
        state files sight ∧
      files.target 3 = some 0 ∧ files.offsets 0 = 2 ∧
      emit workloadEnv state ⟨.write 3 1 ⟨"dump", 4⟩, 1, 0, ""⟩ =
        .ok (after, [.write ⟨12, 0, 1, "dump", 4⟩]) := by
  have opened := @OffsetRun.call workloadEnv emptyScratchpad [] _ _ _ _
    logOpened _ (.start fun _ => false) rfl rfl rfl ⟨rfl, rfl⟩ rfl
  have written := @OffsetRun.call workloadEnv emptyScratchpad _ _ _ _ _
    logWritten _ opened rfl rfl rfl trivial rfl
  have rewound := @OffsetRun.call workloadEnv emptyScratchpad _ _ _ _ _
    logRewound _ written rfl rfl rfl trivial rfl
  exact ⟨_, _, _, _, .read 3 2 rewound, rfl, rfl, rfl⟩

end Alice
