import Alice.Parser.InodeNumbers
import Alice.Parser.StdoutAlias

/-! # Descriptors under duplication

The parser keeps one table for the files that it watches and one for the
other descriptors of a process.  The module says at which calls they part from
the table of the process. -/

namespace Alice

open Checked
open Posix (Ino Path Tree Descriptors DescriptorCall)

/-! ## Operations that succeed -/

namespace FileDescriptorTracker

variable {tracker : FileDescriptorTracker} {fd : ℤ}

theorem isWatched_iff : tracker.isWatched fd = true ↔ tracker.table fd ≠ none := by
  rw [← Bool.not_eq_false, ne_eq, not_iff_not, isWatched_eq_false_iff]

theorem exists_newFdMapping (free : tracker.table fd = none) (details : FdDetails) :
    ∃ after, tracker.newFdMapping fd details = .ok after := by
  rw [newFdMapping, isWatched_eq_false_iff.2 free]
  exact ⟨_, rfl⟩

theorem exists_setEquivalent_iff
    {oldfd newfd : ℤ} (held : tracker.table oldfd ≠ none) :
    (∃ after, tracker.setEquivalent oldfd newfd = .ok after) ↔ tracker.table newfd = none := by
  obtain ⟨number, found⟩ := Option.ne_none_iff_exists'.1 held
  have lookup : tracker.fds.lookup oldfd = some number := found
  rw [← isWatched_eq_false_iff]
  simp only [setEquivalent, lookup]
  cases tracker.isWatched newfd <;> simp

theorem exists_removeFdMapping (held : tracker.table fd ≠ none) :
    ∃ after, tracker.removeFdMapping fd = .ok after := by
  rw [removeFdMapping, isWatched_iff.2 held]
  exact ⟨_, rfl⟩

end FileDescriptorTracker

namespace Scratchpad

variable {pad : Scratchpad} {path : Path}

theorem exists_osCreate (absent : pad.tree.resolve path = none)
    (parent : ∃ parent, pad.tree.parentOf path = .ok parent) (fresh : Ino) :
    ∃ after, pad.osCreate fresh (fun tree => tree.create path fresh) = .ok after := by
  obtain ⟨⟨dir, name⟩, parent⟩ := parent
  obtain ⟨front, isConcat, resolved, isDirectory⟩ := Tree.parentOf_eq_ok_iff.1 parent
  rw [Tree.resolve_of_parentOf parent] at absent
  subst isConcat
  simp only [osCreate, osCall, Tree.create_concat resolved isDirectory absent fresh]
  exact ⟨_, rfl⟩

theorem exists_parentOf_of_create {fresh : Ino} {after : Scratchpad}
    (made : pad.osCreate fresh (fun tree => tree.create path fresh) = .ok after) :
    ∃ parent, pad.tree.parentOf path = .ok parent := by
  obtain ⟨called, made, -⟩ := map_eq_ok_iff.1 made
  obtain ⟨tree, created, -⟩ := Scratchpad.osCall_eq_ok_iff.1 made
  obtain ⟨parent, found, -⟩ := bind_eq_ok_iff.1 created
  exact ⟨parent, found⟩

end Scratchpad

/-- The calls that open, close and duplicate descriptors. -/
def Call.onTable : Call → Bool
  | .openFile .. | .openat .. | .close .. | .dup .. | .dup2 ..
  | .fcntlDupfd .. => true
  | _ => false

theorem Call.onDescriptors_of_onTable {call : Call} (onTable : call.onTable = true) :
    call.onDescriptors = true := by
  unfold Call.onTable at onTable
  unfold Call.onDescriptors
  cases call <;> simp_all

namespace ParserState

variable {env : ParserEnv} {state : ParserState} {line : Line}

def outsideTable (state : ParserState) : Descriptors ℕ :=
  state.tracker.fdtrackerUnwatched.table

def Apart (state : ParserState) : Prop :=
  ∀ fd, state.tracker.fdtracker.table fd ≠ none → state.outsideTable fd = none

theorem exists_closeBranch
    (apart : state.Apart) (fd : ℤ) : ∃ after, state.closeBranch line fd = .ok (after, []) ∧
      after.outsideTable = (if line.ret = -1 then DescriptorCall.keeps
          else .closes fd).apply state.outsideTable := by
  by_cases failed : line.ret = -1
  · exact ⟨state, by rw [closeBranch, if_pos failed]; rfl, by rw [if_pos failed]; rfl⟩
  · rw [closeBranch, if_neg failed, if_neg failed]
    by_cases watched : state.tracker.fdtracker.table fd ≠ none
    · obtain ⟨fds, removed⟩ := FileDescriptorTracker.exists_removeFdMapping watched
      rw [if_pos (FileDescriptorTracker.isWatched_iff.2 watched), removed]
      refine ⟨_, rfl, ?_⟩
      rw [DescriptorCall.apply, ← apart fd watched, Function.update_eq_self]
      rfl
    · rw [if_neg fun isWatched => watched (FileDescriptorTracker.isWatched_iff.1 isWatched)]
      by_cases outside : state.outsideTable fd ≠ none
      · obtain ⟨fds, removed⟩ := FileDescriptorTracker.exists_removeFdMapping outside
        rw [if_pos (FileDescriptorTracker.isWatched_iff.2 outside), removed]
        exact ⟨_, rfl, (FileDescriptorTracker.removeFdMapping_ok removed).1⟩
      · rw [if_neg fun isWatched => outside (FileDescriptorTracker.isWatched_iff.1 isWatched)]
        refine ⟨state, rfl, ?_⟩
        rw [DescriptorCall.apply, ← not_not.1 outside, Function.update_eq_self]

/-- The two tables have the same duplicates, if the new descriptor is in
neither. -/
theorem exists_setDuplicate
    (apart : state.Apart) {old new : ℤ} (free : state.tracker.fdtracker.table new = none)
    (freeOutside : state.outsideTable new = none) :
    ∃ after, state.setDuplicate old new = .ok (after, []) ∧ after.outsideTable =
        (DescriptorCall.dups old new).apply state.outsideTable := by
  have unchanged : state.outsideTable old = none →
      (DescriptorCall.dups old new).apply state.outsideTable = state.outsideTable := by
    intro absent
    rw [DescriptorCall.apply, absent, ← freeOutside, Function.update_eq_self]
  unfold setDuplicate
  by_cases watched : state.tracker.fdtracker.table old ≠ none
  · obtain ⟨fds, set⟩ := (FileDescriptorTracker.exists_setEquivalent_iff watched).2 free
    rw [if_pos (FileDescriptorTracker.isWatched_iff.2 watched), set]
    exact ⟨_, rfl, (unchanged (apart old watched)).symm⟩
  · rw [if_neg fun isWatched => watched (FileDescriptorTracker.isWatched_iff.1 isWatched)]
    by_cases outside : state.outsideTable old ≠ none
    · obtain ⟨fds, set⟩ := (FileDescriptorTracker.exists_setEquivalent_iff outside).2 freeOutside
      rw [if_pos (FileDescriptorTracker.isWatched_iff.2 outside), set]
      exact ⟨_, rfl, (FileDescriptorTracker.setEquivalent_ok set).1⟩
    · rw [if_neg fun isWatched => outside (FileDescriptorTracker.isWatched_iff.1 isWatched)]
      exact ⟨state, rfl, (unchanged (not_not.1 outside)).symm⟩

theorem exists_dupBranch (apart : state.Apart) (oldfd : ℤ)
    (free : line.ret ≠ -1 → state.tracker.fdtracker.table line.ret = none)
    (freeOutside : line.ret ≠ -1 → state.outsideTable line.ret = none) :
    ∃ after, state.dupBranch false line oldfd = .ok (after, []) ∧ after.outsideTable =
        (if line.ret = -1 then DescriptorCall.keeps
          else .dups oldfd line.ret).apply state.outsideTable := by
  by_cases failed : line.ret = -1
  · exact ⟨state, by rw [dupBranch, if_pos failed]; rfl, by rw [if_pos failed]; rfl⟩
  · rw [dupBranch_eq false oldfd failed, if_neg Bool.false_ne_true, if_neg failed]
    exact exists_setDuplicate apart (free failed) (freeOutside failed)

theorem exists_dup2Branch (apart : state.Apart) (oldfd : ℤ) :
    ∃ after, state.dupBranch true line oldfd = .ok (after, []) ∧ after.outsideTable =
        (if line.ret = -1 then DescriptorCall.keeps
          else followed (.dupsOnto oldfd line.ret)).apply state.outsideTable := by
  by_cases failed : line.ret = -1
  · exact ⟨state, by rw [dupBranch, if_pos failed]; rfl, by rw [if_pos failed]; rfl⟩
  · have closes : ¬ (0 : ℤ) = -1 := by decide
    obtain ⟨closed, closing, outsideClosed⟩ := @exists_closeBranch state
      ⟨line.call, 0, line.fresh, line.uuid⟩ apart line.ret
    have spec := (closeBranch_spec closing).1.table
    simp only [if_neg closes] at spec outsideClosed
    have apartClosed : closed.Apart := by
      intro fd held
      rw [spec, DescriptorCall.apply] at held
      rw [outsideClosed, DescriptorCall.apply]
      by_cases same : fd = line.ret
      · rw [same, Function.update_self]
      · rw [Function.update_of_ne same] at held ⊢
        exact apart fd held
    have free : closed.tracker.fdtracker.table line.ret = none := by
      rw [spec, DescriptorCall.apply, Function.update_self]
    have freeOutside : closed.outsideTable line.ret = none := by
      rw [outsideClosed, DescriptorCall.apply, Function.update_self]
    obtain ⟨after, set, outsideAfter⟩ := @exists_setDuplicate closed apartClosed oldfd line.ret free
        freeOutside
    rw [dupBranch_eq true oldfd failed, if_pos rfl, closing, if_neg failed]
    refine ⟨after, set, ?_⟩
    rw [outsideAfter, outsideClosed, dups_closes]

section

variable {fd : ℤ}

/-- `F_DUPFD` of a descriptor that is in the table of standard descriptors
only does not return another one that was ever put there. -/
def DupfdFits (state : ParserState) (line : Line) (fd : ℤ) : Prop :=
  line.ret ≠ -1 → state.tracker.fdtracker.isWatched fd = false →
    state.tracker.fdtrackerUnwatched.isWatched fd = false →
      state.tracker.stdtracker.isWatched fd = true →
        state.tracker.stdtracker.isWatched line.ret = false

/-- The standard descriptors have a table of their own, from which nothing is
ever removed. -/
theorem exists_fcntlDupfdBranch_iff
    (free : line.ret ≠ -1 → state.tracker.fdtracker.table line.ret = none)
    (freeOutside : line.ret ≠ -1 → state.outsideTable line.ret = none) :
    (∃ after ops, state.fcntlDupfdBranch line fd = .ok (after, ops)) ↔ state.DupfdFits line fd := by
  unfold fcntlDupfdBranch DupfdFits
  by_cases failed : line.ret = -1
  · rw [if_pos failed]
    exact ⟨fun _ succeeded => absurd failed succeeded, fun _ => ⟨state, [], rfl⟩⟩
  · rw [if_neg failed]
    cases watched : state.tracker.fdtracker.isWatched fd with
    | true =>
      obtain ⟨fds, set⟩ := (FileDescriptorTracker.exists_setEquivalent_iff
        (FileDescriptorTracker.isWatched_iff.1 watched)).2 (free failed)
      rw [if_pos rfl, set]
      refine ⟨fun _ _ impossible => ?_, fun _ => ⟨_, _, rfl⟩⟩
      cases impossible
    | false =>
      cases outside : state.tracker.fdtrackerUnwatched.isWatched fd with
      | true =>
        obtain ⟨fds, set⟩ := (FileDescriptorTracker.exists_setEquivalent_iff
            (FileDescriptorTracker.isWatched_iff.1 outside)).2 (freeOutside failed)
        rw [if_pos rfl, set]
        refine ⟨fun _ _ _ impossible => ?_, fun _ => ⟨_, _, rfl⟩⟩
        cases impossible
      | false =>
        cases standard : state.tracker.stdtracker.isWatched fd with
        | true =>
          have duplicates := @FileDescriptorTracker.exists_setEquivalent_iff
              state.tracker.stdtracker fd line.ret (FileDescriptorTracker.isWatched_iff.1 standard)
          rw [if_pos rfl, FileDescriptorTracker.isWatched_eq_false_iff, ← duplicates]
          constructor
          · rintro ⟨after, ops, ran⟩ - - - -
            obtain ⟨std, set, -⟩ := bind_eq_ok_iff.1 ran
            exact ⟨std, set⟩
          · intro free
            obtain ⟨std, set⟩ := free failed rfl rfl rfl
            rw [set]
            exact ⟨_, _, rfl⟩
        | false =>
          refine ⟨fun _ _ _ _ impossible => ?_, fun _ => ⟨_, _, rfl⟩⟩
          cases impossible

theorem outsideTable_fcntlDupfdBranch {after : ParserState} {ops : List MicroOpKind}
    (apart : state.Apart) (freeOutside : line.ret ≠ -1 → state.outsideTable line.ret = none)
    (ran : state.fcntlDupfdBranch line fd = .ok (after, ops)) : after.outsideTable =
      (if line.ret = -1 then DescriptorCall.keeps
        else .dups fd line.ret).apply state.outsideTable := by
  unfold fcntlDupfdBranch at ran
  by_cases failed : line.ret = -1
  · rw [if_pos failed] at ran ⊢
    cases ran
    rfl
  · rw [if_neg failed] at ran ⊢
    have unchanged : state.outsideTable fd = none → state.outsideTable =
          (DescriptorCall.dups fd line.ret).apply state.outsideTable := by
      intro absent
      rw [DescriptorCall.apply, absent, ← freeOutside failed, Function.update_eq_self]
    split_ifs at ran with watched outside standard
    · obtain ⟨fds, -, ran⟩ := bind_eq_ok_iff.1 ran
      cases ran
      exact unchanged (apart fd (FileDescriptorTracker.isWatched_iff.1 watched))
    · obtain ⟨fds, set, ran⟩ := bind_eq_ok_iff.1 ran
      cases ran
      exact (FileDescriptorTracker.setEquivalent_ok set).1
    · obtain ⟨std, -, ran⟩ := bind_eq_ok_iff.1 ran
      cases ran
      exact unchanged (FileDescriptorTracker.isWatched_eq_false_iff.1 (by simpa using outside))
    · cases ran
      exact unchanged (FileDescriptorTracker.isWatched_eq_false_iff.1 (by simpa using outside))

end

/-! ## Opening -/

/-- What the branch asserts about an open of a watched path, and what its
calls on the scratchpad need. -/
structure OpenFits (env : ParserEnv) (pad : Scratchpad) (ret : ℤ) (path : Path)
    (flags : List OpenFlag) (mode : Option String) : Prop where
  combination : Writable flags → OpenFlag.oAsync ∉ flags ∧ OpenFlag.oDirectory ∉ flags
  absent : 0 ≤ ret ∧ OpenFlag.oDirectory ∉ flags →
    pad.tree.resolve (env.replayedPath path) = none →
      OpenFlag.oCreat ∈ flags ∧ Writable flags ∧
        (∃ text ∈ mode, (digitsValue 8 text.toList).isSome = true) ∧
        ∃ parent, pad.tree.parentOf (env.replayedPath path) = .ok parent
  trunc : 0 ≤ ret ∧ OpenFlag.oDirectory ∉ flags →
    OpenFlag.oTrunc ∈ flags →
      Writable flags ∧
        ∀ ino, pad.tree.resolve (env.replayedPath path) = some ino →
          pad.tree.isDir ino = false

theorem exists_stat
    (sound : state.pad.Sound) {path : Path} {ino : Ino}
    (resolved : state.pad.tree.resolve (env.replayedPath path) = some ino) :
    ∃ stat, state.stat env path = .ok stat ∧ stat.ino = ino := by
  cases found : state.stat? env path with
  | none =>
    rw [(stat?_eq_none_iff sound).1 found] at resolved
    cases resolved
  | some stat =>
    have statEq := stat_eq_ok_iff.2 found
    exact ⟨stat, statEq, ino_of_stat statEq resolved⟩

theorem exists_parentInode
    {path : Path} {ino : Ino} (resolved : state.pad.tree.resolve (env.replayedPath path) = some ino)
    (below : env.replayedPath path ≠ []) : ∃ parent, state.parentInode env path = .ok parent := by
  obtain ⟨front, last, isConcat⟩ :=
    (List.eq_nil_or_concat (env.replayedPath path)).resolve_left below
  rw [List.concat_eq_append] at isConcat
  rw [isConcat, Tree.resolve_concat] at resolved
  obtain ⟨dir, above, child⟩ := Option.bind_eq_some_iff.1 resolved
  have parent := Tree.parentOf_concat above (Tree.isDir_of_child child) last
  rw [← isConcat] at parent
  exact ⟨dir, Scratchpad.parentInode_of_parentOf parent env.dirStat⟩

theorem exists_replayedTruncate_iff (sound : state.pad.Sound) {path : Path} {ino : Ino}
    (resolved : state.pad.tree.resolve (env.replayedPath path) = some ino) (newSize : ℕ) :
    (∃ after, state.replayedTruncate env path newSize = .ok after) ↔
      state.pad.tree.isDir ino = false := by
  unfold replayedTruncate
  cases isFile : state.pad.tree.content ino with
  | some bytes =>
    rw [Scratchpad.replayedTruncate_of_content resolved isFile]
    exact ⟨fun _ => Tree.not_isDir_of_content isFile, fun _ => ⟨_, rfl⟩⟩
  | none =>
    rw [Scratchpad.replayedTruncate_of_directory resolved isFile]
    have isDirectory : state.pad.tree.isDir ino = true := by
      obtain ⟨node, lookup⟩ := Option.ne_none_iff_exists'.1
        (sound.rooted.node_of_reaches ⟨_, resolved⟩)
      cases node with
      | file content =>
        rw [Tree.content_eq_some_iff.2 lookup] at isFile
        cases isFile
      | dir entries => exact Tree.isDir_iff.2 ⟨entries, lookup⟩
    rw [isDirectory]
    constructor
    · rintro ⟨after, ran⟩
      cases ran
    · intro impossible
      cases impossible

section

variable {path : Path} {flags : List OpenFlag} {mode : Option String}

theorem exists_openCreate_iff (sound : state.pad.Sound) (served : line.fresh ∉ state.pad.numbers)
    (unnamed : state.pad.tree.resolve (env.replayedPath path) = none →
      state.tracker.fdtracker.getFdsFname path = []) :
    (∃ created ops, state.openCreate env line path flags mode = .ok (created, ops)) ↔
      (state.pad.tree.resolve (env.replayedPath path) = none →
        OpenFlag.oCreat ∈ flags ∧ Writable flags ∧
          (∃ text ∈ mode, (digitsValue 8 text.toList).isSome = true) ∧ ∃ parent,
            state.pad.tree.parentOf (env.replayedPath path) = .ok parent) := by
  unfold openCreate
  by_cases absent : state.pad.tree.resolve (env.replayedPath path) = none
  · have noStat : (state.stat? env path).isNone = true := by
      rw [(stat?_eq_none_iff sound).2 absent]
      rfl
    rw [if_pos noStat]
    constructor
    · rintro ⟨created, ops, ran⟩ -
      obtain ⟨⟨⟩, creates, ran⟩ := bind_eq_ok_iff.1 ran
      obtain ⟨⟨⟩, writable, ran⟩ := bind_eq_ok_iff.1 ran
      obtain ⟨⟨⟩, -, ran⟩ := bind_eq_ok_iff.1 ran
      cases mode with
      | none => cases ran
      | some text =>
        simp only at ran
        split_ifs at ran with digits
        · cases ran
        · obtain ⟨pad, made, -⟩ := bind_eq_ok_iff.1 ran
          refine ⟨assertThat_eq_ok_iff.1 creates, assertThat_eq_ok_iff.1 writable, ⟨text, rfl, ?_⟩,
            Scratchpad.exists_parentOf_of_create made⟩
          simpa [Option.isSome_iff_ne_none] using digits
    · intro given
      obtain ⟨creates, writable, ⟨text, isMode, digits⟩, parent⟩ := given absent
      cases isMode
      obtain ⟨pad, made⟩ := Scratchpad.exists_osCreate absent parent line.fresh
      obtain ⟨advances, resolved⟩ := @Scratchpad.advances_create state.pad
        pad (fun _ => False) (env.replayedPath path) line.fresh sound (fun _ => served) made
      rw [absent, Option.getD_none] at resolved
      have below : env.replayedPath path ≠ [] := by
        intro isRoot
        rw [isRoot] at absent
        cases absent
      obtain ⟨stat, statEq, -⟩ := @exists_stat env { state with pad := pad }
        advances.sound path line.fresh resolved
      obtain ⟨parent, parentEq⟩ := @exists_parentInode env
        { state with pad := pad } path line.fresh resolved below
      have notNone : ¬(digitsValue 8 text.toList).isNone = true := by
        simpa [Option.isSome_iff_ne_none] using digits
      rw [assertThat_eq_ok_iff.2 creates, ok_bind, assertThat_eq_ok_iff.2 writable, ok_bind,
        assertThat_eq_ok_iff.2 (unnamed absent), ok_bind]
      simp only [if_neg notNone, made, ok_bind, statEq, parentEq]
      exact ⟨_, _, rfl⟩
  · have present : ¬(state.stat? env path).isNone = true := by
      rw [Option.isNone_iff_eq_none, stat?_eq_none_iff sound]
      exact absent
    rw [if_neg present]
    exact ⟨fun _ isAbsent => absurd isAbsent absent, fun _ => ⟨state, [], rfl⟩⟩

/-- A file that can be opened: the path leads to it, in a sound
scratchpad. -/
structure Opens (env : ParserEnv) (state opened : ParserState) (path : Path) : Prop where
  sound : opened.pad.Sound
  leads : ∃ ino, opened.pad.tree.resolve (env.replayedPath path) = some ino
  tracker : opened.tracker = state.tracker

variable {created : ParserState} {ops : List MicroOpKind}

theorem opens_of_openCreate (sound : state.pad.Sound) (served : line.fresh ∉ state.pad.numbers)
    (ran : state.openCreate env line path flags mode = .ok (created, ops)) :
    Opens env state created path := by
  rcases openCreate_cases ran with
    ⟨present, same, -⟩ | ⟨-, pad, -, -, -, made, result, -⟩
  · subst same
    refine ⟨sound, Option.ne_none_iff_exists'.1 ?_, rfl⟩
    intro absent
    rw [(stat?_eq_none_iff sound).2 absent] at present
    cases present
  · subst result
    obtain ⟨advances, resolved⟩ := @Scratchpad.advances_create state.pad
      pad (fun _ => False) (env.replayedPath path) line.fresh sound (fun _ => served) made
    exact ⟨advances.sound, ⟨_, resolved⟩, rfl⟩

theorem Opens.trunc {truncated : ParserState} {newlyCreated : Bool} {inode : Inode}
    (opens : Opens env state created path)
    (ran : created.openTrunc env path flags newlyCreated inode = .ok (truncated, ops)) :
    Opens env state truncated path := by
  obtain ⟨ino, resolved⟩ := opens.leads
  have extended := extended_openTrunc ran
  refine ⟨?_, ⟨ino, extended.paths _ _ resolved⟩, extended.tracker.trans opens.tracker⟩
  rcases openTrunc_cases ran with ⟨same, -⟩ | ⟨size, emptying, -⟩
  · rw [same]
    exact opens.sound
  · have advances : Scratchpad.Advances created.pad truncated.pad [] (fun _ => False) :=
      advances_replayedTruncate opens.sound emptying
    exact advances.sound

theorem exists_openTrunc_iff (opens : Opens env state created path) (newlyCreated : Bool)
    (inode : Inode) : (∃ truncated ops, created.openTrunc env path flags newlyCreated inode =
        .ok (truncated, ops)) ↔ (OpenFlag.oTrunc ∈ flags → Writable flags ∧
          (newlyCreated = false → ∀ ino,
            created.pad.tree.resolve (env.replayedPath path) = some ino →
              created.pad.tree.isDir ino = false)) := by
  obtain ⟨found, resolved⟩ := opens.leads
  unfold openTrunc
  by_cases truncates : OpenFlag.oTrunc ∈ flags
  · rw [if_pos truncates]
    constructor
    · rintro ⟨truncated, ops, ran⟩ -
      obtain ⟨⟨⟩, writable, ran⟩ := bind_eq_ok_iff.1 ran
      refine ⟨assertThat_eq_ok_iff.1 writable, ?_⟩
      intro isOld ino resolvedAgain
      rw [isOld, if_neg Bool.false_ne_true] at ran
      obtain ⟨stat, -, ran⟩ := bind_eq_ok_iff.1 ran
      obtain ⟨emptied, emptying, -⟩ := bind_eq_ok_iff.1 ran
      exact (exists_replayedTruncate_iff opens.sound resolvedAgain 0).1 ⟨emptied, emptying⟩
    · intro given
      obtain ⟨writable, isFile⟩ := given truncates
      rw [assertThat_eq_ok_iff.2 writable, ok_bind]
      cases newlyCreated with
      | true => exact ⟨created, [], rfl⟩
      | false =>
        obtain ⟨emptied, emptying⟩ := (exists_replayedTruncate_iff opens.sound resolved 0).2
            (isFile rfl found resolved)
        obtain ⟨stat, statEq, -⟩ := exists_stat opens.sound resolved
        rw [if_neg Bool.false_ne_true, statEq, ok_bind, emptying, ok_bind]
        exact ⟨_, _, rfl⟩
  · rw [if_neg truncates]
    exact ⟨fun _ isTrunc => absurd isTrunc truncates, fun _ => ⟨created, [], rfl⟩⟩

theorem exists_openPos {opened : ParserState} (opens : Opens env state opened path)
    (flags : List OpenFlag) : ∃ pos, opened.openPos env path flags = .ok pos := by
  obtain ⟨ino, resolved⟩ := opens.leads
  obtain ⟨stat, statEq, -⟩ := exists_stat opens.sound resolved
  unfold openPos
  by_cases appends : OpenFlag.oAppend ∈ flags
  · rw [if_pos appends, statEq]
    exact ⟨stat.size, rfl⟩
  · rw [if_neg appends]
    exact ⟨0, rfl⟩

theorem exists_openBranch_iff (sound : state.pad.Sound) (served : line.fresh ∉ state.pad.numbers)
    (interesting : env.isInteresting path = true)
    (unnamed : state.pad.tree.resolve (env.replayedPath path) = none →
      state.tracker.fdtracker.getFdsFname path = [])
    (free : 0 ≤ line.ret → state.tracker.fdtracker.table line.ret = none) :
    (∃ after ops, state.openBranch env line path flags mode = .ok (after, ops)) ↔
      OpenFits env state.pad line.ret path flags mode := by
  by_cases opened : 0 ≤ line.ret ∧ OpenFlag.oDirectory ∉ flags
  · rw [openBranch_of_watched env state mode interesting opened]
    constructor
    · rintro ⟨after, ops, ran⟩
      obtain ⟨⟨⟩, combination, ran⟩ := bind_eq_ok_iff.1 ran
      obtain ⟨⟨created, createOps⟩, creation, ran⟩ := bind_eq_ok_iff.1 ran
      obtain ⟨stat, -, ran⟩ := bind_eq_ok_iff.1 ran
      obtain ⟨⟨truncated, truncOps⟩, truncation, -⟩ := bind_eq_ok_iff.1 ran
      have opens := opens_of_openCreate sound served creation
      refine ⟨assertThat_eq_ok_iff.1 combination, fun _ =>
        (exists_openCreate_iff sound served unnamed).1 ⟨created, createOps, creation⟩, ?_⟩
      intro _ truncates
      obtain ⟨writable, isFile⟩ := (exists_openTrunc_iff opens _ _).1
        ⟨truncated, truncOps, truncation⟩ truncates
      refine ⟨writable, ?_⟩
      intro ino resolved
      rcases openCreate_cases creation with
        ⟨present, same, -⟩ | ⟨absent, -⟩
      · subst same
        exact isFile (by rwa [Option.isNone_eq_false_iff]) ino resolved
      · rw [(stat?_eq_none_iff sound).1 absent] at resolved
        cases resolved
    · intro fits
      obtain ⟨created, createOps, creation⟩ :=
        (exists_openCreate_iff sound served unnamed).2 (fits.absent opened)
      have opens := opens_of_openCreate sound served creation
      obtain ⟨ino, resolved⟩ := opens.leads
      obtain ⟨stat, statEq, -⟩ := exists_stat opens.sound resolved
      have truncates : ∃ truncated ops,
          created.openTrunc env path flags (state.stat? env path).isNone
            stat.ino = .ok (truncated, ops) := by
        rw [exists_openTrunc_iff opens]
        intro isTrunc
        obtain ⟨writable, isFile⟩ := fits.trunc opened isTrunc
        refine ⟨writable, ?_⟩
        intro isOld other resolvedOther
        rcases openCreate_cases creation with
          ⟨-, same, -⟩ | ⟨absent, -⟩
        · subst same
          exact isFile other resolvedOther
        · rw [absent] at isOld
          cases isOld
      obtain ⟨truncated, truncOps, truncation⟩ := truncates
      have opensTruncated := opens.trunc truncation
      obtain ⟨pos, posEq⟩ := exists_openPos opensTruncated flags
      have freeThen : truncated.tracker.fdtracker.table line.ret = none := by
        rw [opensTruncated.tracker]
        exact free opened.1
      obtain ⟨fds, mapped⟩ := FileDescriptorTracker.exists_newFdMapping
        freeThen ⟨path, pos, openAttribs flags, stat.ino⟩
      rw [assertThat_eq_ok_iff.2 fits.combination, ok_bind, creation,
        ok_bind, statEq, ok_bind, truncation, ok_bind, posEq, ok_bind, mapped, ok_bind]
      exact ⟨_, _, rfl⟩
  · simp only [openBranch, interesting, if_true, if_neg opened]
    constructor
    · rintro ⟨after, ops, ran⟩
      obtain ⟨⟨⟩, combination, -⟩ := bind_eq_ok_iff.1 ran
      exact ⟨assertThat_eq_ok_iff.1 combination, fun isOpened => absurd isOpened opened,
        fun isOpened => absurd isOpened opened⟩
    · intro fits
      exact ⟨state, [], bind_eq_ok_iff.2 ⟨(), assertThat_eq_ok_iff.2 fits.combination, rfl⟩⟩

theorem exists_openBranch_outside
    (uninteresting : env.isInteresting path = false)
    (freeOutside : 0 ≤ line.ret → state.outsideTable line.ret = none) :
    ∃ after ops, state.openBranch env line path flags mode = .ok (after, ops) := by
  simp only [openBranch, uninteresting, Bool.false_eq_true, if_false]
  by_cases opened : 0 ≤ line.ret
  · rw [if_pos opened]
    obtain ⟨fds, mapped⟩ := FileDescriptorTracker.exists_newFdMapping (freeOutside opened) ⟨path, 0,
        if OpenFlag.oCloexec ∈ flags then [FdAttrib.oCloexec] else [], 0⟩
    rw [mapped]
    exact ⟨_, _, rfl⟩
  · rw [if_neg opened]
    exact ⟨_, _, rfl⟩

/-- The table of the other descriptors is changed by an open of a path that is
not interesting. -/
theorem outsideTable_openBranch {after : ParserState}
    (freeOutside : 0 ≤ line.ret → state.outsideTable line.ret = none)
    (ran : state.openBranch env line path flags mode = .ok (after, ops)) : ∃ target,
      (target ≠ none → env.isInteresting path = false) ∧ after.outsideTable =
          (if 0 ≤ line.ret then DescriptorCall.opens line.ret target
            else .keeps).apply state.outsideTable := by
  have unchanged : after.outsideTable = state.outsideTable → after.outsideTable =
        (if 0 ≤ line.ret then DescriptorCall.opens line.ret none
          else .keeps).apply state.outsideTable := by
    intro same
    by_cases opened : 0 ≤ line.ret
    · rw [if_pos opened, DescriptorCall.apply, ← freeOutside opened, Function.update_eq_self, same]
    · rw [if_neg opened, same]
      rfl
  cases interesting : env.isInteresting path with
  | true =>
    refine ⟨none, fun impossible => absurd rfl impossible, unchanged ?_⟩
    by_cases opened : 0 ≤ line.ret ∧ OpenFlag.oDirectory ∉ flags
    · obtain ⟨_, _, _, truncated, _, _, _, creation, -, truncation, -, -, isAfter⟩ :=
        steps_of_openBranch interesting opened ran
      cases isAfter
      change truncated.outsideTable = state.outsideTable
      unfold outsideTable
      rw [(extended_openTrunc truncation).tracker, (tracker_openCreate creation).1]
    · simp only [openBranch, interesting, if_true, if_neg opened] at ran
      obtain ⟨-, -, ran⟩ := bind_eq_ok_iff.1 ran
      cases ran
      rfl
  | false =>
    simp only [openBranch, interesting, Bool.false_eq_true, if_false] at ran
    by_cases opened : 0 ≤ line.ret
    · simp only [if_pos opened] at ran ⊢
      obtain ⟨fds, mapped, ran⟩ := bind_eq_ok_iff.1 ran
      cases ran
      exact ⟨_, fun _ => trivial, (FileDescriptorTracker.newFdMapping_ok mapped).2.1⟩
    · simp only [if_neg opened] at ran ⊢
      cases ran
      exact ⟨none, fun _ => trivial, rfl⟩

end

/-! ## The table of the other descriptors -/

def Admits (state : ParserState) (line : Line) : Prop :=
  ∀ fd, (line.descriptorCall (none : Option ℕ)).taken = some fd →
    state.tracker.fdtracker.table fd = none ∧ state.outsideTable fd = none

theorem Admits.of_open {path : Path} {flags : List OpenFlag} {mode : Option String}
    (admits : state.Admits line)
    (isOpen : line.call = .openFile path flags mode ∨ line.call = .openat path flags mode)
    (opened : 0 ≤ line.ret) : state.tracker.fdtracker.table line.ret = none ∧
      state.outsideTable line.ret = none := by
  apply admits
  unfold Line.descriptorCall
  rcases isOpen with call | call <;> simp [call, opened, DescriptorCall.taken]

theorem Admits.of_dup {fd : ℤ} (admits : state.Admits line)
    (isDup : line.call = .dup fd ∨ line.call = .fcntlDupfd fd) (succeeded : line.ret ≠ -1) :
    state.tracker.fdtracker.table line.ret = none ∧ state.outsideTable line.ret = none := by
  apply admits
  unfold Line.descriptorCall
  rcases isDup with call | call <;> simp [call, succeeded, DescriptorCall.taken]

/-- The table of the other descriptors follows the call, and learns of nothing
that is watched. -/
theorem exists_outsideTable_eq {after : ParserState} {ops : List MicroOpKind}
    (apart : state.Apart) (admits : state.Admits line) (onTable : line.call.onTable = true)
    (ran : emit env state line = .ok (after, ops)) :
    ∃ target, (target ≠ none → line.watchedPath? env = none) ∧ after.outsideTable =
        (followed (line.descriptorCall target)).apply state.outsideTable := by
  unfold emit at ran
  unfold Line.descriptorCall Line.watchedPath?
  -- A branch that returns `other` has returned `after`.
  have same : ∀ {branch : Except PyError (ParserState × List MicroOpKind)} {other : ParserState},
      branch = .ok (other, []) → branch = .ok (after, ops) → other = after := by
    intro branch other returned ran
    rw [returned, Except.ok.injEq, Prod.mk.injEq] at ran
    exact ran.1
  cases call : line.call with
  | openFile path flags mode | openat path flags mode =>
    rw [call] at ran
    obtain ⟨target, only, tableEq⟩ := outsideTable_openBranch (fun opened =>
      (@Admits.of_open state line path flags mode admits (by simp [call]) opened).2) ran
    refine ⟨target, ?_, ?_⟩
    · intro isSome
      simp [only isSome]
    · rw [tableEq]
      split_ifs <;> rfl
  | close closed =>
    rw [call] at ran
    obtain ⟨other, returned, tableEq⟩ := @exists_closeBranch state line apart closed
    refine ⟨none, fun _ => rfl, ?_⟩
    rw [← same returned ran, tableEq]
    split_ifs <;> rfl
  | dup old =>
    rw [call] at ran
    have free := admits.of_dup (Or.inl call)
    obtain ⟨other, returned, tableEq⟩ := exists_dupBranch
      apart old (fun succeeded => (free succeeded).1) (fun succeeded => (free succeeded).2)
    refine ⟨none, fun _ => rfl, ?_⟩
    rw [← same returned ran, tableEq]
    split_ifs <;> rfl
  | dup2 old =>
    rw [call] at ran
    obtain ⟨other, returned, tableEq⟩ := @exists_dup2Branch state line apart old
    refine ⟨none, fun _ => rfl, ?_⟩
    rw [← same returned ran, tableEq]
    split_ifs <;> rfl
  | fcntlDupfd duplicated =>
    rw [call] at ran
    have free := admits.of_dup (Or.inr call)
    refine ⟨none, fun _ => rfl, ?_⟩
    rw [outsideTable_fcntlDupfdBranch apart (fun succeeded => (free succeeded).2) ran]
    split_ifs <;> rfl
  | _ =>
    rw [call] at onTable
    cases onTable

end ParserState

/-! ## The table of the process -/

/-- The tables of the parser agree with the table of the process: a descriptor
is watched exactly if it refers to a description that was made by opening an
interesting path without `O_DIRECTORY`, with the inode of that file, and no
descriptor is in both tables. -/
structure TablesAgree (env : ParserEnv) (state : ParserState)
    (table : Descriptors (Option Path)) : Prop where
  watched : ∀ fd, state.tracker.fdtracker.isWatched fd = true ↔ ∃ path, table fd = some (some path)
  inode : ∀ fd path, table fd = some (some path) →
    ∃ details, state.tracker.fdtracker.details fd = .ok details ∧
      state.pad.tree.resolve (env.replayedPath path) = some details.inode
  apart : ∀ fd, ¬(state.tracker.fdtracker.isWatched fd = true ∧
    state.tracker.fdtrackerUnwatched.isWatched fd = true)

/-- After every prefix of the trace nothing has been raised and the tables
agree. -/
def TracksTable (env : ParserEnv) : ParserState → Descriptors (Option Path) → List Line → Prop
  | state, table, [] => TablesAgree env state table
  | state, table, line :: rest =>
      TablesAgree env state table ∧
        ∃ after ops, emit env state line = .ok (after, ops) ∧
          TracksTable env after
            ((FileTables.callOf env line).apply table) rest

/-- The results of the calls are those of a descriptor table. -/
def PossibleTrace (env : ParserEnv) : Descriptors (Option Path) → List Line → Prop
  | _, [] => True
  | table, line :: rest =>
      line.call.onTable = true ∧
        (FileTables.callOf env line).Allowed table ∧
          PossibleTrace env ((FileTables.callOf env line).apply table) rest

/-- Every new file gets a number that no other file has. -/
def NumbersFresh (env : ParserEnv) : ParserState → List Line → Prop
  | _, [] => True
  | state, line :: rest =>
      state.pad.tree.node line.fresh = none ∧
        match emit env state line with
        | .ok (after, _) => NumbersFresh env after rest
        | .error _ => True

/-- What the parser needs of a line; a watched descriptor is not duplicated
onto itself. -/
def Line.Fits (env : ParserEnv) (state : ParserState)
    (table : Descriptors (Option Path)) (line : Line) : Prop :=
  match line.call with
  | .openFile path flags mode | .openat path flags mode =>
      env.isInteresting path = true → ParserState.OpenFits env state.pad line.ret path flags mode
  | .dup2 old =>
      line.ret ≠ -1 → line.ret = old → ∀ path, table old ≠ some (some path)
  | .fcntlDupfd fd => state.DupfdFits line fd
  | _ => True

/-- Every line fits, in the state in which it is met. -/
def FitsTrace (env : ParserEnv) : ParserState → Descriptors (Option Path) → List Line → Prop
  | _, _, [] => True
  | state, table, line :: rest =>
      line.Fits env state table ∧
        match emit env state line with
        | .ok (after, _) =>
            FitsTrace env after ((FileTables.callOf env line).apply table) rest
        | .error _ => True

/-! ## One line -/

/-- The parser follows a call exactly, unless a descriptor that it knows is
duplicated onto itself. -/
theorem followed_apply_eq_iff {δ : Type} {table : Descriptors δ} {call : DescriptorCall δ} :
    (followed call).apply table = call.apply table ↔
      ∀ fd, call = .dupsOnto fd fd → table fd = none := by
  cases call with
  | dupsOnto old new =>
    by_cases same : old = new
    · subst same
      rw [followed, if_pos rfl, DescriptorCall.apply_dupsOnto_self,
        DescriptorCall.apply, Function.update_eq_self_iff]
      constructor
      · intro absent fd isCall
        cases isCall
        exact absent.symm
      · intro absent
        exact (absent old rfl).symm
    · rw [followed, if_neg same]
      refine ⟨fun _ fd isCall => ?_, fun _ => rfl⟩
      cases isCall
      exact absurd rfl same
  | opens | closes | dups | keeps =>
    refine ⟨fun _ fd isCall => ?_, fun _ => rfl⟩
    cases isCall

/-- A smaller table stays smaller if it learns no more of what is opened. -/
theorem Line.within_descriptorCall {δ : Type} {known table : Descriptors δ}
    (within : known.Within table) (line : Line) {target target' : Option δ}
    (learns : ∀ value, target = some value → target' = some value) :
    ((followed (line.descriptorCall target)).apply known).Within
      ((line.descriptorCall target').apply table) := by
  have same := within_followed within (line.descriptorCall target)
  unfold Line.descriptorCall at same ⊢
  cases call : line.call with
  | openFile path flags mode | openat path flags mode =>
    simp only
    split_ifs
    · exact within.update line.ret learns
    · exact within
  | _ =>
    rw [call] at same
    exact same

/-- The parser knows the watched descriptors of the process, and the others
that it knows refer to nothing that is watched. -/
structure Mirrors (env : ParserEnv) (state : ParserState) (tables : FileTables) : Prop where
  agrees : Agrees env state.pad state.tracker tables
  watched : tables.known.view id = tables.table.view id
  outside : (state.outsideTable.view fun _ =>
    some (none : Option Path)).Within tables.table
  sound : state.pad.Sound

section

variable
  {env : ParserEnv} {state after : ParserState} {tables : FileTables}
  {line : Line} {ops : List MicroOpKind} {fd : ℤ}

theorem Agrees.isWatched_iff (agrees : Agrees env state.pad state.tracker tables) :
    state.tracker.fdtracker.isWatched fd = true ↔ ∃ path, tables.known fd = some (some path) := by
  have seen := congrFun agrees.names fd
  rw [FileDescriptorTracker.isWatched_iff]
  unfold Descriptors.view at seen
  cases held : state.tracker.fdtracker.table fd with
  | none =>
    rw [held] at seen
    constructor
    · intro impossible
      exact absurd rfl impossible
    · rintro ⟨path, known⟩
      rw [known] at seen
      cases seen
  | some number =>
    have inside := agrees.bound fd number held
    refine ⟨fun _ => ?_, fun _ => Option.some_ne_none number⟩
    rw [held, Option.bind_some, nameAt, List.getElem?_eq_getElem inside, Option.map_some] at seen
    obtain ⟨target, known, isPath⟩ := Option.bind_eq_some_iff.1 seen.symm
    exact ⟨_, known.trans (congrArg some isPath)⟩

theorem view_id_eq_some_iff {table : Descriptors (Option Path)} {path : Path} :
    table.view id fd = some path ↔ table fd = some (some path) := by
  unfold Descriptors.view
  cases table fd with
  | none => simp
  | some target => simp

/-- The tables agree exactly if no watched descriptor is lost. -/
theorem tablesAgree_iff (agrees : Agrees env state.pad state.tracker tables)
    (outside : (state.outsideTable.view fun _ => some (none : Option Path)).Within tables.table) :
    TablesAgree env state tables.table ↔ tables.known.view id = tables.table.view id := by
  constructor
  · intro agree
    funext other
    apply Option.ext
    intro path
    rw [view_id_eq_some_iff, view_id_eq_some_iff]
    constructor
    · exact agrees.within other (some path)
    · intro refers
      obtain ⟨path', known⟩ := agrees.isWatched_iff.1 ((agree.watched other).2 ⟨path, refers⟩)
      rw [agrees.within other _ known] at refers
      cases refers
      exact known
  · intro same
    have knows : ∀ {other path}, tables.table other = some (some path) ↔
          tables.known other = some (some path) := by
      intro other path
      rw [← view_id_eq_some_iff, ← view_id_eq_some_iff, same]
    refine ⟨?_, ?_, ?_⟩
    · intro other
      rw [agrees.isWatched_iff]
      exact exists_congr fun path => knows.symm
    · intro other path refers
      obtain ⟨details, found, -, leads⟩ := agrees.exists_details (knows.1 refers)
      exact ⟨details, found, leads⟩
    · rintro other ⟨watched, unwatched⟩
      obtain ⟨path, known⟩ := agrees.isWatched_iff.1 watched
      obtain ⟨number, held⟩ := Option.ne_none_iff_exists'.1
        (FileDescriptorTracker.isWatched_iff.1 unwatched)
      have seen : (state.outsideTable.view fun _ =>
          some (none : Option Path)) other = some none := by
        unfold Descriptors.view ParserState.outsideTable
        rw [held]
        rfl
      have refers := outside other none seen
      rw [agrees.within other _ known] at refers
      cases refers

namespace Mirrors

section

variable (mirrors : Mirrors env state tables)
include mirrors

theorem apart : state.Apart := by
  have agree := (tablesAgree_iff mirrors.agrees mirrors.outside).2 mirrors.watched
  intro fd watched
  by_contra unwatched
  exact agree.apart fd ⟨FileDescriptorTracker.isWatched_iff.2 watched,
    FileDescriptorTracker.isWatched_iff.2 unwatched⟩

theorem free (unused : tables.table fd = none) : state.tracker.fdtracker.table fd = none ∧
      state.outsideTable fd = none := by
  refine ⟨mirrors.agrees.free (mirrors.agrees.within.free unused), ?_⟩
  by_contra held
  obtain ⟨number, held⟩ := Option.ne_none_iff_exists'.1 held
  have seen := mirrors.outside fd none (by
    unfold Descriptors.view
    rw [held]
    rfl)
  rw [unused] at seen
  cases seen

theorem unnamed {path : Path} (absent : state.pad.tree.resolve (env.replayedPath path) = none) :
    state.tracker.fdtracker.getFdsFname path = [] := by
  unfold FileDescriptorTracker.getFdsFname FileDescriptorTracker.fdsWhere
  rw [List.filter_eq_nil_iff]
  intro fd _ named
  rw [Option.any_eq_true] at named
  obtain ⟨details, found, isName⟩ := named
  obtain ⟨number, -, lookup⟩ := Option.bind_eq_some_iff.1 found
  have member : details.file ∈ state.tracker.fdtracker.files :=
    List.mem_map_of_mem (List.mem_of_getElem? lookup)
  have leads := mirrors.agrees.inodes details.file member
  rw [FdDetails.file, of_decide_eq_true isName, absent] at leads
  cases leads

/-- Only a watched descriptor that is duplicated onto itself is lost. -/
theorem watched_next_iff : (tables.next env line).known.view id =
        (tables.next env line).table.view id ↔
      ∀ old, line.call = .dup2 old → line.ret ≠ -1 → line.ret = old →
        ∀ path, tables.table old ≠ some (some path) := by
  rw [FileTables.next, Descriptors.view_apply, Descriptors.view_apply,
    view_followed, mirrors.watched, followed_apply_eq_iff]
  have callEq : ∀ fd, (FileTables.callOf env line).view id = .dupsOnto fd fd ↔
        line.call = .dup2 fd ∧ line.ret ≠ -1 ∧ line.ret = fd := by
    intro fd
    unfold FileTables.callOf
    rw [Line.view_descriptorCall]
    unfold Line.descriptorCall
    cases call : line.call with
    | dup2 old =>
      by_cases failed : line.ret = -1
      · simp [failed]
      · simp only [failed, if_false, DescriptorCall.dupsOnto.injEq,
          Call.dup2.injEq, ne_eq, not_false_eq_true, true_and]
    | openFile | openat | close | dup | fcntlDupfd =>
      split_ifs <;> simp
    | _ => simp
  simp only [callEq]
  constructor
  · intro lost old isCall succeeded same path refers
    have unseen := lost old ⟨isCall, succeeded, same⟩
    rw [view_id_eq_some_iff.2 refers] at unseen
    cases unseen
  · rintro kept fd ⟨isCall, succeeded, same⟩
    cases seen : tables.table.view id fd with
    | none => rfl
    | some path => exact absurd (view_id_eq_some_iff.1 seen) (kept fd isCall succeeded same path)

theorem unused_number (unused : state.pad.tree.node line.fresh = none) :
    line.fresh ∉ state.pad.numbers := by
  rw [mirrors.sound.mem_numbers_iff]
  intro reached
  exact mirrors.sound.rooted.node_of_reaches reached unused

theorem admits (allowed : (FileTables.callOf env line).Allowed tables.table) :
    state.Admits line := by
  intro fd takes
  apply mirrors.free
  apply allowed.free
  rw [← takes]
  exact line.taken_descriptorCall _ _

theorem exists_open_iff {path : Path} {flags : List OpenFlag} {mode : Option String}
    (free : 0 ≤ line.ret → state.tracker.fdtracker.table line.ret = none ∧
        state.outsideTable line.ret = none) (unused : state.pad.tree.node line.fresh = none) :
    (∃ after ops, state.openBranch env line path flags mode = .ok (after, ops)) ↔
      (env.isInteresting path = true →
        ParserState.OpenFits env state.pad line.ret path flags mode) := by
  cases interesting : env.isInteresting path with
  | true =>
    rw [ParserState.exists_openBranch_iff mirrors.sound (mirrors.unused_number unused) interesting
      (fun absent => mirrors.unnamed absent) fun opened => (free opened).1]
    exact ⟨fun fits _ => fits, fun fits => fits rfl⟩
  | false =>
    have returns := @ParserState.exists_openBranch_outside env state line
      path flags mode interesting fun opened => (free opened).2
    refine ⟨fun _ impossible => ?_, fun _ => returns⟩
    cases impossible

section

variable (onTable : line.call.onTable = true)
  (allowed : (FileTables.callOf env line).Allowed tables.table)
include onTable allowed

/-- A line fits exactly if its branch returns and loses no watched
descriptor. -/
theorem fits_iff (unused : state.pad.tree.node line.fresh = none)
    : line.Fits env state tables.table ↔
      (∃ after ops, emit env state line = .ok (after, ops)) ∧ (tables.next env line).known.view id =
          (tables.next env line).table.view id := by
  rw [mirrors.watched_next_iff]
  unfold Line.Fits emit
  cases call : line.call with
  | openFile path flags mode | openat path flags mode =>
    simp only [reduceCtorEq, false_implies, implies_true, and_true]
    rw [mirrors.exists_open_iff (@ParserState.Admits.of_open state line path flags mode
      (mirrors.admits allowed) (by simp [call])) unused]
  | close closed =>
    obtain ⟨after, ran, -⟩ := @ParserState.exists_closeBranch state line mirrors.apart closed
    simp only [reduceCtorEq, false_implies, implies_true, and_true, true_iff]
    exact ⟨after, [], ran⟩
  | dup old =>
    have free := (mirrors.admits allowed).of_dup (Or.inl call)
    obtain ⟨after, ran, -⟩ := ParserState.exists_dupBranch mirrors.apart
      old (fun succeeded => (free succeeded).1) (fun succeeded => (free succeeded).2)
    simp only [reduceCtorEq, false_implies, implies_true, and_true, true_iff]
    exact ⟨after, [], ran⟩
  | dup2 old =>
    obtain ⟨after, ran, -⟩ := @ParserState.exists_dup2Branch state line mirrors.apart old
    simp only [Call.dup2.injEq]
    constructor
    · intro kept
      refine ⟨⟨after, [], ran⟩, ?_⟩
      intro other same
      subst same
      exact kept
    · intro returns
      exact returns.2 old rfl
  | fcntlDupfd duplicated =>
    have free := (mirrors.admits allowed).of_dup (Or.inr call)
    simp only [reduceCtorEq, false_implies, implies_true, and_true]
    rw [ParserState.exists_fcntlDupfdBranch_iff (fun succeeded => (free succeeded).1)
      (fun succeeded => (free succeeded).2)]
  | _ =>
    rw [call] at onTable
    cases onTable

theorem outside_next (ran : emit env state line = .ok (after, ops)) :
    (after.outsideTable.view fun _ => some (none : Option Path)).Within
      (tables.next env line).table := by
  obtain ⟨target, only, tableEq⟩ := ParserState.exists_outsideTable_eq mirrors.apart
      (mirrors.admits allowed) onTable ran
  rw [tableEq, Descriptors.view_apply, view_followed, Line.view_descriptorCall]
  apply Line.within_descriptorCall mirrors.outside line
  intro value seen
  obtain ⟨number, isTarget, isValue⟩ := Option.bind_eq_some_iff.1 seen
  rw [only (by rw [isTarget]; exact Option.some_ne_none number)]
  exact isValue

theorem agrees_next (unused : state.pad.tree.node line.fresh = none)
    (ran : emit env state line = .ok (after, ops)) :
    Agrees env after.pad after.tracker (tables.next env line) := by
  exact mirrors.agrees.next (translated_of_emit (Call.onDescriptors_of_onTable onTable) unused
    mirrors.agrees.terminal (fun fd takes => mirrors.agrees.untaken allowed takes) ran)

theorem next (unused : state.pad.tree.node line.fresh = none)
    (ran : emit env state line = .ok (after, ops))
    (watched : (tables.next env line).known.view id = (tables.next env line).table.view id) :
    Mirrors env after (tables.next env line) := by
  have served : line.Served env state.pad := by
    refine ⟨fun _ => mirrors.unused_number unused, ?_⟩
    intro path removed
    unfold Call.onTable at onTable
    unfold Line.removedPath? at removed
    cases call : line.call <;> simp_all
  exact ⟨mirrors.agrees_next onTable allowed unused ran, watched, mirrors.outside_next onTable
    allowed ran, (outcome_of_emit mirrors.sound served ran).advances.sound⟩

end

end

end Mirrors

/-! ## Traces -/

theorem TracksTable.agree {table : Descriptors (Option Path)} {lines : List Line}
    (tracks : TracksTable env state table lines) :
    TablesAgree env state table := by
  cases lines with
  | nil => exact tracks
  | cons line rest => exact tracks.1

theorem Mirrors.tracksTable_iff {lines : List Line} (mirrors : Mirrors env state tables)
    (possible : PossibleTrace env tables.table lines) (fresh : NumbersFresh env state lines) :
    TracksTable env state tables.table lines ↔ FitsTrace env state tables.table lines := by
  induction lines generalizing state tables with
  | nil =>
    exact ⟨fun _ => trivial, fun _ =>
      (tablesAgree_iff mirrors.agrees mirrors.outside).2 mirrors.watched⟩
  | cons line rest ih =>
    obtain ⟨onTable, allowed, further⟩ := possible
    obtain ⟨unused, freshRest⟩ := fresh
    have fits := mirrors.fits_iff onTable allowed unused
    constructor
    · rintro ⟨-, next, nextOps, ran, tracks⟩
      have watched := (tablesAgree_iff (mirrors.agrees_next onTable allowed unused ran)
        (mirrors.outside_next onTable allowed ran)).1 tracks.agree
      refine ⟨fits.2 ⟨⟨next, nextOps, ran⟩, watched⟩, ?_⟩
      simp only [ran] at freshRest ⊢
      exact (ih (mirrors.next onTable allowed unused ran watched) further freshRest).1 tracks
    · rintro ⟨lineFits, restFits⟩
      obtain ⟨⟨next, nextOps, ran⟩, watched⟩ := fits.1 lineFits
      simp only [ran] at freshRest restFits
      refine ⟨(tablesAgree_iff mirrors.agrees mirrors.outside).2
        mirrors.watched, next, nextOps, ran, ?_⟩
      exact (ih (mirrors.next onTable allowed unused ran watched) further freshRest).2 restFits

end

theorem mirrors_init (env : ParserEnv) {pad : Scratchpad} (sound : pad.Sound)
    (inherited : ℤ → Bool) : Mirrors env (.init pad) (.start inherited) := by
  refine ⟨agrees_init env pad inherited, rfl, ?_, sound⟩
  intro fd target held
  cases held

/-- A file is opened and its descriptor is duplicated. -/
def duplicatedLog (duplicate : Call) (new : ℤ) : List Line :=
  [⟨.openFile ["workload", "log"] [.oCreat, .oRdwr] (some "0666"), 3, 12,
      ""⟩,
    ⟨duplicate, new, 0, ""⟩]

/-- Standard output is duplicated as descriptor `10`, twice. -/
def reopenedAlias : List Line :=
  [⟨.fcntlDupfd 1, 10, 0, ""⟩, ⟨.close 10, 0, 0, ""⟩, ⟨.fcntlDupfd 1, 10, 0, ""⟩]

end Alice
