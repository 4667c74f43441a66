import Alice.Parser.WriteSplit
import Alice.Posix.Renames

/-! # The `rename` branch

If the object at the destination has one link it is moved aside, so that its
number is not handed out again, and then the call is made. -/

namespace Alice

open Checked
open Posix (Ino Name Path Tree)

namespace ParserState

variable (env : ParserEnv) (state : ParserState)

/-- The name under which an object is kept that the traced process
removes. -/
def awayName (path : Path) (uuid : String) : Name :=
  basename (env.replayedPath path) ++ ".deleted_" ++ uuid

def clearDest (line : Line) (dest : Path) : Except PyError ParserState :=
  match state.stat? env dest with
  | some stat =>
      if stat.nlink = 1 then do
        assertThat (state.tracker.fdtracker.getFds stat.ino = [])
        assertThat (state.tracker.memtracker.fileMapped stat.ino = false)
        state.moveAway env dest line.uuid
      else
        pure state
  | none => pure state

/-- The operation that the branch emits, for the parents that it finds. -/
def renameInfo (source dest : Path) (stat : Stat) (sourceParent destParent : Ino) : RenameInfo where
  source := source
  dest := dest
  sourceInode := stat.ino
  destInode := (state.stat? env dest).map Stat.ino
  sourceParent := sourceParent
  destParent := destParent
  sourceSize := stat.size
  destSize := ((state.stat? env dest).map Stat.size).getD 0
  destHardlinks := ((state.stat? env dest).map Stat.nlink).getD 0

end ParserState

section

variable
  {env : ParserEnv} {state : ParserState} {line : Line} {source dest : Path}
  {sourceDir destDir moved : Ino} {sourceName destName : Name} {stat : Stat}

variable {path : Path} {dir : Ino} {name : Name}

theorem Scratchpad.parentInode_of_parentOf {pad : Scratchpad}
    (parent : pad.tree.parentOf path = .ok (dir, name)) (dirStat : DirStat) :
    pad.parentInode dirStat path = .ok dir := by
  obtain ⟨front, isConcat, resolved, isDirectory⟩ := Tree.parentOf_eq_ok_iff.1 parent
  obtain ⟨entries, node⟩ := Tree.isDir_iff.1 isDirectory
  have above : pad.replayedStat dirStat path.dropLast =
        some ⟨dir, (dirStat pad.tree dir).1, (dirStat pad.tree dir).2, true⟩ := by
    rw [isConcat, List.dropLast_concat]
    simp only [Scratchpad.replayedStat, resolved, Option.bind_some, Scratchpad.statInode, node]
  cases path with
  | nil => simp at isConcat
  | cons first rest => simp only [Scratchpad.parentInode, above]

theorem ParserState.stat?_of_resolve {ino : Ino}
    (resolved : state.pad.tree.resolve (env.replayedPath path) = some ino) :
    state.stat? env path = state.pad.statInode env.dirStat ino := by
  unfold ParserState.stat? Scratchpad.replayedStat
  rw [resolved]
  rfl

theorem emit_rename_eq (call : line.call = .rename source dest) (returned : line.ret ≠ -1)
    (interesting : env.isInteresting source = true)
    (interestingDest : env.isInteresting dest = true)
    (places : state.pad.tree.RenameAt (env.replayedPath source)
      (env.replayedPath dest) sourceDir destDir moved sourceName destName)
    (found : state.pad.statInode env.dirStat moved = some stat) : emit env state line =
      (state.clearDest env line dest >>= fun cleared =>
        cleared.pad.osCall (fun tree =>
          tree.rename (env.replayedPath source) (env.replayedPath dest)) >>=
          fun pad => pure ({ cleared with pad := pad },
            [.rename (state.renameInfo env source dest stat sourceDir destDir)])) := by
  have sourceStat : state.stat? env source = some stat :=
    (ParserState.stat?_of_resolve places.resolve_source).trans found
  have sourceParent : state.parentInode env source = .ok sourceDir :=
    Scratchpad.parentInode_of_parentOf places.source_parent env.dirStat
  have destParent : state.parentInode env dest = .ok destDir :=
    Scratchpad.parentInode_of_parentOf places.target_parent env.dirStat
  simp only [emit, call, ParserState.renameBranch, returned, if_false, interesting, if_true,
    interestingDest, assertThat, sourceStat, Option.isSome_some, ok_bind, ParserState.stat,
    sourceParent, destParent, ParserState.clearDest, ParserState.renameInfo]
  cases state.stat? env dest with
  | none => rfl
  | some destStat =>
    by_cases last : destStat.nlink = 1
    · simp only [last, if_true, bind_assoc]
    · simp only [last, if_false, pure_bind]

theorem renameBranch_cases {after : ParserState} {ops : List MicroOpKind}
    (ran : state.renameBranch env line source dest = .ok (after, ops)) : after = state ∧ ops = [] ∨
      line.ret ≠ -1 ∧ env.isInteresting source = true ∧ ∃ cleared pad info,
          state.clearDest env line dest = .ok cleared ∧ cleared.pad.osCall (fun tree =>
            tree.rename (env.replayedPath source) (env.replayedPath dest)) = .ok pad ∧
          after = { cleared with pad := pad } ∧ ops = [.rename info] := by
  unfold ParserState.renameBranch at ran
  split_ifs at ran with failed interesting
  · cases ran
    exact Or.inl ⟨rfl, rfl⟩
  · right
    obtain ⟨-, -, ran⟩ := bind_eq_ok_iff.1 ran
    obtain ⟨-, -, ran⟩ := bind_eq_ok_iff.1 ran
    obtain ⟨stat, -, ran⟩ := bind_eq_ok_iff.1 ran
    obtain ⟨sourceParent, -, ran⟩ := bind_eq_ok_iff.1 ran
    obtain ⟨destParent, -, ran⟩ := bind_eq_ok_iff.1 ran
    refine ⟨failed, interesting, ?_⟩
    unfold ParserState.clearDest
    cases found : state.stat? env dest with
    | none =>
      simp only [found, pure_bind] at ran
      obtain ⟨pad, moving, ran⟩ := bind_eq_ok_iff.1 ran
      cases ran
      exact ⟨state, pad, _, rfl, moving, rfl, rfl⟩
    | some destStat =>
      simp only [found] at ran ⊢
      by_cases last : destStat.nlink = 1
      · simp only [if_pos last] at ran ⊢
        obtain ⟨⟨⟩, closed, ran⟩ := bind_eq_ok_iff.1 ran
        obtain ⟨⟨⟩, unmapped, ran⟩ := bind_eq_ok_iff.1 ran
        obtain ⟨cleared, clearing, ran⟩ := bind_eq_ok_iff.1 ran
        obtain ⟨pad, moving, ran⟩ := bind_eq_ok_iff.1 ran
        cases ran
        refine ⟨cleared, pad, _, ?_, moving, rfl, rfl⟩
        rw [closed, ok_bind, unmapped, ok_bind, clearing]
      · simp only [if_neg last, pure_bind] at ran ⊢
        obtain ⟨pad, moving, ran⟩ := bind_eq_ok_iff.1 ran
        cases ran
        exact ⟨state, pad, _, rfl, moving, rfl, rfl⟩
  · cases ran
    exact Or.inl ⟨rfl, rfl⟩

/-! ## Moving aside -/

/-- The tree in which a file was moved aside. -/
def Scratchpad.setAside (pad : Scratchpad) (directory : Ino) (name away : Name) (file : Ino) :
    Scratchpad :=
  { pad with
    tree := (pad.tree.dropEntry directory name).bindEntry directory away file }

theorem Scratchpad.setAside_spec {pad : Scratchpad} {file : Ino} {away : Name}
    (isDirectory : pad.tree.isDir dir = true)
    (bound : pad.tree.child dir name = some file) (notDir : pad.tree.isDir file = false)
    (fresh : pad.tree.child dir away = none) : (∀ other tested,
      (pad.setAside dir name away file).tree.child other tested =
        if other = dir ∧ tested = away then
          some file
        else if other = dir ∧ tested = name then
          none
        else
          pad.tree.child other tested) ∧
      (∀ ino, (pad.setAside dir name away file).tree.isDir ino = pad.tree.isDir ino) ∧
      ∀ {path parent last}, pad.tree.parentOf path = .ok (parent, last) →
        (pad.setAside dir name away file).tree.parentOf path = .ok (parent, last) := by
  have dropped := Tree.rebinds_dropEntry pad.tree dir name
  have stillDirectory : (pad.tree.dropEntry dir name).isDir dir = true :=
    (dropped.isDir dir).trans isDirectory
  have kept := Tree.rebinds_bindEntry stillDirectory away file
  refine ⟨?_, ?_, ?_⟩
  · intro other tested
    refine (kept.child other tested).trans ?_
    rw [dropped.child]
  · intro ino
    exact (kept.isDir ino).trans (dropped.isDir ino)
  · intro path parent last found
    refine kept.parentOf ?_ (dropped.parentOf ?_ found)
    · intro ino stillBound
      rw [dropped.child, fresh, ite_self] at stillBound
      cases stillBound
    · intro ino alsoBound
      rw [bound] at alsoBound
      cases alsoBound
      exact notDir

theorem ParserState.moveAway_of_file {file : Ino} {uuid : String}
    (parent : state.pad.tree.parentOf (env.replayedPath path) = .ok (dir, name))
    (bound : state.pad.tree.child dir name = some file) (notDir : state.pad.tree.isDir file = false)
    (fresh : state.pad.tree.child dir (ParserState.awayName env path uuid) = none) :
    state.moveAway env path uuid = .ok { state with
        pad := state.pad.setAside dir name (ParserState.awayName env path uuid) file } := by
  obtain ⟨front, isConcat, resolved, isDirectory⟩ := Tree.parentOf_eq_ok_iff.1 parent
  have places : state.pad.tree.RenameAt (env.replayedPath path) ((env.replayedPath path).dropLast ++
        [ParserState.awayName env path uuid])
      dir dir file name (ParserState.awayName env path uuid) := by
    refine ⟨parent, ?_, bound⟩
    rw [isConcat, List.dropLast_concat]
    exact Tree.parentOf_concat resolved isDirectory _
  have renamed := places.rename_free notDir fresh
  unfold ParserState.awayName at renamed
  simp only [ParserState.moveAway, Scratchpad.osCall, renamed]
  rfl

section

variable
  (call : line.call = .rename source dest) (returned : line.ret ≠ -1)
  (interesting : env.isInteresting source = true)
  (interestingDest : env.isInteresting dest = true)
  (places : state.pad.tree.RenameAt (env.replayedPath source)
    (env.replayedPath dest) sourceDir destDir moved sourceName destName)
  (found : state.pad.statInode env.dirStat moved = some stat)

include call returned interesting interestingDest places found

theorem emit_rename_free (notDir : state.pad.tree.isDir moved = false)
    (free : state.pad.tree.child destDir destName = none) : ∃ after, emit env state line =
        .ok (after, [.rename (state.renameInfo env source dest stat sourceDir destDir)]) := by
  have noStat : state.stat? env dest = none := by
    unfold ParserState.stat? Scratchpad.replayedStat
    rw [places.resolve_target, free]
    rfl
  have renamed := places.rename_free notDir free
  rw [emit_rename_eq call returned interesting interestingDest places found]
  simp only [ParserState.clearDest, noStat, pure_bind, Scratchpad.osCall, renamed, ok_bind]
  exact ⟨_, rfl⟩

variable {destStat : Stat}

section

variable (destFound : state.stat? env dest = some destStat)
include destFound

/-- The destination has other links, so that it is not moved aside. -/
theorem emit_rename_linked (linked : destStat.nlink ≠ 1) {after : Tree}
    (renamed : state.pad.tree.rename (env.replayedPath source) (env.replayedPath dest) = .ok after)
    : ∃ after, emit env state line =
        .ok (after, [.rename (state.renameInfo env source dest stat sourceDir destDir)]) := by
  rw [emit_rename_eq call returned interesting interestingDest places found]
  simp only [ParserState.clearDest, destFound, linked, if_false, pure_bind,
    Scratchpad.osCall, renamed, ok_bind]
  exact ⟨_, rfl⟩

/-- The destination is the last link of another file, which is moved
aside. -/
theorem emit_rename_last (last : destStat.nlink = 1) (notDir : state.pad.tree.isDir moved = false)
    (bound : state.pad.tree.child destDir destName = some destStat.ino)
    (destNotDir : state.pad.tree.isDir destStat.ino = false) (different : destStat.ino ≠ moved)
    (fresh : state.pad.tree.child destDir (ParserState.awayName env dest line.uuid) = none)
    (closed : state.tracker.fdtracker.getFds destStat.ino = [])
    (unmapped : state.tracker.memtracker.fileMapped destStat.ino = false) : ∃ after,
      emit env state line = .ok (after, [.rename (state.renameInfo env source dest stat sourceDir
          destDir)]) := by
  have isDirectory := Tree.isDir_of_parentOf places.target_parent
  obtain ⟨child, isDir, parentOf⟩ := Scratchpad.setAside_spec isDirectory bound destNotDir fresh
  have aside := ParserState.moveAway_of_file places.target_parent bound destNotDir fresh
  have placesThen : (state.pad.setAside destDir destName
      (ParserState.awayName env dest line.uuid) destStat.ino).tree.RenameAt
      (env.replayedPath source) (env.replayedPath dest) sourceDir destDir
      moved sourceName destName := by
    refine ⟨parentOf places.source_parent, parentOf places.target_parent, ?_⟩
    rw [child, if_neg, if_neg]
    · exact places.found
    · intro same
      have sourceFound := places.found
      rw [same.1, same.2, bound] at sourceFound
      exact different (Option.some.inj sourceFound)
    · intro same
      have sourceFound := places.found
      rw [same.1, same.2, fresh] at sourceFound
      cases sourceFound
  have freeThen : (state.pad.setAside destDir destName
      (ParserState.awayName env dest line.uuid) destStat.ino).tree.child
      destDir destName = none := by
    rw [child, if_neg, if_pos ⟨rfl, rfl⟩]
    intro same
    rw [← same.2, bound] at fresh
    cases fresh
  have renamed := placesThen.rename_free ((isDir moved).trans notDir) freeThen
  rw [emit_rename_eq call returned interesting interestingDest places found]
  simp only [ParserState.clearDest, destFound, last, if_true, assertThat,
    closed, unmapped, ok_bind, aside, Scratchpad.osCall, renamed]
  exact ⟨_, rfl⟩

/-- The process still has the destination open or mapped. -/
theorem emit_rename_used (last : destStat.nlink = 1)
    (used : ¬(state.tracker.fdtracker.getFds destStat.ino = [] ∧
      state.tracker.memtracker.fileMapped destStat.ino = false)) :
    emit env state line = .error .assertionError := by
  rw [emit_rename_eq call returned interesting interestingDest places found]
  simp only [ParserState.clearDest, destFound, last, if_true, assertThat]
  by_cases closed : state.tracker.fdtracker.getFds destStat.ino = []
  · rw [if_pos closed, if_neg fun unmapped => used ⟨closed, unmapped⟩]
    rfl
  · simp only [closed, if_false, error_bind]

end

/-- A file with one link is renamed to itself: it is moved aside and then
missing. -/
theorem emit_rename_self (destFound : state.stat? env dest = some stat) (last : stat.nlink = 1)
    (notDir : state.pad.tree.isDir moved = false) (sameDir : sourceDir = destDir)
    (sameName : sourceName = destName)
    (fresh : state.pad.tree.child destDir (ParserState.awayName env dest line.uuid) = none)
    (result : ParserState × List MicroOpKind) : emit env state line ≠ .ok result := by
  subst sameDir sameName
  by_cases used : state.tracker.fdtracker.getFds stat.ino = [] ∧
      state.tracker.memtracker.fileMapped stat.ino = false
  · obtain ⟨closed, unmapped⟩ := used
    have isDirectory := Tree.isDir_of_parentOf places.target_parent
    have bound := places.found
    obtain ⟨child, _, parentOf⟩ := Scratchpad.setAside_spec isDirectory bound notDir fresh
    have aside := ParserState.moveAway_of_file places.target_parent bound notDir fresh
    have missing : (state.pad.setAside sourceDir sourceName
        (ParserState.awayName env dest line.uuid) moved).tree.child sourceDir
        sourceName = none := by
      rw [child, if_neg, if_pos ⟨rfl, rfl⟩]
      intro same
      rw [← same.2, bound] at fresh
      cases fresh
    have refused : (state.pad.setAside sourceDir sourceName
        (ParserState.awayName env dest line.uuid) moved).tree.rename
        (env.replayedPath source) (env.replayedPath dest) = .error .enoent := by
      unfold Tree.rename
      rw [parentOf places.source_parent, parentOf places.target_parent]
      simp only [bind, Except.bind, missing]
      rfl
    rw [emit_rename_eq call returned interesting interestingDest places found]
    simp only [ParserState.clearDest, destFound, last, if_true, assertThat,
      closed, unmapped, ok_bind, aside, Scratchpad.osCall, refused, error_bind]
    intro ran
    cases ran
  · rw [emit_rename_used call returned interesting interestingDest places found destFound last used]
    intro ran
    cases ran

end

end

end Alice
