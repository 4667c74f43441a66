import Alice.Parser.Renames
import Alice.Posix.Rooted
import Alice.Replay.Refinement

/-! # What a renaming means

For a regular file the replay of a rename is what POSIX describes, if the
destination is free or another file.  Where both names are links to one file
the replay loses the source, and the entry of a directory cannot be removed as
that of a file.  The parser itself stops if the destination is in use, or if a
file with one link is renamed to itself. -/

namespace Alice

open Checked
open Posix (Ino Name Path Bytes Tree)

/-! ## Rows that change data -/

namespace ReplayState

/-- What was found is still found, and the numbers to come are unused. -/
structure Keeps (before after : ReplayState) : Prop where
  paths : before.tree.KeepsPaths after.tree
  isDir : ∀ ino, before.tree.isDir ino = true → after.tree.isDir ino = true
  dirinodeMap : after.dirinodeMap = before.dirinodeMap
  unused : ∀ ino, after.next ≤ ino → after.tree.node ino = none

variable {state after : ReplayState} {env : ReplayEnv} {i : ℕ}

theorem Keeps.trans {middle : ReplayState} (front : Keeps state middle)
    (back : Keeps middle after) : Keeps state after where
  paths := front.paths.trans back.paths
  isDir ino isDirectory := back.isDir ino (front.isDir ino isDirectory)
  dirinodeMap := back.dirinodeMap.trans front.dirinodeMap
  unused := back.unused

theorem keeps_refl (unused : ∀ ino, state.next ≤ ino → state.tree.node ino = none) :
    Keeps state state :=
  ⟨Tree.KeepsPaths.refl _, fun _ isDirectory => isDirectory, rfl, unused⟩

variable {inode : Inode}

section

variable (unused : ∀ ino, state.next ≤ ino → state.tree.node ino = none)
include unused

theorem keeps_getInodeFile {mode : Option Mode}
    (returned : state.getInodeFile inode mode = .ok after) :
    Keeps state after := by
  unfold getInodeFile at returned
  split_ifs at returned
  · cases returned
    exact keeps_refl unused
  · obtain ⟨⟨⟩, _, returned⟩ := bind_eq_ok_iff.1 returned
    obtain ⟨made, called, isAfter⟩ := map_eq_ok_iff.1 returned
    unfold osCall at called
    have freshUnused := unused state.next (Nat.le_refl _)
    cases created : state.tree.create (inodePath inode) state.next with
    | error errno =>
      simp only [created] at called
      cases called
    | ok tree =>
      simp only [created] at called
      cases called
      subst isAfter
      refine ⟨Tree.keepsPaths_create freshUnused created, ?_, rfl, ?_⟩
      · intro ino isDirectory
        rcases Tree.adds_of_create freshUnused created with
          same | ⟨dir, name, _, adds⟩
        · exact same ▸ isDirectory
        · refine (adds.isDir ino ?_).trans isDirectory
          intro isFresh
          exact Tree.node_isSome_of_isDir isDirectory (isFresh ▸ freshUnused)
      · intro ino beyond
        have above : state.next < ino := beyond
        have unusedBefore := unused ino (Nat.le_of_lt above)
        rcases Tree.adds_of_create freshUnused created with
          same | ⟨dir, name, _, adds⟩
        · exact same ▸ unusedBefore
        · exact (adds.unused ino (Nat.ne_of_gt above)).2 unusedBefore

theorem keeps_modifyFile {change : Bytes → Bytes}
    (returned : state.modifyFile inode change = .ok after) :
    Keeps state after := by
  obtain ⟨opened, found, returned⟩ := bind_eq_ok_iff.1 returned
  have front := keeps_getInodeFile unused found
  refine front.trans ?_
  unfold osCall at returned
  cases modified : opened.tree.modify (inodePath inode) change with
  | error errno =>
    simp only [modified] at returned
    cases returned
  | ok tree =>
    simp only [modified] at returned
    cases returned
    obtain ⟨file, bytes, isFile, result⟩ := Tree.exists_of_modify modified
    refine ⟨Tree.keepsPaths_modify modified, ?_, rfl, ?_⟩
    · intro ino isDirectory
      subst result
      exact (Tree.isDir_setNode_file (Tree.not_isDir_of_content isFile) _ ino).trans isDirectory
    · intro ino beyond
      have unusedBefore := front.unused ino beyond
      subst result
      refine (Tree.node_setNode_of_ne ?_ _).trans unusedBefore
      intro isFile'
      exact Tree.node_isSome_of_content isFile (isFile' ▸ unusedBefore)

/-- Rows that change data keep what is found. -/
theorem keeps_replayFrom {file : Inode} {source : Option String} {rows : List DiskOp}
    (changes : ∀ op ∈ rows, op.Changes file source)
    (returned : state.replayFrom env i rows = .ok after) :
    Keeps state after := by
  induction rows generalizing state i with
  | nil =>
    cases returned
    exact keeps_refl unused
  | cons op rest ih =>
    obtain ⟨middle, first, returned⟩ := bind_eq_ok_iff.1 returned
    rw [List.forall_mem_cons] at changes
    have front : Keeps state middle := by
      cases op with
      | write op =>
        obtain ⟨opened, found, first⟩ := bind_eq_ok_iff.1 first
        obtain ⟨buffer, _, first⟩ := bind_eq_ok_iff.1 first
        have opens := keeps_getInodeFile unused found
        exact opens.trans (keeps_modifyFile opens.unused first)
      | truncate inode initialSize finalSize atomicity => exact keeps_modifyFile unused first
      | sync => exact changes.1.elim
      | createDirEntry => exact changes.1.elim
      | deleteDirEntry => exact changes.1.elim
      | stdout => exact changes.1.elim
    exact front.trans (ih front.unused changes.2 returned)

end

/-- The entry of a directory is not removed as that of a file. -/
theorem deleteDirEntry_of_directory {parent : Inode} {entry path : Path} {ino : Ino}
    (lookup : state.dirinodeMap parent = some path)
    (resolved : state.tree.resolve (path ++ [basename entry]) = some ino)
    (isDirectory : state.tree.isDir ino = true) :
    state.deleteDirEntry parent entry inode .typeFile = .error (.osError .eisdir) := by
  rw [Tree.resolve_concat] at resolved
  obtain ⟨above, aboveResolved, child⟩ := Option.bind_eq_some_iff.1 resolved
  have aboveIsDir := Tree.isDir_of_child child
  have refused := Tree.unlink_concat aboveResolved aboveIsDir child
  rw [isDirectory, if_pos rfl] at refused
  have present : state.pathExists (path ++ [basename entry]) = true := by
    rw [pathExists, Tree.resolve_concat, aboveResolved, Option.bind_some, child]
    rfl
  simp only [deleteDirEntry, getInodeDirectory, lookup, ok_bind, present, if_true, osCall, refused]

end ReplayState

/-! ## Trees as file systems -/

def fileSystemOf (tree : Tree) : FileSystem where
  names :=
    { dirs := {inode | tree.isDir inode = true}
      files := {inode | (tree.content inode).isSome = true}
      child := tree.child }
  content inode := (tree.content inode).getD []

/-- The replay directory stands for the tree. -/
def ReplayState.Shows (replay : ReplayState) (tree : Tree) : Prop :=
  ∃ store place hub,
    Simulates tree.root (fileSystemOf tree).names (fileSystemOf tree).names
        store replay place hub ∧
      (fileSystemOf tree).Agrees store

/-- The scratchpad has the objects of the traced file system at their paths.
Whatever else it has are objects that the traced process removed. -/
structure Scratchpad.Follows (pad : Scratchpad) (tree : Tree) : Prop where
  root : pad.tree.root = tree.root
  child : ∀ directory name ino, tree.child directory name = some ino →
    pad.tree.child directory name = some ino
  isDir : ∀ ino, tree.isDir ino = true → pad.tree.isDir ino = true
  content : ∀ ino bytes, tree.content ino = some bytes → pad.tree.content ino = some bytes
  links : ∀ file, (tree.content file).isSome = true →
    (fileSystemOf tree).names.Named file →
      pad.links file = (fileSystemOf tree).names.links file

theorem Snapshot.initializeInodeLinks_shows
    {snapshot : Snapshot} (noHardLinks : snapshot.NoHardLinks)
    (hubFree : snapshot.tree.child snapshot.tree.root inodesName = none) : ∃ replay,
      ReplayState.initializeInodeLinks snapshot = .ok replay ∧ replay.Shows snapshot.tree := by
  obtain ⟨replay, returned, simulates⟩ :=
    Snapshot.initializeInodeLinks_simulates noHardLinks hubFree
  exact ⟨replay, returned, _, _, _, simulates, fun _ _ _ => rfl, Snapshot.store_unknown⟩

section

variable {tree : Tree}

theorem live_of_resolve {path : Path} {dir : Ino}
    (resolved : tree.resolve path = some dir) (isDirectory : tree.isDir dir = true) :
    (fileSystemOf tree).names.Live tree.root dir := by
  refine ⟨isDirectory, ?_⟩
  rcases List.eq_nil_or_concat path with isNil | ⟨front, last, isConcat⟩
  · subst isNil
    exact Or.inl (Option.some.inj resolved).symm
  · rw [isConcat, List.concat_eq_append, Tree.resolve_concat] at resolved
    obtain ⟨parent, _, child⟩ := Option.bind_eq_some_iff.1 resolved
    exact Or.inr ⟨parent, last, child⟩

theorem path_unique (wellFormed : (fileSystemOf tree).names.WellFormed tree.root)
    {path path' : Path} {dir : Ino} (resolved : tree.resolve path = some dir)
    (resolved' : tree.resolve path' = some dir) (isDirectory : tree.isDir dir = true)
    : path = path' :=
  Tree.path_unique wellFormed.root_unbound wellFormed.bound_once resolved resolved' isDirectory

theorem represents_of_child {root : Inode} {described : FileSystem}
    (wellFormed : described.names.WellFormed root) (sameRoot : tree.root = root)
    (child : ∀ dir name, tree.child dir name = described.names.child dir name)
    (isDir : ∀ ino ∈ described.names.dirs, tree.isDir ino = true)
    (content : ∀ ino ∈ described.names.files, tree.content ino = some (described.content ino)) :
    described.Represents root tree id := by
  have resolveFrom : ∀ (path : Path) (start : Inode), tree.resolveFrom start path =
        described.names.resolveFrom start path := by
    intro path
    induction path with
    | nil =>
      intro start
      rfl
    | cons name rest ih =>
      intro start
      rw [Tree.resolveFrom, Naming.resolveFrom, child]
      cases described.names.child start name with
      | none => rfl
      | some next => exact ih next
  have known : ∀ (path : Path) (start inode : Inode), described.names.Known start →
        described.names.resolveFrom start path = some inode → described.names.Known inode := by
    intro path
    induction path with
    | nil =>
      intro start inode startKnown resolved
      cases resolved
      exact startKnown
    | cons name rest ih =>
      intro start inode _ resolved
      obtain ⟨next, bound, resolved⟩ := Option.bind_eq_some_iff.1 resolved
      exact ih next inode (wellFormed.target_known start name next bound) resolved
  refine ⟨?_, ?_, ?_⟩
  · intro path
    rw [Option.map_id, Tree.resolve, sameRoot]
    exact resolveFrom path root
  · intro path inode resolved
    rcases known path root inode (Or.inl wellFormed.root_mem) resolved with
      isDirectory | isFile
    · exact Or.inl ⟨isDirectory, isDir inode isDirectory⟩
    · exact Or.inr ⟨isFile, content inode isFile⟩
  · intro path path' inode inode' _ _ same
    exact same

end

/-! ## The disk operations of a renaming -/

section

variable
  {root : Inode} {names : Naming} {store : Inode → Bytes}
  {replay : ReplayState} {place : Inode → Ino} {hub : Ino}
  {env : ReplayEnv} {i : ℕ} {fs : Defaultfs} {info : RenameInfo}
  {rows : List DiskOp}

theorem Simulates.reads_rename (expanded : fs.renameDiskOps info = .ok rows) :
    ∀ op ∈ rows, env.Reads op := by
  have isExpansion : fs.getDiskOps (.rename info) = .ok rows := expanded
  intro op member
  exact (Defaultfs.emits_getDiskOps isExpansion op member).reads trivial

section

variable (simulates : Simulates root names names store replay place hub)
  (performed : names.Performs root (.rename info)) (expanded : fs.renameDiskOps info = .ok rows)
include simulates performed expanded

/-- The names of files are changed without an error, `.inodes` apart. -/
theorem Simulates.replay_rename_iff :
    (∃ replayed, replay.replayFrom env i rows = .ok replayed) ↔
      (root, inodesName) ∉ (MicroOpKind.rename info).entries := by
  have isExpansion : fs.getDiskOps (.rename info) = .ok rows := expanded
  have allowed := (simulates.wellFormed.expands performed isExpansion).1
  rw [simulates.replayFrom_iff (List.Sublist.refl rows) allowed (Simulates.reads_rename expanded)]
  constructor
  · intro fits
    obtain ⟨truncates, destDeleted, _, _, _, rowsEq⟩ := Defaultfs.renameDiskOps_eq expanded
    have avoidsSource := fits.1 (.deleteDirEntry info.sourceParent info.source info.sourceInode
        .typeFile (some "destination and source unlinked fully")) (by simp [rowsEq])
    have avoidsDest := fits.1 (.createDirEntry info.destParent info.dest info.sourceInode none
        .typeFile) (by simp [rowsEq])
    simp only [MicroOpKind.entries, List.mem_cons, Prod.mk.injEq,
      List.not_mem_nil, or_false, not_or]
    exact ⟨fun same => avoidsSource ⟨same.1.symm, same.2.symm⟩,
      fun same => avoidsDest ⟨same.1.symm, same.2.symm⟩⟩
  · intro avoids
    refine ⟨?_, allowed.fitsAll⟩
    intro op member
    exact (Defaultfs.emits_getDiskOps isExpansion op member).avoidsHub avoids

theorem Simulates.replay_rename {replayed : ReplayState}
    (returned : replay.replayFrom env i rows = .ok replayed) : ∃ place',
      Simulates root (names.applyKind (.rename info))
        (names.applyKind (.rename info)) (env.storeFrom i rows store)
        replayed place' hub := by
  have isExpansion : fs.getDiskOps (.rename info) = .ok rows := expanded
  obtain ⟨allowed, result⟩ := simulates.wellFormed.expands performed isExpansion
  have reads : ∀ op ∈ rows, env.Reads op := Simulates.reads_rename expanded
  obtain ⟨avoids, fits⟩ := (simulates.replayFrom_iff (List.Sublist.refl rows) allowed reads).1
      ⟨replayed, returned⟩
  obtain ⟨after, place', finished, done⟩ :=
    simulates.replayFrom_all (i := i) allowed avoids reads fits
  rw [returned] at finished
  cases finished
  rw [result] at done
  exact ⟨place', done⟩

end

/-- The replay stops at the first entry of a directory. -/
theorem Simulates.replay_rename_directory
    (simulates : Simulates root names names store replay place hub)
    (sourceBound : names.child info.sourceParent (basename info.source) = some info.sourceInode)
    (sourceIsDir : info.sourceInode ∈ names.dirs) (destIsDir : 1 ≤ info.destHardlinks →
      ∃ existing ∈ names.dirs, names.child info.destParent (basename info.dest) = some existing)
    (expanded : fs.renameDiskOps info = .ok rows) (replayed : ReplayState) :
    replay.replayFrom env i rows ≠ .ok replayed := by
  have refuses : ∀ {parent inode existing : Inode} {entry : Path} {middle}, existing ∈ names.dirs →
        names.child parent (basename entry) = some existing → replay.Keeps middle →
            middle.deleteDirEntry parent entry inode .typeFile = .error (.osError .eisdir) := by
    intro parent inode existing entry middle isDir bound keeps
    have live := simulates.wellFormed.parent_live _ _ _ bound
    obtain ⟨path, lookup⟩ := simulates.exists_path live.1 live
    have resolved := simulates.resolve_path live.1 live lookup
    have avoids : ¬(parent = root ∧ basename entry = inodesName) := by
      rintro ⟨isRoot, isHub⟩
      rw [isRoot, isHub, simulates.lags.hub_unbound] at bound
      cases bound
    have found : replay.tree.resolve (path ++ [basename entry]) = some (place existing) := by
      rw [Tree.resolve_concat, resolved, Option.bind_some,
        simulates.holds.child parent live.1 _ avoids, bound]
      rfl
    exact ReplayState.deleteDirEntry_of_directory (keeps.dirinodeMap ▸ lookup)
      (keeps.paths _ _ found) (keeps.isDir _ (simulates.holds.isDir existing isDir))
  obtain ⟨truncates, destDeleted, changes, notLast, deletedEq, rowsEq⟩ :=
    Defaultfs.renameDiskOps_eq expanded
  intro returned
  rw [rowsEq, List.append_assoc, ReplayState.replayFrom_append] at returned
  obtain ⟨middle, truncated, returned⟩ := bind_eq_ok_iff.1 returned
  have keeps := ReplayState.keeps_replayFrom simulates.unused changes truncated
  by_cases present : 1 ≤ info.destHardlinks
  · obtain ⟨existing, isDir, bound⟩ := destIsDir present
    rw [deletedEq, if_pos present] at returned
    simp only [List.singleton_append, ReplayState.replayFrom,
      ReplayState.replayRow, refuses isDir bound keeps, error_bind] at returned
    cases returned
  · rw [deletedEq, if_neg present] at returned
    simp only [List.nil_append, ReplayState.replayFrom,
      ReplayState.replayRow, refuses sourceIsDir sourceBound keeps, error_bind] at returned
    cases returned

end

/-! ## From the call to the replay -/

namespace Scratchpad.Follows

variable {pad : Scratchpad} {tree : Tree}

theorem resolve (follows : pad.Follows tree) {path : Path} {ino : Ino}
    (resolved : tree.resolve path = some ino) : pad.tree.resolve path = some ino := by
  unfold Tree.resolve at resolved ⊢
  rw [follows.root]
  exact Tree.resolveFrom_mono follows.child resolved

theorem parentOf (follows : pad.Follows tree) {path : Path} {dir : Ino} {name : Name}
    (parent : tree.parentOf path = .ok (dir, name)) : pad.tree.parentOf path = .ok (dir, name) := by
  obtain ⟨front, isConcat, resolved, isDirectory⟩ := Tree.parentOf_eq_ok_iff.1 parent
  exact Tree.parentOf_eq_ok_iff.2 ⟨front, isConcat,
    follows.resolve resolved, follows.isDir dir isDirectory⟩

theorem renameAt (follows : pad.Follows tree) {source target : Path}
    {sourceDir targetDir moved : Ino} {sourceName targetName : Name}
    (places : tree.RenameAt source target sourceDir targetDir moved sourceName targetName) :
    pad.tree.RenameAt source target sourceDir targetDir moved sourceName
      targetName :=
  ⟨follows.parentOf places.source_parent, follows.parentOf places.target_parent,
    follows.child sourceDir sourceName moved places.found⟩

end Scratchpad.Follows

/-- The translation of the line returns, and the replay of its disk operations
leads to the tree `after`. -/
def RenameRefines (env : ParserEnv) (state : ParserState) (line : Line) (fs : Defaultfs)
    (replayEnv : ReplayEnv) (i : ℕ) (replay : ReplayState) (after : Tree) : Prop :=
  ∃ parsed ops parts replayed,
    emit env state line = .ok (parsed, ops) ∧
      ops.mapM fs.getDiskOps = .ok parts ∧
      replay.replayFrom replayEnv i parts.flatten = .ok replayed ∧
      (replayed.tree.dropEntry replayed.tree.root inodesName).Equivalent
        after

/-- The source is a file and the destination is free, another file that is not
in use, or the source itself. -/
def ParserState.RenamesFile (env : ParserEnv) (state : ParserState) (tree : Tree)
    (source dest : Path) : Prop :=
  ∃ moved,
    tree.resolve (env.replayedPath source) = some moved ∧
      tree.isDir moved = false ∧
      env.replayedPath dest ≠ [inodesName] ∧
      ∀ existing, tree.resolve (env.replayedPath dest) = some existing →
        if existing = moved then
          source = dest ∧ state.pad.links existing ≠ 1
        else
          state.pad.links existing = 1 →
            state.tracker.fdtracker.getFds existing = [] ∧
              state.tracker.memtracker.fileMapped existing = false

theorem ParserEnv.eq_of_replayedPath {env : ParserEnv} {path path' : Path}
    (interesting : env.isInteresting path = true) (interesting' : env.isInteresting path' = true)
    (same : env.replayedPath path = env.replayedPath path') : path = path' := by
  obtain ⟨rest, isAppend⟩ := List.isPrefixOf_iff_prefix.1 interesting
  obtain ⟨rest', isAppend'⟩ := List.isPrefixOf_iff_prefix.1 interesting'
  unfold ParserEnv.replayedPath at same
  rw [← isAppend, ← isAppend', List.drop_left, List.drop_left] at same
  rw [← isAppend, ← isAppend', same]

theorem ParserEnv.basename_of_replayedPath {env : ParserEnv} {path front : Path} {name : Name}
    (isConcat : env.replayedPath path = front ++ [name]) : basename path = name := by
  have whole : path.take env.basePath.length ++ (front ++ [name]) = path := by
    rw [← isConcat]
    exact List.take_append_drop env.basePath.length path
  rw [basename, ← whole, ← List.append_assoc, List.getLastD_concat]

section

variable
  {env : ParserEnv} {state : ParserState} {line : Line} {source dest : Path}
  {tree after : Tree} {sourceDir destDir moved : Ino}
  {sourceName destName : Name} {replay : ReplayState} {fs : Defaultfs}
  {replayEnv : ReplayEnv} {i : ℕ} {stat : Stat}

theorem emit_rename_unique {info : RenameInfo}
    (emitted : ∃ parsed, emit env state line = .ok (parsed, [.rename info])) :
    RenameRefines env state line fs replayEnv i replay after ↔ ∃ rows replayed,
        fs.renameDiskOps info = .ok rows ∧ replay.replayFrom replayEnv i rows = .ok replayed ∧
          (replayed.tree.dropEntry replayed.tree.root inodesName).Equivalent after := by
  obtain ⟨parsed, emitted⟩ := emitted
  constructor
  · rintro ⟨_, ops, parts, replayed, ran, expanded, returned, equivalent⟩
    rw [emitted] at ran
    cases ran
    rw [List.mapM_cons, List.mapM_nil] at expanded
    obtain ⟨rows, isRows, expanded⟩ := bind_eq_ok_iff.1 expanded
    rw [pure_bind, pure_eq_ok_iff] at expanded
    subst expanded
    rw [List.flatten_cons, List.flatten_nil, List.append_nil] at returned
    exact ⟨rows, replayed, isRows, returned, equivalent⟩
  · rintro ⟨rows, replayed, expanded, returned, equivalent⟩
    have isExpansion : fs.getDiskOps (.rename info) = .ok rows := expanded
    refine ⟨parsed, _, [rows], replayed, emitted, ?_, ?_, equivalent⟩
    · rw [List.mapM_cons, List.mapM_nil, isExpansion]
      rfl
    · rw [List.flatten_cons, List.flatten_nil, List.append_nil]
      exact returned

/-- The operation records the names and the link count of the tree. -/
structure RenameInfo.Records (info : RenameInfo) (tree : Tree) (sourceDir destDir moved : Ino)
    (sourceName destName : Name) : Prop where
  source_inode : info.sourceInode = moved
  source_parent : info.sourceParent = sourceDir
  dest_parent : info.destParent = destDir
  source_name : basename info.source = sourceName
  dest_name : basename info.dest = destName
  dest_inode : info.destInode = tree.child destDir destName
  dest_free : tree.child destDir destName = none → info.destHardlinks = 0
  dest_links : ∀ existing, tree.child destDir destName = some existing →
    info.destHardlinks = (fileSystemOf tree).names.links existing

def renamedNames (tree : Tree) (sourceDir destDir moved : Ino)
    (sourceName destName : Name) : Naming :=
  ((fileSystemOf tree).names.setEntry sourceDir sourceName none).setEntry
    destDir destName (some moved)

section Files

variable
  {info : RenameInfo} {store : Inode → Bytes} {place : Inode → Ino}
  {hub : Ino} {rows : List DiskOp} {replayed : ReplayState}
  (records : info.Records tree sourceDir destDir moved sourceName destName)
  (places : tree.RenameAt (env.replayedPath source) (env.replayedPath dest)
    sourceDir destDir moved sourceName destName)
  (simulates : Simulates tree.root (fileSystemOf tree).names
    (fileSystemOf tree).names store replay place hub)
  (isFile : (tree.content moved).isSome = true)
  (destIsFile : ∀ existing, tree.child destDir destName = some existing →
    (tree.content existing).isSome = true)
  (expanded : fs.renameDiskOps info = .ok rows)

include records in
theorem RenameInfo.Records.applyKind : (fileSystemOf tree).names.applyKind (.rename info) =
      renamedNames tree sourceDir destDir moved sourceName destName := by
  simp only [Naming.applyKind, records.source_inode, records.source_parent,
    records.dest_parent, records.source_name, records.dest_name]
  rfl

include records places simulates isFile destIsFile

theorem RenameInfo.Records.performs :
    (fileSystemOf tree).names.Performs tree.root (.rename info) := by
  have wellFormed := simulates.wellFormed
  have notDir : ∀ {ino}, (tree.content ino).isSome = true →
      ino ∉ (fileSystemOf tree).names.dirs := by
    intro ino isFile isDir
    exact wellFormed.apart ino isDir isFile
  obtain ⟨front, _, frontResolved, frontIsDir⟩ := Tree.parentOf_eq_ok_iff.1 places.source_parent
  obtain ⟨back, _, backResolved, backIsDir⟩ := Tree.parentOf_eq_ok_iff.1 places.target_parent
  refine ⟨⟨?_, ?_⟩, ⟨?_, ?_⟩, ?_, ?_⟩
  · rw [records.source_parent]
    exact live_of_resolve frontResolved frontIsDir
  · intro existing bound
    rw [records.source_parent, records.source_name] at bound
    have same : moved = existing := Option.some.inj (places.found.symm.trans bound)
    exact same ▸ notDir isFile
  · rw [records.dest_parent]
    exact live_of_resolve backResolved backIsDir
  · intro existing bound
    rw [records.dest_parent, records.dest_name] at bound
    exact notDir (destIsFile existing bound)
  · rw [records.source_inode]
    exact isFile
  · rw [records.dest_inode]
    cases bound : tree.child destDir destName with
    | none => exact records.dest_free bound
    | some existing => exact destIsFile existing bound

include expanded

omit simulates in
/-- The contents of the files that have a name are as before. -/
theorem RenameInfo.Records.agrees (agrees : (fileSystemOf tree).Agrees store)
    (stays : tree.child destDir destName = some moved → (fileSystemOf tree).names.links moved ≠ 1) :
    ((fileSystemOf tree).setNames (renamedNames tree sourceDir destDir moved sourceName
        destName)).Agrees (replayEnv.storeFrom i rows store) := by
  have removed : info.destHardlinks = 1 → (tree.content (info.destInode.getD 0)).isSome = true ∧
        ¬(renamedNames tree sourceDir destDir moved sourceName
          destName).Named (info.destInode.getD 0) := by
    intro last
    cases bound : tree.child destDir destName with
    | none =>
      have free := records.dest_free bound
      omega
    | some existing =>
      rw [records.dest_inode, bound, Option.getD_some]
      refine ⟨destIsFile existing bound, ?_⟩
      have counted := records.dest_links existing bound
      intro named
      rcases named.of_renamed with isMoved | remains
      · subst isMoved
        exact stays bound (counted.symm.trans last)
      · exact Naming.not_named_of_links_eq_one bound (counted.symm.trans last) remains
  have kept : ∀ other, (info.destHardlinks = 1 → other ≠ info.destInode.getD 0) →
        replayEnv.storeFrom i rows store other = store other :=
    fun other => Defaultfs.storeFrom_renameDiskOps expanded
  refine agrees.setNames ?_ ?_ ?_
  · rfl
  · intro file _ named
    refine ⟨?_, kept file fun last same => (removed last).2 (same ▸ named)⟩
    rcases named.of_renamed with isMoved | remains
    · exact isMoved ▸ ⟨sourceDir, sourceName, places.found⟩
    · exact remains.of_setEntry_none
  · intro file notFile
    exact kept file fun last same => notFile (same ▸ (removed last).1)

theorem RenameInfo.Records.represents (agrees : (fileSystemOf tree).Agrees store)
    (stays : tree.child destDir destName = some moved → (fileSystemOf tree).names.links moved ≠ 1)
    (returned : replay.replayFrom replayEnv i rows = .ok replayed) : ∃ place',
      ((fileSystemOf tree).setNames (renamedNames tree sourceDir destDir moved sourceName
          destName)).Represents tree.root
          (replayed.tree.dropEntry replayed.tree.root inodesName) place' ∧
      (renamedNames tree sourceDir destDir moved sourceName destName).WellFormed tree.root := by
  have performed := records.performs places simulates isFile destIsFile
  obtain ⟨place', done⟩ := simulates.replay_rename performed expanded returned
  rw [records.applyKind] at done
  exact ⟨place', done.represents (records.agrees places isFile destIsFile
    expanded agrees stays), done.wellFormed⟩

theorem RenameInfo.Records.equivalent (agrees : (fileSystemOf tree).Agrees store)
    (stays : tree.child destDir destName = some moved → (fileSystemOf tree).names.links moved ≠ 1)
    (returned : replay.replayFrom replayEnv i rows = .ok replayed)
    (sameRoot : after.root = tree.root) (child : ∀ dir name, after.child dir name =
      (renamedNames tree sourceDir destDir moved sourceName destName).child
        dir name) (isDir : ∀ ino, after.isDir ino = tree.isDir ino)
    (content : ∀ ino, after.content ino = tree.content ino) :
    (replayed.tree.dropEntry replayed.tree.root inodesName).Equivalent
      after := by
  obtain ⟨place', represents, wellFormed⟩ :=
    records.represents places simulates isFile destIsFile expanded agrees stays returned
  generalize described : (fileSystemOf tree).setNames
      (renamedNames tree sourceDir destDir moved sourceName destName) = result at represents
  have expected : result.Represents tree.root after id := by
    subst described
    refine represents_of_child wellFormed sameRoot child ?_ ?_
    · intro ino isDirectory
      rw [isDir]
      exact isDirectory
    · intro ino isFile
      obtain ⟨bytes, found⟩ := Option.isSome_iff_exists.1 isFile
      rw [content, found]
      simp only [FileSystem.setNames, fileSystemOf, found, Option.getD_some]
  refine represents.equivalent ?_ expected
  subst described
  exact wellFormed.apart

end Files

theorem child_renamed (sourceIsDir : tree.isDir destDir = true) (dir : Ino) (name : Name) :
    ((tree.dropEntry sourceDir sourceName).bindEntry destDir destName moved).child dir name =
      (renamedNames tree sourceDir destDir moved sourceName destName).child
        dir name := by
  have dropped := Tree.rebinds_dropEntry tree sourceDir sourceName
  have rebound := Tree.rebinds_bindEntry ((dropped.isDir destDir).trans sourceIsDir) destName moved
  rw [rebound.child, dropped.child]
  rfl

section Main

variable
  (call : line.call = .rename source dest) (succeeded : line.ret ≠ -1)
  (interesting : env.isInteresting source = true)
  (interestingDest : env.isInteresting dest = true)
  (follows : state.pad.Follows tree)
  (destSeen : state.pad.tree.resolve (env.replayedPath dest) =
    tree.resolve (env.replayedPath dest))
  (fresh : state.pad.tree.resolve ((env.replayedPath dest).dropLast ++
    [ParserState.awayName env dest line.uuid]) = none)
  (places : tree.RenameAt (env.replayedPath source) (env.replayedPath dest)
    sourceDir destDir moved sourceName destName)

include follows destSeen places in
theorem records_renameInfo (stat : Stat) (isMoved : stat.ino = moved)
    (destIsFile : ∀ existing, tree.child destDir destName = some existing →
      (tree.content existing).isSome = true) :
    (state.renameInfo env source dest stat sourceDir destDir).Records tree
      sourceDir destDir moved sourceName destName := by
  have destResolved : state.pad.tree.resolve (env.replayedPath dest) =
      tree.child destDir destName := destSeen.trans places.resolve_target
  have destStat : ∀ existing, tree.child destDir destName = some existing →
      ∃ bytes, state.stat? env dest = some ⟨existing, bytes, state.pad.links existing, false⟩ := by
    intro existing bound
    obtain ⟨bytes, content⟩ := Option.isSome_iff_exists.1 (destIsFile existing bound)
    rw [ParserState.stat?_of_resolve (destResolved.trans bound), Scratchpad.statInode_of_content
        (follows.content existing bytes content)]
    exact ⟨bytes.length, rfl⟩
  have noStat : tree.child destDir destName = none → state.stat? env dest = none := by
    intro free
    unfold ParserState.stat? Scratchpad.replayedStat
    rw [destResolved, free]
    rfl
  obtain ⟨front, sourceConcat, _, _⟩ := Tree.parentOf_eq_ok_iff.1 places.source_parent
  obtain ⟨back, destConcat, _, _⟩ := Tree.parentOf_eq_ok_iff.1 places.target_parent
  refine ⟨isMoved, rfl, rfl, ParserEnv.basename_of_replayedPath sourceConcat,
    ParserEnv.basename_of_replayedPath destConcat, ?_, ?_, ?_⟩
  · cases bound : tree.child destDir destName with
    | none => simp only [ParserState.renameInfo, noStat bound, Option.map_none]
    | some existing =>
      obtain ⟨bytes, found⟩ := destStat existing bound
      simp only [ParserState.renameInfo, found, Option.map_some]
  · intro free
    simp only [ParserState.renameInfo, noStat free, Option.map_none, Option.getD_none]
  · intro existing bound
    obtain ⟨bytes, found⟩ := destStat existing bound
    simp only [ParserState.renameInfo, found, Option.map_some, Option.getD_some]
    exact follows.links existing (destIsFile existing bound) ⟨destDir, destName, bound⟩

include places in
theorem isDir_of_renamed
    (posix : tree.rename (env.replayedPath source) (env.replayedPath dest) = .ok after)
    (existing : Ino) (bound : tree.child destDir destName = some existing) :
    tree.isDir existing = tree.isDir moved := by
  rw [places.rename_eq, bound] at posix
  by_cases same : existing = moved
  · rw [same]
  · rw [if_neg fun isMoved => same (Option.some.inj isMoved)] at posix
    split_ifs at posix
    obtain ⟨⟨⟩, replaceable, _⟩ := map_eq_ok_iff.1 posix
    exact (Tree.renameOver_eq_ok_iff.1 replaceable existing rfl).1

include call succeeded interesting interestingDest follows destSeen places

theorem not_refines_of_directory (shows : replay.Shows tree)
    (posix : tree.rename (env.replayedPath source) (env.replayedPath dest) = .ok after)
    (isDirectory : tree.isDir moved = true) (result : Tree) :
    ¬RenameRefines env state line fs replayEnv i replay result := by
  rintro ⟨parsed, ops, parts, replayed, emitted, expanded, returned, _⟩
  obtain ⟨store, place, hub, simulates, _⟩ := shows
  obtain ⟨entries, node⟩ := Tree.isDir_iff.1 (follows.isDir moved isDirectory)
  have found : state.pad.statInode env.dirStat moved =
      some ⟨moved, (env.dirStat state.pad.tree moved).1,
        (env.dirStat state.pad.tree moved).2, true⟩ := by
    simp only [Scratchpad.statInode, node]
  rw [emit_rename_eq call succeeded interesting interestingDest
    (follows.renameAt places) found] at emitted
  obtain ⟨cleared, _, emitted⟩ := bind_eq_ok_iff.1 emitted
  obtain ⟨pad, _, emitted⟩ := bind_eq_ok_iff.1 emitted
  cases emitted
  rw [List.mapM_cons, List.mapM_nil] at expanded
  obtain ⟨rows, isRows, expanded⟩ := bind_eq_ok_iff.1 expanded
  rw [pure_bind, pure_eq_ok_iff] at expanded
  subst expanded
  rw [List.flatten_cons, List.flatten_nil, List.append_nil] at returned
  obtain ⟨front, sourceConcat, _, _⟩ := Tree.parentOf_eq_ok_iff.1 places.source_parent
  obtain ⟨back, destConcat, _, _⟩ := Tree.parentOf_eq_ok_iff.1 places.target_parent
  refine simulates.replay_rename_directory ?_ ?_ ?_ isRows replayed returned
  · have sourceName := ParserEnv.basename_of_replayedPath sourceConcat
    simp only [ParserState.renameInfo, sourceName]
    exact places.found
  · exact isDirectory
  · intro present
    have destName := ParserEnv.basename_of_replayedPath destConcat
    simp only [ParserState.renameInfo, destName] at present ⊢
    cases bound : tree.resolve (env.replayedPath dest) with
    | none =>
      have noStat : state.stat? env dest = none := by
        unfold ParserState.stat? Scratchpad.replayedStat
        rw [destSeen, bound]
        rfl
      simp [noStat] at present
    | some existing =>
      rw [places.resolve_target] at bound
      refine ⟨existing, ?_, bound⟩
      exact (isDir_of_renamed places posix existing bound).trans isDirectory

end Main

section Files

variable
  {info : RenameInfo} {store : Inode → Bytes} {place : Inode → Ino}
  {hub : Ino}
  (records : info.Records tree sourceDir destDir moved sourceName destName)
  (places : tree.RenameAt (env.replayedPath source) (env.replayedPath dest)
    sourceDir destDir moved sourceName destName)
  (simulates : Simulates tree.root (fileSystemOf tree).names
    (fileSystemOf tree).names store replay place hub)
  (isFile : (tree.content moved).isSome = true)
  (destIsFile : ∀ existing, tree.child destDir destName = some existing →
    (tree.content existing).isSome = true)
  (emitted : ∃ parsed, emit env state line = .ok (parsed, [.rename info]))

include records places simulates in
theorem hub_mem_entries_iff : (tree.root, inodesName) ∈ (MicroOpKind.rename info).entries ↔
      destDir = tree.root ∧ destName = inodesName := by
  simp only [MicroOpKind.entries, List.mem_cons, Prod.mk.injEq, List.not_mem_nil, or_false,
    records.source_parent, records.source_name, records.dest_parent, records.dest_name]
  constructor
  · rintro (⟨isRoot, isHub⟩ | ⟨isRoot, isHub⟩)
    · have bound := places.found
      have unbound : tree.child tree.root inodesName = none := simulates.lags.hub_unbound
      rw [← isRoot, ← isHub, unbound] at bound
      cases bound
    · exact ⟨isRoot.symm, isHub.symm⟩
  · rintro ⟨isRoot, isHub⟩
    exact Or.inr ⟨isRoot.symm, isHub.symm⟩

include records places simulates isFile destIsFile emitted

/-- A file that gets the name `.inodes` meets the directory of the replay. -/
theorem not_refines_of_hub (atHub : destDir = tree.root ∧ destName = inodesName) :
    ¬RenameRefines env state line fs replayEnv i replay after := by
  rw [emit_rename_unique emitted]
  rintro ⟨rows, replayed, expanded, returned, _⟩
  have performed := records.performs places simulates isFile destIsFile
  exact (simulates.replay_rename_iff performed expanded).1
    ⟨replayed, returned⟩ ((hub_mem_entries_iff records places simulates).2 atHub)

section

variable (agrees : (fileSystemOf tree).Agrees store)
include agrees

theorem refines_of_emitted
    (stays : tree.child destDir destName = some moved → (fileSystemOf tree).names.links moved ≠ 1)
    (notHub : ¬(destDir = tree.root ∧ destName = inodesName)) (sameRoot : after.root = tree.root)
    (child : ∀ dir name, after.child dir name =
      (renamedNames tree sourceDir destDir moved sourceName destName).child
        dir name) (isDir : ∀ ino, after.isDir ino = tree.isDir ino)
    (content : ∀ ino, after.content ino = tree.content ino) :
    RenameRefines env state line fs replayEnv i replay after := by
  rw [emit_rename_unique emitted]
  obtain ⟨rows, expanded⟩ := fs.renameDiskOps_returns info
  have performed := records.performs places simulates isFile destIsFile
  have avoids : (tree.root, inodesName) ∉ (MicroOpKind.rename info).entries := by
    rw [hub_mem_entries_iff records places simulates]
    exact notHub
  obtain ⟨replayed, returned⟩ := (simulates.replay_rename_iff performed expanded).2 avoids
  exact ⟨rows, replayed, expanded, returned, records.equivalent places simulates isFile destIsFile
    expanded agrees stays returned sameRoot child isDir content⟩

theorem refines_renamed (different : tree.child destDir destName ≠ some moved)
    (notHub : ¬(destDir = tree.root ∧ destName = inodesName)) :
    RenameRefines env state line fs replayEnv i replay
      ((tree.dropEntry sourceDir sourceName).bindEntry destDir destName moved) := by
  have destIsDir := Tree.isDir_of_parentOf places.target_parent
  have dropped := Tree.rebinds_dropEntry tree sourceDir sourceName
  have rebound := Tree.rebinds_bindEntry ((dropped.isDir destDir).trans destIsDir) destName moved
  exact refines_of_emitted records places simulates isFile destIsFile emitted agrees
    (fun isMoved => False.elim (different isMoved)) notHub (rebound.root.trans dropped.root)
    (child_renamed destIsDir) (fun ino => (rebound.isDir ino).trans (dropped.isDir ino))
    (fun ino => (rebound.content ino).trans (dropped.content ino))

/-- A file that has other links is renamed to itself. -/
theorem refines_self (sameDir : sourceDir = destDir) (sameName : sourceName = destName)
    (stays : (fileSystemOf tree).names.links moved ≠ 1)
    (notHub : ¬(destDir = tree.root ∧ destName = inodesName)) :
    RenameRefines env state line fs replayEnv i replay tree := by
  subst sameDir sameName
  refine refines_of_emitted records places simulates isFile destIsFile
    emitted agrees (fun _ => stays) notHub rfl ?_ (fun _ => rfl) (fun _ => rfl)
  intro dir name
  unfold renamedNames
  rw [Naming.child_setEntry, Naming.child_setEntry]
  split
  · rename_i same
    rw [same.1, same.2]
    exact places.found
  · rfl

/-- The source of a renaming between two links of one file is lost. -/
theorem not_refines_of_links (bound : tree.child destDir destName = some moved)
    (different : ¬(sourceDir = destDir ∧ sourceName = destName)) :
    ¬RenameRefines env state line fs replayEnv i replay tree := by
  have twoLinks : (fileSystemOf tree).names.links moved ≠ 1 := by
    intro last
    apply Naming.not_named_of_links_eq_one bound last
    refine ⟨sourceDir, sourceName, ?_⟩
    rw [Naming.child_setEntry, if_neg different]
    exact places.found
  rw [emit_rename_unique emitted]
  rintro ⟨rows, replayed, expanded, returned, equivalent⟩
  have destIsDir := Tree.isDir_of_parentOf places.target_parent
  have dropped := Tree.rebinds_dropEntry tree sourceDir sourceName
  have rebound := Tree.rebinds_bindEntry ((dropped.isDir destDir).trans destIsDir) destName moved
  have notDir : tree.isDir moved = false := by
    obtain ⟨bytes, content⟩ := Option.isSome_iff_exists.1 isFile
    exact Tree.not_isDir_of_content content
  have lost : (replayed.tree.dropEntry replayed.tree.root inodesName).Equivalent
    ((tree.dropEntry sourceDir sourceName).bindEntry destDir destName moved) := records.equivalent
    places simulates isFile destIsFile expanded agrees (fun _ => twoLinks) returned
    (rebound.root.trans dropped.root) (child_renamed destIsDir) (fun ino =>
    (rebound.isDir ino).trans (dropped.isDir ino)) (fun ino => (rebound.content ino).trans
    (dropped.content ino))
  have parent := rebound.parentOf (by
      intro ino child
      rw [dropped.child, if_neg fun same => different ⟨same.1.symm, same.2.symm⟩, bound] at child
      cases child
      rw [dropped.isDir]
      exact notDir) (dropped.parentOf (by
        intro ino child
        rw [places.found] at child
        cases child
        exact notDir) places.source_parent)
  have missing := Tree.resolve_of_parentOf parent
  rw [rebound.child, if_neg different, dropped.child, if_pos ⟨rfl, rfl⟩] at missing
  have there := equivalent.isDir (env.replayedPath source)
  rw [lost.isDir, missing, places.resolve_source] at there
  cases there

end

end Files

/-- The two paths lead to one entry only if they are the same. -/
theorem eq_of_same_entry (wellFormed : (fileSystemOf tree).names.WellFormed tree.root)
    (interesting : env.isInteresting source = true)
    (interestingDest : env.isInteresting dest = true)
    (places : tree.RenameAt (env.replayedPath source) (env.replayedPath dest)
      sourceDir destDir moved sourceName destName) (sameDir : sourceDir = destDir)
    (sameName : sourceName = destName) : source = dest := by
  obtain ⟨front, sourceConcat, frontResolved, frontIsDir⟩ :=
    Tree.parentOf_eq_ok_iff.1 places.source_parent
  obtain ⟨back, destConcat, backResolved, _⟩ := Tree.parentOf_eq_ok_iff.1 places.target_parent
  subst sameDir sameName
  apply ParserEnv.eq_of_replayedPath interesting interestingDest
  rw [sourceConcat, destConcat, path_unique wellFormed frontResolved backResolved frontIsDir]

section

variable (wellFormed : (fileSystemOf tree).names.WellFormed tree.root)
  (places : tree.RenameAt (env.replayedPath source) (env.replayedPath dest)
    sourceDir destDir moved sourceName destName)
include wellFormed places

theorem dest_eq_hub_iff : env.replayedPath dest = [inodesName] ↔
      destDir = tree.root ∧ destName = inodesName := by
  obtain ⟨back, destConcat, backResolved, backIsDir⟩ :=
    Tree.parentOf_eq_ok_iff.1 places.target_parent
  rw [destConcat]
  constructor
  · intro isHub
    have split : back ++ [destName] = [] ++ [inodesName] := isHub
    obtain ⟨isNil, sameName⟩ := List.append_inj' split rfl
    subst isNil
    exact ⟨(Option.some.inj backResolved).symm, by simpa using sameName⟩
  · rintro ⟨isRoot, isHub⟩
    subst isRoot isHub
    have rootResolved : tree.resolve [] = some tree.root := rfl
    rw [path_unique wellFormed backResolved rootResolved backIsDir]
    rfl

theorem renamesFile_iff (notDir : tree.isDir moved = false) :
    state.RenamesFile env tree source dest ↔ ¬(destDir = tree.root ∧ destName = inodesName) ∧
        ∀ existing, tree.child destDir destName = some existing →
          if existing = moved then
            source = dest ∧ state.pad.links existing ≠ 1
          else
            state.pad.links existing = 1 → state.tracker.fdtracker.getFds existing = [] ∧
                state.tracker.memtracker.fileMapped existing = false := by
  rw [← dest_eq_hub_iff wellFormed places, ← places.resolve_target]
  constructor
  · rintro ⟨other, resolved, _, notHub, atDest⟩
    rw [places.resolve_source] at resolved
    cases resolved
    exact ⟨notHub, atDest⟩
  · rintro ⟨notHub, atDest⟩
    exact ⟨moved, places.resolve_source, notDir, notHub, atDest⟩

end

/-- What the branch asserts about the destination, and that it is not the
source that is moved aside. -/
def ParserState.DestUnused (state : ParserState) (tree : Tree) (destDir : Ino) (destName : Name)
    (moved : Ino) : Prop :=
  ∀ existing, tree.child destDir destName = some existing →
    state.pad.links existing = 1 →
      existing ≠ moved ∧
        state.tracker.fdtracker.getFds existing = [] ∧
        state.tracker.memtracker.fileMapped existing = false

section Outcomes

variable
  (call : line.call = .rename source dest) (succeeded : line.ret ≠ -1)
  (interesting : env.isInteresting source = true)
  (interestingDest : env.isInteresting dest = true)
  (follows : state.pad.Follows tree)
  (destSeen : state.pad.tree.resolve (env.replayedPath dest) =
    tree.resolve (env.replayedPath dest))
  (fresh : state.pad.tree.resolve ((env.replayedPath dest).dropLast ++
    [ParserState.awayName env dest line.uuid]) = none)
  (places : tree.RenameAt (env.replayedPath source) (env.replayedPath dest)
    sourceDir destDir moved sourceName destName)
  {bytes : Bytes} (content : tree.content moved = some bytes)
  (destIsFile : ∀ existing, tree.child destDir destName = some existing →
    (tree.content existing).isSome = true)

include follows places fresh in
theorem away_unbound : state.pad.tree.child destDir (ParserState.awayName env dest line.uuid) =
      none := by
  obtain ⟨back, destConcat, backResolved, _⟩ :=
    Tree.parentOf_eq_ok_iff.1 (follows.renameAt places).target_parent
  rw [destConcat, List.dropLast_concat, Tree.resolve_concat, backResolved] at fresh
  exact fresh

include call succeeded interesting interestingDest follows destSeen fresh
  places content destIsFile

/-- The branch returns for a file exactly if the destination is unused. -/
theorem emit_rename_file : (state.DestUnused tree destDir destName moved →
      ∃ parsed, emit env state line = .ok (parsed, [.rename (state.renameInfo env
          source dest ⟨moved, bytes.length, state.pad.links moved, false⟩ sourceDir destDir)])) ∧
      (¬state.DestUnused tree destDir destName moved →
        ∀ result, emit env state line ≠ .ok result) := by
  have contentPad := follows.content moved bytes content
  have placesPad := follows.renameAt places
  have notDir := Tree.not_isDir_of_content contentPad
  have awayFree := away_unbound follows fresh places
  have found : state.pad.statInode env.dirStat moved = some ⟨moved, bytes.length, state.pad.links
    moved, false⟩ := Scratchpad.statInode_of_content contentPad
  have sameDest : state.pad.tree.child destDir destName = tree.child destDir destName := by
    rw [← placesPad.resolve_target, destSeen, places.resolve_target]
  cases bound : tree.child destDir destName with
  | none =>
    rw [bound] at sameDest
    constructor
    · intro _
      exact emit_rename_free call succeeded interesting interestingDest
        placesPad found notDir sameDest
    · intro used
      refine False.elim (used ?_)
      intro existing alsoBound
      rw [bound] at alsoBound
      cases alsoBound
  | some existing =>
    rw [bound] at sameDest
    obtain ⟨destBytes, destContent⟩ := Option.isSome_iff_exists.1 (destIsFile existing bound)
    have destContentPad := follows.content existing destBytes destContent
    have destNotDir := Tree.not_isDir_of_content destContentPad
    have destFound : state.stat? env dest =
        some ⟨existing, destBytes.length, state.pad.links existing, false⟩ := by
      rw [ParserState.stat?_of_resolve (placesPad.resolve_target.trans sameDest),
        Scratchpad.statInode_of_content destContentPad]
    have unusedIff : state.DestUnused tree destDir destName moved ↔
        (state.pad.links existing = 1 → existing ≠ moved ∧
            state.tracker.fdtracker.getFds existing = [] ∧
            state.tracker.memtracker.fileMapped existing = false) := by
      unfold ParserState.DestUnused
      rw [bound]
      simp only [Option.some.injEq, forall_eq']
    rw [unusedIff]
    by_cases last : state.pad.links existing = 1
    · by_cases same : existing = moved
      · subst same
        refine ⟨fun unused => False.elim ((unused last).1 rfl), ?_⟩
        intro _ result
        have entry : sourceDir = destDir ∧ sourceName = destName := by
          by_contra different
          have counted := follows.links existing
            (destIsFile existing bound) ⟨destDir, destName, bound⟩
          apply Naming.not_named_of_links_eq_one bound (counted.symm.trans last)
          refine ⟨sourceDir, sourceName, ?_⟩
          rw [Naming.child_setEntry, if_neg different]
          exact places.found
        rw [content] at destContent
        cases destContent
        exact emit_rename_self call succeeded interesting interestingDest
          placesPad found destFound last notDir entry.1 entry.2 awayFree result
      · constructor
        · intro unused
          obtain ⟨_, closed, unmapped⟩ := unused last
          exact emit_rename_last call succeeded interesting interestingDest placesPad found
            destFound last notDir sameDest destNotDir same awayFree closed unmapped
        · intro used result
          rw [emit_rename_used call succeeded interesting interestingDest
            placesPad found destFound last fun unused => used fun _ => ⟨same, unused⟩]
          intro ran
          cases ran
    · refine ⟨fun _ => ?_, fun used => ?_⟩
      · by_cases same : existing = moved
        · have kept : state.pad.tree.rename (env.replayedPath source)
              (env.replayedPath dest) = .ok state.pad.tree := by
            rw [placesPad.rename_eq, sameDest, if_pos (same ▸ rfl)]
          exact emit_rename_linked call succeeded interesting
            interestingDest placesPad found destFound last kept
        · exact emit_rename_linked call succeeded interesting interestingDest placesPad found
            destFound last (placesPad.rename_over_file notDir sameDest destNotDir same)
      · exact False.elim (used fun isLast => absurd isLast last)

theorem refines_iff_of_file {store : Inode → Bytes} {place : Inode → Ino} {hub : Ino}
    (simulates : Simulates tree.root (fileSystemOf tree).names
      (fileSystemOf tree).names store replay place hub) (agrees : (fileSystemOf tree).Agrees store)
    (posix : tree.rename (env.replayedPath source) (env.replayedPath dest) = .ok after) :
    RenameRefines env state line fs replayEnv i replay after ↔
      state.RenamesFile env tree source dest := by
  have notDir := Tree.not_isDir_of_content content
  have isFile : (tree.content moved).isSome = true := Option.isSome_iff_exists.2 ⟨bytes, content⟩
  obtain ⟨returns, raises⟩ := emit_rename_file call succeeded interesting interestingDest follows
      destSeen fresh places content destIsFile
  have records := records_renameInfo follows destSeen places
    ⟨moved, bytes.length, state.pad.links moved, false⟩ rfl destIsFile
  rw [renamesFile_iff simulates.wellFormed places notDir]
  by_cases unused : state.DestUnused tree destDir destName moved
  · have emitted := returns unused
    by_cases atHub : destDir = tree.root ∧ destName = inodesName
    · constructor
      · intro refines
        exact False.elim (not_refines_of_hub records places simulates isFile
          destIsFile emitted atHub refines)
      · intro condition
        exact False.elim (condition.1 atHub)
    · cases bound : tree.child destDir destName with
      | none =>
        have isAfter := places.rename_free notDir bound
        rw [posix] at isAfter
        cases isAfter
        refine iff_of_true (refines_renamed records places simulates isFile
          destIsFile emitted agrees ?_ atHub) ⟨atHub, ?_⟩
        · rw [bound]
          exact Option.some_ne_none moved |>.symm
        · intro existing alsoBound
          cases alsoBound
      | some existing =>
        by_cases same : existing = moved
        · subst same
          have isAfter := places.rename_eq
          rw [posix, if_pos bound] at isAfter
          cases isAfter
          have linked : state.pad.links existing ≠ 1 := fun last =>
            (unused existing bound last).1 rfl
          by_cases entry : sourceDir = destDir ∧ sourceName = destName
          · refine iff_of_true (refines_self records places simulates
              isFile destIsFile emitted agrees entry.1 entry.2 ?_ atHub) ⟨atHub, ?_⟩
            · rw [← follows.links existing isFile ⟨_, _, bound⟩]
              exact linked
            · intro other alsoBound
              cases alsoBound
              rw [if_pos rfl]
              exact ⟨eq_of_same_entry simulates.wellFormed interesting
                interestingDest places entry.1 entry.2, linked⟩
          · refine iff_of_false (not_refines_of_links records places
              simulates isFile destIsFile emitted agrees bound entry) ?_
            rintro ⟨_, atDest⟩
            have condition := atDest existing rfl
            rw [if_pos rfl] at condition
            have sameParent := places.source_parent
            rw [condition.1, places.target_parent] at sameParent
            cases sameParent
            exact entry ⟨rfl, rfl⟩
        · have isAfter := places.rename_over_file notDir bound (Tree.not_isDir_of_content
              (Option.isSome_iff_exists.1 (destIsFile existing bound)).choose_spec) same
          rw [posix] at isAfter
          cases isAfter
          refine iff_of_true (refines_renamed records places simulates
            isFile destIsFile emitted agrees ?_ atHub) ⟨atHub, ?_⟩
          · rw [bound]
            intro isMoved
            exact same (Option.some.inj isMoved)
          · intro other alsoBound
            cases alsoBound
            rw [if_neg same]
            intro last
            exact (unused existing bound last).2
  · constructor
    · rintro ⟨parsed, ops, _, _, emitted, _⟩
      exact False.elim (raises unused _ emitted)
    · rintro ⟨_, atDest⟩
      refine False.elim (unused ?_)
      intro existing bound last
      have condition := atDest existing bound
      split_ifs at condition with same
      · exact False.elim (condition.2 last)
      · exact ⟨same, condition last⟩

end Outcomes

end

def leafPad (name : Name) (content : Option Bytes) : Scratchpad :=
  ⟨leafTree name content, [2, 7]⟩

private theorem leafPad_follows (content : Bytes) :
    (leafPad "log" (some content)).Follows (logSnapshot content).tree := by
  refine ⟨rfl, fun _ _ _ => id, fun _ => id, fun _ _ => id, ?_⟩
  rintro file _ ⟨parent, name, bound⟩
  have isLog := (leafTree_child "log" (some content) parent name).symm.trans bound
  split_ifs at isLog
  cases isLog
  have one : {entry : Inode × Name |
      (leafTree "log" (some content)).child entry.1 entry.2 = some 7} = {(2, "log")} := by
    ext ⟨dir, tested⟩
    simp [leafTree_child]
  have counted : (fileSystemOf (logSnapshot content).tree).names.links 7 = 1 :=
    Set.ncard_eq_one.2 ⟨_, one⟩
  rw [counted]
  rfl

/-- A second link and a renaming from the first link to it. -/
def renameToLink : List Line :=
  [⟨.link ["workload", "log"] ["workload", "copy"], 0, 0, ""⟩,
    ⟨.rename ["workload", "log"] ["workload", "copy"], 0, 0, "u"⟩]

end Alice
