import Alice.Replay.Start

/-! # Crash states in which the directories stay

If only entries of files are created and deleted, in directories of the
snapshot, then a name is bound by the last operation on it, and the bytes of
an inode are those of the data operations on it: its link in `.inodes` is
never removed.  The file of an inode is made under its number even if the
snapshot has a directory of that number. -/

namespace Alice

open Posix (Ino Name Path Bytes Tree)
open Checked

/-- What a name of a crash state is bound to. -/
inductive Target where
  | directory (inode : Inode)
  | file (inode : Inode)
  deriving DecidableEq, Repr

/-- The node of a target, where `place` gives the node of a file. -/
def Target.node (place : Inode → Ino) : Target → Ino
  | .directory inode => inode
  | .file inode => place inode

/-- What the names in the directories are bound to. -/
abbrev Bindings := Inode → Name → Option Target

def Bindings.set (bound : Bindings) (parent : Inode) (name : Name)
    (target : Option Target) : Bindings :=
  fun directory tested =>
    if directory = parent ∧ tested = name then
      target
    else
      bound directory tested

theorem Bindings.set_set (bound : Bindings) (parent : Inode) (name : Name)
    (first second : Option Target) : (bound.set parent name first).set parent name second =
      bound.set parent name second := by
  funext dir tested
  simp only [Bindings.set]
  split <;> rfl

theorem Bindings.set_of_eq {bound : Bindings} {parent : Inode} {name : Name}
    {target : Option Target} (already : bound parent name = target) :
    bound.set parent name target = bound := by
  funext dir tested
  unfold Bindings.set
  split
  · rename_i same
    rw [same.1, same.2, already]
  · rfl

namespace DiskOp

/-- The inode that the operation binds a name to, or `some none` if it removes
the name. -/
def entry? (directory : Inode) (tested : Name) : DiskOp → Option (Option Inode)
  | .createDirEntry parent entry inode _ _ =>
      if directory = parent ∧ tested = basename entry then
        some (some inode)
      else
        none
  | .deleteDirEntry parent entry _ _ _ =>
      if directory = parent ∧ tested = basename entry then
        some none
      else
        none
  | .write .. => none
  | .truncate .. => none
  | .sync .. => none
  | .stdout .. => none

def rebind (bound : Bindings) (op : DiskOp) : Bindings :=
  fun directory tested =>
    match op.entry? directory tested with
    | some target => target.map .file
    | none => bound directory tested

theorem rebind_createDirEntry (bound : Bindings) (parent : Inode) (entry : Path) (inode : Inode)
    (mode : Option Mode) (entryType : EntryType) :
    (createDirEntry parent entry inode mode entryType).rebind bound =
      bound.set parent (basename entry) (some (.file inode)) := by
  funext dir tested
  simp only [rebind, entry?, Bindings.set]
  split_ifs <;> rfl

theorem rebind_deleteDirEntry (bound : Bindings) (parent : Inode) (entry : Path) (inode : Inode)
    (entryType : EntryType) (atomicity : Option String) :
    (deleteDirEntry parent entry inode entryType atomicity).rebind bound =
      bound.set parent (basename entry) none := by
  funext dir tested
  simp only [rebind, entry?, Bindings.set]
  split_ifs <;> rfl

end DiskOp

namespace Snapshot

/-- The binding of a name in the snapshot. -/
def target (snapshot : Snapshot) : Bindings :=
  fun directory name =>
    (snapshot.tree.child directory name).map fun ino =>
      if snapshot.tree.isDir ino then .directory ino else .file ino

/-- The binding of a name by the last row on it, or in the snapshot if there is
none. -/
def bindings (snapshot : Snapshot) (rows : List DiskOp) : Bindings :=
  fun directory name =>
    match rows.reverse.findSome? (DiskOp.entry? directory name) with
    | some target => target.map .file
    | none => snapshot.target directory name

/-- The entry of a file, in a directory of the snapshot and under a name that
is not the name of a directory there. -/
def FileEntry (snapshot : Snapshot) (parent : Inode) (entry : Path)
    (entryType : EntryType) : Prop :=
  entryType = .typeFile ∧ snapshot.tree.isDir parent = true ∧
    ∀ ino, snapshot.tree.child parent (basename entry) = some ino →
      snapshot.tree.isDir ino = false

/-- The operation leaves the directories as they are. -/
def FileOp (snapshot : Snapshot) : DiskOp → Prop
  | .createDirEntry parent entry _ _ entryType =>
      snapshot.FileEntry parent entry entryType
  | .deleteDirEntry parent entry _ entryType _ =>
      snapshot.FileEntry parent entry entryType
  | .write .. => True
  | .truncate .. => True
  | .sync .. => True
  | .stdout .. => True

/-- The tree has the directories of the snapshot, in them the names that
`bound` gives, and the contents that `store` gives.  Names that are bound to
one inode lead to one node, other names to different nodes. -/
structure Realized (snapshot : Snapshot) (bound : Bindings) (store : Inode → Bytes)
    (tree : Tree) (node : Target → Ino) : Prop where
  root : tree.root = node (.directory snapshot.tree.root)
  isDir : ∀ directory, snapshot.tree.isDir directory = true →
    tree.isDir (node (.directory directory)) = true
  child : ∀ directory, snapshot.tree.isDir directory = true → ∀ name,
    tree.child (node (.directory directory)) name =
      (bound directory name).map node
  directory : ∀ parent name directory,
    bound parent name = some (.directory directory) →
      snapshot.tree.isDir directory = true
  content : ∀ parent name file, bound parent name = some (.file file) →
    tree.content (node (.file file)) = some (store file)
  distinct : ∀ parent name target parent' name' target',
    bound parent name = some target → bound parent' name' = some target' →
      node target = node target' → target = target'

/-! ## The replay directory -/

/-- The state of a replay in which the operations have touched `files`. -/
structure Replayed (snapshot : Snapshot) (files : Set Inode) (bound : Bindings)
    (store : Inode → Bytes) (state : ReplayState) (place : Inode → Ino) : Prop where
  root : state.tree.root = snapshot.tree.root
  hub_entry : state.tree.child snapshot.tree.root inodesName = some snapshot.next
  hub_isDir : state.tree.isDir snapshot.next = true
  hub_file : ∀ file ∈ files, state.tree.child snapshot.next (toString file) = some (place file)
  hub_free : ∀ file ∉ files, state.tree.child snapshot.next (toString file) = none
  hub_unbound : bound snapshot.tree.root inodesName = none
  isDir : ∀ directory, snapshot.tree.isDir directory = true → state.tree.isDir directory = true
  child : ∀ directory, snapshot.tree.isDir directory = true → ∀ name,
    ¬(directory = snapshot.tree.root ∧ name = inodesName) →
      state.tree.child directory name =
        (bound directory name).map (Target.node place)
  content : ∀ file ∈ files, state.tree.content (place file) = some (store file)
  injective : ∀ left ∈ files, ∀ right ∈ files, place left = place right → left = right
  file : ∀ parent name file, bound parent name = some (.file file) → file ∈ files
  directory : ∀ parent name directory,
    bound parent name = some (.directory directory) ↔
      snapshot.tree.child parent name = some directory ∧
        snapshot.tree.isDir directory = true
  path : ∀ path directory, snapshot.tree.resolve path = some directory →
    snapshot.tree.isDir directory = true →
      state.dirinodeMap directory = some path
  unused : ∀ ino, state.next ≤ ino → state.tree.node ino = none
  store_unknown : ∀ file ∉ files, store file = []

variable
  {snapshot : Snapshot} {files : Set Inode} {bound : Bindings}
  {store : Inode → Bytes} {state : ReplayState} {place : Inode → Ino}

theorem target_directory_iff (parent : Inode) (name : Name) (dir : Inode) :
    snapshot.target parent name = some (.directory dir) ↔
      snapshot.tree.child parent name = some dir ∧ snapshot.tree.isDir dir = true := by
  unfold target
  cases snapshot.tree.child parent name with
  | none => simp
  | some ino =>
    cases isDir : snapshot.tree.isDir ino with
    | true =>
      simp only [Option.map_some, isDir, if_true, Option.some.injEq, Target.directory.injEq]
      constructor
      · intro same
        exact ⟨same, same ▸ isDir⟩
      · exact And.left
    | false =>
      simp only [Option.map_some, isDir, Bool.false_eq_true, if_false,
        Option.some.injEq, reduceCtorEq, false_iff]
      rintro ⟨same, isDirectory⟩
      rw [← same, isDir] at isDirectory
      cases isDirectory

theorem target_file {parent : Inode} {name : Name} {file : Inode}
    (found : snapshot.target parent name = some (.file file)) :
    snapshot.tree.child parent name = some file ∧ snapshot.tree.isDir file = false := by
  obtain ⟨ino, child, isFile⟩ := Option.map_eq_some_iff.1 found
  cases isDir : snapshot.tree.isDir ino with
  | true =>
    rw [isDir, if_pos rfl] at isFile
    cases isFile
  | false =>
    rw [isDir, if_neg Bool.false_ne_true] at isFile
    cases isFile
    exact ⟨child, isDir⟩

theorem map_node_target (parent : Inode) (name : Name) :
    (snapshot.target parent name).map (Target.node id) = snapshot.tree.child parent name := by
  unfold target
  cases snapshot.tree.child parent name with
  | none => rfl
  | some ino =>
    cases isDir : snapshot.tree.isDir ino <;>
      simp [isDir, Target.node]

theorem mem_files_of_resolve {path : Path} {ino : Ino}
    (resolved : snapshot.tree.resolve path = some ino) (notDir : snapshot.tree.isDir ino = false) :
    ino ∈ snapshot.naming.files := by
  apply (known_of_resolve resolved).resolve_left
  intro isDir
  rw [mem_dirs.1 isDir] at notDir
  cases notDir

theorem Initialized.replayed (initialized : snapshot.Initialized snapshot.listing state)
    (noHardLinks : snapshot.NoHardLinks)
    (hubFree : snapshot.tree.child snapshot.tree.root inodesName = none) :
    snapshot.Replayed snapshot.naming.files snapshot.target snapshot.store
      state id := by
  have simulates := initialized.simulates noHardLinks hubFree
  have holds := simulates.holds
  refine ⟨holds.root_eq, holds.hub_entry, holds.hub_isDir, holds.hub_file, ?_, ?_, holds.isDir, ?_,
    holds.content, ?_, ?_, target_directory_iff, ?_, simulates.unused, store_unknown⟩
  · intro file notFile
    refine (initialized.hub_child file).trans (if_neg ?_)
    rintro ⟨listed, notDir⟩
    obtain ⟨⟨path, ino⟩, member, same⟩ := List.mem_map.1 listed
    have same : ino = file := same
    have resolved := (snapshot.mem_listing path ino).1 member
    exact notFile (mem_files_of_resolve (same ▸ resolved) notDir)
  · unfold target
    rw [hubFree]
    rfl
  · intro dir isDir name avoids
    rw [map_node_target]
    have child := holds.child dir isDir name avoids
    rw [Option.map_id] at child
    exact child
  · intro left _ right _ same
    exact same
  · intro parent name file found
    obtain ⟨child, notDir⟩ := target_file found
    obtain ⟨path, _, resolved⟩ := exists_path_of_child child
    exact mem_files_of_resolve resolved notDir
  · intro path dir resolved isDir
    exact initialized.path path dir ((snapshot.mem_listing path dir).2 resolved) isDir

namespace Replayed

/-! ## Lookups -/

variable {file parent : Inode}

section

variable (replayed : snapshot.Replayed files bound store state place)
include replayed

theorem not_isDir (isFile : file ∈ files) : state.tree.isDir (place file) = false :=
  Tree.not_isDir_of_content (replayed.content file isFile)

theorem resolve_inodePath (inode : Inode) : state.tree.resolve (inodePath inode) =
      state.tree.child snapshot.next (toString inode) := by
  have hub : state.tree.resolve [inodesName] = some snapshot.next := by
    simp [Tree.resolve, Tree.resolveFrom, replayed.root, replayed.hub_entry]
  have split : inodePath inode = [inodesName] ++ [toString inode] := rfl
  rw [split, Tree.resolve_concat, hub]
  rfl

/-- The directories are where they were. -/
theorem resolve_directory {path : Path} {dir : Inode}
    (resolved : snapshot.tree.resolve path = some dir)
    (isDir : snapshot.tree.isDir dir = true) : state.tree.resolve path = some dir := by
  induction path using List.reverseRecOn generalizing dir with
  | nil =>
    rw [← resolved]
    exact congrArg some replayed.root
  | append_singleton path name ih =>
    rw [Tree.resolve_concat] at resolved
    obtain ⟨parent, above, child⟩ := Option.bind_eq_some_iff.1 resolved
    have parentIsDir := Tree.isDir_of_child child
    have stays := (replayed.directory parent name dir).2 ⟨child, isDir⟩
    have avoids : ¬(parent = snapshot.tree.root ∧ name = inodesName) := by
      rintro ⟨isRoot, isHub⟩
      rw [isRoot, isHub, replayed.hub_unbound] at stays
      cases stays
    rw [Tree.resolve_concat, ih above parentIsDir,
      Option.bind_some, replayed.child parent parentIsDir name avoids, stays]
    rfl

theorem lookupParent (isDir : snapshot.tree.isDir parent = true) : ∃ path,
      state.getInodeDirectory parent none = .ok (state, path) ∧
        snapshot.tree.resolve path = some parent := by
  have used : (snapshot.tree.node parent).isSome = true :=
    Option.isSome_iff_ne_none.2 (Tree.node_isSome_of_isDir isDir)
  obtain ⟨path, resolved⟩ := snapshot.reachable parent used
  refine ⟨path, ?_, resolved⟩
  simp only [ReplayState.getInodeDirectory, replayed.path path parent resolved isDir]

theorem pathExists_entry {name : Name} {path : Path} (isDir : snapshot.tree.isDir parent = true)
    (resolved : snapshot.tree.resolve path = some parent)
    (avoids : ¬(parent = snapshot.tree.root ∧ name = inodesName)) :
    state.pathExists (path ++ [name]) = (bound parent name).isSome := by
  rw [ReplayState.pathExists, Tree.resolve_concat, replayed.resolve_directory resolved isDir,
    Option.bind_some, replayed.child parent isDir name avoids, Option.isSome_map]

end

/-! ## Changes -/

section

variable (replayed : snapshot.Replayed files bound store state place)
include replayed

theorem setEntry {name : Name} {tree : Tree} (isDir : snapshot.tree.isDir parent = true)
    (avoids : ¬(parent = snapshot.tree.root ∧ name = inodesName))
    (noDirectory : ∀ ino, snapshot.tree.child parent name = some ino →
      snapshot.tree.isDir ino = false) (target : Option Inode)
    (isFile : ∀ file, target = some file → file ∈ files)
    (rebinds : Tree.Rebinds state.tree tree parent name (target.map place)) :
    snapshot.Replayed files (bound.set parent name (target.map .file)) store
      { state with tree := tree } place := by
  have notHub : parent ≠ snapshot.next := ne_next_of_node (Tree.node_isSome_of_isDir isDir)
  have hubChild : ∀ tested, tree.child snapshot.next tested =
        state.tree.child snapshot.next tested := by
    intro tested
    rw [rebinds.child, if_neg]
    exact fun atParent => notHub atParent.1.symm
  have avoided : ¬(snapshot.tree.root = parent ∧ inodesName = name) :=
    fun same => avoids ⟨same.1.symm, same.2.symm⟩
  constructor
  · exact rebinds.root.trans replayed.root
  · rw [rebinds.child, if_neg avoided]
    exact replayed.hub_entry
  · rw [rebinds.isDir]
    exact replayed.hub_isDir
  · intro file member
    rw [hubChild]
    exact replayed.hub_file file member
  · intro file notMember
    rw [hubChild]
    exact replayed.hub_free file notMember
  · unfold Bindings.set
    rw [if_neg avoided]
    exact replayed.hub_unbound
  · intro dir isDirectory
    rw [rebinds.isDir]
    exact replayed.isDir dir isDirectory
  · intro dir isDirectory tested elsewhere
    rw [rebinds.child]
    unfold Bindings.set
    by_cases same : dir = parent ∧ tested = name
    · rw [if_pos same, if_pos same, Option.map_map]
      rfl
    · rw [if_neg same, if_neg same]
      exact replayed.child dir isDirectory tested elsewhere
  · intro file member
    rw [rebinds.content]
    exact replayed.content file member
  · exact replayed.injective
  · intro dir tested file found
    unfold Bindings.set at found
    by_cases same : dir = parent ∧ tested = name
    · rw [if_pos same] at found
      obtain ⟨inode, isTarget, sameInode⟩ := Option.map_eq_some_iff.1 found
      cases sameInode
      exact isFile file isTarget
    · rw [if_neg same] at found
      exact replayed.file dir tested file found
  · intro dir tested inode
    unfold Bindings.set
    by_cases same : dir = parent ∧ tested = name
    · rw [if_pos same, same.1, same.2]
      constructor
      · intro found
        obtain ⟨_, _, isDirectory⟩ := Option.map_eq_some_iff.1 found
        cases isDirectory
      · rintro ⟨child, isDirectory⟩
        rw [noDirectory inode child] at isDirectory
        cases isDirectory
    · rw [if_neg same]
      exact replayed.directory dir tested inode
  · exact replayed.path
  · intro ino beyond
    rw [rebinds.unused]
    exact replayed.unused ino beyond
  · exact replayed.store_unknown

theorem addFile (unknown : file ∉ files) {tree : Tree}
    (added : Tree.Adds state.tree tree snapshot.next (toString file) state.next)
    (empty : tree.content state.next = some []) : snapshot.Replayed (insert file files) bound store
      { state with tree := tree, next := state.next + 1 }
      (Function.update place file state.next) := by
  have freshUnused := replayed.unused state.next (Nat.le_refl _)
  have notFresh : ∀ {ino}, state.tree.node ino ≠ none → ino ≠ state.next := by
    intro ino used same
    exact used (same ▸ freshUnused)
  have samePlace : ∀ {other}, other ∈ files →
      Function.update place file state.next other = place other := by
    intro other member
    apply Function.update_of_ne
    exact fun same => unknown (same ▸ member)
  have placeUsed : ∀ {other}, other ∈ files → place other ≠ state.next := by
    intro other member
    exact notFresh (Tree.node_isSome_of_content (replayed.content other member))
  have dirUsed : ∀ {ino}, state.tree.isDir ino = true → ino ≠ state.next :=
    fun isDir => notFresh (Tree.node_isSome_of_isDir isDir)
  have sameChild : ∀ {dir}, snapshot.tree.isDir dir = true →
      ∀ name, tree.child dir name = state.tree.child dir name := by
    intro dir isDir name
    rw [added.child, if_neg]
    intro atHub
    exact ne_next_of_node (Tree.node_isSome_of_isDir isDir) atHub.1
  constructor
  · exact added.root.trans replayed.root
  · rw [sameChild snapshot.root_isDir]
    exact replayed.hub_entry
  · rw [added.isDir _ (dirUsed replayed.hub_isDir)]
    exact replayed.hub_isDir
  · intro other member
    rcases Set.mem_insert_iff.1 member with same | before
    · subst same
      rw [added.child, if_pos ⟨rfl, rfl⟩, Function.update_self]
    · rw [samePlace before, added.child, if_neg]
      · exact replayed.hub_file other before
      · intro atFile
        exact unknown (toString_inode_injective atFile.2 ▸ before)
  · intro other notMember
    rw [added.child, if_neg]
    · exact replayed.hub_free other fun member => notMember (Set.mem_insert_of_mem _ member)
    · intro atFile
      exact notMember (Set.mem_insert_iff.2 (Or.inl (toString_inode_injective atFile.2)))
  · exact replayed.hub_unbound
  · intro dir isDir
    have stillDir := replayed.isDir dir isDir
    rw [added.isDir _ (dirUsed stillDir)]
    exact stillDir
  · intro dir isDir name avoids
    rw [sameChild isDir, replayed.child dir isDir name avoids]
    apply Option.map_congr
    intro target found
    cases target with
    | directory inode => rfl
    | file inode => exact (samePlace (replayed.file dir name inode found)).symm
  · intro other member
    rcases Set.mem_insert_iff.1 member with same | before
    · subst same
      rw [Function.update_self, empty, replayed.store_unknown other unknown]
    · rw [samePlace before, added.content _ (placeUsed before)]
      exact replayed.content other before
  · intro left leftMember right rightMember same
    rcases Set.mem_insert_iff.1 leftMember with leftNew | leftBefore
    · rcases Set.mem_insert_iff.1 rightMember with rightNew | rightBefore
      · exact leftNew.trans rightNew.symm
      · rw [leftNew, Function.update_self, samePlace rightBefore] at same
        exact False.elim (placeUsed rightBefore same.symm)
    · rcases Set.mem_insert_iff.1 rightMember with rightNew | rightBefore
      · rw [rightNew, Function.update_self, samePlace leftBefore] at same
        exact False.elim (placeUsed leftBefore same)
      · rw [samePlace leftBefore, samePlace rightBefore] at same
        exact replayed.injective left leftBefore right rightBefore same
  · intro parent name other found
    exact Set.mem_insert_of_mem _ (replayed.file parent name other found)
  · exact replayed.directory
  · exact replayed.path
  · intro ino beyond
    have above : state.next < ino := beyond
    rw [added.unused ino (Nat.ne_of_gt above)]
    exact replayed.unused ino (Nat.le_of_lt above)
  · intro other notMember
    exact replayed.store_unknown other fun member => notMember (Set.mem_insert_of_mem _ member)

theorem setContent (isFile : file ∈ files) (bytes : Bytes) :
    snapshot.Replayed files bound (Function.update store file bytes)
      { state with tree := state.tree.setNode (place file) (.file bytes) }
      place := by
  have notDir := replayed.not_isDir isFile
  have sameChild := Tree.child_setNode_file notDir bytes
  have sameKind := Tree.isDir_setNode_file notDir bytes
  constructor
  · exact replayed.root
  · rw [sameChild]
    exact replayed.hub_entry
  · rw [sameKind]
    exact replayed.hub_isDir
  · intro other member
    rw [sameChild]
    exact replayed.hub_file other member
  · intro other notMember
    rw [sameChild]
    exact replayed.hub_free other notMember
  · exact replayed.hub_unbound
  · intro dir isDir
    rw [sameKind]
    exact replayed.isDir dir isDir
  · intro dir isDir name avoids
    rw [sameChild]
    exact replayed.child dir isDir name avoids
  · intro other member
    rw [Tree.content_setNode_file]
    by_cases same : other = file
    · rw [same, if_pos rfl, Function.update_self]
    · rw [if_neg, Function.update_of_ne same]
      · exact replayed.content other member
      · intro samePlace
        exact same (replayed.injective other member file isFile samePlace)
  · exact replayed.injective
  · exact replayed.file
  · exact replayed.directory
  · exact replayed.path
  · intro ino beyond
    have unused := replayed.unused ino beyond
    rw [Tree.node_setNode_of_ne]
    · exact unused
    · intro same
      exact Tree.node_isSome_of_content (replayed.content file isFile) (same ▸ unused)
  · intro other notMember
    rw [Function.update_of_ne]
    · exact replayed.store_unknown other notMember
    · intro same
      exact notMember (same ▸ isFile)

/-! ## Rows -/

theorem getInodeFile (file : Inode) {mode : Option Mode}
    (modeOk : ReplayState.checkMode mode = .ok ()) : ∃ after place',
      state.getInodeFile file mode = .ok after ∧
        snapshot.Replayed (insert file files) bound store after place' := by
  have found := replayed.resolve_inodePath file
  by_cases isFile : file ∈ files
  · refine ⟨state, place, ?_, ?_⟩
    · rw [replayed.hub_file file isFile] at found
      simp [ReplayState.getInodeFile, ReplayState.pathExists, found]
    · rw [Set.insert_eq_of_mem isFile]
      exact replayed
  · have absent := replayed.hub_free file isFile
    rw [absent] at found
    have hub : state.tree.resolve [inodesName] = some snapshot.next := by
      simp [Tree.resolve, Tree.resolveFrom, replayed.root, replayed.hub_entry]
    have created := Tree.create_concat hub replayed.hub_isDir absent state.next
    have unused := replayed.unused state.next (Nat.le_refl _)
    have called : (state.osCreate fun tree fresh =>
          tree.create (inodePath file) fresh) = _ :=
      ReplayState.osCreate_eq_ok created
    refine ⟨_, _, ?_, replayed.addFile isFile
      (Tree.adds_emptyFile unused replayed.hub_isDir (toString file)) (Tree.content_emptyFile ..)⟩
    simp only [ReplayState.getInodeFile, ReplayState.pathExists, found,
      Option.isSome_none, Bool.false_eq_true, if_false, modeOk, ok_bind, called]

end

section Entries

variable {parent : Inode} {name : Name} {path : Path}

section

variable (replayed : snapshot.Replayed files bound store state place)
include replayed

section

variable (isDir : snapshot.tree.isDir parent = true)
  (resolved : snapshot.tree.resolve path = some parent)
  (avoids : ¬(parent = snapshot.tree.root ∧ name = inodesName))
  (noDirectory : ∀ ino, snapshot.tree.child parent name = some ino →
    snapshot.tree.isDir ino = false)
include isDir resolved avoids noDirectory

theorem unlink_entry {target : Target} (found : bound parent name = some target) :
    ∃ after, (state.osCall fun tree => tree.unlink (path ++ [name])) = .ok after ∧
        snapshot.Replayed files (bound.set parent name none) store after
          place := by
  have child := replayed.child parent isDir name avoids
  rw [found] at child
  have notDir : state.tree.isDir (target.node place) = false := by
    cases target with
    | directory inode =>
      obtain ⟨bound, isDirectory⟩ := (replayed.directory parent name inode).1 found
      rw [noDirectory inode bound] at isDirectory
      cases isDirectory
    | file inode => exact replayed.not_isDir (replayed.file parent name inode found)
  have removed := Tree.unlink_concat (replayed.resolve_directory resolved isDir)
      (replayed.isDir parent isDir) child
  rw [notDir, if_neg Bool.false_ne_true] at removed
  refine ⟨_, ReplayState.osCall_eq_ok removed, ?_⟩
  apply replayed.setEntry isDir avoids noDirectory none
  · intro file isTarget
    cases isTarget
  · exact Tree.rebinds_dropEntry ..

/-- The part of `create_dir_entry` that follows the removal of an old
entry. -/
theorem link_inodeFile (free : bound parent name = none) (file : Inode) {mode : Option Mode}
    (modeOk : ReplayState.checkMode mode = .ok ()) : ∃ after place', (do
        assertThat (state.pathExists (path ++ [name]) = false)
        let state ← state.getInodeFile file mode
        state.osCall fun tree =>
          tree.link (inodePath file) (path ++ [name])) = .ok after ∧
        snapshot.Replayed (insert file files)
          (bound.set parent name (some (.file file))) store after place' := by
  have missing : state.pathExists (path ++ [name]) = false := by
    rw [replayed.pathExists_entry isDir resolved avoids, free]
    rfl
  obtain ⟨opened, place', returned, following⟩ := replayed.getInodeFile file modeOk
  have isFile : file ∈ insert file files := Set.mem_insert _ _
  have source : opened.tree.resolve (inodePath file) = some (place' file) := by
    rw [following.resolve_inodePath, following.hub_file file isFile]
  have absent : opened.tree.child parent name = none := by
    rw [following.child parent isDir name avoids, free]
    rfl
  have isDirectory := following.isDir parent isDir
  have linked := Tree.link_concat source (following.not_isDir isFile)
      (following.resolve_directory resolved isDir) isDirectory absent
  have called : (opened.osCall fun tree =>
        tree.link (inodePath file) (path ++ [name])) = _ :=
    ReplayState.osCall_eq_ok linked
  refine ⟨_, place', ?_, following.setEntry isDir avoids noDirectory (some file) ?_
    (Tree.rebinds_bindEntry isDirectory name (place' file))⟩
  · simp only [assertThat, missing, if_true, ok_bind, returned, called]
  · intro other same
    cases same
    exact isFile

end

section

variable {entry : Path} {entryType : EntryType}
  (fileEntry : snapshot.FileEntry parent entry entryType)
  (avoids : ¬(parent = snapshot.tree.root ∧ basename entry = inodesName))
include fileEntry avoids

theorem createDirEntry {mode : Option Mode} (file : Inode)
    (modeOk : ReplayState.checkMode mode = .ok ()) : ∃ after place',
      state.createDirEntry parent entry file mode entryType = .ok after ∧
        snapshot.Replayed (insert file files)
          (bound.set parent (basename entry) (some (.file file))) store after
          place' := by
  obtain ⟨isTypeFile, isDir, noDirectory⟩ := fileEntry
  subst isTypeFile
  obtain ⟨path, looked, resolved⟩ := replayed.lookupParent isDir
  have present := replayed.pathExists_entry isDir resolved avoids
  cases found : bound parent (basename entry) with
  | none =>
    rw [found] at present
    obtain ⟨after, place', returned, done⟩ :=
      replayed.link_inodeFile isDir resolved avoids noDirectory found file modeOk
    refine ⟨after, place', ?_, done⟩
    simp only [ReplayState.createDirEntry, looked, ok_bind, present]
    exact returned
  | some target =>
    rw [found] at present
    obtain ⟨removed, unlinked, without⟩ :=
      replayed.unlink_entry isDir resolved avoids noDirectory found
    have free : (bound.set parent (basename entry) none) parent (basename entry) =
          none := if_pos ⟨rfl, rfl⟩
    obtain ⟨after, place', returned, done⟩ :=
      without.link_inodeFile isDir resolved avoids noDirectory free file modeOk
    rw [Bindings.set_set] at done
    refine ⟨after, place', ?_, done⟩
    simp only [ReplayState.createDirEntry, looked, ok_bind, present,
      Option.isSome_some, if_true, unlinked]
    exact returned

theorem deleteDirEntry (file : Inode) :
    ∃ after, state.deleteDirEntry parent entry file entryType = .ok after ∧
        snapshot.Replayed files (bound.set parent (basename entry) none)
          store after place := by
  obtain ⟨isTypeFile, isDir, noDirectory⟩ := fileEntry
  subst isTypeFile
  obtain ⟨path, looked, resolved⟩ := replayed.lookupParent isDir
  have present := replayed.pathExists_entry isDir resolved avoids
  cases found : bound parent (basename entry) with
  | none =>
    rw [found] at present
    refine ⟨state, ?_, ?_⟩
    · simp only [ReplayState.deleteDirEntry, looked, ok_bind, present]
      rfl
    · rw [Bindings.set_of_eq found]
      exact replayed
  | some target =>
    rw [found] at present
    obtain ⟨after, unlinked, done⟩ := replayed.unlink_entry isDir resolved avoids noDirectory found
    refine ⟨after, ?_, done⟩
    simp only [ReplayState.deleteDirEntry, looked, ok_bind, present,
      Option.isSome_some, if_true, unlinked]

end

end

end Entries

section

variable (replayed : snapshot.Replayed files bound store state place)
include replayed

theorem modifyFile (file : Inode) (change : Bytes → Bytes) : ∃ after place',
      state.modifyFile file change = .ok after ∧ snapshot.Replayed (insert file files) bound
          (Function.update store file (change (store file))) after
          place' := by
  have noMode : ReplayState.checkMode none = .ok () := rfl
  obtain ⟨opened, place', returned, following⟩ := replayed.getInodeFile file noMode
  have isFile : file ∈ insert file files := Set.mem_insert _ _
  have resolved : opened.tree.resolve (inodePath file) = some (place' file) := by
    rw [following.resolve_inodePath, following.hub_file file isFile]
  have modified := Tree.modify_resolve resolved (following.content file isFile) change
  refine ⟨_, place', ?_, following.setContent isFile _⟩
  simp only [ReplayState.modifyFile, returned, ok_bind]
  exact ReplayState.osCall_eq_ok modified

theorem replayRow {env : ReplayEnv} {op : DiskOp} (fileOp : snapshot.FileOp op)
    (avoids : op.AvoidsHub snapshot.tree.root) (reads : env.Reads op) (i : ℕ) :
    ∃ files' after place', state.replayRow env i op = .ok after ∧
        snapshot.Replayed files' (op.rebind bound) (env.storeAfter i op store) after place' := by
  cases op with
  | createDirEntry parent entry inode mode entryType =>
    obtain ⟨after, place', returned, done⟩ := replayed.createDirEntry fileOp avoids inode reads
    rw [DiskOp.rebind_createDirEntry]
    exact ⟨_, after, place', returned, done⟩
  | deleteDirEntry parent entry inode entryType atomicity =>
    obtain ⟨after, returned, done⟩ := replayed.deleteDirEntry fileOp avoids inode
    rw [DiskOp.rebind_deleteDirEntry]
    exact ⟨_, after, place, returned, done⟩
  | truncate inode initialSize finalSize atomicity =>
    obtain ⟨after, place', returned, done⟩ := replayed.modifyFile inode
        fun content => FileContent.ftruncate content finalSize
    rw [ReplayEnv.update_eq_storeAfter_truncate] at done
    exact ⟨_, after, place', returned, done⟩
  | write op =>
    obtain ⟨data, read⟩ := reads (env.garbage i)
    have noMode : ReplayState.checkMode none = .ok () := rfl
    obtain ⟨opened, place₁, returned, following⟩ := replayed.getInodeFile op.inode noMode
    obtain ⟨after, place', modified, done⟩ := following.modifyFile op.inode
        fun content => FileContent.pwrite content op.offset data
    rw [ReplayEnv.update_eq_storeAfter_write op read] at done
    refine ⟨_, after, place', ?_, done⟩
    simp only [ReplayState.replayRow, returned, ok_bind, read]
    exact modified
  | sync inode offset count => exact ⟨files, state, place, rfl, replayed⟩
  | stdout data =>
    obtain ⟨text, decoded⟩ := reads
    refine ⟨files, { state with stdout := state.stdout ++ text }, place, ?_, replayed.root,
      replayed.hub_entry, replayed.hub_isDir, replayed.hub_file, replayed.hub_free,
      replayed.hub_unbound, replayed.isDir, replayed.child, replayed.content, replayed.injective,
      replayed.file, replayed.directory, replayed.path, replayed.unused, replayed.store_unknown⟩
    simp only [ReplayState.replayRow, decoded, ok_bind]
    rfl

theorem replayFrom {env : ReplayEnv} {rows : List DiskOp}
    (fileOps : ∀ op ∈ rows, snapshot.FileOp op)
    (avoids : ∀ op ∈ rows, op.AvoidsHub snapshot.tree.root) (reads : ∀ op ∈ rows, env.Reads op)
    (i : ℕ) : ∃ files' after place', state.replayFrom env i rows = .ok after ∧
        snapshot.Replayed files' (rows.foldl DiskOp.rebind bound)
          (env.storeFrom i rows store) after place' := by
  induction rows generalizing i files bound store state place with
  | nil => exact ⟨files, state, place, rfl, replayed⟩
  | cons op rest ih =>
    rw [List.forall_mem_cons] at fileOps avoids reads
    obtain ⟨_, middle, _, returned, following⟩ := replayed.replayRow fileOps.1 avoids.1 reads.1 i
    obtain ⟨files', after, place', finished, done⟩ :=
      ih following fileOps.2 avoids.2 reads.2 (i + 1)
    refine ⟨files', after, place', ?_, done⟩
    simp only [ReplayState.replayFrom, returned, ok_bind]
    exact finished

/-- Without `.inodes` the directory has the names that are bound and no
others. -/
theorem realized : snapshot.Realized bound store
      (state.tree.dropEntry state.tree.root inodesName) (Target.node place) := by
  have dropped := Tree.rebinds_dropEntry state.tree state.tree.root inodesName
  rw [replayed.root] at dropped ⊢
  have kind : ∀ parent name target, bound parent name = some target →
      (state.tree.isDir (target.node place) = true ↔ ∃ inode, target = .directory inode) := by
    intro parent name target found
    cases target with
    | directory inode =>
      have isDir := ((replayed.directory parent name inode).1 found).2
      exact iff_of_true (replayed.isDir inode isDir) ⟨inode, rfl⟩
    | file inode =>
      have notDir := replayed.not_isDir (replayed.file parent name inode found)
      simp only [Target.node, notDir, Bool.false_eq_true, reduceCtorEq, exists_false]
  constructor
  · exact dropped.root.trans replayed.root
  · intro dir isDir
    rw [dropped.isDir]
    exact replayed.isDir dir isDir
  · intro dir isDir name
    refine (dropped.child dir name).trans ?_
    by_cases atHub : dir = snapshot.tree.root ∧ name = inodesName
    · rw [if_pos atHub, atHub.1, atHub.2, replayed.hub_unbound]
      rfl
    · rw [if_neg atHub]
      exact replayed.child dir isDir name atHub
  · intro parent name dir found
    exact ((replayed.directory parent name dir).1 found).2
  · intro parent name file found
    rw [dropped.content]
    exact replayed.content file (replayed.file parent name file found)
  · intro parent name target parent' name' target' found found' same
    have sameKind := kind parent name target found
    rw [same, kind parent' name' target' found'] at sameKind
    cases target with
    | directory inode =>
      obtain ⟨inode', isDirectory⟩ := sameKind.2 ⟨inode, rfl⟩
      subst isDirectory
      exact congrArg Target.directory same
    | file inode =>
      cases target' with
      | directory inode' =>
        obtain ⟨_, isDirectory⟩ := sameKind.1 ⟨inode', rfl⟩
        cases isDirectory
      | file inode' =>
        exact congrArg Target.file (replayed.injective inode (replayed.file parent name inode found)
            inode' (replayed.file parent' name' inode' found') same)

end

end Replayed

/-! ## Whole replays -/

theorem foldl_rebind (rows : List DiskOp) (bound : Bindings) (dir : Inode) (name : Name) :
    rows.foldl DiskOp.rebind bound dir name =
      match rows.reverse.findSome? (DiskOp.entry? dir name) with
      | some target => target.map .file
      | none => bound dir name := by
  induction rows generalizing bound with
  | nil => rfl
  | cons op rest ih =>
    rw [List.foldl_cons, ih, List.reverse_cons, List.findSome?_append]
    cases rest.reverse.findSome? (DiskOp.entry? dir name) with
    | some target => rfl
    | none =>
      simp only [Option.none_or, List.findSome?_singleton]
      rfl

/-- `initialize_inode_links` returns, with the names of the snapshot. -/
theorem initializeInodeLinks_replayed (noHardLinks : snapshot.NoHardLinks)
    (hubFree : snapshot.tree.child snapshot.tree.root inodesName = none) : ∃ state,
      ReplayState.initializeInodeLinks snapshot = .ok state ∧
        snapshot.Replayed snapshot.naming.files snapshot.target snapshot.store state id := by
  obtain ⟨state, returned, initialized⟩ :=
    (initialized_copyOf hubFree).foldlM noHardLinks hubFree rfl
  refine ⟨state, ?_, initialized.replayed noHardLinks hubFree⟩
  simp only [ReplayState.initializeInodeLinks, assertThat, noHardLinks, if_true, ok_bind]
  exact returned

end Snapshot

theorem logSnapshot_fileEntry (content : Bytes) (entry : Path) :
    (logSnapshot content).FileEntry 2 entry .typeFile := by
  refine ⟨rfl, rfl, ?_⟩
  intro ino child
  have isLog := (leafTree_child "log" (some content) 2 _).symm.trans child
  split_ifs at isLog
  cases isLog
  rfl

/-- A second link to `log` and a new file under its old name, with data in
between and after. -/
def relinkLog : List DiskOp :=
  [.createDirEntry 2 ["workload", "copy"] 7 none .typeFile,
    .truncate 7 1 3 "",
    .deleteDirEntry 2 ["workload", "log"] 7 .typeFile none,
    .write ⟨12, 0, 2, none, 0, some .zeros, ""⟩,
    .createDirEntry 2 ["workload", "log"] 12 (some (.number 438)) .typeFile,
    .sync 12 0 2,
    .stdout []]

private theorem relinkLog_admissible : ∀ op ∈ relinkLog,
      (logSnapshot [1]).FileOp op ∧ op.AvoidsHub 2 ∧
        ReplayEnv.Reads ⟨fun _ => none, fun _ _ => 0⟩ op := by
  intro op member
  simp only [relinkLog, List.mem_cons, List.not_mem_nil, or_false] at member
  rcases member with same | same | same | same | same | same | same <;>
    subst same
  · exact ⟨logSnapshot_fileEntry [1] _, not_and_of_not_right _ (by decide),
      rfl⟩
  · exact ⟨trivial, trivial, trivial⟩
  · exact ⟨logSnapshot_fileEntry [1] _, not_and_of_not_right _ (by decide), trivial⟩
  · exact ⟨trivial, trivial, fun _ => ⟨_, rfl⟩⟩
  · exact ⟨logSnapshot_fileEntry [1] _, not_and_of_not_right _ (by decide),
      rfl⟩
  · exact ⟨trivial, trivial, trivial⟩
  · exact ⟨trivial, trivial, _, rfl⟩

/-- A file under the name that the replay uses itself. -/
def linkInodes : DiskOp :=
  .createDirEntry 2 ["workload", ".inodes"] 12 none .typeFile

end Alice
