import Alice.Replay.FileData

/-! # `replay_disk_ops`

`.inodes` holds one entry for every inode: a second link of a file, made when
the inode is first needed, or a directory that waits to be linked.
`dirinode_map` says where the directory of an inode was put last.

Paths are relative to the replay directory.  The model keeps the inode numbers
of the snapshot, on which nothing depends, and draws later ones from a
counter.  What `os.system` runs does not fail here. -/

namespace Alice

open Posix (Ino Name Path Bytes Errno Tree)

def inodesName : Name :=
  ".inodes"

def inodePath (inode : Inode) : Path :=
  [inodesName, toString inode]

/-- The initial snapshot with its listing by `get_path_inode_map`, in which
every path occurs once, and the first inode number that its copy leaves
free.  The tree has no nodes that no path leads to. -/
structure Snapshot where
  tree : Tree
  listing : List (Path × Ino)
  next : Ino
  nodup : (listing.map Prod.fst).Nodup
  mem_listing : ∀ path ino, (path, ino) ∈ listing ↔ tree.resolve path = some ino
  node_isSome : ∀ path ino, tree.resolve path = some ino → (tree.node ino).isSome = true
  reachable : ∀ ino, (tree.node ino).isSome = true → ∃ path, tree.resolve path = some ino
  root_isDir : tree.isDir tree.root = true
  node_next : ∀ ino, next ≤ ino → tree.node ino = none

/-- What `initialize_inode_links` asserts about the listing. -/
def Snapshot.NoHardLinks (snapshot : Snapshot) : Prop :=
  (snapshot.listing.map Prod.snd).Nodup

instance (snapshot : Snapshot) : Decidable snapshot.NoHardLinks :=
  inferInstanceAs (Decidable (snapshot.listing.map Prod.snd).Nodup)

/-- A directory whose only entry is a file or an empty directory. -/
def leafTree (name : Name) (content : Option Bytes) : Tree where
  node ino :=
    if ino = 2 then
      some (.dir (AList.singleton name 7))
    else if ino = 7 then
      match content with
      | some bytes => some (.file bytes)
      | none => some (.dir ∅)
    else
      none
  root := 2

theorem leafTree_child (name : Name) (content : Option Bytes) (dir : Ino) (tested : Name) :
    (leafTree name content).child dir tested =
      if dir = 2 ∧ tested = name then some 7 else none := by
  by_cases isRoot : dir = 2
  · by_cases isName : tested = name
    · subst isRoot isName
      simp [Tree.child, Tree.entries, leafTree, AList.lookup]
    · simp [Tree.child, Tree.entries, leafTree, isRoot, isName, AList.lookup]
  · by_cases isLeaf : dir = 7
    · cases content <;>
        simp [Tree.child, Tree.entries, leafTree, isLeaf]
    · simp [Tree.child, Tree.entries, leafTree, isRoot, isLeaf]

theorem leafTree_resolve (name : Name) (content : Option Bytes) (path : Path) (ino : Ino) :
    (path, ino) ∈ [([], 2), ([name], 7)] ↔ (leafTree name content).resolve path = some ino := by
  have rootEq : (leafTree name content).root = 2 := rfl
  match path with
  | [] => simp [Tree.resolve, Tree.resolveFrom, rootEq, eq_comm]
  | [first] =>
    by_cases isName : first = name
    · simp [Tree.resolve, Tree.resolveFrom, rootEq, leafTree_child, isName, eq_comm]
    · simp [Tree.resolve, Tree.resolveFrom, rootEq, leafTree_child, isName]
  | first :: second :: rest =>
    by_cases isName : first = name <;>
      simp [Tree.resolve, Tree.resolveFrom, rootEq, leafTree_child, isName]

def leafSnapshot (name : Name) (content : Option Bytes) : Snapshot where
  tree := leafTree name content
  listing := [([], 2), ([name], 7)]
  next := 8
  nodup := by simp
  mem_listing := leafTree_resolve name content
  node_isSome := by
    intro path ino resolved
    have listed := (leafTree_resolve name content path ino).2 resolved
    simp only [List.mem_cons, Prod.mk.injEq, List.not_mem_nil, or_false] at listed
    rcases listed with ⟨_, isRoot⟩ | ⟨_, isLeaf⟩
    · subst isRoot
      rfl
    · subst isLeaf
      cases content <;> rfl
  reachable := by
    intro ino used
    by_cases isRoot : ino = 2
    · exact ⟨[], congrArg some isRoot.symm⟩
    · by_cases isLeaf : ino = 7
      · subst isLeaf
        exact ⟨[name], (leafTree_resolve name content [name] 7).1 (by simp)⟩
      · simp [leafTree, isRoot, isLeaf] at used
  root_isDir := rfl
  node_next := by
    intro ino past
    have notRoot : ino ≠ 2 := Nat.ne_of_gt (Nat.lt_of_lt_of_le (by decide) past)
    have notLeaf : ino ≠ 7 := Nat.ne_of_gt (Nat.lt_of_lt_of_le (by decide) past)
    simp [leafTree, notRoot, notLeaf]

def logSnapshot (content : Bytes) : Snapshot :=
  leafSnapshot "log" (some content)

structure ReplayState where
  tree : Tree
  /-- The next inode number of the host. -/
  next : Ino
  dirinodeMap : Inode → Option Path
  stdout : String

namespace ReplayState

/-- A system call on a path of the replay directory. -/
def osCall (state : ReplayState) (call : Tree → Except Errno Tree) : Except PyError ReplayState :=
  match call state.tree with
  | .ok tree => .ok { state with tree := tree }
  | .error errno => .error (.osError errno)

/-- A system call that creates an object. -/
def osCreate (state : ReplayState) (call : Tree → Ino → Except Errno Tree) :
    Except PyError ReplayState :=
  (state.osCall fun tree => call tree state.next).map fun created =>
    { created with next := state.next + 1 }

/-- `get_stat` and `os.path.exists`. -/
def pathExists (state : ReplayState) (path : Path) : Bool :=
  (state.tree.resolve path).isSome

/-- The conversion of a `mode` argument. -/
def checkMode : Option Mode → Except PyError Unit
  | some (.text printed) => (safeStringToInt printed).map fun _ => ()
  | some (.number _) => .ok ()
  | none => .ok ()

/-- `get_inode_file`; the path it returns is `inodePath inode`. -/
def getInodeFile (state : ReplayState) (inode : Inode) (mode : Option Mode) :
    Except PyError ReplayState :=
  if state.pathExists (inodePath inode) then
    .ok state
  else do
    checkMode mode
    state.osCreate fun tree fresh => tree.create (inodePath inode) fresh

def isLinkedInodeDirectory (state : ReplayState) (inode : Inode) : Bool :=
  match state.dirinodeMap inode with
  | none => false
  | some path => path ≠ inodePath inode

def setInodeDirectory (state : ReplayState) (inode : Inode) (path : Path) : ReplayState :=
  { state with
    dirinodeMap := Function.update state.dirinodeMap inode (some path) }

/-- `get_inode_directory`, with the path it returns. -/
def getInodeDirectory (state : ReplayState) (inode : Inode) (mode : Option Mode) :
    Except PyError (ReplayState × Path) :=
  match state.dirinodeMap inode with
  | some path => .ok (state, path)
  | none => do
      checkMode mode
      let made ← state.osCreate fun tree fresh =>
        tree.mkdir (inodePath inode) fresh
      pure (made.setInodeDirectory inode (inodePath inode), inodePath inode)

def createDirEntry (state : ReplayState) (parent : Inode) (entry : Path) (inode : Inode)
    (mode : Option Mode) (entryType : EntryType) :
    Except PyError ReplayState := do
  let (state, parentPath) ← state.getInodeDirectory parent none
  let newPath := parentPath ++ [basename entry]
  match entryType with
  | .typeFile =>
      let state ←
        if state.pathExists newPath then
          state.osCall fun tree => tree.unlink newPath
        else
          pure state
      assertThat (state.pathExists newPath = false)
      let state ← state.getInodeFile inode mode
      state.osCall fun tree => tree.link (inodePath inode) newPath
  | .typeDir =>
      assertThat (state.isLinkedInodeDirectory inode = false)
      let (state, directory) ← state.getInodeDirectory inode mode
      let state ← state.osCall fun tree => tree.rename directory newPath
      pure (state.setInodeDirectory inode newPath)

def deleteDirEntry (state : ReplayState) (parent : Inode) (entry : Path) (inode : Inode)
    (entryType : EntryType) : Except PyError ReplayState := do
  let (state, parentPath) ← state.getInodeDirectory parent none
  let path := parentPath ++ [basename entry]
  if state.pathExists path then
    match entryType with
    | .typeFile => state.osCall fun tree => tree.unlink path
    | .typeDir => state.osCall fun tree => tree.rename path (inodePath inode)
  else
    pure state

/-- Open the file of an inode and change its content. -/
def modifyFile (state : ReplayState) (inode : Inode) (change : Bytes → Bytes) :
    Except PyError ReplayState := do
  let state ← state.getInodeFile inode none
  state.osCall fun tree => tree.modify (inodePath inode) change

def decodeUtf8 (data : Bytes) : Except PyError String :=
  match String.fromUTF8? ⟨data.toArray⟩ with
  | some text => .ok text
  | none => .error .valueError

end ReplayState

/-- The files a replay reads and the bytes it draws at random for the row at a
given position. -/
structure ReplayEnv where
  dumps : DumpFiles
  garbage : ℕ → ℕ → UInt8

namespace ReplayState

/-- The body of the loop over `rows`, for the row at position `i`. -/
def replayRow (env : ReplayEnv) (i : ℕ) (state : ReplayState) : DiskOp → Except PyError ReplayState
  | .createDirEntry parent entry inode mode entryType =>
      state.createDirEntry parent entry inode mode entryType
  | .deleteDirEntry parent entry inode entryType _ =>
      state.deleteDirEntry parent entry inode entryType
  | .truncate inode _ finalSize _ =>
      state.modifyFile inode fun content =>
        FileContent.ftruncate content finalSize
  | .write op => do
      let state ← state.getInodeFile op.inode none
      let buffer ← op.buffer env.dumps (env.garbage i)
      state.modifyFile op.inode fun content =>
        FileContent.pwrite content op.offset buffer
  | .stdout data => do
      let text ← decodeUtf8 data
      pure { state with stdout := state.stdout ++ text }
  | .sync .. => .ok state

/-- The loop over `rows`, of which the first is at position `i`. -/
def replayFrom (env : ReplayEnv) : ℕ → ReplayState → List DiskOp → Except PyError ReplayState
  | _, state, [] => .ok state
  | i, state, op :: rest => do
      let state ← state.replayRow env i op
      replayFrom env (i + 1) state rest

theorem replayFrom_append (env : ReplayEnv) (i : ℕ) (state : ReplayState)
    (front back : List DiskOp) : state.replayFrom env i (front ++ back) =
      (state.replayFrom env i front >>= fun middle =>
        middle.replayFrom env (i + front.length) back) := by
  induction front generalizing i state with
  | nil => rfl
  | cons op rest ih =>
    simp only [List.cons_append, replayFrom, List.length_cons]
    cases state.replayRow env i op with
    | error error => rfl
    | ok next =>
      have shifted : i + 1 + rest.length = i + (rest.length + 1) := by omega
      have following := ih (i + 1) next
      rw [shifted] at following
      exact following

/-- One round of `initialize_inode_links`. -/
def initializeInodeLink (state : ReplayState) (found : Path × Ino) : Except PyError ReplayState :=
  if state.tree.isDir found.2 then
    .ok (state.setInodeDirectory found.2 found.1)
  else
    state.osCall fun tree => tree.link found.1 (inodePath found.2)

/-- The copy of the snapshot, with `.inodes` made. -/
def copyOf (snapshot : Snapshot) : ReplayState where
  tree :=
    match snapshot.tree.mkdir [inodesName] snapshot.next with
    | .ok tree => tree
    | .error _ => snapshot.tree
  next := snapshot.next + 1
  dirinodeMap _ := none
  stdout := ""

def initializeInodeLinks (snapshot : Snapshot) : Except PyError ReplayState := do
  assertThat snapshot.NoHardLinks
  snapshot.listing.foldlM initializeInodeLink (copyOf snapshot)

end ReplayState

/-- What `replay_disk_ops` leaves behind: the replay directory and the text of
`stdout_file`. -/
structure CrashState where
  tree : Tree
  stdout : String

/-- `replay_disk_ops` without the cache. -/
def replayDiskOps (env : ReplayEnv) (snapshot : Snapshot) (rows : List DiskOp) :
    Except PyError CrashState := do
  let start ← ReplayState.initializeInodeLinks snapshot
  let state ← start.replayFrom env 0 rows
  pure ⟨state.tree.dropEntry state.tree.root inodesName, state.stdout⟩

end Alice
