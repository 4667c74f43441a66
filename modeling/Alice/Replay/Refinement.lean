import Alice.DefaultFs.Completion
import Alice.Replay.FileSystem
import Alice.Replay.Start

/-! # Splitting and replaying preserve the meaning of logical operations

However writes and changes of size were split, the replay of all disk
operations leaves the file system that the logical operations describe.
Excluded are operations on the name `.inodes` in the root and empty writes,
which `get_disk_ops` refuses. -/

namespace Alice

open Posix (Ino Name Path Bytes Tree)

namespace Naming

def resolveFrom (names : Naming) : Inode → Path → Option Inode
  | start, [] => some start
  | start, name :: rest =>
      (names.child start name).bind fun next => names.resolveFrom next rest

def resolve (root : Inode) (names : Naming) (path : Path) : Option Inode :=
  names.resolveFrom root path

end Naming

namespace FileSystem

/-- The tree has the names and the contents of the file system, with `place`
giving the node of an inode. -/
structure Represents (root : Inode) (state : FileSystem) (tree : Tree) (place : Inode → Ino) :
    Prop where
  resolve : ∀ path, tree.resolve path = (state.names.resolve root path).map place
  object : ∀ path inode, state.names.resolve root path = some inode →
    inode ∈ state.names.dirs ∧ tree.isDir (place inode) = true ∨
      inode ∈ state.names.files ∧
        tree.content (place inode) = some (state.content inode)
  distinct : ∀ path path' inode inode',
    state.names.resolve root path = some inode →
      state.names.resolve root path' = some inode' →
        place inode = place inode' → inode = inode'

section

variable
  {root : Inode} {state : FileSystem} {tree tree' : Tree}
  {place place' : Inode → Ino}

theorem Represents.resolve_eq_iff (represents : state.Represents root tree place)
    (path path' : Path) : tree.resolve path = tree.resolve path' ↔
      state.names.resolve root path = state.names.resolve root path' := by
  rw [represents.resolve, represents.resolve]
  constructor
  · intro same
    cases found : state.names.resolve root path with
    | none =>
      cases found' : state.names.resolve root path' with
      | none => rfl
      | some inode' =>
        rw [found, found'] at same
        cases same
    | some inode =>
      cases found' : state.names.resolve root path' with
      | none =>
        rw [found, found'] at same
        cases same
      | some inode' =>
        rw [found, found'] at same
        rw [represents.distinct path path' inode inode' found found' (Option.some.inj same)]
  · intro same
    rw [same]

theorem Represents.equivalent (apart : ∀ inode ∈ state.names.dirs, inode ∉ state.names.files)
    (represents : state.Represents root tree place)
    (represents' : state.Represents root tree' place') : tree.Equivalent tree' := by
  have atPath : ∀ path inode, state.names.resolve root path = some inode →
        tree.isDir (place inode) = tree'.isDir (place' inode) ∧
          tree.content (place inode) = tree'.content (place' inode) := by
    intro path inode found
    rcases represents.object path inode found with
      ⟨isDir, here⟩ | ⟨isFile, here⟩
    · rcases represents'.object path inode found with
        ⟨_, there⟩ | ⟨isFile, _⟩
      · rw [here, there, Tree.content_of_isDir here, Tree.content_of_isDir there]
        exact ⟨rfl, rfl⟩
      · exact False.elim (apart inode isDir isFile)
    · rcases represents'.object path inode found with
        ⟨isDir, _⟩ | ⟨_, there⟩
      · exact False.elim (apart inode isDir isFile)
      · rw [here, there, Tree.not_isDir_of_content here, Tree.not_isDir_of_content there]
        exact ⟨rfl, rfl⟩
  refine ⟨?_, ?_, ?_⟩
  · intro path
    rw [represents.resolve, represents'.resolve]
    cases found : state.names.resolve root path with
    | none => rfl
    | some inode => exact congrArg some (atPath path inode found).1
  · intro path
    rw [represents.resolve, represents'.resolve]
    cases found : state.names.resolve root path with
    | none => rfl
    | some inode => exact (atPath path inode found).2
  · intro path path'
    rw [represents.resolve_eq_iff, represents'.resolve_eq_iff]

end

end FileSystem

/-! ## The directory that a replay leaves -/

namespace Simulates

variable
  {root : Inode} {names : Naming} {store : Inode → Bytes}
  {state : ReplayState} {place : Inode → Ino} {hub : Ino}

variable {inode : Inode}

section

variable (simulates : Simulates root names names store state place hub) (known : names.Known inode)
include simulates known

private theorem child_dropped (name : Name) :
    (state.tree.dropEntry state.tree.root inodesName).child (place inode) name =
      (names.child inode name).map place := by
  have dropped := Tree.rebinds_dropEntry state.tree state.tree.root inodesName
  rw [dropped.child, simulates.holds.root_eq]
  rcases known with isDir | isFile
  · have rootKnown : names.Known root := Or.inl simulates.lags.root_mem
    by_cases atHub : inode = root ∧ name = inodesName
    · rw [if_pos ⟨congrArg place atHub.1, atHub.2⟩, atHub.1, atHub.2, simulates.lags.hub_unbound]
      rfl
    · rw [if_neg, simulates.holds.child inode isDir name atHub]
      rintro ⟨samePlace, isHub⟩
      exact atHub ⟨simulates.holds.injective inode root (Or.inl isDir) rootKnown samePlace, isHub⟩
  · have notDir : inode ∉ names.dirs := fun isDir => simulates.wellFormed.apart inode isDir isFile
    rw [simulates.lags.empty_of_unknown notDir name,
      Tree.child_eq_none_of_not_isDir (simulates.holds.not_isDir isFile)]
    exact ite_self _

private theorem resolveFrom_dropped (path : Path) :
    (state.tree.dropEntry state.tree.root inodesName).resolveFrom (place inode) path =
      (names.resolveFrom inode path).map place := by
  induction path generalizing inode with
  | nil => rfl
  | cons name rest ih =>
    rw [Tree.resolveFrom, Naming.resolveFrom, simulates.child_dropped known]
    cases bound : names.child inode name with
    | none => rfl
    | some next => exact ih (simulates.lags.target_known inode name next bound)

private theorem known_of_resolveFrom {found : Inode} {path : Path}
    (resolved : names.resolveFrom inode path = some found) : names.Known found := by
  induction path generalizing inode with
  | nil =>
    cases resolved
    exact known
  | cons name rest ih =>
    obtain ⟨next, bound, resolved⟩ := Option.bind_eq_some_iff.1 resolved
    exact ih (simulates.lags.target_known inode name next bound) resolved

end

private theorem named_of_resolveFrom {found : Inode} {path : Path}
    (resolved : names.resolveFrom inode path = some found) : found = inode ∨ names.Named found := by
  induction path generalizing inode with
  | nil =>
    cases resolved
    exact Or.inl rfl
  | cons name rest ih =>
    obtain ⟨next, bound, resolved⟩ := Option.bind_eq_some_iff.1 resolved
    rcases ih resolved with same | named
    · subst same
      exact Or.inr ⟨inode, name, bound⟩
    · exact Or.inr named

theorem represents {described : FileSystem}
    (simulates : Simulates root described.names described.names store state place hub)
    (agrees : described.Agrees store) : described.Represents root
      (state.tree.dropEntry state.tree.root inodesName) place := by
  have dropped := Tree.rebinds_dropEntry state.tree state.tree.root inodesName
  have rootKnown : described.names.Known root := Or.inl simulates.lags.root_mem
  refine ⟨?_, ?_, ?_⟩
  · intro path
    have fromRoot := simulates.resolveFrom_dropped rootKnown path
    rw [← simulates.holds.root_eq] at fromRoot
    rw [Tree.resolve, dropped.root]
    exact fromRoot
  · intro path inode resolved
    rw [dropped.isDir, dropped.content]
    rcases simulates.known_of_resolveFrom rootKnown resolved with
      isDir | isFile
    · exact Or.inl ⟨isDir, simulates.holds.isDir inode isDir⟩
    · refine Or.inr ⟨isFile, ?_⟩
      rcases named_of_resolveFrom resolved with isRoot | named
      · subst isRoot
        exact False.elim (simulates.wellFormed.apart inode simulates.lags.root_mem isFile)
      · rw [simulates.holds.content inode isFile, agrees.content inode isFile named]
  · intro path path' inode inode' resolved resolved' samePlace
    exact simulates.holds.injective inode inode' (simulates.known_of_resolveFrom rootKnown resolved)
      (simulates.known_of_resolveFrom rootKnown resolved') samePlace

end Simulates

/-! ## Whole lists -/

/-- What the replay cannot or does not take: the name of its own directory and
a `write` without bytes. -/
def MicroOpKind.Admissible (root : Inode) (kind : MicroOpKind) : Prop :=
  (root, inodesName) ∉ kind.entries ∧ ∀ range, kind = .write range → 0 < range.count

namespace FileSystem

variable
  {root : Inode} {env : ReplayEnv} {state : FileSystem}
  {microOps : List MicroOp}

theorem names_foldl_apply (dumps : DumpFiles) (state : FileSystem) (kinds : List MicroOpKind) :
    (kinds.foldl (FileSystem.apply dumps) state).names =
      kinds.foldl Naming.applyKind state.names := by
  induction kinds generalizing state with
  | nil => rfl
  | cons kind rest ih => rw [List.foldl_cons, List.foldl_cons, ih, names_apply]

/-- The step from one state to the next keeps what the next one needs. -/
private theorem Matches.wellFormed_apply {kind : MicroOpKind}
    (matching : state.Matches root env.dumps kind) (wellFormed : state.names.WellFormed root)
    {fs : Defaultfs} {ops : List DiskOp} (expanded : fs.getDiskOps kind = .ok ops) :
    (state.apply env.dumps kind).names.WellFormed root := by
  obtain ⟨allowed, result⟩ := wellFormed.expands (matching.performs wellFormed) expanded
  rw [names_apply, ← result]
  exact wellFormed.applyAll allowed

/-- A matching list is performed, it is expanded, and its disk operations do
to contents what it does. -/
theorem MatchesAll.expands {store : Inode → Bytes} {i : ℕ}
    (matching : state.MatchesAll root env.dumps (microOps.map MicroOp.kind))
    (admissible : ∀ microOp ∈ microOps, microOp.kind.Admissible root)
    (wellFormed : state.names.WellFormed root) (agrees : state.Agrees store) (fs : Defaultfs) :
    ∃ traced, fs.allDiskOps microOps = .ok traced ∧
        state.names.PerformsAll root (microOps.map MicroOp.kind) ∧
        (∀ microOp ∈ microOps, env.ReadsKind microOp.kind) ∧
        ((microOps.map MicroOp.kind).foldl (FileSystem.apply env.dumps)
          state).Agrees (env.storeFrom i (traced.map TracedOp.op) store) := by
  induction microOps generalizing state store i with
  | nil => exact ⟨[], rfl, trivial, by simp, agrees⟩
  | cons microOp rest ih =>
    obtain ⟨ops, here, following⟩ :=
      matching.1.expands (admissible microOp List.mem_cons_self).2 agrees fs
    obtain ⟨later, there, performed, reads, final⟩ := ih (i := i + ops.length) matching.2
        (fun other member => admissible other (List.mem_cons_of_mem _ member))
        (matching.1.wellFormed_apply wellFormed here) (following i)
    rw [names_apply] at performed
    refine ⟨(ops.map fun op => ⟨op, microOp.syscall⟩) ++ later, ?_,
      ⟨matching.1.performs wellFormed, performed⟩, ?_, ?_⟩
    · rw [Defaultfs.allDiskOps_cons, here, there]
      rfl
    · intro other member
      rcases List.mem_cons.1 member with isFirst | inRest
      · subst isFirst
        exact matching.1.readsKind
      · exact reads other inRest
    · have sameOps : (ops.map fun op => TracedOp.op ⟨op, microOp.syscall⟩) = ops := List.map_id' ops
      rw [List.map_append, List.map_map, ReplayEnv.storeFrom_append]
      exact sameOps.symm ▸ final

end FileSystem

def Snapshot.fileSystem (snapshot : Snapshot) : FileSystem :=
  ⟨snapshot.naming, snapshot.store⟩

/-- The disk operations of a matching list are replayed without an error, and
the result is the file system that the list describes. -/
theorem Defaultfs.replay_represents {snapshot : Snapshot} (env : ReplayEnv)
    {microOps : List MicroOp} (noHardLinks : snapshot.NoHardLinks)
    (hubFree : snapshot.tree.child snapshot.tree.root inodesName = none)
    (matching : snapshot.fileSystem.MatchesAll snapshot.tree.root env.dumps
      (microOps.map MicroOp.kind))
    (admissible : ∀ microOp ∈ microOps, microOp.kind.Admissible snapshot.tree.root)
    (fs : Defaultfs) :
    let described := (microOps.map MicroOp.kind).foldl
      (FileSystem.apply env.dumps) snapshot.fileSystem
    ∃ traced crash place, fs.allDiskOps microOps = .ok traced ∧
        replayDiskOps env snapshot (traced.map TracedOp.op) = .ok crash ∧
        described.Represents snapshot.tree.root crash.tree place ∧
        ∀ inode ∈ described.names.dirs, inode ∉ described.names.files := by
  have wellFormed := Snapshot.wellFormed_naming noHardLinks
  have agrees : snapshot.fileSystem.Agrees snapshot.store :=
    ⟨fun _ _ _ => rfl, Snapshot.store_unknown⟩
  obtain ⟨traced, expanded, performed, reads, final⟩ :=
    matching.expands (i := 0) admissible wellFormed agrees fs
  obtain ⟨allowed, result⟩ := performed.expands wellFormed expanded
  obtain ⟨start, started, simulates⟩ := Snapshot.initializeInodeLinks_simulates noHardLinks hubFree
  have emitted := Defaultfs.emits_allDiskOps expanded
  have avoids : ∀ op ∈ traced.map TracedOp.op, op.AvoidsHub snapshot.tree.root := by
    intro op member
    obtain ⟨microOp, listed, emits⟩ := emitted op member
    exact emits.avoidsHub (admissible microOp listed).1
  have readable : ∀ op ∈ traced.map TracedOp.op, env.Reads op := by
    intro op member
    obtain ⟨microOp, listed, emits⟩ := emitted op member
    exact emits.reads (reads microOp listed)
  obtain ⟨after, place, returned, done⟩ :=
    simulates.replayFrom_all (i := 0) allowed avoids readable allowed.fitsAll
  have names := result.trans (FileSystem.names_foldl_apply env.dumps snapshot.fileSystem _).symm
  have described : Simulates _ _ _ _ after place snapshot.next := names ▸ done
  refine ⟨traced, ⟨after.tree.dropEntry after.tree.root inodesName, after.stdout⟩, place,
    expanded, ?_, described.represents final, described.wellFormed.apart⟩
  simp only [replayDiskOps, started, returned, Checked.ok_bind]
  rfl

def threeBytes : DumpFiles :=
  fun _ => some [5, 6, 7]

/-- A new file is created, filled and renamed over the file `log`. -/
def replaceLog : List MicroOp :=
  [⟨.creat ["workload", "new"] (.text "0666") 12 2, .openFile⟩,
    ⟨.append ⟨12, 0, 2, "dump", 1⟩, .write⟩,
    ⟨.rename ⟨["workload", "new"], ["workload", "log"], 12, some 7, 2, 2, 2,
      1, 1⟩, .rename⟩]

private theorem logSnapshot_child (content : Bytes) (dir : Inode) (name : Name) :
    (logSnapshot content).fileSystem.names.child dir name =
      if dir = 2 ∧ name = "log" then some 7 else none :=
  leafTree_child "log" (some content) dir name

private theorem logSnapshot_live (content : Bytes) {names : Naming}
    (sameDirs : names.dirs = (logSnapshot content).naming.dirs) : names.Live 2 2 :=
  ⟨sameDirs ▸ rfl, Or.inl rfl⟩

private theorem replaceLog_matches : (logSnapshot [1]).fileSystem.MatchesAll 2 threeBytes
      (replaceLog.map MicroOp.kind) := by
  have notDir : 12 ∉ (logSnapshot [1]).fileSystem.names.dirs := Bool.false_ne_true
  have notFile : 12 ∉ (logSnapshot [1]).fileSystem.names.files := Bool.false_ne_true
  refine ⟨⟨logSnapshot_live [1] rfl, logSnapshot_child [1] 2 "new", notDir,
    notFile, rfl⟩, ⟨Set.mem_insert 12 _, rfl, [5, 6, 7], rfl, by decide⟩,
    ⟨rfl, Set.mem_insert 12 _, logSnapshot_live [1] rfl, ?_,
      Set.mem_insert_of_mem 12 rfl, by decide, rfl, ?_⟩, trivial⟩
  · exact logSnapshot_child [1] 2 "log"
  · refine (Set.ncard_eq_one.2 ⟨(2, "log"), ?_⟩).symm
    ext ⟨dir, name⟩
    have child : (((logSnapshot [1]).fileSystem.apply threeBytes
            (.creat ["workload", "new"] (.text "0666") 12 2)).apply
              threeBytes (.append ⟨12, 0, 2, "dump", 1⟩)).names.child dir name =
          if dir = 2 ∧ name = "new" then
            some 12
          else if dir = 2 ∧ name = "log" then
            some 7
          else
            none := by
      rw [← logSnapshot_child [1]]
      rfl
    simp only [Set.mem_ofPred_eq, child, Set.mem_singleton_iff, Prod.mk.injEq]
    split
    · rename_i isNew
      simp [isNew.2]
    · simp

private theorem replaceLog_admissible : ∀ microOp ∈ replaceLog, microOp.kind.Admissible 2 := by
  intro microOp member
  simp only [replaceLog, List.mem_cons, List.not_mem_nil, or_false] at member
  rcases member with isCreat | isAppend | isRename
  · subst isCreat
    exact ⟨by decide, by simp⟩
  · subst isAppend
    exact ⟨by decide, by simp⟩
  · subst isRename
    exact ⟨by decide, by simp⟩

def createInodes : List MicroOp :=
  [⟨.creat ["workload", ".inodes"] (.text "0666") 12 2, .openFile⟩]

def emptyWrite : List MicroOp :=
  [⟨.write ⟨7, 0, 0, "dump", 0⟩, .write⟩]

end Alice
