import Alice.DefaultFs.Completion
import Alice.Legality.Shape
import Alice.Replay.LogicalOps
import Alice.Replay.Start

/-! # Crash states that can be built

A set of disk operations that omits a removal leaves an object at its name.
`TYPE_FILE` rows replace it only if it is a file, and the renames of the
directory branches accept only an empty directory.

If the trace renames a directory, already the set of all disk operations
cannot be built. -/

namespace Alice

def rowsOf (traced : List TracedOp) (combo : Finset ℕ) : List DiskOp :=
  (traced.zipIdx.filter fun numbered => numbered.2 ∈ combo).map fun numbered => numbered.1.op

theorem rowsOf_sublist (traced : List TracedOp) (combo : Finset ℕ) :
    (rowsOf traced combo).Sublist (traced.map TracedOp.op) := by
  have selected : (rowsOf traced combo).Sublist (traced.zipIdx.map fun numbered => numbered.1.op) :=
    List.filter_sublist.map _
  have numbering : (traced.zipIdx.map fun numbered => numbered.1.op) = traced.map TracedOp.op := by
    rw [← List.zipIdx_map_fst 0 traced, List.map_map]
    simp
  rw [← numbering]
  exact selected

theorem rowsOf_range (traced : List TracedOp) : rowsOf traced (Finset.range traced.length) =
      traced.map TracedOp.op := by
  apply (rowsOf_sublist traced _).eq_of_length
  have all : ∀ numbered ∈ traced.zipIdx, numbered.2 ∈ Finset.range traced.length := by
    intro numbered member
    have bound := List.snd_lt_of_mem_zipIdx member
    simpa using bound
  rw [rowsOf, List.filter_eq_self.2 (by simpa using all)]
  simp

/-! ## Directories that are renamed -/

namespace Naming

/-- The traced file system renames a directory, to a name that is not bound
or bound to a directory, which has two links at least. -/
def MovesDirectory (root : Inode) (names : Naming) : MicroOpKind → Prop
  | .rename info =>
      names.Live root info.sourceParent ∧
        names.child info.sourceParent (basename info.source) =
          some info.sourceInode ∧
        info.sourceInode ∈ names.dirs ∧
        names.Live root info.destParent ∧
        names.child info.destParent (basename info.dest) = info.destInode ∧
        match info.destInode with
        | none => info.destHardlinks = 0
        | some inode => inode ∈ names.dirs ∧ 2 ≤ info.destHardlinks
  | _ => False

/-- The traced file system performs the list, at least up to the first
operation that renames a directory. -/
def PerformsUntilMove (root : Inode) : Naming → List MicroOpKind → Prop
  | _, [] => True
  | names, kind :: rest =>
      names.Performs root kind ∧
          PerformsUntilMove root (names.applyKind kind) rest ∨
        names.MovesDirectory root kind

/-- The expansion of such an operation begins with the removal of a file where
there is a directory. -/
theorem MovesDirectory.expands {root : Inode} {names : Naming} {kind : MicroOpKind}
    (moves : names.MovesDirectory root kind) {fs : Defaultfs} {ops : List DiskOp}
    (expanded : fs.getDiskOps kind = .ok ops) : ∃ parent entry inode atomicity rest,
      ops = .deleteDirEntry parent entry inode .typeFile atomicity :: rest ∧
        names.Live root parent ∧ ¬names.NoDirAt parent (basename entry) := by
  cases kind with
  | rename info =>
    obtain ⟨sourceLive, sourceBound, isDir, destLive, destBound, dest⟩ := moves
    obtain ⟨truncates, destDeleted, _, noTruncates, deletedEq, opsEq⟩ :=
      Defaultfs.renameDiskOps_eq expanded
    cases destInode : info.destInode with
    | none =>
      simp only [destInode] at dest
      rw [noTruncates (by omega), deletedEq, if_neg (by omega)] at opsEq
      refine ⟨_, _, _, _, _, opsEq, sourceLive, ?_⟩
      intro noDir
      exact noDir _ sourceBound isDir
    | some inode =>
      simp only [destInode] at dest destBound
      rw [noTruncates (by omega), deletedEq, if_pos (by omega)] at opsEq
      refine ⟨_, _, _, _, _, opsEq, destLive, ?_⟩
      intro noDir
      exact noDir _ destBound dest.1
  | _ => exact moves.elim

end Naming

/-- If all disk operations of a list are replayed then it renames no
directory. -/
theorem Simulates.performsAll_of_replayed {root : Inode} {names : Naming}
    {store : Inode → Posix.Bytes} {state after : ReplayState} {place : Inode → Posix.Ino}
    {hub : Posix.Ino} {env : ReplayEnv} {i : ℕ} {microOps : List MicroOp} {traced : List TracedOp}
    {fs : Defaultfs} (simulates : Simulates root names names store state place hub)
    (performed : names.PerformsUntilMove root (microOps.map MicroOp.kind))
    (reads : ∀ microOp ∈ microOps, env.ReadsKind microOp.kind)
    (expanded : fs.allDiskOps microOps = .ok traced)
    (replayed : state.replayFrom env i (traced.map TracedOp.op) = .ok after) :
    names.PerformsAll root (microOps.map MicroOp.kind) := by
  induction microOps generalizing names store state place i traced with
  | nil => trivial
  | cons microOp rest ih =>
    obtain ⟨ops, later, here, there, tracedEq⟩ := Defaultfs.allDiskOps_cons_eq_ok expanded
    rw [tracedEq, ReplayState.replayFrom_append] at replayed
    obtain ⟨middle, first, second⟩ := Checked.bind_eq_ok_iff.1 replayed
    rcases performed with ⟨performs, following⟩ | moves
    · obtain ⟨allowed, result⟩ := simulates.wellFormed.expands performs here
      have readable : ∀ op ∈ ops, env.Reads op := fun op member =>
        (Defaultfs.emits_getDiskOps here op member).reads (reads microOp List.mem_cons_self)
      obtain ⟨avoids, fits⟩ := (simulates.replayFrom_iff (List.Sublist.refl ops) allowed
          readable).1 ⟨middle, first⟩
      obtain ⟨reached, place', returned, there'⟩ :=
        simulates.replayFrom_all (i := i) allowed avoids readable fits
      cases first.symm.trans returned
      rw [result] at there'
      refine ⟨performs, ih there' following ?_ there second⟩
      intro other member
      exact reads other (List.mem_cons_of_mem _ member)
    · obtain ⟨parent, entry, inode, atomicity, others, opsEq, live, clash⟩ := moves.expands here
      have avoids : ¬(parent = root ∧ basename entry = inodesName) := by
        rintro ⟨isRoot, isHub⟩
        apply clash
        rw [isRoot, isHub]
        intro existing bound
        rw [simulates.lags.hub_unbound] at bound
        cases bound
      have blocked := simulates.deleteFileEntry_blocked inode live avoids clash
      rw [opsEq] at first
      simp only [ReplayState.replayFrom, ReplayState.replayRow, blocked,
        Checked.error_bind, reduceCtorEq] at first

/-! ## Sets that can be built -/

section

variable
  {snapshot : Snapshot} {env : ReplayEnv} {fs : Defaultfs}
  {microOps : List MicroOp} {traced : List TracedOp}
  (hubFree : snapshot.tree.child snapshot.tree.root inodesName = none)
  (reads : ∀ microOp ∈ microOps, env.ReadsKind microOp.kind)
  (expanded : fs.allDiskOps microOps = .ok traced)

include hubFree reads expanded

/-- A set of the disk operations can be built exactly if no operation of the
set concerns the name `.inodes` of the root, and each of them fits what those
before it have left at its name. -/
theorem rowsOf_built_iff
    (performed : snapshot.naming.PerformsAll snapshot.tree.root (microOps.map MicroOp.kind))
    (combo : Finset ℕ) : (∃ crash, replayDiskOps env snapshot (rowsOf traced combo) = .ok crash) ↔
      snapshot.NoHardLinks ∧ (∀ op ∈ rowsOf traced combo, op.AvoidsHub snapshot.tree.root) ∧
        snapshot.naming.FitsAll (rowsOf traced combo) := by
  apply replayDiskOps_iff hubFree (rowsOf_sublist traced combo)
  · intro noHardLinks
    exact (performed.expands (Snapshot.wellFormed_naming noHardLinks) expanded).1
  · intro op member
    obtain ⟨microOp, listed, emits⟩ := Defaultfs.emits_allDiskOps expanded op member
    exact emits.reads (reads microOp listed)

theorem performsAll_of_built
    (performed : snapshot.naming.PerformsUntilMove snapshot.tree.root (microOps.map MicroOp.kind))
    {crash : CrashState} (built : replayDiskOps env snapshot (traced.map TracedOp.op) = .ok crash) :
    snapshot.NoHardLinks ∧ snapshot.naming.PerformsAll snapshot.tree.root
        (microOps.map MicroOp.kind) := by
  obtain ⟨start, started, rest⟩ := Checked.bind_eq_ok_iff.1 built
  obtain ⟨after, replayed, _⟩ := Checked.bind_eq_ok_iff.1 rest
  have noHardLinks : snapshot.NoHardLinks := by
    by_contra hardLinks
    simp [ReplayState.initializeInodeLinks, assertThat, hardLinks] at started
  obtain ⟨state, returned, simulates⟩ := Snapshot.initializeInodeLinks_simulates noHardLinks hubFree
  cases started.symm.trans returned
  exact ⟨noHardLinks, simulates.performsAll_of_replayed performed reads expanded replayed⟩

end

/-- An empty directory is removed and a file is created under its name. -/
def reusedName : List Line :=
  [⟨.rmdir ["workload", "d"], 0, 0, "1"⟩,
    ⟨.openFile ["workload", "d"] [.oCreat, .oWronly] (some "0666"), 3, 12,
      ""⟩]

def reusedNameMicroOps : List MicroOp :=
  [⟨.rmdir ["workload", "d"] 7 2, .rmdir⟩,
    ⟨.creat ["workload", "d"] (.text "0666") 12 2, .openFile⟩]

def reusedNameDiskOps : List TracedOp :=
  [⟨.deleteDirEntry 2 ["workload", "d"] 7 .typeDir none, .rmdir⟩,
    ⟨.createDirEntry 2 ["workload", "d"] 12 (some (.text "0666")) .typeFile,
      .openFile⟩]

def noDumps : ReplayEnv where
  dumps _ := none
  garbage _ _ := 0

private theorem reusedName_performed : (leafSnapshot "d" none).naming.PerformsUntilMove 2
      (reusedNameMicroOps.map MicroOp.kind) := by
  have rootLive : ∀ names : Naming, names.dirs = (leafSnapshot "d" none).naming.dirs →
        names.Live 2 2 := by
    intro names same
    exact ⟨same ▸ rfl, Or.inl rfl⟩
  refine Or.inl ⟨⟨rootLive _ rfl, ?_, rfl, ?_⟩, Or.inl ⟨⟨⟨rootLive _ rfl, ?_⟩, ?_⟩, trivial⟩⟩
  · exact leafTree_child "d" none 2 "d"
  · intro name
    exact leafTree_child "d" none 7 name
  · intro existing bound
    simp [Naming.applyKind, basename] at bound
  · exact Bool.false_ne_true

private theorem reusedName_reads :
    ∀ microOp ∈ reusedNameMicroOps, noDumps.ReadsKind microOp.kind := by
  intro microOp member
  simp only [reusedNameMicroOps, List.mem_cons, List.not_mem_nil, or_false] at member
  rcases member with isRmdir | isCreat
  · subst isRmdir
    trivial
  · subst isCreat
    rfl

end Alice
