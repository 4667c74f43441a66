import Alice.DefaultFs.DiskOps
import Alice.Replay.Run

/-! # Logical operations and names

Disk operations do to names what their logical operation does.  `Performs` is
what a trace guarantees; the numbers of removed objects are not used again,
and renamed objects are files here. -/

namespace Alice

open Posix (Name Path)
open Checked Defaultfs

namespace Naming

def applyKind (names : Naming) : MicroOpKind → Naming
  | .creat name _ inode parent =>
      (names.touchFile inode).setEntry parent (basename name) (some inode)
  | .link dest sourceInode destParent =>
      names.setEntry destParent (basename dest) (some sourceInode)
  | .unlink name _ parent _ _ =>
      names.setEntry parent (basename name) none
  | .rename info =>
      (names.setEntry info.sourceParent (basename info.source) none).setEntry
        info.destParent (basename info.dest) (some info.sourceInode)
  | .mkdir name _ inode parent =>
      (names.touchDir inode).setEntry parent (basename name) (some inode)
  | .rmdir name _ parent => names.setEntry parent (basename name) none
  | .trunc .. | .append _ | .write _ => names
  | .fsync .. | .fdatasync .. | .fileSyncRange .. | .sync _ => names
  | .stdout _ => names

/-- The name of a file: its directory has a name itself, and it is not the
name of a directory. -/
def FileName (root : Inode) (names : Naming) (parent : Inode) (path : Path) : Prop :=
  names.Live root parent ∧ names.NoDirAt parent (basename path)

def Performs (root : Inode) (names : Naming) : MicroOpKind → Prop
  | .creat name _ inode parent =>
      names.FileName root parent name ∧ inode ∉ names.dirs
  | .link dest sourceInode destParent =>
      names.FileName root destParent dest ∧ sourceInode ∈ names.files
  | .unlink name inode parent _ _ =>
      names.FileName root parent name ∧ inode ∈ names.files
  | .rename info =>
      names.FileName root info.sourceParent info.source ∧
        names.FileName root info.destParent info.dest ∧
        info.sourceInode ∈ names.files ∧
        match info.destInode with
        | some inode => inode ∈ names.files
        | none => info.destHardlinks = 0
  | .trunc inode _ _ => inode ∈ names.files
  | .append range | .write range => range.inode ∈ names.files
  | .mkdir name _ inode parent =>
      names.Live root parent ∧ names.child parent (basename name) = none ∧
        inode ∉ names.dirs ∧ inode ∉ names.files
  | .rmdir name inode parent =>
      names.Live root parent ∧
        names.child parent (basename name) = some inode ∧
        inode ∈ names.dirs ∧ names.Empty inode
  | .fsync .. | .fdatasync .. | .fileSyncRange .. | .sync _ => True
  | .stdout _ => True

def PerformsAll (root : Inode) : Naming → List MicroOpKind → Prop
  | _, [] => True
  | names, kind :: rest =>
      names.Performs root kind ∧ PerformsAll root (names.applyKind kind) rest

end Naming

/-- The modes, the dump files and the texts of an operation can be read. -/
def ReplayEnv.ReadsKind (env : ReplayEnv) : MicroOpKind → Prop
  | .creat _ mode _ _ => ReplayState.checkMode (some mode) = .ok ()
  | .append range | .write range => (env.dumps range.dumpFile).isSome = true
  | .stdout data => ∃ text, ReplayState.decodeUtf8 data = .ok text
  | .link .. | .unlink .. | .rename _ | .trunc .. => True
  | .mkdir .. | .rmdir .. => True
  | .fsync .. | .fdatasync .. | .fileSyncRange .. | .sync _ => True

def MicroOpKind.entries : MicroOpKind → List (Inode × Name)
  | .creat name _ _ parent => [(parent, basename name)]
  | .link dest _ destParent => [(destParent, basename dest)]
  | .unlink name _ parent _ _ => [(parent, basename name)]
  | .rename info =>
      [(info.sourceParent, basename info.source), (info.destParent, basename info.dest)]
  | .mkdir name _ _ parent => [(parent, basename name)]
  | .rmdir name _ parent => [(parent, basename name)]
  | .trunc .. | .append _ | .write _ => []
  | .fsync .. | .fdatasync .. | .fileSyncRange .. | .sync _ => []
  | .stdout _ => []

def MicroOpKind.source : MicroOpKind → Option String
  | .append range | .write range => some range.dumpFile
  | .creat .. | .link .. | .unlink .. | .rename _ | .trunc .. => none
  | .mkdir .. | .rmdir .. => none
  | .fsync .. | .fdatasync .. | .fileSyncRange .. | .sync _ => none
  | .stdout _ => none

/-- The mode that an operation hands on as it was traced. -/
def MicroOpKind.creatMode : MicroOpKind → Option Mode
  | .creat _ mode _ _ => some mode
  | .link .. | .unlink .. | .rename _ | .trunc .. => none
  | .append _ | .write _ | .mkdir .. | .rmdir .. => none
  | .fsync .. | .fdatasync .. | .fileSyncRange .. | .sync _ => none
  | .stdout _ => none

/-- What a disk operation of a logical operation can be. -/
def MicroOpKind.Emits (kind : MicroOpKind) : DiskOp → Prop
  | .createDirEntry parent entry _ mode _ =>
      (parent, basename entry) ∈ kind.entries ∧
        (mode = kind.creatMode ∨ ReplayState.checkMode mode = .ok ())
  | .deleteDirEntry parent entry _ _ _ =>
      (parent, basename entry) ∈ kind.entries
  | .write op =>
      op.specialWrite = none → op.dumpFile = kind.source ∧ kind.source.isSome = true
  | .stdout data => kind = .stdout data
  | .truncate .. => True
  | .sync .. => True

/-! ## Operations on the content of one file -/

/-- The operation changes the content of the file and nothing else.  What it
writes is special or comes from the dump file `source`. -/
def DiskOp.Changes (file : Inode) (source : Option String) : DiskOp → Prop
  | .write op =>
      op.inode = file ∧ (op.specialWrite = none → op.dumpFile = source ∧ source.isSome = true)
  | .truncate inode _ _ _ => inode = file
  | _ => False

theorem DiskOp.Changes.emits {file : Inode} {kind : MicroOpKind} {op : DiskOp}
    (changes : op.Changes file kind.source) : kind.Emits op := by
  cases op with
  | write op => exact changes.2
  | truncate => trivial
  | sync => trivial
  | createDirEntry => exact changes.elim
  | deleteDirEntry => exact changes.elim
  | stdout => exact changes.elim

namespace Defaultfs

variable
  {fs : Defaultfs} {file : Inode} {source : Option String}
  {ops : List DiskOp}

theorem changes_setAtomicity {op : DiskOp} (changes : op.Changes file source) (text : String) :
    (op.setAtomicity text).Changes file source := by
  cases op with
  | write op => exact changes
  | truncate inode initialSize finalSize atomicity => exact changes
  | sync => exact changes
  | createDirEntry => exact changes
  | deleteDirEntry => exact changes.elim
  | stdout => exact changes

theorem changes_setLastAtomicity (changes : ∀ op ∈ ops, op.Changes file source) (text : String) :
    ∀ op ∈ setLastAtomicity text ops, op.Changes file source := by
  rcases List.eq_nil_or_concat ops with isNil | ⟨front, last, isConcat⟩
  · subst isNil
    exact changes
  · rw [isConcat, List.concat_eq_append] at changes ⊢
    intro op member
    rw [setLastAtomicity, List.modifyLast_concat] at member
    rcases List.mem_append.1 member with before | isLast
    · exact changes op (List.mem_append_left _ before)
    · rw [List.mem_singleton] at isLast
      rw [isLast]
      exact changes_setAtomicity (changes last (by simp)) text

variable {atomicityPrefix : String}

theorem changes_truncDiskOps {initialSize finalSize : ℕ} {append : Option DataRange}
    (expanded : fs.truncDiskOps file initialSize finalSize append atomicityPrefix = .ok ops) :
    ∀ op ∈ ops, op.Changes file (append.map DataRange.dumpFile) := by
  unfold truncDiskOps at expanded
  split at expanded
  · cases expanded
    simp
  · split at expanded
    · obtain ⟨_, _, expanded⟩ := bind_eq_ok_iff.1 expanded
      obtain ⟨_, _, expanded⟩ := bind_eq_ok_iff.1 expanded
      rw [pure_eq_ok_iff] at expanded
      subst expanded
      intro op member
      simp only [List.mem_map, List.mem_reverse] at member
      obtain ⟨_, ⟨slice, _, sliced⟩, swapped⟩ := member
      subst swapped sliced
      rfl
    · cases append with
      | none =>
        obtain ⟨_, _, expanded⟩ := bind_eq_ok_iff.1 expanded
        rw [pure_eq_ok_iff] at expanded
        subst expanded
        intro op member
        obtain ⟨slice, _, here⟩ := List.mem_flatMap.1 member
        simp only [growSlice, specialSlice, List.mem_cons, List.not_mem_nil, or_false] at here
        rcases here with isGarbage | isZeros
        · subst isGarbage
          exact ⟨rfl, by simp⟩
        · subst isZeros
          exact ⟨rfl, by simp⟩
      | some append =>
        obtain ⟨_, sameInode, expanded⟩ := bind_eq_ok_iff.1 expanded
        obtain ⟨_, _, expanded⟩ := bind_eq_ok_iff.1 expanded
        obtain ⟨_, _, expanded⟩ := bind_eq_ok_iff.1 expanded
        obtain ⟨_, _, expanded⟩ := bind_eq_ok_iff.1 expanded
        rw [pure_eq_ok_iff] at expanded
        have isFile : append.inode = file := by
          by_contra different
          simp [assertThat, different] at sameInode
        subst expanded isFile
        intro op member
        obtain ⟨slice, _, here⟩ := List.mem_flatMap.1 member
        simp only [appendSlice, specialSlice, List.mem_cons, List.not_mem_nil, or_false] at here
        rcases here with isZeros | isGarbage | isData
        · subst isZeros
          exact ⟨rfl, by simp⟩
        · subst isGarbage
          exact ⟨rfl, by simp⟩
        · subst isData
          exact ⟨rfl, fun _ => ⟨rfl, rfl⟩⟩

theorem unlinkDiskOps_eq {parent : Inode} {name : Path} {size hardlinks : ℕ}
    {entryType : EntryType} (expanded : fs.unlinkDiskOps parent file name size hardlinks entryType
      atomicityPrefix = .ok ops) : ∃ truncates, (∀ op ∈ truncates, op.Changes file none) ∧
        (hardlinks ≠ 1 → truncates = []) ∧
        ops = truncates ++ [.deleteDirEntry parent name file entryType none] := by
  by_cases isLast : hardlinks = 1
  · simp only [unlinkDiskOps, isLast, if_true] at expanded
    obtain ⟨truncates, truncated, expanded⟩ := bind_eq_ok_iff.1 expanded
    rw [pure_eq_ok_iff] at expanded
    refine ⟨_, changes_setLastAtomicity (changes_truncDiskOps truncated) _, ?_, expanded.symm⟩
    intro notLast
    exact False.elim (notLast isLast)
  · simp only [unlinkDiskOps, isLast, if_false, pure_bind, pure_eq_ok_iff] at expanded
    exact ⟨[], by simp, fun _ => rfl, expanded.symm⟩

private theorem sourceUnlinked_eq {parent : Inode} {name : Path} {size : ℕ}
    {entryType : EntryType}
    (expanded : fs.unlinkDiskOps parent file name size 2 entryType atomicityPrefix = .ok ops) :
    ops = [.deleteDirEntry parent name file entryType none] := by
  obtain ⟨truncates, _, noTruncates, opsEq⟩ := unlinkDiskOps_eq expanded
  rw [noTruncates (by decide)] at opsEq
  exact opsEq

/-- The `rename` branch removes the destination, if there is one, then the
source, and creates the destination. -/
theorem renameDiskOps_eq {info : RenameInfo} (expanded : fs.renameDiskOps info = .ok ops) :
    ∃ truncates destDeleted, (∀ op ∈ truncates, op.Changes (info.destInode.getD 0) none) ∧
        (info.destHardlinks ≠ 1 → truncates = []) ∧ (destDeleted =
          if 1 ≤ info.destHardlinks then
            [.deleteDirEntry info.destParent info.dest (info.destInode.getD 0) .typeFile
              (some "destination unlinked fully, source untouched")]
          else
            []) ∧
        ops = truncates ++ destDeleted ++
          [.deleteDirEntry info.sourceParent info.source info.sourceInode
              .typeFile (some "destination and source unlinked fully"),
            .createDirEntry info.destParent info.dest info.sourceInode none .typeFile] := by
  by_cases present : 1 ≤ info.destHardlinks
  · simp only [renameDiskOps, present, if_true] at expanded
    obtain ⟨unlinked, destExpanded, expanded⟩ := bind_eq_ok_iff.1 expanded
    rw [pure_bind] at expanded
    obtain ⟨sourceUnlinked, source, expanded⟩ := bind_eq_ok_iff.1 expanded
    obtain ⟨truncates, changes, notLast, unlinkedEq⟩ := unlinkDiskOps_eq destExpanded
    subst unlinkedEq
    rw [pure_eq_ok_iff, sourceUnlinked_eq source, setLastAtomicity,
      List.modifyLast_concat, setLastAtomicity, List.modifyLast_concat] at expanded
    refine ⟨truncates, _, changes, notLast, (if_pos present).symm, ?_⟩
    rw [← expanded, linkDiskOps, List.append_assoc]
    rfl
  · simp only [renameDiskOps, present, if_false, pure_bind] at expanded
    obtain ⟨sourceUnlinked, source, expanded⟩ := bind_eq_ok_iff.1 expanded
    rw [pure_eq_ok_iff, sourceUnlinked_eq source, setLastAtomicity,
      List.modifyLast_concat] at expanded
    exact ⟨[], _, by simp, fun _ => rfl, (if_neg present).symm, expanded.symm⟩

theorem changes_writeDiskOps {range : DataRange}
    (expanded : fs.getDiskOps (.write range) = .ok ops) :
    ∀ op ∈ ops, op.Changes range.inode (some range.dumpFile) := by
  obtain ⟨_, _, expanded⟩ := bind_eq_ok_iff.1 expanded
  rw [pure_eq_ok_iff] at expanded
  subst expanded
  intro op member
  obtain ⟨slice, _, sliced⟩ := List.mem_map.1 member
  subst sliced
  exact ⟨rfl, fun _ => ⟨rfl, rfl⟩⟩

end Defaultfs

namespace Naming

variable {root : Inode} {names : Naming}

/-! ## Disk operations of a logical operation -/

theorem allowsAll_append {front back : List DiskOp} : names.AllowsAll root (front ++ back) ↔
      names.AllowsAll root front ∧ (front.foldl Naming.apply names).AllowsAll root back := by
  induction front generalizing names with
  | nil => simp [AllowsAll]
  | cons op rest ih => simp only [List.cons_append, AllowsAll, List.foldl_cons, ih, and_assoc]

variable {file : Inode} {ops : List DiskOp}

theorem touchFile_of_mem (known : file ∈ names.files) : names.touchFile file = names := by
  unfold touchFile
  rw [Set.insert_eq_of_mem known]

theorem WellFormed.changes (wellFormed : WellFormed root names) (isFile : file ∈ names.files)
    {source : Option String} (changes : ∀ op ∈ ops, op.Changes file source) :
    names.AllowsAll root ops ∧ ops.foldl Naming.apply names = names := by
  have notDir : file ∉ names.dirs := fun isDir => wellFormed.apart file isDir isFile
  have step : ∀ op : DiskOp, op.Changes file source →
      names.Allows root op ∧ names.apply op = names := by
    intro op opChanges
    cases op with
    | write op =>
      obtain ⟨same, _⟩ := opChanges
      subst same
      exact ⟨notDir, touchFile_of_mem isFile⟩
    | truncate inode initialSize finalSize atomicity =>
      have same : inode = file := opChanges
      subst same
      exact ⟨notDir, touchFile_of_mem isFile⟩
    | sync => exact opChanges.elim
    | createDirEntry => exact opChanges.elim
    | deleteDirEntry => exact opChanges.elim
    | stdout => exact opChanges.elim
  induction ops with
  | nil => exact ⟨trivial, rfl⟩
  | cons op rest ih =>
    obtain ⟨allowed, same⟩ := step op (changes op List.mem_cons_self)
    obtain ⟨restAllowed, restSame⟩ := ih fun op member => changes op (List.mem_cons_of_mem _ member)
    refine ⟨⟨allowed, ?_⟩, ?_⟩
    · rw [same]
      exact restAllowed
    · rw [List.foldl_cons, same]
      exact restSame

theorem FileName.setEntry {parent other : Inode} {path otherPath : Path} {target : Option Inode}
    (here : names.FileName root parent path) (there : names.FileName root other otherPath)
    (notDir : ∀ file, target = some file → file ∉ names.dirs) :
    (names.setEntry other (basename otherPath) target).FileName root parent
      path := by
  refine ⟨(live_setEntry_iff there.2 notDir parent).2 here.1, ?_⟩
  intro existing bound
  rw [child_setEntry] at bound
  split at bound
  · exact notDir existing bound
  · exact here.2 existing bound

private theorem expands_unlink (wellFormed : WellFormed root names) {parent : Inode} {path : Path}
    (here : names.FileName root parent path) (isFile : file ∈ names.files)
    {truncates : List DiskOp} (changes : ∀ op ∈ truncates, op.Changes file none)
    (atomicity : Option String) : names.AllowsAll root
        (truncates ++ [.deleteDirEntry parent path file .typeFile atomicity]) ∧
      (truncates ++ [DiskOp.deleteDirEntry parent path file .typeFile
          atomicity]).foldl Naming.apply names = names.setEntry parent (basename path) none := by
  obtain ⟨allowed, same⟩ := wellFormed.changes isFile changes
  rw [allowsAll_append, List.foldl_append, same]
  refine ⟨⟨allowed, here, trivial⟩, ?_⟩
  simp only [List.foldl_cons, List.foldl_nil, Naming.apply, here.1.touchDir]

private theorem expands_rename (wellFormed : WellFormed root names) {info : RenameInfo}
    (performed : names.Performs root (.rename info)) {fs : Defaultfs}
    (expanded : fs.renameDiskOps info = .ok ops) : names.AllowsAll root ops ∧
      ops.foldl Naming.apply names = names.applyKind (.rename info) := by
  obtain ⟨atSource, atDest, isFile, destFile⟩ := performed
  have notDir : info.sourceInode ∉ names.dirs := fun isDir => wellFormed.apart _ isDir isFile
  obtain ⟨truncates, destDeleted, changes, notLast, deletedEq, opsEq⟩ := renameDiskOps_eq expanded
  have destUnlinked : names.AllowsAll root (truncates ++ destDeleted) ∧ ∃ target,
          (truncates ++ destDeleted).foldl Naming.apply names =
            names.setEntry info.destParent (basename info.dest) target ∧
          ∀ file, target = some file → file ∉ names.dirs := by
    cases destInode : info.destInode with
    | none =>
      have absent : info.destHardlinks = 0 := by simpa [destInode] using destFile
      rw [notLast (by omega), deletedEq, if_neg (by omega)]
      exact ⟨trivial, _, (setEntry_of_child rfl).symm, atDest.2⟩
    | some dest =>
      have isDest : dest ∈ names.files := by simpa [destInode] using destFile
      rw [destInode, Option.getD_some] at changes deletedEq
      by_cases present : 1 ≤ info.destHardlinks
      · rw [deletedEq, if_pos present]
        obtain ⟨allowed, result⟩ := expands_unlink wellFormed atDest isDest changes
            (some "destination unlinked fully, source untouched")
        exact ⟨allowed, none, result, by simp⟩
      · obtain ⟨allowed, same⟩ := wellFormed.changes isDest changes
        rw [deletedEq, if_neg present, List.append_nil]
        exact ⟨allowed, _, same.trans (setEntry_of_child rfl).symm, atDest.2⟩
  obtain ⟨allowed, target, result, targetNotDir⟩ := destUnlinked
  have sourceThen := atSource.setEntry atDest targetNotDir
  have destThen := atDest.setEntry atDest targetNotDir
  have noTarget : ∀ file, none = some file → file ∉ names.dirs := by simp
  have destLast := destThen.setEntry sourceThen noTarget
  generalize truncates ++ destDeleted = destUnlinked at opsEq allowed result
  rw [opsEq, allowsAll_append, List.foldl_append, result]
  refine ⟨⟨allowed, sourceThen, ?_, trivial⟩, ?_⟩
  · simp only [Naming.apply, sourceThen.1.touchDir]
    exact ⟨destLast.1, destLast.2, notDir⟩
  · have known : info.sourceInode ∈ ((names.setEntry info.destParent (basename info.dest)
            target).setEntry info.sourceParent (basename info.source) none).files := isFile
    simp only [List.foldl_cons, List.foldl_nil, Naming.apply,
      sourceThen.1.touchDir, destLast.1.touchDir, touchFile_of_mem known, Naming.applyKind]
    ext other tested : 4
    · rfl
    · rfl
    · simp only [child_setEntry]
      split <;> rfl

/-- The disk operations of a logical operation do to names what it does. -/
theorem WellFormed.expands (wellFormed : WellFormed root names) {kind : MicroOpKind}
    (performed : names.Performs root kind) {fs : Defaultfs}
    (expanded : fs.getDiskOps kind = .ok ops) : names.AllowsAll root ops ∧
      ops.foldl Naming.apply names = names.applyKind kind := by
  cases kind with
  | creat name mode inode parent =>
    obtain ⟨here, notDir⟩ := performed
    cases expanded
    refine ⟨⟨⟨here.1, here.2, notDir⟩, trivial⟩, ?_⟩
    simp only [Defaultfs.linkDiskOps, List.foldl_cons, List.foldl_nil,
      Naming.apply, here.1.touchDir, Naming.applyKind]
  | link dest sourceInode destParent =>
    obtain ⟨here, isFile⟩ := performed
    cases expanded
    have notDir : sourceInode ∉ names.dirs := fun isDir => wellFormed.apart _ isDir isFile
    refine ⟨⟨⟨here.1, here.2, notDir⟩, trivial⟩, ?_⟩
    simp only [Defaultfs.linkDiskOps, List.foldl_cons, List.foldl_nil,
      Naming.apply, here.1.touchDir, touchFile_of_mem isFile, Naming.applyKind]
  | unlink name inode parent size hardlinks =>
    obtain ⟨here, isFile⟩ := performed
    obtain ⟨truncates, changes, _, opsEq⟩ := unlinkDiskOps_eq expanded
    subst opsEq
    exact expands_unlink wellFormed here isFile changes none
  | rename info => exact expands_rename wellFormed performed expanded
  | trunc inode initialSize finalSize =>
    exact wellFormed.changes performed (changes_truncDiskOps expanded)
  | append range => exact wellFormed.changes performed (changes_truncDiskOps expanded)
  | write range => exact wellFormed.changes performed (changes_writeDiskOps expanded)
  | mkdir name mode inode parent =>
    obtain ⟨value, _, expanded⟩ := bind_eq_ok_iff.1 expanded
    rw [pure_eq_ok_iff] at expanded
    subst expanded
    have live := performed.1
    refine ⟨⟨performed, trivial⟩, ?_⟩
    simp only [Defaultfs.linkDiskOps, List.foldl_cons, List.foldl_nil,
      Naming.apply, live.touchDir, Naming.applyKind]
  | rmdir name inode parent =>
    have unlinked : fs.unlinkDiskOps parent inode name 0 0 .typeDir "" = .ok ops := expanded
    obtain ⟨truncates, _, noTruncates, opsEq⟩ := unlinkDiskOps_eq unlinked
    have none := noTruncates (by decide)
    subst none opsEq
    have live := performed.1
    refine ⟨⟨performed, trivial⟩, ?_⟩
    simp only [List.nil_append, List.foldl_cons, List.foldl_nil,
      Naming.apply, live.touchDir, Naming.applyKind]
  | fsync inode size | fdatasync inode size | fileSyncRange inode offset count | stdout data =>
    cases expanded
    exact ⟨⟨trivial, trivial⟩, rfl⟩
  | sync hiddenFiles =>
    cases expanded
    induction hiddenFiles with
    | nil => exact ⟨trivial, rfl⟩
    | cons file rest ih =>
      have restPart := ih trivial
      exact ⟨⟨trivial, restPart.1⟩, restPart.2⟩

end Naming

/-! ## What the disk operations mention -/

variable {fs : Defaultfs} {traced : List TracedOp}

theorem Defaultfs.emits_getDiskOps {kind : MicroOpKind} {ops : List DiskOp}
    (expanded : fs.getDiskOps kind = .ok ops) : ∀ op ∈ ops, kind.Emits op := by
  intro op member
  cases kind with
  | creat name mode inode parent | link dest sourceInode destParent =>
    cases expanded
    rw [linkDiskOps, List.mem_singleton] at member
    subst member
    exact ⟨List.mem_singleton_self _, Or.inl rfl⟩
  | unlink name inode parent size hardlinks =>
    obtain ⟨truncates, changes, _, opsEq⟩ := unlinkDiskOps_eq expanded
    rw [opsEq] at member
    rcases List.mem_append.1 member with truncate | isDelete
    · exact DiskOp.Changes.emits (changes op truncate)
    · rw [List.mem_singleton] at isDelete
      subst isDelete
      exact List.mem_singleton_self _
  | rename info =>
    obtain ⟨truncates, destDeleted, changes, _, deletedEq, opsEq⟩ := renameDiskOps_eq expanded
    have atSource : (info.sourceParent, basename info.source) ∈
          MicroOpKind.entries (.rename info) := List.mem_cons_self
    have atDest : (info.destParent, basename info.dest) ∈ MicroOpKind.entries (.rename info) :=
      List.mem_cons_of_mem _ (List.mem_singleton_self _)
    rw [opsEq] at member
    rcases List.mem_append.1 member with destUnlinked | moved
    · rcases List.mem_append.1 destUnlinked with truncate | isDelete
      · exact DiskOp.Changes.emits (changes op truncate)
      · rw [deletedEq] at isDelete
        split at isDelete
        · rw [List.mem_singleton] at isDelete
          subst isDelete
          exact atDest
        · simp at isDelete
    · simp only [List.mem_cons, List.not_mem_nil, or_false] at moved
      rcases moved with isDelete | isCreate
      · subst isDelete
        exact atSource
      · subst isCreate
        exact ⟨atDest, Or.inl rfl⟩
  | trunc inode initialSize finalSize =>
    exact DiskOp.Changes.emits (changes_truncDiskOps expanded op member)
  | append range => exact DiskOp.Changes.emits (changes_truncDiskOps expanded op member)
  | write range => exact DiskOp.Changes.emits (changes_writeDiskOps expanded op member)
  | mkdir name mode inode parent =>
    obtain ⟨value, _, expanded⟩ := bind_eq_ok_iff.1 expanded
    rw [pure_eq_ok_iff] at expanded
    subst expanded
    rw [linkDiskOps, List.mem_singleton] at member
    subst member
    exact ⟨List.mem_singleton_self _, Or.inr rfl⟩
  | rmdir name inode parent =>
    have unlinked : fs.unlinkDiskOps parent inode name 0 0 .typeDir "" = .ok ops := expanded
    obtain ⟨truncates, changes, _, opsEq⟩ := unlinkDiskOps_eq unlinked
    rw [opsEq] at member
    rcases List.mem_append.1 member with truncate | isDelete
    · exact DiskOp.Changes.emits (changes op truncate)
    · rw [List.mem_singleton] at isDelete
      subst isDelete
      exact List.mem_singleton_self _
  | fsync inode size | fdatasync inode size | fileSyncRange inode offset count =>
    cases expanded
    rw [List.mem_singleton] at member
    subst member
    trivial
  | sync hiddenFiles =>
    cases expanded
    obtain ⟨file, _, isSync⟩ := List.mem_map.1 member
    subst isSync
    trivial
  | stdout data =>
    cases expanded
    rw [List.mem_singleton] at member
    subst member
    rfl

namespace MicroOpKind

variable {kind : MicroOpKind} {op : DiskOp}

variable {env : ReplayEnv}

private theorem checkMode_creatMode (reads : env.ReadsKind kind) :
    ReplayState.checkMode kind.creatMode = .ok () := by
  cases kind with
  | creat => exact reads
  | _ => rfl

private theorem dump_source (reads : env.ReadsKind kind) {dumpFile : String}
    (isSource : kind.source = some dumpFile) : ∃ dump, env.dumps dumpFile = some dump := by
  cases kind with
  | append | write =>
    cases isSource
    exact Option.isSome_iff_exists.1 reads
  | _ => cases isSource

theorem Emits.reads (emits : kind.Emits op) (reads : env.ReadsKind kind) : env.Reads op := by
  cases op with
  | createDirEntry parent entry inode mode entryType =>
    rcases emits.2 with traced | fixed
    · subst traced
      exact checkMode_creatMode reads
    · exact fixed
  | deleteDirEntry => trivial
  | write op =>
    intro garbage
    cases special : op.specialWrite with
    | some written =>
      cases written <;>
        exact ⟨_, by simp only [WriteOp.buffer, special]; rfl⟩
    | none =>
      obtain ⟨fromSource, isSome⟩ := emits special
      obtain ⟨dumpFile, isSource⟩ := Option.isSome_iff_exists.1 isSome
      obtain ⟨dump, available⟩ := dump_source reads isSource
      refine ⟨(dump.drop op.dumpOffset).take op.count, ?_⟩
      simp only [WriteOp.buffer, special, fromSource, isSource, available]
  | stdout data =>
    cases emits
    exact reads
  | truncate => trivial
  | sync => trivial

theorem Emits.avoidsHub {root : Inode} (emits : kind.Emits op)
    (avoids : (root, inodesName) ∉ kind.entries) : op.AvoidsHub root := by
  cases op with
  | createDirEntry parent entry inode mode entryType =>
    rintro ⟨isRoot, isHub⟩
    have listed := emits.1
    rw [isRoot, isHub] at listed
    exact avoids listed
  | deleteDirEntry parent entry inode entryType atomicity =>
    rintro ⟨isRoot, isHub⟩
    have listed : (parent, basename entry) ∈ kind.entries := emits
    rw [isRoot, isHub] at listed
    exact avoids listed
  | truncate => trivial
  | write => trivial
  | sync => trivial
  | stdout => trivial

end MicroOpKind

/-! ## Disk operations of a whole list -/

theorem Defaultfs.allDiskOps_cons (fs : Defaultfs) (microOp : MicroOp) (rest : List MicroOp) :
    fs.allDiskOps (microOp :: rest) = (fs.getDiskOps microOp.kind >>= fun ops =>
        fs.allDiskOps rest >>= fun later =>
          pure ((ops.map fun op => ⟨op, microOp.syscall⟩) ++ later)) := by
  unfold allDiskOps
  rw [List.mapM_cons]
  have first : fs.tracedOps microOp = (fs.getDiskOps microOp.kind).map fun ops =>
        ops.map fun op => ⟨op, microOp.syscall⟩ := rfl
  rw [first]
  cases fs.getDiskOps microOp.kind with
  | error error => rfl
  | ok ops => cases rest.mapM fs.tracedOps <;> rfl

theorem Defaultfs.allDiskOps_cons_eq_ok {microOp : MicroOp} {rest : List MicroOp}
    (expanded : fs.allDiskOps (microOp :: rest) = .ok traced) : ∃ ops later,
      fs.getDiskOps microOp.kind = .ok ops ∧ fs.allDiskOps rest = .ok later ∧
        traced.map TracedOp.op = ops ++ later.map TracedOp.op := by
  rw [allDiskOps_cons] at expanded
  obtain ⟨ops, here, expanded⟩ := bind_eq_ok_iff.1 expanded
  obtain ⟨later, there, expanded⟩ := bind_eq_ok_iff.1 expanded
  rw [pure_eq_ok_iff] at expanded
  refine ⟨ops, later, here, there, ?_⟩
  rw [← expanded, List.map_append, List.map_map]
  congr 1
  exact List.map_id' ops

theorem Naming.PerformsAll.expands {root : Inode} {names : Naming} {microOps : List MicroOp}
    (performed : names.PerformsAll root (microOps.map MicroOp.kind))
    (wellFormed : names.WellFormed root) (expanded : fs.allDiskOps microOps = .ok traced) :
    names.AllowsAll root (traced.map TracedOp.op) ∧
      (traced.map TracedOp.op).foldl Naming.apply names =
        (microOps.map MicroOp.kind).foldl Naming.applyKind names := by
  induction microOps generalizing names traced with
  | nil =>
    cases expanded
    exact ⟨trivial, rfl⟩
  | cons microOp rest ih =>
    obtain ⟨ops, later, here, there, tracedEq⟩ := allDiskOps_cons_eq_ok expanded
    obtain ⟨allowed, result⟩ := wellFormed.expands performed.1 here
    have following : (names.applyKind microOp.kind).WellFormed root := by
      rw [← result]
      exact wellFormed.applyAll allowed
    obtain ⟨restAllowed, restResult⟩ := ih performed.2 following there
    rw [tracedEq, Naming.allowsAll_append, List.foldl_append, result]
    exact ⟨⟨allowed, restAllowed⟩, restResult⟩

theorem Defaultfs.emits_allDiskOps {microOps : List MicroOp}
    (expanded : fs.allDiskOps microOps = .ok traced) : ∀ op ∈ traced.map TracedOp.op,
      ∃ microOp ∈ microOps, microOp.kind.Emits op := by
  induction microOps generalizing traced with
  | nil =>
    cases expanded
    simp
  | cons microOp rest ih =>
    obtain ⟨ops, later, here, there, tracedEq⟩ := allDiskOps_cons_eq_ok expanded
    rw [tracedEq]
    intro op member
    rcases List.mem_append.1 member with first | second
    · exact ⟨microOp, List.mem_cons_self, emits_getDiskOps here op first⟩
    · obtain ⟨other, otherMember, emits⟩ := ih there op second
      exact ⟨other, List.mem_cons_of_mem _ otherMember, emits⟩

end Alice
