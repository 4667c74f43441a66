import Alice.Replay.Rows

/-! # What disk operations do to names

Disk operations are read here without contents and without `.inodes`, both
for the whole trace and for a selection of it.  `Allows` is what the traced
file system guarantees about an operation: an inode number stands for one
object.  `Fits` is what a replay needs to find at the name that an operation
changes. -/

namespace Alice

open Posix (Name)

@[ext]
structure Naming where
  dirs : Set Inode
  files : Set Inode
  child : Inode → Name → Option Inode

namespace Naming

def touchDir (names : Naming) (directory : Inode) : Naming :=
  { names with dirs := insert directory names.dirs }

def touchFile (names : Naming) (file : Inode) : Naming :=
  { names with files := insert file names.files }

def setEntry (names : Naming) (directory : Inode) (name : Name) (target : Option Inode) : Naming :=
  { names with
    child := fun other tested =>
      if other = directory ∧ tested = name then
        target
      else
        names.child other tested }

def apply (names : Naming) : DiskOp → Naming
  | .createDirEntry parent entry inode _ .typeFile =>
      ((names.touchDir parent).touchFile inode).setEntry parent (basename entry) (some inode)
  | .createDirEntry parent entry inode _ .typeDir =>
      ((names.touchDir parent).touchDir inode).setEntry parent (basename entry) (some inode)
  | .deleteDirEntry parent entry _ _ _ =>
      (names.touchDir parent).setEntry parent (basename entry) none
  | .truncate inode _ _ _ => names.touchFile inode
  | .write op => names.touchFile op.inode
  | .sync .. => names
  | .stdout _ => names

/-- A directory that is the root or has a name. -/
def Live (root : Inode) (names : Naming) (directory : Inode) : Prop :=
  directory ∈ names.dirs ∧
    (directory = root ∨
      ∃ parent name, names.child parent name = some directory)

def NoDirAt (names : Naming) (parent : Inode) (name : Name) : Prop :=
  ∀ existing, names.child parent name = some existing → existing ∉ names.dirs

def Empty (names : Naming) (directory : Inode) : Prop :=
  ∀ name, names.child directory name = none

/-- The traced file system performs the operation in the state `names`. -/
def Allows (root : Inode) (names : Naming) : DiskOp → Prop
  | .createDirEntry parent entry inode _ .typeFile =>
      names.Live root parent ∧ names.NoDirAt parent (basename entry) ∧ inode ∉ names.dirs
  | .createDirEntry parent entry inode _ .typeDir =>
      names.Live root parent ∧ names.child parent (basename entry) = none ∧
        inode ∉ names.dirs ∧ inode ∉ names.files
  | .deleteDirEntry parent entry _ .typeFile _ =>
      names.Live root parent ∧ names.NoDirAt parent (basename entry)
  | .deleteDirEntry parent entry inode .typeDir _ =>
      names.Live root parent ∧
        names.child parent (basename entry) = some inode ∧
        inode ∈ names.dirs ∧ names.Empty inode
  | .truncate inode _ _ _ => inode ∉ names.dirs
  | .write op => op.inode ∉ names.dirs
  | .sync .. => True
  | .stdout _ => True

def AllowsAll (root : Inode) : Naming → List DiskOp → Prop
  | _, [] => True
  | names, op :: rest =>
      names.Allows root op ∧ AllowsAll root (names.apply op) rest

/-- What earlier operations have left at the name does not get in the way of
the operation.  A directory that is removed without having been linked waits
in `.inodes` if it is known. -/
def Fits (names : Naming) : DiskOp → Prop
  | .createDirEntry parent entry _ _ .typeFile =>
      names.NoDirAt parent (basename entry)
  | .createDirEntry parent entry _ _ .typeDir =>
      ∀ existing, names.child parent (basename entry) = some existing →
        existing ∈ names.dirs ∧ names.Empty existing
  | .deleteDirEntry parent entry _ .typeFile _ =>
      names.NoDirAt parent (basename entry)
  | .deleteDirEntry parent entry inode .typeDir _ =>
      ∀ existing, names.child parent (basename entry) = some existing →
        existing = inode ∨ inode ∉ names.dirs ∨
          (existing ∈ names.dirs ∧ names.Empty inode)
  | .truncate .. => True
  | .write _ => True
  | .sync .. => True
  | .stdout _ => True

def FitsAll : Naming → List DiskOp → Prop
  | _, [] => True
  | names, op :: rest => names.Fits op ∧ FitsAll (names.apply op) rest

end Naming

/-- The operation does not change the name `.inodes` of the root. -/
def DiskOp.AvoidsHub (root : Inode) : DiskOp → Prop
  | .createDirEntry parent entry _ _ _ =>
      ¬(parent = root ∧ basename entry = inodesName)
  | .deleteDirEntry parent entry _ _ _ =>
      ¬(parent = root ∧ basename entry = inodesName)
  | _ => True

namespace Naming

variable {root : Inode} {names : Naming}

@[simp]
theorem child_setEntry (dir other : Inode) (name tested : Name) (target : Option Inode) :
    (names.setEntry dir name target).child other tested =
      if other = dir ∧ tested = name then
        target
      else
        names.child other tested :=
  rfl

theorem setEntry_of_child {dir : Inode} {name : Name} {target : Option Inode}
    (already : names.child dir name = target) : names.setEntry dir name target = names := by
  ext other tested target'
  · rfl
  · rfl
  · rw [child_setEntry]
    split
    · rename_i same
      rw [same.1, same.2, already]
    · rfl

theorem Live.touchDir {dir : Inode} (live : names.Live root dir) : names.touchDir dir = names := by
  unfold Naming.touchDir
  rw [Set.insert_eq_of_mem live.1]

/-! ## The traced file system -/

/-- What holds in every state of the traced file system. -/
structure WellFormed (root : Inode) (names : Naming) : Prop where
  root_mem : root ∈ names.dirs
  root_unbound : ∀ parent name, names.child parent name ≠ some root
  apart : ∀ inode ∈ names.dirs, inode ∉ names.files
  parent_live : ∀ parent name inode, names.child parent name = some inode → names.Live root parent
  target_known : ∀ parent name inode,
    names.child parent name = some inode →
      inode ∈ names.dirs ∨ inode ∈ names.files
  bound_once : ∀ directory ∈ names.dirs, ∀ parent name parent' name',
    names.child parent name = some directory →
      names.child parent' name' = some directory →
        parent = parent' ∧ name = name'

/-- The later state knows more objects, and a directory of the earlier one
that still has a name has kept it. -/
structure Advances (root : Inode) (names later : Naming) : Prop where
  dirs : names.dirs ⊆ later.dirs
  files : names.files ⊆ later.files
  live : ∀ directory ∈ names.dirs, later.Live root directory → names.Live root directory
  keeps : ∀ directory ∈ names.dirs, later.Live root directory →
    ∀ parent name, names.child parent name = some directory →
      later.child parent name = some directory

theorem Advances.rfl : Advances root names names where
  dirs := Set.Subset.rfl
  files := Set.Subset.rfl
  live _ _ := id
  keeps _ _ _ _ _ := id

section FileEntries

variable {parent : Inode} {name : Name} {target : Option Inode}

section

variable (free : names.NoDirAt parent name)
  (notDir : ∀ file, target = some file → file ∉ names.dirs)
include free notDir

/-- Binding a name to a file, or removing it, where no directory has that
name. -/
theorem live_setEntry_iff (dir : Inode) :
    (names.setEntry parent name target).Live root dir ↔ names.Live root dir := by
  apply and_congr_right
  intro member
  apply or_congr_right
  constructor
  · rintro ⟨other, tested, bound⟩
    refine ⟨other, tested, ?_⟩
    rw [child_setEntry] at bound
    split at bound
    · exact False.elim (notDir dir bound member)
    · exact bound
  · rintro ⟨other, tested, bound⟩
    refine ⟨other, tested, ?_⟩
    rw [child_setEntry, if_neg]
    · exact bound
    · rintro ⟨sameParent, sameName⟩
      subst sameParent sameName
      exact free dir bound member

private theorem advances_setEntry :
    Advances root names (names.setEntry parent name target) where
  dirs := Set.Subset.rfl
  files := Set.Subset.rfl
  live := by
    intro dir _ live
    exact (live_setEntry_iff free notDir dir).1 live
  keeps := by
    intro dir member _ other tested bound
    rw [child_setEntry, if_neg]
    · exact bound
    · rintro ⟨sameParent, sameName⟩
      subst sameParent sameName
      exact free dir bound member

end

private theorem WellFormed.setEntry (wellFormed : WellFormed root names)
    (live : names.Live root parent) (free : names.NoDirAt parent name)
    (isFile : ∀ file, target = some file → file ∈ names.files) :
    WellFormed root (names.setEntry parent name target) := by
  have notDir : ∀ file, target = some file → file ∉ names.dirs := by
    intro file isTarget member
    exact wellFormed.apart file member (isFile file isTarget)
  have sameLive : ∀ dir, (names.setEntry parent name target).Live root dir ↔
          names.Live root dir := live_setEntry_iff free notDir
  constructor
  · exact wellFormed.root_mem
  · intro other tested bound
    rw [child_setEntry] at bound
    split at bound
    · exact notDir root bound wellFormed.root_mem
    · exact wellFormed.root_unbound other tested bound
  · exact wellFormed.apart
  · intro other tested inode bound
    rw [sameLive]
    rw [child_setEntry] at bound
    split at bound
    · rename_i same
      rw [same.1]
      exact live
    · exact wellFormed.parent_live other tested inode bound
  · intro other tested inode bound
    rw [child_setEntry] at bound
    split at bound
    · exact Or.inr (isFile inode bound)
    · exact wellFormed.target_known other tested inode bound
  · intro dir member other tested other' tested' bound bound'
    rw [child_setEntry] at bound bound'
    split at bound
    · exact False.elim (notDir dir bound member)
    · split at bound'
      · exact False.elim (notDir dir bound' member)
      · exact wellFormed.bound_once dir member other tested other' tested' bound bound'

end FileEntries

private theorem WellFormed.touchFile (wellFormed : WellFormed root names) {file : Inode}
    (notDir : file ∉ names.dirs) : WellFormed root (names.touchFile file) := by
  constructor
  · exact wellFormed.root_mem
  · exact wellFormed.root_unbound
  · intro inode member known
    rcases Set.mem_insert_iff.1 known with same | before
    · exact notDir (same ▸ member)
    · exact wellFormed.apart inode member before
  · exact wellFormed.parent_live
  · intro parent name inode bound
    rcases wellFormed.target_known parent name inode bound with isDir | isFile
    · exact Or.inl isDir
    · exact Or.inr (Set.mem_insert_of_mem file isFile)
  · exact wellFormed.bound_once

private theorem advances_touchFile (file : Inode) : Advances root names (names.touchFile file) where
  dirs := Set.Subset.rfl
  files := Set.subset_insert file names.files
  live _ _ := id
  keeps _ _ _ _ _ := id

section Directories

variable {parent made : Inode} {name : Name}

private theorem live_made_iff (free : names.child parent name = none) (unused : made ∉ names.dirs)
    (dir : Inode) : ((names.touchDir made).setEntry parent name (some made)).Live root
        dir ↔ dir = made ∨ names.Live root dir := by
  constructor
  · rintro ⟨member, place⟩
    rcases Set.mem_insert_iff.1 member with same | known
    · exact Or.inl same
    · refine Or.inr ⟨known, ?_⟩
      rcases place with isRoot | ⟨other, tested, bound⟩
      · exact Or.inl isRoot
      · rw [child_setEntry] at bound
        split at bound
        · rw [Option.some.inj bound] at unused
          exact False.elim (unused known)
        · exact Or.inr ⟨other, tested, bound⟩
  · rintro (same | ⟨known, place⟩)
    · subst same
      refine ⟨Set.mem_insert _ _, Or.inr ⟨parent, name, ?_⟩⟩
      rw [child_setEntry, if_pos ⟨rfl, rfl⟩]
    · refine ⟨Set.mem_insert_of_mem _ known, ?_⟩
      rcases place with isRoot | ⟨other, tested, bound⟩
      · exact Or.inl isRoot
      · refine Or.inr ⟨other, tested, ?_⟩
        rw [child_setEntry, if_neg]
        · exact bound
        · rintro ⟨sameParent, sameName⟩
          subst sameParent sameName
          simp [free] at bound

private theorem WellFormed.make (wellFormed : WellFormed root names)
    (live : names.Live root parent) (free : names.child parent name = none)
    (notDir : made ∉ names.dirs) (notFile : made ∉ names.files) : WellFormed root
      ((names.touchDir made).setEntry parent name (some made)) := by
  have madeLive : ∀ dir, ((names.touchDir made).setEntry parent name (some made)).Live root
            dir ↔ dir = made ∨ names.Live root dir := live_made_iff free notDir
  have unbound : ∀ other tested, names.child other tested ≠ some made := by
    intro other tested bound
    rcases wellFormed.target_known other tested made bound with isDir | isFile
    · exact notDir isDir
    · exact notFile isFile
  constructor
  · exact Set.mem_insert_of_mem _ wellFormed.root_mem
  · intro other tested bound
    rw [child_setEntry] at bound
    split at bound
    · rw [Option.some.inj bound] at notDir
      exact notDir wellFormed.root_mem
    · exact wellFormed.root_unbound other tested bound
  · intro inode member known
    rcases Set.mem_insert_iff.1 member with same | before
    · exact notFile (same ▸ known)
    · exact wellFormed.apart inode before known
  · intro other tested inode bound
    rw [madeLive]
    rw [child_setEntry] at bound
    split at bound
    · rename_i same
      rw [same.1]
      exact Or.inr live
    · exact Or.inr (wellFormed.parent_live other tested inode bound)
  · intro other tested inode bound
    rw [child_setEntry] at bound
    split at bound
    · rw [← Option.some.inj bound]
      exact Or.inl (Set.mem_insert _ _)
    · apply (wellFormed.target_known other tested inode bound).imp_left
      exact Set.mem_insert_of_mem _
  · intro dir member other tested other' tested' bound bound'
    rw [child_setEntry] at bound bound'
    split at bound
    · rename_i same
      split at bound'
      · rename_i same'
        exact ⟨same.1.trans same'.1.symm, same.2.trans same'.2.symm⟩
      · rw [← Option.some.inj bound] at bound'
        exact False.elim (unbound other' tested' bound')
    · split at bound'
      · rw [← Option.some.inj bound'] at bound
        exact False.elim (unbound other tested bound)
      · rcases Set.mem_insert_iff.1 member with same | known
        · subst same
          exact False.elim (unbound other tested bound)
        · exact wellFormed.bound_once dir known other tested other' tested' bound bound'

private theorem advances_make (free : names.child parent name = none) (notDir : made ∉ names.dirs) :
    Advances root names ((names.touchDir made).setEntry parent name (some made)) where
  dirs := Set.subset_insert made names.dirs
  files := Set.Subset.rfl
  live := by
    intro dir member live
    rcases (live_made_iff free notDir dir).1 live with
      same | before
    · exact False.elim (notDir (same ▸ member))
    · exact before
  keeps := by
    intro dir _ _ other tested bound
    rw [child_setEntry, if_neg]
    · exact bound
    · rintro ⟨sameParent, sameName⟩
      subst sameParent sameName
      simp [free] at bound

section

variable (wellFormed : WellFormed root names) (bound : names.child parent name = some made)
  (isDir : made ∈ names.dirs)
include wellFormed bound isDir

theorem live_removed_iff (dir : Inode) :
    (names.setEntry parent name none).Live root dir ↔ dir ≠ made ∧ names.Live root dir := by
  constructor
  · rintro ⟨known, place⟩
    rcases place with isRoot | ⟨other, tested, kept⟩
    · subst isRoot
      refine ⟨?_, known, Or.inl rfl⟩
      intro same
      exact wellFormed.root_unbound parent name (same ▸ bound)
    · rw [child_setEntry] at kept
      split at kept
      · simp at kept
      · rename_i different
        refine ⟨?_, known, Or.inr ⟨other, tested, kept⟩⟩
        intro same
        subst same
        exact different (wellFormed.bound_once dir isDir other tested parent name kept bound)
  · rintro ⟨different, known, place⟩
    refine ⟨known, ?_⟩
    rcases place with isRoot | ⟨other, tested, kept⟩
    · exact Or.inl isRoot
    · refine Or.inr ⟨other, tested, ?_⟩
      rw [child_setEntry, if_neg]
      · exact kept
      · rintro ⟨sameParent, sameName⟩
        subst sameParent sameName
        exact different (Option.some.inj (kept.symm.trans bound))

theorem WellFormed.remove (empty : names.Empty made)
    : WellFormed root (names.setEntry parent name none) := by
  constructor
  · exact wellFormed.root_mem
  · intro other tested kept
    rw [child_setEntry] at kept
    split at kept
    · simp at kept
    · exact wellFormed.root_unbound other tested kept
  · exact wellFormed.apart
  · intro other tested inode kept
    rw [child_setEntry] at kept
    split at kept
    · simp at kept
    · rw [live_removed_iff wellFormed bound isDir]
      refine ⟨?_, wellFormed.parent_live other tested inode kept⟩
      intro same
      subst same
      simp [empty tested] at kept
  · intro other tested inode kept
    rw [child_setEntry] at kept
    split at kept
    · simp at kept
    · exact wellFormed.target_known other tested inode kept
  · intro dir member other tested other' tested' kept kept'
    rw [child_setEntry] at kept kept'
    split at kept
    · simp at kept
    · split at kept'
      · simp at kept'
      · exact wellFormed.bound_once dir member other tested other' tested' kept kept'

theorem advances_remove :
    Advances root names (names.setEntry parent name none) where
  dirs := Set.Subset.rfl
  files := Set.Subset.rfl
  live := by
    intro dir _ live
    exact ((live_removed_iff wellFormed bound isDir dir).1 live).2
  keeps := by
    intro dir _ live other tested before
    have different := ((live_removed_iff wellFormed bound isDir dir).1 live).1
    rw [child_setEntry, if_neg]
    · exact before
    · rintro ⟨sameParent, sameName⟩
      subst sameParent sameName
      exact different (Option.some.inj (before.symm.trans bound))

end

end Directories

theorem Advances.trans {middle later : Naming} (first : Advances root names middle)
    (second : Advances root middle later) : Advances root names later where
  dirs := first.dirs.trans second.dirs
  files := first.files.trans second.files
  live := by
    intro dir member live
    exact first.live dir member (second.live dir (first.dirs member) live)
  keeps := by
    intro dir member live parent name bound
    have inMiddle := first.dirs member
    apply second.keeps dir inMiddle live
    exact first.keeps dir member (second.live dir inMiddle live) parent name bound

/-- An operation of the trace keeps the traced file system well formed and
does not move directories. -/
theorem WellFormed.apply (wellFormed : WellFormed root names) {op : DiskOp}
    (allowed : names.Allows root op) : WellFormed root (names.apply op) ∧
      Advances root names (names.apply op) := by
  cases op with
  | createDirEntry parent entry inode mode entryType =>
    cases entryType with
    | typeFile =>
      obtain ⟨live, free, notDir⟩ := allowed
      simp only [Naming.apply, live.touchDir]
      have isFile : ∀ file, some inode = some file → file ∈ (names.touchFile inode).files := by
        intro file same
        rw [← Option.some.inj same]
        exact Set.mem_insert _ _
      have known := wellFormed.touchFile notDir
      refine ⟨known.setEntry live free isFile, (advances_touchFile inode).trans
          (advances_setEntry free ?_)⟩
      intro file same
      rw [← Option.some.inj same]
      exact notDir
    | typeDir =>
      obtain ⟨live, free, notDir, notFile⟩ := allowed
      simp only [Naming.apply, live.touchDir]
      exact ⟨wellFormed.make live free notDir notFile, advances_make free notDir⟩
  | deleteDirEntry parent entry inode entryType atomicity =>
    cases entryType with
    | typeFile =>
      obtain ⟨live, free⟩ := allowed
      simp only [Naming.apply, live.touchDir]
      exact ⟨wellFormed.setEntry live free (by simp), advances_setEntry free (by simp)⟩
    | typeDir =>
      obtain ⟨live, bound, isDir, empty⟩ := allowed
      simp only [Naming.apply, live.touchDir]
      exact ⟨wellFormed.remove bound isDir empty, advances_remove wellFormed bound isDir⟩
  | truncate inode initialSize finalSize atomicity =>
    exact ⟨wellFormed.touchFile allowed, advances_touchFile inode⟩
  | write op => exact ⟨wellFormed.touchFile allowed, advances_touchFile op.inode⟩
  | sync inode offset count => exact ⟨wellFormed, .rfl⟩
  | stdout data => exact ⟨wellFormed, .rfl⟩

theorem WellFormed.applyAll (wellFormed : WellFormed root names) {ops : List DiskOp}
    (allowed : names.AllowsAll root ops) : WellFormed root (ops.foldl Naming.apply names) := by
  induction ops generalizing names with
  | nil => exact wellFormed
  | cons op rest ih => exact ih (wellFormed.apply allowed.1).1 allowed.2

/-! ## The whole trace as a selection -/

theorem Allows.fits {op : DiskOp} (allowed : names.Allows root op) : names.Fits op := by
  cases op with
  | createDirEntry parent entry inode mode entryType =>
    cases entryType with
    | typeFile => exact allowed.2.1
    | typeDir =>
      intro existing bound
      rw [allowed.2.1] at bound
      cases bound
  | deleteDirEntry parent entry inode entryType atomicity =>
    cases entryType with
    | typeFile => exact allowed.2
    | typeDir =>
      intro existing bound
      rw [allowed.2.1] at bound
      exact Or.inl (Option.some.inj bound).symm
  | truncate => trivial
  | write => trivial
  | sync => trivial
  | stdout => trivial

/-- What the traced file system performs is never in its own way. -/
theorem AllowsAll.fitsAll {ops : List DiskOp} (allowed : names.AllowsAll root ops) :
    names.FitsAll ops := by
  induction ops generalizing names with
  | nil => trivial
  | cons op rest ih => exact ⟨allowed.1.fits, ih allowed.2⟩

end Naming

end Alice
