import Alice.Replay.Following

/-! # Rows that link and unlink files

Rows with `TYPE_FILE` return exactly if the selection has not left a directory
at the name. -/

namespace Alice

open Posix (Ino Name Path Bytes Tree)
open Checked

variable
  {root : Inode} {trace names : Naming} {store : Inode → Bytes}
  {tree : Tree} {state : ReplayState} {place : Inode → Ino} {hub : Ino}

namespace Simulates

section

variable {parent : Inode} (simulates : Simulates root trace names store state place hub)
  (live : trace.Live root parent)
include simulates live

/-- Looking up a parent does not turn a known object into a directory. -/
theorem mem_touchDir_iff {inode : Inode} (known : names.Known inode) :
    inode ∈ (names.touchDir parent).dirs ↔ inode ∈ names.dirs := by
  constructor
  · intro member
    rcases Set.mem_insert_iff.1 member with same | before
    · subst same
      apply known.resolve_right
      intro isFile
      exact simulates.wellFormed.apart inode live.1 (simulates.lags.files isFile)
    · exact before
  · exact fun member => Set.mem_insert_of_mem _ member

theorem lookupParent : ∃ after path place',
      state.getInodeDirectory parent none = .ok (after, path) ∧
        after.dirinodeMap parent = some path ∧
        Simulates root trace (names.touchDir parent) store after place'
          hub := by
  have noMode : ReplayState.checkMode none = .ok () := rfl
  obtain ⟨after, path, place', looked, lookup, _, following⟩ :=
    simulates.getInodeDirectory live noMode
  exact ⟨after, path, place', looked, lookup, following⟩

end

/-! ## Files -/

section Files

variable
  {parent file : Inode} {entry : Path} {mode : Option Mode}

private theorem noDirAt_touchDir_iff
    (simulates : Simulates root trace names store state place hub) (live : trace.Live root parent)
    (name : Name) : (names.touchDir parent).NoDirAt parent name ↔ names.NoDirAt parent name := by
  apply forall_congr'
  intro existing
  apply imp_congr_right
  intro bound
  have known := simulates.lags.target_known parent name existing bound
  rw [simulates.mem_touchDir_iff live known]

private theorem setEntry_touchFile_setEntry (names : Naming) (parent file : Inode) (name : Name)
    (target : Option Inode) :
    ((names.setEntry parent name none).touchFile file).setEntry parent name target =
      (names.touchFile file).setEntry parent name target := by
  ext other
  · rfl
  · rfl
  · simp only [Naming.child_setEntry, Naming.touchFile]
    split <;> rfl

section

variable (simulates : Simulates root trace names store state place hub)
include simulates

/-- The part of `create_dir_entry` that follows the removal of an old
entry. -/
private theorem link_inodeFile {name : Name} {path : Path} (known : parent ∈ names.dirs)
    (live : trace.Live root parent) (lookup : state.dirinodeMap parent = some path)
    (avoids : ¬(parent = root ∧ name = inodesName)) (free : names.child parent name = none)
    (inTrace : file ∈ trace.files) (modeOk : ReplayState.checkMode mode = .ok ()) : ∃ after place',
      (do
        assertThat (state.pathExists (path ++ [name]) = false)
        let state ← state.getInodeFile file mode
        state.osCall fun tree =>
          tree.link (inodePath file) (path ++ [name])) = .ok after ∧
        Simulates root trace ((names.touchFile file).setEntry parent name (some file)) store
          after place' hub := by
  have missing : state.pathExists (path ++ [name]) = false := by
    rw [simulates.pathExists_entry known live lookup avoids, free]
    rfl
  obtain ⟨withFile, place', opened, samePaths, following⟩ := simulates.getInodeFile inTrace modeOk
  obtain ⟨after, linked, done⟩ := following.link_entry known live (samePaths ▸ lookup) avoids free
      (Set.mem_insert file names.files)
  refine ⟨after, place', ?_, done⟩
  simp only [assertThat, missing, if_true, ok_bind, opened, linked]

section

variable (live : trace.Live root parent)
include live

theorem createFileEntry (inTrace : file ∈ trace.files)
    (avoids : ¬(parent = root ∧ basename entry = inodesName))
    (modeOk : ReplayState.checkMode mode = .ok ()) (fits : names.NoDirAt parent (basename entry)) :
    ∃ after place', state.createDirEntry parent entry file mode .typeFile = .ok after ∧
        Simulates root trace (names.apply (.createDirEntry parent entry file mode .typeFile))
          store after place' hub := by
  obtain ⟨found, path, place₁, looked, lookup, following⟩ := simulates.lookupParent live
  have known : parent ∈ (names.touchDir parent).dirs := Set.mem_insert _ _
  have fitsStill := (simulates.noDirAt_touchDir_iff live _).2 fits
  have present := following.pathExists_entry known live lookup avoids
  cases bound : (names.touchDir parent).child parent (basename entry) with
  | none =>
    rw [bound] at present
    obtain ⟨after, place', returned, done⟩ :=
      following.link_inodeFile known live lookup avoids bound inTrace modeOk
    refine ⟨after, place', ?_, done⟩
    simp only [ReplayState.createDirEntry, looked, ok_bind, present]
    exact returned
  | some existing =>
    rw [bound] at present
    obtain ⟨removed, unlinked, samePaths, withoutEntry⟩ :=
      following.unlink_entry known live lookup avoids bound (fitsStill existing bound)
    obtain ⟨after, place', returned, done⟩ :=
      withoutEntry.link_inodeFile known live (samePaths ▸ lookup) avoids (by simp) inTrace modeOk
    rw [setEntry_touchFile_setEntry] at done
    refine ⟨after, place', ?_, done⟩
    simp only [ReplayState.createDirEntry, looked, ok_bind, present,
      Option.isSome_some, if_true, unlinked]
    exact returned

private theorem lookup_blocked {name : Name} (avoids : ¬(parent = root ∧ name = inodesName))
    (clash : ¬names.NoDirAt parent name) :
    ∃ found path, state.getInodeDirectory parent none = .ok (found, path) ∧
        found.pathExists (path ++ [name]) = true ∧
        (found.osCall fun tree => tree.unlink (path ++ [name])) = .error (.osError .eisdir) := by
  obtain ⟨found, path, place₁, looked, lookup, following⟩ := simulates.lookupParent live
  have known : parent ∈ (names.touchDir parent).dirs := Set.mem_insert _ _
  rw [← simulates.noDirAt_touchDir_iff live] at clash
  obtain ⟨existing, bound, isDir⟩ : ∃ existing,
        (names.touchDir parent).child parent name = some existing ∧
          existing ∈ (names.touchDir parent).dirs := by
    simpa [Naming.NoDirAt] using clash
  have present := following.pathExists_entry known live lookup avoids
  rw [bound] at present
  exact ⟨found, path, looked, present,
    following.unlink_directory known live lookup avoids bound isDir⟩

theorem createFileEntry_blocked (avoids : ¬(parent = root ∧ basename entry = inodesName))
    (clash : ¬names.NoDirAt parent (basename entry)) :
    state.createDirEntry parent entry file mode .typeFile = .error (.osError .eisdir) := by
  obtain ⟨found, path, looked, present, refused⟩ := simulates.lookup_blocked live avoids clash
  simp only [ReplayState.createDirEntry, looked, ok_bind, present, if_true, refused, error_bind]

theorem deleteFileEntry (avoids : ¬(parent = root ∧ basename entry = inodesName))
    (fits : names.NoDirAt parent (basename entry)) (atomicity : Option String) : ∃ after place',
      state.deleteDirEntry parent entry file .typeFile = .ok after ∧ Simulates root trace
          (names.apply (.deleteDirEntry parent entry file .typeFile atomicity))
          store after place' hub := by
  obtain ⟨found, path, place₁, looked, lookup, following⟩ := simulates.lookupParent live
  have known : parent ∈ (names.touchDir parent).dirs := Set.mem_insert _ _
  have fitsStill := (simulates.noDirAt_touchDir_iff live _).2 fits
  have present := following.pathExists_entry known live lookup avoids
  cases bound : (names.touchDir parent).child parent (basename entry) with
  | none =>
    rw [bound] at present
    refine ⟨found, place₁, ?_, ?_⟩
    · simp only [ReplayState.deleteDirEntry, looked, ok_bind, present]
      rfl
    · simp only [Naming.apply]
      rw [Naming.setEntry_of_child bound]
      exact following
  | some existing =>
    rw [bound] at present
    obtain ⟨after, unlinked, _, done⟩ := following.unlink_entry known live lookup avoids bound
        (fitsStill existing bound)
    refine ⟨after, place₁, ?_, done⟩
    simp only [ReplayState.deleteDirEntry, looked, ok_bind, present,
      Option.isSome_some, if_true, unlinked]

end

theorem deleteFileEntry_blocked (file : Inode) (live : trace.Live root parent)
    (avoids : ¬(parent = root ∧ basename entry = inodesName))
    (clash : ¬names.NoDirAt parent (basename entry)) :
    state.deleteDirEntry parent entry file .typeFile = .error (.osError .eisdir) := by
  obtain ⟨found, path, looked, present, refused⟩ := simulates.lookup_blocked live avoids clash
  simp only [ReplayState.deleteDirEntry, looked, ok_bind, present, if_true, refused]

end

end Files

end Simulates

end Alice
