import Alice.Posix.Calls

/-! # Renaming

A successful `rename` finds the directories of its two paths and the object
that is moved, and with these it is given by one equation. -/

namespace Posix.Tree

variable {tree : Tree}

variable {path : Path} {dir : Ino} {name : Name}

theorem parentOf_eq_ok_iff : tree.parentOf path = .ok (dir, name) ↔
      ∃ front, path = front ++ [name] ∧ tree.resolve front = some dir ∧ tree.isDir dir = true := by
  constructor
  · intro parent
    have isDirectory := isDir_of_parentOf parent
    rcases List.eq_nil_or_concat path with isNil | ⟨front, last, isConcat⟩
    · subst isNil
      cases parent
    · rw [List.concat_eq_append] at isConcat
      subst isConcat
      unfold parentOf at parent
      rw [List.getLast?_concat, List.dropLast_concat] at parent
      cases resolved : tree.resolve front with
      | none =>
        simp only [resolved] at parent
        cases parent
      | some ino =>
        simp only [resolved] at parent
        split_ifs at parent
        cases parent
        exact ⟨front, rfl, resolved, isDirectory⟩
  · rintro ⟨front, isConcat, resolved, isDirectory⟩
    rw [isConcat]
    exact parentOf_concat resolved isDirectory name

/-- The directories of the two paths of a `rename`, and the object it
moves. -/
structure RenameAt (tree : Tree) (source target : Path) (sourceDir targetDir moved : Ino)
    (sourceName targetName : Name) : Prop where
  source_parent : tree.parentOf source = .ok (sourceDir, sourceName)
  target_parent : tree.parentOf target = .ok (targetDir, targetName)
  found : tree.child sourceDir sourceName = some moved

section

variable
  {source target : Path} {sourceDir targetDir moved : Ino}
  {sourceName targetName : Name}

theorem resolve_of_parentOf (parent : tree.parentOf source = .ok (sourceDir, sourceName)) :
    tree.resolve source = tree.child sourceDir sourceName := by
  obtain ⟨front, isConcat, resolved, _⟩ := parentOf_eq_ok_iff.1 parent
  rw [isConcat, resolve_concat, resolved]
  rfl

namespace RenameAt

section

variable (places : tree.RenameAt source target sourceDir targetDir moved sourceName targetName)
include places

theorem resolve_source : tree.resolve source = some moved :=
  (resolve_of_parentOf places.source_parent).trans places.found

theorem resolve_target : tree.resolve target = tree.child targetDir targetName :=
  resolve_of_parentOf places.target_parent

theorem rename_eq : tree.rename source target =
      if tree.child targetDir targetName = some moved then
        .ok tree
      else if tree.isDir moved && source.isPrefixOf target then
        .error .einval
      else
        (tree.renameOver moved (tree.child targetDir targetName)).map
          fun _ => (tree.dropEntry sourceDir sourceName).bindEntry
            targetDir targetName moved := by
  unfold rename
  rw [places.source_parent, places.target_parent]
  simp only [bind, Except.bind, places.found]
  split
  · rfl
  · split
    · rfl
    · cases tree.renameOver moved (tree.child targetDir targetName) <;> rfl

theorem rename_free (notDir : tree.isDir moved = false)
    (free : tree.child targetDir targetName = none) : tree.rename source target =
      .ok ((tree.dropEntry sourceDir sourceName).bindEntry targetDir targetName moved) := by
  rw [places.rename_eq, free, notDir]
  rfl

theorem rename_over_file (notDir : tree.isDir moved = false) {existing : Ino}
    (bound : tree.child targetDir targetName = some existing)
    (destNotDir : tree.isDir existing = false) (different : existing ≠ moved) :
    tree.rename source target = .ok ((tree.dropEntry sourceDir sourceName).bindEntry targetDir
        targetName moved) := by
  have replaceable : tree.renameOver moved (some existing) = .ok () := by
    rw [renameOver_eq_ok_iff]
    intro ino isExisting
    cases isExisting
    rw [destNotDir, notDir]
    exact ⟨rfl, fun isDir => absurd isDir Bool.false_ne_true⟩
  rw [places.rename_eq, bound, if_neg fun isMoved => different (Option.some.inj isMoved), notDir,
    Bool.false_and, if_neg Bool.false_ne_true, replaceable]
  rfl

end

end RenameAt

theorem exists_renameAt {after : Tree} (renamed : tree.rename source target = .ok after) :
    ∃ sourceDir targetDir moved sourceName targetName,
      tree.RenameAt source target sourceDir targetDir moved sourceName
        targetName := by
  obtain ⟨⟨sourceDir, sourceName⟩, sourceParent, renamed⟩ := Checked.bind_eq_ok_iff.1 renamed
  obtain ⟨⟨targetDir, targetName⟩, targetParent, renamed⟩ := Checked.bind_eq_ok_iff.1 renamed
  cases found : tree.child sourceDir sourceName with
  | none =>
    simp only [found] at renamed
    cases renamed
  | some moved =>
    exact ⟨sourceDir, targetDir, moved, sourceName, targetName, sourceParent, targetParent, found⟩

end

/-! ## Paths of directories -/

section

variable {target : Option Ino} {after : Tree} (rebinds : Rebinds tree after dir name target)
  (noDirectory : ∀ ino, tree.child dir name = some ino → tree.isDir ino = false)
include rebinds noDirectory

/-- The entry of a file, or of nothing, is on no path of a directory. -/
theorem Rebinds.resolve_directory {found : Ino} (resolved : tree.resolve path = some found)
    (isDirectory : tree.isDir found = true) : after.resolve path = some found := by
  induction path using List.reverseRecOn generalizing found with
  | nil =>
    rw [← resolved]
    exact congrArg some rebinds.root
  | append_singleton path last ih =>
    rw [resolve_concat] at resolved
    obtain ⟨parent, above, child⟩ := Option.bind_eq_some_iff.1 resolved
    have parentIsDir := isDir_of_child child
    rw [resolve_concat, ih above parentIsDir, Option.bind_some, rebinds.child, if_neg]
    · exact child
    · intro same
      rw [same.1, same.2] at child
      rw [noDirectory found child] at isDirectory
      cases isDirectory

theorem Rebinds.parentOf {parent : Ino} {last : Name}
    (found : tree.parentOf path = .ok (parent, last)) :
    after.parentOf path = .ok (parent, last) := by
  obtain ⟨front, isConcat, resolved, isDirectory⟩ := parentOf_eq_ok_iff.1 found
  refine parentOf_eq_ok_iff.2 ⟨front, isConcat,
    rebinds.resolve_directory noDirectory resolved isDirectory, ?_⟩
  rw [rebinds.isDir]
  exact isDirectory

end

end Posix.Tree
