import Alice.Posix.Renames

/-! # What a path leads to

In a rooted tree only reached directories have entries, no entry is bound to
the root, and no two entries are bound to one directory.  The calls keep a
tree rooted, and the module says which objects are reached afterwards. -/

namespace Posix.Tree

def Reaches (tree : Tree) (ino : Ino) : Prop :=
  ∃ path, tree.resolve path = some ino

section

variable {tree : Tree}

theorem reaches_root (tree : Tree) : tree.Reaches tree.root :=
  ⟨[], rfl⟩

theorem Reaches.child {dir ino : Ino} {name : Name} (reached : tree.Reaches dir)
    (bound : tree.child dir name = some ino) : tree.Reaches ino := by
  obtain ⟨path, resolved⟩ := reached
  refine ⟨path ++ [name], ?_⟩
  rw [resolve_concat, resolved]
  exact bound

@[elab_as_elim]
theorem Reaches.induct {motive : Ino → Prop} (root : motive tree.root)
    (step : ∀ dir name ino, tree.Reaches dir →
      motive dir → tree.child dir name = some ino → motive ino) {ino : Ino}
    (reached : tree.Reaches ino) : motive ino := by
  obtain ⟨path, resolved⟩ := reached
  induction path using List.reverseRecOn generalizing ino with
  | nil =>
    cases resolved
    exact root
  | append_singleton path name ih =>
    rw [resolve_concat] at resolved
    obtain ⟨dir, above, bound⟩ := Option.bind_eq_some_iff.1 resolved
    exact step dir name ino ⟨path, above⟩ (ih above) bound

/-- A directory has one path if no entry is bound to the root and one entry
at most to every other directory. -/
theorem path_unique (rootUnbound : ∀ dir name, tree.child dir name ≠ some tree.root)
    (boundOnce : ∀ ino, tree.isDir ino = true → ∀ dir name directory' name',
        tree.child dir name = some ino → tree.child directory' name' = some ino →
            dir = directory' ∧ name = name') {path path' : Path} {dir : Ino}
    (resolved : tree.resolve path = some dir)
    (resolved' : tree.resolve path' = some dir) (isDirectory : tree.isDir dir = true)
    : path = path' := by
  induction path using List.reverseRecOn generalizing path' dir with
  | nil =>
    rcases List.eq_nil_or_concat path' with isNil | ⟨front, last, isConcat⟩
    · exact isNil.symm
    · rw [isConcat, List.concat_eq_append, resolve_concat] at resolved'
      obtain ⟨parent, _, child⟩ := Option.bind_eq_some_iff.1 resolved'
      cases resolved
      exact False.elim (rootUnbound parent last child)
  | append_singleton path name ih =>
    rw [resolve_concat] at resolved
    obtain ⟨parent, above, child⟩ := Option.bind_eq_some_iff.1 resolved
    rcases List.eq_nil_or_concat path' with isNil | ⟨front, last, isConcat⟩
    · subst isNil
      cases resolved'
      exact False.elim (rootUnbound parent name child)
    · rw [isConcat, List.concat_eq_append, resolve_concat] at resolved'
      obtain ⟨parent', above', child'⟩ := Option.bind_eq_some_iff.1 resolved'
      obtain ⟨sameParent, sameName⟩ :=
        boundOnce dir isDirectory parent name parent' last child child'
      subst sameParent sameName
      rw [isConcat, List.concat_eq_append, ih above above' (isDir_of_child child)]

end

theorem eq_of_create {tree after : Tree} {path : Path} {ino fresh : Ino}
    (found : tree.resolve path = some ino) (created : tree.create path fresh = .ok after)
    : after = tree := by
  rcases Checked.bind_eq_ok_iff.1 created with
    ⟨⟨dir, name⟩, parent, created⟩
  rw [resolve_of_parentOf parent] at found
  simp only [found] at created
  split_ifs at created
  cases created
  rfl

/-- Only reached directories have entries, and a directory has one entry at
most. -/
structure Rooted (tree : Tree) : Prop where
  root_isDir : tree.isDir tree.root = true
  root_unbound : ∀ directory name, tree.child directory name ≠ some tree.root
  parent_reached : ∀ directory name ino,
    tree.child directory name = some ino → tree.Reaches directory
  bound_once : ∀ ino, tree.isDir ino = true →
    ∀ directory name directory' name',
      tree.child directory name = some ino →
        tree.child directory' name' = some ino →
          directory = directory' ∧ name = name'
  node_of_child : ∀ directory name ino, tree.child directory name = some ino → tree.node ino ≠ none

namespace Rooted

variable {tree after : Tree} {dir ino : Ino} {name : Name}

theorem reaches_of_child (rooted : tree.Rooted) (bound : tree.child dir name = some ino)
    : tree.Reaches ino :=
  (rooted.parent_reached dir name ino bound).child bound

theorem node_of_reaches (rooted : tree.Rooted) (reached : tree.Reaches ino) :
    tree.node ino ≠ none := by
  refine Reaches.induct ?_ ?_ reached
  · exact node_isSome_of_isDir rooted.root_isDir
  · intro dir name ino _ _ bound
    exact rooted.node_of_child dir name ino bound

/-- A number that is not reached has no entries of its own. -/
theorem bare_of_not_reaches (rooted : tree.Rooted) (unreached : ¬ tree.Reaches ino) (name : Name) :
    tree.child ino name = none := by
  cases bound : tree.child ino name with
  | none => rfl
  | some found => exact False.elim (unreached (rooted.parent_reached ino name found bound))

/-! ## More entries -/

/-- A free name is bound to a new object or to a file. -/
theorem of_adds (rooted : tree.Rooted) (adds : Adds tree after dir name ino)
    (reached : tree.Reaches dir) (absent : tree.child dir name = none)
    (alone : tree.Reaches ino → tree.isDir ino = false ∧ after.isDir ino = false)
    (present : after.node ino ≠ none) : after.Rooted ∧
      ∀ other, after.Reaches other ↔ tree.Reaches other ∨ other = ino := by
  have kept : ∀ {other tested target}, tree.child other tested = some target →
        after.child other tested = some target := by
    intro other tested target bound
    rw [adds.child, if_neg, bound]
    intro same
    rw [same.1, same.2, absent] at bound
    cases bound
  have cases_child : ∀ {other tested target}, after.child other tested = some target →
        (other = dir ∧ tested = name) ∧ target = ino ∨ tree.child other tested = some target := by
    intro other tested target bound
    rw [adds.child] at bound
    split_ifs at bound with same
    · exact Or.inl ⟨same, (Option.some.inj bound).symm⟩
    · exact Or.inr bound
  have notRoot : ino ≠ tree.root := by
    intro same
    subst same
    have notDir := (alone (reaches_root tree)).1
    rw [rooted.root_isDir] at notDir
    cases notDir
  have forward : ∀ other, tree.Reaches other → after.Reaches other := by
    intro other reached
    refine Reaches.induct ?_ ?_ reached
    · rw [← adds.root]
      exact reaches_root after
    · intro dir name ino _ reachedAfter bound
      exact reachedAfter.child (kept bound)
  have reachedAfter : ∀ other, after.Reaches other ↔ tree.Reaches other ∨ other = ino := by
    intro other
    constructor
    · intro reached
      refine Reaches.induct ?_ ?_ reached
      · rw [adds.root]
        exact Or.inl (reaches_root tree)
      · intro parent last target _ _ bound
        rcases cases_child bound with ⟨-, isNew⟩ | bound
        · exact Or.inr isNew
        · exact Or.inl (rooted.reaches_of_child bound)
    · rintro (reached | isNew)
      · exact forward other reached
      · subst isNew
        have bound : after.child dir name = some other := by
          rw [adds.child, if_pos ⟨rfl, rfl⟩]
        exact (forward dir reached).child bound
  refine ⟨⟨?_, ?_, ?_, ?_, ?_⟩, reachedAfter⟩
  · rw [adds.root, adds.isDir _ notRoot.symm]
    exact rooted.root_isDir
  · intro parent last bound
    rw [adds.root] at bound
    rcases cases_child bound with ⟨-, isNew⟩ | bound
    · exact notRoot isNew.symm
    · exact rooted.root_unbound parent last bound
  · intro parent last target bound
    rcases cases_child bound with ⟨same, -⟩ | bound
    · rw [same.1]
      exact forward dir reached
    · exact forward parent (rooted.parent_reached parent last target bound)
  · intro target isDirectory parent last parent' last' bound bound'
    -- A new directory is bound by the new entry only.
    have old : ∀ {other tested}, tree.child other tested = some target → target ≠ ino := by
      intro other tested bound same
      subst same
      rw [(alone (rooted.reaches_of_child bound)).2] at isDirectory
      cases isDirectory
    rcases cases_child bound with ⟨same, isNew⟩ | bound <;>
      rcases cases_child bound' with ⟨same', isNew'⟩ | bound'
    · rw [same.1, same.2, same'.1, same'.2]
      exact ⟨rfl, rfl⟩
    · exact False.elim (old bound' isNew)
    · exact False.elim (old bound isNew')
    · rw [adds.isDir target (old bound)] at isDirectory
      exact rooted.bound_once target isDirectory parent last parent' last' bound bound'
  · intro parent last target bound
    by_cases isNew : target = ino
    · rw [isNew]
      exact present
    · rcases cases_child bound with ⟨-, same⟩ | bound
      · exact False.elim (isNew same)
      · rw [Ne, adds.unused target isNew]
        exact rooted.node_of_child parent last target bound

/-- The second tree has a new object at the end of a path. -/
structure Placed (tree after : Tree) (path : Path) (fresh : Ino) : Prop where
  rooted : after.Rooted
  resolve : after.resolve path = some fresh
  reaches : ∀ other, after.Reaches other ↔ tree.Reaches other ∨ other = fresh
  isDir : ∀ other, other ≠ fresh → after.isDir other = tree.isDir other

variable {fresh : Ino} {path : Path}

section

variable (rooted : tree.Rooted)
include rooted

theorem placed_bindEntry (unreached : ¬ tree.Reaches fresh)
    (parent : tree.parentOf path = .ok (dir, name)) (absent : tree.child dir name = none)
    {node : Node} (empty : ∀ tested, (tree.setNode fresh node).child fresh tested = none) :
    Placed tree ((tree.setNode fresh node).bindEntry dir name fresh)
      path fresh := by
  obtain ⟨front, isConcat, resolved, isDirectory⟩ := parentOf_eq_ok_iff.1 parent
  have reached : tree.Reaches dir := ⟨front, resolved⟩
  have different : dir ≠ fresh := by
    intro same
    rw [same] at reached
    exact unreached reached
  have adds := adds_setNode different (rooted.bare_of_not_reaches unreached) isDirectory name empty
  have present : ((tree.setNode fresh node).bindEntry dir name fresh).node fresh ≠
        none := by
    unfold bindEntry
    simp [setNode]
  obtain ⟨rootedAfter, reaches⟩ := rooted.of_adds adds reached absent
    (fun isReached => absurd isReached unreached) present
  refine ⟨rootedAfter, ?_, reaches, adds.isDir⟩
  rw [isConcat, resolve_concat, adds.keepsPaths absent front dir resolved, Option.bind_some,
    adds.child, if_pos ⟨rfl, rfl⟩]

theorem placed_of_create (unreached : ¬ tree.Reaches fresh) (absent : tree.resolve path = none)
    (created : tree.create path fresh = .ok after) :
    Placed tree after path fresh := by
  rcases Checked.bind_eq_ok_iff.1 created with
    ⟨⟨dir, name⟩, parent, created⟩
  rw [resolve_of_parentOf parent] at absent
  simp only [absent] at created
  cases created
  apply rooted.placed_bindEntry unreached parent absent
  simp [child, entries, setNode]

theorem placed_of_mkdir (unreached : ¬ tree.Reaches fresh)
    (made : tree.mkdir path fresh = .ok after) :
    Placed tree after path fresh := by
  rcases Checked.bind_eq_ok_iff.1 made with
    ⟨⟨dir, name⟩, parent, made⟩
  cases found : tree.child dir name with
  | some ino =>
    simp only [found] at made
    cases made
  | none =>
    simp only [found] at made
    cases made
    apply rooted.placed_bindEntry unreached parent found
    simp [child, entries, setNode]

theorem of_link {source target : Path} (linked : tree.link source target = .ok after) :
    after.Rooted ∧ (∀ other, after.Reaches other ↔ tree.Reaches other) ∧
      ∀ other, after.isDir other = tree.isDir other := by
  unfold link at linked
  cases found : tree.resolve source with
  | none =>
    simp only [found] at linked
    cases linked
  | some ino =>
    simp only [found] at linked
    split_ifs at linked with isDirectory
    have notDir : tree.isDir ino = false := by simpa using isDirectory
    rcases Checked.bind_eq_ok_iff.1 linked with
      ⟨⟨dir, name⟩, parent, linked⟩
    cases absent : tree.child dir name with
    | some existing =>
      simp only [absent] at linked
      cases linked
    | none =>
      simp only [absent] at linked
      cases linked
      obtain ⟨front, isConcat, resolved, isDirectory⟩ := parentOf_eq_ok_iff.1 parent
      have binds := rebinds_bindEntry isDirectory name ino
      have adds : Adds tree (tree.bindEntry dir name ino) dir
          name ino :=
        ⟨binds.child, fun other _ => binds.isDir other,
          fun other _ => binds.content other, binds.root, fun other _ => binds.unused other⟩
      have reached : tree.Reaches ino := ⟨source, found⟩
      have present : (tree.bindEntry dir name ino).node ino ≠ none := by
        rw [Ne, binds.unused]
        exact rooted.node_of_reaches reached
      obtain ⟨rootedAfter, reaches⟩ := rooted.of_adds adds ⟨front, resolved⟩ absent
        (fun _ => ⟨notDir, (binds.isDir ino).trans notDir⟩) present
      refine ⟨rootedAfter, ?_, binds.isDir⟩
      intro other
      rw [reaches]
      constructor
      · rintro (reachedOther | isFile)
        · exact reachedOther
        · rw [isFile]
          exact reached
      · exact Or.inl

theorem of_setNode_file {bytes : Bytes} (isFile : tree.content ino = some bytes) (content : Bytes) :
    (tree.setNode ino (.file content)).Rooted ∧
      ∀ other, (tree.setNode ino (.file content)).Reaches other ↔ tree.Reaches other := by
  have notDir := not_isDir_of_content isFile
  have child := child_setNode_file notDir content
  have reaches : ∀ other, (tree.setNode ino (.file content)).Reaches other ↔
        tree.Reaches other := by
    intro other
    constructor
    · intro reached
      refine Reaches.induct (reaches_root tree) ?_ reached
      intro dir name found _ reachedBefore bound
      rw [child] at bound
      exact reachedBefore.child bound
    · intro reached
      obtain ⟨path, resolved⟩ := reached
      exact ⟨path, keepsPaths_setNode_file isFile content path other resolved⟩
  refine ⟨⟨?_, ?_, ?_, ?_, ?_⟩, reaches⟩
  · rw [isDir_setNode_file notDir]
    exact rooted.root_isDir
  · intro dir name
    rw [child]
    exact rooted.root_unbound dir name
  · intro dir name found bound
    rw [child] at bound
    rw [reaches]
    exact rooted.parent_reached dir name found bound
  · intro found isDirectory dir name directory' name' first second
    rw [isDir_setNode_file notDir] at isDirectory
    rw [child] at first second
    exact rooted.bound_once found isDirectory dir name directory' name' first second
  · intro dir name found bound
    rw [child] at bound
    by_cases same : found = ino
    · subst same
      simp [setNode]
    · rw [node_setNode_of_ne same]
      exact rooted.node_of_child dir name found bound

/-! ## The entry of a file is removed -/

theorem of_drops (drops : Rebinds tree after dir name none)
    (bound : tree.child dir name = some ino) (notDir : tree.isDir ino = false) :
    after.Rooted ∧ (∀ other, after.Reaches other → tree.Reaches other) ∧
      ∀ parent last other, tree.child parent last = some other →
        ¬(parent = dir ∧ last = name) → after.Reaches other := by
  have older : ∀ {parent last target}, after.child parent last = some target →
        tree.child parent last = some target := by
    intro parent last target boundAfter
    rw [drops.child] at boundAfter
    split_ifs at boundAfter
    exact boundAfter
  have backward : ∀ other, after.Reaches other → tree.Reaches other := by
    intro other reached
    refine Reaches.induct ?_ ?_ reached
    · rw [drops.root]
      exact reaches_root tree
    · intro parent last target _ _ boundAfter
      exact rooted.reaches_of_child (older boundAfter)
  have directories : ∀ {other}, tree.isDir other = true →
      tree.Reaches other → after.Reaches other := by
    intro other isDirectory reached
    obtain ⟨path, resolved⟩ := reached
    refine ⟨path, drops.resolve_directory ?_ resolved isDirectory⟩
    intro found boundFound
    rw [bound] at boundFound
    cases boundFound
    exact notDir
  refine ⟨⟨?_, ?_, ?_, ?_, ?_⟩, backward, ?_⟩
  · rw [drops.root, drops.isDir]
    exact rooted.root_isDir
  · intro parent last boundAfter
    rw [drops.root] at boundAfter
    exact rooted.root_unbound parent last (older boundAfter)
  · intro parent last target boundAfter
    exact directories (isDir_of_child (older boundAfter))
      (rooted.parent_reached parent last target (older boundAfter))
  · intro target isDirectory parent last parent' last' first second
    rw [drops.isDir] at isDirectory
    exact rooted.bound_once target isDirectory parent last parent' last'
      (older first) (older second)
  · intro parent last target boundAfter
    rw [Ne, drops.unused]
    exact rooted.node_of_child parent last target (older boundAfter)
  · intro parent last other boundOther elsewhere
    have boundAfter : after.child parent last = some other := by
      rw [drops.child, if_neg elsewhere, boundOther]
    exact (directories (isDir_of_child boundOther)
      (rooted.parent_reached parent last other boundOther)).child boundAfter

end

end Rooted

theorem exists_of_unlink {tree after : Tree} {path : Path}
    (unlinked : tree.unlink path = .ok after) : ∃ dir name ino, tree.resolve path = some ino ∧
        tree.child dir name = some ino ∧ tree.isDir ino = false ∧
            Rebinds tree after dir name none := by
  rcases Checked.bind_eq_ok_iff.1 unlinked with
    ⟨⟨dir, name⟩, parent, unlinked⟩
  rw [resolve_of_parentOf parent]
  cases found : tree.child dir name with
  | none =>
    simp only [found] at unlinked
    cases unlinked
  | some ino =>
    simp only [found] at unlinked
    split_ifs at unlinked with isDirectory
    cases unlinked
    exact ⟨dir, name, ino, rfl, found, by simpa using isDirectory, rebinds_dropEntry tree dir name⟩

/-! ## An object is renamed -/

/-- The second tree has the object of one entry under another. -/
structure Moves (before after : Tree) (sourceDir targetDir moved : Ino)
    (sourceName targetName : Name) : Prop where
  child : ∀ other tested, after.child other tested =
      if other = targetDir ∧ tested = targetName then
        some moved
      else if other = sourceDir ∧ tested = sourceName then
        none
      else
        before.child other tested
  isDir : ∀ ino, after.isDir ino = before.isDir ino
  root : after.root = before.root
  unused : ∀ ino, after.node ino = none ↔ before.node ino = none

section

variable
  {tree : Tree} {source target : Path} {sourceDir targetDir moved : Ino}
  {sourceName targetName : Name}

theorem moves_dropEntry_bindEntry (targetIsDir : tree.isDir targetDir = true)
    (sourceDir moved : Ino) (sourceName targetName : Name) : Moves tree
      ((tree.dropEntry sourceDir sourceName).bindEntry targetDir targetName moved)
      sourceDir targetDir moved sourceName targetName := by
  have drops := rebinds_dropEntry tree sourceDir sourceName
  have stillDir : (tree.dropEntry sourceDir sourceName).isDir targetDir = true :=
    (drops.isDir targetDir).trans targetIsDir
  have binds := rebinds_bindEntry stillDir targetName moved
  constructor
  · intro other tested
    rw [binds.child, drops.child]
  · intro ino
    rw [binds.isDir, drops.isDir]
  · rw [binds.root, drops.root]
  · intro ino
    rw [binds.unused, drops.unused]

/-- What a successful `rename` checks, if it changes something. -/
structure RenameDone (tree after : Tree) (source target : Path)
    (sourceDir targetDir moved : Ino) (sourceName targetName : Name) : Prop where
  places : tree.RenameAt source target sourceDir targetDir moved sourceName targetName
  different : tree.child targetDir targetName ≠ some moved
  outside : tree.isDir moved = true → ¬ source <+: target
  replaceable : ∀ ino, tree.child targetDir targetName = some ino →
    tree.isDir ino = tree.isDir moved ∧ ∀ name, tree.child ino name = none
  moves : Moves tree after sourceDir targetDir moved sourceName targetName

theorem rename_cases {after : Tree} (renamed : tree.rename source target = .ok after) :
    (after = tree ∧ tree.resolve target = tree.resolve source) ∨
      ∃ sourceDir targetDir moved sourceName targetName,
        RenameDone tree after source target sourceDir targetDir moved
          sourceName targetName := by
  obtain ⟨sourceDir, targetDir, moved, sourceName, targetName, places⟩ := exists_renameAt renamed
  rw [places.rename_eq] at renamed
  by_cases same : tree.child targetDir targetName = some moved
  · rw [if_pos same] at renamed
    cases renamed
    refine Or.inl ⟨rfl, ?_⟩
    rw [places.resolve_target, places.resolve_source, same]
  · rw [if_neg same] at renamed
    cases inside : tree.isDir moved && source.isPrefixOf target with
    | true =>
      rw [inside, if_pos rfl] at renamed
      cases renamed
    | false =>
      rw [inside, if_neg Bool.false_ne_true] at renamed
      obtain ⟨checked, replaceable, result⟩ := Checked.map_eq_ok_iff.1 renamed
      rw [renameOver_eq_ok_iff] at replaceable
      subst result
      refine Or.inr ⟨sourceDir, targetDir, moved, sourceName, targetName,
        places, same, ?_, ?_, moves_dropEntry_bindEntry
          (isDir_of_parentOf places.target_parent) sourceDir moved sourceName targetName⟩
      · intro isDirectory isPrefix
        rw [isDirectory, Bool.true_and, List.isPrefixOf_iff_prefix.2 isPrefix] at inside
        cases inside
      · intro ino bound
        obtain ⟨sameKind, empty⟩ := replaceable ino bound
        refine ⟨sameKind, ?_⟩
        cases kind : tree.isDir ino with
        | true => exact empty kind
        | false => exact child_eq_none_of_not_isDir kind

end

namespace Rooted

variable
  {tree after : Tree} {source target : Path}
  {sourceDir targetDir moved : Ino} {sourceName targetName : Name}

section

variable (rooted : tree.Rooted)
  (done : RenameDone tree after source target sourceDir targetDir moved sourceName targetName)
include rooted done

/-- The directory of the target is not below an object that is moved. -/
theorem exists_targetFront :
    ∃ back, target = back ++ [targetName] ∧ tree.resolve back = some targetDir ∧
        after.resolve back = some targetDir := by
  obtain ⟨front, sourceConcat, sourceResolved, sourceIsDir⟩ :=
    parentOf_eq_ok_iff.1 done.places.source_parent
  obtain ⟨back, targetConcat, targetResolved, targetIsDir⟩ :=
    parentOf_eq_ok_iff.1 done.places.target_parent
  have unique : ∀ {path path' : Path} {dir : Ino}, tree.resolve path = some dir →
        tree.resolve path' = some dir → tree.isDir dir = true → path = path' :=
    path_unique rooted.root_unbound rooted.bound_once
  -- Every prefix of the path leads where it led.
  have prefixes : ∀ path rest ino, path ++ rest = back →
      tree.resolve path = some ino → after.resolve path = some ino := by
    intro path
    induction path using List.reverseRecOn with
    | nil =>
      intro rest ino _ resolved
      rw [← resolved]
      exact congrArg some done.moves.root
    | append_singleton path name ih =>
      intro rest ino isPrefix resolved
      rw [resolve_concat] at resolved
      obtain ⟨parent, above, bound⟩ := Option.bind_eq_some_iff.1 resolved
      rw [List.append_assoc] at isPrefix
      rw [resolve_concat, ih _ parent isPrefix above,
        Option.bind_some, done.moves.child, if_neg, if_neg, bound]
      · rintro ⟨isSourceDir, isSourceName⟩
        subst isSourceDir isSourceName
        have isMoved : moved = ino := Option.some.inj (done.places.found.symm.trans bound)
        subst isMoved
        have sameFront := unique above sourceResolved sourceIsDir
        subst sameFront
        cases kind : tree.isDir moved with
        | true =>
          apply done.outside kind
          rw [sourceConcat, targetConcat, ← isPrefix]
          exact ⟨rest ++ [targetName], by simp⟩
        | false =>
          -- A file is at the end of a path, and the path leads to a
          -- directory.
          have leads := targetResolved
          rw [← isPrefix, ← List.append_assoc, resolve, resolveFrom_append, ← resolve,
            resolve_concat, above, Option.bind_some, bound, Option.bind_some] at leads
          cases rest with
          | nil =>
            cases leads
            rw [kind] at targetIsDir
            cases targetIsDir
          | cons first rest =>
            rw [resolveFrom, child_eq_none_of_not_isDir kind] at leads
            cases leads
      · rintro ⟨isTargetDir, -⟩
        subst isTargetDir
        have sameBack := unique above targetResolved targetIsDir
        rw [← sameBack] at isPrefix
        simp at isPrefix
  exact ⟨back, targetConcat, targetResolved,
    prefixes back [] targetDir (List.append_nil back) targetResolved⟩

/-- An object that is renamed in its directory leaves its old name free. -/
theorem resolve_source_of_rename (siblings : source.dropLast = target.dropLast)
    (free : tree.resolve target = none) : after.resolve source = none := by
  obtain ⟨back, targetConcat, resolved, resolvedAfter⟩ := rooted.exists_targetFront done
  obtain ⟨front, sourceConcat, sourceResolved, -⟩ := parentOf_eq_ok_iff.1 done.places.source_parent
  rw [sourceConcat, targetConcat, List.dropLast_concat, List.dropLast_concat] at siblings
  subst siblings
  have sameDir : targetDir = sourceDir := Option.some.inj (resolved.symm.trans sourceResolved)
  subst sameDir
  rw [done.places.resolve_target] at free
  rw [sourceConcat, resolve_concat, resolvedAfter, Option.bind_some,
    done.moves.child, if_neg, if_pos ⟨rfl, rfl⟩]
  intro same
  rw [← same.2, done.places.found] at free
  cases free

/-- Only the object that the target name was bound to may be lost. -/
theorem of_rename :
    after.Rooted ∧ (∀ other, after.Reaches other → tree.Reaches other) ∧
      (∀ other, tree.Reaches other →
        after.Reaches other ∨ tree.child targetDir targetName = some other) ∧
      ∀ parent last other, tree.child parent last = some other →
        ¬(parent = targetDir ∧ last = targetName) → after.Reaches other := by
  have moves := done.moves
  have movedReached := rooted.reaches_of_child done.places.found
  obtain ⟨back, -, -, targetResolved⟩ := rooted.exists_targetFront done
  have targetReached : after.Reaches targetDir := ⟨back, targetResolved⟩
  have boundTarget : after.child targetDir targetName = some moved := by
    rw [moves.child, if_pos ⟨rfl, rfl⟩]
  have movedReachedAfter := targetReached.child boundTarget
  have cases_child : ∀ {other tested found}, after.child other tested = some found →
        (other = targetDir ∧ tested = targetName) ∧ found = moved ∨
          ¬(other = sourceDir ∧ tested = sourceName) ∧ tree.child other tested = some found := by
    intro other tested found bound
    rw [moves.child] at bound
    split_ifs at bound with atTarget atSource
    · exact Or.inl ⟨atTarget, (Option.some.inj bound).symm⟩
    · exact Or.inr ⟨atSource, bound⟩
  have found_of_child : ∀ {other tested found},
      after.child other tested = some found → tree.Reaches found := by
    intro other tested found bound
    rcases cases_child bound with ⟨-, isMoved⟩ | ⟨-, bound⟩
    · rw [isMoved]
      exact movedReached
    · exact rooted.reaches_of_child bound
  have backward : ∀ other, after.Reaches other → tree.Reaches other := by
    intro other reached
    refine Reaches.induct ?_ ?_ reached
    · rw [moves.root]
      exact reaches_root tree
    · intro parent last found _ _ bound
      exact found_of_child bound
  have elsewhere : ∀ {parent last found},
      after.Reaches parent → tree.child parent last = some found →
        ¬(parent = targetDir ∧ last = targetName) → after.Reaches found := by
    intro parent last found reached bound notTarget
    by_cases atSource : parent = sourceDir ∧ last = sourceName
    · rw [atSource.1, atSource.2, done.places.found] at bound
      cases bound
      exact movedReachedAfter
    · have boundAfter : after.child parent last = some found := by
        rw [moves.child, if_neg notTarget, if_neg atSource, bound]
      exact reached.child boundAfter
  have forward : ∀ other, tree.Reaches other →
      after.Reaches other ∨ tree.child targetDir targetName = some other := by
    intro other reached
    refine Reaches.induct ?_ ?_ reached
    · rw [← moves.root]
      exact Or.inl (reaches_root after)
    · intro parent last found _ parentReached bound
      by_cases atTarget : parent = targetDir ∧ last = targetName
      · rw [atTarget.1, atTarget.2] at bound
        exact Or.inr bound
      · rcases parentReached with parentReached | replaced
        · exact Or.inl (elsewhere parentReached bound atTarget)
        · rw [(done.replaceable parent replaced).2 last] at bound
          cases bound
  have parents : ∀ {parent last found},
      tree.child parent last = some found → after.Reaches parent := by
    intro parent last found bound
    rcases forward parent (rooted.parent_reached parent last found bound) with reached | replaced
    · exact reached
    · rw [(done.replaceable parent replaced).2 last] at bound
      cases bound
  refine ⟨⟨?_, ?_, ?_, ?_, ?_⟩, backward, forward, ?_⟩
  · rw [moves.root, moves.isDir]
    exact rooted.root_isDir
  · intro parent last bound
    rw [moves.root] at bound
    rcases cases_child bound with ⟨-, isMoved⟩ | ⟨-, bound⟩
    · apply rooted.root_unbound sourceDir sourceName
      rw [isMoved]
      exact done.places.found
    · exact rooted.root_unbound parent last bound
  · intro parent last found bound
    rcases cases_child bound with ⟨atTarget, -⟩ | ⟨-, bound⟩
    · rw [atTarget.1]
      exact targetReached
    · exact parents bound
  · intro found isDirectory parent last parent' last' first second
    rw [moves.isDir] at isDirectory
    have once := rooted.bound_once found isDirectory
    -- The old entry of the object is gone.
    have gone : ∀ {other tested}, found = moved → tree.child other tested = some found →
          ¬¬(other = sourceDir ∧ tested = sourceName) := by
      intro other tested isMoved bound atSource
      subst isMoved
      exact atSource (once other tested sourceDir sourceName bound done.places.found)
    rcases cases_child first with ⟨atTarget, isMoved⟩ | ⟨notSource, bound⟩ <;>
      rcases cases_child second with
        ⟨atTarget', isMoved'⟩ | ⟨notSource', bound'⟩
    · rw [atTarget.1, atTarget.2, atTarget'.1, atTarget'.2]
      exact ⟨rfl, rfl⟩
    · exact False.elim (gone isMoved bound' notSource')
    · exact False.elim (gone isMoved' bound notSource)
    · exact once parent last parent' last' bound bound'
  · intro parent last found bound
    rw [Ne, moves.unused]
    exact rooted.node_of_reaches (found_of_child bound)
  · intro parent last other bound notTarget
    exact elsewhere (parents bound) bound notTarget

end

end Rooted

end Posix.Tree
