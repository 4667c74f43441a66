import Alice.Checked
import Alice.Posix.Tree

/-! # What the calls do

How each change of a tree shows in the children of directories, the contents
of files and the kinds of nodes, and when each call succeeds. -/

namespace Posix.Tree

/-! ## Observations -/

section

variable {tree : Tree}

variable {ino dir fresh : Ino} {bytes : Bytes} {name : Name} {path : Path} {after : Tree}

theorem isDir_iff : tree.isDir ino = true ↔ ∃ entries, tree.node ino = some (.dir entries) := by
  unfold isDir entries
  split
  · rename_i found lookup
    simp [lookup]
  · rename_i other
    simp only [Option.isSome_none, Bool.false_eq_true, false_iff, not_exists]
    exact other

theorem content_eq_some_iff :
    tree.content ino = some bytes ↔ tree.node ino = some (.file bytes) := by
  unfold content
  split
  · rename_i found lookup
    simp [lookup]
  · rename_i other
    simp only [reduceCtorEq, false_iff]
    exact other bytes

theorem child_eq_none_of_not_isDir (notDir : tree.isDir dir = false) (name : Name) :
    tree.child dir name = none := by
  have none : tree.entries dir = none := by simpa [isDir] using notDir
  rw [child, none]
  rfl

theorem isDir_of_child (bound : tree.child dir name = some ino) : tree.isDir dir = true := by
  cases kind : tree.isDir dir with
  | true => rfl
  | false =>
    rw [child_eq_none_of_not_isDir kind] at bound
    cases bound

theorem not_isDir_of_content (isFile : tree.content ino = some bytes) : tree.isDir ino = false := by
  rw [content_eq_some_iff] at isFile
  simp [isDir, entries, isFile]

theorem content_of_isDir (dir : tree.isDir ino = true) : tree.content ino = none := by
  obtain ⟨entries, lookup⟩ := isDir_iff.1 dir
  simp [content, lookup]

theorem not_isDir_of_node (unused : tree.node ino = none) : tree.isDir ino = false := by
  simp [isDir, entries, unused]

theorem node_isSome_of_isDir (dir : tree.isDir ino = true) : tree.node ino ≠ none := by
  obtain ⟨entries, lookup⟩ := isDir_iff.1 dir
  simp [lookup]

theorem node_isSome_of_content (isFile : tree.content ino = some bytes) : tree.node ino ≠ none := by
  rw [content_eq_some_iff] at isFile
  simp [isFile]

/-! ## Entries -/

private theorem node_eq_dir_of_entries {found : Entries}
    (lookup : tree.entries dir = some found) : tree.node dir = some (.dir found) := by
  unfold entries at lookup
  split at lookup
  · rename_i isDirectory
    rw [isDirectory, Option.some.inj lookup]
  · simp at lookup

section

variable (dir : Ino) (change : Entries → Entries)

theorem entries_changeEntries (other : Ino) : (tree.changeEntries dir change).entries other =
      if other = dir then
        (tree.entries other).map change
      else
        tree.entries other := by
  unfold changeEntries
  split
  · rename_i found lookup
    by_cases same : other = dir
    · subst same
      rw [if_pos rfl, lookup]
      simp [entries, setNode]
    · rw [if_neg same]
      simp [entries, setNode, same]
  · rename_i missing
    by_cases same : other = dir
    · subst same
      simp [missing]
    · rw [if_neg same]

@[simp]
theorem isDir_changeEntries (other : Ino) :
    (tree.changeEntries dir change).isDir other = tree.isDir other := by
  unfold isDir
  rw [entries_changeEntries]
  split <;> simp

@[simp]
theorem content_changeEntries (other : Ino) : (tree.changeEntries dir change).content other =
      tree.content other := by
  unfold changeEntries
  split
  · rename_i found lookup
    by_cases same : other = dir
    · subst same
      simp [content, setNode, node_eq_dir_of_entries lookup]
    · simp [content, setNode, same]
  · rfl

@[simp]
theorem root_changeEntries : (tree.changeEntries dir change).root = tree.root := by
  unfold changeEntries
  split <;> rfl

@[simp]
theorem node_changeEntries_eq_none_iff (other : Ino) :
    (tree.changeEntries dir change).node other = none ↔ tree.node other = none := by
  unfold changeEntries
  split
  · rename_i found lookup
    by_cases same : other = dir
    · subst same
      simp [setNode, node_eq_dir_of_entries lookup]
    · simp [setNode, same]
  · exact Iff.rfl

end

/-- The second tree differs from the first in one entry of one directory. -/
structure Rebinds (before after : Tree) (directory : Ino) (name : Name)
    (target : Option Ino) : Prop where
  child : ∀ other tested, after.child other tested =
      if other = directory ∧ tested = name then
        target
      else
        before.child other tested
  isDir : ∀ ino, after.isDir ino = before.isDir ino
  content : ∀ ino, after.content ino = before.content ino
  root : after.root = before.root
  unused : ∀ ino, after.node ino = none ↔ before.node ino = none

theorem rebinds_bindEntry (isDirectory : tree.isDir dir = true) (name : Name) (target : Ino) :
    Rebinds tree (tree.bindEntry dir name target) dir name (some target) where
  child := by
    intro other tested
    unfold child bindEntry
    rw [entries_changeEntries]
    by_cases same : other = dir
    · subst same
      obtain ⟨entries, lookup⟩ := Option.isSome_iff_exists.1 isDirectory
      rw [if_pos rfl, lookup]
      by_cases sameName : tested = name
      · subst sameName
        simp
      · simp [sameName, AList.lookup_insert_ne sameName]
    · simp [same]
  isDir := isDir_changeEntries dir _
  content := content_changeEntries dir _
  root := root_changeEntries dir _
  unused := node_changeEntries_eq_none_iff dir _

theorem rebinds_dropEntry (tree : Tree) (dir : Ino) (name : Name) :
    Rebinds tree (tree.dropEntry dir name) dir name none where
  child := by
    intro other tested
    unfold child dropEntry
    rw [entries_changeEntries]
    by_cases same : other = dir
    · subst same
      cases lookup : tree.entries other with
      | none => simp
      | some entries =>
        by_cases sameName : tested = name
        · subst sameName
          simp
        · simp [sameName, AList.lookup_erase_ne sameName]
    · simp [same]
  isDir := isDir_changeEntries dir _
  content := content_changeEntries dir _
  root := root_changeEntries dir _
  unused := node_changeEntries_eq_none_iff dir _

/-! ## New nodes and new contents -/

/-- The second tree has one node more than the first, under one new name. -/
structure Adds (before after : Tree) (directory : Ino) (name : Name) (fresh : Ino) : Prop where
  child : ∀ other tested, after.child other tested =
      if other = directory ∧ tested = name then
        some fresh
      else
        before.child other tested
  isDir : ∀ ino, ino ≠ fresh → after.isDir ino = before.isDir ino
  content : ∀ ino, ino ≠ fresh → after.content ino = before.content ino
  root : after.root = before.root
  unused : ∀ ino, ino ≠ fresh → (after.node ino = none ↔ before.node ino = none)

section

variable {fresh dir : Ino}

theorem adds_setNode (different : dir ≠ fresh)
    (bare : ∀ tested, tree.child fresh tested = none) (isDirectory : tree.isDir dir = true)
    (name : Name) {node : Node}
    (empty : ∀ tested, (tree.setNode fresh node).child fresh tested = none) :
    Adds tree ((tree.setNode fresh node).bindEntry dir name fresh)
      dir name fresh := by
  have stillDir : (tree.setNode fresh node).isDir dir = true := by
    simpa [isDir, entries, setNode, different] using isDirectory
  have rebinds := rebinds_bindEntry stillDir name fresh
  have children : ∀ other tested, (tree.setNode fresh node).child other tested =
        tree.child other tested := by
    intro other tested
    by_cases same : other = fresh
    · subst same
      rw [empty, bare]
    · simp [child, entries, setNode, same]
  constructor
  · intro other tested
    rw [rebinds.child, children]
  · intro ino notFresh
    rw [rebinds.isDir]
    simp [isDir, entries, setNode, notFresh]
  · intro ino notFresh
    rw [rebinds.content]
    simp [content, setNode, notFresh]
  · rw [rebinds.root]
    rfl
  · intro ino notFresh
    rw [rebinds.unused]
    simp [setNode, notFresh]

private theorem adds_of_unused (unused : tree.node fresh = none)
    (isDirectory : tree.isDir dir = true) (name : Name) {node : Node}
    (empty : ∀ tested, (tree.setNode fresh node).child fresh tested = none) :
    Adds tree ((tree.setNode fresh node).bindEntry dir name fresh)
      dir name fresh := by
  apply adds_setNode _ _ isDirectory name empty
  · intro same
    subst same
    exact node_isSome_of_isDir isDirectory unused
  · exact child_eq_none_of_not_isDir (not_isDir_of_node unused)

theorem adds_emptyDir (unused : tree.node fresh = none)
    (isDirectory : tree.isDir dir = true) (name : Name) :
    Adds tree ((tree.setNode fresh (.dir ∅)).bindEntry dir name fresh)
      dir name fresh := by
  apply adds_of_unused unused isDirectory name
  simp [child, entries, setNode]

theorem isDir_emptyDir (tree : Tree) (fresh dir : Ino) (name : Name) :
    ((tree.setNode fresh (.dir ∅)).bindEntry dir name fresh).isDir fresh = true := by
  unfold bindEntry
  rw [isDir_changeEntries]
  simp [isDir, entries, setNode]

theorem adds_emptyFile (unused : tree.node fresh = none)
    (isDirectory : tree.isDir dir = true) (name : Name) :
    Adds tree ((tree.setNode fresh (.file [])).bindEntry dir name fresh)
      dir name fresh := by
  apply adds_of_unused unused isDirectory name
  simp [child, entries, setNode]

theorem content_emptyFile (tree : Tree) (fresh dir : Ino) (name : Name) :
    ((tree.setNode fresh (.file [])).bindEntry dir name fresh).content fresh = some [] := by
  unfold bindEntry
  rw [content_changeEntries]
  simp [content, setNode]

end

section

variable {file : Ino} (notDir : tree.isDir file = false) (bytes : Bytes)

include notDir

theorem child_setNode_file (dir : Ino) (name : Name) :
    (tree.setNode file (.file bytes)).child dir name = tree.child dir name := by
  by_cases same : dir = file
  · subst same
    rw [child_eq_none_of_not_isDir notDir]
    simp [child, entries, setNode]
  · simp [child, entries, setNode, same]

theorem isDir_setNode_file (ino : Ino) :
    (tree.setNode file (.file bytes)).isDir ino = tree.isDir ino := by
  by_cases same : ino = file
  · subst same
    rw [notDir]
    simp [isDir, entries, setNode]
  · simp [isDir, entries, setNode, same]

end

theorem content_setNode_file (file : Ino) (bytes : Bytes) (ino : Ino) :
    (tree.setNode file (.file bytes)).content ino =
      if ino = file then some bytes else tree.content ino := by
  by_cases same : ino = file
  · subst same
    simp [content, setNode]
  · simp [content, setNode, same]

theorem node_setNode_of_ne {changed : Ino} (different : ino ≠ changed) (node : Node) :
    (tree.setNode changed node).node ino = tree.node ino := by
  simp [setNode, different]

/-! ## Paths -/

theorem resolveFrom_append (start : Ino) (front back : Path) :
    tree.resolveFrom start (front ++ back) = (tree.resolveFrom start front).bind fun middle =>
        tree.resolveFrom middle back := by
  induction front generalizing start with
  | nil => rfl
  | cons name rest ih =>
    simp only [List.cons_append, resolveFrom]
    cases tree.child start name with
    | none => rfl
    | some next => exact ih next

theorem resolveFrom_mono {larger : Tree}
    (kept : ∀ dir name ino, tree.child dir name = some ino →
      larger.child dir name = some ino) {start : Ino}
    (resolved : tree.resolveFrom start path = some ino) :
    larger.resolveFrom start path = some ino := by
  induction path generalizing start with
  | nil => exact resolved
  | cons name rest ih =>
    obtain ⟨next, child, further⟩ := Option.bind_eq_some_iff.1 resolved
    simp only [resolveFrom, kept start name next child, Option.bind_some]
    exact ih further

theorem resolve_concat (path : Path) (name : Name) : tree.resolve (path ++ [name]) =
      (tree.resolve path).bind fun dir =>
        tree.child dir name := by
  unfold resolve
  rw [resolveFrom_append]
  congr 1
  funext dir
  simp only [resolveFrom]
  cases tree.child dir name <;> rfl

theorem parentOf_concat (resolved : tree.resolve path = some dir)
    (isDirectory : tree.isDir dir = true) (name : Name) :
    tree.parentOf (path ++ [name]) = .ok (dir, name) := by
  unfold parentOf
  simp [resolved, isDirectory]

/-! ## Calls that succeed -/

section

variable {path : Path} {dir : Ino} {name : Name}

section

variable (resolved : tree.resolve path = some dir) (isDirectory : tree.isDir dir = true)
  (absent : tree.child dir name = none)
include resolved isDirectory absent

theorem mkdir_concat (fresh : Ino) :
    tree.mkdir (path ++ [name]) fresh =
      .ok ((tree.setNode fresh (.dir ∅)).bindEntry dir name fresh) := by
  unfold mkdir
  rw [parentOf_concat resolved isDirectory]
  simp [bind, Except.bind, absent, pure, Except.pure]

theorem create_concat (fresh : Ino) :
    tree.create (path ++ [name]) fresh =
      .ok ((tree.setNode fresh (.file [])).bindEntry dir name fresh) := by
  unfold create
  rw [parentOf_concat resolved isDirectory]
  simp [bind, Except.bind, absent, pure, Except.pure]

end

variable {source : Path} {moved : Ino}

theorem link_concat {file : Ino} (found : tree.resolve source = some file)
    (notDir : tree.isDir file = false) (resolved : tree.resolve path = some dir)
    (isDirectory : tree.isDir dir = true) (absent : tree.child dir name = none) :
    tree.link source (path ++ [name]) = .ok (tree.bindEntry dir name file) := by
  unfold link
  rw [found, parentOf_concat resolved isDirectory]
  simp [bind, Except.bind, absent, notDir, pure, Except.pure]

theorem unlink_concat (resolved : tree.resolve path = some dir)
    (isDirectory : tree.isDir dir = true) {existing : Ino}
    (found : tree.child dir name = some existing) : tree.unlink (path ++ [name]) =
      if tree.isDir existing then
        .error .eisdir
      else
        .ok (tree.dropEntry dir name) := by
  unfold unlink
  rw [parentOf_concat resolved isDirectory]
  cases kind : tree.isDir existing <;>
    simp [bind, Except.bind, found, kind, pure, Except.pure, throw, throwThe, MonadExceptOf.throw]

theorem isEmpty_keys_iff {ino : Ino} {found : Entries} (lookup : tree.entries ino = some found) :
    found.keys.isEmpty = true ↔ ∀ name, tree.child ino name = none := by
  rw [List.isEmpty_iff]
  constructor
  · intro none name
    have missing : name ∉ found := by
      rw [AList.mem_keys, none]
      exact List.not_mem_nil
    rw [child, lookup]
    exact AList.lookup_eq_none.2 missing
  · intro noChild
    apply List.eq_nil_iff_forall_not_mem.2
    intro name member
    have missing := noChild name
    rw [child, lookup] at missing
    exact (AList.lookup_eq_none.1 missing) (AList.mem_keys.2 member)

theorem renameOver_eq_ok_iff {existing : Option Ino} : tree.renameOver moved existing = .ok () ↔
      ∀ ino, existing = some ino → tree.isDir ino = tree.isDir moved ∧
          (tree.isDir ino = true → ∀ name, tree.child ino name = none) := by
  cases existing with
  | none => simp [renameOver]
  | some ino =>
    simp only [Option.some.injEq, forall_eq']
    cases movedLookup : tree.entries moved with
    | none =>
      cases lookup : tree.entries ino <;>
        simp [renameOver, isDir, movedLookup, lookup]
    | some movedEntries =>
      cases lookup : tree.entries ino with
      | none => simp [renameOver, isDir, movedLookup, lookup]
      | some found =>
        have empty := isEmpty_keys_iff lookup
        simp only [renameOver, isDir, movedLookup, lookup,
          Option.isSome_some, true_and, forall_const]
        rw [← empty]
        cases found.keys.isEmpty <;> simp

section

variable {targetDir sourceDir : Ino} {target : Path} {sourceName : Name}
  (sourceResolved : tree.resolve source = some sourceDir)
  (sourceIsDir : tree.isDir sourceDir = true)
  (targetResolved : tree.resolve target = some targetDir)
  (targetIsDir : tree.isDir targetDir = true) (found : tree.child sourceDir sourceName = some moved)
include sourceResolved sourceIsDir targetResolved targetIsDir found

/-- Moving an object to another name succeeds if the object there can be
replaced. -/
theorem rename_concat {targetName : Name}
    (different : tree.child targetDir targetName ≠ some moved)
    (outside : (source ++ [sourceName]).isPrefixOf (target ++ [targetName]) = false) :
    tree.rename (source ++ [sourceName]) (target ++ [targetName]) =
      (tree.renameOver moved (tree.child targetDir targetName)).map
        fun _ => (tree.dropEntry sourceDir sourceName).bindEntry
          targetDir targetName moved := by
  unfold rename
  rw [parentOf_concat sourceResolved sourceIsDir, parentOf_concat targetResolved targetIsDir]
  simp only [bind, Except.bind, found, different, outside, Bool.and_false,
    Bool.false_eq_true, if_false]
  cases tree.renameOver moved (tree.child targetDir targetName) <;> rfl

theorem rename_below {targetName : Name} (movedIsDir : tree.isDir moved = true)
    (different : tree.child targetDir targetName ≠ some moved)
    (inside : (source ++ [sourceName]).isPrefixOf (target ++ [targetName]) = true) :
    tree.rename (source ++ [sourceName]) (target ++ [targetName]) = .error .einval := by
  unfold rename
  rw [parentOf_concat sourceResolved sourceIsDir, parentOf_concat targetResolved targetIsDir]
  simp only [bind, Except.bind, found, different, inside, movedIsDir,
    Bool.and_self, if_false, if_true]
  rfl

end

end

theorem modify_resolve {file : Ino} (resolved : tree.resolve path = some file)
    (isFile : tree.content file = some bytes) (change : Bytes → Bytes) : tree.modify path change =
      .ok (tree.setNode file (.file (change bytes))) := by
  unfold modify
  simp [resolved, isFile]

/-! ## Paths that stay -/

def KeepsPaths (before after : Tree) : Prop :=
  ∀ path ino, before.resolve path = some ino → after.resolve path = some ino

theorem KeepsPaths.refl (tree : Tree) : KeepsPaths tree tree :=
  fun _ _ resolved => resolved

theorem KeepsPaths.trans {first second third : Tree} (front : KeepsPaths first second)
    (back : KeepsPaths second third) : KeepsPaths first third :=
  fun path ino resolved => back path ino (front path ino resolved)

theorem keepsPaths_of_child (sameRoot : after.root = tree.root)
    (kept : ∀ dir name ino, tree.child dir name = some ino → after.child dir name = some ino) :
    KeepsPaths tree after := by
  intro path ino resolved
  unfold resolve at resolved ⊢
  rw [sameRoot]
  exact resolveFrom_mono kept resolved

theorem isDir_of_parentOf (parent : tree.parentOf path = .ok (dir, name)) :
    tree.isDir dir = true := by
  unfold parentOf at parent
  cases last : path.getLast? with
  | none =>
    simp only [last] at parent
    cases parent
  | some found =>
    cases resolved : tree.resolve path.dropLast with
    | none =>
      simp only [last, resolved] at parent
      cases parent
    | some ino =>
      simp only [last, resolved] at parent
      split_ifs at parent with isDirectory
      cases parent
      exact isDirectory

theorem adds_of_create (unused : tree.node fresh = none)
    (created : tree.create path fresh = .ok after) : after = tree ∨ ∃ dir name,
        tree.child dir name = none ∧
          Adds tree after dir name fresh := by
  rcases Checked.bind_eq_ok_iff.1 created with
    ⟨⟨dir, name⟩, parent, created⟩
  cases found : tree.child dir name with
  | some ino =>
    simp only [found] at created
    split_ifs at created
    cases created
    exact Or.inl rfl
  | none =>
    simp only [found] at created
    cases created
    exact Or.inr ⟨dir, name, found, adds_emptyFile unused (isDir_of_parentOf parent) name⟩

theorem Adds.keepsPaths (adds : Adds tree after dir name fresh)
    (absent : tree.child dir name = none) : KeepsPaths tree after := by
  apply keepsPaths_of_child adds.root
  intro other tested ino child
  rw [adds.child, if_neg, child]
  intro same
  rw [same.1, same.2, absent] at child
  cases child

theorem keepsPaths_create (unused : tree.node fresh = none)
    (created : tree.create path fresh = .ok after) :
    KeepsPaths tree after := by
  rcases adds_of_create unused created with
    same | ⟨dir, name, found, adds⟩
  · rw [same]
    exact KeepsPaths.refl tree
  · exact adds.keepsPaths found

theorem keepsPaths_setNode_file {file : Ino} (isFile : tree.content file = some bytes)
    (content : Bytes) : KeepsPaths tree (tree.setNode file (.file content)) := by
  have sameRoot : (tree.setNode file (.file content)).root = tree.root := rfl
  apply keepsPaths_of_child sameRoot
  intro dir name ino child
  rw [child_setNode_file (not_isDir_of_content isFile), child]

theorem exists_of_modify {change : Bytes → Bytes} (modified : tree.modify path change = .ok after) :
    ∃ file bytes, tree.content file = some bytes ∧
        after = tree.setNode file (.file (change bytes)) := by
  unfold modify at modified
  cases resolved : tree.resolve path with
  | none =>
    simp only [resolved] at modified
    cases modified
  | some file =>
    cases isFile : tree.content file with
    | none =>
      simp only [resolved, isFile] at modified
      cases modified
    | some bytes =>
      simp only [resolved, isFile] at modified
      cases modified
      exact ⟨file, bytes, isFile, rfl⟩

theorem keepsPaths_modify {change : Bytes → Bytes}
    (modified : tree.modify path change = .ok after) :
    KeepsPaths tree after := by
  obtain ⟨file, bytes, isFile, result⟩ := exists_of_modify modified
  rw [result]
  exact keepsPaths_setNode_file isFile (change bytes)

end

end Posix.Tree
