import Alice.Posix.Calls

/-! # The shape of a tree

No call looks at data to decide whether it fails, so a call on the shape is
the shape of the call. -/

namespace Posix

open Checked

def Node.shape : Node → Node
  | .file _ => .file []
  | .dir entries => .dir entries

namespace Tree

def shape (tree : Tree) : Tree :=
  { tree with node := fun ino => (tree.node ino).map Node.shape }

variable (tree : Tree)

@[simp]
theorem entries_shape (ino : Ino) : tree.shape.entries ino = tree.entries ino := by
  unfold entries
  simp only [shape]
  cases tree.node ino with
  | none => rfl
  | some node => cases node <;> rfl

@[simp]
theorem content_shape (ino : Ino) :
    tree.shape.content ino = (tree.content ino).map fun _ => [] := by
  unfold content
  simp only [shape]
  cases tree.node ino with
  | none => rfl
  | some node => cases node <;> rfl

@[simp]
theorem isDir_shape (ino : Ino) : tree.shape.isDir ino = tree.isDir ino := by
  rw [isDir, isDir, entries_shape]

@[simp]
theorem child_shape (dir : Ino) (name : Name) :
    tree.shape.child dir name = tree.child dir name := by
  rw [child, child, entries_shape]

@[simp]
theorem resolve_shape (path : Path) : tree.shape.resolve path = tree.resolve path := by
  have step : ∀ (path : Path) (start : Ino),
      tree.shape.resolveFrom start path = tree.resolveFrom start path := by
    intro path
    induction path with
    | nil =>
      intro start
      rfl
    | cons name rest ih =>
      intro start
      simp only [resolveFrom, child_shape, ih]
  exact step path tree.root

@[simp]
theorem parentOf_shape (path : Path) : tree.shape.parentOf path = tree.parentOf path := by
  simp only [parentOf, resolve_shape, isDir_shape]

theorem shape_setNode (ino : Ino) (node : Node) :
    (tree.setNode ino node).shape = tree.shape.setNode ino node.shape := by
  simp only [shape, setNode, mk.injEq, and_true]
  funext other
  by_cases same : other = ino
  · subst same
    rw [Function.update_self, Function.update_self]
    rfl
  · rw [Function.update_of_ne same, Function.update_of_ne same]

theorem shape_changeEntries (dir : Ino) (change : Entries → Entries) :
    (tree.changeEntries dir change).shape = tree.shape.changeEntries dir change := by
  unfold changeEntries
  rw [entries_shape]
  cases tree.entries dir with
  | none => rfl
  | some entries => exact shape_setNode ..

theorem shape_bindEntry (dir : Ino) (name : Name) (target : Ino) :
    (tree.bindEntry dir name target).shape = tree.shape.bindEntry dir name target :=
  shape_changeEntries ..

theorem shape_dropEntry (dir : Ino) (name : Name) : (tree.dropEntry dir name).shape =
      tree.shape.dropEntry dir name :=
  shape_changeEntries ..

@[simp]
theorem shape_shape : tree.shape.shape = tree.shape := by
  simp only [shape, mk.injEq, and_true]
  funext ino
  cases tree.node ino with
  | none => rfl
  | some node => cases node <;> rfl

/-! ## Calls -/

theorem mkdir_shape (path : Path) (fresh : Ino) :
    tree.shape.mkdir path fresh = (tree.mkdir path fresh).map shape := by
  simp only [mkdir, parentOf_shape, child_shape, bind_map_eq]
  congr 1
  funext found
  cases (tree.child found.1 found.2).isSome with
  | true => rfl
  | false =>
    change Except.ok _ = Except.ok _
    rw [shape_bindEntry, shape_setNode]
    rfl

theorem create_shape (path : Path) (fresh : Ino) :
    tree.shape.create path fresh = (tree.create path fresh).map shape := by
  simp only [create, parentOf_shape, child_shape, isDir_shape, bind_map_eq]
  congr 1
  funext found
  cases tree.child found.1 found.2 with
  | some ino =>
    simp only
    cases tree.isDir ino <;> rfl
  | none =>
    change Except.ok _ = Except.ok _
    rw [shape_bindEntry, shape_setNode]
    rfl

theorem link_shape (source target : Path) :
    tree.shape.link source target = (tree.link source target).map shape := by
  simp only [link, resolve_shape, parentOf_shape, child_shape, isDir_shape]
  cases tree.resolve source with
  | none => rfl
  | some ino =>
    simp only
    cases tree.isDir ino with
    | true => rfl
    | false =>
      simp only [Bool.false_eq_true, if_false, bind_map_eq]
      congr 1
      funext found
      cases (tree.child found.1 found.2).isSome with
      | true => rfl
      | false =>
        change Except.ok _ = Except.ok _
        rw [shape_bindEntry]

theorem unlink_shape (path : Path) : tree.shape.unlink path = (tree.unlink path).map shape := by
  simp only [unlink, parentOf_shape, child_shape, isDir_shape, bind_map_eq]
  congr 1
  funext found
  cases tree.child found.1 found.2 with
  | none => rfl
  | some ino =>
    simp only
    cases tree.isDir ino with
    | true => rfl
    | false =>
      change Except.ok _ = Except.ok _
      rw [shape_dropEntry]

theorem rename_shape (source target : Path) : tree.shape.rename source target =
      (tree.rename source target).map shape := by
  have sameCheck : ∀ ino existing,
      tree.shape.renameOver ino existing = tree.renameOver ino existing := by
    intro ino existing
    cases existing with
    | none => rfl
    | some existing => simp only [renameOver, entries_shape]
  simp only [rename, parentOf_shape, child_shape, isDir_shape, sameCheck, bind_map_eq]
  congr 1
  funext old
  congr 1
  funext new
  cases tree.child old.1 old.2 with
  | none => rfl
  | some ino =>
    by_cases same : tree.child new.1 new.2 = some ino
    · simp only [same, if_true]
      rfl
    · simp only [same, if_false]
      cases tree.isDir ino && source.isPrefixOf target with
      | true => rfl
      | false =>
        simp only [Bool.false_eq_true, if_false, bind_map_eq]
        congr 1
        funext _
        change Except.ok _ = Except.ok _
        rw [shape_bindEntry, shape_dropEntry]

theorem modify_shape (path : Path) (change : Bytes → Bytes) : (tree.modify path change).map shape =
      tree.shape.modify path fun _ => [] := by
  simp only [modify, resolve_shape, content_shape]
  cases tree.resolve path with
  | none => rfl
  | some ino =>
    simp only
    cases tree.content ino with
    | none => rfl
    | some bytes =>
      change Except.ok _ = Except.ok _
      rw [shape_setNode]
      rfl

end Tree

end Posix
