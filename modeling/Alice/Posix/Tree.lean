import Mathlib.Data.List.AList
import Mathlib.Data.UInt
import Alice.FileContent

/-! # Directory trees

A tree is a table of nodes, numbered like inodes, and a root.  The operations
are the POSIX calls on paths, each with the checks that make it fail;
permissions are not modelled, and a node whose last entry is removed stays in
the table under its number. -/

namespace Posix

abbrev Ino := ℕ
abbrev Name := String
abbrev Path := List Name
abbrev Bytes := List UInt8

inductive Errno where
  | enoent
  | eexist
  | enotdir
  | eisdir
  | enotempty
  | einval
  | eperm
  deriving DecidableEq, Repr

abbrev Entries := AList fun _ : Name => Ino

inductive Node where
  | file (content : Bytes)
  | dir (entries : Entries)

structure Tree where
  node : Ino → Option Node
  root : Ino

namespace Tree

def entries (tree : Tree) (directory : Ino) : Option Entries :=
  match tree.node directory with
  | some (.dir entries) => some entries
  | _ => none

def content (tree : Tree) (file : Ino) : Option Bytes :=
  match tree.node file with
  | some (.file content) => some content
  | _ => none

def isDir (tree : Tree) (ino : Ino) : Bool :=
  (tree.entries ino).isSome

def isFile (tree : Tree) (ino : Ino) : Bool :=
  (tree.content ino).isSome

/-- One step of path resolution. -/
def child (tree : Tree) (directory : Ino) (name : Name) : Option Ino :=
  (tree.entries directory).bind fun entries => entries.lookup name

/-- Path resolution from a given node. -/
def resolveFrom (tree : Tree) : Ino → Path → Option Ino
  | start, [] => some start
  | start, name :: rest =>
      (tree.child start name).bind fun next => tree.resolveFrom next rest

def resolve (tree : Tree) (path : Path) : Option Ino :=
  tree.resolveFrom tree.root path

def setNode (tree : Tree) (ino : Ino) (node : Node) : Tree :=
  { tree with node := Function.update tree.node ino (some node) }

def changeEntries (tree : Tree) (directory : Ino) (change : Entries → Entries) : Tree :=
  match tree.entries directory with
  | some entries => tree.setNode directory (.dir (change entries))
  | none => tree

/-- Bind a name in a directory, replacing what it was bound to. -/
def bindEntry (tree : Tree) (directory : Ino) (name : Name) (target : Ino) : Tree :=
  tree.changeEntries directory fun entries => entries.insert name target

def dropEntry (tree : Tree) (directory : Ino) (name : Name) : Tree :=
  tree.changeEntries directory fun entries => entries.erase name

/-- The directory in which the last name of a path is looked up, and that
name. -/
def parentOf (tree : Tree) (path : Path) : Except Errno (Ino × Name) :=
  match path.getLast? with
  | none => .error .einval
  | some name =>
      match tree.resolve path.dropLast with
      | none => .error .enoent
      | some directory =>
          if tree.isDir directory then
            .ok (directory, name)
          else
            .error .enotdir

/-- `mkdir`, with the number the new directory receives. -/
def mkdir (tree : Tree) (path : Path) (fresh : Ino) : Except Errno Tree := do
  let (directory, name) ← tree.parentOf path
  if (tree.child directory name).isSome then
    throw .eexist
  else
    pure ((tree.setNode fresh (.dir ∅)).bindEntry directory name fresh)

/-- `open` with `O_CREAT | O_WRONLY`, with the number a new file receives. -/
def create (tree : Tree) (path : Path) (fresh : Ino) : Except Errno Tree := do
  let (directory, name) ← tree.parentOf path
  match tree.child directory name with
  | some ino => if tree.isDir ino then throw .eisdir else pure tree
  | none =>
      pure ((tree.setNode fresh (.file [])).bindEntry directory name fresh)

def link (tree : Tree) (source target : Path) : Except Errno Tree := do
  match tree.resolve source with
  | none => throw .enoent
  | some ino =>
      if tree.isDir ino then
        throw .eperm
      else
        let (directory, name) ← tree.parentOf target
        if (tree.child directory name).isSome then
          throw .eexist
        else
          pure (tree.bindEntry directory name ino)

def unlink (tree : Tree) (path : Path) : Except Errno Tree := do
  let (directory, name) ← tree.parentOf path
  match tree.child directory name with
  | none => throw .enoent
  | some ino =>
      if tree.isDir ino then
        throw .eisdir
      else
        pure (tree.dropEntry directory name)

/-- What `rename` checks about the object the target name is bound to. -/
def renameOver (tree : Tree) (ino : Ino) : Option Ino → Except Errno Unit
  | none => .ok ()
  | some existing =>
      match tree.entries ino, tree.entries existing with
      | some _, none => .error .enotdir
      | some _, some entries =>
          if entries.keys.isEmpty then .ok () else .error .enotempty
      | none, some _ => .error .eisdir
      | none, none => .ok ()

def rename (tree : Tree) (source target : Path) : Except Errno Tree := do
  let (sourceDir, sourceName) ← tree.parentOf source
  let (targetDir, targetName) ← tree.parentOf target
  match tree.child sourceDir sourceName with
  | none => throw .enoent
  | some ino =>
      if tree.child targetDir targetName = some ino then
        pure tree
      else if tree.isDir ino && source.isPrefixOf target then
        throw .einval
      else
        tree.renameOver ino (tree.child targetDir targetName)
        pure ((tree.dropEntry sourceDir sourceName).bindEntry targetDir targetName ino)

/-- Apply a change of content to the file a path leads to. -/
def modify (tree : Tree) (path : Path) (change : Bytes → Bytes) : Except Errno Tree :=
  match tree.resolve path with
  | none => .error .enoent
  | some ino =>
      match tree.content ino with
      | none => .error .eisdir
      | some content => .ok (tree.setNode ino (.file (change content)))

/-- The trees differ in the numbers of their nodes only. -/
structure Equivalent (left right : Tree) : Prop where
  isDir : ∀ path, (left.resolve path).map left.isDir = (right.resolve path).map right.isDir
  content : ∀ path, (left.resolve path).bind left.content = (right.resolve path).bind right.content
  links : ∀ path path',
    left.resolve path = left.resolve path' ↔
      right.resolve path = right.resolve path'

end Tree

end Posix
