import Alice.Operations

/-! # The scratchpad of the parser

The traced calls are replayed on a copy of the initial snapshot.  Paths are
relative to it.  An unlinked file is renamed, so that its number is not handed
out again. -/

namespace Alice

open Posix (Ino Path Errno Tree)

/-- The tree with the list of all numbers that occur in it. -/
structure Scratchpad where
  tree : Tree
  inodes : List Ino

/-- What `os.stat` tells about an inode. -/
structure Stat where
  ino : Ino
  size : ℕ
  nlink : ℕ
  isDir : Bool
  deriving DecidableEq, Repr

/-- Size and link count of a directory, which the host file system
chooses. -/
abbrev DirStat := Tree → Ino → ℕ × ℕ

namespace Scratchpad

/-- Number of entries that are bound to an inode. -/
def links (pad : Scratchpad) (ino : Ino) : ℕ :=
  (pad.inodes.map fun directory =>
    match pad.tree.entries directory with
    | some entries => entries.entries.countP fun entry => entry.2 = ino
    | none => 0).sum

def statInode (pad : Scratchpad) (dirStat : DirStat) (ino : Ino) : Option Stat :=
  match pad.tree.node ino with
  | some (.file content) =>
      some ⟨ino, content.length, pad.links ino, false⟩
  | some (.dir _) =>
      some ⟨ino, (dirStat pad.tree ino).1, (dirStat pad.tree ino).2, true⟩
  | none => none

/-- `__replayed_stat`; `none` stands for `False`. -/
def replayedStat (pad : Scratchpad) (dirStat : DirStat) (path : Path) : Option Stat :=
  (pad.tree.resolve path).bind (pad.statInode dirStat)

def parentInode (pad : Scratchpad) (dirStat : DirStat) (path : Path) : Except PyError Ino :=
  match path with
  | [] => .error .attributeError
  | _ :: _ =>
      match pad.replayedStat dirStat path.dropLast with
      | some stat => .ok stat.ino
      | none => .error .attributeError

def osCall (pad : Scratchpad) (call : Tree → Except Errno Tree) : Except PyError Scratchpad :=
  match call pad.tree with
  | .ok tree => .ok { pad with tree := tree }
  | .error errno => .error (.osError errno)

theorem osCall_eq_ok_iff {pad after : Scratchpad} {call : Tree → Except Errno Tree} :
    pad.osCall call = .ok after ↔ ∃ tree, call pad.tree = .ok tree ∧ { pad with tree } = after := by
  unfold osCall
  cases call pad.tree <;> simp

/-- A call that may create an object with the given number. -/
def osCreate (pad : Scratchpad) (fresh : Ino)
    (call : Tree → Except Errno Tree) : Except PyError Scratchpad :=
  (pad.osCall call).map fun created =>
    { created with inodes := created.inodes.insert fresh }

def replayedTruncate (pad : Scratchpad) (path : Path) (newSize : ℕ) : Except PyError Scratchpad :=
  pad.osCall fun tree =>
    tree.modify path fun content => FileContent.ftruncate content newSize

/-- The paths that `find` prints below a directory, itself included, down to
the given depth. -/
def find (pad : Scratchpad) : ℕ → Path → Ino → List (Path × Ino)
  | 0, path, ino => [(path, ino)]
  | depth + 1, path, ino =>
      (path, ino) ::
        match pad.tree.entries ino with
        | some entries =>
            entries.entries.flatMap fun entry =>
              pad.find depth (path ++ [entry.1]) entry.2
        | none => []

/-- `find` on the whole scratchpad.  A path visits no directory twice. -/
def allFiles (pad : Scratchpad) : List (Path × Ino) :=
  pad.find pad.inodes.length [] pad.tree.root

def getFilesFromInode (pad : Scratchpad) (inode : Inode) : List Path :=
  (pad.allFiles.filter fun found => found.2 = inode).map Prod.fst

end Scratchpad

end Alice
