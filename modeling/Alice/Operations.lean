import Alice.Posix.Tree

/-! # Logical operations and disk operations

Both are `Struct` objects in the source; a constructor here carries the
attributes that some function reads.  Inode numbers are those of the traced
file system. -/

namespace Alice

open Posix (Name Path Bytes Errno)

abbrev Inode := ℕ

/-- How a function of the tool can fail to return. -/
inductive PyError where
  | assertionError
  | nameError
  | keyError
  | indexError
  | typeError
  | syntaxError
  | valueError
  | attributeError
  | osError (errno : Errno)
  /-- A loop of the tool does not end. -/
  | divergence
  deriving DecidableEq, Repr

/-- An `assert` statement. -/
def assertThat (condition : Prop) [Decidable condition] : Except PyError Unit :=
  if condition then .ok () else .error .assertionError

/-! ## Numerals -/

def digitValue (digit : Char) : Option ℕ :=
  if '0' ≤ digit ∧ digit ≤ '9' then
    some (digit.toNat - '0'.toNat)
  else if 'a' ≤ digit ∧ digit ≤ 'f' then
    some (digit.toNat - 'a'.toNat + 10)
  else
    none

/-- The value of a text of digits in the given base, `none` for other
texts. -/
def digitsValue (base : ℕ) : List Char → Option ℕ
  | [] => none
  | digits =>
      digits.foldl (fun value digit => do
          let value ← value
          let digit ← digitValue digit
          if digit < base then some (base * value + digit) else none)
        (some 0)

/-- `eval` of an integer literal.  A decimal literal other than zero may not
begin with the digit zero. -/
def evalMode (mode : String) : Except PyError ℕ :=
  match mode.toList with
  | '0' :: 'o' :: digits =>
      match digitsValue 8 digits with
      | some value => .ok value
      | none => .error .syntaxError
  | digits =>
      match digitsValue 10 digits with
      | some 0 => .ok 0
      | some (value + 1) =>
          if digits.head? = some '0' then
            .error .syntaxError
          else
            .ok (value + 1)
      | none => .error .syntaxError

/-- `safe_string_to_int`, on texts without a sign. -/
def safeStringToInt (text : String) : Except PyError ℕ :=
  let parsed : Option ℕ :=
    match text.toList with
    | '0' :: 'x' :: digits => digitsValue 16 digits
    | '0' :: 'o' :: digits => digitsValue 8 digits
    | '0' :: digits => digitsValue 8 ('0' :: digits)
    | digits => digitsValue 10 digits
  if text.isEmpty then
    .error .indexError
  else
    match parsed with
    | some value => .ok value
    | none => .error .valueError

/-! ## Attributes -/

/-- `os.path.basename` of a normalised absolute path. -/
def basename (path : Path) : Name :=
  path.getLastD ""

/-- `Struct.TYPE_DIR` and `Struct.TYPE_FILE`. -/
inductive EntryType where
  | typeDir
  | typeFile
  deriving DecidableEq, Repr

/-- A creation mode, either as the tracer printed it or already evaluated. -/
inductive Mode where
  | text (printed : String)
  | number (value : ℕ)
  deriving DecidableEq, Repr

/-- The names in `parsed_line.syscall` of calls that yield logical
operations. -/
inductive Syscall where
  | openFile
  | openat
  | write
  | writev
  | pwrite
  | pwritev
  | link
  | rename
  | unlink
  | truncate
  | ftruncate
  | fallocate
  | fsync
  | fdatasync
  | sync
  | mkdir
  | rmdir
  | msync
  | mwrite
  | symlink
  deriving DecidableEq, Repr

/-- A piece of a dump file that is to be written to an inode. -/
structure DataRange where
  inode : Inode
  offset : ℕ
  count : ℕ
  dumpFile : String
  dumpOffset : ℕ
  deriving DecidableEq, Repr

/-- An element of `hidden_files`. -/
structure SyncedFile where
  inode : Inode
  size : ℕ
  deriving DecidableEq, Repr

/-- Attributes of a `rename`.  `dest_inode` is `False` when there is no
destination. -/
structure RenameInfo where
  source : Path
  dest : Path
  sourceInode : Inode
  destInode : Option Inode
  sourceParent : Inode
  destParent : Inode
  sourceSize : ℕ
  destSize : ℕ
  destHardlinks : ℕ
  deriving DecidableEq, Repr

inductive MicroOpKind where
  | creat (name : Path) (mode : Mode) (inode parent : Inode)
  | link (dest : Path) (sourceInode destParent : Inode)
  | unlink (name : Path) (inode parent : Inode) (size hardlinks : ℕ)
  | rename (info : RenameInfo)
  | trunc (inode : Inode) (initialSize finalSize : ℕ)
  | append (range : DataRange)
  | write (range : DataRange)
  | mkdir (name : Path) (mode : String) (inode parent : Inode)
  | rmdir (name : Path) (inode parent : Inode)
  | fsync (inode : Inode) (size : ℕ)
  | fdatasync (inode : Inode) (size : ℕ)
  | fileSyncRange (inode : Inode) (offset count : ℕ)
  | sync (hiddenFiles : List SyncedFile)
  | stdout (data : Bytes)
  deriving DecidableEq, Repr

/-- A logical operation with the call it was parsed from. -/
structure MicroOp where
  kind : MicroOpKind
  syscall : Syscall
  deriving DecidableEq, Repr

/-- `special_write`. -/
inductive SpecialWrite where
  | garbage
  | zeros
  deriving DecidableEq, Repr

/-- Attributes of a `write` disk operation.  `override_data` is left out: it
is `None` wherever it is set. -/
structure WriteOp where
  inode : Inode
  offset : ℕ
  count : ℕ
  dumpFile : Option String
  dumpOffset : ℕ
  specialWrite : Option SpecialWrite
  atomicity : String
  deriving DecidableEq, Repr

inductive DiskOp where
  | write (op : WriteOp)
  | truncate (inode : Inode) (initialSize finalSize : ℕ) (atomicity : String)
  | sync (inode : Inode) (offset count : ℕ)
  | createDirEntry (parent : Inode) (entry : Path) (inode : Inode)
      (mode : Option Mode) (entryType : EntryType)
  | deleteDirEntry (parent : Inode) (entry : Path) (inode : Inode)
      (entryType : EntryType) (atomicity : Option String)
  | stdout (data : Bytes)
  deriving DecidableEq, Repr

namespace DiskOp

def atomicity? : DiskOp → Option String
  | write op => some op.atomicity
  | truncate _ _ _ atomicity => some atomicity
  | deleteDirEntry _ _ _ _ atomicity => atomicity
  | sync .. => none
  | createDirEntry .. => none
  | stdout .. => none

/-- The assignment `disk_op.atomicity = text`, on the operations to which the
source makes it. -/
def setAtomicity (text : String) : DiskOp → DiskOp
  | write op => write { op with atomicity := text }
  | truncate inode initialSize finalSize _ =>
      truncate inode initialSize finalSize text
  | deleteDirEntry parent entry inode entryType _ =>
      deleteDirEntry parent entry inode entryType (some text)
  | op => op

/-- Operations that `get_deps` treats as ordering points. -/
def isBarrier : DiskOp → Bool
  | sync .. => true
  | stdout .. => true
  | _ => false

end DiskOp

/-- A disk operation with `hidden_micro_op.hidden_parsed_line.syscall`. -/
structure TracedOp where
  op : DiskOp
  syscall : Syscall
  deriving DecidableEq, Repr

end Alice
