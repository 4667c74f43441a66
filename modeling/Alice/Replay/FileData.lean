import Alice.Operations

/-! # Data operations on one inode

The branch for `GARBAGE` and `ZEROS` is read as overwriting exactly the range
of the operation, with bytes drawn at random in the first case. -/

namespace Alice

open Posix (Bytes)
open FileContent

abbrev DumpFiles := String → Option Bytes

/-- The buffer that a `write` operation writes, given the random bytes it
draws. -/
def WriteOp.buffer (dumps : DumpFiles) (garbage : ℕ → UInt8) (op : WriteOp) :
    Except PyError Bytes :=
  match op.specialWrite with
  | some .garbage => .ok ((List.range op.count).map garbage)
  | some .zeros => .ok (List.replicate op.count 0)
  | none =>
      match op.dumpFile with
      | none => .error .typeError
      | some dumpFile =>
          match dumps dumpFile with
          | none => .error (.osError .enoent)
          | some dump => .ok ((dump.drop op.dumpOffset).take op.count)

/-- The content of `file` after a disk operation, where `data` is what the
operation writes if it is a `write`. -/
def DiskOp.applyTo (file : Inode) (data content : Bytes) : DiskOp → Bytes
  | .write op =>
      if op.inode = file then pwrite content op.offset data else content
  | .truncate inode _ finalSize _ =>
      if inode = file then ftruncate content finalSize else content
  | .sync .. => content
  | .createDirEntry .. => content
  | .deleteDirEntry .. => content
  | .stdout .. => content

/-- The content of `file` after the disk operations at the given positions,
replayed in order on `initial`.  Operation `i` writes `data i`. -/
def contentAfter (ops : List TracedOp) (data : ℕ → Bytes) (file : Inode)
    (initial : Bytes) (positions : List ℕ) : Bytes :=
  positions.foldl (fun content i =>
      match ops[i]? with
      | some traced => traced.op.applyTo file (data i) content
      | none => content)
    initial

end Alice
