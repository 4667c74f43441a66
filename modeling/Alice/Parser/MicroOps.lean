import Alice.Parser.Scratchpad
import Alice.Parser.Trackers
import Alice.DefaultFs.DiskOps
import Alice.Replay.FileData

/-! # `__get_micro_op`

A line is given with its arguments decoded: paths as `original_path` returns
them, and for the write family the place in the dump file.  It comes with the
inode number handed out if the call creates an object, and with the `uuid`
drawn if it removes one.  The lines are those of one process. -/

namespace Alice

open Posix (Ino Path Bytes)

/-! ## Lines of a trace -/

inductive OpenFlag where
  | oWronly
  | oRdwr
  | oCreat
  | oTrunc
  | oAppend
  | oSync
  | oDsync
  | oRsync
  | oCloexec
  | oDirectory
  | oAsync
  deriving DecidableEq, Repr

/-- Where the data of a write lies. -/
structure Dump where
  file : String
  offset : ℕ
  deriving DecidableEq, Repr

/-- The protection and flags of `mmap` that are looked at. -/
structure MapFlags where
  protWrite : Bool
  mapShared : Bool
  mapAnonymous : Bool
  mapFixed : Bool
  mapGrowsdown : Bool
  deriving DecidableEq, Repr

inductive Call where
  | openFile (path : Path) (flags : List OpenFlag) (mode : Option String)
  | openat (path : Path) (flags : List OpenFlag) (mode : Option String)
  | write (fd : ℤ) (count : ℕ) (dump : Dump)
  | writev (fd : ℤ) (iovcnt count : ℕ) (dump : Dump)
  | pwrite (fd : ℤ) (count pos : ℕ) (dump : Dump)
  | pwritev (fd : ℤ) (iovcnt pos count : ℕ) (dump : Dump)
  | close (fd : ℤ)
  | link (source dest : Path)
  | rename (source dest : Path)
  | unlink (path : Path)
  | lseek (fd : ℤ)
  | truncate (path : Path) (size : ℕ)
  | ftruncate (fd : ℤ) (size : ℕ)
  | fallocate (fd : ℤ) (mode : String) (offset count : ℕ)
  | fsync (fd : ℤ)
  | fdatasync (fd : ℤ)
  | sync
  | mkdir (path : Path) (mode : String)
  | rmdir (path : Path)
  | mmap (addr length : ℕ) (flags : MapFlags) (fd : ℤ) (offset : ℕ)
  | munmap (addr length : ℕ)
  | msync (addr length : ℕ)
  | mwrite (addr length : ℕ) (dump : Dump)
  | dup (oldfd : ℤ)
  | dup2 (oldfd : ℤ)
  | fcntlDupfd (fd : ℤ)
  | symlink (source dest : Path)
  deriving DecidableEq, Repr

structure Line where
  call : Call
  ret : ℤ
  fresh : Ino
  uuid : String
  deriving DecidableEq, Repr

/-! ## State -/

/-- The configuration and the host. -/
structure ParserEnv where
  basePath : Path
  dirStat : DirStat
  dumps : DumpFiles
  ignoreMmap : Bool
  /-- The process is in `mtrace_recorded`. -/
  mtraceRecorded : Bool

/-- `is_interesting` with the default `interesting_path_string`. -/
def ParserEnv.isInteresting (env : ParserEnv) (path : Path) : Bool :=
  env.basePath.isPrefixOf path

/-- `replayed_path` of an interesting path, relative to the scratchpad. -/
def ParserEnv.replayedPath (env : ParserEnv) (path : Path) : Path :=
  path.drop env.basePath.length

/-- The scratchpad, the tracker of the process, and the two global tables of
the module: a pair in `myTracker` is a new descriptor with the one it was
duplicated from. -/
structure ParserState where
  pad : Scratchpad
  tracker : ProcessTracker
  myTracker : List (ℤ × ℤ)
  directorySymlinks : List Ino

/-- The state after a line and the operations it yields. -/
abbrev Emission := Except PyError (ParserState × List MicroOpKind)

namespace ParserState

variable (env : ParserEnv) (state : ParserState)

def stat? (path : Path) : Option Stat :=
  state.pad.replayedStat env.dirStat (env.replayedPath path)

/-- An attribute of what `__replayed_stat` returns, which may be `False`. -/
def stat (path : Path) : Except PyError Stat :=
  match state.stat? env path with
  | some stat => .ok stat
  | none => .error .attributeError

def parentInode (path : Path) : Except PyError Ino :=
  state.pad.parentInode env.dirStat (env.replayedPath path)

def replayedTruncate (path : Path) (newSize : ℕ) : Except PyError ParserState :=
  (state.pad.replayedTruncate (env.replayedPath path) newSize).map
    fun pad => { state with pad := pad }

def withFds (fdtracker : FileDescriptorTracker) : ParserState :=
  { state with tracker := { state.tracker with fdtracker := fdtracker } }

def withUnwatched (unwatched : FileDescriptorTracker) : ParserState :=
  { state with
    tracker := { state.tracker with fdtrackerUnwatched := unwatched } }

def withRegions (memtracker : MemregionTracker) : ParserState :=
  { state with tracker := { state.tracker with memtracker := memtracker } }

/-- `os.rename(path, path + '.deleted_' + uuid)` on the scratchpad. -/
def moveAway (path : Path) (uuid : String) : Except PyError ParserState :=
  let replayed := env.replayedPath path
  let away := replayed.dropLast ++ [basename replayed ++ ".deleted_" ++ uuid]
  (state.pad.osCall fun tree => tree.rename replayed away).map fun pad =>
    { state with pad := pad }

/-! ## Branches -/

def openBranch (line : Line) (name : Path) (flags : List OpenFlag)
    (mode : Option String) : Emission := do
  let writable := OpenFlag.oWronly ∈ flags ∨ OpenFlag.oRdwr ∈ flags
  let cloexec :=
    if OpenFlag.oCloexec ∈ flags then [FdAttrib.oCloexec] else []
  if env.isInteresting name then
    assertThat (writable → OpenFlag.oAsync ∉ flags ∧ OpenFlag.oDirectory ∉ flags)
    if 0 ≤ line.ret ∧ OpenFlag.oDirectory ∉ flags then
      let newlyCreated := (state.stat? env name).isNone
      let (state, created) ←
        if newlyCreated then do
          assertThat (OpenFlag.oCreat ∈ flags)
          assertThat writable
          assertThat (state.tracker.fdtracker.getFdsFname name = [])
          match mode with
          | none => throw .assertionError
          | some mode =>
              if (digitsValue 8 mode.toList).isNone then
                throw .valueError
              let pad ← state.pad.osCreate line.fresh fun tree =>
                tree.create (env.replayedPath name) line.fresh
              let state := { state with pad := pad }
              let stat ← state.stat env name
              let parent ← state.parentInode env name
              pure (state, [MicroOpKind.creat name (.text mode) stat.ino parent])
        else
          pure (state, [])
      let inode := (← state.stat env name).ino
      let (state, truncated) ←
        if OpenFlag.oTrunc ∈ flags then do
          assertThat writable
          if newlyCreated then
            pure (state, [])
          else do
            let stat ← state.stat env name
            pure (← state.replayedTruncate env name 0, [MicroOpKind.trunc inode stat.size 0])
        else
          pure (state, [])
      let attribs :=
        (if OpenFlag.oSync ∈ flags ∨ OpenFlag.oDsync ∈ flags ∨
            OpenFlag.oRsync ∈ flags then [FdAttrib.oSync] else []) ++ cloexec
      let pos ←
        if OpenFlag.oAppend ∈ flags then
          (state.stat env name).map Stat.size
        else
          pure 0
      let fds ← state.tracker.fdtracker.newFdMapping line.ret ⟨name, pos, attribs, inode⟩
      pure (state.withFds fds, created ++ truncated)
    else
      pure (state, [])
  else if 0 ≤ line.ret then
    let fds ← state.tracker.fdtrackerUnwatched.newFdMapping line.ret ⟨name, 0, cloexec, 0⟩
    pure (state.withUnwatched fds, [])
  else
    pure (state, [])

def readDump (dump : Dump) (count : ℕ) : Except PyError Bytes :=
  match env.dumps dump.file with
  | some content => .ok ((content.drop dump.offset).take count)
  | none => .error (.osError .enoent)

/-- The branch of the write family.  `thirdArg` is what `args[2]` evaluates
to, and `position` is given by the calls that have it as an argument. -/
def writeBranch (line : Line) (fd : ℤ) (thirdArg count : ℕ) (position : Option ℕ)
    (dump : Dump) : Emission := do
  if (fd, 1) ∈ state.myTracker then
    let data ← readDump env dump thirdArg
    pure (state, [.stdout data])
  else if state.tracker.fdtracker.isWatched fd then
    let details ← state.tracker.fdtracker.details fd
    let pos := position.getD details.pos
    assertThat (line.ret = count)
    let name := details.name
    let inode := details.inode
    let size := (← state.stat env name).size
    let synced (offset count : ℕ) : List MicroOpKind :=
      if FdAttrib.oSync ∈ details.attribs then
        [.fileSyncRange inode offset count]
      else
        []
    let overwriteSize :=
      if pos < size then
        if pos + count < size then count else size - pos
      else
        0
    assertThat (pos < size → 0 < overwriteSize)
    let overwritten :=
      if pos < size then
        [.write ⟨inode, pos, overwriteSize, dump.file, dump.offset⟩] ++ synced pos overwriteSize
      else
        []
    let start := pos + overwriteSize
    let rest := count - overwriteSize
    let (state, extended) ←
      if size < start then do
        pure (← state.replayedTruncate env name size, [MicroOpKind.trunc inode size start])
      else
        pure (state, [])
    let size := max size start
    let (state, appended) ←
      if size < start + rest then do
        pure (← state.replayedTruncate env name (start + rest),
          [MicroOpKind.append ⟨inode, start, rest, dump.file,
            dump.offset + overwriteSize⟩] ++ synced start rest)
      else
        pure (state, [])
    let fds ←
      match position with
      | some _ => pure state.tracker.fdtracker
      | none => state.tracker.fdtracker.setPos fd (start + rest)
    pure (state.withFds fds, overwritten ++ extended ++ appended)
  else
    pure (state, [])

def closeBranch (line : Line) (fd : ℤ) : Emission := do
  if line.ret = -1 then
    pure (state, [])
  else if state.tracker.fdtracker.isWatched fd then
    pure (state.withFds (← state.tracker.fdtracker.removeFdMapping fd), [])
  else if state.tracker.fdtrackerUnwatched.isWatched fd then
    pure (state.withUnwatched (← state.tracker.fdtrackerUnwatched.removeFdMapping fd), [])
  else
    pure (state, [])

def linkBranch (line : Line) (source dest : Path) : Emission := do
  if line.ret = -1 then
    pure (state, [])
  else if env.isInteresting source then
    assertThat (env.isInteresting dest = true)
    assertThat (state.stat? env dest = none)
    assertThat ((state.stat? env source).isSome = true)
    let stat ← state.stat env source
    let _ ← state.parentInode env source
    let destParent ← state.parentInode env dest
    let pad ← state.pad.osCall fun tree =>
      tree.link (env.replayedPath source) (env.replayedPath dest)
    pure ({ state with pad := pad }, [.link dest stat.ino destParent])
  else
    assertThat (env.isInteresting dest = false)
    pure (state, [])

def renameBranch (line : Line) (source dest : Path) : Emission := do
  if line.ret = -1 then
    pure (state, [])
  else if env.isInteresting source then
    assertThat (env.isInteresting dest = true)
    assertThat ((state.stat? env source).isSome = true)
    let sourceStat ← state.stat env source
    let destStat := state.stat? env dest
    let destHardlinks := (destStat.map Stat.nlink).getD 0
    let info : RenameInfo :=
      { source := source
        dest := dest
        sourceInode := sourceStat.ino
        destInode := destStat.map Stat.ino
        sourceParent := ← state.parentInode env source
        destParent := ← state.parentInode env dest
        sourceSize := sourceStat.size
        destSize := (destStat.map Stat.size).getD 0
        destHardlinks := destHardlinks }
    let state ←
      match destStat with
      | some stat =>
          if stat.nlink = 1 then do
            assertThat (state.tracker.fdtracker.getFds stat.ino = [])
            assertThat (state.tracker.memtracker.fileMapped stat.ino = false)
            state.moveAway env dest line.uuid
          else
            pure state
      | none => pure state
    let pad ← state.pad.osCall fun tree =>
      tree.rename (env.replayedPath source) (env.replayedPath dest)
    pure ({ state with pad := pad }, [.rename info])
  else
    pure (state, [])

def unlinkBranch (line : Line) (name : Path) : Emission := do
  if line.ret = -1 then
    pure (state, [])
  else if env.isInteresting name then
    assertThat ((state.stat? env name).isSome = true)
    let stat ← state.stat env name
    let parent ← state.parentInode env name
    if stat.isDir then
      assertThat (stat.ino ∈ state.directorySymlinks)
      pure (← state.moveAway env name line.uuid, [.rmdir name stat.ino parent])
    else if 1 < stat.nlink then
      let pad ← state.pad.osCall fun tree =>
        tree.unlink (env.replayedPath name)
      pure ({ state with pad := pad }, [.unlink name stat.ino parent stat.size stat.nlink])
    else
      pure (← state.moveAway env name line.uuid,
        [.unlink name stat.ino parent stat.size stat.nlink])
  else
    pure (state, [])

def lseekBranch (line : Line) (fd : ℤ) : Emission := do
  if line.ret ≠ -1 ∧ state.tracker.fdtracker.isWatched fd then
    pure (state.withFds (← state.tracker.fdtracker.setPos fd line.ret.toNat), [])
  else
    pure (state, [])

def truncateBranch (line : Line) (name : Path) (size : ℕ) : Emission := do
  assertThat (line.ret ≠ -1)
  if env.isInteresting name then
    assertThat ((state.stat? env name).isSome = true)
    let stat ← state.stat env name
    pure (← state.replayedTruncate env name size, [.trunc stat.ino stat.size size])
  else
    pure (state, [])

/-- The size of the first file that `__get_files_from_inode` finds. -/
def sizeByInode (inode : Inode) : Except PyError ℕ :=
  match state.pad.getFilesFromInode inode with
  | [] => .error .assertionError
  | file :: _ =>
      match state.pad.replayedStat env.dirStat file with
      | some stat => .ok stat.size
      | none => .error .attributeError

def ftruncateBranch (line : Line) (fd : ℤ) (size : ℕ) : Emission := do
  assertThat (line.ret ≠ -1)
  if state.tracker.fdtracker.isWatched fd then
    let details ← state.tracker.fdtracker.details fd
    let initSize ← state.sizeByInode env details.inode
    pure (← state.replayedTruncate env details.name size, [.trunc details.inode initSize size])
  else
    pure (state, [])

/-- The `fallocate` branch reads the local variable `name` before any
assignment to it. -/
def fallocateBranch (line : Line) (fd : ℤ) (mode : String) : Emission := do
  if line.ret ≠ -1 ∧ state.tracker.fdtracker.isWatched fd then
    assertThat (mode = "0")
    throw .nameError
  else
    pure (state, [])

/-- The branch of `fsync` and `fdatasync`; `kind` builds the operation. -/
def fsyncBranch (kind : Inode → ℕ → MicroOpKind) (line : Line) (fd : ℤ) : Emission := do
  assertThat (line.ret = 0)
  if state.tracker.fdtracker.isWatched fd then
    let details ← state.tracker.fdtracker.details fd
    let size ← state.sizeByInode env details.inode
    pure (state, [kind details.inode size])
  else
    pure (state, [])

def syncBranch : Emission := do
  let files ← state.pad.allFiles.mapM fun found =>
    match state.pad.replayedStat env.dirStat found.1 with
    | some stat => pure (SyncedFile.mk stat.ino stat.size)
    | none => throw PyError.attributeError
  pure (state, [.sync files])

def mkdirBranch (line : Line) (name : Path) (mode : String) : Emission := do
  if line.ret ≠ -1 ∧ env.isInteresting name then
    let mode := if mode = "0777" then "0o777" else mode
    let _ ← evalMode mode
    let pad ← state.pad.osCreate line.fresh fun tree =>
      tree.mkdir (env.replayedPath name) line.fresh
    let state := { state with pad := pad }
    let stat ← state.stat env name
    let parent ← state.parentInode env name
    pure (state, [.mkdir name mode stat.ino parent])
  else
    pure (state, [])

def rmdirBranch (line : Line) (name : Path) : Emission := do
  if line.ret ≠ -1 ∧ env.isInteresting name then
    let stat ← state.stat env name
    let parent ← state.parentInode env name
    pure (← state.moveAway env name line.uuid, [.rmdir name stat.ino parent])
  else
    pure (state, [])

/-- `remove_overlaps` on the mappings.  Each round takes away a region, so a
loop that is longer than the list of regions does not end. -/
def removeOverlaps (addrStart addrEnd : ℕ) (wholeRegions : Bool) : Except PyError ParserState :=
  let memtracker := state.tracker.memtracker
  match MemregionTracker.removeOverlaps addrStart addrEnd wholeRegions
      memtracker.regions.length memtracker with
  | some memtracker => .ok (state.withRegions memtracker)
  | none => .error .divergence

/-- The `mmap` branch.  After a failed call it returns `None`, which the
caller cannot append. -/
def mmapBranch (line : Line) (addr length : ℕ) (flags : MapFlags) (fd : ℤ)
    (offset : ℕ) : Emission := do
  if line.ret = -1 then
    throw .typeError
  else
    let addrStart := line.ret.toNat
    let addrEnd := addrStart + length - 1
    let state ←
      if flags.mapFixed then do
        assertThat (addr = addrStart)
        assertThat (flags.mapGrowsdown = false)
        state.removeOverlaps addrStart addrEnd false
      else
        pure state
    if !flags.mapAnonymous && state.tracker.fdtracker.isWatched fd &&
        flags.mapShared && flags.protWrite then
      let details ← state.tracker.fdtracker.details fd
      let fileSize := (← state.stat env details.name).size
      assertThat (fileSize ≤ offset + length)
      assertThat (env.ignoreMmap = true ∨ env.mtraceRecorded = true)
      assertThat (flags.mapGrowsdown = false)
      let memtracker ← state.tracker.memtracker.insert
        ⟨addrStart, addrEnd, details.name, details.inode, offset⟩
      pure (state.withRegions memtracker, [])
    else
      pure (state, [])

def munmapBranch (line : Line) (addr length : ℕ) : Emission := do
  if line.ret ≠ -1 then
    pure (← state.removeOverlaps addr (addr + length - 1) true, [])
  else
    pure (state, [])

def msyncBranch (line : Line) (addr length : ℕ) : Emission := do
  if line.ret ≠ -1 then
    let regions ← state.tracker.memtracker.resolveRange addr (addr + length - 1)
    pure (state, regions.map fun region =>
      .fileSyncRange region.inode region.offset (region.addrEnd - region.addrStart + 1))
  else
    pure (state, [])

def mwriteBranch (addr length : ℕ) (dump : Dump) : Emission := do
  let regions ← state.tracker.memtracker.resolveRange addr (addr + length - 1)
  assertThat (∀ region ∈ regions, 0 < region.addrEnd - region.addrStart + 1)
  pure (state, regions.map fun region =>
    .write ⟨region.inode, region.offset,
      region.addrEnd - region.addrStart + 1, dump.file,
      dump.offset + (region.addrStart - addr)⟩)

def dupBranch (replaces : Bool) (line : Line) (oldfd : ℤ) : Emission := do
  if line.ret = -1 then
    pure (state, [])
  else
    let state ←
      if replaces then
        if state.tracker.fdtracker.isWatched line.ret then do
          pure (state.withFds (← state.tracker.fdtracker.removeFdMapping line.ret))
        else if state.tracker.fdtrackerUnwatched.isWatched line.ret then do
          pure (state.withUnwatched (← state.tracker.fdtrackerUnwatched.removeFdMapping line.ret))
        else
          pure state
      else
        pure state
    if state.tracker.fdtracker.isWatched oldfd then
      pure (state.withFds (← state.tracker.fdtracker.setEquivalent oldfd line.ret), [])
    else if state.tracker.fdtrackerUnwatched.isWatched oldfd then
      pure (state.withUnwatched
        (← state.tracker.fdtrackerUnwatched.setEquivalent oldfd line.ret),
        [])
    else
      pure (state, [])

/-- `fcntl` with `F_DUPFD` or `F_DUPFD_CLOEXEC`. -/
def fcntlDupfdBranch (line : Line) (fd : ℤ) : Emission := do
  let duplicated := { state with myTracker := (line.ret, fd) :: state.myTracker }
  if line.ret = -1 then
    pure (state, [])
  else if state.tracker.fdtracker.isWatched fd then
    pure (duplicated.withFds (← state.tracker.fdtracker.setEquivalent fd line.ret), [])
  else if state.tracker.fdtrackerUnwatched.isWatched fd then
    pure (duplicated.withUnwatched
      (← state.tracker.fdtrackerUnwatched.setEquivalent fd line.ret), [])
  else if state.tracker.stdtracker.isWatched fd then
    let std ← state.tracker.stdtracker.setEquivalent fd line.ret
    pure ({ duplicated with
      tracker := { state.tracker with stdtracker := std } }, [])
  else
    pure (state, [])

def symlinkBranch (line : Line) (source dest : Path) : Emission := do
  if line.ret ≠ -1 ∧ env.isInteresting dest then
    let sourceIsDir := env.isInteresting source && ((state.stat? env source).any Stat.isDir)
    if sourceIsDir then
      let pad ← state.pad.osCreate line.fresh fun tree =>
        tree.mkdir (env.replayedPath dest) line.fresh
      let state := { state with pad := pad }
      let stat ← state.stat env dest
      let parent ← state.parentInode env dest
      pure ({ state with
          directorySymlinks := state.directorySymlinks ++ [stat.ino] },
        [.mkdir dest "0777" stat.ino parent])
    else
      let pad ← state.pad.osCreate line.fresh fun tree =>
        tree.create (env.replayedPath dest) line.fresh
      let state := { state with pad := pad }
      let stat ← state.stat env dest
      let parent ← state.parentInode env dest
      pure (state, [.creat dest (.number 0o666) stat.ino parent])
  else
    pure (state, [])

end ParserState

/-! ## All calls -/

/-- `parsed_line.syscall`, for the calls that yield operations. -/
def Call.syscall : Call → Option Syscall
  | openFile .. => some .openFile
  | openat .. => some .openat
  | write .. => some .write
  | writev .. => some .writev
  | pwrite .. => some .pwrite
  | pwritev .. => some .pwritev
  | link .. => some .link
  | rename .. => some .rename
  | unlink .. => some .unlink
  | truncate .. => some .truncate
  | ftruncate .. => some .ftruncate
  | fallocate .. => some .fallocate
  | fsync .. => some .fsync
  | fdatasync .. => some .fdatasync
  | sync => some .sync
  | mkdir .. => some .mkdir
  | rmdir .. => some .rmdir
  | msync .. => some .msync
  | mwrite .. => some .mwrite
  | symlink .. => some .symlink
  | close .. | lseek .. | mmap .. | munmap .. | dup .. | dup2 ..
  | fcntlDupfd .. => none

/-- The operations of one line, without the call they come from. -/
def emit (env : ParserEnv) (state : ParserState) (line : Line) : Emission :=
  match line.call with
  | .openFile path flags mode | .openat path flags mode =>
      state.openBranch env line path flags mode
  | .write fd count dump =>
      state.writeBranch env line fd count count none dump
  | .writev fd iovcnt count dump =>
      state.writeBranch env line fd iovcnt count none dump
  | .pwrite fd count pos dump =>
      state.writeBranch env line fd count count (some pos) dump
  | .pwritev fd iovcnt pos count dump =>
      state.writeBranch env line fd iovcnt count (some pos) dump
  | .close fd => state.closeBranch line fd
  | .link source dest => state.linkBranch env line source dest
  | .rename source dest => state.renameBranch env line source dest
  | .unlink path => state.unlinkBranch env line path
  | .lseek fd => state.lseekBranch line fd
  | .truncate path size => state.truncateBranch env line path size
  | .ftruncate fd size => state.ftruncateBranch env line fd size
  | .fallocate fd mode _ _ => state.fallocateBranch line fd mode
  | .fsync fd => state.fsyncBranch env .fsync line fd
  | .fdatasync fd => state.fsyncBranch env .fdatasync line fd
  | .sync => state.syncBranch env
  | .mkdir path mode => state.mkdirBranch env line path mode
  | .rmdir path => state.rmdirBranch env line path
  | .mmap addr length flags fd offset =>
      state.mmapBranch env line addr length flags fd offset
  | .munmap addr length => state.munmapBranch line addr length
  | .msync addr length => state.msyncBranch line addr length
  | .mwrite addr length dump => state.mwriteBranch addr length dump
  | .dup oldfd => state.dupBranch false line oldfd
  | .dup2 oldfd => state.dupBranch true line oldfd
  | .fcntlDupfd fd => state.fcntlDupfdBranch line fd
  | .symlink source dest => state.symlinkBranch env line source dest

/-- `__get_micro_op`.  Every operation remembers the call. -/
def getMicroOp (env : ParserEnv) (state : ParserState) (line : Line) :
    Except PyError (ParserState × List MicroOp) := do
  let (state, kinds) ← emit env state line
  match line.call.syscall with
  | some syscall => pure (state, kinds.map fun kind => ⟨kind, syscall⟩)
  | none => pure (state, [])

/-- The loop of `get_micro_ops` over the rows of one process. -/
def getMicroOps (env : ParserEnv) : ParserState → List Line → Except PyError (List MicroOp)
  | _, [] => .ok []
  | state, line :: rest => do
      let (state, here) ← getMicroOp env state line
      pure (here ++ (← getMicroOps env state rest))

/-- The state of the parser before the first row. -/
def ParserState.init (pad : Scratchpad) : ParserState :=
  ⟨pad, .init, [], []⟩

end Alice
