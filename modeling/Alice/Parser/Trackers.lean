import Alice.Operations

/-! # Trackers of the parser

A duplicated descriptor shares the object of the first, so a position set
through one is seen through the other.  A mapping is a range of addresses,
both ends included. -/

namespace Alice

open Posix (Path)

/-! ## Descriptors -/

inductive FdAttrib where
  | oSync
  | oCloexec
  deriving DecidableEq, Repr

structure FdDetails where
  name : Path
  pos : ℕ
  attribs : List FdAttrib
  inode : Inode
  deriving DecidableEq, Repr

/-- `fd_details`.  Descriptors with the same number in `fds` share one
`Struct`. -/
structure FileDescriptorTracker where
  fds : AList fun _ : ℤ => ℕ
  structs : List FdDetails
  deriving DecidableEq

namespace FileDescriptorTracker

def empty : FileDescriptorTracker :=
  ⟨∅, []⟩

def isWatched (tracker : FileDescriptorTracker) (fd : ℤ) : Bool :=
  (tracker.fds.lookup fd).isSome

/-- `fd_details[fd]`, after the assertion that every getter makes. -/
def details (tracker : FileDescriptorTracker) (fd : ℤ) : Except PyError FdDetails :=
  match (tracker.fds.lookup fd).bind fun i => tracker.structs[i]? with
  | some details => .ok details
  | none => .error .assertionError

def newFdMapping (tracker : FileDescriptorTracker) (fd : ℤ) (details : FdDetails) :
    Except PyError FileDescriptorTracker :=
  if tracker.isWatched fd then
    .error .assertionError
  else
    .ok ⟨tracker.fds.insert fd tracker.structs.length, tracker.structs ++ [details]⟩

def setEquivalent (tracker : FileDescriptorTracker) (oldfd newfd : ℤ) :
    Except PyError FileDescriptorTracker :=
  match tracker.fds.lookup oldfd with
  | none => .error .assertionError
  | some i =>
      if tracker.isWatched newfd then
        .error .assertionError
      else
        .ok { tracker with fds := tracker.fds.insert newfd i }

def removeFdMapping (tracker : FileDescriptorTracker) (fd : ℤ) :
    Except PyError FileDescriptorTracker :=
  if tracker.isWatched fd then
    .ok { tracker with fds := tracker.fds.erase fd }
  else
    .error .assertionError

def setPos (tracker : FileDescriptorTracker) (fd : ℤ) (pos : ℕ) :
    Except PyError FileDescriptorTracker :=
  match tracker.fds.lookup fd with
  | none => .error .assertionError
  | some i =>
      .ok { tracker with
        structs := tracker.structs.modify i fun details =>
          { details with pos := pos } }

/-- Descriptors whose `Struct` satisfies a condition. -/
def fdsWhere (tracker : FileDescriptorTracker) (condition : FdDetails → Bool) : List ℤ :=
  tracker.fds.keys.filter fun fd =>
    ((tracker.fds.lookup fd).bind fun i => tracker.structs[i]?).any condition

def getFdsFname (tracker : FileDescriptorTracker) (name : Path) : List ℤ :=
  tracker.fdsWhere fun details => details.name = name

def getFds (tracker : FileDescriptorTracker) (inode : Inode) : List ℤ :=
  tracker.fdsWhere fun details => details.inode = inode

end FileDescriptorTracker

/-! ## Mappings -/

structure Memregion where
  addrStart : ℕ
  addrEnd : ℕ
  name : Path
  inode : Inode
  offset : ℕ
  deriving DecidableEq, Repr

/-- `memregion_map`, in insertion order; the key of a region is its start. -/
structure MemregionTracker where
  regions : List Memregion
  deriving DecidableEq, Repr

namespace MemregionTracker

/-- The test of `__find_overlap`. -/
def overlaps (addrStart addrEnd : ℕ) (region : Memregion) : Bool :=
  (region.addrStart ≤ addrStart && addrStart ≤ region.addrEnd) ||
    (region.addrStart ≤ addrEnd && addrEnd ≤ region.addrEnd) ||
    (addrStart ≤ region.addrStart && region.addrStart ≤ addrEnd) ||
    (addrStart ≤ region.addrEnd && region.addrEnd ≤ addrEnd)

def put (tracker : MemregionTracker) (region : Memregion) : MemregionTracker :=
  if tracker.regions.any fun old => old.addrStart = region.addrStart then
    ⟨tracker.regions.map fun old =>
      if old.addrStart = region.addrStart then region else old⟩
  else
    ⟨tracker.regions ++ [region]⟩

def insert (tracker : MemregionTracker) (region : Memregion) : Except PyError MemregionTracker :=
  if tracker.regions.any (overlaps region.addrStart region.addrEnd) then
    .error .assertionError
  else
    .ok (tracker.put region)

/-- One round of the loop of `remove_overlaps`, for the region it found. -/
def removeOne (tracker : MemregionTracker) (addrStart addrEnd : ℕ)
    (wholeRegions : Bool) (found : Memregion) : MemregionTracker :=
  let rest : MemregionTracker := ⟨tracker.regions.filter fun old => old.addrStart ≠ found.addrStart⟩
  if wholeRegions then
    rest
  else
    let left :=
      if found.addrStart < addrStart then
        rest.put { found with addrEnd := addrStart - 1 }
      else
        rest
    if addrEnd < found.addrStart then
      left.put { found with
        addrStart := addrEnd + 1
        offset := addrEnd + 1 - found.addrStart + found.offset }
    else
      left

/-- `remove_overlaps`, with a bound on the number of rounds.  The result is
`none` if an overlapping region is left after them. -/
def removeOverlaps (addrStart addrEnd : ℕ) (wholeRegions : Bool) :
    ℕ → MemregionTracker → Option MemregionTracker
  | 0, tracker =>
      if tracker.regions.any (overlaps addrStart addrEnd) then
        none
      else
        some tracker
  | rounds + 1, tracker =>
      match tracker.regions.find? (overlaps addrStart addrEnd) with
      | none => some tracker
      | some found =>
          removeOverlaps addrStart addrEnd wholeRegions rounds
            (tracker.removeOne addrStart addrEnd wholeRegions found)

def fileMapped (tracker : MemregionTracker) (inode : Inode) : Bool :=
  tracker.regions.any fun region => region.inode = inode

/-- The part of an overlapping region that lies in the range. -/
def clip (addrStart addrEnd : ℕ) (region : Memregion) : Memregion :=
  let front :=
    if region.addrStart < addrStart then
      { region with
        addrStart := addrStart
        offset := addrStart - region.addrStart + region.offset }
    else
      region
  if addrEnd < front.addrEnd then
    { front with addrEnd := addrEnd }
  else
    front

/-- The assertions of `resolve_range` about a region and what is left of
it. -/
def clippable (addrStart addrEnd : ℕ) (region : Memregion) : Bool :=
  let clipped := clip addrStart addrEnd region
  (region.addrStart < addrStart → addrStart ≤ region.addrEnd) &&
    (addrEnd < region.addrEnd → max region.addrStart addrStart ≤ addrEnd) &&
    addrStart ≤ clipped.addrStart && clipped.addrEnd ≤ addrEnd

def resolveRange (tracker : MemregionTracker) (addrStart addrEnd : ℕ) :
    Except PyError (List Memregion) :=
  let found :=
    (tracker.regions.filter (overlaps addrStart addrEnd)).insertionSort
      fun left right => left.addrStart ≤ right.addrStart
  if found.all (clippable addrStart addrEnd) then
    .ok (found.map (clip addrStart addrEnd))
  else
    .error .assertionError

end MemregionTracker

/-! ## Processes -/

/-- A `ProcessTracker`.  The working directory is not kept: paths of calls are
given as `original_path` returns them. -/
structure ProcessTracker where
  memtracker : MemregionTracker
  fdtracker : FileDescriptorTracker
  stdtracker : FileDescriptorTracker
  fdtrackerUnwatched : FileDescriptorTracker

/-- The tracker of a new process.  The inode of the standard descriptors is
`None` in the source and is never read. -/
def ProcessTracker.init : ProcessTracker where
  memtracker := ⟨[]⟩
  fdtracker := .empty
  stdtracker :=
    ⟨((AList.insert 2 2 ∅).insert 1 1).insert 0 0,
      [⟨["stdin"], 0, [], 0⟩, ⟨["stdout"], 0, [], 0⟩,
        ⟨["stderr"], 0, [], 0⟩]⟩
  fdtrackerUnwatched := .empty

end Alice
