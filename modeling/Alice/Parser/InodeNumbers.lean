import Alice.Parser.FailedCalls
import Alice.Parser.Renames
import Alice.Posix.Rooted

/-! # Inode numbers

The file system of the scratchpad may hand out a number again once its object
is gone, so the parser renames what the traced process removes.  The module
says when two created objects receive the same number. -/

namespace Alice

open Checked ParserState Scratchpad
open Posix (Ino Name Path Tree)

/-! ## Numbers in use -/

namespace Scratchpad

def bound (pad : Scratchpad) (directory : Ino) : List Ino :=
  match pad.tree.entries directory with
  | some entries => entries.entries.map Sigma.snd
  | none => []

def numbers (pad : Scratchpad) : List Ino :=
  pad.tree.root :: pad.inodes.flatMap pad.bound

/-- The tree is rooted, and the list has its directories once each. -/
structure Sound (pad : Scratchpad) : Prop where
  rooted : pad.tree.Rooted
  nodup : pad.inodes.Nodup
  listed : ∀ ino, pad.tree.isDir ino = true → ino ∈ pad.inodes

variable {pad after : Scratchpad} {dir ino : Ino} {name : Name}

theorem mem_bound_iff : ino ∈ pad.bound dir ↔
      ∃ name, pad.tree.child dir name = some ino := by
  unfold bound Tree.child
  cases pad.tree.entries dir with
  | none => simp
  | some entries =>
    simp only [List.mem_map, Option.bind_some, ← Option.mem_def, AList.mem_lookup_iff]
    constructor
    · rintro ⟨⟨name, target⟩, member, same⟩
      subst same
      exact ⟨name, member⟩
    · rintro ⟨name, member⟩
      exact ⟨⟨name, ino⟩, member, rfl⟩

theorem Sound.mem_numbers_iff (sound : pad.Sound) : ino ∈ pad.numbers ↔ pad.tree.Reaches ino := by
  rw [numbers, List.mem_cons, List.mem_flatMap]
  constructor
  · rintro (isRoot | ⟨dir, -, isBound⟩)
    · rw [isRoot]
      exact Tree.reaches_root pad.tree
    · obtain ⟨name, child⟩ := mem_bound_iff.1 isBound
      exact sound.rooted.reaches_of_child child
  · intro reached
    refine Tree.Reaches.induct ?_ ?_ reached
    · exact Or.inl rfl
    · intro dir name ino _ _ child
      exact Or.inr ⟨dir, sound.listed dir (Tree.isDir_of_child child),
        mem_bound_iff.2 ⟨name, child⟩⟩

/-! ## Link counts -/

private theorem links_eq : pad.links ino = (pad.inodes.flatMap pad.bound).count ino := by
  rw [List.count_flatMap]
  unfold links bound
  congr 2
  funext dir
  simp only [Function.comp_apply]
  cases pad.tree.entries dir with
  | none => rfl
  | some entries =>
    rw [List.count_eq_countP, List.countP_map]
    rfl

theorem links_pos (sound : pad.Sound) (child : pad.tree.child dir name = some ino) :
    0 < pad.links ino := by
  rw [links_eq, List.count_pos_iff, List.mem_flatMap]
  exact ⟨dir, sound.listed dir (Tree.isDir_of_child child), mem_bound_iff.2 ⟨name, child⟩⟩

private theorem count_bound_le
    (only : ∀ tested, pad.tree.child dir tested = some ino → tested = name) :
    (pad.bound dir).count ino ≤ 1 := by
  unfold bound
  unfold Tree.child at only
  cases lookup : pad.tree.entries dir with
  | none => exact Nat.zero_le 1
  | some entries =>
    rw [lookup] at only
    have onlyEntry : ∀ entry ∈ entries.entries, decide (entry.2 = ino) = true →
          (entry == (⟨name, ino⟩ : Sigma fun _ : Name => Ino)) = true := by
      rintro ⟨tested, target⟩ member same
      have isTarget : target = ino := by simpa using same
      subst isTarget
      have sameName := only tested (AList.mem_lookup_iff.2 member)
      subst sameName
      exact beq_self_eq_true _
    simp only [List.count_eq_countP, List.countP_map]
    refine le_trans (List.countP_mono_left onlyEntry) ?_
    exact List.nodup_iff_count_le_one.1 entries.nodupKeys.nodup _

theorem exists_other_entry (sound : pad.Sound) (linked : pad.links ino ≠ 1)
    (child : pad.tree.child dir name = some ino) :
    ∃ parent last, pad.tree.child parent last = some ino ∧ ¬(parent = dir ∧ last = name) := by
  by_contra alone
  have only : ∀ parent last, pad.tree.child parent last = some ino →
      parent = dir ∧ last = name := by
    intro parent last bound
    by_contra other
    exact alone ⟨parent, last, bound, other⟩
  have elsewhere : ∀ parent, parent ≠ dir → parent ∈ pad.inodes →
      (pad.bound parent).count ino = 0 := by
    intro parent different _
    rw [List.count_eq_zero]
    intro isBound
    obtain ⟨tested, bound⟩ := mem_bound_iff.1 isBound
    exact different (only parent tested bound).1
  have atMost : pad.links ino ≤ 1 := by
    rw [links_eq, List.count_flatMap]
    calc
      _ = pad.inodes.count dir • (pad.bound dir).count ino :=
          List.sum_map_eq_nsmul_single dir _ elsewhere
      _ ≤ 1 * 1 := Nat.mul_le_mul (List.nodup_iff_count_le_one.1 sound.nodup dir)
            (count_bound_le fun tested bound => (only dir tested bound).2)
  have := links_pos sound child
  omega

/-! ## Changes of the scratchpad -/

/-- After the change the objects in `made` are reached, and all others that
are reached were reached before.  An object that is no longer reached is
`lost`. -/
structure Advances (pad after : Scratchpad) (made : List Ino) (lost : Ino → Prop) : Prop where
  sound : after.Sound
  older : ∀ ino, after.tree.Reaches ino → pad.tree.Reaches ino ∨ ino ∈ made
  reached : ∀ ino ∈ made, after.tree.Reaches ino
  kept : ∀ ino, pad.tree.Reaches ino → after.tree.Reaches ino ∨ lost ino

section

variable {made : List Ino} {lost lost' : Ino → Prop}

theorem advances_refl (sound : pad.Sound) : Advances pad pad [] lost where
  sound := sound
  older _ reached := Or.inl reached
  reached _ member := absurd member List.not_mem_nil
  kept _ reached := Or.inl reached

theorem Advances.mono (advances : Advances pad after made lost)
    (weaker : ∀ ino, lost ino → lost' ino) : Advances pad after made lost' where
  sound := advances.sound
  older := advances.older
  reached := advances.reached
  kept ino reached := (advances.kept ino reached).imp_right (weaker ino)

theorem Advances.trans {middle : Scratchpad} (front : Advances pad middle made fun _ => False)
    (back : Advances middle after [] lost) (different : ∀ ino ∈ made, ¬ lost ino) :
    Advances pad after made lost where
  sound := back.sound
  older ino reached := by
    rcases back.older ino reached with reachedBefore | impossible
    · exact front.older ino reachedBefore
    · exact absurd impossible List.not_mem_nil
  reached ino member := (back.kept ino (front.reached ino member)).resolve_right
      (different ino member)
  kept ino reached := back.kept ino ((front.kept ino reached).resolve_right id)

theorem advances_tree {tree : Tree} (sound : pad.Sound) (rooted : tree.Rooted)
    (isDir : ∀ ino, tree.isDir ino = pad.tree.isDir ino)
    (older : ∀ ino, tree.Reaches ino → pad.tree.Reaches ino)
    (kept : ∀ ino, pad.tree.Reaches ino → tree.Reaches ino ∨ lost ino) :
    Advances pad { pad with tree := tree } [] lost where
  sound := ⟨rooted, sound.nodup, fun ino isDirectory =>
      sound.listed ino ((isDir ino).symm.trans isDirectory)⟩
  older ino reached := Or.inl (older ino reached)
  reached _ member := absurd member List.not_mem_nil
  kept := kept

variable {path : Path} {fresh : Ino}

theorem advances_replayedTruncate {newSize : ℕ} (sound : pad.Sound)
    (ran : pad.replayedTruncate path newSize = .ok after) : Advances pad after [] lost := by
  obtain ⟨tree, modified, rfl⟩ := osCall_eq_ok_iff.1 ran
  obtain ⟨file, bytes, isFile, result⟩ := Tree.exists_of_modify modified
  subst result
  obtain ⟨rooted, reaches⟩ := sound.rooted.of_setNode_file isFile
    (FileContent.ftruncate bytes newSize)
  apply advances_tree sound rooted
  · exact Tree.isDir_setNode_file (Tree.not_isDir_of_content isFile) _
  · intro ino
    exact (reaches ino).1
  · intro ino reached
    exact Or.inl ((reaches ino).2 reached)

theorem advances_placed {tree : Tree} (sound : pad.Sound)
    (placed : Tree.Rooted.Placed pad.tree tree path fresh) :
    Advances pad ⟨tree, pad.inodes.insert fresh⟩ [fresh] lost where
  sound := by
    refine ⟨placed.rooted, sound.nodup.insert, ?_⟩
    intro ino isDirectory
    by_cases isNew : ino = fresh
    · rw [isNew]
      exact List.mem_insert_self
    · rw [placed.isDir ino isNew] at isDirectory
      exact List.mem_insert_of_mem (sound.listed ino isDirectory)
  older ino reached := by
    rw [List.mem_singleton]
    exact (placed.reaches ino).1 reached
  reached ino member := (placed.reaches ino).2 (Or.inr (List.mem_singleton.1 member))
  kept ino reached := Or.inl ((placed.reaches ino).2 (Or.inl reached))

theorem resolve_of_mkdir
    (ran : pad.osCreate fresh (fun tree => tree.mkdir path fresh) = .ok after) :
    pad.tree.resolve path = none := by
  obtain ⟨called, made, -⟩ := map_eq_ok_iff.1 ran
  obtain ⟨tree, madeTree, -⟩ := osCall_eq_ok_iff.1 made
  obtain ⟨⟨dir, name⟩, parent, madeTree⟩ := bind_eq_ok_iff.1 madeTree
  rw [Tree.resolve_of_parentOf parent]
  cases found : pad.tree.child dir name with
  | none => rfl
  | some ino =>
    simp only [found] at madeTree
    cases madeTree

theorem advances_mkdir (sound : pad.Sound) (unused : fresh ∉ pad.numbers)
    (ran : pad.osCreate fresh (fun tree => tree.mkdir path fresh) = .ok after) :
    Advances pad after [fresh] lost ∧ after.tree.resolve path = some fresh := by
  rw [sound.mem_numbers_iff] at unused
  obtain ⟨called, made, result⟩ := map_eq_ok_iff.1 ran
  subst result
  obtain ⟨tree, madeTree, rfl⟩ := osCall_eq_ok_iff.1 made
  have placed := sound.rooted.placed_of_mkdir unused madeTree
  exact ⟨advances_placed sound placed, placed.resolve⟩

/-- The number is that of a new file or that of the file which is there. -/
theorem advances_create
    {path : Path} {fresh : Ino} (sound : pad.Sound)
    (unused : pad.tree.resolve path = none → fresh ∉ pad.numbers)
    (ran : pad.osCreate fresh (fun tree => tree.create path fresh) = .ok after) :
    Advances pad after [(pad.tree.resolve path).getD fresh] lost ∧ after.tree.resolve path =
        some ((pad.tree.resolve path).getD fresh) := by
  obtain ⟨called, made, result⟩ := map_eq_ok_iff.1 ran
  subst result
  obtain ⟨tree, madeTree, rfl⟩ := osCall_eq_ok_iff.1 made
  cases found : pad.tree.resolve path with
  | none =>
    have unreached : ¬ pad.tree.Reaches fresh := by
      rw [← sound.mem_numbers_iff]
      exact unused found
    have placed := sound.rooted.placed_of_create unreached found madeTree
    exact ⟨advances_placed sound placed, placed.resolve⟩
  | some ino =>
    have same := Tree.eq_of_create found madeTree
    subst same
    refine ⟨⟨⟨sound.rooted, sound.nodup.insert, ?_⟩, ?_, ?_, ?_⟩, found⟩
    · intro other isDirectory
      exact List.mem_insert_of_mem (sound.listed other isDirectory)
    · intro other reached
      exact Or.inl reached
    · intro other member
      rw [List.mem_singleton.1 member]
      exact ⟨path, found⟩
    · intro other reached
      exact Or.inl reached

theorem advances_link {source target : Path} (sound : pad.Sound)
    (ran : pad.osCall (fun tree => tree.link source target) = .ok after) :
    Advances pad after [] lost := by
  obtain ⟨tree, linked, rfl⟩ := osCall_eq_ok_iff.1 ran
  obtain ⟨rooted, reaches, isDir⟩ := sound.rooted.of_link linked
  apply advances_tree sound rooted isDir
  · intro ino
    exact (reaches ino).1
  · intro ino reached
    exact Or.inl ((reaches ino).2 reached)

theorem advances_unlink (sound : pad.Sound)
    (linked : ∀ ino, pad.tree.resolve path = some ino → pad.links ino ≠ 1)
    (ran : pad.osCall (fun tree => tree.unlink path) = .ok after) : Advances pad after [] lost := by
  obtain ⟨tree, unlinked, rfl⟩ := osCall_eq_ok_iff.1 ran
  obtain ⟨dir, name, ino, resolved, bound, notDir, drops⟩ := Tree.exists_of_unlink unlinked
  obtain ⟨rooted, older, kept⟩ := sound.rooted.of_drops drops bound notDir
  obtain ⟨parent, last, boundAgain, elsewhere⟩ :=
    exists_other_entry sound (linked ino resolved) bound
  apply advances_tree sound rooted drops.isDir older
  intro other reached
  left
  refine Tree.Reaches.induct ?_ ?_ reached
  · rw [← drops.root]
    exact Tree.reaches_root tree
  · intro above tested found _ _ child
    by_cases same : above = dir ∧ tested = name
    · rw [same.1, same.2, bound] at child
      cases child
      exact kept parent last ino boundAgain elsewhere
    · exact kept above tested found child same

/-- What a `rename` may lose: a directory, or a file with one entry, that
another object replaces. -/
def LostByRename (pad : Scratchpad) (source target : Path) (ino : Ino) : Prop :=
  pad.tree.resolve target = some ino ∧ pad.tree.resolve source ≠ some ino ∧
    (pad.tree.isDir ino = true ∨ pad.links ino = 1)

theorem advances_rename {source target : Path} (sound : pad.Sound)
    (ran : pad.osCall (fun tree => tree.rename source target) = .ok after) :
    Advances pad after [] (pad.LostByRename source target) := by
  obtain ⟨tree, renamed, rfl⟩ := osCall_eq_ok_iff.1 ran
  rcases Tree.rename_cases renamed with
    ⟨same, -⟩ | ⟨sourceDir, targetDir, moved, sourceName, targetName, done⟩
  · subst same
    exact advances_refl sound
  · obtain ⟨rooted, older, forward, elsewhere⟩ := sound.rooted.of_rename done
    apply advances_tree sound rooted done.moves.isDir older
    intro ino reached
    rcases forward ino reached with reachedAfter | replaced
    · exact Or.inl reachedAfter
    · by_cases survives : pad.links ino ≠ 1 ∧ pad.tree.isDir ino = false
      · obtain ⟨parent, last, boundAgain, notTarget⟩ := exists_other_entry sound survives.1 replaced
        exact Or.inl (elsewhere parent last ino boundAgain notTarget)
      · right
        refine ⟨?_, ?_, ?_⟩
        · rw [done.places.resolve_target, replaced]
        · rw [done.places.resolve_source]
          intro same
          cases same
          exact done.different replaced
        · by_contra neither
          rw [not_or] at neither
          exact survives ⟨neither.2, by simpa using neither.1⟩

end

end Scratchpad

/-! ## Created objects -/

/-- The number of the object that an operation creates. -/
def MicroOpKind.created? : MicroOpKind → Option Ino
  | .creat _ _ inode _ => some inode
  | .mkdir _ _ inode _ => some inode
  | _ => none

/-- The numbers in the `creat` and `mkdir` operations. -/
def createdInodes (ops : List MicroOpKind) : List Ino :=
  ops.filterMap MicroOpKind.created?

theorem createdInodes_append (front back : List MicroOpKind) : createdInodes (front ++ back) =
      createdInodes front ++ createdInodes back :=
  List.filterMap_append

namespace ParserState

variable
  {env : ParserEnv} {state after : ParserState} {line : Line}
  {ops : List MicroOpKind}

/-! ## Calls that create nothing and remove nothing -/

/-- The scratchpad is left alone, and nothing is created. -/
structure Quiet (state after : ParserState) (ops : List MicroOpKind) : Prop where
  pad : after.pad = state.pad
  created : createdInodes ops = []

theorem pad_withFds (fds : FileDescriptorTracker) : (state.withFds fds).pad = state.pad :=
  rfl

theorem pad_withUnwatched (fds : FileDescriptorTracker) :
    (state.withUnwatched fds).pad = state.pad :=
  rfl

variable {fd : ℤ} {addr length size : ℕ} {name : Path} {lost : Ino → Prop}

theorem closeBranch_quiet (ran : state.closeBranch line fd = .ok (after, ops)) :
    Quiet state after ops := by
  simp only [closeBranch] at ran
  constructor <;>
    grind [bind_eq_ok_iff, pure_eq_ok_iff, pad_withFds, pad_withUnwatched, createdInodes]

theorem dupBranch_quiet {replaces : Bool} {oldfd : ℤ}
    (ran : state.dupBranch replaces line oldfd = .ok (after, ops)) :
    Quiet state after ops := by
  simp only [dupBranch] at ran
  constructor <;>
    grind [bind_eq_ok_iff, pure_eq_ok_iff, pad_withFds, pad_withUnwatched, createdInodes]

theorem fcntlDupfdBranch_quiet (ran : state.fcntlDupfdBranch line fd = .ok (after, ops)) :
    Quiet state after ops := by
  simp only [fcntlDupfdBranch] at ran
  constructor <;>
    grind [bind_eq_ok_iff, pure_eq_ok_iff, pad_withFds, pad_withUnwatched, createdInodes]

theorem lseekBranch_quiet (ran : state.lseekBranch line fd = .ok (after, ops)) :
    Quiet state after ops := by
  simp only [lseekBranch] at ran
  constructor <;>
    grind [bind_eq_ok_iff, pure_eq_ok_iff, pad_withFds, createdInodes]

/-- Only the memory regions may have changed, and no operation creates or
prints anything. -/
structure Aside (state after : ParserState) (ops : List MicroOpKind) : Prop where
  regions : ∃ memtracker, after = state.withRegions memtracker
  plain : ∀ op ∈ ops, op.created? = none ∧ ∀ data, op ≠ .stdout data

theorem aside_of_plain (plain : ∀ op ∈ ops, op.created? = none ∧ ∀ data, op ≠ .stdout data) :
    Aside state state ops :=
  ⟨⟨state.tracker.memtracker, rfl⟩, plain⟩

theorem aside_refl (state : ParserState) : Aside state state [] :=
  aside_of_plain (by simp)

theorem Aside.trans {middle : ParserState} (front : Aside state middle [])
    (back : Aside middle after ops) : Aside state after ops := by
  obtain ⟨first, isMiddle⟩ := front.regions
  obtain ⟨second, isAfter⟩ := back.regions
  subst isMiddle isAfter
  exact ⟨⟨second, rfl⟩, back.plain⟩

theorem Aside.quiet (aside : Aside state after ops) : Quiet state after ops := by
  obtain ⟨memtracker, isAfter⟩ := aside.regions
  subst isAfter
  exact ⟨rfl, List.filterMap_eq_nil_iff.2 fun op member => (aside.plain op member).1⟩

theorem fallocateBranch_aside {mode : String}
    (ran : state.fallocateBranch line fd mode = .ok (after, ops)) : Aside state after ops := by
  unfold fallocateBranch at ran
  split_ifs at ran
  · obtain ⟨-, -, ran⟩ := bind_eq_ok_iff.1 ran
    cases ran
  · cases ran
    exact aside_refl state

theorem fsyncBranch_aside {kind : Inode → ℕ → MicroOpKind} (plain : ∀ inode size,
      (kind inode size).created? = none ∧ ∀ data, kind inode size ≠ .stdout data)
    (ran : state.fsyncBranch env kind line fd = .ok (after, ops)) : Aside state after ops := by
  obtain ⟨-, -, ran⟩ := bind_eq_ok_iff.1 ran
  split_ifs at ran
  · obtain ⟨details, -, ran⟩ := bind_eq_ok_iff.1 ran
    obtain ⟨size, -, ran⟩ := bind_eq_ok_iff.1 ran
    cases ran
    exact aside_of_plain (by simpa using plain details.inode size)
  · cases ran
    exact aside_refl state

theorem syncBranch_aside (ran : state.syncBranch env = .ok (after, ops)) :
    Aside state after ops := by
  obtain ⟨files, -, ran⟩ := bind_eq_ok_iff.1 ran
  cases ran
  exact aside_of_plain (by simp [MicroOpKind.created?])

theorem msyncBranch_aside (ran : state.msyncBranch line addr length = .ok (after, ops)) :
    Aside state after ops := by
  unfold msyncBranch at ran
  split_ifs at ran
  · obtain ⟨regions, -, ran⟩ := bind_eq_ok_iff.1 ran
    cases ran
    exact aside_of_plain (by simp [MicroOpKind.created?])
  · cases ran
    exact aside_refl state

theorem mwriteBranch_aside {dump : Dump}
    (ran : state.mwriteBranch addr length dump = .ok (after, ops)) : Aside state after ops := by
  obtain ⟨regions, -, ran⟩ := bind_eq_ok_iff.1 ran
  obtain ⟨-, -, ran⟩ := bind_eq_ok_iff.1 ran
  cases ran
  exact aside_of_plain (by simp [MicroOpKind.created?])

theorem aside_withRegions (memtracker : MemregionTracker) :
    Aside state (state.withRegions memtracker) [] :=
  ⟨⟨memtracker, rfl⟩, by simp⟩

theorem aside_removeOverlaps {addrStart addrEnd : ℕ} {wholeRegions : Bool}
    (ran : state.removeOverlaps addrStart addrEnd wholeRegions = .ok after) :
    Aside state after [] := by
  simp only [removeOverlaps] at ran
  split at ran
  · cases ran
    exact aside_withRegions _
  · cases ran

theorem munmapBranch_aside (ran : state.munmapBranch line addr length = .ok (after, ops)) :
    Aside state after ops := by
  unfold munmapBranch at ran
  split_ifs at ran
  · obtain ⟨cleared, clearing, ran⟩ := bind_eq_ok_iff.1 ran
    cases ran
    exact aside_removeOverlaps clearing
  · cases ran
    exact aside_refl state

theorem mmapBranch_aside {offset : ℕ} {flags : MapFlags}
    (ran : state.mmapBranch env line addr length flags fd offset = .ok (after, ops)) :
    Aside state after ops := by
  by_cases failed : line.ret = -1
  · simp only [mmapBranch, if_pos failed] at ran
    cases ran
  · by_cases fixed : flags.mapFixed = true
    · simp only [mmapBranch, if_neg failed, if_pos fixed] at ran
      obtain ⟨-, -, ran⟩ := bind_eq_ok_iff.1 ran
      obtain ⟨-, -, ran⟩ := bind_eq_ok_iff.1 ran
      obtain ⟨cleared, clearing, ran⟩ := bind_eq_ok_iff.1 ran
      apply (aside_removeOverlaps clearing).trans
      grind [bind_eq_ok_iff, pure_eq_ok_iff, aside_withRegions, aside_refl]
    · simp only [mmapBranch, if_neg failed, if_neg fixed, pure_bind] at ran
      grind [bind_eq_ok_iff, pure_eq_ok_iff, aside_withRegions, aside_refl]

/-- An open that fails, or of a path that is not followed, or of a
directory. -/
theorem openBranch_quiet {flags : List OpenFlag} {mode : Option String}
    (unwatched : ¬(env.isInteresting name = true ∧ 0 ≤ line.ret ∧ OpenFlag.oDirectory ∉ flags))
    (ran : state.openBranch env line name flags mode = .ok (after, ops)) :
    Quiet state after ops := by
  rw [openBranch] at ran
  constructor <;>
    grind [bind_eq_ok_iff, pure_eq_ok_iff, pad_withUnwatched, createdInodes]

/-! ## Calls that change contents -/

theorem advances_replayedTruncate {path : Path} {newSize : ℕ} (sound : state.pad.Sound)
    (ran : state.replayedTruncate env path newSize = .ok after) :
    Scratchpad.Advances state.pad after.pad [] lost := by
  obtain ⟨pad, truncated, result⟩ := map_eq_ok_iff.1 ran
  subst result
  exact advances_replayedTruncate sound truncated

/-- A branch does nothing, or truncates one file and says so. -/
def Truncates (env : ParserEnv) (size : ℕ) (state after : ParserState)
    (ops : List MicroOpKind) : Prop :=
  after = state ∧ ops = [] ∨ ∃ path inode initSize,
    state.replayedTruncate env path size = .ok after ∧ ops = [.trunc inode initSize size]

theorem truncateBranch_truncates
    (ran : state.truncateBranch env line name size = .ok (after, ops)) :
    Truncates env size state after ops := by
  obtain ⟨-, -, ran⟩ := bind_eq_ok_iff.1 ran
  split_ifs at ran
  · obtain ⟨-, -, ran⟩ := bind_eq_ok_iff.1 ran
    obtain ⟨stat, -, ran⟩ := bind_eq_ok_iff.1 ran
    obtain ⟨truncated, truncation, ran⟩ := bind_eq_ok_iff.1 ran
    cases ran
    exact .inr ⟨_, _, _, truncation, rfl⟩
  · cases ran
    exact .inl ⟨rfl, rfl⟩

theorem ftruncateBranch_truncates
    (ran : state.ftruncateBranch env line fd size = .ok (after, ops)) :
    Truncates env size state after ops := by
  obtain ⟨-, -, ran⟩ := bind_eq_ok_iff.1 ran
  split_ifs at ran
  · obtain ⟨details, -, ran⟩ := bind_eq_ok_iff.1 ran
    obtain ⟨initSize, -, ran⟩ := bind_eq_ok_iff.1 ran
    obtain ⟨truncated, truncation, ran⟩ := bind_eq_ok_iff.1 ran
    cases ran
    exact .inr ⟨_, _, _, truncation, rfl⟩
  · cases ran
    exact .inl ⟨rfl, rfl⟩

theorem Truncates.advances (truncates : Truncates env size state after ops)
    (sound : state.pad.Sound) :
    Scratchpad.Advances state.pad after.pad [] lost ∧ createdInodes ops = [] := by
  rcases truncates with ⟨rfl, rfl⟩ | ⟨path, inode, initSize, truncation, rfl⟩
  · exact ⟨advances_refl sound, rfl⟩
  · exact ⟨advances_replayedTruncate sound truncation, rfl⟩

theorem growFile_advances {pos count : ℕ} (sound : state.pad.Sound)
    (ran : state.growFile env name pos count size = .ok after) :
    Scratchpad.Advances state.pad after.pad [] lost := by
  obtain ⟨filled, filling, ran⟩ := bind_eq_ok_iff.1 ran
  have front : Scratchpad.Advances state.pad filled.pad [] (fun _ => False) := by
    split_ifs at filling
    · exact advances_replayedTruncate sound filling
    · cases filling
      exact advances_refl sound
  have back : Scratchpad.Advances filled.pad after.pad [] lost := by
    split_ifs at ran
    · exact advances_replayedTruncate front.sound ran
    · cases ran
      exact advances_refl front.sound
  exact front.trans back fun _ member => absurd member List.not_mem_nil

theorem createdInodes_splitOps (details : FdDetails) (dump : Dump) (pos count size : ℕ) :
    createdInodes (splitOps details dump pos count size) = [] := by
  simp only [splitOps, overwriteOps, gapOps, appendOps, syncedRange, createdInodes_append]
  grind [createdInodes, MicroOpKind.created?]

theorem write_advances {args : WriteArgs} (isWrite : line.call.writeArgs? = some args)
    (sound : state.pad.Sound) (ran : emit env state line = .ok (after, ops)) :
    Scratchpad.Advances state.pad after.pad [] lost ∧ createdInodes ops = [] := by
  rcases emit_write_cases isWrite ran with
    ⟨-, same, data, terminal⟩ | ⟨-, same, nothing⟩ | ⟨details, stat, -, -, written⟩
  · rw [same, terminal]
    exact ⟨advances_refl sound, rfl⟩
  · rw [same, nothing]
    exact ⟨advances_refl sound, rfl⟩
  · obtain ⟨grown, growth, movement⟩ := written.moves
    have samePad : after.pad = grown.pad := by
      unfold movePos at movement
      split at movement
      · cases movement
        rfl
      · obtain ⟨fds, -, result⟩ := map_eq_ok_iff.1 movement
        subst result
        rfl
    rw [samePad, written.ops_eq]
    exact ⟨growFile_advances sound growth, createdInodes_splitOps details args.dump _ _ _⟩

end ParserState

/-! ## What a line makes and replaces -/

namespace Line

/-- The path at which a line may put an object. -/
def madePath? (env : ParserEnv) (line : Line) : Option Path :=
  match line.call with
  | .openFile path flags _ | .openat path flags _ =>
      if env.isInteresting path = true ∧ 0 ≤ line.ret ∧ OpenFlag.oDirectory ∉ flags then
        some path
      else
        none
  | .mkdir path _ | .symlink _ path =>
      if line.ret ≠ -1 ∧ env.isInteresting path = true then
        some path
      else
        none
  | _ => none

/-- The line creates an object, at a path that leads nowhere. -/
def creates (env : ParserEnv) (pad : Scratchpad) (line : Line) : Bool :=
  (line.madePath? env).any fun path =>
    (pad.tree.resolve (env.replayedPath path)).isNone

/-- A `symlink` whose name is in the scratchpad already.  The branch opens the
file that is there and reports it as a new one. -/
def recreates (env : ParserEnv) (pad : Scratchpad) (line : Line) : Bool :=
  match line.call with
  | .symlink .. =>
      (line.madePath? env).any fun path =>
        (pad.tree.resolve (env.replayedPath path)).isSome
  | _ => false

/-- The path whose object may be moved aside. -/
def removedPath? (line : Line) : Option Path :=
  match line.call with
  | .rename _ dest => some dest
  | .unlink path | .rmdir path => some path
  | _ => none

/-- The directory that a `rename` replaces without moving it aside. -/
def replaced? (env : ParserEnv) (pad : Scratchpad) (line : Line) : Option Ino :=
  match line.call with
  | .rename source dest =>
      if line.ret ≠ -1 ∧ env.isInteresting source = true then
        (pad.tree.resolve (env.replayedPath dest)).filter fun ino =>
          decide (pad.tree.resolve (env.replayedPath source) ≠ some ino) &&
            pad.tree.isDir ino && decide ((env.dirStat pad.tree ino).2 ≠ 1)
      else
        none
  | _ => none

structure Served (env : ParserEnv) (pad : Scratchpad) (line : Line) : Prop where
  fresh : line.creates env pad = true → line.fresh ∉ pad.numbers
  away : ∀ path ∈ line.removedPath?,
    pad.tree.resolve ((env.replayedPath path).dropLast ++
      [ParserState.awayName env path line.uuid]) = none

instance (env : ParserEnv) (pad : Scratchpad) (line : Line) : Decidable (line.Served env pad) :=
  decidable_of_iff
    ((line.creates env pad = true → line.fresh ∉ pad.numbers) ∧
      ∀ path ∈ line.removedPath?,
        pad.tree.resolve ((env.replayedPath path).dropLast ++
          [ParserState.awayName env path line.uuid]) = none)
    ⟨fun both => ⟨both.1, both.2⟩, fun served => ⟨served.fresh, served.away⟩⟩

/-- The numbers of the objects that the line reports as new. -/
inductive Makes (env : ParserEnv) (pad : Scratchpad) (line : Line) : List Ino → Prop
  | nothing
      (notNew : line.creates env pad = false)
      (notAgain : line.recreates env pad = false) :
      Makes env pad line []
  | new
      (isNew : line.creates env pad = true)
      (notAgain : line.recreates env pad = false) :
      Makes env pad line [line.fresh]
  | again
      (isAgain : line.recreates env pad = true) {ino : Ino}
      (inUse : pad.tree.Reaches ino) :
      Makes env pad line [ino]

end Line

/-- What a line has done to the numbers in use. -/
structure Outcome (env : ParserEnv) (state : ParserState) (line : Line)
    (after : ParserState) (ops : List MicroOpKind) : Prop where
  advances : Scratchpad.Advances state.pad after.pad (createdInodes ops)
    fun ino => line.replaced? env state.pad = some ino
  makes : line.Makes env state.pad (createdInodes ops)

section

variable
  {env : ParserEnv} {state after : ParserState} {line : Line}
  {ops : List MicroOpKind}

theorem Outcome.of_advances (noPath : line.madePath? env = none)
    (spec : Scratchpad.Advances state.pad after.pad []
        (fun ino => line.replaced? env state.pad = some ino) ∧ createdInodes ops = []) :
    Outcome env state line after ops := by
  obtain ⟨advances, nothing⟩ := spec
  constructor
  · rw [nothing]
    exact advances
  · rw [nothing]
    refine .nothing (by rw [Line.creates, noPath, Option.any_none]) ?_
    unfold Line.recreates
    rw [noPath]
    split <;> rfl

theorem Outcome.of_quiet (sound : state.pad.Sound) (noPath : line.madePath? env = none)
    (quiet : Quiet state after ops) :
    Outcome env state line after ops := by
  apply Outcome.of_advances noPath
  rw [quiet.pad]
  exact ⟨advances_refl sound, quiet.created⟩

variable {ino : Ino} {path source dest : Path}

theorem Outcome.of_created {op : MicroOpKind} (number : op.created? = some ino)
    (advances : Scratchpad.Advances state.pad after.pad [ino]
      fun ino => line.replaced? env state.pad = some ino) (makes : line.Makes env state.pad [ino]) :
    Outcome env state line after [op] := by
  have single : createdInodes [op] = [ino] := by
    simp only [createdInodes, List.filterMap_cons, number, List.filterMap_nil]
  constructor
  · rw [single]
    exact advances
  · rw [single]
    exact makes

theorem ParserState.ino_of_stat {stat : Stat} (statEq : state.stat env path = .ok stat)
    (resolved : state.pad.tree.resolve (env.replayedPath path) = some ino) : stat.ino = ino :=
  Option.some.inj ((resolve_of_replayedStat (stat_eq_ok_iff.1 statEq)).1.symm.trans resolved)

theorem ParserState.stat?_eq_none_iff (sound : state.pad.Sound) : state.stat? env path = none ↔
      state.pad.tree.resolve (env.replayedPath path) = none := by
  unfold ParserState.stat? Scratchpad.replayedStat
  cases resolved : state.pad.tree.resolve (env.replayedPath path) with
  | none => exact ⟨fun _ => rfl, fun _ => rfl⟩
  | some ino =>
    obtain ⟨found, lookup⟩ := Option.ne_none_iff_exists'.1
      (sound.rooted.node_of_reaches ⟨_, resolved⟩)
    simp only [Option.bind_some, Scratchpad.statInode, lookup, reduceCtorEq, iff_false]
    cases found <;> simp

/-! ## Creating -/

theorem outcome_of_open {flags : List OpenFlag} {mode : Option String}
    (isOpen : line.call = .openFile path flags mode ∨ line.call = .openat path flags mode)
    (sound : state.pad.Sound) (served : line.Served env state.pad)
    (ran : state.openBranch env line path flags mode = .ok (after, ops)) :
    Outcome env state line after ops := by
  have notAgain : line.recreates env state.pad = false := by
    unfold Line.recreates
    rcases isOpen with call | call <;> rw [call]
  have pathEq : line.madePath? env =
      if env.isInteresting path = true ∧ 0 ≤ line.ret ∧ OpenFlag.oDirectory ∉ flags then
        some path
      else
        none := by
    unfold Line.madePath?
    rcases isOpen with call | call <;> rw [call]
  by_cases watched : env.isInteresting path = true ∧ 0 ≤ line.ret ∧ OpenFlag.oDirectory ∉ flags
  · rw [if_pos watched] at pathEq
    have createsEq : line.creates env state.pad =
        (state.pad.tree.resolve (env.replayedPath path)).isNone := by
      simp only [Line.creates, pathEq, Option.any_some]
    obtain ⟨created, createOps, _, truncated, truncOps, _, _, creation, -, truncation, -, -,
      isAfter⟩ := steps_of_openBranch watched.1 watched.2 ran
    cases isAfter
    have noTrunc : createdInodes truncOps = [] := by
      rcases openTrunc_cases truncation with
        ⟨-, nothing⟩ | ⟨size, -, emptied⟩
      · rw [nothing]
        rfl
      · rw [emptied]
        rfl
    have front : Scratchpad.Advances state.pad created.pad
        (createdInodes createOps) (fun _ => False) ∧
          line.Makes env state.pad (createdInodes createOps) := by
      rcases openCreate_cases creation with
        ⟨present, same, nothing⟩ | ⟨absent, pad, newMode, newStat, parent, made, result, statEq,
            reported⟩
      · rw [same, nothing]
        refine ⟨advances_refl sound, .nothing ?_ notAgain⟩
        rw [createsEq, Option.isNone_eq_false_iff]
        by_contra missing
        rw [(stat?_eq_none_iff sound).2 (by simpa using missing)] at present
        cases present
      · rw [stat?_eq_none_iff sound] at absent
        have isNew : line.creates env state.pad = true := by
          rw [createsEq, absent]
          rfl
        subst result
        obtain ⟨advances, resolved⟩ := advances_create sound (fun _ => served.fresh isNew) made
        rw [absent] at advances resolved
        have isFresh := ino_of_stat statEq resolved
        rw [reported]
        simp only [createdInodes, List.filterMap_cons,
          MicroOpKind.created?, List.filterMap_nil, isFresh]
        exact ⟨advances, .new isNew notAgain⟩
    have back : Scratchpad.Advances created.pad truncated.pad []
        (fun ino => line.replaced? env state.pad = some ino) := by
      rcases openTrunc_cases truncation with
        ⟨same, -⟩ | ⟨size, emptying, -⟩
      · rw [same]
        exact advances_refl front.1.sound
      · exact advances_replayedTruncate front.1.sound emptying
    have keeps : ∀ ino, line.replaced? env state.pad ≠ some ino := by
      unfold Line.replaced?
      rcases isOpen with call | call <;> rw [call] <;> simp
    constructor
    · rw [createdInodes_append, noTrunc, List.append_nil]
      exact front.1.trans back fun ino _ => keeps ino
    · rw [createdInodes_append, noTrunc, List.append_nil]
      exact front.2
  · rw [if_neg watched] at pathEq
    exact .of_quiet sound pathEq (openBranch_quiet watched ran)

theorem outcome_of_mkdir {mode : String} (call : line.call = .mkdir path mode)
    (sound : state.pad.Sound) (served : line.Served env state.pad)
    (ran : state.mkdirBranch env line path mode = .ok (after, ops)) :
    Outcome env state line after ops := by
  have notAgain : line.recreates env state.pad = false := by simp only [Line.recreates, call]
  unfold ParserState.mkdirBranch at ran
  by_cases made : line.ret ≠ -1 ∧ env.isInteresting path = true
  · simp only [if_pos made] at ran
    obtain ⟨-, -, ran⟩ := bind_eq_ok_iff.1 ran
    obtain ⟨pad, making, ran⟩ := bind_eq_ok_iff.1 ran
    obtain ⟨stat, statEq, ran⟩ := bind_eq_ok_iff.1 ran
    obtain ⟨parent, -, ran⟩ := bind_eq_ok_iff.1 ran
    cases ran
    have isNew : line.creates env state.pad = true := by
      simp only [Line.creates, Line.madePath?, call, if_pos made,
        Option.any_some, Option.isNone_iff_eq_none]
      exact resolve_of_mkdir making
    obtain ⟨advances, resolved⟩ := advances_mkdir sound (served.fresh isNew) making
    exact Outcome.of_created (congrArg some (ino_of_stat statEq resolved)) advances
      (.new isNew notAgain)
  · simp only [if_neg made] at ran
    cases ran
    exact .of_quiet sound (by simp only [Line.madePath?, call, if_neg made]) ⟨rfl, rfl⟩

theorem outcome_of_symlink (call : line.call = .symlink source dest) (sound : state.pad.Sound)
    (served : line.Served env state.pad)
    (ran : state.symlinkBranch env line source dest = .ok (after, ops)) :
    Outcome env state line after ops := by
  simp only [ParserState.symlinkBranch] at ran
  by_cases made : line.ret ≠ -1 ∧ env.isInteresting dest = true
  · rw [if_pos made] at ran
    have createsEq : line.creates env state.pad =
        (state.pad.tree.resolve (env.replayedPath dest)).isNone := by
      simp only [Line.creates, Line.madePath?, call, if_pos made, Option.any_some]
    have recreatesEq : line.recreates env state.pad =
        (state.pad.tree.resolve (env.replayedPath dest)).isSome := by
      simp only [Line.recreates, Line.madePath?, call, if_pos made, Option.any_some]
    split_ifs at ran
    · obtain ⟨pad, making, ran⟩ := bind_eq_ok_iff.1 ran
      obtain ⟨stat, statEq, ran⟩ := bind_eq_ok_iff.1 ran
      obtain ⟨parent, -, ran⟩ := bind_eq_ok_iff.1 ran
      cases ran
      have absent := resolve_of_mkdir making
      rw [absent] at createsEq recreatesEq
      obtain ⟨advances, resolved⟩ := advances_mkdir sound (served.fresh createsEq) making
      exact Outcome.of_created (congrArg some (ino_of_stat statEq resolved)) advances
        (.new createsEq recreatesEq)
    · obtain ⟨pad, making, ran⟩ := bind_eq_ok_iff.1 ran
      obtain ⟨stat, statEq, ran⟩ := bind_eq_ok_iff.1 ran
      obtain ⟨parent, -, ran⟩ := bind_eq_ok_iff.1 ran
      cases ran
      have unused : state.pad.tree.resolve (env.replayedPath dest) = none →
          line.fresh ∉ state.pad.numbers := by
        intro absent
        apply served.fresh
        rw [createsEq, absent]
        rfl
      obtain ⟨advances, resolved⟩ := advances_create sound unused making
      refine Outcome.of_created (congrArg some (ino_of_stat statEq resolved)) advances ?_
      cases found : state.pad.tree.resolve (env.replayedPath dest) with
      | none =>
        rw [found] at createsEq recreatesEq
        exact .new createsEq recreatesEq
      | some ino =>
        rw [found] at recreatesEq
        exact .again recreatesEq ⟨_, found⟩
  · rw [if_neg made] at ran
    cases ran
    exact .of_quiet sound (by simp only [Line.madePath?, call, if_neg made]) ⟨rfl, rfl⟩

/-! ## Removing -/

/-- What is moved aside is still there, under a name that was free. -/
theorem ParserState.moveAway_advances {uuid : String} {lost : Ino → Prop}
    (sound : state.pad.Sound) (free : state.pad.tree.resolve ((env.replayedPath path).dropLast ++
      [ParserState.awayName env path uuid]) = none)
    (ran : state.moveAway env path uuid = .ok after) :
    Scratchpad.Advances state.pad after.pad [] lost ∧
      after.pad.tree.resolve (env.replayedPath path) = none := by
  unfold ParserState.awayName at free
  obtain ⟨pad, moving, result⟩ := map_eq_ok_iff.1 ran
  subst result
  have advances := advances_rename sound moving
  refine ⟨advances.mono ?_, ?_⟩
  · intro ino lost
    have bound := lost.1
    rw [free] at bound
    cases bound
  · unfold Scratchpad.osCall at moving
    split at moving
    · rename_i tree renamed
      cases moving
      rcases Tree.rename_cases renamed with
        ⟨unchanged, same⟩ | ⟨sourceDir, targetDir, moved, sourceName, targetName, done⟩
      · rw [unchanged]
        exact same.symm.trans free
      · apply sound.rooted.resolve_source_of_rename done _ free
        rw [List.dropLast_concat]
    · cases moving

theorem outcome_of_link (call : line.call = .link source dest) (sound : state.pad.Sound)
    (ran : state.linkBranch env line source dest = .ok (after, ops)) :
    Outcome env state line after ops := by
  apply Outcome.of_advances (by simp only [Line.madePath?, call])
  unfold ParserState.linkBranch at ran
  split_ifs at ran
  · cases ran
    exact ⟨advances_refl sound, rfl⟩
  · obtain ⟨-, -, ran⟩ := bind_eq_ok_iff.1 ran
    obtain ⟨-, -, ran⟩ := bind_eq_ok_iff.1 ran
    obtain ⟨-, -, ran⟩ := bind_eq_ok_iff.1 ran
    obtain ⟨stat, -, ran⟩ := bind_eq_ok_iff.1 ran
    obtain ⟨-, -, ran⟩ := bind_eq_ok_iff.1 ran
    obtain ⟨parent, -, ran⟩ := bind_eq_ok_iff.1 ran
    obtain ⟨pad, linking, ran⟩ := bind_eq_ok_iff.1 ran
    cases ran
    exact ⟨advances_link sound linking, rfl⟩
  · obtain ⟨-, -, ran⟩ := bind_eq_ok_iff.1 ran
    cases ran
    exact ⟨advances_refl sound, rfl⟩

theorem Scratchpad.nlink_of_statInode {pad : Scratchpad} {dirStat : DirStat} {stat : Stat}
    (found : pad.statInode dirStat ino = some stat) : stat.isDir = pad.tree.isDir ino ∧ stat.nlink =
        if pad.tree.isDir ino then (dirStat pad.tree ino).2
        else pad.links ino := by
  unfold Scratchpad.statInode at found
  unfold Tree.isDir Tree.entries
  cases lookup : pad.tree.node ino with
  | none =>
    rw [lookup] at found
    cases found
  | some node =>
    rw [lookup] at found
    cases node with
    | file content =>
      cases found
      exact ⟨rfl, rfl⟩
    | dir entries =>
      cases found
      exact ⟨rfl, rfl⟩

theorem outcome_of_unlink (call : line.call = .unlink path) (sound : state.pad.Sound)
    (served : line.Served env state.pad)
    (ran : state.unlinkBranch env line path = .ok (after, ops)) :
    Outcome env state line after ops := by
  have free := served.away path (by simp [Line.removedPath?, call])
  apply Outcome.of_advances (by simp only [Line.madePath?, call])
  unfold ParserState.unlinkBranch at ran
  split_ifs at ran
  · cases ran
    exact ⟨advances_refl sound, rfl⟩
  · obtain ⟨-, -, ran⟩ := bind_eq_ok_iff.1 ran
    obtain ⟨stat, statEq, ran⟩ := bind_eq_ok_iff.1 ran
    obtain ⟨parent, -, ran⟩ := bind_eq_ok_iff.1 ran
    obtain ⟨resolved, found⟩ := resolve_of_replayedStat (stat_eq_ok_iff.1 statEq)
    obtain ⟨kind, count⟩ := nlink_of_statInode found
    split_ifs at ran with isDirectory linked
    · obtain ⟨-, -, ran⟩ := bind_eq_ok_iff.1 ran
      obtain ⟨moved, moving, ran⟩ := bind_eq_ok_iff.1 ran
      cases ran
      exact ⟨(moveAway_advances sound free moving).1, rfl⟩
    · obtain ⟨pad, unlinking, ran⟩ := bind_eq_ok_iff.1 ran
      cases ran
      refine ⟨advances_unlink sound ?_ unlinking, rfl⟩
      intro ino resolvedAgain
      rw [resolved] at resolvedAgain
      cases resolvedAgain
      rw [if_neg (by rwa [← kind])] at count
      omega
    · obtain ⟨moved, moving, ran⟩ := bind_eq_ok_iff.1 ran
      cases ran
      exact ⟨(moveAway_advances sound free moving).1, rfl⟩
  · cases ran
    exact ⟨advances_refl sound, rfl⟩

theorem outcome_of_rmdir (call : line.call = .rmdir path) (sound : state.pad.Sound)
    (served : line.Served env state.pad)
    (ran : state.rmdirBranch env line path = .ok (after, ops)) :
    Outcome env state line after ops := by
  have free := served.away path (by simp [Line.removedPath?, call])
  apply Outcome.of_advances (by simp only [Line.madePath?, call])
  unfold ParserState.rmdirBranch at ran
  split_ifs at ran
  · obtain ⟨stat, -, ran⟩ := bind_eq_ok_iff.1 ran
    obtain ⟨parent, -, ran⟩ := bind_eq_ok_iff.1 ran
    obtain ⟨moved, moving, ran⟩ := bind_eq_ok_iff.1 ran
    cases ran
    exact ⟨(moveAway_advances sound free moving).1, rfl⟩
  · cases ran
    exact ⟨advances_refl sound, rfl⟩

/-! ## Renaming -/

/-- Afterwards the name of the destination is free, or its object has a link
count other than one. -/
theorem ParserState.clearDest_advances (sound : state.pad.Sound)
    (free : state.pad.tree.resolve ((env.replayedPath dest).dropLast ++
      [ParserState.awayName env dest line.uuid]) = none)
    (ran : state.clearDest env line dest = .ok after) :
    Scratchpad.Advances state.pad after.pad [] (fun _ => False) ∧
      (after.pad.tree.resolve (env.replayedPath dest) = none ∨ after = state ∧ ∀ ino stat,
            state.pad.tree.resolve (env.replayedPath dest) = some ino →
              state.pad.statInode env.dirStat ino = some stat → stat.nlink ≠ 1) := by
  unfold ParserState.clearDest at ran
  cases found : state.stat? env dest with
  | none =>
    simp only [found] at ran
    cases ran
    exact ⟨advances_refl sound, Or.inl ((stat?_eq_none_iff sound).1 found)⟩
  | some stat =>
    simp only [found] at ran
    split_ifs at ran with last
    · obtain ⟨-, -, ran⟩ := bind_eq_ok_iff.1 ran
      obtain ⟨-, -, ran⟩ := bind_eq_ok_iff.1 ran
      obtain ⟨advances, gone⟩ := moveAway_advances sound free ran
      exact ⟨advances, Or.inl gone⟩
    · cases ran
      refine ⟨advances_refl sound, Or.inr ⟨rfl, ?_⟩⟩
      intro ino other resolved otherFound
      rw [stat?_of_resolve resolved, otherFound] at found
      cases found
      exact last

/-- Only a directory with a link count other than one is lost. -/
theorem outcome_of_rename (call : line.call = .rename source dest) (sound : state.pad.Sound)
    (served : line.Served env state.pad)
    (ran : state.renameBranch env line source dest = .ok (after, ops)) :
    Outcome env state line after ops := by
  have free := served.away dest (by simp [Line.removedPath?, call])
  apply Outcome.of_advances (by simp only [Line.madePath?, call])
  rcases renameBranch_cases ran with
    ⟨same, nothing⟩ | ⟨succeeded, interesting, cleared, pad, info, clearing, moving,
        result, reported⟩
  · rw [same, nothing]
    exact ⟨advances_refl sound, rfl⟩
  · rw [reported]
    subst result
    refine ⟨?_, rfl⟩
    obtain ⟨front, afterwards⟩ := clearDest_advances sound free clearing
    have back := advances_rename front.sound moving
    refine front.trans (back.mono ?_) fun _ member => absurd member List.not_mem_nil
    rintro ino ⟨resolved, different, gone⟩
    rcases afterwards with absent | ⟨same, linked⟩
    · rw [absent] at resolved
      cases resolved
    · subst same
      obtain ⟨found, lookup⟩ := Option.ne_none_iff_exists'.1
        (sound.rooted.node_of_reaches ⟨_, resolved⟩)
      have statFound : ∃ stat, cleared.pad.statInode env.dirStat ino = some stat := by
        unfold Scratchpad.statInode
        rw [lookup]
        cases found <;> exact ⟨_, rfl⟩
      obtain ⟨stat, statFound⟩ := statFound
      obtain ⟨-, count⟩ := nlink_of_statInode statFound
      have notOne := linked ino stat resolved statFound
      rw [count] at notOne
      cases kind : cleared.pad.tree.isDir ino with
      | true =>
        rw [kind, if_pos rfl] at notOne
        simp only [Line.replaced?, call, if_pos (And.intro succeeded interesting), resolved,
          Option.filter_some, different, kind, notOne, ne_eq,
          not_false_eq_true, decide_true, Bool.and_self, if_true]
      | false =>
        rw [kind, if_neg Bool.false_ne_true] at notOne
        rw [kind] at gone
        rcases gone with isDirectory | last
        · cases isDirectory
        · exact absurd last notOne

/-! ## All calls -/

theorem outcome_of_emit (sound : state.pad.Sound) (served : line.Served env state.pad)
    (ran : emit env state line = .ok (after, ops)) :
    Outcome env state line after ops := by
  have writes : ∀ args, line.call.writeArgs? = some args → line.madePath? env = none →
      Outcome env state line after ops := by
    intro args isWrite noPath
    exact .of_advances noPath (write_advances isWrite sound ran)
  have truncates := @Outcome.of_advances env state after line ops
  have quiet := @Outcome.of_quiet env state after line ops sound
  unfold emit at ran
  unfold Line.madePath? at writes truncates quiet
  cases call : line.call <;> rw [call] at ran writes truncates quiet
  case openFile => exact outcome_of_open (Or.inl call) sound served ran
  case openat => exact outcome_of_open (Or.inr call) sound served ran
  case mkdir => exact outcome_of_mkdir call sound served ran
  case symlink => exact outcome_of_symlink call sound served ran
  case link => exact outcome_of_link call sound ran
  case unlink => exact outcome_of_unlink call sound served ran
  case rmdir => exact outcome_of_rmdir call sound served ran
  case rename => exact outcome_of_rename call sound served ran
  case write => exact writes _ rfl rfl
  case writev => exact writes _ rfl rfl
  case pwrite => exact writes _ rfl rfl
  case pwritev => exact writes _ rfl rfl
  case truncate => exact truncates rfl ((truncateBranch_truncates ran).advances sound)
  case ftruncate => exact truncates rfl ((ftruncateBranch_truncates ran).advances sound)
  case close => exact quiet rfl (closeBranch_quiet ran)
  case lseek => exact quiet rfl (lseekBranch_quiet ran)
  case fallocate => exact quiet rfl (fallocateBranch_aside ran).quiet
  case fsync => exact quiet rfl (fsyncBranch_aside (by simp [MicroOpKind.created?]) ran).quiet
  case fdatasync => exact quiet rfl (fsyncBranch_aside (by simp [MicroOpKind.created?]) ran).quiet
  case sync => exact quiet rfl (syncBranch_aside ran).quiet
  case mmap => exact quiet rfl (mmapBranch_aside ran).quiet
  case munmap => exact quiet rfl (munmapBranch_aside ran).quiet
  case msync => exact quiet rfl (msyncBranch_aside ran).quiet
  case mwrite => exact quiet rfl (mwriteBranch_aside ran).quiet
  case dup => exact quiet rfl (dupBranch_quiet ran)
  case dup2 => exact quiet rfl (dupBranch_quiet ran)
  case fcntlDupfd => exact quiet rfl (fcntlDupfdBranch_quiet ran)

end

/-! ## Rows of all processes -/

namespace TraceRow

/-- The row as a line of its process, unless the call is one on
processes. -/
def line? (row : TraceRow) : Option Line :=
  match row.call with
  | .plain call => some ⟨call, row.ret, row.fresh, row.uuid⟩
  | _ => none

def Served (env : SystemEnv) (pad : Scratchpad) (row : TraceRow) : Prop :=
  ∀ line ∈ row.line?, line.Served (env.forThread row.tid) pad

instance (env : SystemEnv) (pad : Scratchpad) (row : TraceRow) : Decidable (row.Served env pad) :=
  inferInstanceAs (Decidable (∀ line ∈ row.line?, _))

/-- The row reports a number that the parser has met before: it creates an
object with the number of a directory that was replaced, or it reports a
symbolic link whose name is there already. -/
def Reuses (env : SystemEnv) (pad : Scratchpad) (lost : List Ino) (row : TraceRow) : Prop :=
  ∃ line ∈ row.line?,
    line.creates (env.forThread row.tid) pad = true ∧ line.fresh ∈ lost ∨
      line.recreates (env.forThread row.tid) pad = true

/-- The directory that the row replaces without moving it aside. -/
def replaced? (env : SystemEnv) (pad : Scratchpad) (row : TraceRow) : Option Ino :=
  row.line?.bind fun line => line.replaced? (env.forThread row.tid) pad

end TraceRow

namespace ParserSystem

variable {env : SystemEnv} {system after : ParserSystem}
  {ops : List MicroOpKind}

/-- Every row is served by the host, in the state in which it is met. -/
def Serves (env : SystemEnv) : ParserSystem → List TraceRow → Prop
  | _, [] => True
  | system, row :: rest =>
      row.Served env system.pad ∧
        match system.translate env row with
        | .ok (next, _) => Serves env next rest
        | .error _ => True

instance decidableServes (env : SystemEnv) :
    (system : ParserSystem) → (rows : List TraceRow) →
      Decidable (Serves env system rows)
  | _, [] => .isTrue trivial
  | system, row :: rest =>
      have : Decidable (match system.translate env row with
          | .ok (next, _) => Serves env next rest
          | .error _ => True) :=
        match system.translate env row with
        | .ok (next, _) => decidableServes env next rest
        | .error _ => .isTrue trivial
      inferInstanceAs (Decidable (_ ∧ _))

/-- No row reports a number again.  `lost` are the directories that were
replaced so far. -/
def NeverReuses (env : SystemEnv) : ParserSystem → List Ino → List TraceRow → Prop
  | _, _, [] => True
  | system, lost, row :: rest =>
      ¬ row.Reuses env system.pad lost ∧
        match system.translate env row with
        | .ok (next, _) =>
            NeverReuses env next ((row.replaced? env system.pad).toList ++ lost) rest
        | .error _ => True

/-- What a row has done to the numbers in use. -/
structure RowOutcome (env : SystemEnv) (system : ParserSystem) (row : TraceRow)
    (after : ParserSystem) (ops : List MicroOpKind) : Prop where
  advances : Scratchpad.Advances system.pad after.pad (createdInodes ops)
    fun ino => row.replaced? env system.pad = some ino
  once : (createdInodes ops).Nodup
  reuses : ∀ lost, row.Reuses env system.pad lost ↔
    ∃ ino ∈ createdInodes ops, ino ∈ system.pad.numbers ∨ ino ∈ lost

theorem RowOutcome.of_pad
    {row : TraceRow} (sound : system.pad.Sound) (noLine : row.line? = none)
    (samePad : after.pad = system.pad) : RowOutcome env system row after [] := by
  constructor
  · rw [samePad]
    exact advances_refl sound
  · exact List.nodup_nil
  · intro lost
    simp [TraceRow.Reuses, noLine, createdInodes]

variable {row : TraceRow} {known : Ino → Prop} {lost : List Ino}

theorem reuses_iff_of_makes {line : Line} {made : List Ino} (sound : system.pad.Sound)
    (isLine : row.line? = some line) (served : row.Served env system.pad)
    (makes : line.Makes (env.forThread row.tid) system.pad made) (lost : List Ino) :
    row.Reuses env system.pad lost ↔ ∃ ino ∈ made, ino ∈ system.pad.numbers ∨ ino ∈ lost := by
  unfold TraceRow.Reuses
  rw [isLine]
  cases makes with
  | nothing notNew notAgain => simp [notNew, notAgain]
  | new isNew notAgain =>
    have unused := (served line isLine).fresh isNew
    simp [isNew, notAgain, unused]
  | again isAgain inUse =>
    rw [← sound.mem_numbers_iff] at inUse
    simp [isAgain, inUse]

theorem rowOutcome_of_translate (sound : system.pad.Sound) (served : row.Served env system.pad)
    (ran : system.translate env row = .ok (after, ops)) :
    RowOutcome env system row after ops := by
  obtain ⟨⟨found, number, process⟩, tracking, ran⟩ := bind_eq_ok_iff.1 ran
  have samePad := (tracked_of_getProctracker tracking).pad
  have bare := @RowOutcome.of_pad env system after row sound
  unfold translateCall at ran
  unfold TraceRow.line? at bare
  cases call : row.call with
  | plain plainCall =>
    rw [call] at ran
    obtain ⟨⟨state, kinds⟩, emitting, result⟩ := map_eq_ok_iff.1 ran
    cases result
    have isLine : row.line? = some ⟨plainCall, row.ret, row.fresh, row.uuid⟩ := by
      simp only [TraceRow.line?, call]
    have statePad : (found.stateOf process).pad = system.pad := samePad
    have outcome := outcome_of_emit (by rw [statePad]; exact sound)
      (by rw [statePad]; exact served _ isLine) emitting
    have advances := outcome.advances
    have makes := outcome.makes
    rw [statePad] at advances makes
    refine ⟨?_, ?_, reuses_iff_of_makes sound isLine served makes⟩
    · simp only [TraceRow.replaced?, isLine, Option.bind_some]
      exact advances
    · generalize createdInodes kinds = made at makes ⊢
      cases makes with
      | nothing => exact List.nodup_nil
      | new => exact List.nodup_singleton _
      | again => exact List.nodup_singleton _
  | openFault address =>
    rw [call] at ran
    cases ran
  | chdir path =>
    rw [call] at ran bare
    cases ran
    apply bare rfl
    rw [← samePad]
    unfold chdirBranch
    split_ifs <;> rfl
  | clone flags =>
    rw [call] at ran bare
    obtain ⟨cloned, cloning, result⟩ := map_eq_ok_iff.1 ran
    cases result
    apply bare rfl
    unfold cloneBranch recordClone recordFork at cloning
    grind [bind_eq_ok_iff, pure_eq_ok_iff]
  | vfork =>
    rw [call] at ran bare
    obtain ⟨forked, forking, result⟩ := map_eq_ok_iff.1 ran
    cases result
    apply bare rfl
    unfold vforkBranch recordFork at forking
    grind [bind_eq_ok_iff, pure_eq_ok_iff]
  | execve =>
    rw [call] at ran bare
    cases ran
    exact bare rfl samePad
  | mremap addr length =>
    rw [call] at ran bare
    obtain ⟨mapped, mapping, result⟩ := map_eq_ok_iff.1 ran
    cases result
    apply bare rfl
    unfold mremapBranch at mapping
    grind [bind_eq_ok_iff, pure_eq_ok_iff]

/-! ## Runs -/

theorem reaches_of_replaced {pad : Scratchpad} {ino : Ino}
    (replaced : row.replaced? env pad = some ino) : pad.tree.Reaches ino := by
  obtain ⟨line, -, replaced⟩ := Option.bind_eq_some_iff.1 replaced
  unfold Line.replaced? at replaced
  split at replaced
  · split_ifs at replaced
    exact ⟨_, (Option.filter_eq_some_iff.1 replaced).1⟩
  · cases replaced

/-- Every number that the parser has met is in use or was lost. -/
structure Remembers (pad : Scratchpad) (known : Ino → Prop) (lost : List Ino) : Prop where
  inUse : ∀ ino, pad.tree.Reaches ino → known ino
  cases : ∀ ino, known ino → pad.tree.Reaches ino ∨ ino ∈ lost
  lost : ∀ ino ∈ lost, known ino

theorem Remembers.step (remembers : Remembers system.pad known lost)
    (outcome : RowOutcome env system row after ops) :
    Remembers after.pad (fun ino => known ino ∨ ino ∈ createdInodes ops)
      ((row.replaced? env system.pad).toList ++ lost) := by
  constructor
  · intro ino reached
    exact (outcome.advances.older ino reached).imp_left (remembers.inUse ino)
  · intro ino isKnown
    rw [List.mem_append, Option.mem_toList]
    rcases isKnown with isKnown | isNew
    · rcases remembers.cases ino isKnown with reached | isLost
      · exact (outcome.advances.kept ino reached).imp_right Or.inl
      · exact Or.inr (Or.inr isLost)
    · exact Or.inl (outcome.advances.reached ino isNew)
  · intro ino isLost
    rw [List.mem_append, Option.mem_toList] at isLost
    rcases isLost with replaced | isLost
    · exact Or.inl (remembers.inUse ino (reaches_of_replaced replaced))
    · exact Or.inl (remembers.lost ino isLost)

theorem Remembers.reuses_iff (remembers : Remembers system.pad known lost)
    (sound : system.pad.Sound) (outcome : RowOutcome env system row after ops) :
    row.Reuses env system.pad lost ↔ ∃ ino ∈ createdInodes ops, known ino := by
  rw [outcome.reuses]
  refine exists_congr fun ino => and_congr_right fun _ => ?_
  rw [sound.mem_numbers_iff]
  constructor
  · rintro (reached | isLost)
    · exact remembers.inUse ino reached
    · exact remembers.lost ino isLost
  · exact remembers.cases ino

/-- The invariant carries the equivalence over the rows. -/
theorem createdInodes_new_iff {rows : List TraceRow} (sound : system.pad.Sound)
    (serves : Serves env system rows) (remembers : Remembers system.pad known lost)
    (ran : translateAll env system rows = .ok (after, ops)) :
    ((createdInodes ops).Nodup ∧ ∀ ino ∈ createdInodes ops, ¬ known ino) ↔
      NeverReuses env system lost rows := by
  induction rows generalizing system known lost ops with
  | nil =>
    cases ran
    simp [createdInodes, NeverReuses]
  | cons row rest ih =>
    obtain ⟨⟨next, here⟩, translated, ran⟩ := bind_eq_ok_iff.1 ran
    obtain ⟨⟨final, later⟩, continued, ran⟩ := bind_eq_ok_iff.1 ran
    cases ran
    have served := serves.1
    have servesRest := serves.2
    simp only [translated] at servesRest
    have outcome := rowOutcome_of_translate sound served translated
    have further := ih outcome.advances.sound servesRest (remembers.step outcome) continued
    simp only [NeverReuses, translated]
    rw [← further, remembers.reuses_iff sound outcome, createdInodes_append, List.nodup_append]
    constructor
    · rintro ⟨⟨-, nodup, apart⟩, unknown⟩
      refine ⟨?_, nodup, ?_⟩
      · rintro ⟨ino, isNew, isKnown⟩
        exact unknown ino (List.mem_append_left _ isNew) isKnown
      · rintro ino isLater (isKnown | isNew)
        · exact unknown ino (List.mem_append_right _ isLater) isKnown
        · exact apart ino isNew ino isLater rfl
    · rintro ⟨notReused, nodup, unknown⟩
      refine ⟨⟨outcome.once, nodup, ?_⟩, ?_⟩
      · intro ino isNew other isLater same
        subst same
        exact unknown ino isLater (Or.inr isNew)
      · intro ino member isKnown
        rcases List.mem_append.1 member with isNew | isLater
        · exact notReused ⟨ino, isNew, isKnown⟩
        · exact unknown ino isLater (Or.inl isKnown)

end ParserSystem

/-- The numbers of all created objects differ from one another and from those
of the initial snapshot, exactly if no row is given the number of a directory
that a `rename` has replaced before, and none reports a symbolic link whose
name the scratchpad has already. -/
theorem createdInodes_distinct_iff {env : SystemEnv} {pad : Scratchpad} {rows : List TraceRow}
    {after : ParserSystem} {ops : List MicroOpKind} (sound : pad.Sound)
    (serves : ParserSystem.Serves env (.init pad) rows)
    (ran : ParserSystem.translateAll env (.init pad) rows =
      .ok (after, ops)) :
    ((createdInodes ops).Nodup ∧
        ∀ ino ∈ createdInodes ops, ino ∉ pad.numbers) ↔
      ParserSystem.NeverReuses env (.init pad) [] rows := by
  have remembers : ParserSystem.Remembers pad (· ∈ pad.numbers) [] := by
    refine ⟨?_, ?_, ?_⟩
    · intro ino reached
      exact sound.mem_numbers_iff.2 reached
    · intro ino inUse
      exact Or.inl (sound.mem_numbers_iff.1 inUse)
    · intro ino member
      exact absurd member List.not_mem_nil
  exact ParserSystem.createdInodes_new_iff
    (show (ParserSystem.init pad).pad.Sound from sound) serves remembers ran

theorem emptyScratchpad_sound : emptyScratchpad.Sound := by
  have noChild : ∀ dir name, emptyScratchpad.tree.child dir name = none := by
    intro dir name
    unfold Tree.child Tree.entries emptyScratchpad
    by_cases isRoot : dir = 2
    · simp [isRoot]
    · simp [isRoot]
  have bound : ∀ {motive : Prop} {dir name ino},
      emptyScratchpad.tree.child dir name = some ino → motive := by
    intro motive dir name ino child
    rw [noChild] at child
    cases child
  refine ⟨⟨rfl, fun _ _ => bound, fun _ _ _ => bound,
    fun _ _ _ _ _ _ => bound, fun _ _ _ => bound⟩, by decide, ?_⟩
  intro ino isDirectory
  unfold Tree.isDir Tree.entries emptyScratchpad at isDirectory
  by_cases isRoot : ino = 2
  · rw [isRoot]
    exact List.mem_singleton_self 2
  · simp [isRoot] at isDirectory

/-- A directory replaces another one, and a third one is made.  The host gives
it the last number. -/
def renameDirs (fresh : Ino) : List TraceRow :=
  [⟨100, .plain (.mkdir ["workload", "a"] "0777"), 0, 10, ""⟩,
    ⟨100, .plain (.mkdir ["workload", "b"] "0777"), 0, 11, ""⟩,
    ⟨100, .plain (.rename ["workload", "a"] ["workload", "b"]), 0, 0, "1"⟩,
    ⟨100, .plain (.mkdir ["workload", "c"] "0777"), 0, fresh, ""⟩]

theorem createdInodes_distinct_iff_renameDirs :
    ∃ after ops,
      ParserSystem.translateAll workloadSystemEnv (.init emptyScratchpad)
          (renameDirs 12) = .ok (after, ops) ∧
        (((createdInodes ops).Nodup ∧
            ∀ ino ∈ createdInodes ops, ino ∉ emptyScratchpad.numbers) ↔
          ParserSystem.NeverReuses workloadSystemEnv (.init emptyScratchpad)
            [] (renameDirs 12)) :=
  ⟨_, _, rfl, createdInodes_distinct_iff emptyScratchpad_sound (by decide)
    rfl⟩

/-- A file is created below a symbolic link to a directory.  The directory is
renamed and made again, so that the path of the file is free once more, and a
symbolic link is made there. -/
def relinkedPath : List TraceRow :=
  [⟨100, .plain (.mkdir ["workload", "a"] "0777"), 0, 10, ""⟩,
    ⟨100, .plain (.symlink ["workload", "a"] ["workload", "l"]), 0, 11, ""⟩,
    ⟨100, .plain (.openFile ["workload", "l", "x"] [.oCreat, .oWronly]
      (some "0666")), 3, 12, ""⟩,
    ⟨100, .plain (.rename ["workload", "a"] ["workload", "b"]), 0, 0, "1"⟩,
    ⟨100, .plain (.mkdir ["workload", "a"] "0777"), 0, 13, ""⟩,
    ⟨100, .plain (.symlink ["workload", "t"] ["workload", "l", "x"]), 0, 14,
      ""⟩]

/-- The number of the replaced directory is handed out again, and the file
below the symbolic link is reported twice. -/
theorem renamed_numbers_reused :
    emptyScratchpad.Sound ∧
      ParserSystem.Serves workloadSystemEnv (.init emptyScratchpad)
        (renameDirs 11) ∧
      (ParserSystem.translateAll workloadSystemEnv (.init emptyScratchpad)
        (renameDirs 11)).map (fun result => createdInodes result.2) =
          .ok [10, 11, 11] ∧
      ParserSystem.Serves workloadSystemEnv (.init emptyScratchpad)
        relinkedPath ∧
      (ParserSystem.translateAll workloadSystemEnv (.init emptyScratchpad)
        relinkedPath).map (fun result => createdInodes result.2) =
          .ok [10, 11, 12, 13, 12] :=
  ⟨emptyScratchpad_sound, by decide, rfl, by decide, rfl⟩

end Alice
