import Alice.Posix.Calls
import Alice.Replay.Naming

/-! # A replay follows the names

A replay is related to the names after the whole trace so far (`trace`), the
names after the selected operations (`names`) and the contents (`store`).

Where a directory is found is kept only for those that the traced file system
still has.  Removed ones may have been left behind, moved or replaced, and
nothing is said about their paths. -/

namespace Alice

open Posix (Ino Name Path Bytes Tree)

theorem toString_inode_injective : Function.Injective (toString : Inode → String) := by
  have readBack : Function.LeftInverse (fun text : String => Nat.ofDigitChars 10 text.toList 0)
        (toString : Inode → String) := by
    intro inode
    simp
  exact readBack.injective

/-! ## A selection of the trace -/

namespace Naming

def Known (names : Naming) (inode : Inode) : Prop :=
  inode ∈ names.dirs ∨ inode ∈ names.files

def Dead (root : Inode) (names : Naming) (directory : Inode) : Prop :=
  directory ∈ names.dirs ∧ ¬names.Live root directory

/-- How the names of a selection lie in those of the whole trace. -/
structure Lags (root : Inode) (trace names : Naming) : Prop where
  dirs : names.dirs ⊆ trace.dirs
  files : names.files ⊆ trace.files
  root_mem : root ∈ names.dirs
  hub_unbound : names.child root inodesName = none
  parent_known : ∀ parent name inode, names.child parent name = some inode → parent ∈ names.dirs
  target_known : ∀ parent name inode, names.child parent name = some inode → names.Known inode
  agrees : ∀ directory ∈ names.dirs, trace.Live root directory →
    ∀ parent name, names.child parent name = some directory →
      trace.child parent name = some directory

section

variable {root : Inode} {trace names : Naming}

section

variable (lags : Lags root trace names)
include lags

theorem Lags.advance {later : Naming} (advances : Advances root trace later)
    : Lags root later names where
  dirs := lags.dirs.trans advances.dirs
  files := lags.files.trans advances.files
  root_mem := lags.root_mem
  hub_unbound := lags.hub_unbound
  parent_known := lags.parent_known
  target_known := lags.target_known
  agrees := by
    intro dir member live parent name bound
    have inTrace := lags.dirs member
    apply advances.keeps dir inTrace live
    exact lags.agrees dir member (advances.live dir inTrace live) parent name bound

theorem Lags.unbound_of_unknown {inode : Inode} (unknown : ¬names.Known inode) (parent : Inode)
    (name : Name) : names.child parent name ≠ some inode := by
  intro bound
  exact unknown (lags.target_known parent name inode bound)

theorem Lags.empty_of_unknown {inode : Inode} (unknown : inode ∉ names.dirs)
    : names.Empty inode := by
  intro name
  rw [Option.eq_none_iff_forall_not_mem]
  intro target bound
  exact unknown (lags.parent_known inode name target bound)

theorem Lags.touchDir {dir : Inode} (unknown : ¬names.Known dir)
    (inTrace : dir ∈ trace.dirs) : Lags root trace (names.touchDir dir) where
  dirs := Set.insert_subset inTrace lags.dirs
  files := lags.files
  root_mem := Set.mem_insert_of_mem _ lags.root_mem
  hub_unbound := lags.hub_unbound
  parent_known := by
    intro parent name inode bound
    exact Set.mem_insert_of_mem _ (lags.parent_known parent name inode bound)
  target_known := by
    intro parent name inode bound
    exact (lags.target_known parent name inode bound).imp_left (Set.mem_insert_of_mem _)
  agrees := by
    intro other member live parent name bound
    rcases Set.mem_insert_iff.1 member with same | before
    · subst same
      exact False.elim (lags.unbound_of_unknown unknown parent name bound)
    · exact lags.agrees other before live parent name bound

theorem Lags.touchFile {file : Inode} (inTrace : file ∈ trace.files) :
    Lags root trace (names.touchFile file) where
  dirs := lags.dirs
  files := Set.insert_subset inTrace lags.files
  root_mem := lags.root_mem
  hub_unbound := lags.hub_unbound
  parent_known := lags.parent_known
  target_known := by
    intro parent name inode bound
    exact (lags.target_known parent name inode bound).imp_right (Set.mem_insert_of_mem _)
  agrees := lags.agrees

theorem Lags.setEntry {parent : Inode} {name : Name} {target : Option Inode}
    (known : parent ∈ names.dirs) (avoids : ¬(parent = root ∧ name = inodesName))
    (targetKnown : ∀ inode, target = some inode → names.Known inode)
    (targetAgrees : ∀ dir ∈ names.dirs, trace.Live root dir →
      target = some dir → trace.child parent name = some dir) :
    Lags root trace (names.setEntry parent name target) where
  dirs := lags.dirs
  files := lags.files
  root_mem := lags.root_mem
  hub_unbound := by
    rw [child_setEntry, if_neg]
    · exact lags.hub_unbound
    · rintro ⟨isRoot, isHub⟩
      exact avoids ⟨isRoot.symm, isHub.symm⟩
  parent_known := by
    intro other tested inode bound
    rw [child_setEntry] at bound
    split at bound
    · rename_i same
      exact same.1 ▸ known
    · exact lags.parent_known other tested inode bound
  target_known := by
    intro other tested inode bound
    rw [child_setEntry] at bound
    split at bound
    · exact targetKnown inode bound
    · exact lags.target_known other tested inode bound
  agrees := by
    intro dir member live other tested bound
    rw [child_setEntry] at bound
    split at bound
    · rename_i same
      rw [same.1, same.2]
      exact targetAgrees dir member live bound
    · exact lags.agrees dir member live other tested bound

end

end

end Naming

/-! ## The replay directory -/

section

variable
  (root : Inode) (names : Naming) (store : Inode → Bytes) (tree : Tree)
  (place : Inode → Ino) (hub : Ino)

/-- The tree keeps the names and the contents, with `place` giving the node of
an inode and `hub` the node of `.inodes`. -/
structure Holds : Prop where
  root_eq : tree.root = place root
  hub_entry : tree.child (place root) inodesName = some hub
  hub_isDir : tree.isDir hub = true
  hub_apart : ∀ directory ∈ names.dirs, place directory ≠ hub
  injective : ∀ left right, names.Known left → names.Known right →
    place left = place right → left = right
  content : ∀ file ∈ names.files, tree.content (place file) = some (store file)
  hub_file : ∀ file ∈ names.files, tree.child hub (toString file) = some (place file)
  isDir : ∀ directory ∈ names.dirs, tree.isDir (place directory) = true
  child : ∀ directory ∈ names.dirs, ∀ name,
    ¬(directory = root ∧ name = inodesName) →
      tree.child (place directory) name =
        (names.child directory name).map place

end

section

variable
  (root : Inode) (trace names : Naming) (state : ReplayState)
  (place : Inode → Ino) (hub : Ino)

/-- The directory waits in `.inodes`. -/
structure Waits (directory : Inode) : Prop where
  unbound : ∀ parent name, names.child parent name ≠ some directory
  path : state.dirinodeMap directory = some (inodePath directory)
  hub_entry : state.tree.child hub (toString directory) = some (place directory)

/-- The directory is linked under its name. -/
structure Linked (directory parent : Inode) (name : Name) (path : Path) : Prop where
  bound : names.child parent name = some directory
  parent_path : state.dirinodeMap parent = some path
  path : state.dirinodeMap directory = some (path ++ [name])
  hub_entry : state.tree.child hub (toString directory) = none

/-- The dictionary and `.inodes` say where the directories are that the traced
file system has. -/
structure Placed : Prop where
  root_path : state.dirinodeMap root = some []
  unknown_path : ∀ inode ∉ names.dirs, state.dirinodeMap inode = none
  unknown_hub : ∀ inode, ¬names.Known inode → ¬trace.Dead root inode →
    state.tree.child hub (toString inode) = none
  somewhere : ∀ directory ∈ names.dirs, trace.Live root directory →
    directory ≠ root →
      Waits names state place hub directory ∨
        ∃ parent name path,
          Linked names state hub directory parent name path

end

/-- The state of a replay after the selected operations. -/
structure Simulates (root : Inode) (trace names : Naming) (store : Inode → Bytes)
    (state : ReplayState) (place : Inode → Ino) (hub : Ino) : Prop where
  wellFormed : trace.WellFormed root
  lags : trace.Lags root names
  holds : Holds root names store state.tree place hub
  placed : Placed root trace names state place hub
  unused : ∀ ino, state.next ≤ ino → state.tree.node ino = none
  store_unknown : ∀ file ∉ names.files, store file = []

section

variable
  {root : Inode} {trace names : Naming} {store : Inode → Bytes}
  {state : ReplayState} {place : Inode → Ino} {hub : Ino}

namespace Simulates

section

variable (simulates : Simulates root trace names store state place hub)
include simulates

/-- The trace goes on without the selection. -/
theorem advance {later : Naming} (wellFormed : later.WellFormed root)
    (advances : trace.Advances root later) : Simulates root later names store state place hub where
  wellFormed := wellFormed
  lags := simulates.lags.advance advances
  holds := simulates.holds
  placed := by
    have placed := simulates.placed
    refine ⟨placed.root_path, placed.unknown_path, ?_, ?_⟩
    · intro inode unknown notDead
      apply placed.unknown_hub inode unknown
      rintro ⟨inTrace, notLive⟩
      refine notDead ⟨advances.dirs inTrace, ?_⟩
      intro live
      exact notLive (advances.live inode inTrace live)
    · intro dir member live notRoot
      apply placed.somewhere dir member _ notRoot
      exact advances.live dir (simulates.lags.dirs member) live
  unused := simulates.unused
  store_unknown := simulates.store_unknown

theorem resolve_hub : state.tree.resolve [inodesName] = some hub := by
  have holds := simulates.holds
  simp [Tree.resolve, Tree.resolveFrom, holds.root_eq, holds.hub_entry]

theorem resolve_inodePath (inode : Inode) : state.tree.resolve (inodePath inode) =
      state.tree.child hub (toString inode) := by
  have hubResolved := simulates.resolve_hub
  have split : inodePath inode = [inodesName] ++ [toString inode] := rfl
  rw [split, Tree.resolve_concat, hubResolved]
  rfl

/-- The dictionary leads to the directories that the traced file system
has. -/
theorem resolve_path {dir : Inode} (member : dir ∈ names.dirs)
    (live : trace.Live root dir) {path : Path} (entry : state.dirinodeMap dir = some path) :
    state.tree.resolve path = some (place dir) := by
  induction path using List.reverseRecOn generalizing dir with
  | nil =>
    by_cases isRoot : dir = root
    · subst isRoot
      rw [← simulates.holds.root_eq]
      rfl
    · rcases simulates.placed.somewhere dir member live isRoot with
        waits | ⟨parent, name, path, linked⟩
      · simp [waits.path, inodePath] at entry
      · simp [linked.path] at entry
  | append_singleton path name ih =>
    have notRoot : dir ≠ root := by
      intro isRoot
      subst isRoot
      simp [simulates.placed.root_path] at entry
    rcases simulates.placed.somewhere dir member live notRoot with
      waits | ⟨parent, tested, parentPath, linked⟩
    · have same : inodePath dir = path ++ [name] := by simpa [waits.path] using entry
      rw [← same, simulates.resolve_inodePath, waits.hub_entry]
    · have same : parentPath ++ [tested] = path ++ [name] := by simpa [linked.path] using entry
      obtain ⟨samePath, sameName⟩ := List.append_inj' same rfl
      have sameName : tested = name := by simpa using sameName
      subst samePath sameName
      have bound := linked.bound
      have parentKnown := simulates.lags.parent_known parent tested dir bound
      have inTrace := simulates.lags.agrees dir member live parent tested bound
      have parentLive := simulates.wellFormed.parent_live parent tested dir inTrace
      have parentResolved := ih parentKnown parentLive linked.parent_path
      have avoids : ¬(parent = root ∧ tested = inodesName) := by
        rintro ⟨isRoot, isHub⟩
        subst isRoot isHub
        simp [simulates.lags.hub_unbound] at bound
      rw [Tree.resolve_concat, parentResolved, Option.bind_some,
        simulates.holds.child parent parentKnown tested avoids, bound]
      rfl

end

end Simulates

end

end Alice
