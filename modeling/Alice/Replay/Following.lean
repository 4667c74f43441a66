import Alice.Replay.Simulation

/-! # Rows keep the simulation

A branch of `replay_disk_ops` returns exactly if the operation fits what the
earlier rows have left at its name, and then leads to the names after it. -/

namespace Alice

open Posix (Ino Name Path Bytes Tree Errno)
open Checked

variable
  {root : Inode} {trace names : Naming} {store : Inode → Bytes}
  {tree tree' : Tree} {state : ReplayState} {place : Inode → Ino} {hub : Ino}

/-! ## Changes of the tree -/

namespace Holds

variable {inode file : Inode}

section

variable (holds : Holds root names store tree place hub)
include holds

theorem place_unused (known : names.Known inode) : tree.node (place inode) ≠ none := by
  rcases known with isDir | isFile
  · exact Tree.node_isSome_of_isDir (holds.isDir inode isDir)
  · exact Tree.node_isSome_of_content (holds.content inode isFile)

theorem not_isDir (isFile : file ∈ names.files) : tree.isDir (place file) = false :=
  Tree.not_isDir_of_content (holds.content file isFile)

theorem place_ne_hub (known : names.Known inode) : place inode ≠ hub := by
  rcases known with isDir | isFile
  · exact holds.hub_apart inode isDir
  · intro same
    have notDir := holds.not_isDir isFile
    rw [same, holds.hub_isDir] at notDir
    exact Bool.noConfusion notDir

/-- A new node under a new name of `.inodes` changes nothing that is known. -/
theorem adds (lags : trace.Lags root names) {fresh : Ino}
    (added : Tree.Adds tree tree' hub (toString inode) fresh) (unused : tree.node fresh = none)
    (unknown : ¬names.Known inode) :
    Holds root names store tree' (Function.update place inode fresh) hub := by
  have samePlace : ∀ {other}, names.Known other →
      Function.update place inode fresh other = place other := by
    intro other known
    apply Function.update_of_ne
    intro same
    exact unknown (same ▸ known)
  have notFresh : ∀ {other}, names.Known other → place other ≠ fresh := by
    intro other known same
    exact holds.place_unused known (same ▸ unused)
  have rootKnown : names.Known root := Or.inl lags.root_mem
  have hubNotFresh : hub ≠ fresh := by
    intro same
    exact Tree.node_isSome_of_isDir holds.hub_isDir (same ▸ unused)
  constructor
  · rw [added.root, samePlace rootKnown]
    exact holds.root_eq
  · rw [samePlace rootKnown, added.child, if_neg]
    · exact holds.hub_entry
    · intro atHub
      exact holds.place_ne_hub rootKnown atHub.1
  · rw [added.isDir hub hubNotFresh]
    exact holds.hub_isDir
  · intro dir member
    rw [samePlace (Or.inl member)]
    exact holds.hub_apart dir member
  · intro left right leftKnown rightKnown same
    rw [samePlace leftKnown, samePlace rightKnown] at same
    exact holds.injective left right leftKnown rightKnown same
  · intro file isFile
    have known : names.Known file := Or.inr isFile
    rw [samePlace known, added.content _ (notFresh known)]
    exact holds.content file isFile
  · intro file isFile
    have known : names.Known file := Or.inr isFile
    rw [samePlace known, added.child, if_neg]
    · exact holds.hub_file file isFile
    · intro atInode
      have same : file = inode := toString_inode_injective atInode.2
      exact unknown (same ▸ known)
  · intro dir member
    have known : names.Known dir := Or.inl member
    rw [samePlace known, added.isDir _ (notFresh known)]
    exact holds.isDir dir member
  · intro dir member name avoids
    rw [samePlace (Or.inl member), added.child, if_neg]
    · rw [holds.child dir member name avoids]
      apply Option.map_congr
      intro target bound
      exact (samePlace (lags.target_known dir name target bound)).symm
    · intro atHub
      exact holds.hub_apart dir member atHub.1

/-- The places stay distinct if one object becomes known. -/
private theorem injective_of_new {more : Naming} {new : Inode}
    (known_cases : ∀ {inode}, more.Known inode → inode = new ∨ names.Known inode)
    (unshared : ∀ other, names.Known other → place other = place new → other = new)
    (left right : Inode) (leftKnown : more.Known left) (rightKnown : more.Known right)
    (same : place left = place right) : left = right := by
  rcases known_cases leftKnown with leftIs | leftBefore
  · rcases known_cases rightKnown with rightIs | rightBefore
    · exact leftIs.trans rightIs.symm
    · subst leftIs
      exact (unshared right rightBefore same.symm).symm
  · rcases known_cases rightKnown with rightIs | rightBefore
    · subst rightIs
      exact unshared left leftBefore same
    · exact holds.injective left right leftBefore rightBefore same

/-- A node without entries is taken as the directory of an inode. -/
theorem touchDir {dir : Inode} (isDir : tree.isDir (place dir) = true)
    (apart : place dir ≠ hub)
    (unshared : ∀ other, names.Known other → place other = place dir → other = dir)
    (noEntries : ∀ name, tree.child (place dir) name = none) (empty : names.Empty dir) :
    Holds root (names.touchDir dir) store tree place hub where
  root_eq := holds.root_eq
  hub_entry := holds.hub_entry
  hub_isDir := holds.hub_isDir
  hub_apart := by
    intro other member
    rcases Set.mem_insert_iff.1 member with same | before
    · exact same ▸ apart
    · exact holds.hub_apart other before
  injective := by
    refine holds.injective_of_new (fun known => ?_) unshared
    rcases known with member | isFile
    · exact (Set.mem_insert_iff.1 member).imp_right Or.inl
    · exact Or.inr (Or.inr isFile)
  content := holds.content
  hub_file := holds.hub_file
  isDir := by
    intro other member
    rcases Set.mem_insert_iff.1 member with same | before
    · exact same ▸ isDir
    · exact holds.isDir other before
  child := by
    intro other member name avoids
    rcases Set.mem_insert_iff.1 member with same | before
    · subst same
      have unbound : (names.touchDir other).child other name = none := empty name
      rw [noEntries, unbound]
      rfl
    · exact holds.child other before name avoids

/-- A file node with a link in `.inodes` is taken as the file of an inode. -/
theorem touchFile (content : tree.content (place file) = some (store file))
    (hubEntry : tree.child hub (toString file) = some (place file))
    (unshared : ∀ other, names.Known other → place other = place file → other = file) :
    Holds root (names.touchFile file) store tree place hub where
  root_eq := holds.root_eq
  hub_entry := holds.hub_entry
  hub_isDir := holds.hub_isDir
  hub_apart := holds.hub_apart
  injective := by
    refine holds.injective_of_new (fun known => ?_) unshared
    rcases known with isDir | member
    · exact Or.inr (Or.inl isDir)
    · exact (Set.mem_insert_iff.1 member).imp_right Or.inr
  content := by
    intro other member
    rcases Set.mem_insert_iff.1 member with same | before
    · exact same ▸ content
    · exact holds.content other before
  hub_file := by
    intro other member
    rcases Set.mem_insert_iff.1 member with same | before
    · exact same ▸ hubEntry
    · exact holds.hub_file other before
  isDir := holds.isDir
  child := holds.child

theorem rebind {parent : Inode} {name : Name} {target : Option Inode}
    (rootKnown : root ∈ names.dirs) (known : parent ∈ names.dirs)
    (avoids : ¬(parent = root ∧ name = inodesName))
    (rebinds : Tree.Rebinds tree tree' (place parent) name (target.map place)) :
    Holds root (names.setEntry parent name target) store tree' place
      hub := by
  have samePlace : ∀ dir ∈ names.dirs, place dir = place parent → dir = parent := by
    intro dir member same
    exact holds.injective dir parent (Or.inl member) (Or.inl known) same
  constructor
  · rw [rebinds.root]
    exact holds.root_eq
  · rw [rebinds.child, if_neg]
    · exact holds.hub_entry
    · intro atEntry
      exact avoids ⟨(samePlace root rootKnown atEntry.1).symm, atEntry.2.symm⟩
  · rw [rebinds.isDir]
    exact holds.hub_isDir
  · exact holds.hub_apart
  · exact holds.injective
  · intro file isFile
    rw [rebinds.content]
    exact holds.content file isFile
  · intro file isFile
    rw [rebinds.child, if_neg]
    · exact holds.hub_file file isFile
    · intro atEntry
      exact holds.hub_apart parent known atEntry.1.symm
  · intro dir member
    rw [rebinds.isDir]
    exact holds.isDir dir member
  · intro dir member tested testedAvoids
    rw [rebinds.child, Naming.child_setEntry]
    by_cases atEntry : dir = parent ∧ tested = name
    · rw [if_pos atEntry, if_pos ⟨congrArg place atEntry.1, atEntry.2⟩]
    · rw [if_neg atEntry, if_neg]
      · exact holds.child dir member tested testedAvoids
      · intro atPlace
        exact atEntry ⟨samePlace dir member atPlace.1, atPlace.2⟩

/-- One entry of `.inodes` changes that is not the link of a file. -/
theorem rebindHub {target : Option Ino} (rootKnown : root ∈ names.dirs)
    (notFile : inode ∉ names.files)
    (rebinds : Tree.Rebinds tree tree' hub (toString inode) target) :
    Holds root names store tree' place hub := by
  constructor
  · rw [rebinds.root]
    exact holds.root_eq
  · rw [rebinds.child, if_neg]
    · exact holds.hub_entry
    · intro atHub
      exact holds.hub_apart root rootKnown atHub.1
  · rw [rebinds.isDir]
    exact holds.hub_isDir
  · exact holds.hub_apart
  · exact holds.injective
  · intro file isFile
    rw [rebinds.content]
    exact holds.content file isFile
  · intro file isFile
    rw [rebinds.child, if_neg]
    · exact holds.hub_file file isFile
    · intro atInode
      have same : file = inode := toString_inode_injective atInode.2
      exact notFile (same ▸ isFile)
  · intro dir member
    rw [rebinds.isDir]
    exact holds.isDir dir member
  · intro dir member name avoids
    rw [rebinds.child, if_neg]
    · exact holds.child dir member name avoids
    · intro atHub
      exact holds.hub_apart dir member atHub.1

theorem setContent (isFile : file ∈ names.files) (bytes : Bytes) :
    Holds root names (Function.update store file bytes)
      (tree.setNode (place file) (.file bytes)) place hub := by
  have notDir := holds.not_isDir isFile
  have sameChild := Tree.child_setNode_file notDir bytes
  have sameIsDir := Tree.isDir_setNode_file notDir bytes
  constructor
  · exact holds.root_eq
  · rw [sameChild]
    exact holds.hub_entry
  · rw [sameIsDir]
    exact holds.hub_isDir
  · exact holds.hub_apart
  · exact holds.injective
  · intro other otherIsFile
    rw [Tree.content_setNode_file]
    by_cases same : other = file
    · subst same
      rw [if_pos rfl, Function.update_self]
    · rw [if_neg, Function.update_of_ne same]
      · exact holds.content other otherIsFile
      · intro samePlace
        exact same (holds.injective other file (Or.inr otherIsFile) (Or.inr isFile) samePlace)
  · intro other otherIsFile
    rw [sameChild]
    exact holds.hub_file other otherIsFile
  · intro dir member
    rw [sameIsDir]
    exact holds.isDir dir member
  · intro dir member name avoids
    rw [sameChild]
    exact holds.child dir member name avoids

end

end Holds

/-! ## Lookups that create -/

theorem ReplayState.osCall_eq_ok {call : Tree → Except Errno Tree}
    (returned : call state.tree = .ok tree) :
    state.osCall call = .ok { state with tree := tree } := by
  simp [ReplayState.osCall, returned]

theorem ReplayState.osCreate_eq_ok {call : Tree → Ino → Except Errno Tree}
    (returned : call state.tree state.next = .ok tree) : state.osCreate call =
      .ok { state with tree := tree, next := state.next + 1 } := by
  simp [ReplayState.osCreate, ReplayState.osCall, returned, Except.map]

namespace Simulates

variable {dir inode : Inode}

section

variable (simulates : Simulates root trace names store state place hub)
include simulates

theorem exists_path (member : dir ∈ names.dirs) (live : trace.Live root dir) :
    ∃ path, state.dirinodeMap dir = some path := by
  by_cases isRoot : dir = root
  · subst isRoot
    exact ⟨[], simulates.placed.root_path⟩
  · rcases simulates.placed.somewhere dir member live isRoot with
      waits | ⟨parent, name, path, linked⟩
    · exact ⟨_, waits.path⟩
    · exact ⟨_, linked.path⟩

/-- The directories other than a new object are where they were. -/
private theorem somewhere_adds (after : ReplayState) (more : Naming) {fresh : Ino}
    (sameChild : more.child = names.child)
    (added : Tree.Adds state.tree after.tree hub (toString inode) fresh)
    (samePaths : ∀ other, other ≠ inode → after.dirinodeMap other = state.dirinodeMap other)
    (unknown : ¬names.Known inode) (member : dir ∈ names.dirs)
    (live : trace.Live root dir) (notRoot : dir ≠ root) :
    Waits more after (Function.update place inode fresh) hub dir ∨ ∃ parent name path,
        Linked more after hub dir parent name path := by
  have different : ∀ {other}, other ∈ names.dirs → other ≠ inode := by
    intro other otherMember same
    exact unknown (Or.inl (same ▸ otherMember))
  have sameHub : after.tree.child hub (toString dir) = state.tree.child hub (toString dir) := by
    rw [added.child, if_neg]
    intro atInode
    exact different member (toString_inode_injective atInode.2)
  rcases simulates.placed.somewhere dir member live notRoot with
    waits | ⟨parent, name, path, linked⟩
  · left
    refine ⟨sameChild ▸ waits.unbound, ?_, ?_⟩
    · rw [samePaths dir (different member)]
      exact waits.path
    · rw [sameHub, Function.update_of_ne (different member)]
      exact waits.hub_entry
  · right
    have parentKnown := simulates.lags.parent_known parent name dir linked.bound
    refine ⟨parent, name, path, sameChild ▸ linked.bound, ?_, ?_, ?_⟩
    · rw [samePaths parent (different parentKnown)]
      exact linked.parent_path
    · rw [samePaths dir (different member)]
      exact linked.path
    · rw [sameHub]
      exact linked.hub_entry

private theorem unused_adds {name : Name} (added : Tree.Adds state.tree tree' hub name state.next)
    (ino : Ino) (beyond : state.next + 1 ≤ ino) : tree'.node ino = none := by
  have above : state.next < ino := beyond
  rw [added.unused ino (Nat.ne_of_gt above)]
  exact simulates.unused ino (Nat.le_of_lt above)

private theorem place_ne_next (known : names.Known inode) : place inode ≠ state.next := by
  intro same
  have unused := simulates.unused (place inode) (Nat.le_of_eq same.symm)
  exact simulates.holds.place_unused known unused

private theorem hub_ne_next : state.next ≠ hub := by
  intro same
  have unused := simulates.unused hub (Nat.le_of_eq same)
  exact Tree.node_isSome_of_isDir simulates.holds.hub_isDir unused

private theorem unshared_next {other : Inode} (known : names.Known other)
    (same : Function.update place inode state.next other =
      Function.update place inode state.next inode) : other = inode := by
  by_contra different
  rw [Function.update_of_ne different, Function.update_self] at same
  exact simulates.place_ne_next known same

private theorem makeDirectory (live : trace.Live root dir)
    (unknown : ¬names.Known dir) (added : Tree.Adds state.tree tree' hub (toString dir) state.next)
    (isDir : tree'.isDir state.next = true) : Simulates root trace (names.touchDir dir) store
      { state with
        tree := tree'
        next := state.next + 1
        dirinodeMap := Function.update state.dirinodeMap dir (some (inodePath dir)) }
      (Function.update place dir state.next) hub := by
  have freshUnused := simulates.unused state.next (Nat.le_refl _)
  have notMember : dir ∉ names.dirs := fun member => unknown (Or.inl member)
  have notRoot : root ≠ dir := by
    intro same
    exact notMember (same ▸ simulates.lags.root_mem)
  have noEntries : ∀ name, tree'.child state.next name = none := by
    intro name
    rw [added.child, if_neg]
    · exact Tree.child_eq_none_of_not_isDir (Tree.not_isDir_of_node freshUnused) name
    · intro atHub
      exact simulates.hub_ne_next atHub.1
  have kept := simulates.holds.adds simulates.lags added freshUnused unknown
  refine ⟨simulates.wellFormed, simulates.lags.touchDir unknown live.1,
    ?_, ?_, simulates.unused_adds added, simulates.store_unknown⟩
  · apply kept.touchDir
    · rw [Function.update_self]
      exact isDir
    · rw [Function.update_self]
      exact simulates.hub_ne_next
    · intro other known same
      exact simulates.unshared_next known same
    · rw [Function.update_self]
      exact noEntries
    · exact simulates.lags.empty_of_unknown notMember
  · constructor
    · exact (Function.update_of_ne notRoot ..).trans simulates.placed.root_path
    · intro other otherUnknown
      have different : other ≠ dir := by
        intro same
        exact otherUnknown (same ▸ Set.mem_insert _ _)
      refine (Function.update_of_ne different ..).trans ?_
      apply simulates.placed.unknown_path
      intro before
      exact otherUnknown (Set.mem_insert_of_mem _ before)
    · intro other otherUnknown notDead
      have different : other ≠ dir := by
        intro same
        exact otherUnknown (Or.inl (same ▸ Set.mem_insert _ _))
      rw [added.child, if_neg]
      · apply simulates.placed.unknown_hub other _ notDead
        intro before
        exact otherUnknown (before.imp_left (Set.mem_insert_of_mem _))
      · intro atInode
        exact different (toString_inode_injective atInode.2)
    · intro other otherMember otherLive otherNotRoot
      rcases Set.mem_insert_iff.1 otherMember with same | before
      · subst same
        left
        refine ⟨simulates.lags.unbound_of_unknown unknown, Function.update_self .., ?_⟩
        rw [Function.update_self, added.child, if_pos ⟨rfl, rfl⟩]
      · refine simulates.somewhere_adds ⟨tree', _, _, _⟩
          (names.touchDir dir) rfl added ?_ unknown before otherLive otherNotRoot
        intro tested different
        exact Function.update_of_ne different ..

theorem getInodeDirectory (live : trace.Live root dir) {mode : Option Mode}
    (modeOk : ReplayState.checkMode mode = .ok ()) : ∃ after path place',
      state.getInodeDirectory dir mode = .ok (after, path) ∧
        after.dirinodeMap dir = some path ∧ (∀ other, other ≠ dir →
          after.dirinodeMap other = state.dirinodeMap other) ∧
        Simulates root trace (names.touchDir dir) store after place'
          hub := by
  by_cases member : dir ∈ names.dirs
  · obtain ⟨path, entry⟩ := simulates.exists_path member live
    have same : names.touchDir dir = names := by
      unfold Naming.touchDir
      rw [Set.insert_eq_of_mem member]
    refine ⟨state, path, place, ?_, entry, fun _ _ => rfl, ?_⟩
    · simp [ReplayState.getInodeDirectory, entry]
    · rw [same]
      exact simulates
  · have unknown : ¬names.Known dir := by
      rintro (isDir | isFile)
      · exact member isDir
      · exact simulates.wellFormed.apart dir live.1 (simulates.lags.files isFile)
    have noPath := simulates.placed.unknown_path dir member
    have absent : state.tree.child hub (toString dir) = none := by
      apply simulates.placed.unknown_hub dir unknown
      intro dead
      exact dead.2 live
    have freshUnused := simulates.unused state.next (Nat.le_refl _)
    have made := Tree.mkdir_concat simulates.resolve_hub simulates.holds.hub_isDir absent state.next
    have added := Tree.adds_emptyDir freshUnused simulates.holds.hub_isDir (toString dir)
    have isDir := Tree.isDir_emptyDir state.tree state.next hub (toString dir)
    have following := simulates.makeDirectory live unknown added isDir
    refine ⟨_, inodePath dir, _, ?_, ?_, ?_, following⟩
    · have created : (state.osCreate fun tree fresh =>
              tree.mkdir (inodePath dir) fresh) = _ :=
        ReplayState.osCreate_eq_ok made
      simp only [ReplayState.getInodeDirectory, noPath, modeOk, ok_bind, created]
      rfl
    · exact Function.update_self ..
    · intro other different
      exact Function.update_of_ne different ..

private theorem makeFile {file : Inode} (inTrace : file ∈ trace.files)
    (unknown : ¬names.Known file)
    (added : Tree.Adds state.tree tree' hub (toString file) state.next)
    (content : tree'.content state.next = some []) :
    Simulates root trace (names.touchFile file) store
      { state with tree := tree', next := state.next + 1 }
      (Function.update place file state.next) hub := by
  have freshUnused := simulates.unused state.next (Nat.le_refl _)
  have notFile : file ∉ names.files := fun isFile => unknown (Or.inr isFile)
  have kept := simulates.holds.adds simulates.lags added freshUnused unknown
  refine ⟨simulates.wellFormed, simulates.lags.touchFile inTrace, ?_, ?_,
    simulates.unused_adds added, ?_⟩
  · apply kept.touchFile
    · rw [Function.update_self, simulates.store_unknown file notFile]
      exact content
    · rw [Function.update_self, added.child, if_pos ⟨rfl, rfl⟩]
    · intro other known same
      exact simulates.unshared_next known same
  · refine ⟨simulates.placed.root_path, simulates.placed.unknown_path, ?_, ?_⟩
    · intro other otherUnknown notDead
      have different : other ≠ file := by
        intro same
        exact otherUnknown (Or.inr (same ▸ Set.mem_insert _ _))
      rw [added.child, if_neg]
      · apply simulates.placed.unknown_hub other _ notDead
        intro before
        exact otherUnknown (before.imp_right (Set.mem_insert_of_mem _))
      · intro atInode
        exact different (toString_inode_injective atInode.2)
    · intro other otherMember otherLive otherNotRoot
      exact simulates.somewhere_adds ⟨tree', _, _, _⟩
        (names.touchFile file) rfl added (fun _ _ => rfl) unknown otherMember otherLive otherNotRoot
  · intro other otherUnknown
    apply simulates.store_unknown
    intro before
    exact otherUnknown (Set.mem_insert_of_mem _ before)

theorem getInodeFile {file : Inode} (inTrace : file ∈ trace.files) {mode : Option Mode}
    (modeOk : ReplayState.checkMode mode = .ok ()) : ∃ after place',
      state.getInodeFile file mode = .ok after ∧ after.dirinodeMap = state.dirinodeMap ∧
        Simulates root trace (names.touchFile file) store after place'
          hub := by
  have resolved := simulates.resolve_inodePath file
  by_cases member : file ∈ names.files
  · have same : names.touchFile file = names := by
      unfold Naming.touchFile
      rw [Set.insert_eq_of_mem member]
    refine ⟨state, place, ?_, rfl, ?_⟩
    · have present : state.pathExists (inodePath file) = true := by
        rw [ReplayState.pathExists, resolved, simulates.holds.hub_file file member]
        rfl
      simp only [ReplayState.getInodeFile, present, if_true]
    · rw [same]
      exact simulates
  · have notDir : file ∉ trace.dirs := by
      intro isDir
      exact simulates.wellFormed.apart file isDir inTrace
    have unknown : ¬names.Known file := by
      rintro (isDir | isFile)
      · exact notDir (simulates.lags.dirs isDir)
      · exact member isFile
    have absent : state.tree.child hub (toString file) = none := by
      apply simulates.placed.unknown_hub file unknown
      intro dead
      exact notDir dead.1
    have freshUnused := simulates.unused state.next (Nat.le_refl _)
    have made := Tree.create_concat simulates.resolve_hub simulates.holds.hub_isDir
        absent state.next
    have added := Tree.adds_emptyFile freshUnused simulates.holds.hub_isDir (toString file)
    have content := Tree.content_emptyFile state.tree state.next hub (toString file)
    have following := simulates.makeFile inTrace unknown added content
    refine ⟨_, _, ?_, ?_, following⟩
    rotate_left
    · rfl
    have created : (state.osCreate fun tree fresh =>
            tree.create (inodePath file) fresh) = _ :=
      ReplayState.osCreate_eq_ok made
    have missing : state.pathExists (inodePath file) = false := by
      rw [ReplayState.pathExists, resolved, absent]
      rfl
    simp only [ReplayState.getInodeFile, missing, Bool.false_eq_true,
      if_false, modeOk, ok_bind, created]

end

/-! ## Entries of files -/

section Entries

variable {parent : Inode} {name : Name} {path : Path}

section

variable (simulates : Simulates root trace names store state place hub)
include simulates

section

variable (known : parent ∈ names.dirs)
include known

section

variable (live : trace.Live root parent) (entry : state.dirinodeMap parent = some path)
  (avoids : ¬(parent = root ∧ name = inodesName))
include live entry avoids

theorem resolve_entry :
    state.tree.resolve (path ++ [name]) = (names.child parent name).map place := by
  rw [Tree.resolve_concat, simulates.resolve_path known live entry,
    Option.bind_some, simulates.holds.child parent known name avoids]

theorem pathExists_entry :
    state.pathExists (path ++ [name]) = (names.child parent name).isSome := by
  rw [ReplayState.pathExists, simulates.resolve_entry known live entry avoids, Option.isSome_map]

end

/-- A name that no directory of the traced file system has is bound to a file
or unbound. -/
theorem setEntry {target : Option Inode} (avoids : ¬(parent = root ∧ name = inodesName))
    (rebinds : Tree.Rebinds state.tree tree' (place parent) name (target.map place))
    (noLive : ∀ dir ∈ names.dirs, trace.Live root dir → names.child parent name ≠ some dir)
    (targetFile : ∀ file, target = some file → file ∈ names.files) :
    Simulates root trace (names.setEntry parent name target) store
      { state with tree := tree' } place hub := by
  have notDir : ∀ dir ∈ names.dirs, target ≠ some dir := by
    intro dir member isTarget
    exact simulates.wellFormed.apart dir (simulates.lags.dirs member)
      (simulates.lags.files (targetFile dir isTarget))
  have sameHub : ∀ tested, tree'.child hub tested = state.tree.child hub tested := by
    intro tested
    rw [rebinds.child, if_neg]
    intro atParent
    exact simulates.holds.hub_apart parent known atParent.1.symm
  refine ⟨simulates.wellFormed, ?_, ?_, ?_, ?_, simulates.store_unknown⟩
  · apply simulates.lags.setEntry known avoids
    · intro file isTarget
      exact Or.inr (targetFile file isTarget)
    · intro dir member _ isTarget
      exact False.elim (notDir dir member isTarget)
  · exact simulates.holds.rebind simulates.lags.root_mem known avoids rebinds
  · refine ⟨simulates.placed.root_path, simulates.placed.unknown_path, ?_, ?_⟩
    · intro inode unknown notDead
      rw [sameHub]
      exact simulates.placed.unknown_hub inode unknown notDead
    · intro dir member live notRoot
      rcases simulates.placed.somewhere dir member live notRoot with
        waits | ⟨other, tested, otherPath, linked⟩
      · left
        refine ⟨?_, waits.path, ?_⟩
        · intro other tested bound
          rw [Naming.child_setEntry] at bound
          split at bound
          · exact notDir dir member bound
          · exact waits.unbound other tested bound
        · exact (sameHub _).trans waits.hub_entry
      · right
        refine ⟨other, tested, otherPath, ?_, linked.parent_path, linked.path, ?_⟩
        · rw [Naming.child_setEntry, if_neg]
          · exact linked.bound
          · rintro ⟨sameParent, sameName⟩
            subst sameParent sameName
            exact noLive dir member live linked.bound
        · exact (sameHub _).trans linked.hub_entry
  · intro ino beyond
    rw [rebinds.unused]
    exact simulates.unused ino beyond

section

variable (live : trace.Live root parent) (entry : state.dirinodeMap parent = some path)
  (avoids : ¬(parent = root ∧ name = inodesName))
include live entry avoids

theorem unlink_entry {existing : Inode} (bound : names.child parent name = some existing)
    (notDir : existing ∉ names.dirs) : ∃ after,
      (state.osCall fun tree => tree.unlink (path ++ [name])) = .ok after ∧
        after.dirinodeMap = state.dirinodeMap ∧
        Simulates root trace (names.setEntry parent name none) store after
          place hub := by
  have isFile : existing ∈ names.files :=
    (simulates.lags.target_known parent name existing bound).resolve_left notDir
  have found : state.tree.child (place parent) name = some (place existing) := by
    rw [simulates.holds.child parent known name avoids, bound]
    rfl
  have removed := Tree.unlink_concat (simulates.resolve_path known live entry)
      (simulates.holds.isDir parent known) found
  rw [simulates.holds.not_isDir isFile, if_neg Bool.false_ne_true] at removed
  refine ⟨_, ReplayState.osCall_eq_ok removed, rfl, ?_⟩
  apply simulates.setEntry known avoids (Tree.rebinds_dropEntry ..)
  · intro dir member _ alsoBound
    rw [bound] at alsoBound
    exact notDir (Option.some.inj alsoBound ▸ member)
  · simp

theorem unlink_directory {existing : Inode} (bound : names.child parent name = some existing)
    (isDir : existing ∈ names.dirs) : (state.osCall fun tree => tree.unlink (path ++ [name])) =
      .error (.osError .eisdir) := by
  have found : state.tree.child (place parent) name = some (place existing) := by
    rw [simulates.holds.child parent known name avoids, bound]
    rfl
  have refused := Tree.unlink_concat (simulates.resolve_path known live entry)
      (simulates.holds.isDir parent known) found
  rw [simulates.holds.isDir existing isDir, if_pos rfl] at refused
  simp only [ReplayState.osCall, refused]

theorem link_entry (free : names.child parent name = none) {file : Inode}
    (isFile : file ∈ names.files) : ∃ after, (state.osCall fun tree =>
          tree.link (inodePath file) (path ++ [name])) = .ok after ∧
        Simulates root trace (names.setEntry parent name (some file)) store
          after place hub := by
  have source : state.tree.resolve (inodePath file) = some (place file) := by
    rw [simulates.resolve_inodePath]
    exact simulates.holds.hub_file file isFile
  have absent : state.tree.child (place parent) name = none := by
    rw [simulates.holds.child parent known name avoids, free]
    rfl
  have isDirectory := simulates.holds.isDir parent known
  have linked := Tree.link_concat source (simulates.holds.not_isDir isFile)
      (simulates.resolve_path known live entry) isDirectory absent
  refine ⟨_, ReplayState.osCall_eq_ok linked, ?_⟩
  apply simulates.setEntry known avoids (Tree.rebinds_bindEntry isDirectory name (place file))
  · intro dir _ _ alsoBound
    simp [free] at alsoBound
  · intro other same
    exact Option.some.inj same ▸ isFile

end

end

end

end Entries

end Simulates

end Alice
