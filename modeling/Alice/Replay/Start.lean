import Alice.Replay.Run

/-! # The start of a replay

If the snapshot has no hard links and no entry `.inodes`,
`initialize_inode_links` returns, and the replay then simulates the names and
contents of the snapshot. -/

namespace Alice

open Posix (Ino Name Path Bytes Tree)
open Checked

namespace Snapshot

def naming (snapshot : Snapshot) : Naming where
  dirs := {inode | snapshot.tree.isDir inode = true}
  files := {inode | (snapshot.tree.content inode).isSome = true}
  child := snapshot.tree.child

def store (snapshot : Snapshot) : Inode → Bytes :=
  fun inode => (snapshot.tree.content inode).getD []

section

variable {snapshot : Snapshot}

theorem mem_dirs {inode : Inode} :
    inode ∈ snapshot.naming.dirs ↔ snapshot.tree.isDir inode = true :=
  Iff.rfl

theorem mem_files {inode : Inode} : inode ∈ snapshot.naming.files ↔
      (snapshot.tree.content inode).isSome = true :=
  Iff.rfl

theorem store_unknown : ∀ file ∉ snapshot.naming.files, snapshot.store file = [] := by
  intro file notFile
  have noContent : snapshot.tree.content file = none := by simpa [mem_files] using notFile
  simp [store, noContent]

variable {ino : Ino}

theorem NoHardLinks.path_unique (noHardLinks : snapshot.NoHardLinks) {path path' : Path}
    (resolved : snapshot.tree.resolve path = some ino)
    (resolved' : snapshot.tree.resolve path' = some ino) : path = path' := by
  have listed := (snapshot.mem_listing path ino).2 resolved
  have listed' := (snapshot.mem_listing path' ino).2 resolved'
  have same : (path, ino) = (path', ino) := List.inj_on_of_nodup_map noHardLinks listed listed' rfl
  exact congrArg Prod.fst same

theorem exists_path_of_child {dir : Ino} {name : Name}
    (child : snapshot.tree.child dir name = some ino) : ∃ path,
      snapshot.tree.resolve path = some dir ∧
        snapshot.tree.resolve (path ++ [name]) = some ino := by
  have used : (snapshot.tree.node dir).isSome = true := Option.isSome_iff_ne_none.2
      (Tree.node_isSome_of_isDir (Tree.isDir_of_child child))
  obtain ⟨path, resolved⟩ := snapshot.reachable dir used
  refine ⟨path, resolved, ?_⟩
  rw [Tree.resolve_concat, resolved]
  exact child

theorem known_of_resolve {path : Path} (resolved : snapshot.tree.resolve path = some ino) :
    snapshot.naming.Known ino := by
  have used := snapshot.node_isSome path ino resolved
  obtain ⟨node, lookup⟩ := Option.isSome_iff_exists.1 used
  cases node with
  | file bytes =>
    right
    rw [mem_files, Tree.content_eq_some_iff.2 lookup]
    rfl
  | dir entries => exact Or.inl (Tree.isDir_iff.2 ⟨entries, lookup⟩)

theorem wellFormed_naming (noHardLinks : snapshot.NoHardLinks) :
    snapshot.naming.WellFormed snapshot.tree.root := by
  constructor
  · exact snapshot.root_isDir
  · intro parent name bound
    obtain ⟨path, _, resolved⟩ := exists_path_of_child bound
    have same : path ++ [name] = [] := noHardLinks.path_unique resolved rfl
    simp at same
  · intro inode isDir isFile
    obtain ⟨bytes, content⟩ := Option.isSome_iff_exists.1 isFile
    have notDir := Tree.not_isDir_of_content content
    rw [mem_dirs.1 isDir] at notDir
    simp at notDir
  · intro parent name inode bound
    obtain ⟨path, resolved, _⟩ := exists_path_of_child bound
    refine ⟨Tree.isDir_of_child bound, ?_⟩
    rcases List.eq_nil_or_concat path with isNil | ⟨front, last, isConcat⟩
    · rw [isNil] at resolved
      exact Or.inl (Option.some.inj resolved).symm
    · rw [isConcat, List.concat_eq_append, Tree.resolve_concat] at resolved
      obtain ⟨grandparent, _, child⟩ := Option.bind_eq_some_iff.1 resolved
      exact Or.inr ⟨grandparent, last, child⟩
  · intro parent name inode bound
    obtain ⟨path, _, resolved⟩ := exists_path_of_child bound
    exact known_of_resolve resolved
  · intro dir _ parent name parent' name' bound bound'
    obtain ⟨path, resolved, further⟩ := exists_path_of_child bound
    obtain ⟨path', resolved', further'⟩ := exists_path_of_child bound'
    have same := noHardLinks.path_unique further further'
    obtain ⟨samePath, sameName⟩ := List.append_inj' same rfl
    subst samePath
    rw [resolved] at resolved'
    exact ⟨Option.some.inj resolved', by simpa using sameName⟩

theorem lags_naming (noHardLinks : snapshot.NoHardLinks)
    (hubFree : snapshot.tree.child snapshot.tree.root inodesName = none) :
    snapshot.naming.Lags snapshot.tree.root snapshot.naming where
  dirs := Set.Subset.rfl
  files := Set.Subset.rfl
  root_mem := snapshot.root_isDir
  hub_unbound := hubFree
  parent_known _ _ _ bound := Tree.isDir_of_child bound
  target_known := (wellFormed_naming noHardLinks).target_known
  agrees _ _ _ _ _ := id

end

/-! ## The loop over the listing -/

/-- The state after the entries `done` of the listing. -/
structure Initialized (snapshot : Snapshot) (done : List (Path × Ino)) (state : ReplayState) :
    Prop where
  root : state.tree.root = snapshot.tree.root
  next : state.next = snapshot.next + 1
  child : ∀ directory name, directory ≠ snapshot.next → state.tree.child directory name =
      if directory = snapshot.tree.root ∧ name = inodesName then
        some snapshot.next
      else
        snapshot.tree.child directory name
  hub_isDir : state.tree.isDir snapshot.next = true
  hub_child : ∀ inode, state.tree.child snapshot.next (toString inode) =
      if inode ∈ done.map Prod.snd ∧ snapshot.tree.isDir inode = false then
        some inode
      else
        none
  isDir : ∀ ino, ino ≠ snapshot.next → state.tree.isDir ino = snapshot.tree.isDir ino
  content : ∀ ino, state.tree.content ino = snapshot.tree.content ino
  unused : ∀ ino, snapshot.next < ino → state.tree.node ino = none
  path : ∀ path ino, (path, ino) ∈ done → snapshot.tree.isDir ino = true →
    state.dirinodeMap ino = some path
  no_path : ∀ ino, snapshot.tree.isDir ino = false → state.dirinodeMap ino = none

section

variable {snapshot : Snapshot}

theorem ne_next_of_node {ino : Ino} (used : snapshot.tree.node ino ≠ none) :
    ino ≠ snapshot.next := by
  intro same
  exact used (snapshot.node_next ino (Nat.le_of_eq same.symm))

theorem initialized_copyOf (hubFree : snapshot.tree.child snapshot.tree.root inodesName = none) :
    snapshot.Initialized [] (ReplayState.copyOf snapshot) := by
  have freshUnused := snapshot.node_next snapshot.next (Nat.le_refl _)
  have made : snapshot.tree.mkdir ([] ++ [inodesName]) snapshot.next = .ok _ :=
    Tree.mkdir_concat rfl snapshot.root_isDir hubFree snapshot.next
  have added := Tree.adds_emptyDir freshUnused snapshot.root_isDir inodesName
  have isDir := Tree.isDir_emptyDir snapshot.tree snapshot.next snapshot.tree.root inodesName
  generalize (snapshot.tree.setNode snapshot.next (.dir ∅)).bindEntry
    snapshot.tree.root inodesName snapshot.next = tree at made added isDir
  have copied : (ReplayState.copyOf snapshot).tree = tree := by
    rw [List.nil_append] at made
    simp only [ReplayState.copyOf, made]
  have rootNotHub : snapshot.next ≠ snapshot.tree.root :=
    (ne_next_of_node (Tree.node_isSome_of_isDir snapshot.root_isDir)).symm
  constructor
  · rw [copied, added.root]
  · rfl
  · intro dir name notHub
    rw [copied, added.child]
  · rw [copied]
    exact isDir
  · intro inode
    rw [copied, added.child, if_neg, if_neg]
    · exact Tree.child_eq_none_of_not_isDir (Tree.not_isDir_of_node freshUnused) _
    · simp
    · intro atRoot
      exact rootNotHub atRoot.1
  · intro ino notHub
    rw [copied, added.isDir ino notHub]
  · intro ino
    by_cases isHub : ino = snapshot.next
    · subst isHub
      have noContent : snapshot.tree.content snapshot.next = none := by
        simp [Tree.content, freshUnused]
      rw [copied, noContent]
      by_contra some
      obtain ⟨bytes, content⟩ := Option.ne_none_iff_exists'.1 some
      have notDir := Tree.not_isDir_of_content content
      rw [isDir] at notDir
      simp at notDir
    · rw [copied, added.content ino isHub]
  · intro ino above
    rw [copied, added.unused ino (Nat.ne_of_gt above)]
    exact snapshot.node_next ino (Nat.le_of_lt above)
  · simp
  · intro ino _
    rfl

namespace Initialized

variable {done : List (Path × Ino)} {state : ReplayState}

theorem resolve (initialized : snapshot.Initialized done state)
    (hubFree : snapshot.tree.child snapshot.tree.root inodesName = none) {path : Path} {ino : Ino}
    (resolved : snapshot.tree.resolve path = some ino) : state.tree.resolve path = some ino := by
  have kept : ∀ dir name ino, snapshot.tree.child dir name = some ino →
        state.tree.child dir name = some ino := by
    intro dir name ino child
    have notHub : dir ≠ snapshot.next :=
      ne_next_of_node (Tree.node_isSome_of_isDir (Tree.isDir_of_child child))
    rw [initialized.child dir name notHub, if_neg]
    · exact child
    · rintro ⟨isRoot, isHub⟩
      rw [isRoot, isHub, hubFree] at child
      simp at child
  unfold Tree.resolve
  rw [initialized.root]
  exact Tree.resolveFrom_mono kept resolved

theorem resolve_hub (initialized : snapshot.Initialized done state) :
    state.tree.resolve [inodesName] = some snapshot.next := by
  have rootNotHub := ne_next_of_node (Tree.node_isSome_of_isDir snapshot.root_isDir)
  have child := initialized.child snapshot.tree.root inodesName rootNotHub
  simp [Tree.resolve, Tree.resolveFrom, initialized.root, child]

section

variable {path : Path} {ino : Ino}

private theorem mem_concat_of_ne {inode : Inode} (different : inode ≠ ino) :
    inode ∈ (done ++ [(path, ino)]).map Prod.snd ↔ inode ∈ done.map Prod.snd := by
  rw [List.map_append, List.mem_append, List.map_singleton, List.mem_singleton]
  exact or_iff_left different

private theorem addDirectory (initialized : snapshot.Initialized done state)
    (noHardLinks : snapshot.NoHardLinks) (listed : ∀ found ∈ done, found ∈ snapshot.listing)
    (resolved : snapshot.tree.resolve path = some ino) (isDir : snapshot.tree.isDir ino = true) :
    snapshot.Initialized (done ++ [(path, ino)]) (state.setInodeDirectory ino path) := by
  refine ⟨initialized.root, initialized.next, initialized.child,
    initialized.hub_isDir, ?_, initialized.isDir, initialized.content, initialized.unused, ?_, ?_⟩
  · intro inode
    refine (initialized.hub_child inode).trans ?_
    by_cases same : inode = ino
    · subst same
      simp [isDir]
    · simp only [mem_concat_of_ne same]
  · intro otherPath other member otherIsDir
    by_cases same : other = ino
    · subst same
      have otherResolved : snapshot.tree.resolve otherPath = some other := by
        rcases List.mem_append.1 member with before | last
        · exact (snapshot.mem_listing otherPath other).1 (listed _ before)
        · rw [List.mem_singleton, Prod.mk.injEq] at last
          rw [last.1]
          exact resolved
      rw [noHardLinks.path_unique otherResolved resolved]
      exact Function.update_self ..
    · refine (Function.update_of_ne same ..).trans ?_
      apply initialized.path otherPath other _ otherIsDir
      rcases List.mem_append.1 member with before | last
      · exact before
      · rw [List.mem_singleton, Prod.mk.injEq] at last
        exact False.elim (same last.2)
  · intro other notDir
    refine (Function.update_of_ne ?_ ..).trans (initialized.no_path other notDir)
    intro same
    rw [same, isDir] at notDir
    simp at notDir

private theorem addFile (initialized : snapshot.Initialized done state)
    (isDir : snapshot.tree.isDir ino = false) {tree : Tree}
    (rebinds : Tree.Rebinds state.tree tree snapshot.next (toString ino) (some ino)) :
    snapshot.Initialized (done ++ [(path, ino)]) { state with tree := tree } := by
  constructor
  · exact rebinds.root.trans initialized.root
  · exact initialized.next
  · intro dir name notHub
    rw [rebinds.child, if_neg]
    · exact initialized.child dir name notHub
    · intro atHub
      exact notHub atHub.1
  · exact (rebinds.isDir _).trans initialized.hub_isDir
  · intro inode
    rw [rebinds.child]
    by_cases same : inode = ino
    · subst same
      simp [isDir]
    · rw [if_neg, initialized.hub_child]
      · simp only [mem_concat_of_ne same]
      · intro atIno
        exact same (toString_inode_injective atIno.2)
  · intro tested notHub
    exact (rebinds.isDir tested).trans (initialized.isDir tested notHub)
  · intro tested
    exact (rebinds.content tested).trans (initialized.content tested)
  · intro tested above
    rw [rebinds.unused]
    exact initialized.unused tested above
  · intro otherPath other member otherIsDir
    apply initialized.path otherPath other _ otherIsDir
    rcases List.mem_append.1 member with before | last
    · exact before
    · rw [List.mem_singleton, Prod.mk.injEq] at last
      rw [last.2, isDir] at otherIsDir
      simp at otherIsDir
  · exact initialized.no_path

theorem initializeInodeLink (initialized : snapshot.Initialized done state)
    (noHardLinks : snapshot.NoHardLinks)
    (hubFree : snapshot.tree.child snapshot.tree.root inodesName = none)
    (listed : ∀ found ∈ done, found ∈ snapshot.listing)
    (resolved : snapshot.tree.resolve path = some ino) (first : ino ∉ done.map Prod.snd) : ∃ after,
      state.initializeInodeLink (path, ino) = .ok after ∧
        snapshot.Initialized (done ++ [(path, ino)]) after := by
  have used := snapshot.node_isSome path ino resolved
  have notHub : ino ≠ snapshot.next := ne_next_of_node (Option.isSome_iff_ne_none.1 used)
  have sameKind := initialized.isDir ino notHub
  cases isDir : snapshot.tree.isDir ino with
  | true =>
    refine ⟨_, ?_, initialized.addDirectory noHardLinks listed resolved isDir⟩
    simp [ReplayState.initializeInodeLink, sameKind, isDir]
  | false =>
    have absent : state.tree.child snapshot.next (toString ino) = none := by
      rw [initialized.hub_child, if_neg]
      exact fun member => first member.1
    have linked := Tree.link_concat (initialized.resolve hubFree resolved)
        (sameKind.trans isDir) initialized.resolve_hub initialized.hub_isDir absent
    have rebinds := Tree.rebinds_bindEntry initialized.hub_isDir (toString ino) ino
    refine ⟨_, ?_, initialized.addFile isDir rebinds⟩
    have called : (state.osCall fun tree => tree.link path (inodePath ino)) = _ :=
      ReplayState.osCall_eq_ok linked
    simp only [ReplayState.initializeInodeLink, sameKind, isDir,
      Bool.false_eq_true, if_false, called]

end

theorem foldlM (initialized : snapshot.Initialized done state)
    (noHardLinks : snapshot.NoHardLinks)
    (hubFree : snapshot.tree.child snapshot.tree.root inodesName = none)
    {rest : List (Path × Ino)} (split : snapshot.listing = done ++ rest) : ∃ after,
      rest.foldlM ReplayState.initializeInodeLink state = .ok after ∧
        snapshot.Initialized snapshot.listing after := by
  induction rest generalizing done state with
  | nil =>
    rw [List.append_nil] at split
    exact ⟨state, rfl, split ▸ initialized⟩
  | cons found rest ih =>
    obtain ⟨path, ino⟩ := found
    have listed : ∀ other ∈ done, other ∈ snapshot.listing := by
      intro other member
      rw [split]
      exact List.mem_append_left _ member
    have resolved : snapshot.tree.resolve path = some ino := by
      rw [← snapshot.mem_listing, split]
      exact List.mem_append_right _ List.mem_cons_self
    have first : ino ∉ done.map Prod.snd := by
      have nodup : (snapshot.listing.map Prod.snd).Nodup := noHardLinks
      rw [split, List.map_append, List.nodup_append] at nodup
      intro member
      exact nodup.2.2 ino member ino (by simp) rfl
    obtain ⟨middle, returned, following⟩ :=
      initialized.initializeInodeLink noHardLinks hubFree listed resolved first
    obtain ⟨after, finished, complete⟩ := ih following (by simpa using split)
    refine ⟨after, ?_, complete⟩
    rw [List.foldlM_cons, returned]
    exact finished

private theorem known_iff {inode : Inode} :
    snapshot.naming.Known inode ↔ inode ∈ snapshot.listing.map Prod.snd := by
  have listed : inode ∈ snapshot.listing.map Prod.snd ↔
      ∃ path, snapshot.tree.resolve path = some inode := by
    simp only [List.mem_map, Prod.exists, exists_eq_right, snapshot.mem_listing]
  rw [listed]
  constructor
  · rintro (isDir | isFile)
    · exact snapshot.reachable inode (Option.isSome_iff_ne_none.2 (Tree.node_isSome_of_isDir isDir))
    · obtain ⟨bytes, content⟩ := Option.isSome_iff_exists.1 isFile
      exact snapshot.reachable inode (Option.isSome_iff_ne_none.2
        (Tree.node_isSome_of_content content))
  · rintro ⟨path, resolved⟩
    exact known_of_resolve resolved

section

variable (initialized : snapshot.Initialized snapshot.listing state)
include initialized

private theorem holds :
    Holds snapshot.tree.root snapshot.naming snapshot.store state.tree id snapshot.next := by
  have notHub : ∀ dir ∈ snapshot.naming.dirs, dir ≠ snapshot.next := by
    intro dir member
    exact ne_next_of_node (Tree.node_isSome_of_isDir member)
  have rootNotHub := notHub _ snapshot.root_isDir
  constructor
  · exact initialized.root
  · exact (initialized.child _ _ rootNotHub).trans (if_pos ⟨rfl, rfl⟩)
  · exact initialized.hub_isDir
  · exact notHub
  · intro left right _ _ same
    exact same
  · intro file isFile
    obtain ⟨bytes, content⟩ := Option.isSome_iff_exists.1 isFile
    have stored : snapshot.store file = bytes := by simp [store, content]
    exact (initialized.content file).trans (stored ▸ content)
  · intro file isFile
    obtain ⟨bytes, content⟩ := Option.isSome_iff_exists.1 isFile
    refine (initialized.hub_child file).trans (if_pos ⟨?_, ?_⟩)
    · exact known_iff.1 (Or.inr isFile)
    · exact Tree.not_isDir_of_content content
  · intro dir member
    exact (initialized.isDir dir (notHub dir member)).trans member
  · intro dir member name avoids
    refine (initialized.child dir name (notHub dir member)).trans ?_
    rw [if_neg avoids, Option.map_id]
    rfl

private theorem placed :
    Placed snapshot.tree.root snapshot.naming snapshot.naming state id snapshot.next := by
  have pathOf : ∀ {path dir}, snapshot.tree.resolve path = some dir →
        snapshot.tree.isDir dir = true → state.dirinodeMap dir = some path := by
    intro path dir resolved isDir
    exact initialized.path path dir ((snapshot.mem_listing path dir).2 resolved) isDir
  constructor
  · exact pathOf rfl snapshot.root_isDir
  · intro inode notDir
    exact initialized.no_path inode (by simpa [mem_dirs] using notDir)
  · intro inode unknown _
    refine (initialized.hub_child inode).trans (if_neg ?_)
    intro listed
    exact unknown (known_iff.2 listed.1)
  · intro dir member live notRoot
    right
    obtain ⟨parent, name, bound⟩ := live.2.resolve_left notRoot
    obtain ⟨path, resolved, further⟩ := exists_path_of_child bound
    refine ⟨parent, name, path, bound,
      pathOf resolved (Tree.isDir_of_child bound), pathOf further member, ?_⟩
    refine (initialized.hub_child dir).trans (if_neg ?_)
    intro listed
    rw [mem_dirs.1 member] at listed
    simp at listed

theorem simulates (noHardLinks : snapshot.NoHardLinks)
    (hubFree : snapshot.tree.child snapshot.tree.root inodesName = none) :
    Simulates snapshot.tree.root snapshot.naming snapshot.naming
      snapshot.store state id snapshot.next where
  wellFormed := wellFormed_naming noHardLinks
  lags := lags_naming noHardLinks hubFree
  holds := initialized.holds
  placed := initialized.placed
  unused := by
    intro ino beyond
    rw [initialized.next] at beyond
    exact initialized.unused ino beyond
  store_unknown := store_unknown

end

end Initialized

/-- `initialize_inode_links` returns and starts the simulation. -/
theorem initializeInodeLinks_simulates (noHardLinks : snapshot.NoHardLinks)
    (hubFree : snapshot.tree.child snapshot.tree.root inodesName = none) : ∃ state,
      ReplayState.initializeInodeLinks snapshot = .ok state ∧
        Simulates snapshot.tree.root snapshot.naming snapshot.naming
          snapshot.store state id snapshot.next := by
  obtain ⟨state, returned, initialized⟩ :=
    (initialized_copyOf hubFree).foldlM noHardLinks hubFree rfl
  refine ⟨state, ?_, initialized.simulates noHardLinks hubFree⟩
  simp only [ReplayState.initializeInodeLinks, assertThat, noHardLinks, if_true, ok_bind]
  exact returned

end

end Snapshot

/-- A selection of a trace is replayed without an error exactly if the
snapshot has no hard links and each operation of the selection fits what those
before it have left behind. -/
theorem replayDiskOps_iff {snapshot : Snapshot} {env : ReplayEnv} {ops rows : List DiskOp}
    (hubFree : snapshot.tree.child snapshot.tree.root inodesName = none)
    (selected : rows.Sublist ops)
    (allowed : snapshot.NoHardLinks → snapshot.naming.AllowsAll snapshot.tree.root ops)
    (reads : ∀ op ∈ ops, env.Reads op) : (∃ crash, replayDiskOps env snapshot rows = .ok crash) ↔
      snapshot.NoHardLinks ∧ (∀ op ∈ rows, op.AvoidsHub snapshot.tree.root) ∧
        snapshot.naming.FitsAll rows := by
  by_cases noHardLinks : snapshot.NoHardLinks
  · obtain ⟨start, started, simulates⟩ :=
      Snapshot.initializeInodeLinks_simulates noHardLinks hubFree
    have loop : (∃ after, start.replayFrom env 0 rows = .ok after) ↔ _ :=
      simulates.replayFrom_iff selected (allowed noHardLinks) reads
    rw [← loop]
    simp only [replayDiskOps, started, ok_bind, bind_eq_ok_iff, noHardLinks, true_and]
    constructor
    · rintro ⟨_, after, returned, _⟩
      exact ⟨after, returned⟩
    · rintro ⟨after, returned⟩
      exact ⟨_, after, returned, rfl⟩
  · have refused : ReplayState.initializeInodeLinks snapshot = .error .assertionError := by
      simp [ReplayState.initializeInodeLinks, assertThat, noHardLinks]
    simp [replayDiskOps, refused, noHardLinks]

end Alice
