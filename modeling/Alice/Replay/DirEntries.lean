import Alice.Replay.FileEntries

/-! # Rows that link and unlink directories

With `TYPE_DIR` a directory is moved from `.inodes` to its name and back.
This returns exactly if `os.rename` accepts the object that it replaces. -/

namespace Alice

open Posix (Ino Name Path Bytes Tree)
open Checked

variable
  {root : Inode} {trace names : Naming} {store : Inode → Bytes}
  {tree : Tree} {state : ReplayState} {place : Inode → Ino} {hub : Ino}

/-! ## What can be replaced -/

namespace Holds

section

variable (holds : Holds root names store tree place hub)
include holds

theorem isDir_place_iff {inode : Inode} (known : names.Known inode)
    : tree.isDir (place inode) = true ↔ inode ∈ names.dirs := by
  constructor
  · intro isDir
    apply known.resolve_right
    intro isFile
    rw [holds.not_isDir isFile] at isDir
    exact Bool.noConfusion isDir
  · exact holds.isDir inode

theorem empty_iff {dir : Inode} (member : dir ∈ names.dirs) (notRoot : dir ≠ root) :
    (∀ name, tree.child (place dir) name = none) ↔ names.Empty dir := by
  apply forall_congr'
  intro name
  rw [holds.child dir member name fun atRoot => notRoot atRoot.1, Option.map_eq_none_iff]

theorem renameOver_eq_ok_iff {moved : Inode} (movedKnown : names.Known moved)
    {target : Option Inode}
    (targetKnown : ∀ inode, target = some inode → names.Known inode ∧ inode ≠ root) :
    tree.renameOver (place moved) (target.map place) = .ok () ↔ ∀ inode, target = some inode →
        (inode ∈ names.dirs ↔ moved ∈ names.dirs) ∧ (inode ∈ names.dirs → names.Empty inode) := by
  rw [Tree.renameOver_eq_ok_iff]
  cases target with
  | none => simp
  | some inode =>
    obtain ⟨known, notRoot⟩ := targetKnown inode rfl
    simp only [Option.map_some, Option.some.injEq, forall_eq']
    rw [Bool.eq_iff_iff, holds.isDir_place_iff known, holds.isDir_place_iff movedKnown]
    apply and_congr_right
    intro _
    apply imp_congr_right
    intro member
    exact holds.empty_iff member notRoot

end

end Holds

/-! ## Moving directories -/

namespace Simulates

section Directories

variable {parent made : Inode} {name : Name} {path : Path}

section

variable (simulates : Simulates root trace names store state place hub)
include simulates

/-- A path of the dictionary does not pass through a waiting directory
without entries. -/
private theorem not_isPrefixOf_waiting (known : parent ∈ names.dirs)
    (live : trace.Live root parent) (lookup : state.dirinodeMap parent = some path)
    (member : made ∈ names.dirs) (different : parent ≠ made) (notRoot : made ≠ root)
    (empty : names.Empty made) (waits : Waits names state place hub made) :
    (inodePath made).isPrefixOf (path ++ [name]) = false := by
  have resolved := simulates.resolve_path known live lookup
  rw [Bool.eq_false_iff, ne_eq, List.isPrefixOf_iff_prefix]
  rintro ⟨rest, split⟩
  rcases List.eq_nil_or_concat rest with isNil | ⟨front, last, isConcat⟩
  · have onlyHub : path = [inodesName] := by
      have same : [inodesName] ++ [toString made] = path ++ [name] := by
        rw [isNil, List.append_nil] at split
        exact split
      exact (List.append_inj' same rfl).1.symm
    rw [onlyHub, simulates.resolve_hub] at resolved
    exact simulates.holds.hub_apart parent known (Option.some.inj resolved).symm
  · have through : path = inodePath made ++ front := by
      have same : (inodePath made ++ front) ++ [last] = path ++ [name] := by
        simpa [isConcat] using split
      exact (List.append_inj' same rfl).1.symm
    have fromMade : state.tree.resolveFrom (place made) front = some (place parent) := by
      have start := simulates.resolve_inodePath made
      rw [waits.hub_entry] at start
      rw [through, Tree.resolve, Tree.resolveFrom_append] at resolved
      rw [Tree.resolve] at start
      rw [start] at resolved
      exact resolved
    cases front with
    | nil =>
      have samePlace : place made = place parent := by simpa [Tree.resolveFrom] using fromMade
      exact different (simulates.holds.injective made parent (Or.inl member)
        (Or.inl known) samePlace).symm
    | cons first rest =>
      have noEntries := (simulates.holds.empty_iff member notRoot).2 empty
      simp [Tree.resolveFrom, noEntries first] at fromMade

private theorem linkDirectory (known : parent ∈ names.dirs)
    (lookup : state.dirinodeMap parent = some path)
    (avoids : ¬(parent = root ∧ name = inodesName)) (member : made ∈ names.dirs)
    (different : parent ≠ made) (empty : names.Empty made)
    (inTrace : trace.child parent name = some made) :
    Simulates root trace (names.setEntry parent name (some made)) store { state with
        tree := (state.tree.dropEntry hub (toString made)).bindEntry
          (place parent) name (place made)
        dirinodeMap := Function.update state.dirinodeMap made (some (path ++ [name])) }
      place hub := by
  have rootMem := simulates.lags.root_mem
  have notFile : made ∉ names.files := by
    intro isFile
    exact simulates.wellFormed.apart made (simulates.lags.dirs member) (simulates.lags.files isFile)
  have notRoot : root ≠ made := by
    intro same
    exact simulates.wellFormed.root_unbound parent name (same ▸ inTrace)
  have dropped := Tree.rebinds_dropEntry state.tree hub (toString made)
  have parentIsDir : (state.tree.dropEntry hub (toString made)).isDir (place parent) =
        true := by
    rw [dropped.isDir]
    exact simulates.holds.isDir parent known
  have bound := Tree.rebinds_bindEntry parentIsDir name (place made)
  generalize (state.tree.dropEntry hub (toString made)).bindEntry
    (place parent) name (place made) = after at bound
  have hubChild : ∀ inode : Inode, after.child hub (toString inode) =
        if inode = made then
          none
        else
          state.tree.child hub (toString inode) := by
    intro inode
    rw [bound.child, if_neg, dropped.child]
    · by_cases same : inode = made
      · rw [if_pos ⟨rfl, congrArg _ same⟩, if_pos same]
      · rw [if_neg, if_neg same]
        intro atMade
        exact same (toString_inode_injective atMade.2)
    · intro atParent
      exact simulates.holds.hub_apart parent known atParent.1.symm
  refine ⟨simulates.wellFormed, ?_, ?_, ?_, ?_, simulates.store_unknown⟩
  · apply simulates.lags.setEntry known avoids
    · intro inode same
      exact Or.inl (Option.some.inj same ▸ member)
    · intro dir _ _ same
      rw [← Option.some.inj same]
      exact inTrace
  · exact (simulates.holds.rebindHub rootMem notFile dropped).rebind rootMem known avoids bound
  · constructor
    · exact (Function.update_of_ne notRoot ..).trans simulates.placed.root_path
    · intro inode unknown
      have notMade : inode ≠ made := by
        intro same
        exact unknown (same ▸ member)
      exact (Function.update_of_ne notMade ..).trans (simulates.placed.unknown_path inode unknown)
    · intro inode unknown notDead
      have notMade : inode ≠ made := by
        intro same
        exact unknown (Or.inl (same ▸ member))
      rw [hubChild, if_neg notMade]
      exact simulates.placed.unknown_hub inode unknown notDead
    · intro dir directoryMember live directoryNotRoot
      by_cases isMade : dir = made
      · subst isMade
        right
        refine ⟨parent, name, path, ?_, ?_, Function.update_self .., ?_⟩
        · rw [Naming.child_setEntry, if_pos ⟨rfl, rfl⟩]
        · exact (Function.update_of_ne different ..).trans lookup
        · rw [hubChild, if_pos rfl]
      · rcases simulates.placed.somewhere dir directoryMember live
            directoryNotRoot with waits | ⟨other, tested, otherPath, linked⟩
        · left
          refine ⟨?_, (Function.update_of_ne isMade ..).trans waits.path, ?_⟩
          · intro other tested isBound
            rw [Naming.child_setEntry] at isBound
            split at isBound
            · exact isMade (Option.some.inj isBound).symm
            · exact waits.unbound other tested isBound
          · rw [hubChild, if_neg isMade]
            exact waits.hub_entry
        · right
          have otherNotMade : other ≠ made := by
            intro same
            have isBound := linked.bound
            simp [same, empty tested] at isBound
          refine ⟨other, tested, otherPath, ?_, (Function.update_of_ne otherNotMade ..).trans
            linked.parent_path, (Function.update_of_ne isMade ..).trans linked.path, ?_⟩
          · rw [Naming.child_setEntry, if_neg]
            · exact linked.bound
            · rintro ⟨sameParent, sameName⟩
              subst sameParent sameName
              have alsoInTrace := simulates.lags.agrees dir directoryMember live other
                  tested linked.bound
              rw [inTrace] at alsoInTrace
              exact isMade (Option.some.inj alsoInTrace).symm
          · rw [hubChild, if_neg isMade]
            exact linked.hub_entry
  · intro ino beyond
    rw [bound.unused, dropped.unused]
    exact simulates.unused ino beyond

private theorem createDirectory_eq {entry : Path} {mode : Option Mode}
    (live : trace.Live root parent) (madeLive : trace.Live root made)
    (inTrace : trace.child parent (basename entry) = some made) (unknown : ¬names.Known made)
    (different : parent ≠ made) (avoids : ¬(parent = root ∧ basename entry = inodesName))
    (modeOk : ReplayState.checkMode mode = .ok ()) : ∃ after ready place', Simulates root trace
        (names.apply (.createDirEntry parent entry made mode .typeDir)) store after place' hub ∧
      Simulates root trace ((names.touchDir parent).touchDir made) store ready place' hub ∧
      state.createDirEntry parent entry made mode .typeDir =
        match ready.tree.renameOver (place' made)
          ((names.child parent (basename entry)).map place') with
        | .ok _ => .ok after
        | .error errno => .error (.osError errno) := by
  have notRoot : made ≠ root := by
    intro same
    exact simulates.wellFormed.root_unbound parent _ (same ▸ inTrace)
  obtain ⟨found, path, place₁, looked, lookup, following⟩ := simulates.lookupParent live
  have stillUnknown : ¬(names.touchDir parent).Known made := by
    rintro (member | isFile)
    · rcases Set.mem_insert_iff.1 member with same | before
      · exact different same.symm
      · exact unknown (Or.inl before)
    · exact unknown (Or.inr isFile)
  have noPath : found.dirinodeMap made = none := following.placed.unknown_path made fun member =>
      stillUnknown (Or.inl member)
  obtain ⟨ready, madePath, place₂, madeLooked, madeLookup, samePaths,
    prepared⟩ := following.getInodeDirectory madeLive modeOk
  have lookupStill : ready.dirinodeMap parent = some path :=
    (samePaths parent different).trans lookup
  have known : parent ∈ ((names.touchDir parent).touchDir made).dirs :=
    Set.mem_insert_of_mem _ (Set.mem_insert _ _)
  have member : made ∈ ((names.touchDir parent).touchDir made).dirs := Set.mem_insert _ _
  have unbound := simulates.lags.unbound_of_unknown unknown
  have empty : names.Empty made :=
    simulates.lags.empty_of_unknown fun isDir => unknown (Or.inl isDir)
  have waits : Waits ((names.touchDir parent).touchDir made) ready place₂ hub made := by
    rcases prepared.placed.somewhere made member madeLive notRoot with
      waits | ⟨other, tested, otherPath, linked⟩
    · exact waits
    · exact False.elim (unbound other tested linked.bound)
  have samePath : inodePath made = madePath := by
    rw [waits.path] at madeLookup
    exact Option.some.inj madeLookup
  subst samePath
  have children : ready.tree.child (place₂ parent) (basename entry) = (names.child parent
    (basename entry)).map place₂ := prepared.holds.child parent known (basename entry) avoids
  have elsewhere : ready.tree.child (place₂ parent) (basename entry) ≠ some (place₂ made) := by
    rw [children]
    intro same
    obtain ⟨existing, bound, samePlace⟩ := Option.map_eq_some_iff.1 same
    have existingKnown := prepared.lags.target_known parent (basename entry) existing bound
    have isMade := prepared.holds.injective existing made existingKnown (Or.inl member) samePlace
    exact unbound parent (basename entry) (isMade ▸ bound)
  have renamed := Tree.rename_concat prepared.resolve_hub prepared.holds.hub_isDir
      (prepared.resolve_path known live lookupStill)
      (prepared.holds.isDir parent known) waits.hub_entry elsewhere
      (prepared.not_isPrefixOf_waiting known live lookupStill member different notRoot empty waits)
  rw [children] at renamed
  have done := prepared.linkDirectory known lookupStill avoids member different empty inTrace
  refine ⟨_, ready, place₂, done, prepared, ?_⟩
  have renamedPath : ready.tree.rename (inodePath made) (path ++ [basename entry]) = _ := renamed
  have notLinked : found.isLinkedInodeDirectory made = false := by
    simp only [ReplayState.isLinkedInodeDirectory, noPath]
  simp only [ReplayState.createDirEntry, looked, ok_bind, assertThat,
    notLinked, if_true, madeLooked, ReplayState.osCall, renamedPath]
  cases ready.tree.renameOver (place₂ made) ((names.child parent (basename entry)).map place₂) with
  | ok => rfl
  | error errno => rfl

private theorem replaceable_iff {ready : ReplayState} {place' : Inode → Ino}
    (live : trace.Live root parent) (unknown : ¬names.Known made)
    (prepared : Simulates root trace ((names.touchDir parent).touchDir made) store ready place' hub)
    : ready.tree.renameOver (place' made) ((names.child parent name).map place') = .ok () ↔
      ∀ existing, names.child parent name = some existing →
        existing ∈ names.dirs ∧ names.Empty existing := by
  have member : made ∈ ((names.touchDir parent).touchDir made).dirs := Set.mem_insert _ _
  rw [prepared.holds.renameOver_eq_ok_iff (Or.inl member)]
  · apply forall_congr'
    intro existing
    apply imp_congr_right
    intro bound
    have known := simulates.lags.target_known parent name existing bound
    have sameDirs : existing ∈ ((names.touchDir parent).touchDir made).dirs ↔
          existing ∈ names.dirs := by
      rw [← simulates.mem_touchDir_iff live known]
      constructor
      · intro isDir
        rcases Set.mem_insert_iff.1 isDir with same | before
        · exact False.elim (unknown (same ▸ known))
        · exact before
      · exact fun isDir => Set.mem_insert_of_mem _ isDir
    rw [sameDirs]
    constructor
    · rintro ⟨kinds, empty⟩
      have isDir := kinds.2 member
      exact ⟨isDir, empty isDir⟩
    · rintro ⟨isDir, empty⟩
      exact ⟨⟨fun _ => member, fun _ => isDir⟩, fun _ => empty⟩
  · intro existing bound
    refine ⟨prepared.lags.target_known parent name existing bound, ?_⟩
    intro isRoot
    subst isRoot
    have rootLive : trace.Live existing existing := ⟨simulates.wellFormed.root_mem, Or.inl rfl⟩
    exact simulates.wellFormed.root_unbound parent name
      (simulates.lags.agrees existing simulates.lags.root_mem rootLive parent name bound)

end

section

variable {entry : Path} {mode : Option Mode}

section

variable (simulates : Simulates root trace names store state place hub)
  (live : trace.Live root parent) (madeLive : trace.Live root made)
  (inTrace : trace.child parent (basename entry) = some made) (unknown : ¬names.Known made)
  (different : parent ≠ made) (avoids : ¬(parent = root ∧ basename entry = inodesName))
  (modeOk : ReplayState.checkMode mode = .ok ())
include simulates live madeLive inTrace unknown different avoids modeOk

theorem createDirectoryEntry (fits : names.Fits (.createDirEntry parent entry made mode .typeDir))
    : ∃ after place',
      state.createDirEntry parent entry made mode .typeDir = .ok after ∧ Simulates root trace
          (names.apply (.createDirEntry parent entry made mode .typeDir))
          store after place' hub := by
  obtain ⟨after, ready, place', done, prepared, branch⟩ :=
    simulates.createDirectory_eq live madeLive inTrace unknown different avoids modeOk
  have replaceable := (simulates.replaceable_iff live unknown prepared).2 fits
  rw [replaceable] at branch
  exact ⟨after, place', branch, done⟩

theorem createDirectoryEntry_blocked
    (clash : ¬names.Fits (.createDirEntry parent entry made mode .typeDir)) : ∃ errno,
      state.createDirEntry parent entry made mode .typeDir = .error (.osError errno) := by
  obtain ⟨after, ready, place', done, prepared, branch⟩ :=
    simulates.createDirectory_eq live madeLive inTrace unknown different avoids modeOk
  cases result : ready.tree.renameOver (place' made)
      ((names.child parent (basename entry)).map place') with
  | ok => exact False.elim (clash ((simulates.replaceable_iff live unknown prepared).1 result))
  | error errno =>
    rw [result] at branch
    exact ⟨errno, branch⟩

end

end

section

variable {removed existing : Inode}

section

variable (simulates : Simulates root trace names store state place hub)
include simulates

private theorem not_isPrefixOf_inodePath (known : parent ∈ names.dirs)
    (live : trace.Live root parent) (lookup : state.dirinodeMap parent = some path)
    (avoids : ¬(parent = root ∧ name = inodesName)) :
    (path ++ [name]).isPrefixOf (inodePath removed) = false := by
  have resolved := simulates.resolve_path known live lookup
  rw [Bool.eq_false_iff, ne_eq, List.isPrefixOf_iff_prefix]
  intro inside
  cases path with
  | nil =>
    have isHub : name = inodesName := (List.cons_prefix_cons.1 inside).1
    have samePlace : place root = place parent := by
      rw [← simulates.holds.root_eq]
      exact Option.some.inj resolved
    have isRoot := simulates.holds.injective root parent (Or.inl simulates.lags.root_mem)
        (Or.inl known) samePlace
    exact avoids ⟨isRoot.symm, isHub⟩
  | cons first rest =>
    obtain ⟨isHub, inside⟩ := List.cons_prefix_cons.1 inside
    have noMore : rest = [] := by
      have length : (rest ++ [name]).length ≤ 1 := inside.length_le
      rw [List.length_append, List.length_singleton] at length
      exact List.eq_nil_of_length_eq_zero (by omega)
    rw [isHub, noMore, simulates.resolve_hub] at resolved
    exact simulates.holds.hub_apart parent known (Option.some.inj resolved).symm

/-- What `.inodes` has under the number of a directory that is about to be
removed. -/
theorem hub_child_removed (inTrace : trace.child parent name = some removed)
    (isDir : removed ∈ trace.dirs) :
    ∃ target : Option Inode, state.tree.child hub (toString removed) = target.map place ∧
        ∀ inode, target = some inode ↔ inode = removed ∧ removed ∈ names.dirs ∧
            names.child parent name ≠ some removed := by
  have live : trace.Live root removed := ⟨isDir, Or.inr ⟨parent, name, inTrace⟩⟩
  have notRoot : removed ≠ root := by
    intro same
    exact simulates.wellFormed.root_unbound parent name (same ▸ inTrace)
  by_cases member : removed ∈ names.dirs
  · rcases simulates.placed.somewhere removed member live notRoot with
      waits | ⟨other, tested, otherPath, linked⟩
    · refine ⟨some removed, waits.hub_entry, ?_⟩
      intro inode
      simp only [Option.some.injEq, member, true_and]
      constructor
      · intro same
        exact ⟨same.symm, waits.unbound parent name⟩
      · rintro ⟨same, _⟩
        exact same.symm
    · refine ⟨none, linked.hub_entry, ?_⟩
      intro inode
      simp only [reduceCtorEq, false_iff]
      rintro ⟨_, _, notHere⟩
      have alsoInTrace := simulates.lags.agrees removed member live other tested linked.bound
      obtain ⟨sameParent, sameName⟩ :=
        simulates.wellFormed.bound_once removed isDir other tested parent name alsoInTrace inTrace
      subst sameParent sameName
      exact notHere linked.bound
  · have unknown : ¬names.Known removed := by
      rintro (known | isFile)
      · exact member known
      · exact simulates.wellFormed.apart removed isDir (simulates.lags.files isFile)
    have absent : state.tree.child hub (toString removed) = none := by
      apply simulates.placed.unknown_hub removed unknown
      intro dead
      exact dead.2 live
    refine ⟨none, absent, ?_⟩
    simp [member]

/-- What has the name of a removed directory is moved to `.inodes`. -/
private theorem unlinkDirectory (known : parent ∈ names.dirs)
    (avoids : ¬(parent = root ∧ name = inodesName))
    (inTrace : trace.child parent name = some removed) (isDir : removed ∈ trace.dirs)
    (empty : trace.Empty removed) (moved : Ino) : Simulates root (trace.setEntry parent name none)
      (names.setEntry parent name none) store { state with
        tree := (state.tree.dropEntry (place parent) name).bindEntry hub (toString removed) moved }
      place hub := by
  have rootMem := simulates.lags.root_mem
  have notFile : removed ∉ names.files := by
    intro isFile
    exact simulates.wellFormed.apart removed isDir (simulates.lags.files isFile)
  have liveAfter := Naming.live_removed_iff simulates.wellFormed inTrace isDir
  have wellFormed := simulates.wellFormed.remove inTrace isDir empty
  have advanced := simulates.advance wellFormed
      (Naming.advances_remove simulates.wellFormed inTrace isDir)
  have dropped := Tree.rebinds_dropEntry state.tree (place parent) name
  have hubIsDir : (state.tree.dropEntry (place parent) name).isDir hub = true := by
    rw [dropped.isDir]
    exact simulates.holds.hub_isDir
  have bound := Tree.rebinds_bindEntry hubIsDir (toString removed) moved
  generalize (state.tree.dropEntry (place parent) name).bindEntry hub
    (toString removed) moved = after at bound
  have hubChild : ∀ inode : Inode, inode ≠ removed → after.child hub (toString inode) =
        state.tree.child hub (toString inode) := by
    intro inode notRemoved
    rw [bound.child, if_neg, dropped.child, if_neg]
    · intro atParent
      exact simulates.holds.hub_apart parent known atParent.1.symm
    · intro atRemoved
      exact notRemoved (toString_inode_injective atRemoved.2)
  refine ⟨wellFormed, ?_, ?_, ?_, ?_, simulates.store_unknown⟩
  · apply advanced.lags.setEntry known avoids
    · simp
    · simp
  · exact (simulates.holds.rebind rootMem known avoids dropped).rebindHub rootMem notFile bound
  · refine ⟨simulates.placed.root_path, simulates.placed.unknown_path, ?_, ?_⟩
    · intro inode unknown notDead
      rw [hubChild]
      · exact advanced.placed.unknown_hub inode unknown notDead
      · intro isRemoved
        apply notDead
        refine ⟨isRemoved ▸ isDir, ?_⟩
        intro live
        exact ((liveAfter inode).1 live).1 isRemoved
    · intro dir member live notRoot
      have notRemoved := ((liveAfter dir).1 live).1
      rcases advanced.placed.somewhere dir member live notRoot with
        waits | ⟨other, tested, otherPath, linked⟩
      · left
        refine ⟨?_, waits.path, ?_⟩
        · intro other tested isBound
          rw [Naming.child_setEntry] at isBound
          split at isBound
          · simp at isBound
          · exact waits.unbound other tested isBound
        · exact (hubChild dir notRemoved).trans waits.hub_entry
      · right
        refine ⟨other, tested, otherPath, ?_, linked.parent_path,
          linked.path, (hubChild dir notRemoved).trans linked.hub_entry⟩
        rw [Naming.child_setEntry, if_neg]
        · exact linked.bound
        · rintro ⟨sameParent, sameName⟩
          subst sameParent sameName
          have alsoInTrace := simulates.lags.agrees dir member
              ((liveAfter dir).1 live).2 other tested linked.bound
          rw [inTrace] at alsoInTrace
          exact notRemoved (Option.some.inj alsoInTrace).symm
  · intro ino beyond
    rw [bound.unused, dropped.unused]
    exact simulates.unused ino beyond

end

variable {entry : Path}

section

variable (simulates : Simulates root trace names store state place hub)
include simulates

private theorem deleteDirectory_eq (live : trace.Live root parent)
    (avoids : ¬(parent = root ∧ basename entry = inodesName))
    (inTrace : trace.child parent (basename entry) = some removed) (isDir : removed ∈ trace.dirs)
    (empty : trace.Empty removed) (bound : names.child parent (basename entry) = some existing)
    (atomicity : Option String) : ∃ after ready place',
      Simulates root (trace.setEntry parent (basename entry) none) (names.apply
          (.deleteDirEntry parent entry removed .typeDir atomicity)) store after place' hub ∧
      Simulates root trace (names.touchDir parent) store ready place' hub ∧
      state.deleteDirEntry parent entry removed .typeDir =
        match ready.tree.renameOver (place' existing) (ready.tree.child hub (toString removed)) with
        | .ok _ => .ok after
        | .error errno => .error (.osError errno) := by
  obtain ⟨ready, path, place₁, looked, lookup, following⟩ := simulates.lookupParent live
  have known : parent ∈ (names.touchDir parent).dirs := Set.mem_insert _ _
  have existingKnown : (names.touchDir parent).Known existing :=
    following.lags.target_known parent (basename entry) existing bound
  have present := following.pathExists_entry known live lookup avoids
  have found : ready.tree.child (place₁ parent) (basename entry) = some (place₁ existing) := by
    rw [following.holds.child parent known (basename entry) avoids]
    exact congrArg (Option.map place₁) bound
  have elsewhere : ready.tree.child hub (toString removed) ≠ some (place₁ existing) := by
    obtain ⟨target, hubChild, targetIff⟩ := following.hub_child_removed inTrace isDir
    rw [hubChild]
    intro same
    obtain ⟨inode, isTarget, samePlace⟩ := Option.map_eq_some_iff.1 same
    obtain ⟨isRemoved, member, notHere⟩ := (targetIff inode).1 isTarget
    subst isRemoved
    have isExisting := following.holds.injective inode existing (Or.inl member) existingKnown
        samePlace
    exact notHere (isExisting ▸ bound)
  have renamed := Tree.rename_concat (following.resolve_path known live lookup)
      (following.holds.isDir parent known) following.resolve_hub following.holds.hub_isDir found
      elsewhere (following.not_isPrefixOf_inodePath known live lookup avoids)
  have done := following.unlinkDirectory known avoids inTrace isDir empty (place₁ existing)
  refine ⟨_, ready, place₁, done, following, ?_⟩
  have renamedPath : ready.tree.rename (path ++ [basename entry]) (inodePath removed) = _ := renamed
  have isPresent : ready.pathExists (path ++ [basename entry]) = true := by
    rw [present]
    exact congrArg Option.isSome bound
  simp only [ReplayState.deleteDirEntry, looked, ok_bind, isPresent, if_true,
    ReplayState.osCall, renamedPath]
  cases ready.tree.renameOver (place₁ existing) (ready.tree.child hub (toString removed)) with
  | ok => rfl
  | error errno => rfl

private theorem removable_iff {ready : ReplayState} {place' : Inode → Ino}
    (live : trace.Live root parent) (inTrace : trace.child parent name = some removed)
    (isDir : removed ∈ trace.dirs) (empty : trace.Empty removed)
    (bound : names.child parent name = some existing)
    (prepared : Simulates root trace (names.touchDir parent) store ready place' hub) :
    ready.tree.renameOver (place' existing) (ready.tree.child hub (toString removed)) = .ok () ↔
      existing = removed ∨ removed ∉ names.dirs ∨
        (existing ∈ names.dirs ∧ names.Empty removed) := by
  have existingKnown := simulates.lags.target_known parent name existing bound
  have sameDirs := simulates.mem_touchDir_iff live existingKnown
  have different : removed ≠ parent := by
    intro same
    subst same
    simp [empty name] at inTrace
  have removedDirs : removed ∈ (names.touchDir parent).dirs ↔ removed ∈ names.dirs := by
    simp [Naming.touchDir, different]
  obtain ⟨target, hubChild, targetIff⟩ := prepared.hub_child_removed inTrace isDir
  rw [hubChild, prepared.holds.renameOver_eq_ok_iff
    (prepared.lags.target_known parent name existing bound)]
  · simp only [targetIff, removedDirs, sameDirs]
    constructor
    · intro condition
      by_cases isRemoved : existing = removed
      · exact Or.inl isRemoved
      by_cases member : removed ∈ names.dirs
      · have notHere : (names.touchDir parent).child parent name ≠ some removed := by
          intro here
          exact isRemoved (Option.some.inj (bound.symm.trans here))
        obtain ⟨kinds, isEmpty⟩ := condition removed ⟨rfl, member, notHere⟩
        rw [removedDirs] at kinds isEmpty
        exact Or.inr (Or.inr ⟨kinds.1 member, isEmpty member⟩)
      · exact Or.inr (Or.inl member)
    · rintro condition inode ⟨isRemoved, member, notHere⟩
      subst isRemoved
      rcases condition with same | unknown | ⟨existingIsDir, isEmpty⟩
      · exact False.elim (notHere (same ▸ bound))
      · exact False.elim (unknown member)
      · rw [removedDirs]
        exact ⟨⟨fun _ => existingIsDir, fun _ => member⟩, fun _ => isEmpty⟩
  · intro inode isTarget
    obtain ⟨isRemoved, member, _⟩ := (targetIff inode).1 isTarget
    subst isRemoved
    refine ⟨Or.inl member, ?_⟩
    intro isRoot
    exact simulates.wellFormed.root_unbound parent name (isRoot ▸ inTrace)

section

variable (live : trace.Live root parent) (avoids : ¬(parent = root ∧ basename entry = inodesName))
  (inTrace : trace.child parent (basename entry) = some removed) (isDir : removed ∈ trace.dirs)
  (empty : trace.Empty removed)
include live avoids inTrace isDir empty

theorem deleteDirectoryEntry {atomicity : Option String}
    (fits : names.Fits (.deleteDirEntry parent entry removed .typeDir atomicity)) : ∃ after place',
      state.deleteDirEntry parent entry removed .typeDir = .ok after ∧
        Simulates root (trace.setEntry parent (basename entry) none) (names.apply
            (.deleteDirEntry parent entry removed .typeDir atomicity))
          store after place' hub := by
  cases bound : names.child parent (basename entry) with
  | none =>
    obtain ⟨found, path, place₁, looked, lookup, following⟩ := simulates.lookupParent live
    have known : parent ∈ (names.touchDir parent).dirs := Set.mem_insert _ _
    have missing : found.pathExists (path ++ [basename entry]) = false := by
      rw [following.pathExists_entry known live lookup avoids]
      exact congrArg Option.isSome bound
    refine ⟨found, place₁, ?_, ?_⟩
    · simp only [ReplayState.deleteDirEntry, looked, ok_bind, missing]
      rfl
    · have unchanged : (names.touchDir parent).setEntry parent (basename entry) none =
            names.touchDir parent := Naming.setEntry_of_child bound
      simp only [Naming.apply, unchanged]
      exact following.advance (simulates.wellFormed.remove inTrace isDir empty)
        (Naming.advances_remove simulates.wellFormed inTrace isDir)
  | some existing =>
    obtain ⟨after, ready, place', done, prepared, branch⟩ :=
      simulates.deleteDirectory_eq live avoids inTrace isDir empty bound atomicity
    have removable := (simulates.removable_iff live inTrace isDir empty bound prepared).2
        (fits existing bound)
    rw [removable] at branch
    exact ⟨after, place', branch, done⟩

theorem deleteDirectoryEntry_blocked {atomicity : Option String}
    (clash : ¬names.Fits (.deleteDirEntry parent entry removed .typeDir atomicity)) : ∃ errno,
      state.deleteDirEntry parent entry removed .typeDir = .error (.osError errno) := by
  obtain ⟨existing, clash⟩ := not_forall.1 clash
  obtain ⟨bound, clash⟩ := Classical.not_imp.1 clash
  obtain ⟨after, ready, place', done, prepared, branch⟩ :=
    simulates.deleteDirectory_eq live avoids inTrace isDir empty bound atomicity
  cases result : ready.tree.renameOver (place' existing)
      (ready.tree.child hub (toString removed)) with
  | ok =>
    exact False.elim (clash ((simulates.removable_iff live inTrace isDir empty bound
        prepared).1 result))
  | error errno =>
    rw [result] at branch
    exact ⟨errno, branch⟩

end

end

end

end Directories

end Simulates

end Alice
