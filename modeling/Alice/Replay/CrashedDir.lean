import Alice.Replay.Replayer

/-! # The crash state that is built

`construct_crashed_dir` calls `replay_disk_ops` inside its inner loop, once
for every disk operation at or before the end point, and the last call
decides.  If there is none, the directory is left as it was. -/

namespace Alice

/-! ## Replaying a longer list -/

/-- A longer list fails with the error of its beginning. -/
theorem replayDiskOps_append_error {env : ReplayEnv} {snapshot : Snapshot} {front : List DiskOp}
    {error : PyError} (failed : replayDiskOps env snapshot front = .error error)
    (back : List DiskOp) : replayDiskOps env snapshot (front ++ back) = .error error := by
  unfold replayDiskOps at failed ⊢
  simp only [bind] at failed ⊢
  cases started : ReplayState.initializeInodeLinks snapshot with
  | error startError =>
    rw [started] at failed
    exact failed
  | ok start =>
    rw [started] at failed
    simp only [Except.bind] at failed ⊢
    rw [ReplayState.replayFrom_append]
    cases run : start.replayFrom env 0 front with
    | error runError =>
      rw [run] at failed
      exact failed
    | ok state =>
      rw [run] at failed
      simp [pure, Except.pure] at failed

theorem eq_take_append_cons_drop {α : Type} {list : List α} {i : ℕ} {x : α}
    (lookup : list[i]? = some x) : list = list.take i ++ x :: list.drop (i + 1) := by
  obtain ⟨inside, equal⟩ := List.getElem?_eq_some_iff.1 lookup
  rw [← equal, ← List.drop_eq_getElem_cons inside, List.take_append_drop]

namespace Replayer

/-! ## The disk operations at or before the end point -/

/-- The loops over the given logical operations reach these disk
operations. -/
inductive Reached (replayer : Replayer) : List ℕ → List DiskOpState → Prop
  | nil : Reached replayer [] []
  | cons {i : ℕ} {is : List ℕ} {state : MicroOpState}
      {disks : List DiskOpState}
      (lookup : replayer.microOps[i]? = some state)
      (inRange : replayer.till i state ≤ state.diskOps.length)
      (tail : Reached replayer is disks) :
      Reached replayer (i :: is)
        (state.diskOps.take (replayer.till i state) ++ disks)

/-- The numbers of the retained operations, counted from `index`. -/
def retainedFrom : ℕ → List DiskOpState → List ℕ
  | _, [] => []
  | index, disk :: rest =>
      if disk.omitted then
        retainedFrom (index + 1) rest
      else
        index :: retainedFrom (index + 1) rest

def retained (disks : List DiskOpState) : List DiskOp :=
  (disks.filter fun disk => !disk.omitted).map DiskOpState.op

theorem retainedFrom_append (index : ℕ) (front back : List DiskOpState) :
    retainedFrom index (front ++ back) = retainedFrom index front ++
        retainedFrom (index + front.length) back := by
  induction front generalizing index with
  | nil => rfl
  | cons disk rest ih =>
    have shifted : index + 1 + rest.length = index + (rest.length + 1) := by omega
    simp only [List.cons_append, retainedFrom, ih, List.length_cons, shifted]
    split <;> rfl

variable {state : MicroOpState} {js is : List ℕ} {disks : List DiskOpState} {bound : ℕ}
  {replayer : Replayer}

theorem legalDiskLoop_some {index index' : ℕ} {included included' : List ℕ}
    (passed : legalDiskLoop state js index included = .ok (some (index', included'))) :
    ∃ disks : List DiskOpState, (js.map fun j => state.diskOps[j]?) = disks.map some ∧
        index' = index + disks.length ∧ included' = included ++ retainedFrom index disks := by
  induction js generalizing index included with
  | nil =>
    simp only [legalDiskLoop, Except.ok.injEq, Option.some.injEq, Prod.mk.injEq] at passed
    obtain ⟨indexEq, includedEq⟩ := passed
    exact ⟨[], rfl, by simp [indexEq], by simp [includedEq, retainedFrom]⟩
  | cons j rest ih =>
    rw [legalDiskLoop] at passed
    cases lookup : state.diskOps[j]? with
    | none =>
      rw [lookup] at passed
      simp at passed
    | some disk =>
      rw [lookup] at passed
      cases omitted : disk.omitted with
      | false =>
        simp only [omitted, Bool.not_false, if_true] at passed
        obtain ⟨disks, lookups, indexEq, includedEq⟩ := ih passed
        refine ⟨disk :: disks, ?_, ?_, ?_⟩
        · simp [lookup, lookups]
        · simp only [List.length_cons]
          omega
        · simp [includedEq, retainedFrom, omitted]
      | true =>
        cases isSync : state.isSync with
        | true => simp [omitted, isSync] at passed
        | false =>
          simp only [omitted, isSync, Bool.not_true, Bool.false_eq_true, if_false] at passed
          obtain ⟨disks, lookups, indexEq, includedEq⟩ := ih passed
          refine ⟨disk :: disks, ?_, ?_, ?_⟩
          · simp [lookup, lookups]
          · simp only [List.length_cons]
            omega
          · simp [includedEq, retainedFrom, omitted]

/-- If all lookups of a loop over `range` succeed, its bound is in range. -/
theorem take_of_lookups {all : List DiskOpState}
    (lookups : ((List.range bound).map fun j => all[j]?) = disks.map some) :
    bound ≤ all.length ∧ disks = all.take bound := by
  have sameLength : bound = disks.length := by simpa using congrArg List.length lookups
  have entry : ∀ j < bound, all[j]? = disks[j]? := by
    intro j inside
    have atJ := congrArg (fun list => list[j]?) lookups
    have inDisks : j < disks.length := sameLength ▸ inside
    simpa [inside, inDisks] using atJ
  have inRange : bound ≤ all.length := by
    by_contra outside
    have past : all.length < bound := Nat.lt_of_not_le outside
    have missing := entry all.length past
    have inDisks : all.length < disks.length := sameLength ▸ past
    simp [inDisks] at missing
  refine ⟨inRange, ?_⟩
  apply List.ext_getElem?
  intro j
  by_cases inside : j < bound
  · rw [List.getElem?_take, if_pos inside, entry j inside]
  · have past : disks.length ≤ j := by omega
    rw [List.getElem?_take, if_neg inside]
    exact List.getElem?_eq_none past

theorem legalMicroLoop_some {index : ℕ} {included included' : List ℕ}
    (passed : replayer.legalMicroLoop is index included = .ok (some included')) :
    ∃ disks, Reached replayer is disks ∧ included' = included ++ retainedFrom index disks := by
  induction is generalizing index included with
  | nil =>
    simp only [legalMicroLoop, Except.ok.injEq, Option.some.injEq] at passed
    exact ⟨[], .nil, by simp [passed, retainedFrom]⟩
  | cons i rest ih =>
    rw [legalMicroLoop] at passed
    cases lookup : replayer.microOps[i]? with
    | none =>
      rw [lookup] at passed
      simp at passed
    | some state =>
      rw [lookup] at passed
      simp only [bind] at passed
      cases inner : legalDiskLoop state (List.range (replayer.till i state)) index included with
      | error error =>
        rw [inner] at passed
        simp [Except.bind] at passed
      | ok found =>
        rw [inner] at passed
        cases found with
        | none => simp [Except.bind, pure, Except.pure] at passed
        | some next =>
          obtain ⟨here, lookups, indexEq, includedEq⟩ := legalDiskLoop_some inner
          obtain ⟨inRange, hereEq⟩ := take_of_lookups lookups
          obtain ⟨later, reached, laterEq⟩ := ih passed
          refine ⟨here ++ later, ?_, ?_⟩
          · rw [hereEq]
            exact .cons lookup inRange reached
          · rw [retainedFrom_append, laterEq, includedEq, indexEq, List.append_assoc]

theorem lookups_range_take {all : List DiskOpState} (inRange : bound ≤ all.length) :
    ((List.range bound).map fun j => all[j]?) = (all.take bound).map some := by
  apply List.ext_getElem
  · simp [inRange]
  · intro j left right
    have inside : j < bound := by simpa using left
    have inAll : j < all.length := by omega
    simp [inAll]

/-- The inner loop numbers the retained operations it reaches, unless it is
in a `sync` and meets an omitted one. -/
theorem legalDiskLoop_of_kept (lookups : (js.map fun j => state.diskOps[j]?) = disks.map some)
    (kept : state.isSync = true → ∀ disk ∈ disks, disk.omitted = false) (index : ℕ)
    (included : List ℕ) : legalDiskLoop state js index included = .ok (some (index + disks.length,
        included ++ retainedFrom index disks)) := by
  induction js generalizing disks index included with
  | nil =>
    have none : disks = [] := by simpa using lookups.symm
    subst none
    simp [legalDiskLoop, retainedFrom]
  | cons j rest ih =>
    cases disks with
    | nil => simp at lookups
    | cons disk disks =>
      simp only [List.map_cons, List.cons.injEq] at lookups
      obtain ⟨lookup, lookups⟩ := lookups
      have later : state.isSync = true → ∀ other ∈ disks, other.omitted = false :=
        fun isSync other member => kept isSync other (List.mem_cons_of_mem _ member)
      have shifted : index + 1 + disks.length = index + (disks.length + 1) := by omega
      rw [legalDiskLoop, lookup]
      cases here : disk.omitted with
      | false =>
        rw [ih lookups later]
        simp [retainedFrom, here, shifted]
      | true =>
        have notSync : state.isSync = false := by
          by_contra isSync
          rw [Bool.not_eq_false] at isSync
          have retained := kept isSync disk List.mem_cons_self
          rw [here] at retained
          cases retained
        simp only [here, notSync, Bool.not_true, Bool.false_eq_true, if_false]
        rw [ih lookups later]
        simp [retainedFrom, here, shifted]

theorem legalDiskLoop_of_omitted (lookups : (js.map fun j => state.diskOps[j]?) = disks.map some)
    (isSync : state.isSync = true) (someOmitted : ∃ disk ∈ disks, disk.omitted = true) (index : ℕ)
    (included : List ℕ) : legalDiskLoop state js index included = .ok none := by
  induction js generalizing disks index included with
  | nil =>
    obtain rfl : disks = [] := by simpa using lookups.symm
    obtain ⟨_, member, _⟩ := someOmitted
    exact absurd member List.not_mem_nil
  | cons j rest ih =>
    cases disks with
    | nil => simp at lookups
    | cons disk disks =>
      simp only [List.map_cons, List.cons.injEq] at lookups
      obtain ⟨lookup, lookups⟩ := lookups
      rw [legalDiskLoop, lookup]
      cases here : disk.omitted with
      | true => simp [here, isSync]
      | false =>
        simp only [List.mem_cons, exists_eq_or_imp, here,
          Bool.false_eq_true, false_or] at someOmitted
        simp only [here, Bool.not_false, if_true]
        exact ih lookups someOmitted _ _

/-- The loops over the given logical operations meet an omitted disk operation
of a `sync`. -/
def SyncOmitted (replayer : Replayer) (is : List ℕ) : Prop :=
  ∃ i ∈ is, ∃ state, replayer.microOps[i]? = some state ∧
    state.isSync = true ∧
    ∃ disk ∈ state.diskOps.take (replayer.till i state), disk.omitted = true

theorem legalMicroLoop_of_kept (reached : Reached replayer is disks)
    (kept : ¬ SyncOmitted replayer is) (index : ℕ) (included : List ℕ) :
    replayer.legalMicroLoop is index included =
      .ok (some (included ++ retainedFrom index disks)) := by
  induction reached generalizing index included with
  | nil => simp [legalMicroLoop, retainedFrom]
  | @cons i is state disks lookup inRange tail ih =>
    have here : state.isSync = true → ∀ disk ∈ state.diskOps.take (replayer.till i state),
          disk.omitted = false := by
      intro isSync disk member
      by_contra omitted
      exact kept ⟨i, List.mem_cons_self, state, lookup, isSync, disk,
        member, Bool.not_eq_false _ ▸ omitted⟩
    have later : ¬ SyncOmitted replayer is := by
      rintro ⟨k, member, omitted⟩
      exact kept ⟨k, List.mem_cons_of_mem _ member, omitted⟩
    rw [legalMicroLoop, lookup]
    simp only [bind]
    rw [legalDiskLoop_of_kept (lookups_range_take inRange) here]
    simp only [Except.bind]
    rw [ih later, retainedFrom_append, List.append_assoc]

theorem legalMicroLoop_of_omitted (reached : Reached replayer is disks)
    (omitted : SyncOmitted replayer is) (index : ℕ) (included : List ℕ) :
    replayer.legalMicroLoop is index included = .ok none := by
  induction reached generalizing index included with
  | nil =>
    obtain ⟨_, member, _⟩ := omitted
    exact absurd member List.not_mem_nil
  | @cons i is state disks lookup inRange tail ih =>
    rw [legalMicroLoop, lookup]
    simp only [bind]
    by_cases here : state.isSync = true ∧ ∃ disk ∈ state.diskOps.take (replayer.till i state),
          disk.omitted = true
    · rw [legalDiskLoop_of_omitted (lookups_range_take inRange) here.1 here.2]
      rfl
    · have kept : state.isSync = true → ∀ disk ∈ state.diskOps.take (replayer.till i state),
            disk.omitted = false := by
        intro isSync disk member
        by_contra notKept
        exact here ⟨isSync, disk, member, Bool.not_eq_false _ ▸ notKept⟩
      have later : SyncOmitted replayer is := by
        obtain ⟨k, member, other, lookupK, isSync, someOmitted⟩ := omitted
        rcases List.mem_cons.1 member with rfl | later
        · obtain rfl := Option.some.inj (lookup.symm.trans lookupK)
          exact absurd ⟨isSync, someOmitted⟩ here
        · exact ⟨k, later, other, lookupK, isSync, someOmitted⟩
      rw [legalDiskLoop_of_kept (lookups_range_take inRange) kept]
      exact ih later _ _

def SyncsKept (replayer : Replayer) : Prop :=
  ∀ state ∈ replayer.microOps, state.isSync = true → ∀ disk ∈ state.diskOps, disk.omitted = false

theorem SyncsKept.legalMicroLoop (kept : replayer.SyncsKept) (reached : Reached replayer is disks)
    (index : ℕ) (included : List ℕ) : replayer.legalMicroLoop is index included =
      .ok (some (included ++ retainedFrom index disks)) := by
  apply legalMicroLoop_of_kept reached
  rintro ⟨i, _, state, lookup, isSync, disk, member, omitted⟩
  have notOmitted := kept state (List.mem_of_getElem? lookup) isSync disk
    (List.mem_of_mem_take member)
  rw [omitted] at notOmitted
  cases notOmitted

theorem retainedFrom_of_included (allIncluded : ∀ disk ∈ disks, disk.omitted = false) (index : ℕ) :
    retainedFrom index disks = List.range' index disks.length := by
  induction disks generalizing index with
  | nil => rfl
  | cons disk rest ih =>
    have here : disk.omitted = false := allIncluded disk List.mem_cons_self
    rw [retainedFrom, here, ih fun other member =>
      allIncluded other (List.mem_cons_of_mem _ member)]
    rfl

/-- Every end point at an existing disk operation is reached. -/
theorem exists_reached
    {replayer : Replayer} {state : MicroOpState}
    (lookup : replayer.microOps[replayer.microEnd]? = some state)
    (inRange : replayer.diskEnd < state.diskOps.length) : ∃ disks,
      Reached replayer (List.range (replayer.microEnd + 1)) disks := by
  have inside : replayer.microEnd < replayer.microOps.length :=
    (List.getElem?_eq_some_iff.1 lookup).1
  have all : ∀ is : List ℕ, (∀ i ∈ is, i ≤ replayer.microEnd) →
      ∃ disks, Reached replayer is disks := by
    intro is bounded
    induction is with
    | nil => exact ⟨[], .nil⟩
    | cons i rest ih =>
      obtain ⟨later, tail⟩ := ih fun other member => bounded other (List.mem_cons_of_mem _ member)
      have below : i ≤ replayer.microEnd := bounded i List.mem_cons_self
      by_cases atEnd : replayer.microEnd = i
      · have short : replayer.till i state ≤ state.diskOps.length := by
          rw [till, if_pos atEnd]
          omega
        exact ⟨_, .cons (atEnd ▸ lookup) short tail⟩
      · have bound : i < replayer.microOps.length := by omega
        have short : replayer.till i replayer.microOps[i] ≤
              replayer.microOps[i].diskOps.length := by
          rw [till, if_neg atEnd]
        exact ⟨_, .cons (List.getElem?_eq_getElem bound) short tail⟩
  apply all
  intro i member
  exact Nat.lt_succ_iff.1 (List.mem_range.1 member)

/-! ## What the calls leave behind -/

/-- The two loops of `construct_crashed_dir` as one loop over the disk
operations they reach. -/
def constructOver (env : ReplayEnv) (snapshot : Snapshot) :
    List DiskOpState → List DiskOp → Option CrashState →
      Except PyError (List DiskOp × Option CrashState)
  | [], toReplay, dir => .ok (toReplay, dir)
  | disk :: rest, toReplay, _ => do
      let toReplay :=
        if !disk.omitted then toReplay ++ [disk.op] else toReplay
      let crashed ← replayDiskOps env snapshot toReplay
      constructOver env snapshot rest toReplay (some crashed)

theorem constructDiskLoop_eq (env : ReplayEnv) (snapshot : Snapshot)
    (lookups : (js.map fun j => state.diskOps[j]?) = disks.map some) (toReplay : List DiskOp)
    (dir : Option CrashState) : constructDiskLoop env snapshot state js toReplay dir =
      constructOver env snapshot disks toReplay dir := by
  induction js generalizing disks toReplay dir with
  | nil =>
    have none : disks = [] := by simpa using lookups.symm
    subst none
    rfl
  | cons j rest ih =>
    cases disks with
    | nil => simp at lookups
    | cons disk disks =>
      simp only [List.map_cons, List.cons.injEq] at lookups
      obtain ⟨lookup, lookups⟩ := lookups
      simp only [constructDiskLoop, lookup, constructOver, bind]
      congr 1
      funext crashed
      exact ih lookups _ _

theorem constructOver_append (env : ReplayEnv) (snapshot : Snapshot)
    (front back : List DiskOpState) (toReplay : List DiskOp) (dir : Option CrashState) :
    constructOver env snapshot (front ++ back) toReplay dir =
      (constructOver env snapshot front toReplay dir).bind fun middle =>
        constructOver env snapshot back middle.1 middle.2 := by
  induction front generalizing toReplay dir with
  | nil => rfl
  | cons disk rest ih =>
    simp only [List.cons_append, constructOver, bind]
    cases replayDiskOps env snapshot
        (if !disk.omitted then toReplay ++ [disk.op] else toReplay) with
    | error error => rfl
    | ok crashed => exact ih _ _

theorem constructMicroLoop_eq (env : ReplayEnv) (reached : Reached replayer is disks)
    (toReplay : List DiskOp) (dir : Option CrashState) :
    constructMicroLoop env replayer is toReplay dir =
      (constructOver env replayer.snapshot disks toReplay dir).map Prod.snd := by
  induction reached generalizing toReplay dir with
  | nil => rfl
  | @cons i is state disks lookup inRange tail ih =>
    rw [constructMicroLoop, lookup, constructOver_append]
    simp only [bind]
    rw [constructDiskLoop_eq env replayer.snapshot (lookups_range_take inRange)]
    cases constructOver env replayer.snapshot
        (state.diskOps.take (replayer.till i state)) toReplay dir with
    | error error => rfl
    | ok middle => exact ih middle.1 middle.2

theorem retained_cons (disk : DiskOpState) (rest : List DiskOpState) : retained (disk :: rest) =
      (if !disk.omitted then [disk.op] else []) ++ retained rest := by
  cases omitted : disk.omitted <;> simp [retained, omitted]

/-- The last call decides: an error of an earlier one is also an error of the
last. -/
theorem constructOver_cons (env : ReplayEnv) (snapshot : Snapshot) (disk : DiskOpState)
    (rest : List DiskOpState) (toReplay : List DiskOp) (dir : Option CrashState) :
    constructOver env snapshot (disk :: rest) toReplay dir = (replayDiskOps env snapshot
        (toReplay ++ retained (disk :: rest))).map fun crashed =>
          (toReplay ++ retained (disk :: rest), some crashed) := by
  induction rest generalizing disk toReplay dir with
  | nil =>
    have same : (if !disk.omitted then toReplay ++ [disk.op] else toReplay) =
          toReplay ++ retained [disk] := by
      cases omitted : disk.omitted <;> simp [retained, omitted]
    rw [constructOver, same]
    cases replayDiskOps env snapshot (toReplay ++ retained [disk]) <;> rfl
  | cons next rest ih =>
    have same : (if !disk.omitted then toReplay ++ [disk.op] else toReplay) ++
            retained (next :: rest) = toReplay ++ retained (disk :: next :: rest) := by
      rw [retained_cons disk]
      cases disk.omitted <;> simp
    rw [constructOver, ← same]
    cases first : replayDiskOps env snapshot
        (if !disk.omitted then toReplay ++ [disk.op] else toReplay) with
    | error error =>
      rw [replayDiskOps_append_error first]
      rfl
    | ok crashed => exact ih next _ (some crashed)

/-! ## Flat numbers -/

def opsAt (replayer : Replayer) (indices : List ℕ) : List DiskOp :=
  indices.filterMap fun index =>
    (flatOps replayer.microOps)[index]?.map TracedOp.op

theorem Reached.append {front back : List ℕ} (reached : Reached replayer (front ++ back) disks) :
    ∃ first second, disks = first ++ second ∧
      Reached replayer front first ∧ Reached replayer back second := by
  induction front generalizing disks with
  | nil => exact ⟨[], disks, rfl, .nil, reached⟩
  | cons i rest ih =>
    cases reached with
    | cons lookup inRange tail =>
      obtain ⟨first, second, split, left, right⟩ := ih tail
      refine ⟨_ ++ first, second, ?_, .cons lookup inRange left, right⟩
      rw [split, List.append_assoc]

theorem Reached.eq_flatMap (before : bound ≤ replayer.microEnd)
    (reached : Reached replayer (List.range bound) disks) : bound ≤ replayer.microOps.length ∧
      disks = (replayer.microOps.take bound).flatMap MicroOpState.diskOps := by
  induction bound generalizing disks with
  | zero =>
    cases reached
    exact ⟨Nat.zero_le _, rfl⟩
  | succ bound ih =>
    rw [List.range_succ] at reached
    obtain ⟨first, second, split, left, right⟩ := reached.append
    obtain ⟨_, firstEq⟩ := ih (Nat.le_of_succ_le before) left
    cases right with
    | @cons _ _ state _ lookup _ tail =>
      cases tail
      have notEnd : replayer.microEnd ≠ bound := by omega
      have inside : bound < replayer.microOps.length := (List.getElem?_eq_some_iff.1 lookup).1
      refine ⟨inside, ?_⟩
      rw [split, firstEq, List.take_add_one, lookup]
      simp [till, notEnd]

theorem Reached.isPrefix_flat
    (reached : Reached replayer (List.range (replayer.microEnd + 1)) disks) :
    ∃ rest, replayer.microOps.flatMap MicroOpState.diskOps = disks ++ rest := by
  rw [List.range_succ] at reached
  obtain ⟨first, second, split, left, right⟩ := reached.append
  obtain ⟨_, firstEq⟩ := left.eq_flatMap (Nat.le_refl _)
  cases right with
  | @cons _ _ state _ lookup _ tail =>
    cases tail
    have whole := eq_take_append_cons_drop lookup
    refine ⟨state.diskOps.drop (replayer.till replayer.microEnd state) ++
      (replayer.microOps.drop (replayer.microEnd + 1)).flatMap MicroOpState.diskOps, ?_⟩
    conv_lhs => rw [whole]
    rw [List.flatMap_append, List.flatMap_cons, split, firstEq, List.append_nil, List.append_assoc,
      ← List.append_assoc (List.take _ state.diskOps), List.take_append_drop]

theorem filterMap_retainedFrom {all : List DiskOp} {start : ℕ}
    (lookups : ∀ j < disks.length, all[start + j]? = disks[j]?.map DiskOpState.op) :
    (retainedFrom start disks).filterMap (fun index => all[index]?) =
      retained disks := by
  induction disks generalizing start with
  | nil => rfl
  | cons disk rest ih =>
    have here : all[start]? = some disk.op := by simpa using lookups 0 (by simp)
    have laterLookups : ∀ j < rest.length, all[start + 1 + j]? = rest[j]?.map DiskOpState.op := by
      intro j inside
      have atJ := lookups (j + 1) (by simpa using inside)
      have shifted : start + 1 + j = start + (j + 1) := by omega
      simpa [shifted] using atJ
    have later := ih laterLookups
    cases omitted : disk.omitted with
    | false => simp [retainedFrom, omitted, here, later, retained_cons]
    | true => simp [retainedFrom, omitted, later, retained_cons]

theorem opsAt_retainedFrom (reached : Reached replayer (List.range (replayer.microEnd + 1)) disks) :
    replayer.opsAt (retainedFrom 0 disks) = retained disks := by
  obtain ⟨rest, flat⟩ := reached.isPrefix_flat
  have flatEq : (flatOps replayer.microOps).map TracedOp.op =
        (disks ++ rest).map DiskOpState.op := by
    rw [← flat, flatOps]
    simp [List.map_flatMap, Function.comp_def]
  have onList : replayer.opsAt (retainedFrom 0 disks) =
        (retainedFrom 0 disks).filterMap fun index =>
          ((disks ++ rest).map DiskOpState.op)[index]? := by
    rw [← flatEq]
    simp [opsAt]
  rw [onList]
  apply filterMap_retainedFrom
  intro j inside
  rw [Nat.zero_add, List.getElem?_map, List.getElem?_append_left inside]

/-! ## The state that is checked is the state that is built -/

theorem reached_of_legalIndices {indices : List ℕ}
    (passed : replayer.legalIndices = .ok (some indices)) :
    ∃ disks, Reached replayer (List.range (replayer.microEnd + 1)) disks ∧
      indices = retainedFrom 0 disks := by
  rw [legalIndices] at passed
  cases lookup : replayer.microOps[replayer.microEnd]? with
  | none =>
    rw [lookup] at passed
    simp at passed
  | some state =>
    rw [lookup] at passed
    simp only at passed
    split at passed
    · simp at passed
    · exact legalMicroLoop_some passed

/-- Some disk operation lies at or before the end point. -/
def ReachesDiskOp (replayer : Replayer) : Prop :=
  0 ≤ replayer.diskEnd ∨
    ∃ i < replayer.microEnd, ∃ state, replayer.microOps[i]? = some state ∧
      state.diskOps ≠ []

theorem reachesDiskOp_iff (reached : Reached replayer (List.range (replayer.microEnd + 1)) disks) :
    replayer.ReachesDiskOp ↔ disks ≠ [] := by
  rw [List.range_succ] at reached
  obtain ⟨first, second, split, left, right⟩ := reached.append
  obtain ⟨inside, firstEq⟩ := left.eq_flatMap (Nat.le_refl _)
  cases right with
  | @cons _ _ state _ lookup inRange tail =>
    cases tail
    have lastNonempty : state.diskOps.take (replayer.till replayer.microEnd state) ≠ [] ↔
          0 ≤ replayer.diskEnd := by
      have tillEq : replayer.till replayer.microEnd state = (replayer.diskEnd + 1).toNat :=
        if_pos rfl
      rw [ne_eq, List.take_eq_nil_iff, tillEq]
      constructor
      · intro nonempty
        by_contra negative
        exact nonempty (Or.inl (by omega))
      · rintro atLeast (zero | none)
        · omega
        · rw [tillEq, none] at inRange
          simp only [List.length_nil] at inRange
          omega
    have earlierNonempty : first ≠ [] ↔ ∃ i < replayer.microEnd, ∃ earlier,
            replayer.microOps[i]? = some earlier ∧ earlier.diskOps ≠ [] := by
      rw [firstEq, ne_eq, List.flatMap_eq_nil_iff]
      constructor
      · intro some
        by_contra none
        apply some
        intro earlier member
        by_contra nonempty
        obtain ⟨i, bound, lookupI⟩ := List.mem_iff_getElem.1 member
        have below : i < replayer.microEnd := by
          rw [List.length_take] at bound
          omega
        apply none
        refine ⟨i, below, earlier, ?_, nonempty⟩
        rw [← lookupI, List.getElem_take, List.getElem?_eq_getElem]
      · rintro ⟨i, below, earlier, lookupI, nonempty⟩ none
        apply nonempty
        apply none
        have inTake : (replayer.microOps.take replayer.microEnd)[i]? =
              some earlier := by
          rw [List.getElem?_take, if_pos below, lookupI]
        exact List.mem_of_getElem? inTake
    rw [split, List.append_nil, ReachesDiskOp, ← earlierNonempty,
      ← lastNonempty, ne_eq, ne_eq, ne_eq, List.append_eq_nil_iff, not_and_or]
    exact or_comm

/-- If `is_legal` asks the test suite about some numbers, then the directory
becomes the replay of the operations with these numbers, whatever it was
before, exactly if some disk operation lies at or before the end point. -/
theorem constructCrashedDir_eq_replay_iff
    (env : ReplayEnv) (replayer : Replayer) (indices : List ℕ)
    (passed : replayer.legalIndices = .ok (some indices)) :
    (∀ dir, replayer.constructCrashedDir env dir =
      (replayDiskOps env replayer.snapshot (replayer.opsAt indices)).map
        some) ↔
      replayer.ReachesDiskOp := by
  obtain ⟨disks, reached, indicesEq⟩ := reached_of_legalIndices passed
  have rows : replayer.opsAt indices = retained disks := by
    rw [indicesEq]
    exact opsAt_retainedFrom reached
  have loops : ∀ dir, replayer.constructCrashedDir env dir =
        (constructOver env replayer.snapshot disks [] dir).map Prod.snd :=
    fun dir => constructMicroLoop_eq env reached [] dir
  rw [reachesDiskOp_iff reached, rows]
  constructor
  · intro built empty
    have untouched := built none
    rw [loops, empty] at untouched
    cases replayed : replayDiskOps env replayer.snapshot (retained []) <;>
      simp [constructOver, Except.map, replayed] at untouched
  · intro nonempty dir
    rw [loops]
    obtain ⟨disk, rest, disksEq⟩ := List.exists_cons_of_ne_nil nonempty
    rw [disksEq, constructOver_cons, List.nil_append]
    cases replayDiskOps env replayer.snapshot (retained (disk :: rest)) <;>
      rfl

/-- `open` with `O_TRUNC` of a file that is empty yields a truncation from
zero to zero, which has no disk operations, and then one byte is appended. -/
def truncatedThenAppended : List MicroOp :=
  [⟨.trunc 7 0 0, .openFile⟩, ⟨.append ⟨7, 0, 1, "dump", 0⟩, .write⟩]

def wholeWrites : Defaultfs :=
  ⟨.count, 1, Nat.one_pos, .unrounded⟩

def oneByteDump : ReplayEnv where
  dumps _ := some [65]
  garbage _ _ := 0

theorem constructCrashedDir_eq_replay_iff_appended :
    ∃ replayer, setFs .asWritten wholeWrites (logSnapshot [])
        truncatedThenAppended 1 0 = .ok replayer ∧
      replayer.legalIndices = .ok (some [0, 1, 2]) ∧
      ((∀ dir, replayer.constructCrashedDir oneByteDump dir =
        (replayDiskOps oneByteDump replayer.snapshot
          (replayer.opsAt [0, 1, 2])).map some) ↔
        replayer.ReachesDiskOp) :=
  ⟨_, rfl, rfl, constructCrashedDir_eq_replay_iff oneByteDump _ _ rfl⟩

/-- The end point after the truncation is legal, but no directory is made for
it. -/
theorem truncation_not_built :
    ∃ replayer, (setFs .asWritten wholeWrites (logSnapshot [])
        truncatedThenAppended 1 0).map (fun made => made.dopsEndAt 0 (-1)) =
          .ok replayer ∧
      replayer.isLegal = .ok true ∧
      replayer.legalIndices = .ok (some []) ∧
      replayer.constructCrashedDir oneByteDump none = .ok none ∧
      replayer.constructCrashedDir oneByteDump none ≠
        (replayDiskOps oneByteDump replayer.snapshot
          (replayer.opsAt [])).map some := by
  refine ⟨_, rfl, rfl, rfl, rfl, ?_⟩
  intro equal
  have replayed : Except.ok none = Except.ok (some _) := equal
  simp at replayed

end Replayer

end Alice
