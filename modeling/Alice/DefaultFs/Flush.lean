import Alice.DefaultFs.Deps

/-! # What `get_deps` computes

An earlier operation is exposed to the scan of a `sync` when no covering
`sync` lies between the two.  The scan returns exactly when no exposed
operation makes it raise, and collects the exposed operations it targets. -/

namespace Alice

/-- The operation at a position satisfies a predicate. -/
def HoldsAt (ops : List TracedOp) (i : ℕ) (p : DiskOp → Prop) : Prop :=
  ∃ traced, ops[i]? = some traced ∧ p traced.op

variable {ops rest : List TracedOp} {i bound : ℕ} {traced : TracedOp} {point : SyncPoint}
  {names : Names} {lastSync : Option ℕ} {deps : List (Finset ℕ)}

theorem holdsAt_iff {p : DiskOp → Prop} (lookup : ops[i]? = some traced) :
    HoldsAt ops i p ↔ p traced.op := by
  simp [HoldsAt, lookup]

/-- `op` is a `sync` of the same inode whose range covers that of `point`. -/
def Covers (point : SyncPoint) : DiskOp → Prop
  | .sync inode offset count =>
      inode = point.inode ∧ offset ≤ point.offset ∧ point.offset + point.count ≤ offset + count
  | _ => False

/-- `op` is something that a `sync` at `point` flushes: a write that starts in
its range, the two ends included, a truncation of its inode, or a directory
entry operation in its inode. -/
def Targets (point : SyncPoint) : DiskOp → Prop
  | .write op =>
      op.inode = point.inode ∧ point.offset ≤ op.offset ∧ op.offset ≤ point.offset + point.count
  | .truncate inode _ _ _ => inode = point.inode
  | .createDirEntry parent _ _ _ _ => parent = point.inode
  | .deleteDirEntry parent _ _ _ _ => parent = point.inode
  | _ => False

/-- The loop body gets past `op`: the call behind the `sync` is one that the
assertions allow, and, where the warnings raise, a write of the inode has both
ends in the range or none. -/
def Harmless (names : Names) (point : SyncPoint) : DiskOp → Prop
  | .write op =>
      op.inode = point.inode → names = .asWritten →
        (point.within op.offset ↔ point.within (op.offset + op.count))
  | .truncate inode _ _ _ =>
      inode = point.inode → point.syscall ∈ [.fsync, .fdatasync, .sync]
  | .createDirEntry parent _ _ _ _ =>
      parent = point.inode → point.syscall ∈ [.fsync, .sync]
  | .deleteDirEntry parent _ _ _ _ =>
      parent = point.inode → point.syscall ∈ [.fsync, .sync]
  | _ => True

theorem SyncPoint.within_iff (point : SyncPoint) (position : ℕ) : point.within position = true ↔
      point.offset ≤ position ∧ position ≤ point.offset + point.count := by
  rw [SyncPoint.within, Bool.and_eq_true, decide_eq_true_eq, decide_eq_true_eq]
  rfl

theorem scanStep_cases (names : Names) (point : SyncPoint) (op : DiskOp) :
    (scanStep names point op = .stop ∧ Covers point op ∧ Harmless names point op) ∨
    (scanStep names point op = .take ∧ ¬ Covers point op ∧
      Targets point op ∧ Harmless names point op) ∨
    (scanStep names point op = .skip ∧ ¬ Covers point op ∧
      ¬ Targets point op ∧ Harmless names point op) ∨
    ((∃ error, scanStep names point op = .raise error) ∧
      ¬ Covers point op ∧ ¬ Harmless names point op) := by
  cases op with
  | sync inode offset count =>
    by_cases sameInode : inode = point.inode
    · by_cases covering : offset ≤ point.offset ∧ point.final ≤ offset + count
      · exact Or.inl ⟨by simp [scanStep, sameInode, covering], ⟨sameInode, covering⟩, trivial⟩
      · refine Or.inr (Or.inr (Or.inl ⟨by simp [scanStep, sameInode, covering], ?_, id, trivial⟩))
        rintro ⟨_, covered⟩
        exact covering covered
    · exact Or.inr (Or.inr (Or.inl ⟨by simp [scanStep, sameInode],
          fun covered => sameInode covered.1, id, trivial⟩))
  | truncate inode _ _ _ =>
    by_cases sameInode : inode = point.inode
    · by_cases allowed : point.syscall ∈ [.fsync, .fdatasync, .sync]
      · exact Or.inr (Or.inl ⟨by simp only [scanStep, sameInode, ne_eq, not_true_eq_false,
              if_false, if_pos allowed], id, sameInode, fun _ => allowed⟩)
      · exact Or.inr (Or.inr (Or.inr ⟨⟨.assertionError, by
              simp only [scanStep, sameInode, ne_eq, not_true_eq_false, if_false, if_neg allowed]⟩,
            id, fun harmless => allowed (harmless sameInode)⟩))
    · exact Or.inr (Or.inr (Or.inl ⟨by simp [scanStep, sameInode], id, sameInode,
          fun same => absurd same sameInode⟩))
  | write op =>
    by_cases sameInode : op.inode = point.inode
    · by_cases starts : point.within op.offset = true
      · have targeted : Targets point (.write op) := ⟨sameInode, (point.within_iff _).1 starts⟩
        by_cases ends : point.within (op.offset + op.count) = true
        · exact Or.inr (Or.inl ⟨by simp [scanStep, sameInode, starts, ends], id, targeted,
              fun _ _ => iff_of_true starts ends⟩)
        · cases names with
          | imported =>
            exact Or.inr (Or.inl ⟨by simp [scanStep, sameInode, starts, ends, warn], id,
                targeted, fun _ impossible => by cases impossible⟩)
          | asWritten =>
            exact Or.inr (Or.inr (Or.inr ⟨⟨.nameError, by
                  simp [scanStep, sameInode, starts, ends, warn]⟩, id,
                fun harmless => ends ((harmless sameInode rfl).1 starts)⟩))
      · have untargeted : ¬ Targets point (.write op) := fun targeted =>
          starts ((point.within_iff _).2 targeted.2)
        by_cases ends : point.within (op.offset + op.count) = true
        · cases names with
          | imported =>
            exact Or.inr (Or.inr (Or.inl ⟨by simp [scanStep, sameInode, starts, ends, warn], id,
                untargeted, fun _ impossible => by cases impossible⟩))
          | asWritten =>
            exact Or.inr (Or.inr (Or.inr ⟨⟨.nameError, by
                  simp [scanStep, sameInode, starts, ends, warn]⟩, id,
                fun harmless => starts ((harmless sameInode rfl).2 ends)⟩))
        · exact Or.inr (Or.inr (Or.inl ⟨by simp [scanStep, sameInode, starts, ends], id, untargeted,
              fun _ _ => iff_of_false starts ends⟩))
    · exact Or.inr (Or.inr (Or.inl ⟨by simp [scanStep, sameInode], id,
          fun targeted => sameInode targeted.1, fun same => absurd same sameInode⟩))
  | createDirEntry parent _ _ _ _ | deleteDirEntry parent _ _ _ _ =>
    by_cases sameInode : parent = point.inode
    · by_cases allowed : point.syscall ∈ [.fsync, .sync]
      · exact Or.inr (Or.inl ⟨by simp only [scanStep, sameInode, ne_eq, not_true_eq_false,
              if_false, if_pos allowed], id, sameInode, fun _ => allowed⟩)
      · exact Or.inr (Or.inr (Or.inr ⟨⟨.assertionError, by
              simp only [scanStep, sameInode, ne_eq, not_true_eq_false, if_false, if_neg allowed]⟩,
            id, fun harmless => allowed (harmless sameInode)⟩))
    · exact Or.inr (Or.inr (Or.inl ⟨by simp [scanStep, sameInode], id, sameInode,
          fun same => absurd same sameInode⟩))
  | stdout _ => exact Or.inr (Or.inr (Or.inl ⟨rfl, id, id, trivial⟩))

theorem not_targets_of_covers {op : DiskOp} (covers : Covers point op) : ¬ Targets point op := by
  cases op with
  | sync => exact id
  | _ => exact False.elim covers

/-! ## The scan of one `sync` -/

/-- No covering `sync` lies strictly between `j` and `bound`. -/
def Exposed (ops : List TracedOp) (point : SyncPoint) (bound j : ℕ) : Prop :=
  ∀ t, j < t → t < bound → ¬ HoldsAt ops t (Covers point)

theorem exposed_succ_iff {j : ℕ} (below : j < bound) : Exposed ops point (bound + 1) j ↔
      Exposed ops point bound j ∧ ¬ HoldsAt ops bound (Covers point) := by
  constructor
  · intro exposed
    exact ⟨fun t after before => exposed t after (by omega),
      exposed bound below (Nat.lt_succ_self bound)⟩
  · rintro ⟨exposed, uncovered⟩ t after before
    rcases Nat.lt_succ_iff_lt_or_eq.1 before with earlier | equal
    · exact exposed t after earlier
    · exact equal ▸ uncovered

theorem exposed_pred (ops : List TracedOp) (point : SyncPoint) (j : ℕ) :
    Exposed ops point (j + 1) j := by
  intro t after before
  omega

/-- What is exposed one position later, when the operation in between does
not cover: that operation itself, and what was exposed before. -/
theorem exposed_and_succ_iff (lookup : ops[bound]? = some traced)
    (uncovered : ¬ Covers point traced.op) (j : ℕ) :
    (j < bound + 1 ∧ Exposed ops point (bound + 1) j) ↔
      j = bound ∨ j < bound ∧ Exposed ops point bound j := by
  constructor
  · rintro ⟨below, exposed⟩
    rcases Nat.lt_succ_iff_lt_or_eq.1 below with earlier | equal
    · exact Or.inr ⟨earlier, ((exposed_succ_iff earlier).1 exposed).1⟩
    · exact Or.inl equal
  · rintro (equal | ⟨earlier, exposed⟩)
    · subst equal
      exact ⟨Nat.lt_succ_self j, exposed_pred ops point j⟩
    · refine ⟨Nat.lt_succ_of_lt earlier, ?_⟩
      refine (exposed_succ_iff earlier).2 ⟨exposed, fun covered => ?_⟩
      exact uncovered ((holdsAt_iff lookup).1 covered)

/-- Nothing but the operation in between is exposed one position later, when
that operation covers. -/
theorem exposed_and_succ_iff_of_covers (lookup : ops[bound]? = some traced)
    (covers : Covers point traced.op) (j : ℕ) :
    (j < bound + 1 ∧ Exposed ops point (bound + 1) j) ↔ j = bound := by
  constructor
  · rintro ⟨below, exposed⟩
    rcases Nat.lt_succ_iff_lt_or_eq.1 below with earlier | equal
    · exact absurd ((holdsAt_iff lookup).2 covers) (exposed bound earlier (Nat.lt_succ_self bound))
    · exact equal
  · intro equal
    subst equal
    exact ⟨Nat.lt_succ_self j, exposed_pred ops point j⟩

theorem syncScan_returns_iff (names : Names) (ops : List TracedOp) (point : SyncPoint)
    (inRange : bound ≤ ops.length) : (∃ deps, syncScan names ops point bound = .ok deps) ↔
      ∀ j, j < bound ∧ Exposed ops point bound j → HoldsAt ops j (Harmless names point) := by
  induction bound with
  | zero => simp [syncScan]
  | succ bound ih =>
    have known : bound < ops.length := inRange
    have lookup : ops[bound]? = some ops[bound] := List.getElem?_eq_getElem known
    have step := ih (Nat.le_of_lt known)
    rcases scanStep_cases names point ops[bound].op with
      ⟨stepEq, covers, harmless⟩ |
      ⟨stepEq, uncovered, _, harmless⟩ |
      ⟨stepEq, uncovered, _, harmless⟩ |
      ⟨⟨error, stepEq⟩, uncovered, harmful⟩
    · simp only [syncScan, lookup, stepEq, exposed_and_succ_iff_of_covers lookup covers, forall_eq]
      exact iff_of_true ⟨∅, rfl⟩ ((holdsAt_iff lookup).2 harmless)
    · have mapped : (∃ deps, (syncScan names ops point bound).map (insert bound) = .ok deps) ↔
            ∃ deps, syncScan names ops point bound = .ok deps := by
        cases syncScan names ops point bound with
        | error e => simp [Except.map]
        | ok found => simp [Except.map]
      simp only [syncScan, lookup, stepEq, exposed_and_succ_iff lookup uncovered, forall_eq_or_imp]
      rw [mapped, step]
      exact (and_iff_right ((holdsAt_iff lookup).2 harmless)).symm
    · simp only [syncScan, lookup, stepEq, exposed_and_succ_iff lookup uncovered, forall_eq_or_imp]
      rw [step]
      exact (and_iff_right ((holdsAt_iff lookup).2 harmless)).symm
    · simp only [syncScan, lookup, stepEq, exposed_and_succ_iff lookup uncovered, forall_eq_or_imp]
      refine iff_of_false (by simp) fun all => ?_
      exact harmful ((holdsAt_iff lookup).1 all.1)

theorem mem_syncScan_iff {deps : Finset ℕ} (returned : syncScan names ops point bound = .ok deps)
    (j : ℕ) : j ∈ deps ↔ (j < bound ∧ Exposed ops point bound j) ∧
        HoldsAt ops j (Targets point) := by
  induction bound generalizing deps with
  | zero =>
    simp only [syncScan, Except.ok.injEq] at returned
    subst returned
    simp
  | succ bound ih =>
    cases lookup : ops[bound]? with
    | none => simp [syncScan, lookup] at returned
    | some traced =>
      simp only [syncScan, lookup] at returned
      rcases scanStep_cases names point traced.op with
        ⟨stepEq, covers, _⟩ |
        ⟨stepEq, uncovered, targeted, _⟩ |
        ⟨stepEq, uncovered, untargeted, _⟩ |
        ⟨⟨error, stepEq⟩, _, _⟩
      · simp only [stepEq, Except.ok.injEq] at returned
        subst returned
        rw [exposed_and_succ_iff_of_covers lookup covers]
        refine iff_of_false (Finset.notMem_empty j) ?_
        rintro ⟨equal, targeted⟩
        subst equal
        exact not_targets_of_covers covers ((holdsAt_iff lookup).1 targeted)
      · simp only [stepEq] at returned
        cases rest : syncScan names ops point bound with
        | error e => simp [rest, Except.map] at returned
        | ok found =>
          simp only [rest, Except.map, Except.ok.injEq] at returned
          subst returned
          rw [Finset.mem_insert, ih rest, exposed_and_succ_iff lookup uncovered, or_and_right]
          refine or_congr_left (iff_self_and.2 ?_)
          intro equal
          exact equal ▸ (holdsAt_iff lookup).2 targeted
      · simp only [stepEq] at returned
        rw [ih returned, exposed_and_succ_iff lookup uncovered, or_and_right]
        refine (or_iff_right ?_).symm
        rintro ⟨equal, flushed⟩
        subst equal
        exact untargeted ((holdsAt_iff lookup).1 flushed)
      · simp [stepEq] at returned

/-! ## All dependencies -/

/-- The `sync` at a position, as its scan sees it. -/
def syncPointAt (ops : List TracedOp) (i : ℕ) : Option SyncPoint :=
  match ops[i]? with
  | some ⟨.sync inode offset count, syscall⟩ =>
      some ⟨inode, offset, count, syscall⟩
  | _ => none

theorem syncPointAt_lt_length {s : ℕ} (pointEq : syncPointAt ops s = some point)
    : s < ops.length := by
  by_contra past
  have missing : ops[s]? = none := by simpa using past
  simp [syncPointAt, missing] at pointEq

/-- `s` is a `sync` that flushes the earlier operation `j`, cut off at the
nearest earlier `sync` of the inode that covers the range of `s`. -/
def Flushes (ops : List TracedOp) (s j : ℕ) : Prop :=
  ∃ point, syncPointAt ops s = some point ∧
    (j < s ∧ Exposed ops point s j) ∧ HoldsAt ops j (Targets point)

def BarrierAt (ops : List TracedOp) (i : ℕ) : Prop :=
  HoldsAt ops i fun op => op.isBarrier = true

/-- `b` is the last `sync` or `stdout` before position `i`. -/
def LastBarrier (ops : List TracedOp) (i b : ℕ) : Prop :=
  (b < i ∧ BarrierAt ops b) ∧ ∀ t, b < t → t < i → ¬ BarrierAt ops t

/-- The variable `last_sync` when the outer loop comes to position `i`. -/
def LastSyncIs (ops : List TracedOp) (i : ℕ) (lastSync : Option ℕ) : Prop :=
  ∀ b, b ∈ lastSync ↔ LastBarrier ops i b

theorem lastSyncIs_zero (ops : List TracedOp) : LastSyncIs ops 0 none := by
  intro b
  simp [LastBarrier]

theorem LastSyncIs.next (current : LastSyncIs ops i lastSync) (lookup : ops[i]? = some traced) :
    LastSyncIs ops (i + 1) (if traced.op.isBarrier then some i else lastSync) := by
  intro b
  by_cases barrier : traced.op.isBarrier = true
  · have here : BarrierAt ops i := (holdsAt_iff lookup).2 barrier
    rw [if_pos barrier, Option.mem_some_iff]
    constructor
    · intro equal
      subst equal
      exact ⟨⟨Nat.lt_succ_self i, here⟩, fun t after before => by omega⟩
    · rintro ⟨⟨below, _⟩, none⟩
      by_contra different
      exact none i (by omega) (Nat.lt_succ_self i) here
  · have notHere : ¬ BarrierAt ops i := fun here => barrier ((holdsAt_iff lookup).1 here)
    rw [if_neg barrier, current b]
    constructor
    · rintro ⟨⟨below, isBarrier⟩, none⟩
      refine ⟨⟨Nat.lt_succ_of_lt below, isBarrier⟩, ?_⟩
      intro t after before
      rcases Nat.lt_succ_iff_lt_or_eq.1 before with earlier | equal
      · exact none t after earlier
      · exact equal ▸ notHere
    · rintro ⟨⟨below, isBarrier⟩, none⟩
      have different : b ≠ i := by
        rintro rfl
        exact notHere isBarrier
      exact ⟨⟨by omega, isBarrier⟩, fun t after before => none t after (Nat.lt_succ_of_lt before)⟩

theorem ownDeps_eq (lookup : ops[i]? = some traced) : ownDeps names ops i traced =
      match syncPointAt ops i with
      | some point => syncScan names ops point i
      | none => .ok ∅ := by
  obtain ⟨op, syscall⟩ := traced
  cases op <;> simp [ownDeps, syncPointAt, lookup]

theorem mem_ownDeps_iff {deps : Finset ℕ} (lookup : ops[i]? = some traced)
    (returned : ownDeps names ops i traced = .ok deps) (j : ℕ) : j ∈ deps ↔ Flushes ops i j := by
  rw [ownDeps_eq lookup] at returned
  unfold Flushes
  cases point : syncPointAt ops i with
  | none =>
    simp only [point, Except.ok.injEq] at returned
    subst returned
    simp
  | some point =>
    simp only [point] at returned
    simp [mem_syncScan_iff returned]

/-- Step of the outer loop: the list for position `i` on returns exactly when
the scan at `i` and the list for `i + 1` on do, and is made of both. -/
theorem getDepsFrom_cons_ok_iff : getDepsFrom names ops i lastSync (traced :: rest) = .ok deps ↔
      ∃ own later, ownDeps names ops i traced = .ok own ∧ getDepsFrom names ops (i + 1)
          (if traced.op.isBarrier then some i else lastSync) rest = .ok later ∧
        deps = (lastSync.toFinset ∪ own) :: later := by
  rw [getDepsFrom]
  cases ownDeps names ops i traced with
  | error e => simp [bind, Except.bind]
  | ok own =>
    cases getDepsFrom names ops (i + 1) (if traced.op.isBarrier then some i else lastSync) rest with
    | error e => simp [bind, Except.bind]
    | ok later => simp [bind, Except.bind, pure, Except.pure, eq_comm]

theorem getDepsFrom_returns_iff (suffix : ops.drop i = rest) :
    (∃ deps, getDepsFrom names ops i lastSync rest = .ok deps) ↔
      ∀ s point, i ≤ s → syncPointAt ops s = some point →
        ∃ own, syncScan names ops point s = .ok own := by
  induction rest generalizing i lastSync with
  | nil =>
    refine iff_of_true ⟨[], rfl⟩ fun s point from_i pointEq => ?_
    have past : ops[s]? = none := by
      rw [List.getElem?_eq_none_iff]
      exact (List.drop_eq_nil_iff.1 suffix).trans from_i
    simp [syncPointAt, past] at pointEq
  | cons traced rest ih =>
    have lookup : ops[i]? = some traced := by rw [← List.head?_drop, suffix, List.head?_cons]
    have nextSuffix : ops.drop (i + 1) = rest := by rw [← List.tail_drop, suffix, List.tail_cons]
    simp only [getDepsFrom_cons_ok_iff]
    have later : (∃ deps, getDepsFrom names ops (i + 1) (if traced.op.isBarrier then some i else
          lastSync) rest = .ok deps) ↔ ∀ s point, i + 1 ≤ s → syncPointAt ops s = some point →
          ∃ own, syncScan names ops point s = .ok own := ih nextSuffix
    have here : (∃ own, ownDeps names ops i traced = .ok own) ↔
          ∀ point, syncPointAt ops i = some point →
            ∃ own, syncScan names ops point i = .ok own := by
      rw [ownDeps_eq lookup]
      cases syncPointAt ops i with
      | none => simp
      | some point => simp
    constructor
    · rintro ⟨_, own, found, ownEq, laterEq, _⟩ s point from_i pointEq
      rcases Nat.eq_or_lt_of_le from_i with equal | less
      · subst equal
        exact here.1 ⟨own, ownEq⟩ point pointEq
      · exact later.1 ⟨found, laterEq⟩ s point less pointEq
    · intro all
      obtain ⟨own, ownEq⟩ := here.2 fun point pointEq => all i point (Nat.le_refl i) pointEq
      obtain ⟨found, laterEq⟩ := later.2 fun s point after pointEq =>
          all s point (Nat.le_of_succ_le after) pointEq
      exact ⟨_, own, found, ownEq, laterEq, rfl⟩

theorem mem_getDepsFrom_iff (suffix : ops.drop i = rest) (current : LastSyncIs ops i lastSync)
    (returned : getDepsFrom names ops i lastSync rest = .ok deps) : deps.length = rest.length ∧
      ∀ x < rest.length, ∀ y, y ∈ deps.getD x ∅ ↔
        LastBarrier ops (i + x) y ∨ Flushes ops (i + x) y := by
  induction rest generalizing i lastSync deps with
  | nil =>
    simp only [getDepsFrom, Except.ok.injEq] at returned
    subst returned
    simp
  | cons traced rest ih =>
    have lookup : ops[i]? = some traced := by rw [← List.head?_drop, suffix, List.head?_cons]
    have nextSuffix : ops.drop (i + 1) = rest := by rw [← List.tail_drop, suffix, List.tail_cons]
    obtain ⟨own, later, ownEq, laterEq, rfl⟩ := getDepsFrom_cons_ok_iff.1 returned
    obtain ⟨sameLength, members⟩ := ih nextSuffix (current.next lookup) laterEq
    refine ⟨by simp [sameLength], ?_⟩
    intro x bound y
    cases x with
    | zero =>
      rw [List.getD_cons_zero, Finset.mem_union, Option.mem_toFinset,
        current y, mem_ownDeps_iff lookup ownEq, Nat.add_zero]
    | succ x =>
      have shifted : i + (x + 1) = i + 1 + x := by omega
      rw [List.getD_cons_succ, shifted]
      exact members x (Nat.lt_of_succ_lt_succ bound) y

/-- The dependencies of operation `x` in a result of `get_deps`. -/
def hiddenDependencies (deps : List (Finset ℕ)) (x : ℕ) : Finset ℕ :=
  deps.getD x ∅

theorem mem_hiddenDependencies_iff (returned : getDeps names ops = .ok deps) {x : ℕ}
    (bound : x < ops.length) (y : ℕ) : y ∈ hiddenDependencies deps x ↔
      LastBarrier ops x y ∨ Flushes ops x y := by
  have members := (mem_getDepsFrom_iff List.drop_zero (lastSyncIs_zero ops) returned).2
  simpa only [hiddenDependencies, Nat.zero_add] using members x bound y

theorem getDeps_length (returned : getDeps names ops = .ok deps) : deps.length = ops.length :=
  (mem_getDepsFrom_iff List.drop_zero (lastSyncIs_zero ops) returned).1

/-- `get_deps` returns exactly when every operation exposed to the scan of
some `sync` is harmless to it. -/
theorem getDeps_returns_iff (names : Names) (ops : List TracedOp) :
    (∃ deps, getDeps names ops = .ok deps) ↔ ∀ s point, syncPointAt ops s = some point →
        ∀ j, j < s ∧ Exposed ops point s j → HoldsAt ops j (Harmless names point) := by
  rw [getDeps, getDepsFrom_returns_iff List.drop_zero]
  constructor
  · intro all s point pointEq
    refine (syncScan_returns_iff names ops point ?_).1 (all s point (Nat.zero_le s) pointEq)
    exact Nat.le_of_lt (syncPointAt_lt_length pointEq)
  · intro all s point _ pointEq
    refine (syncScan_returns_iff names ops point ?_).2 (all s point pointEq)
    exact Nat.le_of_lt (syncPointAt_lt_length pointEq)

end Alice
