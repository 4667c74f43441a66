import Alice.Checked
import Alice.Numbering
import Alice.Replay.CrashedDir

/-! # Numbers and pairs of disk operations

`dops_single`, `dops_double`, the loop of `is_legal`, the test suite and the
dependencies of `set_fs` number the disk operations in the same way, also if
some logical operations have none. -/

namespace Alice

open Numbering Checked

namespace Replayer

/-! ## The conversions -/

/-- `dops_len` without an argument. -/
def dopsTotal (replayer : Replayer) : ℤ :=
  replayer.microOps.foldl (fun total state => total + (state.diskOps.length : ℤ)) 0

/-- The loop of `dops_double`, with `i` and `seen_disk_ops`. -/
def doubleLoop (single : ℤ) : List MicroOpState → ℕ → ℤ → Except PyError (ℕ × ℤ)
  | [], _, _ => .error .assertionError
  | state :: rest, i, seenDiskOps =>
      if single < seenDiskOps + state.diskOps.length then
        .ok (i, single - seenDiskOps)
      else
        doubleLoop single rest (i + 1) (seenDiskOps + state.diskOps.length)

def dopsDouble (replayer : Replayer) (single : ℤ) : Except PyError (ℕ × ℤ) :=
  doubleLoop single replayer.microOps 0 0

/-- `dops_single`, which takes `None` for the place in front of all. -/
def dopsSingle (replayer : Replayer) : Option (ℕ × ℤ) → ℤ
  | none => -1
  | some (i, j) =>
      (replayer.microOps.take i).foldl (fun seenDiskOps state =>
          seenDiskOps + (state.diskOps.length : ℤ)) 0 + j

def diskAt (replayer : Replayer) (i j : ℕ) : Option DiskOpState :=
  replayer.microOps[i]?.bind fun state => state.diskOps[j]?

def lengths (replayer : Replayer) : List ℕ :=
  replayer.microOps.map fun state => state.diskOps.length

section

variable {replayer : Replayer} {i j : ℕ}

theorem foldl_add_length (states : List MicroOpState) (seen : ℤ) :
    states.foldl (fun seen state => seen + (state.diskOps.length : ℤ)) seen =
      seen + ((states.map fun state => state.diskOps.length).sum : ℕ) := by
  induction states generalizing seen with
  | nil => simp
  | cons state rest ih =>
    rw [List.foldl_cons, ih, List.map_cons, List.sum_cons]
    omega

theorem dopsTotal_eq (replayer : Replayer) : replayer.dopsTotal = (replayer.lengths.sum : ℕ) := by
  rw [dopsTotal, foldl_add_length, zero_add, lengths]

theorem dopsSingle_eq (replayer : Replayer) (i j : ℕ) : replayer.dopsSingle (some (i, (j : ℤ))) =
      number replayer.lengths i j := by
  rw [dopsSingle, foldl_add_length, number, lengths, List.map_take]
  omega

theorem doubleLoop_eq (states : List MicroOpState) (i n : ℕ) (seen : ℤ) :
    doubleLoop (seen + n) states i seen =
      match locate (states.map fun state => state.diskOps.length) n with
      | some place => .ok (i + place.1, place.2)
      | none => .error .assertionError := by
  induction states generalizing i n seen with
  | nil => rfl
  | cons state rest ih =>
    rw [doubleLoop, List.map_cons, locate]
    by_cases here : n < state.diskOps.length
    · rw [if_pos here, if_pos (by omega)]
      simp
    · have later : seen + n = seen + state.diskOps.length + (n - state.diskOps.length : ℕ) := by
        omega
      rw [if_neg here, if_neg (by omega)]
      conv_lhs => rw [later]
      rw [ih]
      cases locate (rest.map fun state => state.diskOps.length) (n - state.diskOps.length) with
      | none => rfl
      | some place =>
        simp only [Option.map_some]
        rw [Nat.add_assoc, Nat.add_comm 1]

variable {n : ℕ} {disks : List DiskOpState} {state : MicroOpState}

theorem dopsDouble_of_locate (located : locate replayer.lengths n = some (i, j)) :
    replayer.dopsDouble n = .ok (i, j) := by
  have loop := doubleLoop_eq replayer.microOps 0 n 0
  rw [zero_add, ← lengths, located] at loop
  simp only [Nat.zero_add] at loop
  exact loop

theorem holds_iff : Numbering.Holds replayer.lengths i j ↔ (replayer.diskAt i j).isSome = true := by
  rw [Numbering.Holds, lengths, diskAt]
  cases lookup : replayer.microOps[i]? with
  | none | some state => simp [List.getD_eq_getElem?_getD, lookup]

theorem dopsDouble_dopsSingle (valid : (replayer.diskAt i j).isSome = true) :
    replayer.dopsDouble (replayer.dopsSingle (some (i, j))) = .ok (i, j) := by
  rw [dopsSingle_eq]
  exact dopsDouble_of_locate (locate_number (holds_iff.2 valid))

theorem dopsSingle_dopsDouble (inside : (n : ℤ) < replayer.dopsTotal) :
    ∃ i j : ℕ, (replayer.diskAt i j).isSome = true ∧ replayer.dopsDouble n = .ok (i, j) ∧
      replayer.dopsSingle (some (i, (j : ℤ))) = n := by
  rw [dopsTotal_eq, Int.ofNat_lt] at inside
  obtain ⟨i, j, located, holds, isNumber⟩ := exists_locate inside
  refine ⟨i, j, holds_iff.1 holds, dopsDouble_of_locate located, ?_⟩
  rw [dopsSingle_eq, isNumber]

theorem dopsSingle_lt_iff {k l : ℕ} (valid : (replayer.diskAt i j).isSome = true)
    (otherValid : (replayer.diskAt k l).isSome = true) :
    replayer.dopsSingle (some (i, j)) < replayer.dopsSingle (some (k, l)) ↔
      i < k ∨ i = k ∧ j < l := by
  rw [dopsSingle_eq, dopsSingle_eq, Int.ofNat_lt]
  exact number_lt_number_iff (holds_iff.2 valid) (Nat.le_of_lt (holds_iff.2 otherValid))

/-! ## The numbers that `is_legal` counts -/

theorem mem_retainedFrom_iff {start : ℕ} : n ∈ retainedFrom start disks ↔
      ∃ k disk, disks[k]? = some disk ∧ disk.omitted = false ∧ n = start + k := by
  induction disks generalizing start with
  | nil => simp [retainedFrom]
  | cons first rest ih =>
    have split : (∃ k disk, (first :: rest)[k]? = some disk ∧
        disk.omitted = false ∧ n = start + k) ↔ first.omitted = false ∧ n = start ∨
            ∃ k disk, rest[k]? = some disk ∧ disk.omitted = false ∧ n = start + 1 + k := by
      constructor
      · rintro ⟨_ | k, disk, isDisk, kept, isNumber⟩
        · obtain rfl := Option.some.inj isDisk
          exact .inl ⟨kept, isNumber⟩
        · exact .inr ⟨k, disk, isDisk, kept, by omega⟩
      · rintro (⟨kept, isNumber⟩ | ⟨k, disk, isDisk, kept, isNumber⟩)
        · exact ⟨0, first, rfl, kept, isNumber⟩
        · exact ⟨k + 1, disk, isDisk, kept, by omega⟩
    rw [split, retainedFrom, ← ih]
    cases first.omitted <;> simp

theorem pairwise_retainedFrom (start : ℕ) (disks : List DiskOpState) :
    (retainedFrom start disks).Pairwise (· < ·) := by
  induction disks generalizing start with
  | nil => exact .nil
  | cons first rest ih =>
    rw [retainedFrom]
    split
    · exact ih (start + 1)
    · refine .cons (fun n member => ?_) (ih (start + 1))
      obtain ⟨_, _, _, _, isNumber⟩ := mem_retainedFrom_iff.1 member
      omega

theorem getElem?_flatMap_number (valid : (replayer.diskAt i j).isSome = true) :
    (replayer.microOps.flatMap MicroOpState.diskOps)[number replayer.lengths i j]? =
      replayer.diskAt i j := by
  rw [diskAt] at valid ⊢
  cases lookup : replayer.microOps[i]? with
  | none =>
    rw [lookup] at valid
    cases valid
  | some state =>
    rw [lookup, Option.bind_some] at valid
    have inside : j < state.diskOps.length := by simpa using valid
    have isList : (replayer.microOps.map MicroOpState.diskOps)[i]? = some state.diskOps := by
      rw [List.getElem?_map, lookup, Option.map_some]
    have found := getElem?_flatten_number isList inside
    rw [List.map_map] at found
    exact found

section

variable (lookup : replayer.microOps[replayer.microEnd]? = some state)
  (reached : Reached replayer (List.range (replayer.microEnd + 1)) disks)
include lookup reached

theorem Reached.length_eq :
    disks.length = number replayer.lengths replayer.microEnd
        (replayer.till replayer.microEnd state) ∧
      replayer.till replayer.microEnd state ≤ state.diskOps.length := by
  rw [List.range_succ] at reached
  obtain ⟨first, second, split, left, right⟩ := reached.append
  obtain ⟨_, firstEq⟩ := left.eq_flatMap (Nat.le_refl _)
  cases right with
  | @cons _ _ found _ isFound inRange tail =>
    cases tail
    obtain rfl := Option.some.inj (lookup.symm.trans isFound)
    refine ⟨?_, inRange⟩
    rw [split, List.append_nil, List.length_append, firstEq, List.length_flatMap, List.length_take,
      Nat.min_eq_left inRange, number, lengths, List.map_take]

/-- The loops count the retained disk operations at or before the end
point. -/
theorem mem_retainedFrom_of_reached (n : ℕ) :
    n ∈ retainedFrom 0 disks ↔ ∃ (k l : ℕ) (disk : DiskOpState), replayer.diskAt k l = some disk ∧
        (k < replayer.microEnd ∨ k = replayer.microEnd ∧ (l : ℤ) ≤ replayer.diskEnd) ∧
        disk.omitted = false ∧ replayer.dopsSingle (some (k, (l : ℤ))) = n := by
  obtain ⟨length, inRange⟩ := reached.length_eq lookup
  obtain ⟨rest, flat⟩ := reached.isPrefix_flat
  have isTill : replayer.till replayer.microEnd state = (replayer.diskEnd + 1).toNat := if_pos rfl
  have le : replayer.till replayer.microEnd state ≤ replayer.lengths.getD replayer.microEnd 0 := by
    rw [lengths, List.getD_eq_getElem?_getD, List.getElem?_map, lookup]
    exact inRange
  have place : ∀ {k l : ℕ}, (replayer.diskAt k l).isSome = true →
      (number replayer.lengths k l < disks.length ↔ k < replayer.microEnd ∨
          k = replayer.microEnd ∧ (l : ℤ) ≤ replayer.diskEnd) := by
    intro k l valid
    rw [length, number_lt_number_iff (holds_iff.2 valid) le]
    omega
  rw [mem_retainedFrom_iff]
  constructor
  · rintro ⟨n, disk, isDisk, kept, rfl⟩
    have inside := (List.getElem?_eq_some_iff.1 isDisk).1
    have total : n < replayer.lengths.sum := by
      have flatLength := congrArg List.length flat
      rw [List.length_flatMap, List.length_append] at flatLength
      exact Nat.lt_of_lt_of_le inside (Nat.le.intro flatLength.symm)
    obtain ⟨k, l, _, holds, rfl⟩ := exists_locate total
    have valid := holds_iff.1 holds
    have found := getElem?_flatMap_number valid
    rw [flat, List.getElem?_append_left inside, isDisk] at found
    refine ⟨k, l, disk, found.symm, (place valid).1 inside, kept, ?_⟩
    rw [dopsSingle_eq, Nat.zero_add]
  · rintro ⟨k, l, disk, isDisk, before, kept, isSingle⟩
    have valid : (replayer.diskAt k l).isSome = true := by
      rw [isDisk]
      rfl
    rw [dopsSingle_eq, Int.natCast_inj] at isSingle
    refine ⟨n, disk, ?_, kept, (Nat.zero_add n).symm⟩
    have found := getElem?_flatMap_number valid
    rw [isSingle, flat, List.getElem?_append_left, isDisk] at found
    · exact found
    · rw [← isSingle]
      exact (place valid).2 before

end

/-- `is_legal` gives up for an end point: it is inside of a `sync`, or at or
before it a disk operation of a `sync` is omitted. -/
def SyncCut (replayer : Replayer) (state : MicroOpState) (i : ℕ) (j : ℤ) : Prop :=
  state.isSync = true ∧ j < state.diskOps.length - 1 ∨
    ∃ (k l : ℕ) (other : MicroOpState) (disk : DiskOpState),
      replayer.microOps[k]? = some other ∧ other.isSync = true ∧
        other.diskOps[l]? = some disk ∧ disk.omitted = true ∧
        (k < i ∨ k = i ∧ (l : ℤ) ≤ j)

theorem till_dopsEndAt (state : MicroOpState) (k : ℕ) (j : ℤ) :
    (replayer.dopsEndAt i j).till k state =
      if i = k then (j + 1).toNat else state.diskOps.length :=
  rfl

theorem syncOmitted_dopsEndAt_iff {j : ℤ} :
    SyncOmitted (replayer.dopsEndAt i j) (List.range (i + 1)) ↔
      ∃ (k l : ℕ) (other : MicroOpState) (disk : DiskOpState),
        replayer.microOps[k]? = some other ∧ other.isSync = true ∧
          other.diskOps[l]? = some disk ∧ disk.omitted = true ∧ (k < i ∨ k = i ∧ (l : ℤ) ≤ j) := by
  constructor
  · rintro ⟨k, member, other, isOther, isSync, disk, inTake, omitted⟩
    obtain ⟨l, inside, isDisk⟩ := List.mem_take_iff_getElem.1 inTake
    rw [till_dopsEndAt] at inside
    have before := List.mem_range.1 member
    refine ⟨k, l, other, disk, isOther, isSync, ?_, omitted, ?_⟩
    · exact List.getElem?_eq_some_iff.2 ⟨by omega, isDisk⟩
    · split at inside <;> omega
  · rintro ⟨k, l, other, disk, isOther, isSync, isDisk, omitted, before⟩
    obtain ⟨inside, isDisk⟩ := List.getElem?_eq_some_iff.1 isDisk
    refine ⟨k, List.mem_range.2 (by omega), other, isOther, isSync, disk,
      List.mem_take_iff_getElem.2 ⟨l, ?_, isDisk⟩, omitted⟩
    rw [till_dopsEndAt]
    split <;> omega

/-- The numbers for an end point are those of the retained disk operations at
or before it. -/
theorem legalIndices_dopsEndAt {j : ℤ} (lookup : replayer.microOps[i]? = some state)
    (inRange : j < state.diskOps.length) :
    ∃ result, (replayer.dopsEndAt i j).legalIndices = .ok result ∧
      (result = none ↔ replayer.SyncCut state i j) ∧
      ∀ included ∈ result, included.Pairwise (· < ·) ∧ ∀ n, n ∈ included ↔
          ∃ (k l : ℕ) (disk : DiskOpState), replayer.diskAt k l = some disk ∧
              (k < i ∨ k = i ∧ (l : ℤ) ≤ j) ∧ disk.omitted = false ∧
              replayer.dopsSingle (some (k, (l : ℤ))) = n := by
  have atEnd : (replayer.dopsEndAt i j).microOps[
      (replayer.dopsEndAt i j).microEnd]? = some state := lookup
  obtain ⟨disks, reached⟩ := exists_reached atEnd inRange
  have indices : (replayer.dopsEndAt i j).legalIndices =
      if state.isSync = true ∧ j < state.diskOps.length - 1 then
        .ok none
      else
        (replayer.dopsEndAt i j).legalMicroLoop (List.range (i + 1)) 0 [] := by
    rw [legalIndices, atEnd]
    rfl
  rw [indices, SyncCut, ← syncOmitted_dopsEndAt_iff]
  by_cases inside : state.isSync = true ∧ j < state.diskOps.length - 1
  · rw [if_pos inside]
    refine ⟨none, rfl, iff_of_true rfl (.inl inside), ?_⟩
    rintro _ ⟨⟩
  · rw [if_neg inside, or_iff_right inside]
    by_cases omitted : SyncOmitted (replayer.dopsEndAt i j) (List.range (i + 1))
    · refine ⟨none, legalMicroLoop_of_omitted reached omitted 0 [], iff_of_true rfl omitted, ?_⟩
      rintro _ ⟨⟩
    · refine ⟨some _, legalMicroLoop_of_kept reached omitted 0 [],
        iff_of_false (Option.some_ne_none _) omitted, ?_⟩
      intro included isIncluded
      obtain rfl := Option.some.inj isIncluded
      exact ⟨pairwise_retainedFrom 0 disks, mem_retainedFrom_of_reached atEnd reached⟩

end

/-! ## The numbers of the test suite -/

/-- States of a replayer after `set_fs`.  `load` returns to one of them. -/
inductive AfterSetFs (names : Names) : Replayer → Prop
  | setFs {fs : Defaultfs} {snapshot : Snapshot} {microOps : List MicroOp}
      {microEnd : ℕ} {diskEnd : ℤ} {replayer : Replayer}
      (made : Replayer.setFs names fs snapshot microOps microEnd diskEnd =
        .ok replayer) :
      AfterSetFs names replayer
  | dopsEndAt {replayer : Replayer} (before : AfterSetFs names replayer)
      (i : ℕ) (j : ℤ) : AfterSetFs names (replayer.dopsEndAt i j)
  | dopsOmit {replayer next : Replayer} {i j : ℕ}
      (before : AfterSetFs names replayer)
      (omitted : replayer.dopsOmit i j = .ok next) : AfterSetFs names next
  | dopsInclude {replayer next : Replayer} {i j : ℕ}
      (before : AfterSetFs names replayer)
      (included : replayer.dopsInclude i j = .ok next) :
      AfterSetFs names next

/-- The suite was built from the concatenated disk operations. -/
def SuiteOfFlatOps (names : Names) (replayer : Replayer) : Prop :=
  testSuiteOf names (flatOps replayer.microOps) = .ok replayer.testSuite

variable {i : ℕ} {replayer : Replayer}

/-- Replacing a logical operation by one with the same disk operations changes
nothing in the concatenation. -/
theorem flatOps_set {microOps : List MicroOpState} {state other : MicroOpState}
    (lookup : microOps[i]? = some state) (same : flatOps [other] = flatOps [state]) :
    flatOps (microOps.set i other) = flatOps microOps := by
  induction microOps generalizing i with
  | nil => cases lookup
  | cons first rest ih =>
    have split : ∀ (first : MicroOpState) (rest : List MicroOpState),
        flatOps (first :: rest) = flatOps [first] ++ flatOps rest := by
      simp [flatOps]
    cases i with
    | zero =>
      obtain rfl := Option.some.inj lookup
      rw [List.set_cons_zero, split, same, ← split]
    | succ i => rw [List.set_cons_succ, split, ih lookup, ← split]

theorem map_modify_omitted (syscall : Syscall) (omitted : Bool) (disks : List DiskOpState) (j : ℕ) :
    ((disks.modify j fun disk => { disk with omitted := omitted }).map
        fun disk => (⟨disk.op, syscall⟩ : TracedOp)) =
      disks.map fun disk => ⟨disk.op, syscall⟩ := by
  induction disks generalizing j with
  | nil => cases j <;> rfl
  | cons disk rest ih =>
    cases j with
    | zero => rfl
    | succ j => rw [List.modify_succ_cons, List.map_cons, ih, List.map_cons]

theorem flatOps_setOmitted {next : Replayer} {j : ℕ} {omitted : Bool}
    (changed : replayer.setOmitted i j omitted = .ok next) :
    flatOps next.microOps = flatOps replayer.microOps ∧ next.testSuite = replayer.testSuite := by
  unfold setOmitted at changed
  cases lookup : replayer.microOps[i]? with
  | none =>
    rw [lookup] at changed
    cases changed
  | some state =>
    rw [lookup] at changed
    simp only at changed
    split at changed
    · obtain rfl := Except.ok.inj changed
      refine ⟨flatOps_set lookup ?_, rfl⟩
      simp only [flatOps, List.flatMap_cons, List.flatMap_nil, map_modify_omitted]
    · cases changed

theorem AfterSetFs.suiteOfFlatOps {names : Names} (made : AfterSetFs names replayer) :
    SuiteOfFlatOps names replayer := by
  induction made with
  | setFs made =>
    obtain ⟨expanded, _, made⟩ := bind_eq_ok_iff.1 made
    obtain ⟨suite, isSuite, made⟩ := bind_eq_ok_iff.1 made
    rw [pure_eq_ok_iff] at made
    subst made
    exact isSuite
  | dopsEndAt _ _ _ ih => exact ih
  | @dopsOmit replayer next i j _ omitted ih =>
    unfold Replayer.dopsOmit at omitted
    cases lookup : replayer.microOps[i]? with
    | none =>
      rw [lookup] at omitted
      cases omitted
    | some state =>
      rw [lookup] at omitted
      simp only at omitted
      split at omitted
      · obtain rfl := Except.ok.inj omitted
        exact ih
      · obtain ⟨sameOps, sameSuite⟩ := flatOps_setOmitted omitted
        rw [SuiteOfFlatOps, sameOps, sameSuite]
        exact ih
  | dopsInclude _ included ih =>
    obtain ⟨sameOps, sameSuite⟩ := flatOps_setOmitted included
    rw [SuiteOfFlatOps, sameOps, sameSuite]
    exact ih

/-- The suite and the dependencies are numbered by the concatenation. -/
theorem SuiteOfFlatOps.numbers {names : Names} (suite : SuiteOfFlatOps names replayer) :
    (∃ deps, getDeps names (flatOps replayer.microOps) = .ok deps ∧ (ALCTestSuite.construct
        (suiteOps (flatOps replayer.microOps))).addDepsToOps
          (dependencyTuples deps) = .ok replayer.testSuite) ∧
      replayer.testSuite.opList = suiteOps (flatOps replayer.microOps) := by
  obtain ⟨deps, isDeps, added⟩ := bind_eq_ok_iff.1 suite
  refine ⟨⟨deps, isDeps, added⟩, ?_⟩
  obtain ⟨_, _, isSuite⟩ := map_eq_ok_iff.1 added
  rw [← isSuite]
  exact ALCTestSuite.globalsAfter_opList _

theorem getElem?_flatOps {j : ℕ} {state : MicroOpState} {disk : DiskOpState}
    (lookup : replayer.microOps[i]? = some state) (isDisk : state.diskOps[j]? = some disk) :
    (flatOps replayer.microOps)[number replayer.lengths i j]? =
      some ⟨disk.op, state.microOp.syscall⟩ := by
  have inside := (List.getElem?_eq_some_iff.1 isDisk).1
  let traced (state : MicroOpState) : List TracedOp :=
    state.diskOps.map fun disk => ⟨disk.op, state.microOp.syscall⟩
  have isList : (replayer.microOps.map traced)[i]? = some (traced state) := by
    rw [List.getElem?_map, lookup, Option.map_some]
  have insideTraced : j < (traced state).length := by rwa [List.length_map]
  have found := getElem?_flatten_number isList insideTraced
  have sameLengths : (replayer.microOps.map traced).map List.length = replayer.lengths := by
    simp [lengths, traced, Function.comp_def]
  rw [sameLengths, List.getElem?_map, isDisk] at found
  exact found

/-! ## All numberings agree -/

/-- Numbers and pairs name the same disk operations everywhere. -/
structure Coordinates (names : Names) (replayer : Replayer) : Prop where
  double_single : ∀ i j : ℕ, (replayer.diskAt i j).isSome = true →
    replayer.dopsDouble (replayer.dopsSingle (some (i, (j : ℤ)))) =
      .ok (i, (j : ℤ))
  single_double : ∀ n : ℕ, (n : ℤ) < replayer.dopsTotal →
    ∃ i j : ℕ, (replayer.diskAt i j).isSome = true ∧
      replayer.dopsDouble n = .ok (i, (j : ℤ)) ∧
      replayer.dopsSingle (some (i, (j : ℤ))) = n
  single_lt : ∀ i j k l : ℕ, (replayer.diskAt i j).isSome = true →
    (replayer.diskAt k l).isSome = true →
      (replayer.dopsSingle (some (i, (j : ℤ))) <
          replayer.dopsSingle (some (k, (l : ℤ))) ↔
        i < k ∨ i = k ∧ j < l)
  double_lt : ∀ m n : ℕ, (m : ℤ) < replayer.dopsTotal →
    (n : ℤ) < replayer.dopsTotal → ∀ left right,
      replayer.dopsDouble m = .ok left →
        replayer.dopsDouble n = .ok right →
          (m < n ↔ left.1 < right.1 ∨
            left.1 = right.1 ∧ left.2 < right.2)
  legal : ∀ (i : ℕ) (j : ℤ) (state : MicroOpState),
    replayer.microOps[i]? = some state → j < state.diskOps.length →
      ∃ result, (replayer.dopsEndAt i j).legalIndices = .ok result ∧
        (result = none ↔ replayer.SyncCut state i j) ∧
        ∀ included ∈ result, included.Pairwise (· < ·) ∧
          ∀ n, n ∈ included ↔
            ∃ (k l : ℕ) (disk : DiskOpState),
              replayer.diskAt k l = some disk ∧
                (k < i ∨ k = i ∧ (l : ℤ) ≤ j) ∧ disk.omitted = false ∧
                replayer.dopsSingle (some (k, (l : ℤ))) = n
  dependencies : ∃ deps,
    getDeps names (flatOps replayer.microOps) = .ok deps ∧
      (ALCTestSuite.construct
        (suiteOps (flatOps replayer.microOps))).addDepsToOps
          (dependencyTuples deps) = .ok replayer.testSuite
  numbered : ∀ (i j : ℕ) (state : MicroOpState) (disk : DiskOpState),
    replayer.microOps[i]? = some state → state.diskOps[j]? = some disk →
      ∃ n : ℕ, replayer.dopsSingle (some (i, (j : ℤ))) = n ∧
        (flatOps replayer.microOps)[n]? =
          some ⟨disk.op, state.microOp.syscall⟩ ∧
        replayer.testSuite.opList[n]? = some disk.op.toSuiteOp

theorem dopsDouble_lt_iff {m n : ℕ} {left right : ℕ × ℤ} (inside : (m : ℤ) < replayer.dopsTotal)
    (otherInside : (n : ℤ) < replayer.dopsTotal) (isLeft : replayer.dopsDouble m = .ok left)
    (isRight : replayer.dopsDouble n = .ok right) :
    m < n ↔ left.1 < right.1 ∨ left.1 = right.1 ∧ left.2 < right.2 := by
  obtain ⟨i, j, valid, doubled, isM⟩ := dopsSingle_dopsDouble inside
  obtain ⟨k, l, otherValid, otherDoubled, isN⟩ := dopsSingle_dopsDouble otherInside
  obtain rfl := Except.ok.inj (doubled.symm.trans isLeft)
  obtain rfl := Except.ok.inj (otherDoubled.symm.trans isRight)
  have order := dopsSingle_lt_iff valid otherValid
  rw [isM, isN, Int.ofNat_lt] at order
  rw [order]
  simp only [Int.ofNat_lt]

/-- In every state after `set_fs` the four numberings are the same. -/
theorem coordinates_inverse
    (names : Names) (replayer : Replayer)
    (made : AfterSetFs names replayer) :
    replayer.Coordinates names := by
  obtain ⟨dependencies, isOpList⟩ := made.suiteOfFlatOps.numbers
  exact
    { double_single := fun _ _ => dopsDouble_dopsSingle
      single_double := fun _ => dopsSingle_dopsDouble
      single_lt := fun _ _ _ _ => dopsSingle_lt_iff
      double_lt := fun _ _ inside otherInside _ _ =>
        dopsDouble_lt_iff inside otherInside
      legal := fun _ _ _ => legalIndices_dopsEndAt
      dependencies := dependencies
      numbered := by
        intro i j state disk lookup isDisk
        have found := getElem?_flatOps lookup isDisk
        refine ⟨_, dopsSingle_eq replayer i j, found, ?_⟩
        rw [isOpList, suiteOps, List.getElem?_map, found]
        rfl }

/-- A truncate without disk operations in front of an append. -/
theorem coordinates_inverse_appended :
    ∃ replayer, setFs .asWritten wholeWrites (logSnapshot [])
        truncatedThenAppended 1 0 = .ok replayer ∧
      replayer.Coordinates .asWritten :=
  ⟨_, rfl, coordinates_inverse .asWritten _
    (@AfterSetFs.setFs .asWritten wholeWrites (logSnapshot [])
      truncatedThenAppended 1 0 _ rfl)⟩

end Replayer

end Alice
