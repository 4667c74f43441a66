import Alice.Explorer.Ordering
import Alice.WorkQueue

/-! # The threads of `default_checks`

The three phases are put together as a program of the main thread, which hands
crash states to worker threads and waits for their exit codes.  The names of
the directories tell all states apart, so no thread interferes with another. -/

namespace Alice

open Checked WorkQueue
open Relation (ReflTransGen)

/-! ## Names of crash directories -/

/-- The second argument of `check_later`, in the three phases. -/
inductive CrashId where
  | after (i : ℕ)
  | ordered (i j : ℕ)
  | inside (id : StateId)
  deriving DecidableEq, Repr

namespace CheckMode

def word : CheckMode → String
  | count1 | count3 => "count"
  | aligned4096 => "aligned"

def number : CheckMode → ℕ
  | count1 => 1
  | count3 => 3
  | aligned4096 => 4096

end CheckMode

/-- The parts of a directory name between its hyphens. -/
def CrashId.parts : CrashId → List String
  | .after i => [toString i]
  | .ordered i j => [toString i, toString j]
  | .inside (.whole mode i j) =>
      [mode.word, toString mode.number, toString i, toString j]
  | .inside (.omitting mode i j k) =>
      [mode.word, toString mode.number, toString i, toString j, toString k]

/-- `os.path.join` with a relative second part. -/
def pathJoin (dir name : String) : String :=
  if dir.toList.getLast? = some '/' ∨ dir = "" then
    dir ++ name
  else
    dir ++ "/" ++ name

def CrashId.dirname (scratchpadDir : String) (id : CrashId) : String :=
  pathJoin scratchpadDir ("-".intercalate ("reconstructeddir" :: id.parts))

/-! ## The main thread -/

/-- The states that the first phase puts into the queue. -/
def acrossQueue (env : ExplorerEnv) (replayer : Replayer) : Except PyError (List ℕ) :=
  (List.range replayer.microOps.length).foldlM (fun queue i => do
    let length ← replayer.dopsLen i
    let _ ← (replayer.dopsEndAt i ((length : ℤ) - 1)).constructCrashedDir env.replayEnv none
    pure (queue ++ [i])) []

/-- The surroundings of `default_checks`, and the replayer when it has been
set up. -/
structure CheckerRun where
  env : ExplorerEnv
  microOps : List MicroOp
  replayer : Replayer

namespace CheckerRun

variable (run : CheckerRun)

/-- The loop over the exit codes of the first phase, which reads all of
them. -/
def patch? (outputs : CrashId → Option ℤ) : Option (Finset ℕ) :=
  let count := run.replayer.microOps.length
  if ∀ i < count, (outputs (.after i)).isSome then
    some (acrossSyscall count fun i =>
      (outputs (.after i)).getD 0).atomicPatchMiddle
  else
    none

/-- The last phase, behind the second reset. -/
def atomicityProgram (patch : Finset ℕ) : Program CrashId ℤ :=
  match AtomicityPhase.enqueue run.env run.microOps patch run.replayer with
  | .error _ => .failed
  | .ok phase => .submitAll (phase.queue.map .inside) (.wait fun _ => .done)

/-- The second phase, behind the first reset. -/
def orderingProgram (patch : Finset ℕ) : Program CrashId ℤ :=
  match OrderingPhase.enqueue run.env run.replayer patch with
  | .error _ => .failed
  | .ok phase =>
      .submitAll (phase.queue.map fun (i, j) => .ordered i j)
        (.wait fun _ => .reset (run.atomicityProgram patch))

/-- `default_checks`, as far as it has to do with the threads.  A phase in
which an exception is raised never comes to wait; what it has put into the
queue before is left out. -/
def program (threads : ℕ) : Program CrashId ℤ :=
  if 0 < threads then
    match acrossQueue run.env run.replayer with
    | .error _ => .failed
    | .ok queue =>
        .submitAll (queue.map .after) (.wait fun outputs =>
          match run.patch? outputs with
          | none => .failed
          | some patch => .reset (run.orderingProgram patch))
  else
    .failed

end CheckerRun

/-- Every crash directory, what it holds when it has been built, and the exit
code of the checker, which depends on nothing else. -/
def checkerSetting (scratchpadDir : String) (content : CrashId → Option CrashState)
    (checker : String → Option CrashState → ℤ) : Setting CrashId String (Option CrashState) ℤ where
  place := CrashId.dirname scratchpadDir
  content := content
  missing := none
  run := checker

/-! ## The names are different -/

theorem pathJoin_inj {dir name other : String} (same : pathJoin dir name = pathJoin dir other)
    : name = other := by
  unfold pathJoin at same
  split_ifs at same
  · exact String.append_right_inj dir |>.1 same
  · exact String.append_right_inj (dir ++ "/") |>.1 same

theorem not_hyphen_mem_toDigits (number : ℕ) : '-' ∉ Nat.toDigits 10 number := by
  intro member
  have digit := Nat.isDigit_of_mem_toDigits (by decide) (by decide) member
  exact absurd digit (by decide)

theorem toString_inj {first second : ℕ} (same : toString first = toString second)
    : first = second := by
  rw [Nat.toString_eq_ofList_toDigits, Nat.toString_eq_ofList_toDigits] at same
  have digits := congrArg String.toList same
  rw [String.toList_ofList, String.toList_ofList] at digits
  rw [← Nat.ofDigitChars_ten_toDigits (n := first), digits, Nat.ofDigitChars_ten_toDigits]

theorem CrashId.not_hyphen_mem_parts (id : CrashId) : ∀ part ∈ id.parts, '-' ∉ part.toList := by
  rcases id with i | ⟨i, j⟩ | ⟨mode, i, j⟩ | ⟨mode, i, j, k⟩
  · simp [parts, not_hyphen_mem_toDigits]
  · simp [parts, not_hyphen_mem_toDigits]
  · cases mode <;> simp [parts, not_hyphen_mem_toDigits, CheckMode.word]
  · cases mode <;> simp [parts, not_hyphen_mem_toDigits, CheckMode.word]

theorem CrashId.parts_of_intercalate {first second : CrashId}
    (same : "-".intercalate ("reconstructeddir" :: first.parts) =
      "-".intercalate ("reconstructeddir" :: second.parts)) : first.parts = second.parts := by
  have split : ∀ id : CrashId,
      ("-".intercalate ("reconstructeddir" :: id.parts)).toList.splitOn '-' =
        ("reconstructeddir" :: id.parts).map String.toList := by
    intro id
    rw [String.toList_intercalate]
    apply List.splitOn_intercalate
    · rw [List.forall_mem_map, List.forall_mem_cons]
      exact ⟨by decide, id.not_hyphen_mem_parts⟩
    · exact List.cons_ne_nil _ _
  have parts := split first
  rw [same, split second] at parts
  exact (List.cons.inj (List.map_injective_iff.2 (fun _ _ => String.toList_injective) parts)).2.symm

theorem CheckMode.number_injective : Function.Injective CheckMode.number := by
  intro first second same
  cases first <;> cases second <;> first | rfl | cases same

theorem CrashId.parts_injective : Function.Injective CrashId.parts := by
  intro first second same
  rcases first with i | ⟨i, j⟩ | ⟨mode, i, j⟩ | ⟨mode, i, j, k⟩ <;>
    rcases second with i' | ⟨i', j'⟩ | ⟨mode', i', j'⟩ | ⟨mode', i', j', k'⟩ <;>
    simp only [parts, List.cons.injEq, reduceCtorEq, and_false, and_true] at same
  · rw [toString_inj same]
  · rw [toString_inj same.1, toString_inj same.2]
  · rw [CheckMode.number_injective (toString_inj same.2.1),
      toString_inj same.2.2.1, toString_inj same.2.2.2]
  · rw [CheckMode.number_injective (toString_inj same.2.1),
      toString_inj same.2.2.1, toString_inj same.2.2.2.1, toString_inj same.2.2.2.2]

theorem CrashId.dirname_injective (scratchpadDir : String) :
    Function.Injective (CrashId.dirname scratchpadDir) := by
  intro first second same
  exact parts_injective (parts_of_intercalate (pathJoin_inj same))

/-! ## No state is queued twice -/

theorem acrossQueue_eq {env : ExplorerEnv} {replayer : Replayer} {queue : List ℕ}
    (ran : acrossQueue env replayer = .ok queue) : queue = List.range replayer.microOps.length := by
  have general : ∀ (is front last : List ℕ), is.foldlM (fun queue i => do
        let length ← replayer.dopsLen i
        let _ ← (replayer.dopsEndAt i ((length : ℤ) - 1)).constructCrashedDir env.replayEnv none
        pure (queue ++ [i])) front = .ok last → last = front ++ is := by
    intro is
    induction is with
    | nil =>
      intro front last ran
      cases ran
      rw [List.append_nil]
    | cons i is ih =>
      intro front last ran
      obtain ⟨next, first, ran⟩ := bind_eq_ok_iff.1 ran
      obtain ⟨length, -, first⟩ := bind_eq_ok_iff.1 first
      obtain ⟨dir, -, first⟩ := bind_eq_ok_iff.1 first
      cases first
      rw [ih _ _ ran, List.append_assoc, List.singleton_append]
  exact general _ [] _ ran

namespace OrderingCall

/-- The pair that a check may put into the queue. -/
def pair? : OrderingCall → Option (ℕ × ℕ)
  | .check i j _ => some (i, j)
  | .dopsOmit _ _ | .dopsInclude _ _ => none

end OrderingCall

theorem filterMap_orderingEnds (replayer : Replayer) (patch : Finset ℕ) (i : ℕ) :
    (orderingEnds replayer patch i).filterMap OrderingCall.pair? =
      ((List.range' (i + 1) (replayer.microOps.length - (i + 1))).filter
        fun j => ¬ (replayer.dopsCount j = 0 ∨ j ∈ patch)).map fun j =>
          (i, j) := by
  rw [orderingEnds]
  induction List.range' (i + 1) (replayer.microOps.length - (i + 1)) with
  | nil => rfl
  | cons j js ih =>
    rw [List.flatMap_cons, List.filterMap_append, ih]
    by_cases passed : replayer.dopsCount j = 0 ∨ j ∈ patch
    · rw [if_pos passed, List.filter_cons_of_neg (by simpa [or_iff_not_imp_left] using passed)]
      rfl
    · rw [if_neg passed, List.filter_cons_of_pos (by simpa using passed)]
      rfl

/-- The loops of the ordering phase come to every pair at most once. -/
theorem nodup_orderingCalls (replayer : Replayer) (patch : Finset ℕ) :
    ((orderingCalls replayer patch).filterMap OrderingCall.pair?).Nodup := by
  have ofOperation : ∀ i, ((if replayer.dopsCount i = 0 ∨ AtomicityPhase.Skipped patch i then
      []
    else
      (List.range (replayer.dopsCount i)).map (OrderingCall.dopsOmit i) ++
        orderingEnds replayer patch i ++ (List.range (replayer.dopsCount i)).map
            (OrderingCall.dopsInclude i)).filterMap OrderingCall.pair?).Sublist
      ((List.range' (i + 1) (replayer.microOps.length - (i + 1))).map fun j =>
        (i, j)) := by
    intro i
    split_ifs
    · exact List.nil_sublist _
    · rw [List.filterMap_append, List.filterMap_append, List.filterMap_map,
        List.filterMap_map, filterMap_orderingEnds]
      have noneOmit : OrderingCall.pair? ∘ OrderingCall.dopsOmit i = fun _ => none := rfl
      have noneInclude : OrderingCall.pair? ∘ OrderingCall.dopsInclude i = fun _ => none := rfl
      rw [noneOmit, noneInclude]
      simpa using List.filter_sublist.map _
  rw [orderingCalls, List.filterMap_flatMap, List.nodup_flatMap]
  constructor
  · intro i _
    refine (ofOperation i).nodup (List.Nodup.map ?_ List.nodup_range')
    intro first second same
    exact (Prod.mk.inj same).2
  · refine List.nodup_range.imp ?_
    intro first second different pair inFirst inSecond
    obtain ⟨_, -, rfl⟩ := List.mem_map.1 ((ofOperation first).subset inFirst)
    obtain ⟨_, -, same⟩ := List.mem_map.1 ((ofOperation second).subset inSecond)
    exact different (Prod.mk.inj same).1.symm

theorem OrderingPhase.nodup_queue {env : ExplorerEnv} {replayer : Replayer} {patch : Finset ℕ}
    {phase : OrderingPhase} (ran : OrderingPhase.enqueue env replayer patch = .ok phase) :
    phase.queue.Nodup := by
  have general : ∀ (calls : List OrderingCall) (start last : OrderingPhase),
      calls.foldlM (runCall env) start = .ok last → ∃ new, last.queue = start.queue ++ new ∧
          new.Sublist (calls.filterMap OrderingCall.pair?) := by
    intro calls
    induction calls with
    | nil =>
      intro start last ran
      cases ran
      exact ⟨[], (List.append_nil _).symm, List.Sublist.refl _⟩
    | cons call calls ih =>
      intro start last ran
      obtain ⟨next, first, ran⟩ := bind_eq_ok_iff.1 ran
      obtain ⟨new, isLast, sublist⟩ := ih next last ran
      cases call with
      | dopsOmit i k | dopsInclude i k =>
        obtain ⟨_, -, equal⟩ := map_eq_ok_iff.1 first
        exact ⟨new, by rw [isLast, ← equal], sublist⟩
      | check i j last =>
        obtain ⟨legal, -, first⟩ := bind_eq_ok_iff.1 first
        cases legal with
        | false =>
          cases first
          exact ⟨new, isLast, sublist.cons _⟩
        | true =>
          obtain ⟨_, -, first⟩ := bind_eq_ok_iff.1 first
          cases first
          refine ⟨(i, j) :: new, ?_, sublist.cons_cons _⟩
          rw [isLast, List.append_assoc, List.singleton_append]
  obtain ⟨new, isQueue, sublist⟩ := general _ _ _ ran
  rw [isQueue, List.nil_append]
  exact sublist.nodup (nodup_orderingCalls replayer patch)

namespace AtomicityPhase

/-- New states have been put into the queue, each once and all of one
kind. -/
def Adds (before after : List StateId) (kind : StateId → Prop) : Prop :=
  ∃ new, after = before ++ new ∧ new.Nodup ∧ ∀ id ∈ new, kind id

section Adds

variable {before middle after : List StateId} {kind other : StateId → Prop}

theorem Adds.refl (queue : List StateId) (kind : StateId → Prop) :
    Adds queue queue kind :=
  ⟨[], (List.append_nil queue).symm, List.nodup_nil, nofun⟩

theorem Adds.trans (first : Adds before middle kind) (second : Adds middle after other)
    (apart : ∀ id, kind id → ¬ other id) : Adds before after fun id => kind id ∨ other id := by
  obtain ⟨new, isMiddle, nodup, ofKind⟩ := first
  obtain ⟨more, isAfter, moreNodup, ofOther⟩ := second
  refine ⟨new ++ more, ?_, ?_, ?_⟩
  · rw [isAfter, isMiddle, List.append_assoc]
  · refine List.nodup_append.2 ⟨nodup, moreNodup, ?_⟩
    rintro id inNew _ inMore rfl
    exact apart id (ofKind id inNew) (ofOther id inMore)
  · intro id member
    exact (List.mem_append.1 member).imp (ofKind id) (ofOther id)

theorem Adds.weaken (adds : Adds before after kind) (weaker : ∀ id, kind id → other id) :
    Adds before after other := by
  obtain ⟨new, isAfter, nodup, ofKind⟩ := adds
  exact ⟨new, isAfter, nodup, fun id member => weaker id (ofKind id member)⟩

theorem adds_checkLater {env : ExplorerEnv} {replayer : Replayer} {id : StateId}
    (checked : checkLater env replayer before id = .ok after) : Adds before after (· = id) := by
  obtain ⟨legal, -, checked⟩ := bind_eq_ok_iff.1 checked
  cases legal with
  | false =>
    cases checked
    exact .refl _ _
  | true =>
    obtain ⟨_, -, checked⟩ := bind_eq_ok_iff.1 checked
    cases checked
    exact ⟨[id], rfl, List.nodup_singleton id, fun _ => List.mem_singleton.1⟩

end Adds

section Loops

variable {env : ExplorerEnv} {mode : CheckMode} {i j : ℕ}
  {phase after : AtomicityPhase}

theorem adds_omitLoop {ks : List ℕ} (nodup : ks.Nodup)
    (looped : omitLoop env mode i j ks phase = .ok after) : Adds phase.queue after.queue fun id =>
      ∃ k ∈ ks, id = .omitting mode i j k := by
  induction ks generalizing phase with
  | nil =>
    cases looped
    exact .refl _ _
  | cons k ks ih =>
    obtain ⟨notLater, nodup⟩ := List.nodup_cons.1 nodup
    obtain ⟨omitted, -, looped⟩ := bind_eq_ok_iff.1 looped
    obtain ⟨queue, checked, looped⟩ := bind_eq_ok_iff.1 looped
    obtain ⟨included, -, looped⟩ := bind_eq_ok_iff.1 looped
    refine ((adds_checkLater checked).trans (ih nodup looped) ?_).weaken ?_
    · rintro id isFirst ⟨later, member, isLater⟩
      rw [isFirst] at isLater
      cases isLater
      exact notLater member
    · rintro id (isFirst | ⟨later, member, isLater⟩)
      · exact ⟨k, List.mem_cons_self, isFirst⟩
      · exact ⟨later, List.mem_cons_of_mem k member, isLater⟩

theorem adds_checkEnd (checked : checkEnd env mode i j phase = .ok after) :
    Adds phase.queue after.queue (· = .whole mode i j) := by
  obtain ⟨legal, -, checked⟩ := bind_eq_ok_iff.1 checked
  cases legal with
  | false =>
    cases checked
    exact .refl _ _
  | true =>
    obtain ⟨_, -, checked⟩ := bind_eq_ok_iff.1 checked
    obtain ⟨_, -, checked⟩ := bind_eq_ok_iff.1 checked
    cases checked
    exact ⟨_, rfl, List.nodup_singleton _, fun _ => List.mem_singleton.1⟩

/-- The state belongs to this end of this operation. -/
def EndsAt (mode : CheckMode) (i j : ℕ) (id : StateId) : Prop :=
  id = .whole mode i j ∨ ∃ k, id = .omitting mode i j k

theorem EndsAt.unique {otherMode : CheckMode} {i' j' : ℕ} {id : StateId}
    (first : EndsAt mode i j id) (second : EndsAt otherMode i' j' id) :
    mode = otherMode ∧ i = i' ∧ j = j' := by
  rcases first with rfl | ⟨k, rfl⟩ <;> rcases second with same | ⟨k', same⟩ <;>
    cases same <;> exact ⟨rfl, rfl, rfl⟩

theorem adds_endLoop {js : List ℕ} (nodup : js.Nodup)
    (looped : endLoop env mode i js phase = .ok after) :
    Adds phase.queue after.queue fun id => ∃ j ∈ js, EndsAt mode i j id := by
  induction js generalizing phase with
  | nil =>
    cases looped
    exact .refl _ _
  | cons j js ih =>
    obtain ⟨notLater, nodup⟩ := List.nodup_cons.1 nodup
    obtain ⟨checked, isChecked, looped⟩ := bind_eq_ok_iff.1 looped
    obtain ⟨omitted, isOmitted, looped⟩ := bind_eq_ok_iff.1 looped
    have here : Adds phase.queue omitted.queue (EndsAt mode i j) := by
      refine ((adds_checkEnd isChecked).trans
        (adds_omitLoop List.nodup_range isOmitted) ?_).weaken ?_
      · rintro id rfl ⟨k, -, same⟩
        cases same
      · rintro id (whole | ⟨k, -, omitting⟩)
        · exact .inl whole
        · exact .inr ⟨k, omitting⟩
    refine (here.trans (ih nodup looped) ?_).weaken ?_
    · rintro id ends ⟨later, member, endsLater⟩
      exact notLater ((ends.unique endsLater).2.2 ▸ member)
    · rintro id (ends | ⟨later, member, endsLater⟩)
      · exact ⟨j, List.mem_cons_self, ends⟩
      · exact ⟨later, List.mem_cons_of_mem j member, endsLater⟩

theorem adds_microLoop {patch : Finset ℕ} {is : List ℕ} (nodup : is.Nodup)
    (looped : microLoop env mode patch is phase = .ok after) :
    Adds phase.queue after.queue fun id =>
      ∃ i ∈ is, ∃ j, EndsAt mode i j id := by
  induction is generalizing phase with
  | nil =>
    cases looped
    exact .refl _ _
  | cons i is ih =>
    obtain ⟨notLater, nodup⟩ := List.nodup_cons.1 nodup
    rw [microLoop] at looped
    split_ifs at looped
    · refine (ih nodup looped).weaken ?_
      rintro id ⟨later, member, ends⟩
      exact ⟨later, List.mem_cons_of_mem i member, ends⟩
    · obtain ⟨length, -, looped⟩ := bind_eq_ok_iff.1 looped
      obtain ⟨middle, isMiddle, looped⟩ := bind_eq_ok_iff.1 looped
      refine ((adds_endLoop List.nodup_range isMiddle).trans (ih nodup looped) ?_).weaken ?_
      · rintro id ⟨j, -, ends⟩ ⟨later, member, _, endsLater⟩
        exact notLater ((ends.unique endsLater).2.1 ▸ member)
      · rintro id (⟨j, -, ends⟩ | ⟨later, member, ends⟩)
        · exact ⟨i, List.mem_cons_self, j, ends⟩
        · exact ⟨later, List.mem_cons_of_mem i member, ends⟩

theorem adds_modeLoop {microOps : List MicroOp} {patch : Finset ℕ} {modes : List CheckMode}
    (nodup : modes.Nodup) (looped : modeLoop env microOps patch modes phase = .ok after) :
    Adds phase.queue after.queue fun id =>
      ∃ mode ∈ modes, ∃ i j, EndsAt mode i j id := by
  induction modes generalizing phase with
  | nil =>
    cases looped
    exact .refl _ _
  | cons mode modes ih =>
    obtain ⟨notLater, nodup⟩ := List.nodup_cons.1 nodup
    obtain ⟨replayer, -, looped⟩ := bind_eq_ok_iff.1 looped
    obtain ⟨middle, isMiddle, looped⟩ := bind_eq_ok_iff.1 looped
    refine ((adds_microLoop List.nodup_range isMiddle).trans (ih nodup looped) ?_).weaken ?_
    · rintro id ⟨i, -, j, ends⟩ ⟨later, member, _, _, endsLater⟩
      exact notLater ((ends.unique endsLater).1 ▸ member)
    · rintro id (⟨i, -, j, ends⟩ | ⟨later, member, ends⟩)
      · exact ⟨mode, List.mem_cons_self, i, j, ends⟩
      · exact ⟨later, List.mem_cons_of_mem mode member, ends⟩

end Loops

theorem nodup_queue {env : ExplorerEnv} {microOps : List MicroOp} {patch : Finset ℕ}
    {replayer : Replayer} {phase : AtomicityPhase}
    (ran : enqueue env microOps patch replayer = .ok phase) : phase.queue.Nodup := by
  obtain ⟨new, isQueue, nodup, -⟩ := adds_modeLoop (by decide) ran
  rw [isQueue, List.nil_append]
  exact nodup

end AtomicityPhase

/-! ## Every schedule -/

section Schedules

variable (run : CheckerRun) (scratchpadDir : String)
  (content : CrashId → Option CrashState)
  (checker : String → Option CrashState → ℤ)

theorem nodup_map_dirname {α : Type} {ids : List α} {crashId : α → CrashId} (nodup : ids.Nodup)
    (injective : Function.Injective crashId) :
    (([] ++ ids.map crashId).map (CrashId.dirname scratchpadDir)).Nodup := by
  exact (nodup.map injective).map (CrashId.dirname_injective scratchpadDir)

theorem proper_atomicityProgram (patch : Finset ℕ) : (run.atomicityProgram patch).Proper
      (checkerSetting scratchpadDir content checker) true [] := by
  unfold CheckerRun.atomicityProgram
  split
  · trivial
  · rename_i phase ran
    refine Program.proper_submitAll _ ?_ (fun _ => ?_) true
    · exact nodup_map_dirname scratchpadDir (AtomicityPhase.nodup_queue ran)
        fun _ _ same => CrashId.inside.inj same
    · trivial

theorem proper_orderingProgram (patch : Finset ℕ) : (run.orderingProgram patch).Proper
      (checkerSetting scratchpadDir content checker) true [] := by
  unfold CheckerRun.orderingProgram
  split
  · trivial
  · rename_i phase ran
    refine Program.proper_submitAll _ ?_ (fun _ => ?_) true
    · refine nodup_map_dirname scratchpadDir (OrderingPhase.nodup_queue ran) ?_
      rintro ⟨i, j⟩ ⟨i', j'⟩ same
      cases same
      rfl
    · exact ⟨rfl, proper_atomicityProgram run scratchpadDir content checker patch⟩

theorem proper_program (threads : ℕ) : (run.program threads).Proper
      (checkerSetting scratchpadDir content checker) true [] := by
  unfold CheckerRun.program
  split_ifs
  · split
    · trivial
    · rename_i queue ran
      refine Program.proper_submitAll _ ?_ (fun outputs => ?_) true
      · refine nodup_map_dirname scratchpadDir ?_ fun _ _ same => CrashId.after.inj same
        rw [acrossQueue_eq ran]
        exact List.nodup_range
      · split
        · trivial
        · exact ⟨rfl, proper_orderingProgram run scratchpadDir content checker _⟩
  · trivial

end Schedules

/-- In every state that the threads of `default_checks` can reach: if the main
thread waits and nothing is unfinished, it gets the exit code of every state
that was put into the queue since the last reset, and nothing else; no two of
these states share a directory; and the run can go on until the main thread
has ended, but not forever. -/
theorem verdicts_of_any_schedule
    {run : CheckerRun} {scratchpadDir : String}
    {content : CrashId → Option CrashState}
    {checker : String → Option CrashState → ℤ} {threads : ℕ}
    {places : String → Option CrashState}
    {state : State CrashId String (Option CrashState) ℤ threads}
    (reached : ReflTransGen
      (Step (checkerSetting scratchpadDir content checker))
      (State.start threads (run.program threads) places) state) :
    (∀ next, state.main = .wait next → state.unfinished = 0 → ∀ id,
      state.results id =
        if id ∈ state.submitted then
          some (checker (id.dirname scratchpadDir) (content id))
        else
          none) ∧
    (state.submitted.map (CrashId.dirname scratchpadDir)).Nodup ∧
    ((∃ after, Step (checkerSetting scratchpadDir content checker)
        state after) ∨ state.main = .done ∨ state.main = .failed) ∧
    Acc (fun after before =>
      Step (checkerSetting scratchpadDir content checker) before after)
      state := by
  have invariant := invariant_of_reached
    (proper_program run scratchpadDir content checker threads) reached
  refine ⟨fun next _ finished => invariant.results_of_unfinished finished,
    invariant.nodup, ?_, wellFounded_step.apply state⟩
  rcases Nat.eq_zero_or_pos threads with noThread | someThread
  · have failed : run.program threads = .failed := by
      rw [CheckerRun.program, noThread]
      rfl
    exact .inr (.inr (main_of_reached_failed reached failed))
  · exact invariant.exists_step_or_ended someThread

/-- One byte of a file is overwritten. -/
def oneByteWrite : List MicroOp :=
  [⟨.write ⟨7, 0, 1, "dump", 0⟩, .pwrite⟩]

theorem verdicts_of_any_schedule_oneByteWrite :
    ∃ replayer,
      Replayer.setFs .asWritten (CheckMode.count1.fs .unrounded)
        (logSnapshot [1]) oneByteWrite 0 0 = .ok replayer ∧
      ∃ state : State CrashId String (Option CrashState) ℤ 1,
        ReflTransGen (Step (checkerSetting "/tmp" (fun _ => none) fun _ _ => 3))
          (State.start 1 (CheckerRun.program
            ⟨fourWritesEnv, oneByteWrite, replayer⟩ 1) fun _ => none) state ∧
        (∃ next, state.main = .wait next) ∧ state.unfinished = 0 ∧
        state.submitted = [.after 0] ∧ state.results (.after 0) = some 3 := by
  have run : ∃ replayer, Replayer.setFs .asWritten (CheckMode.count1.fs .unrounded)
        (logSnapshot [1]) oneByteWrite 0 0 = .ok replayer ∧
      ∃ state : State CrashId String (Option CrashState) ℤ 1,
        ReflTransGen (Step (checkerSetting "/tmp" (fun _ => none) fun _ _ => 3))
          (State.start 1 (CheckerRun.program
            ⟨fourWritesEnv, oneByteWrite, replayer⟩ 1) fun _ => none) state ∧
        (∃ next, state.main = .wait next) ∧ state.unfinished = 0 ∧ state.submitted = [.after 0] :=
    ⟨_, rfl, _, .head (.prepare rfl rfl) <| .head (.put rfl rfl) <|
      .head (.get 0 rfl rfl) <| .head (.exit 0 none rfl) <|
      .head (.store 0 rfl) <| .head (.clear 0 rfl) <|
      .single (.taskDone 0 rfl rfl), ⟨_, rfl⟩, rfl, rfl⟩
  obtain ⟨replayer, made, state, reached, ⟨next, main⟩, finished, submitted⟩ := run
  refine ⟨replayer, made, state, reached, ⟨next, main⟩, finished, submitted, ?_⟩
  rw [(verdicts_of_any_schedule reached).1 next main finished, submitted]
  rfl

end Alice
