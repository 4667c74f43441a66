import Alice.Replay.Cache
import Alice.Utf8

/-! # The text of `stdout_file`

The data of every `stdout` row is decoded on its own.  A character whose bytes
were written by two calls is in two rows, none of which can be decoded. -/

namespace Alice

open Checked

open Posix (Bytes)

def DiskOp.printedData : DiskOp → Bytes
  | .stdout data => data
  | _ => []

def stdoutData (rows : List DiskOp) : Bytes :=
  rows.flatMap DiskOp.printedData

def DiskOp.silenced : DiskOp → DiskOp
  | .stdout _ => .stdout []
  | op => op

/-- The data of every row can be decoded on its own. -/
def SeparatelyValid (rows : List DiskOp) : Prop :=
  ∀ data, .stdout data ∈ rows → Utf8.Valid data

@[simp]
theorem separatelyValid_nil : SeparatelyValid [] := by
  simp [SeparatelyValid]

theorem separatelyValid_cons_iff {op : DiskOp} {rest : List DiskOp} : SeparatelyValid (op :: rest) ↔
      (∀ data, op = .stdout data → Utf8.Valid data) ∧
        SeparatelyValid rest := by
  simp only [SeparatelyValid, List.mem_cons]
  constructor
  · intro valid
    exact ⟨fun data equal => valid data (Or.inl equal.symm),
      fun data member => valid data (Or.inr member)⟩
  · rintro ⟨first, others⟩ data (equal | member)
    · exact first data equal.symm
    · exact others data member

theorem separatelyValid_append_iff {front back : List DiskOp} : SeparatelyValid (front ++ back) ↔
      SeparatelyValid front ∧ SeparatelyValid back := by
  simp only [SeparatelyValid, List.mem_append, or_imp, forall_and]

theorem stdoutData_eq_nil_iff {rows : List DiskOp} :
    stdoutData rows = [] ↔ ReplayState.PrintsNothing rows := by
  rw [stdoutData, List.flatMap_eq_nil_iff]
  constructor
  · intro nothing data member
    exact nothing _ member
  · intro nothing op member
    cases op with
    | stdout data => exact nothing data member
    | _ => rfl

theorem separatelyValid_of_printsNothing {rows : List DiskOp}
    (nothing : ReplayState.PrintsNothing rows) :
    SeparatelyValid rows := by
  intro data member
  rw [nothing data member]
  exact ⟨[], rfl⟩

namespace ReplayState

variable {env : ReplayEnv}

theorem decodeUtf8_eq_ok_iff {data : Bytes} {text : String} :
    decodeUtf8 data = .ok text ↔ Utf8.encode text.toList = data := by
  have bytes : text.toByteArray = (Utf8.encode text.toList).toByteArray := by
    rw [← String.utf8Encode_toList]
    rfl
  have whole : (⟨data.toArray⟩ : ByteArray) = data.toByteArray :=
    ByteArray.ext List.data_toByteArray.symm
  unfold decodeUtf8
  rw [whole]
  constructor
  · intro decoded
    unfold String.fromUTF8? at decoded
    split_ifs at decoded with valid
    · have same := congrArg String.toByteArray (Except.ok.inj decoded)
      rw [bytes] at same
      exact (List.toByteArray_inj.1 same).symm
  · intro encoded
    rw [encoded] at bytes
    unfold String.fromUTF8?
    rw [← bytes, dif_pos text.isValidUTF8]
    rfl

theorem exists_decodeUtf8_iff {data : Bytes} :
    (∃ text, decodeUtf8 data = .ok text) ↔ Utf8.Valid data := by
  simp only [decodeUtf8_eq_ok_iff, Utf8.Valid]
  constructor
  · rintro ⟨text, encoded⟩
    exact ⟨text.toList, encoded⟩
  · rintro ⟨text, encoded⟩
    exact ⟨String.ofList text, by rwa [String.toList_ofList]⟩

/-- Whether a replay returns does not depend on the text before it. -/
theorem returns_withStdout_iff
    (i : ℕ) (state : ReplayState) (text : String) (rows : List DiskOp) :
    (∃ final, (state.withStdout text).replayFrom env i rows = .ok final) ↔
      ∃ final, state.replayFrom env i rows = .ok final := by
  have general : ∀ text, (∃ final, (state.withStdout text).replayFrom env i rows = .ok final) ↔
      ∃ final, (state.withStdout "").replayFrom env i rows = .ok final := by
    intro text
    simp only [replayFrom_withStdout env rows i state text, map_eq_ok_iff]
    constructor
    · rintro ⟨_, final, ran, _⟩
      exact ⟨final, ran⟩
    · rintro ⟨final, ran⟩
      exact ⟨_, final, ran, rfl⟩
  rw [general text, ← general state.stdout, withStdout_self]

/-- If the other rows raise nothing, the replay returns exactly if the data
of each row can be decoded. -/
theorem returns_iff_separatelyValid {rows : List DiskOp} : ∀ {i : ℕ} {state : ReplayState},
      (∃ final, state.replayFrom env i (rows.map DiskOp.silenced) = .ok final) →
      ((∃ final, state.replayFrom env i rows = .ok final) ↔ SeparatelyValid rows) := by
  induction rows with
  | nil =>
    simp [replayFrom]
  | cons op rest ih =>
    intro i state others
    rw [separatelyValid_cons_iff]
    by_cases silent : ∀ data, op ≠ .stdout data
    · have same : op.silenced = op := by cases op <;> first | rfl | exact absurd rfl (silent _)
      obtain ⟨final, others⟩ := others
      rw [List.map_cons, same] at others
      obtain ⟨next, first, others⟩ := bind_eq_ok_iff.1 others
      have step : state.replayFrom env i (op :: rest) = next.replayFrom env (i + 1) rest := by
        rw [replayFrom, first]
        rfl
      rw [step, ih ⟨final, others⟩]
      exact ⟨fun valid => ⟨fun data equal => absurd equal (silent data), valid⟩, And.right⟩
    · push Not at silent
      obtain ⟨data, rfl⟩ := silent
      have later : ∃ final, state.replayFrom env (i + 1)
          (rest.map DiskOp.silenced) = .ok final := by
        rw [← returns_withStdout_iff (i + 1) state (state.stdout ++ "")]
        exact others
      have lateText (text : String) :=
        @returns_withStdout_iff env (i + 1) state (state.stdout ++ text) rest
      constructor
      · rintro ⟨final, ran⟩
        obtain ⟨next, first, ran⟩ := bind_eq_ok_iff.1 ran
        obtain ⟨text, decoded, first⟩ := bind_eq_ok_iff.1 first
        obtain rfl := pure_eq_ok_iff.1 first
        refine ⟨?_, (ih later).1 ((lateText text).1 ⟨final, ran⟩)⟩
        intro other equal
        cases equal
        exact exists_decodeUtf8_iff.1 ⟨text, decoded⟩
      · rintro ⟨valid, validRest⟩
        obtain ⟨text, decoded⟩ := exists_decodeUtf8_iff.2 (valid data rfl)
        obtain ⟨final, ran⟩ := (lateText text).2 ((ih later).2 validRest)
        refine ⟨final, ?_⟩
        rw [replayFrom, replayRow, decoded]
        exact ran

theorem encode_printed {rows : List DiskOp} (valid : SeparatelyValid rows) :
    Utf8.encode (printed rows).toList = stdoutData rows := by
  induction rows with
  | nil => rfl
  | cons op rest ih =>
    rw [separatelyValid_cons_iff] at valid
    have here : Utf8.encode (printedBy op).toList = op.printedData := by
      cases op with
      | stdout data =>
        obtain ⟨text, decoded⟩ := exists_decodeUtf8_iff.2 (valid.1 data rfl)
        simp only [printedBy, decoded, Except.toOption, Option.getD_some]
        exact decodeUtf8_eq_ok_iff.1 decoded
      | _ => rfl
    have split : printed (op :: rest) = printedBy op ++ printed rest := rfl
    rw [split, String.toList_append, Utf8.encode_append, here, ih valid.2]
    rfl

theorem returns_with_iff
    {rows : List DiskOp} {state : ReplayState} {bytes : Bytes} (noText : state.stdout = "")
    (others : ∃ final, state.replayFrom env 0 (rows.map DiskOp.silenced) = .ok final) :
    (∃ final, state.replayFrom env 0 rows = .ok final ∧ Utf8.encode final.stdout.toList = bytes) ↔
      SeparatelyValid rows ∧ stdoutData rows = bytes := by
  have returns := returns_iff_separatelyValid others
  have shown : ∀ final, state.replayFrom env 0 rows = .ok final →
      Utf8.encode final.stdout.toList = stdoutData rows := by
    intro final ran
    rw [replayFrom_stdout ran, noText, String.empty_append]
    exact encode_printed (returns.1 ⟨final, ran⟩)
  constructor
  · rintro ⟨final, ran, equal⟩
    exact ⟨returns.1 ⟨final, ran⟩, (shown final ran).symm.trans equal⟩
  · rintro ⟨valid, equal⟩
    obtain ⟨final, ran⟩ := returns.2 valid
    exact ⟨final, ran, (shown final ran).trans equal⟩

end ReplayState

/-! ## Calls -/

theorem DiskOp.printedData_eq_of_structEq {self other : DiskOp}
    (equal : self.structEq other = true) : self.printedData = other.printedData := by
  unfold structEq at equal
  split at equal
  · rfl
  · rw [of_decide_eq_true equal]

section

variable {η : Type} {hiddenEq : η → η → Bool}

theorem stdoutData_eq_of_isEqv {left right : List (Row η)}
    (equal : left.isEqv right (Row.structEq hiddenEq) = true) :
    stdoutData (left.map Row.op) = stdoutData (right.map Row.op) := by
  induction left generalizing right with
  | nil =>
    cases right with
    | nil => rfl
    | cons _ _ => simp [List.isEqv] at equal
  | cons first rest ih =>
    cases right with
    | nil => simp [List.isEqv] at equal
    | cons first' rest' =>
      rw [List.isEqv, Bool.and_eq_true, Row.structEq, Bool.and_eq_true] at equal
      have here := DiskOp.printedData_eq_of_structEq equal.1.1
      have later := ih equal.2
      simp only [stdoutData, List.map_cons, List.flatMap_cons] at later ⊢
      rw [here, later]

/-- The data of a call whose rows begin with the cached ones. -/
theorem Hit.stdoutData_eq {front rows : List (Row η)} (hit : Hit hiddenEq front rows) :
    stdoutData (rows.map Row.op) = stdoutData (front.map Row.op) ++
        stdoutData ((rows.drop front.length).map Row.op) := by
  rw [← stdoutData_eq_of_isEqv hit.2.2, stdoutData, stdoutData, stdoutData,
    ← List.flatMap_append, ← List.map_append, List.take_append_drop]

end

section

variable {η : Type} (hiddenEq : η → η → Bool) (env : ReplayEnv)
  (snapshot : Snapshot) (useCached : Bool) (cache : Option (ReplayCache η))
  (rows : List (Row η))

/-- Without `use_cached` there is no cache. -/
def usedCache : Option (ReplayCache η) :=
  if useCached then cache else none

/-- What a call of `replay_disk_ops` leaves behind. -/
def replayCall : Except PyError CrashState :=
  if useCached then
    (replayDiskOpsCached hiddenEq env snapshot cache rows).map Prod.snd
  else
    replayDiskOps env snapshot (rows.map Row.op)

/-- The call returns if nothing is printed: no row of another kind raises. -/
def OthersReturn : Prop :=
  match (usedCache useCached cache).filter fun cache =>
      Hit hiddenEq cache.rows rows with
  | some cache =>
      ∃ final, (cache.state.withStdout "").replayFrom env 0
        (((rows.drop cache.rows.length).map Row.op).map DiskOp.silenced) =
          .ok final
  | none =>
      ∃ final, replayFresh env snapshot ((rows.map Row.op).map DiskOp.silenced) = .ok final

/-- If the recorded data put together is the encoding of a text, the call
returns and leaves this text in `stdout_file`. -/
def StdoutConcatenated : Prop :=
  Utf8.Valid (stdoutData (rows.map Row.op)) →
    ∃ crash, replayCall hiddenEq env snapshot useCached cache rows =
        .ok crash ∧
      Utf8.encode crash.stdout.toList = stdoutData (rows.map Row.op)

theorem replayCall_eq : replayCall hiddenEq env snapshot useCached cache rows =
      (replayDiskOpsCached hiddenEq env snapshot (usedCache useCached cache)
        rows).map Prod.snd := by
  cases useCached with
  | true => rfl
  | false =>
    have miss : ∀ stored, (none : Option (ReplayCache η)) = some stored →
        ¬ Hit hiddenEq stored.rows rows := by
      intro stored absent
      cases absent
    have noCache : usedCache false cache = none := rfl
    rw [noCache, replayDiskOpsCached_of_miss miss, replayCall,
      if_neg Bool.false_ne_true, replayDiskOps_eq_map]
    cases replayFresh env snapshot (rows.map Row.op) <;> rfl

variable {hiddenEq env snapshot useCached cache rows}

theorem returns_with_iff_of_hit {stored : ReplayCache η}
    (used : usedCache useCached cache = some stored) (hit : Hit hiddenEq stored.rows rows)
    (others : OthersReturn hiddenEq env snapshot useCached cache rows) :
    (∃ crash, replayCall hiddenEq env snapshot useCached cache rows = .ok crash ∧
        Utf8.encode crash.stdout.toList = stdoutData (rows.map Row.op)) ↔
      SeparatelyValid ((rows.drop stored.rows.length).map Row.op) ∧
        ReplayState.PrintsNothing (stored.rows.map Row.op) := by
  rw [OthersReturn, used, Option.filter_some, if_pos (decide_eq_true hit)] at others
  have loop := @ReplayState.returns_with_iff env _ _
    (stdoutData (rows.map Row.op)) (ReplayState.withStdout_stdout _ _) others
  have lost : stdoutData ((rows.drop stored.rows.length).map Row.op) =
      stdoutData (rows.map Row.op) ↔ ReplayState.PrintsNothing (stored.rows.map Row.op) := by
    rw [hit.stdoutData_eq, ← stdoutData_eq_nil_iff, List.self_eq_append_left]
  rw [lost] at loop
  rw [← loop, replayCall_eq, used, replayDiskOpsCached_of_hit hit]
  simp only [map_eq_ok_iff]
  constructor
  · rintro ⟨_, ⟨_, ⟨final, ran, rfl⟩, rfl⟩, shown⟩
    exact ⟨final, ran, shown⟩
  · rintro ⟨final, ran, shown⟩
    exact ⟨_, ⟨_, ⟨final, ran, rfl⟩, rfl⟩, shown⟩

theorem returns_with_iff_of_miss
    (miss : ∀ stored, usedCache useCached cache = some stored → ¬ Hit hiddenEq stored.rows rows)
    (others : OthersReturn hiddenEq env snapshot useCached cache rows) :
    (∃ crash, replayCall hiddenEq env snapshot useCached cache rows = .ok crash ∧
        Utf8.encode crash.stdout.toList = stdoutData (rows.map Row.op)) ↔
      SeparatelyValid (rows.map Row.op) := by
  have unused : ((usedCache useCached cache).filter fun cache =>
      Hit hiddenEq cache.rows rows) = none := by
    rw [Option.filter_eq_none_iff]
    intro stored present hit
    exact miss stored present (of_decide_eq_true hit)
  rw [OthersReturn, unused] at others
  obtain ⟨final, others⟩ := others
  obtain ⟨start, made, others⟩ := bind_eq_ok_iff.1 others
  have loop := @ReplayState.returns_with_iff env _ _
    (stdoutData (rows.map Row.op)) (initializeInodeLinks_stdout made) ⟨final, others⟩
  rw [eq_self, and_true] at loop
  rw [← loop, replayCall_eq, replayDiskOpsCached_of_miss miss, replayFresh, made, ok_bind]
  simp only [map_eq_ok_iff]
  constructor
  · rintro ⟨_, ⟨_, ⟨final, ran, rfl⟩, rfl⟩, shown⟩
    exact ⟨final, ran, shown⟩
  · rintro ⟨final, ran, shown⟩
    exact ⟨_, ⟨_, ⟨final, ran, rfl⟩, rfl⟩, shown⟩

end

/-- The text is the recorded data exactly if every row can be decoded on its
own and no text is lost in the cache. -/
theorem stdout_concatenated_iff
    {η : Type} (hiddenEq : η → η → Bool) (env : ReplayEnv)
    (snapshot : Snapshot) (useCached : Bool)
    (cache : Option (ReplayCache η)) (rows : List (Row η))
    (others : OthersReturn hiddenEq env snapshot useCached cache rows) :
    StdoutConcatenated hiddenEq env snapshot useCached cache rows ↔
      (Utf8.Valid (stdoutData (rows.map Row.op)) →
        SeparatelyValid (rows.map Row.op) ∧
          ¬ LosesText hiddenEq
            ((usedCache useCached cache).map ReplayCache.rows) rows) := by
  refine imp_congr_right fun _ => ?_
  rcases hit_or_miss hiddenEq (usedCache useCached cache) rows with
    ⟨stored, used, hit⟩ | miss
  · rw [returns_with_iff_of_hit used hit others, used]
    have divided : SeparatelyValid (rows.map Row.op) ↔
        SeparatelyValid ((rows.take stored.rows.length).map Row.op) ∧
          SeparatelyValid ((rows.drop stored.rows.length).map Row.op) := by
      rw [← separatelyValid_append_iff, ← List.map_append, List.take_append_drop]
    have kept : ¬ LosesText hiddenEq (some stored.rows) rows ↔
        ReplayState.PrintsNothing (stored.rows.map Row.op) := by
      constructor
      · intro keeps
        by_contra prints
        exact keeps ⟨stored.rows, rfl, hit, prints⟩
      · rintro nothing ⟨front, present, _, prints⟩
        cases present
        exact prints nothing
    rw [Option.map_some, kept, divided]
    constructor
    · rintro ⟨valid, nothing⟩
      refine ⟨⟨separatelyValid_of_printsNothing ?_, valid⟩, nothing⟩
      rw [← stdoutData_eq_nil_iff, stdoutData_eq_of_isEqv hit.2.2, stdoutData_eq_nil_iff]
      exact nothing
    · rintro ⟨⟨_, valid⟩, nothing⟩
      exact ⟨valid, nothing⟩
  · rw [returns_with_iff_of_miss miss others]
    refine (and_iff_left ?_).symm
    rintro ⟨front, present, hit, _⟩
    obtain ⟨stored, used, rfl⟩ := Option.map_eq_some_iff.1 present
    exact miss stored used hit

/-- A letter of two bytes that one row prints. -/
theorem stdout_concatenated_iff_undivided :
    StdoutConcatenated (fun _ _ => true) ⟨fun _ => none, fun _ _ => 0⟩
        (logSnapshot [1]) false none [⟨.stdout [0xC3, 0xA9], ()⟩] ↔
      (Utf8.Valid (stdoutData [.stdout [0xC3, 0xA9]]) →
        SeparatelyValid [.stdout [0xC3, 0xA9]] ∧
          ¬ LosesText (fun _ _ => true) none
            [⟨.stdout [0xC3, 0xA9], ()⟩]) :=
  stdout_concatenated_iff (fun _ _ => true) ⟨fun _ => none, fun _ _ => 0⟩
    (logSnapshot [1]) false none [⟨.stdout [0xC3, 0xA9], ()⟩] ⟨_, rfl⟩

/-- The same letter, divided between two rows. -/
theorem divided_letter_not_decoded :
    Utf8.Valid (stdoutData [.stdout [0xC3], .stdout [0xA9]]) ∧
      replayDiskOps ⟨fun _ => none, fun _ _ => 0⟩ (logSnapshot [1])
          [.stdout [0xC3], .stdout [0xA9]] = .error .valueError ∧
      ¬ StdoutConcatenated (fun _ _ => true) ⟨fun _ => none, fun _ _ => 0⟩
        (logSnapshot [1]) false none
        [⟨.stdout [0xC3], ()⟩, ⟨.stdout [0xA9], ()⟩] := by
  have letter : Utf8.Valid (stdoutData [.stdout [0xC3], .stdout [0xA9]]) := ⟨['é'], by decide⟩
  refine ⟨letter, rfl, ?_⟩
  intro concatenated
  obtain ⟨crash, returned, _⟩ := concatenated letter
  cases returned

end Alice
