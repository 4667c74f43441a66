import Alice.Parser.TraceFiles

/-! # The order of the rows

The rows of all files are sorted by the time of day.  The sort is stable and
tells microseconds apart, so the rows of a file stay in order as long as the
time does not go back, which it does at midnight. -/

namespace Alice

open Checked

/-! ## Stamps -/

/-- A time of day, as `printleader` prints it. -/
structure Stamp where
  hour : Fin 24
  minute : Fin 60
  second : Fin 60
  microsecond : Fin 1000000
  deriving DecidableEq, Repr

/-- The last digits of a number, with zeros in front. -/
def paddedDigits : ℕ → ℕ → Text
  | 0, _ => []
  | width + 1, number =>
      paddedDigits width (number / 10) ++ [Nat.digitChar (number % 10)]

namespace Stamp

/-- `%T.%06ld`. -/
def text (stamp : Stamp) : Text :=
  paddedDigits 2 stamp.hour ++ ':' :: (paddedDigits 2 stamp.minute ++
    ':' :: (paddedDigits 2 stamp.second ++
      '.' :: paddedDigits 6 stamp.microsecond))

def micros (stamp : Stamp) : ℕ :=
  ((stamp.hour * 60 + stamp.minute) * 60 + stamp.second) * 1000000 + stamp.microsecond

/-- The time as `parse_line` computes it. -/
def time (stamp : Stamp) : ℚ :=
  Binary64.add
    (Binary64.add
      (Binary64.mul (Binary64.mul (stamp.hour : ℕ) 60) 60)
      (Binary64.mul (stamp.minute : ℕ) 60))
    (Binary64.rounded
      (((stamp.second * 1000000 + stamp.microsecond : ℕ) : ℚ) / 10 ^ 6))

end Stamp

theorem isDigit_of_mem_paddedDigits {width number : ℕ} {char : Char}
    (member : char ∈ paddedDigits width number) : char.isDigit = true := by
  induction width generalizing number with
  | zero => cases member
  | succ width ih =>
    rcases List.mem_append.1 member with front | last
    · exact ih front
    · rw [List.mem_singleton.1 last, Nat.isDigit_digitChar, decide_eq_true_eq]
      exact Nat.mod_lt _ (by decide)

theorem length_paddedDigits (width number : ℕ) : (paddedDigits width number).length = width := by
  induction width generalizing number with
  | zero => rfl
  | succ width ih =>
    rw [paddedDigits, List.length_append, ih]
    rfl

theorem ofDigitChars_paddedDigits (width number start : ℕ) :
    Nat.ofDigitChars 10 (paddedDigits width number) start =
      start * 10 ^ width + number % 10 ^ width := by
  induction width generalizing number with
  | zero => simp [paddedDigits, Nat.mod_one]
  | succ width ih =>
    rw [paddedDigits, Nat.ofDigitChars_append, ih, Nat.ofDigitChars_cons, Nat.ofDigitChars_nil,
      Nat.toNat_digitChar_of_lt_ten (Nat.mod_lt _ (by decide)), Nat.pow_succ', Nat.mod_mul]
    change 10 * _ + (48 + number % 10 - 48) = _
    rw [Nat.add_sub_cancel_left]
    ring

namespace Stamp

variable (stamp : Stamp)

variable {char : Char} {first second : Stamp}

theorem isStampChar_of_isDigit (digit : char.isDigit = true) : isStampChar char = true := by
  simp [isStampChar, digit]

theorem isStampChar_of_mem (member : char ∈ stamp.text) : isStampChar char = true := by
  simp only [text, List.mem_append, List.mem_cons] at member
  rcases member with digit | colon | digit | colon | digit | point | digit
  · exact isStampChar_of_isDigit (isDigit_of_mem_paddedDigits digit)
  · rw [colon]
    rfl
  · exact isStampChar_of_isDigit (isDigit_of_mem_paddedDigits digit)
  · rw [colon]
    rfl
  · exact isStampChar_of_isDigit (isDigit_of_mem_paddedDigits digit)
  · rw [point]
    rfl
  · exact isStampChar_of_isDigit (isDigit_of_mem_paddedDigits digit)

theorem not_mem_paddedDigits (other : char.isDigit = false) (width number : ℕ) :
    char ∉ paddedDigits width number := by
  intro member
  rw [isDigit_of_mem_paddedDigits member] at other
  cases other

theorem parseInt_paddedDigits
    {width number : ℕ} (positive : 0 < width) (small : number < 10 ^ width) :
    parseInt (paddedDigits width number) = .ok number := by
  have nonempty : paddedDigits width number ≠ [] := by
    rw [← List.length_pos_iff, length_paddedDigits]
    exact positive
  rw [parseInt, digitsValue_of_isDigit nonempty fun _ member =>
    isDigit_of_mem_paddedDigits member, ofDigitChars_paddedDigits,
    Nat.mod_eq_of_lt small, Nat.zero_mul, Nat.zero_add]

theorem parseFloat_seconds : parseFloat (paddedDigits 2 stamp.second ++
        '.' :: paddedDigits 6 stamp.microsecond) = .ok (Binary64.rounded
        (((stamp.second * 1000000 + stamp.microsecond : ℕ) : ℚ) / 10 ^ 6)) := by
  have parts : (paddedDigits 2 stamp.second ++
        '.' :: paddedDigits 6 stamp.microsecond).splitOn '.' =
      [paddedDigits 2 stamp.second, paddedDigits 6 stamp.microsecond] := by
    have split := @List.splitOn_intercalate Char [paddedDigits 2 stamp.second, paddedDigits 6
      stamp.microsecond] _ _ '.' (by simp [not_mem_paddedDigits]) (by simp)
    simpa [List.intercalate] using split
  have digits : digitsValue 10 (paddedDigits 2 stamp.second ++ paddedDigits 6 stamp.microsecond) =
      some (stamp.second * 1000000 + stamp.microsecond : ℕ) := by
    rw [digitsValue_of_isDigit (by simp [paddedDigits])]
    · rw [Nat.ofDigitChars_append, ofDigitChars_paddedDigits,
        ofDigitChars_paddedDigits, Nat.mod_eq_of_lt (by omega), Nat.mod_eq_of_lt (by omega)]
      simp
    · intro char member
      rcases List.mem_append.1 member with front | back
      · exact isDigit_of_mem_paddedDigits front
      · exact isDigit_of_mem_paddedDigits back
  rw [parseFloat]
  simp only [parts, digits, Option.map_some, length_paddedDigits]

theorem parseTime_text : parseTime stamp.text = .ok stamp.time := by
  have parts : stamp.text.splitOn ':' = [paddedDigits 2 stamp.hour, paddedDigits 2 stamp.minute,
        paddedDigits 2 stamp.second ++ '.' :: paddedDigits 6 stamp.microsecond] := by
    have split := @List.splitOn_intercalate Char [paddedDigits 2 stamp.hour, paddedDigits 2
      stamp.minute, paddedDigits 2 stamp.second ++ '.' :: paddedDigits 6 stamp.microsecond] _ _ ':'
      (by simp [not_mem_paddedDigits]) (by simp)
    simpa [List.intercalate, text] using split
  have hours := @parseInt_paddedDigits 2 stamp.hour (by decide) (by omega)
  have minutes := @parseInt_paddedDigits 2 stamp.minute (by decide) (by omega)
  simp only [parseTime, parts, itemAt, List.getElem?_cons_zero,
    List.getElem?_cons_succ, hours, minutes, stamp.parseFloat_seconds, ok_bind]
  rfl

/-! ## The computed time -/

theorem time_eq : stamp.time = Binary64.rounded
      (((stamp.hour * 60 + stamp.minute : ℕ) * 60 : ℕ) + Binary64.rounded
          (((stamp.second * 1000000 + stamp.microsecond : ℕ) : ℚ) / 10 ^ 6)) := by
  have exact60 : ∀ number : ℕ, number < 10000 →
      Binary64.mul (number : ℚ) 60 = (number * 60 : ℕ) := by
    intro number small
    rw [Binary64.mul, ← Nat.cast_ofNat, ← Nat.cast_mul, Binary64.rounded_natCast (by omega)]
  have exactSum : ∀ first second : ℕ, first + second < 1000000 →
      Binary64.add (first : ℚ) (second : ℚ) = (first + second : ℕ) := by
    intro first second small
    rw [Binary64.add, ← Nat.cast_add, Binary64.rounded_natCast (by omega)]
  rw [time, exact60 stamp.hour (by omega), exact60 (stamp.hour * 60) (by omega),
    exact60 stamp.minute (by omega), exactSum _ _ (by omega), Binary64.add, Nat.add_mul]

/-- The computed time is exact to a small part of a microsecond. -/
theorem abs_time_sub_le :
    |stamp.time - (stamp.micros : ℚ) / 10 ^ 6| ≤ 1 / 2 ^ 36 := by
  obtain ⟨whole, isWhole⟩ : ∃ whole : ℕ,
      whole = (stamp.hour * 60 + stamp.minute : ℕ) * 60 := ⟨_, rfl⟩
  obtain ⟨part, isPart⟩ : ∃ part : ℕ, part = stamp.second * 1000000 + stamp.microsecond := ⟨_, rfl⟩
  have wholeBound : whole ≤ 86340 := by omega
  have partBound : part < 60000000 := by omega
  have exact : (stamp.micros : ℚ) / 10 ^ 6 = whole + (part : ℚ) / 10 ^ 6 := by
    have sum : stamp.micros = whole * 1000000 + part := by
      rw [micros, isWhole, isPart]
      ring
    rw [sum]
    push_cast
    ring
  have wholeRat : (whole : ℚ) ≤ 86340 := by exact_mod_cast wholeBound
  have partRat : (part : ℚ) < 60000000 := by exact_mod_cast partBound
  have first := @Binary64.abs_rounded_sub_le_of_lt ((part : ℚ) / 10 ^ 6) 5 (by
    rw [abs_of_nonneg (by positivity)]
    linarith)
  rw [abs_le] at first
  obtain ⟨seconds, isSeconds⟩ : ∃ seconds : ℚ,
      seconds = Binary64.rounded ((part : ℚ) / 10 ^ 6) := ⟨_, rfl⟩
  have second := @Binary64.abs_rounded_sub_le_of_lt (whole + seconds) 16 (by
    rw [abs_lt]
    norm_num
    constructor <;> linarith)
  rw [abs_le] at second
  norm_num at second
  rw [time_eq, ← isWhole, ← isPart, ← isSeconds, exact, abs_le]
  constructor <;> linarith

theorem time_lt_time_of_micros_lt (before : first.micros < second.micros) :
    first.time < second.time := by
  obtain ⟨-, firstHigh⟩ := abs_le.1 first.abs_time_sub_le
  obtain ⟨secondLow, -⟩ := abs_le.1 second.abs_time_sub_le
  have apart : (first.micros : ℚ) + 1 ≤ second.micros := by exact_mod_cast before
  linarith

theorem eq_of_micros_eq (same : first.micros = second.micros) : first = second := by
  obtain ⟨hour, minute, second', microsecond⟩ := first
  obtain ⟨otherHour, otherMinute, otherSecond, otherMicrosecond⟩ := second
  simp only [micros] at same
  simp only [mk.injEq, Fin.ext_iff]
  omega

theorem time_le_time_iff : first.time ≤ second.time ↔ first.micros ≤ second.micros := by
  constructor
  · intro ordered
    by_contra after
    exact absurd (time_lt_time_of_micros_lt (not_le.1 after)) (not_lt.2 ordered)
  · intro ordered
    rcases ordered.lt_or_eq with before | same
    · exact (time_lt_time_of_micros_lt before).le
    · rw [eq_of_micros_eq same]

end Stamp

/-! ## Files -/

/-- A line as the tracer prints it, with whatever follows the stamp. -/
structure StampedLine where
  stamp : Stamp
  rest : Text

namespace StampedLine

def text (line : StampedLine) : Text :=
  line.stamp.text ++ ' ' :: line.rest

def kept (innocentSyscalls : List Text) (line : StampedLine) : Bool :=
  match parseLine line.text with
  | .ok (some parsed) =>
      !isInnocent innocentSyscalls (equivalentSyscall parsed.syscall)
  | _ => false

end StampedLine

/-- A trace file whose lines are in the order in which they were printed. -/
structure StampedFile where
  pid : ℤ
  dumpFile : Text
  lines : List StampedLine

namespace StampedFile

def traceFile (file : StampedFile) : TraceFile :=
  ⟨file.pid, file.dumpFile, file.lines.map StampedLine.text⟩

def keptStamps (innocentSyscalls : List Text) (file : StampedFile) : List Stamp :=
  (file.lines.filter (StampedLine.kept innocentSyscalls)).map StampedLine.stamp

end StampedFile

theorem ofText_append {time : Text} (nonempty : time ≠ [])
    (isTime : ∀ char ∈ time, isStampChar char = true) (rest : Text) :
    LineGroups.ofText (time ++ ' ' :: rest) = callGroups? time rest := by
  have front : (time ++ ' ' :: rest).takeWhile isStampChar = time := by
    rw [List.takeWhile_append_of_pos isTime]
    exact List.append_nil _
  have back : (time ++ ' ' :: rest).dropWhile isStampChar = ' ' :: rest := by
    rw [List.dropWhile_append_of_pos isTime]
    rfl
  obtain ⟨first, more, isCons⟩ := List.exists_cons_of_ne_nil nonempty
  rw [LineGroups.ofText, front, back, isCons]
  rfl

theorem ofText_stamped (stamp : Stamp) (rest : Text) :
    LineGroups.ofText (stamp.text ++ ' ' :: rest) = callGroups? stamp.text rest :=
  ofText_append (by simp [Stamp.text]) (fun _ member => stamp.isStampChar_of_mem member) rest

theorem time_of_callGroups {time text : Text} {groups : LineGroups}
    (found : callGroups? time text = some groups) : groups.time = time := by
  unfold callGroups? at found
  split at found
  · cases found
  · obtain ⟨parts, -, isGroups⟩ := Option.map_eq_some_iff.1 found
    rw [← isGroups]

/-- A line that matches is parsed, with the time that was printed. -/
theorem parseLine_of_callGroups
    {line : StampedLine} {groups : LineGroups}
    (found : callGroups? line.stamp.text line.rest = some groups) : parseLine line.text =
      .ok (some ⟨line.stamp.time, groups.syscall,
        splitArguments groups.args, groups.ret, groups.explanation⟩) := by
  rw [parseLine, StampedLine.text, ofText_stamped, found]
  simp only [time_of_callGroups found, line.stamp.parseTime_text, ok_bind]
  rfl

theorem time_of_parseLine {line : StampedLine} {parsed : ParsedLine}
    (ran : parseLine line.text = .ok (some parsed)) : parsed.time = line.stamp.time := by
  cases found : callGroups? line.stamp.text line.rest with
  | none =>
    rw [parseLine, StampedLine.text, ofText_stamped, found] at ran
    split_ifs at ran
    cases ran
  | some groups =>
    rw [parseLine_of_callGroups found] at ran
    cases ran
    rfl

theorem times_of_placeLines
    {innocentSyscalls : List Text} {dumpFile : Text}
    {lines : List StampedLine} {offset : ℕ} {placed : List PlacedLine}
    (ran : placeLines dumpFile offset (lines.map StampedLine.text) = .ok placed) :
    (placed.filter (TraceFile.isKept innocentSyscalls)).map (fun kept => kept.parsed.time) =
      (lines.filter (StampedLine.kept innocentSyscalls)).map fun line =>
        line.stamp.time := by
  induction lines generalizing offset placed with
  | nil =>
    cases ran
    rfl
  | cons line rest ih =>
    obtain ⟨parsed?, ranLine, ran⟩ := bind_eq_ok_iff.1 ran
    cases parsed? with
    | none =>
      have dropped : line.kept innocentSyscalls = false := by rw [StampedLine.kept, ranLine]
      rw [List.filter_cons_of_neg (by rw [dropped]; decide)]
      exact ih ran
    | some parsed =>
      obtain ⟨⟨text, next⟩, -, ran⟩ := bind_eq_ok_iff.1 ran
      obtain ⟨more, ranRest, ran⟩ := bind_eq_ok_iff.1 ran
      cases ran
      have keptEq : line.kept innocentSyscalls = TraceFile.isKept innocentSyscalls
            ⟨parsed, text, offset, next⟩ := by
        rw [StampedLine.kept, ranLine]
        rfl
      rw [List.filter_cons, List.filter_cons, keptEq]
      split_ifs
      · rw [List.map_cons, List.map_cons, ih ranRest, time_of_parseLine ranLine]
      · exact ih ranRest

theorem pairwise_time_iff {innocentSyscalls : List Text} {file : StampedFile}
    {rows : List FileRow} (collected : file.traceFile.rows innocentSyscalls = .ok rows) :
    rows.Pairwise (fun first second => first.time ≤ second.time) ↔
      (file.keptStamps innocentSyscalls).Pairwise fun first second =>
        first.micros ≤ second.micros := by
  obtain ⟨placed, ran, collected⟩ := bind_eq_ok_iff.1 collected
  cases collected
  have times := @times_of_placeLines innocentSyscalls _ _ _ _ ran
  have ordered : ((placed.filter (TraceFile.isKept innocentSyscalls)).map
        fun kept => kept.parsed.time).Pairwise (· ≤ ·) ↔
      (placed.filter (TraceFile.isKept innocentSyscalls)).Pairwise
        fun first second => first.parsed.time ≤ second.parsed.time := List.pairwise_map
  rw [List.pairwise_map, ← ordered, times, StampedFile.keptStamps,
    List.pairwise_map, List.pairwise_map]
  simp only [Stamp.time_le_time_iff]

/-! ## The sorted rows -/

/-- A file keeps its order exactly if its rows are in the order of their
times. -/
theorem sublist_mergeRows_iff {rows : List (List FileRow)} {fileRows : List FileRow}
    (member : fileRows ∈ rows) : fileRows.Sublist (mergeRows rows) ↔
      fileRows.Pairwise fun first second => first.time ≤ second.time := by
  have transitive : ∀ first second third : FileRow, decide (first.time ≤ second.time) = true →
        decide (second.time ≤ third.time) = true → decide (first.time ≤ third.time) = true := by
    intro first second third before after
    rw [decide_eq_true_eq] at before after ⊢
    exact before.trans after
  have total : ∀ first second : FileRow, (decide (first.time ≤ second.time) ||
        decide (second.time ≤ first.time)) = true := by
    intro first second
    rw [Bool.or_eq_true, decide_eq_true_eq, decide_eq_true_eq]
    exact le_total _ _
  constructor
  · intro kept
    have sorted := List.pairwise_mergeSort transitive total rows.flatten
    simpa only [decide_eq_true_eq] using sorted.sublist kept
  · intro ordered
    apply List.sublist_mergeSort transitive total
    · simpa only [decide_eq_true_eq] using ordered
    · exact List.sublist_flatten_of_mem member

theorem forall₂_of_collectFiles {innocentSyscalls : List Text} {files : List TraceFile}
    {rows : List (List FileRow)} (collected : collectFiles innocentSyscalls files = .ok rows) :
    List.Forall₂ (fun file fileRows =>
      file.rows innocentSyscalls = .ok fileRows) files rows := by
  induction files generalizing rows with
  | nil =>
    cases collected
    exact .nil
  | cons file rest ih =>
    obtain ⟨fileRows, here, collected⟩ := bind_eq_ok_iff.1 collected
    obtain ⟨more, further, collected⟩ := bind_eq_ok_iff.1 collected
    cases collected
    exact .cons here (ih further)

/-- The lines of every file are translated in their order, exactly if in every
file the time of day never goes back from one of these lines to a later
one. -/
theorem merge_keeps_order_iff
    {innocentSyscalls : List Text} {files : List StampedFile}
    {rows : List (List FileRow)}
    (collected : collectFiles innocentSyscalls
      (files.map StampedFile.traceFile) = .ok rows) :
    (∀ fileRows ∈ rows, fileRows.Sublist (mergeRows rows)) ↔
      ∀ file ∈ files,
        (file.keptStamps innocentSyscalls).Pairwise fun first second =>
          first.micros ≤ second.micros := by
  have matched := List.forall₂_map_left_iff.1 (forall₂_of_collectFiles collected)
  have sorted : (∀ fileRows ∈ rows, fileRows.Sublist (mergeRows rows)) ↔
      ∀ fileRows ∈ rows, fileRows.Pairwise fun first second =>
        first.time ≤ second.time :=
    forall₂_congr fun _ member => sublist_mergeRows_iff member
  rw [sorted]
  clear sorted collected
  induction matched with
  | nil => simp
  | cons here _ ih =>
    rw [List.forall_mem_cons, List.forall_mem_cons]
    exact and_congr (pairwise_time_iff here) ih

/-- Two directories are made, the second one in the first. -/
def twoMkdirs (first second : Stamp) : StampedFile :=
  ⟨100, [],
    [⟨first, "mkdir(\"/workload/a\", 0777) = 0".toList⟩,
      ⟨second, "mkdir(\"/workload/a/b\", 0777) = 0".toList⟩]⟩

theorem collectFiles_twoMkdirs (first second : Stamp) :
    collectFiles [] ([twoMkdirs first second].map StampedFile.traceFile) =
      .ok [(twoMkdirs first second).lines.map fun line =>
        ⟨100, line.stamp.time, line.text⟩] := by
  have parsed : ∀ line ∈ (twoMkdirs first second).lines, ∃ args, parseLine line.text =
        .ok (some ⟨line.stamp.time, "mkdir".toList, args, ['0'], []⟩) := by
    simp only [twoMkdirs, List.forall_mem_cons, List.not_mem_nil,
      false_implies, implies_true, and_true]
    exact ⟨⟨_, @parseLine_of_callGroups ⟨first, _⟩ ⟨first.text, "mkdir".toList,
      "(\"/workload/a\", 0777)".toList, ['0'], []⟩ rfl⟩, ⟨_, @parseLine_of_callGroups ⟨second, _⟩
      ⟨second.text, "mkdir".toList, "(\"/workload/a/b\", 0777)".toList, ['0'], []⟩ rfl⟩⟩
  simp only [twoMkdirs, List.forall_mem_cons, List.not_mem_nil,
    false_implies, implies_true, and_true] at parsed
  obtain ⟨⟨firstArgs, firstLine⟩, ⟨secondArgs, secondLine⟩⟩ := parsed
  simp only [twoMkdirs, StampedFile.traceFile, TraceFile.rows, List.map_cons,
    List.map_nil, collectFiles, placeLines, firstLine, secondLine, ok_bind]
  rfl

theorem merge_keeps_order_iff_day :
    ((∀ fileRows ∈ [(twoMkdirs ⟨9, 0, 0, 0⟩ ⟨9, 0, 0, 1⟩).lines.map
          fun line => (⟨100, line.stamp.time, line.text⟩ : FileRow)],
        fileRows.Sublist (mergeRows
          [(twoMkdirs ⟨9, 0, 0, 0⟩ ⟨9, 0, 0, 1⟩).lines.map
            fun line => ⟨100, line.stamp.time, line.text⟩])) ↔
      ∀ file ∈ [twoMkdirs ⟨9, 0, 0, 0⟩ ⟨9, 0, 0, 1⟩],
        (file.keptStamps []).Pairwise fun first second =>
          first.micros ≤ second.micros) :=
  merge_keeps_order_iff (collectFiles_twoMkdirs _ _)

/-- After midnight the second directory is made before the first. -/
theorem midnight_reverses_order :
    ∃ rows, collectFiles []
        ([twoMkdirs ⟨23, 59, 59, 999999⟩ ⟨0, 0, 0, 1⟩].map
          StampedFile.traceFile) = .ok rows ∧
      ¬ ∀ fileRows ∈ rows, fileRows.Sublist (mergeRows rows) := by
  refine ⟨_, collectFiles_twoMkdirs _ _, ?_⟩
  intro kept
  have ordered := (sublist_mergeRows_iff (List.mem_singleton_self _)).1
    (kept _ (List.mem_singleton_self _))
  have before := (List.pairwise_cons.1 ordered).1 _ (List.mem_singleton_self _)
  rw [Stamp.time_le_time_iff] at before
  revert before
  decide

end Alice
