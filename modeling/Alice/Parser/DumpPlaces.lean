import Alice.Parser.ByteDump
import Mathlib.Data.List.TakeWhile

/-! # The places of written bytes

The arguments of a line of the write family are read back as they were
printed, and the place put into it is that of its bytes in the dump file, as
long as no buffer has a size of -1. -/

namespace Alice

open Checked
open Posix (Bytes)

/-! ## Numbers -/

section Digits

variable {base : ℕ}

theorem exists_of_mem_toDigits {char : Char} {number : ℕ} (large : 1 < base)
    (member : char ∈ Nat.toDigits base number) : ∃ digit < base, char = Nat.digitChar digit := by
  induction number using Nat.strong_induction_on with
  | _ number ih =>
    rcases lt_or_ge number base with small | big
    · rw [Nat.toDigits_of_lt_base small, List.mem_singleton] at member
      exact ⟨number, small, member⟩
    · rw [Nat.toDigits_of_base_le large big, List.mem_append, List.mem_singleton] at member
      rcases member with front | last
      · exact ih _ (Nat.div_lt_self (by omega) large) front
      · exact ⟨_, Nat.mod_lt _ (by omega), last⟩

theorem not_mem_toDigits {char : Char} (large : 1 < base)
    (other : ∀ digit, Nat.digitChar digit ≠ char) (number : ℕ) :
    char ∉ Nat.toDigits base number := by
  intro member
  obtain ⟨digit, _, isDigit⟩ := exists_of_mem_toDigits large member
  exact other digit isDigit.symm

/-- A positive number has no leading zero. -/
theorem toDigits_eq_cons
    {number : ℕ} (large : 1 < base) (positive : 0 < number) :
    ∃ first rest, Nat.toDigits base number = first :: rest ∧ first ≠ '0' := by
  induction number using Nat.strong_induction_on with
  | _ number ih =>
    rcases lt_or_ge number base with small | big
    · refine ⟨_, [], Nat.toDigits_of_lt_base small, ?_⟩
      rw [Ne, Nat.digitChar_eq_zero]
      exact positive.ne'
    · obtain ⟨first, rest, isCons, notZero⟩ := ih (number / base) (Nat.div_lt_self positive large)
        (Nat.div_pos big (by omega))
      refine ⟨first, rest ++ [Nat.digitChar (number % base)], ?_, notZero⟩
      rw [Nat.toDigits_of_base_le large big, isCons, List.cons_append]

end Digits

theorem safeStringToInt_of_ne_zero {first : Char} {rest : Text} {value : ℕ}
    (notZero : first ≠ '0') (isValue : digitsValue 10 (first :: rest) = some value) :
    safeStringToInt (String.ofList (first :: rest)) = .ok value := by
  have nonempty : (String.ofList (first :: rest)).isEmpty = false := by
    rw [Bool.eq_false_iff, Ne, String.isEmpty_iff, String.ofList_eq_empty_iff]
    exact List.cons_ne_nil _ _
  simp only [safeStringToInt, nonempty, String.toList_ofList]
  all_goals simp_all

/-- A printed number is read as it was meant, although a leading zero would
make it octal. -/
theorem safeStringToInt_decimal (number : Word) : safeStringToInt (String.ofList (decimal number)) =
      .ok number.toNat := by
  have value := digitsValue_toDigits number.toNat
  rcases Nat.eq_zero_or_pos number.toNat with zero | positive
  · rw [decimal, zero]
    rfl
  · obtain ⟨first, rest, isCons, notZero⟩ := @toDigits_eq_cons 10 _ (by decide) positive
    rw [isCons] at value
    rw [decimal, isCons]
    exact safeStringToInt_of_ne_zero notZero value

/-! ## Arguments -/

/-- Neither the end of an argument nor that of all arguments. -/
def Plain (text : Text) : Prop :=
  ',' ∉ text ∧ ')' ∉ text

variable {text : Text} {args : List Text} {char : Char}

theorem csvFields_inField (noComma : ',' ∉ text) : csvFields .inField text = [text] := by
  induction text with
  | nil => rfl
  | cons char rest ih =>
    rw [List.mem_cons, not_or] at noComma
    rw [csvFields, if_neg (Ne.symm noComma.1), ih noComma.2, pushChar]

theorem csvFields_inField_append (noComma : ',' ∉ text) (rest : Text) :
    csvFields .inField (text ++ ',' :: rest) = text :: csvFields .startField rest := by
  induction text with
  | nil => rfl
  | cons char text ih =>
    rw [List.mem_cons, not_or] at noComma
    rw [List.cons_append, csvFields, if_neg (Ne.symm noComma.1), ih noComma.2, pushChar]

theorem csvFields_ne_nil (state : CsvState) (text : Text) : csvFields state text ≠ [] := by
  have pushed : ∀ (char : Char) (fields : List Text), pushChar char fields ≠ [] := by
    rintro char (_ | ⟨field, fields⟩) <;> exact List.cons_ne_nil _ _
  induction text generalizing state with
  | nil => cases state <;> exact List.cons_ne_nil _ _
  | cons char text ih =>
    cases state <;> unfold csvFields <;> split_ifs <;>
      first
      | exact List.cons_ne_nil _ _
      | exact pushed _ _
      | exact ih _

theorem splitArguments_cons_append {opening : Char} (notComma : opening ≠ ',')
    (notQuote : opening ≠ '"') {arg : Text} (noComma : ',' ∉ arg) (rest : Text) :
    splitArguments (opening :: (arg ++ ',' :: rest)) = arg :: splitArguments rest := by
  obtain ⟨field, fields, isCons⟩ := List.exists_cons_of_ne_nil (csvFields_ne_nil .startField rest)
  rw [splitArguments, csvFields, if_neg notComma, if_neg notQuote,
    csvFields_inField_append noComma, pushChar, splitArguments, isCons]
  rfl

/-- The fields of the printed arguments, behind a character that opens the
first of them. -/
theorem splitArguments_printArguments_cons {opening : Char} (notComma : opening ≠ ',')
    (notQuote : opening ≠ '"') {arg : Text} (noComma : ∀ text ∈ arg :: args, ',' ∉ text) :
    splitArguments (opening :: (printArguments (arg :: args) ++ [')'])) = arg :: args := by
  induction args generalizing opening arg with
  | nil =>
    have inLast : ',' ∉ arg ++ [')'] := by simp [noComma arg List.mem_cons_self]
    rw [splitArguments, csvFields, if_neg notComma, if_neg notQuote,
      printArguments, csvFields_inField inLast]
    simp [pushChar, stripLast]
  | cons next args ih =>
    obtain ⟨inArg, inRest⟩ := List.forall_mem_cons.1 noComma
    rw [printArguments, List.append_assoc, List.cons_append, List.cons_append,
      splitArguments_cons_append notComma notQuote inArg,
      @ih ' ' (by decide) (by decide) next inRest]

theorem splitArguments_printArguments (nonempty : args ≠ []) (noComma : ∀ text ∈ args, ',' ∉ text) :
    splitArguments ('(' :: (printArguments args ++ [')'])) = args := by
  obtain ⟨arg, rest, rfl⟩ := List.exists_cons_of_ne_nil nonempty
  exact splitArguments_printArguments_cons (by decide) (by decide) noComma

theorem not_mem_printArguments (plain : ∀ text ∈ args, Plain text) : ')' ∉ printArguments args := by
  induction args with
  | nil => exact List.not_mem_nil
  | cons arg args ih =>
    obtain ⟨argPlain, restPlain⟩ := List.forall_mem_cons.1 plain
    cases args with
    | nil => exact argPlain.2
    | cons next args =>
      have rest := ih restPlain
      simp [printArguments, argPlain.2, rest]

/-! ## Results -/

theorem printResult_eq (blanks : ℕ) (result : Text) : printResult blanks result =
      List.replicate blanks ' ' ++ ' ' :: '=' :: ' ' :: result := by
  rw [printResult, ← List.cons_append, ← List.replicate_succ,
    List.replicate_succ', List.append_assoc]
  rfl

theorem afterEquals?_printResult (blanks : ℕ) (result : Text) :
    afterEquals? (printResult blanks result) = some result := by
  have skipped : (List.replicate blanks ' ' ++ '=' :: ' ' :: result).dropWhile
      (· == ' ') = '=' :: ' ' :: result := by
    rw [List.dropWhile_append_of_pos fun char member => by
      rw [List.eq_of_mem_replicate member]; rfl]
    rfl
  rw [printResult, afterEquals?, skipped]
  rfl

theorem arguments?_eq_none {text : Text} (noBracket : ')' ∉ text) : arguments? text = none := by
  induction text with
  | nil => rfl
  | cons char rest ih =>
    rw [List.mem_cons, not_or] at noBracket
    rw [arguments?, ih noBracket.2]
    exact if_neg (Ne.symm noBracket.1)

theorem arguments?_append_eq_none
    {front rest : Text} (noBracket : ')' ∉ front) (noLater : arguments? rest = none)
    (noResult : (afterEquals? rest).bind result? = none) :
    arguments? (front ++ ')' :: rest) = none := by
  induction front with
  | nil =>
    rw [List.nil_append, arguments?, noLater]
    simp only [noResult]
    rfl
  | cons char front ih =>
    rw [List.mem_cons, not_or] at noBracket
    rw [List.cons_append, arguments?, ih noBracket.2]
    exact if_neg (Ne.symm noBracket.1)

theorem arguments?_append_bracket {text : Text} (noBracket : ')' ∉ text) :
    arguments? (text ++ [')']) = none :=
  arguments?_append_eq_none noBracket rfl rfl

theorem arguments?_append {rest : Text} {result : Text × Text} (noLater : arguments? rest = none)
    (follows : (afterEquals? rest).bind result? = some result) (front : Text) :
    arguments? (front ++ ')' :: rest) = some (front ++ [')'], result) := by
  induction front with
  | nil =>
    rw [List.nil_append, arguments?, noLater]
    simp only [follows]
    rfl
  | cons char front ih =>
    rw [List.cons_append, arguments?, ih]
    rfl

theorem isExplanation_error {code message : Text} (noBlank : ' ' ∉ code)
    (noOpening : '(' ∉ message) (noClosing : ')' ∉ message) :
    isExplanation ('E' :: (code ++ ' ' :: '(' :: (message ++ [')']))) =
      true := by
  have skipped : (code ++ ' ' :: '(' :: (message ++ [')'])).dropWhile
      (· != ' ') = ' ' :: '(' :: (message ++ [')']) := by
    rw [List.dropWhile_append_of_pos fun char member =>
      bne_iff_ne.2 (ne_of_mem_of_not_mem member noBlank)]
    rfl
  rw [isExplanation, skipped]
  simp only [isNote, List.getLast?_concat, List.dropLast_concat,
    Bool.and_eq_true, beq_self_eq_true, true_and, List.all_eq_true, bne_iff_ne]
  exact fun char member => ⟨ne_of_mem_of_not_mem member noOpening,
    ne_of_mem_of_not_mem member noClosing⟩

theorem explanation?_cons {note : Text} (explained : isExplanation note = true) :
    explanation? (' ' :: note) = some note := by
  unfold explanation?
  split <;> simp_all [isExplanation, isNote]

theorem result?_of_isRetChar {ret : Text} (nonempty : ret ≠ [])
    (isRet : ∀ char ∈ ret, isRetChar char = true) : result? ret = some (ret, []) := by
  have whole := List.takeWhile_eq_self_iff.2 isRet
  have nothing := List.dropWhile_eq_nil_iff.2 isRet
  obtain ⟨first, rest, isCons⟩ := List.exists_cons_of_ne_nil nonempty
  unfold result?
  rw [whole, nothing, isCons]
  rfl

theorem result?_append
    {ret note : Text} (nonempty : ret ≠ []) (isRet : ∀ char ∈ ret, isRetChar char = true)
    (explained : isExplanation note = true) : result? (ret ++ ' ' :: note) = some (ret, note) := by
  have isValue : (ret ++ ' ' :: note).takeWhile isRetChar = ret := by
    rw [List.takeWhile_append_of_pos isRet]
    exact List.append_nil _
  have isNote : (ret ++ ' ' :: note).dropWhile isRetChar = ' ' :: note := by
    rw [List.dropWhile_append_of_pos isRet]
    rfl
  obtain ⟨first, rest, isCons⟩ := List.exists_cons_of_ne_nil nonempty
  unfold result?
  rw [isValue, isNote, isCons, explanation?_cons explained]
  rfl

theorem result?_unknown {note : Text} (explained : isExplanation note = true) :
    result? ('?' :: ' ' :: note) = some (['?'], note) :=
  congrArg (Option.map _) (explanation?_cons explained)

namespace ErrorText

variable (error : ErrorText)

theorem isExplanation_text : isExplanation error.text = true :=
  isExplanation_error (fun member => (error.code_plain _ member).1 rfl)
    (fun member => (error.message_plain _ member).2.1 rfl)
    (fun member => (error.message_plain _ member).2.2 rfl)

theorem not_mem_text : ',' ∉ error.text := by
  intro member
  simp only [text, List.mem_cons, List.mem_append, List.not_mem_nil] at member
  rcases member with name | code | blank | bracket | message | bracket | none
  · exact absurd name (by decide)
  · exact (error.code_plain _ code).2.1 rfl
  · exact absurd blank (by decide)
  · exact absurd bracket (by decide)
  · exact (error.message_plain _ message).1 rfl
  · exact absurd bracket (by decide)
  · exact none

theorem text_eq_append : ∃ front, error.text = front ++ [')'] ∧ ')' ∉ front := by
  refine ⟨'E' :: (error.code ++ ' ' :: '(' :: error.message), by simp [text], ?_⟩
  intro member
  simp only [List.mem_cons, List.mem_append] at member
  rcases member with name | code | blank | bracket | message
  · exact absurd name (by decide)
  · exact (error.code_plain _ code).2.2.2 rfl
  · exact absurd blank (by decide)
  · exact absurd bracket (by decide)
  · exact (error.message_plain _ message).2.2 rfl

end ErrorText

theorem not_mem_signedDecimal (other : ∀ digit, Nat.digitChar digit ≠ char)
    (notMinus : char ≠ '-') (number : ℤ) : char ∉ signedDecimal number := by
  cases number with
  | ofNat number => exact not_mem_toDigits (by decide) other number
  | negSucc number =>
    rw [signedDecimal, List.mem_cons, not_or]
    exact ⟨notMinus, not_mem_toDigits (by decide) other _⟩

theorem isRetChar_of_mem_signedDecimal {number : ℤ} (member : char ∈ signedDecimal number) :
    isRetChar char = true := by
  have ofDigits : ∀ number : ℕ, char ∈ Nat.toDigits 10 number → isRetChar char = true := by
    intro number digit
    rw [isRetChar, Nat.isDigit_of_mem_toDigits (by decide) (by decide) digit, Bool.or_true]
  cases number with
  | ofNat number => exact ofDigits number member
  | negSucc number =>
    rcases List.mem_cons.1 member with minus | digit
    · rw [minus]
      rfl
    · exact ofDigits _ digit

theorem signedDecimal_ne_nil (number : ℤ) : signedDecimal number ≠ [] := by
  cases number with
  | ofNat number => exact Nat.toDigits_ne_nil
  | negSucc number => exact List.cons_ne_nil _ _

namespace CallResult

variable (result : CallResult)

theorem exists_result? : ∃ parts, result? result.text = some parts := by
  cases result with
  | returned value =>
    exact ⟨_, result?_of_isRetChar (signedDecimal_ne_nil value)
      fun _ => isRetChar_of_mem_signedDecimal⟩
  | failed error =>
    exact ⟨_, @result?_append ['-', '1'] _ (List.cons_ne_nil _ _)
      (List.all_eq_true.1 rfl) error.isExplanation_text⟩
  | restarted error => exact ⟨_, result?_unknown error.isExplanation_text⟩

theorem not_mem_text : ',' ∉ result.text := by
  cases result with
  | returned value =>
    exact not_mem_signedDecimal (fun _ => Nat.digitChar_ne ',' (by decide)) (by decide) value
  | failed error => simp [text, error.not_mem_text]
  | restarted error => simp [text, error.not_mem_text]

/-- After the arguments there is no other bracket that a result follows. -/
theorem arguments?_printResult (blanks : ℕ) :
    arguments? (printResult blanks result.text) = none := by
  have noBracket : ')' ∉ List.replicate blanks ' ' := by
    simp
  cases result with
  | returned value =>
    apply arguments?_eq_none
    have inValue := not_mem_signedDecimal
      (fun _ => Nat.digitChar_ne ')' (by decide)) (by decide) value
    simp [printResult, text, noBracket, inValue]
  | failed error =>
    obtain ⟨front, isText, inFront⟩ := error.text_eq_append
    have split : printResult blanks (text (.failed error)) =
        (' ' :: (List.replicate blanks ' ' ++ '=' :: ' ' :: '-' :: '1' ::
          ' ' :: front)) ++ [')'] := by
      simp [printResult, text, isText]
    rw [split]
    exact arguments?_append_bracket (by simp [noBracket, inFront])
  | restarted error =>
    obtain ⟨front, isText, inFront⟩ := error.text_eq_append
    have split : printResult blanks (text (.restarted error)) =
        (' ' :: (List.replicate blanks ' ' ++ '=' :: ' ' :: '?' :: ' ' :: front)) ++ [')'] := by
      simp [printResult, text, isText]
    rw [split]
    exact arguments?_append_bracket (by simp [noBracket, inFront])

end CallResult

/-! ## Lines -/

theorem insertBeforeResult_append
    {inserted front rest result : Text} (noBracket : ')' ∉ front)
    (follows : afterEquals? rest = some result) (noComma : ',' ∉ result) :
    insertBeforeResult inserted (front ++ ')' :: rest) =
      some (front ++ (inserted ++ ')' :: rest)) := by
  induction front with
  | nil =>
    rw [List.nil_append, insertBeforeResult, follows]
    exact if_pos ⟨rfl, decide_eq_true noComma⟩
  | cons char front ih =>
    rw [List.mem_cons, not_or] at noBracket
    rw [List.cons_append, insertBeforeResult, if_neg fun found => noBracket.1 found.1.symm,
      ih noBracket.2]
    rfl

theorem callGroups?_name
    {name : Text} (nonempty : name ≠ []) (noBracket : '(' ∉ name) (time rest : Text) :
    callGroups? time (name ++ '(' :: rest) = (arguments? ('(' :: rest)).map fun (args, ret, note) =>
        ⟨time, name, args, ret, note⟩ := by
  have isName : ∀ char ∈ name, (char != '(') = true := by
    intro char member
    rw [bne_iff_ne]
    rintro rfl
    exact noBracket member
  have front : (name ++ '(' :: rest).takeWhile (· != '(') = name := by
    rw [List.takeWhile_append_of_pos isName]
    exact List.append_nil _
  have back : (name ++ '(' :: rest).dropWhile (· != '(') = '(' :: rest := by
    rw [List.dropWhile_append_of_pos isName]
    rfl
  obtain ⟨first, more, isCons⟩ := List.exists_cons_of_ne_nil nonempty
  rw [callGroups?, front, back, isCons]

/-- The arguments of a line end where they end, whatever they are. -/
theorem parseLine_call
    {stamp : Stamp} {name : Text} {args : List Text} {blanks : ℕ}
    {result ret note : Text} (nonempty : name ≠ []) (noBracket : '(' ∉ name)
    (isResult : result? result = some (ret, note))
    (noLater : arguments? (printResult blanks result) = none) :
    parseLine (StampedLine.text ⟨stamp, name ++ '(' :: (printArguments args ++
        ')' :: printResult blanks result)⟩) = .ok (some ⟨stamp.time, name,
        splitArguments ('(' :: (printArguments args ++ [')'])), ret, note⟩) := by
  have follows : (afterEquals? (printResult blanks result)).bind result? = some (ret, note) := by
    rw [afterEquals?_printResult]
    exact isResult
  have groups : callGroups? stamp.text (name ++ '(' :: (printArguments args ++ ')' ::
        printResult blanks result)) =
        some ⟨stamp.text, name, '(' :: (printArguments args ++ [')']), ret, note⟩ := by
    rw [callGroups?_name nonempty noBracket, ← List.cons_append, arguments?_append noLater follows]
    rfl
  exact @parseLine_of_callGroups ⟨stamp, _⟩ _ groups

theorem Stamp.not_mem_text (other : isStampChar char = false) (stamp : Stamp) :
    char ∉ stamp.text := by
  intro member
  rw [stamp.isStampChar_of_mem member] at other
  cases other

namespace CallEntry

variable {entry : CallEntry}

def writeNames : List Text :=
  ["write".toList, "writev".toList, "pwrite".toList, "pwrite64".toList, "pwritev".toList]

theorem name_mem_writeNames (entry : CallEntry) : entry.name ∈ writeNames := by
  rcases entry with ⟨stamp, memory, is32Bit, _ | _ | ⟨_ | _⟩ | _⟩ <;>
    simp [name, writeNames]

theorem not_mem_name (entry : CallEntry) : '(' ∉ entry.name ∧ ')' ∉ entry.name :=
  (by decide : ∀ name ∈ writeNames, '(' ∉ name ∧ ')' ∉ name) _ entry.name_mem_writeNames

theorem name_ne_nil (entry : CallEntry) : entry.name ≠ [] :=
  (by decide : ∀ name ∈ writeNames, name ≠ []) _ entry.name_mem_writeNames

theorem equivalentSyscall_mem (entry : CallEntry) : equivalentSyscall entry.name ∈ dumpedSyscalls :=
  (by decide : ∀ name ∈ writeNames,
    equivalentSyscall name ∈ dumpedSyscalls) _ entry.name_mem_writeNames

/-- The line of a call that has ended is read as it was printed. -/
theorem parseLine_line
    {args : List Text} (nonempty : args ≠ [])
    (plain : ∀ text ∈ args, Plain text) (blanks : ℕ) (result : CallResult) :
    ∃ ret note, parseLine (entry.line args blanks result).text =
      .ok (some ⟨entry.stamp.time, entry.name, args, ret, note⟩) := by
  obtain ⟨⟨ret, note⟩, isResult⟩ := result.exists_result?
  refine ⟨ret, note, ?_⟩
  rw [line, parseLine_call entry.name_ne_nil entry.not_mem_name.1 isResult
    (result.arguments?_printResult blanks),
    splitArguments_printArguments nonempty fun text member => (plain text member).1]

theorem insertBeforeResult_line
    {args : List Text} (plain : ∀ text ∈ args, Plain text) (inserted : Text)
    (blanks : ℕ) (result : CallResult) : ∃ line, insertBeforeResult inserted
      (entry.line args blanks result).text = some line := by
  have split : (entry.line args blanks result).text = (entry.stamp.text ++ ' ' :: (entry.name ++
        '(' :: printArguments args)) ++ ')' :: printResult blanks result.text := by
    simp [line, StampedLine.text]
  rw [split]
  refine ⟨_, insertBeforeResult_append ?_ (afterEquals?_printResult _ _) result.not_mem_text⟩
  simp [entry.not_mem_name.2, not_mem_printArguments plain,
    Stamp.not_mem_text (by decide : isStampChar ')' = false)]

theorem parseLine_cutLine {args : List Text} (plain : ∀ text ∈ args, Plain text)
    (unavailable : Option ℕ) : parseLine (entry.cutLine args unavailable).text = .ok none := by
  have noBracket : ')' ∉ '(' :: printArguments args := by simp [not_mem_printArguments plain]
  cases unavailable with
  | none =>
    have noGroups : callGroups? entry.stamp.text (entry.cutLine args none).rest = none := by
      rw [cutLine, callGroups?_name entry.name_ne_nil entry.not_mem_name.1, arguments?_eq_none]
      · rfl
      · rw [← List.cons_append, List.mem_append, not_or]
        exact ⟨noBracket, by decide⟩
    rw [parseLine, StampedLine.text, ofText_stamped]
    simp only [cutLine] at noGroups ⊢
    rw [noGroups]
    refine if_pos ⟨"<unfinished ...>".toList, by decide,
      entry.stamp.text ++ ' ' :: (entry.name ++ '(' :: (printArguments args ++ [' '])), [], ?_⟩
    simp
  | some blanks =>
    have noGroups : callGroups? entry.stamp.text
        (entry.cutLine args (some blanks)).rest = none := by
      have noLater : arguments? (printResult blanks "? <unavailable>".toList) = none := by
        apply arguments?_eq_none
        simp [printResult]
      rw [cutLine, callGroups?_name entry.name_ne_nil entry.not_mem_name.1, ← List.cons_append,
        arguments?_append_eq_none noBracket noLater]
      · rfl
      · rw [afterEquals?_printResult]
        rfl
    rw [parseLine, StampedLine.text, ofText_stamped]
    simp only [cutLine] at noGroups ⊢
    rw [noGroups]
    refine if_pos ⟨" = ? <unavailable>".toList, by decide,
      entry.stamp.text ++ ' ' :: (entry.name ++ '(' ::
        (printArguments args ++ ')' :: List.replicate blanks ' ')), [], ?_⟩
    rw [printResult_eq]
    simp

end CallEntry

/-! ## Entering a call -/

theorem plain_of_notDigit
    (noChar : ∀ char : Char, (∀ digit, Nat.digitChar digit ≠ char) → char ≠ '-' → char ∉ text)
    : Plain text :=
  ⟨noChar ',' (fun _ => Nat.digitChar_ne ',' (by decide)) (by decide),
    noChar ')' (fun _ => Nat.digitChar_ne ')' (by decide)) (by decide)⟩

theorem plain_decimal (number : Word) : Plain (decimal number) :=
  plain_of_notDigit fun _ other _ => not_mem_toDigits (by decide) other _

theorem plain_printfd (fd : Word) : Plain (printfd fd) :=
  plain_of_notDigit fun _ other notMinus => not_mem_signedDecimal other notMinus _

theorem plain_hexadecimal (number : ℕ) : Plain (hexadecimal number) := by
  unfold hexadecimal
  split
  · exact ⟨by decide, by decide⟩
  · have digits : Plain (Nat.toDigits 16 number) :=
      plain_of_notDigit fun _ other _ => not_mem_toDigits (by decide) other _
    exact ⟨by simp [digits.1], by simp [digits.2]⟩

theorem plain_printstr (memory : Memory) (addr : ℕ) (len : Word) :
    Plain (printstr memory addr len) := by
  unfold printstr
  split_ifs
  · exact ⟨by decide, by decide⟩
  · split
    · exact plain_hexadecimal addr
    · split_ifs <;> exact ⟨by decide, by decide⟩
  · exact plain_hexadecimal addr
  · exact ⟨by decide, by decide⟩
  · exact ⟨by decide, by decide⟩

theorem plain_tprintIov (sizeofIov len addr : ℕ) : Plain (tprintIov sizeofIov len addr) := by
  unfold tprintIov
  split_ifs
  · exact ⟨by decide, by decide⟩
  · exact ⟨by decide, by decide⟩
  · exact plain_hexadecimal addr

/-- What the parser needs to know about a call: the bytes that were stored,
and the number that it will take for theirs. -/
structure CallEntry.Entered
    (entry : CallEntry) (dump : Bytes) (args : List Text) (after bytes : Bytes)
    (size : ℕ) : Prop where
  grown : Extends dump after bytes
  size_eq : writeSize (equivalentSyscall entry.name) args = .ok size
  exact_iff : size = bytes.length ↔ sizeMax ∉ entry.lengths
  nonempty : args ≠ []
  plain : ∀ text ∈ args, Plain text

namespace CallEntry

variable {entry : CallEntry} {dump after : Bytes} {args : List Text}

theorem sizeofIov_pos (entry : CallEntry) : 0 < entry.sizeofIov := by
  unfold sizeofIov
  split <;> decide

theorem toNat_eq_length_iff {len : Word} {bytes : Bytes} (stored : Stored len bytes) :
    len.toNat = bytes.length ↔ sizeMax ∉ [len] := by
  rw [List.mem_singleton]
  unfold Stored at stored
  split_ifs at stored with isMax
  · rw [isMax, stored]
    decide
  · exact ⟨fun _ same => isMax same.symm, fun _ => stored.symm⟩

theorem entered_of_enter (ran : entry.enter dump = some (args, after)) :
    ∃ bytes size, entry.Entered dump args after bytes size := by
  rcases entry with ⟨stamp, memory, is32Bit, call⟩
  cases call with
  | write fd addr count =>
    obtain ⟨_, dumped, result⟩ := Option.map_eq_some_iff.1 ran
    cases result
    obtain ⟨bytes, grown, stored⟩ := Memory.extends_of_dumpBytes dumped
    refine ⟨bytes, count.toNat, grown, ?_, toNat_eq_length_iff stored, List.cons_ne_nil _ _, ?_⟩
    · exact safeStringToInt_decimal count
    · simp [plain_printfd, plain_printstr, plain_decimal]
  | pwrite is64 fd addr count offset =>
    obtain ⟨_, dumped, result⟩ := Option.map_eq_some_iff.1 ran
    cases result
    obtain ⟨bytes, grown, stored⟩ := Memory.extends_of_dumpBytes dumped
    refine ⟨bytes, count.toNat, grown, ?_, toNat_eq_length_iff stored, List.cons_ne_nil _ _, ?_⟩
    · cases is64 <;> exact safeStringToInt_decimal count
    · simp [plain_printfd, plain_printstr, plain_decimal]
  | writev fd addr iovcnt | pwritev fd addr iovcnt offset =>
    obtain ⟨⟨total, _⟩, dumped, result⟩ := Option.map_eq_some_iff.1 ran
    cases result
    obtain ⟨bytes, grown, exact_iff⟩ := Memory.extends_of_dumpIov (sizeofIov_pos _) dumped
    refine ⟨bytes, total.toNat, grown, ?_, exact_iff, List.cons_ne_nil _ _, ?_⟩
    · exact safeStringToInt_decimal total
    · simp [plain_printfd, printIov, plain_tprintIov, plain_decimal]

end CallEntry

/-! ## The lines of a process -/

namespace PlacedLine

def isDumped (placed : PlacedLine) : Bool :=
  decide (equivalentSyscall placed.parsed.syscall ∈ dumpedSyscalls)

end PlacedLine

/-- The place in the line is where the bytes of the call are in the dump file,
and the next place is behind them. -/
def PlacedAt (dumpFile : Text) (dump : Bytes) (printed : PrintedLine)
    (placed : PlacedLine) : Prop :=
  ∃ position bytes, printed.stored = some (position, bytes) ∧
    (dump.drop position).take bytes.length = bytes ∧
    insertBeforeResult (dumpPlace dumpFile position) printed.text =
      some placed.line ∧
    placed.start = position ∧ placed.next = position + bytes.length

/-- The parser gets through the lines, from a place in the dump file on, and
every call of the write family that has ended has the place of its bytes. -/
def DumpAgrees (dumpFile : Text) (dump : Bytes) (offset : ℕ) (printed : List PrintedLine) : Prop :=
  ∃ placed,
    placeLines dumpFile offset (printed.map PrintedLine.text) = .ok placed ∧
    List.Forall₂ (PlacedAt dumpFile dump)
      (printed.filter fun line => line.stored.isSome)
      (placed.filter PlacedLine.isDumped)

def TracerEvent.Fits : TracerEvent → Prop
  | .call entry _ _ => sizeMax ∉ entry.lengths
  | .other _ => True

section Lines

variable {dumpFile : Text} {final dump after : Bytes} {offset : ℕ}
  {printed : List PrintedLine}

theorem dumpAgrees_nil : DumpAgrees dumpFile final offset [] :=
  ⟨[], rfl, .nil⟩

theorem dumpAgrees_other (line : OtherLine) :
    DumpAgrees dumpFile final offset (line.printed :: printed) ↔
      DumpAgrees dumpFile final offset printed := by
  obtain ⟨parsed?, parsed, notDumped⟩ := line.passes
  cases parsed? with
  | none =>
    rw [DumpAgrees, List.map_cons, OtherLine.printed, placeLines_cons_of_none parsed]
    rfl
  | some call =>
    have other := notDumped call rfl
    have appended : appendPlace dumpFile offset line.text call =
        .ok (line.text, offset) := if_neg other
    have dropped : ∀ rest : List PlacedLine, (⟨call, line.text, offset, offset⟩ :: rest).filter
          PlacedLine.isDumped = rest.filter PlacedLine.isDumped :=
      fun rest => List.filter_cons_of_neg (ne_true_of_eq_false (decide_eq_false other))
    rw [DumpAgrees, List.map_cons, OtherLine.printed, placeLines_cons_of_some parsed appended]
    constructor
    · rintro ⟨placed, ran, agrees⟩
      obtain ⟨rest, ranRest, ran⟩ := map_eq_ok_iff.1 ran
      cases ran
      rw [dropped] at agrees
      exact ⟨rest, ranRest, agrees⟩
    · rintro ⟨rest, ranRest, agrees⟩
      refine ⟨_, map_eq_ok_iff.2 ⟨rest, ranRest, rfl⟩, ?_⟩
      rw [dropped]
      exact agrees

theorem dumpAgrees_others (lines : List OtherLine) :
    DumpAgrees dumpFile final offset (lines.map OtherLine.printed) := by
  induction lines with
  | nil => exact dumpAgrees_nil
  | cons line lines ih =>
    rw [List.map_cons, dumpAgrees_other]
    exact ih

/-- The line of a call that begins at the end of the dump file. -/
theorem dumpAgrees_call {entry : CallEntry} {args : List Text} {bytes : Bytes} {size : ℕ}
    (entered : entry.Entered dump args after bytes size) (kept : after <+: final) (blanks : ℕ)
    (result : CallResult) : DumpAgrees dumpFile final dump.length
        (⟨(entry.line args blanks result).text,
          some (dump.length, after.drop dump.length)⟩ :: printed) ↔ sizeMax ∉ entry.lengths ∧
        DumpAgrees dumpFile final after.length printed := by
  obtain ⟨ret, note, parsed⟩ := @CallEntry.parseLine_line entry args
    entered.nonempty entered.plain blanks result
  obtain ⟨placedText, inserted⟩ := @CallEntry.insertBeforeResult_line entry
    args entered.plain (dumpPlace dumpFile dump.length) blanks result
  obtain ⟨head, isHead⟩ : ∃ head : PlacedLine, head = ⟨⟨entry.stamp.time, entry.name, args, ret,
      note⟩, placedText, dump.length, dump.length + size⟩ := ⟨_, rfl⟩
  have appended : appendPlace dumpFile dump.length (entry.line args blanks result).text
        ⟨entry.stamp.time, entry.name, args, ret, note⟩ = .ok (placedText, dump.length + size) := by
    rw [appendPlace]
    simp only [if_pos entry.equivalentSyscall_mem, entered.size_eq, ok_bind, inserted]
    rfl
  have counted : head.isDumped = true := by
    rw [isHead]
    exact decide_eq_true entry.equivalentSyscall_mem
  have isStored : after.drop dump.length = bytes := by rw [entered.grown.eq_append, List.drop_left]
  have inDump : (final.drop dump.length).take bytes.length = bytes := by
    obtain ⟨more, isFinal⟩ := kept
    rw [← isFinal, entered.grown.eq_append, List.append_assoc, List.drop_left, List.take_left]
  have headIff : PlacedAt dumpFile final ⟨(entry.line args blanks result).text,
        some (dump.length, after.drop dump.length)⟩ head ↔ sizeMax ∉ entry.lengths := by
    rw [← entered.exact_iff, isHead, isStored]
    constructor
    · rintro ⟨position, stored, isPair, -, -, -, next⟩
      cases isPair
      exact Nat.add_left_cancel next
    · intro exactSize
      exact ⟨_, _, rfl, inDump, inserted, rfl, congrArg _ exactSize⟩
  have afterLength : size = bytes.length → after.length = dump.length + size := by
    intro exactSize
    rw [entered.grown.eq_append, List.length_append, exactSize]
  constructor
  · rintro ⟨placed, ran, agrees⟩
    rw [List.map_cons, placeLines_cons_of_some parsed appended, ← isHead] at ran
    obtain ⟨rest, ranRest, ran⟩ := map_eq_ok_iff.1 ran
    cases ran
    rw [List.filter_cons_of_pos counted, List.filter_cons_of_pos (by rfl)] at agrees
    cases agrees with
    | cons here further =>
      have fits := headIff.1 here
      rw [afterLength (entered.exact_iff.2 fits)]
      exact ⟨fits, rest, ranRest, further⟩
  · rintro ⟨fits, rest, ranRest, further⟩
    rw [afterLength (entered.exact_iff.2 fits)] at ranRest
    refine ⟨head :: rest, ?_, ?_⟩
    · rw [List.map_cons, placeLines_cons_of_some parsed appended, ← isHead, ranRest]
      rfl
    · rw [List.filter_cons_of_pos counted, List.filter_cons_of_pos (by rfl)]
      exact .cons (headIff.2 fits) further

theorem prefix_of_traceEvents {events : List TracerEvent}
    (ran : traceEvents events dump = some (printed, after)) : dump <+: after := by
  induction events generalizing dump printed with
  | nil =>
    cases ran
    exact List.prefix_rfl
  | cons event events ih =>
    cases event with
    | other line =>
      obtain ⟨⟨rest, _⟩, ranRest, ran⟩ := Option.bind_eq_some_iff.1 ran
      cases ran
      exact ih ranRest
    | call entry blanks result =>
      obtain ⟨⟨args, middle⟩, entered, ran⟩ := Option.bind_eq_some_iff.1 ran
      obtain ⟨⟨rest, _⟩, ranRest, ran⟩ := Option.bind_eq_some_iff.1 ran
      cases ran
      obtain ⟨bytes, size, entered⟩ := CallEntry.entered_of_enter entered
      rw [entered.grown.eq_append] at ranRest
      exact (List.prefix_append dump bytes).trans (ih ranRest)

/-- The places agree as long as no call in the run has a size of -1. -/
theorem dumpAgrees_traceEvents_iff {events : List TracerEvent}
    (ran : traceEvents events dump = some (printed, after)) (kept : after <+: final)
    (others : List OtherLine) : DumpAgrees dumpFile final dump.length
        (printed ++ others.map OtherLine.printed) ↔ ∀ event ∈ events, event.Fits := by
  induction events generalizing dump printed with
  | nil =>
    cases ran
    exact iff_of_true (dumpAgrees_others others) (by simp)
  | cons event events ih =>
    rw [List.forall_mem_cons]
    cases event with
    | other line =>
      obtain ⟨⟨rest, _⟩, ranRest, ran⟩ := Option.bind_eq_some_iff.1 ran
      cases ran
      rw [List.cons_append, dumpAgrees_other, ih ranRest]
      exact (and_iff_right trivial).symm
    | call entry blanks result =>
      obtain ⟨⟨args, middle⟩, entered, ran⟩ := Option.bind_eq_some_iff.1 ran
      obtain ⟨⟨rest, _⟩, ranRest, ran⟩ := Option.bind_eq_some_iff.1 ran
      cases ran
      obtain ⟨bytes, size, entered⟩ := CallEntry.entered_of_enter entered
      rw [List.cons_append, dumpAgrees_call entered
        ((prefix_of_traceEvents ranRest).trans kept), ih ranRest]
      rfl

end Lines

/-- The place that the parser puts into the line of every call of the write
family is that of the bytes which the tracer has stored, and the places
advance by their numbers, exactly if no buffer of these calls has a size of
-1. -/
theorem dump_places_agree_iff
    {events : List TracerEvent} {cut : Option (CallEntry × Option ℕ)}
    {last : List OtherLine} {printed : List PrintedLine} {dump : Bytes}
    (ran : traceProcess events cut last = some (printed, dump))
    (dumpFile : Text) :
    DumpAgrees dumpFile dump 0 printed ↔
      ∀ event ∈ events, event.Fits := by
  obtain ⟨⟨before, middle⟩, ranEvents, ran⟩ := Option.bind_eq_some_iff.1 ran
  cases cut with
  | none =>
    cases ran
    exact dumpAgrees_traceEvents_iff ranEvents List.prefix_rfl last
  | some cut =>
    obtain ⟨entry, unavailable⟩ := cut
    obtain ⟨⟨args, _⟩, entered, ran⟩ := Option.bind_eq_some_iff.1 ran
    cases ran
    obtain ⟨bytes, size, entered⟩ := CallEntry.entered_of_enter entered
    exact dumpAgrees_traceEvents_iff ranEvents ⟨_, entered.grown.eq_append.symm⟩
      (⟨(entry.cutLine args unavailable).text, none,
        CallEntry.parseLine_cutLine entered.plain unavailable, nofun⟩ :: last)

/-- A memory that is filled with one byte. -/
def filledMemory : Memory where
  readv _ len := some (List.replicate len 97)
  length_readv := by
    intro addr len bytes read
    cases read
    exact List.length_replicate
  iovec _ := none

theorem forall_mem_of_all {holds : Char → Prop} [DecidablePred holds]
    (all : text.all fun char => decide (holds char)) : ∀ char ∈ text, holds char :=
  fun char member => of_decide_eq_true (List.all_eq_true.1 all char member)

def badAddress : ErrorText where
  code := "FAULT".toList
  message := "Bad address".toList
  code_plain := forall_mem_of_all (by decide)
  message_plain := forall_mem_of_all (by decide)

instance neZero_hours : NeZero 24 := ⟨by decide⟩

instance neZero_minutes : NeZero 60 := ⟨by decide⟩

instance neZero_micros : NeZero 1000000 := ⟨by decide⟩

def writeEntry (count : Word) : CallEntry :=
  ⟨⟨9, 0, 0, 0⟩, filledMemory, false, .write 3 4096 count⟩

theorem dump_places_agree_iff_write :
    ∃ printed, traceProcess
        [.call (writeEntry 2) 22 (.returned 2),
          .call (writeEntry 1) 22 (.failed badAddress)]
        none [] = some (printed, [97, 97, 97]) ∧
      (DumpAgrees [] [97, 97, 97] 0 printed ↔
        ∀ event ∈ [.call (writeEntry 2) 22 (.returned 2),
            .call (writeEntry 1) 22 (.failed badAddress)],
          TracerEvent.Fits event) :=
  ⟨_, rfl, @dump_places_agree_iff _ none [] _ _ rfl []⟩

/-- Nothing is stored for a size of -1, but the parser counts 2 ^ 64 - 1 bytes
and looks for those of the next call behind them. -/
theorem oversized_write_shifts_places :
    ∃ printed, traceProcess
        [.call (writeEntry sizeMax) 3 (.failed badAddress),
          .call (writeEntry 1) 22 (.returned 1)]
        none [] = some (printed, [97]) ∧
      ¬ DumpAgrees [] [97] 0 printed := by
  refine ⟨_, rfl, fun agrees => ?_⟩
  obtain ⟨bytes, size, entered⟩ := @CallEntry.entered_of_enter (writeEntry sizeMax) [] [] _ rfl
  have fits := ((dumpAgrees_call entered (List.nil_prefix) _ _).1 agrees).1
  exact fits (List.mem_singleton_self _)

end Alice
