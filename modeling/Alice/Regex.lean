import Mathlib.Data.List.Basic
import Mathlib.Logic.Function.Iterate

/-! # Searching for regular expressions

The expressions look only at the text that they match and at whether it stands
at the start, so a match survives when characters are added at the end.

The second part reads the syntax of Python's `re`: characters, `.`, sets,
escapes, groups, alternatives, repetitions, `^` and `\A`; there are no other
assertions, no references to groups and no flags. -/

inductive Regex where
  | empty
  | start
  | one (accepts : Char → Bool)
  | seq (first second : Regex)
  | alt (first second : Regex)
  | star (body : Regex)

namespace Regex

/-! ## Matching -/

/-- What can remain after some rounds, each of which takes a character. -/
def iterate (step : Bool → List Char → List (List Char)) : ℕ → Bool → List Char → List (List Char)
  | 0, _, text => [text]
  | fuel + 1, atStart, text =>
      text :: (step atStart text).flatMap fun rest =>
        if rest.length < text.length then iterate step fuel false rest
        else []

/-- What can remain of the text behind a match at its front. -/
def rests : Regex → Bool → List Char → List (List Char)
  | empty, _, text => [text]
  | start, atStart, text => if atStart then [text] else []
  | one _, _, [] => []
  | one accepts, _, char :: rest => if accepts char then [rest] else []
  | seq first second, atStart, text =>
      (first.rests atStart text).flatMap fun rest =>
        second.rests (atStart && rest.length == text.length) rest
  | alt first second, atStart, text =>
      first.rests atStart text ++ second.rests atStart text
  | star body, atStart, text =>
      iterate body.rests text.length atStart text

def found (expression : Regex) : Bool → List Char → Bool
  | atStart, [] => !(expression.rests atStart []).isEmpty
  | atStart, char :: rest =>
      !(expression.rests atStart (char :: rest)).isEmpty || expression.found false rest

/-- `re.search`, as a truth value. -/
def search (expression : Regex) (text : List Char) : Bool :=
  expression.found true text

/-! ## Texts that go on -/

section

variable {expression : Regex} {atStart : Bool}
  {text rest : List Char} (more : List Char)

theorem mem_iterate_append {step : Bool → List Char → List (List Char)}
    (keeps : ∀ {atStart text rest}, rest ∈ step atStart text →
      rest ++ more ∈ step atStart (text ++ more)) {fuel : ℕ} (extra : ℕ)
    (remains : rest ∈ iterate step fuel atStart text) :
    rest ++ more ∈ iterate step (fuel + extra) atStart (text ++ more) := by
  induction fuel generalizing atStart text with
  | zero =>
    obtain rfl := List.mem_singleton.1 remains
    cases extra with
    | zero => exact List.mem_singleton.2 rfl
    | succ extra =>
      exact List.mem_cons_self
  | succ fuel ih =>
    rw [Nat.succ_add, iterate]
    rcases List.mem_cons.1 remains with rfl | later
    · exact List.mem_cons_self
    · obtain ⟨next, stepped, after⟩ := List.mem_flatMap.1 later
      split at after
      case isTrue shorter =>
        refine List.mem_cons_of_mem _ (List.mem_flatMap.2 ⟨next ++ more, keeps stepped, ?_⟩)
        rw [if_pos (by simpa using shorter)]
        exact ih after
      case isFalse => nomatch after

theorem mem_rests_append (remains : rest ∈ expression.rests atStart text) :
    rest ++ more ∈ expression.rests atStart (text ++ more) := by
  induction expression generalizing atStart text rest with
  | empty =>
    obtain rfl := List.mem_singleton.1 remains
    exact List.mem_singleton.2 rfl
  | start =>
    cases atStart with
    | false => cases remains
    | true =>
      obtain rfl := List.mem_singleton.1 remains
      exact List.mem_singleton.2 rfl
  | one accepts =>
    cases text with
    | nil => cases remains
    | cons char text =>
      rw [rests] at remains
      rw [List.cons_append, rests]
      split at remains
      case isTrue accepted =>
        obtain rfl := List.mem_singleton.1 remains
        rw [if_pos accepted]
        exact List.mem_singleton.2 rfl
      case isFalse => nomatch remains
  | seq first second firstHypothesis secondHypothesis =>
    obtain ⟨middle, matched, after⟩ := List.mem_flatMap.1 remains
    refine List.mem_flatMap.2 ⟨middle ++ more, firstHypothesis matched, ?_⟩
    have sameFlag : ((middle ++ more).length == (text ++ more).length) =
          (middle.length == text.length) := by
      simp
    rw [sameFlag]
    exact secondHypothesis after
  | alt first second firstHypothesis secondHypothesis =>
    rcases List.mem_append.1 remains with matched | matched
    · exact List.mem_append_left _ (firstHypothesis matched)
    · exact List.mem_append_right _ (secondHypothesis matched)
  | star body ih =>
    rw [rests] at remains ⊢
    rw [List.length_append]
    exact mem_iterate_append more ih more.length remains

theorem isEmpty_rests_append (matched : (expression.rests atStart text).isEmpty = false) :
    (expression.rests atStart (text ++ more)).isEmpty = false := by
  obtain ⟨rest, remains⟩ := List.exists_mem_of_ne_nil _ (List.isEmpty_eq_false_iff.1 matched)
  exact List.isEmpty_eq_false_iff_exists_mem.2 ⟨rest ++ more, mem_rests_append more remains⟩

theorem found_of_rests (matched : (expression.rests atStart text).isEmpty = false) :
    expression.found atStart text = true := by
  cases text with
  | nil => rw [found, matched, Bool.not_false]
  | cons char text => rw [found, matched, Bool.not_false, Bool.true_or]

theorem found_append (isFound : expression.found atStart text = true) :
    expression.found atStart (text ++ more) = true := by
  induction text generalizing atStart with
  | nil =>
    rw [found, Bool.not_eq_true'] at isFound
    exact found_of_rests (isEmpty_rests_append more isFound)
  | cons char text ih =>
    rw [found, Bool.or_eq_true, Bool.not_eq_true'] at isFound
    rcases isFound with matched | later
    · exact found_of_rests (isEmpty_rests_append more matched)
    · rw [List.cons_append, found, ih later, Bool.or_true]

theorem search_append (isFound : expression.search text = true) :
    expression.search (text ++ more) = true :=
  found_append more isFound

end

/-! ## Reading expressions -/

/-- The characters that a text matches one by one. -/
def literal : List Char → Regex
  | [] => empty
  | char :: text => seq (one (· == char)) (literal text)

def repeated (body : Regex) (least : ℕ) : Option ℕ → Regex
  | none => (seq body)^[least] (star body)
  | some most =>
      (seq body)^[least] ((fun rest => alt (seq body rest) empty)^[most - least] empty)

/-- The classes of characters with an escape of their own. -/
inductive Category where
  | digit
  | space
  | word

def isDigit (char : Char) : Bool :=
  '0' ≤ char && char ≤ '9'

def isLetter (char : Char) : Bool :=
  ('a' ≤ char && char ≤ 'z') || ('A' ≤ char && char ≤ 'Z')

/-- The limit of `re` on the numbers of a repetition. -/
def maxRepeat : ℕ := 4294967295

def number (digits : List Char) : ℕ :=
  digits.foldl (fun value digit => 10 * value + (digit.toNat - 48)) 0

/-- The bounds between braces, if what follows the opening one has them; it
is an ordinary character otherwise. -/
def braces (text : List Char) : Option ((ℕ × Option ℕ) × List Char) :=
  let least := text.takeWhile isDigit
  match text.dropWhile isDigit with
  | '}' :: rest =>
      if least = [] then none
      else some ((number least, some (number least)), rest)
  | ',' :: rest =>
      let most := rest.takeWhile isDigit
      match rest.dropWhile isDigit with
      | '}' :: rest =>
          some ((number least,
            if most = [] then none else some (number most)), rest)
      | _ => none
  | _ => none

def bounds : List Char → Option ((ℕ × Option ℕ) × List Char)
  | '?' :: rest => some ((0, some 1), rest)
  | '*' :: rest => some ((0, none), rest)
  | '+' :: rest => some ((1, none), rest)
  | '{' :: rest => braces rest
  | _ => none

def validBounds (least : ℕ) (most : Option ℕ) : Bool :=
  least < maxRepeat && most.all fun most => least ≤ most && most < maxRepeat

/-- An item with the repetition that may follow it.  An assertion cannot be
repeated, and a repetition cannot be repeated again. -/
def quantified (item : Regex) (repeatable : Bool) (text : List Char) : Option (Regex × List Char) :=
  match bounds text with
  | none => some (item, text)
  | some ((least, most), rest) =>
      let rest := if rest.head? = some '?' then rest.tail else rest
      if repeatable && validBounds least most && (bounds rest).isNone then
        some (item.repeated least most, rest)
      else none

section

variable (category : Category → Char → Bool)

/-- The characters that a letter after a backslash stands for. -/
def escaped : Char → Option (Char → Bool)
  | 'd' => some (category .digit)
  | 'D' => some fun char => !category .digit char
  | 's' => some (category .space)
  | 'S' => some fun char => !category .space char
  | 'w' => some (category .word)
  | 'W' => some fun char => !category .word char
  | _ => none

/-- The character that an escape stands for; letters and digits have no
others. -/
def control : Char → Option Char
  | 'a' => some '\x07'
  | 'f' => some '\x0c'
  | 'n' => some '\n'
  | 'r' => some '\r'
  | 't' => some '\t'
  | 'v' => some '\x0b'
  | char => if isLetter char || isDigit char then none else some char

/-- A character or a class of characters at the front of a set. -/
def setMember : List Char → Option ((Char ⊕ (Char → Bool)) × List Char)
  | [] => none
  | ['\\'] => none
  | '\\' :: 'b' :: rest => some (.inl '\x08', rest)
  | '\\' :: char :: rest =>
      match escaped category char with
      | some accepts => some (.inr accepts, rest)
      | none => (control char).map fun char => (.inl char, rest)
  | char :: rest => some (.inl char, rest)

def memberAccepts : Char ⊕ (Char → Bool) → Char → Bool
  | .inl member, char => char == member
  | .inr accepts, char => accepts char

/-- The members of a set up to its closing bracket, which is an ordinary
character in the first place. -/
def setMembers : ℕ → Bool → List Char → Option ((Char → Bool) × List Char)
  | 0, _, _ => none
  | fuel + 1, isFirst, text =>
      if !isFirst && text.head? == some ']' then
        some (fun _ => false, text.tail)
      else do
        let (member, rest) ← setMember category text
        match rest with
        | '-' :: ']' :: rest =>
            some (fun char => memberAccepts member char || char == '-', rest)
        | '-' :: rest =>
            let (last, rest) ← setMember category rest
            match member, last with
            | .inl low, .inl high =>
                if low ≤ high then
                  let (others, rest) ← setMembers fuel false rest
                  some (fun char =>
                    (low ≤ char && char ≤ high) || others char, rest)
                else none
            | _, _ => none
        | rest =>
            let (others, rest) ← setMembers fuel false rest
            some (fun char => memberAccepts member char || others char, rest)

mutual

/-- Sequences with bars between them. -/
def alternatives : ℕ → List Char → Option (Regex × List Char)
  | 0, _ => none
  | fuel + 1, text => do
      let (first, rest) ← sequence fuel text
      match rest with
      | '|' :: rest =>
          let (others, rest) ← alternatives fuel rest
          some (alt first others, rest)
      | rest => some (first, rest)

/-- Items up to a bar, a closing parenthesis or the end. -/
def sequence : ℕ → List Char → Option (Regex × List Char)
  | 0, _ => none
  | fuel + 1, text =>
      match text with
      | [] => some (empty, text)
      | '|' :: _ => some (empty, text)
      | ')' :: _ => some (empty, text)
      | _ => do
          let (item, repeatable, rest) ← atom fuel text
          let (item, rest) ← quantified item repeatable rest
          let (others, rest) ← sequence fuel rest
          some (seq item others, rest)

/-- One item, and whether it can be repeated. -/
def atom : ℕ → List Char → Option (Regex × Bool × List Char)
  | 0, _ => none
  | fuel + 1, text =>
      match text with
      | [] => none
      | '(' :: '?' :: ':' :: rest => group fuel rest
      | '(' :: '?' :: _ => none
      | '(' :: rest => group fuel rest
      | '[' :: '^' :: rest => do
          let (accepts, rest) ← setMembers category rest.length true rest
          some (one fun char => !accepts char, true, rest)
      | '[' :: rest => do
          let (accepts, rest) ← setMembers category rest.length true rest
          some (one accepts, true, rest)
      | '\\' :: 'A' :: rest => some (start, false, rest)
      | '\\' :: char :: rest =>
          match escaped category char with
          | some accepts => some (one accepts, true, rest)
          | none =>
              (control char).map fun char => (one (· == char), true, rest)
      | '.' :: rest => some (one (· != '\n'), true, rest)
      | '^' :: rest => some (start, false, rest)
      | char :: rest =>
          if char == '$' || char == '\\' || (bounds text).isSome then none
          else some (one (· == char), true, rest)

/-- The rest of a group behind its opening. -/
def group : ℕ → List Char → Option (Regex × Bool × List Char)
  | 0, _ => none
  | fuel + 1, text => do
      let (inside, rest) ← alternatives fuel text
      match rest with
      | ')' :: rest => some (inside, true, rest)
      | _ => none

end

/-- `re.compile`; there is no result for what is not an expression or not
covered.  An item takes at most four calls. -/
def parse (text : List Char) : Option Regex :=
  match alternatives category (4 * text.length + 2) text with
  | some (expression, []) => some expression
  | _ => none

/-! ## Plain texts -/

def specials : List Char :=
  ['.', '^', '$', '*', '+', '?', '{', '[', '\\', '|', '(', ')']

variable {text : List Char} (plain : ∀ char ∈ text, char ∉ specials)

section

include plain

theorem bounds_of_plain : bounds text = none := by
  unfold bounds
  split
  case h_5 => rfl
  all_goals exact absurd (plain _ List.mem_cons_self) (by decide)

theorem quantified_of_plain {item : Regex} {repeatable : Bool} :
    quantified item repeatable text = some (item, text) := by
  rw [quantified, bounds_of_plain plain]

end

theorem atom_of_plain {char : Char} (plain : ∀ member ∈ char :: text, member ∉ specials)
    (fuel : ℕ) : atom category (fuel + 1) (char :: text) = some (one (· == char), true, text) := by
  have isPlain := plain char List.mem_cons_self
  unfold atom
  split
  case h_11 =>
    rename_i isCons
    obtain ⟨rfl, rfl⟩ := List.cons.inj isCons
    have noDollar : char ≠ '$' := by
      rintro rfl
      exact absurd isPlain (by decide)
    have noBackslash : char ≠ '\\' := by
      rintro rfl
      exact absurd isPlain (by decide)
    simp [bounds_of_plain plain, noDollar, noBackslash]
  all_goals first
    | contradiction
    | rename_i isCons
      obtain ⟨rfl, rfl⟩ := List.cons.inj isCons
      exact absurd isPlain (by decide)

include plain

theorem sequence_of_plain {fuel : ℕ} (enough : text.length < fuel) :
    sequence category (fuel + 1) text = some (literal text, []) := by
  induction text generalizing fuel with
  | nil => rfl
  | cons char text ih =>
    have isPlain := plain char List.mem_cons_self
    have rest : ∀ member ∈ text, member ∉ specials :=
      fun member isMember => plain member (List.mem_cons_of_mem _ isMember)
    obtain ⟨fuel, rfl⟩ : ∃ before, fuel = before + 1 := ⟨fuel - 1, by omega⟩
    unfold sequence
    split
    case h_4 =>
      have isRest := ih rest (Nat.lt_of_succ_lt_succ enough)
      simp only [atom_of_plain category plain, quantified_of_plain rest,
        isRest, Option.bind_eq_bind, Option.bind_some, literal]
    all_goals first
      | contradiction
      | rename_i isCons
        obtain ⟨rfl, rfl⟩ := List.cons.inj isCons
        exact absurd isPlain (by decide)

theorem parse_start_of_plain : parse category ('^' :: text) = some (seq start (literal text)) := by
  have isRest : sequence category (4 * text.length + 4) text = some (literal text, []) :=
    sequence_of_plain category plain (by omega)
  have isSequence : sequence category (4 * text.length + 5) ('^' :: text) =
        some (seq start (literal text), []) := by
    rw [sequence]
    simp only [atom, quantified_of_plain plain, isRest, Option.bind_eq_bind, Option.bind_some]
    all_goals nofun
  rw [parse, List.length_cons, Nat.mul_succ, alternatives, isSequence]
  rfl

end

section

variable {atStart : Bool}

theorem rests_literal (text path : List Char) : (literal text).rests atStart path =
      if text <+: path then [path.drop text.length] else [] := by
  induction text generalizing atStart path with
  | nil => rfl
  | cons char text ih =>
    rw [literal, rests]
    cases path with
    | nil => rfl
    | cons first path =>
      rw [rests]
      by_cases same : first = char
      · subst same
        simp [ih, List.cons_prefix_cons]
      · simp [same, List.cons_prefix_cons, Ne.symm same]

theorem found_seq_start_false (expression : Regex) (text : List Char) :
    (seq start expression).found false text = false := by
  induction text with
  | nil => rfl
  | cons char text ih =>
    rw [found, ih]
    rfl

theorem search_seq_start (expression : Regex) (text : List Char) :
    (seq start expression).search text = !(expression.rests true text).isEmpty := by
  have isRests : (seq start expression).rests true text = expression.rests true text := by
    simp [rests]
  cases text with
  | nil => rw [search, found, isRests]
  | cons char text => rw [search, found, isRests, found_seq_start_false, Bool.or_false]

theorem search_start_literal (text path : List Char) :
    (seq start (literal text)).search path = decide (text <+: path) := by
  rw [search_seq_start, rests_literal]
  by_cases isFront : text <+: path <;> simp [isFront]

end

end Regex
