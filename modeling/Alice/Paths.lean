import Alice.Substitution
import Mathlib.Data.List.DropRight
import Mathlib.Data.List.Infix

/-! # Paths as texts

Empty components and `.` stay where they are, `..` goes one directory up and
stays at the root. -/

namespace LexicalPath

open Substitution

/-- A component that names an entry of a directory. -/
def IsName (part : List Char) : Prop :=
  part ≠ [] ∧ part ≠ ['.'] ∧ part ≠ ['.', '.'] ∧ '/' ∉ part

instance : DecidablePred IsName :=
  fun _ => inferInstanceAs (Decidable (_ ∧ _))

def names (text : List Char) : List (List Char) :=
  (text.splitOn '/').filter (· ≠ [])

def joined (parts : List (List Char)) : List Char :=
  parts.flatMap ('/' :: ·)

def render (parts : List (List Char)) : List Char :=
  if parts = [] then ['/'] else joined parts

def enter (place : List (List Char)) (part : List Char) : List (List Char) :=
  if part = [] ∨ part = ['.'] then place
  else if part = ['.', '.'] then place.dropLast
  else place ++ [part]

/-- The place that the components lead to from the root. -/
def resolve (parts : List (List Char)) : List (List Char) :=
  parts.foldl enter []

/-- An absolute path without empty, `.` and `..` components. -/
@[ext]
structure NormalPath where
  parts : List (List Char)
  isName : ∀ part ∈ parts, IsName part

def NormalPath.text (path : NormalPath) : List Char :=
  render path.parts

def basename (text : List Char) : List Char :=
  text.rtakeWhile (· != '/')

def dirname (text : List Char) : List Char :=
  let head := text.rdropWhile (· != '/')
  if head.all (· == '/') then head else head.rdropWhile (· == '/')

def doubleSlash : Pattern where
  behind
    | '/' :: '/' :: rest => some rest
    | _ => none
  shorter := by
    intro text rest isBehind
    split at isBehind
    · obtain rfl := Option.some.inj isBehind
      simp only [List.length_cons]
      omega
    · cases isBehind

/-- `//` replaced by `/`. -/
def collapse (text : List Char) : List Char :=
  doubleSlash.sub ['/'] text

theorem doubleSlash_behind_iff {text rest : List Char} :
    doubleSlash.behind text = some rest ↔ text = '/' :: [] ++ '/' :: rest := by
  constructor
  · intro isBehind
    simp only [doubleSlash] at isBehind
    split at isBehind
    · rw [Option.some.inj isBehind]
      rfl
    · cases isBehind
  · rintro rfl
    rfl

section

variable {parts : List (List Char)} {part : List Char}

@[simp] theorem joined_nil : joined [] = [] :=
  rfl

@[simp] theorem joined_cons : joined (part :: parts) = '/' :: part ++ joined parts :=
  rfl

theorem joined_append (front back : List (List Char)) :
    joined (front ++ back) = joined front ++ joined back :=
  List.flatMap_append

theorem render_of_ne_nil (notRoot : parts ≠ []) : render parts = joined parts :=
  if_neg notRoot

theorem head?_render : (render parts).head? = some '/' := by
  cases parts with
  | nil => rfl
  | cons part parts => rfl

theorem NormalPath.exists_text_eq (path : NormalPath) : ∃ rest, path.text = '/' :: rest :=
  List.head?_eq_some_iff.1 head?_render

/-! ## Components -/

theorem splitOn_slash_cons (text : List Char) :
    ('/' :: text).splitOn '/' = [] :: text.splitOn '/' :=
  List.splitOn_append_cons_self [] text

/-- A character that is not a slash belongs to the first component. -/
theorem exists_splitOn_cons {char : Char} (notSlash : char ≠ '/') (text : List Char) :
    ∃ first rest, text.splitOn '/' = first :: rest ∧
      (char :: text).splitOn '/' = (char :: first) :: rest := by
  obtain ⟨first, rest, isSplit⟩ := List.exists_cons_of_ne_nil (List.splitOn_ne_nil '/' text)
  refine ⟨first, rest, isSplit, ?_⟩
  rw [List.splitOn_cons_eq_if_modifyHead, isSplit, if_neg (by simpa using notSlash)]
  rfl

theorem noSlash_of_mem_splitOn {text : List Char} : ∀ part ∈ text.splitOn '/', '/' ∉ part := by
  induction text with
  | nil => simp
  | cons char text ih =>
    by_cases isSlash : char = '/'
    · subst isSlash
      intro part isPart
      rcases List.mem_cons.1 isPart with rfl | later
      · exact List.not_mem_nil
      · exact ih part later
    · obtain ⟨first, rest, isSplit, isSplit'⟩ := exists_splitOn_cons isSlash text
      rw [isSplit] at ih
      rw [isSplit']
      intro part isPart
      rcases List.mem_cons.1 isPart with rfl | later
      · have inFirst := ih first List.mem_cons_self
        exact List.not_mem_cons_of_ne_of_not_mem (Ne.symm isSlash) inFirst
      · exact ih part (List.mem_cons_of_mem _ later)

theorem joined_splitOn (text : List Char) : joined (text.splitOn '/') = '/' :: text := by
  induction text with
  | nil => rfl
  | cons char text ih =>
    by_cases isSlash : char = '/'
    · subst isSlash
      rw [splitOn_slash_cons, joined_cons, ih]
      rfl
    · obtain ⟨first, rest, isSplit, isSplit'⟩ := exists_splitOn_cons isSlash text
      rw [isSplit, joined_cons, List.cons_append] at ih
      rw [isSplit', joined_cons, List.cons_append, List.cons_append, List.cons.inj ih |>.2]

theorem splitOn_append_joined (noSlash : ∀ member ∈ part :: parts, '/' ∉ member) :
    (part ++ joined parts).splitOn '/' = part :: parts := by
  induction parts generalizing part with
  | nil =>
    rw [joined_nil, List.append_nil]
    exact List.splitOn_eq_singleton (noSlash part List.mem_cons_self)
  | cons next parts ih =>
    rw [joined_cons, List.cons_append, List.splitOn_append_cons_self,
      List.splitOn_eq_singleton (noSlash part List.mem_cons_self), ih fun member isMember =>
        noSlash member (List.mem_cons_of_mem _ isMember),
      List.singleton_append]

theorem joined_inj {parts' : List (List Char)} (noSlash : ∀ part ∈ parts, '/' ∉ part)
    (noSlash' : ∀ part ∈ parts', '/' ∉ part) : joined parts = joined parts' ↔ parts = parts' := by
  constructor
  · intro same
    cases parts with
    | nil =>
      cases parts' with
      | nil => rfl
      | cons part' parts' => cases same
    | cons part parts =>
      cases parts' with
      | nil => cases same
      | cons part' parts' =>
        have sameRest : part ++ joined parts = part' ++ joined parts' := (List.cons.inj same).2
        rw [← splitOn_append_joined noSlash, ← splitOn_append_joined noSlash', sameRest]
  · exact congrArg joined

theorem names_append_slash (front back : List Char) :
    names (front ++ '/' :: back) = names front ++ names back := by
  rw [names, List.splitOn_append_cons_self, List.filter_append]
  rfl

theorem names_slash (text : List Char) : names ('/' :: text) = names text :=
  names_append_slash [] text

theorem names_of_isName (isName : IsName part) : names part = [part] := by
  rw [names, List.splitOn_eq_singleton isName.2.2.2]
  simp [isName.1]

theorem names_append_joined (front : List Char) (isName : ∀ part ∈ parts, IsName part) :
    names (front ++ joined parts) = names front ++ parts := by
  induction parts generalizing front with
  | nil => rw [joined_nil, List.append_nil, List.append_nil]
  | cons part parts ih =>
    have rest := fun part isMember => isName part (List.mem_cons_of_mem _ isMember)
    rw [joined_cons, List.cons_append, names_append_slash, ih part rest,
      names_of_isName (isName part List.mem_cons_self), List.singleton_append]

theorem NormalPath.names_text (path : NormalPath) : names path.text = path.parts := by
  obtain ⟨parts, isName⟩ := path
  rw [NormalPath.text]
  cases parts with
  | nil => rfl
  | cons part parts =>
    exact names_append_joined [] isName

theorem names_append_collapse (front text : List Char) :
    names (front ++ collapse text) = names (front ++ text) := by
  induction text using doubleSlash.scan_induction generalizing front with
  | nil => rfl
  | found text rest isBehind ih =>
    obtain rfl := doubleSlash_behind_iff.1 isBehind
    have same := ih []
    rw [collapse, Pattern.sub_of_behind isBehind, List.singleton_append,
      List.singleton_append, names_append_slash, names_append_slash, names_slash]
    exact congrArg (names front ++ ·) same
  | passed char text notBehind ih =>
    rw [collapse, Pattern.sub_cons_of_not_behind notBehind,
      List.append_cons, List.append_cons front char text]
    exact ih (front ++ [char])

theorem names_collapse (text : List Char) : names (collapse text) = names text :=
  names_append_collapse [] text

theorem head?_collapse (text : List Char) : (collapse text).head? = text.head? := by
  cases isBehind : doubleSlash.behind text with
  | some rest =>
    obtain rfl := doubleSlash_behind_iff.1 isBehind
    rfl
  | none =>
    cases text with
    | nil => rfl
    | cons char text =>
      rw [collapse, Pattern.sub_cons_of_not_behind isBehind]
      rfl

/-! ## Resolution -/

theorem isName_of_mem_enter {place : List (List Char)} (isName : ∀ part ∈ place, IsName part)
    (noSlash : '/' ∉ part) : ∀ member ∈ enter place part, IsName member := by
  intro member isMember
  rw [enter] at isMember
  split at isMember
  · exact isName member isMember
  · split at isMember
    · exact isName member (List.mem_of_mem_dropLast isMember)
    · rcases List.mem_append.1 isMember with before | isLast
      · exact isName member before
      · obtain rfl := List.mem_singleton.1 isLast
        rename_i notStaying notUp
        obtain ⟨notEmpty, notDot⟩ := not_or.1 notStaying
        exact ⟨notEmpty, notDot, notUp, noSlash⟩

theorem isName_of_mem_foldl_enter {place : List (List Char)}
    (isName : ∀ part ∈ place, IsName part) (noSlash : ∀ part ∈ parts, '/' ∉ part) :
    ∀ part ∈ parts.foldl enter place, IsName part := by
  induction parts generalizing place with
  | nil => exact isName
  | cons part parts ih =>
    refine ih (isName_of_mem_enter isName (noSlash part List.mem_cons_self)) ?_
    exact fun part isMember => noSlash part (List.mem_cons_of_mem _ isMember)

theorem isName_of_mem_resolve (noSlash : ∀ part ∈ parts, '/' ∉ part) :
    ∀ part ∈ resolve parts, IsName part :=
  isName_of_mem_foldl_enter (by simp) noSlash

theorem enter_of_isName (isName : IsName part) (place : List (List Char)) :
    enter place part = place ++ [part] := by
  rw [enter, if_neg (not_or.2 ⟨isName.1, isName.2.1⟩), if_neg isName.2.2.1]

theorem foldl_enter_of_isName (isName : ∀ part ∈ parts, IsName part) (place : List (List Char)) :
    parts.foldl enter place = place ++ parts := by
  induction parts generalizing place with
  | nil => exact (List.append_nil place).symm
  | cons part parts ih =>
    have rest := fun part isMember => isName part (List.mem_cons_of_mem _ isMember)
    rw [List.foldl_cons, enter_of_isName (isName part List.mem_cons_self),
      ih rest, ← List.append_cons]

theorem resolve_of_isName (isName : ∀ part ∈ parts, IsName part) : resolve parts = parts :=
  foldl_enter_of_isName isName []

/-! ## Parents and entries -/

theorem rtakeWhile_append_slash (noSlash : '/' ∉ part) (front : List Char) :
    (front ++ '/' :: part).rtakeWhile (· != '/') = part := by
  rw [List.rtakeWhile, List.reverse_append, List.reverse_cons,
    List.append_assoc, List.takeWhile_append_of_pos]
  · simp
  · intro char isChar
    have inPart := List.mem_reverse.1 isChar
    exact bne_iff_ne.2 fun isSlash => noSlash (isSlash ▸ inPart)

theorem rdropWhile_append_slash (noSlash : '/' ∉ part) (front : List Char) :
    (front ++ '/' :: part).rdropWhile (· != '/') = front ++ ['/'] := by
  have whole := @List.rdropWhile_append_rtakeWhile _ (· != '/') (front ++ '/' :: part)
  rw [rtakeWhile_append_slash noSlash] at whole
  exact List.append_cancel_right (whole.trans (List.append_cons _ _ _))

theorem rdropWhile_joined (isName : IsName part) (front : List (List Char)) :
    (joined (front ++ [part]) ++ ['/']).rdropWhile (· == '/') = joined (front ++ [part]) := by
  obtain ⟨part, char, rfl⟩ := (List.eq_nil_or_concat' part).resolve_left isName.1
  have notSlash : char ≠ '/' := fun isSlash => isName.2.2.2 (isSlash ▸ by simp)
  have isConcat : joined (front ++ [part ++ [char]]) = (joined front ++ '/' :: part) ++ [char] := by
    simp [joined_append]
  rw [List.rdropWhile_concat_pos (· == '/') _ _ rfl, isConcat,
    List.rdropWhile_concat_neg (· == '/') _ _ (by simpa using notSlash)]

theorem basename_render (isName : ∀ part ∈ parts, IsName part) :
    basename (render parts) = parts.getLast?.getD [] := by
  obtain rfl | ⟨front, last, rfl⟩ := List.eq_nil_or_concat' parts
  · rfl
  · rw [render_of_ne_nil (by simp), joined_append, basename]
    have isLast := isName last (by simp)
    simp only [joined_cons, joined_nil, List.append_nil, List.getLast?_concat, Option.getD_some]
    exact rtakeWhile_append_slash isLast.2.2.2 _

theorem dirname_render (isName : ∀ part ∈ parts, IsName part) :
    dirname (render parts) = render parts.dropLast := by
  obtain rfl | ⟨front, last, rfl⟩ := List.eq_nil_or_concat' parts
  · rfl
  · have isLast := isName last (by simp)
    have isHead : (joined (front ++ [last])).rdropWhile (· != '/') = joined front ++ ['/'] := by
      rw [joined_append]
      simp only [joined_cons, joined_nil, List.append_nil]
      exact rdropWhile_append_slash isLast.2.2.2 _
    rw [render_of_ne_nil (by simp), dirname, isHead, List.dropLast_concat]
    obtain rfl | ⟨front, part, rfl⟩ := List.eq_nil_or_concat' front
    · rfl
    · have isPart := isName part (by simp)
      rw [render_of_ne_nil (by simp), rdropWhile_joined isPart, if_neg]
      intro allSlashes
      obtain ⟨char, rest, rfl⟩ := List.exists_cons_of_ne_nil isPart.1
      have isSlash := List.all_eq_true.1 allSlashes char (by simp [joined_append])
      exact isPart.2.2.2 (eq_of_beq isSlash ▸ List.mem_cons_self)

/-! ## Places nearer to the root -/

/-- The first place lacks some components of the second one; from there on
they are entered by the same components. -/
def Behind (place place' : List (List Char)) : Prop :=
  ∃ front front' common, front <+: front' ∧ place = front ++ common ∧ place' = front' ++ common

def ReachesRoot (place parts : List (List Char)) : Prop :=
  ∃ front, front <+: parts ∧ front.foldl enter place = []

theorem dropLast_prefix_dropLast {front front' : List (List Char)} (isFront : front <+: front') :
    front.dropLast <+: front'.dropLast := by
  obtain ⟨back, rfl⟩ := isFront
  obtain rfl | ⟨back, last, rfl⟩ := List.eq_nil_or_concat' back
  · rw [List.append_nil]
  · rw [← List.append_assoc, List.dropLast_concat]
    exact (List.dropLast_prefix front).trans (List.prefix_append _ _)

namespace Behind

variable {place place' : List (List Char)}

theorem of_front (isFront : place <+: place') : Behind place place' :=
  ⟨place, place', [], isFront, (List.append_nil _).symm, (List.append_nil _).symm⟩

section

variable (behind : Behind place place')
include behind

theorem length_le : place.length ≤ place'.length := by
  obtain ⟨front, front', common, isFront, rfl, rfl⟩ := behind
  rw [List.length_append, List.length_append]
  exact Nat.add_le_add_right isFront.length_le _

theorem enter (part : List Char) : Behind (enter place part) (enter place' part) := by
  obtain ⟨front, front', common, isFront, rfl, rfl⟩ := behind
  rw [LexicalPath.enter, LexicalPath.enter]
  split
  · exact ⟨front, front', common, isFront, rfl, rfl⟩
  · split
    · obtain rfl | ⟨common, last, rfl⟩ := List.eq_nil_or_concat' common
      · rw [List.append_nil, List.append_nil]
        exact of_front (dropLast_prefix_dropLast isFront)
      · refine ⟨front, front', common, isFront, ?_, ?_⟩
        · rw [← List.append_assoc, List.dropLast_concat]
        · rw [← List.append_assoc, List.dropLast_concat]
    · exact ⟨front, front', common ++ [part], isFront,
        List.append_assoc _ _ _, List.append_assoc _ _ _⟩

theorem foldl_enter (parts : List (List Char)) : Behind (parts.foldl LexicalPath.enter place)
      (parts.foldl LexicalPath.enter place') := by
  induction parts generalizing place place' with
  | nil => exact behind
  | cons part parts ih => exact ih (behind.enter part)

/-- A place catches up at the root only. -/
theorem reachesRoot (shorter : place.length < place'.length)
    (sameLength : (parts.foldl LexicalPath.enter place').length ≤
      (parts.foldl LexicalPath.enter place).length) :
    ReachesRoot place' parts := by
  induction parts generalizing place place' with
  | nil => exact absurd sameLength (Nat.not_le.2 shorter)
  | cons part parts ih =>
    by_cases stillShorter : (LexicalPath.enter place part).length <
        (LexicalPath.enter place' part).length
    · obtain ⟨front, isFront, atRoot⟩ := ih (behind.enter part) stillShorter sameLength
      exact ⟨part :: front, List.cons_prefix_cons.2 ⟨rfl, isFront⟩, atRoot⟩
    · refine ⟨[part], List.cons_prefix_cons.2 ⟨rfl, List.nil_prefix⟩, ?_⟩
      rw [LexicalPath.enter, LexicalPath.enter] at stillShorter
      rw [List.foldl_cons, List.foldl_nil, LexicalPath.enter]
      split at stillShorter
      · exact absurd shorter stillShorter
      · split at stillShorter
        · rename_i notStaying isUp
          rw [if_neg notStaying, if_pos isUp]
          rw [List.length_dropLast, List.length_dropLast] at stillShorter
          apply List.length_eq_zero_iff.1
          rw [List.length_dropLast]
          omega
        · rw [List.length_append, List.length_append] at stillShorter
          exact absurd (Nat.add_lt_add_right shorter _) stillShorter

theorem foldl_eq_of_reachesRoot (reaches : ReachesRoot place' parts) :
    parts.foldl LexicalPath.enter place = parts.foldl LexicalPath.enter place' := by
  obtain ⟨front, ⟨back, rfl⟩, atRoot⟩ := reaches
  have below := (behind.foldl_enter front).length_le
  rw [atRoot, List.length_nil] at below
  have atRoot' := List.length_eq_zero_iff.1 (Nat.le_zero.1 below)
  rw [List.foldl_append, List.foldl_append, atRoot, atRoot']

end

end Behind

/-! ## Names with a common beginning -/

theorem isName_append (isName : IsName part) {char : Char} (notDot : char ≠ '.')
    (notSlash : char ≠ '/') : IsName (part ++ [char]) := by
  refine ⟨by simp, ?_, ?_, ?_⟩
  · intro isDot
    have isLast := congrArg List.getLast? isDot
    simp [notDot] at isLast
  · intro isDots
    have isLast := congrArg List.getLast? isDots
    simp [notDot] at isLast
  · intro hasSlash
    rcases List.mem_append.1 hasSlash with before | isLast
    · exact isName.2.2.2 before
    · exact notSlash (List.mem_singleton.1 isLast).symm

/-- The text of a path can go on with a path that is not below it. -/
theorem NormalPath.exists_beside (path : NormalPath) (notRoot : path.parts ≠ []) :
    ∃ beside : NormalPath, beside.text = path.text ++ ['x'] ∧ ¬ path.parts <+: beside.parts := by
  obtain ⟨parts, isName⟩ := path
  obtain rfl | ⟨front, last, rfl⟩ := List.eq_nil_or_concat' parts
  · exact absurd rfl notRoot
  · have isLast : IsName (last ++ ['x']) :=
      isName_append (isName last (by simp)) (by decide) (by decide)
    have isName' : ∀ part ∈ front ++ [last ++ ['x']], IsName part := by
      intro part isPart
      rcases List.mem_append.1 isPart with before | inLast
      · exact isName part (List.mem_append_left _ before)
      · exact List.mem_singleton.1 inLast ▸ isLast
    refine ⟨⟨front ++ [last ++ ['x']], isName'⟩, ?_, ?_⟩
    · rw [NormalPath.text, NormalPath.text, render_of_ne_nil (by simp), render_of_ne_nil (by simp)]
      simp [joined_append]
    · intro below
      have same := below.eq_of_length (by simp)
      simp at same

end

end LexicalPath
