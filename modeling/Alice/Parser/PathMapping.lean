import Alice.Parser.TraceFiles
import Alice.Paths
import Alice.Regex

/-! # `is_interesting` and `replayed_path`

A path is interesting if it matches `^` and the text of the base path, unless
another expression is given; its counterpart has the first occurrence of the
base path replaced.  Neither looks at where a component ends. -/

namespace Alice

open Checked LexicalPath
open LexicalPath (NormalPath)

structure AliceConfig where
  basePath : Text
  interestingPathString : Text
  scratchpadDir : Text
  initialSnapshot : Text

/-- The base path without one slash at its end. -/
def withoutSlash (basePath : Text) : Text :=
  if basePath.getLast? = some '/' then basePath.dropLast else basePath

/-- The part of `init_aliceconfig` that is about paths.  An expression that is
not given is `False` there. -/
def initAliceconfig (basePath : Text) (interestingPathString : Option Text)
    (scratchpadDir initialSnapshot : Text) :
    Except PyError AliceConfig := do
  assertThat (basePath.head? = some '/')
  pure {
    basePath := withoutSlash basePath
    interestingPathString := interestingPathString.getD ('^' :: withoutSlash basePath)
    scratchpadDir := scratchpadDir
    initialSnapshot := initialSnapshot }

def replaceFirst (old new : Text) : Text → Text
  | [] => if old = [] then new else []
  | char :: rest =>
      if old <+: char :: rest then new ++ (char :: rest).drop old.length
      else char :: replaceFirst old new rest

namespace AliceConfig

variable (config : AliceConfig)

/-- The counterpart of a path in another directory; `none` is `False`. -/
def mappedPath (directory name : Text) : Option Text :=
  if config.basePath <+: name then
    some (LexicalPath.collapse (replaceFirst config.basePath (directory ++ ['/']) name))
  else none

def initialPath (name : Text) : Option Text :=
  config.mappedPath config.initialSnapshot name

def replayedPath (name : Text) : Option Text :=
  config.mappedPath config.scratchpadDir name

/-- There is no result if the string is not an expression, or not one that
`Regex.parse` covers. -/
def isInteresting (category : Regex.Category → Char → Bool) (path : Text) : Option Bool :=
  (Regex.parse category config.interestingPathString).map (·.search path)

end AliceConfig

/-! ## What is computed -/

variable {basePath : Text}

theorem initAliceconfig_eq_ok {scratchpadDir initialSnapshot : Text}
    {interestingPathString : Option Text} {config : AliceConfig}
    (given : initAliceconfig basePath interestingPathString scratchpadDir
      initialSnapshot = .ok config) : basePath.head? = some '/' ∧
      config.basePath = withoutSlash basePath ∧ config.interestingPathString =
        interestingPathString.getD ('^' :: config.basePath) ∧
      config.scratchpadDir = scratchpadDir := by
  obtain ⟨_, asserted, isConfig⟩ := bind_eq_ok_iff.1 given
  obtain rfl := pure_eq_ok_iff.1 isConfig
  refine ⟨?_, rfl, rfl, rfl⟩
  by_contra notAbsolute
  unfold assertThat at asserted
  rw [if_neg notAbsolute] at asserted
  cases asserted

theorem withoutSlash_eq_nil_iff (absolute : basePath.head? = some '/') :
    withoutSlash basePath = [] ↔ basePath = ['/'] := by
  constructor
  · intro isRoot
    rw [withoutSlash] at isRoot
    split at isRoot
    case isTrue isLast =>
      rw [← List.dropLast_append_getLast? '/' isLast, isRoot]
      rfl
    case isFalse =>
      rw [isRoot] at absolute
      cases absolute
  · rintro rfl
    rfl

theorem withoutSlash_eq_slash_iff : withoutSlash basePath = ['/'] ↔ basePath = ['/', '/'] := by
  constructor
  · intro isSlash
    rw [withoutSlash] at isSlash
    split at isSlash
    case isTrue isLast =>
      rw [← List.dropLast_append_getLast? '/' isLast, isSlash]
      rfl
    case isFalse notLast =>
      rw [isSlash] at notLast
      exact absurd rfl notLast
  · rintro rfl
    rfl

theorem replaceFirst_of_front {old name : Text} (isFront : old <+: name) (new : Text) :
    replaceFirst old new name = new ++ name.drop old.length := by
  cases name with
  | nil =>
    obtain rfl := List.prefix_nil.1 isFront
    simp [replaceFirst]
  | cons char name => rw [replaceFirst, if_pos isFront]

theorem AliceConfig.mappedPath_eq_some_iff {config : AliceConfig} {dir name there : Text} :
    config.mappedPath dir name = some there ↔ config.basePath <+: name ∧ LexicalPath.collapse
          (dir ++ '/' :: name.drop config.basePath.length) = there := by
  rw [mappedPath]
  constructor
  · intro mapped
    split at mapped
    case isTrue isFront =>
      rw [replaceFirst_of_front isFront, List.append_assoc] at mapped
      exact ⟨isFront, Option.some.inj mapped⟩
    case isFalse => nomatch mapped
  · rintro ⟨isFront, rfl⟩
    rw [if_pos isFront, replaceFirst_of_front isFront, List.append_assoc]
    rfl

/-! ## Mirroring -/

def SamePath (first second : Text) : Prop :=
  (first.head? = some '/' ↔ second.head? = some '/') ∧
    LexicalPath.names first = LexicalPath.names second

/-- A path that is the directory or lies below it. -/
def IsInside (directory path : Text) : Prop :=
  (path.head? = some '/' ↔ directory.head? = some '/') ∧
    LexicalPath.names directory <+: LexicalPath.names path

/-- The interesting paths are those at or below the base path, and their
counterparts are different paths inside the scratchpad. -/
structure MapsOneToOne (category : Regex.Category → Char → Bool) (basePath : Text)
    (config : AliceConfig) : Prop where
  interesting : ∀ path : NormalPath,
    config.isInteresting category path.text =
      some (decide
        (LexicalPath.resolve (basePath.splitOn '/') <+: path.parts))
  different : ∀ path path' : NormalPath, path ≠ path' →
    config.isInteresting category path.text = some true →
    config.isInteresting category path'.text = some true →
    ∃ there there',
      config.replayedPath path.text = some there ∧
      config.replayedPath path'.text = some there' ∧
      ¬ SamePath there there' ∧
      IsInside config.scratchpadDir there ∧
      IsInside config.scratchpadDir there'

section

variable {category : Regex.Category → Char → Bool}
  {basePath scratchpadDir initialSnapshot : Text}
  {config : AliceConfig}

theorem AliceConfig.isInteresting_append {path : Text}
    (interesting : config.isInteresting category path = some true) (more : Text) :
    config.isInteresting category (path ++ more) = some true := by
  obtain ⟨expression, parsed, isFound⟩ := Option.map_eq_some_iff.1 interesting
  rw [AliceConfig.isInteresting, parsed, Option.map_some, Regex.search_append more isFound]

namespace MapsOneToOne

section

variable (mapped : MapsOneToOne category basePath config)
include mapped

/-- An expression that finds the base path also finds paths beside it. -/
theorem resolve_eq_nil :
    LexicalPath.resolve (basePath.splitOn '/') = [] := by
  by_contra notRoot
  let base : NormalPath := ⟨LexicalPath.resolve (basePath.splitOn '/'),
      isName_of_mem_resolve noSlash_of_mem_splitOn⟩
  obtain ⟨beside, isText, notBelow⟩ := base.exists_beside notRoot
  have isBase := mapped.interesting base
  rw [decide_eq_true List.prefix_rfl] at isBase
  have isBeside := mapped.interesting beside
  rw [decide_eq_false notBelow, isText, AliceConfig.isInteresting_append isBase] at isBeside
  cases isBeside

theorem isInteresting_eq (path : NormalPath) :
    config.isInteresting category path.text = some true := by
  rw [mapped.interesting, mapped.resolve_eq_nil, decide_eq_true List.nil_prefix]

theorem basePath_eq :
    (config.basePath = [] ∨ config.basePath = ['/']) ∧ config.scratchpadDir ≠ [] := by
  let first : NormalPath := ⟨[['a']], by decide⟩
  let second : NormalPath := ⟨[['b']], by decide⟩
  have notSame : first ≠ second := fun same => absurd (congrArg NormalPath.parts same) (by decide)
  obtain ⟨there, there', isThere, isThere', -, inside, -⟩ := mapped.different first second notSame
    (mapped.isInteresting_eq first) (mapped.isInteresting_eq second)
  obtain ⟨inFirst, rfl⟩ := AliceConfig.mappedPath_eq_some_iff.1 isThere
  obtain ⟨inSecond, -⟩ := AliceConfig.mappedPath_eq_some_iff.1 isThere'
  constructor
  · cases isBase : config.basePath with
    | nil => exact Or.inl rfl
    | cons slash rest =>
      rw [isBase] at inFirst inSecond
      obtain ⟨rfl, restFirst⟩ := List.cons_prefix_cons.1 inFirst
      obtain ⟨-, restSecond⟩ := List.cons_prefix_cons.1 inSecond
      cases rest with
      | nil => exact Or.inr rfl
      | cons char rest =>
        have isFirst := (List.cons_prefix_cons.1 restFirst).1
        have isSecond := (List.cons_prefix_cons.1 restSecond).1
        exact absurd (isFirst.symm.trans isSecond) (by decide)
  · intro noDirectory
    rw [IsInside, noDirectory, head?_collapse] at inside
    exact absurd (inside.1.1 rfl) (by decide)

end

end MapsOneToOne

theorem AliceConfig.basePath_front_of_root
    (isRoot : config.basePath = [] ∨ config.basePath = ['/']) (path : NormalPath) :
    config.basePath <+: path.text := by
  obtain ⟨rest, isText⟩ := path.exists_text_eq
  rcases isRoot with isNil | isSlash
  · rw [isNil]
    exact List.nil_prefix
  · rw [isSlash, isText]
    exact ⟨rest, rfl⟩

theorem AliceConfig.replayedPath_of_root (isRoot : config.basePath = [] ∨ config.basePath = ['/'])
    (someDirectory : config.scratchpadDir ≠ []) (path : NormalPath) :
    ∃ there, config.replayedPath path.text = some there ∧ there.head? = config.scratchpadDir.head? ∧
      LexicalPath.names there = LexicalPath.names config.scratchpadDir ++ path.parts := by
  have isFront := basePath_front_of_root isRoot path
  have sameNames : LexicalPath.names (path.text.drop config.basePath.length) = path.parts := by
    rcases isRoot with isNil | isSlash
    · rw [isNil]
      exact path.names_text
    · obtain ⟨rest, isText⟩ := path.exists_text_eq
      rw [isSlash, ← path.names_text, isText, names_slash]
      rfl
  refine ⟨_, AliceConfig.mappedPath_eq_some_iff.2 ⟨isFront, rfl⟩, ?_, ?_⟩
  · rw [head?_collapse, List.head?_append_of_ne_nil _ someDirectory]
  · rw [names_collapse, names_append_slash, sameNames]

/-- Without special characters, the default expression finds the texts that
begin with the base path. -/
theorem AliceConfig.isInteresting_of_plain
    (plain : ∀ char ∈ config.basePath, char ∉ Regex.specials)
    (isDefault : config.interestingPathString = '^' :: config.basePath) (path : Text) :
    config.isInteresting category path = some (decide (config.basePath <+: path)) := by
  rw [isInteresting, isDefault, Regex.parse_start_of_plain category plain,
    Option.map_some, Regex.search_start_literal]

theorem AliceConfig.isInteresting_of_root
    (isRoot : config.basePath = [] ∨ config.basePath = ['/'])
    (isDefault : config.interestingPathString = '^' :: config.basePath) (path : NormalPath) :
    config.isInteresting category path.text = some true := by
  have plain : ∀ char ∈ config.basePath, char ∉ Regex.specials := by
    rcases isRoot with isNil | isSlash
    · rw [isNil]
      exact fun char isChar => absurd isChar List.not_mem_nil
    · rw [isSlash]
      exact fun char isChar => List.mem_singleton.1 isChar ▸ by decide
  rw [isInteresting_of_plain plain isDefault, decide_eq_true (basePath_front_of_root isRoot path)]

theorem mapsOneToOne_iff
    (given : initAliceconfig basePath none scratchpadDir initialSnapshot =
      .ok config) :
    MapsOneToOne category basePath config ↔
      (basePath = ['/'] ∨ basePath = ['/', '/']) ∧ scratchpadDir ≠ [] := by
  obtain ⟨absolute, isBase, isDefault, isDirectory⟩ := initAliceconfig_eq_ok given
  have isRoot_iff : config.basePath = [] ∨ config.basePath = ['/'] ↔
      basePath = ['/'] ∨ basePath = ['/', '/'] := by
    rw [isBase, withoutSlash_eq_nil_iff absolute, withoutSlash_eq_slash_iff]
  rw [← isRoot_iff, ← isDirectory]
  constructor
  · exact fun mapped => mapped.basePath_eq
  · rintro ⟨isRoot, someDirectory⟩
    have atRoot : LexicalPath.resolve (basePath.splitOn '/') = [] := by
      rcases isRoot_iff.1 isRoot with rfl | rfl <;> decide
    constructor
    · intro path
      rw [AliceConfig.isInteresting_of_root isRoot isDefault, atRoot,
        decide_eq_true List.nil_prefix]
    · intro path path' notSame _ _
      obtain ⟨there, isThere, isHead, isNames⟩ :=
        AliceConfig.replayedPath_of_root isRoot someDirectory path
      obtain ⟨there', isThere', isHead', isNames'⟩ :=
        AliceConfig.replayedPath_of_root isRoot someDirectory path'
      refine ⟨there, there', isThere, isThere', ?_, ?_, ?_⟩
      · rintro ⟨-, sameNames⟩
        rw [isNames, isNames'] at sameNames
        exact notSame (NormalPath.ext (List.append_cancel_left sameNames))
      · rw [IsInside, isHead, isNames]
        exact ⟨Iff.rfl, List.prefix_append _ _⟩
      · rw [IsInside, isHead', isNames']
        exact ⟨Iff.rfl, List.prefix_append _ _⟩

theorem mapsOneToOne_iff_root :
    MapsOneToOne (fun _ _ => false) ['/']
      ⟨[], ['^'], "/tmp".toList, "/snapshot".toList⟩ :=
  (mapsOneToOne_iff rfl).2 ⟨Or.inl rfl, by decide⟩

/-- An entry of the base path and a path beside it whose text only lacks the
slash have the same counterpart. -/
theorem AliceConfig.samePath_beside (dir rest : Text) : ∃ below beside,
      config.mappedPath dir (config.basePath ++ '/' :: rest) = some below ∧
      config.mappedPath dir (config.basePath ++ rest) = some beside ∧
      SamePath below beside := by
  refine ⟨_, _, mappedPath_eq_some_iff.2 ⟨List.prefix_append _ _, rfl⟩,
    mappedPath_eq_some_iff.2 ⟨List.prefix_append _ _, rfl⟩, ?_, ?_⟩
  · rw [head?_collapse, head?_collapse]
    cases dir <;> rfl
  · rw [List.drop_left, List.drop_left, names_collapse, names_collapse, names_append_slash,
      names_append_slash, names_slash]

end

/-- `/w/x` and `/wx` for the base path `/w`. -/
theorem beside_base_mapped :
    ∃ config, ∃ path path' : NormalPath,
      initAliceconfig "/w".toList none "/tmp".toList "/snapshot".toList =
        .ok config ∧
      path.text = "/w/x".toList ∧
      path'.text = "/wx".toList ∧
      (∀ category,
        config.isInteresting category path'.text = some true) ∧
      ¬ LexicalPath.resolve ("/w".toList.splitOn '/') <+: path'.parts ∧
      config.replayedPath path.text = some "/tmp/x".toList ∧
      config.replayedPath path'.text = some "/tmp/x".toList := by
  refine ⟨⟨"/w".toList, "^/w".toList, "/tmp".toList, "/snapshot".toList⟩,
    ⟨[['w'], ['x']], by decide⟩, ⟨[['w', 'x']], by decide⟩, rfl, rfl, rfl,
    ?_, by decide, by decide, by decide⟩
  intro category
  rw [AliceConfig.isInteresting_of_plain (by simp [Regex.specials]) rfl]
  decide

end Alice
