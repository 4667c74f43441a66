import Alice.Parser.TraceFiles
import Alice.Utf8
import Mathlib.Data.List.DropRight

/-! # `get_path_inode_map`

The listing of a tree is taken from the output of `find`, which is decoded as
UTF-8 before it is split at line breaks and blanks.  A name is a sequence of
bytes. -/

namespace Alice

open Checked
open Posix (Bytes)

/-! ## Trees and what `find` prints of them -/

inductive FindType where
  | directory
  | file
  deriving DecidableEq, Repr

def FindType.letter : FindType → Char
  | .directory => 'd'
  | .file => 'f'

mutual

/-- A regular file or a directory, with its inode number. -/
inductive DirTree where
  | file (inode : ℕ)
  | dir (inode : ℕ) (entries : DirEntries)

/-- The entries of a directory, in the order in which it lists them. -/
inductive DirEntries where
  | nil
  | cons (name : Bytes) (tree : DirTree) (rest : DirEntries)

end

structure FindEntry where
  inode : ℕ
  path : Bytes
  entryType : FindType

mutual

/-- The files and directories that `find` visits from a path on. -/
def DirTree.find (path : Bytes) : DirTree → List FindEntry
  | .file inode => [⟨inode, path, .file⟩]
  | .dir inode entries => ⟨inode, path, .directory⟩ :: entries.find path

def DirEntries.find (path : Bytes) : DirEntries → List FindEntry
  | .nil => []
  | .cons name tree rest => tree.find (path ++ 47 :: name) ++ rest.find path

end

def DirEntries.names : DirEntries → List Bytes
  | .nil => []
  | .cons name _ rest => name :: rest.names

mutual

/-- The names in a directory are different and have no slash and no line
break in them. -/
def DirTree.WellFormed : DirTree → Prop
  | .file _ => True
  | .dir _ entries => entries.WellFormed

def DirEntries.WellFormed : DirEntries → Prop
  | .nil => True
  | .cons name tree rest =>
      (47 ∉ name ∧ 10 ∉ name ∧ name ∉ rest.names) ∧ tree.WellFormed ∧ rest.WellFormed

end

/-- `%i %p %y\n`. -/
def FindEntry.line (entry : FindEntry) : Bytes :=
  Utf8.encode (Nat.toDigits 10 entry.inode) ++
    32 :: (entry.path ++ 32 :: (Utf8.encode [entry.entryType.letter] ++ [10]))

/-- The output of `find` for a directory that holds a tree. -/
def DirTree.findOutput (tree : DirTree) (directory : Text) : Bytes :=
  (tree.find (Utf8.encode directory)).flatMap FindEntry.line

/-! ## `get_path_inode_map` -/

abbrev PathInodeMap := AList fun _ : Text => ℕ × FindType

def addLine (result : PathInodeMap) (line : Text) : Except PyError PathInodeMap :=
  if line = [] then
    pure result
  else
    match line.splitOn ' ' with
    | [inode, path, entryType] => do
        let inode ← parseInt inode
        if entryType = ['d'] then
          pure (result.insert path (inode, .directory))
        else if entryType = ['f'] then
          pure (result.insert path (inode, .file))
        else
          throw .assertionError
    | _ => throw .valueError

/-- `get_path_inode_map`.  That the output is not valid UTF-8 is a kind of
`ValueError`. -/
def getPathInodeMap (find : Text → Bytes) (directory : Text) : Except PyError PathInodeMap :=
  match Utf8.decode (find (directory.rdropWhile (· == '/'))) with
  | some text => (text.splitOn '\n').foldlM addLine ∅
  | none => .error .valueError

/-! ## The paths that are listed -/

/-- The path of a file or directory, or of one below it. -/
def Below (base path : Bytes) : Prop :=
  path = base ∨ ∃ rest, path = base ++ 47 :: rest

variable {name : Bytes}

theorem below_of_below_append {base path : Bytes} (below : Below (base ++ 47 :: name) path) :
    Below base path := by
  rcases below with rfl | ⟨rest, rfl⟩
  · exact .inr ⟨name, rfl⟩
  · exact .inr ⟨name ++ 47 :: rest, by simp⟩

theorem eq_of_below {base first second path : Bytes} (inFirst : 47 ∉ first)
    (inSecond : 47 ∉ second) (belowFirst : Below (base ++ 47 :: first) path)
    (belowSecond : Below (base ++ 47 :: second) path) : first = second := by
  -- The name is what stands between the base and the next slash.
  have nameOf : ∀ {name : Bytes}, 47 ∉ name → Below (base ++ 47 :: name) path →
      (path.drop (base.length + 1)).takeWhile (· ≠ 47) = name := by
    intro name inName below
    have isName : ∀ byte ∈ name, decide (byte ≠ 47) = true := by
      intro byte member
      exact decide_eq_true (ne_of_mem_of_not_mem member inName)
    rcases below with rfl | ⟨rest, rfl⟩
    · have split : (base ++ 47 :: name).drop (base.length + 1) = name := by simp [List.drop_append]
      rw [split]
      exact List.takeWhile_eq_self_iff.2 isName
    · have split : (base ++ 47 :: name ++ 47 :: rest).drop (base.length + 1) =
          name ++ 47 :: rest := by
        simp [List.drop_append]
      rw [split, List.takeWhile_append_of_pos isName]
      simp
  rw [← nameOf inFirst belowFirst, nameOf inSecond belowSecond]

mutual

theorem DirTree.below_of_mem_find {path : Bytes} {entry : FindEntry} :
    ∀ (tree : DirTree), entry ∈ tree.find path → Below path entry.path
  | .file inode, member => by
      rw [DirTree.find, List.mem_singleton] at member
      rw [member]
      exact .inl rfl
  | .dir inode entries, member => by
      rw [DirTree.find, List.mem_cons] at member
      rcases member with rfl | member
      · exact .inl rfl
      · obtain ⟨name, _, below⟩ := entries.below_of_mem_find member
        exact below_of_below_append below

theorem DirEntries.below_of_mem_find {path : Bytes} {entry : FindEntry} :
    ∀ (entries : DirEntries), entry ∈ entries.find path →
      ∃ name ∈ entries.names, Below (path ++ 47 :: name) entry.path
  | .nil, member => by
      rw [DirEntries.find] at member
      exact absurd member List.not_mem_nil
  | .cons name tree rest, member => by
      rw [DirEntries.find, List.mem_append] at member
      rcases member with inTree | inRest
      · exact ⟨name, List.mem_cons_self, tree.below_of_mem_find inTree⟩
      · obtain ⟨other, isName, below⟩ := rest.below_of_mem_find inRest
        exact ⟨other, List.mem_cons_of_mem _ isName, below⟩

end

theorem DirEntries.WellFormed.notMem_of_mem_names : ∀ {entries : DirEntries}, entries.WellFormed →
      name ∈ entries.names → 47 ∉ name
  | .nil, _, member => absurd member List.not_mem_nil
  | .cons _ _ _, wellFormed, member => by
      rw [DirEntries.WellFormed] at wellFormed
      rcases List.mem_cons.1 member with rfl | later
      · exact wellFormed.1.1
      · exact wellFormed.2.2.notMem_of_mem_names later

mutual

theorem DirTree.nodup_find
    {path : Bytes} : ∀ {tree : DirTree}, tree.WellFormed →
      ((tree.find path).map FindEntry.path).Nodup
  | .file inode, _ => List.nodup_singleton _
  | .dir inode entries, wellFormed => by
      rw [DirTree.find, List.map_cons, List.nodup_cons]
      refine ⟨?_, DirEntries.nodup_find wellFormed⟩
      rw [List.mem_map]
      rintro ⟨entry, member, same⟩
      obtain ⟨name, _, below⟩ := entries.below_of_mem_find member
      have lengths := congrArg List.length same
      rcases below with isPath | ⟨rest, isPath⟩ <;>
        rw [isPath] at lengths <;> simp at lengths

theorem DirEntries.nodup_find
    {path : Bytes} : ∀ {entries : DirEntries}, entries.WellFormed →
      ((entries.find path).map FindEntry.path).Nodup
  | .nil, _ => List.nodup_nil
  | .cons name tree rest, wellFormed => by
      obtain ⟨⟨noSlash, _, isNew⟩, treeFormed, restFormed⟩ := wellFormed
      rw [DirEntries.find, List.map_append, List.nodup_append']
      refine ⟨DirTree.nodup_find treeFormed, DirEntries.nodup_find restFormed, ?_⟩
      intro listed inTree inRest
      obtain ⟨entry, member, rfl⟩ := List.mem_map.1 inTree
      obtain ⟨other, otherMember, same⟩ := List.mem_map.1 inRest
      obtain ⟨otherName, isName, below⟩ := rest.below_of_mem_find otherMember
      rw [same] at below
      have sameName := eq_of_below noSlash (restFormed.notMem_of_mem_names isName)
        (tree.below_of_mem_find member) below
      exact isNew (sameName ▸ isName)

end

mutual

theorem DirTree.newline_notMem {path : Bytes} {entry : FindEntry} (noNewline : 10 ∉ path) :
    ∀ {tree : DirTree}, tree.WellFormed → entry ∈ tree.find path → 10 ∉ entry.path
  | .file inode, _, member => by
      rw [DirTree.find, List.mem_singleton] at member
      rwa [member]
  | .dir inode entries, wellFormed, member => by
      rw [DirTree.find, List.mem_cons] at member
      rcases member with rfl | member
      · exact noNewline
      · exact DirEntries.newline_notMem noNewline wellFormed member

theorem DirEntries.newline_notMem {path : Bytes} {entry : FindEntry} (noNewline : 10 ∉ path) :
    ∀ {entries : DirEntries}, entries.WellFormed → entry ∈ entries.find path → 10 ∉ entry.path
  | .nil, _, member => by
      rw [DirEntries.find] at member
      exact absurd member List.not_mem_nil
  | .cons name tree rest, wellFormed, member => by
      obtain ⟨⟨_, inName, _⟩, treeFormed, restFormed⟩ := wellFormed
      rw [DirEntries.find, List.mem_append] at member
      rcases member with inTree | inRest
      · exact DirTree.newline_notMem (by simp [noNewline, inName]) treeFormed inTree
      · exact DirEntries.newline_notMem noNewline restFormed inRest

end

/-! ## Reading the output -/

/-- A line of the output as a text. -/
structure FindText where
  inode : ℕ
  path : Text
  entryType : FindType

namespace FindText

def entry (text : FindText) : FindEntry :=
  ⟨text.inode, Utf8.encode text.path, text.entryType⟩

def line (text : FindText) : Text :=
  Nat.toDigits 10 text.inode ++ ' ' :: (text.path ++ ' ' :: [text.entryType.letter])

def insert (result : PathInodeMap) (text : FindText) : PathInodeMap :=
  result.insert text.path (text.inode, text.entryType)

variable (text : FindText)

theorem encode_line : Utf8.encode (text.line ++ ['\n']) = text.entry.line := by
  simp [line, entry, FindEntry.line]
  rfl

theorem char_notMem_digits {char : Char} (other : char.isDigit = false) (number : ℕ) :
    char ∉ Nat.toDigits 10 number := by
  intro member
  rw [Nat.isDigit_of_mem_toDigits (by decide) (by decide) member] at other
  cases other

theorem splitOn_line : text.line.splitOn ' ' =
      Nat.toDigits 10 text.inode :: (text.path.splitOn ' ' ++ [[text.entryType.letter]]) := by
  have inDigits := char_notMem_digits (by decide : ' '.isDigit = false) text.inode
  have inLetter : ' ' ∉ [text.entryType.letter] := by cases text.entryType <;> decide
  rw [line, List.splitOn_append_cons_self, List.splitOn_append_cons_self,
    List.splitOn_eq_singleton inDigits, List.splitOn_eq_singleton inLetter]
  rfl

theorem line_ne_nil : text.line ≠ [] := by
  simp [line]

/-- A line is read as it was meant unless the path has a blank in it: then
there are more than three parts. -/
theorem addLine_line (result : PathInodeMap) : addLine result text.line =
      if ' ' ∈ text.path then .error .valueError
      else .ok (insert result text) := by
  rw [addLine, if_neg text.line_ne_nil, splitOn_line]
  split_ifs with hasBlank
  · obtain ⟨front, back, isPath⟩ := List.append_of_mem hasBlank
    obtain ⟨first, firsts, isFirst⟩ := List.exists_cons_of_ne_nil (List.splitOn_ne_nil ' ' front)
    obtain ⟨second, seconds, isSecond⟩ := List.exists_cons_of_ne_nil (List.splitOn_ne_nil ' ' back)
    rw [isPath, List.splitOn_append_cons_self, isFirst, isSecond]
    split
    · rename_i same
      have lengths := congrArg List.length same
      simp only [List.length_cons, List.length_append, List.length_nil] at lengths
      omega
    · rfl
  · rw [List.splitOn_eq_singleton hasBlank]
    simp only [List.cons_append, List.nil_append, parseInt, digitsValue_toDigits, ok_bind, insert]
    cases text.entryType <;> rfl

theorem foldlM_addLine_iff (texts : List FindText) (result : PathInodeMap) {final : PathInodeMap} :
    (texts.map line ++ [[]]).foldlM addLine result = .ok final ↔ (∀ text ∈ texts, ' ' ∉ text.path) ∧
        texts.foldl insert result = final := by
  induction texts generalizing result with
  | nil => simp [addLine]
  | cons text texts ih =>
    rw [List.map_cons, List.cons_append, List.foldlM_cons, addLine_line]
    split_ifs with hasBlank
    · simp [hasBlank]
    · rw [ok_bind, ih, List.forall_mem_cons, List.foldl_cons]
      simp only [hasBlank, not_false_eq_true, true_and]

theorem splitOn_flatMap {texts : List FindText} (noNewline : ∀ text ∈ texts, '\n' ∉ text.path) :
    (texts.flatMap fun text => text.line ++ ['\n']).splitOn '\n' = texts.map line ++ [[]] := by
  induction texts with
  | nil => rfl
  | cons text texts ih =>
    obtain ⟨inPath, inRest⟩ := List.forall_mem_cons.1 noNewline
    have inDigits := char_notMem_digits (by decide : '\n'.isDigit = false) text.inode
    have inLetter : '\n' ≠ text.entryType.letter := by cases text.entryType <;> decide
    have inLine : '\n' ∉ text.line := by simp [line, inDigits, inPath, inLetter]
    rw [List.flatMap_cons, List.append_assoc, List.singleton_append,
      List.splitOn_append_cons_self, ih inRest, List.splitOn_eq_singleton inLine]
    rfl

theorem exists_texts {entries : List FindEntry} {whole : Text}
    (encoded : Utf8.encode whole = entries.flatMap FindEntry.line) :
    ∃ texts : List FindText, entries = texts.map entry ∧
      whole = texts.flatMap fun text => text.line ++ ['\n'] := by
  induction entries generalizing whole with
  | nil =>
    refine ⟨[], rfl, ?_⟩
    exact Utf8.encode_injective encoded
  | cons listed entries ih =>
    simp only [List.flatMap_cons, FindEntry.line, List.append_assoc,
      List.cons_append, List.nil_append] at encoded
    obtain ⟨digits, afterInode, rfl, isDigits, encoded⟩ :=
      @Utf8.exists_of_encode_eq_append _ ' ' (by decide) _ _ encoded
    obtain ⟨path, afterPath, rfl, isPath, encoded⟩ :=
      @Utf8.exists_of_encode_eq_append _ ' ' (by decide) _ _ encoded
    obtain ⟨letter, rest, rfl, isLetter, encoded⟩ :=
      @Utf8.exists_of_encode_eq_append _ '\n' (by decide) _ _ encoded
    obtain ⟨texts, rfl, rfl⟩ := ih encoded
    obtain rfl := Utf8.encode_injective isDigits
    obtain rfl := Utf8.encode_injective isLetter
    refine ⟨⟨listed.inode, path, listed.entryType⟩ :: texts, ?_, ?_⟩
    · rw [List.map_cons, entry, isPath]
    · simp [line]

theorem exists_map_entry {entries : List FindEntry}
    (encoded : ∀ listed ∈ entries, ∃ text, Utf8.encode text = listed.path) :
    ∃ texts : List FindText, entries = texts.map entry := by
  induction entries with
  | nil => exact ⟨[], rfl⟩
  | cons listed entries ih =>
    obtain ⟨⟨path, isPath⟩, later⟩ := List.forall_mem_cons.1 encoded
    obtain ⟨texts, rfl⟩ := ih later
    refine ⟨⟨listed.inode, path, listed.entryType⟩ :: texts, ?_⟩
    rw [List.map_cons, entry, isPath]

theorem encode_flatMap (texts : List FindText) :
    Utf8.encode (texts.flatMap fun text => text.line ++ ['\n']) =
      (texts.map entry).flatMap FindEntry.line := by
  induction texts with
  | nil => rfl
  | cons text texts ih =>
    rw [List.flatMap_cons, Utf8.encode_append, encode_line, ih, List.map_cons, List.flatMap_cons]

/-- What a map with different paths has at a path. -/
theorem lookup_foldl_insert {texts : List FindText} (nodup : (texts.map FindText.path).Nodup)
    (result : PathInodeMap) (path : Text) (value : ℕ × FindType) :
    (texts.foldl insert result).lookup path = some value ↔ (∃ text ∈ texts, text.path = path ∧
        value = (text.inode, text.entryType)) ∨
        (path ∉ texts.map FindText.path ∧ result.lookup path = some value) := by
  induction texts generalizing result with
  | nil => simp
  | cons text texts ih =>
    rw [List.map_cons, List.nodup_cons] at nodup
    rw [List.foldl_cons, ih nodup.2, insert]
    by_cases isPath : path = text.path
    · subst isPath
      have isNew := nodup.1
      rw [AList.lookup_insert]
      constructor
      · rintro (⟨other, member, same, _⟩ | ⟨_, isValue⟩)
        · exact absurd (same ▸ List.mem_map_of_mem member) isNew
        · exact .inl ⟨text, List.mem_cons_self, rfl, (Option.some.inj isValue).symm⟩
      · rintro (⟨other, member, same, isValue⟩ | ⟨notListed, _⟩)
        · rcases List.mem_cons.1 member with rfl | later
          · exact .inr ⟨isNew, congrArg some isValue.symm⟩
          · exact absurd (same ▸ List.mem_map_of_mem later) isNew
        · exact absurd (List.mem_map_of_mem List.mem_cons_self) notListed
    · rw [AList.lookup_insert_ne isPath]
      have notText : ¬ text.path = path := fun same => isPath same.symm
      simp only [List.mem_cons, exists_eq_or_imp, notText, false_and,
        false_or, List.map_cons, isPath]

end FindText

/-! ## The listing of a tree -/

def listedEntries (tree : DirTree) (directory : Text) : List FindEntry :=
  tree.find (Utf8.encode (directory.rdropWhile (· == '/')))

/-- `get_path_inode_map` returns the map from every path of the tree to its
inode number and its type. -/
def ListsTree (tree : DirTree) (directory : Text) : Prop :=
  ∃ map, getPathInodeMap tree.findOutput directory = .ok map ∧
    ∀ path value, map.lookup path = some value ↔
      ∃ entry ∈ listedEntries tree directory,
        entry.path = Utf8.encode path ∧
          value = (entry.inode, entry.entryType)

section

variable {tree : DirTree} {dir : Text} {texts : List FindText}

theorem newline_notMem_texts (wellFormed : tree.WellFormed) (noNewline : '\n' ∉ dir)
    (areTexts : listedEntries tree dir = texts.map FindText.entry) :
    ∀ text ∈ texts, '\n' ∉ text.path := by
  have inDirectory : '\n' ∉ dir.rdropWhile (· == '/') :=
    fun member => noNewline ((List.rdropWhile_prefix _ _).subset member)
  have inEncoded : 10 ∉ Utf8.encode (dir.rdropWhile (· == '/')) :=
    (Utf8.mem_encode_iff (by decide)).not.2 inDirectory
  intro text member inPath
  have listed : text.entry ∈ listedEntries tree dir := areTexts ▸ List.mem_map_of_mem member
  exact DirTree.newline_notMem inEncoded wellFormed listed
    ((Utf8.mem_encode_iff (by decide : '\n'.toNat ≤ 127)).2 inPath)

theorem getPathInodeMap_of_texts
    (areTexts : listedEntries tree dir = texts.map FindText.entry)
    (noNewline : ∀ text ∈ texts, '\n' ∉ text.path) : getPathInodeMap tree.findOutput dir =
      (texts.map FindText.line ++ [[]]).foldlM addLine ∅ := by
  have decoded : Utf8.decode (tree.findOutput (dir.rdropWhile (· == '/'))) =
        some (texts.flatMap fun text => text.line ++ ['\n']) := by
    rw [Utf8.decode_eq_some_iff, FindText.encode_flatMap, ← areTexts]
    rfl
  rw [getPathInodeMap, decoded]
  simp only [FindText.splitOn_flatMap noNewline]

theorem exists_texts_of_getPathInodeMap {map : PathInodeMap}
    (ran : getPathInodeMap tree.findOutput dir = .ok map) : ∃ texts : List FindText,
      listedEntries tree dir = texts.map FindText.entry := by
  rw [getPathInodeMap] at ran
  split at ran
  · rename_i whole decoded
    obtain ⟨texts, areTexts, _⟩ := FindText.exists_texts (Utf8.decode_eq_some_iff.1 decoded)
    exact ⟨texts, areTexts⟩
  · cases ran

end

/-- The listing is right if no path has a blank in it and every path is valid
UTF-8. -/
theorem lists_tree_iff
    {tree : DirTree} {directory : Text} (wellFormed : tree.WellFormed)
    (noNewline : '\n' ∉ directory) :
    ListsTree tree directory ↔
      ∀ entry ∈ listedEntries tree directory,
        32 ∉ entry.path ∧ ∃ text, Utf8.encode text = entry.path := by
  constructor
  · rintro ⟨map, ran, _⟩
    obtain ⟨texts, areTexts⟩ := exists_texts_of_getPathInodeMap ran
    rw [getPathInodeMap_of_texts areTexts (newline_notMem_texts wellFormed noNewline areTexts),
      FindText.foldlM_addLine_iff] at ran
    rw [areTexts, List.forall_mem_map]
    intro text member
    exact ⟨(Utf8.mem_encode_iff (by decide)).not.2 (ran.1 text member), text.path, rfl⟩
  · intro readable
    obtain ⟨texts, areTexts⟩ := FindText.exists_map_entry
      fun entry member => (readable entry member).2
    have noBlank : ∀ text ∈ texts, ' ' ∉ text.path := by
      intro text member inPath
      have listed : text.entry ∈ listedEntries tree directory :=
        areTexts ▸ List.mem_map_of_mem member
      exact (readable _ listed).1 ((Utf8.mem_encode_iff (by decide : ' '.toNat ≤ 127)).2 inPath)
    have nodup : (texts.map FindText.path).Nodup := by
      have encoded := @DirTree.nodup_find
        (Utf8.encode (directory.rdropWhile (· == '/'))) _ wellFormed
      rw [← listedEntries, areTexts, List.map_map] at encoded
      refine List.Nodup.of_map Utf8.encode ?_
      rw [List.map_map]
      exact encoded
    refine ⟨texts.foldl FindText.insert ∅, ?_, ?_⟩
    · rw [getPathInodeMap_of_texts areTexts (newline_notMem_texts wellFormed noNewline areTexts)]
      exact (FindText.foldlM_addLine_iff texts ∅).2 ⟨noBlank, rfl⟩
    · intro path value
      rw [FindText.lookup_foldl_insert nodup, areTexts]
      simp only [List.mem_map, exists_exists_and_eq_and, FindText.entry,
        Utf8.encode_injective.eq_iff, AList.lookup_empty, reduceCtorEq, and_false, or_false]

/-- A directory with one file in it. -/
def oneFile (name : Bytes) : DirTree :=
  .dir 2 (.cons name (.file 7) .nil)

theorem oneFile_wellFormed (noSlash : 47 ∉ name) (noNewline : 10 ∉ name) :
    (oneFile name).WellFormed := by
  simp [oneFile, DirTree.WellFormed, DirEntries.WellFormed, DirEntries.names, noSlash, noNewline]

theorem lists_tree_iff_oneFile : ListsTree (oneFile [97]) "/s/".toList := by
  refine (lists_tree_iff (oneFile_wellFormed (by decide) (by decide)) (by decide)).2 ?_
  have entries : listedEntries (oneFile [97]) "/s/".toList =
      [⟨2, [47, 115], .directory⟩, ⟨7, [47, 115, 47, 97], .file⟩] := rfl
  rw [entries, List.forall_mem_cons, List.forall_mem_singleton]
  exact ⟨⟨by decide, "/s".toList, rfl⟩, by decide, "/s/a".toList, rfl⟩

/-- A name with a blank makes the listing fail. -/
theorem blank_fails : ¬ ListsTree (oneFile [97, 32, 98]) "/s".toList := by
  rintro ⟨map, ran, _⟩
  have areTexts : listedEntries (oneFile [97, 32, 98]) "/s".toList =
      [⟨2, "/s".toList, .directory⟩, ⟨7, "/s/a b".toList, .file⟩].map FindText.entry := rfl
  rw [getPathInodeMap_of_texts areTexts (by decide), FindText.foldlM_addLine_iff] at ran
  exact absurd ran.1 (by decide)

end Alice
