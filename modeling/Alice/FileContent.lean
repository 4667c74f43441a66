import Mathlib.Algebra.Notation.Defs
import Mathlib.Data.List.GetD

/-! # Contents of a regular file

Writing at an offset fills a gap with zeros, setting the size cuts off or
appends zeros.  A content is determined by its size and by the function that
reads it with zeros past the end. -/

namespace FileContent

variable {α : Type*} [Zero α]

def byteAt (content : List α) (position : ℕ) : α :=
  content.getD position 0

def ftruncate (content : List α) (size : ℕ) : List α :=
  content.take size ++ List.replicate (size - content.length) 0

/-- Write `data` at `offset`.  Writing no bytes changes nothing, not even the
size. -/
def pwrite (content : List α) (offset : ℕ) (data : List α) : List α :=
  if data.isEmpty then
    content
  else
    ftruncate content offset ++ data ++ content.drop (offset + data.length)

theorem byteAt_of_lt {content : List α} {position : ℕ} (bound : position < content.length) :
    byteAt content position = content[position] :=
  List.getD_eq_getElem content 0 bound

theorem byteAt_of_le {content : List α} {position : ℕ} (past : content.length ≤ position) :
    byteAt content position = 0 :=
  List.getD_eq_default content 0 past

theorem ext_byteAt {left right : List α} (sameSize : left.length = right.length)
    (sameBytes : ∀ position < left.length, byteAt left position = byteAt right position) :
    left = right := by
  apply List.ext_getElem sameSize
  intro position leftBound rightBound
  rw [← byteAt_of_lt leftBound, ← byteAt_of_lt rightBound]
  exact sameBytes position leftBound

theorem byteAt_append (left right : List α) (position : ℕ) : byteAt (left ++ right) position =
      if position < left.length then
        byteAt left position
      else
        byteAt right (position - left.length) := by
  unfold byteAt
  by_cases inside : position < left.length
  · rw [if_pos inside, List.getD_append left right 0 position inside]
  · rw [if_neg inside, List.getD_append_right left right 0 position (by omega)]

section

variable (content : List α)
include content

theorem byteAt_drop (count position : ℕ) : byteAt (content.drop count) position =
      byteAt content (count + position) := by
  simp [byteAt, List.getD_eq_getElem?_getD]

theorem byteAt_take (count position : ℕ) : byteAt (content.take count) position =
      if position < count then byteAt content position else 0 := by
  unfold byteAt
  by_cases inside : position < count
  · simp [List.getD_eq_getElem?_getD, inside]
  · rw [if_neg inside]
    apply List.getD_eq_default
    rw [List.length_take]
    omega

omit content in
theorem byteAt_replicate_zero (count position : ℕ) :
    byteAt (List.replicate count (0 : α)) position = 0 := by
  by_cases inside : position < count
  · simp [byteAt, List.getD_eq_getElem?_getD, inside]
  · exact byteAt_of_le (by simpa using inside)

/-! ## Setting the size -/

@[simp]
theorem length_ftruncate (size : ℕ) : (ftruncate content size).length = size := by
  simp only [ftruncate, List.length_append, List.length_take, List.length_replicate]
  omega

theorem byteAt_ftruncate (size position : ℕ) : byteAt (ftruncate content size) position =
      if position < size then byteAt content position else 0 := by
  rw [ftruncate, byteAt_append, byteAt_take, byteAt_replicate_zero, List.length_take]
  by_cases small : position < size
  · by_cases inside : position < content.length
    · have inFront : position < min size content.length := Nat.lt_min.2 ⟨small, inside⟩
      simp [small, inFront]
    · simp [small, byteAt_of_le (Nat.le_of_not_lt inside)]
  · simp [small]

/-! ## Writing -/

@[simp]
theorem pwrite_nil (offset : ℕ) : pwrite content offset [] = content := by
  simp [pwrite]

theorem length_pwrite (offset : ℕ) {data : List α} (some : data ≠ []) :
    (pwrite content offset data).length = max content.length (offset + data.length) := by
  have notEmpty : data.isEmpty = false := by simpa using some
  simp only [pwrite, notEmpty, Bool.false_eq_true, if_false,
    List.length_append, length_ftruncate, List.length_drop]
  omega

theorem byteAt_pwrite (offset : ℕ) (data : List α) (position : ℕ) :
    byteAt (pwrite content offset data) position =
      if offset ≤ position ∧ position < offset + data.length then
        byteAt data (position - offset)
      else
        byteAt content position := by
  by_cases empty : data = []
  · subst empty
    rw [pwrite_nil, if_neg (by simp)]
  · have notEmpty : data.isEmpty = false := by simpa using empty
    simp only [pwrite, notEmpty, Bool.false_eq_true, if_false]
    rw [byteAt_append, byteAt_append, byteAt_drop, byteAt_ftruncate,
      List.length_append, length_ftruncate]
    by_cases before : position < offset
    · have inFront : position < offset + data.length := by omega
      simp [before, inFront, Nat.not_le_of_lt before]
    · by_cases inside : position < offset + data.length
      · simp [before, inside, Nat.le_of_not_lt before]
      · have shifted : offset + data.length + (position - (offset + data.length)) =
              position := by
          omega
        simp [inside, shifted]

/-! ## Successive changes -/

theorem ftruncate_ftruncate {first second : ℕ} (shrinks : second ≤ first) :
    ftruncate (ftruncate content first) second =
      ftruncate content second := by
  apply ext_byteAt (by simp)
  intro position inside
  rw [length_ftruncate] at inside
  have insideFirst : position < first := Nat.lt_of_lt_of_le inside shrinks
  simp only [byteAt_ftruncate, inside, insideFirst, if_true]

theorem ftruncate_length : ftruncate content content.length = content := by
  simp [ftruncate]

/-- Writing the same range again hides the first writing. -/
theorem pwrite_pwrite_same (offset : ℕ) {first second : List α}
    (sameLength : first.length = second.length) :
    pwrite (pwrite content offset first) offset second =
      pwrite content offset second := by
  by_cases empty : second = []
  · subst empty
    have firstEmpty : first = [] := List.eq_nil_of_length_eq_zero sameLength
    rw [firstEmpty]
    simp
  · have firstSome : first ≠ [] := by
      intro firstEmpty
      rw [firstEmpty] at sameLength
      exact empty (List.eq_nil_of_length_eq_zero sameLength.symm)
    apply ext_byteAt
    · simp only [length_pwrite _ _ empty, length_pwrite _ _ firstSome]
      omega
    · intro position _
      simp only [byteAt_pwrite, sameLength]
      split <;> rfl

theorem pwrite_pwrite_append (offset : ℕ) (first second : List α) :
    pwrite (pwrite content offset first) (offset + first.length) second =
      pwrite content offset (first ++ second) := by
  by_cases secondEmpty : second = []
  · subst secondEmpty
    simp
  · by_cases firstEmpty : first = []
    · subst firstEmpty
      simp
    · have bothSome : first ++ second ≠ [] := by simp [firstEmpty]
      apply ext_byteAt
      · simp only [length_pwrite _ _ secondEmpty, length_pwrite _ _ firstEmpty,
          length_pwrite _ _ bothSome, List.length_append]
        omega
      · intro position _
        simp only [byteAt_pwrite, byteAt_append, List.length_append]
        by_cases inSecond : offset + first.length ≤ position ∧
            position < offset + first.length + second.length
        · have inBoth : offset ≤ position ∧ position < offset + (first.length + second.length) := by
            omega
          have behind : ¬position - offset < first.length := by omega
          have shift : position - offset - first.length = position - (offset + first.length) := by
            omega
          simp only [if_pos inSecond, if_pos inBoth, if_neg behind, shift]
        · rw [if_neg inSecond]
          by_cases inFirst : offset ≤ position ∧ position < offset + first.length
          · have inBoth : offset ≤ position ∧
                position < offset + (first.length + second.length) := by
              omega
            have before : position - offset < first.length := by omega
            simp only [if_pos inFirst, if_pos inBoth, if_pos before]
          · have outside : ¬(offset ≤ position ∧
                position < offset + (first.length + second.length)) := by
              omega
            simp only [if_neg inFirst, if_neg outside]

theorem pwrite_zeros {size : ℕ} (grows : content.length ≤ size) :
    pwrite content content.length (List.replicate (size - content.length) 0) =
      ftruncate content size := by
  by_cases same : size = content.length
  · subst same
    simp [ftruncate_length]
  · have some : List.replicate (size - content.length) (0 : α) ≠ [] := by
      simp only [ne_eq, List.replicate_eq_nil_iff]
      omega
    apply ext_byteAt
    · rw [length_pwrite _ _ some, List.length_replicate, length_ftruncate]
      omega
    · intro position inside
      rw [length_pwrite _ _ some, List.length_replicate] at inside
      have below : position < size := by omega
      rw [byteAt_pwrite, byteAt_ftruncate, if_pos below, byteAt_replicate_zero]
      split
      · rename_i written
        exact (byteAt_of_le written.1).symm
      · rfl

end

end FileContent
