import Mathlib.Data.UInt

/-! # UTF-8

An ASCII character is encoded as one byte that occurs in no other encoding, so
an encoded text is split at such a byte like the text at the character. -/

namespace Utf8

def encode (text : List Char) : List UInt8 :=
  text.flatMap String.utf8EncodeChar

def decode (bytes : List UInt8) : Option (List Char) :=
  bytes.toByteArray.utf8Decode?.map Array.toList

def Valid (bytes : List UInt8) : Prop :=
  ∃ text, encode text = bytes

section

variable {text : List Char} {bytes : List UInt8} {char : Char}

theorem decode_eq_some_iff : decode bytes = some text ↔ encode text = bytes := by
  constructor
  · intro decoded
    obtain ⟨chars, isDecoded, rfl⟩ := Option.map_eq_some_iff.1 decoded
    have isSome : bytes.toByteArray.utf8Decode?.isSome = true := by
      rw [isDecoded]
      rfl
    have encoded := @ByteArray.utf8Encode_get_utf8Decode? _ isSome
    simp only [isDecoded, Option.get_some] at encoded
    exact List.toByteArray_inj.1 encoded
  · rintro rfl
    exact congrArg (Option.map Array.toList) List.utf8Decode?_utf8Encode

@[simp] theorem encode_cons : encode (char :: text) = String.utf8EncodeChar char ++ encode text :=
  rfl

@[simp] theorem encode_append (first second : List Char) :
    encode (first ++ second) = encode first ++ encode second :=
  List.flatMap_append

theorem encode_injective : Function.Injective encode := by
  intro first second same
  have decoded := decode_eq_some_iff.2 same
  rw [decode_eq_some_iff.2 rfl] at decoded
  exact (Option.some.inj decoded).symm

theorem encodeChar_of_ascii (ascii : char.toNat ≤ 127) :
    String.utf8EncodeChar char = [UInt8.ofNat char.toNat] :=
  if_pos ascii

theorem le_of_mem_encodeChar (other : 127 < char.toNat) {byte : UInt8}
    (member : byte ∈ String.utf8EncodeChar char) : 128 ≤ byte.toNat := by
  have notAscii : ¬ char.val.toNat ≤ 127 := not_le.2 other
  simp only [String.utf8EncodeChar, if_neg notAscii] at member
  split_ifs at member <;>
    simp only [List.mem_cons, List.not_mem_nil, or_false] at member
  · rcases member with rfl | rfl <;> rw [UInt8.toNat_ofNat'] <;> omega
  · rcases member with rfl | rfl | rfl <;> rw [UInt8.toNat_ofNat'] <;> omega
  · rcases member with rfl | rfl | rfl | rfl <;>
      rw [UInt8.toNat_ofNat'] <;> omega

theorem eq_of_mem_encodeChar {ascii : Char} (small : ascii.toNat ≤ 127)
    (member : UInt8.ofNat ascii.toNat ∈ String.utf8EncodeChar char) : char = ascii := by
  rcases le_or_gt char.toNat 127 with charSmall | other
  · rw [encodeChar_of_ascii charSmall, List.mem_singleton] at member
    have values := congrArg UInt8.toNat member
    rw [UInt8.toNat_ofNat', UInt8.toNat_ofNat', Nat.mod_eq_of_lt (by omega),
      Nat.mod_eq_of_lt (by omega)] at values
    exact (Char.toNat_inj.1 values).symm
  · have large := le_of_mem_encodeChar other member
    rw [UInt8.toNat_ofNat', Nat.mod_eq_of_lt (by omega)] at large
    omega

theorem mem_encode_iff {ascii : Char} (small : ascii.toNat ≤ 127) :
    UInt8.ofNat ascii.toNat ∈ encode text ↔ ascii ∈ text := by
  rw [encode, List.mem_flatMap]
  constructor
  · rintro ⟨char, member, inChar⟩
    rwa [← eq_of_mem_encodeChar small inChar]
  · intro member
    refine ⟨ascii, member, ?_⟩
    rw [encodeChar_of_ascii small]
    exact List.mem_singleton_self _

/-- An encoded text is split at an ASCII byte into encoded texts. -/
theorem exists_of_encode_eq_append
    {ascii : Char} (small : ascii.toNat ≤ 127) {front back : List UInt8}
    (split : encode text = front ++ UInt8.ofNat ascii.toNat :: back) :
    ∃ first second, text = first ++ ascii :: second ∧
      encode first = front ∧ encode second = back := by
  induction text generalizing front with
  | nil => exact absurd split.symm (List.append_ne_nil_of_right_ne_nil _ (List.cons_ne_nil _ _))
  | cons char rest ih =>
    rcases List.append_eq_append_iff.1 split with
      ⟨later, rfl, restSplit⟩ | ⟨later, charSplit, restSplit⟩
    · obtain ⟨first, second, rfl, rfl, rfl⟩ := ih restSplit
      exact ⟨char :: first, second, rfl, rfl, rfl⟩
    · cases later with
      | nil =>
        rw [List.append_nil] at charSplit
        obtain ⟨first, second, rfl, isFirst, rfl⟩ := @ih [] restSplit.symm
        exact ⟨char :: first, second, rfl, by
          rw [encode_cons, isFirst, List.append_nil, charSplit], rfl⟩
      | cons byte more =>
        obtain ⟨rfl, rfl⟩ := List.cons.inj restSplit
        have isAscii := eq_of_mem_encodeChar small
          (charSplit ▸ List.mem_append_right front List.mem_cons_self)
        subst isAscii
        rw [encodeChar_of_ascii small] at charSplit
        have isFront : front = [] ∧ more = [] := by
          have lengths := congrArg List.length charSplit
          simp only [List.length_append, List.length_cons, List.length_nil] at lengths
          exact ⟨List.eq_nil_of_length_eq_zero (by omega), List.eq_nil_of_length_eq_zero (by omega)⟩
        obtain ⟨rfl, rfl⟩ := isFront
        exact ⟨[], rest, rfl, rfl, rfl⟩

end

end Utf8
