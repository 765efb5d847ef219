import Mathlib.Data.List.Basic
import Shortcode.Proofs.Text.ByteOrder
import Shortcode.Proofs.Text.Slice

namespace Shortcode.Text

/-- A byte below 128 is the form of one character, and occurs in no other. -/
theorem count_utf8EncodeChar (c d : Char) (hd : d.val.toNat < 128) :
    (String.utf8EncodeChar c).count (UInt8.ofNat d.val.toNat) = if c = d then 1 else 0 := by
  by_cases hc : c.val.toNat ≤ 127
  · have same : UInt8.ofNat c.val.toNat = UInt8.ofNat d.val.toNat ↔ c = d := by
      constructor
      · intro h
        have := congrArg UInt8.toNat h
        rw [UInt8.toNat_ofNat', UInt8.toNat_ofNat'] at this
        exact Char.ext (UInt32.toNat_inj.1 (by omega))
      · rintro rfl
        rfl
    rw [String.utf8EncodeChar, if_pos hc, List.count_singleton]
    simp only [beq_iff_eq, same]
  · have hne : c ≠ d := by
      rintro rfl
      omega
    have high {x : Nat} (hx : 128 ≤ x % 256) : UInt8.ofNat d.val.toNat ≠ UInt8.ofNat x := by
      intro h
      have := congrArg UInt8.toNat h
      rw [UInt8.toNat_ofNat', UInt8.toNat_ofNat'] at this
      omega
    rw [if_neg hne, List.count_eq_zero, String.utf8EncodeChar, if_neg hc]
    split
    · simp only [List.mem_cons, List.not_mem_nil, or_false, not_or]
      exact ⟨high (by omega), high (by omega)⟩
    · split
      · simp only [List.mem_cons, List.not_mem_nil, or_false, not_or]
        exact ⟨high (by omega), high (by omega), high (by omega)⟩
      · simp only [List.mem_cons, List.not_mem_nil, or_false, not_or]
        exact ⟨high (by omega), high (by omega), high (by omega), high (by omega)⟩

/-- The UTF-8 form of a text. -/
def utf8 (text : List Char) : List UInt8 := text.flatMap String.utf8EncodeChar

/-- All characters of the piece are below 128. -/
def IsAscii (piece : List Char) : Prop := ∀ c ∈ piece, c.val.toNat < 128

-- goes through the piece: an instance that is searched for may go through all characters there are
instance (piece : List Char) : Decidable (IsAscii piece) :=
  List.decidableBAll (fun c : Char => c.val.toNat < 128) piece

variable {c d : Char} {piece text : List Char} {p q : Nat}

theorem mem_utf8EncodeChar_iff (hd : d.val.toNat < 128) :
    UInt8.ofNat d.val.toNat ∈ String.utf8EncodeChar c ↔ c = d := by
  rw [← List.count_pos_iff, count_utf8EncodeChar c d hd]
  split
  · next h => simp [h]
  · next h => simp [h]

theorem utf8EncodeChar_of_lt (hd : d.val.toNat < 128) :
    String.utf8EncodeChar d = [UInt8.ofNat d.val.toNat] := by
  rw [String.utf8EncodeChar, if_pos (Nat.le_of_lt_succ hd)]

@[simp] theorem utf8_nil : utf8 [] = [] := rfl

theorem utf8_cons (c : Char) (text : List Char) :
    utf8 (c :: text) = String.utf8EncodeChar c ++ utf8 text := List.flatMap_cons

theorem utf8_append (s t : List Char) : utf8 (s ++ t) = utf8 s ++ utf8 t := List.flatMap_append

theorem length_utf8 (text : List Char) : (utf8 text).length = byteLength text := by
  induction text with
  | nil => rfl
  | cons c text ih =>
    rw [utf8_cons, List.length_append, ih, String.length_utf8EncodeChar]
    rfl

theorem drop_utf8 (text : List Char) (p : Nat) :
    (utf8 text).drop (byteLength (text.take p)) = utf8 (text.drop p) := by
  conv => lhs; arg 2; rw [← List.take_append_drop p text]
  rw [utf8_append, ← length_utf8, List.drop_left]

theorem byteLength_of_isAscii (h : IsAscii piece) : byteLength piece = piece.length := by
  induction piece with
  | nil => rfl
  | cons d piece ih =>
    obtain ⟨hd, hp⟩ := List.forall_mem_cons.1 h
    rw [← length_utf8, utf8_cons, utf8EncodeChar_of_lt hd, List.length_append, length_utf8, ih hp,
      List.length_singleton, List.length_cons, Nat.add_comm]

/-- Pieces are read off the bytes as they are read off the characters: the form of one character
begins that of no other. -/
theorem isPrefix_utf8_iff : utf8 piece <+: utf8 text ↔ piece <+: text := by
  induction piece generalizing text with
  | nil => simp
  | cons c piece ih =>
    cases text with
    | nil =>
      have hne : String.utf8EncodeChar c ≠ [] := String.utf8EncodeChar_ne_nil
      simp [utf8_cons, hne]
    | cons d text =>
      rw [utf8_cons, utf8_cons, List.cons_prefix_cons, ← ih]
      constructor
      · rintro ⟨more, hmore⟩
        rw [List.append_assoc] at hmore
        rcases lt_trichotomy c d with hlt | rfl | hlt
        · have := utf8EncodeChar_append_lt hlt (utf8 piece ++ more) (utf8 text)
          exact absurd (hmore ▸ this) (List.lt_irrefl _)
        · exact ⟨rfl, more, List.append_cancel_left hmore⟩
        · have := utf8EncodeChar_append_lt hlt (utf8 text) (utf8 piece ++ more)
          exact absurd (hmore ▸ this) (List.lt_irrefl _)
      · rintro ⟨rfl, hpre⟩
        rwa [List.prefix_append_right_inj]

/-- A byte below 128 is a whole character of the text. -/
theorem exists_position_of_byte (hd : d.val.toNat < 128)
    (h : (utf8 text)[q]? = some (UInt8.ofNat d.val.toNat)) :
    ∃ p, text[p]? = some d ∧ byteLength (text.take p) = q := by
  induction text generalizing q with
  | nil => simp at h
  | cons c text ih =>
    rw [utf8_cons] at h
    by_cases hq : q < (String.utf8EncodeChar c).length
    · rw [List.getElem?_append_left hq] at h
      have hcd := (mem_utf8EncodeChar_iff hd).1 (List.mem_of_getElem? h)
      rw [hcd, utf8EncodeChar_of_lt hd, List.length_singleton] at hq
      exact ⟨0, by rw [hcd]; rfl, (Nat.lt_one_iff.1 hq).symm⟩
    · rw [List.getElem?_append_right (Nat.le_of_not_lt hq)] at h
      obtain ⟨p, hp, hlen⟩ := ih h
      refine ⟨p + 1, hp, ?_⟩
      rw [String.length_utf8EncodeChar] at hq hlen
      rw [List.take_succ_cons, byteLength, List.foldr_cons]
      rw [byteLength] at hlen
      omega

theorem toNat_ofNat_toNat (b : UInt8) : (Char.ofNat b.toNat).val.toNat = b.toNat := by
  have hb : b.toNat < 256 := b.toNat_lt
  rw [Char.ofNat, dif_pos (.inl (by omega))]
  rfl

/-- A property of characters below 128 holds of the first byte, read as a character, if it holds of
the first character. -/
theorem any_head?_utf8 {f : Char → Bool} (hf : ∀ c, f c = true → c.val.toNat < 128)
    (text : List Char) :
    ((utf8 text).head?.any fun b => f (Char.ofNat b.toNat)) = text.head?.any f := by
  cases text with
  | nil => rfl
  | cons c text =>
    rw [utf8_cons, List.head?_cons, Option.any_some]
    by_cases hc : c.val.toNat < 128
    · have code : (UInt8.ofNat c.val.toNat).toNat = c.val.toNat :=
        UInt8.toNat_ofNat_of_lt' (Nat.lt_trans hc (by decide))
      have read : Char.ofNat c.val.toNat = c := Char.ofNat_toNat c
      rw [utf8EncodeChar_of_lt hc, List.singleton_append, List.head?_cons, Option.any_some, code,
        read]
    · have hne : String.utf8EncodeChar c ≠ [] := String.utf8EncodeChar_ne_nil
      obtain ⟨b, bytes, hb⟩ := List.exists_cons_of_ne_nil hne
      rw [hb, List.cons_append, List.head?_cons, Option.any_some,
        Bool.eq_false_iff.2 fun h => hc (hf c h), Bool.eq_false_iff]
      intro h
      -- the byte would be a character of its own
      have low := hf _ h
      have alone : c = Char.ofNat b.toNat := by
        apply (mem_utf8EncodeChar_iff low).1
        rw [toNat_ofNat_toNat, UInt8.ofNat_toNat, hb]
        exact List.mem_cons_self
      exact hc (alone ▸ low)

/-- A character below 128 takes one byte. -/
theorem Offsets.get_succ {content : String} (hd : d.val.toNat < 128)
    (h : content.toList[p]? = some d) :
    (ofText content).get (p + 1) = (ofText content).get p + 1 := by
  rw [← get_add_slice content (Nat.le_succ p), slice_singleton h,
    byteLength_of_isAscii (by simpa [IsAscii] using hd), List.length_singleton]

end Shortcode.Text
