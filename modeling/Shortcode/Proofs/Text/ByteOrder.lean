import Mathlib.Data.String.Basic

namespace Shortcode.Text

/-- A text stands before another in the order of bytes. -/
def ByteBefore (s t : String) : Prop := s.toUTF8.data.toList < t.toUTF8.data.toList

theorem ofNat_lt_or_iff {m n : Nat} (hm : m < 256) (hn : n < 256) {p : Prop} :
    (UInt8.ofNat m < UInt8.ofNat n ∨ UInt8.ofNat m = UInt8.ofNat n ∧ p) ↔ m < n ∨ m = n ∧ p := by
  rw [UInt8.lt_iff_toNat_lt, ← UInt8.toNat_inj, UInt8.toNat_ofNat_of_lt' hm,
    UInt8.toNat_ofNat_of_lt' hn]

/-- The bytes of a smaller character come first, whatever follows them. -/
theorem utf8EncodeChar_append_lt {c d : Char} (h : c < d) (behind behind' : List UInt8) :
    String.utf8EncodeChar c ++ behind < String.utf8EncodeChar d ++ behind' := by
  have hlt : c.val.toNat < d.val.toNat := h
  have hd : d.val.toNat < 0x110000 := d.valid.elim (fun h => by omega) (·.2)
  unfold String.utf8EncodeChar
  generalize c.val.toNat = m at *
  generalize d.val.toNat = n at *
  -- digits to the base 64, each from the quotient before it
  have split (k : Nat) : k / 4096 = k / 64 / 64 ∧ k / 262144 = k / 64 / 64 / 64 :=
    ⟨(Nat.div_div_eq_div_mul k 64 64).symm,
      by rw [Nat.div_div_eq_div_mul, Nat.div_div_eq_div_mul]⟩
  simp only [split]
  split_ifs <;> first
    | (exfalso; omega)
    | (simp (disch := omega) only [List.cons_append, List.nil_append, List.cons_lt_cons_iff,
        ofNat_lt_or_iff]
       omega)

theorem lt_flatMap_utf8EncodeChar {cs ds : List Char} (h : cs < ds) :
    cs.flatMap String.utf8EncodeChar < ds.flatMap String.utf8EncodeChar := by
  induction h with
  | nil =>
    rename_i d ds
    rw [List.flatMap_cons]
    have hne : String.utf8EncodeChar d ≠ [] := String.utf8EncodeChar_ne_nil
    obtain ⟨b, bytes, hb⟩ := List.exists_cons_of_ne_nil hne
    rw [hb]
    exact .nil
  | cons _ ih =>
    rw [List.flatMap_cons, List.flatMap_cons]
    exact List.append_left_lt ih
  | rel hcd =>
    rw [List.flatMap_cons, List.flatMap_cons]
    exact utf8EncodeChar_append_lt hcd _ _

theorem toUTF8_eq_flatMap (s : String) :
    s.toUTF8.data.toList = s.toList.flatMap String.utf8EncodeChar := by
  rw [String.toUTF8_eq_toByteArray, ← String.utf8Encode_toList, List.utf8Encode,
    List.data_toByteArray, List.toList_toArray]

theorem byteBefore_of_lt {s t : String} (h : s < t) : ByteBefore s t := by
  rw [ByteBefore, toUTF8_eq_flatMap, toUTF8_eq_flatMap]
  exact lt_flatMap_utf8EncodeChar (String.lt_iff_toList_lt.1 h)

/-- Both orders are total, so one within the other is the same. -/
theorem byteBefore_iff_lt {s t : String} : ByteBefore s t ↔ s < t := by
  refine ⟨fun h => ?_, byteBefore_of_lt⟩
  rcases lt_trichotomy s t with hst | rfl | hts
  · exact hst
  · exact absurd h (List.lt_irrefl _)
  · exact absurd h (List.lt_asymm (byteBefore_of_lt hts))

end Shortcode.Text
