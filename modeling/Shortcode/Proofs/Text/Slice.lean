import Shortcode.Text.Offset

namespace Shortcode.Text

theorem slice_append_slice (s : List Char) {a b c : Nat} (hab : a ≤ b) (hbc : b ≤ c) :
    slice s a b ++ slice s b c = slice s a c := by
  have hc : c - a = (b - a) + (c - b) := by omega
  have hb : a + (b - a) = b := by omega
  rw [slice, slice, slice, hc, List.take_add, List.drop_drop, hb]

theorem slice_append_drop (s : List Char) {a b : Nat} (hab : a ≤ b) :
    slice s a b ++ s.drop b = s.drop a := by
  have h := List.take_append_drop (b - a) (s.drop a)
  rwa [List.drop_drop, Nat.add_sub_cancel' hab] at h

theorem take_append_slice (s : List Char) {a b : Nat} (hab : a ≤ b) :
    s.take a ++ slice s a b = s.take b := by
  have h := slice_append_slice s (Nat.zero_le a) hab
  simpa only [slice, List.drop_zero, Nat.sub_zero] using h

@[simp] theorem slice_self (s : List Char) (a : Nat) : slice s a a = [] := by
  simp [slice]

theorem slice_length (s : List Char) (a : Nat) : slice s a s.length = s.drop a := by
  exact List.take_of_length_le (Nat.le_of_eq List.length_drop)

theorem length_slice {s : List Char} {a b : Nat} (hb : b ≤ s.length) :
    (slice s a b).length = b - a := by
  simp only [slice, List.length_take, List.length_drop]
  omega

theorem slice_append_left {s rest : List Char} (a : Nat) {b : Nat} (hb : b ≤ s.length) :
    slice (s ++ rest) a b = slice s a b := by
  rcases Nat.le_total b a with hba | hab
  · rw [slice, slice, Nat.sub_eq_zero_of_le hba, List.take_zero, List.take_zero]
  · rw [slice, slice, List.drop_append_of_le_length (Nat.le_trans hab hb),
      List.take_append_of_le_length]
    rw [List.length_drop]
    omega

/-- What can be read off at a position is the piece that starts there. -/
theorem slice_of_isPrefix {p s : List Char} {a b : Nat} (h : p <+: s.drop a)
    (hb : b = a + p.length) : slice s a b = p := by
  obtain ⟨rest, hr⟩ := h
  rw [slice, ← hr, hb, Nat.add_sub_cancel_left, List.take_left]

theorem slice_singleton {s : List Char} {a : Nat} {c : Char} (h : s[a]? = some c) :
    slice s a (a + 1) = [c] := by
  refine slice_of_isPrefix ?_ rfl
  obtain ⟨hlt, rfl⟩ := List.getElem?_eq_some_iff.1 h
  rw [List.drop_eq_getElem_cons hlt]
  exact List.prefix_append [s[a]] _

theorem length_le_of_isPrefix_drop {p s : List Char} {a : Nat} (h : p <+: s.drop a)
    (hp : p ≠ []) : a + p.length ≤ s.length := by
  have hl := h.length_le
  have := List.length_pos_iff.2 hp
  rw [List.length_drop] at hl
  omega

theorem getElem?_of_isPrefix_drop {p s : List Char} {a j : Nat} (h : p <+: s.drop a)
    (hj : j < p.length) : s[a + j]? = p[j]? := by
  obtain ⟨rest, hr⟩ := h
  rw [← List.getElem?_drop, ← hr, List.getElem?_append_left hj]

theorem byteLength_toList (s : String) : byteLength s.toList = s.utf8ByteSize := by
  rw [← String.size_toByteArray, ← String.utf8Encode_toList]
  induction s.toList with
  | nil => rfl
  | cons c l ih =>
    rw [← List.singleton_append, byteLength_append, ih, List.utf8Encode_append,
      ByteArray.size_append]
    congr 1
    rw [List.utf8Encode_singleton, List.size_toByteArray, String.length_utf8EncodeChar]
    rfl

theorem byteLength_ofList (l : List Char) : byteLength l = (String.ofList l).utf8ByteSize := by
  rw [← byteLength_toList, String.toList_ofList]

theorem byteLength_pos {l : List Char} (h : l ≠ []) : 0 < byteLength l := by
  obtain ⟨c, l, rfl⟩ := List.exists_cons_of_ne_nil h
  rw [byteLength, List.foldr_cons]
  exact Nat.add_pos_left (Char.utf8Size_pos c) _

/-- A text begins no other text that is not larger. -/
theorem eq_of_isPrefix_of_byteLength_le {a b : List Char} (h : a <+: b)
    (hs : byteLength b ≤ byteLength a) : a = b := by
  obtain ⟨more, rfl⟩ := h
  cases more with
  | nil => exact (List.append_nil a).symm
  | cons c more =>
    have hpos := byteLength_pos (List.cons_ne_nil c more)
    rw [byteLength_append] at hs
    omega

theorem byteLength_slice_le (s : List Char) (a b : Nat) :
    byteLength (slice s a b) ≤ byteLength s := by
  have whole : s.take a ++ (slice s a b ++ (s.drop a).drop (b - a)) = s := by
    rw [slice, List.take_append_drop, List.take_append_drop]
  conv => rhs; rw [← whole, byteLength_append, byteLength_append]
  omega

theorem byteLength_le (s : List Char) : byteLength s ≤ 4 * s.length := by
  induction s with
  | nil => exact Nat.zero_le _
  | cons c s ih =>
    have := c.utf8Size_le_four
    rw [byteLength, List.foldr_cons, List.length_cons]
    rw [byteLength] at ih
    omega

namespace Offsets

/-- Every position of a text falls between two of its characters. -/
theorem isValid_get (content : String) (p : Nat) :
    (⟨(ofText content).get p⟩ : String.Pos.Raw).IsValid content := by
  have h := (String.Pos.Raw.isValid_rawEndPos
    (s := String.ofList (content.toList.take p))).append_right
      (String.ofList (content.toList.drop p))
  rw [← String.ofList_append, List.take_append_drop, String.ofList_toList] at h
  rw [get_ofText, byteLength_ofList]
  exact h

theorem get_le (content : String) (p : Nat) :
    (ofText content).get p ≤ content.utf8ByteSize :=
  (isValid_get content p).le_utf8ByteSize

theorem get_length (content : String) :
    (ofText content).get content.length = content.utf8ByteSize := by
  rw [get_ofText, ← String.length_toList, List.take_length, byteLength_toList]

theorem get_add_slice (content : String) {a b : Nat} (hab : a ≤ b) :
    (ofText content).get a + byteLength (slice content.toList a b) = (ofText content).get b := by
  rw [get_ofText, get_ofText, ← byteLength_append, take_append_slice _ hab]

theorem get_mono (content : String) {a b : Nat} (hab : a ≤ b) :
    (ofText content).get a ≤ (ofText content).get b := by
  rw [← get_add_slice content hab]
  exact Nat.le_add_right _ _

theorem get_lt (content : String) {a b : Nat} (hab : a < b) (hb : b ≤ content.length) :
    (ofText content).get a < (ofText content).get b := by
  rw [← get_add_slice content (Nat.le_of_lt hab)]
  refine Nat.lt_add_of_pos_right (byteLength_pos (List.ne_nil_of_length_pos ?_))
  rw [length_slice (by rwa [String.length_toList])]
  omega

theorem get_le_get_iff {content : String} {a b : Nat} (ha : a ≤ content.length) :
    (ofText content).get a ≤ (ofText content).get b ↔ a ≤ b := by
  refine ⟨fun h => ?_, get_mono content⟩
  apply Nat.le_of_not_lt
  intro hlt
  exact absurd h (Nat.not_le_of_lt (get_lt content hlt ha))

theorem get_lt_get_iff {content : String} {a b : Nat} (hb : b ≤ content.length) :
    (ofText content).get a < (ofText content).get b ↔ a < b := by
  rw [← Nat.not_le, get_le_get_iff hb, Nat.not_le]

/-- In a piece of the text, offsets count from where the piece begins. -/
theorem get_add_of_isPrefix {content piece : String} {p j : Nat}
    (h : piece.toList <+: content.toList.drop p) (hj : j ≤ piece.length) :
    (ofText content).get (p + j) = (ofText content).get p + (ofText piece).get j := by
  obtain ⟨rest, hr⟩ := h
  rw [get_ofText, get_ofText, get_ofText, List.take_add, byteLength_append, ← hr,
    List.take_append_of_le_length (by rwa [String.length_toList])]

/-- Every byte belongs to a character. -/
theorem exists_position (content : String) {j : Nat} (hj : j < content.utf8ByteSize) :
    ∃ p < content.length, (ofText content).get p ≤ j ∧ j < (ofText content).get (p + 1) := by
  rw [← get_length] at hj
  generalize content.length = n at hj ⊢
  induction n with
  | zero => simp [get_ofText, byteLength] at hj
  | succ n ih =>
    rcases Nat.lt_or_ge j ((ofText content).get n) with hlt | hge
    · obtain ⟨p, hp, h⟩ := ih hlt
      exact ⟨p, Nat.lt_succ_of_lt hp, h⟩
    · exact ⟨n, Nat.lt_succ_self n, hge, hj⟩

/-- The bytes between the offsets of two positions are those of the characters between them. -/
theorem extract_get (content : String) {a b : Nat} (hab : a ≤ b) :
    content.toUTF8.extract ((ofText content).get a) ((ofText content).get b) =
      (String.ofList (slice content.toList a b)).toUTF8 := by
  have hs : content = String.ofList (content.toList.take a) ++
      String.ofList (slice content.toList a b) ++ String.ofList (content.toList.drop b) := by
    rw [← String.ofList_append, ← String.ofList_append, take_append_slice _ hab,
      List.take_append_drop, String.ofList_toList]
  have hab := get_add_slice content hab
  rw [get_ofText, byteLength_ofList, byteLength_ofList] at hab
  rw [← hab, get_ofText, byteLength_ofList]
  conv => lhs; arg 1; rw [hs]
  simp only [String.toUTF8_eq_toByteArray, String.toByteArray_append]
  rw [ByteArray.append_assoc, ← String.size_toByteArray, ← String.size_toByteArray]
  conv => lhs; arg 2; rw [← Nat.add_zero (ByteArray.size _)]
  rw [ByteArray.extract_append_size_add, ByteArray.extract_append_eq_left rfl]

end Offsets
end Shortcode.Text
