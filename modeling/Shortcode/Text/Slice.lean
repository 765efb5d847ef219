namespace Shortcode.Text

/-- Bytes that the UTF-8 form of a text takes. -/
def byteLength (s : List Char) : Nat := s.foldr (fun c n => c.utf8Size + n) 0

theorem byteLength_append (s t : List Char) :
    byteLength (s ++ t) = byteLength s + byteLength t := by
  induction s with
  | nil => exact (Nat.zero_add _).symm
  | cons c s ih =>
    simp only [byteLength, List.cons_append, List.foldr_cons] at ih ⊢
    rw [ih, Nat.add_assoc]

/-- Position of the first place where the pattern can be read off. -/
def indexOf? (pattern : List Char) : List Char → Option Nat
  | [] => if pattern.isEmpty then some 0 else none
  | c :: rest =>
    if pattern.isPrefixOf (c :: rest) then some 0 else (indexOf? pattern rest).map (· + 1)

/-- The pattern stands where it was found. -/
theorem eq_of_indexOf? {pattern text : List Char} {k : Nat} (h : indexOf? pattern text = some k) :
    text = text.take k ++ pattern ++ text.drop (k + pattern.length) := by
  induction text generalizing k with
  | nil =>
    rw [indexOf?] at h
    split at h
    · next hp =>
      rw [List.isEmpty_iff.1 hp]
      simp
    · cases h
  | cons c rest ih =>
    rw [indexOf?] at h
    split at h
    · next hp =>
      cases h
      obtain ⟨after, ha⟩ := List.isPrefixOf_iff_prefix.1 hp
      rw [← ha]
      simp
    · obtain ⟨j, hj, rfl⟩ := Option.map_eq_some_iff.1 h
      have hr := ih hj
      rw [Nat.add_right_comm, List.take_succ_cons, List.drop_succ_cons, List.cons_append,
        List.cons_append, ← hr]

/-- The characters from position `a` up to, not including, position `b`. -/
def slice (s : List Char) (a b : Nat) : List Char := (s.drop a).take (b - a)

theorem length_slice_le (s : List Char) (a b : Nat) : (slice s a b).length ≤ s.length - a := by
  simp only [slice, List.length_take, List.length_drop]
  omega

theorem slice_drop (s : List Char) {a b k : Nat} (h : k ≤ a) :
    slice (s.drop k) (a - k) (b - k) = slice s a b := by
  simp only [slice, List.drop_drop]
  congr 1
  · omega
  · congr 1; omega

/-- A piece of a text, by its end positions, and what to write in its place. -/
structure Edit where
  start : Nat
  stop : Nat
  text : String

/-- The text `rest` behind position `cursor` with its edits made, which are in order and do not
overlap. -/
def spliceFrom : Nat → List Char → List Edit → List Char
  | _, rest, [] => rest
  | cursor, rest, e :: edits =>
    rest.take (e.start - cursor) ++ e.text.toList
      ++ spliceFrom e.stop (rest.drop (e.stop - cursor)) edits

/-- The text with every edited piece replaced and everything between them unchanged. -/
def splice (content : String) (edits : List Edit) : String :=
  String.ofList (spliceFrom 0 content.toList edits)

@[simp] theorem splice_nil (content : String) : splice content [] = content := by
  simp [splice, spliceFrom]

end Shortcode.Text
