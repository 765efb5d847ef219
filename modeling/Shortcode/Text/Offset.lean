import Shortcode.Text.Slice

namespace Shortcode.Text

/-- The offset of each position of a text, that of its end included. -/
structure Offsets where
  bytes : Array Nat

namespace Offsets

def advance (bytes : Array Nat) (c : Char) : Array Nat :=
  bytes.push (bytes.back?.getD 0 + c.utf8Size)

def ofText (content : String) : Offsets := ⟨content.toList.foldl advance #[0]⟩

/-- The offset of a position. Positions behind the end of the text have that of the end. -/
def get (o : Offsets) (p : Nat) : Nat := o.bytes[min p (o.bytes.size - 1)]?.getD 0

private theorem range_append (s : List Char) (c : Char) :
    ((List.range ((s ++ [c]).length + 1)).map fun k => byteLength ((s ++ [c]).take k)) =
      ((List.range (s.length + 1)).map fun k => byteLength (s.take k)) ++
        [byteLength s + c.utf8Size] := by
  rw [List.length_append, List.length_singleton, List.range_succ, List.map_append]
  congr 1
  · refine List.map_congr_left fun k hk => ?_
    rw [List.take_append_of_le_length (Nat.le_of_lt_succ (List.mem_range.1 hk))]
  · rw [List.map_singleton, List.take_of_length_le (by simp), byteLength_append]
    simp [byteLength]

theorem toList_foldl_advance {done rest : List Char} {bytes : Array Nat}
    (h : bytes.toList = (List.range (done.length + 1)).map fun k => byteLength (done.take k)) :
    (rest.foldl advance bytes).toList =
      (List.range ((done ++ rest).length + 1)).map fun k => byteLength ((done ++ rest).take k) := by
  induction rest generalizing done bytes with
  | nil => rwa [List.append_nil]
  | cons c rest ih =>
    have hb : bytes.back?.getD 0 = byteLength done := by
      rw [← Array.getLast?_toList, h, List.range_succ, List.map_append, List.map_singleton,
        List.getLast?_concat, List.take_length]
      rfl
    rw [List.foldl_cons, List.append_cons]
    refine ih ?_
    rw [advance, Array.toList_push, hb, h, range_append]

/-- The offset of a position is the length of the text in front of it. -/
theorem get_ofText (content : String) (p : Nat) :
    (ofText content).get p = byteLength (content.toList.take p) := by
  have h : (content.toList.foldl advance #[0]).toList = _ :=
    @toList_foldl_advance [] content.toList #[0] rfl
  simp only [List.nil_append] at h
  have hs : (content.toList.foldl advance #[0]).size = content.toList.length + 1 := by
    rw [← Array.length_toList, h, List.length_map, List.length_range]
  rw [get, ofText, hs, Nat.add_sub_cancel, ← Array.getElem?_toList, h, List.getElem?_map,
    List.getElem?_range (Nat.lt_succ_of_le (Nat.min_le_right ..))]
  simp [← List.take_eq_take_min]

end Offsets
end Shortcode.Text
