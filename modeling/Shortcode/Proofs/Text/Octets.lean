import Mathlib.Data.List.Infix
import Shortcode.Proofs.Html.Grammar
import Shortcode.Proofs.Text.Ascii

namespace Shortcode.Text

/-- The bytes of a text, each as the character of its number. -/
def octets (text : List Char) : List Char := (utf8 text).map fun b => Char.ofNat b.toNat

theorem injective_octet : Function.Injective fun b : UInt8 => Char.ofNat b.toNat := by
  intro a b h
  have code := congrArg (·.val.toNat) h
  dsimp only at code
  rw [toNat_ofNat_toNat, toNat_ofNat_toNat] at code
  exact UInt8.toNat_inj.1 code

theorem octets_append (s t : List Char) : octets (s ++ t) = octets s ++ octets t := by
  simp [octets, utf8_append]

@[simp] theorem length_octets (text : List Char) : (octets text).length = byteLength text := by
  rw [octets, List.length_map, length_utf8]

/-- What is below 128 is its own byte. -/
theorem octets_of_isAscii {piece : List Char} (h : IsAscii piece) : octets piece = piece := by
  induction piece with
  | nil => rfl
  | cons d piece ih =>
    obtain ⟨hd, hp⟩ := List.forall_mem_cons.1 h
    have code : (UInt8.ofNat d.val.toNat).toNat = d.val.toNat :=
      UInt8.toNat_ofNat_of_lt' (Nat.lt_trans hd (by decide))
    have read : Char.ofNat d.val.toNat = d := Char.ofNat_toNat d
    rw [← List.singleton_append, octets_append, ih hp, octets, utf8_cons, utf8EncodeChar_of_lt hd,
      utf8_nil, List.append_nil, List.map_singleton, code, read]

theorem isPrefix_octets_iff {piece text : List Char} :
    octets piece <+: octets text ↔ piece <+: text := by
  rw [octets, octets, List.prefix_map_iff_of_injective injective_octet, isPrefix_utf8_iff]

theorem any_head?_octets {f : Char → Bool} (hf : ∀ c, f c = true → c.val.toNat < 128)
    (text : List Char) : (octets text).head?.any f = text.head?.any f := by
  rw [octets, List.head?_map, Option.any_map]
  exact any_head?_utf8 hf text

section

variable {content : String} {d : Char} {p q : Nat}

theorem drop_octets_get (content : String) (p : Nat) :
    (octets content.toList).drop ((Offsets.ofText content).get p) =
      octets (content.toList.drop p) := by
  rw [octets, ← List.map_drop, Offsets.get_ofText, drop_utf8, octets]

theorem slice_octets_get (content : String) {a b : Nat} (hab : a ≤ b) :
    slice (octets content.toList) ((Offsets.ofText content).get a)
      ((Offsets.ofText content).get b) = octets (slice content.toList a b) := by
  refine slice_of_isPrefix ?_ ?_
  · rw [drop_octets_get, isPrefix_octets_iff]
    exact List.take_prefix _ _
  · rw [length_octets, Offsets.get_add_slice content hab]

theorem getElem?_octets_get (hd : d.val.toNat < 128) :
    (octets content.toList)[(Offsets.ofText content).get p]? = some d ↔
      content.toList[p]? = some d := by
  have alone : octets [d] = [d] := octets_of_isAscii (by simpa [IsAscii] using hd)
  rw [← standsAt_singleton, ← standsAt_singleton, StandsAt, StandsAt, drop_octets_get, ← alone,
    isPrefix_octets_iff, alone]

/-- A byte below 128 stands where a character does. -/
theorem exists_position_of_octet (hd : d.val.toNat < 128)
    (h : (octets content.toList)[q]? = some d) :
    ∃ p < content.length, (Offsets.ofText content).get p = q ∧ content.toList[p]? = some d := by
  rw [octets, List.getElem?_map, Option.map_eq_some_iff] at h
  obtain ⟨b, hb, rfl⟩ := h
  rw [toNat_ofNat_toNat] at hd
  have code : b = UInt8.ofNat (Char.ofNat b.toNat).val.toNat := by
    rw [toNat_ofNat_toNat, UInt8.ofNat_toNat]
  rw [code] at hb
  obtain ⟨p, hp, hq⟩ := exists_position_of_byte (by rwa [toNat_ofNat_toNat]) hb
  have hlt := (List.getElem?_eq_some_iff.1 hp).1
  rw [String.length_toList] at hlt
  exact ⟨p, hlt, by rw [Offsets.get_ofText, hq], hp⟩

theorem Offsets.get_zero (content : String) : (ofText content).get 0 = 0 := by
  rw [get_ofText, List.take_zero]
  rfl

theorem Offsets.get_injOn (hp : p ≤ content.length) (hq : q ≤ content.length)
    (h : (ofText content).get p = (ofText content).get q) : p = q :=
  Nat.le_antisymm ((get_le_get_iff hp).1 (Nat.le_of_eq h))
    ((get_le_get_iff hq).1 (Nat.le_of_eq h.symm))

/-- What is found only where a character begins is found at the characters. -/
theorem filterMap_range_get {β : Type} {F : Nat → Option β}
    (h : ∀ q r, F q = some r → ∃ p < content.length, (Offsets.ofText content).get p = q) :
    (List.range content.utf8ByteSize).filterMap F =
      (List.range content.length).filterMap fun p => F ((Offsets.ofText content).get p) := by
  have upTo (n : Nat) (hn : n ≤ content.length) :
      (List.range ((Offsets.ofText content).get n)).filterMap F =
        (List.range n).filterMap fun p => F ((Offsets.ofText content).get p) := by
    induction n with
    | zero => rw [Offsets.get_zero]; rfl
    | succ n ih =>
      have hlt := Offsets.get_lt content (Nat.lt_succ_self n) hn
      obtain ⟨more, hmore⟩ := Nat.exists_eq_add_of_lt hlt
      -- no character begins behind the first byte of this one
      have inside : ((List.range more).map fun j =>
          (Offsets.ofText content).get n + 1 + j).filterMap F = [] := by
        rw [List.filterMap_eq_nil_iff, List.forall_mem_map]
        intro j hj
        rw [List.mem_range] at hj
        rw [Option.eq_none_iff_forall_ne_some]
        intro r hr
        obtain ⟨p, hp, hq⟩ := h _ r hr
        have above : n < p := (Offsets.get_lt_get_iff (Nat.le_of_lt hp)).1 (by omega)
        have := Offsets.get_mono content (Nat.succ_le_of_lt above)
        omega
      rw [hmore, Nat.add_right_comm, List.range_add, List.filterMap_append, inside,
        List.append_nil, List.range_succ, List.filterMap_append, ih (Nat.le_of_succ_le hn),
        List.range_succ, List.filterMap_append]
      rfl
  rw [← Offsets.get_length, upTo _ (Nat.le_refl _)]

end

end Shortcode.Text
