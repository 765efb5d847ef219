import Shortcode.Proofs.Tag.Printed

namespace Shortcode.Tag

/-- The name stands behind the position and does not run on there. -/
def Named (text : List Char) (p : Nat) (name : String) : Prop :=
  ∃ after, text.drop (p + 1) = name.toList ++ after ∧
    ∀ c, after.head? = some c → continuesName c = false

/-- Of the names, this is the longest that stands behind the position. -/
structure Resolves (names : List String) (text : List Char) (p : Nat) (name : String) : Prop where
  mem : name ∈ names
  named : Named text p name
  longest : ∀ other ∈ names, Named text p other → other ≠ name →
    other.utf8ByteSize < name.utf8ByteSize

section

variable {text : List Char} {p : Nat} {a b : String}

theorem named_iff_opens : Named text p a ↔ opens (text.drop (p + 1)) a.toList = true := by
  rw [opens_iff, Named]
  constructor
  · rintro ⟨after, htext, hafter⟩
    refine ⟨after, htext.symm, ?_⟩
    cases hc : after.head? with
    | none => rfl
    | some c => exact hafter c hc
  · rintro ⟨after, htext, hafter⟩
    refine ⟨after, htext.symm, fun c hc => ?_⟩
    rwa [hc] at hafter

theorem Named.isPrefix_drop (h : Named text p a) : a.toList <+: text.drop (p + 1) := by
  obtain ⟨after, htext, -⟩ := h
  exact ⟨after, htext.symm⟩

/-- Of two names at one place the shorter begins the longer. -/
theorem Named.isPrefix (ha : Named text p a) (hb : Named text p b)
    (h : a.utf8ByteSize ≤ b.utf8ByteSize) : a.toList <+: b.toList := by
  rcases List.prefix_or_prefix_of_prefix ha.isPrefix_drop hb.isPrefix_drop with hab | hba
  · exact hab
  · rw [← Text.byteLength_toList, ← Text.byteLength_toList] at h
    have he := Text.eq_of_isPrefix_of_byteLength_le hba h
    exact ⟨[], by rw [List.append_nil, he]⟩

theorem Named.eq_of_size (ha : Named text p a) (hb : Named text p b)
    (h : a.utf8ByteSize = b.utf8ByteSize) : a = b := by
  have hab := ha.isPrefix hb (Nat.le_of_eq h)
  have hba := hb.isPrefix ha (Nat.le_of_eq h.symm)
  exact String.toList_injective (hab.eq_of_length_le hba.length_le)

theorem Resolves.eq {names : List String} (ha : Resolves names text p a)
    (hb : Resolves names text p b) : a = b := by
  by_contra hne
  have hab := ha.longest b hb.mem hb.named (Ne.symm hne)
  have hba := hb.longest a ha.mem ha.named hne
  omega

theorem longestFirst_toList {names : List String}
    (h : names.Pairwise fun a b => b.utf8ByteSize ≤ a.utf8ByteSize) :
    LongestFirst (names.map String.toList) := by
  apply List.pairwise_map.2
  apply h.imp
  intro a b hab
  rwa [Text.byteLength_toList, Text.byteLength_toList]

/-- The first name that fits is the longest. -/
theorem resolves_of_findFinIdx? {names : List String}
    (hl : names.Pairwise fun a b => b.utf8ByteSize ≤ a.utf8ByteSize)
    {k : Fin (names.map String.toList).length}
    (hk : (names.map String.toList).findFinIdx? (opens (text.drop (p + 1))) = some k) :
    Resolves names text p (String.ofList ((names.map String.toList).get k)) := by
  obtain ⟨hopens, hfirst⟩ := List.findFinIdx?_eq_some_iff.1 hk
  obtain ⟨name, hname, he⟩ := List.mem_map.1 (List.get_mem (names.map String.toList) k)
  have hnamed : Named text p name := named_iff_opens.2 (he ▸ hopens)
  rw [← he, String.ofList_toList]
  refine ⟨hname, hnamed, ?_⟩
  intro other hother hfits hne
  obtain ⟨j, hj⟩ := List.get_of_mem (List.mem_map_of_mem (f := String.toList) hother)
  have hkj : ¬ j < k := by
    intro hlt
    apply hfirst j hlt
    change opens _ ((names.map String.toList).get j) = true
    rw [hj]
    exact named_iff_opens.1 hfits
  have hkj' : k ≠ j := by
    rintro rfl
    rw [hj] at he
    exact hne (String.toList_injective he.symm)
  have hsize := List.pairwise_iff_getElem.1 (longestFirst_toList hl) k j k.isLt j.isLt
    (by omega)
  change Text.byteLength ((names.map String.toList).get j) ≤
    Text.byteLength ((names.map String.toList).get k) at hsize
  rw [hj, ← he, Text.byteLength_toList, Text.byteLength_toList] at hsize
  refine Nat.lt_of_le_of_ne hsize fun hs => hne ?_
  exact hfits.eq_of_size hnamed hs

end

end Shortcode.Tag
