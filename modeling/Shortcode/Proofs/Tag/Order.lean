import Mathlib.Data.String.Basic
import Shortcode.Tag.Name

namespace Shortcode.Tag

theorem mem_insertName {a name : String} {names : List String} :
    a ∈ insertName name names ↔ a = name ∨ a ∈ names := by
  induction names with
  | nil => simp [insertName]
  | cons other names ih =>
    rw [insertName]
    split
    · next h => simp [h]
    · split
      · simp
      · simp only [List.mem_cons, ih]
        tauto

theorem pairwise_insertName {names : List String} (name : String)
    (h : names.Pairwise fun a b => precedes a b = true) :
    (insertName name names).Pairwise fun a b => precedes a b = true := by
  induction names with
  | nil => simp [insertName]
  | cons other names ih =>
    obtain ⟨hother, hnames⟩ := List.pairwise_cons.1 h
    rw [insertName]
    split
    · exact h
    · next hne =>
      split
      · next hp =>
        apply List.pairwise_cons.2
        refine ⟨?_, h⟩
        intro b hb
        rcases List.mem_cons.1 hb with rfl | hb
        · exact hp
        · exact precedes_trans hp (hother b hb)
      · next hp =>
        apply List.pairwise_cons.2
        refine ⟨?_, ih hnames⟩
        intro b hb
        rcases mem_insertName.1 hb with rfl | hb
        · exact precedes_of_not hne hp
        · exact hother b hb

theorem mem_longestFirst {a : String} {names : List String} :
    a ∈ longestFirst names ↔ a ∈ names := by
  induction names with
  | nil => rfl
  | cons name names ih =>
    rw [longestFirst, List.foldr_cons, mem_insertName, List.mem_cons]
    exact or_congr_right ih

theorem pairwise_longestFirst (names : List String) :
    (longestFirst names).Pairwise fun a b => precedes a b = true := by
  induction names with
  | nil => exact .nil
  | cons name names ih => exact pairwise_insertName name ih

theorem nodup_of_precedes {names : List String}
    (h : names.Pairwise fun a b => precedes a b = true) : names.Nodup := by
  apply h.imp
  rintro a _ hab rfl
  exact precedes_irrefl a hab

/-- No name stands in front of a longer one. -/
theorem size_of_precedes {names : List String}
    (h : names.Pairwise fun a b => precedes a b = true) :
    names.Pairwise fun a b => b.utf8ByteSize ≤ a.utf8ByteSize := by
  apply h.imp
  intro a b hab
  rcases precedes_iff.1 hab with hab | ⟨hab, -⟩ <;> omega

theorem nodup_longestFirst (names : List String) : (longestFirst names).Nodup :=
  nodup_of_precedes (pairwise_longestFirst names)

theorem size_longestFirst (names : List String) :
    (longestFirst names).Pairwise fun a b => b.utf8ByteSize ≤ a.utf8ByteSize :=
  size_of_precedes (pairwise_longestFirst names)

/-- The order leaves no choice: the members of a list determine it, also of one whose members have
names. -/
theorem eq_of_pairwise_precedes {α : Type} (key : α → String) {l l' : List α}
    (h : l.Pairwise fun a b => precedes (key a) (key b) = true)
    (h' : l'.Pairwise fun a b => precedes (key a) (key b) = true)
    (hm : ∀ a, a ∈ l ↔ a ∈ l') : l = l' := by
  have nodup {l : List α} (h : l.Pairwise fun a b => precedes (key a) (key b) = true) :
      l.Nodup := by
    apply h.imp
    rintro a _ hab rfl
    exact precedes_irrefl _ hab
  have hperm := (List.perm_ext_iff_of_nodup (nodup h) (nodup h')).2 hm
  refine hperm.eq_of_pairwise ?_ h h'
  intro a b _ _ hab hba
  exact absurd (precedes_trans hab hba) (precedes_irrefl _)

theorem eq_of_precedes {names others : List String}
    (h : names.Pairwise fun a b => precedes a b = true)
    (h' : others.Pairwise fun a b => precedes a b = true)
    (hm : ∀ name, name ∈ names ↔ name ∈ others) : names = others :=
  eq_of_pairwise_precedes id h h' hm

end Shortcode.Tag
