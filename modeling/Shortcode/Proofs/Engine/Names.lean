import Shortcode.Engine.Bindings
import Shortcode.Proofs.Tag.Order

namespace Shortcode.Bindings

variable {α : Type} {b c : Bindings α} {name : String}

theorem ordered_names (b : Bindings α) :
    b.names.Pairwise fun a b => Tag.precedes a b = true := List.pairwise_map.2 b.ordered

theorem validateName_of_mem_names (h : name ∈ b.names) : Tag.validateName name = .ok () := by
  obtain ⟨e, he, rfl⟩ := List.mem_map.1 h
  exact Tag.validateName_eq_ok_iff.2 (b.valid e he)

theorem contains_iff : b.contains name = true ↔ name ∈ b.names := by
  rw [contains, get?, Option.isSome_map, List.find?_isSome, names, List.mem_map]
  simp only [decide_eq_true_iff]

theorem exists_get?_of_mem_names (h : name ∈ b.names) : ∃ a, b.get? name = some a :=
  Option.isSome_iff_exists.1 (contains_iff.2 h)

theorem mem_names_of_get? {a : α} (h : b.get? name = some a) : name ∈ b.names := by
  rw [← contains_iff, contains, h]
  rfl

theorem filter_put (a : α) {entries : List (String × α)} (h : ∀ e ∈ entries, e.1 ≠ name) :
    (put name a entries).filter (·.1 ≠ name) = entries := by
  have others {entries : List (String × α)} (h : ∀ e ∈ entries, e.1 ≠ name) :
      entries.filter (·.1 ≠ name) = entries :=
    List.filter_eq_self.2 fun e he => decide_eq_true (h e he)
  induction entries with
  | nil => simp [put]
  | cons e entries ih =>
    obtain ⟨he, hentries⟩ := List.forall_mem_cons.1 h
    rw [put, if_neg (Ne.symm he)]
    split
    · rw [List.filter_cons_of_neg (by simp), others h]
    · rw [List.filter_cons_of_pos (by simpa using he), ih hentries]

theorem exists_register (valid : Tag.validateName name = .ok ()) (b : Bindings α) (a : α) :
    ∃ c, b.register name a = .ok c := by
  have free := Tag.validateName_eq_ok_iff.1 valid
  unfold register
  split
  · next fault h =>
    rw [free] at h
    cases h
  · exact ⟨_, rfl⟩

/-- A name that is taken out again leaves no trace. -/
theorem unregister_of_register {a : α} (h : b.register name a = .ok c)
    (hn : b.contains name = false) : c.unregister name = b := by
  have absent : ∀ e ∈ b.entries, e.1 ≠ name := by
    rintro e he rfl
    rw [contains_iff.2 (List.mem_map_of_mem he)] at hn
    cases hn
  unfold register at h
  split at h
  · cases h
  · cases h
    have entries := filter_put a absent
    simp only [unregister, entries]

theorem names_unregister (b : Bindings α) (name : String) :
    (b.unregister name).names = b.names.filter (· ≠ name) := by
  rw [names, names, unregister, List.filter_map]
  rfl

end Shortcode.Bindings
