import Mathlib.Order.Nat
import Shortcode.Proofs.Attribute.Override

namespace Shortcode

namespace Attributes

variable {m other : Attributes} {entries : List (Key × String)} {keys others : List Key} {key : Key}
  {value : String}

/-- The number behind the largest one among the keys, or 0 if there is none. -/
def numberAfter : List Key → Nat
  | [] => 0
  | .index i :: keys => max (i + 1) (numberAfter keys)
  | .name _ :: keys => numberAfter keys

theorem numberAfter_le_iff {n : Nat} :
    numberAfter keys ≤ n ↔ ∀ i, Key.index i ∈ keys → i < n := by
  induction keys with
  | nil => simp [numberAfter]
  | cons key keys ih =>
    cases key with
    | index i =>
      rw [numberAfter, Nat.max_le, ih, Nat.succ_le_iff]
      simp
    | name s =>
      rw [numberAfter, ih]
      simp

theorem numberAfter_congr (h : ∀ key, key ∈ keys ↔ key ∈ others) :
    numberAfter keys = numberAfter others := by
  refine eq_of_forall_ge_iff fun n => ?_
  simp only [numberAfter_le_iff, h]

theorem numberAfter_concat (keys : List Key) (key : Key) :
    numberAfter (keys ++ [key]) = max (numberAfter keys) (numberAfter [key]) := by
  refine eq_of_forall_ge_iff fun n => ?_
  simp only [Nat.max_le, numberAfter_le_iff, List.mem_append, or_imp, forall_and]

theorem index_numberAfter_notMem (keys : List Key) : Key.index (numberAfter keys) ∉ keys :=
  fun h => Nat.lt_irrefl _ (numberAfter_le_iff.1 (Nat.le_refl _) _ h)

/-- The number is one more than the largest among the keys, or there is no number among them. -/
theorem numberAfter_eq (keys : List Key) :
    (numberAfter keys = 0 ∧ ∀ i, Key.index i ∉ keys) ∨
      ∃ i, numberAfter keys = i + 1 ∧ Key.index i ∈ keys ∧ ∀ j, Key.index j ∈ keys → j ≤ i := by
  have below := numberAfter_le_iff.1 (Nat.le_refl (numberAfter keys))
  cases hn : numberAfter keys with
  | zero => exact .inl ⟨rfl, fun i hi => Nat.not_lt_zero i (hn ▸ below i hi)⟩
  | succ i =>
    have reached : ¬ numberAfter keys ≤ i := by omega
    rw [numberAfter_le_iff] at reached
    push Not at reached
    obtain ⟨j, hj, hij⟩ := reached
    have hji := below j hj
    obtain rfl : j = i := by omega
    refine .inr ⟨j, rfl, hj, fun k hk => ?_⟩
    have := below k hk
    omega

/-- No key stands twice, and the numbering goes on behind the largest number. -/
structure Canonical (m : Attributes) : Prop where
  nodup : m.keys.Nodup
  next : m.nextIndex = numberAfter m.keys

theorem nextIndex_insert (m : Attributes) (key : Key) (value : String) :
    (m.insert key value).nextIndex = max m.nextIndex (numberAfter [key]) := by
  cases key with
  | index i => rfl
  | name s => exact (Nat.max_zero _).symm

theorem nextIndex_ofList (entries : List (Key × String)) :
    (ofList entries).nextIndex = numberAfter (entries.map (·.1)) := by
  induction entries using List.reverseRecOn with
  | nil => rfl
  | append_singleton entries e ih =>
    rw [ofList_concat, nextIndex_insert, ih, List.map_append, List.map_singleton,
      numberAfter_concat]

theorem canonical_ofList (entries : List (Key × String)) : (ofList entries).Canonical where
  nodup := nodup_keys_ofList entries
  next := by
    rw [nextIndex_ofList, keys_ofList]
    exact numberAfter_congr fun _ => List.mem_eraseDups.symm

theorem Canonical.eq_of_entries (h : m.Canonical) (h' : other.Canonical)
    (same : m.entries = other.entries) : m = other := by
  have next : m.nextIndex = other.nextIndex := by rw [h.next, h'.next, keys, same, keys]
  obtain ⟨entries, next⟩ := m
  cases same
  cases next
  rfl

theorem get?_eq_some_of_mem (nodup : m.keys.Nodup) (h : (key, value) ∈ m.entries) :
    m.get? key = some value := by
  obtain ⟨e, he⟩ := Option.isSome_iff_exists.1
    (List.find?_isSome (p := fun e => decide (e.1 = key)) |>.2 ⟨_, h, decide_eq_true rfl⟩)
  have found := List.find?_some he
  have hk : e.1 = key := of_decide_eq_true found
  obtain rfl := List.inj_on_of_nodup_map nodup (List.mem_of_find?_eq_some he) h hk
  rw [get?, he]
  rfl

/-- A map is read off its keys, if none stands twice. -/
theorem entries_eq_map (nodup : m.keys.Nodup) :
    m.entries = m.keys.map fun key => (key, (m.get? key).getD "") := by
  rw [keys, List.map_map]
  refine (List.map_id m.entries).symm.trans (List.map_congr_left fun e he => ?_)
  have found : m.get? e.1 = some e.2 := get?_eq_some_of_mem nodup he
  rw [Function.comp_apply, found]
  rfl

/-- Canonical maps with the same keys in the same order and the same values are the same. -/
theorem Canonical.ext (h : m.Canonical) (h' : other.Canonical) (keys : m.keys = other.keys)
    (values : ∀ key, m.get? key = other.get? key) : m = other := by
  refine h.eq_of_entries h' ?_
  rw [entries_eq_map h.nodup, entries_eq_map h'.nodup, keys, funext values]

theorem canonical_override (m : Attributes) (written : Written) : (m.override written).Canonical :=
  canonical_ofList _

/-- What is done to a map. -/
inductive Edit where
  | insert (key : Key) (value : String)
  | push (value : String)
  | override (written : Written)

def after (m : Attributes) : Edit → Attributes
  | .insert key value => m.insert key value
  | .push value => m.push value
  | .override written => m.override written

/-- The map behind edits of the empty one. -/
def run (edits : List Edit) : Attributes := edits.foldl after .empty

/-- The values that an edit gives where others were given before. One without a name goes under the
number behind the largest so far, and what is written goes to the keys that are there. -/
def Edit.gives (given : List (Key × String)) : Edit → List (Key × String)
  | .insert key value => [(key, value)]
  | .push value => [(.index (numberAfter (given.map (·.1))), value)]
  | .override written =>
    given.filterMap fun e => (written.get? e.1).map fun value => (e.1, value)

/-- All values that are given in a run, one behind the other. -/
def given (edits : List Edit) : List (Key × String) :=
  edits.foldl (fun before edit => before ++ edit.gives before) []

/-- The value that was given last for a key. -/
def lastGiven (edits : List Edit) (key : Key) : Option String :=
  ((given edits).reverse.find? (·.1 = key)).map (·.2)

theorem run_concat (edits : List Edit) (edit : Edit) :
    run (edits ++ [edit]) = (run edits).after edit := List.foldl_concat ..

theorem given_concat (edits : List Edit) (edit : Edit) :
    given (edits ++ [edit]) = given edits ++ edit.gives (given edits) := List.foldl_concat ..

theorem push_ofList (entries : List (Key × String)) (value : String) :
    (ofList entries).push value =
      ofList (entries ++ [(.index (numberAfter (entries.map (·.1))), value)]) := by
  rw [push, nextIndex_ofList, ofList_concat]

/-- The last value that is written for a key which is there, or else the last one before. -/
theorem find?_override (entries : List (Key × String)) (written : Written) (key : Key) :
    ((entries ++ (Edit.override written).gives entries).reverse.find? (·.1 = key)).map (·.2) =
      ((entries.reverse.find? (·.1 = key)).map (·.2)).map (written.get? key).getD := by
  have gives (e : Key × String) :
      ((written.get? e.1).map fun value => (e.1, value)).any (·.1 = key) =
        ((written.get? key).isSome && decide (e.1 = key)) := by
    by_cases hk : e.1 = key
    · cases hw : written.get? key <;> simp [hk, hw]
    · cases written.get? e.1 <;> simp [hk]
  rw [Edit.gives, List.reverse_append, List.find?_append, ← List.filterMap_reverse,
    List.find?_filterMap, funext gives]
  cases hw : written.get? key with
  | none =>
    have nothing : entries.reverse.find? (fun e =>
        (none : Option String).isSome && decide (e.1 = key)) = none := by simp
    rw [nothing]
    cases entries.reverse.find? (·.1 = key) <;> rfl
  | some value =>
    cases he : entries.reverse.find? (·.1 = key) with
    | none => simp [he]
    | some e =>
      have found := List.find?_some he
      obtain rfl : e.1 = key := of_decide_eq_true found
      simp [he, hw]

/-- Laying written attributes over a map is giving their values to its keys. -/
theorem override_ofList (entries : List (Key × String)) (written : Written) :
    (ofList entries).override written =
      ofList (entries ++ (Edit.override written).gives entries) := by
  have nodup := nodup_keys_ofList entries
  refine (canonical_override _ _).ext (canonical_ofList _) ?_ fun key => ?_
  · have known : ∀ key ∈ ((Edit.override written).gives entries).map (·.1),
        key ∈ entries.map (·.1) := by
      simp only [Edit.gives, List.mem_map, List.mem_filterMap, Option.map_eq_some_iff]
      rintro key ⟨_, ⟨e, he, value, -, rfl⟩, rfl⟩
      exact ⟨e, he, rfl⟩
    rw [keys_override nodup, keys_ofList, keys_ofList, List.map_append, List.eraseDups_append,
      List.removeAll, List.filter_eq_nil_iff.2]
    · simp
    · intro key hk
      simpa using known key hk
  · rw [get?_override nodup, get?_ofList, get?_ofList, find?_override]

theorem run_eq_ofList (edits : List Edit) : run edits = ofList (given edits) := by
  induction edits using List.reverseRecOn with
  | nil => rfl
  | append_singleton edits edit ih =>
    rw [run_concat, given_concat, ih]
    cases edit with
    | insert key value => exact (ofList_concat ..).symm
    | push value => exact push_ofList ..
    | override written => exact override_ofList ..

theorem canonical_run (edits : List Edit) : (run edits).Canonical :=
  run_eq_ofList edits ▸ canonical_ofList _

/-- What was given in the first part of a run comes first. -/
theorem given_prefix (edits more : List Edit) : given edits <+: given (edits ++ more) := by
  induction more using List.reverseRecOn with
  | nil => exact (List.append_nil edits).symm ▸ List.prefix_rfl
  | append_singleton more edit ih =>
    rw [← List.append_assoc, given_concat]
    exact ih.trans (List.prefix_append _ _)

end Attributes

end Shortcode
