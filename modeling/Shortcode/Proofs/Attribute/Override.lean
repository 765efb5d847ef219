import Mathlib.Data.List.Nodup
import Shortcode.Proofs.Attribute.Blank
import Shortcode.Proofs.Attribute.Filed

namespace Shortcode

namespace Attributes

variable {m : Attributes} {entries : List (Key × String)} {key : Key} {value : String}

theorem nodup_keys_ofList (entries : List (Key × String)) : (ofList entries).keys.Nodup := by
  induction entries using List.reverseRecOn with
  | nil => exact .nil
  | append_singleton entries e ih =>
    rw [ofList_concat, keys_insert]
    split
    · exact ih
    · next h =>
      rw [← List.concat_eq_append]
      exact ih.concat h

theorem get?_of_notMem (h : key ∉ m.keys) : m.get? key = none := by
  rw [get?, Option.map_eq_none_iff, List.find?_eq_none]
  intro e he hk
  exact h (List.mem_map.2 ⟨e, he, of_decide_eq_true hk⟩)

theorem mem_keys_iff : key ∈ m.keys ↔ m.get? key ≠ none := by
  rw [keys, List.mem_map, get?, Ne, Option.map_eq_none_iff, List.find?_eq_none]
  simp

theorem put_of_notMem (h : key ∉ entries.map (·.1)) :
    put key value entries = entries ++ [(key, value)] := by
  induction entries with
  | nil => rfl
  | cons e entries ih =>
    rw [List.map_cons, List.mem_cons, not_or] at h
    rw [put, if_neg (Ne.symm h.1), ih h.2, List.cons_append]

/-- A list that gives each key once is kept as it is. -/
theorem entries_ofList (h : (entries.map (·.1)).Nodup) : (ofList entries).entries = entries := by
  induction entries using List.reverseRecOn with
  | nil => rfl
  | append_singleton entries e ih =>
    rw [List.map_append, List.map_singleton, List.nodup_append] at h
    obtain ⟨before, -, apart⟩ := h
    have new : e.1 ∉ entries.map (·.1) := fun hm => apart e.1 hm e.1 List.mem_cons_self rfl
    rw [ofList_concat]
    change put e.1 e.2 (ofList entries).entries = _
    rw [ih before, put_of_notMem new]

theorem mem_keys_override (written : Written) :
    key ∈ (m.override written).keys ↔ key ∈ m.keys := by
  rw [override, keys_ofList, List.mem_eraseDups, List.map_map]
  rfl

theorem entries_override (h : m.keys.Nodup) (written : Written) :
    (m.override written).entries =
      m.entries.map fun e => (e.1, (written.get? e.1).getD e.2) := by
  rw [override, entries_ofList]
  rw [List.map_map]
  exact h

theorem keys_override (h : m.keys.Nodup) (written : Written) :
    (m.override written).keys = m.keys := by
  rw [keys, entries_override h, List.map_map]
  rfl

theorem get?_override (h : m.keys.Nodup) (written : Written) (key : Key) :
    (m.override written).get? key = (m.get? key).map (written.get? key).getD := by
  rw [get?, entries_override h, List.find?_map, get?]
  change ((m.entries.find? (·.1 = key)).map _).map _ = _
  cases he : m.entries.find? (·.1 = key) with
  | none => rfl
  | some e =>
    have found := List.find?_some he
    obtain rfl : e.1 = key := of_decide_eq_true found
    rfl

theorem get?_override_absent (h : m.keys.Nodup) (key : Key) :
    (m.override .absent).get? key = m.get? key := by
  rw [get?_override h]
  cases m.get? key <;> rfl

end Attributes

namespace Attribute

/-- The token is written with the name, in whatever case. -/
def Token.isNamed (name : String) (t : Token) : Bool :=
  t.name.any fun written => written.map Char.toLower = name.toList.map Char.toLower

/-- The value of the last token that is written with the name, in whatever case. -/
def lastNamed (name : String) (ts : List Token) : Option String :=
  (ts.filter (·.isNamed name)).getLast?.map (String.ofList ·.value)

variable {name : String} {t : Token}

/-- A name in whatever case is filed under the same key. -/
theorem isNamed_iff {written : List Char} (h : t.name = some written) :
    t.isNamed name = true ↔
      Key.name (String.ofList (written.map Char.toLower)) = .name (name.map Char.toLower) := by
  rw [Token.isNamed, h, Option.any_some, decide_eq_true_iff, Key.name.injEq, ← String.toList_inj,
    String.toList_ofList, String.toList_map]

theorem map_filed (name : String) (n : Nat) (ts : List Token) :
    ((filed n ts).filter (·.1 = .name (name.map Char.toLower))).map (·.2) =
      (ts.filter (·.isNamed name)).map (String.ofList ·.value) := by
  induction ts generalizing n with
  | nil => rfl
  | cons t ts ih =>
    rw [filed]
    split
    · next written h =>
      rw [List.filter_cons, List.filter_cons]
      by_cases hn : t.isNamed name = true
      · have hk := decide_eq_true ((isNamed_iff h).1 hn)
        rw [if_pos hk, if_pos hn, List.map_cons, List.map_cons, ih]
      · have hk := mt of_decide_eq_true (mt (isNamed_iff h).2 hn)
        rw [if_neg hk, if_neg hn, ih]
    · next h =>
      have hn : t.isNamed name = false := by rw [Token.isNamed, h, Option.any_none]
      rw [List.filter_cons_of_neg (by simp), List.filter_cons_of_neg (by simp [hn]), ih]

theorem get?_filed (name : String) (n : Nat) (ts : List Token) :
    (Attributes.ofList (filed n ts)).get? (.name (name.map Char.toLower)) = lastNamed name ts := by
  rw [Attributes.get?_ofList, ← List.getLast?_filter, ← List.getLast?_map, map_filed,
    List.getLast?_map, lastNamed]

end Attribute

namespace Written

open Attribute

/-- A blank text has no token with a name. -/
theorem lastNamed_of_blank {text : List Char} (h : ∀ c ∈ text, isBlank c = true) (name : String) :
    lastNamed name (tokens (foldSpaces text)) = none := by
  rw [lastNamed, Option.map_eq_none_iff, List.getLast?_eq_none_iff, List.filter_eq_nil_iff]
  intro t ht named
  obtain ⟨written, hw, -⟩ := (Option.any_eq_true _ _).1 named
  have zero := eq_zero_of_blank h ht '=' (by simp [Token.text, hw])
  cases zero

/-- What is written for a name in lower case is the last value with that name in whatever case. -/
theorem get?_parse (text name : String) :
    (parse text).get? (.name (name.map Char.toLower)) =
      lastNamed name (tokens (foldSpaces text.toList)) := by
  rw [parse]
  split
  · next blank => exact (lastNamed_of_blank (List.all_eq_true.1 blank) name).symm
  · rw [foldl_addToken_empty]
    exact get?_filed name 0 _

end Written

end Shortcode
