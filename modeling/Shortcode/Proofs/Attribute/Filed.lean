import Mathlib.Data.List.Induction
import Shortcode.Attribute.Written

namespace Shortcode

namespace Attributes

variable (entries : List (Key × String)) (key : Key) (value : String)

theorem ofList_concat :
    ofList (entries ++ [(key, value)]) = (ofList entries).insert key value := by
  rw [ofList, List.foldl_append]
  rfl

theorem keys_insert (m : Attributes) :
    (m.insert key value).keys = if key ∈ m.keys then m.keys else m.keys ++ [key] :=
  keys_put key value m.entries

/-- A key keeps the place at which it was first given. -/
theorem keys_ofList : (ofList entries).keys = (entries.map (·.1)).eraseDups := by
  induction entries using List.reverseRecOn with
  | nil => rfl
  | append_singleton entries e ih =>
    rw [ofList_concat, keys_insert, ih, List.map_append, List.eraseDups_append, List.map_singleton]
    by_cases h : e.1 ∈ entries.map (·.1)
    · rw [if_pos (List.mem_eraseDups.2 h)]
      simp [List.removeAll, h]
    · rw [if_neg fun hm => h (List.mem_eraseDups.1 hm)]
      simp [List.removeAll, h, List.eraseDups_cons]

/-- A key has the value that was last given for it. -/
theorem get?_ofList :
    (ofList entries).get? key = (entries.reverse.find? (·.1 = key)).map (·.2) := by
  induction entries using List.reverseRecOn with
  | nil => rfl
  | append_singleton entries e ih =>
    rw [ofList_concat, get?_insert, ih, List.reverse_concat, List.find?_cons]
    by_cases h : e.1 = key
    · simp [h]
    · simp [h, Ne.symm h]

end Attributes

namespace Attribute

/-- The entries of tokens in their order. A named one stands under its name in lower case; the others
are numbered on from `n`, whatever stands between them. -/
def filed : Nat → List Token → List (Key × String)
  | _, [] => []
  | n, t :: ts =>
    match t.name with
    | some name =>
      (.name (String.ofList (name.map Char.toLower)), String.ofList t.value) :: filed n ts
    | none => (.index n, String.ofList t.value) :: filed (n + 1) ts

/-- Only tokens without a name move the numbering of a map that is filled with tokens. -/
theorem foldl_addToken (ts : List Token) (m : Attributes) :
    ts.foldl Attributes.addToken m =
      (filed m.nextIndex ts).foldl (fun m e => m.insert e.1 e.2) m := by
  induction ts generalizing m with
  | nil => rfl
  | cons t ts ih =>
    rw [List.foldl_cons, ih, filed, Attributes.addToken]
    cases t.name with
    | some name => rfl
    | none =>
      have next : (m.push (String.ofList t.value)).nextIndex = m.nextIndex + 1 :=
        Nat.max_eq_right (Nat.le_succ _)
      dsimp only
      rw [next]
      rfl

theorem foldl_addToken_empty (ts : List Token) :
    ts.foldl Attributes.addToken .empty = .ofList (filed 0 ts) := foldl_addToken ts .empty

end Attribute

end Shortcode
