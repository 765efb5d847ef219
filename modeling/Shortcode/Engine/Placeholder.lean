import Shortcode.Attribute.Token
import Shortcode.Engine.Basic

namespace Shortcode

/-- A template's text falls into placeholders and single characters. -/
inductive Piece where
  | placeholder (key : List Char)
  | plain (c : Char)
  deriving DecidableEq, Repr

namespace Piece

def text : Piece → List Char
  | .placeholder key => '{' :: key ++ ['}']
  | .plain c => [c]

/-- A placeholder at the front of a text, and what follows it. -/
def placeholder? : List Char → Option (List Char × List Char)
  | '{' :: rest =>
    match rest.takeWhile Attribute.isNameChar, rest.dropWhile Attribute.isNameChar with
    | c :: key, '}' :: after => some (c :: key, after)
    | _, _ => none
  | _ => none

theorem placeholder?_eq {text key after : List Char} (h : placeholder? text = some (key, after)) :
    text = (Piece.placeholder key).text ++ after := by
  unfold placeholder? at h
  split at h
  · next rest =>
    split at h
    · next c name tail hk ha =>
      obtain ⟨rfl, rfl⟩ := Prod.mk.injEq .. ▸ Option.some.injEq .. ▸ h
      have hr := List.takeWhile_append_dropWhile (p := Attribute.isNameChar) (l := rest)
      rw [hk, ha] at hr
      simp [Piece.text, ← hr]
    · simp at h
  · simp at h

theorem length_lt_of_placeholder? {text key after : List Char}
    (h : placeholder? text = some (key, after)) : after.length < text.length := by
  rw [placeholder?_eq h, List.length_append]
  simp only [Piece.text, List.length_cons, List.length_append]
  omega

def split : List Char → List Piece
  | [] => []
  | c :: rest =>
    match h : placeholder? (c :: rest) with
    | some (key, after) =>
      have := length_lt_of_placeholder? h
      .placeholder key :: split after
    | none => .plain c :: split rest
termination_by text => text.length
decreasing_by
  · exact this
  · exact Nat.lt_succ_self rest.length

/-- Nothing of a template is lost. -/
theorem flatMap_text_split (text : List Char) : (split text).flatMap Piece.text = text := by
  fun_induction split text with
  | case1 => rfl
  | case2 c rest key after h _ ih =>
    rw [List.flatMap_cons, ih]
    exact (placeholder?_eq h).symm
  | case3 c rest h ih =>
    rw [List.flatMap_cons, ih]
    rfl

end Piece

structure Template where
  text : String
  defaults : Attributes
  expandContent : Bool
  deriving DecidableEq, Repr

namespace Template

/-- The attribute that a placeholder names: a decimal number of at most 64 bits is an index. -/
def key (name : List Char) : Key :=
  if name.all Char.isDigit && Nat.ofDigitChars 10 name 0 < UInt64.size then
    .index (Nat.ofDigitChars 10 name 0)
  else .name (String.ofList name)

/-- A placeholder takes the merged value of its attribute, else the written one, else it stays. -/
def fill (merged : Attributes) (written : Written) (content : String) : Piece → List Char
  | .plain c => [c]
  | .placeholder name =>
    if name = "content".toList then content.toList
    else
      match (merged.get? (key name)).or (written.get? (key name)) with
      | some value => value.toList
      | none => (Piece.placeholder name).text

def handler (t : Template) : Handler := fun context written inner => do
  let merged := context.merge t.defaults written
  let content ← match inner with
    | some inner => if t.expandContent then Rendering.ask inner else pure inner
    | none => pure ""
  return String.ofList ((Piece.split t.text.toList).flatMap (fill merged written content))

end Template
end Shortcode
