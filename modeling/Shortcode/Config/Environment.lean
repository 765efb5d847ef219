import Shortcode.Text.Alphanumeric
import Shortcode.Text.Slice

namespace Shortcode

/-- The entries of an environment, each `NAME=value` in bytes. -/
structure Environment where
  entries : List (List UInt8)

/-- What is known of a variable. -/
inductive Variable where
  | unset
  | notUtf8
  | value (s : String)
  deriving DecidableEq, Repr

namespace Environment

/-- An environment with the given variables. -/
def ofList (values : List (String × List UInt8)) : Environment :=
  ⟨values.map fun v => v.1.toUTF8.toList ++ '='.toUInt8 :: v.2⟩

/-- The bytes behind the first `NAME=`. The empty name is never set. -/
def bytes? (env : Environment) (name : String) : Option (List UInt8) :=
  if name.isEmpty then none
  else env.entries.findSome? (name.toUTF8.toList ++ ['='.toUInt8]).isPrefixOf?

def lookup (env : Environment) (name : String) : Variable :=
  match env.bytes? name with
  | none => .unset
  | some bytes =>
    match String.fromUTF8? ⟨bytes.toArray⟩ with
    | some s => .value s
    | none => .notUtf8

end Environment

namespace Reference

/-- A part of a text with references. -/
inductive Part where
  | plain (c : Char)
  | dollar
  | bare (name : List Char)
  | braced (name : List Char) (fallback : Option (List Char))
  deriving DecidableEq, Repr

/-- The part as it is written. -/
def Part.text : Part → List Char
  | .plain c => [c]
  | .dollar => ['$', '$']
  | .bare name => '$' :: name
  | .braced name none => '$' :: '{' :: name ++ ['}']
  | .braced name (some fallback) => '$' :: '{' :: name ++ ':' :: '-' :: fallback ++ ['}']

def isNameChar (c : Char) : Bool := Text.isAlphanumeric c || c = '_'

/-- What stands between braces: a name, and a default behind the first `:-` unless that is all
there is in front of it. -/
def readBraced (inside : List Char) : Part :=
  match Text.indexOf? [':', '-'] inside with
  | some (k + 1) => .braced (inside.take (k + 1)) (some (inside.drop (k + 3)))
  | _ => .braced inside none

/-- The part that starts with a `$`, and what follows it. A `$` that starts nothing is plain. -/
def readDollar : List Char → Part × List Char
  | '$' :: rest => (.dollar, rest)
  | '{' :: rest =>
    match rest.idxOf? '}' with
    | some k => (readBraced (rest.take k), rest.drop (k + 1))
    | none => (.plain '$', '{' :: rest)
  | rest =>
    if rest.head?.any isNameChar then
      (.bare (rest.takeWhile isNameChar), rest.dropWhile isNameChar)
    else (.plain '$', rest)

theorem text_readBraced (inside : List Char) :
    (readBraced inside).text = '$' :: '{' :: inside ++ ['}'] := by
  unfold readBraced
  split
  · next k h =>
    have hp : inside = inside.take (k + 1) ++ [':', '-'] ++ inside.drop (k + 3) :=
      Text.eq_of_indexOf? h
    rw [List.append_assoc] at hp
    exact congrArg (fun s => '$' :: '{' :: s ++ ['}']) hp.symm
  · rfl

theorem take_append_drop_of_idxOf? {c : Char} {text : List Char} {k : Nat}
    (h : text.idxOf? c = some k) : text.take k ++ c :: text.drop (k + 1) = text := by
  obtain ⟨hk, hc, -⟩ := List.findIdx?_eq_some_iff_getElem.1 h
  have he : text[k] = c := by simpa using hc
  rw [← he, ← List.drop_eq_getElem_cons hk, List.take_append_drop]

/-- Nothing behind a `$` is lost. -/
theorem text_readDollar (rest : List Char) :
    (readDollar rest).1.text ++ (readDollar rest).2 = '$' :: rest := by
  unfold readDollar
  split
  · rfl
  · next rest =>
    split
    · next k h =>
      rw [text_readBraced]
      simp only [List.append_assoc, List.cons_append, List.nil_append]
      rw [take_append_drop_of_idxOf? h]
    · rfl
  · split
    · exact congrArg ('$' :: ·) List.takeWhile_append_dropWhile
    · rfl

theorem length_readDollar_le (rest : List Char) : (readDollar rest).2.length ≤ rest.length := by
  have hl := congrArg List.length (text_readDollar rest)
  have hp : 0 < (readDollar rest).1.text.length := by
    cases (readDollar rest).1 with
    | plain c => exact Nat.zero_lt_one
    | dollar => exact Nat.zero_lt_two
    | bare name => exact Nat.zero_lt_succ _
    | braced name fallback => cases fallback <;> exact Nat.zero_lt_succ _
  rw [List.length_append, List.length_cons] at hl
  omega

/-- The parts of a text, in order. -/
def parts : List Char → List Part
  | [] => []
  | c :: rest =>
    if c = '$' then
      have := length_readDollar_le rest
      (readDollar rest).1 :: parts (readDollar rest).2
    else .plain c :: parts rest
termination_by text => text.length

/-- A variable that is needed and cannot be had. -/
structure Missing where
  name : String
  notUtf8 : Bool
  deriving DecidableEq, Repr

/-- A name that starts with a digit, as a price does, names no variable. -/
def isNumeral (name : List Char) : Bool := name.head?.any Char.isDigit

/-- The text to put in for a reference that is written as `written`. -/
def resolve (env : Environment) (name written : List Char) (fallback : Option (List Char)) :
    Except Missing (List Char) :=
  if isNumeral name then .ok (fallback.getD written)
  else
    match env.lookup (String.ofList name), fallback with
    | .value s, _ => .ok s.toList
    | _, some fallback => .ok fallback
    | .unset, none => .error ⟨String.ofList name, false⟩
    | .notUtf8, none => .error ⟨String.ofList name, true⟩

def Part.expand (env : Environment) (p : Part) : Except Missing (List Char) :=
  match p with
  | .plain c => .ok [c]
  | .dollar => .ok ['$']
  | .bare name => resolve env name p.text none
  | .braced name fallback => resolve env name p.text fallback

end Reference

/-- The text with its references replaced, or the first of them that cannot be. -/
def Environment.expand (env : Environment) (text : String) : Except Reference.Missing String := do
  let pieces ← (Reference.parts text.toList).mapM (Reference.Part.expand env)
  return String.ofList pieces.flatten

end Shortcode
