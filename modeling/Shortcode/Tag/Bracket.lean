import Shortcode.Html.Span

namespace Shortcode.Tag

open Html (SpanCursor)

/-- A `]` that can end an opening tag, and what its neighbours say about the tag. -/
structure Close where
  pos : Nat
  afterSlash : Bool
  doubled : Bool
  deriving DecidableEq, Repr

/-- The `]` of the text from position `i` on, which stands behind a `/` or does not. -/
def closesFrom (cursor : SpanCursor) (i : Nat) (afterSlash : Bool) : List Char → List Close
  | [] => []
  | c :: rest =>
    if c = ']' then
      let (hidden, cursor) := cursor.contains i
      if hidden then closesFrom cursor (i + 1) false rest
      else ⟨i, afterSlash, rest.head? = some ']'⟩ :: closesFrom cursor (i + 1) false rest
    else closesFrom cursor (i + 1) (c = '/') rest

/-- A tag name does not end in front of one of these. -/
def continuesName (c : Char) : Bool := c.isAlphanum || c = '_' || c = '-'

/-- Whether the text behind a `[` opens a tag of this name. -/
def opens (rest name : List Char) : Bool :=
  match name.isPrefixOf? rest with
  | some after => !after.head?.any continuesName
  | none => false

/-- Whether the text behind a `[/` closes a tag of this name. -/
def closes (tail name : List Char) : Bool := (name ++ [']']).isPrefixOf tail

/-- A `[` with the name it opens or closes, as an index into the list of `n` names. -/
inductive Token (n : Nat) where
  | opener (name : Fin n) (start : Nat) (afterBracket : Bool)
  | closer (name : Fin n) (start stop : Nat) (doubled : Bool)
  deriving DecidableEq, Repr

/-- What was read at one `[`, and how many names were tried for it. -/
structure Reading (n : Nat) where
  comparisons : Nat
  token : Option (Token n)

/-- Names are tried in order and the first that fits is taken. -/
def tried {n : Nat} : Option (Fin n) → Nat
  | some k => k + 1
  | none => n

theorem tried_le {n : Nat} (found : Option (Fin n)) : tried found ≤ n := by
  cases found with
  | none => exact Nat.le_refl n
  | some k => exact k.isLt

/-- Reads the `[` at `start` from the text behind it. -/
def readTag (names : List (List Char)) (start : Nat) (afterBracket : Bool) :
    List Char → Reading names.length
  | '/' :: tail =>
    let found := names.findFinIdx? (closes tail)
    ⟨tried found, found.map fun k =>
      let length := (names.get k).length
      .closer k start (start + length + 3) (tail[length + 1]? = some ']')⟩
  | rest =>
    let found := names.findFinIdx? (opens rest)
    ⟨tried found, found.map fun k => .opener k start afterBracket⟩

/-- One reading for each `[` of the text from position `i` on, also for those in protected spans.
The text stands behind a `[` or does not. -/
def readingsFrom (names : List (List Char)) (cursor : SpanCursor) (i : Nat) (afterBracket : Bool) :
    List Char → List (Reading names.length)
  | [] => []
  | c :: rest =>
    if c = '[' then
      let (hidden, cursor) := cursor.contains i
      (if hidden then ⟨0, none⟩ else readTag names i afterBracket rest)
        :: readingsFrom names cursor (i + 1) true rest
    else readingsFrom names cursor (i + 1) false rest

end Shortcode.Tag
