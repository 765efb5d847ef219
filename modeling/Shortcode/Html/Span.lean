import Shortcode.Text.Slice

namespace Shortcode.Html

/-- The positions from `start` up to, not including, `stop`. -/
structure Span where
  start : Nat
  stop : Nat
  deriving DecidableEq, Repr

def Span.contains (s : Span) (p : Nat) : Bool := s.start ≤ p && p < s.stop

/-- A `<` opens a tag in front of one of these. -/
def startsTag (c : Char) : Bool := c.isAlpha || c = '/' || c = '!' || c = '?'

/-- Length of the comment that `<!--` opens in front of `body`: through the first `-->`, or to
the end of the text. -/
def commentLength (body : List Char) : Nat :=
  match Text.indexOf? ['-', '-', '>'] body with
  | some k => 4 + k + 3
  | none => 4 + body.length

/-- The spans of the text from position `i` on, of which `skip` characters still belong to the span
found last. A tag that is never closed ends the walk: comments behind it are not looked for. -/
def spansFrom : Nat → Nat → List Char → List Span
  | _, _, [] => []
  | i, skip + 1, _ :: rest => spansFrom (i + 1) skip rest
  | i, 0, c :: rest =>
    if c = '<' then
      match ['!', '-', '-'].isPrefixOf? rest with
      | some body =>
        ⟨i, i + commentLength body⟩ :: spansFrom (i + 1) (commentLength body - 1) rest
      | none =>
        if rest.head?.any startsTag then
          match rest.idxOf? '>' with
          | some k => ⟨i, i + k + 2⟩ :: spansFrom (i + 1) (k + 1) rest
          | none => []
        else spansFrom (i + 1) 0 rest
    else spansFrom (i + 1) 0 rest

/-- The HTML tags and comments of a text, left to right. -/
def protectedSpans (text : List Char) : List Span := spansFrom 0 0 text

/-- The spans that positions still to be asked can lie in. -/
structure SpanCursor where
  pending : List Span

/-- Whether a position lies in a span, for positions that never decrease: spans that end at or
before it are dropped for good. -/
def SpanCursor.contains (cursor : SpanCursor) (p : Nat) : Bool × SpanCursor :=
  let pending := cursor.pending.dropWhile (·.stop ≤ p)
  (pending.head?.any (·.start ≤ p), ⟨pending⟩)

end Shortcode.Html
