import Shortcode.Text.Offset

namespace Shortcode

/-- One tag of a text with the escape brackets around it. Positions count characters. -/
structure Match where
  lead : Bool
  name : String
  attrText : String
  selfClosing : Bool
  inner : Option String
  trail : Bool
  start : Nat
  stop : Nat
  deriving DecidableEq, Repr

namespace Match

/-- Written `[[tag]]`: stands for the tag's text. -/
def escaped (m : Match) : Bool := m.lead && m.trail

def tagStart (m : Match) : Nat := m.start + m.lead.toNat

def tagStop (m : Match) : Nat := m.stop - m.trail.toNat

/-- The tag as it is written, without the escape brackets. -/
def tagText (m : Match) : String :=
  "[" ++ m.name ++ m.attrText ++ (if m.selfClosing then "/]" else "]") ++
    match m.inner with
    | some inner => inner ++ "[/" ++ m.name ++ "]"
    | none => ""

/-- The whole match as it is written. -/
def text (m : Match) : String :=
  (if m.lead then "[" else "") ++ m.tagText ++ (if m.trail then "]" else "")

/-- What stands in the text in place of the match when `output` stands in place of its tag: a lone
escape bracket stays, and of a pair of them nothing is left but the tag's own text. -/
def replacement (m : Match) (output : String) : String :=
  if m.escaped then m.tagText
  else (if m.lead then "[" else "") ++ output ++ (if m.trail then "]" else "")

def edit (m : Match) (output : String) : Text.Edit := ⟨m.start, m.stop, m.replacement output⟩

/-- UTF-8 offsets of the match, from those of the text it was found in. -/
def byteSpan (offsets : Text.Offsets) (m : Match) : Nat × Nat :=
  (offsets.get m.start, offsets.get m.stop)

/-- UTF-8 offsets of the tag without its escape brackets. -/
def byteTagSpan (offsets : Text.Offsets) (m : Match) : Nat × Nat :=
  (offsets.get m.tagStart, offsets.get m.tagStop)

end Match

end Shortcode
