import Shortcode.Attribute.Map
import Shortcode.Attribute.Token

namespace Shortcode

/-- A named token is filed under its name in lower case, another under the next number. -/
def Attributes.addToken (m : Attributes) (t : Attribute.Token) : Attributes :=
  match t.name with
  | some name => m.insert (.name (String.ofList (name.map Char.toLower))) (String.ofList t.value)
  | none => m.push (String.ofList t.value)

/-- A tag with nothing but blanks behind its name has no attributes, which is not the same as an
empty map of them. -/
inductive Written where
  | absent
  | given (attributes : Attributes)
  deriving DecidableEq, Repr

namespace Written

/-- Reads the text between a tag's name and its `]`. -/
def parse (text : String) : Written :=
  if text.toList.all Attribute.isBlank then .absent
  else
    .given ((Attribute.tokens (Attribute.foldSpaces text.toList)).foldl Attributes.addToken .empty)

def get? : Written → Key → Option String
  | .absent, _ => none
  | .given m, k => m.get? k

end Written

/-- The defaults, with the written value for each of their keys that is written. What is written
under other keys is dropped. -/
def Attributes.override (defaults : Attributes) (written : Written) : Attributes :=
  .ofList (defaults.entries.map fun e => (e.1, (written.get? e.1).getD e.2))

end Shortcode
