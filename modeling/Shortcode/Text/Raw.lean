import Shortcode.Text.Utf8

namespace Shortcode

/-- Text as the system hands it over: its bytes need not be UTF-8. -/
structure RawText where
  bytes : List UInt8
  deriving DecidableEq, Repr

namespace RawText

def ofString (s : String) : RawText := ⟨s.toUTF8.data.toList⟩

instance : Coe String RawText := ⟨ofString⟩

instance : Coe (List String) (List RawText) := ⟨List.map ofString⟩

def isEmpty (t : RawText) : Bool := t.bytes.isEmpty

/-- The text as it is shown. -/
def display (t : RawText) : String := Text.decodeLossy t.bytes

/-- The text, if the bytes are UTF-8. -/
def text? (t : RawText) : Option String := String.fromUTF8? ⟨t.bytes.toArray⟩

end RawText

end Shortcode
