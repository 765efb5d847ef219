namespace Shortcode.Text

/-- A character of several bytes that is not complete: how many bytes are missing, the range of the
next one, and the bits of those that were read. -/
structure Partial where
  missing : Nat
  low : UInt8
  high : UInt8
  bits : Nat
  deriving DecidableEq, Repr

/-- The state behind the first byte of a character of several bytes. The range of the second byte
leaves out overlong forms, surrogates and what lies above the last code point. -/
def lead? (b : UInt8) : Option Partial :=
  if 0xc2 ≤ b && b ≤ 0xdf then some ⟨1, 0x80, 0xbf, b.toNat - 0xc0⟩
  else if b = 0xe0 then some ⟨2, 0xa0, 0xbf, 0⟩
  else if b = 0xed then some ⟨2, 0x80, 0x9f, b.toNat - 0xe0⟩
  else if 0xe1 ≤ b && b ≤ 0xef then some ⟨2, 0x80, 0xbf, b.toNat - 0xe0⟩
  else if b = 0xf0 then some ⟨3, 0x90, 0xbf, 0⟩
  else if 0xf1 ≤ b && b ≤ 0xf3 then some ⟨3, 0x80, 0xbf, b.toNat - 0xf0⟩
  else if b = 0xf4 then some ⟨3, 0x80, 0x8f, b.toNat - 0xf0⟩
  else none

def replacement : Char := '\ufffd'

/-- Reads a byte that does not continue a character. -/
def decodeFirst (b : UInt8) : List Char × Option Partial :=
  if b < 0x80 then ([Char.ofNat b.toNat], none)
  else
    match lead? b with
    | some p => ([], some p)
    | none => ([replacement], none)

def decodeFrom : Option Partial → List UInt8 → List Char
  | none, [] => []
  | some _, [] => [replacement]
  | none, b :: bytes => (decodeFirst b).1 ++ decodeFrom (decodeFirst b).2 bytes
  | some p, b :: bytes =>
    if p.low ≤ b && b ≤ p.high then
      let bits := 64 * p.bits + (b.toNat - 0x80)
      if p.missing = 1 then Char.ofNat bits :: decodeFrom none bytes
      else decodeFrom (some ⟨p.missing - 1, 0x80, 0xbf, bits⟩) bytes
    else replacement :: (decodeFirst b).1 ++ decodeFrom (decodeFirst b).2 bytes

/-- The text of bytes, where each piece that cannot begin a character is replaced as a whole. -/
def decodeLossy (bytes : List UInt8) : String := String.ofList (decodeFrom none bytes)

end Shortcode.Text
