namespace Shortcode.Toml

/-- A number as it is written, without its underscores. The digits of an integer are not checked
yet. A floating-point number is given as an integer times a power of ten, or is infinite or
undefined. -/
inductive Number where
  | integer (isNegative : Bool) (base : Nat) (digits : List Char)
  | decimal (mantissa : Nat) (exponent : Int)
  | special
  deriving DecidableEq, Repr

def hexDigit? (c : Char) : Option Nat :=
  if c.isDigit then some (c.toNat - '0'.toNat)
  else if 'a' ≤ c && c ≤ 'f' then some (c.toNat - 'a'.toNat + 10)
  else if 'A' ≤ c && c ≤ 'F' then some (c.toNat - 'A'.toNat + 10)
  else none

/-- The number that hexadecimal digits of either case stand for. -/
def hexNumber? (cs : List Char) : Option Nat :=
  cs.foldlM (fun n c => (hexDigit? c).map (16 * n + ·)) 0

def isDigitOf (base : Nat) (c : Char) : Bool := (hexDigit? c).any (· < base)

/-- Digits with single underscores between them, without the underscores. -/
def digits? (isDigit : Char → Bool) : List Char → Option (List Char)
  | [] => none
  | [c] => if isDigit c then some [c] else none
  | c :: '_' :: rest => if isDigit c then (digits? isDigit rest).map (c :: ·) else none
  | c :: rest => if isDigit c then (digits? isDigit rest).map (c :: ·) else none

def isSign (c : Char) : Bool := c = '+' || c = '-'

/-- The text behind a sign, if it starts with one. -/
def unsigned (cs : List Char) : List Char :=
  match cs with
  | c :: rest => if isSign c then rest else cs
  | [] => []

namespace Number

/-- The text behind the mark of a base. There can be nothing. -/
def ofBase? (base : Nat) : List Char → Option Number
  | [] => some (.integer false base [])
  | cs => (digits? (isDigitOf base) cs).map (.integer false base)

/-- Whether a text can follow an underscore in an integer. In it and between further underscores,
the first character and the one in front of an underscore are hexadecimal digits. -/
def continuesInteger (cs : List Char) : Bool :=
  let groups := cs.splitOnP (· == '_')
  groups.all (·.head?.any (isDigitOf 16)) && groups.dropLast.all (·.getLast?.any (isDigitOf 16)) &&
    !cs.any fun c => c = '.' || c = 'e' || c = 'E' || c = ' '

/-- A decimal integer. It has a digit in front of the first underscore, and a longer one does not
begin with a zero. -/
def integer? (cs : List Char) : Option Number :=
  let isNegative := cs.head? = some '-'
  let first := (unsigned cs).takeWhile Char.isDigit
  let startsWell := first.head?.any (· ≠ '0')
  match (unsigned cs).dropWhile Char.isDigit with
  | [] => if first = ['0'] || startsWell then some (.integer isNegative 10 first) else none
  | '_' :: rest =>
    if startsWell && continuesInteger rest then
      some (.integer isNegative 10 (first ++ rest.filter (· ≠ '_')))
    else none
  | _ => none

/-- The digits in front of a decimal point or an exponent. More than one of them do not begin with a
zero. -/
def whole? (cs : List Char) : Option (List Char) :=
  match digits? Char.isDigit cs with
  | some ('0' :: _ :: _) => none
  | ds => ds

/-- A fraction, an exponent or both follow the whole part of a floating-point number. -/
def float? (cs : List Char) : Option Number :=
  let body := unsigned cs
  if body = "inf".toList || body = "nan".toList then some .special
  else
    let isExponent (c : Char) := c = 'e' || c = 'E'
    let mantissa := body.takeWhile (!isExponent ·)
    let whole := mantissa.takeWhile (· ≠ '.')
    let fraction := match mantissa.dropWhile (· ≠ '.') with
      | _ :: fraction => digits? Char.isDigit fraction
      | [] => some []
    let exponent := match body.dropWhile (!isExponent ·) with
      | _ :: exponent => (digits? Char.isDigit (unsigned exponent)).map fun ds =>
        (if exponent.head? = some '-' then -1 else 1) * (Nat.ofDigitChars 10 ds 0 : Int)
      | [] => some 0
    match whole? whole, fraction, exponent with
    | some ds, some ds', some e =>
      if whole = body then none
      else some (.decimal (Nat.ofDigitChars 10 (ds ++ ds') 0) (e - ds'.length))
    | _, _, _ => none

/-- The number that a word is. -/
def ofWord? (cs : List Char) : Option Number :=
  match cs with
  | '0' :: 'x' :: ds => ofBase? 16 ds
  | '0' :: 'o' :: ds => ofBase? 8 ds
  | '0' :: 'b' :: ds => ofBase? 2 ds
  | cs => (integer? cs).or (float? cs)

/-- Whether `m` times ten to the power of `e` rounds to a double that is not infinite. -/
def isFinite (m : Nat) (e : Int) : Bool :=
  let limit := Nat.pow 2 1024 - Nat.pow 2 970
  if m = 0 then true
  else if 400 < e then false
  else if 0 ≤ e then m * Nat.pow 10 e.toNat < limit
  else if (Nat.toDigits 10 m).length ≤ (-e).toNat + 300 then true
  else m < limit * Nat.pow 10 (-e).toNat

/-- An integer has a value if its digits are digits of its base and 128 bits hold it, a
floating-point number if it is not too large. -/
def hasValue : Number → Bool
  | .integer isNegative base ds =>
    let n := ds.foldl (fun n c => base * n + (hexDigit? c).getD 0) 0
    !ds.isEmpty && ds.all (isDigitOf base) &&
      if isNegative then n ≤ Nat.pow 2 127 else n < Nat.pow 2 128
  | .decimal mantissa exponent => isFinite mantissa exponent
  | .special => true

end Number
end Shortcode.Toml
