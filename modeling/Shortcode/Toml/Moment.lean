namespace Shortcode.Toml

structure Date where
  year : Nat
  month : Nat
  day : Nat
  deriving DecidableEq, Repr

structure Time where
  hour : Nat
  minute : Nat
  second : Option Nat
  nanosecond : Option Nat
  deriving DecidableEq, Repr

/-- Distance from universal time, to the east if it is positive. -/
inductive Offset where
  | zero
  | minutes (east : Int)
  deriving DecidableEq, Repr

inductive Moment where
  | date (d : Date)
  | time (t : Time)
  | both (d : Date) (t : Time) (offset : Option Offset)
  deriving DecidableEq, Repr

def twoDigits? (a b : Char) : Option Nat :=
  if a.isDigit && b.isDigit then some (Nat.ofDigitChars 10 [a, b] 0) else none

def daysIn (year month : Nat) : Nat :=
  if month = 2 then
    if year % 4 = 0 ∧ (year % 100 ≠ 0 ∨ year % 400 = 0) then 29 else 28
  else if month = 4 ∨ month = 6 ∨ month = 9 ∨ month = 11 then 30
  else 31

/-- A date at the front of a text, and the text behind it. -/
def Date.read? : List Char → Option (Date × List Char)
  | y₁ :: y₂ :: y₃ :: y₄ :: '-' :: m₁ :: m₂ :: '-' :: d₁ :: d₂ :: rest => do
    let century ← twoDigits? y₁ y₂
    let year := 100 * century + (← twoDigits? y₃ y₄)
    let month ← twoDigits? m₁ m₂
    let day ← twoDigits? d₁ d₂
    if 1 ≤ month ∧ month ≤ 12 ∧ 1 ≤ day ∧ day ≤ daysIn year month then
      some (⟨year, month, day⟩, rest)
    else none
  | _ => none

/-- Digits behind the ninth are dropped. -/
def nanoseconds (digits : List Char) : Nat :=
  Nat.ofDigitChars 10 ((digits ++ List.replicate 9 '0').take 9) 0

/-- The fraction of a second in front of a text, if there is one. -/
def readFraction? : List Char → Option (Option Nat × List Char)
  | '.' :: rest =>
    if rest.head?.any Char.isDigit then
      some (some (nanoseconds (rest.takeWhile Char.isDigit)), rest.dropWhile Char.isDigit)
    else none
  | rest => some (none, rest)

/-- A time of day at the front of a text, and the text behind it. The seconds can be left out. -/
def Time.read? : List Char → Option (Time × List Char)
  | h₁ :: h₂ :: ':' :: m₁ :: m₂ :: rest => do
    let hour ← twoDigits? h₁ h₂
    let minute ← twoDigits? m₁ m₂
    if 23 < hour ∨ 59 < minute then none
    match rest with
    | ':' :: s₁ :: s₂ :: rest => do
      let second ← twoDigits? s₁ s₂
      if 60 < second then none
      let (nanosecond, rest) ← readFraction? rest
      some (⟨hour, minute, some second, nanosecond⟩, rest)
    | rest => some (⟨hour, minute, none, none⟩, rest)
  | _ => none

/-- The text behind a date and a time, which can be empty. -/
def Offset.ofText? : List Char → Option (Option Offset)
  | [] => some none
  | ['Z'] => some (some .zero)
  | ['z'] => some (some .zero)
  | [sign, h₁, h₂, ':', m₁, m₂] => do
    let hours ← twoDigits? h₁ h₂
    let minutes ← twoDigits? m₁ m₂
    if 23 < hours ∨ 59 < minutes then none
    if sign = '+' then some (some (.minutes (60 * hours + minutes)))
    else if sign = '-' then some (some (.minutes (-(60 * hours + minutes))))
    else none
  | _ => none

/-- Reads a date, a time of day, or both with a `T` or a space between them. -/
def Moment.ofText? (text : List Char) : Option Moment :=
  match Date.read? text with
  | some (d, []) => some (.date d)
  | some (d, c :: rest) => do
    if c ≠ 'T' ∧ c ≠ 't' ∧ c ≠ ' ' then none
    let (t, rest) ← Time.read? rest
    return .both d t (← Offset.ofText? rest)
  | none =>
    match Time.read? text with
    | some (t, []) => some (.time t)
    | _ => none

/-- A number with zeros in front of it up to a width. -/
def padded (width n : Nat) : List Char :=
  let ds := Nat.toDigits 10 n
  List.replicate (width - ds.length) '0' ++ ds

def Date.text (d : Date) : List Char :=
  padded 4 d.year ++ '-' :: padded 2 d.month ++ '-' :: padded 2 d.day

/-- A fraction without the zeros at its end, the first digit apart. -/
def fractionText (nanosecond : Nat) : List Char :=
  match (padded 9 nanosecond).reverse.dropWhile (· = '0') with
  | [] => ['0']
  | ds => ds.reverse

def Time.text (t : Time) : List Char :=
  padded 2 t.hour ++ ':' :: padded 2 t.minute ++
    (match t.second with
      | some second => ':' :: padded 2 second
      | none => []) ++
    match t.nanosecond with
      | some nanosecond => '.' :: fractionText nanosecond
      | none => []

def Offset.text : Offset → List Char
  | .zero => ['Z']
  | .minutes east =>
    (if east < 0 then '-' else '+') :: padded 2 (east.natAbs / 60) ++
      ':' :: padded 2 (east.natAbs % 60)

def Moment.text : Moment → List Char
  | .date d => d.text
  | .time t => t.text
  | .both d t offset => d.text ++ 'T' :: t.text ++ (offset.map Offset.text).getD []

end Shortcode.Toml
