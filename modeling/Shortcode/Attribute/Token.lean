namespace Shortcode.Attribute

/-- ASCII white space, which ends a token. -/
def isSeparator (c : Char) : Bool :=
  c = ' ' || c = '\t' || c = '\n' || c = '\r' || c = '\x0b' || c = '\x0c'

def isNameChar (c : Char) : Bool := c.isAlphanum || c = '_' || c = '-'

inductive Quote where
  | double | single | bare
  deriving DecidableEq, Repr

/-- A value as it is written, with the name in front of it if it has one. -/
structure Token where
  name : Option (List Char)
  quote : Quote
  value : List Char
  deriving DecidableEq, Repr

def Quote.wrap : Quote → List Char → List Char
  | .double, v => '"' :: v ++ ['"']
  | .single, v => '\'' :: v ++ ['\'']
  | .bare, v => v

def Token.text (t : Token) : List Char :=
  match t.name with
  | some name => name ++ '=' :: t.quote.wrap t.value
  | none => t.quote.wrap t.value

/-- The text up to the mark `q`, and what follows the mark. -/
def readUntil (q : Char) (text : List Char) : Option (List Char × List Char) :=
  match text.dropWhile (· != q) with
  | [] => none
  | _ :: after => some (text.takeWhile (· != q), after)

/-- A value of one kind at the front of a text. A quoted value ends at the first mark of its own
kind, and a bare one, which is never empty, at the first separator. -/
def readValue : Quote → List Char → Option (List Char × List Char)
  | .double, '"' :: text => readUntil '"' text
  | .single, '\'' :: text => readUntil '\'' text
  | .bare, text =>
    let value := text.takeWhile (!isSeparator ·)
    if value.isEmpty then none else some (value, text.dropWhile (!isSeparator ·))
  | _, _ => none

/-- A token of one shape at the front of a text. -/
def readShape (named : Bool) (q : Quote) (text : List Char) : Option (Token × List Char) :=
  if named then
    let name := text.takeWhile isNameChar
    match text.dropWhile isNameChar with
    | '=' :: rest =>
      if name.isEmpty then none
      else (readValue q rest).map fun r => (⟨some name, q, r.1⟩, r.2)
    | _ => none
  else (readValue q text).map fun r => (⟨none, q, r.1⟩, r.2)

/-- The shapes of a token in the order in which they are tried. -/
def shapes : List (Bool × Quote) :=
  [(true, .double), (true, .single), (true, .bare), (false, .double), (false, .single),
    (false, .bare)]

def atEnd (text : List Char) : Bool := text.head?.all isSeparator

/-- The first shape that fits and is not glued to what follows it. -/
def readToken (text : List Char) : Option (Token × List Char) :=
  shapes.findSome? fun shape => (readShape shape.1 shape.2 text).filter (atEnd ·.2)

theorem readUntil_eq {q : Char} {text v after : List Char}
    (h : readUntil q text = some (v, after)) : text = v ++ q :: after := by
  unfold readUntil at h
  split at h
  · cases h
  · next c rest hd =>
    obtain ⟨rfl, rfl⟩ : text.takeWhile (· != q) = v ∧ rest = after := by simpa using h
    have hc : c = q := by
      have hn := List.head?_dropWhile_not (· != q) text
      rw [hd] at hn
      simpa using hn
    rw [← hc, ← hd, hc]
    exact (List.takeWhile_append_dropWhile).symm

theorem readValue_eq {q : Quote} {text v after : List Char}
    (h : readValue q text = some (v, after)) : text = q.wrap v ++ after := by
  unfold readValue at h
  split at h
  · simp [Quote.wrap, readUntil_eq h]
  · simp [Quote.wrap, readUntil_eq h]
  · dsimp only at h
    split at h
    · cases h
    · obtain ⟨rfl, rfl⟩ := Prod.mk.injEq .. ▸ Option.some.injEq .. ▸ h
      exact (List.takeWhile_append_dropWhile).symm
  · cases h

theorem readValue_bare_ne_nil {text v after : List Char}
    (h : readValue .bare text = some (v, after)) : v ≠ [] := by
  unfold readValue at h
  dsimp only at h
  split at h
  · cases h
  · next hne =>
    obtain ⟨rfl, -⟩ := Prod.mk.injEq .. ▸ Option.some.injEq .. ▸ h
    intro hv
    exact hne (List.isEmpty_iff.2 hv)

/-- A named token is the longest run of name characters, `=` and a value. -/
theorem readShape_named {q : Quote} {text after : List Char} {t : Token}
    (h : readShape true q text = some (t, after)) :
    ∃ v rest, text = text.takeWhile isNameChar ++ '=' :: rest ∧
      readValue q rest = some (v, after) ∧ t = ⟨some (text.takeWhile isNameChar), q, v⟩ := by
  unfold readShape at h
  dsimp only at h
  rw [if_pos rfl] at h
  split at h
  · next rest hd =>
    split at h
    · cases h
    · obtain ⟨⟨v, a⟩, hv, he⟩ := Option.map_eq_some_iff.1 h
      obtain ⟨rfl, rfl⟩ := Prod.mk.injEq .. ▸ he
      refine ⟨v, rest, ?_, hv, rfl⟩
      rw [← hd]
      exact (List.takeWhile_append_dropWhile).symm
  · cases h

theorem readShape_positional {q : Quote} {text after : List Char} {t : Token}
    (h : readShape false q text = some (t, after)) :
    ∃ v, readValue q text = some (v, after) ∧ t = ⟨none, q, v⟩ := by
  obtain ⟨⟨v, a⟩, hv, he⟩ := Option.map_eq_some_iff.1 h
  obtain ⟨rfl, rfl⟩ := Prod.mk.injEq .. ▸ he
  exact ⟨v, hv, rfl⟩

theorem readShape_eq {named : Bool} {q : Quote} {text after : List Char} {t : Token}
    (h : readShape named q text = some (t, after)) : text = t.text ++ after := by
  cases named with
  | true =>
    obtain ⟨v, rest, ht, hv, rfl⟩ := readShape_named h
    refine ht.trans ?_
    rw [readValue_eq hv]
    simp [Token.text]
  | false =>
    obtain ⟨v, hv, rfl⟩ := readShape_positional h
    exact readValue_eq hv

theorem readToken_eq {text after : List Char} {t : Token} (h : readToken text = some (t, after)) :
    text = t.text ++ after := by
  obtain ⟨shape, -, h⟩ := List.exists_of_findSome?_eq_some h
  exact readShape_eq (Option.filter_eq_some_iff.1 h).1

theorem text_ne_nil_of_readShape {named : Bool} {q : Quote} {text after : List Char} {t : Token}
    (h : readShape named q text = some (t, after)) : t.text ≠ [] := by
  cases named with
  | true =>
    obtain ⟨v, rest, -, -, rfl⟩ := readShape_named h
    simp [Token.text]
  | false =>
    obtain ⟨v, hv, rfl⟩ := readShape_positional h
    cases q with
    | double => simp [Token.text, Quote.wrap]
    | single => simp [Token.text, Quote.wrap]
    | bare => exact readValue_bare_ne_nil hv

theorem length_lt_of_readToken {text after : List Char} {t : Token}
    (h : readToken text = some (t, after)) : after.length < text.length := by
  obtain ⟨shape, -, hs⟩ := List.exists_of_findSome?_eq_some h
  have hp := List.length_pos_iff.2 (text_ne_nil_of_readShape (Option.filter_eq_some_iff.1 hs).1)
  rw [readToken_eq h, List.length_append]
  omega

/-- The tokens of a text. Every character that is no separator starts a token or belongs to one. -/
def tokens (text : List Char) : List Token :=
  match h : readToken (text.dropWhile isSeparator) with
  | none => []
  | some (t, after) =>
    have := length_lt_of_readToken h
    have := (List.dropWhile_sublist (l := text) isSeparator).length_le
    t :: tokens after
termination_by text.length

/-- Spaces that do not break a line or have no width. -/
def isSpecialSpace (c : Char) : Bool := c = '\u00a0' || c = '\u200b'

/-- Every run of special spaces becomes one space. -/
def foldSpaces : List Char → List Char
  | [] => []
  | c :: rest =>
    if isSpecialSpace c then
      if rest.head?.any isSpecialSpace then foldSpaces rest else ' ' :: foldSpaces rest
    else c :: foldSpaces rest

/-- Characters that do not count as attribute text. -/
def isBlank (c : Char) : Bool :=
  c = ' ' || c = '\t' || c = '\n' || c = '\r' || c = '\x00' || c = '\x0b' || isSpecialSpace c

end Shortcode.Attribute
