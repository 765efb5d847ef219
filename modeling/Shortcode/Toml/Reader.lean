import Shortcode.Toml.Value

namespace Shortcode.Toml

/-- What was read, and the text behind it. -/
structure Read (α : Type) (text : List Char) where
  value : α
  rest : List Char
  shorter : rest.length < text.length

abbrev Reader (α : Type) := (text : List Char) → Option (Read α text)

def Read.map {α β : Type} {text : List Char} (f : α → β) (r : Read α text) : Read β text :=
  ⟨f r.value, r.rest, r.shorter⟩

/-- What is read from a shorter text is read from a longer one too. -/
def Read.widen {α : Type} {text text' : List Char} (r : Read α text)
    (h : text.length ≤ text'.length) : Read α text' :=
  ⟨r.value, r.rest, Nat.lt_of_lt_of_le r.shorter h⟩

/-- Takes a result for what it is if its rest is shorter. -/
def Read.of? {α : Type} (text : List Char) (value : α) (rest : List Char) : Option (Read α text) :=
  if h : rest.length < text.length then some ⟨value, rest, h⟩ else none

def isBlank (c : Char) : Bool := c = ' ' || c = '\t'

/-- Control characters, which no text holds as they are. The tab is none of them. -/
def isControl (c : Char) : Bool := (c.toNat < 0x20 && c ≠ '\t') || c.toNat = 0x7f

def dropBlank (text : List Char) : List Char := text.dropWhile isBlank

theorem length_dropBlank_le (text : List Char) : (dropBlank text).length ≤ text.length :=
  (List.dropWhile_sublist isBlank).length_le

/-- The text behind white space, line ends and comments. -/
def dropGap (inComment : Bool) : List Char → Option (List Char)
  | [] => some []
  | '\n' :: rest => dropGap false rest
  | '\r' :: '\n' :: rest => dropGap false rest
  | c :: rest =>
    if inComment then if isControl c then none else dropGap true rest
    else if c = '#' then dropGap true rest
    else if isBlank c then dropGap false rest
    else some (c :: rest)

theorem length_le_of_dropGap {inComment : Bool} {text rest : List Char}
    (h : dropGap inComment text = some rest) : rest.length ≤ text.length := by
  fun_induction dropGap inComment text with
  | case1 => cases h; exact Nat.le_refl _
  | case2 => rename_i ih; exact Nat.le_succ_of_le (ih h)
  | case3 => rename_i ih; exact Nat.le_succ_of_le (Nat.le_succ_of_le (ih h))
  | case4 => cases h
  | case5 => rename_i ih; exact Nat.le_succ_of_le (ih h)
  | case6 => rename_i ih; exact Nat.le_succ_of_le (ih h)
  | case7 => rename_i ih; exact Nat.le_succ_of_le (ih h)
  | case8 => cases h; exact Nat.le_refl _

/-- The text behind the end of the line, where nothing but a comment stands before it. -/
def dropLineEnd (inComment : Bool) : List Char → Option (List Char)
  | [] => some []
  | '\n' :: rest => some rest
  | '\r' :: '\n' :: rest => some rest
  | c :: rest =>
    if inComment then if isControl c then none else dropLineEnd true rest
    else if c = '#' then dropLineEnd true rest
    else if isBlank c then dropLineEnd false rest
    else none

theorem length_le_of_dropLineEnd {inComment : Bool} {text rest : List Char}
    (h : dropLineEnd inComment text = some rest) : rest.length ≤ text.length := by
  fun_induction dropLineEnd inComment text with
  | case1 => cases h; exact Nat.le_refl _
  | case2 => cases h; exact Nat.le_succ _
  | case3 => cases h; exact Nat.le_succ_of_le (Nat.le_succ _)
  | case4 => cases h
  | case5 => rename_i ih; exact Nat.le_succ_of_le (ih h)
  | case6 => rename_i ih; exact Nat.le_succ_of_le (ih h)
  | case7 => rename_i ih; exact Nat.le_succ_of_le (ih h)
  | case8 => cases h

def charOf? (n : Nat) : Option Char := if n.isValidChar then some (Char.ofNat n) else none

/-- The character that a backslash and a letter stand for. -/
def escaped? : Char → Option Char
  | 'b' => some '\x08'
  | 't' => some '\t'
  | 'n' => some '\n'
  | 'f' => some '\x0c'
  | 'r' => some '\r'
  | 'e' => some '\x1b'
  | '"' => some '"'
  | '\\' => some '\\'
  | _ => none

/-- The character of an escape, given behind its backslash, and the text behind the escape. -/
def readEscape : Reader Char := fun text =>
  match text with
  | 'x' :: rest => do Read.of? _ (← (hexNumber? (rest.take 2)).bind charOf?) (← tail 2 rest)
  | 'u' :: rest => do Read.of? _ (← (hexNumber? (rest.take 4)).bind charOf?) (← tail 4 rest)
  | 'U' :: rest => do Read.of? _ (← (hexNumber? (rest.take 8)).bind charOf?) (← tail 8 rest)
  | c :: rest => do Read.of? _ (← escaped? c) rest
  | [] => none
where
  tail (n : Nat) (rest : List Char) : Option (List Char) :=
    if n ≤ rest.length then some (rest.drop n) else none

/-- The rest of a string in double quotes, through its closing quote. -/
def readBasic (text : List Char) : Option (Read (List Char) text) :=
  match text with
  | [] => none
  | '"' :: rest => Read.of? _ [] rest
  | '\\' :: rest => do
    let c ← readEscape rest
    have := c.shorter
    let r ← readBasic c.rest
    some ((r.map (c.value :: ·)).widen (by simp; omega))
  | c :: rest => do
    if isControl c then none
    let r ← readBasic rest
    some ((r.map (c :: ·)).widen (by simp))
termination_by text.length

/-- The rest of a string in single quotes, through its closing quote. -/
def readLiteral (text : List Char) : Option (Read (List Char) text) :=
  match text with
  | [] => none
  | '\'' :: rest => Read.of? _ [] rest
  | c :: rest => do
    if isControl c then none
    let r ← readLiteral rest
    some ((r.map (c :: ·)).widen (by simp))

/-- The end of a string in triple quotes, with the one or two quotes that may stand before it. -/
def readTripleEnd (q : Char) : Reader (List Char) := fun text =>
  match text with
  | a :: b :: c :: rest =>
    if a = q ∧ b = q ∧ c = q then
      let extra := (rest.take 2).takeWhile (· = q)
      Read.of? _ extra (rest.drop extra.length)
    else none
  | _ => none

/-- The text behind white space and line ends. -/
def dropFolded : List Char → List Char
  | [] => []
  | '\n' :: rest => dropFolded rest
  | '\r' :: '\n' :: rest => dropFolded rest
  | c :: rest => if isBlank c then dropFolded rest else c :: rest

theorem length_dropFolded_le (text : List Char) : (dropFolded text).length ≤ text.length := by
  fun_induction dropFolded text with
  | case1 => exact Nat.le_refl _
  | case2 => rename_i ih; exact Nat.le_succ_of_le ih
  | case3 => rename_i ih; exact Nat.le_succ_of_le (Nat.le_succ_of_le ih)
  | case4 => rename_i ih; exact Nat.le_succ_of_le ih
  | case5 => exact Nat.le_refl _

/-- A backslash at the end of a line takes the line end with it and all white space behind it. -/
def foldLine? (text : List Char) : Option (List Char) :=
  match dropBlank text with
  | '\n' :: rest => some (dropFolded rest)
  | '\r' :: '\n' :: rest => some (dropFolded rest)
  | _ => none

theorem length_le_of_foldLine? {text rest : List Char} (h : foldLine? text = some rest) :
    rest.length ≤ text.length := by
  have hb := length_dropBlank_le text
  unfold foldLine? at h
  split at h
  · next r hr =>
    cases h
    have := length_dropFolded_le r
    rw [hr, List.length_cons] at hb
    omega
  · next r hr =>
    cases h
    have := length_dropFolded_le r
    rw [hr, List.length_cons, List.length_cons] at hb
    omega
  · cases h

/-- The rest of a string in three double quotes. -/
def readTripleBasic (text : List Char) : Option (Read (List Char) text) :=
  match readTripleEnd '"' text with
  | some r => some r
  | none =>
    match text with
    | [] => none
    | '\\' :: rest =>
      match h : foldLine? rest with
      | some rest' => do
        have := length_le_of_foldLine? h
        let r ← readTripleBasic rest'
        some (r.widen (by simp; omega))
      | none => do
        let c ← readEscape rest
        have := c.shorter
        let r ← readTripleBasic c.rest
        some ((r.map (c.value :: ·)).widen (by simp; omega))
    | '\r' :: '\n' :: rest => do
      let r ← readTripleBasic rest
      some ((r.map ('\r' :: '\n' :: ·)).widen (by simp; omega))
    | c :: rest => do
      if isControl c ∧ c ≠ '\n' then none
      let r ← readTripleBasic rest
      some ((r.map (c :: ·)).widen (by simp))
termination_by text.length

/-- The rest of a string in three single quotes. -/
def readTripleLiteral (text : List Char) : Option (Read (List Char) text) :=
  match readTripleEnd '\'' text with
  | some r => some r
  | none =>
    match text with
    | [] => none
    | '\r' :: '\n' :: rest => do
      let r ← readTripleLiteral rest
      some ((r.map ('\r' :: '\n' :: ·)).widen (by simp; omega))
    | c :: rest => do
      if isControl c ∧ c ≠ '\n' then none
      let r ← readTripleLiteral rest
      some ((r.map (c :: ·)).widen (by simp))

/-- A line end right behind three opening quotes is no part of the string. -/
def dropFirstLineEnd : List Char → List Char
  | '\n' :: rest => rest
  | '\r' :: '\n' :: rest => rest
  | rest => rest

def isBareKey (c : Char) : Bool := c.isAlphanum || c = '_' || c = '-'

def readKey : Reader String := fun text =>
  match text with
  | '"' :: rest => (readBasic rest).map fun r => (r.map String.ofList).widen (by simp)
  | '\'' :: rest => (readLiteral rest).map fun r => (r.map String.ofList).widen (by simp)
  | text => Read.of? _ (String.ofList (text.takeWhile isBareKey)) (text.dropWhile isBareKey)

/-- Keys with dots between them. -/
def readKeys (text : List Char) : Option (Read Path text) := do
  let first ← readKey text
  match h : dropBlank first.rest with
  | '.' :: rest =>
    have : (dropBlank rest).length < text.length := by
      have := length_dropBlank_le first.rest
      have := length_dropBlank_le rest
      have := first.shorter
      simp only [h, List.length_cons] at *
      omega
    let more ← readKeys (dropBlank rest)
    some ((more.map fun p => { p with parents := first.value :: p.parents }).widen (by omega))
  | _ => some (first.map (⟨[], ·⟩))
termination_by text.length

/-- How deep values and keys can be nested. -/
def nestingLimit : Nat := 80

def readPath : Reader Path := fun text =>
  (readKeys text).filter (·.value.parents.length < nestingLimit)

/-- The value of a word that stands without quotes. -/
def scalar? (cs : List Char) : Option Value :=
  if cs = "true".toList then some (.boolean true)
  else if cs = "false".toList then some (.boolean false)
  else ((Number.ofWord? cs).map .number).or ((Moment.ofText? cs).map .moment)

/-- Characters at which a word without quotes ends. -/
def endsWord (c : Char) : Bool :=
  isBlank c || c = '\n' || c = '\r' || c = ',' || c = '[' || c = ']' || c = '\x7b' || c = '\x7d' ||
    c = '#' || c = '='

/-- A word. A date and a time of day can have one space between them. -/
def readWord : Reader Value := fun text => do
  let word := text.takeWhile (!endsWord ·)
  let rest := text.dropWhile (!endsWord ·)
  match Date.read? word, rest with
  | some (_, []), ' ' :: c :: more =>
    if c.isDigit then
      let time := (c :: more).takeWhile (!endsWord ·)
      Read.of? _ (← scalar? (word ++ ' ' :: time)) ((c :: more).dropWhile (!endsWord ·))
    else Read.of? _ (← scalar? word) rest
  | _, _ => Read.of? _ (← scalar? word) rest

/-- The items of an array through its closing bracket. -/
def readItems (item : Reader Value) (text : List Char) : Option (Read (List Value) text) :=
  match h : dropGap false text with
  | none => none
  | some (']' :: rest) => Read.of? _ [] rest
  | some text₁ => do
    have := length_le_of_dropGap h
    let v ← item text₁
    have := v.shorter
    match h₂ : dropGap false v.rest with
    | some (',' :: rest) =>
      have : rest.length < v.rest.length := by
        have := length_le_of_dropGap h₂
        simp only [List.length_cons] at this; omega
      let r ← readItems item rest
      some ((r.map (v.value :: ·)).widen (by omega))
    | some (']' :: rest) => Read.of? _ [v.value] rest
    | _ => none
termination_by text.length

/-- An assignment `key = value`. What stands around the `=` is dropped by `dropSpace`. -/
def readAssignment (dropSpace : List Char → Option (List Char)) (item : Reader Value) :
    Reader (Path × Value) := fun text => do
  let path ← readPath text
  match ← dropSpace path.rest with
  | '=' :: rest =>
    let v ← item (← dropSpace rest)
    Read.of? _ (path.value, v.value) v.rest
  | _ => none

/-- The assignments of a table in braces through its closing brace. They can go over several lines,
with a comma behind the last one. -/
def readBraces (item : Reader Value) (text : List Char) :
    Option (Read (List (Path × Value)) text) :=
  match h : dropGap false text with
  | none => none
  | some ('\x7d' :: rest) => Read.of? _ [] rest
  | some text₁ => do
    have := length_le_of_dropGap h
    let a ← readAssignment (dropGap false) item text₁
    have := a.shorter
    match h₂ : dropGap false a.rest with
    | some (',' :: rest) =>
      have : rest.length < a.rest.length := by
        have := length_le_of_dropGap h₂
        simp only [List.length_cons] at this; omega
      let r ← readBraces item rest
      some ((r.map (a.value :: ·)).widen (by omega))
    | some ('\x7d' :: rest) => Read.of? _ [a.value] rest
    | _ => none
termination_by text.length

/-- A value. Arrays and tables in braces can be nested to the given depth. -/
def readValue : Nat → Reader Value
  | depth, '"' :: '"' :: '"' :: rest => do
    let r ← readTripleBasic (dropFirstLineEnd rest)
    Read.of? _ (.string (String.ofList r.value)) r.rest
  | depth, '\'' :: '\'' :: '\'' :: rest => do
    let r ← readTripleLiteral (dropFirstLineEnd rest)
    Read.of? _ (.string (String.ofList r.value)) r.rest
  | depth, '"' :: rest =>
    (readBasic rest).map fun r => (r.map (.string <| String.ofList ·)).widen (by simp)
  | depth, '\'' :: rest =>
    (readLiteral rest).map fun r => (r.map (.string <| String.ofList ·)).widen (by simp)
  | depth + 1, '[' :: rest =>
    (readItems (readValue depth) rest).map fun r => (r.map (.array false)).widen (by simp)
  | depth + 1, '\x7b' :: rest => do
    let r ← readBraces (readValue depth) rest
    let entries ← entriesOfBraces r.value
    Read.of? _ (.table .braces entries) r.rest
  | depth, text => readWord text

def readStatement : Reader Statement := fun text =>
  match text with
  | '[' :: '[' :: rest => do
    let p ← readPath (dropBlank rest)
    match dropBlank p.rest with
    | ']' :: ']' :: rest => Read.of? _ (.arrayHeader p.value) rest
    | _ => none
  | '[' :: rest => do
    let p ← readPath (dropBlank rest)
    match dropBlank p.rest with
    | ']' :: rest => Read.of? _ (.header p.value) rest
    | _ => none
  | text => (readAssignment (some ∘ dropBlank) (readValue nestingLimit) text).map fun r =>
      r.map fun a => .assignment a.1 a.2

/-- The statements of a document, each ended by the end of its line. -/
def readStatements (text : List Char) : Option (List Statement) :=
  match h : dropGap false text with
  | none => none
  | some [] => some []
  | some (c :: rest) => do
    have := length_le_of_dropGap h
    let s ← readStatement (c :: rest)
    have := s.shorter
    match h₂ : dropLineEnd false s.rest with
    | none => none
    | some rest =>
      have := length_le_of_dropLineEnd h₂
      (readStatements rest).map (s.value :: ·)
termination_by text.length

/-- The entries of a document. A byte order mark may stand in front of it. -/
def parse (text : String) : Option Entries :=
  let text := match text.toList with
    | '\ufeff' :: rest => rest
    | text => text
  (readStatements text).bind entriesOf

end Shortcode.Toml
