import Shortcode.Tag.Bracket

namespace Shortcode.Tag

/-- A `[/name]` that ends an enclosing tag; `doubled` if a `]` follows it. -/
structure Closer where
  start : Nat
  stop : Nat
  doubled : Bool
  deriving DecidableEq, Repr

/-- An opening tag from its `[` at `start` to its `]`. -/
structure Opener where
  start : Nat
  nameEnd : Nat
  close : Close
  afterBracket : Bool
  closer : Option Closer
  start_lt_nameEnd : start < nameEnd
  nameEnd_le_close : nameEnd ≤ close.pos
  deriving DecidableEq, Repr

def Opener.selfClosing (o : Opener) : Bool := o.nameEnd < o.close.pos && o.close.afterSlash

/-- The tag is written `[[name …]]`: a literal, which never encloses anything. -/
def Opener.literal (o : Opener) : Bool := o.afterBracket && o.close.doubled

/-- The tags of one name. Brackets before `guard` lie inside the last opening tag of that name and
mean nothing to it; `waiting` holds the numbers of the openers that have no closer yet, last
first. -/
structure Lane where
  guard : Nat
  waiting : List Nat
  deriving DecidableEq, Repr

/-- State of the one pass over the brackets of a text that records the opening tags and pairs them
with closing tags: the `]` that are still ahead, a lane for each name, the openers so far. -/
structure Pairing (n : Nat) where
  closes : List Close
  lanes : Vector Lane n
  openers : Array Opener

def Pairing.start (n : Nat) (closes : List Close) : Pairing n :=
  ⟨closes, Vector.replicate n ⟨0, []⟩, #[]⟩

def Pairing.lane {n : Nat} (s : Pairing n) (k : Fin n) : Lane := s.lanes.get k

/-- A closing tag of a lane goes to the opener that has waited for the shortest time. -/
def Pairing.closeTag {n : Nat} (s : Pairing n) (k : Fin n) (closer : Closer) : Pairing n :=
  match (s.lane k).waiting with
  | [] => s
  | top :: below =>
    { s with
      lanes := s.lanes.set k { s.lane k with waiting := below } k.isLt
      openers := s.openers.modify top fun o => { o with closer := some closer } }

/-- Records an opener. It waits for a closing tag unless it closes itself or is a literal. -/
def Pairing.openTag {n : Nat} (s : Pairing n) (k : Fin n) (o : Opener) : Pairing n :=
  let waiting := (s.lane k).waiting
  { s with
    lanes := s.lanes.set k
      ⟨o.close.pos + 1, if o.selfClosing || o.literal then waiting else s.openers.size :: waiting⟩
      k.isLt
    openers := s.openers.push o }

/-- The first `]` at or behind the end of a name, with the `]` before it dropped: the pass never
asks for one of them again. -/
def nextClose (nameEnd : Nat) : List Close → Option { c : Close // nameEnd ≤ c.pos } × List Close
  | [] => (none, [])
  | c :: rest => if h : nameEnd ≤ c.pos then (some ⟨c, h⟩, c :: rest) else nextClose nameEnd rest

/-- Takes in one token. `names` gives the length of each name. -/
def Pairing.step (names : List (List Char)) (s : Pairing names.length) :
    Token names.length → Pairing names.length
  | .closer k start stop doubled =>
    if start < (s.lane k).guard then s else s.closeTag k ⟨start, stop, doubled⟩
  | .opener k start afterBracket =>
    if start < (s.lane k).guard then s
    else
      let nameEnd := start + 1 + (names.get k).length
      match nextClose nameEnd s.closes with
      | (none, closes) => { s with closes }
      | (some close, closes) =>
        { s with closes }.openTag k
          ⟨start, nameEnd, close, afterBracket, none, by omega, close.property⟩

/-- The pass over all tokens of a text. -/
def Pairing.run (names : List (List Char)) (closes : List Close)
    (tokens : List (Token names.length)) : Pairing names.length :=
  tokens.foldl (Pairing.step names) (.start names.length closes)

end Shortcode.Tag
