import Shortcode.Tag.Match
import Shortcode.Tag.Pairing

namespace Shortcode

namespace Tag

/-- The match of an opener at or behind `cursor`, where `rest` is the text behind `cursor`. A `[`
in front of `cursor` belongs to the previous match and is no escape. -/
def Opener.toMatch (o : Opener) (cursor : Nat) (rest : List Char) : Match :=
  let piece (a b : Nat) := String.ofList (Text.slice rest (a - cursor) (b - cursor))
  let lead := cursor < o.start && o.afterBracket
  let attrEnd := if o.selfClosing then o.close.pos - 1 else o.close.pos
  let stop := match o.closer with
    | some closer => closer.stop
    | none => o.close.pos + 1
  let trail := match o.closer with
    | some closer => closer.doubled
    | none => o.close.doubled
  { lead, trail
    name := piece (o.start + 1) o.nameEnd
    attrText := piece o.nameEnd attrEnd
    selfClosing := o.selfClosing
    inner := o.closer.map fun closer => piece (o.close.pos + 1) closer.start
    start := o.start - lead.toNat
    stop := stop + trail.toNat }

/-- The openers that do not lie inside an earlier match, each with its match. -/
def matchesFrom (cursor : Nat) (rest : List Char) : List Opener → List Match
  | [] => []
  | o :: openers =>
    if o.start < cursor then matchesFrom cursor rest openers
    else
      let m := o.toMatch cursor rest
      m :: matchesFrom m.stop (rest.drop (m.stop - cursor)) openers

theorem length_inner_le_of_mem {cursor : Nat} {rest : List Char} {openers : List Opener} {m : Match}
    {inner : String} (hm : m ∈ matchesFrom cursor rest openers) (hi : m.inner = some inner) :
    inner.length ≤ rest.length - 1 := by
  induction openers generalizing cursor rest with
  | nil => simp [matchesFrom] at hm
  | cons o openers ih =>
    rw [matchesFrom] at hm
    split at hm
    · exact ih hm
    · rcases List.mem_cons.1 hm with rfl | hm
      · obtain ⟨closer, -, rfl⟩ := Option.map_eq_some_iff.1 hi
        have := Text.length_slice_le rest (o.close.pos + 1 - cursor) (closer.start - cursor)
        have := o.start_lt_nameEnd
        have := o.nameEnd_le_close
        rw [String.length_ofList]
        omega
      · have := ih hm
        simp only [List.length_drop] at this
        omega

end Tag

/-- The tags found in a text, the names with openers left unpaired and their number, and the work
spent: on reading the brackets and pairing the tags, and on going through the openers. -/
structure Scan where
  found : List Match
  unterminated : List (String × Nat)
  lexSteps : Nat
  matchSteps : Nat

def Scan.steps (s : Scan) : Nat := s.lexSteps + s.matchSteps

/-- Names are tried in the order given, so a name should stand before those it begins with. -/
structure Scanner where
  names : List String
  ignoreHtml : Bool := false

namespace Scanner

/-- The spans whose brackets are not looked at. -/
def shield (s : Scanner) (text : List Char) : Html.SpanCursor :=
  ⟨if s.ignoreHtml then Html.protectedSpans text else []⟩

/-- A step is counted for each `[`, each comparison with a name, each `]` passed on the way to the
end of a tag, and each opener considered for a match. -/
def scan (s : Scanner) (content : String) : Scan :=
  let text := content.toList
  if s.names.isEmpty || !text.contains '[' then ⟨[], [], 0, 0⟩
  else
    let names := s.names.map String.toList
    let closes := Tag.closesFrom (s.shield text) 0 false text
    let readings := Tag.readingsFrom names (s.shield text) 0 false text
    let paired := Tag.Pairing.run names closes (readings.filterMap (·.token))
    { found := Tag.matchesFrom 0 text paired.openers.toList
      unterminated := (s.names.zip (paired.lanes.toList.map (·.waiting.length))).filter (0 < ·.2)
      lexSteps := readings.foldr (fun r steps => r.comparisons + 1 + steps)
        (closes.length - paired.closes.length)
      matchSteps := paired.openers.size }

theorem length_inner_lt {s : Scanner} {content inner : String} {m : Match}
    (hm : m ∈ (s.scan content).found) (hi : m.inner = some inner) :
    inner.length < content.length := by
  simp only [scan] at hm
  split at hm
  · simp at hm
  · next h =>
    have hne : content.toList ≠ [] := by
      intro he
      simp [he] at h
    have := Tag.length_inner_le_of_mem hm hi
    have := List.length_pos_iff.2 hne
    simp only [String.length_toList] at *
    omega

end Scanner
end Shortcode
