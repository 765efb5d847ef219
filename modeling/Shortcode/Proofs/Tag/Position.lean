import Mathlib.Data.List.Basic
import Shortcode.Proofs.Html.Membership
import Shortcode.Proofs.Text.Slice
import Shortcode.Tag.Scan

namespace Shortcode.Tag

/-- The position holds the character and is not hidden. -/
def shows (hidden : Nat → Bool) (text : List Char) (c : Char) (p : Nat) : Bool :=
  text[p]? = some c && !hidden p

/-- The position has the character in front of it. -/
def follows (text : List Char) (c : Char) (p : Nat) : Bool := 0 < p && text[p - 1]? = some c

def closeAt (hidden : Nat → Bool) (text : List Char) (p : Nat) : Option Close :=
  if shows hidden text ']' p then some ⟨p, follows text '/' p, text[p + 1]? = some ']'⟩ else none

def tokenAt (hidden : Nat → Bool) (names : List (List Char)) (text : List Char) (p : Nat) :
    Option (Token names.length) :=
  if shows hidden text '[' p then
    (readTag names p (follows text '[' p) (text.drop (p + 1))).token
  else none

/-- What is read at a position that holds a `[`. -/
def readingAt (hidden : Nat → Bool) (names : List (List Char)) (text : List Char) (p : Nat) :
    Option (Reading names.length) :=
  if text[p]? = some '[' then
    some (if hidden p then ⟨0, none⟩
      else readTag names p (follows text '[' p) (text.drop (p + 1)))
  else none

def closesOf (hidden : Nat → Bool) (text : List Char) : List Close :=
  (List.range text.length).filterMap (closeAt hidden text)

def readingsOf (hidden : Nat → Bool) (names : List (List Char)) (text : List Char) :
    List (Reading names.length) :=
  (List.range text.length).filterMap (readingAt hidden names text)

def tokensOf (hidden : Nat → Bool) (names : List (List Char)) (text : List Char) :
    List (Token names.length) :=
  (List.range text.length).filterMap (tokenAt hidden names text)

theorem shows_iff {hidden : Nat → Bool} {text : List Char} {c : Char} {p : Nat} :
    shows hidden text c p = true ↔ text[p]? = some c ∧ hidden p = false := by
  simp [shows]

theorem follows_iff {text : List Char} {c : Char} {p : Nat} :
    follows text c p = true ↔ 0 < p ∧ text[p - 1]? = some c := by
  simp [follows]

/-- The head of what is left of a text stands at its position, and the rest behind it. -/
theorem getElem?_of_drop {text rest : List Char} {i : Nat} {c : Char}
    (h : text.drop i = c :: rest) : text[i]? = some c ∧ text.drop (i + 1) = rest := by
  have hi : text[i]? = some c := by
    rw [← Nat.add_zero i, ← List.getElem?_drop, h]
    rfl
  have hr : text.drop (i + 1) = rest := by rw [← List.drop_drop, h, List.drop_one, List.tail_cons]
  exact ⟨hi, hr⟩

theorem follows_succ {text rest : List Char} {i : Nat} {c : Char} (h : text.drop i = c :: rest)
    (d : Char) : follows text d (i + 1) = decide (c = d) := by
  simp [follows, (getElem?_of_drop h).1]

theorem closesFrom_eq {hidden : Nat → Bool} {text rest : List Char} {i : Nat}
    {cursor : Html.SpanCursor} (hr : text.drop i = rest) (ho : Html.Ordered cursor.pending)
    (hc : ∀ q, i ≤ q → Html.covers cursor.pending q = hidden q) :
    closesFrom cursor i (follows text '/' i) rest =
      (List.range' i rest.length).filterMap (closeAt hidden text) := by
  induction rest generalizing i cursor with
  | nil => rfl
  | cons c rest ih =>
    obtain ⟨hi, hd⟩ := getElem?_of_drop hr
    have hf := follows_succ hr '/'
    rw [closesFrom, List.length_cons, List.range'_succ, List.filterMap_cons]
    by_cases hb : c = ']'
    · subst hb
      obtain ⟨h1, h2, h3⟩ := Html.SpanCursor.contains_eq ho i
      rw [hc i (Nat.le_refl i)] at h1
      rw [if_pos rfl]
      simp only [h1, closeAt, shows, hi, decide_true, Bool.true_and]
      have next := ih hd h2 fun q hq => (h3 q (Nat.le_of_succ_le hq)).trans (hc q (by omega))
      rw [hf, show decide (']' = '/') = false from rfl] at next
      cases hh : hidden i with
      | true => exact next
      | false =>
        have hn : text[i + 1]? = rest.head? := by
          rw [← hd, List.head?_drop]
        simp only [Bool.false_eq_true, if_false, Bool.not_false, if_true, next, hn]
    · have next := ih hd ho fun q hq => hc q (Nat.le_of_succ_le hq)
      rw [hf] at next
      rw [if_neg hb, next]
      simp [closeAt, shows, hi, hb]

theorem readingsFrom_eq {hidden : Nat → Bool} (names : List (List Char)) {text rest : List Char}
    {i : Nat} {cursor : Html.SpanCursor} (hr : text.drop i = rest)
    (ho : Html.Ordered cursor.pending)
    (hc : ∀ q, i ≤ q → Html.covers cursor.pending q = hidden q) :
    readingsFrom names cursor i (follows text '[' i) rest =
      (List.range' i rest.length).filterMap (readingAt hidden names text) := by
  induction rest generalizing i cursor with
  | nil => rfl
  | cons c rest ih =>
    obtain ⟨hi, hd⟩ := getElem?_of_drop hr
    have hf := follows_succ hr '['
    rw [readingsFrom, List.length_cons, List.range'_succ, List.filterMap_cons, readingAt, hi]
    by_cases hb : c = '['
    · subst hb
      obtain ⟨h1, h2, h3⟩ := Html.SpanCursor.contains_eq ho i
      rw [hc i (Nat.le_refl i)] at h1
      have next := ih hd h2 fun q hq => (h3 q (Nat.le_of_succ_le hq)).trans (hc q (by omega))
      rw [hf, decide_eq_true rfl] at next
      rw [if_pos rfl, if_pos rfl]
      dsimp only
      rw [next, h1, hd]
    · have next := ih hd ho fun q hq => hc q (Nat.le_of_succ_le hq)
      rw [hf, decide_eq_false hb] at next
      rw [if_neg hb, next, if_neg fun h => hb (Option.some.inj h)]

theorem closesFrom_zero {hidden : Nat → Bool} (text : List Char) {cursor : Html.SpanCursor}
    (ho : Html.Ordered cursor.pending) (hc : ∀ q, Html.covers cursor.pending q = hidden q) :
    closesFrom cursor 0 false text = closesOf hidden text := by
  rw [closesOf, List.range_eq_range']
  exact closesFrom_eq (List.drop_zero (l := text)) ho fun q _ => hc q

theorem readingsFrom_zero {hidden : Nat → Bool} (names : List (List Char)) (text : List Char)
    {cursor : Html.SpanCursor} (ho : Html.Ordered cursor.pending)
    (hc : ∀ q, Html.covers cursor.pending q = hidden q) :
    readingsFrom names cursor 0 false text = readingsOf hidden names text := by
  rw [readingsOf, List.range_eq_range']
  exact readingsFrom_eq names (List.drop_zero (l := text)) ho fun q _ => hc q

theorem token_readingsOf (hidden : Nat → Bool) (names : List (List Char)) (text : List Char) :
    (readingsOf hidden names text).filterMap (·.token) = tokensOf hidden names text := by
  rw [readingsOf, List.filterMap_filterMap, tokensOf]
  congr 1
  funext p
  by_cases hb : text[p]? = some '['
  · cases hh : hidden p <;> simp [readingAt, tokenAt, shows, hb, hh]
  · simp [readingAt, tokenAt, shows, hb]

theorem closeAt_eq_some_iff {hidden : Nat → Bool} {text : List Char} {p : Nat} {c : Close} :
    closeAt hidden text p = some c ↔ c.pos = p ∧ shows hidden text ']' p = true ∧
      c.afterSlash = follows text '/' p ∧ c.doubled = decide (text[p + 1]? = some ']') := by
  rw [closeAt]
  constructor
  · intro h
    split at h
    · next hs =>
      cases h
      exact ⟨rfl, hs, rfl, rfl⟩
    · cases h
  · rintro ⟨hp, hs, ha, hd⟩
    obtain ⟨pos, afterSlash, doubled⟩ := c
    dsimp only at hp ha hd
    rw [if_pos hs, ha, hd, hp]

theorem opens_iff {rest name : List Char} :
    opens rest name = true ↔
      ∃ after, name ++ after = rest ∧ after.head?.any continuesName = false := by
  rw [opens]
  constructor
  · intro h
    split at h
    · next after ha =>
      exact ⟨after, List.isPrefixOf?_eq_some_iff_append_eq.1 ha, by simpa using h⟩
    · cases h
  · rintro ⟨after, ha, hb⟩
    rw [List.isPrefixOf?_eq_some_iff_append_eq.2 ha]
    simp [hb]

theorem isPrefix_of_opens {rest name : List Char} (h : opens rest name = true) :
    name <+: rest := by
  obtain ⟨after, ha, -⟩ := opens_iff.1 h
  exact ⟨after, ha⟩

/-- The name that was found is one that was looked for. -/
theorem get_of_findFinIdx? {names : List (List Char)} {f : List Char → Bool}
    {k : Fin names.length} (h : names.findFinIdx? f = some k) : f (names.get k) = true :=
  (List.findFinIdx?_eq_some_iff.1 h).1

theorem closes_iff {tail name : List Char} :
    closes tail name = true ↔ name ++ [']'] <+: tail := List.isPrefixOf_iff_prefix

section

variable {hidden : Nat → Bool} {names : List (List Char)} {text : List Char} {p : Nat}

theorem tokenAt_of_shows (h : shows hidden text '[' p = true) :
    tokenAt hidden names text p =
      (readTag names p (follows text '[' p) (text.drop (p + 1))).token := if_pos h

/-- Unless a `/` stands behind the `[`, a tag opens. -/
theorem token_readTag_of_ne {start : Nat} {afterBracket : Bool} {rest : List Char}
    (h : rest.head? ≠ some '/') :
    (readTag names start afterBracket rest).token =
      (names.findFinIdx? (opens rest)).map fun k => .opener k start afterBracket := by
  rw [readTag.eq_def]
  split
  · exact absurd rfl h
  · rfl

/-- Behind `[/` a closing tag is looked for. -/
theorem tokenAt_of_slash (h : shows hidden text '[' p = true) (hs : text[p + 1]? = some '/') :
    tokenAt hidden names text p =
      (names.findFinIdx? (closes (text.drop (p + 2)))).map fun k =>
        .closer k p (p + (names.get k).length + 3)
          (text[p + (names.get k).length + 3]? = some ']') := by
  obtain ⟨hlt, he⟩ := List.getElem?_eq_some_iff.1 hs
  rw [tokenAt_of_shows h, List.drop_eq_getElem_cons hlt, he]
  simp only [readTag, List.getElem?_drop]
  congr 1
  funext k
  rw [show p + 1 + 1 + ((names.get k).length + 1) = p + (names.get k).length + 3 by omega]

/-- Behind any other `[` an opening tag is looked for. -/
theorem tokenAt_of_not_slash (h : shows hidden text '[' p = true)
    (hs : text[p + 1]? ≠ some '/') :
    tokenAt hidden names text p =
      (names.findFinIdx? (opens (text.drop (p + 1)))).map fun k =>
        .opener k p (follows text '[' p) := by
  rw [tokenAt_of_shows h, token_readTag_of_ne (by rwa [List.head?_drop])]

theorem shows_of_tokenAt {t : Token names.length} (h : tokenAt hidden names text p = some t) :
    shows hidden text '[' p = true := by
  rw [tokenAt] at h
  split at h
  · assumption
  · cases h

theorem tokenAt_opener {k : Fin names.length} {start : Nat} {after : Bool}
    (h : tokenAt hidden names text p = some (.opener k start after)) :
    start = p ∧ after = follows text '[' p ∧
      names.findFinIdx? (opens (text.drop (p + 1))) = some k := by
  rw [tokenAt_of_shows (shows_of_tokenAt h), readTag.eq_def] at h
  split at h
  · obtain ⟨_, -, he⟩ := Option.map_eq_some_iff.1 h
    cases he
  · obtain ⟨_, hk, he⟩ := Option.map_eq_some_iff.1 h
    cases he
    exact ⟨rfl, rfl, hk⟩

theorem tokenAt_closer {k : Fin names.length} {start stop : Nat} {doubled : Bool}
    (h : tokenAt hidden names text p = some (.closer k start stop doubled)) :
    start = p ∧ stop = p + (names.get k).length + 3 ∧ doubled = decide (text[stop]? = some ']') ∧
      text[p + 1]? = some '/' ∧ names.findFinIdx? (closes (text.drop (p + 2))) = some k := by
  rw [tokenAt_of_shows (shows_of_tokenAt h), readTag.eq_def] at h
  split at h
  · next tail ht =>
    obtain ⟨hs, hd⟩ := getElem?_of_drop ht
    obtain ⟨_, hk, he⟩ := Option.map_eq_some_iff.1 h
    cases he
    refine ⟨rfl, rfl, ?_, hs, by rw [hd]; exact hk⟩
    have he : p + 1 + 1 + ((names.get k).length + 1) = p + (names.get k).length + 3 := by omega
    rw [← hd, List.getElem?_drop, he]
  · obtain ⟨_, -, he⟩ := Option.map_eq_some_iff.1 h
    cases he

end

end Shortcode.Tag

namespace Shortcode.Scanner

/-- Brackets at the position are read as plain characters. -/
def hidden (s : Scanner) (text : List Char) (p : Nat) : Bool :=
  s.ignoreHtml && Html.isProtected text p

theorem hidden_eq_false {s : Scanner} {text : List Char} (h : '<' ∉ text) (q : Nat) :
    s.hidden text q = false := by
  rw [hidden, Html.isProtected, Html.protectedSpans, Html.spansFrom_eq_nil h]
  simp [Html.covers]

/-- The state at the end of the pass over a text. -/
def pairing (s : Scanner) (content : String) :
    Tag.Pairing (s.names.map String.toList).length :=
  Tag.Pairing.run (s.names.map String.toList) (Tag.closesOf (s.hidden content.toList) content.toList)
    (Tag.tokensOf (s.hidden content.toList) (s.names.map String.toList) content.toList)

theorem shield_spec (s : Scanner) (text : List Char) :
    Html.Ordered (s.shield text).pending ∧
      ∀ q, Html.covers (s.shield text).pending q = s.hidden text q := by
  cases h : s.ignoreHtml <;> simp only [shield, hidden, h]
  · exact ⟨⟨nofun, .nil⟩, fun _ => rfl⟩
  · exact ⟨Html.protectedSpans_ordered text, fun _ => rfl⟩

theorem tokensOf_eq_nil {s : Scanner} {text : List Char}
    (h : s.names.isEmpty || !text.contains '[') :
    Tag.tokensOf (s.hidden text) (s.names.map String.toList) text = [] := by
  apply List.filterMap_eq_nil_iff.2
  intro p _
  apply Option.eq_none_iff_forall_ne_some.2
  intro t ht
  rcases Bool.or_eq_true_iff.1 h with hn | hb
  · have k : Fin (s.names.map String.toList).length := by
      cases t with
      | opener k => exact k
      | closer k => exact k
    have hz : (s.names.map String.toList).length = 0 := by
      rw [List.isEmpty_iff.1 hn]
      rfl
    exact absurd k.isLt (by omega)
  · have hs := (Tag.shows_iff.1 (Tag.shows_of_tokenAt ht)).1
    have := List.mem_of_getElem? hs
    simp_all

/-- The `]` of a text that the pass starts from. -/
def closes (s : Scanner) (text : List Char) : List Tag.Close :=
  Tag.closesFrom (s.shield text) 0 false text

/-- What the pass takes in, read with a cursor of its own. -/
def tokens (s : Scanner) (text : List Char) : List (Tag.Token (s.names.map String.toList).length) :=
  (Tag.readingsFrom (s.names.map String.toList) (s.shield text) 0 false text).filterMap (·.token)

/-- The state of the pass over a text once it has taken in some tokens. -/
def passed (s : Scanner) (text : List Char)
    (tokens : List (Tag.Token (s.names.map String.toList).length)) :
    Tag.Pairing (s.names.map String.toList).length :=
  Tag.Pairing.run (s.names.map String.toList) (s.closes text) tokens

theorem closes_eq (s : Scanner) (text : List Char) :
    s.closes text = Tag.closesOf (s.hidden text) text := by
  obtain ⟨ho, hc⟩ := s.shield_spec text
  exact Tag.closesFrom_zero text ho hc

theorem readings_eq (s : Scanner) (text : List Char) :
    Tag.readingsFrom (s.names.map String.toList) (s.shield text) 0 false text =
      Tag.readingsOf (s.hidden text) (s.names.map String.toList) text := by
  obtain ⟨ho, hc⟩ := s.shield_spec text
  exact Tag.readingsFrom_zero _ text ho hc

theorem tokens_eq (s : Scanner) (text : List Char) :
    s.tokens text = Tag.tokensOf (s.hidden text) (s.names.map String.toList) text := by
  rw [tokens, readings_eq, Tag.token_readingsOf]

theorem passed_tokens (s : Scanner) (content : String) :
    s.passed content.toList (s.tokens content.toList) = s.pairing content := by
  rw [passed, closes_eq, tokens_eq, pairing]

/-- A scan yields the matches of the openers that the pass records, also for texts and lists of
names on which there is nothing to do. -/
theorem scan_found (s : Scanner) (content : String) :
    (s.scan content).found =
      Tag.matchesFrom 0 content.toList (s.pairing content).openers.toList := by
  rw [scan]
  split
  · next h =>
    rw [pairing, tokensOf_eq_nil h]
    rfl
  · rw [← passed_tokens]
    rfl

end Shortcode.Scanner
