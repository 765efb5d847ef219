import Shortcode.Engine.Basic
import Shortcode.Proofs.Tag.Extent

namespace Shortcode

/-- Written `[[name …]]`: one more bracket stands in front of the opening tag and one behind it. -/
def Match.Literal (text : List Char) (m : Match) : Prop :=
  Tag.follows text '[' m.tagStart = true ∧ text[m.openStop]? = some ']'

namespace Tag

section

variable {hidden : Nat → Bool} {names : List (List Char)} {text : List Char}
  {k : Fin names.length} {o : Opener} {cursor : Nat}

/-- A `[` in front of the tag is an escape bracket, as long as there is none in front of the
cursor. -/
theorem Opener.Fits.lead_toMatch (h : o.Fits hidden names text k) (hc : cursor ≤ o.start)
    (hb : follows text '[' cursor = false) :
    (o.toMatch cursor (text.drop cursor)).lead =
      follows text '[' (o.toMatch cursor (text.drop cursor)).tagStart := by
  rw [(h.start_toMatch hc).2, o.toMatch_drop hc, h.reads.afterBracket]
  dsimp only
  rcases Nat.lt_or_eq_of_le hc with hlt | rfl
  · rw [decide_eq_true hlt, Bool.true_and]
  · rw [hb, Bool.and_false]

/-- A match ends with a `]`, so the `[` in front of the next tag is never one of its own. -/
theorem Opener.Fits.follows_stop_toMatch (h : o.Fits hidden names text k) (hc : cursor ≤ o.start) :
    follows text '[' (o.toMatch cursor (text.drop cursor)).stop = false := by
  rw [follows, h.getElem?_stop_toMatch hc]
  exact Bool.and_false _

theorem lead_of_mem {openers : List Opener}
    (hf : ∀ o ∈ openers, ∃ k, o.Fits hidden names text k) (hb : follows text '[' cursor = false)
    {m : Match} (hm : m ∈ matchesFrom cursor (text.drop cursor) openers) :
    m.lead = follows text '[' m.tagStart := by
  induction openers generalizing cursor with
  | nil => cases hm
  | cons o openers ih =>
    obtain ⟨⟨k, hk⟩, hf⟩ := List.forall_mem_cons.1 hf
    by_cases hc : o.start < cursor
    · rw [matchesFrom_cons_of_lt _ _ hc] at hm
      exact ih hf hb hm
    · have hc := Nat.le_of_not_lt hc
      rw [hk.matchesFrom_cons hc] at hm
      rcases List.mem_cons.1 hm with rfl | hm
      · exact hk.lead_toMatch hc hb
      · exact ih hf (hk.follows_stop_toMatch hc) hm

/-- The pass and the match tell by the same characters whether a tag is a literal. -/
theorem Opener.Fits.literal_iff (h : o.Fits hidden names text k) (hc : cursor ≤ o.start) :
    o.literal = true ↔ (o.toMatch cursor (text.drop cursor)).Literal text := by
  rw [Match.Literal, (h.start_toMatch hc).2, h.openStop_toMatch hc, literal, Bool.and_eq_true_iff,
    h.reads.afterBracket, h.reads.doubled, decide_eq_true_iff]

/-- A literal has no closing tag. -/
theorem Opener.Fits.closer_of_literal (h : o.Fits hidden names text k) (hl : o.literal = true) :
    o.closer = none := by
  refine Option.eq_none_iff_forall_ne_some.2 fun c hc => ?_
  have hnot := (h.encloses c hc).2.1
  rw [hl] at hnot
  cases hnot

end

end Tag

namespace Scanner

variable {s : Scanner} {content : String} {m : Match}

/-- The character in front of a tag decides alone whether its match has an escape bracket there. -/
theorem lead_of_mem (hm : m ∈ (s.scan content).found) :
    m.lead = Tag.follows content.toList '[' m.tagStart := by
  have start : Tag.follows content.toList '[' 0 = false := rfl
  rw [scan_found] at hm
  exact Tag.lead_of_mem (fun o => fits_of_mem) start hm

end Scanner

/-- Whatever the names are: each match has an escape bracket in front of the `[` of its tag exactly
if another `[` stands there, and it is written `[[name …]]` exactly if the pass took its opening tag
for a literal and paired it with no closing tag. It then has both escape brackets, encloses nothing
and is put in place without being rendered. -/
theorem Scanner.found_escapes {s : Scanner} {content : String} {m : Match}
    (hm : m ∈ (s.scan content).found) :
    content.toList[m.tagStart]? = some '[' ∧ content.toList[m.openStop - 1]? = some ']' ∧
    (m.lead = true ↔ Tag.follows content.toList '[' m.tagStart = true) ∧
    (∃ o ∈ (s.pairing content).openers.toList, o.start = m.tagStart ∧
      o.close.pos + 1 = m.openStop ∧ (o.literal = true ↔ m.Literal content.toList) ∧
      (o.literal = true → o.closer = none)) ∧
    (m.Literal content.toList → m.lead = true ∧ m.trail = true ∧ m.inner = none ∧
      ∀ (e : Engine) (occurrence : Occurrence), occurrence.tag = m →
        e.edit occurrence = pure ⟨m.start, m.stop, m.tagText⟩) := by
  have lead := lead_of_mem hm
  obtain ⟨k, o, i, ho, fits, hi, rfl⟩ := exists_opener_of_mem hm
  have start := (fits.start_toMatch hi).2
  have stop := fits.openStop_toMatch hi
  have alone := fits.closer_of_literal
  refine ⟨start ▸ fits.reads.getElem?_start, ?_, by rw [lead],
    ⟨o, ho, start.symm, stop.symm, fits.literal_iff hi, alone⟩, fun literal => ?_⟩
  · rw [stop, Nat.add_sub_cancel]
    exact fits.reads.getElem?_close
  have closer := alone ((fits.literal_iff hi).2 literal)
  have trail : (o.toMatch i (content.toList.drop i)).trail = true := by
    rw [o.toMatch_drop hi]
    dsimp only
    rw [Tag.Opener.trail, closer]
    exact (Bool.and_eq_true_iff.1 ((fits.literal_iff hi).2 literal)).2
  have inner : (o.toMatch i (content.toList.drop i)).inner = none := by
    rw [o.inner_toMatch hi, closer]
    rfl
  have escaped : (o.toMatch i (content.toList.drop i)).escaped = true := by
    rw [Match.escaped, lead, literal.1, trail]
    rfl
  refine ⟨lead.trans literal.1, trail, inner, fun e occurrence tag => ?_⟩
  rw [Engine.edit_eq, tag, if_pos escaped, Match.edit, Match.replacement, if_pos escaped]

/-- The second of two literals side by side, with a closing tag behind them. -/
theorem Scanner.found_escapes_adjacent :
    (let s : Scanner := ⟨["ab", "a"], true⟩
     let content := "[[a /]][[a]]x[/a]]"
     let m : Match := ⟨true, "a", "", false, none, true, 7, 12⟩
     m ∈ (s.scan content).found ∧ m.Literal content.toList ∧ m.lead = true ∧ m.trail = true ∧
      m.inner = none) := by
  intro s content m
  have mem : m ∈ (s.scan content).found := by decide +kernel
  have literal : m.Literal content.toList := ⟨by decide +kernel, by decide +kernel⟩
  obtain ⟨lead, trail, inner, -⟩ := (found_escapes mem).2.2.2.2 literal
  exact ⟨mem, literal, lead, trail, inner⟩

end Shortcode
