import Shortcode.Proofs.Tag.Recorded

namespace Shortcode

namespace Match

/-- Where the name ends and the attribute text begins. -/
def nameStop (m : Match) : Nat := m.tagStart + 1 + m.name.length

def attrStop (m : Match) : Nat := m.nameStop + m.attrText.length

/-- The end of the opening tag, where the enclosed text begins if there is one. -/
def openStop (m : Match) : Nat := m.attrStop + if m.selfClosing then 2 else 1

def innerStop (m : Match) : Nat := m.openStop + (m.inner.map String.length).getD 0

/-- Positions at which a match and its parts are cut from the text. -/
def cuts (m : Match) : List Nat :=
  [m.start, m.tagStart, m.nameStop, m.attrStop, m.openStop, m.innerStop, m.tagStop, m.stop]

end Match

namespace Tag

/-- The end of the attribute text: in front of `]` or `/]`. -/
def Opener.attrEnd (o : Opener) : Nat := if o.selfClosing then o.close.pos - 1 else o.close.pos

/-- The end of the tag: of its closer, or of the opening tag where there is none. -/
def Opener.stop (o : Opener) : Nat :=
  match o.closer with
  | some closer => closer.stop
  | none => o.close.pos + 1

/-- A `]` follows the tag. -/
def Opener.trail (o : Opener) : Bool :=
  match o.closer with
  | some closer => closer.doubled
  | none => o.close.doubled

theorem Opener.nameEnd_le_attrEnd (o : Opener) : o.nameEnd ≤ o.attrEnd := by
  rw [attrEnd]
  split
  · next h =>
    have := of_decide_eq_true (Bool.and_eq_true_iff.1 h).1
    omega
  · exact o.nameEnd_le_close

/-- The match of an opener, cut from the whole text and not from what lies behind the cursor. -/
theorem Opener.toMatch_drop (o : Opener) {cursor : Nat} (hc : cursor ≤ o.start)
    (text : List Char) :
    o.toMatch cursor (text.drop cursor) =
      { lead := cursor < o.start && o.afterBracket
        name := String.ofList (Text.slice text (o.start + 1) o.nameEnd)
        attrText := String.ofList (Text.slice text o.nameEnd o.attrEnd)
        selfClosing := o.selfClosing
        inner := o.closer.map fun c => String.ofList (Text.slice text (o.close.pos + 1) c.start)
        trail := o.trail
        start := o.start - (cursor < o.start && o.afterBracket).toNat
        stop := o.stop + o.trail.toNat } := by
  have hn := o.start_lt_nameEnd
  have hp := o.nameEnd_le_close
  have cut {a : Nat} (b : Nat) (ha : cursor ≤ a) :
      Text.slice (text.drop cursor) (a - cursor) (b - cursor) = Text.slice text a b :=
    Text.slice_drop text ha
  simp only [toMatch]
  rw [cut _ (by omega), cut _ (by omega)]
  simp only [cut _ (show cursor ≤ o.close.pos + 1 by omega)]
  rfl

/-- No position of an opener lies outside of a text of this length, and none before another. -/
structure Opener.InRange (length : Nat) (o : Opener) : Prop where
  name : o.start < o.nameEnd ∧ o.nameEnd ≤ o.attrEnd
  close : o.attrEnd ≤ o.close.pos ∧ o.close.pos < length
  lead : o.afterBracket = true → 0 < o.start
  closer : ∀ c, o.closer = some c → o.close.pos < c.start ∧ c.start < c.stop ∧ c.stop ≤ length

section

variable {hidden : Nat → Bool} {names : List (List Char)} {text : List Char}
  {k : Fin names.length} {o : Opener} {c : Closer}

theorem Opener.Reads.isPrefix_name (h : o.Reads hidden names text k) :
    names.get k <+: text.drop (o.start + 1) :=
  isPrefix_of_opens (get_of_findFinIdx? h.name)

theorem Opener.Reads.slice_name (h : o.Reads hidden names text k) :
    Text.slice text (o.start + 1) o.nameEnd = names.get k :=
  Text.slice_of_isPrefix h.isPrefix_name h.nameEnd

theorem Opener.Reads.getElem?_start (h : o.Reads hidden names text k) :
    text[o.start]? = some '[' := (shows_iff.1 h.shown).1

theorem Opener.Reads.getElem?_close (h : o.Reads hidden names text k) :
    text[o.close.pos]? = some ']' := (shows_iff.1 (closeAt_eq_some_iff.1 h.close).2.1).1

theorem Opener.Reads.close_lt (h : o.Reads hidden names text k) : o.close.pos < text.length :=
  (List.getElem?_eq_some_iff.1 h.getElem?_close).1

theorem Opener.Reads.doubled (h : o.Reads hidden names text k) :
    o.close.doubled = decide (text[o.close.pos + 1]? = some ']') :=
  (closeAt_eq_some_iff.1 h.close).2.2.2

/-- The end of the opening tag, as it is written. -/
theorem Opener.Reads.slice_end (h : o.Reads hidden names text k) :
    Text.slice text o.attrEnd (o.close.pos + 1) =
      if o.selfClosing then ['/', ']'] else [']'] := by
  rw [attrEnd]
  have hb := Text.slice_singleton h.getElem?_close
  split
  · next hs =>
    have hf := (closeAt_eq_some_iff.1 h.close).2.2.1
    rw [(Bool.and_eq_true_iff.1 hs).2] at hf
    obtain ⟨hp, ha⟩ := follows_iff.1 hf.symm
    have ha := Text.slice_singleton ha
    rw [Nat.sub_add_cancel hp] at ha
    rw [← Text.slice_append_slice text (Nat.sub_le _ 1) (Nat.le_succ _), ha, hb]
    rfl
  · exact hb

/-- The closing tag, as it is written. -/
theorem Closer.Reads.slice_tag (h : c.Reads hidden names text k) :
    Text.slice text c.start c.stop = '[' :: '/' :: (names.get k ++ [']']) := by
  have hb := Text.slice_singleton (shows_iff.1 h.shown).1
  have hs := Text.slice_singleton h.slash
  have hn : Text.slice text (c.start + 2) c.stop = names.get k ++ [']'] := by
    refine Text.slice_of_isPrefix (closes_iff.1 (get_of_findFinIdx? h.name)) ?_
    rw [h.stop, List.length_append, List.length_singleton]
    omega
  have hle : c.start + 1 + 1 ≤ c.stop := by
    rw [h.stop]
    omega
  rw [← Text.slice_append_slice text (Nat.le_succ _) (Nat.le_of_succ_le hle), hb,
    ← Text.slice_append_slice text (Nat.le_succ _) hle, hs, hn]
  rfl

theorem Closer.Reads.start_lt_stop (h : c.Reads hidden names text k) : c.start < c.stop := by
  rw [h.stop]
  omega

theorem Closer.Reads.stop_le (h : c.Reads hidden names text k) : c.stop ≤ text.length := by
  have hp := closes_iff.1 (get_of_findFinIdx? h.name)
  have hl := Text.length_le_of_isPrefix_drop hp (List.append_ne_nil_of_right_ne_nil _ nofun)
  have hs := h.stop
  rw [List.length_append, List.length_singleton] at hl
  omega

theorem Opener.Fits.close_lt_stop (h : o.Fits hidden names text k) : o.close.pos < o.stop := by
  rw [stop]
  split
  · next c hc =>
    obtain ⟨-, -, hp, hr⟩ := h.encloses c hc
    exact Nat.lt_trans hp hr.start_lt_stop
  · exact Nat.lt_succ_self _

theorem Opener.Fits.stop_le (h : o.Fits hidden names text k) : o.stop ≤ text.length := by
  rw [stop]
  split
  · next c hc => exact (h.encloses c hc).2.2.2.stop_le
  · exact h.reads.close_lt

theorem Opener.Fits.trail_eq (h : o.Fits hidden names text k) :
    o.trail = decide (text[o.stop]? = some ']') := by
  rw [trail, stop]
  cases hc : o.closer with
  | some c => exact (h.encloses c hc).2.2.2.doubled
  | none => exact h.reads.doubled

/-- The tag ends with a `]`. -/
theorem Opener.Fits.getElem?_stop (h : o.Fits hidden names text k) :
    text[o.stop - 1]? = some ']' := by
  rw [stop]
  split
  · next c hc =>
    have hr := (h.encloses c hc).2.2.2
    have hp := closes_iff.1 (get_of_findFinIdx? hr.name)
    have he : c.stop - 1 = c.start + 2 + (names.get k).length := by
      rw [hr.stop]
      omega
    rw [he, Text.getElem?_of_isPrefix_drop hp (by simp), List.getElem?_concat_length]
  · exact h.reads.getElem?_close

/-- The tag stands between the start of its opener and its end. -/
theorem Opener.Fits.slice_tag (h : o.Fits hidden names text k) :
    Text.slice text o.start o.stop =
      '[' :: (names.get k ++ Text.slice text o.nameEnd o.attrEnd ++
        (if o.selfClosing then ['/', ']'] else [']']) ++
        match o.closer with
        | some c => Text.slice text (o.close.pos + 1) c.start ++ '[' :: '/' :: (names.get k ++ [']'])
        | none => []) := by
  have hn := o.start_lt_nameEnd
  have ha := o.nameEnd_le_attrEnd
  have he : o.attrEnd ≤ o.close.pos + 1 := by
    rw [attrEnd]
    split <;> omega
  have open_eq : Text.slice text o.start (o.close.pos + 1) =
      '[' :: (names.get k ++ Text.slice text o.nameEnd o.attrEnd ++
        (if o.selfClosing then ['/', ']'] else [']'])) := by
    rw [← Text.slice_append_slice text (Nat.le_succ _) (show o.start + 1 ≤ _ by omega),
      Text.slice_singleton h.reads.getElem?_start,
      ← Text.slice_append_slice text (show o.start + 1 ≤ o.nameEnd from hn) (Nat.le_trans ha he),
      h.reads.slice_name, ← Text.slice_append_slice text ha he, h.reads.slice_end,
      List.append_assoc]
    rfl
  rw [stop]
  cases hc : o.closer with
  | none => rw [open_eq, List.append_nil]
  | some c =>
    obtain ⟨-, -, hp, hr⟩ := h.encloses c hc
    have hs := hr.start_lt_stop
    dsimp only
    rw [← Text.slice_append_slice text (show o.start ≤ o.close.pos + 1 by omega)
      (show o.close.pos + 1 ≤ c.stop by omega), open_eq,
      ← Text.slice_append_slice text (show o.close.pos + 1 ≤ c.start from hp) (by omega),
      hr.slice_tag, List.cons_append]

theorem Opener.tagStop_toMatch (o : Opener) (cursor : Nat) (rest : List Char) :
    (o.toMatch cursor rest).tagStop = o.stop := Nat.add_sub_cancel _ _

theorem Opener.inner_toMatch (o : Opener) {cursor : Nat} (hc : cursor ≤ o.start) :
    (o.toMatch cursor (text.drop cursor)).inner =
      o.closer.map fun c => String.ofList (Text.slice text (o.close.pos + 1) c.start) := by
  rw [o.toMatch_drop hc]

theorem Opener.lead_iff (h : o.Reads hidden names text k) {cursor : Nat} :
    (cursor < o.start && o.afterBracket) = true ↔
      cursor < o.start ∧ text[o.start - 1]? = some '[' := by
  rw [h.afterBracket, Bool.and_eq_true_iff, decide_eq_true_iff, follows_iff]
  constructor
  · rintro ⟨hc, -, hb⟩
    exact ⟨hc, hb⟩
  · rintro ⟨hc, hb⟩
    exact ⟨hc, Nat.zero_lt_of_lt hc, hb⟩

section

variable (h : o.Fits hidden names text k) {cursor : Nat} (hc : cursor ≤ o.start)

include h hc

theorem Opener.Fits.name_toMatch :
    (o.toMatch cursor (text.drop cursor)).name = String.ofList (names.get k) := by
  rw [o.toMatch_drop hc, h.reads.slice_name]

theorem Opener.Fits.start_toMatch :
    cursor ≤ (o.toMatch cursor (text.drop cursor)).start ∧
      (o.toMatch cursor (text.drop cursor)).tagStart = o.start := by
  rw [o.toMatch_drop hc]
  dsimp only [Match.tagStart]
  cases hl : decide (cursor < o.start) && o.afterBracket with
  | false => exact ⟨hc, rfl⟩
  | true =>
    have := ((Opener.lead_iff h.reads).1 hl).1
    simp only [Bool.toNat_true]
    omega

theorem Opener.Fits.nameStop_toMatch :
    (o.toMatch cursor (text.drop cursor)).nameStop = o.nameEnd := by
  rw [Match.nameStop, (h.start_toMatch hc).2, h.name_toMatch hc, String.length_ofList,
    h.reads.nameEnd]

theorem Opener.Fits.attrStop_toMatch :
    (o.toMatch cursor (text.drop cursor)).attrStop = o.attrEnd := by
  have hl : o.attrEnd ≤ text.length := by
    have := h.reads.close_lt
    rw [Opener.attrEnd]
    split <;> omega
  have hn := o.nameEnd_le_attrEnd
  rw [Match.attrStop, h.nameStop_toMatch hc, o.toMatch_drop hc, String.length_ofList,
    Text.length_slice hl]
  omega

theorem Opener.Fits.openStop_toMatch :
    (o.toMatch cursor (text.drop cursor)).openStop = o.close.pos + 1 := by
  have hs : (o.toMatch cursor (text.drop cursor)).selfClosing = o.selfClosing := rfl
  rw [Match.openStop, h.attrStop_toMatch hc, hs, Opener.attrEnd]
  split
  · next hself =>
    have := of_decide_eq_true (Bool.and_eq_true_iff.1 hself).1
    omega
  · rfl

theorem Opener.Fits.innerStop_toMatch :
    (o.toMatch cursor (text.drop cursor)).innerStop =
      (o.closer.map (·.start)).getD (o.close.pos + 1) := by
  rw [Match.innerStop, h.openStop_toMatch hc, o.inner_toMatch hc]
  cases hcl : o.closer with
  | none => rfl
  | some c =>
    obtain ⟨-, -, hp, hr⟩ := h.encloses c hcl
    have hle := Nat.le_trans (Nat.le_of_lt hr.start_lt_stop) hr.stop_le
    simp only [Option.map_some, Option.getD_some, String.length_ofList, Text.length_slice hle]
    omega

theorem Opener.Fits.stop_toMatch :
    o.start < (o.toMatch cursor (text.drop cursor)).stop ∧
      (o.toMatch cursor (text.drop cursor)).stop ≤ text.length := by
  have hs := h.close_lt_stop
  have hn := o.start_lt_nameEnd
  have hp := o.nameEnd_le_close
  have hl := h.stop_le
  have ht := h.trail_eq
  rw [o.toMatch_drop hc]
  dsimp only
  cases hb : o.trail with
  | false =>
    rw [Bool.toNat_false]
    omega
  | true =>
    rw [hb] at ht
    have := (List.getElem?_eq_some_iff.1 (of_decide_eq_true ht.symm)).1
    rw [Bool.toNat_true]
    omega

theorem Opener.Fits.getElem?_stop_toMatch :
    text[(o.toMatch cursor (text.drop cursor)).stop - 1]? = some ']' := by
  rw [o.toMatch_drop hc]
  dsimp only
  cases hb : o.trail with
  | false => exact h.getElem?_stop
  | true => exact of_decide_eq_true (h.trail_eq ▸ hb)

/-- Unparsed, the match is the piece of the text that it spans. -/
theorem Opener.Fits.slice_toMatch :
    Text.slice text (o.toMatch cursor (text.drop cursor)).start
        (o.toMatch cursor (text.drop cursor)).stop =
      (o.toMatch cursor (text.drop cursor)).text.toList := by
  have hs : o.start ≤ o.stop := by
    have := h.close_lt_stop
    have := o.start_lt_nameEnd
    have := o.nameEnd_le_close
    omega
  have lead : Text.slice text (o.start - (cursor < o.start && o.afterBracket).toNat) o.start =
      if (cursor < o.start && o.afterBracket) = true then ['['] else [] := by
    split
    · next hl =>
      obtain ⟨hlt, hb⟩ := (Opener.lead_iff h.reads).1 hl
      have := Text.slice_singleton hb
      rwa [Nat.sub_add_cancel (Nat.zero_lt_of_lt hlt), ← Bool.toNat_true, ← hl] at this
    · next hl =>
      rw [Bool.eq_false_iff.2 hl]
      exact Text.slice_self text o.start
  have trail : Text.slice text o.stop (o.stop + o.trail.toNat) =
      if o.trail = true then [']'] else [] := by
    split
    · next ht =>
      rw [ht]
      exact Text.slice_singleton (of_decide_eq_true (h.trail_eq ▸ ht))
    · next ht =>
      rw [Bool.eq_false_iff.2 ht]
      exact Text.slice_self text o.stop
  have tag := h.slice_tag
  rw [o.toMatch_drop hc]
  dsimp only [Match.text, Match.tagText]
  rw [← Text.slice_append_slice text (Nat.sub_le _ _) (Nat.le_add_right_of_le hs),
    ← Text.slice_append_slice text hs (Nat.le_add_right _ _), lead, trail, tag,
    h.reads.slice_name]
  cases o.closer <;> simp [apply_ite String.toList]

end

theorem Opener.Fits.inRange (h : o.Fits hidden names text k) : o.InRange text.length where
  name := ⟨o.start_lt_nameEnd, o.nameEnd_le_attrEnd⟩
  close := by
    refine ⟨?_, h.reads.close_lt⟩
    rw [Opener.attrEnd]
    split <;> omega
  lead ha := (follows_iff.1 (h.reads.afterBracket ▸ ha)).1
  closer c hc := by
    obtain ⟨-, -, hp, hr⟩ := h.encloses c hc
    exact ⟨hp, hr.start_lt_stop, hr.stop_le⟩

theorem Opener.Fits.cuts_toMatch (h : o.Fits hidden names text k) {cursor : Nat}
    (hc : cursor ≤ o.start) :
    (o.toMatch cursor (text.drop cursor)).cuts.Pairwise (· ≤ ·) ∧
      ∀ p ∈ (o.toMatch cursor (text.drop cursor)).cuts, p ≤ text.length := by
  have hr := h.inRange
  have hn := hr.name
  have hp := hr.close
  have hs := h.close_lt_stop
  have hstart : (o.toMatch cursor (text.drop cursor)).start ≤ o.start := Nat.sub_le _ _
  have hstop : o.stop ≤ (o.toMatch cursor (text.drop cursor)).stop := Nat.le_add_right _ _
  have hl := (h.stop_toMatch hc).2
  have hi : o.close.pos + 1 ≤ (o.closer.map (·.start)).getD (o.close.pos + 1) ∧
      (o.closer.map (·.start)).getD (o.close.pos + 1) ≤ o.stop := by
    rw [Opener.stop]
    cases hcl : o.closer with
    | none => exact ⟨Nat.le_refl _, Nat.le_refl _⟩
    | some c =>
      have := hr.closer c hcl
      exact ⟨this.1, Nat.le_of_lt this.2.1⟩
  rw [Match.cuts, (h.start_toMatch hc).2, h.nameStop_toMatch hc, h.attrStop_toMatch hc,
    h.openStop_toMatch hc, h.innerStop_toMatch hc, o.tagStop_toMatch]
  simp only [List.pairwise_cons, List.mem_cons, List.not_mem_nil, forall_eq_or_imp, or_false,
    forall_eq, false_implies, implies_true, List.Pairwise.nil, and_true]
  omega

theorem matchesFrom_cons_of_lt {cursor : Nat} (rest : List Char) (openers : List Opener)
    (h : o.start < cursor) :
    matchesFrom cursor rest (o :: openers) = matchesFrom cursor rest openers := by
  rw [matchesFrom, if_pos h]

theorem Opener.Fits.matchesFrom_cons (h : o.Fits hidden names text k) {cursor : Nat}
    (hc : cursor ≤ o.start) (openers : List Opener) :
    matchesFrom cursor (text.drop cursor) (o :: openers) =
      o.toMatch cursor (text.drop cursor) ::
        matchesFrom (o.toMatch cursor (text.drop cursor)).stop
          (text.drop (o.toMatch cursor (text.drop cursor)).stop) openers := by
  have hs := (h.stop_toMatch hc).1
  rw [matchesFrom, if_neg (Nat.not_lt_of_le hc)]
  dsimp only
  rw [List.drop_drop, Nat.add_sub_cancel' (by omega)]

/-- Each match is that of one of the openers, with the cursor somewhere in front of it. -/
theorem exists_opener_of_mem {openers : List Opener}
    (hf : ∀ o ∈ openers, ∃ k, o.Fits hidden names text k) (cursor : Nat) {m : Match}
    (hm : m ∈ matchesFrom cursor (text.drop cursor) openers) :
    ∃ o ∈ openers, ∃ i, cursor ≤ i ∧ i ≤ o.start ∧ m = o.toMatch i (text.drop i) := by
  induction openers generalizing cursor with
  | nil => cases hm
  | cons o openers ih =>
    obtain ⟨⟨k, hk⟩, hf⟩ := List.forall_mem_cons.1 hf
    by_cases hc : o.start < cursor
    · rw [matchesFrom_cons_of_lt _ _ hc] at hm
      obtain ⟨o', ho, hi⟩ := ih hf _ hm
      exact ⟨o', List.mem_cons_of_mem o ho, hi⟩
    · have hc := Nat.le_of_not_lt hc
      rw [hk.matchesFrom_cons hc] at hm
      rcases List.mem_cons.1 hm with rfl | hm
      · exact ⟨o, List.mem_cons_self, cursor, Nat.le_refl _, hc, rfl⟩
      · obtain ⟨o', ho, i, hi, hm⟩ := ih hf _ hm
        have := (hk.stop_toMatch hc).1
        exact ⟨o', List.mem_cons_of_mem o ho, i, by omega, hm⟩

theorem pairwise_matchesFrom {openers : List Opener}
    (hf : ∀ o ∈ openers, ∃ k, o.Fits hidden names text k) (cursor : Nat) :
    (matchesFrom cursor (text.drop cursor) openers).Pairwise fun a b => a.stop ≤ b.start := by
  induction openers generalizing cursor with
  | nil => exact .nil
  | cons o openers ih =>
    obtain ⟨⟨k, hk⟩, hf⟩ := List.forall_mem_cons.1 hf
    by_cases hc : o.start < cursor
    · rw [matchesFrom_cons_of_lt _ _ hc]
      exact ih hf cursor
    · rw [hk.matchesFrom_cons (Nat.le_of_not_lt hc)]
      apply List.pairwise_cons.2
      refine ⟨?_, ih hf _⟩
      intro m hm
      obtain ⟨o', ho, i, hi, hio, rfl⟩ := exists_opener_of_mem hf _ hm
      obtain ⟨k', hk'⟩ := hf o' ho
      exact Nat.le_trans hi (hk'.start_toMatch hio).1

end

end Tag

namespace Scanner

theorem pairwise_found (s : Scanner) (content : String) :
    (s.scan content).found.Pairwise fun a b => a.stop ≤ b.start := by
  rw [scan_found]
  exact Tag.pairwise_matchesFrom (fun o => fits_of_mem) 0

/-- Each match is that of an opener that was recorded. -/
theorem exists_opener_of_mem {s : Scanner} {content : String} {m : Match}
    (hm : m ∈ (s.scan content).found) :
    ∃ k o i, o ∈ (s.pairing content).openers.toList ∧
      o.Fits (s.hidden content.toList) (s.names.map String.toList) content.toList k ∧
      i ≤ o.start ∧ m = o.toMatch i (content.toList.drop i) := by
  rw [scan_found] at hm
  obtain ⟨o, ho, i, -, hi, hm⟩ :=
    Tag.exists_opener_of_mem (fun o => fits_of_mem) 0 hm
  obtain ⟨k, h⟩ := fits_of_mem ho
  exact ⟨k, o, i, ho, h, hi, hm⟩

end Scanner

end Shortcode
