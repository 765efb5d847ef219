import Shortcode.Proofs.Html.Grammar
import Shortcode.Proofs.Text.Ascii

namespace Shortcode

namespace Text

/-- The first offset from `start` on at which the bytes of a piece stand. -/
def byteIndex? (piece bytes : List UInt8) (start : Nat) : Option Nat :=
  (List.range bytes.length).find? fun q => start ≤ q && piece.isPrefixOf (bytes.drop q)

theorem byteIndex?_bounds {piece bytes : List UInt8} {start k : Nat}
    (h : byteIndex? piece bytes start = some k) : start ≤ k ∧ k < bytes.length := by
  have found := List.find?_some h
  have hk := List.mem_of_find?_eq_some h
  simp only [Bool.and_eq_true, decide_eq_true_eq] at found
  exact ⟨found.1, List.mem_range.1 hk⟩

end Text

namespace Html

open Text (StandsAt FirstAt utf8 byteIndex? Offsets)

/-- What the walk finds at a `<`, by the bytes from there on. -/
def byteStepAt (bytes : List UInt8) (start : Nat) : Step :=
  if (utf8 commentStart).isPrefixOf (bytes.drop start) then
    match byteIndex? (utf8 commentEnd) bytes (start + 4) with
    | some k => .span (k + 3 - (start + 1))
    | none => .span (bytes.length - (start + 1))
  else if bytes[start + 1]?.any fun b => startsTag (Char.ofNat b.toNat) then
    match byteIndex? (utf8 ['>']) bytes start with
    | some k => .span (k + 1 - (start + 1))
    | none => .unclosed
  else .plain

/-- The spans from an offset on. There is no result if the text would have to be cut inside a
character on the way. -/
def byteWalk? (content : String) (pos : Nat) : Option (List Span) :=
  if (⟨pos⟩ : String.Pos.Raw).IsValid content then
    match _ : byteIndex? (utf8 ['<']) content.toUTF8.data.toList pos with
    | none => some []
    | some start =>
      if (⟨start⟩ : String.Pos.Raw).IsValid content then
        match byteStepAt content.toUTF8.data.toList start with
        | .plain => byteWalk? content (start + 1)
        | .span more =>
          (byteWalk? content (start + (more + 1))).map (⟨start, start + (more + 1)⟩ :: ·)
        | .unclosed => some []
      else none
  else none
termination_by content.toUTF8.data.toList.length - pos
decreasing_by all_goals
  have := Text.byteIndex?_bounds ‹_›
  omega

def Span.inBytes (content : String) (s : Span) : Span :=
  ⟨(Offsets.ofText content).get s.start, (Offsets.ofText content).get s.stop⟩

/-- Spans of a text in UTF-8 offsets, side by side, of which none cuts a character in two. -/
structure Placed (content : String) (spans : List Span) : Prop extends Ordered spans where
  stop_le : ∀ s ∈ spans, s.stop ≤ content.utf8ByteSize
  isValid_start : ∀ s ∈ spans, (⟨s.start⟩ : String.Pos.Raw).IsValid content
  isValid_stop : ∀ s ∈ spans, (⟨s.stop⟩ : String.Pos.Raw).IsValid content

section

variable {content : String} {piece : List Char} {p q k : Nat}

theorem data_toUTF8 (content : String) : content.toUTF8.data.toList = utf8 content.toList :=
  Text.toUTF8_eq_flatMap content

theorem isPrefix_drop_get_iff :
    utf8 piece <+: (utf8 content.toList).drop ((Offsets.ofText content).get p) ↔
      StandsAt piece content.toList p := by
  rw [Offsets.get_ofText, Text.drop_utf8, Text.isPrefix_utf8_iff]
  rfl

/-- A piece stands at no offset inside a character. -/
theorem exists_position_of_isPrefix (h : Text.IsAscii piece) (hne : piece ≠ [])
    (hq : utf8 piece <+: (utf8 content.toList).drop q) :
    ∃ p < content.length, (Offsets.ofText content).get p = q ∧
      StandsAt piece content.toList p := by
  obtain ⟨d, piece, rfl⟩ := List.exists_cons_of_ne_nil hne
  have hd := h d List.mem_cons_self
  have first : (utf8 content.toList)[q]? = some (UInt8.ofNat d.val.toNat) := by
    obtain ⟨rest, hrest⟩ := hq
    rw [Text.utf8_cons, Text.utf8EncodeChar_of_lt hd] at hrest
    rw [← Nat.add_zero q, ← List.getElem?_drop, ← hrest]
    rfl
  obtain ⟨p, hp, rfl⟩ := Text.exists_position_of_byte hd first
  rw [← Offsets.get_ofText, isPrefix_drop_get_iff] at hq
  have hlt := (List.getElem?_eq_some_iff.1 hp).1
  rw [String.length_toList] at hlt
  exact ⟨p, hlt, Offsets.get_ofText content p, hq⟩

/-- Such a piece has as many bytes as characters. -/
theorem get_add_of_standsAt {n : Nat} (h : Text.IsAscii piece)
    (hs : StandsAt piece content.toList p) (hn : piece.length = n) :
    (Offsets.ofText content).get (p + n) = (Offsets.ofText content).get p + n := by
  rw [← hn, ← Offsets.get_add_slice content (Nat.le_add_right p piece.length),
    Text.slice_of_isPrefix hs rfl, Text.byteLength_of_isAscii h]

theorem byteIndex?_of_firstAt (h : Text.IsAscii piece) (hne : piece ≠ [])
    (hp : p ≤ content.length) (hk : FirstAt piece content.toList p k) :
    byteIndex? (utf8 piece) (utf8 content.toList) ((Offsets.ofText content).get p) =
      some ((Offsets.ofText content).get k) := by
  have hlt : k < content.length := by
    have hle := hk.stands.add_length_le hne
    have hpos := List.length_pos_iff.2 hne
    rw [String.length_toList] at hle
    omega
  rw [byteIndex?, List.find?_range_eq_some]
  refine ⟨?_, ?_, ?_⟩
  · rw [Bool.and_eq_true, decide_eq_true_iff, List.isPrefixOf_iff_prefix, isPrefix_drop_get_iff]
    exact ⟨Offsets.get_mono content hk.le, hk.stands⟩
  · rw [List.mem_range, Text.length_utf8, Text.byteLength_toList, ← Offsets.get_length]
    exact (Offsets.get_lt_get_iff (Nat.le_refl _)).2 hlt
  · intro q hq
    rw [Bool.not_eq_true', Bool.and_eq_false_imp, decide_eq_true_iff]
    intro hpq
    rw [← Bool.not_eq_true, List.isPrefixOf_iff_prefix]
    intro hs
    obtain ⟨r, -, rfl, stands⟩ := exists_position_of_isPrefix h hne hs
    rw [Offsets.get_le_get_iff hp] at hpq
    rw [Offsets.get_lt_get_iff (Nat.le_of_lt hlt)] at hq
    exact absurd (hk.first r hpq stands) (Nat.not_le_of_lt hq)

theorem byteIndex?_eq_none (h : Text.IsAscii piece) (hne : piece ≠ []) (hp : p ≤ content.length)
    (hno : ∀ k, p ≤ k → ¬ StandsAt piece content.toList k) :
    byteIndex? (utf8 piece) (utf8 content.toList) ((Offsets.ofText content).get p) = none := by
  rw [byteIndex?, List.find?_eq_none]
  intro q _ hq
  rw [Bool.and_eq_true, decide_eq_true_iff, List.isPrefixOf_iff_prefix] at hq
  obtain ⟨r, -, rfl, stands⟩ := exists_position_of_isPrefix h hne hq.2
  exact hno r ((Offsets.get_le_get_iff hp).1 hq.1) stands

theorem lt_of_isAlpha {c : Char} (h : c.isAlpha = true) : c.val.toNat < 128 := by
  rcases Bool.or_eq_true_iff.1 h with upper | lower
  · have hZ : 'A'.val ≤ c.val ∧ c.val ≤ 'Z'.val := of_decide_eq_true upper
    exact Nat.lt_of_le_of_lt (UInt32.le_iff_toNat_le.1 hZ.2) (by decide)
  · have hz : c.val ≤ 'z'.val := of_decide_eq_true (Bool.and_eq_true_iff.1 lower).2
    exact Nat.lt_of_le_of_lt (UInt32.le_iff_toNat_le.1 hz) (by decide)

theorem lt_of_startsTag {c : Char} (h : startsTag c = true) : c.val.toNat < 128 := by
  simp only [startsTag, Bool.or_eq_true, decide_eq_true_eq] at h
  rcases h with ((alpha | rfl) | rfl) | rfl
  · exact lt_of_isAlpha alpha
  · decide
  · decide
  · decide

theorem any_startsTag_get (h : content.toList[p]? = some '<') :
    ((utf8 content.toList)[(Offsets.ofText content).get p + 1]?.any fun b =>
      startsTag (Char.ofNat b.toNat)) = content.toList[p + 1]?.any startsTag := by
  rw [← Offsets.get_succ (by decide) h, ← List.head?_drop, ← List.head?_drop, Offsets.get_ofText,
    Text.drop_utf8, Text.any_head?_utf8 fun _ => lt_of_startsTag]

/-- A step of the walk over the characters, with the bytes that it takes in. -/
def Step.inBytes (content : String) (p : Nat) : Step → Step
  | .plain => .plain
  | .span more => .span ((Offsets.ofText content).get (p + (more + 1)) -
      ((Offsets.ofText content).get p + 1))
  | .unclosed => .unclosed

theorem byteStepAt_of_comment {s : Span} (h : IsComment content.toList s) :
    byteStepAt (utf8 content.toList) ((Offsets.ofText content).get s.start) =
      .span ((Offsets.ofText content).get s.stop - ((Offsets.ofText content).get s.start + 1)) := by
  have opens := isPrefix_drop_get_iff.2 h.opens
  have hle := commentStart_le h.opens
  rw [String.length_toList] at hle
  have hbody : (Offsets.ofText content).get (s.start + 4) =
      (Offsets.ofText content).get s.start + 4 := get_add_of_standsAt (by decide) h.opens rfl
  rw [byteStepAt, if_pos (List.isPrefixOf_iff_prefix.2 opens), ← hbody]
  obtain ⟨k, hk, hstop⟩ | ⟨none, hstop⟩ := h.closes
  · have hend : (Offsets.ofText content).get (k + 3) = (Offsets.ofText content).get k + 3 :=
      get_add_of_standsAt (by decide) hk.stands rfl
    rw [byteIndex?_of_firstAt (by decide) (by decide) hle hk, hstop, hend]
  · rw [byteIndex?_eq_none (by decide) (by decide) hle none, hstop, String.length_toList,
      Offsets.get_length, Text.length_utf8, Text.byteLength_toList]

theorem byteStepAt_of_opensTag (h : OpensTag content.toList p) :
    byteStepAt (utf8 content.toList) ((Offsets.ofText content).get p) =
      match byteIndex? (utf8 ['>']) (utf8 content.toList) ((Offsets.ofText content).get p) with
      | some k => .span (k + 1 - ((Offsets.ofText content).get p + 1))
      | none => .unclosed := by
  rw [byteStepAt, if_neg, if_pos]
  · rw [any_startsTag_get h.bracket, Option.any_eq_true]
    exact h.next
  · rw [List.isPrefixOf_iff_prefix, isPrefix_drop_get_iff]
    exact h.no_comment

theorem OpensTag.not_close (h : OpensTag content.toList p) : ¬ StandsAt ['>'] content.toList p := by
  rw [Text.standsAt_singleton, h.bracket]
  decide

theorem byteStepAt_of_tag {s : Span} (h : IsTag content.toList s) :
    byteStepAt (utf8 content.toList) ((Offsets.ofText content).get s.start) =
      .span ((Offsets.ofText content).get s.stop - ((Offsets.ofText content).get s.start + 1)) := by
  obtain ⟨k, hk, hstop⟩ := h.closes
  have first : FirstAt ['>'] content.toList s.start k := by
    refine ⟨Nat.le_of_succ_le hk.le, hk.stands, ?_⟩
    intro q hq hs
    apply hk.first q _ hs
    apply Nat.lt_of_le_of_ne hq
    rintro rfl
    exact h.opens.not_close hs
  have hle := (List.getElem?_eq_some_iff.1 h.opens.bracket).1
  rw [String.length_toList] at hle
  rw [byteStepAt_of_opensTag h.opens,
    byteIndex?_of_firstAt (by decide) (by decide) (Nat.le_of_lt hle) first, hstop, Offsets.get_succ (by decide) (Text.standsAt_singleton.1 hk.stands)]

theorem byteStepAt_of_unclosed (h : Unclosed content.toList p) :
    byteStepAt (utf8 content.toList) ((Offsets.ofText content).get p) = .unclosed := by
  have hle := h.lt_length
  rw [String.length_toList] at hle
  rw [byteStepAt_of_opensTag h.opens, byteIndex?_eq_none (by decide) (by decide) (Nat.le_of_lt hle)]
  intro k hk hs
  rcases Nat.lt_or_eq_of_le hk with hlt | rfl
  · exact h.no_close k hlt hs
  · exact h.opens.not_close hs

theorem byteStepAt_of_plain (hb : content.toList[p]? = some '<')
    (hc : ¬ StandsAt commentStart content.toList p) (ho : ¬ OpensTag content.toList p) :
    byteStepAt (utf8 content.toList) ((Offsets.ofText content).get p) = .plain := by
  rw [byteStepAt, if_neg, if_neg]
  · rw [any_startsTag_get hb, Option.any_eq_true]
    exact fun h => ho ⟨hb, hc, h⟩
  · rw [List.isPrefixOf_iff_prefix, isPrefix_drop_get_iff]
    exact hc

theorem byteStepAt_get {step : Step} (hb : content.toList[p]? = some '<')
    (h : step.Fits content.toList p) :
    byteStepAt (utf8 content.toList) ((Offsets.ofText content).get p) = step.inBytes content p := by
  cases step with
  | plain => exact byteStepAt_of_plain hb h.1 h.2
  | span more => exact h.elim byteStepAt_of_comment byteStepAt_of_tag
  | unclosed => exact byteStepAt_of_unclosed h

theorem byteWalk?_of_none {pos : Nat} (hpos : (⟨pos⟩ : String.Pos.Raw).IsValid content)
    (h : byteIndex? (utf8 ['<']) (utf8 content.toList) pos = none) :
    byteWalk? content pos = some [] := by
  rw [byteWalk?, if_pos hpos, data_toUTF8]
  split
  · rfl
  · next hsome => cases h.symm.trans hsome

theorem byteWalk?_of_some {pos start : Nat} (hpos : (⟨pos⟩ : String.Pos.Raw).IsValid content)
    (hstart : (⟨start⟩ : String.Pos.Raw).IsValid content)
    (h : byteIndex? (utf8 ['<']) (utf8 content.toList) pos = some start) :
    byteWalk? content pos =
      match byteStepAt (utf8 content.toList) start with
      | .plain => byteWalk? content (start + 1)
      | .span more =>
        (byteWalk? content (start + (more + 1))).map (⟨start, start + (more + 1)⟩ :: ·)
      | .unclosed => some [] := by
  rw [byteWalk?, if_pos hpos, data_toUTF8]
  split
  · next hnone => cases h.symm.trans hnone
  · next hsome =>
    cases h.symm.trans hsome
    rw [if_pos hstart]

theorem byteWalk?_get_of_notMem (hp : p ≤ content.length) (h : '<' ∉ content.toList.drop p) :
    byteWalk? content ((Offsets.ofText content).get p) = some [] := by
  apply byteWalk?_of_none (Offsets.isValid_get content p)
  apply byteIndex?_eq_none (by decide) (by decide) hp
  intro k hk hs
  obtain ⟨d, rfl⟩ := Nat.exists_eq_add_of_le hk
  rw [Text.standsAt_singleton, ← List.getElem?_drop] at hs
  exact h (List.mem_of_getElem? hs)

/-- The walk over the bytes goes on at a character again, whatever it finds at a `<`. -/
theorem byteWalk?_get_of_first {step : Step} (hp : p ≤ content.length)
    (first : FirstAt ['<'] content.toList p q) (fits : step.Fits content.toList q) :
    byteWalk? content ((Offsets.ofText content).get p) =
      match step with
      | .plain => byteWalk? content ((Offsets.ofText content).get (q + 1))
      | .span more => (byteWalk? content ((Offsets.ofText content).get (q + (more + 1)))).map
          (Span.inBytes content ⟨q, q + (more + 1)⟩ :: ·)
      | .unclosed => some [] := by
  have valid := Offsets.isValid_get content
  have bracket := Text.standsAt_singleton.1 first.stands
  rw [byteWalk?_of_some (valid p) (valid q)
    (byteIndex?_of_firstAt (by decide) (by decide) hp first), byteStepAt_get bracket fits]
  cases step with
  | plain =>
    dsimp only [Step.inBytes]
    rw [Offsets.get_succ (by decide) bracket]
  | span more =>
    have bounds := fits.bounds
    dsimp only at bounds
    rw [String.length_toList] at bounds
    have stop : (Offsets.ofText content).get q +
        ((Offsets.ofText content).get (q + (more + 1)) -
          ((Offsets.ofText content).get q + 1) + 1) =
        (Offsets.ofText content).get (q + (more + 1)) := by
      have := Offsets.get_lt content bounds.1 bounds.2
      omega
    dsimp only [Step.inBytes]
    rw [stop]
    rfl
  | unclosed => rfl

theorem spansFrom_append_plain {front : List Char} (h : '<' ∉ front) (i : Nat) (back : List Char) :
    spansFrom i 0 (front ++ back) = spansFrom (i + front.length) 0 back := by
  induction front generalizing i with
  | nil => rfl
  | cons c front ih =>
    obtain ⟨hc, hf⟩ := not_or.1 (mt List.mem_cons.2 h)
    rw [List.cons_append, spansFrom, if_neg (Ne.symm hc), ih hf, List.length_cons,
      Nat.add_right_comm, Nat.add_assoc]

/-- The walk over the characters passes over all that stands in front of the first `<`. -/
theorem spansFrom_of_idxOf? {text : List Char} {d : Nat} (h : text.idxOf? '<' = some d) (i : Nat) :
    spansFrom i 0 text = spansFrom (i + d) 0 (text.drop d) := by
  obtain ⟨hd, -, hfirst⟩ := List.idxOf?_eq_some_iff.1 h
  have front : '<' ∉ text.take d := by
    intro hm
    obtain ⟨j, hj, he⟩ := List.mem_take_iff_getElem.1 hm
    exact hfirst j (Nat.lt_of_lt_of_le hj (Nat.min_le_left ..)) he
  conv => lhs; rw [← List.take_append_drop d text]
  rw [spansFrom_append_plain front, List.length_take_of_le (Nat.le_of_lt hd)]

/-- From each character on, the walk over the bytes finds what the walk over the characters finds. -/
theorem byteWalk?_get (hp : p ≤ content.length) :
    byteWalk? content ((Offsets.ofText content).get p) =
      some ((spansFrom p 0 (content.toList.drop p)).map (Span.inBytes content)) := by
  induction hn : content.length - p using Nat.strongRecOn generalizing p with
  | ind n ih =>
    cases hd : (content.toList.drop p).idxOf? '<' with
    | none =>
      have hno := List.idxOf?_eq_none_iff.1 hd
      rw [spansFrom_eq_nil hno, byteWalk?_get_of_notMem hp hno]
      rfl
    | some d =>
      have first := (Text.firstAt_of_idxOf? hd).of_drop
      obtain ⟨hlt, bracket⟩ := List.getElem?_eq_some_iff.1 (Text.standsAt_singleton.1 first.stands)
      have drop : content.toList.drop (p + d) = '<' :: content.toList.drop (p + d + 1) := by
        rw [List.drop_eq_getElem_cons hlt, bracket]
      rw [String.length_toList] at hlt
      have fits := stepAt_fits drop
      rw [byteWalk?_get_of_first hp first fits, spansFrom_of_idxOf? hd, List.drop_drop, drop,
        spansFrom_cons]
      generalize stepAt '<' (content.toList.drop (p + d + 1)) = step at fits
      cases step with
      | plain => exact ih _ (by omega) (Nat.succ_le_of_lt hlt) rfl
      | span more =>
        have bounds := fits.bounds
        dsimp only at bounds
        rw [String.length_toList] at bounds
        have behind : p + d + 1 + more = p + d + (more + 1) := by omega
        dsimp only
        rw [ih _ (by omega) bounds.2 rfl, spansFrom_skip (p + d + 1) more, List.drop_drop, behind]
        rfl
      | unclosed => rfl

theorem byteWalk?_eq (content : String) :
    byteWalk? content 0 = some ((protectedSpans content.toList).map (Span.inBytes content)) := by
  have whole := byteWalk?_get (Nat.zero_le content.length)
  rwa [Offsets.get_ofText] at whole

theorem stop_le_length {s : Span} (hs : s ∈ protectedSpans content.toList) :
    s.stop ≤ content.length := by
  have h := stop_le s hs
  rwa [Nat.zero_add, String.length_toList] at h

theorem placed_inBytes (content : String) :
    Placed content ((protectedSpans content.toList).map (Span.inBytes content)) where
  nonempty := by
    rw [List.forall_mem_map]
    intro s hs
    exact Offsets.get_lt content ((protectedSpans_ordered _).nonempty s hs) (stop_le_length hs)
  disjoint := (protectedSpans_ordered content.toList).disjoint.map _
    fun _ _ h => Offsets.get_mono content h
  stop_le := by
    rw [List.forall_mem_map]
    intro s _
    exact Offsets.get_le content s.stop
  isValid_start := by
    rw [List.forall_mem_map]
    intro s _
    exact Offsets.isValid_get content s.start
  isValid_stop := by
    rw [List.forall_mem_map]
    intro s _
    exact Offsets.isValid_get content s.stop

theorem Span.contains_inBytes {s : Span} (hstart : s.start ≤ content.length)
    (hstop : s.stop ≤ content.length) :
    (s.inBytes content).contains ((Offsets.ofText content).get p) = s.contains p := by
  simp only [Span.contains, Span.inBytes, Offsets.get_le_get_iff hstart,
    Offsets.get_lt_get_iff hstop]

/-- A character is protected if the offset at which it begins is. -/
theorem covers_inBytes (content : String) (p : Nat) :
    covers ((protectedSpans content.toList).map (Span.inBytes content))
      ((Offsets.ofText content).get p) = isProtected content.toList p := by
  rw [isProtected, covers, covers, List.any_map, Bool.eq_iff_iff, List.any_eq_true,
    List.any_eq_true]
  apply exists_congr
  intro s
  apply and_congr_right
  intro hs
  have hlt := (protectedSpans_ordered _).nonempty s hs
  have hstop := stop_le_length hs
  rw [Function.comp, Span.contains_inBytes (by omega) hstop]

end

end Html

end Shortcode
