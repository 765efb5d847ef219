import Mathlib.Algebra.GroupWithZero.Nat
import Mathlib.Data.List.Infix
import Shortcode.Proofs.Tag.Lossless
import Shortcode.Tag.Nesting

namespace Shortcode

namespace Match

variable {names : List String} {content inner : String} {m : Match}

theorem tagStart_lt_openStop (m : Match) : m.tagStart < m.openStop := by
  rw [openStop, attrStop, nameStop]
  split <;> omega

theorem innerStop_eq (hi : m.inner = some inner) : m.innerStop = m.openStop + inner.length := by
  rw [innerStop, hi]
  rfl

/-- The parts of a match in the order of their places. -/
theorem LiesIn.places (h : m.LiesIn names content) :
    m.start ≤ m.tagStart ∧ m.tagStart < m.openStop ∧ m.openStop ≤ m.innerStop ∧
      m.innerStop ≤ m.stop ∧ m.stop ≤ content.length := by
  have hs := h.cuts_sorted
  have hv := h.cuts_le m.stop (by simp [cuts])
  simp only [cuts, List.pairwise_cons, List.mem_cons, forall_eq_or_imp] at hs
  exact ⟨hs.1.1, m.tagStart_lt_openStop, hs.2.2.2.2.1.1, hs.2.2.2.2.2.1.2.1, hv⟩

/-- The number of characters that a match takes. -/
def width (m : Match) : Nat := m.stop - m.start

/-- Matches side by side take no more room than there is. -/
theorem sum_width_le {found : List Match} {first last : Nat}
    (ordered : found.Pairwise fun a b => a.stop ≤ b.start) (hle : first ≤ last)
    (within : ∀ m ∈ found, first ≤ m.start ∧ m.start ≤ m.stop ∧ m.stop ≤ last) :
    first + (found.map width).sum ≤ last := by
  induction found generalizing first with
  | nil => exact hle
  | cons m found ih =>
    obtain ⟨behind, ordered⟩ := List.pairwise_cons.1 ordered
    obtain ⟨⟨hstart, hstop, hlast⟩, within⟩ := List.forall_mem_cons.1 within
    have rest := ih ordered hlast fun b hb => ⟨behind b hb, (within b hb).2⟩
    rw [List.map_cons, List.sum_cons, width]
    omega

theorem tagText_of_inner (hi : m.inner = some inner) :
    m.tagText = "[" ++ m.name ++ m.attrText ++ (if m.selfClosing then "/]" else "]") ++
      (inner ++ "[/" ++ m.name ++ "]") := by
  rw [tagText, hi]

end Match

namespace Scanner

/-- Texts that are scanned on the way down, with the position at which each stands in the first. -/
inductive Reaches (s : Scanner) (content : String) : Nat → String → Prop where
  | whole : Reaches s content 0 content
  | enclosed {base : Nat} {text inner : String} {m : Match} (h : Reaches s content base text)
      (hm : m ∈ (s.scan text).found) (hi : m.inner = some inner) :
      Reaches s content (base + m.openStop) inner

/-- A tag of a text that is scanned on the way down, with the position of its `[` in the first. -/
def Visits (s : Scanner) (content : String) (p : Nat) (m : Match) : Prop :=
  ∃ base text, s.Reaches content base text ∧ m ∈ (s.scan text).found ∧ p = base + m.tagStart

/-- The tags of a text and of those that they enclose, with their positions, in the order in which
they come up. -/
def visits (s : Scanner) (content : String) : List (Nat × Match) :=
  (s.scan content).found.attach.flatMap fun ⟨m, hm⟩ =>
    (m.tagStart, m) :: match h : m.inner with
      | some inner =>
        have := length_inner_lt hm h
        (s.visits inner).map fun v => (m.openStop + v.1, v.2)
      | none => []
termination_by content.length

variable {s : Scanner} {content text inner : String} {base p : Nat} {m : Match}

/-- An enclosed text is shorter than its match by the brackets and the names around it. -/
theorem length_inner_add_le (hm : m ∈ (s.scan content).found) (hi : m.inner = some inner) :
    inner.length + (2 * m.name.length + 5) ≤ m.width := by
  rw [Match.width]
  have places := (liesIn_of_mem hm).places
  have close : m.tagStop ≤ m.stop := Nat.sub_le _ _
  have size := congrArg List.length (slice_tag_of_mem hm)
  rw [Text.length_slice (by rw [String.length_toList]; omega), String.length_toList,
    Match.tagText_of_inner hi] at size
  have bracket : 1 ≤ (if m.selfClosing then "/]" else "]").length := by
    split <;> decide
  have marks : "[".length = 1 ∧ "]".length = 1 ∧ "[/".length = 2 := by decide
  simp only [String.length_append, marks] at size
  omega

/-- Behind an enclosed text stands the `[` of the closing tag. -/
theorem getElem?_innerStop_of_mem (hm : m ∈ (s.scan content).found) (hi : m.inner = some inner) :
    content.toList[m.openStop + inner.length]? = some '[' := by
  rw [← Match.innerStop_eq hi]
  obtain ⟨k, o, i, -, h, hle, rfl⟩ := exists_opener_of_mem hm
  rw [o.inner_toMatch hle] at hi
  obtain ⟨c, hc, -⟩ := Option.map_eq_some_iff.1 hi
  rw [h.innerStop_toMatch hle, hc]
  exact (Tag.shows_iff.1 (h.encloses c hc).2.2.2.shown).1

theorem width_pos (hm : m ∈ (s.scan content).found) : 0 < m.width := by
  have places := (liesIn_of_mem hm).places
  rw [Match.width]
  omega

theorem sum_width_found_le (s : Scanner) (content : String) :
    ((s.scan content).found.map Match.width).sum ≤ content.length := by
  have within : ∀ m ∈ (s.scan content).found,
      0 ≤ m.start ∧ m.start ≤ m.stop ∧ m.stop ≤ content.length := by
    intro m hm
    have places := (liesIn_of_mem hm).places
    omega
  have room := Match.sum_width_le (s.pairwise_found content) (Nat.zero_le _) within
  rwa [Nat.zero_add] at room

/-- In bytes it is shorter than the whole text by as much. -/
theorem utf8ByteSize_inner_add_le (hm : m ∈ (s.scan content).found) (hi : m.inner = some inner) :
    inner.utf8ByteSize + (2 * m.name.utf8ByteSize + 5) ≤ content.utf8ByteSize := by
  have size := Text.byteLength_slice_le content.toList m.tagStart m.tagStop
  rw [slice_tag_of_mem hm, Text.byteLength_toList, Text.byteLength_toList, Match.tagText_of_inner hi]
    at size
  have bracket : 1 ≤ (if m.selfClosing then "/]" else "]").utf8ByteSize := by
    split <;> decide
  have marks : "[".utf8ByteSize = 1 ∧ "]".utf8ByteSize = 1 ∧ "[/".utf8ByteSize = 2 := by decide
  simp only [String.utf8ByteSize_append, marks] at size
  omega

theorem Reaches.trans (h : s.Reaches content base text) {base' : Nat}
    (h' : s.Reaches text base' inner) : s.Reaches content (base + base') inner := by
  induction h' with
  | whole => exact h
  | enclosed _ hm hi ih =>
    rw [← Nat.add_assoc]
    exact ih.enclosed hm hi

/-- The first step down, and the way on from there. -/
theorem reaches_iff : s.Reaches content base text ↔ base = 0 ∧ text = content ∨
    ∃ m ∈ (s.scan content).found, ∃ inner, m.inner = some inner ∧
      ∃ base', s.Reaches inner base' text ∧ base = m.openStop + base' := by
  constructor
  · intro h
    induction h with
    | whole => exact .inl ⟨rfl, rfl⟩
    | enclosed h hm hi ih =>
      right
      rcases ih with ⟨rfl, rfl⟩ | ⟨m', hm', inner', hi', base', h', rfl⟩
      · exact ⟨_, hm, _, hi, 0, .whole, Nat.add_comm ..⟩
      · exact ⟨m', hm', inner', hi', _, h'.enclosed hm hi, Nat.add_assoc ..⟩
  · rintro (⟨rfl, rfl⟩ | ⟨m, hm, inner, hi, base', h', rfl⟩)
    · exact .whole
    · have first := Reaches.whole.enclosed hm hi
      rw [Nat.zero_add] at first
      exact first.trans h'

/-- A text that is reached stands where it is said to. -/
theorem Reaches.isPrefix_drop (h : s.Reaches content base text) :
    text.toList <+: content.toList.drop base := by
  induction h with
  | whole => exact List.prefix_rfl
  | enclosed _ hm hi ih =>
    rw [← List.drop_drop]
    exact (isPrefix_inner_of_mem hm hi).trans (ih.drop _)

theorem Reaches.add_length_le (h : s.Reaches content base text) :
    base + text.length ≤ content.length := by
  induction h with
  | whole => exact Nat.le_of_eq (Nat.zero_add _)
  | enclosed _ hm hi ih =>
    have places := (liesIn_of_mem hm).places
    rw [Match.innerStop_eq hi] at places
    omega

/-- What comes up in the text that a match encloses, placed in the text of the match. -/
def below (s : Scanner) (m : Match) : List (Nat × Match) :=
  (m.inner.map fun inner => (s.visits inner).map fun v => (m.openStop + v.1, v.2)).getD []

theorem mem_below {v : Nat × Match} :
    v ∈ s.below m ↔ ∃ inner, m.inner = some inner ∧
      ∃ w ∈ s.visits inner, (m.openStop + w.1, w.2) = v := by
  rw [below]
  cases m.inner with
  | none => simp
  | some inner => simp

theorem visits_eq (s : Scanner) (content : String) :
    s.visits content = (s.scan content).found.flatMap fun m => (m.tagStart, m) :: s.below m := by
  rw [visits]
  conv => rhs; rw [← List.attach_map_subtype_val (s.scan content).found, List.flatMap_map]
  congr 1
  funext ⟨m, hm⟩
  dsimp only [below]
  split
  · next h => rw [h]; rfl
  · next h => rw [h]; rfl

/-- The place does not change which tags come up, nor when. -/
theorem map_visits (s : Scanner) (content : String) :
    (s.visits content).map (·.2) = s.nested content := by
  rw [visits_eq, nested_eq, List.map_flatMap]
  apply List.flatMap_congr
  intro m hm
  rw [List.map_cons, below]
  congr 1
  cases hi : m.inner with
  | none => rfl
  | some inner =>
    simp only [Option.map_some, Option.getD_some, List.map_map]
    exact map_visits s inner
termination_by content.length
decreasing_by exact length_inner_lt hm hi

theorem visits_iff : s.Visits content p m ↔ m ∈ (s.scan content).found ∧ p = m.tagStart ∨
    ∃ m' ∈ (s.scan content).found, ∃ inner, m'.inner = some inner ∧
      ∃ q, s.Visits inner q m ∧ p = m'.openStop + q := by
  constructor
  · rintro ⟨base, text, h, hm, rfl⟩
    rcases reaches_iff.1 h with ⟨rfl, rfl⟩ | ⟨m', hm', inner, hi, base', h', rfl⟩
    · exact .inl ⟨hm, Nat.zero_add _⟩
    · exact .inr ⟨m', hm', inner, hi, _, ⟨base', text, h', hm, rfl⟩, Nat.add_assoc ..⟩
  · rintro (⟨hm, rfl⟩ | ⟨m', hm', inner, hi, _, ⟨base, text, h, hm, rfl⟩, rfl⟩)
    · exact ⟨0, content, .whole, hm, (Nat.zero_add _).symm⟩
    · exact ⟨_, text, reaches_iff.2 (.inr ⟨m', hm', inner, hi, base, h, rfl⟩), hm,
        (Nat.add_assoc ..).symm⟩

theorem mem_visits (content : String) {p : Nat} {m : Match} :
    (p, m) ∈ s.visits content ↔ s.Visits content p m := by
  rw [visits_iff, visits_eq, List.mem_flatMap]
  constructor
  · rintro ⟨m', hm', h⟩
    rcases List.mem_cons.1 h with h | h
    · cases h
      exact .inl ⟨hm', rfl⟩
    · obtain ⟨inner, hi, ⟨q, m''⟩, hq, he⟩ := mem_below.1 h
      cases he
      exact .inr ⟨m', hm', inner, hi, q, (mem_visits inner).1 hq, rfl⟩
  · rintro (⟨hm, rfl⟩ | ⟨m', hm', inner, hi, q, hq, rfl⟩)
    · exact ⟨m, hm, List.mem_cons_self⟩
    · have hin := mem_below.2 ⟨inner, hi, (q, m), (mem_visits inner).2 hq, rfl⟩
      exact ⟨m', hm', List.mem_cons_of_mem _ hin⟩
termination_by content.length
decreasing_by all_goals exact length_inner_lt hm' hi

/-- The text of a tag stands at its place. -/
theorem Visits.isPrefix_drop (h : s.Visits content p m) :
    m.tagText.toList <+: content.toList.drop p := by
  obtain ⟨base, text, ht, hm, rfl⟩ := h
  rw [← List.drop_drop, ← slice_tag_of_mem hm]
  exact (List.take_prefix _ _).trans (ht.isPrefix_drop.drop _)

theorem Visits.lt_length (h : s.Visits content p m) : p < content.length := by
  obtain ⟨base, text, ht, hm, rfl⟩ := h
  have := ht.add_length_le
  have := (liesIn_of_mem hm).places
  omega

/-- What comes up below a match lies between its opening tag and its end. -/
theorem place_of_mem_below (hm : m ∈ (s.scan content).found) {v : Nat × Match}
    (hv : v ∈ s.below m) : m.tagStart < v.1 ∧ v.1 < m.stop := by
  obtain ⟨inner, hi, w, hw, rfl⟩ := mem_below.1 hv
  have places := (liesIn_of_mem hm).places
  have := ((mem_visits inner).1 hw).lt_length
  rw [Match.innerStop_eq hi] at places
  dsimp only
  omega

/-- What comes up for a match, the match itself included, lies within it. -/
theorem place_of_mem_cons_below (hm : m ∈ (s.scan content).found) {v : Nat × Match}
    (hv : v ∈ (m.tagStart, m) :: s.below m) : m.start ≤ v.1 ∧ v.1 < m.stop := by
  have places := (liesIn_of_mem hm).places
  rcases List.mem_cons.1 hv with rfl | hv
  · dsimp only
    omega
  · have := place_of_mem_below hm hv
    omega

/-- Every tag comes up behind those that have come up before: behind the opening tag that encloses
it, and behind the whole of a tag beside it. -/
theorem pairwise_visits (s : Scanner) (content : String) :
    (s.visits content).Pairwise fun a b => a.1 < b.1 := by
  rw [visits_eq, List.pairwise_flatMap]
  constructor
  · intro m hm
    refine List.pairwise_cons.2 ⟨fun v hv => (place_of_mem_below hm hv).1, ?_⟩
    rw [below]
    cases hi : m.inner with
    | none => exact .nil
    | some inner =>
      apply List.pairwise_map.2
      exact (pairwise_visits s inner).imp fun h => Nat.add_lt_add_left h _
  · refine (s.pairwise_found content).imp_of_mem ?_
    intro a b ha hb hab v hv w hw
    have := (place_of_mem_cons_below ha hv).2
    have := (place_of_mem_cons_below hb hw).1
    omega
termination_by content.length
decreasing_by exact length_inner_lt hm hi

end Scanner

end Shortcode
