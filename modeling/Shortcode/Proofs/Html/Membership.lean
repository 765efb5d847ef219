import Shortcode.Html.Span

namespace Shortcode.Html

/-- Spans that hold something, left to right, none reaching into the next. -/
structure Ordered (spans : List Span) : Prop where
  nonempty : ∀ s ∈ spans, s.start < s.stop
  disjoint : spans.Pairwise fun a b => a.stop ≤ b.start

/-- The position lies in one of the spans. -/
def covers (spans : List Span) (p : Nat) : Bool := spans.any (·.contains p)

/-- The position lies in a tag or comment of the text. -/
def isProtected (text : List Char) (p : Nat) : Bool := covers (protectedSpans text) p

theorem Ordered.tail {a : Span} {spans : List Span} (h : Ordered (a :: spans)) : Ordered spans :=
  ⟨fun s hs => h.nonempty s (List.mem_cons_of_mem a hs), (List.pairwise_cons.1 h.disjoint).2⟩

theorem Ordered.cons {a : Span} {spans : List Span} (ha : a.start < a.stop)
    (hs : ∀ s ∈ spans, a.stop ≤ s.start) (h : Ordered spans) : Ordered (a :: spans) :=
  ⟨List.forall_mem_cons.2 ⟨ha, h.nonempty⟩, List.pairwise_cons.2 ⟨hs, h.disjoint⟩⟩

theorem commentLength_pos (body : List Char) : 0 < commentLength body := by
  unfold commentLength
  split <;> omega

/-- The walk never goes back: each span starts behind what is still to be skipped. -/
theorem spansFrom_ordered (i skip : Nat) (text : List Char) :
    Ordered (spansFrom i skip text) ∧ ∀ s ∈ spansFrom i skip text, i + skip ≤ s.start := by
  have put {a : Span} {spans : List Span} (ha : a.start < a.stop)
      (h : Ordered spans ∧ ∀ s ∈ spans, a.stop ≤ s.start) :
      Ordered (a :: spans) ∧ ∀ s ∈ a :: spans, a.start ≤ s.start :=
    ⟨h.1.cons ha h.2, List.forall_mem_cons.2
      ⟨Nat.le_refl _, fun s hs => Nat.le_trans (Nat.le_of_lt ha) (h.2 s hs)⟩⟩
  induction text generalizing i skip with
  | nil => exact ⟨⟨nofun, .nil⟩, nofun⟩
  | cons c rest ih =>
    cases skip with
    | succ skip =>
      rw [spansFrom, show i + (skip + 1) = i + 1 + skip by omega]
      exact ih (i + 1) skip
    | zero =>
      have plain : Ordered (spansFrom (i + 1) 0 rest) ∧
          ∀ s ∈ spansFrom (i + 1) 0 rest, i ≤ s.start :=
        ⟨(ih (i + 1) 0).1, fun s hs => Nat.le_of_succ_le ((ih (i + 1) 0).2 s hs)⟩
      rw [spansFrom]
      split
      · split
        · next body _ =>
          have hb := commentLength_pos body
          refine put (Nat.lt_add_of_pos_right hb) ?_
          dsimp only
          rw [show i + commentLength body = i + 1 + (commentLength body - 1) by omega]
          exact ih (i + 1) _
        · split
          · split
            · next k _ =>
              refine put (by dsimp only; omega) ?_
              dsimp only
              rw [show i + k + 2 = i + 1 + (k + 1) by omega]
              exact ih (i + 1) _
            · exact ⟨⟨nofun, .nil⟩, nofun⟩
          · exact plain
      · exact plain

theorem protectedSpans_ordered (text : List Char) : Ordered (protectedSpans text) :=
  (spansFrom_ordered 0 0 text).1

/-- A text without `<` has nothing to protect. -/
theorem spansFrom_eq_nil {text : List Char} (h : '<' ∉ text) (i skip : Nat) :
    spansFrom i skip text = [] := by
  induction text generalizing i skip with
  | nil => rfl
  | cons c rest ih =>
    obtain ⟨hc, hr⟩ := not_or.1 (mt List.mem_cons.2 h)
    cases skip with
    | succ skip => exact ih hr (i + 1) skip
    | zero => rw [spansFrom, if_neg (Ne.symm hc), ih hr]

theorem Ordered.covers_eq {a : Span} {spans : List Span} (h : Ordered (a :: spans)) {p : Nat}
    (hp : p < a.stop) : covers (a :: spans) p = decide (a.start ≤ p) := by
  have later : spans.any (·.contains p) = false := by
    apply List.any_eq_false.2
    intro s hs
    have := (List.pairwise_cons.1 h.disjoint).1 s hs
    simp only [Span.contains, Bool.and_eq_true, decide_eq_true_eq]
    omega
  rw [covers, List.any_cons, later, Bool.or_false]
  simp [Span.contains, hp]

/-- Spans that end at or before a position contain neither it nor a later one. -/
theorem covers_dropWhile (spans : List Span) {p q : Nat} (hq : p ≤ q) :
    covers (spans.dropWhile (·.stop ≤ p)) q = covers spans q := by
  induction spans with
  | nil => rfl
  | cons a spans ih =>
    rw [List.dropWhile_cons]
    split
    · next ha =>
      have : a.contains q = false := by
        have := of_decide_eq_true ha
        simp only [Span.contains, Bool.and_eq_false_iff, decide_eq_false_iff_not]
        omega
      rw [ih, covers, covers, List.any_cons, this, Bool.false_or]
    · rfl

theorem Ordered.dropWhile {spans : List Span} (h : Ordered spans) (f : Span → Bool) :
    Ordered (spans.dropWhile f) :=
  ⟨fun s hs => h.nonempty s (List.dropWhile_subset f hs),
    h.disjoint.sublist (List.dropWhile_sublist f)⟩

/-- The first answer is right, and so are all answers for later positions. -/
theorem SpanCursor.contains_eq {cursor : SpanCursor} (h : Ordered cursor.pending) (p : Nat) :
    (cursor.contains p).1 = covers cursor.pending p ∧ Ordered (cursor.contains p).2.pending ∧
      ∀ q, p ≤ q → covers (cursor.contains p).2.pending q = covers cursor.pending q := by
  refine ⟨?_, h.dropWhile _, fun q hq => covers_dropWhile _ hq⟩
  rw [← covers_dropWhile cursor.pending (Nat.le_refl p), contains]
  have hd := h.dropWhile (·.stop ≤ p)
  have hh := List.head?_dropWhile_not (fun s : Span => decide (s.stop ≤ p)) cursor.pending
  generalize cursor.pending.dropWhile (·.stop ≤ p) = spans at hd hh
  cases spans with
  | nil => rfl
  | cons a spans =>
    have ha : p < a.stop := by simpa using hh
    rw [hd.covers_eq ha]
    rfl

/-- What a cursor answers to positions that are asked one after the other. -/
def SpanCursor.answers (cursor : SpanCursor) : List Nat → List Bool
  | [] => []
  | p :: positions => (cursor.contains p).1 :: (cursor.contains p).2.answers positions

/-- As long as positions never decrease, no span that is dropped is missed. -/
theorem SpanCursor.answers_eq {cursor : SpanCursor} (h : Ordered cursor.pending)
    {positions : List Nat} (hp : positions.Pairwise (· ≤ ·)) :
    cursor.answers positions = positions.map (covers cursor.pending) := by
  induction positions generalizing cursor with
  | nil => rfl
  | cons p positions ih =>
    obtain ⟨hle, hp⟩ := List.pairwise_cons.1 hp
    obtain ⟨answer, left, later⟩ := contains_eq h p
    rw [answers, answer, ih left hp, List.map_cons]
    congr 1
    apply List.map_congr_left
    intro q hq
    exact later q (hle q hq)

end Shortcode.Html
