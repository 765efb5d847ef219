import Shortcode.Proofs.Html.Bytes
import Shortcode.Proofs.Tag.Position

namespace Shortcode.Scanner

/-- The spans of a text lie side by side in it, between characters, as a walk over its bytes finds
them. A cursor over spans that lie side by side answers each of a sequence of positions that never
decrease as if it had seen no other, so both passes over a text hide the same positions. -/
theorem shield_exact :
    (∀ content : String,
      let spans := Html.protectedSpans content.toList
      let inBytes := spans.map (Html.Span.inBytes content)
      Html.Ordered spans ∧ (∀ s ∈ spans, s.stop ≤ content.length) ∧
        Html.byteWalk? content 0 = some inBytes ∧ Html.Placed content inBytes ∧
        ∀ p, Html.covers inBytes ((Text.Offsets.ofText content).get p) = Html.covers spans p) ∧
    (∀ spans, Html.Ordered spans → ∀ positions : List Nat, positions.Pairwise (· ≤ ·) →
      (Html.SpanCursor.mk spans).answers positions = positions.map (Html.covers spans)) ∧
    ∀ (s : Scanner) (text : List Char),
      Tag.closesFrom (s.shield text) 0 false text = Tag.closesOf (s.hidden text) text ∧
      Tag.readingsFrom (s.names.map String.toList) (s.shield text) 0 false text =
        Tag.readingsOf (s.hidden text) (s.names.map String.toList) text := by
  refine ⟨?_, ?_, ?_⟩
  · intro content spans inBytes
    exact ⟨Html.protectedSpans_ordered _, fun s hs => Html.stop_le_length hs,
      Html.byteWalk?_eq content, Html.placed_inBytes content, Html.covers_inBytes content⟩
  · intro spans ho positions hp
    have cursor : Html.Ordered (Html.SpanCursor.mk spans).pending := ho
    exact Html.SpanCursor.answers_eq cursor hp
  · intro s text
    exact ⟨s.closes_eq text, s.readings_eq text⟩

/-- A tag and a comment that hides a `]`, both behind a character of two bytes. -/
theorem shield_exact_comment :
    (let content := "é<b>]<!-- é] -->]"
     let spans : List Html.Span := [⟨2, 5⟩, ⟨6, 18⟩]
     Html.byteWalk? content 0 = some spans ∧ Html.Ordered spans ∧
      [5, 13, 13, 18].Pairwise (· ≤ ·) ∧
      (Html.SpanCursor.mk spans).answers [5, 13, 13, 18] = [false, true, true, false]) := by
  intro content spans
  obtain ⟨-, -, walk, placed, -⟩ := shield_exact.1 content
  have shown : (Html.protectedSpans content.toList).map (Html.Span.inBytes content) = spans := by
    decide +kernel
  rw [shown] at walk placed
  have ascending : [5, 13, 13, 18].Pairwise (· ≤ ·) := by decide
  refine ⟨walk, placed.toOrdered, ascending, ?_⟩
  rw [shield_exact.2.1 spans placed.toOrdered _ ascending]
  decide

end Shortcode.Scanner
