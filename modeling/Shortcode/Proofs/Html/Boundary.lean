import Mathlib.Data.List.Basic
import Shortcode.Proofs.Html.Membership

namespace Shortcode.Html

/-- A comment ends with `>`, or with the text. -/
theorem getElem?_commentLength (body : List Char) :
    ('<' :: '!' :: '-' :: '-' :: body)[commentLength body - 1]? = some '>' ∨
      commentLength body = body.length + 4 := by
  rw [commentLength]
  cases h : Text.indexOf? ['-', '-', '>'] body with
  | none => exact .inr (Nat.add_comm 4 _)
  | some k =>
    left
    have whole := Text.eq_of_indexOf? h
    rw [List.append_assoc] at whole
    have mark : body.drop k = ['-', '-', '>'] ++ body.drop (k + 3) :=
      List.append_cancel_left ((List.take_append_drop k body).trans whole)
    have last : body[k + 2]? = some '>' := by
      rw [← List.getElem?_drop, mark]
      rfl
    have hp : 4 + k + 3 - 1 = k + 2 + 4 := by omega
    dsimp only
    rw [hp]
    exact last

/-- A span starts with `<` and ends with `>`, or with the text. -/
theorem spansFrom_ends (i skip : Nat) (text : List Char) :
    ∀ s ∈ spansFrom i skip text, text[s.start - i]? = some '<' ∧
      (text[s.stop - 1 - i]? = some '>' ∨ i + text.length ≤ s.stop) := by
  induction text generalizing i skip with
  | nil => exact fun _ hs => absurd hs List.not_mem_nil
  | cons c rest ih =>
    -- what the walk finds behind the first character stands one position further in the text
    have behind (skip : Nat) : ∀ s ∈ spansFrom (i + 1) skip rest,
        (c :: rest)[s.start - i]? = some '<' ∧
          ((c :: rest)[s.stop - 1 - i]? = some '>' ∨ i + (c :: rest).length ≤ s.stop) := by
      intro s hs
      obtain ⟨hstart, hstop⟩ := ih (i + 1) skip s hs
      obtain ⟨hordered, hbound⟩ := spansFrom_ordered (i + 1) skip rest
      have hle := hbound s hs
      have hlt := hordered.nonempty s hs
      have first : s.start - i = s.start - (i + 1) + 1 := by omega
      have last : s.stop - 1 - i = s.stop - 1 - (i + 1) + 1 := by omega
      have length : i + (c :: rest).length = i + 1 + rest.length := by
        rw [List.length_cons]
        omega
      rw [first, last, length, List.getElem?_cons_succ, List.getElem?_cons_succ]
      exact ⟨hstart, hstop⟩
    cases skip with
    | succ skip => exact behind skip
    | zero =>
      rw [spansFrom]
      split
      · next hc =>
        subst hc
        split
        · next body hb =>
          have hrest := List.isPrefixOf?_eq_some_iff_append_eq.1 hb
          refine List.forall_mem_cons.2 ⟨⟨by simp, ?_⟩, behind _⟩
          have hend := getElem?_commentLength body
          have hp : i + commentLength body - 1 - i = commentLength body - 1 := by omega
          dsimp only
          rw [hp, ← hrest]
          refine hend.imp_right fun h => ?_
          rw [h]
          simp only [List.length_append, List.length_cons, List.length_nil]
          omega
        · split
          · split
            · next k hk =>
              refine List.forall_mem_cons.2 ⟨⟨by simp, .inl ?_⟩, behind _⟩
              obtain ⟨hlt, he, -⟩ := List.idxOf?_eq_some_iff.1 hk
              have hp : i + k + 2 - 1 - i = k + 1 := by omega
              dsimp only
              rw [hp, List.getElem?_cons_succ, List.getElem?_eq_getElem hlt, he]
            · exact fun _ hs => absurd hs List.not_mem_nil
          · exact behind 0
      · exact behind 0

/-- A choice of hidden positions whose stretches begin with a `<` and end with a `>`, or with the
text. -/
structure Delimited (hidden : Nat → Bool) (text : List Char) : Prop where
  enter : ∀ p, hidden p = false → hidden (p + 1) = true → text[p + 1]? = some '<'
  leave : ∀ p, hidden p = true → hidden (p + 1) = false →
    text[p]? = some '>' ∨ text[p + 1]? = none

theorem delimited_false (text : List Char) : Delimited (fun _ => false) text where
  enter _ _ h := nomatch h
  leave _ h := nomatch h

theorem delimited_isProtected (text : List Char) : Delimited (isProtected text) text where
  enter p hp hq := by
    obtain ⟨s, hs, hin⟩ := List.any_eq_true.1 hq
    have hout := List.any_eq_false.1 hp s hs
    obtain ⟨hstart, -⟩ := spansFrom_ends 0 0 text s hs
    simp only [Span.contains, Bool.and_eq_true, decide_eq_true_eq] at hin hout
    have hfirst : s.start - 0 = p + 1 := by omega
    rwa [hfirst] at hstart
  leave p hp hq := by
    obtain ⟨s, hs, hin⟩ := List.any_eq_true.1 hp
    have hout := List.any_eq_false.1 hq s hs
    obtain ⟨-, hstop⟩ := spansFrom_ends 0 0 text s hs
    simp only [Span.contains, Bool.and_eq_true, decide_eq_true_eq] at hin hout
    have hlast : s.stop - 1 - 0 = p := by omega
    rw [hlast] at hstop
    refine hstop.imp_right fun h => List.getElem?_eq_none ?_
    omega

/-- Text without `<` leads into nothing hidden. -/
theorem Delimited.eq_false {hidden : Nat → Bool} {text : List Char} (h : Delimited hidden text)
    {a b : Nat} (ha : hidden a = false) (hab : a ≤ b)
    (hn : ∀ p, a < p → p ≤ b → text[p]? ≠ some '<') : hidden b = false := by
  induction b with
  | zero => rwa [← Nat.le_zero.1 hab]
  | succ b ih =>
    rcases Nat.lt_or_eq_of_le hab with hlt | rfl
    · have hb := ih (Nat.le_of_lt_succ hlt) fun p hp hpb => hn p hp (Nat.le_succ_of_le hpb)
      apply Bool.eq_false_iff.2
      intro hnext
      exact hn (b + 1) hlt (Nat.le_refl _) (h.enter b hb hnext)
    · exact ha

end Shortcode.Html
