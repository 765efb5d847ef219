import Mathlib.Data.List.Pairwise
import Shortcode.Engine.Placeholder
import Shortcode.Proofs.Attribute.Shape
import Shortcode.Proofs.Engine.Pass

namespace Shortcode

open Attribute (isNameChar)

/-- A name in braces at a place of a text. -/
@[ext] structure Placeholder where
  start : Nat
  name : List Char
  deriving DecidableEq

namespace Placeholder

def text (p : Placeholder) : List Char := (Piece.placeholder p.name).text

def stop (p : Placeholder) : Nat := p.start + p.text.length

variable {text rest name after : List Char} {p q : Placeholder} {start : Nat}

/-- The placeholder can be read off the text at its place. Its name has one character or more. -/
structure StandsIn (p : Placeholder) (text : List Char) : Prop where
  named : p.name ≠ []
  chars : ∀ c ∈ p.name, isNameChar c = true
  here : p.text <+: text.drop p.start

theorem text_ne_nil (p : Placeholder) : p.text ≠ [] := List.cons_ne_nil _ _

theorem StandsIn.stop_le (h : p.StandsIn text) : p.stop ≤ text.length :=
  Text.length_le_of_isPrefix_drop h.here p.text_ne_nil

/-- Inside of a placeholder no other one begins: there is no `{` behind its first character. -/
theorem StandsIn.getElem?_ne (h : p.StandsIn text) {i : Nat} (hi : p.start < i) (hs : i < p.stop) :
    text[i]? ≠ some '{' := by
  obtain ⟨j, rfl⟩ := Nat.exists_eq_add_of_lt hi
  rw [stop] at hs
  rw [Nat.add_assoc, Text.getElem?_of_isPrefix_drop h.here (by omega), Placeholder.text, Piece.text,
    List.cons_append, List.getElem?_cons_succ]
  intro hj
  rcases List.mem_append.1 (List.mem_of_getElem? hj) with hc | hc
  · exact absurd (h.chars _ hc) (by decide)
  · exact absurd (List.mem_singleton.1 hc) (by decide)

theorem StandsIn.getElem?_start (h : p.StandsIn text) : text[p.start]? = some '{' :=
  Text.getElem?_of_isPrefix_drop (j := 0) h.here (List.length_pos_iff.2 p.text_ne_nil)

theorem StandsIn.stop_le_start (hp : p.StandsIn text) (hq : q.StandsIn text)
    (h : p.start < q.start) : p.stop ≤ q.start :=
  Nat.le_of_not_lt fun hs => hp.getElem?_ne h hs hq.getElem?_start

/-- A placeholder at the front of a text has the longest run of characters of names as its name. -/
theorem placeholder?_text_append (hn : name ≠ []) (hc : ∀ c ∈ name, isNameChar c = true)
    (after : List Char) :
    Piece.placeholder? ((Piece.placeholder name).text ++ after) = some (name, after) := by
  obtain ⟨first, more, rfl⟩ := List.exists_cons_of_ne_nil hn
  have brace : ('}' :: after).head?.all (!isNameChar ·) = true := by
    rw [List.head?_cons, Option.all_some]
    decide
  have cut := Attribute.takeWhile_append_of_all hc ('}' :: after) brace
  have front : (Piece.placeholder (first :: more)).text ++ after =
      '{' :: (first :: more ++ '}' :: after) := by simp [Piece.text]
  rw [front, Piece.placeholder?, cut.1, cut.2]
  rfl

theorem valid_of_placeholder? (h : Piece.placeholder? text = some (name, after)) :
    name ≠ [] ∧ ∀ c ∈ name, isNameChar c = true := by
  unfold Piece.placeholder? at h
  split at h
  · split at h
    · next c key _ hk _ =>
      obtain ⟨rfl, -⟩ := Prod.mk.injEq .. ▸ Option.some.injEq .. ▸ h
      refine ⟨List.cons_ne_nil _ _, fun c' hc' => ?_⟩
      rw [← hk] at hc'
      exact List.all_eq_true.1 List.all_takeWhile _ hc'
    · cases h
  · cases h

theorem placeholder?_drop_iff :
    Piece.placeholder? (text.drop start) = some (name, after) ↔
      (Placeholder.mk start name).StandsIn text ∧
        after = text.drop (Placeholder.mk start name).stop := by
  constructor
  · intro h
    have whole := Piece.placeholder?_eq h
    obtain ⟨named, chars⟩ := valid_of_placeholder? h
    refine ⟨⟨named, chars, ⟨after, whole.symm⟩⟩, ?_⟩
    rw [stop, ← List.drop_drop, whole]
    exact List.drop_left.symm
  · rintro ⟨stands, rfl⟩
    obtain ⟨after, whole⟩ := stands.here
    rw [stop, ← List.drop_drop, ← whole]
    rw [List.drop_left]
    exact placeholder?_text_append stands.named stands.chars after

/-- The placeholders among the pieces of a text, the first of which stands at `start`. -/
def among : Nat → List Piece → List Placeholder
  | _, [] => []
  | start, .plain _ :: pieces => among (start + 1) pieces
  | start, .placeholder name :: pieces =>
    ⟨start, name⟩ :: among (Placeholder.mk start name).stop pieces

theorem le_of_mem_among {pieces : List Piece} (h : p ∈ among start pieces) : start ≤ p.start := by
  induction pieces generalizing start with
  | nil => cases h
  | cons piece pieces ih =>
    cases piece with
    | plain c => exact Nat.le_of_succ_le (ih h)
    | placeholder name =>
      rcases List.mem_cons.1 h with rfl | h
      · exact Nat.le_refl _
      · exact Nat.le_trans (Nat.le_add_right ..) (ih h)

theorem pairwise_among (start : Nat) (pieces : List Piece) :
    (among start pieces).Pairwise fun p q => p.stop ≤ q.start := by
  induction pieces generalizing start with
  | nil => exact .nil
  | cons piece pieces ih =>
    cases piece with
    | plain c => exact ih _
    | placeholder name => exact List.pairwise_cons.2 ⟨fun _ => le_of_mem_among, ih _⟩

theorem StandsIn.eq (hp : p.StandsIn text) (hq : q.StandsIn text) (h : p.start = q.start) :
    p = q := by
  obtain ⟨start, name⟩ := p
  obtain ⟨_, name'⟩ := q
  obtain rfl : start = _ := h
  have one := placeholder?_drop_iff.2 ⟨hp, rfl⟩
  rw [placeholder?_drop_iff.2 ⟨hq, rfl⟩] at one
  cases one
  rfl

/-- The pieces of a text have the placeholders that stand in it. -/
theorem mem_among_split (h : text.drop start = rest) :
    p ∈ among start (Piece.split rest) ↔ start ≤ p.start ∧ p.StandsIn text := by
  fun_induction Piece.split rest generalizing start with
  | case1 =>
    refine ⟨fun h => absurd h List.not_mem_nil, ?_⟩
    rintro ⟨hs, hp⟩
    have inside := hp.stop_le
    have := List.length_pos_iff.2 p.text_ne_nil
    rw [List.drop_eq_nil_iff] at h
    rw [stop] at inside
    omega
  | case2 c rest name after hf _ ih =>
    rw [← h] at hf
    obtain ⟨stands, rest⟩ := placeholder?_drop_iff.1 hf
    rw [among, List.mem_cons, ih rest.symm]
    constructor
    · rintro (rfl | ⟨hs, hp⟩)
      · exact ⟨Nat.le_refl _, stands⟩
      · exact ⟨Nat.le_trans (Nat.le_add_right ..) hs, hp⟩
    · rintro ⟨hs, hp⟩
      rcases Nat.eq_or_lt_of_le hs with hs | hs
      · exact .inl (hp.eq stands hs.symm)
      · exact .inr ⟨stands.stop_le_start hp hs, hp⟩
  | case3 c rest hf ih =>
    have next : text.drop (start + 1) = rest := by rw [← List.drop_drop, h]; rfl
    rw [among, ih next]
    refine and_congr_left fun hp => Nat.succ_le_iff.trans (Nat.lt_iff_le_and_ne.trans ?_)
    refine and_iff_left ?_
    rintro rfl
    have := placeholder?_drop_iff.2 ⟨hp, rfl⟩
    rw [h, hf] at this
    cases this

/-- Two placeholders of a text are the same, or one ends where the other begins or before. -/
theorem StandsIn.eq_or_apart (hp : p.StandsIn text) (hq : q.StandsIn text) :
    p = q ∨ p.stop ≤ q.start ∨ q.stop ≤ p.start := by
  rcases Nat.lt_trichotomy p.start q.start with h | h | h
  · exact .inr (.inl (hp.stop_le_start hq h))
  · exact .inl (hp.eq hq h)
  · exact .inr (.inr (hq.stop_le_start hp h))

/-- The edit that replaces a placeholder. -/
def edit (replacement : List Char → String) (p : Placeholder) : Text.Edit :=
  ⟨p.start, p.stop, replacement p.name⟩

end Placeholder

/-- What a piece is replaced by: a placeholder by what stands for its name, another not at all. -/
def Piece.filled (replacement : List Char → String) : Piece → List Char
  | .placeholder name => (replacement name).toList
  | .plain c => [c]

namespace Placeholder

variable {text : List Char}

theorem spliceFrom_cons {cursor : Nat} {edits : List Text.Edit} (c : Char) (rest : List Char)
    (behind : ∀ e ∈ edits, cursor < e.start ∧ e.start ≤ e.stop) :
    Text.spliceFrom cursor (c :: rest) edits = c :: Text.spliceFrom (cursor + 1) rest edits := by
  cases edits with
  | nil => rfl
  | cons e edits =>
    obtain ⟨hs, hst⟩ := behind e List.mem_cons_self
    have start : e.start - cursor = e.start - (cursor + 1) + 1 := by omega
    have stop : e.stop - cursor = e.stop - (cursor + 1) + 1 := by omega
    rw [Text.spliceFrom, Text.spliceFrom, start, stop]
    rfl

/-- Replacing the placeholders where they stand is replacing the pieces one by one. -/
theorem spliceFrom_among (replacement : List Char → String) (start : Nat) (pieces : List Piece) :
    Text.spliceFrom start (pieces.flatMap Piece.text)
        ((among start pieces).map (edit replacement)) =
      pieces.flatMap (Piece.filled replacement) := by
  induction pieces generalizing start with
  | nil => rfl
  | cons piece pieces ih =>
    cases piece with
    | plain c =>
      rw [List.flatMap_cons, List.flatMap_cons, among, ← ih]
      refine spliceFrom_cons c _ (List.forall_mem_map.2 fun p hp => ?_)
      exact ⟨le_of_mem_among hp, Nat.le_add_right ..⟩
    | placeholder name =>
      have length : (edit replacement ⟨start, name⟩).stop - start =
          (Piece.placeholder name).text.length := Nat.add_sub_cancel_left ..
      rw [List.flatMap_cons, List.flatMap_cons, among, List.map_cons, Text.spliceFrom, length,
        List.drop_left, ← ih (Placeholder.mk start name).stop]
      simp [edit, Piece.filled]

/-- The placeholders of a text, in order. -/
def allIn (text : List Char) : List Placeholder := among 0 (Piece.split text)

theorem mem_allIn (p : Placeholder) : p ∈ allIn text ↔ p.StandsIn text :=
  (mem_among_split List.drop_zero).trans (and_iff_right (Nat.zero_le _))

/-- The placeholders of a text have one order. -/
theorem eq_allIn {places : List Placeholder}
    (sorted : places.Pairwise fun p q => p.stop ≤ q.start)
    (mem : ∀ p, p ∈ places ↔ p.StandsIn text) : places = allIn text := by
  have forward (p : Placeholder) : p.start < p.stop :=
    Nat.lt_add_of_pos_right (List.length_pos_iff.2 p.text_ne_nil)
  have distinct {places : List Placeholder}
      (sorted : places.Pairwise fun p q => p.stop ≤ q.start) : places.Nodup := by
    refine sorted.imp fun {p q} h he => ?_
    subst he
    exact absurd h (Nat.not_le.2 (forward p))
  have sorted' : (allIn text).Pairwise fun p q => p.stop ≤ q.start := pairwise_among 0 _
  have perm : places.Perm (allIn text) :=
    (List.perm_ext_iff_of_nodup (distinct sorted) (distinct sorted')).2 fun p =>
      (mem p).trans (mem_allIn p).symm
  refine perm.eq_of_pairwise (fun p q _ _ hpq hqp => ?_) sorted sorted'
  have hp := forward p
  have hq := forward q
  omega

theorem inOrder_allIn (text : List Char) (replacement : List Char → String) :
    Text.InOrder text.length ((allIn text).map (edit replacement)) where
  ordered := List.pairwise_map.2 (pairwise_among 0 _)
  within := List.forall_mem_map.2 fun p hp =>
    ⟨Nat.le_add_right .., ((mem_allIn p).1 hp).stop_le⟩

/-- A text with each of its pieces replaced is what stands between its placeholders, and the texts
in place of them. -/
theorem flatMap_filled_split (template : String) (replacement : List Char → String) :
    String.ofList ((Piece.split template.toList).flatMap (Piece.filled replacement)) =
      Text.concatenation template ((allIn template.toList).map (edit replacement)) := by
  rw [← Text.splice_eq_concatenation (inOrder_allIn template.toList replacement), Text.splice,
    allIn, ← spliceFrom_among, Piece.flatMap_text_split]

end Placeholder

end Shortcode
