import Shortcode.Proofs.Html.Piece
import Shortcode.Proofs.Tag.Descent

namespace Shortcode

namespace Html

/-- UTF-8 offsets between which the tags and comments of a text stand. -/
def byteSpans (content : String) : List (Nat × Nat) :=
  (protectedSpans content.toList).map fun s =>
    ((Text.Offsets.ofText content).get s.start, (Text.Offsets.ofText content).get s.stop)

/-- The byte at the offset belongs to a tag or comment. -/
def ProtectsByte (content : String) (j : Nat) : Prop :=
  ∃ s ∈ byteSpans content, s.1 ≤ j ∧ j < s.2

/-- The inner text stands at an offset of the outer one. What is protected there is protected in the
inner text as well, and nothing that is protected reaches over an end of it. -/
structure Inherits (outer : String) (offset : Nat) (inner : String) : Prop where
  stands : outer.toUTF8.extract offset (offset + inner.utf8ByteSize) = inner.toUTF8
  keeps : ∀ j < inner.utf8ByteSize, ProtectsByte outer (offset + j) → ProtectsByte inner j
  uncut : ∀ s ∈ byteSpans outer, ∀ e ∈ [offset, offset + inner.utf8ByteSize],
    s.2 ≤ e ∨ e ≤ s.1

/-- The inner text is a piece of the outer one between characters in plain view. -/
structure CutOut (outer : String) (base : Nat) (inner : String) : Prop where
  isPrefix_drop : inner.toList <+: outer.toList.drop base
  add_length_le : base + inner.length ≤ outer.length
  keeps : ∀ p < inner.length, isProtected outer.toList (base + p) = true →
    isProtected inner.toList p = true
  front : base ≠ 0 → isProtected outer.toList (base - 1) = false
  back : base + inner.length < outer.length →
    isProtected outer.toList (base + inner.length) = false

variable {outer middle inner : String} {base next p j : Nat}

theorem CutOut.refl (content : String) : CutOut content 0 content where
  isPrefix_drop := List.prefix_rfl
  add_length_le := Nat.le_of_eq (Nat.zero_add _)
  keeps p _ h := by rwa [Nat.zero_add] at h
  front h := absurd rfl h
  back h := absurd h (by omega)

/-- A character in plain view in a piece of a text is in plain view in the text. -/
theorem CutOut.isProtected_eq_false (h : CutOut outer base inner) (hp : p < inner.length)
    (hv : isProtected inner.toList p = false) : isProtected outer.toList (base + p) = false := by
  by_contra hc
  rw [h.keeps p hp (Bool.not_eq_false _ ▸ hc)] at hv
  cases hv

theorem CutOut.trans (h : CutOut outer base middle) (h' : CutOut middle next inner) :
    CutOut outer (base + next) inner where
  isPrefix_drop := by
    rw [← List.drop_drop]
    exact h'.isPrefix_drop.trans (h.isPrefix_drop.drop next)
  add_length_le := by
    have := h.add_length_le
    have := h'.add_length_le
    omega
  keeps p hp hpr := by
    have := h'.add_length_le
    rw [Nat.add_assoc] at hpr
    exact h'.keeps p hp (h.keeps (next + p) (by omega) hpr)
  front hne := by
    have := h'.add_length_le
    by_cases hn : next = 0
    · rw [hn] at hne ⊢
      exact h.front hne
    · have hpos : base + next - 1 = base + (next - 1) := by omega
      rw [hpos]
      exact h.isProtected_eq_false (by omega) (h'.front hn)
  back hlt := by
    rw [Nat.add_assoc] at hlt ⊢
    rcases Nat.lt_or_eq_of_le h'.add_length_le with hin | hend
    · exact h.isProtected_eq_false hin (h'.back hin)
    · rw [hend] at hlt ⊢
      exact h.back hlt

theorem protectsByte_iff {content : String} (hp : (Text.Offsets.ofText content).get p ≤ j)
    (hj : j < (Text.Offsets.ofText content).get (p + 1)) :
    ProtectsByte content j ↔ isProtected content.toList p = true := by
  have mono {a b : Nat} (h : a ≤ b) := Text.Offsets.get_mono content h
  rw [ProtectsByte, byteSpans, isProtected, covers, List.any_eq_true]
  simp only [List.mem_map, exists_exists_and_eq_and]
  apply exists_congr
  intro s
  apply and_congr_right
  intro _
  rw [Span.contains, Bool.and_eq_true, decide_eq_true_iff, decide_eq_true_iff]
  constructor
  · rintro ⟨hstart, hstop⟩
    constructor
    · by_contra hlt
      have := mono (show p + 1 ≤ s.start by omega)
      omega
    · by_contra hge
      have := mono (Nat.le_of_not_lt hge)
      omega
  · rintro ⟨hstart, hstop⟩
    have := mono hstart
    have := mono (show p + 1 ≤ s.stop from hstop)
    omega

theorem isProtected_of_contains {text : List Char} {s : Span} (hs : s ∈ protectedSpans text)
    (hstart : s.start ≤ p) (hstop : p < s.stop) : isProtected text p = true :=
  List.any_eq_true.2 ⟨s, hs, by simp [Span.contains, hstart, hstop]⟩

theorem CutOut.inherits (h : CutOut outer base inner) :
    Inherits outer ((Text.Offsets.ofText outer).get base) inner := by
  have offset {p : Nat} (hp : p ≤ inner.length) :=
    Text.Offsets.get_add_of_isPrefix h.isPrefix_drop hp
  have size := offset (Nat.le_refl _)
  rw [Text.Offsets.get_length] at size
  -- a span that begins in front of a position in plain view and ends behind it would contain it
  have outside {e : Nat} (he : e ≤ outer.length)
      (hv : (e ≠ 0 → isProtected outer.toList (e - 1) = false) ∨
        (e < outer.length → isProtected outer.toList e = false)) :
      ∀ s ∈ byteSpans outer, s.2 ≤ (Text.Offsets.ofText outer).get e ∨
        (Text.Offsets.ofText outer).get e ≤ s.1 := by
    intro _ hs
    obtain ⟨s, hmem, rfl⟩ := List.mem_map.1 hs
    by_contra hc
    obtain ⟨hstop, hstart⟩ := not_or.1 hc
    have hstart : s.start < e := by
      by_contra hge
      exact hstart (Text.Offsets.get_mono outer (Nat.le_of_not_lt hge))
    have hstop : e < s.stop := by
      by_contra hge
      exact hstop (Text.Offsets.get_mono outer (Nat.le_of_not_lt hge))
    have hle : s.stop ≤ 0 + outer.toList.length := stop_le s hmem
    rw [Nat.zero_add, String.length_toList] at hle
    rcases hv with hv | hv
    · rw [isProtected_of_contains hmem (by omega) (by omega)] at hv
      exact absurd (hv (by omega)) nofun
    · rw [isProtected_of_contains hmem (by omega) hstop] at hv
      exact absurd (hv (by omega)) nofun
  refine ⟨?_, ?_, ?_⟩
  · rw [← size, Text.Offsets.extract_get outer (Nat.le_add_right ..),
      Text.slice_of_isPrefix h.isPrefix_drop (by rw [String.length_toList]), String.ofList_toList]
  · intro j hj hpr
    obtain ⟨p, hp, hle, hlt⟩ := Text.Offsets.exists_position inner hj
    rw [protectsByte_iff hle hlt]
    refine h.keeps p hp ((protectsByte_iff ?_ ?_).1 hpr)
    · rw [offset (Nat.le_of_lt hp)]
      omega
    · rw [Nat.add_assoc, offset (show p + 1 ≤ inner.length from hp)]
      omega
  · intro s hs e he
    rcases List.mem_pair.1 he with rfl | rfl
    · exact outside (by have := h.add_length_le; omega) (.inl h.front) s hs
    · rw [← size]
      exact outside h.add_length_le (.inr h.back) s hs

end Html

namespace Scanner

variable {s : Scanner} {content text inner : String} {base : Nat} {m : Match}

/-- An enclosed text lies between the `]` of its opening tag and the `[` of its closing tag, and both
are in plain view whatever the names are. -/
theorem cutOut_of_mem (hs : s.ignoreHtml = true) (hm : m ∈ (s.scan content).found)
    (hi : m.inner = some inner) : Html.CutOut content m.openStop inner := by
  have places := (liesIn_of_mem hm).places
  rw [Match.innerStop_eq hi] at places
  have standing := isPrefix_inner_of_mem hm hi
  have slice : Text.slice content.toList m.openStop (m.openStop + inner.length) = inner.toList :=
    Text.slice_of_isPrefix standing (by rw [String.length_toList])
  obtain ⟨hclose, hopen, hback⟩ : Html.isProtected content.toList (m.openStop - 1) = false ∧
      content.toList[m.openStop + inner.length]? = some '[' ∧
      Html.isProtected content.toList (m.openStop + inner.length) = false := by
    rw [← Match.innerStop_eq hi]
    obtain ⟨k, o, i, -, h, hle, rfl⟩ := exists_opener_of_mem hm
    have plain {c : Char} {p : Nat}
        (h : Tag.shows (s.hidden content.toList) content.toList c p = true) :
        content.toList[p]? = some c ∧ Html.isProtected content.toList p = false := by
      rwa [Tag.shows_iff, hidden, hs, Bool.true_and] at h
    rw [o.inner_toMatch hle] at hi
    obtain ⟨c, hc, -⟩ := Option.map_eq_some_iff.1 hi
    rw [h.openStop_toMatch hle, h.innerStop_toMatch hle, hc]
    exact ⟨(plain (Tag.closeAt_eq_some_iff.1 h.reads.close).2.1).2,
      plain (h.encloses c hc).2.2.2.shown⟩
  exact {
    isPrefix_drop := standing
    add_length_le := by omega
    keeps := fun p hp hpr => slice ▸ Html.isProtected_slice (Nat.le_add_right ..)
      (fun _ => hclose) rfl hopen hback (by omega) hpr
    front := fun _ => hclose
    back := fun _ => hback }

theorem Reaches.cutOut (hs : s.ignoreHtml = true) (h : s.Reaches content base text) :
    Html.CutOut content base text := by
  induction h with
  | whole => exact .refl content
  | enclosed _ hm hi ih => exact ih.trans (cutOut_of_mem hs hm hi)

/-- Where HTML is read as such, an enclosed text inherits what is protected in it, for any names, and
so does each text further down from all those that it lies in. -/
theorem descent_inherits (names : List String) (content : String) :
    (∀ m ∈ ((Scanner.mk names true).scan content).found, ∀ inner, m.inner = some inner →
      Html.Inherits content ((Text.Offsets.ofText content).get m.openStop) inner) ∧
    ∀ base text, (Scanner.mk names true).Reaches content base text →
      Html.Inherits content ((Text.Offsets.ofText content).get base) text :=
  ⟨fun _ hm _ hi => (cutOut_of_mem rfl hm hi).inherits, fun _ _ h => (h.cutOut rfl).inherits⟩

/-- The name in the comment stays hidden from the text that the tag encloses. -/
theorem descent_inherits_comment :
    (let content := "<i>[b]é<!-- [b] -->[/b]</i>"
     Html.Inherits content 6 "é<!-- [b] -->" ∧ Html.ProtectsByte content (6 + 7) ∧
      Html.ProtectsByte "é<!-- [b] -->" 7) := by
  intro content
  have found : ∃ m ∈ (Scanner.mk ["b"] true |>.scan content).found,
      m.inner = some "é<!-- [b] -->" ∧ (Text.Offsets.ofText content).get m.openStop = 6 := by
    decide +kernel
  obtain ⟨m, hm, hi, hp⟩ := found
  have inherits := hp ▸ (descent_inherits ["b"] content).1 m hm _ hi
  have outside : Html.ProtectsByte content (6 + 7) := by
    refine ⟨(8, 20), ?_, by decide⟩
    decide +kernel
  exact ⟨inherits, outside, inherits.keeps 7 (by decide) outside⟩

end Scanner

end Shortcode
