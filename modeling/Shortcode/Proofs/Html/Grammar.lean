import Mathlib.Data.List.Basic
import Shortcode.Proofs.Html.Piece

namespace Shortcode

namespace Text

/-- The piece can be read off the text at the position. -/
def StandsAt (piece text : List Char) (p : Nat) : Prop := piece <+: text.drop p

instance (piece text : List Char) (p : Nat) : Decidable (StandsAt piece text p) :=
  inferInstanceAs (Decidable (piece <+: text.drop p))

/-- The first position from `start` on at which the piece stands. -/
structure FirstAt (piece text : List Char) (start p : Nat) : Prop where
  le : start ≤ p
  stands : StandsAt piece text p
  first : ∀ q, start ≤ q → StandsAt piece text q → p ≤ q

variable {piece text : List Char} {start p q : Nat}

theorem StandsAt.add_length_le (h : StandsAt piece text p) (hne : piece ≠ []) :
    p + piece.length ≤ text.length := by
  have hle := h.length_le
  have hpos := List.length_pos_iff.2 hne
  rw [List.length_drop] at hle
  omega

theorem standsAt_singleton {c : Char} : StandsAt [c] text p ↔ text[p]? = some c := by
  rw [StandsAt, ← List.head?_drop]
  cases text.drop p with
  | nil => simp
  | cons d rest => simp [List.cons_prefix_cons, eq_comm]

theorem standsAt_drop : StandsAt piece (text.drop start) p ↔ StandsAt piece text (start + p) := by
  rw [StandsAt, StandsAt, List.drop_drop]

theorem FirstAt.eq (h : FirstAt piece text start p) (h' : FirstAt piece text start q) : p = q :=
  Nat.le_antisymm (h.first q h'.le h'.stands) (h'.first p h.le h.stands)

theorem FirstAt.of_drop (h : FirstAt piece (text.drop start) 0 p) :
    FirstAt piece text start (start + p) where
  le := Nat.le_add_right start p
  stands := standsAt_drop.1 h.stands
  first q hq hs := by
    obtain ⟨d, rfl⟩ := Nat.exists_eq_add_of_le hq
    exact Nat.add_le_add_left (h.first d (Nat.zero_le d) (standsAt_drop.2 hs)) start

theorem firstAt_of_indexOf? {k : Nat} (h : indexOf? piece text = some k) :
    FirstAt piece text 0 k := by
  induction text generalizing k with
  | nil =>
    rw [indexOf?] at h
    split at h
    · next hp =>
      cases h
      rw [List.isEmpty_iff.1 hp]
      exact ⟨Nat.le_refl 0, List.nil_prefix, fun _ _ _ => Nat.zero_le _⟩
    · cases h
  | cons c rest ih =>
    rw [indexOf?] at h
    split at h
    · next hp =>
      cases h
      exact ⟨Nat.le_refl 0, List.isPrefixOf_iff_prefix.1 hp, fun _ _ _ => Nat.zero_le _⟩
    · next hp =>
      obtain ⟨j, hj, rfl⟩ := Option.map_eq_some_iff.1 h
      have found := ih hj
      refine ⟨Nat.zero_le _, found.stands, ?_⟩
      intro q _ hs
      cases q with
      | zero => exact absurd (List.isPrefixOf_iff_prefix.2 hs) hp
      | succ q => exact Nat.succ_le_succ (found.first q (Nat.zero_le q) hs)

theorem not_standsAt_of_indexOf? (h : indexOf? piece text = none) (p : Nat) :
    ¬ StandsAt piece text p := by
  induction text generalizing p with
  | nil =>
    rw [indexOf?] at h
    split at h
    · cases h
    · next hp =>
      rw [StandsAt, List.drop_nil, List.prefix_nil]
      exact fun hn => hp (List.isEmpty_iff.2 hn)
  | cons c rest ih =>
    rw [indexOf?] at h
    split at h
    · cases h
    · next hp =>
      cases p with
      | zero => exact fun hs => hp (List.isPrefixOf_iff_prefix.2 hs)
      | succ p => exact ih (Option.map_eq_none_iff.1 h) p

theorem firstAt_of_idxOf? {c : Char} {k : Nat} (h : text.idxOf? c = some k) :
    FirstAt [c] text 0 k := by
  obtain ⟨hlt, he, hfirst⟩ := List.idxOf?_eq_some_iff.1 h
  refine ⟨Nat.zero_le k, standsAt_singleton.2 (List.getElem?_eq_some_iff.2 ⟨hlt, he⟩), ?_⟩
  intro q _ hs
  obtain ⟨hq, hc⟩ := List.getElem?_eq_some_iff.1 (standsAt_singleton.1 hs)
  exact Nat.le_of_not_lt fun hlt => hfirst q hlt hc

end Text

namespace Html

open Text (StandsAt FirstAt)

def commentStart : List Char := ['<', '!', '-', '-']

def commentEnd : List Char := ['-', '-', '>']

/-- `<!--` through the first `-->` behind it, or to the end of the text if there is none. -/
structure IsComment (text : List Char) (s : Span) : Prop where
  opens : StandsAt commentStart text s.start
  closes : (∃ k, FirstAt commentEnd text (s.start + 4) k ∧ s.stop = k + 3) ∨
    (∀ k, s.start + 4 ≤ k → ¬ StandsAt commentEnd text k) ∧ s.stop = text.length

/-- A `<` that starts no comment, in front of a letter, `/`, `!` or `?`. -/
structure OpensTag (text : List Char) (p : Nat) : Prop where
  bracket : text[p]? = some '<'
  no_comment : ¬ StandsAt commentStart text p
  next : ∃ c, text[p + 1]? = some c ∧ startsTag c = true

/-- The beginning of a tag through the first `>`. -/
structure IsTag (text : List Char) (s : Span) : Prop where
  opens : OpensTag text s.start
  closes : ∃ k, FirstAt ['>'] text (s.start + 1) k ∧ s.stop = k + 1

/-- The beginning of a tag with no `>` behind it. -/
structure Unclosed (text : List Char) (p : Nat) : Prop where
  opens : OpensTag text p
  no_close : ∀ k, p < k → ¬ StandsAt ['>'] text k

def IsSpan (text : List Char) (s : Span) : Prop := IsComment text s ∨ IsTag text s

/-- A character with which neither a comment begins nor a tag that is closed. -/
structure IsPlain (text : List Char) (p : Nat) : Prop where
  lt_length : p < text.length
  no_comment : ¬ StandsAt commentStart text p
  no_tag : OpensTag text p → Unclosed text p

/-- The walk from one position to another, with the spans it finds. -/
inductive Walk (text : List Char) : Nat → List Span → Nat → Prop where
  | here {p : Nat} : Walk text p [] p
  | span {s : Span} {spans : List Span} {q : Nat} (hs : IsSpan text s)
    (h : Walk text s.stop spans q) : Walk text s.start (s :: spans) q
  | plain {p : Nat} {spans : List Span} {q : Nat} (hp : IsPlain text p)
    (h : Walk text (p + 1) spans q) : Walk text p spans q

/-- A comment is opened at the position, and the walk over the text has come to an unclosed tag in
front of it. -/
def LostAt (text : List Char) (q : Nat) : Prop :=
  ∃ front p, Walk text 0 front p ∧ Unclosed text p ∧ FirstAt commentStart text p q

variable {text : List Char} {s t : Span} {spans front back : List Span} {p q i : Nat}

theorem commentStart_le (h : StandsAt commentStart text p) : p + 4 ≤ text.length :=
  h.add_length_le (List.cons_ne_nil _ _)

theorem IsComment.bounds (h : IsComment text s) : s.start < s.stop ∧ s.stop ≤ text.length := by
  have hlt := commentStart_le h.opens
  obtain ⟨k, hk, hstop⟩ | ⟨-, hstop⟩ := h.closes
  · have hle := hk.le
    have hend : k + 3 ≤ text.length := hk.stands.add_length_le (List.cons_ne_nil _ _)
    omega
  · omega

theorem IsTag.bounds (h : IsTag text s) : s.start < s.stop ∧ s.stop ≤ text.length := by
  obtain ⟨k, hk, hstop⟩ := h.closes
  have hle := hk.le
  have hend := (List.getElem?_eq_some_iff.1 (Text.standsAt_singleton.1 hk.stands)).1
  omega

theorem IsSpan.bounds (h : IsSpan text s) : s.start < s.stop ∧ s.stop ≤ text.length :=
  h.elim IsComment.bounds IsTag.bounds

theorem IsComment.stop_eq (hs : IsComment text s) (ht : IsComment text t)
    (h : s.start = t.start) : s.stop = t.stop := by
  have closes := ht.closes
  rw [← h] at closes
  obtain ⟨k, hk, hstop⟩ | ⟨none, hstop⟩ := hs.closes
  · obtain ⟨k', hk', hstop'⟩ | ⟨none', -⟩ := closes
    · rw [hstop, hstop', hk.eq hk']
    · exact absurd hk.stands (none' k hk.le)
  · obtain ⟨k', hk', -⟩ | ⟨-, hstop'⟩ := closes
    · exact absurd hk'.stands (none k' hk'.le)
    · rw [hstop, hstop']

theorem IsTag.stop_eq (hs : IsTag text s) (ht : IsTag text t) (h : s.start = t.start) :
    s.stop = t.stop := by
  obtain ⟨k, hk, hstop⟩ := hs.closes
  obtain ⟨k', hk', hstop'⟩ := ht.closes
  rw [← h] at hk'
  rw [hstop, hstop', hk.eq hk']

/-- A comment or tag is known by its start. -/
theorem IsSpan.eq (hs : IsSpan text s) (ht : IsSpan text t) (h : s.start = t.start) : s = t := by
  have stop_eq : s.stop = t.stop := by
    rcases hs with hs | hs
    · rcases ht with ht | ht
      · exact hs.stop_eq ht h
      · exact absurd (h ▸ hs.opens) ht.opens.no_comment
    · rcases ht with ht | ht
      · exact absurd (h ▸ ht.opens) hs.opens.no_comment
      · exact hs.stop_eq ht h
  cases s
  cases t
  cases h
  cases stop_eq
  rfl

theorem IsSpan.not_unclosed (h : IsSpan text s) : ¬ Unclosed text s.start := by
  intro hu
  rcases h with h | h
  · exact hu.opens.no_comment h.opens
  · obtain ⟨k, hk, -⟩ := h.closes
    exact hu.no_close k hk.le hk.stands

theorem IsSpan.not_plain (h : IsSpan text s) : ¬ IsPlain text s.start := by
  intro hp
  rcases h with h | h
  · exact hp.no_comment h.opens
  · exact IsSpan.not_unclosed (.inr h) (hp.no_tag h.opens)

theorem Unclosed.lt_length (h : Unclosed text p) : p < text.length :=
  (List.getElem?_eq_some_iff.1 h.opens.bracket).1

/-- The comment that is opened at a position. -/
theorem isComment_commentLength (h : StandsAt commentStart text i) :
    IsComment text ⟨i, i + commentLength (text.drop (i + 4))⟩ := by
  refine ⟨h, ?_⟩
  rw [commentLength]
  cases hk : Text.indexOf? ['-', '-', '>'] (text.drop (i + 4)) with
  | some k =>
    refine .inl ⟨i + 4 + k, (Text.firstAt_of_indexOf? hk).of_drop, ?_⟩
    dsimp only
    omega
  | none =>
    right
    constructor
    · intro k hle hs
      obtain ⟨d, rfl⟩ := Nat.exists_eq_add_of_le hle
      exact Text.not_standsAt_of_indexOf? hk d (Text.standsAt_drop.2 hs)
    · have hlen := commentStart_le h
      dsimp only
      rw [List.length_drop]
      omega

theorem unclosed_of_notMem (ho : OpensTag text p) (h : '>' ∉ text.drop (p + 1)) :
    Unclosed text p := by
  refine ⟨ho, ?_⟩
  intro k hlt hs
  obtain ⟨d, rfl⟩ := Nat.exists_eq_add_of_lt hlt
  rw [Nat.add_right_comm, ← Text.standsAt_drop, Text.standsAt_singleton] at hs
  exact h (List.mem_of_getElem? hs)

/-- What a step of the walk over the characters says about the position. -/
def Step.Fits (text : List Char) (i : Nat) : Step → Prop
  | .plain => ¬ StandsAt commentStart text i ∧ ¬ OpensTag text i
  | .span more => IsSpan text ⟨i, i + (more + 1)⟩
  | .unclosed => Unclosed text i

section

variable {c : Char} {rest : List Char}

theorem standsAt_commentStart_iff (h : text.drop i = c :: rest) :
    StandsAt commentStart text i ↔ c = '<' ∧ ['!', '-', '-'] <+: rest := by
  rw [StandsAt, h, commentStart, List.cons_prefix_cons, eq_comm]

theorem opensTag_iff (h : text.drop i = c :: rest) :
    OpensTag text i ↔
      c = '<' ∧ ¬ ['!', '-', '-'] <+: rest ∧ rest.head?.any startsTag = true := by
  have hc : text[i]? = some c := by
    rw [← List.head?_drop, h]
    rfl
  have hnext : text[i + 1]? = rest.head? := by
    rw [← List.head?_drop, ← List.drop_drop, h]
    rfl
  rw [Option.any_eq_true, ← hnext]
  constructor
  · intro ho
    have hlt : c = '<' := Option.some.inj (hc.symm.trans ho.bracket)
    exact ⟨hlt, fun hp => ho.no_comment ((standsAt_commentStart_iff h).2 ⟨hlt, hp⟩), ho.next⟩
  · rintro ⟨rfl, hp, hs⟩
    exact ⟨hc, fun hs => hp ((standsAt_commentStart_iff h).1 hs).2, hs⟩

/-- What the walk over the characters finds is what the grammar allows for. -/
theorem stepAt_fits (h : text.drop i = c :: rest) : (stepAt c rest).Fits text i := by
  have behind : text.drop (i + 1) = rest := by
    rw [← List.drop_drop, h]
    rfl
  rw [stepAt]
  split
  · next hlt =>
    cases hp : ['!', '-', '-'].isPrefixOf? rest with
    | some body =>
      have hbody := List.isPrefixOf?_eq_some_iff_append_eq.1 hp
      have hdrop : text.drop (i + 4) = body := by
        rw [← List.drop_drop (i := 3), behind, ← hbody]
        rfl
      left
      rw [Nat.sub_add_cancel (commentLength_pos body), ← hdrop]
      exact isComment_commentLength ((standsAt_commentStart_iff h).2 ⟨hlt, body, hbody⟩)
    | none =>
      have hno : ¬ ['!', '-', '-'] <+: rest := by
        rintro ⟨body, hbody⟩
        rw [List.isPrefixOf?_eq_some_iff_append_eq.2 hbody] at hp
        cases hp
      dsimp only
      split
      · next hs =>
        have ho := (opensTag_iff h).2 ⟨hlt, hno, hs⟩
        cases hk : rest.idxOf? '>' with
        | some k =>
          rw [← behind] at hk
          refine .inr ⟨ho, i + 1 + k, (Text.firstAt_of_idxOf? hk).of_drop, ?_⟩
          dsimp only
          omega
        | none =>
          exact unclosed_of_notMem ho (behind ▸ List.idxOf?_eq_none_iff.1 hk)
      · next hs =>
        exact ⟨fun hs => hno ((standsAt_commentStart_iff h).1 hs).2,
          fun ho => hs ((opensTag_iff h).1 ho).2.2⟩
  · next hlt =>
    exact ⟨fun hs => hlt ((standsAt_commentStart_iff h).1 hs).1,
      fun ho => hlt ((opensTag_iff h).1 ho).1⟩

end

theorem Walk.le (h : Walk text p spans q) : p ≤ q := by
  induction h with
  | here => exact Nat.le_refl _
  | span hs _ ih => exact Nat.le_trans (Nat.le_of_lt hs.bounds.1) ih
  | plain _ _ ih => exact Nat.le_of_succ_le ih

theorem Walk.append (h : Walk text i front p) (h' : Walk text p back q) :
    Walk text i (front ++ back) q := by
  induction h with
  | here => exact h'
  | span hs _ ih => exact .span hs (ih h')
  | plain hp _ ih => exact .plain hp (ih h')

/-- Of two walks from one position the longer goes on where the shorter ends. -/
theorem Walk.split (h : Walk text i front p) (h' : Walk text i spans q) (hle : p ≤ q) :
    ∃ back, spans = front ++ back ∧ Walk text p back q := by
  induction h generalizing spans with
  | here => exact ⟨spans, rfl, h'⟩
  | @span s front p hs h ih =>
    have hlt : s.start < q := Nat.lt_of_lt_of_le hs.bounds.1 (Nat.le_trans h.le hle)
    generalize hstart : s.start = start at h' hlt
    cases h' with
    | here => exact absurd hlt (Nat.lt_irrefl _)
    | span ht h' =>
      obtain rfl := hs.eq ht hstart
      obtain ⟨back, rfl, hback⟩ := ih h' hle
      exact ⟨back, rfl, hback⟩
    | plain hp _ => exact absurd (hstart ▸ hp) hs.not_plain
  | plain hp h ih =>
    cases h' with
    | here => exact absurd (Nat.le_trans h.le hle) (Nat.not_succ_le_self _)
    | span ht _ => exact absurd hp ht.not_plain
    | plain _ h' => exact ih h' hle

/-- A walk that does not move finds nothing. -/
theorem Walk.eq_nil (h : Walk text p spans p) : spans = [] := by
  obtain ⟨back, hback, -⟩ := h.split .here (Nat.le_refl p)
  exact (List.append_eq_nil_iff.1 hback.symm).1

/-- A text has one walk to its end. -/
theorem Walk.eq (h : Walk text p front q) (h' : Walk text p back q) : front = back := by
  obtain ⟨more, rfl, hmore⟩ := h.split h' (Nat.le_refl q)
  rw [hmore.eq_nil, List.append_nil]

/-- Where no `>` follows, the walk finds nothing but a comment that is opened. -/
theorem exists_walk_of_no_close (hno : ∀ k, p ≤ k → ¬ StandsAt ['>'] text k)
    (hp : p ≤ text.length) :
    (∃ q, FirstAt commentStart text p q ∧ Walk text p [⟨q, text.length⟩] text.length) ∨
      (∀ q, p ≤ q → ¬ StandsAt commentStart text q) ∧ Walk text p [] text.length := by
  induction hn : text.length - p generalizing p with
  | zero =>
    obtain rfl : p = text.length := by omega
    refine .inr ⟨fun q hq hs => ?_, .here⟩
    have := commentStart_le hs
    omega
  | succ n ih =>
    by_cases hs : StandsAt commentStart text p
    · refine .inl ⟨p, ⟨Nat.le_refl p, hs, fun _ hq _ => hq⟩, ?_⟩
      refine Walk.span (s := ⟨p, text.length⟩) (.inl ⟨hs, .inr ⟨?_, rfl⟩⟩) .here
      -- a `-->` would bring a `>` with it
      intro k hk ⟨after, he⟩
      dsimp only at hk
      apply hno (k + 2) (by omega)
      rw [StandsAt, ← List.drop_drop, ← he]
      exact ⟨after, rfl⟩
    · have plain : IsPlain text p :=
        ⟨by omega, hs, fun ho => ⟨ho, fun k hk => hno k (Nat.le_of_lt hk)⟩⟩
      have before {q : Nat} (hq : p ≤ q) (hsq : StandsAt commentStart text q) : p + 1 ≤ q :=
        Nat.lt_of_le_of_ne hq fun he => hs (he ▸ hsq)
      rcases ih (fun k hk => hno k (by omega)) plain.lt_length (by omega) with
        ⟨q, hq, hw⟩ | ⟨hnone, hw⟩
      · exact .inl ⟨q, ⟨Nat.le_of_succ_le hq.le, hq.stands, fun r hr hsr =>
          hq.first r (before hr hsr) hsr⟩, .plain plain hw⟩
      · exact .inr ⟨fun q hq hsq => hnone q (before hq hsq) hsq, .plain plain hw⟩

/-- From an unclosed tag on, the walk finds nothing but a comment that is opened behind it. -/
theorem Unclosed.exists_walk (h : Unclosed text p) :
    (∃ q, FirstAt commentStart text p q ∧ Walk text p [⟨q, text.length⟩] text.length) ∨
      (∀ q, p ≤ q → ¬ StandsAt commentStart text q) ∧ Walk text p [] text.length := by
  refine exists_walk_of_no_close ?_ (Nat.le_of_lt h.lt_length)
  intro k hk hs
  rcases Nat.lt_or_eq_of_le hk with hlt | rfl
  · exact h.no_close k hlt hs
  · have hb := h.opens.bracket
    rw [Text.standsAt_singleton.1 hs] at hb
    cases hb

theorem spansFrom_skip (i skip : Nat) (text : List Char) :
    spansFrom i skip text = spansFrom (i + skip) 0 (text.drop skip) := by
  induction skip generalizing i text with
  | zero => rfl
  | succ skip ih =>
    cases text with
    | nil => rfl
    | cons c rest =>
      rw [spansFrom, ih, List.drop_succ_cons, Nat.add_right_comm, Nat.add_assoc]

/-- The spans are those of a walk to the end of the text, or to the first unclosed tag that it comes
to. -/
theorem walk_spansFrom (hi : i ≤ text.length) :
    ∃ p, Walk text i (spansFrom i 0 (text.drop i)) p ∧ (p = text.length ∨ Unclosed text p) ∧
      ∀ front q, Walk text i front q → Unclosed text q → p ≤ q := by
  induction hn : text.length - i using Nat.strongRecOn generalizing i with
  | ind n ih =>
    rcases Nat.lt_or_eq_of_le hi with hlt | rfl
    · have drop := List.drop_eq_getElem_cons hlt
      have fits := stepAt_fits drop
      rw [drop, spansFrom_cons]
      cases hstep : stepAt text[i] (text.drop (i + 1)) with
      | plain =>
        rw [hstep] at fits
        have plain : IsPlain text i := ⟨hlt, fits.1, fun ho => absurd ho fits.2⟩
        obtain ⟨p, h, hp, hfirst⟩ := ih _ (by omega) (Nat.succ_le_of_lt hlt) rfl
        refine ⟨p, .plain plain h, hp, ?_⟩
        intro front q hw hu
        cases hw with
        | here => exact absurd hu.opens fits.2
        | span hs _ => exact absurd plain hs.not_plain
        | plain _ hw => exact hfirst _ q hw hu
      | span more =>
        rw [hstep] at fits
        have hstop : i + 1 + more = i + (more + 1) := by omega
        have hle : i + (more + 1) ≤ text.length := fits.bounds.2
        obtain ⟨p, h, hp, hfirst⟩ := ih _ (by omega) hle rfl
        dsimp only
        rw [spansFrom_skip, List.drop_drop, hstop]
        refine ⟨p, Walk.span (s := ⟨i, i + (more + 1)⟩) fits h, hp, ?_⟩
        intro front q hw hu
        cases hw with
        | here => exact absurd hu fits.not_unclosed
        | span hs hw => exact hfirst _ q (hs.eq fits rfl ▸ hw) hu
        | plain hp _ => exact absurd hp fits.not_plain
      | unclosed =>
        rw [hstep] at fits
        exact ⟨i, .here, .inr fits, fun _ _ hw _ => hw.le⟩
    · refine ⟨_, ?_, .inl rfl, fun _ _ hw _ => hw.le⟩
      rw [List.drop_length]
      exact .here

theorem exists_walk_protectedSpans (text : List Char) :
    ∃ p, Walk text 0 (protectedSpans text) p ∧ (p = text.length ∨ Unclosed text p) ∧
      ∀ front q, Walk text 0 front q → Unclosed text q → p ≤ q :=
  walk_spansFrom (Nat.zero_le text.length)

theorem walk_of_not_lostAt (h : ¬ ∃ q, LostAt text q) :
    Walk text 0 (protectedSpans text) text.length := by
  obtain ⟨p, walk, rfl | hu, -⟩ := exists_walk_protectedSpans text
  · exact walk
  · rcases hu.exists_walk with ⟨q, hq, -⟩ | ⟨-, hw⟩
    · exact absurd ⟨q, _, p, walk, hu, hq⟩ h
    · have whole := walk.append hw
      rwa [List.append_nil] at whole

theorem LostAt.walk (h : LostAt text q) :
    Walk text 0 (protectedSpans text ++ [⟨q, text.length⟩]) text.length := by
  obtain ⟨front, p, hm, hu, hq⟩ := h
  obtain ⟨stop, walk, hend, hfirst⟩ := exists_walk_protectedSpans text
  have hle := hfirst front p hm hu
  have behind := (hend.resolve_left fun he => Nat.not_lt_of_le hle (he ▸ hu.lt_length)).exists_walk
  rcases hu.exists_walk with ⟨q', hq', hw'⟩ | ⟨hnone, -⟩
  · rcases behind with ⟨lost, -, hw⟩ | ⟨hnone, -⟩
    · -- both unclosed tags lose the comment with which the walk ends
      obtain ⟨-, hlast⟩ := List.append_inj' ((hm.append hw').eq (walk.append hw)) rfl
      rw [hq.eq hq', hlast]
      exact walk.append hw
    · exact absurd hq.stands (hnone q (Nat.le_trans hle hq.le))
  · exact absurd hq.stands (hnone q hq.le)

/-- A text has one walk to its end. The protected spans are those of this walk exactly if no comment
is lost behind an unclosed tag, and a comment that is lost is the last span of the walk. -/
theorem protectedSpans_walk (text : List Char) :
    ∃ spans, (∀ other, Walk text 0 other text.length ↔ other = spans) ∧
      (protectedSpans text = spans ↔ ¬ ∃ q, LostAt text q) ∧
      ∀ q, LostAt text q → spans = protectedSpans text ++ [⟨q, text.length⟩] := by
  have unique {spans : List Span} (h : Walk text 0 spans text.length) (other : List Span) :
      Walk text 0 other text.length ↔ other = spans :=
    ⟨fun h' => h'.eq h, fun he => he ▸ h⟩
  by_cases hl : ∃ q, LostAt text q
  · obtain ⟨lost, hlost⟩ := hl
    refine ⟨_, unique hlost.walk, ⟨fun he => ?_, fun hn => absurd ⟨lost, hlost⟩ hn⟩, ?_⟩
    · have hlen := congrArg List.length he
      rw [List.length_append] at hlen
      exact absurd hlen (Nat.ne_of_lt (Nat.lt_succ_self _))
    · intro q hq
      exact hlost.walk.eq hq.walk
  · refine ⟨_, unique (walk_of_not_lostAt hl), ⟨fun _ => hl, fun _ => rfl⟩, ?_⟩
    intro q hq
    exact absurd ⟨q, hq⟩ hl

/-- A tag that is closed, then one that is not, and a comment behind it. -/
theorem protectedSpans_walk_unclosed :
    (let text := "<b><i <!-- [t]".toList
     LostAt text 6 ∧ protectedSpans text = [⟨0, 3⟩] ∧ Walk text 0 [⟨0, 3⟩, ⟨6, 14⟩] 14) := by
  intro text
  have close : FirstAt ['>'] (text.drop 1) 0 1 := Text.firstAt_of_idxOf? rfl
  have tag : IsTag text ⟨0, 3⟩ := ⟨⟨rfl, by decide, 'b', rfl, rfl⟩, 2, close.of_drop, rfl⟩
  have unclosed : Unclosed text 3 := unclosed_of_notMem ⟨rfl, by decide, 'i', rfl, rfl⟩ (by decide)
  have opened : FirstAt commentStart (text.drop 3) 0 3 := Text.firstAt_of_indexOf? (by decide)
  have lost : LostAt text 6 := ⟨_, 3, .span (.inr tag) .here, unclosed, opened.of_drop⟩
  have shown : protectedSpans text = [⟨0, 3⟩] := by decide
  obtain ⟨spans, unique, -, last⟩ := protectedSpans_walk text
  have walk := (unique _).2 (last 6 lost).symm
  rw [shown] at walk
  exact ⟨lost, shown, walk⟩

/-- The walk goes on behind an unclosed tag to a comment, which is not protected. -/
theorem not_walk_protectedSpans :
    (let text := "<a <!-- [t]".toList
     protectedSpans text = [] ∧ Walk text 0 [⟨3, 11⟩] 11 ∧
      ¬ Walk text 0 (protectedSpans text) text.length) := by
  intro text
  have unclosed : Unclosed text 0 := unclosed_of_notMem ⟨rfl, by decide, 'a', rfl, rfl⟩ (by decide)
  have opened : FirstAt commentStart text 0 3 := Text.firstAt_of_indexOf? (by decide)
  have lost : LostAt text 3 := ⟨_, 0, .here, unclosed, opened⟩
  have shown : protectedSpans text = [] := by decide
  have walk : Walk text 0 (protectedSpans text ++ [⟨3, 11⟩]) text.length := lost.walk
  refine ⟨shown, shown ▸ walk, ?_⟩
  intro h
  have same := h.eq walk
  rw [shown] at same
  cases same

end Html

end Shortcode
