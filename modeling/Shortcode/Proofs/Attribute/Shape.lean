import Mathlib.Data.List.Basic
import Shortcode.Attribute.Token

namespace Shortcode.Attribute

/-- The quotes can be put around the value so that it ends where it should. -/
def Quote.Encloses : Quote → List Char → Prop
  | .double, value => '"' ∉ value
  | .single, value => '\'' ∉ value
  | .bare, value => value ≠ [] ∧ ∀ c ∈ value, isSeparator c = false

instance : (q : Quote) → (value : List Char) → Decidable (q.Encloses value)
  | .double, value => inferInstanceAs (Decidable ('"' ∉ value))
  | .single, value => inferInstanceAs (Decidable ('\'' ∉ value))
  | .bare, value =>
    decidable_of_iff (value ≠ [] ∧ value.all (!isSeparator ·) = true) (by simp [Quote.Encloses])

structure Token.Formed (t : Token) : Prop where
  name : ∀ name, t.name = some name → name ≠ [] ∧ ∀ c ∈ name, isNameChar c = true
  value : t.quote.Encloses t.value

instance (t : Token) : Decidable t.Formed :=
  decidable_of_iff (t.name.all (fun name => name ≠ [] && name.all isNameChar) = true ∧
      t.quote.Encloses t.value) (by
    rw [Option.all_eq_true]
    simp only [Bool.and_eq_true, decide_eq_true_eq, List.all_eq_true]
    exact ⟨fun h => ⟨h.1, h.2⟩, fun h => ⟨h.name, h.value⟩⟩)

/-- Whether a token is named, and what its quotes are. -/
def Token.shape (t : Token) : Bool × Quote := (t.name.isSome, t.quote)

/-- The place of a token's shape among the shapes in the order in which they are tried. -/
def Token.rank (t : Token) : Nat := shapes.idxOf t.shape

/-- The token can be read at the front of a text. -/
structure Token.Fits (t : Token) (text : List Char) : Prop where
  formed : t.Formed
  stands : t.text <+: text
  apart : atEnd (text.drop t.text.length) = true

/-- Of the tokens that fit at the front of a text, none has a shape that is tried earlier. -/
structure Token.FitsFirst (t : Token) (text : List Char) : Prop where
  fits : t.Fits text
  first : ∀ other : Token, other.Fits text → t.rank ≤ other.rank

variable {t : Token} {text after value : List Char} {q : Quote}

theorem takeWhile_append_of_all {p : Char → Bool} (hv : ∀ c ∈ value, p c = true)
    (after : List Char) (ha : after.head?.all (!p ·) = true) :
    (value ++ after).takeWhile p = value ∧ (value ++ after).dropWhile p = after := by
  have stop : after.takeWhile p = [] ∧ after.dropWhile p = after := by
    cases after with
    | nil => exact ⟨rfl, rfl⟩
    | cons c rest =>
      have hc : p c = false := by simpa using ha
      simp [hc]
  rw [List.takeWhile_append_of_pos hv, List.dropWhile_append_of_pos hv, stop.1, stop.2,
    List.append_nil]
  exact ⟨rfl, rfl⟩

theorem readUntil_append {mark : Char} (h : mark ∉ value) :
    readUntil mark (value ++ mark :: after) = some (value, after) := by
  have plain : ∀ c ∈ value, (c != mark) = true := by
    rintro c hc
    rw [bne_iff_ne]
    rintro rfl
    exact h hc
  have cut := takeWhile_append_of_all plain (mark :: after) (by simp)
  rw [readUntil, cut.1, cut.2]

theorem notMem_of_readUntil {mark : Char} (h : readUntil mark text = some (value, after)) :
    mark ∉ value := by
  unfold readUntil at h
  split at h
  · cases h
  · obtain ⟨rfl, -⟩ := Prod.mk.injEq .. ▸ Option.some.injEq .. ▸ h
    intro hm
    have := List.all_eq_true.1 List.all_takeWhile _ hm
    simp at this

/-- A value is read back, with quotes whatever follows, and bare in front of a separator. -/
theorem readValue_wrap (h : q.Encloses value) (ha : atEnd after = true) :
    readValue q (q.wrap value ++ after) = some (value, after) := by
  cases q with
  | double =>
    rw [Quote.wrap, List.append_assoc, List.cons_append]
    exact readUntil_append h
  | single =>
    rw [Quote.wrap, List.append_assoc, List.cons_append]
    exact readUntil_append h
  | bare =>
    have plain : ∀ c ∈ value, (!isSeparator c) = true := fun c hc => by rw [h.2 c hc]; rfl
    have cut := takeWhile_append_of_all plain after (by simpa [atEnd] using ha)
    simp only [readValue, Quote.wrap, cut]
    rw [if_neg fun he => h.1 (List.isEmpty_iff.1 he)]

theorem encloses_of_readValue (h : readValue q text = some (value, after)) :
    q.Encloses value := by
  cases q with
  | double =>
    unfold readValue at h
    split at h
    · exact notMem_of_readUntil h
    · contradiction
    · contradiction
    · contradiction
  | single =>
    unfold readValue at h
    split at h
    · contradiction
    · exact notMem_of_readUntil h
    · contradiction
    · contradiction
  | bare =>
    have ne := readValue_bare_ne_nil h
    refine ⟨ne, fun c hc => ?_⟩
    unfold readValue at h
    dsimp only at h
    split at h
    · cases h
    · obtain ⟨rfl, -⟩ := Prod.mk.injEq .. ▸ Option.some.injEq .. ▸ h
      have := List.all_eq_true.1 List.all_takeWhile _ hc
      simpa using this

theorem readShape_text (h : t.Formed) (ha : atEnd after = true) :
    readShape t.name.isSome t.quote (t.text ++ after) = some (t, after) := by
  obtain ⟨name?, q, value⟩ := t
  have hv : readValue q (q.wrap value ++ after) = some (value, after) := readValue_wrap h.value ha
  cases name? with
  | none =>
    change (readValue q (q.wrap value ++ after)).map _ = _
    rw [hv]
    rfl
  | some name =>
    obtain ⟨hne, hname⟩ := h.name name rfl
    have cut := takeWhile_append_of_all hname ('=' :: (q.wrap value ++ after)) rfl
    simp only [readShape, Token.text, List.append_assoc, List.cons_append, cut, Option.isSome_some,
      if_true, hv]
    rw [if_neg fun he => hne (List.isEmpty_iff.1 he)]
    rfl

theorem formed_of_readShape {named : Bool} (h : readShape named q text = some (t, after)) :
    t.Formed ∧ t.shape = (named, q) := by
  cases named with
  | false =>
    obtain ⟨value, hv, rfl⟩ := readShape_positional h
    exact ⟨⟨nofun, encloses_of_readValue hv⟩, rfl⟩
  | true =>
    obtain ⟨value, rest, -, hv, rfl⟩ := readShape_named h
    refine ⟨⟨?_, encloses_of_readValue hv⟩, rfl⟩
    rintro name ⟨⟩
    refine ⟨?_, fun c hc => List.all_eq_true.1 List.all_takeWhile _ hc⟩
    intro he
    unfold readShape at h
    simp only [if_true, he, List.isEmpty_nil] at h
    split at h <;> contradiction

/-- A shape is tried with success if a token of the shape fits. -/
theorem tried_eq_some_iff {shape : Bool × Quote} :
    (readShape shape.1 shape.2 text).filter (atEnd ·.2) = some (t, after) ↔
      t.shape = shape ∧ t.Fits text ∧ after = text.drop t.text.length := by
  rw [Option.filter_eq_some_iff]
  constructor
  · rintro ⟨hr, ha⟩
    obtain ⟨formed, hs⟩ := formed_of_readShape hr
    obtain rfl := readShape_eq hr
    rw [List.drop_left]
    exact ⟨hs, ⟨formed, List.prefix_append _ _, by rwa [List.drop_left]⟩, rfl⟩
  · rintro ⟨rfl, fits, rfl⟩
    obtain ⟨rest, rfl⟩ := fits.stands
    have apart := fits.apart
    rw [List.drop_left] at apart ⊢
    exact ⟨readShape_text fits.formed apart, apart⟩

theorem text_ne_nil_of_fits (h : t.Fits text) : t.text ≠ [] :=
  text_ne_nil_of_readShape (Option.filter_eq_some_iff.1 (tried_eq_some_iff.2 ⟨rfl, h, rfl⟩)).1

theorem mem_shapes (shape : Bool × Quote) : shape ∈ shapes := by
  obtain ⟨named, q⟩ := shape
  cases named <;> cases q <;> decide

/-- Two tokens of one shape do not both fit. -/
theorem Token.Fits.eq {other : Token} (h : t.Fits text) (ho : other.Fits text)
    (hs : t.shape = other.shape) : t = other := by
  have ht := tried_eq_some_iff.2 ⟨rfl, h, rfl⟩
  have hother := tried_eq_some_iff.2 ⟨rfl, ho, rfl⟩
  rw [hs, hother] at ht
  exact (Prod.mk.inj (Option.some.inj ht)).1.symm

theorem Token.FitsFirst.eq {other : Token} (h : t.FitsFirst text) (ho : other.FitsFirst text) :
    t = other := by
  apply h.fits.eq ho.fits
  have rank : t.rank = other.rank := Nat.le_antisymm (h.first _ ho.fits) (ho.first _ h.fits)
  exact (List.idxOf_inj (mem_shapes _)).1 rank

/-- Reading tries the shapes in order, so it finds the token that fits with the first of them. -/
theorem fitsFirst_of_readToken (h : readToken text = some (t, after)) :
    t.FitsFirst text ∧ after = text.drop t.text.length := by
  obtain ⟨front, shape, back, hshapes, hshape, hfront⟩ := List.findSome?_eq_some_iff.1 h
  obtain ⟨rfl, fits, rfl⟩ := tried_eq_some_iff.1 hshape
  have earlier {other : Token} (ho : other.Fits text) : other.shape ∉ front := by
    intro hm
    have := hfront _ hm
    rw [tried_eq_some_iff.2 ⟨rfl, ho, rfl⟩] at this
    cases this
  refine ⟨⟨fits, fun other ho => ?_⟩, rfl⟩
  rw [Token.rank, Token.rank, hshapes, List.idxOf_append_of_notMem (earlier fits),
    List.idxOf_append_of_notMem (earlier ho), List.idxOf_cons_self]
  exact Nat.le_add_right _ _

theorem exists_readToken {other : Token} (h : other.Fits text) :
    ∃ t, readToken text = some (t, text.drop t.text.length) := by
  have found : (readToken text).isSome = true := by
    rw [readToken, List.isSome_findSome?, List.any_eq_true]
    refine ⟨other.shape, mem_shapes _, ?_⟩
    rw [tried_eq_some_iff.2 ⟨rfl, h, rfl⟩]
    rfl
  obtain ⟨⟨t, after⟩, ht⟩ := Option.isSome_iff_exists.1 found
  exact ⟨t, by rw [ht, (fitsFirst_of_readToken ht).2]⟩

theorem readToken_eq_some_iff :
    readToken text = some (t, after) ↔ t.FitsFirst text ∧ after = text.drop t.text.length := by
  constructor
  · exact fitsFirst_of_readToken
  · rintro ⟨h, rfl⟩
    obtain ⟨other, ho⟩ := exists_readToken h.fits
    rwa [h.eq (fitsFirst_of_readToken ho).1]

/-- Whatever stands in front of the next separator can be read, as a bare run at the least. -/
theorem exists_fitsFirst {c : Char} (hc : isSeparator c = false) (rest : List Char) :
    ∃ t : Token, t.FitsFirst (c :: rest) := by
  let run := (c :: rest).takeWhile (!isSeparator ·)
  let behind := (c :: rest).dropWhile (!isSeparator ·)
  have whole : run ++ behind = c :: rest := List.takeWhile_append_dropWhile
  have fits : Token.Fits ⟨none, .bare, run⟩ (c :: rest) := by
    refine ⟨⟨nofun, ?_, ?_⟩, List.takeWhile_prefix _, ?_⟩
    · simp [run, hc]
    · intro d hd
      have := List.all_eq_true.1 List.all_takeWhile d hd
      simpa using this
    · change atEnd ((c :: rest).drop run.length) = true
      rw [← whole, List.drop_left]
      have stop := List.head?_dropWhile_not (!isSeparator ·) (c :: rest)
      rw [atEnd]
      cases hd : behind.head? with
      | none => rfl
      | some d =>
        rw [show ((c :: rest).dropWhile (!isSeparator ·)).head? = some d from hd] at stop
        simpa using stop
  obtain ⟨t, ht⟩ := exists_readToken fits
  exact ⟨t, (fitsFirst_of_readToken ht).1⟩

end Shortcode.Attribute
