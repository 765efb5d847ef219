import Shortcode.Proofs.Attribute.Filed
import Shortcode.Proofs.Attribute.Reading

namespace Shortcode.Attribute

/-- A token whose value is in quotes that it does not contain, without special spaces that would be
folded. -/
structure Token.Quotable (t : Token) : Prop where
  formed : t.Formed
  quoted : t.quote ≠ .bare
  plain : ∀ c ∈ t.value, isSpecialSpace c = false

instance (t : Token) : Decidable t.Quotable :=
  decidable_of_iff (t.Formed ∧ t.quote ≠ .bare ∧ t.value.all (!isSpecialSpace ·) = true) (by
    simp only [List.all_eq_true, Bool.not_eq_true']
    exact ⟨fun h => ⟨h.1, h.2.1, h.2.2⟩, fun h => ⟨h.formed, h.quoted, h.plain⟩⟩)

/-- Characters that set tokens off from each other. -/
def IsGap (gap : List Char) : Prop := ∀ c ∈ gap, isSeparator c = true ∨ isSpecialSpace c = true

instance (gap : List Char) : Decidable (IsGap gap) :=
  decidable_of_iff (gap.all (fun c => isSeparator c || isSpecialSpace c) = true) (by simp [IsGap])

/-- Tokens with the gap in front of each but the first. -/
def printedRest (after : List Char) : List (List Char × Token) → List Char
  | [] => after
  | (gap, t) :: rest => gap ++ (t.text ++ printedRest after rest)

/-- An attribute text with at least one token, and with the given text in front and behind. -/
def printed (before : List Char) (first : Token) (rest : List (List Char × Token))
    (after : List Char) : List Char := before ++ (first.text ++ printedRest after rest)

variable {t : Token} {text gap after : List Char} {rest : List (List Char × Token)}

theorem foldSpaces_plain_append (h : ∀ c ∈ text, isSpecialSpace c = false) (after : List Char) :
    foldSpaces (text ++ after) = text ++ foldSpaces after := by
  induction text with
  | nil => rfl
  | cons c text ih =>
    obtain ⟨hc, htext⟩ := List.forall_mem_cons.1 h
    rw [List.cons_append, foldSpaces, hc, ih htext]
    rfl

/-- A gap in front of other text stays one, with nothing but separators in it. -/
theorem exists_foldSpaces_gap (h : IsGap gap) (after : List Char)
    (ha : after.head?.all (!isSpecialSpace ·) = true) :
    ∃ folded, (∀ c ∈ folded, isSeparator c = true) ∧ (gap ≠ [] → folded ≠ []) ∧
      foldSpaces (gap ++ after) = folded ++ foldSpaces after := by
  induction gap with
  | nil => exact ⟨[], nofun, id, rfl⟩
  | cons c gap ih =>
    obtain ⟨hc, hgap⟩ := List.forall_mem_cons.1 h
    obtain ⟨folded, hfolded, hne, he⟩ := ih hgap
    rw [List.cons_append, foldSpaces, he]
    by_cases hs : isSpecialSpace c = true
    · rw [if_pos hs]
      by_cases more : (gap ++ after).head?.any isSpecialSpace = true
      · -- the run goes on, so that its space is still to come
        have longer : gap ≠ [] := by
          rintro rfl
          rw [List.nil_append] at more
          cases hd : after.head? with
          | none => simp [hd] at more
          | some d => simp_all
        rw [if_pos more]
        exact ⟨folded, hfolded, fun _ => hne longer, rfl⟩
      · rw [if_neg more]
        refine ⟨' ' :: folded, ?_, nofun, rfl⟩
        exact List.forall_mem_cons.2 ⟨rfl, hfolded⟩
    · rw [if_neg hs]
      refine ⟨c :: folded, ?_, nofun, rfl⟩
      exact List.forall_mem_cons.2 ⟨hc.resolve_right hs, hfolded⟩

theorem isBlank_of_isNameChar {c : Char} (h : isNameChar c = true) : isBlank c = false := by
  rw [Bool.eq_false_iff]
  intro hs
  simp only [isBlank, isSpecialSpace, Bool.or_eq_true, decide_eq_true_eq] at hs
  rcases hs with (((((rfl | rfl) | rfl) | rfl) | rfl) | rfl) | (rfl | rfl) <;> cases h

theorem isSeparator_of_isNameChar {c : Char} (h : isNameChar c = true) : isSeparator c = false := by
  rw [Bool.eq_false_iff]
  intro hs
  simp only [isSeparator, Bool.or_eq_true, decide_eq_true_eq] at hs
  rcases hs with ((((rfl | rfl) | rfl) | rfl) | rfl) | rfl <;> cases h

theorem isSpecialSpace_of_isNameChar {c : Char} (h : isNameChar c = true) :
    isSpecialSpace c = false := (Bool.or_eq_false_iff.1 (isBlank_of_isNameChar h)).2

theorem Token.Quotable.plain_text (h : t.Quotable) : ∀ c ∈ t.text, isSpecialSpace c = false := by
  have hwrap : ∀ c ∈ t.quote.wrap t.value, isSpecialSpace c = false := by
    intro c hc
    cases hq : t.quote with
    | bare => exact absurd hq h.quoted
    | _ =>
      simp only [hq, Quote.wrap, List.cons_append, List.mem_cons, List.mem_append,
        List.not_mem_nil, or_false] at hc
      rcases hc with rfl | hc | rfl
      · rfl
      · exact h.plain c hc
      · rfl
  intro c hc
  unfold Token.text at hc
  split at hc
  · next name hn =>
    rcases List.mem_append.1 hc with hc | hc
    · exact isSpecialSpace_of_isNameChar ((h.formed.name name hn).2 c hc)
    · rcases List.mem_cons.1 hc with rfl | hc
      · rfl
      · exact hwrap c hc
  · exact hwrap c hc

/-- A token in quotes begins with its name or with a quote. -/
theorem Token.Quotable.exists_head (h : t.Quotable) :
    ∃ c text, t.text = c :: text ∧ isSeparator c = false ∧ isBlank c = false := by
  obtain ⟨name?, q, value⟩ := t
  cases name? with
  | some name =>
    obtain ⟨hne, hname⟩ := h.formed.name name rfl
    obtain ⟨c, name, rfl⟩ := List.exists_cons_of_ne_nil hne
    have hc := hname c List.mem_cons_self
    exact ⟨c, _, rfl, isSeparator_of_isNameChar hc, isBlank_of_isNameChar hc⟩
  | none =>
    cases q with
    | double => exact ⟨'"', _, rfl, rfl, rfl⟩
    | single => exact ⟨'\'', _, rfl, rfl, rfl⟩
    | bare => exact absurd rfl h.quoted

/-- Text that begins with no name has no named token in front. -/
theorem readShape_of_head {c : Char} (hc : isNameChar c = false) :
    ∀ shape ∈ [(true, Quote.double), (true, .single), (true, .bare)],
      readShape shape.1 shape.2 (c :: text) = none := by
  intro shape hm
  have named : shape.1 = true := by
    revert shape
    decide
  rw [named, readShape, if_pos rfl]
  simp only [List.takeWhile_cons, hc]
  split
  · rfl
  · rfl

/-- The value of a named token in quotes is none in the other quotes. -/
theorem readShape_named_single {name value : List Char} (hn : ∀ c ∈ name, isNameChar c = true) :
    readShape true .double (name ++ '=' :: '\'' :: value) = none := by
  have cut := takeWhile_append_of_all hn ('=' :: '\'' :: value) rfl
  simp only [readShape, cut, if_true]
  split <;> rfl

/-- What is read is the token of the first shape that can be read. -/
theorem readToken_of_earlier {back : List (Bool × Quote)} (front : List (Bool × Quote))
    (hs : shapes = front ++ t.shape :: back)
    (earlier : ∀ shape ∈ front, readShape shape.1 shape.2 text = none)
    (own : readShape t.name.isSome t.quote text = some (t, after)) (ha : atEnd after = true) :
    readToken text = some (t, after) := by
  have skip : front.findSome? (fun shape =>
      (readShape shape.1 shape.2 text).filter (atEnd ·.2)) = none := by
    apply List.findSome?_eq_none_iff.2
    intro shape hm
    rw [earlier shape hm, Option.filter_none]
  have kept : (readShape t.shape.1 t.shape.2 text).filter (atEnd ·.2) = some (t, after) := by
    rw [Token.shape, own]
    exact Option.filter_some_pos ha
  rw [readToken, hs, List.findSome?_append, skip, Option.none_or, List.findSome?_cons, kept]

/-- A token in quotes is read back: no shape that is tried earlier fits there. -/
theorem Token.Quotable.readToken_append (h : t.Quotable) (ha : atEnd after = true) :
    readToken (t.text ++ after) = some (t, after) := by
  have own := readShape_text h.formed ha
  obtain ⟨name?, q, value⟩ := t
  cases name? with
  | some name =>
    cases q with
    | double => exact readToken_of_earlier [] rfl nofun own ha
    | single =>
      refine readToken_of_earlier [(true, .double)] rfl ?_ own ha
      rw [List.forall_mem_singleton, Token.text, List.append_assoc]
      exact readShape_named_single (h.formed.name name rfl).2
    | bare => exact absurd rfl h.quoted
  | none =>
    cases q with
    | double => exact readToken_of_earlier _ rfl (readShape_of_head rfl) own ha
    | single =>
      refine readToken_of_earlier ([(true, .double), (true, .single), (true, .bare)] ++
        [(false, .double)]) rfl ?_ own ha
      exact List.forall_mem_append.2 ⟨readShape_of_head rfl, List.forall_mem_singleton.2 rfl⟩
    | bare => exact absurd rfl h.quoted

theorem tokens_append_of_separators (h : ∀ c ∈ gap, isSeparator c = true) (text : List Char) :
    tokens (gap ++ text) = tokens text := by
  have skip : (gap ++ text).dropWhile isSeparator = text.dropWhile isSeparator :=
    List.dropWhile_append_of_pos h
  cases hr : readToken (text.dropWhile isSeparator) with
  | none => rw [tokens_eq_nil hr, tokens_eq_nil (skip ▸ hr)]
  | some r => rw [tokens_eq_cons hr, tokens_eq_cons (skip ▸ hr)]

theorem Token.Quotable.tokens_append (h : t.Quotable) (ha : atEnd after = true) :
    tokens (t.text ++ after) = t :: tokens after := by
  obtain ⟨c, text, ht, hc, -⟩ := h.exists_head
  apply tokens_eq_cons
  have skip : (t.text ++ after).dropWhile isSeparator = t.text ++ after := by
    rw [ht, List.cons_append, List.dropWhile_cons_of_neg (by simp [hc])]
  rw [skip, h.readToken_append ha]

/-- What stands behind a gap is a token or the end of the text. -/
theorem head?_text_append (h : t.Quotable) (after : List Char) :
    (t.text ++ after).head?.all (!isSpecialSpace ·) = true := by
  obtain ⟨c, text, ht, -⟩ := h.exists_head
  have hc := h.plain_text c (by rw [ht]; exact List.mem_cons_self)
  rw [ht, List.cons_append, List.head?_cons]
  simp [hc]

/-- The rest of a printed text, with its gaps folded, keeps off from the token in front of it and is
read as its tokens. -/
theorem tokens_printedRest (hafter : IsGap after)
    (hrest : ∀ r ∈ rest, r.1 ≠ [] ∧ IsGap r.1 ∧ r.2.Quotable) :
    atEnd (foldSpaces (printedRest after rest)) = true ∧
      tokens (foldSpaces (printedRest after rest)) = rest.map (·.2) := by
  have ends {folded text : List Char} (hf : ∀ c ∈ folded, isSeparator c = true)
      (hne : folded ≠ []) : atEnd (folded ++ text) = true := by
    obtain ⟨c, folded, rfl⟩ := List.exists_cons_of_ne_nil hne
    exact hf c List.mem_cons_self
  induction rest with
  | nil =>
    obtain ⟨folded, hf, -, he⟩ := exists_foldSpaces_gap hafter [] rfl
    rw [List.append_nil, foldSpaces, List.append_nil] at he
    rw [printedRest, he]
    constructor
    · cases folded with
      | nil => rfl
      | cons c folded => exact hf c List.mem_cons_self
    · rw [← List.append_nil folded, tokens_append_of_separators hf]
      exact tokens_eq_nil rfl
  | cons r rest ih =>
    obtain ⟨⟨hne, hgap, ht⟩, hrest⟩ := List.forall_mem_cons.1 hrest
    obtain ⟨hend, htokens⟩ := ih hrest
    obtain ⟨gap, t⟩ := r
    obtain ⟨folded, hf, hfne, he⟩ := exists_foldSpaces_gap hgap _
      (head?_text_append ht (printedRest after rest))
    rw [printedRest, he, foldSpaces_plain_append ht.plain_text]
    refine ⟨ends hf (hfne hne), ?_⟩
    rw [tokens_append_of_separators hf, ht.tokens_append hend, htokens, List.map_cons]

end Shortcode.Attribute

namespace Shortcode.Written

open Attribute

variable {before after : List Char} {first : Token} {rest : List (List Char × Token)}

/-- A written text is read as the map of its values in their order. Named ones are filed under their
names in lower case and the others under their numbers, a key stands where it was first given, and it
has the value that was last given for it. -/
theorem parse_printed (hbefore : IsGap before) (hfirst : first.Quotable)
    (hrest : ∀ r ∈ rest, r.1 ≠ [] ∧ IsGap r.1 ∧ r.2.Quotable) (hafter : IsGap after) :
    ∃ m : Attributes,
      parse (String.ofList (printed before first rest after)) = .given m ∧
      m = .ofList (filed 0 (first :: rest.map (·.2))) ∧
      m.keys = ((filed 0 (first :: rest.map (·.2))).map (·.1)).eraseDups ∧
      ∀ key, m.get? key =
        ((filed 0 (first :: rest.map (·.2))).reverse.find? (·.1 = key)).map (·.2) := by
  obtain ⟨hend, htokens⟩ := tokens_printedRest hafter hrest
  obtain ⟨folded, hf, -, he⟩ := exists_foldSpaces_gap hbefore _
    (head?_text_append hfirst (printedRest after rest))
  have read : tokens (foldSpaces (printed before first rest after)) =
      first :: rest.map (·.2) := by
    rw [printed, he, foldSpaces_plain_append hfirst.plain_text, tokens_append_of_separators hf,
      hfirst.tokens_append hend, htokens]
  refine ⟨_, ?_, rfl, Attributes.keys_ofList _, Attributes.get?_ofList _⟩
  have blank : ¬ (printed before first rest after).all isBlank = true := by
    intro hb
    obtain ⟨c, text, ht, -, hc⟩ := hfirst.exists_head
    rw [List.all_eq_true.1 hb c (by simp [printed, ht])] at hc
    cases hc
  rw [parse, String.toList_ofList, if_neg blank, read, foldl_addToken_empty]

/-- Values that look like other tokens, and a name that is given twice. -/
theorem parse_printed_lookalikes :
    (let before := "\u200b\t".toList
     let first : Token := ⟨some "A".toList, .double, " b='c' [d] e=\u0009'f".toList⟩
     let rest : List (List Char × Token) :=
      [("\u00a0 \u200b".toList, ⟨none, .single, "a=\"1\" \"2".toList⟩),
        ("\x0b".toList, ⟨some "a".toList, .single, "\"=\"".toList⟩),
        ("\u00a0\u00a0".toList, ⟨none, .double, []⟩)]
     let after := "\x0c\u00a0".toList
     IsGap before ∧ first.Quotable ∧ (∀ r ∈ rest, r.1 ≠ [] ∧ IsGap r.1 ∧ r.2.Quotable) ∧
      IsGap after ∧
      parse (String.ofList (printed before first rest after)) =
        .given ⟨[(.name "a", "\"=\""), (.index 0, "a=\"1\" \"2"), (.index 1, "")], 2⟩) := by
  intro before first rest after
  have hbefore : IsGap before := by decide +kernel
  have hfirst : first.Quotable := by decide +kernel
  have hrest : ∀ r ∈ rest, r.1 ≠ [] ∧ IsGap r.1 ∧ r.2.Quotable := by decide +kernel
  have hafter : IsGap after := by decide +kernel
  obtain ⟨m, given, rfl, -⟩ := parse_printed hbefore hfirst hrest hafter
  refine ⟨hbefore, hfirst, hrest, hafter, ?_⟩
  rw [given]
  decide +kernel

end Shortcode.Written
