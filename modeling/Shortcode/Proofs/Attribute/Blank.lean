import Shortcode.Proofs.Attribute.Printed

namespace Shortcode

namespace Attribute

variable {text : List Char} {c : Char} {t : Token}

theorem mem_foldSpaces (h : c ∈ text) (hs : isSpecialSpace c = false) : c ∈ foldSpaces text := by
  induction text with
  | nil => cases h
  | cons d rest ih =>
    rw [foldSpaces]
    rcases List.mem_cons.1 h with rfl | h
    · rw [hs]
      exact List.mem_cons_self
    · have later := ih h
      split
      · split
        · exact later
        · exact List.mem_cons_of_mem _ later
      · exact List.mem_cons_of_mem _ later

theorem mem_of_mem_foldSpaces (h : c ∈ foldSpaces text) :
    c = ' ' ∨ c ∈ text ∧ isSpecialSpace c = false := by
  induction text with
  | nil => cases h
  | cons d rest ih =>
    have later (h : c ∈ foldSpaces rest) : c = ' ' ∨ c ∈ d :: rest ∧ isSpecialSpace c = false :=
      (ih h).imp_right fun h => ⟨List.mem_cons_of_mem d h.1, h.2⟩
    rw [foldSpaces] at h
    split at h
    · split at h
      · exact later h
      · rcases List.mem_cons.1 h with rfl | h
        · exact .inl rfl
        · exact later h
    · next hd =>
      rcases List.mem_cons.1 h with rfl | h
      · exact .inr ⟨List.mem_cons_self, Bool.eq_false_iff.2 hd⟩
      · exact later h

/-- A blank is the zero character, a special space, or a separator other than the form feed. -/
theorem isBlank_iff : isBlank c = true ↔
    c = '\x00' ∨ isSpecialSpace c = true ∨ isSeparator c = true ∧ c ≠ '\x0c' := by
  simp only [isBlank, isSeparator, Bool.or_eq_true, decide_eq_true_eq]
  constructor
  · rintro ((((((rfl | rfl) | rfl) | rfl) | rfl) | rfl) | h) <;> simp_all
  · rintro (rfl | h | ⟨((((rfl | rfl) | rfl) | rfl) | rfl) | rfl, h⟩) <;> simp_all

/-- A token can be read off the text somewhere. -/
theorem exists_fits_of_mem_tokens (h : t ∈ tokens text) : ∃ p, t.Fits (text.drop p) := by
  obtain ⟨placed, read, htokens⟩ := exists_readFrom text 0
  rw [List.drop_zero] at htokens
  rw [htokens] at h
  obtain ⟨a, ha, rfl⟩ := List.mem_map.1 h
  exact ⟨a.start, (read.fits a ha).fits⟩

/-- A character that is no separator belongs to a token. -/
theorem exists_token_of_mem (hc : c ∈ text) (hs : isSeparator c = false) :
    ∃ t ∈ tokens text, c ∈ t.text := by
  obtain ⟨placed, read, htokens⟩ := exists_readFrom text 0
  rw [List.drop_zero] at htokens
  obtain ⟨p, hp⟩ := List.getElem?_of_mem hc
  obtain ⟨a, ha, hle, hlt⟩ := read.covers p c (Nat.zero_le p) hp hs
  refine ⟨a.token, htokens ▸ List.mem_map_of_mem ha, ?_⟩
  obtain ⟨after, hafter⟩ := (read.fits a ha).fits.stands
  have inside : (text.drop a.start)[p - a.start]? = some c := by
    rw [List.getElem?_drop, Nat.add_sub_cancel' hle, hp]
  have hlen : p - a.start < a.token.text.length := by
    rw [Placed.stop] at hlt
    omega
  rw [← hafter, List.getElem?_append_left hlen] at inside
  exact List.mem_of_getElem? inside

/-- A token with neither `=` nor a quote in it holds no separator. -/
theorem isSeparator_of_mem_text (h : t.Formed) (hq : '"' ∉ t.text) (hs : '\'' ∉ t.text)
    (he : '=' ∉ t.text) : ∀ c ∈ t.text, isSeparator c = false := by
  obtain ⟨name?, q, value⟩ := t
  cases name? with
  | some name => exact absurd (by simp [Token.text]) he
  | none =>
    cases q with
    | double => exact absurd (by simp [Token.text, Quote.wrap]) hq
    | single => exact absurd (by simp [Token.text, Quote.wrap]) hs
    | bare => exact h.value.2

/-- In a text of separators and zero characters, tokens are runs of zero characters. -/
theorem eq_zero_of_mem_text (h : ∀ c ∈ text, c = '\x00' ∨ isSeparator c = true)
    (ht : t ∈ tokens text) : ∀ c ∈ t.text, c = '\x00' := by
  obtain ⟨p, fits⟩ := exists_fits_of_mem_tokens ht
  have inside : ∀ c ∈ t.text, c = '\x00' ∨ isSeparator c = true := fun c hc =>
    h c (List.mem_of_mem_drop (fits.stands.subset hc))
  have absent {d : Char} (hz : d ≠ '\x00') (hd : isSeparator d = false) : d ∉ t.text := by
    intro hm
    rcases inside d hm with hm | hm
    · exact hz hm
    · rw [hd] at hm
      cases hm
  have plain := isSeparator_of_mem_text fits.formed (absent (by decide) rfl)
    (absent (by decide) rfl) (absent (by decide) rfl)
  intro c hc
  refine (inside c hc).resolve_right ?_
  rw [plain c hc]
  exact Bool.false_ne_true

theorem eq_zero_of_blank (h : ∀ c ∈ text, isBlank c = true) (ht : t ∈ tokens (foldSpaces text)) :
    ∀ c ∈ t.text, c = '\x00' := by
  refine eq_zero_of_mem_text ?_ ht
  intro c hc
  rcases mem_of_mem_foldSpaces hc with rfl | ⟨hc, hspecial⟩
  · exact .inr rfl
  · rcases isBlank_iff.1 (h c hc) with hz | hs | ⟨hs, -⟩
    · exact .inl hz
    · rw [hspecial] at hs
      cases hs
    · exact .inr hs

/-- A character that is neither blank nor a form feed belongs to a token. -/
theorem exists_token_of_not_blank (hc : c ∈ text) (hb : isBlank c = false) (hf : c ≠ '\x0c') :
    ∃ t ∈ tokens (foldSpaces text), c ∈ t.text := by
  have hn := mt isBlank_iff.2 (Bool.eq_false_iff.1 hb)
  have hspecial : isSpecialSpace c = false := Bool.eq_false_iff.2 fun hs => hn (.inr (.inl hs))
  have hsep : isSeparator c = false := Bool.eq_false_iff.2 fun hs => hn (.inr (.inr ⟨hs, hf⟩))
  exact exists_token_of_mem (mem_foldSpaces hc hspecial) hsep

end Attribute

namespace Attributes

open Attribute

theorem put_ne_nil (key : Key) (value : String) (entries : List (Key × String)) :
    put key value entries ≠ [] := by
  cases entries with
  | nil => exact List.cons_ne_nil _ _
  | cons e entries =>
    rw [put]
    split
    · exact List.cons_ne_nil _ _
    · exact List.cons_ne_nil _ _

theorem isEmpty_insert (m : Attributes) (key : Key) (value : String) :
    (m.insert key value).isEmpty = false := by
  rw [isEmpty, List.isEmpty_eq_false_iff]
  exact put_ne_nil key value m.entries

/-- A token leaves a map with an entry at least. -/
theorem isEmpty_addToken (m : Attributes) (t : Token) : (m.addToken t).isEmpty = false := by
  rw [addToken]
  cases t.name with
  | some name => exact m.isEmpty_insert _ _
  | none => exact m.isEmpty_insert _ _

theorem isEmpty_foldl_addToken {ts : List Token} (h : ts ≠ []) (m : Attributes) :
    (ts.foldl addToken m).isEmpty = false := by
  rw [← List.dropLast_append_getLast h, List.foldl_append]
  exact isEmpty_addToken _ _

end Attributes

namespace Written

open Attribute

theorem parse_eq_absent_iff {text : String} :
    parse text = .absent ↔ ∀ c ∈ text.toList, isBlank c = true := by
  rw [parse, ← List.all_eq_true]
  split
  · next h => exact ⟨fun _ => h, fun _ => rfl⟩
  · next h =>
    constructor
    · intro absent
      cases absent
    · intro blank
      exact absurd blank h

/-- A text has no attributes exactly if no token but runs of zero characters can be read off it, and
otherwise at least one. Texts of blanks and form feeds are left out. -/
theorem parse_eq_absent_iff_tokens {text : String}
    (h : '\x0c' ∈ text.toList → ∃ c ∈ text.toList, isBlank c = false ∧ c ≠ '\x0c') :
    (parse text = .absent ↔
        ∀ t ∈ tokens (foldSpaces text.toList), ∀ c ∈ t.text, c = '\x00') ∧
      ∀ m, parse text = .given m → m.isEmpty = false := by
  by_cases blank : ∀ c ∈ text.toList, isBlank c = true
  · have absent := parse_eq_absent_iff.2 blank
    refine ⟨⟨fun _ t ht => eq_zero_of_blank blank ht, fun _ => absent⟩, ?_⟩
    intro m hm
    cases absent.symm.trans hm
  · obtain ⟨c, hc, hb, hf⟩ : ∃ c ∈ text.toList, isBlank c = false ∧ c ≠ '\x0c' := by
      push Not at blank
      obtain ⟨c, hc, hb⟩ := blank
      by_cases hf : c = '\x0c'
      · exact h (hf ▸ hc)
      · exact ⟨c, hc, Bool.eq_false_iff.2 hb, hf⟩
    obtain ⟨t, ht, hct⟩ := exists_token_of_not_blank hc hb hf
    refine ⟨⟨fun absent => absurd (parse_eq_absent_iff.1 absent) blank, fun zeros => ?_⟩, ?_⟩
    · rw [zeros t ht c hct] at hb
      cases hb
    · intro m hm
      rw [parse] at hm
      split at hm
      · cases hm
      · cases hm
        exact Attributes.isEmpty_foldl_addToken (List.ne_nil_of_mem ht) _

/-- Zero characters alone, and a zero character with a form feed before and text behind it. -/
theorem parse_eq_absent_iff_tokens_zero :
    parse " \x00\x00\u00a0" = .absent ∧
      tokens (foldSpaces " \x00\x00\u00a0".toList) = [⟨none, .bare, ['\x00', '\x00']⟩] ∧
      ∃ m, parse "\x0c\x00 a=" = .given m ∧ m.isEmpty = false := by
  have zeros : tokens (foldSpaces " \x00\x00\u00a0".toList) =
      [⟨none, .bare, ['\x00', '\x00']⟩] := by decide +kernel
  have read : parse "\x0c\x00 a=" = .given ⟨[(.index 0, "\x00"), (.index 1, "a=")], 2⟩ := by
    decide +kernel
  refine ⟨(parse_eq_absent_iff_tokens (by decide +kernel)).1.2 ?_, zeros, _, read, ?_⟩
  · rw [zeros]
    exact List.forall_mem_singleton.2 fun c hc => List.eq_of_mem_replicate (n := 2) hc
  · refine (parse_eq_absent_iff_tokens ?_).2 _ read
    exact fun _ => ⟨'a', by decide +kernel, by decide, by decide⟩

/-- A zero character is a token to be read, but no attribute. -/
theorem parse_zero :
    parse "\x00" = .absent ∧
      tokens (foldSpaces "\x00".toList) = [⟨none, .bare, ['\x00']⟩] ∧
      ¬ (parse "\x00" = .absent ↔ tokens (foldSpaces "\x00".toList) = []) := by
  have absent : parse "\x00" = .absent := by decide +kernel
  have token : tokens (foldSpaces "\x00".toList) = [⟨none, .bare, ['\x00']⟩] := by decide +kernel
  refine ⟨absent, token, ?_⟩
  intro h
  have none := h.1 absent
  rw [token] at none
  cases none

end Written

end Shortcode
