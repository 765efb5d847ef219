import Mathlib.Data.List.Induction
import Shortcode.Proofs.Engine.Placeholder

namespace Shortcode

namespace Template

variable {name digits : List Char} {i : Nat} {key : Key} {merged : Attributes} {written : Written}
  {content s : String}

/-- The decimal digits of a number, behind zeros or without. -/
def IsNumeral (name : List Char) (i : Nat) : Prop :=
  ∃ zeros, name = List.replicate zeros '0' ++ Nat.toDigits 10 i

/-- A number of 64 bits stands for an attribute without a name, all else for one with this name. -/
inductive Refers (name : List Char) : Key → Prop
  | index {i : Nat} : i < UInt64.size → IsNumeral name i → Refers name (.index i)
  | name : (∀ i < UInt64.size, ¬ IsNumeral name i) → Refers name (.name (String.ofList name))

theorem IsNumeral.isDigit (h : IsNumeral name i) : name.all Char.isDigit = true := by
  obtain ⟨zeros, rfl⟩ := h
  rw [List.all_append, Bool.and_eq_true, List.all_eq_true, List.all_eq_true]
  refine ⟨fun c hc => ?_, fun c hc => Nat.isDigit_of_mem_toDigits (by decide) (by decide) hc⟩
  rw [List.eq_of_mem_replicate hc]
  decide

theorem IsNumeral.value (h : IsNumeral name i) : Nat.ofDigitChars 10 name 0 = i := by
  obtain ⟨zeros, rfl⟩ := h
  rw [Nat.ofDigitChars_append, Nat.ofDigitChars_replicate_zero, Nat.mul_zero,
    Nat.ofDigitChars_ten_toDigits]

theorem exists_digitChar {c : Char} (h : c.isDigit = true) : ∃ d < 10, c = Nat.digitChar d := by
  obtain ⟨low, high⟩ : 48 ≤ c.toNat ∧ c.toNat ≤ 57 := by
    simpa [Char.isDigit, UInt32.le_iff_toNat_le] using h
  refine ⟨c.toNat - 48, by omega, ?_⟩
  have digits : ∀ d < 10, Char.ofNat (48 + d) = Nat.digitChar d := by decide
  rw [← digits _ (by omega), Nat.add_sub_cancel' low, Char.ofNat_toNat]

/-- Digits are those of the number that they are read as. -/
theorem isNumeral_of_isDigit (hn : digits ≠ []) (h : digits.all Char.isDigit = true) :
    IsNumeral digits (Nat.ofDigitChars 10 digits 0) := by
  induction digits using List.reverseRecOn with
  | nil => exact absurd rfl hn
  | append_singleton digits c ih =>
    rw [List.all_append, Bool.and_eq_true] at h
    obtain ⟨before, last⟩ := h
    obtain ⟨d, hd, rfl⟩ := exists_digitChar (List.all_eq_true.1 last c List.mem_cons_self)
    rw [Nat.ofDigitChars_append, Nat.ofDigitChars_cons_digitChar_of_lt_ten hd,
      Nat.ofDigitChars_nil, ← Nat.toDigits_of_lt_base hd]
    by_cases none : digits = []
    · subst none
      exact ⟨0, by simp⟩
    · obtain ⟨zeros, hz⟩ := ih none before
      rcases Nat.eq_zero_or_pos (Nat.ofDigitChars 10 digits 0) with zero | positive
      · rw [zero, Nat.toDigits_zero, ← List.replicate_succ'] at hz
        refine ⟨zeros + 1, ?_⟩
        rw [zero, Nat.mul_zero, Nat.zero_add, ← hz]
      · refine ⟨zeros, ?_⟩
        rw [← Nat.toDigits_append_toDigits (by decide) positive hd, ← List.append_assoc, ← hz]

theorem refers_iff (hn : name ≠ []) : Refers name key ↔ Template.key name = key := by
  rw [Template.key]
  split
  · next h =>
    rw [Bool.and_eq_true, decide_eq_true_iff] at h
    have numeral := isNumeral_of_isDigit hn h.1
    constructor
    · rintro (⟨-, hi⟩ | other)
      · rw [hi.value]
      · exact absurd numeral (other _ h.2)
    · rintro rfl
      exact .index h.2 numeral
  · next h =>
    have other (i : Nat) (hi : i < UInt64.size) : ¬ IsNumeral name i := by
      intro numeral
      refine h ?_
      rw [numeral.isDigit, numeral.value, decide_eq_true hi]
      rfl
    constructor
    · rintro (⟨hi, numeral⟩ | -)
      · exact absurd numeral (other _ hi)
      · rfl
    · rintro rfl
      exact .name other

/-- The text in place of a placeholder with this name: the enclosed text, or the value of the
attribute that the name stands for, merged or else as it is written, or else the placeholder. -/
inductive Replaced (merged : Attributes) (written : Written) (content : String)
    (name : List Char) : String → Prop
  | content : name = "content".toList → Replaced merged written content name content
  | merged {key : Key} {value : String} : name ≠ "content".toList → Refers name key →
      merged.get? key = some value → Replaced merged written content name value
  | written {key : Key} {value : String} : name ≠ "content".toList → Refers name key →
      merged.get? key = none → written.get? key = some value →
      Replaced merged written content name value
  | itself {key : Key} : name ≠ "content".toList → Refers name key → merged.get? key = none →
      written.get? key = none →
      Replaced merged written content name (String.ofList (Piece.placeholder name).text)

/-- What stands in place of a placeholder with this name. -/
def replacement (merged : Attributes) (written : Written) (content : String)
    (name : List Char) : String := String.ofList (fill merged written content (.placeholder name))

theorem filled_replacement (merged : Attributes) (written : Written) (content : String) :
    Piece.filled (replacement merged written content) = fill merged written content := by
  funext piece
  cases piece with
  | placeholder name => exact String.toList_ofList
  | plain c => rfl

theorem replacement_content (merged : Attributes) (written : Written) (content : String) :
    replacement merged written content "content".toList = content := by
  rw [replacement, fill, if_pos rfl, String.ofList_toList]

theorem replacement_of_refers (hn : name ≠ []) (hc : name ≠ "content".toList)
    (hk : Refers name key) :
    replacement merged written content name =
      ((merged.get? key).or (written.get? key)).getD
        (String.ofList (Piece.placeholder name).text) := by
  rw [replacement, fill, if_neg hc, (refers_iff hn).1 hk]
  cases (merged.get? key).or (written.get? key) with
  | none => rfl
  | some value => exact String.ofList_toList

theorem replaced_iff (hn : name ≠ []) :
    Replaced merged written content name s ↔ s = replacement merged written content name := by
  constructor
  · rintro (hc | ⟨hc, hk, hm⟩ | ⟨hc, hk, hm, hw⟩ | ⟨hc, hk, hm, hw⟩)
    · rw [hc, replacement_content]
    · rw [replacement_of_refers hn hc hk, hm]
      rfl
    · rw [replacement_of_refers hn hc hk, hm, hw]
      rfl
    · rw [replacement_of_refers hn hc hk, hm, hw]
      rfl
  · rintro rfl
    by_cases hc : name = "content".toList
    · subst hc
      rw [replacement_content]
      exact .content rfl
    · have hk := (refers_iff hn).2 rfl
      rw [replacement_of_refers hn hc hk]
      cases hm : merged.get? (Template.key name) with
      | some value => exact .merged hc hk hm
      | none =>
        cases hw : written.get? (Template.key name) with
        | some value => exact .written hc hk hm hw
        | none => exact .itself hc hk hm hw

/-- The enclosed text as it is shown: none is empty, and it is expanded, once, if the template asks
for that. -/
def enclosed (t : Template) (answer : String → Logged (Option String)) :
    Option String → Logged (Option String)
  | none => ⟨some "", []⟩
  | some inner => if t.expandContent then answer inner else ⟨some inner, []⟩

/-- The text of a template with something else in place of its placeholders. -/
def rendered (t : Template) (replacement : List Char → String) : String :=
  Text.concatenation t.text ((Placeholder.allIn t.text.toList).map (Placeholder.edit replacement))

theorem run_handler (t : Template) (c : Context) (written : Written) (inner : Option String)
    (answer : String → Logged (Option String)) :
    (t.handler c written inner).run answer = (t.enclosed answer inner).andThen fun content =>
      ⟨some (t.rendered (replacement (c.merge t.defaults written) written content)), []⟩ := by
  have shown (content : String) :
      String.ofList ((Piece.split t.text.toList).flatMap
        (fill (c.merge t.defaults written) written content)) =
        t.rendered (replacement (c.merge t.defaults written) written content) := by
    rw [rendered, ← Placeholder.flatMap_filled_split, filled_replacement]
  unfold handler
  simp only [shown]
  cases inner with
  | none => rfl
  | some inner =>
    rw [enclosed]
    cases t.expandContent <;> rfl

/-- Placeholders share no character, and what a template is rendered to is its text with each of
them replaced and all else unchanged: by what its name decides, given the attributes and the
enclosed text, which is expanded once or not at all. -/
theorem handler_substitutes (t : Template) (e : Engine) (tag : String) (written : Written)
    (inner : Option String) :
    let merged := (e.context tag).merge t.defaults written
    (∀ p q : Placeholder, p.StandsIn t.text.toList → q.StandsIn t.text.toList →
      p = q ∨ p.stop ≤ q.start ∨ q.stop ≤ p.start) ∧
    ∃ (places : List Placeholder) (replacement : String → List Char → String),
      places.Pairwise (fun p q => p.stop ≤ q.start) ∧
      (∀ p, p ∈ places ↔ p.StandsIn t.text.toList) ∧
      (∀ content name, name ≠ [] → ∀ s,
        Replaced merged written content name s ↔ s = replacement content name) ∧
      ∀ answer : String → Logged (Option String),
        (t.handler (e.context tag) written inner).run answer =
          (t.enclosed answer inner).andThen fun content =>
            ⟨some (Text.concatenation t.text
              (places.map fun p => ⟨p.start, p.stop, replacement content p.name⟩)), []⟩ := by
  intro merged
  refine ⟨fun p q hp hq => hp.eq_or_apart hq, Placeholder.allIn t.text.toList,
    replacement merged written, Placeholder.pairwise_among 0 _, Placeholder.mem_allIn,
    fun content name hn s => replaced_iff hn, fun answer => ?_⟩
  exact run_handler t (e.context tag) written inner answer

/-- Braces beside and inside of placeholders, a number with zeros and one of more than 64 bits, and
values and an enclosed text that look like placeholders. -/
theorem handler_substitutes_braces :
    let t : Template := ⟨"{{a}}\x7ba{007}{18446744073709551616}{content}{}\x7bb",
      .ofList [(.name "a", "{0}")], true⟩
    let e : Engine := ⟨⟨[("t", t.handler), ("y", fun _ _ _ => pure "{a}")],
      by decide, by decide⟩, .empty, false⟩
    let written := Written.parse " 0 1 2 3 4 5 6 {content} 18446744073709551616=n"
    ((t.handler (e.context "t") written (some "[y]{0}")).run (e.expandWithin 1)).value =
      some "{{0}}\x7ba{content}n{a}{0}{}\x7bb" := by
  intro t e written
  obtain ⟨-, places, replacement, sorted, mem, decided, run⟩ :=
    t.handler_substitutes e "t" written (some "[y]{0}")
  have enclosed : (t.enclosed (e.expandWithin 1) (some "[y]{0}")).value = some "{a}{0}" := by
    decide +kernel
  have found : places = [⟨1, "a".toList⟩, ⟨7, "007".toList⟩, ⟨12, "18446744073709551616".toList⟩,
      ⟨34, "content".toList⟩] := by
    rw [Placeholder.eq_allIn sorted mem]
    decide +kernel
  have value (name : String) (s : String) (hn : name.toList ≠ []) (hs : s = Template.replacement
      ((e.context "t").merge t.defaults written) written "{a}{0}" name.toList) :
      replacement "{a}{0}" name.toList = s :=
    ((decided _ _ hn s).1 ((replaced_iff hn).2 hs)).symm
  rw [run, Logged.andThen, enclosed, found]
  simp only [List.map_cons, List.map_nil,
    value "a" "{0}" (by decide) (by decide +kernel),
    value "007" "{content}" (by decide) (by decide +kernel),
    value "18446744073709551616" "n" (by decide) (by decide +kernel),
    value "content" "{a}{0}" (by decide) (by decide +kernel)]
  decide +kernel

end Template

end Shortcode
