import Shortcode.Proofs.Tag.Mark

namespace Shortcode

/-- The ways to write a tag that encloses nothing. -/
inductive Form where
  | selfClosing
  | bare
  | literal
  deriving DecidableEq, Repr

/-- Pieces of text and tags one after the other. An enclosing tag holds a document of its own. -/
inductive Document where
  | done
  | text (piece : String) (rest : Document)
  | tag (form : Form) (name attrText : String) (rest : Document)
  | enclosing (name attrText : String) (children rest : Document)
  deriving DecidableEq, Repr

/-- What stands in an opening tag behind its name and in front of the `]`. -/
def Form.inside (form : Form) (attrText : String) : List Char :=
  match form with
  | .selfClosing => attrText.toList ++ ['/']
  | .bare | .literal => attrText.toList

/-- An opening tag. -/
def openingTag (name : String) (inside : List Char) : List Char :=
  '[' :: (name.toList ++ (inside ++ [']']))

def closingTag (name : String) : List Char := '[' :: '/' :: (name.toList ++ [']'])

theorem length_openingTag (name : String) (inside : List Char) :
    (openingTag name inside).length = name.toList.length + inside.length + 2 := by
  simp only [openingTag, List.length_cons, List.length_append, List.length_nil]
  omega

theorem length_closingTag (name : String) :
    (closingTag name).length = name.toList.length + 3 := by
  simp [closingTag]

def Form.print (form : Form) (name attrText : String) : List Char :=
  match form with
  | .literal => '[' :: (openingTag name (form.inside attrText) ++ [']'])
  | .selfClosing | .bare => openingTag name (form.inside attrText)

/-- An attribute text that can be printed behind a name: a space sets it off from the name, and it
does not end the tag. -/
structure IsAttrText (attrText : String) : Prop where
  plain : ∀ c ∈ attrText.toList, c ≠ '[' ∧ c ≠ ']' ∧ c ≠ '<'
  space : ∀ c, attrText.toList.head? = some c → c ∈ [' ', '\t', '\n', '\x0c', '\r']
  slash : attrText.toList.getLast? ≠ some '/'

instance (attrText : String) : Decidable (IsAttrText attrText) :=
  decidable_of_iff (attrText.toList.all (fun c => c ≠ '[' && c ≠ ']' && c ≠ '<') = true ∧
      attrText.toList.head?.all (· ∈ [' ', '\t', '\n', '\x0c', '\r']) = true ∧
      attrText.toList.getLast? ≠ some '/') (by
    constructor
    · rintro ⟨hp, hs, hl⟩
      refine ⟨?_, ?_, hl⟩
      · intro c hc
        have := List.all_eq_true.1 hp c hc
        simpa [and_assoc] using this
      · intro c hc
        rw [hc] at hs
        exact of_decide_eq_true hs
    · intro h
      refine ⟨?_, ?_, h.slash⟩
      · apply List.all_eq_true.2
        intro c hc
        simp [h.plain c hc]
      · cases hc : attrText.toList.head? with
        | none => rfl
        | some c => exact decide_eq_true (h.space c hc))

theorem IsAttrText.inside {attrText : String} (h : IsAttrText attrText) (form : Form) :
    (∀ c ∈ form.inside attrText, c ≠ '[' ∧ c ≠ ']' ∧ c ≠ '<') ∧
    (∀ c, (form.inside attrText).head? = some c → Tag.isReserved c = true) ∧
    ((form.inside attrText).getLast? = some '/' ↔ form = .selfClosing) := by
  have space (c : Char) (hc : c ∈ [' ', '\t', '\n', '\x0c', '\r']) : Tag.isReserved c = true := by
    simp only [List.mem_cons, List.not_mem_nil, or_false] at hc
    rcases hc with rfl | rfl | rfl | rfl | rfl <;> rfl
  have plain : (∀ c ∈ attrText.toList, c ≠ '[' ∧ c ≠ ']' ∧ c ≠ '<') ∧
      (∀ c, attrText.toList.head? = some c → Tag.isReserved c = true) :=
    ⟨h.plain, fun c hc => space c (h.space c hc)⟩
  cases form with
  | selfClosing =>
    refine ⟨?_, ?_, by simp [Form.inside]⟩
    · intro c hc
      rcases List.mem_append.1 hc with hc | hc
      · exact h.plain c hc
      · rw [List.mem_singleton.1 hc]
        decide
    · intro c hc
      cases ha : attrText.toList with
      | nil =>
        simp only [Form.inside, ha, List.nil_append, List.head?_cons, Option.some.injEq] at hc
        rw [← hc]
        rfl
      | cons d attrs =>
        simp only [Form.inside, ha, List.cons_append, List.head?_cons] at hc
        exact plain.2 c (by rw [ha, List.head?_cons, hc])
  | bare => exact ⟨plain.1, plain.2, by simp [Form.inside, h.slash]⟩
  | literal => exact ⟨plain.1, plain.2, by simp [Form.inside, h.slash]⟩

namespace Document

def chars : Document → List Char
  | .done => []
  | .text piece rest => piece.toList ++ rest.chars
  | .tag form name attrText rest => form.print name attrText ++ rest.chars
  | .enclosing name attrText children rest =>
    openingTag name attrText.toList ++ (children.chars ++ (closingTag name ++ rest.chars))

def print (d : Document) : String := String.ofList d.chars

/-- Each tag bears one of the names, and a name either always encloses something or is bare. -/
def WellFormed (names : List String) (encloses : String → Prop) : Document → Prop
  | .done => True
  | .text piece rest =>
    (∀ c ∈ piece.toList, c ≠ '[' ∧ c ≠ ']' ∧ c ≠ '<') ∧ rest.WellFormed names encloses
  | .tag form name attrText rest =>
    name ∈ names ∧ IsAttrText attrText ∧ (form = .bare → ¬ encloses name) ∧
      rest.WellFormed names encloses
  | .enclosing name attrText children rest =>
    name ∈ names ∧ IsAttrText attrText ∧ encloses name ∧
      children.WellFormed names encloses ∧ rest.WellFormed names encloses

/-- The tags that are not inside another tag, in order, where the document starts at position
`p`. -/
def tags (p : Nat) : Document → List Match
  | .done => []
  | .text piece rest => rest.tags (p + piece.toList.length)
  | .tag form name attrText rest =>
    let stop := p + (form.print name attrText).length
    { lead := form = .literal
      name
      attrText
      selfClosing := form = .selfClosing
      inner := none
      trail := form = .literal
      start := p
      stop } :: rest.tags stop
  | .enclosing name attrText children rest =>
    let stop := p + (openingTag name attrText.toList ++ (children.chars ++ closingTag name)).length
    { lead := false
      name
      attrText
      selfClosing := false
      inner := some children.print
      trail := false
      start := p
      stop } :: rest.tags stop

/-- The number of bare tags of a name, at any depth. -/
def bare (name : List Char) : Document → Nat
  | .done => 0
  | .text _ rest => rest.bare name
  | .tag form other _ rest =>
    (if form = .bare ∧ other.toList = name then 1 else 0) + rest.bare name
  | .enclosing _ _ children rest => children.bare name + rest.bare name

variable {names : List String} {encloses : String → Prop} {d : Document}

theorem WellFormed.mono {names' : List String} (hn : ∀ name ∈ names, name ∈ names')
    (h : d.WellFormed names encloses) : d.WellFormed names' encloses := by
  induction d with
  | done => trivial
  | text piece rest ih => exact ⟨h.1, ih h.2⟩
  | tag form name attrText rest ih =>
    obtain ⟨hname, hattr, hb, hrest⟩ := h
    exact ⟨hn name hname, hattr, hb, ih hrest⟩
  | enclosing name attrText children rest ihc ihr =>
    obtain ⟨hname, hattr, he, hchildren, hrest⟩ := h
    exact ⟨hn name hname, hattr, he, ihc hchildren, ihr hrest⟩

/-- A name that encloses something is never left open. -/
theorem WellFormed.bare_eq_zero (h : d.WellFormed names encloses) {name : String}
    (hn : encloses name) : d.bare name.toList = 0 := by
  induction d with
  | done => rfl
  | text piece rest ih => exact ih h.2
  | tag form other attrText rest ih =>
    obtain ⟨-, -, hb, hrest⟩ := h
    have hno : ¬ (form = .bare ∧ other.toList = name.toList) := by
      rintro ⟨hform, hname⟩
      rw [String.toList_injective hname] at hb
      exact hb hform hn
    rw [bare, if_neg hno, ih hrest]
  | enclosing other attrText children rest ihc ihr =>
    obtain ⟨-, -, -, hchildren, hrest⟩ := h
    rw [bare, ihc hchildren, ihr hrest]

/-- A printed document does not begin with a `]`. -/
theorem WellFormed.head?_chars (h : d.WellFormed names encloses) {tail : List Char}
    (ht : tail.head? ≠ some ']') : (d.chars ++ tail).head? ≠ some ']' := by
  induction d with
  | done => exact ht
  | text piece rest ih =>
    obtain ⟨hpiece, hrest⟩ := h
    rw [chars]
    cases hp : piece.toList with
    | nil => exact ih hrest
    | cons c piece =>
      intro hc
      have hb := (hpiece c (by rw [hp]; exact List.mem_cons_self)).2.1
      exact hb (Option.some.inj hc)
  | tag form name attrText rest ih => cases form <;> simp [chars, Form.print, openingTag]
  | enclosing name attrText children rest ihc ihr => simp [chars, openingTag]

theorem WellFormed.head?_chars_ne (h : d.WellFormed names encloses) :
    d.chars.head? ≠ some ']' := by
  have hnil : ([] : List Char).head? ≠ some ']' := nofun
  have hc := h.head?_chars hnil
  rwa [List.append_nil] at hc

/-- A printed document has nothing that looks like HTML. -/
theorem WellFormed.notMem_chars (hv : ∀ name ∈ names, Tag.validateName name = .ok ())
    (h : d.WellFormed names encloses) : '<' ∉ d.chars := by
  have hname {name : String} (hn : name ∈ names) : '<' ∉ name.toList := by
    intro hb
    have hf := ((Tag.valid_of_validateName hv) _ (List.mem_map_of_mem hn)).2 _ hb
    cases hf
  have hopening {name attrText : String} (hn : name ∈ names) (ha : IsAttrText attrText)
      (form : Form) : '<' ∉ openingTag name (form.inside attrText) := by
    have hinside : '<' ∉ form.inside attrText := fun hb => ((ha.inside form).1 _ hb).2.2 rfl
    simp [openingTag, hname hn, hinside]
  induction d with
  | done => exact List.not_mem_nil
  | text piece rest ih =>
    obtain ⟨hpiece, hrest⟩ := h
    have hp : '<' ∉ piece.toList := fun hb => (hpiece _ hb).2.2 rfl
    simp [chars, hp, ih hrest]
  | tag form name attrText rest ih =>
    obtain ⟨hn, ha, -, hrest⟩ := h
    have ho := hopening hn ha form
    cases form <;> simp [chars, Form.print, ho, ih hrest]
  | enclosing name attrText children rest ihc ihr =>
    obtain ⟨hn, ha, -, hchildren, hrest⟩ := h
    have ho := hopening hn ha .bare
    have hc : '<' ∉ closingTag name := by simp [closingTag, hname hn]
    simp only [Form.inside] at ho
    simp [chars, ho, hc, ihc hchildren, ihr hrest]

end Document

end Shortcode
