import Shortcode.Proofs.Tag.Coverage
import Shortcode.Proofs.Tag.Tree

namespace Shortcode

namespace Tag

/-- An attribute text that can be written directly behind any name. -/
structure IsSetOff (attrText : String) : Prop where
  plain : ∀ c ∈ attrText.toList, c ≠ '[' ∧ c ≠ ']' ∧ c ≠ '<'
  apart : ∀ c, attrText.toList.head? = some c → continuesName c = false

instance (attrText : String) : Decidable (IsSetOff attrText) :=
  decidable_of_iff (attrText.toList.all (fun c => c ≠ '[' && c ≠ ']' && c ≠ '<') = true ∧
      attrText.toList.head?.all (!continuesName ·) = true) (by
    rw [List.all_eq_true, Option.all_eq_true]
    simp only [Bool.and_eq_true, decide_eq_true_eq, and_assoc, Bool.not_eq_true']
    exact ⟨fun h => ⟨h.1, h.2⟩, fun h => ⟨h.plain, h.apart⟩⟩)

/-- A name with its attribute text in `n` pairs of brackets. -/
def wrapped (n : Nat) (name attrText : String) : String :=
  String.ofList (List.replicate n '[' ++
    ((name.toList ++ attrText.toList) ++ List.replicate n ']'))

variable {name attrText : String}

theorem toList_wrapped (n : Nat) (name attrText : String) :
    (wrapped n name attrText).toList = List.replicate n '[' ++
      ((name.toList ++ attrText.toList) ++ List.replicate n ']') := String.toList_ofList

/-- Without the brackets next to those of the tag there is one pair less. -/
theorem cut_wrapped (n : Nat) (name attrText : String) {stop : Nat}
    (h : stop = n + 2 + (name.toList ++ attrText.toList).length + 2) :
    (wrapped (n + 2) name attrText).toList.take n ++
        Text.slice (wrapped (n + 2) name attrText).toList (n + 1) (stop - 1) ++
        (wrapped (n + 2) name attrText).toList.drop stop =
      (wrapped (n + 1) name attrText).toList := by
  let tag := '[' :: ((name.toList ++ attrText.toList) ++ [']'])
  have length : tag.length = (name.toList ++ attrText.toList).length + 2 := by
    simp only [tag, List.length_cons, List.length_append, List.length_nil]
  have inner : (wrapped (n + 1) name attrText).toList =
      List.replicate n '[' ++ (tag ++ List.replicate n ']') := by
    rw [toList_wrapped, List.replicate_succ', List.replicate_succ]
    simp [tag]
  have whole : (wrapped (n + 2) name attrText).toList =
      List.replicate n '[' ++ ('[' :: (tag ++ ']' :: List.replicate n ']')) := by
    rw [toList_wrapped, List.replicate_succ', List.replicate_succ', List.replicate_succ,
      List.replicate_succ]
    simp [tag]
  generalize (wrapped (n + 2) name attrText).toList = text at whole
  have first : text.drop n = '[' :: (tag ++ ']' :: List.replicate n ']') := by
    rw [whole, List.drop_left' List.length_replicate]
  have second := (getElem?_of_drop first).2
  have third := (getElem?_of_drop (drop_of_append second)).2
  rw [length, show n + 1 + ((name.toList ++ attrText.toList).length + 2) + 1 = stop by omega]
    at third
  have before : text.take n = List.replicate n '[' := by
    rw [whole, List.take_left' List.length_replicate]
  have between : Text.slice text (n + 1) (stop - 1) = tag :=
    Text.slice_of_isPrefix ⟨_, second.symm⟩ (by omega)
  rw [before, between, third, inner, List.append_assoc]

theorem IsSetOff.notMem_inside (h : IsSetOff attrText) (hv : validateName name = .ok ()) :
    ']' ∉ name.toList ++ attrText.toList := by
  intro hm
  rcases List.mem_append.1 hm with hm | hm
  · cases (plain_of_validateName hv).2 _ hm
  · exact (h.plain _ hm).2.1 rfl

theorem IsSetOff.notMem_wrapped (h : IsSetOff attrText) (hv : validateName name = .ok ())
    (n : Nat) : '<' ∉ (wrapped n name attrText).toList := by
  intro hm
  simp only [toList_wrapped, List.mem_append, List.mem_replicate] at hm
  rcases hm with ⟨-, hm⟩ | (hm | hm) | ⟨-, hm⟩
  · cases hm
  · cases (plain_of_validateName hv).2 _ hm
  · exact (h.plain _ hm).2.2 rfl
  · cases hm

/-- An opening tag in doubled brackets has no closing tag, and its match takes them in. -/
theorem Opener.Fits.toMatch_literal {hidden : Nat → Bool} {names : List (List Char)}
    {text : List Char} {k : Fin names.length} {o : Opener} (h : o.Fits hidden names text k)
    (hl : o.literal = true) :
    (o.toMatch 0 text).escaped = true ∧ (o.toMatch 0 text).start = o.start - 1 ∧
      (o.toMatch 0 text).stop = o.close.pos + 2 := by
  have alone : o.closer = none := by
    apply Option.eq_none_iff_forall_ne_some.2
    intro c hc
    rw [(h.encloses c hc).2.1] at hl
    cases hl
  obtain ⟨hlead, htrail⟩ := Bool.and_eq_true_iff.1 hl
  have hpos : 0 < o.start := (follows_iff.1 (h.reads.afterBracket ▸ hlead)).1
  simp [Opener.toMatch, Match.escaped, alone, hlead, htrail, hpos]

end Tag

namespace Scanner

variable {s : Scanner} {name attrText : String}

theorem recognizes_of_drop {text : List Char} (hp : '<' ∉ text) (hname : name ∈ s.names) {p : Nat}
    {inside tail : List Char} (h : text.drop p = '[' :: ((name.toList ++ inside) ++ ']' :: tail))
    (hc : ∀ c, inside.head? = some c → Tag.continuesName c = false) : s.Recognizes text p := by
  obtain ⟨hopen, hrest⟩ := Tag.getElem?_of_drop h
  have hclose := (Tag.getElem?_of_drop (Tag.drop_of_append hrest)).1
  refine ⟨Tag.shows_iff.2 ⟨hopen, hidden_eq_false hp _⟩, name, hname,
    ⟨inside ++ ']' :: tail, ?_, ?_⟩, _, ?_, Tag.shows_iff.2 ⟨hclose, hidden_eq_false hp _⟩⟩
  · rw [hrest, List.append_assoc]
  · intro c hhead
    cases inside with
    | nil =>
      cases hhead
      rfl
    | cons d inside => exact hc c hhead
  · rw [List.length_append, String.length_toList]
    omega

/-- Where a name can be read a tag opens that ends with the next `]`, whichever of the names it
bears. -/
theorem exists_markAt_of_drop (hv : ∀ name ∈ s.names, Tag.validateName name = .ok ())
    (hd : s.names.Nodup) {text : List Char} (hp : '<' ∉ text) (hname : name ∈ s.names) {p : Nat}
    {inside tail : List Char} (h : text.drop p = '[' :: ((name.toList ++ inside) ++ ']' :: tail))
    (hi : ']' ∉ name.toList ++ inside)
    (hc : ∀ c, inside.head? = some c → Tag.continuesName c = false) :
    ∃ k o, Tag.markAt (s.hidden text) (s.names.map String.toList) text p = some (.opens k o) ∧
      o.close.pos = p + 1 + (name.toList ++ inside).length ∧
      o.close.doubled = decide (tail.head? = some ']') := by
  obtain ⟨k, o, hm⟩ := exists_markAt hv hd (recognizes_of_drop hp hname h hc)
  obtain ⟨rfl, -, hreads, hfrom⟩ := Tag.markAt_opens hm
  have hrest := (Tag.getElem?_of_drop h).2
  obtain ⟨hclose, htail⟩ := Tag.getElem?_of_drop (Tag.drop_of_append hrest)
  -- the name that is read may be longer than the one that is known to fit
  have hend : o.nameEnd ≤ o.start + 1 + (name.toList ++ inside).length := by
    rw [hreads.nameEnd]
    exact Tag.name_end_le ((Tag.valid_of_validateName hv) _ (List.get_mem _ k)).2
      hreads.isPrefix_name (Nat.le_add_right _ _) hclose rfl
  obtain ⟨j, hj⟩ := Nat.exists_eq_add_of_le (Nat.succ_le_of_lt o.start_lt_nameEnd)
  have hle : j ≤ (name.toList ++ inside).length := by omega
  have left : text.drop o.nameEnd = (name.toList ++ inside).drop j ++ ']' :: tail := by
    rw [hj, ← List.drop_drop, hrest, List.drop_append_of_le_length hle]
  rw [Tag.closeFrom?_of_drop (fun q => hidden_eq_false hp q) left
    fun hm => hi (List.mem_of_mem_drop hm), List.length_drop, Option.some.injEq] at hfrom
  have hpos : o.close.pos = o.start + 1 + (name.toList ++ inside).length := by omega
  exact ⟨k, o, hm, hpos, by rw [hreads.doubled, hpos, ← List.head?_drop, htail]⟩

/-- The matches of a text whose first tag is escaped. -/
theorem found_literal (hv : ∀ name ∈ s.names, Tag.validateName name = .ok ())
    (hd : s.names.Nodup) {content : String} (hp : '<' ∉ content.toList) (hname : name ∈ s.names)
    {p : Nat} (before : ∀ q < p, Tag.markAt (s.hidden content.toList)
      (s.names.map String.toList) content.toList q = none) {inside tail : List Char}
    (h : content.toList.drop p = '[' :: ((name.toList ++ inside) ++ ']' :: ']' :: tail))
    (hi : ']' ∉ name.toList ++ inside)
    (hc : ∀ c, inside.head? = some c → Tag.continuesName c = false)
    (hlead : Tag.follows content.toList '[' p = true) :
    ∃ m : Match, m.escaped = true ∧ m.start = p - 1 ∧
      m.stop = p + 1 + (name.toList ++ inside).length + 2 ∧
      (s.scan content).found =
        m :: (s.scan (String.ofList tail)).found.map (Match.shift m.stop) := by
  obtain ⟨k, o, hm, hpos, hdoubled⟩ := exists_markAt_of_drop hv hd hp hname h hi hc
  obtain ⟨o', fits, hstart, hclose, -, -, hfound⟩ := found_of_first hv hd hp before hm
  have literal : o'.literal = true := by
    rw [Tag.Opener.literal, fits.reads.afterBracket, hstart, hclose, hlead, hdoubled]
    rfl
  obtain ⟨escaped, start, stop⟩ := fits.toMatch_literal literal
  rw [hclose, hpos] at stop
  have rest : content.toList.drop (o'.toMatch 0 content.toList).stop = tail := by
    have behind := Tag.drop_of_append (Tag.getElem?_of_drop h).2
    rw [stop, ← List.drop_drop, behind]
    rfl
  rw [rest] at hfound
  exact ⟨_, escaped, by rw [start, hstart], stop, hfound⟩

/-- In two pairs of brackets or more there is one match, of the tag and the brackets next to it. -/
theorem exists_found_wrapped (hv : ∀ name ∈ s.names, Tag.validateName name = .ok ())
    (hd : s.names.Nodup) (hname : name ∈ s.names) (ha : Tag.IsSetOff attrText) (n : Nat) :
    ∃ m, (s.scan (Tag.wrapped (n + 2) name attrText)).found = [m] ∧ m.escaped = true ∧
      m.start = n ∧ m.stop = n + 2 + (name.toList ++ attrText.toList).length + 2 := by
  have hi := ha.notMem_inside (hv name hname)
  have hp := ha.notMem_wrapped (hv name hname) (n + 2)
  have whole := Tag.toList_wrapped (n + 2) name attrText
  generalize Tag.wrapped (n + 2) name attrText = content at hp whole
  have outer (p : Nat) (h : p < n + 2) : content.toList[p]? = some '[' := by
    rw [whole, List.getElem?_append_left (by rwa [List.length_replicate]),
      List.getElem?_replicate_of_lt h]
  have behind : content.toList.drop (n + 1) = '[' :: ((name.toList ++ attrText.toList) ++
      ']' :: ']' :: List.replicate n ']') := by
    rw [whole, List.replicate_succ', List.append_assoc, List.drop_left' List.length_replicate]
    rfl
  have before (p : Nat) (h : p < n + 1) : Tag.markAt (s.hidden content.toList)
      (s.names.map String.toList) content.toList p = none :=
    Tag.markAt_of_bracket (Tag.valid_of_validateName hv) (outer (p + 1) (Nat.succ_lt_succ h))
  have lead : Tag.follows content.toList '[' (n + 1) = true :=
    Tag.follows_iff.2 ⟨Nat.succ_pos n, outer n (by omega)⟩
  obtain ⟨m, escaped, start, stop, found⟩ :=
    found_literal hv hd hp hname before behind hi ha.apart lead
  have none_behind : (s.scan (String.ofList (List.replicate n ']'))).found = [] := by
    rw [scan, if_pos (by simp)]
  rw [none_behind, List.map_nil] at found
  exact ⟨m, found, escaped, start, stop⟩

/-- In one pair of brackets there is a tag without a closing tag. -/
theorem found_wrapped_one (hv : ∀ name ∈ s.names, Tag.validateName name = .ok ())
    (hd : s.names.Nodup) (hl : Tag.LongestFirst (s.names.map String.toList))
    (hname : name ∈ s.names) :
    (s.scan (Tag.wrapped 1 name "")).found =
      [⟨false, name, "", false, none, false, 0, (Tag.wrapped 1 name "").toList.length⟩] := by
  let d : Document := .tag .bare name "" .done
  have printed : d.print = Tag.wrapped 1 name "" := by
    simp [d, Document.print, Document.chars, Form.print, openingTag, Form.inside, Tag.wrapped]
  have wellFormed : d.WellFormed s.names fun _ => False :=
    ⟨hname, by decide, fun _ => id, trivial⟩
  rw [← printed, found_print hv hd hl wellFormed]
  simp [d, Document.tags, Document.print, Document.chars, Form.print, Form.inside]

end Scanner

end Shortcode
