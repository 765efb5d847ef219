import Shortcode.Proofs.Engine.Strip
import Shortcode.Proofs.Engine.Pass
import Shortcode.Proofs.Tag.Section

namespace Shortcode

namespace Text

def Edit.shift (p : Nat) (e : Edit) : Edit := { e with start := p + e.start, stop := p + e.stop }

theorem spliceFrom_shift (p cursor : Nat) (rest : List Char) (edits : List Edit) :
    spliceFrom (p + cursor) rest (edits.map (Edit.shift p)) = spliceFrom cursor rest edits := by
  induction edits generalizing cursor rest with
  | nil => rfl
  | cons e edits ih =>
    rw [List.map_cons, spliceFrom, spliceFrom]
    simp only [Edit.shift, Nat.add_sub_add_left, ih]

/-- What stands in front of the first edit stays. -/
theorem spliceFrom_cursor {text : List Char} {cursor p : Nat} (hc : cursor ≤ p)
    {edits : List Edit} (h : ∀ e ∈ edits, p ≤ e.start ∧ e.start ≤ e.stop) :
    spliceFrom cursor (text.drop cursor) edits =
      slice text cursor p ++ spliceFrom p (text.drop p) edits := by
  cases edits with
  | nil => exact (slice_append_drop text hc).symm
  | cons e edits =>
    obtain ⟨hp, hs⟩ := h e List.mem_cons_self
    rw [spliceFrom, spliceFrom, List.drop_drop, List.drop_drop, Nat.add_sub_cancel' (by omega),
      Nat.add_sub_cancel' (by omega), ← List.append_assoc, ← List.append_assoc]
    congr 2
    exact (slice_append_slice text hc hp).symm

/-- Edits of the first part and of the second part are made in each of them. -/
theorem spliceFrom_append {front rest : List Char} {edits others : List Edit} (cursor : Nat)
    (hc : cursor ≤ front.length) (ordered : edits.Pairwise fun a b => a.stop ≤ b.start)
    (within : ∀ e ∈ edits, cursor ≤ e.start ∧ e.start ≤ e.stop ∧ e.stop ≤ front.length)
    (behind : ∀ e ∈ others, front.length ≤ e.start ∧ e.start ≤ e.stop) :
    spliceFrom cursor ((front ++ rest).drop cursor) (edits ++ others) =
      spliceFrom cursor (front.drop cursor) edits ++ spliceFrom front.length rest others := by
  induction edits generalizing cursor with
  | nil =>
    rw [List.nil_append, spliceFrom_cursor hc behind, slice_append_left _ (Nat.le_refl _),
      slice_length, List.drop_left]
    rfl
  | cons e edits ih =>
    obtain ⟨first, ordered⟩ := List.pairwise_cons.1 ordered
    obtain ⟨⟨hce, hes, hl⟩, within⟩ := List.forall_mem_cons.1 within
    have next := ih e.stop hl ordered fun e' he' => ⟨first e' he', (within e' he').2⟩
    have gap : ((front ++ rest).drop cursor).take (e.start - cursor) =
        (front.drop cursor).take (e.start - cursor) :=
      slice_append_left cursor (Nat.le_trans hes hl)
    have skip : cursor + (e.stop - cursor) = e.stop :=
      Nat.add_sub_cancel' (Nat.le_trans hce hes)
    rw [List.cons_append, spliceFrom, spliceFrom, List.drop_drop, List.drop_drop, skip, next, gap,
      List.append_assoc _ _ (spliceFrom _ rest others)]

theorem splice_append {front back : String} {edits others : List Edit}
    (h : InOrder front.length edits) (h' : InOrder back.length others) :
    splice (front ++ back) (edits ++ others.map (Edit.shift front.length)) =
      splice front edits ++ splice back others := by
  have behind : ∀ e ∈ others.map (Edit.shift front.length),
      front.toList.length ≤ e.start ∧ e.start ≤ e.stop := by
    intro e he
    obtain ⟨e', he', rfl⟩ := List.mem_map.1 he
    rw [String.length_toList]
    exact ⟨Nat.le_add_right _ _, Nat.add_le_add_left (h'.within e' he').1 _⟩
  have within : ∀ e ∈ edits, 0 ≤ e.start ∧ e.start ≤ e.stop ∧ e.stop ≤ front.toList.length := by
    intro e he
    rw [String.length_toList]
    exact ⟨Nat.zero_le _, h.within e he⟩
  have whole := @spliceFrom_append front.toList back.toList edits
    (others.map (Edit.shift front.length)) 0 (Nat.zero_le _) h.ordered within behind
  rw [List.drop_zero, List.drop_zero, String.length_toList] at whole
  rw [splice, String.toList_append, whole, String.ofList_append, splice, splice]
  congr 2
  exact spliceFrom_shift front.length 0 back.toList others

theorem splice_piece {front piece back : String} {edits others : List Edit}
    (h : InOrder front.length edits) (h' : InOrder back.length others) :
    splice (front ++ piece ++ back) (edits ++ others.map (Edit.shift (front ++ piece).length)) =
      splice front edits ++ piece ++ splice back others := by
  have wide : InOrder (front ++ piece).length edits := by
    refine ⟨h.ordered, fun e he => ⟨(h.within e he).1, ?_⟩⟩
    rw [String.length_append]
    exact Nat.le_add_right_of_le (h.within e he).2
  have first := @splice_append front piece edits [] h ⟨.nil, nofun⟩
  rw [List.map_nil, List.append_nil, splice_nil] at first
  rw [splice_append wide h', first]

end Text

namespace Engine

variable {e : Engine} (hooks : e.hooks = .empty) (answer : String → Logged (Option String))

/-- The edit for a match, where no callback asks for the place of the tag in bytes. -/
def editOf (e : Engine) (m : Match) : Rendering Text.Edit :=
  if m.escaped then pure (m.edit "")
  else m.edit <$> match e.handlers.get? m.name with
    | some handler => handler (e.context m.name) (.parse m.attrText) m.inner
    | none => .done m.tagText

def valueOf (e : Engine) (answer : String → Logged (Option String)) (m : Match) :
    Option Text.Edit := ((e.editOf m).run answer).value

include hooks in
theorem edit_eq_editOf {o : Occurrence} (h : o.written = .parse o.tag.attrText) :
    e.edit o = e.editOf o.tag := by
  have plain : e.hooks.override o = none := by
    rw [hooks]
    rfl
  have same : e.hooks.finish o = id := by
    rw [hooks]
    rfl
  rw [edit_eq, editOf, render_eq, plain, h, same]
  cases e.handlers.get? o.tag.name with
  | none => rfl
  | some handler => simp only [id_map]

theorem editOf_shift (p : Nat) (m : Match) :
    e.editOf (m.shift p) = Text.Edit.shift p <$> e.editOf m := by
  have escaped : (m.shift p).escaped = m.escaped := rfl
  have edit : (m.shift p).edit = fun output => Text.Edit.shift p (m.edit output) := rfl
  rw [editOf, editOf, escaped, edit]
  split
  · rw [map_pure]
  · rw [← comp_map]
    rfl

theorem valueOf_shift (p : Nat) (m : Match) :
    e.valueOf answer (m.shift p) = (e.valueOf answer m).map (Text.Edit.shift p) := by
  rw [valueOf, editOf_shift, Rendering.value_run_map, valueOf]

theorem positions_of_valueOf {m : Match} {edit : Text.Edit}
    (h : e.valueOf answer m = some edit) : (edit.start, edit.stop) = (m.start, m.stop) := by
  rw [valueOf, editOf] at h
  split at h
  · cases h
    rfl
  · rw [Rendering.value_run_map] at h
    obtain ⟨output, -, rfl⟩ := Option.map_eq_some_iff.1 h
    rfl

include hooks in
theorem value_expansion_eq (content : String) :
    ((e.expansion content).run answer).value =
      ((e.scanner.scan content).found.mapM (e.valueOf answer)).map (Text.splice content) := by
  have each : (occurrences content (e.scanner.scan content).found).mapM e.edit =
      (e.scanner.scan content).found.mapM e.editOf := by
    rw [occurrences, List.mapM_map]
    congr 1
    funext m
    exact edit_eq_editOf hooks rfl
  rw [expansion_eq, Rendering.value_run_bind, Rendering.run_ofLogged, Option.bind_some,
    Rendering.value_run_map, each, Rendering.value_run_mapM answer fun m _ => rfl]
  rfl

theorem mapM_valueOf_shift (p : Nat) (found : List Match) :
    (found.map (Match.shift p)).mapM (e.valueOf answer) =
      (found.mapM (e.valueOf answer)).map (List.map (Text.Edit.shift p)) := by
  induction found with
  | nil => rfl
  | cons m found ih =>
    rw [List.map_cons, List.mapM_cons, List.mapM_cons, ih, valueOf_shift]
    cases e.valueOf answer m with
    | none => rfl
    | some edit => cases found.mapM (e.valueOf answer) <;> rfl

theorem valid_scanner (e : Engine) : ∀ name ∈ e.scanner.names, Tag.validateName name = .ok () :=
  fun _ => Bindings.validateName_of_mem_names

variable {front piece : String}

include hooks in
/-- A pass over both sections comes to what passes over each of them come to. -/
theorem value_expansion_piece (html : e.ignoreHtml = false) (parted : Tag.Parted front piece)
    (closed : (e.scanner.scan front).unterminated = []) (back : String) :
    ((e.expansion (front ++ piece ++ back)).run answer).value = do
      let a ← ((e.expansion front).run answer).value
      let b ← ((e.expansion back).run answer).value
      return a ++ piece ++ b := by
  rw [value_expansion_eq hooks, value_expansion_eq hooks, value_expansion_eq hooks,
    Scanner.found_sections html e.valid_scanner parted closed back, List.mapM_append,
    mapM_valueOf_shift]
  have inOrder {content : String} {edits : List Text.Edit}
      (h : (e.scanner.scan content).found.mapM (e.valueOf answer) = some edits) :
      Text.InOrder content.length edits :=
    Scanner.inOrder_of_positions (positions_of_mapM (fun m edit => positions_of_valueOf answer) h)
  cases ha : (e.scanner.scan front).found.mapM (e.valueOf answer) with
  | none => rfl
  | some edits =>
    cases hb : (e.scanner.scan back).found.mapM (e.valueOf answer) with
    | none => rfl
    | some others => exact congrArg some (Text.splice_piece (inOrder ha) (inOrder hb))

include hooks in
theorem value_expandWithin_piece (html : e.ignoreHtml = false) (parted : Tag.Parted front piece)
    (closed : (e.scanner.scan front).unterminated = []) (back : String) (depth : Nat) :
    (e.expandWithin depth (front ++ piece ++ back)).value = do
      let a ← (e.expandWithin depth front).value
      let b ← (e.expandWithin depth back).value
      return a ++ piece ++ b := by
  cases depth with
  | zero => rfl
  | succ depth => exact value_expansion_piece hooks _ html parted closed back

include hooks in
/-- The whole is given more room for nested requests than its sections, and needs no more. -/
theorem value_expand_piece (html : e.ignoreHtml = false) (parted : Tag.Parted front piece)
    (closed : (e.scanner.scan front).unterminated = []) {back a b : String}
    (ha : (e.expand front).value = some a) (hb : (e.expand back).value = some b) :
    (e.expand (front ++ piece ++ back)).value = some (a ++ piece ++ b) := by
  have length : (front ++ piece ++ back).length = front.length + piece.length + back.length := by
    rw [String.length_append, String.length_append]
  have more {content output : String} (h : (e.expand content).value = some output)
      (hl : content.length ≤ (front ++ piece ++ back).length) :
      (e.expandWithin (nestingLimit (front ++ piece ++ back)) content).value = some output := by
    obtain ⟨room, hr⟩ : ∃ room, nestingLimit (front ++ piece ++ back) =
        nestingLimit content + room := Nat.exists_eq_add_of_le (Nat.add_le_add_right hl _)
    rw [hr, expandWithin_add h]
    exact h
  rw [expand, value_expandWithin_piece hooks html parted closed, more ha (by omega),
    more hb (by omega)]
  rfl

include hooks in
theorem strippedNames_eq (content other : String) (allowed : Option (List String)) :
    e.strippedNames content allowed = e.strippedNames other allowed := by
  rw [strippedNames, strippedNames, hooks]
  rfl

include hooks in
theorem strip_piece (html : e.ignoreHtml = false) (parted : Tag.Parted front piece)
    {allowed : Option (List String)} (closed : (e.strip front allowed).log = []) (back : String) :
    (e.strip (front ++ piece ++ back) allowed).value =
      (e.strip front allowed).value ++ piece ++ (e.strip back allowed).value := by
  have stripping : e.hooks.stripping = .empty := by
    rw [hooks]
    rfl
  have valid : ∀ name ∈ e.strippedNames front allowed, Tag.validateName name = .ok () := by
    intro name hn
    exact Bindings.validateName_of_mem_names ((mem_strippedNames stripping front).1 hn).1
  have found := Scanner.found_sections (s := ⟨e.strippedNames front allowed, e.ignoreHtml⟩) html
    valid parted (List.map_eq_nil_iff.1 closed) back
  have inOrder (s : Scanner) (content : String) :
      Text.InOrder content.length ((s.scan content).found.map (·.edit "")) := by
    apply Scanner.inOrder_of_positions (s := s)
    rw [List.map_map]
    rfl
  rw [strip, strip, strip, strippedNames_eq hooks (front ++ piece ++ back) front,
    strippedNames_eq hooks back front, found, List.map_append, List.map_map,
    ← Text.splice_piece (inOrder _ front) (inOrder _ back), List.map_map]
  rfl

/-- Sections of a text do not reach into each other. If the last bracket of the first is no `[` and
no tag is left open in it, then a scan of the whole finds what scans of the sections find, those of
the second moved behind the first and the plain text between the two. An engine without callbacks
then expands and strips the whole section by section; to strip it, only tags that are stripped must
be closed. -/
theorem sections_local (parted : Tag.Parted front piece) (back : String) :
    (∀ s : Scanner, s.ignoreHtml = false →
      (∀ name ∈ s.names, Tag.validateName name = .ok ()) → (s.scan front).unterminated = [] →
      (s.scan (front ++ piece ++ back)).found = (s.scan front).found ++
        (s.scan back).found.map (Match.shift (front ++ piece).length) ∧
      (∀ m ∈ (s.scan front).found,
        m.byteSpan (.ofText (front ++ piece ++ back)) = m.byteSpan (.ofText front) ∧
        m.byteTagSpan (.ofText (front ++ piece ++ back)) = m.byteTagSpan (.ofText front)) ∧
      ∀ m ∈ (s.scan back).found,
        let move := ((front ++ piece).utf8ByteSize + ·)
        (m.shift (front ++ piece).length).byteSpan (.ofText (front ++ piece ++ back)) =
          (m.byteSpan (.ofText back)).map move move ∧
        (m.shift (front ++ piece).length).byteTagSpan (.ofText (front ++ piece ++ back)) =
          (m.byteTagSpan (.ofText back)).map move move) ∧
    ∀ e : Engine, e.hooks = .empty → e.ignoreHtml = false →
      ((e.scanner.scan front).unterminated = [] →
        (∀ depth, (e.expandWithin depth (front ++ piece ++ back)).value = do
          let a ← (e.expandWithin depth front).value
          let b ← (e.expandWithin depth back).value
          return a ++ piece ++ b) ∧
        ∀ a b, (e.expand front).value = some a → (e.expand back).value = some b →
          (e.expand (front ++ piece ++ back)).value = some (a ++ piece ++ b)) ∧
      ∀ allowed, (e.strip front allowed).log = [] →
        (e.strip (front ++ piece ++ back) allowed).value =
          (e.strip front allowed).value ++ piece ++ (e.strip back allowed).value := by
  constructor
  · intro s html valid closed
    refine ⟨Scanner.found_sections html valid parted closed back, ?_, ?_⟩
    · intro m hm
      rw [String.append_assoc]
      exact (Scanner.liesIn_of_mem hm).byteSpan_append _
    · intro m hm move
      exact (Scanner.liesIn_of_mem hm).byteSpan_shift_append _
  · intro e hooks html
    refine ⟨?_, ?_⟩
    · intro closed
      refine ⟨value_expandWithin_piece hooks html parted closed back, ?_⟩
      intro a b
      exact value_expand_piece hooks html parted closed
    · intro allowed closed
      exact strip_piece hooks html parted closed back

/-- A closing tag with nothing to close stays without effect in front of the seam and behind it. -/
theorem sections_local_closing_tags :
    (let e : Engine := ⟨⟨[("ab", fun c _ _ => pure c.tag), ("a", fun _ _ inner =>
        (inner.map Rendering.ask).getD (pure "-"))], by decide, by decide⟩, .empty, false⟩
     let front := "[/ab][a][ab/][/a]]"
     let back := "][/a][a]é[[ab]"
     Tag.Parted front "é/" ∧ (e.scanner.scan front).unterminated = [] ∧
      (e.strip front none).log = [] ∧
      (e.scanner.scan front).found = [⟨false, "a", "", false, some "[ab/]", true, 5, 18⟩] ∧
      (e.scanner.scan (front ++ "é/" ++ back)).found =
        [⟨false, "a", "", false, some "[ab/]", true, 5, 18⟩,
          ⟨false, "a", "", false, none, false, 25, 28⟩,
          ⟨true, "ab", "", false, none, false, 29, 34⟩] ∧
      (e.expand (front ++ "é/" ++ back)).value = some "[/ab]ab]é/][/a]-é[ab" ∧
      (e.strip (front ++ "é/" ++ back) none).value = "[/ab]]é/][/a]é[") := by
  intro e front back
  have plain : ("é/".toList.all fun c => !Tag.isBracket c) = true := by decide +kernel
  have parted : Tag.Parted front "é/" := ⟨by decide +kernel, by decide, by simpa using plain⟩
  have closed : (e.scanner.scan front).unterminated = [] := by decide +kernel
  have log : (e.strip front none).log = [] := by decide +kernel
  have found : (e.scanner.scan front).found =
      [⟨false, "a", "", false, some "[ab/]", true, 5, 18⟩] := by decide +kernel
  have foundBack : (e.scanner.scan back).found =
      [⟨false, "a", "", false, none, false, 5, 8⟩,
        ⟨true, "ab", "", false, none, false, 9, 14⟩] := by
    decide +kernel
  have expanded : (e.expand front).value = some "[/ab]ab]" := by decide +kernel
  have expandedBack : (e.expand back).value = some "][/a]-é[ab" := by decide +kernel
  have stripped : (e.strip front none).value = "[/ab]]" := by decide +kernel
  have strippedBack : (e.strip back none).value = "][/a]é[" := by decide +kernel
  obtain ⟨scans, engines⟩ := sections_local parted back
  obtain ⟨expands, strips⟩ := engines e rfl rfl
  refine ⟨parted, closed, log, found, ?_, ?_, ?_⟩
  · rw [(scans e.scanner rfl e.valid_scanner closed).1, found, foundBack]
    decide +kernel
  · rw [(expands closed).2 _ _ expanded expandedBack]
    decide
  · rw [strips none log, stripped, strippedBack]
    decide

end Engine

end Shortcode
