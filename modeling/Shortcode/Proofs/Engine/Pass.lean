import Shortcode.Engine.Basic
import Shortcode.Proofs.Engine.Names
import Shortcode.Proofs.Tag.Lossless

namespace Shortcode

namespace Text

/-- The texts in place of the edited pieces, each behind what stands between it and the piece
before, and then what is left of the text. -/
def concatenation (content : String) (edits : List Edit) : String :=
  String.join (List.zipWith
      (fun last e => String.ofList (slice content.toList last e.start) ++ e.text)
      (0 :: edits.map (·.stop)) edits) ++
    String.ofList (content.toList.drop ((edits.map (·.stop)).getLastD 0))

theorem spliceFrom_eq_append {text : List Char} {edits : List Edit} (cursor : Nat)
    (ordered : edits.Pairwise fun a b => a.stop ≤ b.start)
    (forward : ∀ e ∈ edits, cursor ≤ e.start ∧ e.start ≤ e.stop) :
    spliceFrom cursor (text.drop cursor) edits =
      (List.zipWith (fun last e => slice text last e.start ++ e.text.toList)
        (cursor :: edits.map (·.stop)) edits).flatten ++
      text.drop ((edits.map (·.stop)).getLastD cursor) := by
  induction edits generalizing cursor with
  | nil => rfl
  | cons e edits ih =>
    obtain ⟨behind, ordered⟩ := List.pairwise_cons.1 ordered
    obtain ⟨⟨hc, hs⟩, forward⟩ := List.forall_mem_cons.1 forward
    have rest := ih e.stop ordered fun b hb => ⟨behind b hb, (forward b hb).2⟩
    rw [spliceFrom, List.drop_drop, Nat.add_sub_cancel' (Nat.le_trans hc hs), rest, List.map_cons,
      List.zipWith_cons_cons, List.flatten_cons, List.getLastD_cons,
      List.append_assoc _ _ (List.drop _ _)]
    rfl

/-- The edits lie in a text of that length, one behind the other. -/
structure InOrder (length : Nat) (edits : List Edit) : Prop where
  ordered : edits.Pairwise fun a b => a.stop ≤ b.start
  within : ∀ e ∈ edits, e.start ≤ e.stop ∧ e.stop ≤ length

theorem splice_eq_concatenation {content : String} {edits : List Edit} {length : Nat}
    (h : InOrder length edits) : splice content edits = concatenation content edits := by
  have whole := @spliceFrom_eq_append content.toList edits 0 h.ordered
    fun e he => ⟨Nat.zero_le _, (h.within e he).1⟩
  rw [List.drop_zero] at whole
  rw [splice, whole, concatenation, String.ofList_append,
    ← String.ofList_toList (s := String.join _), String.toList_join, List.flatMap_def,
    List.map_zipWith]
  simp only [String.toList_append, String.toList_ofList]

end Text

namespace Rendering

variable {α β : Type} (answer : String → Logged (Option String))

theorem value_run_bind (r : Rendering α) (f : α → Rendering β) :
    ((r >>= f).run answer).value = (r.run answer).value.bind fun a => ((f a).run answer).value := by
  rw [run_bind, Logged.andThen]
  cases (r.run answer).value <;> rfl

theorem value_run_map (f : α → β) (r : Rendering α) :
    ((f <$> r).run answer).value = (r.run answer).value.map f := by
  rw [map_eq_pure_bind, value_run_bind]
  cases (r.run answer).value <;> rfl

theorem mapM_congr {l : List α} {f g : α → Rendering β}
    (h : ∀ a ∈ l, f a = g a) : l.mapM f = l.mapM g := by
  induction l with
  | nil => rfl
  | cons a l ih =>
    obtain ⟨ha, hl⟩ := List.forall_mem_cons.1 h
    rw [List.mapM_cons, List.mapM_cons, ha, ih hl]

/-- The work on a list is done if it is done on each member. -/
theorem value_run_mapM {f : α → Rendering β} {g : α → Option β} {l : List α}
    (h : ∀ a ∈ l, ((f a).run answer).value = g a) : ((l.mapM f).run answer).value = l.mapM g := by
  induction l with
  | nil => rfl
  | cons a l ih =>
    obtain ⟨ha, hl⟩ := List.forall_mem_cons.1 h
    rw [List.mapM_cons, List.mapM_cons, value_run_bind, ha]
    apply congrArg (g a).bind
    funext b
    rw [value_run_bind, ih hl]
    rfl

/-- Work that comes to its end takes the same way to it if more requests are answered. -/
theorem run_mono {answer other : String → Logged (Option String)}
    (agree : ∀ text s, (answer text).value = some s → other text = answer text)
    {r : Rendering α} {a : α} (h : (r.run answer).value = some a) :
    r.run other = r.run answer := by
  induction r with
  | done _ => rfl
  | report event next ih =>
    rw [run, run, ih h]
  | expand text next ih =>
    rw [run, Logged.andThen] at h
    cases hs : (answer text).value with
    | none =>
      rw [hs] at h
      cases h
    | some s =>
      rw [hs] at h
      rw [run, run, agree text s hs, Logged.andThen, Logged.andThen, hs]
      dsimp only at h ⊢
      rw [ih s h]

end Rendering

/-- Edits with the positions of the matches of a text lie in it in order. -/
theorem Scanner.inOrder_of_positions {s : Scanner} {content : String} {edits : List Text.Edit}
    (h : edits.map (fun edit => (edit.start, edit.stop)) =
      (s.scan content).found.map fun m => (m.start, m.stop)) :
    Text.InOrder content.length edits where
  ordered := by
    have ordered : (edits.map fun edit => (edit.start, edit.stop)).Pairwise
        fun a b => a.2 ≤ b.1 := by
      rw [h]
      exact List.pairwise_map.2 (s.pairwise_found content)
    exact List.pairwise_map.1 ordered
  within := by
    have within : ∀ p ∈ edits.map fun edit => (edit.start, edit.stop),
        p.1 ≤ p.2 ∧ p.2 ≤ content.length := by
      rw [h]
      refine List.forall_mem_map.2 fun m hm => ?_
      have lies := liesIn_of_mem hm
      exact ⟨(List.pairwise_cons.1 lies.cuts_sorted).1 _ (by simp),
        lies.cuts_le _ (by simp [Match.cuts])⟩
    exact List.forall_mem_map.1 within

namespace Engine

variable (e : Engine) (answer : String → Logged (Option String)) (content : String)

/-- What a tag is rendered to: the text that the callbacks before rendering end in, and without one
that of the handler, whose requests are answered by `answer`; either behind the callbacks after
rendering. -/
def output (o : Occurrence) : Option String :=
  match e.hooks.override o with
  | some text => some (e.hooks.finish o text)
  | none => (e.handlers.get? o.tag.name).bind fun handler =>
    ((handler (e.context o.tag.name) (.parse o.tag.attrText) o.tag.inner).run answer).value.map
      (e.hooks.finish o)

/-- What stands in the place of a match: of an escaped one its text without the outer brackets, of
any other one the output of its tag between the brackets that stand there alone. -/
def inPlace (o : Occurrence) : Option String :=
  if o.tag.lead && o.tag.trail then
    some (String.ofList (Text.slice content.toList o.tag.tagStart o.tag.tagStop))
  else
    (e.output answer o).map fun text =>
      (if o.tag.lead then "[" else "") ++ text ++ (if o.tag.trail then "]" else "")

/-- The edit that a pass makes for a match. -/
def place (o : Occurrence) : Option Text.Edit :=
  (e.inPlace answer content o).map (Text.Edit.mk o.tag.start o.tag.stop)

/-- The top-level matches of a text, which the names and the text decide. -/
def tagsIn (e : Engine) (content : String) : List Occurrence :=
  occurrences content (Scanner.scan ⟨e.handlers.names, e.ignoreHtml⟩ content).found

variable {e content} {o : Occurrence}

theorem tag_mem_of_mem_tagsIn (ho : o ∈ e.tagsIn content) :
    o.tag ∈ (e.scanner.scan content).found := by
  obtain ⟨m, hm, rfl⟩ := List.mem_map.1 ho
  exact hm

theorem written_of_mem_tagsIn (ho : o ∈ e.tagsIn content) : o.written = .parse o.tag.attrText := by
  obtain ⟨m, -, rfl⟩ := List.mem_map.1 ho
  rfl

theorem pairwise_tagsIn (e : Engine) (content : String) :
    (e.tagsIn content).Pairwise fun a b => a.tag.stop ≤ b.tag.start :=
  List.pairwise_map.2 (e.scanner.pairwise_found content)

theorem name_mem_of_mem_tagsIn (ho : o ∈ e.tagsIn content) : o.tag.name ∈ e.handlers.names :=
  (Scanner.liesIn_of_mem (tag_mem_of_mem_tagsIn ho)).name_mem

theorem value_render (ho : o ∈ e.tagsIn content) :
    ((e.render o).run answer).value = e.output answer o := by
  obtain ⟨handler, hget⟩ := Bindings.exists_get?_of_mem_names (name_mem_of_mem_tagsIn ho)
  rw [render_eq, output, hget, written_of_mem_tagsIn ho]
  cases e.hooks.override o with
  | some text => rfl
  | none => exact Rendering.value_run_map ..

theorem value_edit (ho : o ∈ e.tagsIn content) :
    ((e.edit o).run answer).value = e.place answer content o := by
  rw [edit_eq, place, inPlace, Match.escaped]
  split
  · next escaped =>
    rw [Scanner.slice_tag_of_mem (tag_mem_of_mem_tagsIn ho), String.ofList_toList, Match.edit,
      Match.replacement, Match.escaped, if_pos escaped]
    rfl
  · next escaped =>
    rw [Rendering.value_run_map, value_render answer ho, Option.map_map]
    congr 1
    funext text
    rw [Match.edit, Match.replacement, Match.escaped, if_neg escaped]
    rfl

/-- Edits that are made one by one have their positions one by one. -/
theorem positions_of_mapM {α : Type} {f : α → Option Text.Edit} {span : α → Nat × Nat}
    (hf : ∀ a edit, f a = some edit → (edit.start, edit.stop) = span a) {l : List α}
    {edits : List Text.Edit} (h : l.mapM f = some edits) :
    edits.map (fun edit => (edit.start, edit.stop)) = l.map span := by
  induction l generalizing edits with
  | nil =>
    cases h
    rfl
  | cons a l ih =>
    rw [List.mapM_cons] at h
    obtain ⟨edit, he, h⟩ := Option.bind_eq_some_iff.1 h
    obtain ⟨others, hos, h⟩ := Option.bind_eq_some_iff.1 h
    cases h
    rw [List.map_cons, List.map_cons, ih hos, hf a edit he]

/-- An edit has the positions of its match. -/
theorem positions_of_mapM_place {tags : List Occurrence} {edits : List Text.Edit}
    (h : tags.mapM (e.place answer content) = some edits) :
    edits.map (fun edit => (edit.start, edit.stop)) =
      tags.map fun o => (o.tag.start, o.tag.stop) := by
  refine positions_of_mapM (fun o edit he => ?_) h
  obtain ⟨piece, -, rfl⟩ := Option.map_eq_some_iff.1 he
  rfl

theorem splice_of_mapM_place {edits : List Text.Edit}
    (h : (e.tagsIn content).mapM (e.place answer content) = some edits) :
    Text.splice content edits = Text.concatenation content edits := by
  have positions := positions_of_mapM_place answer h
  rw [tagsIn, occurrences, List.map_map] at positions
  exact Text.splice_eq_concatenation (Scanner.inOrder_of_positions positions)

/-- A pass puts its text together from what stands between the tags and what stands in their place:
nothing that a handler or a callback returns is read again. -/
theorem value_expansion (e : Engine) (content : String) :
    ((e.expansion content).run answer).value =
      ((e.tagsIn content).mapM (e.place answer content)).map (Text.concatenation content) := by
  rw [expansion_eq, Rendering.value_run_bind, Rendering.run_ofLogged, Option.bind_some,
    Rendering.value_run_map]
  change Option.map _ (((e.tagsIn content).mapM e.edit).run answer).value = _
  rw [Rendering.value_run_mapM answer fun o ho => value_edit answer ho]
  exact Option.map_congr fun edits h => splice_of_mapM_place answer h

theorem value_expandWithin (e : Engine) (depth : Nat) (content : String) :
    (e.expandWithin (depth + 1) content).value =
      ((e.tagsIn content).mapM (e.place (e.expandWithin depth) content)).map
        (Text.concatenation content) := by
  rw [expandWithin, value_expansion]

theorem expand_eq_expandWithin (e : Engine) (content : String) :
    e.expand content = e.expandWithin (nestingLimit content - 1 + 1) content := by
  have positive : 1 ≤ nestingLimit content := Nat.le_trans (by decide) (Nat.le_add_left ..)
  rw [expand, Nat.sub_add_cancel positive]

/-- How deep requests may be nested is no matter to a text that is had. -/
theorem expandWithin_add {depth : Nat} {output : String}
    (h : (e.expandWithin depth content).value = some output) (more : Nat) :
    e.expandWithin (depth + more) content = e.expandWithin depth content := by
  induction depth generalizing content output with
  | zero => cases h
  | succ depth ih =>
    rw [Nat.succ_add, expandWithin, expandWithin]
    exact Rendering.run_mono (fun _ _ hs => ih hs) h

theorem tagsIn_congr {other : Engine} (names : other.handlers.names = e.handlers.names)
    (ignoreHtml : other.ignoreHtml = e.ignoreHtml) : other.tagsIn content = e.tagsIn content := by
  rw [tagsIn, names, ignoreHtml, tagsIn]

/-- Without names or brackets the text stays as it is. -/
theorem expand_of_scan_empty (h : e.handlers.names = [] ∨ '[' ∉ content.toList) :
    e.expand content = ⟨some content, []⟩ := by
  have nothing : e.scanner.scan content = ⟨[], [], 0, 0⟩ := by
    rw [Scanner.scan, if_pos]
    rcases h with h | h <;> simp [scanner, h]
  rw [expand, nestingLimit, expandWithin, expansion_eq]
  simp only [nothing, warnings, occurrences, List.map_nil, List.mapM_nil, map_pure, Text.splice_nil]
  rfl

end Engine

end Shortcode
