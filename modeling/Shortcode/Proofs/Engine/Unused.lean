import Shortcode.Proofs.Engine.Probe
import Shortcode.Proofs.Engine.Requests
import Shortcode.Proofs.Engine.Strip
import Shortcode.Proofs.Tag.Unused

namespace Shortcode

namespace Engine

variable {e : Engine} {name content : String}

theorem scanner_unregister (e : Engine) (name : String) :
    (e.unregister name).scanner = e.scanner.without name := by
  rw [scanner, unregister, Bindings.names_unregister]
  rfl

theorem unregister_of_register {handler : Handler} {other : Engine}
    (h : (e.register name handler).value = .ok other) (hn : e.handlers.contains name = false) :
    other.unregister name = e := by
  rw [register] at h
  split at h
  · cases h
  · next handlers hh =>
    cases h
    rw [unregister, Bindings.unregister_of_register hh hn]

/-- A template makes the same of a tag, since it asks the engine for no more than the callbacks. -/
theorem edit_unregister (ht : (e.unregister name).Templated) {o : Occurrence}
    (ho : o ∈ (e.unregister name).tagsIn content) :
    (e.unregister name).edit o = e.edit o := by
  obtain ⟨handler, hget⟩ := Bindings.exists_get?_of_mem_names (name_mem_of_mem_tagsIn ho)
  have same : e.handlers.get? o.tag.name = some handler := by
    have hget' := hget
    rw [unregister, Bindings.get?_unregister] at hget'
    split at hget'
    · cases hget'
    · exact hget'
  obtain ⟨t, rfl⟩ := ht _ _ hget
  have hooks : (e.unregister name).hooks = e.hooks := rfl
  have filled : t.handler ((e.unregister name).context o.tag.name) =
      t.handler (e.context o.tag.name) := rfl
  rw [edit_eq, edit_eq, render_eq, render_eq, hget, same, hooks]
  cases e.hooks.override o with
  | some output => rfl
  | none => simp only [filled]

section

variable (valid : Tag.validateName name = .ok ())

include valid

theorem found_unregister (hu : Tag.Unused content.toList name) :
    ((e.unregister name).scanner.scan content).found = (e.scanner.scan content).found := by
  rw [scanner_unregister]
  exact Scanner.found_without (fun _ => Bindings.validateName_of_mem_names)
    e.handlers.ordered_names valid hu

theorem unterminated_unregister (hu : Tag.Unused content.toList name) :
    ((e.unregister name).scanner.scan content).unterminated =
      (e.scanner.scan content).unterminated := by
  rw [scanner_unregister]
  exact Scanner.unterminated_without (fun _ => Bindings.validateName_of_mem_names)
    e.handlers.ordered_names valid hu

theorem tagsIn_unregister (hu : Tag.Unused content.toList name) :
    (e.unregister name).tagsIn content = e.tagsIn content :=
  congrArg (occurrences content) (found_unregister valid hu)

theorem expansion_unregister (ht : (e.unregister name).Templated)
    (hu : Tag.Unused content.toList name) :
    (e.unregister name).expansion content = e.expansion content := by
  have edits : ((e.unregister name).tagsIn content).mapM (e.unregister name).edit =
      ((e.unregister name).tagsIn content).mapM e.edit :=
    Rendering.mapM_congr fun o ho => edit_unregister ht ho
  change (Rendering.ofLogged
      ⟨(), warnings ((e.unregister name).scanner.scan content).unterminated⟩ >>= fun _ =>
    Text.splice content <$> ((e.unregister name).tagsIn content).mapM (e.unregister name).edit) = _
  rw [edits, unterminated_unregister valid hu, tagsIn_unregister valid hu]
  rfl

theorem expandWithin_unregister (ht : (e.unregister name).Templated) (depth : Nat)
    (hu : Tag.Unused content.toList name) :
    (e.unregister name).expandWithin depth content = e.expandWithin depth content := by
  induction depth generalizing content with
  | zero => rfl
  | succ depth ih =>
    rw [expandWithin, expandWithin, ← expansion_unregister valid ht hu]
    apply Rendering.run_congr
    intro text ha
    obtain ⟨m, hm, hi⟩ := ht.exists_of_asks ha
    exact ih (Scanner.unused_inner hu hm hi)

theorem strip_unregister (hooks : e.hooks.stripping = .empty) (hu : Tag.Unused content.toList name)
    (allowed : Option (List String)) :
    (e.unregister name).strip content allowed = e.strip content allowed := by
  let s : Scanner := ⟨e.strippedNames content allowed, e.ignoreHtml⟩
  have names : (e.unregister name).strippedNames content allowed =
      (e.strippedNames content allowed).filter (· ≠ name) := by
    apply Tag.eq_of_precedes (ordered_strippedNames ..) ((ordered_strippedNames ..).filter _)
    intro other
    rw [mem_strippedNames (e := e.unregister name) hooks, unregister, Bindings.names_unregister,
      List.mem_filter, List.mem_filter, mem_strippedNames hooks]
    exact and_right_comm
  have scanner : Scanner.mk ((e.unregister name).strippedNames content allowed)
      (e.unregister name).ignoreHtml = s.without name := by
    rw [names]
    rfl
  have hv : ∀ other ∈ s.names, Tag.validateName other = .ok () := fun other h =>
    Bindings.validateName_of_mem_names ((mem_strippedNames hooks content).1 h).1
  have ho : s.names.Pairwise fun a b => Tag.precedes a b = true := ordered_strippedNames ..
  rw [strip, strip, scanner, Scanner.found_without hv ho valid hu,
    Scanner.unterminated_without hv ho valid hu]

theorem tags_unregister (hu : Tag.Unused content.toList name) :
    (e.unregister name).tags content = e.tags content := by
  have hv : ∀ other ∈ e.scanner.names, Tag.validateName other = .ok () := fun _ =>
    Bindings.validateName_of_mem_names
  have ho := e.handlers.ordered_names
  rw [tags, tags, scanner_unregister, Scanner.nested_without hv ho valid content hu,
    Scanner.nestedUnterminated_without hv ho valid content hu]

theorem hasTag_unregister (hu : Tag.Unused content.toList name) (tag : String) :
    ((e.unregister name).hasTag content tag).value = (e.hasTag content tag).value := by
  apply Bool.eq_iff_iff.2
  rw [hasTag_iff, hasTag_iff, ← mem_tags, ← mem_tags, tags_unregister valid hu]

end

/-- Beside templates, and without callbacks for stripping, a tag that is registered makes no
difference to a text in which no `[` has its name behind it. Taken out again it leaves the engine as
it was. -/
theorem register_unused (ht : e.Templated) (hooks : e.hooks.stripping = .empty)
    (valid : Tag.validateName name = .ok ()) (hn : e.handlers.contains name = false)
    (handler : Handler) :
    ∃ other, e.register name handler = ⟨.ok other, []⟩ ∧ other.unregister name = e ∧
      ∀ content, Tag.Unused content.toList name →
        other.expand content = e.expand content ∧
        (∀ allowed, other.strip content allowed = e.strip content allowed) ∧
        other.tags content = e.tags content ∧
        (other.scanner.scan content).found = (e.scanner.scan content).found ∧
        ∀ tag, (other.hasTag content tag).value = (e.hasTag content tag).value := by
  obtain ⟨handlers, hh⟩ := Bindings.exists_register valid e.handlers handler
  obtain ⟨other, hr⟩ : ∃ other, e.register name handler = ⟨.ok other, []⟩ := by
    rw [register, hh, hn]
    exact ⟨_, rfl⟩
  have restored : other.unregister name = e :=
    unregister_of_register (congrArg Logged.value hr) hn
  refine ⟨other, hr, restored, ?_⟩
  subst restored
  intro content hu
  exact ⟨(expandWithin_unregister valid ht _ hu).symm,
    fun allowed => (strip_unregister (e := other) valid hooks hu allowed).symm,
    (tags_unregister valid hu).symm,
    (found_unregister valid hu).symm, fun tag => (hasTag_unregister valid hu tag).symm⟩

/-- The name begins one of the others, it is closed, and it stands in a name that is not registered,
but nothing opens it. Its handler is never called. -/
theorem register_unused_closed :
    (let config : Config := ⟨true, none, [("ab", ⟨"<\x7bcontent\x7d>", [], true⟩),
        ("b", ⟨"\x7bx\x7d", [("x", "!")], true⟩)], none⟩
     let handler : Handler := fun _ _ inner => Rendering.ask (inner.getD "" ++ "[a]")
     let content := "[ab [/a]y[b][/a][/b] [a-c] [/a][/ab] [ab"
     let e : Engine := config.engine.toOption.getD (.empty true)
     config.engine = .ok e ∧ e.Templated ∧ Tag.Unused content.toList "a" ∧
      (e.expand content).value = some "<y! [a-c] [/a]> [ab" ∧
      ∃ other, e.register "a" handler = ⟨.ok other, []⟩ ∧ other.unregister "a" = e ∧
        other.expand content = e.expand content ∧
        other.strip content (some ["a", "b"]) = e.strip content (some ["a", "b"]) ∧
        other.tags content = e.tags content ∧
        (other.hasTag content "a").value = (e.hasTag content "a").value) := by
  intro config handler content e
  have made : config.engine = .ok e := rfl
  have templated : e.Templated := .ofConfig made
  have unused : Tag.Unused content.toList "a" := by decide +kernel
  obtain ⟨other, registered, restored, same⟩ := register_unused templated rfl
    (show Tag.validateName "a" = .ok () from rfl) (by decide +kernel) handler
  obtain ⟨expanded, stripped, listed, -, probed⟩ := same content unused
  exact ⟨made, templated, unused, by decide +kernel, other, registered, restored, expanded,
    stripped _, listed, probed _⟩

end Engine

end Shortcode
