import Shortcode.Proofs.Engine.Calls
import Shortcode.Proofs.Engine.Strip
import Shortcode.Proofs.Tag.Wrapped

namespace Shortcode.Engine

variable {e : Engine} {content name attrText : String}

theorem exists_tagsIn_of_found {m : Match} (h : (e.scanner.scan content).found = [m]) :
    ∃ o, e.tagsIn content = [o] ∧ o.tag = m := ⟨_, congrArg (occurrences content) h, rfl⟩

/-- What stands in place of the match stands between the ends of the text. -/
theorem value_expand_of_tagsIn {o : Occurrence} (h : e.tagsIn content = [o]) :
    (e.expand content).value =
      (e.inPlace (e.expandWithin (nestingLimit content - 1)) content o).map fun text =>
        String.ofList (content.toList.take o.tag.start) ++ text ++
          String.ofList (content.toList.drop o.tag.stop) := by
  rw [expand_eq_expandWithin, value_expandWithin, h, List.mapM_cons, List.mapM_nil, place]
  cases e.inPlace (e.expandWithin (nestingLimit content - 1)) content o with
  | none => rfl
  | some text => simp [Text.concatenation, Text.slice]

theorem value_expand_wrapped (hname : name ∈ e.handlers.names) (ha : Tag.IsSetOff attrText)
    (n : Nat) :
    (e.expand (Tag.wrapped (n + 2) name attrText)).value =
        some (Tag.wrapped (n + 1) name attrText) ∧
      (e.tagsIn (Tag.wrapped (n + 2) name attrText)).flatMap e.calls = [] := by
  obtain ⟨m, found, escaped, start, stop⟩ :=
    e.scanner.exists_found_wrapped (fun _ => Bindings.validateName_of_mem_names)
      (Tag.nodup_of_precedes e.handlers.ordered_names) hname ha n
  obtain ⟨o, tags, rfl⟩ := exists_tagsIn_of_found found
  obtain ⟨lead, trail⟩ := Bool.and_eq_true_iff.1 escaped
  have tagStart : o.tag.tagStart = n + 1 := by rw [Match.tagStart, start, lead, Bool.toNat_true]
  have tagStop : o.tag.tagStop = o.tag.stop - 1 := by rw [Match.tagStop, trail, Bool.toNat_true]
  constructor
  · rw [value_expand_of_tagsIn tags, inPlace, ← Match.escaped, if_pos escaped, Option.map_some,
      tagStart, tagStop, start, ← String.ofList_append, ← String.ofList_append,
      Tag.cut_wrapped n name attrText stop, String.ofList_toList]
  · rw [tags, List.flatMap_singleton, calls, if_pos escaped]

/-- Stripping all names, which is expanding with handlers that write nothing. -/
theorem value_strip_wrapped (hooks : e.hooks.stripping = .empty) (hname : name ∈ e.handlers.names)
    (ha : Tag.IsSetOff attrText) (n : Nat) :
    (e.strip (Tag.wrapped (n + 2) name attrText) none).value =
      Tag.wrapped (n + 1) name attrText := by
  have muted := e.mutes_mute none
  have hmuted : name ∈ (e.mute none).handlers.names := (muted.names name).2 ⟨hname, nofun⟩
  have expanded := (value_expand_wrapped hmuted ha n).1
  rw [expand, nestingLimit, expandWithin, muted.expansion_eq hooks, Rendering.run_ofLogged]
    at expanded
  exact Option.some.inj expanded

theorem value_expand_bare {handler : Handler} (bound : e.handlers.get? name = some handler)
    (before : e.hooks.preRender = .empty) (after : e.hooks.postRender = .empty) :
    (e.expand (Tag.wrapped 1 name "")).value =
      ((handler (e.context name) .absent none).run
        (e.expandWithin (nestingLimit (Tag.wrapped 1 name "") - 1))).value := by
  have hname := Bindings.mem_names_of_get? bound
  have found := e.scanner.found_wrapped_one (fun _ => Bindings.validateName_of_mem_names)
    (Tag.nodup_of_precedes e.handlers.ordered_names)
    (Tag.longestFirst_toList (Tag.size_of_precedes e.handlers.ordered_names)) hname
  obtain ⟨o, tags, tag⟩ := exists_tagsIn_of_found found
  have plain : e.hooks.override o = none := by
    rw [HookPoints.override, HookPoints.overrideM, before]
    rfl
  have same : e.hooks.finish o = id := by
    funext text
    rw [HookPoints.finish, HookPoints.finishM, after]
    rfl
  have absent : Written.parse "" = .absent := rfl
  rw [value_expand_of_tagsIn tags, inPlace, output, plain, same, tag, bound]
  simp [absent]

/-- Of two pairs of brackets or more around a registered name, with an attribute text or without,
expanding takes one off and calls neither handlers nor callbacks, and so does stripping without
callbacks of its own, whatever other names are registered and whichever of them fits. In one pair the
name is a tag without attributes and enclosed text, and its handler is asked for the text. -/
theorem expand_wrapped {handler : Handler} (bound : e.handlers.get? name = some handler) :
    (∀ n ≥ 2, ∀ attrText, Tag.IsSetOff attrText →
      (e.expand (Tag.wrapped n name attrText)).value = some (Tag.wrapped (n - 1) name attrText) ∧
      (e.tracedExpansion (Tag.wrapped n name attrText)).run [] =
        (fun text => (text, [])) <$> e.expansion (Tag.wrapped n name attrText) ∧
      (e.hooks.stripping = .empty → (e.strip (Tag.wrapped n name attrText) none).value =
        Tag.wrapped (n - 1) name attrText)) ∧
    (e.hooks.preRender = .empty → e.hooks.postRender = .empty →
      (e.expand (Tag.wrapped 1 name "")).value =
        ((handler (e.context name) .absent none).run
          (e.expandWithin (nestingLimit (Tag.wrapped 1 name "") - 1))).value) := by
  have hname := Bindings.mem_names_of_get? bound
  refine ⟨fun n hn attrText ha => ?_, value_expand_bare bound⟩
  obtain ⟨n, rfl⟩ := Nat.exists_eq_add_of_le' hn
  obtain ⟨expanded, silent⟩ := value_expand_wrapped hname ha n
  refine ⟨expanded, ?_, fun hooks => value_strip_wrapped hooks hname ha n⟩
  rw [run_tracedExpansion, silent]

/-- The attribute text goes on so that another name fits. -/
theorem expand_wrapped_shadowed :
    (let handler : Handler := fun c written inner =>
      pure (if written = .absent ∧ inner = none then c.tag ++ "!" else "")
     let e : Engine := ⟨⟨[("a.b", handler), ("a", handler)], by decide, by decide⟩, .empty, true⟩
     e.handlers.get? "a" = some handler ∧ Tag.IsSetOff ".b x='1'/" ∧
      (e.expand "[[[a.b x='1'/]]]").value = some "[[a.b x='1'/]]" ∧
      (e.strip "[[[a.b x='1'/]]]" none).value = "[[a.b x='1'/]]" ∧
      (e.expand "[a]").value = some "a!") := by
  intro handler e
  have bound : e.handlers.get? "a" = some handler := rfl
  have setOff : Tag.IsSetOff ".b x='1'/" := by decide
  obtain ⟨escaped, bare⟩ := expand_wrapped bound
  obtain ⟨expanded, -, stripped⟩ := escaped 3 (by decide) ".b x='1'/" setOff
  exact ⟨bound, setOff, expanded, stripped rfl, bare rfl rfl⟩

end Shortcode.Engine
