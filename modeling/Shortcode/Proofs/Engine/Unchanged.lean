import Shortcode.Proofs.Engine.Pass
import Shortcode.Proofs.Engine.Probe
import Shortcode.Proofs.Engine.Strip
import Shortcode.Proofs.Tag.Coverage

namespace Shortcode

namespace Scanner

variable {s other : Scanner}

/-- With more names a tag can be read at no fewer places. -/
theorem Recognizes.mono {text : List Char} {p : Nat} (h : s.Recognizes text p)
    (names : s.names ⊆ other.names) (html : s.ignoreHtml = other.ignoreHtml) :
    other.Recognizes text p := by
  have same : s.hidden text = other.hidden text := by
    funext q
    rw [hidden, hidden, html]
  obtain ⟨name, hname, hnamed, q, hq, hclose⟩ := h.exists_name
  exact ⟨same ▸ h.shown, name, names hname, hnamed, q, hq, same ▸ hclose⟩

/-- What is found with some of the names lies in what is found with all of them. -/
theorem exists_match_of_subset (hv : ∀ name ∈ other.names, Tag.validateName name = .ok ())
    (hd : other.names.Nodup) (names : s.names ⊆ other.names)
    (html : s.ignoreHtml = other.ignoreHtml) {content : String} {m : Match}
    (hm : m ∈ (s.scan content).found) :
    ∃ m' ∈ (other.scan content).found, m'.start ≤ m.tagStart ∧ m.tagStart < m'.stop :=
  exists_match_of_recognizes hv hd ((recognizes_of_mem hm).mono names html)

end Scanner

namespace Engine

variable {e : Engine} {content : String}

/-- Whatever the callbacks for stripping return, only registered names are taken out. -/
theorem strippedNames_subset (e : Engine) (content : String) (allowed : Option (List String)) :
    e.strippedNames content allowed ⊆ e.handlers.names := by
  intro name h
  exact Bindings.contains_iff.1 (List.mem_filter.1 (Tag.mem_longestFirst.1 h)).2

theorem found_eq_nil_of_tags (h : (e.tags content).value = []) :
    (e.scanner.scan content).found = [] := by
  apply List.eq_nil_iff_forall_not_mem.2
  intro m hm
  have visited : e.scanner.Visits content m.tagStart m := Scanner.visits_iff.2 (.inl ⟨hm, rfl⟩)
  have listed : m.name ∈ (e.tags content).value :=
    (mem_tags e content m.name).2 (Scanner.offsets_nonempty_iff.2 ⟨_, m, visited, rfl⟩)
  rw [h] at listed
  cases listed

theorem expand_of_found_eq_nil (h : (e.scanner.scan content).found = []) :
    (e.expand content).value = some content := by
  have nothing : e.tagsIn content = [] := congrArg (occurrences content) h
  rw [expand_eq_expandWithin, value_expandWithin, nothing]
  simp [Text.concatenation]

theorem strip_of_found_eq_nil (h : (e.scanner.scan content).found = [])
    (allowed : Option (List String)) : (e.strip content allowed).value = content := by
  let s : Scanner := ⟨e.strippedNames content allowed, e.ignoreHtml⟩
  have names : s.names ⊆ e.scanner.names := e.strippedNames_subset content allowed
  have html : s.ignoreHtml = e.scanner.ignoreHtml := rfl
  have nothing : (s.scan content).found = [] := by
    apply List.eq_nil_iff_forall_not_mem.2
    intro m hm
    obtain ⟨m', hm', -⟩ := Scanner.exists_match_of_subset
      (fun _ => Bindings.validateName_of_mem_names) (Tag.nodup_of_precedes e.handlers.ordered_names)
      names html hm
    rw [h] at hm'
    cases hm'
  rw [strip, nothing, List.map_nil, Text.splice_nil]

theorem hasTag_of_tags_eq_nil (h : (e.tags content).value = []) (tag : String) :
    (e.hasTag content tag).value = false := by
  apply Bool.eq_false_iff.2
  intro hit
  have listed := (mem_tags e content tag).2 ((hasTag_iff e content tag).1 hit)
  rw [h] at listed
  cases listed

/-- A text in which no tag is listed is left as it is, whatever the handlers and callbacks are and
whichever names are to be stripped. -/
theorem unchanged_of_tags_eq_nil (h : (e.tags content).value = []) :
    (e.expand content).value = some content ∧
    (∀ allowed, (e.strip content allowed).value = content) ∧
    ∀ tag, (e.hasTag content tag).value = false :=
  ⟨expand_of_found_eq_nil (found_eq_nil_of_tags h),
    strip_of_found_eq_nil (found_eq_nil_of_tags h), hasTag_of_tags_eq_nil h⟩

/-- A callback that asks for a shorter name, and for one that is not registered, does not make a tag
of the name that runs on. -/
theorem unchanged_of_callback :
    (let hooks := HookPoints.empty.onStrip 0 fun names _ => "no" :: "a" :: names.reverse
     let e : Engine := ⟨⟨[("ab", fun c _ _ => pure c.tag), ("a", fun c _ _ => pure c.tag)],
        by decide, by decide⟩, hooks, true⟩
     let content := "[abc] [/ab] <i [a]> [no] [a"
     (e.tags content).value = [] ∧ (e.expand content).value = some content ∧
      (e.strip content (some ["ab"])).value = content ∧
      (e.hasTag content "a").value = false) := by
  intro hooks e content
  have unlisted : (e.tags content).value = [] := by decide +kernel
  obtain ⟨expanded, stripped, probed⟩ := unchanged_of_tags_eq_nil unlisted
  exact ⟨unlisted, expanded, stripped _, probed _⟩

end Engine

end Shortcode
