import Shortcode.Engine.Basic
import Shortcode.Proofs.Engine.Names
import Shortcode.Proofs.Tag.Lossless

namespace Shortcode

/-- The kept names of the bindings, all bound to the same. -/
def Bindings.only {α β : Type} (b : Bindings α) (keep : String → Bool) (a : β) : Bindings β where
  entries := (b.entries.filter fun e => keep e.1).map fun e => (e.1, a)
  ordered := List.pairwise_map.2 (b.ordered.filter _)
  valid := by
    intro entry h
    obtain ⟨e, he, rfl⟩ := List.mem_map.1 h
    exact b.valid e (List.mem_filter.1 he).1

theorem Bindings.names_only {α β : Type} (b : Bindings α) (keep : String → Bool) (a : β) :
    (b.only keep a).names = b.names.filter keep := by
  rw [names, names, only, List.map_map, List.filter_map]
  rfl

theorem Bindings.eq_of_get?_only {α β : Type} {b : Bindings α} {keep : String → Bool} {a c : β}
    {name : String} (h : (b.only keep a).get? name = some c) : c = a := by
  obtain ⟨entry, he, rfl⟩ := Option.map_eq_some_iff.1 h
  obtain ⟨e, -, rfl⟩ := List.mem_map.1 (List.mem_of_find?_eq_some he)
  rfl

theorem Rendering.mapM_eq_pure {α β : Type} {l : List α} {f : α → Rendering β} {g : α → β}
    (h : ∀ a ∈ l, f a = pure (g a)) : l.mapM f = pure (l.map g) := by
  induction l with
  | nil => rfl
  | cons a l ih =>
    obtain ⟨ha, hl⟩ := List.forall_mem_cons.1 h
    rw [List.mapM_cons, ha, ih hl]
    rfl

namespace Engine

variable {e muted : Engine} {allowed other : Option (List String)}

/-- A caller of `strip` asks for the name, by listing it or by giving no list. -/
def Requested (allowed : Option (List String)) (name : String) : Prop :=
  ∀ names ∈ allowed, name ∈ names

theorem mem_strippedNames (hooks : e.hooks.stripping = .empty) (content : String) {name : String} :
    name ∈ e.strippedNames content allowed ↔ name ∈ e.handlers.names ∧ Requested allowed name := by
  have unchanged (names : List String) : e.hooks.namesToStrip content names = names := by
    rw [HookPoints.namesToStrip, hooks]
    rfl
  rw [strippedNames, Tag.mem_longestFirst, unchanged, List.mem_filter, Bindings.contains_iff,
    and_comm]
  apply and_congr_right
  intro hname
  cases allowed with
  | none => exact ⟨fun _ => nofun, fun _ => hname⟩
  | some names =>
    constructor
    · rintro h _ ⟨⟩
      exact h
    · intro h
      exact h names rfl

theorem ordered_strippedNames (e : Engine) (content : String) (allowed : Option (List String)) :
    (e.strippedNames content allowed).Pairwise fun a b => Tag.precedes a b = true :=
  Tag.pairwise_longestFirst _

/-- Without callbacks for stripping, only the registered names of a list count. -/
theorem strip_congr (hooks : e.hooks.stripping = .empty)
    (h : ∀ name ∈ e.handlers.names, Requested other name ↔ Requested allowed name)
    (content : String) : e.strip content other = e.strip content allowed := by
  have names : e.strippedNames content other = e.strippedNames content allowed := by
    apply Tag.eq_of_precedes (ordered_strippedNames ..) (ordered_strippedNames ..)
    intro name
    rw [mem_strippedNames hooks, mem_strippedNames hooks]
    exact and_congr_right (h name)
  rw [strip, strip, names]

/-- The requested tags of the first engine are those of the second, and there they expand to
nothing. -/
structure Mutes (e muted : Engine) (allowed : Option (List String)) : Prop where
  hooks : muted.hooks = .empty
  ignoreHtml : muted.ignoreHtml = e.ignoreHtml
  names : ∀ name, name ∈ muted.handlers.names ↔ name ∈ e.handlers.names ∧ Requested allowed name
  silent : ∀ name handler, muted.handlers.get? name = some handler →
    ∀ context written inner, handler context written inner = pure ""

def mute (e : Engine) (allowed : Option (List String)) : Engine where
  handlers := e.handlers.only (fun name => allowed.all (·.contains name)) fun _ _ _ => pure ""
  hooks := .empty
  ignoreHtml := e.ignoreHtml

theorem mutes_mute (e : Engine) (allowed : Option (List String)) :
    e.Mutes (e.mute allowed) allowed where
  hooks := rfl
  ignoreHtml := rfl
  names name := by
    rw [mute, Bindings.names_only, List.mem_filter]
    apply and_congr_right
    intro _
    rw [Option.all_eq_true]
    simp only [Requested, List.contains_iff_mem, Option.mem_def]
  silent name handler h context written inner := by
    rw [Bindings.eq_of_get?_only h]

theorem Mutes.scanner_eq (h : e.Mutes muted allowed) (hooks : e.hooks.stripping = .empty)
    (content : String) :
    muted.scanner = ⟨e.strippedNames content allowed, e.ignoreHtml⟩ := by
  have names : muted.handlers.names = e.strippedNames content allowed := by
    apply Tag.eq_of_precedes (Bindings.ordered_names _) (ordered_strippedNames ..)
    intro name
    rw [h.names, mem_strippedNames hooks]
  rw [scanner, names, h.ignoreHtml]

/-- In place of a tag nothing is written but the escape brackets around it. -/
theorem Mutes.edit_eq (h : e.Mutes muted allowed) {o : Occurrence}
    (ho : o.tag.name ∈ muted.handlers.names) : muted.edit o = pure (o.tag.edit "") := by
  obtain ⟨handler, hget⟩ := Bindings.exists_get?_of_mem_names ho
  have plain : muted.hooks.override o = none := by
    rw [h.hooks]
    rfl
  have same (output : String) : muted.hooks.finish o output = output := by
    rw [h.hooks]
    rfl
  rw [Engine.edit_eq]
  split
  · rfl
  · rw [render_eq, plain, hget]
    simp only [h.silent _ _ hget, map_pure, same]

theorem Mutes.expansion_eq (h : e.Mutes muted allowed) (hooks : e.hooks.stripping = .empty)
    (content : String) :
    muted.expansion content = Rendering.ofLogged (e.strip content allowed) := by
  have edits : (occurrences content (muted.scanner.scan content).found).mapM muted.edit =
      pure ((muted.scanner.scan content).found.map (·.edit "")) := by
    have each : ∀ o ∈ occurrences content (muted.scanner.scan content).found,
        muted.edit o = pure (o.tag.edit "") := by
      intro o ho
      obtain ⟨m, hm, rfl⟩ := List.mem_map.1 ho
      exact h.edit_eq (Scanner.liesIn_of_mem hm).name_mem
    rw [Rendering.mapM_eq_pure each, occurrences, List.map_map]
    rfl
  rw [Engine.expansion_eq, edits, map_pure, Rendering.ofLogged_bind, h.scanner_eq hooks content]
  rfl

/-- Without callbacks for it, stripping is expansion by any engine that has exactly the requested
names, with handlers that write nothing, and there is such an engine. The order of the list does not
matter, nor its repetitions and its names that are not registered. -/
theorem strip_eq_expand (hooks : e.hooks.stripping = .empty) (allowed : Option (List String)) :
    (∃ muted, e.Mutes muted allowed) ∧
    (∀ muted, e.Mutes muted allowed → ∀ content, muted.expand content =
      ⟨some (e.strip content allowed).value, (e.strip content allowed).log⟩) ∧
    ∀ other, (∀ name ∈ e.handlers.names, Requested other name ↔ Requested allowed name) →
      ∀ content, e.strip content other = e.strip content allowed := by
  refine ⟨⟨e.mute allowed, mutes_mute e allowed⟩, ?_, fun _ => strip_congr hooks⟩
  intro muted h content
  rw [expand, nestingLimit, expandWithin, h.expansion_eq hooks, Rendering.run_ofLogged]

/-- An escaped tag loses its brackets, and a registered name that is not in the list is left. -/
theorem strip_eq_expand_list :
    (let e : Engine := ⟨⟨[("ab", fun c _ _ => pure c.tag), ("a", fun c _ _ => pure c.tag)],
        by decide, by decide⟩, .empty, false⟩
     let content := "[[a]] [a]x[/a] [ab] [[a]"
     e.hooks.stripping = .empty ∧
      (e.mute (some ["x", "a", "a"])).expand content = ⟨some "[a]  [ab] [", [.unterminated "a" 1]⟩ ∧
      e.strip content (some ["a"]) = ⟨"[a]  [ab] [", [.unterminated "a" 1]⟩) := by
  intro e content
  obtain ⟨-, expands, same⟩ := strip_eq_expand (e := e) rfl (some ["x", "a", "a"])
  have value : (e.strip content (some ["x", "a", "a"])).value = "[a]  [ab] [" := by decide +kernel
  have log : (e.strip content (some ["x", "a", "a"])).log =
      [.unterminated "a" 1] := by decide +kernel
  refine ⟨rfl, ?_, ?_⟩
  · rw [expands _ (mutes_mute e _), value, log]
  · rw [same (some ["a"]) (by simp [e, Requested, Bindings.names]), ← value, ← log]

end Engine

end Shortcode
