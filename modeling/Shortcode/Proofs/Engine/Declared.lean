import Shortcode.Proofs.Attribute.Override
import Shortcode.Proofs.Engine.Template

namespace Shortcode

namespace HookPoints

variable {h : HookPoints} {tag : String} {defaults merged : Attributes} {written : Written}

theorem merge_eq_foldl : h.merge tag defaults written merged =
    (h.merging tag).callbacks.foldl (fun m f => f m defaults written) merged :=
  Chain.fold_eq_foldl ..

/-- What each callback of a tag keeps is kept by all of them. -/
theorem merge_induction {motive : Attributes → Prop} (start : motive merged)
    (step : ∀ f ∈ (h.merging tag).callbacks, ∀ m, motive m → motive (f m defaults written)) :
    motive (h.merge tag defaults written merged) := by
  rw [merge_eq_foldl]
  exact List.foldlRecOn _ _ start fun m hm f hf => step f hf m hm

end HookPoints

namespace Template

variable {name : List Char} {key : Key} {merged : Attributes} {written : Written} {content : String}

/-- What is written counts where nothing is left under the key, and shows unless it is written like
the placeholder. -/
theorem replacement_eq_merged_iff (hn : name ≠ []) (hc : name ≠ "content".toList)
    (hk : Refers name key) :
    replacement merged written content name =
        (merged.get? key).getD (String.ofList (Piece.placeholder name).text) ↔
      key ∈ merged.keys ∨ written.get? key = none ∨
        written.get? key = some (String.ofList (Piece.placeholder name).text) := by
  rw [replacement_of_refers hn hc hk, Attributes.mem_keys_iff]
  cases merged.get? key <;> cases written.get? key <;> simp

/-- The text in place of a placeholder is the value that the callbacks of the tag leave under its
key, and where they leave none it is the written value, or else the placeholder. So a written value
comes back that the callbacks have taken out, though its key is declared. It does not if each of them
keeps the key. -/
theorem placeholder_behind_callbacks (t : Template) (e : Engine) (tag : String) (written : Written)
    (inner : Option String) :
    let callbacks := (e.hooks.merging tag).callbacks
    let hooked := callbacks.foldl (fun m f => f m t.defaults written) (t.defaults.override written)
    ∃ replacement : String → List Char → String,
      (∀ answer : String → Logged (Option String),
        (t.handler (e.context tag) written inner).run answer =
          (t.enclosed answer inner).andThen fun content =>
            ⟨some (t.rendered (replacement content)), []⟩) ∧
      ∀ name key, name ≠ [] → name ≠ "content".toList → Refers name key → ∀ content,
        let itself := String.ofList (Piece.placeholder name).text
        (∀ value, hooked.get? key = some value → replacement content name = value) ∧
        (hooked.get? key = none →
          replacement content name = (written.get? key).getD itself) ∧
        (replacement content name = (hooked.get? key).getD itself ↔
          key ∈ hooked.keys ∨ written.get? key = none ∨ written.get? key = some itself) ∧
        (key ∈ t.defaults.keys →
          (∀ f ∈ callbacks, ∀ m, key ∈ m.keys → key ∈ (f m t.defaults written).keys) →
          key ∈ hooked.keys) ∧
        (key ∉ t.defaults.keys →
          (∀ f ∈ callbacks, ∀ m, key ∉ m.keys → key ∉ (f m t.defaults written).keys) →
          key ∉ hooked.keys) := by
  intro callbacks hooked
  have left : (e.context tag).merge t.defaults written = hooked := HookPoints.merge_eq_foldl
  rw [← left]
  refine ⟨replacement _ written, run_handler t (e.context tag) written inner, ?_⟩
  intro name key hn hc hk content itself
  refine ⟨fun value hv => ?_, fun none => ?_, replacement_eq_merged_iff hn hc hk,
    fun declared keep => ?_, fun undeclared keep => ?_⟩
  · rw [replacement_of_refers hn hc hk, hv]
    rfl
  · rw [replacement_of_refers hn hc hk, none]
    rfl
  · exact HookPoints.merge_induction (motive := (key ∈ ·.keys))
      ((Attributes.mem_keys_override written).2 declared) keep
  · exact HookPoints.merge_induction (motive := (key ∉ ·.keys))
      (mt (Attributes.mem_keys_override written).1 undeclared) keep

/-- A declared key that the callback changes, one that it takes out, and one that is not declared. -/
theorem placeholder_behind_callbacks_mixed :
    let t : Template := ⟨"{name} {size} {0}",
      .ofList [(.name "name", "world"), (.name "size", "1")], false⟩
    let raise : MergeHook := fun m _ _ =>
      ⟨m.entries.filterMap fun e => if e.1 = .name "size" then none else some (e.1, "!"), 0⟩
    let hooks := HookPoints.empty.onMerge "greet" 10 raise
    let e : Engine := ⟨⟨[("greet", t.handler)], by decide, by decide⟩, hooks, false⟩
    let written := Written.parse " name=ann size=2 x"
    (∀ f ∈ (e.hooks.merging "greet").callbacks, ∀ m, Key.name "name" ∈ m.keys →
      Key.name "name" ∈ (f m t.defaults written).keys) ∧
    Key.name "name" ∈ ((e.context "greet").merge t.defaults written).keys ∧
    ((t.handler (e.context "greet") written none).run e.expand).value = some "! 2 x" := by
  intro t raise hooks e written
  have keeps : ∀ f ∈ (e.hooks.merging "greet").callbacks, ∀ m, Key.name "name" ∈ m.keys →
      Key.name "name" ∈ (f m t.defaults written).keys := by
    refine List.forall_mem_singleton.2 fun m hm => ?_
    obtain ⟨d, hd, hk⟩ := List.mem_map.1 hm
    refine List.mem_map.2 ⟨(.name "name", "!"), List.mem_filterMap.2 ⟨d, hd, ?_⟩, rfl⟩
    rw [hk]
    rfl
  obtain ⟨replacement, run, shown⟩ := placeholder_behind_callbacks t e "greet" written none
  obtain ⟨changed, -, -, kept, -⟩ := shown "name".toList (.name "name") (by decide) (by decide)
    ((refers_iff (by decide)).2 (by decide +kernel)) ""
  obtain ⟨-, out, -⟩ := shown "size".toList (.name "size") (by decide) (by decide)
    ((refers_iff (by decide)).2 (by decide +kernel)) ""
  obtain ⟨-, undeclared, -⟩ := shown "0".toList (.index 0) (by decide) (by decide)
    ((refers_iff (by decide)).2 (by decide +kernel)) ""
  have places : Placeholder.allIn t.text.toList =
      [⟨0, "name".toList⟩, ⟨7, "size".toList⟩, ⟨14, "0".toList⟩] := by decide +kernel
  refine ⟨keeps, kept (by decide) keeps, ?_⟩
  rw [run e.expand]
  change some (t.rendered (replacement "")) = _
  rw [rendered, places]
  simp only [List.map_cons, List.map_nil, Placeholder.edit, changed "!" (by decide +kernel),
    out (by decide +kernel), undeclared (by decide +kernel)]
  decide +kernel

/-- The name of a declared attribute shows as it is written though the callback leaves nothing. -/
theorem placeholder_dropped :
    let t : Template := ⟨"Hello, {name}!", .ofList [(.name "name", "world")], false⟩
    let e : Engine := ⟨⟨[("greet", t.handler)], by decide, by decide⟩,
      HookPoints.empty.onMerge "greet" 10 fun _ _ _ => .empty, false⟩
    Key.name "name" ∈ t.defaults.keys ∧
      (e.context "greet").merge t.defaults (.parse " name=ann") = .empty ∧
      (e.expand "[greet name=ann]").value = some "Hello, ann!" := by
  intro t e
  have once : (e.expandWithin 1 "[greet name=ann]").value = some "Hello, ann!" := by
    decide +kernel
  refine ⟨by decide, rfl, ?_⟩
  rw [Engine.expand_eq_expandWithin, Nat.add_comm, Engine.expandWithin_add once, once]

end Template

end Shortcode
