import Shortcode.Proofs.Attribute.Override
import Shortcode.Proofs.Config.Stages

namespace Shortcode

/-- Callbacks of other tags do not change what is merged. -/
theorem Engine.merge_of_empty {e : Engine} {name : String} (h : e.hooks.merging name = .empty)
    (defaults : Attributes) (written : Written) :
    e.merge (some name) defaults written = defaults.override written := by
  rw [merge, HookPoints.merge, h]
  rfl

namespace Config

variable {c : Config} {t : TagConfig} {d : String × String}

/-- The default comes last, in the order of bytes, of those whose keys differ from its key in case
only. -/
structure LastDeclared (t : TagConfig) (d : String × String) : Prop where
  mem : d ∈ t.defaults
  last : ∀ d' ∈ t.defaults, d'.1.map Char.toLower = d.1.map Char.toLower →
    d' = d ∨ Text.ByteBefore d'.1 d.1

namespace TagConfig

theorem keys_toTemplate_defaults (t : TagConfig) : (TagConfig.toTemplate t).defaults.keys =
      (t.defaults.map fun d => Key.name (d.1.map Char.toLower)).eraseDups := by
  rw [toTemplate, Attributes.keys_ofList, List.map_map]
  rfl

theorem mem_keys_toTemplate_defaults {key : Key} :
    key ∈ (TagConfig.toTemplate t).defaults.keys ↔
      ∃ d ∈ t.defaults, key = .name (d.1.map Char.toLower) := by
  rw [keys_toTemplate_defaults, List.mem_eraseDups, List.mem_map]
  simp only [eq_comm]

end TagConfig

theorem LastDeclared.get?_toTemplate (ho : KeysOrdered t.defaults) (h : LastDeclared t d) :
    (TagConfig.toTemplate t).defaults.get? (.name (d.1.map Char.toLower)) = some d.2 := by
  obtain ⟨before, after, hsplit⟩ := List.append_of_mem h.mem
  have later : ∀ d' ∈ after, d'.1.map Char.toLower ≠ d.1.map Char.toLower := by
    intro d' hd' hk
    have hmem : d' ∈ t.defaults := by
      rw [hsplit]
      exact List.mem_append_right _ (List.mem_cons_of_mem _ hd')
    rw [KeysOrdered, hsplit] at ho
    have hlt := (List.pairwise_cons.1 (List.pairwise_append.1 ho).2.1).1 d' hd'
    rcases h.last d' hmem hk with rfl | hlt'
    · exact List.lt_irrefl _ hlt
    · exact List.lt_asymm hlt hlt'
  rw [TagConfig.toTemplate, Attributes.get?_ofList, ← List.map_reverse, hsplit, List.reverse_append,
    List.reverse_cons, List.append_assoc, List.map_append, List.find?_append, List.find?_eq_none.2]
  · simp
  · intro e he
    obtain ⟨d', hd', rfl⟩ := List.mem_map.1 he
    simpa using later d' (List.mem_reverse.1 hd')

/-- Of keys that differ in case only, one comes last. -/
theorem exists_lastDeclared (ho : KeysOrdered t.defaults) (hd : d ∈ t.defaults) :
    ∃ d', LastDeclared t d' ∧ d'.1.map Char.toLower = d.1.map Char.toLower := by
  have listed : (t.defaults.reverse.find?
      (·.1.map Char.toLower = d.1.map Char.toLower)).isSome = true :=
    List.find?_isSome.2 ⟨d, List.mem_reverse.2 hd, decide_eq_true rfl⟩
  obtain ⟨d', hd'⟩ := Option.isSome_iff_exists.1 listed
  obtain ⟨hk', after, before, hsplit, hafter⟩ := List.find?_eq_some_iff_append.1 hd'
  have hk' := of_decide_eq_true hk'
  refine ⟨d', ⟨List.mem_reverse.1 (List.mem_of_find?_eq_some hd'), ?_⟩, hk'⟩
  intro d'' hd'' hk''
  have reversed : t.defaults.reverse.Pairwise fun a b => Text.ByteBefore b.1 a.1 :=
    List.pairwise_reverse.2 ho
  rw [hsplit] at reversed
  rw [← List.mem_reverse, hsplit] at hd''
  rcases List.mem_append.1 hd'' with hd'' | hd''
  · have hne := hafter d'' hd''
    rw [Bool.not_eq_true', decide_eq_false_iff_not] at hne
    exact absurd (hk''.trans hk') hne
  · rcases List.mem_cons.1 hd'' with rfl | hd''
    · exact .inl rfl
    · exact .inr ((List.pairwise_cons.1 (List.pairwise_append.1 reversed).2.1).1 d'' hd'')

/-- A default of an expanded configuration is one that was declared, with its value expanded. -/
theorem exists_declared {env : Environment} {raw expanded : Config} {name : String}
    (hx : raw.expandDefaults env = .ok expanded) (ht : (name, t) ∈ expanded.tags)
    (hd : d ∈ t.defaults) : ∃ t₀ value, (name, t₀) ∈ raw.tags ∧ (d.1, value) ∈ t₀.defaults ∧
      env.expand value = .ok d.2 := by
  obtain ⟨⟨_, t₀⟩, ht₀, expands⟩ := exists_mem_of_forall₂ (expandDefaults_spec hx).1 ht
  obtain rfl := expands.name
  obtain ⟨⟨_, value⟩, hvalue, hkey, hexpand⟩ := exists_mem_of_forall₂ expands.defaults hd
  obtain rfl := hkey
  exact ⟨t₀, value, ht₀, hvalue, hexpand⟩

/-- Without callbacks of its own, a configured tag works with the keys of its defaults in lower case,
each once. A key has the value that the attribute text gives last under that name in whatever case;
if there is none it has its default, which is the last in the order of bytes of the defaults that
are declared for it, with its value expanded. -/
theorem merged_attributes {e : Engine} {name : String} {hooks : HookPoints} (ho : c.Ordered)
    (he : c.engine = .ok e) (ht : (name, t) ∈ c.tags) (hm : hooks.merging name = .empty)
    (attrText : String) :
    let template := TagConfig.toTemplate t
    let merged := (Engine.context { e with hooks } name).merge template.defaults (.parse attrText)
    e.handlers.get? name = some template.handler ∧ merged.keys.Nodup ∧
    (∀ key, key ∈ merged.keys ↔ ∃ d ∈ t.defaults, key = .name (d.1.map Char.toLower)) ∧
    (∀ d ∈ t.defaults, ∃ d', LastDeclared t d' ∧
      d'.1.map Char.toLower = d.1.map Char.toLower ∧
      merged.get? (.name (d.1.map Char.toLower)) =
        some ((Attribute.lastNamed d.1
          (Attribute.tokens (Attribute.foldSpaces attrText.toList))).getD d'.2)) ∧
    ∀ (env : Environment) (raw expanded : Config), raw.expandDefaults env = .ok expanded →
      expanded.tags = c.tags → ∀ d ∈ t.defaults, ∃ t₀ value, (name, t₀) ∈ raw.tags ∧
        (d.1, value) ∈ t₀.defaults ∧ env.expand value = .ok d.2 := by
  intro template merged
  have nodup : template.defaults.keys.Nodup := Attributes.nodup_keys_ofList _
  have laid : merged = template.defaults.override (.parse attrText) :=
    Engine.merge_of_empty (e := { e with hooks }) hm _ _
  have same : merged.keys = template.defaults.keys := by rw [laid, Attributes.keys_override nodup]
  refine ⟨(registers_of_engine ho.tags he).handlers _ ht, same ▸ nodup, fun key => ?_,
    fun d hd => ?_, fun env raw expanded hx htags d => ?_⟩
  · rw [same]
    exact TagConfig.mem_keys_toTemplate_defaults
  · obtain ⟨d', last, hk⟩ := exists_lastDeclared (ho.defaults _ ht) hd
    refine ⟨d', last, hk, ?_⟩
    rw [laid, Attributes.get?_override nodup, Written.get?_parse, ← hk,
      last.get?_toTemplate (ho.defaults _ ht)]
    rfl
  · exact exists_declared hx (htags ▸ ht)

/-- A key in two cases that is written in a third and one that is not written, beside an attribute
that is not declared. -/
theorem merged_attributes_cases :
    let t : TagConfig :=
      ⟨"\x7bname\x7d", [("B", "1"), ("NAME", "2"), ("Name", "3"), ("b", "4")], false⟩
    let c : Config := ⟨false, none, [("x", t)], none⟩
    c.Ordered ∧ ∃ e, c.engine = .ok e ∧
      let merged := (e.context "x").merge (TagConfig.toTemplate t).defaults
        (.parse " nAmE='y' class=c NAME=z name")
      merged.keys.Nodup ∧
      (∀ key, key ∈ merged.keys ↔ ∃ d ∈ t.defaults, key = .name (d.1.map Char.toLower)) ∧
      merged.get? (.name "name") = some "z" ∧ merged.get? (.name "b") = some "4" := by
  intro t c
  have ordered : c.Ordered := by
    refine ⟨List.pairwise_singleton _ _, List.forall_mem_singleton.2 ?_⟩
    simp only [KeysOrdered, Text.byteBefore_iff_lt]
    decide
  have valid : c.Registrable := List.forall_mem_singleton.2 (by decide)
  obtain ⟨e, he⟩ := exists_engine_iff.2 valid
  have hooks : e.hooks = .empty := (registers_of_engine ordered.tags he).hooks
  have empty : e.hooks.merging "x" = .empty := by rw [hooks]; rfl
  obtain ⟨-, nodup, keys, values, -⟩ :=
    merged_attributes ordered he List.mem_cons_self empty " nAmE='y' class=c NAME=z name"
  have lower {s l : String} (h : s.toList.map Char.toLower = l.toList) : s.map Char.toLower = l :=
    String.toList_injective (String.toList_map.trans h)
  have name : "Name".map Char.toLower = "name" := lower (by decide)
  have upper : "B".map Char.toLower = "b" := lower (by decide)
  refine ⟨ordered, e, he, nodup, keys, ?_, ?_⟩
  · obtain ⟨d', -, -, written⟩ := values ("Name", "3") (by decide)
    have given : Attribute.lastNamed "Name" (Attribute.tokens
      (Attribute.foldSpaces " nAmE='y' class=c NAME=z name".toList)) = some "z" := by
      decide +kernel
    rw [name, given] at written
    exact written
  · obtain ⟨d', last, hk, unset⟩ := values ("B", "1") (by decide)
    have absent : Attribute.lastNamed "B" (Attribute.tokens
      (Attribute.foldSpaces " nAmE='y' class=c NAME=z name".toList)) = none := by
      decide +kernel
    have four : d' = ("b", "4") := by
      refine ((last.last ("b", "4") (by decide) ?_).resolve_right fun before => ?_).symm
      · rw [hk, upper]
        exact lower (by decide)
      · rw [Text.byteBefore_iff_lt] at before
        have mem := last.mem
        simp only [t, List.mem_cons, List.not_mem_nil, or_false] at mem
        rcases mem with rfl | rfl | rfl | rfl <;> exact absurd before (by decide)
    rw [upper, absent, four] at unset
    exact unset

end Config

end Shortcode
