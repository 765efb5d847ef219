import Shortcode.Proofs.Config.Loaded
import Shortcode.Proofs.Config.Merged
import Shortcode.Proofs.Engine.Wrapped

namespace Shortcode

namespace Template

variable {template : Template} {name : List Char}

/-- A placeholder with this text stands for an attribute without a name. -/
def IsNumber (name : List Char) : Prop :=
  name.all Char.isDigit = true ∧ Nat.ofDigitChars 10 name 0 < UInt64.size

instance (name : List Char) : Decidable (IsNumber name) := inferInstanceAs (Decidable (_ ∧ _))

theorem key_of_isNumber (h : IsNumber name) : ∃ i, key name = .index i :=
  ⟨_, if_pos (by rw [h.1, decide_eq_true h.2]; rfl)⟩

theorem key_of_not_isNumber (h : ¬ IsNumber name) : key name = .name (String.ofList name) := by
  refine if_neg fun hk => h ?_
  rw [Bool.and_eq_true_iff, decide_eq_true_iff] at hk
  exact hk

/-- Without attributes only the defaults count. -/
theorem fill_absent (nodup : template.defaults.keys.Nodup) (hn : name ≠ "content".toList) :
    fill (template.defaults.override .absent) .absent "" (.placeholder name) =
      ((template.defaults.get? (key name)).elim (Piece.placeholder name).text String.toList) := by
  rw [fill, if_neg hn, Attributes.get?_override_absent nodup]
  cases template.defaults.get? (key name) <;> rfl

/-- A tag with nothing but its name is replaced by the template, piece by piece. -/
theorem value_expand_bare {e : Engine} {tag : String}
    (bound : e.handlers.get? tag = some template.handler) (before : e.hooks.preRender = .empty)
    (after : e.hooks.postRender = .empty) (merging : e.hooks.merging tag = .empty) :
    (e.expand (Tag.wrapped 1 tag "")).value =
      some (String.ofList ((Piece.split template.text.toList).flatMap
        (fill (template.defaults.override .absent) .absent ""))) := by
  rw [Engine.value_expand_bare bound before after, ← Engine.merge_of_empty merging]
  rfl

end Template

namespace Config

variable {t : TagConfig} {d : String × String} {key : String}

/-- A placeholder with this key can find a default: there is no capital in it, and it is no
number. -/
structure Addressable (key : String) : Prop where
  lower : ∀ c ∈ key.toList, c.isUpper = false
  named : ¬ Template.IsNumber key.toList

instance (key : String) : Decidable (Addressable key) :=
  decidable_of_iff (key.toList.all (!·.isUpper) = true ∧ ¬ Template.IsNumber key.toList) (by
    simp only [List.all_eq_true, Bool.not_eq_true']
    exact ⟨fun h => ⟨h.1, h.2⟩, fun h => ⟨h.lower, h.named⟩⟩)

theorem isUpper_of_mem_toLower {c : Char} (h : c ∈ (key.map Char.toLower).toList) :
    c.isUpper = false := by
  rw [String.toList_map] at h
  obtain ⟨c, -, rfl⟩ := List.mem_map.1 h
  exact Char.isUpper_toLower_eq_false c

theorem map_toLower_of_lower (h : ∀ c ∈ key.toList, c.isUpper = false) :
    key.map Char.toLower = key := by
  have same : ∀ c ∈ key.toList, c.toLower = id c := fun c hc =>
    Char.toLower_eq_of_not_isUpper (Bool.eq_false_iff.1 (h c hc))
  rw [← String.toList_inj, String.toList_map, List.map_congr_left same, List.map_id]

/-- A default that can be found under its own key is put in place of a placeholder with that key. -/
theorem fill_of_addressable (ho : KeysOrdered t.defaults) (last : LastDeclared t d)
    (ha : Addressable d.1) (hn : d.1 ≠ "content") :
    Template.fill ((TagConfig.toTemplate t).defaults.override .absent) .absent ""
      (.placeholder d.1.toList) = d.2.toList := by
  have found := last.get?_toTemplate ho
  rw [map_toLower_of_lower ha.lower] at found
  rw [Template.fill_absent (Attributes.nodup_keys_ofList _) (mt String.toList_inj.1 hn),
    Template.key_of_not_isNumber ha.named, String.ofList_toList, found]
  rfl

/-- A placeholder with another key stays, whatever is declared. -/
theorem fill_of_not_addressable (t : TagConfig) (ha : ¬ Addressable key) (hn : key ≠ "content") :
    Template.fill ((TagConfig.toTemplate t).defaults.override .absent) .absent ""
      (.placeholder key.toList) = (Piece.placeholder key.toList).text := by
  have missing : Template.key key.toList ∉ (TagConfig.toTemplate t).defaults.keys := by
    intro hm
    obtain ⟨d, -, hd⟩ := TagConfig.mem_keys_toTemplate_defaults.1 hm
    by_cases number : Template.IsNumber key.toList
    · obtain ⟨i, hi⟩ := Template.key_of_isNumber number
      cases hi.symm.trans hd
    · rw [Template.key_of_not_isNumber number, String.ofList_toList, Key.name.injEq] at hd
      refine ha ⟨fun c hc => ?_, number⟩
      rw [hd] at hc
      exact isUpper_of_mem_toLower hc
  rw [Template.fill_absent (Attributes.nodup_keys_ofList _) (mt String.toList_inj.1 hn),
    Attributes.get?_of_notMem missing]
  rfl

variable {env : Environment} {name : String} {t' : TagConfig}

theorem Expands.keys {a b : String × TagConfig} (h : Expands env a b) :
    b.2.defaults.map (·.1) = a.2.defaults.map (·.1) := by
  rw [← List.forall₂_eq_eq_eq, List.forall₂_map_left_iff, List.forall₂_map_right_iff]
  exact h.defaults.flip.imp fun _ _ hd => hd.1

/-- A default whose key differs from all others in more than case is the last for its key. -/
theorem Expands.exists_lastDeclared {a b : String × TagConfig} (h : Expands env a b)
    (ho : KeysOrdered b.2.defaults) (hd : d ∈ a.2.defaults)
    (alone : ∀ d' ∈ a.2.defaults, d'.1.map Char.toLower = d.1.map Char.toLower → d' = d) :
    ∃ value, env.expand d.2 = .ok value ∧ LastDeclared b.2 (d.1, value) := by
  obtain ⟨⟨_, value⟩, hmem, hkey, hvalue⟩ := exists_mem_of_forall₂ h.defaults.flip hd
  obtain rfl := hkey
  refine ⟨value, hvalue, hmem, fun d' hd' hk => .inl ?_⟩
  obtain ⟨d₀, hd₀, hkey, -⟩ := exists_mem_of_forall₂ h.defaults hd'
  rw [hkey] at hk
  have same : d'.1 = d.1 := by rw [hkey, alone d₀ hd₀ hk]
  exact List.inj_on_of_nodup_map ho.nodup hd' hmem same

end Config

open Config

variable {tree : FileTree} {cwd : List RawText} {env : Environment} {path : Option FilePath}
  {settings : Settings} {shown : String} {text : Except ReadFault String} {c : Config} {s : Setup}

namespace Config

theorem ordered_of_configured (ho : c.Ordered) (h : s.Configured env settings shown c) :
    s.config.Ordered where
  tags := by
    rw [keysOrdered_iff_names, map_eq_of_expands (fun _ _ ht => ht.name) h.tags,
      ← keysOrdered_iff_names]
    exact ho.tags
  defaults b hb := by
    obtain ⟨a, ha, hab⟩ := exists_mem_of_forall₂ h.tags hb
    rw [keysOrdered_iff_names, hab.keys, ← keysOrdered_iff_names]
    exact ho.defaults a ha

end Config

/-- A bare tag of a loaded file is replaced by its template, in which the declared values stand that
a placeholder can find: of the keys that differ from the others in more than case, those without
capitals that are no numbers. A placeholder with one of the others stays as it is written. -/
theorem Setup.expand_bare (source : Source tree cwd path shown text)
    (hl : Setup.load tree cwd env path settings = .ok s) :
    ∃ c, Loads env text c ∧ ∀ name t, (name, t) ∈ c.tags → ∀ hooks : HookPoints,
      hooks.preRender = .empty → hooks.postRender = .empty → hooks.merging name = .empty →
      ∃ filled : Piece → List Char,
        (Engine.expand { s.engine with hooks } (Tag.wrapped 1 name "")).value =
          some (String.ofList ((Piece.split t.template.toList).flatMap filled)) ∧
        (∀ c, filled (.plain c) = [c]) ∧ filled (.placeholder "content".toList) = [] ∧
        ∀ d ∈ t.defaults, d.1 ≠ "content" →
          (∀ d' ∈ t.defaults, d'.1.map Char.toLower = d.1.map Char.toLower → d' = d) →
          ∃ value, env.expand d.2 = .ok value ∧
            (Addressable d.1 → filled (.placeholder d.1.toList) = value.toList) ∧
            (¬ Addressable d.1 →
              filled (.placeholder d.1.toList) = (Piece.placeholder d.1.toList).text) := by
  rcases source.outcome env settings with ⟨error, hl', -⟩ | ⟨s', hl', c, loads, configured⟩
  · cases hl.symm.trans hl'
  cases hl.symm.trans hl'
  obtain ⟨content, -, decoded⟩ := loads.decoded
  have ordered := ordered_of_configured (ordered_of_decode decoded) configured
  refine ⟨c, loads, fun name t ht hooks before after merging => ?_⟩
  obtain ⟨⟨_, t'⟩, ht', expands⟩ := exists_mem_of_forall₂ configured.tags.flip ht
  obtain rfl := expands.name
  have bound := configured.bound ht'
  refine ⟨Template.fill ((TagConfig.toTemplate t').defaults.override .absent) .absent "", ?_,
    fun _ => rfl, rfl, fun d hd hn alone => ?_⟩
  · rw [← expands.template]
    exact Template.value_expand_bare bound before after merging
  · obtain ⟨value, hvalue, last⟩ :=
      expands.exists_lastDeclared (ordered.defaults _ ht') hd alone
    exact ⟨value, hvalue, fun ha => fill_of_addressable (ordered.defaults _ ht') last ha hn,
      fun ha => fill_of_not_addressable t' ha hn⟩

/-- A value that is expanded, and two that no placeholder finds. -/
theorem Setup.expand_bare_kinds :
    let template := "\x7blow\x7d \x7bUp\x7d \x7b7\x7d\x7bcontent\x7d"
    let content := "[tags.x]\ntemplate = '" ++ template ++
      "'\n[tags.x.defaults]\nlow = '$\x7bV:-v\x7d'\nUp = 'u'\n7 = 'n'"
    let tree := FileTree.ofFiles [(["shortcodes.toml"], content.toUTF8)] []
    ∃ s, Setup.load tree [] ⟨[]⟩ none ⟨none⟩ = .ok s ∧
      (s.engine.expand "[x]").value = some "v \x7bUp\x7d \x7b7\x7d" := by
  intro template content tree
  let t : TagConfig := ⟨template, [("7", "n"), ("Up", "u"), ("low", "$\x7bV:-v\x7d")], false⟩
  let c : Config := ⟨false, none, [("x", t)], none⟩
  have decoded : decode content = .ok c := by
    dsimp only [content, c, t, template]
    cbv
  have expands : c.expandDefaults ⟨[]⟩ = .ok { c with tags :=
      [("x", { t with defaults := [("7", "n"), ("Up", "u"), ("low", "v")] })] } := by
    decide +kernel
  have valid : c.validate = .ok () := by decide +kernel
  have registrable : c.Registrable := List.forall_mem_singleton.2 (by decide)
  obtain ⟨e, loaded, configured⟩ :=
    (source_of_file content).exists_configured rfl decoded expands valid registrable ⟨none⟩
  obtain ⟨c', loads, bare⟩ := Setup.expand_bare (source_of_file content) loaded
  obtain ⟨_, ⟨⟩, decoded'⟩ := loads.decoded
  cases decoded.symm.trans decoded'
  have hooks : e.hooks = .empty := configured.hooks
  obtain ⟨filled, expanded, plain, enclosed, declared⟩ := bare "x" t List.mem_cons_self
    e.hooks (by rw [hooks]; rfl) (by rw [hooks]; rfl) (by rw [hooks]; rfl)
  have alone : ∀ d ∈ t.defaults, ∀ d' ∈ t.defaults,
      d'.1.map Char.toLower = d.1.map Char.toLower → d' = d := by
    have lists : ∀ d ∈ t.defaults, ∀ d' ∈ t.defaults,
        d'.1.toList.map Char.toLower = d.1.toList.map Char.toLower → d' = d := by decide
    intro d hd d' hd' hk
    refine lists d hd d' hd' ?_
    rw [← String.toList_map, hk, String.toList_map]
  have all (d) (hd : d ∈ t.defaults) (hn : d.1 ≠ "content") := declared d hd hn (alone d hd)
  obtain ⟨low, hlow, found, -⟩ := all ("low", "$\x7bV:-v\x7d") (by decide) (by decide)
  obtain ⟨-, -, -, up⟩ := all ("Up", "u") (by decide) (by decide)
  obtain ⟨-, -, -, seven⟩ := all ("7", "n") (by decide) (by decide)
  have value : (⟨[]⟩ : Environment).expand "$\x7bV:-v\x7d" = .ok "v" := by decide +kernel
  cases value.symm.trans hlow
  have pieces : Piece.split t.template.toList = [.placeholder "low".toList, .plain ' ',
      .placeholder "Up".toList, .plain ' ', .placeholder "7".toList,
      .placeholder "content".toList] := by decide +kernel
  refine ⟨_, loaded, expanded.trans ?_⟩
  rw [pieces]
  simp only [List.flatMap_cons, List.flatMap_nil, plain, enclosed, found (by decide +kernel),
    up (by decide +kernel), seven (by decide +kernel)]
  rfl

/-- A declared value is lost whose key is the only one and is written in the template as it is
declared. -/
theorem Setup.expand_bare_capital :
    let t : TagConfig := ⟨"\x7bName\x7d", [("Name", "world")], false⟩
    let content := "[tags.x]\ntemplate = '\x7bName\x7d'\ndefaults = \x7b Name = 'world' \x7d"
    let tree := FileTree.ofFiles [(["shortcodes.toml"], content.toUTF8)] []
    ∃ s, Setup.load tree [] ⟨[]⟩ none ⟨none⟩ = .ok s ∧ s.config.tags = [("x", t)] ∧
      s.engine.hooks = .empty ∧ Piece.split t.template.toList = [.placeholder "Name".toList] ∧
      (s.engine.expand "[x]").value = some t.template := by
  intro t content tree
  let c : Config := ⟨false, none, [("x", t)], none⟩
  have decoded : decode content = .ok c := by
    dsimp only [content, c, t]
    cbv
  have expands : c.expandDefaults ⟨[]⟩ = .ok c := by decide +kernel
  have valid : c.validate = .ok () := by decide +kernel
  have registrable : c.Registrable := List.forall_mem_singleton.2 (by decide)
  obtain ⟨e, loaded, configured⟩ :=
    (source_of_file content).exists_configured rfl decoded expands valid registrable ⟨none⟩
  have hooks : e.hooks = .empty := configured.hooks
  have bound : e.handlers.get? "x" = some (TagConfig.toTemplate t).handler :=
    configured.bound List.mem_cons_self
  have expanded := Template.value_expand_bare bound (by rw [hooks]; rfl) (by rw [hooks]; rfl)
    (by rw [hooks]; rfl)
  have bare : Tag.wrapped 1 "x" "" = "[x]" := by decide +kernel
  have piece : Piece.split (TagConfig.toTemplate t).text.toList =
      [.placeholder "Name".toList] := by decide +kernel
  rw [bare, piece, List.flatMap_singleton,
    fill_of_not_addressable t (by decide +kernel) (by decide)] at expanded
  exact ⟨_, loaded, rfl, hooks, piece, expanded⟩

end Shortcode
