import Mathlib
import Shortcode.Proofs.Config.Path
import Shortcode.Proofs.Config.Stages

namespace Shortcode

open Config

variable {tree : FileTree} {cwd : List RawText} {env : Environment} {path : Option FilePath}
  {settings : Settings} {shown : String} {text : Except ReadFault String} {c : Config}

namespace Config

/-- The file that is there to be loaded: its path as it is shown, and what there is to read at the
end of the path. -/
inductive Source (tree : FileTree) (cwd : List RawText) :
    Option FilePath → String → Except ReadFault String → Prop where
  | given {path : FilePath} {place : List RawText} {text : Except ReadFault String}
    (leads : tree.LeadsTo cwd path place) (holds : FileTree.Holds (tree place) text) :
    Source tree cwd (some path) path.display text
  | discovered {path : FilePath} {place : List RawText} {text : Except ReadFault String}
    (h : discover tree cwd = some path) (leads : tree.LeadsTo cwd path place)
    (holds : FileTree.Holds (tree place) text) : Source tree cwd none path.display text

/-- Each stage with its error, behind stages that do not fail. What the later stages look at is as
it was decoded. -/
inductive FailsWith (env : Environment) (text : Except ReadFault String) : SetupError → Prop where
  | read {fault : ReadFault} (ht : text = .error fault) :
    FailsWith env text (.config (.unreadable fault))
  | decode {s : String} (ht : text = .ok s) (hd : Config.decode s = .error .malformed) :
    FailsWith env text (.config .malformed)
  | expand {s : String} {c : Config} {tag key : String} {reference : Reference.Missing}
    (ht : text = .ok s) (hd : Config.decode s = .ok c)
    (missing : FirstMissing env c tag key reference) :
    FailsWith env text (.config (.missing (.default tag key) reference))
  | validate {s : String} {c : Config} {field : Field} (ht : text = .ok s)
    (hd : Config.decode s = .ok c) (expandable : c.Expandable env) (empty : FirstEmpty c field) :
    FailsWith env text (.config (.empty field))
  | register {s : String} {c : Config} {error : InvalidName} (ht : text = .ok s)
    (hd : Config.decode s = .ok c) (expandable : c.Expandable env) (complete : c.Complete)
    (rejected : FirstRejected c error) : FailsWith env text (.name error)

/-- The configuration that the text is decoded to, and no later stage fails. -/
structure Loads (env : Environment) (text : Except ReadFault String) (c : Config) : Prop where
  decoded : ∃ s, text = .ok s ∧ Config.decode s = .ok c
  expandable : c.Expandable env
  complete : c.Complete
  registrable : c.Registrable

/-- The configuration in force for one that was decoded. Its default values are expanded, and a
setting that is given has precedence; everything else is as it was decoded. -/
structure Realizes (env : Environment) (settings : Settings) (shown : String)
    (decoded c : Config) : Prop where
  path : c.path = some shown
  ignoreHtml : c.ignoreHtml = settings.ignoreHtml.getD decoded.ignoreHtml
  stripTags : c.stripTags = decoded.stripTags
  tags : List.Forall₂ (Expands env) decoded.tags c.tags

/-- The template of a tag, with the keys of its defaults in lower case. -/
structure Describes (t : TagConfig) (template : Template) : Prop where
  text : template.text = t.template
  defaults : template.defaults =
    .ofList (t.defaults.map fun d => (.name (d.1.map Char.toLower), d.2))
  expandContent : template.expandContent = t.expandContent

end Config

/-- The setup of a decoded configuration: the configuration in force, with an engine that has a
template for each of its tags and no others. -/
structure Setup.Configured (env : Environment) (settings : Settings) (shown : String)
    (decoded : Config) (s : Setup) : Prop
    extends Config.Realizes env settings shown decoded s.config where
  names : s.engine.handlers.names.Perm (decoded.tags.map (·.1))
  handlers : ∀ t ∈ s.config.tags, ∃ template : Template, Describes t.2 template ∧
    s.engine.handlers.get? t.1 = some template.handler
  masks : s.engine.ignoreHtml = s.config.ignoreHtml
  hooks : s.engine.hooks = .empty

namespace Config

theorem describes_toTemplate (t : TagConfig) : Describes t (TagConfig.toTemplate t) :=
  ⟨rfl, rfl, rfl⟩

theorem Describes.eq {t : TagConfig} {template : Template} (h : Describes t template) :
    template = TagConfig.toTemplate t := by
  obtain ⟨text, defaults, expandContent⟩ := template
  obtain ⟨rfl, rfl, rfl⟩ := h
  rfl

theorem Source.load_eq (h : Source tree cwd path shown text) :
    Config.load tree cwd env path = ofText env shown text := by
  cases h with
  | given leads holds =>
    rw [Config.load, if_pos (FileTree.exists?_iff.2 ⟨_, leads⟩), loadFile,
      FileTree.read_of_leadsTo leads, FileTree.holds_iff.1 holds]
  | discovered h leads holds =>
    rw [Config.load, h]
    dsimp only
    rw [loadFile, FileTree.read_of_leadsTo leads, FileTree.holds_iff.1 holds]

theorem map_eq_of_expands {α : Type} {f : String × TagConfig → α}
    (hf : ∀ t t', Expands env t t' → f t' = f t) {tags tags' : List (String × TagConfig)}
    (h : List.Forall₂ (Expands env) tags tags') : tags'.map f = tags.map f := by
  rw [← List.forall₂_eq_eq_eq, List.forall₂_map_left_iff, List.forall₂_map_right_iff]
  exact h.flip.imp fun t' t ht => hf t t' ht

theorem names_of_expandDefaults {expanded : Config} (h : c.expandDefaults env = .ok expanded) :
    expanded.tags.map (·.1) = c.tags.map (·.1) :=
  map_eq_of_expands (fun _ _ ht => ht.name) (expandDefaults_spec h).1

theorem validate_expandDefaults {expanded : Config} (h : c.expandDefaults env = .ok expanded) :
    expanded.validate = c.validate := by
  obtain ⟨tags, -, strip⟩ := expandDefaults_spec h
  have places := map_eq_of_expands (f := fun t =>
    [(Field.tagName, t.1), (.template t.1, t.2.template)])
    (fun t t' ht => by rw [ht.name, ht.template]) tags
  have required : expanded.required = c.required := by
    rw [Config.required, Config.required, List.flatMap_def, List.flatMap_def, places, strip]
  rw [validate, validate, required]

theorem keysOrdered_iff_names {α : Type} {entries : List (String × α)} :
    KeysOrdered entries ↔ (entries.map (·.1)).Pairwise Text.ByteBefore := List.pairwise_map.symm

/-- Registration looks at the names. -/
theorem fault?_engine_congr {c d : Config} (h : d.tags.map (·.1) = c.tags.map (·.1)) :
    fault? d.engine = fault? c.engine := by
  have names (c : Config) : fault? c.engine =
      (c.tags.map (·.1)).findSome? (fault? <| Tag.validateName ·) := by
    rw [List.findSome?_map]
    exact fault?_registerAll ..
  rw [names, names, h]

theorem eq_malformed_of_decode {s : String} {error : ConfigError}
    (h : Config.decode s = .error error) : error = .malformed := by
  unfold Config.decode at h
  split at h
  · cases h
  · cases h
    rfl

/-- What is left to do with a decoded configuration. -/
def finish (env : Environment) (settings : Settings) (shown : String) (c : Config) :
    Except SetupError Setup := do
  let config ← (do
    let config ← c.expandDefaults env
    config.validate
    return { config with path := some shown }).mapError SetupError.config
  let engine ← (config.override settings).engine.mapError .name
  return ⟨config.override settings, engine⟩

theorem Source.load_eq_finish (h : Source tree cwd path shown text) {s : String}
    (ht : text = .ok s) (hd : Config.decode s = .ok c) :
    Setup.load tree cwd env path settings = finish env settings shown c := by
  rw [Setup.load, h.load_eq, ofText, bind_of_ok (mapError_of_ok ht _), bind_of_ok hd, finish]

theorem finish_of_missing {error : ConfigError} (hx : c.expandDefaults env = .error error) :
    finish env settings shown c = .error (.config error) := by
  rw [finish, bind_of_error hx]
  rfl

theorem finish_of_invalid {expanded : Config} {error : ConfigError}
    (hx : c.expandDefaults env = .ok expanded) (hv : c.validate = .error error) :
    finish env settings shown c = .error (.config error) := by
  rw [← validate_expandDefaults hx] at hv
  rw [finish, bind_of_ok hx, bind_of_error hv]
  rfl

/-- The configuration as it is in force. -/
def inForce (settings : Settings) (shown : String) (expanded : Config) : Config :=
  override { expanded with path := some shown } settings

theorem finish_of_valid {expanded : Config} (hx : c.expandDefaults env = .ok expanded)
    (hv : c.validate = .ok ()) :
    finish env settings shown c =
      ((expanded.inForce settings shown).engine.mapError .name).map
        (⟨expanded.inForce settings shown, ·⟩) := by
  rw [← validate_expandDefaults hx] at hv
  rw [finish, bind_of_ok hx, bind_of_ok hv]
  change (do
    let engine ← (expanded.inForce settings shown).engine.mapError SetupError.name
    _) = _
  cases (expanded.inForce settings shown).engine <;> rfl

theorem fault?_engine_inForce (settings : Settings) (shown : String) {expanded : Config}
    (hx : c.expandDefaults env = .ok expanded) :
    fault? (expanded.inForce settings shown).engine = fault? c.engine := by
  have names := names_of_expandDefaults hx
  exact fault?_engine_congr names

theorem configured_of_engine (ho : c.Ordered) {expanded : Config} {e : Engine}
    (hx : c.expandDefaults env = .ok expanded)
    (he : (expanded.inForce settings shown).engine = .ok e) :
    Setup.Configured env settings shown c ⟨expanded.inForce settings shown, e⟩ := by
  obtain ⟨tags, ignoreHtml, strip⟩ := expandDefaults_spec hx
  have names := names_of_expandDefaults hx
  change (expanded.inForce settings shown).tags.map (·.1) = _ at names
  have ordered : KeysOrdered (expanded.inForce settings shown).tags := by
    rw [keysOrdered_iff_names, names, ← keysOrdered_iff_names]
    exact ho.tags
  have registers := registers_of_engine ordered he
  have registered (name : String) : name ∈ e.handlers.names ↔ name ∈ c.tags.map (·.1) := by
    rw [← names]
    refine ⟨fun hname => by_contra fun hnone => ?_, fun hname => ?_⟩
    · obtain ⟨handler, hget⟩ := Bindings.exists_get?_of_mem_names hname
      rw [registers.others name hnone] at hget
      cases hget
    · obtain ⟨t, ht, rfl⟩ := List.mem_map.1 hname
      exact Bindings.mem_names_of_get? (registers.handlers t ht)
  have perm := (List.perm_ext_iff_of_nodup (Tag.nodup_of_precedes e.handlers.ordered_names)
    ho.tags.nodup).2 registered
  exact {
    path := rfl
    ignoreHtml := congrArg settings.ignoreHtml.getD ignoreHtml
    stripTags := strip
    tags
    names := perm
    handlers := fun t ht => ⟨_, describes_toTemplate t.2, registers.handlers t ht⟩
    masks := registers.ignoreHtml
    hooks := registers.hooks }

theorem finish_outcome {s : String} (ht : text = .ok s) (hd : Config.decode s = .ok c) :
    (∃ error, finish env settings shown c = .error error ∧ FailsWith env text error) ∨
    ∃ setup, finish env settings shown c = .ok setup ∧ Loads env text c ∧
      setup.Configured env settings shown c := by
  have ho := ordered_of_decode hd
  cases hx : c.expandDefaults env with
  | error fault =>
    obtain ⟨tag, key, reference, rfl, missing⟩ := (expandDefaults_eq_error_iff ho).1 hx
    exact .inl ⟨_, finish_of_missing hx, .expand ht hd missing⟩
  | ok expanded =>
    have expandable := exists_expandDefaults_iff.1 ⟨expanded, hx⟩
    cases hv : c.validate with
    | error fault =>
      obtain ⟨field, rfl, empty⟩ := (validate_eq_error_iff ho.tags).1 hv
      exact .inl ⟨_, finish_of_invalid hx hv, .validate ht hd expandable empty⟩
    | ok =>
      have complete := validate_eq_ok_iff.1 hv
      -- names are registered as they were decoded, though values and settings are not the same
      have registration := fault?_engine_inForce settings shown hx
      rw [finish_of_valid hx hv]
      cases he : (expanded.inForce settings shown).engine with
      | error fault =>
        rw [he] at registration
        have rejected := (engine_eq_error_iff ho.tags).1 (fault?_eq_some_iff.1 registration.symm)
        exact .inl ⟨_, rfl, .register ht hd expandable complete rejected⟩
      | ok e =>
        rw [he] at registration
        have registrable := exists_engine_iff.1 (fault?_eq_none_iff.1 registration.symm)
        exact .inr ⟨_, rfl, ⟨⟨s, ht, hd⟩, expandable, complete, registrable⟩,
          configured_of_engine ho hx he⟩

/-- Each stage fails as it does alone. -/
theorem Source.load_of_failsWith (h : Source tree cwd path shown text) {error : SetupError}
    (hf : FailsWith env text error) : Setup.load tree cwd env path settings = .error error := by
  cases hf with
  | read ht =>
    rw [Setup.load, h.load_eq, ofText, ht]
    rfl
  | decode ht hd =>
    rw [Setup.load, h.load_eq, ofText, bind_of_ok (mapError_of_ok ht _), bind_of_error hd]
    rfl
  | expand ht hd missing =>
    rw [h.load_eq_finish ht hd]
    exact finish_of_missing ((expandDefaults_eq_error_iff (ordered_of_decode hd)).2
      ⟨_, _, _, rfl, missing⟩)
  | validate ht hd expandable empty =>
    rw [h.load_eq_finish ht hd]
    obtain ⟨expanded, hx⟩ := exists_expandDefaults_iff.2 expandable
    exact finish_of_invalid hx ((validate_eq_error_iff (ordered_of_decode hd).tags).2
      ⟨_, rfl, empty⟩)
  | register ht hd expandable complete rejected =>
    rw [h.load_eq_finish ht hd]
    obtain ⟨expanded, hx⟩ := exists_expandDefaults_iff.2 expandable
    have he := (engine_eq_error_iff (ordered_of_decode hd).tags).2 rejected
    rw [← fault?_eq_some_iff, ← fault?_engine_inForce settings shown hx, fault?_eq_some_iff] at he
    rw [finish_of_valid hx (validate_eq_ok_iff.2 complete), he]
    rfl

theorem Source.outcome (h : Source tree cwd path shown text) (env : Environment)
    (settings : Settings) :
    (∃ error, Setup.load tree cwd env path settings = .error error ∧ FailsWith env text error) ∨
    ∃ setup, Setup.load tree cwd env path settings = .ok setup ∧
      ∃ c, Loads env text c ∧ setup.Configured env settings shown c := by
  cases ht : text with
  | error fault => exact .inl ⟨_, h.load_of_failsWith (.read ht), .read rfl⟩
  | ok s =>
    cases hd : Config.decode s with
    | error fault =>
      rw [eq_malformed_of_decode hd] at hd
      exact .inl ⟨_, h.load_of_failsWith (.decode ht hd), .decode rfl hd⟩
    | ok c =>
      rw [h.load_eq_finish ht hd]
      exact (finish_outcome rfl hd).imp_right fun ⟨setup, hsetup, hc⟩ => ⟨setup, hsetup, c, hc⟩

/-- Without a fault in any stage there is a setup. -/
theorem Source.exists_load_of_loads (h : Source tree cwd path shown text) (hc : Loads env text c) :
    ∃ setup, Setup.load tree cwd env path settings = .ok setup := by
  obtain ⟨s, ht, hd⟩ := hc.decoded
  obtain ⟨expanded, hx⟩ := exists_expandDefaults_iff.2 hc.expandable
  have he := fault?_eq_none_iff.2 (exists_engine_iff.2 hc.registrable)
  rw [← fault?_engine_inForce settings shown hx, fault?_eq_none_iff] at he
  obtain ⟨e, he⟩ := he
  rw [h.load_eq_finish ht hd, finish_of_valid hx (validate_eq_ok_iff.2 hc.complete), he]
  exact ⟨_, rfl⟩

end Config

/-- A file that is there either gives the first error or the engine that it describes: there is an
error if and only if no configuration is loaded through all stages, the error is that of the first
stage that fails, and without one the setup is the decoded configuration with its default values
expanded. -/
theorem Setup.load_stages (h : Source tree cwd path shown text) (env : Environment)
    (settings : Settings) :
    (∀ error, Setup.load tree cwd env path settings = .error error ↔ FailsWith env text error) ∧
    ((∃ error, Setup.load tree cwd env path settings = .error error) ↔
      ∀ c, ¬ Loads env text c) ∧
    ∀ setup, Setup.load tree cwd env path settings = .ok setup →
      ∃ c, Loads env text c ∧ setup.Configured env settings shown c := by
  refine ⟨fun error => ⟨fun hl => ?_, h.load_of_failsWith⟩, ⟨?_, fun hnone => ?_⟩, ?_⟩
  · rcases h.outcome env settings with ⟨_, hl', hf⟩ | ⟨_, hl', -⟩
    · rw [hl] at hl'
      cases hl'
      exact hf
    · rw [hl] at hl'
      cases hl'
  · rintro ⟨error, hl⟩ c hc
    obtain ⟨setup, hl'⟩ := h.exists_load_of_loads hc
    rw [hl] at hl'
    cases hl'
  · rcases h.outcome env settings with ⟨error, hl, -⟩ | ⟨_, -, c, hc, -⟩
    · exact ⟨error, hl⟩
    · exact absurd hc (hnone c)
  · intro setup hl
    rcases h.outcome env settings with ⟨_, hl', -⟩ | ⟨_, hl', hc⟩
    · rw [hl] at hl'
      cases hl'
    · rw [hl] at hl'
      cases hl'
      exact hc

/-- A tag of the configuration in force has its template for a handler. -/
theorem Setup.Configured.bound {s : Setup} (h : s.Configured env settings shown c)
    {t : String × TagConfig} (ht : t ∈ s.config.tags) :
    s.engine.handlers.get? t.1 = some (TagConfig.toTemplate t.2).handler := by
  obtain ⟨template, describes, bound⟩ := h.handlers t ht
  rw [bound, describes.eq]

namespace Config

/-- The file of a tree with no other is found from the root. -/
theorem source_of_file (content : String) :
    Source (FileTree.ofFiles [(["shortcodes.toml"], content.toUTF8)] []) [] none "/shortcodes.toml"
      (.ok content) := by
  let tree := FileTree.ofFiles [(["shortcodes.toml"], content.toUTF8)] []
  have found : discover tree [] = some (.ofString "/shortcodes.toml") := by rfl
  have leads : tree.LeadsTo [] (.ofString "/shortcodes.toml") [fileName] :=
    FileTree.find_eq_ok_iff.1 (by rfl)
  have shown : (RawText.ofString "/shortcodes.toml").display = "/shortcodes.toml" := by
    decide +kernel
  exact shown ▸ .discovered found leads (.text content)

/-- A file in which no stage finds a fault is loaded as it is decoded and expanded. -/
theorem Source.exists_configured (source : Source tree cwd path shown text) {content : String}
    (ht : text = .ok content) (hd : decode content = .ok c) {expanded : Config}
    (hx : c.expandDefaults env = .ok expanded) (hv : c.validate = .ok ()) (hr : c.Registrable)
    (settings : Settings) :
    ∃ e, Setup.load tree cwd env path settings = .ok ⟨expanded.inForce settings shown, e⟩ ∧
      Setup.Configured env settings shown c ⟨expanded.inForce settings shown, e⟩ := by
  have he := fault?_eq_none_iff.2 (exists_engine_iff.2 hr)
  rw [← fault?_engine_inForce settings shown hx, fault?_eq_none_iff] at he
  obtain ⟨e, he⟩ := he
  refine ⟨e, ?_, configured_of_engine (ordered_of_decode hd) hx he⟩
  rw [source.load_eq_finish ht hd, finish_of_valid hx hv, he]
  rfl

end Config

/-- Of the faults of a file that of a default value is reported, and of two values that of the one
whose key comes first. A file without a fault is loaded, with a setting in place of its own. -/
theorem Setup.load_stages_kinds :
    let tree (content : String) := FileTree.ofFiles [(["shortcodes.toml"], content.toUTF8)] []
    let faulty := "[tags.b]\ntemplate = ''\n" ++
      "[tags.a]\ntemplate = 'A'\n[tags.a.defaults]\nz = '$Z'\ny = '$Y'"
    let sound := "ignore_html = true\n[strip]\ntags = ['x']\n" ++
      "[tags.x]\ntemplate = '\x7bk\x7d'\n[tags.x.defaults]\nK = '$\x7bV:-v\x7d'"
    Setup.load (tree faulty) [] ⟨[]⟩ none ⟨none⟩ =
      .error (.config (.missing (.default "a" "y") ⟨"Y", false⟩)) ∧
    ∃ s, Setup.load (tree sound) [] ⟨[]⟩ none ⟨some false⟩ = .ok s ∧
      s.config.path = some "/shortcodes.toml" ∧ s.config.ignoreHtml = false ∧
      s.config.stripTags = some ["x"] ∧ s.engine.handlers.names = ["x"] ∧
      ∃ template : Template, s.engine.handlers.get? "x" = some template.handler ∧
        template.text = "\x7bk\x7d" ∧ template.defaults.get? (.name "k") = some "v" := by
  intro tree faulty sound
  constructor
  · have decoded : decode faulty = .ok ⟨false, none,
        [("a", ⟨"A", [("y", "$Y"), ("z", "$Z")], false⟩), ("b", ⟨"", [], false⟩)], none⟩ := by
      dsimp only [faulty]
      cbv
    have fails : expandDefaults ⟨[]⟩ ⟨false, none,
        [("a", ⟨"A", [("y", "$Y"), ("z", "$Z")], false⟩), ("b", ⟨"", [], false⟩)], none⟩ =
        .error (.missing (.default "a" "y") ⟨"Y", false⟩) := by decide +kernel
    obtain ⟨tag, key, reference, he, missing⟩ :=
      (expandDefaults_eq_error_iff (ordered_of_decode decoded)).1 fails
    cases he
    exact ((Setup.load_stages (source_of_file faulty) ⟨[]⟩ ⟨none⟩).1 _).2
      (.expand rfl decoded missing)
  · let t : TagConfig := ⟨"\x7bk\x7d", [("K", "$\x7bV:-v\x7d")], false⟩
    let c : Config := ⟨true, some ["x"], [("x", t)], none⟩
    have decoded : decode sound = .ok c := by
      dsimp only [sound, c, t]
      cbv
    have expands : c.expandDefaults ⟨[]⟩ =
        .ok { c with tags := [("x", { t with defaults := [("K", "v")] })] } := by decide +kernel
    have valid : c.validate = .ok () := by decide +kernel
    have registrable : c.Registrable := List.forall_mem_singleton.2 (by decide)
    have source := source_of_file sound
    obtain ⟨e, loaded, -⟩ :=
      source.exists_configured rfl decoded expands valid registrable ⟨some false⟩
    obtain ⟨d, loads, configured⟩ := (Setup.load_stages source ⟨[]⟩ ⟨some false⟩).2.2 _ loaded
    obtain ⟨_, ⟨⟩, decoded'⟩ := loads.decoded
    cases decoded.symm.trans decoded'
    obtain ⟨template, describes, bound⟩ := configured.handlers _ List.mem_cons_self
    refine ⟨_, loaded, configured.path, configured.ignoreHtml, configured.stripTags,
      List.perm_singleton.1 configured.names, template, bound, describes.text, ?_⟩
    rw [describes.defaults]
    decide +kernel

end Shortcode
