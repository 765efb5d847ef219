import Shortcode.Config.Setup
import Shortcode.Proofs.Config.Ordered
import Shortcode.Proofs.Engine.Registry

namespace Shortcode.Config

variable {α β ε : Type} {env : Environment} {c : Config}

/-- Entries are looked through from the smallest key on. -/
theorem KeysOrdered.findSome?_eq_some_iff {entries : List (String × α)} (h : KeysOrdered entries)
    {f : String × α → Option β} {fault : β} :
    entries.findSome? f = some fault ↔ ∃ a ∈ entries, f a = some fault ∧
      ∀ b ∈ entries, Text.ByteBefore b.1 a.1 → f b = none := by
  rw [List.findSome?_eq_some_iff]
  constructor
  · rintro ⟨before, a, after, rfl, ha, hbefore⟩
    refine ⟨a, List.mem_append_right _ List.mem_cons_self, ha, fun b hb hlt => ?_⟩
    obtain ⟨-, hafter, -⟩ := List.pairwise_append.1 h
    rcases List.mem_append.1 hb with hb | hb
    · exact hbefore b hb
    · rcases List.mem_cons.1 hb with rfl | hb
      · exact absurd hlt (List.lt_irrefl _)
      · exact absurd ((List.pairwise_cons.1 hafter).1 b hb) (List.lt_asymm hlt)
  · rintro ⟨a, hmem, ha, hbefore⟩
    obtain ⟨before, after, rfl⟩ := List.append_of_mem hmem
    obtain ⟨-, -, hlt⟩ := List.pairwise_append.1 h
    exact ⟨before, a, after, rfl, ha, fun b hb =>
      hbefore b (List.mem_append_left _ hb) (hlt b hb a List.mem_cons_self)⟩

def fault? : Except ε α → Option ε
  | .error fault => some fault
  | .ok _ => none

theorem fault?_eq_some_iff {x : Except ε α} {fault : ε} :
    fault? x = some fault ↔ x = .error fault := by
  cases x with
  | error other => rw [fault?, Option.some.injEq, Except.error.injEq]
  | ok a => exact ⟨nofun, nofun⟩

theorem fault?_eq_none_iff {x : Except ε α} : fault? x = none ↔ ∃ a, x = .ok a := by
  cases x with
  | error fault => exact ⟨nofun, nofun⟩
  | ok a => exact ⟨fun _ => ⟨a, rfl⟩, fun _ => rfl⟩

theorem fault?_mapM (f : α → Except ε β) (l : List α) :
    fault? (l.mapM f) = l.findSome? (fault? <| f ·) := by
  induction l with
  | nil => rfl
  | cons a l ih =>
    rw [List.mapM_cons, List.findSome?_cons, ← ih]
    cases f a with
    | error fault => rfl
    | ok b => cases l.mapM f <;> rfl

theorem bind_of_ok {x : Except ε α} {a : α} (h : x = .ok a) (f : α → Except ε β) :
    x >>= f = f a := by
  rw [h]
  rfl

theorem bind_of_error {x : Except ε α} {fault : ε} (h : x = .error fault) (f : α → Except ε β) :
    x >>= f = .error fault := by
  rw [h]
  rfl

theorem mapError_of_ok {ε' : Type} {x : Except ε α} {a : α} (h : x = .ok a) (f : ε → ε') :
    x.mapError f = .ok a := by
  rw [h]
  rfl

theorem exists_of_bind {x : Except ε α} {f : α → Except ε β} {b : β} (h : (x >>= f) = .ok b) :
    ∃ a, x = .ok a ∧ f a = .ok b := by
  cases x with
  | error fault => cases h
  | ok a => exact ⟨a, rfl, h⟩

theorem forall₂_of_mapM_ok {f : α → Except ε β} {as : List α} {bs : List β}
    (h : as.mapM f = .ok bs) : List.Forall₂ (fun a b => f a = .ok b) as bs := by
  induction as generalizing bs with
  | nil =>
    cases h
    exact .nil
  | cons a as ih =>
    rw [List.mapM_cons] at h
    obtain ⟨b, hb, h⟩ := exists_of_bind h
    obtain ⟨more, hmore, h⟩ := exists_of_bind h
    cases h
    exact .cons hb (ih hmore)

theorem mapM_ok_of_forall₂ {f : α → Except ε β} {as : List α} {bs : List β}
    (h : List.Forall₂ (fun a b => f a = .ok b) as bs) : as.mapM f = .ok bs := by
  induction h with
  | nil => rfl
  | cons hb _ ih =>
    rw [List.mapM_cons, hb, ih]
    rfl

/-- A default value that the configuration gives. -/
def HasDefault (c : Config) (tag key value : String) : Prop :=
  ∃ t, (tag, t) ∈ c.tags ∧ (key, value) ∈ t.defaults

/-- The first default value, by its tag and then its key, that refers to a variable in vain. -/
structure FirstMissing (env : Environment) (c : Config) (tag key : String)
    (reference : Reference.Missing) : Prop where
  missing : ∃ value, c.HasDefault tag key value ∧ env.expand value = .error reference
  before : ∀ tag' key' value, c.HasDefault tag' key' value →
    Text.ByteBefore tag' tag ∨ tag' = tag ∧ Text.ByteBefore key' key →
    ∃ expanded, env.expand value = .ok expanded

def Expandable (env : Environment) (c : Config) : Prop :=
  ∀ tag key value, c.HasDefault tag key value → ∃ expanded, env.expand value = .ok expanded

/-- The same tag with its default values expanded. -/
structure Expands (env : Environment) (t t' : String × TagConfig) : Prop where
  name : t'.1 = t.1
  template : t'.2.template = t.2.template
  expandContent : t'.2.expandContent = t.2.expandContent
  defaults : List.Forall₂ (fun d d' => d'.1 = d.1 ∧ env.expand d.2 = .ok d'.2)
    t.2.defaults t'.2.defaults

/-- The fault of a tag is that of its first default value with one. -/
theorem fault?_expandTag (t : String × TagConfig) :
    fault? (expandTag env t) = t.2.defaults.findSome? fun d =>
      (fault? (env.expand d.2)).map (.missing (.default t.1 d.1)) := by
  have value (d : String × String) : fault? (expandDefault env t.1 d) =
      (fault? (env.expand d.2)).map (.missing (.default t.1 d.1)) := by
    rw [expandDefault]
    cases env.expand d.2 <;> rfl
  simp only [← value]
  rw [← fault?_mapM, expandTag]
  cases t.2.defaults.mapM (expandDefault env t.1) <;> rfl

theorem fault?_expandDefaults (c : Config) :
    fault? (c.expandDefaults env) = c.tags.findSome? (fault? <| expandTag env ·) := by
  rw [← fault?_mapM, expandDefaults]
  cases c.tags.mapM (expandTag env) <;> rfl

theorem fault?_expandTag_eq_none_iff {t : String × TagConfig} :
    fault? (expandTag env t) = none ↔
      ∀ d ∈ t.2.defaults, ∃ expanded, env.expand d.2 = .ok expanded := by
  rw [fault?_expandTag, List.findSome?_eq_none_iff]
  simp only [Option.map_eq_none_iff, fault?_eq_none_iff]

theorem expandDefaults_eq_error_iff (ho : c.Ordered) {error : ConfigError} :
    c.expandDefaults env = .error error ↔ ∃ tag key reference,
      error = .missing (.default tag key) reference ∧ FirstMissing env c tag key reference := by
  rw [← fault?_eq_some_iff, fault?_expandDefaults, ho.tags.findSome?_eq_some_iff]
  constructor
  · rintro ⟨⟨tag, t⟩, ht, herror, hbefore⟩
    rw [fault?_expandTag, (ho.defaults _ ht).findSome?_eq_some_iff] at herror
    obtain ⟨⟨key, value⟩, hd, herror, hbefore'⟩ := herror
    obtain ⟨reference, hreference, rfl⟩ := Option.map_eq_some_iff.1 herror
    refine ⟨tag, key, reference, rfl, ⟨value, ⟨t, ht, hd⟩, fault?_eq_some_iff.1 hreference⟩, ?_⟩
    rintro tag' key' value' ⟨t', ht', hd'⟩ (hlt | ⟨rfl, hlt⟩)
    · exact fault?_expandTag_eq_none_iff.1 (hbefore (tag', t') ht' hlt) (key', value') hd'
    · -- a name has one entry, so the default is one of the same tag
      cases List.inj_on_of_nodup_map ho.tags.nodup ht ht' rfl
      exact fault?_eq_none_iff.1 (Option.map_eq_none_iff.1 (hbefore' (key', value') hd' hlt))
  · rintro ⟨tag, key, reference, rfl, ⟨value, ⟨t, ht, hd⟩, hreference⟩, before⟩
    refine ⟨(tag, t), ht, ?_, fun t' ht' hlt => ?_⟩
    · rw [fault?_expandTag, (ho.defaults _ ht).findSome?_eq_some_iff]
      refine ⟨(key, value), hd, ?_, fun d hd' hlt => ?_⟩
      · rw [hreference]
        rfl
      · exact Option.map_eq_none_iff.2 (fault?_eq_none_iff.2
          (before tag d.1 d.2 ⟨t, ht, hd'⟩ (.inr ⟨rfl, hlt⟩)))
    · exact fault?_expandTag_eq_none_iff.2 fun d hd' =>
        before t'.1 d.1 d.2 ⟨t'.2, ht', hd'⟩ (.inl hlt)

theorem exists_expandDefaults_iff :
    (∃ expanded, c.expandDefaults env = .ok expanded) ↔ c.Expandable env := by
  rw [← fault?_eq_none_iff, fault?_expandDefaults, List.findSome?_eq_none_iff]
  simp only [fault?_expandTag_eq_none_iff]
  constructor
  · rintro h tag key value ⟨t, ht, hd⟩
    exact h (tag, t) ht (key, value) hd
  · intro h t ht d hd
    exact h t.1 d.1 d.2 ⟨t.2, ht, hd⟩

theorem expands_of_expandTag {t t' : String × TagConfig} (h : expandTag env t = .ok t') :
    Expands env t t' := by
  obtain ⟨defaults, hdefaults, h⟩ := exists_of_bind h
  cases h
  refine ⟨rfl, rfl, rfl, (forall₂_of_mapM_ok hdefaults).imp fun d d' hd => ?_⟩
  unfold expandDefault at hd
  split at hd
  · next value hvalue =>
    cases hd
    exact ⟨rfl, hvalue⟩
  · cases hd

/-- Expansion changes the default values only. -/
theorem expandDefaults_spec {expanded : Config} (h : c.expandDefaults env = .ok expanded) :
    List.Forall₂ (Expands env) c.tags expanded.tags ∧ expanded.ignoreHtml = c.ignoreHtml ∧
      expanded.stripTags = c.stripTags := by
  obtain ⟨tags, htags, h⟩ := exists_of_bind h
  cases h
  exact ⟨(forall₂_of_mapM_ok htags).imp fun _ _ => expands_of_expandTag, rfl, rfl⟩

theorem expandTag_of_expands {t t' : String × TagConfig} (h : Expands env t t') :
    expandTag env t = .ok t' := by
  have each : List.Forall₂ (fun d d' => expandDefault env t.1 d = .ok d')
      t.2.defaults t'.2.defaults := by
    refine h.defaults.imp fun d d' hd => ?_
    rw [expandDefault, hd.2]
    exact congrArg Except.ok (Prod.ext hd.1.symm rfl)
  have value : t' = (t.1, { t.2 with defaults := t'.2.defaults }) := by
    obtain ⟨name, template, expandContent, -⟩ := h
    obtain ⟨_, ⟨⟩⟩ := t'
    simp_all
  rw [expandTag, mapM_ok_of_forall₂ each, value]
  rfl

theorem expandDefaults_of_expands {tags : List (String × TagConfig)}
    (h : List.Forall₂ (Expands env) c.tags tags) :
    c.expandDefaults env = .ok { c with tags } := by
  rw [expandDefaults, mapM_ok_of_forall₂ (h.imp fun _ _ => expandTag_of_expands)]
  rfl

def IsComplete (t : String × TagConfig) : Prop := t.1 ≠ "" ∧ t.2.template ≠ ""

/-- The first place with an empty text: tag by tag the name and then the template, and behind all
tags those to strip. -/
inductive FirstEmpty (c : Config) : Field → Prop where
  | tagName {t : String × TagConfig} (ht : t ∈ c.tags) (empty : t.1 = "")
    (before : ∀ t' ∈ c.tags, Text.ByteBefore t'.1 t.1 → IsComplete t') : FirstEmpty c .tagName
  | template {t : String × TagConfig} (ht : t ∈ c.tags) (named : t.1 ≠ "")
    (empty : t.2.template = "")
    (before : ∀ t' ∈ c.tags, Text.ByteBefore t'.1 t.1 → IsComplete t') :
    FirstEmpty c (.template t.1)
  | stripTag {index : Nat} (complete : ∀ t ∈ c.tags, IsComplete t)
    (empty : (c.stripTags.getD [])[index]? = some "")
    (before : ∀ earlier < index, (c.stripTags.getD [])[earlier]? ≠ some "") :
    FirstEmpty c (.stripTag index)

/-- No text is empty that has to be there. -/
structure Complete (c : Config) : Prop where
  tags : ∀ t ∈ c.tags, IsComplete t
  stripTags : "" ∉ c.stripTags.getD []

/-- What is empty of a tag. -/
def emptyOf? (t : String × TagConfig) : Option Field :=
  if t.1 = "" then some .tagName else if t.2.template = "" then some (.template t.1) else none

theorem emptyOf?_eq_none_iff {t : String × TagConfig} : emptyOf? t = none ↔ IsComplete t := by
  rw [emptyOf?, IsComplete]
  split
  · next h => exact ⟨nofun, fun hc => absurd h hc.1⟩
  · next h =>
    split
    · next h' => exact ⟨nofun, fun hc => absurd h' hc.2⟩
    · next h' => exact ⟨fun _ => ⟨h, h'⟩, fun _ => rfl⟩

theorem fault?_validate (c : Config) :
    fault? c.validate = ((c.tags.findSome? emptyOf?).or
      (((c.stripTags.getD []).zipIdx.find? (·.1.isEmpty)).map (.stripTag ·.2))).map .empty := by
  have validated : fault? c.validate = ((c.required.find? (·.2.isEmpty)).map (·.1)).map .empty := by
    rw [validate]
    cases c.required.find? (·.2.isEmpty) <;> rfl
  have tag (t : String × TagConfig) :
      ([(Field.tagName, t.1), (.template t.1, t.2.template)].find? (·.2.isEmpty)).map (·.1) =
        emptyOf? t := by
    simp only [List.find?_cons, List.find?_nil, emptyOf?, ← String.isEmpty_iff]
    cases t.1.isEmpty <;> cases t.2.template.isEmpty <;> rfl
  rw [validated, required, List.find?_append, List.find?_flatMap, Option.map_or,
    List.map_findSome?, List.find?_map, Option.map_map]
  congr 3
  funext t
  exact tag t

/-- The first empty text of a list, with its position. -/
theorem find?_zipIdx_eq_some_iff {l : List String} {text : String} {index : Nat} :
    l.zipIdx.find? (·.1.isEmpty) = some (text, index) ↔
      text = "" ∧ l[index]? = some "" ∧ ∀ earlier < index, l[earlier]? ≠ some "" := by
  rw [List.find?_eq_some_iff_getElem]
  simp only [List.getElem_zipIdx, Nat.zero_add, List.length_zipIdx, Bool.not_eq_true',
    String.isEmpty_iff, String.isEmpty_eq_false_iff]
  constructor
  · rintro ⟨rfl, i, hi, he, hbefore⟩
    obtain ⟨htext, rfl⟩ := Prod.mk.inj he
    refine ⟨rfl, List.getElem?_eq_some_iff.2 ⟨hi, htext⟩, fun earlier hlt hempty => ?_⟩
    exact hbefore earlier hlt (List.getElem?_eq_some_iff.1 hempty).2
  · rintro ⟨rfl, hempty, hbefore⟩
    obtain ⟨hi, htext⟩ := List.getElem?_eq_some_iff.1 hempty
    refine ⟨rfl, index, hi, Prod.ext htext rfl, fun earlier hlt hempty => ?_⟩
    exact hbefore earlier hlt (List.getElem?_eq_some_iff.2 ⟨Nat.lt_trans hlt hi, hempty⟩)

theorem validate_eq_error_iff (h : KeysOrdered c.tags) {error : ConfigError} :
    c.validate = .error error ↔ ∃ field, error = .empty field ∧ FirstEmpty c field := by
  rw [← fault?_eq_some_iff, fault?_validate, Option.map_eq_some_iff]
  constructor
  · rintro ⟨field, hfield, rfl⟩
    refine ⟨field, rfl, ?_⟩
    rcases Option.or_eq_some_iff.1 hfield with hfield | ⟨hnone, hfield⟩
    · obtain ⟨t, ht, hfault, hbefore⟩ := h.findSome?_eq_some_iff.1 hfield
      simp only [emptyOf?_eq_none_iff] at hbefore
      rw [emptyOf?] at hfault
      split at hfault
      · next hname =>
        cases hfault
        exact .tagName ht hname hbefore
      · next hname =>
        split at hfault
        · next htemplate =>
          cases hfault
          exact .template ht hname htemplate hbefore
        · cases hfault
    · obtain ⟨⟨text, index⟩, hfind, rfl⟩ := Option.map_eq_some_iff.1 hfield
      obtain ⟨-, empty, before⟩ := find?_zipIdx_eq_some_iff.1 hfind
      refine .stripTag (fun t ht => ?_) empty before
      exact emptyOf?_eq_none_iff.1 (List.findSome?_eq_none_iff.1 hnone t ht)
  · rintro ⟨field, rfl, hfield⟩
    refine ⟨field, ?_, rfl⟩
    simp only [Option.or_eq_some_iff, h.findSome?_eq_some_iff, List.findSome?_eq_none_iff,
      emptyOf?_eq_none_iff]
    cases hfield with
    | @tagName t ht empty before => exact .inl ⟨t, ht, if_pos empty, before⟩
    | @template t ht named empty before =>
      exact .inl ⟨t, ht, (if_neg named).trans (if_pos empty), before⟩
    | @stripTag index complete empty before =>
      refine .inr ⟨complete, Option.map_eq_some_iff.2 ⟨("", index), ?_, rfl⟩⟩
      exact find?_zipIdx_eq_some_iff.2 ⟨rfl, empty, before⟩

theorem validate_eq_ok_iff : c.validate = .ok () ↔ c.Complete := by
  have valid : c.validate = .ok () ↔ fault? c.validate = none := by
    rw [fault?_eq_none_iff]
    exact ⟨fun h => ⟨(), h⟩, fun ⟨_, h⟩ => h⟩
  rw [valid, fault?_validate, Option.map_eq_none_iff, Option.or_eq_none_iff,
    List.findSome?_eq_none_iff, Option.map_eq_none_iff, List.find?_eq_none]
  simp only [emptyOf?_eq_none_iff, String.isEmpty_iff]
  constructor
  · rintro ⟨tags, strip⟩
    refine ⟨tags, fun hmem => ?_⟩
    obtain ⟨index, hindex⟩ := List.mem_iff_getElem?.1 hmem
    exact strip ("", index) (List.mem_zipIdx_iff_getElem?.2 hindex) rfl
  · rintro ⟨tags, strip⟩
    refine ⟨tags, fun s hs hempty => strip ?_⟩
    rw [← hempty]
    exact List.mem_of_getElem? (List.mem_zipIdx_iff_getElem?.1 hs)

/-- The first name that cannot be registered, with what is wrong with it. -/
structure FirstRejected (c : Config) (error : InvalidName) : Prop where
  mem : error.name ∈ c.tags.map (·.1)
  fault : Tag.validateName error.name = .error error
  before : ∀ name ∈ c.tags.map (·.1), Text.ByteBefore name error.name →
    Tag.validateName name = .ok ()

def Registrable (c : Config) : Prop := ∀ t ∈ c.tags, Tag.validateName t.1 = .ok ()

/-- Registers tags one after the other. -/
def registerAll (start : Engine) (tags : List (String × TagConfig)) : Except InvalidName Engine :=
  tags.foldlM (fun e t => (e.register t.1 (TagConfig.toTemplate t.2).handler).value) start

theorem fault?_register (e : Engine) (name : String) (handler : Handler) :
    fault? (e.register name handler).value = fault? (Tag.validateName name) := by
  rw [Engine.register]
  cases hv : Tag.validateName name with
  | error error => rw [Bindings.register_error hv]; rfl
  | ok =>
    obtain ⟨handlers, hr⟩ := Bindings.exists_register hv e.handlers handler
    rw [hr]
    rfl

theorem fault?_registerAll (start : Engine) (tags : List (String × TagConfig)) :
    fault? (registerAll start tags) = tags.findSome? (fault? <| Tag.validateName ·.1) := by
  induction tags generalizing start with
  | nil => rfl
  | cons t tags ih =>
    rw [registerAll, List.foldlM_cons, List.findSome?_cons,
      ← fault?_register start t.1 (TagConfig.toTemplate t.2).handler]
    cases (start.register t.1 (TagConfig.toTemplate t.2).handler).value with
    | error error => rfl
    | ok next => exact ih next

theorem validateName_name {name : String} {error : InvalidName}
    (h : Tag.validateName name = .error error) : error.name = name := by
  unfold Tag.validateName at h
  split at h
  · cases h
    rfl
  · cases h

theorem engine_eq_error_iff (h : KeysOrdered c.tags) {error : InvalidName} :
    c.engine = .error error ↔ FirstRejected c error := by
  change registerAll (Engine.empty c.ignoreHtml) c.tags = .error error ↔ _
  rw [← fault?_eq_some_iff, fault?_registerAll, h.findSome?_eq_some_iff]
  simp only [fault?_eq_some_iff, fault?_eq_none_iff]
  constructor
  · rintro ⟨t, ht, hfault, hbefore⟩
    obtain ⟨name, kind⟩ := error
    obtain rfl : name = t.1 := validateName_name hfault
    refine ⟨List.mem_map_of_mem ht, hfault, fun name hname hlt => ?_⟩
    obtain ⟨t', ht', rfl⟩ := List.mem_map.1 hname
    obtain ⟨⟨⟩, hok⟩ := hbefore t' ht' hlt
    exact hok
  · rintro ⟨hmem, hfault, hbefore⟩
    obtain ⟨t, ht, hname⟩ := List.mem_map.1 hmem
    rw [← hname] at hfault hbefore
    exact ⟨t, ht, hfault, fun b hb hlt => ⟨(), hbefore b.1 (List.mem_map_of_mem hb) hlt⟩⟩

theorem exists_engine_iff : (∃ e, c.engine = .ok e) ↔ c.Registrable := by
  change (∃ e, registerAll (Engine.empty c.ignoreHtml) c.tags = .ok e) ↔ _
  rw [← fault?_eq_none_iff, fault?_registerAll, List.findSome?_eq_none_iff]
  simp only [fault?_eq_none_iff]
  exact ⟨fun h t ht => (h t ht).elim fun _ hok => hok, fun h t ht => ⟨(), h t ht⟩⟩

/-- Handlers are bound as the tags say, and nothing else of the engine changes. -/
structure Registers (start : Engine) (tags : List (String × TagConfig)) (e : Engine) : Prop where
  ignoreHtml : e.ignoreHtml = start.ignoreHtml
  hooks : e.hooks = start.hooks
  handlers : ∀ t ∈ tags, e.handlers.get? t.1 = some (TagConfig.toTemplate t.2).handler
  others : ∀ name ∉ tags.map (·.1), e.handlers.get? name = start.handlers.get? name

theorem registers_of_register {start e : Engine} {t : String × TagConfig}
    (h : (start.register t.1 (TagConfig.toTemplate t.2).handler).value = .ok e) :
    Registers start [t] e := by
  rw [Engine.register] at h
  split at h
  · cases h
  · next handlers hr =>
    cases h
    have get? := Bindings.get?_register hr
    refine ⟨rfl, rfl, List.forall_mem_singleton.2 ((get? t.1).trans (if_pos rfl)), ?_⟩
    intro name hname
    exact (get? name).trans (if_neg fun heq => hname (List.mem_singleton.2 heq.symm))

/-- A name that occurs once keeps the handler that it was bound to. -/
theorem registers_of_registerAll {start e : Engine} {tags : List (String × TagConfig)}
    (nodup : (tags.map (·.1)).Nodup) (h : registerAll start tags = .ok e) :
    Registers start tags e := by
  induction tags generalizing start with
  | nil =>
    cases h
    exact ⟨rfl, rfl, nofun, fun _ _ => rfl⟩
  | cons t tags ih =>
    rw [registerAll, List.foldlM_cons] at h
    obtain ⟨next, hnext, h⟩ := exists_of_bind h
    obtain ⟨hnew, nodup⟩ := List.nodup_cons.1 nodup
    have first := registers_of_register hnext
    have rest := ih nodup h
    refine ⟨rest.ignoreHtml.trans first.ignoreHtml, rest.hooks.trans first.hooks,
      List.forall_mem_cons.2 ⟨?_, rest.handlers⟩, fun name hname => ?_⟩
    · exact (rest.others t.1 hnew).trans (first.handlers t List.mem_cons_self)
    · obtain ⟨hfirst, hrest⟩ := not_or.1 (List.mem_cons.not.1 hname)
      rw [rest.others name hrest, first.others name (List.mem_singleton.not.2 hfirst)]

theorem registers_of_engine {e : Engine} (h : KeysOrdered c.tags) (he : c.engine = .ok e) :
    Registers (Engine.empty c.ignoreHtml) c.tags e := registers_of_registerAll h.nodup he

end Shortcode.Config
