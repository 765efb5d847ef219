import Mathlib.Data.List.Forall2
import Shortcode.Config.Decode
import Shortcode.Proofs.Text.ByteOrder
import Shortcode.Proofs.Toml.Distinct

namespace Shortcode.Config

open Toml (Value Entries)

variable {α : Type}

/-- Keys in the order of their bytes, each once. -/
def KeysOrdered (entries : List (String × α)) : Prop :=
  entries.Pairwise fun a b => Text.ByteBefore a.1 b.1

structure Ordered (c : Config) : Prop where
  tags : KeysOrdered c.tags
  defaults : ∀ t ∈ c.tags, KeysOrdered t.2.defaults

theorem KeysOrdered.nodup {entries : List (String × α)} (h : KeysOrdered entries) :
    (entries.map (·.1)).Nodup := by
  rw [List.Nodup, List.pairwise_map]
  refine h.imp fun hab he => ?_
  rw [he] at hab
  exact List.lt_irrefl _ hab

theorem keysOrdered_byKey {entries : List (String × α)} (nodup : (entries.map (·.1)).Nodup) :
    KeysOrdered (byKey entries) := by
  have perm : (byKey entries).Perm entries := List.mergeSort_perm ..
  have nodup' : (byKey entries).Pairwise fun a b => a.1 ≠ b.1 :=
    List.pairwise_map.1 ((perm.map _).nodup_iff.2 nodup)
  have sorted : (byKey entries).Pairwise fun a b => decide (a.1 ≤ b.1) = true := by
    apply List.pairwise_mergeSort
    · intro a b c hab hbc
      exact decide_eq_true (le_trans (of_decide_eq_true hab) (of_decide_eq_true hbc))
    · intro a b
      rw [Bool.or_eq_true, decide_eq_true_iff, decide_eq_true_iff]
      exact le_total a.1 b.1
  refine sorted.imp₂ (fun a b hle hne => ?_) nodup'
  exact Text.byteBefore_iff_lt.2 (lt_of_le_of_ne (of_decide_eq_true hle) hne)

theorem forall₂_of_mapM {β : Type} {f : α → Option β} {as : List α} {bs : List β}
    (h : as.mapM f = some bs) : List.Forall₂ (fun a b => f a = some b) as bs := by
  induction as generalizing bs with
  | nil =>
    cases h
    exact .nil
  | cons a as ih =>
    rw [List.mapM_cons] at h
    obtain ⟨b, hb, h⟩ := Option.bind_eq_some_iff.1 h
    obtain ⟨more, hmore, h⟩ := Option.bind_eq_some_iff.1 h
    cases h
    exact .cons hb (ih hmore)

theorem exists_mem_of_forall₂ {β : Type} {R : α → β → Prop} {as : List α} {bs : List β} {b : β}
    (h : List.Forall₂ R as bs) (hb : b ∈ bs) : ∃ a ∈ as, R a b := by
  induction h with
  | nil => cases hb
  | cons hr _ ih =>
    rcases List.mem_cons.1 hb with rfl | hb
    · exact ⟨_, List.mem_cons_self, hr⟩
    · obtain ⟨a, ha, hr⟩ := ih hb
      exact ⟨a, List.mem_cons_of_mem _ ha, hr⟩

/-- Each entry is decoded under its key, and then they are put in order. -/
theorem keysOrdered_of_mapM {entries : Entries} {decode : Value → Option α}
    {out : List (String × α)} (nodup : (entries.map (·.1)).Nodup)
    (h : byKey <$> entries.mapM (fun e => (decode e.2).map (e.1, ·)) = some out) :
    KeysOrdered out ∧ ∀ a ∈ out, ∃ e ∈ entries, decode e.2 = some a.2 := by
  obtain ⟨decoded, hdecoded, rfl⟩ := Option.map_eq_some_iff.1 h
  have each : List.Forall₂ (fun e a => e.1 = a.1 ∧ decode e.2 = some a.2) entries decoded := by
    refine (forall₂_of_mapM hdecoded).imp fun e a he => ?_
    obtain ⟨b, hb, rfl⟩ := Option.map_eq_some_iff.1 he
    exact ⟨rfl, hb⟩
  have keys : entries.map (·.1) = decoded.map (·.1) := by
    rw [← List.forall₂_eq_eq_eq, List.forall₂_map_left_iff, List.forall₂_map_right_iff]
    exact each.imp fun _ _ he => he.1
  refine ⟨keysOrdered_byKey (keys ▸ nodup), fun a ha => ?_⟩
  obtain ⟨e, he, -, hea⟩ := exists_mem_of_forall₂ each (List.mem_mergeSort.1 ha)
  exact ⟨e, he, hea⟩

theorem distinct_of_entries? {value : Value} {entries : Entries} (hv : value.Distinct)
    (h : entries? value = some entries) : entries.Distinct := by
  unfold entries? at h
  split at h
  · cases h
    exact .ofTable hv
  · cases h
    exact ⟨List.nodup_singleton _, List.forall_mem_singleton.2 (.string _)⟩
  · cases h

theorem distinct_of_known? {names : List String} {entries out : Entries} (he : entries.Distinct)
    (h : known? names entries = some out) : out.Distinct := by
  rw [known?, List.partition_eq_filter_filter] at h
  dsimp only at h
  split at h
  · cases h
    exact ⟨he.nodup.sublist (List.filter_sublist.map _),
      fun e hm => he.values e (List.mem_of_mem_filter hm)⟩
  · cases h

/-- Fields are values of a table, or of an array. -/
theorem distinct_of_fields? {names : List String} {value v : Value} {fields : Entries}
    {name : String} (hv : value.Distinct) (h : fields? names value = some fields)
    (hf : fields.get? name = some v) : v.Distinct := by
  unfold fields? at h
  split at h
  · cases h
    exact hv.ofArray v (List.of_mem_zip (Entries.mem_of_get? hf)).2
  · obtain ⟨entries, hentries, h⟩ := Option.bind_eq_some_iff.1 h
    exact (distinct_of_known? (distinct_of_entries? hv hentries) h).get? hf

/-- A property of an optional field holds of what is decoded and of what stands for nothing. -/
theorem of_optional {P : α → Prop} {decode : Value → Option α} {absent a : α} {entries : Entries}
    {name : String} (h : optional decode absent entries name = some a) (habsent : P absent)
    (hdecode : ∀ v, entries.get? name = some v → decode v = some a → P a) : P a := by
  unfold optional at h
  split at h
  · next v hv => exact hdecode v hv h
  · cases h
    exact habsent

theorem keysOrdered_of_tag? {value : Value} {t : TagConfig} (hv : value.Distinct)
    (h : tag? value = some t) : KeysOrdered t.defaults := by
  obtain ⟨fields, hfields, h⟩ := Option.bind_eq_some_iff.1 h
  obtain ⟨template, -, h⟩ := Option.bind_eq_some_iff.1 h
  obtain ⟨defaults, hdefaults, h⟩ := Option.bind_eq_some_iff.1 h
  obtain ⟨expandContent, -, h⟩ := Option.bind_eq_some_iff.1 h
  cases h
  refine of_optional hdefaults .nil fun v hget hdecode => ?_
  obtain ⟨entries, hentries, hdecode⟩ := Option.bind_eq_some_iff.1 hdecode
  have distinct := distinct_of_entries? (distinct_of_fields? hv hfields hget) hentries
  exact (keysOrdered_of_mapM distinct.nodup hdecode).1

theorem ordered_of_tags? {value : Value} {tags : List (String × TagConfig)} (hv : value.Distinct)
    (h : tags? value = some tags) :
    KeysOrdered tags ∧ ∀ t ∈ tags, KeysOrdered t.2.defaults := by
  obtain ⟨entries, hentries, h⟩ := Option.bind_eq_some_iff.1 h
  have distinct := distinct_of_entries? hv hentries
  obtain ⟨ordered, decoded⟩ := keysOrdered_of_mapM distinct.nodup h
  refine ⟨ordered, fun t ht => ?_⟩
  obtain ⟨e, he, htag⟩ := decoded t ht
  exact keysOrdered_of_tag? (distinct.values e he) htag

theorem ordered_of_ofEntries? {entries : Entries} {c : Config} (he : entries.Distinct)
    (h : ofEntries? entries = some c) : c.Ordered := by
  obtain ⟨known, hknown, h⟩ := Option.bind_eq_some_iff.1 h
  obtain ⟨ignoreHtml, -, h⟩ := Option.bind_eq_some_iff.1 h
  obtain ⟨stripTags, -, h⟩ := Option.bind_eq_some_iff.1 h
  obtain ⟨tags, htags, h⟩ := Option.bind_eq_some_iff.1 h
  cases h
  obtain ⟨ordered, defaults⟩ := of_optional
    (P := fun tags => KeysOrdered tags ∧ ∀ t ∈ tags, KeysOrdered t.2.defaults) htags
    ⟨.nil, nofun⟩ fun v hget hdecode =>
      ordered_of_tags? ((distinct_of_known? he hknown).get? hget) hdecode
  exact ⟨ordered, defaults⟩

theorem ordered_of_decode {text : String} {c : Config} (h : decode text = .ok c) : c.Ordered := by
  unfold decode at h
  split at h
  · next config hconfig =>
    cases h
    obtain ⟨entries, hentries, hc⟩ := Option.bind_eq_some_iff.1 hconfig
    exact ordered_of_ofEntries? (Toml.distinct_of_parse hentries) hc
  · cases h

end Shortcode.Config
