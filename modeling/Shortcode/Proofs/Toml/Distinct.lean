import Mathlib.Data.List.Nodup
import Shortcode.Toml.Reader

namespace Shortcode.Toml

/-- No table within the value has a key twice. -/
inductive Value.Distinct : Value → Prop where
  | string (s : String) : Distinct (.string s)
  | boolean (b : Bool) : Distinct (.boolean b)
  | number (n : Number) : Distinct (.number n)
  | moment (m : Moment) : Distinct (.moment m)
  | array {isOpen : Bool} {items : List Value} (items_distinct : ∀ v ∈ items, v.Distinct) :
    Distinct (.array isOpen items)
  | table {origin : Origin} {entries : List (String × Value)}
    (nodup : (entries.map (·.1)).Nodup) (values : ∀ e ∈ entries, e.2.Distinct) :
    Distinct (.table origin entries)

/-- No key stands twice, neither here nor in a table within a value. -/
structure Entries.Distinct (entries : Entries) : Prop where
  nodup : (entries.map (·.1)).Nodup
  values : ∀ e ∈ entries, e.2.Distinct

variable {entries : Entries} {key : String} {value : Value} {text : List Char}

theorem Value.Distinct.ofArray {isOpen : Bool} {items : List Value}
    (h : (Value.array isOpen items).Distinct) : ∀ v ∈ items, v.Distinct := by
  cases h with
  | array items_distinct => exact items_distinct

theorem Value.Distinct.concat {isOpen : Bool} {items : List Value}
    (h : ∀ v ∈ items, v.Distinct) (hv : value.Distinct) :
    (Value.array isOpen (items ++ [value])).Distinct :=
  .array (List.forall_mem_append.2 ⟨h, List.forall_mem_singleton.2 hv⟩)

namespace Entries

theorem Distinct.empty : Distinct [] := ⟨List.nodup_nil, nofun⟩

theorem Distinct.toTable (h : entries.Distinct) (origin : Origin) :
    (Value.table origin entries).Distinct := .table h.nodup h.values

theorem Distinct.ofTable {origin : Origin} (h : (Value.table origin entries).Distinct) :
    entries.Distinct := by
  cases h with
  | table nodup values => exact ⟨nodup, values⟩

theorem mem_of_get? (h : entries.get? key = some value) : (key, value) ∈ entries := by
  obtain ⟨e, he, rfl⟩ := Option.map_eq_some_iff.1 h
  have hk : e.1 = key := by simpa using List.find?_some he
  rw [← hk]
  exact List.mem_of_find?_eq_some he

theorem Distinct.get? (h : entries.Distinct) (hv : entries.get? key = some value) :
    value.Distinct := h.values _ (mem_of_get? hv)

/-- A key is written over where it stands, or it is new at the end. -/
theorem Distinct.set (h : entries.Distinct) (hv : value.Distinct) :
    (entries.set key value).Distinct := by
  rw [Entries.set]
  split
  · constructor
    · have keys : (entries.map fun e => if e.1 = key then (key, value) else e).map (·.1) =
          entries.map (·.1) := by
        rw [List.map_map]
        apply List.map_congr_left
        intro e _
        dsimp only [Function.comp_apply]
        split
        · next he => exact he.symm
        · rfl
      rw [keys]
      exact h.nodup
    · intro e he
      obtain ⟨e', he', rfl⟩ := List.mem_map.1 he
      split
      · exact hv
      · exact h.values e' he'
  · next hnone =>
    constructor
    · rw [List.map_append, List.map_singleton]
      refine h.nodup.append (List.nodup_singleton _) ?_
      rw [List.disjoint_singleton]
      intro hm
      obtain ⟨e, he, hk⟩ := List.mem_map.1 hm
      exact hnone (List.any_eq_true.2 ⟨e, he, decide_eq_true hk⟩)
    · intro e he
      rcases List.mem_append.1 he with he | he
      · exact h.values e he
      · rw [List.mem_singleton.1 he]
        exact hv

end Entries

/-- The change leaves no key twice. -/
def Table.Change.Keeps (f : Table.Change) : Prop :=
  ∀ t t' : Table, f t = some t' → t.entries.Distinct → t'.entries.Distinct

namespace Table

theorem keeps_change {way : Origin} {f : Change} (hf : f.Keeps) (path : List String) :
    (change way f path).Keeps := by
  -- the changed table goes back to where the one on the way was found
  induction path with
  | nil => exact hf
  | cons key path ih =>
    intro t t' h ht
    rw [change] at h
    split at h
    · obtain ⟨inner, hinner, he⟩ := Option.bind_eq_some_iff.1 h
      cases he
      exact ht.set ((ih _ _ hinner .empty).toTable _)
    · next origin entries hget =>
      obtain ⟨way', -, h⟩ := Option.bind_eq_some_iff.1 h
      obtain ⟨inner, hinner, he⟩ := Option.bind_eq_some_iff.1 h
      cases he
      exact ht.set ((ih _ _ hinner (.ofTable (ht.get? hget))).toTable _)
    · next items hget =>
      split at h
      · next origin entries hlast =>
        obtain ⟨inner, hinner, he⟩ := Option.bind_eq_some_iff.1 h
        cases he
        have items := Value.Distinct.ofArray (ht.get? hget)
        have last := items _ (List.mem_of_getLast? hlast)
        exact ht.set (.concat (fun v hv => items v (List.dropLast_subset _ hv))
          ((ih _ _ hinner (.ofTable last)).toTable _))
      · cases h
    · cases h

theorem keeps_named (key : String) : (named key).Keeps := by
  intro t t' h ht
  rw [named] at h
  split at h
  · cases h
    exact ht.set (Entries.Distinct.empty.toTable _)
  · next entries hget =>
    cases h
    exact ht.set ((Entries.Distinct.ofTable (ht.get? hget)).toTable _)
  · cases h

theorem keeps_appended (key : String) : (appended key).Keeps := by
  intro t t' h ht
  rw [appended] at h
  split at h
  · cases h
    exact ht.set (.array (List.forall_mem_singleton.2 (Entries.Distinct.empty.toTable _)))
  · next items hget =>
    cases h
    exact ht.set (.concat (Value.Distinct.ofArray (ht.get? hget))
      (Entries.Distinct.empty.toTable _))
  · cases h

theorem keeps_assigned {isDotted : Bool} (hv : value.Distinct) :
    (assigned isDotted key value).Keeps := by
  intro t t' h ht
  rw [assigned] at h
  split at h
  · cases h
  · split at h
    · cases h
      exact ht.set hv
    · cases h

theorem keeps_assign {p : Path} (hv : value.Distinct) : (assign p value).Keeps :=
  keeps_change (keeps_assigned hv) p.parents

end Table

/-- What a statement assigns has no key twice. -/
def Statement.Distinct : Statement → Prop
  | .assignment _ value => value.Distinct
  | _ => True

theorem Document.distinct_add {d d' : Document} {s : Statement} (hs : s.Distinct)
    (h : d.add s = some d') (hd : d.root.entries.Distinct) : d'.root.entries.Distinct := by
  cases s with
  | header p =>
    obtain ⟨root, hroot, he⟩ := Option.bind_eq_some_iff.1 h
    cases he
    exact Table.keeps_change (Table.keeps_named p.key) p.parents _ _ hroot hd
  | arrayHeader p =>
    obtain ⟨root, hroot, he⟩ := Option.bind_eq_some_iff.1 h
    cases he
    exact Table.keeps_change (Table.keeps_appended p.key) p.parents _ _ hroot hd
  | assignment p value =>
    obtain ⟨root, hroot, he⟩ := Option.bind_eq_some_iff.1 h
    cases he
    exact Table.keeps_change (Table.keeps_assign hs) d.current _ _ hroot hd

/-- A whole run keeps what each of its steps keeps. -/
theorem foldlM_keeps {α β : Type} {P : β → Prop} {f : β → α → Option β} {as : List α}
    (step : ∀ a ∈ as, ∀ b b', f b a = some b' → P b → P b') {b last : β}
    (h : as.foldlM f b = some last) (hb : P b) : P last := by
  induction as generalizing b with
  | nil =>
    cases h
    exact hb
  | cons a as ih =>
    rw [List.foldlM_cons] at h
    obtain ⟨b', hb', h⟩ := Option.bind_eq_some_iff.1 h
    obtain ⟨hfirst, hrest⟩ := List.forall_mem_cons.1 step
    exact ih hrest h (hfirst b b' hb' hb)

theorem distinct_entriesOf {statements : List Statement} (hs : ∀ s ∈ statements, s.Distinct)
    (h : entriesOf statements = some entries) : entries.Distinct := by
  obtain ⟨last, hlast, rfl⟩ := Option.map_eq_some_iff.1 h
  exact foldlM_keeps (P := fun d : Document => d.root.entries.Distinct)
    (fun s hmem _ _ hadd hd => Document.distinct_add (hs s hmem) hadd hd) hlast .empty

theorem distinct_entriesOfBraces {assignments : List (Path × Value)}
    (hs : ∀ a ∈ assignments, a.2.Distinct) (h : entriesOfBraces assignments = some entries) :
    entries.Distinct := by
  obtain ⟨last, hlast, rfl⟩ := Option.map_eq_some_iff.1 h
  exact foldlM_keeps (P := fun t : Table => t.entries.Distinct)
    (fun a hmem _ _ hassign ht => Table.keeps_assign (hs a hmem) _ _ hassign ht) hlast .empty

/-- What the reader yields has no key twice. -/
def Reader.Yields (item : Reader Value) : Prop :=
  ∀ text r, item text = some r → r.value.Distinct

theorem Read.value_of? {α : Type} {a : α} {rest : List Char} {r : Read α text}
    (h : Read.of? text a rest = some r) : r.value = a := by
  rw [Read.of?] at h
  split at h
  · cases h
    rfl
  · cases h

theorem distinct_of_scalar? (h : scalar? text = some value) : value.Distinct := by
  rw [scalar?] at h
  split at h
  · cases h
    exact .boolean true
  · split at h
    · cases h
      exact .boolean false
    · rcases Option.or_eq_some_iff.1 h with h | ⟨-, h⟩
      · obtain ⟨n, -, rfl⟩ := Option.map_eq_some_iff.1 h
        exact .number n
      · obtain ⟨m, -, rfl⟩ := Option.map_eq_some_iff.1 h
        exact .moment m

theorem yields_readWord : Reader.Yields readWord := by
  intro text r h
  have scalar {word rest : List Char}
      (h : ((scalar? word).bind fun v => Read.of? text v rest) = some r) : r.value.Distinct := by
    obtain ⟨v, hv, h⟩ := Option.bind_eq_some_iff.1 h
    rw [Read.value_of? h]
    exact distinct_of_scalar? hv
  unfold readWord at h
  dsimp only at h
  split at h
  · split at h
    · exact scalar h
    · exact scalar h
  · exact scalar h

theorem distinct_of_readItems {item : Reader Value} (hitem : item.Yields)
    {r : Read (List Value) text} (h : readItems item text = some r) :
    ∀ v ∈ r.value, v.Distinct := by
  fun_induction readItems item text with
  | case1 => cases h
  | case2 =>
    rw [Read.value_of? h]
    exact nofun
  | case3 text text₁ _ hgap _ ih =>
    obtain ⟨v, hv, h⟩ := Option.bind_eq_some_iff.1 h
    have first := hitem _ _ hv
    split at h
    · next rest hrest =>
      obtain ⟨more, hmore, h⟩ := Option.bind_eq_some_iff.1 h
      cases h
      exact List.forall_mem_cons.2 ⟨first, ih v rest hrest hmore⟩
    · rw [Read.value_of? h]
      exact List.forall_mem_singleton.2 first
    · cases h

theorem distinct_of_readAssignment {dropSpace : List Char → Option (List Char)}
    {item : Reader Value} (hitem : item.Yields) {r : Read (Path × Value) text}
    (h : readAssignment dropSpace item text = some r) : r.value.2.Distinct := by
  obtain ⟨path, -, h⟩ := Option.bind_eq_some_iff.1 h
  obtain ⟨behind, -, h⟩ := Option.bind_eq_some_iff.1 h
  split at h
  · obtain ⟨start, -, h⟩ := Option.bind_eq_some_iff.1 h
    obtain ⟨v, hv, h⟩ := Option.bind_eq_some_iff.1 h
    rw [Read.value_of? h]
    exact hitem _ _ hv
  · cases h

theorem distinct_of_readBraces {item : Reader Value} (hitem : item.Yields)
    {r : Read (List (Path × Value)) text} (h : readBraces item text = some r) :
    ∀ a ∈ r.value, a.2.Distinct := by
  fun_induction readBraces item text with
  | case1 => cases h
  | case2 =>
    rw [Read.value_of? h]
    exact nofun
  | case3 text text₁ _ hgap _ ih =>
    obtain ⟨a, ha, h⟩ := Option.bind_eq_some_iff.1 h
    have first := distinct_of_readAssignment hitem ha
    split at h
    · next rest hrest =>
      obtain ⟨more, hmore, h⟩ := Option.bind_eq_some_iff.1 h
      cases h
      exact List.forall_mem_cons.2 ⟨first, ih a rest hrest hmore⟩
    · rw [Read.value_of? h]
      exact List.forall_mem_singleton.2 first
    · cases h

/-- A value of this depth is read with the reader of the values one level deeper. -/
theorem yields_readValue_of {depth : Nat}
    (deeper : ∀ d, depth = d + 1 → Reader.Yields (readValue d)) :
    Reader.Yields (readValue depth) := by
  intro text r h
  unfold readValue at h
  split at h
  · obtain ⟨s, -, h⟩ := Option.bind_eq_some_iff.1 h
    rw [Read.value_of? h]
    exact .string _
  · obtain ⟨s, -, h⟩ := Option.bind_eq_some_iff.1 h
    rw [Read.value_of? h]
    exact .string _
  · obtain ⟨s, -, rfl⟩ := Option.map_eq_some_iff.1 h
    exact .string _
  · obtain ⟨s, -, rfl⟩ := Option.map_eq_some_iff.1 h
    exact .string _
  · next depth rest =>
    obtain ⟨items, hitems, rfl⟩ := Option.map_eq_some_iff.1 h
    exact .array (distinct_of_readItems (deeper depth rfl) hitems)
  · next depth rest =>
    obtain ⟨assignments, hassignments, h⟩ := Option.bind_eq_some_iff.1 h
    obtain ⟨entries, hentries, h⟩ := Option.bind_eq_some_iff.1 h
    have values := distinct_of_readBraces (deeper depth rfl) hassignments
    rw [Read.value_of? h]
    exact (distinct_entriesOfBraces values hentries).toTable _
  · exact yields_readWord _ _ h

theorem yields_readValue (depth : Nat) : Reader.Yields (readValue depth) := by
  induction depth with
  | zero => exact yields_readValue_of nofun
  | succ depth ih =>
    refine yields_readValue_of fun d hd => ?_
    rw [← Nat.succ.inj hd]
    exact ih

theorem distinct_of_readStatement {r : Read Statement text} (h : readStatement text = some r) :
    r.value.Distinct := by
  unfold readStatement at h
  split at h
  · obtain ⟨p, -, h⟩ := Option.bind_eq_some_iff.1 h
    split at h
    · rw [Read.value_of? h]
      trivial
    · cases h
  · obtain ⟨p, -, h⟩ := Option.bind_eq_some_iff.1 h
    split at h
    · rw [Read.value_of? h]
      trivial
    · cases h
  · obtain ⟨a, ha, rfl⟩ := Option.map_eq_some_iff.1 h
    exact distinct_of_readAssignment (yields_readValue nestingLimit) ha

theorem distinct_of_readStatements {statements : List Statement}
    (h : readStatements text = some statements) : ∀ s ∈ statements, s.Distinct := by
  fun_induction readStatements text generalizing statements with
  | case1 => cases h
  | case2 =>
    cases h
    exact nofun
  | case3 text c rest _ _ ih =>
    obtain ⟨s, hs, h⟩ := Option.bind_eq_some_iff.1 h
    split at h
    · cases h
    · next behind hbehind =>
      obtain ⟨more, hmore, rfl⟩ := Option.map_eq_some_iff.1 h
      exact List.forall_mem_cons.2 ⟨distinct_of_readStatement hs, ih s behind hbehind hmore⟩

theorem distinct_of_parse {text : String} (h : parse text = some entries) : entries.Distinct := by
  obtain ⟨statements, hstatements, h⟩ := Option.bind_eq_some_iff.1 h
  exact distinct_entriesOf (distinct_of_readStatements hstatements) h

end Shortcode.Toml
