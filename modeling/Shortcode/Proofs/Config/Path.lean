import Mathlib.Data.List.Basic
import Shortcode.Config.Load

namespace Shortcode

namespace RawText

theorem text?_ofString (s : String) : (ofString s).text? = some s := by
  have valid : s.toUTF8.IsValidUTF8 := s.isValidUTF8
  rw [text?, ofString, Array.toArray_toList]
  change String.fromUTF8? s.toUTF8 = some s
  rw [String.fromUTF8?, dif_pos valid]
  rfl

theorem ofString_inj {s t : String} : ofString s = ofString t ↔ s = t := by
  constructor
  · intro h
    have same := congrArg text? h
    rw [text?_ofString, text?_ofString] at same
    exact Option.some.inj same
  · exact congrArg ofString

end RawText

namespace FilePath

theorem names_ofPlace {place : List RawText} (hne : place ≠ [])
    (plain : ∀ name ∈ place, slash ∉ name.bytes) :
    (ofPlace place).names = .ofString "" :: place := by
  obtain ⟨name, names, rfl⟩ := List.exists_cons_of_ne_nil hne
  have pieces : (ofPlace (name :: names)).bytes =
      [slash].intercalate ([] :: (name :: names).map (·.bytes)) := by
    simp [ofPlace]
  have separate : ∀ bytes ∈ [] :: (name :: names).map (·.bytes), slash ∉ bytes := by
    simpa using plain
  have empty : RawText.mk [] = .ofString "" := rfl
  rw [FilePath.names, pieces, List.splitOn_intercalate _ separate (List.cons_ne_nil _ _)]
  simp [empty, Function.comp_def]

end FilePath

namespace FileTree

variable {tree : FileTree} {cwd place target : List RawText} {path : FilePath} {name : RawText}
  {names : List RawText}

/-- The name of an entry of a directory. -/
structure IsEntry (name : RawText) : Prop where
  ne_empty : name ≠ ""
  ne_here : name ≠ "."
  ne_above : name ≠ ".."
  short : name.bytes.length ≤ nameLimit

/-- Where names lead from a place: each of them is looked up in a directory. -/
inductive Leads (tree : FileTree) : List RawText → List RawText → List RawText → Prop where
  | arrive (place : List RawText) : Leads tree place [] place
  | stay {place target names : List RawText} {name : RawText}
    (directory : tree place = some .directory) (here : name = "" ∨ name = ".")
    (rest : Leads tree place names target) : Leads tree place (name :: names) target
  | up {place target names : List RawText} (directory : tree place = some .directory)
    (rest : Leads tree place.dropLast names target) : Leads tree place (".." :: names) target
  | down {place target names : List RawText} {name : RawText}
    (directory : tree place = some .directory) (isEntry : IsEntry name)
    (entry : (tree (place ++ [name])).isSome) (rest : Leads tree (place ++ [name]) names target) :
    Leads tree place (name :: names) target

/-- Where a path leads, from the root or from the working directory. -/
structure LeadsTo (tree : FileTree) (cwd : List RawText) (path : FilePath) (place : List RawText) :
    Prop where
  nonempty : path.bytes ≠ []
  short : path.bytes.length ≤ pathLimit
  leads : tree.Leads (if path.isAbsolute then [] else cwd) path.names place

theorem ne_of_string_ne {s t : String} (h : s ≠ t) : (s : RawText) ≠ t :=
  mt RawText.ofString_inj.1 h

theorem step_of_here (directory : tree place = some .directory) (here : name = "" ∨ name = ".") :
    tree.step place name = .ok place := by
  simp [step, directory, here]

theorem step_of_above (directory : tree place = some .directory) :
    tree.step place ".." = .ok place.dropLast := by
  have ne : ¬ ((".." : RawText) = "" ∨ (".." : RawText) = ".") :=
    not_or.2 ⟨ne_of_string_ne (by decide), ne_of_string_ne (by decide)⟩
  simp only [step, directory, if_neg ne, if_true]

theorem step_of_isEntry (directory : tree place = some .directory) (isEntry : IsEntry name)
    (entry : (tree (place ++ [name])).isSome) : tree.step place name = .ok (place ++ [name]) := by
  have ne := not_or.2 ⟨isEntry.ne_empty, isEntry.ne_here⟩
  simp only [step, directory, if_neg ne, if_neg isEntry.ne_above,
    if_neg (Nat.not_lt.2 isEntry.short), if_pos entry]

/-- What one name can come to. -/
theorem step_cases (h : tree.step place name = .ok target) :
    tree place = some .directory ∧
      ((name = "" ∨ name = ".") ∧ target = place ∨ name = ".." ∧ target = place.dropLast ∨
        IsEntry name ∧ (tree (place ++ [name])).isSome ∧ target = place ++ [name]) := by
  unfold step at h
  split at h
  · cases h
  · cases h
  · next directory =>
    refine ⟨directory, ?_⟩
    split at h
    · next here =>
      cases h
      exact .inl ⟨here, rfl⟩
    · next here =>
      obtain ⟨ne_empty, ne_here⟩ := not_or.1 here
      split at h
      · next above =>
        cases h
        exact .inr (.inl ⟨above, rfl⟩)
      · next ne_above =>
        split at h
        · cases h
        · next short =>
          split at h
          · next entry =>
            cases h
            exact .inr (.inr ⟨⟨ne_empty, ne_here, ne_above, Nat.not_lt.1 short⟩, entry, rfl⟩)
          · cases h

theorem foldlM_step_eq_ok_iff :
    names.foldlM tree.step place = .ok target ↔ tree.Leads place names target := by
  constructor
  · intro h
    induction names generalizing place with
    | nil =>
      cases h
      exact .arrive _
    | cons name names ih =>
      rw [List.foldlM_cons] at h
      cases hs : tree.step place name with
      | error fault =>
        rw [hs] at h
        cases h
      | ok next =>
        rw [hs] at h
        have rest := ih h
        obtain ⟨directory, ⟨here, rfl⟩ | ⟨rfl, rfl⟩ | ⟨isEntry, entry, rfl⟩⟩ := step_cases hs
        · exact .stay directory here rest
        · exact .up directory rest
        · exact .down directory isEntry entry rest
  · intro h
    induction h with
    | arrive place => rfl
    | stay directory here rest ih =>
      rw [List.foldlM_cons, step_of_here directory here]
      exact ih
    | up directory rest ih =>
      rw [List.foldlM_cons, step_of_above directory]
      exact ih
    | down directory isEntry entry rest ih =>
      rw [List.foldlM_cons, step_of_isEntry directory isEntry entry]
      exact ih

theorem Leads.eq {other : List RawText} (h : tree.Leads place names target)
    (h' : tree.Leads place names other) : target = other := by
  have same := (foldlM_step_eq_ok_iff.2 h).symm.trans (foldlM_step_eq_ok_iff.2 h')
  exact Except.ok.inj same

theorem find_eq_ok_iff : tree.find cwd path = .ok place ↔ tree.LeadsTo cwd path place := by
  rw [find]
  split
  · next empty =>
    rw [RawText.isEmpty, List.isEmpty_iff] at empty
    exact ⟨nofun, fun h => absurd empty h.nonempty⟩
  · next nonempty =>
    rw [RawText.isEmpty, List.isEmpty_iff] at nonempty
    split
    · next long => exact ⟨nofun, fun h => absurd h.short (Nat.not_le.2 long)⟩
    · next short =>
      rw [foldlM_step_eq_ok_iff]
      exact ⟨fun h => ⟨nonempty, Nat.not_lt.1 short, h⟩, fun h => h.leads⟩

theorem LeadsTo.eq {other : List RawText} (h : tree.LeadsTo cwd path place)
    (h' : tree.LeadsTo cwd path other) : place = other := h.leads.eq h'.leads

theorem exists?_iff : tree.exists? cwd path = true ↔ ∃ place, tree.LeadsTo cwd path place := by
  simp only [← find_eq_ok_iff, exists?]
  cases tree.find cwd path with
  | error fault => exact ⟨nofun, nofun⟩
  | ok place => exact ⟨fun _ => ⟨place, rfl⟩, fun _ => rfl⟩

/-- What there is to read where something stands, or nothing does. -/
inductive Holds : Option Node → Except ReadFault String → Prop where
  | text (content : String) : Holds (some (.file content.toUTF8)) (.ok content)
  | notUtf8 {bytes : ByteArray} (h : ∀ content : String, content.toUTF8 ≠ bytes) :
    Holds (some (.file bytes)) (.error .notUtf8)
  | directory : Holds (some .directory) (.error .isDirectory)
  | nothing : Holds none (.error .notFound)

theorem decodeText_toUTF8 (content : String) : decodeText content.toUTF8 = .ok content := by
  have valid : content.toUTF8.IsValidUTF8 := content.isValidUTF8
  rw [decodeText, String.fromUTF8?, dif_pos valid]
  rfl

theorem decodeText_of_ne {bytes : ByteArray} (h : ∀ content : String, content.toUTF8 ≠ bytes) :
    decodeText bytes = .error .notUtf8 := by
  have invalid : ¬ bytes.IsValidUTF8 := fun valid => h (String.fromUTF8 bytes valid) rfl
  rw [decodeText, String.fromUTF8?, dif_neg invalid]

/-- Bytes are those of a text, or of none. -/
theorem toUTF8_cases (bytes : ByteArray) :
    (∃ content : String, bytes = content.toUTF8) ∨ ∀ content : String, content.toUTF8 ≠ bytes := by
  by_cases h : ∃ content : String, bytes = content.toUTF8
  · exact .inl h
  · exact .inr fun content he => h ⟨content, he.symm⟩

theorem holds_iff {text : Except ReadFault String} :
    Holds (tree place) text ↔ tree.readAt place = text := by
  rw [readAt]
  constructor
  · intro h
    generalize tree place = node at h
    cases h with
    | text content => exact decodeText_toUTF8 content
    | notUtf8 h => exact decodeText_of_ne h
    | directory => rfl
    | nothing => rfl
  · rintro rfl
    cases tree place with
    | none => exact .nothing
    | some node =>
      cases node with
      | directory => exact .directory
      | file bytes =>
        obtain ⟨content, rfl⟩ | invalid := toUTF8_cases bytes
        · dsimp only
          rw [decodeText_toUTF8]
          exact .text content
        · dsimp only
          rw [decodeText_of_ne invalid]
          exact .notUtf8 invalid

/-- What there is to read at the end of a path. -/
inductive Reads (tree : FileTree) (cwd : List RawText) (path : FilePath) :
    Except ReadFault String → Prop where
  | held {place : List RawText} {text : Except ReadFault String}
    (leads : tree.LeadsTo cwd path place) (holds : Holds (tree place) text) :
    Reads tree cwd path text
  | lost {fault : ReadFault} (nowhere : ∀ place, ¬ tree.LeadsTo cwd path place)
    (fails : tree.find cwd path = .error fault) : Reads tree cwd path (.error fault)

theorem read_of_leadsTo (h : tree.LeadsTo cwd path place) :
    tree.read cwd path = tree.readAt place := by
  rw [read, find_eq_ok_iff.2 h]
  rfl

theorem reads_iff {text : Except ReadFault String} :
    tree.Reads cwd path text ↔ tree.read cwd path = text := by
  constructor
  · rintro (⟨leads, holds⟩ | ⟨-, fails⟩)
    · rw [read_of_leadsTo leads, holds_iff.1 holds]
    · rw [read, fails]
      rfl
  · rintro rfl
    cases hf : tree.find cwd path with
    | ok place =>
      have leads := find_eq_ok_iff.1 hf
      exact .held leads (holds_iff.2 (read_of_leadsTo leads).symm)
    | error fault =>
      have nowhere (place : List RawText) : ¬ tree.LeadsTo cwd path place := by
        intro leads
        cases hf.symm.trans (find_eq_ok_iff.2 leads)
      rw [read, hf]
      exact .lost nowhere hf

/-- A directory in which a process can stand: a path from the root leads to it. -/
structure Standing (tree : FileTree) (cwd : List RawText) : Prop where
  isEntry : ∀ name ∈ cwd, IsEntry name
  plain : ∀ name ∈ cwd, FilePath.slash ∉ name.bytes
  directory : ∀ above, above <+: cwd → tree above = some .directory

theorem Standing.above {above : List RawText} (h : tree.Standing cwd) (ha : above <+: cwd) :
    tree.Standing above :=
  ⟨fun name hname => h.isEntry name (ha.subset hname),
    fun name hname => h.plain name (ha.subset hname), fun _ hd => h.directory _ (hd.trans ha)⟩

theorem leads_cons_of_isEntry (isEntry : IsEntry name) :
    tree.Leads place (name :: names) target ↔
      tree place = some .directory ∧ (tree (place ++ [name])).isSome ∧
        tree.Leads (place ++ [name]) names target := by
  constructor
  · intro h
    cases h with
    | stay _ here _ => exact absurd here (not_or.2 ⟨isEntry.ne_empty, isEntry.ne_here⟩)
    | up _ _ => exact absurd rfl isEntry.ne_above
    | down directory _ entry rest => exact ⟨directory, entry, rest⟩
  · rintro ⟨directory, entry, rest⟩
    exact .down directory isEntry entry rest

/-- Names of directories lead on to what stands in the last one. -/
theorem leads_concat_iff (place target : List RawText) (entries : ∀ name ∈ names, IsEntry name)
    (isEntry : IsEntry name)
    (directory : ∀ above, above <+: names → tree (place ++ above) = some .directory) :
    tree.Leads place (names ++ [name]) target ↔
      (tree (place ++ names ++ [name])).isSome ∧ target = place ++ names ++ [name] := by
  induction names generalizing place with
  | nil =>
    have here := directory [] List.prefix_rfl
    rw [List.append_nil] at here ⊢
    rw [List.nil_append, leads_cons_of_isEntry isEntry]
    constructor
    · rintro ⟨-, entry, rest⟩
      exact ⟨entry, rest.eq (.arrive _)⟩
    · rintro ⟨entry, rfl⟩
      exact ⟨here, entry, .arrive _⟩
  | cons first names ih =>
    obtain ⟨hfirst, hnames⟩ := List.forall_mem_cons.1 entries
    have here := directory [] List.nil_prefix
    have next := directory [first] (by simp)
    have behind := ih (place ++ [first]) hnames fun above h => by
      have := directory (first :: above) (by simpa using h)
      simpa using this
    rw [List.append_nil] at here
    rw [List.cons_append, leads_cons_of_isEntry hfirst, behind, List.append_assoc place]
    simp [here, next]

/-- The path of what stands in a directory leads there from anywhere. -/
theorem Standing.leadsTo_iff {directory : List RawText} (h : tree.Standing directory)
    (isEntry : IsEntry name) (plain : FilePath.slash ∉ name.bytes) (cwd : List RawText) :
    tree.LeadsTo cwd (.ofPlace (directory ++ [name])) place ↔
      ((tree (directory ++ [name])).isSome ∧
        (FilePath.ofPlace (directory ++ [name])).bytes.length ≤ pathLimit) ∧
      place = directory ++ [name] := by
  have names : (FilePath.ofPlace (directory ++ [name])).names =
      .ofString "" :: (directory ++ [name]) := by
    apply FilePath.names_ofPlace (by simp)
    intro other ho
    rcases List.mem_append.1 ho with ho | ho
    · exact h.plain other ho
    · rw [List.mem_singleton.1 ho]
      exact plain
  have absolute : (FilePath.ofPlace (directory ++ [name])).isAbsolute = true := by
    simp [FilePath.isAbsolute, FilePath.ofPlace]
  have root := h.directory [] List.nil_prefix
  have along := leads_concat_iff [] place h.isEntry isEntry h.directory
  have leads : tree.Leads [] (.ofString "" :: (directory ++ [name])) place ↔
      (tree (directory ++ [name])).isSome ∧ place = directory ++ [name] := by
    rw [List.nil_append] at along
    rw [← along]
    constructor
    · intro h
      cases h with
      | stay _ _ rest => exact rest
      | down _ isEntry _ _ => exact absurd rfl isEntry.ne_empty
    · exact .stay root (.inl rfl)
  constructor
  · rintro ⟨-, short, hl⟩
    rw [absolute, if_pos rfl, names, leads] at hl
    exact ⟨⟨hl.1, short⟩, hl.2⟩
  · rintro ⟨⟨entry, short⟩, he⟩
    refine ⟨by simp [FilePath.ofPlace], short, ?_⟩
    rw [absolute, if_pos rfl, names, leads]
    exact ⟨entry, he⟩

end FileTree

end Shortcode
