import Shortcode.Proofs.Config.Loaded

namespace Shortcode

namespace Config

variable {tree other : FileTree} {cwd directory place : List RawText} {env : Environment}
  {found : Option (List RawText)}

theorem ancestors_concat (directory : List RawText) (name : RawText) :
    FileTree.ancestors (directory ++ [name]) =
      (directory ++ [name]) :: FileTree.ancestors directory := by
  have lower : ∀ i ∈ List.range (directory.length + 1),
      (directory ++ [name]).take i = directory.take i := by
    intro i hi
    exact List.take_append_of_le_length (Nat.le_of_lt_succ (List.mem_range.1 hi))
  have whole : (directory ++ [name]).take (directory.length + 1) = directory ++ [name] := by
    apply List.take_of_length_le
    simp
  rw [FileTree.ancestors, FileTree.ancestors, List.length_append, List.length_singleton,
    List.range_succ, List.map_append, List.map_singleton, List.reverse_concat, whole,
    List.map_congr_left lower]

theorem mem_ancestors_iff : directory ∈ FileTree.ancestors cwd ↔ directory <+: cwd := by
  induction cwd using List.reverseRecOn with
  | nil => simp [FileTree.ancestors]
  | append_singleton cwd name ih => rw [ancestors_concat, List.mem_cons, ih, List.prefix_concat_iff]

/-- A directory has an entry of the file's name, whose path is not too long for the system. -/
def HasFile (tree : FileTree) (directory : List RawText) : Prop :=
  (tree (directory ++ [fileName])).isSome ∧
    (candidate directory).bytes.length ≤ FileTree.pathLimit

instance (tree : FileTree) (directory : List RawText) : Decidable (HasFile tree directory) :=
  inferInstanceAs (Decidable (_ ∧ _))

theorem isEntry_fileName : FileTree.IsEntry fileName where
  ne_empty := FileTree.ne_of_string_ne (by decide)
  ne_here := FileTree.ne_of_string_ne (by decide)
  ne_above := FileTree.ne_of_string_ne (by decide)
  short := by decide +kernel

/-- The path of the file leads to it, from wherever it is followed. -/
theorem leadsTo_candidate_iff (standing : tree.Standing directory) (cwd : List RawText) :
    tree.LeadsTo cwd (candidate directory) place ↔
      HasFile tree directory ∧ place = directory ++ [fileName] :=
  standing.leadsTo_iff isEntry_fileName (by decide +kernel) cwd

theorem exists?_candidate (standing : tree.Standing directory) (cwd : List RawText) :
    tree.exists? cwd (candidate directory) = decide (HasFile tree directory) := by
  rw [Bool.eq_iff_iff, FileTree.exists?_iff, decide_eq_true_eq]
  simp [leadsTo_candidate_iff standing]

/-- Looks for the file in a directory, and if it is not there in the one above. It ends where the
file is found, or at the root. -/
inductive Search (tree : FileTree) : List RawText → Option (List RawText) → Prop where
  | here {directory : List RawText} (h : HasFile tree directory) :
    Search tree directory (some directory)
  | root (h : ¬ HasFile tree []) : Search tree [] none
  | up {directory : List RawText} {name : RawText} {found : Option (List RawText)}
    (h : ¬ HasFile tree (directory ++ [name])) (above : Search tree directory found) :
    Search tree (directory ++ [name]) found

theorem exists_search (tree : FileTree) (cwd : List RawText) : ∃ found, Search tree cwd found := by
  induction cwd using List.reverseRecOn with
  | nil =>
    by_cases h : HasFile tree []
    · exact ⟨_, .here h⟩
    · exact ⟨_, .root h⟩
  | append_singleton cwd name ih =>
    obtain ⟨found, above⟩ := ih
    by_cases h : HasFile tree (cwd ++ [name])
    · exact ⟨_, .here h⟩
    · exact ⟨_, .up h above⟩

/-- The candidates are tried as the search goes. -/
theorem Search.find?_eq (h : Search tree directory found) (standing : tree.Standing directory)
    (cwd : List RawText) :
    ((FileTree.ancestors directory).map candidate).find? (tree.exists? cwd) =
      found.map candidate := by
  induction h with
  | @here directory h =>
    have first : ∃ above, FileTree.ancestors directory = directory :: above := by
      cases directory using List.reverseRecOn with
      | nil => exact ⟨[], rfl⟩
      | append_singleton directory name => exact ⟨_, ancestors_concat directory name⟩
    obtain ⟨above, first⟩ := first
    simp [first, exists?_candidate standing, h]
  | root h =>
    have only : FileTree.ancestors [] = [[]] := rfl
    simp [only, exists?_candidate standing, h]
  | up h _ ih =>
    have above := ih (standing.above (List.prefix_append _ _))
    rw [← above, ancestors_concat]
    simp [exists?_candidate standing, h]

theorem Search.discover_eq (h : Search tree cwd found) (standing : tree.Standing cwd) :
    discover tree cwd = found.map candidate := by
  rw [discover, standing.directory cwd List.prefix_rfl]
  exact h.find?_eq standing cwd

/-- The deepest directory, from the working directory up, that has the file. -/
structure Nearest (tree : FileTree) (cwd directory : List RawText) : Prop where
  above : directory <+: cwd
  found : HasFile tree directory
  deepest : ∀ other, other <+: cwd → directory.length < other.length → ¬ HasFile tree other

instance (tree : FileTree) (cwd directory : List RawText) :
    Decidable (Nearest tree cwd directory) :=
  decidable_of_iff (directory <+: cwd ∧ HasFile tree directory ∧
      ∀ other ∈ FileTree.ancestors cwd, directory.length < other.length → ¬ HasFile tree other)
    ⟨fun h => ⟨h.1, h.2.1, fun other above => h.2.2 other (mem_ancestors_iff.2 above)⟩,
      fun h => ⟨h.above, h.found, fun other above => h.deepest other (mem_ancestors_iff.1 above)⟩⟩

/-- No directory from the working directory up has the file. -/
def Absent (tree : FileTree) (cwd : List RawText) : Prop :=
  ∀ directory, directory <+: cwd → ¬ HasFile tree directory

theorem Nearest.eq {directory' : List RawText} (h : Nearest tree cwd directory)
    (h' : Nearest tree cwd directory') : directory = directory' := by
  have le {d d' : List RawText} (h : Nearest tree cwd d) (h' : Nearest tree cwd d') :
      d.length ≤ d'.length := by
    by_contra longer
    exact h'.deepest d h.above (Nat.lt_of_not_le longer) h.found
  exact (List.prefix_of_prefix_length_le h.above h'.above (le h h')).eq_of_length
    (Nat.le_antisymm (le h h') (le h' h))

theorem Nearest.not_absent (h : Nearest tree cwd directory) : ¬ Absent tree cwd :=
  fun absent => absent directory h.above h.found

/-- What the search comes to. -/
theorem Search.outcome (h : Search tree cwd found) :
    found = none ∧ Absent tree cwd ∨
      ∃ directory, found = some directory ∧ Nearest tree cwd directory := by
  induction h with
  | @here cwd h =>
    refine .inr ⟨cwd, rfl, List.prefix_rfl, h, fun other above longer => ?_⟩
    exact absurd above.length_le (Nat.not_le.2 longer)
  | root h =>
    refine .inl ⟨rfl, fun directory above => ?_⟩
    rw [List.prefix_nil.1 above]
    exact h
  | @up cwd name found h _ ih =>
    obtain ⟨rfl, absent⟩ | ⟨directory, rfl, nearest⟩ := ih
    · refine .inl ⟨rfl, fun directory above => ?_⟩
      obtain rfl | above := List.prefix_concat_iff.1 above
      · exact h
      · exact absent directory above
    · refine .inr ⟨directory, rfl, nearest.above.trans (List.prefix_append _ _), nearest.found, ?_⟩
      intro other above longer
      obtain rfl | above := List.prefix_concat_iff.1 above
      · exact h
      · exact nearest.deepest other above longer

theorem search_some_iff : Search tree cwd (some directory) ↔ Nearest tree cwd directory := by
  constructor
  · intro h
    obtain ⟨⟨⟩, -⟩ | ⟨_, ⟨⟩, nearest⟩ := h.outcome
    exact nearest
  · intro nearest
    obtain ⟨found, search⟩ := exists_search tree cwd
    obtain ⟨-, absent⟩ | ⟨_, rfl, nearest'⟩ := search.outcome
    · exact absurd absent nearest.not_absent
    · rwa [nearest.eq nearest']

theorem search_none_iff : Search tree cwd none ↔ Absent tree cwd := by
  constructor
  · intro h
    obtain ⟨-, absent⟩ | ⟨_, ⟨⟩, -⟩ := h.outcome
    exact absent
  · intro absent
    obtain ⟨found, search⟩ := exists_search tree cwd
    obtain ⟨rfl, -⟩ | ⟨_, -, nearest⟩ := search.outcome
    · exact search
    · exact absurd absent nearest.not_absent

theorem existsUnique_search (tree : FileTree) (cwd : List RawText) :
    ∃! found, Search tree cwd found := by
  obtain ⟨found, search⟩ := exists_search tree cwd
  refine ⟨found, search, fun found' search' => ?_⟩
  obtain ⟨rfl, absent⟩ | ⟨directory, rfl, nearest⟩ := search.outcome <;>
    obtain ⟨rfl, absent'⟩ | ⟨directory', rfl, nearest'⟩ := search'.outcome
  · rfl
  · exact absurd absent nearest'.not_absent
  · exact absurd absent' nearest.not_absent
  · rw [nearest.eq nearest']

theorem Absent.load_eq (h : Absent tree cwd) (standing : tree.Standing cwd) :
    load tree cwd env none = .ok default := by
  rw [load, (search_none_iff.2 h).discover_eq standing]
  rfl

theorem load_of_lost (h : tree cwd ≠ some .directory) : load tree cwd env none = .ok default := by
  have nothing : discover tree cwd = none := by
    unfold discover
    split
    · next here => exact absurd here h
    · rfl
  rw [load, nothing]

theorem Nearest.leads (h : Nearest tree cwd directory) (standing : tree.Standing cwd)
    (cwd' : List RawText) :
    tree.LeadsTo cwd' (candidate directory) (directory ++ [fileName]) :=
  (leadsTo_candidate_iff (standing.above h.above) cwd').2 ⟨h.found, rfl⟩

theorem Nearest.load_eq (h : Nearest tree cwd directory) (standing : tree.Standing cwd) :
    load tree cwd env none = ofText env (candidate directory).display
      (tree.readAt (directory ++ [fileName])) := by
  rw [load, (search_some_iff.2 h).discover_eq standing]
  change loadFile tree cwd env (candidate directory) = _
  rw [loadFile, FileTree.read_of_leadsTo (h.leads standing cwd)]

theorem Nearest.source (h : Nearest tree cwd directory) (standing : tree.Standing cwd)
    {text : Except ReadFault String}
    (holds : FileTree.Holds (tree (directory ++ [fileName])) text) :
    Source tree cwd none (candidate directory).display text :=
  .discovered ((search_some_iff.2 h).discover_eq standing) (h.leads standing cwd) holds

/-- The path of a file is kept, and plays no part otherwise. -/
theorem ofText_eq_map (shown path : String) (text : Except ReadFault String) :
    ofText env shown text =
      (fun c => { c with path := some shown }) <$> ofText env path text := by
  simp only [ofText, map_bind, map_pure]

/-- A text gives the configuration that it decodes to, with its default values expanded. -/
theorem ofText_eq_ok_iff {shown : String} {text : Except ReadFault String} {c : Config} :
    ofText env shown text = .ok c ↔ ∃ content decoded, text = .ok content ∧
      decode content = .ok decoded ∧ decoded.Complete ∧
      Realizes env ⟨none⟩ shown decoded c := by
  constructor
  · intro h
    obtain ⟨content, ht, h⟩ := exists_of_bind h
    obtain ⟨decoded, hd, h⟩ := exists_of_bind h
    obtain ⟨expanded, hx, h⟩ := exists_of_bind h
    obtain ⟨⟨⟩, hv, h⟩ := exists_of_bind h
    cases h
    obtain ⟨tags, ignoreHtml, stripTags⟩ := expandDefaults_spec hx
    refine ⟨content, decoded, ?_, hd, ?_, rfl, ignoreHtml, stripTags, tags⟩
    · cases text with
      | error fault => cases ht
      | ok s =>
        cases ht
        rfl
    · rw [← validate_eq_ok_iff, ← validate_expandDefaults hx]
      exact hv
  · rintro ⟨content, decoded, rfl, hd, complete, ⟨path, ignoreHtml, stripTags, tags⟩⟩
    have hx := expandDefaults_of_expands tags
    have hv := (validate_expandDefaults hx).trans (validate_eq_ok_iff.2 complete)
    have hc : c = { decoded with tags := c.tags, path := some shown } := by
      obtain ⟨_, _, _, _⟩ := c
      dsimp only [Option.getD_none] at path ignoreHtml stripTags
      rw [path, ignoreHtml, stripTags]
    rw [ofText, bind_of_ok (mapError_of_ok rfl _), bind_of_ok hd, bind_of_ok hx, bind_of_ok hv, hc]
    rfl

/-- An error of loading is one of setting up. -/
theorem setup_eq_error_iff {path : Option FilePath} (settings : Settings) (error : ConfigError) :
    Setup.load tree cwd env path settings = .error (.config error) ↔
      load tree cwd env path = .error error := by
  rw [Setup.load]
  constructor
  · intro h
    cases hl : load tree cwd env path with
    | error fault =>
      rw [hl] at h
      cases h
      rfl
    | ok c =>
      rw [bind_of_ok (mapError_of_ok hl _)] at h
      dsimp only at h
      cases he : (c.override settings).engine with
      | error fault => rw [he] at h; cases h
      | ok engine => rw [he] at h; cases h
  · intro h
    rw [h]
    rfl

theorem Source.load_eq_error_iff {path : Option FilePath} {shown : String}
    {text : Except ReadFault String} (h : Source tree cwd path shown text) (error : ConfigError) :
    load tree cwd env path = .error error ↔ FailsWith env text (.config error) := by
  rw [← setup_eq_error_iff ⟨none⟩]
  constructor
  · intro hl
    obtain ⟨fault, hl', fails⟩ | ⟨setup, hl', -⟩ := h.outcome env ⟨none⟩
    · cases hl.symm.trans hl'
      exact fails
    · cases hl.symm.trans hl'
  · exact h.load_of_failsWith

/-- What is loaded without a path is the file of a directory: the configuration that its text
decodes to with the default values expanded, or its own error. It is the same with any path that
leads there, but for the path that is kept. -/
structure Takes (tree : FileTree) (cwd : List RawText) (env : Environment)
    (directory : List RawText) : Prop where
  loads : ∀ c, load tree cwd env none = .ok c ↔ ∃ content decoded,
    tree (directory ++ [fileName]) = some (.file content.toUTF8) ∧ decode content = .ok decoded ∧
      decoded.Complete ∧ Realizes env ⟨none⟩ (candidate directory).display decoded c
  fails : ∀ error, load tree cwd env none = .error error ↔ ∃ text,
    FileTree.Holds (tree (directory ++ [fileName])) text ∧ FailsWith env text (.config error)
  ofDirectory : tree (directory ++ [fileName]) = some .directory →
    load tree cwd env none = .error (.unreadable .isDirectory)
  ofBytes : ∀ bytes, tree (directory ++ [fileName]) = some (.file bytes) →
    (∀ content : String, content.toUTF8 ≠ bytes) →
    load tree cwd env none = .error (.unreadable .notUtf8)
  given : ∀ cwd' path, tree.LeadsTo cwd' path (directory ++ [fileName]) →
    load tree cwd env none =
      (fun c => { c with path := some (candidate directory).display }) <$>
        load tree cwd' env (some path)

theorem Nearest.takes (h : Nearest tree cwd directory) (standing : tree.Standing cwd)
    (env : Environment) : Takes tree cwd env directory where
  loads c := by
    rw [h.load_eq standing, ofText_eq_ok_iff]
    constructor
    · rintro ⟨content, decoded, read, rest⟩
      have holds := FileTree.holds_iff.2 read
      generalize tree (directory ++ [fileName]) = node at holds ⊢
      cases holds with
      | text => exact ⟨content, decoded, rfl, rest⟩
    · rintro ⟨content, decoded, node, rest⟩
      have read : tree.readAt (directory ++ [fileName]) = .ok content := by
        rw [← FileTree.holds_iff, node]
        exact .text content
      exact ⟨content, decoded, read, rest⟩
  fails error := by
    constructor
    · intro failed
      have holds : FileTree.Holds (tree (directory ++ [fileName])) _ := FileTree.holds_iff.2 rfl
      exact ⟨_, holds, ((h.source standing holds).load_eq_error_iff error).1 failed⟩
    · rintro ⟨text, holds, failed⟩
      exact ((h.source standing holds).load_eq_error_iff error).2 failed
  ofDirectory node := by
    rw [h.load_eq standing, FileTree.readAt, node]
    rfl
  ofBytes bytes node invalid := by
    have read : tree.readAt (directory ++ [fileName]) = .error .notUtf8 := by
      rw [← FileTree.holds_iff, node]
      exact .notUtf8 invalid
    rw [h.load_eq standing, read]
    rfl
  given cwd' path leads := by
    rw [h.load_eq standing, load, if_pos (FileTree.exists?_iff.2 ⟨_, leads⟩), loadFile,
      FileTree.read_of_leadsTo leads]
    exact ofText_eq_map ..

/-- What else is in the tree plays no part. -/
theorem load_congr (standing : tree.Standing cwd) (standing' : other.Standing cwd)
    (same : ∀ directory, directory <+: cwd →
      other (directory ++ [fileName]) = tree (directory ++ [fileName])) :
    load other cwd env none = load tree cwd env none := by
  have has (directory : List RawText) (above : directory <+: cwd) :
      HasFile other directory ↔ HasFile tree directory := by
    rw [HasFile, HasFile, same directory above]
  obtain ⟨found, search⟩ := exists_search tree cwd
  obtain ⟨-, absent⟩ | ⟨directory, -, nearest⟩ := search.outcome
  · have absent' : Absent other cwd := fun directory above =>
      mt (has directory above).1 (absent directory above)
    rw [absent.load_eq standing, absent'.load_eq standing']
  · have nearest' : Nearest other cwd directory :=
      ⟨nearest.above, (has directory nearest.above).2 nearest.found, fun lower below longer =>
        mt (has lower below).1 (nearest.deepest lower below longer)⟩
    rw [nearest.load_eq standing, nearest'.load_eq standing', FileTree.readAt, FileTree.readAt,
      same directory nearest.above]

/-- Without a path the file of the nearest directory is taken, even if it cannot be loaded. The
search for it ends at the root at the latest. The default configuration is the answer, and there is
no path, where no directory on the way has the file, or the working directory is gone. What else is
in the tree plays no part. -/
theorem load_nearest (tree : FileTree) (cwd : List RawText) (env : Environment) :
    (tree cwd ≠ some .directory → load tree cwd env none = .ok default) ∧
    (tree.Standing cwd →
      (∃! found, Search tree cwd found) ∧
      (∀ directory, Search tree cwd (some directory) ↔ Nearest tree cwd directory) ∧
      (∀ directory, Nearest tree cwd directory → Takes tree cwd env directory) ∧
      (∀ directory, directory <+: cwd → ∀ cwd' place,
        tree.LeadsTo cwd' (candidate directory) place ↔
          HasFile tree directory ∧ place = directory ++ [fileName]) ∧
      (Search tree cwd none ↔ Absent tree cwd) ∧
      (Absent tree cwd ↔ load tree cwd env none = .ok default) ∧
      (Absent tree cwd ↔ ∃ c, load tree cwd env none = .ok c ∧ c.path = none) ∧
      ∀ other : FileTree, other.Standing cwd → (∀ directory, directory <+: cwd →
        other (directory ++ [fileName]) = tree (directory ++ [fileName])) →
        load other cwd env none = load tree cwd env none) := by
  refine ⟨load_of_lost, fun standing => ?_⟩
  have pathless : (∃ c, load tree cwd env none = .ok c ∧ c.path = none) → Absent tree cwd := by
    rintro ⟨c, hc, path⟩
    obtain ⟨found, search⟩ := exists_search tree cwd
    obtain ⟨-, absent⟩ | ⟨directory, -, nearest⟩ := search.outcome
    · exact absent
    · obtain ⟨_, _, -, -, -, realizes⟩ := ((nearest.takes standing env).loads c).1 hc
      cases path.symm.trans realizes.path
  exact ⟨existsUnique_search tree cwd, fun directory => search_some_iff,
    fun directory nearest => nearest.takes standing env,
    fun directory above cwd' place => leadsTo_candidate_iff (standing.above above) cwd',
    search_none_iff, ⟨fun h => h.load_eq standing, fun h => pathless ⟨_, h, rfl⟩⟩,
    ⟨fun h => ⟨_, h.load_eq standing, rfl⟩, pathless⟩,
    fun other standing' same => load_congr standing standing' same⟩

/-- A directory of the file's name comes before a file further up, and files beside it and below
play no part. From beside it the file there is loaded, with a default value expanded. -/
theorem load_nearest_kinds :
    let file := "[tags.t]\ntemplate = 'x'\n[tags.t.defaults]\nk = '$\x7bV:-v\x7d'"
    let tree := FileTree.ofFiles [(["shortcodes.toml"], "=".toUTF8),
      (["a", "x", "shortcodes.toml"], file.toUTF8),
      (["a", "b", "c", "shortcodes.toml"], "=".toUTF8)]
      [["a", "b"], ["a", "shortcodes.toml"], ["a", "x", "y"]]
    load tree ["a", "b"] ⟨[]⟩ none = .error (.unreadable .isDirectory) ∧
      load tree ["a", "x", "y"] ⟨[]⟩ none =
        .ok ⟨false, none, [("t", ⟨"x", [("k", "v")], false⟩)], some "/a/x/shortcodes.toml"⟩ ∧
      load tree ["a", "z"] ⟨[]⟩ none = .ok ⟨false, none, [], none⟩ := by
  intro file tree
  have names : ∀ name ∈ ["a", "b", "x", "y"],
      FileTree.IsEntry name ∧ FilePath.slash ∉ (RawText.ofString name).bytes := by
    intro name hname
    fin_cases hname <;> exact ⟨⟨by decide, by decide, by decide, by decide⟩, by decide⟩
  have standing (cwd : List String) (named : cwd ⊆ ["a", "b", "x", "y"])
      (directory : ∀ above ∈ FileTree.ancestors (cwd.map RawText.ofString),
        tree above = some .directory) : tree.Standing (cwd.map RawText.ofString) := by
    refine ⟨?_, ?_, fun above h => directory above (mem_ancestors_iff.2 h)⟩
    · simpa using fun name hname => (names name (named hname)).1
    · simpa using fun name hname => (names name (named hname)).2
  have low : tree.Standing ["a", "b"] := standing ["a", "b"] (by decide) (by
    intro above h
    fin_cases h <;> rfl)
  have beside : tree.Standing ["a", "x", "y"] := standing ["a", "x", "y"] (by decide) (by
    intro above h
    fin_cases h <;> rfl)
  have decoded : decode file = .ok ⟨false, none,
      [("t", ⟨"x", [("k", "$\x7bV:-v\x7d")], false⟩)], none⟩ := by
    dsimp only [file]
    cbv
  have value : (⟨[]⟩ : Environment).expand "$\x7bV:-v\x7d" = .ok "v" := by decide +kernel
  have shown : (candidate ["a", "x"]).display = "/a/x/shortcodes.toml" := by decide +kernel
  refine ⟨?_, ?_, ?_⟩
  · obtain ⟨-, -, takes, -⟩ := (load_nearest tree ["a", "b"] ⟨[]⟩).2 low
    exact (takes ["a"] (by decide +kernel)).ofDirectory rfl
  · obtain ⟨-, -, takes, -⟩ := (load_nearest tree ["a", "x", "y"] ⟨[]⟩).2 beside
    refine ((takes ["a", "x"] (by decide +kernel)).loads _).2 ⟨file, _, rfl, decoded, ?_, ?_⟩
    · exact ⟨List.forall_mem_singleton.2 ⟨by decide, by decide⟩, by decide⟩
    · exact ⟨congrArg some shown.symm, rfl, rfl,
        .cons ⟨rfl, rfl, rfl, .cons ⟨rfl, value⟩ .nil⟩ .nil⟩
  · have gone : tree ["a", "z"] = none := by rfl
    refine (load_nearest tree ["a", "z"] ⟨[]⟩).1 ?_
    rw [gone]
    exact (Option.some_ne_none _).symm

end Config

end Shortcode
