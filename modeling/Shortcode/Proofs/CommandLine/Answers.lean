import Shortcode.Proofs.CommandLine.Arguments
import Shortcode.Proofs.Config.Loaded
import Shortcode.Proofs.Engine.Probe
import Shortcode.Proofs.Engine.Requests

namespace Shortcode

/-- The handlers of a setup fill templates, whatever the configuration says. -/
theorem Setup.templated_of_load {tree : FileTree} {cwd : List RawText} {env : Environment}
    {path : Option FilePath} {settings : Config.Settings} {s : Setup}
    (h : Setup.load tree cwd env path settings = .ok s) : s.engine.Templated := by
  obtain ⟨config, -, h⟩ := Config.exists_of_bind h
  obtain ⟨e, he, h⟩ := Config.exists_of_bind h
  cases h
  cases hc : (config.override settings).engine with
  | error error =>
    rw [hc] at he
    cases he
  | ok e' =>
    rw [hc] at he
    cases he
    exact Engine.Templated.ofConfig hc

namespace CommandLine

variable {w w' : World} {args args' : List RawText} {i i' : Invocation} {s : Setup}
  {content tag : String} {c : Command}

/-- The lines of an output, each of which ends with a line feed. -/
def printedLines (output : String) : List String :=
  ((output.toList.splitOn '\n').dropLast).map String.ofList

theorem toList_lines (texts : List String) :
    (lines texts).toList = texts.flatMap (·.toList ++ ['\n']) := by
  rw [lines, String.toList_join, List.flatMap_map]
  simp only [String.toList_append]
  rfl

theorem dropLast_splitOn {texts : List String} (h : ∀ t ∈ texts, '\n' ∉ t.toList) :
    ((texts.flatMap (·.toList ++ ['\n'])).splitOn '\n').dropLast = texts.map String.toList := by
  induction texts with
  | nil => rfl
  | cons t texts ih =>
    obtain ⟨hfirst, hrest⟩ := List.forall_mem_cons.1 h
    have noLineFeed : ∀ c ∈ t.toList, (c == '\n') = false := fun c hc =>
      beq_false_of_ne fun heq => hfirst (heq ▸ hc)
    rw [List.flatMap_cons, List.append_assoc, List.singleton_append, List.splitOn,
      List.splitOnP_append_cons_of_forall_mem noLineFeed '\n' (by rfl),
      List.dropLast_cons_of_ne_nil (List.splitOnP_ne_nil _ _), List.map_cons]
    exact congrArg _ (ih hrest)

/-- Texts on one line each can be told apart again. -/
theorem printedLines_of_flatMap {texts : List String} (h : ∀ t ∈ texts, '\n' ∉ t.toList)
    {output : String} (ho : output.toList = texts.flatMap (·.toList ++ ['\n'])) :
    printedLines output = texts := by
  rw [printedLines, ho, dropLast_splitOn h, List.map_map]
  exact (List.map_congr_left fun t _ => String.ofList_toList).trans (List.map_id texts)

/-- The tags to strip for those given: they, or else those of the configuration, or else all. -/
inductive Requests (config : Config) : List String → Option (List String) → Prop where
  | given {given : List String} (h : given ≠ []) : Requests config given (some given)
  | configured {tags : List String} (h : config.stripTags = some tags) :
    Requests config [] (some tags)
  | all (h : config.stripTags = none) : Requests config [] none

/-- What a command has to print for a content. -/
inductive Prints (s : Setup) (content : String) : Command → String → Prop where
  | expand {file : Option FilePath} {output : String}
    (h : (s.engine.expand content).value = some output) : Prints s content (.expand file) output
  | strip {file : Option FilePath} {given : List String} {requested : Option (List String)}
    (h : Requests s.config given requested) :
    Prints s content (.strip file given) (s.engine.strip content requested).value
  | tags {file : Option FilePath} {output : String}
    (h : output.toList = (s.engine.tags content).value.flatMap (·.toList ++ ['\n'])) :
    Prints s content (.tags file) output
  | found {tag : String} {file : Option FilePath} (h : (s.engine.hasTag content tag).value = true) :
    Prints s content (.has tag file) "true\n"
  | notFound {tag : String} {file : Option FilePath}
    (h : (s.engine.hasTag content tag).value = false) : Prints s content (.has tag file) "false\n"

theorem requests_requestedTags (given : List String) (config : Config) :
    Requests config given (requestedTags given config) := by
  cases given with
  | cons tag given => exact .given (List.cons_ne_nil tag given)
  | nil =>
    change Requests config [] config.stripTags
    cases h : config.stripTags with
    | none => exact .all h
    | some tags => exact .configured h

theorem answer_of_ok {f : String → Except String String} {output : String}
    (h : f content = .ok output) (warnings : List String) :
    answer warnings (.ok content) f = ⟨0, output, lines warnings⟩ := by
  unfold answer
  dsimp only
  rw [h]

theorem execute_of_unreadable {fault : ReadFault} (h : w.content c.file? = .error fault) :
    (w.execute s c).code = 1 ∧ (w.execute s c).stdout = "" := by
  cases c with
  | expand file | strip file given | tags file | has tag file =>
    change w.content file = _ at h
    rw [World.execute, h]
    exact ⟨rfl, rfl⟩

theorem execute_of_content (ht : s.engine.Templated) (h : w.content c.file? = .ok content) :
    (w.execute s c).code = 0 ∧ Prints s content c (w.execute s c).stdout := by
  cases c with
  | expand file =>
    change w.content file = _ at h
    obtain ⟨output, houtput⟩ := ht.exists_expand content
    rw [World.execute, h, answer_of_ok (by rw [houtput])]
    exact ⟨rfl, .expand houtput⟩
  | strip file given =>
    change w.content file = _ at h
    rw [World.execute, h]
    exact ⟨rfl, .strip (requests_requestedTags given s.config)⟩
  | tags file =>
    change w.content file = _ at h
    rw [World.execute, h]
    exact ⟨rfl, .tags (toList_lines _)⟩
  | has tag file =>
    change w.content file = _ at h
    rw [World.execute, h]
    dsimp only [answer]
    cases hf : (s.engine.hasTag content tag).value with
    | true =>
      rw [if_pos rfl, show lines ["true"] = "true\n" by decide]
      exact ⟨rfl, .found hf⟩
    | false =>
      rw [if_neg Bool.false_ne_true, show lines ["false"] = "false\n" by decide]
      exact ⟨rfl, .notFound hf⟩

theorem lineFeed_not_mem_of_mem_tags (e : Engine) (h : tag ∈ (e.tags content).value) :
    '\n' ∉ tag.toList := by
  obtain ⟨_, p, m, hv, rfl, -⟩ := (Engine.mem_tags e content tag).1 h
  intro hn
  have valid := Bindings.validateName_of_mem_names hv.name_mem
  have free := (Tag.plain_of_validateName valid).2 '\n' hn
  exact absurd free (by decide)

theorem Prints.agree {file file' : Option FilePath} {output output' : String}
    (h : Prints s content (.has tag file) output) (h' : Prints s content (.tags file') output') :
    output = "true\n" ↔ tag ∈ printedLines output' := by
  have listed : printedLines output' = (s.engine.tags content).value := by
    cases h' with
    | tags ho => exact printedLines_of_flatMap (fun t => lineFeed_not_mem_of_mem_tags s.engine) ho
  rw [listed, Engine.mem_tags, ← Engine.hasTag_iff]
  cases h with
  | found hf => exact ⟨fun _ => hf, fun _ => rfl⟩
  | notFound hf =>
    rw [hf]
    exact ⟨fun h => absurd h (by decide), nofun⟩

/-- What there is to read: the text of a file, or without one that of the standard input. -/
inductive World.Gives (w : World) : Option FilePath → Except ReadFault String → Prop where
  | file {path : FilePath} {text : Except ReadFault String} (reads : w.tree.Reads w.cwd path text) :
    Gives w (some path) text
  | stdin {content : String} (h : w.stdin = content.toUTF8) : Gives w none (.ok content)
  | malformed (h : ∀ content : String, content.toUTF8 ≠ w.stdin) : Gives w none (.error .notUtf8)

theorem World.gives_iff {file : Option FilePath} {text : Except ReadFault String} :
    w.Gives file text ↔ w.content file = text := by
  cases file with
  | some path => exact ⟨fun | .file reads => FileTree.reads_iff.1 reads,
      fun h => .file (FileTree.reads_iff.2 h)⟩
  | none =>
    rw [World.content]
    constructor
    · rintro (_ | h | h)
      · rw [h, FileTree.decodeText_toUTF8]
      · exact FileTree.decodeText_of_ne h
    · rintro rfl
      obtain ⟨content, h⟩ | h := FileTree.toUTF8_cases w.stdin
      · rw [h, FileTree.decodeText_toUTF8]
        exact .stdin h
      · rw [FileTree.decodeText_of_ne h]
        exact .malformed h

/-- The configuration can be set up and the content read. -/
structure Ready (w : World) (i : Invocation) (s : Setup) (content : String) : Prop where
  setup : Setup.load w.tree w.cwd w.env i.config ⟨i.ignoreHtml⟩ = .ok s
  content : w.Gives i.command.file? (.ok content)

theorem run_of_setup (hi : w.invocation args = .ok i) (hs : w.setup i = .ok s) :
    w.run args = w.execute s i.command := by
  rw [World.run, hi]
  dsimp only
  rw [hs]

theorem run_of_ready (hi : w.invocation args = .ok i) (h : Ready w i s content) :
    (w.run args).code = 0 ∧ Prints s content i.command (w.run args).stdout := by
  rw [run_of_setup hi h.setup]
  exact execute_of_content (Setup.templated_of_load h.setup) (World.gives_iff.1 h.content)

theorem run_of_unreadable {fault : ReadFault} (hi : w.invocation args = .ok i)
    (h : w.Gives i.command.file? (.error fault)) :
    (w.run args).code = 1 ∧ (w.run args).stdout = "" := by
  cases hs : w.setup i with
  | error error =>
    rw [World.run, hi]
    dsimp only
    rw [hs]
    exact ⟨rfl, rfl⟩
  | ok s =>
    rw [run_of_setup hi hs]
    exact execute_of_unreadable (World.gives_iff.1 h)

theorem run_of_not_ready (hi : w.invocation args = .ok i)
    (h : ¬ ∃ s content, Ready w i s content) :
    (w.run args).code = 1 ∧ (w.run args).stdout = "" := by
  cases hc : w.content i.command.file? with
  | error fault => exact run_of_unreadable hi (World.gives_iff.2 hc)
  | ok content =>
    cases hs : w.setup i with
    | error error =>
      rw [World.run, hi]
      dsimp only
      rw [hs]
      exact ⟨rfl, rfl⟩
    | ok s => exact absurd ⟨s, content, hs, World.gives_iff.2 hc⟩ h

theorem stdout_of_stop {stop : Stop} (hi : w.invocation args = .error stop)
    (hcode : (w.run args).code ≠ 0) : (w.run args).stdout = "" := by
  rw [World.run, hi] at hcode ⊢
  cases stop with
  | version | help => exact absurd rfl hcode
  | usage => rfl

/-- Two calls, one to look for a tag and one to list all tags, that come to the same setup and the
same content, as they do with the same files and the same options. -/
inductive Paired (w w' : World) (args args' : List RawText) (tag : String) : Prop where
  | intro {i i' : Invocation} {file file' : Option FilePath}
    (hi : w.invocation args = .ok i) (has : i.command = .has tag file)
    (hi' : w'.invocation args' = .ok i') (tags : i'.command = .tags file')
    (setup : Setup.load w'.tree w'.cwd w'.env i'.config ⟨i'.ignoreHtml⟩ =
      Setup.load w.tree w.cwd w.env i.config ⟨i.ignoreHtml⟩)
    (content : ∀ text, w'.Gives file' text ↔ w.Gives file text) : Paired w w' args args' tag

/-- Paired calls agree, also where both fail. -/
theorem Paired.agree (h : Paired w w' args args' tag) :
    (w.run args).stdout = "true\n" ↔ tag ∈ printedLines (w'.run args').stdout := by
  obtain @⟨i, i', file, file', hi, has, hi', tags, setup, sameContent⟩ := h
  have hfile : i.command.file? = file := by rw [has, Command.file?]
  have hfile' : i'.command.file? = file' := by rw [tags, Command.file?]
  have ready (s : Setup) (content : String) : Ready w' i' s content ↔ Ready w i s content := by
    constructor
    · rintro ⟨hs, hc⟩
      rw [setup] at hs
      rw [hfile', sameContent, ← hfile] at hc
      exact ⟨hs, hc⟩
    · rintro ⟨hs, hc⟩
      rw [← setup] at hs
      rw [hfile, ← sameContent, ← hfile'] at hc
      exact ⟨hs, hc⟩
  by_cases hready : ∃ s content, Ready w i s content
  · obtain ⟨s, content, hready⟩ := hready
    have prints := (run_of_ready hi hready).2
    have prints' := (run_of_ready hi' ((ready s content).2 hready)).2
    rw [has] at prints
    rw [tags] at prints'
    exact prints.agree prints'
  · rw [(run_of_not_ready hi hready).2, (run_of_not_ready hi' (by simpa only [ready])).2]
    exact ⟨fun h => absurd h (by decide), nofun⟩

/-- A call that fails prints nothing, as where there is nothing to read. One that runs a command
succeeds if and only if there is a setup and the content can be read, and then it prints what the
engine answers. To look for a tag prints `true` if and only if to list all tags prints a line with
the tag. Every invocation is that of its arguments. -/
theorem World.run_answers (w : World) (args : List RawText) :
    ((w.run args).code ≠ 0 → (w.run args).stdout = "") ∧
    (∀ i, w.invocation args = .ok i →
      (∃! text, w.Gives i.command.file? text) ∧
      (∀ fault, w.Gives i.command.file? (.error fault) →
        (w.run args).code = 1 ∧ (w.run args).stdout = "") ∧
      ((w.run args).code = 0 ↔ ∃ s content, Ready w i s content) ∧
      ∀ s content, Ready w i s content → Prints s content i.command (w.run args).stdout) ∧
    (∀ w' args' tag, Paired w w' args args' tag →
      ((w.run args).stdout = "true\n" ↔ tag ∈ printedLines (w'.run args').stdout)) ∧
    ∀ i : Invocation, i.Writable → w.env.bytes? configVariable ≠ some [] →
      w.invocation i.arguments =
        .ok { i with config := i.config.or ((w.env.bytes? configVariable).map RawText.mk) } := by
  refine ⟨fun hcode => ?_, fun i hi => ⟨?_, fun fault => run_of_unreadable hi,
    ⟨fun hcode => ?_, ?_⟩, ?_⟩, fun _ _ _ => Paired.agree, fun i hw named => ?_⟩
  · cases hi : w.invocation args with
    | error stop => exact stdout_of_stop hi hcode
    | ok i =>
      by_cases hready : ∃ s content, Ready w i s content
      · obtain ⟨s, content, hready⟩ := hready
        exact absurd (run_of_ready hi hready).1 hcode
      · exact (run_of_not_ready hi hready).2
  · simp [World.gives_iff]
  · by_contra hready
    rw [(run_of_not_ready hi hready).1] at hcode
    cases hcode
  · rintro ⟨s, content, hready⟩
    exact (run_of_ready hi hready).1
  · intro s content hready
    exact (run_of_ready hi hready).2
  · refine ofArguments_arguments hw fun path hpath => ?_
    obtain ⟨bytes, hb, rfl⟩ := Option.map_eq_some_iff.1 hpath
    rintro rfl
    exact named hb

/-- What is in a file is answered, and without one the standard input. A tag within another is
listed on a line of its own, and it is found. A file that is not there, one that is not UTF-8 and a
directory print nothing. -/
theorem World.run_answers_files :
    let config := "tags.b.template = 'B'\ntags.i.template = 'I'"
    let w : World := ⟨FileTree.ofFiles [(["shortcodes.toml"], config.toUTF8),
      (["d", "post"], "é[b][i][/b]".toUTF8), (["d", "bytes"], ⟨#[0x5b, 0xff]⟩)] [],
      ["d"], ⟨[]⟩, "[i]".toUTF8⟩
    (w.run ["expand", "post"]).stdout = "éB" ∧ (w.run ["expand"]).stdout = "I" ∧
      (w.run ["tags", "/d/post"]).stdout = "b\ni\n" ∧
      (w.run ["has", "i", "../d/post"]).stdout = "true\n" ∧
      ∀ file ∈ ["gone", "bytes", "."], (w.run ["tags", RawText.ofString file]).code = 1 ∧
        (w.run ["tags", RawText.ofString file]).stdout = "" := by
  intro config w
  let c : Config := ⟨false, none, [("b", ⟨"B", [], false⟩), ("i", ⟨"I", [], false⟩)], none⟩
  let post := "é[b][i][/b]"
  have decoded : Config.decode config = .ok c := by
    dsimp only [config, c]
    cbv
  have source : Config.Source w.tree w.cwd none "/shortcodes.toml" (.ok config) := by
    have leads : w.tree.LeadsTo w.cwd (.ofString "/shortcodes.toml") ["shortcodes.toml"] :=
      FileTree.find_eq_ok_iff.1 (by rfl)
    have shown : (RawText.ofString "/shortcodes.toml").display = "/shortcodes.toml" := by
      decide +kernel
    exact shown ▸ .discovered (by rfl) leads (.text config)
  have answers : (Config.finish ⟨[]⟩ ⟨none⟩ "/shortcodes.toml" c).toOption.map (fun s =>
      ((s.engine.expand post).value, (s.engine.expand "[i]").value, (s.engine.tags post).value)) =
      some (some "éB", some "I", ["b", "i"]) := by
    decide +kernel
  obtain ⟨s, hs, answers⟩ := Option.map_eq_some_iff.1 answers
  obtain ⟨expanded, expanded', listed⟩ := by simpa only [Prod.mk.injEq] using answers
  have setup : Setup.load w.tree w.cwd w.env none ⟨none⟩ = .ok s := by
    rw [source.load_eq_finish rfl decoded]
    cases hf : Config.finish w.env ⟨none⟩ "/shortcodes.toml" c with
    | error error => cases (congrArg Except.toOption hf).symm.trans hs
    | ok s' => rw [Option.some.inj ((congrArg Except.toOption hf).symm.trans hs)]
  have prints (args : List RawText) (command : Command) {content : String}
      (hi : w.invocation args = .ok ⟨none, none, command⟩)
      (gives : w.Gives command.file? (.ok content)) :
      Prints s content command (w.run args).stdout :=
    ((World.run_answers w args).2.1 _ hi).2.2.2 s content ⟨setup, gives⟩
  have reads (path : FilePath) (found : w.tree.find w.cwd path = .ok ["d", "post"]) :
      w.Gives (some path) (.ok post) :=
    .file (.held (FileTree.find_eq_ok_iff.1 found) (.text post))
  have stdin : w.Gives none (.ok "[i]") := .stdin rfl
  have tagged : (w.run ["tags", "/d/post"]).stdout = "b\ni\n" := by
    cases prints ["tags", "/d/post"] (.tags (some "/d/post")) (by rfl) (reads _ (by rfl)) with
    | tags ho =>
      rw [listed] at ho
      exact String.toList_inj.1 ho
  refine ⟨?_, ?_, tagged, ?_, fun file hfile => ?_⟩
  · cases prints ["expand", "post"] (.expand (some "post")) (by rfl) (reads _ (by rfl)) with
    | expand ho => exact Option.some.inj (ho.symm.trans expanded)
  · cases prints ["expand"] (.expand none) (by rfl) stdin with
    | expand ho => exact Option.some.inj (ho.symm.trans expanded')
  · have paired : Paired w w ["has", "i", "../d/post"] ["tags", "/d/post"] "i" := by
      have has : w.invocation ["has", "i", "../d/post"] =
          .ok ⟨none, none, .has "i" (some "../d/post")⟩ := by rfl
      have tags : w.invocation ["tags", "/d/post"] = .ok ⟨none, none, .tags (some "/d/post")⟩ := by
        rfl
      refine ⟨has, rfl, tags, rfl, rfl, fun text => ?_⟩
      rw [World.gives_iff, World.gives_iff]
      exact Iff.rfl
    refine ((World.run_answers w _).2.2.1 w _ "i" paired).2 ?_
    rw [tagged]
    decide +kernel
  · have fails (path : FilePath) (fault : ReadFault)
        (hi : w.invocation ["tags", path] = .ok ⟨none, none, .tags (some path)⟩)
        (read : w.tree.read w.cwd path = .error fault) :=
      ((World.run_answers w _).2.1 _ hi).2.1 fault (.file (FileTree.reads_iff.2 read))
    fin_cases hfile
    · exact fails "gone" .notFound (by rfl) (by rfl)
    · exact fails "bytes" .notUtf8 (by rfl) (by rfl)
    · exact fails "." .isDirectory (by rfl) (by rfl)

end CommandLine

end Shortcode
