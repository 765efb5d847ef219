import Shortcode.CommandLine.Run
import Shortcode.Proofs.Config.Path

namespace Shortcode.CommandLine

variable {p : Part} {g : Given} {args : List RawText} {file : Option FilePath}

/-- A switch with its value in one argument. -/
def valued (name : String) (value : RawText) : RawText :=
  ⟨dash :: dash :: (RawText.ofString name).bytes ++ equals :: value.bytes⟩

/-- Arguments that ask for a command. Behind `--` any operand can stand. -/
def Command.arguments : Command → List RawText
  | .expand file => RawText.ofString "expand" :: RawText.ofString "--" :: file.toList
  | .strip file given => RawText.ofString "strip" ::
      (given.map fun tag : String => valued "tag" tag) ++ RawText.ofString "--" :: file.toList
  | .tags file => RawText.ofString "tags" :: RawText.ofString "--" :: file.toList
  | .has tag file =>
    RawText.ofString "has" :: RawText.ofString "--" :: RawText.ofString tag :: file.toList

/-- Arguments that ask for an invocation. -/
def Invocation.arguments (i : Invocation) : List RawText :=
  i.config.toList.map (valued "config") ++
    i.ignoreHtml.toList.map (fun b => valued "ignore-html" (if b then "true" else "false")) ++
    i.command.arguments

/-- No path is empty, which is the one thing that cannot be asked for. -/
structure Invocation.Writable (i : Invocation) : Prop where
  config : ∀ path ∈ i.config, path.bytes ≠ []
  file : ∀ path ∈ i.command.file?, path.bytes ≠ []

/-- What stands before the first `=` is the name of a switch, whatever its value is. -/
theorem read_valued {name : String} {s : Switch} (value : RawText)
    (free : equals ∉ (RawText.ofString name).bytes)
    (hs : Switch.ofLong? p name = some s) (takes : s.takesValue = true) :
    read p none g (valued name value :: args) =
      (g.value value s).bind (read p none · args) := by
  have long : Form.of (valued name value) =
      .long ((RawText.ofString name).bytes ++ equals :: value.bytes) := by
    simp [Form.of, valued]
  have before : ((RawText.ofString name).bytes ++ equals :: value.bytes).takeWhile (· ≠ equals) =
      (RawText.ofString name).bytes := by
    rw [List.takeWhile_append_of_pos fun b hb => decide_eq_true (ne_of_mem_of_not_mem hb free)]
    simp
  have behind : ((RawText.ofString name).bytes ++ equals :: value.bytes).dropWhile (· ≠ equals) =
      equals :: value.bytes := by
    rw [List.dropWhile_append_of_pos fun b hb => decide_eq_true (ne_of_mem_of_not_mem hb free)]
    simp
  have named : (RawText.mk (RawText.ofString name).bytes).text? = some name :=
    RawText.text?_ofString name
  have given : g.long p ((RawText.ofString name).bytes ++ equals :: value.bytes) =
      (g.value value s).map (·, none) := by
    rw [Given.long, before, behind, named, Option.bind_some, hs]
    exact if_pos takes
  rw [read.eq_def]
  dsimp only
  rw [long]
  dsimp only
  rw [given]
  cases g.value value s <;> rfl

theorem read_escape :
    read p none g (RawText.ofString "--" :: args) =
      (args.foldlM (Given.operand · p ·) g).map (·, none) := by
  have escape : Form.of (RawText.ofString "--") = .escape := by decide
  rw [read.eq_def]
  dsimp only
  rw [escape]
  dsimp only
  cases args.foldlM (Given.operand · p ·) g <;> rfl

/-- Behind the name of a command a part of its own begins. -/
theorem read_name {name : String} {next : Part} (plain : Form.of (.ofString name) = .plain)
    (hn : Part.ofName? name = some next) :
    read .start none g (.ofString name :: args) = .ok (g, some (next, args)) := by
  rw [read.eq_def]
  dsimp only
  rw [plain]
  dsimp only
  rw [RawText.text?_ofString, Option.bind_some, hn]
  rfl

/-- Tags are kept in the order in which they are given. -/
theorem read_tags (tags : List String) :
    read .strip none g (tags.map (fun tag : String => valued "tag" tag) ++ args) =
      read .strip none { g with tags := g.tags ++ tags } args := by
  induction tags generalizing g with
  | nil => simp
  | cons tag tags ih =>
    have value : g.value tag .tag = .ok { g with tags := g.tags ++ [tag] } := by
      simp [Given.value, RawText.text?_ofString]
    rw [List.map_cons, List.cons_append, read_valued tag (by decide) rfl rfl, value]
    change read .strip none { g with tags := g.tags ++ [tag] } _ = _
    rw [ih, List.append_assoc, List.singleton_append]

/-- The last operand of a command is its file. -/
theorem read_file (g : Given) (room : g.operands.length < p.operands)
    (other : p ≠ .has ∨ g.operands ≠ []) (nonempty : ∀ path ∈ file, path.bytes ≠ []) :
    file.toList.foldlM (Given.operand · p ·) g =
      .ok { g with operands := g.operands ++ file.toList } := by
  cases file with
  | none => simp [pure, Except.pure]
  | some path =>
    have given : path.isEmpty = false := by simpa [RawText.isEmpty] using nonempty path rfl
    have file : ¬ (p = .has ∧ g.operands = []) := by tauto
    have operand : g.operand p path = .ok { g with operands := g.operands ++ [path] } := by
      simp [Given.operand, Nat.not_le.2 room, file, given]
    simp [operand, bind, Except.bind, pure, Except.pure]

/-- The part of the arguments that belong to a command. -/
def Command.part : Command → Part
  | .expand _ => .expand
  | .strip _ _ => .strip
  | .tags _ => .tags
  | .has _ _ => .has

/-- What is given behind the name of a command. -/
def Command.given : Command → Given
  | .expand file => { Given.empty with operands := file.toList }
  | .strip file given => { Given.empty with tags := given, operands := file.toList }
  | .tags file => { Given.empty with operands := file.toList }
  | .has tag file => { Given.empty with operands := RawText.ofString tag :: file.toList }

theorem command?_given (c : Command) : c.given.command? c.part = some c := by
  cases c with
  | expand file | strip file given | tags file => cases file <;> rfl
  | has tag file =>
    have tagged : (RawText.ofString tag).text? = some tag := RawText.text?_ofString tag
    cases file <;> simp [Command.part, Command.given, Given.command?, tagged]

theorem read_command {c : Command} (nonempty : ∀ path ∈ c.file?, path.bytes ≠ []) :
    read c.part none .empty c.arguments.tail = .ok (c.given, none) := by
  cases c with
  | expand file =>
    have operands := read_file (p := .expand) .empty Nat.zero_lt_one (.inl nofun) nonempty
    exact read_escape.trans (congrArg (Except.map (·, none)) operands)
  | strip file given =>
    have operands := read_file (p := .strip) { Given.empty with tags := given } Nat.zero_lt_one
      (.inl nofun) nonempty
    exact (read_tags given).trans (read_escape.trans (congrArg (Except.map (·, none)) operands))
  | tags file =>
    have operands := read_file (p := .tags) .empty Nat.zero_lt_one (.inl nofun) nonempty
    exact read_escape.trans (congrArg (Except.map (·, none)) operands)
  | has tag file =>
    have operand : Given.empty.operand .has (RawText.ofString tag) =
        .ok { Given.empty with operands := [RawText.ofString tag] } := by
      simp [Given.operand, Given.empty, Part.operands, RawText.text?_ofString]
    have operands := read_file (p := .has) { Given.empty with operands := [RawText.ofString tag] }
      Nat.one_lt_two (.inr (List.cons_ne_nil _ _)) nonempty
    change read .has none .empty (RawText.ofString "--" :: RawText.ofString tag :: file.toList) = _
    rw [read_escape, List.foldlM_cons, operand]
    exact congrArg (Except.map (·, none)) operands

theorem arguments_eq_cons (c : Command) : ∃ name : String, Part.ofName? name = some c.part ∧
    Form.of (.ofString name) = .plain ∧ c.arguments = .ofString name :: c.arguments.tail := by
  cases c with
  | expand file => exact ⟨"expand", rfl, by decide, rfl⟩
  | strip file given => exact ⟨"strip", rfl, by decide, rfl⟩
  | tags file => exact ⟨"tags", rfl, by decide, rfl⟩
  | has tag file => exact ⟨"has", rfl, by decide, rfl⟩

/-- The switches of an invocation are read before the name of its command. -/
theorem read_arguments {i : Invocation} (h : i.Writable) :
    read .start none .empty i.arguments =
      .ok ({ Given.empty with config := i.config, ignoreHtml := i.ignoreHtml },
        some (i.command.part, i.command.arguments.tail)) := by
  have command (g : Given) : read .start none g i.command.arguments =
      .ok (g, some (i.command.part, i.command.arguments.tail)) := by
    obtain ⟨name, named, plain, split⟩ := arguments_eq_cons i.command
    rw [split]
    exact read_name plain named
  have flag (g : Given) (free : g.ignoreHtml = none) :
      read .start none g (i.ignoreHtml.toList.map
        (fun b => valued "ignore-html" (if b then "true" else "false")) ++ i.command.arguments) =
      .ok ({ g with ignoreHtml := i.ignoreHtml },
        some (i.command.part, i.command.arguments.tail)) := by
    cases hb : i.ignoreHtml with
    | none =>
      have same : { g with ignoreHtml := none } = g := by rw [← free]
      rw [same]
      exact command g
    | some b =>
      have value : g.value (if b then "true" else "false") .ignoreHtml =
          .ok { g with ignoreHtml := some b } := by
        cases b <;> simp [Given.value, free, FileTree.ne_of_string_ne]
      change read .start none g (valued "ignore-html" (if b then "true" else "false") :: _) = _
      rw [read_valued _ (by decide) rfl rfl, value]
      exact command _
  rw [Invocation.arguments, List.append_assoc]
  cases hc : i.config with
  | none => exact flag .empty rfl
  | some path =>
    have given : path.isEmpty = false := by simpa [RawText.isEmpty] using h.config path hc
    have value : Given.empty.value path .config = .ok { Given.empty with config := some path } := by
      simp [Given.value, Given.empty, given]
    change read .start none .empty (valued "config" path :: _) = _
    rw [read_valued _ (by decide) rfl rfl, value]
    exact flag _ rfl

/-- Every invocation can be asked for. A configuration that is not given is that of the environment,
if it names one. -/
theorem ofArguments_arguments {i : Invocation} (h : i.Writable) {config : Option FilePath}
    (named : ∀ path ∈ config, path.bytes ≠ []) :
    Invocation.ofArguments config i.arguments = .ok { i with config := i.config.or config } := by
  have nonempty : config.any (·.isEmpty) = false := by
    cases config with
    | none => rfl
    | some path => simpa [RawText.isEmpty] using named path rfl
  obtain ⟨path, flag, opposite⟩ : i.command.given.config = none ∧
      i.command.given.ignoreHtml = none ∧ i.command.given.noIgnoreHtml = false := by
    cases i.command <;> exact ⟨rfl, rfl, rfl⟩
  have before := read_arguments h
  have behind := read_command h.file
  simp only [Given.empty] at before behind
  simp [Invocation.ofArguments, before, behind, bind, Except.bind, pure, Except.pure,
    command?_given, Given.isConsistent, Given.empty, path, flag, opposite, nonempty]

end Shortcode.CommandLine
