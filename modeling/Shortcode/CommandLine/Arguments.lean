import Shortcode.Config.Files

namespace Shortcode.CommandLine

inductive Command where
  | expand (file : Option FilePath)
  | strip (file : Option FilePath) (tags : List String)
  | tags (file : Option FilePath)
  | has (tag : String) (file : Option FilePath)
  deriving DecidableEq, Repr

/-- The file to read in place of the standard input. -/
def Command.file? : Command → Option FilePath
  | .expand file => file
  | .strip file _ => file
  | .tags file => file
  | .has _ file => file

/-- What the program was called for. -/
structure Invocation where
  config : Option FilePath
  ignoreHtml : Option Bool
  command : Command
  deriving DecidableEq, Repr

/-- Why there is nothing to run. -/
inductive Stop where
  | help
  | version
  | usage
  deriving DecidableEq, Repr

/-- The part of the command line that an argument stands in: before the name of a command, or behind
the name of one. -/
inductive Part where
  | start | expand | strip | tags | has
  deriving DecidableEq, Repr

/-- The part that the name of a command starts. -/
def Part.ofName? : String → Option Part
  | "expand" => some .expand
  | "strip" => some .strip
  | "tags" => some .tags
  | "has" => some .has
  | _ => none

/-- How many operands there can be. -/
def Part.operands : Part → Nat
  | .start => 0
  | .has => 2
  | _ => 1

inductive Switch where
  | config | ignoreHtml | tag | verbose | noIgnoreHtml | help | version
  deriving DecidableEq, Repr

def Switch.takesValue : Switch → Bool
  | .config | .ignoreHtml | .tag => true
  | _ => false

def Switch.ofLong? (part : Part) : String → Option Switch
  | "config" => some .config
  | "ignore-html" => some .ignoreHtml
  | "verbose" => some .verbose
  | "no-ignore-html" => some .noIgnoreHtml
  | "help" => some .help
  | "tag" => if part = .strip then some .tag else none
  | "version" => if part = .start then some .version else none
  | _ => none

def Switch.ofShort? (part : Part) : Char → Option Switch
  | 'c' => some .config
  | 'v' => some .verbose
  | 'h' => some .help
  | 't' => if part = .strip then some .tag else none
  | 'V' => if part = .start then some .version else none
  | _ => none

def dash : UInt8 := '-'.toUInt8

def equals : UInt8 := '='.toUInt8

/-- How an argument is written. -/
inductive Form where
  /-- no switch, and none behind it is one -/
  | escape
  /-- a switch behind two dashes, with a value if there is a `=` -/
  | long (switch : List UInt8)
  /-- switches of one letter behind a dash -/
  | short (switches : List UInt8)
  | plain
  deriving DecidableEq, Repr

def Form.of (arg : RawText) : Form :=
  match arg.bytes with
  | [] => .plain
  | first :: switches =>
    if first ≠ dash ∨ switches = [] then .plain
    else if switches.head? ≠ some dash then .short switches
    else if switches.tail = [] then .escape
    else .long switches.tail

/-- What was given in one part. -/
structure Given where
  config : Option FilePath
  ignoreHtml : Option Bool
  verbose : Bool
  noIgnoreHtml : Bool
  tags : List String
  operands : List RawText
  deriving DecidableEq, Repr

namespace Given

def empty : Given := ⟨none, none, false, false, [], []⟩

def flag (g : Given) : Switch → Except Stop Given
  | .verbose => if g.verbose then .error .usage else .ok { g with verbose := true }
  | .noIgnoreHtml =>
    if g.noIgnoreHtml then .error .usage else .ok { g with noIgnoreHtml := true }
  | .help => .error .help
  | .version => .error .version
  | _ => .error .usage

/-- A path is never empty. Only the tags can be given more than once. -/
def value (g : Given) (s : RawText) : Switch → Except Stop Given
  | .config =>
    if g.config.isSome || s.isEmpty then .error .usage else .ok { g with config := some s }
  | .ignoreHtml =>
    if g.ignoreHtml.isSome then .error .usage
    else if s = "true" then .ok { g with ignoreHtml := some true }
    else if s = "false" then .ok { g with ignoreHtml := some false }
    else .error .usage
  | .tag =>
    match s.text? with
    | some tag => .ok { g with tags := g.tags ++ [tag] }
    | none => .error .usage
  | _ => .error .usage

/-- The tag that `has` looks for is the only operand that can be empty, and the only one that has to
be UTF-8. -/
def operand (g : Given) (part : Part) (s : RawText) : Except Stop Given :=
  if part.operands ≤ g.operands.length then .error .usage
  else if part = .has ∧ g.operands = [] then
    if s.text?.isSome then .ok { g with operands := [s] } else .error .usage
  else if s.isEmpty then .error .usage
  else .ok { g with operands := g.operands ++ [s] }

/-- Switches behind one dash. What follows one that takes a value is its value. The result names a
switch that waits for its value. -/
def short (part : Part) (g : Given) : List UInt8 → Except Stop (Given × Option Switch)
  | [] => .ok (g, none)
  | b :: rest =>
    match Switch.ofShort? part (Char.ofNat b.toNat) with
    | none => .error .usage
    | some s =>
      if s.takesValue then
        if rest = [] then .ok (g, some s)
        else (g.value ⟨if rest.head? = some equals then rest.tail else rest⟩ s).map (·, none)
      else do (← g.flag s).short part rest

/-- A switch behind two dashes, with its value if there is a `=`. -/
def long (part : Part) (g : Given) (arg : List UInt8) : Except Stop (Given × Option Switch) :=
  match (RawText.mk (arg.takeWhile (· ≠ equals))).text?.bind (Switch.ofLong? part),
    arg.dropWhile (· ≠ equals) with
  | none, _ => .error .usage
  | some s, [] => if s.takesValue then .ok (g, some s) else (g.flag s).map (·, none)
  | some s, _ :: rest =>
    if s.takesValue then (g.value ⟨rest⟩ s).map (·, none) else .error .usage

end Given

/-- The help command takes the name of at most one command. -/
def helpFor : List RawText → Stop
  | [] => .help
  | [name] => if (name.text?.bind Part.ofName?).isSome || name = "help" then .help else .usage
  | _ => .usage

/-- A part of the command line, with the part that follows it and its arguments. `waiting` is the
switch that takes the next argument for its value. -/
def read (part : Part) (waiting : Option Switch) (g : Given) :
    List RawText → Except Stop (Given × Option (Part × List RawText))
  | [] => if waiting.isSome then .error .usage else .ok (g, none)
  | arg :: args =>
    match waiting, Form.of arg with
    | some s, .plain => do read part none (← g.value arg s) args
    | some _, _ => .error .usage
    | none, .escape => do return (← args.foldlM (·.operand part ·) g, none)
    | none, .long switch => do
      let (g, waiting) ← g.long part switch
      read part waiting g args
    | none, .short switches => do
      let (g, waiting) ← g.short part switches
      read part waiting g args
    | none, .plain =>
      if part = .start then
        match arg.text?.bind Part.ofName? with
        | some next => .ok (g, some (next, args))
        | none => .error (if arg = "help" then helpFor args else .usage)
      else do read part none (← g.operand part arg) args

/-- The command that a part's arguments ask for. -/
def Given.command? (g : Given) : Part → Option Command
  | .start => none
  | .expand => some (.expand g.operands.head?)
  | .strip => some (.strip g.operands.head? g.tags)
  | .tags => some (.tags g.operands.head?)
  | .has => do return .has (← (← g.operands.head?).text?) g.operands.tail.head?

/-- The switches `--ignore-html` and `--no-ignore-html` exclude each other within a part. -/
def Given.isConsistent (g : Given) : Bool := !(g.ignoreHtml.isSome && g.noIgnoreHtml)

/-- Reads the arguments behind the name of the program. `config` is the path that the environment
gives for the configuration. It holds for each part in which none is given, and a path that is given
has precedence over it; of two paths that are given the later counts. -/
def Invocation.ofArguments (config : Option FilePath) (args : List RawText) :
    Except Stop Invocation := do
  let (before, next) ← read .start none .empty args
  let some (part, rest) := next | .error .usage
  let (behind, _) ← read part none .empty rest
  let some command := behind.command? part | .error .usage
  let needed := if before.config.isNone || behind.config.isNone then config else none
  if !before.isConsistent || !behind.isConsistent || needed.any (·.isEmpty) then .error .usage
  return {
    command
    config := (behind.config.or before.config).or config
    ignoreHtml :=
      if before.noIgnoreHtml || behind.noIgnoreHtml then some false
      else behind.ignoreHtml.or before.ignoreHtml }

end Shortcode.CommandLine
