import Shortcode.CommandLine.Arguments
import Shortcode.Config.Setup

namespace Shortcode.CommandLine

/-- All that a call depends on beside its arguments. -/
structure World where
  tree : FileTree
  cwd : List RawText
  env : Environment
  stdin : ByteArray

structure Outcome where
  code : Nat
  stdout : String
  stderr : String
  deriving DecidableEq, Repr

def versionText : String := "shortcode 0.1.0\n"

def usageText : String :=
  "Usage: shortcode [OPTIONS] <COMMAND>\n\n" ++
  "Commands:\n" ++
  "  expand [FILE]      Expand shortcodes and print the result\n" ++
  "  strip [FILE]       Remove shortcodes and print the result\n" ++
  "  tags [FILE]        List shortcodes used in the content, one per line\n" ++
  "  has <TAG> [FILE]   Print whether the content uses a shortcode\n\n" ++
  "Options:\n" ++
  "  -c, --config <CONFIG>        Path to the configuration file\n" ++
  "  -v, --verbose                Enable verbose output\n" ++
  "      --ignore-html <BOOL>     Mask brackets inside HTML tags and comments\n" ++
  "      --no-ignore-html         Do not mask HTML\n" ++
  "  -t, --tag <NAME>             Only strip this tag (strip)\n" ++
  "  -h, --help                   Print help\n" ++
  "  -V, --version                Print version\n"

def lines (texts : List String) : String := String.join (texts.map (· ++ "\n"))

/-- A call that ends with an error, behind the given warnings. -/
def failure (warnings : List String) (message : String) : Outcome :=
  ⟨1, "", lines (warnings ++ ["Error: " ++ message])⟩

/-- Applies `f` to the content, or fails if it cannot be read. Warnings come first. -/
def answer (warnings : List String) (content : Except ReadFault String)
    (f : String → Except String String) : Outcome :=
  match content with
  | .error fault => failure warnings fault.message
  | .ok content =>
    match f content with
    | .error message => failure warnings message
    | .ok output => ⟨0, output, lines warnings⟩

/-- The content of a file, or the standard input. -/
def World.content (w : World) : Option FilePath → Except ReadFault String
  | some path => w.tree.read w.cwd path
  | none => decodeText w.stdin

/-- The tags to strip: those given, else those of the configuration, else all. -/
def requestedTags (given : List String) (config : Config) : Option (List String) :=
  if given.isEmpty then config.stripTags else some given

def undefinedTag (tag : String) : String :=
  "Tag '" ++ tag ++ "' is not defined in the configuration"

/-- Carries out a command. -/
def World.execute (w : World) (s : Setup) : Command → Outcome
  | .expand file =>
    answer [] (w.content file) fun content =>
      match (s.engine.expand content).value with
      | some output => .ok output
      | none => .error "shortcodes are nested too deeply"
  | .strip file tags =>
    let requested := requestedTags tags s.config
    let unknown := (requested.getD []).filter (!s.engine.handlers.contains ·)
    answer (unknown.map (undefinedTag · ++ ", ignoring")) (w.content file) fun content =>
      .ok (s.engine.strip content requested).value
  | .tags file =>
    answer [] (w.content file) fun content => .ok (lines (s.engine.tags content).value)
  | .has tag file =>
    answer (if s.engine.handlers.contains tag then [] else [undefinedTag tag]) (w.content file)
      fun content => .ok (lines [if (s.engine.hasTag content tag).value then "true" else "false"])

/-- The variable that gives the path of the configuration. -/
def configVariable : String := "SHORTCODE_CONFIG"

/-- What the arguments and the environment ask for. -/
def World.invocation (w : World) (args : List RawText) : Except Stop Invocation :=
  Invocation.ofArguments ((w.env.bytes? configVariable).map RawText.mk) args

def World.setup (w : World) (i : Invocation) : Except SetupError Setup :=
  Setup.load w.tree w.cwd w.env i.config ⟨i.ignoreHtml⟩

/-- A call of the program with the given arguments. -/
def World.run (w : World) (args : List RawText) : Outcome :=
  match w.invocation args with
  | .error .version => ⟨0, versionText, ""⟩
  | .error .help => ⟨0, usageText, ""⟩
  | .error .usage => ⟨2, "", usageText⟩
  | .ok i =>
    match w.setup i with
    | .error error => failure [] error.message
    | .ok setup => w.execute setup i.command

/-- The places whose files a call may look at. -/
def Invocation.places (cwd : List RawText) (i : Invocation) : List (List RawText) :=
  let configs := match i.config with
    | some path => [path]
    | none => (FileTree.ancestors cwd).map Config.candidate
  (configs ++ i.command.file?.toList).flatMap (FileTree.places cwd)

end Shortcode.CommandLine
