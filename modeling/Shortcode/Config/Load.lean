import Shortcode.Config.Decode

namespace Shortcode.Config

def expandDefault (env : Environment) (tag : String) (d : String × String) :
    Except ConfigError (String × String) :=
  match env.expand d.2 with
  | .ok value => .ok (d.1, value)
  | .error reference => .error (.missing (.default tag d.1) reference)

def expandTag (env : Environment) (t : String × TagConfig) :
    Except ConfigError (String × TagConfig) := do
  let defaults ← t.2.defaults.mapM (expandDefault env t.1)
  return (t.1, { t.2 with defaults })

/-- Replaces references in the default values, tag by tag. -/
def expandDefaults (env : Environment) (c : Config) : Except ConfigError Config := do
  let tags ← c.tags.mapM (expandTag env)
  return { c with tags }

/-- The places that are to be checked for empty texts, in order, with what stands there. -/
def required (c : Config) : List (Field × String) :=
  (c.tags.flatMap fun t => [(.tagName, t.1), (.template t.1, t.2.template)]) ++
    ((c.stripTags.getD []).zipIdx.map fun s => (.stripTag s.2, s.1))

def validate (c : Config) : Except ConfigError Unit :=
  match c.required.find? (·.2.isEmpty) with
  | some (field, _) => .error (.empty field)
  | none => .ok ()

/-- The configuration in a file that holds `text`, or could not be read. -/
def ofText (env : Environment) (path : String) (text : Except ReadFault String) :
    Except ConfigError Config := do
  let text ← text.mapError .unreadable
  let config ← (← decode text).expandDefaults env
  config.validate
  return { config with path := some path }

def fileName : RawText := "shortcodes.toml"

/-- The path of the file in a directory. -/
def candidate (directory : List RawText) : FilePath := .ofPlace (directory ++ [fileName])

/-- The path of the nearest configuration file, from the working directory up to the root. Without a
working directory there is none. -/
def discover (tree : FileTree) (cwd : List RawText) : Option FilePath :=
  match tree cwd with
  | some .directory => ((FileTree.ancestors cwd).map candidate).find? (tree.exists? cwd)
  | _ => none

def loadFile (tree : FileTree) (cwd : List RawText) (env : Environment) (path : FilePath) :
    Except ConfigError Config :=
  ofText env path.display (tree.read cwd path)

/-- Loads the file with the given path, or the nearest one if no path is given. -/
def load (tree : FileTree) (cwd : List RawText) (env : Environment) :
    Option FilePath → Except ConfigError Config
  | some path =>
    if tree.exists? cwd path then loadFile tree cwd env path else .error (.notFound path.display)
  | none =>
    match discover tree cwd with
    | some path => loadFile tree cwd env path
    | none => .ok default

end Shortcode.Config
