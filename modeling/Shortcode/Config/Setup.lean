import Shortcode.Config.Load
import Shortcode.Engine.Placeholder

namespace Shortcode

namespace Config

/-- Attribute names are matched in lower case, so the keys of defaults are written so. -/
def TagConfig.toTemplate (t : TagConfig) : Template :=
  ⟨t.template, .ofList (t.defaults.map fun d => (.name (d.1.map Char.toLower), d.2)),
    t.expandContent⟩

/-- An engine with a handler for each tag, unless a name cannot be registered. -/
def engine (c : Config) : Except InvalidName Engine :=
  c.tags.foldlM (fun e t => (e.register t.1 (TagConfig.toTemplate t.2).handler).value)
    (Engine.empty c.ignoreHtml)

end Config

/-- Why no engine could be set up. -/
inductive SetupError where
  | config (error : ConfigError)
  | name (error : InvalidName)
  deriving DecidableEq, Repr

def SetupError.message : SetupError → String
  | .config error => error.message
  | .name error => error.message

/-- A configuration and its engine. -/
structure Setup where
  config : Config
  engine : Engine

def Setup.load (tree : FileTree) (cwd : List RawText) (env : Environment)
    (path : Option FilePath) (settings : Config.Settings) : Except SetupError Setup := do
  let config ← ((Config.load tree cwd env path).mapError .config)
  let config := config.override settings
  let engine ← config.engine.mapError .name
  return ⟨config, engine⟩

end Shortcode
