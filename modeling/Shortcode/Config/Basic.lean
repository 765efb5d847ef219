import Shortcode.Config.Environment
import Shortcode.Config.Files

namespace Shortcode

/-- A template shortcode, with its defaults in the order of their keys. -/
structure TagConfig where
  template : String
  defaults : List (String × String)
  expandContent : Bool
  deriving DecidableEq, Repr

/-- The tags are in the order of their names. -/
structure Config where
  ignoreHtml : Bool
  stripTags : Option (List String)
  tags : List (String × TagConfig)
  path : Option String
  deriving DecidableEq, Repr

/-- A place in a configuration file. -/
inductive Field where
  | tagName
  | template (tag : String)
  | default (tag key : String)
  | stripTag (index : Nat)
  deriving DecidableEq, Repr

def Field.text : Field → String
  | .tagName => "tags.<name>"
  | .template tag => "tags." ++ tag ++ ".template"
  | .default tag key => "tags." ++ tag ++ ".defaults." ++ key
  | .stripTag index => "strip.tags[" ++ toString index ++ "]"

/-- Why a configuration could not be loaded. -/
inductive ConfigError where
  | notFound (path : String)
  | unreadable (fault : ReadFault)
  | malformed
  | empty (field : Field)
  | missing (field : Field) (reference : Reference.Missing)
  deriving DecidableEq, Repr

def ConfigError.message : ConfigError → String
  | .notFound path => "Configuration file not found: " ++ path
  | .unreadable fault => "I/O error: " ++ fault.message
  | .malformed => "TOML parse error"
  | .empty field => "Configuration error: " ++ field.text ++ " cannot be empty"
  | .missing field reference =>
    "Environment variable error in " ++ field.text ++ ": $\x7b" ++ reference.name ++ "\x7d " ++
      if reference.notUtf8 then "is not valid UTF-8" else "not set"

namespace Config

def default : Config := ⟨false, none, [], none⟩

/-- Settings from outside of a file. -/
structure Settings where
  ignoreHtml : Option Bool
  deriving DecidableEq, Repr

def override (c : Config) (s : Settings) : Config :=
  { c with ignoreHtml := s.ignoreHtml.getD c.ignoreHtml }

end Config
end Shortcode
