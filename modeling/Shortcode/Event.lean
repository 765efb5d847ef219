import Shortcode.Tag.Name

namespace Shortcode

inductive Level where
  | warn | debug | trace
  deriving DecidableEq, Repr

def Level.text : Level → String
  | .warn => "WARN"
  | .debug => "DEBUG"
  | .trace => "TRACE"

inductive Event where
  | rejected (error : InvalidName)
  | replaced (name : String)
  | unterminated (name : String) (count : Nat)
  | overridden (tag : String)
  deriving DecidableEq, Repr

namespace Event

def level : Event → Level
  | .rejected _ => .warn
  | .replaced _ => .debug
  | .unterminated .. => .trace
  | .overridden _ => .trace

def message : Event → String
  | .rejected _ => "Rejected shortcode registration"
  | .replaced _ => "Replaced existing shortcode handler"
  | .unterminated .. => "Unterminated shortcode tags"
  | .overridden _ => "Pre-render hook replaced shortcode output"

def fields : Event → List (String × String)
  | .rejected error => [("name", error.name), ("error", error.message)]
  | .replaced name => [("name", name)]
  | .unterminated name count => [("name", name), ("count", toString count)]
  | .overridden tag => [("tag", tag)]

end Event

/-- A value with the events of the work that led to it, first event first. -/
structure Logged (α : Type) where
  value : α
  log : List Event

/-- Goes on with a result, if there is one. -/
def Logged.andThen {α β : Type} (x : Logged (Option α)) (f : α → Logged (Option β)) :
    Logged (Option β) :=
  match x.value with
  | some a => ⟨(f a).value, x.log ++ (f a).log⟩
  | none => ⟨none, x.log⟩

end Shortcode
