import Shortcode.Engine.Bindings
import Shortcode.Engine.Rendering
import Shortcode.Hook.Points
import Shortcode.Tag.Nesting

namespace Shortcode

/-- What a handler is given beside the tag's attributes and enclosed text: the name that it was
called for and the engine's services. Expansion is asked for by `Rendering.ask`. -/
structure Context where
  tag : String
  merge : Attributes → Written → Attributes
  strip : String → Option (List String) → Rendering String
  hasTag : String → String → Rendering Bool
  tags : String → Rendering (List String)

/-- Makes the text that stands in place of a tag. The enclosed text is `none` for a tag that has no
closing tag. -/
abbrev Handler := Context → Written → Option String → Rendering String

structure Engine where
  handlers : Bindings Handler
  hooks : HookPoints
  ignoreHtml : Bool

namespace Engine

def empty (ignoreHtml : Bool) : Engine := ⟨.empty, .empty, ignoreHtml⟩

def register (e : Engine) (name : String) (handler : Handler) :
    Logged (Except InvalidName Engine) :=
  match e.handlers.register name handler with
  | .error error => ⟨.error error, [.rejected error]⟩
  | .ok handlers =>
    ⟨.ok { e with handlers }, if e.handlers.contains name then [.replaced name] else []⟩

def unregister (e : Engine) (name : String) : Engine :=
  { e with handlers := e.handlers.unregister name }

def scanner (e : Engine) : Scanner := ⟨e.handlers.names, e.ignoreHtml⟩

def warnings (unterminated : List (String × Nat)) : List Event :=
  unterminated.map fun u => .unterminated u.1 u.2

/-- The written attributes laid over the defaults, then through the callbacks of the tag. -/
def merge (e : Engine) (tag : Option String) (defaults : Attributes) (written : Written) :
    Attributes :=
  let merged := defaults.override written
  match tag with
  | some tag => e.hooks.merge tag defaults written merged
  | none => merged

/-- The names that `strip` takes out: the requested ones, or all, as the callbacks change them and
as far as they are registered. -/
def strippedNames (e : Engine) (content : String) (allowed : Option (List String)) : List String :=
  Tag.longestFirst
    ((e.hooks.namesToStrip content (allowed.getD e.handlers.names)).filter e.handlers.contains)

/-- The text without the tags and what they enclose. -/
def strip (e : Engine) (content : String) (allowed : Option (List String)) : Logged String :=
  let scan := Scanner.scan ⟨e.strippedNames content allowed, e.ignoreHtml⟩ content
  ⟨Text.splice content (scan.found.map (·.edit "")), warnings scan.unterminated⟩

/-- Whether a registered tag occurs, at any depth. -/
def hasTag (e : Engine) (content tag : String) : Logged Bool :=
  if e.handlers.contains tag then
    let probe := e.scanner.probe tag content
    ⟨probe.hit, warnings probe.unterminated⟩
  else ⟨false, []⟩

/-- The registered tags that occur, at any depth, in the order in which they first do. -/
def tags (e : Engine) (content : String) : Logged (List String) :=
  ⟨((e.scanner.nested content).map (·.name)).eraseDups,
    warnings (e.scanner.nestedUnterminated content)⟩

def context (e : Engine) (tag : String) : Context where
  tag
  merge := e.merge (some tag)
  strip := fun content allowed => .ofLogged (e.strip content allowed)
  hasTag := fun content tag => .ofLogged (e.hasTag content tag)
  tags := fun content => .ofLogged (e.tags content)

section

variable {m : Type → Type} [Monad m] [MonadLiftT Rendering m]

/-- `render`, with `note` run for each call. -/
def renderM (note : Call → m Unit) (e : Engine) (o : Occurrence) : m String := do
  match ← e.hooks.overrideM note o, e.handlers.get? o.tag.name with
  | some output, _ =>
    liftM (Rendering.report (.overridden o.tag.name) (.done ()))
    e.hooks.finishM note o output
  | none, some handler =>
    note (.handler o)
    let output ← liftM (handler (e.context o.tag.name) o.written o.tag.inner)
    e.hooks.finishM note o output
  | none, none => return o.tag.tagText

/-- `edit`, with `note` run for each call. -/
def editM (note : Call → m Unit) (e : Engine) (o : Occurrence) : m Text.Edit :=
  if o.tag.escaped then pure (o.tag.edit "") else o.tag.edit <$> e.renderM note o

/-- `expansion`, with `note` run for each call. -/
def expansionM (note : Call → m Unit) (e : Engine) (content : String) : m String := do
  let scan := e.scanner.scan content
  liftM (Rendering.ofLogged ⟨(), warnings scan.unterminated⟩)
  Text.splice content <$> (occurrences content scan.found).mapM (e.editM note)

end

/-- The text in place of one tag. If the callbacks before rendering give a text, the handler is not
called. -/
def render (e : Engine) (o : Occurrence) : Rendering String := e.renderM (fun _ => pure ()) o

/-- An escaped tag is not rendered: it only loses its escape brackets. -/
def edit (e : Engine) (o : Occurrence) : Rendering Text.Edit := e.editM (fun _ => pure ()) o

/-- One pass over a text. -/
def expansion (e : Engine) (content : String) : Rendering String :=
  e.expansionM (fun _ => pure ()) content

theorem render_eq (e : Engine) (o : Occurrence) :
    e.render o = match e.hooks.override o, e.handlers.get? o.tag.name with
      | some output, _ => .report (.overridden o.tag.name) (.done (e.hooks.finish o output))
      | none, some handler =>
        e.hooks.finish o <$> handler (e.context o.tag.name) o.written o.tag.inner
      | none, none => .done o.tag.tagText := by
  have override : (e.hooks.overrideM (fun _ => pure ()) o : Rendering (Option String)) =
      pure (e.hooks.override o) := Chain.foldM_silent ..
  have finish (output : String) : (e.hooks.finishM (fun _ => pure ()) o output : Rendering String) =
      pure (e.hooks.finish o output) := Chain.foldM_silent ..
  rw [render, renderM, override, pure_bind]
  cases e.hooks.override o with
  | some output => exact congrArg (Rendering.report _) (finish output)
  | none =>
    cases e.handlers.get? o.tag.name with
    | none => rfl
    | some handler =>
      dsimp only
      simp only [finish, pure_bind, bind_pure_comp]
      rfl

theorem edit_eq (e : Engine) (o : Occurrence) :
    e.edit o = if o.tag.escaped then pure (o.tag.edit "") else o.tag.edit <$> e.render o := rfl

theorem expansion_eq (e : Engine) (content : String) :
    e.expansion content = (do
      Rendering.ofLogged ⟨(), warnings (e.scanner.scan content).unterminated⟩
      Text.splice content <$> (occurrences content (e.scanner.scan content).found).mapM e.edit) :=
  rfl

/-- Runs a pass where the requests of handlers may be nested to a given depth. -/
def expandWithin (e : Engine) : Nat → String → Logged (Option String)
  | 0, _ => ⟨none, []⟩
  | depth + 1, content => (e.expansion content).run (e.expandWithin depth)

/-- Handlers that only ask for the text they enclose stay within the length of the content. The
rest is room for those that ask for texts of their own making. -/
def nestingLimit (content : String) : Nat := content.length + 1000000

/-- The text with its registered tags expanded; `none` only if handlers nest their requests deeper
than `nestingLimit`. -/
def expand (e : Engine) (content : String) : Logged (Option String) :=
  e.expandWithin (nestingLimit content) content

/-- Runs work of a handler outside of a pass. -/
def perform {α : Type} (e : Engine) (work : Rendering α) : Logged (Option α) := work.run e.expand

end Engine
end Shortcode
