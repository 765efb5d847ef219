import Shortcode.Attribute.Written
import Shortcode.Hook.Chain
import Shortcode.Tag.Match

namespace Shortcode

/-- A tag that is being rendered, as a callback sees it. The span holds the UTF-8 offsets of the
match. -/
structure Occurrence where
  tag : Match
  written : Written
  byteSpan : Nat × Nat

/-- The tags that were found in a text, as callbacks see them. -/
def occurrences (content : String) (found : List Match) : List Occurrence :=
  let offsets := Text.Offsets.ofText content
  found.map fun m => ⟨m, .parse m.attrText, m.byteSpan offsets⟩

/-- A call that is made for a tag: of a callback before or after rendering, by its place in the
chain, or of the tag's handler. -/
inductive Call where
  | before (index : Nat) (tag : Occurrence)
  | handler (tag : Occurrence)
  | after (index : Nat) (tag : Occurrence)

abbrev PreRender := Option String → Occurrence → Option String
abbrev PostRender := String → Occurrence → String
abbrev MergeHook := Attributes → Attributes → Written → Attributes
abbrev StripHook := List String → String → List String

/-- The chain of attribute callbacks is chosen by the tag's name. -/
structure HookPoints where
  preRender : Chain PreRender
  postRender : Chain PostRender
  merging : String → Chain MergeHook
  stripping : Chain StripHook

namespace HookPoints

def empty : HookPoints := ⟨.empty, .empty, fun _ => .empty, .empty⟩

def onPreRender (h : HookPoints) (priority : Int) (f : PreRender) : HookPoints :=
  { h with preRender := h.preRender.add priority f }

def onPostRender (h : HookPoints) (priority : Int) (f : PostRender) : HookPoints :=
  { h with postRender := h.postRender.add priority f }

def onMerge (h : HookPoints) (tag : String) (priority : Int) (f : MergeHook) : HookPoints :=
  { h with merging := fun name =>
      if name = tag then (h.merging tag).add priority f else h.merging name }

def onStrip (h : HookPoints) (priority : Int) (f : StripHook) : HookPoints :=
  { h with stripping := h.stripping.add priority f }

section

variable {m : Type → Type} [Monad m]

/-- `override`, with `note` run for each call. -/
def overrideM (note : Call → m Unit) (h : HookPoints) (o : Occurrence) : m (Option String) :=
  h.preRender.foldM (fun index => note (.before index o)) (fun f current => f current o) none

/-- `finish`, with `note` run for each call. -/
def finishM (note : Call → m Unit) (h : HookPoints) (o : Occurrence) (output : String) :
    m String :=
  h.postRender.foldM (fun index => note (.after index o)) (fun f current => f current o) output

end

/-- Text to take instead of the handler's, if the chain ends in one. -/
def override (h : HookPoints) (o : Occurrence) : Option String :=
  Id.run (h.overrideM (fun _ => pure ()) o)

/-- The text of a tag behind the callbacks that run after rendering. -/
def finish (h : HookPoints) (o : Occurrence) (output : String) : String :=
  Id.run (h.finishM (fun _ => pure ()) o output)

/-- Merged attributes behind the callbacks of a tag. -/
def merge (h : HookPoints) (tag : String) (defaults : Attributes) (written : Written)
    (merged : Attributes) : Attributes :=
  (h.merging tag).fold (fun f current => f current defaults written) merged

/-- Names to strip behind the callbacks that may change them. -/
def namesToStrip (h : HookPoints) (content : String) (names : List String) : List String :=
  h.stripping.fold (fun f current => f current content) names

end HookPoints
end Shortcode
