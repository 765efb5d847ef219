import Shortcode.Config.Basic
import Shortcode.Toml.Reader

namespace Shortcode.Config

open Toml (Value Entries)

def string? : Value → Option String
  | .string s => some s
  | _ => none

def boolean? : Value → Option Bool
  | .boolean b => some b
  | _ => none

def strings? : Value → Option (List String)
  | .array _ items => items.mapM string?
  | _ => none

/-- The entries of a table. A date or a time passes for a table with one entry. -/
def entries? : Value → Option Entries
  | .table _ entries => some entries
  | .moment m => some [("$__toml_private_datetime", .string (String.ofList m.text))]
  | _ => none

/-- The entries with the given names. What has other names is of no use, but its numbers have to
have a value. -/
def known? (names : List String) (entries : Entries) : Option Entries :=
  let (known, others) := entries.partition (names.contains ·.1)
  if others.all (·.2.isReadable) then some known else none

/-- The values of named fields. An array gives them in the order of the names, and what is left of
it is not looked at. -/
def fields? (names : List String) : Value → Option Entries
  | .array _ items => some (names.zip items)
  | value => (entries? value).bind (known? names)

/-- A field that can be left out. -/
def optional {α : Type} (decode : Value → Option α) (absent : α) (entries : Entries)
    (name : String) : Option α :=
  match entries.get? name with
  | some value => decode value
  | none => some absent

def byKey {α : Type} (entries : List (String × α)) : List (String × α) :=
  entries.mergeSort fun a b => a.1 ≤ b.1

def defaults? (value : Value) : Option (List (String × String)) := do
  let entries ← entries? value
  byKey <$> entries.mapM fun e => (string? e.2).map (e.1, ·)

def tag? (value : Value) : Option TagConfig := do
  let fields ← fields? ["template", "defaults", "expand_content"] value
  let template ← (fields.get? "template").bind string?
  let defaults ← optional defaults? [] fields "defaults"
  let expandContent ← optional boolean? false fields "expand_content"
  return ⟨template, defaults, expandContent⟩

def tags? (value : Value) : Option (List (String × TagConfig)) := do
  let entries ← entries? value
  byKey <$> entries.mapM fun e => (tag? e.2).map (e.1, ·)

def strip? (value : Value) : Option (Option (List String)) := do
  let fields ← fields? ["tags"] value
  optional (fun v => (strings? v).map some) none fields "tags"

def ofEntries? (entries : Entries) : Option Config := do
  let entries ← known? ["ignore_html", "strip", "tags"] entries
  let ignoreHtml ← optional boolean? false entries "ignore_html"
  let stripTags ← optional strip? none entries "strip"
  let tags ← optional tags? [] entries "tags"
  return ⟨ignoreHtml, stripTags, tags, none⟩

def decode (text : String) : Except ConfigError Config :=
  match (Toml.parse text).bind ofEntries? with
  | some config => .ok config
  | none => .error .malformed

end Shortcode.Config
