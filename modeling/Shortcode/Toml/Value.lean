import Shortcode.Toml.Moment
import Shortcode.Toml.Number

namespace Shortcode.Toml

/-- How a table came about, which decides who may still add to it: written between braces, named in
a header, passed on the way to the table of a header, or made by a dotted key. -/
inductive Origin where
  | braces | header | passing | dotted
  deriving DecidableEq, Repr

/-- Headers in double brackets add to an array that is open. -/
inductive Value where
  | string (s : String)
  | boolean (b : Bool)
  | number (n : Number)
  | moment (m : Moment)
  | array (isOpen : Bool) (items : List Value)
  | table (origin : Origin) (entries : List (String × Value))

mutual

/-- Whether every number in a value has a value of its own. -/
def Value.isReadable : Value → Bool
  | .number n => n.hasValue
  | .array _ items => areReadable items
  | .table _ entries => entriesReadable entries
  | _ => true

def areReadable : List Value → Bool
  | [] => true
  | v :: vs => v.isReadable && areReadable vs

def entriesReadable : List (String × Value) → Bool
  | [] => true
  | (_, v) :: es => v.isReadable && entriesReadable es

end

/-- The entries of a table. Each key has one. -/
abbrev Entries := List (String × Value)

namespace Entries

def get? (entries : Entries) (key : String) : Option Value :=
  (entries.find? (·.1 = key)).map (·.2)

def set (entries : Entries) (key : String) (value : Value) : Entries :=
  if entries.any (·.1 = key) then
    entries.map fun e => if e.1 = key then (key, value) else e
  else entries ++ [(key, value)]

end Entries

/-- A table with the way it came about. -/
structure Table where
  origin : Origin
  entries : Entries

def Table.toValue (t : Table) : Value := .table t.origin t.entries

namespace Table

def empty : Table := ⟨.header, []⟩

/-- What a statement does to a table, if it is allowed there. -/
abbrev Change := Table → Option Table

/-- What becomes of a table that a path of keys goes through. Tables in braces are complete, and a
dotted key does not go through a table that has a header of its own; one that only headers have gone
through counts from then on as made by dotted keys. -/
def through (way : Origin) : Origin → Option Origin
  | .braces => none
  | .header => if way = .dotted then none else some .header
  | .passing => some way
  | .dotted => some .dotted

/-- Applies a change to the table that a path of keys leads to, and makes the tables on the way that
are missing. In an array that is open the path goes through the last table. -/
def change (way : Origin) (f : Change) : List String → Change
  | [], t => f t
  | key :: path, t =>
    match t.entries.get? key with
    | none => do
      let inner ← change way f path ⟨way, []⟩
      some { t with entries := t.entries.set key inner.toValue }
    | some (.table origin entries) => do
      let inner ← change way f path ⟨← through way origin, entries⟩
      some { t with entries := t.entries.set key inner.toValue }
    | some (.array true items) =>
      match items.getLast? with
      | some (.table origin entries) => do
        let inner ← change way f path ⟨origin, entries⟩
        let items := items.dropLast ++ [inner.toValue]
        some { t with entries := t.entries.set key (.array true items) }
      | _ => none
    | some _ => none

/-- A header names a table that no other header or dotted key has named. -/
def named (key : String) : Change := fun t =>
  match t.entries.get? key with
  | none => some { t with entries := t.entries.set key (.table .header []) }
  | some (.table .passing entries) =>
    some { t with entries := t.entries.set key (.table .header entries) }
  | some _ => none

/-- A header in double brackets starts the next table of an array. -/
def appended (key : String) : Change := fun t =>
  match t.entries.get? key with
  | none => some { t with entries := t.entries.set key (.array true [.table .header []]) }
  | some (.array true items) =>
    some { t with entries := t.entries.set key (.array true (items ++ [.table .header []])) }
  | some _ => none

/-- A key is given a value once. A dotted key ends in a table that dotted keys have made. -/
def assigned (isDotted : Bool) (key : String) (value : Value) : Change := fun t =>
  if isDotted != (t.origin == .dotted) then none
  else
    match t.entries.get? key with
    | none => some { t with entries := t.entries.set key value }
    | some _ => none

end Table

/-- The path of a key in a statement: the keys before the last one, and the last one. -/
structure Path where
  parents : List String
  key : String

def Path.keys (p : Path) : List String := p.parents ++ [p.key]

/-- The effect of `key = value`, or `a.b.key = value`. -/
def Table.assign (p : Path) (value : Value) : Table.Change :=
  Table.change .dotted (Table.assigned (!p.parents.isEmpty) p.key value) p.parents

/-- A line of a document. -/
inductive Statement where
  | header (path : Path)
  | arrayHeader (path : Path)
  | assignment (path : Path) (value : Value)

/-- The document so far: its tables and the path of the header that is in force. -/
structure Document where
  root : Table
  current : List String

namespace Document

def empty : Document := ⟨.empty, []⟩

def add (d : Document) : Statement → Option Document
  | .header p => do
    let root ← Table.change .passing (Table.named p.key) p.parents d.root
    some ⟨root, p.keys⟩
  | .arrayHeader p => do
    let root ← Table.change .passing (Table.appended p.key) p.parents d.root
    some ⟨root, p.keys⟩
  | .assignment p value => do
    let root ← Table.change .passing (Table.assign p value) d.current d.root
    some { d with root }

end Document

/-- The entries of a document with these statements, if no statement contradicts one before it. -/
def entriesOf (statements : List Statement) : Option Entries :=
  (statements.foldlM Document.add .empty).map (·.root.entries)

/-- The entries of a table in braces. -/
def entriesOfBraces (assignments : List (Path × Value)) : Option Entries :=
  (assignments.foldlM (fun t a => Table.assign a.1 a.2 t) ⟨.braces, []⟩).map (·.entries)

end Shortcode.Toml
