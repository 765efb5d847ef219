import Shortcode.Text.Raw

namespace Shortcode

/-- A path as it is given: names with slashes between them. -/
abbrev FilePath := RawText

namespace FilePath

def ofString (s : String) : FilePath := RawText.ofString s

def slash : UInt8 := '/'.toUInt8

/-- The path from the root to a place. -/
def ofPlace (place : List RawText) : FilePath :=
  ⟨slash :: [slash].intercalate (place.map (·.bytes))⟩

def isAbsolute (p : FilePath) : Bool := p.bytes.head? = some slash

def names (p : FilePath) : List RawText := (p.bytes.splitOn slash).map RawText.mk

end FilePath

inductive Node where
  | file (bytes : ByteArray)
  | directory

/-- What there is under each path from the root, given by its names. Links are followed: one that
leads nowhere is not there. -/
abbrev FileTree := List RawText → Option Node

/-- Why a text could not be read. -/
inductive ReadFault where
  | notFound
  | notDirectory
  | isDirectory
  | nameTooLong
  | notUtf8
  deriving DecidableEq, Repr

def ReadFault.message : ReadFault → String
  | .notFound => "No such file or directory (os error 2)"
  | .notDirectory => "Not a directory (os error 20)"
  | .isDirectory => "Is a directory (os error 21)"
  | .nameTooLong => "File name too long (os error 36)"
  | .notUtf8 => "stream did not contain valid UTF-8"

def decodeText (bytes : ByteArray) : Except ReadFault String :=
  match String.fromUTF8? bytes with
  | some s => .ok s
  | none => .error .notUtf8

namespace FileTree

/-- The tree with these files, these directories and the directories on the way to them. -/
def ofFiles (files : List (List String × ByteArray)) (directories : List (List String)) :
    FileTree := fun place =>
  match files.find? fun f => f.1.map RawText.ofString = place with
  | some (_, bytes) => some (.file bytes)
  | none =>
    if place = [] || (files.map (·.1) ++ directories).any fun other =>
        place.isPrefixOf (other.map RawText.ofString) then
      some .directory
    else none

/-- The bytes that a name may have. -/
def nameLimit : Nat := 255

/-- The bytes that a path may have. -/
def pathLimit : Nat := 4095

/-- Goes one name further from a place, which has to be a directory. -/
def step (tree : FileTree) (place : List RawText) (name : RawText) :
    Except ReadFault (List RawText) :=
  match tree place with
  | none => .error .notFound
  | some (.file _) => .error .notDirectory
  | some .directory =>
    if name = "" ∨ name = "." then .ok place
    else if name = ".." then .ok place.dropLast
    else if nameLimit < name.bytes.length then .error .nameTooLong
    else if (tree (place ++ [name])).isSome then .ok (place ++ [name])
    else .error .notFound

/-- Where the names of a path lead, from the root or from the working directory. -/
def find (tree : FileTree) (cwd : List RawText) (path : FilePath) :
    Except ReadFault (List RawText) :=
  if path.isEmpty then .error .notFound
  else if pathLimit < path.bytes.length then .error .nameTooLong
  else path.names.foldlM tree.step (if path.isAbsolute then [] else cwd)

def exists? (tree : FileTree) (cwd : List RawText) (path : FilePath) : Bool :=
  (tree.find cwd path).toBool

/-- Reads what stands at a place. -/
def readAt (tree : FileTree) (place : List RawText) : Except ReadFault String :=
  match tree place with
  | none => .error .notFound
  | some .directory => .error .isDirectory
  | some (.file bytes) => decodeText bytes

def read (tree : FileTree) (cwd : List RawText) (path : FilePath) : Except ReadFault String := do
  tree.readAt (← tree.find cwd path)

/-- All places that `find` may look at. -/
def places (cwd : List RawText) (path : FilePath) : List (List RawText) :=
  path.names.foldl go (if path.isAbsolute then [[]] else [cwd])
where
  go : List (List RawText) → RawText → List (List RawText)
    | [], _ => []
    | place :: before, name =>
      (if name = "" ∨ name = "." then place
        else if name = ".." then place.dropLast
        else place ++ [name]) :: place :: before

/-- The working directory and the directories above it, nearest first. -/
def ancestors (cwd : List RawText) : List (List RawText) :=
  ((List.range (cwd.length + 1)).map cwd.take).reverse

end FileTree

end Shortcode
