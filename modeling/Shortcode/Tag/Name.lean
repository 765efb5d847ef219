import Shortcode.Text.Quoted

namespace Shortcode

/-- Why a name cannot be registered. -/
inductive NameFault where
  | empty
  | reserved
  deriving DecidableEq, Repr

def NameFault.reason : NameFault → String
  | .empty => "name is empty"
  | .reserved => "name contains one of < & / [ ] or whitespace"

/-- A name that was refused. -/
structure InvalidName where
  name : String
  fault : NameFault
  deriving DecidableEq, Repr

def InvalidName.message (e : InvalidName) : String :=
  "invalid shortcode name " ++ Text.quoted e.name ++ ": " ++ e.fault.reason

namespace Tag

/-- Characters that a tag name cannot hold. A vertical tab is none of them. -/
def isReserved (c : Char) : Bool :=
  c = '<' || c = '&' || c = '/' || c = '[' || c = ']' ||
    c = ' ' || c = '\t' || c = '\n' || c = '\x0c' || c = '\r'

/-- What is wrong with a name, if anything is. -/
def nameFault? (name : String) : Option NameFault :=
  if name.isEmpty then some .empty
  else if name.toList.any isReserved then some .reserved
  else none

def validateName (name : String) : Except InvalidName Unit :=
  match nameFault? name with
  | some fault => .error ⟨name, fault⟩
  | none => .ok ()

theorem validateName_eq_ok_iff {name : String} :
    validateName name = .ok () ↔ nameFault? name = none := by
  rw [validateName]
  cases nameFault? name <;> simp

/-- Longer names come first, in bytes, and names of one length in alphabetical order. A name then
stands before those it begins with. -/
def precedes (a b : String) : Bool :=
  b.utf8ByteSize < a.utf8ByteSize || (a.utf8ByteSize == b.utf8ByteSize && a < b)

theorem precedes_iff {a b : String} :
    precedes a b = true ↔
      b.utf8ByteSize < a.utf8ByteSize ∨ a.utf8ByteSize = b.utf8ByteSize ∧ a < b := by
  simp [precedes]

theorem precedes_irrefl (a : String) : ¬ precedes a a = true := by
  rw [precedes_iff]
  intro h
  rcases h with h | h
  · exact Nat.lt_irrefl _ h
  · exact String.lt_irrefl a h.2

theorem precedes_trans {a b c : String} (hab : precedes a b = true) (hbc : precedes b c = true) :
    precedes a c = true := by
  rw [precedes_iff] at hab hbc ⊢
  rcases hab with hab | ⟨hab, hlt⟩
  · left
    omega
  · rcases hbc with hbc | ⟨hbc, hlt'⟩
    · left
      omega
    · right
      exact ⟨hab.trans hbc, String.lt_trans hlt hlt'⟩

theorem precedes_of_not {a b : String} (hne : a ≠ b) (h : ¬ precedes a b = true) :
    precedes b a = true := by
  rw [precedes_iff] at h ⊢
  obtain ⟨hsize, hlt⟩ := not_or.1 h
  rcases Nat.lt_or_eq_of_le (Nat.le_of_not_lt hsize) with hs | hs
  · exact .inl hs
  · right
    have hle : b ≤ a := String.not_lt.1 fun hab => hlt ⟨hs, hab⟩
    exact ⟨hs.symm, Decidable.byContradiction fun hba =>
      hne (String.le_antisymm (String.not_lt.1 hba) hle)⟩

/-- Adds a name to an ordered list that holds each name once. -/
def insertName (name : String) : List String → List String
  | [] => [name]
  | other :: names =>
    if name = other then other :: names
    else if precedes name other then name :: other :: names
    else other :: insertName name names

/-- The names of a list, each once, longest first. -/
def longestFirst (names : List String) : List String := names.foldr insertName []

end Tag
end Shortcode
