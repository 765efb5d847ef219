namespace Shortcode

/-- Attributes are numbered from 0 or named; the number 0 and the name "0" are different keys. -/
inductive Key where
  | index (i : Nat)
  | name (s : String)
  deriving DecidableEq, Repr

def Key.text : Key → String
  | .index i => toString i
  | .name s => s

/-- The entries in order; `nextIndex` is the number that the next attribute without a name gets. -/
structure Attributes where
  entries : List (Key × String)
  nextIndex : Nat
  deriving DecidableEq, Repr

namespace Attributes

def empty : Attributes := ⟨[], 0⟩

def keys (m : Attributes) : List Key := m.entries.map (·.1)

def size (m : Attributes) : Nat := m.entries.length

def isEmpty (m : Attributes) : Bool := m.entries.isEmpty

def get? (m : Attributes) (k : Key) : Option String := (m.entries.find? (·.1 = k)).map (·.2)

def contains (m : Attributes) (k : Key) : Bool := m.keys.contains k

/-- Writes over the value of a key where it stands, or adds the key at the end. -/
def put (k : Key) (v : String) : List (Key × String) → List (Key × String)
  | [] => [(k, v)]
  | e :: entries => if e.1 = k then (k, v) :: entries else e :: put k v entries

/-- An index that is given on its own moves the numbering past it. -/
def insert (m : Attributes) (k : Key) (v : String) : Attributes :=
  { entries := put k v m.entries
    nextIndex := match k with
      | .index i => max m.nextIndex (i + 1)
      | .name _ => m.nextIndex }

/-- Adds a value without a name. It gets the number `m.nextIndex`. -/
def push (m : Attributes) (v : String) : Attributes := m.insert (.index m.nextIndex) v

/-- Of two values for one key the later stays, in the earlier one's place. -/
def ofList (entries : List (Key × String)) : Attributes :=
  entries.foldl (fun m e => m.insert e.1 e.2) empty

theorem find?_put (k k' : Key) (v : String) (entries : List (Key × String)) :
    ((put k v entries).find? (·.1 = k')).map (·.2) =
      if k' = k then some v else (entries.find? (·.1 = k')).map (·.2) := by
  induction entries with
  | nil => by_cases h : k = k' <;> simp [put, h, Ne.symm]
  | cons e entries ih =>
    rw [put]
    split
    · next he =>
      subst he
      by_cases h : e.1 = k' <;> simp [h, Ne.symm]
    · next he =>
      by_cases h : e.1 = k'
      · have hk : k' ≠ k := fun hk => he (h.trans hk)
        simp [h, hk]
      · simpa [h] using ih

theorem get?_insert (m : Attributes) (k k' : Key) (v : String) :
    (m.insert k v).get? k' = if k' = k then some v else m.get? k' :=
  find?_put k k' v m.entries

theorem keys_put (k : Key) (v : String) (entries : List (Key × String)) :
    (put k v entries).map (·.1) =
      if k ∈ entries.map (·.1) then entries.map (·.1) else entries.map (·.1) ++ [k] := by
  induction entries with
  | nil => simp [put]
  | cons e entries ih =>
    by_cases h : e.1 = k
    · simp [put, h]
    · have h' : k ≠ e.1 := Ne.symm h
      simp only [put, h, if_false, List.map_cons, ih, List.mem_cons, h', false_or]
      split <;> simp

end Attributes
end Shortcode
