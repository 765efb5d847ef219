import Shortcode.Tag.Name

namespace Shortcode

/-- Names with what they are bound to, in the order of `Tag.precedes`, one entry for each name. -/
structure Bindings (α : Type) where
  entries : List (String × α)
  ordered : entries.Pairwise fun a b => Tag.precedes a.1 b.1 = true
  valid : ∀ e ∈ entries, Tag.nameFault? e.1 = none

namespace Bindings

variable {α : Type}

def empty : Bindings α := ⟨[], .nil, nofun⟩

def names (b : Bindings α) : List String := b.entries.map (·.1)

def size (b : Bindings α) : Nat := b.entries.length

def isEmpty (b : Bindings α) : Bool := b.entries.isEmpty

def get? (b : Bindings α) (name : String) : Option α :=
  (b.entries.find? (·.1 = name)).map (·.2)

def contains (b : Bindings α) (name : String) : Bool := (b.get? name).isSome

/-- Writes over the entry of a name, or adds one where the order wants it. -/
def put (name : String) (a : α) : List (String × α) → List (String × α)
  | [] => [(name, a)]
  | e :: entries =>
    if name = e.1 then (name, a) :: entries
    else if Tag.precedes name e.1 then (name, a) :: e :: entries
    else e :: put name a entries

theorem find?_put (name other : String) (a : α) (entries : List (String × α)) :
    ((put name a entries).find? (·.1 = other)).map (·.2) =
      if name = other then some a else (entries.find? (·.1 = other)).map (·.2) := by
  induction entries with
  | nil => by_cases h : name = other <;> simp [put, h]
  | cons e entries ih =>
    rw [put]
    split
    · next hn =>
      subst hn
      by_cases h : e.1 = other <;> simp [h]
    · next hn =>
      split
      · by_cases h : name = other <;> simp [h]
      · by_cases h : e.1 = other
        · have : name ≠ other := fun hm => hn (hm.trans h.symm)
          simp [h, this]
        · simpa [h] using ih

theorem mem_put {name : String} {a : α} {e : String × α} {entries : List (String × α)}
    (h : e ∈ put name a entries) : e = (name, a) ∨ e ∈ entries := by
  induction entries with
  | nil => exact .inl (List.mem_singleton.1 h)
  | cons other entries ih =>
    rw [put] at h
    split at h
    · rcases List.mem_cons.1 h with h | h
      · exact .inl h
      · exact .inr (List.mem_cons_of_mem other h)
    · split at h
      · exact List.mem_cons.1 h
      · rcases List.mem_cons.1 h with rfl | h
        · exact .inr List.mem_cons_self
        · exact (ih h).imp_right (List.mem_cons_of_mem other)

theorem ordered_put (name : String) (a : α) {entries : List (String × α)}
    (h : entries.Pairwise fun a b => Tag.precedes a.1 b.1 = true) :
    (put name a entries).Pairwise fun a b => Tag.precedes a.1 b.1 = true := by
  induction entries with
  | nil => exact List.pairwise_singleton ..
  | cons e entries ih =>
    obtain ⟨he, hentries⟩ := List.pairwise_cons.1 h
    rw [put]
    split
    · next hn => exact List.pairwise_cons.2 ⟨fun b hb => hn ▸ he b hb, hentries⟩
    · next hn =>
      split
      · next hp =>
        refine List.pairwise_cons.2 ⟨?_, h⟩
        intro b hb
        rcases List.mem_cons.1 hb with rfl | hb
        · exact hp
        · exact Tag.precedes_trans hp (he b hb)
      · next hp =>
        refine List.pairwise_cons.2 ⟨?_, ih hentries⟩
        intro b hb
        rcases mem_put hb with rfl | hb
        · exact Tag.precedes_of_not hn hp
        · exact he b hb

/-- Only names that can be told from the text around them are taken. -/
def register (b : Bindings α) (name : String) (a : α) : Except InvalidName (Bindings α) :=
  match h : Tag.nameFault? name with
  | some fault => .error ⟨name, fault⟩
  | none => .ok
    { entries := put name a b.entries
      ordered := ordered_put name a b.ordered
      valid := fun e he => (mem_put he).elim (fun hn => hn ▸ h) (b.valid e) }

theorem get?_register {b c : Bindings α} {name : String} {a : α} (h : b.register name a = .ok c)
    (other : String) : c.get? other = if name = other then some a else b.get? other := by
  unfold register at h
  split at h
  · cases h
  · cases h
    exact find?_put name other a b.entries

def unregister (b : Bindings α) (name : String) : Bindings α where
  entries := b.entries.filter (·.1 ≠ name)
  ordered := b.ordered.filter _
  valid e he := b.valid e (List.mem_filter.1 he).1

theorem get?_unregister (b : Bindings α) (name other : String) :
    (b.unregister name).get? other = if name = other then none else b.get? other := by
  simp only [get?, unregister, List.find?_filter]
  split
  · next h =>
    subst h
    simp
  · next h =>
    congr 2
    funext e
    by_cases he : e.1 = other
    · simp [he, Ne.symm h]
    · simp [he]

end Bindings
end Shortcode
