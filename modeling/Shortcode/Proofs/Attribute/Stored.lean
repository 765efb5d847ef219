import Std.Data.HashMap.Lemmas
import Shortcode.Proofs.Attribute.Edited

namespace Shortcode

deriving instance Hashable for Key

/-- The number of the key is smaller than the largest one of 64 bits. -/
def Key.Fits : Key → Prop
  | .index i => i + 1 < UInt64.size
  | .name _ => True

instance : (key : Key) → Decidable key.Fits
  | .index i => inferInstanceAs (Decidable (i + 1 < UInt64.size))
  | .name _ => inferInstanceAs (Decidable True)

namespace Attributes

/-- The table has for each key its place among the entries. -/
structure Stored where
  entries : List (Key × String)
  slots : Std.HashMap Key Nat
  next : UInt64

namespace Stored

/-- All three parts are compared. -/
instance : BEq Stored :=
  ⟨fun s t => s.entries == t.entries && s.slots == t.slots && s.next == t.next⟩

def empty : Stored := ⟨[], ∅, 0⟩

def keys (s : Stored) : List Key := s.entries.map (·.1)

def get? (s : Stored) (key : Key) : Option String :=
  s.slots[key]?.bind fun slot => s.entries[slot]?.map (·.2)

/-- A number moves the numbering past it. -/
def advance (next : UInt64) : Key → UInt64
  | .index i => max next (UInt64.ofNat i + 1)
  | .name _ => next

/-- Writes over the value at the place of a key, or adds the key at the end. Only a key that is new
moves the numbering. -/
def insert (s : Stored) (key : Key) (value : String) : Stored :=
  match s.slots[key]? with
  | some slot => { s with entries := s.entries.modify slot fun e => (e.1, value) }
  | none =>
    { entries := s.entries ++ [(key, value)]
      slots := s.slots.insert key s.entries.length
      next := advance s.next key }

/-- Adds a value without a name, and gives the number that it gets. -/
def push (s : Stored) (value : String) : Nat × Stored :=
  (s.next.toNat, s.insert (.index s.next.toNat) value)

def ofList (entries : List (Key × String)) : Stored :=
  entries.foldl (fun s e => s.insert e.1 e.2) empty

def override (s : Stored) (written : Written) : Stored :=
  ofList (s.entries.map fun e => (e.1, (written.get? e.1).getD e.2))

def after (s : Stored) : Edit → Stored
  | .insert key value => s.insert key value
  | .push value => (s.push value).2
  | .override written => s.override written

def run (edits : List Edit) : Stored := edits.foldl after empty

/-- The map without the table. -/
def attributes (s : Stored) : Attributes := ⟨s.entries, s.next.toNat⟩

/-- The table has each key at its place and nothing else, and the number is behind those of the
keys, as far as 64 bits go. -/
structure Sound (s : Stored) : Prop where
  slots : ∀ (key : Key) (slot : Nat), s.slots[key]? = some slot ↔ s.keys[slot]? = some key
  next : s.next = s.keys.foldl advance 0

variable {s t : Stored} {key : Key} {value : String} {edits : List Edit}

theorem Sound.slots_eq_none (h : s.Sound) : s.slots[key]? = none ↔ key ∉ s.keys := by
  rw [Option.eq_none_iff_forall_ne_some, List.mem_iff_getElem?, not_exists]
  exact forall_congr' fun slot => not_congr (h.slots key slot)

/-- A key that stood at two places would have two places in the table. -/
theorem Sound.nodup (h : s.Sound) : s.keys.Nodup := by
  rw [List.nodup_iff_getElem?_ne_getElem?]
  intro i j hij hj same
  obtain ⟨key, hk⟩ : ∃ key, s.keys[j]? = some key := ⟨_, List.getElem?_eq_getElem hj⟩
  have one := (h.slots key i).2 (same.trans hk)
  rw [(h.slots key j).2 hk] at one
  exact Nat.ne_of_lt hij (Option.some.inj one).symm

theorem Sound.get?_eq (h : s.Sound) (key : Key) : s.get? key = s.attributes.get? key := by
  rw [get?]
  cases hs : s.slots[key]? with
  | none => exact (get?_of_notMem (m := s.attributes) (h.slots_eq_none.1 hs)).symm
  | some slot =>
    have hk := (h.slots key slot).1 hs
    rw [keys, List.getElem?_map, Option.map_eq_some_iff] at hk
    obtain ⟨e, he, rfl⟩ := hk
    have mem : (e.1, e.2) ∈ s.attributes.entries := List.mem_of_getElem? he
    rw [Option.bind_some, he, get?_eq_some_of_mem (m := s.attributes) h.nodup mem]
    rfl

/-- Table and number are the same where the entries are. -/
theorem Sound.beq_iff (h : s.Sound) (h' : t.Sound) : (s == t) = true ↔ s.entries = t.entries := by
  change (_ == _ && _ == _ && _ == _) = true ↔ _
  rw [Bool.and_eq_true, Bool.and_eq_true, beq_iff_eq, Std.HashMap.beq_iff_equiv, beq_iff_eq]
  refine ⟨fun same => same.1.1, fun same => ⟨⟨same, ?_⟩, ?_⟩⟩
  · refine Std.HashMap.Equiv.of_forall_getElem?_eq fun key => Option.ext fun slot => ?_
    rw [h.slots, h'.slots, keys, same, keys]
  · rw [h.next, h'.next, keys, same, keys]

theorem sound_empty : empty.Sound where
  slots key slot := by
    rw [empty, Std.HashMap.getElem?_empty]
    exact ⟨nofun, nofun⟩
  next := rfl

theorem put_eq_modify {entries : List (Key × String)} {slot : Nat}
    (nodup : (entries.map (·.1)).Nodup) (h : (entries.map (·.1))[slot]? = some key) :
    put key value entries = entries.modify slot fun e => (e.1, value) := by
  induction entries generalizing slot with
  | nil => cases h
  | cons e entries ih =>
    cases slot with
    | zero =>
      obtain rfl : e.1 = key := Option.some.inj h
      rw [put, if_pos rfl]
      rfl
    | succ slot =>
      have hk : key ∈ entries.map (·.1) := List.mem_of_getElem? h
      obtain ⟨new, nodup⟩ := List.nodup_cons.1 nodup
      have other : e.1 ≠ key := by
        rintro rfl
        exact new hk
      rw [put, if_neg other, ih nodup h]
      rfl

/-- The entries behind an insertion are those of the map without the table. -/
theorem Sound.entries_insert (h : s.Sound) (key : Key) (value : String) :
    (s.insert key value).entries = put key value s.entries := by
  rw [insert.eq_def]
  cases hs : s.slots[key]? with
  | some slot => exact (put_eq_modify h.nodup ((h.slots key slot).1 hs)).symm
  | none => exact (put_of_notMem (h.slots_eq_none.1 hs)).symm

theorem getElem?_concat_eq_some_iff {α : Type} {l : List α} {a b : α} {i : Nat} :
    (l ++ [a])[i]? = some b ↔ l[i]? = some b ∨ l.length = i ∧ a = b := by
  rcases Nat.lt_trichotomy i l.length with hi | rfl | hi
  · rw [List.getElem?_append_left hi]
    simp [hi.ne']
  · simp
  · rw [List.getElem?_eq_none, List.getElem?_eq_none (Nat.le_of_lt hi)]
    · simp [hi.ne]
    · rw [List.length_append, List.length_singleton]
      exact hi

theorem Sound.keys_insert (h : s.Sound) (key : Key) (value : String) :
    (s.insert key value).keys = if key ∈ s.keys then s.keys else s.keys ++ [key] := by
  rw [keys, h.entries_insert]
  exact keys_put key value s.entries

theorem Sound.insert (h : s.Sound) (key : Key) (value : String) : (s.insert key value).Sound := by
  have keys := h.keys_insert key value
  cases hs : s.slots[key]? with
  | some slot =>
    have mem : key ∈ s.keys := List.mem_of_getElem? ((h.slots key slot).1 hs)
    rw [if_pos mem] at keys
    constructor
    · intro key' slot'
      rw [keys, Stored.insert.eq_def, hs]
      exact h.slots key' slot'
    · rw [keys, Stored.insert.eq_def, hs]
      exact h.next
  | none =>
    have new := h.slots_eq_none.1 hs
    rw [if_neg new] at keys
    constructor
    · intro key' slot'
      rw [keys, getElem?_concat_eq_some_iff, Stored.insert.eq_def, hs, Std.HashMap.getElem?_insert,
        Stored.keys, List.length_map]
      by_cases hk : key = key'
      · subst hk
        have absent : s.keys[slot']? ≠ some key := fun hm => new (List.mem_of_getElem? hm)
        rw [if_pos (beq_self_eq_true key), Option.some.injEq]
        exact ((or_iff_right absent).trans (and_iff_left rfl)).symm
      · rw [if_neg (mt eq_of_beq hk), h.slots]
        exact (or_iff_left fun last => hk last.2).symm
    · rw [keys, List.foldl_concat, ← h.next, Stored.insert.eq_def, hs]

/-- A map that is built of entries, and which entries it has. -/
theorem sound_ofList (entries : List (Key × String)) :
    (ofList entries).Sound ∧ (ofList entries).entries = (Attributes.ofList entries).entries := by
  induction entries using List.reverseRecOn with
  | nil => exact ⟨sound_empty, rfl⟩
  | append_singleton entries e ih =>
    obtain ⟨sound, same⟩ := ih
    rw [ofList, List.foldl_concat, ofList_concat]
    refine ⟨sound.insert e.1 e.2, (sound.entries_insert e.1 e.2).trans ?_⟩
    exact congrArg (put e.1 e.2) same

theorem sound_override (s : Stored) (written : Written) : (s.override written).Sound :=
  (sound_ofList _).1

theorem entries_override (s : Stored) (written : Written) :
    (s.override written).entries = (s.attributes.override written).entries :=
  (sound_ofList _).2

theorem run_concat (edits : List Edit) (edit : Edit) :
    run (edits ++ [edit]) = (run edits).after edit := List.foldl_concat ..

theorem sound_run (edits : List Edit) : (run edits).Sound := by
  induction edits using List.reverseRecOn with
  | nil => exact sound_empty
  | append_singleton edits edit ih =>
    rw [run_concat]
    cases edit with
    | insert key value => exact ih.insert key value
    | push value => exact ih.insert _ value
    | override written => exact sound_override (run edits) written

theorem toNat_max (a b : UInt64) : (max a b).toNat = max a.toNat b.toNat := by
  rw [Nat.max_def]
  exact apply_ite UInt64.toNat (a ≤ b) b a

theorem toNat_advance (fits : key.Fits) (next : UInt64) :
    (advance next key).toNat = max next.toNat (numberAfter [key]) := by
  cases key with
  | index i =>
    have exact : (UInt64.ofNat (i + 1)).toNat = i + 1 := UInt64.toNat_ofNat_of_lt' fits
    rw [advance, toNat_max, ← UInt64.ofNat_one, ← UInt64.ofNat_add, exact]
    rfl
  | name s => exact (Nat.max_zero _).symm

theorem toNat_foldl_advance {keys : List Key} (fits : ∀ key ∈ keys, key.Fits) :
    (keys.foldl advance 0).toNat = numberAfter keys := by
  induction keys using List.reverseRecOn with
  | nil => rfl
  | append_singleton keys key ih =>
    obtain ⟨fits, last⟩ := List.forall_mem_append.1 fits
    rw [List.foldl_concat, toNat_advance (last key List.mem_cons_self), ih fits,
      numberAfter_concat]

/-- No number that is given in a run is the largest one of 64 bits. -/
def Fits (edits : List Edit) : Prop := ∀ e ∈ given edits, e.1.Fits

instance (edits : List Edit) : Decidable (Fits edits) :=
  inferInstanceAs (Decidable (∀ e ∈ given edits, e.1.Fits))

theorem fits_concat {edit : Edit} :
    Fits (edits ++ [edit]) ↔ Fits edits ∧ ∀ e ∈ edit.gives (given edits), e.1.Fits := by
  rw [Fits, given_concat, List.forall_mem_append]
  rfl

/-- A map that is built with numbers that fit has the number behind those of its keys. -/
theorem Fits.toNat_next (fits : Fits edits) (h : s.Sound)
    (entries : s.entries = (Attributes.run edits).entries) :
    s.next.toNat = (Attributes.run edits).nextIndex := by
  rw [(canonical_run edits).next, h.next, keys, entries, toNat_foldl_advance]
  · rfl
  · intro key hk
    change key ∈ (Attributes.run edits).keys at hk
    rw [run_eq_ofList, keys_ofList, List.mem_eraseDups] at hk
    obtain ⟨e, he, rfl⟩ := List.mem_map.1 hk
    exact fits e he

/-- With numbers that fit, a stored map is the map behind the same run. -/
theorem attributes_run (fits : Fits edits) : (run edits).attributes = Attributes.run edits := by
  have entries : (run edits).entries = (Attributes.run edits).entries := by
    induction edits using List.reverseRecOn with
    | nil => rfl
    | append_singleton edits edit ih =>
      obtain ⟨before, -⟩ := fits_concat.1 fits
      have sound := sound_run edits
      have ih := ih before
      rw [run_concat, Attributes.run_concat]
      cases edit with
      | insert key value => rw [after, sound.entries_insert, ih]; rfl
      | push value =>
        rw [after, push, sound.entries_insert, ih, before.toNat_next sound ih]
        rfl
      | override written =>
        rw [after, entries_override, Attributes.override, attributes, ih]
        rfl
  have next := fits.toNat_next (sound_run edits) entries
  rw [attributes, entries, next]

/-- What is stored behind a run: each key once and in the order in which the keys were first given,
with the value that was given last, the places of the keys in the table and nothing else, and the
number behind the largest one, under which a value without a name is new. -/
structure Represents (s : Stored) (edits : List Edit) : Prop where
  nodup : s.keys.Nodup
  slots : ∀ (key : Key) (slot : Nat), s.slots[key]? = some slot ↔ s.keys[slot]? = some key
  next : (s.next = 0 ∧ ∀ i, Key.index i ∉ s.keys) ∨
    ∃ i, s.next.toNat = i + 1 ∧ Key.index i ∈ s.keys ∧ ∀ j, Key.index j ∈ s.keys → j ≤ i
  get? : ∀ key, s.get? key = lastGiven edits key
  keys : s.keys = ((given edits).map (·.1)).eraseDups
  push : ∀ value, (s.push value).2.entries = s.entries ++ [(.index (s.push value).1, value)] ∧
    Key.index (s.push value).1 ∉ s.keys

theorem keys_run (fits : Fits edits) :
    (run edits).keys = ((given edits).map (·.1)).eraseDups := by
  rw [← keys_ofList, ← run_eq_ofList, ← attributes_run fits]
  rfl

theorem represents_run (fits : Fits edits) : (run edits).Represents edits := by
  have sound := sound_run edits
  have same := attributes_run fits
  have number : (run edits).next.toNat = numberAfter (run edits).keys := by
    have next := (canonical_run edits).next
    rwa [← same] at next
  have new : Key.index (run edits).next.toNat ∉ (run edits).keys := by
    rw [number]
    exact index_numberAfter_notMem _
  refine ⟨sound.nodup, sound.slots, ?_, fun key => ?_, keys_run fits, fun value => ⟨?_, new⟩⟩
  · rw [← UInt64.toNat_inj, number]
    exact numberAfter_eq _
  · rw [sound.get?_eq, same, run_eq_ofList, get?_ofList]
    rfl
  · exact (sound.entries_insert _ value).trans (put_of_notMem new)

/-- Behind every run of edits in which no number is the largest one, a stored map is what the values
make it that were given, and without its table it is the map behind the run. Its keys stay where
they are in whatever follows, and a comparison of all its parts is one of the entries. -/
theorem stored_sound (fits : Fits edits) :
    (run edits).Represents edits ∧
    (run edits).attributes = Attributes.run edits ∧
    (∀ key, (run edits).get? key = (Attributes.run edits).get? key) ∧
    (∀ more, Fits (edits ++ more) → (run edits).keys <+: (run (edits ++ more)).keys) ∧
    ∀ others, (run edits == run others) = true ↔ (run edits).entries = (run others).entries := by
  have sound := sound_run edits
  have same := attributes_run fits
  refine ⟨represents_run fits, same, fun key => same ▸ sound.get?_eq key, fun more fits' => ?_,
    fun others => sound.beq_iff (sound_run others)⟩
  obtain ⟨later, hlater⟩ := given_prefix edits more
  rw [keys_run fits, keys_run fits', ← hlater, List.map_append, List.eraseDups_append]
  exact List.prefix_append _ _

/-- A map with numbers that are left out, keys that are given again, one that is written and one
that is not there, beside another run that comes to the same entries. -/
theorem stored_sound_rebuilt :
    let edits : List Edit := [.insert (.index 3) "d", .push "e", .insert (.name "0") "n",
      .insert (.index 3) "D", .override (.given ⟨[(.name "0", "N"), (.index 9, "x")], 10⟩),
      .push "f", .insert (.index 0) "z"]
    let others : List Edit := [.insert (.index 3) "D", .insert (.index 4) "e",
      .insert (.name "0") "N", .insert (.index 5) "f", .insert (.index 0) "z"]
    Fits edits ∧ Fits others ∧
      (run edits).keys = [.index 3, .index 4, .name "0", .index 5, .index 0] ∧
      (run edits).slots[Key.name "0"]? = some 2 ∧ (run edits).slots[Key.index 9]? = none ∧
      (run edits).next.toNat = 6 ∧ (run edits).get? (.index 3) = some "D" ∧
      (run edits).get? (.name "0") = some "N" ∧ ((run edits).push "g").1 = 6 ∧
      (run edits == run others) = true := by
  intro edits others
  have fits : Fits edits := by decide +kernel
  have fits' : Fits others := by decide +kernel
  obtain ⟨sound, same, -, -, compared⟩ := stored_sound fits
  have keys : (run edits).keys = [.index 3, .index 4, .name "0", .index 5, .index 0] := by
    rw [sound.keys]
    decide +kernel
  have number : (run edits).next.toNat = 6 := by
    change (run edits).attributes.nextIndex = 6
    rw [same]
    decide +kernel
  have entries : (run edits).entries = (run others).entries := by
    change (run edits).attributes.entries = (run others).attributes.entries
    rw [same, attributes_run fits']
    decide +kernel
  refine ⟨fits, fits', keys, ?_, ?_, number, ?_, ?_, number, (compared others).2 entries⟩
  · rw [sound.slots, keys]
    rfl
  · rw [(sound_run edits).slots_eq_none, keys]
    decide
  · rw [sound.get?]
    decide +kernel
  · rw [sound.get?]
    decide +kernel

end Stored

end Attributes

end Shortcode
