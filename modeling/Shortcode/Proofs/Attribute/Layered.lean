import Shortcode.Proofs.Attribute.Stored

namespace Shortcode.Attributes.Stored

variable {s : Stored} {a b : Written} {key : Key} {value : String} {edits : List Edit}

/-- What is built anew of the entries of the map has its keys at their places. -/
theorem Sound.entries_override (h : s.Sound) (written : Written) :
    (s.override written).entries =
      s.entries.map fun e => (e.1, (written.get? e.1).getD e.2) :=
  (Stored.entries_override s written).trans
    (Attributes.entries_override (m := s.attributes) h.nodup written)

theorem Sound.keys_override (h : s.Sound) (written : Written) :
    (s.override written).keys = s.keys := by
  rw [keys, h.entries_override, List.map_map]
  rfl

theorem Sound.next_override (h : s.Sound) (written : Written) :
    (s.override written).next = s.next := by
  rw [(sound_override s written).next, h.keys_override, h.next]

theorem Sound.override_absent (h : s.Sound) : (s.override .absent == s) = true := by
  rw [(sound_override s .absent).beq_iff h, h.entries_override]
  exact List.map_id s.entries

/-- The same layer once more changes nothing. -/
theorem Sound.override_override_self (h : s.Sound) (written : Written) :
    ((s.override written).override written == s.override written) = true := by
  have sound := sound_override s written
  rw [(sound_override _ written).beq_iff sound, sound.entries_override, h.entries_override,
    List.map_map]
  refine List.map_congr_left fun e _ => ?_
  rw [Function.comp_apply]
  cases written.get? e.1 <;> rfl

theorem Sound.get?_override (h : s.Sound) (written : Written) (key : Key) :
    (s.override written).get? key = (s.get? key).map (written.get? key).getD := by
  have entries := Stored.entries_override s written
  rw [(sound_override s written).get?_eq, h.get?_eq,
    ← Attributes.get?_override (m := s.attributes) h.nodup, Attributes.get?, attributes, entries,
    Attributes.get?]

/-- Laying written attributes over a map gives no number that was not given before. -/
theorem Fits.override (fits : Fits edits) (written : Written) :
    Fits (edits ++ [.override written]) := by
  refine fits_concat.2 ⟨fits, fun e he => ?_⟩
  obtain ⟨before, hb, hv⟩ := List.mem_filterMap.1 he
  obtain ⟨value, -, rfl⟩ := Option.map_eq_some_iff.1 hv
  exact fits before hb

/-- Written attributes that are laid over a map leave its keys, their order and its next number.
Nothing written leaves all of its parts, and so does what is laid over it already. Of two layers the
later counts where it has a value, then the earlier, then the map. With numbers that fit these maps
are what the layers make of the map without its table. -/
theorem override_layers (edits : List Edit) (a b : Written) :
    let d := run edits
    (d.override a).keys = d.keys ∧ (d.override a).next = d.next ∧
    (d.override .absent == d) = true ∧
    ((d.override a).override a == d.override a) = true ∧
    (∀ key value, d.get? key = some value → ((d.override a).override b).get? key =
      some ((b.get? key).getD ((a.get? key).getD value))) ∧
    (Fits edits →
      ((d.override a).override b).attributes =
        ((Attributes.run edits).override a).override b) := by
  intro d
  have sound : d.Sound := sound_run edits
  refine ⟨sound.keys_override a, sound.next_override a, sound.override_absent,
    sound.override_override_self a, fun key value hv => ?_, fun fits => ?_⟩
  · rw [(sound_override d a).get?_override, sound.get?_override, hv]
    rfl
  · have layered := attributes_run ((fits.override a).override b)
    rwa [run_concat, run_concat, Attributes.run_concat, Attributes.run_concat] at layered

/-- Keys out of order, a number and the name that is written like it, and a layer with a key that is
not there. -/
theorem override_layers_mixed :
    let edits : List Edit := [.insert (.index 7) "seven", .insert (.name "0") "name",
      .insert (.index 0) "zero", .insert (.name "k") "default"]
    let d := run edits
    let a : Written := .given ⟨[(.index 0, "a"), (.name "k", "a"), (.index 2, "a")], 3⟩
    let b : Written := .given ⟨[(.name "k", "b"), (.name "0", "")], 0⟩
    let layered := (d.override a).override b
    Fits edits ∧ layered.keys = [.index 7, .name "0", .index 0, .name "k"] ∧
      layered.next.toNat = 8 ∧ ((d.override a).override a == d.override a) = true ∧
      layered.get? (.index 7) = some "seven" ∧ layered.get? (.name "0") = some "" ∧
      layered.get? (.index 0) = some "a" ∧ layered.get? (.name "k") = some "b" ∧
      layered.get? (.index 2) = none := by
  intro edits d a b layered
  have fits : Fits edits := by decide +kernel
  obtain ⟨-, -, -, again, values, same⟩ := override_layers edits a b
  have same : layered.attributes = ((Attributes.run edits).override a).override b := same fits
  have sound : layered.Sound := sound_override _ b
  have get? (key : Key) (value : String) (h : (Attributes.run edits).get? key = some value) :
      layered.get? key = some ((b.get? key).getD ((a.get? key).getD value)) := by
    refine values key value ?_
    rw [(sound_run edits).get?_eq, attributes_run fits, h]
  refine ⟨fits, ?_, ?_, again, get? _ "seven" ?_, get? _ "name" ?_, get? _ "zero" ?_,
    get? _ "default" ?_, ?_⟩
  · change layered.attributes.keys = _
    rw [same]
    decide +kernel
  · change layered.attributes.nextIndex = _
    rw [same]
    decide +kernel
  any_goals decide +kernel
  rw [sound.get?_eq, same]
  decide +kernel

end Shortcode.Attributes.Stored
