import Mathlib.Order.Lattice.Nat
import Shortcode.Engine.Basic
import Shortcode.Proofs.Engine.Names
import Shortcode.Proofs.Tag.Descent

namespace Shortcode

namespace Scanner

variable {s : Scanner} {content name : String} {p : Nat} {m : Match}

/-- UTF-8 offsets of the opening tags of a name, at all depths. -/
def offsets (s : Scanner) (content name : String) : Set Nat :=
  {b | ∃ p m, s.Visits content p m ∧ m.name = name ∧ b = (Text.Offsets.ofText content).get p}

theorem Visits.name_mem (h : s.Visits content p m) : m.name ∈ s.names := by
  obtain ⟨_, _, _, hm, _⟩ := h
  exact (liesIn_of_mem hm).name_mem

/-- The bytes of a tag are found at its offset. -/
theorem Visits.extract_eq (h : s.Visits content p m) :
    content.toUTF8.extract ((Text.Offsets.ofText content).get p)
      ((Text.Offsets.ofText content).get (p + m.tagText.length)) = m.tagText.toUTF8 := by
  have hslice : Text.slice content.toList p (p + m.tagText.length) = m.tagText.toList :=
    Text.slice_of_isPrefix h.isPrefix_drop (by rw [String.length_toList])
  rw [Text.Offsets.extract_get content (Nat.le_add_right ..), hslice, String.ofList_toList]

theorem hit_foldr (probes : List Probe) (here : Probe) :
    (probes.foldr (fun p before => before.orElse p) here).hit = true ↔
      here.hit = true ∨ ∃ p ∈ probes, p.hit = true := by
  induction probes with
  | nil => simp
  | cons p probes ih =>
    rw [List.foldr_cons, Probe.orElse, List.exists_mem_cons_iff, or_left_comm, ← ih]
    split
    · next h => simp [h]
    · next h => simp [h]

/-- A tag is hit exactly if one of its name is visited, in whatever order the texts are taken. -/
theorem hit_probe_iff (content : String) :
    (s.probe name content).hit = true ↔ ∃ p m, s.Visits content p m ∧ m.name = name := by
  rw [probe_eq, hit_foldr]
  constructor
  · rintro (h | ⟨_, hp, h⟩)
    · obtain ⟨m, hm, hname⟩ := List.any_eq_true.1 h
      exact ⟨_, m, visits_iff.2 (.inl ⟨hm, rfl⟩), of_decide_eq_true hname⟩
    · obtain ⟨m', hm', rfl⟩ := List.mem_map.1 hp
      cases hi : m'.inner with
      | none => simp [hi] at h
      | some inner =>
        rw [hi] at h
        obtain ⟨q, m, hv, hname⟩ := (hit_probe_iff inner).1 h
        exact ⟨_, m, visits_iff.2 (.inr ⟨m', hm', inner, hi, q, hv, rfl⟩), hname⟩
  · rintro ⟨p, m, hv, hname⟩
    rcases visits_iff.1 hv with ⟨hm, -⟩ | ⟨m', hm', inner, hi, q, hv, -⟩
    · exact .inl (List.any_eq_true.2 ⟨m, hm, decide_eq_true hname⟩)
    · refine .inr ⟨_, List.mem_map_of_mem hm', ?_⟩
      rw [hi]
      exact (hit_probe_iff inner).2 ⟨q, m, hv, hname⟩
termination_by content.length
decreasing_by all_goals exact length_inner_lt hm' hi

theorem offsets_nonempty_iff :
    (s.offsets content name).Nonempty ↔ ∃ p m, s.Visits content p m ∧ m.name = name := by
  constructor
  · rintro ⟨_, p, m, hv, hname, -⟩
    exact ⟨p, m, hv, hname⟩
  · rintro ⟨p, m, hv, hname⟩
    exact ⟨_, p, m, hv, hname, rfl⟩

/-- Of a list of named places, left to right, each name is kept once: a name has a place in front of
all those of the names that are listed behind it. -/
theorem pairwise_eraseDups : ∀ {l : List (Nat × String)}, (l.Pairwise fun a b => a.1 < b.1) →
    (l.map (·.2)).eraseDups.Pairwise fun a b => ∃ p, (p, a) ∈ l ∧ ∀ q, (q, b) ∈ l → p < q
  | [], _ => .nil
  | first :: rest, h => by
    obtain ⟨hfirst, hrest⟩ := List.pairwise_cons.1 h
    rw [List.map_cons, List.eraseDups_cons, List.filter_map]
    -- behind the first name the list goes on without that name
    have other {b : String} (hb : b ∈ ((rest.filter ((fun b => !b == first.2) ∘ (·.2))).map
        (·.2)).eraseDups) {q : Nat} (hq : (q, b) ∈ first :: rest) :
        (q, b) ∈ rest.filter ((fun b => !b == first.2) ∘ (·.2)) := by
      obtain ⟨v, hv, rfl⟩ := List.mem_map.1 (List.mem_eraseDups.1 hb)
      have hne := (List.mem_filter.1 hv).2
      rcases List.mem_cons.1 hq with hq | hq
      · simp [← hq] at hne
      · exact List.mem_filter.2 ⟨hq, hne⟩
    apply List.pairwise_cons.2
    constructor
    · intro b hb
      refine ⟨first.1, List.mem_cons_self, ?_⟩
      intro q hq
      exact hfirst _ (List.mem_filter.1 (other hb hq)).1
    · refine (pairwise_eraseDups (hrest.filter _)).imp_of_mem ?_
      rintro a b _ hb ⟨p, hp, hlt⟩
      refine ⟨p, List.mem_cons_of_mem _ (List.mem_filter.1 hp).1, ?_⟩
      intro q hq
      exact hlt q (other hb hq)
termination_by l => l.length
decreasing_by exact Nat.lt_succ_of_le (List.length_filter_le ..)

theorem pairwise_offsets (s : Scanner) (content : String) :
    (s.visits content).Pairwise fun a b =>
      (Text.Offsets.ofText content).get a.1 < (Text.Offsets.ofText content).get b.1 := by
  refine (s.pairwise_visits content).imp_of_mem ?_
  intro a b _ hb hab
  exact Text.Offsets.get_lt content hab (Nat.le_of_lt ((mem_visits content).1 hb).lt_length)

end Scanner

namespace Engine

theorem mem_tags (e : Engine) (content tag : String) :
    tag ∈ (e.tags content).value ↔ (e.scanner.offsets content tag).Nonempty := by
  rw [tags, List.mem_eraseDups, ← Scanner.map_visits, Scanner.offsets_nonempty_iff, List.map_map,
    List.mem_map]
  constructor
  · rintro ⟨v, hv, hname⟩
    exact ⟨v.1, v.2, (Scanner.mem_visits content).1 hv, hname⟩
  · rintro ⟨p, m, hv, hname⟩
    exact ⟨(p, m), (Scanner.mem_visits content).2 hv, hname⟩

/-- Only registered tags are looked for, and only those are ever visited. -/
theorem hasTag_iff (e : Engine) (content tag : String) :
    (e.hasTag content tag).value = true ↔ (e.scanner.offsets content tag).Nonempty := by
  rw [hasTag, Scanner.offsets_nonempty_iff]
  split
  · exact Scanner.hit_probe_iff content
  · next hc =>
    refine ⟨nofun, ?_⟩
    rintro ⟨p, m, hv, rfl⟩
    exact absurd (Bindings.contains_iff.2 hv.name_mem) hc

theorem pairwise_tags (e : Engine) (content : String) :
    (e.tags content).value.Pairwise fun a b => ∃ p q,
      IsLeast (e.scanner.offsets content a) p ∧ IsLeast (e.scanner.offsets content b) q ∧
        p < q := by
  have least {tag : String} (h : tag ∈ (e.tags content).value) :
      IsLeast (e.scanner.offsets content tag) (sInf (e.scanner.offsets content tag)) :=
    ⟨Nat.sInf_mem ((mem_tags e content tag).1 h), fun _ => Nat.sInf_le⟩
  have places : ((e.scanner.visits content).map fun v =>
      ((Text.Offsets.ofText content).get v.1, v.2.name)).Pairwise fun a b => a.1 < b.1 :=
    List.pairwise_map.2 (e.scanner.pairwise_offsets content)
  have listed := Scanner.pairwise_eraseDups places
  have names : (e.tags content).value = (((e.scanner.visits content).map fun v =>
      ((Text.Offsets.ofText content).get v.1, v.2.name)).map (·.2)).eraseDups := by
    rw [tags, ← Scanner.map_visits, List.map_map, List.map_map]
    rfl
  rw [← names] at listed
  refine listed.imp_of_mem ?_
  rintro a b ha hb ⟨p, hp, hlt⟩
  obtain ⟨v, hv, he⟩ := List.mem_map.1 hp
  cases he
  refine ⟨_, _, least ha, least hb, ?_⟩
  have hmem : (Text.Offsets.ofText content).get v.1 ∈ e.scanner.offsets content v.2.name :=
    ⟨v.1, v.2, (Scanner.mem_visits content).1 hv, rfl, rfl⟩
  obtain ⟨q, m, hq, rfl, hb'⟩ := (least hb).1
  rw [hb']
  refine Nat.lt_of_le_of_lt ((least ha).2 hmem) (hlt _ ?_)
  exact List.mem_map.2 ⟨(q, m), (Scanner.mem_visits content).2 hq, rfl⟩

/-- The two searches agree on every tag. The listing has each tag that is visited at some depth once,
in the order of the first offsets: tags are visited from left to right, each at the offset at which
its text stands. -/
theorem tags_ordered (e : Engine) (content : String) :
    (e.tags content).value.Nodup ∧
    (∀ tag, (e.hasTag content tag).value = true ↔ tag ∈ (e.tags content).value) ∧
    (∀ tag, tag ∈ (e.tags content).value ↔ (e.scanner.offsets content tag).Nonempty) ∧
    ((e.tags content).value.Pairwise fun a b => ∃ p q,
      IsLeast (e.scanner.offsets content a) p ∧ IsLeast (e.scanner.offsets content b) q ∧
        p < q) ∧
    ((e.scanner.visits content).Pairwise fun a b =>
      (Text.Offsets.ofText content).get a.1 < (Text.Offsets.ofText content).get b.1) ∧
    ∀ p m, e.scanner.Visits content p m →
      content.toUTF8.extract ((Text.Offsets.ofText content).get p)
        ((Text.Offsets.ofText content).get (p + m.tagText.length)) = m.tagText.toUTF8 := by
  refine ⟨?_, ?_, mem_tags e content, pairwise_tags e content,
    e.scanner.pairwise_offsets content, fun _ _ => Scanner.Visits.extract_eq⟩
  · refine (pairwise_tags e content).imp ?_
    rintro a _ ⟨p, q, hp, hq, hlt⟩ rfl
    exact absurd (hp.unique hq) (Nat.ne_of_lt hlt)
  · intro tag
    rw [hasTag_iff, mem_tags]

/-- A tag is listed where it first stands, at whatever depth. -/
theorem tags_ordered_nested :
    (let e : Engine := ⟨⟨[("b", fun c _ _ => pure c.tag), ("i", fun c _ _ => pure c.tag)],
        by decide, by decide⟩, .empty, false⟩
     let content := "é[i][u][b][i][/b][/i] [b]"
     (e.tags content).value = ["i", "b"] ∧ (e.hasTag content "b").value = true ∧
      (e.hasTag content "u").value = false) := by
  intro e content
  obtain ⟨-, probe, -⟩ := e.tags_ordered content
  have listed : (e.tags content).value = ["i", "b"] := by decide +kernel
  exact ⟨listed, (probe "b").2 (by rw [listed]; decide),
    Bool.eq_false_iff.2 fun h => absurd ((probe "u").1 h) (by rw [listed]; decide)⟩

end Engine

end Shortcode
