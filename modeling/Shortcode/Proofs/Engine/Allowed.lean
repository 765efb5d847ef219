import Shortcode.Proofs.Engine.Strip
import Shortcode.Proofs.Tag.Coverage

namespace Shortcode

namespace Scanner

variable {s : Scanner} {content : String} {m : Match}

theorem brackets_of_mem (hm : m ∈ (s.scan content).found) :
    content.toList[m.start]? = some '[' ∧ content.toList[m.tagStart]? = some '[' ∧
      content.toList[m.stop - 1]? = some ']' := by
  obtain ⟨k, o, i, -, h, hi, rfl⟩ := exists_opener_of_mem hm
  refine ⟨?_, ?_, h.getElem?_stop_toMatch hi⟩
  · exact (Tag.shows_iff.1 (h.shows_start_toMatch (s.delimited_hidden _) hi)).1
  · rw [(h.start_toMatch hi).2]
    exact h.reads.getElem?_start

/-- A `[` with a name behind it is no escape bracket, so inside a match it belongs to the tag. -/
theorem tagStart_le_of_named (hm : m ∈ (s.scan content).found) {p : Nat} {name : String}
    (hv : Tag.validateName name = .ok ()) (hb : content.toList[p]? = some '[')
    (hn : Tag.Named content.toList p name) (hstart : m.start ≤ p) (hstop : p < m.stop) :
    m.tagStart ≤ p ∧ p < m.tagStop := by
  obtain ⟨-, hopen, hclose⟩ := brackets_of_mem hm
  obtain ⟨hne, hplain⟩ := Tag.plain_of_validateName hv
  constructor
  · by_contra hlt
    have hlead : m.tagStart = p + 1 := by
      have := m.lead.toNat_le
      rw [Match.tagStart] at hlt ⊢
      omega
    rw [hlead] at hopen
    have hend := Tag.name_end_le hplain hn.isPrefix_drop (Nat.le_refl _) hopen rfl
    have := List.length_pos_iff.2 hne
    omega
  · by_contra hge
    have htrail : m.stop - 1 = p := by
      have := m.trail.toNat_le
      rw [Match.tagStop] at hge
      omega
    rw [htrail, hb] at hclose
    cases hclose

end Scanner

namespace Tag

def bare (name : String) : String := "[" ++ name ++ "]"

variable {a b : String} {rest : List Char}

theorem toList_bare (name : String) : (bare name).toList = '[' :: (name.toList ++ [']']) := by
  simp [bare]

theorem getElem?_bare (name : String) :
    (bare name).toList[0]? = some '[' ∧ (bare name).toList[1 + name.length]? = some ']' := by
  rw [toList_bare, Nat.add_comm, ← String.length_toList]
  exact ⟨rfl, List.getElem?_concat_length⟩

theorem named_bare (h : b.toList = a.toList ++ rest)
    (hc : ∀ c, rest.head? = some c → continuesName c = false) : Named (bare b).toList 0 a := by
  refine ⟨rest ++ [']'], ?_, ?_⟩
  · rw [toList_bare, h, List.append_assoc]
    rfl
  · intro c hhead
    cases rest with
    | nil =>
      cases hhead
      rfl
    | cons d rest => exact hc c hhead

end Tag

theorem Scanner.recognizes_bare {s : Scanner} {a b : String} {rest : List Char} (ha : a ∈ s.names)
    (hb : Tag.validateName b = .ok ()) (h : b.toList = a.toList ++ rest)
    (hc : ∀ c, rest.head? = some c → Tag.continuesName c = false) :
    s.Recognizes (Tag.bare b).toList 0 := by
  obtain ⟨hopen, hclose⟩ := Tag.getElem?_bare b
  have plain : '<' ∉ (Tag.bare b).toList := by
    intro hm
    rw [Tag.toList_bare, List.mem_cons, List.mem_append, List.mem_singleton] at hm
    rcases hm with hm | hm | hm
    · cases hm
    · cases (Tag.plain_of_validateName hb).2 _ hm
    · cases hm
  have hle : a.length ≤ b.length := by
    rw [← String.length_toList, ← String.length_toList, h, List.length_append]
    exact Nat.le_add_right _ _
  exact {
    shown := Tag.shows_iff.2 ⟨hopen, hidden_eq_false plain 0⟩
    exists_name := ⟨a, ha, Tag.named_bare h hc, 1 + b.length, by omega,
      Tag.shows_iff.2 ⟨hclose, hidden_eq_false plain _⟩⟩ }

namespace Engine

variable {e : Engine} {allowed : List String} {content : String}

/-- The tags that `strip` takes out, or frees of their escape brackets. -/
def stripped (e : Engine) (content : String) (allowed : Option (List String)) : List Match :=
  (Scanner.scan ⟨e.strippedNames content allowed, e.ignoreHtml⟩ content).found

/-- What is stripped from the text are tags of the list as the engine reads the text, and the `[` of
a tag of another name is written out again unless it lies inside one of them. -/
structure StripsWithin (e : Engine) (allowed : List String) (content : String) : Prop where
  removed : ∀ m ∈ e.stripped content (some allowed), m.name ∈ allowed ∧
    Tag.Resolves e.handlers.names content.toList m.tagStart m.name
  kept : ∀ p name, e.scanner.Recognizes content.toList p →
    Tag.Resolves e.handlers.names content.toList p name → name ∉ allowed →
    ∀ m ∈ e.stripped content (some allowed),
      p < m.start ∨ m.stop ≤ p ∨ m.tagStart < p ∧ p < m.tagStop

/-- Where a name of the list begins another registered name, the name goes on in the text. -/
def Separates (e : Engine) (allowed : List String) : Prop :=
  ∀ a ∈ e.handlers.names, a ∈ allowed → ∀ b ∈ e.handlers.names, b ∉ allowed →
    ∀ c rest, b.toList = a.toList ++ c :: rest → Tag.continuesName c = true

theorem mem_strippedNames_some (hooks : e.hooks.stripping = .empty) {name : String} :
    name ∈ e.strippedNames content (some allowed) ↔
      name ∈ e.handlers.names ∧ name ∈ allowed := by
  rw [mem_strippedNames hooks]
  apply and_congr_right
  intro _
  simp [Requested]

theorem stripped_covers (hooks : e.hooks.stripping = .empty) (allowed : List String)
    (content : String) :
    (∀ p, (Scanner.mk (e.strippedNames content (some allowed)) e.ignoreHtml).Recognizes
        content.toList p →
      ∃ m ∈ e.stripped content (some allowed), m.start ≤ p ∧ p < m.stop) ∧
    ∀ m ∈ e.stripped content (some allowed),
      Tag.Resolves (e.strippedNames content (some allowed)) content.toList m.tagStart m.name := by
  have ordered := e.ordered_strippedNames content (some allowed)
  have valid : ∀ name ∈ e.strippedNames content (some allowed),
      Tag.validateName name = .ok () := by
    intro name h
    exact Bindings.validateName_of_mem_names ((mem_strippedNames_some hooks).1 h).1
  exact ⟨fun _ => Scanner.exists_match_of_recognizes valid (Tag.nodup_of_precedes ordered),
    fun _ => Scanner.resolves_of_mem (Tag.size_of_precedes ordered)⟩

/-- If the names are kept apart, the longest name of the list is the longest of all. -/
theorem Separates.resolves (h : e.Separates allowed) (hooks : e.hooks.stripping = .empty)
    {text : List Char} {p : Nat} {name : String}
    (hr : Tag.Resolves (e.strippedNames content (some allowed)) text p name) :
    Tag.Resolves e.handlers.names text p name := by
  obtain ⟨hname, hallowed⟩ := (mem_strippedNames_some hooks).1 hr.mem
  refine ⟨hname, hr.named, ?_⟩
  intro other hother hnamed hne
  by_cases hin : other ∈ allowed
  · exact hr.longest other ((mem_strippedNames_some hooks).2 ⟨hother, hin⟩) hnamed hne
  · by_contra hsize
    obtain ⟨more, hmore⟩ := hr.named.isPrefix hnamed (Nat.le_of_not_lt hsize)
    cases more with
    | nil =>
      rw [List.append_nil] at hmore
      exact hne (String.toList_injective hmore.symm)
    | cons c rest =>
      -- the other name says which character follows the shorter one in the text
      have hc := h name hname hallowed other hother hin c rest hmore.symm
      obtain ⟨after, htext, hafter⟩ := hr.named
      obtain ⟨after', htext', -⟩ := hnamed
      rw [htext', ← hmore, List.append_assoc, List.append_cancel_left_eq] at htext
      rw [← htext] at hafter
      rw [hafter c rfl] at hc
      cases hc

theorem Separates.stripsWithin (h : e.Separates allowed) (hooks : e.hooks.stripping = .empty)
    (content : String) : e.StripsWithin allowed content := by
  have resolves : ∀ m ∈ e.stripped content (some allowed), m.name ∈ allowed ∧
      Tag.Resolves e.handlers.names content.toList m.tagStart m.name := by
    intro m hm
    have hr := (stripped_covers hooks allowed content).2 m hm
    exact ⟨((mem_strippedNames_some hooks).1 hr.mem).2, h.resolves hooks hr⟩
  refine ⟨resolves, ?_⟩
  intro p name hrec hres hname m hm
  by_cases hin : m.start ≤ p ∧ p < m.stop
  · obtain ⟨hle, hlt⟩ := Scanner.tagStart_le_of_named hm
      (Bindings.validateName_of_mem_names hres.mem) (Tag.shows_iff.1 hrec.shown).1 hres.named
      hin.1 hin.2
    refine .inr (.inr ⟨Nat.lt_of_le_of_ne hle ?_, hlt⟩)
    rintro rfl
    obtain ⟨hallowed, hr⟩ := resolves m hm
    exact hname (hr.eq hres ▸ hallowed)
  · omega

/-- The bare tag of the longer name tells whether the names are kept apart. -/
theorem separates_of_stripsWithin (hooks : e.hooks.stripping = .empty)
    (h : ∀ content, e.StripsWithin allowed content) : e.Separates allowed := by
  intro a ha hallowed b hb hother c rest hbc
  by_contra hc
  have valid := Bindings.validateName_of_mem_names hb
  have hread : (Scanner.mk (e.strippedNames (Tag.bare b) (some allowed)) e.ignoreHtml).Recognizes
      (Tag.bare b).toList 0 := by
    refine Scanner.recognizes_bare ((mem_strippedNames_some hooks).2 ⟨ha, hallowed⟩) valid hbc ?_
    rintro _ ⟨⟩
    exact Bool.eq_false_iff.2 hc
  obtain ⟨m, hm, hstart, hstop⟩ := (stripped_covers hooks allowed (Tag.bare b)).1 0 hread
  obtain ⟨hin, hr⟩ := (h (Tag.bare b)).removed m hm
  have hnamed : Tag.Named (Tag.bare b).toList 0 b :=
    Tag.named_bare (List.append_nil _).symm nofun
  have hzero : m.tagStart = 0 := Nat.le_zero.1
    (Scanner.tagStart_le_of_named hm valid (Tag.getElem?_bare b).1 hnamed hstart hstop).1
  rw [hzero] at hr
  have hne : b ≠ m.name := fun he => hother (he ▸ hin)
  have hsize := hr.longest b hb hnamed hne
  -- the `]` behind the longer name ends whatever is read at the `[`
  have hplain := Tag.plain_of_validateName (Bindings.validateName_of_mem_names hr.mem)
  have hend := Tag.name_end_le hplain.2 hr.named.isPrefix_drop (by omega)
    (Tag.getElem?_bare b).2 rfl
  have hprefix := hnamed.isPrefix hr.named (Nat.le_of_lt hsize)
  apply hne
  apply String.toList_injective
  apply hprefix.eq_of_length_le
  rw [String.length_toList (s := b)]
  omega

/-- Without callbacks for it, stripping with a list keeps to the tags of the list on every text
exactly if the names are kept apart. -/
theorem strip_within_iff (hooks : e.hooks.stripping = .empty) (allowed : List String) :
    (∀ content, (e.strip content (some allowed)).value =
      Text.splice content ((e.stripped content (some allowed)).map (·.edit ""))) ∧
    ((∀ content, e.StripsWithin allowed content) ↔ e.Separates allowed) :=
  ⟨fun _ => rfl, separates_of_stripsWithin hooks, fun h => h.stripsWithin hooks⟩

/-- A name that goes on with a letter is kept apart from the one it begins with. -/
theorem strip_within_letter :
    (let e : Engine := ⟨⟨[("ab", fun c _ _ => pure c.tag), ("a", fun c _ _ => pure c.tag)],
        by decide, by decide⟩, .empty, true⟩
     e.hooks.stripping = .empty ∧ (∀ content, e.StripsWithin ["a"] content) ∧
      (e.strip "[a] [ab] <i [a]>" (some ["a"])).value = " [ab] <i [a]>") := by
  intro e
  have separates : e.Separates ["a"] := by
    intro a _ ha b hb hother c rest hbc
    rw [List.mem_singleton.1 ha] at hbc
    rcases List.mem_pair.1 hb with rfl | rfl
    · cases hbc
      rfl
    · cases hbc
  exact ⟨rfl, (strip_within_iff rfl ["a"]).2.2 separates, by decide +kernel⟩

/-- A name that goes on with a dot is not: its tag is taken for one of the shorter name. -/
theorem strip_beyond_dot :
    (let e : Engine := ⟨⟨[("a.b", fun c _ _ => pure c.tag), ("a", fun c _ _ => pure c.tag)],
        by decide, by decide⟩, .empty, false⟩
     e.hooks.stripping = .empty ∧ (e.strip "[a.b]" (some ["a"])).value = "" ∧
      Tag.Resolves e.handlers.names "[a.b]".toList 0 "a.b" ∧
      ¬ e.StripsWithin ["a"] "[a.b]") := by
  intro e
  have found : e.stripped "[a.b]" (some ["a"]) =
      [⟨false, "a", ".b", false, none, false, 0, 5⟩] := by decide +kernel
  have hnamed : Tag.Named "[a.b]".toList 0 "a.b" :=
    ⟨"]".toList, by decide +kernel, fun | _, rfl => rfl⟩
  have hresolves : Tag.Resolves e.handlers.names "[a.b]".toList 0 "a.b" := by
    refine ⟨by decide, hnamed, ?_⟩
    intro other hother _ hne
    rcases List.mem_pair.1 hother with rfl | rfl
    · exact absurd rfl hne
    · decide
  refine ⟨rfl, by decide +kernel, hresolves, ?_⟩
  intro h
  obtain ⟨-, hr⟩ := h.removed _ (found ▸ List.mem_singleton_self _)
  have same := hr.eq hresolves
  simp at same

end Engine

end Shortcode
