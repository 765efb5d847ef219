import Shortcode.Proofs.Tag.Resolution
import Shortcode.Proofs.Tag.Restart
import Shortcode.Proofs.Tag.Shown

namespace Shortcode

namespace Tag

/-- The position lies inside an opening tag that is recorded. -/
def Pairing.Reaches {n : Nat} (s : Pairing n) (p : Nat) : Prop :=
  ∃ (j : Nat) (o : Opener), s.openers[j]? = some o ∧ o.start ≤ p ∧ p ≤ o.close.pos

section

variable (hidden : Nat → Bool) (names : List (List Char)) (text : List Char)

/-- The opener starts at a mark and has the `]` of that mark. -/
def Opener.Marked (o : Opener) : Prop :=
  ∃ k o₀, markAt hidden names text o.start = some (.opens k o₀) ∧ o.close = o₀.close

/-- What holds of the state once the marks before a position have been taken in. A guard that is
still ahead was set by an opening tag that reaches as far. -/
structure Pairing.Records (p : Nat) (s : Pairing names.length) : Prop where
  before : ∀ (j : Nat) (o : Opener), s.openers[j]? = some o → o.start < p
  marked : ∀ (j : Nat) (o : Opener), s.openers[j]? = some o → o.Marked hidden names text
  sorted : ∀ (i j : Nat) (a b : Opener), i < j → s.openers[i]? = some a → s.openers[j]? = some b →
    a.start < b.start
  guard : ∀ k q, p ≤ q → q < (s.lane k).guard → s.Reaches q
  covered : ∀ q < p, ∀ k o, markAt hidden names text q = some (.opens k o) → s.Reaches q

end

section

variable {hidden : Nat → Bool} {names : List (List Char)} {text : List Char} {p : Nat}
  {s : Pairing names.length}

theorem Pairing.Reaches.closeTag {q : Nat} (h : s.Reaches q) (k : Fin names.length) (c : Closer) :
    (s.closeTag k c).Reaches q := by
  obtain ⟨j, o, ho, hr⟩ := h
  rw [Reaches]
  by_cases ht : (s.lane k).waiting.head? = some j
  · exact ⟨j, { o with closer := some c }, by rw [getElem?_closeTag, if_pos ht, ho]; rfl, hr⟩
  · exact ⟨j, o, by rw [getElem?_closeTag, if_neg ht, ho], hr⟩

theorem Pairing.Reaches.openTag {q : Nat} (h : s.Reaches q) (k : Fin names.length) (o : Opener) :
    (s.openTag k o).Reaches q := by
  obtain ⟨j, o', ho, hr⟩ := h
  exact ⟨j, o', s.getElem?_openTag_of_some k o ho, hr⟩

/-- A closing tag changes no opener but for its closer. -/
theorem Pairing.exists_of_closeTag {k : Fin names.length} {c : Closer} {j : Nat} {o : Opener}
    (h : (s.closeTag k c).openers[j]? = some o) :
    ∃ o', s.openers[j]? = some o' ∧ o.start = o'.start ∧ o.close = o'.close := by
  rw [getElem?_closeTag] at h
  split at h
  · obtain ⟨o', ho, rfl⟩ := Option.map_eq_some_iff.1 h
    exact ⟨o', ho, rfl, rfl⟩
  · exact ⟨o, h, rfl, rfl⟩

theorem Pairing.Records.closeTag (h : s.Records hidden names text p) (k : Fin names.length)
    (c : Closer) : (s.closeTag k c).Records hidden names text p where
  before j o ho := by
    obtain ⟨o', ho', hs, -⟩ := exists_of_closeTag ho
    rw [hs]
    exact h.before j o' ho'
  marked j o ho := by
    obtain ⟨o', ho', hs, hc⟩ := exists_of_closeTag ho
    rw [Opener.Marked, hs, hc]
    exact h.marked j o' ho'
  sorted i j a b hij ha hb := by
    obtain ⟨a', ha', hsa, -⟩ := exists_of_closeTag ha
    obtain ⟨b', hb', hsb, -⟩ := exists_of_closeTag hb
    rw [hsa, hsb]
    exact h.sorted i j a' b' hij ha' hb'
  guard i q hpq hq := by
    rw [guard_closeTag] at hq
    exact (h.guard i q hpq hq).closeTag k c
  covered q hq i o hm := (h.covered q hq i o hm).closeTag k c

/-- An opening tag that is recorded reaches from its own position to its `]`. -/
theorem Pairing.reaches_openTag {o : Opener} (k : Fin names.length) {q : Nat} (hs : o.start ≤ q)
    (hq : q ≤ o.close.pos) : (s.openTag k o).Reaches q :=
  ⟨s.openers.size, o, by rw [getElem?_openTag, if_pos rfl], hs, hq⟩

theorem Pairing.Records.openTag (h : s.Records hidden names text p) {k : Fin names.length}
    {o : Opener} (hm : markAt hidden names text p = some (.opens k o)) :
    (s.openTag k o).Records hidden names text (p + 1) := by
  have hstart := (markAt_opens hm).1
  have hclose : p ≤ o.close.pos := by
    have := o.start_lt_nameEnd
    have := o.nameEnd_le_close
    omega
  refine ⟨?_, ?_, ?_, ?_, ?_⟩
  · intro j o' ho
    rcases s.getElem?_openTag_eq_some k _ ho with ho | ⟨-, rfl⟩
    · exact Nat.lt_succ_of_lt (h.before j o' ho)
    · exact Nat.lt_succ_of_le (Nat.le_of_eq hstart)
  · intro j o' ho
    rcases s.getElem?_openTag_eq_some k _ ho with ho | ⟨-, rfl⟩
    · exact h.marked j o' ho
    · exact ⟨k, o', hstart ▸ hm, rfl⟩
  · intro i j a b hij ha hb
    rcases s.getElem?_openTag_eq_some k _ ha with ha' | ⟨hi, -⟩
    · rcases s.getElem?_openTag_eq_some k _ hb with hb' | ⟨-, hb'⟩
      · exact h.sorted i j a b hij ha' hb'
      · rw [hb', hstart]
        exact h.before i a ha'
    · have := (Array.getElem?_eq_some_iff.1 hb).1
      rw [size_openTag] at this
      omega
  · intro i q hpq hq
    rw [lanes_openTag] at hq
    split at hq
    · exact reaches_openTag k (by omega) (Nat.le_of_lt_succ hq)
    · exact (h.guard i q (Nat.le_of_succ_le hpq) hq).openTag k o
  · intro q hq i o' hm'
    rcases Nat.lt_or_eq_of_le (Nat.le_of_lt_succ hq) with hq | rfl
    · exact (h.covered q hq i o' hm').openTag k o
    · exact reaches_openTag k (Nat.le_of_eq hstart) hclose

/-- A position that opens no tag, or only one inside a tag that has opened before it, changes
nothing. -/
theorem Pairing.Records.skip (h : s.Records hidden names text p)
    (hp : ∀ k o, markAt hidden names text p = some (.opens k o) → s.Reaches p) :
    s.Records hidden names text (p + 1) where
  before j o ho := Nat.lt_succ_of_lt (h.before j o ho)
  marked := h.marked
  sorted := h.sorted
  guard k q hpq hq := h.guard k q (Nat.le_of_succ_le hpq) hq
  covered q hq k o hm := by
    rcases Nat.lt_or_eq_of_le (Nat.le_of_lt_succ hq) with hq | rfl
    · exact h.covered q hq k o hm
    · exact hp k o hm

theorem Pairing.Records.step (h : s.Records hidden names text p) :
    (runAt hidden names text s [p]).Records hidden names text (p + 1) := by
  cases hm : markAt hidden names text p with
  | none =>
    rw [runAt_cons_none hm]
    exact h.skip fun k o ho => nomatch hm.symm.trans ho
  | some m =>
    rw [runAt_cons_some hm]
    cases m with
    | closes k c =>
      have only (s' : Pairing names.length) (h' : s'.Records hidden names text p) :
          s'.Records hidden names text (p + 1) := h'.skip fun k o ho => nomatch hm.symm.trans ho
      change (s.mark (.closes k c)).Records hidden names text (p + 1)
      rw [Pairing.mark]
      split
      · exact only s h
      · exact only _ (h.closeTag k c)
    | opens k o =>
      have hstart := (markAt_opens hm).1
      change (s.mark (.opens k o)).Records hidden names text (p + 1)
      rw [Pairing.mark]
      split
      · next hg => exact h.skip fun _ _ _ => h.guard k p (Nat.le_refl p) (hstart ▸ hg)
      · exact h.openTag hm

theorem Pairing.Records.start (hidden : Nat → Bool) (names : List (List Char))
    (text : List Char) : (Pairing.start names.length []).Records hidden names text 0 where
  before j o ho := by simp [Pairing.start] at ho
  marked j o ho := by simp [Pairing.start] at ho
  sorted i j a b _ ha := by simp [Pairing.start] at ha
  guard k q _ hq := by simp at hq
  covered q hq := absurd hq (Nat.not_lt_zero q)

theorem Pairing.Records.range (hidden : Nat → Bool) (names : List (List Char))
    (text : List Char) (p : Nat) :
    (runAt hidden names text (.start names.length []) (List.range p)).Records hidden names text
      p := by
  induction p with
  | zero => exact Records.start hidden names text
  | succ p ih =>
    rw [List.range_succ, runAt_append]
    exact ih.step

theorem pairwise_openersOf (hidden : Nat → Bool) (names : List (List Char)) (text : List Char) :
    (openersOf hidden names text).Pairwise fun a b => a.start < b.start := by
  have h := Pairing.Records.range hidden names text text.length
  apply List.pairwise_iff_getElem.2
  intro i j hi hj hij
  apply h.sorted i j _ _ hij
  · rw [← Array.getElem?_toList]
    exact List.getElem?_eq_getElem hi
  · rw [← Array.getElem?_toList]
    exact List.getElem?_eq_getElem hj

theorem marked_of_mem_openersOf {o : Opener} (ho : o ∈ openersOf hidden names text) :
    o.Marked hidden names text := by
  obtain ⟨j, hj⟩ := List.mem_iff_getElem?.1 ho
  exact (Pairing.Records.range hidden names text text.length).marked j o
    (by rwa [← Array.getElem?_toList])

/-- A tag that opens lies inside a recorded one. -/
theorem exists_mem_openersOf {k : Fin names.length} {o : Opener}
    (hm : markAt hidden names text p = some (.opens k o)) :
    ∃ o' ∈ openersOf hidden names text, o'.start ≤ p ∧ p ≤ o'.close.pos := by
  obtain ⟨hstart, -, hreads, -⟩ := markAt_opens hm
  have hlt := (List.getElem?_eq_some_iff.1 hreads.getElem?_start).1
  obtain ⟨j, o', ho, hr⟩ := (Pairing.Records.range hidden names text text.length).covered p
    (hstart ▸ hlt) k o hm
  refine ⟨o', List.mem_iff_getElem?.2 ⟨j, ?_⟩, hr⟩
  rwa [openersOf, Array.getElem?_toList]

/-- Every opener behind the cursor lies inside a match, with the whole of its opening tag. -/
theorem exists_match_of_mem (hh : Html.Delimited hidden text) (hv : Valid names)
    {openers : List Opener} (hf : ∀ o ∈ openers, ∃ k, o.Fits hidden names text k)
    (ho : openers.Pairwise fun a b => a.start < b.start)
    (hm : ∀ o ∈ openers, o.Marked hidden names text) (cursor : Nat) {o : Opener}
    (hmem : o ∈ openers) (hc : cursor ≤ o.start) :
    ∃ m ∈ matchesFrom cursor (text.drop cursor) openers,
      m.start ≤ o.start ∧ o.close.pos < m.stop := by
  induction openers generalizing cursor with
  | nil => cases hmem
  | cons first openers ih =>
    obtain ⟨⟨k, hk⟩, hf⟩ := List.forall_mem_cons.1 hf
    obtain ⟨hfirst, ho⟩ := List.pairwise_cons.1 ho
    obtain ⟨-, hms⟩ := List.forall_mem_cons.1 hm
    by_cases hlt : first.start < cursor
    · rw [matchesFrom_cons_of_lt _ _ hlt]
      rcases List.mem_cons.1 hmem with rfl | hmem
      · exact absurd hc (Nat.not_le_of_lt hlt)
      · exact ih hf ho hms cursor hmem hc
    · have hle := Nat.le_of_not_lt hlt
      have hstart : (first.toMatch cursor (text.drop cursor)).start ≤ first.start := Nat.sub_le _ _
      rw [hk.matchesFrom_cons hle]
      by_cases hin : o.start < (first.toMatch cursor (text.drop cursor)).stop
      · refine ⟨_, List.mem_cons_self, ?_, ?_⟩
        · rcases List.mem_cons.1 hmem with rfl | hmem
          · exact hstart
          · exact Nat.le_trans hstart (Nat.le_of_lt (hfirst o hmem))
        · obtain ⟨k₀, o₀, hmark, hclose⟩ := hm o hmem
          have hpos := Nat.zero_lt_of_lt (hk.stop_toMatch hle).1
          have seam := seam_of_bracket hv (hk.shows_stop_toMatch hh hv hle)
          rw [Nat.sub_add_cancel hpos] at seam
          rw [hclose]
          exact seam.closed o.start hin k₀ o₀ hmark
      · have hne : o ≠ first := by
          rintro rfl
          exact hin (hk.stop_toMatch hle).1
        have hmem := (List.mem_cons.1 hmem).resolve_left hne
        obtain ⟨m, hm', hr⟩ := ih hf ho hms _ hmem (Nat.le_of_not_lt hin)
        exact ⟨m, List.mem_cons_of_mem _ hm', hr⟩

end

end Tag

namespace Scanner

/-- A tag can be read at the position: a name stands behind a `[`, and a `]` further on. -/
structure Recognizes (s : Scanner) (text : List Char) (p : Nat) : Prop where
  shown : Tag.shows (s.hidden text) text '[' p = true
  exists_name : ∃ name ∈ s.names, Tag.Named text p name ∧
    ∃ q, p + 1 + name.length ≤ q ∧ Tag.shows (s.hidden text) text ']' q = true

variable {s : Scanner}

theorem exists_markAt (hv : ∀ name ∈ s.names, Tag.validateName name = .ok ())
    (hd : s.names.Nodup) {text : List Char} {p : Nat} (h : s.Recognizes text p) :
    ∃ k o, Tag.markAt (s.hidden text) (s.names.map String.toList) text p = some (.opens k o) := by
  obtain ⟨name, hname, hnamed, q, hq, hclose⟩ := h.exists_name
  have valid := Tag.valid_of_validateName hv
  have some_fits : ((s.names.map String.toList).findFinIdx?
      (Tag.opens (text.drop (p + 1)))).isSome = true := by
    rw [List.isSome_findFinIdx?]
    exact List.any_eq_true.2
      ⟨name.toList, List.mem_map_of_mem hname, Tag.named_iff_opens.1 hnamed⟩
  obtain ⟨k, hk⟩ := Option.isSome_iff_exists.1 some_fits
  have hprefix := Tag.isPrefix_of_opens (Tag.get_of_findFinIdx? hk)
  -- the `]` is no character of a name, so it stands behind every name that can be read here
  have hend : p + 1 + ((s.names.map String.toList).get k).length ≤ q :=
    Tag.name_end_le (valid _ (List.get_mem _ k)).2 hprefix (by omega)
      (Tag.shows_iff.1 hclose).1 rfl
  have hfound : (Tag.closeFrom? (s.hidden text) text
      (p + 1 + ((s.names.map String.toList).get k).length)).isSome = true := by
    rw [Tag.closeFrom?, List.find?_isSome]
    have hlt := (List.getElem?_eq_some_iff.1 (Tag.shows_iff.1 hclose).1).1
    exact ⟨q, List.mem_range.2 hlt, Bool.and_eq_true_iff.2 ⟨decide_eq_true hend, hclose⟩⟩
  obtain ⟨close, hc⟩ := Option.isSome_iff_exists.1 hfound
  have hopens : Tag.opensTag? (s.hidden text) (s.names.map String.toList) text
      ((s.names.map String.toList).get k) p = some close := by
    rw [Tag.opensTag?, if_pos, hc]
    rw [List.find?_eq_map_findFinIdx?_getElem, hk]
    simp [h.shown]
  exact ⟨k, Tag.markAt_of_opensTag? valid (nodup_toList hd) hopens⟩

/-- With valid names a place at which a tag can be read lies in a match. -/
theorem exists_match_of_recognizes (hv : ∀ name ∈ s.names, Tag.validateName name = .ok ())
    (hd : s.names.Nodup) {content : String} {p : Nat} (hp : s.Recognizes content.toList p) :
    ∃ m ∈ (s.scan content).found, m.start ≤ p ∧ p < m.stop := by
  obtain ⟨k, o, hm⟩ := exists_markAt hv hd hp
  obtain ⟨o', ho, hstart, hclose⟩ := Tag.exists_mem_openersOf hm
  obtain ⟨m, hmem, hm⟩ := Tag.exists_match_of_mem (s.delimited_hidden content.toList)
    (Tag.valid_of_validateName hv) (fun o => fits_of_mem_openersOf hv)
    (Tag.pairwise_openersOf _ _ _) (fun o => Tag.marked_of_mem_openersOf) 0 ho (Nat.zero_le _)
  rw [List.drop_zero, ← scan_found_eq hv] at hmem
  exact ⟨m, hmem, by omega, by omega⟩

/-- Whatever the names are, a tag can be read where a match says that its tag begins. -/
theorem recognizes_of_mem {content : String} {m : Match} (hm : m ∈ (s.scan content).found) :
    s.Recognizes content.toList m.tagStart := by
  obtain ⟨k, o, i, -, fits, hi, rfl⟩ := exists_opener_of_mem hm
  obtain ⟨name, hname, he⟩ := List.mem_map.1 (List.get_mem (s.names.map String.toList) k)
  have hend := o.nameEnd_le_close
  rw [fits.reads.nameEnd, ← he, String.length_toList] at hend
  rw [(fits.start_toMatch hi).2]
  refine ⟨fits.reads.shown, name, hname, ?_, o.close.pos, hend, fits.reads.shows_close⟩
  apply Tag.named_iff_opens.2
  rw [he]
  exact Tag.get_of_findFinIdx? fits.reads.name

/-- The name of a match is the longest that can be read where its tag begins. -/
theorem resolves_of_mem (hl : s.names.Pairwise fun a b => b.utf8ByteSize ≤ a.utf8ByteSize)
    {content : String} {m : Match} (hm : m ∈ (s.scan content).found) :
    Tag.Resolves s.names content.toList m.tagStart m.name := by
  obtain ⟨k, o, i, -, fits, hi, rfl⟩ := exists_opener_of_mem hm
  rw [(fits.start_toMatch hi).2, fits.name_toMatch hi]
  exact Tag.resolves_of_findFinIdx? hl fits.reads.name

/-- With valid names, longest first, every place at which a tag can be read lies in a match. Each
match begins with such a place, and its name is the longest that can be read there. -/
theorem scan_covers (hv : ∀ name ∈ s.names, Tag.validateName name = .ok ())
    (hd : s.names.Nodup) (hl : s.names.Pairwise fun a b => b.utf8ByteSize ≤ a.utf8ByteSize)
    (content : String) :
    (∀ p, s.Recognizes content.toList p →
      ∃ m ∈ (s.scan content).found, m.start ≤ p ∧ p < m.stop) ∧
    ∀ m ∈ (s.scan content).found, s.Recognizes content.toList m.tagStart ∧
      Tag.Resolves s.names content.toList m.tagStart m.name :=
  ⟨fun _ => exists_match_of_recognizes hv hd,
    fun _ hm => ⟨recognizes_of_mem hm, resolves_of_mem hl hm⟩⟩

/-- The opening tag at 7 runs on to the `]` at 16 and hides two more, one of its own name. -/
theorem scan_covers_inside :
    (let s : Scanner := ⟨["ab", "a"], true⟩
     let content := "<i [a]>[a [a [ab]x[/a]"
     (∀ name ∈ s.names, Tag.validateName name = .ok ()) ∧ s.names.Nodup ∧
      (s.names.Pairwise fun a b => b.utf8ByteSize ≤ a.utf8ByteSize) ∧
      (∀ p ∈ [10, 13], s.Recognizes content.toList p ∧
        ∃ m ∈ (s.scan content).found, m.start ≤ p ∧ p < m.stop) ∧
      ¬ s.Recognizes content.toList 3 ∧
      ∀ m ∈ (s.scan content).found, s.Recognizes content.toList m.tagStart ∧
        Tag.Resolves s.names content.toList m.tagStart m.name) := by
  have valid : ∀ name ∈ ["ab", "a"], Tag.validateName name = .ok () := by
    intro name h
    rcases List.mem_pair.1 h with rfl | rfl <;> rfl
  have sorted : ["ab", "a"].Pairwise fun a b => b.utf8ByteSize ≤ a.utf8ByteSize := by decide
  intro s content
  have covers := scan_covers (s := s) valid (by decide) sorted content
  have plain : ¬ s.Recognizes content.toList 3 := by
    intro h
    have hidden : Tag.shows (s.hidden content.toList) content.toList '[' 3 = false := by
      decide +kernel
    rw [h.shown] at hidden
    cases hidden
  have second : s.Recognizes content.toList 10 :=
    ⟨by decide +kernel, "a", by decide, ⟨" [ab]x[/a]".toList, by decide +kernel, fun | _, rfl => rfl⟩,
      16, by decide, by decide +kernel⟩
  have third : s.Recognizes content.toList 13 :=
    ⟨by decide +kernel, "ab", by decide, ⟨"]x[/a]".toList, by decide +kernel, fun | _, rfl => rfl⟩,
      16, by decide, by decide +kernel⟩
  refine ⟨valid, by decide, sorted, ?_, plain, covers.2⟩
  intro p hp
  rcases List.mem_pair.1 hp with rfl | rfl
  · exact ⟨second, covers.1 10 second⟩
  · exact ⟨third, covers.1 13 third⟩

end Scanner

end Shortcode
