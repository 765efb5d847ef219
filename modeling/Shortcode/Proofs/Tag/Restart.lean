import Shortcode.Proofs.Tag.Cut
import Shortcode.Proofs.Tag.Enclosed

namespace Shortcode.Tag

/-- Behind position `p` the state `s`, which has recorded `old` openers before `p`, agrees with the
state `s'` of a pass that began at `p`. It holds much that comes from before `p`, but a guard that
ends there is no guard, and openers from there wait below all others. -/
structure Pairing.Resumes {n : Nat} (p old : Nat) (s s' : Pairing n) : Prop where
  guard : ∀ k : Fin n, max (s.lane k).guard p = p + (s'.lane k).guard
  waiting : ∀ k : Fin n, ∃ below,
    (s.lane k).waiting = (s'.lane k).waiting.map (old + ·) ++ below ∧ ∀ j ∈ below, j < old
  size : s.openers.size = old + s'.openers.size
  before : ∀ j < old, ∃ o : Opener, s.openers[j]? = some o ∧ o.start < p
  behind : ∀ j, s.openers[old + j]? = s'.openers[j]?.map (Opener.shift p)

/-- Nothing in the state points behind position `p`. -/
structure Pairing.EndsBy {n : Nat} (p : Nat) (s : Pairing n) : Prop where
  guard : ∀ k : Fin n, (s.lane k).guard ≤ p
  openers : ∀ (j : Nat) (o : Opener), s.openers[j]? = some o → o.start < p

namespace Pairing

variable {n p old : Nat} {s s' : Pairing n}

theorem EndsBy.mark (h : s.EndsBy p) {m : Mark n}
    (hm : ∀ k o, m = .opens k o → o.start < p ∧ o.close.pos < p) : (s.mark m).EndsBy p := by
  cases m with
  | closes k c =>
    rw [Pairing.mark]
    split
    · exact h
    · constructor
      · intro i
        rw [guard_closeTag]
        exact h.guard i
      · intro j o ho
        rw [getElem?_closeTag] at ho
        split at ho
        · obtain ⟨o', ho', rfl⟩ := Option.map_eq_some_iff.1 ho
          exact h.openers j o' ho'
        · exact h.openers j o ho
  | opens k o =>
    obtain ⟨hstart, hclose⟩ := hm k o rfl
    rw [Pairing.mark]
    split
    · exact h
    · constructor
      · intro i
        rw [lanes_openTag]
        split
        · exact hclose
        · exact h.guard i
      · intro j o' ho
        rw [getElem?_openTag] at ho
        split at ho
        · cases ho
          exact hstart
        · exact h.openers j o' ho

theorem EndsBy.foldl (h : s.EndsBy p) {marks : List (Mark n)}
    (hm : ∀ m ∈ marks, ∀ k o, m = .opens k o → o.start < p ∧ o.close.pos < p) :
    (marks.foldl Pairing.mark s).EndsBy p := by
  induction marks generalizing s with
  | nil => exact h
  | cons m marks ih =>
    obtain ⟨hm, hms⟩ := List.forall_mem_cons.1 hm
    exact ih (h.mark hm) hms

theorem EndsBy.resumes (h : s.EndsBy p) (ha : s.Apart) :
    s.Resumes p s.openers.size (.start n []) where
  guard k := by
    have := h.guard k
    rw [lanes_start]
    dsimp only
    omega
  waiting k := by
    refine ⟨(s.lane k).waiting, ?_, ha.lt_size k⟩
    rw [lanes_start]
    rfl
  size := rfl
  before j hj := ⟨_, Array.getElem?_eq_getElem hj, h.openers j _ (Array.getElem?_eq_getElem hj)⟩
  behind j := by
    rw [Array.getElem?_eq_none (Nat.le_add_right _ _)]
    rfl

theorem Resumes.lt_guard_iff (h : s.Resumes p old s') (k : Fin n) (q : Nat) :
    p + q < (s.lane k).guard ↔ q < (s'.lane k).guard := by
  have := h.guard k
  omega

/-- Of the openers behind the cut the same one waits on top in both states. -/
theorem Resumes.head?_waiting (h : s.Resumes p old s') (k : Fin n) (j : Nat) :
    (s.lane k).waiting.head? = some (old + j) ↔ (s'.lane k).waiting.head? = some j := by
  obtain ⟨below, hw, hb⟩ := h.waiting k
  rw [hw]
  cases (s'.lane k).waiting with
  | nil =>
    refine ⟨?_, nofun⟩
    intro hh
    have := hb _ (List.mem_of_head? hh)
    omega
  | cons top rest =>
    simp only [List.map_cons, List.cons_append, List.head?_cons, Option.some.injEq,
      Nat.add_left_cancel_iff]

theorem Resumes.closeTag (h : s.Resumes p old s') (k : Fin n) (c : Closer) :
    (s.closeTag k (c.shift p)).Resumes p old (s'.closeTag k c) where
  guard i := by
    rw [guard_closeTag, guard_closeTag]
    exact h.guard i
  waiting i := by
    rw [waiting_closeTag, waiting_closeTag]
    split
    · obtain ⟨below, hw, hb⟩ := h.waiting k
      rw [hw]
      cases (s'.lane k).waiting with
      | nil => exact ⟨below.tail, rfl, fun j hj => hb j (List.mem_of_mem_tail hj)⟩
      | cons top rest => exact ⟨below, rfl, hb⟩
    · exact h.waiting i
  size := by
    rw [size_closeTag, size_closeTag]
    exact h.size
  before j hj := by
    obtain ⟨o, ho, hp⟩ := h.before j hj
    rw [getElem?_closeTag, ho]
    split
    · exact ⟨_, rfl, hp⟩
    · exact ⟨o, rfl, hp⟩
  behind j := by
    rw [getElem?_closeTag, getElem?_closeTag, h.behind]
    simp only [h.head?_waiting]
    split
    · rw [Option.map_map, Option.map_map]
      rfl
    · rfl

theorem Resumes.openTag (h : s.Resumes p old s') (k : Fin n) (o : Opener) :
    (s.openTag k (o.shift p)).Resumes p old (s'.openTag k o) where
  guard i := by
    rw [lanes_openTag, lanes_openTag]
    split
    · change max (p + o.close.pos + 1) p = p + (o.close.pos + 1)
      omega
    · exact h.guard i
  waiting i := by
    rw [lanes_openTag, lanes_openTag]
    split
    · obtain ⟨below, hw, hb⟩ := h.waiting k
      refine ⟨below, ?_, hb⟩
      dsimp only
      rw [Opener.selfClosing_shift, Opener.literal_shift, hw, h.size]
      split <;> rfl
    · exact h.waiting i
  size := by
    rw [size_openTag, size_openTag, h.size, Nat.add_assoc]
  before j hj := by
    have hne : j ≠ s.openers.size := by
      have := h.size
      omega
    rw [getElem?_openTag, if_neg hne]
    exact h.before j hj
  behind j := by
    rw [getElem?_openTag, getElem?_openTag, h.behind, h.size]
    simp only [Nat.add_left_cancel_iff]
    split <;> rfl

theorem Resumes.mark (h : s.Resumes p old s') (m : Mark n) :
    (s.mark (m.shift p)).Resumes p old (s'.mark m) := by
  cases m with
  | closes k c =>
    simp only [Mark.shift, Pairing.mark, Closer.shift, h.lt_guard_iff]
    split
    · exact h
    · exact h.closeTag k c
  | opens k o =>
    simp only [Mark.shift, Pairing.mark, Opener.shift, h.lt_guard_iff]
    split
    · exact h
    · exact h.openTag k o

theorem Resumes.foldl (h : s.Resumes p old s') (marks : List (Mark n)) :
    ((marks.map (Mark.shift p)).foldl Pairing.mark s).Resumes p old
      (marks.foldl Pairing.mark s') := by
  induction marks generalizing s s' with
  | nil => exact h
  | cons m marks ih => exact ih (h.mark m)

theorem Resumes.drop_openers (h : s.Resumes p old s') :
    s.openers.toList.drop old = s'.openers.toList.map (Opener.shift p) := by
  apply List.ext_getElem?
  intro j
  rw [List.getElem?_drop, List.getElem?_map, Array.getElem?_toList, Array.getElem?_toList]
  exact h.behind j

theorem Resumes.openers_eq (h : s.Resumes p old s') :
    ∃ front, s.openers.toList = front ++ s'.openers.toList.map (Opener.shift p) ∧
      ∀ o ∈ front, o.start < p := by
  refine ⟨s.openers.toList.take old, ?_, ?_⟩
  · rw [← h.drop_openers, List.take_append_drop]
  · intro o ho
    obtain ⟨j, hj, rfl⟩ := List.mem_take_iff_getElem.1 ho
    obtain ⟨o', ho', hp⟩ := h.before j (by omega)
    rw [← Array.getElem?_toList, List.getElem?_eq_getElem (by omega)] at ho'
    rw [Option.some.inj ho']
    exact hp

end Pairing

section

variable {hidden : Nat → Bool} {names : List (List Char)} {text : List Char} {p : Nat}

theorem Seam.endsBy (hs : Seam hidden names text p) :
    (runAt hidden names text (.start names.length []) (List.range p)).EndsBy p := by
  have start : (Pairing.start names.length []).EndsBy p := by
    constructor
    · intro k
      rw [Pairing.lanes_start]
      exact Nat.zero_le p
    · intro j o ho
      simp [Pairing.start] at ho
  apply start.foldl
  intro m hm k o he
  obtain ⟨q, hq, hm⟩ := List.mem_filterMap.1 hm
  have hq := List.mem_range.1 hq
  subst he
  obtain ⟨hstart, -⟩ := markAt_opens hm
  rw [hstart]
  exact ⟨hq, hs.closed q hq k o hm⟩

theorem runAt_map_add (hs : Seam hidden names text p) (s : Pairing names.length)
    (positions : List Nat) :
    runAt hidden names text s (positions.map (p + ·)) =
      ((positions.filterMap (markAt (fun i => hidden (p + i)) names (text.drop p))).map
        (Mark.shift p)).foldl Pairing.mark s := by
  rw [runAt, List.filterMap_map, List.map_filterMap]
  congr 2
  funext j
  exact markAt_add hs j

variable (hidden names text) in
/-- The openers that are recorded in a text. -/
def openersOf : List Opener :=
  (runAt hidden names text (.start names.length []) (List.range text.length)).openers.toList

theorem Seam.range_eq (hs : Seam hidden names text p) :
    List.range text.length = List.range p ++ (List.range (text.drop p).length).map (p + ·) := by
  have hl : text.length = p + (text.drop p).length := by
    have := hs.le
    rw [List.length_drop]
    omega
  rw [← List.range_add, ← hl]

/-- The run over a text goes on from the cut as one that begins there. -/
theorem Seam.resumes (hs : Seam hidden names text p) :
    (runAt hidden names text (.start names.length []) (List.range text.length)).Resumes p
      (runAt hidden names text (.start names.length []) (List.range p)).openers.size
      (runAt (fun i => hidden (p + i)) names (text.drop p) (.start names.length [])
        (List.range (text.drop p).length)) := by
  have resumes := (hs.endsBy.resumes ((Pairing.Apart.start names.length).runAt _)).foldl
    (marksOf (fun i => hidden (p + i)) names (text.drop p))
  rwa [marksOf, ← runAt_map_add hs, ← runAt_append, ← hs.range_eq] at resumes

/-- The openers of a text are some that start before the cut and those of the second part. -/
theorem Seam.exists_openersOf (hs : Seam hidden names text p) :
    ∃ front, openersOf hidden names text =
        front ++ (openersOf (fun i => hidden (p + i)) names (text.drop p)).map (Opener.shift p) ∧
      ∀ o ∈ front, o.start < p :=
  hs.resumes.openers_eq

theorem matchesFrom_append_of_lt {cursor : Nat} (rest : List Char) {front : List Opener}
    (hf : ∀ o ∈ front, o.start < cursor) (openers : List Opener) :
    matchesFrom cursor rest (front ++ openers) = matchesFrom cursor rest openers := by
  induction front with
  | nil => rfl
  | cons o front ih =>
    obtain ⟨ho, hf⟩ := List.forall_mem_cons.1 hf
    rw [List.cons_append, matchesFrom_cons_of_lt _ _ ho, ih hf]

/-- The cursor may stand anywhere in front of the first opener, if no `[` there is an escape. -/
theorem matchesFrom_cursor {openers : List Opener} {cursor : Nat} (hc : cursor ≤ p)
    (hf : ∀ o ∈ openers, ∃ k, o.Fits hidden names text k) (hp : ∀ o ∈ openers, p ≤ o.start)
    (hb : follows text '[' p = false) :
    matchesFrom cursor (text.drop cursor) openers = matchesFrom p (text.drop p) openers := by
  cases openers with
  | nil => rfl
  | cons o others =>
    obtain ⟨k, fits⟩ := hf o List.mem_cons_self
    have hle := hp o List.mem_cons_self
    have hco := Nat.le_trans hc hle
    have lead : (decide (cursor < o.start) && o.afterBracket) =
        (decide (p < o.start) && o.afterBracket) := by
      rw [fits.reads.afterBracket]
      rcases Nat.lt_or_eq_of_le hle with hlt | rfl
      · simp [hlt, Nat.lt_of_le_of_lt hc hlt]
      · simp [hb]
    have same : o.toMatch cursor (text.drop cursor) = o.toMatch p (text.drop p) := by
      rw [o.toMatch_drop hco, o.toMatch_drop hle, lead]
    rw [fits.matchesFrom_cons hco, fits.matchesFrom_cons hle, same]

/-- The matches behind a match are those of the openers behind its opener. -/
theorem exists_openers_of_append {openers : List Opener}
    (hf : ∀ o ∈ openers, ∃ k, o.Fits hidden names text k) (cursor : Nat)
    {before after : List Match} {m : Match}
    (h : matchesFrom cursor (text.drop cursor) openers = before ++ m :: after) :
    ∃ front o back, openers = front ++ o :: back ∧ o.start < m.stop ∧
      text[m.stop - 1]? = some ']' ∧
      after = matchesFrom m.stop (text.drop m.stop) back := by
  induction openers generalizing cursor before with
  | nil => exact absurd h.symm (List.append_ne_nil_of_right_ne_nil _ nofun)
  | cons o openers ih =>
    obtain ⟨⟨k, hk⟩, hf⟩ := List.forall_mem_cons.1 hf
    by_cases hc : o.start < cursor
    · rw [matchesFrom_cons_of_lt _ _ hc] at h
      obtain ⟨front, o', back, rfl, hrest⟩ := ih hf cursor h
      exact ⟨o :: front, o', back, rfl, hrest⟩
    · have hc := Nat.le_of_not_lt hc
      rw [hk.matchesFrom_cons hc] at h
      cases before with
      | nil =>
        obtain ⟨rfl, rfl⟩ := List.cons_eq_cons.1 h
        exact ⟨[], o, openers, rfl, (hk.stop_toMatch hc).1, hk.getElem?_stop_toMatch hc, rfl⟩
      | cons m' before =>
        obtain ⟨front, o', back, rfl, hrest⟩ := ih hf _ (List.cons_eq_cons.1 h).2
        exact ⟨o :: front, o', back, rfl, hrest⟩

/-- If the text can be cut behind a match, then the matches that follow are those of what is left
of the text. -/
theorem matchesFrom_restart
    (hf : ∀ o ∈ openersOf hidden names text, ∃ k, o.Fits hidden names text k)
    {before after : List Match} {m : Match} (hs : Seam hidden names text m.stop)
    (h : matchesFrom 0 text (openersOf hidden names text) = before ++ m :: after) :
    after = (matchesFrom 0 (text.drop m.stop)
      (openersOf (fun i => hidden (m.stop + i)) names (text.drop m.stop))).map
        (Match.shift m.stop) := by
  obtain ⟨front, o, back, he, ho, -, rfl⟩ := exists_openers_of_append hf 0 h
  obtain ⟨old, hold, hlt⟩ := hs.exists_openersOf
  generalize openersOf (fun i => hidden (m.stop + i)) names (text.drop m.stop) = new at hold
  have hnew : o ∉ new.map (Opener.shift m.stop) := by
    intro hm
    obtain ⟨o', -, rfl⟩ := List.mem_map.1 hm
    exact absurd ho (Nat.not_lt.2 (Nat.le_add_right _ _))
  rw [hold] at he
  obtain ⟨left, rfl, hleft⟩ : ∃ left, back = left ++ new.map (Opener.shift m.stop) ∧
      ∀ o ∈ left, o.start < m.stop := by
    rcases List.append_eq_append_iff.1 he with ⟨a, rfl, ha⟩ | ⟨a, rfl, ha⟩
    · exact absurd (ha ▸ List.mem_append_right a List.mem_cons_self) hnew
    · cases a with
      | nil => exact absurd (show o ∈ [] ++ _ from ha ▸ List.mem_cons_self) hnew
      | cons o' left =>
        obtain ⟨rfl, rfl⟩ := List.cons_eq_cons.1 ha
        exact ⟨left, rfl, fun o'' h => hlt o'' (by simp [h])⟩
  rw [matchesFrom_append_of_lt _ hleft, ← matchesFrom_shift, Nat.add_zero]

theorem closeFrom?_le {q a b : Nat} (ha : closeFrom? hidden text q = some a) (hb : q ≤ b)
    (hs : shows hidden text ']' b = true) : a ≤ b := by
  apply Nat.le_of_not_lt
  intro hlt
  have hn := (List.find?_range_eq_some.1 ha).2.2 b hlt
  simp [hb, hs] at hn

/-- A text can be cut behind a `]` that ends every tag still open there. -/
theorem seam_of_bracket (hv : Valid names) (hs : shows hidden text ']' p = true) :
    Seam hidden names text (p + 1) := by
  have hb := (shows_iff.1 hs).1
  have hf {c : Char} (hc : c ≠ ']') : follows text c (p + 1) = false :=
    Bool.eq_false_iff.2 fun h =>
      hc (Option.some.inj ((follows_iff.1 h).2.symm.trans hb))
  refine ⟨(List.getElem?_eq_some_iff.1 hb).1, hf (by decide), fun _ => hf (by decide), ?_⟩
  intro q hq k o hm
  obtain ⟨rfl, -, hr, hc⟩ := markAt_opens hm
  have hne : o.start ≠ p := by
    rintro rfl
    rw [hr.getElem?_start] at hb
    cases hb
  have hname := name_end_le (hv _ (List.get_mem names k)).2 hr.isPrefix_name
    (show o.start + 1 ≤ p by omega) hb rfl
  have := closeFrom?_le hc (hr.nameEnd ▸ hname) hs
  omega

end

end Shortcode.Tag

namespace Shortcode

theorem Text.Offsets.get_add (content : String) (p j : Nat) :
    (ofText content).get (p + j) =
      (ofText content).get p + (ofText (String.ofList (content.toList.drop p))).get j := by
  rw [get_ofText, get_ofText, get_ofText, String.toList_ofList, ← byteLength_append, List.take_add]

namespace Match

variable (content : String) (p : Nat) (m : Match)

theorem byteSpan_shift :
    (m.shift p).byteSpan (.ofText content) =
      (m.byteSpan (.ofText (String.ofList (content.toList.drop p)))).map
        ((Text.Offsets.ofText content).get p + ·) ((Text.Offsets.ofText content).get p + ·) := by
  rw [byteSpan, shift, Text.Offsets.get_add, Text.Offsets.get_add]
  rfl

theorem byteTagSpan_shift (h : 0 < m.stop) :
    (m.shift p).byteTagSpan (.ofText content) =
      (m.byteTagSpan (.ofText (String.ofList (content.toList.drop p)))).map
        ((Text.Offsets.ofText content).get p + ·) ((Text.Offsets.ofText content).get p + ·) := by
  have start : (m.shift p).tagStart = p + m.tagStart := Nat.add_assoc _ _ _
  have stop : (m.shift p).tagStop = p + m.tagStop := by
    have := m.trail.toNat_le
    simp only [tagStop, shift]
    omega
  rw [byteTagSpan, start, stop, Text.Offsets.get_add, Text.Offsets.get_add]
  rfl

end Match

namespace Scanner

/-- With valid names a scan yields the matches of the openers of the run over the marks. -/
theorem scan_found_eq {s : Scanner} (hv : ∀ name ∈ s.names, Tag.validateName name = .ok ())
    (content : String) :
    (s.scan content).found = Tag.matchesFrom 0 content.toList
      (Tag.openersOf (s.hidden content.toList) (s.names.map String.toList) content.toList) := by
  rw [scan_found, openers_pairing hv]
  rfl

theorem fits_of_mem_openersOf {s : Scanner}
    (hv : ∀ name ∈ s.names, Tag.validateName name = .ok ()) {text : List Char} {o : Tag.Opener}
    (ho : o ∈ Tag.openersOf (s.hidden text) (s.names.map String.toList) text) :
    ∃ k, o.Fits (s.hidden text) (s.names.map String.toList) text k := by
  obtain ⟨content, rfl⟩ : ∃ content : String, content.toList = text :=
    ⟨String.ofList text, String.toList_ofList⟩
  rw [Tag.openersOf, ← openers_pairing hv] at ho
  exact fits_of_mem ho

/-- Where nothing is hidden a scan can start again behind each match. -/
theorem found_behind {s : Scanner} (hv : ∀ name ∈ s.names, Tag.validateName name = .ok ())
    {content : String} {before after : List Match} {m : Match}
    (hh : ∀ q, s.hidden content.toList q = false)
    (hh' : ∀ q, s.hidden (content.toList.drop m.stop) q = false)
    (h : (s.scan content).found = before ++ m :: after) :
    after = (s.scan (String.ofList (content.toList.drop m.stop))).found.map
      (Match.shift m.stop) := by
  have fits : ∀ o ∈ Tag.openersOf (s.hidden content.toList) (s.names.map String.toList)
      content.toList, ∃ k, o.Fits (s.hidden content.toList) (s.names.map String.toList)
        content.toList k := fun o => fits_of_mem_openersOf hv
  rw [scan_found_eq hv] at h
  obtain ⟨-, o, -, -, hlt, hb, -⟩ := Tag.exists_openers_of_append fits 0 h
  have shown : Tag.shows (s.hidden content.toList) content.toList ']' (m.stop - 1) = true :=
    Tag.shows_iff.2 ⟨hb, hh _⟩
  have seam := Tag.seam_of_bracket (Tag.valid_of_validateName hv) shown
  rw [Nat.sub_add_cancel (Nat.zero_lt_of_lt hlt)] at seam
  have hide : (fun i => s.hidden content.toList (m.stop + i)) =
      s.hidden (content.toList.drop m.stop) := by
    funext i
    rw [hh, hh']
  rw [Tag.matchesFrom_restart fits seam h, scan_found_eq hv, String.toList_ofList, hide]

/-- Without HTML the matches behind a match are those of a scan that starts behind it, with all
positions, counted in characters or in bytes, moved by the end of the match. -/
theorem scan_restart {s : Scanner} (hi : s.ignoreHtml = false)
    (hv : ∀ name ∈ s.names, Tag.validateName name = .ok ()) {content : String}
    {before after : List Match} {m : Match} (h : (s.scan content).found = before ++ m :: after) :
    let rest := String.ofList (content.toList.drop m.stop)
    let cut := (m.byteSpan (.ofText content)).2
    rest.toUTF8 = content.toUTF8.extract cut content.utf8ByteSize ∧
      after = (s.scan rest).found.map (Match.shift m.stop) ∧
      ∀ m' ∈ (s.scan rest).found,
        (m'.shift m.stop).byteSpan (.ofText content) =
          (m'.byteSpan (.ofText rest)).map (cut + ·) (cut + ·) ∧
        (m'.shift m.stop).byteTagSpan (.ofText content) =
          (m'.byteTagSpan (.ofText rest)).map (cut + ·) (cut + ·) := by
  intro rest cut
  have plain (text : List Char) (q : Nat) : s.hidden text q = false := by
    rw [hidden, hi, Bool.false_and]
  refine ⟨?_, found_behind hv (plain _) (plain _) h, ?_⟩
  · have hm : m ∈ (s.scan content).found := by
      rw [h]
      exact List.mem_append_right before List.mem_cons_self
    obtain ⟨k, o, i, -, fits, hio, rfl⟩ := exists_opener_of_mem hm
    have hle := (fits.stop_toMatch hio).2
    rw [← Text.Offsets.get_length, ← String.length_toList]
    exact ((Text.Offsets.extract_get content hle).trans (by rw [Text.slice_length])).symm
  · intro m' hm'
    obtain ⟨k, o, i, -, fits, hio, rfl⟩ := exists_opener_of_mem hm'
    have hpos := Nat.zero_lt_of_lt (fits.stop_toMatch hio).1
    exact ⟨Match.byteSpan_shift content _ _, Match.byteTagSpan_shift content _ _ hpos⟩

/-- Two tags of one name side by side share a stack, and the closing tag goes to the second. -/
theorem scan_restart_unterminated :
    (let s : Scanner := ⟨["ab", "a"], false⟩
     let content := "[a]é[/ab][[a]y[/a]"
     let m : Match := ⟨false, "a", "", false, none, false, 0, 3⟩
     let m' : Match := ⟨true, "a", "", false, some "y", false, 9, 18⟩
     let rest := String.ofList (content.toList.drop m.stop)
     let cut := (m.byteSpan (.ofText content)).2
     s.ignoreHtml = false ∧ (∀ name ∈ s.names, Tag.validateName name = .ok ()) ∧
      (s.scan content).found = [] ++ m :: [m'] ∧
      rest.toUTF8 = content.toUTF8.extract cut content.utf8ByteSize ∧
      [m'] = (s.scan rest).found.map (Match.shift m.stop) ∧
      ∀ m'' ∈ (s.scan rest).found,
        (m''.shift m.stop).byteSpan (.ofText content) =
          (m''.byteSpan (.ofText rest)).map (cut + ·) (cut + ·) ∧
        (m''.shift m.stop).byteTagSpan (.ofText content) =
          (m''.byteTagSpan (.ofText rest)).map (cut + ·) (cut + ·)) := by
  have valid : ∀ name ∈ ["ab", "a"], Tag.validateName name = .ok () := by
    intro name h
    rcases List.mem_pair.1 h with rfl | rfl <;> rfl
  have found : ((⟨["ab", "a"], false⟩ : Scanner).scan "[a]é[/ab][[a]y[/a]").found =
      [] ++ ⟨false, "a", "", false, none, false, 0, 3⟩ ::
        [⟨true, "a", "", false, some "y", false, 9, 18⟩] := by
    decide +kernel
  exact ⟨rfl, valid, found, scan_restart rfl valid found⟩

end Scanner

end Shortcode
