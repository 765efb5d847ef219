import Mathlib.Data.List.NodupEquivFin
import Shortcode.Proofs.Tag.Descent
import Shortcode.Proofs.Tag.Resolution
import Shortcode.Proofs.Tag.Restart
import Shortcode.Proofs.Tag.Unterminated

namespace Shortcode.Tag

/-- No `[` of the text has the name behind it. -/
def Unused (text : List Char) (name : String) : Prop :=
  ∀ p, text[p]? = some '[' → ¬ Named text p name

theorem unused_iff {text : List Char} {name : String} :
    Unused text name ↔
      ∀ p < text.length, text[p]? = some '[' → opens (text.drop (p + 1)) name.toList = false := by
  simp only [Unused, named_iff_opens, Bool.not_eq_true]
  refine forall_congr' fun p => ⟨fun h _ => h, fun h hp => ?_⟩
  exact h (List.getElem?_eq_some_iff.1 hp).1 hp

instance (text : List Char) (name : String) : Decidable (Unused text name) :=
  decidable_of_iff _ unused_iff.symm

/-- The names have their numbers among the others, whose order is the same and which have one more
member. -/
structure Spares (names others : List (List Char)) (spare : List Char)
    (number : Fin names.length → Fin others.length) : Prop where
  get : ∀ k, others.get (number k) = names.get k
  mono : StrictMono number
  cover : ∀ i, (∃ k, number k = i) ∨ others.get i = spare
  notMem : spare ∉ names

theorem exists_spares {others : List (List Char)} (spare : List Char) (hd : others.Nodup) :
    ∃ number, Spares (others.filter (· ≠ spare)) others spare number := by
  obtain ⟨number, get⟩ := List.sublist_iff_exists_fin_orderEmbedding_get_eq.1
    (List.filter_sublist (p := (· ≠ spare)) (l := others))
  refine ⟨number, fun k => (get k).symm, number.strictMono, ?_, ?_⟩
  · intro i
    by_cases h : others.get i = spare
    · exact .inr h
    · have hm : others.get i ∈ others.filter (· ≠ spare) :=
        List.mem_filter.2 ⟨List.get_mem others i, decide_eq_true h⟩
      obtain ⟨k, hk⟩ := List.get_of_mem hm
      rw [get] at hk
      exact .inl ⟨k, hd.get_inj_iff.1 hk⟩
  · intro h
    exact of_decide_eq_true (List.mem_filter.1 h).2 rfl

def Mark.along {n n' : Nat} (number : Fin n → Fin n') : Mark n → Mark n'
  | .opens k o => .opens (number k) o
  | .closes k c => .closes (number k) c

/-- What a name more can make of what is read at a `[`: the same, or a closing tag of that name. -/
inductive Mark.Widened {n n' : Nat} (number : Fin n → Fin n') :
    Option (Mark n) → Option (Mark n') → Prop where
  | same (m : Option (Mark n)) : Widened number m (m.map (along number))
  | spare {i : Fin n'} (h : ∀ k, number k ≠ i) (c : Closer) :
    Widened number none (some (.closes i c))

/-- The second state is the first with a lane more, in which nothing waits. -/
structure Pairing.Widened {n n' : Nat} (number : Fin n → Fin n') (s : Pairing n) (s' : Pairing n') :
    Prop where
  lane : ∀ k, s'.lane (number k) = s.lane k
  spare : ∀ i, (∀ k, number k ≠ i) → (s'.lane i).waiting = []
  openers : s'.openers = s.openers

section

variable {hidden : Nat → Bool} {names others : List (List Char)} {spare text : List Char}
  {number : Fin names.length → Fin others.length} {p : Nat}

theorem Spares.mem (h : Spares names others spare number) {name : List Char} (hm : name ∈ names) :
    name ∈ others := by
  obtain ⟨k, rfl⟩ := List.get_of_mem hm
  rw [← h.get]
  exact List.get_mem others _

/-- If the name does not fit, the first name that fits is the same. -/
theorem Spares.findFinIdx?_eq (h : Spares names others spare number) {fits : List Char → Bool}
    (hs : fits spare = false) :
    others.findFinIdx? fits = (names.findFinIdx? fits).map number := by
  cases hk : names.findFinIdx? fits with
  | none =>
    rw [List.findFinIdx?_eq_none_iff] at hk
    rw [Option.map_none, List.findFinIdx?_eq_none_iff]
    intro name hm
    obtain ⟨i, rfl⟩ := List.get_of_mem hm
    rcases h.cover i with ⟨k, rfl⟩ | hi
    · rw [h.get]
      exact hk _ (List.get_mem names k)
    · rw [hi, hs]
      exact Bool.false_ne_true
  | some k =>
    obtain ⟨hfits, hfirst⟩ := List.findFinIdx?_eq_some_iff.1 hk
    rw [Option.map_some, List.findFinIdx?_eq_some_iff]
    refine ⟨?_, ?_⟩
    · change fits (others.get (number k)) = true
      rw [h.get]
      exact hfits
    · intro i hi
      change ¬ fits (others.get i) = true
      rcases h.cover i with ⟨j, rfl⟩ | hi'
      · rw [h.get]
        exact hfirst j (h.mono.lt_iff_lt.1 hi)
      · rw [hi', hs]
        exact Bool.false_ne_true

theorem Spares.mark?_opener (h : Spares names others spare number) (k : Fin names.length)
    (start : Nat) (afterBracket : Bool) (all : List Close) :
    (Token.opener (number k) start afterBracket).mark? all =
      ((Token.opener k start afterBracket).mark? all).map (Mark.along number) := by
  have each (a b : Nat) (ha : start < a) (hb : start < b) (hab : a = b) :
      ((nextClose a all).1.map fun ⟨close, hc⟩ => Mark.opens (number k)
        ⟨start, a, close, afterBracket, none, ha, hc⟩) =
      ((nextClose b all).1.map fun ⟨close, hc⟩ => Mark.opens k
        ⟨start, b, close, afterBracket, none, hb, hc⟩).map (Mark.along number) := by
    subst hab
    rw [Option.map_map]
    rfl
  exact each _ _ (by omega) (by omega) (congrArg (start + 1 + ·.length) (h.get k))

/-- A closing tag of the name is one of no other. -/
theorem Spares.findFinIdx?_closes (h : Spares names others spare number)
    (hv : ∀ name ∈ names, ∀ c ∈ name, isReserved c = false)
    (hs : ∀ c ∈ spare, isReserved c = false) {tail : List Char} (hc : closes tail spare = true) :
    names.findFinIdx? (closes tail) = none := by
  rw [List.findFinIdx?_eq_none_iff]
  intro name hm hn
  have he := eq_of_closes (hv name hm) hs hn hc
  exact h.notMem (he ▸ hm)

/-- Where the name is not opened, it makes at most a closing tag more. -/
theorem Spares.markAt_widened (h : Spares names others spare number) (hv : Valid others)
    (hs : ∀ c ∈ spare, isReserved c = false)
    (hp : shows hidden text '[' p = true → opens (text.drop (p + 1)) spare = false) :
    Mark.Widened number (markAt hidden names text p) (markAt hidden others text p) := by
  by_cases hb : shows hidden text '[' p = true
  swap
  · have nothing {n : List (List Char)} : markAt hidden n text p = none := by
      rw [markAt, tokenAt, if_neg hb]
      rfl
    rw [nothing, nothing]
    exact .same none
  rw [markAt, markAt, tokenAt_of_shows hb, tokenAt_of_shows hb, readTag.eq_def, readTag.eq_def]
  split
  · next tail _ =>
    dsimp only
    cases hc : closes tail spare with
    | false =>
      rw [h.findFinIdx?_eq hc]
      cases names.findFinIdx? (closes tail) with
      | none => exact .same none
      | some k =>
        simp only [Option.map_some, Option.bind_some, Token.mark?, h.get]
        exact .same (some _)
    | true =>
      have none := h.findFinIdx?_closes (fun name hm => (hv name (h.mem hm)).2) hs hc
      rw [none]
      cases hi : others.findFinIdx? (closes tail) with
      | none => exact .same _
      | some i =>
        refine .spare ?_ _
        rintro k rfl
        have hk := get_of_findFinIdx? hi
        rw [h.get] at hk
        exact List.findFinIdx?_eq_none_iff.1 none _ (List.get_mem names k) hk
  · dsimp only
    rw [h.findFinIdx?_eq (hp hb)]
    cases names.findFinIdx? (opens (text.drop (p + 1))) with
    | none => exact .same none
    | some k =>
      simp only [Option.map_some, Option.bind_some]
      rw [h.mark?_opener]
      exact .same _

end

namespace Pairing.Widened

section

variable {n n' : Nat} {number : Fin n → Fin n'} {s : Pairing n} {s' : Pairing n'}

theorem closeTag (h : s.Widened number s') (inj : Function.Injective number) (k : Fin n)
    (c : Closer) : (s.closeTag k c).Widened number (s'.closeTag (number k) c) where
  lane i := by
    have guard : ((s'.closeTag (number k) c).lane (number i)).guard =
        ((s.closeTag k c).lane i).guard := by
      rw [guard_closeTag, guard_closeTag, h.lane]
    have waiting : ((s'.closeTag (number k) c).lane (number i)).waiting =
        ((s.closeTag k c).lane i).waiting := by
      rw [waiting_closeTag, waiting_closeTag, h.lane, h.lane]
      simp only [inj.eq_iff]
    exact congrArg₂ Lane.mk guard waiting
  spare i hi := by
    rw [waiting_closeTag, if_neg (hi k)]
    exact h.spare i hi
  openers := by
    rw [Pairing.closeTag, Pairing.closeTag, h.lane]
    cases (s.lane k).waiting with
    | nil => exact h.openers
    | cons top below =>
      exact congrArg (·.modify top fun o => { o with closer := some c }) h.openers

theorem openTag (h : s.Widened number s') (inj : Function.Injective number) (k : Fin n)
    (o : Opener) : (s.openTag k o).Widened number (s'.openTag (number k) o) where
  lane i := by
    rw [lanes_openTag, lanes_openTag, h.lane, h.lane, h.openers]
    simp only [inj.eq_iff]
  spare i hi := by
    rw [lanes_openTag, if_neg (hi k)]
    exact h.spare i hi
  openers := congrArg (·.push o) h.openers

theorem mark (h : s.Widened number s') (inj : Function.Injective number) (m : Mark n) :
    (s.mark m).Widened number (s'.mark (m.along number)) := by
  cases m with
  | closes k c =>
    simp only [Mark.along, Pairing.mark, h.lane]
    split
    · exact h
    · exact h.closeTag inj k c
  | opens k o =>
    simp only [Mark.along, Pairing.mark, h.lane]
    split
    · exact h
    · exact h.openTag inj k o

/-- A closing tag of a lane in which nothing waits does nothing. -/
theorem mark_spare (h : s.Widened number s') {i : Fin n'} (hi : ∀ k, number k ≠ i) (c : Closer) :
    s'.mark (.closes i c) = s' := by
  rw [Pairing.mark, Pairing.closeTag, h.spare i hi]
  split <;> rfl

theorem start (number : Fin n → Fin n') :
    (Pairing.start n []).Widened number (.start n' []) where
  lane k := by rw [lanes_start, lanes_start]
  spare i _ := by rw [lanes_start]
  openers := rfl

end

section

variable {hidden : Nat → Bool} {names others : List (List Char)} {spare text : List Char}
  {number : Fin names.length → Fin others.length} {s : Pairing names.length}
  {s' : Pairing others.length}

theorem runAt (h : s.Widened number s') (hn : Spares names others spare number)
    (hv : Valid others) (hs : ∀ c ∈ spare, isReserved c = false)
    (hp : ∀ p, shows hidden text '[' p = true → opens (text.drop (p + 1)) spare = false)
    (positions : List Nat) :
    (runAt hidden names text s positions).Widened number
      (Tag.runAt hidden others text s' positions) := by
  induction positions generalizing s s' with
  | nil => exact h
  | cons p positions ih =>
    have read := hn.markAt_widened hv hs (hp p)
    generalize hm : markAt hidden names text p = m at read
    generalize hm' : markAt hidden others text p = m' at read
    cases read with
    | same =>
      cases m with
      | none =>
        rw [runAt_cons_none hm, runAt_cons_none hm']
        exact ih h
      | some m =>
        rw [runAt_cons_some hm, runAt_cons_some hm']
        exact ih (h.mark hn.mono.injective m)
    | spare hi c =>
      rw [runAt_cons_none hm, runAt_cons_some hm', h.mark_spare hi]
      exact ih h

end

end Pairing.Widened

end Shortcode.Tag

namespace Shortcode.Scanner

variable {s : Scanner} {content inner name : String} {m : Match}

/-- The scanner without one of its names. -/
def without (s : Scanner) (name : String) : Scanner :=
  { s with names := s.names.filter (· ≠ name) }

/-- A name that is not used in a text is not used in what its tags enclose. -/
theorem unused_inner (hu : Tag.Unused content.toList name) (hm : m ∈ (s.scan content).found)
    (hi : m.inner = some inner) : Tag.Unused inner.toList name := by
  intro p hp
  rintro ⟨after, htext, hafter⟩
  obtain ⟨rest, hrest⟩ := isPrefix_inner_of_mem hm hi
  have hlt := (List.getElem?_eq_some_iff.1 hp).1
  have hopen : content.toList[m.openStop + p]? = some '[' := by
    rw [Text.getElem?_of_isPrefix_drop ⟨rest, hrest⟩ hlt, hp]
  refine hu _ hopen ⟨after ++ rest, ?_, ?_⟩
  · rw [Nat.add_assoc, ← List.drop_drop, ← hrest, List.drop_append_of_le_length hlt, htext,
      List.append_assoc]
  · intro c hc
    cases after with
    | cons d after => exact hafter c hc
    | nil =>
      -- behind the enclosed text the closing tag begins
      have behind := getElem?_innerStop_of_mem hm hi
      rw [← String.length_toList, ← List.getElem?_drop, ← hrest,
        List.getElem?_append_right (Nat.le_refl _), Nat.sub_self] at behind
      rw [List.nil_append, List.head?_eq_getElem?, behind] at hc
      cases hc
      rfl

section

variable (hv : ∀ name ∈ s.names, Tag.validateName name = .ok ())
  (ho : s.names.Pairwise fun a b => Tag.precedes a b = true)
  (valid : Tag.validateName name = .ok ())

include hv ho valid

/-- The pass ends in the same state, but for the lane of the name. -/
theorem widened_without (hu : Tag.Unused content.toList name) :
    ∃ number, Tag.Spares ((s.without name).names.map String.toList) (s.names.map String.toList)
        name.toList number ∧
      ((s.without name).pairing content).forget.Widened number (s.pairing content).forget := by
  have names : (s.without name).names.map String.toList =
      (s.names.map String.toList).filter (· ≠ name.toList) := by
    rw [without, List.filter_map]
    congr 1
    apply List.filter_congr
    intro other _
    exact decide_eq_decide.2 (not_congr String.toList_inj.symm)
  have others := Tag.exists_spares name.toList (nodup_toList (Tag.nodup_of_precedes ho))
  rw [← names] at others
  obtain ⟨number, spares⟩ := others
  have hv' : ∀ other ∈ (s.without name).names, Tag.validateName other = .ok () := fun other h =>
    hv other (List.mem_filter.1 h).1
  have plain := (Tag.plain_of_validateName valid).2
  have unread : ∀ p, Tag.shows (s.hidden content.toList) content.toList '[' p = true →
      Tag.opens (content.toList.drop (p + 1)) name.toList = false := by
    intro p hp
    apply Bool.eq_false_iff.2
    intro hopens
    exact hu p (Tag.shows_iff.1 hp).1 (Tag.named_iff_opens.2 hopens)
  refine ⟨number, spares, ?_⟩
  rw [pairing, pairing, Tag.forget_run (Tag.valid_of_validateName hv),
    Tag.forget_run (Tag.valid_of_validateName hv')]
  exact (Tag.Pairing.Widened.start number).runAt spares (Tag.valid_of_validateName hv) plain unread
    _

theorem found_without (hu : Tag.Unused content.toList name) :
    ((s.without name).scan content).found = (s.scan content).found := by
  obtain ⟨number, -, widened⟩ := widened_without hv ho valid hu
  have openers := widened.openers
  rw [Tag.Pairing.openers_forget, Tag.Pairing.openers_forget] at openers
  rw [scan_found, scan_found, openers]

theorem unterminated_without (hu : Tag.Unused content.toList name) :
    ((s.without name).scan content).unterminated = (s.scan content).unterminated := by
  obtain ⟨number, spares, widened⟩ := widened_without hv ho valid hu
  apply Tag.eq_of_pairwise_precedes Prod.fst (ordered_unterminated (ho.filter _) content)
    (ordered_unterminated ho content)
  intro u
  rw [mem_unterminated, mem_unterminated]
  constructor
  · rintro ⟨k, hname, hcount, hpos⟩
    refine ⟨number k, ?_, ?_, hpos⟩
    · rw [spares.get, hname]
    · rw [← Tag.Pairing.lane_forget, widened.lane, Tag.Pairing.lane_forget, hcount]
  · rintro ⟨i, hname, hcount, hpos⟩
    rw [← Tag.Pairing.lane_forget] at hcount
    by_cases h : ∃ k, number k = i
    · obtain ⟨k, rfl⟩ := h
      refine ⟨k, ?_, ?_, hpos⟩
      · rw [← spares.get, hname]
      · rw [← Tag.Pairing.lane_forget, ← widened.lane, hcount]
    · rw [widened.spare i (not_exists.1 h), List.length_nil] at hcount
      omega

theorem nested_without (content : String) (hu : Tag.Unused content.toList name) :
    (s.without name).nested content = s.nested content := by
  rw [nested_eq, nested_eq, found_without hv ho valid hu]
  apply List.flatMap_congr
  intro m hm
  cases hi : m.inner with
  | none => rfl
  | some inner =>
    simp only [Option.map_some, Option.getD_some]
    rw [nested_without inner (unused_inner hu hm hi)]
termination_by content.length
decreasing_by exact length_inner_lt hm hi

theorem nestedUnterminated_without (content : String) (hu : Tag.Unused content.toList name) :
    (s.without name).nestedUnterminated content = s.nestedUnterminated content := by
  rw [nestedUnterminated_eq, nestedUnterminated_eq, found_without hv ho valid hu,
    unterminated_without hv ho valid hu]
  congr 1
  apply List.flatMap_congr
  intro m hm
  cases hi : m.inner with
  | none => rfl
  | some inner =>
    simp only [Option.map_some, Option.getD_some]
    exact nestedUnterminated_without inner (unused_inner hu hm hi)
termination_by content.length
decreasing_by exact length_inner_lt hm hi

end

end Shortcode.Scanner
