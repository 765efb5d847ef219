import Mathlib.Data.List.Induction
import Mathlib.Order.Bounds.Basic
import Shortcode.Proofs.Tag.Coverage

namespace Shortcode

namespace Tag

section

variable {hidden : Nat → Bool} {names : List (List Char)} {text : List Char}

theorem nextClose_closesOf_eq_none_iff {q : Nat} :
    (nextClose q (closesOf hidden text)).1 = none ↔
      ∀ p, q ≤ p → shows hidden text ']' p = false := by
  have found := closeFrom?_eq hidden text q
  rw [← Option.map_eq_none_iff, ← Option.map_eq_none_iff, ← found, closeFrom?, List.find?_eq_none]
  constructor
  · intro h p hp
    apply Bool.eq_false_iff.2
    intro hs
    have hlt := (List.getElem?_eq_some_iff.1 (shows_iff.1 hs).1).1
    exact h p (List.mem_range.2 hlt) (by simp [hp, hs])
  · intro h p _ hp
    obtain ⟨hq, hs⟩ := Bool.and_eq_true_iff.1 hp
    rw [h p (of_decide_eq_true hq)] at hs
    cases hs

theorem isLeast_of_closeFrom? {q p : Nat} (h : closeFrom? hidden text q = some p) :
    IsLeast {r | q ≤ r ∧ shows hidden text ']' r = true} p := by
  rw [closeFrom?, List.find?_range_eq_some] at h
  obtain ⟨hp, -, hfirst⟩ := h
  refine ⟨by simpa using hp, ?_⟩
  intro r hr
  apply Nat.le_of_not_lt
  intro hlt
  have := hfirst r hlt
  simp [hr.1, hr.2] at this

theorem Pairing.run_concat (all : List Close) (before : List (Token names.length))
    (t : Token names.length) :
    run names all (before ++ [t]) = (run names all before).step names t := by
  rw [run, List.foldl_concat, run]

/-- In front of each token the pass has dropped only `]` that this token has no use for. -/
theorem Pairing.exists_closes_run (all : List Close) {before : List (Token names.length)}
    {t : Token names.length} (ho : (before ++ [t]).Pairwise fun t u => t.reach ≤ u.reach) :
    ∃ b ≤ t.reach, (run names all before).closes = all.dropWhile (·.pos < b) := by
  induction before using List.reverseRecOn generalizing t with
  | nil =>
    refine ⟨0, Nat.zero_le _, ?_⟩
    cases all <;> rfl
  | append_singleton before u ih =>
    obtain ⟨hbefore, -, hle⟩ := List.pairwise_append.1 ho
    obtain ⟨b, hb, hcloses⟩ := ih hbefore
    obtain ⟨-, b', hb', hstep⟩ := forget_step hcloses u hb
    have hut : u.reach ≤ t.reach := hle u (by simp) t (by simp)
    rw [run_concat]
    exact ⟨b', Nat.le_trans hb' hut, hstep⟩

/-- The pass finds the `]` that a search in the whole text would find. -/
theorem Pairing.nextClose_run {all : List Close} {before : List (Token names.length)}
    {t : Token names.length} (ho : (before ++ [t]).Pairwise fun t u => t.reach ≤ u.reach) :
    nextClose t.reach (run names all before).closes = nextClose t.reach all := by
  obtain ⟨b, hb, hcloses⟩ := exists_closes_run all ho
  rw [hcloses, nextClose_dropWhile hb]

/-- The token opens a tag, and no tag of its name that is open there passes over it. -/
def Pairing.Admits (s : Pairing names.length) : Token names.length → Prop
  | .opener k start _ => (s.lane k).guard ≤ start
  | .closer .. => False

/-- A tag that is admitted is recorded unless there is no `]` for it. -/
theorem Pairing.Admits.openers_step_iff {s : Pairing names.length} {t : Token names.length}
    (h : s.Admits t) :
    (s.step names t).openers = s.openers ↔ (nextClose t.reach s.closes).1 = none := by
  cases t with
  | closer k start stop doubled => exact h.elim
  | opener k start after =>
    rw [step, if_neg (Nat.not_lt_of_le h), Token.reach]
    dsimp only
    generalize nextClose (start + 1 + (names.get k).length) s.closes = found
    obtain ⟨found, left⟩ := found
    cases found with
    | none => simp
    | some close =>
      simp only [reduceCtorEq, iff_false]
      intro same
      have grown := congrArg Array.size same
      rw [size_openTag] at grown
      exact absurd grown (Nat.succ_ne_self _)

/-- The `]` of an opener that is recorded is the first one behind its name. -/
theorem Opener.Reads.isLeast_close {k : Fin names.length} {o : Opener}
    (h : o.Reads hidden names text k) (hm : o.Marked hidden names text) :
    IsLeast {p | o.nameEnd ≤ p ∧ shows hidden text ']' p = true} o.close.pos := by
  obtain ⟨k', o', hmark, hclose⟩ := hm
  obtain ⟨hstart, -, hreads, hfound⟩ := markAt_opens hmark
  have hk : k' = k := by
    have hname := hreads.name
    rw [hstart, h.name] at hname
    exact (Option.some.inj hname).symm
  have hend : o.nameEnd = o'.nameEnd := by rw [h.nameEnd, hreads.nameEnd, hstart, hk]
  rw [hend, hclose]
  exact isLeast_of_closeFrom? hfound

end

end Tag

namespace Scanner

/-- The `]` from a position on that belong to no tag or comment. -/
def closesBehind (s : Scanner) (text : List Char) (q : Nat) : Set Nat :=
  {p | q ≤ p ∧ text[p]? = some ']' ∧ s.hidden text p = false}

variable {s : Scanner} {text : List Char}

theorem closesBehind_eq (q : Nat) :
    s.closesBehind text q = {p | q ≤ p ∧ Tag.shows (s.hidden text) text ']' p = true} := by
  simp only [closesBehind, Tag.shows_iff]

theorem closesBehind_eq_empty_iff {q : Nat} :
    s.closesBehind text q = ∅ ↔
      ∀ p, q ≤ p → Tag.shows (s.hidden text) text ']' p = false := by
  rw [closesBehind_eq, Set.eq_empty_iff_forall_notMem]
  simp

theorem passed_concat (before : List (Tag.Token (s.names.map String.toList).length))
    (t : Tag.Token (s.names.map String.toList).length) :
    s.passed text (before ++ [t]) =
      (s.passed text before).step (s.names.map String.toList) t :=
  Tag.Pairing.run_concat _ before t

section

variable (hv : ∀ name ∈ s.names, Tag.validateName name = .ok ())

include hv

theorem openers_passed (content : String) :
    (s.passed content.toList (s.tokens content.toList)).openers.toList =
      Tag.openersOf (s.hidden content.toList) (s.names.map String.toList) content.toList := by
  rw [passed_tokens, openers_pairing hv]
  rfl

theorem isLeast_close {o : Tag.Opener}
    (ho : o ∈ Tag.openersOf (s.hidden text) (s.names.map String.toList) text) :
    IsLeast (s.closesBehind text o.nameEnd) o.close.pos := by
  obtain ⟨k, fits⟩ := fits_of_mem_openersOf hv ho
  rw [closesBehind_eq]
  exact fits.reads.isLeast_close (Tag.marked_of_mem_openersOf ho)

/-- The name of an opener ends in front of the `[` of the next one, so the `]` of the next one stands
behind it. -/
theorem close_le_close {a b : Tag.Opener}
    (ha : a ∈ Tag.openersOf (s.hidden text) (s.names.map String.toList) text)
    (hb : b ∈ Tag.openersOf (s.hidden text) (s.names.map String.toList) text)
    (hab : a.start < b.start) : a.close.pos ≤ b.close.pos := by
  obtain ⟨k, fits⟩ := fits_of_mem_openersOf hv ha
  obtain ⟨k', fits'⟩ := fits_of_mem_openersOf hv hb
  have hend : a.nameEnd ≤ b.start := by
    rw [fits.reads.nameEnd]
    exact Tag.name_end_le (Tag.valid_of_validateName hv _ (List.get_mem _ k)).2
      fits.reads.isPrefix_name hab fits'.reads.getElem?_start rfl
  obtain ⟨⟨hle, hclose⟩, -⟩ := isLeast_close hv hb
  have hname := b.start_lt_nameEnd
  exact (isLeast_close hv ha).2 ⟨by omega, hclose⟩

theorem openers_passed_concat_iff
    {before behind : List (Tag.Token (s.names.map String.toList).length)}
    {t : Tag.Token (s.names.map String.toList).length}
    (h : s.tokens text = before ++ t :: behind) (admitted : (s.passed text before).Admits t) :
    (s.passed text (before ++ [t])).openers = (s.passed text before).openers ↔
      s.closesBehind text t.reach = ∅ := by
  have ordered : (s.tokens text).Pairwise fun t u => t.reach ≤ u.reach := by
    rw [tokens_eq]
    exact Tag.pairwise_reach (Tag.valid_of_validateName hv)
  rw [h, List.append_cons] at ordered
  rw [passed_concat, admitted.openers_step_iff, passed,
    Tag.Pairing.nextClose_run (List.pairwise_append.1 ordered).1, closes_eq,
    Tag.nextClose_closesOf_eq_none_iff, closesBehind_eq_empty_iff]

end

/-- With valid names, each opener that is recorded ends at the first `]` behind its name, no opener
starts in front of one recorded before it or ends in front of it, and one is given up exactly if the
text has no `]` for it. -/
theorem openers_closed (hv : ∀ name ∈ s.names, Tag.validateName name = .ok ()) (content : String) :
    let text := content.toList
    let openers := (s.passed text (s.tokens text)).openers.toList
    (s.scan content).found = Tag.matchesFrom 0 text openers ∧
    (∀ o ∈ openers,
      (∃ name ∈ s.names, Tag.Named text o.start name ∧ o.nameEnd = o.start + 1 + name.length) ∧
      IsLeast (s.closesBehind text o.nameEnd) o.close.pos) ∧
    (openers.Pairwise fun a b => a.start < b.start ∧ a.close.pos ≤ b.close.pos) ∧
    ∀ before t behind, s.tokens text = before ++ t :: behind →
      (s.passed text before).Admits t →
        ((s.passed text (before ++ [t])).openers = (s.passed text before).openers ↔
          s.closesBehind text t.reach = ∅) := by
  intro text openers
  have recorded := openers_passed hv content
  refine ⟨?_, ?_, ?_, ?_⟩
  · rw [scan_found, ← passed_tokens]
  · intro o ho
    have ho : o ∈ Tag.openersOf (s.hidden text) (s.names.map String.toList) text := recorded ▸ ho
    obtain ⟨k, fits⟩ := fits_of_mem_openersOf hv ho
    obtain ⟨name, hname, he⟩ := List.mem_map.1 (List.get_mem (s.names.map String.toList) k)
    refine ⟨⟨name, hname, ?_, ?_⟩, isLeast_close hv ho⟩
    · rw [Tag.named_iff_opens, he]
      exact Tag.get_of_findFinIdx? fits.reads.name
    · rw [fits.reads.nameEnd, ← he, String.length_toList]
  · rw [show openers = _ from recorded]
    apply (Tag.pairwise_openersOf _ _ _).imp_of_mem
    intro a b ha hb hab
    exact ⟨hab, close_le_close hv ha hb hab⟩
  · intro before t behind htokens admitted
    exact openers_passed_concat_iff hv htokens admitted

/-- The first two tags share the `]` at 15, behind one inside markup. The third lies inside the first,
and the last has no `]`. -/
theorem openers_closed_shared :
    (let s : Scanner := ⟨["b", "a"], true⟩
     let text := "[a <i ]> [b [a ] [a".toList
     let b : Fin (s.names.map String.toList).length := ⟨0, by decide⟩
     let a : Fin (s.names.map String.toList).length := ⟨1, by decide⟩
     let before := [.opener a 0 false, .opener b 9 false, .opener a 12 false]
     (∀ name ∈ s.names, Tag.validateName name = .ok ()) ∧
      s.tokens text = before ++ [.opener a 17 false] ∧
      (s.passed text before).Admits (.opener a 17 false) ∧
      (∀ o ∈ (s.passed text (s.tokens text)).openers.toList, o.close.pos = 15) ∧
      (∃ o ∈ (s.passed text (s.tokens text)).openers.toList,
        o.nameEnd = 2 ∧ IsLeast (s.closesBehind text 2) o.close.pos) ∧
      s.closesBehind text 19 = ∅) := by
  have valid : ∀ name ∈ ["b", "a"], Tag.validateName name = .ok () := by
    intro name h
    rcases List.mem_pair.1 h with rfl | rfl <;> rfl
  intro s text b a before
  obtain ⟨-, least, -, given⟩ := openers_closed (s := s) valid "[a <i ]> [b [a ] [a"
  have tokens : s.tokens text = before ++ [.opener a 17 false] := by decide +kernel
  have admitted : ((s.passed text before).lane a).guard ≤ 17 := by decide +kernel
  have same : (s.passed text (before ++ [.opener a 17 false])).openers =
      (s.passed text before).openers := by decide +kernel
  have shared : ∀ o ∈ (s.passed text (s.tokens text)).openers.toList, o.close.pos = 15 := by
    decide +kernel
  have first : ∃ o ∈ (s.passed text (s.tokens text)).openers.toList, o.nameEnd = 2 := by
    decide +kernel
  refine ⟨valid, tokens, admitted, shared, ?_, ?_⟩
  · obtain ⟨o, ho, hend⟩ := first
    exact ⟨o, ho, hend, hend ▸ (least o ho).2⟩
  · exact (given before (.opener a 17 false) [] tokens admitted).1 same

end Scanner

end Shortcode
