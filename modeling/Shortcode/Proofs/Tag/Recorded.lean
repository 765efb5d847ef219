import Shortcode.Proofs.Tag.Lane
import Shortcode.Proofs.Tag.Position

namespace Shortcode.Tag

section

variable (hidden : Nat → Bool) (names : List (List Char)) (text : List Char)

/-- The opener says what the text holds: a `[`, the name of lane `k` and a `]`. -/
structure Opener.Reads (k : Fin names.length) (o : Opener) : Prop where
  shown : shows hidden text '[' o.start = true
  name : names.findFinIdx? (opens (text.drop (o.start + 1))) = some k
  nameEnd : o.nameEnd = o.start + 1 + (names.get k).length
  close : closeAt hidden text o.close.pos = some o.close
  afterBracket : o.afterBracket = follows text '[' o.start

/-- The closer says what the text holds: `[/`, the name of lane `k` and a `]`. -/
structure Closer.Reads (k : Fin names.length) (c : Closer) : Prop where
  shown : shows hidden text '[' c.start = true
  slash : text[c.start + 1]? = some '/'
  name : names.findFinIdx? (closes (text.drop (c.start + 2))) = some k
  stop : c.stop = c.start + (names.get k).length + 3
  doubled : c.doubled = decide (text[c.stop]? = some ']')

/-- An opener with what it was paired with. -/
structure Opener.Fits (k : Fin names.length) (o : Opener) : Prop where
  reads : o.Reads hidden names text k
  encloses : ∀ c, o.closer = some c → o.selfClosing = false ∧ o.literal = false ∧
    o.close.pos < c.start ∧ c.Reads hidden names text k

/-- What holds of the state after each token. All `]` still ahead lie behind those of the openers
so far, so a guard never moves back and a closer that passes it stands behind every opener of its
lane. -/
structure Pairing.Sound (s : Pairing names.length) : Prop where
  sorted : s.closes.Pairwise fun a b => a.pos < b.pos
  closes : ∀ c ∈ s.closes, closeAt hidden text c.pos = some c
  guard_le : ∀ k : Fin names.length, ∀ c ∈ s.closes, (s.lane k).guard ≤ c.pos + 1
  openers : ∀ (j : Nat) (o : Opener), s.openers[j]? = some o → ∃ k, o.Fits hidden names text k
  waiting : ∀ k : Fin names.length, ∀ j ∈ (s.lane k).waiting, ∃ o : Opener, s.openers[j]? = some o ∧
    o.Reads hidden names text k ∧ o.selfClosing = false ∧ o.literal = false ∧
    o.close.pos < (s.lane k).guard

end

section

variable {hidden : Nat → Bool} {names : List (List Char)} {text : List Char}

theorem Pairing.Sound.dropCloses {s : Pairing names.length} (h : s.Sound hidden names text)
    (f : Close → Bool) : ({ s with closes := s.closes.dropWhile f } : Pairing _).Sound
      hidden names text where
  sorted := h.sorted.sublist (List.dropWhile_sublist f)
  closes c hc := h.closes c (List.dropWhile_subset f hc)
  guard_le k c hc := h.guard_le k c (List.dropWhile_subset f hc)
  openers := h.openers
  waiting := h.waiting

theorem Opener.Reads.pair {o : Opener} {k : Fin names.length} (h : o.Reads hidden names text k)
    (c : Option Closer) : ({ o with closer := c } : Opener).Reads hidden names text k :=
  ⟨h.shown, h.name, h.nameEnd, h.close, h.afterBracket⟩

theorem Pairing.Sound.closeTag {s : Pairing names.length} (h : s.Sound hidden names text)
    {k : Fin names.length} {c : Closer} (hc : c.Reads hidden names text k)
    (hg : (s.lane k).guard ≤ c.start) : (s.closeTag k c).Sound hidden names text where
  sorted := (s.closes_closeTag k c).symm ▸ h.sorted
  closes := (s.closes_closeTag k c).symm ▸ h.closes
  guard_le j c' hc' := by
    rw [closes_closeTag] at hc'
    rw [guard_closeTag]
    exact h.guard_le j c' hc'
  openers i o ho := by
    rw [getElem?_closeTag] at ho
    split at ho
    · next ht =>
      obtain ⟨o', ho', hr, hs, hl, hp⟩ := h.waiting k i (List.mem_of_head? ht)
      rw [ho', Option.map_some] at ho
      cases ho
      refine ⟨k, hr.pair _, ?_⟩
      intro c' hc'
      cases hc'
      exact ⟨hs, hl, Nat.lt_of_lt_of_le hp hg, hc⟩
    · exact h.openers i o ho
  waiting j i hi := by
    obtain ⟨o, ho, hr, hs, hl, hp⟩ := h.waiting j i (s.mem_of_mem_waiting_closeTag k c hi)
    rw [getElem?_closeTag, guard_closeTag, ho]
    split
    · exact ⟨_, rfl, hr.pair _, hs, hl, hp⟩
    · exact ⟨o, rfl, hr, hs, hl, hp⟩

theorem Pairing.Sound.openTag {s : Pairing names.length} (h : s.Sound hidden names text)
    {k : Fin names.length} {o : Opener} (ho : o.Reads hidden names text k)
    (hn : o.closer = none) (hc : s.closes.head? = some o.close) :
    (s.openTag k o).Sound hidden names text := by
  have hm : o.close ∈ s.closes := List.mem_of_head? hc
  have hle : ∀ c ∈ s.closes, o.close.pos ≤ c.pos := by
    intro c hc'
    obtain ⟨rest, hr⟩ := List.head?_eq_some_iff.1 hc
    have hs := h.sorted
    rw [hr] at hc' hs
    rcases List.mem_cons.1 hc' with rfl | hc'
    · exact Nat.le_refl _
    · exact Nat.le_of_lt ((List.pairwise_cons.1 hs).1 c hc')
  have old {j : Fin names.length} {i : Nat} (hi : i ∈ (s.lane j).waiting) :
      ∃ o' : Opener, (s.openTag k o).openers[i]? = some o' ∧ o'.Reads hidden names text j ∧
        o'.selfClosing = false ∧ o'.literal = false ∧ o'.close.pos < (s.lane j).guard := by
    obtain ⟨o', ho', hr⟩ := h.waiting j i hi
    have hlt : i ≠ s.openers.size := Nat.ne_of_lt (Array.getElem?_eq_some_iff.1 ho').1
    exact ⟨o', by rw [getElem?_openTag, if_neg hlt, ho'], hr⟩
  refine ⟨h.sorted, h.closes, ?_, ?_, ?_⟩
  · intro j c hc'
    rw [lanes_openTag]
    split
    · exact Nat.succ_le_succ (hle c hc')
    · exact h.guard_le j c hc'
  · intro i o' ho'
    rw [getElem?_openTag] at ho'
    split at ho'
    · cases ho'
      refine ⟨k, ho, ?_⟩
      intro c hc
      rw [hn] at hc
      cases hc
    · exact h.openers i o' ho'
  · intro j i hi
    rw [lanes_openTag] at hi ⊢
    split
    · next hk =>
      subst hk
      rw [if_pos rfl] at hi
      have hg := h.guard_le k o.close hm
      have keep (hi : i ∈ (s.lane k).waiting) :
          ∃ o' : Opener, (s.openTag k o).openers[i]? = some o' ∧ o'.Reads hidden names text k ∧
            o'.selfClosing = false ∧ o'.literal = false ∧ o'.close.pos < o.close.pos + 1 := by
        obtain ⟨o', ho', hr, hs, hl, hp⟩ := old hi
        exact ⟨o', ho', hr, hs, hl, Nat.lt_of_lt_of_le hp hg⟩
      dsimp only at hi
      split at hi
      · exact keep hi
      · next hw =>
        rcases List.mem_cons.1 hi with rfl | hi
        · obtain ⟨hs, hl⟩ := Bool.or_eq_false_iff.1 (Bool.eq_false_iff.2 hw)
          exact ⟨o, by rw [getElem?_openTag, if_pos rfl], ho, hs, hl, Nat.lt_succ_self _⟩
        · exact keep hi
    · next hk =>
      rw [if_neg hk] at hi
      exact old hi

theorem Pairing.Sound.step {s : Pairing names.length} (h : s.Sound hidden names text) {p : Nat}
    {t : Token names.length} (ht : tokenAt hidden names text p = some t) :
    (s.step names t).Sound hidden names text := by
  have shown := shows_of_tokenAt ht
  cases t with
  | closer k start stop doubled =>
    obtain ⟨rfl, hs, hd, hsl, hk⟩ := tokenAt_closer ht
    rw [Pairing.step]
    split
    · exact h
    · next hg => exact h.closeTag ⟨shown, hsl, hk, hs, hd⟩ (Nat.le_of_not_lt hg)
  | opener k start afterBracket =>
    obtain ⟨rfl, ha, hk⟩ := tokenAt_opener ht
    by_cases hg : start < (s.lane k).guard
    · rw [Pairing.step, if_pos hg]
      exact h
    obtain ⟨hr, hc⟩ := nextClose_eq (start + 1 + (names.get k).length) s.closes
    have hd := h.dropCloses (·.pos < start + 1 + (names.get k).length)
    cases hn : (nextClose (start + 1 + (names.get k).length) s.closes).1 with
    | none =>
      rw [step_opener_of_none hg hn, hr]
      exact hd
    | some close =>
      rw [hn] at hc
      rw [step_opener_of_some hg hn, hr]
      have hm := hd.closes close.val (List.mem_of_head? hc.symm)
      exact hd.openTag ⟨shown, hk, rfl, hm, ha⟩ rfl hc.symm

theorem sorted_closesOf (hidden : Nat → Bool) (text : List Char) :
    (closesOf hidden text).Pairwise fun a b => a.pos < b.pos := by
  apply List.Pairwise.filterMap _ _ List.pairwise_lt_range
  intro p q hpq c hc d hd
  rwa [(closeAt_eq_some_iff.1 hc).1, (closeAt_eq_some_iff.1 hd).1]

theorem mem_closesOf {c : Close} :
    c ∈ closesOf hidden text ↔ closeAt hidden text c.pos = some c := by
  rw [closesOf, List.mem_filterMap]
  constructor
  · rintro ⟨p, -, hp⟩
    rwa [(closeAt_eq_some_iff.1 hp).1]
  · intro h
    have hs := (shows_iff.1 (closeAt_eq_some_iff.1 h).2.1).1
    exact ⟨c.pos, List.mem_range.2 (List.getElem?_eq_some_iff.1 hs).1, h⟩

theorem Pairing.Sound.start (hidden : Nat → Bool) (names : List (List Char)) (text : List Char) :
    (Pairing.start names.length (closesOf hidden text)).Sound hidden names text where
  sorted := sorted_closesOf hidden text
  closes _ hc := mem_closesOf.1 hc
  guard_le k c _ := by simp
  openers j o ho := by simp [Pairing.start] at ho
  waiting k j hj := by simp at hj

theorem Pairing.Sound.foldl {s : Pairing names.length} (h : s.Sound hidden names text)
    {tokens : List (Token names.length)}
    (ht : ∀ t ∈ tokens, ∃ p, tokenAt hidden names text p = some t) :
    (tokens.foldl (Pairing.step names) s).Sound hidden names text := by
  induction tokens generalizing s with
  | nil => exact h
  | cons t tokens ih =>
    obtain ⟨⟨p, hp⟩, ht⟩ := List.forall_mem_cons.1 ht
    exact ih (h.step hp) ht

theorem exists_tokenAt_of_mem {t : Token names.length} (ht : t ∈ tokensOf hidden names text) :
    ∃ p, tokenAt hidden names text p = some t := by
  obtain ⟨p, -, hp⟩ := List.mem_filterMap.1 ht
  exact ⟨p, hp⟩

theorem Pairing.Sound.run (hidden : Nat → Bool) (names : List (List Char)) (text : List Char) :
    (Pairing.run names (closesOf hidden text) (tokensOf hidden names text)).Sound hidden names
      text :=
  (Pairing.Sound.start hidden names text).foldl fun _ => exists_tokenAt_of_mem

end

end Shortcode.Tag

namespace Shortcode.Scanner

theorem pairing_sound (s : Scanner) (content : String) :
    (s.pairing content).Sound (s.hidden content.toList) (s.names.map String.toList)
      content.toList := Tag.Pairing.Sound.run _ _ _

/-- Whatever the names are, an opener that is recorded stands in the text as it says. -/
theorem fits_of_mem {s : Scanner} {content : String} {o : Tag.Opener}
    (ho : o ∈ (s.pairing content).openers.toList) :
    ∃ k, o.Fits (s.hidden content.toList) (s.names.map String.toList) content.toList k := by
  obtain ⟨j, hj⟩ := List.mem_iff_getElem?.1 ho
  exact (s.pairing_sound content).openers j o (by rwa [← Array.getElem?_toList])

end Shortcode.Scanner
