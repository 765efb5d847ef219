import Shortcode.Proofs.Tag.Depth

namespace Shortcode.Tag

/-- Every opener waits at most once, in one lane. -/
structure Pairing.Apart {n : Nat} (s : Pairing n) : Prop where
  lt_size : ∀ k : Fin n, ∀ j ∈ (s.lane k).waiting, j < s.openers.size
  nodup : ∀ k : Fin n, (s.lane k).waiting.Nodup
  disjoint : ∀ k k' : Fin n, ∀ j ∈ (s.lane k).waiting, j ∈ (s.lane k').waiting → k = k'

/-- The opener is recorded and waits no more. -/
def Pairing.Settled {n : Nat} (s : Pairing n) (j : Nat) : Prop :=
  j < s.openers.size ∧ ∀ k : Fin n, j ∉ (s.lane k).waiting

namespace Pairing

variable {n : Nat} {s : Pairing n} {k : Fin n} {c : Closer} {o : Opener} {j : Nat}

theorem Apart.start (n : Nat) : (Pairing.start n []).Apart where
  lt_size k j hj := by simp at hj
  nodup k := by simp
  disjoint k k' j hj := by simp at hj

theorem Apart.closeTag (h : s.Apart) (k : Fin n) (c : Closer) : (s.closeTag k c).Apart where
  lt_size i j hj := by
    rw [size_closeTag]
    exact h.lt_size i j (s.mem_of_mem_waiting_closeTag k c hj)
  nodup i := by
    rw [waiting_closeTag]
    split
    · exact (h.nodup k).sublist (List.tail_sublist _)
    · exact h.nodup i
  disjoint i i' j hj hj' :=
    h.disjoint i i' j (s.mem_of_mem_waiting_closeTag k c hj) (s.mem_of_mem_waiting_closeTag k c hj')

/-- What waits after an opener is recorded waited before, or is that opener. -/
theorem mem_waiting_openTag {i : Fin n} (h : j ∈ ((s.openTag k o).lane i).waiting) :
    j ∈ (s.lane i).waiting ∨
      j = s.openers.size ∧ i = k ∧ (o.selfClosing || o.literal) = false := by
  rw [lanes_openTag] at h
  split at h
  · next hk =>
    dsimp only at h
    split at h
    · exact .inl (hk ▸ h)
    · next ha =>
      rcases List.mem_cons.1 h with rfl | h
      · exact .inr ⟨rfl, hk.symm, Bool.eq_false_iff.2 ha⟩
      · exact .inl (hk ▸ h)
  · exact .inl h

theorem Apart.openTag (h : s.Apart) (k : Fin n) (o : Opener) : (s.openTag k o).Apart where
  lt_size i j hj := by
    rw [size_openTag]
    rcases mem_waiting_openTag hj with hj | ⟨rfl, -⟩
    · exact Nat.lt_succ_of_lt (h.lt_size i j hj)
    · exact Nat.lt_succ_self _
  nodup i := by
    rw [lanes_openTag]
    split
    · dsimp only
      split
      · exact h.nodup k
      · exact List.nodup_cons.2 ⟨fun hm => Nat.lt_irrefl _ (h.lt_size k _ hm), h.nodup k⟩
    · exact h.nodup i
  disjoint i i' j hj hj' := by
    rcases mem_waiting_openTag hj with h₁ | ⟨h₁, hi, -⟩ <;>
      rcases mem_waiting_openTag hj' with h₂ | ⟨h₂, hi', -⟩
    · exact h.disjoint i i' j h₁ h₂
    · exact absurd (h.lt_size i j h₁) (h₂ ▸ Nat.lt_irrefl _)
    · exact absurd (h.lt_size i' j h₂) (h₁ ▸ Nat.lt_irrefl _)
    · exact hi.trans hi'.symm

theorem Apart.mark (h : s.Apart) (m : Mark n) : (s.mark m).Apart := by
  cases m with
  | closes k c =>
    rw [Pairing.mark]
    split
    · exact h
    · exact h.closeTag k c
  | opens k o =>
    rw [Pairing.mark]
    split
    · exact h
    · exact h.openTag k o

theorem Apart.foldl (h : s.Apart) (marks : List (Mark n)) :
    (marks.foldl Pairing.mark s).Apart := by
  induction marks generalizing s with
  | nil => exact h
  | cons m marks ih => exact ih (h.mark m)

theorem Settled.mark (h : s.Settled j) (m : Mark n) :
    (s.mark m).Settled j ∧ (s.mark m).openers[j]? = s.openers[j]? := by
  cases m with
  | closes k c =>
    rw [Pairing.mark]
    split
    · exact ⟨h, rfl⟩
    · refine ⟨⟨?_, ?_⟩, ?_⟩
      · rw [size_closeTag]
        exact h.1
      · intro i hi
        exact h.2 i (s.mem_of_mem_waiting_closeTag k c hi)
      · rw [getElem?_closeTag, if_neg fun hh => h.2 k (List.mem_of_head? hh)]
  | opens k o =>
    rw [Pairing.mark]
    split
    · exact ⟨h, rfl⟩
    · refine ⟨⟨?_, ?_⟩, ?_⟩
      · rw [size_openTag]
        exact Nat.lt_succ_of_lt h.1
      · intro i hi
        rcases mem_waiting_openTag hi with hi | ⟨rfl, -⟩
        · exact h.2 i hi
        · exact Nat.lt_irrefl _ h.1
      · rw [getElem?_openTag, if_neg (Nat.ne_of_lt h.1)]

/-- An opener that waits no more stays as it is. -/
theorem Settled.foldl (h : s.Settled j) (marks : List (Mark n)) :
    (marks.foldl Pairing.mark s).openers[j]? = s.openers[j]? := by
  induction marks generalizing s with
  | nil => rfl
  | cons m marks ih => rw [List.foldl_cons, ih (h.mark m).1, (h.mark m).2]

/-- The opener waits in lane `k` below those of the list `above`. -/
structure Under (s : Pairing n) (k : Fin n) (above : List Nat) (j : Nat) (o : Opener) : Prop where
  stack : ∃ below, (s.lane k).waiting = above ++ j :: below
  opener : s.openers[j]? = some o

theorem Under.mem {above : List Nat} (h : s.Under k above j o) : j ∈ (s.lane k).waiting := by
  obtain ⟨below, hb⟩ := h.stack
  rw [hb]
  exact List.mem_append_right _ List.mem_cons_self

theorem Under.notMem {above : List Nat} (h : s.Under k above j o) (ha : s.Apart) : j ∉ above := by
  obtain ⟨below, hb⟩ := h.stack
  have hn := ha.nodup k
  rw [hb] at hn
  exact fun hj => (List.nodup_append.1 hn).2.2 j hj j List.mem_cons_self rfl

/-- A tag of another name that closes leaves the stack of a lane alone. -/
theorem Under.closeTag_ne {above : List Nat} (h : s.Under k above j o) (ha : s.Apart)
    {i : Fin n} (hi : i ≠ k) (c : Closer) : (s.closeTag i c).Under k above j o where
  stack := by
    rw [waiting_closeTag, if_neg hi]
    exact h.stack
  opener := by
    rw [getElem?_closeTag, if_neg fun hh =>
      hi (ha.disjoint i k j (List.mem_of_head? hh) h.mem)]
    exact h.opener

/-- A closing tag takes the opener on top. -/
theorem Under.closeTag_cons {top : Nat} {above : List Nat} (h : s.Under k (top :: above) j o)
    (ha : s.Apart) (c : Closer) : (s.closeTag k c).Under k above j o where
  stack := by
    obtain ⟨below, hb⟩ := h.stack
    exact ⟨below, by rw [waiting_closeTag, if_pos rfl, hb]; rfl⟩
  opener := by
    obtain ⟨below, hb⟩ := h.stack
    rw [getElem?_closeTag, hb, if_neg]
    · exact h.opener
    · rintro ⟨⟩
      exact h.notMem ha List.mem_cons_self

theorem Under.closeTag_nil (h : s.Under k [] j o) (ha : s.Apart) (c : Closer) :
    (s.closeTag k c).Settled j ∧
      (s.closeTag k c).openers[j]? = some { o with closer := some c } := by
  obtain ⟨below, hb⟩ := h.stack
  refine ⟨⟨?_, ?_⟩, ?_⟩
  · rw [size_closeTag]
    exact ha.lt_size k j h.mem
  · intro i hi
    have hk := ha.disjoint k i j h.mem (s.mem_of_mem_waiting_closeTag k c hi)
    subst hk
    have hn := ha.nodup k
    rw [waiting_closeTag, if_pos rfl, hb] at hi
    rw [hb] at hn
    exact (List.nodup_cons.1 hn).1 hi
  · rw [getElem?_closeTag, hb, h.opener]
    exact if_pos rfl

theorem Under.getElem?_openTag (h : s.Under k above j o) (ha : s.Apart) (i : Fin n)
    (o' : Opener) : (s.openTag i o').openers[j]? = some o := by
  rw [Pairing.getElem?_openTag, if_neg (Nat.ne_of_lt (ha.lt_size k j h.mem)), h.opener]

theorem Under.openTag_ne {above : List Nat} (h : s.Under k above j o) (ha : s.Apart) {i : Fin n}
    (hi : i ≠ k) (o' : Opener) : (s.openTag i o').Under k above j o where
  stack := by
    rw [lanes_openTag, if_neg hi]
    exact h.stack
  opener := h.getElem?_openTag ha i o'

/-- A tag of the name that opens goes on top, unless it encloses nothing. -/
theorem Under.openTag {above : List Nat} (h : s.Under k above j o) (ha : s.Apart)
    (o' : Opener) : (s.openTag k o').Under k
      (if o'.selfClosing || o'.literal then above else s.openers.size :: above) j o where
  stack := by
    obtain ⟨below, hb⟩ := h.stack
    refine ⟨below, ?_⟩
    rw [lanes_openTag, if_pos rfl, hb]
    dsimp only
    split <;> rfl
  opener := h.getElem?_openTag ha k o'

end Pairing

section

variable {hidden : Nat → Bool} {names : List (List Char)} {text : List Char}

/-- The run over the marks at some positions of the text. -/
def runAt (hidden : Nat → Bool) (names : List (List Char)) (text : List Char)
    (s : Pairing names.length) (positions : List Nat) : Pairing names.length :=
  (positions.filterMap (markAt hidden names text)).foldl Pairing.mark s

theorem runAt_cons_none {s : Pairing names.length} {p : Nat}
    (h : markAt hidden names text p = none) (positions : List Nat) :
    runAt hidden names text s (p :: positions) = runAt hidden names text s positions := by
  rw [runAt, List.filterMap_cons, h]
  rfl

theorem runAt_cons_some {s : Pairing names.length} {p : Nat} {m : Mark names.length}
    (h : markAt hidden names text p = some m) (positions : List Nat) :
    runAt hidden names text s (p :: positions) = runAt hidden names text (s.mark m) positions := by
  rw [runAt, List.filterMap_cons, h]
  rfl

/-- An opener that waits gets the closing tag to which the walk comes, or none. The depth is one
more than the number of openers above it. -/
theorem exists_closer_of_under (hv : Valid names) (hd : names.Nodup) {k : Fin names.length}
    (positions : List Nat) {s : Pairing names.length} {above : List Nat} {j : Nat} {o : Opener}
    (ha : s.Apart) (hn : o.closer = none) (h : s.Under k above j o) :
    ∃ c, (runAt hidden names text s positions).openers[j]? = some { o with closer := c } ∧
      c.map (·.start) = partner? hidden names text (names.get k) (above.length + 1)
        (s.lane k).guard positions := by
  induction positions generalizing s above with
  | nil =>
    refine ⟨none, ?_, rfl⟩
    rw [← hn]
    exact h.opener
  | cons p positions ih =>
    cases hm : markAt hidden names text p with
    | none =>
      rw [runAt_cons_none hm, partner?_of_other hv hd (by simp [hm]) (by simp [hm])]
      exact ih ha h
    | some m =>
      rw [runAt_cons_some hm]
      cases m with
      | closes i c =>
        have hp := (markAt_closes hm).1
        rw [Pairing.mark, hp]
        by_cases hi : i = k
        · subst hi
          by_cases hg : p < (s.lane i).guard
          · rw [if_pos hg, partner?_of_lt hg]
            exact ih ha h
          · rw [if_neg hg, partner?_of_closes hm hg]
            cases above with
            | nil =>
              obtain ⟨hs, hj⟩ := h.closeTag_nil ha c
              exact ⟨some c, (hs.foldl _).trans hj, congrArg some hp⟩
            | cons top above =>
              have next := ih (ha.closeTag i c) (h.closeTag_cons ha c)
              rw [Pairing.guard_closeTag] at next
              exact next
        · rw [partner?_of_other hv hd (by simp [hm, hi]) (by simp [hm])]
          split
          · exact ih ha h
          · have next := ih (ha.closeTag i c) (h.closeTag_ne ha hi c)
            rwa [Pairing.guard_closeTag] at next
      | opens i o' =>
        have hp := (markAt_opens hm).1
        rw [Pairing.mark, hp]
        by_cases hi : i = k
        · subst hi
          by_cases hg : p < (s.lane i).guard
          · rw [if_pos hg, partner?_of_lt hg]
            exact ih ha h
          · rw [if_neg hg, partner?_of_opens hv hd hm hg]
            have next := ih (ha.openTag i o') (h.openTag ha o')
            rw [Pairing.lanes_openTag, if_pos rfl] at next
            cases halone : o'.selfClosing || o'.literal <;> rw [halone] at next <;> exact next
        · rw [partner?_of_other hv hd (by simp [hm]) (by simp [hm, hi])]
          split
          · exact ih ha h
          · have next := ih (ha.openTag i o') (h.openTag_ne ha hi o')
            rwa [Pairing.lanes_openTag, if_neg hi] at next

theorem Pairing.Apart.runAt {s : Pairing names.length} (h : s.Apart) (positions : List Nat) :
    (runAt hidden names text s positions).Apart := h.foldl _

theorem runAt_append (s : Pairing names.length) (front back : List Nat) :
    runAt hidden names text s (front ++ back) =
      runAt hidden names text (runAt hidden names text s front) back := by
  rw [runAt, List.filterMap_append, List.foldl_append]
  rfl

/-- An opener that the run records comes from one of the positions, and until then the run has
recorded those before it. -/
theorem exists_position {s : Pairing names.length} {positions : List Nat} {j : Nat}
    (hs : s.openers.size ≤ j) (hj : j < (runAt hidden names text s positions).openers.size) :
    ∃ front p back k o, positions = front ++ p :: back ∧
      markAt hidden names text p = some (.opens k o) ∧
      (runAt hidden names text s front).openers.size = j ∧
      ¬ p < ((runAt hidden names text s front).lane k).guard := by
  induction positions generalizing s with
  | nil => exact absurd (Nat.lt_of_le_of_lt hs hj) (Nat.lt_irrefl _)
  | cons p positions ih =>
    cases hm : markAt hidden names text p with
    | none =>
      rw [runAt_cons_none hm] at hj
      obtain ⟨front, q, back, k, o, rfl, h⟩ := ih hs hj
      exact ⟨p :: front, q, back, k, o, rfl, by rwa [runAt_cons_none hm]⟩
    | some m =>
      rw [runAt_cons_some hm] at hj
      by_cases hle : (s.mark m).openers.size ≤ j
      · obtain ⟨front, q, back, k, o, rfl, h⟩ := ih hle hj
        exact ⟨p :: front, q, back, k, o, rfl, by rwa [runAt_cons_some hm]⟩
      · cases m with
        | closes k c =>
          rw [Pairing.mark] at hle
          split at hle
          · exact absurd hs hle
          · rw [Pairing.size_closeTag] at hle
            exact absurd hs hle
        | opens k o =>
          rw [Pairing.mark, (markAt_opens hm).1] at hle
          split at hle
          · exact absurd hs hle
          · next hg =>
            rw [Pairing.size_openTag] at hle
            have hsize : s.openers.size = j := by omega
            exact ⟨[], p, positions, k, o, rfl, hm, hsize, hg⟩

/-- An opener that the run records at a position is paired as a walk of its own from its `]` on
finds. -/
theorem exists_closer_of_mark (hv : Valid names) (hd : names.Nodup) {front back : List Nat} {p : Nat}
    {k : Fin names.length} {o : Opener} (hr : List.range text.length = front ++ p :: back)
    (hm : markAt hidden names text p = some (.opens k o))
    (hg : ¬ p < ((runAt hidden names text (.start names.length []) front).lane k).guard) :
    ∃ c, (runAt hidden names text (.start names.length []) (List.range text.length)).openers[
        (runAt hidden names text (.start names.length []) front).openers.size]? =
          some { o with closer := c } ∧
      c.map (·.start) =
        if o.selfClosing || o.literal then none
        else partner? hidden names text (names.get k) 1 (o.close.pos + 1)
          (List.range text.length) := by
  obtain ⟨hp, hn, hreads, -⟩ := markAt_opens hm
  subst hp
  have ha : (runAt hidden names text (.start names.length []) front).Apart :=
    (Pairing.Apart.start names.length).runAt front
  have skip : partner? hidden names text (names.get k) 1 (o.close.pos + 1)
        (List.range text.length) =
      partner? hidden names text (names.get k) 1 (o.close.pos + 1) back := by
    have hs : (front ++ o.start :: back).Pairwise (· < ·) := hr ▸ List.pairwise_lt_range
    have hlt := o.start_lt_nameEnd
    have hle := o.nameEnd_le_close
    rw [hr, partner?_append_of_lt, partner?_of_lt (by omega)]
    intro q hq
    have := (List.pairwise_append.1 hs).2.2 q hq o.start List.mem_cons_self
    omega
  rw [skip, hr, runAt_append, runAt_cons_some hm]
  generalize runAt hidden names text (.start names.length []) front = s at hg ha
  rw [Pairing.mark, if_neg hg]
  have new : (s.openTag k o).openers[s.openers.size]? = some o := by
    rw [Pairing.getElem?_openTag, if_pos rfl]
  cases halone : o.selfClosing || o.literal with
  | true =>
    have settled : (s.openTag k o).Settled s.openers.size := by
      refine ⟨(Array.getElem?_eq_some_iff.1 new).1, ?_⟩
      intro i hi
      rcases Pairing.mem_waiting_openTag hi with hi | ⟨-, -, hw⟩
      · exact Nat.lt_irrefl _ (ha.lt_size i _ hi)
      · rw [halone] at hw
        cases hw
    refine ⟨none, ?_, rfl⟩
    rw [runAt, settled.foldl, new, ← hn]
  | false =>
    have under : (s.openTag k o).Under k [] s.openers.size o := by
      refine ⟨⟨(s.lane k).waiting, ?_⟩, new⟩
      rw [Pairing.lanes_openTag, if_pos rfl, halone]
      rfl
    obtain ⟨c, hc, hw⟩ := exists_closer_of_under hv hd back (ha.openTag k o) hn under
    rw [Pairing.lanes_openTag, if_pos rfl] at hw
    exact ⟨c, hc, hw⟩

/-- What a recorded opener was paired with is found by a walk of its own from its `]` on. -/
theorem closer_of_recorded (hv : Valid names) (hd : names.Nodup) {j : Nat} {o : Opener}
    (hj : (runAt hidden names text (.start names.length [])
      (List.range text.length)).openers[j]? = some o) :
    ∃ k o₀, markAt hidden names text o.start = some (.opens k o₀) ∧
      o.closer.map (·.start) =
        if o.selfClosing || o.literal then none
        else partner? hidden names text (names.get k) 1 (o.close.pos + 1)
          (List.range text.length) := by
  have hlt := (Array.getElem?_eq_some_iff.1 hj).1
  obtain ⟨front, p, back, k, o₀, hr, hm, hsize, hg⟩ := exists_position (Nat.zero_le j) hlt
  obtain ⟨c, hc, hw⟩ := exists_closer_of_mark hv hd hr hm hg
  rw [hsize, hj] at hc
  cases hc
  have hp := (markAt_opens hm).1
  subst hp
  exact ⟨k, o₀, hm, hw⟩

end

end Shortcode.Tag
