import Shortcode.Tag.Pairing

namespace Shortcode.Tag

theorem Pairing.lane_set {n : Nat} (closes : List Close) (lanes : Vector Lane n)
    (openers : Array Opener) (k j : Fin n) (l : Lane) :
    (⟨closes, lanes.set k l k.isLt, openers⟩ : Pairing n).lane j =
      if k = j then l else lanes.get j := by
  change (lanes.set k l k.isLt)[j.val] = _
  rw [Vector.getElem_set]
  simp only [Fin.ext_iff]
  rfl

/-- The `]` that are left stand at or behind the end of the name, and the first of them is taken. -/
theorem nextClose_eq (q : Nat) (closes : List Close) :
    (nextClose q closes).2 = closes.dropWhile (·.pos < q) ∧
      (nextClose q closes).1.map (·.val) = (closes.dropWhile (·.pos < q)).head? := by
  induction closes with
  | nil => exact ⟨rfl, rfl⟩
  | cons c closes ih =>
    rw [nextClose]
    by_cases h : q ≤ c.pos
    · simp [h]
    · simpa [h, Nat.lt_of_not_le h] using ih

namespace Pairing

@[simp] theorem lanes_start {n : Nat} (closes : List Close) (k : Fin n) :
    (start n closes).lane k = ⟨0, []⟩ := Vector.getElem_replicate _

variable {n : Nat} (s : Pairing n) (k : Fin n) (c : Closer) (o : Opener)

@[simp] theorem closes_closeTag : (s.closeTag k c).closes = s.closes := by
  rw [closeTag]
  split <;> rfl

@[simp] theorem guard_closeTag (j : Fin n) :
    ((s.closeTag k c).lane j).guard = (s.lane j).guard := by
  rw [closeTag]
  split
  · rfl
  · dsimp only
    rw [lane_set]
    split
    · next h => rw [← h]
    · rfl

theorem waiting_closeTag (j : Fin n) :
    ((s.closeTag k c).lane j).waiting =
      if k = j then (s.lane k).waiting.tail else (s.lane j).waiting := by
  rw [closeTag]
  split
  · next h =>
    split
    · next hk => rw [← hk, h, List.tail_nil]
    · rfl
  · next h =>
    dsimp only
    rw [lane_set, h, List.tail_cons]
    split <;> rfl

theorem getElem?_closeTag (j : Nat) :
    (s.closeTag k c).openers[j]? =
      if (s.lane k).waiting.head? = some j then
        s.openers[j]?.map fun o => { o with closer := some c }
      else s.openers[j]? := by
  rw [closeTag]
  split
  · next h =>
    rw [h, if_neg]
    exact nofun
  · next h =>
    rw [h, List.head?_cons]
    simp only [Array.getElem?_modify, Option.some.injEq]

@[simp] theorem size_closeTag : (s.closeTag k c).openers.size = s.openers.size := by
  rw [closeTag]
  split
  · rfl
  · exact Array.size_modify

theorem mem_of_mem_waiting_closeTag {j : Fin n} {i : Nat}
    (h : i ∈ ((s.closeTag k c).lane j).waiting) : i ∈ (s.lane j).waiting := by
  rw [waiting_closeTag] at h
  split at h
  · next hk => exact hk ▸ List.mem_of_mem_tail h
  · exact h

theorem lanes_openTag (j : Fin n) :
    (s.openTag k o).lane j =
      if k = j then
        ⟨o.close.pos + 1, if o.selfClosing || o.literal then (s.lane k).waiting
          else s.openers.size :: (s.lane k).waiting⟩
      else s.lane j := lane_set _ _ _ k j _

theorem getElem?_openTag (j : Nat) :
    (s.openTag k o).openers[j]? = if j = s.openers.size then some o else s.openers[j]? :=
  Array.getElem?_push

/-- An opener stays as it is when another is recorded. -/
theorem getElem?_openTag_of_some {j : Nat} {o' : Opener} (h : s.openers[j]? = some o') :
    (s.openTag k o).openers[j]? = some o' := by
  rw [getElem?_openTag, if_neg (Nat.ne_of_lt (Array.getElem?_eq_some_iff.1 h).1), h]

theorem getElem?_openTag_eq_some {j : Nat} {o' : Opener}
    (h : (s.openTag k o).openers[j]? = some o') :
    s.openers[j]? = some o' ∨ j = s.openers.size ∧ o' = o := by
  rw [getElem?_openTag] at h
  split at h
  · next hj => exact .inr ⟨hj, (Option.some.inj h).symm⟩
  · exact .inl h

@[simp] theorem size_openTag : (s.openTag k o).openers.size = s.openers.size + 1 :=
  Array.size_push _

section

variable {names : List (List Char)} {s : Pairing names.length} {k : Fin names.length}
  {start : Nat} {afterBracket : Bool} (hg : ¬ start < (s.lane k).guard)

include hg

/-- With no `]` ahead nothing is recorded. -/
theorem step_opener_of_none
    (hn : (nextClose (start + 1 + (names.get k).length) s.closes).1 = none) :
    s.step names (.opener k start afterBracket) =
      { s with closes := (nextClose (start + 1 + (names.get k).length) s.closes).2 } := by
  rw [step, if_neg hg]
  dsimp only
  split
  · next h => rw [h]
  · next h =>
    rw [h] at hn
    cases hn

theorem step_opener_of_some {close : { c : Close // start + 1 + (names.get k).length ≤ c.pos }}
    (hn : (nextClose (start + 1 + (names.get k).length) s.closes).1 = some close) :
    s.step names (.opener k start afterBracket) =
      { s with closes := (nextClose (start + 1 + (names.get k).length) s.closes).2 }.openTag k
        ⟨start, start + 1 + (names.get k).length, close, afterBracket, none, by omega,
          close.property⟩ := by
  rw [step, if_neg hg]
  dsimp only
  split
  · next h =>
    rw [h] at hn
    cases hn
  · next h =>
    rw [h] at hn
    cases hn
    simp only [h]

end

end Pairing

end Shortcode.Tag
