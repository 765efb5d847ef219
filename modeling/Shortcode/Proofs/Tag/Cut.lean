import Shortcode.Proofs.Tag.Partner

namespace Shortcode

/-- The match where `p` more characters stand in front of the text. -/
def Match.shift (p : Nat) (m : Match) : Match := { m with start := p + m.start, stop := p + m.stop }

namespace Tag

def Close.shift (p : Nat) (c : Close) : Close := { c with pos := p + c.pos }

@[simp] theorem Close.pos_shift (p : Nat) (c : Close) : (c.shift p).pos = p + c.pos := rfl

def Closer.shift (p : Nat) (c : Closer) : Closer := { c with start := p + c.start, stop := p + c.stop }

def Opener.shift (p : Nat) (o : Opener) : Opener where
  start := p + o.start
  nameEnd := p + o.nameEnd
  close := o.close.shift p
  afterBracket := o.afterBracket
  closer := o.closer.map (Closer.shift p)
  start_lt_nameEnd := Nat.add_lt_add_left o.start_lt_nameEnd p
  nameEnd_le_close := Nat.add_le_add_left o.nameEnd_le_close p

def Token.shift {n : Nat} (p : Nat) : Token n → Token n
  | .opener k start afterBracket => .opener k (p + start) afterBracket
  | .closer k start stop doubled => .closer k (p + start) (p + stop) doubled

def Mark.shift {n : Nat} (p : Nat) : Mark n → Mark n
  | .opens k o => .opens k (o.shift p)
  | .closes k c => .closes k (c.shift p)

@[simp] theorem Opener.selfClosing_shift (p : Nat) (o : Opener) :
    (o.shift p).selfClosing = o.selfClosing := by
  simp only [selfClosing, shift, Close.shift, Nat.add_lt_add_iff_left]

@[simp] theorem Opener.literal_shift (p : Nat) (o : Opener) : (o.shift p).literal = o.literal := rfl

/-- The text can be cut at the position: the brackets there do not depend on the character in front
of them, and no tag that opens before the position is still open to the `]` behind it. -/
structure Seam (hidden : Nat → Bool) (names : List (List Char)) (text : List Char) (p : Nat) :
    Prop where
  le : p ≤ text.length
  bracket : follows text '[' p = false
  slash : text[p]? = some ']' → follows text '/' p = false
  closed : ∀ q < p, ∀ k o, markAt hidden names text q = some (.opens k o) → o.close.pos < p

section

variable {hidden : Nat → Bool} {names : List (List Char)} {text : List Char} {p : Nat}

theorem shows_add (hidden : Nat → Bool) (text : List Char) (c : Char) (p j : Nat) :
    shows hidden text c (p + j) = shows (fun i => hidden (p + i)) (text.drop p) c j := by
  rw [shows, shows, List.getElem?_drop]

theorem follows_add {c : Char} {j : Nat} (h : j = 0 → follows text c p = false) :
    follows text c (p + j) = follows (text.drop p) c j := by
  cases j with
  | zero => exact h rfl
  | succ j =>
    rw [follows, follows, List.getElem?_drop]
    simp only [← Nat.add_assoc, Nat.add_sub_cancel, Nat.zero_lt_succ]

theorem closeAt_add (hs : Seam hidden names text p) (j : Nat) :
    closeAt hidden text (p + j) =
      (closeAt (fun i => hidden (p + i)) (text.drop p) j).map (Close.shift p) := by
  rw [closeAt, closeAt, ← shows_add]
  split
  · next h =>
    have hf : follows text '/' (p + j) = follows (text.drop p) '/' j := by
      refine follows_add ?_
      rintro rfl
      exact hs.slash (shows_iff.1 h).1
    rw [hf, List.getElem?_drop]
    rfl
  · rfl

theorem token_readTag_add (names : List (List Char)) (p start : Nat) (afterBracket : Bool)
    (rest : List Char) :
    (readTag names (p + start) afterBracket rest).token =
      (readTag names start afterBracket rest).token.map (Token.shift p) := by
  rw [readTag.eq_def, readTag.eq_def]
  split
  · dsimp only
    rw [Option.map_map]
    congr 1
    funext k
    simp only [Function.comp_apply, Token.shift, Nat.add_assoc]
  · dsimp only
    rw [Option.map_map]
    rfl

theorem tokenAt_add (hs : Seam hidden names text p) (j : Nat) :
    tokenAt hidden names text (p + j) =
      (tokenAt (fun i => hidden (p + i)) names (text.drop p) j).map (Token.shift p) := by
  rw [tokenAt, tokenAt, ← shows_add]
  split
  · rw [follows_add fun _ => hs.bracket, token_readTag_add, List.drop_drop, Nat.add_assoc]
  · rfl

/-- The `]` from the cut on are those of the second part. -/
theorem dropWhile_closesOf (hs : Seam hidden names text p) :
    (closesOf hidden text).dropWhile (·.pos < p) =
      (closesOf (fun i => hidden (p + i)) (text.drop p)).map (Close.shift p) := by
  have front : ∀ c ∈ (List.range p).filterMap (closeAt hidden text), decide (c.pos < p) = true := by
    intro c hc
    obtain ⟨q, hq, hc⟩ := List.mem_filterMap.1 hc
    rw [(closeAt_eq_some_iff.1 hc).1]
    exact decide_eq_true (List.mem_range.1 hq)
  have back : ((List.range (text.drop p).length).map (p + ·)).filterMap (closeAt hidden text) =
      (closesOf (fun i => hidden (p + i)) (text.drop p)).map (Close.shift p) := by
    rw [List.filterMap_map, closesOf, List.map_filterMap]
    congr 1
    funext j
    exact closeAt_add hs j
  have hl : text.length = p + (text.drop p).length := by
    have := hs.le
    rw [List.length_drop]
    omega
  rw [closesOf, hl, List.range_add, List.filterMap_append, back,
    List.dropWhile_append_of_pos front]
  cases closesOf (fun i => hidden (p + i)) (text.drop p) with
  | nil => rfl
  | cons c closes =>
    apply List.dropWhile_cons_of_neg
    intro h
    have := of_decide_eq_true h
    rw [Close.pos_shift] at this
    omega

theorem nextClose_shift {p q q' : Nat} (hq : q' = p + q) (closes : List Close) :
    (nextClose q' (closes.map (Close.shift p))).1 =
      (nextClose q closes).1.map fun c =>
        ⟨c.val.shift p, hq ▸ Nat.add_le_add_left c.property p⟩ := by
  subst hq
  induction closes with
  | nil => rfl
  | cons c closes ih =>
    rw [List.map_cons, nextClose, nextClose]
    by_cases h : q ≤ c.pos
    · rw [dif_pos h, dif_pos (show p + q ≤ (c.shift p).pos from Nat.add_le_add_left h p)]
      rfl
    · rw [dif_neg h, dif_neg (show ¬ p + q ≤ (c.shift p).pos from
        fun hp => h (Nat.le_of_add_le_add_left hp))]
      exact ih

theorem mark?_shift (hs : Seam hidden names text p) (t : Token names.length) :
    (t.shift p).mark? (closesOf hidden text) =
      (t.mark? (closesOf (fun i => hidden (p + i)) (text.drop p))).map (Mark.shift p) := by
  cases t with
  | closer k start stop doubled => rfl
  | opener k start afterBracket =>
    have next := nextClose_shift
      (show p + start + 1 + (names.get k).length = p + (start + 1 + (names.get k).length) by omega)
      (closesOf (fun i => hidden (p + i)) (text.drop p))
    rw [← dropWhile_closesOf hs, nextClose_dropWhile (by omega)] at next
    rw [Token.shift, Token.mark?, Token.mark?, next, Option.map_map, Option.map_map]
    congr 1
    funext c
    simp only [Function.comp_apply, Mark.shift, Opener.shift, Option.map_none, Nat.add_assoc]

/-- A mark behind the cut is the mark of the second part. -/
theorem markAt_add (hs : Seam hidden names text p) (j : Nat) :
    markAt hidden names text (p + j) =
      (markAt (fun i => hidden (p + i)) names (text.drop p) j).map (Mark.shift p) := by
  rw [markAt, markAt, tokenAt_add hs, Option.map_bind, Option.bind_map]
  congr 1
  funext t
  exact mark?_shift hs t

end

theorem Opener.toMatch_shift (p : Nat) (o : Opener) (cursor : Nat) (rest : List Char) :
    (o.shift p).toMatch (p + cursor) rest = (o.toMatch cursor rest).shift p := by
  have hn := o.start_lt_nameEnd
  have hp := o.nameEnd_le_close
  have lead : (decide (p + cursor < (o.shift p).start) && (o.shift p).afterBracket) =
      (decide (cursor < o.start) && o.afterBracket) := by
    rw [decide_eq_decide.2 (show p + cursor < (o.shift p).start ↔ _ from Nat.add_lt_add_iff_left)]
    rfl
  have start : p + o.start - (decide (cursor < o.start) && o.afterBracket).toNat =
      p + (o.start - (decide (cursor < o.start) && o.afterBracket).toNat) := by
    cases hl : decide (cursor < o.start) && o.afterBracket with
    | false => rfl
    | true =>
      have := of_decide_eq_true (Bool.and_eq_true_iff.1 hl).1
      rw [Bool.toNat_true]
      omega
  have attrEnd : (if o.selfClosing then p + o.close.pos - 1 else p + o.close.pos) =
      p + if o.selfClosing then o.close.pos - 1 else o.close.pos := by
    split
    · omega
    · rfl
  have stop (a b : Nat) : p + a + b = p + (a + b) := Nat.add_assoc p a b
  simp only [toMatch, selfClosing_shift, Match.shift, lead]
  simp only [shift, Close.shift, start, attrEnd, stop, Nat.add_sub_add_left]
  cases o.closer with
  | none => simp only [Option.map_none, stop]
  | some c => simp only [Option.map_some, Closer.shift, stop, Nat.add_sub_add_left]

theorem matchesFrom_shift (p cursor : Nat) (rest : List Char) (openers : List Opener) :
    matchesFrom (p + cursor) rest (openers.map (Opener.shift p)) =
      (matchesFrom cursor rest openers).map (Match.shift p) := by
  induction openers generalizing cursor rest with
  | nil => rfl
  | cons o openers ih =>
    rw [List.map_cons, matchesFrom, matchesFrom]
    by_cases h : o.start < cursor
    · rw [if_pos h, if_pos (show (o.shift p).start < p + cursor from Nat.add_lt_add_left h p)]
      exact ih cursor rest
    · rw [if_neg h, if_neg (show ¬ (o.shift p).start < p + cursor from
        fun hp => h (Nat.lt_of_add_lt_add_left hp))]
      have stop : ((o.toMatch cursor rest).shift p).stop = p + (o.toMatch cursor rest).stop := rfl
      simp only [o.toMatch_shift, List.map_cons, stop, Nat.add_sub_add_left, ih]

end Tag

end Shortcode
