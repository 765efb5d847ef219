import Shortcode.Proofs.Tag.Recorded
import Shortcode.Tag.Name

namespace Shortcode.Tag

/-- Names of which each can be registered. -/
def Valid (names : List (List Char)) : Prop :=
  ∀ name ∈ names, name ≠ [] ∧ ∀ c ∈ name, isReserved c = false

theorem plain_of_validateName {name : String} (h : validateName name = .ok ()) :
    name.toList ≠ [] ∧ ∀ c ∈ name.toList, isReserved c = false := by
  rw [validateName_eq_ok_iff, nameFault?] at h
  by_cases he : name.isEmpty = true
  · rw [if_pos he] at h
    cases h
  · by_cases hr : name.toList.any isReserved = true
    · rw [if_neg he, if_pos hr] at h
      cases h
    · constructor
      · intro hnil
        apply he
        rw [String.isEmpty_iff, ← String.ofList_toList (s := name), hnil]
      · intro c hc
        apply Bool.eq_false_iff.2
        intro hcr
        exact hr (List.any_eq_true.2 ⟨c, hc, hcr⟩)

theorem valid_of_validateName {names : List String}
    (h : ∀ name ∈ names, validateName name = .ok ()) : Valid (names.map String.toList) := by
  intro name hm
  obtain ⟨name, hn, rfl⟩ := List.mem_map.1 hm
  exact plain_of_validateName (h name hn)

/-- What a `[` means: a tag opens, which has a `]`, or a tag closes. -/
inductive Mark (n : Nat) where
  | opens (name : Fin n) (opener : Opener)
  | closes (name : Fin n) (closer : Closer)

def Mark.start {n : Nat} : Mark n → Nat
  | .opens _ o => o.start
  | .closes _ c => c.start

/-- The mark of a token, where the `]` of an opening tag is looked for among all of the text. -/
def Token.mark? {names : List (List Char)} (all : List Close) :
    Token names.length → Option (Mark names.length)
  | .closer k start stop doubled => some (.closes k ⟨start, stop, doubled⟩)
  | .opener k start afterBracket =>
    (nextClose (start + 1 + (names.get k).length) all).1.map fun ⟨close, h⟩ =>
      .opens k ⟨start, start + 1 + (names.get k).length, close, afterBracket, none, by omega, h⟩

def markAt (hidden : Nat → Bool) (names : List (List Char)) (text : List Char) (p : Nat) :
    Option (Mark names.length) :=
  (tokenAt hidden names text p).bind (·.mark? (closesOf hidden text))

def marksOf (hidden : Nat → Bool) (names : List (List Char)) (text : List Char) :
    List (Mark names.length) :=
  (List.range text.length).filterMap (markAt hidden names text)

/-- Takes in one mark. -/
def Pairing.mark {n : Nat} (s : Pairing n) : Mark n → Pairing n
  | .closes k c => if c.start < (s.lane k).guard then s else s.closeTag k c
  | .opens k o => if o.start < (s.lane k).guard then s else s.openTag k o

/-- The state without the `]` that are still ahead. -/
def Pairing.forget {n : Nat} (s : Pairing n) : Pairing n := { s with closes := [] }

@[simp] theorem Pairing.openers_forget {n : Nat} (s : Pairing n) :
    s.forget.openers = s.openers := rfl

@[simp] theorem Pairing.lane_forget {n : Nat} (s : Pairing n) (k : Fin n) :
    s.forget.lane k = s.lane k := rfl

theorem Pairing.forget_closeTag {n : Nat} (s : Pairing n) (k : Fin n) (c : Closer) :
    (s.closeTag k c).forget = s.forget.closeTag k c := by
  rw [closeTag, closeTag, lane_forget]
  cases (s.lane k).waiting <;> rfl

theorem nextClose_dropWhile {b q : Nat} (h : b ≤ q) (all : List Close) :
    nextClose q (all.dropWhile (·.pos < b)) = nextClose q all := by
  induction all with
  | nil => rfl
  | cons c all ih =>
    rw [List.dropWhile_cons]
    split
    · next hc =>
      have hq : ¬ q ≤ c.pos := by
        have := of_decide_eq_true hc
        omega
      rw [ih, nextClose, dif_neg hq]
    · rfl

/-- The position from which a token looks for a `]`. -/
def Token.reach {names : List (List Char)} : Token names.length → Nat
  | .closer _ start _ _ => start
  | .opener k start _ => start + 1 + (names.get k).length

/-- A token acts as its mark, as long as no `]` behind its name has been dropped. -/
theorem Pairing.forget_step {names : List (List Char)} {all : List Close} {b : Nat}
    {s : Pairing names.length} (hs : s.closes = all.dropWhile (·.pos < b))
    (t : Token names.length) (hb : b ≤ t.reach) :
    (s.step names t).forget = (t.mark? all).elim s.forget s.forget.mark ∧
      ∃ b' ≤ t.reach, (s.step names t).closes = all.dropWhile (·.pos < b') := by
  cases t with
  | closer k start stop doubled =>
    rw [step, Token.mark?, Option.elim_some, mark]
    dsimp only
    by_cases hg : start < (s.lane k).guard
    · rw [if_pos hg, lane_forget, if_pos hg]
      exact ⟨rfl, b, hb, hs⟩
    · rw [if_neg hg, lane_forget, if_neg hg]
      exact ⟨s.forget_closeTag k _, b, hb, by rw [closes_closeTag, hs]⟩
  | opener k start afterBracket =>
    change b ≤ start + 1 + (names.get k).length at hb
    have hc := (nextClose_eq (start + 1 + (names.get k).length) all).1
    rw [step, Token.mark?, hs]
    dsimp only
    rw [nextClose_dropWhile hb]
    by_cases hg : start < (s.lane k).guard
    · rw [if_pos hg]
      refine ⟨?_, b, hb, hs⟩
      cases (nextClose (start + 1 + (names.get k).length) all).1 with
      | none => rfl
      | some close =>
        rw [Option.map_some, Option.elim_some, mark]
        exact (if_pos hg).symm
    · rw [if_neg hg]
      generalize nextClose (start + 1 + (names.get k).length) all = found at hc
      obtain ⟨found, left⟩ := found
      dsimp only at hc
      cases found with
      | none => exact ⟨rfl, start + 1 + (names.get k).length, Nat.le_refl _, hc⟩
      | some close =>
        refine ⟨?_, start + 1 + (names.get k).length, Nat.le_refl _, hc⟩
        rw [Option.map_some, Option.elim_some, mark]
        exact (if_neg hg).symm

theorem Pairing.forget_foldl {names : List (List Char)} {all : List Close}
    {tokens : List (Token names.length)} (ho : tokens.Pairwise fun t u => t.reach ≤ u.reach)
    {s : Pairing names.length} {b : Nat} (hs : s.closes = all.dropWhile (·.pos < b))
    (hb : ∀ t ∈ tokens, b ≤ t.reach) :
    (tokens.foldl (step names) s).forget =
      (tokens.filterMap (·.mark? all)).foldl mark s.forget := by
  induction tokens generalizing s b with
  | nil => rfl
  | cons t tokens ih =>
    obtain ⟨ht, ho⟩ := List.pairwise_cons.1 ho
    obtain ⟨hf, b', hb', hs'⟩ := forget_step hs t (hb t List.mem_cons_self)
    rw [List.foldl_cons, ih ho hs' fun u hu => Nat.le_trans hb' (ht u hu), hf,
      List.filterMap_cons]
    cases t.mark? all with
    | none => rfl
    | some m => rfl

section

variable {hidden : Nat → Bool} {names : List (List Char)} {text : List Char}

/-- A name that is read at a position ends in front of the next bracket. -/
theorem name_end_le {name : List Char} (hv : ∀ c ∈ name, isReserved c = false) {a q : Nat}
    (hn : name <+: text.drop a) (ha : a ≤ q) {c : Char} (hq : text[q]? = some c)
    (hc : isReserved c = true) : a + name.length ≤ q := by
  apply Nat.le_of_not_lt
  intro hlt
  have hj : q - a < name.length := by omega
  have hm := Text.getElem?_of_isPrefix_drop hn hj
  rw [Nat.add_sub_cancel' ha, hq] at hm
  have := hv c (List.mem_of_getElem? hm.symm)
  rw [hc] at this
  cases this

theorem start_le_reach (t : Token names.length) {p : Nat}
    (ht : tokenAt hidden names text p = some t) : p ≤ t.reach := by
  cases t with
  | closer k start stop doubled => exact Nat.le_of_eq (tokenAt_closer ht).1.symm
  | opener k start afterBracket =>
    rw [Token.reach, (tokenAt_opener ht).1]
    omega

theorem reach_le_of_lt (hv : Valid names) {p q : Nat} (hpq : p < q) {t : Token names.length}
    (ht : tokenAt hidden names text p = some t) (hq : text[q]? = some '[') : t.reach ≤ q := by
  cases t with
  | closer k start stop doubled => exact (tokenAt_closer ht).1 ▸ Nat.le_of_lt hpq
  | opener k start afterBracket =>
    obtain ⟨rfl, -, hk⟩ := tokenAt_opener ht
    have hn := isPrefix_of_opens (get_of_findFinIdx? hk)
    exact name_end_le (hv _ (List.get_mem names k)).2 hn hpq hq rfl

theorem filterMap_tokensOf :
    (tokensOf hidden names text).filterMap (·.mark? (closesOf hidden text)) =
      marksOf hidden names text := by
  rw [tokensOf, marksOf, List.filterMap_filterMap]
  rfl

/-- Tokens look for a `]` from places that come in their own order. -/
theorem pairwise_reach (hv : Valid names) :
    (tokensOf hidden names text).Pairwise fun t u => t.reach ≤ u.reach := by
  apply List.Pairwise.filterMap _ _ List.pairwise_lt_range
  intro p q hpq t ht u hu
  have hq := (shows_iff.1 (shows_of_tokenAt hu)).1
  exact Nat.le_trans (reach_le_of_lt hv hpq ht hq) (start_le_reach u hu)

/-- With valid names the pass runs over the marks of the text. -/
theorem forget_run (hv : Valid names) :
    (Pairing.run names (closesOf hidden text) (tokensOf hidden names text)).forget =
      (marksOf hidden names text).foldl Pairing.mark (.start names.length []) := by
  have hs : (Pairing.start names.length (closesOf hidden text)).closes =
      (closesOf hidden text).dropWhile (·.pos < 0) := by
    rw [Pairing.start]
    cases closesOf hidden text <;> rfl
  rw [Pairing.run, Pairing.forget_foldl (pairwise_reach hv) hs fun _ _ => Nat.zero_le _,
    filterMap_tokensOf]
  rfl

end

end Shortcode.Tag
