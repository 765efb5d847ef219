import Mathlib.Data.List.Pairwise
import Shortcode.Attribute.Written
import Shortcode.Proofs.Attribute.Shape

namespace Shortcode.Attribute

/-- A token and the position at which it starts. -/
structure Placed where
  start : Nat
  token : Token

/-- Where the token ends: behind its last character. -/
def Placed.stop (a : Placed) : Nat := a.start + a.token.text.length

/-- The first position from `n` on at which no separator stands. -/
structure NextStart (text : List Char) (n p : Nat) : Prop where
  le : n ≤ p
  starts : ∃ c, text[p]? = some c ∧ isSeparator c = false
  skipped : ∀ q c, n ≤ q → q < p → text[q]? = some c → isSeparator c = true

/-- Each token starts where the first character stands that is no separator, from position `n` on
for the first token and from the end of the token before for the others. -/
def Follows (text : List Char) : Nat → List Placed → Prop
  | _, [] => True
  | n, a :: placed => NextStart text n a.start ∧ Follows text a.stop placed

/-- A text cut into tokens. They are side by side, every character that is no separator lies in
exactly one of them, and none is followed by anything but a separator or fits with a later shape than
it could. -/
structure Reading (text : List Char) (placed : List Placed) : Prop where
  disjoint : placed.Pairwise fun a b => a.stop ≤ b.start
  covers : ∀ p c, text[p]? = some c → isSeparator c = false →
    ∃! a, a ∈ placed ∧ a.start ≤ p ∧ p < a.stop
  starts : Follows text 0 placed
  fits : ∀ a ∈ placed, a.token.FitsFirst (text.drop a.start)

variable {text after : List Char} {n p : Nat} {placed other : List Placed} {t : Token}

theorem tokens_eq_nil (h : readToken (text.dropWhile isSeparator) = none) : tokens text = [] := by
  rw [tokens]
  split
  · rfl
  · next h' => cases h.symm.trans h'

theorem tokens_eq_cons (h : readToken (text.dropWhile isSeparator) = some (t, after)) :
    tokens text = t :: tokens after := by
  rw [tokens]
  split
  · next h' => cases h.symm.trans h'
  · next h' =>
    cases h.symm.trans h'
    rfl

theorem NextStart.eq {q : Nat} (hp : NextStart text n p) (hq : NextStart text n q) : p = q := by
  obtain ⟨c, hc, hcs⟩ := hp.starts
  obtain ⟨d, hd, hds⟩ := hq.starts
  rcases Nat.lt_trichotomy p q with h | h | h
  · rw [hq.skipped p c hp.le h hc] at hcs
    cases hcs
  · exact h
  · rw [hp.skipped q d hq.le h hd] at hds
    cases hds

/-- Behind the separators at `n` the next token starts, or the text ends. -/
theorem exists_skip (text : List Char) (n : Nat) :
    ∃ p, n ≤ p ∧ (text.drop n).dropWhile isSeparator = text.drop p ∧
      ∀ q c, n ≤ q → q < p → text[q]? = some c → isSeparator c = true := by
  have whole := List.takeWhile_append_dropWhile (p := isSeparator) (l := text.drop n)
  refine ⟨n + ((text.drop n).takeWhile isSeparator).length, Nat.le_add_right _ _, ?_, ?_⟩
  · calc (text.drop n).dropWhile isSeparator
      _ = ((text.drop n).takeWhile isSeparator ++ (text.drop n).dropWhile isSeparator).drop
            ((text.drop n).takeWhile isSeparator).length := List.drop_left.symm
      _ = (text.drop n).drop ((text.drop n).takeWhile isSeparator).length := by rw [whole]
      _ = text.drop (n + ((text.drop n).takeWhile isSeparator).length) := List.drop_drop
  · intro q c hn hq hc
    have hlt : q - n < ((text.drop n).takeWhile isSeparator).length := by omega
    have hat : (text.drop n)[q - n]? = some c := by
      rw [List.getElem?_drop, Nat.add_sub_cancel' hn, hc]
    rw [← whole, List.getElem?_append_left hlt] at hat
    exact List.all_eq_true.1 List.all_takeWhile c (List.mem_of_getElem? hat)

/-- The tokens from position `n` on. -/
structure ReadFrom (text : List Char) (n : Nat) (placed : List Placed) : Prop where
  starts : Follows text n placed
  fits : ∀ a ∈ placed, a.token.FitsFirst (text.drop a.start)
  covers : ∀ p c, n ≤ p → text[p]? = some c → isSeparator c = false →
    ∃ a ∈ placed, a.start ≤ p ∧ p < a.stop

theorem Follows.le_start (h : Follows text n placed) : ∀ a ∈ placed, n ≤ a.start := by
  induction placed generalizing n with
  | nil => nofun
  | cons a placed ih =>
    obtain ⟨ha, hrest⟩ := h
    refine List.forall_mem_cons.2 ⟨ha.le, fun b hb => ?_⟩
    exact Nat.le_trans (Nat.le_trans ha.le (Nat.le_add_right _ _)) (ih hrest b hb)

theorem Follows.disjoint (h : Follows text n placed) :
    placed.Pairwise fun a b => a.stop ≤ b.start := by
  induction placed generalizing n with
  | nil => exact .nil
  | cons a placed ih => exact List.pairwise_cons.2 ⟨h.2.le_start, ih h.2⟩

/-- Of tokens side by side no two hold the same position. -/
theorem eq_of_disjoint (h : placed.Pairwise fun a b => a.stop ≤ b.start) {a b : Placed}
    (ha : a ∈ placed) (hb : b ∈ placed) (hap : a.start ≤ p ∧ p < a.stop)
    (hbp : b.start ≤ p ∧ p < b.stop) : a = b := by
  by_contra hne
  have either : placed.Pairwise fun a b => a.stop ≤ b.start ∨ b.stop ≤ a.start := h.imp Or.inl
  have : Std.Symm fun a b : Placed => a.stop ≤ b.start ∨ b.stop ≤ a.start := ⟨fun _ _ => Or.symm⟩
  have apart := either.forall ha hb hne
  omega

theorem reading_iff : Reading text placed ↔ ReadFrom text 0 placed := by
  constructor
  · intro h
    refine ⟨h.starts, h.fits, fun p c _ hc hs => ?_⟩
    obtain ⟨a, ⟨ha, hp⟩, -⟩ := h.covers p c hc hs
    exact ⟨a, ha, hp⟩
  · intro h
    refine ⟨h.starts.disjoint, fun p c hc hs => ?_, h.starts, h.fits⟩
    obtain ⟨a, ha, hp⟩ := h.covers p c (Nat.zero_le p) hc hs
    exact ⟨a, ⟨ha, hp⟩, fun b hb => eq_of_disjoint h.starts.disjoint hb.1 ha hb.2 hp⟩

theorem ReadFrom.tail {a : Placed} (h : ReadFrom text n (a :: placed)) :
    ReadFrom text a.stop placed where
  starts := h.starts.2
  fits b hb := h.fits b (List.mem_cons_of_mem a hb)
  covers p c hp hc hs := by
    have hn := Nat.le_trans h.starts.1.le (Nat.le_add_right a.start a.token.text.length)
    obtain ⟨b, hb, hle, hlt⟩ := h.covers p c (Nat.le_trans hn hp) hc hs
    rcases List.mem_cons.1 hb with rfl | hb
    · exact absurd hp (Nat.not_le_of_lt hlt)
    · exact ⟨b, hb, hle, hlt⟩

theorem ReadFrom.cons {a : Placed} (hn : NextStart text n a.start)
    (first : a.token.FitsFirst (text.drop a.start)) (h : ReadFrom text a.stop placed) :
    ReadFrom text n (a :: placed) where
  starts := ⟨hn, h.starts⟩
  fits := List.forall_mem_cons.2 ⟨first, h.fits⟩
  covers p c hp hc hs := by
    by_cases hstart : p < a.start
    · rw [hn.skipped p c hp hstart hc] at hs
      cases hs
    · by_cases hstop : p < a.stop
      · exact ⟨a, List.mem_cons_self, Nat.le_of_not_lt hstart, hstop⟩
      · obtain ⟨b, hb, hr⟩ := h.covers p c (Nat.le_of_not_lt hstop) hc hs
        exact ⟨b, List.mem_cons_of_mem a hb, hr⟩

/-- A token starts where a character stands that is no separator, so no token is left out. -/
theorem ReadFrom.ne_nil {a : Placed} (h : ReadFrom text n (a :: placed)) :
    ¬ ReadFrom text n [] := by
  intro hnil
  obtain ⟨c, hc, hs⟩ := h.starts.1.starts
  obtain ⟨_, hb, -⟩ := hnil.covers a.start c h.starts.1.le hc hs
  cases hb

theorem ReadFrom.eq (h : ReadFrom text n placed) (h' : ReadFrom text n other) :
    other = placed := by
  induction placed generalizing n other with
  | nil =>
    cases other with
    | nil => rfl
    | cons b other => exact absurd h h'.ne_nil
  | cons a placed ih =>
    cases other with
    | nil => exact absurd h' h.ne_nil
    | cons b other =>
      have start : b.start = a.start := h'.starts.1.eq h.starts.1
      have token : b.token = a.token := by
        have hb := h'.fits b List.mem_cons_self
        rw [start] at hb
        exact hb.eq (h.fits a List.mem_cons_self)
      obtain rfl : b = a := by
        cases a
        cases b
        cases start
        cases token
        rfl
      rw [ih h.tail h'.tail]

/-- From a position on there are only separators, or a token is read behind them. -/
theorem exists_next (text : List Char) (n : Nat) :
    (readToken ((text.drop n).dropWhile isSeparator) = none ∧ ReadFrom text n []) ∨
      ∃ a : Placed, NextStart text n a.start ∧ a.token.FitsFirst (text.drop a.start) ∧
        readToken ((text.drop n).dropWhile isSeparator) = some (a.token, text.drop a.stop) := by
  obtain ⟨p, hnp, hskip, hsep⟩ := exists_skip text n
  rw [hskip]
  cases hd : text.drop p with
  | nil =>
    refine .inl ⟨rfl, trivial, nofun, fun q c hq hc hs => ?_⟩
    have hp := List.drop_eq_nil_iff.1 hd
    have hlt := (List.getElem?_eq_some_iff.1 hc).1
    rw [hsep q c hq (by omega) hc] at hs
    cases hs
  | cons c rest =>
    have hc : text[p]? = some c := by
      rw [← Nat.add_zero p, ← List.getElem?_drop, hd]
      rfl
    have hcs : isSeparator c = false := by
      have stop := List.head?_dropWhile_not isSeparator (text.drop n)
      rw [hskip, hd] at stop
      simpa using stop
    obtain ⟨t, first⟩ := exists_fitsFirst hcs rest
    rw [← hd] at first ⊢
    refine .inr ⟨⟨p, t⟩, ⟨hnp, ⟨c, hc, hcs⟩, hsep⟩, first, ?_⟩
    rw [readToken_eq_some_iff.2 ⟨first, rfl⟩, List.drop_drop]
    rfl

/-- The tokens that are read have their places in the text. The recursion is that of `tokens`: past
the separators, over one token, and on behind it. -/
theorem exists_readFrom (text : List Char) (n : Nat) :
    ∃ placed, ReadFrom text n placed ∧ tokens (text.drop n) = placed.map (·.token) := by
  induction hm : text.length - n using Nat.strongRecOn generalizing n with
  | ind m ih =>
    rcases exists_next text n with ⟨hread, hend⟩ | ⟨a, hnext, first, hread⟩
    · exact ⟨[], hend, tokens_eq_nil hread⟩
    · obtain ⟨c, hc, -⟩ := hnext.starts
      have hlt := (List.getElem?_eq_some_iff.1 hc).1
      have hpos := List.length_pos_iff.2 (text_ne_nil_of_fits first.fits)
      have smaller : text.length - a.stop < m := by
        have := hnext.le
        rw [Placed.stop]
        omega
      obtain ⟨placed, hplaced, htokens⟩ := ih _ smaller a.stop rfl
      refine ⟨a :: placed, hplaced.cons hnext first, ?_⟩
      rw [tokens_eq_cons hread, htokens, List.map_cons]

end Shortcode.Attribute

namespace Shortcode.Written

open Attribute

/-- An attribute text with more than blanks in it, with its special spaces folded, is cut into tokens
in one way only, and its map files these from left to right. -/
theorem parse_reading {text : String} (h : text.toList.all isBlank = false) :
    ∃ placed, Reading (foldSpaces text.toList) placed ∧
      (∀ other, Reading (foldSpaces text.toList) other → other = placed) ∧
      tokens (foldSpaces text.toList) = placed.map (·.token) ∧
      parse text = .given ((placed.map (·.token)).foldl Attributes.addToken .empty) := by
  obtain ⟨placed, read, htokens⟩ := exists_readFrom (foldSpaces text.toList) 0
  rw [List.drop_zero] at htokens
  refine ⟨placed, reading_iff.2 read, fun other ho => read.eq (reading_iff.1 ho), htokens, ?_⟩
  rw [parse, h, htokens]
  rfl

/-- Text glued to a closing quote makes it a part of a bare value, and so does the end of the text
without one. Special spaces inside quotes are folded. -/
theorem parse_reading_glued :
    (let text := "\tA=\"x\"y b='p\u00a0\u200bq'\u00a0\"r s\" 'u'v =w b=\""
     text.toList.all isBlank = false ∧
      ∃ placed, Reading (foldSpaces text.toList) placed ∧
        placed.map (·.token) = [⟨some ['A'], .bare, "\"x\"y".toList⟩,
          ⟨some ['b'], .single, "p q".toList⟩, ⟨none, .double, "r s".toList⟩,
          ⟨none, .bare, "'u'v".toList⟩, ⟨none, .bare, "=w".toList⟩, ⟨some ['b'], .bare, ['"']⟩] ∧
        parse text = .given ⟨[(.name "a", "\"x\"y"), (.name "b", "\""), (.index 0, "r s"),
          (.index 1, "'u'v"), (.index 2, "=w")], 3⟩) := by
  intro text
  have given : text.toList.all isBlank = false := by decide +kernel
  obtain ⟨placed, read, -, htokens, hparse⟩ := parse_reading given
  refine ⟨given, placed, read, ?_, ?_⟩
  · rw [← htokens]
    decide +kernel
  · rw [hparse, ← htokens]
    decide +kernel

end Shortcode.Written
