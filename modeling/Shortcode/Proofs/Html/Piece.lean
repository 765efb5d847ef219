import Mathlib.Data.List.Basic
import Shortcode.Proofs.Html.Membership
import Shortcode.Proofs.Text.Slice

namespace Shortcode

namespace Text

/-- The first place is found without the text behind it. -/
theorem indexOf?_of_append {pattern s t : List Char} {k : Nat}
    (h : indexOf? pattern (s ++ t) = some k) (hk : k + pattern.length ≤ s.length) :
    indexOf? pattern s = some k := by
  induction s generalizing k with
  | nil =>
    obtain rfl : k = 0 := by
      rw [List.length_nil] at hk
      omega
    have hp : pattern = [] := List.eq_nil_of_length_eq_zero (by simpa using hk)
    rw [hp]
    rfl
  | cons c s ih =>
    have short (hp : pattern.length ≤ (c :: s).length) :
        pattern.isPrefixOf (c :: s) = pattern.isPrefixOf (c :: (s ++ t)) := by
      rw [Bool.eq_iff_iff, List.isPrefixOf_iff_prefix, List.isPrefixOf_iff_prefix,
        ← List.cons_append]
      exact ⟨fun h => h.trans (List.prefix_append ..),
        fun h => List.prefix_of_prefix_length_le h (List.prefix_append ..) hp⟩
    rw [List.cons_append, indexOf?, ← short (Nat.le_trans (Nat.le_add_left ..) hk)] at h
    rw [indexOf?]
    split
    · next hp =>
      rw [if_pos hp] at h
      exact h
    · next hp =>
      rw [if_neg hp] at h
      obtain ⟨j, hj, rfl⟩ := Option.map_eq_some_iff.1 h
      rw [ih hj (by rw [List.length_cons] at hk; omega)]
      rfl

end Text

namespace Html

/-- What the walk finds at a character that belongs to no span yet: nothing, a span that takes in
some characters more, or a tag that is never closed. -/
inductive Step where
  | plain
  | span (more : Nat)
  | unclosed

def stepAt (c : Char) (rest : List Char) : Step :=
  if c = '<' then
    match ['!', '-', '-'].isPrefixOf? rest with
    | some body => .span (commentLength body - 1)
    | none =>
      if rest.head?.any startsTag then
        match rest.idxOf? '>' with
        | some k => .span (k + 1)
        | none => .unclosed
      else .plain
  else .plain

theorem spansFrom_cons (i : Nat) (c : Char) (rest : List Char) :
    spansFrom i 0 (c :: rest) =
      match stepAt c rest with
      | .plain => spansFrom (i + 1) 0 rest
      | .span more => ⟨i, i + (more + 1)⟩ :: spansFrom (i + 1) more rest
      | .unclosed => [] := by
  rw [spansFrom, stepAt]
  by_cases hc : c = '<'
  · rw [if_pos hc, if_pos hc]
    cases ['!', '-', '-'].isPrefixOf? rest with
    | some body =>
      dsimp only
      rw [Nat.sub_add_cancel (commentLength_pos body)]
    | none =>
      cases rest.head?.any startsTag with
      | false => rfl
      | true => cases rest.idxOf? '>' <;> rfl
  · rw [if_neg hc, if_neg hc]

def Span.shift (d : Nat) (s : Span) : Span := ⟨d + s.start, d + s.stop⟩

theorem spansFrom_add (d i skip : Nat) (text : List Char) :
    spansFrom (d + i) skip text = (spansFrom i skip text).map (Span.shift d) := by
  induction text generalizing i skip with
  | nil => rfl
  | cons c rest ih =>
    cases skip with
    | succ skip => exact ih (i + 1) skip
    | zero =>
      rw [spansFrom_cons, spansFrom_cons]
      cases stepAt c rest with
      | plain => exact ih (i + 1) 0
      | span more =>
        dsimp only
        rw [List.map_cons, Span.shift, Nat.add_assoc, Nat.add_assoc, ih]
      | unclosed => rfl

theorem covers_cons (a : Span) (spans : List Span) (p : Nat) :
    covers (a :: spans) p = (a.contains p || covers spans p) := List.any_cons

theorem covers_shift (d : Nat) (spans : List Span) (p : Nat) :
    covers (spans.map (Span.shift d)) (d + p) = covers spans p := by
  rw [covers, List.any_map, covers]
  congr 1
  funext s
  simp [Span.contains, Span.shift]

theorem Span.contains_eq_false_iff {s : Span} {p : Nat} :
    s.contains p = false ↔ p < s.start ∨ s.stop ≤ p := by
  rw [contains, Bool.and_eq_false_iff, decide_eq_false_iff_not, decide_eq_false_iff_not,
    Nat.not_le, Nat.not_lt]

/-- Behind a character in plain view the walk starts anew, unless it has ended. -/
theorem covers_spansFrom_append {front : List Char} (back : List Char) {i skip : Nat}
    (hs : skip = 0 ∨ skip < front.length)
    (hc : front ≠ [] → covers (spansFrom i skip (front ++ back)) (i + front.length - 1) = false) :
    (∀ p, i + front.length ≤ p → covers (spansFrom i skip (front ++ back)) p = false) ∨
      ∀ p, i + front.length ≤ p → covers (spansFrom i skip (front ++ back)) p =
        covers (spansFrom (i + front.length) 0 back) p := by
  induction front generalizing i skip with
  | nil =>
    obtain rfl : skip = 0 := hs.resolve_right (Nat.not_lt_zero _)
    exact .inr fun _ _ => rfl
  | cons c front ih =>
    have hlen : i + (c :: front).length = i + 1 + front.length := by
      rw [List.length_cons]
      omega
    have hc := hc nofun
    rw [List.cons_append] at hc ⊢
    rw [hlen] at hc ⊢
    cases skip with
    | succ skip =>
      rw [List.length_cons] at hs
      exact ih (.inr (by omega)) fun _ => hc
    | zero =>
      rw [spansFrom_cons] at hc ⊢
      cases hstep : stepAt c (front ++ back) with
      | plain =>
        rw [hstep] at hc
        exact ih (.inl rfl) fun _ => hc
      | span more =>
        rw [hstep] at hc
        simp only [covers_cons, Bool.or_eq_false_iff, Span.contains_eq_false_iff] at hc ⊢
        have past {p : Nat} (hp : i + 1 + front.length ≤ p) :
            (⟨i, i + (more + 1)⟩ : Span).contains p = false := by
          rw [Span.contains_eq_false_iff]
          dsimp only
          omega
        refine (ih (by omega) fun _ => hc.2).imp ?_ ?_
        · intro hnone p hp
          exact ⟨Span.contains_eq_false_iff.1 (past hp), hnone p hp⟩
        · intro hsame p hp
          rw [past hp, Bool.false_or, hsame p hp]
      | unclosed => exact .inl fun _ _ => rfl

theorem le_commentLength (body : List Char) : 4 + min body.length 1 ≤ commentLength body := by
  rw [commentLength]
  split <;> omega

/-- A comment that ends inside a text ends there without the text behind it. -/
theorem commentLength_of_append {body back : List Char} (hb : back ≠ [])
    (h : commentLength (body ++ back) ≤ 4 + body.length) :
    commentLength body = commentLength (body ++ back) := by
  have hpos := List.length_pos_iff.2 hb
  rw [commentLength] at h
  rw [commentLength, commentLength]
  cases hi : Text.indexOf? ['-', '-', '>'] (body ++ back) with
  | none =>
    rw [hi, List.length_append] at h
    dsimp only at h
    omega
  | some k =>
    rw [hi] at h
    dsimp only at h
    have hk : k + ['-', '-', '>'].length ≤ body.length := by
      change k + 3 ≤ body.length
      omega
    rw [Text.indexOf?_of_append hi hk]

/-- A tag that is closed inside a text is closed there without the text behind it. -/
theorem idxOf?_of_append {c : Char} {front back : List Char}
    (h : ∀ k, (front ++ back).idxOf? c = some k → k < front.length) :
    front.idxOf? c = (front ++ back).idxOf? c := by
  cases hk : (front ++ back).idxOf? c with
  | none =>
    rw [List.idxOf?_eq_none_iff] at hk ⊢
    exact fun hm => hk (List.mem_append_left _ hm)
  | some k =>
    have hlt := h k hk
    obtain ⟨_, he, hfirst⟩ := List.idxOf?_eq_some_iff.1 hk
    refine List.idxOf?_eq_some_iff.2 ⟨hlt, ?_, ?_⟩
    · rwa [List.getElem_append_left hlt] at he
    · intro j hj
      have := hfirst j hj
      rwa [List.getElem_append_left (Nat.lt_trans hj hlt)] at this

/-- A character that cannot follow the `<` of a tag stands behind a text. What begins in the text and
does not reach the character begins there without it. -/
theorem stepAt_of_append {c d : Char} {front back : List Char} (hd : startsTag d = false)
    (h : ∀ more, stepAt c (front ++ d :: back) = .span more → more ≤ front.length) :
    stepAt c front = stepAt c (front ++ d :: back) := by
  rw [stepAt] at h
  rw [stepAt, stepAt]
  by_cases hc : c = '<'
  · rw [if_pos hc] at h
    rw [if_pos hc, if_pos hc]
    cases hp : ['!', '-', '-'].isPrefixOf? (front ++ d :: back) with
    | some body =>
      rw [hp] at h
      have hfit := h _ rfl
      have hle := le_commentLength body
      have hbody := List.isPrefixOf?_eq_some_iff_append_eq.1 hp
      rcases List.append_eq_append_iff.1 hbody with ⟨body', rfl, rfl⟩ | ⟨short, hs, hb⟩
      · rw [List.isPrefixOf?_eq_some_iff_append_eq.2 rfl]
        rw [List.length_append, List.length_cons, List.length_cons, List.length_cons,
          List.length_nil] at hfit
        dsimp only
        rw [commentLength_of_append (List.cons_ne_nil d back) (by omega)]
      · -- the text would have to end within the `<!--`
        have hs := congrArg List.length hs
        have hb := congrArg List.length hb
        simp only [List.length_append, List.length_cons, List.length_nil] at hs hb
        omega
    | none =>
      have hn : ['!', '-', '-'].isPrefixOf? front = none := by
        apply Option.eq_none_iff_forall_ne_some.2
        intro body hbody
        have := List.isPrefixOf?_eq_some_iff_append_eq.1 hbody
        rw [← this, List.append_assoc, List.isPrefixOf?_eq_some_iff_append_eq.2 rfl] at hp
        cases hp
      rw [hp] at h
      rw [hn]
      dsimp only at h ⊢
      cases front with
      | nil => simp [hd]
      | cons e front =>
        rw [List.cons_append, List.head?_cons] at h ⊢
        rw [List.head?_cons]
        split
        · next he =>
          rw [if_pos he] at h
          rw [← List.cons_append, ← idxOf?_of_append]
          intro k hk
          rw [← List.cons_append, hk] at h
          exact h _ rfl
        · rfl
  · rw [if_neg hc, if_neg hc]

/-- In front of a character in plain view that cannot follow the `<` of a tag, the walk sees what it
sees without the text from there on. -/
theorem covers_spansFrom_left {front back : List Char} {d : Char} (hd : startsTag d = false)
    {i skip : Nat} (hs : skip ≤ front.length)
    (hc : covers (spansFrom i skip (front ++ d :: back)) (i + front.length) = false) {p : Nat}
    (hp : p < i + front.length) :
    covers (spansFrom i skip front) p = covers (spansFrom i skip (front ++ d :: back)) p := by
  induction front generalizing i skip with
  | nil =>
    symm
    apply List.any_eq_false.2
    intro s hs
    have := (spansFrom_ordered i skip _).2 s hs
    rw [Bool.not_eq_true, Span.contains_eq_false_iff]
    rw [List.length_nil] at hp
    omega
  | cons c front ih =>
    have hlen : i + (c :: front).length = i + 1 + front.length := by
      rw [List.length_cons]
      omega
    rw [hlen] at hc hp
    rw [List.cons_append] at hc ⊢
    cases skip with
    | succ skip => exact ih (Nat.le_of_succ_le_succ hs) hc hp
    | zero =>
      have short : ∀ more, stepAt c (front ++ d :: back) = .span more → more ≤ front.length := by
        intro more hstep
        rw [spansFrom_cons, hstep] at hc
        simp only [covers_cons, Bool.or_eq_false_iff, Span.contains_eq_false_iff] at hc
        omega
      rw [spansFrom_cons] at hc ⊢
      rw [spansFrom_cons, stepAt_of_append hd short]
      cases hstep : stepAt c (front ++ d :: back) with
      | plain =>
        rw [hstep] at hc
        exact ih (Nat.zero_le _) hc hp
      | span more =>
        rw [hstep] at hc
        simp only [covers_cons, Bool.or_eq_false_iff] at hc ⊢
        rw [ih (short more hstep) hc.2 hp]
      | unclosed => rfl

/-- What is protected in a piece that begins behind a character in plain view and ends in front of
one is protected in the piece alone. -/
theorem isProtected_slice {text : List Char} {a b : Nat} (hab : a ≤ b)
    (ha : a ≠ 0 → isProtected text (a - 1) = false) {d : Char} (hd : startsTag d = false)
    (hat : text[b]? = some d) (hb : isProtected text b = false) {p : Nat} (hp : a + p < b)
    (h : isProtected text (a + p) = true) : isProtected (Text.slice text a b) p = true := by
  obtain ⟨hlt, rfl⟩ := List.getElem?_eq_some_iff.1 hat
  have hfront : (text.take a).length = a := List.length_take_of_le (by omega)
  have hpiece : (Text.slice text a b).length = b - a := Text.length_slice (Nat.le_of_lt hlt)
  have behind : Text.slice text a b ++ text[b] :: text.drop (b + 1) = text.drop a := by
    rw [← List.drop_eq_getElem_cons hlt, Text.slice_append_drop text hab]
  have cut := @covers_spansFrom_append (text.take a) (text.drop a) 0 0 (.inl rfl)
  simp only [List.take_append_drop, hfront, Nat.zero_add] at cut
  rcases cut fun hne => ha fun h0 => hne (by rw [h0, List.take_zero]) with hnone | hsame
  · exact absurd h (by simp [isProtected, protectedSpans, hnone])
  · rw [isProtected, protectedSpans, hsame _ (Nat.le_add_right ..), ← behind,
      ← covers_spansFrom_left hd (Nat.zero_le _) _ (by omega)] at h
    · have shifted := spansFrom_add a 0 0 (Text.slice text a b)
      rw [Nat.add_zero] at shifted
      rwa [shifted, covers_shift] at h
    · rw [behind, hpiece, Nat.add_sub_cancel' hab, ← hsame b hab]
      exact hb

theorem more_le_length {c : Char} {rest : List Char} {more : Nat}
    (h : stepAt c rest = .span more) : more ≤ rest.length := by
  rw [stepAt] at h
  split at h
  · split at h
    · next body hp =>
      cases h
      have hrest := congrArg List.length (List.isPrefixOf?_eq_some_iff_append_eq.1 hp)
      rw [List.length_append, List.length_cons, List.length_cons, List.length_cons,
        List.length_nil] at hrest
      rw [commentLength]
      split
      · next k hk =>
        have := congrArg List.length (Text.eq_of_indexOf? hk)
        simp only [List.length_append, List.length_take, List.length_drop, List.length_cons,
          List.length_nil] at this
        omega
      · omega
    · split at h
      · split at h
        · next k hk =>
          cases h
          exact (List.idxOf?_eq_some_iff.1 hk).1
        · cases h
      · cases h
  · cases h

/-- No span reaches out of the text. -/
theorem stop_le {i skip : Nat} {text : List Char} :
    ∀ s ∈ spansFrom i skip text, s.stop ≤ i + text.length := by
  induction text generalizing i skip with
  | nil => exact nofun
  | cons c rest ih =>
    rw [List.length_cons, Nat.add_comm rest.length, ← Nat.add_assoc]
    cases skip with
    | succ skip => exact ih
    | zero =>
      rw [spansFrom_cons]
      cases hstep : stepAt c rest with
      | plain => exact ih
      | span more =>
        have := more_le_length hstep
        refine List.forall_mem_cons.2 ⟨?_, ih⟩
        dsimp only
        omega
      | unclosed => exact nofun

end Html

end Shortcode
