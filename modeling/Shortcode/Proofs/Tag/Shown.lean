import Shortcode.Proofs.Html.Boundary
import Shortcode.Proofs.Tag.Extent
import Shortcode.Proofs.Tag.Mark

namespace Shortcode

open Html (Delimited)

/-- The places of the brackets that make up a match. Without escape brackets or a closing tag some
of them fall together. -/
def Match.brackets (m : Match) : List Nat :=
  [m.start, m.tagStart, m.openStop - 1, m.tagStop - 1, m.stop - 1] ++
    (if m.inner.isSome then [m.innerStop] else [])

namespace Tag

section

variable {hidden : Nat → Bool} {names : List (List Char)} {text : List Char}
  {k : Fin names.length} {o : Opener} {c : Closer}

theorem shows_succ (hh : Delimited hidden text) {p : Nat} {b d : Char}
    (h : shows hidden text b p = true) (hd : text[p + 1]? = some d) (hne : d ≠ '<') :
    shows hidden text d (p + 1) = true := by
  refine shows_iff.2 ⟨hd, Bool.eq_false_iff.2 fun hnext => ?_⟩
  have hb := hh.enter p (shows_iff.1 h).2 hnext
  rw [hd] at hb
  exact hne (Option.some.inj hb)

theorem shows_pred (hh : Delimited hidden text) {p : Nat} {b d : Char}
    (h : shows hidden text b (p + 1) = true) (hd : text[p]? = some d) (hne : d ≠ '>') :
    shows hidden text d p = true := by
  obtain ⟨hb, hnext⟩ := shows_iff.1 h
  refine shows_iff.2 ⟨hd, Bool.eq_false_iff.2 fun hp => ?_⟩
  rcases hh.leave p hp hnext with hc | hc
  · rw [hd] at hc
    exact hne (Option.some.inj hc)
  · rw [hb] at hc
    cases hc

/-- Behind a bracket that is not hidden a piece without `<` is in plain view. -/
theorem hidden_of_isPrefix (hh : Delimited hidden text) {p : Nat} (hp : hidden p = false)
    {piece : List Char} (h : piece <+: text.drop (p + 1)) (hn : '<' ∉ piece) {j : Nat}
    (hj : j < piece.length) : hidden (p + 1 + j) = false := by
  refine hh.eq_false hp (by omega) fun q hpq hqj hb => hn ?_
  have hlt : q - (p + 1) < piece.length := by omega
  have hat := Text.getElem?_of_isPrefix_drop h hlt
  rw [Nat.add_sub_cancel' hpq, hb] at hat
  exact List.mem_of_getElem? hat.symm

/-- A closing tag that starts in plain view ends there too. -/
theorem shows_of_closes (hh : Delimited hidden text) {name : List Char} {p : Nat} {b : Char}
    (hs : shows hidden text b p = true) (hsl : text[p + 1]? = some '/')
    (hv : ∀ c ∈ name, isReserved c = false) (hc : closes (text.drop (p + 2)) name = true) :
    shows hidden text ']' (p + name.length + 2) = true := by
  obtain ⟨hlt, he⟩ := List.getElem?_eq_some_iff.1 hsl
  have hp : '/' :: (name ++ [']']) <+: text.drop (p + 1) := by
    rw [List.drop_eq_getElem_cons hlt, he]
    exact List.cons_prefix_cons.2 ⟨rfl, closes_iff.1 hc⟩
  have hn : '<' ∉ '/' :: (name ++ [']']) := by
    intro hm
    rcases List.mem_cons.1 hm with hm | hm
    · cases hm
    · rcases List.mem_append.1 hm with hm | hm
      · cases hv _ hm
      · cases List.mem_singleton.1 hm
  have hj : name.length + 1 < ('/' :: (name ++ [']'])).length := by simp
  have hat := Text.getElem?_of_isPrefix_drop hp hj
  have hend : p + 1 + (name.length + 1) = p + name.length + 2 := by omega
  rw [hend, List.getElem?_cons_succ, List.getElem?_concat_length] at hat
  exact shows_iff.2 ⟨hat, hend ▸ hidden_of_isPrefix hh (shows_iff.1 hs).2 hp hn hj⟩

theorem Closer.Reads.shows_stop (hh : Delimited hidden text) (hv : Valid names)
    (h : c.Reads hidden names text k) : shows hidden text ']' (c.stop - 1) = true := by
  have hend : c.stop - 1 = c.start + (names.get k).length + 2 := by
    rw [h.stop]
    omega
  rw [hend]
  exact shows_of_closes hh h.shown h.slash (hv _ (List.get_mem names k)).2
    (get_of_findFinIdx? h.name)

theorem Opener.Reads.shows_close (h : o.Reads hidden names text k) :
    shows hidden text ']' o.close.pos = true := (closeAt_eq_some_iff.1 h.close).2.1

theorem Opener.Fits.shows_stop (hh : Delimited hidden text) (hv : Valid names)
    (h : o.Fits hidden names text k) : shows hidden text ']' (o.stop - 1) = true := by
  rw [stop]
  split
  · next c hc => exact (h.encloses c hc).2.2.2.shows_stop hh hv
  · exact h.reads.shows_close

theorem Opener.Fits.shows_stop_toMatch (hh : Delimited hidden text) (hv : Valid names)
    (h : o.Fits hidden names text k) {cursor : Nat} (hc : cursor ≤ o.start) :
    shows hidden text ']' ((o.toMatch cursor (text.drop cursor)).stop - 1) = true := by
  have hstop := h.shows_stop hh hv
  have hpos := Nat.zero_lt_of_lt h.close_lt_stop
  rw [o.toMatch_drop hc]
  dsimp only
  cases ht : o.trail with
  | false => exact hstop
  | true =>
    have hb : text[o.stop]? = some ']' := of_decide_eq_true (h.trail_eq ▸ ht)
    have hnext := shows_succ hh hstop (by rwa [Nat.sub_add_cancel hpos]) (by decide)
    rwa [Nat.sub_add_cancel hpos] at hnext

theorem Opener.Fits.shows_start_toMatch (hh : Delimited hidden text)
    (h : o.Fits hidden names text k) {cursor : Nat} (hc : cursor ≤ o.start) :
    shows hidden text '[' (o.toMatch cursor (text.drop cursor)).start = true := by
  rw [o.toMatch_drop hc]
  dsimp only
  cases hl : decide (cursor < o.start) && o.afterBracket with
  | false => exact h.reads.shown
  | true =>
    obtain ⟨hlt, hb⟩ := (Opener.lead_iff h.reads).1 hl
    have hpos : o.start - 1 + 1 = o.start := Nat.sub_add_cancel (Nat.zero_lt_of_lt hlt)
    exact shows_pred hh (hpos ▸ h.reads.shown) hb (by decide)

/-- No bracket of a match is hidden. -/
theorem Opener.Fits.hidden_of_mem_brackets (hh : Delimited hidden text) (hv : Valid names)
    (h : o.Fits hidden names text k) {cursor : Nat} (hc : cursor ≤ o.start) {p : Nat}
    (hp : p ∈ (o.toMatch cursor (text.drop cursor)).brackets) : hidden p = false := by
  have shown {b : Char} {q : Nat} (hs : shows hidden text b q = true) : hidden q = false :=
    (shows_iff.1 hs).2
  have hstart := shown (h.shows_start_toMatch hh hc)
  have hopen := shown h.reads.shown
  have hclose := shown h.reads.shows_close
  have htag := shown (h.shows_stop hh hv)
  have hstop := shown (h.shows_stop_toMatch hh hv hc)
  rw [Match.brackets, (h.start_toMatch hc).2, h.openStop_toMatch hc, o.tagStop_toMatch,
    h.innerStop_toMatch hc, o.inner_toMatch hc, Nat.add_sub_cancel] at hp
  rcases List.mem_append.1 hp with hp | hp
  · simp only [List.mem_cons, List.not_mem_nil, or_false] at hp
    rcases hp with rfl | rfl | rfl | rfl | rfl
    · exact hstart
    · exact hopen
    · exact hclose
    · exact htag
    · exact hstop
  · cases hcl : o.closer with
    | none => simp [hcl] at hp
    | some c =>
      have hpc : p = c.start := by simpa [hcl] using hp
      rw [hpc]
      exact shown (h.encloses c hcl).2.2.2.shown

end

end Tag

/-- Tags and comments that are read as such are delimited, and so is nothing at all. -/
theorem Scanner.delimited_hidden (s : Scanner) (text : List Char) :
    Delimited (s.hidden text) text := by
  cases hi : s.ignoreHtml with
  | false =>
    have plain : s.hidden text = fun _ => false := by
      funext p
      rw [hidden, hi, Bool.false_and]
    rw [plain]
    exact Html.delimited_false text
  | true =>
    have html : s.hidden text = Html.isProtected text := by
      funext p
      rw [hidden, hi, Bool.true_and]
    rw [html]
    exact Html.delimited_isProtected text

end Shortcode
