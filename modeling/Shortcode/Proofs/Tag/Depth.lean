import Mathlib.Data.List.Nodup
import Mathlib.Data.List.TakeWhile
import Shortcode.Proofs.Tag.Extent
import Shortcode.Proofs.Tag.Mark

namespace Shortcode.Tag

section

variable (hidden : Nat → Bool) (names : List (List Char)) (text : List Char)

/-- The first `]` at or behind a position that is not hidden. -/
def closeFrom? (q : Nat) : Option Nat :=
  (List.range text.length).find? fun p => q ≤ p && shows hidden text ']' p

/-- The name is closed at a position. -/
def closesTag (name : List Char) (p : Nat) : Bool :=
  shows hidden text '[' p && ('/' :: (name ++ [']'])).isPrefixOf (text.drop (p + 1))

/-- The `]` of the tag that opens at a position, if it is one of this name and not of another. -/
def opensTag? (name : List Char) (p : Nat) : Option Nat :=
  if shows hidden text '[' p && names.find? (opens (text.drop (p + 1))) = some name then
    closeFrom? hidden text (p + 1 + name.length)
  else none

/-- The tag with its name between two positions and its `]` at a third encloses nothing: it is
written `[name …/]` or `[[name …]]`. -/
def isAlone (start nameEnd close : Nat) : Bool :=
  (nameEnd < close && follows text '/' close) ||
    (follows text '[' start && text[close + 1]? = some ']')

/-- Walks over positions from left to right inside `depth` tags of a name. What stands before
`guard` belongs to the last opening tag of the name. Gives the place of the closing tag that ends
the outermost of them. -/
def partner? (name : List Char) : Nat → Nat → List Nat → Option Nat
  | _, _, [] => none
  | depth, guard, p :: positions =>
    if p < guard then partner? name depth guard positions
    else if closesTag hidden text name p then
      if depth = 1 then some p else partner? name (depth - 1) guard positions
    else
      match opensTag? hidden names text name p with
      | some close =>
        let inside := if isAlone text p (p + 1 + name.length) close then depth else depth + 1
        partner? name inside (close + 1) positions
      | none => partner? name depth guard positions

end

section

variable {hidden : Nat → Bool} {names : List (List Char)} {text : List Char} {p : Nat}
  {k : Fin names.length}

theorem closeFrom?_eq (hidden : Nat → Bool) (text : List Char) (q : Nat) :
    closeFrom? hidden text q =
      ((nextClose q (closesOf hidden text)).1.map (·.val)).map (·.pos) := by
  have hp : (fun c : Close => decide (c.pos < q)) = fun c => !decide (q ≤ c.pos) := by
    funext c
    rw [← decide_not]
    exact decide_eq_decide.2 Nat.not_le.symm
  have ha : (fun p => (closeAt hidden text p).any fun c => decide (q ≤ c.pos)) =
      fun p => q ≤ p && shows hidden text ']' p := by
    funext p
    rw [closeAt]
    split
    · next h => simp [h]
    · next h => simp [h]
  rw [(nextClose_eq q _).2, hp, ← List.find?_eq_head?_dropWhile_not, closeFrom?, closesOf,
    List.find?_filterMap, ha]
  cases hf : (List.range text.length).find? fun p => q ≤ p && shows hidden text ']' p with
  | none => rfl
  | some p =>
    have hs := List.find?_some hf
    rw [Option.bind_some, closeAt, if_pos (Bool.and_eq_true_iff.1 hs).2]
    rfl

theorem tokenAt_of_opens (hv : Valid names) (hs : shows hidden text '[' p = true)
    (hk : names.findFinIdx? (opens (text.drop (p + 1))) = some k) :
    tokenAt hidden names text p = some (.opener k p (follows text '[' p)) := by
  rw [tokenAt_of_shows hs, readTag.eq_def]
  split
  · next tail ht =>
    obtain ⟨hne, hr⟩ := hv _ (List.get_mem names k)
    have hp := isPrefix_of_opens (get_of_findFinIdx? hk)
    have := name_end_le hr hp (Nat.le_refl (p + 1)) (getElem?_of_drop ht).1 rfl
    have := List.length_pos_iff.2 hne
    omega
  · rw [hk]
    rfl

theorem tokenAt_of_closes (hs : shows hidden text '[' p = true) (hp : text[p + 1]? = some '/')
    (hk : names.findFinIdx? (closes (text.drop (p + 2))) = some k) :
    ∃ stop doubled, tokenAt hidden names text p = some (.closer k p stop doubled) := by
  obtain ⟨hlt, he⟩ := List.getElem?_eq_some_iff.1 hp
  have ht : text.drop (p + 1) = '/' :: text.drop (p + 2) := by
    rw [List.drop_eq_getElem_cons hlt, he]
  rw [tokenAt_of_shows hs, ht, readTag, hk]
  exact ⟨_, _, rfl⟩

/-- A closing tag bears one name. -/
theorem eq_of_closes {a b tail : List Char} (ha : ∀ c ∈ a, isReserved c = false)
    (hb : ∀ c ∈ b, isReserved c = false) (hca : closes tail a = true)
    (hcb : closes tail b = true) : a = b := by
  have fits {x y : List Char} (hx : ∀ c ∈ x, isReserved c = false) (hpx : x <+: tail)
      (hpy : y ++ [']'] <+: tail) : x.length ≤ y.length := by
    have hy : tail[0 + y.length]? = some ']' := by
      rw [Text.getElem?_of_isPrefix_drop (a := 0) hpy (by simp), List.getElem?_concat_length]
    have := name_end_le (a := 0) hx hpx (Nat.zero_le _) hy rfl
    omega
  have hpa := (List.prefix_append a _).trans (closes_iff.1 hca)
  have hpb := (List.prefix_append b _).trans (closes_iff.1 hcb)
  have hle := fits ha hpa (closes_iff.1 hcb)
  exact (List.prefix_of_prefix_length_le hpa hpb hle).eq_of_length
    (Nat.le_antisymm hle (fits hb hpb (closes_iff.1 hca)))

theorem closes_of_closesTag {name : List Char} (h : closesTag hidden text name p = true) :
    shows hidden text '[' p = true ∧ text[p + 1]? = some '/' ∧
      closes (text.drop (p + 2)) name = true := by
  obtain ⟨hs, hp⟩ := Bool.and_eq_true_iff.1 h
  obtain ⟨rest, hr⟩ := List.isPrefixOf_iff_prefix.1 hp
  obtain ⟨hsl, hd⟩ := getElem?_of_drop hr.symm
  refine ⟨hs, hsl, closes_iff.2 ⟨rest, ?_⟩⟩
  rw [hd]
  rfl

/-- A closing tag that bears the name of a lane is a mark of that lane. -/
theorem markAt_of_closesTag (hv : Valid names) (hd : names.Nodup)
    (h : closesTag hidden text (names.get k) p = true) :
    ∃ c, markAt hidden names text p = some (.closes k c) := by
  obtain ⟨hs, hsl, hc⟩ := closes_of_closesTag h
  have hk : names.findFinIdx? (closes (text.drop (p + 2))) = some k := by
    apply List.findFinIdx?_eq_some_iff.2
    refine ⟨hc, ?_⟩
    intro j hj hcj
    have he := eq_of_closes (hv _ (List.getElem_mem _)).2 (hv _ (List.getElem_mem _)).2 hcj hc
    exact Nat.ne_of_lt hj ((List.Nodup.getElem_inj_iff hd).1 he)
  obtain ⟨stop, doubled, ht⟩ := tokenAt_of_closes hs hsl hk
  exact ⟨⟨p, stop, doubled⟩, by rw [markAt, ht]; rfl⟩

theorem markAt_closes {c : Closer} (h : markAt hidden names text p = some (.closes k c)) :
    c.start = p ∧ c.Reads hidden names text k := by
  obtain ⟨t, ht, hm⟩ := Option.bind_eq_some_iff.1 h
  have hs := shows_of_tokenAt ht
  cases t with
  | closer j start stop doubled =>
    cases hm
    obtain ⟨rfl, hst, hd, hsl, hk⟩ := tokenAt_closer ht
    exact ⟨rfl, hs, hsl, hk, hst, hd⟩
  | opener j start after =>
    obtain ⟨_, -, he⟩ := Option.map_eq_some_iff.1 hm
    cases he

theorem markAt_opens {o : Opener} (h : markAt hidden names text p = some (.opens k o)) :
    o.start = p ∧ o.closer = none ∧ o.Reads hidden names text k ∧
      closeFrom? hidden text o.nameEnd = some o.close.pos := by
  obtain ⟨t, ht, hm⟩ := Option.bind_eq_some_iff.1 h
  have hs := shows_of_tokenAt ht
  cases t with
  | closer j start stop doubled => cases hm
  | opener j start after =>
    obtain ⟨⟨close, hle⟩, hc, he⟩ := Option.map_eq_some_iff.1 hm
    cases he
    obtain ⟨rfl, ha, hk⟩ := tokenAt_opener ht
    have hcl : closeFrom? hidden text (start + 1 + (names.get k).length) = some close.pos := by
      rw [closeFrom?_eq, hc]
      rfl
    have hm : close ∈ closesOf hidden text := by
      have := (nextClose_eq (start + 1 + (names.get k).length) (closesOf hidden text)).2
      rw [hc] at this
      exact List.dropWhile_subset _ (List.mem_of_head? this.symm)
    exact ⟨rfl, rfl, ⟨hs, hk, rfl, mem_closesOf.1 hm, ha⟩, hcl⟩

/-- A tag of the name of a lane that opens and has a `]` is a mark of that lane. -/
theorem markAt_of_opensTag? (hv : Valid names) (hd : names.Nodup) {q : Nat}
    (h : opensTag? hidden names text (names.get k) p = some q) :
    ∃ o, markAt hidden names text p = some (.opens k o) := by
  rw [opensTag?] at h
  split at h
  · next hcond =>
    obtain ⟨hs, hf⟩ := Bool.and_eq_true_iff.1 hcond
    have hf := of_decide_eq_true hf
    rw [List.find?_eq_map_findFinIdx?_getElem] at hf
    obtain ⟨j, hj, he⟩ := Option.map_eq_some_iff.1 hf
    have hjk : j = k := Fin.ext ((List.Nodup.getElem_inj_iff hd).1 he)
    subst hjk
    rw [closeFrom?_eq, Option.map_map] at h
    obtain ⟨close, hc, -⟩ := Option.map_eq_some_iff.1 h
    refine ⟨⟨p, p + 1 + (names.get j).length, close.val, follows text '[' p, none, by omega,
      close.property⟩, ?_⟩
    rw [markAt, tokenAt_of_opens hv hs hj, Option.bind_some, Token.mark?, hc]
    rfl
  · cases h

theorem partner?_of_lt {name : List Char} {depth guard : Nat} (hg : p < guard)
    (positions : List Nat) :
    partner? hidden names text name depth guard (p :: positions) =
      partner? hidden names text name depth guard positions := by
  rw [partner?, if_pos hg]

theorem partner?_append_of_lt {name : List Char} {depth guard : Nat} {front : List Nat}
    (hf : ∀ p ∈ front, p < guard) (positions : List Nat) :
    partner? hidden names text name depth guard (front ++ positions) =
      partner? hidden names text name depth guard positions := by
  induction front with
  | nil => rfl
  | cons p front ih =>
    obtain ⟨hp, hf⟩ := List.forall_mem_cons.1 hf
    rw [List.cons_append, partner?_of_lt hp, ih hf]

/-- Positions that are no mark of the name leave the walk as it is. -/
theorem partner?_of_other (hv : Valid names) (hd : names.Nodup) {depth guard : Nat}
    (hc : ∀ c, markAt hidden names text p ≠ some (.closes k c))
    (ho : ∀ o, markAt hidden names text p ≠ some (.opens k o)) (positions : List Nat) :
    partner? hidden names text (names.get k) depth guard (p :: positions) =
      partner? hidden names text (names.get k) depth guard positions := by
  rw [partner?]
  split
  · rfl
  · rw [if_neg]
    · split
      · next close h =>
        obtain ⟨o, h⟩ := markAt_of_opensTag? hv hd h
        exact absurd h (ho o)
      · rfl
    · intro h
      obtain ⟨c, h⟩ := markAt_of_closesTag hv hd h
      exact hc c h

theorem partner?_of_closes {depth guard : Nat} {c : Closer}
    (h : markAt hidden names text p = some (.closes k c)) (hg : ¬ p < guard)
    (positions : List Nat) :
    partner? hidden names text (names.get k) depth guard (p :: positions) =
      if depth = 1 then some p
      else partner? hidden names text (names.get k) (depth - 1) guard positions := by
  obtain ⟨rfl, hr⟩ := markAt_closes h
  have hc : closesTag hidden text (names.get k) c.start = true := by
    have hp := closes_iff.1 (get_of_findFinIdx? hr.name)
    obtain ⟨hlt, he⟩ := List.getElem?_eq_some_iff.1 hr.slash
    refine Bool.and_eq_true_iff.2 ⟨hr.shown, List.isPrefixOf_iff_prefix.2 ?_⟩
    rw [List.drop_eq_getElem_cons hlt, he]
    exact List.cons_prefix_cons.2 ⟨rfl, hp⟩
  rw [partner?, if_neg hg, if_pos hc]

theorem Opener.Reads.isAlone_eq {o : Opener} (h : o.Reads hidden names text k) :
    isAlone text o.start (o.start + 1 + (names.get k).length) o.close.pos =
      (o.selfClosing || o.literal) := by
  rw [isAlone, Opener.selfClosing, Opener.literal, h.nameEnd, h.afterBracket, h.doubled,
    (closeAt_eq_some_iff.1 h.close).2.2.1]

theorem partner?_of_opens (hv : Valid names) (hd : names.Nodup) {depth guard : Nat} {o : Opener}
    (h : markAt hidden names text p = some (.opens k o)) (hg : ¬ p < guard)
    (positions : List Nat) :
    partner? hidden names text (names.get k) depth guard (p :: positions) =
      partner? hidden names text (names.get k)
        (if o.selfClosing || o.literal then depth else depth + 1) (o.close.pos + 1) positions := by
  obtain ⟨rfl, -, hr, hf⟩ := markAt_opens h
  have hc : ¬ closesTag hidden text (names.get k) o.start = true := by
    intro hc
    obtain ⟨c, hc⟩ := markAt_of_closesTag hv hd hc
    rw [h] at hc
    cases hc
  have ho : opensTag? hidden names text (names.get k) o.start = some o.close.pos := by
    rw [opensTag?, if_pos, ← hr.nameEnd, hf]
    refine Bool.and_eq_true_iff.2 ⟨hr.shown, decide_eq_true ?_⟩
    rw [List.find?_eq_map_findFinIdx?_getElem, hr.name]
    rfl
  rw [partner?, if_neg hg, if_neg hc, ho]
  dsimp only
  rw [hr.isAlone_eq]

end

end Shortcode.Tag
