import Shortcode.Proofs.Tag.Depth

namespace Shortcode.Tag

theorem continuesName_of_isReserved {c : Char} (h : isReserved c = true) :
    continuesName c = false := by
  simp only [isReserved, Bool.or_eq_true, decide_eq_true_eq] at h
  rcases h with ((((((((rfl | rfl) | rfl) | rfl) | rfl) | rfl) | rfl) | rfl) | rfl) | rfl <;> rfl

theorem opens_append {name rest : List Char}
    (hr : ∀ c, rest.head? = some c → isReserved c = true) : opens (name ++ rest) name = true := by
  apply opens_iff.2
  refine ⟨rest, rfl, ?_⟩
  cases hc : rest.head? with
  | none => rfl
  | some c => exact continuesName_of_isReserved (hr c hc)

/-- A name that can be read in front of a reserved character begins the name that ends there. -/
theorem isPrefix_of_opens_append {name other rest : List Char}
    (ho : ∀ c ∈ other, isReserved c = false)
    (hr : ∀ c, rest.head? = some c → isReserved c = true)
    (h : opens (name ++ rest) other = true) : other <+: name := by
  have hp := isPrefix_of_opens h
  have hlen : other.length ≤ name.length := by
    cases hc : rest with
    | nil =>
      have hle := hp.length_le
      simpa [hc] using hle
    | cons c tail =>
      have hq : (name ++ rest)[0 + name.length]? = some c := by simp [hc]
      have hle := name_end_le (a := 0) ho hp (Nat.zero_le _) hq (hr c (by rw [hc]; rfl))
      omega
  exact List.prefix_of_prefix_length_le hp (List.prefix_append name rest) hlen

section

variable {hidden : Nat → Bool} {names : List (List Char)} {text : List Char}

/-- Longer names stand in front. -/
def LongestFirst (names : List (List Char)) : Prop :=
  names.Pairwise fun a b => Text.byteLength b ≤ Text.byteLength a

/-- The name that is printed is the one that is read. -/
theorem findFinIdx?_opens (hv : Valid names) (hl : LongestFirst names) (hd : names.Nodup)
    (k : Fin names.length) {rest : List Char}
    (hr : ∀ c, rest.head? = some c → isReserved c = true) :
    names.findFinIdx? (opens (names.get k ++ rest)) = some k := by
  have hk : opens (names.get k ++ rest) (names.get k) = true := opens_append hr
  apply List.findFinIdx?_eq_some_iff.2
  refine ⟨hk, ?_⟩
  intro j hj ho
  have hp : names.get j <+: names.get k :=
    isPrefix_of_opens_append (hv _ (List.get_mem names j)).2 hr ho
  have hle : Text.byteLength (names.get k) ≤ Text.byteLength (names.get j) :=
    List.pairwise_iff_getElem.1 hl j k j.isLt k.isLt hj
  have hm := Text.eq_of_isPrefix_of_byteLength_le hp hle
  have hjk := (List.nodup_iff_injective_get.1 hd) hm
  exact absurd hj (hjk ▸ Nat.lt_irrefl _)

/-- Only a `[` is a mark. -/
theorem markAt_of_ne {a : Nat} (h : text[a]? ≠ some '[') : markAt hidden names text a = none := by
  have ht : tokenAt hidden names text a = none := by
    apply if_neg
    intro hs
    exact h (shows_iff.1 hs).1
  rw [markAt, ht]
  rfl

theorem markAt_of_bracket (hv : Valid names) {a : Nat} (h : text[a + 1]? = some '[') :
    markAt hidden names text a = none := by
  have first (k : Fin names.length) : (names.get k)[0]? ≠ some '[' := by
    intro hb
    have := (hv _ (List.get_mem names k)).2 _ (List.mem_of_getElem? hb)
    cases this
  have ht : tokenAt hidden names text a = none := by
    apply Option.eq_none_iff_forall_ne_some.2
    intro t ht
    cases t with
    | closer k start stop doubled =>
      obtain ⟨-, -, -, hs, -⟩ := tokenAt_closer ht
      rw [h] at hs
      cases hs
    | opener k start after =>
      obtain ⟨-, -, hk⟩ := tokenAt_opener ht
      have hp := isPrefix_of_opens (get_of_findFinIdx? hk)
      have hpos := List.length_pos_iff.2 (hv _ (List.get_mem names k)).1
      have hb := Text.getElem?_of_isPrefix_drop hp hpos
      rw [Nat.add_zero, h] at hb
      exact first k hb.symm
  rw [markAt, ht]
  rfl

/-- The `]` behind text that holds none. -/
theorem closeFrom?_of_drop (hh : ∀ q, hidden q = false) {q : Nat} {inside tail : List Char}
    (h : text.drop q = inside ++ ']' :: tail) (hi : ']' ∉ inside) :
    closeFrom? hidden text q = some (q + inside.length) := by
  have hat (j : Nat) : text[q + j]? = (inside ++ ']' :: tail)[j]? := by
    rw [← List.getElem?_drop, h]
  have hend : text[q + inside.length]? = some ']' := by
    rw [hat]
    simp
  apply List.find?_range_eq_some.2
  refine ⟨?_, ?_, ?_⟩
  · simp [shows, hend, hh]
  · exact List.mem_range.2 (List.getElem?_eq_some_iff.1 hend).1
  · intro j hj
    by_cases hq : q ≤ j
    · have hlt : j - q < inside.length := by omega
      have hj := hat (j - q)
      rw [Nat.add_sub_cancel' hq, List.getElem?_append_left hlt] at hj
      have hne : text[j]? ≠ some ']' := by
        rw [hj]
        intro hb
        exact hi (List.mem_of_getElem? hb)
      simp [shows, hne]
    · simp [hq]

/-- A tag closes itself if what stands behind its name ends with a slash. -/
theorem Opener.Reads.selfClosing_of_drop {k : Fin names.length} {o : Opener}
    (h : o.Reads hidden names text k) {inside tail : List Char}
    (hi : text.drop o.nameEnd = inside ++ tail) (hp : o.close.pos = o.nameEnd + inside.length) :
    o.selfClosing = decide (inside.getLast? = some '/') := by
  have hslash := (closeAt_eq_some_iff.1 h.close).2.2.1
  rw [Opener.selfClosing, hslash, hp]
  rcases List.eq_nil_or_concat' inside with rfl | ⟨front, c, rfl⟩
  · simp
  · have hlast : text[o.nameEnd + (front ++ [c]).length - 1]? = some c := by
      have he : o.nameEnd + (front ++ [c]).length - 1 = o.nameEnd + front.length := by
        rw [List.length_append, List.length_singleton]
        omega
      rw [he, ← List.getElem?_drop, hi]
      simp
    have hpos : 0 < o.nameEnd := Nat.zero_lt_of_lt o.start_lt_nameEnd
    rw [follows, hlast, List.getLast?_concat]
    simp [Nat.add_pos_left hpos]

/-- An opening tag with its name and what is inside of it. -/
theorem exists_opener_of_drop (hv : Valid names) (hl : LongestFirst names) (hd : names.Nodup)
    (hh : ∀ q, hidden q = false) {k : Fin names.length} {a : Nat} {inside tail : List Char}
    (h : text.drop a = '[' :: (names.get k ++ (inside ++ ']' :: tail))) (hi : ']' ∉ inside)
    (hr : ∀ c, inside.head? = some c → isReserved c = true) :
    ∃ o, markAt hidden names text a = some (.opens k o) ∧
      o.close.pos = a + 1 + (names.get k).length + inside.length ∧
      o.selfClosing = decide (inside.getLast? = some '/') ∧
      o.literal = (follows text '[' a && decide (tail.head? = some ']')) := by
  obtain ⟨hshown, hrest⟩ := getElem?_of_drop h
  have hinside : text.drop (a + 1 + (names.get k).length) = inside ++ ']' :: tail := by
    rw [← List.drop_drop, hrest, List.drop_left]
  have hfind : names.findFinIdx? (opens (text.drop (a + 1))) = some k := by
    rw [hrest]
    apply findFinIdx?_opens hv hl hd
    intro c hc
    cases inside with
    | nil =>
      cases hc
      rfl
    | cons d inside => exact hr c hc
  have hclose := closeFrom?_of_drop hh hinside hi
  have hopens : opensTag? hidden names text (names.get k) a =
      some (a + 1 + (names.get k).length + inside.length) := by
    rw [opensTag?, if_pos, hclose]
    rw [List.find?_eq_map_findFinIdx?_getElem, hfind]
    simp [shows, hshown, hh]
  obtain ⟨o, hm⟩ := markAt_of_opensTag? hv hd hopens
  obtain ⟨hstart, -, hreads, hcf⟩ := markAt_opens hm
  have hname : o.nameEnd = a + 1 + (names.get k).length := by rw [hreads.nameEnd, hstart]
  have hpos : o.close.pos = a + 1 + (names.get k).length + inside.length := by
    rw [hname, hclose] at hcf
    exact (Option.some.inj hcf).symm
  refine ⟨o, hm, hpos, ?_, ?_⟩
  · exact hreads.selfClosing_of_drop (by rw [hname, hinside]) (by rw [hpos, hname])
  · have hnext : text[o.close.pos + 1]? = tail.head? := by
      rw [hpos, Nat.add_assoc, ← List.getElem?_drop, hinside, List.getElem?_append_right (by omega)]
      simp [List.head?_eq_getElem?]
    rw [Opener.literal, hreads.afterBracket, hreads.doubled, hnext, hstart]

/-- A closing tag with its name. -/
theorem exists_closer_of_drop (hv : Valid names) (hd : names.Nodup) (hh : ∀ q, hidden q = false)
    {k : Fin names.length} {a : Nat} {tail : List Char}
    (h : text.drop a = '[' :: '/' :: (names.get k ++ ']' :: tail)) :
    ∃ c, markAt hidden names text a = some (.closes k c) := by
  obtain ⟨hshown, hrest⟩ := getElem?_of_drop h
  apply markAt_of_closesTag hv hd
  have hp : '/' :: (names.get k ++ [']']) <+: text.drop (a + 1) := by
    rw [hrest]
    exact ⟨tail, by simp⟩
  exact Bool.and_eq_true_iff.2 ⟨shows_iff.2 ⟨hshown, hh a⟩, List.isPrefixOf_iff_prefix.2 hp⟩

end

end Shortcode.Tag
