import Shortcode.Proofs.Tag.Document
import Shortcode.Proofs.Tag.Enclosed
import Shortcode.Proofs.Tag.Printed

namespace Shortcode.Tag

section

variable {hidden : Nat → Bool} {names : List (List Char)} {text : List Char}

theorem positionsFrom_of_lt {a : Nat} (h : a < text.length) :
    positionsFrom text a = a :: positionsFrom text (a + 1) := by
  have hn : text.length - a = (text.length - (a + 1)) + 1 := by omega
  rw [positionsFrom, hn, List.range'_succ]
  rfl

theorem positionsFrom_of_le {a : Nat} (h : text.length ≤ a) : positionsFrom text a = [] := by
  rw [positionsFrom, Nat.sub_eq_zero_of_le h]
  rfl

/-- A guard in front of all positions that are left protects none of them. -/
theorem partner?_guard {name : List Char} {depth guard guard' : Nat} {positions : List Nat}
    (h : ∀ p ∈ positions, guard ≤ p) (h' : ∀ p ∈ positions, guard' ≤ p) :
    partner? hidden names text name depth guard positions =
      partner? hidden names text name depth guard' positions := by
  induction positions generalizing depth with
  | nil => rfl
  | cons p positions ih =>
    obtain ⟨hp, h⟩ := List.forall_mem_cons.1 h
    obtain ⟨hp', h'⟩ := List.forall_mem_cons.1 h'
    have next (depth : Nat) : partner? hidden names text name depth guard positions =
        partner? hidden names text name depth guard' positions := ih h h'
    rw [partner?, partner?, if_neg (Nat.not_lt_of_le hp), if_neg (Nat.not_lt_of_le hp')]
    split
    · rw [next]
    · split
      · rfl
      · exact next depth

variable (hidden names text) in
/-- The walk from a position on, for the closing tag of the name of a lane. -/
def walk (k : Fin names.length) (depth a : Nat) : Option Nat :=
  partner? hidden names text (names.get k) depth a (positionsFrom text a)

variable {k : Fin names.length} {depth a b : Nat}

theorem walk_of_le (h : text.length ≤ a) : walk hidden names text k depth a = none := by
  rw [walk, positionsFrom_of_le h]
  rfl

theorem partner?_positionsFrom_succ (depth : Nat) :
    partner? hidden names text (names.get k) depth a (positionsFrom text (a + 1)) =
      walk hidden names text k depth (a + 1) := by
  apply partner?_guard
  · intro p hp
    exact Nat.le_of_succ_le (List.mem_range'_1.1 hp).1
  · intro p hp
    exact (List.mem_range'_1.1 hp).1

/-- A position that is no mark of the lane is passed over. -/
theorem walk_succ (hv : Valid names) (hd : names.Nodup)
    (hc : ∀ c, markAt hidden names text a ≠ some (.closes k c))
    (ho : ∀ o, markAt hidden names text a ≠ some (.opens k o)) :
    walk hidden names text k depth a = walk hidden names text k depth (a + 1) := by
  by_cases ha : a < text.length
  · rw [walk, positionsFrom_of_lt ha, partner?_of_other hv hd hc ho]
    exact partner?_positionsFrom_succ depth
  · have ha := Nat.le_of_not_lt ha
    rw [walk_of_le ha, walk_of_le (Nat.le_succ_of_le ha)]

theorem walk_succ_of_none (hv : Valid names) (hd : names.Nodup)
    (h : markAt hidden names text a = none) :
    walk hidden names text k depth a = walk hidden names text k depth (a + 1) := by
  apply walk_succ hv hd <;> simp [h]

/-- A piece of text without `[` is passed over. -/
theorem walk_of_drop (hv : Valid names) (hd : names.Nodup) {piece tail : List Char}
    (h : text.drop a = piece ++ tail) (hp : '[' ∉ piece) :
    walk hidden names text k depth a = walk hidden names text k depth (a + piece.length) := by
  induction piece generalizing a with
  | nil => rfl
  | cons c piece ih =>
    obtain ⟨hc, hrest⟩ := getElem?_of_drop h
    obtain ⟨hne, hp⟩ := not_or.1 (mt List.mem_cons.2 hp)
    have hm : markAt hidden names text a = none := by
      apply markAt_of_ne
      rw [hc]
      intro he
      exact hne (Option.some.inj he).symm
    rw [walk_succ_of_none hv hd hm, ih hrest hp, List.length_cons]
    congr 1
    omega

theorem walk_of_opens (hv : Valid names) (hd : names.Nodup) {o : Opener}
    (h : markAt hidden names text a = some (.opens k o)) :
    walk hidden names text k depth a =
      walk hidden names text k (if o.selfClosing || o.literal then depth else depth + 1)
        (o.close.pos + 1) := by
  obtain ⟨hstart, -, hreads, -⟩ := markAt_opens h
  have ha : a < text.length := hstart ▸ (List.getElem?_eq_some_iff.1 hreads.getElem?_start).1
  have hlt := o.start_lt_nameEnd
  have hle := o.nameEnd_le_close
  have hclose : o.close.pos + 1 ≤ text.length := hreads.close_lt
  rw [walk, positionsFrom_of_lt ha, partner?_of_opens hv hd h (Nat.lt_irrefl a), walk]
  exact partner?_positionsFrom _ _ _ _ (by omega) hclose

theorem walk_of_closes {c : Closer} (h : markAt hidden names text a = some (.closes k c)) :
    walk hidden names text k depth a =
      if depth = 1 then some a else walk hidden names text k (depth - 1) (a + 1) := by
  obtain ⟨hstart, hreads⟩ := markAt_closes h
  have ha : a < text.length :=
    hstart ▸ (List.getElem?_eq_some_iff.1 (shows_iff.1 hreads.shown).1).1
  rw [walk, positionsFrom_of_lt ha, partner?_of_closes h (Nat.lt_irrefl a)]
  split
  · rfl
  · exact partner?_positionsFrom_succ _

theorem drop_of_append {piece rest : List Char} (h : text.drop a = piece ++ rest) :
    text.drop (a + piece.length) = rest := by
  rw [← List.drop_drop, h, List.drop_left]

theorem notMem_of_valid (hv : Valid names) (j : Fin names.length) {c : Char}
    (hc : isReserved c = true) : c ∉ names.get j := by
  intro hm
  have := (hv _ (List.get_mem names j)).2 c hm
  rw [hc] at this
  cases this

/-- An opening tag of the name is one more to be closed, unless it encloses nothing. -/
theorem walk_openingTag (hv : Valid names) (hl : LongestFirst names) (hd : names.Nodup)
    (hh : ∀ q, hidden q = false) {j : Fin names.length} {name : String}
    (hj : names.get j = name.toList) {inside tail : List Char}
    (h : text.drop a = openingTag name inside ++ tail)
    (hi : ∀ c ∈ inside, c ≠ '[' ∧ c ≠ ']' ∧ c ≠ '<')
    (hr : ∀ c, inside.head? = some c → isReserved c = true) {alone : Bool}
    (halone : (decide (inside.getLast? = some '/') ||
      (follows text '[' a && decide (tail.head? = some ']'))) = alone) :
    walk hidden names text k depth a =
      walk hidden names text k (if j = k ∧ alone = false then depth + 1 else depth)
        (a + (openingTag name inside).length) := by
  have hdrop : text.drop a = '[' :: (names.get j ++ (inside ++ ']' :: tail)) := by
    rw [h, openingTag, hj]
    simp
  have hclose : ']' ∉ inside := fun hb => (hi _ hb).2.1 rfl
  obtain ⟨o, hm, hpos, hself, hlit⟩ := exists_opener_of_drop hv hl hd hh hdrop hclose hr
  by_cases hk : j = k
  · subst hk
    have hend : o.close.pos + 1 = a + (openingTag name inside).length := by
      rw [hpos, length_openingTag, hj]
      omega
    rw [walk_of_opens hv hd hm, hself, hlit, halone, hend]
    cases alone <;> simp
  · have hrest : text.drop (a + 1) = (names.get j ++ (inside ++ [']'])) ++ tail := by
      rw [(getElem?_of_drop hdrop).2]
      simp
    have hopen : '[' ∉ names.get j ++ (inside ++ [']']) := by
      have hname := notMem_of_valid hv j (c := '[') rfl
      have hinside : '[' ∉ inside := fun hb => (hi _ hb).1 rfl
      simp only [List.mem_append, List.mem_singleton, not_or]
      exact ⟨hname, hinside, by decide⟩
    have hend : a + 1 + (names.get j ++ (inside ++ [']'])).length =
        a + (openingTag name inside).length := by
      rw [length_openingTag, hj]
      simp only [List.length_append, List.length_singleton]
      omega
    rw [if_neg fun hjk => hk hjk.1, walk_succ hv hd (by simp [hm]) (by simp [hm, hk]),
      walk_of_drop hv hd hrest hopen, hend]

/-- A closing tag of the name closes one. -/
theorem walk_closingTag (hv : Valid names) (hd : names.Nodup) (hh : ∀ q, hidden q = false)
    {j : Fin names.length} {name : String} (hj : names.get j = name.toList) {tail : List Char}
    (h : text.drop a = closingTag name ++ tail) :
    walk hidden names text k depth a =
      if j = k ∧ depth = 1 then some a
      else walk hidden names text k (if j = k then depth - 1 else depth)
        (a + (closingTag name).length) := by
  have hdrop : text.drop a = '[' :: '/' :: (names.get j ++ ']' :: tail) := by
    rw [h, closingTag, hj]
    simp
  obtain ⟨c, hm⟩ := exists_closer_of_drop hv hd hh hdrop
  have hrest : text.drop (a + 1) = ('/' :: (names.get j ++ [']'])) ++ tail := by
    rw [(getElem?_of_drop hdrop).2]
    simp
  have hopen : '[' ∉ '/' :: (names.get j ++ [']']) := by
    have hname := notMem_of_valid hv j (c := '[') rfl
    simp only [List.mem_cons, List.mem_append, List.not_mem_nil, or_false, not_or]
    exact ⟨by decide, hname, by decide⟩
  have skip (depth : Nat) : walk hidden names text k depth (a + 1) =
      walk hidden names text k depth (a + (closingTag name).length) := by
    rw [walk_of_drop hv hd hrest hopen, length_closingTag, hj]
    congr 1
    simp only [List.length_cons, List.length_append, List.length_nil]
    omega
  by_cases hk : j = k
  · subst hk
    rw [walk_of_closes hm, skip]
    simp
  · rw [if_neg fun hjk => hk hjk.1, if_neg hk,
      walk_succ hv hd (by simp [hm, hk]) (by simp [hm]), skip]

end

section

variable {hidden : Nat → Bool} {names : List String} {text : List Char}
  {k : Fin (names.map String.toList).length}

theorem exists_get {name : String} (h : name ∈ names) :
    ∃ j, (names.map String.toList).get j = name.toList :=
  List.get_of_mem (List.mem_map_of_mem h)

/-- A tag that encloses nothing changes the depth only if it is bare. -/
theorem walk_print (hv : Valid (names.map String.toList))
    (hl : LongestFirst (names.map String.toList)) (hd : (names.map String.toList).Nodup)
    (hh : ∀ q, hidden q = false) {j : Fin (names.map String.toList).length} {form : Form}
    {name attrText : String} (hj : (names.map String.toList).get j = name.toList)
    (hattr : IsAttrText attrText) {a depth : Nat} {tail : List Char}
    (h : text.drop a = form.print name attrText ++ tail) (ht : tail.head? ≠ some ']') :
    walk hidden (names.map String.toList) text k depth a =
      walk hidden (names.map String.toList) text k
        (if form = .bare ∧ j = k then depth + 1 else depth)
        (a + (form.print name attrText).length) := by
  obtain ⟨hplain, hhead, hlast⟩ := hattr.inside form
  cases form with
  | selfClosing =>
    have halone : (decide ((Form.selfClosing.inside attrText).getLast? = some '/') ||
        (follows text '[' a && decide (tail.head? = some ']'))) = true := by simp [hlast]
    rw [walk_openingTag hv hl hd hh hj h hplain hhead halone]
    simp [Form.print]
  | bare =>
    have halone : (decide ((Form.bare.inside attrText).getLast? = some '/') ||
        (follows text '[' a && decide (tail.head? = some ']'))) = false := by simp [hlast, ht]
    rw [walk_openingTag hv hl hd hh hj h hplain hhead halone]
    simp [Form.print]
  | literal =>
    obtain ⟨hfirst, hrest⟩ := getElem?_of_drop h
    rw [List.append_eq, List.append_assoc] at hrest
    have hm : markAt hidden (names.map String.toList) text a = none :=
      markAt_of_bracket hv (getElem?_of_drop hrest).1
    have halone : (decide ((Form.literal.inside attrText).getLast? = some '/') ||
        (follows text '[' (a + 1) && decide (([']'] ++ tail).head? = some ']'))) = true := by
      simp [follows, hfirst]
    have hopen : '[' ∉ [']'] := by decide
    rw [walk_succ_of_none hv hd hm, walk_openingTag hv hl hd hh hj hrest hplain hhead halone,
      walk_of_drop hv hd (drop_of_append hrest) hopen]
    simp only [Form.print, reduceCtorEq, false_and, and_false, Bool.true_eq_false, if_false,
      List.length_cons, List.length_append, List.length_nil]
    congr 1
    omega

/-- The walk comes through a printed document with as many more tags to be closed as there are bare
tags of the name in it. -/
theorem walk_chars (hv : Valid (names.map String.toList))
    (hl : LongestFirst (names.map String.toList)) (hd : (names.map String.toList).Nodup)
    (hh : ∀ q, hidden q = false) {encloses : String → Prop} {d : Document}
    (hw : d.WellFormed names encloses) {a depth : Nat} {tail : List Char}
    (h : text.drop a = d.chars ++ tail) (ht : tail.head? ≠ some ']') (hdepth : 1 ≤ depth) :
    walk hidden (names.map String.toList) text k depth a =
      walk hidden (names.map String.toList) text k
        (depth + d.bare ((names.map String.toList).get k)) (a + d.chars.length) := by
  have same {name : String} {j : Fin (names.map String.toList).length}
      (hj : (names.map String.toList).get j = name.toList) :
      name.toList = (names.map String.toList).get k ↔ j = k := by
    rw [← hj]
    exact (List.nodup_iff_injective_get.1 hd).eq_iff
  induction d generalizing a depth tail with
  | done => rfl
  | text piece rest ih =>
    obtain ⟨hpiece, hrest⟩ := hw
    have hopen : '[' ∉ piece.toList := fun hb => (hpiece _ hb).1 rfl
    rw [Document.chars, List.append_assoc] at h
    rw [walk_of_drop hv hd h hopen, ih hrest (drop_of_append h) ht hdepth, Document.chars,
      List.length_append, Nat.add_assoc]
    rfl
  | tag form name attrText rest ih =>
    obtain ⟨hname, hattr, -, hrest⟩ := hw
    obtain ⟨j, hj⟩ := exists_get hname
    rw [Document.chars, List.append_assoc] at h
    have hsum : (if form = .bare ∧ j = k then depth + 1 else depth) +
        rest.bare ((names.map String.toList).get k) =
          depth + (Document.tag form name attrText rest).bare ((names.map String.toList).get k) := by
      simp only [Document.bare, same hj]
      split <;> omega
    rw [walk_print hv hl hd hh hj hattr h (hrest.head?_chars ht),
      ih hrest (drop_of_append h) ht (by split <;> omega), hsum, Document.chars,
      List.length_append, Nat.add_assoc]
  | enclosing name attrText children rest ihc ihr =>
    obtain ⟨hname, hattr, -, hchildren, hrest⟩ := hw
    obtain ⟨j, hj⟩ := exists_get hname
    obtain ⟨hplain, hhead, hlast⟩ := hattr.inside .bare
    simp only [Document.chars, List.append_assoc] at h
    have hclosing : (closingTag name ++ (rest.chars ++ tail)).head? ≠ some ']' := by
      simp [closingTag]
    have hchild := hchildren.head?_chars hclosing
    have halone : (decide ((Form.bare.inside attrText).getLast? = some '/') ||
        (follows text '[' a &&
          decide ((children.chars ++ (closingTag name ++ (rest.chars ++ tail))).head? =
            some ']'))) = false := by
      simp only [hlast, hchild]
      simp
    have h₁ := drop_of_append h
    have h₂ := drop_of_append h₁
    have h₃ := drop_of_append h₂
    -- the closing tag takes back what the opening tag added
    have hdeep : ¬ (j = k ∧ (if j = k ∧ false = false then depth + 1 else depth) +
        children.bare ((names.map String.toList).get k) = 1) := by
      rintro ⟨hjk, hone⟩
      rw [if_pos ⟨hjk, rfl⟩] at hone
      omega
    have hback : (if j = k then (if j = k ∧ false = false then depth + 1 else depth) +
          children.bare ((names.map String.toList).get k) - 1
        else (if j = k ∧ false = false then depth + 1 else depth) +
          children.bare ((names.map String.toList).get k)) =
        depth + children.bare ((names.map String.toList).get k) := by
      by_cases hjk : j = k
      · rw [if_pos hjk, if_pos ⟨hjk, rfl⟩]
        omega
      · rw [if_neg hjk, if_neg fun h => hjk h.1]
    rw [walk_openingTag hv hl hd hh hj h hplain hhead halone,
      ihc hchildren h₁ hclosing (by split <;> omega), walk_closingTag hv hd hh hj h₂,
      if_neg hdeep, hback, ihr hrest h₃ ht (by omega)]
    simp only [Document.chars, Document.bare, List.length_append, Nat.add_assoc]

end

end Shortcode.Tag
