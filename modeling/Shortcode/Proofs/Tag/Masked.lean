import Shortcode.Proofs.Tag.Lossless
import Shortcode.Proofs.Tag.Shown

namespace Shortcode

open Html (Delimited)

namespace Tag

def isBracket (c : Char) : Bool := c = '[' || c = ']'

theorem isBracket_iff {c : Char} : isBracket c = true ↔ c = '[' ∨ c = ']' := by
  simp [isBracket]

/-- The text with a space in place of each hidden bracket. -/
def mask (hidden : Nat → Bool) (text : List Char) : List Char :=
  text.mapIdx fun p c => if hidden p && isBracket c then ' ' else c

section

variable {hidden : Nat → Bool} {names : List (List Char)} {text : List Char}

theorem getElem?_mask (hidden : Nat → Bool) (text : List Char) (p : Nat) :
    (mask hidden text)[p]? =
      text[p]?.map fun c => if hidden p && isBracket c then ' ' else c := List.getElem?_mapIdx

@[simp] theorem length_mask (hidden : Nat → Bool) (text : List Char) :
    (mask hidden text).length = text.length := List.length_mapIdx

/-- A character that is no space stands where it stood. -/
theorem getElem?_of_mask {p : Nat} {c : Char} (h : (mask hidden text)[p]? = some c)
    (hc : c ≠ ' ') : text[p]? = some c := by
  rw [getElem?_mask] at h
  obtain ⟨d, hd, he⟩ := Option.map_eq_some_iff.1 h
  split at he
  · exact absurd he.symm hc
  · rw [hd, he]

theorem getElem?_mask_of {p : Nat} {c : Char} (h : text[p]? = some c)
    (hc : isBracket c = true → hidden p = false) : (mask hidden text)[p]? = some c := by
  rw [getElem?_mask, h, Option.map_some]
  congr 1
  apply if_neg
  intro hb
  obtain ⟨hp, hb⟩ := Bool.and_eq_true_iff.1 hb
  rw [hc hb] at hp
  cases hp

theorem getElem?_mask_iff {p : Nat} {c : Char} (hs : c ≠ ' ') (hb : isBracket c = false) :
    (mask hidden text)[p]? = some c ↔ text[p]? = some c :=
  ⟨fun h => getElem?_of_mask h hs, fun h => getElem?_mask_of h fun hc => by rw [hb] at hc; cases hc⟩

/-- A bracket is left exactly where it was in plain view. -/
theorem shows_mask {p : Nat} {c : Char} (hb : isBracket c = true) :
    shows (fun _ => false) (mask hidden text) c p = shows hidden text c p := by
  have hs : c ≠ ' ' := by
    rintro rfl
    cases hb
  apply Bool.eq_iff_iff.2
  rw [shows_iff, shows_iff]
  constructor
  · rintro ⟨h, -⟩
    have hc := getElem?_of_mask h hs
    refine ⟨hc, Bool.eq_false_iff.2 fun hp => ?_⟩
    rw [getElem?_mask, hc, Option.map_some, hp, hb] at h
    exact hs (Option.some.inj h).symm
  · rintro ⟨h, hp⟩
    exact ⟨getElem?_mask_of h fun _ => hp, rfl⟩

theorem follows_mask {p : Nat} {c : Char} (hs : c ≠ ' ')
    (hc : text[p - 1]? = some c → 0 < p → isBracket c = true → hidden (p - 1) = false) :
    follows (mask hidden text) c p = follows text c p := by
  apply Bool.eq_iff_iff.2
  rw [follows_iff, follows_iff]
  constructor
  · rintro ⟨hp, h⟩
    exact ⟨hp, getElem?_of_mask h hs⟩
  · rintro ⟨hp, h⟩
    exact ⟨hp, getElem?_mask_of h (hc h hp)⟩

theorem isPrefix_of_mask {piece : List Char} {a : Nat} (hs : ' ' ∉ piece)
    (h : piece <+: (mask hidden text).drop a) : piece <+: text.drop a := by
  rw [List.prefix_iff_getElem?] at h ⊢
  intro j hj
  have hat := h j hj
  rw [List.getElem?_drop] at hat ⊢
  apply getElem?_of_mask hat
  intro he
  exact hs (he ▸ List.getElem_mem hj)

theorem isPrefix_mask {piece : List Char} {a : Nat} (h : piece <+: text.drop a)
    (hb : ∀ (j : Nat) (hj : j < piece.length), isBracket piece[j] = true →
      hidden (a + j) = false) : piece <+: (mask hidden text).drop a := by
  rw [List.prefix_iff_getElem?] at h ⊢
  intro j hj
  have hat := h j hj
  rw [List.getElem?_drop] at hat ⊢
  exact getElem?_mask_of hat (hb j hj)

theorem isBracket_of_isReserved {c : Char} (h : isReserved c = false) : isBracket c = false := by
  apply Bool.eq_false_iff.2
  intro hb
  rcases isBracket_iff.1 hb with rfl | rfl
  · cases h
  · cases h

theorem isPrefix_name_mask {name : List Char} (hv : ∀ c ∈ name, isReserved c = false) {a : Nat} :
    name <+: (mask hidden text).drop a ↔ name <+: text.drop a := by
  have hs : ' ' ∉ name := fun hm => nomatch hv ' ' hm
  refine ⟨isPrefix_of_mask hs, fun h => isPrefix_mask h fun j hj hb => ?_⟩
  have hplain := isBracket_of_isReserved (hv _ (List.getElem_mem hj))
  rw [hplain] at hb
  cases hb

theorem any_continuesName_mask (q : Nat) :
    (mask hidden text)[q]?.any continuesName = text[q]?.any continuesName := by
  rw [getElem?_mask, Option.any_map]
  congr 1
  funext c
  split
  · next h =>
    rcases isBracket_iff.1 (Bool.and_eq_true_iff.1 h).2 with rfl | rfl
    · rfl
    · rfl
  · rfl

theorem opens_drop_iff {name : List Char} {a : Nat} :
    opens (text.drop a) name = true ↔
      name <+: text.drop a ∧ text[a + name.length]?.any continuesName = false := by
  rw [opens_iff]
  constructor
  · rintro ⟨after, ha, hb⟩
    refine ⟨⟨after, ha⟩, ?_⟩
    rw [← List.getElem?_drop, ← ha, List.getElem?_append_right (Nat.le_refl _), Nat.sub_self,
      ← List.head?_eq_getElem?]
    exact hb
  · rintro ⟨⟨after, ha⟩, hb⟩
    refine ⟨after, ha, ?_⟩
    rw [← List.getElem?_drop, ← ha, List.getElem?_append_right (Nat.le_refl _), Nat.sub_self,
      ← List.head?_eq_getElem?] at hb
    exact hb

theorem opens_mask {name : List Char} (hv : ∀ c ∈ name, isReserved c = false) (a : Nat) :
    opens ((mask hidden text).drop a) name = opens (text.drop a) name := by
  apply Bool.eq_iff_iff.2
  rw [opens_drop_iff, opens_drop_iff, isPrefix_name_mask hv, any_continuesName_mask]

theorem closes_mask (hh : Delimited hidden text) {name : List Char}
    (hv : ∀ c ∈ name, isReserved c = false) {p : Nat} (hs : shows hidden text '[' p = true)
    (hsl : text[p + 1]? = some '/') :
    closes ((mask hidden text).drop (p + 2)) name = closes (text.drop (p + 2)) name := by
  apply Bool.eq_iff_iff.2
  constructor
  · intro h
    have hspace : ' ' ∉ name ++ [']'] := by
      intro hm
      rcases List.mem_append.1 hm with hm | hm
      · cases hv _ hm
      · cases List.mem_singleton.1 hm
    exact closes_iff.2 (isPrefix_of_mask hspace (closes_iff.1 h))
  · intro h
    refine closes_iff.2 (isPrefix_mask (closes_iff.1 h) fun j hj hb => ?_)
    have hend : j = name.length := by
      by_contra hne
      have hlt : j < name.length := by
        rw [List.length_append, List.length_singleton] at hj
        omega
      rw [List.getElem_append_left hlt,
        isBracket_of_isReserved (hv _ (List.getElem_mem hlt))] at hb
      cases hb
    have hclose := (shows_iff.1 (shows_of_closes hh hs hsl hv h)).2
    rwa [hend, Nat.add_right_comm]

theorem findFinIdx?_congr {α : Type} {l : List α} {f g : α → Bool} (h : ∀ a ∈ l, f a = g a) :
    l.findFinIdx? f = l.findFinIdx? g := by
  induction l with
  | nil => rfl
  | cons a rest ih =>
    rw [List.findFinIdx?_cons, List.findFinIdx?_cons, h a List.mem_cons_self,
      ih fun b hb => h b (List.mem_cons_of_mem a hb)]

theorem closeAt_mask (hh : Delimited hidden text) (p : Nat) :
    closeAt (fun _ => false) (mask hidden text) p = closeAt hidden text p := by
  rw [closeAt, closeAt, shows_mask rfl]
  split
  · next hs =>
    have hslash : follows (mask hidden text) '/' p = follows text '/' p :=
      follows_mask (by decide) fun _ _ hb => absurd hb Bool.false_ne_true
    have hdoubled : (mask hidden text)[p + 1]? = some ']' ↔ text[p + 1]? = some ']' := by
      constructor
      · intro h
        exact getElem?_of_mask h (by decide)
      · intro h
        exact getElem?_mask_of h fun _ => (shows_iff.1 (shows_succ hh hs h (by decide))).2
    rw [hslash, decide_eq_decide.2 hdoubled]
  · rfl

theorem token_readTag_mask (hh : Delimited hidden text) (hv : Valid names) {p : Nat}
    (hs : shows hidden text '[' p = true) (after : Bool) :
    (readTag names p after ((mask hidden text).drop (p + 1))).token =
      (readTag names p after (text.drop (p + 1))).token := by
  by_cases hsl : text[p + 1]? = some '/'
  · have tail {t : List Char} (ht : t[p + 1]? = some '/') :
        t.drop (p + 1) = '/' :: t.drop (p + 2) := by
      obtain ⟨hlt, he⟩ := List.getElem?_eq_some_iff.1 ht
      rw [List.drop_eq_getElem_cons hlt, he]
    have hsl' : (mask hidden text)[p + 1]? = some '/' :=
      (getElem?_mask_iff (by decide) rfl).2 hsl
    have found : names.findFinIdx? (closes ((mask hidden text).drop (p + 2))) =
        names.findFinIdx? (closes (text.drop (p + 2))) :=
      findFinIdx?_congr fun name hn => closes_mask hh (hv name hn).2 hs hsl
    rw [tail hsl, tail hsl', readTag, readTag, found]
    cases hk : names.findFinIdx? (closes (text.drop (p + 2))) with
    | none => rfl
    | some k =>
      have hend := shows_of_closes hh hs hsl (hv _ (List.get_mem names k)).2
        (get_of_findFinIdx? hk)
      have hnext : p + 2 + ((names.get k).length + 1) = p + (names.get k).length + 2 + 1 := by omega
      have hdoubled : ((mask hidden text).drop (p + 2))[(names.get k).length + 1]? = some ']' ↔
          (text.drop (p + 2))[(names.get k).length + 1]? = some ']' := by
        rw [List.getElem?_drop, List.getElem?_drop, hnext]
        constructor
        · intro h
          exact getElem?_of_mask h (by decide)
        · intro h
          exact getElem?_mask_of h fun _ => (shows_iff.1 (shows_succ hh hend h (by decide))).2
      simp only [Option.map_some, hdoubled]
  · have plain {t : List Char} (ht : t[p + 1]? ≠ some '/') :
        (readTag names p after (t.drop (p + 1))).token =
          (names.findFinIdx? (opens (t.drop (p + 1)))).map fun k => .opener k p after :=
      token_readTag_of_ne (by rwa [List.head?_drop])
    have hsl' : (mask hidden text)[p + 1]? ≠ some '/' := fun h =>
      hsl ((getElem?_mask_iff (by decide) rfl).1 h)
    have found : names.findFinIdx? (opens ((mask hidden text).drop (p + 1))) =
        names.findFinIdx? (opens (text.drop (p + 1))) :=
      findFinIdx?_congr fun name hn => opens_mask (hv name hn).2 (p + 1)
    rw [plain hsl, plain hsl', found]

theorem tokenAt_mask (hh : Delimited hidden text) (hv : Valid names) (p : Nat) :
    tokenAt (fun _ => false) names (mask hidden text) p = tokenAt hidden names text p := by
  rw [tokenAt, tokenAt, shows_mask rfl]
  split
  · next hs =>
    have hbefore : follows (mask hidden text) '[' p = follows text '[' p := by
      refine follows_mask (by decide) fun h hp _ => ?_
      have hpos : p - 1 + 1 = p := Nat.sub_add_cancel hp
      exact (shows_iff.1 (shows_pred hh (hpos ▸ hs) h (by decide))).2
    rw [hbefore]
    exact token_readTag_mask hh hv hs _
  · rfl

theorem closesOf_mask (hh : Delimited hidden text) :
    closesOf (fun _ => false) (mask hidden text) = closesOf hidden text := by
  rw [closesOf, closesOf, length_mask, funext (closeAt_mask hh)]

theorem tokensOf_mask (hh : Delimited hidden text) (hv : Valid names) :
    tokensOf (fun _ => false) names (mask hidden text) = tokensOf hidden names text := by
  rw [tokensOf, tokensOf, length_mask, funext (tokenAt_mask hh hv)]

end

end Tag

/-- The match with its texts cut from another text, at the places where they stood. -/
def Match.cutFrom (content : String) (m : Match) : Match :=
  { m with
    attrText := String.ofList (Text.slice content.toList m.nameStop m.attrStop)
    inner := m.inner.map fun _ => String.ofList (Text.slice content.toList m.openStop m.innerStop) }

theorem Match.cuts_cutFrom {content : String} {m : Match} (ha : m.attrStop ≤ content.length)
    (hi : m.innerStop ≤ content.length) : (m.cutFrom content).cuts = m.cuts := by
  rw [← String.length_toList] at ha hi
  have attr : (m.cutFrom content).attrStop = m.attrStop := by
    have hle : m.nameStop ≤ m.attrStop := Nat.le_add_right _ _
    rw [attrStop, cutFrom, String.length_ofList, Text.length_slice ha]
    exact Nat.add_sub_cancel' hle
  have opening : (m.cutFrom content).openStop = m.openStop := by
    rw [openStop, attr]
    rfl
  have inner : (m.cutFrom content).innerStop = m.innerStop := by
    have hle : m.openStop ≤ m.innerStop := Nat.le_add_right _ _
    rw [innerStop, opening, cutFrom]
    cases hm : m.inner with
    | none =>
      rw [innerStop, hm]
      rfl
    | some text =>
      simp only [Option.map_some, Option.getD_some, String.length_ofList, Text.length_slice hi]
      exact Nat.add_sub_cancel' hle
  rw [cuts, attr, opening, inner]
  rfl

namespace Tag

section

variable {hidden : Nat → Bool} {names : List (List Char)} {text other : List Char}
  {k : Fin names.length} {o : Opener}

/-- A text that bears the name in the same place gives the same match, cut from that text. -/
theorem Opener.Fits.toMatch_eq_cutFrom (h : o.Fits hidden names text k) {cursor : Nat}
    (hc : cursor ≤ o.start) (hn : names.get k <+: other.drop (o.start + 1)) :
    o.toMatch cursor (other.drop cursor) =
      (o.toMatch cursor (text.drop cursor)).cutFrom (String.ofList other) := by
  have name : Text.slice other (o.start + 1) o.nameEnd = names.get k :=
    Text.slice_of_isPrefix hn h.reads.nameEnd
  rw [Match.cutFrom, h.nameStop_toMatch hc, h.attrStop_toMatch hc, h.openStop_toMatch hc,
    h.innerStop_toMatch hc, o.toMatch_drop hc, o.toMatch_drop hc, name, h.reads.slice_name,
    String.toList_ofList]
  cases o.closer <;> rfl

theorem matchesFrom_eq_map {openers : List Opener}
    (hf : ∀ o ∈ openers, ∃ k, o.Fits hidden names text k ∧
      names.get k <+: other.drop (o.start + 1)) (cursor : Nat) :
    matchesFrom cursor (other.drop cursor) openers =
      (matchesFrom cursor (text.drop cursor) openers).map (·.cutFrom (String.ofList other)) := by
  induction openers generalizing cursor with
  | nil => rfl
  | cons o openers ih =>
    obtain ⟨⟨k, h, hn⟩, hf⟩ := List.forall_mem_cons.1 hf
    by_cases hc : o.start < cursor
    · rw [matchesFrom_cons_of_lt _ _ hc, matchesFrom_cons_of_lt _ _ hc]
      exact ih hf cursor
    · have hle := Nat.le_of_not_lt hc
      have hstop := (h.stop_toMatch hle).1
      rw [h.matchesFrom_cons hle, List.map_cons, ← ih hf, matchesFrom, if_neg hc]
      dsimp only
      rw [h.toMatch_eq_cutFrom hle hn, List.drop_drop]
      congr 2
      exact congrArg other.drop (Nat.add_sub_cancel' (Nat.le_trans hle (Nat.le_of_lt hstop)))

end

end Tag

theorem Text.Offsets.ofText_congr {content other : String}
    (h : content.toList.map Char.utf8Size = other.toList.map Char.utf8Size) :
    ofText content = ofText other := by
  have sizes (l : List Char) (bytes : Array Nat) :
      l.foldl advance bytes =
        (l.map Char.utf8Size).foldl (fun bytes size => bytes.push (bytes.back?.getD 0 + size))
          bytes := by
    rw [List.foldl_map]
    rfl
  rw [ofText, ofText, sizes, sizes, h]

/-- A text with the brackets inside its tags and comments written over. -/
def Html.mask (content : String) : String :=
  String.ofList (Tag.mask (isProtected content.toList) content.toList)

/-- A space takes as many bytes as a bracket. -/
theorem Html.ofText_mask (content : String) :
    Text.Offsets.ofText (mask content) = .ofText content := by
  apply Text.Offsets.ofText_congr
  rw [mask, String.toList_ofList, Tag.mask]
  apply List.ext_getElem?
  intro p
  rw [List.getElem?_map, List.getElem?_map, List.getElem?_mapIdx, Option.map_map]
  congr 1
  funext c
  rw [Function.comp_apply]
  split
  · next h =>
    rcases Tag.isBracket_iff.1 (Bool.and_eq_true_iff.1 h).2 with rfl | rfl
    · rfl
    · rfl
  · rfl

namespace Scanner

/-- The pass records the same on both texts. -/
theorem pairing_mask {names : List String}
    (hv : ∀ name ∈ names, Tag.validateName name = .ok ()) (content : String) :
    (Scanner.mk names false).pairing (Html.mask content) =
      (Scanner.mk names true).pairing content := by
  have hh := Html.delimited_isProtected content.toList
  have closes := Tag.closesOf_mask hh
  have tokens := Tag.tokensOf_mask hh (Tag.valid_of_validateName hv)
  have plain : (Scanner.mk names false).hidden (Html.mask content).toList = fun _ => false := rfl
  have html : (Scanner.mk names true).hidden content.toList = Html.isProtected content.toList := rfl
  rw [pairing, pairing, plain, html, Html.mask, String.toList_ofList, closes, tokens]

/-- A scan that leaves out tags and comments finds what a plain scan finds in the masked text, at
the same places. The brackets of its matches all stand outside of them. -/
theorem scan_mask {names : List String} (hv : ∀ name ∈ names, Tag.validateName name = .ok ())
    (content : String) :
    ((Scanner.mk names false).scan (Html.mask content)).found =
        ((Scanner.mk names true).scan content).found.map (·.cutFrom (Html.mask content)) ∧
      Text.Offsets.ofText (Html.mask content) = .ofText content ∧
      ∀ m ∈ ((Scanner.mk names true).scan content).found,
        m.cutFrom content = m ∧ (m.cutFrom (Html.mask content)).cuts = m.cuts ∧
          ∀ p ∈ m.brackets, Html.isProtected content.toList p = false := by
  have hh := Html.delimited_isProtected content.toList
  have valid := Tag.valid_of_validateName hv
  have length : (Html.mask content).length = content.length := by
    rw [Html.mask, String.length_ofList, Tag.length_mask, String.length_toList]
  refine ⟨?_, Html.ofText_mask content, ?_⟩
  · have fits : ∀ o ∈ ((Scanner.mk names true).pairing content).openers.toList,
        ∃ k, o.Fits (Html.isProtected content.toList) (names.map String.toList) content.toList k ∧
          (names.map String.toList).get k <+: (Html.mask content).toList.drop (o.start + 1) := by
      intro o ho
      obtain ⟨k, h⟩ := fits_of_mem ho
      have plain := (valid _ (List.get_mem _ k)).2
      rw [Html.mask, String.toList_ofList]
      exact ⟨k, h, (Tag.isPrefix_name_mask plain).2 h.reads.isPrefix_name⟩
    have found := Tag.matchesFrom_eq_map fits 0
    rw [String.ofList_toList, List.drop_zero, List.drop_zero] at found
    rw [scan_found, scan_found, pairing_mask hv, found]
  · intro m hm
    have within := (liesIn_of_mem hm).cuts_le
    have hattr := within m.attrStop (by simp [Match.cuts])
    have hinner := within m.innerStop (by simp [Match.cuts])
    obtain ⟨k, o, i, -, h, hi, rfl⟩ := exists_opener_of_mem hm
    refine ⟨?_, ?_, ?_⟩
    · have self := h.toMatch_eq_cutFrom hi h.reads.isPrefix_name
      rw [String.ofList_toList] at self
      exact self.symm
    · exact Match.cuts_cutFrom (length ▸ hattr) (length ▸ hinner)
    · intro p hp
      exact h.hidden_of_mem_brackets hh valid hi hp

/-- A `]` inside a tag ends no opening tag, and a closing tag inside a comment closes nothing. -/
theorem scan_mask_comment :
    (let content := "é[a <b ]> c]<!--[/a]-->[/a]]"
     let masked := "é[a <b  > c]<!-- /a -->[/a]]"
     (∀ name ∈ ["a"], Tag.validateName name = .ok ()) ∧ Html.mask content = masked ∧
      ((Scanner.mk ["a"] true).scan content).found =
        [⟨false, "a", " <b ]> c", false, some "<!--[/a]-->", true, 1, 28⟩] ∧
      ((Scanner.mk ["a"] false).scan masked).found =
        [⟨false, "a", " <b  > c", false, some "<!-- /a -->", true, 1, 28⟩] ∧
      ∀ m ∈ ((Scanner.mk ["a"] true).scan content).found,
        ∀ p ∈ m.brackets, Html.isProtected content.toList p = false) := by
  have valid : ∀ name ∈ ["a"], Tag.validateName name = .ok () := by
    intro name h
    rw [List.mem_singleton.1 h]
    rfl
  intro content masked
  have written : Html.mask content = masked := by decide +kernel
  have found : ((Scanner.mk ["a"] true).scan content).found =
      [⟨false, "a", " <b ]> c", false, some "<!--[/a]-->", true, 1, 28⟩] := by decide +kernel
  obtain ⟨same, -, each⟩ := scan_mask valid content
  refine ⟨valid, written, found, ?_, fun m hm => (each m hm).2.2⟩
  rw [written, found] at same
  rw [same]
  decide +kernel

end Scanner

end Shortcode
