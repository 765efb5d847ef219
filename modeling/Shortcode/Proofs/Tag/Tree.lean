import Shortcode.Proofs.Tag.Order
import Shortcode.Proofs.Tag.Section
import Shortcode.Proofs.Tag.Walk

namespace Shortcode

namespace Tag

section

variable {hidden : Nat → Bool} {names : List (List Char)} {text : List Char}

/-- The first mark of a text, if it opens a tag, is the first opener that is recorded. -/
theorem exists_first_opener (hv : Valid names) (hd : names.Nodup) {q : Nat}
    {k : Fin names.length} {o : Opener}
    (hq : ∀ p < q, markAt hidden names text p = none)
    (hm : markAt hidden names text q = some (.opens k o)) :
    ∃ c others, openersOf hidden names text = { o with closer := c } :: others ∧
      c.map (·.start) = if o.selfClosing || o.literal then none
        else walk hidden names text k 1 (o.close.pos + 1) := by
  obtain ⟨hstart, -, hreads, -⟩ := markAt_opens hm
  have hlt : q < text.length :=
    hstart ▸ (List.getElem?_eq_some_iff.1 hreads.getElem?_start).1
  have hr : List.range text.length = List.range q ++ q :: positionsFrom text (q + 1) := by
    have h := List.range'_append_1 (s := 0) (m := q) (n := text.length - q)
    rw [Nat.zero_add, Nat.add_sub_cancel' (Nat.le_of_lt hlt)] at h
    rw [← positionsFrom_of_lt hlt, List.range_eq_range', List.range_eq_range', positionsFrom, h]
  have hfront : runAt hidden names text (.start names.length []) (List.range q) =
      .start names.length [] := by
    have hnil : (List.range q).filterMap (markAt hidden names text) = [] := by
      apply List.filterMap_eq_nil_iff.2
      intro p hp
      exact hq p (List.mem_range.1 hp)
    rw [runAt, hnil]
    rfl
  have hg : ¬ q <
      ((runAt hidden names text (.start names.length []) (List.range q)).lane k).guard := by
    rw [hfront, Pairing.lanes_start]
    exact Nat.not_lt_zero q
  obtain ⟨c, hc, hw⟩ := exists_closer_of_mark hv hd hr hm hg
  rw [hfront, ← Array.getElem?_toList] at hc
  change (openersOf hidden names text)[0]? = _ at hc
  rw [← List.head?_eq_getElem?] at hc
  obtain ⟨others, ho⟩ := List.head?_eq_some_iff.1 hc
  refine ⟨c, others, ho, ?_⟩
  have hclose : o.close.pos + 1 ≤ text.length := hreads.close_lt
  rw [hw, ← positionsFrom_zero, partner?_positionsFrom _ _ _ _ (Nat.zero_le _) hclose]
  rfl

/-- The match of an opening tag that is printed at a position. -/
theorem toMatch_of_drop {k : Fin names.length} {o : Opener} (fits : o.Fits hidden names text k)
    {form : Form} {name attrText : String} (hk : names.get k = name.toList) {tail : List Char}
    (h : text.drop o.start = openingTag name (form.inside attrText) ++ tail)
    (hpos : o.close.pos = o.start + 1 + name.toList.length + (form.inside attrText).length)
    (hself : o.selfClosing = decide (form = .selfClosing)) :
    o.toMatch 0 text =
      { lead := 0 < o.start && o.afterBracket
        name
        attrText
        selfClosing := form = .selfClosing
        inner := o.closer.map fun c => String.ofList (Text.slice text (o.close.pos + 1) c.start)
        trail := o.trail
        start := o.start - (0 < o.start && o.afterBracket).toNat
        stop := o.stop + o.trail.toNat } := by
  have hend : o.nameEnd = o.start + 1 + name.toList.length := by rw [fits.reads.nameEnd, hk]
  have hinside : text.drop o.nameEnd = form.inside attrText ++ ']' :: tail := by
    have hrest : text.drop (o.start + 1) = name.toList ++ (form.inside attrText ++ ']' :: tail) := by
      rw [(getElem?_of_drop h).2]
      simp
    rw [hend, ← List.drop_drop, hrest, List.drop_left]
  have hattr : Text.slice text o.nameEnd o.attrEnd = attrText.toList := by
    apply Text.slice_of_isPrefix
    · rw [hinside]
      cases form <;> simp [Form.inside]
    · rw [Opener.attrEnd, hself, hpos, hend]
      cases form <;> simp [Form.inside, ← Nat.add_assoc]
  have hm := o.toMatch_drop (Nat.zero_le o.start) text
  rw [List.drop_zero] at hm
  rw [hm, fits.reads.slice_name, hk, hattr, String.ofList_toList, String.ofList_toList, hself]

end

end Tag

namespace Document

/-- The tags of a document that starts further to the right. -/
theorem map_shift_tags (p a : Nat) (d : Document) :
    (d.tags a).map (Match.shift p) = d.tags (p + a) := by
  induction d generalizing a with
  | done => rfl
  | text piece rest ih => rw [tags, ih, tags, Nat.add_assoc]
  | tag form name attrText rest ih => simp only [tags, List.map_cons, Match.shift, ih, Nat.add_assoc]
  | enclosing name attrText children rest ihc ihr =>
    simp only [tags, List.map_cons, Match.shift, ihr, Nat.add_assoc]

end Document

namespace Scanner

variable {s : Scanner} {content : String}

/-- The matches of a text whose first mark opens a tag. -/
theorem found_of_first (hv : ∀ name ∈ s.names, Tag.validateName name = .ok ())
    (hd : s.names.Nodup) (hp : '<' ∉ content.toList) {q : Nat}
    {k : Fin (s.names.map String.toList).length} {o : Tag.Opener}
    (hq : ∀ p < q, Tag.markAt (s.hidden content.toList) (s.names.map String.toList)
      content.toList p = none)
    (hm : Tag.markAt (s.hidden content.toList) (s.names.map String.toList) content.toList q =
      some (.opens k o)) :
    ∃ o' : Tag.Opener, o'.Fits (s.hidden content.toList) (s.names.map String.toList)
        content.toList k ∧ o'.start = q ∧ o'.close = o.close ∧ o'.selfClosing = o.selfClosing ∧
      (o'.closer.map (·.start) = if o.selfClosing || o.literal then none
        else Tag.walk (s.hidden content.toList) (s.names.map String.toList) content.toList k 1
          (o.close.pos + 1)) ∧
      (s.scan content).found = o'.toMatch 0 content.toList ::
        (s.scan (String.ofList (content.toList.drop (o'.toMatch 0 content.toList).stop))).found.map
          (Match.shift (o'.toMatch 0 content.toList).stop) := by
  obtain ⟨hstart, -, hreads, -⟩ := Tag.markAt_opens hm
  obtain ⟨c, others, ho, hw⟩ :=
    Tag.exists_first_opener (Tag.valid_of_validateName hv) (nodup_toList hd) hq hm
  obtain ⟨k', fits⟩ : ∃ k', ({ o with closer := c } : Tag.Opener).Fits (s.hidden content.toList)
      (s.names.map String.toList) content.toList k' := by
    apply fits_of_mem_openersOf hv
    rw [ho]
    exact List.mem_cons_self
  have hk : k = k' := by
    have hname := fits.reads.name
    rw [hreads.name] at hname
    exact Option.some.inj hname
  subst hk
  have hfound := fits.matchesFrom_cons (Nat.zero_le _) others
  rw [List.drop_zero] at hfound
  have h := scan_found_eq hv content
  rw [ho, hfound] at h
  have plain := fun q => hidden_eq_false (s := s) hp q
  have plain' (n q : Nat) : s.hidden (content.toList.drop n) q = false :=
    hidden_eq_false (fun hm => hp (List.mem_of_mem_drop hm)) q
  refine ⟨_, fits, hstart, rfl, rfl, hw, ?_⟩
  have behind := found_behind hv plain (plain' _) (show (s.scan content).found = [] ++ _ :: _ from h)
  rw [h, ← behind]

/-- A piece of text without brackets moves the matches of what follows. -/
theorem found_append {piece rest : List Char}
    (hv : ∀ name ∈ s.names, Tag.validateName name = .ok ())
    (hpiece : ∀ c ∈ piece, c ≠ '[' ∧ c ≠ ']' ∧ c ≠ '<') (hrest : '<' ∉ rest) :
    (s.scan (String.ofList (piece ++ rest))).found =
      (s.scan (String.ofList rest)).found.map (Match.shift piece.length) := by
  have hplain : '<' ∉ piece ++ rest := by
    intro hm
    rcases List.mem_append.1 hm with hm | hm
    · exact (hpiece _ hm).2.2 rfl
    · exact hrest hm
  have hopen : '[' ∉ piece := fun hm => (hpiece _ hm).1 rfl
  have hide : (fun i => s.hidden (piece ++ rest) (piece.length + i)) = s.hidden rest := by
    funext i
    rw [hidden_eq_false hplain, hidden_eq_false hrest]
  have ho : Tag.openersOf (s.hidden (piece ++ rest)) (s.names.map String.toList) (piece ++ rest) =
      (Tag.openersOf (s.hidden rest) (s.names.map String.toList) rest).map
        (Tag.Opener.shift piece.length) := by
    rw [Tag.openersOf_append_of_notMem (Tag.valid_of_validateName hv) hopen, hide]
  have hmoved : ∀ o ∈ Tag.openersOf (s.hidden (piece ++ rest)) (s.names.map String.toList)
      (piece ++ rest), piece.length ≤ o.start := by
    intro o hm
    rw [ho] at hm
    obtain ⟨o', -, rfl⟩ := List.mem_map.1 hm
    exact Nat.le_add_right _ _
  have bracket : Tag.follows (piece ++ rest) '[' piece.length = false := by
    rw [Tag.follows_append_left _ (Nat.le_refl _)]
    exact Bool.eq_false_iff.2 fun hf => hopen (List.mem_of_getElem? (Tag.follows_iff.1 hf).2)
  have moved := Tag.matchesFrom_cursor (Nat.zero_le _) (fun o => fits_of_mem_openersOf hv) hmoved
    bracket
  rw [List.drop_zero] at moved
  rw [scan_found_eq hv, scan_found_eq hv, String.toList_ofList, String.toList_ofList, moved, ho,
    List.drop_left]
  exact Tag.matchesFrom_shift piece.length 0 rest _

/-- The matches of a text whose first mark is a printed opening tag. -/
theorem found_openingTag (hv : ∀ name ∈ s.names, Tag.validateName name = .ok ())
    (hd : s.names.Nodup) (hl : Tag.LongestFirst (s.names.map String.toList))
    (hp : '<' ∉ content.toList) {q : Nat}
    (hq : ∀ p < q, Tag.markAt (s.hidden content.toList) (s.names.map String.toList)
      content.toList p = none)
    {form : Form} {name attrText : String} (hattr : IsAttrText attrText)
    {j : Fin (s.names.map String.toList).length}
    (hj : (s.names.map String.toList).get j = name.toList) {tail : List Char}
    (h : content.toList.drop q = openingTag name (form.inside attrText) ++ tail)
    {inside tagStop : Nat} {lead trail : Bool} {close? : Option Nat}
    (hinside : q + (openingTag name (form.inside attrText)).length = inside)
    (hlead : Tag.follows content.toList '[' q = lead)
    (hwalk : (if form = .selfClosing ∨ lead = true ∧ tail.head? = some ']' then none
      else Tag.walk (s.hidden content.toList) (s.names.map String.toList) content.toList j 1
        inside) = close?)
    (hstop : (close?.elim inside fun p => p + (closingTag name).length) = tagStop)
    (htrail : decide (content.toList[tagStop]? = some ']') = trail) :
    (s.scan content).found =
      { lead, name, attrText, trail
        selfClosing := form = .selfClosing
        inner := close?.map fun p => String.ofList (Text.slice content.toList inside p)
        start := q - lead.toNat
        stop := tagStop + trail.toNat } ::
        (s.scan (String.ofList (content.toList.drop (tagStop + trail.toNat)))).found.map
          (Match.shift (tagStop + trail.toNat)) := by
  obtain ⟨hplain, hhead, hlast⟩ := hattr.inside form
  have hdrop : content.toList.drop q = '[' :: ((s.names.map String.toList).get j ++
      (form.inside attrText ++ ']' :: tail)) := by
    rw [h, openingTag, hj]
    simp
  have hclose : ']' ∉ form.inside attrText := fun hb => (hplain _ hb).2.1 rfl
  obtain ⟨o, hm, hpos, hself, hlit⟩ := Tag.exists_opener_of_drop (Tag.valid_of_validateName hv) hl
    (nodup_toList hd) (fun q => hidden_eq_false hp q) hdrop hclose hhead
  obtain ⟨o', fits, hstart, hc, hs, hw, hfound⟩ := found_of_first hv hd hp hq hm
  subst hstart
  rw [hj, ← hc] at hpos
  have hclose' : o'.close.pos + 1 = inside := by
    rw [hpos, ← hinside, length_openingTag]
    omega
  have hself' : o'.selfClosing = decide (form = .selfClosing) := by
    rw [hs, hself]
    exact decide_eq_decide.2 hlast
  have hlead' : (decide (0 < o'.start) && o'.afterBracket) = lead := by
    simp [← hlead, fits.reads.afterBracket, Tag.follows]
  have hcloser : o'.closer.map (·.start) = close? := by
    have hcond : (o.selfClosing || o.literal) = true ↔
        form = .selfClosing ∨ lead = true ∧ tail.head? = some ']' := by
      simp [hself, hlit, hlast, ← hlead]
    rw [hw, if_congr hcond rfl rfl, ← hc, hclose', hwalk]
  have htag : o'.stop = tagStop := by
    rw [← hstop, ← hcloser, Tag.Opener.stop]
    cases hcl : o'.closer with
    | none => exact hclose'
    | some c =>
      have hend := (fits.encloses c hcl).2.2.2.stop
      rw [hj] at hend
      simp only [Option.map_some, Option.elim_some, length_closingTag]
      omega
  have htrail' : o'.trail = trail := by rw [fits.trail_eq, htag, htrail]
  have hinner : (o'.closer.map fun c =>
      String.ofList (Text.slice content.toList (o'.close.pos + 1) c.start)) =
      close?.map fun p => String.ofList (Text.slice content.toList inside p) := by
    rw [← hcloser, Option.map_map, hclose']
    rfl
  have hmatch := Tag.toMatch_of_drop fits hj h hpos hself'
  rw [hlead', htag, htrail', hinner] at hmatch
  rw [hfound, hmatch]

theorem found_rest {text : List Char} {stop : Nat} {rest : Document}
    (ih : (s.scan rest.print).found = rest.tags 0) (h : text.drop stop = rest.chars) :
    (s.scan (String.ofList (text.drop stop))).found.map (Match.shift stop) = rest.tags stop := by
  rw [h]
  change (s.scan rest.print).found.map _ = _
  rw [ih, Document.map_shift_tags, Nat.add_zero]

/-- A document that begins with a tag that encloses nothing. -/
theorem found_print_tag (hv : ∀ name ∈ s.names, Tag.validateName name = .ok ())
    (hd : s.names.Nodup) (hl : Tag.LongestFirst (s.names.map String.toList))
    {encloses : String → Prop} {form : Form} {name attrText : String} {rest : Document}
    (hw : (Document.tag form name attrText rest).WellFormed s.names encloses)
    (ih : (s.scan rest.print).found = rest.tags 0) :
    (s.scan (Document.tag form name attrText rest).print).found =
      (Document.tag form name attrText rest).tags 0 := by
  have htext : (Document.tag form name attrText rest).print.toList =
      form.print name attrText ++ rest.chars := String.toList_ofList
  have hp : '<' ∉ (Document.tag form name attrText rest).print.toList := by
    rw [Document.print, String.toList_ofList]
    exact hw.notMem_chars hv
  rw [Document.tags, Nat.zero_add]
  generalize (Document.tag form name attrText rest).print = content at htext hp
  obtain ⟨hname, hattr, -, hrest⟩ := hw
  obtain ⟨j, hj⟩ := Tag.exists_get hname
  have hhead := hrest.head?_chars_ne
  have hbehind : content.toList.drop (form.print name attrText).length = rest.chars := by
    rw [htext, List.drop_left]
  have hnext : content.toList[(form.print name attrText).length]? ≠ some ']' := by
    rw [← Nat.add_zero (form.print name attrText).length, ← List.getElem?_drop, hbehind,
      ← List.head?_eq_getElem?]
    exact hhead
  have hlead : Tag.follows content.toList '[' 0 = false := rfl
  have hbefore (p : Nat) (hp : p < 0) : Tag.markAt (s.hidden content.toList)
      (s.names.map String.toList) content.toList p = none := absurd hp (Nat.not_lt_zero p)
  cases form with
  | selfClosing =>
    have hdrop : content.toList.drop 0 =
        openingTag name (Form.selfClosing.inside attrText) ++ rest.chars := htext
    rw [found_openingTag hv hd hl hp hbefore hattr hj hdrop (Nat.zero_add _) hlead
      (if_pos (Or.inl rfl)) rfl (decide_eq_false hnext)]
    exact congrArg (List.cons _) (found_rest ih hbehind)
  | bare =>
    have hdrop : content.toList.drop 0 =
        openingTag name (Form.bare.inside attrText) ++ rest.chars := htext
    have hwalk : Tag.walk (s.hidden content.toList) (s.names.map String.toList) content.toList j 1
        (Form.bare.print name attrText).length = none := by
      rw [Tag.walk_chars (Tag.valid_of_validateName hv) hl (nodup_toList hd)
        (fun q => hidden_eq_false hp q) hrest (hbehind.trans (List.append_nil _).symm) nofun
        (Nat.le_refl 1)]
      apply Tag.walk_of_le
      rw [htext, List.length_append]
    rw [found_openingTag hv hd hl hp hbefore hattr hj hdrop (Nat.zero_add _) hlead
      ((if_neg (by simp)).trans hwalk) rfl (decide_eq_false hnext)]
    exact congrArg (List.cons _) (found_rest ih hbehind)
  | literal =>
    have htext' : content.toList =
        '[' :: (openingTag name (Form.literal.inside attrText) ++ ']' :: rest.chars) := by
      rw [htext]
      simp [Form.print]
    have hdrop : content.toList.drop 1 =
        openingTag name (Form.literal.inside attrText) ++ ']' :: rest.chars := by
      rw [htext']
      rfl
    have hfirst (p : Nat) (hp : p < 1) : Tag.markAt (s.hidden content.toList)
        (s.names.map String.toList) content.toList p = none := by
      obtain rfl : p = 0 := by omega
      apply Tag.markAt_of_bracket (Tag.valid_of_validateName hv)
      exact (Tag.getElem?_of_drop hdrop).1
    have hescaped : Tag.follows content.toList '[' 1 = true := by
      rw [htext']
      rfl
    have hlast : content.toList[1 + (openingTag name (Form.literal.inside attrText)).length]? =
        some ']' := by
      rw [← List.getElem?_drop, hdrop]
      simp
    rw [found_openingTag hv hd hl hp hfirst hattr hj hdrop rfl hescaped
      (if_pos (Or.inr ⟨rfl, rfl⟩)) rfl (decide_eq_true hlast)]
    have hlen : 1 + (openingTag name (Form.literal.inside attrText)).length + true.toNat =
        (Form.literal.print name attrText).length := by
      simp only [Form.print, List.length_cons, List.length_append, List.length_nil, Bool.toNat_true]
      omega
    simp only [Option.elim_none, hlen]
    exact congrArg (List.cons _) (found_rest ih hbehind)

/-- A document that begins with an enclosing tag. -/
theorem found_print_enclosing (hv : ∀ name ∈ s.names, Tag.validateName name = .ok ())
    (hd : s.names.Nodup) (hl : Tag.LongestFirst (s.names.map String.toList))
    {encloses : String → Prop} {name attrText : String} {children rest : Document}
    (hw : (Document.enclosing name attrText children rest).WellFormed s.names encloses)
    (ih : (s.scan rest.print).found = rest.tags 0) :
    (s.scan (Document.enclosing name attrText children rest).print).found =
      (Document.enclosing name attrText children rest).tags 0 := by
  have htext : (Document.enclosing name attrText children rest).print.toList =
      openingTag name attrText.toList ++ (children.chars ++ (closingTag name ++ rest.chars)) :=
    String.toList_ofList
  have hp : '<' ∉ (Document.enclosing name attrText children rest).print.toList := by
    rw [Document.print, String.toList_ofList]
    exact hw.notMem_chars hv
  rw [Document.tags, Nat.zero_add]
  generalize (Document.enclosing name attrText children rest).print = content at htext hp
  obtain ⟨hname, hattr, hencloses, hchildren, hrest⟩ := hw
  obtain ⟨j, hj⟩ := Tag.exists_get hname
  have hdrop : content.toList.drop 0 = openingTag name (Form.bare.inside attrText) ++
      (children.chars ++ (closingTag name ++ rest.chars)) := htext
  have h₁ : content.toList.drop (openingTag name attrText.toList).length =
      children.chars ++ (closingTag name ++ rest.chars) := by
    rw [htext, List.drop_left]
  have h₂ := Tag.drop_of_append h₁
  have h₃ := Tag.drop_of_append h₂
  have hhead := hrest.head?_chars_ne
  rw [← h₃, List.head?_drop] at hhead
  have hlead : Tag.follows content.toList '[' 0 = false := rfl
  have hbefore (p : Nat) (hp : p < 0) : Tag.markAt (s.hidden content.toList)
      (s.names.map String.toList) content.toList p = none := absurd hp (Nat.not_lt_zero p)
  have hwalk : Tag.walk (s.hidden content.toList) (s.names.map String.toList) content.toList j 1
      (openingTag name attrText.toList).length =
        some ((openingTag name attrText.toList).length + children.chars.length) := by
    have hbare : children.bare ((s.names.map String.toList).get j) = 0 := by
      rw [hj]
      exact hchildren.bare_eq_zero hencloses
    have hclosing : (closingTag name ++ rest.chars).head? ≠ some ']' := by simp [closingTag]
    have plain := fun q => hidden_eq_false (s := s) hp q
    rw [Tag.walk_chars (Tag.valid_of_validateName hv) hl (nodup_toList hd) plain hchildren h₁
        hclosing (Nat.le_refl 1), hbare,
      Tag.walk_closingTag (Tag.valid_of_validateName hv) (nodup_toList hd) plain hj h₂,
      if_pos ⟨rfl, rfl⟩]
  have hinner : Text.slice content.toList (openingTag name attrText.toList).length
      ((openingTag name attrText.toList).length + children.chars.length) = children.chars := by
    apply Text.slice_of_isPrefix _ rfl
    rw [h₁]
    exact List.prefix_append _ _
  have hlen : (openingTag name attrText.toList ++ (children.chars ++ closingTag name)).length =
      (openingTag name attrText.toList).length + children.chars.length +
        (closingTag name).length := by
    simp only [List.length_append, Nat.add_assoc]
  rw [found_openingTag hv hd hl hp hbefore hattr hj hdrop (Nat.zero_add _) hlead
    ((if_neg (by simp)).trans hwalk) rfl (decide_eq_false hhead), hlen]
  simp only [Option.map_some, Option.elim_some, Form.inside, hinner]
  exact congrArg (List.cons _) (found_rest ih h₃)

/-- The scan of a printed document, for names in the order in which they are tried. -/
theorem found_print (hv : ∀ name ∈ s.names, Tag.validateName name = .ok ())
    (hd : s.names.Nodup) (hl : Tag.LongestFirst (s.names.map String.toList))
    {encloses : String → Prop} {d : Document} (hw : d.WellFormed s.names encloses) :
    (s.scan d.print).found = d.tags 0 := by
  induction d with
  | done =>
    have hnil : (Document.print .done).toList = [] := String.toList_ofList
    rw [scan_found_eq hv, hnil]
    rfl
  | text piece rest ih =>
    obtain ⟨hpiece, hrest⟩ := hw
    rw [Document.print, Document.chars,
      found_append hv hpiece (hrest.notMem_chars hv)]
    change (s.scan rest.print).found.map _ = _
    rw [ih hrest, Document.map_shift_tags, Document.tags, Nat.add_comm]
  | tag form name attrText rest ih => exact found_print_tag hv hd hl hw (ih hw.2.2.2)
  | enclosing name attrText children rest ihc ihr =>
    exact found_print_enclosing hv hd hl hw (ihr hw.2.2.2.2)

/-- Registered names are in the order in which they are tried, so the scan of a printed document
yields its tags, with or without HTML read as such. -/
theorem scan_print {names : List String} (hv : ∀ name ∈ names, Tag.validateName name = .ok ())
    (ignoreHtml : Bool) {encloses : String → Prop} {d : Document}
    (hw : d.WellFormed names encloses) :
    ((⟨Tag.longestFirst names, ignoreHtml⟩ : Scanner).scan d.print).found = d.tags 0 := by
  have hw' : d.WellFormed (Tag.longestFirst names) encloses :=
    hw.mono fun name hn => Tag.mem_longestFirst.2 hn
  apply found_print _ (Tag.nodup_longestFirst names) _ hw'
  · intro name hn
    exact hv name (Tag.mem_longestFirst.1 hn)
  · apply List.pairwise_map.2
    apply (Tag.size_longestFirst names).imp
    intro a b hab
    rw [Text.byteLength_toList, Text.byteLength_toList]
    exact hab

/-- Tags of names that begin one another, nested in tags of the same name. -/
theorem scan_print_nested :
    (let names := ["a", "b", "ab"]
     let encloses : String → Prop := fun name => name = "a" ∨ name = "ab"
     let d : Document := .text "1/" (.enclosing "ab" "" (.enclosing "ab" " c=d"
      (.tag .bare "b" " é" (.tag .literal "ab" "" (.enclosing "a" "" .done .done)))
      (.tag .selfClosing "ab" "" .done)) (.tag .literal "a" "\n" (.tag .bare "b" "" .done)))
     (∀ name ∈ names, Tag.validateName name = .ok ()) ∧ d.WellFormed names encloses ∧
      d.print = "1/[ab][ab c=d][b é][[ab]][a][/a][/ab][ab/][/ab][[a\n]][b]" ∧
      ((⟨Tag.longestFirst names, true⟩ : Scanner).scan d.print).found = d.tags 0) := by
  have valid : ∀ name ∈ ["a", "b", "ab"], Tag.validateName name = .ok () := by
    intro name h
    simp only [List.mem_cons, List.not_mem_nil, or_false] at h
    rcases h with rfl | rfl | rfl <;> rfl
  have attrText : ∀ a ∈ ["", " c=d", " é", "\n"], IsAttrText a := by decide
  intro names encloses d
  have wellFormed : d.WellFormed names encloses := by
    simp [names, encloses, d, Document.WellFormed, attrText]
  exact ⟨valid, wellFormed, by decide +kernel, scan_print valid true wellFormed⟩

end Scanner

end Shortcode
