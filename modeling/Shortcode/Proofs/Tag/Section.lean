import Shortcode.Proofs.Tag.Masked
import Shortcode.Proofs.Tag.Printed
import Shortcode.Proofs.Tag.Restart
import Shortcode.Proofs.Tag.Unterminated

namespace Shortcode

namespace Tag

section

variable {name pre : List Char}

/-- A name holds no `]`, so if it can be read in front of one it ends there at the latest. -/
theorem exists_of_append_eq_close {after post : List Char} (hn : ']' ∉ name)
    (h : name ++ after = pre ++ ']' :: post) :
    ∃ more, pre = name ++ more ∧ after = more ++ ']' :: post := by
  rcases List.append_eq_append_iff.1 h with ⟨more, hpre, hafter⟩ | ⟨more, hname, hpost⟩
  · exact ⟨more, hpre, hafter⟩
  · cases more with
    | nil => exact ⟨[], by simpa using hname.symm, by simpa using hpost.symm⟩
    | cons c more =>
      obtain ⟨rfl, -⟩ := List.cons_eq_cons.1 hpost
      exact absurd (by simp [hname]) hn

/-- What stands behind the `]` is no matter to an opening tag. -/
theorem opens_of_close (hn : ']' ∉ name) (pre post post' : List Char) :
    opens (pre ++ ']' :: post) name = opens (pre ++ ']' :: post') name := by
  have only {post post' : List Char} (h : opens (pre ++ ']' :: post) name = true) :
      opens (pre ++ ']' :: post') name = true := by
    obtain ⟨after, ha, hc⟩ := opens_iff.1 h
    obtain ⟨more, rfl, rfl⟩ := exists_of_append_eq_close hn ha
    refine opens_iff.2 ⟨more ++ ']' :: post', by simp, ?_⟩
    cases more with
    | nil => exact hc
    | cons c more => exact hc
  exact Bool.eq_iff_iff.2 ⟨only, only⟩

/-- Nor is it to a closing tag. -/
theorem closes_of_close (hn : ']' ∉ name) (pre post post' : List Char) :
    closes (pre ++ ']' :: post) name = closes (pre ++ ']' :: post') name := by
  have only {post post' : List Char} (h : closes (pre ++ ']' :: post) name = true) :
      closes (pre ++ ']' :: post') name = true := by
    obtain ⟨after, ha⟩ := closes_iff.1 h
    rw [List.append_assoc] at ha
    obtain ⟨more, rfl, hm⟩ := exists_of_append_eq_close hn ha
    apply closes_iff.2
    cases more with
    | nil => exact ⟨post', by simp⟩
    | cons c more =>
      obtain ⟨rfl, -⟩ := List.cons_eq_cons.1 hm
      exact ⟨more ++ ']' :: post', by simp⟩
  exact Bool.eq_iff_iff.2 ⟨only, only⟩

end

/-- Behind each `[` of the text there is a `]`, and neither is hidden. -/
def Closed (hidden : Nat → Bool) (text : List Char) : Prop :=
  ∀ p, shows hidden text '[' p = true → ∃ q, p < q ∧ shows hidden text ']' q = true

section

variable {hidden : Nat → Bool} {names : List (List Char)} {front rest : List Char} {p : Nat}

theorem shows_append_left (c : Char) (hp : p < front.length) :
    shows hidden (front ++ rest) c p = shows hidden front c p := by
  rw [shows, shows, List.getElem?_append_left hp]

theorem follows_append_left (c : Char) (hp : p ≤ front.length) :
    follows (front ++ rest) c p = follows front c p := by
  rw [follows, follows]
  cases p with
  | zero => rfl
  | succ p => rw [Nat.add_sub_cancel, List.getElem?_append_left hp]

/-- No `]` is added to what stands at the end of the first part. -/
theorem getElem?_append_close (hr : rest.head? ≠ some ']') (hp : p ≤ front.length) :
    (front ++ rest)[p]? = some ']' ↔ front[p]? = some ']' := by
  rcases Nat.lt_or_eq_of_le hp with hlt | rfl
  · rw [List.getElem?_append_left hlt]
  · rw [List.getElem?_append_right (Nat.le_refl _), Nat.sub_self, ← List.head?_eq_getElem?,
      List.getElem?_eq_none (Nat.le_refl _)]
    exact ⟨fun h => absurd h hr, nofun⟩

theorem closeAt_append_left (hr : rest.head? ≠ some ']') (hp : p < front.length) :
    closeAt hidden (front ++ rest) p = closeAt hidden front p := by
  rw [closeAt, closeAt, shows_append_left _ hp, follows_append_left _ (Nat.le_of_lt hp)]
  simp only [getElem?_append_close hr hp]

theorem closesOf_append (hr : rest.head? ≠ some ']') :
    ∃ others, closesOf hidden (front ++ rest) = closesOf hidden front ++ others := by
  refine ⟨((List.range rest.length).map (front.length + ·)).filterMap
    (closeAt hidden (front ++ rest)), ?_⟩
  rw [closesOf, List.length_append, List.range_add, List.filterMap_append, closesOf]
  congr 1
  apply List.filterMap_congr
  intro q hq
  exact closeAt_append_left hr (List.mem_range.1 hq)

theorem nextClose_append {q : Nat} {closes : List Close} (h : ∃ c ∈ closes, q ≤ c.pos)
    (others : List Close) :
    (nextClose q (closes ++ others)).1 = (nextClose q closes).1 := by
  induction closes with
  | nil =>
    obtain ⟨c, hc, -⟩ := h
    cases hc
  | cons c closes ih =>
    rw [List.cons_append, nextClose, nextClose]
    split
    · rfl
    · next hlt =>
      apply ih
      obtain ⟨c', hc', hle⟩ := h
      rcases List.mem_cons.1 hc' with rfl | hc'
      · exact absurd hle hlt
      · exact ⟨c', hc', hle⟩

/-- What a `[` with a `]` somewhere behind it means is the same if more text follows. -/
theorem token_readTag_append (hv : Valid names) (start : Nat) (afterBracket : Bool)
    {text : List Char} (hm : ']' ∈ text) (hr : rest.head? ≠ some ']') :
    (readTag names start afterBracket (text ++ rest)).token =
      (readTag names start afterBracket text).token := by
  have plain {name : List Char} (hn : name ∈ names) : ']' ∉ name := fun h =>
    nomatch (hv name hn).2 ']' h
  by_cases hs : text.head? = some '/'
  · obtain ⟨tail, rfl⟩ := List.head?_eq_some_iff.1 hs
    obtain ⟨pre, post, rfl⟩ := List.append_of_mem ((List.mem_cons.1 hm).resolve_left (by decide))
    have found : names.findFinIdx? (closes (pre ++ ']' :: post ++ rest)) =
        names.findFinIdx? (closes (pre ++ ']' :: post)) := by
      rw [List.append_assoc, List.cons_append]
      exact findFinIdx?_congr fun name hn => closes_of_close (plain hn) pre _ _
    rw [List.cons_append, readTag, readTag, found]
    apply Option.map_congr
    intro k hk
    have length := (closes_iff.1 (get_of_findFinIdx? hk)).length_le
    rw [List.length_append, List.length_singleton] at length
    simp only [getElem?_append_close hr length]
  · have nonempty : text ≠ [] := List.ne_nil_of_mem hm
    have hs' : (text ++ rest).head? ≠ some '/' := by
      rwa [List.head?_append_of_ne_nil _ nonempty]
    obtain ⟨pre, post, rfl⟩ := List.append_of_mem hm
    rw [token_readTag_of_ne hs, token_readTag_of_ne hs', List.append_assoc, List.cons_append,
      findFinIdx?_congr fun name hn => opens_of_close (plain hn) pre _ _]

theorem markAt_append_left (hv : Valid names) (hc : Closed hidden front)
    (hr : rest.head? ≠ some ']') (hp : p < front.length) :
    markAt hidden names (front ++ rest) p = markAt hidden names front p := by
  have tokens : tokenAt hidden names (front ++ rest) p = tokenAt hidden names front p := by
    rw [tokenAt, tokenAt, shows_append_left _ hp, follows_append_left _ (Nat.le_of_lt hp)]
    split
    · next hs =>
      obtain ⟨q, hpq, hq⟩ := hc p hs
      have hm : ']' ∈ front.drop (p + 1) := by
        apply List.mem_of_getElem? (i := q - (p + 1))
        rw [List.getElem?_drop, Nat.add_sub_cancel' hpq]
        exact (shows_iff.1 hq).1
      rw [List.drop_append_of_le_length hp]
      exact token_readTag_append hv _ _ hm hr
    · rfl
  obtain ⟨others, closes⟩ : ∃ others, closesOf hidden (front ++ rest) =
      closesOf hidden front ++ others := closesOf_append hr
  rw [markAt, markAt, tokens, closes]
  apply Option.bind_congr
  intro t ht
  cases t with
  | closer k start stop doubled => rfl
  | opener k start afterBracket =>
    obtain ⟨rfl, -, hk⟩ := tokenAt_opener ht
    obtain ⟨q, hpq, hq⟩ := hc start (shows_of_tokenAt ht)
    have hend := name_end_le (hv _ (List.get_mem names k)).2
      (isPrefix_of_opens (get_of_findFinIdx? hk)) hpq (shows_iff.1 hq).1 rfl
    have ahead : ∃ c ∈ closesOf hidden front, start + 1 + (names.get k).length ≤ c.pos := by
      refine ⟨⟨q, follows front '/' q, front[q + 1]? = some ']'⟩, ?_, hend⟩
      exact mem_closesOf.2 (closeAt_eq_some_iff.2 ⟨rfl, hq, rfl, rfl⟩)
    rw [Token.mark?, Token.mark?, nextClose_append ahead]

variable (hidden names front) in
/-- Nothing in the first part is open at its end, neither a bracket nor a tag. -/
structure Complete : Prop where
  closed : Closed hidden front
  bracket : follows front '[' front.length = false
  idle : ∀ k, ((runAt hidden names front (.start names.length [])
    (List.range front.length)).lane k).waiting = []

theorem Complete.seam (h : Complete hidden names front) (hv : Valid names)
    (hr : rest.head? ≠ some ']') : Seam hidden names (front ++ rest) front.length where
  le := by simp
  bracket := by
    rw [follows_append_left _ (Nat.le_refl _)]
    exact h.bracket
  slash hb := by
    have := (getElem?_append_close hr (Nat.le_refl _)).1 hb
    rw [List.getElem?_eq_none (Nat.le_refl _)] at this
    cases this
  closed q hq k o hm := by
    rw [markAt_append_left hv h.closed hr hq] at hm
    exact (markAt_opens hm).2.2.1.close_lt

/-- The pass records the openers of the first part as if it stood alone, and what follows does not
reach back to them. -/
theorem Complete.openersOf_append (h : Complete hidden names front) (hv : Valid names)
    (hr : rest.head? ≠ some ']') :
    openersOf hidden names (front ++ rest) = openersOf hidden names front ++
      (openersOf (fun i => hidden (front.length + i)) names rest).map
        (Opener.shift front.length) := by
  have seam := h.seam hv hr
  have alone : runAt hidden names (front ++ rest) (.start names.length [])
      (List.range front.length) =
        runAt hidden names front (.start names.length []) (List.range front.length) := by
    rw [runAt, runAt]
    congr 1
    apply List.filterMap_congr
    intro p hp
    exact markAt_append_left hv h.closed hr (List.mem_range.1 hp)
  have back := seam.resumes.drop_openers
  have take : (openersOf hidden names (front ++ rest)).take (openersOf hidden names front).length =
      openersOf hidden names front := by
    apply List.ext_getElem?
    intro j
    rw [List.getElem?_take]
    split
    · next hj =>
      have settled : (runAt hidden names front (.start names.length [])
          (List.range front.length)).Settled j := by
        refine ⟨by simpa [openersOf] using hj, fun k => ?_⟩
        rw [h.idle k]
        exact List.not_mem_nil
      rw [openersOf, openersOf, Array.getElem?_toList, Array.getElem?_toList, seam.range_eq,
        runAt_append, alone]
      exact settled.foldl _
    · next hj => exact (List.getElem?_eq_none (Nat.le_of_not_lt hj)).symm
  rw [alone, List.drop_left] at back
  rw [← List.take_append_drop (openersOf hidden names front).length
    (openersOf hidden names (front ++ rest)), take]
  exact congrArg _ back

theorem runAt_eq_start (h : '[' ∉ front) :
    runAt hidden names front (.start names.length []) (List.range front.length) =
      .start names.length [] := by
  have nothing : (List.range front.length).filterMap (markAt hidden names front) = [] := by
    apply List.filterMap_eq_nil_iff.2
    intro p _
    apply markAt_of_ne
    intro hb
    exact h (List.mem_of_getElem? hb)
  rw [runAt, nothing]
  rfl

theorem complete_of_notMem (h : '[' ∉ front) : Complete hidden names front where
  closed p hp := absurd (List.mem_of_getElem? (shows_iff.1 hp).1) h
  bracket := Bool.eq_false_iff.2 fun hf => h (List.mem_of_getElem? (follows_iff.1 hf).2)
  idle k := by rw [runAt_eq_start h, Pairing.lanes_start]

theorem openersOf_eq_nil (h : '[' ∉ front) : openersOf hidden names front = [] := by
  rw [openersOf, runAt_eq_start h]
  rfl

theorem Opener.shift_shift (a b : Nat) (o : Opener) : (o.shift b).shift a = o.shift (a + b) := by
  simp only [shift, Close.shift, ← Nat.add_assoc, Option.map_map]
  congr 2
  funext c
  simp only [Function.comp_apply, Closer.shift, Nat.add_assoc]

/-- Text without `[` only moves the openers of what follows. A `]` with which that begins ends no
tag, so it does not matter what stands in front of it: both texts are cut at the first `[`. -/
theorem openersOf_append_of_notMem (hv : Valid names) (h : '[' ∉ front) (rest : List Char) :
    openersOf hidden names (front ++ rest) =
      (openersOf (fun i => hidden (front.length + i)) names rest).map
        (Opener.shift front.length) := by
  obtain ⟨plain, back, rfl, hplain, hback⟩ : ∃ plain back, rest = plain ++ back ∧ '[' ∉ plain ∧
      back.head? ≠ some ']' := by
    refine ⟨_, _, (List.takeWhile_append_dropWhile (p := (· != '['))).symm, ?_, ?_⟩
    · intro hm
      cases List.mem_takeWhile_imp hm
    · intro hb
      have := List.head?_dropWhile_not (· != '[') rest
      rw [hb] at this
      cases this
  have both : '[' ∉ front ++ plain := by
    intro hm
    exact (List.mem_append.1 hm).elim h hplain
  rw [← List.append_assoc, (complete_of_notMem both).openersOf_append hv hback,
    (complete_of_notMem hplain).openersOf_append hv hback, openersOf_eq_nil both,
    openersOf_eq_nil hplain, List.nil_append, List.nil_append, List.map_map]
  simp only [List.length_append, Nat.add_assoc]
  congr 1
  funext o
  exact (Opener.shift_shift ..).symm

theorem Opener.Fits.toMatch_append {k : Fin names.length} {o : Opener}
    (h : o.Fits hidden names front k) {cursor : Nat} (hc : cursor ≤ o.start) :
    o.toMatch cursor ((front ++ rest).drop cursor) = o.toMatch cursor (front.drop cursor) := by
  have close := h.reads.close_lt
  have attr : o.attrEnd ≤ front.length := by
    rw [attrEnd]
    split <;> omega
  rw [o.toMatch_drop hc, o.toMatch_drop hc, Text.slice_append_left _ attr,
    Text.slice_append_left _ (Nat.le_trans o.nameEnd_le_attrEnd attr)]
  cases hcl : o.closer with
  | none => rfl
  | some c =>
    have reads := (h.encloses c hcl).2.2.2
    rw [Option.map_some, Option.map_some, Text.slice_append_left _
      (Nat.le_trans (Nat.le_of_lt reads.start_lt_stop) reads.stop_le)]

/-- The openers of the first part have the matches that they have there, and behind these the
cursor has not left it. -/
theorem exists_matchesFrom_append {openers : List Opener}
    (hf : ∀ o ∈ openers, ∃ k, o.Fits hidden names front k) {cursor : Nat}
    (hc : cursor ≤ front.length) (others : List Opener) :
    ∃ c ≤ front.length, matchesFrom cursor ((front ++ rest).drop cursor) (openers ++ others) =
      matchesFrom cursor (front.drop cursor) openers ++
        matchesFrom c ((front ++ rest).drop c) others := by
  induction openers generalizing cursor with
  | nil => exact ⟨cursor, hc, rfl⟩
  | cons o openers ih =>
    obtain ⟨⟨k, h⟩, hf⟩ := List.forall_mem_cons.1 hf
    by_cases hlt : o.start < cursor
    · obtain ⟨c, hle, hm⟩ := ih hf hc
      refine ⟨c, hle, ?_⟩
      rw [List.cons_append, matchesFrom_cons_of_lt _ _ hlt, matchesFrom_cons_of_lt _ _ hlt, hm]
    · have hle := Nat.le_of_not_lt hlt
      obtain ⟨hstart, hstop⟩ := h.stop_toMatch hle
      obtain ⟨c, hcl, hm⟩ := ih hf hstop
      refine ⟨c, hcl, ?_⟩
      rw [h.matchesFrom_cons hle, List.cons_append, List.cons_append, ← hm, matchesFrom, if_neg hlt]
      dsimp only
      rw [h.toMatch_append hle, List.drop_drop,
        Nat.add_sub_cancel' (Nat.le_trans hle (Nat.le_of_lt hstart))]

variable {piece : List Char}

/-- Behind plain text no `[` is an escape of what follows, whatever stood in front of it. -/
theorem follows_append_piece (hne : piece ≠ []) (h : '[' ∉ piece) (rest : List Char) :
    follows (front ++ (piece ++ rest)) '[' (front.length + piece.length) = false := by
  have hpos := List.length_pos_iff.2 hne
  apply Bool.eq_false_iff.2
  intro hf
  have hb := (follows_iff.1 hf).2
  rw [Nat.add_sub_assoc hpos, List.getElem?_append_right (Nat.le_add_right _ _),
    Nat.add_sub_cancel_left, List.getElem?_append_left (Nat.sub_lt hpos Nat.one_pos)] at hb
  exact h (List.mem_of_getElem? hb)

theorem Complete.openersOf_piece (h : Complete hidden names front) (hv : Valid names)
    (hne : piece ≠ []) (hp : ∀ c ∈ piece, isBracket c = false) (rest : List Char) :
    openersOf hidden names (front ++ (piece ++ rest)) = openersOf hidden names front ++
      (openersOf (fun i => hidden (front.length + piece.length + i)) names rest).map
        (Opener.shift (front.length + piece.length)) := by
  have head : (piece ++ rest).head? ≠ some ']' := by
    rw [List.head?_append_of_ne_nil _ hne]
    intro hb
    cases hp _ (List.mem_of_head? hb)
  have plain : '[' ∉ piece := fun hm => nomatch hp _ hm
  rw [h.openersOf_append hv head, openersOf_append_of_notMem hv plain, List.map_map]
  simp only [Nat.add_assoc]
  congr 2
  funext o
  exact Opener.shift_shift ..

/-- The matches of a complete first part, and those of the second part moved behind it and the
plain text between the two. -/
theorem Complete.matchesFrom_piece (h : Complete hidden names front) (hv : Valid names)
    (hne : piece ≠ []) (hp : ∀ c ∈ piece, isBracket c = false)
    (ha : ∀ o ∈ openersOf hidden names front, ∃ k, o.Fits hidden names front k)
    (hb : ∀ o ∈ openersOf hidden names (front ++ (piece ++ rest)),
      ∃ k, o.Fits hidden names (front ++ (piece ++ rest)) k) :
    matchesFrom 0 (front ++ (piece ++ rest)) (openersOf hidden names (front ++ (piece ++ rest))) =
      matchesFrom 0 front (openersOf hidden names front) ++
        (matchesFrom 0 rest
          (openersOf (fun i => hidden (front.length + piece.length + i)) names rest)).map
            (Match.shift (front.length + piece.length)) := by
  have plain : '[' ∉ piece := fun hm => nomatch hp _ hm
  rw [h.openersOf_piece hv hne hp] at hb ⊢
  generalize openersOf (fun i => hidden (front.length + piece.length + i)) names rest = others
    at hb ⊢
  obtain ⟨c, hc, hm⟩ := exists_matchesFrom_append ha (Nat.zero_le _)
    (others.map (Opener.shift (front.length + piece.length)))
  have moved : ∀ o ∈ others.map (Opener.shift (front.length + piece.length)),
      front.length + piece.length ≤ o.start := by
    intro o ho
    obtain ⟨o', -, rfl⟩ := List.mem_map.1 ho
    exact Nat.le_add_right _ _
  have behind := matchesFrom_cursor (Nat.le_trans hc (Nat.le_add_right _ _))
    (fun o ho => hb o (List.mem_append_right _ ho)) moved (follows_append_piece hne plain rest)
  rw [List.drop_zero, List.drop_zero, behind, ← List.append_assoc, ← List.length_append,
    List.drop_left] at hm
  rw [← List.append_assoc, ← List.length_append, hm]
  exact congrArg _ (matchesFrom_shift _ 0 rest others)

/-- The first text ends outside of brackets, and plain text parts it from what follows. -/
structure Parted (front piece : String) : Prop where
  ends : (front.toList.filter isBracket).getLast? ≠ some '['
  nonempty : piece ≠ ""
  plain : ∀ c ∈ piece.toList, isBracket c = false

/-- Where nothing is hidden, a text is closed if its last bracket is no `[`. -/
theorem closed_of_getLast? {text : List Char}
    (h : (text.filter isBracket).getLast? ≠ some '[') : Closed (fun _ => false) text := by
  intro p hp
  by_contra none
  apply h
  have hb := (shows_iff.1 hp).1
  have opens : ∀ c ∈ (text.drop p).filter isBracket, c = '[' := by
    intro c hc
    obtain ⟨hm, hbracket⟩ := List.mem_filter.1 hc
    obtain ⟨j, hj⟩ := List.mem_iff_getElem?.1 hm
    rw [List.getElem?_drop] at hj
    refine (isBracket_iff.1 hbracket).resolve_right ?_
    rintro rfl
    cases j with
    | zero =>
      rw [Nat.add_zero, hb] at hj
      cases hj
    | succ j => exact none ⟨p + (j + 1), by omega, shows_iff.2 ⟨hj, rfl⟩⟩
  have last : (text.drop p).filter isBracket ≠ [] := by
    apply List.ne_nil_of_mem (a := '[')
    rw [List.mem_filter]
    refine ⟨List.mem_of_getElem? (i := 0) ?_, rfl⟩
    rw [List.getElem?_drop, Nat.add_zero, hb]
  rw [← List.take_append_drop p text, List.filter_append, List.getLast?_append_of_ne_nil _ last,
    List.getLast?_eq_some_getLast last, opens _ (List.getLast_mem last)]

end

end Tag

theorem Match.LiesIn.byteSpan_append {names : List String} {front : String} {m : Match}
    (h : m.LiesIn names front) (rest : String) :
    m.byteSpan (.ofText (front ++ rest)) = m.byteSpan (.ofText front) ∧
      m.byteTagSpan (.ofText (front ++ rest)) = m.byteTagSpan (.ofText front) := by
  have same {p : Nat} (hp : p ∈ m.cuts) :
      (Text.Offsets.ofText (front ++ rest)).get p = (Text.Offsets.ofText front).get p := by
    rw [Text.Offsets.get_ofText, Text.Offsets.get_ofText, String.toList_append,
      List.take_append_of_le_length]
    rw [String.length_toList]
    exact h.cuts_le p hp
  constructor
  · rw [byteSpan, byteSpan, same (by simp [cuts]), same (by simp [cuts])]
  · rw [byteTagSpan, byteTagSpan, same (by simp [cuts]), same (by simp [cuts])]

theorem Match.LiesIn.byteSpan_shift_append {names : List String} {back : String} {m : Match}
    (h : m.LiesIn names back) (front : String) :
    let move := (front.utf8ByteSize + ·)
    (m.shift front.length).byteSpan (.ofText (front ++ back)) =
        (m.byteSpan (.ofText back)).map move move ∧
      (m.shift front.length).byteTagSpan (.ofText (front ++ back)) =
        (m.byteTagSpan (.ofText back)).map move move := by
  intro move
  have behind : String.ofList ((front ++ back).toList.drop front.length) = back := by
    rw [String.toList_append, ← String.length_toList, List.drop_left, String.ofList_toList]
  have size : (Text.Offsets.ofText (front ++ back)).get front.length = front.utf8ByteSize := by
    rw [Text.Offsets.get_ofText, String.toList_append, ← String.length_toList, List.take_left,
      Text.byteLength_toList]
  have bytes := h.nonempty
  have positive : 0 < m.stop := by
    apply Nat.pos_of_ne_zero
    intro hz
    rw [byteSpan, hz, Text.Offsets.get_ofText back 0] at bytes
    exact Nat.not_lt_zero _ bytes
  constructor
  · rw [byteSpan_shift, behind, size]
  · rw [byteTagSpan_shift _ _ _ positive, behind, size]

namespace Scanner

variable {s : Scanner} {front piece : String}

theorem hidden_eq_plain (hi : s.ignoreHtml = false) (text : List Char) :
    s.hidden text = fun _ => false := by
  funext q
  rw [hidden, hi, Bool.false_and]

/-- If the scan leaves no opening tag waiting and the last bracket is no `[`, all is said. -/
theorem complete_of_unterminated (hi : s.ignoreHtml = false)
    (hv : ∀ name ∈ s.names, Tag.validateName name = .ok ())
    (ends : (front.toList.filter Tag.isBracket).getLast? ≠ some '[')
    (hu : (s.scan front).unterminated = []) :
    Tag.Complete (s.hidden front.toList) (s.names.map String.toList) front.toList where
  closed := by
    rw [hidden_eq_plain hi]
    exact Tag.closed_of_getLast? ends
  bracket := by
    apply Bool.eq_false_iff.2
    intro hf
    obtain ⟨hpos, hb⟩ := Tag.follows_iff.1 hf
    obtain ⟨q, hq, hs⟩ := Tag.closed_of_getLast? ends _ (Tag.shows_iff.2 ⟨hb, rfl⟩)
    have := (List.getElem?_eq_some_iff.1 (Tag.shows_iff.1 hs).1).1
    omega
  idle k := by
    have run := @Tag.forget_run (s.hidden front.toList) (s.names.map String.toList) front.toList
      (Tag.valid_of_validateName hv)
    have lane : (Tag.runAt (s.hidden front.toList) (s.names.map String.toList) front.toList
        (.start _ []) (List.range front.toList.length)).lane k = (s.pairing front).lane k := by
      rw [← Tag.Pairing.lane_forget (s.pairing front), pairing, run]
      rfl
    rw [lane]
    by_contra waits
    have hm : (String.ofList ((s.names.map String.toList).get k),
        ((s.pairing front).lane k).waiting.length) ∈ (s.scan front).unterminated :=
      mem_unterminated.2 ⟨k, String.toList_ofList.symm, rfl, List.length_pos_iff.2 waits⟩
    rw [hu] at hm
    cases hm

/-- A scan of two texts with plain text between them finds what scans of the two find, if nothing
in the first is left open. -/
theorem found_sections (hi : s.ignoreHtml = false)
    (hv : ∀ name ∈ s.names, Tag.validateName name = .ok ()) (parted : Tag.Parted front piece)
    (hu : (s.scan front).unterminated = []) (back : String) :
    (s.scan (front ++ piece ++ back)).found = (s.scan front).found ++
      (s.scan back).found.map (Match.shift (front ++ piece).length) := by
  have whole : (front ++ piece ++ back).toList =
      front.toList ++ (piece.toList ++ back.toList) := by
    rw [String.toList_append, String.toList_append, List.append_assoc]
  have nonempty : piece.toList ≠ [] := fun h => parted.nonempty (String.toList_eq_nil_iff.1 h)
  have same (text : List Char) : s.hidden text = s.hidden front.toList := by
    rw [hidden_eq_plain hi, hidden_eq_plain hi]
  have fits (content : String) : ∀ o ∈ Tag.openersOf (s.hidden content.toList)
      (s.names.map String.toList) content.toList, ∃ k, o.Fits (s.hidden content.toList)
        (s.names.map String.toList) content.toList k := fun o => fits_of_mem_openersOf hv
  have all := fits (front ++ piece ++ back)
  rw [same, whole] at all
  rw [scan_found_eq hv, scan_found_eq hv, scan_found_eq hv, whole, same (_ ++ _),
    (complete_of_unterminated hi hv parted.ends hu).matchesFrom_piece (Tag.valid_of_validateName hv)
      nonempty parted.plain (fits front) all, String.length_append, hidden_eq_plain hi,
    hidden_eq_plain hi]
  rfl

end Scanner

end Shortcode
