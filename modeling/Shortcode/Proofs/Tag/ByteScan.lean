import Mathlib.Data.List.Forall2
import Shortcode.Proofs.Tag.Octets

namespace Shortcode

open Text (Offsets octets)

/-- The match in the bytes of a text: its texts are read as bytes, and its positions are the
offsets. -/
def Match.inBytes (content : String) (m : Match) : Match :=
  { m with
    name := String.ofList (octets m.name.toList)
    attrText := String.ofList (octets m.attrText.toList)
    inner := m.inner.map fun inner => String.ofList (octets inner.toList)
    start := (Offsets.ofText content).get m.start
    stop := (Offsets.ofText content).get m.stop }

namespace Tag

/-- The second opener is the first at the offsets of its positions. -/
structure Opener.InBytes (content : String) (o o' : Opener) : Prop where
  start : o'.start = (Offsets.ofText content).get o.start
  nameEnd : o'.nameEnd = (Offsets.ofText content).get o.nameEnd
  close : o'.close = o.close.inBytes content
  afterBracket : o'.afterBracket = o.afterBracket
  closer : o'.closer = o.closer.map (Closer.inBytes content)

/-- The second state is the first at the offsets of its positions. No guard has passed the end of
the text, behind which all positions have one offset. -/
structure Pairing.InBytes (content : String) {names : List (List Char)}
    (s : Pairing names.length) (s' : Pairing (names.map octets).length) : Prop where
  closes : s'.closes = s.closes.map (Close.inBytes content)
  guard : ∀ k, (s'.lane (octetName k)).guard = (Offsets.ofText content).get (s.lane k).guard
  guard_le : ∀ k, (s.lane k).guard ≤ content.length
  waiting : ∀ k, (s'.lane (octetName k)).waiting = (s.lane k).waiting
  size : s'.openers.size = s.openers.size
  openers : ∀ (j : Nat) (o : Opener), s.openers[j]? = some o →
    ∃ o' : Opener, s'.openers[j]? = some o' ∧ o.InBytes content o'

section

variable {content : String} {hidden : Nat → Bool} {names : List (List Char)}
  {k : Fin names.length} {o o' : Opener} {s : Pairing names.length}
  {s' : Pairing (names.map octets).length}

namespace Opener.InBytes

variable (h : o.InBytes content o')

include h

/-- A `]` takes one byte. -/
theorem close_succ (hc : content.toList[o.close.pos]? = some ']') :
    o'.close.pos + 1 = (Offsets.ofText content).get (o.close.pos + 1) := by
  rw [Offsets.get_succ (by decide) hc, h.close]
  rfl

theorem selfClosing (hc : o.close.pos < content.length) :
    o'.selfClosing = o.selfClosing := by
  simp only [Opener.selfClosing, h.nameEnd, h.close, Close.inBytes,
    Offsets.get_lt_get_iff (Nat.le_of_lt hc)]

theorem literal : o'.literal = o.literal := by
  simp only [Opener.literal, h.afterBracket, h.close, Close.inBytes]

end Opener.InBytes

namespace Pairing.InBytes

theorem closeTag (h : s.InBytes content s') (k : Fin names.length) (c : Closer) :
    (s.closeTag k c).InBytes content (s'.closeTag (octetName k) (c.inBytes content)) where
  closes := by rw [closes_closeTag, closes_closeTag, h.closes]
  guard j := by rw [guard_closeTag, guard_closeTag, h.guard]
  guard_le j := by
    rw [guard_closeTag]
    exact h.guard_le j
  waiting j := by
    rw [waiting_closeTag, waiting_closeTag, h.waiting, h.waiting]
    simp only [octetName_inj]
  size := by rw [size_closeTag, size_closeTag, h.size]
  openers j o ho := by
    rw [getElem?_closeTag] at ho ⊢
    rw [h.waiting]
    split at ho
    · next ht =>
      obtain ⟨o₁, ho₁, rfl⟩ := Option.map_eq_some_iff.1 ho
      obtain ⟨o', ho', hin⟩ := h.openers j o₁ ho₁
      rw [if_pos ht, ho', Option.map_some]
      exact ⟨_, rfl, hin.start, hin.nameEnd, hin.close, hin.afterBracket, rfl⟩
    · next ht =>
      rw [if_neg ht]
      exact h.openers j o ho

theorem openTag (h : s.InBytes content s') (k : Fin names.length) (ho : o.InBytes content o')
    (hc : content.toList[o.close.pos]? = some ']') :
    (s.openTag k o).InBytes content (s'.openTag (octetName k) o') := by
  have hlt := (List.getElem?_eq_some_iff.1 hc).1
  rw [String.length_toList] at hlt
  refine ⟨h.closes, ?_, ?_, ?_, ?_, ?_⟩
  · intro j
    rw [lanes_openTag, lanes_openTag]
    simp only [octetName_inj]
    split
    · exact ho.close_succ hc
    · exact h.guard j
  · intro j
    rw [lanes_openTag]
    split
    · exact hlt
    · exact h.guard_le j
  · intro j
    rw [lanes_openTag, lanes_openTag]
    simp only [octetName_inj, ho.selfClosing hlt, ho.literal, h.waiting, h.size]
    split
    · rfl
    · exact h.waiting j
  · rw [size_openTag, size_openTag, h.size]
  · intro j o₁ ho₁
    rw [getElem?_openTag] at ho₁ ⊢
    rw [h.size]
    split at ho₁
    · next hj =>
      cases ho₁
      rw [if_pos hj]
      exact ⟨o', rfl, ho⟩
    · next hj =>
      rw [if_neg hj]
      exact h.openers j o₁ ho₁

end Pairing.InBytes

/-- The first `]` behind a name is the first there in bytes, too. -/
theorem nextClose_get {n : Nat} (hn : n ≤ content.length) (closes : List Close) :
    (nextClose ((Offsets.ofText content).get n) (closes.map (Close.inBytes content))).2 =
        (nextClose n closes).2.map (Close.inBytes content) ∧
      (nextClose ((Offsets.ofText content).get n) (closes.map (Close.inBytes content))).1.map
          (·.val) =
        ((nextClose n closes).1.map (·.val)).map (Close.inBytes content) := by
  have ahead : (closes.map (Close.inBytes content)).dropWhile
        (·.pos < (Offsets.ofText content).get n) =
      (closes.dropWhile (·.pos < n)).map (Close.inBytes content) := by
    rw [List.dropWhile_map]
    congr 2
    funext c
    simp only [Function.comp, Close.inBytes, Offsets.get_lt_get_iff hn]
  obtain ⟨left, first⟩ := nextClose_eq n closes
  obtain ⟨left', first'⟩ := nextClose_eq ((Offsets.ofText content).get n)
    (closes.map (Close.inBytes content))
  rw [left, first, left', first', ahead, List.head?_map]
  exact ⟨rfl, rfl⟩

theorem Pairing.InBytes.dropCloses (h : s.InBytes content s') (left : List Close) :
    ({ s with closes := left } : Pairing _).InBytes content
      { s' with closes := left.map (Close.inBytes content) } :=
  ⟨rfl, h.guard, h.guard_le, h.waiting, h.size, h.openers⟩

theorem Pairing.InBytes.step (h : s.InBytes content s')
    (hs : s.Sound hidden names content.toList) {p : Nat} {t : Token names.length}
    (ht : tokenAt hidden names content.toList p = some t) :
    (s.step names t).InBytes content (s'.step (names.map octets) (t.inBytes content)) := by
  cases t with
  | closer k start stop doubled =>
    simp only [Token.inBytes, Pairing.step, h.guard, Offsets.get_lt_get_iff (h.guard_le k)]
    split
    · exact h
    · exact h.closeTag k ⟨start, stop, doubled⟩
  | opener k start afterBracket =>
    obtain ⟨rfl, -, hk⟩ := tokenAt_opener ht
    have bracket := (shows_iff.1 (shows_of_tokenAt ht)).1
    obtain ⟨hle, nameEnd⟩ := get_opener bracket (get_of_findFinIdx? hk)
    rw [← get_octetName k] at nameEnd
    have same := Offsets.get_lt_get_iff (a := start) (h.guard_le k)
    rw [← h.guard] at same
    by_cases hg : start < (s.lane k).guard
    · simp only [Token.inBytes, Pairing.step, same, if_pos hg]
      exact h
    obtain ⟨left, first⟩ := nextClose_get hle s.closes
    rw [nameEnd, ← h.closes] at left first
    rw [Token.inBytes]
    cases hn : (nextClose (start + 1 + (names.get k).length) s.closes).1 with
    | none =>
      rw [hn] at first
      rw [step_opener_of_none hg hn,
        step_opener_of_none (mt same.1 hg) (Option.map_eq_none_iff.1 first), left]
      exact h.dropCloses _
    | some close =>
      rw [hn] at first
      obtain ⟨close', hn', hval⟩ := Option.map_eq_some_iff.1 first
      have hmem : close.val ∈ s.closes := by
        have ahead := (nextClose_eq (start + 1 + (names.get k).length) s.closes).2
        rw [hn, Option.map_some] at ahead
        exact List.dropWhile_subset _ (List.mem_of_head? ahead.symm)
      have hclose := (shows_iff.1 (closeAt_eq_some_iff.1 (hs.closes _ hmem)).2.1).1
      rw [step_opener_of_some hg hn, step_opener_of_some (mt same.1 hg) hn', left]
      exact (h.dropCloses _).openTag k ⟨rfl, nameEnd.symm, hval, rfl, rfl⟩ hclose

theorem Pairing.InBytes.foldl (h : s.InBytes content s')
    (hs : s.Sound hidden names content.toList) {tokens : List (Token names.length)}
    (ht : ∀ t ∈ tokens, ∃ p, tokenAt hidden names content.toList p = some t) :
    (tokens.foldl (Pairing.step names) s).InBytes content
      ((tokens.map (Token.inBytes content)).foldl (Pairing.step (names.map octets)) s') := by
  induction tokens generalizing s s' with
  | nil => exact h
  | cons t tokens ih =>
    obtain ⟨⟨p, hp⟩, ht⟩ := List.forall_mem_cons.1 ht
    exact ih (h.step hs hp) (hs.step hp) ht

theorem Pairing.InBytes.start (content : String) (names : List (List Char))
    (closes : List Close) :
    (Pairing.start names.length closes).InBytes content
      (Pairing.start (names.map octets).length (closes.map (Close.inBytes content))) where
  closes := rfl
  guard k := by simp [Offsets.get_zero]
  guard_le k := by simp
  waiting k := by simp
  size := rfl
  openers j o ho := by simp [Pairing.start] at ho

namespace Opener.Fits

variable (h : o.Fits hidden names content.toList k)

include h

theorem close_lt : o.close.pos < content.length := by
  rw [← String.length_toList]
  exact h.reads.close_lt

theorem start_le : o.start ≤ content.length := by
  have := h.close_lt
  have := o.start_lt_nameEnd
  have := o.nameEnd_le_close
  omega

theorem get_start_succ :
    (Offsets.ofText content).get (o.start + 1) = (Offsets.ofText content).get o.start + 1 :=
  Offsets.get_succ (by decide) h.reads.getElem?_start

/-- A `/` that belongs to the end of the tag takes one byte. -/
theorem get_attrEnd :
    (Offsets.ofText content).get o.attrEnd =
      if o.selfClosing then (Offsets.ofText content).get o.close.pos - 1
      else (Offsets.ofText content).get o.close.pos := by
  rw [attrEnd]
  split
  · next hs =>
    have hf := (closeAt_eq_some_iff.1 h.reads.close).2.2.1
    rw [(Bool.and_eq_true_iff.1 hs).2] at hf
    obtain ⟨hpos, hslash⟩ := follows_iff.1 hf.symm
    have next := Offsets.get_succ (by decide) hslash
    rw [Nat.sub_add_cancel hpos] at next
    rw [next, Nat.add_sub_cancel]
  · rfl

/-- So does a `]` right behind the tag. -/
theorem get_stop_trail :
    (Offsets.ofText content).get (o.stop + o.trail.toNat) =
      (Offsets.ofText content).get o.stop + o.trail.toNat := by
  cases ht : o.trail with
  | false => rfl
  | true =>
    rw [h.trail_eq] at ht
    exact Offsets.get_succ (by decide) (of_decide_eq_true ht)

/-- So does a `[` right in front of it. -/
theorem get_start_lead (cursor : Nat) :
    (Offsets.ofText content).get (o.start - (cursor < o.start && o.afterBracket).toNat) =
      (Offsets.ofText content).get o.start - (cursor < o.start && o.afterBracket).toNat := by
  cases hl : decide (cursor < o.start) && o.afterBracket with
  | false => rfl
  | true =>
    obtain ⟨hlt, hb⟩ := (Opener.lead_iff h.reads).1 hl
    have next := Offsets.get_succ (by decide) hb
    rw [Nat.sub_add_cancel (Nat.zero_lt_of_lt hlt)] at next
    rw [next]
    rfl

end Opener.Fits

namespace Opener.InBytes

variable (hb : o.InBytes content o') (h : o.Fits hidden names content.toList k)

include hb h

theorem attrEnd : o'.attrEnd = (Offsets.ofText content).get o.attrEnd := by
  rw [h.get_attrEnd, Opener.attrEnd, hb.selfClosing h.close_lt, hb.close]
  rfl

theorem stop : o'.stop = (Offsets.ofText content).get o.stop := by
  rw [Opener.stop, Opener.stop, hb.closer]
  cases o.closer with
  | some c => rfl
  | none => exact hb.close_succ h.reads.getElem?_close

omit h in
theorem trail : o'.trail = o.trail := by
  rw [Opener.trail, Opener.trail, hb.closer]
  cases o.closer with
  | some c => rfl
  | none =>
    dsimp only [Option.map_none]
    rw [hb.close]
    rfl

theorem toMatch {cursor : Nat} (hc : cursor ≤ o.start) :
    o'.toMatch ((Offsets.ofText content).get cursor)
        ((octets content.toList).drop ((Offsets.ofText content).get cursor)) =
      (o.toMatch cursor (content.toList.drop cursor)).inBytes content := by
  have hc' : (Offsets.ofText content).get cursor ≤ o'.start := by
    rw [hb.start]
    exact Offsets.get_mono content hc
  have cut {a b : Nat} (hab : a ≤ b) :
      String.ofList (Text.slice (octets content.toList) ((Offsets.ofText content).get a)
        ((Offsets.ofText content).get b)) =
      String.ofList (octets (String.ofList (Text.slice content.toList a b)).toList) := by
    rw [Text.slice_octets_get content hab, String.toList_ofList]
  have lead : (decide ((Offsets.ofText content).get cursor < o'.start) && o'.afterBracket) =
      (decide (cursor < o.start) && o.afterBracket) := by
    rw [hb.start, hb.afterBracket]
    simp only [Offsets.get_lt_get_iff h.start_le]
  rw [o.toMatch_drop hc, o'.toMatch_drop hc', lead, hb.selfClosing h.close_lt, hb.trail,
    hb.attrEnd h, hb.stop h, hb.start, hb.nameEnd, ← h.get_start_succ,
    cut o.start_lt_nameEnd, cut o.nameEnd_le_attrEnd, ← h.get_start_lead, ← h.get_stop_trail]
  simp only [Match.inBytes]
  congr 1
  rw [hb.closer, hb.close_succ h.reads.getElem?_close, Option.map_map, Option.map_map]
  apply Option.map_congr
  intro c hcl
  have hp := (h.encloses c hcl).2.2.1
  simp only [Function.comp, Closer.inBytes, cut hp]

end Opener.InBytes

theorem Pairing.InBytes.forall₂ (h : s.InBytes content s') :
    List.Forall₂ (Opener.InBytes content) s.openers.toList s'.openers.toList := by
  rw [List.forall₂_iff_get]
  refine ⟨h.size.symm, fun j hj hj' => ?_⟩
  obtain ⟨o', ho', hin⟩ := h.openers j s.openers[j] (Array.getElem?_eq_getElem hj)
  rw [Array.getElem?_eq_getElem hj', Option.some_inj] at ho'
  subst ho'
  exact hin

/-- The cuts of the match in bytes are the offsets of its cuts in characters. -/
theorem Opener.InBytes.cuts_toMatch (hb : o.InBytes content o')
    (h : o.Fits hidden names content.toList k) {hidden' : Nat → Bool}
    {k' : Fin (names.map octets).length}
    (h' : o'.Fits hidden' (names.map octets) (octets content.toList) k') {cursor : Nat}
    (hc : cursor ≤ o.start) :
    ((o.toMatch cursor (content.toList.drop cursor)).inBytes content).cuts =
      (o.toMatch cursor (content.toList.drop cursor)).cuts.map (Offsets.ofText content).get := by
  have hc' : (Offsets.ofText content).get cursor ≤ o'.start := by
    rw [hb.start]
    exact Offsets.get_mono content hc
  have closing := hb.close_succ h.reads.getElem?_close
  have inner : (o'.closer.map (·.start)).getD (o'.close.pos + 1) =
      (Offsets.ofText content).get ((o.closer.map (·.start)).getD (o.close.pos + 1)) := by
    rw [hb.closer]
    cases o.closer with
    | some c => rfl
    | none => exact closing
  rw [← hb.toMatch h hc, Match.cuts, (h'.start_toMatch hc').2, h'.nameStop_toMatch hc',
    h'.attrStop_toMatch hc', h'.openStop_toMatch hc', h'.innerStop_toMatch hc',
    o'.tagStop_toMatch, hb.start, hb.nameEnd, hb.attrEnd h, inner, closing, hb.stop h,
    hb.toMatch h hc, Match.cuts, (h.start_toMatch hc).2, h.nameStop_toMatch hc,
    h.attrStop_toMatch hc, h.openStop_toMatch hc, h.innerStop_toMatch hc, o.tagStop_toMatch]
  rfl

theorem matchesFrom_octets {os os' : List Opener}
    (hb : List.Forall₂ (Opener.InBytes content) os os')
    (hf : ∀ o ∈ os, ∃ k, o.Fits hidden names content.toList k) {cursor : Nat}
    (hcursor : cursor ≤ content.length) :
    matchesFrom ((Offsets.ofText content).get cursor)
        ((octets content.toList).drop ((Offsets.ofText content).get cursor)) os' =
      (matchesFrom cursor (content.toList.drop cursor) os).map (Match.inBytes content) := by
  induction hb generalizing cursor with
  | nil => rfl
  | @cons o o' os os' ho hos ih =>
    obtain ⟨⟨k, hk⟩, hf⟩ := List.forall_mem_cons.1 hf
    have same : o'.start < (Offsets.ofText content).get cursor ↔ o.start < cursor := by
      rw [ho.start, Offsets.get_lt_get_iff hcursor]
    by_cases hc : o.start < cursor
    · rw [matchesFrom_cons_of_lt _ _ hc, matchesFrom_cons_of_lt _ _ (same.2 hc)]
      exact ih hf hcursor
    · have hc' := Nat.le_of_not_lt hc
      obtain ⟨hlt, hle⟩ := hk.stop_toMatch hc'
      rw [String.length_toList] at hle
      have behind := Offsets.get_mono content (Nat.le_trans hc' (Nat.le_of_lt hlt))
      rw [hk.matchesFrom_cons hc', List.map_cons, matchesFrom, if_neg (mt same.1 hc),
        ho.toMatch hk hc', ← ih hf hle]
      dsimp only [Match.inBytes]
      rw [List.drop_drop, Nat.add_sub_cancel' behind]

end

end Tag

namespace Scanner

open Tag

/-- The hidden spans, by the walk over the bytes. -/
def byteShield? (s : Scanner) (content : String) : Option Html.SpanCursor :=
  if s.ignoreHtml then (Html.byteWalk? content 0).map (⟨·⟩) else some ⟨[]⟩

/-- The scan of the bytes, which are read one by one. There is no result if the text would have to
be cut inside a character: behind a `[`, or where a match or a part of it begins or ends. -/
def byteFound? (s : Scanner) (content : String) : Option (List Match) :=
  (s.byteShield? content).bind fun shield =>
    let bytes := octets content.toList
    let names := (s.names.map String.toList).map octets
    let tokens := (readingsFrom names shield 0 false bytes).filterMap (·.token)
    let found := matchesFrom 0 bytes
      (Pairing.run names (closesFrom shield 0 false bytes) tokens).openers.toList
    if (∀ q < bytes.length, bytes[q]? = some '[' →
          (⟨q + 1⟩ : String.Pos.Raw).IsValid content) ∧
        ∀ m ∈ found, m.cuts.Pairwise (· ≤ ·) ∧
          ∀ p ∈ m.cuts, (⟨p⟩ : String.Pos.Raw).IsValid content then
      some found
    else none

variable {s : Scanner} {content : String}

theorem byteShield?_spec (s : Scanner) (content : String) :
    ∃ shield, s.byteShield? content = some shield ∧ Html.Ordered shield.pending ∧
      ∀ p, Html.covers shield.pending ((Offsets.ofText content).get p) =
        s.hidden content.toList p := by
  cases h : s.ignoreHtml with
  | false =>
    refine ⟨⟨[]⟩, ?_, ⟨nofun, .nil⟩, fun p => ?_⟩
    · simp [byteShield?, h]
    · simp [hidden, h, Html.covers]
  | true =>
    refine ⟨⟨(Html.protectedSpans content.toList).map (Html.Span.inBytes content)⟩, ?_,
      (Html.placed_inBytes content).toOrdered, fun p => ?_⟩
    · simp [byteShield?, h, Html.byteWalk?_eq]
    · simp [hidden, h, Html.covers_inBytes]

/-- What the pass over the bytes records is what the pass over the text records. -/
theorem inBytes_pairing {hidden' : Nat → Bool}
    (hh : ∀ p, hidden' ((Offsets.ofText content).get p) = s.hidden content.toList p) :
    (s.pairing content).InBytes content (Pairing.run ((s.names.map String.toList).map octets)
      (closesOf hidden' (octets content.toList))
      (tokensOf hidden' ((s.names.map String.toList).map octets) (octets content.toList))) := by
  rw [closesOf_octets hh, tokensOf_octets hh, pairing, Pairing.run, Pairing.run]
  exact (Pairing.InBytes.start _ _ _).foldl (Pairing.Sound.start _ _ _)
    fun _ => exists_tokenAt_of_mem

/-- The cuts of a match in bytes are in order, and each is made where a character begins. -/
theorem cuts_inBytes_of_mem {m : Match} (hm : m ∈ (s.scan content).found) :
    (m.inBytes content).cuts = m.cuts.map (Offsets.ofText content).get ∧
      (m.inBytes content).cuts.Pairwise (· ≤ ·) := by
  obtain ⟨shield, -, -, covers⟩ := s.byteShield?_spec content
  have pass := inBytes_pairing covers
  obtain ⟨k, o, i, ho, h, hi, rfl⟩ := exists_opener_of_mem hm
  obtain ⟨j, hj⟩ := List.mem_iff_getElem?.1 ho
  rw [Array.getElem?_toList] at hj
  obtain ⟨o', ho', hb⟩ := pass.openers j o hj
  obtain ⟨k', h'⟩ := (Pairing.Sound.run _ _ _).openers j o' ho'
  have same := hb.cuts_toMatch h h' hi
  refine ⟨same, ?_⟩
  rw [same, List.pairwise_map]
  exact (h.cuts_toMatch hi).1.imp (Offsets.get_mono content)

/-- The scan of the bytes finds the matches of the text, and cuts no character in two. -/
theorem byteFound?_eq (s : Scanner) (content : String) :
    s.byteFound? content = some ((s.scan content).found.map (Match.inBytes content)) := by
  obtain ⟨shield, hshield, ordered, covers⟩ := s.byteShield?_spec content
  have pass := inBytes_pairing covers
  have found := matchesFrom_octets pass.forall₂ (fun o => fits_of_mem) (Nat.zero_le _)
  rw [Offsets.get_zero, List.drop_zero, List.drop_zero, ← scan_found] at found
  rw [byteFound?, hshield, Option.bind_some]
  simp only [closesFrom_zero _ ordered fun _ => rfl, readingsFrom_zero _ _ ordered fun _ => rfl,
    token_readingsOf, found]
  apply if_pos
  refine ⟨?_, ?_⟩
  · intro q _ hq
    obtain ⟨p, -, rfl, hp⟩ := Text.exists_position_of_octet (by decide) hq
    rw [← Offsets.get_succ (by decide) hp]
    exact Offsets.isValid_get content (p + 1)
  · rw [List.forall_mem_map]
    intro m hm
    obtain ⟨same, sorted⟩ := cuts_inBytes_of_mem hm
    refine ⟨sorted, ?_⟩
    rw [same, List.forall_mem_map]
    intro p _
    exact Offsets.isValid_get content p

end Scanner

end Shortcode
