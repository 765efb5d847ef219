import Mathlib.Data.List.Basic
import Shortcode.Engine.Basic
import Shortcode.Proofs.Tag.Coverage
import Shortcode.Proofs.Tag.Unterminated

namespace Shortcode

namespace Tag

/-- The tag neither closes itself nor is a literal, so a closing tag can end it. -/
def Opener.pairable (o : Opener) : Bool := !(o.selfClosing || o.literal)

/-- The name that stands in the text where the opener says. -/
def Opener.nameIn (text : List Char) (o : Opener) : List Char :=
  Text.slice text (o.start + 1) o.nameEnd

section

variable (hidden : Nat → Bool) (names : List (List Char)) (text : List Char)

/-- What holds of the state once the marks before a position have been taken in. A lane holds
exactly those of its openers that have no closing tag yet, last first. If an opener has one, the
openers of its name behind it begin behind that closing tag or have an earlier one. -/
structure Pairing.Accounts (p : Nat) (s : Pairing names.length) : Prop where
  reads : ∀ (j : Nat) (o : Opener), s.openers[j]? = some o → ∃ k, o.Reads hidden names text k
  closed : ∀ (j : Nat) (o : Opener) (k : Fin names.length) (c : Closer), s.openers[j]? = some o →
    o.Reads hidden names text k → o.closer = some c →
    c.start < p ∧ o.pairable = true ∧ c.Reads hidden names text k
  waiting : ∀ (k : Fin names.length) (j : Nat), j ∈ (s.lane k).waiting ↔
    ∃ o : Opener, s.openers[j]? = some o ∧ o.Reads hidden names text k ∧ o.pairable = true ∧
      o.closer = none
  descending : ∀ k : Fin names.length, (s.lane k).waiting.Pairwise (· > ·)
  closers : ∀ (i j : Nat) (a b : Opener) (c d : Closer), i ≠ j → s.openers[i]? = some a →
    s.openers[j]? = some b → a.closer = some c → b.closer = some d → c.start ≠ d.start
  nested : ∀ (k : Fin names.length) (i j : Nat) (a b : Opener) (c : Closer), i < j →
    s.openers[i]? = some a → s.openers[j]? = some b → a.Reads hidden names text k →
    b.Reads hidden names text k → a.closer = some c →
    c.stop ≤ b.start ∨ (b.pairable = true → ∃ d, b.closer = some d ∧ d.start < c.start)

end

section

variable {hidden : Nat → Bool} {names : List (List Char)} {text : List Char} {p : Nat}
  {s : Pairing names.length} {k : Fin names.length}

theorem Opener.Reads.eq_lane {o : Opener} {i : Fin names.length}
    (h : o.Reads hidden names text k) (h' : o.Reads hidden names text i) : k = i :=
  Option.some.inj (h.name.symm.trans h'.name)

theorem Opener.Reads.nameIn_eq {o : Opener} (h : o.Reads hidden names text k) :
    o.nameIn text = names.get k := h.slice_name

/-- A closing tag holds no `[` but its first character. -/
theorem Closer.Reads.stop_le_of_bracket (hv : Valid names) {c : Closer}
    (h : c.Reads hidden names text k) {q : Nat} (hq : text[q]? = some '[') (hlt : c.start < q) :
    c.stop ≤ q := by
  have hp := closes_iff.1 (get_of_findFinIdx? h.name)
  have second : q ≠ c.start + 1 := by
    rintro rfl
    cases h.slash.symm.trans hq
  have behind : c.start + 2 + (names.get k).length ≤ q :=
    name_end_le (hv _ (List.get_mem names k)).2 ((List.prefix_append _ _).trans hp) (by omega) hq rfl
  have last : q ≠ c.start + 2 + (names.get k).length := by
    rintro rfl
    rw [Text.getElem?_of_isPrefix_drop hp (by simp), List.getElem?_concat_length] at hq
    cases hq
  rw [h.stop]
  omega

/-- An opener stays as it is, or is the one that waits on top and gets the closing tag. -/
theorem Pairing.exists_of_closeTag_some {e : Closer} {j : Nat} {o : Opener}
    (h : (s.closeTag k e).openers[j]? = some o) :
    ∃ o', s.openers[j]? = some o' ∧
      ((s.lane k).waiting.head? = some j ∧ o = { o' with closer := some e } ∨
        (s.lane k).waiting.head? ≠ some j ∧ o = o') := by
  rw [getElem?_closeTag] at h
  split at h
  · next ht =>
    obtain ⟨o', ho, rfl⟩ := Option.map_eq_some_iff.1 h
    exact ⟨o', ho, .inl ⟨ht, rfl⟩⟩
  · next ht => exact ⟨o, h, .inr ⟨ht, rfl⟩⟩

/-- The opener on top of a lane waits, and all that wait with it were recorded before it. -/
theorem Pairing.Accounts.top (h : s.Accounts hidden names text p) {t : Nat}
    (ht : (s.lane k).waiting.head? = some t) :
    (∃ o : Opener, s.openers[t]? = some o ∧ o.Reads hidden names text k ∧ o.pairable = true ∧
      o.closer = none) ∧ ∀ j ∈ (s.lane k).waiting, j ≤ t := by
  refine ⟨(h.waiting k t).1 (List.mem_of_head? ht), fun j hj => ?_⟩
  obtain ⟨rest, hr⟩ := List.head?_eq_some_iff.1 ht
  have hd := h.descending k
  rw [hr] at hj hd
  rcases List.mem_cons.1 hj with rfl | hj
  · exact Nat.le_refl _
  · exact Nat.le_of_lt ((List.pairwise_cons.1 hd).1 j hj)

/-- What waits after a closing tag is what waited before, without the opener that got it. -/
theorem Pairing.Accounts.mem_waiting_closeTag (h : s.Accounts hidden names text p) (e : Closer)
    (i : Fin names.length) (j : Nat) :
    j ∈ ((s.closeTag k e).lane i).waiting ↔
      j ∈ (s.lane i).waiting ∧ (s.lane k).waiting.head? ≠ some j := by
  rw [waiting_closeTag]
  split
  · next hki =>
    subst hki
    have hd := h.descending k
    cases hw : (s.lane k).waiting with
    | nil => simp
    | cons t rest =>
      rw [hw] at hd
      rw [List.tail_cons, List.mem_cons, List.head?_cons, ne_eq, Option.some.injEq]
      constructor
      · intro hj
        exact ⟨.inr hj, Nat.ne_of_gt ((List.pairwise_cons.1 hd).1 j hj)⟩
      · rintro ⟨rfl | hj, hne⟩
        · exact absurd rfl hne
        · exact hj
  · next hki =>
    refine ⟨fun hj => ⟨hj, fun ht => hki ?_⟩, And.left⟩
    obtain ⟨o, ho, hr, -⟩ := (h.top ht).1
    obtain ⟨o', ho', hr', -⟩ := (h.waiting i j).1 hj
    cases ho.symm.trans ho'
    exact hr.eq_lane hr'

/-- The opener that gets the closing tag is recorded last of those of its name that wait, so those
behind it have earlier ones. -/
theorem Pairing.Accounts.closed_behind_top (h : s.Accounts hidden names text p) {i j : Nat}
    {o : Opener} (hi : (s.lane k).waiting.head? = some i) (hij : i < j)
    (ho : s.openers[j]? = some o) (hr : o.Reads hidden names text k) (hpair : o.pairable = true) :
    ∃ d, o.closer = some d ∧ d.start < p := by
  cases hd : o.closer with
  | none =>
    have hle := (h.top hi).2 j ((h.waiting k j).2 ⟨o, ho, hr, hpair, hd⟩)
    exact absurd hij (Nat.not_lt_of_le hle)
  | some d => exact ⟨d, rfl, (h.closed j o k d ho hr hd).1⟩

theorem Pairing.Accounts.closeTag (h : s.Accounts hidden names text p) {e : Closer}
    (he : e.Reads hidden names text k) (hp : e.start = p) :
    (s.closeTag k e).Accounts hidden names text (p + 1) where
  reads j o ho := by
    obtain ⟨o', ho', ⟨-, rfl⟩ | ⟨-, rfl⟩⟩ := exists_of_closeTag_some ho
    · exact (h.reads j o' ho').imp fun _ hr => hr.pair _
    · exact h.reads j o ho'
  closed j o i c ho hr hc := by
    obtain ⟨o', ho', ⟨ht, rfl⟩ | ⟨-, rfl⟩⟩ := exists_of_closeTag_some ho
    · cases hc
      obtain ⟨o, hot, hrt, hpair, -⟩ := (h.top ht).1
      cases ho'.symm.trans hot
      obtain rfl := hrt.eq_lane (hr.pair o'.closer)
      exact ⟨hp ▸ Nat.lt_succ_self _, hpair, he⟩
    · obtain ⟨hlt, hpair, hcr⟩ := h.closed j o i c ho' hr hc
      exact ⟨Nat.lt_succ_of_lt hlt, hpair, hcr⟩
  waiting i j := by
    rw [h.mem_waiting_closeTag, h.waiting, getElem?_closeTag]
    split
    · next ht =>
      refine ⟨fun hj => absurd ht hj.2, ?_⟩
      rintro ⟨o, ho, -, -, hn⟩
      obtain ⟨o', -, rfl⟩ := Option.map_eq_some_iff.1 ho
      cases hn
    · next ht => exact and_iff_left ht
  descending i := by
    rw [waiting_closeTag]
    split
    · exact (h.descending k).sublist (List.tail_sublist _)
    · exact h.descending i
  closers i j a b c d hij ha hb hc hd := by
    obtain ⟨a', ha', ⟨hta, rfl⟩ | ⟨hta, rfl⟩⟩ := exists_of_closeTag_some ha <;>
      obtain ⟨b', hb', ⟨htb, rfl⟩ | ⟨htb, rfl⟩⟩ := exists_of_closeTag_some hb
    · exact absurd (Option.some.inj (hta.symm.trans htb)) hij
    · cases hc
      obtain ⟨i', hr⟩ := h.reads j b hb'
      exact Nat.ne_of_gt (hp ▸ (h.closed j b i' d hb' hr hd).1)
    · cases hd
      obtain ⟨i', hr⟩ := h.reads i a ha'
      exact Nat.ne_of_lt (hp ▸ (h.closed i a i' c ha' hr hc).1)
    · exact h.closers i j a b c d hij ha' hb' hc hd
  nested i x y a b c hxy ha hb hra hrb hc := by
    obtain ⟨a', ha', ⟨hta, rfl⟩ | ⟨hta, rfl⟩⟩ := exists_of_closeTag_some ha <;>
      obtain ⟨b', hb', ⟨htb, rfl⟩ | ⟨htb, rfl⟩⟩ := exists_of_closeTag_some hb
    · exact absurd (Option.some.inj (hta.symm.trans htb)) (Nat.ne_of_lt hxy)
    · -- the outer of the two is closed now, and the inner one waits no more
      cases hc
      obtain ⟨o, ho, hro, -⟩ := (h.top hta).1
      cases ha'.symm.trans ho
      obtain rfl := hro.eq_lane (hra.pair a'.closer)
      rw [hp]
      exact .inr (h.closed_behind_top hta hxy hb' hrb)
    · -- what waits behind a tag that is closed begins behind it
      obtain ⟨o, ho, -, hpair, hn⟩ := (h.top htb).1
      cases hb'.symm.trans ho
      rcases h.nested i x y a b' c hxy ha' hb' hra (hrb.pair b'.closer) hc with hle | hin
      · exact .inl hle
      · obtain ⟨d, hd, -⟩ := hin hpair
        cases hn.symm.trans hd
    · exact h.nested i x y a b c hxy ha' hb' hra hrb hc

theorem Pairing.Accounts.lt_size (h : s.Accounts hidden names text p) {j : Nat}
    (hj : j ∈ (s.lane k).waiting) : j < s.openers.size := by
  obtain ⟨o, ho, -⟩ := (h.waiting k j).1 hj
  exact (Array.getElem?_eq_some_iff.1 ho).1

theorem Pairing.Accounts.openTag (hv : Valid names) (h : s.Accounts hidden names text p)
    {o : Opener} (ho : o.Reads hidden names text k) (hn : o.closer = none) (hp : o.start = p) :
    (s.openTag k o).Accounts hidden names text (p + 1) where
  reads j o' ho' := by
    rcases s.getElem?_openTag_eq_some k _ ho' with ho' | ⟨-, rfl⟩
    · exact h.reads j o' ho'
    · exact ⟨k, ho⟩
  closed j o' i c ho' hr hc := by
    rcases s.getElem?_openTag_eq_some k _ ho' with ho' | ⟨-, rfl⟩
    · obtain ⟨hlt, hrest⟩ := h.closed j o' i c ho' hr hc
      exact ⟨Nat.lt_succ_of_lt hlt, hrest⟩
    · cases hn.symm.trans hc
  waiting i j := by
    constructor
    · intro hj
      rcases mem_waiting_openTag hj with hj | ⟨rfl, rfl, hpair⟩
      · obtain ⟨o', ho', hrest⟩ := (h.waiting i j).1 hj
        exact ⟨o', s.getElem?_openTag_of_some k o ho', hrest⟩
      · refine ⟨o, by rw [getElem?_openTag, if_pos rfl], ho, ?_, hn⟩
        rw [Opener.pairable, hpair]
        rfl
    · rintro ⟨o', ho', hr, hpair, hn'⟩
      rw [lanes_openTag]
      rcases s.getElem?_openTag_eq_some k _ ho' with ho' | ⟨rfl, rfl⟩
      · have hj := (h.waiting i j).2 ⟨o', ho', hr, hpair, hn'⟩
        split
        · next hki =>
          subst hki
          dsimp only
          split
          · exact hj
          · exact List.mem_cons_of_mem _ hj
        · exact hj
      · have alone : (o'.selfClosing || o'.literal) = false := by
          rwa [Opener.pairable, Bool.not_eq_true'] at hpair
        rw [if_pos (ho.eq_lane hr), alone]
        exact List.mem_cons_self
  descending i := by
    rw [lanes_openTag]
    split
    · dsimp only
      split
      · exact h.descending k
      · exact List.pairwise_cons.2 ⟨fun j hj => h.lt_size hj, h.descending k⟩
    · exact h.descending i
  closers i j a b c d hij ha hb hc hd := by
    rcases s.getElem?_openTag_eq_some k _ ha with ha | ⟨-, rfl⟩
    · rcases s.getElem?_openTag_eq_some k _ hb with hb | ⟨-, rfl⟩
      · exact h.closers i j a b c d hij ha hb hc hd
      · cases hn.symm.trans hd
    · cases hn.symm.trans hc
  nested i x y a b c hxy ha hb hra hrb hc := by
    rcases s.getElem?_openTag_eq_some k _ ha with ha' | ⟨-, rfl⟩
    · rcases s.getElem?_openTag_eq_some k _ hb with hb' | ⟨-, rfl⟩
      · exact h.nested i x y a b c hxy ha' hb' hra hrb hc
      · -- a closing tag that has been read ends in front of the `[` that is read now
        obtain ⟨hlt, -, hcr⟩ := h.closed x a i c ha' hra hc
        exact .inl (hcr.stop_le_of_bracket hv ho.getElem?_start (hp.symm ▸ hlt))
    · cases hn.symm.trans hc

theorem Pairing.Accounts.skip (h : s.Accounts hidden names text p) :
    s.Accounts hidden names text (p + 1) :=
  { h with
    closed := fun j o k c ho hr hc => by
      obtain ⟨hlt, hrest⟩ := h.closed j o k c ho hr hc
      exact ⟨Nat.lt_succ_of_lt hlt, hrest⟩ }

theorem Pairing.Accounts.step (hv : Valid names) (h : s.Accounts hidden names text p) :
    (runAt hidden names text s [p]).Accounts hidden names text (p + 1) := by
  cases hm : markAt hidden names text p with
  | none =>
    rw [runAt_cons_none hm]
    exact h.skip
  | some m =>
    rw [runAt_cons_some hm]
    change (s.mark m).Accounts hidden names text (p + 1)
    cases m with
    | closes k c =>
      obtain ⟨hstart, hreads⟩ := markAt_closes hm
      rw [Pairing.mark]
      split
      · exact h.skip
      · exact h.closeTag hreads hstart
    | opens k o =>
      obtain ⟨hstart, hn, hreads, -⟩ := markAt_opens hm
      rw [Pairing.mark]
      split
      · exact h.skip
      · exact h.openTag hv hreads hn hstart

theorem Pairing.Accounts.start (hidden : Nat → Bool) (names : List (List Char))
    (text : List Char) : (Pairing.start names.length []).Accounts hidden names text 0 where
  reads j o ho := by simp [Pairing.start] at ho
  closed j o k c ho := by simp [Pairing.start] at ho
  waiting k j := by
    constructor
    · intro hj
      simp at hj
    · rintro ⟨o, ho, -⟩
      simp [Pairing.start] at ho
  descending k := by simp
  closers i j a b c d _ ha := by simp [Pairing.start] at ha
  nested k i j a b c _ ha := by simp [Pairing.start] at ha

theorem Pairing.Accounts.range (hv : Valid names) (hidden : Nat → Bool) (text : List Char)
    (p : Nat) :
    (runAt hidden names text (.start names.length []) (List.range p)).Accounts hidden names text
      p := by
  induction p with
  | zero => exact Accounts.start hidden names text
  | succ p ih =>
    rw [List.range_succ, runAt_append]
    exact ih.step hv

/-- What is still ahead of the pass plays no part. -/
theorem Pairing.Accounts.of_forget (h : s.forget.Accounts hidden names text p) :
    s.Accounts hidden names text p :=
  ⟨h.reads, h.closed, h.waiting, h.descending, h.closers, h.nested⟩

/-- The name in the text tells the lane. -/
theorem Opener.Reads.iff_nameIn (hd : names.Nodup) {o : Opener} {i : Fin names.length}
    (h : o.Reads hidden names text i) :
    o.Reads hidden names text k ↔ o.nameIn text = names.get k := by
  constructor
  · exact Opener.Reads.nameIn_eq
  · intro hk
    rw [h.nameIn_eq] at hk
    exact List.nodup_iff_injective_get.1 hd hk ▸ h

/-- As many openers wait in a lane as there are of its name that want a closing tag and have
none. -/
theorem Pairing.Accounts.length_waiting (h : s.Accounts hidden names text p)
    (hd : names.Nodup) (k : Fin names.length) :
    (s.lane k).waiting.length =
      (s.openers.toList.filter (·.nameIn text = names.get k)).countP
        fun o => o.pairable && o.closer.isNone := by
  rw [List.countP_filter, ← List.length_findIdxs (s := 0)]
  refine List.Perm.length_eq ((List.perm_ext_iff_of_nodup ?_ List.nodup_findIdxs).2 fun j => ?_)
  · exact (h.descending k).imp Nat.ne_of_gt
  rw [h.waiting, List.mem_findIdxs_iff_exists_getElem_pos]
  constructor
  · rintro ⟨o, ho, hr, hpair, hn⟩
    rw [← Array.getElem?_toList] at ho
    obtain ⟨hj, rfl⟩ := List.getElem?_eq_some_iff.1 ho
    refine ⟨hj, ?_⟩
    rw [hpair, hn, decide_eq_true hr.nameIn_eq]
    rfl
  · rintro ⟨hj, hall⟩
    rw [Bool.and_eq_true_iff, Bool.and_eq_true_iff, Option.isNone_iff_eq_none,
      decide_eq_true_iff] at hall
    obtain ⟨⟨hpair, hn⟩, hname⟩ := hall
    have ho := List.getElem?_eq_getElem hj
    rw [Array.getElem?_toList] at ho
    obtain ⟨i, hr⟩ := h.reads j _ ho
    exact ⟨_, ho, (hr.iff_nameIn hd).2 hname, hpair, hn⟩

theorem Pairing.Accounts.pairable_of_closer (h : s.Accounts hidden names text p) {o : Opener}
    (ho : o ∈ s.openers.toList) (hc : o.closer.isSome = true) : o.pairable = true := by
  obtain ⟨j, hj⟩ := List.mem_iff_getElem?.1 ho
  rw [Array.getElem?_toList] at hj
  obtain ⟨k, hr⟩ := h.reads j o hj
  obtain ⟨c, hc⟩ := Option.isSome_iff_exists.1 hc
  exact (h.closed j o k c hj hr hc).2.1

/-- No two openers share a closing tag, and what two openers of one name enclose does not
overlap. -/
theorem Pairing.Accounts.apart (h : s.Accounts hidden names text p) (hd : names.Nodup)
    {i j : Nat} {a b : Opener} {c d : Closer} (hij : i < j) (hs : a.start < b.start)
    (ha : s.openers[i]? = some a) (hb : s.openers[j]? = some b) (hc : a.closer = some c)
    (hd' : b.closer = some d) :
    c.start ≠ d.start ∧ (a.nameIn text = b.nameIn text →
      c.stop ≤ b.start ∨ a.start < b.start ∧ d.stop < c.stop) := by
  refine ⟨h.closers i j a b c d (Nat.ne_of_lt hij) ha hb hc hd', fun hname => ?_⟩
  obtain ⟨k, hra⟩ := h.reads i a ha
  obtain ⟨k', hrb⟩ := h.reads j b hb
  have hrb := (hrb.iff_nameIn hd).2 (hname.symm.trans hra.nameIn_eq)
  obtain ⟨-, -, hcr⟩ := h.closed i a k c ha hra hc
  obtain ⟨-, hpair, hdr⟩ := h.closed j b k d hb hrb hd'
  rcases h.nested k i j a b c hij ha hb hra hrb hc with hle | hin
  · exact .inl hle
  · obtain ⟨d', hd'', hlt⟩ := hin hpair
    cases hd'.symm.trans hd''
    refine .inr ⟨hs, ?_⟩
    rw [hcr.stop, hdr.stop]
    omega

end

end Tag

namespace Scanner

variable {s : Scanner}

/-- The opening tags of a name that the pass records. -/
def recorded (s : Scanner) (content name : String) : List Tag.Opener :=
  (s.pairing content).openers.toList.filter (·.nameIn content.toList = name.toList)

theorem accounts (hv : ∀ name ∈ s.names, Tag.validateName name = .ok ()) (content : String) :
    (s.pairing content).Accounts (s.hidden content.toList) (s.names.map String.toList)
      content.toList content.toList.length := by
  have valid := Tag.valid_of_validateName hv
  have run := Tag.Pairing.Accounts.range valid (s.hidden content.toList) content.toList
    content.toList.length
  apply Tag.Pairing.Accounts.of_forget
  rw [pairing, Tag.forget_run valid]
  exact run

/-- The opening tags of a name that want a closing tag and have none. -/
def waiting (s : Scanner) (content name : String) : Nat :=
  (s.recorded content name).countP fun o => o.pairable && o.closer.isNone

theorem unterminated_eq (hv : ∀ name ∈ s.names, Tag.validateName name = .ok ())
    (hd : s.names.Nodup) (content : String) :
    (s.scan content).unterminated =
      (s.names.filter (s.waiting content · ≠ 0)).map fun n => (n, s.waiting content n) := by
  have counts : s.names.zip ((s.pairing content).lanes.toList.map (·.waiting.length)) =
      s.names.map fun n => (n, s.waiting content n) := by
    apply List.ext_getElem
    · simp
    · intro i hi hi'
      rw [List.length_map] at hi'
      have hk : i < (s.names.map String.toList).length := by rwa [List.length_map]
      have count := (accounts hv content).length_waiting (nodup_toList hd) ⟨i, hk⟩
      rw [List.getElem_zip, List.getElem_map, List.getElem_map]
      refine Prod.ext rfl ?_
      simpa [Tag.Pairing.lane, Vector.get, waiting, recorded] using count
  rw [scan_unterminated, counts, List.filter_map]
  congr 1
  exact List.filter_congr fun n _ => decide_eq_decide.2 Nat.pos_iff_ne_zero

/-- With valid names every recorded opening tag is one of a name of the scanner, and of those of a
name that want a closing tag the ones without are reported: once, in the order of the names, with
their number. A closing tag goes to one opening tag only, and what the tags of one name enclose
together with them is side by side or strictly one inside the other. -/
theorem pairing_accounts (hv : ∀ name ∈ s.names, Tag.validateName name = .ok ())
    (hd : s.names.Nodup) (content : String) :
    (∀ o ∈ (s.pairing content).openers.toList, ∃ name ∈ s.names, o ∈ s.recorded content name) ∧
    (∃ count : String → Nat,
      Engine.warnings (s.scan content).unterminated =
        (s.names.filter (count · ≠ 0)).map (fun name => .unterminated name (count name)) ∧
      ∀ name ∈ s.names, (s.recorded content name).countP (·.pairable) =
        (s.recorded content name).countP (·.closer.isSome) + count name) ∧
    (s.pairing content).openers.toList.Pairwise fun a b =>
      ∀ c d, a.closer = some c → b.closer = some d → c.start ≠ d.start ∧
        (a.nameIn content.toList = b.nameIn content.toList →
          c.stop ≤ b.start ∨ a.start < b.start ∧ d.stop < c.stop) := by
  have accounts := accounts hv content
  refine ⟨fun o ho => ?_, ⟨s.waiting content, ?_, fun name _ => ?_⟩, ?_⟩
  · obtain ⟨k, fits⟩ := fits_of_mem ho
    obtain ⟨name, hname, he⟩ := List.mem_map.1 (List.get_mem (s.names.map String.toList) k)
    exact ⟨name, hname, List.mem_filter.2 ⟨ho, decide_eq_true (fits.reads.nameIn_eq.trans he.symm)⟩⟩
  · rw [Engine.warnings, unterminated_eq hv hd, List.map_map]
    rfl
  · rw [List.countP_eq_countP_filter_add _ _ fun o => o.closer.isSome, List.countP_filter,
      List.countP_filter, waiting]
    congr 1
    · apply List.countP_congr
      intro o ho
      rw [Bool.and_eq_true_iff]
      have := accounts.pairable_of_closer (List.mem_filter.1 ho).1
      exact ⟨And.right, fun hc => ⟨this hc, hc⟩⟩
    · apply List.countP_congr
      intro o _
      rw [Option.not_isSome]
  · have sorted := Tag.pairwise_openersOf (s.hidden content.toList) (s.names.map String.toList)
      content.toList
    rw [Tag.openersOf, ← openers_pairing hv] at sorted
    rw [List.pairwise_iff_getElem] at sorted ⊢
    intro i j hi hj hij c d
    apply accounts.apart (nodup_toList hd) hij (sorted i j hi hj hij)
    · rw [← Array.getElem?_toList]
      exact List.getElem?_eq_getElem hi
    · rw [← Array.getElem?_toList]
      exact List.getElem?_eq_getElem hj

/-- Three names whose tags cross, with a closing tag too many, a literal, a tag that closes itself
and one inside markup. -/
theorem pairing_accounts_crossing :
    (let s : Scanner := ⟨["ab", "c", "a"], true⟩
     let content := "[/a][a][ab][a]x[/a][[a]][a/][/ab][a <[a]>][ab][/c][a][/a]"
     (∀ name ∈ s.names, Tag.validateName name = .ok ()) ∧ s.names.Nodup ∧
      (s.recorded content "a").map (fun o => (o.start, o.closer.map (·.stop))) =
        [(4, none), (11, some 19), (20, none), (24, none), (33, none), (50, some 57)] ∧
      Engine.warnings (s.scan content).unterminated = [.unterminated "ab" 1, .unterminated "a" 2] ∧
      (∃ count : String → Nat,
        Engine.warnings (s.scan content).unterminated =
          (s.names.filter (count · ≠ 0)).map (fun name => .unterminated name (count name)) ∧
        ∀ name ∈ s.names, (s.recorded content name).countP (·.pairable) =
          (s.recorded content name).countP (·.closer.isSome) + count name) ∧
      (s.pairing content).openers.toList.Pairwise fun a b =>
        ∀ c d, a.closer = some c → b.closer = some d → c.start ≠ d.start ∧
          (a.nameIn content.toList = b.nameIn content.toList →
            c.stop ≤ b.start ∨ a.start < b.start ∧ d.stop < c.stop)) := by
  have valid : ∀ name ∈ ["ab", "c", "a"], Tag.validateName name = .ok () := by decide
  intro s content
  obtain ⟨-, balance, apart⟩ := pairing_accounts (s := s) valid (by decide) content
  exact ⟨valid, by decide, by decide +kernel, by decide +kernel, balance, apart⟩

end Scanner

end Shortcode
