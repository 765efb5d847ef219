import Shortcode.Proofs.Tag.Partner

namespace Shortcode.Tag

/-- The positions of a text from `p` on. -/
def positionsFrom (text : List Char) (p : Nat) : List Nat := List.range' p (text.length - p)

/-- A walk passes over what its guard protects. -/
theorem partner?_positionsFrom (hidden : Nat → Bool) (names : List (List Char)) {text : List Char}
    (name : List Char) (depth : Nat) {p guard : Nat} (hp : p ≤ guard)
    (hg : guard ≤ text.length) :
    partner? hidden names text name depth guard (positionsFrom text p) =
      partner? hidden names text name depth guard (positionsFrom text guard) := by
  have hr : positionsFrom text p = List.range' p (guard - p) ++ positionsFrom text guard := by
    have h := List.range'_append_1 (s := p) (m := guard - p) (n := text.length - guard)
    rw [Nat.add_sub_cancel' hp] at h
    rw [positionsFrom, positionsFrom, h]
    congr 1
    omega
  rw [hr, partner?_append_of_lt]
  intro q hq
  have := (List.mem_range'_1.1 hq).2
  omega

theorem positionsFrom_zero (text : List Char) :
    positionsFrom text 0 = List.range text.length := List.range_eq_range'.symm

end Shortcode.Tag

namespace Shortcode.Scanner

/-- With valid names the openers that the pass records are those of the run over the marks. -/
theorem openers_pairing {s : Scanner} (hv : ∀ name ∈ s.names, Tag.validateName name = .ok ())
    (content : String) :
    (s.pairing content).openers =
      (Tag.runAt (s.hidden content.toList) (s.names.map String.toList) content.toList
        (.start _ []) (List.range content.toList.length)).openers := by
  rw [← Tag.Pairing.openers_forget, pairing, Tag.forget_run (Tag.valid_of_validateName hv)]
  rfl

theorem nodup_toList {names : List String} (h : names.Nodup) : (names.map String.toList).Nodup :=
  h.map fun _ _ => String.toList_injective

/-- A tag that could enclose something and is not written `[[name …]]` encloses the text up to the
place where a walk from the end of its opening tag has closed as many tags of its name as it has
opened. If there is no such place the tag ends with its opening tag. -/
theorem inner_eq_of_walk {s : Scanner}
    (hv : ∀ name ∈ s.names, Tag.validateName name = .ok ()) (hd : s.names.Nodup)
    {content : String} {m : Match} (hm : m ∈ (s.scan content).found)
    (hs : m.selfClosing = false)
    (hl : ¬ (Tag.follows content.toList '[' m.tagStart ∧
      content.toList[m.openStop]? = some ']')) :
    let close? := Tag.partner? (s.hidden content.toList) (s.names.map String.toList)
      content.toList m.name.toList 1 m.openStop (Tag.positionsFrom content.toList m.openStop)
    m.inner = (close?.map fun p => String.ofList (Text.slice content.toList m.openStop p)) ∧
      m.tagStop = close?.elim m.openStop fun p => p + m.name.length + 3 := by
  intro close?
  obtain ⟨k, o, i, ho, fits, hi, rfl⟩ := exists_opener_of_mem hm
  have hself : o.selfClosing = false := hs
  have hlit : o.literal = false := by
    rw [(fits.start_toMatch hi).2, fits.openStop_toMatch hi] at hl
    rw [Tag.Opener.literal, fits.reads.afterBracket, fits.reads.doubled, Bool.and_eq_false_iff]
    by_cases hf : Tag.follows content.toList '[' o.start = true
    · exact .inr (decide_eq_false fun hc => hl ⟨hf, hc⟩)
    · exact .inl (Bool.eq_false_iff.2 hf)
  obtain ⟨j, hj⟩ := List.mem_iff_getElem?.1 ho
  rw [Array.getElem?_toList, openers_pairing hv] at hj
  obtain ⟨k', o₀, hmark, walk⟩ :=
    Tag.closer_of_recorded (Tag.valid_of_validateName hv) (nodup_toList hd) hj
  have hk : k' = k := by
    obtain ⟨hstart, -, hreads, -⟩ := Tag.markAt_opens hmark
    have hname := hreads.name
    rw [hstart, fits.reads.name] at hname
    exact (Option.some.inj hname).symm
  subst hk
  have found : close? = o.closer.map (·.start) := by
    rw [hself, hlit] at walk
    have hle : o.close.pos + 1 ≤ content.toList.length := fits.reads.close_lt
    rw [walk, if_neg (by decide), ← Tag.positionsFrom_zero,
      Tag.partner?_positionsFrom _ _ _ _ (Nat.zero_le _) hle]
    simp only [close?, fits.openStop_toMatch hi, fits.name_toMatch hi, String.toList_ofList]
  rw [found, o.inner_toMatch hi, o.tagStop_toMatch, fits.openStop_toMatch hi,
    fits.name_toMatch hi, String.length_ofList, Tag.Opener.stop]
  cases hc : o.closer with
  | none => exact ⟨rfl, rfl⟩
  | some c => exact ⟨rfl, (fits.encloses c hc).2.2.2.stop⟩

/-- The outer of two tags of one name gets the second closing tag. -/
theorem inner_eq_of_walk_nested :
    (let s : Scanner := ⟨["ab", "a"], false⟩
     let content := "[a][a]x[/a][/a]"
     let m : Match := ⟨false, "a", "", false, some "[a]x[/a]", false, 0, 15⟩
     let close? := Tag.partner? (s.hidden content.toList) (s.names.map String.toList)
      content.toList m.name.toList 1 m.openStop (Tag.positionsFrom content.toList m.openStop)
     m ∈ (s.scan content).found ∧ close? = some 11 ∧
      m.inner = (close?.map fun p => String.ofList (Text.slice content.toList m.openStop p)) ∧
      m.tagStop = close?.elim m.openStop fun p => p + m.name.length + 3) := by
  have valid : ∀ name ∈ ["ab", "a"], Tag.validateName name = .ok () := by
    intro name h
    rcases List.mem_pair.1 h with rfl | rfl <;> rfl
  intro s content m close?
  have mem : m ∈ (s.scan content).found := by decide +kernel
  have found : close? = some 11 := by decide +kernel
  have shown : ¬ (Tag.follows content.toList '[' m.tagStart ∧
      content.toList[m.openStop]? = some ']') := by decide +kernel
  exact ⟨mem, found, inner_eq_of_walk valid (by decide) mem rfl shown⟩

end Shortcode.Scanner
