import Shortcode.Proofs.Tag.ByteScan

namespace Shortcode

/-- The match is a piece of the text with these names, in characters and in UTF-8. Its cuts in bytes
are counted from its first byte on, by the bytes of its texts. -/
structure Match.LiesIn (names : List String) (content : String) (m : Match) : Prop where
  name_mem : m.name ∈ names
  inner_eq_none : m.selfClosing = true → m.inner = none
  cuts_sorted : m.cuts.Pairwise (· ≤ ·)
  cuts_le : ∀ p ∈ m.cuts, p ≤ content.length
  cuts_inBytes : (m.inBytes content).cuts = m.cuts.map (Text.Offsets.ofText content).get
  cuts_valid : ∀ p ∈ (m.inBytes content).cuts, (⟨p⟩ : String.Pos.Raw).IsValid content
  nonempty : (m.byteSpan (.ofText content)).1 < (m.byteSpan (.ofText content)).2
  inBounds : (m.byteSpan (.ofText content)).2 ≤ content.utf8ByteSize
  written : content.toUTF8.extract (m.byteSpan (.ofText content)).1
    (m.byteSpan (.ofText content)).2 = m.text.toUTF8
  attrText_eq : content.toUTF8.extract ((Text.Offsets.ofText content).get m.nameStop)
    ((Text.Offsets.ofText content).get m.attrStop) = m.attrText.toUTF8
  inner_eq : ∀ inner, m.inner = some inner →
    content.toUTF8.extract ((Text.Offsets.ofText content).get m.openStop)
      ((Text.Offsets.ofText content).get m.innerStop) = inner.toUTF8

/-- Pieces that lie in order, written as they stand in the text, put the text together. -/
theorem Text.spliceFrom_eq_drop {text : List Char} {edits : List Edit} (cursor : Nat)
    (ho : edits.Pairwise fun a b => a.stop ≤ b.start) (hc : ∀ e ∈ edits, cursor ≤ e.start)
    (he : ∀ e ∈ edits, e.start ≤ e.stop ∧ slice text e.start e.stop = e.text.toList) :
    spliceFrom cursor (text.drop cursor) edits = text.drop cursor := by
  induction edits generalizing cursor with
  | nil => rfl
  | cons e edits ih =>
    obtain ⟨ho, hos⟩ := List.pairwise_cons.1 ho
    obtain ⟨⟨hle, hs⟩, hes⟩ := List.forall_mem_cons.1 he
    have hce := hc e List.mem_cons_self
    rw [spliceFrom, List.drop_drop, Nat.add_sub_cancel' (Nat.le_trans hce hle), ih _ hos ho hes,
      ← hs, List.append_assoc, slice_append_drop text hle]
    exact slice_append_drop text hce

namespace Scanner

theorem liesIn_of_mem {s : Scanner} {content : String} {m : Match}
    (hm : m ∈ (s.scan content).found) : m.LiesIn s.names content := by
  have hbytes := (cuts_inBytes_of_mem hm).1
  obtain ⟨k, o, i, -, h, hi, rfl⟩ := exists_opener_of_mem hm
  have hstart := h.start_toMatch hi
  have hstop := h.stop_toMatch hi
  have hlt : (o.toMatch i (content.toList.drop i)).start <
      (o.toMatch i (content.toList.drop i)).stop := Nat.lt_of_le_of_lt (Nat.sub_le _ _) hstop.1
  obtain ⟨hsorted, hle⟩ := h.cuts_toMatch hi
  exact {
    name_mem := by
      obtain ⟨name, hn, he⟩ := List.mem_map.1 (List.get_mem _ k)
      rw [h.name_toMatch hi, ← he, String.ofList_toList]
      exact hn
    inner_eq_none := fun hs => by
      rw [o.inner_toMatch hi, Option.map_eq_none_iff, Option.eq_none_iff_forall_ne_some]
      intro c hc
      exact absurd (h.encloses c hc).1 (by simp [show o.selfClosing = true from hs])
    cuts_sorted := hsorted
    cuts_le := fun p hp => String.length_toList ▸ hle p hp
    cuts_inBytes := hbytes
    cuts_valid := by
      rw [hbytes, List.forall_mem_map]
      intro p _
      exact Text.Offsets.isValid_get content p
    nonempty := Text.Offsets.get_lt content hlt hstop.2
    inBounds := Text.Offsets.get_le content _
    written := by
      rw [Match.byteSpan, Text.Offsets.extract_get content (Nat.le_of_lt hlt), h.slice_toMatch hi,
        String.ofList_toList]
    attrText_eq := by
      rw [h.nameStop_toMatch hi, h.attrStop_toMatch hi, o.toMatch_drop hi,
        Text.Offsets.extract_get content o.nameEnd_le_attrEnd]
    inner_eq := fun inner hin => by
      rw [o.inner_toMatch hi] at hin
      obtain ⟨c, hc, rfl⟩ := Option.map_eq_some_iff.1 hin
      rw [h.openStop_toMatch hi, h.innerStop_toMatch hi, hc]
      exact Text.Offsets.extract_get content (h.encloses c hc).2.2.1 }

/-- Without its escape brackets a match is the piece of the text that its tag spans. -/
theorem slice_tag_of_mem {s : Scanner} {content : String} {m : Match}
    (hm : m ∈ (s.scan content).found) :
    Text.slice content.toList m.tagStart m.tagStop = m.tagText.toList := by
  obtain ⟨k, o, i, -, h, hi, rfl⟩ := exists_opener_of_mem hm
  rw [(h.start_toMatch hi).2, o.tagStop_toMatch, h.slice_tag, o.toMatch_drop hi]
  dsimp only [Match.tagText]
  rw [h.reads.slice_name]
  cases o.closer <;> simp [apply_ite String.toList]

/-- An enclosed text stands behind the opening tag. -/
theorem isPrefix_inner_of_mem {s : Scanner} {content inner : String} {m : Match}
    (hm : m ∈ (s.scan content).found) (hi : m.inner = some inner) :
    inner.toList <+: content.toList.drop m.openStop := by
  obtain ⟨k, o, i, -, h, hle, rfl⟩ := exists_opener_of_mem hm
  rw [o.inner_toMatch hle] at hi
  obtain ⟨c, -, rfl⟩ := Option.map_eq_some_iff.1 hi
  rw [h.openStop_toMatch hle, String.toList_ofList]
  exact List.take_prefix _ _

/-- For any names, repeated, empty or not fit to be registered, and with or without HTML read as
such: the positions of every opener lie inside the text, the matches are pieces of the text, each
behind the last, and the text is what stands between them and the matches as they are written. The
scan of the bytes finds the same matches and cuts no character in two. -/
theorem scan_lossless (s : Scanner) (content : String) :
    (∀ o ∈ (s.pairing content).openers.toList, o.InRange content.length) ∧
    (∀ m ∈ (s.scan content).found, m.LiesIn s.names content) ∧
    ((s.scan content).found.Pairwise fun a b =>
      (a.byteSpan (.ofText content)).2 ≤ (b.byteSpan (.ofText content)).1) ∧
    Text.splice content ((s.scan content).found.map fun m => ⟨m.start, m.stop, m.text⟩) =
      content ∧
    s.byteFound? content = some ((s.scan content).found.map (Match.inBytes content)) := by
  have hlies : ∀ m ∈ (s.scan content).found, m.LiesIn s.names content := fun m => liesIn_of_mem
  have hpair := s.pairwise_found content
  refine ⟨fun o ho => ?_, hlies, hpair.imp (Text.Offsets.get_mono content), ?_,
    s.byteFound?_eq content⟩
  · obtain ⟨k, h⟩ := fits_of_mem ho
    exact String.length_toList ▸ h.inRange
  · have written : ∀ m ∈ (s.scan content).found, m.start ≤ m.stop ∧
        Text.slice content.toList m.start m.stop = m.text.toList := by
      intro m hm
      obtain ⟨k, o, i, -, h, hi, rfl⟩ := exists_opener_of_mem hm
      exact ⟨Nat.le_trans (Nat.sub_le _ _) (Nat.le_of_lt (h.stop_toMatch hi).1), h.slice_toMatch hi⟩
    have whole := Text.spliceFrom_eq_drop 0
      (List.pairwise_map.2 hpair : ((s.scan content).found.map fun m =>
        (⟨m.start, m.stop, m.text⟩ : Text.Edit)).Pairwise _)
      (fun _ _ => Nat.zero_le _) (List.forall_mem_map.2 written)
    rw [List.drop_zero] at whole
    rw [Text.splice, whole, String.ofList_toList]

/-- Behind a tag that is hidden, with characters of two bytes in the name, the attributes and the
enclosed text: each cut falls at another byte than character, and between characters. -/
theorem scan_lossless_multibyte :
    let s : Scanner := ⟨["é"], true⟩
    let content := "ü<b [é]>[é ø]ß[/é]]"
    let m : Match := ⟨false, "é", " ø", false, some "ß", true, 8, 19⟩
    (s.scan content).found = [m] ∧ m.LiesIn s.names content ∧
      m.cuts = [8, 8, 10, 12, 13, 14, 18, 19] ∧
      s.byteFound? content = some [m.inBytes content] ∧
      (m.inBytes content).cuts = [10, 10, 13, 16, 17, 19, 24, 25] := by
  intro s content m
  have found : (s.scan content).found = [m] := by decide +kernel
  obtain ⟨-, lies, -, -, bytes⟩ := scan_lossless s content
  rw [found] at lies bytes
  exact ⟨found, lies m List.mem_cons_self, by decide, bytes, by decide +kernel⟩

end Scanner

end Shortcode
