import Shortcode.Proofs.Html.Bytes
import Shortcode.Proofs.Tag.Extent
import Shortcode.Proofs.Text.Octets

namespace Shortcode.Tag

open Text (Offsets octets)

/-- The bracket at the offset of its position in the text. -/
def Close.inBytes (content : String) (c : Close) : Close :=
  { c with pos := (Offsets.ofText content).get c.pos }

def Closer.inBytes (content : String) (c : Closer) : Closer :=
  { c with
    start := (Offsets.ofText content).get c.start
    stop := (Offsets.ofText content).get c.stop }

/-- The names keep their numbers when they are read as bytes. -/
def octetName {names : List (List Char)} (k : Fin names.length) :
    Fin (names.map octets).length := k.cast (List.length_map octets).symm

def Token.inBytes (content : String) {names : List (List Char)} :
    Token names.length → Token (names.map octets).length
  | .opener k start afterBracket =>
    .opener (octetName k) ((Offsets.ofText content).get start) afterBracket
  | .closer k start stop doubled =>
    .closer (octetName k) ((Offsets.ofText content).get start)
      ((Offsets.ofText content).get stop) doubled

section

variable {content : String} {hidden hidden' : Nat → Bool} {names : List (List Char)} {d : Char}
  {p : Nat}

theorem get_octetName (k : Fin names.length) :
    (names.map octets).get (octetName k) = octets (names.get k) := by
  simp [octetName]

theorem octetName_inj {k j : Fin names.length} : octetName k = octetName j ↔ k = j := by
  simp [octetName, Fin.ext_iff]

theorem findFinIdx?_octets {fits fits' : List Char → Bool}
    (h : ∀ name, fits' (octets name) = fits name) :
    (names.map octets).findFinIdx? fits' = (names.findFinIdx? fits).map octetName := by
  have index : (names.map octets).findIdx? fits' = names.findIdx? fits := by
    rw [List.findIdx?_map]
    congr 1
    funext name
    exact h name
  rw [List.findIdx?_eq_map_findFinIdx?_val, List.findIdx?_eq_map_findFinIdx?_val] at index
  apply Option.map_injective fun _ _ => Fin.ext
  rw [Option.map_map]
  exact index

theorem lt_of_continuesName {c : Char} (h : continuesName c = true) : c.val.toNat < 128 := by
  simp only [continuesName, Char.isAlphanum, Bool.or_eq_true, decide_eq_true_eq] at h
  obtain ((alpha | digit) | rfl) | rfl := h
  · exact Html.lt_of_isAlpha alpha
  · have h9 : c.val ≤ '9'.val := of_decide_eq_true (Bool.and_eq_true_iff.1 digit).2
    exact Nat.lt_of_le_of_lt (UInt32.le_iff_toNat_le.1 h9) (by decide)
  · decide
  · decide

theorem opens_octets (rest name : List Char) :
    opens (octets rest) (octets name) = opens rest name := by
  rw [Bool.eq_iff_iff, opens_iff, opens_iff]
  constructor
  · rintro ⟨after, hafter, hnext⟩
    obtain ⟨more, rfl⟩ := Text.isPrefix_octets_iff.1 ⟨after, hafter⟩
    rw [Text.octets_append, List.append_cancel_left_eq] at hafter
    rw [hafter, Text.any_head?_octets fun _ => lt_of_continuesName] at hnext
    exact ⟨more, rfl, hnext⟩
  · rintro ⟨after, rfl, hnext⟩
    refine ⟨octets after, (Text.octets_append name after).symm, ?_⟩
    rw [Text.any_head?_octets fun _ => lt_of_continuesName, hnext]

theorem closes_octets (tail name : List Char) :
    closes (octets tail) (octets name) = closes tail name := by
  have close : octets [']'] = [']'] := Text.octets_of_isAscii (by decide)
  rw [Bool.eq_iff_iff, closes_iff, closes_iff, ← close, ← Text.octets_append,
    Text.isPrefix_octets_iff, close]

theorem follows_get (hd : d.val.toNat < 128) (hp : p ≤ content.length) :
    follows (octets content.toList) d ((Offsets.ofText content).get p) =
      follows content.toList d p := by
  rw [Bool.eq_iff_iff, follows_iff, follows_iff]
  constructor
  · rintro ⟨hpos, h⟩
    obtain ⟨r, hr, hget, hat⟩ := Text.exists_position_of_octet hd h
    have next := Offsets.get_succ hd hat
    have same : r + 1 = p := Offsets.get_injOn hr hp (by omega)
    subst same
    exact ⟨Nat.succ_pos r, hat⟩
  · rintro ⟨hpos, h⟩
    obtain ⟨r, rfl⟩ := Nat.exists_eq_add_of_lt hpos
    rw [Nat.zero_add, Nat.add_sub_cancel] at h
    rw [Nat.zero_add, Offsets.get_succ hd h, Nat.add_sub_cancel, Text.getElem?_octets_get hd]
    exact ⟨Nat.succ_pos _, h⟩

theorem getElem?_octets_succ (hd : d.val.toNat < 128) {e : Char} (he : e.val.toNat < 128)
    (h : content.toList[p]? = some d) :
    (octets content.toList)[(Offsets.ofText content).get p + 1]? = some e ↔
      content.toList[p + 1]? = some e := by
  rw [← Offsets.get_succ hd h, Text.getElem?_octets_get he]

variable (hh : ∀ p, hidden' ((Offsets.ofText content).get p) = hidden p)

include hh

theorem shows_get (hd : d.val.toNat < 128) (p : Nat) :
    shows hidden' (octets content.toList) d ((Offsets.ofText content).get p) =
      shows hidden content.toList d p := by
  rw [Bool.eq_iff_iff, shows_iff, shows_iff, Text.getElem?_octets_get hd, hh]

theorem closeAt_get (p : Nat) :
    closeAt hidden' (octets content.toList) ((Offsets.ofText content).get p) =
      (closeAt hidden content.toList p).map (Close.inBytes content) := by
  rw [closeAt, closeAt, shows_get hh (by decide)]
  split
  · next hs =>
    have hb := (shows_iff.1 hs).1
    have hle := Nat.le_of_lt (List.getElem?_eq_some_iff.1 hb).1
    rw [String.length_toList] at hle
    have before := follows_get (d := '/') (by decide) hle
    have behind := getElem?_octets_succ (by decide) (e := ']') (by decide) hb
    simp only [Option.map_some, Close.inBytes, before, behind]
  · rfl

theorem closesOf_octets :
    closesOf hidden' (octets content.toList) =
      (closesOf hidden content.toList).map (Close.inBytes content) := by
  have inside : ∀ q r, closeAt hidden' (octets content.toList) q = some r →
      ∃ p < content.length, (Offsets.ofText content).get p = q := by
    intro q r hr
    have hs := (closeAt_eq_some_iff.1 hr).2.1
    obtain ⟨p, hp, hq, -⟩ := Text.exists_position_of_octet (by decide) (shows_iff.1 hs).1
    exact ⟨p, hp, hq⟩
  rw [closesOf, closesOf, Text.length_octets, Text.byteLength_toList,
    Text.filterMap_range_get inside, List.map_filterMap, String.length_toList]
  simp only [closeAt_get hh]

omit hh in
/-- The name behind a `[` ends in the text, and takes its own bytes. -/
theorem get_opener {name : List Char} (hb : content.toList[p]? = some '[')
    (ho : opens (content.toList.drop (p + 1)) name = true) :
    p + 1 + name.length ≤ content.length ∧
      (Offsets.ofText content).get (p + 1 + name.length) =
        (Offsets.ofText content).get p + 1 + (octets name).length := by
  have stands := isPrefix_of_opens ho
  refine ⟨?_, ?_⟩
  · have hlt := (List.getElem?_eq_some_iff.1 hb).1
    have hle := stands.length_le
    rw [List.length_drop] at hle
    rw [String.length_toList] at hlt hle
    omega
  · rw [← Offsets.get_add_slice content (Nat.le_add_right (p + 1) _),
      Text.slice_of_isPrefix stands rfl, Offsets.get_succ (by decide) hb, Text.length_octets]

omit hh in
/-- A closing tag has three characters more than its name, and as many bytes. -/
theorem get_closer {name : List Char} (hb : content.toList[p]? = some '[')
    (hs : content.toList[p + 1]? = some '/')
    (hc : closes (content.toList.drop (p + 2)) name = true) :
    (Offsets.ofText content).get (p + name.length + 3) =
      (Offsets.ofText content).get p + (octets name).length + 3 := by
  have stands := closes_iff.1 hc
  have close : content.toList[p + 2 + name.length]? = some ']' := by
    rw [Text.getElem?_of_isPrefix_drop stands (by simp), List.getElem?_concat_length]
  have tag : Text.slice content.toList (p + 2) (p + 2 + name.length) = name :=
    Text.slice_of_isPrefix ((List.prefix_append _ _).trans stands) rfl
  have hend : p + name.length + 3 = p + 2 + name.length + 1 := by omega
  rw [hend, Offsets.get_succ (by decide) close,
    ← Offsets.get_add_slice content (Nat.le_add_right _ _), tag,
    Offsets.get_succ (by decide) hs, Offsets.get_succ (by decide) hb, Text.length_octets]
  omega

theorem tokenAt_get (p : Nat) :
    tokenAt hidden' (names.map octets) (octets content.toList) ((Offsets.ofText content).get p) =
      (tokenAt hidden names content.toList p).map (Token.inBytes content) := by
  have shown := shows_get hh (d := '[') (by decide) p
  by_cases hb : shows hidden content.toList '[' p = true
  swap
  · rw [tokenAt, tokenAt, shown, if_neg hb, if_neg hb, Option.map_none]
  rw [hb] at shown
  have bracket := (shows_iff.1 hb).1
  have slash := getElem?_octets_succ (e := '/') (by decide) (by decide) bracket
  by_cases hs : content.toList[p + 1]? = some '/'
  · have next : (Offsets.ofText content).get (p + 2) = (Offsets.ofText content).get p + 2 := by
      rw [Offsets.get_succ (by decide) hs, Offsets.get_succ (by decide) bracket]
    rw [tokenAt_of_slash hb hs, tokenAt_of_slash shown (slash.2 hs),
      ← next, Text.drop_octets_get,
      findFinIdx?_octets (closes_octets _), Option.map_map, Option.map_map]
    apply Option.map_congr
    intro k hk
    have stop := get_closer bracket hs (get_of_findFinIdx? hk)
    simp only [Function.comp, Token.inBytes, get_octetName, ← stop,
      Text.getElem?_octets_get (d := ']') (by decide)]
  · have hle := Nat.le_of_lt (List.getElem?_eq_some_iff.1 bracket).1
    rw [String.length_toList] at hle
    rw [tokenAt_of_not_slash hb hs, tokenAt_of_not_slash shown (mt slash.1 hs),
      follows_get (by decide) hle, ← Offsets.get_succ (by decide) bracket, Text.drop_octets_get,
      findFinIdx?_octets (opens_octets _), Option.map_map, Option.map_map]
    rfl

theorem tokensOf_octets :
    tokensOf hidden' (names.map octets) (octets content.toList) =
      (tokensOf hidden names content.toList).map (Token.inBytes content) := by
  have inside : ∀ q r, tokenAt hidden' (names.map octets) (octets content.toList) q = some r →
      ∃ p < content.length, (Offsets.ofText content).get p = q := by
    intro q r hr
    have hs := shows_iff.1 (shows_of_tokenAt hr)
    obtain ⟨p, hp, hq, -⟩ := Text.exists_position_of_octet (by decide) hs.1
    exact ⟨p, hp, hq⟩
  rw [tokensOf, tokensOf, Text.length_octets, Text.byteLength_toList,
    Text.filterMap_range_get inside, List.map_filterMap, String.length_toList]
  simp only [tokenAt_get hh]

end

end Shortcode.Tag
