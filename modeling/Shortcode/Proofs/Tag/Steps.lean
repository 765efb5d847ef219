import Mathlib.Data.List.Basic
import Shortcode.Proofs.Tag.Lane
import Shortcode.Proofs.Text.Ascii
import Shortcode.Tag.Scan

namespace Shortcode

namespace Text

/-- How often a byte occurs in the UTF-8 form of a text. -/
def countByte (b : UInt8) (content : String) : Nat := content.toUTF8.data.toList.count b

theorem countByte_eq (content : String) (d : Char) (hd : d.val.toNat < 128) :
    countByte (UInt8.ofNat d.val.toNat) content = content.toList.count d := by
  rw [countByte, String.toUTF8_eq_toByteArray, ← String.utf8Encode_toList, List.utf8Encode,
    List.data_toByteArray]
  induction content.toList with
  | nil => rfl
  | cons c text ih =>
    rw [List.flatMap_cons, List.count_append, count_utf8EncodeChar c d hd, ih, List.count_cons,
      Nat.add_comm]
    simp only [beq_iff_eq]

theorem count_add_count_le {c d : Char} (h : c ≠ d) (content : String) :
    content.toList.count c + content.toList.count d ≤ content.utf8ByteSize := by
  rw [← byteLength_toList]
  induction content.toList with
  | nil => exact Nat.le_refl 0
  | cons a text ih =>
    have hpos := Char.utf8Size_pos a
    have once : (if a = c then 1 else 0) + (if a = d then 1 else 0) ≤ 1 := by
      by_cases hc : a = c
      · exact Nat.le_of_eq (by rw [if_pos hc, if_neg (hc ▸ h)])
      · rw [if_neg hc, Nat.zero_add]
        split <;> omega
    rw [byteLength] at ih ⊢
    rw [List.foldr_cons, List.count_cons, List.count_cons]
    simp only [beq_iff_eq]
    omega

end Text

namespace Tag

theorem comparisons_readTag_le (names : List (List Char)) (start : Nat) (afterBracket : Bool)
    (rest : List Char) : (readTag names start afterBracket rest).comparisons ≤ names.length := by
  rw [readTag.eq_def]
  split <;> exact tried_le _

theorem length_readingsFrom (names : List (List Char)) (cursor : Html.SpanCursor) (i : Nat)
    (afterBracket : Bool) (text : List Char) :
    (readingsFrom names cursor i afterBracket text).length = text.count '[' := by
  induction text generalizing cursor i afterBracket with
  | nil => rfl
  | cons c rest ih =>
    rw [readingsFrom]
    split
    · next hc => rw [hc, List.length_cons, ih, List.count_cons_self]
    · next hc => rw [ih, List.count_cons_of_ne hc]

theorem comparisons_le (names : List (List Char)) (cursor : Html.SpanCursor) (i : Nat)
    (afterBracket : Bool) (text : List Char) :
    ∀ r ∈ readingsFrom names cursor i afterBracket text, r.comparisons ≤ names.length := by
  induction text generalizing cursor i afterBracket with
  | nil => exact nofun
  | cons c rest ih =>
    rw [readingsFrom]
    split
    · refine List.forall_mem_cons.2 ⟨?_, ih _ _ _⟩
      split
      · exact Nat.zero_le _
      · exact comparisons_readTag_le names i afterBracket rest
    · exact ih _ _ _

theorem length_closesFrom_le (cursor : Html.SpanCursor) (i : Nat) (afterSlash : Bool)
    (text : List Char) : (closesFrom cursor i afterSlash text).length ≤ text.count ']' := by
  induction text generalizing cursor i afterSlash with
  | nil => exact Nat.le_refl 0
  | cons c rest ih =>
    rw [closesFrom]
    split
    · next hc =>
      rw [hc, List.count_cons_self]
      dsimp only
      split
      · exact Nat.le_succ_of_le (ih ..)
      · exact Nat.succ_le_succ (ih ..)
    · next hc =>
      rw [List.count_cons_of_ne hc]
      exact ih ..

theorem foldr_comparisons_add {n : Nat} (readings : List (Reading n)) (init more : Nat) :
    readings.foldr (fun r steps => r.comparisons + 1 + steps) (more + init) =
      more + readings.foldr (fun r steps => r.comparisons + 1 + steps) init := by
  induction readings with
  | nil => rfl
  | cons r readings ih =>
    rw [List.foldr_cons, List.foldr_cons, ih, Nat.add_left_comm]

theorem foldr_comparisons_le {n : Nat} {readings : List (Reading n)}
    (h : ∀ r ∈ readings, r.comparisons ≤ n) (init : Nat) :
    readings.foldr (fun r steps => r.comparisons + 1 + steps) init ≤
      readings.length * (n + 1) + init := by
  induction readings with
  | nil => exact Nat.le_add_left ..
  | cons r readings ih =>
    obtain ⟨hr, hrs⟩ := List.forall_mem_cons.1 h
    have := ih hrs
    rw [List.foldr_cons, List.length_cons, Nat.succ_mul]
    omega

variable {names : List (List Char)} (s : Pairing names.length)

/-- The `]` that the pass goes by while it takes in a token: those in front of the end of a name. -/
def Pairing.moves : Token names.length → Nat
  | .closer .. => 0
  | .opener k start _ =>
    if start < (s.lane k).guard then 0
    else (s.closes.takeWhile (·.pos < start + 1 + (names.get k).length)).length

/-- The work of the pass from a state on, counted as it is done: each bracket, each name that is
tried for it, and each `]` gone by. -/
def Pairing.work (s : Pairing names.length) : List (Reading names.length) → Nat
  | [] => 0
  | r :: readings =>
    match r.token with
    | some t => 1 + r.comparisons + s.moves t + work (s.step names t) readings
    | none => 1 + r.comparisons + work s readings

/-- What a token passes is no longer ahead. -/
theorem Pairing.moves_add_length (t : Token names.length) :
    s.moves t + (s.step names t).closes.length = s.closes.length := by
  cases t with
  | closer k start stop doubled =>
    rw [moves, step, Nat.zero_add]
    split
    · rfl
    · rw [closes_closeTag]
  | opener k start afterBracket =>
    rw [moves, step]
    split
    · exact Nat.zero_add _
    · have whole := congrArg List.length
        (List.takeWhile_append_dropWhile (p := (·.pos < start + 1 + (names.get k).length))
          (l := s.closes))
      rw [List.length_append] at whole
      have left := (nextClose_eq (start + 1 + (names.get k).length) s.closes).1
      dsimp only
      split
      · next hn =>
        rw [← left, hn] at whole
        exact whole
      · next hn =>
        rw [← left, hn] at whole
        exact whole

theorem Pairing.length_closes_foldl_le (tokens : List (Token names.length)) :
    (tokens.foldl (step names) s).closes.length ≤ s.closes.length := by
  induction tokens generalizing s with
  | nil => exact Nat.le_refl _
  | cons t tokens ih =>
    have := s.moves_add_length t
    have := ih (s.step names t)
    rw [List.foldl_cons]
    omega

theorem Pairing.size_step_le (t : Token names.length) :
    (s.step names t).openers.size ≤ s.openers.size + 1 := by
  cases t with
  | closer k start stop doubled =>
    rw [step]
    split
    · exact Nat.le_succ _
    · rw [size_closeTag]
      exact Nat.le_succ _
  | opener k start afterBracket =>
    rw [step]
    split
    · exact Nat.le_succ _
    · dsimp only
      split
      · exact Nat.le_succ _
      · exact Nat.le_of_eq (size_openTag ..)

theorem Pairing.size_foldl_le (tokens : List (Token names.length)) :
    (tokens.foldl (step names) s).openers.size ≤ s.openers.size + tokens.length := by
  induction tokens generalizing s with
  | nil => exact Nat.le_refl _
  | cons t tokens ih =>
    have := s.size_step_le t
    have := ih (s.step names t)
    rw [List.foldl_cons, List.length_cons]
    omega

/-- The work and what is still ahead at the end come to what the brackets cost by themselves and
what was ahead at the start. -/
theorem Pairing.work_add_length (readings : List (Reading names.length)) :
    s.work readings + ((readings.filterMap (·.token)).foldl (step names) s).closes.length =
      readings.foldr (fun r steps => r.comparisons + 1 + steps) s.closes.length := by
  induction readings generalizing s with
  | nil => exact Nat.zero_add _
  | cons r readings ih =>
    rw [work, List.filterMap_cons, List.foldr_cons]
    cases r.token with
    | none =>
      have := ih s
      dsimp only
      omega
    | some t =>
      have := ih (s.step names t)
      have := foldr_comparisons_add readings (s.step names t).closes.length (s.moves t)
      rw [s.moves_add_length t] at this
      rw [List.foldl_cons]
      dsimp only
      omega

/-- Every `[` costs a step and those for the names, and every `]` that is ahead at most one. -/
theorem Pairing.work_le {readings : List (Reading names.length)}
    (h : ∀ r ∈ readings, r.comparisons ≤ names.length) :
    s.work readings ≤ readings.length * (names.length + 1) + s.closes.length := by
  have whole := foldr_comparisons_le h s.closes.length
  rw [← s.work_add_length] at whole
  exact Nat.le_of_add_right_le whole

end Tag

namespace Scanner

/-- The work on the brackets of a text. With no names, or no `[`, they are not looked at. -/
def lexWork (s : Scanner) (content : String) : Nat :=
  if s.names.isEmpty || !content.toList.contains '[' then 0
  else
    (Tag.Pairing.start (s.names.map String.toList).length
      (Tag.closesFrom (s.shield content.toList) 0 false content.toList)).work
      (Tag.readingsFrom (s.names.map String.toList) (s.shield content.toList) 0 false
        content.toList)

theorem lexSteps_eq (s : Scanner) (content : String) :
    (s.scan content).lexSteps = s.lexWork content := by
  rw [scan, lexWork]
  split
  · rfl
  · dsimp only
    generalize Tag.readingsFrom (s.names.map String.toList) _ _ _ _ = readings
    generalize Tag.closesFrom _ _ _ _ = closes
    have spent := (Tag.Pairing.start _ closes).work_add_length readings
    have left : _ ≤ closes.length := (Tag.Pairing.start _ closes).length_closes_foldl_le
      (readings.filterMap (·.token))
    change _ = readings.foldr _ closes.length at spent
    rw [← Nat.add_sub_of_le left, Tag.foldr_comparisons_add] at spent
    rw [Tag.Pairing.run]
    omega

theorem lexWork_le (s : Scanner) (content : String) :
    s.lexWork content ≤
      content.toList.count '[' * (s.names.length + 1) + content.toList.count ']' := by
  rw [lexWork]
  split
  · exact Nat.zero_le _
  · refine Nat.le_trans (Tag.Pairing.work_le _ (Tag.comparisons_le _ _ _ _ _)) ?_
    rw [Tag.length_readingsFrom, List.length_map]
    exact Nat.add_le_add_left (Tag.length_closesFrom_le ..) _

theorem matchSteps_le (s : Scanner) (content : String) :
    (s.scan content).matchSteps ≤ content.toList.count '[' := by
  rw [scan]
  split
  · exact Nat.zero_le _
  · dsimp only
    rw [← Tag.length_readingsFrom (s.names.map String.toList) (s.shield content.toList) 0 false]
    refine Nat.le_trans (Tag.Pairing.size_foldl_le _ _) ?_
    rw [Tag.Pairing.start, List.size_toArray, List.length_nil, Nat.zero_add]
    exact List.length_filterMap_le ..

/-- The steps that are reported for the brackets are those that are done one by one. They are linear
in the brackets of the text, and so are all steps of the scan, for any names. -/
theorem scan_linear (s : Scanner) (content : String) :
    (s.scan content).lexSteps = s.lexWork content ∧
    (s.scan content).lexSteps ≤
      Text.countByte 0x5b content * (s.names.length + 1) + Text.countByte 0x5d content ∧
    (s.scan content).steps ≤
      Text.countByte 0x5b content * (s.names.length + 2) + Text.countByte 0x5d content ∧
    (s.scan content).steps ≤ (s.names.length + 2) * content.utf8ByteSize := by
  have opens : Text.countByte 0x5b content = content.toList.count '[' :=
    Text.countByte_eq content '[' (by decide)
  have closes : Text.countByte 0x5d content = content.toList.count ']' :=
    Text.countByte_eq content ']' (by decide)
  have lexed := s.lexWork_le content
  have matched := s.matchSteps_le content
  have size := Text.count_add_count_le (show '[' ≠ ']' by decide) content
  have all : (s.scan content).steps ≤
      content.toList.count '[' * (s.names.length + 2) + content.toList.count ']' := by
    rw [Scan.steps, lexSteps_eq, show s.names.length + 2 = s.names.length + 1 + 1 from rfl,
      Nat.mul_succ]
    omega
  rw [opens, closes, lexSteps_eq]
  refine ⟨rfl, lexed, all, ?_⟩
  calc (s.scan content).steps
      ≤ content.toList.count '[' * (s.names.length + 2) + content.toList.count ']' := all
    _ ≤ (s.names.length + 2) * (content.toList.count '[' + content.toList.count ']') := by
      rw [Nat.mul_add (s.names.length + 2), Nat.mul_comm (content.toList.count '[')]
      exact Nat.add_le_add_left (Nat.le_mul_of_pos_left _ (Nat.succ_pos _)) _
    _ ≤ (s.names.length + 2) * content.utf8ByteSize := Nat.mul_le_mul_left _ size

end Scanner

end Shortcode
