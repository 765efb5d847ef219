import Mathlib.Data.List.Infix
import Shortcode.Config.Load

namespace Shortcode

namespace Reference

variable {env : Environment} {name inside rest : List Char} {c digit : Char}

theorem parts_plain (hc : c ≠ '$') (rest : List Char) :
    parts (c :: rest) = .plain c :: parts rest := by
  rw [parts, if_neg hc]

theorem parts_readDollar (rest : List Char) :
    parts ('$' :: rest) = (readDollar rest).1 :: parts (readDollar rest).2 := by
  rw [parts, if_pos rfl]

theorem parts_dollar (rest : List Char) : parts ('$' :: '$' :: rest) = .dollar :: parts rest :=
  parts_readDollar ('$' :: rest)

theorem isNameChar_of_isDigit (h : digit.isDigit = true) : isNameChar digit = true := by
  simp [isNameChar, Text.isAlphanumeric, Char.isAlphanum, h]

theorem parts_numeral (h : digit.isDigit = true) (rest : List Char) :
    parts ('$' :: digit :: rest) =
      .bare (digit :: rest.takeWhile isNameChar) :: parts (rest.dropWhile isNameChar) := by
  have hd : digit ≠ '$' := by
    intro heq
    rw [heq] at h
    exact absurd h (by decide)
  have hb : digit ≠ '\x7b' := by
    intro heq
    rw [heq] at h
    exact absurd h (by decide)
  rw [parts_readDollar, readDollar.eq_def]
  simp [hd, hb, isNameChar_of_isDigit h]

theorem idxOf?_append_cons (h : c ∉ inside) (rest : List Char) :
    (inside ++ c :: rest).idxOf? c = some inside.length := by
  induction inside with
  | nil => simp [List.idxOf?_cons]
  | cons a inside ih =>
    obtain ⟨ha, h⟩ := not_or.1 (List.mem_cons.not.1 h)
    simp [List.idxOf?_cons, Ne.symm ha, ih h]

theorem parts_braced (h : '\x7d' ∉ inside) (rest : List Char) :
    parts ('$' :: '\x7b' :: (inside ++ '\x7d' :: rest)) = readBraced inside :: parts rest := by
  rw [parts_readDollar, readDollar]
  simp [idxOf?_append_cons h]

/-- A name between braces: there is one, it is not led by a digit, and nothing in it ends it. -/
structure IsName (name : List Char) : Prop where
  ne_nil : name ≠ []
  not_numeral : ∀ c ∈ name.head?, c.isDigit = false
  closed : '\x7d' ∉ name
  undivided : ¬ [':', '-'] <:+: name

theorem isNumeral_eq_false_iff :
    isNumeral name = false ↔ ∀ c ∈ name.head?, c.isDigit = false := by
  rw [isNumeral, Option.any_eq_false]
  simp

instance (name : List Char) : Decidable (IsName name) :=
  decidable_of_iff (name ≠ [] ∧ isNumeral name = false ∧ '\x7d' ∉ name ∧ ¬ [':', '-'] <:+: name)
    ⟨fun h => ⟨h.1, isNumeral_eq_false_iff.1 h.2.1, h.2.2.1, h.2.2.2⟩,
      fun h => ⟨h.ne_nil, isNumeral_eq_false_iff.2 h.not_numeral, h.closed, h.undivided⟩⟩

theorem readBraced_name (h : IsName name) : readBraced name = .braced name none := by
  have none : Text.indexOf? [':', '-'] name = none := by
    cases hk : Text.indexOf? [':', '-'] name with
    | none => rfl
    | some k => exact absurd ⟨_, _, (Text.eq_of_indexOf? hk).symm⟩ h.undivided
  rw [readBraced, none]

/-- The first `:-` is the one behind the name, also if the name ends with a `:`. -/
theorem indexOf?_divider (h : ¬ [':', '-'] <:+: name) (fallback : List Char) :
    Text.indexOf? [':', '-'] (name ++ ':' :: '-' :: fallback) = some name.length := by
  induction name with
  | nil => simp [Text.indexOf?]
  | cons c name ih =>
    have later := ih fun hi => h (hi.trans (List.infix_cons List.infix_rfl))
    have first : ¬ [':', '-'] <+: c :: (name ++ ':' :: '-' :: fallback) := by
      intro hp
      cases name with
      | nil => simp at hp
      | cons d name =>
        apply h
        obtain ⟨hc, hp⟩ := List.cons_prefix_cons.1 hp
        obtain ⟨hd, -⟩ := List.cons_prefix_cons.1 hp
        rw [← hc, ← hd]
        exact ⟨[], name, rfl⟩
    rw [List.cons_append, Text.indexOf?, if_neg (mt List.isPrefixOf_iff_prefix.1 first), later]
    rfl

theorem readBraced_fallback (h : IsName name) (fallback : List Char) :
    readBraced (name ++ ':' :: '-' :: fallback) = .braced name (some fallback) := by
  obtain ⟨k, hk⟩ := Nat.exists_eq_add_one_of_ne_zero (mt List.eq_nil_of_length_eq_zero h.ne_nil)
  have found := indexOf?_divider h.undivided fallback
  rw [hk] at found
  rw [readBraced, found]
  have front : (name ++ ':' :: '-' :: fallback).take (k + 1) = name := List.take_left' hk
  have back : (name ++ ':' :: '-' :: fallback).drop (k + 3) = fallback := by
    rw [← List.drop_drop (i := 2) (j := k + 1), List.drop_left' hk]
    rfl
  exact congrArg₂ (fun name fallback => Part.braced name (some fallback)) front back

/-- A segment of a text: one without `$`, a `$` in front of a digit with text behind it, a doubled
`$`, or a reference in braces without a default or with one. -/
inductive Segment where
  | literal (text : List Char)
  | numeral (digit : Char) (text : List Char)
  | dollar
  | required (name : List Char)
  | optional (name fallback : List Char)

/-- The segment as it is written. -/
def Segment.text : Segment → List Char
  | .literal text => text
  | .numeral digit text => '$' :: digit :: text
  | .dollar => ['$', '$']
  | .required name => '$' :: '\x7b' :: (name ++ ['\x7d'])
  | .optional name fallback => '$' :: '\x7b' :: (name ++ ':' :: '-' :: fallback ++ ['\x7d'])

def Segment.Formed : Segment → Prop
  | .literal text => '$' ∉ text
  | .numeral digit text => digit.isDigit = true ∧ '$' ∉ text
  | .dollar => True
  | .required name => IsName name
  | .optional name fallback => IsName name ∧ '\x7d' ∉ fallback

instance : (s : Segment) → Decidable s.Formed
  | .literal text => inferInstanceAs (Decidable ('$' ∉ text))
  | .numeral digit text => inferInstanceAs (Decidable (digit.isDigit = true ∧ '$' ∉ text))
  | .dollar => inferInstanceAs (Decidable True)
  | .required name => inferInstanceAs (Decidable (IsName name))
  | .optional name fallback => inferInstanceAs (Decidable (IsName name ∧ '\x7d' ∉ fallback))

/-- What a segment stands for, unless it needs a variable that cannot be had. -/
def Segment.expand (env : Environment) : Segment → Except Missing (List Char)
  | .literal text => .ok text
  | .numeral digit text => .ok ('$' :: digit :: text)
  | .dollar => .ok ['$']
  | .required name =>
    match env.lookup (String.ofList name) with
    | .value s => .ok s.toList
    | .unset => .error ⟨String.ofList name, false⟩
    | .notUtf8 => .error ⟨String.ofList name, true⟩
  | .optional name fallback =>
    match env.lookup (String.ofList name) with
    | .value s => .ok s.toList
    | _ => .ok fallback

theorem resolve_numeral (h : isNumeral name = true) (written : List Char)
    (fallback : Option (List Char)) :
    resolve env name written fallback = .ok (fallback.getD written) := if_pos h

theorem resolve_name (h : IsName name) (written : List Char) (fallback : Option (List Char)) :
    resolve env name written fallback =
      match env.lookup (String.ofList name), fallback with
      | .value s, _ => .ok s.toList
      | _, some fallback => .ok fallback
      | .unset, none => .error ⟨String.ofList name, false⟩
      | .notUtf8, none => .error ⟨String.ofList name, true⟩ :=
  if_neg (Bool.eq_false_iff.1 (isNumeral_eq_false_iff.2 h.not_numeral))

/-- What a text is expanded to, or the first reference in it that cannot be replaced. -/
def expandText (env : Environment) (text : List Char) : Except Missing (List Char) := do
  let pieces ← (parts text).mapM (Part.expand env)
  return pieces.flatten

theorem expand_eq (env : Environment) (text : String) :
    env.expand text = String.ofList <$> expandText env text.toList := by
  rw [Environment.expand, expandText]
  cases (parts text.toList).mapM (Part.expand env) <;> rfl

theorem expandText_nil (env : Environment) : expandText env [] = .ok [] := by
  rw [expandText, parts]
  rfl

/-- Texts that are expanded one behind the other. -/
def andThen (first after : Except Missing (List Char)) : Except Missing (List Char) := do
  return (← first) ++ (← after)

theorem andThen_assoc (a b c : Except Missing (List Char)) :
    andThen (andThen a b) c = andThen a (andThen b c) := by
  cases a <;> cases b <;> cases c <;> simp [andThen, bind, Except.bind, pure, Except.pure]

theorem expandText_of_parts {text : List Char} {p : Part} (h : parts text = p :: parts rest) :
    expandText env text = andThen (p.expand env) (expandText env rest) := by
  rw [expandText, h, List.mapM_cons, expandText]
  cases p.expand env with
  | error => rfl
  | ok => cases (parts rest).mapM (Part.expand env) <;> rfl

theorem expandText_literal {text : List Char} (h : '$' ∉ text) (rest : List Char) :
    expandText env (text ++ rest) = andThen (.ok text) (expandText env rest) := by
  induction text with
  | nil => cases h : expandText env rest <;> exact h
  | cons c text ih =>
    obtain ⟨hc, h⟩ := not_or.1 (List.mem_cons.not.1 h)
    rw [List.cons_append, expandText_of_parts (parts_plain (Ne.symm hc) _), ih h, ← andThen_assoc]
    rfl

theorem dollar_notMem_takeWhile (text : List Char) : '$' ∉ text.takeWhile isNameChar := by
  intro h
  have hn := List.all_eq_true.1 List.all_takeWhile '$' h
  exact absurd hn (by decide)

/-- The name behind a `$` can go on past the segment, but nothing is put in its place. -/
theorem expandText_numeral (h : digit.isDigit = true) (rest : List Char) :
    expandText env ('$' :: digit :: rest) =
      andThen (.ok ['$', digit]) (expandText env rest) := by
  have numeral : isNumeral (digit :: rest.takeWhile isNameChar) = true := h
  have verbatim : (Part.bare (digit :: rest.takeWhile isNameChar)).expand env =
      .ok ('$' :: digit :: rest.takeWhile isNameChar) := resolve_numeral numeral _ none
  have parted : expandText env rest = andThen (.ok (rest.takeWhile isNameChar))
      (expandText env (rest.dropWhile isNameChar)) := by
    rw [← expandText_literal (dollar_notMem_takeWhile rest), List.takeWhile_append_dropWhile]
  rw [expandText_of_parts (parts_numeral h rest), verbatim, parted, ← andThen_assoc]
  rfl

theorem expandText_segment {s : Segment} (h : s.Formed) (rest : List Char) :
    expandText env (s.text ++ rest) = andThen (s.expand env) (expandText env rest) := by
  cases s with
  | literal text => exact expandText_literal h rest
  | numeral digit text =>
    obtain ⟨hd, h⟩ := h
    change expandText env ('$' :: digit :: (text ++ rest)) = _
    rw [expandText_numeral hd, expandText_literal h, ← andThen_assoc]
    rfl
  | dollar => exact expandText_of_parts (parts_dollar rest)
  | required name =>
    have split := parts_braced h.closed rest
    rw [readBraced_name h] at split
    have replaced : (Part.braced name none).expand env = (Segment.required name).expand env := by
      rw [Part.expand, resolve_name h, Segment.expand]
      cases env.lookup (String.ofList name) <;> rfl
    rw [Segment.text, List.cons_append, List.cons_append, List.append_assoc, List.singleton_append,
      expandText_of_parts split, replaced]
  | optional name fallback =>
    obtain ⟨h, hf⟩ := h
    have inside : '\x7d' ∉ name ++ ':' :: '-' :: fallback := by
      simp [h.closed, hf]
    have split := parts_braced inside rest
    rw [readBraced_fallback h] at split
    have replaced : (Part.braced name (some fallback)).expand env =
        (Segment.optional name fallback).expand env := by
      rw [Part.expand, resolve_name h, Segment.expand]
      cases env.lookup (String.ofList name) <;> rfl
    rw [Segment.text, List.cons_append, List.cons_append, List.append_assoc, List.singleton_append,
      expandText_of_parts split, replaced]

/-- A text is expanded segment by segment. -/
theorem expandText_segments {segments : List Segment} (h : ∀ s ∈ segments, s.Formed) :
    expandText env (segments.flatMap Segment.text) =
      List.flatten <$> segments.mapM (Segment.expand env) := by
  induction segments with
  | nil => exact expandText_nil env
  | cons s segments ih =>
    obtain ⟨hs, h⟩ := List.forall_mem_cons.1 h
    rw [List.flatMap_cons, expandText_segment hs, ih h, List.mapM_cons]
    cases s.expand env with
    | error => rfl
    | ok => cases segments.mapM (Segment.expand env) <;> rfl

theorem mapM_ok {α β ε : Type} {f : α → Except ε β} {g : α → β} {l : List α}
    (h : ∀ a ∈ l, f a = .ok (g a)) : l.mapM f = .ok (l.map g) := by
  induction l with
  | nil => rfl
  | cons a l ih =>
    obtain ⟨ha, h⟩ := List.forall_mem_cons.1 h
    rw [List.mapM_cons, ha, ih h]
    rfl

/-- The variable has a value that is text. -/
def IsSet (env : Environment) (name : List Char) : Prop :=
  ∃ s, env.lookup (String.ofList name) = .value s

/-- The value of a variable, or a text in its place. -/
def valueOr (env : Environment) (name fallback : List Char) : List Char :=
  match env.lookup (String.ofList name) with
  | .value s => s.toList
  | _ => fallback

/-- What a segment is replaced by, if the variable has a value that it needs. -/
def Segment.replacement (env : Environment) : Segment → List Char
  | .literal text => text
  | .numeral digit text => '$' :: digit :: text
  | .dollar => ['$']
  | .required name => valueOr env name []
  | .optional name fallback => valueOr env name fallback

theorem Segment.expand_eq_ok {s : Segment} (h : ∀ name, s = .required name → IsSet env name) :
    s.expand env = .ok (s.replacement env) := by
  cases s with
  | literal text => rfl
  | numeral digit text => rfl
  | dollar => rfl
  | required name =>
    obtain ⟨value, hv⟩ := h name rfl
    rw [Segment.expand, Segment.replacement, valueOr, hv]
  | optional name fallback =>
    rw [Segment.expand, Segment.replacement, valueOr]
    cases env.lookup (String.ofList name) <;> rfl

theorem mapM_expand_eq_ok {segments : List Segment}
    (h : ∀ name, .required name ∈ segments → IsSet env name) :
    segments.mapM (Segment.expand env) = .ok (segments.map (Segment.replacement env)) := by
  apply mapM_ok
  intro s hs
  apply Segment.expand_eq_ok
  intro name heq
  exact h name (heq ▸ hs)

theorem mapM_expand_eq_error {before after : List Segment} {s : Segment} {reference : Missing}
    (h : ∀ name, .required name ∈ before → IsSet env name) (hs : s.expand env = .error reference) :
    (before ++ s :: after).mapM (Segment.expand env) = .error reference := by
  rw [List.mapM_append, mapM_expand_eq_ok h, List.mapM_cons, hs]
  rfl

/-- Where a variable that is needed is missing, there is a first one in the text. -/
theorem exists_first_missing {segments : List Segment}
    (h : ∃ name, .required name ∈ segments ∧ ¬ IsSet env name) :
    ∃ before name after, segments = before ++ .required name :: after ∧
      (∀ earlier, .required earlier ∈ before → IsSet env earlier) ∧ ¬ IsSet env name := by
  induction segments with
  | nil =>
    obtain ⟨name, hname, -⟩ := h
    cases hname
  | cons s segments ih =>
    by_cases hs : ∃ name, s = .required name ∧ ¬ IsSet env name
    · obtain ⟨name, rfl, missing⟩ := hs
      exact ⟨[], name, segments, rfl, fun earlier he => absurd he List.not_mem_nil, missing⟩
    · obtain ⟨name, hname, missing⟩ := h
      have later : .required name ∈ segments := by
        cases List.mem_cons.1 hname with
        | inl first => exact absurd ⟨name, first.symm, missing⟩ hs
        | inr later => exact later
      obtain ⟨before, name, after, rfl, set, missing⟩ := ih ⟨name, later, missing⟩
      refine ⟨s :: before, name, after, rfl, fun earlier he => ?_, missing⟩
      by_contra unset
      cases List.mem_cons.1 he with
      | inl first => exact hs ⟨earlier, first.symm, unset⟩
      | inr mem => exact unset (set earlier mem)

/-- The text with each `$` written twice. -/
def doubled (text : List Char) : List Char :=
  text.flatMap fun c => if c = '$' then ['$', '$'] else [c]

/-- The variables that are looked up for a part. -/
def Part.consults : Part → List String
  | .bare name => if isNumeral name then [] else [String.ofList name]
  | .braced name _ => if isNumeral name then [] else [String.ofList name]
  | _ => []

def consulted (text : List Char) : List String := (parts text).flatMap Part.consults

theorem resolve_congr {other : Environment} (written : List Char) (fallback : Option (List Char))
    (same : ∀ n ∈ if isNumeral name then [] else [String.ofList name],
      env.lookup n = other.lookup n) :
    resolve env name written fallback = resolve other name written fallback := by
  rw [resolve.eq_def, resolve.eq_def]
  split
  · rfl
  · next h =>
    rw [if_neg h] at same
    rw [same _ List.mem_cons_self]

/-- Nothing else of an environment counts than the variables that are consulted. -/
theorem expandText_congr {other : Environment} {text : List Char}
    (same : ∀ name ∈ consulted text, env.lookup name = other.lookup name) :
    expandText env text = expandText other text := by
  have each : ∀ p ∈ parts text, p.expand env = p.expand other := by
    intro p hp
    have looked : ∀ name ∈ p.consults, env.lookup name = other.lookup name :=
      fun name hn => same name (List.mem_flatMap.2 ⟨p, hp, hn⟩)
    cases p with
    | plain c => rfl
    | dollar => rfl
    | bare name => exact resolve_congr _ none looked
    | braced name fallback => exact resolve_congr _ fallback looked
  rw [expandText, expandText]
  generalize parts text = l at each
  have all : l.mapM (Part.expand env) = l.mapM (Part.expand other) := by
    induction l with
    | nil => rfl
    | cons p l ih =>
      obtain ⟨hp, each⟩ := List.forall_mem_cons.1 each
      rw [List.mapM_cons, List.mapM_cons, hp, ih each]
  rw [all]

/-- Doubled dollars are read in pairs, so none of them is the start of a reference. -/
theorem parts_doubled (text : List Char) :
    parts (doubled text) = text.map fun c => if c = '$' then .dollar else .plain c := by
  induction text with
  | nil => rw [doubled, List.flatMap_nil, parts, List.map_nil]
  | cons c text ih =>
    rw [doubled, List.flatMap_cons, List.map_cons, ← ih]
    split
    · exact parts_dollar (doubled text)
    · next hc => exact parts_plain hc (doubled text)

theorem expandText_doubled (env : Environment) (text : List Char) :
    expandText env (doubled text) = .ok text := by
  have each : ∀ c ∈ text,
      (Part.expand env ∘ fun c => if c = '$' then Part.dollar else .plain c) c = .ok [c] := by
    intro c _
    rw [Function.comp_apply]
    split
    · next hc => rw [hc, Part.expand]
    · rfl
  rw [expandText, parts_doubled, List.mapM_map, mapM_ok each]
  exact congrArg Except.ok (List.flatMap_singleton' text)

theorem consulted_doubled (text : List Char) : consulted (doubled text) = [] := by
  rw [consulted, parts_doubled, List.flatMap_eq_nil_iff]
  intro p hp
  obtain ⟨c, -, rfl⟩ := List.mem_map.1 hp
  split <;> rfl

end Reference

namespace Config

open Reference

variable {env : Environment} {tag key : String}

theorem expandDefault_eq (env : Environment) (tag key : String) (text : List Char) :
    expandDefault env tag (key, String.ofList text) =
      match expandText env text with
      | .ok value => .ok (key, String.ofList value)
      | .error reference => .error (.missing (.default tag key) reference) := by
  rw [expandDefault, expand_eq, String.toList_ofList]
  cases expandText env text <;> rfl

/-- A default value is expanded segment by segment, and what is put in for one of them is not read
again. If a variable is needed that is not there, the first one in the text is reported with the
place of the default value. -/
theorem expandDefault_segments (env : Environment) (tag key : String) {segments : List Segment}
    (formed : ∀ s ∈ segments, s.Formed) :
    let value := String.ofList (segments.flatMap Segment.text)
    ((∀ name, .required name ∈ segments → IsSet env name) →
      expandDefault env tag (key, value) =
        .ok (key, String.ofList (segments.flatMap (Segment.replacement env)))) ∧
    ((∃ name, .required name ∈ segments ∧ ¬ IsSet env name) →
      ∃ before name after, segments = before ++ .required name :: after ∧
        (∀ earlier, .required earlier ∈ before → IsSet env earlier) ∧ ¬ IsSet env name) ∧
    ∀ before name after, segments = before ++ .required name :: after →
      (∀ earlier, .required earlier ∈ before → IsSet env earlier) →
      let error := fun notUtf8 =>
        ConfigError.missing (.default tag key) ⟨String.ofList name, notUtf8⟩
      (env.lookup (String.ofList name) = .unset →
        expandDefault env tag (key, value) = .error (error false)) ∧
      (env.lookup (String.ofList name) = .notUtf8 →
        expandDefault env tag (key, value) = .error (error true)) ∧
      ∀ notUtf8, (error notUtf8).message =
        "Environment variable error in " ++ ("tags." ++ tag ++ ".defaults." ++ key) ++ ": $\x7b" ++
          String.ofList name ++ "\x7d " ++ if notUtf8 then "is not valid UTF-8" else "not set" := by
  intro value
  have expanded := expandDefault_eq env tag key (segments.flatMap Segment.text)
  rw [expandText_segments formed] at expanded
  refine ⟨fun set => ?_, exists_first_missing, ?_⟩
  · rw [mapM_expand_eq_ok set] at expanded
    exact expanded
  · intro before name after hsegments set error
    subst hsegments
    have failed (reference : Missing)
        (h : (Segment.required name).expand env = .error reference) :
        expandDefault env tag (key, value) = .error (.missing (.default tag key) reference) := by
      rw [mapM_expand_eq_error set h] at expanded
      exact expanded
    refine ⟨fun h => failed _ ?_, fun h => failed _ ?_, fun _ => rfl⟩
    · rw [Segment.expand, h]
    · rw [Segment.expand, h]

/-- A value with a reference in it, an empty one and one that is no text beside defaults, a name
that ends with a `:`, and two variables that are missing, of which the first one counts. -/
theorem expandDefault_segments_mixed :
    let env := Environment.ofList [("A", "$\x7bB\x7d".toUTF8.toList), ("E", []), ("N", [255])]
    let segments : List Segment := [.literal ['a'], .numeral '5' ['x'], .literal ['y'], .dollar,
      .literal ['\x7b', 'A', '\x7d'], .required ['A'], .optional ['E'] ['d'],
      .optional ['N'] ['$', 'n'], .optional ['U', ':'] [':', '-']]
    let missing : List Segment := segments ++ [.required ['N'], .required ['U']]
    (∀ s ∈ missing, s.Formed) ∧ (∀ name, .required name ∈ segments → IsSet env name) ∧
      env.lookup "N" = .notUtf8 ∧
      expandDefault env "t" ("k", String.ofList (segments.flatMap Segment.text)) =
        .ok ("k", "a$5xy$\x7bA\x7d$\x7bB\x7d$n:-") ∧
      expandDefault env "t" ("k", String.ofList (missing.flatMap Segment.text)) =
        .error (.missing (.default "t" "k") ⟨"N", true⟩) := by
  intro env segments missing
  have formed : ∀ s ∈ missing, s.Formed := by decide
  have known : ∀ name, .required name ∈ segments → IsSet env name := by
    intro name h
    have heq : name = ['A'] := by simpa [segments] using h
    rw [heq]
    exact ⟨"$\x7bB\x7d", by decide +kernel⟩
  have broken : env.lookup "N" = .notUtf8 := by decide +kernel
  have formed' : ∀ s ∈ segments, s.Formed := fun s hs => formed s (List.mem_append_left _ hs)
  have expanded := (expandDefault_segments env "t" "k" formed').1 known
  have failed := ((expandDefault_segments env "t" "k" formed).2.2 segments ['N'] [.required ['U']]
    rfl known).2.1 broken
  refine ⟨formed, known, broken, expanded.trans ?_, failed⟩
  decide +kernel

/-- A default value in which every `$` is doubled comes back as it was, and no variable is looked up
for it. What a text is expanded to depends on nothing but the variables that are consulted. -/
theorem expandDefault_doubled (env : Environment) (tag key value : String) :
    let written := doubled value.toList
    expandDefault env tag (key, String.ofList written) = .ok (key, value) ∧
    consulted written = [] ∧
    ∀ (one other : Environment) (text : List Char),
      (∀ name ∈ consulted text, one.lookup name = other.lookup name) →
      expandDefault one tag (key, String.ofList text) =
        expandDefault other tag (key, String.ofList text) := by
  intro written
  refine ⟨?_, consulted_doubled value.toList, fun one other text same => ?_⟩
  · rw [expandDefault_eq, expandText_doubled]
    exact congrArg (fun s => Except.ok (key, s)) String.ofList_toList
  · rw [expandDefault_eq, expandDefault_eq, expandText_congr same]

end Config

end Shortcode
