import Shortcode.Proofs.Engine.Requests

namespace Shortcode

namespace Loop

variable {σ β : Type} {round : σ → Option σ}

/-- A loop whose rounds lead from one state to the next comes to rest after some number of them. -/
inductive Runs (round : σ → Option σ) : Nat → σ → σ → Prop where
  | rest {state : σ} (h : round state = none) : Runs round 0 state state
  | step {rounds : Nat} {state next last : σ} (h : round state = some next)
      (rest : Runs round rounds next last) : Runs round (rounds + 1) state last

/-- A loop comes to rest if each round takes something off a measure. -/
theorem exists_runs {inv : σ → Prop} {measure : σ → Nat}
    (h : ∀ state next, inv state → round state = some next →
      inv next ∧ measure next < measure state) (state : σ) (hs : inv state) :
    ∃ rounds ≤ measure state, ∃ last, Runs round rounds state last := by
  induction hm : measure state using Nat.strong_induction_on generalizing state with
  | _ size ih =>
    cases hr : round state with
    | none => exact ⟨0, Nat.zero_le _, state, .rest hr⟩
    | some next =>
      obtain ⟨hn, hlt⟩ := h state next hs hr
      obtain ⟨rounds, hle, last, runs⟩ := ih _ (hm ▸ hlt) next hn rfl
      exact ⟨rounds + 1, by omega, last, .step hr runs⟩

/-- What no round changes is the same at the end. -/
theorem Runs.value_eq {value : σ → β}
    (h : ∀ state next, round state = some next → value next = value state) {rounds : Nat}
    {state last : σ} (runs : Runs round rounds state last) : value last = value state := by
  induction runs with
  | rest _ => rfl
  | step hr _ ih => exact ih.trans (h _ _ hr)

theorem Runs.round_eq_none {rounds : Nat} {state last : σ} (runs : Runs round rounds state last) :
    round last = none := by
  induction runs with
  | rest h => exact h
  | step _ _ ih => exact ih

end Loop

namespace Scanner

variable {s : Scanner} {tag : String}

namespace Probe

variable {a b c : Probe}

theorem orElse_of_hit (h : a.hit = true) (b : Probe) : a.orElse b = a := if_pos h

theorem orElse_nothing (a : Probe) : a.orElse ⟨false, []⟩ = a := by
  obtain ⟨hit, unterminated⟩ := a
  cases hit <;> simp [orElse]

theorem orElse_assoc (a b c : Probe) : (a.orElse b).orElse c = a.orElse (b.orElse c) := by
  obtain ⟨hit, unterminated⟩ := a
  obtain ⟨hit', unterminated'⟩ := b
  cases hit <;> cases hit' <;> simp [orElse]

theorem hit_orElse : (a.orElse b).hit = (a.hit || b.hit) := by
  obtain ⟨hit, unterminated⟩ := a
  cases hit <;> rfl

end Probe

/-- The texts that are still to be scanned, the next one first, and what has come up so far. -/
structure Search where
  pending : List String
  result : Probe

namespace Search

def start (content : String) : Search := ⟨[content], ⟨false, []⟩⟩

/-- Takes a text, and leaves those that its tags enclose in front of the others, last one first. With
a hit nothing is left to do. -/
def round (s : Scanner) (tag : String) (state : Search) : Option Search :=
  match state.pending with
  | [] => none
  | text :: pending =>
    let scan := s.scan text
    let hit := scan.found.any (·.name = tag)
    some
      { pending := if hit then [] else (scan.found.filterMap Match.inner).reverse ++ pending
        result := state.result.orElse ⟨hit, scan.unterminated⟩ }

def measure (state : Search) : Nat := (state.pending.map (·.length + 1)).sum

/-- What the search will have found at its end. -/
def value (s : Scanner) (tag : String) (state : Search) : Probe :=
  state.pending.foldl (fun before text => before.orElse (s.probe tag text)) state.result

/-- The texts that matches enclose are smaller than the matches. -/
theorem sum_inner_le {found : List Match}
    (h : ∀ m ∈ found, ∀ inner, m.inner = some inner → inner.length + 1 ≤ m.width) :
    ((found.filterMap Match.inner).map (·.length + 1)).sum ≤ (found.map Match.width).sum := by
  induction found with
  | nil => exact Nat.le_refl 0
  | cons m found ih =>
    obtain ⟨hm, hfound⟩ := List.forall_mem_cons.1 h
    have rest := ih hfound
    rw [List.map_cons, List.sum_cons]
    cases hi : m.inner with
    | none =>
      rw [List.filterMap_cons_none hi]
      omega
    | some inner =>
      have := hm inner hi
      rw [List.filterMap_cons_some hi, List.map_cons, List.sum_cons]
      omega

theorem measure_round {state next : Search} (h : state.round s tag = some next) :
    next.measure < state.measure := by
  obtain ⟨pending, result⟩ := state
  cases pending with
  | nil => cases h
  | cons text pending =>
    cases h
    have roomy : ∀ m ∈ (s.scan text).found, ∀ inner, m.inner = some inner →
        inner.length + 1 ≤ m.width := by
      intro m hm inner hi
      have := length_inner_add_le hm hi
      omega
    have inside := sum_inner_le roomy
    have room := s.sum_width_found_le text
    simp only [measure, List.map_cons, List.sum_cons]
    split
    · simp only [List.map_nil, List.sum_nil]
      omega
    · rw [List.map_append, List.sum_append, List.map_reverse, List.sum_reverse]
      omega

theorem foldl_of_hit {result : Probe} (h : result.hit = true) (pending : List String) :
    pending.foldl (fun before text => before.orElse (s.probe tag text)) result = result := by
  induction pending with
  | nil => rfl
  | cons text pending ih => rw [List.foldl_cons, Probe.orElse_of_hit h, ih]

theorem foldl_orElse (first : Probe) (result : Probe) (pending : List String) :
    pending.foldl (fun before text => before.orElse (s.probe tag text)) (first.orElse result) =
      first.orElse
        (pending.foldl (fun before text => before.orElse (s.probe tag text)) result) := by
  induction pending generalizing result with
  | nil => rfl
  | cons text pending ih => rw [List.foldl_cons, List.foldl_cons, Probe.orElse_assoc, ih]

/-- A text is searched by searching the texts that its tags enclose, last one first. -/
theorem probe_eq_foldl (s : Scanner) (tag text : String) :
    s.probe tag text = ((s.scan text).found.filterMap Match.inner).reverse.foldl
      (fun before text => before.orElse (s.probe tag text))
      ⟨(s.scan text).found.any (·.name = tag), (s.scan text).unterminated⟩ := by
  have inside (found : List Match) (here : Probe) :
      (found.map fun m => (m.inner.map (s.probe tag)).getD ⟨false, []⟩).foldr
          (fun p before => before.orElse p) here =
        (found.filterMap Match.inner).foldr (fun text before => before.orElse (s.probe tag text))
          here := by
    induction found with
    | nil => rfl
    | cons m found ih =>
      rw [List.map_cons, List.foldr_cons, ih]
      cases hi : m.inner with
      | none => rw [List.filterMap_cons_none hi, Option.map_none, Option.getD_none,
          Probe.orElse_nothing]
      | some inner => rw [List.filterMap_cons_some hi, Option.map_some, Option.getD_some,
          List.foldr_cons]
  rw [probe_eq, inside, List.foldl_reverse]

theorem value_round {state next : Search} (h : state.round s tag = some next) :
    next.value s tag = state.value s tag := by
  obtain ⟨pending, result⟩ := state
  cases pending with
  | nil => cases h
  | cons text pending =>
    cases h
    simp only [value, List.foldl_cons]
    rw [probe_eq_foldl]
    split
    · next hit =>
      have all : (result.orElse ⟨true, (s.scan text).unterminated⟩).hit = true := by
        rw [Probe.hit_orElse, Bool.or_true]
      have here : (Probe.mk true (s.scan text).unterminated).hit = true := rfl
      rw [hit, foldl_of_hit here, foldl_of_hit all, foldl_of_hit all]
    · rw [List.foldl_append, foldl_orElse]

/-- The search takes no more rounds than the text has characters, and one. -/
theorem exists_runs (s : Scanner) (tag content : String) :
    ∃ rounds ≤ content.length + 1, ∃ last,
      Loop.Runs (round s tag) rounds (start content) last ∧ last.result = s.probe tag content := by
  have smaller : ∀ state next : Search, True → state.round s tag = some next →
      True ∧ next.measure < state.measure := fun _ _ _ h => ⟨trivial, measure_round h⟩
  obtain ⟨rounds, hle, last, runs⟩ := Loop.exists_runs smaller (start content) trivial
  have hend : last.pending = [] := by
    have rest := runs.round_eq_none
    rw [round] at rest
    split at rest
    · assumption
    · cases rest
  have result := runs.value_eq (fun _ _ => value_round)
  rw [value, hend, List.foldl_nil] at result
  exact ⟨rounds, hle, last, runs, result⟩

end Search

/-- For each text that is being gone through the matches that are still ahead, innermost text first,
and what has come up so far. -/
structure Listing where
  stack : List (List Match)
  names : List String
  unterminated : List (String × Nat)

namespace Listing

def start (s : Scanner) (content : String) : Listing :=
  ⟨[(s.scan content).found], [], (s.scan content).unterminated⟩

def listed (names : List String) (name : String) : List String :=
  if names.contains name then names else names ++ [name]

/-- Takes a match, and goes on with the text that it encloses, or returns to the text around. -/
def round (s : Scanner) (state : Listing) : Option Listing :=
  match state.stack with
  | [] => none
  | [] :: stack => some { state with stack }
  | (m :: ahead) :: stack =>
    let names := listed state.names m.name
    match m.inner with
    | none => some ⟨ahead :: stack, names, state.unterminated⟩
    | some inner =>
      let scan := s.scan inner
      some ⟨scan.found :: ahead :: stack, names, state.unterminated ++ scan.unterminated⟩

def measure (state : Listing) : Nat :=
  (state.stack.map fun ahead => (ahead.map Match.width).sum + 1).sum

/-- Matches take room, and more than what they enclose. -/
def Roomy (state : Listing) : Prop :=
  ∀ ahead ∈ state.stack, ∀ m ∈ ahead,
    0 < m.width ∧ ∀ inner, m.inner = some inner → inner.length + 1 < m.width

theorem roomy_found {content : String} :
    ∀ m ∈ (s.scan content).found,
      0 < m.width ∧ ∀ inner, m.inner = some inner → inner.length + 1 < m.width := by
  intro m hm
  refine ⟨width_pos hm, ?_⟩
  intro inner hi
  have := length_inner_add_le hm hi
  omega

theorem measure_round {state next : Listing} (hr : state.Roomy) (h : state.round s = some next) :
    next.Roomy ∧ next.measure < state.measure := by
  obtain ⟨stack, names, unterminated⟩ := state
  match stack with
  | [] => cases h
  | [] :: stack =>
    cases h
    refine ⟨(List.forall_mem_cons.1 hr).2, ?_⟩
    simp [measure]
  | (m :: ahead) :: stack =>
    obtain ⟨hahead, hstack⟩ := List.forall_mem_cons.1 hr
    obtain ⟨⟨hpos, hroom⟩, hahead⟩ := List.forall_mem_cons.1 hahead
    simp only [round] at h
    split at h
    · cases h
      refine ⟨List.forall_mem_cons.2 ⟨hahead, hstack⟩, ?_⟩
      simp only [measure, List.map_cons, List.sum_cons]
      omega
    · next inner hi =>
      cases h
      have := hroom inner hi
      have := s.sum_width_found_le inner
      refine ⟨List.forall_mem_cons.2 ⟨roomy_found, List.forall_mem_cons.2 ⟨hahead, hstack⟩⟩, ?_⟩
      simp only [measure, List.map_cons, List.sum_cons]
      omega

/-- The matches that are still to come up. -/
def ahead (s : Scanner) (state : Listing) : List Match :=
  state.stack.flatten.flatMap fun m => m :: (m.inner.map s.nested).getD []

/-- What the search will have listed at its end. -/
def value (s : Scanner) (state : Listing) : List String × List (String × Nat) :=
  (((state.ahead s).map (·.name)).foldl listed state.names,
    state.unterminated ++
      state.stack.flatten.flatMap fun m => (m.inner.map s.nestedUnterminated).getD [])

theorem value_round {state next : Listing} (h : state.round s = some next) :
    next.value s = state.value s := by
  obtain ⟨stack, names, unterminated⟩ := state
  match stack with
  | [] => cases h
  | [] :: stack =>
    cases h
    rfl
  | (m :: ahead) :: stack =>
    simp only [round] at h
    split at h
    · next hi =>
      cases h
      simp [value, Listing.ahead, hi]
    · next inner hi =>
      cases h
      simp [value, Listing.ahead, hi, nested_eq s inner, nestedUnterminated_eq s inner]

/-- Names that are listed one by one are those of the list, each once. -/
theorem foldl_listed (names : List String) : names.foldl listed [] = names.eraseDups := by
  have loop (names before : List String) :
      List.eraseDupsBy.loop (· == ·) names before = names.foldl listed before.reverse := by
    induction names generalizing before with
    | nil => rfl
    | cons name names ih =>
      rw [List.eraseDupsBy.loop, List.foldl_cons, listed, List.contains_reverse]
      have same : before.contains name = before.any (name == ·) := List.contains_eq_any_beq
      rw [same]
      cases before.any (name == ·) with
      | true => exact ih before
      | false =>
        rw [if_neg Bool.false_ne_true, ← List.reverse_cons]
        exact ih (name :: before)
  exact (loop names []).symm

theorem exists_runs (s : Scanner) (content : String) :
    ∃ rounds ≤ content.length + 1, ∃ last,
      Loop.Runs (round s) rounds (start s content) last ∧
        last.names = ((s.nested content).map (·.name)).eraseDups ∧
        last.unterminated = s.nestedUnterminated content := by
  have roomy : (start s content).Roomy := by
    intro ahead h
    rw [List.mem_singleton.1 h]
    exact roomy_found
  obtain ⟨rounds, hle, last, runs⟩ := Loop.exists_runs
    (fun _ _ => measure_round (s := s)) _ roomy
  have size : (start s content).measure ≤ content.length + 1 := by
    have := s.sum_width_found_le content
    simp only [measure, start, List.map_cons, List.map_nil, List.sum_cons, List.sum_nil]
    omega
  have hend : last.stack = [] := by
    have rest := runs.round_eq_none
    rw [round.eq_def] at rest
    split at rest
    · assumption
    · cases rest
    · split at rest <;> cases rest
  have result := runs.value_eq (fun _ _ => value_round)
  rw [value, ahead, hend, value, ahead, start] at result
  obtain ⟨names, unterminated⟩ := Prod.mk.injEq .. ▸ result
  refine ⟨rounds, Nat.le_trans hle size, last, runs, ?_, ?_⟩
  · rw [← foldl_listed, nested_eq]
    simpa using names
  · rw [nestedUnterminated_eq]
    simpa using unterminated

end Listing

end Scanner

namespace Engine

open Scanner

/-- Expansion, the search for a tag and the listing of tags come to an end on every text. If the
handlers fill templates, each request of a pass is for the text that one of its matches encloses.
That text is smaller by the brackets and names of its tag, so requests are nested no deeper than a
seventh of the content's size, and a limit beyond that changes nothing. -/
theorem processing_terminates (e : Engine) (content : String) :
    (e.Templated →
      (∀ text inner, (e.expansion text).Asks inner →
        ∃ m ∈ (e.scanner.scan text).found, m.inner = some inner ∧
          inner.utf8ByteSize + (2 * m.name.utf8ByteSize + 5) ≤ text.utf8ByteSize ∧
          7 ≤ 2 * m.name.utf8ByteSize + 5) ∧
      (∀ depth text, e.Nests content depth text → depth ≤ content.utf8ByteSize / 7) ∧
      (∃ output, (e.expand content).value = some output) ∧
      ∀ depth, content.utf8ByteSize / 7 < depth →
        e.expandWithin depth content = e.expand content) ∧
    (∀ tag, ∃ rounds ≤ content.length + 1, ∃ last,
      Loop.Runs (Search.round e.scanner tag) rounds (.start content) last ∧
      (e.handlers.contains tag = true →
        e.hasTag content tag = ⟨last.result.hit, warnings last.result.unterminated⟩)) ∧
    ∃ rounds ≤ content.length + 1, ∃ last,
      Loop.Runs (Listing.round e.scanner) rounds (.start e.scanner content) last ∧
      e.tags content = ⟨last.names, warnings last.unterminated⟩ := by
  refine ⟨?_, ?_, ?_⟩
  · intro templated
    refine ⟨fun _ _ => templated.size_of_asks, ?_, templated.exists_expand content,
      fun _ => templated.expandWithin_eq⟩
    intro depth text nests
    have := templated.depth_of_nests nests
    omega
  · intro tag
    obtain ⟨rounds, hle, last, runs, result⟩ := Search.exists_runs e.scanner tag content
    refine ⟨rounds, hle, last, runs, ?_⟩
    intro registered
    rw [hasTag, if_pos registered, result]
  · obtain ⟨rounds, hle, last, runs, names, unterminated⟩ := Listing.exists_runs e.scanner content
    refine ⟨rounds, hle, last, runs, ?_⟩
    rw [tags, names, unterminated]

/-- An engine from a configuration, with a callback of its own. The content has room for requests
nested four deep, so five passes inside each other are enough. -/
theorem processing_terminates_nested :
    (let config : Config := ⟨true, none, [("b", ⟨"<\x7bcontent\x7d\x7b0\x7d>", [], true⟩),
        ("i", ⟨"\x7bcontent\x7d\x7bx\x7d", [("x", "!")], true⟩)], none⟩
     let content := "[b 1]é[i]y[b][/b] <i [b]>[/i][/b]"
     ∃ e : Engine, config.engine = .ok e ∧
      let hooked : Engine :=
        { e with hooks := HookPoints.empty.onPostRender 0 fun text o => text ++ o.tag.name }
      hooked.Templated ∧ content.utf8ByteSize / 7 = 4 ∧
      (hooked.expandWithin 5 content).value = some "<éy<\x7b0\x7d>b <i [b]>!i1>b" ∧
      hooked.expandWithin 5 content = hooked.expand content) := by
  intro config content
  refine ⟨_, rfl, ?_⟩
  intro hooked
  have templated : hooked.Templated :=
    Templated.ofConfig (c := config) (e := { hooked with hooks := .empty }) rfl
  obtain ⟨requests, -⟩ := processing_terminates hooked content
  obtain ⟨-, -, -, same⟩ := requests templated
  exact ⟨templated, by decide, by decide +kernel, same 5 (by decide)⟩

end Engine

end Shortcode
