import Mathlib.Data.List.Basic
import Mathlib.Data.List.Induction
import Shortcode.Hook.Chain

namespace Shortcode

namespace Chain

variable {α : Type} {entries others added : List (Int × α)} {priority other : Int} {callback : α}
  {chain : Chain α}

/-- No priority is higher than one behind it. -/
def Ordered (entries : List (Int × α)) : Prop := entries.Pairwise fun a b => a.1 ≤ b.1

/-- The entries with one priority, in the order in which they stand. -/
def among (priority : Int) (entries : List (Int × α)) : List (Int × α) :=
  entries.filter (·.1 = priority)

theorem among_append (priority : Int) (entries others : List (Int × α)) :
    among priority (entries ++ others) = among priority entries ++ among priority others :=
  List.filter_append ..

theorem among_eq_nil (h : ∀ e ∈ entries, e.1 ≠ priority) : among priority entries = [] := by
  rw [among, List.filter_eq_nil_iff]
  intro e he
  simpa using h e he

theorem among_singleton (h : priority ≠ other) (callback : α) :
    among other [(priority, callback)] = [] := among_eq_nil (List.forall_mem_singleton.2 h)

theorem exists_mem_of_among (h : ∀ priority, among priority entries = among priority others)
    {e : Int × α} (he : e ∈ entries) : e ∈ others := by
  have mem : e ∈ among e.1 entries := List.mem_filter.2 ⟨he, decide_eq_true rfl⟩
  rw [h] at mem
  exact (List.mem_filter.1 mem).1

theorem Ordered.head_le {a b : Int × α} (h : Ordered (b :: others)) (ha : a ∈ b :: others) :
    b.1 ≤ a.1 := by
  cases List.mem_cons.1 ha with
  | inl heq => exact Int.le_of_eq (congrArg Prod.fst heq.symm)
  | inr mem => exact (List.pairwise_cons.1 h).1 a mem

/-- Ordered entries are decided by the order among those of each priority. -/
theorem Ordered.eq (h : Ordered entries) (h' : Ordered others)
    (same : ∀ priority, among priority entries = among priority others) : entries = others := by
  have back := fun priority => (same priority).symm
  induction entries generalizing others with
  | nil =>
    symm
    apply List.eq_nil_iff_forall_not_mem.2
    intro e he
    exact List.not_mem_nil (exists_mem_of_among back he)
  | cons a entries ih =>
    cases others with
    | nil => exact absurd (exists_mem_of_among same List.mem_cons_self) List.not_mem_nil
    | cons b others =>
      -- the first entry of either side has a priority that is the lowest on both
      have first : a.1 = b.1 := by
        apply Int.le_antisymm
        · exact h.head_le (exists_mem_of_among back List.mem_cons_self)
        · exact h'.head_le (exists_mem_of_among same List.mem_cons_self)
      have heads := same a.1
      simp only [among, List.filter_cons, first, decide_true, if_true] at heads
      obtain ⟨rfl, -⟩ := List.cons.inj heads
      have tails : ∀ priority, among priority entries = among priority others := by
        intro priority
        have both := same priority
        simp only [among, List.filter_cons] at both
        split at both
        · exact (List.cons.inj both).2
        · exact both
      apply congrArg (a :: ·)
      exact ih h.tail h'.tail tails fun priority => (tails priority).symm

/-- `sorted` has what was added, by priority, and those of one priority as they were added. -/
structure SortsStably (added sorted : List (Int × α)) : Prop where
  perm : sorted.Perm added
  ordered : Ordered sorted
  stable : ∀ priority, among priority sorted = among priority added

theorem SortsStably.eq (h : SortsStably added entries) (h' : SortsStably added others) :
    entries = others := by
  apply h.ordered.eq h'.ordered
  intro priority
  rw [h.stable, h'.stable]

theorem sortsStably_mergeSort (added : List (Int × α)) :
    SortsStably added (added.mergeSort fun a b => a.1 ≤ b.1) := by
  have trans : ∀ a b c : Int × α, decide (a.1 ≤ b.1) = true → decide (b.1 ≤ c.1) = true →
      decide (a.1 ≤ c.1) = true := by
    simp only [decide_eq_true_eq]
    exact fun a b c => Int.le_trans
  have total : ∀ a b : Int × α, (decide (a.1 ≤ b.1) || decide (b.1 ≤ a.1)) = true := by
    intro a b
    simpa using Int.le_total a.1 b.1
  have perm := List.mergeSort_perm added fun a b => a.1 ≤ b.1
  refine ⟨perm, ?_, ?_⟩
  · simpa [Ordered] using List.pairwise_mergeSort trans total added
  · intro priority
    symm
    have level : (among priority added).Pairwise fun a b => decide (a.1 ≤ b.1) = true := by
      apply List.pairwise_of_forall_mem_list
      intro a ha b hb
      have ha := of_decide_eq_true (List.mem_filter.1 ha).2
      have hb := of_decide_eq_true (List.mem_filter.1 hb).2
      exact decide_eq_true (Int.le_of_eq (ha.trans hb.symm))
    have kept := (List.sublist_mergeSort trans total level List.filter_sublist).filter
      (·.1 = priority)
    rw [among, List.filter_filter] at kept
    simp only [Bool.and_self] at kept
    exact kept.eq_of_length (perm.filter _).length_eq.symm

/-- What stands behind the callbacks with the same priority or a lower one. -/
theorem lt_of_mem_dropWhile (h : Ordered entries) {e : Int × α}
    (he : e ∈ entries.dropWhile (·.1 ≤ priority)) : priority < e.1 := by
  induction entries with
  | nil => cases he
  | cons a entries ih =>
    obtain ⟨ha, h⟩ := List.pairwise_cons.1 h
    rw [List.dropWhile_cons] at he
    split at he
    · exact ih h he
    · next hn =>
      have first : priority < a.1 := by simpa using hn
      cases List.mem_cons.1 he with
      | inl heq => exact heq ▸ first
      | inr mem => exact Int.lt_of_lt_of_le first (ha e mem)

theorem le_of_mem_takeWhile {e : Int × α} (he : e ∈ entries.takeWhile (·.1 ≤ priority)) :
    e.1 ≤ priority := of_decide_eq_true (List.all_eq_true.1 List.all_takeWhile e he)

/-- A callback that is put between those with the same priority or a lower one and those with a
higher one is the last of its priority. -/
theorem SortsStably.insert {low high : List (Int × α)} (h : SortsStably added (low ++ high))
    (front : ∀ e ∈ low, e.1 ≤ priority) (back : ∀ e ∈ high, priority < e.1) (callback : α) :
    SortsStably (added ++ [(priority, callback)]) (low ++ (priority, callback) :: high) := by
  obtain ⟨hlow, hhigh, across⟩ := List.pairwise_append.1 h.ordered
  refine ⟨?_, ?_, ?_⟩
  · exact List.perm_middle.trans ((h.perm.cons _).trans (List.perm_append_singleton _ _).symm)
  · apply List.pairwise_append.2
    refine ⟨hlow, List.pairwise_cons.2 ⟨fun e he => Int.le_of_lt (back e he), hhigh⟩, ?_⟩
    intro a ha b hb
    cases List.mem_cons.1 hb with
    | inl heq => exact heq ▸ front a ha
    | inr mem => exact across a ha b mem
  · intro level
    have both := h.stable level
    rw [among_append] at both
    change among level (low ++ ([(priority, callback)] ++ high)) = _
    rw [among_append, among_append, among_append, ← both]
    by_cases hl : priority = level
    · have none : among level high = [] :=
        among_eq_nil fun e he => Int.ne_of_gt (hl ▸ back e he)
      rw [none, List.append_nil, List.append_nil]
    · rw [among_singleton hl, List.nil_append, List.append_nil]

theorem SortsStably.add (h : SortsStably added chain.entries) (priority : Int) (callback : α) :
    SortsStably (added ++ [(priority, callback)]) (chain.add priority callback).entries := by
  have back : ∀ e ∈ chain.entries.dropWhile (·.1 ≤ priority), priority < e.1 :=
    fun e => lt_of_mem_dropWhile h.ordered
  apply SortsStably.insert _ (fun e => le_of_mem_takeWhile) back
  rw [List.takeWhile_append_dropWhile]
  exact h

/-- The test holds of the first `k` entries and of none behind them. -/
structure SplitsAt (holds : Int × α → Bool) (entries : List (Int × α)) (k : Nat) : Prop where
  le : k ≤ entries.length
  front : ∀ e ∈ entries.take k, holds e = true
  back : ∀ e ∈ entries.drop k, holds e = false

/-- Where entries are split by a test, the search gives the place. What it gives for others can be
anything. -/
def Finds (search : (Int × α → Bool) → List (Int × α) → Nat) : Prop :=
  ∀ holds entries, (∃ k, SplitsAt holds entries k) → SplitsAt holds entries (search holds entries)

/-- Adds a callback at the place that a search gives. -/
def insertBy (search : (Int × α → Bool) → List (Int × α) → Nat) (chain : Chain α) (priority : Int)
    (callback : α) : Chain α :=
  ⟨chain.entries.insertIdx (search (·.1 ≤ priority) chain.entries) (priority, callback)⟩

variable {holds : Int × α → Bool} {k : Nat}
  {search : (Int × α → Bool) → List (Int × α) → Nat}

theorem Ordered.splitsAt (h : Ordered entries) (priority : Int) :
    SplitsAt (·.1 ≤ priority) entries (entries.takeWhile (·.1 ≤ priority)).length := by
  have parts : entries.takeWhile (·.1 ≤ priority) ++ entries.dropWhile (·.1 ≤ priority) =
      entries := List.takeWhile_append_dropWhile
  have front := @List.take_left _ (entries.takeWhile (·.1 ≤ priority))
    (entries.dropWhile (·.1 ≤ priority))
  have back := @List.drop_left _ (entries.takeWhile (·.1 ≤ priority))
    (entries.dropWhile (·.1 ≤ priority))
  rw [parts] at front back
  refine ⟨(List.takeWhile_prefix _).length_le, ?_, ?_⟩
  · intro e he
    rw [front] at he
    exact decide_eq_true (le_of_mem_takeWhile he)
  · intro e he
    rw [back] at he
    exact decide_eq_false (Int.not_le.2 (lt_of_mem_dropWhile h he))

/-- The place where entries are split is the one up to which the test holds. -/
theorem SplitsAt.takeWhile_eq (h : SplitsAt holds entries k) :
    entries.takeWhile holds = entries.take k ∧ entries.dropWhile holds = entries.drop k := by
  have none : (entries.drop k).takeWhile holds = [] ∧
      (entries.drop k).dropWhile holds = entries.drop k := by
    cases hd : entries.drop k with
    | nil => exact ⟨rfl, rfl⟩
    | cons e rest =>
      have fails := h.back e (hd ▸ List.mem_cons_self)
      rw [List.takeWhile_cons, List.dropWhile_cons, fails]
      exact ⟨rfl, rfl⟩
  obtain ⟨first, rest⟩ := none
  constructor
  · conv_lhs => rw [← List.take_append_drop k entries, List.takeWhile_append_of_pos h.front]
    rw [first, List.append_nil]
  · conv_lhs => rw [← List.take_append_drop k entries, List.dropWhile_append_of_pos h.front]
    exact rest

theorem insertIdx_append (front back : List (Int × α)) (e : Int × α) :
    (front ++ back).insertIdx front.length e = front ++ e :: back := by
  induction front with
  | nil => rfl
  | cons a front ih => exact congrArg (a :: ·) ih

/-- On ordered entries the search is as good as going along them. -/
theorem insertBy_eq_add (finds : Finds search) (h : Ordered chain.entries) (priority : Int)
    (callback : α) : chain.insertBy search priority callback = chain.add priority callback := by
  have split := finds _ _ ⟨_, h.splitsAt priority⟩
  obtain ⟨front, back⟩ := split.takeWhile_eq
  rw [insertBy, add, front, back]
  generalize search (·.1 ≤ priority) chain.entries = k at *
  have length := List.length_take_of_le split.le
  have inserted := insertIdx_append (chain.entries.take k) (chain.entries.drop k)
    (priority, callback)
  rw [length, List.take_append_drop] at inserted
  exact congrArg Chain.mk inserted

/-- The place where entries are split, from `start` on among `size` ones, found by halving. -/
def bisect (holds : Int × α → Bool) (entries : List (Int × α)) (start size : Nat) : Nat :=
  if size = 0 then start
  else if entries[start + size / 2]?.any holds then
    bisect holds entries (start + size / 2 + 1) (size - size / 2 - 1)
  else bisect holds entries start (size / 2)
termination_by size

theorem bisect_eq (h : SplitsAt holds entries k) {start size : Nat} (first : start ≤ k)
    (last : k ≤ start + size) (inside : start + size ≤ entries.length) :
    bisect holds entries start size = k := by
  fun_induction bisect holds entries start size with
  | case1 start => omega
  | case2 start size hsize holding ih =>
    obtain ⟨e, he, hold⟩ := (Option.any_eq_true ..).1 holding
    have before : start + size / 2 < k := by
      by_contra behind
      have mem : e ∈ entries.drop k := by
        apply List.mem_iff_getElem?.2
        refine ⟨start + size / 2 - k, ?_⟩
        rw [List.getElem?_drop, Nat.add_sub_cancel' (Nat.le_of_not_lt behind), he]
      rw [h.back e mem] at hold
      cases hold
    apply ih <;> omega
  | case3 start size hsize failing ih =>
    have behind : k ≤ start + size / 2 := by
      by_contra before
      have place : start + size / 2 < entries.length := by omega
      have mem : entries[start + size / 2] ∈ entries.take k :=
        List.mem_take_iff_getElem.2 ⟨_, by omega, rfl⟩
      rw [List.getElem?_eq_getElem place, Option.any_some, h.front _ mem] at failing
      exact failing rfl
    apply ih <;> omega

theorem finds_bisect :
    Finds fun (holds : Int × α → Bool) entries => bisect holds entries 0 entries.length := by
  intro holds entries split
  obtain ⟨k, h⟩ := split
  have found := bisect_eq h (Nat.zero_le k) (by rw [Nat.zero_add]; exact h.le)
    (Nat.le_of_eq (Nat.zero_add _))
  change SplitsAt holds entries (bisect holds entries 0 entries.length)
  rw [found]
  exact h

/-- What is done to a chain. -/
inductive Edit (α : Type) where
  | add (priority : Int) (callback : α)
  | clear

/-- The chain behind edits of the empty one, where `add` adds a callback. -/
def runBy (add : Chain α → Int → α → Chain α) (edits : List (Edit α)) : Chain α :=
  edits.foldl (fun chain edit => match edit with
    | .add priority callback => add chain priority callback
    | .clear => empty) empty

def register (before : List (Int × α)) : Edit α → List (Int × α)
  | .add priority callback => before ++ [(priority, callback)]
  | .clear => []

/-- The callbacks that were added since the chain was last cleared, one behind the other. -/
def sinceClear (edits : List (Edit α)) : List (Int × α) := edits.foldl register []

theorem sinceClear_concat (edits : List (Edit α)) (edit : Edit α) :
    sinceClear (edits ++ [edit]) = register (sinceClear edits) edit := List.foldl_concat ..

theorem sortsStably_run (edits : List (Edit α)) :
    SortsStably (sinceClear edits) (runBy add edits).entries := by
  induction edits using List.reverseRecOn with
  | nil => exact ⟨List.Perm.refl _, List.Pairwise.nil, fun _ => rfl⟩
  | append_singleton edits edit ih =>
    rw [sinceClear_concat, runBy, List.foldl_concat]
    cases edit with
    | add priority callback => exact ih.add priority callback
    | clear => exact ⟨List.Perm.refl _, List.Pairwise.nil, fun _ => rfl⟩

/-- The entries that are searched are ordered all along the run. -/
theorem runBy_insertBy (finds : Finds search) (edits : List (Edit α)) :
    runBy (insertBy search) edits = runBy add edits := by
  induction edits using List.reverseRecOn with
  | nil => rfl
  | append_singleton edits edit ih =>
    rw [runBy, runBy, List.foldl_concat, List.foldl_concat]
    cases edit with
    | add priority callback =>
      change (runBy (insertBy search) edits).insertBy search priority callback = _
      rw [ih]
      exact insertBy_eq_add finds (sortsStably_run edits).ordered priority callback
    | clear => rfl

theorem among_foldl_register (same : ∀ priority, among priority entries = among priority others)
    (edits : List (Edit α)) (priority : Int) :
    among priority (edits.foldl register entries) =
      among priority (edits.foldl register others) := by
  induction edits generalizing entries others with
  | nil => exact same priority
  | cons edit edits ih =>
    apply ih
    intro level
    cases edit with
    | add priority callback => rw [register, register, among_append, among_append, same]
    | clear => rfl

/-- Two callbacks of different priorities can change places among those that are added. -/
theorem among_swap (h : priority ≠ other) (before : List (Int × α)) (callback next : α)
    (level : Int) :
    among level (before ++ [(priority, callback)] ++ [(other, next)]) =
      among level (before ++ [(other, next)] ++ [(priority, callback)]) := by
  simp only [among_append, List.append_assoc, List.append_cancel_left_eq]
  by_cases hp : priority = level
  · rw [among_singleton fun hl => h (hp.trans hl.symm), List.nil_append, List.append_nil]
  · rw [among_singleton hp, List.nil_append, List.append_nil]

theorem run_swap (h : priority ≠ other) (edits more : List (Edit α)) (callback next : α) :
    runBy add (edits ++ .add priority callback :: .add other next :: more) =
      runBy add (edits ++ .add other next :: .add priority callback :: more) := by
  have one := sortsStably_run (edits ++ .add priority callback :: .add other next :: more)
  have two := sortsStably_run (edits ++ .add other next :: .add priority callback :: more)
  have entries := one.ordered.eq two.ordered fun level => by
    rw [one.stable, two.stable, sinceClear, sinceClear, List.foldl_append, List.foldl_append]
    exact among_foldl_register (among_swap h _ callback next) more level
  exact congrArg Chain.mk entries

/-- Behind every run the callbacks since the last clearing run in the stable order of their
priorities, none of them lost or doubled. A search for the place of a new callback does as well,
whatever it gives for entries that are not split. A fold hands its value to each of them in this
order, so two additions of different priorities, one behind the other, can be made in either order. -/
theorem dispatch_stable (edits : List (Edit α)) :
    SortsStably (sinceClear edits) (runBy add edits).entries ∧
    (runBy add edits).callbacks =
      ((sinceClear edits).mergeSort fun a b => a.1 ≤ b.1).map (·.2) ∧
    (∀ search, Finds search → runBy (insertBy search) edits = runBy add edits) ∧
    (∀ (β : Type) (apply : α → β → β) (value : β), (runBy add edits).fold apply value =
      (((sinceClear edits).mergeSort fun a b => a.1 ≤ b.1).map (·.2)).foldl
        (fun current callback => apply callback current) value) ∧
    ∀ (more : List (Edit α)) (priority other : Int) (callback next : α), priority ≠ other →
      ∀ (β : Type) (apply : α → β → β) (value : β),
        (runBy add (edits ++ .add priority callback :: .add other next :: more)).fold apply value =
          (runBy add (edits ++ .add other next :: .add priority callback :: more)).fold apply
            value := by
  have stable := sortsStably_run edits
  have sorted : (runBy add edits).callbacks =
      ((sinceClear edits).mergeSort fun a b => a.1 ≤ b.1).map (·.2) := by
    rw [callbacks, stable.eq (sortsStably_mergeSort _)]
  refine ⟨stable, sorted, fun search finds => runBy_insertBy finds edits, ?_, ?_⟩
  · intro β apply value
    rw [fold_eq_foldl, sorted]
  · intro more priority other callback next h β apply value
    rw [run_swap h]

/-- Priorities at both ends of the range, equal ones, and a chain that was cleared. -/
theorem dispatch_stable_extremes :
    let edits : List (Edit String) := [.add 0 "lost", .clear, .add 2147483647 "y", .add 10 "b",
      .add (-2147483648) "a", .add 10 "c", .add 2147483647 "z"]
    let join (label text : String) := text ++ label
    (runBy (insertBy fun holds entries => bisect holds entries 0 entries.length) edits).callbacks =
        ["a", "b", "c", "y", "z"] ∧
      (10 : Int) ≠ -2147483648 ∧
      (runBy add (edits ++ [.add 10 "d", .add (-2147483648) "e"])).fold join "" = "aebcdyz" ∧
      (runBy add (edits ++ [.add (-2147483648) "e", .add 10 "d"])).fold join "" = "aebcdyz" := by
  intro edits join
  obtain ⟨-, -, searched, -, swapped⟩ := dispatch_stable edits
  have joined : (runBy add (edits ++ [.add 10 "d", .add (-2147483648) "e"])).fold join "" =
      "aebcdyz" := by decide
  refine ⟨?_, by decide, joined, ?_⟩
  · rw [searched _ finds_bisect]
    decide
  · exact (swapped [] 10 (-2147483648) "d" "e" (by decide) String join "").symm.trans joined

end Chain

end Shortcode
