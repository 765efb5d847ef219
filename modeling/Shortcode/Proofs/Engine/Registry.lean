import Mathlib.Data.List.Induction
import Shortcode.Proofs.Engine.Names

namespace Shortcode

namespace Registry

/-- What is asked of a registry, one request after the other. -/
inductive Request (α : Type) where
  | register (name : String) (a : α)
  | unregister (name : String)
  | clear
  | list

variable {α : Type}

/-- What a request does to a name: it binds it, frees it or leaves it as it is. -/
def Request.effect (name : String) : Request α → Option (Option α)
  | .register other a =>
    if other = name ∧ Tag.nameFault? other = none then some (some a) else none
  | .unregister other => if other = name then some none else none
  | .clear => some none
  | .list => none

/-- What the last request with an effect on a name has left it bound to. -/
def bound? (requests : List (Request α)) (name : String) : Option α :=
  (requests.reverse.findSome? (Request.effect name)).join

theorem bound?_concat (requests : List (Request α)) (request : Request α) (name : String) :
    bound? (requests ++ [request]) name = (request.effect name).getD (bound? requests name) := by
  rw [bound?, List.reverse_concat, List.findSome?_cons]
  cases request.effect name <;> rfl

/-- All that can be read off a registry. -/
@[ext] structure Answers (α : Type) where
  names : List String
  get? : String → Option α
  contains : String → Bool
  size : Nat
  isEmpty : Bool

/-- The answers that are right behind a run of requests. -/
structure Answers.Fit (answers : Answers α) (requests : List (Request α)) : Prop where
  get?_eq : ∀ name, answers.get? name = bound? requests name
  contains_eq : ∀ name, answers.contains name = (bound? requests name).isSome
  mem_names : ∀ name, name ∈ answers.names ↔ (bound? requests name).isSome = true
  nodup : answers.names.Nodup
  ordered : answers.names.Pairwise fun a b => Tag.precedes a b = true
  valid : ∀ name ∈ answers.names, Tag.validateName name = .ok ()
  size_eq : answers.size = answers.names.length
  isEmpty_eq : answers.isEmpty = answers.names.isEmpty

end Registry

open Registry (Request Answers bound?)

namespace Bindings

variable {α : Type}

/-- The bindings behind a request. A registration that is refused changes nothing. -/
def after (b : Bindings α) : Request α → Bindings α
  | .register name a =>
    match b.register name a with
    | .ok c => c
    | .error _ => b
  | .unregister name => b.unregister name
  | .clear => .empty
  | .list => b

def run (requests : List (Request α)) : Bindings α := requests.foldl after .empty

def answers (b : Bindings α) : Answers α := ⟨b.names, b.get?, b.contains, b.size, b.isEmpty⟩

theorem run_concat (requests : List (Request α)) (request : Request α) :
    run (requests ++ [request]) = (run requests).after request := List.foldl_concat ..

theorem register_error {name : String} {error : InvalidName}
    (h : Tag.validateName name = .error error) (b : Bindings α) (a : α) :
    b.register name a = .error error := by
  unfold Tag.validateName at h
  unfold register
  split at h
  · next fault hf =>
    split
    · next fault' hf' =>
      rw [hf] at hf'
      cases hf'
      cases h
      rfl
    · next hf' =>
      rw [hf] at hf'
      cases hf'
  · cases h

theorem get?_after (b : Bindings α) (request : Request α) (name : String) :
    (b.after request).get? name = (request.effect name).getD (b.get? name) := by
  cases request with
  | register other a =>
    rw [after, Request.effect]
    cases hv : Tag.validateName other with
    | error error =>
      have fault : ¬ Tag.nameFault? other = none := by
        rw [← Tag.validateName_eq_ok_iff, hv]
        nofun
      rw [register_error hv, if_neg fun h => fault h.2]
      rfl
    | ok _ =>
      obtain ⟨c, hc⟩ := exists_register hv b a
      rw [hc, get?_register hc]
      by_cases h : other = name
      · rw [if_pos h, if_pos ⟨h, Tag.validateName_eq_ok_iff.1 hv⟩]
        rfl
      · rw [if_neg h, if_neg fun h' => h h'.1]
        rfl
  | unregister other =>
    rw [after, get?_unregister, Request.effect]
    split <;> rfl
  | clear => rfl
  | list => rfl

theorem get?_run (requests : List (Request α)) (name : String) :
    (run requests).get? name = bound? requests name := by
  induction requests using List.reverseRecOn with
  | nil => rfl
  | append_singleton requests request ih =>
    rw [run_concat, get?_after, ih, Registry.bound?_concat]

theorem size_eq (b : Bindings α) : b.size = b.names.length := (List.length_map _).symm

theorem fit_run (requests : List (Request α)) : (run requests).answers.Fit requests where
  get?_eq := get?_run requests
  contains_eq name := congrArg Option.isSome (get?_run requests name)
  mem_names name := by
    rw [← get?_run]
    exact contains_iff.symm
  nodup := Tag.nodup_of_precedes (ordered_names _)
  ordered := ordered_names _
  valid _ := validateName_of_mem_names
  size_eq := size_eq _
  isEmpty_eq := by
    change List.isEmpty _ = List.isEmpty (List.map _ _)
    rw [List.isEmpty_map]

/-- Which names are listed, and in which order, is up to which of them are bound. -/
theorem names_congr {b c : Bindings α} (h : ∀ name, (c.get? name).isSome = (b.get? name).isSome) :
    c.names = b.names := by
  apply Tag.eq_of_precedes c.ordered_names b.ordered_names
  intro name
  rw [← contains_iff, ← contains_iff, contains, contains, h]

end Bindings

/-- A table in no order, and the ordered list of its names if one was asked for after the last
change. -/
structure Registry (α : Type) where
  table : Std.HashMap String α
  listing : Option (List String)

namespace Registry

variable {α : Type} {r : Registry α} {b : Bindings α}

def empty : Registry α := ⟨∅, none⟩

def register (r : Registry α) (name : String) (a : α) : Except InvalidName (Registry α) :=
  (Tag.validateName name).map fun _ => ⟨r.table.insert name a, none⟩

/-- A name that is not bound is no reason to make the list again. -/
def unregister (r : Registry α) (name : String) : Registry α :=
  if r.table.contains name then ⟨r.table.erase name, none⟩ else r

/-- The names, as they were listed before or listed anew. -/
def list (r : Registry α) : List String × Registry α :=
  match r.listing with
  | some names => (names, r)
  | none =>
    let names := Tag.longestFirst r.table.keys
    (names, ⟨r.table, some names⟩)

def after (r : Registry α) : Request α → Registry α
  | .register name a =>
    match r.register name a with
    | .ok s => s
    | .error _ => r
  | .unregister name => r.unregister name
  | .clear => .empty
  | .list => r.list.2

def run (requests : List (Request α)) : Registry α := requests.foldl after .empty

def answers (r : Registry α) : Answers α :=
  ⟨r.list.1, (r.table[·]?), r.table.contains, r.table.size, r.table.isEmpty⟩

/-- The table holds what is bound, and a list that was kept is the one that would be made now. -/
structure Mirrors (r : Registry α) (b : Bindings α) : Prop where
  get? : ∀ name, r.table[name]? = b.get? name
  listing : ∀ names, r.listing = some names → names = b.names

theorem Mirrors.contains (h : r.Mirrors b) (name : String) :
    r.table.contains name = b.contains name := by
  rw [Std.HashMap.contains_eq_isSome_getElem?, h.get?]
  rfl

theorem Mirrors.mem_keys (h : r.Mirrors b) {name : String} :
    name ∈ r.table.keys ↔ name ∈ b.names := by
  rw [Std.HashMap.mem_keys, ← Std.HashMap.contains_iff_mem, h.contains, Bindings.contains_iff]

theorem Mirrors.longestFirst_keys (h : r.Mirrors b) : Tag.longestFirst r.table.keys = b.names :=
  Tag.eq_of_precedes (Tag.pairwise_longestFirst _) b.ordered_names fun _ =>
    Tag.mem_longestFirst.trans h.mem_keys

theorem Mirrors.list_eq (h : r.Mirrors b) : r.list.1 = b.names := by
  rw [list]
  split
  · next names hl => exact h.listing names hl
  · exact h.longestFirst_keys

theorem Mirrors.size_eq (h : r.Mirrors b) : r.table.size = b.size := by
  have perm : r.table.keys.Perm b.names :=
    (List.perm_ext_iff_of_nodup Std.HashMap.nodup_keys
      (Tag.nodup_of_precedes b.ordered_names)).2 fun _ => h.mem_keys
  rw [← Std.HashMap.length_keys, perm.length_eq, b.size_eq]

theorem Mirrors.answers_eq (h : r.Mirrors b) : r.answers = b.answers := by
  have size := h.size_eq
  ext1
  · exact h.list_eq
  · exact funext h.get?
  · exact funext h.contains
  · exact size
  · change r.table.isEmpty = b.entries.isEmpty
    rw [Std.HashMap.isEmpty_eq_size_eq_zero, size, Bindings.size]
    cases b.entries <;> rfl

theorem Mirrors.register (h : r.Mirrors b) (name : String) (a : α) :
    (r.after (.register name a)).Mirrors (b.after (.register name a)) := by
  rw [after, Bindings.after, Registry.register]
  cases hv : Tag.validateName name with
  | error error =>
    rw [Bindings.register_error hv]
    exact h
  | ok _ =>
    obtain ⟨c, hc⟩ := Bindings.exists_register hv b a
    rw [hc]
    refine ⟨fun other => ?_, nofun⟩
    change (r.table.insert name a)[other]? = c.get? other
    rw [Std.HashMap.getElem?_insert, Bindings.get?_register hc, h.get?]
    simp only [beq_iff_eq]

theorem Mirrors.unregister (h : r.Mirrors b) (name : String) :
    (r.unregister name).Mirrors (b.unregister name) := by
  rw [Registry.unregister, h.contains]
  split
  · refine ⟨fun other => ?_, nofun⟩
    rw [Std.HashMap.getElem?_erase, Bindings.get?_unregister, h.get?]
    simp only [beq_iff_eq]
  · next absent =>
    have free : b.get? name = none := Option.not_isSome_iff_eq_none.1 absent
    have same (other : String) : (b.unregister name).get? other = b.get? other := by
      rw [Bindings.get?_unregister]
      split
      · next hn => rw [← hn, free]
      · rfl
    refine ⟨fun other => (h.get? other).trans (same other).symm, fun names hl => ?_⟩
    rw [h.listing names hl]
    exact (Bindings.names_congr fun other => congrArg Option.isSome (same other)).symm

theorem Mirrors.after (h : r.Mirrors b) (request : Request α) :
    (r.after request).Mirrors (b.after request) := by
  cases request with
  | register name a => exact h.register name a
  | unregister name => exact h.unregister name
  | clear => exact ⟨fun _ => Std.HashMap.getElem?_empty, nofun⟩
  | list =>
    change r.list.2.Mirrors b
    rw [Registry.list]
    split
    · exact h
    · refine ⟨h.get?, ?_⟩
      rintro names ⟨⟩
      exact h.longestFirst_keys

theorem mirrors_run (requests : List (Request α)) : (run requests).Mirrors (.run requests) := by
  induction requests using List.reverseRecOn with
  | nil => exact ⟨fun _ => Std.HashMap.getElem?_empty, nofun⟩
  | append_singleton requests request ih =>
    rw [run, List.foldl_concat, Bindings.run_concat]
    exact ih.after request

/-- Behind any run of requests the names that are listed are those that are bound, each once and
longest first, and all other answers agree. A name that is not valid is refused and leaves no trace.
The names that are bound decide the list, whatever the order of the requests and whenever the names
were read before; a registry that keeps its list between readings gives the same answers. -/
theorem registry_coherent (requests : List (Request α)) :
    (Bindings.run requests).answers.Fit requests ∧
    (run requests).answers = (Bindings.run requests).answers ∧
    (∀ name a, Tag.validateName name = .ok () → (Bindings.run requests).register name a =
      .ok (Bindings.run (requests ++ [.register name a]))) ∧
    (∀ name a error, Tag.validateName name = .error error →
      (Bindings.run requests).register name a = .error error ∧
      (run requests).register name a = .error error ∧
      (Bindings.run (requests ++ [.register name a])).answers = (Bindings.run requests).answers ∧
      (run (requests ++ [.register name a])).answers = (run requests).answers) ∧
    ∀ others : List (Request α),
      (∀ name, (bound? others name).isSome = (bound? requests name).isSome) →
      (run others).answers.names = (run requests).answers.names := by
  have same (requests : List (Request α)) :
      (run requests).answers = (Bindings.run requests).answers :=
    (mirrors_run requests).answers_eq
  refine ⟨Bindings.fit_run requests, same requests, ?_, ?_, ?_⟩
  · intro name a valid
    obtain ⟨c, hc⟩ := Bindings.exists_register valid (Bindings.run requests) a
    rw [Bindings.run_concat, Bindings.after, hc]
  · intro name a error invalid
    have refused := Bindings.register_error invalid (Bindings.run requests) a
    have unchanged : Bindings.run (requests ++ [.register name a]) = Bindings.run requests := by
      rw [Bindings.run_concat, Bindings.after, refused]
    refine ⟨refused, ?_, congrArg Bindings.answers unchanged, ?_⟩
    · rw [register, invalid]
      rfl
    · rw [same, same, unchanged]
  · intro others h
    rw [same, same]
    apply Bindings.names_congr
    intro name
    rw [Bindings.get?_run, Bindings.get?_run, h]

/-- Names that are read in between, replaced, refused, taken out without being there, and left behind
by another run. -/
theorem registry_coherent_reread :
    (let requests : List (Request Nat) := [.register "b" 1, .list, .register "ab" 2,
        .register "a b" 3, .register "b" 4, .list, .unregister "c", .unregister "ab",
        .register "ca" 5]
     let others : List (Request Nat) := [.register "x" 0, .list, .clear, .register "ca" 7, .list,
        .register "b" 1]
     let error : InvalidName := ⟨"a b", .reserved⟩
     Tag.validateName "a b" = .error error ∧
      (run requests).answers.names = ["ca", "b"] ∧ (run requests).answers.get? "b" = some 4 ∧
      (run requests).answers.size = 2 ∧
      (run requests).register "a b" 6 = .error error ∧
      (run (requests ++ [.register "a b" 6])).answers = (run requests).answers ∧
      (run others).answers.names = (run requests).answers.names) := by
  intro requests others error
  obtain ⟨fit, same, -, refused, agree⟩ := registry_coherent requests
  have invalid : Tag.validateName "a b" = .error error := rfl
  obtain ⟨-, refused, -, unchanged⟩ := refused "a b" 6 error invalid
  have names : (Bindings.run requests).answers.names = ["ca", "b"] := by decide +kernel
  refine ⟨invalid, ?_, ?_, ?_, refused, unchanged, agree others fun name => ?_⟩
  · rw [same, names]
  · rw [same, fit.get?_eq]
    decide +kernel
  · rw [same, fit.size_eq, names]
    rfl
  · have valid : Tag.nameFault? "b" = none ∧ Tag.nameFault? "ca" = none ∧
        Tag.nameFault? "ab" = none ∧ Tag.nameFault? "a b" = some .reserved := by decide +kernel
    by_cases hb : "b" = name
    · subst hb
      simp [bound?, requests, others, Request.effect, List.findSome?_cons, valid]
    · by_cases hc : "ca" = name
      · subst hc
        simp [bound?, requests, others, Request.effect, List.findSome?_cons, valid]
      · by_cases ha : "ab" = name <;> by_cases hd : "c" = name <;>
          simp [bound?, requests, others, Request.effect, List.findSome?_cons, hb, hc, ha, hd, valid]

end Registry

end Shortcode
