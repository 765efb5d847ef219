namespace Shortcode

/-- Callbacks with their priorities, in the order in which they run. -/
structure Chain (α : Type) where
  entries : List (Int × α)

namespace Chain

variable {α β : Type}

def empty : Chain α := ⟨[]⟩

/-- A callback runs after all that were added before it with the same priority or a lower one. -/
def add (chain : Chain α) (priority : Int) (callback : α) : Chain α :=
  ⟨chain.entries.takeWhile (·.1 ≤ priority) ++ (priority, callback)
    :: chain.entries.dropWhile (·.1 ≤ priority)⟩

def callbacks (chain : Chain α) : List α := chain.entries.map (·.2)

def size (chain : Chain α) : Nat := chain.entries.length

def isEmpty (chain : Chain α) : Bool := chain.entries.isEmpty

/-- Hands a value from callback to callback. Before each of them `called` runs, with its place in
the chain. -/
def handOn {m : Type → Type} [Monad m] (called : Nat → m Unit) (apply : α → β → β) :
    Nat → List α → β → m β
  | _, [], value => pure value
  | index, callback :: callbacks, value => do
    called index
    handOn called apply (index + 1) callbacks (apply callback value)

def foldM {m : Type → Type} [Monad m] (chain : Chain α) (called : Nat → m Unit)
    (apply : α → β → β) (value : β) : m β :=
  handOn called apply 0 chain.callbacks value

/-- `foldM` where nothing runs for a call. -/
def fold (chain : Chain α) (apply : α → β → β) (value : β) : β :=
  Id.run (chain.foldM (fun _ => pure ()) apply value)

theorem handOn_silent {m : Type → Type} [Monad m] [LawfulMonad m] (apply : α → β → β)
    (index : Nat) (callbacks : List α) (value : β) :
    (handOn (fun _ => pure ()) apply index callbacks value : m β) =
      pure (callbacks.foldl (fun current callback => apply callback current) value) := by
  induction callbacks generalizing index value with
  | nil => rfl
  | cons callback callbacks ih => rw [handOn, pure_bind, ih, List.foldl_cons]

theorem fold_eq_foldl (chain : Chain α) (apply : α → β → β) (value : β) :
    chain.fold apply value =
      chain.callbacks.foldl (fun current callback => apply callback current) value :=
  handOn_silent (m := Id) apply 0 chain.callbacks value

/-- What runs for each call changes nothing that is handed on. -/
theorem foldM_silent {m : Type → Type} [Monad m] [LawfulMonad m] (chain : Chain α)
    (apply : α → β → β) (value : β) :
    (chain.foldM (fun _ => pure ()) apply value : m β) = pure (chain.fold apply value) := by
  rw [fold_eq_foldl, foldM, handOn_silent]

/-- Lists the priorities in the order in which the callbacks run. -/
def describe (chain : Chain α) : String :=
  let priorities := ", ".intercalate (chain.entries.map (toString ·.1))
  "FilterChain \x7b priorities: [" ++ priorities ++ "] \x7d"

end Chain
end Shortcode
