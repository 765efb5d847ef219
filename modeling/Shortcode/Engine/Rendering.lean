import Shortcode.Event

namespace Shortcode

/-- Work that reports events and asks for other texts to be expanded. Whoever runs it answers the
requests, so a handler needs to know nothing of the engine that it works for. -/
inductive Rendering (α : Type) where
  | done (value : α)
  | report (event : Event) (next : Rendering α)
  | expand (text : String) (next : String → Rendering α)

namespace Rendering

variable {α β : Type}

def bind (r : Rendering α) (f : α → Rendering β) : Rendering β :=
  match r with
  | done value => f value
  | report event next => .report event (next.bind f)
  | expand text next => .expand text fun answer => (next answer).bind f

instance : Monad Rendering where
  pure := done
  bind := bind

instance : LawfulMonad Rendering := LawfulMonad.mk' Rendering
  (fun r => by
    induction r with
    | done _ => rfl
    | report _ _ ih => exact congrArg (report _) ih
    | expand _ _ ih => exact congrArg (expand _) (funext ih))
  (fun _ _ => rfl)
  (fun r _ _ => by
    induction r with
    | done _ => rfl
    | report _ _ ih => exact congrArg (report _) ih
    | expand _ _ ih => exact congrArg (expand _) (funext ih))

/-- Asks for a text with its tags expanded. -/
def ask (text : String) : Rendering String := .expand text .done

def ofLogged (x : Logged α) : Rendering α := x.log.foldr report (.done x.value)

/-- Runs the work to its end, or to the first request that `answer` does not fulfil. -/
def run (answer : String → Logged (Option String)) : Rendering α → Logged (Option α)
  | done value => ⟨some value, []⟩
  | report event next => ⟨(next.run answer).value, event :: (next.run answer).log⟩
  | expand text next => (answer text).andThen fun s => (next s).run answer

/-- Work runs piece by piece. -/
theorem run_bind (answer : String → Logged (Option String)) (r : Rendering α)
    (f : α → Rendering β) :
    (r >>= f).run answer = (r.run answer).andThen fun a => (f a).run answer := by
  change (r.bind f).run answer = _
  induction r with
  | done a => rfl
  | report event next ih =>
    simp only [bind, run, ih, Logged.andThen]
    cases (next.run answer).value <;> rfl
  | expand text next ih =>
    simp only [bind, run, Logged.andThen]
    cases (answer text).value with
    | none => rfl
    | some s =>
      simp only [ih, Logged.andThen]
      cases ((next s).run answer).value with
      | none => rfl
      | some a => simp only [List.append_assoc]

@[simp] theorem run_ofLogged (answer : String → Logged (Option String)) (x : Logged α) :
    (ofLogged x).run answer = ⟨some x.value, x.log⟩ := by
  obtain ⟨value, log⟩ := x
  induction log with
  | nil => rfl
  | cons event log ih =>
    change Logged.mk ((ofLogged ⟨value, log⟩).run answer).value
      (event :: ((ofLogged ⟨value, log⟩).run answer).log) = _
    rw [ih]

/-- Work that has only reported so far goes on with its value. -/
theorem ofLogged_bind (x : Logged α) (f : α → Rendering β) :
    ofLogged x >>= f = x.log.foldr report (f x.value) := by
  obtain ⟨value, log⟩ := x
  induction log with
  | nil => rfl
  | cons event log ih => exact congrArg (report event) ih

end Rendering
end Shortcode
