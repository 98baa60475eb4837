import QueryProjection.Logged
import QueryProjection.Registry

/-!
# Compilation steps

A step of a compilation may report, may fail, and may look up model fields.  What it
reports is handed on in order, and what the registry remembers is kept, whether the step
succeeds or fails: a later compilation with the same registry starts from there.
-/

namespace QueryProjection

/-- How a step ends. -/
structure Outcome (α : Type) where
  result : Except Fault α
  notices : List Notice
  memory : Memory
  deriving Repr

/-- The outcome without what is remembered. -/
def Outcome.logged {α : Type} (outcome : Outcome α) : Logged α :=
  { result := outcome.result, notices := outcome.notices }

/-- A step of a compilation, started with what the registry remembers. -/
def Compile (α : Type) : Type := Memory → Outcome α

namespace Compile

variable {α β : Type}

def done (value : α) : Compile α := fun memory =>
  { result := .ok value, notices := [], memory }

def stop (fault : Fault) : Compile α := fun memory =>
  { result := .error fault, notices := [], memory }

def andThen (first : Compile α) (second : α → Compile β) : Compile β := fun memory =>
  let before := first memory
  match before.result with
  | .error fault => { result := .error fault, notices := before.notices, memory := before.memory }
  | .ok value =>
      let after := second value before.memory
      { result := after.result, notices := before.notices ++ after.notices,
        memory := after.memory }

instance : Monad Compile where
  pure := done
  bind := andThen

def note (notice : Notice) : Compile Unit := fun memory =>
  { result := .ok (), notices := [notice], memory }

def remembered : Compile Memory := fun memory => { result := .ok memory, notices := [], memory }

/-- A computation that looks nothing up. -/
def ofLogged (computation : Logged α) : Compile α := fun memory =>
  { result := computation.result, notices := computation.notices, memory }

def ofLookup (lookup : Lookup α) : Compile α := fun memory =>
  let (result, after) := lookup.run memory
  { result, notices := [], memory := after }

instance : LawfulMonad Compile := LawfulMonad.mk' Compile
  (by
    intro α x
    funext memory
    simp only [Functor.map, andThen, done, Function.comp]
    cases x memory with
    | mk result notices after => cases result <;> simp)
  (by
    intro α β value f
    funext memory
    simp [pure, bind, andThen, done])
  (by
    intro α β γ x f g
    funext memory
    simp only [bind, andThen]
    cases x memory with
    | mk result notices after =>
        cases result with
        | error fault => rfl
        | ok value =>
            simp only
            cases f value after with
            | mk result' notices' after' => cases result' <;> simp)

/-! ### Running one step after another -/

theorem bind_of_ok {first : Compile α} {second : α → Compile β} {memory : Memory} {value : α}
    (h : (first memory).result = .ok value) :
    (first >>= second) memory =
      { result := (second value (first memory).memory).result
        notices := (first memory).notices ++ (second value (first memory).memory).notices
        memory := (second value (first memory).memory).memory } := by
  show andThen first second memory = _
  simp only [andThen, h]

theorem bind_of_error {first : Compile α} {second : α → Compile β} {memory : Memory}
    {fault : Fault} (h : (first memory).result = .error fault) :
    (first >>= second) memory =
      { result := .error fault, notices := (first memory).notices,
        memory := (first memory).memory } := by
  show andThen first second memory = _
  simp only [andThen, h]

end Compile

end QueryProjection
