import QueryProjection.Fault
import QueryProjection.Notice

/-!
# Computations that report

A `Logged` computation ends with a value or a fault, and either way with the notices that
it made up to there, oldest first.  Running one after another joins the notices; a fault
ends the run and keeps the notices made before it.
-/

namespace QueryProjection

/-- A result with the notices made on the way. -/
structure Logged (α : Type u) where
  result : Except Fault α
  notices : List Notice
  deriving Repr

namespace Logged

variable {α : Type u} {β : Type v}

def done (value : α) : Logged α := { result := .ok value, notices := [] }

def stop (fault : Fault) : Logged α := { result := .error fault, notices := [] }

def note (notice : Notice) : Logged Unit := { result := .ok (), notices := [notice] }

def andThen (first : Logged α) (second : α → Logged β) : Logged β :=
  match first.result with
  | .error fault => { result := .error fault, notices := first.notices }
  | .ok value =>
      let last := second value
      { result := last.result, notices := first.notices ++ last.notices }

instance : Monad Logged where
  pure := done
  bind := andThen

instance : LawfulMonad Logged := LawfulMonad.mk' Logged
  (by
    intro α x
    obtain ⟨result, notices⟩ := x
    cases result <;> simp [Functor.map, andThen, done])
  (by
    intro α β x f
    simp [pure, bind, andThen, done])
  (by
    intro α β γ x f g
    obtain ⟨result, notices⟩ := x
    cases result with
    | error fault => rfl
    | ok value =>
        simp only [bind, andThen]
        cases (f value).result <;> simp)

end Logged

end QueryProjection
