import ContractCoverage.Fault

/-! The journal: what a step reports while it runs.

A step that may fail and writes to the journal is a `Logged` computation. Its events
are those of the part that ran, whether it failed or not. `result_bind` says that the
journal never changes the result. -/
namespace ContractCoverage

/-- How important an event is. -/
inductive Level where
  | debug
  | info
  | warning
  | error
  deriving DecidableEq, Repr

/-- A line of the journal. -/
structure Event where
  level : Level
  message : String
  deriving DecidableEq, Repr

/-- A computation that may fail, with the events it has written. -/
structure Logged (α : Type) where
  events : List Event
  result : Except Fault α

namespace Logged
variable {α β : Type}

instance : Monad Logged where
  pure a := ⟨[], .ok a⟩
  bind x f :=
    match x.result with
    | .error fault => ⟨x.events, .error fault⟩
    | .ok a =>
      let y := f a
      ⟨x.events ++ y.events, y.result⟩

/-- A computation that writes nothing. -/
def ofExcept (x : Except Fault α) : Logged α := ⟨[], x⟩

instance : MonadLift (Except Fault) Logged := ⟨ofExcept⟩

/-- Writes an event. -/
def write (level : Level) (message : String) : Logged Unit :=
  ⟨[⟨level, message⟩], .ok ()⟩

/-- Ends a computation with a fault. -/
def fail (fault : Fault) : Logged α := ⟨[], .error fault⟩

@[simp] theorem result_pure (a : α) : (pure a : Logged α).result = .ok a := rfl

theorem result_bind (x : Logged α) (f : α → Logged β) :
    (x >>= f).result = x.result >>= fun a => (f a).result := by
  obtain ⟨events, result⟩ := x
  cases result <;> rfl

@[simp] theorem result_ofExcept (x : Except Fault α) : (ofExcept x).result = x := rfl

@[simp] theorem result_write (level : Level) (message : String) :
    (write level message).result = .ok () := rfl

end Logged

/-- What a step on a state leads to: the state after it, also when it failed, the events it wrote
and its answer. -/
structure Outcome (σ α : Type) where
  state : σ
  events : List Event
  result : Except Fault α

end ContractCoverage
