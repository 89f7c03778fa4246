import MethodIR.Body.Edit
import MethodIR.Event

/-!
# Traced computations

A computation over a state that reports events and may fail. A failure keeps the state and the
events up to it.
-/

namespace MethodIR

/-- A state with the events reported so far. -/
structure Trace (σ : Type) where
  state : σ
  log : Array Event := #[]

/-- A computation that changes a state, reports events and may fail. -/
abbrev Traced (σ : Type) := EStateM Error (Trace σ)

namespace Traced

variable {σ τ α : Type}

def report (e : Event) : Traced σ Unit := modify fun t => { t with log := t.log.push e }

def getState : Traced σ σ := do return (← get).state

def setState (s : σ) : Traced σ Unit := modify fun t => { t with state := s }

def modifyState (f : σ → σ) : Traced σ Unit := modify fun t => { t with state := f t.state }

def zoom (part : σ → τ) (put : τ → σ → σ) (x : Traced τ α) : Traced σ α := fun t =>
  match x ⟨part t.state, t.log⟩ with
  | .ok a u => .ok a ⟨put u.state t.state, u.log⟩
  | .error e u => .error e ⟨put u.state t.state, u.log⟩

def ofEdit (x : Edit α) : Traced Body α := fun t =>
  match x t.state with
  | .ok a body => .ok a { t with state := body }
  | .error e body => .error e { t with state := body }

def on (s : τ) (x : Traced τ α) : Traced σ α := zoom (fun _ => s) (fun _ t => t) x

/-- The outcome of a computation as a value. What names something out of range still fails. -/
def attempt (x : Traced σ α) : Traced σ (Except Error α) := fun t =>
  match x t with
  | .ok a t => .ok (.ok a) t
  | .error .outOfRange t => .error .outOfRange t
  | .error e t => .ok (.error e) t

def run (x : Traced σ α) (s : σ) (log : Array Event) : Except Error α × Trace σ :=
  match x ⟨s, log⟩ with
  | .ok a t => (.ok a, t)
  | .error e t => (.error e, t)

end Traced

end MethodIR
