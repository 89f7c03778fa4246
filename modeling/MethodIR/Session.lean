import MethodIR.Clone
import MethodIR.Promotion.Basic

/-!
# Sessions

Several bodies worked on side by side, with one set of cached analyses. A step that fails leaves
what it has done.
-/

namespace MethodIR

/-- Bodies with their analyses and the events so far. -/
structure Session where
  bodies : Array Body
  analyses : Analyses := {}
  log : Array Event := #[]
  deriving Inhabited

namespace Session

abbrev Step := EStateM Error Session

variable {α : Type}

def body (m : Nat) : Step Body := do
  match (← get).bodies[m]? with
  | some body => return body
  | none => throw .outOfRange

def setBody (m : Nat) (body : Body) : Step Unit :=
  modify fun s => { s with bodies := s.bodies.setIfInBounds m body }

def addBody (body : Body) : Step Nat :=
  modifyGet fun s => (s.bodies.size, { s with bodies := s.bodies.push body })

def edit (m : Nat) (x : Edit α) : Step α := do
  match x (← body m) with
  | .ok a body => setBody m body; return a
  | .error e body => setBody m body; throw e

def analyze (m : Nat) (x : Body → Traced Analyses α) : Step α := do
  let body ← body m
  fun s =>
    match x body ⟨s.analyses, s.log⟩ with
    | .ok a t => .ok a { s with analyses := t.state, log := t.log }
    | .error e t => .error e { s with analyses := t.state, log := t.log }

def transform (m : Nat) (x : Traced Transform α) : Step α := do
  let body ← body m
  let s ← get
  match x ⟨{ body }, s.log⟩ with
  | .ok a t => set { s with log := t.log }; setBody m t.state.body; return a
  | .error e t => set { s with log := t.log }; setBody m t.state.body; throw e

/-- Copies blocks into a body and gives what the cloner knows then. -/
def clone (m : Nat) (cloner : Cloner) (x : Clone α) : Step (α × Cloner) := do
  match x { cloner, target := ← body m } with
  | .ok a s => setBody m s.target; return (a, s.cloner)
  | .error e s => setBody m s.target; throw e

/-- The version of the control-flow graph of a body, if there is that body. -/
def version? (s : Session) (m : Nat) : Option Nat := s.bodies[m]?.map Body.cfgVersion

end Session

end MethodIR
