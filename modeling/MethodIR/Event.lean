import MethodIR.Inst.Operator
import MethodIR.Ident
import MethodIR.Variable

/-!
# Events

What the importer, the analyses and the promotion of variables report about their work.
-/

namespace MethodIR

/-- How much an event matters. -/
inductive Level where
  | warn | debug | trace
  deriving DecidableEq, Repr, Inhabited

namespace Level

def name : Level → String
  | warn => "WARN" | debug => "DEBUG" | trace => "TRACE"

def rank : Level → Nat
  | warn => 0 | debug => 1 | trace => 2

def ofName? (s : String) : Option Level := [warn, debug, trace].find? (·.name == s)

end Level

/-- The analyses that are cached. -/
inductive AnalysisName where
  | dominatorTree | dominanceFrontier
  deriving DecidableEq, Repr, Inhabited

def AnalysisName.text : AnalysisName → String
  | dominatorTree => "dominator_tree" | dominanceFrontier => "dominance_frontier"

/-- Something worth reporting. -/
inductive Event where
  | undefinedRead (var : VarId) (origin : Variable.Origin) (load : InstId)
  | imported (blocks guards vars : Nat)
  | promoted (phis deadPhis stores loads undefined : Nat)
  | compiled (blocks : Nat)
  | dedicatedEntry (entry first : BlockId)
  | installedGuard (guard : InstId) (start handler : BlockId) (kind : GuardKind)
  | splitTryStart (split start : BlockId)
  | lowered (block : BlockId) (start stop : Nat)
  | crossesRegion (var : VarId) (origin : Variable.Origin)
  | computing (analysis : AnalysisName)
  | staleEntry (analysis : AnalysisName)
  | insertedPhi (phi : InstId) (var : VarId) (block : BlockId)
  | nothingToPromote
  | passFinished (pass invalidations : String)
  deriving DecidableEq, Repr, Inhabited

namespace Event

def level : Event → Level
  | undefinedRead .. => .warn
  | imported .. | promoted .. | compiled _ => .debug
  | _ => .trace

def message : Event → String
  | undefinedRead .. => "variable read before any definition"
  | imported .. => "imported method"
  | promoted .. => "promoted variables"
  | compiled _ => "compiled method"
  | dedicatedEntry .. => "offset 0 has predecessors, created a dedicated entry block"
  | installedGuard .. => "installed guard"
  | splitTryStart .. => "split try start for an enclosing region"
  | lowered .. => "translated block"
  | crossesRegion .. => "variable crosses an exception region"
  | computing _ => "computing"
  | staleEntry _ => "stale cache entry"
  | insertedPhi .. => "inserted phi"
  | nothingToPromote => "no promotable variable accesses"
  | passFinished .. => "pass finished"

/-- The value of a field: a text or a number. -/
inductive FieldValue where
  | text (s : String)
  | number (n : Nat)
  deriving DecidableEq, Repr, Inhabited

def fields : Event → List (String × FieldValue)
  | undefinedRead v o l =>
    [("var", .text v.text), ("origin", .text o.text), ("load", .text l.text)]
  | imported b g v => [("blocks", .number b), ("guards", .number g), ("vars", .number v)]
  | promoted p d s l u =>
    [("phis", .number p), ("dead_phis", .number d), ("stores", .number s), ("loads", .number l),
     ("undefined", .number u)]
  | compiled b => [("blocks", .number b)]
  | dedicatedEntry e f => [("entry", .text e.text), ("first", .text f.text)]
  | installedGuard g s h k =>
    [("guard", .text g.text), ("start", .text s.text), ("handler", .text h.text),
     ("kind", .text k.title)]
  | splitTryStart s t => [("split", .text s.text), ("start", .text t.text)]
  | lowered b s e => [("block", .text b.text), ("start", .number s), ("end", .number e)]
  | crossesRegion v o => [("var", .text v.text), ("origin", .text o.text)]
  | computing a | staleEntry a => [("analysis", .text a.text)]
  | insertedPhi p v b => [("phi", .text p.text), ("var", .text v.text), ("block", .text b.text)]
  | nothingToPromote => []
  | passFinished p i => [("pass", .text p), ("invalidations", .text i)]

end Event

end MethodIR
