import Validity.Model.Eval
import Validity.Tracker
import Validity.Value

/-!
Models that remember which of their parts were looked at, so that what a reader understood can be
told from what nobody asked for. A block of readings that fails leaves no marks.
-/
namespace Validity

inductive Consistency where
  | consistent
  | unknown
  deriving DecidableEq, Repr

def Consistency.text : Consistency → String
  | .consistent => "consistent"
  | .unknown => "unknown"

/-- A model under inspection. Completion may extend the model, so the symbols of the assignment
itself are kept apart. While `fault` is set, evaluation fails with that cause. -/
structure Inspection where
  model : Model
  consistency : Consistency := .consistent
  symbols : List Symbol := model.symbols
  tracker : Tracker := {}
  fault : Option String := none

/-- Readings: they change the inspection, also when they fail. -/
abbrev Reading := ExceptT Error (StateM Inspection)

namespace Inspection

def ofModel (m : Model) (c : Consistency := .consistent) : Inspection :=
  { model := m, consistency := c }

def openBlock (i : Inspection) : Nat × Inspection :=
  (i.tracker.trail.length, { i with tracker := i.tracker.begin })

def closeBlock (i : Inspection) (mark : Nat) (succeeded : Bool) : Inspection :=
  { i with tracker := if succeeded then i.tracker.commit else i.tracker.rollback mark }

def track (i : Inspection) (f : Tracker → Tracker) : Inspection :=
  { i with tracker := f i.tracker }

def reset (i : Inspection) : Inspection :=
  { i with tracker := {} }

def unaccessed (i : Inspection) : List Symbol :=
  i.symbols.filter fun f => !i.tracker.names.contains f.name

def next (i : Inspection) (rest : List Symbol) : Option Symbol × List Symbol :=
  match rest.dropWhile fun f => i.tracker.names.contains f.name with
  | [] => (none, [])
  | f :: fs => (some f, fs)

def describe (i : Inspection) : String :=
  "InstrumentedModel(" ++ i.consistency.text ++ ", " ++ toString i.symbols.length ++ " decls)"

end Inspection

namespace Reading

def atomically {α : Type} (body : Reading α) : Reading α :=
  ExceptT.mk fun i =>
    let (mark, i) := i.openBlock
    let (result, j) := ExceptT.run body i
    (result, j.closeBlock mark result.isOk)

def eval (t : Term) (complete : Bool := true) : Reading Term := do
  -- the term is marked before its evaluation can fail
  modify fun i => i.track (·.visit t)
  let i ← get
  match i.fault with
  | some cause => throw (.noValue t cause)
  | none =>
    let (v, m) := i.model.eval complete t
    set { i with model := m }
    return v

def bool (t : Term) : Reading Bool :=
  atomically do ExceptT.mk (pure (← eval t).readBool)

def int (t : Term) : Reading Int :=
  atomically do ExceptT.mk (pure (← eval t).readInt)

def rational (t : Term) : Reading Rat :=
  atomically do ExceptT.mk (pure (← eval t).readRational)

def interpretation (f : Symbol) : Reading (Option Interpretation) := do
  modify fun i => i.track (·.addName f.name)
  let i ← get
  match i.model.interpretation? f with
  | some v => return some v
  -- a constant may be without a value, a function may not
  | none => if f.domain.isEmpty then return none else throw (.solver .noInterpretation)

end Reading
end Validity
