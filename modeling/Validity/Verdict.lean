import Validity.Inspection

/-!
Outcomes of checks and verdicts of proofs, whichever solver answered. The reasons why a solver
gave up come as free text; timeouts and interruptions are told apart, all else is kept.
-/
namespace Validity

inductive Result where
  | sat
  | unsat
  | unknown
  deriving DecidableEq, Repr

def Result.text : Result → String
  | .sat => "sat"
  | .unsat => "unsat"
  | .unknown => "unknown"

/-- The result in a solver's output. `unsat` is looked for first, since it contains `sat`. -/
def Result.ofOutput (output : String) : Result :=
  if Text.occursIn "unsat".toList output.toList then .unsat
  else if Text.occursIn "sat".toList output.toList then .sat
  else .unknown

inductive Reason where
  | timeout
  | interrupted
  | other (detail : String)
  deriving DecidableEq, Repr

namespace Reason

def parse (text : Option String) : Reason :=
  let s := Text.trimmed (text.getD "")
  if s = "timeout" then .timeout
  else if s = "canceled" ∨ s = "interrupted" then .interrupted
  -- a blank text says as little as none
  else if s = "" then .other "unknown"
  else .other s

def kind : Reason → String
  | .timeout => "timeout"
  | .interrupted => "interrupted"
  | .other _ => "other"

def detail : Reason → String
  | .other d => d
  | _ => ""

def text : Reason → String
  | .other d => d
  | r => r.kind

end Reason

structure Outcome where
  result : Result
  model : Option Model := none
  reason : Option Reason := none
  solver : String := "unknown"
  millis : Binary := .zero

def Outcome.text (o : Outcome) : String :=
  let source := " (" ++ o.solver ++ ", " ++ o.millis.fixed 2 ++ "ms)"
  match o.result with
  | .unknown => "unknown (reason: " ++ (o.reason.map Reason.text).getD "None" ++ ")" ++ source
  | r => r.text ++ source

inductive Status where
  | proof
  | counterexample
  | unknown
  deriving DecidableEq, Repr

def Status.text : Status → String
  | .proof => "proof"
  | .counterexample => "counterexample"
  | .unknown => "unknown"

/-- The verdict on an obligation. That the fields fit the status is up to those who make one. -/
structure Verdict where
  status : Status
  model : Option Inspection := none
  reason : Option Reason := none

namespace Verdict

def proof : Verdict := { status := .proof }

def counterexample (i : Inspection) : Verdict := { status := .counterexample, model := some i }

def unknown (why : Reason) : Verdict := { status := .unknown, reason := some why }

def holds (v : Verdict) : Bool := v.status = .proof

def text (v : Verdict) : String :=
  match v.status with
  | .proof => "Proof"
  | .counterexample => "Counterexample"
  | .unknown => "Unknown (reason: " ++ (v.reason.map Reason.text).getD "None" ++ ")"

end Verdict

def Outcome.verdict (o : Outcome) : Except Error Verdict :=
  -- the obligations were asserted as their negations, so a refutation is a proof
  match o.result, o.model with
  | .unsat, _ => .ok .proof
  | .sat, some m => .ok (.counterexample (.ofModel m))
  | .sat, none => .error .noCounterexample
  | .unknown, _ => .ok (.unknown (o.reason.getD (.other "unknown")))

structure Run where
  result : Result
  stdout : String
  stderr : String
  status : Int
  timedOut : Bool := false
  millis : Binary := .zero

def Run.complaint (r : Run) : String :=
  let out := Text.trim r.stdout.toList
  let err := Text.trim r.stderr.toList
  if !out.isEmpty then String.ofList (Text.firstLine out)
  else if !err.isEmpty then String.ofList (Text.firstLine err)
  else "unknown"

/-- The outcome of a run. Models are not read back, so a satisfiable problem stays unknown. -/
def Run.outcome (r : Run) (solver : String := "swine") : Outcome :=
  let unknown (why : Reason) : Outcome :=
    { result := .unknown, reason := some why, solver, millis := r.millis }
  if r.timedOut then unknown .timeout
  else
    match r.result with
    | .unsat => { result := .unsat, solver, millis := r.millis }
    | .sat => unknown (.other "sat-without-model")
    | .unknown => unknown (.other r.complaint)

end Validity
