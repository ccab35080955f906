import Validity.Launch
import Validity.Session

/-!
Provers: validity by refutation. Assumptions are asserted as they are and obligations negated, so
that the obligations follow, at least one of them, if the assertions have no model. As long as no
obligation is asserted there is nothing to refute, and no solver is asked. The settings of a prover
can be overridden by the environment.
-/
namespace Validity

structure Config where
  executable : String := "swine"
  timeLimit : Option Scalar := none
  runLimit : Option Scalar := none
  unsupported : Command.Filter := {}

/-- The seconds that one run of the external solver may take. A limit that is no number is left
out: it counts as none. -/
def Config.runSeconds (c : Config) : Option Binary := c.runLimit.bind Scalar.toBinary?

abbrev Environment := List (String × String)

def Environment.get? (env : Environment) (name : String) : Option String :=
  (env.lookup name).filter (· ≠ "")

def Config.ofEnvironment (env : Environment) : Except Error Config :=
  let executable := (env.get? "PROVEKIT_SWINE").getD "swine"
  match env.get? "PROVEKIT_TIMEOUT_MS" with
  | none => .ok { executable }
  | some text =>
    match Text.readInteger text with
    | .ok n => .ok { executable, timeLimit := some (.whole n) }
    | .error _ => .error (.timeLimit text)

def Config.isDefault (c : Config) : Bool :=
  c.executable = "swine" && c.timeLimit.isNone && c.runLimit.isNone && c.unsupported = {}

inductive Backend where
  | internal
  | external
  deriving DecidableEq, Repr

def Backend.text : Backend → String
  | .internal => "z3"
  | .external => "swine"

structure Submission where
  report : Except Error Launch
  received : Option (List UInt8) := none

structure Engines where
  decide : Decider
  submit : (argv : List String) → (limit : Option Binary) → (problem : String) → Submission

/-- A prover. The level is the number of open scopes, and the marker is the lowest level at which
an obligation is asserted. -/
structure Prover where
  session : Session := {}
  backend : Backend := .internal
  config : Config := {}
  level : Nat := 0
  marker : Option Nat := none

structure Report (α : Type) where
  answer : Except Error α
  asked : Option (List Term) := none
  received : Option (List UInt8) := none
  warnings : List String := []

namespace Prover

def create (backend : Backend) (config : Config) : Except Error Prover := do
  let session ← match config.timeLimit with
    | none => pure {}
    | some limit => Session.setTimeLimit {} limit
  return { session, backend, config }

def solver (p : Prover) : Solver := .ofName p.config.executable

def assume (p : Prover) (t : Term) : Except Error Prover := do
  return { p with session := ← p.session.add t }

def require (p : Prover) (t : Term) : Except Error Prover := do
  if t.ty ≠ .bool then throw (.solver .notBoolean)
  -- while the marker is set no level is below it, so it stays where it is
  return { p with session := ← p.session.add t.not, marker := p.marker.or (some p.level) }

def push (p : Prover) : Prover :=
  { p with session := p.session.push, level := p.level + 1 }

def pop (p : Prover) : Except Error Prover := do
  if p.level = 0 then throw .scope
  let level := p.level - 1
  return { p with session := ← p.session.pop, level, marker := p.marker.filter (· ≤ level) }

def setTimeLimit (p : Prover) (limit : Scalar) : Except Error Prover := do
  return { p with session := ← p.session.setTimeLimit limit }

def modelWarnings (r : Run) (solver : String) : List String :=
  if r.result = .sat then
    [solver ++ " answered sat; counterexample extraction is not supported"]
  else []

def checkExternal (p : Prover) (e : Engines) (assumptions : List Term) : Report Outcome :=
  match p.session.problem p.config.unsupported assumptions with
  | .error err => { answer := .error err }
  | .ok text =>
    let s := p.solver
    let sent := e.submit s.argv p.config.runSeconds text
    match sent.report.bind (Launch.run (s.argv.headD "")) with
    | .error err => { answer := .error err, received := sent.received }
    | .ok run =>
      { answer := .ok (run.outcome s.name)
        received := sent.received
        warnings := run.warnings s.name ++ modelWarnings run s.name }

def outcome (p : Prover) (e : Engines) (assumptions : List Term) : Report Outcome × Prover :=
  match p.backend with
  | .internal =>
    let (answer, session) := p.session.check e.decide assumptions
    ({ answer, asked := some assumptions }, { p with session })
  | .external => (p.checkExternal e assumptions, p)

/-- Checks whether the obligations follow under assumptions. Without an obligation they do. -/
def check (p : Prover) (e : Engines) (assumptions : List Term) : Report Verdict × Prover :=
  match p.marker with
  | none => ({ answer := .ok .proof }, p)
  | some _ =>
    let (r, p) := p.outcome e assumptions
    ({ r with answer := r.answer.bind Outcome.verdict }, p)

def checkSat (p : Prover) (e : Engines) : Report Result × Prover :=
  let (answer, session) := p.session.check e.decide []
  ({ answer := answer.map Outcome.result, asked := some [] }, { p with session })

def bindable (t : Term) : Except Error Symbol :=
  match t with
  | .app f [] => .ok f
  | _ => .error (.solver .notBindable)

def refutation (universal : List Symbol) (assertions : List Term) : Term :=
  -- neither an empty conjunction nor an empty quantifier is written
  let body := Term.not (if assertions.isEmpty then .bool true else .and assertions)
  if universal.isEmpty then body else .quant .all universal body

def existsForall (p : Prover) (universal : List Term) : Except Error Prover := do
  if universal.any fun t => !t.children.isEmpty then throw (.solver .notConstant)
  let constants ← universal.mapM bindable
  let q ← create .internal p.config
  q.assume (refutation constants p.session.assertions)

def describe (p : Prover) : String :=
  "Prover(" ++ p.backend.text ++ ", level=" ++ toString p.level ++ ")"

end Prover

inductive Operation where
  | assume (t : Term)
  | require (t : Term)
  | push
  | pop
  | setTimeLimit (limit : Scalar)
  | check (assumptions : List Term)
  | checkSat
  | model
  | core
  | reason
  | smtlib

inductive Response where
  | done
  | verdict (v : Verdict)
  | result (r : Result)
  | model (m : Option Model)
  | core (ts : List Term)
  | reason (r : Reason)
  | text (s : String)

namespace Prover

def changed (p : Prover) : Except Error Prover → Report Response × Prover
  | .ok q => ({ answer := .ok .done }, q)
  | .error e => ({ answer := .error e }, p)

def perform (p : Prover) (e : Engines) : Operation → Report Response × Prover
  | .assume t => p.changed (p.assume t)
  | .require t => p.changed (p.require t)
  | .push => p.changed (.ok p.push)
  | .pop => p.changed p.pop
  | .setTimeLimit limit => p.changed (p.setTimeLimit limit)
  | .check assumptions =>
    let (r, q) := p.check e assumptions
    ({ r with answer := r.answer.map .verdict }, q)
  | .checkSat =>
    let (r, q) := p.checkSat e
    ({ r with answer := r.answer.map .result }, q)
  | .model => ({ answer := .ok (.model p.session.model?) }, p)
  | .core => ({ answer := .ok (.core p.session.core) }, p)
  | .reason => ({ answer := .ok (.reason p.session.reason) }, p)
  | .smtlib => ({ answer := .ok (.text p.session.smtlib) }, p)

end Prover
end Validity
