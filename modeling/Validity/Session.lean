import Validity.Command
import Validity.Verdict

/-!
Sessions: assertions in nested scopes and the reply to the last check. What decides a check is a
parameter, so that any solver can stand behind a session.
-/
namespace Validity

structure Reply where
  result : Result
  reason : String := ""
  core : List Term := []
  model : Option Model := none

abbrev Decider := (assertions assumptions : List Term) → Reply

structure Session where
  base : List Term := []
  scopes : List (List Term) := []
  last : Option Reply := none

namespace Session

def assertions (s : Session) : List Term :=
  s.base ++ s.scopes.reverse.flatten

def add (s : Session) (t : Term) : Except Error Session :=
  if t.ty = .bool then
    match s.scopes with
    | [] => .ok { base := s.base ++ [t] }
    | scope :: rest => .ok { s with scopes := (scope ++ [t]) :: rest, last := none }
  else .error (.solver .notBoolean)

def push (s : Session) : Session :=
  { s with scopes := [] :: s.scopes, last := none }

def pop (s : Session) : Except Error Session :=
  match s.scopes with
  | [] => .error (.solver .noScope)
  | _ :: rest => .ok { s with scopes := rest, last := none }

def model? (s : Session) : Option Model := s.last.bind Reply.model

def core (s : Session) : List Term := (s.last.map Reply.core).getD []

def reason (s : Session) : Reason := .parse (s.last.map Reply.reason)

def outcome (r : Reply) : Except Error Outcome :=
  match r.result, r.model with
  | .sat, some m => .ok { result := .sat, model := some m, solver := "z3" }
  | .sat, none => .error (.solver .noModel)
  | .unsat, _ => .ok { result := .unsat, solver := "z3" }
  | .unknown, _ =>
    .ok { result := .unknown, reason := some (.parse r.reason), solver := "z3" }

def check (s : Session) (decide : Decider) (assumptions : List Term) :
    Except Error Outcome × Session :=
  if assumptions.all fun t => t.ty = .bool then
    let r := decide s.assertions assumptions
    (outcome r, { s with last := some r })
  -- a check that is refused leaves the last reply as it was
  else (.error (.solver .notBoolean), s)

def setTimeLimit (s : Session) (limit : Scalar) : Except Error Session :=
  -- how long a decider takes is not modelled; the limit only has to be an integer
  match limit.toInteger with
  | .ok _ => .ok s
  | .error f => .error (.setting f)

def smtlib (s : Session) : String := problemText s.assertions

def problem (s : Session) (f : Command.Filter) (assumptions : List Term) : Except Error String :=
  if assumptions.all fun t => t.ty = .bool then .ok (f.problem (s.assertions ++ assumptions))
  else .error (.solver .notBoolean)

def display (s : Session) : String := displayAll s.assertions

def describe (s : Session) : String :=
  "Z3Solver(" ++ toString s.assertions.length ++ " assertions)"

end Session
end Validity
