import Validity.Scalar
import Validity.Term.Display
import Validity.Text.Utf8

/-!
What can go wrong, by cause. The wording of every cause is in `Error.message`.
-/
namespace Validity

inductive SolverFault where
  | noScope
  | notBoolean
  | noModel
  | noInterpretation
  /-- A bound variable is not a constant. -/
  | notConstant
  /-- A bound variable is a value. -/
  | notBindable
  deriving DecidableEq, Repr

def SolverFault.message : SolverFault → String
  | .noScope => "index out of bounds"
  | .notBoolean => "Value cannot be converted into a Z3 Boolean value"
  | .noModel => "model is not available"
  | .noInterpretation => "ast is null"
  | .notConstant => "Invalid bounded variable(s)"
  | .notBindable => "invalid argument"

structure OsFault where
  number : Nat
  text : String
  deriving DecidableEq, Repr

namespace OsFault

def noEntry : OsFault := ⟨2, "No such file or directory"⟩

def format : OsFault := ⟨8, "Exec format error"⟩

def denied : OsFault := ⟨13, "Permission denied"⟩

def notDirectory : OsFault := ⟨20, "Not a directory"⟩

def nameTooLong : OsFault := ⟨36, "File name too long"⟩

def message (f : OsFault) (file : String) : String :=
  "[Errno " ++ toString f.number ++ "] " ++ f.text ++ ": " ++ Text.quoted file

end OsFault

inductive ReadFault where
  | notBool (value : Term)
  | notInt (value : Term)
  | notQuotient (text : String)
  | zeroDenominator (text : String)

def ReadFault.message : ReadFault → String
  | .notBool t => "expected a boolean value, got " ++ t.display
  | .notInt t => "expected an integer value, got " ++ t.display
  | .notQuotient s => "could not parse rational from " ++ Text.quoted s
  | .zeroDenominator s => "zero denominator in " ++ Text.quoted s

inductive Signal where
  | evaluation
  | noValue
  | value
  | interrupt
  | backend
  deriving DecidableEq, Repr

inductive Error where
  /-- A scope of a prover is closed at level 0. -/
  | scope
  | solver (fault : SolverFault)
  | noValue (term : Term) (cause : String)
  /-- A value, if it came from a term, is not of the expected shape. -/
  | unreadable (fault : ReadFault) (term : Option Term)
  | numeral (fault : Text.IntegerFault)
  /-- A setting is no integer. -/
  | setting (fault : ScalarFault)
  /-- The time limit in the environment is no integer. -/
  | timeLimit (text : String)
  | noBackend (kind : Scalar)
  /-- A satisfiable outcome comes without a model. -/
  | noCounterexample
  | notFound (executable : String)
  | launch (executable : String) (fault : OsFault)
  /-- No file could be made for a problem. -/
  | prepare (file : String) (fault : OsFault)
  /-- A word of a command line has a zero character. -/
  | zeroCharacter
  | encoding (fault : Text.Utf8.Fault)
  /-- An error of the caller's code. -/
  | signal (kind : Signal) (message : String)

namespace Error

def message : Error → String
  | .scope => "cannot pop level 0"
  | .solver f => f.message
  | .noValue t cause => "solver failed to evaluate " ++ t.display ++ ": " ++ cause
  | .unreadable f _ => f.message
  | .numeral f => f.message
  | .setting f => f.message
  | .timeLimit s => "PROVEKIT_TIMEOUT_MS must be an integer, got " ++ Text.quoted s
  | .noBackend k => "Unsupported backend kind: " ++ k.literal
  | .noCounterexample => "'NoneType' object has no attribute 'decls'"
  | .notFound exe => "solver executable '" ++ exe ++ "' not found"
  | .launch exe f => "failed to run '" ++ exe ++ "': " ++ f.message exe
  | .prepare file f => "failed to prepare swine problem file: " ++ f.message file
  | .zeroCharacter => "embedded null byte"
  | .encoding f => f.message
  | .signal _ m => m

def isEvaluation : Error → Bool
  | .noValue .. | .unreadable .. | .signal .evaluation _ | .signal .noValue _ => true
  | _ => false

def isBackend : Error → Bool
  | .notFound _ | .launch .. | .prepare .. | .signal .backend _ => true
  | _ => false

def term? : Error → Option Term
  | .noValue t _ => some t
  | .unreadable _ t => t
  | _ => none

end Error
end Validity
