import Validity.Path
import Validity.Verdict

/-!
External solvers: what to call them, and how a launch comes to a run. The octets of a finished
process are decoded strictly and with unified line ends; what a stopped process had written is kept
as far as it goes.
-/
namespace Validity

structure Solver where
  name : String
  argv : List String
  deriving DecidableEq, Repr

def Solver.swine : Solver := ⟨"swine", ["swine"]⟩

/-- The solver with a name or path. Paths are brought to normal form; a path without a last
component serves as its own name. -/
def Solver.ofName (name : String) : Solver :=
  if name = "swine" then Solver.swine
  else
    let p := Path.parse name.toList
    let text := String.ofList p.text
    ⟨if p.name.isEmpty then text else String.ofList p.name, [text]⟩

inductive Launch where
  /-- A word of the command line has a zero character. -/
  | malformed
  | refused (fault : OsFault)
  | stopped (stdout stderr : List UInt8)
  /-- The program ended; a negative status is the signal that killed it. -/
  | ended (stdout stderr : List UInt8) (status : Int)

def decodeOutput (octets : List UInt8) : Except Error String :=
  match Text.Utf8.decode octets with
  | .ok cs => .ok (String.ofList (Text.unifyNewlines cs))
  | .error f => .error (.encoding f)

def decodePartial (octets : List UInt8) : String :=
  String.ofList (Text.Utf8.decodeLossy octets)

def Launch.run (executable : String) : Launch → Except Error Run
  | .malformed => .error .zeroCharacter
  | .refused f => .error (if f = .noEntry then .notFound executable else .launch executable f)
  | .stopped out err => .ok
    { result := .unknown, stdout := decodePartial out, stderr := decodePartial err, status := -1,
      timedOut := true }
  | .ended out err status => do
    let stdout ← decodeOutput out
    let stderr ← decodeOutput err
    return { result := .ofOutput stdout, stdout, stderr, status }

def Run.warnings (r : Run) (solver : String) : List String :=
  if r.timedOut ∨ r.status = 0 then []
  else [solver ++ " exited with status " ++ toString r.status ++ ": " ++ Text.trimmed r.stderr]

end Validity
