import Validity.Number.Binary
import Validity.Text.Integer

/-!
Settings as a caller writes them, before anyone knows that they should be integers: a limit may
come as a number, as text, or as something that is no number at all.
-/
namespace Validity

inductive Scalar where
  | absent
  | flag (value : Bool)
  | whole (value : Int)
  | fraction (value : Binary)
  | text (value : String)
  | list (items : List Scalar)
  | record (fields : List (String × Scalar))

inductive ScalarFault where
  | text (fault : Text.IntegerFault)
  | kind (name : String)
  | infinite
  | undefined
  deriving DecidableEq, Repr

def ScalarFault.message : ScalarFault → String
  | .text f => f.message
  | .kind name =>
    "int() argument must be a string, a bytes-like object or a real number, not '" ++ name ++ "'"
  | .infinite => "cannot convert float infinity to integer"
  | .undefined => "cannot convert float NaN to integer"

namespace Scalar

/-- The integer that a setting means. Fractions lose their decimals, a flag counts as 0 or 1. -/
def toInteger : Scalar → Except ScalarFault Int
  | .absent => .error (.kind "NoneType")
  | .flag b => .ok (if b then 1 else 0)
  | .whole n => .ok n
  | .fraction .undefined => .error .undefined
  | .fraction (.infinite _) => .error .infinite
  | .fraction (.finite s q) => .ok (if s then -q.floor else q.floor)
  | .text s => (Text.readInteger s).mapError .text
  | .list _ => .error (.kind "list")
  | .record _ => .error (.kind "dict")

def toBinary? : Scalar → Option Binary
  | .flag b => some (.ofInt (if b then 1 else 0))
  | .whole n => some (.ofInt n)
  | .fraction x => some x
  | _ => none

mutual

def literal : Scalar → String
  | .absent => "None"
  | .flag true => "True"
  | .flag false => "False"
  | .whole n => toString n
  | .fraction x => x.text
  | .text s => Text.quoted s
  | .list xs => "[" ++ ", ".intercalate (showItems xs) ++ "]"
  | .record fs => "\x7b" ++ ", ".intercalate (showFields fs) ++ "\x7d"

def showItems : List Scalar → List String
  | [] => []
  | x :: xs => literal x :: showItems xs

def showFields : List (String × Scalar) → List String
  | [] => []
  | (name, x) :: fs => (Text.quoted name ++ ": " ++ literal x) :: showFields fs

end

def plain : Scalar → String
  | .text s => s
  | x => x.literal

end Scalar
end Validity
