import Validity.Text.Blank

/-!
Paths in normal form. A path is its root and its components; empty components and dots are
dropped, parent steps are kept, since what they mean depends on the files.
-/
namespace Validity

/-- Where a path starts. Exactly two slashes in front are a root of their own. -/
inductive Root where
  | here
  | single
  | double
  deriving DecidableEq, Repr

structure Path where
  root : Root
  parts : List (List Char)
  deriving DecidableEq, Repr

namespace Path

def rootOf (s : List Char) : Root :=
  match (s.takeWhile (· == '/')).length with
  | 0 => .here
  | 2 => .double
  | _ => .single

/-- A component that says something: neither empty nor a dot. -/
def isStep (part : List Char) : Bool :=
  !(part.isEmpty || part == ['.'])

def parse (s : List Char) : Path :=
  ⟨rootOf s, (Text.pieces '/' s).filter isStep⟩

def rootText : Root → List Char
  | .here => []
  | .single => ['/']
  | .double => ['/', '/']

def text (p : Path) : List Char :=
  match rootText p.root ++ ['/'].intercalate p.parts with
  | [] => ['.']
  | s => s

def name (p : Path) : List Char :=
  p.parts.getLast?.getD []

end Path

def normalPath (s : String) : String :=
  String.ofList (Path.parse s.toList).text

end Validity
