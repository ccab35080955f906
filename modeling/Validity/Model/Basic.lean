import Validity.Term.Display

/-!
Models: finite assignments of values to constants and of finite tables to functions. A symbol that
a model says nothing about reads as the default of its sort. Models say nothing about quotients and
remainders by zero either: evaluation takes them for zero in every model.
-/
namespace Validity

structure Table where
  entries : List (List Literal × Literal)
  otherwise : Literal
  deriving DecidableEq, Repr

def assign {α β : Type} [DecidableEq α] (key : α) (value : β) : List (α × β) → List (α × β)
  | [] => [(key, value)]
  | (k, v) :: rest =>
    if k = key then (k, value) :: rest else (k, v) :: assign key value rest

namespace Table

def ofEntries (entries : List (List Literal × Literal)) (otherwise : Literal) : Table :=
  ⟨entries.foldl (fun es e => assign e.1 e.2 es) [], otherwise⟩

def value (t : Table) (args : List Literal) : Literal :=
  (t.entries.lookup args).getD t.otherwise

def isConstant (t : Table) : Bool :=
  t.entries.all fun e => t.value e.1 = t.otherwise

def default (range : Ty) : Table := ⟨[], range.default⟩

def display (t : Table) : String :=
  let entry (e : List Literal × Literal) : String :=
    let args := match e.1 with
      | [a] => a.display
      | as => parenthesised (", ".intercalate (as.map Literal.display))
    args ++ " -> " ++ e.2.display
  "[" ++ ", ".intercalate (t.entries.map entry ++ ["else -> " ++ t.otherwise.display]) ++ "]"

end Table

structure Model where
  constants : List (Symbol × Literal) := []
  functions : List (Symbol × Table) := []
  deriving DecidableEq, Repr

namespace Model

def symbols (m : Model) : List Symbol :=
  m.constants.map (·.1) ++ m.functions.map (·.1)

def setConstant (m : Model) (f : Symbol) (v : Literal) : Model :=
  { m with constants := assign f v m.constants }

def setFunction (m : Model) (f : Symbol) (t : Table) : Model :=
  { m with functions := assign f t m.functions }

def display (m : Model) : String :=
  let constants := m.constants.map fun (f, v) => f.name ++ " = " ++ v.display
  let functions := m.functions.map fun (f, t) => f.name ++ " = " ++ t.display
  "[" ++ ", ".intercalate (constants ++ functions) ++ "]"

end Model

inductive Interpretation where
  | constant (value : Literal)
  | function (table : Table)
  deriving DecidableEq, Repr

def Model.interpretation? (m : Model) (f : Symbol) : Option Interpretation :=
  if f.domain.isEmpty then (m.constants.lookup f).map .constant
  else (m.functions.lookup f).map .function

end Validity
