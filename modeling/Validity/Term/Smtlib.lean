import Validity.Term.Basic

/-!
Terms as SMT-LIB text, on one line, and the declarations that go before them.
-/
namespace Validity

def isSymbolChar (c : Char) : Bool :=
  c.isAlphanum || "~!@$%^&*_-+=<>.?/".toList.contains c

def isPlainName (s : List Char) : Bool :=
  !s.isEmpty && s.all isSymbolChar && !(s.head?.any Char.isDigit)

def closesBar : List Char → Bool
  | [] => false
  | ['|'] => true
  | '\\' :: c :: cs => (c == '\\' || c == '|') && closesBar cs
  | c :: cs => c != '|' && c != '\\' && closesBar cs

def isBarredName : List Char → Bool
  | '|' :: cs => closesBar cs
  | _ => false

/-- A name as a symbol: between bars if it is not plain, with bars and backslashes escaped. -/
def symbolText (name : String) : String :=
  let s := name.toList
  if isPlainName s || isBarredName s then name
  else String.ofList ('|' :: s.flatMap (fun c => if c = '\\' || c = '|' then ['\\', c] else [c]) ++
    ['|'])

def Ty.text : Ty → String
  | .bool => "Bool"
  | .int => "Int"
  | .real => "Real"
  | .bits w => "(_ BitVec " ++ toString w ++ ")"

def numeralText (n : Int) : String :=
  if n < 0 then "(- " ++ toString n.natAbs ++ ")" else toString n.natAbs

def rationalText (q : Rat) : String :=
  let top := toString q.num.natAbs ++ ".0"
  let size := if q.den = 1 then top else "(/ " ++ top ++ " " ++ toString q.den ++ ".0)"
  if q.num < 0 then "(- " ++ size ++ ")" else size

def monomialText (c : Int) (k : Nat) : String :=
  let power := if k = 1 then "x" else "(^ x " ++ toString k ++ ")"
  if k = 0 then numeralText c
  else if c = 1 then power
  else "(* " ++ numeralText c ++ " " ++ power ++ ")"

/-- An irrational number as a root of its polynomial; the smaller root is the first. -/
def surdText (a : Rat) (plus : Bool) (m : Rat) : String :=
  let (u, v, w) := Quadratic.polynomial a m
  let terms := [(u, 2), (v, 1), (w, 0)].filter fun p => p.1 ≠ 0
  "(root-obj (+" ++ String.join (terms.map fun p => " " ++ monomialText p.1 p.2) ++ ") " ++
    (if plus then "2" else "1") ++ ")"

def baseDigits (base : Nat) : Nat → Nat → List Char
  | 0, _ => []
  | count + 1, n => baseDigits base count (n / base) ++ [Nat.digitChar (n % base)]

def Literal.smtlib : Literal → String
  | .bool b => if b then "true" else "false"
  | .int n => numeralText n
  | .real (.rat q) => rationalText q
  | .real (.surd a s m) => surdText a s m
  | .bits v w =>
    if w % 4 = 0 then "#x" ++ String.ofList (baseDigits 16 (w / 4) v)
    else "#b" ++ String.ofList (baseDigits 2 w v)

def Op.text : Op → String
  | .and => "and" | .or => "or" | .not => "not" | .implies => "=>" | .xor => "xor"
  | .eq => "=" | .distinct => "distinct" | .ite => "ite"
  | .lt => "<" | .le => "<=" | .gt => ">" | .ge => ">="
  | .add => "+" | .sub => "-" | .mul => "*" | .neg => "-"
  | .idiv => "div" | .mod => "mod" | .rem => "rem" | .div => "/"
  | .toReal => "to_real" | .toInt => "to_int" | .isInt => "is_int"

def Quantifier.text : Quantifier → String
  | .all => "forall"
  | .ex => "exists"

abbrev Scope := List (Symbol × String)

/-- A name for one more bound constant: its own, or with the first free number if a bound constant
around it is written so already. -/
def Scope.pick (scope : Scope) (v : Symbol) : String :=
  let used := scope.map (·.2)
  let base := symbolText v.name
  if used.contains base then
    let numbered := (List.range (used.length + 1)).map fun i => base ++ "!" ++ toString (i + 1)
    (numbered.find? fun n => !used.contains n).getD base
  else base

def Scope.bind (scope : Scope) (v : Symbol) : Scope :=
  (v, scope.pick v) :: scope

def Scope.text (scope : Scope) (f : Symbol) : String :=
  (scope.lookup f).getD (symbolText f.name)

def applied (head : String) (args : List String) : String :=
  if args.isEmpty then head else "(" ++ " ".intercalate (head :: args) ++ ")"

mutual

def Term.smtlibIn (scope : Scope) : Term → String
  | .lit l => l.smtlib
  | .app f [] => scope.text f
  | .app f args => applied (symbolText f.name) (Term.smtlibAll scope args)
  | .op o args => applied o.text (Term.smtlibAll scope args)
  | .quant q vars body =>
    -- the last constant is bound innermost, but they are written in their own order
    let inner := vars.foldl Scope.bind scope
    let binders := (inner.take vars.length).reverse.map fun (v, n) =>
      "(" ++ n ++ " " ++ v.range.text ++ ")"
    "(" ++ q.text ++ " (" ++ " ".intercalate binders ++ ") " ++ Term.smtlibIn inner body ++ ")"

def Term.smtlibAll (scope : Scope) : List Term → List String
  | [] => []
  | t :: ts => Term.smtlibIn scope t :: Term.smtlibAll scope ts

end

def Term.smtlib (t : Term) : String := t.smtlibIn []

mutual

/-- Adds the free symbols of a term to those seen before: a head before its arguments, the last
argument first. The bound constants are passed over. -/
def Term.symbolsFrom (bound seen : List Symbol) : Term → List Symbol
  | .lit _ => seen
  | .app f args =>
    -- only constants are bound; a function may share its name with one
    let known := (args.isEmpty && bound.contains f) || seen.contains f
    Term.symbolsAll bound (if known then seen else seen ++ [f]) args
  | .op _ args => Term.symbolsAll bound seen args
  | .quant _ vars body => Term.symbolsFrom (vars ++ bound) seen body

def Term.symbolsAll (bound seen : List Symbol) : List Term → List Symbol
  | [] => seen
  | t :: ts => Term.symbolsFrom bound (Term.symbolsAll bound seen ts) t

end

def freeSymbols (ts : List Term) : List Symbol :=
  ts.foldl (Term.symbolsFrom []) []

def Symbol.declaration (f : Symbol) : String :=
  "(declare-fun " ++ symbolText f.name ++ " (" ++ " ".intercalate (f.domain.map Ty.text) ++ ") " ++
    f.range.text ++ ")"

def Term.assertion (t : Term) : String :=
  "(assert " ++ t.smtlib ++ ")"

def commands (ts : List Term) : List String :=
  (freeSymbols ts).map Symbol.declaration ++ ts.map Term.assertion

def problemText (ts : List Term) : String :=
  String.join ((commands ts).map (· ++ "\n"))

end Validity
