import Validity.Term.Basic

/-!
Linear forms: a rational constant plus rational multiples of numeric constants.
-/
namespace Validity

/-- A linear form. No coefficient in `terms` is zero, and no symbol occurs twice. -/
structure Form where
  terms : List (Symbol × Rat) := []
  constant : Rat := 0
  deriving DecidableEq, Repr

namespace Form

def ofRat (q : Rat) : Form := ⟨[], q⟩

def var (v : Symbol) : Form := ⟨[(v, 1)], 0⟩

def coefficient (f : Form) (v : Symbol) : Rat := (f.terms.lookup v).getD 0

def without (f : Form) (v : Symbol) : Form := { f with terms := f.terms.filter (·.1 ≠ v) }

def addTerm (v : Symbol) (c : Rat) : List (Symbol × Rat) → List (Symbol × Rat)
  | [] => [(v, c)]
  | (w, d) :: rest =>
    if v = w then if c + d = 0 then rest else (w, c + d) :: rest
    else if v.name < w.name then (v, c) :: (w, d) :: rest
    else (w, d) :: addTerm v c rest

def add (f g : Form) : Form :=
  ⟨g.terms.foldl (fun ts t => addTerm t.1 t.2 ts) f.terms, f.constant + g.constant⟩

def scale (c : Rat) (f : Form) : Form :=
  if c = 0 then {} else ⟨f.terms.map fun t => (t.1, c * t.2), c * f.constant⟩

def neg (f : Form) : Form := f.scale (-1)

def sub (f g : Form) : Form := f.add g.neg

def put (f : Form) (v : Symbol) (g : Form) : Form :=
  (f.without v).add (g.scale (f.coefficient v))

def root (f : Form) (v : Symbol) : Form :=
  (f.without v).scale (-1 / f.coefficient v)

def isIntegral (f : Form) : Bool := f.terms.all (·.1.range = .int)

def denominator (f : Form) : Nat :=
  f.terms.foldl (fun n t => Nat.lcm n t.2.den) f.constant.den

def content (f : Form) : Nat :=
  f.terms.foldl (fun n t => Nat.gcd n t.2.num.natAbs) 0

def leading (f : Form) : Rat := (f.terms.head?.map (·.2)).getD 1

def mul? (f g : Form) : Option Form :=
  if f.terms.isEmpty then some (g.scale f.constant)
  else if g.terms.isEmpty then some (f.scale g.constant)
  else none

mutual

def ofTerm? : Term → Option Form
  | .lit (.int n) => some (ofRat n)
  | .lit (.real (.rat q)) => some (ofRat q)
  | .app f [] => if f.range = .int ∨ f.range = .real then some (var f) else none
  | .op .add ts => do return (← ofTerms? ts).foldl add {}
  | .op .mul ts => do (← ofTerms? ts).foldlM mul? (ofRat 1)
  | .op .neg [t] => do return (← ofTerm? t).neg
  | .op .toReal [t] => ofTerm? t
  | .op .sub ts => do
    match ← ofTerms? ts with
    | [] => none
    | f :: fs => return fs.foldl sub f
  | .op .div [s, t] => do
    let f ← ofTerm? s
    let g ← ofTerm? t
    if g.terms.isEmpty && g.constant != 0 then return f.scale (1 / g.constant) else none
  | _ => none

def ofTerms? : List Term → Option (List Form)
  | [] => some []
  | t :: ts => do return (← ofTerm? t) :: (← ofTerms? ts)

end

end Form
end Validity
