import Validity.Linear.Form

/-!
Cubes: conjunctions of atoms about Boolean constants and linear forms. Lists of cubes stand for
their disjunction.
-/
namespace Validity

inductive Atom where
  | truth (v : Symbol) (value : Bool)
  | positive (f : Form)
  | nonneg (f : Form)
  | zero (f : Form)
  | divides (d : Nat) (f : Form) (holds : Bool)
  deriving DecidableEq, Repr

abbrev Cube := List Atom

namespace Atom

def form : Atom → Form
  | .truth .. => {}
  | .positive f | .nonneg f | .zero f | .divides _ f _ => f

/-- The atoms of which one holds iff the given one does not. -/
def negate : Atom → List Atom
  | .truth v b => [.truth v !b]
  | .positive f => [.nonneg f.neg]
  | .nonneg f => [.positive f.neg]
  | .zero f => [.positive f, .positive f.neg]
  | .divides d f b => [.divides d f !b]

def put (v : Symbol) (g : Form) : Atom → Atom
  | .truth w b => .truth w b
  | .positive f => .positive (f.put v g)
  | .nonneg f => .nonneg (f.put v g)
  | .zero f => .zero (f.put v g)
  | .divides d f b =>
    -- both sides are scaled until all coefficients are integers again
    let f := f.put v g
    .divides (d * f.denominator) (f.scale f.denominator) b

def primitive (f : Form) : Form × Rat :=
  let g := f.scale f.denominator
  let k := g.content
  ({ g.scale (1 / k) with constant := 0 }, g.constant / k)

/-- The sign condition of an integral form on coprime coefficients: `strict` asks for a positive
value of the form times its denominator. -/
def tighten (f : Form) (strict : Bool) : Atom :=
  let g := f.scale f.denominator
  let k := g.content
  let c := if strict then g.constant - 1 else g.constant
  .nonneg { g.scale (1 / k) with constant := (c / k).floor }

def settle : Atom → Except Bool Atom
  | .truth v b => .ok (.truth v b)
  | .positive f =>
    if f.terms.isEmpty then .error (0 < f.constant)
    else if f.isIntegral then .ok (tighten f true)
    else .ok (.positive (f.scale (1 / (if f.leading < 0 then -f.leading else f.leading))))
  | .nonneg f =>
    if f.terms.isEmpty then .error (0 ≤ f.constant)
    else if f.isIntegral then .ok (tighten f false)
    else .ok (.nonneg (f.scale (1 / (if f.leading < 0 then -f.leading else f.leading))))
  | .zero f =>
    if f.terms.isEmpty then .error (f.constant = 0)
    else if f.isIntegral then
      let (g, c) := primitive f
      -- with coprime coefficients the other side must be an integer
      if c.den = 1 then
        let g := { g with constant := c }
        .ok (.zero (if g.leading < 0 then g.neg else g))
      else .error false
    else .ok (.zero (f.scale (1 / f.leading)))
  | .divides d f b =>
    let reduce (q : Rat) : Rat := (q.num % d : Int)
    let terms := (f.terms.map fun t => (t.1, reduce t.2)).filter (·.2 ≠ 0)
    let g : Form := ⟨terms, reduce f.constant⟩
    if terms.isEmpty then .error ((g.constant = 0) = b) else .ok (.divides d g b)

end Atom

namespace Cube

def symbols (c : Cube) : List Symbol :=
  (c.flatMap fun a => a.form.terms.map (·.1)).eraseDups

def ofAtoms : List Atom → List Cube
  | [] => [[]]
  | a :: rest =>
    match a.settle with
    | .error true => ofAtoms rest
    | .error false => []
    | .ok b => (ofAtoms rest).map fun c => if c.contains b then c else b :: c

def isCoherent (c : Cube) : Bool :=
  c.all fun a =>
    match a with
    | .truth v b => !c.contains (.truth v !b)
    | _ => true

end Cube
end Validity
