import Validity.Linear.Cube

/-!
Elimination of one constant from a cube, and solutions of cubes. A real constant leaves with every
pair of a lower and an upper bound. So does an integer constant if one bound of every pair is an
integer; otherwise it leaves by the values just above its lower bounds, of which one is right if any
value is, because divisibilities repeat with a period.
-/
namespace Validity

abbrev Assignment := List (Symbol × Rat)

namespace Cube

def equation? (c : Cube) (v : Symbol) : Option Form :=
  c.findSome? fun a =>
    match a with
    | .zero f => if f.coefficient v ≠ 0 then some f else none
    | _ => none

def bounds (c : Cube) (v : Symbol) (side : Rat) : List (Bool × Form) :=
  c.filterMap fun a =>
    match a with
    | .positive f => if 0 < side * f.coefficient v then some (true, f.root v) else none
    | .nonneg f => if 0 < side * f.coefficient v then some (false, f.root v) else none
    | _ => none

def rest (c : Cube) (v : Symbol) : Cube :=
  c.filter fun a => a.form.coefficient v = 0

def put (c : Cube) (v : Symbol) (g : Form) : List Cube :=
  ofAtoms (c.map (Atom.put v g))

/-- Eliminates a symbol as if it were real: every lower bound is below every upper bound. What the
cube says of divisibility is forgotten. -/
def shadow (c : Cube) (v : Symbol) : List Cube :=
  match c.equation? v with
  | some f => c.put v (f.root v)
  | none =>
    let pairs := (c.bounds v 1).flatMap fun (s, l) => (c.bounds v (-1)).map fun (t, u) =>
      if s || t then Atom.positive (u.sub l) else Atom.nonneg (u.sub l)
    ofAtoms (pairs ++ c.rest v)

def multiple (c : Cube) (v : Symbol) : Nat :=
  c.foldl (fun n a =>
    let k := (a.form.coefficient v).num.natAbs
    if k = 0 then n else Nat.lcm n k) 1

def period (c : Cube) (v : Symbol) : Nat :=
  c.foldl (fun n a =>
    match a with
    | .divides d f _ => if f.coefficient v = 0 then n else Nat.lcm n d
    | _ => n) 1

/-- The integer symbol occurs in no divisibility, and all its bounds on one side are integers, so
that nothing is lost in the shadow. -/
def isExact (c : Cube) (v : Symbol) : Bool :=
  let unit (side : Rat) : Bool := c.all fun a =>
    match a with
    | .nonneg f => side * f.coefficient v ≤ 1
    | _ => true
  c.period v = 1 && (unit 1 || unit (-1))

def unbounded (c : Cube) (v : Symbol) : Cube :=
  c.filter fun a =>
    match a with
    | .divides .. | .truth .. => true
    | a => a.form.coefficient v = 0

def scaled (c : Cube) (v : Symbol) : Cube :=
  -- a cube about `m * v` in place of `v`, which has unit coefficients
  let m := c.multiple v
  .divides m (Form.var v) true :: c.map (Atom.put v ((Form.var v).scale (1 / m)))

def trials (c : Cube) (v : Symbol) : Cube × List Form :=
  let steps : List Form := (List.range (c.period v)).map fun j => Form.ofRat (j : Nat)
  match c.bounds v 1 with
  -- without a lower bound, small enough values meet all the upper ones
  | [] => (c.unbounded v, steps)
  | ls => (c, ls.flatMap fun (_, l) => steps.map l.add)

/-- Eliminates a numeric symbol: a solution of the given cube is one of some of these cubes, and a
solution of one of them extends to the given cube. -/
def eliminate (c : Cube) (v : Symbol) : List Cube :=
  if v.range ≠ .int ∨ (c.equation? v = none ∧ c.isExact v) then c.shadow v
  else
    let d := c.scaled v
    match d.equation? v with
    | some g => d.put v (g.root v)
    | none =>
      let (d, gs) := d.trials v
      (gs.flatMap (d.put v)).eraseDups

def assign (c : Cube) (values : Assignment) : Cube :=
  values.foldl (fun c (w, q) => c.map (Atom.put w (Form.ofRat q))) c

def greatest? : List Rat → Option Rat
  | [] => none
  | q :: qs => some (qs.foldl (fun p r => if p ≤ r then r else p) q)

def least? : List Rat → Option Rat
  | [] => none
  | q :: qs => some (qs.foldl (fun p r => if p ≤ r then p else r) q)

def holds (c : Cube) : Bool :=
  c.all fun a =>
    match a, a.settle with
    | .truth .., _ => true
    | _, .error b => b
    | _, .ok _ => false

/-- Numbers of which one is a value of a symbol, if the cube has no other symbol and any value. -/
def candidates (c : Cube) (v : Symbol) : List Rat :=
  match c.equation? v with
  | some f => [(f.root v).constant]
  | none =>
    let low := greatest? ((c.bounds v 1).map (·.2.constant))
    let high := least? ((c.bounds v (-1)).map (·.2.constant))
    if v.range = .int then
      let steps : List Rat := (List.range (c.period v)).map fun (j : Nat) => (j : Rat)
      match low, high with
      | some l, _ => steps.map (-(-l).floor + ·)
      | none, some h => steps.map (h.floor - ·)
      | none, none => steps
    else
      match low, high with
      | some l, some h => [(l + h) / 2]
      | some l, none => [l + 1]
      | none, some h => [h - 1]
      | none, none => [0]

/-- The shadows of a cube in the given symbols do not exclude a solution. -/
def isOpen : List Symbol → Cube → Bool
  | [], _ => true
  | v :: vs, c => (c.shadow v).any (isOpen vs)

def solve : List Symbol → Cube → Option Assignment
  | [], c => if c.holds then some [] else none
  | v :: vs, c => (c.eliminate v).findSome? fun d => do
    -- the shadows are cheap and exclude most of the cubes
    if !isOpen vs d then none
    let values ← solve vs d
    let c := c.assign values
    let q ← (c.candidates v).find? fun q => (c.assign [(v, q)]).holds
    return (v, q) :: values

def ordered (vs : List Symbol) : List Symbol :=
  vs.filter (·.range = .real) ++ vs.filter (·.range ≠ .real)

/-- A cheap test that a cube with solutions passes. -/
def mayHold (c : Cube) : Bool :=
  c.isCoherent && isOpen (ordered c.symbols) c

def solution? (c : Cube) : Option Assignment :=
  if c.mayHold then solve (ordered c.symbols) c else none

end Cube
end Validity
