import Validity.Linear.Solution
import Validity.Session

/-!
Decisions in linear arithmetic over integers and reals with Boolean constants and quantifiers.
Formulas become lists of cubes, and a quantifier becomes elimination. Formulas outside linear
arithmetic stay undecided.
-/
namespace Validity.Linear

def both (a b : Cube) : Cube := a ++ b.filter fun x => !a.contains x

def meet (as bs : List Cube) : List Cube :=
  ((as.flatMap fun a => bs.map (both a)).filter Cube.mayHold).eraseDups

def meetAll (parts : List (List Cube)) : List Cube := parts.foldl meet [[]]

def joinAll (parts : List (List Cube)) : List Cube := parts.flatten.eraseDups

def complement (cs : List Cube) : List Cube :=
  meetAll (cs.map fun c => c.flatMap fun a => a.negate.flatMap fun b => Cube.ofAtoms [b])

def eliminate? (v : Symbol) (c : Cube) : Option (List Cube) :=
  if v.range = .bool then
    some [c.filter fun a => a ≠ .truth v true ∧ a ≠ .truth v false]
  else if v.range = .int ∧ c.any fun a => a.form.coefficient v ≠ 0 && !a.form.isIntegral then none
  else some (c.eliminate v)

def project? (vs : List Symbol) (cs : List Cube) : Option (List Cube) :=
  (Cube.ordered vs).foldlM (fun cs v => do
    return ((← cs.mapM (eliminate? v)).flatten.filter Cube.mayHold).eraseDups) cs

def pairs {α : Type} : List α → List (α × α)
  | [] => []
  | x :: xs => xs.map (x, ·) ++ pairs xs

def literal (positive : Bool) (a : Atom) : List Cube :=
  if positive then Cube.ofAtoms [a] else a.negate.flatMap fun b => Cube.ofAtoms [b]

def comparison? (positive : Bool) (o : Op) (args : List Term) : Option (List Cube) := do
  match o, ← Form.ofTerms? args with
  | .lt, [f, g] => return literal positive (.positive (g.sub f))
  | .le, [f, g] => return literal positive (.nonneg (g.sub f))
  | .gt, [f, g] => return literal positive (.positive (f.sub g))
  | .ge, [f, g] => return literal positive (.nonneg (f.sub g))
  | .eq, [f, g] => return literal positive (.zero (f.sub g))
  | .distinct, fs =>
    let parts := (pairs fs).map fun (f, g) => literal (!positive) (.zero (f.sub g))
    return if positive then meetAll parts else joinAll parts
  | _, _ => none

def difference (positive : Bool) (p q : List Cube × List Cube) : List Cube :=
  if positive then joinAll [meet p.1 q.2, meet p.2 q.1] else joinAll [meet p.1 q.1, meet p.2 q.2]

mutual

def cubes? (positive : Bool) : Term → Option (List Cube)
  | .lit (.bool b) => some (if b = positive then [[]] else [])
  | .app f [] => if f.range = .bool then some [[.truth f positive]] else none
  | .op .not [t] => cubes? (!positive) t
  | .op .and ts => do
    let parts ← cubesAll? positive ts
    return if positive then meetAll parts else joinAll parts
  | .op .or ts => do
    let parts ← cubesAll? positive ts
    return if positive then joinAll parts else meetAll parts
  | .op .implies [s, t] => do
    let parts := [← cubes? (!positive) s, ← cubes? positive t]
    return if positive then joinAll parts else meetAll parts
  | .op .ite [c, s, t] => do
    let yes ← cubes? true c
    let no ← cubes? false c
    return joinAll [meet yes (← cubes? positive s), meet no (← cubes? positive t)]
  | .op o ts => do
    if ts.all fun t => t.ty = .bool then
      let signed := (← cubesAll? true ts).zip (← cubesAll? false ts)
      match o, signed with
      | .xor, [p, q] => return difference positive p q
      | .eq, [p, q] => return difference (!positive) p q
      | .distinct, ps =>
        let parts := (pairs ps).map fun (p, q) => difference positive p q
        return if positive then meetAll parts else joinAll parts
      | _, _ => none
    else comparison? positive o ts
  | .quant q vs body => do
    -- a universal quantifier is the complement of an existential one over the negation
    let exists? := q = .ex
    let inner ← project? vs (← cubes? exists? body)
    return if exists? = positive then inner else complement inner
  | _ => none

def cubesAll? (positive : Bool) : List Term → Option (List (List Cube))
  | [] => some []
  | t :: ts => do return (← cubes? positive t) :: (← cubesAll? positive ts)

end

def value (c : Cube) (values : Assignment) (v : Symbol) : Literal :=
  let q := (values.lookup v).getD 0
  match v.range with
  | .bool => .bool (c.contains (.truth v true))
  | .int => .int q.floor
  | .real => .real (.rat q)
  | .bits w => .bits 0 w

def modelOf (ts : List Term) (c : Cube) (values : Assignment) : Model :=
  { constants := (freeSymbols ts).map fun v => (v, value c values v) }

def search (c : Cube) : List (List Cube) → Option (Cube × Assignment)
  | [] => (Cube.solution? c).map (c, ·)
  | part :: parts => part.findSome? fun d =>
    let e := both c d
    if Cube.mayHold e then search e parts else none

/-- A model of formulas; none if they are undecided, and no model if there is none. The formulas
with the fewest cubes are taken first. -/
def findModel? (ts : List Term) : Option (Option Model) := do
  let parts := (← cubesAll? true ts).mergeSort fun a b => a.length ≤ b.length
  return (search [] parts).map fun (c, values) => modelOf ts c values

def refutes (ts : List Term) : Bool :=
  match findModel? ts with
  | some none => true
  | _ => false

def minimise (assertions kept : List Term) : List Term → List Term
  | [] => kept
  | t :: todo =>
    -- what is not needed beside the others is dropped
    if refutes (assertions ++ kept ++ todo) then minimise assertions kept todo
    else minimise assertions (kept ++ [t]) todo

/-- Decides assertions under assumptions. The core of a refutation is minimal. -/
def decide : Decider := fun assertions assumptions =>
  match findModel? (assertions ++ assumptions) with
  | none => { result := .unknown }
  | some none => { result := .unsat, core := minimise assertions [] assumptions }
  | some (some m) => { result := .sat, model := some m }

end Validity.Linear
