import Std.Data.HashMap
import Validity.Model.Basic

/-!
Evaluation of terms in a model. With completion, a symbol without interpretation receives the
default one of its sort, which stays in the model; the branch of a conditional that is not taken
is not evaluated and completes nothing. Equal subterms are evaluated once.
-/
namespace Validity

def allSome {α : Type} : List (Option α) → Option (List α)
  | [] => some []
  | none :: _ => none
  | some a :: rest => (allSome rest).map (a :: ·)

namespace Literal

def bool? : Literal → Option Bool
  | .bool b => some b
  | _ => none

def lt? : Literal → Literal → Option Bool
  | .int m, .int n => some (m < n)
  | .real x, .real y => some (x.lt y)
  | _, _ => none

def add? : Literal → Literal → Option Literal
  | .int m, .int n => some (.int (m + n))
  | .real x, .real y => (x.add? y).map .real
  | _, _ => none

def mul? : Literal → Literal → Option Literal
  | .int m, .int n => some (.int (m * n))
  | .real x, .real y => (x.mul? y).map .real
  | _, _ => none

def neg? : Literal → Option Literal
  | .int n => some (.int (-n))
  | .real x => some (.real x.neg)
  | _ => none

def div? : Literal → Literal → Option Literal
  | .real x, .real y =>
    if y = .rat 0 then some (.real (.rat 0)) else (x.mul? y.inv).map .real
  | _, _ => none

end Literal

def modulo (m n : Int) : Int := if n = 0 then 0 else m % n

def quotient (m n : Int) : Int := if n = 0 then 0 else m / n

def remainder (m n : Int) : Int := if n < 0 then -modulo m n else modulo m n

def foldPairs {α : Type} (f : α → α → Option α) : List α → Option α
  | [] => none
  | a :: rest => rest.foldlM f a

namespace Op

def onValues (o : Op) (vs : List Literal) : Option Literal :=
  match o, vs with
  | .and, vs => (allSome (vs.map Literal.bool?)).map fun bs => .bool (bs.all id)
  | .or, vs => (allSome (vs.map Literal.bool?)).map fun bs => .bool (bs.any id)
  | .not, [.bool a] => some (.bool !a)
  | .implies, [.bool a, .bool b] => some (.bool (!a || b))
  | .xor, [.bool a, .bool b] => some (.bool (a != b))
  | .eq, [a, b] => some (.bool (a = b))
  | .distinct, vs => some (.bool (decide vs.Nodup))
  | .ite, [.bool c, a, b] => some (if c then a else b)
  | .lt, [a, b] => (a.lt? b).map .bool
  | .gt, [a, b] => (b.lt? a).map .bool
  | .le, [a, b] => (b.lt? a).map fun r => .bool !r
  | .ge, [a, b] => (a.lt? b).map fun r => .bool !r
  | .add, vs => foldPairs Literal.add? vs
  | .mul, vs => foldPairs Literal.mul? vs
  | .sub, [a, b] => b.neg?.bind a.add?
  | .neg, [a] => a.neg?
  | .idiv, [.int m, .int n] => some (.int (quotient m n))
  | .mod, [.int m, .int n] => some (.int (modulo m n))
  | .rem, [.int m, .int n] => some (.int (remainder m n))
  | .div, [a, b] => a.div? b
  | .toReal, [.int n] => some (.real (.rat n))
  | .toInt, [.real x] => some (.int x.floor)
  | .isInt, [.real (.rat q)] => some (.bool (q.den = 1))
  | .isInt, [.real _] => some (.bool false)
  | _, _ => none

end Op

def Term.value? : Term → Option Literal
  | .lit l => some l
  | _ => none

/-- An operator on evaluated arguments. A false member decides a conjunction and a true one a
disjunction, even if other members have no value. -/
def Op.reduce (o : Op) (args : List Term) : Term :=
  match o with
  | .and => if args.contains (.bool false) then .bool false else strict
  | .or => if args.contains (.bool true) then .bool true else strict
  | _ => strict
where
  /-- The operator on values, or the term as it stands. -/
  strict : Term :=
    match (allSome (args.map Term.value?)).bind o.onValues with
    | some v => .lit v
    | none => .op o args

def Table.valueAt? (t : Table) (args : List Term) : Option Literal :=
  match allSome (args.map Term.value?) with
  | some vs => some (t.value vs)
  -- arguments without a value do not matter to a constant table
  | none => if t.isConstant then some t.otherwise else none

structure EvalState where
  model : Model
  known : Std.HashMap Term Term := {}

abbrev Eval := StateM EvalState

def evalConstant (complete : Bool) (f : Symbol) : Eval Term := do
  let s ← get
  match s.model.constants.lookup f with
  | some v => return .lit v
  | none =>
    if complete then
      set { s with model := s.model.setConstant f f.range.default }
      return .lit f.range.default
    else return .const f

def evalFunction (complete : Bool) (f : Symbol) (args : List Term) : Eval Term := do
  let s ← get
  match s.model.functions.lookup f with
  | some t =>
    match t.valueAt? args with
    | some v => return .lit v
    | none => return .app f args
  | none =>
    if complete then
      set { s with model := s.model.setFunction f (.default f.range) }
      return .lit f.range.default
    else return .app f args

mutual

def Term.evalM (complete : Bool) (t : Term) : Eval Term := do
  match (← get).known[t]? with
  | some v => return v
  | none =>
    let v ← match t with
      | .lit l => pure (.lit l)
      | .app f [] => evalConstant complete f
      | .app f args => do
        let vs ← Term.evalAllM complete args
        evalFunction complete f vs
      -- the branch that is not taken is not evaluated, so that it completes nothing
      | .op .ite [c, a, b] => do
        let v ← Term.evalM complete c
        if v = .bool true then Term.evalM complete a
        else if v = .bool false then Term.evalM complete b
        else do
          let x ← Term.evalM complete a
          let y ← Term.evalM complete b
          pure (.op .ite [v, x, y])
      | .op o args => do
        let vs ← Term.evalAllM complete args
        pure (o.reduce vs)
      | .quant q vars body => pure (.quant q vars body)
    -- terms that share their parts are evaluated once
    modify fun s => { s with known := s.known.insert t v }
    return v

def Term.evalAllM (complete : Bool) : List Term → Eval (List Term)
  | [] => return []
  | t :: ts => do
    let v ← Term.evalM complete t
    let vs ← Term.evalAllM complete ts
    return v :: vs

end

def Model.eval (m : Model) (complete : Bool) (t : Term) : Term × Model :=
  let (v, s) := (t.evalM complete).run { model := m }
  (v, s.model)

end Validity
