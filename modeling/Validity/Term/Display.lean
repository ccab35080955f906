import Validity.Term.Smtlib

/-!
Terms as people read them: infix operators with as few parentheses as their precedence allows,
everything else in the form of a call. Used in messages only.
-/
namespace Validity

inductive Style where
  /-- Between its operands. -/
  | between (mark : String) (level : Nat)
  /-- Before its only operand. -/
  | before (mark : String) (level : Nat)
  /-- Before all operands, which stand in parentheses. -/
  | call (name : String)
  deriving DecidableEq, Repr

/-- The style of an operator with `count` operands. A lower level binds more tightly. -/
def Op.style (o : Op) (count : Nat) : Style :=
  match o with
  | .and => .call "And" | .or => .call "Or" | .not => .call "Not"
  | .implies => .call "Implies" | .xor => .call "Xor" | .ite => .call "If"
  | .toReal => .call "ToReal" | .toInt => .call "ToInt" | .isInt => .call "IsInt"
  | .rem => .call "rem"
  | .distinct => if count = 2 then .between " != " 9 else .call "Distinct"
  | .eq => .between " == " 8 | .lt => .between " < " 8 | .le => .between " <= " 8
  | .gt => .between " > " 8 | .ge => .between " >= " 8
  | .add => .between " + " 3 | .sub => .between " - " 3
  | .mul => .between "*" 2 | .idiv => .between "/" 2 | .div => .between "/" 2
  | .mod => .between "%" 2
  | .neg => .before "-" 1

def Op.isAssociative (o : Op) : Bool :=
  o == .add || o == .mul

structure Shown where
  text : String
  head : Option (Op × List String) := none
  isQuantified : Bool := false

def parenthesised (s : String) : String := "(" ++ s ++ ")"

/-- An operator that parentheses may be needed for, with its level. Inequality is shown without
any, whatever it stands in. -/
def Op.level? (o : Op) : Option Nat :=
  match o, o.style 1 with
  | .distinct, _ => none
  | _, .between _ l | _, .before _ l => some l
  | _, .call _ => none

def Shown.operands (o : Op) (level : Nat) (first : Bool) (s : Shown) : List String :=
  match s.head with
  | none => [if s.isQuantified then parenthesised s.text else s.text]
  | some (o', row) =>
    if o = o' ∧ (o.isAssociative ∨ (first ∧ o = .sub)) then row
    else
      match o'.level? with
      | none => [s.text]
      | some l =>
        let bare := l < level || (o == .add && o' == .sub) || (o == .sub && first && o' == .add)
        [if bare then s.text else parenthesised s.text]

def operandRow (o : Op) (level : Nat) : List Shown → List String
  | [] => []
  | s :: ss => s.operands o level true ++ (ss.flatMap fun s' => s'.operands o level false)

def called (name : String) (args : List Shown) : String :=
  name ++ "(" ++ ", ".intercalate (args.map (·.text)) ++ ")"

def Op.shown (o : Op) (args : List Shown) : Shown :=
  match o.style args.length with
  | .call name => ⟨called name args, some (o, []), false⟩
  | .between mark level =>
    let row := operandRow o level args
    ⟨mark.intercalate row, some (o, row), false⟩
  | .before mark level =>
    let body := args.map fun s =>
      match s.head with
      | none => if s.isQuantified then parenthesised s.text else s.text
      | some (o', _) =>
        match o'.level? with
        | none => s.text
        | some l => if o' ≠ o ∧ level ≤ l then parenthesised s.text else s.text
    ⟨mark ++ String.join body, some (o, []), false⟩

def Literal.display : Literal → String
  | .bool b => if b then "True" else "False"
  | .int n => toString n
  | .real (.rat q) =>
    if q.den = 1 then toString q.num else toString q.num ++ "/" ++ toString q.den
  | .real x => x.decimals 10 ++ "?"
  | .bits v _ => toString v

mutual

def Term.shown : Term → Shown
  | .lit l => ⟨l.display, none, false⟩
  | .app f [] => ⟨f.name, none, false⟩
  | .app f args => ⟨called f.name (Term.shownAll args), none, false⟩
  | .op o args => o.shown (Term.shownAll args)
  | .quant q vars body =>
    let names := vars.map (·.name)
    let binder := match names with
      | [n] => n
      | ns => "[" ++ ", ".intercalate ns ++ "]"
    let name := match q with
      | .all => "ForAll"
      | .ex => "Exists"
    ⟨name ++ "(" ++ binder ++ ", " ++ (Term.shown body).text ++ ")", none, true⟩

def Term.shownAll : List Term → List Shown
  | [] => []
  | t :: ts => Term.shown t :: Term.shownAll ts

end

def Term.display (t : Term) : String := t.shown.text

def displayAll (ts : List Term) : String :=
  "[" ++ ", ".intercalate (ts.map Term.display) ++ "]"

end Validity
