import Validity.Number.Quadratic

/-!
Terms of many-sorted logic over Booleans, integers and reals. A term is a tree; equal trees are
one term, and the comparison is quick for trees that share their parts, because every term keeps a
key of its own and equal parts need not be looked into.
-/
namespace Validity

/-- The sorts. Bit vectors occur as values only. -/
inductive Ty where
  | bool
  | int
  | real
  | bits (width : Nat)
  deriving DecidableEq, Repr, Hashable

/-- An uninterpreted constant or function, with the sorts of its arguments and its range. Symbols
of one name and different sorts are different. -/
structure Symbol where
  name : String
  domain : List Ty
  range : Ty
  deriving DecidableEq, Repr, Hashable

inductive Literal where
  | bool (b : Bool)
  | int (n : Int)
  | real (x : Quadratic)
  | bits (value width : Nat)
  deriving DecidableEq, Repr, Hashable

/-- The interpreted operators. `idiv`, `mod` and `rem` are on integers, `div` on reals. -/
inductive Op where
  | and | or | not | implies | xor | eq | distinct | ite
  | lt | le | gt | ge
  | add | sub | mul | neg | idiv | mod | rem | div
  | toReal | toInt | isInt
  deriving DecidableEq, Repr, Hashable

inductive Quantifier where
  | all
  | ex
  deriving DecidableEq, Repr, Hashable

inductive Term where
  | lit (l : Literal)
  | app (f : Symbol) (args : List Term)
  | op (o : Op) (args : List Term)
  | quant (q : Quantifier) (vars : List Symbol) (body : Term)
with
  /-- The key of a term: equal terms have equal keys. -/
  @[computed_field] key : Term → UInt64
    | .lit l => mixHash 11 (hash l)
    | .app f args => args.foldl (fun h a => mixHash h (key a)) (mixHash 13 (hash f))
    | .op o args => args.foldl (fun h a => mixHash h (key a)) (mixHash 17 (hash o))
    | .quant q vs b => mixHash (mixHash (hash q) (hash vs)) (key b)

namespace Term

instance : Inhabited Term := ⟨.lit (.bool true)⟩
instance : Hashable Term := ⟨key⟩

mutual

def decEq (s t : Term) : Decidable (s = t) :=
  withPtrEqDecEq s t fun _ =>
    match s, t with
    | .lit a, .lit b => decidable_of_iff (a = b) (by simp)
    | .app f xs, .app g ys =>
      if h : f = g then
        match decEqAll xs ys with
        | isTrue h' => isTrue (by rw [h, h'])
        | isFalse h' => isFalse (by simp [h'])
      else isFalse (by simp [h])
    | .op f xs, .op g ys =>
      if h : f = g then
        match decEqAll xs ys with
        | isTrue h' => isTrue (by rw [h, h'])
        | isFalse h' => isFalse (by simp [h'])
      else isFalse (by simp [h])
    | .quant p us b, .quant q vs c =>
      if h : p = q ∧ us = vs then
        match decEq b c with
        | isTrue h' => isTrue (by rw [h.1, h.2, h'])
        | isFalse h' => isFalse (by simp [h'])
      else isFalse (by simp only [quant.injEq]; exact fun e => h ⟨e.1, e.2.1⟩)
    | .lit _, .app .. | .lit _, .op .. | .lit _, .quant .. => isFalse nofun
    | .app .., .lit _ | .app .., .op .. | .app .., .quant .. => isFalse nofun
    | .op .., .lit _ | .op .., .app .. | .op .., .quant .. => isFalse nofun
    | .quant .., .lit _ | .quant .., .app .. | .quant .., .op .. => isFalse nofun

def decEqAll (ss ts : List Term) : Decidable (ss = ts) :=
  match ss, ts with
  | [], [] => isTrue rfl
  | s :: ss, t :: ts =>
    match decEq s t with
    | isTrue h =>
      match decEqAll ss ts with
      | isTrue h' => isTrue (by rw [h, h'])
      | isFalse h' => isFalse (by simp [h'])
    | isFalse h => isFalse (by simp [h])
  | [], _ :: _ => isFalse nofun
  | _ :: _, [] => isFalse nofun

end

instance : DecidableEq Term := decEq

def const (f : Symbol) : Term := .app f []

def bool (b : Bool) : Term := .lit (.bool b)

def int (n : Int) : Term := .lit (.int n)

def not (t : Term) : Term := .op .not [t]

def and (ts : List Term) : Term := .op .and ts

end Term

def Literal.ty : Literal → Ty
  | .bool _ => .bool
  | .int _ => .int
  | .real _ => .real
  | .bits _ w => .bits w

/-- The sort of a term, which is taken to be well sorted. -/
def Term.ty : Term → Ty
  | .lit l => l.ty
  | .app f _ => f.range
  | .quant .. => .bool
  | .op .ite (_ :: t :: _) => t.ty
  | .op .add (t :: _) | .op .sub (t :: _) | .op .mul (t :: _) | .op .neg (t :: _) => t.ty
  | .op .idiv _ | .op .mod _ | .op .rem _ | .op .toInt _ => .int
  | .op .div _ | .op .toReal _ => .real
  | .op .. => .bool

/-- The arguments of an application; a quantifier has none. -/
def Term.children : Term → List Term
  | .app _ args | .op _ args => args
  | .lit _ | .quant .. => []

def Ty.default : Ty → Literal
  | .bool => .bool false
  | .int => .int 0
  | .real => .real (.rat 0)
  | .bits w => .bits 0 w

end Validity
