import Validity.Term.Smtlib
import Validity.Text.Blank

/-!
Commands of a problem text. A text is cut after every closing parenthesis that brings the count of
parentheses back to zero; what stands before a command belongs to it, what stands after the last
one is dropped. Commands are then kept or dropped as a whole. The problem for an external solver is
the text of some formulas and the command to check them, less what such solvers do not support.
-/
namespace Validity

def checkCommand : String := "(check-sat)"

namespace Command

/-- The commands of a text, when `depth` parentheses are open and `before` is the text of the
current command so far, last character first. -/
def splitFrom (depth : Int) (before : List Char) : List Char → List (List Char)
  | [] => []
  | '(' :: cs => splitFrom (depth + 1) ('(' :: before) cs
  | ')' :: cs =>
    -- a parenthesis too many takes the count below zero, and it goes on from there
    if depth = 1 then (')' :: before).reverse :: splitFrom 0 [] cs
    else splitFrom (depth - 1) (')' :: before) cs
  | c :: cs => splitFrom depth (c :: before) cs

def split (text : List Char) : List (List Char) :=
  splitFrom 0 [] text

/-- After at least one blank comes `name`, and then a blank or an opening parenthesis. -/
def namesNext (name : List Char) : List Char → Bool
  | [] => false
  | c :: cs =>
    Text.isBlank c &&
      ((name.isPrefixOf cs && match cs.drop name.length with
        | [] => false
        | d :: _ => Text.isBlank d || d == '(') ||
      namesNext name cs)

def declareFun : List Char := "(declare-fun".toList

def declares (name : List Char) : List Char → Bool
  | [] => false
  | c :: cs =>
    (declareFun.isPrefixOf (c :: cs) && namesNext name ((c :: cs).drop declareFun.length)) ||
      declares name cs

/-- What a filter drops: commands with one of the keywords anywhere, and commands that declare one
of the functions. -/
structure Filter where
  keywords : List String := ["forall", "exists"]
  functions : List String := ["exp"]
  deriving DecidableEq, Repr

def Filter.keeps (f : Filter) (command : List Char) : Bool :=
  !(f.keywords.any fun k => Text.occursIn k.toList command) &&
    !(f.functions.any fun g => declares g.toList command)

def Filter.apply (f : Filter) (text : List Char) : List Char :=
  ((split text).filter f.keeps).flatten

def Filter.problem (f : Filter) (ts : List Term) : String :=
  let text := Text.trimRight (problemText ts).toList
  String.ofList (f.apply (text ++ ("\n" ++ checkCommand ++ "\n").toList))

end Command
end Validity
