import Validity.Inspection

/-!
Scripts of readings: what a reader does with a model, step by step, with blocks inside blocks. The
trace of a script tells for every step its answer and what was looked at right after it.
-/
namespace Validity

inductive ValueKind where
  | bool
  | int
  | rational
  deriving DecidableEq, Repr

/-- A step of a script. In a block, an error of a step ends the block, unless the step is guarded:
then the block goes on. -/
inductive Step where
  | read (kind : ValueKind) (term : Term)
  | eval (term : Term) (complete : Bool)
  | look (symbol : Symbol)
  /-- Marks a term with all its parts. -/
  | visit (term : Term)
  | addName (name : String)
  | unaccessed
  | reset
  | display
  | describe
  /-- Tells the consistency and all symbols of the model as it is now. -/
  | info
  /-- Keeps an iterator over the symbols that are not looked at. -/
  | iterate (iterator : String)
  | next (iterator : String)
  /-- Makes evaluation fail from now on, or lets it work again. -/
  | break (cause : Option String)
  | raise (error : Error)
  | block (body : List (Bool × Step))

inductive Answer where
  | done
  | bool (b : Bool)
  | int (n : Int)
  | rational (q : Rat)
  | term (t : Term)
  | interpretation (i : Option Interpretation)
  | symbols (fs : List Symbol)
  | symbol (f : Option Symbol)
  | text (s : String)
  | info (c : Consistency) (fs : List Symbol)

inductive Trace where
  | mk (result : Except Error Answer) (after : Tracker) (inner : Option (List Trace))

def Trace.result : Trace → Except Error Answer
  | .mk r _ _ => r

structure Reader where
  inspection : Inspection
  iterators : List (String × List Symbol) := []

namespace Reader

def perform {α : Type} (m : Reader) (f : α → Answer) (body : Reading α) :
    Except Error Answer × Reader :=
  let (r, i) := ExceptT.run body m.inspection
  (r.map f, { m with inspection := i })

def traced (out : Except Error Answer × Reader) : Trace × Reader :=
  (.mk out.1 out.2.inspection.tracker none, out.2)

end Reader

mutual

def Step.run (m : Reader) : Step → Trace × Reader
  | .read .bool t => Reader.traced (m.perform .bool (Reading.bool t))
  | .read .int t => Reader.traced (m.perform .int (Reading.int t))
  | .read .rational t => Reader.traced (m.perform .rational (Reading.rational t))
  | .eval t complete => Reader.traced (m.perform .term (Reading.eval t complete))
  | .look f => Reader.traced (m.perform .interpretation (Reading.interpretation f))
  | .visit t =>
    Reader.traced (.ok .done, { m with inspection := m.inspection.track (·.visit t) })
  | .addName s =>
    Reader.traced (.ok .done, { m with inspection := m.inspection.track (·.addName s) })
  | .unaccessed => Reader.traced (.ok (.symbols m.inspection.unaccessed), m)
  | .reset => Reader.traced (.ok .done, { m with inspection := m.inspection.reset })
  | .display => Reader.traced (.ok (.text m.inspection.model.display), m)
  | .describe => Reader.traced (.ok (.text m.inspection.describe), m)
  | .info =>
    Reader.traced (.ok (.info m.inspection.consistency m.inspection.model.symbols), m)
  -- an iterator starts with all symbols and passes over those looked at when it is asked
  | .iterate name =>
    Reader.traced
      (.ok .done, { m with iterators := assign name m.inspection.symbols m.iterators })
  | .next name =>
    let (f, rest) := m.inspection.next ((m.iterators.lookup name).getD [])
    Reader.traced (.ok (.symbol f), { m with iterators := assign name rest m.iterators })
  | .break cause =>
    Reader.traced (.ok .done, { m with inspection := { m.inspection with fault := cause } })
  | .raise e => Reader.traced (.error e, m)
  | .block body =>
    let (mark, i) := m.inspection.openBlock
    let (traces, failure, n) := Step.runAll { m with inspection := i } body
    let n := { n with inspection := n.inspection.closeBlock mark failure.isNone }
    let result := match failure with
      | some e => .error e
      | none => .ok .done
    (.mk result n.inspection.tracker (some traces), n)

def Step.runAll (m : Reader) : List (Bool × Step) → List Trace × Option Error × Reader
  | [] => ([], none, m)
  | (guarded, s) :: rest =>
    let (t, n) := Step.run m s
    match t.result, guarded with
    -- the rest is not run and leaves no trace
    | .error e, false => ([t], some e, n)
    | _, _ =>
      let (ts, e, n) := Step.runAll n rest
      (t :: ts, e, n)

end

end Validity
