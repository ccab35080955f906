import Std.Data.HashSet
import Validity.Term.Basic

/-!
What was looked at: the names of symbols and the terms, with regions that can be undone. While a
region is open, every addition is noted on a trail, and undoing a region takes back what was added
since it began, without copies of the sets.
-/
namespace Validity

inductive Entry where
  | name (name : String)
  | node (term : Term)
  deriving DecidableEq

/-- The names and terms looked at, the trail with the newest addition first, and how many regions
were opened and not closed. The count is below zero when a region outlives a reset. -/
structure Tracker where
  names : List String := []
  nodes : Std.HashSet Term := {}
  trail : List Entry := []
  openRegions : Int := 0

namespace Tracker

/-- Opens a region. The mark to undo it is the length of the trail before. -/
def begin (r : Tracker) : Tracker :=
  { r with openRegions := r.openRegions + 1 }

def commit (r : Tracker) : Tracker :=
  { r with
    openRegions := r.openRegions - 1
    -- when no region is left, nothing can be undone any more
    trail := if r.openRegions - 1 = 0 then [] else r.trail }

def discard (r : Tracker) : Entry → Tracker
  | .name s => { r with names := r.names.erase s }
  | .node t => { r with nodes := r.nodes.erase t }

def undo (r : Tracker) : Nat → Tracker
  | 0 => r
  | count + 1 =>
    match r.trail with
    | [] => r
    | e :: rest => ({ r with trail := rest }.discard e).undo count

def rollback (r : Tracker) (mark : Nat) : Tracker :=
  -- after a reset the trail may be shorter than the mark, and then nothing is taken back
  (r.undo (r.trail.length - mark)).commit

def record (r : Tracker) (e : Entry) : Tracker :=
  if r.openRegions = 0 then r else { r with trail := e :: r.trail }

def addName (r : Tracker) (s : String) : Tracker :=
  if r.names.contains s then r
  else { r with names := r.names ++ [s] }.record (.name s)

def addNode (r : Tracker) (t : Term) : Tracker :=
  if r.nodes.contains t then r
  else { r with nodes := r.nodes.insert t }.record (.node t)

def addNodes (r : Tracker) : List Term → Tracker × List Bool
  | [] => (r, [])
  | t :: ts =>
    let new := !r.nodes.contains t
    let (r', flags) := (r.addNode t).addNodes ts
    (r', new :: flags)

structure Walk where
  tracker : Tracker
  taken : List Term := []

def Walk.take (w : Walk) (t : Term) : Walk :=
  let r := match t with
    | .app f _ => w.tracker.addName f.name
    | _ => w.tracker
  ⟨r, t :: w.taken⟩

mutual

/-- Takes up a term and adds its arguments, then takes up in the same way those arguments that
were new, the last one first. The bodies of quantifiers are left alone. -/
def Walk.visit (w : Walk) : Term → Walk
  | .app f args =>
    let w := w.take (.app f args)
    let (r, new) := w.tracker.addNodes args
    Walk.visitNew { w with tracker := r } args new
  | .op o args =>
    let w := w.take (.op o args)
    let (r, new) := w.tracker.addNodes args
    Walk.visitNew { w with tracker := r } args new
  | .lit l => w.take (.lit l)
  | .quant q vars body => w.take (.quant q vars body)

def Walk.visitNew (w : Walk) : List Term → List Bool → Walk
  | t :: ts, new :: flags =>
    -- the last of the new terms is walked through first
    let w := Walk.visitNew w ts flags
    if new then Walk.visit w t else w
  | _, _ => w

end

/-- Adds a term with all that its symbols and subterms bring. Only subterms that were not there
before are walked through, so shared parts cost nothing. -/
def visit (r : Tracker) (t : Term) : Tracker :=
  (Walk.visit { tracker := r.addNode t } t).tracker

end Tracker
end Validity
