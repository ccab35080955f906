import Validity.Prover
import Validity.Proofs.Rendering
import Validity.Proofs.Residue

/-!
Problems after filtering. As long as the parentheses in each name are balanced, a problem consists
of those of its commands that pass the filter, whole and in their order, a line for each.
-/
namespace Validity

namespace Command

open Instruction

theorem lines_of_ne_nil (cs : List (List Char)) (h : cs ≠ []) :
    (cs.map fun l => '\n' :: l).flatten = '\n' :: ['\n'].intercalate cs := by
  cases cs with
  | nil => exact absurd rfl h
  | cons c cs =>
    rw [Text.intercalate_cons_eq]
    rfl

theorem intercalate_concat_suffix (g : List Char) (l : List (List Char)) (s : List Char) :
    s <:+ g.intercalate (l ++ [s]) := by
  induction l with
  | nil => simp
  | cons r l ih =>
    cases l with
    | nil => exact ⟨r ++ g, by simp⟩
    | cons q l =>
      rw [List.cons_append, List.cons_append, List.intercalate_cons_cons]
      exact ih.trans (List.suffix_append _ _)

/-- The commands as they are cut: all but the first with the end of the line before them. -/
theorem written_pieces (ts : List Term) : (written ts).map spaced =
    match (commands ts).map String.toList with
    | [] => ['\n' :: checkCommand.toList]
    | c :: cs => c :: (cs ++ [checkCommand.toList]).map fun l => '\n' :: l := by
  rw [commands_eq_listing, written]
  cases listing ts with
  | nil => rfl
  | cons i is => simp [spaced, Instruction.text]

namespace Filter

variable {f : Filter}

theorem filter_lines (hf : f.WithinCommands) (cs : List (List Char)) :
    (cs.map fun l => '\n' :: l).filter f.keeps =
      (cs.filter fun c => ¬ f.Drops c).map fun l => '\n' :: l := by
  rw [List.filter_map]
  congr 1
  apply List.filter_congr
  intro c _
  rw [Bool.eq_iff_iff, Function.comp_apply, keeps_iff, hf.drops_line, decide_eq_true_iff]

/-- The problem of some formulas: the commands that pass, a line for each. The end of the first line
stays behind if its command is dropped. -/
theorem problem_eq_lines (hf : f.WithinCommands) (hcheck : ¬ f.Drops checkCommand.toList)
    (ts : List Term) (h : ∀ g ∈ Term.symbolsIn ts, g.IsBalanced) :
    f.problem ts = (if (commands ts).head?.all fun c => f.Drops c.toList then "\n" else "") ++
      "\n".intercalate ((commands ts).filter (fun c => ¬ f.Drops c.toList) ++ [checkCommand]) := by
  apply String.toList_inj.mp
  have hsep : "\n".toList = ['\n'] := rfl
  have hkept (cs : List String) :
      (cs.filter fun c => ¬ f.Drops c.toList).map String.toList =
        (cs.map String.toList).filter fun c => ¬ f.Drops c := by
    rw [List.filter_map]
    rfl
  -- the command to check passes, so there is always a last line
  have hlines (cs : List (List Char)) :
      ((cs ++ [checkCommand.toList]).map fun l => '\n' :: l).filter f.keeps =
        (cs.filter (fun c => ¬ f.Drops c) ++ [checkCommand.toList]).map fun l => '\n' :: l := by
    rw [filter_lines hf, List.filter_append]
    simp [hcheck]
  rw [f.problem_eq ts h, String.toList_ofList, written_pieces, String.toList_append,
    String.toList_intercalate, List.map_append, hkept, hsep]
  cases hc : commands ts with
  | nil =>
    have hfirst := hlines []
    simpa using congrArg List.flatten hfirst
  | cons c cs =>
    simp only [List.map_cons, List.map_nil, List.head?_cons, Option.all_some,
      List.filter_cons, hlines, decide_not]
    by_cases hd : f.Drops c.toList
    · -- the end of the first line belongs to the second command and stays
      have hk : f.keeps c.toList = false := (f.keeps_eq_false_iff _).mpr hd
      simp only [hk, hd, decide_true, Bool.not_true, if_true, Bool.false_eq_true, if_false]
      exact lines_of_ne_nil _ (by simp)
    · have hk : f.keeps c.toList = true := (f.keeps_iff _).mpr hd
      simp only [hk, hd, decide_false, Bool.not_false, if_true, Bool.false_eq_true, if_false]
      exact (Text.intercalate_cons_eq '\n' _ _).symm

/-- Nothing that would be dropped is left in a problem, whatever the names in it. -/
theorem problem_not_dropped (hf : f.Confined) (ts : List Term) :
    ¬ f.Drops (f.problem ts).toList := by
  rw [problem, String.toList_ofList]
  exact hf.not_drops_apply _

end Filter
end Command

theorem Session.problem_of_bool (s : Session) (f : Command.Filter) (us : List Term)
    (hb : ∀ u ∈ us, u.ty = .bool) : s.problem f us = .ok (f.problem (s.assertions ++ us)) := by
  have hall : (us.all fun t => t.ty = .bool) = true := by simpa using hb
  rw [Session.problem, if_pos hall]

theorem checkCommand_not_dropped : ¬ ({} : Config).unsupported.Drops checkCommand.toList := by
  decide

/-- With balanced names, the problem of a session under assumptions is the commands that the default
settings do not drop, each of them whole, in order and on a line of its own, and then the command to
check. An end of a line stands in front if there is no first command or it is dropped. -/
theorem problem_of_whole_commands (s : Session) (us : List Term) (hb : ∀ u ∈ us, u.ty = .bool)
    (hn : ∀ f ∈ Term.symbolsIn (s.assertions ++ us), f.IsBalanced) :
    let filter := ({} : Config).unsupported
    let written := (freeSymbols (s.assertions ++ us)).map Symbol.declaration ++
      s.assertions.map Term.assertion ++ us.map Term.assertion
    let kept := written.filter fun c => ¬ filter.Drops c.toList
    let lead := if written.head?.all fun c => filter.Drops c.toList then "\n" else ""
    ∃ text, s.problem filter us = .ok text ∧
      text = lead ++ "\n".intercalate (kept ++ [checkCommand]) ∧
      checkCommand.toList <:+ text.toList := by
  intro filter written kept lead
  -- the session's assertions come before the assumptions
  have hwritten : commands (s.assertions ++ us) = written := by
    rw [commands, List.map_append, ← List.append_assoc]
  have htext := Command.Filter.problem_eq_lines Command.Filter.withinCommands_default
    checkCommand_not_dropped _ hn
  rw [hwritten] at htext
  refine ⟨_, s.problem_of_bool filter us hb, htext, ?_⟩
  have hlast : checkCommand.toList <:+ ("\n".intercalate (kept ++ [checkCommand])).toList := by
    rw [String.toList_intercalate, List.map_append]
    exact Command.intercalate_concat_suffix _ _ _
  rw [show filter.problem (s.assertions ++ us) = _ from htext, String.toList_append]
  exact hlast.trans (List.suffix_append _ _)

/-- A name with a call in it, a quantifier, and a declaration that is dropped. -/
theorem problem_of_whole_commands_call :
    let call : Symbol := ⟨"f(x)", [], .bool⟩
    let exp : Symbol := ⟨"exp", [.int], .int⟩
    let x : Symbol := ⟨"x", [], .int⟩
    let s : Session := { base := [.quant .all [x] (.const call), .const call] }
    let u : Term := .op .eq [.app exp [.const x], .const x]
    s.problem ({} : Config).unsupported [u] = .ok ("(declare-fun |f(x)| () Bool)\n" ++
      "(declare-fun x () Int)\n(assert |f(x)|)\n(assert (= (exp x) x))\n(check-sat)") := by
  intro call exp x s u
  have hname : call.name.toList = 'f' :: '(' :: (['x'] ++ [')']) := by decide
  have hcall : call.IsBalanced := by
    rw [Symbol.IsBalanced, hname]
    exact .plain 'f' _ (by decide) (by decide) (.nested ['x'] [] (.of_plain (by decide)) .nil)
  obtain ⟨text, hproblem, htext, _⟩ := problem_of_whole_commands s [u] (by decide) (by
    intro f hf
    have hcases : f = x ∨ f = call ∨ f = exp ∨ f = x := by
      simpa [s, u, Session.assertions, Term.symbolsIn, Term.symbols, Term.const] using hf
    rcases hcases with rfl | rfl | rfl | rfl
    · exact .of_plain (by decide)
    · exact hcall
    · exact .of_plain (by decide)
    · exact .of_plain (by decide))
  rw [hproblem, htext]
  exact congrArg Except.ok (by decide +kernel)

/-- A parenthesis without a partner in a name: the command that declares `q` is cut, and nothing
behind it is left, though no command is to be dropped. -/
theorem unbalanced_name_cuts_commands :
    let p : Symbol := ⟨"p", [], .bool⟩
    let c : Symbol := ⟨"a)b", [], .bool⟩
    let q : Symbol := ⟨"q", [], .bool⟩
    let s : Session := { base := [.const p, .const c, .const q] }
    (∀ c ∈ commands s.assertions, ¬ ({} : Config).unsupported.Drops c.toList) ∧
      s.problem ({} : Config).unsupported [] =
        .ok "(declare-fun p () Bool)\n(declare-fun |a)b| () Bool)\n(declare-fun q ()" := by
  intro p c q s
  have hall : (commands s.assertions).all (fun c => ({} : Config).unsupported.keeps c.toList) := by
    decide +kernel
  constructor
  · intro c hc
    exact (Command.Filter.keeps_iff _ _).mp (List.all_eq_true.mp hall c hc)
  · rw [s.problem_of_bool _ [] fun u hu => absurd hu List.not_mem_nil]
    exact congrArg Except.ok (by decide +kernel)

end Validity
