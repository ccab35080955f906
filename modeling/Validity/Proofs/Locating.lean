import Validity.Host
import Validity.Proofs.Paths

/-!
Which file an external solver is started from. A name that starts at the root or takes at least two
steps keeps its slash in the normal form: the solver is then located by that path alone, wherever
programs are looked up. Every other name is one word in its normal form, also when it was written as
a path into the current directory, and that word is looked up. A solver depends on the path alone
that its name is read as, so the executable names the same solver again.
-/
namespace Validity

namespace Path

open Text

def trail (s : List Char) : List (List Char) :=
  if s.head? = some '/' then (pieces '/' s).drop 1 else pieces '/' s

theorem trail_cons_slash (s : List Char) : trail ('/' :: s) = pieces '/' s := by
  rw [trail, List.head?_cons, if_pos rfl, pieces_cons_mark, List.drop_one, List.tail_cons]

theorem trail_of_head {s : List Char} (h : s.head? ≠ some '/') : trail s = pieces '/' s :=
  if_neg h

theorem trail_ne_nil (s : List Char) : trail s ≠ [] := by
  by_cases h : s.head? = some '/'
  · obtain ⟨r, rfl⟩ := List.head?_eq_some_iff.mp h
    rw [trail_cons_slash]
    exact pieces_ne_nil '/' r
  · rw [trail_of_head h]
    exact pieces_ne_nil '/' s

/-- The steps on the way are the components of the path. -/
theorem trail_steps (s : List Char) : (trail s).filter isStep = (parse s).parts := by
  by_cases h : s.head? = some '/'
  · obtain ⟨r, rfl⟩ := List.head?_eq_some_iff.mp h
    rw [trail_cons_slash]
    exact (steps_rootText .single r).symm
  · rw [trail_of_head h]
    rfl

/-- The text of a normal path takes its steps, perhaps after standing still. -/
theorem IsNormal.trail_text {p : Path} (hp : p.IsNormal) :
    ∃ idle, (∀ s ∈ idle, isStep s = false) ∧ trail p.text = idle ++ p.parts := by
  have hbody : ∃ idle, (∀ s ∈ idle, isStep s = false) ∧
      pieces '/' (['/'].intercalate p.parts) = idle ++ p.parts := by
    by_cases hne : p.parts = []
    · rw [hne]
      exact ⟨[[]], by decide, rfl⟩
    · refine ⟨[], by simp, ?_⟩
      exact pieces_intercalate '/' _ (fun s hs => (hp s hs).2) hne
  by_cases hdot : p.root = .here ∧ p.parts = []
  · obtain ⟨root, parts⟩ := p
    obtain ⟨rfl, rfl⟩ := hdot
    exact ⟨[['.']], by decide, rfl⟩
  rw [hp.text_of_steps hdot]
  obtain ⟨idle, hidle, hpieces⟩ := hbody
  cases p.root with
  | here =>
    refine ⟨idle, hidle, ?_⟩
    rw [← hpieces]
    exact trail_of_head hp.body_head
  | single =>
    refine ⟨idle, hidle, ?_⟩
    rw [← hpieces]
    exact trail_cons_slash _
  | double =>
    -- the second slash is one more place to stand still
    refine ⟨[] :: idle, List.forall_mem_cons.mpr ⟨rfl, hidle⟩, ?_⟩
    rw [List.cons_append, ← hpieces, ← pieces_cons_mark]
    exact trail_cons_slash _

theorem head_text_iff {p : Path} (hp : p.IsNormal) :
    p.text.head? = some '/' ↔ p.root ≠ .here := by
  have hroot : rootOf p.text = p.root := congrArg Path.root hp.parse_text
  rw [← rootOf_ne_here_iff, hroot]

end Path

namespace Host

variable {h : Host} {place next : List String} {part : String}

def IsDirectory (h : Host) (place : List String) : Prop :=
  ∃ f, h.file? place = some f ∧ f.isDirectory = true

theorem isDirectory_of_step (hstep : h.step place part = .ok next) : h.IsDirectory place := by
  unfold step at hstep
  cases hfile : h.file? place with
  | none =>
    rw [hfile] at hstep
    cases hstep
  | some f =>
    refine ⟨f, hfile, ?_⟩
    by_contra hnot
    rw [hfile] at hstep
    simp [hnot] at hstep

/-- Standing still is possible in every directory. -/
theorem IsDirectory.step_idle (hplace : h.IsDirectory place) (hpart : part = "" ∨ part = ".") :
    h.step place part = .ok place := by
  obtain ⟨f, hfile, hdirectory⟩ := hplace
  unfold step
  rw [hfile]
  simp [hdirectory, hpart]

theorem walk_cons_iff {start : List String} {parts : List String} :
    (part :: parts).foldlM h.step start = .ok place ↔
      ∃ next, h.step start part = .ok next ∧ parts.foldlM h.step next = .ok place := by
  rw [List.foldlM_cons]
  cases h.step start part with
  | error f => simp [bind, Except.bind]
  | ok next => simp [bind, Except.bind]

/-- A walk of at least one step starts in a directory. -/
theorem walk_isDirectory {start : List String} {parts : List String} (hne : parts ≠ [])
    (hwalk : parts.foldlM h.step start = .ok place) : h.IsDirectory start := by
  obtain ⟨part, rest, rfl⟩ := List.exists_cons_of_ne_nil hne
  obtain ⟨next, hstep, _⟩ := walk_cons_iff.mp hwalk
  exact isDirectory_of_step hstep

theorem isStep_eq_false_iff (s : List Char) :
    Path.isStep s = false ↔ String.ofList s = "" ∨ String.ofList s = "." := by
  have hempty : String.ofList s = "" ↔ s = [] := by
    rw [← String.toList_inj, String.toList_ofList]
    rfl
  have hdot : String.ofList s = "." ↔ s = ['.'] := by
    rw [← String.toList_inj, String.toList_ofList]
    rfl
  rw [hempty, hdot, ← Bool.not_eq_true, Path.isStep_iff]
  tauto

/-- A walk that succeeds also does without the places where it stands still. -/
theorem walk_steps (parts : List (List Char)) (start : List String)
    (hwalk : (parts.map String.ofList).foldlM h.step start = .ok place) :
    ((parts.filter Path.isStep).map String.ofList).foldlM h.step start = .ok place := by
  induction parts generalizing start with
  | nil => exact hwalk
  | cons s parts ih =>
    rw [List.map_cons] at hwalk
    obtain ⟨next, hstep, hrest⟩ := walk_cons_iff.mp hwalk
    by_cases hs : Path.isStep s = true
    · rw [List.filter_cons_of_pos hs, List.map_cons]
      exact walk_cons_iff.mpr ⟨next, hstep, ih next hrest⟩
    · have hidle := (isStep_eq_false_iff s).mp (eq_false_of_ne_true hs)
      have hstay := (isDirectory_of_step hstep).step_idle hidle
      have hnext : start = next := Except.ok.inj (hstay.symm.trans hstep)
      rw [List.filter_cons_of_neg hs]
      exact ih start (hnext ▸ hrest)

/-- In a directory, a walk may stand still before it starts. -/
theorem IsDirectory.walk_idle {start : List String} (hstart : h.IsDirectory start)
    (idle parts : List (List Char)) (hidle : ∀ s ∈ idle, Path.isStep s = false)
    (hwalk : (parts.map String.ofList).foldlM h.step start = .ok place) :
    ((idle ++ parts).map String.ofList).foldlM h.step start = .ok place := by
  induction idle with
  | nil => exact hwalk
  | cons s idle ih =>
    obtain ⟨hs, hidle'⟩ := List.forall_mem_cons.mp hidle
    have hstay := hstart.step_idle ((isStep_eq_false_iff s).mp hs)
    exact walk_cons_iff.mpr ⟨start, hstay, ih hidle'⟩

def fileAt (h : Host) (place : List String) : Except OsFault File :=
  match h.file? place with
  | some f => .ok f
  | none => .error .noEntry

def origin (h : Host) (s : List Char) : List String := if s.head? = some '/' then [] else h.here

/-- A path leads to a file if the walk along its components ends there. -/
theorem find_eq_ok_iff (path : String) (f : File) : h.find path = .ok f ↔
    path ≠ "" ∧ ∃ place, ((Path.trail path.toList).map String.ofList).foldlM h.step
      (h.origin path.toList) = .ok place ∧ h.fileAt place = .ok f := by
  by_cases hempty : path = ""
  · subst hempty
    simp [find, throw, throwThe, MonadExceptOf.throw, bind, Except.bind]
  have hslash : path.startsWith "/" = true ↔ path.toList.head? = some '/' := by
    rw [String.startsWith_string_iff]
    cases path.toList with
    | nil => simp
    | cons c s => simp [eq_comm]
  have hfind : h.find path = (((Path.trail path.toList).map String.ofList).foldlM h.step
      (h.origin path.toList)).bind h.fileAt := by
    unfold find
    rw [if_neg hempty]
    simp only [hslash, Path.trail, origin]
    split_ifs with hhead
    · rw [List.map_drop]
      rfl
    · rfl
  rw [hfind, and_iff_right hempty]
  cases ((Path.trail path.toList).map String.ofList).foldlM h.step (h.origin path.toList) with
  | error e => simp [Except.bind]
  | ok place => simp [Except.bind]

/-- A path that leads to a file leads to the same file in its normal form. -/
theorem find_normalPath (path : String) (f : File) (hf : h.find path = .ok f) :
    h.find (normalPath path) = .ok f := by
  have hnormal := Path.parse_isNormal path.toList
  have htext : (normalPath path).toList = (Path.parse path.toList).text := String.toList_ofList
  obtain ⟨_, place, hwalk, hfile⟩ := (find_eq_ok_iff path f).mp hf
  have horigin : h.origin (normalPath path).toList = h.origin path.toList := by
    have hhead : (normalPath path).toList.head? = some '/' ↔ path.toList.head? = some '/' := by
      rw [htext, Path.head_text_iff hnormal]
      exact Path.rootOf_ne_here_iff path.toList
    simp only [origin, hhead]
  -- the walk succeeds, so it starts in a directory and does without standing still
  have hstart := walk_isDirectory
    (fun hnil => Path.trail_ne_nil _ (List.map_eq_nil_iff.mp hnil)) hwalk
  have hsteps := walk_steps _ _ hwalk
  rw [Path.trail_steps] at hsteps
  obtain ⟨idle, hidle, htrail⟩ := hnormal.trail_text
  refine (find_eq_ok_iff _ f).mpr ⟨normalPath_ne_empty path, place, ?_, hfile⟩
  rw [horigin, htext, htrail]
  exact hstart.walk_idle idle _ hidle hsteps

theorem isPath_iff (exe : String) : isPath exe = true ↔ '/' ∈ exe.toList := by
  rw [isPath, List.contains_iff_mem]

/-- A name with a slash is not looked up anywhere else. -/
theorem lookUp_of_isPath (h : Host) {exe : String} (hexe : '/' ∈ exe.toList) :
    h.lookUp exe = h.program exe := by
  rw [lookUp, if_pos ((isPath_iff exe).mpr hexe)]

/-- A plain name is started from the first directory that has a program of that name. -/
theorem lookUp_of_bare (h : Host) {exe : String} (hexe : '/' ∉ exe.toList) :
    (h.lookUp exe).toOption =
      h.directories.findSome? fun d => (h.program (join d exe)).toOption := by
  have hbare : ¬ isPath exe = true := fun hpath => hexe ((isPath_iff exe).mp hpath)
  rw [lookUp, if_neg hbare]
  simp only [List.findSome?_map, Function.comp_def]
  split
  · next p hp =>
    rw [hp]
    rfl
  · next hp =>
    rw [hp]
    rfl

end Host

/-- The solver is located by the path of its executable: whether it looks runnable and what its runs
give do not depend on the directories in which programs are looked up. -/
structure Solver.Located (s : Solver) (exe : String) : Prop where
  offers : ∀ (h : Host) (dirs : String),
    ({ h with searchPath := dirs } : Host).offers s = h.mayExecute exe
  starts : ∀ (h : Host) (dirs : String),
    ({ h with searchPath := dirs } : Host).lookUp exe = h.program exe
  runs : ∀ (h : Host) (dirs : String) (extra : List String) (file : String)
    (limit : Option Binary),
    ({ h with searchPath := dirs } : Host).run s extra file limit = h.run s extra file limit

theorem Solver.located_of_slash {s : Solver} {exe : String} (hargv : s.argv = [exe])
    (hexe : '/' ∈ exe.toList) : s.Located exe where
  offers h dirs := by
    rw [Host.offers, hargv]
    exact if_pos ((Host.isPath_iff exe).mpr hexe)
  starts h dirs := Host.lookUp_of_isPath _ hexe
  runs h dirs extra file limit := by
    have hlaunch : ({ h with searchPath := dirs } : Host).launch
        (s.argv ++ extra ++ [normalPath file]) limit =
          h.launch (s.argv ++ extra ++ [normalPath file]) limit := by
      rw [hargv, List.singleton_append, List.cons_append, Host.launch, Host.launch]
      simp only [Host.lookUp_of_isPath _ hexe]
      rfl
    rw [Host.run, Host.run, hlaunch]

/-- The executable of a solver is the normal form of its name. -/
theorem Solver.ofName_argv (name : String) : (Solver.ofName name).argv = [normalPath name] := by
  unfold Solver.ofName
  split_ifs with hswine
  · subst hswine
    decide
  · rfl

/-- Two names give one command line iff they are one path. -/
theorem Solver.argv_eq_iff (name other : String) :
    (Solver.ofName other).argv = (Solver.ofName name).argv ↔
      Path.parse other.toList = Path.parse name.toList := by
  rw [ofName_argv, ofName_argv, List.cons.injEq, and_iff_left rfl, normalPath, normalPath,
    String.ofList_inj, Path.text_parse_eq_iff]

theorem bare_normalPath {name : String} (h : '/' ∉ name.toList) :
    '/' ∉ (normalPath name).toList := by
  rw [normalPath, String.toList_ofList, Path.text_parse_of_bare h]
  split_ifs
  · decide
  · exact h

/-- The executable keeps a slash iff the name starts at the root or takes at least two steps. Then
the solver is located by its path, which leads where the name leads, and no plain name has the same
executable. Otherwise the executable is a plain name and is looked up. Two names have the same
executable iff they start in the same place and take the same steps. -/
theorem located_iff_rooted_or_nested (name : String) :
    ∃ exe, (Solver.ofName name).argv = [exe] ∧
      ('/' ∈ exe.toList ↔
        name.toList.head? = some '/' ∨ 2 ≤ (Path.parse name.toList).parts.length) ∧
      ('/' ∈ exe.toList → (Solver.ofName name).Located exe ∧
        (∀ (h : Host) (f : File), h.find name = .ok f → h.find exe = .ok f) ∧
        ∀ bare : String, '/' ∉ bare.toList → (Solver.ofName bare).argv ≠ [exe]) ∧
      ('/' ∉ exe.toList → (Solver.ofName exe).argv = [exe] ∧ ∀ h : Host,
        h.offers (Solver.ofName name) = (h.searchPath != "" &&
          h.directories.any fun d => h.isCommand (Host.join d exe)) ∧
        (h.lookUp exe).toOption =
          h.directories.findSome? fun d => (h.program (Host.join d exe)).toOption) ∧
      ∀ other : String, (Solver.ofName other).argv = [exe] ↔
        Path.parse other.toList = Path.parse name.toList := by
  have hargv := Solver.ofName_argv name
  have hnormal := Path.parse_isNormal name.toList
  refine ⟨normalPath name, hargv, ?_, ?_, ?_, ?_⟩
  · rw [normalPath, String.toList_ofList, hnormal.slash_mem_text_iff]
    apply or_congr_left
    exact Path.rootOf_ne_here_iff name.toList
  · intro hslash
    refine ⟨Solver.located_of_slash hargv hslash, fun h f => h.find_normalPath name f, ?_⟩
    intro bare hbare heq
    rw [Solver.ofName_argv] at heq
    exact bare_normalPath hbare ((List.cons.inj heq).1 ▸ hslash)
  · intro hbare
    refine ⟨?_, fun h => ⟨?_, h.lookUp_of_bare hbare⟩⟩
    · rw [← hargv, Solver.argv_eq_iff, normalPath, String.toList_ofList, hnormal.parse_text]
    · rw [Host.offers, hargv]
      exact if_neg fun hpath => hbare ((Host.isPath_iff _).mp hpath)
  · intro other
    rw [← hargv, Solver.argv_eq_iff]

/-- Two steps, with dots and slashes that say nothing. -/
theorem located_iff_rooted_or_nested_dotted :
    (Solver.ofName "./a//b/.").argv = ["a/b"] ∧ (Solver.ofName "./a//b/.").Located "a/b" ∧
      (Solver.ofName "b").argv ≠ ["a/b"] := by
  obtain ⟨exe, hargv, _, hlocated, _⟩ := located_iff_rooted_or_nested "./a//b/."
  have hnormal : (Solver.ofName "./a//b/.").argv = ["a/b"] := by decide
  obtain rfl : exe = "a/b" := (List.cons.inj (hargv.symm.trans hnormal)).1
  obtain ⟨hpath, _, hbare⟩ := hlocated (by decide)
  exact ⟨hnormal, hpath, hbare "b" (by decide)⟩

/-- A path into the current directory is taken for a plain name: another program of that name is
run, and without one the solver does not look runnable. -/
theorem path_here_looked_up :
    let wanted : Program := { stdout := [0x73, 0x61, 0x74] }
    let other : Program := { stdout := [0x75, 0x6E, 0x73, 0x61, 0x74] }
    let h : Host := {
      files := [(["w", "z3"], { content := .program wanted }),
        (["bin", "z3"], { content := .program other }), (["w", "p"], { content := .data [] })]
      here := ["w"]
      searchPath := "/bin" }
    '/' ∈ "./z3".toList ∧ (Solver.ofName "./z3").argv = ["z3"] ∧
      (Solver.ofName "z3").argv = ["z3"] ∧
      (h.run ⟨"z3", ["./z3"]⟩ [] "p" none).1.toOption.map Run.result = some .sat ∧
      (h.run (Solver.ofName "./z3") [] "p" none).1.toOption.map Run.result = some .unsat ∧
      h.mayExecute "./z3" = true ∧
      ({ h with searchPath := "/w/bin" } : Host).offers (Solver.ofName "./z3") = false := by
  decide +kernel

namespace Solver

def ofPath (p : Path) : Solver :=
  ⟨String.ofList (if p.name.isEmpty then p.text else p.name), [String.ofList p.text]⟩

/-- The solver that needs no path is the one at the path of that name. -/
theorem ofName_eq_ofPath (name : String) : ofName name = ofPath (Path.parse name.toList) := by
  unfold ofName
  split_ifs with hswine
  · subst hswine
    decide
  · unfold ofPath
    dsimp only
    split_ifs <;> rfl

theorem ofPath_name_ne_empty (p : Path) : (ofPath p).name ≠ "" := by
  have hne : (if p.name.isEmpty then p.text else p.name) ≠ [] := by
    split_ifs with hname
    · exact p.text_ne_nil
    · exact fun hnil => hname (List.isEmpty_iff.mpr hnil)
  intro hempty
  apply hne
  rw [← String.ofList_inj]
  exact hempty

/-- The executable of a solver is the normal form of its name, and it names the same solver. Neither
it nor the display name is empty, and two names stand for one solver iff they are read as the same
path. -/
theorem ofName_normalPath (name : String) :
    (ofName name).argv = [normalPath name] ∧
      ofName (normalPath name) = ofName name ∧
      (ofName name).name ≠ "" ∧ normalPath name ≠ "" ∧
      ∀ other : String,
        ofName other = ofName name ↔ Path.parse other.toList = Path.parse name.toList := by
  have hsame (other : String) (h : Path.parse other.toList = Path.parse name.toList) :
      ofName other = ofName name := by
    rw [ofName_eq_ofPath, ofName_eq_ofPath, h]
  refine ⟨ofName_argv name, hsame _ (parse_normalPath name), ?_, normalPath_ne_empty name,
    fun other => ⟨fun h => ?_, hsame other⟩⟩
  · rw [ofName_eq_ofPath]
    exact ofPath_name_ne_empty _
  · -- the executable alone tells the path
    exact (argv_eq_iff name other).mp (congrArg argv h)

end Solver
end Validity
