import Validity.Prover

/-!
A described machine: its files, where programs are looked up, and where temporary files go. What a
launch reports follows from the description alone. Time limits are those that a clock can hold: what
becomes of a run under a limit that is infinite, undefined or above 2147483.647 seconds is left out,
and such a limit stops no program.
-/
namespace Validity

/-- A program by what it does: it writes, perhaps repeats the file named by its last argument or
lists the arguments before it, perhaps sleeps or kills itself, and ends. -/
structure Program where
  stdout : List UInt8 := []
  stderr : List UInt8 := []
  echo : Bool := false
  args : Bool := false
  sleeps : Bool := false
  signal : Option Nat := none
  status : Nat := 0

inductive Content where
  | directory
  | data (octets : List UInt8)
  | program (p : Program)

structure File where
  content : Content
  mode : Nat := 0o755

/-- A machine. Files are given by their components from the root; directories above them exist. -/
structure Host where
  files : List (List String × File) := []
  here : List String := []
  searchPath : String := ""
  temporary : String := "/tmp"

namespace File

def isExecutable (f : File) : Bool :=
  f.mode / 0o100 % 2 = 1

def isReadable (f : File) : Bool :=
  f.mode / 0o400 % 2 = 1

def isDirectory (f : File) : Bool :=
  match f.content with
  | .directory => true
  | _ => false

end File

namespace Host

def file? (h : Host) (parts : List String) : Option File :=
  match h.files.lookup parts with
  | some f => some f
  | none =>
    -- a directory needs no entry if there is something in it
    if parts.isPrefixOf h.here || h.files.any (fun f => parts.isPrefixOf f.1) then
      some { content := .directory }
    else none

def step (h : Host) (place : List String) (part : String) : Except OsFault (List String) :=
  match h.file? place with
  | none => .error .noEntry
  | some f =>
    if !f.isDirectory then .error .notDirectory
    -- to stay needs no permission to search
    else if part = "" ∨ part = "." then .ok place
    else if !f.isExecutable then .error .denied
    else if part = ".." then .ok place.dropLast
    else if 255 < part.utf8ByteSize then .error .nameTooLong
    else if (h.file? (place ++ [part])).isNone then .error .noEntry
    else .ok (place ++ [part])

def find (h : Host) (path : String) : Except OsFault File := do
  if path = "" then throw .noEntry
  let start := if path.startsWith "/" then [] else h.here
  let parts := (Text.pieces '/' path.toList).map String.ofList
  let parts := if path.startsWith "/" then parts.drop 1 else parts
  let place ← parts.foldlM h.step start
  match h.file? place with
  | some f => return f
  | none => throw .noEntry

def isPath (name : String) : Bool := name.toList.contains '/'

def join (directory name : String) : String :=
  if directory = "" ∨ directory.endsWith "/" then directory ++ name else directory ++ "/" ++ name

def directories (h : Host) : List String :=
  (Text.pieces ':' h.searchPath.toList).map String.ofList

def mayExecute (h : Host) (path : String) : Bool :=
  match h.find path with
  | .ok f => f.isExecutable
  | .error _ => false

def isCommand (h : Host) (path : String) : Bool :=
  match h.find path with
  | .ok f => f.isExecutable && !f.isDirectory
  | .error _ => false

def offers (h : Host) (s : Solver) : Bool :=
  match s.argv with
  | [] => false
  | exe :: _ =>
    -- by its path, also a directory counts
    if isPath exe then h.mayExecute exe
    else h.searchPath != "" && h.directories.any fun d => h.isCommand (join d exe)

def interpreter? (octets : List UInt8) : Option String :=
  match octets with
  | 0x23 :: 0x21 :: rest =>
    let line := Text.Utf8.decodeLossy (rest.takeWhile (· != 0x0A))
    let gap (c : Char) : Bool := c == ' ' || c == '\t'
    let word := (line.dropWhile gap).takeWhile fun c => !gap c
    if word.isEmpty then none else some (String.ofList word)
  | _ => none

def program (h : Host) (path : String) : Except OsFault Program := do
  let f ← h.find path
  match f.content with
  | .directory => throw .denied
  | .program p => if f.isExecutable then return p else throw .denied
  | .data octets =>
    if !f.isExecutable then throw .denied
    match interpreter? octets with
    | none => throw .format
    | some i =>
      -- a script runs if its interpreter does, and what it writes is left out
      let g ← h.find i
      if g.isExecutable && !g.isDirectory then return {} else throw .denied

/-- The program for the first word of a command line. A plain name is tried in every directory of
the search path; if none of them has it, the first refusal is reported that says more than that
the name is not there. -/
def lookUp (h : Host) (exe : String) : Except OsFault Program :=
  if isPath exe then h.program exe
  else
    let tries := h.directories.map fun d => h.program (join d exe)
    match tries.findSome? Except.toOption with
    | some p => .ok p
    | none =>
      let faults := tries.filterMap fun t =>
        match t with
        | .error f => some f
        | .ok _ => none
      let telling := faults.find? fun f => f ≠ .noEntry ∧ f ≠ .notDirectory
      .error ((telling.or faults.getLast?).getD .noEntry)

def octets (s : String) : List UInt8 := s.toUTF8.toList

def contents (h : Host) (path : String) : Except (String × String) (List UInt8) :=
  match h.find path with
  -- to copy the file and to print it fail with different complaints
  | .ok f =>
    match f.content with
    | .directory =>
      .error ("-r not specified; omitting directory '" ++ path ++ "'", path ++ ": Is a directory")
    | .data bs =>
      if f.isReadable then .ok bs
      else
        .error ("cannot open '" ++ path ++ "' for reading: Permission denied",
          path ++ ": Permission denied")
    | .program _ => .ok []
  | .error f =>
    .error ("cannot stat '" ++ path ++ "': " ++ f.text, path ++ ": " ++ f.text)

def nap : Rat := 5

def isOver : Option Binary → Bool
  | some (.finite negative q) => negative || q = 0
  | some (.infinite negative) => negative
  | _ => false

def stops (limit : Option Binary) (p : Program) : Bool :=
  match limit with
  | some (.finite _ q) => p.sleeps && q ≤ nap
  | _ => false

def execute (h : Host) (p : Program) (args : List String) (limit : Option Binary) :
    Launch × Option (List UInt8) :=
  let input := h.contents (args.getLast?.getD "")
  let copy := input.toOption
  let copyFault := match input with
    | .ok _ => []
    | .error (e, _) => octets ("/bin/cp: " ++ e ++ "\n")
  let echoed := if !p.echo then [] else input.toOption.getD []
  let echoFault := match p.echo, input with
    | true, .error (_, e) => octets ("/bin/cat: " ++ e ++ "\n")
    | _, _ => []
  let listed := if !p.args then [] else args.dropLast.flatMap fun a => octets (a ++ "\n")
  let out := p.stdout ++ echoed ++ listed
  let err := copyFault ++ p.stderr ++ echoFault
  -- under a limit that is over, the program does not even copy its file
  if isOver limit then (.stopped [] [], none)
  else if stops limit p then (.stopped out err, copy)
  else
    match p.signal with
    | some k => (.ended out err (-(k : Int)), copy)
    | none => (.ended out err (p.status % 256 : Nat), copy)

def launch (h : Host) (argv : List String) (limit : Option Binary) :
    Launch × Option (List UInt8) :=
  if argv.any fun a => a.toList.contains '\x00' then (.malformed, none)
  else
    match argv with
    | [] => (.refused .noEntry, none)
    | exe :: args =>
      match h.lookUp exe with
      | .error f => (.refused f, none)
      | .ok p => h.execute p args limit

def withFile (h : Host) (parts : List String) (f : File) : Host :=
  { h with files := h.files ++ [(parts, f)] }

def run (h : Host) (s : Solver) (extra : List String) (file : String) (limit : Option Binary) :
    Except Error Run × Option (List UInt8) :=
  let (report, received) := h.launch (s.argv ++ extra ++ [normalPath file]) limit
  (report.run (s.argv.headD ""), received)

def components (path : String) : List String :=
  (Text.pieces '/' path.toList).filterMap fun s => if s.isEmpty then none else some (.ofList s)

def problemDirectory (h : Host) : String := join h.temporary "provekit-swine-*"

def submit (h : Host) (argv : List String) (limit : Option Binary) (problem : String) :
    Submission :=
  match h.find h.temporary with
  | .error f => { report := .error (.prepare h.problemDirectory f) }
  | .ok _ =>
    let path := join h.problemDirectory "query.smt2"
    let file : File := { content := .data (octets problem), mode := 0o644 }
    let (report, received) := (h.withFile (components path) file).launch (argv ++ [path]) limit
    { report := .ok report, received }

end Host
end Validity
