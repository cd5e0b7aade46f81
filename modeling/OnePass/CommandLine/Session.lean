import OnePass.Assembler.Program
import OnePass.CommandLine.Flag
import OnePass.Compiler.Program
import OnePass.Diagnostic
import OnePass.File.Tree
import OnePass.Machine.Step

namespace OnePass.CommandLine

/-- Where a command runs. -/
structure Session where
  cwd : Path
  tree : FileTree := {}
  env : Text → Option Text := fun _ => none
  /-- Whether the output can show colours. -/
  tty : Bool := false

/-- What a command leaves behind. -/
structure Result where
  exit : Nat := 0
  stdout : Text := []
  stderr : Text := []
  tree : FileTree

/-- What became of one file. -/
structure FileReport where
  path : Text
  outcome : Outcome
  assembly : Text := []
  /-- The output file that was written. -/
  written : Option Text := none
  /-- What went wrong. -/
  failure : Option Text := none

namespace Session

def fullPath (s : Session) (path : Text) : Path := Path.absolute s.cwd path

/-- Reads a file by its absolute path, which errors name. -/
def readSource (s : Session) (path : Text) : Except FileFault Text :=
  s.tree.read [] (s.fullPath path).text

/-- Writes a file, and makes its directory if there is none. -/
def writeOutput (s : Session) (path content : Text) : Except FileFault Unit × Session :=
  match s.tree.makeDirs [] (s.fullPath path).parent with
  | .error f => (.error f, s)
  | .ok tree =>
    match tree.write s.cwd path content with
    | .error f => (.error f, { s with tree })
    | .ok tree => (.ok (), { s with tree })

/-- Colours are shown unless a flag or the environment forbids them. -/
def colors (s : Session) (o : Settings) : Bool :=
  s.tty && !o.noColor && ((s.env "NO_COLOR").getD []).isEmpty

/-- The lines logged for records, if logging is on. -/
def logText (o : Settings) (rs : List LogRecord) : Text :=
  if o.verbose then rs.flatMap LogRecord.line else []

def events (c : Compilation) : List LogRecord := c.events.toList.map Compiler.Event.record

def outputPath (o : Settings) (path : Text) : Text :=
  if o.out.isEmpty then Path.withExtension path Path.assemblyExtension else o.out

/-- Saves the code of a file that compiled. -/
def save (s : Session) (o : Settings) (r : FileReport) : FileReport × Session :=
  let dest := outputPath o r.path
  match s.writeOutput dest r.assembly with
  | (.ok _, s) => ({ r with written := some dest }, s)
  | (.error f, s) => ({ r with failure := some ("write " ++ dest ++ ": " ++ f.message) }, s)

/-- Compiles one file; with `keep` its code goes to a file unless it is to be shown. Also gives what is
logged on the way. -/
def compileFile (s : Session) (o : Settings) (keep : Bool) (path : Text) :
    FileReport × List LogRecord × Session :=
  match s.readSource path with
  | .error f => ({ path, outcome := .fatal, failure := some f.message }, [], s)
  | .ok source =>
    let c := if keep then compile { trace := o.trace } source else check { trace := o.trace } source
    let log := ⟨"translate", [("file", (s.fullPath path).text)]⟩ :: events c
    let r : FileReport := { path, outcome := c.outcome, assembly := c.assembly }
    match c.error with
    | some e =>
      ({ r with failure := some (Diagnostic.report path source e (s.colors o)) }, log, s)
    | none =>
      if keep && !o.stdout then
        let (r, s) := s.save o r
        (r, log, s)
      else (r, log, s)

/-- Compiles files in the order given. -/
def compileFiles (o : Settings) (keep : Bool) : Session → List Text →
    List FileReport × List LogRecord × Session
  | s, [] => ([], [], s)
  | s, path :: paths =>
    let (r, log, s) := s.compileFile o keep path
    let (rs, logs, s) := compileFiles o keep s paths
    (r :: rs, log ++ logs, s)

/-- The lines on standard output about one file. -/
def reportText (o : Settings) (many : Bool) (r : FileReport) : Text :=
  (if many then "# " ++ r.path ++ "\n" else []) ++
    (if o.stdout && r.failure.isNone then r.assembly else []) ++
    r.outcome.message ++ "\n" ++
    (match r.written with
      | some dest => "wrote " ++ dest ++ "\n"
      | none => [])

def failureText (r : FileReport) : Text :=
  match r.failure with
  | some m => m ++ "\n"
  | none => []

/-- Compiles files and reports on them once all are done. -/
def compileAll (s : Session) (o : Settings) (keep : Bool) (paths : List Text) : Result :=
  let (rs, log, s) := compileFiles o keep s paths
  { exit := if rs.any (·.failure.isSome) then 1 else 0
    stdout := rs.flatMap (reportText o (1 < paths.length))
    stderr := logText o log ++ rs.flatMap failureText
    tree := s.tree }

/-- The program in a file: assembly text as it is, anything else compiled first. -/
def loadProgram (s : Session) (o : Settings) (path : Text) :
    Except Text Machine.Program × List LogRecord :=
  match s.readSource path with
  | .error f => (.error f.message, [])
  | .ok source =>
    let finish (code : Text) : Except Text Machine.Program :=
      match assemble code with
      | .ok a => .ok a.program
      | .error e => .error ("assembly failed: " ++ e.message)
    if Path.isAssembly path then (finish source, [])
    else
      let c := compile { trace := o.trace } source
      match c.error with
      | some e => (.error (Diagnostic.report path source e (s.colors o)), events c)
      | none => (finish c.assembly, events c)

def registersText (m : Machine) : Text :=
  Text.join " " (m.regs.toList.map Text.ofWord)

/-- What is logged when a machine has stopped. -/
def runRecord (path : Text) (m : Machine) : LogRecord :=
  ⟨"run complete", [("file", path), ("steps", Text.ofWord m.steps), ("pc", Text.ofWord m.pc),
    ("regs", registersText m)]⟩

/-- Runs the program in a file. -/
def runFile (s : Session) (o : Settings) (path : Text) : Result :=
  let (program, log) := s.loadProgram o path
  let failed (m : Text) : Text := "run failed for " ++ path.quoted ++ ": " ++ m ++ "\n"
  match program with
  | .error m => { exit := 1, stderr := logText o log ++ m ++ "\n", tree := s.tree }
  | .ok p =>
    match ({ maxSteps := Int64.ofInt o.maxSteps } : Machine).load? p with
    | none => { exit := 2, stderr := logText o log ++ failed "data size out of range", tree := s.tree }
    | some m =>
      let (fault, m) := m.run
      let log := logText o (log ++ [runRecord path m])
      match fault with
      | none => { stdout := m.printedFrom 0, stderr := log, tree := s.tree }
      | some f =>
        { exit := 1, stdout := m.printedFrom 0, stderr := log ++ failed f.message, tree := s.tree }

end Session

end OnePass.CommandLine
