import OnePass.CommandLine.Help
import OnePass.CommandLine.Session

namespace OnePass.CommandLine

inductive Command where
  | compile | check | run | help
  deriving DecidableEq, Repr

namespace Command

def all : List Command := [compile, check, run, help]

def names : Command → List Text
  | compile => ["compile", "c"]
  | check => ["check"]
  | run => ["run", "r"]
  | help => ["help", "h"]

def flags : Command → List Flag
  | compile => [.out, .stdout, .noColor, .verbose, .trace, .jobs, .help]
  | check => [.noColor, .verbose, .trace, .jobs, .help]
  | run => [.maxSteps, .noColor, .verbose, .trace, .help]
  | help => [.help]

def ofName? (t : Text) : Option Command := all.find? fun c => c.names.contains t

/-- Carries out a command on what is left of the arguments. -/
def perform (c : Command) (s : Session) (o : Settings) (args : List Text) : Result :=
  let usage (m : Text) : Result := { exit := 2, stderr := m ++ "\n", tree := s.tree }
  match c with
  | compile =>
    if args.isEmpty then usage "compile: no input files"
    else if !o.out.isEmpty && 1 < args.length then usage "compile: --out needs exactly one input file"
    else s.compileAll o true args
  | check =>
    if args.isEmpty then usage "check: no input files"
    else s.compileAll { o with stdout := false } false args
  | run =>
    match args with
    | [path] => s.runFile o path
    | _ => usage "run: expected exactly one file"
  | help =>
    match args with
    | [] => { stdout := helpText, tree := s.tree }
    | topic :: _ =>
      if (ofName? topic).isSome then { stdout := helpText, tree := s.tree }
      else { exit := 3, stderr := "No help topic for '" ++ topic ++ "'\n", tree := s.tree }

end Command

/-- A command line that cannot be read. -/
def usageFailure (s : Session) (e : UsageError) (shown : Text) : Result :=
  { exit := 1, stdout := shown, stderr := e.message ++ "\n", tree := s.tree }

/-- Reads the flags of a command and carries it out. -/
def runCommand (s : Session) (c : Command) (args : List Text) : Result :=
  let fail (e : UsageError) := usageFailure s e ("Incorrect Usage: " ++ e.message ++ "\n\n")
  match Settings.ofEnvironment c.flags s.env {} with
  | .error e => fail e
  | .ok o =>
    let r := readFlags c.flags o [] (reorder c.flags args)
    match r.failure.or (twoForms? c.flags r.names) with
    | some e => fail e
    | none =>
      if r.settings.help then { stdout := helpText, tree := s.tree }
      else c.perform s r.settings r.rest

/-- The flags that stand before a command. -/
def globalFlags : List Flag := [.help, .version]

/-- The whole command line. An unknown command shows the help. -/
def execute (s : Session) (args : List Text) : Result :=
  let r := readFlags globalFlags {} [] args
  match twoForms? globalFlags r.names, r.failure with
  | some e, _ => usageFailure s e (e.message ++ "\n" ++ helpText)
  | none, some e => usageFailure s e ("Incorrect Usage. " ++ e.message ++ "\n\n" ++ helpText)
  | none, none =>
    if r.settings.help then { stdout := helpText, tree := s.tree }
    else if r.settings.version then { stdout := versionText, tree := s.tree }
    else match r.rest with
      | [] => { stdout := helpText, tree := s.tree }
      | name :: rest =>
        match Command.ofName? name with
        | some c => runCommand s c rest
        | none => { stdout := helpText, tree := s.tree }

end OnePass.CommandLine
