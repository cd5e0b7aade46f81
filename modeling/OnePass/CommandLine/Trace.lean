import OnePass.CommandLine.Session

namespace OnePass.CommandLine

/-- The source that is traced when no file is given. -/
def demoSource : Text :=
  "program demo;\n" ++
  "\tx, y: int;\n" ++
  "begin\n" ++
  "\tx := 10;\n" ++
  "\ty := 20;\n" ++
  "\tprint x + y;\n" ++
  "end;\n"

namespace Trace

def tokenLine (t : Token) : Text :=
  "  " ++ (Text.ofInt t.line).padLeft 3 ++ ":" ++ (Text.ofInt t.col).padRight 3 ++ " " ++ t.text ++ "\n"

def sizedText (t : Text) : Text :=
  "(string) (len=" ++ Text.ofNat t.size ++ ") " ++ t.quoted

def symbolDump (s : Symbol) : Text :=
  " (compiler.Entry) \x7b\n" ++
  "  ID: " ++ sizedText s.id ++ ",\n" ++
  "  Scope: " ++ sizedText s.scope ++ ",\n" ++
  "  Position: (int) " ++ Text.ofInt s.position ++ ",\n" ++
  "  Type: (compiler.ExprType) " ++ s.type.name ++ "\n" ++
  " \x7d"

/-- The symbols with the type and the size of each part. -/
def dump (t : SymbolTable) : Text :=
  let n := Text.ofNat t.length
  let sizes : Text := if t.symbols.isEmpty then [] else "(len=" ++ n ++ " cap=" ++ n ++ ") "
  let body : Text :=
    if t.symbols.isEmpty then [] else Text.join ",\n" (t.symbols.map symbolDump) ++ "\n"
  "([]compiler.Entry) " ++ sizes ++ "\x7b\n" ++ body ++ "\x7d\n"

/-- Traces a source. -/
def ofSource (tree : FileTree) (source : Text) : Result :=
  let shown : Text := "Source:\n" ++ source ++ "\n"
  match lex source with
  | .error e => { exit := 1, stdout := shown, stderr := "lex error: " ++ e.message ++ "\n", tree }
  | .ok tokens =>
    let c := compile { trace := true } source
    { exit := if c.error.isSome then 1 else 0
      stdout := shown ++ "Tokens (" ++ Text.ofNat tokens.length ++ ")\n" ++
        tokens.flatMap tokenLine ++ "\nGenerated Assembly\n" ++ c.assembly ++ "\n" ++
        c.outcome.message ++ "\n\n" ++ c.symbols.dump ++ "\n" ++ dump c.symbols
      stderr := (Session.events c).flatMap LogRecord.line ++
        (match c.error with
          | some e => "translate error: " ++ e.message ++ "\n"
          | none => [])
      tree }

end Trace

/-- Traces the file named by the first argument. -/
def trace (s : Session) (args : List Text) : Result :=
  match args with
  | [] => Trace.ofSource s.tree demoSource
  | path :: _ =>
    match s.tree.read s.cwd path with
    | .ok source => Trace.ofSource s.tree source
    | .error f => { exit := 1, stderr := "read error: " ++ f.message ++ "\n", tree := s.tree }

end OnePass.CommandLine
