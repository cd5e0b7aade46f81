import OnePass.CommandLine.Command
import OnePass.CommandLine.Trace

namespace OnePass.CommandLine

/-- The paths above a path, outermost first, and the path itself. -/
def ancestors (p : Path) : List Path :=
  (List.range p.length).map fun k => p.take (k + 1)

/-- Every path that is passed on the way to what a text names. -/
def passed (cwd : Path) (t : Text) : List Path :=
  let names := Path.parts t
  (List.range (names.length + 1)).flatMap fun k =>
    ancestors (Path.follow (FileTree.start cwd t) (names.take k))

/-- The paths that arguments may name, alone or after an equals sign, with their output files. -/
def touched (cwd : Path) (args : List Text) : List Path :=
  (args.flatMap fun a =>
    [a, (a.dropWhile (· != .char '=')).drop 1].flatMap fun t =>
      passed cwd t ++ passed cwd (Path.withExtension t Path.assemblyExtension)).eraseDups

/-- What stands at a path. -/
def readNode (p : Path) : IO (Option FileNode) := do
  let some name := p.text.toString? | return none
  try
    return some (.file (Text.ofBytes (← IO.FS.readBinFile name)))
  catch
    | .noFileOrDirectory .. => return none
    | .inappropriateType .. => return some .dir
    | e => throw e

/-- Reads paths into a tree. A path is looked at only if it stands in a directory. -/
def readTree (paths : List Path) : IO FileTree :=
  paths.foldlM (fun t p => do
    if t.isDir p.parent then
      match ← readNode p with
      | some n => return t.insert p n
      | none => return t
    else return t) {}

/-- Writes what differs between two trees. -/
def writeChanges (old new : FileTree) : IO Unit :=
  new.nodes.forM fun (p, n) => do
    if old.node? p == some n then return
    let some name := p.text.toString? | return
    match n with
    | .dir => IO.FS.createDirAll name
    | .file content => IO.FS.writeBinFile name content.bytes.toByteArray

/-- A terminal shows colours, unless it is a dumb one. -/
def showsColors : IO Bool := do
  if (← IO.getEnv "TERM") == some "dumb" then return false
  (← IO.getStdout).isTty

/-- The variables that commands look at. -/
def environment : List String := ["TRUPL_NO_COLOR", "TRUPL_VERBOSE", "NO_COLOR"]

/-- Runs a command in the working directory and gives its exit code. -/
def runHere (command : Session → List Text → Result) (arguments : List String) : IO UInt32 := do
  let args := arguments.map Text.ofString
  let cwd := Path.absolute [] (Text.ofString (← IO.currentDir).toString)
  let vars ← environment.filterMapM fun name => do
    return (← IO.getEnv name).map fun value => (Text.ofString name, Text.ofString value)
  let tree ← readTree (touched cwd args)
  let result := command { cwd, tree, env := fun name => vars.lookup name, tty := ← showsColors } args
  writeChanges tree result.tree
  (← IO.getStdout).write result.stdout.bytes.toByteArray
  (← IO.getStderr).write result.stderr.bytes.toByteArray
  return UInt32.ofNat result.exit

/-- The tracing tool. -/
def traceHere : List String → IO UInt32 := runHere trace

end OnePass.CommandLine

def main : List String → IO UInt32 := OnePass.CommandLine.runHere OnePass.CommandLine.execute
