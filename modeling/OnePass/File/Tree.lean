import OnePass.File.Path

namespace OnePass

inductive FileNode where
  | dir
  | file (content : Text)
  deriving DecidableEq, Repr

inductive FileError where
  | notFound | notDirectory | isDirectory
  deriving DecidableEq, Repr

def FileError.message : FileError → Text
  | notFound => "no such file or directory"
  | notDirectory => "not a directory"
  | isDirectory => "is a directory"

/-- What failed, on which path. -/
structure FileFault where
  action : Text
  path : Text
  error : FileError
  deriving DecidableEq, Repr

def FileFault.message (f : FileFault) : Text := f.action ++ " " ++ f.path ++ ": " ++ f.error.message

structure FileTree where
  nodes : List (Path × FileNode) := []
  deriving DecidableEq, Repr

namespace FileTree

/-- The root is a directory. -/
def node? (t : FileTree) (p : Path) : Option FileNode :=
  if p.isEmpty then some .dir else t.nodes.lookup p

def isDir (t : FileTree) (p : Path) : Bool := t.node? p == some .dir

def insert (t : FileTree) (p : Path) (n : FileNode) : FileTree :=
  if (t.nodes.lookup p).isSome then
    ⟨t.nodes.map fun e => if e.1 = p then (p, n) else e⟩
  else ⟨t.nodes ++ [(p, n)]⟩

/-- Follows names step by step; every step but the last must stand in a directory. -/
def walk (t : FileTree) (p : Path) : List Text → Except FileError Path
  | [] => if (t.node? p).isSome then .ok p else .error .notFound
  | n :: ns =>
    match t.node? p with
    | none => .error .notFound
    | some (.file _) => .error .notDirectory
    | some .dir =>
      if n.isEmpty ∨ n = Path.here then walk t p ns
      else if n = Path.up then walk t p.dropLast ns
      else walk t (p ++ [n]) ns

/-- Where a text starts from. -/
def start (dir : Path) (text : Text) : Path := if Path.isAbsolute text then [] else dir

/-- The content of the file that a text names from a directory. -/
def read (t : FileTree) (dir : Path) (text : Text) : Except FileFault Text :=
  if text.isEmpty then .error ⟨"open", text, .notFound⟩
  else match t.walk (start dir text) (Path.parts text) with
    | .error e => .error ⟨"open", text, e⟩
    | .ok p => match t.node? p with
      | some (.file c) => .ok c
      | _ => .error ⟨"read", text, .isDirectory⟩

/-- Makes the directories on the way from `done` along `names`. -/
def makeDirs (t : FileTree) (done : Path) : List Text → Except FileFault FileTree
  | [] => .ok t
  | n :: ns =>
    let p := done ++ [n]
    match t.node? p with
    | some .dir => makeDirs t p ns
    | some (.file _) => .error ⟨"mkdir", p.text, .notDirectory⟩
    | none => makeDirs (t.insert p .dir) p ns

/-- The path of a file to be written: its directory must exist, and the last name must be no
directory. A slash at the end asks for a directory. -/
def target (t : FileTree) (dir : Path) (text : Text) : Except FileError Path := do
  let names := (Path.parts text).reverse
  let body := names.dropWhile (·.isEmpty)
  match body with
  | [] => throw (if text.isEmpty then .notFound else .isDirectory)
  | last :: before =>
    let p ← t.walk (start dir text) before.reverse
    if !t.isDir p then throw .notDirectory
    if body.length < names.length ∨ last = Path.here ∨ last = Path.up ∨ t.isDir (p ++ [last]) then
      throw .isDirectory
    return p ++ [last]

/-- Writes a file over what is there. -/
def write (t : FileTree) (dir : Path) (text content : Text) : Except FileFault FileTree :=
  match t.target dir text with
  | .ok p => .ok (t.insert p (.file content))
  | .error e => .error ⟨"open", text, e⟩

end FileTree

end OnePass
