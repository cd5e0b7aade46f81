import OnePass.Text.Blank
import OnePass.Text.LowerCase

namespace OnePass

/-- An absolute path by the names on it. -/
abbrev Path := List Text

namespace Path

def text (p : Path) : Text :=
  if p.isEmpty then "/" else p.flatMap fun name => (.char '/' : Glyph) :: name

def parent (p : Path) : Path := p.dropLast

def here : Text := "."

def up : Text := ".."

/-- Follows names from a path by spelling alone: a dot stays, two dots drop the last name. -/
def follow (p : Path) : List Text → Path
  | [] => p
  | n :: ns =>
    if n.isEmpty ∨ n = here then follow p ns
    else if n = up then follow p.dropLast ns
    else follow (p ++ [n]) ns

def parts (t : Text) : List Text := Text.splitAt (.char '/') t

def isAbsolute (t : Text) : Bool := t.head? == some (.char '/')

/-- The path that a text names from a directory. -/
def absolute (dir : Path) (t : Text) : Path :=
  follow (if isAbsolute t then [] else dir) (parts t)

/-- The last point of the last name, with what follows it. -/
def extension (t : Text) : Text :=
  let last := (t.reverse.takeWhile (· != .char '/')).reverse
  let tail := (last.reverse.takeWhile (· != .char '.')).reverse
  if tail.length < last.length then .char '.' :: tail else []

/-- The same path with another extension. -/
def withExtension (t ext : Text) : Text := t.take (t.length - (extension t).length) ++ ext

def assemblyExtension : Text := ".tral"

/-- Whether a path names assembly text; case does not matter. -/
def isAssembly (t : Text) : Bool := (extension t).lower == assemblyExtension

end Path

end OnePass
