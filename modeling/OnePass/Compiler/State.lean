import OnePass.Compiler.Error
import OnePass.Compiler.Event
import OnePass.Compiler.Generator
import OnePass.Token.Feed

namespace OnePass.Compiler

open Assembly

structure Options where
  /-- Report every production entered. -/
  trace : Bool := false
  /-- The registers returned to the pool from outside just before a token, by its number. -/
  reclaim : Nat → List Int := fun _ => []

/-- The scope of the program name. -/
def externalScope : Text := "_EXTERNAL"

structure State where
  feed : Feed
  /-- How many items have been taken from the feed. -/
  delivered : Nat := 0
  lookahead : Token := { kind := .eof }
  symbols : SymbolTable := {}
  /-- The generator whose code is kept. -/
  main : Generator := {}
  /-- Generators for parts that are checked and leave no code, the innermost first. -/
  scratch : List Generator := []
  /-- The name of the program, which is the outermost scope of declarations. -/
  program : Text := []
  /-- The scope that declarations go into. -/
  scope : Text := externalScope
  events : Array Event := #[]

namespace State

/-- The generator that takes code now. -/
def current (s : State) : Generator := s.scratch.headD s.main

def setCurrent (s : State) (g : Generator) : State :=
  match s.scratch with
  | [] => { s with main := g }
  | _ :: gs => { s with scratch := g :: gs }

/-- Frees registers of the main generator, where they are allocated. -/
def reclaim (s : State) (rs : List Int) : State :=
  { s with main := { s.main with
      pool := rs.foldl (fun p r => (p.free r).toOption.getD p) s.main.pool } }

def report (s : State) (e : Event) : State := { s with events := s.events.push e }

end State

/-- One step of a compilation; the state survives a failure. -/
abbrev Pass := ReaderT Options (ExceptT CompileError (StateM State))

/-- The value of an expression: its number, its type and its first token. -/
structure Value where
  id : Nat
  type : ExprType
  start : Token
  deriving Repr

namespace Pass

def run {α : Type} (p : Pass α) (o : Options) (s : State) : Except CompileError α × State := p o s

/-- Runs `p` from a changed state, and changes the state once more however `p` ends. -/
def within {α : Type} (start : State → State) (finish : State → State → State) (p : Pass α) :
    Pass α := fun o s =>
  let r := p.run o (start s)
  (r.1, finish s r.2)

def lookahead : Pass Token := return (← get).lookahead

def at? (k : Kind) (a : Attr) : Pass Bool := return (← lookahead).is k a

/-- Takes the next item of the feed. -/
def advance : Pass Unit := do
  let o ← read
  let s := (← get)
  let s := s.reclaim (o.reclaim s.delivered)
  let (item, feed) := s.feed.next
  let s := { s with feed, delivered := s.delivered + 1 }
  match item with
  | .ok t => set { s with lookahead := t }
  | .error e =>
    set s
    throw (.lexical e)

def unexpected {α : Type} (e : Expectation) : Pass α := do
  throw (.unexpected e (← lookahead))

/-- Takes a token of this kind and attribute. -/
def expect (k : Kind) (a : Attr) : Pass Unit := do
  if ← at? k a then advance else unexpected (.token k a)

def expectIdentifier : Pass Token := do
  let t ← lookahead
  if t.kind = .identifier then
    advance
    return t
  else unexpected .identifier

def enter (p : Production) : Pass Unit := do
  if (← read).trace then modify fun s => s.report (.enter p s.lookahead)

def fail {α : Type} (cause : SemanticCause) (t : Token) : Pass α := throw (.semantic cause t)

/-- Declares an identifier in a scope, once. -/
def declare (t : Token) (scope : Text) (type : ExprType) (position : Int) : Pass Unit := do
  let s ← get
  if s.symbols.declared t.lexeme scope then fail (.alreadyDeclared t.lexeme) t
  else
    let symbol : Symbol := { id := t.lexeme, scope, position, type }
    set ({ s with symbols := s.symbols.install symbol }.report (.install symbol))

/-- Lets the current generator work. -/
def generate {α : Type} (g : Gen α) : Pass α := do
  let s ← get
  let r := g.run.run s.current
  set (s.setCurrent r.2)
  match r.1 with
  | .ok a => return a
  | .error e => throw (.internal (.register e))

def put (l : Line) : Pass Unit := generate (Gen.put l)

/-- Checks a part in full without leaving code. -/
def suppress {α : Type} (p : Pass α) : Pass α :=
  within (fun s => { s with scratch := {} :: s.scratch })
    (fun _ s => { s with scratch := s.scratch.tail }) p

/-- Declarations of `p` go into a scope of their own. -/
def inScope {α : Type} (scope : Text) (p : Pass α) : Pass α :=
  within (fun s => { s with scope }) (fun outer s => { s with scope := outer.scope }) p

/-- Fails at the first value of another type. -/
def check (type : ExprType) : List Value → Pass Unit
  | [] => return
  | v :: vs => if v.type = type then check type vs else fail (.mismatch type v.type) v.start

end Pass

end OnePass.Compiler
