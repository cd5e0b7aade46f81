import OnePass.Compiler.Production
import OnePass.Log
import OnePass.Symbol

namespace OnePass.Compiler

inductive Event where
  | enter (p : Production) (lookahead : Token)
  | install (s : Symbol)
  | patch (type : ExprType) (count : Nat)
  deriving DecidableEq, Repr

def Event.record : Event → LogRecord
  | enter p t => ⟨"enter", [("production", p.name), ("lookahead", t.text)]⟩
  | install s =>
    ⟨"install", [("id", s.id), ("scope", s.scope), ("position", Text.ofInt s.position),
      ("type", s.type.name)]⟩
  | patch t n => ⟨"patch", [("type", t.name), ("entries", Text.ofNat n)]⟩

end OnePass.Compiler
