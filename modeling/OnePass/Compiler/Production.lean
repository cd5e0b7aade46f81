import OnePass.Token.Basic

namespace OnePass.Compiler

inductive Production where
  | program | variableDeclList | variableDecl | identifierList | identifierListRest | standardType
  | procedureDeclList | procedureDecl | procedureArgs | formalList | formalListRest
  | block | stmtList | stmtListRest | stmt | assignOrCall | ifStmt | ifStmtRest | whileStmt
  | printStmt | exprList | actualListRest | expr | simpleExpr | term | factor
  deriving DecidableEq, Repr

def Production.name : Production → Text
  | program => "PROGRAM"
  | variableDeclList => "VARIABLE_DECL_LIST"
  | variableDecl => "VARIABLE_DECL"
  | identifierList => "IDENTIFIER_LIST"
  | identifierListRest => "IDENTIFIER_LIST_PRM"
  | standardType => "STANDARD_TYPE"
  | procedureDeclList => "PROCEDURE_DECL_LIST"
  | procedureDecl => "PROCEDURE_DECL"
  | procedureArgs => "PROCEDURE_ARGS"
  | formalList => "FORMAL_PARM_LIST"
  | formalListRest => "FORMAL_PARM_LIST_HAT"
  | block => "BLOCK"
  | stmtList => "STMT_LIST"
  | stmtListRest => "STMT_LIST_PRM"
  | stmt => "STMT"
  | assignOrCall => "ADHOC_AS_PC_TAIL"
  | ifStmt => "IF_STMT"
  | ifStmtRest => "IF_STMT_HAT"
  | whileStmt => "WHILE_STMT"
  | printStmt => "PRINT_STMT"
  | exprList => "EXPR_LIST"
  | actualListRest => "ACTUAL_PARM_LIST_HAT"
  | expr => "EXPR"
  | simpleExpr => "SIMPLE_EXPR"
  | term => "TERM"
  | factor => "FACTOR"

inductive Expectation where
  | production (p : Production)
  | token (k : Kind) (a : Attr)
  | identifier
  deriving DecidableEq, Repr

def Expectation.text : Expectation → Text
  | production p => p.name
  | token k a => Token.text { kind := k, attr := a }
  | identifier => Kind.identifier.name

end OnePass.Compiler
