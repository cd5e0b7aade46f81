import OnePass.Assembler.Error
import OnePass.Assembler.Program
import OnePass.Assembler.Statement
import OnePass.Assembly.Line
import OnePass.Assembly.Listing
import OnePass.CommandLine.Command
import OnePass.CommandLine.Flag
import OnePass.CommandLine.Help
import OnePass.CommandLine.Session
import OnePass.CommandLine.Trace
import OnePass.Compiler.Declaration
import OnePass.Compiler.Error
import OnePass.Compiler.Event
import OnePass.Compiler.Expression
import OnePass.Compiler.Generator
import OnePass.Compiler.Production
import OnePass.Compiler.Program
import OnePass.Compiler.State
import OnePass.Compiler.Statement
import OnePass.Diagnostic
import OnePass.File.Path
import OnePass.File.Tree
import OnePass.Log
import OnePass.Machine.Instruction
import OnePass.Machine.State
import OnePass.Machine.Step
import OnePass.Main
import OnePass.Mnemonic
import OnePass.Register
import OnePass.Symbol
import OnePass.Text.Blank
import OnePass.Text.CharSet
import OnePass.Text.Column
import OnePass.Text.Digit
import OnePass.Text.Glyph
import OnePass.Text.Letter
import OnePass.Text.LowerCase
import OnePass.Text.Numeral
import OnePass.Text.Printable
import OnePass.Text.Quoted
import OnePass.Token.Basic
import OnePass.Token.Feed
import OnePass.Token.Scanner
import OnePass.Proofs.Source.Semantics
import OnePass.Proofs.Compiler.Input
import OnePass.Proofs.Compiler.Lowering
import OnePass.Proofs.Assembler.Linking
import OnePass.Proofs.Compiler.Discipline
import OnePass.Proofs.Compiler.Emission
import OnePass.Proofs.Machine.Effect
import OnePass.Proofs.Machine.Execution
import OnePass.Proofs.Machine.Run
import OnePass.Proofs.Pipeline.Acceptance
import OnePass.Proofs.Pipeline.Preservation
import OnePass.Proofs.Pipeline.Safety
import OnePass.Proofs.Source.Grammar
import OnePass.Proofs.Compiler.Recognition
import OnePass.Proofs.Compiler.Productions
import OnePass.Proofs.Compiler.Allocation
import OnePass.Proofs.Pipeline.Isolation
import OnePass.Proofs.Pipeline.Sentences
import OnePass.Proofs.Compiler.Course
import OnePass.Proofs.Pipeline.Registers
import OnePass.Proofs.Source.Trees
import OnePass.Proofs.Source.Typing
import OnePass.Proofs.Compiler.Decision
import OnePass.Proofs.Compiler.ExpressionReading
import OnePass.Proofs.Compiler.StatementReading
import OnePass.Proofs.Compiler.DeclarationReading
import OnePass.Proofs.Compiler.ProgramReading
import OnePass.Proofs.Pipeline.StaticSemantics
import OnePass.Proofs.Token.Tiling
import OnePass.Proofs.Assembler.Resolution
import OnePass.Proofs.Assembler.Agreement
import OnePass.Proofs.Machine.WellFormed
import OnePass.Proofs.Assembler.Bounds
import OnePass.Proofs.Compiler.TwoCalls
import OnePass.Proofs.Pipeline.Writer
import OnePass.Proofs.Source.Places
import OnePass.Proofs.Source.Clearing
import OnePass.Proofs.Pipeline.Clearing
import OnePass.Proofs.Compiler.Pressure
import OnePass.Proofs.Pipeline.Comparison
import OnePass.Proofs.Pipeline.Pressure
import OnePass.Proofs.File.Place
import OnePass.Proofs.CommandLine.Session
import OnePass.Proofs.CommandLine.Board
import OnePass.Proofs.CommandLine.Schedule
import OnePass.Proofs.Machine.Locality
import OnePass.Proofs.Assembler.DataLayout
import OnePass.Proofs.Assembler.RoundTrip
import OnePass.Proofs.Compiler.Composition
import OnePass.Proofs.Pipeline.Declarations
import OnePass.Proofs.Machine.StepLimit
import OnePass.Proofs.Token.Rescanning
import OnePass.Proofs.Token.WritingOut
import OnePass.Proofs.Pipeline.Layout
import OnePass.Proofs.Text.Lines
import OnePass.Proofs.Pipeline.Diagnostics
import OnePass.Proofs.Compiler.Writing
import OnePass.Proofs.Compiler.Intake
import OnePass.Proofs.Compiler.Descent
import OnePass.Proofs.Pipeline.Framing
import OnePass.Proofs.Compiler.Termination
import OnePass.Proofs.Pipeline.Calls
import OnePass.Proofs.Pipeline.Faults
import OnePass.Proofs.Assembler.Reuse
import OnePass.Proofs.Assembly.Numbering
import OnePass.Proofs.Assembler.RegisterNames
