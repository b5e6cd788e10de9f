import WhileCompiler.Main
import WhileCompiler.CommandLine.Directory
import WhileCompiler.Expr.Grammar
import WhileCompiler.Ir.Execution
import WhileCompiler.Machine.Fault
import WhileCompiler.Machine.Memory
import WhileCompiler.Machine.Program
import WhileCompiler.Machine.Run
import WhileCompiler.Scopes.Snapshots
import WhileCompiler.Semantics.Evaluation
import WhileCompiler.Stmt.Grammar
import WhileCompiler.Stmt.Renaming
import WhileCompiler.Token.Spelling
import WhileCompiler.Typing.Judgement
import WhileCompiler.Proofs.Asm.EmissionFaults
import WhileCompiler.Proofs.Asm.EmittedCode
import WhileCompiler.Proofs.Asm.Symbols
import WhileCompiler.Proofs.CheckedPrograms
import WhileCompiler.Proofs.CompiledPrograms
import WhileCompiler.Proofs.LinkedPrograms
import WhileCompiler.Proofs.Ir.CommandOrigins
import WhileCompiler.Proofs.Ir.ComputedValues
import WhileCompiler.Proofs.Ir.FreshNames
import WhileCompiler.Proofs.Ir.DrawnNames
import WhileCompiler.Proofs.Ir.Labels
import WhileCompiler.Proofs.Ir.LoweredCode
import WhileCompiler.Proofs.Ir.Placement
import WhileCompiler.Proofs.Ir.Preservation
import WhileCompiler.Proofs.Ir.TypedCode
import WhileCompiler.Proofs.Machine.Execution
import WhileCompiler.Proofs.Machine.FrameWords
import WhileCompiler.Proofs.Machine.GeneratedPrograms
import WhileCompiler.Proofs.Machine.Images
import WhileCompiler.Proofs.Machine.Layout
import WhileCompiler.Proofs.Machine.Preservation
import WhileCompiler.Proofs.Machine.Printing
import WhileCompiler.Proofs.Machine.Reading
import WhileCompiler.Proofs.Machine.ReadingInstructions
import WhileCompiler.Proofs.Machine.Simulation
import WhileCompiler.Proofs.Machine.SoundInstructions
import WhileCompiler.Proofs.Machine.Steps
import WhileCompiler.Proofs.Results
import WhileCompiler.Proofs.Semantics.Agreement
import WhileCompiler.Proofs.Semantics.NestedScopes
import WhileCompiler.Proofs.Semantics.ScopeErasure
import WhileCompiler.Proofs.Semantics.StandardCalls
import WhileCompiler.Proofs.Semantics.ValueRelations
import WhileCompiler.Proofs.Syntax.SpelledPrograms
import WhileCompiler.Proofs.Syntax.Tokens
import WhileCompiler.Proofs.Syntax.Variables
import WhileCompiler.Proofs.Text.Numerals
import WhileCompiler.Proofs.Typing.BuiltinNames
import WhileCompiler.Proofs.Typing.Verdicts
import WhileCompiler.Proofs.Typing.Checking
import WhileCompiler.Proofs.Typing.Contexts
import WhileCompiler.Proofs.Typing.Decision
import WhileCompiler.Proofs.Ir.Temporaries
import WhileCompiler.Proofs.Syntax.AcceptedExpressions
import WhileCompiler.Proofs.Syntax.NearestElse
import WhileCompiler.Proofs.Syntax.AcceptedStatements
import WhileCompiler.Proofs.Syntax.Recognition
import WhileCompiler.Proofs.Syntax.DecidedExpressions
import WhileCompiler.Proofs.Syntax.DecidedStatements
import WhileCompiler.Proofs.Syntax.FirstFault
import WhileCompiler.Proofs.Syntax.Layout
import WhileCompiler.Proofs.Syntax.Lookahead
import WhileCompiler.Proofs.Syntax.Lexemes
import WhileCompiler.Proofs.Syntax.WrittenExpressions
import WhileCompiler.Proofs.Ir.ControlFlow
import WhileCompiler.Proofs.Ir.TypedLowering
import WhileCompiler.Proofs.AssignedVariables
import WhileCompiler.Proofs.Machine.RecipeResults
import WhileCompiler.Proofs.TruthValues
import WhileCompiler.Proofs.Machine.ListedRoutines
import WhileCompiler.Proofs.Machine.CallingConvention
import WhileCompiler.Proofs.Machine.StackDepth
import WhileCompiler.Proofs.Machine.StackPhases
import WhileCompiler.Proofs.StackDiscipline
import WhileCompiler.Proofs.OperatorRecipes
import WhileCompiler.Proofs.Syntax.UnplacedTokens
import WhileCompiler.Proofs.Syntax.SpacedTokens
import WhileCompiler.Proofs.SourceLayout
import WhileCompiler.Proofs.Syntax.FunctionNames
import WhileCompiler.Proofs.Typing.Renaming
import WhileCompiler.Proofs.UnmentionedRoutines
import WhileCompiler.Proofs.Ir.Renaming
import WhileCompiler.Proofs.Asm.Renaming
import WhileCompiler.Proofs.RenamedPrograms
import WhileCompiler.Proofs.Syntax.ForeignCharacters
import WhileCompiler.Proofs.Text.Lines
import WhileCompiler.Proofs.AnnouncedRoutines
import WhileCompiler.Proofs.MarkedFaults
import WhileCompiler.Proofs.Asm.ReportedFaults
import WhileCompiler.Proofs.Typing.Snapshots
import WhileCompiler.Proofs.Ir.ForwardJumps
import WhileCompiler.Proofs.Machine.StraightRuns
import WhileCompiler.Proofs.LoopFreePrograms
import WhileCompiler.Proofs.Syntax.EndOfInput
import WhileCompiler.Proofs.Syntax.WrittenStatements
import WhileCompiler.Proofs.Typing.PrintedTypes
import WhileCompiler.Proofs.FrameLayout
import WhileCompiler.Proofs.CommandLine.Outcomes
import WhileCompiler.Proofs.Typing.RestoredScopes
