import WhileCompiler.Asm.Routine
import WhileCompiler.Ir.Lowering
import WhileCompiler.Stmt.Parser
import WhileCompiler.Token.Lexer
import WhileCompiler.Typing.Checker

/-!
# Compiling

A source text becomes tokens, a statement, three-address code and an assembly listing in turn.  The
first stage that finds a fault decides the outcome.
-/

namespace WhileCompiler

/-- The fault of the stage that rejected a program. -/
inductive CompileError
  | lexical (error : Token.LexicalError)
  | grammatical (error : SyntaxError)
  | typing (error : TypeError)
  | emission (error : Asm.EmissionError)
  deriving DecidableEq, Repr

def CompileError.diagnostic : CompileError → Diagnostic
  | lexical error => error.diagnostic
  | grammatical error => error.diagnostic
  | typing error => error.diagnostic
  | emission error => error.diagnostic

namespace Compiler

def tokenize (source : String) : Except CompileError (List Token) :=
  (Token.ofSource source).mapError .lexical

/-- The program that a source text spells. -/
def parse (source : String) : Except CompileError Stmt := do
  let tokens ← tokenize source
  (Stmt.ofTokens tokens).mapError .grammatical

/-- The listing for a program, once its types have been checked. -/
def emit (builtins : Builtins) (program : Stmt) : Except CompileError (List String) := do
  (program.checkProgram builtins).mapError .typing
  (Asm.listing builtins program.toIr).mapError .emission

/-- The listing for a source text that may use the given built-in names. -/
def compileWith (builtins : Builtins) (source : String) : Except CompileError (List String) := do
  let program ← parse source
  emit builtins program

/-- The listing for a source text that may use the standard built-in names. -/
def compile (source : String) : Except CompileError (List String) :=
  compileWith .standard source

end Compiler

end WhileCompiler
