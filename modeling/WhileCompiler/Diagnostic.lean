import WhileCompiler.Position

/-!
# Diagnostics

What a user is told when a text is rejected: the stage that rejected it, the message, and, for
faults of spelling, the position, which `render` marks with a caret under the offending line.
-/

namespace WhileCompiler

inductive Diagnostic
  | lexical (position : Position) (message : String)
  | grammatical (position : Position) (message : String)
  | typing (message : String)
  /-- A stage handed malformed intermediate code to the next one. -/
  | internal (message : String)
  /-- A routine that the assembler could not link to was announced. -/
  | linkage (symbol : String) (message : String)
  deriving DecidableEq, Repr

namespace Diagnostic

def message : Diagnostic → String
  | .lexical _ message | .grammatical _ message | .typing message | .internal message
  | .linkage _ message => message

def position? : Diagnostic → Option Position
  | .lexical position _ | .grammatical position _ => some position
  | .typing _ | .internal _ | .linkage _ _ => none

/-- The message in one line, behind the stage and the position. -/
def text : Diagnostic → String
  | .lexical position message =>
    s!"lex error at line {position.line} col {position.column}: {message}"
  | .grammatical position message =>
    s!"parse error at line {position.line} col {position.column}: {message}"
  | .typing message => s!"type error: {message}"
  | .internal message => s!"internal compiler error: {message}"
  | .linkage symbol message => s!"invalid external symbol '{symbol}': {message}"

/-- The lines of a text.  A line feed ends a line, so none follows the last of them. -/
def lines : List Char → List (List Char)
  | [] => []
  | c :: rest =>
    if c = '\n' then [] :: lines rest
    else match lines rest with
      | [] => [[c]]
      | line :: following => (c :: line) :: following

/-- A line as it is shown: carriage returns at its end are dropped. -/
def shownLine (line : List Char) : List Char :=
  (line.reverse.dropWhile (· = '\r')).reverse

/-- The diagnostic under the source line that it is about, behind a caret in the column of its
position.  Without a position, or with one outside the source, it stands alone. -/
def render (diagnostic : Diagnostic) (source : String) : String :=
  match diagnostic.position? with
  | none => diagnostic.text
  | some position =>
    match (lines source.toList)[position.line - 1]? with
    | none => diagnostic.text
    | some line =>
      String.ofList (shownLine line) ++ "\n" ++
        String.ofList (List.replicate (position.column - 1) ' ') ++ "^ " ++ diagnostic.text

end Diagnostic

end WhileCompiler
