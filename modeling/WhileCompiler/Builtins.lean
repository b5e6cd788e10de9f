import WhileCompiler.Bindings
import WhileCompiler.Diagnostic
import WhileCompiler.Ir.Names
import WhileCompiler.Operator

/-!
# Built-in names

What a program may use without declaring it: the operators, and routines that the host provides.  A
routine is called by its name in the assembly, so its name must be one that the assembler can link
to and that no label of a generated program can shadow.
-/

namespace WhileCompiler

/-- Why a routine cannot be announced under a name. -/
inductive LinkError
  | notIdentifier (symbol : String)
  | clash (symbol : String)
  deriving DecidableEq, Repr

def LinkError.diagnostic : LinkError → Diagnostic
  | .notIdentifier symbol => .linkage symbol "not an identifier"
  | .clash symbol => .linkage symbol "clashes with a label of the generated program"

/-- The symbols that frame the generated routine. -/
def shellSymbols : List String :=
  ["_start", "main"]

/-- Whether a routine may have this name. -/
def isLinkable (symbol : String) : Bool :=
  Text.isIdentifier symbol.toList && !shellSymbols.contains symbol && !Ir.isGeneratedLabel symbol

structure Builtins where
  hasOperators : Bool
  routines : Bindings Ty
  linkable : ∀ name ∈ routines.names, isLinkable name

namespace Builtins

def empty : Builtins where
  hasOperators := false
  routines := .empty
  linkable := by simp [Bindings.empty, Bindings.names]

/-- The operators, and no routine. -/
def operators : Builtins :=
  { empty with hasOperators := true }

/-- Announces a routine under a linkable name, in place of an earlier one of this name. -/
def insert (builtins : Builtins) (name : String) (type : Ty) (hname : isLinkable name) :
    Builtins where
  hasOperators := builtins.hasOperators
  routines := builtins.routines.insert name type
  linkable := by
    intro other hother
    simp only [Bindings.names, Bindings.insert, List.map_cons, List.mem_cons] at hother
    rcases hother with rfl | hother
    · exact hname
    · exact builtins.linkable other
        ((List.filter_sublist.map Prod.fst).subset hother)

/-- Announces a routine of the host, in place of an earlier one of this name. -/
def withRoutine (builtins : Builtins) (name : String) (type : Ty) : Except LinkError Builtins :=
  if hname : isLinkable name then .ok (builtins.insert name type hname)
  else if Text.isIdentifier name.toList then .error (.clash name)
  else .error (.notIdentifier name)

/-- The operators, a routine that prints a number and one that reads a number. -/
def standard : Builtins :=
  (operators.insert "printInt" (.function [.int] .void) (by decide)).insert "readInt"
    (.function [] .int) (by decide)

/-- Every built-in name with its type. -/
def signatures (builtins : Builtins) : Bindings Ty :=
  ⟨(if builtins.hasOperators then
      Operator.table.map fun (name, operator) => (name, operator.type)
    else []) ++ builtins.routines.entries⟩

def signature? (builtins : Builtins) (name : String) : Option Ty :=
  builtins.signatures.get? name

/-- The operator of a name.  Every other built-in name is that of a routine. -/
def operator? (builtins : Builtins) (name : String) : Option Operator :=
  if builtins.hasOperators then Operator.ofName? name else none

/-- The instructions that take the place of a call. -/
def recipe? (builtins : Builtins) (name : String) : Option Asm.Recipe :=
  (builtins.operator? name).map Operator.recipe

end Builtins

end WhileCompiler
