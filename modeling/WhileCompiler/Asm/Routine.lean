import WhileCompiler.Asm.Emission

/-!
# Routines and programs

The lines of all commands, framed by what a routine does first and last, are a routine.  A program
is a routine named `main` behind a shell that calls it, and it names the functions that the
assembler has to look for elsewhere.
-/

namespace WhileCompiler.Asm

open Ir

/-- Saves the caller's frame and makes room for the variables. -/
def prologue (frame : Frame) : Instructions :=
  [.push (.register .ebp), .move (.register .esp) (.register .ebp)] ++
    if frame.size = 0 then []
    else [.combine .subtract (.constant frame.size) (.register .esp)]

/-- Gives the frame back and returns to the caller. -/
def epilogue : Instructions :=
  [.move (.register .ebp) (.register .esp), .pop (.register .ebp), .ret]

/-- The function that a command calls outside the program. -/
def external? (builtins : Builtins) : Command → Option String
  | .call _ function _ => if (builtins.recipe? function).isNone then some function else none
  | _ => none

/-- Inserts a name into names in increasing order, unless it is one of them. -/
def insertName (name : String) : List String → List String
  | [] => [name]
  | first :: rest =>
    if name < first then name :: first :: rest
    else if name = first then first :: rest
    else first :: insertName name rest

/-- A routine and the functions that it calls outside the program, in increasing order. -/
structure Routine where
  lines : List Line
  externals : List String

namespace Routine

/-- The routine that commands describe. -/
def ofCommands (builtins : Builtins) (commands : List Command) :
    Except EmissionError Routine := do
  let frame := Frame.ofCommands commands
  let lines ← emitAll builtins frame commands
  return {
    lines := (prologue frame).map .instruction ++ lines ++ epilogue.map .instruction
    externals := (commands.filterMap (external? builtins)).foldr insertName [] }

/-- Calls the routine and then ends the process with status zero. -/
def shell : List Line :=
  [.directive ".globl _start", .directive ".type _start, @function", .directive ".text",
    .label "_start",
    .instruction (.call "main"),
    .instruction (.move (.constant 1) (.register .eax)),
    .instruction (.move (.constant 0) (.register .ebx)),
    .instruction .systemCall,
    .directive ".type main, @function",
    .label "main"]

/-- A whole program that consists of the routine. -/
def program (routine : Routine) : List Line :=
  routine.externals.map (fun name => .directive s!".extern {name}") ++ shell ++ routine.lines

end Routine

/-- The listing of the program that commands describe. -/
def listing (builtins : Builtins) (commands : List Command) :
    Except EmissionError (List String) := do
  let routine ← Routine.ofCommands builtins commands
  return routine.program.map fun line => indented line.text

end WhileCompiler.Asm
