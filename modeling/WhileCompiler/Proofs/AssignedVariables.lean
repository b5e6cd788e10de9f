import WhileCompiler.Proofs.Ir.TypedLowering

/-!
# Assigned variables

A slot of the frame holds nothing of interest until it is written.  Emission makes sure that some
command writes every variable that is read, and typing that this has happened by then, whichever way
control has taken.
-/

namespace WhileCompiler.Compiler

open Ir Semantics

/-- Variables of which nothing is asked may have any value. -/
theorem areKept_any {σ ε : Type} (builtins : Builtins) (calls : Calls σ ε) :
    Ranges.AreKept (fun _ _ => True) builtins calls :=
  ⟨fun _ => trivial, fun _ => trivial, fun _ _ _ _ _ _ _ _ _ _ => trivial⟩

/-- No variable of an accepted program is read before it is written: when a command of a run reads
a name that is not built in, a command before it in the same run has assigned it.  Calls may give
any values, and the built-in names may be any. -/
theorem assigned_before_read {σ ε : Type} (builtins : Builtins) (source : String) (program : Stmt)
    (hparse : parse source = .ok program) (hcheck : program.checkProgram builtins = .ok ())
    (calls : Calls σ ε) (values : String → Int32) (state : σ) (count : Nat) (point : Point)
    (final : σ) (hsteps : Steps calls program.toIr count ⟨0, values⟩ state point final)
    (command : Command) (hcommand : program.toIr[point.position]? = some command) (name : String)
    (hread : name ∈ command.reads) (hname : builtins.signature? name = none) :
    AssignedWithin calls program.toIr count ⟨0, values⟩ state point final name := by
  obtain ⟨labels, after, hcode⟩ := Stmt.exists_isTyped hparse hcheck
  obtain ⟨context, hflows, hconforms⟩ :=
    hcode.run (areKept_any builtins calls) (fun _ _ _ => trivial) hsteps
  rw [drop_eq_cons hcommand] at hflows
  exact hconforms.written name (hflows.isSome_of_reads hread) hname

/-- A source whose loop assigns the condition that it tests. -/
def flickerSource : String :=
  "\x7b b: bool := true; while b do \x7b n: int := 1; b := n > 1; \x7d \x7d"

def flicker : Stmt :=
  .block [.declaration "b" .bool (.bool true),
    .loop (.var "b") (.block [.declaration "n" .int (.int 1),
      .assignment "b" (.binary ">" (.var "n") (.int 1))])]

theorem parse_flicker : parse flickerSource = .ok flicker := by
  cbv

/-- The run reads a temporary of the loop after five commands. -/
theorem assigned_before_read_flicker :
    parse flickerSource = .ok flicker ∧ flicker.checkProgram .operators = .ok () ∧
      ∃ point final,
        Steps (Console.calls fun _ => 0) flicker.toIr 5 ⟨0, fun _ => 7⟩ ⟨[], []⟩ point final ∧
          flicker.toIr[point.position]? = some (.copy "b" (.variable "$resultOf_>_1")) ∧
          AssignedWithin (Console.calls fun _ => 0) flicker.toIr 5 ⟨0, fun _ => 7⟩ ⟨[], []⟩ point
            final "$resultOf_>_1" := by
  have hsteps : ∃ point final, point.position = 5 ∧
      Steps (Console.calls fun _ => 0) flicker.toIr 5 ⟨0, fun _ => 7⟩ ⟨[], []⟩ point final :=
    ⟨_, _, rfl, .step rfl (.step rfl (.step rfl (.step rfl (.step rfl .refl))))⟩
  obtain ⟨point, final, hposition, hsteps⟩ := hsteps
  have hcommand : flicker.toIr[point.position]? = some (.copy "b" (.variable "$resultOf_>_1")) := by
    rw [hposition]
    rfl
  exact ⟨parse_flicker, rfl, point, final, hsteps, hcommand,
    assigned_before_read .operators flickerSource flicker parse_flicker rfl _ _ _ 5 point final
      hsteps _ hcommand "$resultOf_>_1" (by decide) rfl⟩

end WhileCompiler.Compiler
