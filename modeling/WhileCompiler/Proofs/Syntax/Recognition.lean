import WhileCompiler.Proofs.Syntax.DecidedStatements

/-!
# The parser recognises the grammar

A list of words is parsed exactly if it spells a program, and the program that is found is the only
one among those spelled in which each `else` belongs to the nearest `if` before it that has no
other.  Taking an `else` as soon as it comes therefore rejects no program, although the grammar
would let it wait for an outer `if`.
-/

namespace WhileCompiler

open Parsing

namespace Stmt

/-- A list of words, closed by the end of the input, is parsed as a program exactly if the words
spell it and each `else` in it belongs to the nearest `if`. -/
theorem ofTokens_iff_spells {tokens : List Token} {finish : Token}
    (hwords : ∀ token ∈ tokens, token.kind ≠ .endOfInput) (hfinish : finish.kind = .endOfInput)
    {program : Stmt} :
    ofTokens (tokens ++ [finish]) = .ok program ↔
      Spells tokens program ∧ program.nearestElse = true := by
  have hwordsTaken := words_append_finish hwords hfinish
  have haccepts (nearest : Stmt) (hspells : Spells tokens nearest)
      (hnearest : nearest.nearestElse = true) :
      ofTokens (tokens ++ [finish]) = .ok nearest := by
    have htaken := takes_of_spells (Parsing.finish (tokens ++ [finish])) hspells hnearest []
      fun _ => clear_nil _
    refine whole_of_takes ?_
    rw [hwordsTaken]
    rwa [List.append_nil] at htaken
  constructor
  · intro hparsed
    have hspells := spells_of_ofTokens hparsed
    rw [hwordsTaken] at hspells
    obtain ⟨nearest, hnearestSpells, hnearest⟩ := exists_nearestElse hspells
    have hsame := (haccepts nearest hnearestSpells hnearest).symm.trans hparsed
    obtain rfl := Except.ok.inj hsame
    exact ⟨hspells, hnearest⟩
  · rintro ⟨hspells, hnearest⟩
    exact haccepts program hspells hnearest

end Stmt

/-- The words of `if a then if b then c; else d;`. -/
def danglingElse : List Token :=
  [⟨.ifWord, "if", ⟨1, 1⟩⟩, ⟨.identifier, "a", ⟨1, 4⟩⟩, ⟨.thenWord, "then", ⟨1, 6⟩⟩,
    ⟨.ifWord, "if", ⟨1, 11⟩⟩, ⟨.identifier, "b", ⟨1, 14⟩⟩, ⟨.thenWord, "then", ⟨1, 16⟩⟩,
    ⟨.identifier, "c", ⟨1, 21⟩⟩, ⟨.semicolon, ";", ⟨1, 22⟩⟩, ⟨.elseWord, "else", ⟨1, 24⟩⟩,
    ⟨.identifier, "d", ⟨1, 29⟩⟩, ⟨.semicolon, ";", ⟨1, 30⟩⟩]

end WhileCompiler
