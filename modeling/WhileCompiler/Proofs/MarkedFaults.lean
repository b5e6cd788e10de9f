import WhileCompiler.Compiler
import WhileCompiler.Proofs.Results
import WhileCompiler.Proofs.Syntax.FirstFault
import WhileCompiler.Proofs.Syntax.ForeignCharacters
import WhileCompiler.Proofs.Text.Lines

/-!
# The place of a fault

A fault of spelling or grammar is shown under the source line that it is about, with a caret in the
column of the character or the token that is to blame.  Since columns do not count carriage returns,
the caret stands under the first character that is to blame, unless a carriage return stands before
it on the line.
-/

namespace WhileCompiler

open Text

/-! ## Lines with a caret -/

namespace Diagnostic

/-- A line, and under it a text behind a caret. -/
def underlined (line : List Char) (indent : Nat) (text : String) : String :=
  String.ofList line ++ "\n" ++ String.ofList (List.replicate indent ' ') ++ "^ " ++ text

/-- A text stands behind `before` in a source, and in front of `more` on its line.  Carriage returns
at the end of the line are left out. -/
structure StandsIn (source before offending more : List Char) : Prop where
  split : ∃ returns behind, source = before ++ (offending ++ more ++ returns ++ behind) ∧
    (∀ c ∈ returns, c = '\r') ∧ ∀ c ∈ behind.head?, c = '\n'
  nonempty : offending ≠ []
  sameLine : '\n' ∉ offending ++ more
  shown : ∀ c ∈ (offending ++ more).getLast?, c ≠ '\r'

/-- A text without blanks lies in one line, which is known from what surrounds the text. -/
theorem standsIn_of_append {source before offending rest : List Char}
    (hsource : source = before ++ (offending ++ rest)) (hne : offending ≠ [])
    (hblank : ∀ c ∈ offending, isBlank c = false) :
    StandsIn source before offending (shownLine (firstLine rest)) := by
  obtain ⟨behind, hrest, hbehind⟩ := exists_behind_firstLine rest
  obtain ⟨returns, hline, hreturns, hshown⟩ := exists_returns (firstLine rest)
  have hfeed : '\n' ∉ shownLine (firstLine rest) := by
    intro hmem
    refine feed_not_mem_firstLine rest ?_
    rw [hline]
    exact List.mem_append_left returns hmem
  refine ⟨⟨returns, behind, ?_, hreturns, hbehind⟩, hne, ?_, ?_⟩
  · rw [hsource, List.append_assoc offending, ← hline, List.append_assoc, ← hrest]
  · rw [List.mem_append, not_or]
    exact ⟨fun hmem => (ne_of_isBlank (hblank _ hmem)).1 rfl, hfeed⟩
  · intro c hc
    rw [List.getLast?_append, Option.mem_def, Option.or_eq_some_iff] at hc
    rcases hc with hc | ⟨-, hc⟩
    · exact hshown c hc
    · exact (ne_of_isBlank (hblank c (List.mem_of_getLast? hc))).2

/-- The line of the source on which the text stands. -/
theorem StandsIn.line_eq {source before offending more : List Char}
    (hstands : StandsIn source before offending more) :
    ∃ line, (lines source)[before.count '\n']? = some line ∧
      shownLine line = lastLine before ++ offending ++ more := by
  obtain ⟨returns, behind, hsource, hreturns, hbehind⟩ := hstands.split
  have hline : '\n' ∉ offending ++ more ++ returns := by
    rw [List.mem_append, not_or]
    exact ⟨hstands.sameLine, fun hmem => absurd (hreturns _ hmem) (by decide)⟩
  have hend : firstLine behind = [] := by
    cases behind with
    | nil => rfl
    | cons c behind => simp [firstLine, hbehind c rfl]
  have hchars : offending ++ more ++ returns ++ behind ≠ [] := by
    simp [hstands.nonempty]
  refine ⟨lastLine before ++ (offending ++ more ++ returns), ?_, ?_⟩
  · rw [hsource, lines_count before hchars, firstLine_append hline, hend, List.append_nil]
  · have hnone : shownLine returns = [] := by
      rw [shownLine, List.dropWhile_eq_nil_iff.2 (by simpa using hreturns), List.reverse_nil]
    have hshown : ∀ c ∈ (lastLine before ++ (offending ++ more)).getLast?, c ≠ '\r' := by
      rw [List.getLast?_append_of_ne_nil _ (by simp [hstands.nonempty])]
      exact hstands.shown
    rw [← List.append_assoc, shownLine_append (by simp [hstands.nonempty]) hshown, hnone,
      List.append_nil, List.append_assoc]

/-- The caret is put behind as many spaces as there are characters other than carriage returns in
front of it on the line. -/
theorem render_of_standsIn {diagnostic : Diagnostic} {source : String}
    {before offending more : List Char}
    (hposition : diagnostic.position? = some (Position.start.after before))
    (hstands : StandsIn source.toList before offending more) :
    diagnostic.render source = underlined (lastLine before ++ offending ++ more)
      ((lastLine before).countP (· ≠ '\r')) diagnostic.text := by
  obtain ⟨line, hline, hshown⟩ := hstands.line_eq
  rw [Position.after_start_eq] at hposition
  simp only [render, hposition, Nat.add_sub_cancel_left, hline, hshown]
  rfl

end Diagnostic

/-! ## What is to blame -/

/-- What stands in the source where an error is reported: the character that no token begins with,
or the token that no program goes on with.  Nothing stands at the end of the input. -/
def CompileError.offending? : CompileError → Option (List Char)
  | .lexical error => some [error.found]
  | .grammatical error => match error.found? with
    | some token => if token.kind = .endOfInput then none else some token.text.toList
    | none => none
  | .typing _ | .emission _ => none

/-- The token that is blamed is one of those that are parsed, unless it is the end of the input. -/
theorem Stmt.mem_of_found? {tokens : List Token} {error : SyntaxError} {found : Token}
    (herror : ofTokens tokens = .error error) (hfound : found ∈ error.found?)
    (hkind : found.kind ≠ .endOfInput) : found ∈ tokens := by
  rw [ofTokens_eq] at herror
  split at herror
  · next hread =>
      obtain rfl := Except.error.inj herror
      rcases shows_of_failed hread hfound with ⟨index, htoken, -⟩ | ⟨-, hfinish, -⟩
      · exact List.mem_of_getElem? htoken
      · exact absurd (hfinish ▸ Parsing.kind_finish tokens) hkind
  · cases herror
  · next hread =>
      obtain rfl := Except.error.inj herror
      obtain rfl := Option.some.inj hfound
      obtain ⟨index, htoken, -⟩ := shows_of_left hread
      exact List.mem_of_getElem? htoken

namespace Token

theorem isBlank_punctuation :
    ∀ entry ∈ punctuation, entry.1.all (fun c => !isBlank c) = true := by
  decide

/-- No token contains a blank. -/
theorem isBlank_of_spells {kind : Kind} {word : List Char} (hspells : spells kind word = true) :
    ∀ c ∈ word, isBlank c = false := by
  intro c hc
  rcases word_or_punctuation_of_spells hspells with ⟨-, hcontinues⟩ | hmem
  · exact isBlank_of_continuesIdentifier (hcontinues c hc)
  · simpa using List.all_eq_true.1 (isBlank_punctuation _ hmem) c hc

theorem StandsBehind.position_eq {before : List Char} {token : Token}
    (hbehind : token.StandsBehind before) : token.position = Position.start.after before := by
  rw [Position.after_start_eq, ← hbehind.line, ← hbehind.column]

/-- A token stands where it says it does. -/
theorem exists_place {source : String} {tokens : List Token} {token : Token}
    (htokens : ofSource source = .ok tokens) (hmem : token ∈ tokens)
    (hkind : token.kind ≠ .endOfInput) :
    ∃ before rest, source.toList = before ++ (token.text.toList ++ rest) ∧
      token.text.toList ≠ [] ∧ (∀ c ∈ token.text.toList, isBlank c = false) ∧
      token.position = Position.start.after before := by
  obtain ⟨words, gap, finish, rfl, hsource, hlayout⟩ := exists_layout htokens [] rfl
  have hword : ∃ word ∈ words, word.token = token := by
    rw [List.mem_append, List.mem_singleton, List.mem_map] at hmem
    exact hmem.resolve_right fun heq => hkind (heq ▸ hlayout.finishKind)
  obtain ⟨word, hword, rfl⟩ := hword
  obtain ⟨left, right, rfl⟩ := List.append_of_mem hword
  have hplace := hlayout.position left word right rfl
  refine ⟨left.flatMap Placed.chars ++ word.gap, right.flatMap Placed.chars ++ gap, ?_,
    hlayout.nonempty word hword, isBlank_of_spells (hlayout.spelled word hword), ?_⟩
  · rw [hsource, List.flatMap_append, List.flatMap_cons, Placed.chars]
    simp only [List.append_assoc]
  · exact hplace.position_eq

end Token

namespace Compiler

open Token

variable {builtins : Builtins} {source : String} {error : CompileError}

/-- Only the reading of the source and its parsing report a place. -/
theorem parse_of_offending? {offending : List Char}
    (herror : compileWith builtins source = .error error)
    (hoffending : error.offending? = some offending) : parse source = .error error := by
  rcases bind_eq_error.1 herror with hparse | ⟨program, -, hemit⟩
  · exact hparse
  · rcases bind_eq_error.1 hemit with hcheck | ⟨_, -, hlisting⟩
    · obtain ⟨fault, -, rfl⟩ := mapError_eq_error.1 hcheck
      cases hoffending
    · obtain ⟨fault, -, rfl⟩ := mapError_eq_error.1 hlisting
      cases hoffending

/-- What an error is about stands in the source at the position that is reported. -/
theorem exists_standsIn {offending : List Char} (hparse : parse source = .error error)
    (hoffending : error.offending? = some offending) :
    ∃ before more, Diagnostic.StandsIn source.toList before offending more ∧
      error.diagnostic.position? = some (Position.start.after before) := by
  rcases bind_eq_error.1 hparse with hlexical | ⟨tokens, htokens, hgrammatical⟩
  · obtain ⟨fault, hfault, rfl⟩ := mapError_eq_error.1 hlexical
    obtain rfl := Option.some.inj hoffending
    obtain ⟨before, read, after, hsource, hstops⟩ := exists_stopsAt hfault
    have hsplit : source.toList = before ++ ([fault.found] ++ after) := hsource
    refine ⟨before, _, Diagnostic.standsIn_of_append hsplit ?_ ?_, ?_⟩
    · exact List.cons_ne_nil _ _
    · exact List.forall_mem_singleton.2 hstops.notBlank
    · exact congrArg some hstops.position
  · obtain ⟨fault, hfault, rfl⟩ := mapError_eq_error.1 hgrammatical
    rw [CompileError.offending?] at hoffending
    split at hoffending
    · next token hfound =>
        split at hoffending
        · cases hoffending
        · next hkind =>
            obtain rfl := Option.some.inj hoffending
            have hmem := Stmt.mem_of_found? hfault hfound hkind
            obtain ⟨before, rest, hsource, hne, hblank, hposition⟩ :=
              exists_place (mapError_eq_ok.1 htokens) hmem hkind
            refine ⟨before, _, Diagnostic.standsIn_of_append hsource hne hblank, ?_⟩
            rw [← hposition]
            cases fault <;> cases hfound <;> rfl
    · cases hoffending

/-- A fault of spelling or grammar is shown under the line of what is to blame, with as many spaces
in front of the caret as characters other than carriage returns stand before it on the line. -/
theorem render_marks_offender (builtins : Builtins) (source : String) (error : CompileError)
    (offending : List Char) (herror : compileWith builtins source = .error error)
    (hoffending : error.offending? = some offending) :
    ∃ before more, Diagnostic.StandsIn source.toList before offending more ∧
      error.diagnostic.position? = some (Position.start.after before) ∧
      error.diagnostic.render source =
        Diagnostic.underlined (lastLine before ++ offending ++ more)
          ((lastLine before).countP (· ≠ '\r')) error.diagnostic.text := by
  have hparse := parse_of_offending? herror hoffending
  obtain ⟨before, more, hstands, hposition⟩ := exists_standsIn hparse hoffending
  exact ⟨before, more, hstands, hposition, Diagnostic.render_of_standsIn hposition hstands⟩

/-- A bracket is left open behind a tab, a space outside ASCII and a carriage return inside the
line, and the line feed in front of it belongs to a carriage return as well. -/
def openBracket : String := "\x7b\r\n\ta\u00A0:= (1\r;\r\n\x7d"

def missingBracket : CompileError :=
  .grammatical (.unexpected .rightParenthesis ⟨.semicolon, ";", ⟨2, 9⟩⟩)

theorem render_marks_offender_openBracket :
    compile openBracket = .error missingBracket ∧
      missingBracket.offending? = some [';'] ∧
      ∃ before more, Diagnostic.StandsIn openBracket.toList before [';'] more ∧
        missingBracket.diagnostic.position? = some (Position.start.after before) ∧
        missingBracket.diagnostic.render openBracket =
          Diagnostic.underlined (lastLine before ++ [';'] ++ more)
            ((lastLine before).countP (· ≠ '\r')) missingBracket.diagnostic.text := by
  have herror : compile openBracket = .error missingBracket := by cbv
  exact ⟨herror, rfl, render_marks_offender .standard openBracket missingBracket [';'] herror rfl⟩

/-- A character that no token begins with, behind a carriage return that does not end the line. -/
def foreignSign : CompileError :=
  .lexical ⟨⟨1, 2⟩, '$'⟩

/-- The caret is not always put behind as many spaces as there are characters before the one that is
to blame. -/
theorem render_misses_foreignSign :
    compile "x\r$" = .error foreignSign ∧ foreignSign.offending? = some ['$'] ∧
      Diagnostic.StandsIn "x\r$".toList ['x', '\r'] ['$'] [] ∧
      ∀ before more, Diagnostic.StandsIn "x\r$".toList before ['$'] more →
        foreignSign.diagnostic.render "x\r$" ≠
          Diagnostic.underlined (lastLine before ++ ['$'] ++ more) (lastLine before).length
            foreignSign.diagnostic.text := by
  refine ⟨by cbv, rfl, ?_, fun before more hstands => ?_⟩
  · exact ⟨⟨[], [], by decide, by simp, by simp⟩, by simp, by simp, by simp⟩
  · -- The sign occurs once in the source.
    have hplace : ['x', '\r'] = before ∧ more = [] := by
      obtain ⟨returns, behind, hsource, -, -⟩ := hstands.split
      have hsplit : ['x', '\r'] ++ '$' :: [] = before ++ '$' :: (more ++ returns ++ behind) :=
        hsource
      have hunique := (List.append_cons_inj_of_notMem (by decide) List.not_mem_nil).1 hsplit
      have hmore := List.append_eq_nil_iff.1 (List.append_eq_nil_iff.1 hunique.2.2.symm).1
      exact ⟨hunique.1, hmore.1⟩
    obtain ⟨rfl, rfl⟩ := hplace
    decide +kernel

end Compiler

end WhileCompiler
