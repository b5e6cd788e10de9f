import Mathlib
import WhileCompiler.Proofs.CommandLine.Directories

/-!
# What a command leaves behind

A command either fails and leaves every file as it was, or has compiled the whole program and
written all of the listing to the one place that it was asked to write to.
-/

namespace WhileCompiler.CommandLine

variable {σ φ : Type} {host : Host (StateM σ)} {view : View σ φ}

theorem readSource_same (hlawful : host.Lawful view) (input : Option String) (before : σ) :
    view.Same before (readSource host input before).2 := by
  cases input with
  | none => exact hlawful.readInput_same before
  | some path => exact hlawful.readFile_same path before

theorem isSource_of_readSource (hlawful : host.Lawful view) {input : Option String} {before : σ}
    {source : String} (hread : (readSource host input before).1 = .ok source) :
    view.IsSource before source input := by
  cases input with
  | none => exact hlawful.readInput_ok before source hread
  | some path => exact hlawful.readFile_ok path before source hread

/-- No file has been touched, and where a print that fails has no effect, nothing has been
printed. -/
structure Untouched (host : Host (StateM σ)) (view : View σ φ) (before after : σ) : Prop where
  files : view.SameFiles before after
  whole : host.PrintsWhole view → view.Same before after

theorem View.Same.untouched {before after : σ} (hsame : view.Same before after) :
    Untouched host view before after :=
  ⟨hsame.toSameFiles, fun _ => hsame⟩

theorem Untouched.trans {before middle after : σ} (hfirst : Untouched host view before middle)
    (hsecond : Untouched host view middle after) : Untouched host view before after :=
  ⟨hfirst.files.trans hsecond.files,
    fun hwhole => (hfirst.whole hwhole).trans (hsecond.whole hwhole)⟩

theorem untouched_of_print (hlawful : host.Lawful view) {text : String} {before : σ}
    {fault : FileFault} (hprint : (host.print text before).1 = .error fault) :
    Untouched host view before (host.print text before).2 :=
  ⟨hlawful.print_error text before fault hprint, fun hwhole => hwhole text before fault hprint⟩

theorem untouched_of_writeListing (hlawful : host.Lawful view) {listing : String}
    {output : Option String} {before : σ} {fault : FileFault}
    (hwrite : (writeListing host listing output before).1 = .error fault) :
    Untouched host view before (writeListing host listing output before).2 := by
  cases output with
  | none => exact untouched_of_print hlawful hwrite
  | some path => exact (hlawful.writeFile_error path listing before fault hwrite).untouched

theorem delivered_of_writeListing (hlawful : host.Lawful view) {listing : String}
    {output : Option String} {before : σ}
    (hwrite : (writeListing host listing output before).1 = .ok ()) :
    view.Delivered before (writeListing host listing output before).2 listing output := by
  cases output with
  | none => exact hlawful.print_ok listing before hwrite
  | some path => exact hlawful.writeFile_ok path listing before hwrite

/-! ## How a compilation ends -/

theorem bind_apply {α β : Type} (action : StateM σ α) (next : α → StateM σ β) (before : σ) :
    (action >>= next) before = next (action before).1 (action before).2 := rfl

/-- A failure has a status of its own, and touches nothing. -/
structure Fails (host : Host (StateM σ)) (view : View σ φ) (before : σ) (result : UInt32 × σ) :
    Prop extends Untouched host view before result.2 where
  status : result.1 = 1 ∨ result.1 = panicked

theorem Fails.status_ne_zero {before : σ} {result : UInt32 × σ}
    (hfails : Fails host view before result) : result.1 ≠ 0 := by
  rcases hfails.status with hone | hpanicked
  · simp [hone]
  · simp [hpanicked, panicked]

theorem fails_reject (hlawful : host.Lawful view) (message : String) {before middle : σ}
    (huntouched : Untouched host view before middle) :
    Fails host view before (reject host message middle) := by
  have hreported : Untouched host view before (host.report message middle).2 :=
    huntouched.trans (hlawful.report_same message middle).untouched
  rw [reject, bind_apply]
  cases (host.report message middle).1 with
  | error fault => exact ⟨hreported, .inr rfl⟩
  | ok value => exact ⟨hreported, .inl rfl⟩

section

variable {input output : Option String} {before : σ} {source : String} {lines : List String}

theorem compile_unread {fault : FileFault}
    (hread : (readSource host input before).1 = .error fault) :
    compile host input output before =
      reject host (cannotRead input fault) (readSource host input before).2 := by
  rw [compile, bind_apply, hread]

theorem compile_rejected {error : CompileError}
    (hread : (readSource host input before).1 = .ok source)
    (hcompile : Compiler.compile source = .error error) :
    compile host input output before =
      reject host (error.diagnostic.render source ++ "\n") (readSource host input before).2 := by
  rw [compile, bind_apply, hread]
  simp only [hcompile]

theorem compile_unwritten {fault : FileFault}
    (hread : (readSource host input before).1 = .ok source)
    (hcompile : Compiler.compile source = .ok lines)
    (hwrite : (writeListing host (Asm.joined lines) output
      (readSource host input before).2).1 = .error fault) :
    compile host input output before =
      reject host (cannotWrite output fault) (writeListing host (Asm.joined lines) output
        (readSource host input before).2).2 := by
  rw [compile, bind_apply, hread]
  simp only [hcompile]
  rw [bind_apply, hwrite]

theorem compile_written (hread : (readSource host input before).1 = .ok source)
    (hcompile : Compiler.compile source = .ok lines)
    (hwrite : (writeListing host (Asm.joined lines) output
      (readSource host input before).2).1 = .ok ()) :
    compile host input output before =
      (0, (writeListing host (Asm.joined lines) output (readSource host input before).2).2) := by
  rw [compile, bind_apply, hread]
  simp only [hcompile]
  rw [bind_apply, hwrite]
  rfl

/-- A compilation fails, or delivers the listing of the whole source. -/
theorem compile_cases (hlawful : host.Lawful view) (input output : Option String) (before : σ) :
    Fails host view before (compile host input output before) ∨
      (compile host input output before).1 = 0 ∧
        ∃ source lines, view.IsSource before source input ∧ Compiler.compile source = .ok lines ∧
          view.Delivered before (compile host input output before).2 (Asm.joined lines) output := by
  have hsame := readSource_same hlawful input before
  cases hread : (readSource host input before).1 with
  | error fault =>
      rw [compile_unread hread]
      exact .inl (fails_reject hlawful _ hsame.untouched)
  | ok source =>
      cases hcompile : Compiler.compile source with
      | error error =>
          rw [compile_rejected hread hcompile]
          exact .inl (fails_reject hlawful _ hsame.untouched)
      | ok lines =>
          cases hwrite : (writeListing host (Asm.joined lines) output
              (readSource host input before).2).1 with
          | error fault =>
              rw [compile_unwritten hread hcompile hwrite]
              exact .inl (fails_reject hlawful _
                (hsame.untouched.trans (untouched_of_writeListing hlawful hwrite)))
          | ok value =>
              rw [compile_written hread hcompile hwrite]
              have hdelivered := delivered_of_writeListing hlawful hwrite
              exact .inr ⟨rfl, source, lines, isSource_of_readSource hlawful hread, hcompile,
                hdelivered.after_same hsame⟩

end

/-! ## What the arguments ask for -/

/-- Arguments of which one asks for help. -/
def AskForHelp (arguments : List String) : Prop :=
  "-h" ∈ arguments ∨ "--help" ∈ arguments

theorem ofArguments_of_askForHelp {arguments : List String} (hhelp : AskForHelp arguments) :
    Invocation.ofArguments arguments = .help := by
  have hasked : (arguments.contains "-h" || arguments.contains "--help") = true := by
    simpa [AskForHelp] using hhelp
  unfold Invocation.ofArguments
  rw [if_pos hasked]

/-- Without a request for help the arguments are a source and a target, each of which may be left
out, or too many. -/
theorem ofArguments_of_not_askForHelp {arguments : List String} (hhelp : ¬ AskForHelp arguments) :
    Invocation.ofArguments arguments = .misuse ∨
      arguments.length ≤ 2 ∧
        Invocation.ofArguments arguments = .compile arguments[0]? arguments[1]? := by
  have hasked : ¬ (arguments.contains "-h" || arguments.contains "--help") = true := by
    simpa [AskForHelp] using hhelp
  unfold Invocation.ofArguments
  rw [if_neg hasked]
  match arguments with
  | [] => exact .inr ⟨by simp, rfl⟩
  | [input] => exact .inr ⟨by simp, rfl⟩
  | [input, output] => exact .inr ⟨by simp, rfl⟩
  | _ :: _ :: _ :: _ => exact .inl rfl

theorem run_of_help {arguments : List String}
    (hhelp : Invocation.ofArguments arguments = .help) (before : σ) :
    run host arguments before =
      (match (host.print usage before).1 with | .ok () => 0 | .error _ => panicked,
        (host.print usage before).2) := by
  rw [run, hhelp]
  simp only
  rw [bind_apply]
  cases (host.print usage before).1 <;> rfl

theorem run_of_misuse {arguments : List String}
    (hmisuse : Invocation.ofArguments arguments = .misuse) (before : σ) :
    run host arguments before = reject host usage before := by
  rw [run, hmisuse]

theorem run_of_compile {arguments : List String} {input output : Option String}
    (hcompile : Invocation.ofArguments arguments = .compile input output) (before : σ) :
    run host arguments before = compile host input output before := by
  rw [run, hcompile]

theorem fails_of_misuse (hlawful : host.Lawful view) (before : σ) :
    Fails host view before (reject host usage before) :=
  fails_reject hlawful usage (View.Same.refl view before).untouched

/-- A command that does not succeed touches no file, whatever happens to what it prints. -/
theorem fails_of_run (hlawful : host.Lawful view) {arguments : List String} {before : σ}
    (hstatus : (run host arguments before).1 ≠ 0) :
    Fails host view before (run host arguments before) := by
  cases hinvocation : Invocation.ofArguments arguments with
  | help =>
      rw [run_of_help hinvocation] at hstatus ⊢
      cases hprint : (host.print usage before).1 with
      | ok value => exact absurd (by simp only [hprint]) hstatus
      | error fault => exact ⟨untouched_of_print hlawful hprint, .inr rfl⟩
  | misuse =>
      rw [run_of_misuse hinvocation]
      exact fails_of_misuse hlawful before
  | compile input output =>
      rw [run_of_compile hinvocation] at hstatus ⊢
      rcases compile_cases hlawful input output before with hfails | ⟨hzero, -⟩
      · exact hfails
      · exact absurd hzero hstatus

/-- A command that succeeds without a request for help has delivered a listing. -/
theorem compiled_of_run (hlawful : host.Lawful view) {arguments : List String} {before : σ}
    (hstatus : (run host arguments before).1 = 0) (hhelp : ¬ AskForHelp arguments) :
    arguments.length ≤ 2 ∧ ∃ source lines, view.IsSource before source arguments[0]? ∧
      Compiler.compile source = .ok lines ∧
      view.Delivered before (run host arguments before).2 (Asm.joined lines) arguments[1]? := by
  rcases ofArguments_of_not_askForHelp hhelp with hmisuse | ⟨hlength, hcompile⟩
  · rw [run_of_misuse hmisuse] at hstatus
    exact absurd hstatus (fails_of_misuse hlawful before).status_ne_zero
  · rw [run_of_compile hcompile] at hstatus ⊢
    rcases compile_cases hlawful arguments[0]? arguments[1]? before with hfails | ⟨-, hlisting⟩
    · exact absurd hstatus hfails.status_ne_zero
    · exact ⟨hlength, hlisting⟩

/-- A request for help prints the usage, and is not one of the failures that the command reports. -/
theorem helped_of_run (hlawful : host.Lawful view) {arguments : List String}
    (hhelp : AskForHelp arguments) (before : σ) :
    (run host arguments before).1 ≠ 1 ∧
      ((run host arguments before).1 = 0 →
        view.Delivered before (run host arguments before).2 usage none) := by
  rw [run_of_help (ofArguments_of_askForHelp hhelp)]
  cases hprint : (host.print usage before).1 with
  | ok value => exact ⟨by simp, fun _ => hlawful.print_ok usage before hprint⟩
  | error fault => exact ⟨by simp [panicked], fun hzero => absurd hzero (by simp [panicked])⟩

/-- A command leaves nothing half-done, on any system that does what it is asked to do and on which
a write that fails, be it to a file or to the standard output, has no effect.  This is so also where
the file that is written is the one that is read.  A command that fails has printed nothing, and
every file is as it was.  When it succeeds, and was not asked for help, it has read a source and
compiled it, and the listing is all that the second argument's file holds or, without a second
argument, all that has been printed; no other file has changed.  A request for help prints the usage
and touches no file. -/
theorem run_leaves_nothing_half_done {host : Host (StateM σ)} {view : View σ φ}
    (hlawful : host.Lawful view) (hwhole : host.PrintsWhole view) (arguments : List String)
    (before : σ) :
    ((run host arguments before).1 = 0 ∨ (run host arguments before).1 = 1 ∨
        (run host arguments before).1 = panicked) ∧
      ((run host arguments before).1 ≠ 0 →
        view.Same before (run host arguments before).2) ∧
      ((run host arguments before).1 = 0 → ¬ AskForHelp arguments →
        arguments.length ≤ 2 ∧ ∃ source lines, view.IsSource before source arguments[0]? ∧
          Compiler.compile source = .ok lines ∧
          view.Delivered before (run host arguments before).2 (Asm.joined lines) arguments[1]?) ∧
      (AskForHelp arguments → (run host arguments before).1 ≠ 1 ∧
        ((run host arguments before).1 = 0 →
          view.Delivered before (run host arguments before).2 usage none)) := by
  refine ⟨?_, fun hstatus => (fails_of_run hlawful hstatus).whole hwhole,
    compiled_of_run hlawful, fun hhelp => helped_of_run hlawful hhelp before⟩
  by_cases hstatus : (run host arguments before).1 = 0
  · exact .inl hstatus
  · exact .inr (fails_of_run hlawful hstatus).status

/-- A directory with a program and a file that does not hold text. -/
def desk : Directory where
  files := ⟨[("count.rm", "printInt(1);".toUTF8), ("noise", ⟨#[0xff]⟩)]⟩
  input := .empty
  output := ""
  errors := ""

/-- A directory whose standard output takes nothing, as on a device without space. -/
def fullHost : Host (StateM Directory) :=
  { Directory.host with
    print := fun _ directory => (.error (.other "No space left on device (os error 28)"), directory) }

theorem fullHost_lawful : fullHost.Lawful Directory.view :=
  { Directory.host_lawful with
    print_error := fun _ before _ _ => (View.Same.refl Directory.view before).toSameFiles
    print_ok := fun _ _ hprint => by cases hprint }

theorem fullHost_printsWhole : fullHost.PrintsWhole Directory.view :=
  fun _ before _ _ => View.Same.refl Directory.view before

theorem find_desk : desk.find "count.rm" = .ok (.file "count.rm") := by cbv

theorem target_desk : desk.target "count.rm" = .ok "count.rm" :=
  (Directory.target_of_find find_desk).1

theorem readSource_desk :
    readSource Directory.host (some "count.rm") desk = (.ok "printInt(1);", desk) := by
  have hread : desk.read "count.rm" = .ok "printInt(1);" := by
    rw [Directory.read, find_desk]
    exact decodeText_toUTF8 "printInt(1);"
  exact congrArg (·, desk) hread

theorem writeListing_desk (listing : String) :
    (writeListing Directory.host listing (some "count.rm") desk).1 = .ok () := by
  have hwrite : desk.write "count.rm" listing =
      .ok { desk with files := desk.files.insert "count.rm" listing.toUTF8 } := by
    rw [Directory.write, target_desk]
    rfl
  simp only [writeListing, Directory.host, hwrite]

theorem compile_desk : ∃ lines, Compiler.compile "printInt(1);" = .ok lines := by
  have hparse : Compiler.parse "printInt(1);" =
      .ok (.expression (.call "printInt" [.int 1])) := by cbv
  rw [Compiler.compile, Compiler.compileWith, hparse]
  exact ⟨_, rfl⟩

/-- The program gives way to its listing, and a file without text to nothing.  A standard output
that takes nothing makes the command fail after it has compiled. -/
theorem run_leaves_nothing_half_done_inPlace :
    (Directory.host.Lawful Directory.view ∧ Directory.host.PrintsWhole Directory.view) ∧
      (∃ lines, Compiler.compile "printInt(1);" = .ok lines ∧
        (run Directory.host ["count.rm", "count.rm"] desk).1 = 0 ∧
        Directory.view.Delivered desk (run Directory.host ["count.rm", "count.rm"] desk).2
          (Asm.joined lines) (some "count.rm")) ∧
      ((run Directory.host ["noise", "count.rm"] desk).1 = 1 ∧
        Directory.view.Same desk (run Directory.host ["noise", "count.rm"] desk).2) ∧
      (fullHost.Lawful Directory.view ∧ fullHost.PrintsWhole Directory.view) ∧
      (run fullHost ["count.rm"] desk).1 = 1 ∧
        Directory.view.Same desk (run fullHost ["count.rm"] desk).2 := by
  have hlawful := Directory.host_lawful
  have hwhole := Directory.host_printsWhole
  obtain ⟨lines, hlines⟩ := compile_desk
  have hread := congrArg Prod.fst readSource_desk
  refine ⟨⟨hlawful, hwhole⟩, ?_, ?_, ⟨fullHost_lawful, fullHost_printsWhole⟩, ?_⟩
  · have hstatus : (run Directory.host ["count.rm", "count.rm"] desk).1 = 0 := by
      rw [run_of_compile rfl, compile_written hread hlines (writeListing_desk _)]
    obtain ⟨-, source, found, hsource, hfound, hdelivered⟩ :=
      (run_leaves_nothing_half_done hlawful hwhole ["count.rm", "count.rm"] desk).2.2.1 hstatus
        (by simp [AskForHelp])
    obtain rfl : source = "printInt(1);" :=
      hsource.unique (isSource_of_readSource hlawful hread)
    obtain rfl : found = lines := Except.ok.inj (hfound.symm.trans hlines)
    exact ⟨found, hfound, hstatus, hdelivered⟩
  · have hunread : (readSource Directory.host (some "noise") desk).1 = .error .invalidText := by
      cbv
    have hstatus : (run Directory.host ["noise", "count.rm"] desk).1 = 1 := by
      rw [run_of_compile rfl, compile_unread hunread]
      rfl
    exact ⟨hstatus, (run_leaves_nothing_half_done hlawful hwhole ["noise", "count.rm"] desk).2.1
      (by rw [hstatus]; decide)⟩
  · have hfull : (readSource fullHost (some "count.rm") desk).1 = .ok "printInt(1);" := hread
    have hstatus : (run fullHost ["count.rm"] desk).1 = 1 := by
      rw [run_of_compile rfl, compile_unwritten hfull hlines rfl]
      rfl
    exact ⟨hstatus, (run_leaves_nothing_half_done fullHost_lawful fullHost_printsWhole
      ["count.rm"] desk).2.1 (by rw [hstatus]; decide)⟩

end WhileCompiler.CommandLine
