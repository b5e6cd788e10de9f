import WhileCompiler.CommandLine.Command

/-!
# Lawful hosts

What a command may expect of the system around it.  The system is known through what can be seen of
its states: where a path leads, what the files hold, what stands at the standard input and what has
been printed.  Reading changes nothing of this, and neither does writing a file that fails; a file
that is written holds what was written, and no other file changes.  Of a print that fails nothing is
expected but that it touches no file.
-/

namespace WhileCompiler.CommandLine

/-- What can be seen of the states of a system with places for files. -/
structure View (σ φ : Type) where
  /-- The place that a path leads to, whether or not a file is there. -/
  place? : σ → String → Option φ
  content? : σ → φ → Option ByteArray
  input : σ → ByteArray
  output : σ → String

namespace View

variable {σ φ : Type} {view : View σ φ} {before middle after : σ}

/-- Paths lead where they have led, and files hold what they have held. -/
structure SameFiles (view : View σ φ) (before after : σ) : Prop where
  place? : view.place? after = view.place? before
  content? : view.content? after = view.content? before

theorem SameFiles.trans (hfirst : view.SameFiles before middle)
    (hsecond : view.SameFiles middle after) : view.SameFiles before after :=
  ⟨hsecond.place?.trans hfirst.place?, hsecond.content?.trans hfirst.content?⟩

/-- The files are as they were, and nothing has been printed. -/
structure Same (view : View σ φ) (before after : σ) : Prop extends
    view.SameFiles before after where
  output : view.output after = view.output before

theorem Same.refl (view : View σ φ) (state : σ) : view.Same state state :=
  ⟨⟨rfl, rfl⟩, rfl⟩

theorem Same.trans (hfirst : view.Same before middle) (hsecond : view.Same middle after) :
    view.Same before after :=
  ⟨hfirst.toSameFiles.trans hsecond.toSameFiles, hsecond.output.trans hfirst.output⟩

/-- The text that a command is to read: that of a file, or what stands at the standard input. -/
inductive IsSource (view : View σ φ) (state : σ) (source : String) : Option String → Prop
  | file {path : String} {place : φ} :
      view.place? state path = some place → view.content? state place = some source.toUTF8 →
      IsSource view state source (some path)
  | input : view.input state = source.toUTF8 → IsSource view state source none

theorem IsSource.unique {state : σ} {first second : String} {input : Option String}
    (hfirst : view.IsSource state first input) (hsecond : view.IsSource state second input) :
    first = second := by
  apply String.toByteArray_inj.1
  cases hfirst with
  | file hplace hcontent =>
      cases hsecond with
      | file hplace' hcontent' =>
          obtain rfl := Option.some.inj (hplace.symm.trans hplace')
          exact Option.some.inj (hcontent.symm.trans hcontent')
  | input hinput =>
      cases hsecond with
      | input hinput' => exact hinput.symm.trans hinput'

/-- A text has been written where it should go: it is all that a file holds, or has been printed.
Paths lead where they have led, no other file has changed, and nothing else has been printed. -/
inductive Delivered (view : View σ φ) (before after : σ) (text : String) : Option String → Prop
  | file {path : String} {place : φ} :
      view.place? after = view.place? before →
      view.place? before path = some place → view.content? after place = some text.toUTF8 →
      (∀ other, other ≠ place → view.content? after other = view.content? before other) →
      view.output after = view.output before → Delivered view before after text (some path)
  | printed :
      view.place? after = view.place? before → view.content? after = view.content? before →
      view.output after = view.output before ++ text → Delivered view before after text none

theorem Delivered.after_same {text : String} {target : Option String}
    (hdelivered : view.Delivered middle after text target) (hsame : view.Same before middle) :
    view.Delivered before after text target := by
  cases hdelivered with
  | file hplaces hplace hcontent hothers houtput =>
      refine .file (hplaces.trans hsame.place?) (hsame.place? ▸ hplace) hcontent ?_
        (houtput.trans hsame.output)
      intro other hother
      rw [hothers other hother, hsame.content?]
  | printed hplaces hcontent houtput =>
      exact .printed (hplaces.trans hsame.place?) (hcontent.trans hsame.content?)
        (hsame.output ▸ houtput)

end View

variable {σ φ : Type}

/-- A host that does to a system what it is asked to do.  Nothing is said of what a read or a write
depends on, so that either may fail at any time. -/
structure Host.Lawful (host : Host (StateM σ)) (view : View σ φ) : Prop where
  readFile_same : ∀ path before, view.Same before (host.readFile path before).2
  readFile_ok : ∀ path before source, (host.readFile path before).1 = .ok source →
    view.IsSource before source (some path)
  readInput_same : ∀ before, view.Same before (host.readInput before).2
  readInput_ok : ∀ before source, (host.readInput before).1 = .ok source →
    view.IsSource before source none
  writeFile_error : ∀ path text before fault,
    (host.writeFile path text before).1 = .error fault →
      view.Same before (host.writeFile path text before).2
  writeFile_ok : ∀ path text before, (host.writeFile path text before).1 = .ok () →
    view.Delivered before (host.writeFile path text before).2 text (some path)
  print_error : ∀ text before fault, (host.print text before).1 = .error fault →
    view.SameFiles before (host.print text before).2
  print_ok : ∀ text before, (host.print text before).1 = .ok () →
    view.Delivered before (host.print text before).2 text none
  report_same : ∀ text before, view.Same before (host.report text before).2

/-- On the standard output, too, a write that fails has no effect. -/
def Host.PrintsWhole (host : Host (StateM σ)) (view : View σ φ) : Prop :=
  ∀ text before fault, (host.print text before).1 = .error fault →
    view.Same before (host.print text before).2

end WhileCompiler.CommandLine
