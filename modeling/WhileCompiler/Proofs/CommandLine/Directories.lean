import WhileCompiler.CommandLine.Directory
import WhileCompiler.Proofs.CommandLine.LawfulHosts
import WhileCompiler.Proofs.Results

/-!
# A directory is a lawful host

A path leads to the file whose name its last step spells, if the other steps stay in the directory.
This does not depend on the files that are there, so that reading and writing move nothing.  Where a
file can be read, the same path leads to it when it is written.
-/

namespace WhileCompiler.CommandLine

/-- Bytes that can be decoded are those of the text. -/
theorem toUTF8_of_decodeText {bytes : ByteArray} {text : String}
    (hdecode : decodeText bytes = .ok text) : text.toUTF8 = bytes := by
  rw [decodeText] at hdecode
  split at hdecode
  · next found hfound =>
      obtain rfl := Except.ok.inj hdecode
      rw [String.fromUTF8?] at hfound
      split at hfound
      · obtain rfl := Option.some.inj hfound
        rfl
      · cases hfound
  · cases hdecode

theorem decodeText_toUTF8 (text : String) : decodeText text.toUTF8 = .ok text := by
  have hvalid : String.fromUTF8? text.toUTF8 = some text := by
    rw [String.fromUTF8?, String.toUTF8_eq_toByteArray, dif_pos text.isValidUTF8]
    rfl
  rw [decodeText, hvalid]

namespace Directory

variable {directory : Directory} {place : Place} {text name : String}

/-! ## Where paths lead -/

/-- A step that can name a file of a directory. -/
structure NamesFile (step : String) : Prop where
  ne_self : step ≠ "."
  ne_parent : step ≠ ".."
  size_le : step.utf8ByteSize ≤ Path.longestStep

/-- What a step can come to.  A file can be found, or be missing, in the directory itself only, and
no step leads back there. -/
inductive Leads (directory : Directory) : Place → String → Except FileFault Place → Prop
  | stays : Leads directory .inside "." (.ok .inside)
  | leaves {place : Place} {step : String} : Leads directory place step (.ok .outside)
  | found {step : String} : NamesFile step → (directory.files.get? step).isSome →
      Leads directory .inside step (.ok (.file step))
  | missing {step : String} : NamesFile step → Leads directory .inside step (.error .missing)
  | refused {place : Place} {step : String} {fault : FileFault} :
      (fault = .missing → place ≠ .inside) → Leads directory place step (.error fault)

theorem leads_follow (directory : Directory) (place : Place) (step : String) :
    Leads directory place step (directory.follow place step) := by
  rw [follow.eq_def]
  cases place with
  | file other => exact .refused (by simp)
  | inside =>
      dsimp only
      split
      · next hself => exact hself ▸ .stays
      · next hself =>
          split
          · exact .leaves
          · next hparent =>
              split
              · exact .refused (by simp)
              · next hsize =>
                  have hnames : NamesFile step := ⟨hself, hparent, Nat.le_of_not_lt hsize⟩
                  split
                  · next hfound => exact .found hnames hfound
                  · exact .missing hnames
  | outside =>
      dsimp only
      split
      · exact .leaves
      · split
        · exact .refused (by simp)
        · exact .refused (by simp)

theorem NamesFile.follow_inside {step : String} (hnames : NamesFile step) :
    directory.follow .inside step =
      if (directory.files.get? step).isSome then .ok (.file step) else .error .missing := by
  rw [follow, if_neg hnames.ne_self, if_neg hnames.ne_parent,
    if_neg (Nat.not_lt.2 hnames.size_le)]

theorem followAll_concat (place : Place) (steps : List String) (last : String) :
    directory.followAll place (steps ++ [last]) =
      directory.followAll place steps >>= fun parent => directory.follow parent last := by
  induction steps generalizing place with
  | nil =>
      change (directory.follow place last >>= fun next => .ok next) = directory.follow place last
      cases directory.follow place last with
      | error fault => rfl
      | ok next => rfl
  | cons step rest ih =>
      change (directory.follow place step >>= fun next => directory.followAll next (rest ++ [last]))
        = _
      rw [followAll]
      cases directory.follow place step with
      | error fault => rfl
      | ok next => exact ih next

theorem followAll_eq_inside_iff {steps : List String} :
    directory.followAll place steps = .ok .inside ↔
      place = .inside ∧ ∀ step ∈ steps, step = "." := by
  induction steps generalizing place with
  | nil => simp [followAll]
  | cons step rest ih =>
      rw [followAll, bind_eq_ok, List.forall_mem_cons]
      constructor
      · rintro ⟨next, hfollow, hrest⟩
        obtain ⟨rfl, hsteps⟩ := ih.1 hrest
        have hleads := leads_follow directory place step
        rw [hfollow] at hleads
        cases hleads with
        | stays => exact ⟨rfl, rfl, hsteps⟩
      · rintro ⟨rfl, rfl, hsteps⟩
        exact ⟨.inside, rfl, ih.2 ⟨rfl, hsteps⟩⟩

/-- A path can be written where it stays inside the directory up to a last step that can name a
file. -/
theorem target_eq_ok_iff :
    directory.target text = .ok name ↔ ∃ path steps, pathOf text = .ok path ∧
      path.asksDirectory = false ∧ path.steps = steps ++ [name] ∧ NamesFile name ∧
      directory.followAll (.start path) steps = .ok .inside := by
  rw [target, bind_eq_ok]
  constructor
  · rintro ⟨path, hpath, htarget⟩
    rw [bind_eq_ok] at htarget
    obtain ⟨parent, hparent, hlast⟩ := htarget
    split at hlast
    · cases hlast
    · rw [bind_eq_ok] at hlast
      obtain ⟨place, -, hrefused⟩ := hlast
      cases hrefused
    · next last hlastStep hasks =>
        obtain ⟨steps, hsteps⟩ := List.getLast?_eq_some_iff.1 hlastStep
        rw [hsteps, List.dropLast_concat] at hparent
        have hleads := leads_follow directory parent last
        generalize directory.follow parent last = reached at hleads hlast
        -- Only a file that is there, or is missing from the directory, can be written.
        suffices hinside : parent = .inside ∧ last = name ∧ NamesFile last by
          obtain ⟨rfl, rfl, hnames⟩ := hinside
          exact ⟨path, steps, hpath, hasks, hsteps, hnames, hparent⟩
        cases hleads with
        | stays | leaves => cases hlast
        | found hnames hfound => exact ⟨rfl, Except.ok.inj hlast, hnames⟩
        | missing hnames => exact ⟨rfl, Except.ok.inj hlast, hnames⟩
        | refused hfault =>
            split at hlast
            · next heq => cases heq
            · cases hlast
            · next heq =>
                rw [if_neg (hfault (Except.error.inj heq))] at hlast
                cases hlast
            · cases hlast
  · rintro ⟨path, steps, hpath, hasks, hsteps, hnames, hfollow⟩
    refine ⟨path, hpath, bind_eq_ok.2 ⟨.inside, ?_, ?_⟩⟩
    · rw [hsteps, List.dropLast_concat, hfollow]
    · rw [hsteps, hasks, List.getLast?_concat]
      dsimp only
      by_cases hfound : (directory.files.get? name).isSome
      · rw [hnames.follow_inside, if_pos hfound]
      · rw [hnames.follow_inside, if_neg hfound]
        rfl

/-- Where a path leads to does not depend on the files. -/
theorem toOption_target_eq (first second : Directory) (text : String) :
    (first.target text).toOption = (second.target text).toOption := by
  have hsame (name : String) : first.target text = .ok name ↔ second.target text = .ok name := by
    simp only [target_eq_ok_iff, followAll_eq_inside_iff]
  cases hfirst : first.target text with
  | ok name => rw [(hsame name).1 hfirst]
  | error fault =>
      cases hsecond : second.target text with
      | ok name => cases hfirst.symm.trans ((hsame name).2 hsecond)
      | error fault => rfl

/-- Where a file can be found, it can be written. -/
theorem target_of_find (hfind : directory.find text = .ok (.file name)) :
    directory.target text = .ok name ∧ (directory.files.get? name).isSome := by
  rw [find, bind_eq_ok] at hfind
  obtain ⟨path, hpath, hfind⟩ := hfind
  rw [bind_eq_ok] at hfind
  obtain ⟨place, hplace, hfind⟩ := hfind
  cases hasks : path.asksDirectory with
  | true =>
      rw [hasks, if_pos rfl] at hfind
      have hleads := leads_follow directory place "."
      rw [hfind] at hleads
      cases hleads with
      | found hnames hfound => exact absurd rfl hnames.ne_self
  | false =>
      rw [hasks] at hfind
      obtain rfl := Except.ok.inj hfind
      cases hlast : path.steps.getLast? with
      | none =>
          rw [List.getLast?_eq_none_iff.1 hlast] at hplace
          have hstart := Except.ok.inj hplace
          rw [Place.start] at hstart
          split at hstart <;> cases hstart
      | some last =>
          obtain ⟨steps, hsteps⟩ := List.getLast?_eq_some_iff.1 hlast
          rw [hsteps, followAll_concat, bind_eq_ok] at hplace
          obtain ⟨parent, hparent, hfollow⟩ := hplace
          have hleads := leads_follow directory parent last
          rw [hfollow] at hleads
          cases hleads with
          | found hnames hfound =>
              refine ⟨target_eq_ok_iff.2 ?_, hfound⟩
              exact ⟨path, steps, hpath, hasks, hsteps, hnames, hparent⟩

/-! ## What reading and writing do -/

/-- What can be seen of a directory. -/
def view : View Directory String where
  place? directory text := (directory.target text).toOption
  content? directory name := directory.files.get? name
  input directory := directory.input
  output directory := directory.output

theorem place?_eq (first second : Directory) : view.place? first = view.place? second :=
  funext (toOption_target_eq first second)

theorem isSource_of_read {source : String} (hread : directory.read text = .ok source) :
    view.IsSource directory source (some text) := by
  rw [read, bind_eq_ok] at hread
  obtain ⟨place, hfind, hdecode⟩ := hread
  cases place with
  | inside => cases hdecode
  | outside => cases hdecode
  | file name =>
      obtain ⟨htarget, hfile⟩ := target_of_find hfind
      obtain ⟨bytes, hbytes⟩ := Option.isSome_iff_exists.1 hfile
      have hplace : view.place? directory text = some name := congrArg Except.toOption htarget
      have hsource : source.toUTF8 = bytes := toUTF8_of_decodeText (by simpa [hbytes] using hdecode)
      exact .file hplace (hbytes.trans (congrArg some hsource.symm))

theorem delivered_of_write {written : Directory} {content : String}
    (hwrite : directory.write text content = .ok written) :
    view.Delivered directory written content (some text) := by
  rw [write, bind_eq_ok] at hwrite
  obtain ⟨name, htarget, hwritten⟩ := hwrite
  obtain rfl := Except.ok.inj hwritten
  have hplace : view.place? directory text = some name := congrArg Except.toOption htarget
  refine .file (place?_eq _ _) hplace ?_ ?_ rfl
  · exact Bindings.get?_insert_self _ name _
  · exact fun other hother => Bindings.get?_insert_of_ne _ _ hother

/-- A directory keeps to what it is asked to do. -/
theorem host_lawful : host.Lawful view where
  readFile_same path before := .refl view before
  readFile_ok path before source hread := isSource_of_read hread
  readInput_same before := .refl view before
  readInput_ok before source hread := .input (toUTF8_of_decodeText hread).symm
  writeFile_error path text before fault hwrite := by
    cases hwritten : before.write path text with
    | error fault => simp only [host, hwritten]; exact .refl view before
    | ok written => simp [host, hwritten] at hwrite
  writeFile_ok path text before hwrite := by
    cases hwritten : before.write path text with
    | error fault => simp [host, hwritten] at hwrite
    | ok written => simp only [host, hwritten]; exact delivered_of_write hwritten
  print_error text before fault hprint := by cases hprint
  print_ok text before hprint := .printed (place?_eq _ _) rfl rfl
  report_same text before := ⟨⟨place?_eq _ _, rfl⟩, rfl⟩

theorem host_printsWhole : host.PrintsWhole view :=
  fun _ _ _ hprint => by cases hprint

end Directory

end WhileCompiler.CommandLine
