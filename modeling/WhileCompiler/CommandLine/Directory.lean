import WhileCompiler.Bindings
import WhileCompiler.CommandLine.Host
import WhileCompiler.CommandLine.Path

/-!
# A directory in memory

A host whose only files are those of one directory without subdirectories, kept as bytes under their
names.  It shows what a command leaves behind.  There are directories around it, but nothing in them
can be reached.
-/

namespace WhileCompiler.CommandLine

structure Directory where
  files : Bindings ByteArray
  input : ByteArray
  output : String
  errors : String

/-- What the steps of a path come to. -/
inductive Place
  /-- The directory itself. -/
  | inside
  /-- A directory that is above it, or the root. -/
  | outside
  | file (name : String)
  deriving DecidableEq, Repr

namespace Place

def start (path : Path) : Place :=
  if path.fromRoot then .outside else .inside

end Place

namespace Directory

/-- Takes one step.  Only a directory has steps that lead on, even where they lead back to it. -/
def follow (directory : Directory) (place : Place) (step : String) : Except FileFault Place :=
  match place with
  | .file _ => .error .notDirectory
  | .inside =>
    if step = "." then .ok .inside
    else if step = ".." then .ok .outside
    else if Path.longestStep < step.utf8ByteSize then .error .nameTooLong
    else if (directory.files.get? step).isSome then .ok (.file step)
    else .error .missing
  | .outside =>
    if step = "." ∨ step = ".." then .ok .outside
    else if Path.longestStep < step.utf8ByteSize then .error .nameTooLong
    else .error .missing

/-- Takes steps in order, up to the first fault. -/
def followAll (directory : Directory) : Place → List String → Except FileFault Place
  | place, [] => .ok place
  | place, step :: rest => do
    let next ← directory.follow place step
    directory.followAll next rest

/-- The path that a text spells, if it can be one. -/
def pathOf (text : String) : Except FileFault Path :=
  if text = "" then .error .missing
  else if Path.longest < text.utf8ByteSize then .error .nameTooLong
  else .ok (.ofText text)

/-- What a text leads to.  A slash at its end is one more step, to where the others have led. -/
def find (directory : Directory) (text : String) : Except FileFault Place := do
  let path ← pathOf text
  let place ← directory.followAll (.start path) path.steps
  if path.asksDirectory then directory.follow place "." else .ok place

/-- The name of the file that is written at a text, whether or not it exists.  Where the text asks
for a directory, the last step is not looked at. -/
def target (directory : Directory) (text : String) : Except FileFault String := do
  let path ← pathOf text
  let parent ← directory.followAll (.start path) path.steps.dropLast
  match path.steps.getLast?, path.asksDirectory with
  | none, _ => .error .directory
  | some _, true => do
    let _ ← directory.follow parent "."
    .error .directory
  | some name, false =>
    match directory.follow parent name with
    | .ok (.file name) => .ok name
    | .ok _ => .error .directory
    | .error .missing => if parent = .inside then .ok name else .error .denied
    | .error fault => .error fault

def read (directory : Directory) (text : String) : Except FileFault String := do
  match ← directory.find text with
  | .file name => decodeText ((directory.files.get? name).getD .empty)
  | .inside | .outside => .error .directory

def write (directory : Directory) (text content : String) : Except FileFault Directory := do
  let name ← directory.target text
  return { directory with files := directory.files.insert name content.toUTF8 }

/-- The directory as a host. -/
def host : Host (StateM Directory) where
  readFile path directory := (directory.read path, directory)
  readInput directory := (decodeText directory.input, directory)
  writeFile path text directory :=
    match directory.write path text with
    | .error fault => (.error fault, directory)
    | .ok directory => (.ok (), directory)
  print text directory := (.ok (), { directory with output := directory.output ++ text })
  report text directory := (.ok (), { directory with errors := directory.errors ++ text })

end Directory

end WhileCompiler.CommandLine
