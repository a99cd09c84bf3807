import TreeQuery.Command.Run

/-!
Folders held in memory, in which the command can run without touching a disk. A path is walked
name by name from the folder or from the root: every name but the last has to lead to a folder.
-/

set_option autoImplicit false
set_option relaxedAutoImplicit false

namespace TreeQuery.Command

inductive PathFault where
  | missing
  | notFolder
  | isFolder
  | tooLong
  deriving DecidableEq

def PathFault.message : PathFault → String
  | missing => "No such file or directory (os error 2)"
  | notFolder => "Not a directory (os error 20)"
  | isFolder => "Is a directory (os error 21)"
  | tooLong => "File name too long (os error 36)"

def pathNames (path : String) : List String := (path.splitOn "/").filter fun s => !s.isEmpty

/-- Whether a name leads to a place that is known without looking: the one it starts from, or the
one above. -/
def isDots (name : String) : Bool := name = "." || name = ".."

/-- The names that lead to a place, without detours. Places outside the folder begin with names
that go up, or with the root. -/
abbrev Place := List String

namespace Place

def root : Place := ["/"]

/-- The place above another one; nothing is above the root. -/
def up (p : Place) : Place :=
  match p.getLast? with
  | none => [".."]
  | some ".." => p ++ [".."]
  | some "/" => p
  | some _ => p.dropLast

def follow (p : Place) (name : String) : Place :=
  if name = "." then p else if name = ".." then p.up else p ++ [name]

def start (path : String) : Place := if path.startsWith "/" then root else []

/-- The place to which a path leads if every name on it can be followed. -/
def ofPath (path : String) : Place := (pathNames path).foldl follow (start path)

/-- Whether a place is the folder itself or lies on the way from it to the root. -/
def isAbove (p : Place) : Bool := p = root || p.all (· = "..")

end Place

def nameLimit : Nat := 255

def pathLimit : Nat := 4095

structure Folder where
  files : List (Place × ByteArray)

namespace Folder

def put (d : Folder) (p : Place) (content : ByteArray) : Folder :=
  ⟨(p, content) :: d.files.filter fun f => f.1 != p⟩

/-- The folder of the files with the given paths; of two for one place the later one counts. -/
def ofFiles (files : List (String × ByteArray)) : Folder :=
  files.foldl (fun d f => d.put (.ofPath f.1) f.2) ⟨[]⟩

def hasFolder (d : Folder) (p : Place) : Bool :=
  p.isAbove || d.files.any fun f => p.length < f.1.length && p.isPrefixOf f.1

def file? (d : Folder) (p : Place) : Option ByteArray := d.files.lookup p

def enter (d : Folder) (p : Place) (name : String) : Except PathFault Place :=
  if isDots name then .ok (p.follow name)
  else if nameLimit < name.utf8ByteSize then .error .tooLong
  else if d.hasFolder (p ++ [name]) then .ok (p ++ [name])
  else if (d.file? (p ++ [name])).isSome then .error .notFolder
  else .error .missing

/-- Follows a path up to its last name, which has to be able to name a file. -/
def approach (d : Folder) (path : String) : Except PathFault (Place × String) :=
  if pathLimit < path.utf8ByteSize then .error .tooLong
  else do
    let names := pathNames path
    let place ← names.dropLast.foldlM d.enter (.start path)
    match names.getLast?.filter fun name => !isDots name with
    | none => .error .isFolder
    | some name => .ok (place, name)

/-- The content of the file that a path leads to. After a slash only a folder can be meant. -/
def read (d : Folder) (path : String) : Except PathFault ByteArray := do
  let (place, name) ← d.approach path
  if nameLimit < name.utf8ByteSize then .error .tooLong
  else if d.hasFolder (place ++ [name]) then .error .isFolder
  else
    match d.file? (place ++ [name]) with
    | none => .error .missing
    | some content => if path.endsWith "/" then .error .notFolder else .ok content

/-- The place at which a path has a file written, whether there is one or not. A path that ends
with a slash cannot name a file. -/
def target (d : Folder) (path : String) : Except PathFault Place := do
  let (place, name) ← d.approach path
  if path.endsWith "/" then .error .isFolder
  else if nameLimit < name.utf8ByteSize then .error .tooLong
  else if d.hasFolder (place ++ [name]) then .error .isFolder
  else .ok (place ++ [name])

def contents (d : Folder) (path : String) : Except ReadFailure String :=
  match d.read path with
  | .error .missing => .error .notFound
  | .error fault => .error (.refused fault.message)
  | .ok content =>
    match String.fromUTF8? content with
    | some s => .ok s
    | none => .error (.refused "stream did not contain valid UTF-8")

def writeFailure? (d : Folder) (path : String) : Option String :=
  match d.target path with
  | .ok _ => none
  | .error fault => some fault.message

def write (d : Folder) (path : String) (content : ByteArray) : Folder :=
  match d.target path with
  | .ok place => d.put place content
  | .error _ => d

def run (d : Folder) (environment : String → Option String) (standardInput : ByteArray)
    (args : List String) : Outcome × Folder :=
  let outcome := Command.run {
    environment
    standardInput := .bytes standardInput
    contents := d.contents
    writeFailure? := d.writeFailure? } args
  match outcome.written with
  | some (path, text) => (outcome, d.write path text.toUTF8)
  | none => (outcome, d)

end Folder

end TreeQuery.Command
