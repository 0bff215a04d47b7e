import Sequencer.Table
import Sequencer.Text.Split

/-!
# Files

Text files as the library sees them: a reader that gives the text of a path or says why there is none.
A directory of known files is such a reader. It follows paths one component at a time, as a file system
does, and knows nothing of what lies outside of it.
-/

namespace Sequencer

/-- Why a file has no text. -/
inductive FileError where
  | notFound
  | isDirectory
  /-- The path goes on behind a file. -/
  | notDirectory
  | nameTooLong
  /-- The path holds a NUL. -/
  | badName
  /-- The file holds no text. -/
  | notText
  | other (reason : String)
  deriving Repr, DecidableEq

def FileError.message : FileError → String
  | .notFound => "No such file or directory (os error 2)"
  | .isDirectory => "Is a directory (os error 21)"
  | .notDirectory => "Not a directory (os error 20)"
  | .nameTooLong => "File name too long (os error 36)"
  | .badName => "file name contained an unexpected NUL byte"
  | .notText => "stream did not contain valid UTF-8"
  | .other reason => reason

/-- Gives the text of each path. -/
abbrev FileReader := String → Except FileError String

/-! ## Directories of known files -/

/-- Where a path has led: to a place in the directory, named from it, or outside of it. -/
inductive Place where
  | inside (names : List String)
  | outside
  deriving Repr, DecidableEq

/-- The components of a path. Empty ones and those that stay in place name nothing. -/
def pathNames (path : String) : List String :=
  ((Text.splitAll '/' path.toList).map String.ofList).filter fun name => name ≠ "" ∧ name ≠ "."

/-- Text files by the components of their paths. -/
structure Directory where
  files : List (List String × String)
  deriving Repr

namespace Directory

def ofTable (files : Table String) : Directory :=
  ⟨files.map fun (path, text) => (pathNames path, text)⟩

/-- The text at a place, if a file is there. -/
def file? (d : Directory) (names : List String) : Option String :=
  (d.files.find? fun (file, _) => file = names).map (·.2)

/-- Whether a directory is at a place: one that files lie under, or the whole. -/
def isDirectory (d : Directory) (names : List String) : Bool :=
  names.isEmpty || d.files.any fun (file, _) => names.isPrefixOf file && names.length < file.length

/-- Follows components from a directory on. -/
def follow (d : Directory) : Place → List String → Except FileError Place
  | place, [] => .ok place
  | .outside, name :: rest => if name = ".." then d.follow .outside rest else .error .notFound
  | .inside names, name :: rest =>
    if name = ".." then
      d.follow (if names.isEmpty then .outside else .inside names.dropLast) rest
    else if name.utf8ByteSize > 255 then .error .nameTooLong
    else
      let names := names ++ [name]
      if d.isDirectory names then d.follow (.inside names) rest
      else if (d.file? names).isSome then
        if rest.isEmpty then .ok (.inside names) else .error .notDirectory
      else .error .notFound

/-- Whether the last component of a path has to be a directory. -/
def endsInDirectory (path : String) : Bool :=
  match (Text.splitAll '/' path.toList).getLast? with
  | some last => last = [] ∨ last = ['.']
  | none => false

/-- The text of a path. -/
def read (d : Directory) : FileReader := fun path =>
  if path.toList.contains (Char.ofNat 0) then .error .badName
  else if path.isEmpty then .error .notFound
  else if path.utf8ByteSize > 4095 then .error .nameTooLong
  else
    match d.follow (if path.startsWith "/" then .outside else .inside []) (pathNames path) with
    | .error e => .error e
    | .ok .outside => .error .isDirectory
    | .ok (.inside names) =>
      match d.file? names with
      | some text => if endsInDirectory path then .error .notDirectory else .ok text
      | none => .error .isDirectory

end Directory
end Sequencer
