namespace DerivedSignal

/-- Why a file cannot be used. -/
inductive FileFault where
  | missing
  | occupied
  | notDirectory
  | isDirectory
  /-- The content is no text. -/
  | notText
  /-- Another reason, in the words of the file system. -/
  | other (reason : String)
  deriving DecidableEq, Repr

/-- The wording of a refusal. -/
def FileFault.message : FileFault → String
  | missing => "No such file or directory (os error 2)"
  | occupied => "File exists (os error 17)"
  | notDirectory => "Not a directory (os error 20)"
  | isDirectory => "Is a directory (os error 21)"
  | notText => "stream did not contain valid UTF-8"
  | other reason => reason

/-- The text of a file's content. -/
def FileFault.decode (content : ByteArray) : Except FileFault String :=
  match String.fromUTF8? content with
  | some text => .ok text
  | none => .error .notText

/-- The parts of a path whose first part begins with some characters. -/
def partsBehind (front : List Char) : List Char → List String
  | [] => [String.ofList front]
  | c :: rest =>
    if c = '/' then String.ofList front :: partsBehind [] rest else partsBehind (front ++ [c]) rest

/-- The parts of a path between its separators. -/
def pathParts (path : String) : List String := partsBehind [] path.toList

/-- Where a file or directory is: the names on the way to it. -/
abbrev Location := List String

/-- Files below a directory. The directories on the way to a file need not be listed. -/
structure FileTree where
  files : List (Location × ByteArray)
  directories : List Location

namespace FileTree

/-- What is at a location. -/
inductive Entry where
  | file (content : ByteArray)
  | directory

/-- What is at a location, if anything is. -/
def entry? (t : FileTree) (l : Location) : Option Entry :=
  match t.files.lookup l with
  | some content => some (.file content)
  | none =>
    if l.isEmpty || t.directories.any l.isPrefixOf || t.files.any fun f => l.isPrefixOf f.1 then
      some .directory
    else none

/-- Goes from a directory along the parts of a path. -/
def walk (t : FileTree) : Location → List String → Except FileFault Location
  | l, [] => .ok l
  | l, part :: parts =>
    match t.entry? l with
    | none => .error .missing
    | some (.file _) => .error .notDirectory
    | some .directory =>
      if part = "" || part = "." then walk t l parts
      else if part = ".." then walk t l.dropLast parts
      else walk t (l ++ [part]) parts

/-- The location of a path. Outside the tree there is nothing. -/
def locate (t : FileTree) (path : String) : Except FileFault Location :=
  if path = "" || path.startsWith "/" then .error .missing
  else t.walk [] (pathParts path)

/-- The content of a file. -/
def read (t : FileTree) (path : String) : Except FileFault ByteArray :=
  match t.locate path with
  | .error e => .error e
  | .ok l =>
    match t.entry? l with
    | none => .error .missing
    | some .directory => .error .isDirectory
    | some (.file content) => .ok content

/-- The text of a file. -/
def readText (t : FileTree) (path : String) : Except FileFault String :=
  (t.read path).bind FileFault.decode

/-- Writes a file over an older one. The directory of the file must exist. -/
def write (t : FileTree) (path text : String) : Except FileFault FileTree :=
  match t.locate path with
  | .error .missing =>
    .error (if path.endsWith "/" && (t.locate (path.dropEnd 1).toString).isOk then .isDirectory
      else .missing)
  | .error e => .error e
  | .ok l =>
    match t.entry? l with
    | some .directory => .error .isDirectory
    | _ => .ok { t with files := (l, text.toUTF8) :: t.files.filter fun f => f.1 ≠ l }

/-- Creates a directory and those on the way to it. -/
def createFrom (t : FileTree) : Location → List String → Except FileFault FileTree
  | l, [] =>
    match t.entry? l with
    | some (.file _) => .error .occupied
    | some .directory => .ok t
    | none => .ok { t with directories := l :: t.directories }
  | l, part :: parts =>
    match t.entry? l with
    | some (.file _) => .error .notDirectory
    | _ =>
      if part = "" || part = "." then createFrom t l parts
      else if part = ".." then createFrom t l.dropLast parts
      else createFrom t (l ++ [part]) parts

/-- Creates the directory of a path and those on the way to it. Outside the tree there is nothing to
do. -/
def createDirectories (t : FileTree) (path : String) : Except FileFault FileTree :=
  if path = "" || path.startsWith "/" then .ok t else t.createFrom [] (pathParts path)

end FileTree

end DerivedSignal
