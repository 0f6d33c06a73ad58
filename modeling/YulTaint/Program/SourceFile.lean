import YulTaint.Program.Reader

/-!
Programs from files. Paths are brought into a normal form, which also names
the program; the bytes of a file are UTF-8, and every kind of line end is
read as a newline. Directories are values, so reading is a function.
-/

namespace YulTaint.SourceFile

/-- The working directory: its files with their bytes, and its directories. A
name may be a path. -/
structure Directory where
  files : List (String × List UInt8) := []
  directories : List String := []

/-- The part of a path before the components. Exactly two slashes are kept. -/
def leadingSlashes (path : List Char) : String :=
  match (path.takeWhile (· = '/')).length with
  | 0 => ""
  | 2 => "//"
  | _ => "/"

def splitSlashes : List Char → List (List Char)
  | [] => [[]]
  | c :: rest =>
      let parts := splitSlashes rest
      if c = '/' then [] :: parts
      else match parts with
        | part :: later => (c :: part) :: later
        | [] => [[c]]

/-- The components that count: neither empty nor a single dot. -/
def components (path : String) : List String :=
  ((splitSlashes path.toList).filter fun part => part ≠ [] && part ≠ ['.']).map String.ofList

/-- The normal form of a path; an empty one is a dot. -/
def normalise (path : String) : String :=
  let root := leadingSlashes path.toList
  let whole := root ++ String.intercalate "/" (components path)
  if whole = "" then "." else whole

inductive SystemError where
  | notFound
  | notADirectory
  | isADirectory
  | nameTooLong
deriving DecidableEq, Repr

def SystemError.describe : SystemError → String
  | .notFound => "[Errno 2] No such file or directory"
  | .notADirectory => "[Errno 20] Not a directory"
  | .isADirectory => "[Errno 21] Is a directory"
  | .nameTooLong => "[Errno 36] File name too long"

inductive Entry where
  | file (bytes : List UInt8)
  | directory

/-- What a path inside the directory leads to. A directory is there if it is
listed, or if something listed lies below it. -/
def Directory.entry? (d : Directory) (path : List String) : Option Entry :=
  match d.files.find? fun (name, _) => components name = path with
  | some (_, bytes) => some (.file bytes)
  | none =>
      let names := d.files.map (·.1) ++ d.directories
      if path = [] || names.any fun name => path.isPrefixOf (components name) then some .directory
      else none

/-- A place reached while following a path: inside the working directory, or
outside it, where nothing but directories above is known. -/
inductive Place where
  | inside (path : List String)
  | outside

/-- A name of more bytes than this is no name in any directory. -/
def maxNameBytes : Nat := 255

/-- A path of more bytes than this is not followed at all. -/
def maxPathBytes : Nat := 4095

def Directory.follow (d : Directory) : Place → List String → Except SystemError Entry
  | .outside, [] => .ok .directory
  | .outside, name :: rest =>
      if name = ".." then d.follow .outside rest
      else if maxNameBytes < name.utf8ByteSize then .error .nameTooLong
      else .error .notFound
  | .inside path, [] =>
      match d.entry? path with
      | some entry => .ok entry
      | none => .error .notFound
  | .inside path, name :: rest =>
      match d.entry? path with
      | none => .error .notFound
      | some (.file _) => .error .notADirectory
      | some .directory =>
          if maxNameBytes < name.utf8ByteSize then .error .nameTooLong
          else if name ≠ ".." then d.follow (.inside (path ++ [name])) rest
          else if path = [] then d.follow .outside rest
          else d.follow (.inside path.dropLast) rest

def Directory.read (d : Directory) (path : String) : Except SystemError (List UInt8) := do
  if maxPathBytes < (normalise path).utf8ByteSize then
    .error .nameTooLong
  let start : Place := if path.toList.head? = some '/' then .outside else .inside []
  match ← d.follow start (components path) with
  | .file bytes => .ok bytes
  | .directory => .error .isADirectory

def unifyLineEnds : List Char → List Char
  | '\r' :: '\n' :: rest => '\n' :: unifyLineEnds rest
  | '\r' :: rest => '\n' :: unifyLineEnds rest
  | c :: rest => c :: unifyLineEnds rest
  | [] => []

inductive LoadError where
  | fault (fault : Fault)
  | notUtf8
  | nullInPath

def decode? (bytes : List UInt8) : Option String :=
  (String.fromUTF8? ⟨bytes.toArray⟩).map fun text => String.ofList (unifyLineEnds text.toList)

def load (d : Directory) (path : String) : Except LoadError Node :=
  let name := normalise path
  if path.toList.contains '\x00' then .error .nullInPath
  else
    match d.read path with
    | .error reason =>
        .error (.fault (Unreadable.file name s!"{reason.describe}: {Text.quoted name}").fault)
    | .ok bytes =>
        match decode? bytes with
        | none => .error .notUtf8
        | some text =>
            match Node.ofText? name text with
            | .ok program => .ok program
            | .error fault => .error (.fault fault)

end YulTaint.SourceFile
