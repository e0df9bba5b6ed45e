import RV32IM.Text.Utf8

-- A directory of files, which is all of a file system that a program can see. It has no directories
-- below it. Above it there are directories, but nothing in them can be reached.

namespace RV32IM

-- Why a path does not lead where it should.
inductive PathError
  | notFound
  | notDirectory
  | isDirectory
  | nameTooLong
  deriving DecidableEq

def PathError.message : PathError → String
  | notFound => "No such file or directory (os error 2)"
  | notDirectory => "Not a directory (os error 20)"
  | isDirectory => "Is a directory (os error 21)"
  | nameTooLong => "File name too long (os error 36)"

-- Where a path leads. A file need not exist.
inductive Place
  | directory
  | file (name : String)
  deriving DecidableEq

-- Files and what they hold, no two of one name.
structure Directory where
  files : List (String × List Byte)

namespace Directory

def empty : Directory := ⟨[]⟩

def contents? (d : Directory) (name : String) : Option (List Byte) :=
  d.files.lookup name

def put (d : Directory) (name : String) (bs : List Byte) : Directory :=
  if (d.contents? name).isSome then
    ⟨d.files.map fun f => if f.1 = name then (name, bs) else f⟩
  else ⟨d.files ++ [(name, bs)]⟩

-- A path must be shorter than this many bytes.
def pathLimit : Nat := 4096

-- A name must have at most this many bytes.
def nameLimit : Nat := 255

-- Follows the parts of a path, from the directory or from above it. Parts that are empty or a
-- single dot stay where they are. A slash after the last name asks for a directory, and none is
-- ever made.
def walk (d : Directory) (creating above : Bool) : List String → Except PathError Place
  | [] => .ok .directory
  | p :: ps =>
    if p.isEmpty ∨ p = "." then d.walk creating above ps
    else if p = ".." then d.walk creating true ps
    else if creating ∧ !ps.isEmpty ∧ ps.all String.isEmpty then .error .isDirectory
    else if p.utf8ByteSize > nameLimit then .error .nameTooLong
    else if above then .error .notFound
    else if ps.isEmpty then .ok (.file p)
    else if (d.contents? p).isSome then .error .notDirectory
    else .error .notFound

-- Follows a path to a file that exists, or to one that is made if it does not.
def resolve (d : Directory) (creating : Bool) (path : String) : Except PathError Place :=
  if path.isEmpty then .error .notFound
  else if path.utf8ByteSize ≥ pathLimit then .error .nameTooLong
  else d.walk creating (path.toList.head? = some '/') (path.splitOn "/")

def read (d : Directory) (path : String) : Except PathError (List Byte) := do
  match ← d.resolve false path with
  | .directory => throw .isDirectory
  | .file name =>
    match d.contents? name with
    | some bs => return bs
    | none => throw .notFound

-- Makes or replaces the file at a path.
def write (d : Directory) (path : String) (bs : List Byte) : Except PathError Directory := do
  match ← d.resolve true path with
  | .directory => throw .isDirectory
  | .file name => return d.put name bs

end Directory

end RV32IM
