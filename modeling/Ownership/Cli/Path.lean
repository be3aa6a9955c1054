/-! # Paths

A path is written without empty parts and without dots that change nothing; two dots stay. A path of
exactly two leading slashes keeps both. A path and each of its parts have a greatest length in
bytes.
-/

namespace Ownership.Cli

structure Path where
  root : String
  parts : List String
deriving DecidableEq, Repr, Inhabited

namespace Path

def ofString (s : String) : Path :=
  let slashes := s.toList.takeWhile (· == '/')
  { root := if slashes.isEmpty then "" else if slashes.length = 2 then "//" else "/"
    parts := (s.splitOn "/").filter fun part => part != "" && part != "." }

def text (p : Path) : String :=
  let s := p.root ++ "/".intercalate p.parts
  if s.isEmpty then "." else s

/-- Whether a null character stands in the path, which then names nothing. -/
def hasNull (p : Path) : Bool := p.parts.any (·.contains '\x00')

end Path

/-- The most bytes of a path. -/
def pathLimit : Nat := 4095

/-- The most bytes of a part of a path. -/
def partLimit : Nat := 255

/-- Why a file cannot be read. -/
inductive FileError
  | notFound
  | isDirectory
  | notDirectory
  | nameTooLong
deriving DecidableEq, Repr, Inhabited

def FileError.message : FileError → String
  | notFound => "No such file or directory"
  | isDirectory => "Is a directory"
  | notDirectory => "Not a directory"
  | nameTooLong => "File name too long"

/-- Files by their paths, in a working directory that holds nothing else. -/
structure FileTree where
  files : List (List String × String)
deriving DecidableEq, Repr, Inhabited

namespace FileTree

def ofFiles (files : List (String × String)) : FileTree :=
  ⟨files.map fun (path, text) => ((Path.ofString path).parts, text)⟩

def file? (t : FileTree) (parts : List String) : Option String := t.files.lookup parts

def isDirectory (t : FileTree) (parts : List String) : Bool :=
  parts.isEmpty || t.files.any fun (p, _) => parts.isPrefixOf p && p != parts

/-- Where a walk along a path stands: in a directory of the tree, or in one outside of it. -/
inductive Place
  | inside (parts : List String)
  | outside
deriving DecidableEq, Repr, Inhabited

/-- The error for a part that its directory does not have. -/
def missing (part : String) : FileError :=
  if part.utf8ByteSize > partLimit then .nameTooLong else .notFound

/-- Reads the file at the end of a path. -/
def readFrom (t : FileTree) : Place → List String → Except FileError String
  | _, [] => .error .isDirectory
  | .outside, part :: rest =>
    if part = ".." then t.readFrom .outside rest else .error (missing part)
  | .inside here, part :: rest =>
    if part = ".." then
      if here.isEmpty then t.readFrom .outside rest else t.readFrom (.inside here.dropLast) rest
    else
      let there := here ++ [part]
      match t.file? there with
      | some text => if rest.isEmpty then .ok text else .error .notDirectory
      | none =>
        if t.isDirectory there then t.readFrom (.inside there) rest else .error (missing part)

def read (t : FileTree) (p : Path) : Except FileError String :=
  if p.text.utf8ByteSize > pathLimit then .error .nameTooLong
  else t.readFrom (if p.root.isEmpty then .inside [] else .outside) p.parts

end FileTree

end Ownership.Cli
